import Hdmi2Usb.Framebuffer
import Mathlib.Algebra.Order.Ring.Int
import Mathlib.Tactic.Ring
/-!
# Pattern — drawing the test pattern (`pattern.c`)

`pattern_fill_framebuffer` draws bars, a border and some lines of text.  Here it is the list of the words it writes, in
their order, each with its index in the pattern's frame buffer.  A word is two pixels, so a line of the picture is
`h_active/2` words; the loops count in pixels, in words and in characters.
-/
namespace Hdmi2Usb
namespace Pattern

/-! ## Colours and characters -/

def ycbcr422White : Word := 0x80ff80ff
def ycbcr422Yellow : Word := 0x00e194e1
def ycbcr422Cyan : Word := 0xabb200b2
def ycbcr422Green : Word := 0x2b951595
def ycbcr422Purple : Word := 0xd469e969
def ycbcr422Red : Word := 0x544cff4c
def ycbcr422Blue : Word := 0xff1d6f1d
def ycbcr422Black : Word := 0x80108010

def colorBar : List Word :=
  [ycbcr422White, ycbcr422Yellow, ycbcr422Cyan, ycbcr422Green, ycbcr422Purple, ycbcr422Red, ycbcr422Blue,
    ycbcr422Black]

/-- Five columns a character, from the space on. -/
def font5x7 : List (BitVec 8) :=
  [0x00, 0x00, 0x00, 0x00, 0x00, 0x00, 0x00, 0x5f, 0x00, 0x00, 0x00, 0x07, 0x00, 0x07, 0x00,
    0x14, 0x7f, 0x14, 0x7f, 0x14, 0x24, 0x2a, 0x7f, 0x2a, 0x12, 0x23, 0x13, 0x08, 0x64, 0x62,
    0x36, 0x49, 0x55, 0x22, 0x50, 0x00, 0x05, 0x03, 0x00, 0x00, 0x00, 0x1c, 0x22, 0x41, 0x00,
    0x00, 0x41, 0x22, 0x1c, 0x00, 0x08, 0x2a, 0x1c, 0x2a, 0x08, 0x08, 0x08, 0x3e, 0x08, 0x08,
    0x00, 0x50, 0x30, 0x00, 0x00, 0x08, 0x08, 0x08, 0x08, 0x08, 0x00, 0x60, 0x60, 0x00, 0x00,
    0x20, 0x10, 0x08, 0x04, 0x02, 0x3e, 0x51, 0x49, 0x45, 0x3e, 0x00, 0x42, 0x7f, 0x40, 0x00,
    0x42, 0x61, 0x51, 0x49, 0x46, 0x21, 0x41, 0x45, 0x4b, 0x31, 0x18, 0x14, 0x12, 0x7f, 0x10,
    0x27, 0x45, 0x45, 0x45, 0x39, 0x3c, 0x4a, 0x49, 0x49, 0x30, 0x01, 0x71, 0x09, 0x05, 0x03,
    0x36, 0x49, 0x49, 0x49, 0x36, 0x06, 0x49, 0x49, 0x29, 0x1e, 0x00, 0x36, 0x36, 0x00, 0x00,
    0x00, 0x56, 0x36, 0x00, 0x00, 0x00, 0x08, 0x14, 0x22, 0x41, 0x14, 0x14, 0x14, 0x14, 0x14,
    0x41, 0x22, 0x14, 0x08, 0x00, 0x02, 0x01, 0x51, 0x09, 0x06, 0x32, 0x49, 0x79, 0x41, 0x3e,
    0x7e, 0x11, 0x11, 0x11, 0x7e, 0x7f, 0x49, 0x49, 0x49, 0x36, 0x3e, 0x41, 0x41, 0x41, 0x22,
    0x7f, 0x41, 0x41, 0x22, 0x1c, 0x7f, 0x49, 0x49, 0x49, 0x41, 0x7f, 0x09, 0x09, 0x01, 0x01,
    0x3e, 0x41, 0x41, 0x51, 0x32, 0x7f, 0x08, 0x08, 0x08, 0x7f, 0x00, 0x41, 0x7f, 0x41, 0x00,
    0x20, 0x40, 0x41, 0x3f, 0x01, 0x7f, 0x08, 0x14, 0x22, 0x41, 0x7f, 0x40, 0x40, 0x40, 0x40,
    0x7f, 0x02, 0x04, 0x02, 0x7f, 0x7f, 0x04, 0x08, 0x10, 0x7f, 0x3e, 0x41, 0x41, 0x41, 0x3e,
    0x7f, 0x09, 0x09, 0x09, 0x06, 0x3e, 0x41, 0x51, 0x21, 0x5e, 0x7f, 0x09, 0x19, 0x29, 0x46,
    0x46, 0x49, 0x49, 0x49, 0x31, 0x01, 0x01, 0x7f, 0x01, 0x01, 0x3f, 0x40, 0x40, 0x40, 0x3f,
    0x1f, 0x20, 0x40, 0x20, 0x1f, 0x7f, 0x20, 0x18, 0x20, 0x7f, 0x63, 0x14, 0x08, 0x14, 0x63,
    0x03, 0x04, 0x78, 0x04, 0x03, 0x61, 0x51, 0x49, 0x45, 0x43, 0x00, 0x00, 0x7f, 0x41, 0x41,
    0x02, 0x04, 0x08, 0x10, 0x20, 0x41, 0x41, 0x7f, 0x00, 0x00, 0x04, 0x02, 0x01, 0x02, 0x04,
    0x40, 0x40, 0x40, 0x40, 0x40, 0x00, 0x01, 0x02, 0x04, 0x00, 0x20, 0x54, 0x54, 0x54, 0x78,
    0x7f, 0x48, 0x44, 0x44, 0x38, 0x38, 0x44, 0x44, 0x44, 0x20, 0x38, 0x44, 0x44, 0x48, 0x7f,
    0x38, 0x54, 0x54, 0x54, 0x18, 0x08, 0x7e, 0x09, 0x01, 0x02, 0x08, 0x14, 0x54, 0x54, 0x3c,
    0x7f, 0x08, 0x04, 0x04, 0x78, 0x00, 0x44, 0x7d, 0x40, 0x00, 0x20, 0x40, 0x44, 0x3d, 0x00,
    0x00, 0x7f, 0x10, 0x28, 0x44, 0x00, 0x41, 0x7f, 0x40, 0x00, 0x7c, 0x04, 0x18, 0x04, 0x78,
    0x7c, 0x08, 0x04, 0x04, 0x78, 0x38, 0x44, 0x44, 0x44, 0x38, 0x7c, 0x14, 0x14, 0x14, 0x08,
    0x08, 0x14, 0x14, 0x18, 0x7c, 0x7c, 0x08, 0x04, 0x04, 0x08, 0x48, 0x54, 0x54, 0x54, 0x20,
    0x04, 0x3f, 0x44, 0x40, 0x20, 0x3c, 0x40, 0x40, 0x20, 0x7c, 0x1c, 0x20, 0x40, 0x20, 0x1c,
    0x3c, 0x40, 0x30, 0x40, 0x3c, 0x44, 0x28, 0x10, 0x28, 0x44, 0x0c, 0x50, 0x50, 0x50, 0x3c,
    0x44, 0x64, 0x54, 0x4c, 0x44, 0x00, 0x08, 0x36, 0x41, 0x00, 0x00, 0x00, 0x7f, 0x00, 0x00,
    0x00, 0x41, 0x36, 0x08, 0x00, 0x08, 0x08, 0x2a, 0x1c, 0x08, 0x08, 0x1c, 0x2a, 0x08, 0x08]

def patternColorBars : Nat := 0

/-- What a build has compiled in: the strings of its version, `__DATE__` and `__TIME__`, and the memory around the font,
which a character without a glyph is drawn from. -/
structure Build where
  gitDescribe : List Char
  board       : List Char
  date        : List Char
  time        : List Char
  hideAdvert  : Bool
  stray       : ℤ → BitVec 8
  length_date : date.length = 11
  length_time : time.length = 8

/-- An index into the frame buffer, and the word written there. -/
abbrev Write := ℤ × Word

/-- An `int`, which wraps around at 32 bits. -/
def word (n : ℤ) : Word := BitVec.ofInt 32 n

/-- A loop's counter, from `start` to before `stop`. -/
def upTo (start stop : ℤ) : List ℤ := (List.range (stop - start).toNat).map fun n : ℕ => start + n

variable (b : Build)

def glyph (n : ℤ) : BitVec 8 := if 0 ≤ n then (font5x7[n.toNat]?).getD (b.stray n) else b.stray n

/-! ## Text -/

/-- One cell of a character, two lines high.  `h` is `processor_h_active`. -/
def drawCell (h x y : ℤ) (backgroundColor textColor : Word) (i : ℤ) (c : Char) (j k : ℤ) : List Write :=
  let adr := 6 * (x + i) + k + ((2 * 9 * y + 2 * j) * h).tdiv 2
  let color :=
    if 0 ≤ k ∧ k < 5 ∧ 0 ≤ j ∧ j < 7 ∧ ((glyph b (5 * (c.toNat - ' '.toNat) + k)) >>> j.toNat).getLsbD 0
    then textColor else backgroundColor
  [(adr + (0 * h).tdiv 2, color), (adr + (1 * h).tdiv 2, color)]

def patternDrawTextColor (h x y : ℤ) (ptr : List Char) (backgroundColor textColor : Word) : List Write :=
  ptr.zipIdx.flatMap fun (c, i) => (upTo (-1) 8).flatMap fun j => (upTo (-1) 6).flatMap fun k =>
    drawCell b h x y backgroundColor textColor i c j k

def patternDrawText (h x y : ℤ) (ptr : List Char) : List Write :=
  patternDrawTextColor b h x y ptr ycbcr422White ycbcr422Black

def builtLine : List Char := "Built: ".toList ++ b.date ++ " ".toList ++ b.time

def drawAdvert (h : ℤ) : List Write :=
  patternDrawText b h 1 5 "Hi! I am HDMI2USB ".toList ++
    patternDrawTextColor b h 1 6 "Want to hack on FOSS video capture systems?".toList ycbcr422Blue ycbcr422White ++
    patternDrawTextColor b h 1 7 "Get in touch with us! #timvideos on Freenode IRC".toList ycbcr422Red
      ycbcr422White ++
    patternDrawText b h 1 8 "code.timvideos.us / enjoy-digital.fr".toList ++
    patternDrawTextColor b h 6 8 "tim".toList ycbcr422White ycbcr422Red ++
    patternDrawTextColor b h 9 8 "videos".toList ycbcr422White ycbcr422Blue ++
    patternDrawTextColor b h 27 8 "digital".toList ycbcr422White ycbcr422Cyan

/-- The lines of text of `pattern_fill_framebuffer`. -/
def drawLines (h : ℤ) : List Write :=
  patternDrawText b h 19 1 b.gitDescribe ++ patternDrawText b h 1 2 (builtLine b) ++
    patternDrawText b h 1 3 "Running on ".toList ++ patternDrawText b h 12 3 b.board ++
    (if b.hideAdvert then [] else drawAdvert b h)

/-! ## Bars and border -/

def incColor (color : ℤ) : ℤ := (color + 1).tmod 8

/-- One turn of the loop over the picture: the colour changes every sixteenth of a line. -/
def barTurn (h : ℤ) (value : ℤ → Word) (s : ℤ × List Write) (i : ℤ) : ℤ × List Write :=
  let color := if i.tmod (h.tdiv 16) = 0 then incColor s.1 else s.1
  (color, if 0 ≤ color then s.2 ++ [(i, value color)] else s.2)

def drawBars (h v : ℤ) (value : ℤ → Word) : List Write :=
  ((upTo 0 (pictureWords (word h) (word v)).toInt).foldl (barTurn h value) (-1, [])).2

/-- The word of a bar, by the pattern and the colour. -/
def barValue (pattern : Nat) (color : ℤ) : Word :=
  if pattern = patternColorBars then colorBar.getD color.toNat 0 else 0x801080ff

def drawTop (h : ℤ) : List Write := (upTo 0 (word h * 2).toInt).map fun i => (i, ycbcr422White)

def drawBottom (h v : ℤ) : List Write :=
  (upTo (((word v - 4) * word h * 2).sdiv 4).toInt (pictureWords (word h) (word v)).toInt).map fun i =>
    (i, ycbcr422White)

/-- The bar on one side, in the columns from `start` to before `stop`. -/
def drawSide (h i start stop : ℤ) : List Write :=
  (upTo start stop).flatMap fun j =>
    [((word i * word h + word j).toInt, ycbcr422White),
      ((word i * word h + word j + (1 * word h).sdiv 2).toInt, ycbcr422White)]

def drawSides (h v : ℤ) : List Write :=
  (upTo 0 (word v * 2).toInt).flatMap fun i => drawSide h i 0 2 ++ drawSide h i (h - 2) h

/-- `pattern_fill_framebuffer`, called with the size of the mode that is running. -/
def patternFillFramebuffer (pattern : Nat) (h v : ℤ) : List Write :=
  drawBars h v (barValue pattern) ++ drawTop h ++ drawBottom h v ++ drawSides h v ++ drawLines b h

/-! ## What is inside -/

/-- The word's four bytes lie in the pattern's frame buffer. -/
def Inside (i : ℤ) : Prop := 0 ≤ 4 * i ∧ 4 * i + 4 ≤ framebufferSize.toNat

/-- Nothing but the pattern's frame buffer is written. -/
def Contained (ws : List Write) : Prop := ∀ w ∈ ws, Inside w.1

theorem frame_words : framebufferSize.toNat = 4 * 2 ^ 20 := by decide

theorem inside_iff {i : ℤ} : Inside i ↔ 0 ≤ i ∧ i < 2 ^ 20 := by
  unfold Inside
  rw [frame_words]
  omega

theorem contained_iff_fst {ws : List Write} : Contained ws ↔ ∀ n ∈ ws.map Prod.fst, Inside n :=
  List.forall_mem_map.symm

theorem contained_append {xs ys : List Write} : Contained (xs ++ ys) ↔ Contained xs ∧ Contained ys :=
  List.forall_mem_append

theorem mem_upTo {start stop i : ℤ} : i ∈ upTo start stop ↔ start ≤ i ∧ i < stop := by
  unfold upTo
  rw [List.mem_map]
  constructor
  · rintro ⟨n, hn, rfl⟩
    rw [List.mem_range] at hn
    omega
  · rintro ⟨h1, h2⟩
    exact ⟨(i - start).toNat, List.mem_range.2 (by omega), by omega⟩

/-! ## The ints of the loops -/

theorem word_add (m n : ℤ) : word m + word n = word (m + n) := (BitVec.ofInt_add m n).symm

theorem word_mul (m n : ℤ) : word m * word n = word (m * n) := (BitVec.ofInt_mul m n).symm

theorem word_sub (m n : ℤ) : word m - word n = word (m - n) := by
  rw [sub_eq_add_neg, sub_eq_add_neg, ← word_add]
  exact congrArg (word m + ·) BitVec.ofInt_neg.symm

theorem toInt_word {n : ℤ} (h : -2 ^ 31 ≤ n ∧ n < 2 ^ 31) : (word n).toInt = n := by
  rw [word, BitVec.toInt_ofInt]
  exact Int.bmod_eq_of_le (by omega) (by omega)

theorem toInt_sdiv_word {m n : ℤ} (hm : 0 ≤ m ∧ m < 2 ^ 31) (hn : 0 < n ∧ n < 2 ^ 31) :
    ((word m).sdiv (word n)).toInt = m / n := by
  have hlo : 0 ≤ m / n := Int.ediv_nonneg hm.1 hn.1.le
  have hhi : m / n ≤ m := Int.ediv_le_self n hm.1
  rw [BitVec.toInt_sdiv, toInt_word (by omega), toInt_word (by omega), Int.tdiv_eq_ediv_of_nonneg hm.1]
  exact Int.bmod_eq_of_le (by omega) (by omega)

theorem toInt_double {n : ℤ} (h : 0 ≤ n ∧ n * 2 < 2 ^ 31) : (word n * 2).toInt = n * 2 := by
  rw [show (2 : Word) = word 2 from rfl, word_mul, toInt_word (by omega)]

/-- Half a line, in words. -/
theorem sdiv_word_two {h : ℤ} (hh : 0 ≤ h ∧ h < 2 ^ 31) : (1 * word h).sdiv 2 = word (h / 2) := by
  rw [one_mul, ← BitVec.toInt_inj, show (2 : Word) = word 2 from rfl, toInt_sdiv_word hh (by decide),
    toInt_word (by omega)]

/-- The words of a picture of which the bytes can be counted. -/
theorem toInt_pictureWords {h v : ℤ} (hh : 0 ≤ h) (hv : 0 ≤ v) (hint : h * v * 2 < 2 ^ 31) :
    (pictureWords (word h) (word v)).toInt = h * v / 2 := by
  have hpos : 0 ≤ h * v := mul_nonneg hh hv
  rw [pictureWords, word_mul, show (2 : Word) = word 2 from rfl, word_mul, show (4 : Word) = word 4 from rfl,
    toInt_sdiv_word ⟨by omega, hint⟩ (by decide)]
  omega

/-- The first word of the lines at the bottom. -/
theorem toInt_bottom {h v : ℤ} (hh : 0 ≤ h) (hv : 4 ≤ v) (hint : h * v * 2 < 2 ^ 31) :
    (((word v - 4) * word h * 2).sdiv 4).toInt = (v - 4) * h / 2 := by
  have hpos : 0 ≤ (v - 4) * h := mul_nonneg (by omega) hh
  have hle : (v - 4) * h = h * v - 4 * h := by ring
  rw [show (4 : Word) = word 4 from rfl, word_sub, word_mul, show (2 : Word) = word 2 from rfl, word_mul,
    toInt_sdiv_word (by omega) (by decide)]
  omega

/-- A loop that writes at its counter. -/
theorem contained_map {start stop : ℤ} (value : ℤ → Word) (h0 : 0 ≤ start) (h : stop ≤ 2 ^ 20) :
    Contained ((upTo start stop).map fun i => (i, value i)) := by
  intro w hw
  obtain ⟨i, hi, rfl⟩ := List.mem_map.1 hw
  rw [mem_upTo] at hi
  rw [inside_iff]
  dsimp only
  omega

/-- Memory after some writes, in words from the start of the frame buffer. -/
def draw (ws : List Write) (mem : ℤ → Word) : ℤ → Word := ws.foldl (fun mem w => Function.update mem w.1 w.2) mem

/-- Writes that are contained alter no other memory. -/
theorem draw_outside : ∀ {ws : List Write}, Contained ws → ∀ (mem : ℤ → Word) {i : ℤ}, ¬ Inside i →
    draw ws mem i = mem i
  | [], _, _, _, _ => rfl
  | w :: ws, hc, mem, i, hi => by
    obtain ⟨hw, hws⟩ := List.forall_mem_cons.1 hc
    have hne : i ≠ w.1 := by
      rintro rfl
      exact hi hw
    unfold draw
    rw [List.foldl_cons]
    exact (draw_outside hws _ hi).trans (Function.update_of_ne hne _ _)

/-! ## Bars and border -/

theorem mem_barTurn (h : ℤ) (value : ℤ → Word) : ∀ (is : List ℤ) (s : ℤ × List Write),
    ∀ w ∈ (is.foldl (barTurn h value) s).2, w ∈ s.2 ∨ w.1 ∈ is
  | [], _, w, hw => .inl hw
  | i :: is, s, w, hw => by
    rw [List.foldl_cons] at hw
    cases mem_barTurn h value is _ w hw with
    | inr h => exact .inr (List.mem_cons_of_mem _ h)
    | inl hmem =>
      unfold barTurn at hmem
      dsimp only at hmem
      generalize (if i.tmod (h.tdiv 16) = 0 then incColor s.1 else s.1) = color at hmem
      by_cases hc : 0 ≤ color
      · rw [if_pos hc, List.mem_append, List.mem_singleton] at hmem
        cases hmem with
        | inl h => exact .inl h
        | inr h =>
          subst h
          exact .inr List.mem_cons_self
      · rw [if_neg hc] at hmem
        exact .inl hmem

theorem contained_bars {h v : ℤ} (hh : 0 ≤ h) (hv : 0 ≤ v) (hsize : h * v * 2 ≤ framebufferSize.toNat)
    (value : ℤ → Word) :
    Contained (drawBars h v value) := by
  intro w hw
  have hpos : 0 ≤ h * v := mul_nonneg hh hv
  rw [frame_words] at hsize
  cases mem_barTurn h value _ _ w hw with
  | inl h => cases h
  | inr hmem =>
    rw [mem_upTo, toInt_pictureWords hh hv (by omega)] at hmem
    rw [inside_iff]
    omega

theorem contained_top {h v : ℤ} (hh : 0 ≤ h) (hv : 4 ≤ v) (hsize : h * v * 2 ≤ framebufferSize.toNat) :
    Contained (drawTop h) := by
  have hle : h * 4 ≤ h * v := mul_le_mul_of_nonneg_left hv hh
  rw [frame_words] at hsize
  refine contained_map _ le_rfl ?_
  rw [toInt_double (by omega)]
  omega

theorem contained_bottom {h v : ℤ} (hh : 0 ≤ h) (hv : 4 ≤ v) (hsize : h * v * 2 ≤ framebufferSize.toNat) :
    Contained (drawBottom h v) := by
  have hpos : 0 ≤ (v - 4) * h := mul_nonneg (by omega) hh
  have hle : (v - 4) * h = h * v - 4 * h := by ring
  rw [frame_words] at hsize
  refine contained_map _ ?_ ?_
  · rw [toInt_bottom hh hv (by omega)]
    omega
  · rw [toInt_pictureWords hh (by omega) (by omega)]
    omega

theorem mem_fst_drawSide {h i start stop n : ℤ} (hh : 0 ≤ h ∧ h < 2 ^ 31) :
    n ∈ (drawSide h i start stop).map Prod.fst ↔ ∃ j, (start ≤ j ∧ j < stop) ∧
      (n = (word (i * h + j)).toInt ∨ n = (word (i * h + j + h / 2)).toInt) := by
  simp only [drawSide, sdiv_word_two hh, word_mul, word_add, List.map_flatMap, List.mem_flatMap, mem_upTo, List.map_cons,
    List.map_nil, List.mem_cons, List.not_mem_nil, or_false]

theorem mem_fst_sides {h v n : ℤ} (hh : 0 ≤ h ∧ h < 2 ^ 31) (hv : 0 ≤ v ∧ v * 2 < 2 ^ 31) :
    n ∈ (drawSides h v).map Prod.fst ↔ ∃ i j, (0 ≤ i ∧ i < v * 2) ∧ ((0 ≤ j ∧ j < 2) ∨ (h - 2 ≤ j ∧ j < h)) ∧
      (n = (word (i * h + j)).toInt ∨ n = (word (i * h + j + h / 2)).toInt) := by
  simp only [drawSides, toInt_double hv, List.map_flatMap, List.map_append, List.mem_flatMap, List.mem_append, mem_upTo,
    mem_fst_drawSide hh]
  constructor
  · rintro ⟨i, hi, ⟨j, hj, hn⟩ | ⟨j, hj, hn⟩⟩
    · exact ⟨i, j, hi, .inl hj, hn⟩
    · exact ⟨i, j, hi, .inr hj, hn⟩
  · rintro ⟨i, j, hi, hj | hj, hn⟩
    · exact ⟨i, hi, .inl ⟨j, hj, hn⟩⟩
    · exact ⟨i, hi, .inr ⟨j, hj, hn⟩⟩

section

variable {h v : ℤ}

/-- A side's loop counts half lines, and its index takes them for whole ones, of words. -/
theorem side_index_bounds (hh : 2 ≤ h) {i j : ℤ} (hi : 0 ≤ i ∧ i < v * 2)
    (hj : (0 ≤ j ∧ j < 2) ∨ (h - 2 ≤ j ∧ j < h)) : 0 ≤ i * h + j ∧ i * h + j < h * v * 2 := by
  have hline : 0 ≤ i * h ∧ i * h ≤ (v * 2 - 1) * h :=
    ⟨mul_nonneg hi.1 (by omega), mul_le_mul_of_nonneg_right (by omega) (by omega)⟩
  have hlines : (v * 2 - 1) * h = h * v * 2 - h := by ring
  omega

/-- The bars on the sides stay inside exactly when twice the picture and half a line do. -/
theorem contained_sides_iff (hh : 2 ≤ h) (hv : 1 ≤ v) (hsize : h * v * 2 ≤ framebufferSize.toNat) :
    Contained (drawSides h v) ↔ 2 * v * h + h / 2 ≤ 2 ^ 20 := by
  rw [frame_words] at hsize
  have hwide : h * 1 ≤ h * v := mul_le_mul_of_nonneg_left hv (by omega)
  have hhigh : 1 * v ≤ h * v := mul_le_mul_of_nonneg_right (by omega) (by omega)
  have hwords : 2 * v * h = h * v * 2 := by ring
  rw [contained_iff_fst, hwords]
  constructor
  · intro hc
    have hlast : (v * 2 - 1) * h + (h - 1) + h / 2 = h * v * 2 - 1 + h / 2 := by ring
    have hinside := hc _ ((mem_fst_sides (n := h * v * 2 - 1 + h / 2) (by omega) (by omega)).2
      ⟨v * 2 - 1, h - 1, by omega, .inr (by omega), .inr (by rw [hlast, toInt_word (by omega)])⟩)
    rw [inside_iff] at hinside
    omega
  · intro hle n hn
    obtain ⟨i, j, hi, hj, hn⟩ := (mem_fst_sides (by omega) (by omega)).1 hn
    have hbounds := side_index_bounds hh hi hj
    rw [toInt_word (by omega), toInt_word (by omega)] at hn
    rw [inside_iff]
    omega

end

/-! ## Text -/

/-- Where a cell of a character is written. -/
theorem fst_drawCell (h x y : ℤ) (backgroundColor textColor : Word) (i : ℤ) (c : Char) (j k : ℤ) :
    (drawCell b h x y backgroundColor textColor i c j k).map Prod.fst =
      [6 * (x + i) + k + (9 * y + j) * h, 6 * (x + i) + k + (9 * y + j) * h + h.tdiv 2] := by
  have hrow : ((2 * 9 * y + 2 * j) * h).tdiv 2 = (9 * y + j) * h := by
    rw [show (2 * 9 * y + 2 * j) * h = 2 * ((9 * y + j) * h) by ring, Int.mul_tdiv_cancel_left _ (by decide)]
  unfold drawCell
  simp only [hrow, one_mul, zero_mul, Int.zero_tdiv, add_zero, List.map_cons, List.map_nil]

theorem mem_patternDrawTextColor {h x y : ℤ} {ptr : List Char} {backgroundColor textColor : Word} {n : ℤ} :
    n ∈ (patternDrawTextColor b h x y ptr backgroundColor textColor).map Prod.fst ↔
      ∃ i j k : ℤ, (0 ≤ i ∧ i < ptr.length) ∧ (-1 ≤ j ∧ j < 8) ∧ (-1 ≤ k ∧ k < 6) ∧
        (n = 6 * (x + i) + k + (9 * y + j) * h ∨ n = 6 * (x + i) + k + (9 * y + j) * h + h.tdiv 2) := by
  unfold patternDrawTextColor
  simp only [List.map_flatMap, List.mem_flatMap, fst_drawCell, mem_upTo, List.mem_cons, List.not_mem_nil, or_false]
  constructor
  · rintro ⟨⟨c, i⟩, hci, j, hj, k, hk, hn⟩
    have hi := List.snd_lt_of_mem_zipIdx hci
    exact ⟨i, j, k, by omega, hj, hk, hn⟩
  · rintro ⟨i, j, k, hi, hj, hk, hn⟩
    have hlt : i.toNat < ptr.length := by omega
    refine ⟨(ptr[i.toNat], i.toNat), ?_, j, hj, k, hk, ?_⟩
    · rw [List.mk_mem_zipIdx_iff_getElem?, List.getElem?_eq_getElem hlt]
    · dsimp only
      rw [Int.toNat_of_nonneg hi.1]
      exact hn

/-- A text stays inside exactly when its last cell does. -/
theorem contained_text_iff {h x y : ℤ} (hh : 0 ≤ h) (hx : 1 ≤ x) (hy : 1 ≤ y) (ptr : List Char)
    (backgroundColor textColor : Word) : Contained (patternDrawTextColor b h x y ptr backgroundColor textColor) ↔
      ptr = [] ∨ 6 * (x + ptr.length) + (9 * y + 7) * h + h / 2 ≤ 2 ^ 20 := by
  rw [contained_iff_fst]
  constructor
  · intro hc
    by_cases hnil : ptr = []
    · exact .inl hnil
    · have hpos := List.length_pos_iff.2 hnil
      have hlast := inside_iff.1 (hc _ ((mem_patternDrawTextColor b).2
        ⟨ptr.length - 1, 7, 5, by omega, by omega, by omega, .inr rfl⟩))
      rw [Int.tdiv_eq_ediv_of_nonneg hh] at hlast
      right
      omega
  · intro hfits n hn
    obtain ⟨i, j, k, hi, hj, hk, hn⟩ := (mem_patternDrawTextColor b).1 hn
    have hle : 6 * (x + ptr.length) + (9 * y + 7) * h + h / 2 ≤ 2 ^ 20 := by
      refine hfits.resolve_left ?_
      rintro rfl
      exact absurd (hi.1.trans_lt hi.2) (by simp)
    have hrow : 0 ≤ (9 * y + j) * h ∧ (9 * y + j) * h ≤ (9 * y + 7) * h :=
      ⟨mul_nonneg (by omega) hh, mul_le_mul_of_nonneg_right (by omega) hh⟩
    rw [Int.tdiv_eq_ediv_of_nonneg hh] at hn
    rw [inside_iff]
    omega

/-- In a picture the sides of which stay inside, a text of fewer than a thousand characters does. -/
theorem contained_text {h v x y : ℤ} (hh : 640 ≤ h) (hv : 480 ≤ v) (hsides : 2 * v * h + h / 2 ≤ 2 ^ 20)
    (hx : 1 ≤ x ∧ x < 100) (hy : 1 ≤ y ∧ y ≤ 8) (ptr : List Char) (hptr : ptr.length < 1000)
    (backgroundColor textColor : Word) :
    Contained (patternDrawTextColor b h x y ptr backgroundColor textColor) := by
  have hlines : 480 * h ≤ v * h := mul_le_mul_of_nonneg_right hv (by omega)
  have htext : (9 * y + 7) * h ≤ 79 * h := mul_le_mul_of_nonneg_right (by omega) (by omega)
  have htwice : 2 * v * h = 2 * (v * h) := by ring
  rw [contained_text_iff b (by omega) hx.1 hy.1]
  right
  omega

theorem contained_advert {h v : ℤ} (hh : 640 ≤ h) (hv : 480 ≤ v) (hsides : 2 * v * h + h / 2 ≤ 2 ^ 20) :
    Contained (drawAdvert b h) := by
  have htext := fun (x y : ℤ) hx hy ptr hptr bg fg =>
    contained_text b (x := x) (y := y) hh hv hsides hx hy ptr hptr bg fg
  unfold drawAdvert patternDrawText
  simp only [contained_append]
  refine ⟨⟨⟨⟨⟨⟨?_, ?_⟩, ?_⟩, ?_⟩, ?_⟩, ?_⟩, ?_⟩ <;> exact htext _ _ (by decide) (by decide) _ (by decide) _ _

/-- A version string that is drawn stays inside. -/
theorem contained_version_iff {h v x y : ℤ} (hh : 640 ≤ h) (hv : 480 ≤ v) (hsides : 2 * v * h + h / 2 ≤ 2 ^ 20)
    (hx : 1 ≤ x ∧ x < 100) (hy : 1 ≤ y ∧ y ≤ 8) (ptr : List Char) : Contained (patternDrawText b h x y ptr) ↔
      6 * (x + ptr.length) + (9 * y + 7) * h + h / 2 ≤ 2 ^ 20 := by
  have hlines : 480 * h ≤ v * h := mul_le_mul_of_nonneg_right hv (by omega)
  have htext : (9 * y + 7) * h ≤ 79 * h := mul_le_mul_of_nonneg_right (by omega) (by omega)
  have htwice : 2 * v * h = 2 * (v * h) := by ring
  unfold patternDrawText
  rw [contained_text_iff b (by omega) hx.1 hy.1]
  constructor
  · rintro (rfl | hle)
    · rw [List.length_nil]
      push_cast
      omega
    · exact hle
  · exact .inr

/-- The sides of the picture fit: in words, twice the picture and half a line. -/
def SidesFit (h v : ℤ) : Prop := 4 * (2 * v * h + h / 2) ≤ framebufferSize.toNat

/-- The strings of the version fit, from their columns and lines on. -/
def VersionFits (h : ℤ) : Prop :=
  4 * (6 * (19 + b.gitDescribe.length) + 16 * h + h / 2) ≤ framebufferSize.toNat ∧
    4 * (6 * (12 + b.board.length) + 34 * h + h / 2) ≤ framebufferSize.toNat

/-- **The drawing stays inside the frame buffer exactly when** its sides, which run twice as far down as the picture,
and its version strings fit. -/
theorem contained_iff (pattern : Nat) (h v : ℤ) (hh : 640 ≤ h) (hv : 480 ≤ v)
    (hsize : h * v * 2 ≤ framebufferSize.toNat) :
    Contained (patternFillFramebuffer b pattern h v) ↔ SidesFit h v ∧ VersionFits b h := by
  have hbars := contained_bars (by omega) (by omega) hsize (barValue pattern)
  have htop := contained_top (by omega) (by omega) hsize
  have hbottom := contained_bottom (by omega) (by omega) hsize
  unfold patternFillFramebuffer SidesFit VersionFits
  simp only [contained_append, frame_words, true_and, hbars, htop, hbottom]
  rw [contained_sides_iff (by omega) (by omega) hsize]
  have hcancel : ∀ n : ℤ, 4 * n ≤ ((4 * 2 ^ 20 : ℕ) : ℤ) ↔ n ≤ 2 ^ 20 := by
    intro n
    push_cast
    omega
  rw [hcancel, hcancel, hcancel]
  refine and_congr_right fun hsides => ?_
  have hbuilt : (builtLine b).length = 27 := by
    unfold builtLine
    rw [List.length_append, List.length_append, List.length_append, b.length_date, b.length_time]
    rfl
  have hrunning : Contained (patternDrawText b h 1 3 "Running on ".toList) :=
    contained_text b hh hv hsides (by decide) (by decide) _ (by decide) _ _
  have hbuiltLine : Contained (patternDrawText b h 1 2 (builtLine b)) :=
    contained_text b hh hv hsides (by decide) (by decide) _ (by omega) _ _
  have hadvert : Contained (if b.hideAdvert then [] else drawAdvert b h) := by
    cases b.hideAdvert with
    | true =>
      intro w hw
      cases hw
    | false => exact contained_advert b hh hv hsides
  unfold drawLines
  simp only [contained_append, hrunning, hbuiltLine, hadvert, and_true]
  rw [contained_version_iff b hh hv hsides (by decide) (by decide),
    contained_version_iff b hh hv hsides (by decide) (by decide)]
  norm_num

/-- The strings of a release built for the Opsis. -/
def opsisBuild : Build where
  gitDescribe := "v0.0.4".toList
  board       := "opsis".toList
  date        := "Jan  1 2018".toList
  time        := "12:00:00".toList
  hideAdvert  := false
  stray       := fun _ => 0
  length_date := by decide
  length_time := by decide

theorem contained_iff_640x480 : (640 : ℤ) * 480 * 2 ≤ framebufferSize.toNat ∧
    (Contained (patternFillFramebuffer opsisBuild patternColorBars 640 480) ↔
      SidesFit 640 480 ∧ VersionFits opsisBuild 640) := by
  have hsize : (640 : ℤ) * 480 * 2 ≤ framebufferSize.toNat := by decide
  exact ⟨hsize, contained_iff opsisBuild patternColorBars 640 480 (by decide) (by decide) hsize⟩

/-- 720p fills less than half of the frame buffer, and its right bar is drawn beyond the end. -/
theorem not_contained_1280x720 : (1280 : ℤ) * 720 * 2 ≤ framebufferSize.toNat ∧
    ¬ Contained (patternFillFramebuffer opsisBuild patternColorBars 1280 720) := by
  refine ⟨by decide, fun hc => ?_⟩
  have hsides : Contained (drawSides 1280 720) := by
    unfold patternFillFramebuffer at hc
    rw [contained_append, contained_append] at hc
    exact hc.1.2
  exact absurd ((contained_sides_iff (by decide) (by decide) (by decide)).1 hsides) (by decide)

end Pattern
end Hdmi2Usb
