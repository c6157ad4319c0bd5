import Hdmi2Usb.EncoderReader
import Mathlib.Data.List.Perm.Subperm
/-!
# EncoderBlocks — the addresses the DMA reader issues (`gateware/encoder/core.py`)

One frame, cycle by cycle: after a write to `start` the reader offers the DMA an address in every cycle, and goes on to
the next one when the DMA is ready.  Whatever the stalls, the addresses taken are those of the frame's words in JPEG
block order (`issue_blockOrder`): rows of blocks from the top, blocks from the left, in a block its eight lines.
-/
namespace Hdmi2Usb
namespace Encoder

/-! ## Nested ranges -/

/-- A loop in a loop is one loop. -/
theorem range_flatMap {α : Type*} (a b : Nat) (f : Nat → Nat → α) :
    ((List.range a).flatMap fun i => (List.range b).map (f i)) =
      (List.range (a * b)).map fun n => f (n / b) (n % b) := by
  induction a with
  | zero => simp
  | succ a ih =>
    have hlast : (List.range b).map (f a) = (List.range b).map fun j => f ((a * b + j) / b) ((a * b + j) % b) := by
      apply List.map_congr_left
      intro j hj
      have hlt := List.mem_range.1 hj
      rw [Nat.mul_comm, Nat.mul_add_div (by omega), Nat.mul_add_mod, Nat.div_eq_of_lt hlt, Nat.mod_eq_of_lt hlt,
        Nat.add_zero]
    rw [List.range_succ, List.flatMap_append, ih, List.flatMap_singleton, Nat.succ_mul, List.range_add, List.map_append,
      List.map_map, hlast]
    rfl

/-! ## The reader, cycle by cycle -/

/-- The widths of a memory port that the reader is built for. -/
inductive PortWidth
  | dw64
  | dw128
deriving DecidableEq

def PortWidth.dw : PortWidth → Nat
  | .dw64  => 64
  | .dw128 => 128

def PortWidth.burstPixels (port : PortWidth) : Nat := port.dw / 16

/-- `bits_for(dram_port.dw//8) - 1`. -/
def PortWidth.alignmentBits (port : PortWidth) : Nat := Nat.log2 (port.dw / 8)

structure ReaderInput where
  /-- `start` is written, with its bit set. -/
  start : Bool
  /-- The storage of the register `base`. -/
  base  : Word
  /-- The DMA takes an address. -/
  ready : Bool

variable (port : PortWidth) (aw : Nat)

/-- An address is at the sink of the DMA. -/
def Reader.valid (r : Reader) : Bool := r.fsm = .read

/-- The address, in words of a port with `aw` address bits. -/
def Reader.address (r : Reader) : Nat :=
  let readAddress := (r.v.toNat * r.hWidth.toNat + r.h.toNat) % 2 ^ (aw + port.alignmentBits)
  ((r.base.toNat >>> port.alignmentBits) + (readAddress >>> (port.alignmentBits - 1))) % 2 ^ aw

/-- One clock cycle. -/
def Reader.cycle (r : Reader) (i : ReaderInput) : Reader :=
  let r := if i.start then { r with base := i.base } else r
  match r.fsm with
  | .idle => { r with h := 0, v := 0, fsm := if i.start then .read else .idle }
  | .read => if i.ready then r.take (BitVec.ofNat 16 port.burstPixels) else r

/-- The addresses the DMA takes, in order. -/
def issue : Reader → List ReaderInput → List Nat
  | _, [] => []
  | r, i :: is => (if r.valid && i.ready then [r.address port aw] else []) ++ issue (r.cycle port i) is

/-! ## Block order -/

/-- The first pixels of a frame's words in JPEG block order. -/
def blockOrder (burst width height : Nat) : List (Nat × Nat) :=
  (List.range (height / 8)).flatMap fun row => (List.range (width / 8)).flatMap fun block =>
    (List.range 8).flatMap fun line => (List.range (8 / burst)).map fun word =>
      (block * 8 + word * burst, row * 8 + line)

/-- The same words, counted line by line from the top of the frame. -/
def frameWords (burst width height : Nat) : List Nat :=
  (blockOrder burst width height).map fun p => (p.2 * width + p.1) / burst

/-- The `n`-th word's place. -/
def place (burst width n : Nat) : Nat × Nat :=
  let row := width / 8 * (8 * (8 / burst))
  (n % row / (8 * (8 / burst)) * 8 + n % row % (8 * (8 / burst)) % (8 / burst) * burst,
    n / row * 8 + n % row % (8 * (8 / burst)) / (8 / burst))

theorem blockOrder_eq (burst width height : Nat) : blockOrder burst width height =
    (List.range (height / 8 * (width / 8 * (8 * (8 / burst))))).map (place burst width) := by
  unfold blockOrder
  simp only [range_flatMap]
  rfl

theorem words_eq {burst width height : Nat} (hb : burst = 4 ∨ burst = 8) (hw : width % 8 = 0) (hh : height % 8 = 0) :
    height / 8 * (width / 8 * (8 * (8 / burst))) = width * height / burst := by
  obtain ⟨q, rfl⟩ := Nat.dvd_of_mod_eq_zero hw
  obtain ⟨k, rfl⟩ := Nat.dvd_of_mod_eq_zero hh
  have harea : 8 * q * (8 * k) = 64 * (k * q) := by ring
  rw [Nat.mul_div_cancel_left _ (by decide), Nat.mul_div_cancel_left _ (by decide), ← Nat.mul_assoc, harea]
  rcases hb with rfl | rfl <;> omega

/-- The place of the word that the scan has come to. -/
theorem place_of_scanned {burst width h v n : Nat} (hb : burst = 4 ∨ burst = 8) (hw : width % 8 = 0) (hlt : h < width)
    (hword : h % burst = 0) (hn : scanned width h v = n * burst) : place burst width n = (h, v) := by
  obtain ⟨q, rfl⟩ := Nat.dvd_of_mod_eq_zero hw
  have hrow : v / 8 * (8 * (8 * q)) = 64 * (v / 8 * q) := by ring
  unfold scanned at hn
  rw [hrow] at hn
  unfold place
  rw [Nat.mul_div_cancel_left _ (by decide)]
  rcases hb with rfl | rfl
  · have hsum : n = q * 16 * (v / 8) + (h / 8 * 16 + v % 8 * 2 + h % 8 / 4) := by
      have : q * 16 * (v / 8) = 16 * (v / 8 * q) := by ring
      omega
    have hrest : h / 8 * 16 + v % 8 * 2 + h % 8 / 4 < q * 16 := by omega
    have hdiv : n / (q * 16) = v / 8 := by
      rw [hsum, Nat.mul_add_div (by omega), Nat.div_eq_of_lt hrest, Nat.add_zero]
    have hmod : n % (q * 16) = h / 8 * 16 + v % 8 * 2 + h % 8 / 4 := by
      rw [hsum, Nat.mul_add_mod, Nat.mod_eq_of_lt hrest]
    simp only [Nat.reduceMul, Nat.reduceDiv, hdiv, hmod]
    rw [Prod.mk.injEq]
    omega
  · have hsum : n = q * 8 * (v / 8) + (h / 8 * 8 + v % 8) := by
      have : q * 8 * (v / 8) = 8 * (v / 8 * q) := by ring
      omega
    have hrest : h / 8 * 8 + v % 8 < q * 8 := by omega
    have hdiv : n / (q * 8) = v / 8 := by
      rw [hsum, Nat.mul_add_div (by omega), Nat.div_eq_of_lt hrest, Nat.add_zero]
    have hmod : n % (q * 8) = h / 8 * 8 + v % 8 := by
      rw [hsum, Nat.mul_add_mod, Nat.mod_eq_of_lt hrest]
    simp only [Nat.reduceMul, Nat.reduceDiv, hdiv, hmod]
    rw [Prod.mk.injEq]
    omega

theorem length_frameWords {burst width height : Nat} (hb : burst = 4 ∨ burst = 8) (hw : width % 8 = 0)
    (hh : height % 8 = 0) : (frameWords burst width height).length = width * height / burst := by
  unfold frameWords
  rw [List.length_map, blockOrder_eq, List.length_map, List.length_range, words_eq hb hw hh]

/-- A word of the frame has a place. -/
theorem word_at {burst width height m : Nat} (hb : burst = 4 ∨ burst = 8) (hw : width % 8 = 0)
    (hm : m < width * height / burst) :
    ∃ x y, x < width ∧ y < height ∧ x % burst = 0 ∧ y * width + x = m * burst := by
  have hlt : m * burst < width * height := by rcases hb with rfl | rfl <;> omega
  have hpos : 0 < width := Nat.pos_of_mul_pos_right (Nat.zero_lt_of_lt hlt)
  refine ⟨m * burst % width, m * burst / width, Nat.mod_lt _ hpos, ?_, ?_, Nat.div_add_mod' _ _⟩
  · apply Nat.div_lt_of_lt_mul hlt
  · have hdvd : burst ∣ width := by
      have h8 := Nat.dvd_of_mod_eq_zero hw
      rcases hb with rfl | rfl <;> omega
    rw [Nat.mod_mod_of_dvd _ hdvd, Nat.mul_mod_left]

/-- **Block order goes through every word of the frame once**, and through no other. -/
theorem frameWords_perm {burst width height : Nat} (hb : burst = 4 ∨ burst = 8) (hw : width % 8 = 0)
    (hh : height % 8 = 0) : (frameWords burst width height).Perm (List.range (width * height / burst)) := by
  have hsub : List.range (width * height / burst) ⊆ frameWords burst width height := by
    intro m hm
    have hm' := List.mem_range.1 hm
    obtain ⟨x, y, hx, hy, hword, hxy⟩ := word_at hb hw hm'
    refine List.mem_map.2 ⟨(x, y), ?_, ?_⟩
    · simp only [blockOrder, List.mem_flatMap, List.mem_map, List.mem_range, Prod.mk.injEq]
      refine ⟨y / 8, by omega, x / 8, by omega, y % 8, by omega, x % 8 / burst, ?_, ?_, by omega⟩
      · rcases hb with rfl | rfl <;> omega
      · rcases hb with rfl | rfl <;> omega
    · rw [hxy, Nat.mul_div_cancel _ (by omega)]
  have hsubperm := List.nodup_range.subperm hsub
  exact (hsubperm.perm_of_length_le (by rw [length_frameWords hb hw hh, List.length_range])).symm

/-! ## One frame -/

variable {port : PortWidth} {aw : Nat}

theorem PortWidth.burstPixels_eq (port : PortWidth) : port.burstPixels = 4 ∨ port.burstPixels = 8 := by
  cases port <;> decide

variable (port) in
/-- The byte addresses of the frame's words in block order: a pixel is two bytes. -/
def frameBytes (base : Word) (width height : Nat) : List Nat :=
  (blockOrder port.burstPixels width height).map fun p => base.toNat + 2 * (p.2 * width + p.1)

variable (port aw) in
/-- The frame lies in the memory behind a port with `aw` address bits. -/
def FrameFits (base : Word) (width height : Nat) : Prop :=
  base.toNat / (port.dw / 8) + width * height / port.burstPixels ≤ 2 ^ aw

theorem length_frameBytes {base : Word} {width height : Nat} (hw : width % 8 = 0) (hh : height % 8 = 0) :
    (frameBytes port base width height).length = width * height / port.burstPixels := by
  unfold frameBytes
  rw [List.length_map, blockOrder_eq, List.length_map, List.length_range, words_eq port.burstPixels_eq hw hh]

/-- The words in block order are the words from the frame's base on, each of them once. -/
theorem frameBytes_perm {base : Word} {width height : Nat} (hw : width % 8 = 0) (hh : height % 8 = 0) :
    (frameBytes port base width height).Perm
      ((List.range (width * height / port.burstPixels)).map fun n => base.toNat + n * (port.dw / 8)) := by
  have hmap : frameBytes port base width height =
      (frameWords port.burstPixels width height).map fun n => base.toNat + n * (port.dw / 8) := by
    unfold frameBytes frameWords
    rw [List.map_map]
    apply List.map_congr_left
    intro p hp
    simp only [blockOrder, List.mem_flatMap, List.mem_map, List.mem_range] at hp
    obtain ⟨row, -, block, -, line, -, word, -, rfl⟩ := hp
    have hline : (row * 8 + line) * width % 8 = 0 := by rw [Nat.mul_mod, hw, Nat.mul_zero, Nat.zero_mod]
    simp only [Function.comp_apply]
    generalize (row * 8 + line) * width = lines at *
    cases port <;> simp only [PortWidth.burstPixels, PortWidth.dw] <;> omega
  rw [hmap]
  exact (frameWords_perm port.burstPixels_eq hw hh).map _

/-- The address at the DMA's sink is that of the pixel the scan has come to. -/
theorem Scanning.address {r : Reader} (h : Scanning port.burstPixels r) (hbase : r.base.toNat % (port.dw / 8) = 0)
    (hfit : FrameFits port aw r.base r.hWidth.toNat r.vWidth.toNat) :
    r.address port aw * (port.dw / 8) = r.base.toNat + 2 * (r.v.toNat * r.hWidth.toNat + r.h.toNat) := by
  have hw := h.width
  have hh := h.height
  have hword := h.word
  have hx := h.h
  have hy := Nat.mul_le_mul_right r.hWidth.toNat (Nat.succ_le_of_lt h.v)
  have hlin : r.v.toNat * r.hWidth.toNat % 8 = 0 := by rw [Nat.mul_mod, hw, Nat.mul_zero, Nat.zero_mod]
  have harea : r.hWidth.toNat * r.vWidth.toNat % 8 = 0 := by rw [Nat.mul_mod, hw, Nat.zero_mul, Nat.zero_mod]
  rw [Nat.succ_mul, Nat.mul_comm r.vWidth.toNat] at hy
  unfold FrameFits at hfit
  unfold Reader.address
  generalize r.v.toNat * r.hWidth.toNat = line at *
  generalize r.hWidth.toNat * r.vWidth.toNat = area at *
  cases port with
  | dw64 =>
    have hbits : PortWidth.dw64.alignmentBits = 3 := by decide
    have hpow : 2 ^ (aw + 3) = 8 * 2 ^ aw := by rw [Nat.pow_add, Nat.mul_comm]
    simp only [hbits, PortWidth.burstPixels, PortWidth.dw, Nat.reduceDiv, Nat.reduceSub, Nat.shiftRight_eq_div_pow,
      hpow] at *
    rw [Nat.mod_eq_of_lt (a := line + r.h.toNat) (by omega), Nat.mod_eq_of_lt (by omega)]
    omega
  | dw128 =>
    have hbits : PortWidth.dw128.alignmentBits = 4 := by decide
    have hpow : 2 ^ (aw + 4) = 16 * 2 ^ aw := by rw [Nat.pow_add, Nat.mul_comm]
    simp only [hbits, PortWidth.burstPixels, PortWidth.dw, Nat.reduceDiv, Nat.reduceSub, Nat.shiftRight_eq_div_pow,
      hpow] at *
    rw [Nat.mod_eq_of_lt (a := line + r.h.toNat) (by omega), Nat.mod_eq_of_lt (by omega)]
    omega

/-- The reader has issued `n` words of a frame that begins at `base`. -/
structure Issued (port : PortWidth) (base : Word) (width height : BitVec 16) (n : Nat) (r : Reader) : Prop where
  base   : r.base = base
  hWidth : r.hWidth = width
  vWidth : r.vWidth = height
  scan   : (Scanning port.burstPixels r ∧ scanned width.toNat r.h.toNat r.v.toNat = n * port.burstPixels) ∨
    (r.fsm = .idle ∧ n * port.burstPixels = width.toNat * height.toNat)

section Issue

variable {base : Word} {width height : BitVec 16} {n : Nat} {r : Reader}

/-- A cycle in which `start` is not written: the reader goes one word further if it reads and the DMA is ready. -/
theorem Issued.cycle (h : Issued port base width height n r) {i : ReaderInput} (hi : i.start = false) :
    Issued port base width height (if r.valid && i.ready then n + 1 else n) (r.cycle port i) := by
  obtain ⟨hbase, hwidth, hheight, ⟨hscan, hn⟩ | ⟨hidle, hn⟩⟩ := h
  case inr =>
    have hcycle : r.cycle port i = { r with h := 0, v := 0 } := by simp [Reader.cycle, hi, hidle]
    have hvalid : r.valid = false := by simp [Reader.valid, hidle]
    rw [hcycle, hvalid, Bool.false_and]
    exact ⟨hbase, hwidth, hheight, .inr ⟨hidle, hn⟩⟩
  have hvalid : r.valid = true := by simp [Reader.valid, hscan.fsm]
  rw [hvalid, Bool.true_and]
  cases hready : i.ready with
  | false =>
    have hcycle : r.cycle port i = r := by simp [Reader.cycle, hi, hscan.fsm, hready]
    rw [hcycle]
    exact ⟨hbase, hwidth, hheight, .inl ⟨hscan, hn⟩⟩
  | true =>
    have hcycle : r.cycle port i = r.take (BitVec.ofNat 16 port.burstPixels) := by
      simp [Reader.cycle, hi, hscan.fsm, hready]
    obtain ⟨hw, hv, hb, hnext⟩ := hscan.take port.burstPixels_eq
    rw [hcycle]
    refine ⟨hb.trans hbase, hw.trans hwidth, hv.trans hheight, ?_⟩
    rw [if_pos rfl, Nat.succ_mul]
    subst hwidth hheight
    rcases hnext with ⟨hscan', hahead⟩ | ⟨hidle, hend⟩
    · rw [hw, hn] at hahead
      exact .inl ⟨hscan', hahead⟩
    · exact .inr ⟨hidle, by rw [← hn]; exact hend⟩

/-- A reader that reads has a word of the frame to issue; an idle one has issued them all. -/
theorem Issued.valid_iff (h : Issued port base width height n r) :
    r.valid = true ↔ n < width.toNat * height.toNat / port.burstPixels := by
  obtain ⟨-, rfl, rfl, ⟨hscan, hn⟩ | ⟨hidle, hn⟩⟩ := h
  · have hlt := scanned_lt hscan.width hscan.height hscan.h hscan.v
    have hdvd := words_eq port.burstPixels_eq hscan.width hscan.height
    have harea : r.hWidth.toNat * r.vWidth.toNat % 8 = 0 := by rw [Nat.mul_mod, hscan.width, Nat.zero_mul, Nat.zero_mod]
    have hvalid : r.valid = true := by simp [Reader.valid, hscan.fsm]
    rw [hn] at hlt
    simp only [hvalid, true_iff]
    rcases port.burstPixels_eq with hb | hb <;> rw [hb] at hlt ⊢ <;> omega
  · have hvalid : r.valid = false := by simp [Reader.valid, hidle]
    rw [← hn, hvalid]
    rcases port.burstPixels_eq with hb | hb <;> rw [hb] <;> simp

/-- The word that the reader offers is the next one in block order. -/
theorem Issued.address (h : Issued port base width height n r) (hvalid : r.valid = true)
    (hbase : base.toNat % (port.dw / 8) = 0) (hfit : FrameFits port aw base width.toNat height.toNat) :
    (frameBytes port base width.toNat height.toNat)[n]? = some (r.address port aw * (port.dw / 8)) := by
  have hlt := h.valid_iff.1 hvalid
  obtain ⟨rfl, rfl, rfl, ⟨hscan, hn⟩ | ⟨hidle, -⟩⟩ := h
  case inr => simp [Reader.valid, hidle] at hvalid
  have hplace := place_of_scanned port.burstPixels_eq hscan.width hscan.h hscan.word hn
  rw [← words_eq port.burstPixels_eq hscan.width hscan.height] at hlt
  rw [hscan.address hbase hfit, frameBytes, blockOrder_eq, List.getElem?_map, List.getElem?_map,
    List.getElem?_range hlt, Option.map_some, Option.map_some, hplace]

theorem Issued.le (h : Issued port base width height n r) : n ≤ width.toNat * height.toNat / port.burstPixels := by
  cases hvalid : r.valid with
  | true => exact (h.valid_iff.1 hvalid).le
  | false =>
    obtain ⟨-, -, -, ⟨hscan, -⟩ | ⟨-, hn⟩⟩ := h
    · simp [Reader.valid, hscan.fsm] at hvalid
    · rw [← hn]
      rcases port.burstPixels_eq with hb | hb <;> rw [hb] <;> omega

/-- The rest of a frame: whatever the stalls, the words taken are the next ones in block order. -/
theorem Issued.issue (hbase : base.toNat % (port.dw / 8) = 0) (hw : width.toNat % 8 = 0) (hh : height.toNat % 8 = 0)
    (hfit : FrameFits port aw base width.toNat height.toNat) :
    ∀ (is : List ReaderInput) (n : Nat) (r : Reader), Issued port base width height n r →
      (∀ i ∈ is, i.start = false) →
      (Encoder.issue port aw r is).map (· * (port.dw / 8)) =
          ((frameBytes port base width.toNat height.toNat).drop n).take (is.countP (·.ready)) ∧
        Issued port base width height
          (min (n + is.countP (·.ready)) (width.toNat * height.toNat / port.burstPixels))
          (is.foldl (Reader.cycle port) r)
  | [], n, r, h, _ => by
    rw [List.countP_nil, List.take_zero, Nat.add_zero, Nat.min_eq_left h.le]
    exact ⟨rfl, h⟩
  | i :: is, n, r, h, hone => by
    have hi := hone i List.mem_cons_self
    have hrest := Issued.issue hbase hw hh hfit is _ _ (h.cycle hi) fun j hj => hone j (List.mem_cons_of_mem _ hj)
    rw [Encoder.issue, List.map_append, hrest.1, List.countP_cons, List.foldl_cons]
    have hle := h.le
    have hlt := h.valid_iff
    refine ⟨?_, ?_⟩
    · cases hvalid : r.valid with
      | false =>
        have hlen : (frameBytes port base width.toNat height.toNat).length ≤ n := by
          rw [length_frameBytes hw hh]
          simpa [hvalid] using hlt
        simp [List.drop_eq_nil_of_le hlen]
      | true =>
        cases hready : i.ready with
        | false => simp
        | true =>
          obtain ⟨hin, hget⟩ := List.getElem?_eq_some_iff.1 (h.address hvalid hbase hfit)
          rw [List.drop_eq_getElem_cons hin, hget]
          rfl
    · convert hrest.2 using 1
      cases hvalid : r.valid <;> cases hready : i.ready <;> simp [hvalid] at hlt ⊢ <;> omega

end Issue

/-- **A frame in block order.**  After one `start` the words that the DMA takes, as far as it has been ready, are the
frame's in block order, each word of the frame once and no other; when the last is taken the reader is idle and done, and
clears both counters in the next cycle. -/
theorem issue_blockOrder (port : PortWidth) (aw : Nat) (r : Reader) (i : ReaderInput) (is : List ReaderInput)
    (hidle : r.fsm = .idle) (hw : r.hWidth.toNat % 8 = 0) (hh : r.vWidth.toNat % 8 = 0) (hw0 : 0 < r.hWidth.toNat)
    (hh0 : 0 < r.vWidth.toNat) (hbase : i.base.toNat % (port.dw / 8) = 0)
    (hfit : FrameFits port aw i.base r.hWidth.toNat r.vWidth.toNat) (hstart : i.start = true)
    (hone : ∀ j ∈ is, j.start = false) :
    let words := frameBytes port i.base r.hWidth.toNat r.vWidth.toNat
    let count := r.hWidth.toNat * r.vWidth.toNat / port.burstPixels
    let t := (i :: is).foldl (Reader.cycle port) r
    words.Perm ((List.range count).map fun n => i.base.toNat + n * (port.dw / 8)) ∧
      (issue port aw r (i :: is)).map (· * (port.dw / 8)) = words.take (is.countP (·.ready)) ∧
      (t.done = true ↔ count ≤ is.countP (·.ready)) ∧
      (t.done = true → ∀ j, (t.cycle port j).h = 0 ∧ (t.cycle port j).v = 0) := by
  intro words count t
  have hcycle : r.cycle port i = r.start i.base := by simp [Reader.cycle, Reader.start, hidle, hstart]
  have hregs : (r.start i.base).hWidth = r.hWidth ∧ (r.start i.base).vWidth = r.vWidth ∧
      (r.start i.base).base = i.base := by simp [Reader.start, hidle]
  obtain ⟨hscan, hn⟩ : Scanning port.burstPixels (r.start i.base) ∧ _ := Scanning.start i.base hidle hw hh hw0 hh0
  have hfirst : Issued port i.base r.hWidth r.vWidth 0 (r.cycle port i) := by
    rw [hregs.1] at hn
    rw [hcycle]
    exact ⟨hregs.2.2, hregs.1, hregs.2.1, .inl ⟨hscan, by rw [hn, Nat.zero_mul]⟩⟩
  obtain ⟨hwords, hlast⟩ := Issued.issue hbase hw hh hfit is 0 _ hfirst hone
  have hdone : t.done = true ↔ t.valid = false := by
    unfold Reader.done Reader.valid
    cases t.fsm <;> decide
  refine ⟨frameBytes_perm hw hh, ?_, ?_, ?_⟩
  · have hquiet : (r.valid && i.ready) = false := by simp [Reader.valid, hidle]
    rw [issue, hquiet]
    exact hwords
  · have hiff := hlast.valid_iff
    rw [hdone, ← Bool.not_eq_true]
    change t.valid = true ↔ _ at hiff
    rw [hiff]
    omega
  · intro ht j
    have hfsm : t.fsm = .idle := by simpa [Reader.done] using ht
    cases hj : j.start <;> simp [Reader.cycle, hfsm, hj]

/-- One frame of 16x8 behind a port of 64 bits, from a reader that an earlier frame has left behind. -/
theorem issue_blockOrder_16x8 :
    let r : Reader := { fsm := .idle, base := 0, h := 0, v := 8, hWidth := 16, vWidth := 8 }
    let go : ReaderInput := { start := true, base := 0x100, ready := false }
    let is : List ReaderInput := List.replicate 32 { start := false, base := 0x900, ready := true }
    (issue .dw64 24 r (go :: is)).map (· * 8) = frameBytes .dw64 0x100 16 8 ∧
      ((go :: is).foldl (Reader.cycle .dw64) r).done = true := by
  intro r go is
  have hrun := issue_blockOrder .dw64 24 r go is (by decide) (by decide) (by decide) (by decide) (by decide) (by decide)
    (by unfold FrameFits; decide) (by decide) (by decide)
  exact ⟨hrun.2.1.trans (by decide), hrun.2.2.1.2 (by decide)⟩

end Encoder
end Hdmi2Usb
