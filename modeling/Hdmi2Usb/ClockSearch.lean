import Hdmi2Usb.Processor
import Hdmi2Usb.Runs
import Mathlib.Algebra.Order.Field.Rat
import Mathlib.Algebra.Order.Ring.Abs
import Mathlib.Data.List.MinMax
import Mathlib.Tactic.FieldSimp
import Mathlib.Tactic.Positivity
/-!
# ClockSearch — the clock ratio that `fb_get_clock_md` finds

The search tries every divider and every multiplier, and keeps the pair it finds closest.  It compares differences of
fractions over their common denominator, from a first pair whose denominator is zero: that is no fraction, but every
pair is taken in its place.  While the products fit a word the search is Mathlib's `List.argmin` (`search_argmin`).
-/
namespace Hdmi2Usb

namespace Clocking

def idealD : Clocking → Nat
  | .pll  => 5000
  | .mmcm => 1000

def maxM : Clocking → Nat
  | .pll  => 256
  | .mmcm => 128

def maxD : Clocking → Nat
  | .pll  => 256
  | .mmcm => 128

/-- The pairs (multiplier, divider) in the order they are tried. -/
def pairs (c : Clocking) : List (ℕ × ℕ) :=
  (List.range' 1 c.maxD).flatMap fun d => (List.range' 2 (c.maxM - 1)).map fun m => (m, d)

/-- How far a pair is from the ratio that makes the pixel clock. -/
def distance (c : Clocking) (pixelClock : ℕ) (md : ℕ × ℕ) : ℚ := |(md.1 : ℚ) / md.2 - pixelClock / c.idealD|

theorem mem_pairs {c : Clocking} {md : ℕ × ℕ} :
    md ∈ c.pairs ↔ (2 ≤ md.1 ∧ md.1 ≤ c.maxM) ∧ 1 ≤ md.2 ∧ md.2 ≤ c.maxD := by
  have hmax : 2 ≤ c.maxM := by cases c <;> decide
  unfold pairs
  rw [List.mem_flatMap]
  constructor
  · rintro ⟨d, hd, hmem⟩
    obtain ⟨m, hm, rfl⟩ := List.mem_map.1 hmem
    rw [List.mem_range'_1] at hd hm
    dsimp only
    omega
  · rintro ⟨hm, hd⟩
    refine ⟨md.2, List.mem_range'_1.2 (by omega), List.mem_map.2 ⟨md.1, List.mem_range'_1.2 (by omega), rfl⟩⟩

theorem idealD_pos (c : Clocking) : 0 < c.idealD := by cases c <;> decide

theorem maxD_eq (c : Clocking) : c.maxD = c.maxM := by cases c <;> rfl

/-- The products without the pixel clock always fit. -/
theorem products_lt {c : Clocking} {d m : ℕ} (hd : d ≤ c.maxD) (hm : m ≤ c.maxM) : d * c.idealD * m < 2 ^ 31 := by
  calc d * c.idealD * m ≤ c.maxD * c.idealD * c.maxM := by gcongr
    _ < 2 ^ 31 := by cases c <;> decide

end Clocking

namespace Processor

open Runs (AllSteps)

variable {p : Platform}

/-- One turn of the search. -/
def turn (idealM idealD : Word) (best : Word × Word) (md : ℕ × ℕ) : Word × Word :=
  clockTurn idealM idealD (BitVec.ofNat 32 md.2) best (BitVec.ofNat 32 md.1)

/-- In the turn that tries `md` no product and no difference is too large for an `int`. -/
structure Fits (idealM idealD : Word) (best : Word × Word) (md : ℕ × ℕ) : Prop where
  dI    : md.2 * idealD.toNat < 2 ^ 31
  dIbm  : md.2 * idealD.toNat * best.1.toNat < 2 ^ 31
  dbd   : md.2 * best.2.toNat < 2 ^ 31
  dbdP  : md.2 * best.2.toNat * idealM.toNat < 2 ^ 31
  bdI   : best.2.toNat * idealD.toNat < 2 ^ 31
  bdIm  : best.2.toNat * idealD.toNat * md.1 < 2 ^ 31
  diffCurrent :
    |((md.2 * idealD.toNat * best.1.toNat : ℕ) : ℤ) - (md.2 * best.2.toNat * idealM.toNat : ℕ)| < 2 ^ 31
  diffTested  :
    |((best.2.toNat * idealD.toNat * md.1 : ℕ) : ℤ) - (md.2 * best.2.toNat * idealM.toNat : ℕ)| < 2 ^ 31

theorem fbGetClockMd_eq (pixelClock : Word) : fbGetClockMd p pixelClock =
    p.clocking.pairs.foldl (turn pixelClock (BitVec.ofNat 32 p.clocking.idealD)) (1, 0) := by
  unfold Clocking.pairs
  rw [List.foldl_flatMap]
  simp only [List.foldl_map]
  unfold fbGetClockMd
  cases p.clocking <;> rfl

/-! ## One turn -/

/-- The search's pair: before it has found one, a fraction without a denominator. -/
def encode : Option (ℕ × ℕ) → Word × Word
  | none    => (1, 0)
  | some md => (BitVec.ofNat 32 md.1, BitVec.ofNat 32 md.2)

/-- The difference of two products, as the code takes its absolute value. -/
theorem toNat_abs_sub {x y : Word} (hx : x.toNat < 2 ^ 31) (hy : y.toNat < 2 ^ 31) :
    ((x - y).abs.toNat : ℤ) = |(x.toNat : ℤ) - y.toNat| := by
  have hsub : (x - y).toNat = (2 ^ 32 - y.toNat + x.toNat) % 2 ^ 32 := BitVec.toNat_sub x y
  rw [BitVec.toNat_abs, BitVec.msb_eq_decide]
  by_cases h : y.toNat ≤ x.toNat
  · have hval : (x - y).toNat = x.toNat - y.toNat := by omega
    rw [hval, abs_of_nonneg (by omega), if_neg (by rw [decide_eq_true_eq]; omega)]
    omega
  · have hval : (x - y).toNat = 2 ^ 32 - (y.toNat - x.toNat) := by omega
    rw [hval, abs_of_neg (by omega), if_pos (by rw [decide_eq_true_eq]; omega)]
    omega

theorem toNat_mul₃ {a b c : Word} (hab : a.toNat * b.toNat < 2 ^ 31) (h : a.toNat * b.toNat * c.toNat < 2 ^ 31) :
    (a * b * c).toNat = a.toNat * b.toNat * c.toNat := by
  have hle : 2 ^ 31 ≤ 2 ^ 32 := by decide
  rw [BitVec.toNat_mul, BitVec.toNat_mul, Nat.mod_eq_of_lt (hab.trans_le hle), Nat.mod_eq_of_lt (h.trans_le hle)]

/-- The distance of a pair, over the common denominator of two. -/
theorem distance_mul (c : Clocking) (pixelClock bd : ℕ) {md : ℕ × ℕ} (hd : 0 < md.2) :
    c.distance pixelClock md * (md.2 * bd * c.idealD) =
      ((|(bd * c.idealD * md.1 : ℤ) - md.2 * bd * pixelClock| : ℤ) : ℚ) := by
  have hI := c.idealD_pos
  have hden : (0 : ℚ) ≤ md.2 * bd * c.idealD := by positivity
  unfold Clocking.distance
  rw [← abs_of_nonneg hden, ← abs_mul, Int.cast_abs]
  congr 1
  push_cast
  field_simp

/-- The code compares the distances of two pairs. -/
theorem distance_lt_iff (c : Clocking) (pixelClock : ℕ) {md best : ℕ × ℕ} (hd : 0 < md.2) (hbd : 0 < best.2) :
    c.distance pixelClock md < c.distance pixelClock best ↔
      |(best.2 * c.idealD * md.1 : ℤ) - md.2 * best.2 * pixelClock| <
        |(md.2 * c.idealD * best.1 : ℤ) - md.2 * best.2 * pixelClock| := by
  have hI := c.idealD_pos
  have hden : (0 : ℚ) < md.2 * best.2 * c.idealD := by positivity
  have htested := distance_mul c pixelClock best.2 hd
  have hcurrent := distance_mul c pixelClock md.2 hbd
  rw [mul_comm (best.2 : ℚ), mul_comm (best.2 : ℤ)] at hcurrent
  rw [← mul_lt_mul_iff_left₀ hden, htested, hcurrent, Int.cast_lt]

/-- The pairs a search in a clock that is not too fast can hold. -/
def Held (c : Clocking) : Option (ℕ × ℕ) → Prop
  | none    => True
  | some md => md ∈ c.pairs

variable {c : Clocking}

theorem toNat_idealD (c : Clocking) : (BitVec.ofNat 32 c.idealD).toNat = c.idealD := by cases c <;> rfl

theorem toNat_of_le_maxM {n : ℕ} (h : n ≤ c.maxM) : (BitVec.ofNat 32 n).toNat = n := by
  have hmax : c.maxM ≤ 256 := by cases c <;> decide
  rw [BitVec.toNat_ofNat, Nat.mod_eq_of_lt (by omega)]

theorem toNat_of_le_maxD {n : ℕ} (h : n ≤ c.maxD) : (BitVec.ofNat 32 n).toNat = n :=
  toNat_of_le_maxM (h.trans_eq c.maxD_eq)

theorem encode_le {o : Option (ℕ × ℕ)} (ho : Held c o) :
    (encode o).1.toNat ≤ c.maxM ∧ (encode o).2.toNat ≤ c.maxD := by
  cases o with
  | none => cases c <;> decide
  | some best =>
    obtain ⟨hm, hd⟩ := Clocking.mem_pairs.1 ho
    unfold encode
    rw [toNat_of_le_maxM hm.2, toNat_of_le_maxD hd.2]
    exact ⟨hm.2, hd.2⟩

/-- The pixel clock is slow enough for the search. -/
def InRange (c : Clocking) (pixelClock : Word) : Prop := c.maxM * c.maxD * pixelClock.toNat < 2 ^ 31

/-- Every turn of a search fits. -/
theorem fits_encode {pixelClock : Word} (h : InRange c pixelClock) {o : Option (ℕ × ℕ)} (ho : Held c o)
    {md : ℕ × ℕ} (hmd : md ∈ c.pairs) : Fits pixelClock (BitVec.ofNat 32 c.idealD) (encode o) md := by
  obtain ⟨hm, hd⟩ := Clocking.mem_pairs.1 hmd
  obtain ⟨hbm, hbd⟩ := encode_le ho
  generalize encode o = best at hbm hbd ⊢
  have hdIbm := Clocking.products_lt hd.2 hbm
  have hbdIm := Clocking.products_lt hbd hm.2
  have hdI := Clocking.products_lt (m := 1) hd.2 (by omega)
  have hbdI := Clocking.products_lt (m := 1) hbd (by omega)
  have hmax : c.maxM * c.maxD < 2 ^ 31 := by cases c <;> decide
  have hdbd : md.2 * best.2.toNat ≤ c.maxM * c.maxD := Nat.mul_le_mul (hd.2.trans_eq c.maxD_eq) hbd
  have hdbdP : md.2 * best.2.toNat * pixelClock.toNat < 2 ^ 31 := (Nat.mul_le_mul_right _ hdbd).trans_lt h
  have habs : ∀ x y : ℕ, x < 2 ^ 31 → y < 2 ^ 31 → |(x : ℤ) - y| < 2 ^ 31 := by
    intro x y hx hy
    rw [abs_lt]
    omega
  constructor <;> try rw [toNat_idealD]
  · omega
  · omega
  · omega
  · omega
  · omega
  · omega
  · exact habs _ _ hdIbm hdbdP
  · exact habs _ _ hbdIm hdbdP

/-- A turn that fits compares the differences it means to compare. -/
theorem turn_of_fits {idealM idealD : Word} {best : Word × Word} {md : ℕ × ℕ} (h : Fits idealM idealD best md)
    (hm : md.1 < 2 ^ 32) (hd : md.2 < 2 ^ 32) : turn idealM idealD best md =
      if |((best.2.toNat * idealD.toNat * md.1 : ℕ) : ℤ) - (md.2 * best.2.toNat * idealM.toNat : ℕ)| <
        |((md.2 * idealD.toNat * best.1.toNat : ℕ) : ℤ) - (md.2 * best.2.toNat * idealM.toNat : ℕ)|
      then (BitVec.ofNat 32 md.1, BitVec.ofNat 32 md.2) else best := by
  have hmval : (BitVec.ofNat 32 md.1).toNat = md.1 := by rw [BitVec.toNat_ofNat, Nat.mod_eq_of_lt hm]
  have hdval : (BitVec.ofNat 32 md.2).toNat = md.2 := by rw [BitVec.toNat_ofNat, Nat.mod_eq_of_lt hd]
  have hdIbm : (BitVec.ofNat 32 md.2 * idealD * best.1).toNat = md.2 * idealD.toNat * best.1.toNat := by
    rw [toNat_mul₃ (by rw [hdval]; exact h.dI) (by rw [hdval]; exact h.dIbm), hdval]
  have hdbdP : (BitVec.ofNat 32 md.2 * best.2 * idealM).toNat = md.2 * best.2.toNat * idealM.toNat := by
    rw [toNat_mul₃ (by rw [hdval]; exact h.dbd) (by rw [hdval]; exact h.dbdP), hdval]
  have hbdIm : (best.2 * idealD * BitVec.ofNat 32 md.1).toNat = best.2.toNat * idealD.toNat * md.1 := by
    rw [toNat_mul₃ h.bdI (by rw [hmval]; exact h.bdIm), hmval]
  have hcurrent := toNat_abs_sub (hdIbm.trans_lt h.dIbm) (hdbdP.trans_lt h.dbdP)
  have htested := toNat_abs_sub (hbdIm.trans_lt h.bdIm) (hdbdP.trans_lt h.dbdP)
  rw [hdIbm, hdbdP] at hcurrent
  rw [hbdIm, hdbdP] at htested
  rw [← hcurrent, ← htested]
  simp only [Int.ofNat_lt, ← BitVec.lt_def]
  rfl

/-- A turn keeps the closer pair, and the earlier of two that are equally close. -/
theorem turn_encode {pixelClock : Word} (h : InRange c pixelClock) {o : Option (ℕ × ℕ)} (ho : Held c o)
    {md : ℕ × ℕ} (hmd : md ∈ c.pairs) : turn pixelClock (BitVec.ofNat 32 c.idealD) (encode o) md =
      encode (List.argAux (fun b a => c.distance pixelClock.toNat b < c.distance pixelClock.toNat a) o md) := by
  obtain ⟨hm, hd⟩ := Clocking.mem_pairs.1 hmd
  have hmax : c.maxM < 2 ^ 32 ∧ c.maxD < 2 ^ 32 := by cases c <;> decide
  rw [turn_of_fits (fits_encode h ho hmd) (by omega) (by omega), toNat_idealD]
  unfold List.argAux
  cases o with
  | none =>
    have hpos : 0 < md.2 * c.idealD := Nat.mul_pos hd.1 c.idealD_pos
    have hm1 : (encode none).1.toNat = 1 := rfl
    have hd0 : (encode none).2.toNat = 0 := rfl
    refine if_pos ?_
    rw [hm1, hd0, Nat.zero_mul, Nat.zero_mul, Nat.mul_zero, Nat.zero_mul, Nat.mul_one, Nat.cast_zero, sub_zero,
      sub_zero, abs_zero, Nat.abs_cast]
    exact_mod_cast hpos
  | some best =>
    obtain ⟨hbm, hbd⟩ := Clocking.mem_pairs.1 ho
    have hiff := distance_lt_iff c pixelClock.toNat (lt_of_lt_of_le one_pos hd.1) (lt_of_lt_of_le one_pos hbd.1)
    simp only [encode, toNat_of_le_maxM hbm.2, toNat_of_le_maxD hbd.2, Nat.cast_mul]
    by_cases hlt : c.distance pixelClock.toNat md < c.distance pixelClock.toNat best
    · rw [if_pos hlt, if_pos (hiff.1 hlt)]
    · rw [if_neg hlt, if_neg (fun hc => hlt (hiff.2 hc))]

/-! ## The whole search -/

theorem Held.argAux {o : Option (ℕ × ℕ)} (ho : Held c o) {md : ℕ × ℕ} (hmd : md ∈ c.pairs) (r : ℕ × ℕ → ℕ × ℕ → Prop)
    [DecidableRel r] : Held c (List.argAux r o md) := by
  unfold List.argAux
  cases o with
  | none => exact hmd
  | some best =>
    dsimp only
    split
    · exact hmd
    · exact ho

/-- A search over pairs in range holds what `List.argmin` does, and every turn of it fits. -/
theorem foldl_turn {pixelClock : Word} (h : InRange c pixelClock) :
    ∀ (l : List (ℕ × ℕ)) (o : Option (ℕ × ℕ)), (∀ md ∈ l, md ∈ c.pairs) → Held c o →
      l.foldl (turn pixelClock (BitVec.ofNat 32 c.idealD)) (encode o) = encode (l.foldl
        (List.argAux fun b a => c.distance pixelClock.toNat b < c.distance pixelClock.toNat a) o) ∧
      AllSteps (turn pixelClock (BitVec.ofNat 32 c.idealD)) (Fits pixelClock (BitVec.ofNat 32 c.idealD)) (encode o) l
  | [], _, _, _ => ⟨rfl, trivial⟩
  | md :: l, o, hl, ho => by
    obtain ⟨hmd, hrest⟩ := List.forall_mem_cons.1 hl
    obtain ⟨hfold, hsteps⟩ := foldl_turn h l _ hrest
      (ho.argAux hmd fun b a => c.distance pixelClock.toNat b < c.distance pixelClock.toNat a)
    rw [List.foldl_cons, List.foldl_cons, Runs.allSteps_cons, turn_encode h ho hmd]
    exact ⟨hfold, fits_encode h ho hmd, hsteps⟩

/-- **The search is `List.argmin`**: it returns the first pair of the smallest distance. -/
theorem search_argmin {pixelClock : Word} (h : InRange p.clocking pixelClock) :
    ∃ md ∈ p.clocking.pairs.argmin (p.clocking.distance pixelClock.toNat),
      fbGetClockMd p pixelClock = (BitVec.ofNat 32 md.1, BitVec.ofNat 32 md.2) := by
  have hmem : (2, 1) ∈ p.clocking.pairs := by
    rw [Clocking.mem_pairs]
    cases p.clocking <;> decide
  have hne : p.clocking.pairs.argmin (p.clocking.distance pixelClock.toNat) ≠ none := by
    rw [ne_eq, List.argmin_eq_none]
    exact List.ne_nil_of_mem hmem
  obtain ⟨md, hmd⟩ := Option.ne_none_iff_exists'.1 hne
  refine ⟨md, hmd, ?_⟩
  have hfold := (foldl_turn h p.clocking.pairs none (fun _ h => h) trivial).1
  rw [fbGetClockMd_eq]
  exact hfold.trans (congrArg encode hmd)

/-- No pair in range is closer to the pixel clock. -/
structure BestRatio (c : Clocking) (pixelClock m d : Word) : Prop where
  m_mem   : 2 ≤ m.toNat ∧ m.toNat ≤ c.maxM
  d_mem   : 1 ≤ d.toNat ∧ d.toNat ≤ c.maxD
  closest : ∀ m' d' : ℕ, 2 ≤ m' ∧ m' ≤ c.maxM → 1 ≤ d' ∧ d' ≤ c.maxD →
    |(m.toNat : ℚ) / d.toNat - pixelClock.toNat / c.idealD| ≤ |(m' : ℚ) / d' - pixelClock.toNat / c.idealD|

/-- Every turn of the search fits. -/
def NoOverflow (c : Clocking) (pixelClock : Word) : Prop :=
  AllSteps (turn pixelClock (BitVec.ofNat 32 c.idealD)) (Fits pixelClock (BitVec.ofNat 32 c.idealD)) (1, 0) c.pairs

/-- **The search finds the best ratio**, for a clock that is slow enough, and no turn of it overflows. -/
theorem fbGetClockMd_best (p : Platform) (pixelClock : Word) (h : InRange p.clocking pixelClock) :
    BestRatio p.clocking pixelClock (fbGetClockMd p pixelClock).1 (fbGetClockMd p pixelClock).2 ∧
      NoOverflow p.clocking pixelClock := by
  obtain ⟨md, hmd, heq⟩ := search_argmin h
  obtain ⟨hm, hd⟩ := Clocking.mem_pairs.1 (List.argmin_mem hmd)
  rw [heq]
  refine ⟨⟨?_, ?_, ?_⟩, (foldl_turn h p.clocking.pairs none (fun _ h => h) trivial).2⟩
  · rw [toNat_of_le_maxM hm.2]
    exact hm
  · rw [toNat_of_le_maxD hd.2]
    exact hd
  · intro m' d' hm' hd'
    have hle : p.clocking.distance pixelClock.toNat md ≤ p.clocking.distance pixelClock.toNat (m', d') :=
      List.le_of_mem_argmin (Clocking.mem_pairs.2 ⟨hm', hd'⟩) hmd
    rw [toNat_of_le_maxM hm.2, toNat_of_le_maxD hd.2]
    exact hle

/-- 74.25 MHz on the Opsis. -/
theorem fbGetClockMd_best_7425 : InRange opsis.clocking 7425 ∧
    BestRatio opsis.clocking 7425 (fbGetClockMd opsis 7425).1 (fbGetClockMd opsis 7425).2 ∧
      NoOverflow opsis.clocking 7425 := by
  have h : InRange opsis.clocking 7425 := by
    unfold InRange
    decide
  exact ⟨h, fbGetClockMd_best opsis 7425 h⟩

end Processor
end Hdmi2Usb
