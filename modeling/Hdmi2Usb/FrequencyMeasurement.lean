import Mathlib.Algebra.BigOperators.Group.Finset.Basic
import Mathlib.Data.BitVec
/-!
# FrequencyMeasurement — counting the ticks of another clock (`freq_measurement.py`)

A narrow counter runs with the measured clock; the sampler reads it in every system cycle and adds what it has grown by.
Every `measure_period + 1` cycles the sum is latched and cleared, and the growth of that cycle is lost.  `sample` is the
counter's value as it comes out of the Gray decoder.
-/
namespace Hdmi2Usb
namespace FrequencyMeasurement

structure Params where
  measurePeriod : Nat
  measureWidth  : Nat
  counterWidth  : Nat

structure Sampler (p : Params) where
  iD      : BitVec p.measureWidth
  counter : BitVec p.counterWidth
  value   : BitVec p.counterWidth

structure State (p : Params) where
  periodCounter : BitVec p.counterWidth
  sampler       : Sampler p

section

variable {p : Params}

def Sampler.step (s : Sampler p) (latch : Bool) (i : BitVec p.measureWidth) : Sampler p :=
  let counterInc := i - s.iD
  if latch then { iD := i, counter := 0, value := s.counter }
  else { s with iD := i, counter := s.counter + counterInc.setWidth p.counterWidth }

def State.reset : State p := ⟨0, 0, 0, 0⟩

def State.periodDone (s : State p) : Bool := s.periodCounter.toNat = p.measurePeriod

def State.step (s : State p) (i : BitVec p.measureWidth) : State p :=
  { periodCounter := if s.periodDone then 0 else s.periodCounter + 1
    sampler       := s.sampler.step s.periodDone i }

end

section

-- the ticks between the sample of a cycle and the one before; for the first cycle, all of the counter's
variable (p : Params) (ticks : Nat → Nat)

/-- The measured clock's counter, as the sampler sees it in cycle `n`. -/
def sample (n : Nat) : BitVec p.measureWidth := BitVec.ofNat p.measureWidth (∑ j ∈ Finset.range (n + 1), ticks j)

/-- The state before cycle `n`. -/
def state : Nat → State p
  | 0     => .reset
  | n + 1 => (state n).step (sample p ticks n)

/-- The first cycle of a period. -/
def periodStart (k : Nat) : Nat := k * (p.measurePeriod + 1)

end

section

variable {p : Params} {ticks : Nat → Nat}

theorem periodStart_succ (p : Params) (k : Nat) : periodStart p (k + 1) = periodStart p k + p.measurePeriod + 1 := by
  rw [periodStart, Nat.add_mul, Nat.one_mul]
  rfl

theorem iD_succ (p : Params) (ticks : Nat → Nat) (n : Nat) :
    (state p ticks (n + 1)).sampler.iD = sample p ticks n := by
  rw [state, State.step, Sampler.step]
  split <;> rfl

/-! ## The period -/

theorem periodDone_of_eq {n r : Nat} (hr : r < 2 ^ p.counterWidth)
    (h : (state p ticks n).periodCounter = BitVec.ofNat p.counterWidth r) :
    (state p ticks n).periodDone = true ↔ r = p.measurePeriod := by
  rw [State.periodDone, decide_eq_true_iff, h, BitVec.toNat_ofNat, Nat.mod_eq_of_lt hr]

theorem periodCounter_eq (hfits : p.measurePeriod < 2 ^ p.counterWidth) (k : Nat) :
    ∀ r, r ≤ p.measurePeriod → (state p ticks (periodStart p k + r)).periodCounter = BitVec.ofNat p.counterWidth r := by
  have hturn : ∀ k, (state p ticks (periodStart p k)).periodCounter = 0 →
      ∀ r, r ≤ p.measurePeriod → (state p ticks (periodStart p k + r)).periodCounter = BitVec.ofNat p.counterWidth r := by
    intro k hstart r
    induction r with
    | zero => exact fun _ => hstart
    | succ r ih =>
      intro hr
      have hcounter := ih (Nat.le_of_succ_le hr)
      have hdone := periodDone_of_eq (Nat.lt_of_lt_of_le hr hfits.le) hcounter
      rw [← Nat.add_assoc, state, State.step, if_neg (by rw [hdone]; omega), hcounter, BitVec.ofNat_add]
      rfl
  refine hturn k ?_
  induction k with
  | zero =>
    rw [periodStart, Nat.zero_mul]
    rfl
  | succ k ih =>
    have hdone := periodDone_of_eq hfits (hturn k ih _ le_rfl)
    rw [periodStart_succ, state, State.step, if_pos (hdone.2 rfl)]

theorem exists_period (p : Params) (n : Nat) : ∃ k r, r ≤ p.measurePeriod ∧ n = periodStart p k + r := by
  refine ⟨n / (p.measurePeriod + 1), n % (p.measurePeriod + 1), ?_, (Nat.div_add_mod' n _).symm⟩
  exact Nat.le_of_lt_succ (Nat.mod_lt n (Nat.succ_pos _))

theorem periodDone_iff {n : Nat} : (state p ticks n).periodDone = true ↔
    p.measurePeriod < 2 ^ p.counterWidth ∧ n % (p.measurePeriod + 1) = p.measurePeriod := by
  by_cases hfits : p.measurePeriod < 2 ^ p.counterWidth
  · obtain ⟨k, r, hr, rfl⟩ := exists_period p n
    rw [periodDone_of_eq (Nat.lt_of_le_of_lt hr hfits) (periodCounter_eq hfits k r hr), and_iff_right hfits,
      periodStart, Nat.mul_add_mod', Nat.mod_eq_of_lt (Nat.lt_succ_of_le hr)]
  · rw [State.periodDone, decide_eq_true_iff]
    have hlt := (state p ticks n).periodCounter.isLt
    constructor
    · intro heq
      exact absurd (heq ▸ hlt) hfits
    · rintro ⟨hfits', -⟩
      exact absurd hfits' hfits

/-! ## The count -/

/-- Whatever the narrow counter is, the difference of two samples is the ticks between them. -/
theorem sample_sub (n : Nat) : sample p ticks (n + 1) - sample p ticks n = BitVec.ofNat p.measureWidth (ticks (n + 1)) := by
  rw [sample, sample, Finset.sum_range_succ, BitVec.ofNat_add, BitVec.add_comm]
  exact BitVec.add_sub_cancel _ _

theorem sampler_of_not_periodDone {n : Nat} (hticks : ticks (n + 1) < 2 ^ p.measureWidth)
    (h : (state p ticks (n + 1)).periodDone = false) :
    (state p ticks (n + 2)).sampler.counter =
      (state p ticks (n + 1)).sampler.counter + BitVec.ofNat p.counterWidth (ticks (n + 1)) := by
  have hinc : (BitVec.ofNat p.measureWidth (ticks (n + 1))).setWidth p.counterWidth =
      BitVec.ofNat p.counterWidth (ticks (n + 1)) := by
    apply BitVec.eq_of_toNat_eq
    rw [BitVec.toNat_setWidth, BitVec.toNat_ofNat, BitVec.toNat_ofNat, Nat.mod_eq_of_lt hticks]
  rw [state, State.step, Sampler.step, h, iD_succ, sample_sub, hinc]
  rfl

theorem value_of_not_periodDone {n : Nat} (h : (state p ticks n).periodDone = false) :
    (state p ticks (n + 1)).sampler.value = (state p ticks n).sampler.value := by
  rw [state, State.step, Sampler.step, h]
  rfl

theorem sampler_of_periodDone {n : Nat} (h : (state p ticks n).periodDone = true) :
    (state p ticks (n + 1)).sampler.counter = 0 ∧
      (state p ticks (n + 1)).sampler.value = (state p ticks n).sampler.counter := by
  rw [state, State.step, Sampler.step, h]
  exact ⟨rfl, rfl⟩

/-- **The counter in a period** after the first is what its cycles so far have brought. -/
theorem counter_eq (hfits : p.measurePeriod < 2 ^ p.counterWidth) (hticks : ∀ n, ticks (n + 1) < 2 ^ p.measureWidth)
    (k : Nat) : ∀ r, r ≤ p.measurePeriod → (state p ticks (periodStart p (k + 1) + r)).sampler.counter =
      BitVec.ofNat p.counterWidth (∑ j ∈ Finset.range r, ticks (periodStart p (k + 1) + j)) := by
  intro r
  induction r with
  | zero =>
    intro _
    have hdone : (state p ticks (periodStart p k + p.measurePeriod)).periodDone = true :=
      (periodDone_of_eq hfits (periodCounter_eq hfits k _ le_rfl)).2 rfl
    rw [periodStart_succ]
    exact (sampler_of_periodDone hdone).1
  | succ r ih =>
    intro hr
    have hcounter := ih (Nat.le_of_succ_le hr)
    have hdone : (state p ticks (periodStart p (k + 1) + r)).periodDone = false := by
      rw [← Bool.not_eq_true, periodDone_of_eq (by omega) (periodCounter_eq hfits (k + 1) r (by omega))]
      omega
    obtain ⟨n, hn⟩ : ∃ n, periodStart p (k + 1) + r = n + 1 :=
      ⟨periodStart p k + p.measurePeriod + r, by rw [periodStart_succ]; omega⟩
    rw [Finset.sum_range_succ, BitVec.ofNat_add, ← hcounter, ← Nat.add_assoc, hn]
    rw [hn] at hdone
    exact sampler_of_not_periodDone (hticks n) hdone

/-- The value that the cycle before a period has latched. -/
theorem value_eq (hfits : p.measurePeriod < 2 ^ p.counterWidth) (hticks : ∀ n, ticks (n + 1) < 2 ^ p.measureWidth)
    {k : Nat} (hwindow : ∑ j ∈ Finset.range p.measurePeriod, ticks (periodStart p (k + 1) + j) < 2 ^ p.counterWidth) :
    (state p ticks (periodStart p (k + 2))).sampler.value.toNat =
      ∑ j ∈ Finset.range p.measurePeriod, ticks (periodStart p (k + 1) + j) := by
  have hdone : (state p ticks (periodStart p (k + 1) + p.measurePeriod)).periodDone = true :=
    (periodDone_of_eq hfits (periodCounter_eq hfits (k + 1) _ le_rfl)).2 rfl
  rw [periodStart_succ, (sampler_of_periodDone hdone).2, counter_eq hfits hticks k _ le_rfl, BitVec.toNat_ofNat,
    Nat.mod_eq_of_lt hwindow]

theorem sum_periods (p : Params) (f : Nat → Nat) (start : Nat) : ∀ K,
    ∑ k ∈ Finset.range K, (∑ j ∈ Finset.range p.measurePeriod, f (start + periodStart p k + j) +
      f (start + periodStart p k + p.measurePeriod)) = ∑ j ∈ Finset.range (periodStart p K), f (start + j)
  | 0     => by simp [periodStart]
  | K + 1 => by
    rw [Finset.sum_range_succ, sum_periods p f start K, periodStart_succ, Finset.sum_range_succ, Finset.sum_range_add]
    simp only [Nat.add_assoc]

/-- **Every latched value after the first is the ticks of its window**: a period but for the cycle that latches.  In
between the value stays; and over any number of periods the values and what came in the latch cycles are all the ticks. -/
theorem value_counts (p : Params) (ticks : Nat → Nat) (hticks : ∀ n, ticks (n + 1) < 2 ^ p.measureWidth)
    (hwindow : ∀ k, ∑ j ∈ Finset.range p.measurePeriod, ticks (periodStart p (k + 1) + j) < 2 ^ p.counterWidth) :
    (∀ n, (state p ticks n).periodDone = true ↔
        p.measurePeriod < 2 ^ p.counterWidth ∧ n % (p.measurePeriod + 1) = p.measurePeriod) ∧
      (∀ n, (state p ticks n).periodDone = false →
        (state p ticks (n + 1)).sampler.value = (state p ticks n).sampler.value) ∧
      (∀ n, (state p ticks n).periodDone = true → p.measurePeriod < n → (state p ticks (n + 1)).sampler.value.toNat =
        ∑ j ∈ Finset.range p.measurePeriod, ticks (n - p.measurePeriod + j)) ∧
      (p.measurePeriod < 2 ^ p.counterWidth → ∀ K,
        ∑ k ∈ Finset.range K, ((state p ticks (periodStart p (k + 2))).sampler.value.toNat +
          ticks (periodStart p (k + 1) + p.measurePeriod)) =
        ∑ j ∈ Finset.range (periodStart p K), ticks (periodStart p 1 + j)) := by
  refine ⟨fun n => periodDone_iff, fun n => value_of_not_periodDone, fun n hdone hn => ?_, fun hfits K => ?_⟩
  · obtain ⟨hfits, hmod⟩ := periodDone_iff.1 hdone
    obtain ⟨k, r, hr, rfl⟩ := exists_period p n
    obtain rfl : r = p.measurePeriod := by
      rwa [periodStart, Nat.mul_add_mod', Nat.mod_eq_of_lt (Nat.lt_succ_of_le hr)] at hmod
    cases k with
    | zero =>
      rw [periodStart, Nat.zero_mul, Nat.zero_add] at hn
      exact absurd hn (Nat.lt_irrefl _)
    | succ k =>
      have hvalue := value_eq hfits hticks (hwindow k)
      rw [periodStart_succ p (k + 1)] at hvalue
      rw [Nat.add_sub_cancel]
      exact hvalue
  · rw [← sum_periods p ticks (periodStart p 1)]
    refine Finset.sum_congr rfl fun k _ => ?_
    rw [value_eq hfits hticks (hwindow k)]
    have hstart : periodStart p (k + 1) = periodStart p 1 + periodStart p k := by
      rw [periodStart, periodStart, periodStart, ← Nat.add_mul, Nat.add_comm]
    rw [hstart]

end

/-- Three ticks a cycle, read from a counter of two bits, over windows of three cycles. -/
theorem value_counts_threes : (state ⟨3, 2, 4⟩ (fun _ => 3) 8).sampler.value.toNat = 9 := by
  have hcounts := value_counts ⟨3, 2, 4⟩ (fun _ => 3) (fun _ => by decide) (fun _ => by simp)
  exact hcounts.2.2.1 7 (by decide) (by decide)

end FrequencyMeasurement
end Hdmi2Usb
