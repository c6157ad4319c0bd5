import Mathlib.Data.List.Basic
/-!
# SampledWire — a line behind a synchroniser, sampled once a period

Two stages follow the line, a cycle behind each other; once a period the second one is sampled, and the sample of the
cycle before is kept, to see the edges.  `Fresh` is the time after the line has changed: the change is sampled a period
and a half later at most (`Fresh.steady`).  `Stays` and `Rises` say what the samples of a second line show while the
sampled clock is high, for one that holds its level and for one that can only rise.
-/
namespace Hdmi2Usb
namespace SampledWire

structure Wire where
  s1 : Bool
  s2 : Bool
  i  : Bool
  /-- `i` a cycle ago. -/
  r  : Bool
deriving DecidableEq, Repr

def Wire.step (carry line : Bool) (w : Wire) : Wire := ⟨line, w.s1, if carry then w.s2 else w.i, w.i⟩

def Wire.rising (w : Wire) : Bool := w.i && !w.r
def Wire.falling (w : Wire) : Bool := !w.i && w.r

def steady (level : Bool) : Wire := ⟨level, level, level, level⟩

/-- The line has been at the level for `age` cycles, and was steady at the other before; the next sample is taken after
`left` cycles. -/
structure Fresh (period left age : Nat) (level : Bool) (w : Wire) : Prop where
  s1     : w.s1 = level ↔ 1 ≤ age
  s2     : w.s2 = level ↔ 2 ≤ age
  seen   : w.i = level → 3 ≤ age
  unseen : w.i ≠ level → age + left ≤ period + 1
  before : w.i ≠ level → w.r ≠ level
  edge   : w.i = level → w.r ≠ level → age ≤ period + 2

variable {period left age : Nat} {level carry line : Bool} {w clk : Wire}

@[simp] theorem steady_step (carry level : Bool) : (steady level).step carry level = steady level := by
  cases carry <;> rfl

theorem fresh_change (h : left < period) : Fresh period left 0 level (steady !level) := by
  constructor <;> simp [steady]
  omega

theorem fresh_steady (period left : Nat) (level : Bool) (h : 3 ≤ age) : Fresh period left age level (steady level) := by
  constructor <;> simp [steady] <;> omega

/-- A period and three cycles after the change everything shows it. -/
theorem Fresh.steady (h : Fresh period left age level w) (hage : period + 3 ≤ age) : w = steady level := by
  have hi : w.i = level := by
    by_contra hne
    have := h.unseen hne
    omega
  have hr : w.r = level := by
    by_contra hne
    have := h.edge hi hne
    omega
  have h1 := h.s1.2 (by omega)
  have h2 := h.s2.2 (by omega)
  rcases w with ⟨s1, s2, i, r⟩
  simp_all [SampledWire.steady]

theorem Fresh.le (h : Fresh period left age level w) (hw : w.i ≠ level ∨ w.r ≠ level) : age ≤ period + 2 := by
  by_cases hi : w.i = level
  · exact h.edge hi (hw.resolve_left (not_not_intro hi))
  · have := h.unseen hi
    omega

/-- What is seen stays seen. -/
theorem Fresh.step_seen (h : Fresh period left age level w) (hi : w.i = level) (carry line : Bool) :
    (w.step carry line).i = level := by
  cases carry
  · exact hi
  · exact h.s2.2 (by have := h.seen hi; omega)

theorem Fresh.step (h : Fresh period left age level w) (hperiod : 0 < period) (hcarry : carry = true ↔ left = 0) :
    Fresh period (if left = 0 then period - 1 else left - 1) (age + 1) level (w.step carry level) := by
  have hseen : w.i = level → w.s2 = level := fun hi => h.s2.2 (by have := h.seen hi; omega)
  cases carry with
  | true =>
    have hleft : left = 0 := hcarry.1 rfl
    constructor
    · simp [Wire.step]
    · simp only [Wire.step, h.s1]
      omega
    · intro hi
      have := h.s2.1 hi
      omega
    · intro hi
      have hage : ¬ 2 ≤ age := fun hage => hi (h.s2.2 hage)
      rw [if_pos hleft]
      omega
    · intro hi hr
      exact hi (hseen hr)
    · intro hi hr
      have := h.unseen hr
      omega
  | false =>
    have hleft : left ≠ 0 := fun h0 => Bool.false_ne_true (hcarry.2 h0)
    rw [if_neg hleft]
    constructor
    · simp [Wire.step]
    · simp only [Wire.step, h.s1]
      omega
    · intro hi
      have := h.seen hi
      omega
    · intro hi
      have := h.unseen hi
      omega
    · intro hi
      exact hi
    · intro hi hr
      exact absurd hi hr

/-- A change that is not seen after a cycle was not seen before it. -/
theorem Fresh.step_unseen (h : Fresh period left age level w) (hi : (w.step carry level).i ≠ level) : w.i ≠ level := by
  intro hseen
  exact hi (h.step_seen hseen carry level)

/-! ## A second line -/

/-- The line has held its level for the `age` cycles that the clock has been high. -/
structure Stays (age : Nat) (level : Bool) (clk w : Wire) : Prop where
  s1 : 1 ≤ age → w.s1 = level
  s2 : 2 ≤ age → w.s2 = level
  i  : clk.i = true → w.i = level
  r  : clk.i = true → clk.r = true → w.r = level

/-- The line, now at `line`, has not fallen in the `age` cycles that the clock has been high. -/
structure Rises (age : Nat) (line : Bool) (clk w : Wire) : Prop where
  s1 : 1 ≤ age → w.s1 = true → line = true
  s2 : 2 ≤ age → w.s2 = true → w.s1 = true
  i  : clk.i = true → w.i = true → w.s2 = true
  r  : clk.i = true → clk.r = true → w.r = true → w.i = true

theorem stays_zero (level : Bool) (hi : clk.i = false) (w : Wire) : Stays 0 level clk w := by
  constructor <;> simp [hi]

theorem rises_zero (line : Bool) (hi : clk.i = false) (w : Wire) : Rises 0 line clk w := by
  constructor <;> simp [hi]

theorem Stays.step (h : Stays age level clk w) (hs2 : clk.s2 = true → 2 ≤ age) (carry line : Bool) :
    Stays (age + 1) level (clk.step carry line) (w.step carry level) := by
  constructor
  · intro _
    rfl
  · intro hage
    exact h.s1 (by omega)
  · intro hi
    cases carry
    · exact h.i hi
    · exact h.s2 (hs2 hi)
  · intro _ hr
    exact h.i hr

theorem Rises.step (h : Rises age line clk w) (hs2 : clk.s2 = true → 2 ≤ age) (hi : clk.i = true → 2 ≤ age)
    {line' : Bool} (hline : line = true → line' = true) (carry sclLine : Bool) :
    Rises (age + 1) line' (clk.step carry sclLine) (w.step carry line) := by
  constructor
  · intro _
    exact hline
  · intro hage
    exact h.s1 (by omega)
  · intro hclk hw
    cases carry
    · exact h.s2 (hi hclk) (h.i hclk hw)
    · exact h.s2 (hs2 hclk) hw
  · intro hclk hr hw
    have h2 := h.i hr hw
    cases carry
    · exact hw
    · exact h2

theorem Rises.mono (h : Rises age line clk w) {age' : Nat} (hage : age' ≤ age) : Rises age' line clk w where
  s1 h1 := h.s1 (Nat.le_trans h1 hage)
  s2 h2 := h.s2 (Nat.le_trans h2 hage)
  i     := h.i
  r     := h.r

/-- No fall is seen with the clock high. -/
theorem Rises.not_falling (h : Rises age line clk w) (hi : clk.i = true) (hr : clk.r = true) : w.falling = false := by
  have hw := h.r hi hr
  cases hwi : w.i <;> cases hwr : w.r <;> simp_all [Wire.falling]

/-- Where the clock is steady high, so is the line. -/
theorem Stays.steady (h : Stays age level (SampledWire.steady true) w) (hage : 2 ≤ age) :
    w = SampledWire.steady level := by
  have h1 := h.s1 (by omega)
  have h2 := h.s2 hage
  have hi := h.i rfl
  have hr := h.r rfl rfl
  rcases w with ⟨s1, s2, i, r⟩
  simp_all [SampledWire.steady]

end SampledWire
end Hdmi2Usb
