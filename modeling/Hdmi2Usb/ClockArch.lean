import Hdmi2Usb.Framebuffer
import Mathlib.Algebra.Order.Ring.Int
import Mathlib.Tactic.Ring
/-!
# ClockArch — the clock of the network stack (`clock-arch.c`, `timer.c`)

`clock_time` divides what the hardware's timer has counted down by the cycles of a tick.  The timer has 32 bits and the
quotient does not, so the clock starts again at 0 with every reload: a difference of two readings is the ticks between
them exactly when no reload lies between, or as many as bring the clock back (`measures_iff`).
-/
namespace Hdmi2Usb
namespace ClockArch

def clockConfSecond : Nat := 128

/-- What a build has compiled in. -/
structure Config where
  clockFrequency : Word
  tick_pos       : clockConfSecond ≤ clockFrequency.toNat

/-- The registers of `timer0`. -/
structure Timer0 where
  en     : Bool
  load   : Word
  reload : Word

def clockInit (t : Timer0) : Timer0 :=
  let t := { t with en := false }
  let t := { t with load := 0xffffffff }
  let t := { t with reload := 0xffffffff }
  { t with en := true }

/-- The counter of a timer with these registers, cycle by cycle from when they were set. -/
structure CountsDown (t : Timer0) (value : Nat → Word) : Prop where
  first : value 0 = t.load
  next  : ∀ n, value (n + 1) =
    if t.en = false then t.load else if value n = 0 then t.reload else value n - 1

section

variable (c : Config) (value : Nat → Word)

def prescaler : Word := c.clockFrequency / BitVec.ofNat 32 clockConfSecond

/-- A call in cycle `n`. -/
def clockTime (n : Nat) : Word := (0xffffffff - value n) / prescaler c

/-- The tick periods in so many cycles. -/
def ticks (cycles : Nat) : Nat := cycles / (c.clockFrequency.toNat / clockConfSecond)

/-- The difference of two readings is the ticks between them, to within one. -/
def Measures (n m : Nat) : Prop :=
  let error := clockTime c value m - clockTime c value n - BitVec.ofNat 32 (ticks c (m - n))
  error = 0 ∨ error = 1 ∨ error = -1

end

/-! ## A timer of the stack -/

structure Timer where
  start    : Word
  interval : Word

def timerSet (now interval : Word) : Timer := ⟨now, interval⟩

def timerExpired (t : Timer) (now : Word) : Bool := t.interval < now - t.start + 1

/-! ## What a reading is -/

section

variable {c : Config} {t : Timer0} {value : Nat → Word}

/-- The reload goes on where the subtraction would. -/
theorem value_eq (h : CountsDown (clockInit t) value) (n : Nat) : value n = 0xffffffff - BitVec.ofNat 32 n := by
  induction n with
  | zero => exact h.first
  | succ n ih =>
    have hnext : value (n + 1) = value n - 1 := by
      have hstep := h.next n
      have hen : (clockInit t).en = true := rfl
      rw [hen, if_neg (by decide)] at hstep
      rw [hstep]
      split
      next hzero =>
        rw [hzero]
        rfl
      next => rfl
    rw [hnext, ih, BitVec.ofNat_add]
    simp only [BitVec.sub_sub]
    rfl

theorem toNat_prescaler (c : Config) : (prescaler c).toNat = c.clockFrequency.toNat / 128 := by
  rw [prescaler, BitVec.toNat_udiv]
  rfl

theorem toNat_clockTime (h : CountsDown (clockInit t) value) (n : Nat) :
    (clockTime c value n).toNat = n % 2 ^ 32 / (prescaler c).toNat := by
  have hcount : 0xffffffff - value n = BitVec.ofNat 32 n := by
    rw [value_eq h n]
    simp
  rw [clockTime, hcount, BitVec.toNat_udiv, BitVec.toNat_ofNat]

theorem prescaler_bounds (c : Config) : 0 < (prescaler c).toNat ∧ (prescaler c).toNat * 128 < 2 ^ 32 := by
  have hpos := c.tick_pos
  have hlt := c.clockFrequency.isLt
  rw [toNat_prescaler]
  simp only [clockConfSecond] at hpos
  omega

/-! ## The error of a difference -/

/-- A sum's quotient is its parts' but for what the remainders carry, and what is taken off the sum. -/
theorem quotient_error {p e e' d r : ℤ} (hp : 0 < p) (hsum : e' + r = e + d) :
    -p < (e' / p - e / p - d / p) * p + r ∧ (e' / p - e / p - d / p) * p + r < 2 * p := by
  have he := Int.emod_add_mul_ediv e p
  have he' := Int.emod_add_mul_ediv e' p
  have hd := Int.emod_add_mul_ediv d p
  have hexpand : (e' / p - e / p - d / p) * p = p * (e' / p) - p * (e / p) - p * (d / p) := by ring
  have hlt := Int.emod_lt_of_pos e hp
  have hlt' := Int.emod_lt_of_pos e' hp
  have hltd := Int.emod_lt_of_pos d hp
  have hnonneg := Int.emod_nonneg e hp.ne'
  have hnonneg' := Int.emod_nonneg e' hp.ne'
  have hnonnegd := Int.emod_nonneg d hp.ne'
  omega

/-- Which errors are at most one tick, after `r` reloads: without any, and when there are as many as the cycles of a
tick, which bring the clock back to where it was. -/
theorem error_iff {p r δ : ℤ} (hp : 0 < p) (hle : p * 128 ≤ 2 ^ 32) (hr : 0 ≤ r ∧ r ≤ p)
    (hlo : -p < δ * p + r * 2 ^ 32) (hhi : δ * p + r * 2 ^ 32 < 2 * p) :
    (δ % 2 ^ 32 = 0 ∨ δ % 2 ^ 32 = 1 ∨ δ % 2 ^ 32 = 2 ^ 32 - 1) ↔ r = 0 ∨ r = p := by
  have hcancel : ∀ {a b : ℤ}, a * p < b * p → a < b := fun hlt => lt_of_mul_lt_mul_right hlt hp.le
  by_cases hzero : r = 0
  · have h1 : -1 < δ := hcancel (by omega)
    have h2 : δ < 2 := hcancel (by omega)
    omega
  · by_cases hall : r = p
    · have h1 : -2 ^ 32 - 1 < δ := hcancel (by rw [sub_mul]; omega)
      have h2 : δ < 2 - 2 ^ 32 := hcancel (by rw [sub_mul]; omega)
      omega
    · have h1 : -2 ^ 32 + 127 < δ := hcancel (by rw [add_mul]; omega)
      have h2 : δ < -126 := hcancel (by omega)
      omega

/-- The error of two readings as an integer, by the cycles and the cycles of a tick. -/
def readError (p n m : Nat) : ℤ := (m % 2 ^ 32 / p : Nat) - (n % 2 ^ 32 / p : Nat) - ((m - n) / p : Nat)

theorem toNat_sub_sub (x y : Word) (q : Nat) :
    ((x - y - BitVec.ofNat 32 q).toNat : ℤ) = ((x.toNat : ℤ) - y.toNat - q) % 2 ^ 32 := by
  have hx := x.isLt
  have hy := y.isLt
  rw [BitVec.toNat_sub, BitVec.toNat_sub, BitVec.toNat_ofNat]
  omega

theorem measures_iff_readError (h : CountsDown (clockInit t) value) (n m : Nat) :
    Measures c value n m ↔
      let δ := readError (prescaler c).toNat n m
      δ % 2 ^ 32 = 0 ∨ δ % 2 ^ 32 = 1 ∨ δ % 2 ^ 32 = 2 ^ 32 - 1 := by
  have hticks : ticks c (m - n) = (m - n) / (prescaler c).toNat := by rw [toNat_prescaler]; rfl
  have herror := toNat_sub_sub (clockTime c value m) (clockTime c value n) (ticks c (m - n))
  rw [toNat_clockTime h, toNat_clockTime h, hticks] at herror
  simp only [Measures, hticks, readError, ← herror, ← BitVec.toNat_inj]
  refine or_congr ?_ (or_congr ?_ ?_)
  · exact Int.natCast_eq_zero.symm
  · have hone : (1 : Word).toNat = 1 := rfl
    rw [hone]
    omega
  · have hneg : (-1 : Word).toNat = 2 ^ 32 - 1 := rfl
    rw [hneg]
    omega

/-- **A difference of two readings is right exactly when no reload lies between the calls**, or as many as a tick has
cycles. -/
theorem measures_iff (c : Config) (t : Timer0) (value : Nat → Word) (h : CountsDown (clockInit t) value) {n m : Nat}
    (hle : n ≤ m) (hticks : ticks c (m - n) < 2 ^ 32) :
    Measures c value n m ↔
      m / 2 ^ 32 = n / 2 ^ 32 ∨ m / 2 ^ 32 = n / 2 ^ 32 + c.clockFrequency.toNat / clockConfSecond := by
  obtain ⟨hpos, hbound⟩ := prescaler_bounds c
  have hp : c.clockFrequency.toNat / clockConfSecond = (prescaler c).toNat := (toNat_prescaler c).symm
  rw [ticks, hp] at hticks
  rw [measures_iff_readError h, hp]
  generalize (prescaler c).toNat = p at hpos hbound hticks
  -- the cycles of both calls, without the reloads before them
  have hsum : (m % 2 ^ 32 : ℤ) + ((m / 2 ^ 32 : Nat) - (n / 2 ^ 32 : Nat) : ℤ) * 2 ^ 32 =
      (n % 2 ^ 32 : ℤ) + (m - n : Nat) := by
    omega
  have hcast : readError p n m = (m % 2 ^ 32 : ℤ) / p - (n % 2 ^ 32 : ℤ) / p - ((m - n : Nat) : ℤ) / p := by
    simp [readError]
  obtain ⟨hlo, hhi⟩ := quotient_error (p := p) (by omega) hsum
  rw [← hcast] at hlo hhi
  have hreloads : m / 2 ^ 32 ≤ n / 2 ^ 32 + p := by
    have hcycles : m - n < 2 ^ 32 * p := (Nat.div_lt_iff_lt_mul hpos).1 hticks
    omega
  have hmono : n / 2 ^ 32 ≤ m / 2 ^ 32 := Nat.div_le_div_right hle
  rw [error_iff (by omega) (by omega) (by omega) hlo hhi]
  omega

end

/-- A clock of 50 MHz. -/
def config50 : Config := ⟨50000000, by decide⟩

/-- The counter that `clock_init` starts. -/
def counter (n : Nat) : Word := 0xffffffff - BitVec.ofNat 32 n

theorem countsDown_counter (t : Timer0) : CountsDown (clockInit t) counter where
  first := rfl
  next n := by
    have hnext : counter (n + 1) = counter n - 1 := by
      rw [counter, counter, BitVec.ofNat_add]
      simp only [BitVec.sub_sub]
      rfl
    have hen : (clockInit t).en = true := rfl
    rw [hen, if_neg (by decide), hnext]
    split
    next hzero =>
      rw [hzero]
      rfl
    next => rfl

/-- Two readings a second apart, soon after the start. -/
theorem measures_config50 : Measures config50 counter 1000 50001000 :=
  (measures_iff config50 ⟨false, 0, 0⟩ counter (countsDown_counter _) (by decide) (by decide)).2 (.inl (by decide))

/-- One cycle apart, on either side of the first reload: the difference is not what has passed, and a timer that was set
for a second has expired. -/
theorem not_measures_reload :
    CountsDown (clockInit ⟨false, 0, 0⟩) counter ∧ ticks config50 (2 ^ 32 - (2 ^ 32 - 1)) < 2 ^ 32 ∧
      ¬ Measures config50 counter (2 ^ 32 - 1) (2 ^ 32) ∧
        timerExpired (timerSet (clockTime config50 counter (2 ^ 32 - 1)) 128) (clockTime config50 counter (2 ^ 32)) :=
  ⟨countsDown_counter _, by decide, by unfold Measures; decide, by decide⟩

end ClockArch
end Hdmi2Usb
