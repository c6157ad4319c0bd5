import Hdmi2Usb.Modeline
import Mathlib.Algebra.Order.Floor.Semifield
import Mathlib.Data.Rat.Floor
import Mathlib.Tactic.FieldSimp
/-!
# DotClock — the dot clock of a modeline

A dot clock is a decimal number of MHz, and `video_mode_custom` should store it in tens of kHz.  It reads what is behind
the point as a number of its own and adds it to a hundred times what is before: that is right for two decimals, and for
any other number of them only if they are all zero.
-/
namespace Hdmi2Usb
namespace Console

open Processor

variable {p : Platform} {env : Env}

/-! ## Decimal numbers -/

def digitChar (d : Fin 10) : Char := Char.ofNat ('0'.toNat + d)

def numeral (ds : List (Fin 10)) : List Char := ds.map digitChar

/-- The number some digits stand for. -/
def numeralValue (ds : List (Fin 10)) : Nat := ds.foldl (fun n d => 10 * n + d.val) 0

/-- A decimal number as it is written: its integer part, and what is behind the point if it has one. -/
structure Decimal where
  int    : List (Fin 10)
  frac   : Option (List (Fin 10))
  int_ne : int ≠ []

namespace Decimal

def text (d : Decimal) : List Char :=
  numeral d.int ++ match d.frac with
    | none   => []
    | some f => '.' :: numeral f

def decimals (d : Decimal) : List (Fin 10) := d.frac.getD []

def value (d : Decimal) : ℚ := numeralValue d.int + numeralValue d.decimals / 10 ^ d.decimals.length

/-- A number of MHz in tens of kHz, rounded down. -/
def tensOfKhz (d : Decimal) : Nat := ⌊100 * d.value⌋₊

/-- The decimals are two, or all zero. -/
def Hundredths (d : Decimal) : Prop := d.decimals.length = 2 ∨ ∀ x ∈ d.decimals, x = 0

end Decimal

theorem isDigit_digitChar : ∀ d : Fin 10, (digitChar d).isDigit = true := by decide

theorem toNat_digitChar : ∀ d : Fin 10, (digitChar d).toNat - '0'.toNat = d := by decide

theorem plain_digitChar : ∀ d : Fin 10, isSpace (digitChar d) = false ∧ digitChar d ≠ '-' ∧ digitChar d ≠ '+' ∧
    digitChar d ≠ '.' ∧ digitChar d ≠ ' ' := by decide

theorem not_mem_numeral {c : Char} (hc : ∀ d : Fin 10, digitChar d ≠ c) (ds : List (Fin 10)) : c ∉ numeral ds := by
  intro h
  obtain ⟨d, -, hd⟩ := List.mem_map.1 h
  exact hc d hd

theorem digits_numeral (ds : List (Fin 10)) : digits (numeral ds) = numeralValue ds := by
  have hall : (numeral ds).takeWhile Char.isDigit = numeral ds := by
    rw [List.takeWhile_eq_self_iff]
    intro c hc
    obtain ⟨d, -, rfl⟩ := List.mem_map.1 hc
    exact isDigit_digitChar d
  unfold digits numeralValue
  rw [hall, numeral, List.foldl_map]
  simp only [toNat_digitChar]

theorem atoi_numeral (ds : List (Fin 10)) : atoi (numeral ds) = min (2 ^ 31 - 1) (numeralValue ds : Int) := by
  rw [← digits_numeral]
  cases ds with
  | nil => rfl
  | cons d ds =>
    obtain ⟨hspace, hminus, hplus, -, -⟩ := plain_digitChar d
    have hdrop : (numeral (d :: ds)).dropWhile isSpace = numeral (d :: ds) := by
      rw [numeral, List.map_cons, List.dropWhile_cons, hspace]
      rfl
    unfold atoi
    rw [hdrop]
    split
    · rename_i h
      exact absurd (List.cons.inj h).1 hminus
    · rename_i h
      exact absurd (List.cons.inj h).1 hplus
    · rfl

theorem foldl_numeralValue (ds : List (Fin 10)) (n : Nat) :
    ds.foldl (fun n d => 10 * n + d.val) n = n * 10 ^ ds.length + numeralValue ds := by
  unfold numeralValue
  induction ds generalizing n with
  | nil => simp
  | cons d ds ih =>
    rw [List.foldl_cons, List.foldl_cons, ih, ih (10 * 0 + d), List.length_cons]
    ring

theorem numeralValue_cons (d : Fin 10) (ds : List (Fin 10)) :
    numeralValue (d :: ds) = d * 10 ^ ds.length + numeralValue ds := by
  have h := foldl_numeralValue ds d
  unfold numeralValue at h ⊢
  rw [List.foldl_cons, Nat.mul_zero, Nat.zero_add]
  exact h

theorem numeralValue_lt : ∀ ds : List (Fin 10), numeralValue ds < 10 ^ ds.length
  | [] => by decide
  | d :: ds => by
    rw [numeralValue_cons, List.length_cons]
    calc d * 10 ^ ds.length + numeralValue ds < d * 10 ^ ds.length + 10 ^ ds.length := by
          have := numeralValue_lt ds
          omega
      _ = (d + 1) * 10 ^ ds.length := by ring
      _ ≤ 10 * 10 ^ ds.length := Nat.mul_le_mul_right _ d.isLt
      _ = 10 ^ (ds.length + 1) := by ring

theorem numeralValue_eq_zero : ∀ ds : List (Fin 10), numeralValue ds = 0 ↔ ∀ x ∈ ds, x = 0
  | [] => by simp [numeralValue]
  | d :: ds => by
    have hpow : 10 ^ ds.length ≠ 0 := by positivity
    rw [numeralValue_cons, Nat.add_eq_zero_iff, numeralValue_eq_zero ds, List.forall_mem_cons, Nat.mul_eq_zero,
      or_iff_left hpow, Fin.val_eq_zero_iff]

/-! ## What is stored -/

theorem getTokenGeneric_text (d : Decimal) : getTokenGeneric d.text '.' = (numeral d.int, numeral d.decimals) := by
  have hnot := not_mem_numeral (fun x => (plain_digitChar x).2.2.2.1) d.int
  unfold Decimal.text Decimal.decimals
  cases d.frac with
  | none =>
    rw [List.append_nil, getTokenGeneric, if_neg hnot]
    rfl
  | some f =>
    have hmem : '.' ∈ numeral d.int ++ '.' :: numeral f := by simp
    have hall : ∀ c ∈ numeral d.int, decide (c ≠ '.') = true := by
      intro c hc
      rw [decide_eq_true_eq]
      rintro rfl
      exact hnot hc
    rw [getTokenGeneric, if_pos hmem, List.takeWhile_append_of_pos hall, List.dropWhile_append_of_pos hall]
    simp

theorem getToken_numeral (ds : List (Fin 10)) : (getToken (numeral ds)).1 = numeral ds := by
  have hnot := not_mem_numeral (fun x => (plain_digitChar x).2.2.2.2) ds
  rw [getToken_fst, words_of_not_mem hnot]
  by_cases h : numeral ds = []
  · rw [if_pos h, h]
    rfl
  · rw [if_neg h]
    rfl

theorem parseDotClock_text (d : Decimal) : parseDotClock d.text =
    BitVec.ofInt 32 (min (2 ^ 31 - 1) (numeralValue d.int)) * 100 +
      BitVec.ofInt 32 (min (2 ^ 31 - 1) (numeralValue d.decimals)) := by
  unfold parseDotClock
  rw [getTokenGeneric_text]
  simp only [getToken_numeral, atoi_numeral]

theorem tensOfKhz_eq (d : Decimal) : d.tensOfKhz =
    100 * numeralValue d.int + 100 * numeralValue d.decimals / 10 ^ d.decimals.length := by
  have hpow : 0 < 10 ^ d.decimals.length := by positivity
  have hvalue : 100 * d.value =
      ((100 * numeralValue d.int * 10 ^ d.decimals.length + 100 * numeralValue d.decimals : ℕ) : ℚ) /
        (10 ^ d.decimals.length : ℕ) := by
    unfold Decimal.value
    push_cast
    field_simp
  unfold Decimal.tensOfKhz
  rw [hvalue, Nat.floor_div_eq_div, Nat.add_comm, Nat.add_mul_div_right _ _ hpow, Nat.add_comm]

/-- Decimals read as a number are the hundredths they stand for only if they are two, or zero. -/
theorem decimals_eq_iff (d : Decimal) : min (2 ^ 31 - 1) (numeralValue d.decimals) =
    100 * numeralValue d.decimals / 10 ^ d.decimals.length ↔ d.Hundredths := by
  have hlt := numeralValue_lt d.decimals
  unfold Decimal.Hundredths
  rw [← numeralValue_eq_zero]
  generalize numeralValue d.decimals = n at hlt ⊢
  generalize d.decimals.length = k at hlt ⊢
  obtain rfl | rfl | rfl | ⟨j, rfl⟩ : k = 0 ∨ k = 1 ∨ k = 2 ∨ ∃ j, k = j + 3 := by
    obtain _ | _ | _ | j := k
    · exact .inl rfl
    · exact .inr (.inl rfl)
    · exact .inr (.inr (.inl rfl))
    · exact .inr (.inr (.inr ⟨j, rfl⟩))
  · omega
  · omega
  · omega
  · -- three decimals or more: the number read is more than a tenth of itself
    have hpow : 10 ^ (j + 3) = 100 * (10 * 10 ^ j) := by ring
    have hone : 0 < 10 ^ j := by positivity
    have hq : 100 * n / 10 ^ (j + 3) = n / 10 ^ j / 10 := by
      rw [hpow, Nat.mul_div_mul_left _ _ (by omega), Nat.mul_comm, Nat.div_div_eq_div_mul]
    have hle : n / 10 ^ j ≤ n := Nat.div_le_self _ _
    have hsmall : n / 10 ^ j < 1000 := by
      rw [Nat.div_lt_iff_lt_mul hone]
      omega
    rw [hq]
    generalize n / 10 ^ j = a at hle hsmall ⊢
    omega

/-- A modeline's dot clock is stored as its value in tens of kHz. -/
def Exact (p : Platform) (env : Env) (d : Decimal) (str : List Char) (s : State) : Prop :=
  (videoModeCustom p env str s).customMode.pixelClock.toNat = d.tensOfKhz

theorem pixelClock_timing (m : Modeline) (old : VideoTiming) : (m.timing old).pixelClock = m.dotClock := rfl

theorem dotClock_parseModeline (str : List Char) : (parseModeline str).dotClock = parseDotClock (getToken str).1 := by
  unfold parseModeline
  rw [show getToken str = ((getToken str).1, (getToken str).2) from rfl]

theorem pixelClock_videoModeCustom (str : List Char) (s : State) :
    (videoModeCustom p env str s).customMode.pixelClock = parseDotClock ((words str).headD []) := by
  rw [customMode_videoModeCustom, pixelClock_timing, dotClock_parseModeline, getToken_fst]

/-- **The dot clock is read exactly when** it has two decimals, or none but zeros. -/
theorem exact_iff (p : Platform) (env : Env) (d : Decimal) (str : List Char) (s : State)
    (hword : (words str).headD [] = d.text) (hfits : d.tensOfKhz < 2 ^ 32) : Exact p env d str s ↔ d.Hundredths := by
  unfold Exact
  rw [pixelClock_videoModeCustom, hword, parseDotClock_text, ← decimals_eq_iff]
  have hlt : 100 * numeralValue d.decimals / 10 ^ d.decimals.length < 100 := by
    rw [Nat.div_lt_iff_lt_mul (by positivity)]
    have := numeralValue_lt d.decimals
    omega
  rw [tensOfKhz_eq] at hfits ⊢
  generalize 100 * numeralValue d.decimals / 10 ^ d.decimals.length = q at hfits hlt ⊢
  generalize numeralValue d.int = i at hfits ⊢
  generalize numeralValue d.decimals = n
  have hi : min (2 ^ 31 - 1) (i : Int) = i := by omega
  have hn : min (2 ^ 31 - 1) (n : Int) = (min (2 ^ 31 - 1) n : Nat) := by omega
  rw [hi, hn, BitVec.ofInt_natCast, BitVec.ofInt_natCast]
  have hvalue : (BitVec.ofNat 32 i * 100 + BitVec.ofNat 32 (min (2 ^ 31 - 1) n)).toNat =
      (100 * i + min (2 ^ 31 - 1) n) % 2 ^ 32 := by
    rw [BitVec.toNat_add, BitVec.toNat_mul, BitVec.toNat_ofNat, BitVec.toNat_ofNat]
    simp only [Nat.mod_mul_mod, Nat.mod_add_mod, Nat.add_mod_mod, BitVec.reduceToNat, Nat.mul_comm]
  rw [hvalue]
  omega

/-- 74.25 MHz. -/
def dot74_25 : Decimal := ⟨[7, 4], some [2, 5], by decide⟩

/-- 31.5 MHz. -/
def dot31_5 : Decimal := ⟨[3, 1], some [5], by decide⟩

theorem exact_iff_74_25 : (words "74.25 1280 1390 1430 1650 720 725 730 750".toList).headD [] = dot74_25.text ∧
    dot74_25.tensOfKhz < 2 ^ 32 ∧
    (Exact opsis default dot74_25 "74.25 1280 1390 1430 1650 720 725 730 750".toList default ↔ dot74_25.Hundredths) := by
  have hword : (words "74.25 1280 1390 1430 1650 720 725 730 750".toList).headD [] = dot74_25.text := by decide
  have hfits : dot74_25.tensOfKhz < 2 ^ 32 := by
    rw [tensOfKhz_eq]
    decide
  exact ⟨hword, hfits, exact_iff opsis default dot74_25 _ default hword hfits⟩

/-- 31.5 is stored as 31.05. -/
theorem not_exact_31_5 : ¬ Exact opsis default dot31_5 "31.5 640 664 704 832 480 489 492 520".toList default := by
  intro h
  unfold Exact at h
  rw [pixelClock_videoModeCustom, tensOfKhz_eq] at h
  have hstored : (parseDotClock ((words "31.5 640 664 704 832 480 489 492 520".toList).headD [])).toNat = 3105 := by
    decide
  rw [hstored] at h
  exact absurd h (by decide)

end Console
end Hdmi2Usb
