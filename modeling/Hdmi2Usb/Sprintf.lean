import Mathlib.Algebra.Order.Ring.Int
import Mathlib.Data.List.Basic
/-!
# Sprintf — the text that `sprintf` makes of a format

The conversions are `d`, `u` and `s`, the first two also with one digit of a width that zeros fill.  A number's text is
no longer than its width or the digits of its bound, with a place more for a sign.
-/
namespace Hdmi2Usb
namespace Sprintf

inductive Arg
  | int (n : Int)
  | unsigned (n : Nat)
  | str (s : List Char)

def decimal (width n : Nat) : List Char := (Nat.toDigits 10 n).leftpad width '0'

/-- The zeros of a negative number are behind its sign. -/
def decimalInt (width : Nat) (n : Int) : List Char :=
  if n < 0 then '-' :: decimal (width - 1) n.natAbs else decimal width n.natAbs

/-- Every conversion takes the next argument, and what is no conversion stands for itself. -/
def sprintf : List Char → List Arg → List Char
  | '%' :: 'd' :: format, .int n :: args                  => decimalInt 0 n ++ sprintf format args
  | '%' :: 'u' :: format, .unsigned n :: args             => decimal 0 n ++ sprintf format args
  | '%' :: 's' :: format, .str s :: args                  => s ++ sprintf format args
  | '%' :: '0' :: w :: 'd' :: format, .int n :: args      => decimalInt (w.toNat - '0'.toNat) n ++ sprintf format args
  | '%' :: '0' :: w :: 'u' :: format, .unsigned n :: args => decimal (w.toNat - '0'.toNat) n ++ sprintf format args
  | c :: format, args                                     => c :: sprintf format args
  | [], _                                                 => []

theorem length_decimal (width n : Nat) : (decimal width n).length = max width (Nat.toDigits 10 n).length :=
  List.length_leftpad ..

theorem length_decimal_le {width n k : Nat} (hk : 0 < k) (hwidth : width ≤ k) (hn : n < 10 ^ k) :
    (decimal width n).length ≤ k := by
  rw [length_decimal, max_le_iff]
  exact ⟨hwidth, (Nat.length_toDigits_le_iff (by decide) hk).2 hn⟩

theorem length_decimalInt_le {width k : Nat} {n : Int} (hk : 0 < k) (hwidth : width ≤ k) (hn : n.natAbs < 10 ^ k) :
    (decimalInt width n).length ≤ k + 1 := by
  unfold decimalInt
  split
  · rw [List.length_cons]
    exact Nat.succ_le_succ (length_decimal_le hk (by omega) hn)
  · exact (length_decimal_le hk hwidth hn).trans (Nat.le_succ k)

/-- A number that needs no more digits than its width has exactly its width. -/
theorem length_decimalInt {width : Nat} {n : Int} (hwidth : 0 < width) (hn : 0 ≤ n) (hlt : n < 10 ^ width) :
    (decimalInt width n).length = width := by
  have hdigits : n.natAbs < 10 ^ width := by
    rw [← Int.natAbs_of_nonneg hn] at hlt
    exact_mod_cast hlt
  rw [decimalInt, if_neg (not_lt.2 hn), length_decimal,
    max_eq_left ((Nat.length_toDigits_le_iff (by decide) hwidth).2 hdigits)]

example : sprintf "%02d:%d %u.%02u%s".toList [.int 7, .int (-15), .unsigned 60, .unsigned 5, .str "Hz".toList] =
    "07:-15 60.05Hz".toList := by decide

end Sprintf
end Hdmi2Usb
