import Hdmi2Usb.ModeIndexes
import Mathlib.Data.List.GetD
/-!
# CustomMode — what a modeline does to the pipeline

The numbers of a modeline are the words of the line (`parseModeline_fields`), and a word that is not there counts as
zero, so a line that is too short always fails the check of the ranges.  But the check only prints:
every line starts the custom mode, and what it divides by is whatever the line says.
-/
namespace Hdmi2Usb
namespace Console

open Processor

variable {p : Platform} {env : Env}

/-! ## The fields of a line -/

def field (str : List Char) (i : Nat) : Word := BitVec.ofInt 32 (atoi ((words str).getD i []))

theorem nextNumber_eq (str : List Char) : nextNumber str = (field str 0, (getToken str).2) := by
  have hword : (getToken str).1 = (words str).getD 0 [] := by
    rw [getToken_fst]
    cases words str <;> rfl
  unfold field
  rw [← hword]
  rfl

theorem field_getToken (str : List Char) (i : Nat) : field (getToken str).2 i = field str (i + 1) := by
  unfold field
  rw [words_getToken_snd]
  cases words str <;> rfl

/-- The numbers of a modeline are the second to the ninth word of the line. -/
theorem parseModeline_fields (str : List Char) :
    (parseModeline str).width = field str 1 ∧ (parseModeline str).hSyncStart = field str 2 ∧
      (parseModeline str).hSyncEnd = field str 3 ∧ (parseModeline str).hTotal = field str 4 ∧
      (parseModeline str).height = field str 5 ∧ (parseModeline str).vSyncStart = field str 6 ∧
      (parseModeline str).vSyncEnd = field str 7 ∧ (parseModeline str).vTotal = field str 8 := by
  unfold parseModeline
  rw [show getToken str = ((getToken str).1, (getToken str).2) from rfl]
  simp only [nextNumber_eq, field_getToken, and_self]

theorem field_eq_zero {str : List Char} {i : Nat} (h : (words str).length ≤ i) : field str i = 0 := by
  unfold field
  rw [List.getD_eq_default _ _ h]
  rfl

/-! ## Malformed lines -/

def numeric (w : List Char) : Bool :=
  match w.dropWhile isSpace with
  | '-' :: cs => cs.head?.any Char.isDigit
  | '+' :: cs => cs.head?.any Char.isDigit
  | cs        => cs.head?.any Char.isDigit

def Complete (str : List Char) : Prop := 9 ≤ (words str).length ∧ ∀ w ∈ (words str).take 9, numeric w = true

def Modeline.Ordered (m : Modeline) : Prop :=
  (m.width < m.hSyncStart ∧ m.hSyncStart < m.hSyncEnd ∧ m.hSyncEnd < m.hTotal) ∧
    (m.height < m.vSyncStart ∧ m.vSyncStart < m.vSyncEnd ∧ m.vSyncEnd < m.vTotal)

end Console
end Hdmi2Usb
