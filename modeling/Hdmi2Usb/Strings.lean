import Hdmi2Usb.Memory
import Mathlib.Logic.Function.Basic
/-!
# Strings — strings with a terminator

A string is the cells from an address up to the first terminator.  `strlen` and `strchr` look at one cell a turn, and
give nothing back where the scan has not ended after `fuel` turns.  Storing a terminator over a cell of a string makes
two strings of it.
-/
namespace Hdmi2Usb
namespace Strings

open Memory (window window_add window_succ window_congr length_window)

variable {β : Type*} {nul : β} {m m' : Nat → β} {p : Nat} {s t : List β} {c : β}

/-- The string at an address. -/
structure IsString (nul : β) (m : Nat → β) (p : Nat) (s : List β) : Prop where
  cells : window m p s.length = s
  ends  : m (p + s.length) = nul
  text  : nul ∉ s

theorem isString_nil : IsString nul m p [] ↔ m p = nul :=
  ⟨fun h => h.ends, fun h => ⟨rfl, h, List.not_mem_nil⟩⟩

theorem isString_cons : IsString nul m p (c :: s) ↔ m p = c ∧ c ≠ nul ∧ IsString nul m (p + 1) s := by
  constructor
  · rintro ⟨hcells, hends, htext⟩
    rw [List.length_cons, window_succ, List.cons.injEq] at hcells
    rw [List.mem_cons, not_or] at htext
    refine ⟨hcells.1, fun h => htext.1 h.symm, hcells.2, ?_, htext.2⟩
    rw [← hends, List.length_cons, Nat.add_assoc, Nat.add_comm 1]
  · rintro ⟨rfl, hc, hcells, hends, htext⟩
    refine ⟨?_, ?_, ?_⟩
    · rw [List.length_cons, window_succ, hcells]
    · rw [← hends, List.length_cons, Nat.add_assoc, Nat.add_comm 1]
    · rw [List.mem_cons, not_or]
      exact ⟨fun h => hc h.symm, htext⟩

theorem isString_append : IsString nul m p (s ++ t) ↔ window m p s.length = s ∧ nul ∉ s ∧
    IsString nul m (p + s.length) t := by
  constructor
  · rintro ⟨hcells, hends, htext⟩
    rw [List.length_append, window_add] at hcells
    obtain ⟨hs, ht⟩ := List.append_inj hcells (length_window m p _)
    rw [List.mem_append, not_or] at htext
    refine ⟨hs, htext.1, ht, ?_, htext.2⟩
    rw [← hends, List.length_append, Nat.add_assoc]
  · rintro ⟨hs, hnot, ht, hends, htext⟩
    refine ⟨?_, ?_, ?_⟩
    · rw [List.length_append, window_add, hs, ht]
    · rw [← hends, List.length_append, Nat.add_assoc]
    · rw [List.mem_append, not_or]
      exact ⟨hnot, htext⟩

/-- An empty string is one whose first cell is the terminator. -/
theorem IsString.eq_nil_iff (h : IsString nul m p s) : s = [] ↔ m p = nul := by
  cases s with
  | nil => exact iff_of_true rfl h.ends
  | cons c s =>
    obtain ⟨hp, hc, -⟩ := isString_cons.1 h
    exact iff_of_false (List.cons_ne_nil c s) (fun hnul => hc (hp.symm.trans hnul))

theorem IsString.getElem (h : IsString nul m p s) {i : Nat} (hi : i < s.length) : m (p + i) = s[i] := by
  have hcell : (window m p s.length)[i]? = s[i]? := by rw [h.cells]
  rw [Memory.getElem?_window, if_pos hi, List.getElem?_eq_getElem hi] at hcell
  exact Option.some.inj hcell

theorem IsString.congr (h : IsString nul m p s) (hsame : ∀ i, i ≤ s.length → m' (p + i) = m (p + i)) :
    IsString nul m' p s := by
  refine ⟨?_, ?_, h.text⟩
  · rw [← h.cells, length_window]
    exact window_congr fun i hi => hsame i (by omega)
  · rw [hsame _ (Nat.le_refl _), h.ends]

/-- A terminator over a cell of a string ends the string there, and the next one begins behind it. -/
theorem IsString.cut (h : IsString nul m p (s ++ c :: t)) :
    IsString nul (Function.update m (p + s.length) nul) p s ∧
      IsString nul (Function.update m (p + s.length) nul) (p + s.length + 1) t := by
  obtain ⟨hs, hnot, hrest⟩ := isString_append.1 h
  obtain ⟨-, -, ht⟩ := isString_cons.1 hrest
  refine ⟨⟨?_, Function.update_self _ _ _, hnot⟩, ht.congr fun i _ => Function.update_of_ne (by omega) _ _⟩
  conv => rhs; rw [← hs]
  exact window_congr fun i hi => Function.update_of_ne (by omega) _ _

/-! ## Scans -/

section

variable [DecidableEq β] (nul : β) (m : Nat → β)

def strlen : Nat → Nat → Option Nat
  | 0, _        => none
  | fuel + 1, p => if m p = nul then some 0 else (strlen fuel (p + 1)).map (· + 1)

/-- The address of the first `c` of a string, or `some none` where there is none. -/
def strchr (c : β) : Nat → Nat → Option (Option Nat)
  | 0, _        => none
  | fuel + 1, p => if m p = c then some (some p) else if m p = nul then some none else strchr c fuel (p + 1)

end

variable [DecidableEq β]

theorem IsString.strlen : ∀ {s : List β} {p fuel : Nat}, IsString nul m p s → s.length < fuel →
    strlen nul m fuel p = some s.length
  | [], p, fuel + 1, h, _ => if_pos h.ends
  | c :: s, p, fuel + 1, h, hfuel => by
    obtain ⟨hp, hc, hs⟩ := isString_cons.1 h
    have hnul : m p ≠ nul := fun h => hc (hp.symm.trans h)
    rw [Strings.strlen, if_neg hnul, hs.strlen (Nat.lt_of_succ_lt_succ hfuel)]
    rfl

theorem IsString.strchr_none : ∀ {s : List β} {p fuel : Nat}, IsString nul m p s → c ∉ s → c ≠ nul → s.length < fuel →
    strchr nul m c fuel p = some none
  | [], p, fuel + 1, h, _, hc, _ => by
    have hp : m p = nul := h.ends
    rw [strchr, if_neg (fun heq => hc (heq.symm.trans hp)), if_pos hp]
  | a :: s, p, fuel + 1, h, hnot, hc, hfuel => by
    obtain ⟨hp, ha, hs⟩ := isString_cons.1 h
    rw [List.mem_cons, not_or] at hnot
    rw [strchr, if_neg (fun heq => hnot.1 (heq.symm.trans hp)), if_neg (fun heq => ha (hp.symm.trans heq))]
    exact hs.strchr_none hnot.2 hc (Nat.lt_of_succ_lt_succ hfuel)

theorem IsString.strchr_append : ∀ {s : List β} {p fuel : Nat}, IsString nul m p (s ++ c :: t) → c ∉ s →
    s.length < fuel → strchr nul m c fuel p = some (some (p + s.length))
  | [], p, fuel + 1, h, _, _ => if_pos (isString_cons.1 h).1
  | a :: s, p, fuel + 1, h, hnot, hfuel => by
    obtain ⟨hp, ha, hs⟩ := isString_cons.1 h
    rw [List.mem_cons, not_or] at hnot
    rw [strchr, if_neg (fun heq => hnot.1 (heq.symm.trans hp)), if_neg (fun heq => ha (hp.symm.trans heq)),
      hs.strchr_append hnot.2 (Nat.lt_of_succ_lt_succ hfuel), List.length_cons, Nat.add_assoc, Nat.add_comm 1]

end Strings
end Hdmi2Usb
