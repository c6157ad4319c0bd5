import Hdmi2Usb.Runs
import Mathlib.Algebra.Group.Int.Defs
import Mathlib.Data.List.ReduceOption
import Mathlib.Logic.Function.Basic
/-!
# LineEditor — the line that is being typed (`ci.c`, `readstr`)

`readstr` edits a line in a buffer of 128 characters, one character a call, and returns it when it ends.  It is written
twice, once for telnet and once for the UART: telnet ends a line at LF and passes over CR, the UART ends it at either
and passes over the other one behind it.  What both come to on what a terminal sends is `Text.edit`.
-/
namespace Hdmi2Usb
namespace LineEditor

/-- `sizeof(s)` -/
def sizeofS : Nat := 128

/-- What lies from `s` on. -/
abbrev Buffer := Int → Char

/-- The static variables of `readstr`. -/
structure Editor where
  s          : Buffer
  ptr        : Int
  skipIfNext : Char

def Editor.erase (e : Editor) : Editor := if 0 < e.ptr then { e with ptr := e.ptr - 1 } else e

/-- The default case.  The comparison is one of unsigned numbers. -/
def Editor.append (e : Editor) (c : Char) : Editor :=
  if sizeofS - 1 ≤ e.ptr % 2 ^ 32 then e else { e with s := Function.update e.s e.ptr c, ptr := e.ptr + 1 }

def Editor.terminate (e : Editor) : Editor := { e with s := Function.update e.s e.ptr '\x00', ptr := 0 }

/-- What is returned points to the buffer as it is then. -/
def telnetChar (e : Editor) (c : Char) : Option Buffer × Editor :=
  if c = '\x7f' ∨ c = '\x08' then (none, e.erase)
  else if c = '\x07' then (none, e)
  else if c = '\r' then (none, e)
  else if c = '\n' then (some e.terminate.s, e.terminate)
  else (none, e.append c)

/-- The UART's case of LF, into which the one of CR falls. -/
def uartNewline (e : Editor) : Option Buffer × Editor :=
  let e := if e.skipIfNext = '\x00' then { e with skipIfNext := '\r' } else e
  (some e.terminate.s, e.terminate)

def uartChar (e : Editor) (c : Char) : Option Buffer × Editor :=
  if c = e.skipIfNext then (none, { e with skipIfNext := '\x00' })
  else
    let e := { e with skipIfNext := '\x00' }
    if c = '\x7f' ∨ c = '\x08' then (none, e.erase)
    else if c = '\x07' then (none, e)
    else if c = '\r' then uartNewline { e with skipIfNext := '\n' }
    else if c = '\n' then uartNewline e
    else (none, e.append c)

/-- A call, with the character there is to read if there is one. -/
def readstr (telnetActive : Bool) (e : Editor) : Option Char → Option Buffer × Editor
  | none   => (none, e)
  | some c => if telnetActive then telnetChar e c else uartChar e c

/-- The C string at the start of the buffer. -/
def line (s : Buffer) : List Char := ((List.range sizeofS).map fun i : Nat => s i).takeWhile (· ≠ '\x00')

/-- The editor, with what the calls returned so far. -/
structure Run where
  editor   : Editor
  returned : List Buffer

def Run.step (telnetActive : Bool) (r : Run) (input : Option Char) : Run :=
  ⟨(readstr telnetActive r.editor input).2, r.returned ++ (readstr telnetActive r.editor input).1.toList⟩

def Run.start (s : Buffer) : Run := ⟨⟨s, 0, '\x00'⟩, []⟩

def Run.lines (r : Run) : List (List Char) := r.returned.map line

/-! ## What a terminal sends -/

inductive Key where
  | char (c : Char) (h : ' ' ≤ c ∧ c ≤ '~')
  | erase (del : Bool)
  | bell
  | newline (cr : Bool)

def Key.encode : Key → List Char
  | .char c _      => [c]
  | .erase false   => ['\x08']
  | .erase true    => ['\x7f']
  | .bell          => ['\x07']
  | .newline false => ['\n']
  | .newline true  => ['\r', '\n']

/-- The line that is held, and those that have ended. -/
structure Text where
  held  : List Char
  lines : List (List Char)
deriving DecidableEq

def Text.edit (t : Text) : Key → Text
  | .char c _  => { t with held := if t.held.length < 127 then t.held ++ [c] else t.held }
  | .erase _   => { t with held := t.held.dropLast }
  | .bell      => t
  | .newline _ => ⟨[], t.lines ++ [t.held]⟩

/-! ## The edits of the buffer -/

/-- The line in the buffer. -/
structure Edits (e : Editor) (held : List Char) : Prop where
  length_le : held.length ≤ 127
  ptr_eq    : e.ptr = held.length
  stored    : ∀ i (h : i < held.length), e.s i = held[i]
  text      : '\x00' ∉ held

section

variable {e : Editor} {held : List Char}

theorem Edits.erase (h : Edits e held) : Edits e.erase held.dropLast := by
  have hlen : held.dropLast.length = held.length - 1 := List.length_dropLast
  have hle := h.length_le
  have hs : e.erase.s = e.s := by
    unfold Editor.erase
    split <;> rfl
  have hptr : e.erase.ptr = held.dropLast.length := by
    have hheld := h.ptr_eq
    by_cases hpos : 0 < e.ptr
    · rw [Editor.erase, if_pos hpos]
      simp only
      omega
    · rw [Editor.erase, if_neg hpos]
      omega
  refine ⟨by omega, hptr, fun i hi => ?_, fun hmem => h.text (List.mem_of_mem_dropLast hmem)⟩
  rw [hs, h.stored i (by omega), List.getElem_dropLast]

theorem Edits.append (h : Edits e held) {c : Char} (hc : c ≠ '\x00') :
    Edits (e.append c) (if held.length < 127 then held ++ [c] else held) := by
  have hptr := h.ptr_eq
  have hle := h.length_le
  by_cases hfull : (sizeofS : Int) - 1 ≤ e.ptr % 2 ^ 32
  · have hlen : ¬held.length < 127 := by
      simp only [sizeofS] at hfull
      omega
    rw [Editor.append, if_pos hfull, if_neg hlen]
    exact h
  · have hlen : held.length < 127 := by
      simp only [sizeofS] at hfull
      omega
    rw [Editor.append, if_neg hfull, if_pos hlen]
    refine ⟨?_, by simp [hptr], fun i hi => ?_, ?_⟩
    · rw [List.length_append, List.length_singleton]
      exact hlen
    · rw [List.length_append, List.length_singleton] at hi
      rcases Nat.lt_succ_iff_lt_or_eq.1 hi with hlt | rfl
      · have hne : (i : Int) ≠ e.ptr := by omega
        rw [List.getElem_append_left hlt, ← h.stored i hlt]
        exact Function.update_of_ne hne _ _
      · rw [List.getElem_append_right (Nat.le_refl _)]
        simp [hptr]
    · rw [List.mem_append, List.mem_singleton, not_or]
      exact ⟨h.text, hc.symm⟩

theorem line_terminate (h : Edits e held) : line e.terminate.s = held := by
  have hle := h.length_le
  have hnul : e.terminate.s held.length = '\x00' := by
    rw [Editor.terminate, h.ptr_eq]
    exact Function.update_self _ _ _
  have hstored : ∀ i (hi : i < held.length), e.terminate.s i = held[i] := by
    intro i hi
    have hne : (i : Int) ≠ e.ptr := by
      have hptr := h.ptr_eq
      omega
    rw [← h.stored i hi]
    exact Function.update_of_ne hne _ _
  unfold line
  generalize hcells : (List.range sizeofS).map (fun i : Nat => e.terminate.s i) = cells
  have hlen : held.length < cells.length := by
    rw [← hcells, List.length_map, List.length_range, sizeofS]
    omega
  have hcell : ∀ i (hi : i < cells.length), cells[i] = e.terminate.s i := by
    subst hcells
    simp
  have htake : cells.take held.length = held := by
    apply List.ext_getElem
    · rw [List.length_take]
      omega
    · intro i _ hi
      rw [List.getElem_take, hcell i (by omega), hstored i hi]
  have hdrop : cells.drop held.length = '\x00' :: cells.drop (held.length + 1) := by
    rw [List.drop_eq_getElem_cons hlen, hcell _ hlen, hnul]
  have htext : ∀ c ∈ held, decide (c ≠ '\x00') = true := by
    intro c hc
    rw [decide_eq_true_iff]
    rintro rfl
    exact h.text hc
  rw [← List.take_append_drop held.length cells, htake, hdrop, List.takeWhile_append_of_pos htext]
  simp

theorem edits_terminate (e : Editor) : Edits e.terminate [] where
  length_le   := Nat.zero_le _
  ptr_eq      := rfl
  stored _ hi := absurd hi (Nat.not_lt_zero _)
  text        := List.not_mem_nil

end
/-! ## A call that reads a character -/

theorem ne_of_printable {c d : Char} (h : ' ' ≤ c ∧ c ≤ '~') (hd : ¬(' ' ≤ d ∧ d ≤ '~')) : c ≠ d := by
  rintro rfl
  exact hd h

theorem telnetChar_char (e : Editor) {c : Char} (h : ' ' ≤ c ∧ c ≤ '~') : telnetChar e c = (none, e.append c) := by
  have hdel : c ≠ '\x7f' := ne_of_printable h (by decide)
  have hbs : c ≠ '\x08' := ne_of_printable h (by decide)
  have hbell : c ≠ '\x07' := ne_of_printable h (by decide)
  have hcr : c ≠ '\r' := ne_of_printable h (by decide)
  have hlf : c ≠ '\n' := ne_of_printable h (by decide)
  simp only [telnetChar, hdel, hbs, hbell, hcr, hlf, or_self, if_false]

/-- What the UART's path does once it has nothing to skip. -/
theorem uartChar_of_ne {e : Editor} {c : Char} (h : c ≠ e.skipIfNext) (hcr : c ≠ '\r') :
    uartChar e c = (let e := { e with skipIfNext := '\x00' }
      if c = '\n' then (some e.terminate.s, { e.terminate with skipIfNext := '\r' }) else telnetChar e c) := by
  rw [uartChar, if_neg h]
  by_cases hlf : c = '\n'
  · subst hlf
    simp [uartNewline, Editor.terminate]
  · simp only [telnetChar, if_neg hcr, if_neg hlf]

/-- **A key that does not end the line** is one character, and both paths make its edit. -/
theorem telnetChar_key {e : Editor} {t : Text} (h : Edits e t.held) {k : Key} (hk : ∀ cr, k ≠ .newline cr) :
    ∃ c e', k.encode = [c] ∧ (c ≠ '\r' ∧ c ≠ '\n' ∧ c ≠ '\x00') ∧ telnetChar e c = (none, e') ∧
      Edits e' (t.edit k).held ∧ (t.edit k).lines = t.lines ∧ e'.skipIfNext = e.skipIfNext := by
  cases k with
  | char c hc =>
    have hcr : c ≠ '\r' := ne_of_printable hc (by decide)
    have hlf : c ≠ '\n' := ne_of_printable hc (by decide)
    have hnul : c ≠ '\x00' := ne_of_printable hc (by decide)
    have hskip : (e.append c).skipIfNext = e.skipIfNext := by
      unfold Editor.append
      split <;> rfl
    exact ⟨c, e.append c, rfl, ⟨hcr, hlf, hnul⟩, telnetChar_char e hc, h.append hnul, rfl, hskip⟩
  | erase del =>
    have hskip : e.erase.skipIfNext = e.skipIfNext := by
      unfold Editor.erase
      split <;> rfl
    cases del with
    | false => exact ⟨'\x08', e.erase, rfl, by decide, rfl, h.erase, rfl, hskip⟩
    | true  => exact ⟨'\x7f', e.erase, rfl, by decide, rfl, h.erase, rfl, hskip⟩
  | bell => exact ⟨'\x07', e, rfl, by decide, rfl, h, rfl, rfl⟩
  | newline cr => exact absurd rfl (hk cr)

/-! ## Runs -/

/-- What a run keeps between two keys.  The UART has at most a CR to skip, behind a LF that has ended a line. -/
structure Inv (r : Run) (t : Text) : Prop where
  edits : Edits r.editor t.held
  skip  : r.editor.skipIfNext = '\x00' ∨ r.editor.skipIfNext = '\r'
  lines : r.lines = t.lines

theorem Edits.skip {e : Editor} {held : List Char} (h : Edits e held) (c : Char) :
    Edits { e with skipIfNext := c } held := ⟨h.length_le, h.ptr_eq, h.stored, h.text⟩

section

variable {r : Run} {t : Text}

theorem Inv.quiet {e' : Editor} {t' : Text} (h : Inv r t) (he : Edits e' t'.held)
    (hs : e'.skipIfNext = '\x00' ∨ e'.skipIfNext = '\r') (ht : t'.lines = t.lines) : Inv ⟨e', r.returned ++ []⟩ t' := by
  refine ⟨he, hs, ?_⟩
  rw [List.append_nil, ht]
  exact h.lines

theorem Inv.ends {e' : Editor} {b : Buffer} (h : Inv r t) (he : Edits e' [])
    (hs : e'.skipIfNext = '\x00' ∨ e'.skipIfNext = '\r') (hb : line b = t.held) :
    Inv ⟨e', r.returned ++ [b]⟩ ⟨[], t.lines ++ [t.held]⟩ := by
  refine ⟨he, hs, ?_⟩
  have hlines := h.lines
  rw [Run.lines] at hlines ⊢
  rw [List.map_append, hlines, List.map_singleton, hb]

theorem Run.step_telnet (r : Run) (c : Char) : r.step true (some c) =
    ⟨(telnetChar r.editor c).2, r.returned ++ (telnetChar r.editor c).1.toList⟩ := rfl

theorem Run.step_uart (r : Run) (c : Char) : r.step false (some c) =
    ⟨(uartChar r.editor c).2, r.returned ++ (uartChar r.editor c).1.toList⟩ := rfl

/-- **A key** does to the buffer what it does to the text, over telnet. -/
theorem Inv.telnet (h : Inv r t) (k : Key) : Inv ((k.encode.map some).foldl (Run.step true) r) (t.edit k) := by
  by_cases hk : ∃ cr, k = .newline cr
  · obtain ⟨cr, rfl⟩ := hk
    have hends : Inv (r.step true (some '\n')) ⟨[], t.lines ++ [t.held]⟩ :=
      h.ends (edits_terminate r.editor) h.skip (line_terminate h.edits)
    cases cr with
    | false => exact hends
    | true =>
      have hquiet : r.step true (some '\r') = r := by
        rw [Run.step_telnet]
        simp [telnetChar]
      show Inv ((r.step true (some '\r')).step true (some '\n')) _
      rw [hquiet]
      exact hends
  · rw [not_exists] at hk
    obtain ⟨c, e', hc, -, hchar, he', ht, hskip⟩ := telnetChar_key h.edits hk
    rw [hc, List.map_singleton, List.foldl_cons, List.foldl_nil, Run.step_telnet, hchar]
    exact h.quiet he' (hskip ▸ h.skip) ht

/-- A LF ends the line on the UART unless it is to be skipped. -/
theorem Inv.uart_lf (h : Inv r t) : Inv (r.step false (some '\n')) ⟨[], t.lines ++ [t.held]⟩ := by
  have hne : '\n' ≠ r.editor.skipIfNext := by
    rcases h.skip with hs | hs <;> rw [hs] <;> decide
  rw [Run.step_uart, uartChar_of_ne hne (by decide)]
  have hedits := h.edits.skip '\x00'
  exact h.ends ((edits_terminate _).skip '\r') (.inr rfl) (line_terminate hedits)

/-- And over the UART. -/
theorem Inv.uart (h : Inv r t) (k : Key) : Inv ((k.encode.map some).foldl (Run.step false) r) (t.edit k) := by
  by_cases hk : ∃ cr, k = .newline cr
  · obtain ⟨cr, rfl⟩ := hk
    cases cr with
    | false => exact h.uart_lf
    | true =>
      show Inv ((r.step false (some '\r')).step false (some '\n')) _
      rcases h.skip with hs | hs
      · -- the CR ends the line and the LF is skipped
        have hcr : uartChar r.editor '\r' =
            (some r.editor.terminate.s, { r.editor.terminate with skipIfNext := '\n' }) := by
          simp [uartChar, hs, uartNewline, Editor.terminate]
        have hlf : uartChar { r.editor.terminate with skipIfNext := '\n' } '\n' =
            (none, { r.editor.terminate with skipIfNext := '\x00' }) := by
          rw [uartChar, if_pos rfl]
        rw [Run.step_uart r, hcr, Run.step_uart]
        simp only [hlf, Option.toList_none, List.append_nil]
        exact h.ends ((edits_terminate r.editor).skip '\x00') (.inl rfl) (line_terminate h.edits)
      · -- the CR is skipped and the LF ends the line
        have hcr : uartChar r.editor '\r' = (none, { r.editor with skipIfNext := '\x00' }) := by
          rw [uartChar, if_pos hs.symm]
        have hquiet : Inv (r.step false (some '\r')) t := by
          rw [Run.step_uart, hcr]
          exact h.quiet (h.edits.skip '\x00') (.inl rfl) rfl
        exact hquiet.uart_lf
  · rw [not_exists] at hk
    obtain ⟨c, e', hc, ⟨hcr, hlf, hnul⟩, hchar, he', ht, hskip⟩ := telnetChar_key (h.edits.skip '\x00') hk
    have hne : c ≠ r.editor.skipIfNext := by
      rcases h.skip with hs | hs <;> rw [hs] <;> assumption
    rw [hc, List.map_singleton, List.foldl_cons, List.foldl_nil, Run.step_uart, uartChar_of_ne hne hcr]
    simp only [if_neg hlf, hchar]
    exact h.quiet he' (.inl hskip) ht

end

theorem inv_start (s : Buffer) : Inv (.start s) ⟨[], []⟩ where
  edits := ⟨Nat.zero_le _, rfl, fun _ hi => absurd hi (Nat.not_lt_zero _), List.not_mem_nil⟩
  skip  := .inl rfl
  lines := rfl

theorem Inv.keys (telnetActive : Bool) (keys : List Key) : ∀ {r : Run} {t : Text}, Inv r t →
    Inv (((keys.flatMap Key.encode).map some).foldl (Run.step telnetActive) r) (keys.foldl Text.edit t) := by
  induction keys with
  | nil => exact fun h => h
  | cons k keys ih =>
    intro r t h
    rw [List.flatMap_cons, List.map_append, List.foldl_append, List.foldl_cons]
    cases telnetActive with
    | false => exact ih (h.uart k)
    | true  => exact ih (h.telnet k)

/-- A call that finds nothing to read does nothing. -/
theorem Run.foldl_reduceOption (telnetActive : Bool) (inputs : List (Option Char)) : ∀ (r : Run),
    inputs.foldl (Run.step telnetActive) r = (inputs.reduceOption.map some).foldl (Run.step telnetActive) r := by
  induction inputs with
  | nil => exact fun _ => rfl
  | cons input inputs ih =>
    intro r
    cases input with
    | none =>
      have hquiet : r.step telnetActive none = r := by simp [Run.step, readstr]
      rw [List.foldl_cons, hquiet, List.reduceOption_cons_of_none]
      exact ih r
    | some c =>
      rw [List.reduceOption_cons_of_some, List.map_cons, List.foldl_cons, List.foldl_cons]
      exact ih _

/-! ## Whatever is typed -/

def Editor.Bounded (e : Editor) : Prop := 0 ≤ e.ptr ∧ e.ptr ≤ 127

/-- A NUL within the 128 characters of the buffer. -/
def Terminated (b : Buffer) : Prop := ∃ i : Int, (0 ≤ i ∧ i < sizeofS) ∧ b i = '\x00'

section

variable {e : Editor}

theorem Editor.Bounded.erase (h : e.Bounded) : e.erase.Bounded := by
  unfold Editor.erase
  obtain ⟨hlo, hhi⟩ := h
  split
  next hpos => exact ⟨Int.le_sub_one_of_lt hpos, Int.le_trans (Int.sub_le_self _ (by decide)) hhi⟩
  next => exact ⟨hlo, hhi⟩

theorem Editor.Bounded.append (h : e.Bounded) (c : Char) : (e.append c).Bounded := by
  unfold Editor.append
  obtain ⟨hlo, hhi⟩ := h
  split
  next => exact ⟨hlo, hhi⟩
  next hroom =>
    simp only [sizeofS] at hroom
    refine ⟨?_, ?_⟩ <;> simp only <;> omega

theorem Editor.Bounded.terminated (h : e.Bounded) : Terminated e.terminate.s :=
  ⟨e.ptr, ⟨h.1, Int.lt_of_le_of_lt h.2 (by decide)⟩, Function.update_self _ _ _⟩

theorem bounded_terminate (e : Editor) : e.terminate.Bounded := ⟨Int.le_refl 0, Int.natCast_nonneg 127⟩

/-- What a call comes to: it keeps the position in its bounds, and what it returns is a string. -/
def Safe (ret : Option Buffer × Editor) : Prop := ret.2.Bounded ∧ ∀ b ∈ ret.1, Terminated b

theorem safe_none (h : e.Bounded) : Safe (none, e) := ⟨h, fun _ hb => absurd hb (Option.not_mem_none _)⟩

theorem safe_terminate (h : e.Bounded) : Safe (some e.terminate.s, e.terminate) := by
  refine ⟨bounded_terminate e, ?_⟩
  intro b hb
  obtain rfl := Option.some.inj hb
  exact h.terminated

theorem safe_telnetChar (h : e.Bounded) (c : Char) : Safe (telnetChar e c) := by
  unfold telnetChar
  split_ifs
  · exact safe_none h.erase
  · exact safe_none h
  · exact safe_none h
  · exact safe_terminate h
  · exact safe_none (h.append c)

theorem safe_uartNewline (h : e.Bounded) : Safe (uartNewline e) := by
  unfold uartNewline
  split
  · exact safe_terminate h
  · exact safe_terminate h

theorem safe_uartChar (h : e.Bounded) (c : Char) : Safe (uartChar e c) := by
  have hskip : ∀ d, Editor.Bounded { e with skipIfNext := d } := fun _ => h
  unfold uartChar
  split_ifs
  · exact safe_none (hskip _)
  · exact safe_none (hskip _).erase
  · exact safe_none (hskip _)
  · exact safe_uartNewline (hskip _)
  · exact safe_uartNewline (hskip _)
  · exact safe_none ((hskip _).append c)

theorem safe_readstr (h : e.Bounded) (telnetActive : Bool) (input : Option Char) :
    Safe (readstr telnetActive e input) := by
  cases input with
  | none => exact safe_none h
  | some c =>
    cases telnetActive with
    | false => exact safe_uartChar h c
    | true  => exact safe_telnetChar h c

end

/-- What every run keeps. -/
structure Kept (r : Run) : Prop where
  bounded    : r.editor.Bounded
  terminated : ∀ b ∈ r.returned, Terminated b

theorem Kept.step {r : Run} (h : Kept r) (telnetActive : Bool) (input : Option Char) :
    Kept (r.step telnetActive input) := by
  obtain ⟨hbounded, hret⟩ := safe_readstr h.bounded telnetActive input
  refine ⟨hbounded, fun b hb => ?_⟩
  rcases List.mem_append.1 hb with hb | hb
  · exact h.terminated b hb
  · exact hret b (Option.mem_toList.1 hb)

theorem kept_start (s : Buffer) : Kept (.start s) where
  bounded        := ⟨Int.le_refl 0, Int.natCast_nonneg 127⟩
  terminated _ h := absurd h List.not_mem_nil

theorem allStates_kept (telnetActive : Bool) (inputs : List (Option Char)) {r : Run} (h : Kept r) :
    Runs.AllStates (Run.step telnetActive) Kept r inputs := by
  rw [Runs.allStates_iff_prefix]
  intro pre _
  have hstep : ∀ r input, Kept r → Kept (r.step telnetActive input) := fun r input hr => hr.step telnetActive input
  exact Runs.foldl_inv hstep pre h

/-- **Both paths edit lines alike**: whatever the pauses between the characters, the lines returned are those of the
edits, and all along the position stays in the buffer and every line returned ends in it. -/
theorem readstr_lines (telnetActive : Bool) (s : Buffer) (keys : List Key) (inputs : List (Option Char))
    (h : inputs.reduceOption = keys.flatMap Key.encode) :
    (inputs.foldl (Run.step telnetActive) (.start s)).lines = (keys.foldl Text.edit ⟨[], []⟩).lines ∧
      Runs.AllStates (Run.step telnetActive)
        (fun r => (0 ≤ r.editor.ptr ∧ r.editor.ptr ≤ 127) ∧ ∀ b ∈ r.returned, Terminated b) (.start s) inputs := by
  constructor
  · rw [Run.foldl_reduceOption, h]
    exact ((inv_start s).keys telnetActive keys).lines
  · exact (allStates_kept telnetActive inputs (kept_start s)).mono fun _ hr => ⟨hr.bounded, hr.terminated⟩

/-- A letter, a backspace, two letters and both ways to end a line, typed with pauses. -/
theorem readstr_lines_typed :
    ([some 'a', none, some '\x08', some 'o', some 'k', some '\r', none, some '\n', some '\n'].foldl
      (Run.step false) (.start fun _ => '\x00')).lines = ["ok".toList, []] := by
  have hlines := readstr_lines false (fun _ => '\x00')
    [.char 'a' (by decide), .erase false, .char 'o' (by decide), .char 'k' (by decide), .newline true, .newline false]
    [some 'a', none, some '\x08', some 'o', some 'k', some '\r', none, some '\n', some '\n'] rfl
  exact hlines.1

end LineEditor
end Hdmi2Usb
