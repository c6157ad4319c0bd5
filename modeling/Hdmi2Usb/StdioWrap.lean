import Hdmi2Usb.Memory
/-!
# StdioWrap — the line ends of what is printed (`stdio_wrap.c`)

`translate_crlf` copies a string into a buffer of its own and puts a CR before every LF.  It looks at the room once for
each character, and a newline takes two places: the last one may go one place beyond `end`, which the two places that
`end` keeps free are for.  Here it is the list of what it writes, each with its index (`translateCrlf_eq`).
-/
namespace Hdmi2Usb
namespace StdioWrap

open Memory (writes written writes_append)

def stdioBufferSize : Nat := 256

/-- A string of C, without its terminator. -/
def CString : Type := { s : List Char // '\x00' ∉ s }

/-- An index into `stdio_write_buffer`, and the character written there. -/
abbrev Write := Nat × Char

/-- The loop, with `out` at an index and `stop` for `end`. -/
def translateLoop (stop : Nat) : List Char → Nat → List Write × Nat
  | [], out     => ([], out)
  | c :: s, out =>
    if out < stop then
      let (ws, out) := if c = '\n' then ([(out, '\r')], out + 1) else ([], out)
      let (ws', out') := translateLoop stop s (out + 1)
      (ws ++ (out, c) :: ws', out')
    else ([], out)

def translateCrlf (s : CString) (trailingLf : Bool) : List Write :=
  let stop := stdioBufferSize - 2 - trailingLf.toNat
  let (ws, out) := translateLoop stop s.val 0
  let (ws', out) := if trailingLf then ([(out, '\r')], out + 1) else ([], out)
  ws ++ ws' ++ [(out, '\x00')]

/-! ## What it writes -/

/-- A string with every LF turned into CR LF. -/
def crlf (s : List Char) : List Char := s.flatMap fun c => if c = '\n' then ['\r', '\n'] else [c]

@[simp] theorem crlf_nil : crlf [] = [] := rfl

theorem crlf_cons (c : Char) (s : List Char) :
    crlf (c :: s) = (if c = '\n' then ['\r', '\n'] else [c]) ++ crlf s := by
  simp [crlf]

theorem crlf_append (s t : List Char) : crlf (s ++ t) = crlf s ++ crlf t := by
  simp [crlf]

theorem not_mem_crlf {s : List Char} (h : '\x00' ∉ s) : '\x00' ∉ crlf s := by
  intro hmem
  obtain ⟨c, hc, hmem⟩ := List.mem_flatMap.1 hmem
  split at hmem
  next => simp at hmem
  next =>
    rw [List.mem_singleton] at hmem
    exact h (hmem ▸ hc)

/-- **The loop** translates a prefix of the string, and all of it unless it has come to `stop`. -/
theorem translateLoop_spec (stop : Nat) : ∀ (s : List Char) (out : Nat), ∃ done rest, s = done ++ rest ∧
    translateLoop stop s out = (writes (crlf done) out, out + (crlf done).length) ∧
      (rest = [] ∨ stop ≤ out + (crlf done).length) ∧ (done = [] ∨ out + (crlf done).length ≤ stop + 1)
  | [], out => ⟨[], [], rfl, rfl, .inl rfl, .inl rfl⟩
  | c :: s, out => by
    by_cases hout : out < stop
    · by_cases hc : c = '\n'
      · obtain ⟨done, rest, rfl, heq, hrest, hdone⟩ := translateLoop_spec stop s (out + 2)
        have hlen : out + (crlf (c :: done)).length = out + 2 + (crlf done).length := by
          rw [crlf_cons, if_pos hc, List.length_append]
          simp only [List.length_cons, List.length_nil]
          omega
        refine ⟨c :: done, rest, rfl, ?_, ?_, .inr ?_⟩
        · rw [translateLoop, if_pos hout, if_pos hc, hlen]
          simp only [heq]
          rw [crlf_cons, if_pos hc, hc]
          rfl
        · rwa [hlen]
        · rw [hlen]
          rcases hdone with rfl | hdone
          · rw [crlf_nil, List.length_nil]
            omega
          · exact hdone
      · obtain ⟨done, rest, rfl, heq, hrest, hdone⟩ := translateLoop_spec stop s (out + 1)
        have hlen : out + (crlf (c :: done)).length = out + 1 + (crlf done).length := by
          rw [crlf_cons, if_neg hc, List.length_append]
          simp only [List.length_cons, List.length_nil]
          omega
        refine ⟨c :: done, rest, rfl, ?_, ?_, .inr ?_⟩
        · rw [translateLoop, if_pos hout, if_neg hc, hlen]
          simp only [heq]
          rw [crlf_cons, if_neg hc]
          rfl
        · rwa [hlen]
        · rw [hlen]
          rcases hdone with rfl | hdone
          · rw [crlf_nil, List.length_nil]
            omega
          · exact hdone
    · refine ⟨[], c :: s, rfl, ?_, .inr ?_, .inl rfl⟩
      · rw [translateLoop, if_neg hout]
        rfl
      · rw [crlf_nil, List.length_nil]
        omega

/-! ## The result -/

theorem translateCrlf_eq (s : CString) (trailingLf : Bool) : ∃ done rest, s.val = done ++ rest ∧
    translateCrlf s trailingLf = writes (crlf done ++ (if trailingLf then ['\r'] else []) ++ ['\x00']) 0 ∧
      (rest = [] ∨ stdioBufferSize - 2 - trailingLf.toNat ≤ (crlf done).length) ∧
      (crlf done).length ≤ stdioBufferSize - 1 - trailingLf.toNat := by
  obtain ⟨done, rest, hs, hloop, hrest, hdone⟩ :=
    translateLoop_spec (stdioBufferSize - 2 - trailingLf.toNat) s.val 0
  rw [Nat.zero_add] at hloop hrest hdone
  refine ⟨done, rest, hs, ?_, hrest, ?_⟩
  · rw [translateCrlf]
    simp only [hloop]
    cases trailingLf <;> simp [writes_append]
  · rcases hdone with rfl | hdone
    · exact Nat.zero_le _
    · cases trailingLf <;> exact hdone

/-- A string that was cut short translates to more than there is room for. -/
theorem length_crlf_lt {done rest : List Char} (h : rest ≠ []) :
    (crlf done).length < (crlf (done ++ rest)).length := by
  obtain ⟨c, rest, rfl⟩ := List.exists_cons_of_ne_nil h
  rw [crlf_append, crlf_cons, List.length_append, List.length_append]
  split <;> simp only [List.length_cons, List.length_nil] <;> omega

/-- **The translation stays in its buffer and splits no newline**: what it leaves there is the string up to some place
with every LF turned into CR LF, one more CR when it is asked for, and a NUL; and it is the whole string whenever that
fits. -/
theorem translateCrlf_safe (s : CString) (trailingLf : Bool) (buf : Nat → Char) : ∃ done rest, s.val = done ++ rest ∧
    (∀ w ∈ translateCrlf s trailingLf, w.1 < stdioBufferSize) ∧
      (let text := crlf done ++ (if trailingLf then ['\r'] else [])
       '\x00' ∉ text ∧
         Memory.window (written (translateCrlf s trailingLf) buf) 0 (text.length + 1) = text ++ ['\x00']) ∧
      ((crlf s.val).length ≤ stdioBufferSize - 2 - trailingLf.toNat → rest = []) := by
  obtain ⟨done, rest, hs, heq, hrest, hlen⟩ := translateCrlf_eq s trailingLf
  refine ⟨done, rest, hs, ?_, ⟨?_, ?_⟩, ?_⟩
  · intro w hw
    rw [heq] at hw
    obtain ⟨-, hlt⟩ := Memory.mem_fst_writes.1 ⟨w.2, hw⟩
    cases trailingLf <;>
      simp only [Bool.toNat_false, Bool.toNat_true, stdioBufferSize, List.length_append, List.length_cons,
        List.length_nil, if_true, if_false, Bool.false_eq_true] at hlen hlt ⊢ <;> omega
  · rw [List.mem_append, not_or]
    refine ⟨not_mem_crlf fun hmem => s.property ?_, ?_⟩
    · rw [hs]
      exact List.mem_append_left _ hmem
    · cases trailingLf <;> simp
  · rw [heq, Memory.written_writes]
    have hwindow := Memory.window_store buf 0 (crlf done ++ (if trailingLf then ['\r'] else []) ++ ['\x00'])
    have hlength : (crlf done ++ (if trailingLf then ['\r'] else []) ++ ['\x00']).length =
        (crlf done ++ (if trailingLf then ['\r'] else [])).length + 1 := List.length_append
    rwa [hlength] at hwindow
  · intro hfits
    by_contra hne
    have hlt : (crlf done).length < (crlf s.val).length := by
      rw [hs]
      exact length_crlf_lt hne
    rcases hrest with hnil | hfull
    · exact hne hnil
    · omega

end StdioWrap
end Hdmi2Usb
