import Hdmi2Usb.Strings
import Hdmi2Usb.Tokenizer
/-!
# TokenBuffer — the tokens in the buffer of a command line (`ci.c`)

`get_token` writes a NUL over the space behind a token and returns a pointer to where the token begins; the caller's
pointer goes on behind it.  Here the buffer is a memory and the pointers are addresses, and a call that has not ended
after `fuel` turns of each of its loops gives nothing.  A call does in the buffer what `Console.getToken` does to the
line (`getToken_took`), so calls one after the other return the words of the line and leave them where they are.
-/
namespace Hdmi2Usb
namespace TokenBuffer

open Strings
open Console (words WordsAt spanned)

/-- The buffer, and the caller's pointer into it. -/
structure Cursor where
  mem : Nat → Char
  str : Nat

/-- `get_token_generic` -/
def getTokenGeneric (fuel : Nat) (delimiter : Char) (s : Cursor) : Option (Nat × Cursor) := do
  match ← strchr '\x00' s.mem delimiter fuel s.str with
  | none   =>
    let n ← strlen '\x00' s.mem fuel s.str
    some (s.str, { s with str := s.str + n })
  | some c => some (s.str, ⟨Function.update s.mem c '\x00', c + 1⟩)

/-- The loop of `get_token`, for so many turns. -/
def getTokenLoop (fuel : Nat) : Nat → Cursor → Option (Nat × Cursor)
  | 0, _         => none
  | turns + 1, s => do
    let (t, s) ← getTokenGeneric fuel ' ' s
    if s.mem t = '\x00' ∧ s.mem s.str = '\x00' then some (t, s)
    else if s.mem t = '\x00' then getTokenLoop fuel turns s
    else some (t, s)

def getToken (fuel : Nat) (s : Cursor) : Option (Nat × Cursor) := getTokenLoop fuel fuel s

/-- `n` calls, with what they returned. -/
def calls (fuel : Nat) : Nat → Cursor → Option (List Nat × Cursor)
  | 0, s     => some ([], s)
  | n + 1, s => do
    let (t, s) ← getToken fuel s
    let (ts, s) ← calls fuel n s
    some (t :: ts, s)

/-! ## What a call does to the buffer -/

/-- The cells of `m'` are those of `m`, but for some that held a `d`, from `p` on and before `q`. -/
def Cut (d : Char) (m m' : Nat → Char) (p q : Nat) : Prop :=
  ∀ a, m' a = m a ∨ (p ≤ a ∧ a < q ∧ m a = d)

section

variable {d : Char} {m m' m'' : Nat → Char} {p q r : Nat} {s : List Char}

theorem Cut.refl (d : Char) (m : Nat → Char) (p q : Nat) : Cut d m m p q := fun _ => .inl rfl

theorem Cut.trans (h : Cut d m m' p q) (h' : Cut d m' m'' q r) (hpq : p ≤ q) (hqr : q ≤ r) : Cut d m m'' p r := by
  intro a
  rcases h' a with heq | ⟨hle, hlt, hd⟩
  · rcases h a with heq' | ⟨hle', hlt', hd'⟩
    · exact .inl (heq.trans heq')
    · exact .inr ⟨hle', by omega, hd'⟩
  · rcases h a with heq' | ⟨-, hlt', -⟩
    · exact .inr ⟨by omega, hlt, heq'.symm.trans hd⟩
    · omega

theorem Cut.update (hp : m p = d) (c : Char) (hle : q ≤ p) : Cut d m (Function.update m p c) q (p + 1) := by
  intro a
  by_cases ha : a = p
  · subst ha
    exact .inr ⟨hle, Nat.lt_succ_self a, hp⟩
  · exact .inl (Function.update_of_ne ha _ _)

/-- A string without a delimiter in it stays as it is. -/
theorem Cut.isString (h : Cut d m m' p q) {t : Nat} (hs : IsString '\x00' m t s) (hnot : d ∉ s) (hd : d ≠ '\x00') :
    IsString '\x00' m' t s := by
  refine hs.congr fun i hi => (h (t + i)).resolve_right ?_
  rintro ⟨-, -, hcell⟩
  rcases Nat.lt_or_eq_of_le hi with hlt | rfl
  · rw [hs.getElem hlt] at hcell
    exact hnot (hcell ▸ List.getElem_mem hlt)
  · exact hd (hcell.symm.trans hs.ends)

end

/-- From the line at the pointer of `s` a call has taken a token at `t`; `rest` is at the pointer it leaves. -/
structure Took (d : Char) (s : Cursor) (line token rest : List Char) (t : Nat) (s' : Cursor) : Prop where
  at_token : IsString '\x00' s'.mem t token
  at_rest  : IsString '\x00' s'.mem s'.str rest
  le       : s.str ≤ s'.str
  ends     : s'.str + rest.length = s.str + line.length
  cut      : Cut d s.mem s'.mem s.str s'.str

section

variable {s : Cursor} {line : List Char} {fuel : Nat}

theorem getTokenGeneric_took {d : Char} (h : IsString '\x00' s.mem s.str line) (hd : d ≠ '\x00')
    (hfuel : line.length < fuel) : ∃ t s', getTokenGeneric fuel d s = some (t, s') ∧
      Took d s line (Console.getTokenGeneric line d).1 (Console.getTokenGeneric line d).2 t s' := by
  by_cases hmem : d ∈ line
  · obtain ⟨happ, hnot⟩ := Console.getTokenGeneric_append hmem
    generalize Console.getTokenGeneric line d = g at happ hnot ⊢
    obtain ⟨token, rest⟩ := g
    simp only at happ hnot ⊢
    subst happ
    obtain ⟨htoken, hrest⟩ := h.cut
    rw [List.length_append, List.length_cons] at hfuel
    refine ⟨s.str, ⟨Function.update s.mem (s.str + token.length) '\x00', s.str + token.length + 1⟩, ?_, htoken, hrest, ?_,
      ?_, ?_⟩
    · rw [getTokenGeneric, h.strchr_append hnot (by omega)]
      rfl
    · simp only
      omega
    · rw [List.length_append, List.length_cons]
      simp only
      omega
    · have hcell : s.mem (s.str + token.length) = d := (isString_cons.1 (isString_append.1 h).2.2).1
      exact Cut.update hcell _ (Nat.le_add_right _ _)
  · have hg : Console.getTokenGeneric line d = (line, []) := by rw [Console.getTokenGeneric, if_neg hmem]
    rw [hg]
    refine ⟨s.str, { s with str := s.str + line.length }, ?_, h, isString_nil.2 h.ends, Nat.le_add_right _ _, rfl,
      Cut.refl _ _ _ _⟩
    rw [getTokenGeneric, h.strchr_none hmem hd hfuel, Option.bind_eq_bind, Option.bind_some]
    simp only [h.strlen hfuel]
    rfl

theorem Took.trans {d : Char} {s' s'' : Cursor} {token token' rest rest' : List Char} {t t' : Nat}
    (h : Took d s line token rest t s') (h' : Took d s' rest token' rest' t' s'') : Took d s line token' rest' t' s'' :=
  ⟨h'.at_token, h'.at_rest, h.le.trans h'.le, h'.ends.trans h.ends, h.cut.trans h'.cut h.le h'.le⟩

theorem getTokenLoop_took : ∀ {turns : Nat} {s : Cursor} {line : List Char}, IsString '\x00' s.mem s.str line →
    line.length < fuel → line.length ≤ turns → ∃ t s', getTokenLoop fuel (turns + 1) s = some (t, s') ∧
      Took ' ' s line (Console.getTokenLoop turns line).1 (Console.getTokenLoop turns line).2 t s' := by
  intro turns
  induction turns with
  | zero =>
    intro s line h hfuel hturns
    obtain ⟨t, s', heq, htook⟩ := getTokenGeneric_took (d := ' ') h (by decide) hfuel
    have hnil : line = [] := List.eq_nil_of_length_eq_zero (Nat.le_zero.1 hturns)
    have hdone : s'.mem t = '\x00' ∧ s'.mem s'.str = '\x00' := by
      rw [← htook.at_token.eq_nil_iff, ← htook.at_rest.eq_nil_iff, hnil]
      exact ⟨rfl, rfl⟩
    refine ⟨t, s', ?_, htook⟩
    rw [getTokenLoop, heq]
    exact if_pos hdone
  | succ turns ih =>
    intro s line h hfuel hturns
    obtain ⟨t, s', heq, htook⟩ := getTokenGeneric_took (d := ' ') h (by decide) hfuel
    rw [getTokenLoop, heq, Option.bind_eq_bind, Option.bind_some, Console.getTokenLoop]
    simp only [← htook.at_token.eq_nil_iff, ← htook.at_rest.eq_nil_iff]
    by_cases htoken : (Console.getTokenGeneric line ' ').1 = []
    · by_cases hrest : (Console.getTokenGeneric line ' ').2 = []
      · rw [if_pos ⟨htoken, hrest⟩, if_neg (fun hc => hc.2 hrest)]
        exact ⟨t, s', rfl, htook⟩
      · -- an empty token in the line: the loop goes on behind its space
        rw [if_neg (fun hc => hrest hc.2), if_pos htoken, if_pos ⟨htoken, hrest⟩]
        have hlt : (Console.getTokenGeneric line ' ').2.length < line.length := by
          refine Console.length_getTokenGeneric_lt (by_contra fun hmem => hrest ?_)
          rw [Console.getTokenGeneric, if_neg hmem]
        obtain ⟨t', s'', heq', htook'⟩ := ih htook.at_rest (by omega) (by omega)
        exact ⟨t', s'', heq', htook.trans htook'⟩
    · rw [if_neg (fun hc => htoken hc.1), if_neg htoken, if_neg (fun hc => htoken hc.1)]
      exact ⟨t, s', rfl, htook⟩

/-- **A call does in the buffer what `Console.getToken` does to the line.** -/
theorem getToken_took (h : IsString '\x00' s.mem s.str line) (hfuel : line.length < fuel) :
    ∃ t s', getToken fuel s = some (t, s') ∧
      Took ' ' s line (Console.getToken line).1 (Console.getToken line).2 t s' := by
  obtain ⟨turns, rfl⟩ := Nat.exists_eq_add_one_of_ne_zero (show fuel ≠ 0 by omega)
  have hle : line.length ≤ turns := Nat.le_of_lt_succ hfuel
  rw [Console.getToken, Console.getTokenLoop_of_le (Nat.le_refl _) hle]
  exact getTokenLoop_took h hfuel hle

/-! ## Calls one after the other -/

theorem calls_took : ∀ {n : Nat} {s : Cursor} {line : List Char}, IsString '\x00' s.mem s.str line →
    line.length < fuel → ∃ ts s', calls fuel n s = some (ts, s') ∧
      List.Forall₂ (IsString '\x00' s'.mem) ts ((List.range n).map fun k => (words line).getD k []) ∧
      s.str ≤ s'.str ∧ s'.str ≤ s.str + line.length ∧ Cut ' ' s.mem s'.mem s.str s'.str := by
  intro n
  induction n with
  | zero =>
    intro s line _ _
    exact ⟨[], s, rfl, .nil, Nat.le_refl _, Nat.le_add_right _ _, Cut.refl _ _ _ _⟩
  | succ n ih =>
    intro s line h hfuel
    obtain ⟨t, s', heq, htook⟩ := getToken_took h hfuel
    have hends := htook.ends
    have hle := htook.le
    obtain ⟨ts, s'', heq', hts, hle', hstop, hcut⟩ := ih htook.at_rest (by omega)
    refine ⟨t :: ts, s'', ?_, ?_, by omega, by omega, htook.cut.trans hcut hle hle'⟩
    · rw [calls, heq, Option.bind_eq_bind, Option.bind_some]
      simp only [heq']
      rfl
    · -- the token stays as it is: there is no space in it for a later call to cut at
      have htoken := hcut.isString htook.at_token (Console.not_mem_getTokenLoop _ line) (by decide)
      rw [List.range_succ_eq_map, List.map_cons, List.map_map]
      refine .cons ?_ ?_
      · rw [← List.headD_eq_getD, ← Console.getToken_fst]
        exact htoken
      · have hshift : ∀ k, (words (Console.getToken line).2).getD k [] = (words line).getD (k + 1) [] := by
          intro k
          rw [Console.words_getToken_snd, List.getD_eq_getElem?_getD, List.getElem?_tail, List.getD_eq_getElem?_getD]
        simp only [hshift] at hts
        exact hts

end

/-- **The tokens of a line are its words**: any number of calls end, and return the longest runs of characters other than
spaces, in their order, and then empty strings; the pointer stays in the string, and only spaces are written over. -/
theorem calls_words {mem : Nat → Char} {start : Nat} {line : List Char} (h : IsString '\x00' mem start line)
    {fuel : Nat} (hfuel : line.length < fuel) : ∃ spans, WordsAt line spans ∧
      ∀ n, ∃ ts s, calls fuel n ⟨mem, start⟩ = some (ts, s) ∧
        List.Forall₂ (IsString '\x00' s.mem) ts ((List.range n).map fun k => (spans.map (spanned line)).getD k []) ∧
        start ≤ s.str ∧ s.str ≤ start + line.length ∧ Cut ' ' mem s.mem start s.str := by
  obtain ⟨spans, hspans, hwords⟩ := Console.words_spanned line
  refine ⟨spans, hspans, fun n => ?_⟩
  rw [← hwords]
  exact calls_took (s := ⟨mem, start⟩) h hfuel

/-- A line of the console: spaces before, between and behind its two words. -/
def padded : Nat → Char := fun a => "  m   9 ".toList.getD a '\x00'

theorem calls_words_padded : IsString '\x00' padded 0 "  m   9 ".toList ∧ "  m   9 ".toList.length < 9 ∧
    ∃ spans, WordsAt "  m   9 ".toList spans ∧ ∀ n, ∃ ts s, calls 9 n ⟨padded, 0⟩ = some (ts, s) ∧
      List.Forall₂ (IsString '\x00' s.mem) ts
        ((List.range n).map fun k => (spans.map (spanned "  m   9 ".toList)).getD k []) ∧
      0 ≤ s.str ∧ s.str ≤ 0 + "  m   9 ".toList.length ∧ Cut ' ' padded s.mem 0 s.str := by
  have h : IsString '\x00' padded 0 "  m   9 ".toList := ⟨by decide, by decide, by decide⟩
  have hfuel : "  m   9 ".toList.length < 9 := by decide
  exact ⟨h, hfuel, calls_words h hfuel⟩

example : (calls 9 4 ⟨padded, 0⟩).map (fun r => (r.1, r.2.str)) = some ([2, 6, 8, 8], 8) := by decide

end TokenBuffer
end Hdmi2Usb
