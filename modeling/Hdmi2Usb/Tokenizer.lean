import Mathlib.Algebra.Group.Int.Defs
import Mathlib.Data.List.TakeWhile
/-!
# Tokenizer — how the console cuts a command line (`ci.c`)

A command line is a string in place; a token is what lies before the next delimiter, and `getToken` passes over the
empty tokens that repeated spaces make.  At the end of the line it returns an empty token.  `getToken_fst` and
`words_getToken_snd` say what that comes to: the tokens are the words of the line, one after the other, and
`words_spanned` says where in the line those are.
-/
namespace Hdmi2Usb
namespace Console

def isSpace (c : Char) : Bool := c = ' ' || c = '\t' || c = '\n' || c = '\x0b' || c = '\x0c' || c = '\r'

def digits (cs : List Char) : Nat :=
  (cs.takeWhile Char.isDigit).foldl (fun n c => 10 * n + (c.toNat - '0'.toNat)) 0

/-- `atoi`, of the C library: white space, a sign and digits.  What a value out of the range of an `int` gives is left open
by the library; here it is the nearest `int`, as with `strtol`. -/
def atoi (cs : List Char) : Int :=
  match cs.dropWhile isSpace with
  | '-' :: cs => max (-2 ^ 31) (-(digits cs : Int))
  | '+' :: cs => min (2 ^ 31 - 1) (digits cs)
  | cs        => min (2 ^ 31 - 1) (digits cs)

/-- `get_token_generic`: the token before the delimiter, or all that is left; and where the string goes on. -/
def getTokenGeneric (str : List Char) (delimiter : Char) : List Char × List Char :=
  if delimiter ∈ str then (str.takeWhile (· ≠ delimiter), (str.dropWhile (· ≠ delimiter)).tail) else (str, [])

/-- The loop of `get_token`.  Every turn that goes on shortens the string, so `fuel` only has to start no smaller. -/
def getTokenLoop : Nat → List Char → List Char × List Char
  | 0, str => getTokenGeneric str ' '
  | fuel + 1, str =>
    let t := getTokenGeneric str ' '
    if t.1 = [] ∧ t.2 ≠ [] then getTokenLoop fuel t.2 else t

def getToken (str : List Char) : List Char × List Char := getTokenLoop str.length str

/-! ## Words -/

/-- The words of a line: its longest runs of characters other than spaces. -/
def words (str : List Char) : List (List Char) := (str.splitOn ' ').filter (· ≠ [])

/-- A delimiter ends the token before it, and the string goes on behind it. -/
theorem getTokenGeneric_append {str : List Char} {d : Char} (h : d ∈ str) :
    str = (getTokenGeneric str d).1 ++ d :: (getTokenGeneric str d).2 ∧ d ∉ (getTokenGeneric str d).1 := by
  unfold getTokenGeneric
  rw [if_pos h]
  have hdrop : str.dropWhile (· ≠ d) ≠ [] := by
    rw [ne_eq, List.dropWhile_eq_nil_iff]
    intro hall
    simpa using hall d h
  have hhead : (str.dropWhile (· ≠ d)).head hdrop = d := by
    have := List.head_dropWhile_not (p := (· ≠ d)) hdrop
    simpa using this
  constructor
  · have happ := List.takeWhile_append_dropWhile (p := (· ≠ d)) (l := str)
    rw [← List.cons_head_tail hdrop, hhead] at happ
    exact happ.symm
  · intro hmem
    have := List.mem_takeWhile_imp hmem
    simp at this

theorem words_getTokenGeneric {str : List Char} (h : ' ' ∈ str) :
    words str = (if (getTokenGeneric str ' ').1 = [] then [] else [(getTokenGeneric str ' ').1]) ++
      words (getTokenGeneric str ' ').2 := by
  obtain ⟨happ, hnot⟩ := getTokenGeneric_append h
  have hsplit := List.splitOn_append_cons_self_of_not_mem hnot (getTokenGeneric str ' ').2
  unfold words
  conv => lhs; rw [happ, hsplit]
  rw [List.filter_cons]
  by_cases ht : (getTokenGeneric str ' ').1 = []
  · simp [ht]
  · simp [ht]

theorem words_of_not_mem {str : List Char} (h : ' ' ∉ str) : words str = if str = [] then [] else [str] := by
  unfold words
  rw [List.splitOn_eq_singleton h]
  by_cases hs : str = []
  · simp [hs]
  · simp [hs]

theorem length_getTokenGeneric_lt {str : List Char} {d : Char} (h : d ∈ str) :
    (getTokenGeneric str d).2.length < str.length := by
  have hl := congrArg List.length (getTokenGeneric_append h).1
  rw [List.length_append, List.length_cons] at hl
  omega

theorem getTokenLoop_words : ∀ (fuel : Nat) (str : List Char), str.length ≤ fuel →
    (getTokenLoop fuel str).1 = (words str).headD [] ∧ words (getTokenLoop fuel str).2 = (words str).tail
  | 0, str, h => by
    have hs : str = [] := List.eq_nil_of_length_eq_zero (by omega)
    subst hs
    exact ⟨rfl, rfl⟩
  | fuel + 1, str, h => by
    unfold getTokenLoop
    simp only
    by_cases hd : ' ' ∈ str
    · have hw := words_getTokenGeneric hd
      have hlt := length_getTokenGeneric_lt hd
      by_cases ht : (getTokenGeneric str ' ').1 = []
      · rw [if_pos ht, List.nil_append] at hw
        by_cases hr : (getTokenGeneric str ' ').2 = []
        · rw [if_neg (fun hc => hc.2 hr), ht, hr, hw, hr]
          exact ⟨rfl, rfl⟩
        · rw [if_pos ⟨ht, hr⟩, hw]
          exact getTokenLoop_words fuel _ (by omega)
      · rw [if_neg (fun hc => ht hc.1), hw, if_neg ht]
        exact ⟨rfl, rfl⟩
    · have hg : getTokenGeneric str ' ' = (str, []) := by rw [getTokenGeneric, if_neg hd]
      rw [if_neg (fun hc => hc.2 (by rw [hg])), hg, words_of_not_mem hd]
      by_cases hs : str = []
      · rw [hs]
        exact ⟨rfl, rfl⟩
      · rw [if_neg hs]
        exact ⟨rfl, rfl⟩

theorem not_mem_getTokenGeneric (str : List Char) (d : Char) : d ∉ (getTokenGeneric str d).1 := by
  by_cases hd : d ∈ str
  · exact (getTokenGeneric_append hd).2
  · rwa [getTokenGeneric, if_neg hd]

theorem not_mem_getTokenLoop : ∀ (fuel : Nat) (str : List Char), ' ' ∉ (getTokenLoop fuel str).1
  | 0, str => not_mem_getTokenGeneric str ' '
  | fuel + 1, str => by
    rw [getTokenLoop]
    split
    · exact not_mem_getTokenLoop fuel _
    · exact not_mem_getTokenGeneric str ' '

/-- More fuel than the string is long makes no difference. -/
theorem getTokenLoop_of_le : ∀ {fuel fuel' : Nat} {str : List Char}, str.length ≤ fuel → str.length ≤ fuel' →
    getTokenLoop fuel str = getTokenLoop fuel' str
  | fuel, fuel', str, h, h' => by
    by_cases hgo : (getTokenGeneric str ' ').1 = [] ∧ (getTokenGeneric str ' ').2 ≠ []
    · have hlt : (getTokenGeneric str ' ').2.length < str.length := by
        refine length_getTokenGeneric_lt (by_contra fun hd => hgo.2 ?_)
        rw [getTokenGeneric, if_neg hd]
      obtain ⟨fuel, rfl⟩ := Nat.exists_eq_add_one_of_ne_zero (show fuel ≠ 0 by omega)
      obtain ⟨fuel', rfl⟩ := Nat.exists_eq_add_one_of_ne_zero (show fuel' ≠ 0 by omega)
      simp only [getTokenLoop, if_pos hgo]
      exact getTokenLoop_of_le (by omega) (by omega)
    · cases fuel <;> cases fuel' <;> simp only [getTokenLoop, if_neg hgo]
termination_by fuel => fuel

/-- **A token is the next word of the line**, and the empty token when there is none. -/
theorem getToken_fst (str : List Char) : (getToken str).1 = (words str).headD [] :=
  (getTokenLoop_words str.length str (Nat.le_refl _)).1

theorem words_getToken_snd (str : List Char) : words (getToken str).2 = (words str).tail :=
  (getTokenLoop_words str.length str (Nat.le_refl _)).2

/-! ## Where the words are -/

/-- From `i` up to `j` lies a longest run of characters other than spaces. -/
structure WordAt (str : List Char) (i j : Nat) : Prop where
  lt     : i < j
  le     : j ≤ str.length
  plain  : ∀ k, i ≤ k → k < j → str[k]? ≠ some ' '
  before : ∀ k, i = k + 1 → str[k]? = some ' '
  behind : j < str.length → str[j]? = some ' '

/-- All of them, in their order. -/
structure WordsAt (str : List Char) (spans : List (Nat × Nat)) : Prop where
  mem_iff : ∀ w, w ∈ spans ↔ WordAt str w.1 w.2
  ordered : spans.Pairwise fun w w' => w.2 < w'.1

/-- The characters of a span. -/
def spanned (str : List Char) (w : Nat × Nat) : List Char := str.extract w.1 w.2

theorem getElem?_ne_space {t : List Char} (h : ' ' ∉ t) (k : Nat) : t[k]? ≠ some ' ' :=
  fun hk => h (List.mem_of_getElem? hk)

theorem wordAt_of_not_mem {t : List Char} (h : ' ' ∉ t) (i j : Nat) :
    WordAt t i j ↔ t ≠ [] ∧ i = 0 ∧ j = t.length := by
  have hplain := getElem?_ne_space h
  constructor
  · intro hw
    have hlt := hw.lt
    have hle := hw.le
    refine ⟨?_, ?_, ?_⟩
    · rintro rfl
      rw [List.length_nil] at hle
      omega
    · cases i with
      | zero => rfl
      | succ k => exact absurd (hw.before k rfl) (hplain k)
    · by_contra hne
      exact hplain j (hw.behind (by omega))
  · rintro ⟨hne, rfl, rfl⟩
    refine ⟨List.length_pos_iff.2 hne, Nat.le_refl _, fun k _ _ => hplain k, ?_, ?_⟩
    · intro k hk
      omega
    · intro hlt
      omega

/-- The words of a line are a first one, if there is any before the first space, and those behind that space. -/
theorem wordAt_append {t : List Char} (h : ' ' ∉ t) (rest : List Char) (i j : Nat) :
    WordAt (t ++ ' ' :: rest) i j ↔ WordAt t i j ∨
      ∃ i' j', i = t.length + 1 + i' ∧ j = t.length + 1 + j' ∧ WordAt rest i' j' := by
  have hlen : (t ++ ' ' :: rest).length = t.length + 1 + rest.length := by
    rw [List.length_append, List.length_cons]
    omega
  have hfirst : ∀ k, k < t.length → (t ++ ' ' :: rest)[k]? = t[k]? := fun k hk => List.getElem?_append_left hk
  have hspace : (t ++ ' ' :: rest)[t.length]? = some ' ' := by simp
  have hrest : ∀ k, (t ++ ' ' :: rest)[t.length + 1 + k]? = rest[k]? := by
    intro k
    rw [List.getElem?_append_right (by omega), show t.length + 1 + k - t.length = k + 1 by omega]
    rfl
  constructor
  · intro hw
    have hlt := hw.lt
    have hle := hw.le
    by_cases hj : j ≤ t.length
    · left
      refine ⟨hlt, hj, ?_, ?_, ?_⟩
      · intro k hik hkj
        rw [← hfirst k (by omega)]
        exact hw.plain k hik hkj
      · intro k hk
        rw [← hfirst k (by omega)]
        exact hw.before k hk
      · intro hlt'
        rw [← hfirst j hlt']
        exact hw.behind (by omega)
    · -- a run that goes over the first space would have it in it
      have hi : t.length < i := by
        by_contra hle'
        exact hw.plain t.length (by omega) (by omega) hspace
      right
      obtain ⟨i', rfl⟩ := Nat.exists_eq_add_of_le (show t.length + 1 ≤ i by omega)
      obtain ⟨j', rfl⟩ := Nat.exists_eq_add_of_le (show t.length + 1 ≤ j by omega)
      refine ⟨i', j', rfl, rfl, by omega, by omega, ?_, ?_, ?_⟩
      · intro k hik hkj
        rw [← hrest k]
        exact hw.plain _ (by omega) (by omega)
      · intro k hk
        rw [← hrest k]
        exact hw.before _ (by omega)
      · intro hlt'
        rw [← hrest j']
        exact hw.behind (by omega)
  · rintro (hw | ⟨i', j', rfl, rfl, hw⟩)
    · have hlt := hw.lt
      have hle := hw.le
      refine ⟨hlt, by omega, ?_, ?_, ?_⟩
      · intro k hik hkj
        rw [hfirst k (by omega)]
        exact hw.plain k hik hkj
      · intro k hk
        rw [hfirst k (by omega)]
        exact hw.before k hk
      · intro _
        obtain ⟨-, -, rfl⟩ := (wordAt_of_not_mem h i j).1 hw
        exact hspace
    · have hlt := hw.lt
      have hle := hw.le
      refine ⟨by omega, by omega, ?_, ?_, ?_⟩
      · intro k hik hkj
        obtain ⟨k', rfl⟩ := Nat.exists_eq_add_of_le (show t.length + 1 ≤ k by omega)
        rw [hrest k']
        exact hw.plain k' (by omega) (by omega)
      · intro k hk
        cases i' with
        | zero =>
          obtain rfl : k = t.length := by omega
          exact hspace
        | succ i' =>
          obtain rfl : k = t.length + 1 + i' := by omega
          rw [hrest i']
          exact hw.before i' rfl
      · intro hlt'
        rw [hrest j']
        exact hw.behind (by omega)

theorem wordsAt_first {t : List Char} (h : ' ' ∉ t) : WordsAt t (if t = [] then [] else [(0, t.length)]) := by
  refine ⟨fun w => ?_, ?_⟩
  · rw [wordAt_of_not_mem h]
    by_cases ht : t = []
    · simp [ht]
    · rw [if_neg ht, List.mem_singleton, Prod.ext_iff, and_iff_right ht]
  · split
    · exact .nil
    · exact List.pairwise_singleton _ _

theorem WordsAt.append {t rest : List Char} {first spans : List (Nat × Nat)} (h : ' ' ∉ t) (hfirst : WordsAt t first)
    (hspans : WordsAt rest spans) : WordsAt (t ++ ' ' :: rest)
      (first ++ spans.map fun w => (t.length + 1 + w.1, t.length + 1 + w.2)) := by
  refine ⟨?_, ?_⟩
  · rintro ⟨i, j⟩
    rw [wordAt_append h, List.mem_append, hfirst.mem_iff, List.mem_map]
    refine or_congr_right ⟨?_, ?_⟩
    · rintro ⟨⟨i', j'⟩, hmem, heq⟩
      cases heq
      exact ⟨i', j', rfl, rfl, (hspans.mem_iff _).1 hmem⟩
    · rintro ⟨i', j', rfl, rfl, hw⟩
      exact ⟨(i', j'), (hspans.mem_iff (i', j')).2 hw, rfl⟩
  · rw [List.pairwise_append]
    refine ⟨hfirst.ordered, ?_, ?_⟩
    · rw [List.pairwise_map]
      exact hspans.ordered.imp fun hlt => by omega
    · intro w hw w' hw'
      have hle := ((hfirst.mem_iff w).1 hw).le
      obtain ⟨v, -, rfl⟩ := List.mem_map.1 hw'
      simp only
      omega

theorem spanned_append_left {t : List Char} (rest : List Char) {w : Nat × Nat} (h : WordAt t w.1 w.2) :
    spanned (t ++ rest) w = spanned t w := by
  have hlt := h.lt
  have hle := h.le
  unfold spanned
  rw [List.extract_eq_take_drop, List.extract_eq_take_drop, List.drop_append_of_le_length (by omega),
    List.take_append_of_le_length (by rw [List.length_drop]; omega)]

theorem spanned_append_right (t rest : List Char) (w : Nat × Nat) :
    spanned (t ++ ' ' :: rest) (t.length + 1 + w.1, t.length + 1 + w.2) = spanned rest w := by
  unfold spanned
  rw [List.extract_eq_take_drop, List.extract_eq_take_drop]
  have hdrop : (t ++ ' ' :: rest).drop (t.length + 1 + w.1) = rest.drop w.1 := by
    rw [Nat.add_assoc, ← List.drop_drop, List.drop_left, Nat.add_comm 1]
    rfl
  rw [hdrop, show t.length + 1 + w.2 - (t.length + 1 + w.1) = w.2 - w.1 by omega]

/-- **The words of a line are its longest runs of characters other than spaces**, in their order. -/
theorem words_spanned (str : List Char) : ∃ spans, WordsAt str spans ∧ words str = spans.map (spanned str) := by
  by_cases hspace : ' ' ∈ str
  · obtain ⟨happ, hnot⟩ := getTokenGeneric_append hspace
    have hwords := words_getTokenGeneric hspace
    have hlt := length_getTokenGeneric_lt hspace
    obtain ⟨spans, hspans, hrest⟩ := words_spanned (getTokenGeneric str ' ').2
    generalize getTokenGeneric str ' ' = g at *
    obtain ⟨t, rest⟩ := g
    simp only at *
    subst happ
    refine ⟨_, (wordsAt_first hnot).append hnot hspans, ?_⟩
    rw [hwords, hrest, List.map_append, List.map_map]
    congr 1
    · by_cases ht : t = []
      · simp [ht]
      · have hw : WordAt t 0 t.length := (wordAt_of_not_mem hnot 0 t.length).2 ⟨ht, rfl, rfl⟩
        rw [if_neg ht, if_neg ht, List.map_singleton, spanned_append_left _ (w := (0, t.length)) hw]
        simp [spanned]
    · apply List.map_congr_left
      intro w _
      exact (spanned_append_right t rest w).symm
  · refine ⟨_, wordsAt_first hspace, ?_⟩
    rw [words_of_not_mem hspace]
    by_cases hs : str = []
    · simp [hs]
    · simp [hs, spanned]
termination_by str.length

end Console
end Hdmi2Usb
