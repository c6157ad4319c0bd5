import Mathlib.Algebra.Group.Nat.Defs
import Mathlib.Data.List.Infix
import Mathlib.Data.List.TakeDrop
/-!
# PrefixCodes — codes whose words need no separator

A code is a table of symbols with their words.  Where no word begins another one (`PrefixFree`), a reader finds the word
at the front of a stream (`read_append`).  The canonical code gives out the words of each length in counting order, and
goes on at the next length where it stopped (`canonical`); as long as the words of a length do not run out, it is
prefix-free (`canonical_prefixFree`).
-/
namespace Hdmi2Usb
namespace PrefixCodes

variable {α : Type*}

abbrev Table (α : Type*) := List (α × List Bool)

def PrefixFree (t : Table α) : Prop := ∀ p ∈ t, ∀ q ∈ t, p.2 <+: q.2 → p = q

/-- The symbol whose word is at the front, and what is behind it. -/
def read (t : Table α) (bits : List Bool) : Option (α × List Bool) :=
  t.findSome? fun p => if p.2 <+: bits then some (p.1, bits.drop p.2.length) else none

theorem read_append {t : Table α} (ht : PrefixFree t) {s : α} {c : List Bool} (hmem : (s, c) ∈ t) (rest : List Bool) :
    read t (c ++ rest) = some (s, rest) := by
  have hself : c <+: c ++ rest := List.prefix_append c rest
  -- every word at the front of the stream begins `c`, or `c` begins it
  have honly : ∀ p ∈ t, p.2 <+: c ++ rest → p = (s, c) := by
    intro p hp hfront
    rcases List.prefix_or_prefix_of_prefix hfront hself with h | h
    · exact ht p hp (s, c) hmem h
    · exact (ht (s, c) hmem p hp h).symm
  clear ht
  induction t with
  | nil => cases hmem
  | cons q t ih =>
    by_cases hfront : q.2 <+: c ++ rest
    · obtain rfl := honly q List.mem_cons_self hfront
      simp [read]
    · have hne : (s, c) ≠ q := fun h => hfront (h ▸ hself)
      have hread : read (q :: t) (c ++ rest) = read t (c ++ rest) := by simp [read, hfront]
      rw [hread]
      exact ih (List.mem_of_ne_of_mem hne hmem) fun p hp => honly p (List.mem_cons_of_mem _ hp)

/-- The word of a symbol; a symbol that has none gets an empty one. -/
def code [DecidableEq α] (t : Table α) (s : α) : List Bool := ((t.find? fun p => p.1 = s).map Prod.snd).getD []

theorem code_mem [DecidableEq α] {t : Table α} {s : α} (h : s ∈ t.map Prod.fst) : (s, code t s) ∈ t := by
  obtain ⟨p, hp, rfl⟩ := List.mem_map.1 h
  cases hfind : t.find? fun q => q.1 = p.1 with
  | none =>
    rw [List.find?_eq_none] at hfind
    exact (hfind p hp (decide_eq_true rfl)).elim
  | some q =>
    have hsym : q.1 = p.1 := by simpa using List.find?_some hfind
    have hcode : code t p.1 = q.2 := by rw [code, hfind]; rfl
    rw [hcode, ← hsym]
    exact List.mem_of_find?_eq_some hfind

theorem read_code [DecidableEq α] {t : Table α} (ht : PrefixFree t) {s : α} (h : s ∈ t.map Prod.fst) (rest : List Bool) :
    read t (code t s ++ rest) = some (s, rest) := read_append ht (code_mem h) rest

/-! ## Words as numbers -/

/-- The low `n` bits of a number, the most significant first. -/
def word : Nat → Nat → List Bool
  | 0, _     => []
  | n + 1, v => v.testBit n :: word n v

def value (bits : List Bool) : Nat := bits.foldl (fun v b => 2 * v + b.toNat) 0

@[simp] theorem length_word : ∀ n v : Nat, (word n v).length = n
  | 0, _     => rfl
  | n + 1, v => congrArg (· + 1) (length_word n v)

theorem getElem_word : ∀ (n v i : Nat) (h : i < (word n v).length), (word n v)[i] = v.testBit (n - 1 - i)
  | 0, _, _, h         => absurd h (Nat.not_lt_zero _)
  | _ + 1, _, 0, _     => rfl
  | n + 1, v, i + 1, h => by
    have hi : i < (word n v).length := Nat.lt_of_succ_lt_succ h
    have hidx : n - 1 - i = n + 1 - 1 - (i + 1) := by omega
    show (word n v)[i] = _
    rw [getElem_word n v i hi, hidx]

@[simp] theorem value_nil : value [] = 0 := rfl

theorem value_concat (bits : List Bool) (b : Bool) : value (bits ++ [b]) = 2 * value bits + b.toNat := by
  rw [value, List.foldl_append]
  rfl

theorem value_foldl (bits : List Bool) :
    ∀ v, bits.foldl (fun v b => 2 * v + b.toNat) v = v * 2 ^ bits.length + value bits := by
  induction bits using List.reverseRecOn with
  | nil => intro v; simp
  | append_singleton bits b ih =>
    intro v
    rw [List.foldl_append, ih v, value_concat, List.length_append, List.length_singleton, Nat.pow_succ]
    simp only [List.foldl_cons, List.foldl_nil]
    rw [Nat.mul_add, Nat.mul_comm 2 (v * _), Nat.mul_assoc, Nat.add_assoc]

theorem value_cons (b : Bool) (bits : List Bool) : value (b :: bits) = b.toNat * 2 ^ bits.length + value bits := by
  rw [value, List.foldl_cons, value_foldl, Nat.mul_zero, Nat.zero_add]

theorem value_word : ∀ n v : Nat, value (word n v) = v % 2 ^ n
  | 0, v     => by simp [word, Nat.mod_one]
  | n + 1, v => by
    rw [word, value_cons, length_word, value_word n v, Nat.toNat_testBit, Nat.mod_pow_succ, Nat.mul_comm, Nat.add_comm]

theorem value_lt (bits : List Bool) : value bits < 2 ^ bits.length := by
  induction bits with
  | nil => exact Nat.one_pos
  | cons b bits ih =>
    have hbit : b.toNat ≤ 1 := Bool.toNat_le b
    have hmul : b.toNat * 2 ^ bits.length ≤ 1 * 2 ^ bits.length := Nat.mul_le_mul_right _ hbit
    rw [value_cons, List.length_cons, Nat.pow_succ]
    omega

/-- The bits of a number above the `n`-th do not count. -/
theorem word_mod (n v : Nat) : word n (v % 2 ^ n) = word n v := by
  refine List.ext_getElem (by simp) fun i hi _ => ?_
  rw [length_word] at hi
  rw [getElem_word, getElem_word, Nat.testBit_mod_two_pow, decide_eq_true (by omega), Bool.true_and]

theorem word_value : ∀ bits : List Bool, word bits.length (value bits) = bits
  | []        => rfl
  | b :: bits => by
    have hlt := value_lt bits
    have htop : (value (b :: bits)).testBit bits.length = b := by
      rw [value_cons, Nat.testBit_eq_decide_div_mod_eq, Nat.mul_comm, Nat.mul_add_div (Nat.two_pow_pos _),
        Nat.div_eq_of_lt hlt]
      cases b <;> rfl
    rw [List.length_cons, word, htop, ← word_mod, value_cons, Nat.mul_comm, Nat.mul_add_mod, Nat.mod_eq_of_lt hlt,
      word_value bits]

theorem value_take_succ (bits : List Bool) {n : Nat} (h : n < bits.length) :
    value (bits.take n) = value (bits.take (n + 1)) / 2 := by
  rw [List.take_succ_eq_append_getElem h, value_concat]
  have hbit : (bits[n]).toNat < 2 := Bool.toNat_lt _
  omega

/-! ## The canonical code -/

/-- The words of `len` bits from `code` on, `counts` of this length and of the longer ones. -/
def assign (code : Nat) : Nat → List Nat → List α → Table α
  | _, [], _               => []
  | len, n :: counts, syms =>
    ((syms.take n).zipIdx code).map (fun p => (p.1, word len p.2)) ++
      assign ((code + n) * 2) (len + 1) counts (syms.drop n)

/-- The canonical code: `counts` are the numbers of the words of one bit, of two bits and so on. -/
def canonical (counts : List Nat) (syms : List α) : Table α := assign 0 1 counts syms

/-- No length has more words than are left for it. -/
def Fits (code : Nat) : Nat → List Nat → Prop
  | _, []            => True
  | len, n :: counts => code + n ≤ 2 ^ len ∧ Fits ((code + n) * 2) (len + 1) counts

instance decidableFits : ∀ (code len : Nat) (counts : List Nat), Decidable (Fits code len counts)
  | _, _, []                 => isTrue trivial
  | code, len, n :: counts => @instDecidableAnd _ _ _ (decidableFits ((code + n) * 2) (len + 1) counts)

/-- The words of one length. -/
theorem mem_level {code len n : Nat} {syms : List α} {p : α × List Bool}
    (h : p ∈ ((syms.take n).zipIdx code).map fun p => (p.1, word len p.2)) :
    ∃ k, ∃ hk : k < syms.length, k < n ∧ p = (syms[k], word len (code + k)) := by
  obtain ⟨⟨s, c⟩, hmem, rfl⟩ := List.mem_map.1 h
  rw [List.mk_mem_zipIdx_iff_le_and_getElem?_sub] at hmem
  obtain ⟨hle, hget⟩ := hmem
  obtain ⟨hlt, hval⟩ := List.getElem?_eq_some_iff.1 hget
  rw [List.length_take] at hlt
  refine ⟨c - code, by omega, by omega, ?_⟩
  rw [← hval, List.getElem_take, Nat.add_sub_cancel' hle]

/-- A word that is given out from `code` on has at least `len` bits, and begins with a number from `code` on. -/
theorem assign_from (code : Nat) : ∀ (len : Nat) (counts : List Nat) (syms : List α), Fits code len counts →
    ∀ p ∈ assign code len counts syms, len ≤ p.2.length ∧ code ≤ value (p.2.take len)
  | _, [], _, _, _, hp => by cases hp
  | len, n :: counts, syms, hfits, p, hp => by
    obtain ⟨hroom, hrest⟩ := hfits
    rcases List.mem_append.1 hp with hlevel | hlonger
    · obtain ⟨k, -, hk, rfl⟩ := mem_level hlevel
      have hlt : code + k < 2 ^ len := by omega
      refine ⟨(length_word len _).ge, ?_⟩
      rw [List.take_of_length_le (length_word len _).le, value_word, Nat.mod_eq_of_lt hlt]
      exact Nat.le_add_right code k
    · obtain ⟨hlen, hval⟩ := assign_from ((code + n) * 2) (len + 1) counts _ hrest p hlonger
      refine ⟨Nat.le_of_succ_le hlen, ?_⟩
      rw [value_take_succ p.2 hlen]
      omega

theorem assign_prefixFree (code : Nat) : ∀ (len : Nat) (counts : List Nat) (syms : List α), syms.Nodup →
    Fits code len counts → PrefixFree (assign code len counts syms)
  | _, [], _, _, _ => fun _ hp => by cases hp
  | len, n :: counts, syms, hnodup, hfits => by
    obtain ⟨hroom, hrest⟩ := hfits
    have hfree := assign_prefixFree ((code + n) * 2) (len + 1) counts (syms.drop n) hnodup.drop hrest
    -- a longer word begins with a number that no word of this length has
    have hover : ∀ p ∈ assign ((code + n) * 2) (len + 1) counts (syms.drop n), code + n ≤ value (p.2.take len) := by
      intro p hp
      obtain ⟨hlen, hval⟩ := assign_from _ (len + 1) counts _ hrest p hp
      rw [value_take_succ p.2 hlen]
      omega
    have hnum : ∀ k < n, value (word len (code + k)) = code + k := by
      intro k hk
      rw [value_word, Nat.mod_eq_of_lt (by omega)]
    intro p hp q hq hpre
    rcases List.mem_append.1 hp with hp | hp <;> rcases List.mem_append.1 hq with hq | hq
    · obtain ⟨j, hj, hjn, rfl⟩ := mem_level hp
      obtain ⟨k, hk, hkn, rfl⟩ := mem_level hq
      have heq : word len (code + j) = word len (code + k) := hpre.eq_of_length (by simp)
      have hval := congrArg value heq
      rw [hnum j hjn, hnum k hkn] at hval
      obtain rfl : j = k := Nat.add_left_cancel hval
      rfl
    · obtain ⟨k, hk, hkn, rfl⟩ := mem_level hp
      have htake := List.prefix_iff_eq_take.1 hpre
      have hge := hover q hq
      rw [length_word] at htake
      rw [← htake, hnum k hkn] at hge
      omega
    · obtain ⟨k, hk, hkn, rfl⟩ := mem_level hq
      have hlen := (assign_from _ (len + 1) counts _ hrest p hp).1
      have hle := hpre.length_le
      rw [length_word] at hle
      omega
    · exact hfree p hp q hq hpre

theorem canonical_prefixFree {counts : List Nat} {syms : List α} (hnodup : syms.Nodup) (hfits : Fits 0 1 counts) :
    PrefixFree (canonical counts syms) := assign_prefixFree 0 1 counts syms hnodup hfits

end PrefixCodes
end Hdmi2Usb
