import Mathlib.Data.BitVec
/-!
# Memory — byte memory, copies and big-endian words

A memory is a function from addresses to cells.  `window` reads a run of cells as a list and `store` writes one, so
`memcpy` and `memmove` are `store` of a `window`.  Words are read and written most significant byte first.
-/
namespace Hdmi2Usb

abbrev Byte := BitVec 8

namespace Memory

section Cells

variable {β : Type*}

/-- The `n` cells from `p` on. -/
def window (m : Nat → β) (p n : Nat) : List β := (List.range n).map (fun i => m (p + i))

def store (m : Nat → β) (p : Nat) (bs : List β) : Nat → β :=
  fun a => if p ≤ a then (bs[a - p]?).getD (m a) else m a

/-- `memmove`, and `memcpy` where the ranges do not overlap. -/
def move (m : Nat → β) (dst src n : Nat) : Nat → β := store m dst (window m src n)

@[simp] theorem length_window (m : Nat → β) (p n : Nat) : (window m p n).length = n := by simp [window]

@[simp] theorem window_zero (m : Nat → β) (p : Nat) : window m p 0 = [] := rfl

@[simp] theorem getElem?_window (m : Nat → β) (p n i : Nat) :
    (window m p n)[i]? = if i < n then some (m (p + i)) else none := by
  simp only [window, List.getElem?_map]
  split <;> simp_all

theorem window_congr {m m' : Nat → β} {p n : Nat} (h : ∀ i, i < n → m (p + i) = m' (p + i)) :
    window m p n = window m' p n := by
  apply List.map_congr_left
  intro i hi
  exact h i (List.mem_range.1 hi)

theorem window_succ (m : Nat → β) (p n : Nat) : window m p (n + 1) = m p :: window m (p + 1) n := by
  simp only [window, List.range_succ_eq_map, List.map_cons, List.map_map, Nat.add_zero]
  congr 1
  apply List.map_congr_left
  intro i _
  simp only [Function.comp_apply, Nat.succ_eq_add_one]
  congr 1
  omega

theorem window_add (m : Nat → β) (p a b : Nat) : window m p (a + b) = window m p a ++ window m (p + a) b := by
  simp only [window, List.range_add, List.map_append, List.map_map]
  congr 1
  apply List.map_congr_left
  intro i _
  simp [Nat.add_assoc]

theorem drop_window (m : Nat → β) (p n k : Nat) : (window m p n).drop k = window m (p + k) (n - k) := by
  by_cases h : k ≤ n
  · obtain ⟨d, rfl⟩ := Nat.exists_eq_add_of_le h
    rw [window_add, List.drop_left' (length_window m p k), Nat.add_sub_cancel_left]
  · have h0 : n - k = 0 := by omega
    rw [h0, window_zero, List.drop_eq_nil_iff, length_window]
    omega

theorem take_window (m : Nat → β) (p n k : Nat) (h : k ≤ n) : (window m p n).take k = window m p k := by
  obtain ⟨d, rfl⟩ := Nat.exists_eq_add_of_le h
  rw [window_add, List.take_left' (length_window m p k)]

theorem store_of_lt (m : Nat → β) {p a : Nat} (bs : List β) (h : a < p) : store m p bs a = m a := by
  simp [store, Nat.not_le.2 h]

theorem store_of_ge (m : Nat → β) {p a : Nat} (bs : List β) (h : p + bs.length ≤ a) : store m p bs a = m a := by
  have hn : bs[a - p]? = none := List.getElem?_eq_none (by omega)
  simp [store, hn]

theorem window_store (m : Nat → β) (p : Nat) (bs : List β) : window (store m p bs) p bs.length = bs := by
  apply List.ext_getElem?
  intro i
  rw [getElem?_window]
  split
  · rename_i hi
    simp [store, hi]
  · rename_i hi
    exact (List.getElem?_eq_none (by omega)).symm

theorem window_store_of_le (m : Nat → β) {p q n : Nat} (bs : List β) (h : p + n ≤ q) :
    window (store m q bs) p n = window m p n :=
  window_congr fun i hi => store_of_lt m bs (by omega)

theorem window_store_append (m : Nat → β) (p n : Nat) (bs : List β) :
    window (store m (p + n) bs) p (n + bs.length) = window m p n ++ bs := by
  rw [window_add, window_store_of_le m bs (Nat.le_refl _), window_store]

@[simp] theorem store_nil (m : Nat → β) (p : Nat) : store m p [] = m := by
  funext a
  simp [store]

theorem store_apply (m : Nat → β) (p : Nat) {bs : List β} {i : Nat} (h : i < bs.length) :
    store m p bs (p + i) = bs[i] := by
  simp [store, h]

/-- Two runs of cells stored one behind the other are one. -/
theorem store_append (m : Nat → β) (p : Nat) (as bs : List β) :
    store (store m p as) (p + as.length) bs = store m p (as ++ bs) := by
  funext a
  by_cases hp : p ≤ a
  · obtain ⟨i, rfl⟩ := Nat.exists_eq_add_of_le hp
    by_cases hi : i < as.length
    · rw [store_of_lt _ _ (by omega), store_apply m p hi, store_apply m p (by simp; omega), List.getElem_append_left hi]
    · obtain ⟨j, rfl⟩ := Nat.exists_eq_add_of_le (Nat.le_of_not_lt hi)
      by_cases hj : j < bs.length
      · rw [← Nat.add_assoc, store_apply _ _ hj, Nat.add_assoc, store_apply m p (by simp; omega)]
        simp
      · rw [← Nat.add_assoc, store_of_ge _ _ (by omega), store_of_ge m _ (by omega), store_of_ge m _ (by simp; omega)]
  · rw [store_of_lt _ _ (by omega), store_of_lt _ _ (by omega), store_of_lt _ _ (by omega)]

/-- A cell stored over one of a run. -/
theorem store_set (m : Nat → β) (p : Nat) (as : List β) {i : Nat} (h : i < as.length) (b : β) :
    store (store m p as) (p + i) [b] = store m p (as.set i b) := by
  funext a
  by_cases hp : p ≤ a
  · obtain ⟨j, rfl⟩ := Nat.exists_eq_add_of_le hp
    by_cases hj : j < as.length
    · rw [store_apply m p (by simpa using hj), List.getElem_set]
      by_cases hij : i = j
      · subst hij
        rw [if_pos rfl]
        simp [store]
      · rw [if_neg hij]
        by_cases hlt : j < i
        · rw [store_of_lt _ _ (by omega), store_apply m p hj]
        · rw [store_of_ge _ _ (by simp; omega), store_apply m p hj]
    · rw [store_of_ge _ _ (by simp; omega), store_of_ge m _ (by omega), store_of_ge m _ (by simp; omega)]
  · rw [store_of_lt _ _ (by omega), store_of_lt _ _ (by omega), store_of_lt _ _ (by omega)]

theorem window_move (m : Nat → β) (dst src n : Nat) : window (move m dst src n) dst n = window m src n := by
  have := window_store m dst (window m src n)
  rwa [length_window] at this

/-! ## Writes one by one -/

/-- The writes of a run of cells, each with its address. -/
def writes (bs : List β) (p : Nat) : List (Nat × β) := (bs.zipIdx p).map Prod.swap

/-- Memory after some writes. -/
def written (ws : List (Nat × β)) (m : Nat → β) : Nat → β := ws.foldl (fun m w => store m w.1 [w.2]) m

@[simp] theorem writes_nil (p : Nat) : writes ([] : List β) p = [] := rfl

@[simp] theorem writes_cons (b : β) (bs : List β) (p : Nat) : writes (b :: bs) p = (p, b) :: writes bs (p + 1) := by
  simp [writes, List.zipIdx_cons]

@[simp] theorem length_writes (bs : List β) (p : Nat) : (writes bs p).length = bs.length := by simp [writes]

theorem writes_append (as bs : List β) (p : Nat) : writes (as ++ bs) p = writes as p ++ writes bs (p + as.length) := by
  simp [writes, List.zipIdx_append]

theorem mem_fst_writes {bs : List β} {p a : Nat} : (∃ b, (a, b) ∈ writes bs p) ↔ p ≤ a ∧ a < p + bs.length := by
  constructor
  · rintro ⟨b, hmem⟩
    obtain ⟨⟨c, i⟩, hzip, heq⟩ := List.mem_map.1 hmem
    obtain rfl : i = a := congrArg Prod.fst heq
    have hlt := List.snd_lt_add_of_mem_zipIdx hzip
    exact ⟨List.le_snd_of_mem_zipIdx hzip, by omega⟩
  · rintro ⟨hle, hlt⟩
    refine ⟨bs[a - p], List.mem_map.2 ⟨(bs[a - p], a), ?_, rfl⟩⟩
    rw [List.mem_zipIdx_iff_le_and_getElem?_sub]
    exact ⟨hle, List.getElem?_eq_getElem (by omega)⟩

theorem written_writes (bs : List β) : ∀ (p : Nat) (m : Nat → β), written (writes bs p) m = store m p bs := by
  induction bs with
  | nil =>
    intro p m
    exact (store_nil m p).symm
  | cons b bs ih =>
    intro p m
    rw [writes_cons, written, List.foldl_cons]
    exact (ih (p + 1) _).trans (store_append m p [b] bs)

end Cells

/-! ## Big-endian words -/

def be16 (m : Nat → Byte) (p : Nat) : BitVec 16 := m p ++ m (p + 1)

def be32 (m : Nat → Byte) (p : Nat) : BitVec 32 := m p ++ m (p + 1) ++ m (p + 2) ++ m (p + 3)

def bytes32 (w : BitVec 32) : List Byte :=
  [w.extractLsb' 24 8, w.extractLsb' 16 8, w.extractLsb' 8 8, w.extractLsb' 0 8]

@[simp] theorem length_bytes32 (w : BitVec 32) : (bytes32 w).length = 4 := rfl

theorem be32_of_bytes (w : BitVec 32) :
    (w.extractLsb' 24 8 ++ w.extractLsb' 16 8 ++ w.extractLsb' 8 8 ++ w.extractLsb' 0 8 : BitVec 32) = w := by
  apply BitVec.eq_of_getElem_eq
  intro i hi
  simp only [BitVec.getElem_append, BitVec.getElem_extractLsb']
  have h : i < 8 ∨ (8 ≤ i ∧ i < 16) ∨ (16 ≤ i ∧ i < 24) ∨ 24 ≤ i := by omega
  rcases h with h | ⟨h1, h2⟩ | ⟨h1, h2⟩ | h
  · simp [h, hi]
  · simp [show ¬ i < 8 by omega, show i - 8 < 8 by omega, show 8 + (i - 8) = i by omega, hi]
  · simp [show ¬ i < 8 by omega, show ¬ i - 8 < 8 by omega, show i - 8 - 8 < 8 by omega,
      show 16 + (i - 8 - 8) = i by omega, hi]
  · simp [show ¬ i < 8 by omega, show ¬ i - 8 < 8 by omega, show ¬ i - 8 - 8 < 8 by omega,
      show 24 + (i - 8 - 8 - 8) = i by omega, hi]

theorem extractLsb'_append_low {m n : Nat} (x : BitVec m) (y : BitVec n) : (x ++ y).extractLsb' 0 n = y := by
  apply BitVec.eq_of_getLsbD_eq
  intro i hi
  simp [BitVec.getLsbD_append, hi]

theorem extractLsb'_append_high {m n : Nat} (x : BitVec m) (y : BitVec n) (k l : Nat) :
    (x ++ y).extractLsb' (k + n) l = x.extractLsb' k l := by
  apply BitVec.eq_of_getLsbD_eq
  intro i hi
  simp only [BitVec.getLsbD_extractLsb', BitVec.getLsbD_append]
  rw [if_neg (by omega)]
  congr 2
  omega

theorem bytes32_append (a b c d : Byte) : bytes32 (a ++ b ++ c ++ d) = [a, b, c, d] := by
  have hd := extractLsb'_append_low (a ++ b ++ c) d
  have hc := extractLsb'_append_high (a ++ b ++ c) d 0 8
  have hb := extractLsb'_append_high (a ++ b ++ c) d 8 8
  have ha := extractLsb'_append_high (a ++ b ++ c) d 16 8
  rw [extractLsb'_append_low] at hc
  rw [extractLsb'_append_high (a ++ b) c 0 8, extractLsb'_append_low] at hb
  rw [extractLsb'_append_high (a ++ b) c 8 8, extractLsb'_append_high a b 0 8, BitVec.extractLsb'_eq_self] at ha
  simp only [bytes32, ha, hb, hc, hd]

theorem be32_store (m : Nat → Byte) (p : Nat) (w : BitVec 32) : be32 (store m p (bytes32 w)) p = w := by
  simp only [be32, store, Nat.le_refl, Nat.le_add_right, if_true, Nat.sub_self, Nat.add_sub_cancel_left, bytes32]
  exact be32_of_bytes w

theorem be32_congr {m m' : Nat → Byte} {p : Nat} (h : ∀ i, i < 4 → m (p + i) = m' (p + i)) :
    be32 m p = be32 m' p := by
  simp only [be32, h 1 (by decide), h 2 (by decide), h 3 (by decide)]
  rw [show m p = m' p from h 0 (by decide)]

end Memory
end Hdmi2Usb
