import Mathlib.Data.Nat.ModEq
import Mathlib.Logic.Function.Basic
/-!
# Ring — a queue in a ring of cells

Two indexes run round `n` cells: an item is put at `produce` and taken at `consume`.  The queue is empty where the two
meet, and so that a full one is not taken for it, one cell is always left free.  `Holds` says which items are pending;
`Holds.put` and `Holds.take` are the two operations, and `Fifo.offer` is what putting comes to when a full queue drops
the item.
-/
namespace Hdmi2Usb

/-! ## A queue of bounded length -/

namespace Fifo

variable {α : Type*}

/-- An item offered to a queue that holds at most `k`. -/
def offer (k : Nat) (pending : List α) (a : α) : List α := if pending.length < k then pending ++ [a] else pending

theorem length_offer_le {k : Nat} {pending : List α} (h : pending.length ≤ k) (a : α) :
    (offer k pending a).length ≤ k := by
  unfold offer
  split
  next hlt =>
    rw [List.length_append, List.length_singleton]
    exact hlt
  next => exact h

/-- Of some items offered in a row the first are taken, until the queue is full. -/
theorem foldl_offer (k : Nat) : ∀ (as : List α) (pending : List α), pending.length ≤ k →
    as.foldl (offer k) pending = pending ++ as.take (k - pending.length)
  | [], pending, _ => by simp
  | a :: as, pending, h => by
    rw [List.foldl_cons, foldl_offer k as _ (length_offer_le h a)]
    by_cases hlt : pending.length < k
    · obtain ⟨d, hd⟩ := Nat.exists_eq_add_of_lt hlt
      have hleft : k - pending.length = d + 1 := by omega
      have hnext : k - (pending.length + 1) = d := by omega
      rw [offer, if_pos hlt, List.length_append, List.length_singleton, hleft, hnext, List.take_succ_cons,
        List.append_assoc, List.singleton_append]
    · have hleft : k - pending.length = 0 := by omega
      rw [offer, if_neg hlt, hleft, List.take_zero, List.take_zero]

end Fifo

/-! ## The ring -/

namespace Ring

variable {α : Type*} {n : Nat} {buf : Nat → α} {produce consume : Nat} {pending : List α}

/-- The ring of `n` cells has `pending` in it, the oldest at `consume`. -/
structure Holds (n : Nat) (buf : Nat → α) (produce consume : Nat) (pending : List α) : Prop where
  consume_lt : consume < n
  length_lt  : pending.length < n
  produce_eq : produce = (consume + pending.length) % n
  cell       : ∀ i (h : i < pending.length), buf ((consume + i) % n) = pending[i]

theorem holds_nil (buf : Nat → α) {i : Nat} (h : i < n) : Holds n buf i i [] where
  consume_lt := h
  length_lt  := Nat.zero_lt_of_lt h
  produce_eq := (Nat.mod_eq_of_lt h).symm
  cell _ hi  := absurd hi (Nat.not_lt_zero _)

/-- Less than a whole turn apart, two places of the ring differ. -/
theorem add_mod_ne {i j : Nat} (hij : i < j) (hj : j < n) : (consume + i) % n ≠ (consume + j) % n := by
  intro heq
  have hmod : Nat.ModEq n i j := Nat.ModEq.add_left_cancel' consume heq
  have hi : i < n := Nat.lt_trans hij hj
  have := Nat.ModEq.eq_of_lt_of_lt hmod hi hj
  omega

theorem Holds.empty_iff (h : Holds n buf produce consume pending) : consume = produce ↔ pending = [] := by
  have hself : (consume + 0) % n = consume := Nat.mod_eq_of_lt h.consume_lt
  constructor
  · intro heq
    by_contra hne
    have hpos : 0 < pending.length := List.length_pos_iff.2 hne
    apply add_mod_ne hpos h.length_lt
    rw [hself, ← h.produce_eq]
    exact heq
  · rintro rfl
    rw [h.produce_eq, List.length_nil, hself]

theorem Holds.full_iff (h : Holds n buf produce consume pending) :
    (produce + 1) % n = consume ↔ pending.length + 1 = n := by
  have hnext : (produce + 1) % n = (consume + (pending.length + 1)) % n := by
    rw [h.produce_eq, Nat.mod_add_mod, Nat.add_assoc]
  have hself : (consume + 0) % n = consume := Nat.mod_eq_of_lt h.consume_lt
  rw [hnext]
  constructor
  · intro heq
    by_contra hne
    have hlt : pending.length + 1 < n := Nat.lt_of_le_of_ne h.length_lt hne
    exact add_mod_ne (Nat.succ_pos _) hlt (hself.trans heq.symm)
  · intro hlen
    rw [hlen, Nat.add_mod_right]
    exact hself

/-- Putting an item into a ring that is not full changes no cell of a pending one. -/
theorem Holds.put (h : Holds n buf produce consume pending) (hroom : pending.length + 1 < n) (a : α) :
    Holds n (Function.update buf produce a) ((produce + 1) % n) consume (pending ++ [a]) where
  consume_lt := h.consume_lt
  length_lt := by
    rw [List.length_append, List.length_singleton]
    exact hroom
  produce_eq := by
    rw [h.produce_eq, Nat.mod_add_mod, Nat.add_assoc, List.length_append, List.length_singleton]
  cell i hi := by
    rw [List.length_append, List.length_singleton] at hi
    rcases Nat.lt_succ_iff_lt_or_eq.1 hi with hlt | rfl
    · have hne : (consume + i) % n ≠ produce := by
        rw [h.produce_eq]
        exact add_mod_ne hlt h.length_lt
      rw [Function.update_of_ne hne, h.cell i hlt, List.getElem_append_left hlt]
    · rw [← h.produce_eq, Function.update_self, List.getElem_append_right (Nat.le_refl _)]
      simp

theorem Holds.head {a : α} (h : Holds n buf produce consume (a :: pending)) : buf consume = a := by
  have hcell := h.cell 0 (Nat.succ_pos _)
  rwa [Nat.add_zero, Nat.mod_eq_of_lt h.consume_lt] at hcell

theorem Holds.take {a : α} (h : Holds n buf produce consume (a :: pending)) :
    Holds n buf produce ((consume + 1) % n) pending where
  consume_lt := Nat.mod_lt _ (Nat.zero_lt_of_lt h.consume_lt)
  length_lt := Nat.lt_of_succ_lt h.length_lt
  produce_eq := by
    rw [h.produce_eq, Nat.mod_add_mod, List.length_cons]
    congr 1
    omega
  cell i hi := by
    have hcell := h.cell (i + 1) (Nat.succ_lt_succ hi)
    rw [Nat.mod_add_mod, Nat.add_assoc, Nat.add_comm 1 i]
    exact hcell

end Ring
end Hdmi2Usb
