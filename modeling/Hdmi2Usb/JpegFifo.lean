import Hdmi2Usb.Memory
import Hdmi2Usb.Rle
import Hdmi2Usb.Runs
/-!
# JpegFifo — the queues between the stages of the JPEG encoder (`FIFO.vhd`, `RleDoubleFifo.vhd`, `DoubleFifo.vhd`)

A FIFO is a RAM with a write and a read address, a count, and registered flags.  `Fifo.Holds` says which items are in it;
a step with any requests keeps it (`Fifo.Holds.step`), and what is read is what was written, in its order
(`fifo_queues`).  A double FIFO writes one of two FIFOs while the other one is read.
-/
namespace Hdmi2Usb
namespace JpegFifo

open Runs (AllSteps)

variable {w : ℕ} {α : Type*}

/-! ## FIFO -/

/-- The registers of a FIFO of `2 ^ w` items; `mem` and `readAddr` are those of its RAM. -/
structure Fifo (w : ℕ) (α : Type*) where
  raddrReg : BitVec w
  waddrReg : BitVec w
  countReg : BitVec (w + 1)
  emptyReg : Bool
  fullReg  : Bool
  mem      : BitVec w → α
  readAddr : BitVec w

def Fifo.datao (f : Fifo w α) : α := f.mem f.readAddr

def Fifo.rdEnReg (f : Fifo w α) (rinc : Bool) : Bool := rinc && !f.emptyReg

def Fifo.wrEnReg (f : Fifo w α) (winc : Bool) : Bool := winc && !f.fullReg

/-- A clock edge. -/
def Fifo.step (f : Fifo w α) (rinc winc : Bool) (datai : α) : Fifo w α where
  raddrReg := if f.rdEnReg rinc then f.raddrReg + 1 else f.raddrReg
  waddrReg := if f.wrEnReg winc then f.waddrReg + 1 else f.waddrReg
  countReg :=
    if (f.rdEnReg rinc ∧ ¬ f.wrEnReg winc) ∨ (¬ f.rdEnReg rinc ∧ f.wrEnReg winc) then
      if f.rdEnReg rinc then f.countReg - 1 else f.countReg + 1
    else f.countReg
  emptyReg := decide (f.countReg.toNat = 0 ∨ (f.countReg.toNat = 1 ∧ f.rdEnReg rinc ∧ ¬ f.wrEnReg winc))
  fullReg  := decide (f.countReg.toNat = 2 ^ w ∨ (f.countReg.toNat = 2 ^ w - 1 ∧ f.wrEnReg winc ∧ ¬ f.rdEnReg rinc))
  mem      := if f.wrEnReg winc then Function.update f.mem f.waddrReg datai else f.mem
  readAddr := f.raddrReg

/-- Under `rst`; the RAM has none. -/
def Fifo.reset (mem : BitVec w → α) (readAddr : BitVec w) : Fifo w α where
  raddrReg := 0
  waddrReg := 0
  countReg := 0
  emptyReg := true
  fullReg  := false
  mem      := mem
  readAddr := readAddr

/-- The items of a FIFO, the oldest first.  The flags are a cycle behind the count where it goes off its end. -/
structure Fifo.Holds (f : Fifo w α) (q : List α) : Prop where
  count : f.countReg.toNat = q.length
  le    : q.length ≤ 2 ^ w
  waddr : f.waddrReg = f.raddrReg + BitVec.ofNat w q.length
  cell  : ∀ (k : ℕ) (h : k < q.length), f.mem (f.raddrReg + BitVec.ofNat w k) = q[k]
  empty : (q = [] → f.emptyReg = true) ∧ (f.emptyReg = true → q.length ≤ 1)
  full  : (q.length = 2 ^ w → f.fullReg = true) ∧ (f.fullReg = true → 2 ^ w ≤ q.length + 1)

/-- The items behind the requests of a cycle. -/
def Fifo.next (f : Fifo w α) (q : List α) (rinc winc : Bool) (datai : α) : List α :=
  (if f.rdEnReg rinc then q.tail else q) ++ if f.wrEnReg winc then [datai] else []

section

variable {f : Fifo w α} {q : List α} {rinc winc : Bool} {datai : α}

theorem Fifo.Holds.readable (h : f.Holds q) (hrd : f.rdEnReg rinc = true) : q ≠ [] := fun hq => by
  rw [Fifo.rdEnReg, h.empty.1 hq, Bool.not_true, Bool.and_false] at hrd
  cases hrd

theorem Fifo.Holds.writable (h : f.Holds q) (hwr : f.wrEnReg winc = true) : q.length < 2 ^ w := by
  refine Nat.lt_of_le_of_ne h.le fun hq => ?_
  rw [Fifo.wrEnReg, h.full.1 hq, Bool.not_true, Bool.and_false] at hwr
  cases hwr

theorem Fifo.Holds.length_next (h : f.Holds q) (rinc winc : Bool) (datai : α) :
    (f.next q rinc winc datai).length + (f.rdEnReg rinc).toNat = q.length + (f.wrEnReg winc).toNat := by
  rw [Fifo.next, List.length_append]
  cases hrd : f.rdEnReg rinc <;> cases hwr : f.wrEnReg winc
  · simp
  · simp
  all_goals
    have hpos := List.length_pos_iff.2 (h.readable hrd)
    simp only [if_true, List.length_tail, Bool.toNat_true, Bool.toNat_false, Bool.false_eq_true, if_false, List.length_nil,
      List.length_singleton]
    omega

/-- Two items have two cells. -/
theorem add_ofNat_inj (a : BitVec w) {j k : ℕ} (hj : j < 2 ^ w) (hk : k < 2 ^ w) :
    a + BitVec.ofNat w j = a + BitVec.ofNat w k ↔ j = k := by
  constructor
  · intro h
    have hval := congrArg BitVec.toNat (BitVec.add_right_inj a |>.1 h)
    rwa [BitVec.toNat_ofNat, BitVec.toNat_ofNat, Nat.mod_eq_of_lt hj, Nat.mod_eq_of_lt hk] at hval
  · rintro rfl
    rfl

/-- The addresses move on by their requests. -/
theorem Fifo.addr_step (f : Fifo w α) (rinc winc : Bool) (datai : α) :
    (f.step rinc winc datai).raddrReg = f.raddrReg + BitVec.ofNat w (f.rdEnReg rinc).toNat ∧
      (f.step rinc winc datai).waddrReg = f.waddrReg + BitVec.ofNat w (f.wrEnReg winc).toNat := by
  unfold Fifo.step
  constructor
  · cases f.rdEnReg rinc
    · exact (BitVec.add_zero _).symm
    · rfl
  · cases f.wrEnReg winc
    · exact (BitVec.add_zero _).symm
    · rfl

theorem Fifo.Holds.count_step (h : f.Holds q) :
    (f.step rinc winc datai).countReg.toNat = (f.next q rinc winc datai).length := by
  have hlen := h.length_next rinc winc datai
  have hcount := h.count
  have hle := h.le
  have hpow : 2 ^ (w + 1) = 2 ^ w + 2 ^ w := by rw [Nat.pow_succ]; omega
  have hone := Nat.one_le_two_pow (n := w)
  have hone' : (1 : BitVec (w + 1)).toNat = 1 := Nat.mod_eq_of_lt (Nat.one_lt_two_pow (Nat.succ_ne_zero w))
  unfold Fifo.step
  cases hrd : f.rdEnReg rinc <;> cases hwr : f.wrEnReg winc
  all_goals
    rw [hrd, hwr] at hlen
    simp only [Bool.toNat_true, Bool.toNat_false, Nat.add_zero] at hlen
    simp only [Bool.false_eq_true, not_true_eq_false, not_false_eq_true, and_false, and_true, and_self, or_self, or_false,
      false_or, if_true, if_false]
  · omega
  · have hlt := h.writable hwr
    rw [BitVec.toNat_add, hone', hcount, Nat.mod_eq_of_lt (by omega)]
    omega
  · have hpos := List.length_pos_iff.2 (h.readable hrd)
    rw [BitVec.toNat_sub_of_le (by rw [BitVec.le_def, hone', hcount]; exact hpos), hone', hcount]
    omega
  · omega

theorem Fifo.Holds.cell_step (h : f.Holds q) (k : ℕ) (hk : k < (f.next q rinc winc datai).length) :
    (f.step rinc winc datai).mem ((f.step rinc winc datai).raddrReg + BitVec.ofNat w k) = (f.next q rinc winc datai)[k] := by
  have hlen := h.length_next rinc winc datai
  -- where the item is before the edge
  have haddr : (f.step rinc winc datai).raddrReg + BitVec.ofNat w k =
      f.raddrReg + BitVec.ofNat w (k + (f.rdEnReg rinc).toNat) := by
    rw [(f.addr_step rinc winc datai).1, BitVec.add_assoc, ← BitVec.ofNat_add, Nat.add_comm]
  have hread : (if f.rdEnReg rinc then q.tail else q) = q.drop (f.rdEnReg rinc).toNat := by
    cases f.rdEnReg rinc
    · rfl
    · exact List.drop_one.symm
  rw [haddr]
  show (if f.wrEnReg winc then Function.update f.mem f.waddrReg datai else f.mem) _ = _
  simp only [Fifo.next, hread]
  rcases Nat.lt_or_ge (k + (f.rdEnReg rinc).toNat) q.length with hold | hnew
  · have hdrop : k < (q.drop (f.rdEnReg rinc).toNat).length := by
      rw [List.length_drop]
      omega
    rw [List.getElem_append_left hdrop, List.getElem_drop]
    have hkeep : ∀ m : BitVec w → α, (if f.wrEnReg winc then Function.update f.mem f.waddrReg datai else f.mem)
        (f.raddrReg + BitVec.ofNat w (k + (f.rdEnReg rinc).toNat)) =
        f.mem (f.raddrReg + BitVec.ofNat w (k + (f.rdEnReg rinc).toNat)) := by
      intro _
      split
      · rename_i hwr
        have hlt := h.writable hwr
        refine Function.update_of_ne ?_ _ _
        rw [h.waddr, Ne, add_ofNat_inj _ (by omega) hlt]
        omega
      · rfl
    rw [hkeep f.mem, h.cell _ hold]
    congr 1
    exact Nat.add_comm _ _
  · have hwr : f.wrEnReg winc = true := by
      cases hw : f.wrEnReg winc with
      | true => rfl
      | false =>
        rw [hw] at hlen
        simp only [Bool.toNat_false] at hlen
        omega
    have hend : k + (f.rdEnReg rinc).toNat = q.length := by
      rw [hwr, Bool.toNat_true] at hlen
      omega
    rw [if_pos hwr, hend, ← h.waddr, Function.update_self]
    have hdrop : (q.drop (f.rdEnReg rinc).toNat).length ≤ k := by
      rw [List.length_drop]
      omega
    rw [List.getElem_append_right hdrop]
    simp [hwr]

theorem Fifo.Holds.empty_step (h : f.Holds q) (rinc winc : Bool) (datai : α) (hwr : f.wrEnReg winc = false) :
    (f.step rinc winc datai).emptyReg = decide (f.next q rinc winc datai = []) := by
  have hlen := h.length_next rinc winc datai
  rw [hwr, Bool.toNat_false] at hlen
  unfold Fifo.step
  rw [decide_eq_decide, h.count, hwr, ← List.length_eq_zero_iff]
  cases hrd : f.rdEnReg rinc
  all_goals
    rw [hrd] at hlen
    simp only [Bool.toNat_true, Bool.toNat_false] at hlen
    simp only [Bool.false_eq_true, not_false_eq_true, and_true, and_false, or_false]
    omega

theorem Fifo.Holds.full_step (h : f.Holds q) (hrd : f.rdEnReg rinc = false) :
    (f.step rinc winc datai).fullReg = decide ((f.next q rinc winc datai).length = 2 ^ w) := by
  have hlen := h.length_next rinc winc datai
  have hone := Nat.one_le_two_pow (n := w)
  rw [hrd, Bool.toNat_false] at hlen
  unfold Fifo.step
  rw [decide_eq_decide, h.count, hrd]
  cases hwr : f.wrEnReg winc
  · rw [hwr] at hlen
    simp only [Bool.toNat_false] at hlen
    simp only [Bool.false_eq_true, false_and, and_false, or_false]
    omega
  · have hlt := h.writable hwr
    rw [hwr] at hlen
    simp only [Bool.toNat_true] at hlen
    simp only [Bool.false_eq_true, not_false_eq_true, and_true]
    omega

/-- What the requests of a cycle do. -/
theorem Fifo.Holds.step (h : f.Holds q) (rinc winc : Bool) (datai : α) :
    (f.step rinc winc datai).Holds (f.next q rinc winc datai) := by
  have hlen := h.length_next rinc winc datai
  have hle := h.le
  have hcount := h.count
  refine ⟨h.count_step, ?_, ?_, h.cell_step, ?_, ?_⟩
  · cases hwr : f.wrEnReg winc with
    | false =>
      rw [hwr, Bool.toNat_false] at hlen
      omega
    | true =>
      have hlt := h.writable hwr
      rw [hwr, Bool.toNat_true] at hlen
      omega
  · obtain ⟨hraddr, hwaddr⟩ := f.addr_step rinc winc datai
    rw [hraddr, hwaddr, h.waddr, BitVec.add_assoc, BitVec.add_assoc, ← BitVec.ofNat_add, ← BitVec.ofNat_add, ← hlen,
      Nat.add_comm (f.rdEnReg rinc).toNat]
  · cases hwr : f.wrEnReg winc with
    | false =>
      rw [h.empty_step _ _ _ hwr, decide_eq_true_iff]
      exact ⟨id, fun hq => by rw [hq]; exact Nat.zero_le 1⟩
    | true =>
      rw [hwr, Bool.toNat_true] at hlen
      have hread := fun hrd : f.rdEnReg rinc = true => List.length_pos_iff.2 (h.readable hrd)
      unfold Fifo.step
      rw [decide_eq_true_iff, hcount, hwr, ← List.length_eq_zero_iff]
      cases hrd : f.rdEnReg rinc with
      | false =>
        rw [hrd, Bool.toNat_false] at hlen
        simp only [not_true_eq_false, and_false, or_false]
        omega
      | true =>
        have hpos := hread hrd
        rw [hrd, Bool.toNat_true] at hlen
        simp only [not_true_eq_false, and_false, or_false]
        omega
  · cases hrd : f.rdEnReg rinc with
    | false =>
      rw [h.full_step hrd, decide_eq_true_iff]
      exact ⟨id, fun hq => by omega⟩
    | true =>
      rw [hrd, Bool.toNat_true] at hlen
      have hroom := fun hwr : f.wrEnReg winc = true => h.writable hwr
      unfold Fifo.step
      rw [decide_eq_true_iff, hcount, hrd]
      simp only [not_true_eq_false, and_false, or_false]
      cases hwr : f.wrEnReg winc with
      | false =>
        rw [hwr, Bool.toNat_false] at hlen
        omega
      | true =>
        have hlt := hroom hwr
        rw [hwr, Bool.toNat_true] at hlen
        omega

/-- The oldest item is at the output in the next cycle, whether it is read or not. -/
theorem Fifo.Holds.datao_step {a : α} (h : f.Holds (a :: q)) (rinc : Bool) : (f.step rinc winc datai).datao = a := by
  have hcell : f.mem f.raddrReg = a := by
    have hfront := h.cell 0 (Nat.zero_lt_succ _)
    rwa [BitVec.add_zero] at hfront
  show (if f.wrEnReg winc then Function.update f.mem f.waddrReg datai else f.mem) f.raddrReg = a
  cases hwr : f.wrEnReg winc with
  | false => exact hcell
  | true =>
    have hlt := h.writable hwr
    rw [if_pos rfl, Function.update_of_ne, hcell]
    rw [h.waddr]
    intro heq
    have hzero : f.raddrReg + BitVec.ofNat w 0 = f.raddrReg + BitVec.ofNat w (a :: q).length :=
      (BitVec.add_zero _).trans heq
    exact absurd ((add_ofNat_inj _ (Nat.two_pow_pos w) hlt).1 hzero) (Nat.succ_ne_zero _).symm

end

theorem Fifo.holds_reset (mem : BitVec w → α) (readAddr : BitVec w) : (Fifo.reset mem readAddr).Holds [] where
  count := rfl
  le    := Nat.zero_le _
  waddr := (BitVec.add_zero _).symm
  cell  := fun k hk => absurd hk (Nat.not_lt_zero k)
  empty := ⟨fun _ => rfl, fun _ => Nat.zero_le 1⟩
  full  := ⟨fun h => absurd h (Nat.two_pow_pos w).ne, nofun⟩

/-- A FIFO, with what was written to it and what was read; an item is read at the output in the cycle behind its request. -/
structure Traced (w : ℕ) (α : Type*) where
  fifo    : Fifo w α
  written : List α
  taken   : List α
  taking  : Bool

def Traced.output (t : Traced w α) : List α := if t.taking then [t.fifo.datao] else []

def Traced.step (t : Traced w α) (i : Bool × Bool × α) : Traced w α where
  fifo    := t.fifo.step i.1 i.2.1 i.2.2
  written := if t.fifo.wrEnReg i.2.1 then t.written ++ [i.2.2] else t.written
  taken   := t.taken ++ t.output
  taking  := t.fifo.rdEnReg i.1

theorem Traced.step_holds {t : Traced w α} (i : Bool × Bool × α)
    (h : ∃ q, t.fifo.Holds q ∧ t.written = t.taken ++ t.output ++ q) :
    ∃ q, (t.step i).fifo.Holds q ∧ (t.step i).written = (t.step i).taken ++ (t.step i).output ++ q := by
  obtain ⟨q, hq, hwritten⟩ := h
  refine ⟨t.fifo.next q i.1 i.2.1 i.2.2, hq.step _ _ _, ?_⟩
  have hread : (t.step i).output ++ (if t.fifo.rdEnReg i.1 then q.tail else q) = q := by
    rw [Traced.output]
    show (if t.fifo.rdEnReg i.1 then [(t.fifo.step i.1 i.2.1 i.2.2).datao] else []) ++ _ = _
    split
    · rename_i hrd
      obtain ⟨a, q', rfl⟩ := List.exists_cons_of_ne_nil (hq.readable hrd)
      rw [hq.datao_step i.1]
      rfl
    · rfl
  show (if t.fifo.wrEnReg i.2.1 then t.written ++ [i.2.2] else t.written) = t.taken ++ t.output ++ _ ++ _
  rw [Fifo.next, List.append_assoc (t.taken ++ t.output), ← List.append_assoc (t.step i).output, hread,
    ← List.append_assoc, ← hwritten]
  split
  · rfl
  · exact (List.append_nil _).symm

/-- **A FIFO is a queue**: of any width and size, under any requests, what was read is the beginning of what was written,
and what is left of it is held. -/
theorem fifo_queues (mem : BitVec w → α) (readAddr : BitVec w) (is : List (Bool × Bool × α)) :
    let t := is.foldl Traced.step ⟨.reset mem readAddr, [], [], false⟩
    ∃ q, t.fifo.Holds q ∧ t.written = t.taken ++ t.output ++ q := by
  have hstep : ∀ (t : Traced w α) i, (∃ q, t.fifo.Holds q ∧ t.written = t.taken ++ t.output ++ q) →
      ∃ q, (t.step i).fifo.Holds q ∧ (t.step i).written = (t.step i).taken ++ (t.step i).output ++ q :=
    fun _ i h => Traced.step_holds i h
  exact Runs.foldl_inv hstep is ⟨[], Fifo.holds_reset mem readAddr, rfl⟩

/-! ## Double FIFOs

The two FIFOs of a double FIFO are told apart by a `Bool`, `U_FIFO_1` being `false`: `buf_sel` is the FIFO that is
written. -/

structure Halves (w : ℕ) (α : Type*) where
  fifo       : Bool → Fifo w α
  fifoWr     : Bool → Bool
  fifoDataIn : α

/-- `p_mux2`, and the FIFOs with their read requests.  The write request of the FIFO that is not selected stays as it
is.  The data of `DoubleFifo` has a process of its own, `p_mux2_data`, which is sensitive to `RST` alone; `fifoDataIn` is the
register that synthesis makes of its clock edge. -/
def Halves.step (d : Halves w α) (bufSel wren : Bool) (dataIn : α) (fifoRd : Bool → Bool) : Halves w α where
  fifo       := fun b => (d.fifo b).step (fifoRd b) (d.fifoWr b) d.fifoDataIn
  fifoWr     := Function.update d.fifoWr bufSel wren
  fifoDataIn := dataIn

/-- The halves of a double FIFO: `reading` is left to read, and `filling` is written. -/
structure Halves.Holds (d : Halves w α) (bufSel : Bool) (reading filling : List α) : Prop where
  read  : (d.fifo !bufSel).Holds reading
  quiet : d.fifoWr (!bufSel) = false
  fill  : ∃ q, (d.fifo bufSel).Holds q ∧ filling = q ++ if d.fifoWr bufSel then [d.fifoDataIn] else []
  full  : (d.fifo bufSel).fullReg = decide ((d.fifo bufSel).countReg.toNat = 2 ^ w)

section

variable {d : Halves w α} {sel : Bool} {reading filling : List α} {wren : Bool} {dataIn : α} {rd : Bool → Bool}

/-- What is left to read behind the requests of a cycle. -/
def Halves.left (d : Halves w α) (sel : Bool) (reading : List α) (rd : Bool → Bool) : List α :=
  if (d.fifo !sel).rdEnReg (rd !sel) then reading.tail else reading

theorem Halves.Holds.next_read (h : d.Holds sel reading filling) :
    (d.fifo !sel).next reading (rd !sel) (d.fifoWr !sel) d.fifoDataIn = d.left sel reading rd := by
  rw [Fifo.next, h.quiet, Fifo.wrEnReg, Bool.false_and]
  exact List.append_nil _

theorem Halves.Holds.next_fill {q : List α} (h : d.Holds sel reading filling) (hq : (d.fifo sel).Holds q)
    (hfill : filling = q ++ if d.fifoWr sel then [d.fifoDataIn] else []) (hrd : rd sel = false)
    (hroom : filling.length ≤ 2 ^ w) :
    (d.fifo sel).next q (rd sel) (d.fifoWr sel) d.fifoDataIn = filling := by
  have hfull : (d.fifo sel).wrEnReg (d.fifoWr sel) = d.fifoWr sel := by
    rw [Fifo.wrEnReg, h.full, hq.count]
    cases hwr : d.fifoWr sel with
    | false => rfl
    | true =>
      rw [hwr, if_pos rfl] at hfill
      rw [hfill, List.length_append, List.length_singleton] at hroom
      rw [decide_eq_false (by omega)]
      rfl
  rw [Fifo.next, hfull, hrd, Fifo.rdEnReg, Bool.false_and, hfill]
  rfl

/-- A cycle of reads from the one FIFO and of a write for the other. -/
theorem Halves.Holds.step (h : d.Holds sel reading filling) (wren : Bool) (dataIn : α) (hrd : rd sel = false)
    (hroom : filling.length ≤ 2 ^ w) :
    (d.step sel wren dataIn rd).Holds sel (d.left sel reading rd) (filling ++ if wren then [dataIn] else []) := by
  obtain ⟨q, hq, hfill⟩ := h.fill
  have hnext := h.next_fill hq hfill hrd hroom
  have hne : (!sel) ≠ sel := Bool.not_ne_self sel
  refine ⟨?_, ?_, ⟨filling, ?_, ?_⟩, ?_⟩
  · rw [← h.next_read]
    exact h.read.step _ _ _
  · exact (Function.update_of_ne hne wren d.fifoWr).trans h.quiet
  · have hstep := hq.step (rd sel) (d.fifoWr sel) d.fifoDataIn
    rw [hnext] at hstep
    exact hstep
  · show _ = _ ++ if Function.update d.fifoWr sel wren sel then [dataIn] else []
    rw [Function.update_self]
  · have hno : (d.fifo sel).rdEnReg (rd sel) = false := by rw [Fifo.rdEnReg, hrd, Bool.false_and]
    show ((d.fifo sel).step _ _ _).fullReg = decide (((d.fifo sel).step _ _ _).countReg.toNat = 2 ^ w)
    rw [hq.full_step hno, hq.count_step]

/-- The FIFO that was filled is read from now on. -/
theorem Halves.Holds.swap (h : d.Holds sel [] filling) (hwr : d.fifoWr sel = false) (hw : 0 < w) :
    d.Holds (!sel) filling [] := by
  obtain ⟨q, hq, hfill⟩ := h.fill
  rw [hwr, if_neg Bool.false_ne_true, List.append_nil] at hfill
  have hpow := Nat.one_lt_two_pow hw.ne'
  have hfull : (d.fifo !sel).fullReg = false := by
    cases hf : (d.fifo !sel).fullReg with
    | false => rfl
    | true => exact absurd (h.read.full.2 hf) (Nat.not_le.2 hpow)
  refine ⟨?_, ?_, ⟨[], h.read, ?_⟩, ?_⟩
  · rw [Bool.not_not, hfill]
    exact hq
  · rw [Bool.not_not]
    exact hwr
  · rw [h.quiet]
    rfl
  · rw [hfull, h.read.count]
    exact (decide_eq_false (Nat.two_pow_pos w).ne).symm

/-- The flag of the FIFO that is read is right behind every cycle, and that of the other one behind a cycle in which
nothing comes to it. -/
theorem Halves.Holds.empty_read (h : d.Holds sel reading filling) (wren : Bool) (dataIn : α) (rd : Bool → Bool) :
    ((d.step sel wren dataIn rd).fifo !sel).emptyReg = decide (d.left sel reading rd = []) := by
  rw [← h.next_read]
  exact h.read.empty_step _ _ _ (by rw [h.quiet]; rfl)

theorem Halves.Holds.empty_fill (h : d.Holds sel reading filling) (wren : Bool) (dataIn : α) (hrd : rd sel = false)
    (hwr : d.fifoWr sel = false) (hroom : filling.length ≤ 2 ^ w) : ((d.step sel wren dataIn rd).fifo sel).emptyReg = decide (filling = []) := by
  obtain ⟨q, hq, hfill⟩ := h.fill
  have hstep := hq.empty_step (rd sel) (d.fifoWr sel) d.fifoDataIn (by rw [hwr]; rfl)
  rw [h.next_fill hq hfill hrd hroom] at hstep
  exact hstep

end

/-! ## The two double FIFOs of the encoder -/

/-- `RleDoubleFifo`: words, read without registers. -/
structure RleDoubleFifo where
  halves : Halves 6 Rle.Word

def RleDoubleFifo.dataOut (d : RleDoubleFifo) (bufSel : Bool) : Rle.Word := (d.halves.fifo !bufSel).datao

def RleDoubleFifo.fifoEmpty (d : RleDoubleFifo) (bufSel : Bool) : Bool := (d.halves.fifo !bufSel).emptyReg

def RleDoubleFifo.step (d : RleDoubleFifo) (bufSel wren : Bool) (dataIn : Rle.Word) (rdReq : Bool) : RleDoubleFifo where
  halves := d.halves.step bufSel wren dataIn (Function.update (fun _ => false) (!bufSel) rdReq)

/-- `DoubleFifo`: bytes, read through registers. -/
structure DoubleFifo where
  halves    : Halves 7 Byte
  fifoRd    : Bool → Bool
  fifoEmpty : Bool
  dataOut   : Byte

/-- `p_mux3` and `p_mux3_data`, and the write side.  The read request of the FIFO that is not selected stays as it is. -/
def DoubleFifo.step (d : DoubleFifo) (bufSel wren : Bool) (dataIn : Byte) (rdReq : Bool) : DoubleFifo where
  halves    := d.halves.step bufSel wren dataIn d.fifoRd
  fifoRd    := Function.update d.fifoRd (!bufSel) rdReq
  fifoEmpty := (d.halves.fifo !bufSel).emptyReg
  dataOut   := (d.halves.fifo !bufSel).datao

end JpegFifo
end Hdmi2Usb
