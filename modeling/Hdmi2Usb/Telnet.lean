import Hdmi2Usb.Framebuffer
import Hdmi2Usb.Ring
import Hdmi2Usb.Runs
/-!
# Telnet — the characters received for the console (`telnet.c`)

`telnet_data_callback` puts what the network brings into a ring of 128 characters, and drops what finds it full;
the console takes the characters from it one by one.  `Run` keeps beside the ring what was put in and what was read.
-/
namespace Hdmi2Usb
namespace Telnet

def ringbufferSizeRx : Nat := 128
def ringbufferMaskRx : Word := 127#32

structure Rx where
  buf     : Nat → Char
  produce : Word
  consume : Word

/-- An index one place on. -/
def next (i : Word) : Word := (i + 1) &&& ringbufferMaskRx

/-- Whether the loop of `telnet_data_callback` stores its character. -/
def hasRoom (t : Rx) : Bool := next t.produce ≠ t.consume

/-- A turn of that loop. -/
def dataChar (t : Rx) (c : Char) : Rx :=
  if hasRoom t then
    { t with buf := Function.update t.buf t.produce.toNat c, produce := next t.produce }
  else t

def dataCallback (t : Rx) (rxbuf : List Char) : Rx := rxbuf.foldl dataChar t

def readcharNonblock (t : Rx) : Bool := t.consume ≠ t.produce

def readchar (t : Rx) : Char × Rx :=
  if readcharNonblock t = false then ('\x00', t)
  else (t.buf t.consume.toNat, { t with consume := next t.consume })

/-! ## Runs -/

inductive Event where
  | data (rxbuf : List Char)
  | read

/-- The ring, with the characters stored in it and those read from it so far. -/
structure Run where
  rx       : Rx
  accepted : List Char
  returned : List Char

def Run.dataChar (r : Run) (c : Char) : Run :=
  { r with rx := Telnet.dataChar r.rx c
           accepted := if hasRoom r.rx then r.accepted ++ [c] else r.accepted }

/-- A call of `telnet_data_callback`, or a look of the console, which reads a character if there is one. -/
def Run.step (r : Run) : Event → Run
  | .data rxbuf => rxbuf.foldl Run.dataChar r
  | .read       =>
    if readcharNonblock r.rx then
      { r with rx := (readchar r.rx).2, returned := r.returned ++ [(readchar r.rx).1] }
    else r

/-- Nothing received yet, whatever the cells are. -/
def Run.start (buf : Nat → Char) : Run := ⟨⟨buf, 0, 0⟩, [], []⟩

theorem Run.rx_foldl_dataChar (rxbuf : List Char) : ∀ (r : Run),
    (rxbuf.foldl Run.dataChar r).rx = dataCallback r.rx rxbuf := by
  induction rxbuf with
  | nil => exact fun _ => rfl
  | cons c rxbuf ih => exact fun r => ih (r.dataChar c)

theorem Run.returned_foldl_dataChar (rxbuf : List Char) : ∀ (r : Run),
    (rxbuf.foldl Run.dataChar r).returned = r.returned := by
  induction rxbuf with
  | nil => exact fun _ => rfl
  | cons c rxbuf ih => exact fun r => ih (r.dataChar c)

@[simp] theorem consume_dataChar (t : Rx) (c : Char) : (dataChar t c).consume = t.consume := by
  unfold dataChar
  split <;> rfl

theorem consume_dataCallback (rxbuf : List Char) : ∀ (t : Rx), (dataCallback t rxbuf).consume = t.consume := by
  induction rxbuf with
  | nil => exact fun _ => rfl
  | cons c rxbuf ih => exact fun t => (ih (dataChar t c)).trans (consume_dataChar t c)

/-! ## The ring holds what is pending -/

/-- The characters pending in the ring. -/
def Holds (t : Rx) (pending : List Char) : Prop :=
  Ring.Holds ringbufferSizeRx t.buf t.produce.toNat t.consume.toNat pending

theorem toNat_next (i : Word) : (next i).toNat = (i.toNat + 1) % ringbufferSizeRx := by
  have hmask : (next i).toNat = (i + 1).toNat % 2 ^ 7 := by
    rw [next, BitVec.toNat_and]
    exact Nat.and_two_pow_sub_one_eq_mod _ 7
  rw [hmask, BitVec.toNat_add]
  exact Nat.mod_mod_of_dvd _ (by decide)

section

variable {t : Rx} {pending : List Char}

theorem readcharNonblock_iff (h : Holds t pending) : readcharNonblock t = true ↔ pending ≠ [] := by
  rw [readcharNonblock, decide_eq_true_iff, ne_eq, ne_eq, ← BitVec.toNat_inj, h.empty_iff]

theorem hasRoom_iff (h : Holds t pending) : hasRoom t = true ↔ pending.length < ringbufferSizeRx - 1 := by
  have hlt := h.length_lt
  rw [hasRoom, decide_eq_true_iff, ne_eq, ← BitVec.toNat_inj, toNat_next, h.full_iff]
  omega

theorem holds_dataChar (h : Holds t pending) (c : Char) :
    Holds (dataChar t c) (Fifo.offer (ringbufferSizeRx - 1) pending c) := by
  by_cases hroom : hasRoom t = true
  · have hlt := (hasRoom_iff h).1 hroom
    rw [dataChar, if_pos hroom, Fifo.offer, if_pos hlt, Holds, toNat_next]
    exact h.put (by omega) c
  · have hfull := mt (hasRoom_iff h).2 hroom
    rw [dataChar, if_neg hroom, Fifo.offer, if_neg hfull]
    exact h

theorem readchar_nil (h : Holds t []) : readchar t = ('\x00', t) := by
  have hnone : readcharNonblock t = false := by
    rw [← Bool.not_eq_true, readcharNonblock_iff h]
    exact not_not.2 rfl
  rw [readchar, if_pos hnone]

theorem readchar_cons {c : Char} (h : Holds t (c :: pending)) :
    (readchar t).1 = c ∧ Holds (readchar t).2 pending := by
  have hsome : ¬readcharNonblock t = false := by
    rw [Bool.not_eq_false, readcharNonblock_iff h]
    exact List.cons_ne_nil c pending
  rw [readchar, if_neg hsome]
  refine ⟨h.head, ?_⟩
  rw [Holds, toNat_next]
  exact h.take

end

/-- What a run keeps: the characters accepted and not yet returned are in the ring. -/
structure Inv (r : Run) (pending : List Char) : Prop where
  holds    : Holds r.rx pending
  accepted : r.accepted = r.returned ++ pending

theorem Inv.dataChar {r : Run} {pending : List Char} (h : Inv r pending) (c : Char) :
    Inv (r.dataChar c) (Fifo.offer (ringbufferSizeRx - 1) pending c) where
  holds := holds_dataChar h.holds c
  accepted := by
    by_cases hroom : hasRoom r.rx = true
    · have hlt := (hasRoom_iff h.holds).1 hroom
      simp only [Run.dataChar, if_pos hroom, Fifo.offer, if_pos hlt, h.accepted, List.append_assoc]
    · have hfull := mt (hasRoom_iff h.holds).2 hroom
      simp only [Run.dataChar, if_neg hroom, Fifo.offer, if_neg hfull, h.accepted]

theorem Inv.foldl_dataChar (rxbuf : List Char) : ∀ {r : Run} {pending : List Char}, Inv r pending →
    Inv (rxbuf.foldl Run.dataChar r) (rxbuf.foldl (Fifo.offer (ringbufferSizeRx - 1)) pending) := by
  induction rxbuf with
  | nil => exact fun h => h
  | cons c rxbuf ih => exact fun h => ih (h.dataChar c)

theorem Inv.data {r : Run} {pending : List Char} (h : Inv r pending) (rxbuf : List Char) :
    Inv (r.step (.data rxbuf)) (pending ++ rxbuf.take (ringbufferSizeRx - 1 - pending.length)) := by
  rw [← Fifo.foldl_offer _ rxbuf pending (Nat.le_sub_one_of_lt h.holds.length_lt)]
  exact h.foldl_dataChar rxbuf

theorem Inv.read {r : Run} {pending : List Char} (h : Inv r pending) : Inv (r.step .read) pending.tail := by
  cases pending with
  | nil =>
    have hnone : ¬readcharNonblock r.rx = true := fun hsome => (readcharNonblock_iff h.holds).1 hsome rfl
    rw [Run.step, if_neg hnone]
    exact h
  | cons c pending =>
    have hsome : readcharNonblock r.rx = true := (readcharNonblock_iff h.holds).2 (List.cons_ne_nil c pending)
    obtain ⟨hc, hrest⟩ := readchar_cons h.holds
    rw [Run.step, if_pos hsome]
    refine ⟨hrest, ?_⟩
    rw [h.accepted, hc, List.append_assoc, List.singleton_append, List.tail_cons]

theorem inv_start (buf : Nat → Char) : Inv (.start buf) [] where
  holds    := Ring.holds_nil buf (Nat.zero_lt_succ 127)
  accepted := rfl

theorem exists_inv (buf : Nat → Char) (es : List Event) : ∃ pending, Inv (es.foldl Run.step (.start buf)) pending := by
  have hstep : ∀ r e, (∃ pending, Inv r pending) → ∃ pending, Inv (r.step e) pending := by
    rintro r e ⟨pending, h⟩
    cases e with
    | data rxbuf => exact ⟨_, h.data rxbuf⟩
    | read => exact ⟨_, h.read⟩
  exact Runs.foldl_inv hstep es ⟨[], inv_start buf⟩

/-- **The ring is a bounded FIFO**: the characters accepted are those returned and then those pending, of which there
are 127 at most; a callback drops only what does not fit and touches no pending cell; and there is something to read
exactly when something is pending, the oldest first. -/
theorem telnet_fifo (buf : Nat → Char) (es : List Event) :
    let r := es.foldl Run.step (.start buf)
    ∃ pending, r.accepted = r.returned ++ pending ∧ pending.length ≤ 127 ∧
      (readcharNonblock r.rx = true ↔ pending ≠ []) ∧
      (readchar r.rx).1 = pending.headD '\x00' ∧ (pending = [] → (readchar r.rx).2 = r.rx) ∧
      ∀ rxbuf, (r.step (.data rxbuf)).rx = dataCallback r.rx rxbuf ∧
        (r.step (.data rxbuf)).accepted = r.accepted ++ rxbuf.take (127 - pending.length) ∧
        ∀ i (h : i < pending.length), (dataCallback r.rx rxbuf).buf ((r.rx.consume.toNat + i) % 128) = pending[i] := by
  intro r
  obtain ⟨pending, h⟩ := exists_inv buf es
  refine ⟨pending, h.accepted, Nat.le_of_lt_succ h.holds.length_lt, readcharNonblock_iff h.holds, ?_, ?_, ?_⟩
  · cases pending with
    | nil => exact congrArg Prod.fst (readchar_nil h.holds)
    | cons c pending => exact (readchar_cons h.holds).1
  · rintro rfl
    exact congrArg Prod.snd (readchar_nil h.holds)
  · intro rxbuf
    have hdata := h.data rxbuf
    have hrx : (r.step (.data rxbuf)).rx = dataCallback r.rx rxbuf := Run.rx_foldl_dataChar rxbuf r
    refine ⟨hrx, ?_, ?_⟩
    · have hreturned : (r.step (.data rxbuf)).returned = r.returned := Run.returned_foldl_dataChar rxbuf r
      rw [hdata.accepted, hreturned, h.accepted, List.append_assoc]
      rfl
    · intro i hi
      have hcell := hdata.holds.cell i (Nat.lt_of_lt_of_le hi (by simp))
      rw [hrx, consume_dataCallback, List.getElem_append_left hi] at hcell
      exact hcell

end Telnet
end Hdmi2Usb
