import Hdmi2Usb.Memory
import Hdmi2Usb.Runs
/-!
# LiteEthMac — the transmit slots of the Ethernet driver

`liteethmac_send` fills the slot of its turn, waits for the SRAM reader to be ready and hands the slot over.  The wait
stands behind the copy, so a send that finds both commands of the queue taken writes into the slot that is being read;
and a frame above 1514 bytes is cut.  A send that begins with a place in the queue, of a frame that fits, is safe, and
then every frame leaves once, in order and as it was given (`intact_iff`).
-/
namespace Hdmi2Usb
namespace LiteEthMac

open Memory
open Runs (AllSteps)

/-- The place in `liteethmac_send`. -/
inductive Pc
  | idle
  | memset (i : Nat)
  | memcpy (i : Nat)
  | slotWrite
  | lengthWrite
  | ready
  | start
  | next
deriving DecidableEq

/-- A command of the SRAM reader. -/
structure Command where
  slot   : Nat
  length : Nat

structure State where
  sram     : Nat → Byte
  txslot   : Nat
  txlen    : Nat
  txbuffer : Nat
  uipBuf   : Nat → Byte
  uipLen   : BitVec 16
  pc       : Pc
  /-- `ethmac_sram_reader_slot` and `ethmac_sram_reader_length`. -/
  slot     : Nat
  length   : Nat
  queue    : List Command
  /-- The bytes of the first command's frame that are out. -/
  sending  : List Byte
  /-- The frames that have left, the oldest first. -/
  wire     : List (List Byte)
  /-- The frames that `liteethmac_send` was called for. -/
  given    : List (List Byte)

variable (base : Nat)

def ethmacTx0Base : Nat := base + 0x1000

def ethmacTx1Base : Nat := base + 0x1800

/-- Where the reader finds a slot. -/
def slotBase (n : Nat) : Nat := base + 0x1000 + n * 0x0800

/-- `liteethmac_init`. -/
def liteethmacInit (s : State) : State := { s with txslot := 0, txbuffer := ethmacTx0Base base }

/-- A frame, filled up to the 60 bytes of the shortest one. -/
def padded (frame : List Byte) : List Byte := frame ++ List.replicate (60 - frame.length) 0

/-! ## The driver -/

/-- One step of `liteethmac_send`. -/
def sendStep (s : State) : State :=
  match s.pc with
  | .idle        => s
  | .memset i    =>
    let s := { s with sram := store s.sram (s.txbuffer + i) [0] }
    if i + 1 < 60 then { s with pc := .memset (i + 1) } else { s with txlen := min s.txlen 1514, pc := .memcpy 0 }
  | .memcpy i    =>
    if i < s.txlen then { s with sram := store s.sram (s.txbuffer + i) [s.uipBuf i], pc := .memcpy (i + 1) }
    else { s with txlen := max s.txlen 60, pc := .slotWrite }
  | .slotWrite   => { s with slot := s.txslot, pc := .lengthWrite }
  | .lengthWrite => { s with length := s.txlen, pc := .ready }
  | .ready       => if s.queue.length < 2 then { s with pc := .start } else s
  | .start       =>
    -- the command queue of the reader drops what does not fit
    { s with queue := if s.queue.length < 2 then s.queue ++ [⟨s.slot, s.length⟩] else s.queue, pc := .next }
  | .next        =>
    let txslot := (s.txslot + 1) % 2
    { s with txslot, txbuffer := if txslot ≠ 0 then ethmacTx1Base base else ethmacTx0Base base, pc := .idle }

inductive Event
  /-- `liteethmac_send` is called for `uip_len` bytes of `uip_buf`. -/
  | send (uipBuf : Nat → Byte) (uipLen : BitVec 16)
  | driver
  /-- The reader takes one byte more of the first command's slot. -/
  | read
  /-- The frame of the first command has been sent. -/
  | retire

def step (s : State) : Event → State
  | .send uipBuf uipLen =>
    if s.pc = .idle then
      { s with uipBuf, uipLen, txlen := uipLen.toNat, pc := .memset 0
               given := s.given ++ [padded (window uipBuf 0 uipLen.toNat)] }
    else s
  | .driver => sendStep base s
  | .read =>
    match s.queue with
    | []     => s
    | c :: _ =>
      if s.sending.length < c.length then
        { s with sending := s.sending ++ [s.sram (slotBase base c.slot + s.sending.length)] }
      else s
  | .retire =>
    match s.queue with
    | []     => s
    | c :: q =>
      if s.sending.length = c.length then { s with queue := q, wire := s.wire ++ [s.sending], sending := [] } else s

/-! ## What a transmission must keep to -/

/-- The address that the driver's next step stores to. -/
def stores (s : State) : Option Nat :=
  match s.pc with
  | .memset i => some (s.txbuffer + i)
  | .memcpy i => if i < s.txlen then some (s.txbuffer + i) else none
  | _         => none

def InSlot (n a : Nat) : Prop := slotBase base n ≤ a ∧ a < slotBase base n + 0x0800

/-- The step modifies no slot that is queued or being sent. -/
def Untouched (s : State) : Event → Prop
  | .driver => ∀ a ∈ stores s, ∀ c ∈ s.queue, ¬ InSlot base c.slot a
  | _       => True

/-- A frame was given whose command the reader does not have yet. -/
def Pc.pending : Pc → Bool
  | .idle => false
  | .next => false
  | _     => true

/-- The frame of a command, as the slot holds it. -/
def frameOf (sram : Nat → Byte) (c : Command) : List Byte := window sram (slotBase base c.slot) c.length

/-- The frames that have left, then those queued, are the frames given, in order, up to one that the driver works on. -/
structure Intact (s : State) : Prop where
  inOrder : s.wire ++ s.queue.map (frameOf base s.sram) <+: s.given
  all     : s.wire.length + s.queue.length + s.pc.pending.toNat = s.given.length
  sending : ∀ c ∈ s.queue.head?, s.sending <+: frameOf base s.sram c

/-- A send stores its first byte with a place in the queue, and starts a frame that fits the buffer. -/
def Prompt (s : State) : Event → Prop
  | .driver => (s.pc = .memset 0 → s.queue.length ≤ 1) ∧ (s.pc = .start → s.uipLen.toNat ≤ 1514)
  | _       => True

instance (n a : Nat) : Decidable (InSlot base n a) := inferInstanceAs (Decidable (_ ∧ _))

instance (s : State) : DecidablePred (Untouched base s)
  | .driver   => inferInstanceAs (Decidable (∀ a ∈ stores s, ∀ c ∈ s.queue, ¬ InSlot base c.slot a))
  | .send _ _ => isTrue trivial
  | .read     => isTrue trivial
  | .retire   => isTrue trivial

instance (s : State) : DecidablePred (Prompt s)
  | .driver   => inferInstanceAs (Decidable (_ ∧ _))
  | .send _ _ => isTrue trivial
  | .read     => isTrue trivial
  | .retire   => isTrue trivial

/-! ## The slots -/

theorem slotBase_apart {n k i j : Nat} (h : n ≠ k) (hi : i < 1514) (hj : j < 1514) :
    slotBase base n + i ≠ slotBase base k + j := by
  simp only [slotBase]
  omega

theorem inSlot_self {n i : Nat} (h : i < 1514) : InSlot base n (slotBase base n + i) := by
  simp only [InSlot]
  omega

theorem not_inSlot {n k i : Nat} (h : n ≠ k) (hi : i < 1514) :
    ¬ InSlot base n (slotBase base k + i) := by
  simp only [InSlot, slotBase]
  omega

/-- A byte stored to one slot leaves the frames of the other as they are. -/
theorem frameOf_store {c : Command} {n i : Nat} (h : c.slot ≠ n) (hl : c.length ≤ 1514) (hi : i < 1514)
    (m : Nat → Byte) (b : Byte) :
    frameOf base (store m (slotBase base n + i) [b]) c = frameOf base m c := by
  apply window_congr
  intro j hj
  have hne := slotBase_apart base h (show j < 1514 by omega) hi
  rcases Nat.lt_or_gt_of_ne hne with hlt | hgt
  · exact store_of_lt m [b] hlt
  · exact store_of_ge m [b] (by simp only [List.length_singleton]; omega)

@[simp] theorem length_padded (frame : List Byte) : (padded frame).length = max frame.length 60 := by
  simp only [padded, List.length_append, List.length_replicate]
  omega

/-- The buffer at `p` holds `n` bytes of `u`, and zeros up to the sixtieth byte. -/
def Filled (m : Nat → Byte) (p : Nat) (u : Nat → Byte) (n : Nat) : Prop :=
  ∀ j, j < max n 60 → m (p + j) = if j < n then u j else 0

theorem Filled.succ {m : Nat → Byte} {p : Nat} {u : Nat → Byte} {n : Nat} (h : Filled m p u n) :
    Filled (store m (p + n) [u n]) p u (n + 1) := by
  intro j hj
  rcases Nat.lt_trichotomy j n with hlt | heq | hgt
  · rw [store_of_lt m _ (by omega), h j (by omega), if_pos hlt, if_pos (by omega)]
  · subst heq
    rw [if_pos (by omega)]
    simp [store]
  · rw [store_of_ge m _ (by simp only [List.length_singleton]; omega), h j (by omega), if_neg (by omega),
      if_neg (by omega)]

theorem Filled.window_eq {m : Nat → Byte} {p : Nat} {u : Nat → Byte} {n : Nat} (h : Filled m p u n) :
    window m p (max n 60) = padded (window u 0 n) := by
  apply List.ext_getElem?
  intro j
  rw [getElem?_window]
  split
  case isTrue hj =>
    rw [h j hj, padded, List.getElem?_append, length_window]
    split
    · rename_i hlt
      rw [getElem?_window, if_pos hlt, Nat.zero_add]
    · rw [List.getElem?_replicate, if_pos (by omega)]
  case isFalse hj =>
    exact (List.getElem?_eq_none (by simp only [length_padded, length_window]; omega)).symm

/-! ## The invariant -/

/-- The slot that the next command is for. -/
def turn (s : State) : Nat := if s.pc = .next then (s.txslot + 1) % 2 else s.txslot

/-- The send is past its first store, and its command is not with the reader yet. -/
def Pc.begun : Pc → Bool
  | .idle     => false
  | .next     => false
  | .memset i => i ≠ 0
  | _         => true

/-- What the driver has in the slot it fills, and in the registers. -/
def Progress (s : State) : Prop :=
  match s.pc with
  | .idle        => True
  | .memset i    => i < 60 ∧ s.txlen = s.uipLen.toNat ∧ ∀ j, j < i → s.sram (s.txbuffer + j) = 0
  | .memcpy i    => s.txlen = min s.uipLen.toNat 1514 ∧ i ≤ s.txlen ∧ Filled s.sram s.txbuffer s.uipBuf i
  | .slotWrite   => s.txlen = max (min s.uipLen.toNat 1514) 60 ∧
      Filled s.sram s.txbuffer s.uipBuf (min s.uipLen.toNat 1514)
  | .lengthWrite => s.txlen = max (min s.uipLen.toNat 1514) 60 ∧
      Filled s.sram s.txbuffer s.uipBuf (min s.uipLen.toNat 1514) ∧ s.slot = s.txslot
  | .next        => True
  | _            => Filled s.sram s.txbuffer s.uipBuf (min s.uipLen.toNat 1514) ∧ s.slot = s.txslot ∧
      s.length = max (min s.uipLen.toNat 1514) 60

def pendingFrame (s : State) : List (List Byte) :=
  if s.pc.pending then [padded (window s.uipBuf 0 s.uipLen.toNat)] else []

structure Inv (s : State) : Prop where
  txslot   : s.txslot < 2
  txbuffer : s.txbuffer = slotBase base s.txslot
  slots    : s.queue.map Command.slot <:+ [turn s, (turn s + 1) % 2]
  short    : ∀ c ∈ s.queue, c.length ≤ 1514
  room     : s.pc.begun = true → s.queue.length ≤ 1
  frames   : s.wire ++ s.queue.map (frameOf base s.sram) ++ pendingFrame s = s.given
  sending  : ∀ c ∈ s.queue.head?, s.sending <+: frameOf base s.sram c
  quiet    : s.queue = [] → s.sending = []
  progress : Progress s

theorem Inv.intact {s : State} (h : Inv base s) : Intact base s where
  inOrder := ⟨_, h.frames⟩
  all := by
    rw [← h.frames]
    simp only [pendingFrame]
    cases s.pc.pending <;> simp [Nat.add_assoc]
  sending := h.sending

theorem Inv.slots_of_room {s : State} (h : Inv base s) (hroom : s.queue.length ≤ 1) :
    s.queue.map Command.slot <:+ [(turn s + 1) % 2] := by
  rcases List.suffix_cons_iff.1 h.slots with heq | hs
  · have := congrArg List.length heq
    simp only [List.length_map, List.length_cons, List.length_nil] at this
    omega
  · exact hs

/-- The command that a send with a place in the queue finds there is for the other slot. -/
theorem Inv.other {s : State} (h : Inv base s) (hpc : s.pc ≠ .next) (hroom : s.queue.length ≤ 1) :
    ∀ c ∈ s.queue, c.slot ≠ s.txslot := by
  intro c hc
  have hs := h.slots_of_room base hroom
  have ht := h.txslot
  rw [turn, if_neg hpc] at hs
  have := List.mem_singleton.1 (hs.subset (List.mem_map_of_mem hc))
  omega

/-! ## What one step keeps -/

/-- A step inside a send, which changes the other slot's frames in nothing. -/
theorem Inv.advance {s : State} (h : Inv base s) {sram : Nat → Byte} {txlen : Nat} {pc : Pc} {slot length : Nat}
    (hnext : s.pc ≠ .next) (hnext' : pc ≠ .next) (hpend : pc.pending = s.pc.pending) (hroom : s.queue.length ≤ 1)
    (hframe : ∀ c ∈ s.queue, frameOf base sram c = frameOf base s.sram c)
    (hprog : Progress { s with sram, txlen, pc, slot, length }) : Inv base { s with sram, txlen, pc, slot, length } where
  txslot   := h.txslot
  txbuffer := h.txbuffer
  slots    := by
    have := h.slots
    rw [turn, if_neg hnext] at this
    simpa only [turn, if_neg hnext'] using this
  short    := h.short
  room     := fun _ => hroom
  frames   := by
    have := h.frames
    rw [← List.map_congr_left hframe] at this
    simpa only [pendingFrame, hpend] using this
  sending  := by
    intro c hc
    rw [hframe c (List.mem_of_mem_head? hc)]
    exact h.sending c hc
  quiet    := h.quiet
  progress := hprog

theorem Inv.frameOf_store {s : State} (h : Inv base s) (hnext : s.pc ≠ .next) (hroom : s.queue.length ≤ 1) {i : Nat}
    (hi : i < 1514) (b : Byte) :
    ∀ c ∈ s.queue, frameOf base (store s.sram (s.txbuffer + i) [b]) c = frameOf base s.sram c := by
  intro c hc
  rw [h.txbuffer]
  exact LiteEthMac.frameOf_store base (h.other base hnext hroom c hc) (h.short c hc) hi s.sram b

theorem Inv.memset {s : State} (h : Inv base s) {i : Nat} (hpc : s.pc = .memset i) (hroom : s.queue.length ≤ 1) :
    Inv base (sendStep base s) := by
  have hnext : s.pc ≠ .next := by simp [hpc]
  have hp := h.progress
  simp only [Progress, hpc] at hp
  obtain ⟨hi, hlen, hzero⟩ := hp
  have hframe := h.frameOf_store base hnext hroom (show i < 1514 by omega) 0
  have hzero' : ∀ j, j < i + 1 → store s.sram (s.txbuffer + i) [0] (s.txbuffer + j) = 0 := by
    intro j hj
    rcases Nat.lt_or_eq_of_le (Nat.le_of_lt_succ hj) with hlt | heq
    · rw [store_of_lt _ _ (by omega), hzero j hlt]
    · subst heq
      simp [store]
  simp only [sendStep, hpc]
  split
  case isTrue hlt =>
    refine h.advance base hnext (by simp) (by rw [hpc]; rfl) hroom hframe ?_
    exact ⟨hlt, hlen, hzero'⟩
  case isFalse hge =>
    refine h.advance base hnext (by simp) (by rw [hpc]; rfl) hroom hframe ⟨by rw [hlen], Nat.zero_le _, ?_⟩
    intro j hj
    rw [if_neg (Nat.not_lt_zero j)]
    exact hzero' j (by omega)

theorem Inv.memcpy {s : State} (h : Inv base s) {i : Nat} (hpc : s.pc = .memcpy i) : Inv base (sendStep base s) := by
  have hnext : s.pc ≠ .next := by rw [hpc]; nofun
  have hroom : s.queue.length ≤ 1 := h.room (by rw [hpc]; rfl)
  have hp := h.progress
  simp only [Progress, hpc] at hp
  obtain ⟨hlen, hi, hfill⟩ := hp
  simp only [sendStep, hpc]
  split
  case isTrue hlt =>
    refine h.advance base hnext nofun (by rw [hpc]; rfl) hroom
      (h.frameOf_store base hnext hroom (show i < 1514 by omega) (s.uipBuf i)) ?_
    exact ⟨hlen, hlt, hfill.succ⟩
  case isFalse hge =>
    refine h.advance base hnext nofun (by rw [hpc]; rfl) hroom (fun _ _ => rfl) ?_
    have heq : i = min s.uipLen.toNat 1514 := by omega
    subst heq
    exact ⟨by rw [hlen], hfill⟩

/-- The registers are written, and the reader is ready. -/
theorem Inv.registers {s : State} (h : Inv base s) (hpc : s.pc = .slotWrite ∨ s.pc = .lengthWrite ∨ s.pc = .ready) :
    Inv base (sendStep base s) := by
  have hp := h.progress
  rcases hpc with hpc | hpc | hpc <;>
    (have hnext : s.pc ≠ .next := by rw [hpc]; nofun
     have hroom : s.queue.length ≤ 1 := h.room (by rw [hpc]; rfl)
     simp only [Progress, hpc] at hp
     simp only [sendStep, hpc])
  · refine h.advance base hnext nofun (by rw [hpc]; rfl) hroom (fun _ _ => rfl) ?_
    exact ⟨hp.1, hp.2, rfl⟩
  · refine h.advance base hnext nofun (by rw [hpc]; rfl) hroom (fun _ _ => rfl) ?_
    exact ⟨hp.2.1, hp.2.2, hp.1⟩
  · rw [if_pos (Nat.lt_succ_of_le hroom)]
    exact h.advance base hnext nofun (by rw [hpc]; rfl) hroom (fun _ _ => rfl) hp

/-- What the started command's frame is: the frame given, if it fits the buffer. -/
theorem Inv.started {s : State} (h : Inv base s) (hpc : s.pc = .start) :
    frameOf base s.sram ⟨s.slot, s.length⟩ = padded (window s.uipBuf 0 (min s.uipLen.toNat 1514)) := by
  have hp := h.progress
  simp only [Progress, hpc] at hp
  rw [frameOf, hp.2.1, hp.2.2, ← h.txbuffer]
  exact hp.1.window_eq

theorem Inv.start {s : State} (h : Inv base s) (hpc : s.pc = .start) (hlen : s.uipLen.toNat ≤ 1514) :
    Inv base (sendStep base s) := by
  have hroom : s.queue.length ≤ 1 := h.room (by rw [hpc]; rfl)
  have hframe := h.started base hpc
  have hslots := h.slots_of_room base hroom
  have hfs := h.frames
  have hp := h.progress
  have ht := h.txslot
  simp only [Progress, hpc] at hp
  simp only [turn, hpc, reduceCtorEq, if_false] at hslots
  simp only [pendingFrame, hpc, Pc.pending, if_true] at hfs
  rw [Nat.min_eq_left hlen] at hframe hp
  simp only [sendStep, hpc, if_pos (Nat.lt_succ_of_le hroom)]
  refine { txslot := h.txslot, txbuffer := h.txbuffer, slots := ?_, short := ?_, room := nofun, frames := ?_,
           sending := ?_, quiet := ?_, progress := trivial }
  · obtain ⟨t, hsuf⟩ := hslots
    refine ⟨t, ?_⟩
    rw [List.map_append, ← List.append_assoc, hsuf]
    simp only [turn, if_true, hp.2.1, List.map_cons, List.map_nil, List.cons_append, List.nil_append, List.cons.injEq,
      and_true, true_and]
    omega
  · intro c hc
    rcases List.mem_append.1 hc with hc | hc
    · exact h.short c hc
    · rw [List.mem_singleton.1 hc]
      show s.length ≤ 1514
      omega
  · simp only [List.map_append, List.map_cons, List.map_nil, hframe, pendingFrame, Pc.pending]
    simpa using hfs
  · intro c hc
    cases hq : s.queue with
    | nil =>
      rw [h.quiet hq]
      exact List.nil_prefix
    | cons d q =>
      apply h.sending c
      rw [hq] at hc ⊢
      exact hc
  · intro hq
    simp at hq

theorem Inv.next {s : State} (h : Inv base s) (hpc : s.pc = .next) : Inv base (sendStep base s) := by
  have hslots := h.slots
  have hfs := h.frames
  have ht := h.txslot
  simp only [turn, hpc, if_true] at hslots
  simp only [pendingFrame, hpc, Pc.pending] at hfs
  simp only [sendStep, hpc]
  refine { txslot := Nat.mod_lt _ (by decide), txbuffer := ?_, slots := hslots, short := h.short, room := nofun,
           frames := hfs, sending := h.sending, quiet := h.quiet, progress := trivial }
  show (if (s.txslot + 1) % 2 ≠ 0 then ethmacTx1Base base else ethmacTx0Base base) = slotBase base ((s.txslot + 1) % 2)
  rcases Nat.mod_two_eq_zero_or_one (s.txslot + 1) with h0 | h1
  · rw [h0]
    rfl
  · rw [h1]
    rfl

theorem Inv.call {s : State} (h : Inv base s) (hpc : s.pc = .idle) (uipBuf : Nat → Byte) (uipLen : BitVec 16) :
    Inv base (step base s (.send uipBuf uipLen)) := by
  have hslots := h.slots
  have hfs := h.frames
  simp only [turn, hpc, reduceCtorEq, if_false] at hslots
  simp only [pendingFrame, hpc, Pc.pending, Bool.false_eq_true, if_false, List.append_nil] at hfs
  simp only [step, if_pos hpc]
  refine { txslot := h.txslot, txbuffer := h.txbuffer, slots := hslots, short := h.short, room := nofun, frames := ?_,
           sending := h.sending, quiet := h.quiet, progress := ⟨by decide, rfl, nofun⟩ }
  rw [← hfs]
  rfl

/-- One cell more of a window of which a prefix is out. -/
theorem prefix_window_concat {m : Nat → Byte} {p n : Nat} {out : List Byte} (h : out <+: window m p n)
    (hlt : out.length < n) : out ++ [m (p + out.length)] <+: window m p n := by
  have hout : out = window m p out.length := by
    rw [← take_window m p n out.length (by omega)]
    exact List.prefix_iff_eq_take.1 h
  have hone : [m (p + out.length)] = window m (p + out.length) 1 := rfl
  obtain ⟨d, rfl⟩ := Nat.exists_eq_add_of_lt hlt
  rw [show out.length + d + 1 = out.length + 1 + d by omega, window_add, window_add, ← hout, hone]
  exact List.prefix_append _ _

theorem Inv.read {s : State} (h : Inv base s) : Inv base (step base s .read) := by
  cases hq : s.queue with
  | nil =>
    simp only [step, hq]
    exact h
  | cons c q =>
    by_cases hlt : s.sending.length < c.length
    · have hstep : step base s .read =
          { s with sending := s.sending ++ [s.sram (slotBase base c.slot + s.sending.length)] } := by
        simp [step, hq, hlt]
      have hs := h.sending c (by rw [hq]; rfl)
      rw [hstep]
      refine { txslot := h.txslot, txbuffer := h.txbuffer, slots := h.slots, short := h.short, room := h.room,
               frames := h.frames, sending := ?_, quiet := ?_, progress := h.progress }
      · intro d hd
        rw [hq] at hd
        cases hd
        exact prefix_window_concat hs hlt
      · intro hnil
        rw [hq] at hnil
        cases hnil
    · simp only [step, hq, if_neg hlt]
      exact h

theorem Inv.retire {s : State} (h : Inv base s) : Inv base (step base s .retire) := by
  cases hq : s.queue with
  | nil =>
    simp only [step, hq]
    exact h
  | cons c q =>
    by_cases heq : s.sending.length = c.length
    · have hs := (h.sending c (by rw [hq]; rfl)).eq_of_length (by rw [heq, frameOf, length_window])
      simp only [step, hq, if_pos heq]
      refine { txslot := h.txslot, txbuffer := h.txbuffer, slots := ?_, short := ?_, room := ?_, frames := ?_,
               sending := fun _ _ => List.nil_prefix, quiet := fun _ => rfl, progress := h.progress }
      · have := h.slots
        rw [hq] at this
        exact (List.suffix_cons _ _).trans this
      · intro d hd
        exact h.short d (by rw [hq]; exact List.mem_cons_of_mem _ hd)
      · intro hb
        have := h.room hb
        rw [hq] at this
        exact Nat.le_of_succ_le this
      · have := h.frames
        rw [hq] at this
        simpa [pendingFrame, hs] using this
    · simp only [step, hq, if_neg heq]
      exact h

theorem Inv.kept {s : State} (h : Inv base s) (e : Event) (hok : Prompt s e) : Inv base (step base s e) := by
  cases e with
  | send uipBuf uipLen =>
    by_cases hpc : s.pc = .idle
    · exact h.call base hpc uipBuf uipLen
    · simp only [step, if_neg hpc]
      exact h
  | driver =>
    show Inv base (sendStep base s)
    cases hpc : s.pc with
    | idle =>
      simp only [sendStep, hpc]
      exact h
    | memset i =>
      refine h.memset base hpc ?_
      cases i with
      | zero   => exact hok.1 hpc
      | succ i => exact h.room (by rw [hpc]; rfl)
    | memcpy i    => exact h.memcpy base hpc
    | slotWrite   => exact h.registers base (.inl hpc)
    | lengthWrite => exact h.registers base (.inr (.inl hpc))
    | ready       => exact h.registers base (.inr (.inr hpc))
    | start       => exact h.start base hpc (hok.2 hpc)
    | next        => exact h.next base hpc
  | read   => exact h.read base
  | retire => exact h.retire base

/-! ## What a step does to the frames -/

theorem Inv.untouched {s : State} (h : Inv base s) (e : Event) (hok : Prompt s e) : Untouched base s e := by
  cases e with
  | driver =>
    intro a ha c hc
    cases hpc : s.pc with
    | memset i =>
      simp only [stores, hpc, Option.mem_def, Option.some.injEq] at ha
      have hroom : s.queue.length ≤ 1 := by
        cases i with
        | zero   => exact hok.1 hpc
        | succ i => exact h.room (by rw [hpc]; rfl)
      have hp := h.progress
      simp only [Progress, hpc] at hp
      rw [← ha, h.txbuffer]
      exact not_inSlot base (h.other base (by rw [hpc]; nofun) hroom c hc) (by omega)
    | memcpy i =>
      have hp := h.progress
      simp only [Progress, hpc] at hp
      simp only [stores, hpc] at ha
      split at ha
      · simp only [Option.mem_def, Option.some.injEq] at ha
        rw [← ha, h.txbuffer]
        exact not_inSlot base (h.other base (by rw [hpc]; nofun) (h.room (by rw [hpc]; rfl)) c hc) (by omega)
      · cases ha
    | _ =>
      simp only [stores, hpc] at ha
      cases ha
  | send _ _ => trivial
  | read     => trivial
  | retire   => trivial

/-- A send that finds both commands taken stores into the slot of the first. -/
theorem Inv.touched {s : State} (h : Inv base s) (hpc : s.pc = .memset 0) (hfull : ¬ s.queue.length ≤ 1) :
    ¬ Untouched base s .driver := by
  intro hun
  have hs := h.slots
  rw [turn, if_neg (by rw [hpc]; nofun)] at hs
  rcases List.suffix_cons_iff.1 hs with heq | hsuf
  · cases hq : s.queue with
    | nil       => simp [hq] at hfull
    | cons c q  =>
      rw [hq, List.map_cons, List.cons.injEq] at heq
      refine hun (s.txbuffer + 0) (by simp [stores, hpc]) c (by rw [hq]; exact List.mem_cons_self) ?_
      rw [h.txbuffer, ← heq.1]
      exact inSlot_self base (by decide)
  · have := hsuf.length_le
    simp only [List.length_map, List.length_cons, List.length_nil] at this
    omega

/-- A frame that does not fit is cut. -/
theorem Inv.cut {s : State} (h : Inv base s) (hpc : s.pc = .start) (hlen : ¬ s.uipLen.toNat ≤ 1514) :
    ¬ Intact base (step base s .driver) := by
  intro hin
  have hroom : s.queue.length ≤ 1 := h.room (by rw [hpc]; rfl)
  have hfs := h.frames
  have hframe := h.started base hpc
  have hord := hin.inOrder
  simp only [pendingFrame, hpc, Pc.pending, if_true] at hfs
  simp only [step, sendStep, hpc, if_pos (Nat.lt_succ_of_le hroom), List.map_append, List.map_cons, List.map_nil, hframe,
    ← hfs, ← List.append_assoc] at hord
  have heq := (List.prefix_append_right_inj _).1 hord
  have hlast := congrArg List.length (List.cons_prefix_cons.1 heq).1
  simp only [length_padded, length_window] at hlast
  omega

theorem Inv.prompt_iff {s : State} (h : Inv base s) (e : Event) :
    Untouched base s e ∧ Intact base (step base s e) ↔ Prompt s e := by
  constructor
  · rintro ⟨hun, hin⟩
    cases e with
    | driver =>
      constructor
      · intro hpc
        by_contra hfull
        exact h.touched base hpc hfull hun
      · intro hpc
        by_contra hlen
        exact h.cut base hpc hlen hin
    | send _ _ => trivial
    | read     => trivial
    | retire   => trivial
  · intro hok
    exact ⟨h.untouched base e hok, (h.kept base e hok).intact base⟩

/-! ## Every frame given leaves -/

/-- The steps the driver has left, at most. -/
def Pc.left : Pc → Nat
  | .idle        => 0
  | .next        => 1
  | .start       => 2
  | .ready       => 3
  | .lengthWrite => 4
  | .slotWrite   => 5
  | .memcpy i    => 6 + (1514 - i)
  | .memset i    => 1521 + (60 - i)

/-- The bytes and retirements the reader has left. -/
def readerLeft (s : State) : Nat := (s.queue.map fun c => c.length + 1).sum - s.sending.length

/-- A step inside a send brings its end nearer, and is about the same frame. -/
theorem Inv.sendStep_left {s : State} (h : Inv base s) (hroom : s.queue.length ≤ 1) (hpc : s.pc ≠ .idle) :
    (sendStep base s).pc.left < s.pc.left ∧ (sendStep base s).given = s.given ∧
      (sendStep base s).uipLen = s.uipLen ∧ ((sendStep base s).pc.pending = true → s.pc.pending = true) := by
  have hp := h.progress
  cases hc : s.pc with
  | idle     => exact absurd hc hpc
  | memset i =>
    simp only [Progress, hc] at hp
    by_cases hi : i + 1 < 60
    · simp only [sendStep, hc, if_pos hi, Pc.left, Pc.pending, imp_self, and_true]
      omega
    · simp only [sendStep, hc, if_neg hi, Pc.left, Pc.pending, imp_self, and_true]
      omega
  | memcpy i =>
    simp only [Progress, hc] at hp
    by_cases hi : i < s.txlen
    · simp only [sendStep, hc, if_pos hi, Pc.left, Pc.pending, imp_self, and_true]
      omega
    · simp only [sendStep, hc, if_neg hi, Pc.left, Pc.pending, imp_self, and_true]
      omega
  | ready    => simp [sendStep, hc, Nat.lt_succ_of_le hroom, Pc.left, Pc.pending]
  | _        => simp [sendStep, hc, Pc.left, Pc.pending]

/-- An event of the driver or the reader brings the end of their work nearer, as long as there is some. -/
theorem Inv.nearer {s : State} (h : Inv base s) (hfits : s.pc.pending = true → s.uipLen.toNat ≤ 1514)
    (hwork : s.queue ≠ [] ∨ s.pc ≠ .idle) :
    ∃ e, Prompt s e ∧ (step base s e).given = s.given ∧
      ((step base s e).pc.pending = true → (step base s e).uipLen.toNat ≤ 1514) ∧
      ((step base s e).pc.left < s.pc.left ∨
        (step base s e).pc.left = s.pc.left ∧ readerLeft (step base s e) < readerLeft s) := by
  cases hq : s.queue with
  | nil =>
    have hpc : s.pc ≠ .idle := hwork.resolve_left (fun hne => hne hq)
    have hroom : s.queue.length ≤ 1 := by simp [hq]
    obtain ⟨hl, hg, hu, hpend⟩ := h.sendStep_left base hroom hpc
    refine ⟨.driver, ⟨fun _ => hroom, fun hs => hfits (by rw [hs]; rfl)⟩, hg, ?_, .inl hl⟩
    intro hp
    show (sendStep base s).uipLen.toNat ≤ 1514
    rw [hu]
    exact hfits (hpend hp)
  | cons c q =>
    have hle := (h.sending c (by rw [hq]; rfl)).length_le
    rw [frameOf, length_window] at hle
    by_cases hlt : s.sending.length < c.length
    · refine ⟨.read, trivial, by simp [step, hq, hlt], by simpa [step, hq, hlt] using hfits,
        .inr ⟨by simp [step, hq, hlt], ?_⟩⟩
      simp only [step, hq, if_pos hlt, readerLeft, List.map_cons, List.sum_cons, List.length_append,
        List.length_singleton]
      omega
    · have heq : s.sending.length = c.length := by omega
      refine ⟨.retire, trivial, by simp [step, hq, heq], by simpa [step, hq, heq] using hfits,
        .inr ⟨by simp [step, hq, heq], ?_⟩⟩
      simp only [step, hq, if_pos heq, readerLeft, List.map_cons, List.sum_cons, List.length_nil]
      omega

/-- **Every frame given leaves**: what the driver and the reader still have to do is finite, and ends with all frames on
the wire. -/
theorem all_leave {s : State} (h : Inv base s) (hfits : s.pc.pending = true → s.uipLen.toNat ≤ 1514) :
    ∃ es, AllSteps (step base) Prompt s es ∧ (es.foldl (step base) s).wire = s.given := by
  induction hm : (s.pc.left, readerLeft s) using (Prod.lex Nat.lt_wfRel Nat.lt_wfRel).wf.induction generalizing s with
  | _ m ih =>
    subst hm
    by_cases hwork : s.queue ≠ [] ∨ s.pc ≠ .idle
    · obtain ⟨e, hok, hg, hf, hless⟩ := h.nearer base hfits hwork
      obtain ⟨es, hes, hwire⟩ := ih _ (by
        rcases hless with hl | ⟨hl, hr⟩
        · exact Prod.Lex.left _ _ hl
        · rw [hl]
          exact Prod.Lex.right _ hr) (h.kept base e hok) hf rfl
      exact ⟨e :: es, ⟨hok, hes⟩, by rw [List.foldl_cons, hwire, hg]⟩
    · rw [not_or, not_not, not_not] at hwork
      have hfs := h.frames
      simp only [hwork.1, hwork.2, pendingFrame, Pc.pending, List.map_nil, List.append_nil, Bool.false_eq_true,
        if_false] at hfs
      exact ⟨[], trivial, hfs⟩

/-! ## Every run of the driver -/

/-- The reader after reset, and the driver after its initialisation. -/
def initial (sram uipBuf : Nat → Byte) : State :=
  liteethmacInit base
    { sram, txslot := 0, txlen := 0, txbuffer := 0, uipBuf, uipLen := 0, pc := .idle, slot := 0, length := 0, queue := [],
      sending := [], wire := [], given := [] }

theorem inv_initial (sram uipBuf : Nat → Byte) : Inv base (initial base sram uipBuf) where
  txslot   := Nat.zero_lt_two
  txbuffer := by simp only [initial, liteethmacInit, ethmacTx0Base, slotBase, Nat.zero_mul, Nat.add_zero]
  slots    := List.nil_suffix
  short    := nofun
  room     := nofun
  frames   := rfl
  sending  := nofun
  quiet    := fun _ => rfl
  progress := trivial

/-- **The frames leave as they were given, and no slot in flight is modified, exactly when every send is prompt**: its
first byte is stored with a place in the queue, and its frame is of at most 1514 bytes.  And behind every such run, if the
frame in work is no longer, the driver and the reader can finish with all frames given on the wire. -/
theorem intact_iff (sram uipBuf : Nat → Byte) (es : List Event) :
    let s := es.foldl (step base) (initial base sram uipBuf)
    (AllSteps (step base) (fun s e => Untouched base s e ∧ Intact base (step base s e)) (initial base sram uipBuf) es ↔
      AllSteps (step base) Prompt (initial base sram uipBuf) es) ∧
      (AllSteps (step base) Prompt (initial base sram uipBuf) es → (s.pc.pending = true → s.uipLen.toNat ≤ 1514) →
        ∃ more, AllSteps (step base) Prompt s more ∧ (more.foldl (step base) s).wire = s.given) := by
  intro s
  constructor
  · refine Runs.allSteps_congr (R := fun s a => s = a ∧ Inv base s) ?_ ?_ es ⟨rfl, inv_initial base sram uipBuf⟩
    · rintro s _ e ⟨rfl, h⟩
      exact h.prompt_iff base e
    · rintro s _ e ⟨rfl, h⟩ hok
      exact ⟨rfl, h.kept base e hok⟩
  · intro hprompt hfits
    have hkept : ∀ s e, Inv base s → Prompt s e → True ∧ Inv base (step base s e) :=
      fun _ e h hok => ⟨trivial, h.kept base e hok⟩
    have hall := (hprompt.inv hkept (inv_initial base sram uipBuf)).2
    exact all_leave base ((Runs.allStates_iff_prefix _ es _).1 hall es (List.prefix_refl es)) hfits

/-- Three sends of one byte while the reader is still at the first frame. -/
theorem not_intact_third_send :
    ¬ ∀ (base : Nat) (sram uipBuf : Nat → Byte) (es : List Event),
      AllSteps (step base) (fun s e => Untouched base s e ∧ Intact base (step base s e)) (initial base sram uipBuf) es := by
  intro h
  let frame := Event.send (fun _ => 0xff) 1
  let pre := frame :: List.replicate 67 .driver ++ frame :: List.replicate 67 .driver ++ [frame]
  have hlast := (Runs.allSteps_iff_prefix _ _ _).1 (h 0xb0000000 (fun _ => 0) (fun _ => 0) (pre ++ [.driver])) pre .driver
    List.prefix_rfl
  exact absurd hlast.1 (by decide +kernel)

end LiteEthMac
end Hdmi2Usb
