import Hdmi2Usb.Fx2Loader
/-!
# Fx2Slots — the slave slot by slot

Where the core of `I2CShiftReg` is in each slot of a transaction: before it sees SCL low, while it does, and after it
has seen SCL high.  The lemmas say what a cycle does to each, and what the core does to the lines meanwhile.
-/
namespace Hdmi2Usb
namespace Fx2

open I2cBus (Level)
open I2cShiftReg SampledWire

/-! ## Bytes bit by bit -/

/-- The lowest `i` bits of `b` are the first `i` of `v`. -/
def Begun (v : Byte) (i : Nat) (b : Byte) : Prop := ∀ j < i, b.getLsbD j = v.getLsbD (8 - i + j)

theorem begun_zero (v b : Byte) : Begun v 0 b := fun _ hj => absurd hj (Nat.not_lt_zero _)

theorem Begun.concat {v b : Byte} {i : Nat} (h : Begun v i b) (hi : i < 8) :
    Begun v (i + 1) ((b.setWidth 7).concat (v.getMsbD i)) := by
  intro j hj
  cases j with
  | zero =>
    simp [BitVec.getMsbD, hi]
  | succ j =>
    have := h j (by omega)
    simp [show j < 7 by omega, this]
    congr 1
    omega

theorem Begun.eq {v b : Byte} (h : Begun v 8 b) : b = v := by
  apply BitVec.eq_of_getLsbD_eq
  intro j hj
  simpa using h j hj

/-! ## The core, slot by slot -/

theorem readAddress_reads : readAddress[0] = true := by decide

/-- The core has shifted `k` bits of `b` out. -/
structure Sent (b : Byte) (k : Nat) (c : Core) : Prop where
  fsm     : c.fsm = .doRead
  counter : c.counter = k
  dataDrv : c.dataDrv = true
  dataBit : c.dataBit = b.getMsbD (k - 1)
  isRead  : c.isRead = true
  le      : k ≤ 8

/-- The data leaves SDA alone. -/
def Off (c : Core) : Prop := c.dataDrv = true → c.dataBit = true

theorem off_of_dataDrv {c : Core} (h : c.dataDrv = false) : Off c := by
  intro hdrv
  rw [h] at hdrv
  cases hdrv

theorem Off.sdaDrv {c : Core} (h : Off c) (hzero : c.zeroDrv = false) : c.sdaDrv = false := by
  unfold Off at h
  cases hdrv : c.dataDrv <;> simp_all [Core.sdaDrv]

/-- The core has `i` bits of the address. -/
structure Addressing (i : Nat) (c : Core) : Prop where
  fsm     : c.fsm = .rcvAddress
  counter : c.counter = i
  din     : Begun readAddress i c.din
  off     : Off c

theorem Addressing.sdaDrv {i : Nat} {c : Core} (h : Addressing i c) : c.sdaDrv = false :=
  h.off.sdaDrv (by simp [Core.zeroDrv, h.fsm])

/-- What the slot is for the core, which does not know that the master ends the transaction. -/
def Slot.core : Slot → Slot
  | .stop | .restart => .data 0
  | slot             => slot

/-- The core before it has seen SCL low in the slot. -/
def Before (b : Byte) : Slot → Core → Prop
  | .address i, c      => i < 8 ∧ Addressing i c
  | .addressAck, c     => c.fsm = .ackAddress0 ∧ c.dataDrv = false ∧ c.isRead = true
  | .data 0, c         => (c.fsm = .ackAddress2 ∨ c.fsm = .ackRead1) ∧ c.dataDrv = false ∧ c.isRead = true
  | .data (k + 1), c   => k < 7 ∧ Sent b (k + 1) c
  | .dataAck _, c      => Sent b 8 c
  | .stop, _           => False
  | .restart, _        => False

/-- The core while it sees SCL low in the slot. -/
def During (b : Byte) : Slot → Core → Prop
  | .address i, c      => i < 8 ∧ Addressing i c
  | .addressAck, c     => c.fsm = .ackAddress1 ∧ c.dataDrv = false ∧ c.isRead = true
  | .data 0, c         => c.isRead = true ∧ c.counter = 0 ∧
      (c.fsm = .pause ∧ c.dataDrv = false ∨ c.fsm = .doRead ∧ (c.dataDrv = true → c.dataBit = b.getMsbD 0))
  | .data (k + 1), c   => k < 7 ∧ c.isRead = true ∧ c.counter = k + 1 ∧ c.fsm = .doRead ∧ c.dataDrv = true ∧
      c.dataBit = b.getMsbD (k + 1)
  | .dataAck _, c      => c.fsm = .ackRead0 ∧ c.dataDrv = false ∧ c.isRead = true
  | .stop, _           => False
  | .restart, _        => False

/-- The core when it has seen SCL high in the slot. -/
def After (b : Byte) : Slot → Core → Prop
  | .address i, c      => i = 7 ∧ (Addressing 8 c ∨ Before b .addressAck c) ∨ Before b (.address (i + 1)) c
  | .addressAck, c     => c.fsm = .ackAddress2 ∧ c.dataDrv = false ∧ c.isRead = true
  | .data k, c         => k < 8 ∧ Sent b (k + 1) c
  | .dataAck ack, c    => ack = true ∧ c.fsm = .ackRead1 ∧ c.dataDrv = false ∧ c.isRead = true
  | .stop, _           => False
  | .restart, _        => False

section Cycles

variable {b : Byte} {slot : Slot} {c : Core}

attribute [local simp] Core.cycle Core.act Core.sdaDrv Core.zeroDrv Core.dataDrvEn Core.dataDrvStop Core.counterReset
  Core.addressed Core.statusDev Wire.rising Wire.falling

theorem Addressing.quiet {i : Nat} (h : Addressing i c) (hlt : i < 8) (hrising : c.scl.rising = false)
    (hstart : c.start = false) (hre : c.slaveAddrRe = false) (lines : Level) (w : Option Write) :
    Addressing i (c.cycle lines w) := by
  obtain ⟨hfsm, hcounter, hdin, -⟩ := h
  have hne : i ≠ 8 := by omega
  have hedge : c.scl.i = true → c.scl.r = true := by simpa [Wire.rising] using hrising
  refine ⟨?_, ?_, ?_, off_of_dataDrv ?_⟩
  · simp [*]
  · cases hi : c.scl.i <;> simp_all
  · cases hi : c.scl.i <;> simp_all
  · simp [*]

/-- Nothing happens while SCL is seen high. -/
theorem Before.quiet (h : Before b slot c) (hi : c.scl.i = true) (hr : c.scl.r = true) (hstart : c.start = false)
    (hre : c.slaveAddrRe = false) (lines : Level) (w : Option Write) :
    Before b slot (c.cycle lines w) ∧ (c.cycle lines w).sdaDrv = c.sdaDrv := by
  cases slot with
  | address i =>
    obtain ⟨hlt, haddressing⟩ := h
    have hnext := haddressing.quiet hlt (by simp [hi, hr]) hstart hre lines w
    exact ⟨⟨hlt, hnext⟩, hnext.sdaDrv.trans haddressing.sdaDrv.symm⟩
  | addressAck =>
    obtain ⟨hfsm, hdrv, hread⟩ := h
    refine ⟨⟨?_, ?_, ?_⟩, ?_⟩ <;> simp [*]
  | data k =>
    cases k with
    | zero =>
      obtain ⟨hfsm | hfsm, hdrv, hread⟩ := h
      · refine ⟨⟨?_, ?_, ?_⟩, ?_⟩ <;> simp [*]
      · refine ⟨⟨?_, ?_, ?_⟩, ?_⟩ <;> simp [*]
    | succ k =>
      obtain ⟨hlt, hfsm, hcounter, hdrv, hbit, hread, hle⟩ := h
      refine ⟨⟨hlt, ?_, ?_, ?_, ?_, ?_, hle⟩, ?_⟩ <;> simp [*]
  | dataAck ack =>
    obtain ⟨hfsm, hcounter, hdrv, hbit, hread, hle⟩ := h
    refine ⟨⟨?_, ?_, ?_, ?_, ?_, hle⟩, ?_⟩ <;> simp [*]
  | stop    => exact absurd h id
  | restart => exact absurd h id

/-- SCL is seen to fall. -/
theorem Before.fall (h : Before b slot c) (hi : c.scl.i = false) (hr : c.scl.r = true) (hstart : c.start = false)
    (hre : c.slaveAddrRe = false) (hb : c.fsm = .doRead → c.shiftReg = b) (lines : Level) (w : Option Write) :
    During b slot (c.cycle lines w) ∧ (slot = .data 0 → (c.cycle lines w).fsm = .pause) := by
  cases slot with
  | address i =>
    obtain ⟨hlt, haddressing⟩ := h
    exact ⟨⟨hlt, haddressing.quiet hlt (by simp [hi]) hstart hre lines w⟩, nofun⟩
  | addressAck =>
    obtain ⟨hfsm, hdrv, hread⟩ := h
    refine ⟨⟨?_, ?_, ?_⟩, nofun⟩ <;> simp [*]
  | data k =>
    cases k with
    | zero =>
      obtain ⟨hfsm | hfsm, hdrv, hread⟩ := h
      · refine ⟨⟨?_, ?_, .inl ⟨?_, ?_⟩⟩, fun _ => ?_⟩ <;> simp [*]
      · refine ⟨⟨?_, ?_, .inl ⟨?_, ?_⟩⟩, fun _ => ?_⟩ <;> simp [*]
    | succ k =>
      obtain ⟨hlt, hfsm, hcounter, hdrv, hbit, hread, hle⟩ := h
      have hne : k + 1 ≠ 8 := by omega
      have hbyte := hb hfsm
      refine ⟨⟨hlt, ?_, ?_, ?_, ?_, ?_⟩, nofun⟩ <;> simp [*]
  | dataAck ack =>
    obtain ⟨hfsm, hcounter, hdrv, hbit, hread, hle⟩ := h
    refine ⟨⟨?_, ?_, ?_⟩, nofun⟩ <;> simp [*]
  | stop    => exact absurd h id
  | restart => exact absurd h id

/-- While SCL is seen low nothing happens but the wait for the firmware. -/
theorem During.quiet (h : During b slot c) (hi : c.scl.i = false) (hr : c.scl.r = false) (hstart : c.start = false)
    (hre : c.slaveAddrRe = false) (hb : c.fsm = .doRead → c.shiftReg = b) (lines : Level) (w : Option Write) :
    During b slot (c.cycle lines w) ∧ (slot ≠ .data 0 → (c.cycle lines w).sdaDrv = c.sdaDrv) := by
  cases slot with
  | address i =>
    obtain ⟨hlt, haddressing⟩ := h
    have hnext := haddressing.quiet hlt (by simp [hi]) hstart hre lines w
    exact ⟨⟨hlt, hnext⟩, fun _ => hnext.sdaDrv.trans haddressing.sdaDrv.symm⟩
  | addressAck =>
    obtain ⟨hfsm, hdrv, hread⟩ := h
    refine ⟨⟨?_, ?_, ?_⟩, fun _ => ?_⟩ <;> simp [*]
  | data k =>
    cases k with
    | zero =>
      obtain ⟨hread, hcounter, ⟨hfsm, hdrv⟩ | ⟨hfsm, hbit⟩⟩ := h
      · refine ⟨⟨?_, ?_, ?_⟩, nofun⟩
        · simp [*]
        · simp [*]
        · cases hstatus : c.status[1]
          · refine .inr ⟨?_, ?_⟩ <;> simp [*]
          · refine .inl ⟨?_, ?_⟩ <;> simp [*]
      · have hbyte := hb hfsm
        refine ⟨⟨?_, ?_, .inr ⟨?_, fun _ => ?_⟩⟩, nofun⟩ <;> simp [*]
    | succ k =>
      obtain ⟨hlt, hread, hcounter, hfsm, hdrv, hbit⟩ := h
      have hne : k + 1 ≠ 8 := by omega
      have hbyte := hb hfsm
      refine ⟨⟨hlt, ?_, ?_, ?_, ?_, ?_⟩, fun _ => ?_⟩ <;> simp [*]
  | dataAck ack =>
    obtain ⟨hfsm, hdrv, hread⟩ := h
    refine ⟨⟨?_, ?_, ?_⟩, fun _ => ?_⟩ <;> simp [*]
  | stop    => exact absurd h id
  | restart => exact absurd h id

/-- With SCL seen low the core leaves its pause, drives the first bit a cycle later and then keeps it. -/
theorem During.first (h : During b (.data 0) c) (hi : c.scl.i = false) (hr : c.scl.r = false) (hstart : c.start = false)
    (hre : c.slaveAddrRe = false) (hb : c.fsm = .doRead → c.shiftReg = b) (lines : Level) (w : Option Write) :
    (c.fsm = .pause → (c.cycle lines w).dataDrv = false) ∧
      (c.fsm = .doRead → (c.cycle lines w).fsm = .doRead ∧ (c.cycle lines w).dataDrv = true ∧
        (c.dataDrv = true → (c.cycle lines w).sdaDrv = c.sdaDrv)) := by
  obtain ⟨hread, hcounter, ⟨hfsm, hdrv⟩ | ⟨hfsm, hbit⟩⟩ := h
  · refine ⟨fun _ => ?_, fun hne => ?_⟩
    · simp [*]
    · rw [hfsm] at hne
      cases hne
  · have hbyte := hb hfsm
    refine ⟨fun hne => ?_, fun _ => ⟨?_, ?_, fun hdrv => ?_⟩⟩
    · rw [hfsm] at hne
      cases hne
    · simp [*]
    · simp [*]
    · have hbit' := hbit hdrv
      simp [*]

/-- SCL is seen to rise in a bit of the address. -/
theorem Addressing.rise {i : Nat} (h : Addressing i c) (hi : c.scl.i = true) (hr : c.scl.r = false)
    (hstart : c.start = false) (hre : c.slaveAddrRe = false) (hlt : i < 8) (hsda : c.sda.i = readAddress.getMsbD i)
    (lines : Level) (w : Option Write) :
    Addressing (i + 1) (c.cycle lines w) ∧ (c.cycle lines w).sdaDrv = c.sdaDrv := by
  have hquiet := h.sdaDrv
  obtain ⟨hfsm, hcounter, hdin, -⟩ := h
  have hne : i ≠ 8 := by omega
  have hconcat := hdin.concat hlt
  have hnext : Addressing (i + 1) (c.cycle lines w) := by
    refine ⟨?_, ?_, ?_, off_of_dataDrv ?_⟩ <;> simp [*]
  exact ⟨hnext, hnext.sdaDrv.trans hquiet.symm⟩

/-- The whole address is the slave's. -/
theorem Addressing.matched (h : Addressing 8 c) (hi : c.scl.i = true) (hr : c.scl.r = true) (hstart : c.start = false)
    (hre : c.slaveAddrRe = false) (haddr : c.slaveAddr = hackSlaveAddress) (b : Byte) (lines : Level)
    (w : Option Write) :
    Before b .addressAck (c.cycle lines w) ∧ (c.cycle lines w).sdaDrv = c.sdaDrv := by
  rw [h.sdaDrv]
  obtain ⟨hfsm, hcounter, hdin, -⟩ := h
  have hdin' := hdin.eq
  have haddress : readAddress.extractLsb' 1 7 = hackSlaveAddress := by decide
  refine ⟨⟨?_, ?_, ?_⟩, ?_⟩ <;> simp [*, readAddress_reads]

/-- SCL is seen to rise; in the slots that the master drives with SDA as it should be. -/
theorem During.rise (h : During b slot c) (hi : c.scl.i = true) (hr : c.scl.r = false) (hstart : c.start = false)
    (hre : c.slaveAddrRe = false) (hsda : c.sda.i = slot.sda ∨ slot = .addressAck ∨ ∃ k, slot = .data k)
    (hzero : slot = .data 0 → c.fsm = .doRead ∧ c.dataDrv = true) (hack : slot ≠ .dataAck false)
    (lines : Level) (w : Option Write) :
    After b slot (c.cycle lines w) ∧ (c.cycle lines w).sdaDrv = c.sdaDrv := by
  cases slot with
  | address i =>
    obtain ⟨hlt, haddressing⟩ := h
    have hsda' : c.sda.i = readAddress.getMsbD i := by
      rcases hsda with hsda | hsda | ⟨k, hsda⟩
      · exact hsda
      · cases hsda
      · cases hsda
    have hnext := haddressing.rise hi hr hstart hre hlt hsda' lines w
    refine ⟨?_, hnext.2⟩
    by_cases h7 : i = 7
    · subst h7
      exact .inl ⟨rfl, .inl hnext.1⟩
    · exact .inr ⟨by omega, hnext.1⟩
  | addressAck =>
    obtain ⟨hfsm, hdrv, hread⟩ := h
    refine ⟨⟨?_, ?_, ?_⟩, ?_⟩ <;> simp [*]
  | data k =>
    cases k with
    | zero =>
      obtain ⟨hread, hcounter, ⟨hfsm, -⟩ | ⟨hfsm, hbit⟩⟩ := h
      · rw [(hzero rfl).1] at hfsm
        cases hfsm
      · have hdrv := (hzero rfl).2
        refine ⟨⟨by omega, ?_, ?_, ?_, ?_, ?_, by omega⟩, ?_⟩ <;> simp [*]
    | succ k =>
      obtain ⟨hlt, hread, hcounter, hfsm, hdrv, hbit⟩ := h
      have hne : k + 1 ≠ 8 := by omega
      refine ⟨⟨by omega, ?_, ?_, ?_, ?_, ?_, by omega⟩, ?_⟩ <;> simp [*]
  | dataAck ack =>
    obtain ⟨hfsm, hdrv, hread⟩ := h
    cases ack with
    | false => exact absurd rfl hack
    | true  =>
      have hsda' : c.sda.i = false := by
        rcases hsda with hsda | hsda | ⟨k, hsda⟩
        · exact hsda
        · cases hsda
        · cases hsda
      refine ⟨⟨rfl, ?_, ?_, ?_⟩, ?_⟩ <;> simp [*]
  | stop    => exact absurd h id
  | restart => exact absurd h id

/-- The master has not acknowledged the byte. -/
theorem During.nack (h : During b (.dataAck false) c) (hi : c.scl.i = true) (hr : c.scl.r = false)
    (hstart : c.start = false) (hsda : c.sda.i = true) (lines : Level) (w : Option Write) :
    (c.cycle lines w).fsm = .waitStart ∧ (c.cycle lines w).dataDrv = false ∧ c.sdaDrv = false := by
  obtain ⟨hfsm, hdrv, hread⟩ := h
  refine ⟨?_, ?_, ?_⟩ <;> simp [*]

theorem act_rcvAddress (h : c.act = .rcvAddress) : c.fsm = .rcvAddress ∧ c.counter ≠ 8 := by
  revert h
  fun_cases Core.act c <;> simp_all

/-- A whole address is dealt with at once. -/
theorem not_addressing (hr : c.scl.r = true) (hstart : c.start = false) (hre : c.slaveAddrRe = false) (lines : Level)
    (w : Option Write) : ¬ Addressing 8 (c.cycle lines w) := by
  rintro ⟨hfsm', hcounter', -, -⟩
  have hact : c.act = .rcvAddress := by simpa [Core.cycle, hstart, hre] using hfsm'
  obtain ⟨hfsm, hne⟩ := act_rcvAddress hact
  apply hne
  simpa [Core.cycle, Core.counterReset, Wire.rising, hr, hstart, hfsm] using hcounter'

/-- After an acknowledgement the master goes on with a byte, or ends the transaction. -/
theorem next_acked (more again : Bool) :
    ∃ slot', (if more then .low (.data 0) else ended again) = Stage.low slot' ∧ slot'.core = .data 0 := by
  cases more
  · cases again
    · exact ⟨.stop, rfl, rfl⟩
    · exact ⟨.restart, rfl, rfl⟩
  · exact ⟨.data 0, rfl, rfl⟩

/-- At the end of the high phase the core is where the next slot begins. -/
theorem After.before (h : After b slot c) (hwhole : ¬ Addressing 8 c) (choice : Choice) (sda : Bool)
    (hsda : slot = .addressAck → sda = false) :
    ∃ slot', slot.next choice sda = .low slot' ∧ Before b slot'.core c := by
  cases slot with
  | address i =>
    rcases h with ⟨rfl, h | h⟩ | h
    · exact absurd h hwhole
    · exact ⟨.addressAck, rfl, h⟩
    · have hlt := h.1
      exact ⟨.address (i + 1), by simp [Slot.next, show i < 7 by omega], h⟩
  | addressAck =>
    obtain ⟨slot', hnext, hcore⟩ := next_acked choice.more choice.again
    refine ⟨slot', by simpa [Slot.next, hsda rfl] using hnext, ?_⟩
    rw [hcore]
    exact ⟨.inl h.1, h.2⟩
  | data k =>
    obtain ⟨hlt, hsent⟩ := h
    by_cases h7 : k < 7
    · exact ⟨.data (k + 1), by simp [Slot.next, h7], h7, hsent⟩
    · obtain rfl : k = 7 := by omega
      exact ⟨.dataAck choice.ack, rfl, hsent⟩
  | dataAck ack =>
    obtain ⟨rfl, h⟩ := h
    obtain ⟨slot', hnext, hcore⟩ := next_acked choice.more choice.again
    refine ⟨slot', by simpa [Slot.next] using hnext, ?_⟩
    rw [hcore]
    exact ⟨.inr h.1, h.2⟩
  | stop    => exact absurd h id
  | restart => exact absurd h id

theorem Off.cycle (h : Off c) (hen : c.dataDrvEn = false) (lines : Level) (w : Option Write) :
    Off (c.cycle lines w) := by
  unfold Off at h ⊢
  cases hstop : c.dataDrvStop
  · have hdrv : (c.cycle lines w).dataDrv = c.dataDrv := by simp only [Core.cycle, hen, hstop]; rfl
    have hbit : (c.cycle lines w).dataBit = c.dataBit := by simp only [Core.cycle, hen]; rfl
    rwa [hdrv, hbit]
  · have hdrv : (c.cycle lines w).dataDrv = false := by simp only [Core.cycle, hen, hstop]; rfl
    exact off_of_dataDrv hdrv

/-- Nothing happens while SCL is still seen high, but for the address to be recognised. -/
theorem After.quiet (h : After b slot c) (hi : c.scl.i = true) (hr : c.scl.r = true) (hstart : c.start = false)
    (hre : c.slaveAddrRe = false) (haddr : c.slaveAddr = hackSlaveAddress) (lines : Level) (w : Option Write) :
    After b slot (c.cycle lines w) ∧ (c.cycle lines w).sdaDrv = c.sdaDrv := by
  cases slot with
  | address i =>
    rcases h with ⟨h7, h | h⟩ | h
    · have hnext := h.matched hi hr hstart hre haddr b lines w
      exact ⟨.inl ⟨h7, .inr hnext.1⟩, hnext.2⟩
    · have hnext := h.quiet hi hr hstart hre lines w
      exact ⟨.inl ⟨h7, .inr hnext.1⟩, hnext.2⟩
    · have hnext := h.quiet hi hr hstart hre lines w
      exact ⟨.inr hnext.1, hnext.2⟩
  | addressAck =>
    obtain ⟨hfsm, hdrv, hread⟩ := h
    refine ⟨⟨?_, ?_, ?_⟩, ?_⟩ <;> simp [*]
  | data k =>
    obtain ⟨hlt, hfsm, hcounter, hdrv, hbit, hread, hle⟩ := h
    refine ⟨⟨hlt, ?_, ?_, ?_, ?_, ?_, hle⟩, ?_⟩ <;> simp [*]
  | dataAck ack =>
    obtain ⟨hack, hfsm, hdrv, hread⟩ := h
    refine ⟨⟨hack, ?_, ?_, ?_⟩, ?_⟩ <;> simp [*]
  | stop    => exact absurd h id
  | restart => exact absurd h id

/-- The core takes the byte that it has sent. -/
def takes (c : Core) : Bool := c.fsm = .doRead ∧ !c.scl.i ∧ c.counter = 8

/-- The bytes that are received but not taken yet when the slot begins. -/
def Slot.ahead : Slot → Nat
  | .dataAck _ => 1
  | _          => 0

@[simp] theorem core_ahead (slot : Slot) : slot.core.ahead = slot.ahead := by cases slot <;> rfl

@[simp] theorem core_eq_addressAck : slot.core = .addressAck ↔ slot = .addressAck := by
  cases slot <;> simp [Slot.core]

@[simp] theorem core_eq_dataAck {ack : Bool} : slot.core = .dataAck ack ↔ slot = .dataAck ack := by
  cases slot <;> simp [Slot.core]

theorem core_cases (slot : Slot) : slot.core = slot ∨ slot.core = .data 0 ∧ (slot = .stop ∨ slot = .restart) := by
  cases slot <;> simp [Slot.core]

/-- Before a byte, or the end of the transaction in its place, the master is not ahead. -/
theorem ahead_of_core (h : slot.core = .data 0) : slot.ahead = 0 ∧ ∀ k, slot = .data k → k = 0 := by
  cases slot <;> simp_all [Slot.core, Slot.ahead]

/-- The core reads, and drives data only from `DO_READ`. -/
structure Reads (c : Core) : Prop where
  write : c.fsm ≠ .doWrite ∧ c.fsm ≠ .ackWrite2
  off   : c.fsm ≠ .doRead → Off c

theorem Before.reads (h : Before b slot c) : Reads c ∧ c.pauseDrv = false := by
  cases slot with
  | address i  => exact ⟨⟨by simp [h.2.fsm], fun _ => h.2.off⟩, by simp [Core.pauseDrv, h.2.fsm]⟩
  | addressAck => exact ⟨⟨by simp [h.1], fun _ => off_of_dataDrv h.2.1⟩, by simp [Core.pauseDrv, h.1]⟩
  | data k     =>
    cases k with
    | zero   =>
      obtain ⟨hfsm | hfsm, hdrv, -⟩ := h
      · exact ⟨⟨by simp [hfsm], fun _ => off_of_dataDrv hdrv⟩, by simp [Core.pauseDrv, hfsm]⟩
      · exact ⟨⟨by simp [hfsm], fun _ => off_of_dataDrv hdrv⟩, by simp [Core.pauseDrv, hfsm]⟩
    | succ k => exact ⟨⟨by simp [h.2.fsm], fun hne => absurd h.2.fsm hne⟩, by simp [Core.pauseDrv, h.2.fsm]⟩
  | dataAck a  => exact ⟨⟨by simp [h.fsm], fun hne => absurd h.fsm hne⟩, by simp [Core.pauseDrv, h.fsm]⟩
  | stop       => exact absurd h id
  | restart    => exact absurd h id

theorem During.reads (h : During b slot c) :
    Reads c ∧ ((slot = .data 0 → c.fsm = .doRead) → c.pauseDrv = false) ∧ takes c = false := by
  cases slot with
  | address i  =>
    exact ⟨⟨by simp [h.2.fsm], fun _ => h.2.off⟩, fun _ => by simp [Core.pauseDrv, h.2.fsm], by simp [takes, h.2.fsm]⟩
  | addressAck =>
    exact ⟨⟨by simp [h.1], fun _ => off_of_dataDrv h.2.1⟩, fun _ => by simp [Core.pauseDrv, h.1], by simp [takes, h.1]⟩
  | data k     =>
    cases k with
    | zero   =>
      obtain ⟨-, hcounter, ⟨hfsm, hdrv⟩ | ⟨hfsm, -⟩⟩ := h
      · exact ⟨⟨by simp [hfsm], fun _ => off_of_dataDrv hdrv⟩, fun hzero => by simp [Core.pauseDrv, hzero rfl],
          by simp [takes, hfsm]⟩
      · exact ⟨⟨by simp [hfsm], fun hne => absurd hfsm hne⟩, fun _ => by simp [Core.pauseDrv, hfsm],
          by simp [takes, hcounter]⟩
    | succ k =>
      obtain ⟨hlt, -, hcounter, hfsm, -, -⟩ := h
      exact ⟨⟨by simp [hfsm], fun hne => absurd hfsm hne⟩, fun _ => by simp [Core.pauseDrv, hfsm],
        by simp [takes, hcounter, show k + 1 ≠ 8 by omega]⟩
  | dataAck a  =>
    exact ⟨⟨by simp [h.1], fun _ => off_of_dataDrv h.2.1⟩, fun _ => by simp [Core.pauseDrv, h.1], by simp [takes, h.1]⟩
  | stop       => exact absurd h id
  | restart    => exact absurd h id

theorem After.reads (h : After b slot c) : Reads c ∧ c.pauseDrv = false := by
  cases slot with
  | address i  =>
    rcases h with ⟨-, h | h⟩ | h
    · exact ⟨⟨by simp [h.fsm], fun _ => h.off⟩, by simp [Core.pauseDrv, h.fsm]⟩
    · exact h.reads
    · exact h.reads
  | addressAck => exact ⟨⟨by simp [h.1], fun _ => off_of_dataDrv h.2.1⟩, by simp [Core.pauseDrv, h.1]⟩
  | data k     => exact ⟨⟨by simp [h.2.fsm], fun hne => absurd h.2.fsm hne⟩, by simp [Core.pauseDrv, h.2.fsm]⟩
  | dataAck a  => exact ⟨⟨by simp [h.2.1], fun _ => off_of_dataDrv h.2.2.1⟩, by simp [Core.pauseDrv, h.2.1]⟩
  | stop       => exact absurd h id
  | restart    => exact absurd h id

/-- With SCL seen low for the first time the core takes the byte whose bits are all sent. -/
theorem Before.takes (h : Before b slot c) (hi : c.scl.i = false) (n : Nat) :
    (if Fx2.takes c then n + 1 else n) = n + slot.ahead := by
  cases slot with
  | address i  => simp [Fx2.takes, h.2.fsm, Slot.ahead]
  | addressAck => simp [Fx2.takes, h.1, Slot.ahead]
  | data k     =>
    cases k with
    | zero   =>
      obtain ⟨hfsm | hfsm, -⟩ := h
      · simp [Fx2.takes, hfsm, Slot.ahead]
      · simp [Fx2.takes, hfsm, Slot.ahead]
    | succ k =>
      have hlt := h.1
      simp [Fx2.takes, h.2.counter, Slot.ahead, show k + 1 ≠ 8 by omega]
  | dataAck a  => simp [Fx2.takes, h.fsm, h.counter, hi, Slot.ahead]
  | stop       => exact absurd h id
  | restart    => exact absurd h id

/-! What pulls SDA low outside of the data is the answer to the address. -/

theorem Before.acks (h : Before b slot c) (hread : c.fsm ≠ .doRead) (hsda : c.sdaDrv = true) : slot = .data 0 := by
  cases slot with
  | address i  =>
    rw [h.2.sdaDrv] at hsda
    cases hsda
  | addressAck => simp [h.1, h.2.1] at hsda
  | data k     =>
    cases k with
    | zero   => rfl
    | succ k => exact absurd h.2.fsm hread
  | dataAck a  => exact absurd h.fsm hread
  | stop       => exact absurd h id
  | restart    => exact absurd h id

theorem During.acks (h : During b slot c) (hread : c.fsm ≠ .doRead) (hsda : c.sdaDrv = true) : slot = .addressAck := by
  cases slot with
  | address i  =>
    rw [h.2.sdaDrv] at hsda
    cases hsda
  | addressAck => rfl
  | data k     =>
    cases k with
    | zero   =>
      obtain ⟨-, -, ⟨hfsm, hdrv⟩ | ⟨hfsm, -⟩⟩ := h
      · simp [hfsm, hdrv] at hsda
      · exact absurd hfsm hread
    | succ k => exact absurd h.2.2.2.1 hread
  | dataAck a  => simp [h.1, h.2.1] at hsda
  | stop       => exact absurd h id
  | restart    => exact absurd h id

/-- The core leaves SDA alone in the slots that the master drives. -/
theorem During.released (h : During b slot c) :
    c.sdaDrv = false ∨ slot = .addressAck ∨ ∃ k, slot = .data k := by
  cases slot with
  | address i  => exact .inl h.2.sdaDrv
  | addressAck => exact .inr (.inl rfl)
  | data k     => exact .inr (.inr ⟨k, rfl⟩)
  | dataAck a  => exact .inl (by simp [h.1, h.2.1])
  | stop       => exact absurd h id
  | restart    => exact absurd h id

theorem After.acks (h : After b slot c) (hread : c.fsm ≠ .doRead) (hsda : c.sdaDrv = true) : slot = .addressAck := by
  cases slot with
  | address i  =>
    rcases h with ⟨-, h | h⟩ | h
    · rw [h.sdaDrv] at hsda
      cases hsda
    · cases h.acks hread hsda
    · cases h.acks hread hsda
  | addressAck => rfl
  | data k     => exact absurd h.2.fsm hread
  | dataAck a  => simp [h.2.1, h.2.2.1] at hsda
  | stop       => exact absurd h id
  | restart    => exact absurd h id

end Cycles

end Fx2
end Hdmi2Usb
