import Hdmi2Usb.Fx2Bus
import Hdmi2Usb.Fx2Supply
/-!
# Fx2Phases — the slave in a transaction, and outside

`Phase` says where the core is for each stage of the master while a transaction is on, and `Waiting` where it is between
two of them.  Every cycle keeps them.  A phase ends where the master does not acknowledge a byte, and where it ends the
transaction after an acknowledgement, which the core does not notice (`Left`).
-/
namespace Hdmi2Usb
namespace Fx2

open I2cShiftReg SampledWire

variable {img : Image} {s : System} {i : Input} {n : Nat}

/-! ## Phases -/

def Settled (c : Core) : Prop := c.sdaDrvReg = c.sdaDrv

/-- SDA is as the core has it for the slot, or SCL stays low until it is. -/
def Placed (s : System) (slot : Slot) : Prop :=
  if slot.core = .data 0 then
    (s.core.fsm = .pause → s.core.sclDrvReg = true ∨ s.master.stage = .low slot ∧ s.master.held ≤ 11) ∧
      (s.core.fsm = .doRead →
        s.core.dataDrv = false ∧ s.core.sclDrvReg = true ∨ s.core.dataDrv = true ∧ (Settled s.core ∨ s.free ≤ 1))
  else Settled s.core ∨ s.master.stage = .low slot ∧ s.master.held ≤ 11

/-- The master has as many of the byte's bits as come before the slot. -/
def Holds (b : Byte) (slot : Slot) (byte : Byte) : Prop := ∀ k, slot = .data k → Begun b k byte

/-- Where the core is in the transaction while `n` bytes are taken. -/
def Phase (img : Image) (n : Nat) (s : System) : Prop :=
  match s.master.stage with
  | .idle      => False
  | .start     => Before (fwGetValue img n) (.address 0) s.core ∧ Settled s.core ∧ s.core.sda.i = false ∧
      s.core.sda.r = false ∧ s.received = img.content.take n
  | .low slot  => Holds (fwGetValue img n) slot s.master.byte ∧
      if s.core.scl.i || s.core.scl.r then
        Before (fwGetValue img n) slot.core s.core ∧ Settled s.core ∧ s.received = img.content.take (n + slot.ahead)
      else During (fwGetValue img n) slot.core s.core ∧ Placed s slot ∧ s.received = img.content.take n
  | .set slot  => Holds (fwGetValue img n) slot s.master.byte ∧ During (fwGetValue img n) slot.core s.core ∧
      Placed s slot ∧ s.received = img.content.take n
  | .high slot => Holds (fwGetValue img n) slot s.master.byte ∧ s.received = img.content.take n ∧
      if s.scl = false then During (fwGetValue img n) slot.core s.core ∧ Placed s slot
      else if s.core.scl.i && s.core.scl.r then
        After (fwGetValue img n) slot.core s.core ∧ Settled s.core
      else During (fwGetValue img n) slot.core s.core ∧ Settled s.core ∧
        (slot.core = .data 0 → s.core.fsm = .doRead ∧ s.core.dataDrv = true)

/-- The slave is in a transaction. -/
structure Serving (img : Image) (n : Nat) (s : System) : Prop where
  stale : s.stale = false
  phase : Phase img n s

/-- The transaction is over, or about to begin. -/
def Between (s : System) : Prop :=
  match s.master.stage with
  | .idle                   => True
  | .start                  => s.core.sda.r = true
  | .low slot | .set slot   => slot = .stop ∨ slot = .restart
  | .high slot              => slot = .stop ∨ slot = .restart ∨
      slot = .dataAck false ∧ s.scl = true ∧ s.core.scl.i = true ∧ s.core.scl.r = true

/-- The slave acknowledges its address. -/
def Acking (m : Master) : Prop :=
  m.stage = .low .addressAck ∨ m.stage = .set .addressAck ∨ m.stage = .high .addressAck ∨
    ∃ slot, m.stage = .low slot ∧ slot.core = .data 0

/-- The master has ended the transaction after an acknowledgement: the core still has the first bit of a byte on SDA. -/
structure Left (b : Byte) (s : System) : Prop where
  sent  : Sent b 1 s.core
  stale : s.stale = false
  stage : s.master.stage = .idle ∨ s.master.stage = .start

/-- The slave waits for a start condition. -/
structure Waiting (img : Image) (n : Nat) (s : System) : Prop where
  core  : s.core.fsm = .waitStart ∨ Left (fwGetValue img n) s
  off   : Off s.core
  drv   : s.core.sdaDrvReg = true → Acking s.master
  round : s.stale = true ∧ n = 0 ∧ s.received = [] ∨
    s.stale = false ∧ s.received = img.content.take n ∧ Between s

theorem Waiting.fsm (h : Waiting img n s) : s.core.fsm = .waitStart ∨ s.core.fsm = .doRead :=
  h.core.imp_right fun hleft => hleft.sent.fsm

theorem Waiting.released (h : Waiting img n s) : s.core.sdaDrv = false := by
  apply h.off.sdaDrv
  rcases h.fsm with hfsm | hfsm <;> simp [Core.zeroDrv, hfsm]

/-- With SCL seen high a byte that is left is not shifted. -/
theorem Waiting.still (h : Waiting img n s) (hbus : Bus s) :
    takes s.core = false ∧ s.core.dataDrvEn = false ∧
      (s.core.fsm = .doRead → s.core.scl = steady true ∧ Left (fwGetValue img n) s) := by
  rcases h.core with hfsm | hleft
  · refine ⟨by simp [takes, hfsm], by simp [Core.dataDrvEn, hfsm], fun hread => ?_⟩
    rw [hfsm] at hread
    cases hread
  · have hclk : s.core.scl = steady true := by
      unfold Bus at hbus
      rcases hleft.stage with hstage | hstage
      · rw [hstage] at hbus
        exact hbus.2.1
      · rw [hstage] at hbus
        exact hbus.2.1
    exact ⟨by simp [takes, hclk, steady], by simp [Core.dataDrvEn, hclk, steady], fun _ => ⟨hclk, hleft⟩⟩

theorem Waiting.relied (h : Waiting img n s) (hbus : Bus s) : Relied s := by
  have hpause : s.core.pauseDrv = false := by rcases h.fsm with hfsm | hfsm <;> simp [Core.pauseDrv, hfsm]
  have hoff : ¬ Acking s.master → s.core.sdaDrvReg = false := by
    intro hacking
    by_contra hdrv
    exact hacking (h.drv (by simpa using hdrv))
  unfold Bus at hbus
  refine ⟨fun _ => hpause, fun _ hdrv => ?_, fun hscl hne => ?_, fun hstage => hoff ?_⟩
  · rw [h.released] at hdrv
    cases hdrv
  · rw [h.released, hoff]
    rintro (hstage | hstage | hstage | ⟨slot, hstage, -⟩)
    · rw [hstage, hscl] at hbus
      cases hbus.1
    · rw [hstage, hscl] at hbus
      cases hbus.1
    · exact hne hstage
    · rw [hstage, hscl] at hbus
      cases hbus.1
  · simp [Acking, hstage]

/-- The bus is not idle in a transaction. -/
theorem Phase.busy (h : Phase img n s) : s.master.stage ≠ .idle := by
  intro hstage
  unfold Phase at h
  rw [hstage] at h
  exact h

theorem Phase.relied (h : Phase img n s) (hbus : Bus s) : Relied s := by
  have hsettled : Settled s.core → s.core.sdaDrv = true → s.core.sdaDrvReg = true := fun hset hdrv => hset.trans hdrv
  have hoff : s.master.stage = .idle → s.core.sdaDrvReg = false := fun hs => absurd hs h.busy
  -- while SCL is low, and not seen high, nobody relies on the slave
  have hunseen : s.scl = false → s.core.scl.i = false → Relied s := fun hscl hi =>
    ⟨fun hhigh => by simp [hscl] at hhigh, fun hseen => by simp [hscl, hi] at hseen,
      fun hhigh => by simp [hscl] at hhigh, hoff⟩
  unfold Bus at hbus
  unfold Phase at h
  cases hstage : s.master.stage with
  | idle      =>
    rw [hstage] at h
    exact absurd h id
  | start     =>
    rw [hstage] at h
    obtain ⟨hbefore, hset, -⟩ := h
    exact ⟨fun _ => hbefore.reads.2, fun _ => hsettled hset, fun _ _ => hset.symm, hoff⟩
  | low slot  =>
    rw [hstage] at h hbus
    obtain ⟨-, h⟩ := h
    cases hi : s.core.scl.i with
    | false => exact hunseen hbus.1 hi
    | true  =>
      rw [if_pos (by simp [hi])] at h
      exact ⟨fun hscl => by simp [hbus.1] at hscl, fun _ => hsettled h.2.1, fun hscl => by simp [hbus.1] at hscl, hoff⟩
  | set slot  =>
    rw [hstage] at hbus
    exact hunseen hbus.1 (by rw [hbus.2]; rfl)
  | high slot =>
    rw [hstage] at h hbus
    obtain ⟨-, -, h⟩ := h
    rcases hbus with ⟨hscl, hclk⟩ | ⟨hscl, -⟩
    · exact hunseen hscl (by rw [hclk]; rfl)
    · rw [if_neg (by simp [hscl])] at h
      split at h
      · obtain ⟨hafter, hset⟩ := h
        exact ⟨fun _ => hafter.reads.2, fun _ => hsettled hset, fun _ _ => hset.symm, hoff⟩
      · obtain ⟨hduring, hset, hzero⟩ := h
        exact ⟨fun _ => hduring.reads.2.1 fun h0 => (hzero h0).1, fun _ => hsettled hset, fun _ _ => hset.symm, hoff⟩

/-- The core reads, wherever it is in the transaction. -/
theorem Phase.reads (h : Phase img n s) : Reads s.core := by
  unfold Phase at h
  cases hstage : s.master.stage with
  | idle      =>
    rw [hstage] at h
    exact absurd h id
  | start     =>
    rw [hstage] at h
    exact h.1.reads.1
  | low slot  =>
    rw [hstage] at h
    obtain ⟨-, h⟩ := h
    split at h
    · exact h.1.reads.1
    · exact h.1.reads.1
  | set slot  =>
    rw [hstage] at h
    exact h.2.1.reads.1
  | high slot =>
    rw [hstage] at h
    obtain ⟨-, -, h⟩ := h
    split at h
    · exact h.1.reads.1
    · split at h
      · exact h.1.reads.1
      · exact h.1.reads.1

/-! ## A cycle without a transaction -/

theorem received_keeps (hre : s.core.slaveAddrRe = false)
    (h : s.stale = true ∨ s.moves i = false ∨ s.master.stage ≠ .high (.data 7)) :
    (step img s i).received = s.received := by
  have hnone : (if s.moves i ∧ !s.stale then s.master.receives s.lines.sda else none) = none := by
    rcases h with h | h | h
    · simp [h]
    · simp [h]
    · simp [Master.receives, h]
  rw [step_received, hre]
  unfold System.nextReceived
  rw [hnone]
  rfl

/-- The slave acknowledges while the master leaves SDA to it. -/
theorem Phase.acking (h : Phase img n s) (hbus : Bus s) (hread : s.core.fsm ≠ .doRead) (hsda : s.core.sdaDrv = true)
    (i : Input) : Acking (step img s i).master := by
  unfold Acking
  rw [stage_step]
  unfold Phase at h
  cases hstage : s.master.stage with
  | idle      =>
    rw [hstage] at h
    exact absurd h id
  | start     =>
    rw [hstage] at h
    cases h.1.acks hread hsda
  | low slot  =>
    rw [hstage] at h
    obtain ⟨-, h⟩ := h
    split at h
    · rename_i hseen
      have hmoves : s.moves i = false := by
        by_contra hmoves
        rw [(hbus.steady_of_moves (by simpa using hmoves)).2 _ hstage] at hseen
        cases hseen
      rw [if_neg (by simp [hmoves])]
      exact .inr (.inr (.inr ⟨slot, rfl, h.1.acks hread hsda⟩))
    · obtain rfl := core_eq_addressAck.1 (h.1.acks hread hsda)
      cases s.moves i <;> simp [Stage.next]
  | set slot  =>
    rw [hstage] at h
    obtain rfl := core_eq_addressAck.1 (h.2.1.acks hread hsda)
    cases s.moves i <;> simp [Stage.next]
  | high slot =>
    rw [hstage] at h
    obtain ⟨-, -, h⟩ := h
    split at h
    · rename_i hscl
      obtain rfl := core_eq_addressAck.1 (h.1.acks hread hsda)
      have hmoves : s.moves i = false := not_moves_of_scl hscl (by rw [hstage]; rfl) i
      simp [hmoves]
    · split at h
      · obtain rfl := core_eq_addressAck.1 (h.1.acks hread hsda)
        have hline : s.lines.sda = false := by
          have hreg : s.core.sdaDrvReg = true := h.2.trans hsda
          simp [System.lines, hreg]
        obtain ⟨slot', hnext, hcore⟩ := next_acked i.choice.more i.choice.again
        cases s.moves i
        · simp
        · refine .inr (.inr (.inr ⟨slot', ?_, hcore⟩))
          simpa [Stage.next, Slot.next, hline] using hnext
      · obtain rfl := core_eq_addressAck.1 (h.1.acks hread hsda)
        rename_i hseen
        have hmoves : s.moves i = false := by
          by_contra hmoves
          rw [(hbus.steady_of_moves (by simpa using hmoves)).1 (by rw [hstage]; rfl)] at hseen
          exact hseen rfl
        simp [hmoves]

theorem Phase.received (h : Phase img n s) :
    ∃ k, s.received = img.content.take (n + k) ∧ (k = 0 ∨ k = 1 ∧ s.core.fsm = .doRead) := by
  unfold Phase at h
  cases hstage : s.master.stage with
  | idle      =>
    rw [hstage] at h
    exact absurd h id
  | start     =>
    rw [hstage] at h
    exact ⟨0, h.2.2.2.2, .inl rfl⟩
  | low slot  =>
    rw [hstage] at h
    obtain ⟨-, h⟩ := h
    split at h
    · refine ⟨slot.ahead, h.2.2, ?_⟩
      cases slot with
      | dataAck ack =>
        have hsent : Sent (fwGetValue img n) 8 s.core := h.1
        exact .inr ⟨rfl, hsent.fsm⟩
      | _           => exact .inl rfl
    · exact ⟨0, h.2.2, .inl rfl⟩
  | set slot  =>
    rw [hstage] at h
    exact ⟨0, h.2.2.2, .inl rfl⟩
  | high slot =>
    rw [hstage] at h
    exact ⟨0, h.2.1, .inl rfl⟩

/-- A byte is received from the core that has sent it. -/
theorem Phase.sending (h : Phase img n s) (hbus : Bus s) (hmoves : s.moves i = true) {slot : Slot}
    (hstage : s.master.stage = .high slot) : After (fwGetValue img n) slot.core s.core ∧ Settled s.core := by
  have hready := (ready_of_moves hmoves).2
  have hsteady := (hbus.steady_of_moves hmoves).1 (by rw [hstage]; rfl)
  unfold Phase at h
  rw [hstage] at h hready
  obtain ⟨-, -, h⟩ := h
  rw [if_neg (by rw [hready]; nofun), if_pos (by simp [hsteady, steady])] at h
  exact h

/-- Where the transaction is over, the master is on its way to the next start condition, which is still to be seen. -/
theorem Between.wait (h : Between s) (hbus : Bus s) (hrely : Relied s) (hstart : s.core.start = false)
    (hmoves : s.moves i = false) : Between (step img s i) := by
  obtain ⟨hclk', hsda', -⟩ := sampled_step img s i
  have hstage' := (waits img hmoves).1
  unfold Between at h ⊢
  unfold Bus at hbus
  cases hstage : s.master.stage with
  | idle      =>
    rw [hstage', hstage]
    trivial
  | start     =>
    rw [hstage] at h hbus
    rw [hstage', hstage, hsda']
    have hr : s.core.sda.r = true := h
    show s.core.sda.i = true
    simpa [Core.start, Wire.falling, hbus.2.1, steady, hr] using hstart
  | low slot  =>
    rw [hstage] at h
    rw [hstage', hstage]
    exact h
  | set slot  =>
    rw [hstage] at h
    rw [hstage', hstage]
    exact h
  | high slot =>
    rw [hstage] at h hbus
    rw [hstage', hstage]
    rcases h with rfl | rfl | ⟨rfl, hscl, hi, hr⟩
    · exact .inl rfl
    · exact .inr (.inl rfl)
    · rcases hbus with ⟨hlow, -⟩ | hclocked
      · rw [hlow] at hscl
        cases hscl
      · refine .inr (.inr ⟨rfl, scl_keeps hscl (hrely.scl hscl) (by rw [hstage', hstage]; rfl), ?_, ?_⟩)
        · rw [hclk']
          exact hclocked.clk.step_seen hi _ _
        · rw [hclk']
          exact hi

theorem Between.move (h : Between s) (hbus : Bus s) (hyielded : Yielded s i) (hsound : Sound s)
    (hmoves : s.moves i = true) : Between (step img s i) := by
  obtain ⟨hlong, hready⟩ := ready_of_moves hmoves
  have hstage' := stage_moved img hmoves
  have hdriven := hsound.driven
  unfold Between at h ⊢
  unfold Bus at hbus
  unfold Driven at hdriven
  cases hstage : s.master.stage with
  | idle      =>
    rw [hstage] at hbus
    rw [hstage', hstage, (sampled_step img s i).2.1, hbus.2.2.steady (by omega)]
    rfl
  | start     =>
    rw [hstage] at h hbus
    have hr : s.core.sda.r = true := h
    rw [hbus.2.2.steady (by omega)] at hr
    cases hr
  | low slot  =>
    rw [hstage] at h
    rw [hstage', hstage]
    exact h
  | set slot  =>
    rw [hstage] at h
    rw [hstage', hstage]
    exact h.imp_right Or.inl
  | high slot =>
    rw [hstage] at h hbus hdriven hready
    rw [hstage', hstage]
    rcases h with rfl | rfl | ⟨rfl, -⟩
    · trivial
    · rcases hbus with ⟨hlow, -⟩ | hclocked
      · rw [hlow] at hready
        cases hready
      · have hoff : s.core.sdaDrvReg = false := hyielded ⟨hmoves, by simp [hstage]⟩
        have hline : s.lines.sda = true := by simp [System.lines, hdriven, Slot.sda, hoff]
        have hsda := hclocked.sampled (by simp) hlong hline img i
        show (step img s i).core.sda.r = true
        rw [hsda]
        rfl
    · cases hagain : i.choice.again <;> simp [Stage.next, Slot.next, ended, hagain]

/-- The byte that is left stays so. -/
theorem Left.step {b : Byte} (h : Left b s) (hclk : s.core.scl = steady true) (hre : s.core.slaveAddrRe = false)
    (hstart : s.core.start = false) (hmoves : s.moves i = true → s.master.stage = .idle) :
    Left b (Fx2.step img s i) := by
  have hbefore : Before b (.data (0 + 1)) s.core := ⟨by decide, h.sent⟩
  have hquiet := hbefore.quiet (by rw [hclk]; rfl) (by rw [hclk]; rfl) hstart hre s.lines (s.access img i).1
  refine ⟨hquiet.1.2, by simp [step_stale, hre, hstart, h.stale], ?_⟩
  cases hm : s.moves i with
  | false =>
    rw [(waits img hm).1]
    exact h.stage
  | true  =>
    rw [stage_moved img hm, hmoves hm]
    exact .inr rfl

theorem Waiting.step (h : Waiting img n s) (hbus : Bus s) (hsound : Sound s) (hre : s.core.slaveAddrRe = false)
    (hstart : s.core.start = false) (hyielded : Yielded s i) : Waiting img n (step img s i) := by
  have hstale : (Fx2.step img s i).stale = s.stale := by
    simp [step_stale, hre, hstart]
  obtain ⟨-, hen, hleft⟩ := h.still hbus
  have hbetween' : Between s → Between (Fx2.step img s i) := by
    intro hbetween
    cases hmoves : s.moves i with
    | false => exact hbetween.wait hbus (h.relied hbus) hstart hmoves
    | true  => exact hbetween.move hbus hyielded hsound hmoves
  refine ⟨?_, h.off.cycle hen _ _, fun hsda => ?_, ?_⟩
  · rcases h.core with hfsm | hl
    · exact .inl (by simp [step_fsm, hre, hstart, Core.act, hfsm])
    · refine .inr (hl.step (hleft hl.sent.fsm).1 hre hstart fun hmoves => ?_)
      -- the start condition is seen before the master moves on
      rcases hl.stage with hidle | hstage
      · exact hidle
      · rcases h.round with ⟨hold, -⟩ | ⟨-, -, hbetween⟩
        · rw [hl.stale] at hold
          cases hold
        · unfold Between at hbetween
          unfold Bus at hbus
          rw [hstage] at hbetween hbus
          have hr : s.core.sda.r = true := hbetween
          rw [hbus.2.2.steady (by have := ready_of_moves hmoves; omega)] at hr
          cases hr
  · have hsda' : s.core.sdaDrv = true := hsda
    rw [h.released] at hsda'
    cases hsda'
  · rcases h.round with ⟨hold, hzero, hnone⟩ | ⟨hnew, hreceived, hbetween⟩
    · exact .inl ⟨hstale.trans hold, hzero, (received_keeps hre (.inl hold)).trans hnone⟩
    · have hlast : s.master.stage ≠ .high (.data 7) := by
        intro hstage
        unfold Between at hbetween
        rw [hstage] at hbetween
        simp at hbetween
      exact .inr ⟨hstale.trans hnew, (received_keeps hre (.inr (.inr hlast))).trans hreceived, hbetween' hbetween⟩

/-- The slave sees the start condition. -/
theorem Waiting.started (h : Waiting img n s) (hbus : Bus s) (hapart : Apart s) (hre : s.core.slaveAddrRe = false)
    (hstart : s.core.start = true) (i : Input) : Serving img n (Fx2.step img s i) := by
  obtain ⟨hstage, hi, hr⟩ := hbus.start_stage hapart hstart
  obtain ⟨-, hen, -⟩ := h.still hbus
  unfold Bus at hbus
  rw [hstage] at hbus
  obtain ⟨hscl, hclk, hfresh⟩ := hbus
  have hmoves : s.moves i = false := by
    by_contra hmoves
    have hready := ready_of_moves (by simpa using hmoves)
    rw [hfresh.steady (by omega)] at hr
    cases hr
  have hrising : s.core.scl.rising = false := by simp [Wire.rising, hclk, steady]
  obtain ⟨-, hsda', -⟩ := sampled_step img s i
  obtain ⟨hstage', -⟩ := waits img hmoves
  rw [hstage] at hstage'
  have hreceived : (Fx2.step img s i).received = img.content.take n := by
    rw [received_keeps hre (.inr (.inl hmoves))]
    rcases h.round with ⟨-, rfl, hnone⟩ | ⟨-, hreceived, -⟩
    · exact hnone
    · exact hreceived
  refine ⟨?_, ?_⟩
  · simp [step_stale, hre, hstart]
  · have hfsm : (Fx2.step img s i).core.fsm = .rcvAddress := by
      simp [step_fsm, hre, hstart]
    have hcounter : (Fx2.step img s i).core.counter = 0 := by
      show (if s.core.scl.rising then _ else if s.core.start || s.core.counterReset then 0 else s.core.counter) = 0
      simp [hrising, hstart]
    have haddressing : Addressing 0 (Fx2.step img s i).core :=
      ⟨hfsm, hcounter, begun_zero _ _, h.off.cycle hen _ _⟩
    have hsettled : Settled (Fx2.step img s i).core := h.released.trans haddressing.sdaDrv.symm
    unfold Phase
    rw [hstage']
    refine ⟨⟨by omega, haddressing⟩, hsettled, ?_, ?_, hreceived⟩
    · rw [hsda']
      exact hfresh.step_seen hi _ _
    · rw [hsda']
      exact hi

end Fx2
end Hdmi2Usb
