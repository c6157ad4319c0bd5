import Hdmi2Usb.Fx2Phases
/-!
# Fx2Transaction — a cycle in a transaction

Each stage of the master has its lemma: SCL pulled low and still seen high (`Phase.falling`), seen low (`Phase.low`,
`Phase.set`), released and stretched (`Phase.stretched`), high and not seen so yet (`Phase.unseen`), seen to rise
(`Phase.rise`), and seen high until the master goes on to the next slot (`Phase.seen`, `Phase.next`, `Phase.ends`).
-/
namespace Hdmi2Usb
namespace Fx2

open I2cShiftReg SampledWire

variable {img : Image} {s : System} {i : Input} {n : Nat} {slot : Slot}

theorem Placed.step (h : Placed s slot) (hsound : Sound s) {b : Byte} (hduring : During b slot.core s.core)
    (hclk : s.core.scl.i = false ∧ s.core.scl.r = false) (hstart : s.core.start = false)
    (hre : s.core.slaveAddrRe = false) (hb : s.core.fsm = .doRead → s.core.shiftReg = b) (i : Input) :
    Placed (Fx2.step img s i) slot := by
  unfold Placed at h ⊢
  by_cases hslot : slot.core = .data 0
  · rw [if_pos hslot] at h ⊢
    rw [hslot] at hduring
    obtain ⟨hpause, hread⟩ := hduring.first hclk.1 hclk.2 hstart hre hb s.lines (s.access img i).1
    have hsame : (Fx2.step img s i).core.sclDrvReg = s.core.pauseDrv := rfl
    obtain ⟨-, -, ⟨hfsm, -⟩ | ⟨hfsm, -⟩⟩ := hduring
    · have hdrv : s.core.pauseDrv = true := by simp [Core.pauseDrv, hfsm]
      exact ⟨fun _ => .inl (hsame.trans hdrv), fun _ => .inl ⟨hpause hfsm, hsame.trans hdrv⟩⟩
    · obtain ⟨hfsm', hdrv', hkeeps⟩ := hread hfsm
      refine ⟨fun hne => ?_, fun _ => .inr ⟨hdrv', ?_⟩⟩
      · have := hfsm'.symm.trans hne
        cases this
      · rcases h.2 hfsm with ⟨-, hscl⟩ | ⟨hdrv, -⟩
        · have hfree := hsound.free (.inr hscl)
          have := nextFree_le img s i
          exact .inr (by omega)
        · exact .inl (hkeeps hdrv).symm
  · rw [if_neg hslot]
    exact .inl ((hduring.quiet hclk.1 hclk.2 hstart hre hb s.lines (s.access img i).1).2 hslot).symm

/-! In the slot that the master is ahead in nothing depends on the byte. -/

theorem Holds.ahead {byte : Byte} (h : Holds (fwGetValue img n) slot byte) :
    Holds (fwGetValue img (n + slot.ahead)) slot byte := by
  cases slot with
  | dataAck ack => nofun
  | _           => exact h

theorem During.ahead {c : Core} (h : During (fwGetValue img n) slot.core c) :
    During (fwGetValue img (n + slot.ahead)) slot.core c := by
  cases slot with
  | dataAck ack => exact h
  | _           => exact h

/-- A cycle without a start condition or a write to the slave's address. -/
structure Calm (img : Image) (n : Nat) (s : System) : Prop where
  start : s.core.start = false
  re    : s.core.slaveAddrRe = false
  addr  : s.core.slaveAddr = hackSlaveAddress
  byte  : s.core.fsm = .doRead → s.core.shiftReg = fwGetValue img n

theorem Phase.start (h : Phase img n s) (hcalm : Calm img n s) (hbus : Bus s) (hstage : s.master.stage = .start)
    (i : Input) : Phase img n (Fx2.step img s i) := by
  unfold Phase at h
  unfold Bus at hbus
  rw [hstage] at h hbus
  obtain ⟨hbefore, hset, hi, hr, hreceived⟩ := h
  obtain ⟨hscl, hclk, hfresh⟩ := hbus
  obtain ⟨hclk', hsda', -⟩ := sampled_step img s i
  rw [hscl, hclk, steady_step] at hclk'
  have hquiet := hbefore.quiet (by rw [hclk]; rfl) (by rw [hclk]; rfl) hcalm.start hcalm.re s.lines (s.access img i).1
  have hreceived' : (Fx2.step img s i).received = s.received :=
    received_keeps hcalm.re (.inr (.inr (by rw [hstage]; nofun)))
  unfold Phase
  cases hmoves : s.moves i with
  | false =>
    rw [(waits img hmoves).1, hstage]
    refine ⟨hquiet.1, hquiet.2.symm, ?_, ?_, hreceived'.trans hreceived⟩
    · rw [hsda']
      exact hfresh.step_seen hi _ _
    · rw [hsda']
      exact hi
  | true  =>
    rw [stage_moved img hmoves, hstage]
    refine ⟨nofun, ?_⟩
    rw [if_pos (by rw [hclk']; rfl)]
    exact ⟨hquiet.1, hquiet.2.symm, hreceived'.trans hreceived⟩

/-- SCL is not seen low before this cycle, so the master waits. -/
theorem Phase.falling (h : Phase img n s) (hcalm : Calm img n s) (hbus : Bus s) (hstage : s.master.stage = .low slot)
    (hseen : (s.core.scl.i || s.core.scl.r) = true) (i : Input) :
    Phase img (if takes s.core then n + 1 else n) (Fx2.step img s i) := by
  unfold Phase at h
  unfold Bus at hbus
  rw [hstage] at h hbus
  obtain ⟨hholds, h⟩ := h
  rw [if_pos hseen] at h
  obtain ⟨hbefore, hset, hreceived⟩ := h
  obtain ⟨hscl, hclk, -⟩ := hbus
  obtain ⟨hclk', -, -⟩ := sampled_step img s i
  have hr' : (Fx2.step img s i).core.scl.r = s.core.scl.i := by rw [hclk']; rfl
  have hle : s.master.held ≤ 10 := hclk.le (by simpa using hseen)
  have hmoves : s.moves i = false := not_moves_of_held (by omega) i
  have hreceived' : (Fx2.step img s i).received = s.received := received_keeps hcalm.re (.inr (.inl hmoves))
  obtain ⟨hstage', -, hbyte', hheld, -⟩ := waits img hmoves
  replace hheld := hheld (by rw [hscl, hstage]; rfl)
  unfold Phase
  rw [hstage', hstage, hbyte']
  cases hi : s.core.scl.i with
  | true  =>
    have hr : s.core.scl.r = true := by simpa using hclk.before (by rw [hi]; nofun)
    have hquiet := hbefore.quiet hi hr hcalm.start hcalm.re s.lines (s.access img i).1
    have htakes : takes s.core = false := by simp [takes, hi]
    rw [htakes]
    refine ⟨hholds, ?_⟩
    rw [if_pos (by simp [hr', hi])]
    exact ⟨hquiet.1, hquiet.2.symm, hreceived'.trans hreceived⟩
  | false =>
    have hr : s.core.scl.r = true := by simpa [hi] using hseen
    obtain ⟨hduring, hzero⟩ := hbefore.fall hi hr hcalm.start hcalm.re hcalm.byte s.lines (s.access img i).1
    have hi' : (Fx2.step img s i).core.scl.i = false := by
      rw [hclk', hscl]
      exact hclk.step_seen hi _ _
    rw [hbefore.takes hi, core_ahead]
    refine ⟨hholds.ahead, ?_⟩
    rw [if_neg (by simp [hr', hi, hi'])]
    refine ⟨hduring.ahead, ?_, hreceived'.trans hreceived⟩
    have hlate : (Fx2.step img s i).master.stage = .low slot ∧ (Fx2.step img s i).master.held ≤ 11 :=
      ⟨hstage'.trans hstage, by omega⟩
    unfold Placed
    split
    · rename_i hslot
      refine ⟨fun _ => .inr hlate, fun hread => ?_⟩
      have := (hzero hslot).symm.trans hread
      cases this
    · exact .inr hlate

theorem Phase.low (h : Phase img n s) (hcalm : Calm img n s) (hbus : Bus s) (hsound : Sound s)
    (hstage : s.master.stage = .low slot) (hseen : (s.core.scl.i || s.core.scl.r) = false) (i : Input) :
    Phase img (if takes s.core then n + 1 else n) (Fx2.step img s i) := by
  unfold Phase at h
  unfold Bus at hbus
  rw [hstage] at h hbus
  obtain ⟨hholds, h⟩ := h
  rw [if_neg (by simp [hseen])] at h
  obtain ⟨hduring, hplaced, hreceived⟩ := h
  obtain ⟨hscl, hclk, -⟩ := hbus
  obtain ⟨hclk', -, -⟩ := sampled_step img s i
  have hboth : s.core.scl.i = false ∧ s.core.scl.r = false := by simpa using hseen
  have hquiet := hduring.quiet hboth.1 hboth.2 hcalm.start hcalm.re hcalm.byte s.lines (s.access img i).1
  have hplaced' : Placed (Fx2.step img s i) slot :=
    hplaced.step hsound hduring hboth hcalm.start hcalm.re hcalm.byte i
  have hreceived' : (Fx2.step img s i).received = s.received :=
    received_keeps hcalm.re (.inr (.inr (by rw [hstage]; nofun)))
  have hr' : (Fx2.step img s i).core.scl.r = false := hboth.1
  have hi' : (Fx2.step img s i).core.scl.i = false := by
    rw [hclk', hscl]
    exact hclk.step_seen hboth.1 _ _
  unfold Phase
  rw [hduring.reads.2.2]
  cases hmoves : s.moves i with
  | false =>
    obtain ⟨hstage', -, hbyte', -⟩ := waits img hmoves
    rw [hstage', hstage, hbyte']
    refine ⟨hholds, ?_⟩
    rw [if_neg (by simp [hr', hi'])]
    exact ⟨hquiet.1, hplaced', hreceived'.trans hreceived⟩
  | true  =>
    have hbyte' := byte_keeps img hmoves (by simp [hstage])
    rw [stage_moved img hmoves, hstage, hbyte']
    exact ⟨hholds, hquiet.1, hplaced', hreceived'.trans hreceived⟩

theorem Phase.set (h : Phase img n s) (hcalm : Calm img n s) (hbus : Bus s) (hsound : Sound s)
    (hstage : s.master.stage = .set slot) (i : Input) :
    Phase img (if takes s.core then n + 1 else n) (Fx2.step img s i) := by
  unfold Phase at h
  unfold Bus at hbus
  rw [hstage] at h hbus
  obtain ⟨hholds, hduring, hplaced, hreceived⟩ := h
  obtain ⟨hscl, hclk⟩ := hbus
  have hboth : s.core.scl.i = false ∧ s.core.scl.r = false := by simp [hclk, steady]
  have hquiet := hduring.quiet hboth.1 hboth.2 hcalm.start hcalm.re hcalm.byte s.lines (s.access img i).1
  have hplaced' : Placed (Fx2.step img s i) slot := hplaced.step hsound hduring hboth hcalm.start hcalm.re hcalm.byte i
  have hreceived' : (Fx2.step img s i).received = s.received :=
    received_keeps hcalm.re (.inr (.inr (by simp [hstage])))
  unfold Phase
  rw [hduring.reads.2.2]
  cases hmoves : s.moves i with
  | false =>
    obtain ⟨hstage', -, hbyte', -⟩ := waits img hmoves
    rw [hstage', hstage, hbyte']
    exact ⟨hholds, hquiet.1, hplaced', hreceived'.trans hreceived⟩
  | true  =>
    have hbyte' := byte_keeps img hmoves (by simp [hstage])
    have hfree : s.free = 0 := hsound.free (.inl (by rw [hstage]; rfl))
    rw [stage_moved img hmoves, hstage, hbyte']
    refine ⟨hholds, hreceived'.trans hreceived, ?_⟩
    rw [if_pos (scl_released hscl (by omega))]
    exact ⟨hquiet.1, hplaced'⟩

/-- The master has released SCL, and it is still low. -/
theorem Phase.stretched (h : Phase img n s) (hcalm : Calm img n s) (hclk : s.core.scl = steady false) (hsound : Sound s)
    (hstage : s.master.stage = .high slot) (hscl : s.scl = false) (i : Input) :
    Phase img (if takes s.core then n + 1 else n) (Fx2.step img s i) := by
  unfold Phase at h
  rw [hstage] at h
  obtain ⟨hholds, hreceived, h⟩ := h
  rw [if_pos hscl] at h
  obtain ⟨hduring, hplaced⟩ := h
  have hboth : s.core.scl.i = false ∧ s.core.scl.r = false := by simp [hclk, steady]
  have hquiet := hduring.quiet hboth.1 hboth.2 hcalm.start hcalm.re hcalm.byte s.lines (s.access img i).1
  have hmoves : s.moves i = false := not_moves_of_scl hscl (by rw [hstage]; rfl) i
  have hreceived' : (Fx2.step img s i).received = s.received := received_keeps hcalm.re (.inr (.inl hmoves))
  obtain ⟨hstage', -, hbyte', -⟩ := waits img hmoves
  unfold Phase
  rw [hduring.reads.2.2, hstage', hstage, hbyte']
  refine ⟨hholds, hreceived'.trans hreceived, ?_⟩
  cases hscl' : (Fx2.step img s i).scl with
  | false =>
    rw [if_pos rfl]
    exact ⟨hquiet.1, hplaced.step hsound hduring hboth hcalm.start hcalm.re hcalm.byte i⟩
  | true  =>
    obtain ⟨hfree, hpause⟩ := scl_rises hscl hscl'
    have hr' : (Fx2.step img s i).core.scl.r = false := hboth.1
    rw [if_neg (by simp), if_neg (by simp [hr'])]
    refine ⟨hquiet.1, ?_⟩
    unfold Placed at hplaced
    by_cases hslot : slot.core = .data 0
    · -- the core has left its pause and put the first bit on SDA before
      rw [if_pos hslot] at hplaced
      rw [hslot] at hduring
      have hfirst := (hduring.first hboth.1 hboth.2 hcalm.start hcalm.re hcalm.byte s.lines (s.access img i).1).2
      obtain ⟨-, -, ⟨hfsm, -⟩ | ⟨hfsm, -⟩⟩ := hduring
      · simp [Core.pauseDrv, hfsm] at hpause
      · obtain ⟨hfsm', hdrv', hkeeps⟩ := hfirst hfsm
        rcases hplaced.2 hfsm with ⟨-, hdrv⟩ | ⟨hdrv, -⟩
        · have := hsound.free (.inr hdrv)
          omega
        · exact ⟨(hkeeps hdrv).symm, fun _ => ⟨hfsm', hdrv'⟩⟩
    · exact ⟨(hquiet.2 hslot).symm, fun h0 => absurd h0 hslot⟩

/-- SCL is high, and not seen high yet. -/
theorem Phase.unseen (h : Phase img n s) (hcalm : Calm img n s) (hstage : s.master.stage = .high slot)
    (hclocked : Clocked s slot) (hi : s.core.scl.i = false) (i : Input) :
    Phase img (if takes s.core then n + 1 else n) (Fx2.step img s i) := by
  have hscl := hclocked.scl
  have hclk := hclocked.clk
  have hr : s.core.scl.r = false := by simpa using hclk.before (by rw [hi]; nofun)
  have hle : s.master.held ≤ 10 := hclk.le (.inl (by rw [hi]; nofun))
  have hmoves : s.moves i = false := not_moves_of_held (by omega) i
  unfold Phase at h
  rw [hstage] at h
  obtain ⟨hholds, hreceived, h⟩ := h
  rw [if_neg (by rw [hscl]; nofun), if_neg (by simp [hi])] at h
  obtain ⟨hduring, hset, hzero⟩ := h
  have hquiet := hduring.quiet hi hr hcalm.start hcalm.re hcalm.byte s.lines (s.access img i).1
  have hreceived' : (Fx2.step img s i).received = s.received := received_keeps hcalm.re (.inr (.inl hmoves))
  obtain ⟨hstage', -, hbyte', -⟩ := waits img hmoves
  have hpause := hduring.reads.2.1 fun h0 => (hzero h0).1
  have hscl' : (Fx2.step img s i).scl = true := scl_keeps hscl hpause (by rw [hstage', hstage]; rfl)
  have hr' : (Fx2.step img s i).core.scl.r = false := hi
  unfold Phase
  rw [hduring.reads.2.2, hstage', hstage, hbyte']
  refine ⟨hholds, hreceived'.trans hreceived, ?_⟩
  rw [if_neg (by rw [hscl']; nofun), if_neg (by simp [hr'])]
  refine ⟨hquiet.1, ?_⟩
  by_cases hslot : slot.core = .data 0
  · rw [hslot] at hduring
    obtain ⟨hfsm, hdrv⟩ := hzero hslot
    obtain ⟨hfsm', hdrv', hkeeps⟩ :=
      (hduring.first hi hr hcalm.start hcalm.re hcalm.byte s.lines (s.access img i).1).2 hfsm
    exact ⟨(hkeeps hdrv).symm, fun _ => ⟨hfsm', hdrv'⟩⟩
  · exact ⟨(hquiet.2 hslot).symm, fun h0 => absurd h0 hslot⟩

/-- The master's level is sampled in the slots that it drives. -/
theorem Clocked.driven (h : Clocked s slot) (hsound : Sound s) (hstage : s.master.stage = .high slot) {b : Byte}
    (hduring : During b slot.core s.core) (hset : Settled s.core) (hi : s.core.scl.i = true) :
    s.core.sda.i = slot.core.sda ∨ slot.core = .addressAck ∨ ∃ k, slot.core = .data k := by
  have hdriven := hsound.driven
  unfold Driven at hdriven
  rw [hstage] at hdriven
  rcases hduring.released with hoff | hslave
  · rcases core_cases slot with hcore | ⟨hcore, -⟩
    · rw [hcore]
      by_cases hslot : slot = .addressAck
      · exact .inr (.inl hslot)
      · have hline : s.lines.sda = slot.sda := by
          have hreg : s.core.sdaDrvReg = false := hset.trans hoff
          simp [System.lines, hreg, hdriven]
        exact .inl (((h.stays hslot).i hi).trans hline)
    · exact .inr (.inr ⟨0, hcore⟩)
  · exact .inr hslave

/-- The core sees SCL rise. -/
theorem Phase.rise (h : Phase img n s) (hcalm : Calm img n s) (hsound : Sound s) (hstage : s.master.stage = .high slot)
    (hclocked : Clocked s slot) (hi : s.core.scl.i = true) (hr : s.core.scl.r = false) (hstale : s.stale = false)
    (i : Input) : Phase img n (Fx2.step img s i) ∨ Waiting img n (Fx2.step img s i) := by
  have hle : s.master.held ≤ 10 := hclocked.clk.le (.inr (by rw [hr]; nofun))
  have hmoves : s.moves i = false := not_moves_of_held (by omega) i
  unfold Phase at h
  rw [hstage] at h
  obtain ⟨hholds, hreceived, h⟩ := h
  rw [if_neg (by rw [hclocked.scl]; nofun), if_neg (by simp [hr])] at h
  obtain ⟨hduring, hset, hzero⟩ := h
  have hsda := hclocked.driven hsound hstage hduring hset hi
  have hreceived' : (Fx2.step img s i).received = s.received := received_keeps hcalm.re (.inr (.inl hmoves))
  obtain ⟨hstage', -, hbyte', -⟩ := waits img hmoves
  have hi' : (Fx2.step img s i).core.scl.i = true := by
    rw [(sampled_step img s i).1, hclocked.scl]
    exact hclocked.clk.step_seen hi _ _
  have hr' : (Fx2.step img s i).core.scl.r = true := hi
  have hpause := hduring.reads.2.1 fun h0 => (hzero h0).1
  have hscl' : (Fx2.step img s i).scl = true := scl_keeps hclocked.scl hpause (by rw [hstage', hstage]; rfl)
  by_cases hack : slot = .dataAck false
  · right
    subst hack
    have hsda' : s.core.sda.i = true := by
      rcases hsda with hsda | hsda | ⟨k, hsda⟩
      · exact hsda
      · cases hsda
      · cases hsda
    obtain ⟨hfsm', hdrv', hoff⟩ := hduring.nack hi hr hcalm.start hsda' s.lines (s.access img i).1
    refine ⟨.inl hfsm', off_of_dataDrv hdrv', fun hreg => ?_, .inr ⟨?_, hreceived'.trans hreceived, ?_⟩⟩
    · have := hoff.symm.trans hreg
      cases this
    · simp [step_stale, hcalm.re, hstale, hcalm.start]
    · unfold Between
      rw [hstage', hstage]
      exact .inr (.inr ⟨rfl, hscl', hi', hr'⟩)
  · left
    have hrise := hduring.rise hi hr hcalm.start hcalm.re hsda hzero (mt core_eq_dataAck.1 hack) s.lines
      (s.access img i).1
    unfold Phase
    rw [hstage', hstage, hbyte']
    refine ⟨hholds, hreceived'.trans hreceived, ?_⟩
    rw [if_neg (by rw [hscl']; nofun), if_pos (by simp [hi', hr'])]
    exact ⟨hrise.1, hrise.2.symm⟩

theorem received_byte (hre : s.core.slaveAddrRe = false) (hstale : s.stale = false) (hmoves : s.moves i = true)
    (hstage : s.master.stage = .high (.data 7)) :
    (Fx2.step img s i).received = s.received ++ [s.master.shifted s.lines.sda] := by
  simp [step_received, hre, System.nextReceived, hmoves, hstale, Master.receives, hstage]

/-- Only after a byte is the master ahead, and only within one does the next slot need its bits. -/
theorem next_plain {choice : Choice} {sda : Bool} {slot' : Slot} (hslot : ∀ k, slot ≠ .data k)
    (hnext : slot.next choice sda = .low slot') : slot'.ahead = 0 ∧ ∀ k, slot' = .data k → k = 0 := by
  cases slot with
  | address i =>
    obtain rfl := Stage.low.inj hnext
    split
    · exact ⟨rfl, nofun⟩
    · exact ⟨rfl, nofun⟩
  | addressAck =>
    obtain ⟨slot'', hlow, hcore⟩ := next_acked (!sda && choice.more) choice.again
    obtain rfl : slot'' = slot' := Stage.low.inj (hlow.symm.trans (by simpa [Slot.next] using hnext))
    exact ahead_of_core hcore
  | data k => exact absurd rfl (hslot k)
  | dataAck ack =>
    obtain ⟨slot'', hlow, hcore⟩ := next_acked (ack && choice.more) choice.again
    obtain rfl : slot'' = slot' := Stage.low.inj (hlow.symm.trans (by simpa [Slot.next] using hnext))
    exact ahead_of_core hcore
  | stop    => cases hnext
  | restart => cases hnext

/-- The master takes a bit of the byte, and with the last one the byte. -/
theorem received_bit {b : Byte} {k : Nat} {slot' : Slot} (hcalm : Calm img n s) (hstale : s.stale = false)
    (hmoves : s.moves i = true) (hstage : s.master.stage = .high (.data k)) (hk : k < 8)
    (hbegun : Begun b k s.master.byte) (hline : s.lines.sda = b.getMsbD k)
    (hnext : (Slot.data k).next i.choice s.lines.sda = .low slot') :
    Holds b slot' (Fx2.step img s i).master.byte ∧
      (Fx2.step img s i).received = s.received ++ List.replicate slot'.ahead b := by
  have hbyte' : (Fx2.step img s i).master.byte = s.master.shifted s.lines.sda := by
    rw [(moved img hmoves).1]
    simp [Master.move, hstage]
  have hshifted : Begun b (k + 1) (s.master.shifted s.lines.sda) := by
    rw [Master.shifted, hline]
    exact hbegun.concat hk
  have hslot := Stage.low.inj hnext
  by_cases h7 : k < 7
  · rw [if_pos h7] at hslot
    rw [← hslot, hbyte']
    refine ⟨fun k' hk' => ?_, ?_⟩
    · rw [← Slot.data.inj hk']
      exact hshifted
    · have hlast : s.master.stage ≠ .high (.data 7) := by
        rw [hstage]
        intro heq
        cases heq
        omega
      rw [received_keeps hcalm.re (.inr (.inr hlast))]
      simp [Slot.ahead]
  · obtain rfl : k = 7 := by omega
    rw [if_neg h7] at hslot
    rw [← hslot, received_byte hcalm.re hstale hmoves hstage, hshifted.eq]
    exact ⟨fun k' hk' => absurd hk' (by simp), rfl⟩

/-- The core has seen SCL high, and waits for its fall with the master. -/
theorem Phase.seen (h : Phase img n s) (hcalm : Calm img n s) (hstage : s.master.stage = .high slot)
    (hclocked : Clocked s slot) (hi : s.core.scl.i = true) (hr : s.core.scl.r = true) (hmoves : s.moves i = false) :
    Phase img n (Fx2.step img s i) := by
  unfold Phase at h
  rw [hstage] at h
  obtain ⟨hholds, hreceived, h⟩ := h
  rw [if_neg (by rw [hclocked.scl]; nofun), if_pos (by simp [hi, hr])] at h
  obtain ⟨hafter, hset⟩ := h
  have hquiet := hafter.quiet hi hr hcalm.start hcalm.re hcalm.addr s.lines (s.access img i).1
  have hi' : (Fx2.step img s i).core.scl.i = true := by
    rw [(sampled_step img s i).1, hclocked.scl]
    exact hclocked.clk.step_seen hi _ _
  have hr' : (Fx2.step img s i).core.scl.r = true := hi
  obtain ⟨hstage', -, hbyte', -⟩ := waits img hmoves
  have hreceived' : (Fx2.step img s i).received = s.received := received_keeps hcalm.re (.inr (.inl hmoves))
  have hscl' : (Fx2.step img s i).scl = true := scl_keeps hclocked.scl hafter.reads.2 (by rw [hstage', hstage]; rfl)
  unfold Phase
  rw [hstage', hstage, hbyte']
  refine ⟨hholds, hreceived'.trans hreceived, ?_⟩
  rw [if_neg (by rw [hscl']; nofun), if_pos (by simp [hi', hr'])]
  exact ⟨hquiet.1, hquiet.2.symm⟩

/-- The next slot begins where the core is. -/
theorem Phase.next (h : Phase img n s) (hcalm : Calm img n s) (hbus : Bus s) (hsound : Sound s)
    (hstage : s.master.stage = .high slot) (hcore : slot.core = slot) (hstale : s.stale = false)
    (hle : s.core.fsm = .doRead → n ≤ img.endAddr) (hmoves : s.moves i = true) : Phase img n (Fx2.step img s i) := by
  obtain ⟨hafter, hset⟩ := h.sending hbus hmoves hstage
  rw [hcore] at hafter
  have hclk := (hbus.steady_of_moves hmoves).1 (by rw [hstage]; rfl)
  have hi : s.core.scl.i = true := by rw [hclk]; rfl
  have hr : s.core.scl.r = true := by rw [hclk]; rfl
  have hr' : (Fx2.step img s i).core.scl.r = true := hi
  unfold Phase at h
  rw [hstage] at h
  obtain ⟨hholds, hreceived, -⟩ := h
  have hquiet := hafter.quiet hi hr hcalm.start hcalm.re hcalm.addr s.lines (s.access img i).1
  have hdriven := hsound.driven
  unfold Driven at hdriven
  rw [hstage] at hdriven
  have hline : s.lines.sda = (slot.sda && !s.core.sdaDrv) := by
    have hreg : s.core.sdaDrvReg = s.core.sdaDrv := hset
    simp [System.lines, hdriven, hreg]
  have hsda : slot = .addressAck → s.lines.sda = false := by
    rintro rfl
    simp [hline, Core.sdaDrv, Core.zeroDrv, hafter.1]
  have hwhole : ¬ Addressing 8 (Fx2.step img s i).core :=
    not_addressing hr hcalm.start hcalm.re s.lines (s.access img i).1
  obtain ⟨slot', hnext, hbefore⟩ := hquiet.1.before hwhole i.choice s.lines.sda hsda
  have hstage' : (Fx2.step img s i).master.stage = .low slot' := by
    rw [stage_moved img hmoves, hstage]
    exact hnext
  unfold Phase
  rw [hstage']
  by_cases hdata : ∃ k, slot = .data k
  · obtain ⟨k, rfl⟩ := hdata
    obtain ⟨hk, hsent⟩ := hafter
    have hbit : s.lines.sda = (fwGetValue img n).getMsbD k := by
      simp [hline, Slot.sda, Core.sdaDrv, Core.zeroDrv, hsent.fsm, hsent.dataDrv, hsent.dataBit]
    obtain ⟨hholds', hreceived'⟩ := received_bit hcalm hstale hmoves hstage hk (hholds k rfl) hbit hnext
    refine ⟨hholds', ?_⟩
    rw [if_pos (by simp [hr'])]
    refine ⟨hbefore, hquiet.2.symm, ?_⟩
    rw [hreceived', hreceived]
    cases slot' with
    | dataAck ack => exact (take_succ_content (hle hsent.fsm)).symm
    | _           => exact List.append_nil _
  · have hplain : ∀ k, slot ≠ .data k := fun k hk => hdata ⟨k, hk⟩
    obtain ⟨hahead, hzero⟩ := next_plain hplain hnext
    have hreceived' : (Fx2.step img s i).received = s.received :=
      received_keeps hcalm.re (.inr (.inr (by rw [hstage]; exact fun heq => hplain 7 (Stage.high.inj heq))))
    refine ⟨fun k hk => ?_, ?_⟩
    · rw [hzero k hk]
      exact begun_zero _ _
    · rw [if_pos (by simp [hr']), hahead]
      exact ⟨hbefore, hquiet.2.symm, hreceived'.trans hreceived⟩

/-- The master ends the transaction after an acknowledgement, with a released SDA. -/
theorem Phase.ends (h : Phase img n s) (hcalm : Calm img n s) (hbus : Bus s) (hsound : Sound s)
    (hyielded : Yielded s i) (hstage : s.master.stage = .high slot) (hcore : slot.core = .data 0)
    (hslot : slot = .stop ∨ slot = .restart) (hstale : s.stale = false) (hmoves : s.moves i = true) :
    Waiting img n (Fx2.step img s i) := by
  obtain ⟨hafter, hset⟩ := h.sending hbus hmoves hstage
  rw [hcore] at hafter
  have hsent := hafter.2
  have hclk := (hbus.steady_of_moves hmoves).1 (by rw [hstage]; rfl)
  have hi : s.core.scl.i = true := by rw [hclk]; rfl
  have hr : s.core.scl.r = true := by rw [hclk]; rfl
  have hoff : s.core.sdaDrvReg = false := hyielded ⟨hmoves, by rcases hslot with rfl | rfl <;> simp [hstage]⟩
  have hreleased : s.core.sdaDrv = false := hset.symm.trans hoff
  have hbit : Off s.core := by
    intro hdrv
    simpa [Core.sdaDrv, Core.zeroDrv, hsent.fsm, hdrv] using hreleased
  have hquiet := hafter.quiet hi hr hcalm.start hcalm.re hcalm.addr s.lines (s.access img i).1
  have hreceived : (Fx2.step img s i).received = img.content.take n := by
    unfold Phase at h
    rw [hstage] at h
    rw [received_keeps hcalm.re (.inr (.inr (by rw [hstage]; rcases hslot with rfl | rfl <;> nofun)))]
    exact h.2.1
  have hstale' : (Fx2.step img s i).stale = false := by simp [step_stale, hcalm.re, hcalm.start, hstale]
  have hstage' := stage_moved img hmoves
  rw [hstage] at hstage'
  have hover : ((Fx2.step img s i).master.stage = .idle ∨ (Fx2.step img s i).master.stage = .start) ∧
      Between (Fx2.step img s i) := by
    have hbetween : Between s := by
      unfold Between
      rw [hstage]
      exact hslot.imp_right Or.inl
    refine ⟨?_, hbetween.move hbus hyielded hsound hmoves⟩
    rcases hslot with rfl | rfl
    · exact .inl hstage'
    · exact .inr hstage'
  refine ⟨.inr ⟨hquiet.1.2, hstale', hover.1⟩, hbit.cycle (by simp [Core.dataDrvEn, hi]) _ _, fun hreg => ?_,
    .inr ⟨hstale', hreceived, hover.2⟩⟩
  have := hreleased.symm.trans hreg
  cases this

theorem Phase.step (h : Phase img n s) (hcalm : Calm img n s) (hbus : Bus s) (hsound : Sound s)
    (hstale : s.stale = false) (hle : s.core.fsm = .doRead → n ≤ img.endAddr) (hyielded : Yielded s i) :
    Phase img (if takes s.core then n + 1 else n) (Fx2.step img s i) ∨
      Waiting img (if takes s.core then n + 1 else n) (Fx2.step img s i) := by
  have hbus' := hbus
  unfold Bus at hbus'
  cases hstage : s.master.stage with
  | idle      =>
    unfold Phase at h
    rw [hstage] at h
    exact absurd h id
  | start     =>
    rw [hstage] at hbus'
    have htakes : takes s.core = false := by simp [takes, hbus'.2.1, steady]
    rw [htakes]
    exact .inl (h.start hcalm hbus hstage i)
  | low slot  =>
    cases hseen : s.core.scl.i || s.core.scl.r with
    | true  => exact .inl (h.falling hcalm hbus hstage hseen i)
    | false => exact .inl (h.low hcalm hbus hsound hstage hseen i)
  | set slot  => exact .inl (h.set hcalm hbus hsound hstage i)
  | high slot =>
    rw [hstage] at hbus'
    rcases hbus' with ⟨hscl, hclk⟩ | hclocked
    · exact .inl (h.stretched hcalm hclk hsound hstage hscl i)
    · cases hi : s.core.scl.i with
      | false => exact .inl (h.unseen hcalm hstage hclocked hi i)
      | true  =>
        have htakes : takes s.core = false := by simp [takes, hi]
        rw [htakes]
        cases hr : s.core.scl.r with
        | false => exact h.rise hcalm hsound hstage hclocked hi hr hstale i
        | true  =>
          cases hmoves : s.moves i with
          | false => exact .inl (h.seen hcalm hstage hclocked hi hr hmoves)
          | true  =>
            rcases core_cases slot with hcore | ⟨hcore, hslot⟩
            · exact .inl (h.next hcalm hbus hsound hstage hcore hstale hle hmoves)
            · exact .inr (h.ends hcalm hbus hsound hyielded hstage hcore hslot hstale hmoves)

end Fx2
end Hdmi2Usb
