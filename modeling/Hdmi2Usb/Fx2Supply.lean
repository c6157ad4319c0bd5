import Hdmi2Usb.Fx2Slots
/-!
# Fx2Supply — the firmware and the shift register

`fx2_service` answers the status that the slave has set when it has sent a byte.  A byte of the image is in the shift
register (`Full`), or the firmware is on its way to put up the next one (`Emptied`), or it has begun `fx2_load_init`
(`Restarting`).
-/
namespace Hdmi2Usb
namespace Fx2

open I2cShiftReg

variable {img : Image} {s : System} {i : Input} {n : Nat}

/-- Byte `n` is in the shift register. -/
structure Full (img : Image) (n : Nat) (s : System) : Prop where
  le       : n ≤ img.endAddr
  status   : s.core.status = hackStatusReady
  shiftReg : s.core.shiftReg = fwGetValue img n
  re       : s.core.slaveAddrRe = false
  pc       : s.cpu.pc = .service
  next     : s.cpu.nextReadAddr = n
  supplied : s.supplied = img.content.take (n + 1)

/-- Where the firmware is when `n` bytes of the image are taken and the next one is not up yet. -/
inductive Answering (img : Image) (n : Nat) (s : System) : Prop
  | service (pc : s.cpu.pc = .service) (next : s.cpu.nextReadAddr + 1 = n)
  | loadShift (pc : s.cpu.pc = .loadShift) (next : s.cpu.nextReadAddr + 1 = n) (le : n ≤ img.endAddr)
  | loadStatus (pc : s.cpu.pc = .loadStatus) (next : s.cpu.nextReadAddr + 1 = n) (le : n ≤ img.endAddr)
      (shiftReg : s.core.shiftReg = fwGetValue img n)
  | initAddr (pc : s.cpu.pc = .initAddr) (next : s.cpu.nextReadAddr = 0) (all : n = img.endAddr + 1)
  | initShift (pc : s.cpu.pc = .initShift) (next : s.cpu.nextReadAddr = 0) (none : n = 0)
  | initStatus (pc : s.cpu.pc = .initStatus) (next : s.cpu.nextReadAddr = 0) (none : n = 0)
      (shiftReg : s.core.shiftReg = fwGetValue img 0)

structure Emptied (img : Image) (n : Nat) (s : System) : Prop where
  le        : n ≤ img.endAddr + 1
  status    : s.core.status = statusEmpty
  re        : s.core.slaveAddrRe = false
  answering : Answering img n s
  supplied  : s.supplied = img.content.take n

/-- The slave sees that its address was written. -/
structure Restarting (img : Image) (n : Nat) (s : System) : Prop where
  all      : n = img.endAddr + 1
  status   : s.core.status = statusEmpty
  re       : s.core.slaveAddrRe = true
  pc       : s.cpu.pc = .initShift
  next     : s.cpu.nextReadAddr = 0
  supplied : s.supplied = img.content.take n

theorem take_succ_content {n : Nat} (h : n ≤ img.endAddr) :
    img.content.take (n + 1) = img.content.take n ++ [fwGetValue img n] := by
  rw [List.take_add_one]
  simp [Image.content, fwGetValue, h, show n < img.endAddr + 1 by omega]

/-! ## A cycle -/

theorem access_none (img : Image) (s : System) (h : i.access = false) : s.access img i = (none, s.cpu) := by
  simp [System.access, h]

theorem access_due (img : Image) (s : System) (h : i.access = true) :
    s.access img i = s.cpu.access img s.core.status := by
  simp [System.access, h]

theorem step_access {w : Option Write} {cpu : Cpu} (h : s.access img i = (w, cpu)) :
    (step img s i).core = s.core.cycle s.lines w ∧ (step img s i).cpu = cpu := by
  rw [step_core, step_cpu, System.nextCore, h]
  exact ⟨rfl, rfl⟩

theorem supplied_keeps (img : Image) (hre : s.core.slaveAddrRe = false)
    (h : i.access = false ∨ s.cpu.pc ≠ .loadStatus ∧ s.cpu.pc ≠ .initStatus) :
    (step img s i).supplied = s.supplied := by
  rw [step_supplied, hre]
  rcases h with h | ⟨hload, hinit⟩
  · simp [System.nextSupplied, h]
  · simp [System.nextSupplied, hload, hinit]

theorem supplied_up (img : Image) (hre : s.core.slaveAddrRe = false) (hi : i.access = true)
    (h : s.cpu.pc = .loadStatus ∨ s.cpu.pc = .initStatus) :
    (step img s i).supplied = s.supplied ++ [s.core.shiftReg] := by
  simp [step_supplied, hre, System.nextSupplied, hi, h]

/-- The core is at no place where it writes the registers itself. -/
def Passive (c : Core) : Prop := c.fsm ≠ .doRead ∧ c.fsm ≠ .doWrite ∧ c.fsm ≠ .ackWrite2

/-- Then they are what the firmware makes them. -/
theorem Passive.registers {w : Option Write} {cpu : Cpu} (h : Passive s.core) : s.access img i = (w, cpu) →
    (step img s i).core.status = (match w with | some (.status v) => v | _ => s.core.status) ∧
      (step img s i).core.shiftReg = (match w with | some (.shiftReg v) => v | _ => s.core.shiftReg) ∧
      (step img s i).core.slaveAddrRe = (match w with | some (.slaveAddr _) => true | _ => false) ∧
      (step img s i).cpu = cpu := by
  intro haccess
  obtain ⟨hread, hwrite, hack⟩ := h
  obtain ⟨hcore, hcpu⟩ := step_access haccess
  have hstatus : s.core.statusDev = s.core.status := by simp [Core.statusDev, hread, hack]
  have hshift : s.core.shiftDev = s.core.shiftReg := by simp [Core.shiftDev, hwrite]
  rw [hcore, ← hstatus, ← hshift]
  exact ⟨rfl, rfl, rfl, hcpu⟩

theorem Full.step (h : Full img n s) (hwrite : s.core.fsm ≠ .doWrite ∧ s.core.fsm ≠ .ackWrite2) (i : Input) :
    if takes s.core then Emptied img (n + 1) (step img s i) else Full img n (step img s i) := by
  have haccess : s.access img i = (none, s.cpu) := by
    have hempty : s.core.status ≠ hackShiftRegEmpty := by
      rw [h.status]
      decide
    simp [System.access, Cpu.access, h.pc, hempty]
  obtain ⟨hcore, hcpu⟩ := step_access haccess
  have hstatus : (Fx2.step img s i).core.status = if takes s.core then statusEmpty else hackStatusReady := by
    rw [hcore, ← h.status]
    simp [Core.cycle, Core.statusDev, takes, hwrite.2]
  have hshift : (Fx2.step img s i).core.shiftReg = fwGetValue img n := by
    rw [hcore, ← h.shiftReg]
    simp [Core.cycle, Core.shiftDev, hwrite.1]
  have hre : (Fx2.step img s i).core.slaveAddrRe = false := by
    rw [hcore]
    rfl
  have hsupplied : (Fx2.step img s i).supplied = img.content.take (n + 1) :=
    (supplied_keeps img h.re (.inr (by simp [h.pc]))).trans h.supplied
  split
  · rename_i htakes
    rw [htakes] at hstatus
    exact ⟨by have := h.le; omega, hstatus, hre, .service (by rw [hcpu]; exact h.pc) (by rw [hcpu, h.next]), hsupplied⟩
  · rename_i htakes
    rw [Bool.not_eq_true] at htakes
    rw [htakes] at hstatus
    exact ⟨h.le, hstatus, hshift, hre, by rw [hcpu]; exact h.pc, by rw [hcpu]; exact h.next, hsupplied⟩

/-- The firmware does nothing in the cycle. -/
theorem Emptied.wait (h : Emptied img n s) (hpassive : Passive s.core) (hi : i.access = false) :
    Emptied img n (step img s i) := by
  obtain ⟨hstatus, hshift, hre, hcpu⟩ := hpassive.registers (access_none img s hi)
  refine ⟨h.le, hstatus.trans h.status, hre, ?_, (supplied_keeps img h.re (.inl hi)).trans h.supplied⟩
  cases h.answering with
  | service pc next                  => exact .service (by rwa [hcpu]) (by rwa [hcpu])
  | loadShift pc next le             => exact .loadShift (by rwa [hcpu]) (by rwa [hcpu]) le
  | loadStatus pc next le shiftReg   => exact .loadStatus (by rwa [hcpu]) (by rwa [hcpu]) le (hshift.trans shiftReg)
  | initAddr pc next all             => exact .initAddr (by rwa [hcpu]) (by rwa [hcpu]) all
  | initShift pc next none           => exact .initShift (by rwa [hcpu]) (by rwa [hcpu]) none
  | initStatus pc next none shiftReg => exact .initStatus (by rwa [hcpu]) (by rwa [hcpu]) none (hshift.trans shiftReg)

/-- The firmware sees that the byte is taken: it goes on to the next one, or begins again after the last. -/
theorem Emptied.service (h : Emptied img n s) (hpassive : Passive s.core) (hi : i.access = true)
    (pc : s.cpu.pc = .service) (next : s.cpu.nextReadAddr + 1 = n) : Emptied img n (step img s i) := by
  have hsupplied : (Fx2.step img s i).supplied = img.content.take n :=
    (supplied_keeps img h.re (.inr (by simp [pc]))).trans h.supplied
  by_cases hlt : s.cpu.nextReadAddr < img.endAddr
  · have haccess : s.access img i = (none, { s.cpu with pc := .loadShift }) := by
      simp [access_due img s hi, Cpu.access, pc, h.status, hlt, statusEmpty, hackShiftRegEmpty]
    obtain ⟨hstatus, -, hre, hcpu⟩ := hpassive.registers haccess
    exact ⟨h.le, hstatus.trans h.status, hre, .loadShift (by rw [hcpu]) (by rw [hcpu]; exact next) (by omega),
      hsupplied⟩
  · have haccess : s.access img i = (none, { s.cpu with pc := .initAddr, nextReadAddr := 0 }) := by
      simp [access_due img s hi, Cpu.access, pc, h.status, hlt, statusEmpty, hackShiftRegEmpty]
    obtain ⟨hstatus, -, hre, hcpu⟩ := hpassive.registers haccess
    have hall : n = img.endAddr + 1 := by
      have := h.le
      omega
    exact ⟨h.le, hstatus.trans h.status, hre, .initAddr (by rw [hcpu]) (by rw [hcpu]) hall, hsupplied⟩

/-- One access on, the next byte is up when the status says so. -/
theorem Emptied.step (h : Emptied img n s) (hpassive : Passive s.core) (i : Input) :
    Emptied img n (step img s i) ∨ Full img n (step img s i) ∨ Restarting img n (step img s i) := by
  cases hi : i.access with
  | false => exact .inl (h.wait hpassive hi)
  | true  =>
    cases h.answering with
    | service pc next => exact .inl (h.service hpassive hi pc next)
    | loadShift pc next le =>
      have haccess : s.access img i = (some (.shiftReg (fwGetValue img n)),
          { s.cpu with pc := .loadStatus, reads := n :: s.cpu.reads }) := by
        simp [access_due img s hi, Cpu.access, pc, next]
      obtain ⟨hstatus, hshift, hre, hcpu⟩ := hpassive.registers haccess
      exact .inl ⟨h.le, hstatus.trans h.status, hre, .loadStatus (by rw [hcpu]) (by rw [hcpu]; exact next) le hshift,
        (supplied_keeps img h.re (.inr (by simp [pc]))).trans h.supplied⟩
    | loadStatus pc next le shiftReg =>
      have haccess : s.access img i = (some (.status hackStatusReady),
          { s.cpu with pc := .service, nextReadAddr := n }) := by
        simp [access_due img s hi, Cpu.access, pc, next]
      obtain ⟨hstatus, hshift, hre, hcpu⟩ := hpassive.registers haccess
      refine .inr (.inl ⟨le, hstatus, hshift.trans shiftReg, hre, by rw [hcpu], by rw [hcpu], ?_⟩)
      rw [supplied_up img h.re hi (.inl pc), h.supplied, shiftReg, take_succ_content le]
    | initAddr pc next all =>
      have haccess : s.access img i = (some (.slaveAddr hackSlaveAddress), { s.cpu with pc := .initShift }) := by
        simp [access_due img s hi, Cpu.access, pc]
      obtain ⟨hstatus, -, hre, hcpu⟩ := hpassive.registers haccess
      exact .inr (.inr ⟨all, hstatus.trans h.status, hre, by rw [hcpu], by rw [hcpu]; exact next,
        (supplied_keeps img h.re (.inr (by simp [pc]))).trans h.supplied⟩)
    | initShift pc next none =>
      have haccess : s.access img i = (some (.shiftReg (fwGetValue img 0)),
          { s.cpu with pc := .initStatus, reads := 0 :: s.cpu.reads }) := by
        simp [access_due img s hi, Cpu.access, pc]
      obtain ⟨hstatus, hshift, hre, hcpu⟩ := hpassive.registers haccess
      exact .inl ⟨h.le, hstatus.trans h.status, hre, .initStatus (by rw [hcpu]) (by rw [hcpu]; exact next) none hshift,
        (supplied_keeps img h.re (.inr (by simp [pc]))).trans h.supplied⟩
    | initStatus pc next none shiftReg =>
      have haccess : s.access img i = (some (.status hackStatusReady), { s.cpu with pc := .service }) := by
        simp [access_due img s hi, Cpu.access, pc]
      obtain ⟨hstatus, hshift, hre, hcpu⟩ := hpassive.registers haccess
      subst none
      refine .inr (.inl ⟨Nat.zero_le _, hstatus, hshift.trans shiftReg, hre, by rw [hcpu], by rw [hcpu]; exact next,
        ?_⟩)
      rw [supplied_up img h.re hi (.inr pc), h.supplied, shiftReg, take_succ_content (Nat.zero_le _)]

theorem Restarting.step (h : Restarting img n s) (hpassive : Passive s.core) (i : Input) :
    Emptied img 0 (step img s i) := by
  have hsupplied : (Fx2.step img s i).supplied = [] := if_pos h.re
  cases hi : i.access with
  | false =>
    obtain ⟨hstatus, -, hre, hcpu⟩ := hpassive.registers (access_none img s hi)
    exact ⟨Nat.zero_le _, hstatus.trans h.status, hre,
      .initShift (by rw [hcpu]; exact h.pc) (by rw [hcpu]; exact h.next) rfl, hsupplied⟩
  | true  =>
    have haccess : s.access img i = (some (.shiftReg (fwGetValue img 0)),
        { s.cpu with pc := .initStatus, reads := 0 :: s.cpu.reads }) := by
      simp [access_due img s hi, Cpu.access, h.pc]
    obtain ⟨hstatus, hshift, hre, hcpu⟩ := hpassive.registers haccess
    exact ⟨Nat.zero_le _, hstatus.trans h.status, hre,
      .initStatus (by rw [hcpu]) (by rw [hcpu]; exact h.next) rfl hshift, hsupplied⟩

/-- The firmware reads no byte past the end. -/
theorem reads_step (h : ∀ a ∈ s.cpu.reads, a ≤ img.endAddr)
    (hload : s.cpu.pc = .loadShift → s.cpu.nextReadAddr + 1 ≤ img.endAddr) (i : Input) :
    ∀ a ∈ (step img s i).cpu.reads, a ≤ img.endAddr := by
  rw [step_cpu]
  unfold System.access
  cases hi : i.access with
  | false => exact h
  | true  =>
    rw [if_pos rfl]
    unfold Cpu.access
    cases hpc : s.cpu.pc with
    | service =>
      simp only
      split
      · split
        · exact h
        · exact h
      · exact h
    | loadShift =>
      intro a ha
      rcases List.mem_cons.1 ha with rfl | ha
      · exact hload hpc
      · exact h a ha
    | initShift =>
      intro a ha
      rcases List.mem_cons.1 ha with rfl | ha
      · exact Nat.zero_le _
      · exact h a ha
    | loadStatus => exact h
    | initAddr   => exact h
    | initStatus => exact h

theorem access_slaveAddr {v : BitVec 7} (h : (s.access img i).1 = some (.slaveAddr v)) : v = hackSlaveAddress := by
  unfold System.access at h
  split at h
  · revert h
    fun_cases Cpu.access img s.core.status s.cpu <;> simp [eq_comm]
  · cases h

theorem slaveAddr_step (h : s.core.slaveAddr = hackSlaveAddress) (img : Image) (i : Input) :
    (step img s i).core.slaveAddr = hackSlaveAddress := by
  show (match (s.access img i).1 with
    | some (.slaveAddr v) => v
    | _                   => s.core.slaveAddr) = _
  split
  · rename_i hwrite
    exact access_slaveAddr hwrite
  · exact h

end Fx2
end Hdmi2Usb
