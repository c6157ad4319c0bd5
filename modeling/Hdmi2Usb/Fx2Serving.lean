import Hdmi2Usb.Fx2Transaction
import Hdmi2Usb.Runs
/-!
# Fx2Serving — the FX2 receives its firmware

`Inv` puts the bus, the shift register and the slave's phase together.  It is kept by every cycle but one in which SCL
is seen to rise in the sample in which SDA is seen to fall: the core does not look at the old SCL for a start condition,
and takes the first bit of a byte that comes late for one (`not_served_lateAnswer`).  A transaction that is ended after
an acknowledgement needs a released SDA besides.  And the next byte always comes: an access of the firmware that does not
put it up is one towards it (`Cpu.left`, `apart_fills`).
-/
namespace Hdmi2Usb
namespace Fx2

open I2cShiftReg SampledWire
open Runs (AllSteps AllStates)

variable {img : Image} {s : System} {i : Input} {n : Nat}

/-- The invariant: `n` bytes are taken in the round. -/
structure Inv (img : Image) (n : Nat) (s : System) : Prop where
  bus    : Bus s
  sound  : Sound s
  addr   : s.core.slaveAddr = hackSlaveAddress
  supply : Full img n s ∨ Emptied img n s ∨ Restarting img n s
  mode   : Waiting img n s ∨ Serving img n s
  full   : s.core.fsm = .doRead → Full img n s
  rounds : ∀ r ∈ s.rounds, r = img.content
  reads  : ∀ a ∈ s.cpu.reads, a ≤ img.endAddr

theorem Inv.reads_core (h : Inv img n s) : Reads s.core := by
  rcases h.mode with hwait | hserve
  · exact ⟨by rcases hwait.fsm with hfsm | hfsm <;> simp [hfsm], fun _ => hwait.off⟩
  · exact hserve.phase.reads

theorem Inv.relied (h : Inv img n s) : Relied s := by
  rcases h.mode with hwait | hserve
  · exact hwait.relied h.bus
  · exact hserve.phase.relied h.bus

theorem act_doRead {c : Core} (h : c.act = .doRead) :
    takes c = false ∧ (c.fsm = .doRead ∨ c.fsm = .pause ∧ c.status.getLsbD 1 = false) := by
  revert h
  fun_cases Core.act c <;> simp_all [takes]

/-- The core sends after a cycle that it has not taken the byte in, and begins to only with a byte in the register. -/
theorem sends_next (hre : s.core.slaveAddrRe = false) (h : (step img s i).core.fsm = .doRead) :
    takes s.core = false ∧ (s.core.fsm = .doRead ∨ s.core.fsm = .pause ∧ s.core.status.getLsbD 1 = false) := by
  rw [step_fsm, hre] at h
  cases hstart : s.core.start with
  | true  =>
    rw [hstart] at h
    cases h
  | false =>
    rw [hstart] at h
    exact act_doRead h

/-- What becomes of the shift register in a cycle. -/
theorem Inv.supply_step (h : Inv img n s) (hre : s.core.slaveAddrRe = false) (i : Input) :
    if takes s.core then Emptied img (n + 1) (step img s i)
    else Full img n (step img s i) ∨ Emptied img n (step img s i) ∨ Restarting img n (step img s i) := by
  have hreads := h.reads_core
  by_cases hread : s.core.fsm = .doRead
  · have hstep := (h.full hread).step hreads.write i
    split
    · rename_i htakes
      rwa [if_pos htakes] at hstep
    · rename_i htakes
      rw [if_neg htakes] at hstep
      exact .inl hstep
  · have htakes : takes s.core = false := by simp [takes, hread]
    rw [htakes]
    rcases h.supply with hf | he | hr
    · have hstep := hf.step hreads.write i
      rw [htakes] at hstep
      exact .inl hstep
    · rcases he.step ⟨hread, hreads.write⟩ i with hstep | hstep | hstep
      · exact .inr (.inl hstep)
      · exact .inl hstep
      · exact .inr (.inr hstep)
    · rw [hr.re] at hre
      cases hre

theorem Inv.full_step (h : Inv img n s) (hre : s.core.slaveAddrRe = false) (hread : (step img s i).core.fsm = .doRead) :
    Full img n (step img s i) := by
  obtain ⟨htakes, hsends⟩ := sends_next hre hread
  have hfull : Full img n s := by
    rcases hsends with hfsm | ⟨-, hstatus⟩
    · exact h.full hfsm
    · -- an empty register keeps the core in its pause
      rcases h.supply with hf | he | hr
      · exact hf
      · rw [he.status] at hstatus
        cases hstatus
      · rw [hr.re] at hre
        cases hre
  have hstep := hfull.step h.reads_core.write i
  rwa [htakes] at hstep

theorem length_content (img : Image) : img.content.length = img.endAddr + 1 := by simp [Image.content]

theorem Inv.restarting (h : Inv img n s) (hre : s.core.slaveAddrRe = true) :
    Restarting img n s ∧ s.core.fsm ≠ .doRead := by
  refine ⟨?_, fun hfsm => ?_⟩
  · rcases h.supply with hf | he | hr
    · rw [hf.re] at hre
      cases hre
    · rw [he.re] at hre
      cases hre
    · exact hr
  · rw [(h.full hfsm).re] at hre
    cases hre

/-- The round is over when the slave's address is written: its bytes are all of the image. -/
theorem Inv.round_over (h : Inv img n s) (hre : s.core.slaveAddrRe = true) (i : Input) :
    s.nextReceived i = img.content := by
  obtain ⟨hrestarting, hread⟩ := h.restarting hre
  have hall : ∀ k, img.content.take (n + k) = img.content := by
    intro k
    apply List.take_of_length_le
    rw [length_content, hrestarting.all]
    omega
  have hround : s.received = img.content ∧ ¬ (s.moves i = true ∧ s.master.stage = .high (.data 7)) := by
    rcases h.mode with hwait | hserve
    · rcases hwait.round with ⟨-, hzero, -⟩ | ⟨-, hreceived, hbetween⟩
      · have := hrestarting.all
        omega
      · refine ⟨hreceived.trans (hall 0), fun hlast => ?_⟩
        unfold Between at hbetween
        rw [hlast.2] at hbetween
        simp at hbetween
    · obtain ⟨k, hreceived, -⟩ := hserve.phase.received
      refine ⟨hreceived.trans (hall k), fun hlast => ?_⟩
      exact hread (hserve.phase.sending h.bus hlast.1 hlast.2).1.2.fsm
  have hnone : (if s.moves i ∧ !s.stale then s.master.receives s.lines.sda else none) = none := by
    split
    · rename_i hmoves
      exact if_neg fun hstage => hround.2 ⟨hmoves.1, hstage⟩
    · rfl
  unfold System.nextReceived
  rw [hnone]
  exact hround.1

/-- The slave's address is written: whatever the master does, the slave waits for a start condition. -/
theorem Inv.restart (h : Inv img n s) (hre : s.core.slaveAddrRe = true) (hyielded : Yielded s i)
    (haddr : (step img s i).core.slaveAddr = hackSlaveAddress)
    (hreads : ∀ a ∈ (step img s i).cpu.reads, a ≤ img.endAddr) :
    Inv img 0 (step img s i) := by
  obtain ⟨hrestarting, hread⟩ := h.restarting hre
  have hcore := h.reads_core
  have hfsm : (step img s i).core.fsm = .waitStart := if_pos hre
  have hoff : Off (step img s i).core := (hcore.off hread).cycle (by simp [Core.dataDrvEn, hread]) _ _
  have hacking : (step img s i).core.sdaDrvReg = true → Acking (step img s i).master := by
    intro hsda
    have hsda' : s.core.sdaDrv = true := hsda
    rcases h.mode with hwait | hserve
    · rw [hwait.released] at hsda'
      cases hsda'
    · exact hserve.phase.acking h.bus hread hsda' i
  have hstale : (step img s i).stale = true := by
    simp [step_stale, hre]
  have hrounds : ∀ r ∈ (step img s i).rounds, r = img.content := by
    rw [step_rounds, if_pos hre, h.round_over hre]
    intro r hr
    rcases List.mem_cons.1 hr with rfl | hr
    · rfl
    · exact h.rounds r hr
  exact
    { bus    := h.bus.step h.sound h.relied img hyielded
      sound  := h.sound.step img i
      addr   := haddr
      supply := .inr (.inl (hrestarting.step ⟨hread, hcore.write⟩ i))
      mode   := .inl ⟨.inl hfsm, hoff, hacking, .inl ⟨hstale, rfl, if_pos hre⟩⟩
      full   := fun hread' => by rw [hfsm] at hread'; cases hread'
      rounds := hrounds
      reads  := hreads }

theorem Inv.loading (h : Inv img n s) (hpc : s.cpu.pc = .loadShift) : s.cpu.nextReadAddr + 1 ≤ img.endAddr := by
  rcases h.supply with hf | he | hr
  · rw [hf.pc] at hpc
    cases hpc
  · cases he.answering with
    | loadShift pc next le => omega
    | service pc _ | loadStatus pc _ _ _ | initAddr pc _ _ | initShift pc _ _ | initStatus pc _ _ _ =>
      rw [pc] at hpc
      cases hpc
  · rw [hr.pc] at hpc
    cases hpc

/-- In a transaction no start condition is seen but the one that has begun it. -/
theorem Serving.calm (h : Serving img n s) (hinv : Inv img n s) (hapart : Apart s) (hre : s.core.slaveAddrRe = false) :
    Calm img n s := by
  refine ⟨?_, hre, hinv.addr, fun hread => (hinv.full hread).shiftReg⟩
  by_contra hstart
  obtain ⟨hstage, -, hr⟩ := hinv.bus.start_stage hapart (by simpa using hstart)
  have hphase := h.phase
  unfold Phase at hphase
  rw [hstage] at hphase
  have := hphase.2.2.2.1.symm.trans hr
  cases this

theorem Inv.mode_step (h : Inv img n s) (hapart : Apart s) (hyielded : Yielded s i)
    (hre : s.core.slaveAddrRe = false) :
    Waiting img (if takes s.core then n + 1 else n) (Fx2.step img s i) ∨
      Serving img (if takes s.core then n + 1 else n) (Fx2.step img s i) := by
  rcases h.mode with hwait | hserve
  · rw [(hwait.still h.bus).1]
    cases hstart : s.core.start with
    | true  => exact .inr (hwait.started h.bus hapart hre hstart i)
    | false => exact .inl (hwait.step h.bus h.sound hre hstart hyielded)
  · have hcalm := hserve.calm h hapart hre
    have hle : s.core.fsm = .doRead → n ≤ img.endAddr := fun hread => (h.full hread).le
    rcases hserve.phase.step hcalm h.bus h.sound hserve.stale hle hyielded with hnext | hnext
    · refine .inr ⟨?_, hnext⟩
      simp [step_stale, hre, hserve.stale]
    · exact .inl hnext

/-- **The invariant is kept** by every cycle in which SCL is not seen to rise while SDA is seen to fall, and no
transaction is ended against the slave. -/
theorem Inv.step (h : Inv img n s) (hapart : Apart s) (hyielded : Yielded s i) :
    ∃ n', Inv img n' (Fx2.step img s i) := by
  have haddr := slaveAddr_step h.addr img i
  have hreads := reads_step h.reads h.loading i
  cases hre : s.core.slaveAddrRe with
  | true  => exact ⟨0, h.restart hre hyielded haddr hreads⟩
  | false =>
    have hsupply := h.supply_step hre i
    have hrounds : ∀ r ∈ (Fx2.step img s i).rounds, r = img.content := by
      rw [step_rounds, hre]
      exact h.rounds
    refine ⟨if takes s.core then n + 1 else n,
      { bus    := h.bus.step h.sound h.relied img hyielded
        sound  := h.sound.step img i
        addr   := haddr
        supply := ?_
        mode   := h.mode_step hapart hyielded hre
        full   := fun hread => ?_
        rounds := hrounds
        reads  := hreads }⟩
    · cases htakes : takes s.core with
      | true  =>
        rw [htakes] at hsupply
        exact .inr (.inl hsupply)
      | false =>
        rw [htakes] at hsupply
        exact hsupply
    · rw [(sends_next hre hread).1]
      exact h.full_step hre hread

theorem inv_initial (img : Image) (sampCount : BitVec 3) : Inv img 0 (initial img sampCount) where
  bus    := ⟨rfl, rfl, fresh_steady _ _ _ (show 3 ≤ several by decide)⟩
  sound  := by
    have hall : ∀ x : BitVec 3, decide (x = 0) = true ↔ (-x).toNat = 0 := by decide
    refine ⟨hall sampCount, rfl, ?_⟩
    rintro (hoff | hoff) <;> cases hoff
  addr   := rfl
  supply := .inl ⟨Nat.zero_le _, rfl, rfl, rfl, rfl, rfl, (@take_succ_content img 0 (Nat.zero_le _)).symm⟩
  mode   := .inl ⟨.inl rfl, off_of_dataDrv rfl, nofun, .inl ⟨rfl, rfl, rfl⟩⟩
  full   := nofun
  rounds := nofun
  reads  := by
    intro a ha
    rw [List.mem_singleton.1 ha]
    exact Nat.zero_le _

theorem inv_run {sampCount : BitVec 3} {is : List Input}
    (h : AllSteps (Fx2.step img) (fun s i => Apart s ∧ Yielded s i) (initial img sampCount) is) :
    AllStates (Fx2.step img) (fun s => ∃ n, Inv img n s) (initial img sampCount) is := by
  have hstep : ∀ s i, (∃ n, Inv img n s) → Apart s ∧ Yielded s i → True ∧ ∃ n, Inv img n (Fx2.step img s i) := by
    rintro s i ⟨n, hinv⟩ ⟨hapart, hyielded⟩
    exact ⟨trivial, hinv.step hapart hyielded⟩
  exact (AllSteps.inv (P := fun _ _ => True) hstep ⟨0, inv_initial img sampCount⟩ h).2

/-- What the slave shifts out is the byte put up last. -/
theorem Inv.presented (h : Inv img n s) (hread : s.core.fsm = .doRead) :
    s.core.status = hackStatusReady ∧ s.supplied.getLast? = some s.core.shiftReg := by
  have hf := h.full hread
  refine ⟨hf.status, ?_⟩
  rw [hf.supplied, hf.shiftReg, take_succ_content hf.le]
  exact List.getLast?_concat

/-- The bytes put up are those taken, and the one in the shift register. -/
theorem Inv.supplied (h : Inv img n s) :
    ∃ m, s.supplied = img.content.take m ∧ n ≤ m ∧ (s.core.fsm = .doRead → n + 1 ≤ m) := by
  rcases h.supply with hf | he | hr
  · exact ⟨n + 1, hf.supplied, Nat.le_succ n, fun _ => le_rfl⟩
  · refine ⟨n, he.supplied, le_rfl, fun hread => ?_⟩
    have := (h.full hread).status.symm.trans he.status
    cases this
  · refine ⟨n, hr.supplied, le_rfl, fun hread => ?_⟩
    have := (h.full hread).status.symm.trans hr.status
    cases this

theorem Inv.served (h : Inv img n s) : Served img s := by
  obtain ⟨m, hm, hle, hread⟩ := h.supplied
  refine ⟨?_, hm ▸ List.take_prefix _ _, h.presented, h.rounds, h.reads⟩
  rw [hm]
  rcases h.mode with hwait | hserve
  · rcases hwait.round with ⟨-, -, hnone⟩ | ⟨-, hreceived, -⟩
    · rw [hnone]
      exact List.nil_prefix
    · rw [hreceived]
      exact List.take_prefix_take_left hle
  · obtain ⟨k, hreceived, rfl | ⟨rfl, hfsm⟩⟩ := hserve.phase.received
    · rw [hreceived]
      exact List.take_prefix_take_left hle
    · rw [hreceived]
      exact List.take_prefix_take_left (hread hfsm)

/-! ## The next byte comes -/

/-- After so many accesses of the firmware the next byte is up. -/
def Cpu.left (cpu : Cpu) : ℕ :=
  match cpu.pc with
  | .service    => 4
  | .initAddr   => 3
  | .loadShift  => 2
  | .initShift  => 2
  | .loadStatus => 1
  | .initStatus => 1

theorem Cpu.left_bounds (cpu : Cpu) : 1 ≤ cpu.left ∧ cpu.left ≤ 4 := by
  unfold Cpu.left
  split <;> omega

/-- An access that does not put up a byte is one towards it. -/
theorem Cpu.left_access {cpu cpu' : Cpu} {w : Option Write} (haccess : cpu.access img statusEmpty = (w, cpu'))
    (hup : w ≠ some (.status hackStatusReady)) : cpu'.left + 1 ≤ cpu.left := by
  unfold Cpu.access at haccess
  cases hpc : cpu.pc with
  | service =>
    simp only [hpc, show statusEmpty = hackShiftRegEmpty from rfl, if_true] at haccess
    by_cases hlt : cpu.nextReadAddr < img.endAddr
    · rw [if_pos hlt] at haccess
      cases haccess
      simp [Cpu.left, hpc]
    · rw [if_neg hlt] at haccess
      cases haccess
      simp [Cpu.left, hpc]
  | loadShift | initAddr | initShift =>
    rw [hpc] at haccess
    cases haccess
    simp [Cpu.left, hpc]
  | loadStatus | initStatus =>
    rw [hpc] at haccess
    cases haccess
    exact absurd rfl hup

/-- As long as the register stays empty, every access of the firmware is one towards the next byte. -/
theorem left_step (hpassive : Passive s.core) (hempty : s.core.status = statusEmpty)
    (hnext : (step img s i).core.status = statusEmpty) : (step img s i).cpu.left + i.access.toNat ≤ s.cpu.left := by
  cases hi : i.access with
  | false =>
    rw [(hpassive.registers (access_none img s hi)).2.2.2]
    exact le_rfl
  | true  =>
    cases haccess : s.access img i with
    | mk w cpu =>
      obtain ⟨hstatus, -, -, hcpu⟩ := hpassive.registers haccess
      rw [access_due img s hi, hempty] at haccess
      rw [hcpu]
      refine Cpu.left_access haccess fun hup => ?_
      rw [hup, hnext] at hstatus
      cases hstatus

theorem Inv.passive (h : Inv img n s) (hempty : s.core.status = statusEmpty) : Passive s.core := by
  refine ⟨fun hread => ?_, h.reads_core.write⟩
  have := (h.full hread).status.symm.trans hempty
  cases this

theorem Inv.ready_or_empty (h : Inv img n s) : s.core.status = hackStatusReady ∨ s.core.status = statusEmpty := by
  rcases h.supply with hf | he | hr
  · exact .inl hf.status
  · exact .inr he.status
  · exact .inr hr.status

/-- A byte comes into the register after as many accesses of the firmware as are left, if not before. -/
theorem Inv.fills (more : List Input) (h : Inv img n s)
    (hok : AllSteps (Fx2.step img) (fun s i => Apart s ∧ Yielded s i) s more)
    (hleft : s.cpu.left ≤ more.countP (·.access)) :
    ∃ pre, pre <+: more ∧ (pre.foldl (Fx2.step img) s).core.status = hackStatusReady := by
  rcases h.ready_or_empty with hready | hempty
  · exact ⟨[], List.nil_prefix, hready⟩
  · induction more generalizing n s with
    | nil =>
      have := s.cpu.left_bounds.1
      rw [List.countP_nil] at hleft
      omega
    | cons i more ih =>
      obtain ⟨⟨hapart, hyielded⟩, hok⟩ := hok
      obtain ⟨n', h'⟩ := h.step hapart hyielded
      rcases h'.ready_or_empty with hready | hempty'
      · exact ⟨[i], ⟨more, rfl⟩, hready⟩
      · have hfewer := left_step (h.passive hempty) hempty hempty'
        have hcount : (Fx2.step img s i).cpu.left ≤ more.countP (·.access) := by
          rw [List.countP_cons] at hleft
          cases hi : i.access with
          | false =>
            rw [hi] at hleft hfewer
            exact hfewer.trans hleft
          | true  =>
            rw [hi] at hleft hfewer
            exact Nat.le_of_succ_le_succ (hfewer.trans hleft)
        obtain ⟨pre, hpre, hready⟩ := ih h' hok hcount hempty'
        exact ⟨i :: pre, List.cons_prefix_cons.2 ⟨rfl, hpre⟩, hready⟩

/-- Along such a run the firmware never leaves the slave without a byte: four of its accesses are enough for the next. -/
theorem apart_fills (img : Image) (sampCount : BitVec 3) (is more : List Input)
    (h : AllSteps (Fx2.step img) (fun s i => Apart s ∧ Yielded s i) (initial img sampCount) (is ++ more))
    (hfour : 4 ≤ more.countP (·.access)) :
    ∃ pre, pre <+: more ∧ ((is ++ pre).foldl (Fx2.step img) (initial img sampCount)).core.status = hackStatusReady := by
  obtain ⟨his, hmore⟩ := (Runs.allSteps_append _ is more _).1 h
  obtain ⟨n, hinv⟩ := (Runs.allStates_iff_prefix _ is _).1 (inv_run his) is (List.prefix_refl is)
  obtain ⟨pre, hpre, hready⟩ := hinv.fills more hmore ((Cpu.left_bounds _).2.trans hfour)
  exact ⟨pre, hpre, by rw [List.foldl_append]; exact hready⟩

/-- In every run in which SCL is never seen to rise while SDA is seen to fall, and in which the slave has let go of SDA
where the master ends a transaction, the FX2 receives its firmware. -/
theorem apart_served (img : Image) (sampCount : BitVec 3) (is : List Input)
    (h : AllSteps (Fx2.step img) (fun s i => Apart s ∧ Yielded s i) (initial img sampCount) is) :
    AllStates (Fx2.step img) (Served img) (initial img sampCount) is := by
  refine (inv_run h).mono ?_
  rintro s ⟨n, hs⟩
  exact hs.served

/-- The first bit of the second byte is 0. -/
def lowSecond (endAddr : Nat) : Image where
  bytes a := if a = 0 then 0xc2 else 0x04
  endAddr := endAddr

/-- Nobody but the firmware waits, and the master reads on. -/
def prompt (access : Bool) : Input where
  access := access
  rise   := true
  move   := true
  choice := ⟨true, true, false⟩

/-- The firmware answers at once, and begins again after the only byte. -/
theorem apart_served_prompt :
    AllStates (Fx2.step (lowSecond 0)) (Served (lowSecond 0)) (initial (lowSecond 0) 0)
        (List.replicate 940 (prompt true)) ∧
      ¬ AllStates (Fx2.step (lowSecond 0)) (fun s => s.rounds ≠ [[0xc2]]) (initial (lowSecond 0) 0)
        (List.replicate 940 (prompt true)) :=
  ⟨apart_served (lowSecond 0) 0 _ (by decide +kernel), by decide +kernel⟩

/-- The firmware answers when the master waits for SCL: the first bit of the second byte is taken for a start condition,
and the master receives the released line. -/
theorem not_served_lateAnswer : ¬ ∀ (img : Image) (sampCount : BitVec 3) (is : List Input),
    AllStates (Fx2.step img) (Served img) (initial img sampCount) is := by
  intro h
  have hserved := h (lowSecond 1) 0 (List.replicate 1001 (prompt false) ++ List.replicate 396 (prompt true))
  have hreceived := hserved.mono fun s hs => hs.received
  revert hreceived
  decide +kernel

end Fx2
end Hdmi2Usb
