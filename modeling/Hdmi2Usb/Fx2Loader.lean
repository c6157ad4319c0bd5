import Hdmi2Usb.I2cShiftReg
/-!
# Fx2Loader — the FX2 loads its firmware over I2C (`fx2.c`, `gateware/opsis_i2c.py`)

The firmware feeds the shift register of `I2CShiftReg` byte by byte, and the FX2 reads them as the master of the bus.
The two meet in the register's status and in the clock that the slave stretches.  A step is a cycle of the system clock.
-/
namespace Hdmi2Usb
namespace Fx2

open I2cBus (Level)
open I2cShiftReg

/-! ## The firmware -/

def hackSlaveAddress : BitVec 7 := 0x40
def hackShiftRegEmpty : BitVec 2 := 2
def hackStatusReady : BitVec 2 := 0

/-- The images of `fx2_fw_active`. -/
structure Image where
  bytes   : Nat → Byte
  endAddr : Nat

variable (img : Image)

def fwGetValue (addr : Nat) : Byte := if addr ≤ img.endAddr then img.bytes addr else 0xff

/-- The next access to a register in `fx2_service`, and in the `fx2_load_init` that it may end with. -/
inductive Pc
  | service
  | loadShift
  | loadStatus
  | initAddr
  | initShift
  | initStatus
deriving DecidableEq, Repr

structure Cpu where
  pc           : Pc
  nextReadAddr : Nat
  /-- The addresses `fx2_fw_get_value` was called with. -/
  reads        : List Nat
deriving Repr

/-- `fx2_service` up to and with its next access, and what that writes. -/
def Cpu.access (status : BitVec 2) (cpu : Cpu) : Option Write × Cpu :=
  match cpu.pc with
  | .service =>
    if status = hackShiftRegEmpty then
      if cpu.nextReadAddr < img.endAddr then (none, { cpu with pc := .loadShift })
      else (none, { cpu with pc := .initAddr, nextReadAddr := 0 })
    else (none, cpu)
  | .loadShift =>
    (some (.shiftReg (fwGetValue img (cpu.nextReadAddr + 1))),
      { cpu with pc := .loadStatus, reads := (cpu.nextReadAddr + 1) :: cpu.reads })
  | .loadStatus =>
    (some (.status hackStatusReady), { cpu with pc := .service, nextReadAddr := cpu.nextReadAddr + 1 })
  | .initAddr => (some (.slaveAddr hackSlaveAddress), { cpu with pc := .initShift })
  | .initShift => (some (.shiftReg (fwGetValue img 0)), { cpu with pc := .initStatus, reads := 0 :: cpu.reads })
  | .initStatus => (some (.status hackStatusReady), { cpu with pc := .service })

/-! ## The master -/

/-- A period of SCL: of a bit, or of the condition that ends a transaction. -/
inductive Slot
  | address (i : Nat)
  | addressAck
  | data (i : Nat)
  | dataAck (ack : Bool)
  | stop
  | restart
deriving DecidableEq, Repr

/-- Where the master is: SCL low with SDA still as before, SCL low with SDA set, or SCL released. -/
inductive Stage
  | idle
  | start
  | low (slot : Slot)
  | set (slot : Slot)
  | high (slot : Slot)
deriving DecidableEq, Repr

/-- The address with the bit for reading. -/
def readAddress : Byte := hackSlaveAddress.concat true

/-- What the master puts on SDA; `true` is released. -/
def Slot.sda : Slot → Bool
  | .address i   => readAddress.getMsbD i
  | .addressAck  => true
  | .data _      => true
  | .dataAck ack => !ack
  | .stop        => false
  | .restart     => true

structure Master where
  stage : Stage
  sda   : Bool
  /-- The cycles for which the lines have been held. -/
  held  : Nat
  byte  : Byte
deriving Repr

def Stage.scl : Stage → Bool
  | .low _ | .set _ => false
  | _               => true

/-- Two sample periods. -/
def several : Nat := 16

def ended (again : Bool) : Stage := .low (if again then .restart else .stop)

/-- What the master decides: to acknowledge a byte, to go on after an acknowledgement, and to start again where it ends
a transaction. -/
structure Choice where
  ack   : Bool
  more  : Bool
  again : Bool

/-- The stage after the high phase of a slot in which SDA was sampled. -/
def Slot.next (choice : Choice) (sda : Bool) : Slot → Stage
  | .address i   => .low (if i < 7 then .address (i + 1) else .addressAck)
  | .addressAck  => if !sda ∧ choice.more then .low (.data 0) else ended choice.again
  | .data i      => .low (if i < 7 then .data (i + 1) else .dataAck choice.ack)
  | .dataAck ack => if ack ∧ choice.more then .low (.data 0) else ended choice.again
  | .stop        => .idle
  | .restart     => .start

def Stage.next (choice : Choice) (sda : Bool) : Stage → Stage
  | .idle      => .start
  | .start     => .low (.address 0)
  | .low slot  => .set slot
  | .set slot  => .high slot
  | .high slot => slot.next choice sda

/-- SDA in the stage, after the level `sda`. -/
def Stage.sda (sda : Bool) : Stage → Bool
  | .idle            => true
  | .start           => false
  | .set slot        => slot.sda
  | .low _ | .high _ => sda

/-- The master may move: it has held the lines for long enough, and SCL is as it has left it. -/
def Master.ready (scl : Bool) (m : Master) : Bool := several ≤ m.held ∧ scl = m.stage.scl

def Master.shifted (sda : Bool) (m : Master) : Byte := (m.byte.setWidth 7).concat sda

/-- The byte that is complete with this move. -/
def Master.receives (sda : Bool) (m : Master) : Option Byte :=
  if m.stage = .high (.data 7) then some (m.shifted sda) else none

def Master.move (choice : Choice) (lines : Level) (m : Master) : Master where
  stage := m.stage.next choice lines.sda
  sda   := (m.stage.next choice lines.sda).sda m.sda
  held  := 0
  byte  := match m.stage with
    | .high (.data _) => m.shifted lines.sda
    | _               => m.byte

def Master.wait (lines : Level) (m : Master) : Master :=
  { m with held := if lines.scl = m.stage.scl then m.held + 1 else 0 }

/-! ## The system -/

structure System where
  core     : Core
  cpu      : Cpu
  master   : Master
  scl      : Bool
  /-- The cycles for which nobody has pulled SCL low. -/
  free     : Nat
  /-- The bytes received since the first start condition after the last initialisation. -/
  received : List Byte
  /-- The bytes the firmware has put up since that initialisation. -/
  supplied : List Byte
  /-- No start condition since the last initialisation. -/
  stale    : Bool
  /-- What was received in the rounds before, the newest first. -/
  rounds   : List (List Byte)

/-- SCL stays low for two cycles at least after its release. -/
def few : Nat := 2

def System.lines (s : System) : Level := ⟨s.scl, s.master.sda && !s.core.sdaDrvReg⟩

structure Input where
  /-- The firmware's next access is in this cycle. -/
  access : Bool
  /-- SCL rises, if it may. -/
  rise   : Bool
  /-- The master moves, if it may. -/
  move   : Bool
  choice : Choice

/-- What the firmware writes in the cycle, and what it is after it. -/
def System.access (i : Input) (s : System) : Option Write × Cpu :=
  if i.access then s.cpu.access img s.core.status else (none, s.cpu)

def System.nextCore (i : Input) (s : System) : Core := s.core.cycle s.lines (s.access img i).1

def System.moves (i : Input) (s : System) : Bool := i.move && s.master.ready s.scl

def System.nextMaster (i : Input) (s : System) : Master :=
  if s.moves i then s.master.move i.choice s.lines else s.master.wait s.lines

def System.nextFree (i : Input) (s : System) : Nat :=
  if (s.nextMaster i).stage.scl && !(s.nextCore img i).sclDrvReg then s.free + 1 else 0

/-- What is received with the byte of this cycle, if there is one and the round has begun. -/
def System.nextReceived (i : Input) (s : System) : List Byte :=
  match if s.moves i ∧ !s.stale then s.master.receives s.lines.sda else none with
  | some byte => s.received ++ [byte]
  | none      => s.received

/-- What is put up with the byte of this cycle: the firmware reports the shift register ready. -/
def System.nextSupplied (i : Input) (s : System) : List Byte :=
  if i.access ∧ (s.cpu.pc = .loadStatus ∨ s.cpu.pc = .initStatus) then s.supplied ++ [s.core.shiftReg] else s.supplied

def step (s : System) (i : Input) : System where
  core     := s.nextCore img i
  cpu      := (s.access img i).2
  master   := s.nextMaster i
  scl      := s.nextFree img i ≠ 0 ∧ (s.scl ∨ i.rise ∧ few < s.nextFree img i)
  free     := s.nextFree img i
  received := if s.core.slaveAddrRe then [] else s.nextReceived i
  supplied := if s.core.slaveAddrRe then [] else s.nextSupplied i
  stale    := s.core.slaveAddrRe || s.stale && !s.core.start
  rounds   := if s.core.slaveAddrRe then s.nextReceived i :: s.rounds else s.rounds

section Step

variable (s : System) (i : Input)

theorem step_core : (step img s i).core = s.nextCore img i := rfl

theorem step_cpu : (step img s i).cpu = (s.access img i).2 := rfl

theorem step_master : (step img s i).master = s.nextMaster i := rfl

theorem step_free : (step img s i).free = s.nextFree img i := rfl

theorem step_scl : (step img s i).scl =
    decide (s.nextFree img i ≠ 0 ∧ (s.scl ∨ i.rise ∧ few < s.nextFree img i)) := rfl

theorem step_received : (step img s i).received = if s.core.slaveAddrRe then [] else s.nextReceived i := rfl

theorem step_supplied : (step img s i).supplied = if s.core.slaveAddrRe then [] else s.nextSupplied i := rfl

theorem step_stale : (step img s i).stale = (s.core.slaveAddrRe || s.stale && !s.core.start) := rfl

theorem step_rounds :
    (step img s i).rounds = if s.core.slaveAddrRe then s.nextReceived i :: s.rounds else s.rounds := rfl

theorem step_fsm : (step img s i).core.fsm =
    if s.core.slaveAddrRe then .waitStart else if s.core.start then .rcvAddress else s.core.act := rfl

end Step

/-- After `fx2_load_init`, with the bus idle. -/
def initial (sampCount : BitVec 3) : System where
  core := {
    fsm := .waitStart, scl := ⟨true, true, true, true⟩, sda := ⟨true, true, true, true⟩
    sampCount, sampCarry := sampCount = 0, counter := 0, din := 0, isRead := false, dataDrv := false, dataBit := false
    sclDrvReg := false, sdaDrvReg := false
    shiftReg := fwGetValue img 0, status := hackStatusReady, slaveAddr := hackSlaveAddress, slaveAddrRe := false }
  cpu      := { pc := .service, nextReadAddr := 0, reads := [0] }
  master   := { stage := .idle, sda := true, held := several, byte := 0 }
  scl      := true
  free     := several
  received := []
  supplied := [fwGetValue img 0]
  stale    := true
  rounds   := []

/-- The bytes of the image. -/
def Image.content : List Byte := (List.range (img.endAddr + 1)).map img.bytes

/-- What was received is the image from its first byte on and was put up before, what the slave shifts out is the byte
put up last, every round before was all of the image, and the firmware has read none but its bytes. -/
structure Served (s : System) : Prop where
  received  : s.received <+: s.supplied
  supplied  : s.supplied <+: img.content
  presented : s.core.fsm = .doRead → s.core.status = hackStatusReady ∧ s.supplied.getLast? = some s.core.shiftReg
  rounds    : ∀ r ∈ s.rounds, r = img.content
  reads     : ∀ a ∈ s.cpu.reads, a ≤ img.endAddr

/-- The sampled SCL does not rise while the sampled SDA falls. -/
def Apart (s : System) : Prop := ¬ (s.core.start ∧ s.core.scl.rising)

/-- Where the master ends a transaction, the slave has let go of SDA. -/
def Yielded (s : System) (i : Input) : Prop :=
  s.moves i ∧ s.master.stage ∈ [.high .stop, .high .restart] → s.core.sdaDrvReg = false

instance (s : System) : Decidable (Apart s) := inferInstanceAs (Decidable (¬ (_ ∧ _)))

instance (s : System) (i : Input) : Decidable (Yielded s i) := inferInstanceAs (Decidable (_ ∧ _ → _))

end Fx2
end Hdmi2Usb
