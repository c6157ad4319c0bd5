import Hdmi2Usb.I2cBus
import Hdmi2Usb.Memory
import Hdmi2Usb.SampledWire
/-!
# I2cShiftReg — the I2C slave that loads the FX2 (`gateware/opsis_i2c.py`)

`I2CShiftReg` samples the bus every eighth cycle.  It answers to its address, stretches the clock until the firmware has
put a byte in the shift register, and shifts it out; a byte that the master writes it shifts in.
-/
namespace Hdmi2Usb
namespace I2cShiftReg

open I2cBus (Level)
open SampledWire

def statusFull : BitVec 2 := 1
def statusEmpty : BitVec 2 := 2

inductive Fsm
  | waitStart
  | rcvAddress
  | ackAddress0
  | ackAddress1
  | ackAddress2
  | pause
  | doRead
  | ackRead0
  | ackRead1
  | doWrite
  | ackWrite0
  | ackWrite1
  | ackWrite2
deriving DecidableEq, Repr

structure Core where
  fsm         : Fsm
  scl         : Wire
  sda         : Wire
  sampCount   : BitVec 3
  sampCarry   : Bool
  counter     : Nat
  din         : Byte
  isRead      : Bool
  dataDrv     : Bool
  dataBit     : Bool
  sclDrvReg   : Bool
  sdaDrvReg   : Bool
  shiftReg    : Byte
  status      : BitVec 2
  slaveAddr   : BitVec 7
  /-- `slave_addr.re`: it was written in the cycle before. -/
  slaveAddrRe : Bool
deriving DecidableEq, Repr

inductive Write
  | shiftReg (v : Byte)
  | status (v : BitVec 2)
  | slaveAddr (v : BitVec 7)

/-! ## A cycle -/

def Core.start (c : Core) : Bool := c.scl.i && c.sda.falling

def Core.zeroDrv (c : Core) : Bool := c.fsm ∈ [.ackAddress1, .ackAddress2, .ackWrite1, .ackWrite2]

/-- `pause_drv`, which is `scl_drv`. -/
def Core.pauseDrv (c : Core) : Bool := c.fsm = .pause

def Core.sdaDrv (c : Core) : Bool := if c.zeroDrv then true else c.dataDrv && !c.dataBit

def Core.counterReset (c : Core) : Bool :=
  c.fsm ∈ [.ackAddress0, .ackAddress1, .ackAddress2, .pause, .ackRead0, .ackRead1, .ackWrite0, .ackWrite1, .ackWrite2]

def Core.dataDrvEn (c : Core) : Bool := c.fsm = .doRead ∧ !c.scl.i ∧ c.counter ≠ 8

def Core.dataDrvStop (c : Core) : Bool :=
  c.fsm ∈ [.waitStart, .rcvAddress] ∨ c.fsm = .doRead ∧ !c.scl.i ∧ c.counter = 8

/-- `din[1:] == slave_addr` at the end of an address. -/
def Core.addressed (c : Core) : Bool := c.fsm = .rcvAddress ∧ c.counter = 8 ∧ c.din.extractLsb' 1 7 = c.slaveAddr

/-- What the state does by itself. -/
def Core.act (c : Core) : Fsm :=
  match c.fsm with
  | .waitStart   => .waitStart
  | .rcvAddress  => if c.counter = 8 then (if c.addressed then .ackAddress0 else .waitStart) else .rcvAddress
  | .ackAddress0 => if !c.scl.i then .ackAddress1 else .ackAddress0
  | .ackAddress1 => if c.scl.i then .ackAddress2 else .ackAddress1
  | .ackAddress2 => if !c.scl.i then .pause else .ackAddress2
  | .pause       =>
    if !c.status.getLsbD 1 ∧ c.isRead then .doRead else if !c.status.getLsbD 0 ∧ !c.isRead then .doWrite else .pause
  | .doRead      => if !c.scl.i ∧ c.counter = 8 then .ackRead0 else .doRead
  | .ackRead0    => if c.scl.rising then (if c.sda.i then .waitStart else .ackRead1) else .ackRead0
  | .ackRead1    => if c.scl.falling then .pause else .ackRead1
  | .doWrite     => if c.counter = 8 then .ackWrite0 else .doWrite
  | .ackWrite0   => if !c.scl.i then .ackWrite1 else .ackWrite0
  | .ackWrite1   => if c.scl.i then .ackWrite2 else .ackWrite1
  | .ackWrite2   => if !c.scl.i then .pause else .ackWrite2

/-- What the gateware writes to `status`; the firmware's write goes before it. -/
def Core.statusDev (c : Core) : BitVec 2 :=
  if c.fsm = .doRead ∧ !c.scl.i ∧ c.counter = 8 then statusEmpty
  else if c.fsm = .ackWrite2 ∧ !c.scl.i then statusFull
  else c.status

def Core.shiftDev (c : Core) : Byte := if c.fsm = .doWrite ∧ c.counter = 8 then c.din else c.shiftReg

/-- A cycle of the system's clock with these levels at the pads. -/
def Core.cycle (pads : Level) (w : Option Write) (c : Core) : Core where
  fsm := if c.slaveAddrRe then .waitStart else if c.start then .rcvAddress else c.act
  scl := c.scl.step c.sampCarry pads.scl
  sda := c.sda.step c.sampCarry pads.sda
  sampCount := c.sampCount + 1
  sampCarry := c.sampCount = 7
  counter :=
    if c.scl.rising then (if c.counter = 8 then 0 else c.counter + 1)
    else if c.start || c.counterReset then 0 else c.counter
  din := if c.scl.rising ∧ c.counter ≠ 8 then (c.din.setWidth 7).concat c.sda.i else c.din
  isRead := if c.addressed then c.din.getLsbD 0 else c.isRead
  dataDrv := if c.dataDrvEn then true else if c.dataDrvStop then false else c.dataDrv
  dataBit := if c.dataDrvEn then c.shiftReg.getMsbD c.counter else c.dataBit
  sclDrvReg := c.pauseDrv
  sdaDrvReg := c.sdaDrv
  shiftReg := match w with
    | some (.shiftReg v) => v
    | _                  => c.shiftDev
  status := match w with
    | some (.status v) => v
    | _                => c.statusDev
  slaveAddr := match w with
    | some (.slaveAddr v) => v
    | _                   => c.slaveAddr
  slaveAddrRe := match w with
    | some (.slaveAddr _) => true
    | _                   => false

end I2cShiftReg
end Hdmi2Usb
