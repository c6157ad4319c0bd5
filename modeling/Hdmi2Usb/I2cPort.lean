import Mathlib.Data.BitVec
/-!
# I2cPort — the I2C routines over any pins, and the drivers that read with them

`I2C` of `i2c.h` is three functions on the pins and a flag, and the routines of `i2c.c` know no more of a port than that.
Here they are over any such port.  The drivers of `hdmi_out0.c` (and `hdmi_out1.c`, which is the same), `opsis_eeprom.c`
and `tofe_eeprom.c` follow.
-/
namespace Hdmi2Usb
namespace I2cPort

def i2cScl : BitVec 8 := 0x01
def i2cSdaoe : BitVec 8 := 0x02
def i2cSdaout : BitVec 8 := 0x04

def i2cSdain : BitVec 8 := 0x01

structure I2C (σ : Type) where
  wRead      : σ → BitVec 8
  wWrite     : BitVec 8 → σ → σ
  rRead      : σ → BitVec 8
  started    : σ → Bool
  setStarted : Bool → σ → σ

variable {σ : Type} (i2c : I2C σ)

/-! ## The routines -/

/-- The loop of `i2c_init`: the polls left when SDA is high. -/
def initLoop (s : σ) : Nat → Nat
  | 0           => 0
  | timeout + 1 => if i2c.rRead s &&& i2cSdain = 0 then initLoop s timeout else timeout + 1

def i2cInit (s : σ) : Nat × σ :=
  let s := i2c.wWrite i2cScl (i2c.setStarted false s)
  (initLoop i2c s 1000, s)

def i2cReadBit (s : σ) : BitVec 32 × σ :=
  let s := i2c.wWrite 0 s
  let s := i2c.wWrite i2cScl s
  let bit := i2c.rRead s &&& i2cSdain
  (bit.setWidth 32, i2c.wWrite 0 s)

def i2cWriteBit (bit : BitVec 32) (s : σ) : σ :=
  let s := if bit ≠ 0 then i2c.wWrite (i2cSdaoe ||| i2cSdaout) s else i2c.wWrite i2cSdaoe s
  let s := i2c.wWrite (i2c.wRead s ||| i2cScl) s
  i2c.wWrite (i2c.wRead s &&& ~~~i2cScl) s

def i2cStartCond (s : σ) : σ :=
  let s :=
    if i2c.started s then
      let s := i2c.wWrite (i2cSdaoe ||| i2cSdaout) s
      i2c.wWrite (i2c.wRead s ||| i2cScl) s
    else s
  let s := i2c.wWrite (i2cSdaoe ||| i2cScl) s
  i2c.setStarted true (i2c.wWrite i2cSdaoe s)

def i2cStopCond (s : σ) : σ :=
  let s := i2c.wWrite i2cSdaoe s
  let s := i2c.wWrite (i2cSdaoe ||| i2cScl) s
  i2c.setStarted false (i2c.wWrite i2cScl s)

def writeLoop : Nat → BitVec 8 → σ → σ
  | 0, _, s        => s
  | n + 1, byte, s => writeLoop n (byte <<< 1) (i2cWriteBit i2c ((byte &&& 0x80).setWidth 32) s)

def i2cWrite (byte : BitVec 8) (s : σ) : BitVec 32 × σ :=
  let (bit, s) := i2cReadBit i2c (writeLoop i2c 8 byte s)
  (if bit = 0 then 1 else 0, s)

def readLoop : Nat → BitVec 8 → σ → BitVec 8 × σ
  | 0, byte, s     => (byte, s)
  | n + 1, byte, s =>
    let (bit, s) := i2cReadBit i2c s
    readLoop n (byte <<< 1 ||| bit.setWidth 8) s

def i2cRead (ack : BitVec 32) (s : σ) : BitVec 8 × σ :=
  let (byte, s) := readLoop i2c 8 0 s
  (byte, i2cWriteBit i2c (if ack = 0 then 1 else 0) s)

theorem i2cStartCond_first {s : σ} (h : i2c.started s = false) : i2cStartCond i2c s =
    i2c.setStarted true (i2c.wWrite i2cSdaoe (i2c.wWrite (i2cSdaoe ||| i2cScl) s)) := by
  simp [i2cStartCond, h]

theorem i2cStartCond_again {s t u : σ} (h : i2c.started s = true) (ht : i2c.wWrite (i2cSdaoe ||| i2cSdaout) s = t)
    (hu : i2c.wWrite (i2c.wRead t ||| i2cScl) t = u) : i2cStartCond i2c s =
      i2c.setStarted true (i2c.wWrite i2cSdaoe (i2c.wWrite (i2cSdaoe ||| i2cScl) u)) := by
  simp [i2cStartCond, h, ht, hu]

theorem i2cStopCond_eq (s : σ) : i2cStopCond i2c s =
    i2c.setStarted false (i2c.wWrite i2cScl (i2c.wWrite (i2cSdaoe ||| i2cScl) (i2c.wWrite i2cSdaoe s))) := rfl

theorem i2cRead_eq (ack : BitVec 32) (s : σ) : i2cRead i2c ack s =
    ((readLoop i2c (7 + 1) 0 s).1, i2cWriteBit i2c (if ack = 0 then 1 else 0) (readLoop i2c (7 + 1) 0 s).2) := rfl

theorem i2cWrite_eq (byte : BitVec 8) (s : σ) : i2cWrite i2c byte s =
    (if (i2cReadBit i2c (writeLoop i2c (7 + 1) byte s)).1 = 0 then 1 else 0,
      (i2cReadBit i2c (writeLoop i2c (7 + 1) byte s)).2) := rfl

/-! ## The drivers -/

/-- The pass of `hdmi_out0_print_edid` over block 0, with `n` bytes to go: the number of extension blocks, or the stop
at a checksum that is not 0. -/
def block0Loop : Nat → BitVec 8 → BitVec 8 → σ → Except σ (BitVec 8 × σ)
  | 0, _, extensionNumber, s       => .ok (extensionNumber, s)
  | n + 1, sum, extensionNumber, s =>
    let eepromAddr := 127 - n
    let (b, s) := i2cRead i2c (if eepromAddr = 127 ∧ extensionNumber = 0 then 0 else 1) s
    let sum := sum + b
    let extensionNumber := if eepromAddr = 126 then b else extensionNumber
    if eepromAddr = 127 ∧ sum ≠ 0 then .error (i2cStopCond i2c s) else block0Loop n sum extensionNumber s

/-- Extension block `e`, with `n` bytes to go. -/
def extensionLoop (e extensionNumber : Nat) : Nat → BitVec 8 → σ → Except σ σ
  | 0, _, s       => .ok s
  | n + 1, sum, s =>
    let eepromAddr := 127 - n
    let (b, s) := i2cRead i2c (if eepromAddr = 127 ∧ e = extensionNumber - 1 then 0 else 1) s
    let sum := sum + b
    if eepromAddr = 127 ∧ sum ≠ 0 then .error (i2cStopCond i2c s) else extensionLoop e extensionNumber n sum s

/-- The extension blocks from `e` on, `n` of them. -/
def extensionsLoop (extensionNumber : Nat) : Nat → Nat → σ → Except σ σ
  | 0, _, s     => .ok s
  | n + 1, e, s => do
    let s ← extensionLoop i2c e extensionNumber 128 0 s
    extensionsLoop extensionNumber n (e + 1) s

/-- Where a read begins: the slave is written the address, and then called to be read. -/
def address (addr : BitVec 8) (s : σ) : σ :=
  let s := i2cStartCond i2c s
  let s := (i2cWrite i2c 0xa0 s).2
  let s := (i2cWrite i2c addr s).2
  let s := i2cStartCond i2c s
  (i2cWrite i2c 0xa1 s).2

section Extensions

variable {i2c} {extensionNumber n e : Nat} {s t : σ}

theorem extensionsLoop_error (h : extensionLoop i2c e extensionNumber 128 0 s = .error t) :
    extensionsLoop i2c extensionNumber (n + 1) e s = .error t := by
  rw [extensionsLoop, h]
  rfl

theorem extensionsLoop_ok (h : extensionLoop i2c e extensionNumber 128 0 s = .ok t) :
    extensionsLoop i2c extensionNumber (n + 1) e s = extensionsLoop i2c extensionNumber n (e + 1) t := by
  rw [extensionsLoop, h]
  rfl

end Extensions

/-- The way out of a function, early or at its end. -/
def returned : Except σ σ → σ
  | .error s => s
  | .ok s    => s

def hdmiOut0PrintEdid (s : σ) : σ := returned do
  let (extensionNumber, s) ← block0Loop i2c 128 0 0 (address i2c 0x00 s)
  let s ← extensionsLoop i2c extensionNumber.toNat extensionNumber.toNat 0 s
  return i2cStopCond i2c s

section PrintEdid

variable {i2c} {extensionNumber : BitVec 8} {s t u : σ}

theorem hdmiOut0PrintEdid_block0 (h : block0Loop i2c 128 0 0 (address i2c 0x00 s) = .error t) :
    hdmiOut0PrintEdid i2c s = t := by
  rw [hdmiOut0PrintEdid, h]
  rfl

theorem hdmiOut0PrintEdid_extension (h : block0Loop i2c 128 0 0 (address i2c 0x00 s) = .ok (extensionNumber, t))
    (hloop : extensionsLoop i2c extensionNumber.toNat extensionNumber.toNat 0 t = .error u) :
    hdmiOut0PrintEdid i2c s = u := by
  rw [hdmiOut0PrintEdid, h]
  show returned (extensionsLoop i2c extensionNumber.toNat extensionNumber.toNat 0 t >>= _) = u
  rw [hloop]
  rfl

theorem hdmiOut0PrintEdid_end (h : block0Loop i2c 128 0 0 (address i2c 0x00 s) = .ok (extensionNumber, t))
    (hloop : extensionsLoop i2c extensionNumber.toNat extensionNumber.toNat 0 t = .ok u) :
    hdmiOut0PrintEdid i2c s = i2cStopCond i2c u := by
  rw [hdmiOut0PrintEdid, h]
  show returned (extensionsLoop i2c extensionNumber.toNat extensionNumber.toNat 0 t >>= _) = _
  rw [hloop]
  rfl

end PrintEdid

/-- `OPSIS_EEPROM_MAC`. -/
def eepromMac : BitVec 8 := 0xfa

def opsisEepromRead (addr : BitVec 8) (s : σ) : σ := address i2c addr (i2cInit i2c s).2

/-- A loop of `n` reads, each one acknowledged. -/
def readAcked : Nat → σ → List (BitVec 8) × σ
  | 0, s     => ([], s)
  | n + 1, s =>
    let (b, s) := i2cRead i2c 1 s
    let (bs, s) := readAcked n s
    (b :: bs, s)

def opsisEepromDump (s : σ) : σ := i2cStopCond i2c (readAcked i2c 256 (opsisEepromRead i2c 0 s)).2

def opsisEepromMac (s : σ) : List (BitVec 8) × σ :=
  let (mac, s) := readAcked i2c 6 (opsisEepromRead i2c eepromMac s)
  (mac, i2cStopCond i2c s)

def tofeEepromDump (s : σ) : σ := i2cStopCond i2c (readAcked i2c 256 (address i2c 0x00 s)).2

end I2cPort
end Hdmi2Usb
