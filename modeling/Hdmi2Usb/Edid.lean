import Hdmi2Usb.Memory
import Hdmi2Usb.VideoModes
/-!
# Edid — the block that describes a monitor (`edid.c`)

`generateEdid` fills a block of 128 bytes at the start of the memory `m`.  The structures of the source are packed and
their fields are assigned in order, so the assignments to one structure are the bytes of one `store`.  A string is the
list of its characters, and what is read behind them is the null character that ends it.
-/
namespace Hdmi2Usb
namespace Edid

open Memory (store window)

def descriptorDummy : Byte := 0x10
def descriptorMonitorName : Byte := 0xfc
def descriptorMonitorRange : Byte := 0xfd

def maxDescriptorDataLen : Nat := 13

/-- Where `data_blocks` lies in `struct edid`, and how long one of them is. -/
def dataBlocks : Nat := 54
def dataBlockLen : Nat := 18

def correctHeader : List Byte := [0x00, 0xff, 0xff, 0xff, 0xff, 0xff, 0xff, 0x00]

/-- What an assignment to a `uint8_t` keeps of an `unsigned int`. -/
def byte (w : Word) : Byte := w.setWidth 8

/-- A `char` as an `int`.  Whether it has a sign is the compiler's choice. -/
def promote (charSigned : Bool) (c : Byte) : Word := if charSigned then c.signExtend 32 else c.setWidth 32

/-! ## The checksum -/

def computeChecksum (m : Nat → Byte) : Byte := -((window m 0 127).foldl (· + ·) 0)

def validateEdid (m : Nat → Byte) : Bool := window m 0 8 = correctHeader ∧ computeChecksum m = m 127

/-! ## The descriptors -/

/-- The bytes of `struct edid_timing`, as `generate_edid_timing` assigns them. -/
def timingBytes (timing : VideoTiming) : List Byte :=
  let hImageSize := 10 * timing.hActive / 64
  let vImageSize := 10 * timing.vActive / 64
  [byte (timing.pixelClock &&& 0xff), byte (timing.pixelClock >>> 8),
    byte (timing.hActive &&& 0xff), byte (timing.hBlanking &&& 0xff),
    byte (((timing.hActive >>> 8) <<< 4) ||| (timing.hBlanking >>> 8)),
    byte (timing.vActive &&& 0xff), byte (timing.vBlanking &&& 0xff),
    byte (((timing.vActive >>> 8) <<< 4) ||| (timing.vBlanking >>> 8)),
    byte (timing.hSyncOffset &&& 0xff), byte (timing.hSyncWidth &&& 0xff),
    byte (((timing.vSyncOffset &&& 0x0f) <<< 4) ||| (timing.vSyncWidth &&& 0x0f)),
    byte ((((timing.hSyncOffset >>> 8) &&& 0x03) <<< 6) ||| (((timing.hSyncWidth >>> 8) &&& 0x03) <<< 4) |||
      (((timing.vSyncOffset >>> 4) &&& 0x03) <<< 2) ||| ((timing.vSyncWidth >>> 4) &&& 0x03)),
    byte (hImageSize &&& 0xff), byte (vImageSize &&& 0xff),
    byte (((hImageSize >>> 8) <<< 4) ||| (vImageSize >>> 8)),
    0, 0,
    byte timing.flags]

def generateEdidTiming (dataBlock : Nat) (timing : VideoTiming) (m : Nat → Byte) : Nat → Byte :=
  store m dataBlock (timingBytes timing)

/-- `flag0`, `flag1`, `flag2`, `data_type` and `flag3`. -/
def setDescriptorHeader (d : Nat) (dataType : Byte) (m : Nat → Byte) : Nat → Byte :=
  store m d [0, 0, 0, dataType, 0]

/-- Where `data` lies in `struct edid_descriptor`. -/
def descriptorData : Nat := 5

/-- The loop of `generate_descriptor_padding`, with the turns it has left. -/
def paddingLoop (d : Nat) : Nat → Nat → (Nat → Byte) → Nat → Byte
  | 0, _, m => m
  | left + 1, startPos, m => paddingLoop d left (startPos + 1) (store m (d + descriptorData + startPos) [0x20])

def generateDescriptorPadding (d startPos : Nat) (m : Nat → Byte) : Nat → Byte :=
  if maxDescriptorDataLen ≤ startPos then m
  else paddingLoop d (maxDescriptorDataLen - (startPos + 1)) (startPos + 1)
    (store m (d + descriptorData + startPos) [0x0a])

/-- The loop of `generate_monitor_name`, with the turns it has left; it says where it stopped. -/
def monitorNameLoop (d : Nat) (name : List Byte) : Nat → Nat → (Nat → Byte) → Nat × (Nat → Byte)
  | 0, i, m => (i, m)
  | left + 1, i, m =>
    if name.getD i 0 = 0 then (i, m)
    else monitorNameLoop d name left (i + 1) (store m (d + descriptorData + i) [name.getD i 0])

def generateMonitorName (dataBlock : Nat) (name : List Byte) (m : Nat → Byte) : Nat → Byte :=
  let m := setDescriptorHeader dataBlock descriptorMonitorName m
  let (i, m) := monitorNameLoop dataBlock name maxDescriptorDataLen 0 m
  generateDescriptorPadding dataBlock i m

def generateMonitorRangeDescriptor (dataBlock : Nat) (m : Nat → Byte) : Nat → Byte :=
  let m := setDescriptorHeader dataBlock descriptorMonitorRange m
  let m := store m (dataBlock + descriptorData) [50, 60, 31, 68, 8, 0x00]
  generateDescriptorPadding dataBlock 6 m

def generateUnused (dataBlock : Nat) (m : Nat → Byte) : Nat → Byte :=
  let m := store m dataBlock (List.replicate dataBlockLen 0)
  store m (dataBlock + 3) [descriptorDummy]

/-! ## The block -/

/-- The bytes of `struct edid` before `data_blocks`, as `generate_edid` assigns them. -/
def fixedBytes (charSigned : Bool) (mfgName : Fin 3 → Byte) (productCode : Fin 2 → Byte) (year : Word)
    (timing : VideoTiming) : List Byte :=
  let i := promote charSigned (mfgName 0) - 65 + 1
  let j := promote charSigned (mfgName 1) - 65 + 1
  let k := promote charSigned (mfgName 2) - 65 + 1
  correctHeader ++
    [byte ((i <<< 2) ||| j.sshiftRight 3), byte (((j &&& 0x07) <<< 5) ||| k),
      productCode 0, productCode 1,
      0, 0, 0, 0,
      0, byte (year - 1990),
      1, 3,
      0x80, byte (timing.hActive / 64), byte (timing.vActive / 64), 0x50, 0x06,
      0, 0, 0, 0, 0, 0, 0, 0, 0, 0,
      byte (timing.establishedTiming >>> 8), byte (timing.establishedTiming &&& 0xff), 0] ++
    List.replicate 16 0x01

def dataBlock (db : Nat) : Nat := dataBlocks + dataBlockLen * db

/-- `generate_edid`: `db` counts the data blocks written. -/
def generateEdid (charSigned : Bool) (mfgName : Fin 3 → Byte) (productCode : Fin 2 → Byte) (year : Word)
    (name : List Byte) (timing : VideoTiming) (secondaryTiming : Option VideoTiming) (m : Nat → Byte) : Nat → Byte :=
  let m := store m 0 (fixedBytes charSigned mfgName productCode year timing)
  let db := 0
  let m := generateEdidTiming (dataBlock db) timing m
  let db := db + 1
  let (db, m) := match secondaryTiming with
    | some secondary => (db + 1, generateEdidTiming (dataBlock db) secondary m)
    | none           => (db, m)
  let m := generateMonitorName (dataBlock db) name m
  let db := db + 1
  let m := generateMonitorRangeDescriptor (dataBlock db) m
  let db := db + 1
  let m := match secondaryTiming with
    | some _ => m
    | none   => generateUnused (dataBlock db) m
  let m := store m 126 [0]
  store m 127 [computeChecksum m]

/-! ## What a display's host reads in a timing descriptor -/

/-- The fields of a detailed timing descriptor, as the VESA layout has them. -/
structure Descriptor where
  pixelClock  : Nat
  hActive     : Nat
  hBlanking   : Nat
  vActive     : Nat
  vBlanking   : Nat
  hSyncOffset : Nat
  hSyncWidth  : Nat
  vSyncOffset : Nat
  vSyncWidth  : Nat
  hImageSize  : Nat
  vImageSize  : Nat
  flags       : Nat
deriving DecidableEq

/-- Reads the descriptor at `d`: the low parts of the fields are bytes and nibbles of their own, the high parts share
the bytes 4, 7, 11 and 14. -/
def decodeTiming (m : Nat → Byte) (d : Nat) : Descriptor :=
  let b := fun i => (m (d + i)).toNat
  { pixelClock  := b 0 + 256 * b 1
    hActive     := b 2 + 256 * (b 4 / 16)
    hBlanking   := b 3 + 256 * (b 4 % 16)
    vActive     := b 5 + 256 * (b 7 / 16)
    vBlanking   := b 6 + 256 * (b 7 % 16)
    hSyncOffset := b 8 + 256 * (b 11 / 64)
    hSyncWidth  := b 9 + 256 * (b 11 / 16 % 4)
    vSyncOffset := b 10 / 16 + 16 * (b 11 / 4 % 4)
    vSyncWidth  := b 10 % 16 + 16 * (b 11 % 4)
    hImageSize  := b 12 + 256 * (b 14 / 16)
    vImageSize  := b 13 + 256 * (b 14 % 16)
    flags       := b 17 }

end Edid
end Hdmi2Usb
