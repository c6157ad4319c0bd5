import Hdmi2Usb.Chunks
import Hdmi2Usb.EndianSwap
import Hdmi2Usb.Runs
/-!
# SpiFlash — the cores that read the SPI flash (`gateware/spi_flash.py`)

`SpiFlashSingle` and `SpiFlashDualQuad` differ in the width of their lines, in the command that they read with and in
that the dual and quad lines go both ways.  A read is a timeline: command, address, dummy cycles and data, each a number
of clocks of a divider that never stops.  `step` runs a core between a classic master and a flash chip, which takes the
lines at the rising edges of the clock and puts its data on them at the falling ones.
-/
namespace Hdmi2Usb
namespace SpiFlash

open Chunks

def fastRead : BitVec 8 := 0x0b
def diofr : BitVec 8 := 0xbb
def qiofr : BitVec 8 := 0xeb

def formatCmd (cmd : BitVec 8) (spiWidth : Nat) : BitVec (8 * spiWidth) :=
  (List.range 8).foldl (fun c b => if cmd.getLsbD b then c else c &&& ~~~(1#(8 * spiWidth) <<< (b * spiWidth)))
    (BitVec.allOnes _)

/-- `mosi` and `miso`, or two or four lines `dq`. -/
inductive Pads
  | single
  | dual
  | quad
deriving DecidableEq

namespace Pads

/-- `spi_width`. -/
def width : Pads → Nat
  | single => 1
  | dual   => 2
  | quad   => 4

def opcode : Pads → BitVec 8
  | single => fastRead
  | dual   => diofr
  | quad   => qiofr

def readCmd : (p : Pads) → BitVec (8 * p.width)
  | single => fastRead
  | dual   => formatCmd diofr 2
  | quad   => formatCmd qiofr 4

/-- The lines are driven by both sides. -/
def tristate : Pads → Bool
  | single => false
  | _      => true

end Pads

structure Config where
  pads         : Pads
  dummy        : Nat
  div          : Nat
  littleEndian : Bool

abbrev Config.width (cfg : Config) : Nat := cfg.pads.width

/-! ## The core -/

structure Core (w : Nat) where
  csN     : Bool
  clk     : Bool
  /-- No register of the single core: there nothing reads it. -/
  dqOe    : Bool
  sr      : BitVec 32
  i       : Nat
  /-- `miso` in the single core. -/
  dqi     : BitVec w
  ack     : Bool
  /-- Of the timeline. -/
  counter : Nat

def Core.reset (w : Nat) : Core w :=
  { csN := true, clk := false, dqOe := false, sr := 0, i := 0, dqi := 0, ack := false, counter := 0 }

/-- `Cat(z, bus.adr)`, as wide as the address register. -/
def byteAddress (adr : BitVec 30) : BitVec 24 := (adr ++ 0#2).setWidth 24

variable (cfg : Config)

section Actions

variable {cfg}

def Core.sendCommand (c : Core cfg.width) : Core cfg.width :=
  { c with dqOe := cfg.pads.tristate, csN := false, sr := setTop cfg.pads.readCmd c.sr }

def Core.sendAddress (adr : BitVec 30) (c : Core cfg.width) : Core cfg.width :=
  { c with sr := setTop (byteAddress adr) c.sr }

def Core.turn (c : Core cfg.width) : Core cfg.width := { c with dqOe := false }

def Core.acknowledge (c : Core cfg.width) : Core cfg.width := { c with ack := true, csN := true }

def Core.release (c : Core cfg.width) : Core cfg.width := { c with ack := false }

end Actions

/-- What a read does, each action with the time to the next one. -/
def seq (adr : BitVec 30) : List (Nat × (Core cfg.width → Core cfg.width)) :=
  [(8 * cfg.width / cfg.width * cfg.div, Core.sendCommand),
    (24 / cfg.width * cfg.div, Core.sendAddress adr),
    ((cfg.dummy + 32 / cfg.width) * cfg.div, Core.turn),
    (1, Core.acknowledge),
    (cfg.div, Core.release),
    (0, id)]

/-- `tseq`. -/
def accumulate {α : Type} : Nat → List (Nat × α) → List (Nat × α)
  | _, []             => []
  | t, (dt, a) :: seq => (t, a) :: accumulate (t + dt) seq

/-- The actions of a timeline that are due: the first ones at a trigger, the others at their count. -/
def timeline {α : Type} (trigger : Bool) (counter : Nat) (events : List (Nat × (α → α))) (a : α) : α :=
  events.foldl (fun a e => if (if e.1 = 0 then trigger && counter = 0 else counter = e.1) then e.2 a else a) a

def lastEvent {α : Type} (events : List (Nat × α)) : Nat := (events.map (·.1)).foldl max 0

/-- The counter goes from a trigger to the last event and back to 0. -/
def nextCounter (trigger : Bool) (counter last : Nat) : Nat :=
  if counter = last then 0 else if counter ≠ 0 then counter + 1 else if trigger then 1 else 0

/-- The clock divider and the shift register. -/
def Core.divide (dqI : BitVec cfg.width) (c : Core cfg.width) : Core cfg.width :=
  let c' := if c.i = cfg.div / 2 - 1 then { c with clk := true, dqi := dqI } else c
  if c.i = cfg.div - 1 then { c' with i := 0, clk := false, sr := shiftIn c.sr c.dqi } else { c' with i := c.i + 1 }

/-- One clock cycle. -/
def Core.cycle (request : Bool) (adr : BitVec 30) (dqI : BitVec cfg.width) (c : Core cfg.width) : Core cfg.width :=
  let trigger := request && c.i = cfg.div - 1
  let tseq := accumulate 0 (seq cfg adr)
  { timeline trigger c.counter tseq (c.divide cfg dqI) with
    counter := nextCounter trigger c.counter (lastEvent tseq) }

/-- `sr[-spi_width:]`. -/
def Core.dqO {w : Nat} (c : Core w) : BitVec w := chunk w c.sr 0

/-- The core drives the lines; `mosi` it always does. -/
def Core.drives (c : Core cfg.width) : Bool := !cfg.pads.tristate || c.dqOe

def wordOf (sr : BitVec 32) : BitVec 32 := if cfg.littleEndian then EndianSwap.swapBytes sr else sr

/-! ## The flash chip -/

structure Flash (w : Nat) where
  /-- The levels last seen. -/
  csN   : Bool
  clk   : Bool
  /-- The lines at the rising edges of the clock since the chip was selected. -/
  taken : List (BitVec w)

section Flash

variable {w : Nat}

def Flash.see (csN clk : Bool) (lines : BitVec w) (f : Flash w) : Flash w :=
  if csN then { f with csN, clk }
  else if f.csN then { csN, clk, taken := [] }
  else if clk && !f.clk then { csN, clk, taken := f.taken ++ [lines] }
  else { f with csN, clk }

/-- The command comes on the first line. -/
def Flash.command (f : Flash w) : BitVec 8 :=
  receive 8 (fun n => BitVec.ofBool ((f.taken.getD n 0).getLsbD 0)) 8

def Flash.address (f : Flash w) : BitVec 24 := receive 24 (fun n => f.taken.getD (8 + n) 0) (24 / w)

/-- The bytes from an address on, as they come on the lines. -/
def stream (contents : BitVec 24 → BitVec 8) (adr : BitVec 24) (n : Nat) : BitVec w :=
  chunk w (contents (adr + BitVec.ofNat 24 (n / (8 / w)))) (n % (8 / w))

/-- What the chip drives: it goes on at the falling edges, from the one after the last dummy cycle. -/
def Flash.drives (opcode : BitVec 8) (dummy : Nat) (contents : BitVec 24 → BitVec 8) (f : Flash w) :
    Option (BitVec w) :=
  let clocks := if f.clk then f.taken.length - 1 else f.taken.length
  let start := 8 + 24 / w + dummy
  if f.csN = false ∧ f.command = opcode ∧ start ≤ clocks then some (stream contents f.address (clocks - start))
  else none

end Flash

/-! ## Master, core and chip -/

/-- A read that the core has acknowledged: what the master got, and what the chip had taken off the lines. -/
structure Read (w : Nat) where
  adr   : BitVec 30
  data  : BitVec 32
  taken : List (BitVec w)

structure System (w : Nat) where
  core    : Core w
  flash   : Flash w
  /-- `cyc` and `stb`. -/
  request : Bool
  adr     : BitVec 30
  reads   : List (Read w)

def System.reset (w : Nat) : System w :=
  { core := .reset w, flash := { csN := true, clk := false, taken := [] }, request := false, adr := 0, reads := [] }

/-- What the master asks for when it is free to ask, and the level of the lines that nobody drives. -/
structure Input (w : Nat) where
  request : Bool
  adr     : BitVec 30
  float   : BitVec w

/-- One clock cycle.  A classic master holds its request and the address until it sees the acknowledgement. -/
def step (contents : BitVec 24 → BitVec 8) (s : System cfg.width) (i : Input cfg.width) : System cfg.width :=
  let out := (s.flash.drives cfg.pads.opcode cfg.dummy contents).getD i.float
  let core := s.core.cycle cfg s.request s.adr (if cfg.pads.tristate && s.core.dqOe then s.core.dqO else out)
  let hold := s.request && !s.core.ack
  { core
    flash   := s.flash.see core.csN core.clk (if core.drives cfg then core.dqO else i.float)
    request := if hold then true else i.request
    adr     := if hold then s.adr else i.adr
    reads   := if s.request && s.core.ack then s.reads ++ [⟨s.adr, wordOf cfg s.core.sr, s.flash.taken⟩] else s.reads }

/-- The four bytes at a word's address, the first one the most significant. -/
def flashWord (contents : BitVec 24 → BitVec 8) (adr : BitVec 30) : BitVec 32 :=
  let a := BitVec.ofNat 24 (4 * adr.toNat)
  contents a ++ contents (a + 1) ++ contents (a + 2) ++ contents (a + 3)

end SpiFlash
end Hdmi2Usb
