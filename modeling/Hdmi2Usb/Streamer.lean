import Hdmi2Usb.Memory
/-!
# Streamer — the FX2 USB streamer (`fx2_jpeg_streamer.vhd`, `streamer/core.py`)

`mainP` is the clocked process.  It runs on the falling edge; the clock-crossing FIFO is popped and the FX2 written on
the rising edge.  `period` is one turn from a rising edge to the next: `sink_stb` and `fx2_full_n` are fixed in it, the
process runs in its middle, and `sink_ack` as it stands after that decides the pop at its end.
-/
namespace Hdmi2Usb
namespace Streamer

inductive FsmState
  | reset
  | wait
  | packetEnd
  | sendData
deriving DecidableEq

structure Regs where
  fx2WrN        : Bool
  fx2PktendN    : Bool
  fx2Data       : Byte
  packetFid     : Bool
  packetSent    : Bool
  packetCounter : Nat
  sinkDataD     : Byte
  fsmState      : FsmState

/-- The registers under `rst`, which leaves `fx2_data` as it is. -/
def rst (fx2Data : Byte) : Regs := ⟨true, true, fx2Data, false, false, 0, 0, .reset⟩

/-- The second header byte: end of header, and the frame id. -/
def headerFlags (packetFid : Bool) : Byte := if packetFid then 0x81 else 0x80

/-- `main_p` on a falling edge.  `packet_counter` has twelve bits and never passes 1024. -/
def mainP (s : Regs) (sinkStb fx2FullN : Bool) (sinkData : Byte) : Regs :=
  let t := { s with fx2WrN := true, fx2PktendN := true }
  match s.fsmState with
  | .reset =>
    { t with packetFid := false, packetSent := false, fsmState := .wait, fx2Data := 0, sinkDataD := 0,
             packetCounter := 0 }
  | .wait => if fx2FullN then { t with fsmState := .sendData } else t
  | .sendData =>
    if sinkStb ∧ fx2FullN then
      if s.packetCounter = 1024 then { t with fsmState := .wait, packetCounter := 0 }
      else if s.packetCounter = 0 then
        { t with packetCounter := s.packetCounter + 1, fx2WrN := false, fx2Data := 0x0c, packetSent := false }
      else if s.packetCounter = 1 then
        { t with packetCounter := s.packetCounter + 1, fx2WrN := false, fx2Data := headerFlags s.packetFid }
      else if s.packetCounter ≤ 11 then
        { t with packetCounter := s.packetCounter + 1, fx2WrN := false, fx2Data := 0x00 }
      else if s.sinkDataD = 0xff ∧ sinkData = 0xd9 then
        { t with packetCounter := 0, fx2WrN := false, sinkDataD := sinkData, fx2Data := sinkData,
                 packetFid := !s.packetFid, fsmState := .packetEnd, packetSent := true }
      else
        { t with packetCounter := s.packetCounter + 1, fx2WrN := false, sinkDataD := sinkData, fx2Data := sinkData }
    else t
  | .packetEnd => { t with fx2PktendN := false, fsmState := .wait }

def sendingData (s : Regs) : Bool := s.fsmState = .sendData ∧ 11 < s.packetCounter ∧ s.packetCounter < 1024

def sinkAck (s : Regs) (sinkStb fx2FullN : Bool) : Bool := sendingData s && sinkStb && fx2FullN

inductive Out
  | byte (b : Byte)
  | pktend
deriving DecidableEq

structure Stall where
  sinkStb  : Bool
  fx2FullN : Bool

structure System where
  regs   : Regs
  popped : Nat
  log    : List Out

def outs (s : Regs) : List Out :=
  (if s.fx2WrN then [] else [.byte s.fx2Data]) ++ (if s.fx2PktendN then [] else [.pktend])

def period (input : Nat → Byte) (s : System) (i : Stall) : System :=
  let regs := mainP s.regs i.sinkStb i.fx2FullN (input s.popped)
  { regs
    popped := if sinkAck regs i.sinkStb i.fx2FullN then s.popped + 1 else s.popped
    log    := s.log ++ outs regs }

def start (fx2Data : Byte) : System := ⟨rst fx2Data, 0, []⟩

end Streamer
end Hdmi2Usb
