import Hdmi2Usb.Framebuffer
import Mathlib.Data.Fin.VecNotation
/-!
# HdmiIn — an HDMI input and its two DMA slots (`hdmi_in0.c`, and `hdmi_in1.c` generated from it)

The sampler writes incoming frames through two DMA slots.  A slot that is LOADED is armed on the buffer its address
register names; when a frame ends, the hardware leaves the end address there and marks the slot PENDING.  The
interrupt routine `isr` takes each pending slot, publishes its buffer if the frame had the expected length, and arms
the slot again.  The two inputs run the same code, so everything takes the input's number `x`, and `hdmi_inX_enable` is
`HdmiIn.enable`.
-/
namespace Hdmi2Usb
namespace HdmiIn

inductive SlotStatus
  | empty
  | loaded
  | pending
deriving DecidableEq, Inhabited, Repr

structure DmaSlot where
  status  : SlotStatus
  address : Word
deriving DecidableEq, Inhabited, Repr

structure State where
  hres          : Word
  vres          : Word
  fbSlotIndexes : Fin 2 → Nat
  nextFbIndex   : Nat
  fbIndex       : Nat
  connected     : Bool
  locked        : Bool
  dmaSlot       : Fin 2 → DmaSlot
  dmaFrameSize  : Word
  /-- The reset of the input's PLL or MMCM, whichever the board has. -/
  clockingReset : Bool
  irqMask       : Bool
  console       : List String
deriving Inhabited

def base (x n : Nat) : Word := framebufferBaseHdmiInput x + BitVec.ofNat 32 n * framebufferSize

def dmaBase (x n : Nat) : Word := base x n &&& 0x0fffffff#32

/-- The length the interrupt routine expects a frame to have, also what `enable` tells the DMA. -/
def expectedLength (s : State) : Word := s.hres * s.vres * 2#32

def stray (x : Nat) (d : DmaSlot) : Bool :=
  let addressMin := framebufferBaseHdmiInput x &&& 0x0fffffff#32
  let addressMax := addressMin + framebufferSize * BitVec.ofNat 32 framebufferCount
  d.status == .pending && (d.address < addressMin || d.address > addressMax)

def strayMessage (x : Nat) (k : Fin 2) : String :=
  "dvisampler" ++ toString x ++ ": slot" ++ toString k.val ++ ": stray DMA\n"

/-- The part of the interrupt routine that is written out once for each slot.  The second component is the local
`fb_index`, `none` for its initial `-1`. -/
def isrSlot (x : Nat) (k : Fin 2) (acc : State × Option Nat) : State × Option Nat :=
  let (s, fbIndex) := acc
  if (s.dmaSlot k).status = .pending then
    let length := (s.dmaSlot k).address - dmaBase x (s.fbSlotIndexes k)
    let good := length = expectedLength s
    let index := if good then s.nextFbIndex else s.fbSlotIndexes k
    ({ s with
        fbSlotIndexes := Function.update s.fbSlotIndexes k index
        nextFbIndex := if good then (s.nextFbIndex + 1) &&& framebufferMask else s.nextFbIndex
        dmaSlot := Function.update s.dmaSlot k ⟨.loaded, base x index⟩ },
      if good then some (s.fbSlotIndexes k) else fbIndex)
  else (s, fbIndex)

/-- `hdmi_inX_isr`, up to the call of `processor_update` that ends it. -/
def isr (x : Nat) (s : State) : State :=
  let console := s.console
    ++ (if stray x (s.dmaSlot 0) then [strayMessage x 0] else [])
    ++ (if stray x (s.dmaSlot 1) then [strayMessage x 1] else [])
  let (s, fbIndex) := isrSlot x 1 (isrSlot x 0 ({ s with console }, none))
  { s with fbIndex := fbIndex.getD s.fbIndex }

def enable (x : Nat) (s : State) : State :=
  { s with
    clockingReset := true
    connected := false
    locked := false
    dmaFrameSize := expectedLength s
    fbSlotIndexes := ![0, 1]
    dmaSlot := ![⟨.loaded, base x 0⟩, ⟨.loaded, base x 1⟩]
    nextFbIndex := 2
    irqMask := true
    fbIndex := 3 }

def initVideo (x : Nat) (hres vres : Word) (s : State) : State := enable x { s with hres, vres }

def disable (s : State) : State :=
  { s with
    irqMask := false
    dmaSlot := fun k => ⟨.empty, (s.dmaSlot k).address⟩
    clockingReset := true }

end HdmiIn
end Hdmi2Usb
