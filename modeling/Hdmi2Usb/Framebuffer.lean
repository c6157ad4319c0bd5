import Mathlib.Data.BitVec
/-!
# Framebuffer — where the frame buffers lie in main memory (`framebuffer.h`)

Main memory is cut into areas of `framebufferOffset` bytes: area 1 for the pattern, area 2 for PCIe, and one for each
HDMI input from area 3 on.  An area holds `framebufferCount` buffers of `framebufferSize` bytes.
-/
namespace Hdmi2Usb

/-- `fb_ptrdiff_t` and the other `unsigned int`s: one machine word. -/
abbrev Word := BitVec 32

/-- Slots, inputs and outputs are numbered in `Fin 2`. -/
instance instNeZeroTwo : NeZero 2 := ⟨by decide⟩

def framebufferOffset : Word := 0x01000000#32
def framebufferPatterns : Nat := 1
def framebufferPcieBuffers : Nat := 1

def framebufferPixelsX : Nat := 1920
def framebufferPixelsY : Nat := 1080
def framebufferPixelsBytes : Nat := 2

def framebufferBase (x : Nat) : Word := BitVec.ofNat 32 (x + 1) * framebufferOffset

def framebufferBasePattern : Word := framebufferBase 0
def framebufferBasePcie : Word := framebufferBase framebufferPatterns
def framebufferBaseHdmiInput (x : Nat) : Word := framebufferBase (x + framebufferPatterns + framebufferPcieBuffers)

def framebufferSize : Word := 0x400000#32

def framebufferCount : Nat := 4
def framebufferMask : Nat := framebufferCount - 1

/-- `h_active*v_active*2/4`, an `int`: two pixels a word, up to which the loops of the pattern count. -/
def pictureWords (hActive vActive : Word) : Word := (hActive * vActive * 2).sdiv 4

/-- The header's `#error` check: a frame of the largest size fits one buffer. -/
theorem framebufferPixels_fit :
    framebufferPixelsX * framebufferPixelsY * framebufferPixelsBytes ≤ framebufferSize.toNat := by decide

theorem and_framebufferMask (n : Nat) : n &&& framebufferMask = n % framebufferCount :=
  Nat.and_two_pow_sub_one_eq_mod n 2

end Hdmi2Usb
