import Hdmi2Usb.Framebuffer
import Hdmi2Usb.Memory
import Hdmi2Usb.Runs
/-!
# LiteEthMacPoll — the receive side of the Ethernet driver (`liteethmac-drv.c`)

`liteethmac_poll` copies the frame of a receive slot into `uip_buf`, as many bytes as the MAC says it has.  The buffer
has 256 bytes (`UIP_CONF_BUFFER_SIZE`) and the length is not looked at, so a run of polls stays in it exactly when every
frame does (`poll_contained_iff`); what a longer one has behind goes into the memory behind the buffer.
-/
namespace Hdmi2Usb
namespace LiteEthMacPoll

open Memory (window store writes written)
open Runs (AllSteps)

/-- `UIP_CONF_BUFFER_SIZE` -/
def uipBufsize : Nat := 256

/-- The bytes of a receive slot. -/
def slotSize : Nat := 0x0800

/-- What the MAC's registers say while its event is pending, and its memory. -/
structure Received where
  slot      : Word
  length    : Word
  sram      : Nat → Byte
  length_le : length.toNat ≤ slotSize

/-- The driver's variables and the network stack's.  `ram` is the memory that `uip_buf` is in. -/
structure State where
  rxslot   : Word
  rxlen    : Word
  rxbuffer : Nat
  ram      : Nat → Byte
  uipLen   : BitVec 16

section

-- where `uip_buf` is, and the MAC's memory
variable (uipBuf ethmacBase : Nat)

def ethmacRx0Base : Nat := ethmacBase

def ethmacRx1Base : Nat := ethmacBase + 0x0800

/-- The slot that the registers name. -/
def Received.rxbuffer (r : Received) : Nat :=
  if r.slot ≠ 0 then ethmacRx1Base ethmacBase else ethmacRx0Base ethmacBase

/-- What the `memcpy` writes. -/
def Received.memcpy (r : Received) : List (Nat × Byte) :=
  writes (window r.sram (r.rxbuffer ethmacBase) r.length.toNat) uipBuf

/-- A call of `liteethmac_poll`, with what the MAC has if its event is pending. -/
def liteethmacPoll (s : State) : Option Received → BitVec 16 × State
  | none   => (0, s)
  | some r =>
    (r.length.setWidth 16,
      { rxslot   := r.slot
        rxlen    := r.length
        rxbuffer := r.rxbuffer ethmacBase
        ram      := written (r.memcpy uipBuf ethmacBase) s.ram
        uipLen   := r.length.setWidth 16 })

/-- The call in `ethernet_service`. -/
def ethernetService (s : State) (mac : Option Received) : State :=
  { (liteethmacPoll uipBuf ethmacBase s mac).2 with uipLen := (liteethmacPoll uipBuf ethmacBase s mac).1 }

/-- A step copies to nothing but `uip_buf`, and `uip_len` is no more than it holds. -/
def Contained (s : State) (mac : Option Received) : Prop :=
  (∀ r ∈ mac, ∀ w ∈ r.memcpy uipBuf ethmacBase, uipBuf ≤ w.1 ∧ w.1 < uipBuf + uipBufsize) ∧
    (liteethmacPoll uipBuf ethmacBase s mac).2.uipLen.toNat ≤ uipBufsize ∧
      (ethernetService uipBuf ethmacBase s mac).uipLen.toNat ≤ uipBufsize

/-! ## Which frames fit -/

/-- The frame is no longer than the buffer. -/
def Fits (mac : Option Received) : Prop := ∀ r ∈ mac, r.length.toNat ≤ uipBufsize

theorem mem_fst_memcpy (r : Received) {a : Nat} :
    (∃ b, (a, b) ∈ r.memcpy uipBuf ethmacBase) ↔ uipBuf ≤ a ∧ a < uipBuf + r.length.toNat := by
  rw [Received.memcpy, Memory.mem_fst_writes, Memory.length_window]

/-- A length that the MAC may report goes into the 16 bits of `uip_len`. -/
theorem toNat_setWidth_length (r : Received) : (r.length.setWidth 16).toNat = r.length.toNat := by
  have hle := r.length_le
  rw [BitVec.toNat_setWidth, Nat.mod_eq_of_lt]
  exact Nat.lt_of_le_of_lt hle (by decide)

theorem contained_step_iff {s : State} (hs : s.uipLen.toNat ≤ uipBufsize) (mac : Option Received) :
    Contained uipBuf ethmacBase s mac ↔ Fits mac := by
  cases mac with
  | none =>
    constructor
    · intro _ r hr
      cases hr
    · intro _
      refine ⟨fun r hr => ?_, hs, Nat.zero_le _⟩
      cases hr
  | some r =>
    constructor
    · rintro ⟨-, hlen, -⟩ r' hr
      obtain rfl := Option.some.inj hr
      exact (toNat_setWidth_length r) ▸ hlen
    · intro hfits
      have hle : r.length.toNat ≤ uipBufsize := hfits r rfl
      have hlen : (r.length.setWidth 16).toNat ≤ uipBufsize := by rwa [toNat_setWidth_length]
      refine ⟨fun r' hr w hw => ?_, hlen, hlen⟩
      obtain rfl := Option.some.inj hr
      obtain ⟨h1, h2⟩ := (mem_fst_memcpy uipBuf ethmacBase r).1 ⟨w.2, hw⟩
      exact ⟨h1, Nat.lt_of_lt_of_le h2 (Nat.add_le_add_left hle uipBuf)⟩

/-- **A run of polls stays in `uip_buf` exactly when every frame fits in it.** -/
theorem poll_contained_iff (s : State) (macs : List (Option Received)) :
    AllSteps (ethernetService uipBuf ethmacBase) (Contained uipBuf ethmacBase) { s with uipLen := 0 } macs ↔
      ∀ mac ∈ macs, Fits mac := by
  have hiff : ∀ (s : State) mac, s.uipLen.toNat ≤ uipBufsize → (Contained uipBuf ethmacBase s mac ↔ Fits mac) :=
    fun s mac hs => contained_step_iff uipBuf ethmacBase hs mac
  have hstep : ∀ (s : State) mac, s.uipLen.toNat ≤ uipBufsize → Fits mac →
      (ethernetService uipBuf ethmacBase s mac).uipLen.toNat ≤ uipBufsize :=
    fun s mac hs hfits => ((hiff s mac hs).2 hfits).2.2
  exact Runs.allSteps_iff_inputs hiff hstep macs (Nat.zero_le _)

end

/-- A frame of 1514 bytes, the longest that the driver itself sends. -/
def longFrame : Received := ⟨0, 1514, fun _ => 0xff, by decide⟩

theorem not_contained_longFrame :
    ¬ AllSteps (ethernetService 0x40000000 0xb0000000) (Contained 0x40000000 0xb0000000)
      ⟨0, 0, 0, fun _ => 0, 0⟩ [some longFrame] := by
  rintro ⟨⟨-, hlen, -⟩, -⟩
  exact absurd hlen (by decide)

end LiteEthMacPoll
end Hdmi2Usb
