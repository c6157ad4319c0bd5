import Hdmi2Usb.I2cMaster
import Mathlib.Tactic.IntervalCases
/-!
# I2cReads — what a read leaves on the bus (`hdmi_out0.c`, `opsis_eeprom.c`, `tofe_eeprom.c`)

The drivers against an EEPROM: after each byte that the master acknowledges it puts the first bit of its next byte on
SDA, and keeps it there until SCL falls.  A stop is SDA rising, so after an acknowledged byte there is one only where that
bit is high; where it is low, SDA stays low and the bus is not free (`reads_clean_iff`).
-/
namespace Hdmi2Usb
namespace I2cReads

open I2cBus
open I2cMaster (line scl sdaOe sdaOut)
open I2cPort
open Runs (AllSteps)

/-! ## The EEPROM -/

/-- What a byte that the slave takes is. -/
inductive Dest
  | control
  | word
deriving DecidableEq

inductive Phase
  /-- Waiting for a start. -/
  | idle
  /-- Taking a byte, with `n` bits of it in. -/
  | take (dest : Dest) (n : Nat) (byte : BitVec 8)
  /-- The acknowledge of a byte is on SDA. -/
  | ack (dest : Dest) (byte : BitVec 8)
  /-- Bit `n` of the byte at the pointer is on SDA, from the most significant one. -/
  | give (n : Nat)
  /-- The ninth bit is the master's. -/
  | hark
  | harked (nack : Bool)
deriving DecidableEq

structure Chip where
  phase   : Phase
  pointer : Nat

/-- All the parts answer to `0xa0` and `0xa1`. -/
def slaveAddress : BitVec 7 := 0x50

namespace Chip

/-- What the slave makes of SDA; `mem` is the bytes from each address on. -/
def sda (mem : Nat → BitVec 8) (c : Chip) : Bool :=
  match c.phase with
  | .ack _ _ => false
  | .give n  => (mem c.pointer).getMsbD n
  | _        => true

/-- SCL rises. -/
def rise (sda : Bool) (c : Chip) : Chip :=
  match c.phase with
  | .take dest n byte => { c with phase := .take dest (n + 1) (I2cMaster.shiftIn byte sda) }
  | .hark             => { c with phase := .harked sda }
  | _                 => c

/-- SCL falls.  No driver writes into a memory: after the word address the slave waits for the next start. -/
def fall (c : Chip) : Chip :=
  match c.phase with
  | .take dest 8 byte =>
    if dest = .control ∧ byte.extractLsb' 1 7 ≠ slaveAddress then { c with phase := .idle }
    else { c with phase := .ack dest byte }
  | .ack .control byte => { c with phase := if byte.getLsbD 0 then .give 0 else .take .word 0 0 }
  | .ack .word byte    => { phase := .idle, pointer := byte.toNat }
  | .give n            => { c with phase := if n = 7 then .hark else .give (n + 1) }
  | .harked false      => { phase := .give 0, pointer := c.pointer + 1 }
  | .harked true       => { c with phase := .idle }
  | _                  => c

/-- The lines go from one level to the next. -/
def hear (old new : Level) (c : Chip) : Chip :=
  if old.scl && new.scl then
    if old.sda && !new.sda then { c with phase := .take .control 0 0 }
    else if !old.sda && new.sda then { c with phase := .idle }
    else c
  else if new.scl then c.rise new.sda
  else if old.scl then c.fall
  else c

end Chip

/-! ## The bus -/

/-- The master's register and flag, the slave, and a listener on the lines. -/
structure Pins where
  w        : BitVec 8
  started  : Bool
  chip     : Chip
  listener : Listener

variable (fight : Bool) (mem : Nat → BitVec 8)

def Pins.line (s : Pins) : Level := I2cMaster.line fight s.w (s.chip.sda mem)

/-- The lines are heard. -/
def Pins.settle (s : Pins) : Pins :=
  { s with chip := s.chip.hear s.listener.level (s.line fight mem), listener := s.listener.hear (s.line fight mem) }

/-- `w_write`: the lines move, and then once more with what the slave does about it. -/
def Pins.write (v : BitVec 8) (s : Pins) : Pins := (({ s with w := v } : Pins).settle fight mem).settle fight mem

def port : I2C Pins where
  wRead      := (·.w)
  wWrite     := Pins.write fight mem
  rRead      := fun s => if (s.line fight mem).sda then 1 else 0
  started    := (·.started)
  setStarted := fun started s => { s with started }

/-! ## One write to the register -/

/-- SCL is low. -/
def low (w : BitVec 8) (started : Bool) (c : Chip) (ss : List Symbol) : Pins :=
  { w, started, chip := c, listener := ⟨line fight w (c.sda mem), false, ss⟩ }

/-- SCL is high; `m` tells of a start or a stop in this high phase. -/
def high (w : BitVec 8) (started : Bool) (c : Chip) (m : Bool) (ss : List Symbol) : Pins :=
  { w, started, chip := c, listener := ⟨line fight w (c.sda mem), m, ss⟩ }

variable {fight} {mem}

theorem sda_rise (x : Bool) (c : Chip) : (c.rise x).sda mem = c.sda mem := by
  obtain ⟨phase, pointer⟩ := c
  cases phase <;> rfl

section Write

variable {v w : BitVec 8} {started m : Bool} {c : Chip} {ss : List Symbol}

theorem scl_line (x : Bool) : (line fight w x).scl = scl w := rfl

theorem level_ext {l l' : Level} (hscl : l.scl = l'.scl) (hsda : l.sda = l'.sda) : l = l' := by
  cases l
  cases l'
  simp_all

/-- Lines that stay are heard without effect. -/
theorem settle_low (hw : scl w = false) :
    (low fight mem w started c ss).settle fight mem = low fight mem w started c ss := by
  have hhear : c.hear (line fight w (c.sda mem)) (line fight w (c.sda mem)) = c := by
    simp [Chip.hear, scl_line, hw]
  have hlisten : Listener.hear ⟨line fight w (c.sda mem), false, ss⟩ (line fight w (c.sda mem)) =
      ⟨line fight w (c.sda mem), false, ss⟩ := hear_low hw hw
  simp only [Pins.settle, Pins.line, low, hhear, hlisten]

theorem settle_high (hw : scl w = true) :
    (high fight mem w started c m ss).settle fight mem = high fight mem w started c m ss := by
  have hhear : c.hear (line fight w (c.sda mem)) (line fight w (c.sda mem)) = c := by
    simp [Chip.hear, scl_line, hw]
  have hlisten : Listener.hear ⟨line fight w (c.sda mem), m, ss⟩ (line fight w (c.sda mem)) =
      ⟨line fight w (c.sda mem), m, ss⟩ := by
    simp [Listener.hear, scl_line, hw]
  simp only [Pins.settle, Pins.line, high, hhear, hlisten]

theorem write_low (hw : scl w = false) (hv : scl v = false) :
    (low fight mem w started c ss).write fight mem v = low fight mem v started c ss := by
  have hhear : c.hear (line fight w (c.sda mem)) (line fight v (c.sda mem)) = c := by
    simp [Chip.hear, scl_line, hw, hv]
  have hlisten : Listener.hear ⟨line fight w (c.sda mem), false, ss⟩ (line fight v (c.sda mem)) =
      ⟨line fight v (c.sda mem), false, ss⟩ := hear_low hw hv
  have hfirst : ({ low fight mem w started c ss with w := v } : Pins).settle fight mem =
      low fight mem v started c ss := by
    simp only [Pins.settle, Pins.line, low, hhear, hlisten]
  rw [Pins.write, hfirst, settle_low hv]

/-- SCL rises, with SDA the same. -/
theorem write_rise (hw : scl w = false) (hv : scl v = true)
    (hsda : (line fight v (c.sda mem)).sda = (line fight w (c.sda mem)).sda) :
    (low fight mem w started c ss).write fight mem v =
      high fight mem v started (c.rise (line fight w (c.sda mem)).sda) false ss := by
  have hhear : c.hear (line fight w (c.sda mem)) (line fight v (c.sda mem)) =
      c.rise (line fight w (c.sda mem)).sda := by
    simp [Chip.hear, scl_line, hw, hv, hsda]
  have hlisten : Listener.hear ⟨line fight w (c.sda mem), false, ss⟩ (line fight v (c.sda mem)) =
      ⟨line fight v (c.sda mem), false, ss⟩ := hear_rise hw hv hsda
  have hfirst : ({ low fight mem w started c ss with w := v } : Pins).settle fight mem =
      high fight mem v started (c.rise (line fight w (c.sda mem)).sda) false ss := by
    simp only [Pins.settle, Pins.line, low, high, hhear, hlisten, sda_rise]
  rw [Pins.write, hfirst, settle_high hv]

/-- SCL falls, with SDA the same. -/
theorem write_fall (hw : scl w = true) (hv : scl v = false)
    (hsda : (line fight v (c.sda mem)).sda = (line fight w (c.sda mem)).sda) :
    (high fight mem w started c m ss).write fight mem v =
      low fight mem v started c.fall (if m then ss else ss ++ [.bit (line fight w (c.sda mem)).sda]) := by
  have hhear : c.hear (line fight w (c.sda mem)) (line fight v (c.sda mem)) = c.fall := by
    simp [Chip.hear, scl_line, hw, hv]
  have hlisten : Listener.hear ⟨line fight w (c.sda mem), m, ss⟩ (line fight v (c.sda mem)) =
      ⟨line fight v (c.sda mem), false, if m then ss else ss ++ [.bit (line fight v (c.sda mem)).sda]⟩ :=
    hear_fall hw hv hsda
  rw [hsda] at hlisten
  -- what the slave then puts on SDA is heard with SCL low
  have hhear' : c.fall.hear (line fight v (c.sda mem)) (line fight v (c.fall.sda mem)) = c.fall := by
    simp [Chip.hear, scl_line, hv]
  have hlisten' (ss' : List Symbol) :
      Listener.hear ⟨line fight v (c.sda mem), false, ss'⟩ (line fight v (c.fall.sda mem)) =
        ⟨line fight v (c.fall.sda mem), false, ss'⟩ := hear_low hv hv
  simp only [Pins.write, Pins.settle, Pins.line, low, high, hhear, hlisten, hhear', hlisten']

/-- SDA falls while SCL is high. -/
theorem write_start (hw : scl w = true) (hv : scl v = true) (hhigh : (line fight w (c.sda mem)).sda = true)
    (hlow : ∀ x, (line fight v x).sda = false) :
    (high fight mem w started c m ss).write fight mem v =
      high fight mem v started { c with phase := .take .control 0 0 } true (ss ++ [.start]) := by
  have hsame (x y : Bool) : line fight v x = line fight v y := level_ext rfl ((hlow x).trans (hlow y).symm)
  have hhear : c.hear (line fight w (c.sda mem)) (line fight v (c.sda mem)) =
      { c with phase := .take .control 0 0 } := by
    simp [Chip.hear, scl_line, hw, hv, hhigh, hlow]
  have hlisten : Listener.hear ⟨line fight w (c.sda mem), m, ss⟩ (line fight v (c.sda mem)) =
      ⟨line fight v true, true, ss ++ [.start]⟩ := by
    have hswing := hear_swing (d := ⟨line fight w (c.sda mem), m, ss⟩) (l := line fight v (c.sda mem)) hw hv
      (by rw [hlow, hhigh]; decide)
    rw [hswing, hlow, hsame (c.sda mem) true]
    rfl
  have hfirst : ({ high fight mem w started c m ss with w := v } : Pins).settle fight mem =
      high fight mem v started { c with phase := .take .control 0 0 } true (ss ++ [.start]) := by
    simp only [Pins.settle, Pins.line, high, hhear, hlisten]
    rfl
  rw [Pins.write, hfirst, settle_high hv]

/-- SDA is released while SCL is high, and the slave is off it. -/
theorem write_stop (hw : scl w = true) (hlow : (line fight w (c.sda mem)).sda = false) (hfree : c.sda mem = true) :
    (high fight mem w started c m ss).write fight mem i2cScl =
      high fight mem i2cScl started { c with phase := .idle } true (ss ++ [.stop]) := by
  have hup : (line fight i2cScl true).sda = true := I2cMaster.sda_released (by decide) true
  have hv : scl i2cScl = true := by decide
  have hhear : c.hear (line fight w (c.sda mem)) (line fight i2cScl (c.sda mem)) = { c with phase := .idle } := by
    rw [hfree] at hlow ⊢
    simp [Chip.hear, scl_line, hw, hv, hlow, hup]
  have hlisten : Listener.hear ⟨line fight w (c.sda mem), m, ss⟩ (line fight i2cScl (c.sda mem)) =
      ⟨line fight i2cScl true, true, ss ++ [.stop]⟩ := by
    rw [hfree] at hlow ⊢
    have hswing := hear_swing (d := ⟨line fight w true, m, ss⟩) (l := line fight i2cScl true) hw hv
      (by rw [hlow, hup]; decide)
    rw [hswing, hup]
    rfl
  have hfirst : ({ high fight mem w started c m ss with w := i2cScl } : Pins).settle fight mem =
      high fight mem i2cScl started { c with phase := .idle } true (ss ++ [.stop]) := by
    simp only [Pins.settle, Pins.line, high, hhear, hlisten]
    rfl
  rw [Pins.write, hfirst, settle_high (by decide)]

/-- SDA is released while SCL is high, and the slave holds it low. -/
theorem write_stuck (hw : scl w = true) (hlow : (line fight w (c.sda mem)).sda = false) (hheld : c.sda mem = false) :
    (high fight mem w started c m ss).write fight mem i2cScl = high fight mem i2cScl started c m ss := by
  have hdown : (line fight i2cScl false).sda = false := I2cMaster.sda_released (by decide) false
  have hsame : line fight w (c.sda mem) = line fight i2cScl (c.sda mem) := by
    refine level_ext hw ?_
    rw [hlow, hheld, hdown]
  have heq : ({ high fight mem w started c m ss with w := i2cScl } : Pins) = high fight mem i2cScl started c m ss := by
    simp only [high, hsame]
  rw [Pins.write, heq, settle_high (by decide), settle_high (by decide)]

end Write

/-! ## Bits -/

section Bits

variable {w : BitVec 8} {started : Bool} {c : Chip} {ss : List Symbol}

/-- The slave over one clock, with SDA at `sda`. -/
def Chip.clock (sda : Bool) (c : Chip) : Chip := (c.rise sda).fall

/-- A bit of the slave. -/
theorem readBit_low (hw : scl w = false) : i2cReadBit (port fight mem) (low fight mem w started c ss) =
    (if c.sda mem then 1 else 0, low fight mem 0 started (c.clock (c.sda mem)) (ss ++ [.bit (c.sda mem)])) := by
  have hsda (x : Bool) : (line fight 0 x).sda = x := I2cMaster.sda_released (by decide) x
  have hsda' (x : Bool) : (line fight i2cScl x).sda = x := I2cMaster.sda_released (by decide) x
  have h0 : scl 0 = false := by decide
  have h1 : scl i2cScl = true := by decide
  have hup : (low fight mem 0 started c ss).write fight mem i2cScl =
      high fight mem i2cScl started (c.rise (c.sda mem)) false ss := by
    rw [write_rise h0 h1 (by rw [hsda, hsda']), hsda]
  have hdown : (high fight mem i2cScl started (c.rise (c.sda mem)) false ss).write fight mem 0 =
      low fight mem 0 started (c.clock (c.sda mem)) (ss ++ [.bit (c.sda mem)]) := by
    rw [write_fall h1 h0 (by rw [hsda, hsda']), hsda', sda_rise]
    rfl
  have hread : (port fight mem).rRead (high fight mem i2cScl started (c.rise (c.sda mem)) false ss) =
      if c.sda mem then 1 else 0 := by
    show (if (line fight i2cScl ((c.rise (c.sda mem)).sda mem)).sda then (1 : BitVec 8) else 0) = _
    rw [hsda', sda_rise]
  unfold i2cReadBit
  simp only [port] at hread ⊢
  rw [write_low hw h0, hup, hread, hdown]
  cases c.sda mem <;> rfl

/-- A bit of the master, with the slave off SDA. -/
theorem writeBit_low (hw : scl w = false) (bit : BitVec 32) (hfree : bit = 0 ∨ c.sda mem = true) :
    i2cWriteBit (port fight mem) bit (low fight mem w started c ss) =
      low fight mem (I2cMaster.driven bit) started (c.clock (bit ≠ 0)) (ss ++ [.bit (bit ≠ 0)]) := by
  obtain ⟨hscl, hoe, hout, hscl', hoe', hout', hdown⟩ := I2cMaster.driven_cases bit
  have hsda : (line fight (I2cMaster.driven bit) (c.sda mem)).sda = decide (bit ≠ 0) := by
    rcases hfree with rfl | hfree
    · exact I2cMaster.sda_drivenLow hoe (by rw [hout]; rfl) _
    · rw [hfree, I2cMaster.sda_driven hoe, hout]
  have hsame (x : Bool) : (line fight (I2cMaster.driven bit ||| i2cScl) x).sda =
      (line fight (I2cMaster.driven bit) x).sda :=
    I2cMaster.sda_congr (hoe'.trans hoe.symm) (hout'.trans hout.symm) x
  have hfirst : (if bit ≠ 0 then (low fight mem w started c ss).write fight mem (i2cSdaoe ||| i2cSdaout)
      else (low fight mem w started c ss).write fight mem i2cSdaoe) =
      low fight mem (I2cMaster.driven bit) started c ss := by
    have hwrite : (low fight mem w started c ss).write fight mem (I2cMaster.driven bit) =
        low fight mem (I2cMaster.driven bit) started c ss := write_low hw hscl
    rw [← hwrite]
    unfold I2cMaster.driven
    split <;> rfl
  unfold i2cWriteBit
  simp only [port]
  rw [hfirst]
  show ((low fight mem (I2cMaster.driven bit) started c ss).write fight mem (I2cMaster.driven bit ||| i2cScl)).write
    fight mem (((low fight mem (I2cMaster.driven bit) started c ss).write fight mem (I2cMaster.driven bit ||| i2cScl)).w &&&
      ~~~i2cScl) = _
  rw [write_rise hscl hscl' (hsame _), hsda]
  show (high fight mem (I2cMaster.driven bit ||| i2cScl) started (c.rise (bit ≠ 0)) false ss).write fight mem
    ((I2cMaster.driven bit ||| i2cScl) &&& ~~~i2cScl) = _
  rw [hdown, write_fall hscl' hscl (hsame _).symm, hsame, sda_rise, hsda]
  rfl

end Bits

/-! ## Bytes -/

variable (fight mem)

/-- Between two routines of a transfer. -/
def Held (c : Chip) (s : Pins) : Prop := ∃ w ss, scl w = false ∧ s = low fight mem w true c ss

/-- After a byte that the master has read, and acknowledged or not. -/
def HeldAfter (nack : Bool) (c : Chip) (s : Pins) : Prop :=
  ∃ w ss, scl w = false ∧ s = low fight mem w true c (ss ++ [.bit nack])

variable {fight mem}

theorem HeldAfter.held {nack : Bool} {c : Chip} {s : Pins} (h : HeldAfter fight mem nack c s) : Held fight mem c s := by
  obtain ⟨w, ss, hw, rfl⟩ := h
  exact ⟨w, _, hw, rfl⟩

section Bytes

variable {dest : Dest} {p : Nat} {s : Pins}

theorem fall_take {n : Nat} (hn : n < 8) (byte : BitVec 8) :
    Chip.fall ⟨.take dest n byte, p⟩ = ⟨.take dest n byte, p⟩ := by
  interval_cases n <;> rfl

/-- The slave has the bits that are out of the master's byte. -/
theorem shiftIn_sent : ∀ n < 8, ∀ byte : BitVec 8,
    I2cMaster.shiftIn (byte >>> (n + 1)) (((byte <<< (7 - n) &&& 0x80).setWidth 32 : BitVec 32) ≠ 0) = byte >>> n := by
  decide +kernel

/-- The master has the bits that are out of the slave's byte. -/
theorem shiftIn_given : ∀ n < 8, ∀ byte : BitVec 8,
    I2cMaster.shiftIn (byte >>> (n + 1)) (byte.getMsbD (7 - n)) = byte >>> n := by
  decide +kernel

theorem ushiftRight_eight : ∀ byte : BitVec 8, byte >>> (7 + 1) = 0 := by
  decide +kernel

/-- A bit of a byte that the master writes. -/
theorem clock_take (byte : BitVec 8) {n : Nat} (hn : n < 8) :
    (⟨.take dest (7 - n) (byte >>> (n + 1)), p⟩ : Chip).clock
        (((byte <<< (7 - n) &&& 0x80).setWidth 32 : BitVec 32) ≠ 0) =
      Chip.fall ⟨.take dest (8 - n) (byte >>> n), p⟩ := by
  have hcount : 7 - n + 1 = 8 - n := by omega
  rw [← shiftIn_sent n hn byte, ← hcount]
  rfl

/-- The last `n + 1` bits of a byte that the master writes. -/
theorem writeLoop_held (byte : BitVec 8) : ∀ (n : Nat) {s : Pins}, n < 8 →
    Held fight mem ⟨.take dest (7 - n) (byte >>> (n + 1)), p⟩ s →
      Held fight mem (Chip.fall ⟨.take dest 8 byte, p⟩) (writeLoop (port fight mem) (n + 1) (byte <<< (7 - n)) s) := by
  intro n
  induction n with
  | zero =>
    rintro s hn ⟨w, ss, hw, rfl⟩
    rw [writeLoop, writeLoop, writeBit_low hw _ (.inr rfl), clock_take byte hn]
    exact ⟨_, _, (I2cMaster.driven_cases _).1, rfl⟩
  | succ n ih =>
    rintro s hn ⟨w, ss, hw, rfl⟩
    have hshift : byte <<< (7 - (n + 1)) <<< 1 = byte <<< (7 - n) := by
      rw [← BitVec.shiftLeft_add]
      congr 1
      omega
    have hcount : 8 - (n + 1) = 7 - n := by omega
    have hlt : 7 - n < 8 := by omega
    rw [writeLoop, writeBit_low hw _ (.inr rfl), clock_take byte hn, hshift, hcount, fall_take hlt]
    exact ih (by omega) ⟨_, _, (I2cMaster.driven_cases _).1, rfl⟩

/-- A byte that the slave takes is acknowledged. -/
theorem write_held (byte : BitVec 8) (hmine : dest = .word ∨ byte.extractLsb' 1 7 = slaveAddress)
    (h : Held fight mem ⟨.take dest 0 0, p⟩ s) :
    Held fight mem (Chip.fall ⟨.ack dest byte, p⟩) (i2cWrite (port fight mem) byte s).2 := by
  have hack : Chip.fall ⟨.take dest 8 byte, p⟩ = ⟨.ack dest byte, p⟩ := by
    refine if_neg ?_
    rintro ⟨rfl, hother⟩
    rcases hmine with hword | hmine
    · cases hword
    · exact hother hmine
  rw [← ushiftRight_eight byte] at h
  have hloop := writeLoop_held byte 7 (by decide) h
  rw [hack, Nat.sub_self, BitVec.shiftLeft_zero] at hloop
  obtain ⟨w, ss, hw, heq⟩ := hloop
  rw [i2cWrite_eq, heq, readBit_low hw]
  exact ⟨_, _, by decide, rfl⟩

theorem shiftIn_eq (byte : BitVec 8) (b : Bool) :
    byte <<< 1 ||| (if b then 1 else 0 : BitVec 32).setWidth 8 = I2cMaster.shiftIn byte b := by
  cases b <;> rfl

/-- A bit of a byte that the master reads. -/
theorem readLoop_step {n : Nat} (hn : n < 8) (h : Held fight mem ⟨.give (7 - n), p⟩ s) :
    ∃ t, Held fight mem (Chip.fall ⟨.give (7 - n), p⟩) t ∧
      readLoop (port fight mem) (n + 1) (mem p >>> (n + 1)) s = readLoop (port fight mem) n (mem p >>> n) t := by
  obtain ⟨w, ss, hw, rfl⟩ := h
  refine ⟨low fight mem 0 true (Chip.fall ⟨.give (7 - n), p⟩) (ss ++ [.bit ((mem p).getMsbD (7 - n))]),
    ⟨0, _, by decide, rfl⟩, ?_⟩
  rw [readLoop, readBit_low hw]
  show readLoop (port fight mem) n (mem p >>> (n + 1) <<< 1 |||
    (if (mem p).getMsbD (7 - n) then 1 else 0 : BitVec 32).setWidth 8) _ = _
  rw [shiftIn_eq, shiftIn_given n hn]
  rfl

/-- The last `n + 1` bits of a byte that the master reads. -/
theorem readLoop_held : ∀ (n : Nat) {s : Pins}, n < 8 → Held fight mem ⟨.give (7 - n), p⟩ s →
    (readLoop (port fight mem) (n + 1) (mem p >>> (n + 1)) s).1 = mem p ∧
      Held fight mem ⟨.hark, p⟩ (readLoop (port fight mem) (n + 1) (mem p >>> (n + 1)) s).2 := by
  intro n
  induction n with
  | zero =>
    intro s hn h
    obtain ⟨t, ht, heq⟩ := readLoop_step hn h
    rw [heq]
    exact ⟨rfl, ht⟩
  | succ n ih =>
    intro s hn h
    obtain ⟨t, ht, heq⟩ := readLoop_step hn h
    have hfall : Chip.fall ⟨.give (7 - (n + 1)), p⟩ = ⟨.give (7 - n), p⟩ := by
      have hcount : 7 - (n + 1) + 1 = 7 - n := by omega
      have hnot : ¬ 7 - (n + 1) = 7 := by omega
      simp only [Chip.fall, if_neg hnot, hcount]
    rw [hfall] at ht
    rw [heq]
    exact ih (by omega) ht

/-- **A byte read**: what the slave does next is up to the ninth bit. -/
theorem read_held (ack : BitVec 32) (h : Held fight mem ⟨.give 0, p⟩ s) :
    (i2cRead (port fight mem) ack s).1 = mem p ∧
      HeldAfter fight mem (ack = 0) (if ack = 0 then ⟨.idle, p⟩ else ⟨.give 0, p + 1⟩)
        (i2cRead (port fight mem) ack s).2 := by
  obtain ⟨hbyte, w, ss, hw, heq⟩ := readLoop_held 7 (by decide) h
  rw [ushiftRight_eight] at hbyte heq
  rw [i2cRead_eq]
  refine ⟨hbyte, ?_⟩
  rw [heq, writeBit_low hw _ (.inr rfl)]
  by_cases hack : ack = 0
  · rw [if_pos hack, if_pos hack, decide_eq_true hack]
    exact ⟨_, ss, (I2cMaster.driven_cases 1).1, rfl⟩
  · rw [if_neg hack, if_neg hack, decide_eq_false hack]
    exact ⟨_, ss, (I2cMaster.driven_cases 0).1, rfl⟩

end Bytes

/-! ## Starts and stops -/

variable (fight mem)

/-- The bus is free for a read. -/
def Free (s : Pins) : Prop := ∃ p m ss, s = high fight mem i2cScl false ⟨.idle, p⟩ m ss

variable {fight mem}

section Ends

variable {w : BitVec 8} {started m nack : Bool} {c : Chip} {ss : List Symbol} {p : Nat} {s : Pins}

/-- SDA falls and then SCL. -/
theorem start_high (hw : scl w = true) (hhigh : (line fight w (c.sda mem)).sda = true) :
    Held fight mem ⟨.take .control 0 0, c.pointer⟩ ((port fight mem).setStarted true
      (((high fight mem w started c m ss).write fight mem (i2cSdaoe ||| i2cScl)).write fight mem i2cSdaoe)) := by
  have hlow (x : Bool) : (line fight (i2cSdaoe ||| i2cScl) x).sda = false :=
    I2cMaster.sda_drivenLow (by decide) (by decide) x
  have hlow' (x : Bool) : (line fight i2cSdaoe x).sda = false := I2cMaster.sda_drivenLow (by decide) (by decide) x
  rw [write_start hw (by decide) hhigh hlow, write_fall (by decide) (by decide) (by rw [hlow, hlow'])]
  exact ⟨i2cSdaoe, ss ++ [.start], by decide, rfl⟩

theorem start_free (h : Free fight mem s) :
    ∃ p, Held fight mem ⟨.take .control 0 0, p⟩ (i2cStartCond (port fight mem) s) := by
  obtain ⟨p, m, ss, rfl⟩ := h
  rw [i2cStartCond_first (port fight mem) rfl]
  exact ⟨p, start_high (c := ⟨.idle, p⟩) (by decide) (I2cMaster.sda_released (by decide) true)⟩

/-- A repeated start. -/
theorem start_held (h : Held fight mem ⟨.idle, p⟩ s) :
    Held fight mem ⟨.take .control 0 0, p⟩ (i2cStartCond (port fight mem) s) := by
  obtain ⟨w, ss, hw, rfl⟩ := h
  have hhigh (v : BitVec 8) (hoe : sdaOe v = true) (hout : sdaOut v = true) : (line fight v true).sda = true := by
    rw [I2cMaster.sda_driven hoe, hout]
  have hdriven := hhigh (i2cSdaoe ||| i2cSdaout) (by decide) (by decide)
  have hdriven' := hhigh (i2cSdaoe ||| i2cSdaout ||| i2cScl) (by decide) (by decide)
  have hlow : (port fight mem).wWrite (i2cSdaoe ||| i2cSdaout) (low fight mem w true ⟨.idle, p⟩ ss) =
      low fight mem (i2cSdaoe ||| i2cSdaout) true ⟨.idle, p⟩ ss := write_low hw (by decide)
  have hup : (port fight mem).wWrite (i2cSdaoe ||| i2cSdaout ||| i2cScl)
      (low fight mem (i2cSdaoe ||| i2cSdaout) true ⟨.idle, p⟩ ss) =
        high fight mem (i2cSdaoe ||| i2cSdaout ||| i2cScl) true ⟨.idle, p⟩ false ss :=
    write_rise (by decide) (by decide) (hdriven'.trans hdriven.symm)
  rw [i2cStartCond_again (port fight mem) rfl hlow hup]
  exact start_high (c := ⟨.idle, p⟩) (by decide) hdriven'

/-- The bus after a stop. -/
theorem stop_high (h : HeldAfter fight mem nack c s) (hsame : c.rise false = c) :
    ∃ ss, i2cStopCond (port fight mem) s =
      if c.sda mem then high fight mem i2cScl false { c with phase := .idle } true (ss ++ [.bit nack, .stop])
      else high fight mem i2cScl false c false (ss ++ [.bit nack]) := by
  obtain ⟨w, ss, hw, rfl⟩ := h
  have hlow (x : Bool) : (line fight (i2cSdaoe ||| i2cScl) x).sda = false :=
    I2cMaster.sda_drivenLow (by decide) (by decide) x
  have hlow' (x : Bool) : (line fight i2cSdaoe x).sda = false := I2cMaster.sda_drivenLow (by decide) (by decide) x
  have hup : ((low fight mem w true c (ss ++ [.bit nack])).write fight mem i2cSdaoe).write fight mem
      (i2cSdaoe ||| i2cScl) =
      high fight mem (i2cSdaoe ||| i2cScl) true c false (ss ++ [.bit nack]) := by
    rw [write_low hw (by decide), write_rise (by decide) (by decide) (by rw [hlow, hlow']), hlow', hsame]
  refine ⟨ss, ?_⟩
  rw [i2cStopCond_eq]
  simp only [port]
  rw [hup]
  cases hsda : c.sda mem with
  | true =>
    rw [write_stop (by decide) (hlow _) hsda, if_pos rfl, List.append_assoc]
    rfl
  | false =>
    rw [write_stuck (by decide) (hlow _) hsda, if_neg Bool.false_ne_true]
    rfl

/-- The address phase leaves the first bit of the first byte on SDA. -/
theorem address_free (addr : BitVec 8) (h : Free fight mem s) :
    Held fight mem ⟨.give 0, addr.toNat⟩ (address (port fight mem) addr s) := by
  obtain ⟨p, hstart⟩ := start_free h
  have hcontrol := write_held 0xa0 (.inr (by decide)) hstart
  have hword := write_held addr (.inl rfl) hcontrol
  have hrestart := start_held hword
  exact write_held 0xa1 (.inr (by decide)) hrestart

end Ends

/-! ## The drivers -/

/-- What the slave does after a byte that the master has read. -/
def after (nack : Bool) (p : Nat) : Chip := if nack then ⟨.idle, p⟩ else ⟨.give 0, p + 1⟩

/-- The sum of `n` bytes from an address on. -/
def sumFrom (mem : Nat → BitVec 8) : Nat → Nat → BitVec 8
  | _, 0     => 0
  | p, n + 1 => mem p + sumFrom mem (p + 1) n

theorem sumFrom_next {mem : Nat → BitVec 8} {p q n : Nat} (h : p + 1 = q) :
    mem p + sumFrom mem q n = sumFrom mem p (n + 1) := by
  rw [← h, sumFrom]

theorem sumFrom_one (mem : Nat → BitVec 8) (p : Nat) : sumFrom mem p 1 = mem p := BitVec.add_zero _

def blockSum (mem : Nat → BitVec 8) (block : Nat) : BitVec 8 := sumFrom mem (128 * block) 128

/-- The number of extension blocks. -/
def extensions (mem : Nat → BitVec 8) : Nat := (mem 126).toNat

/-- The block at which a read of block `block` and `n` more ends: the first whose sum is not 0, or the last. -/
def endBlock (mem : Nat → BitVec 8) : Nat → Nat → Nat
  | 0, block     => block
  | n + 1, block => if blockSum mem block ≠ 0 then block else endBlock mem n (block + 1)

/-- A read comes to the last block exactly when the sums before it are 0. -/
theorem endBlock_last (mem : Nat → BitVec 8) : ∀ n block : Nat,
    endBlock mem n block = block + n ↔ ∀ i < n, blockSum mem (block + i) = 0
  | 0, block     => by simp [endBlock]
  | n + 1, block => by
    have hrest := endBlock_last mem n (block + 1)
    have hend : block + 1 + n = block + (n + 1) := by omega
    rw [hend] at hrest
    rw [endBlock]
    split
    next hsum =>
      constructor
      · intro h
        omega
      · intro h
        exact absurd (h 0 (by omega)) hsum
    next hsum =>
      rw [hrest]
      constructor
      · intro h i hi
        cases i with
        | zero   => exact Decidable.not_not.1 hsum
        | succ i =>
          rw [Nat.add_comm i 1, ← Nat.add_assoc]
          exact h i (by omega)
      · intro h i hi
        have hnext := h (i + 1) (by omega)
        rwa [Nat.add_comm i 1, ← Nat.add_assoc] at hnext

section Drivers

variable {p : Nat} {s : Pins}

theorem read_after (ack : BitVec 32) (nack : Bool) (hack : decide (ack = 0) = nack)
    (h : Held fight mem ⟨.give 0, p⟩ s) :
    ∃ t, HeldAfter fight mem nack (after nack p) t ∧ i2cRead (port fight mem) ack s = (mem p, t) := by
  obtain ⟨hbyte, hafter⟩ := read_held ack h
  subst hack
  refine ⟨(i2cRead (port fight mem) ack s).2, ?_, Prod.ext hbyte rfl⟩
  unfold after
  simpa using hafter

theorem readAcked_held : ∀ (n : Nat) {p : Nat} {s : Pins}, Held fight mem ⟨.give 0, p⟩ s →
    ∃ t, HeldAfter fight mem false (after false (p + n)) t ∧
      readAcked (port fight mem) (n + 1) s = ((List.range' p (n + 1)).map mem, t)
  | 0, p, s, h => by
    obtain ⟨t, ht, heq⟩ := read_after 1 false rfl h
    refine ⟨t, ht, ?_⟩
    rw [readAcked, heq]
    rfl
  | n + 1, p, s, h => by
    obtain ⟨t, ht, heq⟩ := read_after 1 false rfl h
    obtain ⟨u, hu, heq'⟩ := readAcked_held n ht.held
    have hend : p + 1 + n = p + (n + 1) := by omega
    rw [hend] at hu
    refine ⟨u, hu, ?_⟩
    rw [readAcked, heq]
    simp only [heq']
    rfl

theorem block0Loop_succ {i2c : I2C Pins} {n : Nat} {sum extensionNumber b : BitVec 8} {s t : Pins}
    (h : i2cRead i2c (if 127 - n = 127 ∧ extensionNumber = 0 then 0 else 1) s = (b, t)) :
    block0Loop i2c (n + 1) sum extensionNumber s =
      if 127 - n = 127 ∧ sum + b ≠ 0 then .error (i2cStopCond i2c t)
      else block0Loop i2c n (sum + b) (if 127 - n = 126 then b else extensionNumber) t := by
  rw [block0Loop, h]

/-- The rest of block 0. -/
theorem block0Loop_held : ∀ (n : Nat) (sum extensionNumber : BitVec 8) {s : Pins}, n < 128 →
    (n = 0 → extensionNumber = mem 126) → Held fight mem ⟨.give 0, 127 - n⟩ s →
      ∃ t, HeldAfter fight mem (mem 126 = 0) (after (mem 126 = 0) 127) t ∧
        block0Loop (port fight mem) (n + 1) sum extensionNumber s =
          if sum + sumFrom mem (127 - n) (n + 1) ≠ 0 then .error (i2cStopCond (port fight mem) t) else .ok (mem 126, t)
  | 0, sum, extensionNumber, s, _, hext, h => by
    obtain rfl := hext rfl
    obtain ⟨t, ht, hread⟩ := read_after (if 127 - 0 = 127 ∧ mem 126 = 0 then 0 else 1) (mem 126 = 0)
      (by by_cases h0 : mem 126 = 0 <;> simp [h0]) h
    refine ⟨t, ht, ?_⟩
    rw [block0Loop_succ hread]
    simp only [Nat.sub_zero, true_and, Nat.zero_add, sumFrom_one]
    rfl
  | n + 1, sum, extensionNumber, s, hn, _, h => by
    have hnot : ¬ 127 - (n + 1) = 127 := by omega
    have hnext : 127 - (n + 1) + 1 = 127 - n := by omega
    obtain ⟨u, hu, hread⟩ := read_after (if 127 - (n + 1) = 127 ∧ extensionNumber = 0 then 0 else 1) false
      (by rw [if_neg fun h => hnot h.1]; rfl) h
    have hheld := hu.held
    rw [after, if_neg Bool.false_ne_true, hnext] at hheld
    obtain ⟨t, ht, heq⟩ := block0Loop_held n (sum + mem (127 - (n + 1)))
      (if 127 - (n + 1) = 126 then mem (127 - (n + 1)) else extensionNumber) (by omega)
      (by rintro rfl; rfl) hheld
    refine ⟨t, ht, ?_⟩
    rw [block0Loop_succ hread, if_neg fun h => hnot h.1, heq, BitVec.add_assoc, sumFrom_next hnext]

theorem extensionLoop_succ {i2c : I2C Pins} {e extensionNumber n : Nat} {sum b : BitVec 8} {s t : Pins}
    (h : i2cRead i2c (if 127 - n = 127 ∧ e = extensionNumber - 1 then 0 else 1) s = (b, t)) :
    extensionLoop i2c e extensionNumber (n + 1) sum s =
      if 127 - n = 127 ∧ sum + b ≠ 0 then .error (i2cStopCond i2c t)
      else extensionLoop i2c e extensionNumber n (sum + b) t := by
  rw [extensionLoop, h]

/-- The rest of an extension block that begins at `base`. -/
theorem extensionLoop_held (e extensionNumber base : Nat) : ∀ (n : Nat) (sum : BitVec 8) {s : Pins}, n < 128 →
    Held fight mem ⟨.give 0, base + (127 - n)⟩ s →
      ∃ t, HeldAfter fight mem (e = extensionNumber - 1) (after (e = extensionNumber - 1) (base + 127)) t ∧
        extensionLoop (port fight mem) e extensionNumber (n + 1) sum s =
          if sum + sumFrom mem (base + (127 - n)) (n + 1) ≠ 0 then .error (i2cStopCond (port fight mem) t) else .ok t
  | 0, sum, s, _, h => by
    obtain ⟨t, ht, hread⟩ := read_after (if 127 - 0 = 127 ∧ e = extensionNumber - 1 then 0 else 1)
      (e = extensionNumber - 1) (by by_cases h0 : e = extensionNumber - 1 <;> simp [h0]) h
    refine ⟨t, ht, ?_⟩
    rw [extensionLoop_succ hread]
    simp only [Nat.sub_zero, true_and, Nat.zero_add, sumFrom_one]
    rfl
  | n + 1, sum, s, hn, h => by
    have hnot : ¬ 127 - (n + 1) = 127 := by omega
    have hnext : base + (127 - (n + 1)) + 1 = base + (127 - n) := by omega
    obtain ⟨u, hu, hread⟩ := read_after (if 127 - (n + 1) = 127 ∧ e = extensionNumber - 1 then 0 else 1) false
      (by rw [if_neg fun h => hnot h.1]; rfl) h
    have hheld := hu.held
    rw [after, if_neg Bool.false_ne_true, hnext] at hheld
    obtain ⟨t, ht, heq⟩ := extensionLoop_held e extensionNumber base n (sum + mem (base + (127 - (n + 1))))
      (by omega) hheld
    refine ⟨t, ht, ?_⟩
    rw [extensionLoop_succ hread, if_neg fun h => hnot h.1, heq, BitVec.add_assoc, sumFrom_next hnext]

theorem block0_held (h : Held fight mem ⟨.give 0, 0⟩ s) :
    ∃ t, HeldAfter fight mem (mem 126 = 0) (after (mem 126 = 0) 127) t ∧
      block0Loop (port fight mem) 128 0 0 s =
        if blockSum mem 0 ≠ 0 then .error (i2cStopCond (port fight mem) t) else .ok (mem 126, t) := by
  obtain ⟨t, ht, heq⟩ := block0Loop_held 127 0 0 (by decide) (by intro h; cases h) h
  have hsum (x : BitVec 8) : 0 + x = x := BitVec.zero_add x
  rw [hsum] at heq
  exact ⟨t, ht, heq⟩

theorem extension_held {e : Nat} (extensionNumber : Nat) (h : Held fight mem ⟨.give 0, 128 * (e + 1)⟩ s) :
    ∃ t, HeldAfter fight mem (e = extensionNumber - 1) (after (e = extensionNumber - 1) (128 * (e + 1) + 127)) t ∧
      extensionLoop (port fight mem) e extensionNumber 128 0 s =
        if blockSum mem (e + 1) ≠ 0 then .error (i2cStopCond (port fight mem) t) else .ok t := by
  obtain ⟨t, ht, heq⟩ := extensionLoop_held e extensionNumber (128 * (e + 1)) 127 0 (by decide) h
  have hsum (x : BitVec 8) : 0 + x = x := BitVec.zero_add x
  rw [hsum] at heq
  exact ⟨t, ht, heq⟩

/-- The extension blocks from `e` on, `n + 1` of them; the stop is that of the driver or of the checksum. -/
theorem extensionsLoop_held {extensionNumber : Nat} : ∀ (n : Nat) {e : Nat} {s : Pins}, e + (n + 1) = extensionNumber →
    Held fight mem ⟨.give 0, 128 * (e + 1)⟩ s →
      ∃ t, HeldAfter fight mem (endBlock mem n (e + 1) = extensionNumber)
          (after (endBlock mem n (e + 1) = extensionNumber) (128 * endBlock mem n (e + 1) + 127)) t ∧
        (extensionsLoop (port fight mem) extensionNumber (n + 1) e s = .error (i2cStopCond (port fight mem) t) ∨
          extensionsLoop (port fight mem) extensionNumber (n + 1) e s = .ok t)
  | 0, e, s, he, h => by
    obtain ⟨t, ht, heq⟩ := extension_held extensionNumber h
    have hlast : (e = extensionNumber - 1) = (endBlock mem 0 (e + 1) = extensionNumber) :=
      propext ⟨fun _ => he, fun _ => by omega⟩
    simp only [hlast] at ht
    refine ⟨t, ht, ?_⟩
    split at heq
    next => exact .inl (extensionsLoop_error heq)
    next => exact .inr (extensionsLoop_ok heq)
  | n + 1, e, s, he, h => by
    obtain ⟨t, ht, heq⟩ := extension_held extensionNumber h
    have hnot : ¬ e = extensionNumber - 1 := by omega
    simp only [hnot, decide_false] at ht
    rw [endBlock]
    split at heq
    next hbad =>
      have hother : ¬ e + 1 = extensionNumber := by omega
      simp only [if_pos hbad, hother, decide_false]
      exact ⟨t, ht, .inl (extensionsLoop_error heq)⟩
    next hgood =>
      have hnext : 128 * (e + 1) + 127 + 1 = 128 * (e + 1 + 1) := by omega
      have hheld := ht.held
      rw [after, if_neg Bool.false_ne_true, hnext] at hheld
      have hcount : e + 1 + (n + 1) = extensionNumber := by omega
      obtain ⟨u, hu, hloop⟩ := extensionsLoop_held n hcount hheld
      rw [if_neg hgood, extensionsLoop_ok heq]
      exact ⟨u, hu, hloop⟩

/-- `hdmi_out0_print_edid` reads through `endBlock`, and there is a stop on every way out. -/
theorem printEdid_free (h : Free fight mem s) :
    ∃ t, HeldAfter fight mem (endBlock mem (extensions mem) 0 = extensions mem)
        (after (endBlock mem (extensions mem) 0 = extensions mem) (128 * endBlock mem (extensions mem) 0 + 127)) t ∧
      hdmiOut0PrintEdid (port fight mem) s = i2cStopCond (port fight mem) t := by
  obtain ⟨t, ht, heq⟩ := block0_held (address_free 0x00 h)
  have hzero : (mem 126 = 0) = ((mem 126).toNat = 0) :=
    propext ⟨fun h => congrArg BitVec.toNat h, fun h => BitVec.eq_of_toNat_eq h⟩
  simp only [hzero] at ht
  rw [extensions]
  generalize hn : (mem 126).toNat = n at ht
  cases n with
  | zero =>
    refine ⟨t, ht, ?_⟩
    split at heq
    next => exact hdmiOut0PrintEdid_block0 heq
    next => exact hdmiOut0PrintEdid_end heq (by rw [hn]; rfl)
  | succ n =>
    rw [endBlock]
    split at heq
    next hbad =>
      rw [if_pos hbad]
      exact ⟨t, ht, hdmiOut0PrintEdid_block0 heq⟩
    next hgood =>
      obtain ⟨u, hu, hloop⟩ := extensionsLoop_held n (Nat.zero_add _) ht.held
      rw [if_neg hgood]
      refine ⟨u, hu, ?_⟩
      rcases hloop with hloop | hloop
      · exact hdmiOut0PrintEdid_extension heq (by rw [hn]; exact hloop)
      · exact hdmiOut0PrintEdid_end heq (by rw [hn]; exact hloop)

end Drivers

/-! ## Calls -/

inductive Call
  | hdmiOut0PrintEdid
  | opsisEepromDump
  | opsisEepromMac
  | tofeEepromDump
deriving DecidableEq

/-- The address of the last byte that a call reads. -/
def Call.last (mem : Nat → BitVec 8) : Call → Nat
  | .hdmiOut0PrintEdid => 128 * endBlock mem (extensions mem) 0 + 127
  | _                  => 255

/-- The calls that do not acknowledge their last byte. -/
def Call.Nacks (mem : Nat → BitVec 8) : Call → Prop
  | .hdmiOut0PrintEdid => ∀ block < extensions mem, blockSum mem block = 0
  | _                  => False

/-- The slave would leave SDA high after the last byte. -/
def Call.Releases (mem : Nat → BitVec 8) (c : Call) : Prop := c.Nacks mem ∨ (mem (c.last mem + 1)).getMsbD 0

variable (fight mem)

def Pins.unheard (s : Pins) : Pins := { s with listener := { s.listener with symbols := [] } }

/-- A call, heard from its beginning. -/
def perform (s : Pins) : Call → Pins
  | .hdmiOut0PrintEdid => hdmiOut0PrintEdid (port fight mem) s.unheard
  | .opsisEepromDump   => opsisEepromDump (port fight mem) s.unheard
  | .opsisEepromMac    => (opsisEepromMac (port fight mem) s.unheard).2
  | .tofeEepromDump    => tofeEepromDump (port fight mem) s.unheard

/-- The register at its reset value, and the slave's pointer anywhere. -/
def powerOn (p : Nat) : Pins := { w := i2cScl, started := false, chip := ⟨.idle, p⟩, listener := .idle }

structure Idle (s : Pins) : Prop where
  lines    : s.line fight mem = ⟨true, true⟩
  released : sdaOe s.w = false
  waits    : s.chip.phase = .idle

/-- A call from an idle bus ends with a stop and leaves the bus idle. -/
structure Stops (s : Pins) (c : Call) : Prop where
  start : Idle fight mem s
  idle  : Idle fight mem (perform fight mem s c)
  stop  : ∃ ss, (perform fight mem s c).listener.symbols = ss ++ [.stop]

/-- And the byte before the stop is not acknowledged. -/
structure Clean (s : Pins) (c : Call) : Prop extends Stops fight mem s c where
  nack : ∃ ss, (perform fight mem s c).listener.symbols = ss ++ [.bit true, .stop]

variable {fight mem}

section Calls

variable {p : Nat} {s : Pins} {c : Call}

theorem free_powerOn (p : Nat) : Free fight mem (powerOn p) := ⟨p, false, [], rfl⟩

theorem Free.idle (h : Free fight mem s) : Idle fight mem s := by
  obtain ⟨p, m, ss, rfl⟩ := h
  have hscl : scl i2cScl = true := by decide
  have hsda : (line fight i2cScl true).sda = true := I2cMaster.sda_released (by decide) true
  have hlines : line fight i2cScl true = ⟨true, true⟩ := level_ext hscl hsda
  exact ⟨hlines, (by decide : sdaOe i2cScl = false), rfl⟩

theorem Free.unheard (h : Free fight mem s) : Free fight mem s.unheard := by
  obtain ⟨p, m, ss, rfl⟩ := h
  exact ⟨p, m, [], rfl⟩

theorem Free.init (h : Free fight mem s) : Free fight mem (i2cInit (port fight mem) s).2 := by
  obtain ⟨p, m, ss, rfl⟩ := h
  have hw : scl i2cScl = true := by decide
  have hsame : (high fight mem i2cScl false ⟨.idle, p⟩ m ss).write fight mem i2cScl =
      high fight mem i2cScl false ⟨.idle, p⟩ m ss := by
    show ((high fight mem i2cScl false ⟨.idle, p⟩ m ss).settle fight mem).settle fight mem = _
    rw [settle_high hw, settle_high hw]
  exact ⟨p, m, ss, hsame⟩

theorem nacks_printEdid : Call.Nacks mem .hdmiOut0PrintEdid ↔ endBlock mem (extensions mem) 0 = extensions mem := by
  have hlast := endBlock_last mem (extensions mem) 0
  simp only [Nat.zero_add] at hlast
  exact hlast.symm

theorem readAcked_free (addr : BitVec 8) (n : Nat) {last : Nat} (hlast : addr.toNat + n = last) (h : Free fight mem s) :
    ∃ t, HeldAfter fight mem false (after false last) t ∧
      (readAcked (port fight mem) (n + 1) (address (port fight mem) addr s)).2 = t := by
  obtain ⟨t, ht, heq⟩ := readAcked_held n (address_free addr h)
  rw [hlast] at ht
  exact ⟨t, ht, by rw [heq]⟩

/-- A call comes to its stop after the last byte. -/
theorem perform_free (h : Free fight mem s) : ∀ c : Call, ∃ nack t, (nack = true ↔ c.Nacks mem) ∧
    HeldAfter fight mem nack (after nack (c.last mem)) t ∧ perform fight mem s c = i2cStopCond (port fight mem) t
  | .hdmiOut0PrintEdid => by
    obtain ⟨t, ht, heq⟩ := printEdid_free h.unheard
    exact ⟨_, t, decide_eq_true_iff.trans nacks_printEdid.symm, ht, heq⟩
  | .opsisEepromDump => by
    obtain ⟨t, ht, heq⟩ := readAcked_free 0 255 rfl h.unheard.init
    exact ⟨false, t, iff_of_false Bool.false_ne_true not_false, ht, congrArg (i2cStopCond (port fight mem)) heq⟩
  | .opsisEepromMac => by
    obtain ⟨t, ht, heq⟩ := readAcked_free eepromMac 5 rfl h.unheard.init
    exact ⟨false, t, iff_of_false Bool.false_ne_true not_false, ht, congrArg (i2cStopCond (port fight mem)) heq⟩
  | .tofeEepromDump => by
    obtain ⟨t, ht, heq⟩ := readAcked_free 0 255 rfl h.unheard
    exact ⟨false, t, iff_of_false Bool.false_ne_true not_false, ht, congrArg (i2cStopCond (port fight mem)) heq⟩

theorem after_rise (nack : Bool) (p : Nat) : (after nack p).rise false = after nack p := by
  cases nack <;> rfl

theorem sda_after (nack : Bool) (p : Nat) : (after nack p).sda mem = (nack || (mem (p + 1)).getMsbD 0) := by
  cases nack <;> rfl

/-- The bus after a call. -/
theorem perform_cases (h : Free fight mem s) (c : Call) :
    (c.Releases mem ∧ Free fight mem (perform fight mem s c) ∧
      ∃ nack ss, (nack = true ↔ c.Nacks mem) ∧ (perform fight mem s c).listener.symbols = ss ++ [.bit nack, .stop]) ∨
    (¬ c.Releases mem ∧ ((perform fight mem s c).line fight mem).sda = false) := by
  obtain ⟨nack, t, hnack, ht, heq⟩ := perform_free h c
  obtain ⟨ss, hstop⟩ := stop_high ht (after_rise nack (c.last mem))
  rw [sda_after] at hstop
  have hreleases : (nack || (mem (c.last mem + 1)).getMsbD 0) = true ↔ c.Releases mem := by
    rw [Bool.or_eq_true, hnack, Call.Releases]
  rw [heq, hstop]
  split
  next hhigh => exact .inl ⟨hreleases.1 hhigh, ⟨_, _, _, rfl⟩, nack, ss, hnack, rfl⟩
  next hlow =>
    refine .inr ⟨fun hr => hlow (hreleases.2 hr), ?_⟩
    show (line fight i2cScl ((after nack (c.last mem)).sda mem)).sda = false
    rw [I2cMaster.sda_released (by decide), sda_after]
    exact Bool.eq_false_iff.2 hlow

theorem free_perform (h : Free fight mem s) (hc : c.Releases mem) : Free fight mem (perform fight mem s c) := by
  rcases perform_cases h c with ⟨-, hfree, -⟩ | ⟨hnot, -⟩
  · exact hfree
  · exact absurd hc hnot

theorem stops_iff (h : Free fight mem s) (c : Call) : Stops fight mem s c ↔ c.Releases mem := by
  rcases perform_cases h c with ⟨hc, hfree, nack, ss, -, hss⟩ | ⟨hnot, hlow⟩
  · refine iff_of_true ⟨h.idle, hfree.idle, ss ++ [.bit nack], ?_⟩ hc
    rw [hss, List.append_assoc]
    rfl
  · refine iff_of_false (fun hs => ?_) hnot
    rw [hs.idle.lines] at hlow
    cases hlow

theorem clean_iff (h : Free fight mem s) (c : Call) : Clean fight mem s c ↔ c.Nacks mem := by
  rcases perform_cases h c with ⟨hc, hfree, nack, ss, hnack, hss⟩ | ⟨hnot, hlow⟩
  · rw [← hnack]
    constructor
    · intro hclean
      obtain ⟨ss', hss'⟩ := hclean.nack
      rw [hss] at hss'
      have hlast := (List.append_inj' hss' rfl).2
      simpa using hlast
    · rintro rfl
      exact ⟨(stops_iff h c).2 hc, ss, hss⟩
  · refine iff_of_false (fun hclean => ?_) fun hn => hnot (.inl hn)
    exact hnot ((stops_iff h c).1 hclean.toStops)

end Calls

/-- **A read ends cleanly exactly when** it is that of an EDID whose blocks before the last all sum to 0: the checksum
exits before the last block, and every read of the Opsis and TOFE memories, stop after a byte that they have
acknowledged.  There the bus is left idle only where the slave's next bit is high. -/
theorem reads_clean_iff (fight : Bool) (mem : Nat → BitVec 8) (p : Nat) (calls : List Call) :
    (AllSteps (perform fight mem) (Clean fight mem) (powerOn p) calls ↔ ∀ c ∈ calls, c.Nacks mem) ∧
      (AllSteps (perform fight mem) (Stops fight mem) (powerOn p) calls ↔ ∀ c ∈ calls, c.Releases mem) := by
  have hfree : Free fight mem (powerOn p) := free_powerOn p
  have hstops (s : Pins) (c : Call) (h : Free fight mem s) (hc : c.Releases mem) :
      Free fight mem (perform fight mem s c) := free_perform h hc
  have hclean (s : Pins) (c : Call) (h : Free fight mem s) (hc : c.Nacks mem) :
      Free fight mem (perform fight mem s c) := free_perform h (.inl hc)
  constructor
  · exact Runs.allSteps_iff_inputs (fun _ c h => clean_iff h c) hclean calls hfree
  · exact Runs.allSteps_iff_inputs (fun _ c h => stops_iff h c) hstops calls hfree

/-- The MAC of a memory of zeros: the slave holds SDA low over the stop. -/
theorem not_clean_opsisEepromMac :
    ¬ AllSteps (perform false fun _ => 0) (Clean false fun _ => 0) (powerOn 0) [.opsisEepromMac] := by
  intro h
  have hlines := h.1.idle.lines
  revert hlines
  decide +kernel

end I2cReads
end Hdmi2Usb
