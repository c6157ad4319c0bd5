import Mathlib.Data.List.Basic
/-!
# I2cBus — the rules of the I2C bus

The two lines of a bus, as their levels one after the other.  SDA changing while SCL is high is a start or a stop; SCL
falling after a high phase without either ends a bit, which is SDA's level.  A step that changes both lines has no
meaning, and is a race.
-/
namespace Hdmi2Usb
namespace I2cBus

structure Level where
  scl : Bool
  sda : Bool
deriving DecidableEq, Repr

inductive Symbol
  | start
  | stop
  | bit (sda : Bool)
  | race
deriving DecidableEq, Repr

/-- What a listener has at a level: whether the high phase had a start or a stop, and the symbols so far. -/
structure Listener where
  level   : Level
  marked  : Bool
  symbols : List Symbol
deriving DecidableEq

def Listener.hear (d : Listener) (l : Level) : Listener :=
  if d.level.scl ≠ l.scl ∧ d.level.sda ≠ l.sda then ⟨l, false, d.symbols ++ [.race]⟩
  else if d.level.scl ∧ l.scl then
    if d.level.sda = l.sda then { d with level := l }
    else ⟨l, true, d.symbols ++ [if l.sda then .stop else .start]⟩
  else if d.level.scl then ⟨l, false, if d.marked then d.symbols else d.symbols ++ [.bit l.sda]⟩
  else ⟨l, false, d.symbols⟩

/-- A listener on an idle bus. -/
def Listener.idle : Listener := ⟨⟨true, true⟩, false, []⟩

def listen (ls : List Level) : Listener := ls.foldl Listener.hear .idle

/-- What a trace of levels says. -/
def decode (ls : List Level) : List Symbol := (listen ls).symbols

theorem listen_concat (ls : List Level) (l : Level) : listen (ls ++ [l]) = (listen ls).hear l := by
  simp [listen]

/-! ## What a listener makes of a level -/

variable {d : Listener} {l : Level}

theorem hear_low (hd : d.level.scl = false) (hl : l.scl = false) : d.hear l = ⟨l, false, d.symbols⟩ := by
  simp [Listener.hear, hd, hl]

theorem hear_rise (hd : d.level.scl = false) (hl : l.scl = true) (h : l.sda = d.level.sda) :
    d.hear l = ⟨l, false, d.symbols⟩ := by
  simp [Listener.hear, hd, hl, h]

theorem hear_fall (hd : d.level.scl = true) (hl : l.scl = false) (h : l.sda = d.level.sda) :
    d.hear l = ⟨l, false, if d.marked then d.symbols else d.symbols ++ [.bit l.sda]⟩ := by
  simp [Listener.hear, hd, hl, h]

theorem hear_swing (hd : d.level.scl = true) (hl : l.scl = true) (h : l.sda ≠ d.level.sda) :
    d.hear l = ⟨l, true, d.symbols ++ [if l.sda then .stop else .start]⟩ := by
  simp [Listener.hear, hd, hl, Ne.symm h]

end I2cBus
end Hdmi2Usb
