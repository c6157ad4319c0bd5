import Hdmi2Usb.I2cBus
import Hdmi2Usb.I2cPort
import Hdmi2Usb.Runs
/-!
# I2cMaster — the bit-banged I2C master (`i2c.c`, `gateware/i2c.py`)

The firmware moves SCL and SDA through the register `w` and reads SDA through `r`.  SCL is always driven; SDA is driven
where the output is enabled and else what the slave makes of it.  The slave may move while SCL is low, and holds still
while it is high.  What the two lines do decodes to the operations called, in their order (`run_decodes`).
-/
namespace Hdmi2Usb
namespace I2cMaster

open I2cBus
open I2cPort (I2C i2cScl i2cSdaoe i2cSdaout i2cSdain)

/-! ## The bus -/

structure Bus where
  w       : BitVec 8
  started : Bool
  /-- What the slave makes of SDA; `true` is released. -/
  slave   : Bool
  /-- What the slave does in the times to come after a write with SCL low: the levels it goes through. -/
  script  : List (List Bool)
  trace   : List Level
  /-- The slave has been off SDA whenever SCL rose in a bit that the master drives. -/
  kept    : Bool
  /-- What the slave has put into the bits that the master leaves to it. -/
  given   : List Bool

def scl (w : BitVec 8) : Bool := w.getLsbD 0
def sdaOe (w : BitVec 8) : Bool := w.getLsbD 1
def sdaOut (w : BitVec 8) : Bool := w.getLsbD 2

variable (fight : Bool)

/-- The lines, from the register and the slave; `fight` is SDA where the master drives it high and the slave low. -/
def line (w : BitVec 8) (slave : Bool) : Level where
  scl := scl w
  sda := if sdaOe w then (if sdaOut w ∧ ¬ slave then fight else sdaOut w) else slave

def Bus.move (s : Bus) (slave : Bool) : Bus := { s with slave, trace := s.trace ++ [line fight s.w slave] }

/-- The slave's turn while SCL is low. -/
def settle (s : Bus) : Bus :=
  match s.script with
  | []           => s
  | ls :: script => ls.foldl (Bus.move fight) { s with script }

/-- `w_write`, and the time until the next access. -/
def wWrite (v : BitVec 8) (s : Bus) : Bus :=
  let rises := !scl s.w && scl v
  let s := { s with
    w := v
    trace := s.trace ++ [line fight v s.slave]
    kept := s.kept && !(rises && sdaOe v && !s.slave)
    given := if rises && !sdaOe v then s.given ++ [s.slave] else s.given }
  if scl v then s else settle fight s

def rRead (s : Bus) : BitVec 8 := if (line fight s.w s.slave).sda then 1 else 0

/-- The port of the master, which the routines are called with. -/
def pins : I2C Bus where
  wRead      := (·.w)
  wWrite     := wWrite fight
  rRead      := rRead fight
  started    := (·.started)
  setStarted := fun started s => { s with started }

def i2cInit (s : Bus) : Nat × Bus := I2cPort.i2cInit (pins fight) s

def i2cReadBit (s : Bus) : BitVec 32 × Bus := I2cPort.i2cReadBit (pins fight) s

def i2cWriteBit (bit : BitVec 32) (s : Bus) : Bus := I2cPort.i2cWriteBit (pins fight) bit s

def i2cStartCond (s : Bus) : Bus := I2cPort.i2cStartCond (pins fight) s

def i2cStopCond (s : Bus) : Bus := I2cPort.i2cStopCond (pins fight) s

def writeLoop (n : Nat) (byte : BitVec 8) (s : Bus) : Bus := I2cPort.writeLoop (pins fight) n byte s

def i2cWrite (byte : BitVec 8) (s : Bus) : BitVec 32 × Bus := I2cPort.i2cWrite (pins fight) byte s

def readLoop (n : Nat) (byte : BitVec 8) (s : Bus) : BitVec 8 × Bus := I2cPort.readLoop (pins fight) n byte s

def i2cRead (ack : BitVec 32) (s : Bus) : BitVec 8 × Bus := I2cPort.i2cRead (pins fight) ack s

theorem i2cStartCond_eq (s : Bus) : i2cStartCond fight s =
    let s :=
      if s.started then
        let s := wWrite fight (i2cSdaoe ||| i2cSdaout) s
        wWrite fight (s.w ||| i2cScl) s
      else s
    { wWrite fight i2cSdaoe (wWrite fight (i2cSdaoe ||| i2cScl) s) with started := true } := rfl

theorem i2cStopCond_eq (s : Bus) : i2cStopCond fight s =
    { wWrite fight i2cScl (wWrite fight (i2cSdaoe ||| i2cScl) (wWrite fight i2cSdaoe s)) with started := false } := rfl

theorem writeLoop_succ (n : Nat) (byte : BitVec 8) (s : Bus) : writeLoop fight (n + 1) byte s =
    writeLoop fight n (byte <<< 1) (i2cWriteBit fight ((byte &&& 0x80).setWidth 32) s) := rfl

theorem readLoop_succ (n : Nat) (byte : BitVec 8) (s : Bus) : readLoop fight (n + 1) byte s =
    readLoop fight n (byte <<< 1 ||| (i2cReadBit fight s).1.setWidth 8) (i2cReadBit fight s).2 := rfl

/-! ## Sequences of operations -/

inductive Op
  | start
  | stop
  | write (byte : BitVec 8)
  | read (ack : BitVec 32)

/-- An operation with what it returned. -/
inductive Done
  | start
  | stop
  | write (byte : BitVec 8) (ack : BitVec 32)
  | read (ack : BitVec 32) (byte : BitVec 8)

def Done.op : Done → Op
  | .start        => .start
  | .stop         => .stop
  | .write byte _ => .write byte
  | .read ack _   => .read ack

def perform (s : Bus) : Op → Done × Bus
  | .start      => (.start, i2cStartCond fight s)
  | .stop       => (.stop, i2cStopCond fight s)
  | .write byte => let (ack, s) := i2cWrite fight byte s; (.write byte ack, s)
  | .read ack   => let (byte, s) := i2cRead fight ack s; (.read ack byte, s)

def run : List Op → Bus → List Done × Bus
  | [], s        => ([], s)
  | op :: ops, s =>
    let (d, s) := perform fight s op
    let (ds, s) := run ops s
    (d :: ds, s)

/-- Protocol order: a start before anything else, and after a stop. -/
def Ordered : Bool → List Op → Prop
  | _, []                    => True
  | _, .start :: ops         => Ordered true ops
  | started, .stop :: ops    => started = true ∧ Ordered false ops
  | started, .write _ :: ops => started = true ∧ Ordered started ops
  | started, .read _ :: ops  => started = true ∧ Ordered started ops

/-- A byte, most significant bit first. -/
def bits (byte : BitVec 8) : List Bool := (List.range 8).map byte.getMsbD

/-- What the lines say when the operation is done: a byte and the ninth bit, low for an acknowledge. -/
def Done.symbols : Done → List Symbol
  | .start          => [.start]
  | .stop           => [.stop]
  | .write byte ack => (bits byte).map .bit ++ [.bit (ack = 0)]
  | .read ack byte  => (bits byte).map .bit ++ [.bit (ack = 0)]

/-- The slave's share: the acknowledge of a written byte, the bits of a read one. -/
def Done.given : Done → List Bool
  | .start        => []
  | .stop         => []
  | .write _ ack  => [ack = 0]
  | .read _ byte  => bits byte

/-- Both lines are high, and the slave is off SDA. -/
structure Idle (s : Bus) : Prop where
  line  : line fight s.w s.slave = ⟨true, true⟩
  slave : s.slave = true
  trace : s.trace = []
  kept  : s.kept = true
  given : s.given = []

/-! ## Off SDA

Once the slave has been on SDA in a bit of the master, `kept` stays false. -/

section Kept

variable {fight : Bool}

theorem kept_moves (ls : List Bool) : ∀ s : Bus, (ls.foldl (Bus.move fight) s).kept = s.kept := by
  induction ls with
  | nil         => exact fun _ => rfl
  | cons l ls ih => exact fun s => ih (s.move fight l)

theorem kept_settle (s : Bus) : (settle fight s).kept = s.kept := by
  unfold settle
  split
  · rfl
  · exact kept_moves _ _

theorem kept_wWrite {v : BitVec 8} {s : Bus} (h : (wWrite fight v s).kept = true) : s.kept = true := by
  simp only [wWrite] at h
  split at h
  · exact (Bool.and_eq_true_iff.1 h).1
  · rw [kept_settle] at h
    exact (Bool.and_eq_true_iff.1 h).1

theorem kept_i2cWriteBit {bit : BitVec 32} {s : Bus} (h : (i2cWriteBit fight bit s).kept = true) : s.kept = true := by
  simp only [i2cWriteBit] at h
  have h' := kept_wWrite (kept_wWrite h)
  split at h'
  · exact kept_wWrite h'
  · exact kept_wWrite h'

theorem kept_writeLoop (n : Nat) : ∀ {byte : BitVec 8} {s : Bus},
    (writeLoop fight n byte s).kept = true → s.kept = true := by
  induction n with
  | zero      => exact id
  | succ n ih => exact fun h => kept_i2cWriteBit (ih h)

theorem kept_i2cReadBit {s : Bus} (h : (i2cReadBit fight s).2.kept = true) : s.kept = true :=
  kept_wWrite (kept_wWrite (kept_wWrite h))

theorem kept_readLoop (n : Nat) : ∀ (byte : BitVec 8) {s : Bus},
    (readLoop fight n byte s).2.kept = true → s.kept = true := by
  induction n with
  | zero      => exact fun _ _ h => h
  | succ n ih => exact fun _ _ h => kept_i2cReadBit (ih _ h)

theorem kept_perform {s : Bus} {op : Op} (h : (perform fight s op).2.kept = true) : s.kept = true := by
  cases op with
  | start =>
    have h' := kept_wWrite (kept_wWrite h)
    split at h'
    · exact kept_wWrite (kept_wWrite h')
    · exact h'
  | stop       => exact kept_wWrite (kept_wWrite (kept_wWrite h))
  | write byte => exact kept_writeLoop 8 (kept_i2cReadBit h)
  | read ack   => exact kept_readLoop 8 0 (kept_i2cWriteBit h)

theorem kept_run : ∀ {ops : List Op} {s : Bus}, (run fight ops s).2.kept = true → s.kept = true
  | [], _, h        => h
  | _ :: _, _, h => kept_perform (kept_run h)

end Kept

/-! ## One write to the register -/

/-- SCL is low, and a listener has heard `ss`. -/
structure Low (s : Bus) (ss : List Symbol) : Prop where
  scl   : scl s.w = false
  heard : listen s.trace = ⟨line fight s.w s.slave, false, ss⟩

/-- SCL is high; `m` tells of a start or a stop in this high phase. -/
structure High (s : Bus) (m : Bool) (ss : List Symbol) : Prop where
  scl   : scl s.w = true
  heard : listen s.trace = ⟨line fight s.w s.slave, m, ss⟩

/-- What a write of `v` and the slave's turn after it make of the rest. -/
structure Settled (s : Bus) (v : BitVec 8) (t : Bus) : Prop where
  w       : t.w = v
  started : t.started = s.started
  kept    : t.kept = s.kept
  given   : t.given = s.given

/-- What SCL rising with `v` makes of the rest. -/
structure Raised (s : Bus) (v : BitVec 8) (t : Bus) : Prop where
  w       : t.w = v
  slave   : t.slave = s.slave
  started : t.started = s.started
  kept    : t.kept = (s.kept && !(sdaOe v && !s.slave))
  given   : t.given = if sdaOe v then s.given else s.given ++ [s.slave]

variable {fight} {s : Bus} {ss : List Symbol} {m : Bool}

theorem Low.move (h : Low fight s ss) (slave : Bool) : Low fight (s.move fight slave) ss where
  scl   := h.scl
  heard := by
    show listen (s.trace ++ [line fight s.w slave]) = _
    rw [listen_concat, h.heard, hear_low h.scl h.scl]
    rfl

theorem Low.moves (ls : List Bool) : ∀ {s : Bus}, Low fight s ss →
    Low fight (ls.foldl (Bus.move fight) s) ss ∧ Settled s s.w (ls.foldl (Bus.move fight) s) := by
  induction ls with
  | nil =>
    intro s h
    exact ⟨h, rfl, rfl, rfl, rfl⟩
  | cons l ls ih =>
    intro s h
    obtain ⟨hlow, hw, hst, hk, hg⟩ := ih (h.move l)
    exact ⟨hlow, hw, hst, hk, hg⟩

theorem Low.settle (h : Low fight s ss) : Low fight (settle fight s) ss ∧ Settled s s.w (settle fight s) := by
  unfold I2cMaster.settle
  split
  · exact ⟨h, rfl, rfl, rfl, rfl⟩
  · rename_i ls script _
    have h' : Low fight { s with script } ss := ⟨h.scl, h.heard⟩
    obtain ⟨hlow, hw, hst, hk, hg⟩ := h'.moves ls
    exact ⟨hlow, hw, hst, hk, hg⟩

theorem wWrite_low {v : BitVec 8} (hv : scl v = false) :
    wWrite fight v s = settle fight { s with w := v, trace := s.trace ++ [line fight v s.slave] } := by
  simp [wWrite, hv]

/-- A write that leaves SCL low. -/
theorem Low.write (h : Low fight s ss) {v : BitVec 8} (hv : I2cMaster.scl v = false) :
    Low fight (wWrite fight v s) ss ∧ Settled s v (wWrite fight v s) := by
  have hlow : Low fight { s with w := v, trace := s.trace ++ [line fight v s.slave] } ss := by
    refine ⟨hv, ?_⟩
    show listen (s.trace ++ [line fight v s.slave]) = _
    rw [listen_concat, h.heard, hear_low h.scl hv]
  obtain ⟨hlow', hw, hst, hk, hg⟩ := hlow.settle
  rw [wWrite_low hv]
  exact ⟨hlow', hw, hst, hk, hg⟩

/-- SCL rises, with SDA the same. -/
theorem Low.rise (h : Low fight s ss) {v : BitVec 8} (hv : I2cMaster.scl v = true)
    (hsda : (line fight v s.slave).sda = (line fight s.w s.slave).sda) :
    High fight (wWrite fight v s) false ss ∧ Raised s v (wWrite fight v s) := by
  have heq : wWrite fight v s = { s with
      w := v, trace := s.trace ++ [line fight v s.slave], kept := s.kept && !(sdaOe v && !s.slave),
      given := if sdaOe v then s.given else s.given ++ [s.slave] } := by
    cases hoe : sdaOe v <;> simp [wWrite, hv, h.scl, hoe]
  rw [heq]
  refine ⟨⟨hv, ?_⟩, rfl, rfl, rfl, rfl, rfl⟩
  show listen (s.trace ++ [line fight v s.slave]) = _
  rw [listen_concat, h.heard, hear_rise h.scl hv hsda]

/-- SCL falls, with SDA the same. -/
theorem High.fall (h : High fight s m ss) {v : BitVec 8} (hv : I2cMaster.scl v = false)
    (hsda : (line fight v s.slave).sda = (line fight s.w s.slave).sda) :
    Low fight (wWrite fight v s) (if m then ss else ss ++ [.bit (line fight s.w s.slave).sda]) ∧
      Settled s v (wWrite fight v s) := by
  have hlow : Low fight { s with w := v, trace := s.trace ++ [line fight v s.slave] }
      (if m then ss else ss ++ [.bit (line fight s.w s.slave).sda]) := by
    refine ⟨hv, ?_⟩
    show listen (s.trace ++ [line fight v s.slave]) = _
    rw [listen_concat, h.heard, hear_fall h.scl hv hsda, hsda]
  obtain ⟨hlow', hw, hst, hk, hg⟩ := hlow.settle
  rw [wWrite_low hv]
  exact ⟨hlow', hw, hst, hk, hg⟩

/-- SDA moves while SCL is high. -/
theorem High.swing (h : High fight s m ss) {v : BitVec 8} (hv : I2cMaster.scl v = true)
    (hsda : (line fight v s.slave).sda ≠ (line fight s.w s.slave).sda) :
    High fight (wWrite fight v s) true (ss ++ [if (line fight v s.slave).sda then .stop else .start]) ∧
      Settled s v (wWrite fight v s) ∧ (wWrite fight v s).slave = s.slave := by
  have heq : wWrite fight v s = { s with w := v, trace := s.trace ++ [line fight v s.slave] } := by
    simp [wWrite, hv, h.scl]
  rw [heq]
  refine ⟨⟨hv, ?_⟩, ⟨rfl, rfl, rfl, rfl⟩, rfl⟩
  show listen (s.trace ++ [line fight v s.slave]) = _
  rw [listen_concat, h.heard, hear_swing h.scl hv hsda]

/-! ## Bits -/

theorem sda_released {w : BitVec 8} (h : sdaOe w = false) (slave : Bool) : (line fight w slave).sda = slave := by
  simp [line, h]

theorem sda_driven {w : BitVec 8} (h : sdaOe w = true) : (line fight w true).sda = sdaOut w := by
  simp [line, h]

theorem sda_drivenLow {w : BitVec 8} (h : sdaOe w = true) (h' : sdaOut w = false) (slave : Bool) :
    (line fight w slave).sda = false := by
  simp [line, h, h']

/-- The slave's level in a bit that the master leaves to it is what the master reads, and what the lines say. -/
theorem Low.readBit (h : Low fight s ss) : ∃ b, (i2cReadBit fight s).1 = (if b then 1 else 0) ∧
    Low fight (i2cReadBit fight s).2 (ss ++ [.bit b]) ∧ (i2cReadBit fight s).2.started = s.started ∧
    (i2cReadBit fight s).2.kept = s.kept ∧ (i2cReadBit fight s).2.given = s.given ++ [b] := by
  simp only [i2cReadBit, I2cPort.i2cReadBit, pins]
  obtain ⟨hlow, hset⟩ := h.write (v := 0) (by decide)
  generalize wWrite fight 0 s = t at hlow hset ⊢
  obtain ⟨hhigh, hraised⟩ := hlow.rise (v := i2cScl) (by decide)
    (by rw [sda_released (by decide), hset.w, sda_released (by decide)])
  generalize wWrite fight i2cScl t = u at hhigh hraised ⊢
  have hsda : (line fight u.w u.slave).sda = t.slave := by rw [hraised.w, sda_released (by decide), hraised.slave]
  obtain ⟨hlow', hset'⟩ := hhigh.fall (v := 0) (by decide) (by rw [hsda, sda_released (by decide), hraised.slave])
  rw [hsda] at hlow'
  refine ⟨t.slave, ?_, hlow', ?_, ?_, ?_⟩
  · rw [rRead, hsda]
    cases t.slave <;> rfl
  · rw [hset'.started, hraised.started, hset.started]
  · rw [hset'.kept, hraised.kept, hset.kept]
    simp [sdaOe, i2cScl]
  · rw [hset'.given, hraised.given, hset.given]
    simp [sdaOe, i2cScl]

theorem sda_congr {v w : BitVec 8} (hoe : sdaOe v = sdaOe w) (hout : sdaOut v = sdaOut w) (slave : Bool) :
    (line fight v slave).sda = (line fight w slave).sda := by
  simp only [line, hoe, hout]

/-- SCL rises over a driven SDA, with the slave off it. -/
theorem Low.driveUp (h : Low fight s ss) {v : BitVec 8} (hv : I2cMaster.scl v = true) (hoe : sdaOe v = true)
    (hoe' : sdaOe s.w = true) (hout : sdaOut v = sdaOut s.w) :
    High fight (wWrite fight v s) false ss ∧ Raised s v (wWrite fight v s) ∧
      ((wWrite fight v s).kept = true → s.kept = true ∧ s.slave = true) ∧ (wWrite fight v s).given = s.given := by
  obtain ⟨hhigh, hraised⟩ := h.rise hv (sda_congr (hoe.trans hoe'.symm) hout s.slave)
  refine ⟨hhigh, hraised, ?_, ?_⟩
  · intro hk
    simpa [hraised.kept, hoe] using hk
  · simp [hraised.given, hoe]

/-- The register in a bit that the master drives, before the clock. -/
def driven (bit : BitVec 32) : BitVec 8 := if bit ≠ 0 then i2cSdaoe ||| i2cSdaout else i2cSdaoe

theorem driven_cases (bit : BitVec 32) : I2cMaster.scl (driven bit) = false ∧ sdaOe (driven bit) = true ∧
    sdaOut (driven bit) = decide (bit ≠ 0) ∧ I2cMaster.scl (driven bit ||| i2cScl) = true ∧
    sdaOe (driven bit ||| i2cScl) = true ∧ sdaOut (driven bit ||| i2cScl) = decide (bit ≠ 0) ∧
    (driven bit ||| i2cScl) &&& ~~~i2cScl = driven bit := by
  unfold driven
  by_cases h : bit = 0
  · simp only [h, ne_eq, not_true_eq_false, if_false]
    decide
  · simp only [h, ne_eq, not_false_eq_true, if_true]
    decide

theorem i2cWriteBit_eq (bit : BitVec 32) (s : Bus) : i2cWriteBit fight bit s =
    let s := wWrite fight (driven bit) s
    let s := wWrite fight (s.w ||| i2cScl) s
    wWrite fight (s.w &&& ~~~i2cScl) s := by
  unfold i2cWriteBit I2cPort.i2cWriteBit driven
  split <;> rfl

/-- A bit of the master is on SDA through its clock. -/
theorem Low.writeBit (h : Low fight s ss) (bit : BitVec 32) (hk : (i2cWriteBit fight bit s).kept = true) :
    Low fight (i2cWriteBit fight bit s) (ss ++ [.bit (bit ≠ 0)]) ∧ s.kept = true ∧
      (i2cWriteBit fight bit s).started = s.started ∧ (i2cWriteBit fight bit s).given = s.given := by
  obtain ⟨hscl, hoe, hout, hscl', hoe', hout', hdown⟩ := driven_cases bit
  simp only [i2cWriteBit_eq] at hk ⊢
  obtain ⟨hlow, hset⟩ := h.write hscl
  generalize wWrite fight (driven bit) s = t at hlow hset hk ⊢
  rw [hset.w] at hk ⊢
  obtain ⟨hhigh, hraised, hkept, hgiven⟩ := hlow.driveUp hscl' hoe' (by rw [hset.w, hoe]) (by rw [hset.w, hout', hout])
  generalize wWrite fight (driven bit ||| i2cScl) t = u at hhigh hraised hkept hgiven hk ⊢
  rw [hraised.w, hdown] at hk ⊢
  obtain ⟨hlow', hset'⟩ := hhigh.fall hscl
    (by rw [hraised.w]; exact sda_congr (hoe.trans hoe'.symm) (hout.trans hout'.symm) u.slave)
  rw [hset'.kept] at hk
  obtain ⟨hkt, hslave⟩ := hkept hk
  have hsda : (line fight u.w u.slave).sda = decide (bit ≠ 0) := by
    rw [hraised.w, hraised.slave, hslave, sda_driven hoe', hout']
  rw [hsda] at hlow'
  refine ⟨hlow', ?_, ?_, ?_⟩
  · rw [← hset.kept, hkt]
  · rw [hset'.started, hraised.started, hset.started]
  · rw [hset'.given, hgiven, hset.given]

/-! ## Bytes -/

theorem top_bit (byte : BitVec 8) : decide ((byte &&& 0x80).setWidth 32 ≠ (0 : BitVec 32)) = byte.getMsbD 0 := by
  revert byte
  decide +kernel

theorem range_getMsbD_succ (n : Nat) (byte : BitVec 8) : (List.range (n + 1)).map byte.getMsbD =
    byte.getMsbD 0 :: (List.range n).map (byte <<< 1).getMsbD := by
  rw [List.range_succ_eq_map, List.map_cons, List.map_map]
  congr 1
  apply List.map_congr_left
  intro i _
  rw [Function.comp_apply, BitVec.getMsbD_shiftLeft]

/-- The loop puts out the first `n` bits of the byte. -/
theorem Low.writeLoop (n : Nat) : ∀ (byte : BitVec 8) {s : Bus} {ss : List Symbol}, Low fight s ss →
    (writeLoop fight n byte s).kept = true →
      Low fight (writeLoop fight n byte s) (ss ++ ((List.range n).map byte.getMsbD).map .bit) ∧ s.kept = true ∧
        (writeLoop fight n byte s).started = s.started ∧ (writeLoop fight n byte s).given = s.given := by
  induction n with
  | zero =>
    intro byte s ss h hk
    exact ⟨by simpa [I2cMaster.writeLoop, I2cPort.writeLoop] using h, hk, rfl, rfl⟩
  | succ n ih =>
    intro byte s ss h hk
    obtain ⟨hlow, hks, hst, hg⟩ := h.writeBit ((byte &&& 0x80).setWidth 32) (kept_writeLoop n hk)
    obtain ⟨hlow', -, hst', hg'⟩ := ih (byte <<< 1) hlow hk
    rw [top_bit] at hlow'
    refine ⟨?_, hks, hst'.trans hst, hg'.trans hg⟩
    rw [range_getMsbD_succ, writeLoop_succ]
    simpa using hlow'

def shiftIn (byte : BitVec 8) (b : Bool) : BitVec 8 := byte <<< 1 ||| if b then 1 else 0

/-- The loop takes in `n` bits that the slave gives. -/
theorem Low.readLoop (n : Nat) : ∀ (byte : BitVec 8) {s : Bus} {ss : List Symbol}, Low fight s ss →
    ∃ bs, bs.length = n ∧ (readLoop fight n byte s).1 = bs.foldl shiftIn byte ∧
      Low fight (readLoop fight n byte s).2 (ss ++ bs.map .bit) ∧ (readLoop fight n byte s).2.started = s.started ∧
      (readLoop fight n byte s).2.kept = s.kept ∧ (readLoop fight n byte s).2.given = s.given ++ bs := by
  induction n with
  | zero =>
    intro byte s ss h
    exact ⟨[], rfl, rfl, by simpa [I2cMaster.readLoop, I2cPort.readLoop] using h, rfl, rfl,
      by simp [I2cMaster.readLoop, I2cPort.readLoop]⟩
  | succ n ih =>
    intro byte s ss h
    obtain ⟨b, hb, hlow, hst, hk, hg⟩ := h.readBit
    obtain ⟨bs, hlen, hbyte, hlow', hst', hk', hg'⟩ := ih (byte <<< 1 ||| (i2cReadBit fight s).1.setWidth 8) hlow
    have hin : byte <<< 1 ||| (i2cReadBit fight s).1.setWidth 8 = shiftIn byte b := by
      rw [hb]
      cases b <;> rfl
    rw [hin] at hbyte hlow' hst' hk' hg'
    simp only [readLoop_succ, hin]
    refine ⟨b :: bs, ?_, hbyte, ?_, ?_, ?_, ?_⟩
    · rw [List.length_cons, hlen]
    · simpa using hlow'
    · rw [hst', hst]
    · rw [hk', hk]
    · rw [hg', hg]
      simp

theorem bits_foldl : ∀ bs : List Bool, bs.length = 8 → bits (bs.foldl shiftIn 0) = bs
  | [a, b, c, d, e, f, g, h], _ => by
    revert a b c d e f g h
    decide +kernel

/-! ## Operations -/

/-- The state between two operations: after a start SCL is low, and after a stop the bus is free. -/
def Between (fight : Bool) (s : Bus) (ss : List Symbol) : Bool → Prop
  | true  => Low fight s ss ∧ s.started = true
  | false => (∃ m, High fight s m ss) ∧ (line fight s.w s.slave).sda = true ∧ s.slave = true ∧ s.started = false

/-- Whether the bus is taken after an operation. -/
def Op.takes (started : Bool) : Op → Bool
  | .start => true
  | .stop  => false
  | _      => started

/-- The operation keeps to the protocol order. -/
def Op.Allowed (started : Bool) : Op → Prop
  | .start => True
  | _      => started = true

theorem ordered_cons (started : Bool) (op : Op) (ops : List Op) :
    Ordered started (op :: ops) ↔ op.Allowed started ∧ Ordered (op.takes started) ops := by
  cases op <;> simp [Ordered, Op.Allowed, Op.takes]

/-- A start falls out of a high SCL, with SDA high and the slave off it. -/
theorem High.start (h : High fight s m ss) (hsda : (line fight s.w s.slave).sda = true) :
    let t := wWrite fight i2cSdaoe (wWrite fight (i2cSdaoe ||| i2cScl) s)
    Low fight t (ss ++ [.start]) ∧ t.kept = s.kept ∧ t.given = s.given := by
  have hlow (x : Bool) : (line fight (i2cSdaoe ||| i2cScl) x).sda = false := sda_drivenLow (by decide) (by decide) x
  obtain ⟨hhigh, hset, hslave⟩ := h.swing (v := i2cSdaoe ||| i2cScl) (by decide) (by rw [hlow, hsda]; decide)
  rw [hlow] at hhigh
  obtain ⟨hlow', hset'⟩ := hhigh.fall (v := i2cSdaoe) (by decide)
    (by rw [hset.w]; exact sda_congr (by decide) (by decide) _)
  exact ⟨hlow', by rw [hset'.kept, hset.kept], by rw [hset'.given, hset.given]⟩

theorem Between.start {started : Bool} (h : Between fight s ss started) (hk : (i2cStartCond fight s).kept = true) :
    Between fight (i2cStartCond fight s) (ss ++ [.start]) true ∧ (i2cStartCond fight s).given = s.given := by
  cases started with
  | false =>
    obtain ⟨⟨m, hhigh⟩, hsda, -, hst⟩ := h
    obtain ⟨hlow, -, hg⟩ := hhigh.start hsda
    simp only [i2cStartCond_eq, hst, Bool.false_eq_true, if_false]
    exact ⟨⟨⟨hlow.scl, hlow.heard⟩, rfl⟩, hg⟩
  | true =>
    obtain ⟨hlow, hst⟩ := h
    simp only [i2cStartCond_eq, hst, if_true] at hk ⊢
    obtain ⟨hlow, hset⟩ := hlow.write (v := i2cSdaoe ||| i2cSdaout) (by decide)
    generalize wWrite fight (i2cSdaoe ||| i2cSdaout) s = t at hlow hset hk ⊢
    rw [hset.w] at hk ⊢
    obtain ⟨hhigh, hraised, hkept, hgiven⟩ := hlow.driveUp (v := i2cSdaoe ||| i2cSdaout ||| i2cScl) (by decide)
      (by decide) (by rw [hset.w]; decide) (by rw [hset.w]; decide)
    have hslave := (hkept (kept_wWrite (kept_wWrite hk))).2
    obtain ⟨hlow', -, hg⟩ := hhigh.start (by rw [hraised.w, hraised.slave, hslave, sda_driven (by decide)]; decide)
    exact ⟨⟨⟨hlow'.scl, hlow'.heard⟩, rfl⟩, by rw [hg, hgiven, hset.given]⟩

theorem Between.stop (h : Between fight s ss true) (hk : (i2cStopCond fight s).kept = true) :
    Between fight (i2cStopCond fight s) (ss ++ [.stop]) false ∧ (i2cStopCond fight s).given = s.given := by
  obtain ⟨hlow, -⟩ := h
  simp only [i2cStopCond_eq] at hk ⊢
  obtain ⟨hlow, hset⟩ := hlow.write (v := i2cSdaoe) (by decide)
  generalize wWrite fight i2cSdaoe s = t at hlow hset hk ⊢
  obtain ⟨hhigh, hraised, hkept, hgiven⟩ := hlow.driveUp (v := i2cSdaoe ||| i2cScl) (by decide) (by decide)
    (by rw [hset.w]; decide) (by rw [hset.w]; decide)
  have hslave := (hkept (kept_wWrite hk)).2
  generalize wWrite fight (i2cSdaoe ||| i2cScl) t = u at hhigh hraised hkept hgiven hk ⊢
  have hup : (line fight i2cScl u.slave).sda = true := by rw [sda_released (by decide), hraised.slave, hslave]
  have hdown : (line fight u.w u.slave).sda = false := by
    rw [hraised.w]
    exact sda_drivenLow (by decide) (by decide) _
  obtain ⟨hhigh', hset', hslave'⟩ := hhigh.swing (v := i2cScl) (by decide) (by rw [hup, hdown]; decide)
  rw [hup] at hhigh'
  refine ⟨⟨⟨true, hhigh'.scl, hhigh'.heard⟩, ?_, ?_, rfl⟩, by rw [hset'.given, hgiven, hset.given]⟩
  · show (line fight (wWrite fight i2cScl u).w (wWrite fight i2cScl u).slave).sda = true
    rw [hset'.w, hslave', hup]
  · show (wWrite fight i2cScl u).slave = true
    rw [hslave', hraised.slave, hslave]

theorem Between.write (h : Between fight s ss true) (byte : BitVec 8) (hk : (i2cWrite fight byte s).2.kept = true) :
    Between fight (i2cWrite fight byte s).2 (ss ++ (Done.write byte (i2cWrite fight byte s).1).symbols) true ∧
      (i2cWrite fight byte s).2.given = s.given ++ (Done.write byte (i2cWrite fight byte s).1).given := by
  obtain ⟨hlow, hst⟩ := h
  obtain ⟨hbytes, -, hst', hg⟩ := hlow.writeLoop 8 byte (kept_i2cReadBit hk)
  obtain ⟨b, hb, hlow', hst'', -, hg'⟩ := hbytes.readBit
  have hack : (i2cWrite fight byte s).1 = if b then 0 else 1 := by
    show (if (i2cReadBit fight (writeLoop fight 8 byte s)).1 = 0 then 1 else 0) = _
    rw [hb]
    cases b <;> rfl
  have hbit : decide ((i2cWrite fight byte s).1 = 0) = b := by
    rw [hack]
    cases b <;> rfl
  simp only [Done.symbols, Done.given, hbit]
  refine ⟨⟨?_, (hst''.trans hst').trans hst⟩, ?_⟩
  · rw [← List.append_assoc]
    exact hlow'
  · exact hg'.trans (by rw [hg])

theorem Between.read (h : Between fight s ss true) (ack : BitVec 32) (hk : (i2cRead fight ack s).2.kept = true) :
    Between fight (i2cRead fight ack s).2 (ss ++ (Done.read ack (i2cRead fight ack s).1).symbols) true ∧
      (i2cRead fight ack s).2.given = s.given ++ (Done.read ack (i2cRead fight ack s).1).given := by
  obtain ⟨hlow, hst⟩ := h
  obtain ⟨bs, hlen, hbyte, hlow', hst', -, hg⟩ := hlow.readLoop 8 0
  obtain ⟨hlow'', -, hst'', hg'⟩ := hlow'.writeBit (if ack = 0 then 1 else 0) hk
  have hbits : bits (i2cRead fight ack s).1 = bs := by
    show bits (readLoop fight 8 0 s).1 = bs
    rw [hbyte, bits_foldl bs hlen]
  have hbit : decide ((if ack = 0 then 1 else 0 : BitVec 32) ≠ 0) = decide (ack = 0) := by
    split <;> simp_all
  rw [hbit] at hlow''
  simp only [Done.symbols, Done.given, hbits]
  refine ⟨⟨?_, (hst''.trans hst').trans hst⟩, ?_⟩
  · rw [← List.append_assoc]
    exact hlow''
  · exact hg'.trans hg

theorem Between.perform {started : Bool} (h : Between fight s ss started) {op : Op} (hop : op.Allowed started)
    (hk : (perform fight s op).2.kept = true) :
    Between fight (perform fight s op).2 (ss ++ (perform fight s op).1.symbols) (op.takes started) ∧
      (perform fight s op).2.given = s.given ++ (perform fight s op).1.given ∧ (perform fight s op).1.op = op := by
  cases op with
  | start =>
    obtain ⟨hb, hg⟩ := h.start hk
    exact ⟨hb, hg.trans (List.append_nil _).symm, rfl⟩
  | stop =>
    obtain rfl : started = true := hop
    obtain ⟨hb, hg⟩ := h.stop hk
    exact ⟨hb, hg.trans (List.append_nil _).symm, rfl⟩
  | write byte =>
    obtain rfl : started = true := hop
    obtain ⟨hb, hg⟩ := h.write byte hk
    exact ⟨hb, hg, rfl⟩
  | read ack =>
    obtain rfl : started = true := hop
    obtain ⟨hb, hg⟩ := h.read ack hk
    exact ⟨hb, hg, rfl⟩

theorem run_cons (op : Op) (ops : List Op) (s : Bus) :
    run fight (op :: ops) s = ((perform fight s op).1 :: (run fight ops (perform fight s op).2).1,
      (run fight ops (perform fight s op).2).2) := rfl

theorem Between.run : ∀ (ops : List Op) {s : Bus} {ss : List Symbol} {started : Bool}, Between fight s ss started →
    Ordered started ops → (run fight ops s).2.kept = true →
      (listen (run fight ops s).2.trace).symbols = ss ++ (run fight ops s).1.flatMap Done.symbols ∧
        (run fight ops s).2.given = s.given ++ (run fight ops s).1.flatMap Done.given ∧
        (run fight ops s).1.map Done.op = ops
  | [], s, ss, started, h, _, _ => by
    have hheard : (listen s.trace).symbols = ss := by
      cases started with
      | true  => rw [h.1.heard]
      | false =>
        obtain ⟨⟨m, hhigh⟩, -⟩ := h
        rw [hhigh.heard]
    exact ⟨by simpa [I2cMaster.run] using hheard, by simp [I2cMaster.run], rfl⟩
  | op :: ops, s, ss, started, h, hord, hk => by
    obtain ⟨hop, hops⟩ := (ordered_cons started op ops).1 hord
    obtain ⟨hb, hg, hdone⟩ := h.perform hop (kept_run hk)
    obtain ⟨hsym, hgiven, hdones⟩ := Between.run ops hb hops hk
    rw [run_cons]
    refine ⟨?_, ?_, ?_⟩
    · rw [hsym, List.flatMap_cons, List.append_assoc]
    · rw [hgiven, hg, List.flatMap_cons, List.append_assoc]
    · rw [List.map_cons, hdone, hdones]

theorem line_idle (fight : Bool) : line fight i2cScl true = ⟨true, true⟩ := by
  cases fight <;> decide

theorem Idle.init (h : Idle fight s) : Between fight (i2cInit fight s).2 [] false ∧ (i2cInit fight s).2.given = [] := by
  have hscl : I2cMaster.scl s.w = true := congrArg Level.scl h.line
  have hup : I2cMaster.scl i2cScl = true := by decide
  have heq : (i2cInit fight s).2 =
      { s with started := false, w := i2cScl, trace := s.trace ++ [I2cMaster.line fight i2cScl s.slave] } := by
    simp [i2cInit, I2cPort.i2cInit, pins, wWrite, hscl, hup]
  have hline : I2cMaster.line fight i2cScl s.slave = ⟨true, true⟩ := by rw [h.slave, line_idle]
  rw [heq]
  refine ⟨⟨⟨false, hup, ?_⟩, ?_, h.slave, rfl⟩, h.given⟩
  · show listen (s.trace ++ [I2cMaster.line fight i2cScl s.slave]) = ⟨I2cMaster.line fight i2cScl s.slave, false, []⟩
    rw [h.trace, hline]
    rfl
  · show (I2cMaster.line fight i2cScl s.slave).sda = true
    rw [hline]

/-- **The master speaks I2C.**  From an idle bus, what the lines do over any operations in protocol order decodes to
those operations, with the bytes written and read and their ninth bits, and no other start, stop or bit; and what
`i2c_write` and `i2c_read` return is what the slave has put into the bits left to it. -/
theorem run_decodes (fight : Bool) (s : Bus) (ops : List Op) (hidle : Idle fight s) (hord : Ordered false ops)
    (hkept : (run fight ops (i2cInit fight s).2).2.kept = true) :
    let (done, t) := run fight ops (i2cInit fight s).2
    done.map Done.op = ops ∧ decode t.trace = done.flatMap Done.symbols ∧ t.given = done.flatMap Done.given := by
  obtain ⟨hb, hg⟩ := hidle.init
  obtain ⟨hsym, hgiven, hdone⟩ := hb.run ops hord hkept
  refine ⟨hdone, hsym, ?_⟩
  rw [hgiven, hg, List.nil_append]

/-- A byte written, a repeated start and a byte read, with a slave that acknowledges and then gives `0xa5`. -/
theorem run_decodes_readByte :
    let s : Bus := ⟨i2cScl, false, true, List.replicate 17 [] ++ [[true, false], [true], [], []] ++
      [[true], [], [false], [], [true], [], [false], [], [false], [], [true], [], [false], [], [true]], [], true, []⟩
    let ops := [.start, .write 0x50, .start, .read 0, .stop]
    let (done, t) := run true ops (i2cInit true s).2
    done.map Done.op = ops ∧ decode t.trace = done.flatMap Done.symbols ∧ t.given = done.flatMap Done.given := by
  intro s ops
  exact run_decodes true s ops ⟨line_idle true, rfl, rfl, rfl, rfl⟩ (by simp [ops, Ordered]) (by decide +kernel)

end I2cMaster
end Hdmi2Usb
