import Hdmi2Usb.HdmiIn
import Hdmi2Usb.VideoModes
/-!
# Processor — the video pipeline's control (`processor.c`, and what it calls of `pattern.c`)

`processorStart` puts one timing everywhere: the outputs' initiators, the clock generator, the EDIDs and the inputs.
The two outputs and the two inputs run the same statements, so they are written once, for the ones a board has.  The
lists `indexes` and `divisors` record every index used on `video_modes` and every divisor, and `started` the timing last
started; nothing reads them.
-/
namespace Hdmi2Usb
namespace Processor

/-! ## State -/

structure Initiator where
  enable     : Word
  hres       : Word
  hsyncStart : Word
  hsyncEnd   : Word
  hscan      : Word
  vres       : Word
  vsyncStart : Word
  vsyncEnd   : Word
  vscan      : Word
  length     : Word
  base       : Word
deriving Inhabited

/-- The block `generate_edid` makes, by what it is made from. -/
structure Edid where
  mfgName         : String
  productCode     : String
  year            : Nat
  name            : String
  timing          : VideoTiming
  secondaryTiming : Option VideoTiming
deriving Inhabited

/-- An input: its sampler, its hot-plug line and EDID memory, and the clock its service was last called with since a
mode was started. -/
structure Input where
  video        : HdmiIn.State
  hpdEn        : Bool
  edid         : Option Edid
  serviceClock : Option Word
deriving Inhabited

structure State where
  customMode    : VideoTiming
  processorMode : Int
  secondaryMode : Int
  hActive       : Word
  vActive       : Word
  refresh       : Word
  outSource     : Fin 2 → Int
  encoderSource : Int
  pattern       : Nat
  out           : Fin 2 → Initiator
  encoderBase   : Word
  input         : Fin 2 → Input
  /-- The PLL's or MMCM's reset, the clock it was configured for, and its registers. -/
  clockingReset : Bool
  clockConfig   : Word
  clkgen        : Nat → Word
  indexes       : List Int
  divisors      : List Word
  started       : VideoTiming
deriving Inhabited

/-- What a step reads that the program does not determine: the memory outside the table, the uninitialised locals of
`fb_set_mode`, and the index the host writes for the PCIe input. -/
structure Env where
  stray         : Int → VideoTiming
  uninitialised : Fin 2 → Word
  pcieInFbIndex : Word
deriving Inhabited

variable (p : Platform) (env : Env)

/-- `&video_modes[mode]`. -/
def State.index (s : State) (mode : Int) : State := { s with indexes := s.indexes ++ [mode] }

def State.divide (s : State) (d : Word) : State := { s with divisors := s.divisors ++ [d] }

def State.mapOut (s : State) (f : Fin 2 → Initiator → Initiator) : State :=
  { s with out := fun k => if p.hasOut k then f k (s.out k) else s.out k }

def State.mapIn (s : State) (f : Fin 2 → Input → Input) : State :=
  { s with input := fun k => if p.hasIn k then f k (s.input k) else s.input k }

/-! ## The clock generator -/

def clockTurn (idealM idealD d : Word) (best : Word × Word) (m : Word) : Word × Word :=
  let (bm, bd) := best
  let diffCurrent := (d * idealD * bm - d * bd * idealM).abs
  let diffTested := (bd * idealD * m - d * bd * idealM).abs
  if diffTested < diffCurrent then (m, d) else (bm, bd)

def fbGetClockMd (pixelClock : Word) : Word × Word :=
  let (idealD, maxD, maxM) := match p.clocking with
    | .pll  => (5000, 256, 256)
    | .mmcm => (1000, 128, 128)
  (List.range' 1 maxD).foldl (fun best d =>
    (List.range' 2 (maxM - 1)).foldl (fun best m =>
      clockTurn pixelClock idealD (BitVec.ofNat 32 d) best (BitVec.ofNat 32 m)) best) (1, 0)

/-- `fb_clkgen_write` of the PLL: the command in the two low bits of its word. -/
def fbClkgenWritePll (clkgen : Nat → Word) (cmd : Nat) (data : Word) : Nat → Word :=
  Function.update clkgen cmd ((data <<< 2) ||| BitVec.ofNat 32 cmd)

def fbClkgenWriteMmcm (clkgen : Nat → Word) (m d : Word) : Nat → Word :=
  let clkgen := Function.update clkgen 0x14
    (if m % 2 ≠ 0 then 0x1000 ||| ((m / 2) <<< 6) ||| (m / 2 + 1) else 0x1000 ||| ((m / 2) <<< 6) ||| m / 2)
  let clkgen := Function.update clkgen 0x16
    (if d = 1 then 0x1000
      else if d % 2 ≠ 0 then ((d / 2) <<< 6) ||| (d / 2 + 1) else ((d / 2) <<< 6) ||| d / 2)
  let clkgen := Function.update clkgen 0x8 (0x1000 ||| (5 <<< 6) ||| 5)
  Function.update clkgen 0xa (0x1000 ||| (1 <<< 6) ||| 1)

/-- What `fb_set_clock` leaves in the clock generator. -/
def clkgenFor (clkgen : Nat → Word) (pixelClock : Word) : Nat → Word :=
  let (clockM, clockD) := fbGetClockMd p pixelClock
  match p.clocking with
  | .pll  => fbClkgenWritePll (fbClkgenWritePll clkgen 0x1 (clockD - 1)) 0x3 (clockM - 1)
  | .mmcm => fbClkgenWriteMmcm clkgen clockM clockD

/-! ## Starting a mode -/

/-- What `fb_set_mode` writes to an initiator.  The local it enables it from is only set if it was enabled. -/
def setInitiator (mode : VideoTiming) (uninitialised : Word) (r : Initiator) : Initiator :=
  { r with
    hres       := mode.hActive
    hsyncStart := mode.hActive + mode.hSyncOffset
    hsyncEnd   := mode.hActive + mode.hSyncOffset + mode.hSyncWidth
    hscan      := mode.hActive + mode.hBlanking
    vres       := mode.vActive
    vsyncStart := mode.vActive + mode.vSyncOffset
    vsyncEnd   := mode.vActive + mode.vSyncOffset + mode.vSyncWidth
    vscan      := mode.vActive + mode.vBlanking
    length     := mode.hActive * mode.vActive * 2
    enable     := if r.enable ≠ 0 then 1 else uninitialised }

def fbSetMode (mode : VideoTiming) (s : State) : State :=
  let s := s.mapOut p fun k r => setInitiator mode (env.uninitialised k) r
  { s with clkgen := clkgenFor p s.clkgen mode.pixelClock }

def edidName (k : Fin 2) : String := if k = 0 then "HDMI2USB-1" else "HDMI2USB-2"

def edidSetMode (mode : VideoTiming) (secMode : Option VideoTiming) (s : State) : State :=
  s.mapIn p fun k i => { i with edid := some ⟨"OHW", "TV", 2015, edidName k, mode, secMode⟩ }

/-- `pattern_fill_framebuffer`, as far as its divisions: every turn of its loop divides by `h_active/16`. -/
def patternFillFramebuffer (hActive vActive : Word) (s : State) : State :=
  if p.mainRam ∧ BitVec.slt 0 (pictureWords hActive vActive) then s.divide (hActive.sdiv 16) else s

def patternDivisors (hActive vActive : Word) : List Word :=
  if ¬ p.simulation ∧ p.mainRam ∧ BitVec.slt 0 (pictureWords hActive vActive) then [hActive.sdiv 16] else []

theorem patternFillFramebuffer_eq (hActive vActive : Word) (s : State) :
    (if p.simulation then s else patternFillFramebuffer p hActive vActive s) =
      { s with divisors := s.divisors ++ patternDivisors p hActive vActive } := by
  unfold patternFillFramebuffer patternDivisors
  by_cases hs : p.simulation = true
  · simp [hs]
  · by_cases hc : p.mainRam = true ∧ BitVec.slt 0 (pictureWords hActive vActive) = true
    · rw [if_neg hs, if_pos hc, if_pos ⟨hs, hc⟩]
      rfl
    · rw [if_neg hs, if_neg hc, if_neg (fun h => hc h.2), List.append_nil]

/-- The statements of `processor_start` after it has found its timing. -/
def startTiming (m : VideoTiming) (secMode : Option VideoTiming) (mode : Int) (s : State) : State :=
  let s := { s with processorMode := mode, started := m }
  let s := { s with hActive := m.hActive, vActive := m.vActive }
  let s := { s.divide (refreshSpan m) with refresh := calculateRefreshRate m }
  let s := s.mapOut p fun _ r => { r with enable := 0 }
  let s := { s with clockingReset := true }
  let s := s.mapIn p fun _ i => { i with hpdEn := false, serviceClock := none, video := HdmiIn.disable i.video }
  let s := if p.simulation then s else patternFillFramebuffer p m.hActive m.vActive s
  let s := { s with clockConfig := m.pixelClock }
  let s := fbSetMode p env m s
  let s := edidSetMode p m secMode s
  let s := s.mapIn p fun k i => { i with video := HdmiIn.initVideo k m.hActive m.vActive i.video }
  let s := { s with clockingReset := false }
  let s := s.mapOut p fun _ r => { r with enable := 1 }
  s.mapIn p fun _ i => { i with hpdEn := true }

def processorStart (mode : Int) (s : State) : State :=
  let (secMode, s) :=
    if s.secondaryMode ≠ edidSecondaryModeOff ∧ s.secondaryMode ≠ mode then
      (some (videoModeAt p env.stray s.secondaryMode), s.index s.secondaryMode)
    else (none, s)
  if mode = processorModeCustom then startTiming p env s.customMode secMode mode s
  else startTiming p env (videoModeAt p env.stray mode) secMode mode (s.index mode)

def processorSetCustomMode (s : State) : State := processorStart p env processorModeCustom s

def processorSetSecondaryMode (mode : Int) (s : State) : State :=
  processorStart p env s.processorMode { s with secondaryMode := mode }

/-- `processor_describe_mode`, as far as what it looks up. -/
def processorDescribeMode (mode : Int) (s : State) : State :=
  if processorModeCount p ≤ mode then s
  else (s.index mode).divide (refreshSpan (videoModeAt p env.stray mode))

def processorListModes (s : State) : State :=
  (List.range (processorModeCount p).toNat).foldl (fun s (i : Nat) => processorDescribeMode p env i s) s

/-! ## The main loop -/

def videoInPattern : Int := 0
def videoInHdmiIn0 : Int := 1
def videoInHdmiIn1 : Int := 2
def videoInPcie : Int := 3
def videoInMax : Int := 4

/-- `n` is a `char`, which is unsigned on the LM32. -/
def pcieInFramebufferBase (n : BitVec 8) : Word := framebufferBasePcie + n.setWidth 32 * framebufferSize

/-- The base address that `processor_update` gives a sink connected to `source`, one `if` after the other. -/
def sourceBase (s : State) (source pcieSource : Int) (base : Word) : Word :=
  let base := if p.hasIn 0 ∧ source = videoInHdmiIn0 then HdmiIn.base 0 (s.input 0).video.fbIndex else base
  let base := if p.hasIn 1 ∧ source = videoInHdmiIn1 then HdmiIn.base 1 (s.input 1).video.fbIndex else base
  let pcieInFbIdx := env.pcieInFbIndex >>> 24
  let base := if p.hasPcie ∧ pcieSource = videoInPcie then pcieInFramebufferBase (pcieInFbIdx.setWidth 8) else base
  if source = videoInPattern then framebufferBasePattern else base

/-- `processor_update`.  Both outputs test output 0's source for PCIe, and the encoder has no PCIe source. -/
def processorUpdate (s : State) : State :=
  let s := s.mapOut p fun k r => { r with base := sourceBase p env s (s.outSource k) (s.outSource 0) r.base }
  { s with encoderBase :=
      if p.hasEncoder then sourceBase p env s s.encoderSource videoInPattern s.encoderBase else s.encoderBase }

/-- `processor_service`, up to `encoder_service`; of the inputs' services, the clock they are called with. -/
def processorService (s : State) : State :=
  let m := videoModeAt p env.stray s.processorMode
  let s := s.index s.processorMode
  processorUpdate p env (s.mapIn p fun _ i => { i with serviceClock := some m.pixelClock })

end Processor
end Hdmi2Usb
