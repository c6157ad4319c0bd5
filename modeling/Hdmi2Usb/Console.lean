import Hdmi2Usb.Processor
import Hdmi2Usb.Tokenizer
/-!
# Console — the command line and the main loop (`ci.c`, `main.c`, `config.c`)

`ciService` reads a line and runs its command; `boot` is what `main` does before its loop, and `step` one call from the
loop.  Of the commands that touch nothing of the state there are only the names; what is printed is left out.
-/
namespace Hdmi2Usb
namespace Console

open Processor

variable (p : Platform) (env : Env)

/-! ## Video modes -/

def videoModeSet (mode : Int) (s : State) : State :=
  if mode < processorModeCount p then processorStart p env mode (processorDescribeMode p env mode s) else s

def videoModeSecondary (str : List Char) (s : State) : State :=
  let token := (getToken str).1
  if token = [] then s
  else if token = "off".toList then processorSetSecondaryMode p env edidSecondaryModeOff s
  else
    let mode := atoi token
    if mode < processorModeCount p then processorSetSecondaryMode p env mode (processorDescribeMode p env mode s) else s

def timingModeFlags : List (String × Word) :=
  [("+HSync", edidHsyncPos), ("-HSync", edidHsyncNeg), ("+VSync", edidVsyncPos), ("-VSync", edidVsyncNeg),
    ("Interlace", edidInterlace)]

/-- Whether `strcasecmp` finds two strings equal. -/
def sameIgnoringCase (a b : List Char) : Bool := a.map Char.toLower = b.map Char.toLower

/-- The loop over a modeline's options.  Every turn shortens the string. -/
def optionsLoop : Nat → List Char → Word → Word
  | 0, _, modeFlags => modeFlags
  | fuel + 1, str, modeFlags =>
    if str = [] then modeFlags
    else
      let (token, str) := getToken str
      if token = [] ∧ str = [] then modeFlags
      else
        match timingModeFlags.find? (fun f => sameIgnoringCase f.1.toList token) with
        | some f => optionsLoop fuel str (modeFlags ||| f.2)
        | none   => if token ≠ [] then optionsLoop fuel str modeFlags else modeFlags

structure Modeline where
  dotClock   : Word
  width      : Word
  hSyncStart : Word
  hSyncEnd   : Word
  hTotal     : Word
  height     : Word
  vSyncStart : Word
  vSyncEnd   : Word
  vTotal     : Word
  modeFlags  : Word
deriving DecidableEq

def nextNumber (str : List Char) : Word × List Char :=
  let (token, str) := getToken str
  (BitVec.ofInt 32 (atoi token), str)

/-- The dot clock in tens of kHz, as `video_mode_custom` reads it. -/
def parseDotClock (token : List Char) : Word :=
  let (dotClockInt, token) := getTokenGeneric token '.'
  let dotClockDec := (getToken token).1
  BitVec.ofInt 32 (atoi dotClockInt) * 100 + BitVec.ofInt 32 (atoi dotClockDec)

/-- The parsing part of `video_mode_custom`.  `get_token` never returns a null pointer, so `NEXT_TOKEN_OR_RETURN` never
returns. -/
def parseModeline (str : List Char) : Modeline :=
  let (token, str) := getToken str
  let dotClock := parseDotClock token
  let (width, str) := nextNumber str
  let (hSyncStart, str) := nextNumber str
  let (hSyncEnd, str) := nextNumber str
  let (hTotal, str) := nextNumber str
  let (height, str) := nextNumber str
  let (vSyncStart, str) := nextNumber str
  let (vSyncEnd, str) := nextNumber str
  let (vTotal, str) := nextNumber str
  ⟨dotClock, width, hSyncStart, hSyncEnd, hTotal, height, vSyncStart, vSyncEnd, vTotal,
    optionsLoop str.length str edidDigital⟩

/-- What `video_mode_custom` writes to the custom entry. -/
def Modeline.timing (m : Modeline) (old : VideoTiming) : VideoTiming :=
  { old with
    pixelClock  := m.dotClock
    hActive     := m.width
    hBlanking   := m.hTotal - m.width
    hSyncOffset := m.hSyncStart - m.hTotal
    hSyncWidth  := m.hSyncEnd - m.hSyncStart
    vActive     := m.height
    vBlanking   := m.vTotal - m.height
    vSyncOffset := m.vSyncStart - m.height
    vSyncWidth  := m.vSyncEnd - m.vSyncStart
    flags       := m.modeFlags }

/-- `video_mode_custom`.  The check of the ranges only prints. -/
def videoModeCustom (str : List Char) (s : State) : State :=
  processorSetCustomMode p env { s with customMode := (parseModeline str).timing s.customMode }

/-! ## Other commands -/

def videoOutHdmiOut0 : Int := 0
def videoOutHdmiOut1 : Int := 1
def videoOutEncoder : Int := 2
def videoOutPcie : Int := 3

def videoMatrixConnect (source sink : Int) (s : State) : State :=
  if 0 ≤ source ∧ source < videoInMax then
    if 0 ≤ sink ∧ sink ≤ videoOutHdmiOut1 then
      let k : Fin 2 := if sink = videoOutHdmiOut0 then 0 else 1
      processorUpdate p env
        (if p.hasOut k then { s with outSource := Function.update s.outSource k source } else s)
    else if p.hasEncoder ∧ sink = videoOutEncoder then processorUpdate p env { s with encoderSource := source }
    else if p.hasPcie ∧ sink = videoOutPcie then processorUpdate p env s
    else s
  else s

def matrixSource (token : List Char) : Int :=
  if token = "input0".toList ∨ token = "0".toList then videoInHdmiIn0
  else if token = "input1".toList ∨ token = "1".toList then videoInHdmiIn1
  else if token = "pattern".toList ∨ token = "p".toList then videoInPattern
  else if token = "pcie".toList ∨ token = "x".toList then videoInPcie
  else -1

def matrixSink (token : List Char) : Int :=
  if token = "output0".toList ∨ token = "0".toList then videoOutHdmiOut0
  else if token = "output1".toList ∨ token = "1".toList then videoOutHdmiOut1
  else if token = "encoder".toList ∨ token = "e".toList then videoOutEncoder
  else if token = "pcie".toList ∨ token = "x".toList then videoOutPcie
  else -1

def inputOn (k : Fin 2) (s : State) : State :=
  s.mapIn p fun j i => if j = k then { i with video := HdmiIn.enable k i.video } else i

def inputOff (k : Fin 2) (s : State) : State :=
  s.mapIn p fun j i => if j = k then { i with video := HdmiIn.disable i.video } else i

def outputEnable (k : Fin 2) (enable : Word) (s : State) : State :=
  s.mapOut p fun j r => if j = k then { r with enable } else r

/-- `hdp_toggle` ends with the hot-plug line of the input on. -/
def hdpToggle (source : Int) (s : State) : State :=
  s.mapIn p fun k i =>
    if source = (if k = 0 then videoInHdmiIn0 else videoInHdmiIn1) then { i with hpdEn := true } else i

def patternMax : Nat := 2

def patternNext (s : State) : State :=
  patternFillFramebuffer p s.hActive s.vActive { s with pattern := (s.pattern + 1) % patternMax }

/-- What `status_print` and `status_short_print` look up: the secondary mode's description. -/
def statusPrint (s : State) : State :=
  if s.secondaryMode = edidSecondaryModeOff then s else processorDescribeMode p env s.secondaryMode s

/-! ## Boot -/

inductive ConfigKey
  | resPrimary
  | resSecondary
  | input0Enabled
  | input1Enabled
  | output0Enabled
  | output0Source
  | output1Enabled
  | output1Source
  | encoderSource

def videoInDefault : Int := if p.hasIn 1 then videoInHdmiIn1 else if p.hasIn 0 then videoInHdmiIn0 else videoInPattern

/-- `config_defaults`, in unsigned bytes. -/
def configDefaults : ConfigKey → BitVec 8
  | .resPrimary     => BitVec.ofInt 8 (if p.netv2OrNexysVideo then processorMode1080p60 else processorMode720p50)
  | .resSecondary   => BitVec.ofInt 8 (if p.netv2OrNexysVideo then edidSecondaryModeOff else processorMode720p60)
  | .input0Enabled  => 0
  | .input1Enabled  => 1
  | .output0Enabled => 1
  | .output0Source  => BitVec.ofInt 8 (videoInDefault p)
  | .output1Enabled => 1
  | .output1Source  => BitVec.ofInt 8 videoInPattern
  | .encoderSource  => BitVec.ofInt 8 (videoInDefault p)

/-- `config_get`: `config_set` does nothing, so the defaults stay. -/
def configGet (key : ConfigKey) : Int := (configDefaults p key).toNat

def zeroTiming : VideoTiming := ⟨0, 0, 0, 0, 0, 0, 0, 0, 0, 0, 0, none⟩

/-- The variables as the loader leaves them; registers keep what they have. -/
def load (s : State) : State :=
  { s with
    customMode := zeroTiming, processorMode := 0, secondaryMode := edidSecondaryModeOff
    hActive := 0, vActive := 0, refresh := 0, outSource := fun _ => 0, encoderSource := 0, pattern := 0 }

def processorInit (secMode : Int) (s : State) : State :=
  { s with
    outSource := fun _ => videoInHdmiIn0, encoderSource := videoInHdmiIn0, pattern := 0, secondaryMode := secMode }

/-- An input or an output is switched off, and on again if the configuration says so. -/
def bootInput (k : Fin 2) (enabled : Int) (s : State) : State :=
  if enabled ≠ 0 then inputOn p k (inputOff p k s) else inputOff p k s

def bootOutput (k : Fin 2) (enabled source : Int) (s : State) : State :=
  let s := outputEnable p k 0 s
  if p.hasOut k ∧ enabled ≠ 0 then
    { outputEnable p k 1 s with outSource := Function.update s.outSource k source }
  else s

/-- The inputs, the outputs and the encoder, as `main` sets them from the configuration. -/
def applyConfig (s : State) : State :=
  let s := bootInput p 0 (configGet p .input0Enabled) s
  let s := bootInput p 1 (configGet p .input1Enabled) s
  let s := bootOutput p 0 (configGet p .output0Enabled) (configGet p .output0Source) s
  let s := bootOutput p 1 (configGet p .output1Enabled) (configGet p .output1Source) s
  { s with encoderSource := if p.hasEncoder then configGet p .encoderSource else s.encoderSource }

/-- `main`, up to its loop. -/
def boot (s : State) : State :=
  let s := processorInit (configGet p .resSecondary) (load s)
  let s := processorUpdate p env s
  let s := processorStart p env (configGet p .resPrimary) s
  applyConfig p (processorService p env s)

/-! ## The command line -/

structure System where
  proc               : State
  statusEnabled      : Bool
  statusShortEnabled : Bool

def booted (s : State) : System := ⟨boot p env s, false, false⟩

def System.run (s : System) (f : State → State) : System := { s with proc := f s.proc }

def onOff (str : List Char) (on off : System → System) (s : System) : System :=
  let token := (getToken str).1
  if token = "on".toList then on s else if token = "off".toList then off s else s

def videoMatrix (str : List Char) (s : System) : System :=
  let (token, str) := getToken str
  if token = "connect".toList ∨ token = "c".toList then
    let (token, str) := getToken str
    let source := matrixSource token
    let sink := matrixSink (getToken str).1
    if 0 ≤ source ∧ 0 ≤ sink then s.run (videoMatrixConnect p env source sink) else s
  else s

def videoMode (str : List Char) (s : System) : System :=
  let (token, str) := getToken str
  if token = "list".toList ∨ token = "l".toList then s.run (processorListModes p env)
  else if token = "custom".toList then s.run (videoModeCustom p env str)
  else if token = "secondary".toList ∨ token = "s".toList then s.run (videoModeSecondary p env str)
  else s.run (videoModeSet p env (atoi token))

def status (str : List Char) (s : System) : System :=
  let (token, str) := getToken str
  if token = "short".toList then
    let token := (getToken str).1
    if token = "on".toList then { s with statusShortEnabled := true }
    else if token = "off".toList then { s with statusShortEnabled := false }
    else s.run (statusPrint p env)
  else if token = "on".toList then { s with statusEnabled := true }
  else if token = "off".toList then { s with statusEnabled := false }
  else s.run (statusPrint p env)

/-- The commands that touch nothing of the state. -/
def OtherCommand (token : List Char) : Prop :=
  token ∈ ["help", "uptime", "u", "heartbeat", "h", "debug", "d", "version"].map String.toList ∨
    (p.hasMdio ∧ token ∈ ["mdio_status", "mdio_dump"].map String.toList) ∨
      (p.hasEncoder ∧ token ∈ ["encoder", "e"].map String.toList)

instance (token : List Char) : Decidable (OtherCommand p token) := inferInstanceAs (Decidable (_ ∨ _))

/-- The commands of `ci_service`; what is none of them switches the status off. -/
def command (line : List Char) (s : System) : System :=
  let (token, str) := getToken line
  if token = "reboot".toList then booted p env s.proc
  else if token = "video_matrix".toList ∨ token = "x".toList then videoMatrix p env str s
  else if token = "video_mode".toList ∨ token = "m".toList then videoMode p env str s
  else if token = "hdp_toggle".toList then s.run (hdpToggle p (atoi (getToken str).1))
  else if p.hasOut 0 ∧ (token = "output0".toList ∨ token = "o0".toList) then
    onOff str (·.run (outputEnable p 0 1)) (·.run (outputEnable p 0 0)) s
  else if p.hasOut 1 ∧ (token = "output1".toList ∨ token = "o1".toList) then
    onOff str (·.run (outputEnable p 1 1)) (·.run (outputEnable p 1 0)) s
  else if p.hasIn 0 ∧ (token = "input0".toList ∨ token = "i0".toList) then
    onOff str (·.run (inputOn p 0)) (·.run (inputOff p 0)) s
  else if p.hasIn 1 ∧ (token = "input1".toList ∨ token = "i1".toList) then
    onOff str (·.run (inputOn p 1)) (·.run (inputOff p 1)) s
  else if token = "pattern".toList ∨ token = "p".toList then s.run (patternNext p)
  else if token = "status".toList ∨ token = "s".toList then status p env str s
  else if OtherCommand p token then s
  else { s with statusEnabled := false }

/-- What the commands do that touch neither a mode nor a mode's description. -/
inductive Control : State → State → Prop
  | connect (source sink : Int) (s : State) : Control s (videoMatrixConnect p env source sink s)
  | hotPlug (source : Int) (s : State) : Control s (hdpToggle p source s)
  | output (k : Fin 2) (enable : Word) (s : State) : Control s (outputEnable p k enable s)
  | inputOn (k : Fin 2) (s : State) : Control s (inputOn p k s)
  | inputOff (k : Fin 2) (s : State) : Control s (inputOff p k s)
  | pattern (s : State) : Control s (patternNext p s)

/-- `status_service`, when its second has elapsed. -/
def statusService (s : System) : System :=
  let s := if s.statusEnabled then s.run (statusPrint p env) else s
  if s.statusShortEnabled then s.run (statusPrint p env) else s

/-- `ci_service`, with the line that `readstr` returns if it has one.  It is a C string: it ends at a null character. -/
def ciService (elapsed : Bool) (line : Option (List Char)) (s : System) : System :=
  let s := if elapsed then statusService p env s else s
  match line with
  | none      => s
  | some line => command p env (line.takeWhile (· ≠ '\x00')) s

inductive Call
  | processorService
  | ciService (elapsed : Bool) (line : Option (List Char))

def step (s : System) : Env × Call → System
  | (env, .processorService)       => s.run (processorService p env)
  | (env, .ciService elapsed line) => ciService p env elapsed line s

/-! ## Rules for what a call keeps -/

variable {p env} {P : State → Prop} {s : System}

theorem run_proc (s : System) (f : State → State) : (s.run f).proc = f s.proc := rfl

theorem ite_keeps {c : Prop} [Decidable c] {a b : System} (ha : c → P a.proc) (hb : ¬ c → P b.proc) :
    P (if c then a else b).proc := by
  by_cases hc : c
  · rw [if_pos hc]
    exact ha hc
  · rw [if_neg hc]
    exact hb hc

theorem onOff_keeps {on off : System → System} (h : P s.proc) (hon : P (on s).proc) (hoff : P (off s).proc)
    (str : List Char) : P (onOff str on off s).proc :=
  ite_keeps (fun _ => hon) fun _ => ite_keeps (fun _ => hoff) fun _ => h

theorem videoMatrix_keeps (h : P s.proc) (hcontrol : ∀ t, Control p env s.proc t → P t) (str : List Char) :
    P (videoMatrix p env str s).proc := by
  refine ite_keeps (fun _ => ?_) fun _ => h
  exact ite_keeps (fun _ => hcontrol _ (.connect _ _ _)) fun _ => h

theorem status_keeps (h : P s.proc) (hstatus : P (statusPrint p env s.proc)) (str : List Char) :
    P (status p env str s).proc := by
  refine ite_keeps (fun _ => ?_) fun _ => ?_
  · refine ite_keeps (fun _ => h) fun _ => ?_
    exact ite_keeps (fun _ => h) fun _ => hstatus
  · refine ite_keeps (fun _ => h) fun _ => ?_
    exact ite_keeps (fun _ => h) fun _ => hstatus

/-- **Rule for the commands**: one obligation for booting, one for `video_mode`, one for the descriptions that `status`
prints, and one for the rest. -/
theorem command_keeps {line : List Char} (h : P s.proc) (hboot : P (boot p env s.proc))
    (hmode : (getToken line).1 = "video_mode".toList ∨ (getToken line).1 = "m".toList →
      P (videoMode p env (getToken line).2 s).proc)
    (hstatus : P (statusPrint p env s.proc)) (hcontrol : ∀ t, Control p env s.proc t → P t) :
    P (command p env line s).proc := by
  unfold command
  generalize getToken line = t at hmode ⊢
  obtain ⟨token, str⟩ := t
  refine ite_keeps (fun _ => hboot) fun _ => ?_
  refine ite_keeps (fun _ => videoMatrix_keeps h hcontrol str) fun _ => ?_
  refine ite_keeps hmode fun _ => ?_
  refine ite_keeps (fun _ => hcontrol _ (.hotPlug _ _)) fun _ => ?_
  refine ite_keeps (fun _ => onOff_keeps h (hcontrol _ (.output 0 1 _)) (hcontrol _ (.output 0 0 _)) str) fun _ => ?_
  refine ite_keeps (fun _ => onOff_keeps h (hcontrol _ (.output 1 1 _)) (hcontrol _ (.output 1 0 _)) str) fun _ => ?_
  refine ite_keeps (fun _ => onOff_keeps h (hcontrol _ (.inputOn 0 _)) (hcontrol _ (.inputOff 0 _)) str) fun _ => ?_
  refine ite_keeps (fun _ => onOff_keeps h (hcontrol _ (.inputOn 1 _)) (hcontrol _ (.inputOff 1 _)) str) fun _ => ?_
  refine ite_keeps (fun _ => hcontrol _ (.pattern _)) fun _ => ?_
  refine ite_keeps (fun _ => status_keeps h hstatus str) fun _ => ?_
  exact ite_keeps (fun _ => h) fun _ => h

theorem statusService_keeps (h : P s.proc) (hstatus : ∀ s, P s → P (statusPrint p env s)) :
    P (statusService p env s).proc := by
  have hfirst : P (if s.statusEnabled then s.run (statusPrint p env) else s).proc :=
    ite_keeps (fun _ => hstatus _ h) fun _ => h
  exact ite_keeps (fun _ => hstatus _ hfirst) fun _ => hfirst

theorem ciService_keeps (h : P s.proc) (hstatus : ∀ s, P s → P (statusPrint p env s)) {elapsed : Bool}
    {line : Option (List Char)} (hcommand : ∀ (t : System) (l : List Char), P t.proc → line = some l →
      P (command p env (l.takeWhile (· ≠ '\x00')) t).proc) : P (ciService p env elapsed line s).proc := by
  have hs : P (if elapsed then statusService p env s else s).proc :=
    ite_keeps (fun _ => statusService_keeps h hstatus) fun _ => h
  cases line with
  | none => exact hs
  | some l => exact hcommand _ l hs rfl

/-! ## Lines that set a mode -/

theorem command_videoMode {line token str : List Char} (hline : getToken line = (token, str))
    (htoken : token = "video_mode".toList ∨ token = "m".toList) : command p env line s = videoMode p env str s := by
  have hreboot : token ≠ "reboot".toList := by rcases htoken with rfl | rfl <;> decide
  have hmatrix : ¬ (token = "video_matrix".toList ∨ token = "x".toList) := by rcases htoken with rfl | rfl <;> decide
  unfold command
  rw [hline]
  exact (if_neg hreboot).trans ((if_neg hmatrix).trans (if_pos htoken))

theorem videoMode_custom {str rest : List Char} (hstr : getToken str = ("custom".toList, rest)) :
    videoMode p env str s = s.run (videoModeCustom p env rest) := by
  have hlist : ¬ ("custom".toList = "list".toList ∨ "custom".toList = "l".toList) := by decide
  unfold videoMode
  rw [hstr]
  exact (if_neg hlist).trans (if_pos rfl)

end Console
end Hdmi2Usb
