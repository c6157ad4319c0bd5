import Hdmi2Usb.Framebuffer
import Hdmi2Usb.Runs
/-!
# EncoderRate — the encoder's target rate (`encoder.c`, and `processor_init` of `processor.c`)

`encoder_service` divides the system clock by the target rate to know when the next frame is due.  The rate is set by
`encoder_set_fps`, which checks the rate it replaces and not the one it stores: a rate out of range is stored with the
answer of success, and it is the call after it that is refused, whatever it asks for.
-/
namespace Hdmi2Usb
namespace EncoderRate

open Runs (AllSteps AllStates)

/-- `CONFIG_CLOCK_FREQUENCY`, which the build writes: a positive `int`. -/
def ClockFrequency : Type := { f : Word // 0 < f.toInt }

structure State where
  enabled      : BitVec 8
  targetFps    : Word
  fps          : Word
  quality      : Word
  lastEvent    : Word
  lastFpsEvent : Word
  frameCnt     : Word
  canStart     : Bool
  /-- The quality whose tables are in the quantizer RAMs. -/
  tables       : Word
  imageSize    : Word
  start        : Word
  hWidth       : Word
  vWidth       : Word
  readerStart  : Bool
deriving Inhabited

/-- What one service call reads: the timer, through the two calls of `elapsed` (from the last event and the period, the
new last event and whether the period is over), the encoder, its reader, and the size of the picture. -/
structure Seen where
  elapsedEvent : Word → Word → Word × Bool
  elapsedFps   : Word → Word → Word × Bool
  encoderDone  : Bool
  readerDone   : Bool
  hActive      : Word
  vActive      : Word
deriving Inhabited

/-- `encoder_init`: the tables of the quality, and those of 50 for a quality there are no tables for. -/
def encoderInit (quality : Word) (s : State) : State :=
  let q := if quality = 100 then 100 else if quality = 85 then 85 else if quality = 75 then 75 else 50
  { s with tables := q, quality := q }

/-- `encoder_start`: the sizes are `short`s. -/
def encoderStart (resx resy : BitVec 16) (s : State) : State :=
  { s with imageSize := (resx.signExtend 32 <<< 16) ||| resy.signExtend 32, start := 7 }

def encoderEnable (enable : BitVec 8) (s : State) : State := { s with enabled := enable }

def encoderSetQuality (quality : Word) (s : State) : Word × State :=
  if quality = 100 ∨ quality = 85 ∨ quality = 75 ∨ quality = 50 then (1, { s with quality := quality }) else (0, s)

def encoderSetFps (fps : Word) (s : State) : Word × State :=
  if BitVec.slt 0 s.targetFps ∧ BitVec.sle s.targetFps 60 then (0, { s with targetFps := fps })
  else (1, { s with targetFps := 30 })

/-- What the encoder's part of `processor_init` does. -/
def processorInit (s : State) : State := { encoderEnable 0 s with targetFps := 30 }

variable (clk : ClockFrequency)

/-- The ticks between two frames: a division of `int`s. -/
def period (s : State) : Word := clk.val.sdiv s.targetFps

/-- `encoder_service`.  It does not return if it divides by zero. -/
def encoderService (seen : Seen) (s : State) : Option State :=
  if s.enabled = 0 then some s
  else if s.targetFps = 0 then none
  else
    let (lastEvent, due) := seen.elapsedEvent s.lastEvent (period clk s)
    let s := { s with lastEvent := lastEvent, canStart := due || s.canStart }
    let s :=
      if s.canStart && seen.encoderDone then
        let s := encoderStart (seen.hActive.setWidth 16) (seen.vActive.setWidth 16) (encoderInit s.quality s)
        { s with canStart := false, frameCnt := s.frameCnt + 1 }
      else s
    let s :=
      if seen.readerDone then { s with hWidth := seen.hActive, vWidth := seen.vActive, readerStart := true } else s
    let (lastFpsEvent, second) := seen.elapsedFps s.lastFpsEvent clk.val
    let s := { s with lastFpsEvent := lastFpsEvent }
    some (if second then { s with fps := s.frameCnt, frameCnt := 0 } else s)

inductive Op
  | setFps (fps : Word)
  | service (seen : Seen)
  | enable (e : BitVec 8)
  | setQuality (quality : Word)

/-- One call; `none` is a processor that has divided by zero. -/
def step (s : Option State) (op : Op) : Option State :=
  s.bind fun s => match op with
    | .setFps fps         => some (encoderSetFps fps s).2
    | .service seen       => encoderService clk seen s
    | .enable e           => some (encoderEnable e s)
    | .setQuality quality => some (encoderSetQuality quality s).2

/-! ## A usable rate -/

def Rate (fps : Word) : Prop := 1 ≤ fps.toInt ∧ fps.toInt ≤ 60

instance (fps : Word) : Decidable (Rate fps) := inferInstanceAs (Decidable (_ ∧ _))

/-- What `encoder_set_fps` returns where it stores its argument. -/
def success : Word := 0

/-- The processor is running, and its rate is usable. -/
def Rated (s : Option State) : Prop := ∃ t, s = some t ∧ Rate t.targetFps

/-- What is asked of a call in a state: of the setter, its answer; of the service, its division. -/
def Answers (s : Option State) (op : Op) : Prop :=
  ∀ t, s = some t → match op with
    | .setFps fps =>
      (((encoderSetFps fps t).1 = success ∧ (encoderSetFps fps t).2.targetFps = fps) ↔ Rate fps) ∧
        (¬ Rate fps → (encoderSetFps fps t).1 ≠ success ∧ Rate (encoderSetFps fps t).2.targetFps)
    | .service _ => t.targetFps ≠ 0 ∧ 0 ≤ (period clk t).toInt
    | _ => True

/-- Every state of the run has a usable rate, and every call of it answers as it should. -/
def Usable (s : Option State) (ops : List Op) : Prop :=
  AllStates (step clk) Rated s ops ∧ AllSteps (step clk) (Answers clk) s ops

/-- The argument of a setter's call is a usable rate. -/
def Asks : Op → Prop
  | .setFps fps => Rate fps
  | _           => True

/-! ## What the calls do -/

theorem rate_iff (fps : Word) : (BitVec.slt 0 fps = true ∧ BitVec.sle fps 60 = true) ↔ Rate fps := by
  rw [BitVec.slt_iff_toInt_lt, BitVec.sle_iff_toInt_le]
  exact Iff.rfl

theorem ne_zero_of_rate {fps : Word} (h : Rate fps) : fps ≠ 0 := by
  rintro rfl
  exact absurd h.1 (by decide)

/-- From a usable rate the setter stores whatever it is given. -/
theorem encoderSetFps_of_rate {s : State} (h : Rate s.targetFps) (fps : Word) :
    encoderSetFps fps s = (success, { s with targetFps := fps }) := by
  unfold encoderSetFps
  rw [if_pos ((rate_iff _).2 h)]
  rfl

/-- A period is a part of the clock frequency, and so not negative. -/
theorem period_nonneg {s : State} (h : Rate s.targetFps) : 0 ≤ (period clk s).toInt := by
  have hclk := clk.property
  have hpos := h.1
  have hfits : clk.val.toInt.tdiv s.targetFps.toInt ≤ clk.val.toInt := Int.tdiv_le_self _ (by omega)
  have hlt := BitVec.toInt_lt (x := clk.val)
  have hnonneg : 0 ≤ clk.val.toInt.tdiv s.targetFps.toInt := Int.tdiv_nonneg (by omega) (by omega)
  unfold period
  rw [BitVec.toInt_sdiv, Int.bmod_eq_of_le (by omega) (by omega)]
  exact hnonneg

theorem targetFps_encoderService (seen : Seen) {s : State} (h : s.targetFps ≠ 0) :
    ∃ t, encoderService clk seen s = some t ∧ t.targetFps = s.targetFps := by
  unfold encoderService
  by_cases he : s.enabled = 0
  · exact ⟨s, if_pos he, rfl⟩
  · rw [if_neg he, if_neg h]
    refine ⟨_, rfl, ?_⟩
    simp only [encoderStart, encoderInit]
    split_ifs <;> rfl

/-- The setter's call asks for a usable rate exactly when the state after it has one. -/
theorem rated_step {s : Option State} (h : Rated s) (op : Op) : Rated (step clk s op) ↔ Asks op := by
  obtain ⟨t, rfl, ht⟩ := h
  unfold Rated step
  rw [Option.bind_some]
  cases op with
  | setFps fps => simp only [encoderSetFps_of_rate ht, Option.some.injEq, exists_eq_left', Asks]
  | service seen =>
    obtain ⟨u, hu, hrate⟩ := targetFps_encoderService clk seen (ne_zero_of_rate ht)
    refine iff_of_true ⟨u, hu, ?_⟩ trivial
    rw [hrate]
    exact ht
  | enable e => exact iff_of_true ⟨_, rfl, ht⟩ trivial
  | setQuality quality =>
    refine iff_of_true ⟨_, rfl, ?_⟩ trivial
    unfold encoderSetQuality
    split <;> exact ht

theorem answers_of_asks {s : Option State} (h : Rated s) {op : Op} (hop : Asks op) : Answers clk s op := by
  obtain ⟨t, rfl, ht⟩ := h
  rintro _ ⟨⟩
  cases op with
  | setFps fps =>
    show (_ ∧ _ ↔ _) ∧ _
    rw [encoderSetFps_of_rate ht]
    exact ⟨iff_of_true ⟨rfl, rfl⟩ hop, fun hn => absurd hop hn⟩
  | service seen => exact ⟨ne_zero_of_rate ht, period_nonneg clk ht⟩
  | enable e => trivial
  | setQuality quality => trivial

theorem rated_processorInit (s : State) : Rated (some (processorInit s)) := ⟨_, rfl, (by decide : Rate 30)⟩

/-- The calls of a run all meet a condition on the calls alone. -/
theorem allSteps_asks (ops : List Op) (s : Option State) :
    AllSteps (step clk) (fun _ op => Asks op) s ops ↔ ∀ fps, Op.setFps fps ∈ ops → Rate fps := by
  rw [Runs.allSteps_inputs]
  constructor
  · intro h fps hmem
    exact h (.setFps fps) hmem
  · intro h op hmem
    cases op with
    | setFps fps => exact h fps hmem
    | service seen => trivial
    | enable e => trivial
    | setQuality quality => trivial

/-- **The rate stays usable exactly when** every rate asked for is usable: the setter never refuses the one it is
given. -/
theorem usable_iff (s : State) (ops : List Op) :
    Usable clk (some (processorInit s)) ops ↔ ∀ fps, Op.setFps fps ∈ ops → Rate fps := by
  have hrated := rated_processorInit s
  have hstates : AllStates (step clk) Rated (some (processorInit s)) ops ↔
      AllSteps (step clk) (fun _ op => Asks op) (some (processorInit s)) ops :=
    Runs.allStates_iff_allSteps (fun _ h => h) (fun _ op h => rated_step clk h op)
      (fun _ op h hop => (rated_step clk h op).2 hop) ops hrated
  rw [← allSteps_asks clk ops (some (processorInit s)), ← hstates]
  refine ⟨And.left, fun h => ⟨h, ?_⟩⟩
  have hstep : ∀ s op, Rated s → Asks op → Answers clk s op ∧ Rated (step clk s op) :=
    fun _ op hr hop => ⟨answers_of_asks clk hr hop, (rated_step clk hr op).2 hop⟩
  exact (AllSteps.inv hstep hrated (hstates.1 h)).1

/-- A rate of zero is stored with the answer of success, and the next service call divides by it. -/
theorem not_usable_zero :
    ¬ Usable ⟨50000000, by decide⟩ (some (processorInit default)) [.enable 1, .setFps 0, .service default] := by
  intro h
  obtain ⟨t, hnone, -⟩ := h.1.2.2.2
  cases hnone

end EncoderRate
end Hdmi2Usb
