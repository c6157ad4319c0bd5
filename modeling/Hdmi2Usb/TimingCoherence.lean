import Hdmi2Usb.ModeIndexes
/-!
# TimingCoherence — one timing in every part of the pipeline

`processorStart` leaves everything on the timing it started, whatever was there before, and no other operation but the
service call takes anything off it.  The service call looks the pixel clock up again, by the mode's number: for the
custom mode, which has none, it reads outside the table.
-/
namespace Hdmi2Usb
namespace Console

open Processor
open Runs (AllSteps AllStates)

variable {p : Platform} {env : Env}

/-! ## Coherence -/

structure Shows (m : VideoTiming) (r : Initiator) : Prop where
  hres       : r.hres = m.hActive
  hsyncStart : r.hsyncStart = m.hActive + m.hSyncOffset
  hsyncEnd   : r.hsyncEnd = m.hActive + m.hSyncOffset + m.hSyncWidth
  hscan      : r.hscan = m.hActive + m.hBlanking
  vres       : r.vres = m.vActive
  vsyncStart : r.vsyncStart = m.vActive + m.vSyncOffset
  vsyncEnd   : r.vsyncEnd = m.vActive + m.vSyncOffset + m.vSyncWidth
  vscan      : r.vscan = m.vActive + m.vBlanking
  length     : r.length = m.hActive * m.vActive * 2

/-- The input expects frames of the timing `m`, offers it in its EDID, and has been served with no other clock. -/
structure Takes (m : VideoTiming) (i : Input) : Prop where
  hres      : i.video.hres = m.hActive
  vres      : i.video.vres = m.vActive
  frameSize : i.video.dmaFrameSize = m.hActive * m.vActive * 2
  edid      : i.edid.map Edid.timing = some m
  clock     : ∀ c, i.serviceClock = some c → c = m.pixelClock

/-- Every part of the pipeline is on the timing last started, and that is the running mode's. -/
structure Coherent (p : Platform) (s : State) : Prop where
  custom      : s.processorMode = processorModeCustom → s.started = s.customMode
  table       : InTable p s.processorMode → (videoModes p)[s.processorMode.toNat]? = some s.started
  hActive     : s.hActive = s.started.hActive
  vActive     : s.vActive = s.started.vActive
  clockConfig : s.clockConfig = s.started.pixelClock
  clkgen      : clkgenFor p s.clkgen s.started.pixelClock = s.clkgen
  out         : ∀ k, p.hasOut k = true → Shows s.started (s.out k)
  input       : ∀ k, p.hasIn k = true → Takes s.started (s.input k)

theorem Coherent.mapOut {s : State} (h : Coherent p s) {f : Fin 2 → Initiator → Initiator}
    (hf : ∀ k r, Shows s.started r → Shows s.started (f k r)) : Coherent p (s.mapOut p f) := by
  refine ⟨h.custom, h.table, h.hActive, h.vActive, h.clockConfig, h.clkgen, ?_, h.input⟩
  intro k hk
  unfold State.mapOut
  simp only [if_pos hk]
  exact hf k _ (h.out k hk)

theorem Coherent.mapIn {s : State} (h : Coherent p s) {f : Fin 2 → Input → Input}
    (hf : ∀ k i, Takes s.started i → Takes s.started (f k i)) : Coherent p (s.mapIn p f) := by
  refine ⟨h.custom, h.table, h.hActive, h.vActive, h.clockConfig, h.clkgen, h.out, ?_⟩
  intro k hk
  unfold State.mapIn
  simp only [if_pos hk]
  exact hf k _ (h.input k hk)

theorem Coherent.index {s : State} (h : Coherent p s) (i : Int) : Coherent p (s.index i) :=
  ⟨h.custom, h.table, h.hActive, h.vActive, h.clockConfig, h.clkgen, h.out, h.input⟩

theorem Coherent.divide {s : State} (h : Coherent p s) (d : Word) : Coherent p (s.divide d) :=
  ⟨h.custom, h.table, h.hActive, h.vActive, h.clockConfig, h.clkgen, h.out, h.input⟩

theorem Coherent.patternFillFramebuffer {s : State} (h : Coherent p s) (hActive vActive : Word) :
    Coherent p (patternFillFramebuffer p hActive vActive s) := by
  unfold Processor.patternFillFramebuffer
  split
  · exact h.divide _
  · exact h

theorem Coherent.processorUpdate {s : State} (h : Coherent p s) : Coherent p (processorUpdate p env s) := by
  have hout := h.mapOut (f := fun k r => { r with base := sourceBase p env s (s.outSource k) (s.outSource 0) r.base })
    (fun k r hr => ⟨hr.1, hr.2, hr.3, hr.4, hr.5, hr.6, hr.7, hr.8, hr.9⟩)
  exact ⟨hout.custom, hout.table, hout.hActive, hout.vActive, hout.clockConfig, hout.clkgen, hout.out, hout.input⟩

/-! ## Starting a mode -/

variable (p env)

/-- Programming the clock generator twice is programming it once. -/
theorem clkgenFor_clkgenFor (clkgen : Nat → Word) (pixelClock : Word) :
    clkgenFor p (clkgenFor p clkgen pixelClock) pixelClock = clkgenFor p clkgen pixelClock := by
  unfold clkgenFor
  generalize fbGetClockMd p pixelClock = md
  obtain ⟨clockM, clockD⟩ := md
  cases p.clocking with
  | pll =>
    funext r
    simp only [fbClkgenWritePll, Function.update_apply]
    split <;> simp_all
  | mmcm =>
    funext r
    simp only [fbClkgenWriteMmcm, Function.update_apply]
    split_ifs <;> rfl

theorem out_startTiming (m : VideoTiming) (sec : Option VideoTiming) (mode : Int) (s : State) {k : Fin 2}
    (hk : p.hasOut k = true) : (startTiming p env m sec mode s).out k =
      { setInitiator m (env.uninitialised k) { s.out k with enable := 0 } with enable := 1 } := by
  unfold startTiming
  simp only [patternFillFramebuffer_eq, State.mapOut, State.mapIn, State.divide, fbSetMode, edidSetMode, if_pos hk]

theorem input_startTiming (m : VideoTiming) (sec : Option VideoTiming) (mode : Int) (s : State) {k : Fin 2}
    (hk : p.hasIn k = true) : (startTiming p env m sec mode s).input k =
      { video := HdmiIn.initVideo k m.hActive m.vActive (HdmiIn.disable (s.input k).video)
        hpdEn := true
        edid := some ⟨"OHW", "TV", 2015, edidName k, m, sec⟩
        serviceClock := none } := by
  unfold startTiming
  simp only [patternFillFramebuffer_eq, State.mapOut, State.mapIn, State.divide, fbSetMode, edidSetMode, if_pos hk]

theorem clkgen_startTiming (m : VideoTiming) (sec : Option VideoTiming) (mode : Int) (s : State) :
    (startTiming p env m sec mode s).clkgen = clkgenFor p s.clkgen m.pixelClock := by
  unfold startTiming
  simp only [patternFillFramebuffer_eq]
  rfl

theorem scalars_startTiming (m : VideoTiming) (sec : Option VideoTiming) (mode : Int) (s : State) :
    (startTiming p env m sec mode s).processorMode = mode ∧ (startTiming p env m sec mode s).started = m ∧
      (startTiming p env m sec mode s).customMode = s.customMode ∧
      (startTiming p env m sec mode s).hActive = m.hActive ∧ (startTiming p env m sec mode s).vActive = m.vActive ∧
      (startTiming p env m sec mode s).clockConfig = m.pixelClock := by
  unfold startTiming
  simp only [patternFillFramebuffer_eq]
  exact ⟨rfl, rfl, rfl, rfl, rfl, rfl⟩

/-- Starting the timing of a mode puts every part of the pipeline on it, from any state. -/
theorem coherent_startTiming {m : VideoTiming} {sec : Option VideoTiming} {mode : Int} {s : State}
    (hcustom : mode = processorModeCustom → m = s.customMode)
    (htable : InTable p mode → (videoModes p)[mode.toNat]? = some m) : Coherent p (startTiming p env m sec mode s) := by
  obtain ⟨hmode, hstarted, hcm, hh, hv, hclock⟩ := scalars_startTiming p env m sec mode s
  have hgen := clkgen_startTiming p env m sec mode s
  have hout := fun k hk => out_startTiming p env m sec mode s (k := k) hk
  have hin := fun k hk => input_startTiming p env m sec mode s (k := k) hk
  generalize startTiming p env m sec mode s = t at *
  refine ⟨?_, ?_, ?_, ?_, ?_, ?_, ?_, ?_⟩
  · rw [hmode, hstarted, hcm]
    exact hcustom
  · rw [hmode, hstarted]
    exact htable
  · rw [hh, hstarted]
  · rw [hv, hstarted]
  · rw [hclock, hstarted]
  · rw [hgen, hstarted, clkgenFor_clkgenFor]
  · intro k hk
    rw [hout k hk, hstarted]
    exact ⟨rfl, rfl, rfl, rfl, rfl, rfl, rfl, rfl, rfl⟩
  · intro k hk
    rw [hin k hk, hstarted]
    exact ⟨rfl, rfl, rfl, rfl, fun c hc => by cases hc⟩

theorem coherent_startMode (mode : Int) (sec : Option VideoTiming) (s : State) :
    Coherent p (if mode = processorModeCustom then startTiming p env s.customMode sec mode s
      else startTiming p env (videoModeAt p env.stray mode) sec mode (s.index mode)) := by
  by_cases hc : mode = processorModeCustom
  · rw [if_pos hc]
    refine coherent_startTiming p env (fun _ => rfl) (fun h => absurd h.1 ?_)
    rw [hc]
    decide
  · rw [if_neg hc]
    exact coherent_startTiming p env (fun h => absurd h hc) (fun h => videoModeAt_of_inTable h _)

theorem coherent_processorStart (mode : Int) (s : State) : Coherent p (processorStart p env mode s) := by
  unfold processorStart
  split
  exact coherent_startMode p env mode _ _

/-! ## The other operations -/

variable {p env}

theorem Coherent.describe {s : State} (h : Coherent p s) (mode : Int) :
    Coherent p (processorDescribeMode p env mode s) := by
  unfold processorDescribeMode
  split
  · exact h
  · exact (h.index mode).divide _

theorem Coherent.list {s : State} (h : Coherent p s) : Coherent p (processorListModes p env s) := by
  have hstep : ∀ (s : State) (i : Nat), Coherent p s → Coherent p (processorDescribeMode p env i s) :=
    fun _ _ hs => hs.describe _
  exact Runs.foldl_inv hstep _ h

theorem Coherent.statusPrint {s : State} (h : Coherent p s) : Coherent p (statusPrint p env s) := by
  unfold Console.statusPrint
  split
  · exact h
  · exact h.describe _

theorem Takes.enable {m : VideoTiming} {i : Input} (h : Takes m i) (k : Nat) :
    Takes m { i with video := HdmiIn.enable k i.video } := by
  refine ⟨h.hres, h.vres, ?_, h.edid, h.clock⟩
  show i.video.hres * i.video.vres * 2 = _
  rw [h.hres, h.vres]

theorem Takes.disable {m : VideoTiming} {i : Input} (h : Takes m i) :
    Takes m { i with video := HdmiIn.disable i.video } :=
  ⟨h.hres, h.vres, h.frameSize, h.edid, h.clock⟩

theorem Coherent.inputOn {s : State} (h : Coherent p s) (k : Fin 2) : Coherent p (inputOn p k s) := by
  refine h.mapIn fun j i hi => ?_
  split
  · exact hi.enable k
  · exact hi

theorem Coherent.inputOff {s : State} (h : Coherent p s) (k : Fin 2) : Coherent p (inputOff p k s) := by
  refine h.mapIn fun j i hi => ?_
  split
  · exact hi.disable
  · exact hi

theorem Coherent.outputEnable {s : State} (h : Coherent p s) (k : Fin 2) (enable : Word) :
    Coherent p (outputEnable p k enable s) := by
  refine h.mapOut fun j r hr => ?_
  split
  · exact ⟨hr.1, hr.2, hr.3, hr.4, hr.5, hr.6, hr.7, hr.8, hr.9⟩
  · exact hr

theorem Coherent.sources {s : State} (h : Coherent p s) (outSource : Fin 2 → Int) (encoderSource : Int)
    (pattern : Nat) : Coherent p { s with outSource, encoderSource, pattern } :=
  ⟨h.custom, h.table, h.hActive, h.vActive, h.clockConfig, h.clkgen, h.out, h.input⟩

theorem Coherent.connect {s : State} (h : Coherent p s) (source sink : Int) :
    Coherent p (videoMatrixConnect p env source sink s) := by
  unfold videoMatrixConnect
  split
  · split
    · refine Coherent.processorUpdate ?_
      generalize (if sink = videoOutHdmiOut0 then 0 else 1 : Fin 2) = k
      split
      · exact h.sources _ _ _
      · exact h
    · split
      · exact (h.sources _ _ _).processorUpdate
      · split
        · exact h.processorUpdate
        · exact h
  · exact h

theorem Coherent.control {s t : State} (h : Coherent p s) (hst : Control p env s t) : Coherent p t := by
  cases hst with
  | connect source sink => exact h.connect source sink
  | hotPlug source =>
    refine h.mapIn fun k i hi => ?_
    generalize (if k = 0 then videoInHdmiIn0 else videoInHdmiIn1) = n
    split
    · exact ⟨hi.hres, hi.vres, hi.frameSize, hi.edid, hi.clock⟩
    · exact hi
  | output k enable => exact h.outputEnable k enable
  | inputOn k => exact h.inputOn k
  | inputOff k => exact h.inputOff k
  | pattern => exact (h.sources _ _ _).patternFillFramebuffer _ _

theorem Coherent.videoMode {s : System} (h : Coherent p s.proc) (str : List Char) :
    Coherent p (videoMode p env str s).proc := by
  unfold Console.videoMode
  simp only
  split
  · exact h.list
  split
  · rw [run_proc]
    unfold videoModeCustom processorSetCustomMode
    exact coherent_processorStart _ _ _ _
  split
  · rw [run_proc]
    unfold videoModeSecondary
    simp only
    split
    · exact h
    split
    · exact coherent_processorStart _ _ _ _
    split
    · exact coherent_processorStart _ _ _ _
    · exact h
  · rw [run_proc]
    unfold videoModeSet
    split
    · exact coherent_processorStart _ _ _ _
    · exact h

/-! ## The service call -/

/-- The clock that the service call looks up is the one last started: the running mode is one of the table, or the
board has no input, or the memory read outside the table happens to hold that clock. -/
def InStep (p : Platform) (env : Env) (s : State) : Prop :=
  InTable p s.processorMode ∨ (∀ k, p.hasIn k = false) ∨
    (env.stray s.processorMode).pixelClock = s.started.pixelClock

theorem coherent_processorService_iff {s : State} (h : Coherent p s) :
    Coherent p (processorService p env s) ↔ InStep p env s := by
  have hserved : ∀ k, p.hasIn k = true → ((processorService p env s).input k).serviceClock =
      some (videoModeAt p env.stray s.processorMode).pixelClock := by
    intro k hk
    unfold processorService processorUpdate State.mapIn State.mapOut
    simp only [if_pos hk]
  constructor
  · intro hc
    by_cases hin : InTable p s.processorMode
    · exact Or.inl hin
    · by_cases hany : ∃ k, p.hasIn k = true
      · obtain ⟨k, hk⟩ := hany
        have hclock := (hc.input k hk).clock _ (hserved k hk)
        rw [videoModeAt_of_not_inTable hin] at hclock
        exact Or.inr (Or.inr hclock)
      · refine Or.inr (Or.inl fun k => ?_)
        exact Bool.eq_false_iff.2 fun hk => hany ⟨k, hk⟩
  · intro hs
    unfold processorService
    refine Coherent.processorUpdate ?_
    have hclock : ∀ k, p.hasIn k = true →
        (videoModeAt p env.stray s.processorMode).pixelClock = s.started.pixelClock := by
      intro k hk
      rcases hs with hin | hnone | hstray
      · have hsame := (videoModeAt_of_inTable hin env.stray).symm.trans (h.table hin)
        rw [Option.some.inj hsame]
      · rw [hnone k] at hk
        cases hk
      · by_cases hin : InTable p s.processorMode
        · have hsame := (videoModeAt_of_inTable hin env.stray).symm.trans (h.table hin)
          rw [Option.some.inj hsame]
        · rw [videoModeAt_of_not_inTable hin, hstray]
    refine ⟨h.custom, h.table, h.hActive, h.vActive, h.clockConfig, h.clkgen, h.out, ?_⟩
    intro k hk
    have hi := h.input k hk
    unfold State.mapIn
    simp only [if_pos hk]
    refine ⟨hi.hres, hi.vres, hi.frameSize, hi.edid, ?_⟩
    intro c hc
    cases hc
    exact hclock k hk

/-! ## Boot, and the run -/

theorem processorMode_processorStart (mode : Int) (s : State) : (processorStart p env mode s).processorMode = mode :=
  congrArg Modes.current (modes_processorStart p env mode s)

theorem customMode_processorStart (mode : Int) (s : State) :
    (processorStart p env mode s).customMode = s.customMode := by
  unfold processorStart
  split
  rename_i sec t heq
  have ht : t.customMode = s.customMode := by
    split at heq <;> cases heq <;> rfl
  split
  · exact (scalars_startTiming _ _ _ _ _ _).2.2.1.trans ht
  · exact (scalars_startTiming _ _ _ _ _ _).2.2.1.trans ht

theorem Coherent.bootInput {s : State} (h : Coherent p s) (k : Fin 2) (enabled : Int) :
    Coherent p (bootInput p k enabled s) := by
  unfold Console.bootInput
  split
  · exact (h.inputOff k).inputOn k
  · exact h.inputOff k

theorem Coherent.bootOutput {s : State} (h : Coherent p s) (k : Fin 2) (enabled source : Int) :
    Coherent p (bootOutput p k enabled source s) := by
  unfold Console.bootOutput
  simp only
  split
  · exact ((h.outputEnable k 0).outputEnable k 1).sources _ _ _
  · exact h.outputEnable k 0

theorem coherent_boot (s : State) : Coherent p (boot p env s) := by
  unfold boot
  simp only
  generalize Processor.processorUpdate p env (processorInit (configGet p .resSecondary) (load s)) = t
  have hstart := coherent_processorStart p env (configGet p .resPrimary) t
  have hservice : Coherent p (processorService p env (processorStart p env (configGet p .resPrimary) t)) := by
    rw [coherent_processorService_iff hstart]
    refine Or.inl ?_
    rw [processorMode_processorStart]
    exact inTable_resPrimary p
  unfold applyConfig
  exact ((((hservice.bootInput 0 _).bootInput 1 _).bootOutput 0 _ _).bootOutput 1 _ _).sources _ _ _

def Tuned (p : Platform) (s : System) : Env × Call → Prop
  | (env, .processorService) => InStep p env s.proc
  | (_, .ciService _ _)      => True

theorem Coherent.ciService {s : System} (h : Coherent p s.proc) (elapsed : Bool) (line : Option (List Char)) :
    Coherent p (ciService p env elapsed line s).proc := by
  refine ciService_keeps h (fun _ hs => hs.statusPrint) ?_
  intro t l ht _
  exact command_keeps ht (coherent_boot _) (fun _ => ht.videoMode _) ht.statusPrint (fun _ => ht.control)

theorem coherent_step_iff {s : System} (h : Coherent p s.proc) (c : Env × Call) :
    Coherent p (step p s c).proc ↔ Tuned p s c := by
  obtain ⟨env, _ | ⟨elapsed, line⟩⟩ := c
  · exact coherent_processorService_iff h
  · exact iff_of_true (h.ciService elapsed line) trivial

theorem allStates_coherent_iff {s : System} (h : Coherent p s.proc) (cs : List (Env × Call)) :
    AllStates (step p) (fun s : System => Coherent p s.proc) s cs ↔ AllSteps (step p) (Tuned p) s cs := by
  refine Runs.allStates_iff_allSteps (fun (s : System) (h : Coherent p s.proc) => h)
    (fun s c h => coherent_step_iff h c) ?_ cs h
  intro s c h hc
  exact (coherent_step_iff h c).2 hc

/-- **One timing in every part of the pipeline** through a run from boot, exactly when every service call of the run
comes while a mode of the table is running, or on a board without inputs, or reads the right clock by chance. -/
theorem coherent_iff (p : Platform) (env : Env) (s : State) (cs : List (Env × Call)) :
    AllStates (step p) (fun s : System => Coherent p s.proc) (booted p env s) cs ↔
      AllSteps (step p) (Tuned p) (booted p env s) cs :=
  allStates_coherent_iff (coherent_boot s) cs

/-! ## Two custom modes -/

theorem started_processorSetCustomMode (s : State) : (processorSetCustomMode p env s).started = s.customMode := by
  have hcustom := (coherent_processorStart p env processorModeCustom s).custom (processorMode_processorStart _ _)
  rw [customMode_processorStart] at hcustom
  exact hcustom

theorem clock_of_custom {line rest str : List Char} {s : System}
    (hline : getToken (line.takeWhile (· ≠ '\x00')) = ("video_mode".toList, rest))
    (hrest : getToken rest = ("custom".toList, str)) {k : Fin 2} (hk : p.hasIn k = true)
    (h : Tuned p (step p s (env, .ciService false (some line))) (env, .processorService)) :
    (env.stray processorModeCustom).pixelClock = (parseModeline str).dotClock := by
  have hcommand : step p s (env, .ciService false (some line)) = s.run (videoModeCustom p env str) :=
    (command_videoMode hline (Or.inl rfl)).trans (videoMode_custom hrest)
  unfold Tuned at h
  rw [hcommand, run_proc] at h
  unfold videoModeCustom at h
  generalize parseModeline str = m at h ⊢
  rcases h with hin | hnone | hstray
  · rw [processorSetCustomMode, processorMode_processorStart] at hin
    exact absurd hin.1 (by decide)
  · rw [hnone k] at hk
    cases hk
  · rw [started_processorSetCustomMode, processorSetCustomMode, processorMode_processorStart] at hstray
    exact hstray

def custom50 : List Char := "video_mode custom 50.00 800 856 976 1040 600 637 643 666".toList

def custom40 : List Char := "video_mode custom 40.00 800 840 968 1056 600 601 605 628".toList

/-- Whatever memory holds, it is wrong for one of two custom modes. -/
theorem not_coherent_twoCustom : ¬ ∃ env : Env,
    AllStates (step opsis) (fun s : System => Coherent opsis s.proc) (booted opsis env default)
      [(env, .ciService false (some custom50)), (env, .processorService),
        (env, .ciService false (some custom40)), (env, .processorService)] := by
  rintro ⟨env, h⟩
  obtain ⟨-, h50, -, h40, -⟩ := (allStates_coherent_iff (coherent_boot default) _).1 h
  have hline50 : getToken (custom50.takeWhile (· ≠ '\x00')) = ("video_mode".toList,
      "custom 50.00 800 856 976 1040 600 637 643 666".toList) := by decide
  have hline40 : getToken (custom40.takeWhile (· ≠ '\x00')) = ("video_mode".toList,
      "custom 40.00 800 840 968 1056 600 601 605 628".toList) := by decide
  have hrest50 : getToken "custom 50.00 800 856 976 1040 600 637 643 666".toList =
    ("custom".toList, "50.00 800 856 976 1040 600 637 643 666".toList) := by decide
  have hrest40 : getToken "custom 40.00 800 840 968 1056 600 601 605 628".toList =
    ("custom".toList, "40.00 800 840 968 1056 600 601 605 628".toList) := by decide
  have hclock50 := clock_of_custom hline50 hrest50 (k := 0) rfl h50
  have hclock40 := clock_of_custom hline40 hrest40 (k := 0) rfl h40
  rw [hclock50] at hclock40
  revert hclock40
  decide

end Console
end Hdmi2Usb
