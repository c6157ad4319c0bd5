import Hdmi2Usb.Console
import Hdmi2Usb.Runs
/-!
# ModeIndexes — which indexes the firmware uses on its mode table

`Modes` is what the mode numbers do, without the timings: the mode running, the secondary mode, and the indexes used.
Every operation of the firmware is one of `Modes` (`modes_processorStart` and the rest), and the invariant is proved
there.  It is lost where a typed number is negative, where the custom mode is running at a service call, and on the two
boards whose secondary mode is off by default, since `EDID_SECONDARY_MODE_OFF` is 255 in an unsigned byte.
-/
namespace Hdmi2Usb
namespace Console

open Processor
open Runs (AllSteps AllStates)

variable (p : Platform) (env : Env)

/-! ## The modes alone -/

structure Modes where
  indexes   : List Int
  secondary : Int
  current   : Int

def modes (s : State) : Modes := ⟨s.indexes, s.secondaryMode, s.processorMode⟩

def Modes.use (m : Modes) (i : Int) : Modes := { m with indexes := m.indexes ++ [i] }

def Modes.start (m : Modes) (mode : Int) : Modes :=
  let m := if m.secondary ≠ edidSecondaryModeOff ∧ m.secondary ≠ mode then m.use m.secondary else m
  let m := if mode = processorModeCustom then m else m.use mode
  { m with current := mode }

def Modes.describe (m : Modes) (mode : Int) : Modes := if processorModeCount p ≤ mode then m else m.use mode

@[simp] theorem modes_index (s : State) (i : Int) : modes (s.index i) = (modes s).use i := rfl

@[simp] theorem modes_patternFillFramebuffer (h v : Word) (s : State) :
    modes (patternFillFramebuffer p h v s) = modes s := by
  unfold patternFillFramebuffer
  split <;> rfl

@[simp] theorem modes_processorUpdate (s : State) : modes (processorUpdate p env s) = modes s := rfl

theorem modes_startTiming (m : VideoTiming) (sec : Option VideoTiming) (mode : Int) (s : State) :
    modes (startTiming p env m sec mode s) = { modes s with current := mode } := by
  unfold startTiming
  simp only [patternFillFramebuffer_eq]
  rfl

theorem modes_processorStart (mode : Int) (s : State) :
    modes (processorStart p env mode s) = (modes s).start mode := by
  unfold processorStart Modes.start
  have hsec : (modes s).secondary = s.secondaryMode := rfl
  rw [hsec]
  by_cases h : s.secondaryMode ≠ edidSecondaryModeOff ∧ s.secondaryMode ≠ mode
  · simp only [if_pos h]
    by_cases hc : mode = processorModeCustom
    · simp only [if_pos hc, modes_startTiming, modes_index]
    · simp only [if_neg hc, modes_startTiming, modes_index]
  · simp only [if_neg h]
    by_cases hc : mode = processorModeCustom
    · simp only [if_pos hc, modes_startTiming]
    · simp only [if_neg hc, modes_startTiming, modes_index]

theorem modes_processorDescribeMode (mode : Int) (s : State) :
    modes (processorDescribeMode p env mode s) = (modes s).describe p mode := by
  unfold processorDescribeMode Modes.describe
  split <;> rfl

theorem modes_processorListModes (s : State) : modes (processorListModes p env s) =
    { modes s with indexes := s.indexes ++ (List.range (processorModeCount p).toNat).map Int.ofNat } := by
  have hfold : ∀ (n : Nat), (n : Int) ≤ processorModeCount p →
      modes ((List.range n).foldl (fun s (i : Nat) => processorDescribeMode p env i s) s) =
        { modes s with indexes := s.indexes ++ (List.range n).map Int.ofNat } := by
    intro n hn
    induction n with
    | zero => simp [modes]
    | succ n ih =>
      rw [List.range_succ, List.foldl_append, List.foldl_cons, List.foldl_nil, modes_processorDescribeMode, ih (by omega)]
      simp [Modes.describe, Modes.use, if_neg (show ¬ processorModeCount p ≤ (n : Int) by omega)]
  have hnonneg : 0 ≤ processorModeCount p := by unfold processorModeCount; omega
  exact hfold _ (by omega)

theorem modes_processorService (s : State) :
    modes (processorService p env s) = (modes s).use s.processorMode := rfl

/-! ## What keeps the indexes in the table -/

/-- The mode numbers are right: every index used is one of the table, and the secondary mode is one or is off. -/
def Modes.Indexed (m : Modes) : Prop :=
  (∀ i ∈ m.indexes, InTable p i) ∧ (m.secondary = edidSecondaryModeOff ∨ InTable p m.secondary)

/-- With the mode that is running a mode of the table too, or the custom one. -/
def Modes.Inv (m : Modes) : Prop := m.Indexed p ∧ (m.current = processorModeCustom ∨ InTable p m.current)

variable {p} {m : Modes}

theorem Modes.Indexed.use (h : m.Indexed p) {i : Int} (hi : InTable p i) : (m.use i).Indexed p := by
  refine ⟨?_, h.2⟩
  intro j hj
  cases List.mem_append.1 hj with
  | inl hj => exact h.1 j hj
  | inr hj =>
    rw [List.mem_singleton.1 hj]
    exact hi

theorem Modes.Inv.start (h : m.Inv p) {mode : Int} (hm : mode = processorModeCustom ∨ InTable p mode) :
    (m.start mode).Inv p := by
  obtain ⟨hi, -⟩ := h
  unfold Modes.start
  refine ⟨?_, hm⟩
  have hsec : (if m.secondary ≠ edidSecondaryModeOff ∧ m.secondary ≠ mode then m.use m.secondary else m).Indexed p := by
    by_cases hs : m.secondary ≠ edidSecondaryModeOff ∧ m.secondary ≠ mode
    · rw [if_pos hs]
      exact hi.use (hi.2.resolve_left hs.1)
    · rw [if_neg hs]
      exact hi
  by_cases hc : mode = processorModeCustom
  · simp only [if_pos hc]
    exact hsec
  · simp only [if_neg hc]
    exact hsec.use (hm.resolve_left hc)

theorem Modes.Inv.describe (h : m.Inv p) {mode : Int} (hm : 0 ≤ mode) : (m.describe p mode).Inv p := by
  unfold Modes.describe
  by_cases hc : processorModeCount p ≤ mode
  · rw [if_pos hc]
    exact h
  · rw [if_neg hc]
    exact ⟨h.1.use ⟨hm, by omega⟩, h.2⟩

theorem Modes.Inv.listed (h : m.Inv p) : Modes.Inv p
    { m with indexes := m.indexes ++ (List.range (processorModeCount p).toNat).map Int.ofNat } := by
  refine ⟨⟨?_, h.1.2⟩, h.2⟩
  intro i hi
  cases List.mem_append.1 hi with
  | inl hi => exact h.1.1 i hi
  | inr hi =>
    obtain ⟨n, hn, rfl⟩ := List.mem_map.1 hi
    have hlt := List.mem_range.1 hn
    have hle : Int.ofNat n < processorModeCount p := by
      rw [Int.ofNat_eq_natCast]
      omega
    exact ⟨Int.natCast_nonneg n, hle⟩

theorem Modes.indexes_start (mode : Int) : ∀ i ∈ m.indexes, i ∈ (m.start mode).indexes := by
  intro i hi
  unfold Modes.start Modes.use
  split <;> split <;> simp [hi]

theorem Modes.mem_describe {mode : Int} (hm : mode < 0) : mode ∈ (m.describe p mode).indexes := by
  have hnonneg : 0 ≤ processorModeCount p := by unfold processorModeCount; omega
  unfold Modes.describe
  rw [if_neg (by omega)]
  simp [Modes.use]

theorem Modes.not_indexed {i : Int} (hi : i ∈ m.indexes) (hneg : i < 0) : ¬ m.Indexed p := by
  intro h
  have := (h.1 i hi).1
  omega

/-! ## Boot -/

theorem modes_bootOutput (k : Fin 2) (enabled source : Int) (s : State) :
    modes (bootOutput p k enabled source s) = modes s := by
  unfold bootOutput
  simp only
  split <;> rfl

theorem modes_bootInput (k : Fin 2) (enabled : Int) (s : State) : modes (bootInput p k enabled s) = modes s := by
  unfold bootInput
  split <;> rfl

theorem modes_applyConfig (s : State) : modes (applyConfig p s) = modes s := by
  have hout := fun k enabled source s => modes_bootOutput (p := p) k enabled source s
  have hin := fun k enabled s => modes_bootInput (p := p) k enabled s
  exact (hout 1 _ _ _).trans ((hout 0 _ _ _).trans ((hin 1 _ _).trans (hin 0 _ _)))

theorem modes_boot (s : State) : modes (boot p env s) =
    (Modes.start ⟨s.indexes, configGet p .resSecondary, 0⟩ (configGet p .resPrimary)).use
      (configGet p .resPrimary) := by
  have hstart := modes_processorStart p env (configGet p .resPrimary)
    (processorUpdate p env (processorInit (configGet p .resSecondary) (load s)))
  have hmode := congrArg Modes.current hstart
  have hservice := modes_processorService p env (processorStart p env (configGet p .resPrimary)
    (processorUpdate p env (processorInit (configGet p .resSecondary) (load s))))
  rw [hstart] at hservice
  unfold boot
  rw [modes_applyConfig, hservice]
  exact congrArg (Modes.use _) hmode

theorem inTable_resPrimary (p : Platform) : InTable p (configGet p .resPrimary) := by
  have hcount := processorModeCount_eq p
  unfold InTable
  cases hp : p.netv2OrNexysVideo with
  | false =>
    have hprim : configGet p .resPrimary = 10 := by simp [configGet, configDefaults, hp, processorMode720p50]
    rw [hprim, hcount, hp]
    decide
  | true =>
    have hprim : configGet p .resPrimary = 12 := by simp [configGet, configDefaults, hp, processorMode1080p60]
    rw [hprim, hcount, hp]
    decide

theorem inv_boot (hp : p.netv2OrNexysVideo = false) {s : State} (h : ∀ i ∈ s.indexes, InTable p i) :
    (modes (boot p env s)).Inv p := by
  have hcount : processorModeCount p = 14 := by rw [processorModeCount_eq, hp]; rfl
  have hsec : configGet p .resSecondary = 9 := by simp [configGet, configDefaults, hp, processorMode720p60]
  have hprim : configGet p .resPrimary = 10 := by simp [configGet, configDefaults, hp, processorMode720p50]
  have hin : ∀ i : Int, 0 ≤ i → i < 14 → InTable p i := fun i h0 h1 => ⟨h0, by omega⟩
  rw [modes_boot, hsec, hprim]
  have hinv : (⟨s.indexes, 9, 0⟩ : Modes).Inv p :=
    ⟨⟨h, Or.inr (hin 9 (by omega) (by omega))⟩, Or.inr (hin 0 (by omega) (by omega))⟩
  have hstart := hinv.start (Or.inr (hin 10 (by omega) (by omega)))
  exact ⟨hstart.1.use (hin 10 (by omega) (by omega)), hstart.2⟩

/-- Where the secondary mode is off by default, it is not off. -/
theorem not_indexed_boot (hp : p.netv2OrNexysVideo = true) (s : State) : ¬ (modes (boot p env s)).Indexed p := by
  have hcount : processorModeCount p = 15 := by rw [processorModeCount_eq, hp]; rfl
  have hsec : (modes (boot p env s)).secondary = 255 := by
    rw [modes_boot]
    simp only [Modes.start, Modes.use]
    split <;> split <;> simp [configGet, configDefaults, hp, edidSecondaryModeOff]
  intro h
  cases h.2 with
  | inl hoff =>
    rw [hsec] at hoff
    cases hoff
  | inr hin =>
    rw [hsec] at hin
    have := hin.2
    omega

/-! ## The calls of the main loop -/

/-- A `video_mode` command has no negative mode number in it. -/
def CleanMode (str : List Char) : Prop :=
  let (token, str) := getToken str
  if token = "list".toList ∨ token = "l".toList then True
  else if token = "custom".toList then True
  else if token = "secondary".toList ∨ token = "s".toList then
    let token := (getToken str).1
    token = [] ∨ token = "off".toList ∨ 0 ≤ atoi token
  else 0 ≤ atoi token

def CleanLine (line : List Char) : Prop :=
  let (token, str) := getToken line
  token = "video_mode".toList ∨ token = "m".toList → CleanMode str

/-- A line has no negative mode number in it, and a service call comes while a mode of the table is running. -/
def Clean (s : System) : Env × Call → Prop
  | (_, .processorService) => s.proc.processorMode ≠ processorModeCustom
  | (_, .ciService _ line) => ∀ l, line = some l → CleanLine (l.takeWhile (· ≠ '\x00'))

variable {s : State}

theorem inv_statusPrint (h : (modes s).Inv p) : (modes (statusPrint p env s)).Inv p := by
  unfold statusPrint
  by_cases hoff : s.secondaryMode = edidSecondaryModeOff
  · rw [if_pos hoff]
    exact h
  · rw [if_neg hoff, modes_processorDescribeMode]
    exact h.describe (h.1.2.resolve_left hoff).1

theorem inv_videoModeSet (h : (modes s).Inv p) {mode : Int} (hm : 0 ≤ mode) :
    (modes (videoModeSet p env mode s)).Inv p := by
  unfold videoModeSet
  by_cases hc : mode < processorModeCount p
  · rw [if_pos hc, modes_processorStart, modes_processorDescribeMode]
    exact (h.describe hm).start (Or.inr ⟨hm, hc⟩)
  · rw [if_neg hc]
    exact h

theorem not_indexed_videoModeSet {mode : Int} (hm : mode < 0) : ¬ (modes (videoModeSet p env mode s)).Indexed p := by
  have hnonneg : 0 ≤ processorModeCount p := by unfold processorModeCount; omega
  unfold videoModeSet
  rw [if_pos (by omega), modes_processorStart, modes_processorDescribeMode]
  exact Modes.not_indexed (Modes.indexes_start mode mode (Modes.mem_describe hm)) hm

theorem modes_processorSetSecondaryMode (mode : Int) (s : State) : modes (processorSetSecondaryMode p env mode s) =
    { modes s with secondary := mode }.start s.processorMode := by
  unfold processorSetSecondaryMode
  rw [modes_processorStart]
  rfl

theorem inv_processorSetSecondaryMode (h : (modes s).Inv p) {mode : Int}
    (hm : mode = edidSecondaryModeOff ∨ InTable p mode) : (modes (processorSetSecondaryMode p env mode s)).Inv p := by
  rw [modes_processorSetSecondaryMode]
  have hset : ({ modes s with secondary := mode } : Modes).Inv p := ⟨⟨h.1.1, hm⟩, h.2⟩
  exact hset.start h.2

theorem inv_videoModeSecondary (h : (modes s).Inv p) {str : List Char}
    (hm : (getToken str).1 = [] ∨ (getToken str).1 = "off".toList ∨ 0 ≤ atoi (getToken str).1) :
    (modes (videoModeSecondary p env str s)).Inv p := by
  unfold videoModeSecondary
  generalize (getToken str).1 = token at hm
  simp only
  by_cases hnil : token = []
  · rw [if_pos hnil]
    exact h
  · rw [if_neg hnil]
    by_cases hoff : token = "off".toList
    · rw [if_pos hoff]
      exact inv_processorSetSecondaryMode env h (Or.inl rfl)
    · rw [if_neg hoff]
      have hpos : 0 ≤ atoi token := (hm.resolve_left hnil).resolve_left hoff
      by_cases hc : atoi token < processorModeCount p
      · rw [if_pos hc]
        have hd : (modes (processorDescribeMode p env (atoi token) s)).Inv p := by
          rw [modes_processorDescribeMode]
          exact h.describe hpos
        exact inv_processorSetSecondaryMode env hd (Or.inr ⟨hpos, hc⟩)
      · rw [if_neg hc]
        exact h

theorem not_indexed_videoModeSecondary {str : List Char}
    (hm : ¬ ((getToken str).1 = [] ∨ (getToken str).1 = "off".toList ∨ 0 ≤ atoi (getToken str).1)) :
    ¬ (modes (videoModeSecondary p env str s)).Indexed p := by
  have hnonneg : 0 ≤ processorModeCount p := by unfold processorModeCount; omega
  unfold videoModeSecondary
  generalize (getToken str).1 = token at hm
  simp only [not_or, not_le] at hm ⊢
  obtain ⟨hnil, hoff, hneg⟩ := hm
  rw [if_neg hnil, if_neg hoff, if_pos (by omega), modes_processorSetSecondaryMode]
  have hmem := Modes.mem_describe (p := p) (m := modes s) hneg
  rw [← modes_processorDescribeMode p env] at hmem
  exact Modes.not_indexed (Modes.indexes_start _ _ hmem) hneg

theorem modes_videoMatrixConnect (source sink : Int) (s : State) :
    modes (videoMatrixConnect p env source sink s) = modes s := by
  unfold videoMatrixConnect
  split
  · split
    · rw [modes_processorUpdate]
      generalize (if sink = videoOutHdmiOut0 then 0 else 1 : Fin 2) = k
      by_cases hk : p.hasOut k = true
      · rw [if_pos hk]
        rfl
      · rw [if_neg hk]
    · split
      · rfl
      · split <;> rfl
  · rfl

theorem modes_videoModeCustom (str : List Char) (s : State) :
    modes (videoModeCustom p env str s) = (modes s).start processorModeCustom := by
  unfold videoModeCustom processorSetCustomMode
  generalize (parseModeline str).timing s.customMode = t
  rw [modes_processorStart]
  rfl

theorem inv_videoMode {s : System} (h : (modes s.proc).Inv p) {str : List Char} (hc : CleanMode str) :
    (modes (videoMode p env str s).proc).Inv p := by
  unfold CleanMode at hc
  unfold videoMode
  generalize getToken str = t at hc ⊢
  obtain ⟨token, str⟩ := t
  simp only at hc ⊢
  by_cases h1 : token = "list".toList ∨ token = "l".toList
  · rw [if_pos h1, run_proc, modes_processorListModes]
    exact h.listed
  · rw [if_neg h1] at hc ⊢
    by_cases h2 : token = "custom".toList
    · rw [if_pos h2]
      rw [run_proc, modes_videoModeCustom]
      exact h.start (Or.inl rfl)
    · rw [if_neg h2] at hc ⊢
      by_cases h3 : token = "secondary".toList ∨ token = "s".toList
      · rw [if_pos h3] at hc ⊢
        exact inv_videoModeSecondary env h hc
      · rw [if_neg h3] at hc ⊢
        exact inv_videoModeSet env h hc

theorem not_indexed_videoMode {s : System} {str : List Char} (hc : ¬ CleanMode str) :
    ¬ (modes (videoMode p env str s).proc).Indexed p := by
  unfold CleanMode at hc
  unfold videoMode
  generalize getToken str = t at hc ⊢
  obtain ⟨token, str⟩ := t
  simp only at hc ⊢
  by_cases h1 : token = "list".toList ∨ token = "l".toList
  · rw [if_pos h1] at hc
    exact absurd trivial hc
  · rw [if_neg h1] at hc ⊢
    by_cases h2 : token = "custom".toList
    · rw [if_pos h2] at hc
      exact absurd trivial hc
    · rw [if_neg h2] at hc ⊢
      by_cases h3 : token = "secondary".toList ∨ token = "s".toList
      · rw [if_pos h3] at hc ⊢
        exact not_indexed_videoModeSecondary env hc
      · rw [if_neg h3] at hc ⊢
        exact not_indexed_videoModeSet env (not_le.1 hc)

theorem modes_control {s t : State} (h : Control p env s t) : modes t = modes s := by
  cases h with
  | connect source sink => exact modes_videoMatrixConnect env source sink s
  | hotPlug source => rfl
  | output k enable => rfl
  | inputOn k => rfl
  | inputOff k => rfl
  | pattern => exact modes_patternFillFramebuffer p _ _ _

theorem inv_command (hp : p.netv2OrNexysVideo = false) {s : System} (h : (modes s.proc).Inv p) {line : List Char}
    (hc : CleanLine line) : (modes (command p env line s).proc).Inv p := by
  refine command_keeps (P := fun s => (modes s).Inv p) h (inv_boot env hp h.1.1) ?_ (inv_statusPrint env h) ?_
  · intro hmode
    exact inv_videoMode env h (hc hmode)
  · intro t ht
    rw [modes_control env ht]
    exact h

theorem not_indexed_command {s : System} {line : List Char} (hc : ¬ CleanLine line) :
    ¬ (modes (command p env line s).proc).Indexed p := by
  unfold CleanLine at hc
  obtain ⟨hmode, hdirty⟩ := Classical.not_imp.1 hc
  rw [command_videoMode rfl hmode]
  exact not_indexed_videoMode env hdirty

/-! ## The run -/

def Indexed (p : Platform) (s : System) : Prop := (modes s.proc).Indexed p

def IndexInv (p : Platform) (s : System) : Prop := (modes s.proc).Inv p

theorem step_of_clean (hp : p.netv2OrNexysVideo = false) {s : System} (h : IndexInv p s) {c : Env × Call}
    (hc : Clean s c) : IndexInv p (step p s c) := by
  obtain ⟨env, _ | ⟨elapsed, line⟩⟩ := c
  · have hcur : InTable p s.proc.processorMode := h.2.resolve_left hc
    exact ⟨h.1.use hcur, h.2⟩
  · refine ciService_keeps (P := fun s => (modes s).Inv p) h (fun _ => inv_statusPrint env) ?_
    intro t l ht hl
    exact inv_command env hp ht (hc l hl)

theorem not_indexed_step {s : System} {c : Env × Call} (hc : ¬ Clean s c) : ¬ Indexed p (step p s c) := by
  obtain ⟨env, _ | ⟨elapsed, line⟩⟩ := c
  · have hcur : s.proc.processorMode = processorModeCustom := not_not.1 hc
    refine Modes.not_indexed (i := processorModeCustom) ?_ (by decide)
    simp only [step, System.run, modes_processorService, hcur]
    simp [Modes.use]
  · cases line with
    | none => exact absurd (fun l hl => by cases hl) hc
    | some l =>
      have hdirty : ¬ CleanLine (l.takeWhile (· ≠ '\x00')) := by
        intro hl
        refine hc fun l' hl' => ?_
        cases hl'
        exact hl
      exact not_indexed_command env hdirty

/-- The registers as they are at power-on, with nothing used yet. -/
def power (regs : State) : State := { regs with indexes := [], divisors := [] }

/-- **The mode numbers are right** through a run from boot exactly when the board's default secondary mode is one of the
table, no line has a negative mode number in it, and no service call comes while the custom mode is running. -/
theorem indexed_iff (p : Platform) (env : Env) (regs : State) (cs : List (Env × Call)) :
    AllStates (step p) (Indexed p) (booted p env (power regs)) cs ↔
      p.netv2OrNexysVideo = false ∧ AllSteps (step p) Clean (booted p env (power regs)) cs := by
  cases hp : p.netv2OrNexysVideo with
  | true =>
    refine iff_of_false ?_ (fun h => by cases h.1)
    intro h
    rw [Runs.allStates_iff_steps] at h
    exact not_indexed_boot env hp _ h.1
  | false =>
    rw [and_iff_right rfl]
    have hstart : IndexInv p (booted p env (power regs)) := inv_boot env hp (fun i hi => by cases hi)
    refine Runs.allStates_iff_allSteps (fun s (h : IndexInv p s) => h.1) ?_ ?_ cs hstart
    · intro s c h
      constructor
      · intro hi
        by_contra hc
        exact not_indexed_step hc hi
      · intro hc
        exact (step_of_clean hp h hc).1
    · intro s c h hc
      exact step_of_clean hp h hc

theorem not_indexed_negative : ¬ AllStates (step opsis) (Indexed opsis) (booted opsis default (power default))
    [(default, .ciService false (some "video_mode -2".toList))] := by
  intro h
  refine not_indexed_step (fun hc => ?_) h.2
  have hline := hc _ rfl
  have hcommand : getToken ("video_mode -2".toList.takeWhile (· ≠ '\x00')) = ("video_mode".toList, "-2".toList) := by
    decide
  have hmode : getToken "-2".toList = ("-2".toList, []) := by decide
  unfold CleanLine CleanMode at hline
  rw [hcommand] at hline
  simp only [hmode] at hline
  exact absurd (hline (by decide)) (by decide)

end Console
end Hdmi2Usb
