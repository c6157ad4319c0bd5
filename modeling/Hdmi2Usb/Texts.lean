import Hdmi2Usb.ModeIndexes
import Hdmi2Usb.Sprintf
/-!
# Texts — the arrays that texts are made in (`uptime.c`, `pattern.c`, `processor.c`, `ci.c`, `version.c`)

Four functions make a text with `sprintf` in an array of fixed size, and the console and the main loop call them.  Every
call is here the text and the room it has.  The uptime always has eight characters, so that with "Uptime: " before it the
text of `pattern_service` is one longer than its array; the description of a mode fits whatever its numbers are, if its
comment is one of the table, which a negative mode number is not sure to find.
-/
namespace Hdmi2Usb
namespace Texts

open Processor Console
open Runs (AllSteps)
open Sprintf (sprintf length_decimal_le length_decimalInt length_decimalInt_le)

/-- A call of `sprintf`: the room from where it writes to the end of the array, and the text without its terminator. -/
structure Text where
  room : Nat
  text : List Char

def Text.Fits (t : Text) : Prop := t.text.length + 1 ≤ t.room

instance (t : Text) : Decidable t.Fits := inferInstanceAs (Decidable (_ ≤ _))

def AllFit (xs : List Text) : Prop := ∀ x ∈ xs, x.Fits

instance (xs : List Text) : Decidable (AllFit xs) := inferInstanceAs (Decidable (∀ x ∈ xs, x.Fits))

/-! ## The calls -/

def uptimeStr (uptimeSeconds : Int) : Text where
  room := 9
  text := sprintf "%02d:%02d:%02d".toList
    [.int ((uptimeSeconds.tdiv 3600).tmod 24), .int ((uptimeSeconds.tdiv 60).tmod 60), .int (uptimeSeconds.tmod 60)]

def uptimeText (uptimeSeconds : Int) : Text where
  room := 16
  text := sprintf "Uptime: %s".toList [.str (uptimeStr uptimeSeconds).text]

def processorGetSourceName (source : Int) : Text where
  room := 16
  text :=
    if source = videoInPattern then sprintf "pattern".toList []
    else if source = videoInPcie then sprintf "pcie".toList []
    else sprintf "input%d".toList [.int source]

def processorModeDesclen : Nat := 64

/-- The text of `processor_describe_mode`. -/
def describe (m : VideoTiming) : List Char :=
  let refreshRate := calculateRefreshRate m
  sprintf "%ux%u@%u.%02uHz%s%s".toList
    [.unsigned m.hActive.toNat, .unsigned m.vActive.toNat,
      .unsigned (refreshRate / 100).toNat, .unsigned (refreshRate % 100).toNat,
      .str (if m.comment.isSome then " ".toList else []), .str (m.comment.elim [] String.toList)]

section

variable (p : Platform) (stray : Int → VideoTiming)

/-- `processor_describe_mode`, for an array with so much room. -/
def processorDescribeMode (room : Nat) (mode : Int) : List Text :=
  if processorModeCount p ≤ mode then [] else [⟨room, describe (videoModeAt p stray mode)⟩]

/-- `processor_list_modes`: every description has its own part of the array. -/
def processorListModes : List Text :=
  (List.range (processorModeCount p).toNat).flatMap fun i : Nat => processorDescribeMode p stray processorModeDesclen i

def patternService (elapsed : Bool) (uptimeSeconds : Int) : List Text :=
  if p.mainRam ∧ elapsed then [uptimeStr uptimeSeconds, uptimeText uptimeSeconds] else []

/-! ## The callers -/

def outputStatus (s : State) (k : Fin 2) : List Text :=
  if p.hasOut k ∧ (s.out k).enable ≠ 0 then [processorGetSourceName (s.outSource k)] else []

/-- `status_print` and `status_short_print`. -/
def statusPrint (encoderEnabled : Bool) (s : State) : List Text :=
  outputStatus p s 0 ++ outputStatus p s 1 ++
    (if s.secondaryMode = edidSecondaryModeOff then []
      else processorDescribeMode p stray processorModeDesclen s.secondaryMode) ++
    (if p.hasEncoder ∧ encoderEnabled then [processorGetSourceName s.encoderSource] else [])

def statusService (encoderEnabled : Bool) (s : System) : List Text :=
  (if s.statusEnabled then statusPrint p stray encoderEnabled s.proc else []) ++
    (if s.statusShortEnabled then statusPrint p stray encoderEnabled s.proc else [])

def videoMatrixConnect (source sink : Int) : List Text :=
  if 0 ≤ source ∧ source < videoInMax then
    if 0 ≤ sink ∧ sink ≤ videoOutHdmiOut1 then [processorGetSourceName source]
    else if p.hasEncoder ∧ sink = videoOutEncoder then [processorGetSourceName source]
    else if p.hasPcie ∧ sink = videoOutPcie then [processorGetSourceName source]
    else []
  else []

def videoMatrix (str : List Char) : List Text :=
  let (token, str) := getToken str
  if token = "connect".toList ∨ token = "c".toList then
    let (token, str) := getToken str
    let source := matrixSource token
    let sink := matrixSink (getToken str).1
    if 0 ≤ source ∧ 0 ≤ sink then videoMatrixConnect p source sink else []
  else []

def videoModeSet (mode : Int) : List Text :=
  if mode < processorModeCount p then processorDescribeMode p stray processorModeDesclen mode else []

def videoModeSecondary (str : List Char) : List Text :=
  let token := (getToken str).1
  if token = [] then []
  else if token = "off".toList then []
  else
    let mode := atoi token
    if mode < processorModeCount p then processorDescribeMode p stray processorModeDesclen mode else []

def videoMode (str : List Char) : List Text :=
  let (token, str) := getToken str
  if token = "list".toList ∨ token = "l".toList then processorListModes p stray
  else if token = "custom".toList then []
  else if token = "secondary".toList ∨ token = "s".toList then videoModeSecondary p stray str
  else videoModeSet p stray (atoi token)

def status (encoderEnabled : Bool) (str : List Char) (s : System) : List Text :=
  let (token, str) := getToken str
  if token = "short".toList then
    let token := (getToken str).1
    if token = "on".toList ∨ token = "off".toList then [] else statusPrint p stray encoderEnabled s.proc
  else if token = "on".toList ∨ token = "off".toList then []
  else statusPrint p stray encoderEnabled s.proc

/-- What `main` prints before its loop: the version and the prompt, with the uptime in each. -/
def boot : List Text := [uptimeStr 0, uptimeStr 0]

/-- A command, and the prompt behind it.  `reboot` does not come back to the prompt. -/
def command (encoderEnabled : Bool) (uptimeSeconds : Int) (line : List Char) (s : System) : List Text :=
  let (token, str) := getToken line
  if token = "reboot".toList then boot
  else
    (if token = "uptime".toList ∨ token = "u".toList then [uptimeStr uptimeSeconds]
      else if token = "video_matrix".toList ∨ token = "x".toList then videoMatrix p str
      else if token = "video_mode".toList ∨ token = "m".toList then videoMode p stray str
      else if token = "status".toList ∨ token = "s".toList then status p stray encoderEnabled str s
      else if token = "version".toList then [uptimeStr uptimeSeconds]
      else []) ++ [uptimeStr uptimeSeconds]

end

/-! ## The main loop -/

/-- The uptime is an `int`, and is taken to count on: it overflows after sixty-eight years, which C leaves undefined. -/
structure Firmware where
  system        : System
  uptimeSeconds : Int

inductive Task
  | uptimeService (elapsed : Bool)
  | call (c : Call)
  | patternService (elapsed : Bool)

/-- A call from the loop, with what it reads that the state does not have. -/
structure Turn where
  env            : Env
  encoderEnabled : Bool
  task           : Task

variable (p : Platform)

def reboots (line : List Char) : Bool := (getToken line).1 = "reboot".toList

def step (s : Firmware) (t : Turn) : Firmware :=
  match t.task with
  | .uptimeService elapsed  => if elapsed then { s with uptimeSeconds := s.uptimeSeconds + 1 } else s
  | .patternService _       => s
  | .call .processorService => { s with system := Console.step p s.system (t.env, .processorService) }
  | .call (.ciService elapsed line) =>
    { system        := Console.step p s.system (t.env, .ciService elapsed line)
      uptimeSeconds := if line.any (fun l => reboots (l.takeWhile (· ≠ '\x00'))) then 0 else s.uptimeSeconds }

def texts (s : Firmware) (t : Turn) : List Text :=
  match t.task with
  | .uptimeService _        => []
  | .patternService elapsed => patternService p elapsed s.uptimeSeconds
  | .call .processorService => []
  | .call (.ciService elapsed line) =>
    let system := if elapsed then Console.statusService p t.env s.system else s.system
    (if elapsed then statusService p t.env.stray t.encoderEnabled s.system else []) ++
      match line with
      | none      => []
      | some line => command p t.env.stray t.encoderEnabled s.uptimeSeconds (line.takeWhile (· ≠ '\x00')) system

/-- Every text of the turn fits, whatever memory holds outside the table of modes. -/
def Fits (s : Firmware) (t : Turn) : Prop :=
  ∀ stray, AllFit (texts p s { t with env := { t.env with stray } })

/-- The firmware when `main` comes to its loop. -/
def booted (env : Env) (regs : State) : Firmware := ⟨Console.booted p env regs, 0⟩

/-- Every text fits, those of the boot and those of each turn. -/
def Fitting (env : Env) (regs : State) (ts : List Turn) : Prop :=
  AllFit boot ∧ AllSteps (step p) (Fits p) (booted p env regs) ts

/-- A line has no negative mode number in it, and the pattern's second has not elapsed where there is a pattern. -/
def Heeded : Task → Prop
  | .patternService elapsed          => ¬ (p.mainRam ∧ elapsed)
  | .call (.ciService _ (some line)) => CleanLine (line.takeWhile (· ≠ '\x00'))
  | _                                => True

/-! ## Lists of texts -/

section

variable {x : Text} {xs ys : List Text}

theorem allFit_nil : AllFit [] := List.forall_mem_nil _

theorem allFit_singleton : AllFit [x] ↔ x.Fits := List.forall_mem_singleton

theorem allFit_append : AllFit (xs ++ ys) ↔ AllFit xs ∧ AllFit ys := List.forall_mem_append

theorem allFit_ite {c : Prop} [Decidable c] (hxs : c → AllFit xs) (hys : ¬ c → AllFit ys) :
    AllFit (if c then xs else ys) := by
  split
  next hc => exact hxs hc
  next hc => exact hys hc

end

/-! ## The lengths -/

theorem length_uptimeStr {uptimeSeconds : Int} (h : 0 ≤ uptimeSeconds) : (uptimeStr uptimeSeconds).text.length = 8 := by
  have hfield : ∀ a b : Int, 0 ≤ a → 0 < b → b ≤ 60 → (Sprintf.decimalInt 2 (a.tmod b)).length = 2 := by
    intro a b ha hb hle
    have hlt := Int.tmod_lt_of_pos a hb
    exact length_decimalInt (by decide) (Int.tmod_nonneg b ha) (by omega)
  have hhours := hfield (uptimeSeconds.tdiv 3600) 24 (Int.tdiv_nonneg h (by decide)) (by decide) (by decide)
  have hminutes := hfield (uptimeSeconds.tdiv 60) 60 (Int.tdiv_nonneg h (by decide)) (by decide) (by decide)
  have hseconds := hfield uptimeSeconds 60 h (by decide) (by decide)
  have htext : (uptimeStr uptimeSeconds).text = Sprintf.decimalInt 2 ((uptimeSeconds.tdiv 3600).tmod 24) ++
      ':' :: (Sprintf.decimalInt 2 ((uptimeSeconds.tdiv 60).tmod 60) ++
        ':' :: (Sprintf.decimalInt 2 (uptimeSeconds.tmod 60) ++ [])) := rfl
  rw [htext]
  simp only [List.length_append, List.length_cons, List.length_nil, hhours, hminutes, hseconds]

theorem fits_uptimeStr {uptimeSeconds : Int} (h : 0 ≤ uptimeSeconds) : (uptimeStr uptimeSeconds).Fits := by
  unfold Text.Fits
  rw [length_uptimeStr h]
  exact Nat.le_refl 9

/-- **The text of the pattern never fits**: it has sixteen characters and a terminator, and room for sixteen. -/
theorem not_fits_uptimeText {uptimeSeconds : Int} (h : 0 ≤ uptimeSeconds) : ¬ (uptimeText uptimeSeconds).Fits := by
  have htext : (uptimeText uptimeSeconds).text = "Uptime: ".toList ++ ((uptimeStr uptimeSeconds).text ++ []) := rfl
  unfold Text.Fits
  rw [htext, List.append_nil, List.length_append, length_uptimeStr h]
  show ¬ 8 + 8 + 1 ≤ 16
  decide

theorem fits_processorGetSourceName {source : Int} (h : source.natAbs < 10 ^ 9) :
    (processorGetSourceName source).Fits := by
  unfold Text.Fits processorGetSourceName
  simp only
  split
  · decide
  · split
    · decide
    · have hnumber : (Sprintf.decimalInt 0 source).length ≤ 9 + 1 := length_decimalInt_le (by decide) (by decide) h
      have htext : sprintf "input%d".toList [.int source] =
          "input".toList ++ (Sprintf.decimalInt 0 source ++ []) := rfl
      have hinput : "input".toList.length = 5 := rfl
      rw [htext, List.append_nil, List.length_append, hinput]
      omega

/-- The numbers of a description take 30 characters at most, and what stands for itself 5. -/
theorem length_sprintf_describe {h v whole frac : Nat} (blank comment : List Char) (hh : h < 10 ^ 10)
    (hv : v < 10 ^ 10) (hwhole : whole < 10 ^ 8) (hfrac : frac < 10 ^ 2) :
    let text := sprintf "%ux%u@%u.%02uHz%s%s".toList
      [.unsigned h, .unsigned v, .unsigned whole, .unsigned frac, .str blank, .str comment]
    comment.length ≤ text.length ∧ text.length ≤ 35 + (blank.length + comment.length) := by
  have htext : sprintf "%ux%u@%u.%02uHz%s%s".toList
      [.unsigned h, .unsigned v, .unsigned whole, .unsigned frac, .str blank, .str comment] =
      Sprintf.decimal 0 h ++ 'x' :: (Sprintf.decimal 0 v ++ '@' :: (Sprintf.decimal 0 whole ++
        '.' :: (Sprintf.decimal 2 frac ++ 'H' :: 'z' :: (blank ++ comment)))) := by simp [sprintf]
  have hlh : (Sprintf.decimal 0 h).length ≤ 10 := length_decimal_le (by decide) (by decide) hh
  have hlv : (Sprintf.decimal 0 v).length ≤ 10 := length_decimal_le (by decide) (by decide) hv
  have hlwhole : (Sprintf.decimal 0 whole).length ≤ 8 := length_decimal_le (by decide) (by decide) hwhole
  have hlfrac : (Sprintf.decimal 2 frac).length ≤ 2 := length_decimal_le (by decide) (by decide) hfrac
  rw [htext]
  simp only [List.length_append, List.length_cons]
  omega

theorem hundredths_lt (r : Word) : (r / 100).toNat < 10 ^ 8 ∧ (r % 100).toNat < 10 ^ 2 := by
  have hlt := r.isLt
  have hdiv : (r / 100).toNat = r.toNat / 100 := BitVec.toNat_udiv
  have hmod : (r % 100).toNat = r.toNat % 100 := BitVec.toNat_umod
  omega

/-- Whatever its numbers are, a description is no more than 35 characters longer than its comment and a blank. -/
theorem length_describe (m : VideoTiming) : (m.comment.elim [] String.toList).length ≤ (describe m).length ∧
    (describe m).length ≤ 35 + m.comment.elim 0 fun c => c.toList.length + 1 := by
  have hword : ∀ w : Word, w.toNat < 10 ^ 10 := by
    intro w
    have hlt := w.isLt
    omega
  obtain ⟨hwhole, hfrac⟩ := hundredths_lt (calculateRefreshRate m)
  obtain ⟨hge, hle⟩ := length_sprintf_describe (if m.comment.isSome then " ".toList else [])
    (m.comment.elim [] String.toList) (hword m.hActive) (hword m.vActive) hwhole hfrac
  refine ⟨hge, hle.trans (Nat.add_le_add_left ?_ 35)⟩
  cases m.comment with
  | none => exact Nat.le_refl 0
  | some c =>
    have hblank : " ".toList.length = 1 := rfl
    simp only [Option.isSome_some, if_true, Option.elim_some, hblank]
    omega

theorem length_comment_le {p : Platform} {m : VideoTiming} (h : m ∈ videoModes p) :
    (m.comment.elim 0 fun c => c.toList.length + 1) ≤ 25 := by
  have hall : ∀ m ∈ videoModes p, (m.comment.elim 0 fun c => c.toList.length + 1) ≤ 25 := by
    cases hp : p.netv2OrNexysVideo <;> simp only [videoModes, hp] <;> decide
  exact hall m h

section

variable {p : Platform} {stray : Int → VideoTiming}

/-- **The description of a mode of the table fits.** -/
theorem fits_processorDescribeMode {mode : Int} (h : 0 ≤ mode) :
    AllFit (processorDescribeMode p stray processorModeDesclen mode) := by
  refine allFit_ite (fun _ => allFit_nil) fun hcount => ?_
  have hmem := List.mem_of_getElem? (videoModeAt_of_inTable ⟨h, not_le.1 hcount⟩ stray)
  have hcomment := length_comment_le hmem
  have hlen := (length_describe (videoModeAt p stray mode)).2
  rw [allFit_singleton]
  show (describe (videoModeAt p stray mode)).length + 1 ≤ 64
  omega

theorem fits_processorListModes : AllFit (processorListModes p stray) := by
  intro x hx
  obtain ⟨i, -, hx⟩ := List.mem_flatMap.1 hx
  exact fits_processorDescribeMode (Int.natCast_nonneg i) x hx

/-- A comment that has no room behind the numbers. -/
def longComment : VideoTiming := { zeroTiming with comment := some (String.ofList (List.replicate processorModeDesclen 'x')) }

/-- A negative mode number describes what lies before the table. -/
theorem not_fits_processorDescribeMode {mode : Int} (h : mode < 0) :
    ¬ AllFit (processorDescribeMode p (fun _ => longComment) processorModeDesclen mode) := by
  have hnonneg : 0 ≤ processorModeCount p := by unfold processorModeCount; omega
  have htable : ¬ InTable p mode := fun hin => absurd hin.1 (not_le.2 h)
  unfold processorDescribeMode
  rw [if_neg (by omega), videoModeAt_of_not_inTable htable, allFit_singleton]
  intro (hfits : (describe longComment).length + 1 ≤ processorModeDesclen)
  have hcomment : (longComment.comment.elim [] String.toList).length = processorModeDesclen := by
    simp [longComment]
  have hlen := (length_describe longComment).1
  omega

end

/-! ## What the callers can pass -/

/-- The part of the state that names are looked up for. -/
structure Named where
  out       : Fin 2 → Int
  encoder   : Int
  secondary : Int

def named (s : State) : Named := ⟨s.outSource, s.encoderSource, s.secondaryMode⟩

/-- The sources are ones there are, and the secondary mode is off or not negative. -/
structure Known (n : Named) : Prop where
  out       : ∀ k, 0 ≤ n.out k ∧ n.out k < videoInMax
  encoder   : 0 ≤ n.encoder ∧ n.encoder < videoInMax
  secondary : n.secondary = edidSecondaryModeOff ∨ 0 ≤ n.secondary

section

variable {p : Platform} {env : Env} {s : State}

theorem named_patternFillFramebuffer (h v : Word) : named (patternFillFramebuffer p h v s) = named s := by
  unfold patternFillFramebuffer
  split <;> rfl

theorem named_startTiming (m : VideoTiming) (sec : Option VideoTiming) (mode : Int) :
    named (startTiming p env m sec mode s) = named s := by
  unfold startTiming
  simp only [patternFillFramebuffer_eq]
  rfl

theorem named_processorStart (mode : Int) : named (processorStart p env mode s) = named s := by
  unfold processorStart
  by_cases hsec : s.secondaryMode ≠ edidSecondaryModeOff ∧ s.secondaryMode ≠ mode
  · simp only [if_pos hsec]
    split <;> exact named_startTiming _ _ _
  · simp only [if_neg hsec]
    split <;> exact named_startTiming _ _ _

theorem named_processorService : named (processorService p env s) = named s := rfl

theorem named_describe (mode : Int) : named (Processor.processorDescribeMode p env mode s) = named s := by
  unfold Processor.processorDescribeMode
  split <;> rfl

theorem named_list : named (Processor.processorListModes p env s) = named s := by
  have hdescribe : ∀ (t : State) (i : Nat), named t = named s →
      named (Processor.processorDescribeMode p env i t) = named s := by
    intro t i ht
    rw [named_describe, ht]
  exact Runs.foldl_inv hdescribe _ rfl

theorem Known.statusPrint (h : Known (named s)) : Known (named (Console.statusPrint p env s)) := by
  unfold Console.statusPrint
  split
  · exact h
  · rwa [named_describe]

theorem Known.setOut (h : Known (named s)) (k : Fin 2) {source : Int} (hs : 0 ≤ source ∧ source < videoInMax) :
    Known (named { s with outSource := Function.update s.outSource k source }) := by
  refine ⟨fun j => ?_, h.encoder, h.secondary⟩
  show 0 ≤ Function.update s.outSource k source j ∧ Function.update s.outSource k source j < videoInMax
  by_cases hj : j = k
  · subst hj
    rw [Function.update_self]
    exact hs
  · rw [Function.update_of_ne hj]
    exact h.out j

theorem Known.connect (h : Known (named s)) (source sink : Int) :
    Known (named (Console.videoMatrixConnect p env source sink s)) := by
  unfold Console.videoMatrixConnect
  split
  next hsource =>
    split
    · generalize (if sink = videoOutHdmiOut0 then 0 else 1 : Fin 2) = k
      simp only
      by_cases hk : p.hasOut k = true
      · rw [if_pos hk]
        exact h.setOut k hsource
      · rw [if_neg hk]
        exact h
    · split
      · exact ⟨h.out, hsource, h.secondary⟩
      · split <;> exact h
  next => exact h

theorem Known.control {t : State} (h : Known (named s)) (hst : Control p env s t) : Known (named t) := by
  cases hst with
  | connect source sink => exact h.connect source sink
  | hotPlug source => exact h
  | output k enable => exact h
  | inputOn k => exact h
  | inputOff k => exact h
  | pattern =>
    rw [patternNext, named_patternFillFramebuffer]
    exact h

theorem Known.setSecondary (h : Known (named s)) {mode : Int} (hm : mode = edidSecondaryModeOff ∨ 0 ≤ mode) :
    Known (named (processorSetSecondaryMode p env mode s)) := by
  rw [processorSetSecondaryMode, named_processorStart]
  exact ⟨h.out, h.encoder, hm⟩

theorem Known.videoModeSecondary (h : Known (named s)) {str : List Char} (hm : (getToken str).1 = [] ∨
    (getToken str).1 = "off".toList ∨ 0 ≤ atoi (getToken str).1) :
    Known (named (Console.videoModeSecondary p env str s)) := by
  unfold Console.videoModeSecondary
  generalize (getToken str).1 = token at hm
  simp only
  split
  next => exact h
  next hnil =>
    split
    next => exact h.setSecondary (.inl rfl)
    next hoff =>
      split
      next =>
        have hd : Known (named (Processor.processorDescribeMode p env (atoi token) s)) := by rwa [named_describe]
        exact hd.setSecondary (.inr ((hm.resolve_left hnil).resolve_left hoff))
      next => exact h

theorem named_videoModeCustom (str : List Char) : named (videoModeCustom p env str s) = named s := by
  unfold videoModeCustom processorSetCustomMode
  generalize (parseModeline str).timing s.customMode = m
  rw [named_processorStart]
  rfl

theorem Known.videoMode {s : System} (h : Known (named s.proc)) {str : List Char} (hc : CleanMode str) :
    Known (named (Console.videoMode p env str s).proc) := by
  unfold CleanMode at hc
  unfold Console.videoMode
  generalize getToken str = t at hc ⊢
  obtain ⟨token, str⟩ := t
  simp only at hc ⊢
  split
  next =>
    rw [run_proc, named_list]
    exact h
  next h1 =>
    rw [if_neg h1] at hc
    split
    next =>
      rw [run_proc, named_videoModeCustom]
      exact h
    next h2 =>
      rw [if_neg h2] at hc
      split
      next h3 =>
        rw [if_pos h3] at hc
        exact h.videoModeSecondary hc
      next h3 =>
        rw [run_proc, Console.videoModeSet]
        split
        · rw [named_processorStart, named_describe]
          exact h
        · exact h

/-! ### Boot -/

theorem configGet_source {key : ConfigKey} (h : key = .output0Source ∨ key = .output1Source ∨ key = .encoderSource) :
    0 ≤ configGet p key ∧ configGet p key < videoInMax := by
  have hdefault : ((BitVec.ofInt 8 (videoInDefault p)).toNat : Int) < videoInMax := by
    unfold videoInDefault
    split
    · decide
    · split <;> decide
  have hpattern : ((BitVec.ofInt 8 videoInPattern).toNat : Int) < videoInMax := by decide
  refine ⟨Int.natCast_nonneg _, ?_⟩
  rcases h with rfl | rfl | rfl
  · exact hdefault
  · exact hpattern
  · exact hdefault

theorem Known.bootOutput (h : Known (named s)) (k : Fin 2) (enabled : Int) {source : Int}
    (hs : 0 ≤ source ∧ source < videoInMax) : Known (named (bootOutput p k enabled source s)) := by
  unfold Console.bootOutput
  simp only
  split
  · exact h.setOut k hs
  · exact h

theorem named_bootInput (k : Fin 2) (enabled : Int) : named (bootInput p k enabled s) = named s := by
  unfold bootInput
  split <;> rfl

theorem Known.setEncoder (h : Known (named s)) {source : Int} (hs : 0 ≤ source ∧ source < videoInMax) :
    Known (named { s with encoderSource := source }) := ⟨h.out, hs, h.secondary⟩

theorem Known.applyConfig (h : Known (named s)) : Known (named (Console.applyConfig p s)) := by
  have hin : Known (named (bootInput p 1 (configGet p .input1Enabled) (bootInput p 0 (configGet p .input0Enabled) s))) := by
    rw [named_bootInput, named_bootInput]
    exact h
  have hout0 : Known (named (Console.bootOutput p 0 (configGet p .output0Enabled) (configGet p .output0Source) _)) :=
    hin.bootOutput 0 _ (configGet_source (.inl rfl))
  have hout1 : Known (named (Console.bootOutput p 1 (configGet p .output1Enabled) (configGet p .output1Source) _)) :=
    hout0.bootOutput 1 _ (configGet_source (.inr (.inl rfl)))
  unfold Console.applyConfig
  simp only
  refine hout1.setEncoder ?_
  split
  · exact configGet_source (.inr (.inr rfl))
  · exact hout1.encoder

theorem known_boot (s : State) : Known (named (Console.boot p env s)) := by
  have hdmiIn0 : 0 ≤ videoInHdmiIn0 ∧ videoInHdmiIn0 < videoInMax := by decide
  have hinit : Known (named (processorInit (configGet p .resSecondary) (load s))) :=
    ⟨fun _ => hdmiIn0, hdmiIn0, .inr (Int.natCast_nonneg _)⟩
  refine Known.applyConfig ?_
  rw [named_processorService, named_processorStart]
  exact hinit

theorem Known.ciService {s : System} (h : Known (named s.proc)) {elapsed : Bool} {line : Option (List Char)}
    (hc : ∀ l, line = some l → CleanLine (l.takeWhile (· ≠ '\x00'))) :
    Known (named (Console.ciService p env elapsed line s).proc) := by
  refine ciService_keeps (P := fun t => Known (named t)) h (fun _ => Known.statusPrint) ?_
  intro t l ht hl
  have hline := hc l hl
  refine command_keeps (P := fun t => Known (named t)) ht (known_boot _) ?_ ht.statusPrint fun _ => ht.control
  intro hmode
  exact ht.videoMode (hline hmode)

end

/-! ## The texts of a turn -/

section

variable {p : Platform} {stray : Int → VideoTiming} {encoderEnabled : Bool}

theorem fits_sourceName {source : Int} (h : 0 ≤ source ∧ source < videoInMax) :
    AllFit [processorGetSourceName source] := by
  have hlt : source < 4 := h.2
  exact allFit_singleton.2 (fits_processorGetSourceName (by omega))

theorem fits_outputStatus {s : State} (h : Known (named s)) (k : Fin 2) : AllFit (outputStatus p s k) :=
  allFit_ite (fun _ => fits_sourceName (h.out k)) fun _ => allFit_nil

theorem fits_statusPrint {s : State} (h : Known (named s)) : AllFit (statusPrint p stray encoderEnabled s) := by
  unfold statusPrint
  rw [allFit_append, allFit_append, allFit_append]
  refine ⟨⟨⟨fits_outputStatus h 0, fits_outputStatus h 1⟩, ?_⟩, ?_⟩
  · exact allFit_ite (fun _ => allFit_nil) fun hoff => fits_processorDescribeMode (h.secondary.resolve_left hoff)
  · exact allFit_ite (fun _ => fits_sourceName h.encoder) fun _ => allFit_nil

theorem fits_statusService {s : System} (h : Known (named s.proc)) :
    AllFit (statusService p stray encoderEnabled s) := by
  unfold statusService
  rw [allFit_append]
  exact ⟨allFit_ite (fun _ => fits_statusPrint h) fun _ => allFit_nil,
    allFit_ite (fun _ => fits_statusPrint h) fun _ => allFit_nil⟩

theorem fits_videoMatrixConnect (source sink : Int) : AllFit (videoMatrixConnect p source sink) := by
  refine allFit_ite (fun hsource => ?_) fun _ => allFit_nil
  have hname := fits_sourceName hsource
  refine allFit_ite (fun _ => hname) fun _ => ?_
  refine allFit_ite (fun _ => hname) fun _ => ?_
  exact allFit_ite (fun _ => hname) fun _ => allFit_nil

theorem fits_videoMatrix (str : List Char) : AllFit (videoMatrix p str) := by
  refine allFit_ite (fun _ => ?_) fun _ => allFit_nil
  exact allFit_ite (fun _ => fits_videoMatrixConnect _ _) fun _ => allFit_nil

theorem fits_status {s : System} (h : Known (named s.proc)) (str : List Char) :
    AllFit (status p stray encoderEnabled str s) := by
  refine allFit_ite (fun _ => ?_) fun _ => ?_
  · exact allFit_ite (fun _ => allFit_nil) fun _ => fits_statusPrint h
  · exact allFit_ite (fun _ => allFit_nil) fun _ => fits_statusPrint h

theorem fits_videoModeSet {mode : Int} (h : 0 ≤ mode) : AllFit (videoModeSet p stray mode) :=
  allFit_ite (fun _ => fits_processorDescribeMode h) fun _ => allFit_nil

theorem not_fits_videoModeSet {mode : Int} (h : mode < 0) : ¬ AllFit (videoModeSet p (fun _ => longComment) mode) := by
  have hcount : 0 ≤ processorModeCount p := by unfold processorModeCount; omega
  rw [videoModeSet, if_pos (by omega)]
  exact not_fits_processorDescribeMode h

/-- A secondary mode is described as a primary one is. -/
theorem videoModeSecondary_eq {str : List Char} (hnil : (getToken str).1 ≠ []) (hoff : (getToken str).1 ≠ "off".toList) :
    videoModeSecondary p stray str = videoModeSet p stray (atoi (getToken str).1) :=
  (if_neg hnil).trans (if_neg hoff)

theorem fits_videoModeSecondary {str : List Char} (h : (getToken str).1 = [] ∨ (getToken str).1 = "off".toList ∨
    0 ≤ atoi (getToken str).1) : AllFit (videoModeSecondary p stray str) := by
  refine allFit_ite (fun _ => allFit_nil) fun hnil => ?_
  refine allFit_ite (fun _ => allFit_nil) fun hoff => ?_
  exact fits_videoModeSet ((h.resolve_left hnil).resolve_left hoff)

theorem fits_videoMode {str : List Char} (hc : CleanMode str) : AllFit (videoMode p stray str) := by
  unfold CleanMode at hc
  unfold videoMode
  generalize getToken str = t at hc ⊢
  obtain ⟨token, str⟩ := t
  simp only at hc ⊢
  refine allFit_ite (fun _ => fits_processorListModes) fun hlist => ?_
  rw [if_neg hlist] at hc
  refine allFit_ite (fun _ => allFit_nil) fun hcustom => ?_
  rw [if_neg hcustom] at hc
  refine allFit_ite (fun hsecondary => ?_) fun hsecondary => ?_
  · rw [if_pos hsecondary] at hc
    exact fits_videoModeSecondary hc
  · rw [if_neg hsecondary] at hc
    exact fits_videoModeSet hc

theorem not_fits_videoMode {str : List Char} (hc : ¬ CleanMode str) :
    ¬ AllFit (videoMode p (fun _ => longComment) str) := by
  unfold CleanMode at hc
  unfold videoMode
  generalize getToken str = t at hc ⊢
  obtain ⟨token, str⟩ := t
  simp only at hc ⊢
  by_cases hlist : token = "list".toList ∨ token = "l".toList
  · rw [if_pos hlist] at hc
    exact absurd trivial hc
  rw [if_neg hlist] at hc ⊢
  by_cases hcustom : token = "custom".toList
  · rw [if_pos hcustom] at hc
    exact absurd trivial hc
  rw [if_neg hcustom] at hc ⊢
  by_cases hsecondary : token = "secondary".toList ∨ token = "s".toList
  · rw [if_pos hsecondary] at hc ⊢
    simp only [not_or, not_le] at hc
    obtain ⟨hnil, hoff, hneg⟩ := hc
    rw [videoModeSecondary_eq hnil hoff]
    exact not_fits_videoModeSet hneg
  · rw [if_neg hsecondary] at hc ⊢
    exact not_fits_videoModeSet (not_le.1 hc)

theorem fits_command {s : System} (h : Known (named s.proc)) {uptimeSeconds : Int} (hup : 0 ≤ uptimeSeconds)
    {line : List Char} (hc : CleanLine line) : AllFit (command p stray encoderEnabled uptimeSeconds line s) := by
  have huptime := allFit_singleton.2 (fits_uptimeStr hup)
  unfold CleanLine at hc
  unfold command
  generalize getToken line = t at hc ⊢
  obtain ⟨token, str⟩ := t
  simp only at hc ⊢
  refine allFit_ite (fun _ => by decide) fun _ => allFit_append.2 ⟨?_, huptime⟩
  refine allFit_ite (fun _ => huptime) fun _ => ?_
  refine allFit_ite (fun _ => fits_videoMatrix str) fun _ => ?_
  refine allFit_ite (fun hmode => fits_videoMode (hc hmode)) fun _ => ?_
  refine allFit_ite (fun _ => fits_status h str) fun _ => ?_
  exact allFit_ite (fun _ => huptime) fun _ => allFit_nil

theorem not_fits_command {s : System} {uptimeSeconds : Int} {line : List Char} (hc : ¬ CleanLine line) :
    ¬ AllFit (command p (fun _ => longComment) encoderEnabled uptimeSeconds line s) := by
  unfold CleanLine at hc
  unfold command
  generalize getToken line = t at hc ⊢
  obtain ⟨token, str⟩ := t
  simp only at hc ⊢
  obtain ⟨hmode, hc⟩ := Classical.not_imp.1 hc
  have hreboot : token ≠ "reboot".toList := by rcases hmode with rfl | rfl <;> decide
  have huptime : ¬ (token = "uptime".toList ∨ token = "u".toList) := by rcases hmode with rfl | rfl <;> decide
  have hmatrix : ¬ (token = "video_matrix".toList ∨ token = "x".toList) := by rcases hmode with rfl | rfl <;> decide
  rw [if_neg hreboot, if_neg huptime, if_neg hmatrix, if_pos hmode, allFit_append]
  exact fun hall => not_fits_videoMode hc hall.1

/-- What `ci_service` does and prints before it looks for a line. -/
theorem Known.elapsed {s : System} (h : Known (named s.proc)) (env : Env) (elapsed : Bool) :
    AllFit (if elapsed then statusService p stray encoderEnabled s else []) ∧
      Known (named (if elapsed then Console.statusService p env s else s).proc) := by
  refine ⟨allFit_ite (fun _ => fits_statusService h) fun _ => allFit_nil, ?_⟩
  exact ite_keeps (P := fun t => Known (named t))
    (fun _ => statusService_keeps (P := fun t => Known (named t)) h fun _ => Known.statusPrint) fun _ => h

end

/-! ## The run -/

structure Inv (s : Firmware) : Prop where
  uptime : 0 ≤ s.uptimeSeconds
  known  : Known (named s.system.proc)

section

variable {p : Platform} {s : Firmware}

theorem Inv.uptimeService (h : Inv s) : Inv { s with uptimeSeconds := s.uptimeSeconds + 1 } :=
  ⟨Int.add_nonneg h.uptime Int.one_nonneg, h.known⟩

theorem Inv.call (h : Inv s) {system : System} (hs : Known (named system.proc)) (c : Bool) :
    Inv ⟨system, if c then 0 else s.uptimeSeconds⟩ := by
  refine ⟨?_, hs⟩
  cases c with
  | false => exact h.uptime
  | true => exact Int.le_refl 0

theorem Inv.step (h : Inv s) {t : Turn} (ht : Heeded p t.task) : Inv (step p s t) := by
  obtain ⟨env, encoderEnabled, task⟩ := t
  cases task with
  | uptimeService elapsed =>
    cases elapsed with
    | false => exact h
    | true => exact h.uptimeService
  | patternService elapsed => exact h
  | call c =>
    cases c with
    | processorService =>
      have hservice : Known (named (s.system.run (processorService p env)).proc) := by
        rw [run_proc, named_processorService]
        exact h.known
      exact ⟨h.uptime, hservice⟩
    | ciService elapsed line =>
      have hservice : Known (named (Console.ciService p env elapsed line s.system).proc) := by
        refine h.known.ciService fun l hl => ?_
        subst hl
        exact ht
      exact h.call hservice _

theorem fits_patternService_iff {elapsed : Bool} {uptimeSeconds : Int} (h : 0 ≤ uptimeSeconds) :
    AllFit (patternService p elapsed uptimeSeconds) ↔ ¬ (p.mainRam ∧ elapsed) := by
  unfold patternService
  split
  next hpattern =>
    refine iff_of_false (fun hall => ?_) fun hnot => hnot hpattern
    exact not_fits_uptimeText h (hall _ (List.mem_cons_of_mem _ (List.mem_singleton_self _)))
  next hpattern => exact iff_of_true allFit_nil hpattern

/-- **A turn's texts fit exactly when** it is heeded. -/
theorem Inv.fits_iff (h : Inv s) (t : Turn) : Fits p s t ↔ Heeded p t.task := by
  obtain ⟨env, encoderEnabled, task⟩ := t
  cases task with
  | uptimeService elapsed => exact iff_of_true (fun _ => allFit_nil) trivial
  | patternService elapsed => exact forall_const _ |>.trans (fits_patternService_iff h.uptime)
  | call c =>
    cases c with
    | processorService => exact iff_of_true (fun _ => allFit_nil) trivial
    | ciService elapsed line =>
      cases line with
      | none =>
        refine iff_of_true (fun stray => ?_) trivial
        exact allFit_append.2 ⟨(h.known.elapsed env elapsed).1, allFit_nil⟩
      | some line =>
        constructor
        · intro hall
          by_contra hdirty
          exact not_fits_command hdirty (allFit_append.1 (hall fun _ => longComment)).2
        · intro hclean stray
          obtain ⟨hservice, hknown⟩ := h.known.elapsed { env with stray } elapsed
          exact allFit_append.2 ⟨hservice, fits_command hknown h.uptime hclean⟩

end

/-- **Every text fits exactly when** no line has a negative mode number in it, and where there is a pattern no call of its
service finds its second over: that call writes one character too many. -/
theorem fitting_iff (p : Platform) (env : Env) (regs : State) (ts : List Turn) :
    Fitting p env regs ts ↔ ∀ t ∈ ts, Heeded p t.task := by
  have hinv : Inv (booted p env regs) := ⟨Int.le_refl 0, known_boot _⟩
  rw [Fitting, and_iff_right (show AllFit boot by decide)]
  exact Runs.allSteps_iff_inputs (fun _ t h => h.fits_iff t) (fun _ _ h => h.step) ts hinv

/-- "Uptime: 00:00:00" has sixteen characters. -/
theorem not_fitting_uptime : ¬ Fitting opsis default default [⟨default, false, .patternService true⟩] := by
  intro h
  exact (fits_patternService_iff (p := opsis) (Int.le_refl 0)).1 (h.2.1 default) ⟨rfl, rfl⟩

end Texts
end Hdmi2Usb
