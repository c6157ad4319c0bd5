import Hdmi2Usb.Runs
import Mathlib.Algebra.Group.Nat.Defs
import Mathlib.Data.BitVec
import Mathlib.Data.List.Range
/-!
# CtrlSm — the order in which the stages of the encoder work (`CtrlSM.vhd`, `SingleSM.vhd`)

Six processing blocks work one behind the other, each with a state machine of its own (`SingleSm`), which starts its block,
waits for the answer, and hands the settings on when the next stage is idle.  The main state machine has the header
written, offers the blocks of the image to the first stage, row by row, and has the end marker written when all stages are
idle.

A stage holds the settings of its block until the next one has been started with them (`SingleSm.holds`), so what a stage
was started with is what the next one was started with, and the one that it holds.
-/
namespace Hdmi2Usb
namespace CtrlSm

open Runs (AllSteps)

/-- `NUM_STAGES` -/
def numStages : ℕ := 6

theorem numStages_pos : 0 < numStages := by decide

/-- `CMP_MAX` -/
def cmpMax : BitVec 3 := 4

/-- `T_SM_SETTINGS`: a block of the image. -/
structure Settings where
  xCnt   : BitVec 16
  yCnt   : BitVec 16
  cmpIdx : BitVec 3
deriving DecidableEq

/-! ## `SingleSM` -/

inductive SmState where
  | idle
  | waitForBlkRdy
  | waitForBlkIdle
deriving DecidableEq

structure SingleSm where
  state    : SmState
  idleO    : Bool
  startO   : Bool
  pbStartO : Bool

def SingleSm.step (m : SingleSm) (startI idleI pbRdyI : Bool) : SingleSm :=
  let n := { m with idleO := false, startO := false, pbStartO := false }
  match m.state with
  | .idle => if startI then { n with state := .waitForBlkRdy, pbStartO := true } else { n with idleO := true }
  | .waitForBlkRdy =>
    if pbRdyI then
      if idleI then { n with state := .idle, startO := true } else { n with state := .waitForBlkIdle }
    else n
  | .waitForBlkIdle => if idleI then { n with state := .idle, startO := true } else n

/-! ## `CtrlSM` -/

inductive MainState where
  | idles
  | jfif
  | horiz
  | comp
  | vert
  | eoi
deriving DecidableEq

/-- The registers of `p_main_sm`; `start1` is `start(1)`. -/
structure Main where
  mainState   : MainState
  start1      : Bool
  start1D     : Bool
  jpegReady   : Bool
  jpegBusy    : Bool
  rsm         : Settings
  outMuxCtrlS : Bool
  outMuxCtrlS2 : Bool
  outMuxCtrl  : Bool
  jfifEoi     : Bool
  jfifStart   : Bool

structure Regs extends Main where
  sm  : Fin numStages → SingleSm
  reg : Fin numStages → Settings

structure Ctrl where
  outifAlmostFull : Bool
  sof             : Bool
  imgSizeX        : BitVec 16
  imgSizeY        : BitVec 16
  readyPb         : Fin numStages → Bool
  jfifReady       : Bool

/-- `start(i)` -/
def Regs.start (r : Regs) : Fin numStages → Bool
  | ⟨0, _⟩     => r.start1
  | ⟨i + 1, h⟩ => (r.sm ⟨i, Nat.lt_of_succ_lt h⟩).startO

/-- `idle(i+1)` -/
def Regs.idleNext (r : Regs) (i : Ctrl) (k : Fin numStages) : Bool :=
  if h : k.val + 1 < numStages then (r.sm ⟨k + 1, h⟩).idleO else !i.outifAlmostFull

/-- What `Reg(i)` loads at a start. -/
def Regs.offered (r : Regs) : Fin numStages → Settings
  | ⟨0, _⟩     => r.rsm
  | ⟨i + 1, h⟩ => r.reg ⟨i, Nat.lt_of_succ_lt h⟩

/-- All bits of `idle`. -/
def Regs.allIdle (r : Regs) (i : Ctrl) : Bool := (!i.outifAlmostFull) && decide (∀ k, (r.sm k).idleO = true)

/-- The cases of `p_main_sm`. -/
def Regs.mainCase (r : Regs) (i : Ctrl) : Main :=
  let n := { r.toMain with
    start1 := false, start1D := r.start1, jpegReady := false, jfifStart := false, outMuxCtrlS2 := r.outMuxCtrlS,
    outMuxCtrl := r.outMuxCtrlS2 }
  match r.mainState with
  | .idles =>
    if i.sof then
      { n with rsm := { r.rsm with xCnt := 0, yCnt := 0 }, jfifStart := true, outMuxCtrlS := false, jfifEoi := false,
               mainState := .jfif }
    else n
  | .jfif => if i.jfifReady then { n with outMuxCtrlS := true, mainState := .horiz } else n
  | .horiz =>
    if r.rsm.xCnt < i.imgSizeX then { n with mainState := .comp }
    else { n with rsm := { r.rsm with xCnt := 0 }, mainState := .vert }
  | .comp =>
    if (r.sm ⟨0, by decide⟩).idleO ∧ ¬ r.start1 then
      if r.rsm.cmpIdx < cmpMax then { n with start1 := true }
      else { n with rsm := { r.rsm with cmpIdx := 0, xCnt := r.rsm.xCnt + 16 }, mainState := .horiz }
    else n
  | .vert =>
    if r.rsm.yCnt < i.imgSizeY - 8 then
      { n with rsm := { r.rsm with xCnt := 0, yCnt := r.rsm.yCnt + 8 }, mainState := .horiz }
    else if r.allIdle i then { n with mainState := .eoi, jfifEoi := true, outMuxCtrlS := false, jfifStart := true }
    else n
  | .eoi => if i.jfifReady then { n with jpegReady := true, mainState := .idles } else n

/-- `p_main_sm`: the component is counted behind its start, whatever the case. -/
def Regs.main (r : Regs) (i : Ctrl) : Main :=
  let n := r.mainCase i
  { n with
    rsm      := { n.rsm with cmpIdx := if r.start1D then r.rsm.cmpIdx + 1 else n.rsm.cmpIdx }
    jpegBusy := r.mainState ≠ .idles }

/-- A clock edge. -/
def Regs.step (r : Regs) (i : Ctrl) : Regs where
  toMain := r.main i
  sm     := fun k => (r.sm k).step (r.start k) (r.idleNext i k) (i.readyPb k)
  reg    := fun k => if r.start k then r.offered k else r.reg k

def Regs.reset : Regs where
  mainState    := .idles
  start1       := false
  start1D      := false
  jpegReady    := false
  jpegBusy     := false
  rsm          := ⟨0, 0, 0⟩
  outMuxCtrlS  := false
  outMuxCtrlS2 := false
  outMuxCtrl   := false
  jfifEoi      := false
  jfifStart    := false
  sm           := fun _ => ⟨.idle, false, false, false⟩
  reg          := fun _ => ⟨0, 0, 0⟩

/-! ## The blocks of an image -/

/-- The components `c` and those behind it of the block at the column `x` and the row `y`. -/
def comps (x y c : ℕ) : List Settings :=
  (List.range' c (4 - c)).map fun c => ⟨BitVec.ofNat 16 (16 * x), BitVec.ofNat 16 (8 * y), BitVec.ofNat 3 c⟩

/-- The rest of a row, from the column `x` on. -/
def columns (size : BitVec 16 × BitVec 16) (y x : ℕ) : List Settings :=
  (List.range' x ((size.1.toNat + 15) / 16 - x)).flatMap fun x => comps x y 0

/-- The rest of the image, from the row `y` on. -/
def rows (size : BitVec 16 × BitVec 16) (y : ℕ) : List Settings :=
  (List.range' y ((size.2.toNat + 7) / 8 - y)).flatMap fun y => columns size y 0

/-- **The blocks of an image**: its rows of eight lines, in them the columns of sixteen pixels, and their four components. -/
def raster (size : BitVec 16 × BitVec 16) : List Settings := rows size 0

/-! ## Runs -/

/-- The control with what it was seen to do: the settings that each stage was started with, its answers, the blocks of the
images before this one, and the size of this one. -/
structure State where
  regs     : Regs
  started  : Fin numStages → List Settings
  answered : Fin numStages → ℕ
  before   : List Settings
  size     : BitVec 16 × BitVec 16

def State.step (s : State) (i : Ctrl) : State where
  regs     := s.regs.step i
  started  := fun k => if ((s.regs.step i).sm k).pbStartO then s.started k ++ [(s.regs.step i).reg k] else s.started k
  answered := fun k => s.answered k + (i.readyPb k).toNat
  before   := if s.regs.mainState = .idles ∧ i.sof then s.before ++ raster s.size else s.before
  size     := if s.regs.mainState = .idles ∧ i.sof then (i.imgSizeX, i.imgSizeY) else s.size

def State.reset : State where
  regs     := .reset
  started  := fun _ => []
  answered := fun _ => 0
  before   := []
  size     := (0, 0)

/-- **What the encoder is connected to**: a block answers a start that it has not answered, and the size of the image does
not change as long as it is encoded; it has a row of blocks at least, and its last column does not lie at the end of the
counter. -/
structure Keeps (s : State) (i : Ctrl) : Prop where
  answers : ∀ k, i.readyPb k = true → s.answered k < (s.started k).length
  size    : s.regs.mainState ≠ .idles → (i.imgSizeX, i.imgSizeY) = s.size
  bounds  : s.regs.mainState = .idles → i.sof = true → 8 ≤ i.imgSizeY.toNat ∧ i.imgSizeX.toNat ≤ 65520

instance (s : State) (i : Ctrl) : Decidable (Keeps s i) :=
  decidable_of_iff ((∀ k, i.readyPb k = true → s.answered k < (s.started k).length) ∧
      (s.regs.mainState ≠ .idles → (i.imgSizeX, i.imgSizeY) = s.size) ∧
      (s.regs.mainState = .idles → i.sof = true → 8 ≤ i.imgSizeY.toNat ∧ i.imgSizeX.toNat ≤ 65520))
    ⟨fun h => ⟨h.1, h.2.1, h.2.2⟩, fun h => ⟨h.answers, h.size, h.bounds⟩⟩

/-! ## A stage -/

/-- The block of a stage has not been handed on. -/
def SingleSm.holds (m : SingleSm) : Bool := m.startO || decide (m.state ≠ .idle)

section

variable {m : SingleSm} {startI idleI pbRdyI : Bool}

theorem SingleSm.pbStartO_step (hfree : startI = true → m.state = .idle) : (m.step startI idleI pbRdyI).pbStartO = startI := by
  cases startI with
  | true => simp only [SingleSm.step, hfree rfl, if_true]
  | false =>
    unfold SingleSm.step
    split
    · rfl
    · split
      · split <;> rfl
      · rfl
    · split <;> rfl

/-- A stage is handed on to a stage that is idle. -/
theorem SingleSm.startO_step (h : (m.step startI idleI pbRdyI).startO = true) :
    idleI = true ∧ m.state ≠ .idle ∧ (m.step startI idleI pbRdyI).state = .idle := by
  revert h
  unfold SingleSm.step
  split
  · split <;> nofun
  · rename_i hstate
    split
    · split
      · rename_i hidle
        exact fun _ => ⟨hidle, by rw [hstate]; nofun, rfl⟩
      · nofun
    · nofun
  · rename_i hstate
    split
    · rename_i hidle
      exact fun _ => ⟨hidle, by rw [hstate]; nofun, rfl⟩
    · nofun

theorem SingleSm.idleO_step (h : (m.step startI idleI pbRdyI).idleO = true) :
    startI = false ∧ (m.step startI idleI pbRdyI).holds = false := by
  revert h
  unfold SingleSm.step
  split
  · split
    · nofun
    · rename_i hstate hstart
      intro _
      exact ⟨Bool.eq_false_iff.2 hstart, by simp [SingleSm.holds, hstate]⟩
  · split
    · split <;> nofun
    · nofun
  · split <;> nofun

/-- What a stage holds behind a cycle: the block that it was started with, or the one that it held and did not hand on. -/
theorem SingleSm.holds_step (hfree : startI = true → m.state = .idle) (hquiet : m.state ≠ .idle → m.startO = false) :
    (m.step startI idleI pbRdyI).holds = (startI || (m.holds && !m.startO)) := by
  cases hstate : m.state with
  | idle =>
    cases startI <;> cases hstart : m.startO <;> simp [SingleSm.step, SingleSm.holds, hstate, hstart]
  | waitForBlkRdy =>
    have hno : startI = false := Bool.eq_false_iff.2 fun hs => by rw [hstate] at hfree; cases hfree hs
    have hstart := hquiet (by rw [hstate]; nofun)
    cases pbRdyI <;> cases idleI <;> simp [SingleSm.step, SingleSm.holds, hstate, hno, hstart]
  | waitForBlkIdle =>
    have hno : startI = false := Bool.eq_false_iff.2 fun hs => by rw [hstate] at hfree; cases hfree hs
    have hstart := hquiet (by rw [hstate]; nofun)
    cases idleI <;> simp [SingleSm.step, SingleSm.holds, hstate, hno, hstart]

/-- A stage waits for the answer to its start. -/
theorem SingleSm.waits_step (idleI pbRdyI : Bool) (hfree : startI = true → m.state = .idle) :
    (m.step startI idleI pbRdyI).state = .waitForBlkRdy ↔ startI = true ∨ (m.state = .waitForBlkRdy ∧ pbRdyI = false) := by
  cases hstate : m.state with
  | idle => cases startI <;> simp [SingleSm.step, hstate]
  | waitForBlkRdy =>
    have hno : startI = false := Bool.eq_false_iff.2 fun hs => by rw [hstate] at hfree; cases hfree hs
    cases pbRdyI <;> cases idleI <;> simp [SingleSm.step, hstate, hno]
  | waitForBlkIdle =>
    have hno : startI = false := Bool.eq_false_iff.2 fun hs => by rw [hstate] at hfree; cases hfree hs
    cases idleI <;> simp [SingleSm.step, hstate, hno]

end

/-- What a stage has to do with the next one: `done` is what it has handed on. -/
structure Stage (s : State) (k : Fin numStages) (done : List Settings) : Prop where
  free  : s.regs.start k = true → (s.regs.sm k).state = .idle
  quiet : (s.regs.sm k).state ≠ .idle → (s.regs.sm k).startO = false
  idle  : (s.regs.sm k).idleO = true → (s.regs.sm k).holds = false
  split : s.started k = done ++ if (s.regs.sm k).holds then [s.regs.reg k] else []
  next  : ∀ h : k.val + 1 < numStages, s.started ⟨k + 1, h⟩ = done
  count : (s.started k).length = s.answered k + if (s.regs.sm k).state = .waitForBlkRdy then 1 else 0

section

variable {s : State} {i : Ctrl} {k : Fin numStages} {done : List Settings}

theorem started_step (hfree : s.regs.start k = true → (s.regs.sm k).state = .idle) (i : Ctrl) :
    (s.step i).started k = s.started k ++ if s.regs.start k then [s.regs.offered k] else [] := by
  show (if ((s.regs.sm k).step _ _ _).pbStartO then s.started k ++ [if s.regs.start k then _ else _] else s.started k) = _
  rw [SingleSm.pbStartO_step hfree]
  cases s.regs.start k with
  | true => rfl
  | false => exact (List.append_nil _).symm

/-- A stage that has answered every start waits for none. -/
theorem Stage.waits_iff (h : Stage s k done) : (s.regs.sm k).state = .waitForBlkRdy ↔ s.answered k < (s.started k).length := by
  have hcount := h.count
  split at hcount
  · rename_i hstate
    exact ⟨fun _ => by omega, fun _ => hstate⟩
  · rename_i hstate
    exact ⟨fun hs => (hstate hs).elim, fun _ => by omega⟩

/-- A start comes to a stage that is idle: from the main state machine to the first one, and from a stage to the next. -/
theorem start_step (h : ∀ k, ∃ done, Stage s k done)
    (hfirst : (s.regs.main i).start1 = true → (s.regs.sm ⟨0, by decide⟩).idleO = true ∧ s.regs.start1 = false)
    (hstart : (s.step i).regs.start k = true) : ((s.step i).regs.sm k).state = .idle := by
  have hstay : ∀ j, (s.regs.sm j).idleO = true → s.regs.start j = false → ((s.step i).regs.sm j).state = .idle := by
    intro j hidle hno
    obtain ⟨done, hj⟩ := h j
    have hholds := hj.idle hidle
    have hstate : (s.regs.sm j).state = .idle := by
      rw [SingleSm.holds, Bool.or_eq_false_iff] at hholds
      simpa using hholds.2
    show ((s.regs.sm j).step _ _ _).state = .idle
    rw [hno]
    simp only [SingleSm.step, hstate, Bool.false_eq_true, if_false]
  obtain ⟨k, hk⟩ := k
  cases k with
  | zero =>
    obtain ⟨hidle, hno⟩ := hfirst hstart
    exact hstay _ hidle hno
  | succ j =>
    obtain ⟨hidle, hbusy, -⟩ := SingleSm.startO_step (m := s.regs.sm ⟨j, Nat.lt_of_succ_lt hk⟩) hstart
    obtain ⟨done, hj⟩ := h ⟨j, Nat.lt_of_succ_lt hk⟩
    rw [Regs.idleNext, dif_pos hk] at hidle
    exact hstay _ hidle (hj.quiet hbusy)

/-- A cycle of a stage. -/
theorem Stage.step (h : Stage s k done) (hall : ∀ k, ∃ done, Stage s k done) (hkeeps : Keeps s i)
    (hfirst : (s.regs.main i).start1 = true → (s.regs.sm ⟨0, by decide⟩).idleO = true ∧ s.regs.start1 = false) :
    Stage (s.step i) k (done ++ if (s.regs.sm k).startO then [s.regs.reg k] else []) where
  free  := start_step hall hfirst
  quiet := fun hbusy => by
    rw [Bool.eq_false_iff]
    exact fun hstart => hbusy (SingleSm.startO_step hstart).2.2
  idle  := fun hidle => (SingleSm.idleO_step hidle).2
  split := by
    have hholds : ((s.step i).regs.sm k).holds = _ := SingleSm.holds_step h.free h.quiet
    have hreg : (s.step i).regs.reg k = if s.regs.start k then s.regs.offered k else s.regs.reg k := rfl
    rw [started_step h.free, hholds, hreg, h.split]
    cases hstart : s.regs.start k with
    | true =>
      have hstate := h.free hstart
      have hsame : (s.regs.sm k).holds = (s.regs.sm k).startO := by simp [SingleSm.holds, hstate]
      simp [hsame]
    | false =>
      cases hout : (s.regs.sm k).startO with
      | true => simp [SingleSm.holds, hout]
      | false => simp
  next  := fun hk => by
    obtain ⟨done', hnext⟩ := hall ⟨k + 1, hk⟩
    rw [started_step hnext.free, h.next hk]
    rfl
  count := by
    have hwaits := SingleSm.waits_step (s.regs.idleNext i k) (i.readyPb k) h.free
    have hanswer := hkeeps.answers k
    rw [← h.waits_iff] at hanswer
    have hcount := h.count
    rw [started_step h.free]
    show _ = s.answered k + (i.readyPb k).toNat + if ((s.regs.sm k).step _ _ _).state = _ then 1 else 0
    simp only [hwaits]
    cases hstart : s.regs.start k with
    | true =>
      have hstate := h.free hstart
      have hno : i.readyPb k = false := Bool.eq_false_iff.2 fun hr => by rw [hstate] at hanswer; cases hanswer hr
      simp only [hstate, reduceCtorEq, if_false] at hcount
      simp [hno, hcount]
    | false =>
      cases hready : i.readyPb k with
      | true =>
        rw [if_pos (hanswer hready)] at hcount
        simp [hcount]
      | false => simp [hcount]

end

/-! ## The main state machine -/

/-- The block at a column, a row and a component. -/
def block (x y c : ℕ) : Settings := ⟨BitVec.ofNat 16 (16 * x), BitVec.ofNat 16 (8 * y), BitVec.ofNat 3 c⟩

/-- `rest` is left of the image behind the blocks that were offered to the first stage. -/
def Main.At (m : Main) (size : BitVec 16 × BitVec 16) (rest : List Settings) : Prop :=
  match m.mainState with
  | .idles | .eoi => m.rsm.cmpIdx = 0 ∧ rest = []
  | .jfif  => m.rsm = block 0 0 0 ∧ rest = raster size
  | .horiz => ∃ x y, x ≤ (size.1.toNat + 15) / 16 ∧ y < (size.2.toNat + 7) / 8 ∧ m.rsm = block x y 0 ∧
      rest = columns size y x ++ rows size (y + 1)
  | .comp  => ∃ x y c, x < (size.1.toNat + 15) / 16 ∧ y < (size.2.toNat + 7) / 8 ∧ c ≤ 4 ∧
      (c = 4 → m.start1 = false ∧ m.start1D = false) ∧ m.rsm = block x y c ∧
      rest = comps x y (c + (m.start1 || m.start1D).toNat) ++ (columns size y (x + 1) ++ rows size (y + 1))
  | .vert  => ∃ y, y < (size.2.toNat + 7) / 8 ∧ m.rsm = block 0 y 0 ∧ rest = rows size (y + 1)

theorem comps_of_lt (x y : ℕ) {c : ℕ} (h : c < 4) : comps x y c = block x y c :: comps x y (c + 1) := by
  obtain ⟨n, hn⟩ : ∃ n, 4 - c = n + 1 := ⟨3 - c, by omega⟩
  rw [comps, comps, hn, show 4 - (c + 1) = n by omega, List.range'_succ]
  rfl

theorem comps_of_ge (x y : ℕ) {c : ℕ} (h : 4 ≤ c) : comps x y c = [] := by
  rw [comps, Nat.sub_eq_zero_of_le h]
  rfl

section

variable {size : BitVec 16 × BitVec 16} {x y : ℕ}

theorem columns_of_lt (h : x < (size.1.toNat + 15) / 16) : columns size y x = comps x y 0 ++ columns size y (x + 1) := by
  obtain ⟨n, hn⟩ : ∃ n, (size.1.toNat + 15) / 16 - x = n + 1 := ⟨(size.1.toNat + 15) / 16 - x - 1, by omega⟩
  rw [columns, columns, hn, show (size.1.toNat + 15) / 16 - (x + 1) = n by omega, List.range'_succ]
  rfl

theorem columns_of_ge (h : (size.1.toNat + 15) / 16 ≤ x) : columns size y x = [] := by
  rw [columns, Nat.sub_eq_zero_of_le h]
  rfl

theorem rows_of_lt (h : y < (size.2.toNat + 7) / 8) : rows size y = columns size y 0 ++ rows size (y + 1) := by
  obtain ⟨n, hn⟩ : ∃ n, (size.2.toNat + 7) / 8 - y = n + 1 := ⟨(size.2.toNat + 7) / 8 - y - 1, by omega⟩
  rw [rows, rows, hn, show (size.2.toNat + 7) / 8 - (y + 1) = n by omega, List.range'_succ]
  rfl

theorem rows_of_ge (h : (size.2.toNat + 7) / 8 ≤ y) : rows size y = [] := by
  rw [rows, Nat.sub_eq_zero_of_le h]
  rfl

/-- The comparison of `HORIZ`. -/
theorem xCnt_lt (hx : x ≤ (size.1.toNat + 15) / 16) (hwide : size.1.toNat ≤ 65520) :
    BitVec.ofNat 16 (16 * x) < size.1 ↔ x < (size.1.toNat + 15) / 16 := by
  rw [BitVec.lt_def, BitVec.toNat_ofNat, Nat.mod_eq_of_lt (by omega)]
  omega

/-- The comparison of `VERT`. -/
theorem yCnt_lt (hy : y < (size.2.toNat + 7) / 8) (hhigh : 8 ≤ size.2.toNat) :
    BitVec.ofNat 16 (8 * y) < size.2 - 8 ↔ y + 1 < (size.2.toNat + 7) / 8 := by
  have hlt := size.2.isLt
  have height : (8 : BitVec 16).toNat = 8 := rfl
  rw [BitVec.lt_def, BitVec.toNat_ofNat, BitVec.toNat_sub_of_le (by rw [BitVec.le_def, height]; exact hhigh), height,
    Nat.mod_eq_of_lt (by omega)]
  omega

theorem block_nextColumn (x y : ℕ) : (block x y 0).xCnt + 16 = (block (x + 1) y 0).xCnt := by
  show BitVec.ofNat 16 (16 * x) + BitVec.ofNat 16 16 = BitVec.ofNat 16 (16 * (x + 1))
  rw [← BitVec.ofNat_add, Nat.mul_succ]

theorem block_nextRow (x y : ℕ) : (block x y 0).yCnt + 8 = (block x (y + 1) 0).yCnt := by
  show BitVec.ofNat 16 (8 * y) + BitVec.ofNat 16 8 = BitVec.ofNat 16 (8 * (y + 1))
  rw [← BitVec.ofNat_add, Nat.mul_succ]

theorem block_nextCmp (x y c : ℕ) : (block x y c).cmpIdx + 1 = (block x y (c + 1)).cmpIdx := by
  show BitVec.ofNat 3 c + BitVec.ofNat 3 1 = BitVec.ofNat 3 (c + 1)
  rw [← BitVec.ofNat_add]

theorem cmpIdx_lt (x y : ℕ) {c : ℕ} (h : c ≤ 4) : (block x y c).cmpIdx < cmpMax ↔ c < 4 := by
  show BitVec.ofNat 3 c < 4 ↔ c < 4
  rw [BitVec.lt_def, BitVec.toNat_ofNat, Nat.mod_eq_of_lt (by omega)]
  rfl

end

section

variable {r : Regs} {i : Ctrl} {size : BitVec 16 × BitVec 16} {rest : List Settings}

/-- A start is given in `COMP` only, to an idle stage. -/
theorem main_start1 (h : (r.main i).start1 = true) :
    r.mainState = .comp ∧ (r.sm ⟨0, by decide⟩).idleO = true ∧ r.start1 = false ∧ (r.main i).mainState = .comp := by
  replace h : (r.mainCase i).start1 = true := h
  show _ ∧ _ ∧ _ ∧ (r.mainCase i).mainState = .comp
  revert h
  cases hstate : r.mainState <;> simp only [Regs.mainCase, hstate]
  case idles | jfif | eoi => split <;> nofun
  case horiz => split <;> nofun
  case vert =>
    split
    · nofun
    · split <;> nofun
  case comp =>
    split
    · rename_i hidle
      split
      · exact fun _ => ⟨trivial, hidle.1, Bool.eq_false_iff.2 hidle.2, rfl⟩
      · nofun
    · nofun

/-- Where no start is counted, the settings are those of the case. -/
theorem main_at (hD : r.start1D = false) : (r.main i).At size rest ↔ (r.mainCase i).At size rest := by
  have hmain : r.main i = { r.mainCase i with jpegBusy := r.mainState ≠ .idles } := by
    simp only [Regs.main, hD, Bool.false_eq_true, if_false]
  rw [hmain]
  rfl

theorem main_idles (hstate : r.mainState = .idles) (hD : r.start1D = false) (hat : r.At size rest) :
    rest = [] ∧ (r.main i).At (if i.sof then (i.imgSizeX, i.imgSizeY) else size)
      (if i.sof then raster (i.imgSizeX, i.imgSizeY) else []) := by
  simp only [Main.At, hstate] at hat
  obtain ⟨hcmp, hrest⟩ := hat
  refine ⟨hrest, (main_at hD).2 ?_⟩
  simp only [Regs.mainCase, hstate]
  split
  · refine ⟨?_, rfl⟩
    rw [hcmp]
    rfl
  · simp only [Main.At]
    exact ⟨hcmp, trivial⟩

theorem main_jfif (hstate : r.mainState = .jfif) (hD : r.start1D = false) (hat : r.At size rest)
    (hhigh : 8 ≤ size.2.toNat) : (r.main i).At size rest := by
  simp only [Main.At, hstate] at hat
  rw [main_at hD]
  simp only [Regs.mainCase, hstate]
  split
  · exact ⟨0, 0, Nat.zero_le _, by omega, hat.1, by rw [hat.2, raster, rows_of_lt (by omega)]⟩
  · simp only [Main.At]
    exact hat

theorem main_horiz (hstate : r.mainState = .horiz) (hD : r.start1D = false) (h1 : r.start1 = false) (hat : r.At size rest)
    (hsize : i.imgSizeX = size.1) (hwide : size.1.toNat ≤ 65520) : (r.main i).At size rest := by
  simp only [Main.At, hstate] at hat
  obtain ⟨x, y, hx, hy, hrsm, hrest⟩ := hat
  have hlt : r.rsm.xCnt < i.imgSizeX ↔ x < (size.1.toNat + 15) / 16 := by
    rw [hrsm, hsize]
    exact xCnt_lt hx hwide
  rw [main_at hD]
  simp only [Regs.mainCase, hstate]
  split
  · rename_i hin
    rw [hlt] at hin
    refine ⟨x, y, 0, hin, hy, Nat.zero_le 4, nofun, hrsm, ?_⟩
    rw [hrest, columns_of_lt hin, List.append_assoc, h1]
    rfl
  · rename_i hend
    rw [hlt, Nat.not_lt] at hend
    refine ⟨y, hy, ?_, ?_⟩
    · rw [hrsm]
      rfl
    · rw [hrest, columns_of_ge hend, List.nil_append]

/-- In `COMP` the components of a block are offered one after the other. -/
theorem main_comp (hstate : r.mainState = .comp) (honce : r.start1 = true → r.start1D = false)
    (htaken : r.start1D = true → (r.sm ⟨0, by decide⟩).idleO = false) (hat : r.At size rest) :
    ∃ rest', (r.main i).At size rest' ∧ rest = (if (r.main i).start1 then [(r.main i).rsm] else []) ++ rest' := by
  simp only [Main.At, hstate] at hat
  obtain ⟨x, y, c, hx, hy, hc, hlast, hrsm, hrest⟩ := hat
  cases h1 : r.start1 with
  | true =>
    -- the start is seen by the first stage
    have hD := honce h1
    have hcase : r.mainCase i = { r.toMain with
        start1 := false, start1D := true, jpegReady := false, jfifStart := false, outMuxCtrlS2 := r.outMuxCtrlS,
        outMuxCtrl := r.outMuxCtrlS2 } := by
      simp only [Regs.mainCase, hstate, h1, not_true_eq_false, and_false, if_false]
    have hc4 : c ≠ 4 := fun he => by rw [h1] at hlast; cases (hlast he).1
    refine ⟨rest, (main_at hD).2 ?_, ?_⟩
    · rw [hcase]
      simp only [Main.At, hstate]
      exact ⟨x, y, c, hx, hy, hc, fun he => (hc4 he).elim, hrsm, by rw [hrest, h1]; rfl⟩
    · rw [show (r.main i).start1 = (r.mainCase i).start1 from rfl, hcase]
      rfl
  | false =>
    cases hD : r.start1D with
    | true =>
      -- the component is counted
      have hmain : r.main i = { r.toMain with
          start1 := false, start1D := false, jpegReady := false, jfifStart := false, outMuxCtrlS2 := r.outMuxCtrlS,
          outMuxCtrl := r.outMuxCtrlS2, rsm := { r.rsm with cmpIdx := r.rsm.cmpIdx + 1 },
          jpegBusy := r.mainState ≠ .idles } := by
        simp only [Regs.main, Regs.mainCase, hstate, h1, hD, htaken hD, Bool.false_eq_true, false_and, if_false, if_true]
      have hc4 : c ≠ 4 := fun he => by rw [hD] at hlast; cases (hlast he).2
      rw [hmain]
      refine ⟨rest, ?_, rfl⟩
      simp only [Main.At, hstate]
      refine ⟨x, y, c + 1, hx, hy, by omega, fun _ => ⟨trivial, trivial⟩, ?_, by rw [hrest, h1, hD]; rfl⟩
      rw [hrsm, block_nextCmp]
      rfl
    | false =>
      rw [h1, hD] at hrest
      replace hrest : rest = comps x y c ++ (columns size y (x + 1) ++ rows size (y + 1)) := hrest
      have hlt : r.rsm.cmpIdx < cmpMax ↔ c < 4 := by
        rw [hrsm]
        exact cmpIdx_lt x y hc
      have hstart : (r.main i).start1 = (r.mainCase i).start1 := rfl
      have hrsm' : (r.main i).rsm = (r.mainCase i).rsm := by
        simp only [Regs.main, hD, Bool.false_eq_true, if_false]
      simp only [main_at hD, hstart, hrsm']
      simp only [Regs.mainCase, hstate]
      split
      · split
        · rename_i hin
          rw [hlt] at hin
          refine ⟨comps x y (c + 1) ++ (columns size y (x + 1) ++ rows size (y + 1)), ?_, ?_⟩
          · simp only [Main.At]
            exact ⟨x, y, c, hx, hy, hc, fun he => by omega, hrsm, rfl⟩
          · rw [hrest, comps_of_lt x y hin, hrsm]
            rfl
        · rename_i hend
          rw [hlt, Nat.not_lt] at hend
          refine ⟨rest, ⟨x + 1, y, hx, hy, ?_, ?_⟩, rfl⟩
          · rw [hrsm, show (block x y c).xCnt = (block x y 0).xCnt from rfl, block_nextColumn]
            rfl
          · rw [hrest, comps_of_ge x y hend, List.nil_append]
      · refine ⟨rest, ?_, rfl⟩
        simp only [Main.At]
        exact ⟨x, y, c, hx, hy, hc, fun _ => ⟨trivial, h1⟩, hrsm, by rw [hrest, h1]; rfl⟩

theorem main_vert (hstate : r.mainState = .vert) (hD : r.start1D = false) (hat : r.At size rest)
    (hsize : i.imgSizeY = size.2) (hhigh : 8 ≤ size.2.toNat) : (r.main i).At size rest := by
  simp only [Main.At, hstate] at hat
  obtain ⟨y, hy, hrsm, hrest⟩ := hat
  have hlt : r.rsm.yCnt < i.imgSizeY - 8 ↔ y + 1 < (size.2.toNat + 7) / 8 := by
    rw [hrsm, hsize]
    exact yCnt_lt hy hhigh
  rw [main_at hD]
  simp only [Regs.mainCase, hstate]
  split
  · rename_i hin
    rw [hlt] at hin
    refine ⟨0, y + 1, Nat.zero_le _, hin, ?_, by rw [hrest, rows_of_lt hin]⟩
    rw [hrsm, block_nextRow]
    rfl
  · rename_i hend
    rw [hlt, Nat.not_lt] at hend
    split
    · exact ⟨by rw [hrsm]; rfl, by rw [hrest, rows_of_ge hend]⟩
    · simp only [Main.At]
      exact ⟨y, hy, hrsm, hrest⟩

theorem main_eoi (hstate : r.mainState = .eoi) (hD : r.start1D = false) (hat : r.At size rest) : (r.main i).At size rest := by
  simp only [Main.At, hstate] at hat
  rw [main_at hD]
  simp only [Regs.mainCase, hstate]
  split
  · exact hat
  · simp only [Main.At]
    exact hat

end

/-! ## The invariant -/

/-- The main state machine waits for an image, or for the header or the end marker to be written. -/
def MainState.Rests (m : MainState) : Prop := m = .idles ∨ m = .jfif ∨ m = .eoi

/-- The blocks that were offered to the first stage. -/
def State.asked (s : State) : List Settings := s.started ⟨0, by decide⟩ ++ if s.regs.start1 then [s.regs.rsm] else []

structure Inv (s : State) : Prop where
  stage  : ∀ k, ∃ done, Stage s k done
  main   : ∃ rest, s.regs.At s.size rest ∧ s.before ++ raster s.size = s.asked ++ rest
  offers : s.regs.start1 = true ∨ s.regs.start1D = true → s.regs.mainState = .comp
  once   : s.regs.start1 = true → s.regs.start1D = false
  taken  : s.regs.start1D = true → (s.regs.sm ⟨0, by decide⟩).idleO = false
  bounds : s.regs.mainState ≠ .idles → 8 ≤ s.size.2.toNat ∧ s.size.1.toNat ≤ 65520
  rests  : s.regs.mainState.Rests → ∀ k, (s.regs.sm k).holds = false
  starts : s.regs.jfifStart = true → s.regs.mainState = if s.regs.jfifEoi then .eoi else .jfif
  ready  : s.regs.jpegReady = true → s.regs.mainState = .idles

section

variable {s : State} {i : Ctrl}

theorem Inv.not_start1 (h : Inv s) (hstate : s.regs.mainState ≠ .comp) : s.regs.start1 = false ∧ s.regs.start1D = false :=
  ⟨Bool.eq_false_iff.2 fun h1 => hstate (h.offers (.inl h1)), Bool.eq_false_iff.2 fun hD => hstate (h.offers (.inr hD))⟩

theorem Inv.asked_step (h : Inv s) (i : Ctrl) :
    (s.step i).asked = s.asked ++ if (s.regs.main i).start1 then [(s.regs.main i).rsm] else [] := by
  obtain ⟨done, hstage⟩ := h.stage ⟨0, by decide⟩
  rw [State.asked, started_step hstage.free]
  rfl

/-- What is offered is what is left of the image. -/
theorem Inv.main_step (h : Inv s) (hkeeps : Keeps s i) :
    ∃ rest, (s.step i).regs.At (s.step i).size rest ∧
      (s.step i).before ++ raster (s.step i).size = (s.step i).asked ++ rest := by
  obtain ⟨rest, hat, hsplit⟩ := h.main
  rw [h.asked_step]
  show ∃ rest', (s.regs.main i).At (if s.regs.mainState = .idles ∧ i.sof then _ else s.size) rest' ∧
    (if s.regs.mainState = .idles ∧ i.sof then _ else s.before) ++
      raster (if s.regs.mainState = .idles ∧ i.sof then _ else s.size) = _
  -- an offer is given in `COMP`, and an image is begun in `IDLES`
  have hquiet : s.regs.mainState ≠ .comp → (s.regs.main i).start1 = false := fun hstate =>
    Bool.eq_false_iff.2 fun h1 => hstate (main_start1 h1).1
  have hwithin : s.regs.mainState ≠ .idles → (s.regs.main i).At s.size rest → s.regs.mainState ≠ .comp →
      ∃ rest', (s.regs.main i).At (if s.regs.mainState = .idles ∧ i.sof then (i.imgSizeX, i.imgSizeY) else s.size) rest' ∧
        (if s.regs.mainState = .idles ∧ i.sof then s.before ++ raster s.size else s.before) ++
          raster (if s.regs.mainState = .idles ∧ i.sof then (i.imgSizeX, i.imgSizeY) else s.size) =
        s.asked ++ (if (s.regs.main i).start1 then [(s.regs.main i).rsm] else []) ++ rest' := by
    intro hbusy hat' hcomp
    simp only [hbusy, false_and, if_false, hquiet hcomp, Bool.false_eq_true, List.append_nil]
    exact ⟨rest, hat', hsplit⟩
  cases hstate : s.regs.mainState with
  | idles =>
    obtain ⟨-, hD⟩ := h.not_start1 (by rw [hstate]; nofun)
    obtain ⟨rfl, hat'⟩ := main_idles (i := i) hstate hD hat
    rw [List.append_nil] at hsplit
    rw [hquiet (by rw [hstate]; nofun), if_neg Bool.false_ne_true, List.append_nil, ← hsplit]
    cases hsof : i.sof with
    | true =>
      rw [hsof, if_pos rfl, if_pos rfl] at hat'
      simp only [true_and, if_true]
      exact ⟨_, hat', rfl⟩
    | false =>
      rw [hsof, if_neg Bool.false_ne_true, if_neg Bool.false_ne_true] at hat'
      simp only [Bool.false_eq_true, and_false, if_false]
      exact ⟨_, hat', (List.append_nil _).symm⟩
  | jfif =>
    obtain ⟨-, hD⟩ := h.not_start1 (by rw [hstate]; nofun)
    have hat' := main_jfif (i := i) hstate hD hat (h.bounds (by rw [hstate]; nofun)).1
    rw [hstate] at hwithin
    exact hwithin nofun hat' nofun
  | horiz =>
    obtain ⟨h1, hD⟩ := h.not_start1 (by rw [hstate]; nofun)
    have hsize := hkeeps.size (by rw [hstate]; nofun)
    have hat' := main_horiz (i := i) hstate hD h1 hat (congrArg Prod.fst hsize) (h.bounds (by rw [hstate]; nofun)).2
    rw [hstate] at hwithin
    exact hwithin nofun hat' nofun
  | comp =>
    obtain ⟨rest', hat', hrest⟩ := main_comp (i := i) hstate h.once h.taken hat
    simp only [reduceCtorEq, false_and, if_false]
    exact ⟨rest', hat', by rw [hsplit, hrest, List.append_assoc]⟩
  | vert =>
    obtain ⟨-, hD⟩ := h.not_start1 (by rw [hstate]; nofun)
    have hsize := hkeeps.size (by rw [hstate]; nofun)
    have hat' := main_vert (i := i) hstate hD hat (congrArg Prod.snd hsize) (h.bounds (by rw [hstate]; nofun)).1
    rw [hstate] at hwithin
    exact hwithin nofun hat' nofun
  | eoi =>
    obtain ⟨-, hD⟩ := h.not_start1 (by rw [hstate]; nofun)
    have hat' := main_eoi (i := i) hstate hD hat
    rw [hstate] at hwithin
    exact hwithin nofun hat' nofun

/-- The image is given up, or its end begun, in `IDLES`, `JFIF` and `EOI`, and when all stages are idle. -/
theorem main_rests {r : Regs} (h : (r.main i).mainState.Rests) :
    r.mainState.Rests ∨ (r.mainState = .vert ∧ ∀ k, (r.sm k).idleO = true) := by
  replace h : (r.mainCase i).mainState.Rests := h
  cases hstate : r.mainState with
  | idles => exact .inl (.inl rfl)
  | jfif => exact .inl (.inr (.inl rfl))
  | eoi => exact .inl (.inr (.inr rfl))
  | horiz =>
    simp only [Regs.mainCase, hstate] at h
    split at h <;> rcases h with h | h | h <;> cases h
  | comp =>
    simp only [Regs.mainCase, hstate] at h
    split at h
    · split at h
      · rcases h with h | h | h <;> cases h
      · rcases h with h | h | h <;> cases h
    · rcases h with h | h | h <;> cases h
  | vert =>
    simp only [Regs.mainCase, hstate] at h
    split at h
    · rcases h with h | h | h <;> cases h
    · split at h
      · rename_i hidle
        rw [Regs.allIdle, Bool.and_eq_true, decide_eq_true_iff] at hidle
        exact .inr ⟨rfl, hidle.2⟩
      · rcases h with h | h | h <;> cases h

theorem main_start1D (r : Regs) (i : Ctrl) : (r.main i).start1D = r.start1 := by
  show (r.mainCase i).start1D = r.start1
  cases hstate : r.mainState <;> simp only [Regs.mainCase, hstate]
  case idles | jfif | eoi | horiz => split <;> rfl
  case comp =>
    split
    · split <;> rfl
    · rfl
  case vert =>
    split
    · rfl
    · split <;> rfl

/-- The signals to the generator of the header, and the answer of the encoder. -/
theorem main_signals {r : Regs} :
    ((r.main i).jfifStart = true → (r.main i).mainState = if (r.main i).jfifEoi then .eoi else .jfif) ∧
      ((r.main i).jpegReady = true → (r.main i).mainState = .idles) := by
  show ((r.mainCase i).jfifStart = true → (r.mainCase i).mainState = if (r.mainCase i).jfifEoi then .eoi else .jfif) ∧
    ((r.mainCase i).jpegReady = true → (r.mainCase i).mainState = .idles)
  cases hstate : r.mainState <;> simp only [Regs.mainCase, hstate]
  case idles | jfif | eoi | horiz => split <;> exact ⟨by simp, by simp⟩
  case comp =>
    split
    · split <;> exact ⟨by simp, by simp⟩
    · exact ⟨by simp, by simp⟩
  case vert =>
    split
    · exact ⟨by simp, by simp⟩
    · split <;> exact ⟨by simp, by simp⟩

/-- Nothing is held behind a cycle that found nothing held or offered. -/
theorem Inv.holds_step (h : Inv s) (hholds : ∀ k, (s.regs.sm k).holds = false) (h1 : s.regs.start1 = false)
    (k : Fin numStages) : ((s.step i).regs.sm k).holds = false := by
  obtain ⟨done, hstage⟩ := h.stage k
  have hstart : s.regs.start k = false := by
    obtain ⟨k, hk⟩ := k
    cases k with
    | zero => exact h1
    | succ j =>
      have hj := hholds ⟨j, Nat.lt_of_succ_lt hk⟩
      rw [SingleSm.holds, Bool.or_eq_false_iff] at hj
      exact hj.1
  have hstep : ((s.step i).regs.sm k).holds = _ := SingleSm.holds_step hstage.free hstage.quiet
  rw [hstep, hstart, hholds k]
  rfl

theorem Inv.step (h : Inv s) (hkeeps : Keeps s i) : Inv (s.step i) where
  stage  := fun k => by
    obtain ⟨done, hstage⟩ := h.stage k
    exact ⟨_, hstage.step h.stage hkeeps fun h1 => ⟨(main_start1 h1).2.1, (main_start1 h1).2.2.1⟩⟩
  main   := h.main_step hkeeps
  offers := by
    rintro (h1 | hD)
    · exact (main_start1 h1).2.2.2
    · have h1 : s.regs.start1 = true := (main_start1D s.regs i).symm.trans hD
      have hstate := h.offers (.inl h1)
      show (s.regs.mainCase i).mainState = _
      simp only [Regs.mainCase, hstate, h1, not_true_eq_false, and_false, if_false]
  once   := fun h1 => (main_start1D s.regs i).trans (main_start1 h1).2.2.1
  taken  := fun hD => Bool.eq_false_iff.2 fun hidle => by
    have hno := (SingleSm.idleO_step hidle).1
    have hstart : s.regs.start ⟨0, by decide⟩ = true := (main_start1D s.regs i).symm.trans hD
    rw [hstart] at hno
    cases hno
  bounds := fun hbusy => by
    by_cases hstate : s.regs.mainState = .idles
    · have hsof : i.sof = true := by
        by_contra hno
        refine hbusy ?_
        show (s.regs.mainCase i).mainState = _
        simp only [Regs.mainCase, hstate, if_neg hno]
      obtain ⟨hhigh, hwide⟩ := hkeeps.bounds hstate hsof
      show 8 ≤ (if s.regs.mainState = .idles ∧ i.sof then _ else _ : BitVec 16 × BitVec 16).2.toNat ∧
        (if s.regs.mainState = .idles ∧ i.sof then _ else _ : BitVec 16 × BitVec 16).1.toNat ≤ 65520
      rw [if_pos ⟨hstate, hsof⟩]
      exact ⟨hhigh, hwide⟩
    · have hsize : (s.step i).size = s.size := if_neg fun hc => hstate hc.1
      rw [hsize]
      exact h.bounds hstate
  rests  := fun hrests k => by
    rcases main_rests hrests with hbefore | ⟨hvert, hidle⟩
    · refine h.holds_step (h.rests hbefore) (h.not_start1 fun hc => ?_).1 k
      rw [hc] at hbefore
      rcases hbefore with he | he | he <;> cases he
    · refine h.holds_step (fun j => ?_) (h.not_start1 (by rw [hvert]; nofun)).1 k
      obtain ⟨done, hstage⟩ := h.stage j
      exact hstage.idle (hidle j)
  starts := main_signals.1
  ready  := main_signals.2

theorem inv_reset : Inv .reset where
  stage  := fun k => ⟨[], by
    refine ⟨?_, nofun, nofun, rfl, fun _ => rfl, rfl⟩
    obtain ⟨k, hk⟩ := k
    cases k <;> nofun⟩
  main   := ⟨[], ⟨rfl, rfl⟩, rfl⟩
  offers := by rintro (h | h) <;> cases h
  once   := nofun
  taken  := nofun
  bounds := fun h => (h rfl).elim
  rests  := fun _ _ => rfl
  starts := nofun
  ready  := nofun

/-! ## What the stages are started with -/

/-- Where nothing is held, every stage has been started with all that was offered, and has answered. -/
theorem Inv.drained (h : Inv s) (hholds : ∀ k, (s.regs.sm k).holds = false) (h1 : s.regs.start1 = false) :
    ∀ k, s.started k = s.asked ∧ s.answered k = s.asked.length := by
  have hstarted : ∀ n (hn : n < numStages), s.started ⟨n, hn⟩ = s.asked := by
    intro n
    induction n with
    | zero =>
      intro hn
      rw [State.asked, h1, if_neg Bool.false_ne_true, List.append_nil]
    | succ n ih =>
      intro hn
      obtain ⟨done, hstage⟩ := h.stage ⟨n, Nat.lt_of_succ_lt hn⟩
      have hsplit := hstage.split
      rw [hholds, if_neg Bool.false_ne_true, List.append_nil] at hsplit
      rw [hstage.next hn, ← hsplit]
      exact ih _
  intro k
  have hk := hstarted k.1 k.2
  refine ⟨hk, ?_⟩
  obtain ⟨done, hstage⟩ := h.stage k
  have hno := hholds k
  rw [SingleSm.holds, Bool.or_eq_false_iff, decide_eq_false_iff_not, not_not] at hno
  have hcount := hstage.count
  simp only [hno.2, reduceCtorEq, if_false] at hcount
  rw [← hk]
  exact hcount.symm

/-- **The order of the blocks**: every stage is started with the blocks of the images in their order, when the stage before
it has answered, and keeps the settings until it has answered itself; it is at most one block ahead of the next one, which
is what a double buffer between them has room for.  The header comes before all blocks of its image, and the end marker
and the answer of the encoder behind the answers to all of them. -/
structure Sequenced (s : State) : Prop where
  order    : ∀ k, s.started k <+: s.before ++ raster s.size
  answers  : ∀ k, s.answered k ≤ (s.started k).length ∧ (s.started k).length ≤ s.answered k + 1
  settings : ∀ k, s.answered k < (s.started k).length → (s.started k).getLast? = some (s.regs.reg k)
  next     : ∀ (k : Fin numStages) (h : k.val + 1 < numStages), (s.started ⟨k + 1, h⟩).length ≤ s.answered k ∧
    (s.started k).length ≤ (s.started ⟨k + 1, h⟩).length + 1
  header   : s.regs.jfifStart = true → s.regs.jfifEoi = false → ∀ k, s.started k = s.before ∧ s.answered k = s.before.length
  finish   : (s.regs.jfifStart = true ∧ s.regs.jfifEoi = true) ∨ s.regs.jpegReady = true →
    ∀ k, s.started k = s.before ++ raster s.size ∧ s.answered k = (s.before ++ raster s.size).length

theorem Inv.order (h : Inv s) : ∀ n (hn : n < numStages), s.started ⟨n, hn⟩ <+: s.before ++ raster s.size
  | 0, _ => by
    obtain ⟨rest, -, hsplit⟩ := h.main
    rw [hsplit, State.asked, List.append_assoc]
    exact List.prefix_append _ _
  | n + 1, hn => by
    obtain ⟨done, hstage⟩ := h.stage ⟨n, Nat.lt_of_succ_lt hn⟩
    rw [hstage.next hn]
    have hprefix : done <+: s.started ⟨n, Nat.lt_of_succ_lt hn⟩ := by
      rw [hstage.split]
      exact List.prefix_append _ _
    exact hprefix.trans (h.order n _)

theorem Inv.sequenced (h : Inv s) : Sequenced s where
  order    := fun k => h.order k.1 k.2
  answers  := fun k => by
    obtain ⟨done, hstage⟩ := h.stage k
    have hcount := hstage.count
    split at hcount <;> omega
  settings := fun k hlt => by
    obtain ⟨done, hstage⟩ := h.stage k
    have hholds : (s.regs.sm k).holds = true := by
      rw [SingleSm.holds, hstage.waits_iff.2 hlt]
      simp
    rw [hstage.split, hholds, if_pos rfl]
    exact List.getLast?_concat
  next     := fun k hk => by
    obtain ⟨done, hstage⟩ := h.stage k
    have hlen := congrArg List.length hstage.split
    have hcount := hstage.count
    have hholds : (s.regs.sm k).state = .waitForBlkRdy → (s.regs.sm k).holds = true := fun hstate => by
      rw [SingleSm.holds, hstate]
      simp
    rw [List.length_append] at hlen
    rw [hstage.next hk]
    cases hheld : (s.regs.sm k).holds with
    | true =>
      rw [hheld, if_pos rfl, List.length_singleton] at hlen
      split at hcount <;> omega
    | false =>
      rw [hheld, if_neg Bool.false_ne_true, List.length_nil] at hlen
      rw [if_neg fun hstate => by rw [hholds hstate] at hheld; cases hheld] at hcount
      omega
  header   := fun hstart heoi k => by
    have hstate := h.starts hstart
    rw [heoi, if_neg Bool.false_ne_true] at hstate
    have h1 := (h.not_start1 (by rw [hstate]; nofun)).1
    obtain ⟨rest, hat, hsplit⟩ := h.main
    simp only [Main.At, hstate] at hat
    rw [hat.2] at hsplit
    rw [List.append_cancel_right hsplit]
    exact h.drained (h.rests (.inr (.inl hstate))) h1 k
  finish   := fun hend k => by
    have hstate : s.regs.mainState = .idles ∨ s.regs.mainState = .eoi := by
      rcases hend with ⟨hstart, heoi⟩ | hready
      · have hstate := h.starts hstart
        rw [heoi, if_pos rfl] at hstate
        exact .inr hstate
      · exact .inl (h.ready hready)
    have hrests : s.regs.mainState.Rests := hstate.imp_right .inr
    have hno : s.regs.mainState ≠ .comp := fun hc => by
      rw [hc] at hstate
      rcases hstate with he | he <;> cases he
    obtain ⟨rest, hat, hsplit⟩ := h.main
    have hrest : rest = [] := by
      rcases hstate with he | he
      all_goals
        simp only [Main.At, he] at hat
        exact hat.2
    rw [hsplit, hrest, List.append_nil]
    exact h.drained (h.rests hrests) (h.not_start1 hno).1 k

end

theorem blocks_sequenced (is : List Ctrl) (hkeeps : AllSteps State.step Keeps .reset is) :
    Sequenced (is.foldl State.step .reset) := by
  have hstep : ∀ s i, Inv s → Keeps s i → True ∧ Inv (s.step i) := fun _ _ h hk => ⟨trivial, h.step hk⟩
  have hall := (hkeeps.inv hstep inv_reset).2
  exact ((Runs.allStates_iff_prefix _ is _).1 hall is (List.prefix_refl is)).sequenced

/-- An image of one row and one column: the second stage is started with the first component when the first has answered. -/
theorem blocks_sequenced_first :
    let quiet : Ctrl := ⟨false, false, 16, 8, fun _ => false, true⟩
    let is := { quiet with sof := true } :: List.replicate 5 quiet ++
      [{ quiet with readyPb := fun k => decide (k.val = 0) }, quiet, quiet]
    let s := is.foldl State.step .reset
    s.started ⟨1, by decide⟩ = [block 0 0 0] ∧ Sequenced s := by
  intro quiet is s
  exact ⟨by decide +kernel, blocks_sequenced is (by decide +kernel)⟩

end CtrlSm
end Hdmi2Usb
