import Hdmi2Usb.CtrlSm
import Mathlib.Algebra.BigOperators.Fin
import Mathlib.Algebra.Order.BigOperators.Group.Finset
/-!
# CtrlSmProgress — an image comes to its end

As long as an image is encoded, a cycle in which nothing outside is waited for moves a stage or the main state machine:
were no stage to move, the last one would be idle, hence the one before it, and so on to the first, and the main state
machine goes on when the first one is idle, or all.  What is left to do (`State.left`) bounds the number of these cycles.
-/
namespace Hdmi2Usb
namespace CtrlSm

open Runs (AllSteps countSteps)

/-! ## What is left to do -/

/-- The cycles of a stage up to its next start. -/
def SingleSm.left (m : SingleSm) : ℕ :=
  match m.state with
  | .idle           => if m.idleO then 0 else 1
  | .waitForBlkRdy  => 3
  | .waitForBlkIdle => 2

/-- A stage goes on. -/
def SingleSm.Moves (m : SingleSm) (startI idleI pbRdyI : Bool) : Prop :=
  startI = true ∨
    match m.state with
    | .idle           => m.idleO = false
    | .waitForBlkRdy  => pbRdyI = true
    | .waitForBlkIdle => idleI = true

def numColumns (size : BitVec 16 × BitVec 16) : ℕ := (size.1.toNat + 15) / 16

def numRows (size : BitVec 16 × BitVec 16) : ℕ := (size.2.toNat + 7) / 8

/-- The cycles for a row: fourteen for a block, three for each of its components, and two between the rows. -/
def rowLeft (size : BitVec 16 × BitVec 16) : ℕ := 14 * numColumns size + 2

/-- The cycles of the main state machine up to the end of the image, from a block on. -/
def leftFrom (size : BitVec 16 × BitVec 16) (x y c : ℕ) (start1 start1D : Bool) : MainState → ℕ
  | .idles => 0
  | .jfif  => 2 + numRows size * rowLeft size
  | .horiz => 3 + 14 * (numColumns size - x) + (numRows size - (y + 1)) * rowLeft size
  | .comp  => 2 + 14 * (numColumns size - x) - (3 * c + start1.toNat + 2 * start1D.toNat) +
    (numRows size - (y + 1)) * rowLeft size
  | .vert  => 2 + (numRows size - (y + 1)) * rowLeft size
  | .eoi   => 1

def Main.left (m : Main) (size : BitVec 16 × BitVec 16) : ℕ :=
  leftFrom size (m.rsm.xCnt.toNat / 16) (m.rsm.yCnt.toNat / 8) m.rsm.cmpIdx.toNat m.start1 m.start1D m.mainState

def State.left (s : State) : ℕ :=
  s.regs.left s.size +
    ∑ k, ((s.regs.sm k).left + 4 * ((s.before ++ raster s.size).length - (s.started k).length))

/-- Nothing outside is waited for: no block for its answer, no room in the output, and no header or end marker. -/
def Free (s : State) (i : Ctrl) : Prop :=
  (∀ k, s.answered k < (s.started k).length → i.readyPb k = true) ∧ i.outifAlmostFull = false ∧
    (s.regs.mainState = .jfif ∨ s.regs.mainState = .eoi → i.jfifReady = true)

instance (s : State) (i : Ctrl) : Decidable (Free s i) := inferInstanceAs (Decidable (_ ∧ _ ∧ _))

/-! ## A stage -/

section

variable {m : SingleSm} {startI idleI pbRdyI : Bool}

instance : Decidable (m.Moves startI idleI pbRdyI) := by
  unfold SingleSm.Moves
  cases m.state <;> exact inferInstance

theorem SingleSm.left_step (idleI pbRdyI : Bool) (hfree : startI = true → m.state = .idle) :
    (m.step startI idleI pbRdyI).left + (if m.Moves startI idleI pbRdyI then 1 else 0) ≤ m.left + 4 * startI.toNat := by
  cases hstate : m.state with
  | idle =>
    cases startI <;> cases hidle : m.idleO <;> simp [SingleSm.step, SingleSm.left, SingleSm.Moves, hstate, hidle]
  | waitForBlkRdy =>
    have hno : startI = false := Bool.eq_false_iff.2 fun hs => by rw [hstate] at hfree; cases hfree hs
    cases pbRdyI <;> cases idleI <;> simp [SingleSm.step, SingleSm.left, SingleSm.Moves, hstate, hno]
  | waitForBlkIdle =>
    have hno : startI = false := Bool.eq_false_iff.2 fun hs => by rw [hstate] at hfree; cases hfree hs
    cases idleI <;> simp [SingleSm.step, SingleSm.left, SingleSm.Moves, hstate, hno]

end

/-! ## The main state machine -/

/-- The main state machine goes on. -/
def Regs.MainMoves (r : Regs) (i : Ctrl) : Prop :=
  match r.mainState with
  | .idles       => False
  | .jfif | .eoi => i.jfifReady = true
  | .horiz       => True
  | .comp        => r.start1 = true ∨ r.start1D = true ∨ (r.sm ⟨0, numStages_pos⟩).idleO = true
  | .vert        => r.allIdle i = true

instance (r : Regs) (i : Ctrl) : Decidable (r.MainMoves i) := by
  unfold Regs.MainMoves
  cases r.mainState <;> exact inferInstance

section

variable {r : Regs} {i : Ctrl} {size : BitVec 16 × BitVec 16} {rest : List Settings} {x y c : ℕ}

theorem block_xCnt (hx : x ≤ 4095) (y c : ℕ) : (block x y c).xCnt.toNat / 16 = x := by
  show (BitVec.ofNat 16 (16 * x)).toNat / 16 = x
  rw [BitVec.toNat_ofNat, Nat.mod_eq_of_lt (by omega)]
  omega

theorem block_yCnt (x : ℕ) (hy : y < 8192) (c : ℕ) : (block x y c).yCnt.toNat / 8 = y := by
  show (BitVec.ofNat 16 (8 * y)).toNat / 8 = y
  rw [BitVec.toNat_ofNat, Nat.mod_eq_of_lt (by omega)]
  omega

theorem block_cmpIdx (x y : ℕ) (hc : c < 8) : (block x y c).cmpIdx.toNat = c := by
  show (BitVec.ofNat 3 c).toNat = c
  rw [BitVec.toNat_ofNat, Nat.mod_eq_of_lt (by omega)]

/-- The rows below. -/
theorem rowLeft_below (h : y + 1 < numRows size) :
    (numRows size - (y + 1)) * rowLeft size = (numRows size - (y + 1 + 1)) * rowLeft size + rowLeft size := by
  rw [show numRows size - (y + 1) = numRows size - (y + 1 + 1) + 1 by omega, Nat.succ_mul]

theorem left_at {m : Main} (hx : x ≤ numColumns size) (hy : y < numRows size) (hc : c ≤ 4) (hwide : size.1.toNat ≤ 65520)
    (hrsm : m.rsm = block x y c) : m.left size = leftFrom size x y c m.start1 m.start1D m.mainState := by
  have hlt := size.2.isLt
  rw [numColumns] at hx
  rw [numRows] at hy
  rw [Main.left, hrsm, block_xCnt (by omega), block_yCnt x (by omega), block_cmpIdx x y (by omega)]

theorem left_mainCase (hD : r.start1D = false) : (r.main i).left size = (r.mainCase i).left size := by
  simp only [Main.left, Regs.main, hD, Bool.false_eq_true, if_false]

theorem jfif_left (hstate : r.mainState = .jfif) (hat : r.At size rest) (hpos : 0 < numRows size)
    (hwide : size.1.toNat ≤ 65520) :
    (r.mainCase i).left size + (if r.MainMoves i then 1 else 0) ≤ r.left size := by
  simp only [Main.At, hstate] at hat
  have hx : 0 ≤ numColumns size := Nat.zero_le _
  have hzero : (0 : ℕ) ≤ 4 := Nat.zero_le 4
  have hrow : numRows size * rowLeft size = (numRows size - (0 + 1)) * rowLeft size + rowLeft size := by
    rw [← Nat.succ_mul, Nat.succ_eq_add_one, Nat.sub_add_cancel hpos]
  rw [left_at hx hpos hzero hwide hat.1]
  simp only [Regs.mainCase, Regs.MainMoves, hstate]
  split
  · rw [left_at hx hpos hzero hwide]
    · have hdef : rowLeft size = 14 * numColumns size + 2 := rfl
      simp only [leftFrom]
      omega
    · exact hat.1
  · rw [left_at hx hpos hzero hwide]
    · simp only [leftFrom, Nat.add_zero, Nat.le_refl]
    · exact hat.1

theorem horiz_left (hstate : r.mainState = .horiz) (hat : r.At size rest) (hsize : (i.imgSizeX, i.imgSizeY) = size)
    (hwide : size.1.toNat ≤ 65520) :
    (r.mainCase i).left size + (if r.MainMoves i then 1 else 0) ≤ r.left size := by
  simp only [Main.At, hstate] at hat
  obtain ⟨x, y, hx, hy, hrsm, -⟩ := hat
  have hzero : (0 : ℕ) ≤ 4 := Nat.zero_le 4
  have hlt : r.rsm.xCnt < i.imgSizeX ↔ x < numColumns size := by
    rw [hrsm, show i.imgSizeX = size.1 from congrArg Prod.fst hsize]
    exact xCnt_lt hx hwide
  rw [left_at hx hy hzero hwide hrsm]
  simp only [Regs.mainCase, Regs.MainMoves, hstate, if_true]
  split
  · rename_i hin
    rw [hlt] at hin
    rw [left_at hx hy hzero hwide]
    · simp only [leftFrom]
      omega
    · exact hrsm
  · rw [left_at (Nat.zero_le (numColumns size)) hy hzero hwide]
    · simp only [leftFrom]
      omega
    · rw [hrsm]
      rfl

/-- The cycle that takes a block: the first stage leaves its idle state. -/
theorem taken_left (hstate : r.mainState = .comp) (h1 : r.start1 = false) (hD : r.start1D = true)
    (hidle : (r.sm ⟨0, by decide⟩).idleO = false) (hat : r.At size rest) (hwide : size.1.toNat ≤ 65520) :
    (r.main i).left size + (if r.MainMoves i then 1 else 0) ≤ r.left size := by
  simp only [Main.At, hstate] at hat
  obtain ⟨x, y, c, hx, hy, hc, hlast, hrsm, -⟩ := hat
  have hin : x < numColumns size := hx
  have hc4 : c ≠ 4 := fun he => by rw [hD] at hlast; cases (hlast he).2
  rw [left_at hx.le hy hc hwide hrsm]
  simp only [Regs.main, Regs.mainCase, Regs.MainMoves, hstate, h1, hD, hidle, Bool.false_eq_true, false_and, if_false,
    true_or, or_true, if_true]
  rw [left_at hx.le hy (by omega : c + 1 ≤ 4) hwide]
  · simp only [leftFrom, Bool.toNat_true, Bool.toNat_false]
    omega
  · rw [hrsm, block_nextCmp]
    rfl

/-- The other cycles of a row of components: the start is on its way, or the next block is started, or the column is done. -/
theorem comp_left (hstate : r.mainState = .comp) (hD : r.start1D = false) (hat : r.At size rest)
    (hwide : size.1.toNat ≤ 65520) :
    (r.mainCase i).left size + (if r.MainMoves i then 1 else 0) ≤ r.left size := by
  simp only [Main.At, hstate] at hat
  obtain ⟨x, y, c, hx, hy, hc, hlast, hrsm, -⟩ := hat
  have hin : x < numColumns size := hx
  have hzero : (0 : ℕ) ≤ 4 := Nat.zero_le 4
  rw [left_at hx.le hy hc hwide hrsm]
  cases h1 : r.start1 with
  | true =>
    have hc4 : c ≠ 4 := fun he => by rw [h1] at hlast; cases (hlast he).1
    simp only [Regs.mainCase, Regs.MainMoves, hstate, h1, hD, not_true_eq_false, and_false, if_false, true_or, if_true]
    rw [left_at hx.le hy hc hwide]
    · simp only [leftFrom, Bool.toNat_true, Bool.toNat_false]
      omega
    · exact hrsm
  | false =>
    have hlt : r.rsm.cmpIdx < cmpMax ↔ c < 4 := by
      rw [hrsm]
      exact cmpIdx_lt x y hc
    simp only [Regs.mainCase, Regs.MainMoves, hstate, h1, hD, Bool.false_eq_true, not_false_eq_true, and_true, false_or]
    split
    · split
      · rename_i hlt'
        rw [hlt] at hlt'
        rw [left_at hx.le hy hc hwide]
        · simp only [leftFrom, Bool.toNat_true, Bool.toNat_false]
          omega
        · exact hrsm
      · rename_i hend
        rw [hlt] at hend
        rw [left_at (Nat.succ_le_of_lt hin) hy hzero hwide]
        · simp only [leftFrom, Bool.toNat_false]
          omega
        · rw [hrsm, show (block x y c).xCnt = (block x y 0).xCnt from rfl, block_nextColumn]
          rfl
    · rw [left_at hx.le hy hc hwide]
      · simp only [leftFrom, Bool.toNat_false, Nat.add_zero, Nat.le_refl]
      · exact hrsm

theorem vert_left (hstate : r.mainState = .vert) (hat : r.At size rest) (hsize : (i.imgSizeX, i.imgSizeY) = size)
    (hbounds : 8 ≤ size.2.toNat ∧ size.1.toNat ≤ 65520) :
    (r.mainCase i).left size + (if r.MainMoves i then 1 else 0) ≤ r.left size := by
  obtain ⟨hhigh, hwide⟩ := hbounds
  simp only [Main.At, hstate] at hat
  obtain ⟨y, hy, hrsm, -⟩ := hat
  have hx : 0 ≤ numColumns size := Nat.zero_le _
  have hzero : (0 : ℕ) ≤ 4 := Nat.zero_le 4
  have hlt : r.rsm.yCnt < i.imgSizeY - 8 ↔ y + 1 < numRows size := by
    rw [hrsm, show i.imgSizeY = size.2 from congrArg Prod.snd hsize]
    exact yCnt_lt hy hhigh
  rw [left_at hx hy hzero hwide hrsm]
  simp only [Regs.mainCase, Regs.MainMoves, hstate]
  split
  · rename_i hin
    rw [hlt] at hin
    rw [left_at hx hin hzero hwide]
    · simp only [leftFrom, rowLeft_below hin]
      rw [rowLeft]
      split <;> omega
    · rw [hrsm, block_nextRow]
      rfl
  · split
    · rw [left_at hx hy hzero hwide]
      · simp only [leftFrom]
        omega
      · exact hrsm
    · rw [left_at hx hy hzero hwide]
      · simp only [leftFrom, Nat.add_zero, Nat.le_refl]
      · exact hrsm

theorem eoi_left (hstate : r.mainState = .eoi) :
    (r.mainCase i).left size + (if r.MainMoves i then 1 else 0) ≤ r.left size := by
  simp only [Regs.mainCase, Regs.MainMoves, hstate]
  split
  · simp only [Main.left, hstate, leftFrom, Nat.zero_add, Nat.le_refl]
  · simp only [Main.left, hstate, leftFrom, Nat.add_zero, Nat.le_refl]

/-- **A cycle of the main state machine** takes one from what is left, where it moves. -/
theorem main_left (hbusy : r.mainState ≠ .idles) (honce : r.start1 = true → r.start1D = false)
    (hquiet : r.mainState ≠ .comp → r.start1D = false)
    (htaken : r.start1D = true → (r.sm ⟨0, by decide⟩).idleO = false) (hat : r.At size rest)
    (hsize : (i.imgSizeX, i.imgSizeY) = size) (hbounds : 8 ≤ size.2.toNat ∧ size.1.toNat ≤ 65520) :
    (r.main i).left size + (if r.MainMoves i then 1 else 0) ≤ r.left size := by
  cases hD : r.start1D with
  | true =>
    have hcomp : r.mainState = .comp := by
      by_contra hne
      rw [hquiet hne] at hD
      cases hD
    have h1 : r.start1 = false := Bool.eq_false_iff.2 fun h1 => by rw [honce h1] at hD; cases hD
    exact taken_left hcomp h1 hD (htaken hD) hat hbounds.2
  | false =>
    rw [left_mainCase hD]
    cases hstate : r.mainState with
    | idles => exact (hbusy hstate).elim
    | jfif =>
      have hpos : 0 < numRows size := by
        rw [numRows]
        omega
      exact jfif_left hstate hat hpos hbounds.2
    | horiz => exact horiz_left hstate hat hsize hbounds.2
    | comp => exact comp_left hstate hD hat hbounds.2
    | vert => exact vert_left hstate hat hsize hbounds
    | eoi => exact eoi_left hstate

end

/-! ## The stages together -/

section

variable {s : State} {i : Ctrl}

/-- **No deadlock**: where nothing outside is waited for, a stage moves, or the main state machine. -/
theorem Inv.moves (h : Inv s) (hbusy : s.regs.mainState ≠ .idles) (hfree : Free s i) :
    (∃ k, (s.regs.sm k).Moves (s.regs.start k) (s.regs.idleNext i k) (i.readyPb k)) ∨ s.regs.MainMoves i := by
  obtain ⟨hready, hroom, hjfif⟩ := hfree
  by_contra hno
  rw [not_or, not_exists] at hno
  obtain ⟨hstages, hmain⟩ := hno
  -- a stage before an idle one is idle
  have hidle : ∀ k, s.regs.idleNext i k = true → (s.regs.sm k).idleO = true := by
    intro k hnext
    obtain ⟨done, hstage⟩ := h.stage k
    have hstay := hstages k
    rw [SingleSm.Moves, not_or] at hstay
    have hcase := hstay.2
    cases hstate : (s.regs.sm k).state with
    | idle => simpa [hstate] using hcase
    | waitForBlkRdy => exact (hcase (by simpa [hstate] using hready k (hstage.waits_iff.1 hstate))).elim
    | waitForBlkIdle => exact (hcase (by simpa [hstate] using hnext)).elim
  have hall : ∀ n (hn : n < numStages), (s.regs.sm ⟨numStages - 1 - n, by omega⟩).idleO = true := by
    intro n
    induction n with
    | zero =>
      intro hn
      refine hidle _ ?_
      rw [Regs.idleNext, dif_neg (by show ¬ numStages - 1 - 0 + 1 < numStages; omega), hroom]
      rfl
    | succ n ih =>
      intro hn
      refine hidle _ ?_
      rw [Regs.idleNext, dif_pos (by show numStages - 1 - (n + 1) + 1 < numStages; omega)]
      have hprev := ih (by omega)
      have hindex : numStages - 1 - (n + 1) + 1 = numStages - 1 - n := by omega
      simpa only [hindex] using hprev
  have hevery : ∀ k, (s.regs.sm k).idleO = true := by
    intro k
    have hk := hall (numStages - 1 - k.1) (by have := k.2; omega)
    have hindex : numStages - 1 - (numStages - 1 - k.1) = k.1 := by have := k.2; omega
    simpa only [hindex] using hk
  refine hmain ?_
  cases hstate : s.regs.mainState with
  | idles => exact (hbusy hstate).elim
  | jfif => simpa only [Regs.MainMoves, hstate] using hjfif (.inl hstate)
  | eoi => simpa only [Regs.MainMoves, hstate] using hjfif (.inr hstate)
  | horiz => simp only [Regs.MainMoves, hstate]
  | comp => simp only [Regs.MainMoves, hstate, hevery, or_true]
  | vert =>
    simp only [Regs.MainMoves, hstate, Regs.allIdle, hroom, Bool.not_false, Bool.true_and, decide_eq_true_iff]
    exact hevery

/-- A cycle of a stage, in what is left to do. -/
theorem Inv.stage_left (h : Inv s) (hkeeps : Keeps s i) (hbusy : s.regs.mainState ≠ .idles) (k : Fin numStages) :
    (((s.step i).regs.sm k).left +
        4 * (((s.step i).before ++ raster (s.step i).size).length - ((s.step i).started k).length)) +
      (if (s.regs.sm k).Moves (s.regs.start k) (s.regs.idleNext i k) (i.readyPb k) then 1 else 0) ≤
    (s.regs.sm k).left + 4 * ((s.before ++ raster s.size).length - (s.started k).length) := by
  obtain ⟨done, hstage⟩ := h.stage k
  have hleft := SingleSm.left_step (s.regs.idleNext i k) (i.readyPb k) hstage.free
  have horder := ((h.step hkeeps).sequenced.order k).length_le
  have hbefore : (s.step i).before = s.before := if_neg fun hc => hbusy hc.1
  have hsize : (s.step i).size = s.size := if_neg fun hc => hbusy hc.1
  have hstarted := congrArg List.length (started_step hstage.free i)
  have hlen : (if s.regs.start k then [s.regs.offered k] else []).length = (s.regs.start k).toNat := by
    cases s.regs.start k <;> rfl
  rw [List.length_append, hlen] at hstarted
  rw [hbefore, hsize] at horder
  rw [hbefore, hsize]
  have hsm : ((s.step i).regs.sm k).left = ((s.regs.sm k).step (s.regs.start k) (s.regs.idleNext i k) (i.readyPb k)).left := rfl
  omega

/-- **A cycle takes one from what is left to do**, where nothing outside is waited for. -/
theorem Inv.left_step (h : Inv s) (hkeeps : Keeps s i) (hbusy : s.regs.mainState ≠ .idles) :
    (s.step i).left + (if Free s i then 1 else 0) ≤ s.left := by
  have hsize : (s.step i).size = s.size := if_neg fun hc => hbusy hc.1
  obtain ⟨rest, hat, -⟩ := h.main
  have hmain := main_left hbusy h.once (fun hno => (h.not_start1 hno).2) h.taken hat (hkeeps.size hbusy) (h.bounds hbusy)
  have hstage := fun k => h.stage_left hkeeps hbusy k
  have hsum := Finset.sum_le_sum (fun k (_ : k ∈ Finset.univ) => hstage k)
  rw [Finset.sum_add_distrib] at hsum
  rw [State.left, State.left, hsize]
  show (s.regs.main i).left s.size + _ + _ ≤ _
  rw [← hsize]
  rw [hsize]
  split
  · rename_i hfree
    rcases h.moves hbusy hfree with ⟨k, hk⟩ | hmoves
    · have hone : 1 ≤ ∑ k, (if (s.regs.sm k).Moves (s.regs.start k) (s.regs.idleNext i k) (i.readyPb k) then 1 else 0) := by
        refine le_trans ?_ (Finset.single_le_sum (fun _ _ => Nat.zero_le _) (Finset.mem_univ k))
        rw [if_pos hk]
      rw [hsize] at hsum
      omega
    · rw [if_pos hmoves] at hmain
      rw [hsize] at hsum
      omega
  · rw [hsize] at hsum
    omega

/-- The control comes back to `IDLES` with the answer of the encoder. -/
theorem main_ready {r : Regs} (hbusy : r.mainState ≠ .idles) (hidle : (r.main i).mainState = .idles) :
    (r.main i).jpegReady = true := by
  replace hidle : (r.mainCase i).mainState = .idles := hidle
  show (r.mainCase i).jpegReady = true
  cases hstate : r.mainState with
  | idles => exact (hbusy hstate).elim
  | jfif | horiz =>
    simp only [Regs.mainCase, hstate] at hidle
    split at hidle <;> cases hidle
  | comp =>
    simp only [Regs.mainCase, hstate] at hidle
    split at hidle
    · split at hidle <;> cases hidle
    · cases hidle
  | vert =>
    simp only [Regs.mainCase, hstate] at hidle
    split at hidle
    · cases hidle
    · split at hidle <;> cases hidle
  | eoi =>
    simp only [Regs.mainCase, hstate] at hidle ⊢
    split at hidle
    · rename_i hready
      rw [if_pos hready]
    · cases hidle

/-- As long as the encoder has not answered, it is busy with the image. -/
theorem allSteps_busy : ∀ (is : List Ctrl) {s : State}, s.regs.mainState ≠ .idles →
    (∀ pre, pre <+: is → (pre.foldl State.step s).regs.jpegReady = false) →
    AllSteps State.step (fun s _ => s.regs.mainState ≠ .idles) s is
  | [], _, _, _ => trivial
  | i :: is, s, hbusy, hnone => by
    refine ⟨hbusy, allSteps_busy is (fun hidle => ?_) fun pre hpre => ?_⟩
    · have hready := hnone [i] (List.cons_prefix_cons.2 ⟨rfl, List.nil_prefix⟩)
      rw [show ([i].foldl State.step s).regs.jpegReady = true from main_ready hbusy hidle] at hready
      cases hready
    · exact hnone (i :: pre) (List.cons_prefix_cons.2 ⟨rfl, hpre⟩)

theorem length_raster (size : BitVec 16 × BitVec 16) : (raster size).length = numRows size * (numColumns size * 4) := by
  simp [raster, rows, columns, comps, numRows, numColumns, List.length_flatMap]

/-- What is left to do at the beginning of an image. -/
theorem Inv.left_jfif (h : Inv s) (hstart : s.regs.jfifStart = true) (heoi : s.regs.jfifEoi = false) :
    s.left ≤ 110 * (numRows s.size * numColumns s.size) + 2 * numRows s.size + 8 := by
  have hstate := h.starts hstart
  rw [heoi, if_neg Bool.false_ne_true] at hstate
  have hstage : ∀ k, (s.regs.sm k).left + 4 * ((s.before ++ raster s.size).length - (s.started k).length) ≤
      1 + 16 * (numRows s.size * numColumns s.size) := by
    intro k
    have hholds := h.rests (.inr (.inl hstate)) k
    rw [SingleSm.holds, Bool.or_eq_false_iff, decide_eq_false_iff_not, not_not] at hholds
    have hleft : (s.regs.sm k).left ≤ 1 := by
      simp only [SingleSm.left, hholds.2]
      split <;> omega
    have hlen := length_raster s.size
    rw [← Nat.mul_assoc] at hlen
    rw [(h.sequenced.header hstart heoi k).1, List.length_append]
    omega
  have hsum := Finset.sum_le_sum (fun k (_ : k ∈ Finset.univ) => hstage k)
  rw [Finset.sum_const, Finset.card_univ, Fintype.card_fin, smul_eq_mul] at hsum
  have hmain : s.regs.left s.size = 2 + numRows s.size * rowLeft s.size := by
    simp only [Main.left, hstate, leftFrom]
  have hrow : numRows s.size * rowLeft s.size = 14 * (numRows s.size * numColumns s.size) + 2 * numRows s.size := by
    rw [rowLeft, Nat.mul_add, Nat.mul_left_comm, Nat.mul_comm _ 2]
  rw [State.left, hmain, hrow]
  have hsix : numStages = 6 := rfl
  have hstages := Nat.mul_le_mul_right (1 + 16 * (numRows s.size * numColumns s.size)) hsix.le
  omega

end

/-! ## Surroundings that answer at once -/

/-- Every block answers the start that it owes an answer to, and the output and the header are always ready. -/
def State.answers (s : State) : Ctrl where
  outifAlmostFull := false
  sof             := false
  imgSizeX        := s.size.1
  imgSizeY        := s.size.2
  readyPb         := fun k => decide (s.answered k < (s.started k).length)
  jfifReady       := true

def answering : ℕ → State → List Ctrl
  | 0, _     => []
  | n + 1, s => s.answers :: answering n (s.step s.answers)

theorem keeps_answers (s : State) : Keeps s s.answers where
  answers := fun _ hready => of_decide_eq_true hready
  size    := fun _ => rfl
  bounds  := fun _ hsof => by cases hsof

theorem free_answers (s : State) : Free s s.answers := ⟨fun _ howes => decide_eq_true howes, rfl, fun _ => rfl⟩

theorem keeps_answering : ∀ (n : ℕ) (s : State), AllSteps State.step Keeps s (answering n s)
  | 0, _     => trivial
  | n + 1, s => ⟨keeps_answers s, keeps_answering n (s.step s.answers)⟩

theorem countSteps_answering : ∀ (n : ℕ) (s : State), countSteps State.step Free s (answering n s) = n
  | 0, _     => rfl
  | n + 1, s => by
    rw [answering, countSteps, if_pos (free_answers s), countSteps_answering n]
    omega

/-- **An image comes to its end**: at the start of its header a hundred and ten cycles are left for each block, two for each
row and eight more, and before the encoder answers there are no more cycles than are left in which nothing outside is
waited for. -/
theorem blocks_finished (is more : List Ctrl) (hkeeps : AllSteps State.step Keeps .reset (is ++ more)) :
    let s := is.foldl State.step .reset
    (s.regs.jfifStart = true → s.regs.jfifEoi = false →
      s.left ≤ 110 * (numRows s.size * numColumns s.size) + 2 * numRows s.size + 8) ∧
      (s.regs.mainState ≠ .idles → s.left < countSteps State.step Free s more →
        ∃ pre, pre <+: more ∧ (pre.foldl State.step s).regs.jpegReady = true) := by
  intro s
  rw [Runs.allSteps_append] at hkeeps
  have hstep : ∀ s i, Inv s → Keeps s i → True ∧ Inv (s.step i) := fun _ _ h hk => ⟨trivial, h.step hk⟩
  have hall := (hkeeps.1.inv hstep inv_reset).2
  have h : Inv s := (Runs.allStates_iff_prefix _ is _).1 hall is (List.prefix_refl is)
  refine ⟨h.left_jfif, fun hbusy hcount => ?_⟩
  by_contra hno
  have hnone : ∀ pre, pre <+: more → (pre.foldl State.step s).regs.jpegReady = false := fun pre hpre =>
    Bool.eq_false_iff.2 fun hready => hno ⟨pre, hpre, hready⟩
  have hboth : AllSteps State.step (fun s i => Keeps s i ∧ s.regs.mainState ≠ .idles) s more := by
    rw [Runs.allSteps_iff_prefix]
    intro pre i hpre
    exact ⟨(Runs.allSteps_iff_prefix _ more s).1 hkeeps.2 pre i hpre,
      (Runs.allSteps_iff_prefix _ more s).1 (allSteps_busy more hbusy hnone) pre i hpre⟩
  have hvariant : ∀ s i, Inv s → Keeps s i ∧ s.regs.mainState ≠ .idles →
      Inv (s.step i) ∧ (s.step i).left + (if Free s i then 1 else 0) ≤ s.left :=
    fun _ _ h hk => ⟨h.step hk.1, h.left_step hk.1 hk.2⟩
  have hbound := hboth.count_le hvariant h
  omega

/-- 640 by 480, in surroundings that answer at once: 9600 blocks, and the answer of the encoder behind them. -/
theorem blocks_finished_vga :
    let sof : Ctrl := ⟨false, true, 640, 480, fun _ => false, false⟩
    let s := [sof].foldl State.step .reset
    let more := answering 264129 s
    (raster s.size).length = 9600 ∧ s.left ≤ 264128 ∧
      ∃ pre, pre <+: more ∧ (pre.foldl State.step s).regs.jpegReady = true := by
  intro sof s more
  have hsof : Keeps .reset sof := by decide +kernel
  have h := blocks_finished [sof] more ⟨hsof, keeps_answering 264129 s⟩
  have hrows : numRows s.size = 60 := by decide +kernel
  have hcolumns : numColumns s.size = 40 := by decide +kernel
  have hleft := h.1 rfl rfl
  rw [hrows, hcolumns] at hleft
  refine ⟨?_, hleft, h.2 nofun ?_⟩
  · rw [length_raster, hrows, hcolumns]
  · rw [countSteps_answering]
    exact Nat.lt_of_le_of_lt hleft (by decide)

end CtrlSm
end Hdmi2Usb
