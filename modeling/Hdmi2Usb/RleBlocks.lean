import Hdmi2Usb.JpegScan
import Hdmi2Usb.Rle
import Hdmi2Usb.Runs
/-!
# RleBlocks — the words of the run-length coder are the code of its blocks

The coder with the quantiser's buffer, run by starts that each wait for the answer to the last one.  Between a start and
its answer the words that are not written yet are in the registers on the way (`first`, `second`) or still to be found
(`Phase.unread`), and the cycles of the coder move them on; so what is written is the code of the blocks
(`blocks_coded`).
-/
namespace Hdmi2Usb
namespace Rle

open JpegScan (Block codeBlock codeBlocks predsAfter vli vliSize)
open RunLengths (encode fullRuns Expands)
open Runs (AllSteps)

structure Input extends Ctrl where
  write : Option (BitVec 6 × BitVec 12)

/-- The coder, with what it has written and answered, and what its starts have asked for: the code of the images
before, and the blocks of this one. -/
structure State where
  regs    : Regs
  top     : Top
  buffer  : Buffer
  log     : List Word
  readies : ℕ
  starts  : ℕ
  cmpIdx  : BitVec 3
  before  : List (ℕ × ℤ)
  image   : List Block

/-- The three rows of DC coefficients: `cmp_idx` 0 and 1 are the two luminance blocks. -/
def component (cmpIdx : BitVec 3) : ℕ := if cmpIdx = 0 ∨ cmpIdx = 1 then 0 else if cmpIdx = 2 then 1 else 2

/-- The coefficients from the `k`-th on. -/
def coefsFrom (b : BitVec 6 → BitVec 12) (k : ℕ) : List ℤ := (List.range' k (64 - k)).map fun n => (b (BitVec.ofNat 6 n)).toInt

/-- The blocks of the image behind a `sof` of this cycle, and the block that a start of this cycle asks for: it is in the
half that the quantiser has written up to now. -/
def State.imageAt (s : State) (i : Input) : List Block := if i.sof then [] else s.image

def State.blockAt (s : State) (i : Input) : Block :=
  ⟨component i.cmpIdx, coefsFrom ((s.buffer.step s.top.quaBufSel s.regs.rdCnt i.write).mem !s.top.quaBufSel) 0⟩

def State.step (s : State) (i : Input) : State where
  regs    := s.regs.step s.buffer.q i.toCtrl
  top     := s.top.step s.regs i.startPb
  buffer  := s.buffer.step s.top.quaBufSel s.regs.rdCnt i.write
  log     := if s.regs.dovalid then s.log ++ [s.regs.word] else s.log
  readies := s.readies + s.top.readyPb.toNat
  starts  := s.starts + i.startPb.toNat
  cmpIdx  := i.cmpIdx
  before  := if i.sof then s.before ++ codeBlocks 0 s.image else s.before
  image   := if i.startPb then s.imageAt i ++ [s.blockAt i] else s.imageAt i

/-- After a reset, with anything in the buffer. -/
def State.reset (buffer : Buffer) : State where
  regs    := .reset
  top     := ⟨0, false, false⟩
  buffer  := buffer
  log     := []
  readies := 0
  starts  := 0
  cmpIdx  := 0
  before  := []
  image   := []

/-- The values of a block have a size: its DC coefficient differs from that before it, `pred`, by less than 2048, and no
other one is -2048. -/
def InRange (pred : ℤ) (coefs : List ℤ) : Prop :=
  (coefs.headD 0 - pred).natAbs ≤ 2047 ∧ ∀ v ∈ coefs.tail, v.natAbs ≤ 2047

/-- What the other side keeps to: a start of a block or of an image waits for the answer to the last start; the component
changes with a start, and the block of a start is in range. -/
structure Keeps (s : State) (i : Input) : Prop where
  waits : i.startPb = true ∨ i.sof = true → s.starts = s.readies
  cmp   : i.cmpIdx.toNat < 4 ∧ (i.startPb = false → i.cmpIdx = s.cmpIdx)
  range : i.startPb = true → InRange (predsAfter 0 (s.imageAt i) (component i.cmpIdx)) (s.blockAt i).coefs

instance (pred : ℤ) (coefs : List ℤ) : Decidable (InRange pred coefs) := inferInstanceAs (Decidable (_ ∧ _))

instance (s : State) (i : Input) : Decidable (Keeps s i) :=
  decidable_of_iff
    ((i.startPb = true ∨ i.sof = true → s.starts = s.readies) ∧
      (i.cmpIdx.toNat < 4 ∧ (i.startPb = false → i.cmpIdx = s.cmpIdx)) ∧
      (i.startPb = true → InRange (predsAfter 0 (s.imageAt i) (component i.cmpIdx)) (s.blockAt i).coefs))
    ⟨fun h => ⟨h.1, h.2.1, h.2.2⟩, fun h => ⟨h.waits, h.cmp, h.range⟩⟩

/-- What is written for a run and a value. -/
def wordOf (p : ℕ × ℤ) : Word := ⟨BitVec.ofNat 4 p.1, BitVec.ofNat 4 (vliSize p.2), BitVec.ofInt 12 (vli p.2)⟩

/-! ## Values and words -/

theorem find?_unique {n : ℕ} {l : List ℕ} {q : ℕ → Bool} (hmem : n ∈ l) (hq : ∀ k ∈ l, q k = true ↔ k = n) :
    l.find? q = some n := by
  induction l with
  | nil => cases hmem
  | cons k l ih =>
    by_cases hk : k = n
    · rw [List.find?_cons_of_pos ((hq k List.mem_cons_self).2 hk), hk]
    · have hno : ¬ q k = true := fun h => hk ((hq k List.mem_cons_self).1 h)
      rw [List.find?_cons_of_neg hno]
      exact ih (List.mem_of_ne_of_mem (Ne.symm hk) hmem) fun j hj => hq j (List.mem_cons_of_mem _ hj)

/-- The comparisons find the number of bits. -/
theorem symbolSize_eq (sizeReg : BitVec 4) {acc : BitVec 13} (h : acc.toInt.natAbs ≤ 2047) :
    symbolSize sizeReg acc = BitVec.ofNat 4 (vliSize acc.toInt) := by
  rw [symbolSize]
  split
  · rename_i hzero
    rw [hzero]
    rfl
  · rename_i hne
    have hpos : 1 ≤ vliSize acc.toInt := Nat.size_pos.2 (Int.natAbs_pos.2 hne)
    have hle : vliSize acc.toInt ≤ 11 := Nat.size_le.2 (Nat.lt_succ_of_le h)
    have hfind := find?_unique (l := List.range' 1 11) (q := fun n =>
      (acc.toInt < 1 - 2 ^ (n - 1 : ℕ) ∧ -2 ^ n < acc.toInt) ∨ (2 ^ (n - 1 : ℕ) - 1 < acc.toInt ∧ acc.toInt < 2 ^ n))
      (n := vliSize acc.toInt) (List.mem_range'_1.2 ⟨hpos, by omega⟩) ?_
    · rw [hfind]
    · intro n hn
      obtain ⟨hn1, -⟩ := List.mem_range'_1.1 hn
      have hlow : 2 ^ (n - 1) ≤ acc.toInt.natAbs ↔ n ≤ vliSize acc.toInt := by
        rw [← Nat.lt_size]
        unfold vliSize
        omega
      have hhigh : acc.toInt.natAbs < 2 ^ n ↔ vliSize acc.toInt ≤ n := Nat.size_le.symm
      have hcast : (2 : ℤ) ^ (n - 1) = ((2 ^ (n - 1) : ℕ) : ℤ) := by push_cast; rfl
      have hcast' : (2 : ℤ) ^ n = ((2 ^ n : ℕ) : ℤ) := by push_cast; rfl
      rw [decide_eq_true_iff, hcast, hcast']
      generalize 2 ^ (n - 1) = low at hlow
      generalize 2 ^ n = high at hhigh
      omega

theorem toInt_sub_signExtend (x y : BitVec 12) : (x.signExtend 13 - y.signExtend 13).toInt = x.toInt - y.toInt := by
  have hx := BitVec.toInt_lt (x := x)
  have hx' := BitVec.le_toInt (x := x)
  have hy := BitVec.toInt_lt (x := y)
  have hy' := BitVec.le_toInt (x := y)
  rw [BitVec.toInt_sub, BitVec.toInt_signExtend_of_le (by decide), BitVec.toInt_signExtend_of_le (by decide),
    Int.bmod_eq_of_le (by omega) (by omega)]

theorem toInt_signExtend (x : BitVec 12) : (x.signExtend 13).toInt = x.toInt :=
  BitVec.toInt_signExtend_of_le (by decide)

theorem amplitude_eq {acc : BitVec 13} (h : acc.toInt.natAbs ≤ 2047) :
    (if 0 ≤ acc.toInt then acc else acc - 1).extractLsb' 0 12 = BitVec.ofInt 12 (vli acc.toInt) := by
  have hlow : ∀ x : BitVec 13, x.extractLsb' 0 12 = BitVec.ofInt 12 x.toInt := by
    intro x
    apply BitVec.eq_of_toNat_eq
    rw [BitVec.extractLsb'_toNat, BitVec.toNat_ofInt, BitVec.toInt_eq_toNat_cond]
    have hx := x.isLt
    split <;> omega
  rw [hlow, vli]
  split
  · rfl
  · have hone : (1 : BitVec 13).toInt = 1 := by decide
    rw [BitVec.toInt_sub, hone, Int.bmod_eq_of_le (by omega) (by omega)]

/-- What is found in a cycle, and what is written in the next one. -/
def Regs.first (r : Regs) : List (ℕ × ℤ) := if r.dovalidReg then [(r.runlengthReg.toNat, r.accReg.toInt)] else []

def Regs.second (r : Regs) : List Word := if r.dovalid then [r.word] else []

/-- The runs that are not too long, and the values that have a size. -/
def Sized (ps : List (ℕ × ℤ)) : Prop := ∀ p ∈ ps, p.1 < 16 ∧ p.2.natAbs ≤ 2047

/-- The registers behind the process, which its parts leave alone. -/
def Regs.out (r : Regs) : Bool × BitVec 4 := (r.dovalid, r.runlength)

section

variable (r n : Regs) (di : BitVec 12) (i : Ctrl)

@[simp] theorem out_inputRead : (r.inputRead n i).out = n.out := by
  simp only [Regs.inputRead]
  split_ifs <;> rfl

@[simp] theorem out_dcCoefficient : (r.dcCoefficient n di i).out = n.out := by
  simp only [Regs.dcCoefficient]
  split_ifs <;> rfl

@[simp] theorem out_acCoefficient : (r.acCoefficient n di).out = n.out := by
  simp only [Regs.acCoefficient]
  split_ifs <;> rfl

@[simp] theorem out_inputData : (r.inputData n di i).out = n.out := by
  simp only [Regs.inputData]
  split_ifs
  · exact out_dcCoefficient r { n with wrCnt := r.wrCnt + 1 } di i
  · exact out_acCoefficient r { n with wrCnt := r.wrCnt + 1 } di
  · rfl

@[simp] theorem out_zrl : (r.zrl n).out = n.out := by
  simp only [Regs.zrl]
  split_ifs <;> rfl

@[simp] theorem out_restart : (n.restart i).out = n.out := by
  simp only [Regs.restart]
  split_ifs <;> rfl

theorem out_step : (r.step di i).out = (r.dovalidReg, r.runlengthReg) := by
  show ((r.zrl (r.inputData (r.inputRead r.defaults i) di i)).restart i).out = _
  rw [out_restart, out_zrl, out_inputData, out_inputRead]
  rfl

end

theorem second_step {r : Regs} (hsized : Sized r.first) (di : BitVec 12) (i : Ctrl) :
    (r.step di i).second = r.first.map wordOf := by
  have hval : (r.step di i).dovalid = r.dovalidReg := congrArg Prod.fst (out_step r di i)
  have hrun : (r.step di i).runlength = r.runlengthReg := congrArg Prod.snd (out_step r di i)
  rw [Regs.second, hval, Regs.first]
  split
  · rename_i hv
    have hacc : r.accReg.toInt.natAbs ≤ 2047 := (hsized _ (by rw [Regs.first, if_pos hv]; exact List.mem_singleton_self _)).2
    rw [Regs.word, hrun]
    show [Word.mk _ (symbolSize r.sizeReg r.accReg) ((if 0 ≤ r.accReg.toInt then r.accReg else r.accReg - 1).extractLsb' 0 12)] = _
    rw [symbolSize_eq _ hacc, amplitude_eq hacc, List.map_singleton, wordOf, BitVec.ofNat_toNat, BitVec.setWidth_eq]
  · rfl

/-! ## The phases of a block -/

/-- No block is read. -/
structure Regs.Idle (r : Regs) : Prop where
  rdEn    : r.rdEn = false
  divalid : r.divalid = false
  zrlProc : r.zrlProc = false

/-- A block is started, and its first coefficient is not there yet. -/
structure Regs.Fetch (r : Regs) : Prop where
  rdEn      : r.rdEn = true
  rdCnt     : r.rdCnt = 0
  divalid   : r.divalid = false
  divalidEn : r.divalidEn = true
  zrlProc   : r.zrlProc = false
  wrCnt     : r.wrCnt = 0
  zeroCnt   : r.zeroCnt = 0

/-- The `k`-th coefficient is there, behind `z` zeros. -/
structure Regs.Read (r : Regs) (k z : ℕ) : Prop where
  lt        : k < 64
  zeros     : z ≤ k - 1
  divalid   : r.divalid = true
  divalidEn : r.divalidEn = true
  zrlProc   : r.zrlProc = false
  wrCnt     : r.wrCnt = BitVec.ofNat 6 k
  zeroCnt   : r.zeroCnt = BitVec.ofNat 6 z
  rdEn      : r.rdEn = decide (k < 63)
  rdCnt     : k < 63 → r.rdCnt = BitVec.ofNat 6 (k + 1)

/-- The `k`-th coefficient `x` waits for the words of the zeros before it, of which `z` are left. -/
structure Regs.Long (r : Regs) (k z : ℕ) (x : BitVec 12) : Prop where
  lt        : k < 64
  zeros     : z < k
  divalid   : r.divalid = false
  divalidEn : r.divalidEn = decide (k < 63)
  zrlProc   : r.zrlProc = true
  zrlDi     : r.zrlDi = x
  wrCnt     : r.wrCnt = BitVec.ofNat 6 (k + 1)
  zeroCnt   : r.zeroCnt = BitVec.ofNat 6 z
  rdEn      : r.rdEn = decide (k < 62)
  rdCnt     : k < 63 → r.rdCnt = BitVec.ofNat 6 (k + 1)

theorem ofNat_six_eq {k n : ℕ} (hk : k < 64) (hn : n < 64) : BitVec.ofNat 6 k = BitVec.ofNat 6 n ↔ k = n := by
  constructor
  · intro h
    have hval := congrArg BitVec.toNat h
    rwa [BitVec.toNat_ofNat, BitVec.toNat_ofNat, Nat.mod_eq_of_lt hk, Nat.mod_eq_of_lt hn] at hval
  · rintro rfl
    rfl

theorem toNat_six {k : ℕ} (hk : k < 64) : (BitVec.ofNat 6 k).toNat = k := by
  rw [BitVec.toNat_ofNat, Nat.mod_eq_of_lt hk]

theorem ofNat_six_succ (k : ℕ) : BitVec.ofNat 6 k + 1 = BitVec.ofNat 6 (k + 1) := by
  rw [BitVec.ofNat_add]
  rfl

theorem ofNat_six_sub {z : ℕ} (hz : 16 ≤ z) : BitVec.ofNat 6 z - 16 = BitVec.ofNat 6 (z - 16) := by
  have hsum : z = z - 16 + 16 := by omega
  have hadd : BitVec.ofNat 6 z = BitVec.ofNat 6 (z - 16) + 16 := by
    conv_lhs => rw [hsum, BitVec.ofNat_add]
    rfl
  rw [hadd, BitVec.add_sub_cancel]

section

variable {r : Regs} {k z : ℕ} {x di : BitVec 12} {i : Ctrl}

theorem restart_quiet (n : Regs) (hstart : i.startPb = false) (hsof : i.sof = false) : n.restart i = n := by
  simp [Regs.restart, hstart, hsof]

theorem zrl_quiet (n : Regs) (h : r.zrlProc = false) : r.zrl n = n := by simp [Regs.zrl, h]

/-- What the read counters do at the `k`-th coefficient. -/
theorem Regs.Read.inputRead (h : r.Read k z) (hstart : i.startPb = false) :
    ∃ c, (k < 62 → c = BitVec.ofNat 6 (k + 2)) ∧
      r.inputRead r.defaults i = { r.defaults with divalidEn := decide (k < 63), rdCnt := c, rdEn := decide (k < 62) } := by
  have hlt := h.lt
  have hwr : r.wrCnt = 63 ↔ k = 63 := by
    rw [h.wrCnt]
    exact ofNat_six_eq hlt (by decide)
  rcases Nat.lt_or_ge k 63 with hk | hk
  · have hnot63 : ¬ (r.divalid = true ∧ r.wrCnt = 63) := fun he => absurd (hwr.1 he.2) (by omega)
    have hrd : r.rdCnt = 63 ↔ k + 1 = 63 := by
      rw [h.rdCnt hk]
      exact ofNat_six_eq (by omega) (by decide)
    have hen : r.rdEn = true := by simp [h.rdEn, hk]
    rcases Nat.lt_or_ge k 62 with hk' | hk'
    · refine ⟨r.rdCnt + 1, fun _ => by rw [h.rdCnt hk, ofNat_six_succ], ?_⟩
      have hrd' : ¬ r.rdCnt = 63 := fun he => absurd (hrd.1 he) (by omega)
      simp only [Regs.inputRead, hstart, if_neg hnot63, hen, if_neg hrd', hk, hk', Regs.defaults, h.divalidEn,
        Bool.false_eq_true, if_false, if_true, decide_true]
    · refine ⟨0, fun hlt => absurd hlt (by omega), ?_⟩
      have hrd' : r.rdCnt = 63 := hrd.2 (by omega)
      have hk62 : ¬ k < 62 := by omega
      simp only [Regs.inputRead, hstart, if_neg hnot63, hen, if_pos hrd', hk, hk62, Regs.defaults, h.divalidEn,
        Bool.false_eq_true, if_false, if_true, decide_true, decide_false]
  · refine ⟨r.rdCnt, fun hlt => absurd hlt (by omega), ?_⟩
    have hat63 : r.divalid = true ∧ r.wrCnt = 63 := ⟨h.divalid, hwr.2 (by omega)⟩
    have hk63 : ¬ k < 63 := by omega
    have hk62 : ¬ k < 62 := by omega
    have hen : r.rdEn = false := by simp [h.rdEn, hk63]
    simp only [Regs.inputRead, hstart, if_pos hat63, hen, hk63, hk62, Regs.defaults, Bool.false_eq_true, if_false,
      decide_false]

theorem setWidth_four {z : ℕ} (hz : z < 16) : ((BitVec.ofNat 6 z).setWidth 4).toNat = z := by
  rw [BitVec.toNat_setWidth, toNat_six (by omega), Nat.mod_eq_of_lt hz]

/-- The registers with the DC coefficients, by their component. -/
def Regs.prevDc (r : Regs) : ℕ → BitVec 12
  | 0 => r.prevDcReg0
  | 1 => r.prevDcReg1
  | _ => r.prevDcReg2

theorem component_cases {c : BitVec 3} (h : c.toNat < 4) :
    (c = 0 ∧ component c = 0) ∨ (c = 1 ∧ component c = 0) ∨ (c = 2 ∧ component c = 1) ∨ (c = 3 ∧ component c = 2) := by
  revert h
  revert c
  decide

theorem dcCoefficient_eq (n : Regs) (di : BitVec 12) (hn : n.prevDc = r.prevDc) (hcmp : i.cmpIdx.toNat < 4) :
    ∃ p0 p1 p2, r.dcCoefficient n di i =
        { n with accReg := di.signExtend 13 - (r.prevDc (component i.cmpIdx)).signExtend 13, prevDcReg0 := p0,
                 prevDcReg1 := p1, prevDcReg2 := p2, runlengthReg := 0, dovalidReg := true } ∧
      ∀ c < 3, (r.dcCoefficient n di i).prevDc c = Function.update r.prevDc (component i.cmpIdx) di c := by
  have h0 : n.prevDcReg0 = r.prevDcReg0 := congrFun hn 0
  have h1 : n.prevDcReg1 = r.prevDcReg1 := congrFun hn 1
  have h2 : n.prevDcReg2 = r.prevDcReg2 := congrFun hn 2
  rcases component_cases hcmp with ⟨hc, hcomp⟩ | ⟨hc, hcomp⟩ | ⟨hc, hcomp⟩ | ⟨hc, hcomp⟩
  all_goals
    rw [hcomp]
    refine ⟨_, _, _, by simp only [Regs.dcCoefficient, hc]; rfl, fun c hlt => ?_⟩
    obtain rfl | rfl | rfl : c = 0 ∨ c = 1 ∨ c = 2 := by omega
    all_goals simp [Regs.dcCoefficient, hc, Regs.prevDc, h0, h1, h2]

/-- The first coefficient is coded against the last block of its component. -/
theorem Regs.Read.dc (h : r.Read 0 z) (di : BitVec 12) (hstart : i.startPb = false) (hsof : i.sof = false)
    (hcmp : i.cmpIdx.toNat < 4) :
    (r.step di i).Read 1 0 ∧ (r.step di i).first = [(0, di.toInt - (r.prevDc (component i.cmpIdx)).toInt)] ∧
      ∀ c < 3, (r.step di i).prevDc c = Function.update r.prevDc (component i.cmpIdx) di c := by
  obtain ⟨c, hc, hread⟩ := h.inputRead hstart
  have hwr : r.wrCnt = 0 := h.wrCnt
  obtain ⟨p0, p1, p2, hdc, hprev⟩ := dcCoefficient_eq (r := r) (i := i)
    { r.inputRead r.defaults i with wrCnt := r.wrCnt + 1 } di (by rw [hread]; rfl) hcmp
  have hstep : r.step di i = r.entropyCoder (r.dcCoefficient { r.inputRead r.defaults i with wrCnt := r.wrCnt + 1 } di i) := by
    simp only [Regs.step, Regs.inputData, h.divalid, hwr, if_true]
    rw [zrl_quiet _ h.zrlProc, restart_quiet _ hstart hsof]
  refine ⟨?_, ?_, ?_⟩
  · rw [hstep, hdc, hread]
    exact ⟨by decide, by decide, h.rdEn, rfl, h.zrlProc, by rw [hwr]; rfl, by
      have hz : z = 0 := Nat.le_zero.1 h.zeros
      show r.zeroCnt = _
      rw [h.zeroCnt, hz], rfl, fun _ => hc (by decide)⟩
  · rw [hstep, hdc]
    show [((0 : BitVec 4).toNat, (di.signExtend 13 - (r.prevDc (component i.cmpIdx)).signExtend 13).toInt)] = _
    rw [toInt_sub_signExtend]
    rfl
  · rw [hstep]
    exact hprev

/-- A cycle of the coder at a coefficient behind the first one. -/
theorem Regs.Read.ac (h : r.Read (k + 1) z) (hstart : i.startPb = false) (hsof : i.sof = false) :
    r.step di i = r.entropyCoder (r.acCoefficient { r.inputRead r.defaults i with wrCnt := r.wrCnt + 1 } di) := by
  have hwr : ¬ r.wrCnt = 0 := by
    rw [h.wrCnt]
    exact fun he => absurd ((ofNat_six_eq h.lt (by decide)).1 he) (Nat.succ_ne_zero k)
  simp only [Regs.step, Regs.inputData, h.divalid, if_neg hwr, if_true]
  rw [zrl_quiet _ h.zrlProc, restart_quiet _ hstart hsof]

/-- Behind the `k`-th coefficient the next one is there, or the block is over. -/
theorem read_or_idle {n : Regs} {k z : ℕ} (hk : k < 64) (hz : z ≤ k) (hval : n.divalid = decide (k < 63))
    (hvalen : n.divalidEn = decide (k < 63)) (hzrl : n.zrlProc = false) (hwr : n.wrCnt = BitVec.ofNat 6 (k + 1))
    (hzero : k < 63 → n.zeroCnt = BitVec.ofNat 6 z) (hen : n.rdEn = decide (k < 62))
    (hcnt : k < 62 → n.rdCnt = BitVec.ofNat 6 (k + 2)) : if k < 63 then n.Read (k + 1) z else n.Idle := by
  split
  · rename_i hlt
    simp only [hlt, decide_true] at hval hvalen
    have hrd : decide (k + 1 < 63) = decide (k < 62) := by simp only [decide_eq_decide]; omega
    exact ⟨by omega, by omega, hval, hvalen, hzrl, hwr, hzero hlt, by rw [hen, hrd], fun hlt' => hcnt (by omega)⟩
  · rename_i hge
    have hge' : ¬ k < 62 := by omega
    exact ⟨by rw [hen, decide_eq_false hge'], by rw [hval, decide_eq_false hge], hzrl⟩

theorem Regs.Read.zero (h : r.Read (k + 1) z) (di : BitVec 12) (hstart : i.startPb = false) (hsof : i.sof = false)
    (hdi : di = 0) :
    (if k + 1 < 63 then (r.step di i).Read (k + 2) (z + 1) else (r.step di i).Idle) ∧
      (r.step di i).first = if k + 1 < 63 then [] else [(0, 0)] := by
  obtain ⟨c, hc, hread⟩ := h.inputRead hstart
  have hwr : r.wrCnt = 63 ↔ k + 1 = 63 := by
    rw [h.wrCnt]
    exact ofNat_six_eq h.lt (by decide)
  have hzeros := h.zeros
  rcases Nat.lt_or_ge (k + 1) 63 with hlt | hge
  · have hwr' : ¬ r.wrCnt = 63 := fun he => absurd (hwr.1 he) (by omega)
    have hstep : r.step di i = r.entropyCoder
        { r.inputRead r.defaults i with wrCnt := r.wrCnt + 1, zeroCnt := r.zeroCnt + 1 } := by
      rw [h.ac hstart hsof, Regs.acCoefficient, if_pos hdi, if_neg hwr']
    rw [hstep, hread, if_pos hlt]
    constructor
    · have hnext := read_or_idle (n := r.entropyCoder { r.inputRead r.defaults i with wrCnt := r.wrCnt + 1, zeroCnt := r.zeroCnt + 1 })
        h.lt (show z + 1 ≤ k + 1 by omega) (by rw [hread]; exact h.rdEn) (by rw [hread]; rfl) (by rw [hread]; exact h.zrlProc)
        (by show r.wrCnt + 1 = _; rw [h.wrCnt, ofNat_six_succ]) (fun _ => by show r.zeroCnt + 1 = _; rw [h.zeroCnt, ofNat_six_succ])
        (by rw [hread]; rfl) (fun hlt' => by rw [hread]; exact hc hlt')
      rwa [if_pos hlt, hread] at hnext
    · rw [if_pos hlt]
      rfl
  · have hwr' : r.wrCnt = 63 := hwr.2 (by have := h.lt; omega)
    have hstep : r.step di i = r.entropyCoder
        { r.inputRead r.defaults i with wrCnt := r.wrCnt + 1, accReg := 0, runlengthReg := 0, dovalidReg := true } := by
      rw [h.ac hstart hsof, Regs.acCoefficient, if_pos hdi, if_pos hwr']
    have hge' : ¬ k + 1 < 63 := by omega
    have hge'' : ¬ k + 1 < 62 := by omega
    rw [hstep, hread, if_neg hge', if_neg hge']
    exact ⟨⟨decide_eq_false hge'', h.rdEn.trans (decide_eq_false hge'), h.zrlProc⟩, rfl⟩

theorem Regs.Read.short (h : r.Read (k + 1) z) (hstart : i.startPb = false) (hsof : i.sof = false) (hdi : di ≠ 0)
    (hz : z < 16) :
    (if k + 1 < 63 then (r.step di i).Read (k + 2) 0 else (r.step di i).Idle) ∧ (r.step di i).first = [(z, di.toInt)] := by
  obtain ⟨c, hc, hread⟩ := h.inputRead hstart
  have hzeros := h.zeros
  have hlt := h.lt
  have hle : r.zeroCnt.toNat ≤ 15 := by
    rw [h.zeroCnt, toNat_six (by omega)]
    omega
  have hstep : r.step di i = r.entropyCoder
      { r.inputRead r.defaults i with wrCnt := r.wrCnt + 1, accReg := di.signExtend 13,
                                      runlengthReg := r.zeroCnt.setWidth 4, zeroCnt := 0, dovalidReg := true } := by
    rw [h.ac hstart hsof, Regs.acCoefficient, if_neg hdi, if_pos hle]
  constructor
  · rw [hstep]
    exact read_or_idle h.lt (Nat.zero_le _) (by rw [hread]; exact h.rdEn) (by rw [hread]; rfl) (by rw [hread]; exact h.zrlProc)
      (by show r.wrCnt + 1 = _; rw [h.wrCnt, ofNat_six_succ]) (fun _ => rfl) (by rw [hread]; rfl)
      (fun hlt' => by rw [hread]; exact hc hlt')
  · rw [hstep, hread]
    show [((r.zeroCnt.setWidth 4).toNat, (di.signExtend 13).toInt)] = _
    rw [h.zeroCnt, setWidth_four hz, toInt_signExtend]

theorem Regs.Read.long (h : r.Read (k + 1) z) (hstart : i.startPb = false) (hsof : i.sof = false) (hdi : di ≠ 0)
    (hz : 16 ≤ z) : (r.step di i).Long (k + 1) (z - 16) di ∧ (r.step di i).first = [(15, 0)] := by
  obtain ⟨c, hc, hread⟩ := h.inputRead hstart
  have hzeros := h.zeros
  have hlt := h.lt
  have hle : ¬ r.zeroCnt.toNat ≤ 15 := by
    rw [h.zeroCnt, toNat_six (by omega)]
    omega
  have hstep : r.step di i = r.entropyCoder
      { r.inputRead r.defaults i with wrCnt := r.wrCnt + 1, accReg := 0, runlengthReg := 15, zeroCnt := r.zeroCnt - 16,
                                      dovalidReg := true, zrlProc := true, zrlDi := di, divalid := false,
                                      rdCnt := r.rdCnt } := by
    rw [h.ac hstart hsof, Regs.acCoefficient, if_neg hdi, if_neg hle]
  rw [hstep, hread]
  exact ⟨⟨hlt, by omega, rfl, rfl, rfl, rfl, by show r.wrCnt + 1 = _; rw [h.wrCnt, ofNat_six_succ],
    by show r.zeroCnt - 16 = _; rw [h.zeroCnt, ofNat_six_sub hz], rfl, h.rdCnt⟩, rfl⟩

/-- The read counters while the reading stands. -/
theorem Regs.Long.inputRead (h : r.Long k z x) (hstart : i.startPb = false) :
    ∃ c, (k < 62 → c = BitVec.ofNat 6 (k + 2)) ∧ r.inputRead r.defaults i = { r.defaults with rdCnt := c } := by
  have hval : ¬ (r.divalid = true ∧ r.wrCnt = 63) := fun he => by
    rw [h.divalid] at he
    cases he.1
  rcases Nat.lt_or_ge k 62 with hk | hk
  · have hen : r.rdEn = true := by simp [h.rdEn, hk]
    have hrd : ¬ r.rdCnt = 63 := by
      rw [h.rdCnt (by omega)]
      exact fun he => absurd ((ofNat_six_eq (n := 63) (by omega) (by decide)).1 he) (by omega)
    refine ⟨r.rdCnt + 1, fun _ => by rw [h.rdCnt (by omega), ofNat_six_succ], ?_⟩
    simp only [Regs.inputRead, hstart, if_neg hval, hen, if_neg hrd, Regs.defaults, Bool.false_eq_true, if_false, if_true]
  · have hk' : ¬ k < 62 := by omega
    have hen : r.rdEn = false := by simp [h.rdEn, hk']
    refine ⟨r.rdCnt, fun hlt => absurd hlt hk', ?_⟩
    simp only [Regs.inputRead, hstart, if_neg hval, hen, Regs.defaults, Bool.false_eq_true, if_false]

theorem Regs.Long.step (h : r.Long k z x) (hstart : i.startPb = false) (hsof : i.sof = false) :
    r.step di i = r.entropyCoder (r.zrl (r.inputRead r.defaults i)) := by
  simp only [Regs.step, Regs.inputData, h.divalid, Bool.false_eq_true, if_false]
  rw [restart_quiet _ hstart hsof]

theorem Regs.Long.more (h : r.Long k z x) (di : BitVec 12) (hstart : i.startPb = false) (hsof : i.sof = false)
    (hz : 16 ≤ z) :
    (r.step di i).Long k (z - 16) x ∧ (r.step di i).first = [(15, 0)] := by
  obtain ⟨c, -, hread⟩ := h.inputRead hstart
  have hzeros := h.zeros
  have hlt := h.lt
  have hle : ¬ r.zeroCnt.toNat ≤ 15 := by
    rw [h.zeroCnt, toNat_six (by omega)]
    omega
  have hstep : r.step di i = r.entropyCoder
      { r.inputRead r.defaults i with accReg := 0, runlengthReg := 15, zeroCnt := r.zeroCnt - 16, dovalidReg := true,
                                      divalid := false, rdCnt := r.rdCnt } := by
    rw [h.step hstart hsof, Regs.zrl, if_pos h.zrlProc, if_neg hle]
  rw [hstep, hread]
  exact ⟨⟨hlt, by omega, rfl, h.divalidEn, h.zrlProc, h.zrlDi, h.wrCnt,
    by show r.zeroCnt - 16 = _; rw [h.zeroCnt, ofNat_six_sub hz], h.rdEn, h.rdCnt⟩, rfl⟩

theorem Regs.Long.last (h : r.Long k z x) (di : BitVec 12) (hstart : i.startPb = false) (hsof : i.sof = false)
    (hz : z < 16) (hx : x ≠ 0) :
    (if k < 63 then (r.step di i).Read (k + 1) 0 else (r.step di i).Idle) ∧ (r.step di i).first = [(z, x.toInt)] := by
  obtain ⟨c, hc, hread⟩ := h.inputRead hstart
  have hzeros := h.zeros
  have hlt := h.lt
  have hle : r.zeroCnt.toNat ≤ 15 := by
    rw [h.zeroCnt, toNat_six (by omega)]
    omega
  have hx' : ¬ r.zrlDi = 0 := by rwa [h.zrlDi]
  have hstep : r.step di i = r.entropyCoder
      { r.inputRead r.defaults i with accReg := r.zrlDi.signExtend 13, runlengthReg := r.zeroCnt.setWidth 4, zeroCnt := 0,
                                      dovalidReg := true, divalid := r.divalidEn, zrlProc := false } := by
    rw [h.step hstart hsof, Regs.zrl, if_pos h.zrlProc, if_pos hle, if_neg hx']
  constructor
  · rw [hstep]
    exact read_or_idle h.lt (Nat.zero_le _) h.divalidEn (by rw [hread]; exact h.divalidEn) rfl
      (by rw [hread]; exact h.wrCnt) (fun _ => rfl) (by rw [hread]; exact h.rdEn) (fun hlt' => by rw [hread]; exact hc hlt')
  · rw [hstep, hread]
    show [((r.zeroCnt.setWidth 4).toNat, (r.zrlDi.signExtend 13).toInt)] = _
    rw [h.zeroCnt, setWidth_four hz, toInt_signExtend, h.zrlDi]

theorem Regs.Fetch.step (h : r.Fetch) (di : BitVec 12) (hstart : i.startPb = false) (hsof : i.sof = false) :
    (r.step di i).Read 0 0 ∧ (r.step di i).first = [] := by
  have hval : ¬ (r.divalid = true ∧ r.wrCnt = 63) := fun he => by
    rw [h.divalid] at he
    cases he.1
  have hrd : ¬ r.rdCnt = 63 := by
    rw [h.rdCnt]
    decide
  have hread : r.inputRead r.defaults i = { r.defaults with rdCnt := r.rdCnt + 1 } := by
    simp only [Regs.inputRead, hstart, if_neg hval, h.rdEn, if_neg hrd, Regs.defaults, Bool.false_eq_true, if_false, if_true]
  have hstep : r.step di i = r.entropyCoder { r.defaults with rdCnt := r.rdCnt + 1 } := by
    simp only [Regs.step, Regs.inputData, h.divalid, Bool.false_eq_true, if_false, hread]
    rw [zrl_quiet _ h.zrlProc, restart_quiet _ hstart hsof]
  rw [hstep]
  exact ⟨⟨by decide, by decide, h.rdEn, h.divalidEn, h.zrlProc, h.wrCnt, h.zeroCnt, h.rdEn,
    fun _ => by show r.rdCnt + 1 = _; rw [h.rdCnt]; rfl⟩, rfl⟩

theorem Regs.Idle.step (h : r.Idle) (di : BitVec 12) (i : Ctrl) :
    (if i.startPb then (r.step di i).Fetch else (r.step di i).Idle) ∧ (r.step di i).first = [] := by
  have hzrl : ∀ n, r.zrl n = n := fun n => zrl_quiet n h.zrlProc
  have hstep : r.step di i = r.entropyCoder
      ((if i.startPb then { r.defaults with rdCnt := 0, rdEn := true, divalidEn := true } else r.defaults).restart i) := by
    simp only [Regs.step, Regs.inputData, Regs.inputRead, h.divalid, h.rdEn, Bool.false_eq_true, false_and, if_false, hzrl]
  rw [hstep]
  cases hstart : i.startPb
  all_goals cases hsof : i.sof
  all_goals simp only [Regs.restart, hstart, hsof, Bool.false_eq_true, if_false, if_true]
  · exact ⟨⟨h.rdEn, h.rdEn, h.zrlProc⟩, rfl⟩
  · exact ⟨⟨h.rdEn, h.rdEn, h.zrlProc⟩, rfl⟩
  · exact ⟨⟨rfl, rfl, h.rdEn, rfl, h.zrlProc, rfl, rfl⟩, rfl⟩
  · exact ⟨⟨rfl, rfl, h.rdEn, rfl, h.zrlProc, rfl, rfl⟩, rfl⟩

end

/-! ## The DC coefficients -/

section

variable (r n : Regs) (di : BitVec 12) (i : Ctrl)

theorem prevDc_inputRead : (r.inputRead n i).prevDc = n.prevDc := by
  simp only [Regs.inputRead]
  split_ifs <;> rfl

theorem prevDc_acCoefficient : (r.acCoefficient n di).prevDc = n.prevDc := by
  simp only [Regs.acCoefficient]
  split_ifs <;> rfl

theorem prevDc_zrl : (r.zrl n).prevDc = n.prevDc := by
  simp only [Regs.zrl]
  split_ifs <;> rfl

variable {r i}

/-- Only a first coefficient and a new image change them. -/
theorem prevDc_step (hsof : i.sof = false) (h : ¬ (r.divalid = true ∧ r.wrCnt = 0)) :
    (r.step di i).prevDc = r.prevDc := by
  have hrestart : ∀ n : Regs, (n.restart i).prevDc = n.prevDc := by
    intro n
    simp only [Regs.restart, hsof, Bool.false_eq_true, if_false]
    split_ifs <;> rfl
  have hdata : ∀ n : Regs, (r.inputData n di i).prevDc = n.prevDc := by
    intro n
    simp only [Regs.inputData]
    split_ifs with hval hwr
    · exact absurd ⟨hval, hwr⟩ h
    · exact prevDc_acCoefficient r { n with wrCnt := r.wrCnt + 1 } di
    · rfl
  show (((r.zrl (r.inputData (r.inputRead r.defaults i) di i)).restart i).prevDc) = _
  rw [hrestart, prevDc_zrl, hdata, prevDc_inputRead]
  rfl

theorem prevDc_sof (hsof : i.sof = true) (c : ℕ) : (r.step di i).prevDc c = 0 := by
  have hprev : (((r.zrl (r.inputData (r.inputRead r.defaults i) di i)).restart i).prevDc) c = 0 := by
    simp only [Regs.restart, hsof, if_true]
    match c with
    | 0 | 1 | _ + 2 => rfl
  exact hprev

end

/-! ## The phases -/

inductive Phase
  | idle
  | fetch
  | read (k z : ℕ)
  | long (k z : ℕ)

def Regs.At (r : Regs) (b : BitVec 6 → BitVec 12) : Phase → Prop
  | .idle     => r.Idle
  | .fetch    => r.Fetch
  | .read k z => r.Read k z
  | .long k z => r.Long k z (b (BitVec.ofNat 6 k)) ∧ b (BitVec.ofNat 6 k) ≠ 0

/-- The pairs that are still to be found. -/
def Phase.unread (b : BitVec 6 → BitVec 12) (pred : ℤ) : Phase → List (ℕ × ℤ)
  | .idle           => []
  | .fetch          => codeBlock pred (coefsFrom b 0)
  | .read 0 _       => codeBlock pred (coefsFrom b 0)
  | .read (k + 1) z => encode 16 z (coefsFrom b (k + 1))
  | .long k z       => fullRuns 16 z ++ (z % 16, (b (BitVec.ofNat 6 k)).toInt) :: encode 16 0 (coefsFrom b (k + 1))

/-- The cycles that are left at most: one for each coefficient, and one for each word of a run that is too long. -/
def Phase.cycles : Phase → ℕ
  | .idle     => 0
  | .fetch    => 69
  | .read k z => 64 - k + (z + 64 - k) / 16
  | .long k z => 64 - k + z / 16 + (63 - k) / 16

/-- The first coefficient of the block is not coded yet. -/
def Phase.Fresh : Phase → Prop
  | .fetch | .read 0 _ => True
  | _                  => False

theorem coefsFrom_of_lt (b : BitVec 6 → BitVec 12) {k : ℕ} (h : k < 64) :
    coefsFrom b k = (b (BitVec.ofNat 6 k)).toInt :: coefsFrom b (k + 1) := by
  have hlen : 64 - k = 64 - (k + 1) + 1 := by omega
  rw [coefsFrom, hlen, List.range'_succ, List.map_cons]
  rfl

theorem toInt_eq_zero {x : BitVec 12} : x.toInt = 0 ↔ x = 0 := by
  rw [← BitVec.toInt_inj]
  rfl

theorem fullRuns_of_ge {z : ℕ} (hz : 16 ≤ z) : fullRuns (α := ℤ) 16 z = (15, 0) :: fullRuns 16 (z - 16) := by
  have hdiv : z / 16 = (z - 16) / 16 + 1 := by omega
  rw [fullRuns, hdiv, List.replicate_succ]
  rfl

theorem fullRuns_of_lt {z : ℕ} (hz : z < 16) : fullRuns (α := ℤ) 16 z = [] := by
  rw [fullRuns, Nat.div_eq_of_lt hz]
  rfl

/-- The phase behind the `k`-th coefficient. -/
def Phase.behind (k z : ℕ) : Phase := if k < 63 then .read (k + 1) z else .idle

section

variable {r r' : Regs} {b : BitVec 6 → BitVec 12} {pred : ℤ} {k z : ℕ} {di : BitVec 12} {i : Ctrl} {p : Phase}

theorem at_behind (h : if k < 63 then r'.Read (k + 1) z else r'.Idle) : r'.At b (.behind k z) := by
  rw [Phase.behind]
  split
  · rename_i hlt
    rwa [if_pos hlt] at h
  · rename_i hge
    rwa [if_neg hge] at h

theorem unread_behind (hk : k < 64) (hz : k = 63 → z = 0) :
    (Phase.behind k z).unread b pred = encode 16 z (coefsFrom b (k + 1)) := by
  rw [Phase.behind]
  split
  · rfl
  · obtain rfl : k = 63 := by omega
    rw [hz rfl]
    rfl

theorem cycles_behind : (Phase.behind k z).cycles ≤ 63 - k + (z + 63 - k) / 16 := by
  rw [Phase.behind]
  split
  · show 64 - (k + 1) + (z + 64 - (k + 1)) / 16 ≤ _
    have h1 : 64 - (k + 1) = 63 - k := by omega
    have h2 : z + 64 - (k + 1) = z + 63 - k := by omega
    rw [h1, h2]
  · exact Nat.zero_le _

theorem rdCnt_behind (hcnt : k < 63 → r.rdCnt = BitVec.ofNat 6 (k + 1)) {j w : ℕ} (h : Phase.behind k z = .read j w) :
    r.rdCnt = BitVec.ofNat 6 j := by
  rw [Phase.behind] at h
  split at h
  · rename_i hlt
    injection h with hj
    rw [hcnt hlt, hj]
  · cases h

theorem not_fresh_behind : ¬ (Phase.behind k z).Fresh := by
  rw [Phase.behind]
  split <;> exact not_false

/-- What a cycle of the coder does: what was still to be found is what it finds, and what is to be found behind it. -/
structure Regs.Move (b : BitVec 6 → BitVec 12) (pred : ℤ) (r r' : Regs) (p p' : Phase) : Prop where
  phase  : r'.At b p'
  unread : p.unread b pred = r'.first ++ p'.unread b pred
  cycles : p'.cycles ≤ p.cycles - 1
  adr    : ∀ k z, p' = .read k z → r.rdCnt = BitVec.ofNat 6 k
  fresh  : p'.Fresh ↔ p = .fetch
  idle   : p = .idle → p' = .idle

theorem fetch_move (h : r.At b .fetch) (di : BitVec 12) (pred : ℤ) (hstart : i.startPb = false) (hsof : i.sof = false) :
    r.Move b pred (r.step di i) .fetch (.read 0 0) := by
  obtain ⟨hnext, hfirst⟩ := Regs.Fetch.step h di hstart hsof
  refine ⟨hnext, by rw [hfirst]; rfl, by decide, ?_, iff_of_true trivial rfl, by simp⟩
  intro k z he
  injection he with hk
  rw [h.rdCnt, ← hk]
  rfl

theorem dc_move (h : r.At b (.read 0 z)) (hstart : i.startPb = false) (hsof : i.sof = false) (hdi : di = b 0)
    (hcmp : i.cmpIdx.toNat < 4) (hpred : pred = (r.prevDc (component i.cmpIdx)).toInt) :
    r.Move b pred (r.step di i) (.read 0 z) (.read 1 0) := by
  obtain ⟨hnext, hfirst, -⟩ := Regs.Read.dc h di hstart hsof hcmp
  refine ⟨hnext, ?_, ?_, ?_, ⟨not_false.elim, by simp⟩, by simp⟩
  · rw [hfirst, hdi, hpred]
    show codeBlock _ (coefsFrom b 0) = _
    rw [coefsFrom_of_lt b (by decide)]
    rfl
  · show 64 - 1 + (0 + 64 - 1) / 16 ≤ 64 - 0 + (z + 64 - 0) / 16 - 1
    omega
  · intro k z he
    injection he with hk
    rw [h.rdCnt (by decide), ← hk]

/-- A zero lengthens the run. -/
theorem zero_move (h : r.At b (.read (k + 1) z)) (pred : ℤ) (hstart : i.startPb = false) (hsof : i.sof = false)
    (hdi : di = b (BitVec.ofNat 6 (k + 1))) (hzero : b (BitVec.ofNat 6 (k + 1)) = 0) :
    r.Move b pred (r.step di i) (.read (k + 1) z) (.behind (k + 1) (if k + 1 < 63 then z + 1 else 0)) := by
  have hlt := h.lt
  obtain ⟨hnext, hfirst⟩ := Regs.Read.zero h di hstart hsof (hdi.trans hzero)
  have hunread : (Phase.read (k + 1) z).unread b pred = encode 16 (z + 1) (coefsFrom b (k + 2)) := by
    show encode 16 z (coefsFrom b (k + 1)) = _
    rw [coefsFrom_of_lt b hlt, encode, if_pos (toInt_eq_zero.2 hzero)]
  refine ⟨at_behind ?_, ?_, ?_, fun j w => rdCnt_behind h.rdCnt, ⟨fun hf => absurd hf not_fresh_behind, by simp⟩, by simp⟩
  · split
    · rename_i hk
      rwa [if_pos hk] at hnext
    · rename_i hk
      rwa [if_neg hk] at hnext
  · rw [hunread, hfirst, unread_behind hlt (fun hk => if_neg (by omega))]
    split
    · rfl
    · obtain rfl : k = 62 := by omega
      rfl
  · refine Nat.le_trans cycles_behind ?_
    show _ ≤ 64 - (k + 1) + (z + 64 - (k + 1)) / 16 - 1
    split <;> omega

/-- What is to be found where a coefficient ends a run. -/
theorem unread_run (hlt : k + 1 < 64) (z : ℕ) (pred : ℤ) (hne : b (BitVec.ofNat 6 (k + 1)) ≠ 0) :
    (Phase.read (k + 1) z).unread b pred =
      fullRuns 16 z ++ (z % 16, (b (BitVec.ofNat 6 (k + 1))).toInt) :: encode 16 0 (coefsFrom b (k + 2)) := by
  show encode 16 z (coefsFrom b (k + 1)) = _
  rw [coefsFrom_of_lt b hlt, encode, if_neg fun he => hne (toInt_eq_zero.1 he)]

/-- A coefficient ends a run that fits one word. -/
theorem short_move (h : r.At b (.read (k + 1) z)) (pred : ℤ) (hstart : i.startPb = false) (hsof : i.sof = false)
    (hdi : di = b (BitVec.ofNat 6 (k + 1))) (hne : b (BitVec.ofNat 6 (k + 1)) ≠ 0) (hz : z < 16) :
    r.Move b pred (r.step di i) (.read (k + 1) z) (.behind (k + 1) 0) := by
  have hlt := h.lt
  obtain ⟨hnext, hfirst⟩ := Regs.Read.short h hstart hsof (hdi ▸ hne) hz
  refine ⟨at_behind hnext, ?_, ?_, fun j w => rdCnt_behind h.rdCnt, ⟨fun hf => absurd hf not_fresh_behind, by simp⟩, by simp⟩
  · rw [unread_run hlt z pred hne, hfirst, unread_behind hlt (fun _ => rfl), fullRuns_of_lt hz, Nat.mod_eq_of_lt hz, hdi]
    rfl
  · refine Nat.le_trans cycles_behind ?_
    show _ ≤ 64 - (k + 1) + (z + 64 - (k + 1)) / 16 - 1
    omega

/-- A coefficient ends a run that is too long for one word. -/
theorem long_move (h : r.At b (.read (k + 1) z)) (pred : ℤ) (hstart : i.startPb = false) (hsof : i.sof = false)
    (hdi : di = b (BitVec.ofNat 6 (k + 1))) (hne : b (BitVec.ofNat 6 (k + 1)) ≠ 0) (hz : 16 ≤ z) :
    r.Move b pred (r.step di i) (.read (k + 1) z) (.long (k + 1) (z - 16)) := by
  have hlt := h.lt
  have hzeros := h.zeros
  obtain ⟨hnext, hfirst⟩ := Regs.Read.long h hstart hsof (hdi ▸ hne) hz
  have hmod : z % 16 = (z - 16) % 16 := by omega
  refine ⟨⟨hdi ▸ hnext, hne⟩, ?_, ?_, by simp, ⟨not_false.elim, by simp⟩, by simp⟩
  · rw [unread_run hlt z pred hne, hfirst, fullRuns_of_ge hz, hmod]
    rfl
  · show 64 - (k + 1) + (z - 16) / 16 + (63 - (k + 1)) / 16 ≤ 64 - (k + 1) + (z + 64 - (k + 1)) / 16 - 1
    omega

/-- The rest of a long run: the coefficient. -/
theorem last_move (h : r.At b (.long k z)) (di : BitVec 12) (pred : ℤ) (hstart : i.startPb = false) (hsof : i.sof = false)
    (hz : z < 16) : r.Move b pred (r.step di i) (.long k z) (.behind k 0) := by
  obtain ⟨hlong, hne⟩ := h
  have hlt := hlong.lt
  obtain ⟨hnext, hfirst⟩ := hlong.last di hstart hsof hz hne
  refine ⟨at_behind hnext, ?_, ?_, fun j w => rdCnt_behind hlong.rdCnt, ⟨fun hf => absurd hf not_fresh_behind, by simp⟩,
    by simp⟩
  · rw [hfirst, unread_behind hlt (fun _ => rfl)]
    show fullRuns 16 z ++ _ = _
    rw [fullRuns_of_lt hz, Nat.mod_eq_of_lt hz]
    rfl
  · refine Nat.le_trans cycles_behind ?_
    show _ ≤ 64 - k + z / 16 + (63 - k) / 16 - 1
    omega

/-- The rest of a long run: sixteen zeros more. -/
theorem more_move (h : r.At b (.long k z)) (di : BitVec 12) (pred : ℤ) (hstart : i.startPb = false) (hsof : i.sof = false)
    (hz : 16 ≤ z) : r.Move b pred (r.step di i) (.long k z) (.long k (z - 16)) := by
  obtain ⟨hlong, hne⟩ := h
  obtain ⟨hnext, hfirst⟩ := hlong.more di hstart hsof hz
  have hmod : z % 16 = (z - 16) % 16 := by omega
  refine ⟨⟨hnext, hne⟩, ?_, ?_, by simp, ⟨not_false.elim, by simp⟩, by simp⟩
  · rw [hfirst]
    show fullRuns 16 z ++ _ = _
    rw [fullRuns_of_ge hz, hmod]
    rfl
  · show 64 - k + (z - 16) / 16 + (63 - k) / 16 ≤ 64 - k + z / 16 + (63 - k) / 16 - 1
    omega

/-- **A cycle of the coder**, by its phase. -/
theorem Regs.At.step (h : r.At b p) (hstart : i.startPb = false) (hsof : p ≠ .idle → i.sof = false)
    (hdi : ∀ k z, p = .read k z → di = b (BitVec.ofNat 6 k)) (hcmp : i.cmpIdx.toNat < 4)
    (hpred : p.Fresh → pred = (r.prevDc (component i.cmpIdx)).toInt) : ∃ p' : Phase, r.Move b pred (r.step di i) p p' := by
  match p, h with
  | .idle, h =>
    obtain ⟨hnext, hfirst⟩ := Regs.Idle.step h di i
    rw [hstart] at hnext
    exact ⟨.idle, hnext, by rw [hfirst]; rfl, Nat.zero_le _, by simp, ⟨not_false.elim, by simp⟩, fun _ => rfl⟩
  | .fetch, h => exact ⟨.read 0 0, fetch_move h di pred hstart (hsof (by simp))⟩
  | .read 0 z, h => exact ⟨.read 1 0, dc_move h hstart (hsof (by simp)) (hdi 0 z rfl) hcmp (hpred trivial)⟩
  | .read (k + 1) z, h =>
    have hsof' := hsof (by simp)
    by_cases hzero : b (BitVec.ofNat 6 (k + 1)) = 0
    · exact ⟨_, zero_move h pred hstart hsof' (hdi (k + 1) z rfl) hzero⟩
    · rcases Nat.lt_or_ge z 16 with hz | hz
      · exact ⟨_, short_move h pred hstart hsof' (hdi (k + 1) z rfl) hzero hz⟩
      · exact ⟨_, long_move h pred hstart hsof' (hdi (k + 1) z rfl) hzero hz⟩
  | .long k z, h =>
    have hsof' := hsof (by simp)
    rcases Nat.lt_or_ge z 16 with hz | hz
    · exact ⟨_, last_move h di pred hstart hsof' hz⟩
    · exact ⟨_, more_move h di pred hstart hsof' hz⟩

end

/-! ## The answer -/

/-- The pairs that a block of `n` more coefficients consists of. -/
inductive Covers : ℕ → List (ℕ × ℤ) → Prop
  | whole {ps : List (ℕ × ℤ)} {xs : List ℤ} (v : ℤ) (h : Expands 63 ps xs) : Covers 64 ((0, v) :: ps)
  | rest {n : ℕ} {ps : List (ℕ × ℤ)} {xs : List ℤ} (hn : n ≤ 63) (h : Expands n ps xs) : Covers n ps

theorem expands_zero {ps : List (ℕ × ℤ)} {n : ℕ} {xs : List ℤ} (h : Expands n ps xs) : n = 0 ↔ ps = [] := by
  cases h with
  | nil => simp
  | toEnd n => simp
  | run r x hne h => simp

theorem wordOf_size {w : ℕ × ℤ} (h : w.2.natAbs ≤ 2047) : (wordOf w).size = 0 ↔ w.2 = 0 := by
  have hle : vliSize w.2 ≤ 11 := Nat.size_le.2 (Nat.lt_succ_of_le h)
  have hzero : vliSize w.2 = 0 ↔ w.2 = 0 := by rw [vliSize, Nat.size_eq_zero, Int.natAbs_eq_zero]
  rw [← hzero]
  constructor
  · intro he
    have hval := congrArg BitVec.toNat he
    rw [wordOf, BitVec.toNat_ofNat, Nat.mod_eq_of_lt (by omega)] at hval
    exact hval
  · intro he
    show BitVec.ofNat 4 (vliSize w.2) = 0
    rw [he]
    rfl

theorem wordOf_run {w : ℕ × ℤ} (h : w.1 < 16) : (wordOf w).runlength.toNat = w.1 := by
  rw [wordOf, BitVec.toNat_ofNat, Nat.mod_eq_of_lt h]

theorem wordOf_eq_zero {w : ℕ × ℤ} (h : w.1 < 16 ∧ w.2.natAbs ≤ 2047) : wordOf w = ⟨0, 0, 0⟩ ↔ w = (0, 0) := by
  constructor
  · intro he
    have hsize := (wordOf_size h.2).1 (congrArg Word.size he)
    have hrun := wordOf_run h.1
    rw [he] at hrun
    exact Prod.ext hrun.symm hsize
  · rintro rfl
    rfl

section

variable {t : Top} {r : Regs} {n : ℕ} {w : ℕ × ℤ} {ps : List (ℕ × ℤ)} {startPb : Bool}

theorem wrCnt_word (startPb : Bool) (hw : w.1 < 16 ∧ w.2.natAbs ≤ 2047) (hval : r.dovalid = true) (hword : r.word = wordOf w) :
    (t.step r startPb).wrCnt = t.wrCnt + BitVec.ofNat 6 (w.1 + 1) := by
  have hrun : r.word.runlength.setWidth 6 = BitVec.ofNat 6 w.1 := by
    apply BitVec.eq_of_toNat_eq
    rw [BitVec.toNat_setWidth, hword, wordOf_run hw.1, BitVec.toNat_ofNat]
  simp only [Top.step, hval, if_true]
  split
  · rename_i hfull
    have h15 : w.1 = 15 := by rw [← wordOf_run hw.1, ← hword, hfull.1]; rfl
    rw [h15]
    rfl
  · rw [hrun, BitVec.ofNat_add, BitVec.add_assoc, BitVec.add_comm 1]
    rfl

theorem readyPb_word (startPb : Bool) (hw : w.1 < 16 ∧ w.2.natAbs ≤ 2047) (hval : r.dovalid = true) (hword : r.word = wordOf w) :
    (t.step r startPb).readyPb = decide ((w = (0, 0) ∧ t.wrCnt ≠ 0) ∨ t.wrCnt + BitVec.ofNat 6 w.1 = 63) := by
  have hrun : r.word.runlength.setWidth 6 = BitVec.ofNat 6 w.1 := by
    apply BitVec.eq_of_toNat_eq
    rw [BitVec.toNat_setWidth, hword, wordOf_run hw.1, BitVec.toNat_ofNat]
  have hzero : r.word = ⟨0, 0, 0⟩ ↔ w = (0, 0) := by rw [hword, wordOf_eq_zero hw]
  simp only [Top.step, hval, Bool.true_and, hrun, hzero, Bool.decide_or]

/-- **The answer comes with the last word of a block.** -/
theorem Covers.word (h : Covers n (w :: ps)) (startPb : Bool) (hw : w.1 < 16 ∧ w.2.natAbs ≤ 2047)
    (hwr : t.wrCnt = BitVec.ofNat 6 (64 - n)) (hval : r.dovalid = true) (hword : r.word = wordOf w) :
    ∃ m, Covers m ps ∧ (ps ≠ [] → (t.step r startPb).wrCnt = BitVec.ofNat 6 (64 - m)) ∧
      (t.step r startPb).readyPb = decide (ps = []) := by
  have hcnt := wrCnt_word (t := t) startPb hw hval hword
  have hready := readyPb_word (t := t) startPb hw hval hword
  rw [hwr] at hcnt hready
  rw [hcnt, hready]
  cases h with
  | whole v h =>
    have hne : ps ≠ [] := fun he => absurd ((expands_zero h).2 he) (by decide)
    refine ⟨63, .rest (by decide) h, fun _ => rfl, ?_⟩
    rw [decide_eq_false hne]
    simp
  | rest hn h =>
    cases h with
    | toEnd m =>
      have hpos : BitVec.ofNat 6 (64 - (m + 1)) ≠ 0 := fun he =>
        absurd ((ofNat_six_eq (n := 0) (by omega) (by decide)).1 he) (by omega)
      exact ⟨0, .rest (Nat.zero_le _) .nil, fun hne => absurd rfl hne, decide_eq_true (.inl ⟨rfl, hpos⟩)⟩
    | @run m _ xs r x hne h =>
      have hempty := expands_zero h
      have hsum : BitVec.ofNat 6 (64 - (r + 1 + m)) + BitVec.ofNat 6 r = BitVec.ofNat 6 (63 - m) := by
        rw [← BitVec.ofNat_add]
        congr 1
        omega
      have hlast : BitVec.ofNat 6 (63 - m) = 63 ↔ ps = [] := by
        rw [← hempty]
        exact (ofNat_six_eq (n := 63) (by omega) (by decide)).trans (by omega)
      refine ⟨m, .rest (by omega) h, fun _ => ?_, ?_⟩
      · rw [← BitVec.ofNat_add]
        congr 1
        omega
      · rw [hsum]
        simp only [hne, false_and, false_or, hlast]

end

/-! ## Runs -/

/-- The half of the buffer that is read. -/
def State.block (s : State) : BitVec 6 → BitVec 12 := s.buffer.mem s.top.quaBufSel

/-- All pairs up to now. -/
def State.asked (s : State) : List (ℕ × ℤ) := s.before ++ codeBlocks 0 s.image

/-- What a run keeps: the phase `p`, the DC coefficient `pred` behind which the block is coded, and the pairs `ws` of the
word that is written in this cycle. -/
structure Inv (s : State) (p : Phase) (pred : ℤ) (ws : List (ℕ × ℤ)) : Prop where
  regs   : s.regs.At s.block p
  adr    : ∀ k z, p = .read k z → s.buffer.readSel = s.top.quaBufSel ∧ s.buffer.readAdr = BitVec.ofNat 6 k
  second : s.regs.second = ws.map wordOf
  words  : s.asked.map wordOf = s.log ++ (ws ++ (s.regs.first ++ p.unread s.block pred)).map wordOf
  sized  : Sized (ws ++ (s.regs.first ++ p.unread s.block pred))
  covers : ∃ n, Covers n (ws ++ (s.regs.first ++ p.unread s.block pred)) ∧
    (ws ++ (s.regs.first ++ p.unread s.block pred) ≠ [] → s.top.wrCnt = BitVec.ofNat 6 (64 - n))
  ready  : s.top.readyPb = true → ws ++ (s.regs.first ++ p.unread s.block pred) = []
  count  : s.starts = s.readies + s.top.readyPb.toNat +
    if ws ++ (s.regs.first ++ p.unread s.block pred) = [] then 0 else 1
  fresh  : p.Fresh → ∃ bs : List Block, s.image = bs ++ [⟨component s.cmpIdx, coefsFrom s.block 0⟩] ∧
    pred = predsAfter 0 bs (component s.cmpIdx) ∧ ∀ c < 3, (s.regs.prevDc c).toInt = predsAfter 0 bs c
  stale  : ¬ p.Fresh → ∀ c < 3, (s.regs.prevDc c).toInt = predsAfter 0 s.image c

section

variable {s : State} {p : Phase} {pred : ℤ} {ws : List (ℕ × ℤ)} {i : Input}

theorem unread_eq_nil {b : BitVec 6 → BitVec 12} {r : Regs} (h : r.At b p) (hnil : p.unread b pred = []) : p = .idle := by
  have hcode : codeBlock pred (coefsFrom b 0) ≠ [] := by
    rw [coefsFrom_of_lt b (by decide)]
    exact List.cons_ne_nil _ _
  match p, h with
  | .idle, _ => rfl
  | .fetch, _ => exact absurd hnil hcode
  | .read 0 z, _ => exact absurd hnil hcode
  | .read (k + 1) z, h =>
    have hexp := RunLengths.encode_expands (m := 16) (by decide) (coefsFrom b (k + 1)) z
    have hempty := (expands_zero hexp).2 hnil
    rw [coefsFrom_of_lt b h.lt, List.length_cons] at hempty
    omega
  | .long k z, _ =>
    rw [Phase.unread] at hnil
    exact absurd (List.append_eq_nil_iff.1 hnil).2 (List.cons_ne_nil _ _)

/-- A start that keeps to the rules finds nothing under way. -/
theorem Inv.answered (h : Inv s p pred ws) (hdone : s.starts = s.readies) :
    p = .idle ∧ ws = [] ∧ s.regs.first = [] ∧ s.top.readyPb = false := by
  have hcount := h.count
  have hready : s.top.readyPb = false := by
    cases hr : s.top.readyPb with
    | false => rfl
    | true =>
      rw [hr, Bool.toNat_true] at hcount
      omega
  rw [hdone, hready, Bool.toNat_false] at hcount
  have hnil : ws ++ (s.regs.first ++ p.unread s.block pred) = [] := by
    by_contra hne
    rw [if_neg hne] at hcount
    omega
  obtain ⟨hws, hrest⟩ := List.append_eq_nil_iff.1 hnil
  obtain ⟨hfirst, hunread⟩ := List.append_eq_nil_iff.1 hrest
  exact ⟨unread_eq_nil h.regs hunread, hws, hfirst, hready⟩

theorem component_lt (c : BitVec 3) : component c < 3 := by
  revert c
  decide

/-- The words of a block in range have a size. -/
theorem sized_codeBlock {coefs : List ℤ} (h : InRange pred coefs) : Sized (codeBlock pred coefs) := by
  intro w hw
  cases coefs with
  | nil => cases hw
  | cons dc acs =>
    rcases List.mem_cons.1 hw with rfl | hw
    · exact ⟨Nat.zero_lt_succ 15, h.1⟩
    · rcases RunLengths.mem_encode (m := 16) (by decide) hw with rfl | rfl | ⟨hr, hx, -⟩
      · exact ⟨by decide, by decide⟩
      · exact ⟨by decide, by decide⟩
      · exact ⟨hr, h.2 _ hx⟩

theorem length_coefsFrom (b : BitVec 6 → BitVec 12) (k : ℕ) : (coefsFrom b k).length = 64 - k := by
  rw [coefsFrom, List.length_map, List.length_range']

theorem covers_codeBlock (b : BitVec 6 → BitVec 12) : Covers 64 (codeBlock pred (coefsFrom b 0)) := by
  rw [coefsFrom_of_lt b (by decide)]
  have hexp := RunLengths.encode_expands (m := 16) (by decide) (coefsFrom b 1) 0
  rw [length_coefsFrom] at hexp
  exact .whole _ hexp

/-- The half that is read is not written. -/
theorem block_step (s : State) (i : Input) (hstart : i.startPb = false) : (s.step i).block = s.block := by
  have hsel : (s.step i).top.quaBufSel = s.top.quaBufSel := by
    show (if i.startPb = true then _ else _) = _
    rw [hstart]
    rfl
  rw [State.block, State.block, hsel]
  show (s.buffer.step s.top.quaBufSel s.regs.rdCnt i.write).mem s.top.quaBufSel = _
  unfold Buffer.step
  cases i.write with
  | none => rfl
  | some w => exact Function.update_of_ne (by cases s.top.quaBufSel <;> decide) _ _

/-- Only the cycle of the first coefficient changes the DC coefficients of a block under way. -/
theorem prevDc_phase {r : Regs} {b : BitVec 6 → BitVec 12} {di : BitVec 12} {j : Ctrl} (h : r.At b p)
    (hfirst : ∀ z, p ≠ .read 0 z) (hsof : j.sof = false) : (r.step di j).prevDc = r.prevDc := by
  refine prevDc_step di hsof ?_
  rintro ⟨hval, hwr⟩
  match p, h with
  | .idle, h => exact absurd (h.divalid.symm.trans hval) (by decide)
  | .fetch, h => exact absurd (h.divalid.symm.trans hval) (by decide)
  | .read 0 z, _ => exact hfirst z rfl
  | .read (k + 1) z, h =>
    rw [h.wrCnt] at hwr
    exact absurd ((ofNat_six_eq (n := 0) h.lt (by decide)).1 hwr) (Nat.succ_ne_zero k)
  | .long k z, h => exact absurd (h.1.divalid.symm.trans hval) (by decide)

theorem asked_sof (s : State) (i : Input) :
    (if i.sof then s.before ++ codeBlocks 0 s.image else s.before) ++ codeBlocks 0 (s.imageAt i) = s.asked := by
  rw [State.imageAt, State.asked]
  cases i.sof
  · rfl
  · exact List.append_nil _

theorem log_step (h : s.regs.second = ws.map wordOf) (i : Input) : (s.step i).log = s.log ++ ws.map wordOf := by
  rw [← h, Regs.second]
  show (if s.regs.dovalid then s.log ++ [s.regs.word] else s.log) = _
  split
  · rfl
  · exact (List.append_nil _).symm

/-- What the DC coefficients of an idle coder are behind a `sof` of this cycle. -/
theorem Inv.preds_sof (h : Inv s .idle pred ws) (i : Input) :
    ∀ c < 3, ((s.regs.step s.buffer.q i.toCtrl).prevDc c).toInt = predsAfter 0 (s.imageAt i) c := by
  intro c hc
  rw [State.imageAt]
  cases hsof : i.sof with
  | true =>
    rw [prevDc_sof s.buffer.q hsof]
    rfl
  | false =>
    rw [prevDc_phase h.regs nofun hsof]
    exact h.stale not_false c hc

theorem Inv.start (h : Inv s p pred ws) (hkeeps : Keeps s i) (hstart : i.startPb = true) :
    Inv (s.step i) .fetch (predsAfter 0 (s.imageAt i) (component i.cmpIdx)) [] := by
  obtain ⟨rfl, rfl, hfirst, hready⟩ := h.answered (hkeeps.waits (.inl hstart))
  obtain ⟨hnext, hfirst'⟩ := Regs.Idle.step h.regs s.buffer.q i.toCtrl
  rw [hstart, if_pos rfl] at hnext
  have hval : s.regs.dovalid = false := by
    have hsecond := h.second
    rw [Regs.second] at hsecond
    cases hv : s.regs.dovalid with
    | false => rfl
    | true => rw [hv] at hsecond; cases hsecond
  have hblock : (s.step i).block = (s.buffer.step s.top.quaBufSel s.regs.rdCnt i.write).mem !s.top.quaBufSel := by
    show (s.buffer.step s.top.quaBufSel s.regs.rdCnt i.write).mem (if i.startPb = true then _ else _) = _
    rw [hstart]
    rfl
  have himage : (s.step i).image = s.imageAt i ++ [s.blockAt i] := by
    show (if i.startPb then _ else _) = _
    rw [hstart]
    rfl
  have hcoefs : (s.blockAt i).coefs = coefsFrom (s.step i).block 0 := by
    rw [hblock]
    rfl
  have hrem : ([] : List (ℕ × ℤ)) ++ ((s.step i).regs.first ++ Phase.fetch.unread (s.step i).block
      (predsAfter 0 (s.imageAt i) (component i.cmpIdx))) =
      codeBlock (predsAfter 0 (s.imageAt i) (component i.cmpIdx)) (coefsFrom (s.step i).block 0) := by
    show [] ++ ((s.regs.step s.buffer.q i.toCtrl).first ++ _) = _
    rw [hfirst']
    rfl
  have hne : codeBlock (predsAfter 0 (s.imageAt i) (component i.cmpIdx)) (coefsFrom (s.step i).block 0) ≠ [] := by
    rw [coefsFrom_of_lt _ (by decide)]
    exact List.cons_ne_nil _ _
  have hlog : (s.step i).log = s.asked.map wordOf := by
    rw [log_step (s := s) (show s.regs.second = List.map wordOf [] from h.second), h.words, hfirst]
    rfl
  have hready' : (s.step i).top.readyPb = false := by
    show (s.regs.dovalid && _) = false
    rw [hval]
    rfl
  refine ⟨hnext, nofun, ?_, ?_, ?_, ?_, ?_, ?_, ?_, ?_⟩
  · show (s.regs.step s.buffer.q i.toCtrl).second = _
    rw [second_step (by rw [hfirst]; exact nofun), hfirst]
  · rw [hrem, hlog, ← List.map_append, ← hcoefs, State.asked, himage, JpegScan.codeBlocks_concat, ← List.append_assoc]
    show ((if i.sof then _ else _) ++ _ ++ _ : List (ℕ × ℤ)).map _ = _
    rw [asked_sof]
    rfl
  · rw [hrem, ← hcoefs]
    exact sized_codeBlock (hkeeps.range hstart)
  · refine ⟨64, by rw [hrem]; exact covers_codeBlock _, fun _ => ?_⟩
    show (if s.regs.dovalid then _ else _) = _
    rw [hval, hstart]
    rfl
  · rw [hready']
    nofun
  · rw [hrem, if_neg hne, hready']
    have hcount := hkeeps.waits (.inl hstart)
    show s.starts + i.startPb.toNat = s.readies + s.top.readyPb.toNat + 0 + 1
    rw [hstart, hready, hcount]
    rfl
  · intro _
    exact ⟨s.imageAt i, by rw [himage, ← hcoefs]; rfl, rfl, h.preds_sof i⟩
  · intro hfresh
    exact absurd trivial hfresh

/-- The answer to what is written in this cycle. -/
theorem Inv.top (h : Inv s p pred ws) (hstart : i.startPb = false) :
    let rem := s.regs.first ++ p.unread s.block pred
    (∃ n, Covers n rem ∧ (rem ≠ [] → (s.step i).top.wrCnt = BitVec.ofNat 6 (64 - n))) ∧
      ((s.step i).top.readyPb = true → rem = []) ∧
      (s.step i).top.readyPb.toNat + (if rem = [] then 0 else 1) = if ws ++ rem = [] then 0 else 1 := by
  intro rem
  obtain ⟨n, hcovers, hwr⟩ := h.covers
  have htop : (s.step i).top = s.top.step s.regs i.startPb := rfl
  have hsecond := h.second
  rw [Regs.second] at hsecond
  cases hval : s.regs.dovalid with
  | false =>
    rw [hval] at hsecond
    obtain rfl : ws = [] := List.map_eq_nil_iff.1 hsecond.symm
    have hready : (s.step i).top.readyPb = false := by
      rw [htop, Top.step, hval]
      rfl
    have hsame : (s.step i).top.wrCnt = s.top.wrCnt := by
      rw [htop, Top.step, hval, hstart]
      rfl
    rw [hready, hsame]
    exact ⟨⟨n, hcovers, hwr⟩, nofun, Nat.zero_add _⟩
  | true =>
    rw [hval, if_pos rfl] at hsecond
    obtain ⟨w, rfl, hword⟩ : ∃ w, ws = [w] ∧ s.regs.word = wordOf w := by
      obtain ⟨w, hw, hword⟩ := List.map_eq_singleton_iff.1 hsecond.symm
      exact ⟨w, hw, hword.symm⟩
    obtain ⟨m, hrest, hcnt, hready⟩ := hcovers.word (t := s.top) i.startPb (h.sized w List.mem_cons_self)
      (hwr (List.cons_ne_nil _ _)) hval hword
    replace hrest : Covers m rem := hrest
    replace hcnt : rem ≠ [] → (s.step i).top.wrCnt = BitVec.ofNat 6 (64 - m) := hcnt
    replace hready : (s.step i).top.readyPb = decide (rem = []) := hready
    refine ⟨⟨m, hrest, hcnt⟩, fun hr => of_decide_eq_true (hready.symm.trans hr), ?_⟩
    rw [hready, if_neg (show ¬ [w] ++ rem = [] from List.cons_ne_nil w rem)]
    by_cases hnil : rem = []
    · rw [if_pos hnil, decide_eq_true hnil]
      rfl
    · rw [if_neg hnil, decide_eq_false hnil]
      rfl

/-- A cycle without a start leaves the DC coefficients of the blocks that have begun. -/
theorem Inv.stale_step (h : Inv s p pred ws) (hkeeps : Keeps s i) (hstart : i.startPb = false)
    (hsof : p ≠ .idle → i.sof = false) (hdi : ∀ k z, p = .read k z → s.buffer.q = s.block (BitVec.ofNat 6 k))
    (hne : p ≠ .fetch) : ∀ c < 3, ((s.step i).regs.prevDc c).toInt = predsAfter 0 (s.step i).image c := by
  have hcmp : i.cmpIdx = s.cmpIdx := hkeeps.cmp.2 hstart
  have himage : p ≠ .idle → (s.step i).image = s.image := fun hne => by
    show (if i.startPb then _ else if i.sof then _ else _) = _
    rw [hstart, hsof hne]
    rfl
  intro c hc
  show ((s.regs.step s.buffer.q i.toCtrl).prevDc c).toInt = _
  match p, h with
  | .idle, h =>
    rw [h.preds_sof i c hc]
    show _ = predsAfter 0 (if i.startPb then _ else _) c
    rw [hstart]
    rfl
  | .fetch, _ => exact absurd rfl hne
  | .read 0 z, h =>
    obtain ⟨bs, hbs, hp, hdc⟩ := h.fresh trivial
    obtain ⟨-, -, hprev⟩ := Regs.Read.dc h.regs s.buffer.q hstart (hsof nofun) hkeeps.cmp.1
    rw [himage nofun, hbs, JpegScan.predsAfter_concat, hprev c hc, hcmp, JpegScan.Block.next]
    by_cases heq : c = component s.cmpIdx
    · subst heq
      rw [Function.update_self, Function.update_self, hdi 0 z rfl, coefsFrom_of_lt _ (by decide)]
      rfl
    · rw [Function.update_of_ne heq, Function.update_of_ne heq, hdc c hc]
  | .read (k + 1) z, h =>
    rw [prevDc_phase h.regs nofun (hsof nofun), himage nofun]
    exact h.stale not_false c hc
  | .long k z, h =>
    rw [prevDc_phase h.regs nofun (hsof nofun), himage nofun]
    exact h.stale not_false c hc

theorem Inv.quiet (h : Inv s p pred ws) (hkeeps : Keeps s i) (hstart : i.startPb = false) :
    ∃ p' : Phase, Inv (s.step i) p' pred s.regs.first ∧ p'.cycles ≤ p.cycles - 1 ∧ (p = .idle → p' = .idle) := by
  have hsof : p ≠ .idle → i.sof = false := fun hne => by
    cases hs : i.sof with
    | false => rfl
    | true => exact absurd (h.answered (hkeeps.waits (.inr hs))).1 hne
  have hdi : ∀ k z, p = .read k z → s.buffer.q = s.block (BitVec.ofNat 6 k) := fun k z hp => by
    obtain ⟨hsel, hadr⟩ := h.adr k z hp
    rw [Buffer.q, hsel, hadr]
    rfl
  have hcmp : i.cmpIdx = s.cmpIdx := hkeeps.cmp.2 hstart
  have hpred : p.Fresh → pred = (s.regs.prevDc (component i.cmpIdx)).toInt := fun hf => by
    obtain ⟨bs, -, hp, hdc⟩ := h.fresh hf
    rw [hcmp, hdc _ (component_lt _), hp]
  obtain ⟨p', hregs, hunread, hcycles, hadr, hfresh, hidle⟩ :=
    h.regs.step hstart hsof hdi hkeeps.cmp.1 hpred
  have hblock := block_step s i hstart
  obtain ⟨hcovers, hready, hcount⟩ := h.top hstart
  have hrem : s.regs.first ++ ((s.step i).regs.first ++ p'.unread (s.step i).block pred) =
      s.regs.first ++ p.unread s.block pred := by
    rw [hblock, hunread]
    rfl
  have hasked : (s.step i).asked = s.asked := by
    have himage : (s.step i).image = s.imageAt i := by
      show (if i.startPb then _ else _) = _
      rw [hstart]
      rfl
    rw [State.asked, himage]
    exact asked_sof s i
  have himage : p ≠ .idle → (s.step i).image = s.image := fun hne => by
    show (if i.startPb then _ else if i.sof then _ else _) = _
    rw [hstart, hsof hne]
    rfl
  refine ⟨p', ⟨hblock ▸ hregs, ?_, ?_, ?_, ?_, ?_, ?_, ?_, ?_, ?_⟩, hcycles, hidle⟩
  · intro k z hp
    have hsel : (s.step i).top.quaBufSel = s.top.quaBufSel := by
      show (if i.startPb = true then _ else _) = _
      rw [hstart]
      rfl
    exact ⟨hsel.symm, hadr k z hp⟩
  · refine second_step ?_ _ _
    exact fun w hw => h.sized w (List.mem_append_right _ (List.mem_append_left _ hw))
  · rw [hrem, hasked, h.words, log_step h.second, List.map_append, List.append_assoc]
  · rw [hrem]
    exact fun w hw => h.sized w (List.mem_append_right _ hw)
  · rw [hrem]
    exact hcovers
  · rw [hrem]
    exact hready
  · rw [hrem]
    show s.starts + i.startPb.toNat = s.readies + s.top.readyPb.toNat + (s.step i).top.readyPb.toNat + _
    rw [hstart, h.count, ← hcount, Bool.toNat_false]
    omega
  · intro hf
    obtain rfl := hfresh.1 hf
    obtain ⟨bs, hbs, hp, hdc⟩ := h.fresh trivial
    refine ⟨bs, ?_, ?_, ?_⟩
    · rw [himage nofun, hblock, hbs]
      show _ = bs ++ [⟨component i.cmpIdx, _⟩]
      rw [hcmp]
    · show pred = predsAfter 0 bs (component i.cmpIdx)
      rw [hcmp, hp]
    · show ∀ c < 3, ((s.regs.step s.buffer.q i.toCtrl).prevDc c).toInt = _
      rw [prevDc_phase h.regs nofun (hsof nofun)]
      exact hdc
  · exact fun hf => h.stale_step hkeeps hstart hsof hdi fun hp => hf (hfresh.2 hp)

end

theorem inv_reset (buffer : Buffer) : Inv (.reset buffer) .idle 0 [] where
  regs   := ⟨rfl, rfl, rfl⟩
  adr    := nofun
  second := rfl
  words  := rfl
  sized  := nofun
  covers := ⟨0, .rest (Nat.zero_le 63) .nil, fun h => absurd rfl h⟩
  ready  := nofun
  count  := rfl
  fresh  := nofun
  stale  := by
    intro _ c _
    match c with
    | 0 => rfl
    | 1 => rfl
    | _ + 2 => rfl

theorem Inv.step {s : State} {i : Input} (h : ∃ p pred ws, Inv s p pred ws) (hkeeps : Keeps s i) :
    ∃ p pred ws, Inv (s.step i) p pred ws := by
  obtain ⟨p, pred, ws, h⟩ := h
  cases hstart : i.startPb with
  | true => exact ⟨_, _, _, h.start hkeeps hstart⟩
  | false =>
    obtain ⟨p', h', -, -⟩ := h.quiet hkeeps hstart
    exact ⟨p', pred, _, h'⟩

/-- The cycles until the coder is idle. -/
theorem Inv.drains : ∀ {is : List Input} {s : State} {p : Phase} {pred : ℤ} {ws : List (ℕ × ℤ)}, Inv s p pred ws →
    AllSteps State.step Keeps s is → (∀ i ∈ is, i.startPb = false) →
      ∃ (p' : Phase) (ws' : List (ℕ × ℤ)), Inv (is.foldl State.step s) p' pred ws' ∧ p'.cycles ≤ p.cycles - is.length
  | [], _, p, _, ws, h, _, _ => ⟨p, ws, h, Nat.le_refl _⟩
  | i :: is, s, p, _, _, h, hkeeps, hquiet => by
    obtain ⟨p', h', hcycles, -⟩ := h.quiet hkeeps.1 (hquiet i List.mem_cons_self)
    obtain ⟨p'', ws'', h'', hcycles'⟩ := h'.drains hkeeps.2 fun j hj => hquiet j (List.mem_cons_of_mem _ hj)
    exact ⟨p'', ws'', h'', by rw [List.length_cons]; omega⟩

theorem cycles_le {r : Regs} {b : BitVec 6 → BitVec 12} {p : Phase} (h : r.At b p) : p.cycles ≤ 69 := by
  match p, h with
  | .idle, _ => exact Nat.zero_le 69
  | .fetch, _ => exact Nat.le_refl 69
  | .read k z, h =>
    have hlt := h.lt
    have hzeros := h.zeros
    rw [Phase.cycles]
    omega
  | .long k z, h =>
    have hlt := h.1.lt
    have hzeros := h.1.zeros
    rw [Phase.cycles]
    omega

theorem idle_of_cycles {r : Regs} {b : BitVec 6 → BitVec 12} {p : Phase} (h : r.At b p) (hdone : p.cycles = 0) :
    p = .idle := by
  match p, h with
  | .idle, _ => rfl
  | .fetch, _ => cases hdone
  | .read k z, h =>
    have hlt := h.lt
    rw [Phase.cycles] at hdone
    omega
  | .long k z, h =>
    have hlt := h.1.lt
    rw [Phase.cycles] at hdone
    omega

/-- An idle coder has answered three cycles later: for what is found, what is written, and the answer. -/
theorem Inv.flushes {s : State} {pred : ℤ} {ws : List (ℕ × ℤ)} {i j k : Input} (h : Inv s .idle pred ws)
    (hkeeps : AllSteps State.step Keeps s [i, j, k]) (hquiet : ∀ l ∈ [i, j, k], l.startPb = false) :
    ([i, j, k].foldl State.step s).starts = ([i, j, k].foldl State.step s).readies := by
  obtain ⟨hi, hj, hk, -⟩ := hkeeps
  simp only [List.forall_mem_cons] at hquiet
  obtain ⟨hqi, hqj, hqk, -⟩ := hquiet
  obtain ⟨p1, h1, -, hidle1⟩ := h.quiet hi hqi
  obtain rfl := hidle1 rfl
  have hfirst : (s.step i).regs.first = [] := (Regs.Idle.step h.regs s.buffer.q i.toCtrl).2
  obtain ⟨p2, h2, -, hidle2⟩ := h1.quiet hj hqj
  obtain rfl := hidle2 rfl
  rw [hfirst] at h2
  have hfirst2 : ((s.step i).step j).regs.first = [] :=
    (Regs.Idle.step h1.regs (s.step i).buffer.q j.toCtrl).2
  have hcount := h2.count
  rw [hfirst2] at hcount
  show ((s.step i).step j).starts + k.startPb.toNat = ((s.step i).step j).readies + ((s.step i).step j).top.readyPb.toNat
  rw [hqk, hcount]
  rfl

/-- The word of this cycle goes on with the code of the blocks. -/
theorem Inv.offers {s : State} {p : Phase} {pred : ℤ} {ws : List (ℕ × ℤ)} (h : Inv s p pred ws) :
    s.log ++ s.regs.second <+: s.asked.map wordOf := by
  rw [h.words, h.second, List.map_append, ← List.append_assoc]
  exact List.prefix_append _ _

theorem Inv.coded {s : State} {p : Phase} {pred : ℤ} {ws : List (ℕ × ℤ)} (h : Inv s p pred ws) :
    s.log <+: s.asked.map wordOf ∧ s.readies ≤ s.starts ∧ s.starts ≤ s.readies + 1 ∧
      (s.starts = s.readies → s.log = s.asked.map wordOf) ∧
      ∀ more : List Input, AllSteps State.step Keeps s more → (∀ i ∈ more, i.startPb = false) → 72 ≤ more.length →
        (more.foldl State.step s).starts = (more.foldl State.step s).readies := by
  have hcount := h.count
  refine ⟨?_, ?_, ?_, ?_, ?_⟩
  · exact ⟨_, h.words.symm⟩
  · exact Nat.le_trans (Nat.le_add_right _ _) (Nat.le_trans (Nat.le_add_right _ _) hcount.ge)
  · cases hr : s.top.readyPb with
    | false =>
      rw [hr, Bool.toNat_false] at hcount
      refine Nat.le_trans hcount.le (Nat.add_le_add_left ?_ _)
      split
      · exact Nat.zero_le 1
      · exact Nat.le_refl 1
    | true =>
      rw [hr, if_pos (h.ready hr), Bool.toNat_true] at hcount
      exact hcount.le
  · intro hdone
    obtain ⟨rfl, rfl, hfirst, -⟩ := h.answered hdone
    have hwords := h.words
    rw [hfirst] at hwords
    rw [← List.append_nil s.log]
    exact hwords.symm
  · intro more hmore hquiet hlen
    obtain ⟨i, j, k, hsplit⟩ : ∃ i j k, more.drop (more.length - 3) = [i, j, k] :=
      List.length_eq_three.1 (by rw [List.length_drop]; omega)
    have hmore' := List.take_append_drop (more.length - 3) more
    rw [hsplit] at hmore'
    rw [← hmore', Runs.allSteps_append] at hmore
    obtain ⟨p', ws', h', hcycles⟩ := h.drains hmore.1 fun l hl => hquiet l (List.mem_of_mem_take hl)
    obtain rfl : p' = .idle := by
      refine idle_of_cycles h'.regs ?_
      have hle := cycles_le h.regs
      rw [List.length_take, Nat.min_eq_left (Nat.sub_le _ _)] at hcycles
      omega
    rw [← hmore', List.foldl_append]
    exact h'.flushes hmore.2 fun l hl => hquiet l (List.mem_of_mem_drop (hsplit ▸ hl))

/-- **The coder codes its blocks**: along a run that keeps to the rules, a start waits for one answer at most; what is
written is the beginning of the code of the blocks, and all of it when the last start is answered; and 72 cycles without
a start are enough for the answer. -/
theorem blocks_coded (buffer : Buffer) (is : List Input) (hkeeps : AllSteps State.step Keeps (.reset buffer) is) :
    let s := is.foldl State.step (.reset buffer)
    s.log <+: (s.before ++ codeBlocks 0 s.image).map wordOf ∧ s.readies ≤ s.starts ∧ s.starts ≤ s.readies + 1 ∧
      (s.starts = s.readies → s.log = (s.before ++ codeBlocks 0 s.image).map wordOf) ∧
      ∀ more : List Input, AllSteps State.step Keeps s more → (∀ i ∈ more, i.startPb = false) → 72 ≤ more.length →
        (more.foldl State.step s).starts = (more.foldl State.step s).readies := by
  have hstep : ∀ s i, (∃ p pred ws, Inv s p pred ws) → Keeps s i → True ∧ ∃ p pred ws, Inv (s.step i) p pred ws :=
    fun _ _ h hk => ⟨trivial, Inv.step h hk⟩
  have hall := (hkeeps.inv hstep ⟨_, _, _, inv_reset buffer⟩).2
  obtain ⟨p, pred, ws, h⟩ := (Runs.allStates_iff_prefix _ is _).1 hall is (List.prefix_refl is)
  exact h.coded

/-- A block with the DC coefficient 12 and -3 behind twenty zeros, beside a half of ones: a word for sixteen of the zeros,
one for the value and the end of the block, which is answered. -/
theorem blocks_coded_dc :
    let buffer : Buffer := ⟨fun h k => if h then if k = 0 then 12 else if k = 21 then -3 else 0 else 1, false, 0⟩
    let quiet : Input := ⟨⟨false, false, 1⟩, none⟩
    let s := (⟨⟨true, true, 1⟩, none⟩ :: List.replicate 72 quiet).foldl State.step (.reset buffer)
    s.log = [⟨0, 4, 12⟩, ⟨15, 0, 0⟩, ⟨4, 2, -4⟩, ⟨0, 0, 0⟩] ∧ s.starts = s.readies ∧
      s.log = (s.before ++ codeBlocks 0 s.image).map wordOf := by
  intro buffer quiet s
  have hdone : s.starts = s.readies := by decide +kernel
  exact ⟨by decide +kernel, hdone, (blocks_coded buffer _ (by decide +kernel)).2.2.2.1 hdone⟩

end Rle
end Hdmi2Usb
