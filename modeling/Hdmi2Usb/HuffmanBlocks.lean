import Hdmi2Usb.HuffmanBits
import Hdmi2Usb.Runs
/-!
# HuffmanBlocks — the bytes of the Huffman encoder are the code words of its blocks

The encoder with the RLE FIFO, run by starts that each wait for the answer to the last one and find the words of a block
in the half that is filled.  Between a start and its answer the bits that are not written yet are in the register or
still to be appended (`Regs.unwritten`), and the phases of the encoder move them on; so the bytes that are written are
the bits of the code words in their order (`bytes_coded`).
-/
namespace Hdmi2Usb
namespace Huffman

open JpegFifo (RleDoubleFifo)
open Runs (AllSteps)

structure Input extends Ctrl where
  wren : Bool
  data : Rle.Word

/-- The encoder with the RLE FIFO, what it has written and answered, and what its starts have asked for: the words that
are filled in for the next block, the number of the blocks of the image, and the bits of all blocks. -/
structure State where
  regs    : Regs
  fifo    : RleDoubleFifo
  log     : List Byte
  readies : ℕ
  starts  : ℕ
  cmpIdx  : BitVec 3
  imgSize : BitVec 16 × BitVec 16
  filling : List Rle.Word
  blocks  : ℕ
  bits    : List Bool

/-- The ones behind `n` bits that fill up the last byte. -/
def ones (n : ℕ) : List Bool := List.replicate ((8 - n % 8) % 8) true

/-- The blocks of an image: one for every 32 pixels. -/
def blockTotal (imgSize : BitVec 16 × BitVec 16) : ℕ := imgSize.1.toNat * imgSize.2.toNat / 32

/-- The bits behind a block; behind the last one of the image they are filled up. -/
def withBlock (bits code : List Bool) (last : Bool) : List Bool :=
  bits ++ code ++ if last then ones (bits ++ code).length else []

/-- The whole bytes among the bits; a new image drops what is behind them. -/
def wholeBytes (bits : List Bool) : List Bool := bits.take (8 * (bits.length / 8))

def State.step (s : State) (i : Input) : State where
  regs    := s.regs.step (s.fifo.dataOut s.regs.rleBufSel) (s.fifo.fifoEmpty s.regs.rleBufSel) i.toCtrl
  fifo    := s.fifo.step s.regs.rleBufSel i.wren i.data s.regs.rdEn
  log     := if s.regs.fifoWren then s.log ++ [s.regs.fifoWbyte] else s.log
  readies := s.readies + s.regs.readyPb.toNat
  starts  := s.starts + i.startPb.toNat
  cmpIdx  := i.cmpIdx
  imgSize := (i.imgSizeX, i.imgSizeY)
  filling := if i.startPb then [] else s.filling ++ if i.wren then [i.data] else []
  blocks  := if i.sof then 0 else if i.startPb then s.blocks + 1 else s.blocks
  bits    :=
    if i.startPb then
      withBlock s.bits (codeBits i.cmpIdx true s.filling) (decide (s.blocks + 1 = blockTotal (i.imgSizeX, i.imgSizeY)))
    else if i.sof then wholeBytes s.bits
    else s.bits

/-- After a reset, with anything in the RAMs of the FIFO. -/
def State.reset (mem : Bool → BitVec 6 → Rle.Word) (readAddr : Bool → BitVec 6) : State where
  regs    := .reset
  fifo    := ⟨⟨fun b => .reset (mem b) (readAddr b), fun _ => false, ⟨0, 0, 0⟩⟩⟩
  log     := []
  readies := 0
  starts  := 0
  cmpIdx  := 0
  imgSize := (0, 0)
  filling := []
  blocks  := 0
  bits    := []

/-- What the other side keeps to: a start of a block or of an image waits for the answer to the last start, and the two do
not come together; a block has 1 to 64 words, the last of them written two cycles before its start; the component changes
only at a start, and the size of the image only while no block is under way; an image has fewer than 2²⁸ blocks. -/
structure Keeps (s : State) (i : Input) : Prop where
  waits  : i.startPb = true ∨ i.sof = true → s.starts = s.readies
  apart  : i.sof = true → i.startPb = false
  cmp    : i.startPb = false → i.cmpIdx = s.cmpIdx
  size   : s.starts ≠ s.readies → (i.imgSizeX, i.imgSizeY) = s.imgSize
  filled : i.startPb = true → s.filling ≠ [] ∧ i.wren = false ∧ s.fifo.halves.fifoWr s.regs.rleBufSel = false
  room   : s.filling.length + i.wren.toNat ≤ 64
  count  : i.startPb = true → s.blocks + 1 < 2 ^ 28

instance (s : State) (i : Input) : Decidable (Keeps s i) :=
  decidable_of_iff
    ((i.startPb = true ∨ i.sof = true → s.starts = s.readies) ∧ (i.sof = true → i.startPb = false) ∧
      (i.startPb = false → i.cmpIdx = s.cmpIdx) ∧ (s.starts ≠ s.readies → (i.imgSizeX, i.imgSizeY) = s.imgSize) ∧
      (i.startPb = true → s.filling ≠ [] ∧ i.wren = false ∧ s.fifo.halves.fifoWr s.regs.rleBufSel = false) ∧
      s.filling.length + i.wren.toNat ≤ 64 ∧ (i.startPb = true → s.blocks + 1 < 2 ^ 28))
    ⟨fun h => ⟨h.1, h.2.1, h.2.2.1, h.2.2.2.1, h.2.2.2.2.1, h.2.2.2.2.2.1, h.2.2.2.2.2.2⟩,
      fun h => ⟨h.waits, h.apart, h.cmp, h.size, h.filled, h.room, h.count⟩⟩

/-! ## The phases of a block -/

inductive Phase
  | idle
  | start (w : Rle.Word) (ws : List Rle.Word)
  | fetch (w : Rle.Word) (ws : List Rle.Word)
  | vlc (first : Bool) (w : Rle.Word) (ws : List Rle.Word)
  | vlcOut (first : Bool) (w : Rle.Word) (ws : List Rle.Word) (n : ℕ)
  | vli (w : Rle.Word) (ws : List Rle.Word)
  | vliOut (ws : List Rle.Word) (n : ℕ)
  | pad
  | padOut

/-- What is left in the FIFO. -/
def Phase.reading : Phase → List Rle.Word
  | .start w ws     => w :: ws
  | .fetch w ws     => w :: ws
  | .vlc first w ws => if first then ws else w :: ws
  | .vlcOut _ _ ws _ | .vli _ ws | .vliOut ws _ => ws
  | .idle | .pad | .padOut => []

/-- The bits of the block are not all appended. -/
def Phase.Open : Phase → Bool
  | .idle | .pad | .padOut => false
  | _                      => true

/-- The cycles that are left at most: six for a word, and two for the last byte. -/
def Phase.cycles : Phase → ℕ
  | .idle            => 0
  | .start _ ws      => 10 + 6 * ws.length
  | .fetch _ ws      => 9 + 6 * ws.length
  | .vlc _ _ ws      => 8 + 6 * ws.length
  | .vlcOut _ _ ws n => 7 - n + 6 * ws.length
  | .vli _ ws        => 5 + 6 * ws.length
  | .vliOut ws n     => 4 - n + 6 * ws.length
  | .pad             => 2
  | .padOut          => 1

/-- The phases that look at the word at the output of the FIFO. -/
def Phase.Looks : Phase → Bool
  | .idle | .vlc true _ _ | .vlcOut _ _ _ _ => false
  | _                                       => true

/-- The output of the FIFO. -/
def Phase.Sees (p : Phase) (q : Rle.Word) (e : Bool) : Prop :=
  p.Looks → e = decide (p.reading = []) ∧ ∀ w ∈ p.reading.head?, q = w

section

variable (r : Regs)

structure Regs.Is (state : VlpState) (first rdEn startPbD1 : Bool) : Prop where
  state        : r.state = state
  firstRleWord : r.firstRleWord = first
  rdEn         : r.rdEn = rdEn
  startPbD1    : r.startPbD1 = startPbD1

/-- No bytes are written. -/
structure Regs.Rest : Prop where
  hfwRunning : r.hfwRunning = false
  fifoWrtCnt : r.fifoWrtCnt = 0
  padReg     : r.padReg = false
  bitPtr     : r.bitPtr.toNat < 8

/-- The byte `n` of the register is written, if there is one. -/
structure Regs.Out (n : ℕ) : Prop where
  hfwRunning : r.hfwRunning = true
  readyHfw   : r.readyHfw = false
  fifoWrtCnt : r.fifoWrtCnt = BitVec.ofNat 2 n
  padReg     : r.padReg = false
  bitPtr     : r.bitPtr.toNat < 24
  le         : 8 * (n + 1) ≤ r.bitPtr.toNat ∨ (n = 0 ∧ r.bitPtr.toNat < 8)

/-- The ROMs have read the word. -/
structure Regs.Roms (w : Rle.Word) : Prop where
  vlcDc   : r.vlcDc = dcRom w.size
  vlcAc   : r.vlcAc = acRom w.runlength w.size
  vlcCrDc : r.vlcCrDc = dcCrRom w.size
  vlcCrAc : r.vlcCrAc = acCrRom w.runlength w.size

structure Regs.PadOut : Prop where
  hfwRunning : r.hfwRunning = true
  readyHfw   : r.readyHfw = false
  fifoWrtCnt : r.fifoWrtCnt = 0
  padReg     : r.padReg = true
  bitPtr     : r.bitPtr = 8

def Regs.At (cmpIdx : BitVec 3) : Phase → Prop
  | .idle             => r.Is .idle false false false ∧ r.Rest
  | .start _ _        => r.Is .runVlc true false true ∧ r.Rest ∧ r.dValD1 = false
  | .fetch w _        => r.Is .runVlc true true false ∧ r.Rest ∧ r.dValD1 = false ∧ r.Roms w
  | .vlc first w _    => r.Is .runVlc first (!first) false ∧ r.Rest ∧ (r.vlcSize, r.vlc) = vlcOf cmpIdx first w ∧
    (first → r.dValD1 = true ∧ r.vliSizeR = w.size ∧ r.vliR = w.amplitude)
  | .vlcOut first w _ n => r.Is .runVlc first false false ∧ r.Out n ∧ (first → r.dValD1 = false) ∧
    r.vliSizeR = w.size ∧ r.vliR = w.amplitude
  | .vli w _          => r.Is .runVli false false false ∧ r.Rest ∧ r.vliSizeD1 = w.size ∧ r.vliD1 = w.amplitude
  | .vliOut ws n      => r.Is .runVli false false false ∧ r.Out n ∧ ∀ w ∈ ws.head?, r.Roms w
  | .pad              => r.Is .pad false false false ∧ r.Rest ∧ 0 < r.bitPtr.toNat
  | .padOut           => r.Is .pad false false false ∧ r.PadOut

/-- The bits in the register. -/
def Regs.held : List Bool := Huffman.held r.wordReg r.bitPtr.toNat

/-- The bits that are written in this cycle. -/
def Regs.out : List Bool := if r.fifoWren then byteBits r.fifoWbyte else []

/-- The bits that are not written yet. -/
def Regs.unwritten (cmpIdx : BitVec 3) : Phase → List Bool
  | .idle            => r.held
  | .start w ws      => r.held ++ codeBits cmpIdx true (w :: ws)
  | .fetch w ws      => r.held ++ codeBits cmpIdx true (w :: ws)
  | .vlc first w ws  => r.held ++ codeBits cmpIdx first (w :: ws)
  | .vlcOut _ w ws n => r.held.drop (8 * n) ++ (vliBits w ++ codeBits cmpIdx false ws)
  | .vli w ws        => r.held ++ (vliBits w ++ codeBits cmpIdx false ws)
  | .vliOut ws n     => r.held.drop (8 * n) ++ codeBits cmpIdx false ws
  | .pad             => r.held ++ ones r.bitPtr.toNat
  | .padOut          => byteBits r.padByte

end

/-! ## The writes -/

section

variable {r : Regs} {n : ℕ} {q : Rle.Word} {e : Bool} {i : Ctrl}

theorem hfw_rest (h : r.Rest) (e : Bool) (i : Ctrl) :
    (r.hfw e i).fifoWren = false ∧ (r.hfw e i).fifoWrtCnt = 0 ∧ (r.hfw e i).readyHfw = false ∧
      (r.hfw e i).rdEn = (r.startPbD1 && !e) ∧ (r.hfw e i).startPbD1 = i.startPb := by
  simp only [Regs.hfw, h.hfwRunning, Bool.false_eq_true, false_and, if_false]
  cases r.startPbD1
  · exact ⟨rfl, h.fifoWrtCnt, rfl, rfl, rfl⟩
  · exact ⟨rfl, h.fifoWrtCnt, rfl, rfl, rfl⟩

theorem numFifoWrs_eq (r : Regs) : r.numFifoWrs = BitVec.ofNat 2 (r.bitPtr.toNat / 8) := by
  rw [← toNat_numFifoWrs, BitVec.ofNat_toNat, BitVec.setWidth_eq]

theorem ofNat_two_eq {j k : ℕ} (hj : j < 4) (hk : k < 4) : BitVec.ofNat 2 j = BitVec.ofNat 2 k ↔ j = k := by
  constructor
  · intro h
    have hval := congrArg BitVec.toNat h
    rwa [BitVec.toNat_ofNat, BitVec.toNat_ofNat, Nat.mod_eq_of_lt hj, Nat.mod_eq_of_lt hk] at hval
  · rintro rfl
    rfl

theorem Regs.Out.lt (h : r.Out n) : n < 2 := by
  have hbit := h.bitPtr
  have hle := h.le
  omega

theorem Regs.Out.none_iff (h : r.Out n) : r.numFifoWrs = 0 ↔ r.bitPtr.toNat < 8 := by
  have hbit := h.bitPtr
  rw [numFifoWrs_eq]
  refine (ofNat_two_eq (k := 0) (by omega) (by decide)).trans ?_
  omega

theorem Regs.Out.last_iff (h : r.Out n) : r.fifoWrtCnt + 1 = r.numFifoWrs ↔ 8 * (n + 1) ≤ r.bitPtr.toNat ∧
    r.bitPtr.toNat < 8 * (n + 2) := by
  have hbit := h.bitPtr
  have hlt := h.lt
  have hle := h.le
  have hsucc : BitVec.ofNat 2 n + 1 = BitVec.ofNat 2 (n + 1) := by
    rw [BitVec.ofNat_add]
    rfl
  rw [h.fifoWrtCnt, hsucc, numFifoWrs_eq, ofNat_two_eq (by omega) (by omega)]
  omega

theorem Regs.Out.written_iff (h : r.Out n) : r.Written ↔ r.bitPtr.toNat < 8 * (n + 2) := by
  rw [Regs.Written, h.hfwRunning, h.none_iff, h.last_iff]
  have hle := h.le
  simp only [true_and]
  omega

/-- What a cycle of writes does. -/
theorem Regs.Out.hfw (h : r.Out n) (hpb : r.startPbD1 = false) (e : Bool) (i : Ctrl) :
    (r.hfw e i).fifoWren = decide (8 ≤ r.bitPtr.toNat) ∧
      (r.hfw e i).fifoWrtCnt = (if r.bitPtr.toNat < 8 * (n + 2) then 0 else BitVec.ofNat 2 (n + 1)) ∧
      (r.hfw e i).readyHfw = decide (r.bitPtr.toNat < 8 * (n + 2)) ∧
      (r.hfw e i).rdEn = (decide (r.bitPtr.toNat < 8 * (n + 2) ∧ r.state = .runVli) && !e) ∧
      (r.hfw e i).startPbD1 = i.startPb := by
  have hrun : r.hfwRunning = true ∧ ¬ r.readyHfw = true := ⟨h.hfwRunning, by rw [h.readyHfw]; decide⟩
  have hle := h.le
  simp only [Regs.hfw, if_pos hrun, hpb, Bool.false_eq_true, if_false]
  by_cases hnone : r.bitPtr.toNat < 8
  · have hzero : n = 0 := by omega
    have hlast : r.bitPtr.toNat < 8 * (n + 2) := by omega
    rw [if_pos (h.none_iff.2 hnone), decide_eq_false (by omega), if_pos hlast, decide_eq_true hlast]
    refine ⟨rfl, ?_, rfl, ?_, rfl⟩
    · rw [h.fifoWrtCnt, hzero]
      rfl
    · by_cases hstate : r.state = .runVli
      · rw [if_pos hstate, decide_eq_true ⟨hlast, hstate⟩, Bool.true_and]
      · rw [if_neg hstate, decide_eq_false fun hc => hstate hc.2, Bool.false_and]
  · rw [if_neg fun hc => hnone (h.none_iff.1 hc), decide_eq_true (by omega)]
    by_cases hlast : r.bitPtr.toNat < 8 * (n + 2)
    · rw [if_pos (h.last_iff.2 ⟨by omega, hlast⟩), if_pos hlast, decide_eq_true hlast]
      refine ⟨rfl, rfl, rfl, ?_, rfl⟩
      by_cases hstate : r.state = .runVli
      · rw [if_pos hstate, decide_eq_true ⟨hlast, hstate⟩, Bool.true_and]
      · rw [if_neg hstate, decide_eq_false fun hc => hstate hc.2, Bool.false_and]
    · rw [if_neg fun hc => hlast (h.last_iff.1 hc).2, if_neg hlast, decide_eq_false hlast,
        decide_eq_false fun hc => hlast hc.1, Bool.false_and]
      refine ⟨rfl, ?_, rfl, rfl, rfl⟩
      rw [h.fifoWrtCnt, BitVec.ofNat_add]
      rfl

theorem Regs.Out.wbyte (h : r.Out n) (e : Bool) (i : Ctrl) :
    (r.hfw e i).fifoWbyte = r.wordReg.extractLsb' (15 - 8 * n) 8 := by
  have hlt := h.lt
  simp only [Regs.hfw, h.padReg, Bool.false_eq_true, if_false, h.fifoWrtCnt]
  rcases (show n = 0 ∨ n = 1 by omega) with rfl | rfl
  · rfl
  · rfl

/-- The bits that a cycle of writes puts out, and those that are left behind it. -/
theorem Regs.Out.out (h : r.Out n) (hpb : r.startPbD1 = false) (q : Rle.Word) (e : Bool) (i : Ctrl) :
    (r.step q e i).out ++ r.held.drop (if r.bitPtr.toNat < 8 then 0 else 8 * (n + 1)) = r.held.drop (8 * n) := by
  have hbit := h.bitPtr
  have hle := h.le
  show (if (r.hfw e i).fifoWren then byteBits (r.hfw e i).fifoWbyte else []) ++ _ = _
  rw [h.wbyte, (h.hfw hpb e i).1]
  by_cases hnone : r.bitPtr.toNat < 8
  · have hzero : n = 0 := by omega
    rw [decide_eq_false (by omega), if_pos hnone, hzero]
    rfl
  · have hfit : 8 * (n + 1) ≤ r.bitPtr.toNat := by omega
    rw [decide_eq_true (by omega), if_pos rfl, if_neg hnone, byteBits_extract _ (by omega) hfit, Nat.mul_succ,
      ← List.drop_drop]
    exact List.take_append_drop _ _

/-- The last cycle of writes leaves less than a byte. -/
theorem Regs.Out.shifted (h : r.Out n) (hpb : r.startPbD1 = false) (hlast : r.bitPtr.toNat < 8 * (n + 2)) (q : Rle.Word)
    (e : Bool) (i : Ctrl) :
    (r.step q e i).out ++ Huffman.held (r.wordReg <<< r.writtenBits.toNat) (r.bitPtr - r.writtenBits).toNat =
      r.held.drop (8 * n) := by
  have hbit := h.bitPtr
  have hle := h.le
  rw [← h.out hpb q e i, toNat_sub_writtenBits, toNat_writtenBits]
  congr 1
  have hmod : r.bitPtr.toNat % 8 = r.bitPtr.toNat - 8 * (r.bitPtr.toNat / 8) := by omega
  rw [hmod, held_shiftLeft _ (by omega) (by omega)]
  congr 1
  split
  · omega
  · omega

end

/-! ## The steps of a block -/

/-- What a cycle of a block does: it puts out the first of the bits that are left, and what fills up the last byte comes to
them when the last word of the last block is done. -/
structure Regs.Move (r r' : Regs) (cmpIdx : BitVec 3) (p p' : Phase) : Prop where
  phase   : r'.At cmpIdx p'
  bits    : r'.out ++ r'.unwritten cmpIdx p' = r.unwritten cmpIdx p ++
    if p.Open ∧ ¬ p'.Open ∧ r.lastBlock then ones (r.unwritten cmpIdx p).length else []
  reading : p'.reading = if r.rdEn then p.reading.tail else p.reading
  looks   : p'.Looks → r.rdEn = false
  ready   : r'.readyPb = true ↔ p' = .idle
  cycles  : p'.cycles < p.cycles
  closed  : p.Open = false → p'.Open = false

section

variable {r : Regs} {c : BitVec 3} {w q : Rle.Word} {ws : List Rle.Word} {n : ℕ} {first e : Bool} {i : Ctrl}

theorem out_rest (h : r.Rest) (q : Rle.Word) (e : Bool) (i : Ctrl) : (r.step q e i).out = [] := by
  show (if (r.hfw e i).fifoWren then _ else _) = _
  rw [(hfw_rest h e i).1]
  rfl

/-- The registers of `p_vlp` in a cycle of waiting. -/
theorem vlp_wait (hstate : r.state = .runVlc) (hfirst : r.firstRleWord = true) (hval : r.dValD1 = false)
    (hrun : r.hfwRunning = false) (hsof : i.sof = false) (e : Bool) :
    r.vlp e i = { r.toVlp with state := .runVlc, firstRleWord := true, readyPb := false } := by
  have hno : ¬ ((r.dValD1 = true ∧ r.firstRleWord = true) ∨ (r.rdEn = true ∧ ¬ r.firstRleWord = true)) := by
    rw [hval, hfirst]
    simp
  have hwritten : ¬ r.Written := fun hc => by
    rw [Regs.Written, hrun] at hc
    exact Bool.false_ne_true hc.1
  rw [← hfirst]
  simp only [Regs.vlp, hstate, if_neg hno, if_neg hwritten, hsof, Bool.false_eq_true, if_false]

/-- The block goes on: nothing is filled up. -/
theorem bits_open {r r' : Regs} {p p' : Phase} (hopen : p'.Open = true)
    (h : r'.out ++ r'.unwritten c p' = r.unwritten c p) :
    r'.out ++ r'.unwritten c p' = r.unwritten c p ++
      if p.Open ∧ ¬ p'.Open ∧ r.lastBlock then ones (r.unwritten c p).length else [] := by
  rw [h, if_neg fun hc => hc.2.1 hopen, List.append_nil]

/-- The registers behind a cycle, by what the two processes make of them. -/
theorem is_step {v : Vlp} {rd : Bool} (q : Rle.Word) (hvlp : r.vlp e i = v) (hrd : (r.hfw e i).rdEn = rd)
    (hpb : (r.hfw e i).startPbD1 = false) : (r.step q e i).Is v.state v.firstRleWord rd false := by
  rw [← hvlp]
  exact ⟨rfl, rfl, hrd, hpb⟩

theorem rest_step {v : Vlp} (q : Rle.Word) (hvlp : r.vlp e i = v) (hcnt : (r.hfw e i).fifoWrtCnt = 0)
    (hrun : v.hfwRunning = false) (hpad : v.padReg = false) (hbit : v.bitPtr.toNat < 8) : (r.step q e i).Rest := by
  rw [← hvlp] at hrun hpad hbit
  exact ⟨hrun, hcnt, hpad, hbit⟩

theorem out_step {v : Vlp} (q : Rle.Word) (hvlp : r.vlp e i = v) (hready : (r.hfw e i).readyHfw = false)
    (hcnt : (r.hfw e i).fifoWrtCnt = BitVec.ofNat 2 n) (hrun : v.hfwRunning = true) (hpad : v.padReg = false)
    (hbit : v.bitPtr.toNat < 24) (hle : 8 * (n + 1) ≤ v.bitPtr.toNat ∨ (n = 0 ∧ v.bitPtr.toNat < 8)) :
    (r.step q e i).Out n := by
  rw [← hvlp] at hrun hpad hbit hle
  exact ⟨hrun, hready, hcnt, hpad, hbit, hle⟩

theorem held_step {v : Vlp} (q : Rle.Word) (hvlp : r.vlp e i = v) :
    (r.step q e i).held = Huffman.held v.wordReg v.bitPtr.toNat := by
  rw [← hvlp]
  rfl

theorem ready_step {v : Vlp} {p : Phase} (q : Rle.Word) (hvlp : r.vlp e i = v) (h : v.readyPb = true ↔ p = .idle) :
    (r.step q e i).readyPb = true ↔ p = .idle := by
  rw [← hvlp] at h
  exact h

theorem move_start (h : r.At c (.start w ws)) (hsees : (Phase.start w ws).Sees q e) (hstart : i.startPb = false)
    (hsof : i.sof = false) : r.Move (r.step q e i) c (.start w ws) (.fetch w ws) := by
  obtain ⟨his, hrest, hval⟩ := h
  obtain ⟨hempty, hfront⟩ := hsees rfl
  obtain rfl : e = false := hempty
  obtain rfl := hfront w rfl
  have hvlp := vlp_wait his.state his.firstRleWord hval hrest.hfwRunning hsof false
  obtain ⟨-, hcnt, -, hrd, hpb⟩ := hfw_rest hrest false i
  rw [his.startPbD1] at hrd
  rw [hstart] at hpb
  refine ⟨⟨is_step q hvlp hrd hpb, rest_step q hvlp hcnt hrest.hfwRunning hrest.padReg hrest.bitPtr, his.rdEn, ⟨rfl, rfl, rfl, rfl⟩⟩,
    bits_open rfl ?_, ?_, fun _ => his.rdEn, ready_step q hvlp ⟨nofun, nofun⟩, ?_, nofun⟩
  · show _ ++ ((r.step q false i).held ++ _) = _
    rw [out_rest hrest, held_step q hvlp]
    rfl
  · rw [his.rdEn]
    rfl
  · rw [Phase.cycles, Phase.cycles]
    omega

theorem move_fetch (h : r.At c (.fetch w ws)) (hsees : (Phase.fetch w ws).Sees q e) (hc : i.cmpIdx = c)
    (hstart : i.startPb = false) (hsof : i.sof = false) :
    r.Move (r.step q e i) c (.fetch w ws) (.vlc true w ws) := by
  obtain ⟨his, hrest, hval, hroms⟩ := h
  obtain rfl := (hsees rfl).2 w rfl
  have hvlp := vlp_wait his.state his.firstRleWord hval hrest.hfwRunning hsof e
  obtain ⟨-, hcnt, -, hrd, hpb⟩ := hfw_rest hrest e i
  rw [his.startPbD1, Bool.false_and] at hrd
  rw [hstart] at hpb
  have hmux : ((r.mux i).vlcSize, (r.mux i).vlc) = vlcOf c true q := by
    simp only [Regs.mux, his.firstRleWord, hc, hroms.vlcDc, hroms.vlcCrDc, vlcOf, if_true]
    split <;> rfl
  have hlatch : (r.latch q).dValD1 = true ∧ (r.latch q).vliSizeR = q.size ∧ (r.latch q).vliR = q.amplitude := by
    simp only [Regs.latch, his.rdEn, if_true, and_self]
  refine ⟨⟨is_step q hvlp hrd hpb, rest_step q hvlp hcnt hrest.hfwRunning hrest.padReg hrest.bitPtr, hmux, fun _ => hlatch⟩,
    bits_open rfl ?_, ?_, by rintro ⟨⟩, ready_step q hvlp (iff_of_false Bool.false_ne_true (by rintro ⟨⟩)), ?_,
    by rintro ⟨⟩⟩
  · show _ ++ ((r.step q e i).held ++ _) = _
    rw [out_rest hrest, held_step q hvlp]
    rfl
  · rw [his.rdEn]
    rfl
  · rw [Phase.cycles, Phase.cycles]
    omega

/-- The registers behind a loop that puts bits behind those in the register. -/
theorem held_append (code : BitVec 16) {size : BitVec 5} (hrest : r.Rest) (hsize : size.toNat ≤ 16) :
    (r.bitPtr + size).toNat = r.bitPtr.toNat + size.toNat ∧ (r.bitPtr + size).toNat < 24 ∧
      Huffman.held (place r.wordReg r.bitPtr code size) (r.bitPtr + size).toNat =
        r.held ++ PrefixCodes.word size.toNat code.toNat := by
  have hbit := hrest.bitPtr
  have hsum : (r.bitPtr + size).toNat = r.bitPtr.toNat + size.toNat := by
    rw [BitVec.toNat_add, Nat.mod_eq_of_lt (by omega)]
  refine ⟨hsum, by omega, ?_⟩
  rw [hsum, held_place r.wordReg code (by omega)]
  rfl

theorem move_vlc (h : r.At c (.vlc first w ws)) (hsees : (Phase.vlc first w ws).Sees q e)
    (hstart : i.startPb = false) (hsof : i.sof = false) :
    r.Move (r.step q e i) c (.vlc first w ws) (.vlcOut first w ws 0) := by
  obtain ⟨his, hrest, hcode, hfirst⟩ := h
  obtain ⟨-, hcnt, hhfw, hrd, hpb⟩ := hfw_rest hrest e i
  rw [his.startPbD1, Bool.false_and] at hrd
  rw [hstart] at hpb
  have hgo : (r.dValD1 = true ∧ r.firstRleWord = true) ∨ (r.rdEn = true ∧ ¬ r.firstRleWord = true) := by
    rw [his.firstRleWord, his.rdEn]
    cases first with
    | true => exact .inl ⟨(hfirst rfl).1, rfl⟩
    | false => exact .inr ⟨rfl, Bool.false_ne_true⟩
  have hvlp : r.vlp e i = { r.toVlp with
      state := .runVlc, firstRleWord := first, readyPb := false, wordReg := place r.wordReg r.bitPtr r.vlc r.vlcSize,
      bitPtr := r.bitPtr + r.vlcSize, hfwRunning := true } := by
    rw [← his.firstRleWord]
    simp only [Regs.vlp, his.state, if_pos hgo, hsof, Bool.false_eq_true, if_false]
  have hsize : r.vlcSize.toNat ≤ 16 := by
    rw [show r.vlcSize = (vlcOf c first w).1 from congrArg Prod.fst hcode]
    exact vlcOf_le c first w
  obtain ⟨hsum, hlt, hheld⟩ := held_append r.vlc hrest hsize
  have hlatch : (first = true → r.rdEn = false) ∧ (if r.rdEn then q.size else r.vliSizeR) = w.size ∧
      (if r.rdEn then q.amplitude else r.vliR) = w.amplitude := by
    cases first with
    | true =>
      rw [show r.rdEn = false from his.rdEn]
      exact ⟨fun _ => rfl, (hfirst rfl).2⟩
    | false =>
      obtain rfl := (hsees rfl).2 w rfl
      rw [show r.rdEn = true from his.rdEn]
      exact ⟨nofun, rfl, rfl⟩
  refine ⟨⟨is_step q hvlp hrd hpb, out_step q hvlp hhfw hcnt rfl hrest.padReg hlt ?_, hlatch⟩, bits_open rfl ?_, ?_, nofun,
    ready_step q hvlp ⟨nofun, nofun⟩, ?_, nofun⟩
  · show _ ≤ (r.bitPtr + r.vlcSize).toNat ∨ (_ ∧ (r.bitPtr + r.vlcSize).toNat < 8)
    omega
  · show _ ++ ((r.step q e i).held.drop 0 ++ _) = _
    rw [out_rest hrest, held_step q hvlp, List.drop_zero]
    show [] ++ (Huffman.held (place r.wordReg r.bitPtr r.vlc r.vlcSize) (r.bitPtr + r.vlcSize).toNat ++ _) = _
    rw [hheld, show r.vlcSize = (vlcOf c first w).1 from congrArg Prod.fst hcode,
      show r.vlc = (vlcOf c first w).2 from congrArg Prod.snd hcode, List.nil_append, List.append_assoc]
    show r.held ++ (vlcBits c first w ++ _) = r.held ++ (vlcBits c first w ++ vliBits w ++ codeBits c false ws)
    rw [List.append_assoc]
  · rw [his.rdEn]
    cases first <;> rfl
  · rw [Phase.cycles, Phase.cycles]
    omega

/-- The registers of `p_vlp` while bytes are written for a code word. -/
theorem vlp_vlcOut (hstate : r.state = .runVlc) (hfirst : r.firstRleWord = first) (hrd : r.rdEn = false)
    (hval : first = true → r.dValD1 = false) (hsof : i.sof = false) (e : Bool) :
    r.vlp e i = if r.Written then { r.shifted { r.toVlp with readyPb := false } with firstRleWord := false, state := .runVli }
      else { r.toVlp with state := .runVlc, firstRleWord := first, readyPb := false } := by
  have hno : ¬ ((r.dValD1 = true ∧ r.firstRleWord = true) ∨ (r.rdEn = true ∧ ¬ r.firstRleWord = true)) := by
    rintro (⟨hv, hf⟩ | ⟨hr, -⟩)
    · rw [hval (hfirst.symm.trans hf)] at hv
      exact Bool.false_ne_true hv
    · exact Bool.false_ne_true (hrd.symm.trans hr)
  rw [← hfirst]
  simp only [Regs.vlp, hstate, if_neg hno, hsof, Bool.false_eq_true, if_false]

theorem move_vlcOut (h : r.At c (.vlcOut first w ws n)) (q : Rle.Word) (e : Bool) (hstart : i.startPb = false)
    (hsof : i.sof = false) :
    ∃ p', r.Move (r.step q e i) c (.vlcOut first w ws n) p' := by
  obtain ⟨his, hout, hval, hsize, hvli⟩ := h
  have hlt := hout.lt
  have hbit := hout.bitPtr
  have hle := hout.le
  obtain ⟨-, hcnt, hready, hrd, hpb⟩ := hout.hfw his.startPbD1 e i
  have hrd' : (r.hfw e i).rdEn = false := by
    rw [hrd, his.state, decide_eq_false fun hc => VlpState.noConfusion hc.2, Bool.false_and]
  rw [hstart] at hpb
  have hvlp := vlp_vlcOut his.state his.firstRleWord his.rdEn hval hsof e
  have hreading : ws = if r.rdEn then ws.tail else ws := by
    rw [his.rdEn]
    rfl
  by_cases hlast : r.bitPtr.toNat < 8 * (n + 2)
  · rw [if_pos (hout.written_iff.2 hlast)] at hvlp
    rw [if_pos hlast] at hcnt
    refine ⟨.vli w ws, ⟨is_step q hvlp hrd' hpb, rest_step q hvlp hcnt rfl hout.padReg ?_, hsize, hvli⟩, bits_open rfl ?_,
      hreading, fun _ => his.rdEn, ready_step q hvlp ⟨nofun, nofun⟩, ?_, nofun⟩
    · show (r.bitPtr - r.writtenBits).toNat < 8
      rw [toNat_sub_writtenBits]
      omega
    · show _ ++ ((r.step q e i).held ++ _) = r.held.drop (8 * n) ++ _
      rw [held_step q hvlp, ← List.append_assoc]
      exact congrArg (· ++ _) (hout.shifted his.startPbD1 hlast q e i)
    · rw [Phase.cycles, Phase.cycles]
      omega
  · rw [if_neg fun hc => hlast (hout.written_iff.1 hc)] at hvlp
    rw [if_neg hlast] at hcnt
    rw [decide_eq_false hlast] at hready
    have hfit : 8 * (n + 1 + 1) ≤ r.bitPtr.toNat := by omega
    refine ⟨.vlcOut first w ws (n + 1), ⟨is_step q hvlp hrd' hpb,
      out_step q hvlp hready hcnt hout.hfwRunning hout.padReg hbit (.inl hfit), fun _ => his.rdEn, ?_⟩,
      bits_open rfl ?_, hreading, nofun, ready_step q hvlp ⟨nofun, nofun⟩, ?_, nofun⟩
    · show (if r.rdEn then q.size else r.vliSizeR) = w.size ∧ (if r.rdEn then q.amplitude else r.vliR) = w.amplitude
      rw [his.rdEn]
      exact ⟨hsize, hvli⟩
    · show _ ++ ((r.step q e i).held.drop (8 * (n + 1)) ++ _) = r.held.drop (8 * n) ++ _
      have hbits := hout.out his.startPbD1 q e i
      rw [if_neg (by omega)] at hbits
      rw [held_step q hvlp, ← List.append_assoc]
      exact congrArg (· ++ _) hbits
    · rw [Phase.cycles, Phase.cycles]
      omega

theorem move_vli (h : r.At c (.vli w ws)) (hsees : (Phase.vli w ws).Sees q e) (hstart : i.startPb = false)
    (hsof : i.sof = false) : r.Move (r.step q e i) c (.vli w ws) (.vliOut ws 0) := by
  obtain ⟨his, hrest, hsize, hvli⟩ := h
  obtain ⟨-, hcnt, hhfw, hrd, hpb⟩ := hfw_rest hrest e i
  rw [his.startPbD1, Bool.false_and] at hrd
  rw [hstart] at hpb
  have hgo : ¬ r.hfwRunning = true := by
    rw [hrest.hfwRunning]
    decide
  have hvlp : r.vlp e i = { r.toVlp with
      state := .runVli, firstRleWord := false, readyPb := false,
      wordReg := place r.wordReg r.bitPtr (r.vliD1.setWidth 16) (r.vliSizeD1.setWidth 5),
      bitPtr := r.bitPtr + r.vliSizeD1.setWidth 5, hfwRunning := true } := by
    simp only [Regs.vlp, his.state, if_pos hgo, hsof, Bool.false_eq_true, if_false]
    rw [his.firstRleWord]
  have hlt := r.vliSizeD1.isLt
  have hsize' : (r.vliSizeD1.setWidth 5).toNat = r.vliSizeD1.toNat := by
    rw [BitVec.toNat_setWidth, Nat.mod_eq_of_lt (by omega)]
  have hvli' : (r.vliD1.setWidth 16).toNat = r.vliD1.toNat := by
    have hvlt := r.vliD1.isLt
    rw [BitVec.toNat_setWidth, Nat.mod_eq_of_lt (by omega)]
  obtain ⟨hsum, hbit, hheld⟩ := held_append (r.vliD1.setWidth 16) hrest (show (r.vliSizeD1.setWidth 5).toNat ≤ 16 by omega)
  have hroms : ∀ w ∈ ws.head?, (r.step q e i).Roms w := fun w hw => by
    obtain rfl := (hsees rfl).2 w hw
    exact ⟨rfl, rfl, rfl, rfl⟩
  refine ⟨⟨is_step q hvlp hrd hpb, out_step q hvlp hhfw hcnt rfl hrest.padReg hbit ?_, hroms⟩, bits_open rfl ?_, ?_,
    fun _ => his.rdEn, ready_step q hvlp ⟨nofun, nofun⟩, ?_, nofun⟩
  · show _ ≤ (r.bitPtr + r.vliSizeD1.setWidth 5).toNat ∨ (_ ∧ (r.bitPtr + r.vliSizeD1.setWidth 5).toNat < 8)
    omega
  · show _ ++ ((r.step q e i).held.drop 0 ++ _) = _
    rw [out_rest hrest, held_step q hvlp, List.drop_zero]
    show [] ++ (Huffman.held (place r.wordReg r.bitPtr _ _) (r.bitPtr + r.vliSizeD1.setWidth 5).toNat ++ _) = _
    rw [hheld, hsize', hvli', hsize, hvli, List.nil_append, List.append_assoc]
    rfl
  · rw [his.rdEn]
    rfl
  · rw [Phase.cycles, Phase.cycles]
    omega

/-- A byte of a word is written, and there is one more. -/
theorem vliOut_more (h : r.At c (.vliOut ws n)) (hsees : (Phase.vliOut ws n).Sees q e) (hstart : i.startPb = false)
    (hsof : i.sof = false) (hmore : ¬ r.bitPtr.toNat < 8 * (n + 2)) :
    r.Move (r.step q e i) c (.vliOut ws n) (.vliOut ws (n + 1)) := by
  obtain ⟨his, hout, -⟩ := h
  obtain ⟨-, hfront⟩ := hsees rfl
  have hlt := hout.lt
  have hle := hout.le
  obtain ⟨-, hcnt, hready, hrd, hpb⟩ := hout.hfw his.startPbD1 e i
  rw [hstart] at hpb
  rw [if_neg hmore] at hcnt
  rw [decide_eq_false hmore] at hready
  rw [decide_eq_false fun hc => hmore hc.1, Bool.false_and] at hrd
  have hno : ¬ r.Written := fun hc => hmore (hout.written_iff.1 hc)
  have hvlp : r.vlp e i = { r.toVlp with state := .runVli, firstRleWord := false, readyPb := false } := by
    simp only [Regs.vlp, his.state, if_neg (not_not.2 hout.hfwRunning), if_neg hno, hsof, Bool.false_eq_true, if_false]
    rw [his.firstRleWord]
  have hroms : ∀ w ∈ ws.head?, (r.step q e i).Roms w := fun w hw => by
    obtain rfl := hfront w hw
    exact ⟨rfl, rfl, rfl, rfl⟩
  have hfit : 8 * (n + 1 + 1) ≤ r.bitPtr.toNat := by omega
  refine ⟨⟨is_step q hvlp hrd hpb,
    out_step q hvlp hready hcnt hout.hfwRunning hout.padReg hout.bitPtr (.inl hfit), hroms⟩,
    bits_open rfl ?_, ?_, fun _ => his.rdEn, ready_step q hvlp (iff_of_false Bool.false_ne_true (by rintro ⟨⟩)), ?_,
    by rintro ⟨⟩⟩
  · show _ ++ ((r.step q e i).held.drop (8 * (n + 1)) ++ _) = r.held.drop (8 * n) ++ _
    have hbits := hout.out his.startPbD1 q e i
    rw [if_neg (by omega)] at hbits
    rw [held_step q hvlp, ← List.append_assoc]
    exact congrArg (· ++ _) hbits
  · rw [his.rdEn]
    rfl
  · rw [Phase.cycles, Phase.cycles]
    omega

/-- The last byte of a word is written, and the next word begins. -/
theorem vliOut_next (h : r.At c (.vliOut (w :: ws) n)) (hsees : (Phase.vliOut (w :: ws) n).Sees q e) (hc : i.cmpIdx = c)
    (hstart : i.startPb = false) (hsof : i.sof = false) (hlast : r.bitPtr.toNat < 8 * (n + 2)) :
    r.Move (r.step q e i) c (.vliOut (w :: ws) n) (.vlc false w ws) := by
  obtain ⟨his, hout, hroms⟩ := h
  obtain rfl : e = false := (hsees rfl).1
  have hlt := hout.lt
  have hbit := hout.bitPtr
  have hbit' := toNat_sub_writtenBits r
  obtain ⟨-, hcnt, -, hrd, hpb⟩ := hout.hfw his.startPbD1 false i
  rw [hstart] at hpb
  rw [if_pos hlast] at hcnt
  rw [decide_eq_true ⟨hlast, his.state⟩, Bool.true_and] at hrd
  have hvlp : r.vlp false i =
      { r.shifted { r.toVlp with readyPb := false } with state := .runVlc, firstRleWord := false } := by
    simp only [Regs.vlp, his.state, if_neg (not_not.2 hout.hfwRunning), if_pos (hout.written_iff.2 hlast), hsof,
      Bool.false_eq_true, if_false, Regs.shifted]
    rw [his.firstRleWord]
  have hrom := hroms w rfl
  have hmux : ((r.mux i).vlcSize, (r.mux i).vlc) = vlcOf c false w := by
    simp only [Regs.mux, his.firstRleWord, hc, hrom.vlcAc, hrom.vlcCrAc, vlcOf, Bool.false_eq_true, if_false]
    split <;> rfl
  refine ⟨⟨is_step q hvlp hrd hpb, rest_step q hvlp hcnt rfl hout.padReg ?_, hmux, by rintro ⟨⟩⟩, bits_open rfl ?_, ?_,
    fun _ => his.rdEn, ready_step q hvlp (iff_of_false Bool.false_ne_true (by rintro ⟨⟩)), ?_, by rintro ⟨⟩⟩
  · show (r.bitPtr - r.writtenBits).toNat < 8
    omega
  · show _ ++ ((r.step q false i).held ++ _) = r.held.drop (8 * n) ++ _
    rw [held_step q hvlp, ← List.append_assoc]
    exact congrArg (· ++ _) (hout.shifted his.startPbD1 hlast q false i)
  · rw [his.rdEn]
    rfl
  · rw [Phase.cycles, Phase.cycles, List.length_cons]
    omega

/-- The bits of the block end with those in the register. -/
theorem ones_unwritten (hout : r.Out n) :
    ones (r.unwritten c (.vliOut [] n)).length = ones (r.bitPtr.toNat % 8) := by
  have hbit := hout.bitPtr
  have hlen : r.held.length = r.bitPtr.toNat := length_held _ (by omega)
  have hunwritten : r.unwritten c (.vliOut [] n) = r.held.drop (8 * n) := List.append_nil _
  have hle := hout.le
  rw [hunwritten, List.length_drop, hlen, ones, ones]
  congr 2
  omega

/-- The last byte of the image is written, and the rest of it is to be filled up. -/
theorem vliOut_pad (h : r.At c (.vliOut [] n)) (hstart : i.startPb = false) (hsof : i.sof = false)
    (hlast : r.bitPtr.toNat < 8 * (n + 2)) (hpad : r.bitPtr - r.writtenBits ≠ 0 ∧ r.lastBlock = true) :
    r.Move (r.step q true i) c (.vliOut [] n) .pad := by
  obtain ⟨his, hout, -⟩ := h
  have hlt := hout.lt
  have hbit := hout.bitPtr
  have hbit' := toNat_sub_writtenBits r
  have hheld := hout.shifted his.startPbD1 hlast q true i
  obtain ⟨-, hcnt, -, hrd, hpb⟩ := hout.hfw his.startPbD1 true i
  rw [hstart] at hpb
  rw [if_pos hlast] at hcnt
  rw [decide_eq_true ⟨hlast, his.state⟩, Bool.true_and] at hrd
  have hvlp : r.vlp true i = { r.shifted { r.toVlp with readyPb := false } with state := .pad, firstRleWord := false } := by
    simp only [Regs.vlp, his.state, if_neg (not_not.2 hout.hfwRunning), if_pos (hout.written_iff.2 hlast), if_pos hpad, hsof,
      Bool.false_eq_true, if_false, if_true, Regs.shifted]
    rw [his.firstRleWord]
  have hunwritten : r.unwritten c (.vliOut [] n) = r.held.drop (8 * n) := List.append_nil _
  have hpos : 0 < r.bitPtr.toNat % 8 := by
    rw [← hbit']
    refine Nat.pos_of_ne_zero fun hzero => hpad.1 ?_
    exact BitVec.eq_of_toNat_eq hzero
  refine ⟨⟨is_step q hvlp hrd hpb, rest_step q hvlp hcnt rfl hout.padReg ?_, ?_⟩, ?_, ?_, fun _ => his.rdEn,
    ready_step q hvlp (iff_of_false Bool.false_ne_true (by rintro ⟨⟩)), ?_, by rintro ⟨⟩⟩
  · show (r.bitPtr - r.writtenBits).toNat < 8
    omega
  · show 0 < (r.vlp true i).bitPtr.toNat
    rw [hvlp]
    exact hbit'.symm ▸ hpos
  · rw [if_pos ⟨rfl, Bool.false_ne_true, hpad.2⟩, ones_unwritten hout]
    have hptr : ones (r.vlp true i).bitPtr.toNat = ones (r.bitPtr.toNat % 8) := by
      rw [hvlp, ← hbit']
      rfl
    show _ ++ ((r.step q true i).held ++ ones (r.vlp true i).bitPtr.toNat) = _
    rw [hptr, held_step q hvlp, ← List.append_assoc, hunwritten, ← hheld]
    rfl
  · rw [his.rdEn]
    rfl
  · rw [Phase.cycles, Phase.cycles]
    omega

/-- The last byte of a block is written, with nothing to fill up. -/
theorem vliOut_idle (h : r.At c (.vliOut [] n)) (hstart : i.startPb = false) (hsof : i.sof = false)
    (hlast : r.bitPtr.toNat < 8 * (n + 2)) (hpad : ¬ (r.bitPtr - r.writtenBits ≠ 0 ∧ r.lastBlock = true)) :
    r.Move (r.step q true i) c (.vliOut [] n) .idle := by
  obtain ⟨his, hout, -⟩ := h
  have hlt := hout.lt
  have hbit := hout.bitPtr
  have hbit' := toNat_sub_writtenBits r
  have hheld := hout.shifted his.startPbD1 hlast q true i
  obtain ⟨-, hcnt, -, hrd, hpb⟩ := hout.hfw his.startPbD1 true i
  rw [hstart] at hpb
  rw [if_pos hlast] at hcnt
  rw [decide_eq_true ⟨hlast, his.state⟩, Bool.true_and] at hrd
  have hvlp : r.vlp true i =
      { r.shifted { r.toVlp with readyPb := false } with readyPb := true, state := .idle, firstRleWord := false } := by
    simp only [Regs.vlp, his.state, if_neg (not_not.2 hout.hfwRunning), if_pos (hout.written_iff.2 hlast), if_neg hpad, hsof,
      Bool.false_eq_true, if_false, if_true, Regs.shifted]
    rw [his.firstRleWord]
  have hunwritten : r.unwritten c (.vliOut [] n) = r.held.drop (8 * n) := List.append_nil _
  refine ⟨⟨is_step q hvlp hrd hpb, rest_step q hvlp hcnt rfl hout.padReg ?_⟩, ?_, ?_, by rintro ⟨⟩,
    ready_step q hvlp ⟨fun _ => rfl, fun _ => rfl⟩, ?_, fun _ => rfl⟩
  · show (r.bitPtr - r.writtenBits).toNat < 8
    omega
  · have hnone : (if (Phase.vliOut [] n).Open = true ∧ ¬ Phase.idle.Open = true ∧ r.lastBlock = true then
        ones (r.unwritten c (.vliOut [] n)).length else []) = [] := by
      split
      · rename_i hcond
        have hzero : r.bitPtr.toNat % 8 = 0 := by
          rw [← hbit']
          by_contra hne
          exact hpad ⟨fun hz => hne (by rw [hz]; rfl), hcond.2.2⟩
        rw [ones_unwritten hout, hzero]
        rfl
      · rfl
    rw [hnone, List.append_nil, hunwritten, ← hheld]
    show _ ++ (r.step q true i).held = _
    rw [held_step q hvlp]
    rfl
  · rw [his.rdEn]
    rfl
  · rw [Phase.cycles, Phase.cycles]
    omega

/-- The end of a word: the next one, or the end of the block. -/
theorem move_vliOut (h : r.At c (.vliOut ws n)) (hsees : (Phase.vliOut ws n).Sees q e) (hc : i.cmpIdx = c)
    (hstart : i.startPb = false) (hsof : i.sof = false) : ∃ p', r.Move (r.step q e i) c (.vliOut ws n) p' := by
  by_cases hlast : r.bitPtr.toNat < 8 * (n + 2)
  · cases ws with
    | nil =>
      obtain rfl : e = true := (hsees rfl).1
      by_cases hpad : r.bitPtr - r.writtenBits ≠ 0 ∧ r.lastBlock = true
      · exact ⟨.pad, vliOut_pad h hstart hsof hlast hpad⟩
      · exact ⟨.idle, vliOut_idle h hstart hsof hlast hpad⟩
    | cons w ws => exact ⟨.vlc false w ws, vliOut_next h hsees hc hstart hsof hlast⟩
  · exact ⟨.vliOut ws (n + 1), vliOut_more h hsees hstart hsof hlast⟩

theorem move_pad (h : r.At c .pad) (q : Rle.Word) (e : Bool) (hstart : i.startPb = false) (hsof : i.sof = false) :
    r.Move (r.step q e i) c .pad .padOut := by
  obtain ⟨his, hrest, hpos⟩ := h
  have hbit := hrest.bitPtr
  obtain ⟨-, hcnt, hhfw, hrd, hpb⟩ := hfw_rest hrest e i
  rw [his.startPbD1, Bool.false_and] at hrd
  rw [hstart] at hpb
  have hgo : ¬ r.hfwRunning = true := by
    rw [hrest.hfwRunning]
    decide
  have hvlp : r.vlp e i = { r.toVlp with
      state := .pad, firstRleWord := false, readyPb := false,
      padByte := ofBits 8 fun k => if k < r.bitPtr.toNat then r.wordReg.getMsbD k else true, padReg := true,
      bitPtr := 8, hfwRunning := true } := by
    simp only [Regs.vlp, his.state, if_pos hgo, hsof, Bool.false_eq_true, if_false]
    rw [his.firstRleWord]
  have hones : (8 - r.bitPtr.toNat % 8) % 8 = 8 - r.bitPtr.toNat := by omega
  refine ⟨⟨is_step q hvlp hrd hpb, ?_⟩, ?_, ?_, fun _ => his.rdEn, ready_step q hvlp ⟨nofun, nofun⟩, Nat.lt_succ_self 1,
    fun _ => rfl⟩
  · refine ⟨?_, hhfw, hcnt, ?_, ?_⟩
    · exact congrArg Vlp.hfwRunning hvlp
    · exact congrArg Vlp.padReg hvlp
    · exact congrArg Vlp.bitPtr hvlp
  · rw [out_rest hrest, if_neg fun hc => Bool.false_ne_true hc.1, List.append_nil]
    show byteBits (r.vlp e i).padByte = r.held ++ ones r.bitPtr.toNat
    rw [hvlp, ones, hones]
    exact byteBits_pad r.wordReg hbit.le
  · rw [his.rdEn]
    rfl

theorem move_padOut (h : r.At c .padOut) (q : Rle.Word) (e : Bool) (hstart : i.startPb = false) (hsof : i.sof = false) :
    r.Move (r.step q e i) c .padOut .idle := by
  obtain ⟨his, hout⟩ := h
  have hnum : r.numFifoWrs = 1 := by
    rw [numFifoWrs_eq, hout.bitPtr]
    rfl
  have hrun : r.hfwRunning = true ∧ ¬ r.readyHfw = true := ⟨hout.hfwRunning, by rw [hout.readyHfw]; decide⟩
  have hwritten : r.Written := by
    rw [Regs.Written, hnum, hout.hfwRunning, hout.fifoWrtCnt]
    decide
  have hgo : ¬ ¬ r.hfwRunning = true := not_not.2 hout.hfwRunning
  have hzero : (0 : BitVec 5).toNat < 8 := by decide
  have hnum0 : ¬ r.numFifoWrs = 0 := by
    rw [hnum]
    decide
  have hlast : r.fifoWrtCnt + 1 = r.numFifoWrs := by
    rw [hnum, hout.fifoWrtCnt]
    rfl
  have hhfw : r.hfw e i = ⟨true, r.padByte, 0, true, false, false⟩ := by
    have hstate : ¬ r.state = .runVli := by
      rw [his.state]
      decide
    simp only [Regs.hfw, if_pos hrun, if_neg hnum0, if_pos hlast, if_neg hstate, his.startPbD1, hout.padReg, hstart,
      Bool.false_eq_true, if_false, if_true]
  have hvlp : r.vlp e i = { r.toVlp with
      state := .idle, firstRleWord := false, bitPtr := 0, hfwRunning := false, padReg := false, readyPb := true } := by
    simp only [Regs.vlp, his.state, if_neg hgo, if_pos hwritten, hsof, Bool.false_eq_true, if_false]
    rw [his.firstRleWord]
  refine ⟨⟨is_step q hvlp (congrArg Hfw.rdEn hhfw) (congrArg Hfw.startPbD1 hhfw),
    rest_step q hvlp (congrArg Hfw.fifoWrtCnt hhfw) rfl rfl hzero⟩, ?_, ?_, nofun,
    ready_step q hvlp ⟨fun _ => rfl, fun _ => rfl⟩, Nat.one_pos, fun _ => rfl⟩
  · rw [if_neg fun hc => Bool.false_ne_true hc.1, List.append_nil]
    show (if (r.hfw e i).fifoWren then byteBits (r.hfw e i).fifoWbyte else []) ++ (r.step q e i).held = byteBits r.padByte
    rw [hhfw, held_step q hvlp]
    exact List.append_nil _
  · rw [his.rdEn]
    rfl

/-- A cycle of a block under way. -/
theorem Regs.At.step {p : Phase} (h : r.At c p) (hsees : p.Sees q e) (hbusy : p ≠ .idle) (hc : i.cmpIdx = c)
    (hstart : i.startPb = false) (hsof : i.sof = false) : ∃ p', r.Move (r.step q e i) c p p' := by
  match p, h with
  | .idle, _ => exact absurd rfl hbusy
  | .start w ws, h => exact ⟨_, move_start h hsees hstart hsof⟩
  | .fetch w ws, h => exact ⟨_, move_fetch h hsees hc hstart hsof⟩
  | .vlc first w ws, h => exact ⟨_, move_vlc h hsees hstart hsof⟩
  | .vlcOut first w ws n, h => exact move_vlcOut h q e hstart hsof
  | .vli w ws, h => exact ⟨_, move_vli h hsees hstart hsof⟩
  | .vliOut ws n, h => exact move_vliOut h hsees hc hstart hsof
  | .pad, h => exact ⟨_, move_pad h q e hstart hsof⟩
  | .padOut, h => exact ⟨_, move_padOut h q e hstart hsof⟩

/-- A cycle between two blocks, with the start of the next one or of an image. -/
theorem Regs.At.idle_step (h : r.At c .idle) (q : Rle.Word) (e : Bool) (w : Rle.Word) (ws : List Rle.Word)
    (hapart : i.sof = true → i.startPb = false) (c' : BitVec 3) :
    (r.step q e i).At c' (if i.startPb then .start w ws else .idle) ∧ (r.step q e i).out = [] ∧
      (r.step q e i).readyPb = false ∧ (r.step q e i).held = if i.sof then [] else r.held := by
  obtain ⟨his, hrest⟩ := h
  obtain ⟨-, hcnt, -, hrd, hpb⟩ := hfw_rest hrest e i
  rw [his.startPbD1, Bool.false_and] at hrd
  have hout := out_rest hrest q e i
  cases hstart : i.startPb with
  | true =>
    have hsof : i.sof = false := by
      cases hs : i.sof with
      | false => rfl
      | true => exact absurd (hapart hs) (by rw [hstart]; decide)
    have hvlp : r.vlp e i = { r.toVlp with state := .runVlc, firstRleWord := true, readyPb := false } := by
      simp only [Regs.vlp, his.state, hstart, hsof, Bool.false_eq_true, if_false, if_true]
    rw [hstart] at hpb
    refine ⟨⟨?_, rest_step q hvlp hcnt hrest.hfwRunning hrest.padReg hrest.bitPtr, his.rdEn⟩, hout, ?_, ?_⟩
    · exact ⟨congrArg Vlp.state hvlp, congrArg Vlp.firstRleWord hvlp, hrd, hpb⟩
    · exact congrArg Vlp.readyPb hvlp
    · rw [hsof, held_step q hvlp]
      rfl
  | false =>
    have hvlp : r.vlp e i = { r.toVlp with
        state := .idle, firstRleWord := false, readyPb := false, bitPtr := if i.sof then 0 else r.bitPtr } := by
      simp only [Regs.vlp, his.state, hstart, Bool.false_eq_true, if_false]
      rw [his.firstRleWord]
      cases i.sof <;> rfl
    rw [hstart] at hpb
    refine ⟨⟨is_step q hvlp hrd hpb, rest_step q hvlp hcnt hrest.hfwRunning hrest.padReg ?_⟩, hout, ?_, ?_⟩
    · show (if i.sof then (0 : BitVec 5) else r.bitPtr).toNat < 8
      split
      · decide
      · exact hrest.bitPtr
    · exact congrArg Vlp.readyPb hvlp
    · rw [held_step q hvlp]
      cases i.sof <;> rfl

end

/-! ## Runs -/

def Phase.busy : Phase → Bool
  | .idle => false
  | _     => true

/-- The bits that are written already, or will be without another word. -/
def State.coming (s : State) (p : Phase) : List Bool :=
  s.log.flatMap byteBits ++ (s.regs.out ++ s.regs.unwritten s.cmpIdx p)

def State.isLast (s : State) : Bool := decide (s.blocks = blockTotal s.imgSize)

structure Inv (s : State) (p : Phase) : Prop where
  phase  : s.regs.At s.cmpIdx p
  sees   : p.Sees (s.fifo.dataOut s.regs.rleBufSel) (s.fifo.fifoEmpty s.regs.rleBufSel)
  halves : s.fifo.halves.Holds s.regs.rleBufSel p.reading s.filling
  room   : s.filling.length ≤ 64
  bits   : s.bits = s.coming p ++ if p.Open ∧ s.isLast then ones (s.coming p).length else []
  blocks : s.regs.blockCnt = BitVec.ofNat 28 s.blocks ∧ s.blocks < 2 ^ 28
  area   : p.busy → s.regs.imageAreaSize = s.imgSize.1.setWidth 32 * s.imgSize.2.setWidth 32
  last   : p.busy → (∀ w ws, p ≠ .start w ws) → s.regs.lastBlock = s.isLast
  count  : s.starts = s.readies + s.regs.readyPb.toNat + p.busy.toNat
  ready  : s.regs.readyPb = true → p = .idle
  out    : p = .idle → s.regs.readyPb = false → s.regs.out = []

section

variable {s : State} {p : Phase} {i : Input}

/-- The detector of the last block. -/
theorem lastBlock_eq (imgSize : BitVec 16 × BitVec 16) {blocks : ℕ} (h : blocks < 2 ^ 28) :
    decide (BitVec.ofNat 28 blocks = ((imgSize.1.setWidth 32 * imgSize.2.setWidth 32).extractLsb' 5 27).setWidth 28) =
      decide (blocks = blockTotal imgSize) := by
  have hx := imgSize.1.isLt
  have hy := imgSize.2.isLt
  have hmul : imgSize.1.toNat * imgSize.2.toNat ≤ (2 ^ 16 - 1) * (2 ^ 16 - 1) :=
    Nat.mul_le_mul (Nat.le_sub_one_of_lt hx) (Nat.le_sub_one_of_lt hy)
  have hprod : (imgSize.1.setWidth 32 * imgSize.2.setWidth 32).toNat = imgSize.1.toNat * imgSize.2.toNat := by
    rw [BitVec.toNat_mul, BitVec.toNat_setWidth, BitVec.toNat_setWidth,
      Nat.mod_eq_of_lt (show imgSize.1.toNat < 2 ^ 32 by omega), Nat.mod_eq_of_lt (show imgSize.2.toNat < 2 ^ 32 by omega),
      Nat.mod_eq_of_lt (by omega)]
  have harea : (((imgSize.1.setWidth 32 * imgSize.2.setWidth 32).extractLsb' 5 27).setWidth 28).toNat =
      blockTotal imgSize := by
    rw [BitVec.toNat_setWidth, BitVec.extractLsb'_toNat, hprod, Nat.shiftRight_eq_div_pow, blockTotal]
    omega
  rw [decide_eq_decide, ← BitVec.toNat_inj, harea, BitVec.toNat_ofNat, Nat.mod_eq_of_lt h]

theorem length_flatMap_byteBits (log : List Byte) : (log.flatMap byteBits).length = 8 * log.length := by
  induction log with
  | nil => rfl
  | cons b log ih =>
    rw [List.flatMap_cons, List.length_append, ih, length_byteBits, List.length_cons]
    omega

theorem log_step (s : State) (i : Input) : (s.step i).log.flatMap byteBits = s.log.flatMap byteBits ++ s.regs.out := by
  rw [Regs.out]
  show (if s.regs.fifoWren then _ else _ : List Byte).flatMap byteBits = _
  split
  · rw [List.flatMap_append, List.flatMap_singleton]
  · exact (List.append_nil _).symm

theorem length_out (r : Regs) : r.out.length % 8 = 0 := by
  rw [Regs.out]
  split
  · rw [length_byteBits]
  · rfl

theorem length_written (s : State) : (s.log.flatMap byteBits ++ s.regs.out).length % 8 = 0 := by
  have hout := length_out s.regs
  rw [List.length_append, length_flatMap_byteBits]
  omega

theorem wholeBytes_append {a b : List Bool} (ha : a.length % 8 = 0) (hb : b.length < 8) : wholeBytes (a ++ b) = a := by
  refine List.take_left' ?_
  rw [List.length_append]
  omega

theorem lastBlock_step (s : State) (i : Input) (hblocks : s.regs.blockCnt = BitVec.ofNat 28 s.blocks ∧ s.blocks < 2 ^ 28)
    (harea : s.regs.imageAreaSize = s.imgSize.1.setWidth 32 * s.imgSize.2.setWidth 32) :
    (s.step i).regs.lastBlock = s.isLast := by
  show decide (s.regs.blockCnt = (s.regs.imageAreaSize.extractLsb' 5 27).setWidth 28) = _
  rw [hblocks.1, harea, lastBlock_eq _ hblocks.2]
  rfl

theorem blocks_step (h : Inv s p) (hcount : i.startPb = true → s.blocks + 1 < 2 ^ 28) :
    (s.step i).regs.blockCnt = BitVec.ofNat 28 (s.step i).blocks ∧ (s.step i).blocks < 2 ^ 28 := by
  obtain ⟨hcnt, hlt⟩ := h.blocks
  show (if i.sof then 0 else if i.startPb then s.regs.blockCnt + 1 else s.regs.blockCnt) =
    BitVec.ofNat 28 (if i.sof then 0 else if i.startPb then s.blocks + 1 else s.blocks) ∧
    (if i.sof then 0 else if i.startPb then s.blocks + 1 else s.blocks) < 2 ^ 28
  split
  · exact ⟨rfl, by decide⟩
  · split
    · rename_i hstart
      rw [hcnt, BitVec.ofNat_add]
      exact ⟨rfl, hcount hstart⟩
    · exact ⟨hcnt, hlt⟩

/-- A cycle without a start, for the FIFO: the word that was read is gone, and one may have been filled in. -/
theorem halves_step (h : Inv s p) (hstart : i.startPb = false) (hread : s.regs.rdEn = true → p.Looks = true) :
    (s.step i).fifo.halves.Holds (s.step i).regs.rleBufSel (if s.regs.rdEn then p.reading.tail else p.reading)
      (s.step i).filling := by
  have hsel : (s.step i).regs.rleBufSel = s.regs.rleBufSel := by
    show (if i.startPb then _ else _) = _
    rw [hstart]
    rfl
  have hfilling : (s.step i).filling = s.filling ++ if i.wren then [i.data] else [] := by
    show (if i.startPb then _ else _) = _
    rw [hstart]
    rfl
  have hleft : s.fifo.halves.left s.regs.rleBufSel p.reading
      (Function.update (fun _ => false) (!s.regs.rleBufSel) s.regs.rdEn) =
      if s.regs.rdEn then p.reading.tail else p.reading := by
    rw [JpegFifo.Halves.left, Function.update_self, JpegFifo.Fifo.rdEnReg]
    cases hrd : s.regs.rdEn with
    | false => rfl
    | true =>
      have hempty : (s.fifo.halves.fifo !s.regs.rleBufSel).emptyReg = decide (p.reading = []) := (h.sees (hread hrd)).1
      rw [hempty]
      cases p.reading <;> rfl
  rw [hsel, hfilling, ← hleft]
  exact h.halves.step _ _ (Function.update_of_ne (Bool.not_ne_self _).symm _ _) h.room

theorem sees_step {p' : Phase} (h : Inv s p) (hstart : i.startPb = false) (hlooks : p'.Looks → s.regs.rdEn = false)
    (hreading : p'.reading = if s.regs.rdEn then p.reading.tail else p.reading) :
    p'.Sees ((s.step i).fifo.dataOut (s.step i).regs.rleBufSel) ((s.step i).fifo.fifoEmpty (s.step i).regs.rleBufSel) := by
  intro hl
  have hrd := hlooks hl
  rw [hrd, if_neg Bool.false_ne_true] at hreading
  have hsel : (s.step i).regs.rleBufSel = s.regs.rleBufSel := by
    show (if i.startPb then _ else _) = _
    rw [hstart]
    rfl
  rw [hsel, hreading]
  refine ⟨?_, fun w hw => ?_⟩
  · have hempty := h.halves.empty_read i.wren i.data
      (Function.update (fun _ => false) (!s.regs.rleBufSel) s.regs.rdEn)
    have hleft : s.fifo.halves.left s.regs.rleBufSel p.reading
        (Function.update (fun _ => false) (!s.regs.rleBufSel) s.regs.rdEn) = p.reading := by
      rw [JpegFifo.Halves.left, Function.update_self, hrd]
      rfl
    rw [hleft] at hempty
    exact hempty
  · obtain ⟨ws, hws⟩ : ∃ ws, p.reading = w :: ws := by
      cases hp : p.reading with
      | nil => rw [hp] at hw; cases hw
      | cons v ws =>
        rw [hp] at hw
        obtain rfl : v = w := Option.some.inj hw
        exact ⟨ws, rfl⟩
    have hread := h.halves.read
    rw [hws] at hread
    exact hread.datao_step _

theorem ones_add {m : ℕ} (hm : m % 8 = 0) (n : ℕ) : ones (m + n) = ones n := by
  rw [ones, ones, Nat.add_mod, hm, Nat.zero_add, Nat.mod_mod]

/-- The double FIFO has room for what is filled in. -/
theorem room_step (hkeeps : Keeps s i) (hstart : i.startPb = false) : (s.step i).filling.length ≤ 64 := by
  show (if i.startPb then [] else s.filling ++ if i.wren then [i.data] else []).length ≤ 64
  have hroom := hkeeps.room
  rw [hstart, if_neg Bool.false_ne_true, List.length_append]
  cases hw : i.wren
  · rw [hw] at hroom
    simpa using hroom
  · rw [hw] at hroom
    simpa using hroom

/-- The FIFO is read in the phases that look at its output. -/
theorem looks_of_rdEn (h : Inv s p) (hne : p ≠ .idle) (hrd : s.regs.rdEn = true) : p.Looks = true := by
  match p, h.phase with
  | .idle, _ => exact absurd rfl hne
  | .vlc true _ _, hp => exact absurd (hp.1.rdEn.symm.trans hrd) Bool.false_ne_true
  | .vlcOut _ _ _ _, hp => exact absurd (hp.1.rdEn.symm.trans hrd) Bool.false_ne_true
  | .start _ _, _ | .fetch _ _, _ | .vlc false _ _, _ | .vli _ _, _ | .vliOut _ _, _ | .pad, _ | .padOut, _ => rfl

/-- A cycle of a block moves its bits on, and the end of the image fills them up. -/
theorem Inv.bits_step {p' : Phase} (h : Inv s p) (hmove : s.regs.Move (s.step i).regs s.cmpIdx p p') (hbusy : p.busy = true)
    (hstart : i.startPb = false) (hsof : i.sof = false) (hcmp : i.cmpIdx = s.cmpIdx) (hlast : (s.step i).isLast = s.isLast) :
    (s.step i).bits = (s.step i).coming p' ++ if p'.Open ∧ (s.step i).isLast then ones ((s.step i).coming p').length else [] := by
  have hbits' : (s.step i).bits = s.bits := by
    show (if i.startPb then _ else if i.sof then _ else _) = _
    rw [hstart, hsof]
    rfl
  have hfill : (if p.Open ∧ ¬ p'.Open ∧ s.regs.lastBlock then ones (s.regs.unwritten s.cmpIdx p).length else []) =
      if p.Open ∧ ¬ p'.Open ∧ s.isLast then ones (s.coming p).length else [] := by
    by_cases hclose : p.Open = true ∧ ¬ p'.Open = true
    · have hnotstart : ∀ w ws, p ≠ .start w ws := by
        rintro w ws rfl
        have hreading := hmove.reading
        rw [show s.regs.rdEn = false from h.phase.1.rdEn] at hreading
        match p', hclose.2 with
        | .idle, _ => cases hreading
        | .pad, _ => cases hreading
        | .padOut, _ => cases hreading
      rw [h.last hbusy hnotstart, State.coming, ← List.append_assoc, @List.length_append _ (_ ++ s.regs.out),
        ones_add (length_written s)]
    · rw [if_neg fun hc => hclose ⟨hc.1, hc.2.1⟩, if_neg fun hc => hclose ⟨hc.1, hc.2.1⟩]
  have hcoming : (s.step i).coming p' = s.coming p ++
      if p.Open ∧ ¬ p'.Open ∧ s.isLast then ones (s.coming p).length else [] := by
    rw [← hfill, State.coming, State.coming, log_step, List.append_assoc, List.append_assoc, List.append_assoc]
    show _ ++ (_ ++ ((s.step i).regs.out ++ (s.step i).regs.unwritten i.cmpIdx p')) = _
    rw [hcmp, hmove.bits]
  rw [hbits', hcoming, hlast, h.bits]
  cases hopen : p.Open with
  | false => simp [hmove.closed hopen]
  | true =>
    cases hopen' : p'.Open with
    | false => simp
    | true => simp

/-- A cycle of a block under way. -/
theorem Inv.busy (h : Inv s p) (hkeeps : Keeps s i) (hbusy : p.busy = true) :
    i.startPb = false ∧ ∃ p', Inv (s.step i) p' ∧ p'.cycles < p.cycles := by
  have hne : p ≠ .idle := fun hp => by
    rw [hp] at hbusy
    cases hbusy
  have hwait : s.starts ≠ s.readies := by
    rw [h.count, hbusy, Bool.toNat_true]
    omega
  have hstart : i.startPb = false := by
    cases hs : i.startPb with
    | false => rfl
    | true => exact absurd (hkeeps.waits (.inl hs)) hwait
  have hsof : i.sof = false := by
    cases hs : i.sof with
    | false => rfl
    | true => exact absurd (hkeeps.waits (.inr hs)) hwait
  have hcmp := hkeeps.cmp hstart
  have hsize := hkeeps.size hwait
  have hready : s.regs.readyPb = false := by
    cases hr : s.regs.readyPb with
    | false => rfl
    | true => exact absurd (h.ready hr) hne
  obtain ⟨p', hmove⟩ := h.phase.step h.sees hne hcmp hstart hsof
  have hmove : s.regs.Move (s.step i).regs s.cmpIdx p p' := hmove
  have hlast : (s.step i).isLast = s.isLast := by
    show decide ((if i.sof then 0 else if i.startPb then s.blocks + 1 else s.blocks) =
      blockTotal (i.imgSizeX, i.imgSizeY)) = _
    rw [hsof, hstart, hsize]
    rfl
  refine ⟨hstart, p', ⟨?_, ?_, ?_, ?_, ?_, ?_, ?_, ?_, ?_, ?_, ?_⟩, hmove.cycles⟩
  · show (s.step i).regs.At i.cmpIdx p'
    rw [hcmp]
    exact hmove.phase
  · exact sees_step h hstart hmove.looks hmove.reading
  · rw [hmove.reading]
    exact halves_step h hstart (looks_of_rdEn h hne)
  · exact room_step hkeeps hstart
  · exact h.bits_step hmove hbusy hstart hsof hcmp hlast
  · exact blocks_step h hkeeps.count
  · intro _
    rfl
  · intro _ _
    rw [hlast]
    exact lastBlock_step s i h.blocks (h.area hbusy)
  · have hcount := h.count
    rw [hready, hbusy, Bool.toNat_true, Bool.toNat_false] at hcount
    show s.starts + i.startPb.toNat = s.readies + s.regs.readyPb.toNat + (s.step i).regs.readyPb.toNat + p'.busy.toNat
    rw [hstart, hready, hcount]
    cases hr : (s.step i).regs.readyPb with
    | true =>
      obtain rfl := hmove.ready.1 hr
      rfl
    | false =>
      match p', hmove.ready with
      | .idle, hiff => exact absurd (hr.symm.trans (hiff.2 rfl)) Bool.false_ne_true
      | .start _ _, _ | .fetch _ _, _ | .vlc _ _ _, _ | .vlcOut _ _ _ _, _ | .vli _ _, _ | .vliOut _ _, _ | .pad, _
      | .padOut, _ => rfl
  · exact hmove.ready.1
  · intro hp hr
    exact absurd (hr.symm.trans (hmove.ready.2 hp)) Bool.false_ne_true

theorem coming_idle (h : Inv s .idle) : s.bits = s.log.flatMap byteBits ++ (s.regs.out ++ s.regs.held) := by
  rw [h.bits]
  exact List.append_nil _

theorem length_held_idle (h : Inv s .idle) : s.regs.held.length < 8 := by
  have hbit := h.phase.2.bitPtr
  rw [Regs.held, length_held _ (by omega)]
  exact hbit

/-- The first word of a block is at the output of its FIFO. -/
theorem Inv.sees_start {w : Rle.Word} {ws : List Rle.Word} (h : Inv s .idle) (hkeeps : Keeps s i) (hstart : i.startPb = true)
    (hws : s.filling = w :: ws) :
    (Phase.start w ws).Sees ((s.step i).fifo.dataOut (s.step i).regs.rleBufSel)
      ((s.step i).fifo.fifoEmpty (s.step i).regs.rleBufSel) := by
  obtain ⟨-, -, hwr⟩ := hkeeps.filled hstart
  have hsel : (s.step i).regs.rleBufSel = !s.regs.rleBufSel := by
    show (if i.startPb then _ else _) = _
    rw [hstart]
    rfl
  have hnoread : Function.update (fun _ => false) (!s.regs.rleBufSel) s.regs.rdEn s.regs.rleBufSel = false :=
    Function.update_of_ne (Bool.not_ne_self _).symm _ _
  intro _
  rw [hsel]
  refine ⟨?_, fun v hv => ?_⟩
  · have hempty := h.halves.empty_fill i.wren i.data hnoread hwr h.room
    rw [hws] at hempty
    show ((s.fifo.halves.step _ _ _ _).fifo !!s.regs.rleBufSel).emptyReg = _
    rw [Bool.not_not]
    exact hempty
  · obtain rfl : w = v := Option.some.inj hv
    obtain ⟨q, hq, hfill⟩ := h.halves.fill
    rw [hwr, if_neg Bool.false_ne_true, List.append_nil, hws] at hfill
    rw [← hfill] at hq
    show ((s.fifo.halves.step _ _ _ _).fifo !!s.regs.rleBufSel).datao = _
    rw [Bool.not_not]
    exact hq.datao_step _

/-- The bits of a block that is started are on the way. -/
theorem Inv.bits_start {w : Rle.Word} {ws : List Rle.Word} (h : Inv s .idle) (hstart : i.startPb = true) (hsof : i.sof = false)
    (hws : s.filling = w :: ws) (hout : (s.step i).regs.out = []) (hheld : (s.step i).regs.held = s.regs.held) :
    (s.step i).bits = (s.step i).coming (.start w ws) ++
      if (Phase.start w ws).Open ∧ (s.step i).isLast then ones ((s.step i).coming (.start w ws)).length else [] := by
  have hbits : (s.step i).bits = withBlock s.bits (codeBits i.cmpIdx true s.filling)
      (decide (s.blocks + 1 = blockTotal (i.imgSizeX, i.imgSizeY))) := by
    show (if i.startPb then _ else _) = _
    rw [hstart]
    rfl
  have hlast : (s.step i).isLast = decide (s.blocks + 1 = blockTotal (i.imgSizeX, i.imgSizeY)) := by
    have hblocks : (s.step i).blocks = s.blocks + 1 := by
      show (if i.sof then 0 else if i.startPb then _ else _) = _
      rw [hsof, hstart]
      rfl
    rw [State.isLast, hblocks]
    rfl
  have hcoming : (s.step i).coming (.start w ws) = s.bits ++ codeBits i.cmpIdx true s.filling := by
    rw [State.coming, log_step, coming_idle h, hws]
    show _ ++ ((s.step i).regs.out ++ ((s.step i).regs.held ++ codeBits i.cmpIdx true (w :: ws))) = _
    rw [show (s.step i).regs.out = [] from hout, show (s.step i).regs.held = s.regs.held from hheld]
    simp only [List.append_assoc, List.nil_append]
  rw [hbits, hcoming, withBlock, hlast]
  simp [Phase.Open]

/-- A start of a block. -/
theorem Inv.start (h : Inv s .idle) (hkeeps : Keeps s i) (hstart : i.startPb = true) :
    ∃ w ws, Inv (s.step i) (.start w ws) := by
  obtain ⟨hfilling, hwren, hwr⟩ := hkeeps.filled hstart
  obtain ⟨w, ws, hws⟩ := List.exists_cons_of_ne_nil hfilling
  have hwait := hkeeps.waits (.inl hstart)
  have hcount := h.count
  have hready : s.regs.readyPb = false := by
    cases hr : s.regs.readyPb with
    | false => rfl
    | true =>
      rw [hr, Bool.toNat_true] at hcount
      omega
  have hsof : i.sof = false := by
    cases hs : i.sof with
    | false => rfl
    | true => exact absurd hstart (by rw [hkeeps.apart hs]; decide)
  have hrd : s.regs.rdEn = false := h.phase.1.rdEn
  obtain ⟨hphase, hout, hready', hheld⟩ :=
    h.phase.idle_step (s.fifo.dataOut s.regs.rleBufSel) (s.fifo.fifoEmpty s.regs.rleBufSel) w ws hkeeps.apart i.cmpIdx
  rw [hstart, if_pos rfl] at hphase
  rw [hsof, if_neg Bool.false_ne_true] at hheld
  have hsel : (s.step i).regs.rleBufSel = !s.regs.rleBufSel := by
    show (if i.startPb then _ else _) = _
    rw [hstart]
    rfl
  have hnoread : Function.update (fun _ => false) (!s.regs.rleBufSel) s.regs.rdEn s.regs.rleBufSel = false :=
    Function.update_of_ne (Bool.not_ne_self _).symm _ _
  have hfilled : (s.step i).filling = [] := by
    show (if i.startPb then _ else _) = _
    rw [hstart]
    rfl
  refine ⟨w, ws, hphase, ?_, ?_, ?_, ?_, blocks_step h hkeeps.count, fun _ => rfl, ?_, ?_, ?_, nofun⟩
  · exact h.sees_start hkeeps hstart hws
  · have hstep := h.halves.step i.wren i.data hnoread h.room
    have hleft : s.fifo.halves.left s.regs.rleBufSel Phase.idle.reading
        (Function.update (fun _ => false) (!s.regs.rleBufSel) s.regs.rdEn) = [] := by
      rw [JpegFifo.Halves.left]
      split <;> rfl
    have hnone : (if i.wren then [i.data] else []) = [] := by
      rw [hwren]
      rfl
    rw [hleft, hnone, List.append_nil, hws] at hstep
    rw [hsel, hfilled]
    refine hstep.swap ?_ (by decide)
    exact (Function.update_self _ _ _).trans hwren
  · rw [hfilled]
    exact Nat.zero_le 64
  · exact h.bits_start hstart hsof hws hout hheld
  · intro _ hno
    exact absurd rfl (hno w ws)
  · show s.starts + i.startPb.toNat = s.readies + s.regs.readyPb.toNat + (s.step i).regs.readyPb.toNat + 1
    rw [hstart, hready, show (s.step i).regs.readyPb = false from hready', hwait]
    rfl
  · intro hr
    exact absurd (hready'.symm.trans hr) Bool.false_ne_true

/-- A cycle between two blocks. -/
theorem Inv.idle (h : Inv s .idle) (hkeeps : Keeps s i) (hstart : i.startPb = false) : Inv (s.step i) .idle := by
  have hrd : s.regs.rdEn = false := h.phase.1.rdEn
  obtain ⟨hphase, hout, hready', hheld⟩ :=
    h.phase.idle_step (s.fifo.dataOut s.regs.rleBufSel) (s.fifo.fifoEmpty s.regs.rleBufSel) ⟨0, 0, 0⟩ [] hkeeps.apart
      i.cmpIdx
  rw [hstart, if_neg Bool.false_ne_true] at hphase
  have hbits := coming_idle h
  have hlen := length_held_idle h
  refine ⟨hphase, nofun, ?_, ?_, ?_, blocks_step h hkeeps.count, nofun, nofun, ?_, fun _ => rfl, fun _ _ => hout⟩
  · have hhalves := halves_step h hstart fun hr => absurd (hrd.symm.trans hr) Bool.false_ne_true
    rw [hrd] at hhalves
    exact hhalves
  · exact room_step hkeeps hstart
  · have hcoming : (s.step i).coming .idle = s.log.flatMap byteBits ++ s.regs.out ++ if i.sof then [] else s.regs.held := by
      rw [State.coming, log_step]
      show _ ++ ((s.step i).regs.out ++ (s.step i).regs.held) = _
      rw [show (s.step i).regs.out = [] from hout, show (s.step i).regs.held = _ from hheld]
      rfl
    have hnone : (if Phase.idle.Open = true ∧ (s.step i).isLast = true then ones ((s.step i).coming .idle).length else []) =
        [] := if_neg fun hc => Bool.false_ne_true hc.1
    rw [hnone, List.append_nil, hcoming]
    show (if i.startPb then _ else if i.sof then _ else _) = _
    rw [hstart, if_neg Bool.false_ne_true]
    cases i.sof with
    | false =>
      rw [if_neg Bool.false_ne_true, if_neg Bool.false_ne_true, hbits, List.append_assoc]
    | true =>
      rw [if_pos rfl, if_pos rfl, List.append_nil, hbits, ← List.append_assoc]
      exact wholeBytes_append (length_written s) hlen
  · have hcount := h.count
    show s.starts + i.startPb.toNat = s.readies + s.regs.readyPb.toNat + (s.step i).regs.readyPb.toNat + 0
    rw [hstart, show (s.step i).regs.readyPb = false from hready', hcount]
    rfl

end

theorem Inv.step {s : State} {i : Input} (h : ∃ p, Inv s p) (hkeeps : Keeps s i) : ∃ p, Inv (s.step i) p := by
  obtain ⟨p, h⟩ := h
  cases hbusy : p.busy with
  | true =>
    obtain ⟨-, p', h', -⟩ := h.busy hkeeps hbusy
    exact ⟨p', h'⟩
  | false =>
    obtain rfl : p = .idle := by
      cases p with
      | idle => rfl
      | _ => cases hbusy
    cases hstart : i.startPb with
    | true =>
      obtain ⟨w, ws, h'⟩ := h.start hkeeps hstart
      exact ⟨_, h'⟩
    | false => exact ⟨_, h.idle hkeeps hstart⟩

theorem inv_reset (mem : Bool → BitVec 6 → Rle.Word) (readAddr : Bool → BitVec 6) : Inv (.reset mem readAddr) .idle where
  phase  := ⟨⟨rfl, rfl, rfl, rfl⟩, ⟨rfl, rfl, rfl, Nat.zero_lt_succ 7⟩⟩
  sees   := nofun
  halves := ⟨JpegFifo.Fifo.holds_reset _ _, rfl, ⟨[], JpegFifo.Fifo.holds_reset _ _, rfl⟩, rfl⟩
  room   := Nat.zero_le 64
  bits   := rfl
  blocks := ⟨rfl, Nat.two_pow_pos 28⟩
  area   := nofun
  last   := nofun
  count  := rfl
  ready  := nofun
  out    := fun _ _ => rfl

theorem Inv.cycles_le {s : State} {p : Phase} (h : Inv s p) : p.cycles ≤ 392 := by
  have hle : p.reading.length ≤ 64 := h.halves.read.le
  match p with
  | .idle => exact Nat.zero_le 392
  | .pad => exact Nat.le_add_left 2 390
  | .padOut => exact Nat.le_add_left 1 391
  | .start w ws | .fetch w ws =>
    rw [Phase.reading, List.length_cons] at hle
    rw [Phase.cycles]
    omega
  | .vlc first w ws =>
    have hlen : ws.length ≤ 64 := by
      cases first
      · exact Nat.le_trans (Nat.le_succ _) hle
      · exact hle
    rw [Phase.cycles]
    omega
  | .vlcOut first w ws n | .vli w ws | .vliOut ws n =>
    rw [Phase.reading] at hle
    rw [Phase.cycles]
    omega

/-- The cycles until the encoder is idle. -/
theorem Inv.drains : ∀ {is : List Input} {s : State} {p : Phase}, Inv s p → AllSteps State.step Keeps s is →
    (∀ i ∈ is, i.startPb = false) → ∃ p', Inv (is.foldl State.step s) p' ∧ p'.cycles ≤ p.cycles - is.length ∧
      (p = .idle → p' = .idle)
  | [], _, p, h, _, _ => ⟨p, h, Nat.le_refl _, id⟩
  | i :: is, s, p, h, hkeeps, hquiet => by
    cases hbusy : p.busy with
    | true =>
      obtain ⟨-, p', h', hcycles⟩ := h.busy hkeeps.1 hbusy
      obtain ⟨p'', h'', hcycles', -⟩ := h'.drains hkeeps.2 fun j hj => hquiet j (List.mem_cons_of_mem _ hj)
      refine ⟨p'', h'', ?_, ?_⟩
      · rw [List.length_cons]
        omega
      · rintro rfl
        cases hbusy
    | false =>
      obtain rfl : p = .idle := by
        cases p with
        | idle => rfl
        | _ => cases hbusy
      obtain ⟨p'', h'', hcycles', hidle⟩ := (h.idle hkeeps.1 (hquiet i List.mem_cons_self)).drains hkeeps.2 fun j hj =>
        hquiet j (List.mem_cons_of_mem _ hj)
      refine ⟨p'', h'', ?_, hidle⟩
      rw [Phase.cycles, Nat.zero_sub] at hcycles' ⊢
      exact hcycles'

theorem idle_of_cycles {s : State} {p : Phase} (h : Inv s p) (hdone : p.cycles = 0) : p = .idle := by
  match p, h.phase with
  | .idle, _ => rfl
  | .start w ws, _ | .fetch w ws, _ | .vlc _ _ ws, _ | .vli _ ws, _ =>
    rw [Phase.cycles] at hdone
    omega
  | .vlcOut _ _ ws n, hp =>
    have hlt := hp.2.1.lt
    rw [Phase.cycles] at hdone
    omega
  | .vliOut ws n, hp =>
    have hlt := hp.2.1.lt
    rw [Phase.cycles] at hdone
    omega

/-- The encoder has answered its last start. -/
theorem Inv.resting {s : State} {p : Phase} (h : Inv s p) (hdone : s.starts = s.readies) :
    p = .idle ∧ s.regs.readyPb = false := by
  have hcount := h.count
  constructor
  · cases hbusy : p.busy with
    | true =>
      rw [hbusy, Bool.toNat_true] at hcount
      omega
    | false =>
      cases p with
      | idle => rfl
      | _ => cases hbusy
  · cases hr : s.regs.readyPb with
    | false => rfl
    | true =>
      rw [hr, Bool.toNat_true] at hcount
      omega

/-- Then it writes no byte. -/
theorem Inv.silent {s : State} {p : Phase} (h : Inv s p) (hdone : s.starts = s.readies) : s.regs.fifoWren = false := by
  obtain ⟨hidle, hready⟩ := h.resting hdone
  have hout := congrArg List.length (h.out hidle hready)
  cases hwren : s.regs.fifoWren with
  | false => rfl
  | true =>
    rw [Regs.out, hwren, if_pos rfl, length_byteBits] at hout
    cases hout

theorem Inv.coded {s : State} {p : Phase} (h : Inv s p) :
    s.log.flatMap byteBits <+: s.bits ∧ s.readies ≤ s.starts ∧ s.starts ≤ s.readies + 1 ∧
      (s.starts = s.readies → s.log.flatMap byteBits = wholeBytes s.bits) ∧
      ∀ more : List Input, AllSteps State.step Keeps s more → (∀ i ∈ more, i.startPb = false) → 393 ≤ more.length →
        (more.foldl State.step s).starts = (more.foldl State.step s).readies := by
  have hcount := h.count
  refine ⟨?_, ?_, ?_, ?_, ?_⟩
  · rw [h.bits, State.coming, List.append_assoc]
    exact List.prefix_append _ _
  · exact Nat.le_trans (Nat.le_add_right _ _) (Nat.le_trans (Nat.le_add_right _ _) hcount.ge)
  · cases hr : s.regs.readyPb with
    | false =>
      have hbusy := Bool.toNat_le p.busy
      rw [hr, Bool.toNat_false] at hcount
      omega
    | true =>
      rw [hr, h.ready hr, Bool.toNat_true] at hcount
      exact hcount.le
  · intro hdone
    obtain ⟨rfl, hready⟩ := h.resting hdone
    rw [coming_idle h, ← List.append_assoc, wholeBytes_append (length_written s) (length_held_idle h), h.out rfl hready,
      List.append_nil]
  · intro more hmore hquiet hlen
    obtain ⟨last, hsplit⟩ : ∃ last, more.drop (more.length - 1) = [last] :=
      List.length_eq_one_iff.1 (by rw [List.length_drop]; omega)
    have hmore' := List.take_append_drop (more.length - 1) more
    rw [hsplit] at hmore'
    rw [← hmore', Runs.allSteps_append] at hmore
    obtain ⟨p', h', hcycles, -⟩ := h.drains hmore.1 fun l hl => hquiet l (List.mem_of_mem_take hl)
    obtain rfl : p' = .idle := by
      refine idle_of_cycles h' ?_
      have hle := h.cycles_le
      rw [List.length_take, Nat.min_eq_left (Nat.sub_le _ _)] at hcycles
      omega
    have hlast := hquiet last (List.mem_of_mem_drop (hsplit ▸ List.mem_singleton_self last))
    have hcount' := h'.count
    rw [← hmore', List.foldl_append]
    show _ + last.startPb.toNat = _
    rw [hlast, hcount']
    rfl

end Huffman
end Hdmi2Usb
