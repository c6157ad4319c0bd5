import Hdmi2Usb.HuffmanRoms
import Hdmi2Usb.JpegFifo
import Hdmi2Usb.PrefixCodes
/-!
# Huffman — the Huffman encoder (`Huffman.vhd`)

A start makes the encoder read the words of a block from the half of the RLE FIFO that the run-length coder does not
write.  `p_vlp` puts the code word of a word, and then its amplitude bits, behind the bits in `word_reg` that are not
written yet; each time `p_HandleFifoWrites` writes the whole bytes among them, and the register is shifted behind it.
Behind the last block of an image the bits that are left are filled up with ones.
-/
namespace Hdmi2Usb
namespace Huffman

open JpegFifo (RleDoubleFifo)

/-- `T_STATE` -/
inductive VlpState
  | idle | runVlc | runVli | pad
deriving DecidableEq, Repr

/-- The registers behind the output of the RLE FIFO: `p_latch_fifo`, the ROMs and `p_vli_dly`. -/
structure Latch where
  vliSizeR  : BitVec 4
  vliR      : BitVec 12
  vlcDc     : BitVec 4 × BitVec 9
  vlcAc     : BitVec 5 × BitVec 16
  vlcCrDc   : BitVec 4 × BitVec 11
  vlcCrAc   : BitVec 5 × BitVec 16
  vliSizeD1 : BitVec 4
  vliD1     : BitVec 12
  dValD1    : Bool

/-- `p_mux` -/
structure Mux where
  vlcSize : BitVec 5
  vlc     : BitVec 16

/-- `p_rle_buf_sel` and `p_blk_cnt` -/
structure Blocks where
  rleBufSel     : Bool
  imageAreaSize : BitVec 32
  blockCnt      : BitVec 28
  lastBlock     : Bool

/-- `p_HandleFifoWrites` -/
structure Hfw where
  readyHfw   : Bool
  fifoWbyte  : Byte
  fifoWrtCnt : BitVec 2
  fifoWren   : Bool
  rdEn       : Bool
  startPbD1  : Bool

/-- `p_vlp` -/
structure Vlp where
  state        : VlpState
  firstRleWord : Bool
  wordReg      : BitVec 23
  bitPtr       : BitVec 5
  hfwRunning   : Bool
  padByte      : Byte
  padReg       : Bool
  readyPb      : Bool

structure Regs extends Latch, Mux, Blocks, Hfw, Vlp

/-- What comes in besides the words of the RLE FIFO. -/
structure Ctrl where
  startPb  : Bool
  sof      : Bool
  cmpIdx   : BitVec 3
  imgSizeX : BitVec 16
  imgSizeY : BitVec 16

/-- The vector whose bits, from the top one down, are those of `f`. -/
def ofBits (n : ℕ) (f : ℕ → Bool) : BitVec n := BitVec.ofNat n (PrefixCodes.value ((List.range n).map f))

/-- `num_fifo_wrs` -/
def Regs.numFifoWrs (r : Regs) : BitVec 2 := r.bitPtr.extractLsb' 3 2

/-- The loop that puts `size` bits of `code` behind the first `bitPtr` bits. -/
def place (wordReg : BitVec 23) (bitPtr : BitVec 5) (code : BitVec 16) (size : BitVec 5) : BitVec 23 :=
  ofBits 23 fun m =>
    if bitPtr.toNat ≤ m ∧ m - bitPtr.toNat < size.toNat then code.getLsbD (size.toNat - 1 - (m - bitPtr.toNat))
    else wordReg.getMsbD m

/-! ## The processes

What each makes of its registers; `r` are those before the clock edge. -/

/-- `p_latch_fifo`, the ROMs and `p_vli_dly`; `d_val` is the read request. -/
def Regs.latch (r : Regs) (q : Rle.Word) : Latch where
  vliSizeR  := if r.rdEn then q.size else r.vliSizeR
  vliR      := if r.rdEn then q.amplitude else r.vliR
  vlcDc     := dcRom q.size
  vlcAc     := acRom q.runlength q.size
  vlcCrDc   := dcCrRom q.size
  vlcCrAc   := acCrRom q.runlength q.size
  vliSizeD1 := r.vliSizeR
  vliD1     := r.vliR
  dValD1    := r.rdEn

/-- `p_mux` -/
def Regs.mux (r : Regs) (i : Ctrl) : Mux :=
  if r.firstRleWord then
    if i.cmpIdx.toNat < 2 then ⟨r.vlcDc.1.setWidth 5, r.vlcDc.2.setWidth 16⟩
    else ⟨r.vlcCrDc.1.setWidth 5, r.vlcCrDc.2.setWidth 16⟩
  else if i.cmpIdx.toNat < 2 then ⟨r.vlcAc.1, r.vlcAc.2⟩
  else ⟨r.vlcCrAc.1, r.vlcCrAc.2⟩

/-- `p_rle_buf_sel` and `p_blk_cnt` -/
def Regs.blocks (r : Regs) (i : Ctrl) : Blocks where
  rleBufSel     := if i.startPb then !r.rleBufSel else r.rleBufSel
  imageAreaSize := i.imgSizeX.setWidth 32 * i.imgSizeY.setWidth 32
  blockCnt      := if i.sof then 0 else if i.startPb then r.blockCnt + 1 else r.blockCnt
  lastBlock     := decide (r.blockCnt = (r.imageAreaSize.extractLsb' 5 27).setWidth 28)

/-- `p_HandleFifoWrites` -/
def Regs.hfw (r : Regs) (rleFifoEmpty : Bool) (i : Ctrl) : Hfw :=
  let n := { r.toHfw with fifoWren := false, readyHfw := false, rdEn := false, startPbD1 := i.startPb }
  let n := if r.startPbD1 then { n with rdEn := !rleFifoEmpty } else n
  let n :=
    if r.hfwRunning ∧ ¬ r.readyHfw then
      if r.numFifoWrs = 0 then
        { n with readyHfw := true, rdEn := if r.state = .runVli then !rleFifoEmpty else n.rdEn }
      else
        let n := { n with fifoWrtCnt := r.fifoWrtCnt + 1, fifoWren := true }
        if r.fifoWrtCnt + 1 = r.numFifoWrs then
          { n with readyHfw := true, rdEn := if r.state = .runVli then !rleFifoEmpty else n.rdEn, fifoWrtCnt := 0 }
        else n
    else n
  { n with
    fifoWbyte :=
      if r.padReg then r.padByte
      else if r.fifoWrtCnt = 0 then r.wordReg.extractLsb' 15 8
      else if r.fifoWrtCnt = 1 then r.wordReg.extractLsb' 7 8
      else 0 }

/-- `HandleFifoWrites completed` -/
def Regs.Written (r : Regs) : Prop := r.hfwRunning ∧ (r.numFifoWrs = 0 ∨ r.fifoWrtCnt + 1 = r.numFifoWrs)

instance (r : Regs) : Decidable r.Written := inferInstanceAs (Decidable (_ ∧ _))

/-- The number of the bits in the bytes that were written. -/
def Regs.writtenBits (r : Regs) : BitVec 5 := r.numFifoWrs ++ (0 : BitVec 3)

/-- The register behind the bytes that were written. -/
def Regs.shifted (r : Regs) (n : Vlp) : Vlp :=
  { n with wordReg := r.wordReg <<< r.writtenBits.toNat, bitPtr := r.bitPtr - r.writtenBits, hfwRunning := false }

/-- `p_vlp` -/
def Regs.vlp (r : Regs) (rleFifoEmpty : Bool) (i : Ctrl) : Vlp :=
  let n := { r.toVlp with readyPb := false }
  let n := match r.state with
    | .idle => if i.startPb then { n with firstRleWord := true, state := .runVlc } else n
    | .runVlc =>
      if (r.dValD1 ∧ r.firstRleWord) ∨ (r.rdEn ∧ ¬ r.firstRleWord) then
        { n with wordReg := place r.wordReg r.bitPtr r.vlc r.vlcSize, bitPtr := r.bitPtr + r.vlcSize, hfwRunning := true }
      else if r.Written then { r.shifted n with firstRleWord := false, state := .runVli }
      else n
    | .runVli =>
      if ¬ r.hfwRunning then
        { n with
          wordReg    := place r.wordReg r.bitPtr (r.vliD1.setWidth 16) (r.vliSizeD1.setWidth 5)
          bitPtr     := r.bitPtr + r.vliSizeD1.setWidth 5
          hfwRunning := true }
      else if r.Written then
        let n := r.shifted n
        if rleFifoEmpty then
          if r.bitPtr - r.writtenBits ≠ 0 ∧ r.lastBlock then { n with state := .pad }
          else { n with readyPb := true, state := .idle }
        else { n with state := .runVlc }
      else n
    | .pad =>
      if ¬ r.hfwRunning then
        { n with
          padByte    := ofBits 8 fun k => if k < r.bitPtr.toNat then r.wordReg.getMsbD k else true
          padReg     := true
          bitPtr     := 8
          hfwRunning := true }
      else if r.Written then
        { n with bitPtr := 0, hfwRunning := false, padReg := false, readyPb := true, state := .idle }
      else n
  if i.sof then { n with bitPtr := 0 } else n

/-- A clock edge. -/
def Regs.step (r : Regs) (q : Rle.Word) (rleFifoEmpty : Bool) (i : Ctrl) : Regs where
  toLatch  := r.latch q
  toMux    := r.mux i
  toBlocks := r.blocks i
  toHfw    := r.hfw rleFifoEmpty i
  toVlp    := r.vlp rleFifoEmpty i

/-- Under `rst`; the registers that it leaves alone are 0 from power-on. -/
def Regs.reset : Regs where
  state         := .idle
  rleBufSel     := false
  firstRleWord  := false
  wordReg       := 0
  bitPtr        := 0
  readyHfw      := false
  fifoWbyte     := 0
  fifoWrtCnt    := 0
  fifoWren      := false
  lastBlock     := false
  imageAreaSize := 0
  blockCnt      := 0
  vlcSize       := 0
  vlc           := 0
  vlcDc         := (0, 0)
  vlcAc         := (0, 0)
  vlcCrDc       := (0, 0)
  vlcCrAc       := (0, 0)
  dValD1        := false
  vliSizeD1     := 0
  vliD1         := 0
  hfwRunning    := false
  vliSizeR      := 0
  vliR          := 0
  rdEn          := false
  padByte       := 0
  padReg        := false
  startPbD1     := false
  readyPb       := false

end Huffman
end Hdmi2Usb
