import Hdmi2Usb.ByteStuffer
import Hdmi2Usb.CtrlSmProgress
import Hdmi2Usb.HuffmanBlocks
import Hdmi2Usb.JpegImage
import Hdmi2Usb.RleBlocks
import Mathlib.Tactic.Ring
/-!
# JpegPipeline — the last stages of the encoder, one behind the other (`JpegEnc.vhd`)

The run-length coder writes its words into the FIFO of the Huffman encoder, and that its bytes into the FIFO of the byte
stuffer.  The control starts a stage with a block when the stage before it has answered, and a stage gets the next block
when the stage behind it has taken the last one.  So what is written of an image is its blocks, coded and stuffed
(`image_written`), and behind the header it is a file from which the blocks are read back (`image_piped`).
-/
namespace Hdmi2Usb
namespace JpegPipeline

open ByteStuffer (hdrSize placed)
open Huffman (blockTotal byteBits ones wholeBytes withBlock)
open JpegFile (Fills bits)
open JpegImage (Coefs block imageBits)
open JpegScan (Block codeBlock codeBlocks predsAfter)
open Rle (component wordOf)
open Runs (AllSteps)
open Stuffing (stuff)

/-- The starts of the stages with their components, the size of the image, and what the quantiser writes. -/
structure Input where
  sof       : Bool
  imgSizeX  : BitVec 16
  imgSizeY  : BitVec 16
  rleStart  : Bool
  rleCmpIdx : BitVec 3
  hufStart  : Bool
  hufCmpIdx : BitVec 3
  bsStart   : Bool
  write     : Option (BitVec 6 × BitVec 12)

/-- The stages, with the blocks of the image that the first of them was started with, the number of those that the last of
them was started with, and what is written of the image. -/
structure State where
  rle     : Rle.State
  huf     : Huffman.State
  bs      : ByteStuffer.State
  blocks  : List Coefs
  passed  : ℕ
  written : List ByteStuffer.Write

def Input.rle (i : Input) : Rle.Input := ⟨⟨i.rleStart, i.sof, i.rleCmpIdx⟩, i.write⟩

/-- `dbuf_we` and `dbuf_data` -/
def State.hufInput (s : State) (i : Input) : Huffman.Input :=
  ⟨⟨i.hufStart, i.sof, i.hufCmpIdx, i.imgSizeX, i.imgSizeY⟩, s.rle.regs.dovalid, s.rle.regs.word⟩

/-- `fifo_wren` and `fifo_wbyte` -/
def State.bsInput (s : State) (i : Input) : ByteStuffer.Input :=
  ⟨⟨i.bsStart, i.sof⟩, s.huf.regs.fifoWren, s.huf.regs.fifoWbyte⟩

def State.step (s : State) (i : Input) : State where
  rle     := s.rle.step i.rle
  huf     := s.huf.step (s.hufInput i)
  bs      := s.bs.step (s.bsInput i)
  blocks  :=
    if i.sof then [] else if i.rleStart then s.blocks ++ [(i.rleCmpIdx, (s.rle.blockAt i.rle).coefs)] else s.blocks
  passed  := if i.sof then 0 else s.passed + i.bsStart.toNat
  written := if i.sof then [] else s.written ++ s.bs.regs.out

/-- After a reset, with anything in the memories. -/
def State.reset (buffer : Rle.Buffer) (mem : Bool → BitVec 6 → Rle.Word) (readAddr : Bool → BitVec 6)
    (bsMem : Bool → BitVec 7 → Byte) (bsReadAddr : Bool → BitVec 7) (dataIn dataOut : Byte) : State where
  rle     := .reset buffer
  huf     := .reset mem readAddr
  bs      := .reset bsMem bsReadAddr dataIn dataOut
  blocks  := []
  passed  := 0
  written := []

/-- All stages have answered, and no block is between them. -/
structure State.Drained (s : State) : Prop where
  rle    : s.rle.starts = s.rle.readies
  huf    : s.huf.starts = s.huf.readies
  bs     : s.bs.starts = s.bs.readies
  taken  : s.huf.blocks = s.blocks.length
  passed : s.passed = s.huf.blocks

instance (s : State) : Decidable s.Drained :=
  decidable_of_iff (s.rle.starts = s.rle.readies ∧ s.huf.starts = s.huf.readies ∧ s.bs.starts = s.bs.readies ∧
      s.huf.blocks = s.blocks.length ∧ s.passed = s.huf.blocks)
    ⟨fun h => ⟨h.1, h.2.1, h.2.2.1, h.2.2.2.1, h.2.2.2.2⟩, fun h => ⟨h.rle, h.huf, h.bs, h.taken, h.passed⟩⟩

/-- What the other side keeps to: an image begins when all stages have answered, and its size holds still; a stage is
started with the block that the stage before it has answered, two cycles behind the last write of that, and not again
before the stage behind it has taken the block; the components change with the starts; the block of a start is in range,
and the coded bytes of one are no more than the 128 that the last FIFO holds. -/
structure Keeps (s : State) (i : Input) : Prop where
  size    : i.sof = false → (i.imgSizeX, i.imgSizeY) = s.huf.imgSize
  image   : i.sof = true → i.rleStart = false ∧ i.hufStart = false ∧ i.bsStart = false ∧ s.Drained
  cmp     : i.rleCmpIdx.toNat < 4 ∧ (i.rleStart = false → i.rleCmpIdx = s.rle.cmpIdx) ∧
    (i.hufStart = false → i.hufCmpIdx = s.huf.cmpIdx)
  rleTurn : i.rleStart = true → s.huf.blocks = s.blocks.length ∧ s.blocks.length < blockTotal s.huf.imgSize
  hufTurn : i.hufStart = true → s.rle.starts = s.rle.readies ∧ s.passed = s.huf.blocks ∧
    s.huf.blocks + 1 = s.blocks.length ∧ s.blocks[s.huf.blocks]?.map Prod.fst = some i.hufCmpIdx ∧
    s.huf.fifo.halves.fifoWr s.huf.regs.rleBufSel = false
  bsTurn  : i.bsStart = true → s.huf.starts = s.huf.readies ∧ s.bs.starts = s.bs.readies ∧ s.passed + 1 = s.huf.blocks ∧
    s.bs.fifo.halves.fifoWr s.bs.regs.hufBufSel = false
  range   : i.rleStart = true →
    Rle.InRange (predsAfter 0 (s.rle.imageAt i.rle) (component i.rleCmpIdx)) (s.rle.blockAt i.rle).coefs
  room    : s.bs.filling.length + s.huf.regs.fifoWren.toNat ≤ 128

instance (s : State) (i : Input) : Decidable (Keeps s i) :=
  decidable_of_iff
    ((i.sof = false → (i.imgSizeX, i.imgSizeY) = s.huf.imgSize) ∧
      (i.sof = true → i.rleStart = false ∧ i.hufStart = false ∧ i.bsStart = false ∧ s.Drained) ∧
      (i.rleCmpIdx.toNat < 4 ∧ (i.rleStart = false → i.rleCmpIdx = s.rle.cmpIdx) ∧
        (i.hufStart = false → i.hufCmpIdx = s.huf.cmpIdx)) ∧
      (i.rleStart = true → s.huf.blocks = s.blocks.length ∧ s.blocks.length < blockTotal s.huf.imgSize) ∧
      (i.hufStart = true → s.rle.starts = s.rle.readies ∧ s.passed = s.huf.blocks ∧ s.huf.blocks + 1 = s.blocks.length ∧
        s.blocks[s.huf.blocks]?.map Prod.fst = some i.hufCmpIdx ∧
        s.huf.fifo.halves.fifoWr s.huf.regs.rleBufSel = false) ∧
      (i.bsStart = true → s.huf.starts = s.huf.readies ∧ s.bs.starts = s.bs.readies ∧ s.passed + 1 = s.huf.blocks ∧
        s.bs.fifo.halves.fifoWr s.bs.regs.hufBufSel = false) ∧
      (i.rleStart = true →
        Rle.InRange (predsAfter 0 (s.rle.imageAt i.rle) (component i.rleCmpIdx)) (s.rle.blockAt i.rle).coefs) ∧
      s.bs.filling.length + s.huf.regs.fifoWren.toNat ≤ 128)
    ⟨fun h => ⟨h.1, h.2.1, h.2.2.1, h.2.2.2.1, h.2.2.2.2.1, h.2.2.2.2.2.1, h.2.2.2.2.2.2.1, h.2.2.2.2.2.2.2⟩,
      fun h => ⟨h.size, h.image, h.cmp, h.rleTurn, h.hufTurn, h.bsTurn, h.range, h.room⟩⟩

/-- What the starts of a cycle say about the blocks between the stages. -/
theorem Keeps.turns {s : State} {i : Input} (h : Keeps s i) :
    (i.rleStart = false ∨
      i.rleStart = true ∧ s.huf.blocks = s.blocks.length ∧ s.blocks.length < blockTotal s.huf.imgSize) ∧
    (i.hufStart = false ∨ i.hufStart = true ∧ s.passed = s.huf.blocks ∧ s.huf.blocks + 1 = s.blocks.length) ∧
    (i.bsStart = false ∨ i.bsStart = true ∧ s.passed + 1 = s.huf.blocks) := by
  refine ⟨?_, ?_, ?_⟩
  · cases hstart : i.rleStart with
    | false => exact .inl rfl
    | true  => exact .inr ⟨rfl, h.rleTurn hstart⟩
  · cases hstart : i.hufStart with
    | false => exact .inl rfl
    | true  => exact .inr ⟨rfl, (h.hufTurn hstart).2.1, (h.hufTurn hstart).2.2.1⟩
  · cases hstart : i.bsStart with
    | false => exact .inl rfl
    | true  => exact .inr ⟨rfl, (h.bsTurn hstart).2.2.1⟩

/-- The bits of the blocks that the Huffman encoder was started with, filled up behind the last one. -/
def State.taken (s : State) : List Bool :=
  let code := imageBits 0 (s.blocks.take s.huf.blocks)
  code ++ if s.huf.blocks = blockTotal s.huf.imgSize then ones code.length else []

/-- What a run keeps: `old` are the bytes of the images before, `new` are those of this one that the stuffer was started
with, and `adr` is the address of the first of them. -/
structure Inv (old new : List Byte) (adr : BitVec 24) (s : State) : Prop where
  rle     : ∃ p pred ws, Rle.Inv s.rle p pred ws
  huf     : ∃ p, Huffman.Inv s.huf p
  bs      : ∃ p, ByteStuffer.Inv s.bs p
  image   : s.rle.image = s.blocks.map block
  coefs   : ∀ b ∈ s.blocks, b.2.length = 64
  idle    : s.huf.blocks = s.blocks.length → s.rle.starts = s.rle.readies
  turn    : s.huf.blocks ≤ s.blocks.length ∧ s.blocks.length ≤ s.huf.blocks + 1
  passed  : s.passed ≤ s.huf.blocks
  total   : s.blocks.length ≤ blockTotal s.huf.imgSize
  words   : s.rle.log =
    (s.rle.before ++ codeBlocks 0 ((s.blocks.take s.huf.blocks).map block)).map wordOf ++ s.huf.filling
  bits    : s.huf.bits = old.flatMap byteBits ++ s.taken
  bytes   : s.huf.log = old ++ new ++ s.bs.filling
  rest    : s.passed = s.huf.blocks → s.huf.starts = s.huf.readies ∧ s.bs.filling = []
  next    : s.bs.next = adr + BitVec.ofNat 24 (stuff 0xff 0 new).length
  base    : 0 < blockTotal s.huf.imgSize → adr = BitVec.ofNat 24 hdrSize
  written : ∃ before, s.bs.log = before ++ s.written ∧ s.bs.asked = before ++ placed adr (stuff 0xff 0 new)

section

variable {old new : List Byte} {adr : BitVec 24} {s : State} {i : Input}

theorem placed_append : ∀ (adr : BitVec 24) (bs cs : List Byte),
    placed adr (bs ++ cs) = placed adr bs ++ placed (adr + BitVec.ofNat 24 bs.length) cs
  | adr, [], cs      => by rw [List.length_nil, BitVec.add_zero]; rfl
  | adr, b :: bs, cs => by
    rw [List.cons_append, placed, placed_append, placed, List.length_cons, ByteStuffer.adr_succ]
    rfl

theorem imageBits_concat (b : Coefs) : ∀ (bs : List Coefs) (preds : ℕ → ℤ),
    imageBits preds (bs ++ [b]) = imageBits preds bs ++
      Huffman.codeBits b.1 true ((codeBlock (predsAfter preds (bs.map block) (component b.1)) b.2).map wordOf)
  | [], preds      => List.append_nil _
  | a :: bs, preds => by
    rw [List.cons_append, imageBits, imageBits, imageBits_concat b bs, List.append_assoc]
    rfl

/-- The last block is the one that the next stage is not started with yet. -/
theorem take_concat {l : List Coefs} {k : ℕ} (h : k + 1 = l.length) : ∃ b, l[k]? = some b ∧ l = l.take k ++ [b] := by
  have hlt : k < l.length := by omega
  refine ⟨l[k], List.getElem?_eq_getElem hlt, ?_⟩
  rw [List.take_concat_get' l k hlt, List.take_of_length_le h.ge]

theorem taken_open (h : s.huf.blocks < blockTotal s.huf.imgSize) : s.taken = imageBits 0 (s.blocks.take s.huf.blocks) := by
  rw [State.taken, if_neg h.ne, List.append_nil]

theorem rleLog_step (s : State) (i : Input) :
    (s.step i).rle.log = s.rle.log ++ if s.rle.regs.dovalid then [s.rle.regs.word] else [] := by
  show (if s.rle.regs.dovalid then _ else _) = _
  cases s.rle.regs.dovalid
  · exact (List.append_nil _).symm
  · rfl

theorem hufLog_step (s : State) (i : Input) :
    (s.step i).huf.log = s.huf.log ++ if s.huf.regs.fifoWren then [s.huf.regs.fifoWbyte] else [] := by
  show (if s.huf.regs.fifoWren then _ else _) = _
  cases s.huf.regs.fifoWren
  · exact (List.append_nil _).symm
  · rfl

theorem filling_step (s : State) (i : Input) : (s.step i).huf.filling =
    if i.hufStart then [] else s.huf.filling ++ if s.rle.regs.dovalid then [s.rle.regs.word] else [] := rfl

theorem bsFilling_step (s : State) (i : Input) : (s.step i).bs.filling =
    if i.bsStart then [] else s.bs.filling ++ if s.huf.regs.fifoWren then [s.huf.regs.fifoWbyte] else [] := rfl

/-- What the coder has written when it has answered. -/
theorem Inv.answered (h : Inv old new adr s) (hdone : s.rle.starts = s.rle.readies) :
    s.rle.log = (s.rle.before ++ codeBlocks 0 (s.blocks.map block)).map wordOf := by
  obtain ⟨p, pred, ws, hp⟩ := h.rle
  rw [hp.coded.2.2.2.1 hdone, Rle.State.asked, h.image]

/-- The words of the block that the Huffman encoder is started with are filled in. -/
theorem Inv.filled (h : Inv old new adr s) (hkeeps : Keeps s i) (hstart : i.hufStart = true) :
    ∃ b, b.1 = i.hufCmpIdx ∧ s.blocks = s.blocks.take s.huf.blocks ++ [b] ∧ s.huf.filling =
      (codeBlock (predsAfter 0 ((s.blocks.take s.huf.blocks).map block) (component b.1)) b.2).map wordOf := by
  obtain ⟨hdone, -, hturn, hcmp, -⟩ := hkeeps.hufTurn hstart
  obtain ⟨b, hget, hsplit⟩ := take_concat hturn
  refine ⟨b, ?_, hsplit, ?_⟩
  · rw [hget] at hcmp
    exact Option.some.inj hcmp
  · have hall : s.blocks.map block = (s.blocks.take s.huf.blocks).map block ++ [block b] := by
      rw [← List.map_singleton, ← List.map_append, ← hsplit]
    have hlog : (s.rle.before ++ codeBlocks 0 ((s.blocks.take s.huf.blocks).map block)).map wordOf ++ s.huf.filling =
        (s.rle.before ++ codeBlocks 0 ((s.blocks.take s.huf.blocks).map block)).map wordOf ++
          (codeBlock (predsAfter 0 ((s.blocks.take s.huf.blocks).map block) (component b.1)) b.2).map wordOf := by
      rw [← List.map_append, ← h.words, h.answered hdone, hall, JpegScan.codeBlocks_concat, List.append_assoc]
      rfl
    exact List.append_cancel_left hlog

/-- Then it writes no word. -/
theorem Inv.quiet (h : Inv old new adr s) (hdone : s.rle.starts = s.rle.readies) : s.rle.regs.dovalid = false := by
  obtain ⟨p, pred, ws, hp⟩ := h.rle
  have hsecond := hp.second
  rw [(hp.answered hdone).2.1, Rle.Regs.second] at hsecond
  cases hvalid : s.rle.regs.dovalid with
  | false => rfl
  | true =>
    rw [hvalid] at hsecond
    cases hsecond

/-! ## The rules of the stages -/

theorem length_codeBlock {pred : ℤ} {coefs : List ℤ} (h : coefs.length = 64) :
    codeBlock pred coefs ≠ [] ∧ (codeBlock pred coefs).length ≤ 64 := by
  cases coefs with
  | nil => cases h
  | cons dc acs =>
    have hexp := (RunLengths.encode_expands (m := 16) (by decide) acs 0).length_le
    rw [List.length_cons] at h
    refine ⟨List.cons_ne_nil _ _, ?_⟩
    rw [codeBlock, List.length_cons]
    omega

/-- What the coder has written and writes in this cycle goes no further than its blocks. -/
theorem Inv.offers (h : Inv old new adr s) :
    s.huf.filling ++ s.rle.regs.second <+: (codeBlocks (predsAfter 0 ((s.blocks.take s.huf.blocks).map block))
      ((s.blocks.drop s.huf.blocks).map block)).map wordOf := by
  obtain ⟨p, pred, ws, hp⟩ := h.rle
  have hsplit : s.blocks.map block =
      (s.blocks.take s.huf.blocks).map block ++ (s.blocks.drop s.huf.blocks).map block := by
    rw [← List.map_append, List.take_append_drop]
  have hoffers := hp.offers
  rw [Rle.State.asked, h.image, hsplit, JpegScan.codeBlocks_append, ← List.append_assoc, h.words, List.append_assoc] at hoffers
  refine (List.prefix_append_right_inj _).1 (hoffers.trans ?_)
  rw [← List.map_append]

/-- The words that are filled in for the next block are those of one block at most. -/
theorem Inv.words_room (h : Inv old new adr s) : s.huf.filling.length + s.rle.regs.dovalid.toNat ≤ 64 := by
  have hsecond : s.rle.regs.second.length = s.rle.regs.dovalid.toNat := by
    rw [Rle.Regs.second]
    cases s.rle.regs.dovalid
    · rfl
    · rfl
  have hle := h.offers.length_le
  rw [List.length_append, hsecond, List.length_map] at hle
  refine hle.trans ?_
  obtain ⟨hlo, hhi⟩ := h.turn
  rcases Nat.eq_or_lt_of_le hlo with heq | hlt
  · rw [heq, List.drop_length]
    exact Nat.zero_le 64
  · obtain ⟨b, -, hsplit⟩ := take_concat (Nat.le_antisymm hlt hhi)
    have hmem : b ∈ s.blocks := by
      rw [hsplit]
      exact List.mem_append_right _ (List.mem_singleton_self b)
    have hdrop : s.blocks.drop s.huf.blocks = [b] := by
      have happ := (List.take_append_drop s.huf.blocks s.blocks).trans hsplit
      exact List.append_cancel_left happ
    rw [hdrop, List.map_singleton, codeBlocks, codeBlocks, List.append_nil]
    exact (length_codeBlock (h.coefs b hmem)).2

theorem blockTotal_lt (imgSize : BitVec 16 × BitVec 16) : blockTotal imgSize < 2 ^ 28 := by
  have hmul := Nat.mul_le_mul (Nat.le_of_lt_succ imgSize.1.isLt) (Nat.le_of_lt_succ imgSize.2.isLt)
  rw [blockTotal]
  omega

theorem Inv.rle_keeps (h : Inv old new adr s) (hkeeps : Keeps s i) : Rle.Keeps s.rle i.rle where
  waits := by
    rintro (hstart | hsof)
    · exact h.idle (hkeeps.rleTurn hstart).1
    · exact (hkeeps.image hsof).2.2.2.rle
  cmp   := ⟨hkeeps.cmp.1, hkeeps.cmp.2.1⟩
  range := hkeeps.range

/-- The Huffman encoder finds the words of a block in its FIFO. -/
theorem Inv.huf_keeps (h : Inv old new adr s) (hkeeps : Keeps s i) : Huffman.Keeps s.huf (s.hufInput i) where
  waits := by
    rintro (hstart | hsof)
    · exact (h.rest (hkeeps.hufTurn hstart).2.1).1
    · exact (hkeeps.image hsof).2.2.2.huf
  apart  := fun hsof => (hkeeps.image hsof).2.1
  cmp    := hkeeps.cmp.2.2
  size   := by
    intro hbusy
    cases hsof : i.sof with
    | false => exact hkeeps.size hsof
    | true  => exact absurd (hkeeps.image hsof).2.2.2.huf hbusy
  filled := by
    intro hstart
    obtain ⟨hdone, -, -, -, hwr⟩ := hkeeps.hufTurn hstart
    obtain ⟨b, -, hsplit, hfilling⟩ := h.filled hkeeps hstart
    have hmem : b ∈ s.blocks := by
      rw [hsplit]
      exact List.mem_append_right _ (List.mem_singleton_self b)
    refine ⟨?_, h.quiet hdone, hwr⟩
    rw [hfilling]
    exact fun hnil => (length_codeBlock (h.coefs b hmem)).1 (List.map_eq_nil_iff.1 hnil)
  room   := h.words_room
  count  := by
    intro hstart
    have hturn := (hkeeps.hufTurn hstart).2.2.1
    have hlt := blockTotal_lt s.huf.imgSize
    have htotal := h.total
    omega

theorem Inv.bs_keeps (h : Inv old new adr s) (hkeeps : Keeps s i) : ByteStuffer.Keeps s.bs (s.bsInput i) where
  waits := by
    rintro (hstart | hsof)
    · exact (hkeeps.bsTurn hstart).2.1
    · exact (hkeeps.image hsof).2.2.2.bs
  filled := by
    intro hstart
    obtain ⟨hdone, -, -, hwr⟩ := hkeeps.bsTurn hstart
    obtain ⟨p, hp⟩ := h.huf
    exact ⟨hp.silent hdone, hwr⟩
  room   := hkeeps.room

/-- An image begins. -/
theorem Inv.image_begins (h : Inv old new adr s) (hkeeps : Keeps s i) (hsof : i.sof = true) :
    Inv s.huf.log [] (BitVec.ofNat 24 hdrSize) (s.step i) := by
  obtain ⟨hrle, hhuf, hbs, hdrained⟩ := hkeeps.image hsof
  obtain ⟨p, hp⟩ := h.huf
  obtain ⟨q, hq⟩ := h.bs
  obtain ⟨-, hrest⟩ := h.rest hdrained.passed
  have hsilent := hp.silent hdrained.huf
  have hblocks : (s.step i).blocks = [] := if_pos hsof
  have hnone : (s.step i).huf.blocks = 0 := if_pos hsof
  have hbefore : (s.step i).rle.before = s.rle.before ++ codeBlocks 0 s.rle.image := if_pos hsof
  have hfilling : (s.step i).huf.filling = s.huf.filling ++ if s.rle.regs.dovalid then [s.rle.regs.word] else [] :=
    if_neg (Bool.eq_false_iff.1 hhuf)
  have hempty : (s.step i).bs.filling = [] := by
    rw [bsFilling_step, hbs, hsilent, hrest]
    rfl
  refine ⟨Rle.Inv.step h.rle (h.rle_keeps hkeeps), Huffman.Inv.step h.huf (h.huf_keeps hkeeps),
    ByteStuffer.Inv.step h.bs (h.bs_keeps hkeeps), ?_, ?_, ?_, ?_, ?_,
    ?_, ?_, ?_, ?_, ?_, ?_, fun _ => rfl, ?_⟩
  · rw [hblocks]
    show (if i.rleStart then _ else if i.sof then _ else _) = _
    rw [hrle, hsof]
    rfl
  · rw [hblocks]
    exact nofun
  · intro _
    obtain ⟨p', pred, ws, hp'⟩ := h.rle
    show s.rle.starts + i.rleStart.toNat = s.rle.readies + s.rle.top.readyPb.toNat
    rw [hrle, (hp'.answered hdrained.rle).2.2.2, hdrained.rle]
  · rw [hblocks, hnone]
    exact ⟨Nat.le_refl 0, Nat.zero_le 1⟩
  · rw [show (s.step i).passed = 0 from if_pos hsof]
    exact Nat.zero_le _
  · rw [hblocks]
    exact Nat.zero_le _
  · have hwords := h.words
    rw [hdrained.taken, List.take_length, ← h.image] at hwords
    rw [hblocks, hfilling]
    rw [List.take_nil, List.map_nil, codeBlocks, List.append_nil, hbefore, ← List.append_assoc, ← hwords, rleLog_step]
  · have hbits : (s.step i).huf.bits = wholeBytes s.huf.bits := by
      show (if i.hufStart then _ else if i.sof then _ else _) = _
      rw [hhuf, hsof]
      rfl
    rw [hbits, ← hp.coded.2.2.2.1 hdrained.huf, State.taken, hblocks]
    simp [imageBits, ones]
  · rw [hempty, List.append_nil, List.append_nil]
    rw [hufLog_step, hsilent]
    exact List.append_nil _
  · intro _
    refine ⟨?_, hempty⟩
    show s.huf.starts + i.hufStart.toNat = s.huf.readies + s.huf.regs.readyPb.toNat
    rw [hhuf, (hp.resting hdrained.huf).2, hdrained.huf]
  · rw [show (s.step i).bs.next = s.bs.base (s.bsInput i) from if_neg (Bool.eq_false_iff.1 hbs)]
    exact if_pos hsof
  · have hout := hq.out (hq.resting hdrained.bs).1 (hq.resting hdrained.bs).2
    refine ⟨s.bs.log, ?_, ?_⟩
    · rw [show (s.step i).written = [] from if_pos hsof, List.append_nil]
      exact (ByteStuffer.log_step s.bs _).trans (by rw [hout, List.append_nil])
    · rw [(hq.stuffed.2.2.2.2.1 hdrained.bs).1, show (s.step i).bs.asked = s.bs.asked from
        if_neg (Bool.eq_false_iff.1 hbs)]
      exact (List.append_nil _).symm

/-! ## A cycle of an image -/

theorem imgSize_step (hkeeps : Keeps s i) (hsof : i.sof = false) : (s.step i).huf.imgSize = s.huf.imgSize :=
  hkeeps.size hsof

theorem blocks_step (s : State) (hsof : i.sof = false) :
    (s.step i).blocks = s.blocks ++ if i.rleStart then [(i.rleCmpIdx, (s.rle.blockAt i.rle).coefs)] else [] := by
  show (if i.sof then _ else if i.rleStart then _ else _) = _
  rw [hsof]
  cases i.rleStart
  · exact (List.append_nil _).symm
  · rfl

theorem hufBlocks_step (s : State) (hsof : i.sof = false) :
    (s.step i).huf.blocks = s.huf.blocks + i.hufStart.toNat := by
  show (if i.sof then _ else if i.hufStart then _ else _) = _
  rw [hsof]
  cases i.hufStart
  · rfl
  · rfl

theorem passed_step (s : State) (hsof : i.sof = false) : (s.step i).passed = s.passed + i.bsStart.toNat :=
  if_neg (Bool.eq_false_iff.1 hsof)

theorem image_step (h : s.rle.image = s.blocks.map block) (hsof : i.sof = false) :
    (s.step i).rle.image = (s.step i).blocks.map block := by
  have hat : s.rle.imageAt i.rle = s.rle.image := if_neg (Bool.eq_false_iff.1 hsof)
  rw [blocks_step s hsof, List.map_append, ← h]
  show (if i.rleStart then s.rle.imageAt i.rle ++ [s.rle.blockAt i.rle] else s.rle.imageAt i.rle) = _
  rw [hat]
  cases i.rleStart
  · exact (List.append_nil _).symm
  · rfl

/-- The blocks that the Huffman encoder was started with stay as they are where it is not started. -/
theorem take_step (h : Inv old new adr s) (hsof : i.sof = false) (hstart : i.hufStart = false) :
    (s.step i).blocks.take (s.step i).huf.blocks = s.blocks.take s.huf.blocks := by
  rw [hufBlocks_step s hsof, hstart, blocks_step s hsof]
  exact List.take_append_of_le_length h.turn.1

/-- Where it is started, the coder has nothing to do with it: it gets the last block. -/
theorem take_started (hkeeps : Keeps s i) (hsof : i.sof = false) (hstart : i.hufStart = true) :
    (s.step i).blocks = s.blocks ∧ (s.step i).blocks.take (s.step i).huf.blocks = s.blocks := by
  obtain ⟨-, -, hturn, -⟩ := hkeeps.hufTurn hstart
  have hno : i.rleStart = false := by
    rcases hkeeps.turns.1 with hrle | ⟨-, hlast, -⟩
    · exact hrle
    · omega
  have hblocks : (s.step i).blocks = s.blocks := by
    rw [blocks_step s hsof, hno]
    exact List.append_nil _
  refine ⟨hblocks, ?_⟩
  rw [hblocks, hufBlocks_step s hsof, hstart]
  exact List.take_of_length_le hturn.ge

theorem Inv.coefs_step (h : Inv old new adr s) (hsof : i.sof = false) : ∀ b ∈ (s.step i).blocks, b.2.length = 64 := by
  rw [blocks_step s hsof]
  intro b hb
  rcases List.mem_append.1 hb with hb | hb
  · exact h.coefs b hb
  · cases hstart : i.rleStart with
    | false =>
      rw [hstart] at hb
      cases hb
    | true =>
      rw [hstart] at hb
      rw [List.mem_singleton.1 hb]
      exact (List.length_map _).trans List.length_range'

theorem Inv.idle_step (h : Inv old new adr s) (hkeeps : Keeps s i) (hsof : i.sof = false)
    (hall : (s.step i).huf.blocks = (s.step i).blocks.length) : (s.step i).rle.starts = (s.step i).rle.readies := by
  obtain ⟨p, pred, ws, hp⟩ := h.rle
  obtain ⟨hlo, -⟩ := h.turn
  rw [hufBlocks_step s hsof, blocks_step s hsof, List.length_append] at hall
  have hrest : i.rleStart = false ∧ s.rle.starts = s.rle.readies := by
    obtain ⟨hrle, hhuf, -⟩ := hkeeps.turns
    rcases hhuf with hhuf | ⟨hhuf, -, hturn⟩
    · rcases hrle with hrle | ⟨hrle, hturn, -⟩
      · rw [hrle, hhuf] at hall
        exact ⟨hrle, h.idle hall⟩
      · rw [hrle, hhuf, if_pos rfl, List.length_singleton, Bool.toNat_false] at hall
        omega
    · refine ⟨?_, (hkeeps.hufTurn hhuf).1⟩
      rcases hrle with hrle | ⟨-, hlast, -⟩
      · exact hrle
      · omega
  obtain ⟨hstart, hdone⟩ := hrest
  show s.rle.starts + i.rleStart.toNat = s.rle.readies + s.rle.top.readyPb.toNat
  rw [hstart, (hp.answered hdone).2.2.2, hdone]

theorem Inv.words_step (h : Inv old new adr s) (hkeeps : Keeps s i) (hsof : i.sof = false) :
    (s.step i).rle.log = ((s.step i).rle.before ++
      codeBlocks 0 (((s.step i).blocks.take (s.step i).huf.blocks).map block)).map wordOf ++ (s.step i).huf.filling := by
  have hbefore : (s.step i).rle.before = s.rle.before := if_neg (Bool.eq_false_iff.1 hsof)
  rw [hbefore, rleLog_step, filling_step]
  cases hstart : i.hufStart with
  | false =>
    rw [take_step h hsof hstart, h.words, List.append_assoc]
    rfl
  | true =>
    have hdone := (hkeeps.hufTurn hstart).1
    rw [(take_started hkeeps hsof hstart).2, h.quiet hdone, h.answered hdone]
    rfl

theorem Inv.bits_step (h : Inv old new adr s) (hkeeps : Keeps s i) (hsof : i.sof = false) :
    (s.step i).huf.bits = old.flatMap byteBits ++ (s.step i).taken := by
  rw [State.taken, imgSize_step hkeeps hsof]
  cases hstart : i.hufStart with
  | false =>
    rw [take_step h hsof hstart, hufBlocks_step s hsof, hstart]
    refine Eq.trans ?_ h.bits
    show (if i.hufStart then _ else if i.sof then _ else _) = _
    rw [hstart, hsof]
    rfl
  | true =>
    obtain ⟨b, hcmp, hsplit, hfilling⟩ := h.filled hkeeps hstart
    obtain ⟨-, -, hturn, -⟩ := hkeeps.hufTurn hstart
    have hopen : s.huf.blocks < blockTotal s.huf.imgSize := by
      have := h.total
      omega
    have hcode : imageBits 0 s.blocks =
        imageBits 0 (s.blocks.take s.huf.blocks) ++ Huffman.codeBits i.hufCmpIdx true s.huf.filling := by
      rw [hfilling, ← hcmp, ← imageBits_concat, ← hsplit]
    have hbits : (s.step i).huf.bits = withBlock s.huf.bits (Huffman.codeBits i.hufCmpIdx true s.huf.filling)
        (decide (s.huf.blocks + 1 = blockTotal (i.imgSizeX, i.imgSizeY))) := if_pos hstart
    have hold : (old.flatMap byteBits).length % 8 = 0 := by
      rw [Huffman.length_flatMap_byteBits]
      exact Nat.mul_mod_right 8 _
    have hcoded : s.huf.bits ++ Huffman.codeBits i.hufCmpIdx true s.huf.filling =
        old.flatMap byteBits ++ imageBits 0 s.blocks := by
      rw [h.bits, taken_open hopen, List.append_assoc, ← hcode]
    rw [(take_started hkeeps hsof hstart).2, hufBlocks_step s hsof, hstart, hbits, hkeeps.size hsof, withBlock, hcoded,
      List.length_append, Huffman.ones_add hold, List.append_assoc]
    simp only [decide_eq_true_eq, Bool.toNat_true]

/-- The bytes that the stuffer is started with. -/
def State.given (s : State) (i : Input) : List Byte := if i.bsStart then s.bs.filling else []

theorem Inv.bytes_step (h : Inv old new adr s) (hkeeps : Keeps s i) :
    (s.step i).huf.log = old ++ (new ++ s.given i) ++ (s.step i).bs.filling := by
  rw [hufLog_step, bsFilling_step, State.given, h.bytes]
  cases hstart : i.bsStart with
  | false => simp
  | true =>
    have hquiet : s.huf.regs.fifoWren = false := ((h.bs_keeps hkeeps).filled hstart).1
    simp [hquiet]

theorem Inv.rest_step (h : Inv old new adr s) (hkeeps : Keeps s i) (hsof : i.sof = false)
    (hall : (s.step i).passed = (s.step i).huf.blocks) :
    (s.step i).huf.starts = (s.step i).huf.readies ∧ (s.step i).bs.filling = [] := by
  obtain ⟨p, hp⟩ := h.huf
  have hpassed := h.passed
  rw [passed_step s hsof, hufBlocks_step s hsof] at hall
  have hrest : i.hufStart = false ∧ s.huf.starts = s.huf.readies ∧ (i.bsStart = false → s.bs.filling = []) := by
    obtain ⟨-, hhuf, hbs⟩ := hkeeps.turns
    rcases hbs with hbs | ⟨hbs, hturn⟩
    · rcases hhuf with hhuf | ⟨hhuf, -, -⟩
      · rw [hbs, hhuf] at hall
        exact ⟨hhuf, (h.rest hall).1, fun _ => (h.rest hall).2⟩
      · rw [hbs, hhuf, Bool.toNat_false, Bool.toNat_true] at hall
        omega
    · refine ⟨?_, (hkeeps.bsTurn hbs).1, fun hno => absurd (hbs.symm.trans hno) nofun⟩
      rcases hhuf with hhuf | ⟨-, hlast, -⟩
      · exact hhuf
      · omega
  obtain ⟨hhuf, hdone, hfilling⟩ := hrest
  constructor
  · show s.huf.starts + i.hufStart.toNat = s.huf.readies + s.huf.regs.readyPb.toNat
    rw [hhuf, (hp.resting hdone).2, hdone]
  · rw [bsFilling_step, hp.silent hdone]
    cases hbs : i.bsStart with
    | false =>
      rw [hfilling hbs]
      rfl
    | true  => rfl

theorem Inv.next_step (h : Inv old new adr s) (hsof : i.sof = false) :
    (s.step i).bs.next = adr + BitVec.ofNat 24 (stuff 0xff 0 (new ++ s.given i)).length := by
  have hbase : s.bs.base (s.bsInput i) = s.bs.next :=
    if_neg (Bool.eq_false_iff.1 hsof)
  show (if i.bsStart then s.bs.base (s.bsInput i) + _ else s.bs.base (s.bsInput i)) = _
  rw [hbase, h.next, State.given]
  cases i.bsStart with
  | false => rw [if_neg Bool.false_ne_true, if_neg Bool.false_ne_true, List.append_nil]
  | true  =>
    rw [if_pos rfl, if_pos rfl, Stuffing.stuff_append, List.length_append, BitVec.ofNat_add, BitVec.add_assoc]

theorem Inv.written_step (h : Inv old new adr s) (hsof : i.sof = false) :
    ∃ before, (s.step i).bs.log = before ++ (s.step i).written ∧
      (s.step i).bs.asked = before ++ placed adr (stuff 0xff 0 (new ++ s.given i)) := by
  obtain ⟨before, hlog, hasked⟩ := h.written
  have hbase : s.bs.base (s.bsInput i) = s.bs.next :=
    if_neg (Bool.eq_false_iff.1 hsof)
  refine ⟨before, ?_, ?_⟩
  · rw [show (s.step i).written = s.written ++ s.bs.regs.out from
      if_neg (Bool.eq_false_iff.1 hsof), ← List.append_assoc, ← hlog]
    exact ByteStuffer.log_step s.bs (s.bsInput i)
  · show (if i.bsStart then s.bs.asked ++ placed (s.bs.base (s.bsInput i)) _ else s.bs.asked) = _
    rw [hbase, h.next, hasked, State.given]
    cases i.bsStart with
    | false => rw [if_neg Bool.false_ne_true, if_neg Bool.false_ne_true, List.append_nil]
    | true  => rw [if_pos rfl, if_pos rfl, Stuffing.stuff_append, placed_append, List.append_assoc]

/-- **The stages hand on the image.** -/
theorem Inv.step (h : Inv old new adr s) (hkeeps : Keeps s i) : ∃ old new adr, Inv old new adr (s.step i) := by
  cases hsof : i.sof with
  | true => exact ⟨_, _, _, h.image_begins hkeeps hsof⟩
  | false =>
    obtain ⟨hlo, hhi⟩ := h.turn
    have hlen : (s.step i).blocks.length = s.blocks.length + i.rleStart.toNat := by
      rw [blocks_step s hsof, List.length_append]
      cases i.rleStart <;> rfl
    obtain ⟨hrle, hhuf, hbs⟩ := hkeeps.turns
    have htotal := h.total
    have hpassed := h.passed
    refine ⟨old, new ++ s.given i, adr, Rle.Inv.step h.rle (h.rle_keeps hkeeps), Huffman.Inv.step h.huf (h.huf_keeps hkeeps),
      ByteStuffer.Inv.step h.bs (h.bs_keeps hkeeps), image_step h.image hsof, h.coefs_step hsof,
      h.idle_step hkeeps hsof, ?_, ?_, ?_, h.words_step hkeeps hsof,
      h.bits_step hkeeps hsof, h.bytes_step hkeeps, h.rest_step hkeeps hsof, h.next_step hsof, ?_, h.written_step hsof⟩
    · rw [hlen, hufBlocks_step s hsof]
      rcases hrle with hrle | ⟨hrle, hlast, -⟩ <;> rcases hhuf with hhuf | ⟨hhuf, -, hturn⟩ <;> rw [hrle, hhuf]
      · exact ⟨hlo, hhi⟩
      · exact ⟨hturn.le, by rw [Bool.toNat_false]; omega⟩
      · rw [Bool.toNat_true, Bool.toNat_false]
        omega
      · omega
    · rw [passed_step s hsof, hufBlocks_step s hsof]
      rcases hbs with hbs | ⟨hbs, hturn⟩
      · rw [hbs]
        exact hpassed.trans (Nat.le_add_right _ _)
      · rw [hbs]
        exact hturn.le.trans (Nat.le_add_right _ _)
    · rw [hlen, imgSize_step hkeeps hsof]
      rcases hrle with hrle | ⟨hrle, -, hlt⟩
      · rw [hrle]
        exact htotal
      · rw [hrle]
        exact hlt
    · rw [imgSize_step hkeeps hsof]
      exact h.base


theorem inv_reset (buffer : Rle.Buffer) (mem : Bool → BitVec 6 → Rle.Word) (readAddr : Bool → BitVec 6)
    (bsMem : Bool → BitVec 7 → Byte) (bsReadAddr : Bool → BitVec 7) (dataIn dataOut : Byte) :
    Inv [] [] 0 (.reset buffer mem readAddr bsMem bsReadAddr dataIn dataOut) where
  rle     := ⟨_, _, _, Rle.inv_reset buffer⟩
  huf     := ⟨_, Huffman.inv_reset mem readAddr⟩
  bs      := ⟨_, ByteStuffer.inv_reset bsMem bsReadAddr dataIn dataOut⟩
  image   := rfl
  coefs   := nofun
  idle    := fun _ => rfl
  turn    := ⟨Nat.le_refl 0, Nat.zero_le 1⟩
  passed  := Nat.le_refl 0
  total   := Nat.zero_le _
  words   := rfl
  bits    := by simp [State.taken, State.reset, Huffman.State.reset, imageBits, ones]
  bytes   := rfl
  rest    := fun _ => ⟨rfl, rfl⟩
  next    := rfl
  base    := fun h => absurd h (show ¬ 0 < blockTotal (0, 0) by decide)
  written := ⟨[], rfl, rfl⟩

/-! ## The whole image -/

theorem fills_ones (n : ℕ) : Fills (ones n) := by
  refine ⟨?_, fun b hb => (List.mem_replicate.1 hb).2⟩
  rw [ones, List.length_replicate]
  exact Nat.mod_lt _ (by decide)

theorem length_ones (n : ℕ) : (n + (ones n).length) % 8 = 0 := by
  rw [ones, List.length_replicate]
  omega

theorem wholeBytes_of_length {bits : List Bool} (h : bits.length % 8 = 0) : wholeBytes bits = bits :=
  List.take_of_length_le (by omega)

/-- All bytes of the image are written behind the header, with their stuffing: `data` is its blocks, coded and filled up. -/
def State.Written (s : State) : Prop :=
  ∃ data, bits data = imageBits 0 s.blocks ++ ones (imageBits 0 s.blocks).length ∧
    s.written = placed (BitVec.ofNat 24 hdrSize) (stuff 0xff 0 data)

/-- The stuffer has taken all blocks of the image, and answered the last one. -/
theorem Inv.finished (h : Inv old new adr s) (hall : s.passed = blockTotal s.huf.imgSize)
    (hdone : s.bs.starts = s.bs.readies) : s.Written := by
  obtain ⟨p, hp⟩ := h.huf
  obtain ⟨q, hq⟩ := h.bs
  obtain ⟨hlo, -⟩ := h.turn
  have hpassed := h.passed
  have htotal := h.total
  have hblocks : s.huf.blocks = blockTotal s.huf.imgSize := by omega
  obtain ⟨hhuf, hfilling⟩ := h.rest (hall.trans hblocks.symm)
  have htaken : s.taken = imageBits 0 s.blocks ++ ones (imageBits 0 s.blocks).length := by
    rw [State.taken, if_pos hblocks, List.take_of_length_le (by omega)]
  have hwhole : s.huf.bits.length % 8 = 0 := by
    have hones := length_ones (imageBits 0 s.blocks).length
    rw [h.bits, htaken, List.length_append, List.length_append, Huffman.length_flatMap_byteBits]
    omega
  have hbits : new.flatMap byteBits = s.taken := by
    have hlog := hp.coded.2.2.2.1 hhuf
    rw [wholeBytes_of_length hwhole, h.bytes, hfilling, List.append_nil, h.bits, List.flatMap_append] at hlog
    exact List.append_cancel_left hlog
  refine ⟨new, hbits.trans htaken, ?_⟩
  obtain ⟨before, hlog, hasked⟩ := h.written
  have hwritten : s.written = placed adr (stuff 0xff 0 new) := by
    have hsame := (hq.stuffed.2.2.2.2.1 hdone).1
    rw [hlog, hasked] at hsame
    exact List.append_cancel_left hsame
  rw [hwritten]
  rcases Nat.eq_zero_or_pos (blockTotal s.huf.imgSize) with hzero | hpos
  · have hnil : s.blocks = [] := List.length_eq_zero_iff.1 (by omega)
    have hnew : new = [] := by
      have hlen := congrArg List.length (hbits.trans htaken)
      rw [hnil, Huffman.length_flatMap_byteBits] at hlen
      exact List.length_eq_zero_iff.1 ((Nat.mul_eq_zero.1 hlen).resolve_left (by decide))
    rw [hnew]
    rfl
  · rw [h.base hpos]

/-- Behind the last block the stages are not started until the next image, and the stuffer runs by itself. -/
theorem finished_run : ∀ {more : List Input} {s : State}, (∃ old new adr, Inv old new adr s) →
    AllSteps State.step Keeps s more → (∀ i ∈ more, i.sof = false) → s.passed = blockTotal s.huf.imgSize →
    (∃ js : List ByteStuffer.Input, js.length = more.length ∧
      AllSteps ByteStuffer.State.step ByteStuffer.Keeps s.bs js ∧ (∀ j ∈ js, j.startPb = false) ∧
      js.foldl ByteStuffer.State.step s.bs = (more.foldl State.step s).bs) ∧
    (∃ old new adr, Inv old new adr (more.foldl State.step s)) ∧ (more.foldl State.step s).blocks = s.blocks ∧
      (more.foldl State.step s).passed = blockTotal (more.foldl State.step s).huf.imgSize
  | [], s, h, _, _, hall => ⟨⟨[], rfl, trivial, nofun, rfl⟩, h, rfl, hall⟩
  | i :: more, s, ⟨old, new, adr, h⟩, hkeeps, hquiet, hall => by
    have hsof := hquiet i List.mem_cons_self
    have hpassed := h.passed
    have htotal := h.total
    obtain ⟨hlo, -⟩ := h.turn
    obtain ⟨hrle, -, hbs⟩ := hkeeps.1.turns
    replace hbs : i.bsStart = false := by
      rcases hbs with hbs | ⟨-, hturn⟩
      · exact hbs
      · omega
    replace hrle : i.rleStart = false := by
      rcases hrle with hrle | ⟨-, -, hlt⟩
      · exact hrle
      · omega
    have hblocks : (s.step i).blocks = s.blocks := by
      rw [blocks_step s hsof, hrle]
      exact List.append_nil _
    have hall' : (s.step i).passed = blockTotal (s.step i).huf.imgSize := by
      rw [passed_step s hsof, imgSize_step hkeeps.1 hsof, hbs]
      exact hall
    obtain ⟨⟨js, hlen, hjs, hstarts, hrun⟩, hinv, hsame, hlast⟩ :=
      finished_run (h.step hkeeps.1) hkeeps.2 (fun j hj => hquiet j (List.mem_cons_of_mem _ hj)) hall'
    refine ⟨⟨s.bsInput i :: js, congrArg Nat.succ hlen, ⟨h.bs_keeps hkeeps.1, hjs⟩, ?_, hrun⟩, hinv,
      hsame.trans hblocks, hlast⟩
    intro j hj
    rcases List.mem_cons.1 hj with rfl | hj
    · exact hbs
    · exact hstarts j hj

end

theorem inv_run {buffer : Rle.Buffer} {mem : Bool → BitVec 6 → Rle.Word} {readAddr : Bool → BitVec 6}
    {bsMem : Bool → BitVec 7 → Byte} {bsReadAddr : Bool → BitVec 7} {dataIn dataOut : Byte} {is : List Input}
    (hkeeps : AllSteps State.step Keeps (.reset buffer mem readAddr bsMem bsReadAddr dataIn dataOut) is) :
    ∃ old new adr, Inv old new adr (is.foldl State.step (.reset buffer mem readAddr bsMem bsReadAddr dataIn dataOut)) := by
  have hstep : ∀ s i, (∃ old new adr, Inv old new adr s) → Keeps s i →
      True ∧ ∃ old new adr, Inv old new adr (s.step i) := by
    rintro s i ⟨old, new, adr, h⟩ hk
    exact ⟨trivial, h.step hk⟩
  have hall := (hkeeps.inv (P := fun _ _ => True) hstep ⟨_, _, _, inv_reset _ _ _ _ _ _ _⟩).2
  exact (Runs.allStates_iff_prefix _ is _).1 hall is (List.prefix_refl is)

/-- **An image goes through the stages**: when the stuffer was started with all blocks of an image and has answered the last
start, what is written of the image are the bits of its blocks, filled up to a byte and stuffed, from the end of the header
on; and 515 cycles are enough for that answer. -/
theorem image_written (buffer : Rle.Buffer) (mem : Bool → BitVec 6 → Rle.Word) (readAddr : Bool → BitVec 6)
    (bsMem : Bool → BitVec 7 → Byte) (bsReadAddr : Bool → BitVec 7) (dataIn dataOut : Byte) (is : List Input)
    (hkeeps : AllSteps State.step Keeps (.reset buffer mem readAddr bsMem bsReadAddr dataIn dataOut) is) :
    let s := is.foldl State.step (.reset buffer mem readAddr bsMem bsReadAddr dataIn dataOut)
    s.passed = blockTotal s.huf.imgSize → (s.bs.starts = s.bs.readies → s.Written) ∧
      ∀ more : List Input, AllSteps State.step Keeps s more → (∀ i ∈ more, i.sof = false) → 515 ≤ more.length →
        (more.foldl State.step s).Written ∧ (more.foldl State.step s).blocks = s.blocks := by
  intro s hall
  have hinv : ∃ old new adr, Inv old new adr s := inv_run hkeeps
  constructor
  · intro hdone
    obtain ⟨old, new, adr, h⟩ := hinv
    exact h.finished hall hdone
  · intro more hmore hquiet hlen
    obtain ⟨⟨js, hjs, hsteps, hstarts, hrun⟩, hinv', hblocks, hall'⟩ := finished_run hinv hmore hquiet hall
    obtain ⟨old, new, adr, h⟩ := hinv
    obtain ⟨q, hq⟩ := h.bs
    have hdone := hq.stuffed.2.2.2.2.2 js hsteps hstarts (hjs ▸ hlen)
    rw [hrun] at hdone
    obtain ⟨old', new', adr', h'⟩ := hinv'
    exact ⟨h'.finished hall' hdone, hblocks⟩

/-- The blocks of an image of whole units are those that the Huffman encoder counts. -/
theorem raster_length (width height : BitVec 16) (hwidth : 16 ∣ width.toNat) (hheight : 8 ∣ height.toNat) :
    (CtrlSm.raster (width, height)).length = blockTotal (width, height) := by
  obtain ⟨m, hm⟩ := hwidth
  obtain ⟨n, hn⟩ := hheight
  have hrows : (8 * n + 7) / 8 = n := by omega
  have hcolumns : (16 * m + 15) / 16 = m := by omega
  have harea : 16 * m * (8 * n) = 32 * (n * (m * 4)) := by ring
  rw [CtrlSm.length_raster, CtrlSm.numRows, CtrlSm.numColumns, blockTotal, hm, hn, hrows, hcolumns, harea,
    Nat.mul_div_cancel_left _ (by decide)]

/-- **The file of an image**: where the blocks of an image of whole units have come in the order of the control, their values
have words in the tables, and the stuffer has answered for the last of them, the header, what the stages have written, and
the end marker are a file from which a reader gets the size, the quantiser tables and the blocks. -/
theorem image_piped (buffer : Rle.Buffer) (mem : Bool → BitVec 6 → Rle.Word) (readAddr : Bool → BitVec 6)
    (bsMem : Bool → BitVec 7 → Byte) (bsReadAddr : Bool → BitVec 7) (dataIn dataOut : Byte) (is : List Input)
    (width height : BitVec 16) (lum chr : List Byte) (hlum : lum.length = 64) (hchr : chr.length = 64)
    (hwidth : 16 ∣ width.toNat) (hheight : 8 ∣ height.toNat)
    (hkeeps : AllSteps State.step Keeps (.reset buffer mem readAddr bsMem bsReadAddr dataIn dataOut) is) :
    let s := is.foldl State.step (.reset buffer mem readAddr bsMem bsReadAddr dataIn dataOut)
    s.huf.imgSize = (width, height) →
    s.blocks.map Prod.fst = (CtrlSm.raster (width, height)).map CtrlSm.Settings.cmpIdx →
    JpegImage.Codable 0 s.blocks → s.passed = s.blocks.length → s.bs.starts = s.bs.readies →
      ∃ data, s.written = placed (BitVec.ofNat 24 hdrSize) (stuff 0xff 0 data) ∧
        JpegFile.decode (JpegFile.file (JpegHeader.segments height width lum chr ++ [JpegHeader.scan]) data) =
          some ⟨height.toNat, width.toNat,
            [some (lum.map BitVec.toNat), some (chr.map BitVec.toNat), some (chr.map BitVec.toNat)],
            s.blocks.map block⟩ := by
  intro s hsize horder hcodable hpassed hdone
  have hlen := congrArg List.length horder
  rw [List.length_map, List.length_map, raster_length width height hwidth hheight] at hlen
  have hall : s.passed = blockTotal s.huf.imgSize := by rw [hpassed, hlen, hsize]
  obtain ⟨data, hbits, hwritten⟩ :=
    (image_written buffer mem readAddr bsMem bsReadAddr dataIn dataOut is hkeeps hall).1 hdone
  exact ⟨data, hwritten, JpegImage.image_decoded height width lum chr s.blocks data _ hlum hchr horder hcodable hbits
    (fills_ones _)⟩

end JpegPipeline
end Hdmi2Usb
