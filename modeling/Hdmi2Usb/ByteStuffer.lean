import Hdmi2Usb.JpegFifo
import Hdmi2Usb.Stuffing
/-!
# ByteStuffer — the bytes of the image data (`ByteStuffer.vhd`)

A start makes `p_ctrl_sm` read the bytes of a block from the half of the double FIFO that the Huffman encoder does not
write, one in four cycles: a request, the byte, and the wait until the next one is at the output of the FIFO.  A byte is
written to its address, and a zero behind it where it is the mark of a marker.  The bytes of a block are in the FIFO, in
the registers on the way, or written (`Regs.unwritten`), so each is written once, in its order (`bytes_stuffed`).
-/
namespace Hdmi2Usb
namespace ByteStuffer

open JpegFifo (DoubleFifo)
open Runs (AllSteps)
open Stuffing (stuff stuffed)

/-- `C_HDR_SIZE` -/
def hdrSize : ℕ := 623

/-- The registers of the reads. -/
structure Reads where
  readyPb      : Bool
  hufRdReq     : Bool
  hufDataVal   : BitVec 4
  rdEn         : Bool
  rdEnD1       : Bool
  latchByte    : Byte
  waitForNdata : Bool
  dataValid    : Bool

/-- The registers of the writes. -/
structure Writes where
  wrNCnt      : BitVec 2
  wdataReg    : BitVec 16
  ramWren     : Bool
  wraddr      : BitVec 24
  ramWraddr   : BitVec 24
  ramByte     : Byte

structure Regs extends Reads, Writes where
  hufBufSel   : Bool
  numEncBytes : BitVec 24

structure Ctrl where
  startPb : Bool
  sof     : Bool

/-! ## `p_ctrl_sm`

The assignments to the one half of its registers, and those to the other; `r` are those before the clock edge. -/

/-- The start, the reads of the FIFO until it is empty, and the byte that was read. -/
def Regs.reads (r : Regs) (hufFifoEmpty : Bool) (hufPackedByte : Byte) (i : Ctrl) : Reads :=
  let n := { r.toReads with
    hufRdReq := false, readyPb := false, hufDataVal := r.hufDataVal.extractLsb' 0 3 ++ BitVec.ofBool r.hufRdReq,
    rdEnD1 := r.rdEn, dataValid := false }
  let n := if i.startPb then { n with rdEn := true } else n
  let n :=
    if r.rdEnD1 ∧ ¬ r.waitForNdata then
      if hufFifoEmpty then { n with rdEn := false, rdEnD1 := false, readyPb := true }
      else { n with hufRdReq := true, waitForNdata := true }
    else n
  let n := if r.hufRdReq then { n with latchByte := hufPackedByte, dataValid := true } else n
  if r.hufDataVal.getLsbD 1 then { n with waitForNdata := false } else n

/-- The bytes that are written. -/
def Regs.writes (r : Regs) (i : Ctrl) : Writes :=
  let n := { r.toWrites with ramWren := false, ramWraddr := r.wraddr }
  let n :=
    if r.dataValid then
      if r.latchByte = 0xff then { n with wrNCnt := 2, wdataReg := 0xff00 }
      else { n with wrNCnt := 1, wdataReg := r.latchByte.setWidth 16 }
    else n
  let n := if r.wrNCnt ≠ 0 then { n with wrNCnt := r.wrNCnt - 1, ramWren := true, wraddr := r.wraddr + 1 } else n
  let n :=
    if r.wrNCnt = 2 then { n with ramByte := r.wdataReg.extractLsb' 8 8 }
    else if r.wrNCnt = 1 then { n with ramByte := r.wdataReg.extractLsb' 0 8 }
    else n
  if i.sof then { n with wraddr := BitVec.ofNat 24 hdrSize } else n

/-- A clock edge, with `p_huf_buf_sel` and `p_num_enc_bytes`. -/
def Regs.step (r : Regs) (hufFifoEmpty : Bool) (hufPackedByte : Byte) (i : Ctrl) : Regs where
  toReads     := r.reads hufFifoEmpty hufPackedByte i
  toWrites    := r.writes i
  hufBufSel   := if i.startPb then !r.hufBufSel else r.hufBufSel
  numEncBytes := r.wraddr + 2

def Regs.reset : Regs where
  wrNCnt       := 0
  readyPb      := false
  hufRdReq     := false
  hufDataVal   := 0
  rdEn         := false
  rdEnD1       := false
  wdataReg     := 0
  ramWren      := false
  wraddr       := 0
  ramWraddr    := 0
  ramByte      := 0
  latchByte    := 0
  waitForNdata := false
  dataValid    := false
  hufBufSel    := false
  numEncBytes  := 0

/-! ## Runs -/

/-- A write of the output RAM: its address and the byte. -/
abbrev Write := BitVec 24 × Byte

structure Input extends Ctrl where
  wren : Bool
  data : Byte

/-- The stuffer with the double FIFO, what it has written and answered, and what its starts have asked for: the bytes that
are filled in for the next block, the bytes of all blocks, and their writes up to the address `next`. -/
structure State where
  regs    : Regs
  fifo    : DoubleFifo
  log     : List Write
  readies : ℕ
  starts  : ℕ
  filling : List Byte
  bytes   : List Byte
  next    : BitVec 24
  asked   : List Write

/-- Bytes written from an address on. -/
def placed : BitVec 24 → List Byte → List Write
  | _, []         => []
  | adr, b :: bs => (adr, b) :: placed (adr + 1) bs

/-- The address behind a `sof` of this cycle. -/
def State.base (s : State) (i : Input) : BitVec 24 := if i.sof then BitVec.ofNat 24 hdrSize else s.next

def State.step (s : State) (i : Input) : State where
  regs    := s.regs.step s.fifo.fifoEmpty s.fifo.dataOut i.toCtrl
  fifo    := s.fifo.step s.regs.hufBufSel i.wren i.data s.regs.hufRdReq
  log     := if s.regs.ramWren then s.log ++ [(s.regs.ramWraddr, s.regs.ramByte)] else s.log
  readies := s.readies + s.regs.readyPb.toNat
  starts  := s.starts + i.startPb.toNat
  filling := if i.startPb then [] else s.filling ++ if i.wren then [i.data] else []
  bytes   := if i.startPb then s.bytes ++ s.filling else s.bytes
  next    :=
    if i.startPb then s.base i + BitVec.ofNat 24 (stuff 0xff 0 s.filling).length else s.base i
  asked   := if i.startPb then s.asked ++ placed (s.base i) (stuff 0xff 0 s.filling) else s.asked

/-- After a reset, with anything in the RAMs and the output of the FIFO. -/
def State.reset (mem : Bool → BitVec 7 → Byte) (readAddr : Bool → BitVec 7) (dataIn dataOut : Byte) : State where
  regs    := .reset
  fifo    := ⟨⟨fun b => .reset (mem b) (readAddr b), fun _ => false, dataIn⟩, fun _ => false, false, dataOut⟩
  log     := []
  readies := 0
  starts  := 0
  filling := []
  bytes   := []
  next    := 0
  asked   := []

/-- What the other side keeps to: a start of a block or of an image waits for the answer to the last start; a start finds
the last byte written two cycles before, and a block has no more than the 128 bytes that the FIFO holds. -/
structure Keeps (s : State) (i : Input) : Prop where
  waits  : i.startPb = true ∨ i.sof = true → s.starts = s.readies
  filled : i.startPb = true → i.wren = false ∧ s.fifo.halves.fifoWr s.regs.hufBufSel = false
  room   : s.filling.length + i.wren.toNat ≤ 128

instance (s : State) (i : Input) : Decidable (Keeps s i) :=
  decidable_of_iff
    ((i.startPb = true ∨ i.sof = true → s.starts = s.readies) ∧
      (i.startPb = true → i.wren = false ∧ s.fifo.halves.fifoWr s.regs.hufBufSel = false) ∧
      s.filling.length + i.wren.toNat ≤ 128)
    ⟨fun h => ⟨h.1, h.2.1, h.2.2⟩, fun h => ⟨h.waits, h.filled, h.room⟩⟩

/-! ## The phases of a block -/

inductive Phase
  | idle
  | rise (bs : List Byte)
  | ask (bs : List Byte)
  | req (b : Byte) (bs : List Byte)
  | latched (b : Byte) (bs : List Byte)
  | count (bs : List Byte)

/-- What is left in the FIFO. -/
def Phase.reading : Phase → List Byte
  | .idle => []
  | .rise bs | .ask bs | .count bs => bs
  | .req b bs | .latched b bs => b :: bs

/-- The bytes that are still to be written for what is left to read. -/
def Phase.unread : Phase → List Byte
  | .idle => []
  | .rise bs | .ask bs | .count bs => stuff 0xff 0 bs
  | .req b bs | .latched b bs => stuff 0xff 0 (b :: bs)

/-- The cycles that are left at most: four for a byte. -/
def Phase.cycles : Phase → ℕ
  | .idle         => 0
  | .rise bs      => 2 + 4 * bs.length
  | .ask bs       => 1 + 4 * bs.length
  | .req _ bs     => 4 + 4 * bs.length
  | .latched _ bs => 3 + 4 * bs.length
  | .count bs     => 2 + 4 * bs.length

def Phase.busy : Phase → Bool
  | .idle => false
  | _     => true

def Phase.isLatched : Phase → Bool
  | .latched _ _ => true
  | _            => false

structure Reads.Is (r : Reads) (rdEn rdEnD1 waitForNdata hufRdReq dataValid val0 val1 : Bool) : Prop where
  rdEn         : r.rdEn = rdEn
  rdEnD1       : r.rdEnD1 = rdEnD1
  waitForNdata : r.waitForNdata = waitForNdata
  hufRdReq     : r.hufRdReq = hufRdReq
  dataValid    : r.dataValid = dataValid
  val0         : r.hufDataVal.getLsbD 0 = val0
  val1         : r.hufDataVal.getLsbD 1 = val1

section

variable (r : Regs)

/-- The bytes that are counted in `wr_n_cnt`. -/
def Regs.counted : List Byte :=
  if r.wrNCnt = 2 then [r.wdataReg.extractLsb' 8 8, r.wdataReg.extractLsb' 0 8]
  else if r.wrNCnt = 1 then [r.wdataReg.extractLsb' 0 8]
  else []

def Regs.At : Phase → Prop
  | .idle        => r.toReads.Is false false false false false false false ∧ r.wrNCnt = 0
  | .rise _      => r.toReads.Is true false false false false false false ∧ r.wrNCnt = 0
  | .ask _       => r.toReads.Is true true false false false false false ∧ r.wrNCnt.toNat ≤ 1
  | .req _ _     => r.toReads.Is true true true true false false false ∧ r.wrNCnt = 0
  | .latched b _ => r.toReads.Is true true true false true true false ∧ r.wrNCnt = 0 ∧ r.latchByte = b
  | .count _     => r.toReads.Is true true true false false false true ∧ r.wrNCnt.toNat ≤ 2

/-- The write of this cycle. -/
def Regs.out : List Write := if r.ramWren then [(r.ramWraddr, r.ramByte)] else []

end

section

variable {r : Regs} {e : Bool} {q : Byte} {i : Ctrl}

theorem adr_succ (adr : BitVec 24) (n : ℕ) : adr + 1 + BitVec.ofNat 24 n = adr + BitVec.ofNat 24 (n + 1) := by
  rw [BitVec.ofNat_add, BitVec.add_assoc, BitVec.add_comm 1]
  rfl

theorem map_placed : ∀ (adr : BitVec 24) (bs : List Byte), (placed adr bs).map Prod.snd = bs
  | _, []        => rfl
  | adr, b :: bs => by rw [placed, List.map_cons, map_placed]

theorem wrNCnt_cases {n : BitVec 2} (h : n.toNat ≤ 2) : n = 0 ∨ n = 1 ∨ n = 2 := by
  revert h
  revert n
  decide

theorem extract_setWidth (b : Byte) : (b.setWidth 16).extractLsb' 0 8 = b := by
  apply BitVec.eq_of_toNat_eq
  have hlt := b.isLt
  rw [BitVec.extractLsb'_toNat, BitVec.toNat_setWidth, Nat.shiftRight_zero, Nat.mod_eq_of_lt (a := b.toNat) (by omega),
    Nat.mod_eq_of_lt hlt]

/-- The writes go on with the bytes that are counted, one a cycle. -/
theorem writes_counted (hval : r.dataValid = false) (hcnt : r.wrNCnt.toNat ≤ 2) (hsof : i.sof = false) (e : Bool) (q : Byte) :
    (∀ bs, (r.step e q i).out ++ placed (r.step e q i).wraddr ((r.step e q i).counted ++ bs) =
      placed r.wraddr (r.counted ++ bs) ∧
      (r.step e q i).wraddr + BitVec.ofNat 24 ((r.step e q i).counted ++ bs).length =
        r.wraddr + BitVec.ofNat 24 (r.counted ++ bs).length) ∧
      (r.step e q i).wrNCnt.toNat = r.wrNCnt.toNat - 1 := by
  have hwrites : (r.step e q i).toWrites = r.writes i := rfl
  have h0 : ¬ (1 : BitVec 2) = 0 ∧ ¬ (2 : BitVec 2) = 0 := by decide
  have h2 : ¬ (0 : BitVec 2) = 2 ∧ ¬ (1 : BitVec 2) = 2 := by decide
  have h1 : ¬ (0 : BitVec 2) = 1 ∧ ¬ (2 : BitVec 2) = 1 := by decide
  rcases wrNCnt_cases hcnt with h | h | h
  · simp only [Regs.writes, hval, h, hsof, ne_eq, not_true_eq_false, if_neg h2.1, if_neg h1.1, Bool.false_eq_true,
      if_false] at hwrites
    simp only [Regs.out, Regs.counted, hwrites, h]
    exact ⟨fun _ => ⟨rfl, trivial⟩, rfl⟩
  · simp only [Regs.writes, hval, h, hsof, ne_eq, h0.1, not_false_eq_true, if_neg h2.2, Bool.false_eq_true, if_false,
      if_true] at hwrites
    simp only [Regs.out, Regs.counted, hwrites, h]
    exact ⟨fun bs => ⟨rfl, adr_succ r.wraddr bs.length⟩, rfl⟩
  · simp only [Regs.writes, hval, h, hsof, ne_eq, h0.2, not_false_eq_true, Bool.false_eq_true, if_false, if_true] at hwrites
    simp only [Regs.out, Regs.counted, hwrites, h]
    exact ⟨fun bs => ⟨rfl, adr_succ r.wraddr (bs.length + 1)⟩, rfl⟩

/-- A byte comes to be counted, with the zero behind it. -/
theorem writes_latched (hval : r.dataValid = true) (hcnt : r.wrNCnt = 0) (hsof : i.sof = false) (e : Bool) (q : Byte) :
    (r.step e q i).out = [] ∧ (r.step e q i).wraddr = r.wraddr ∧ (r.step e q i).counted = stuffed 0xff 0 r.latchByte ∧
      (r.step e q i).wrNCnt.toNat ≤ 2 := by
  have hwrites : (r.step e q i).toWrites = r.writes i := rfl
  have h2 : ¬ (0 : BitVec 2) = 2 := by decide
  have h1 : ¬ (0 : BitVec 2) = 1 := by decide
  simp only [Regs.writes, hval, hcnt, hsof, ne_eq, not_true_eq_false, if_neg h2, if_neg h1, Bool.false_eq_true, if_false,
    if_true] at hwrites
  rw [stuffed]
  split
  · rename_i hff
    rw [if_pos hff] at hwrites
    simp only [Regs.out, Regs.counted, hwrites]
    exact ⟨rfl, trivial, rfl, Nat.le_refl 2⟩
  · rename_i hff
    rw [if_neg hff] at hwrites
    simp only [Regs.out, Regs.counted, hwrites, extract_setWidth]
    exact ⟨rfl, trivial, rfl, Nat.le_succ 1⟩

theorem val_step (val : BitVec 4) (b : Bool) :
    (val.extractLsb' 0 3 ++ BitVec.ofBool b).getLsbD 0 = b ∧
      (val.extractLsb' 0 3 ++ BitVec.ofBool b).getLsbD 1 = val.getLsbD 0 := by
  revert val b
  decide

/-- The phase behind a cycle. -/
def Phase.next : Phase → Phase
  | .idle         => .idle
  | .rise bs      => .ask bs
  | .ask []       => .idle
  | .ask (b :: bs) => .req b bs
  | .req b bs     => .latched b bs
  | .latched _ bs => .count bs
  | .count bs     => .ask bs

/-- The output of the FIFO. -/
def Phase.Sees (p : Phase) (e : Bool) (q : Byte) : Prop :=
  match p with
  | .ask bs  => e = decide (bs = [])
  | .req b _ => q = b
  | _        => True

/-- What a cycle of a block does. -/
structure Regs.Move (r r' : Regs) (p : Phase) : Prop where
  phase : r'.At p.next
  bytes : r'.out ++ placed r'.wraddr (r'.counted ++ p.next.unread) = placed r.wraddr (r.counted ++ p.unread)
  adr   : r'.wraddr + BitVec.ofNat 24 (r'.counted ++ p.next.unread).length =
    r.wraddr + BitVec.ofNat 24 (r.counted ++ p.unread).length
  ready : r'.readyPb = true ↔ p.next = .idle

theorem counted_of_zero (h : r.wrNCnt = 0) : r.counted = [] := by
  rw [Regs.counted, h]
  rfl

theorem wrNCnt_zero {n : BitVec 2} (h : n.toNat = 0) : n = 0 := BitVec.eq_of_toNat_eq h

variable {b : Byte} {bs : List Byte}

/-- The start reaches the reader. -/
theorem rise_step (h : r.At (.rise bs)) (hstart : i.startPb = false) (hsof : i.sof = false) :
    r.Move (r.step e q i) (.rise bs) := by
  obtain ⟨his, hcnt⟩ := h
  obtain ⟨hval0, hval1⟩ := val_step r.hufDataVal r.hufRdReq
  have hreads : (r.step e q i).toReads = r.reads e q i := rfl
  have hno : ¬ (r.rdEnD1 = true ∧ ¬ r.waitForNdata = true) := by
    rw [his.rdEnD1]
    exact fun hc => Bool.false_ne_true hc.1
  simp only [Regs.reads, hstart, if_neg hno, his.hufRdReq, his.val1, Bool.false_eq_true, if_false] at hreads
  rw [his.hufRdReq] at hval0 hval1
  obtain ⟨hbytes, hcnt'⟩ := writes_counted his.dataValid (by rw [hcnt]; decide) hsof e q
  refine ⟨⟨?_, ?_⟩, (hbytes _).1, (hbytes _).2, ?_⟩
  · rw [hreads]
    exact ⟨his.rdEn, his.rdEn, his.waitForNdata, rfl, rfl, hval0, hval1.trans his.val0⟩
  · rw [hcnt', hcnt]
    decide
  · rw [hreads]
    exact ⟨nofun, nofun⟩

/-- The reader asks for a byte, or has read them all. -/
theorem ask_step (h : r.At (.ask bs)) (hsees : (Phase.ask bs).Sees e q) (hstart : i.startPb = false) (hsof : i.sof = false) :
    r.Move (r.step e q i) (.ask bs) := by
  obtain ⟨his, hcnt⟩ := h
  obtain ⟨hval0, hval1⟩ := val_step r.hufDataVal r.hufRdReq
  have hreads : (r.step e q i).toReads = r.reads e q i := rfl
  have hgo : r.rdEnD1 = true ∧ ¬ r.waitForNdata = true := by
    rw [his.rdEnD1, his.waitForNdata]
    exact ⟨rfl, Bool.false_ne_true⟩
  simp only [Regs.reads, hstart, if_pos hgo, his.hufRdReq, his.val1, Bool.false_eq_true, if_false] at hreads
  rw [his.hufRdReq] at hval0 hval1
  obtain ⟨hbytes, hcnt'⟩ := writes_counted his.dataValid (by omega) hsof e q
  have hzero : (r.step e q i).wrNCnt = 0 := wrNCnt_zero (by omega)
  cases bs with
  | nil =>
    obtain rfl : e = true := hsees
    rw [if_pos rfl] at hreads
    refine ⟨⟨?_, hzero⟩, (hbytes _).1, (hbytes _).2, ?_⟩
    · rw [hreads]
      exact ⟨rfl, rfl, his.waitForNdata, rfl, rfl, hval0, hval1.trans his.val0⟩
    · rw [hreads]
      exact ⟨fun _ => rfl, fun _ => rfl⟩
  | cons b bs =>
    obtain rfl : e = false := hsees
    rw [if_neg Bool.false_ne_true] at hreads
    refine ⟨⟨?_, hzero⟩, (hbytes _).1, (hbytes _).2, ?_⟩
    · rw [hreads]
      exact ⟨his.rdEn, his.rdEn, rfl, rfl, rfl, hval0, hval1.trans his.val0⟩
    · rw [hreads]
      exact ⟨nofun, nofun⟩

theorem req_step (h : r.At (.req b bs)) (hsees : (Phase.req b bs).Sees e q) (hstart : i.startPb = false) (hsof : i.sof = false) :
    r.Move (r.step e q i) (.req b bs) := by
  obtain ⟨his, hcnt⟩ := h
  obtain ⟨hval0, hval1⟩ := val_step r.hufDataVal r.hufRdReq
  have hreads : (r.step e q i).toReads = r.reads e q i := rfl
  obtain rfl : q = b := hsees
  have hno : ¬ (r.rdEnD1 = true ∧ ¬ r.waitForNdata = true) := by
    rw [his.waitForNdata]
    exact fun hc => hc.2 rfl
  simp only [Regs.reads, hstart, if_neg hno, his.hufRdReq, his.val1, Bool.false_eq_true, if_false, if_true] at hreads
  rw [his.hufRdReq] at hval0 hval1
  obtain ⟨hbytes, hcnt'⟩ := writes_counted his.dataValid (by rw [hcnt]; decide) hsof e q
  have hzero : (r.step e q i).wrNCnt = 0 := wrNCnt_zero (by rw [hcnt', hcnt]; decide)
  refine ⟨⟨?_, hzero, ?_⟩, (hbytes _).1, (hbytes _).2, ?_⟩
  · rw [hreads]
    exact ⟨his.rdEn, his.rdEn, his.waitForNdata, rfl, rfl, hval0, hval1.trans his.val0⟩
  · rw [hreads]
  · rw [hreads]
    exact ⟨nofun, nofun⟩

theorem latched_step (h : r.At (.latched b bs)) (hstart : i.startPb = false) (hsof : i.sof = false) :
    r.Move (r.step e q i) (.latched b bs) := by
  obtain ⟨his, hcnt, hlatch⟩ := h
  obtain ⟨hval0, hval1⟩ := val_step r.hufDataVal r.hufRdReq
  have hreads : (r.step e q i).toReads = r.reads e q i := rfl
  have hno : ¬ (r.rdEnD1 = true ∧ ¬ r.waitForNdata = true) := by
    rw [his.waitForNdata]
    exact fun hc => hc.2 rfl
  simp only [Regs.reads, hstart, if_neg hno, his.hufRdReq, his.val1, Bool.false_eq_true, if_false] at hreads
  rw [his.hufRdReq] at hval0 hval1
  obtain ⟨hout, hadr, hcounted, hcnt'⟩ := writes_latched his.dataValid hcnt hsof e q
  refine ⟨⟨?_, hcnt'⟩, ?_, ?_, ?_⟩
  · rw [hreads]
    exact ⟨his.rdEn, his.rdEn, his.waitForNdata, rfl, rfl, hval0, hval1.trans his.val0⟩
  · rw [hout, hadr, hcounted, hlatch, counted_of_zero hcnt]
    rfl
  · rw [hadr, hcounted, hlatch, counted_of_zero hcnt]
    rfl
  · rw [hreads]
    exact ⟨nofun, nofun⟩

/-- The byte is written, and the zero behind it where it needs one. -/
theorem count_step (h : r.At (.count bs)) (hstart : i.startPb = false) (hsof : i.sof = false) :
    r.Move (r.step e q i) (.count bs) := by
  obtain ⟨his, hcnt⟩ := h
  obtain ⟨hval0, hval1⟩ := val_step r.hufDataVal r.hufRdReq
  have hreads : (r.step e q i).toReads = r.reads e q i := rfl
  have hno : ¬ (r.rdEnD1 = true ∧ ¬ r.waitForNdata = true) := by
    rw [his.waitForNdata]
    exact fun hc => hc.2 rfl
  simp only [Regs.reads, hstart, if_neg hno, his.hufRdReq, his.val1, Bool.false_eq_true, if_false, if_true] at hreads
  rw [his.hufRdReq] at hval0 hval1
  obtain ⟨hbytes, hcnt'⟩ := writes_counted his.dataValid hcnt hsof e q
  refine ⟨⟨?_, ?_⟩, (hbytes _).1, (hbytes _).2, ?_⟩
  · rw [hreads]
    exact ⟨his.rdEn, his.rdEn, rfl, rfl, rfl, hval0, hval1.trans his.val0⟩
  · omega
  · rw [hreads]
    exact ⟨nofun, nofun⟩

/-- **A cycle of a block**, by its phase. -/
theorem Regs.At.step {p : Phase} (h : r.At p) (hsees : p.Sees e q) (hbusy : p ≠ .idle) (hstart : i.startPb = false)
    (hsof : i.sof = false) : r.Move (r.step e q i) p := by
  match p, h with
  | .idle, _ => exact absurd rfl hbusy
  | .rise bs, h => exact rise_step h hstart hsof
  | .ask bs, h => exact ask_step h hsees hstart hsof
  | .req b bs, h => exact req_step h hsees hstart hsof
  | .latched b bs, h => exact latched_step h hstart hsof
  | .count bs, h => exact count_step h hstart hsof

/-- A cycle between two blocks, with the start of the next one or of an image. -/
theorem Regs.At.idle_step (h : r.At .idle) (e : Bool) (q : Byte) (bs : List Byte) :
    (r.step e q i).At (if i.startPb then .rise bs else .idle) ∧ (r.step e q i).out = [] ∧ (r.step e q i).readyPb = false ∧
      (r.step e q i).counted = [] ∧ (r.step e q i).hufRdReq = false ∧
      (r.step e q i).wraddr = if i.sof then BitVec.ofNat 24 hdrSize else r.wraddr := by
  obtain ⟨his, hcnt⟩ := h
  obtain ⟨hval0, hval1⟩ := val_step r.hufDataVal r.hufRdReq
  have hreads : (r.step e q i).toReads = r.reads e q i := rfl
  have hwrites : (r.step e q i).toWrites = r.writes i := rfl
  have hno : ¬ (r.rdEnD1 = true ∧ ¬ r.waitForNdata = true) := by
    rw [his.rdEnD1]
    exact fun hc => Bool.false_ne_true hc.1
  have h2 : ¬ (0 : BitVec 2) = 2 := by decide
  have h1 : ¬ (0 : BitVec 2) = 1 := by decide
  simp only [Regs.reads, if_neg hno, his.hufRdReq, his.val1, Bool.false_eq_true, if_false] at hreads
  simp only [Regs.writes, his.dataValid, hcnt, ne_eq, not_true_eq_false, if_neg h2, if_neg h1, Bool.false_eq_true,
    if_false] at hwrites
  rw [his.hufRdReq] at hval0 hval1
  have hzero : (r.step e q i).wrNCnt = 0 := by
    rw [hwrites]
    cases i.sof <;> rfl
  refine ⟨?_, ?_, ?_, counted_of_zero hzero, ?_, ?_⟩
  · cases hstart : i.startPb with
    | true =>
      rw [hstart] at hreads
      refine ⟨?_, hzero⟩
      rw [hreads]
      exact ⟨rfl, his.rdEn, his.waitForNdata, rfl, rfl, hval0, hval1.trans his.val0⟩
    | false =>
      rw [hstart] at hreads
      refine ⟨?_, hzero⟩
      rw [hreads]
      exact ⟨his.rdEn, his.rdEn, his.waitForNdata, rfl, rfl, hval0, hval1.trans his.val0⟩
  · rw [Regs.out, hwrites]
    cases i.sof <;> rfl
  · rw [hreads]
    cases i.startPb <;> rfl
  · rw [hreads]
    cases i.startPb <;> rfl
  · rw [hwrites]
    cases i.sof <;> rfl

end

/-! ## The invariant -/

/-- What is on the way from the FIFO: its flag and its output a cycle before, and the byte at the output. -/
def Outputs (fifo : DoubleFifo) (sel : Bool) : Phase → Prop
  | .ask bs  => fifo.fifoEmpty = decide (bs = []) ∧ ∀ b ∈ bs.head?, (fifo.halves.fifo !sel).datao = b
  | .req b _ => fifo.dataOut = b
  | _        => True

structure Inv (s : State) (p : Phase) : Prop where
  phase   : s.regs.At p
  halves  : s.fifo.halves.Holds s.regs.hufBufSel p.reading s.filling
  rd      : s.fifo.fifoRd (!s.regs.hufBufSel) = p.isLatched ∧ s.fifo.fifoRd s.regs.hufBufSel = false
  empty   : p.busy → (s.fifo.halves.fifo !s.regs.hufBufSel).emptyReg = decide (p.reading = [])
  outputs : Outputs s.fifo s.regs.hufBufSel p
  room    : s.filling.length ≤ 128
  asked   : s.asked = s.log ++ (s.regs.out ++ placed s.regs.wraddr (s.regs.counted ++ p.unread))
  next    : s.next = s.regs.wraddr + BitVec.ofNat 24 (s.regs.counted ++ p.unread).length
  bytes   : s.asked.map Prod.snd = stuff 0xff 0 s.bytes
  count   : s.starts = s.readies + s.regs.readyPb.toNat + p.busy.toNat
  ready   : s.regs.readyPb = true → p = .idle
  out     : p = .idle → s.regs.readyPb = false → s.regs.out = []

section

variable {s : State} {p : Phase} {i : Input}

theorem log_step (s : State) (i : Input) : (s.step i).log = s.log ++ s.regs.out := by
  rw [Regs.out]
  show (if s.regs.ramWren then _ else _) = _
  split
  · rfl
  · exact (List.append_nil _).symm

theorem busy_iff : p.busy = true ↔ p ≠ .idle := by
  cases p <;> simp [Phase.busy]

theorem sees_of (h : Inv s p) : p.Sees s.fifo.fifoEmpty s.fifo.dataOut := by
  have hout := h.outputs
  match p with
  | .idle | .rise _ | .latched _ _ | .count _ => trivial
  | .ask bs => exact hout.1
  | .req b bs => exact hout

/-- What is left in the FIFO behind a cycle without a start. -/
theorem left_eq (h : Inv s p) : s.fifo.halves.left s.regs.hufBufSel p.reading s.fifo.fifoRd = p.next.reading := by
  rw [JpegFifo.Halves.left, JpegFifo.Fifo.rdEnReg, h.rd.1]
  have hempty := h.empty
  cases p with
  | idle | rise _ | req _ _ | count _ => rfl
  | ask bs => cases bs <;> rfl
  | latched b bs =>
    rw [hempty rfl]
    rfl

/-- The oldest byte is at the output of its FIFO in the next cycle, and its flag at that of the double FIFO. -/
theorem outputs_ask {bs : List Byte} (hread : (s.fifo.halves.fifo !s.regs.hufBufSel).Holds bs)
    (hempty : (s.fifo.halves.fifo !s.regs.hufBufSel).emptyReg = decide (bs = [])) :
    Outputs (s.step i).fifo s.regs.hufBufSel (.ask bs) := by
  refine ⟨hempty, fun b hb => ?_⟩
  cases bs with
  | nil => cases hb
  | cons c bs =>
    obtain rfl : c = b := Option.some.inj hb
    exact hread.datao_step _

theorem outputs_step (h : Inv s p) (hbusy : p.busy = true) : Outputs (s.step i).fifo s.regs.hufBufSel p.next := by
  match p, h with
  | .rise bs, h => exact outputs_ask h.halves.read (h.empty rfl)
  | .ask [], _ => trivial
  | .ask (b :: bs), h => exact h.outputs.2 b rfl
  | .req _ _, _ => trivial
  | .latched _ _, _ => trivial
  | .count bs, h => exact outputs_ask h.halves.read (h.empty rfl)

/-- The double FIFO has room for what is filled in. -/
theorem room_step (hkeeps : Keeps s i) (hstart : i.startPb = false) : (s.step i).filling.length ≤ 128 := by
  have hroom := hkeeps.room
  show (if i.startPb then [] else s.filling ++ if i.wren then [i.data] else []).length ≤ 128
  rw [hstart, if_neg Bool.false_ne_true, List.length_append]
  cases hw : i.wren
  · rw [hw] at hroom
    simpa using hroom
  · rw [hw] at hroom
    simpa using hroom

/-- A cycle of a block under way. -/
theorem Inv.busy (h : Inv s p) (hkeeps : Keeps s i) (hbusy : p.busy = true) :
    i.startPb = false ∧ Inv (s.step i) p.next := by
  have hwait : s.starts ≠ s.readies := by
    rw [h.count, hbusy, Bool.toNat_true]
    omega
  have hstart : i.startPb = false := by
    cases hs : i.startPb with
    | false => rfl
    | true => exact absurd (hkeeps.waits (.inl hs)) hwait
  have hsof : i.sof = false := by
    cases hs : i.sof with
    | false => rfl
    | true => exact absurd (hkeeps.waits (.inr hs)) hwait
  have hready : s.regs.readyPb = false := by
    cases hr : s.regs.readyPb with
    | false => rfl
    | true => exact absurd (h.ready hr) (busy_iff.1 hbusy)
  have hmove : s.regs.Move (s.step i).regs p := h.phase.step (sees_of h) (busy_iff.1 hbusy) hstart hsof
  have hsel : (s.step i).regs.hufBufSel = s.regs.hufBufSel := by
    show (if i.startPb then _ else _) = _
    rw [hstart]
    rfl
  have hleft := left_eq h
  refine ⟨hstart, hmove.phase, ?_, ?_, ?_, ?_, ?_, ?_, ?_, ?_, ?_, hmove.ready.1, ?_⟩
  · have hstep := h.halves.step i.wren i.data h.rd.2 h.room
    rw [hleft] at hstep
    rw [hsel]
    show JpegFifo.Halves.Holds _ _ _ (if i.startPb then _ else _)
    rw [hstart]
    exact hstep
  · rw [hsel]
    have hreq : s.regs.hufRdReq = p.next.isLatched := by
      match p, h.phase with
      | .idle, hp | .rise _, hp | .ask [], hp | .ask (_ :: _), hp | .req _ _, hp | .latched _ _, hp | .count _, hp =>
        exact hp.1.hufRdReq
    refine ⟨?_, ?_⟩
    · exact (Function.update_self _ _ _).trans hreq
    · exact (Function.update_of_ne (Bool.not_ne_self _).symm _ _).trans h.rd.2
  · intro _
    rw [hsel]
    have hempty := h.halves.empty_read i.wren i.data s.fifo.fifoRd
    rw [hleft] at hempty
    exact hempty
  · rw [hsel]
    exact outputs_step h hbusy
  · exact room_step hkeeps hstart
  · have hasked : (s.step i).asked = s.asked := by
      show (if i.startPb then _ else _) = _
      rw [hstart]
      rfl
    rw [hasked, h.asked, log_step, List.append_assoc, hmove.bytes]
  · have hnext : (s.step i).next = s.next := by
      show (if i.startPb then _ else if i.sof then _ else _) = _
      rw [hstart, hsof]
      rfl
    rw [hnext, h.next, hmove.adr]
  · show (if i.startPb then _ else _ : List Write).map Prod.snd = stuff 0xff 0 (if i.startPb then _ else _)
    rw [hstart]
    exact h.bytes
  · have hcount := h.count
    rw [hready, hbusy, Bool.toNat_true, Bool.toNat_false] at hcount
    show s.starts + i.startPb.toNat = s.readies + s.regs.readyPb.toNat + (s.step i).regs.readyPb.toNat + p.next.busy.toNat
    rw [hstart, hready, hcount]
    cases hr : (s.step i).regs.readyPb with
    | true =>
      rw [hmove.ready.1 hr]
      rfl
    | false =>
      have hnext : p.next.busy = true :=
        busy_iff.2 fun hp => Bool.false_ne_true (hr.symm.trans (hmove.ready.2 hp))
      rw [hnext]
      rfl
  · intro hp hr
    exact absurd (hr.symm.trans (hmove.ready.2 hp)) Bool.false_ne_true

/-- Between two blocks all that is asked for is written, or in the output registers. -/
theorem Inv.idle_cycle (h : Inv s .idle) (i : Input) :
    s.asked = s.log ++ s.regs.out ∧ s.base i = (s.step i).regs.wraddr ∧ (s.step i).fifo.fifoRd = s.fifo.fifoRd := by
  obtain ⟨-, -, -, -, -, hadr⟩ := h.phase.idle_step s.fifo.fifoEmpty s.fifo.dataOut (i := i.toCtrl) s.filling
  have hadr : (s.step i).regs.wraddr = if i.sof then BitVec.ofNat 24 hdrSize else s.regs.wraddr := hadr
  have hnone : s.regs.counted = [] := counted_of_zero h.phase.2
  have hnext : s.next = s.regs.wraddr := by
    rw [h.next, hnone]
    exact BitVec.add_zero _
  have hrdsel : s.fifo.fifoRd (!s.regs.hufBufSel) = false := h.rd.1
  have hfifoRd : Function.update s.fifo.fifoRd (!s.regs.hufBufSel) s.regs.hufRdReq = s.fifo.fifoRd := by
    rw [show s.regs.hufRdReq = s.fifo.fifoRd (!s.regs.hufBufSel) from h.phase.1.hufRdReq.trans hrdsel.symm]
    exact Function.update_eq_self _ _
  refine ⟨?_, ?_, hfifoRd⟩
  · rw [h.asked, hnone]
    exact congrArg (s.log ++ ·) (List.append_nil _)
  · rw [State.base, hadr, hnext]

/-- A cycle between two blocks, without a start. -/
theorem Inv.quiet (h : Inv s .idle) (hkeeps : Keeps s i) (hstart : i.startPb = false) : Inv (s.step i) .idle := by
  obtain ⟨hphase, hout, hready, hcounted, -, -⟩ := h.phase.idle_step s.fifo.fifoEmpty s.fifo.dataOut (i := i.toCtrl)
    s.filling
  obtain ⟨hasked, hbase, hfifoRd⟩ := h.idle_cycle i
  have hstep := h.halves.step i.wren i.data h.rd.2 h.room
  rw [left_eq h] at hstep
  rw [hstart] at hphase
  have hsel : (s.step i).regs.hufBufSel = s.regs.hufBufSel := by
    show (if i.startPb then _ else _) = _
    rw [hstart]
    rfl
  have hsame : (s.step i).asked = s.asked ∧ (s.step i).bytes = s.bytes ∧ (s.step i).next = s.base i := by
    show (if i.startPb then _ else _) = _ ∧ (if i.startPb then _ else _) = _ ∧ (if i.startPb then _ else _) = _
    rw [hstart]
    exact ⟨rfl, rfl, rfl⟩
  refine ⟨hphase, ?_, ?_, nofun, trivial, ?_, ?_, ?_, ?_, ?_, fun _ => rfl, fun _ _ => hout⟩
  · rw [hsel]
    show JpegFifo.Halves.Holds _ _ _ (if i.startPb then _ else _)
    rw [hstart]
    exact hstep
  · rw [hsel, hfifoRd]
    exact h.rd
  · exact room_step hkeeps hstart
  · rw [hsame.1, log_step, show (s.step i).regs.out = [] from hout,
      show (s.step i).regs.counted = [] from hcounted, hasked]
    exact (List.append_nil _).symm
  · rw [hsame.2.2, hbase, show (s.step i).regs.counted = [] from hcounted]
    exact (BitVec.add_zero _).symm
  · rw [hsame.1, hsame.2.1]
    exact h.bytes
  · have hcount := h.count
    show s.starts + i.startPb.toNat = s.readies + s.regs.readyPb.toNat + (s.step i).regs.readyPb.toNat + 0
    rw [hstart, show (s.step i).regs.readyPb = false from hready, hcount]
    rfl

/-- The start of a block. -/
theorem Inv.start (h : Inv s .idle) (hkeeps : Keeps s i) (hstart : i.startPb = true) :
    Inv (s.step i) (.rise s.filling) := by
  obtain ⟨hphase, hout, hready, hcounted, -, -⟩ := h.phase.idle_step s.fifo.fifoEmpty s.fifo.dataOut (i := i.toCtrl)
    s.filling
  obtain ⟨hasked, hbase, hfifoRd⟩ := h.idle_cycle i
  have hstep := h.halves.step i.wren i.data h.rd.2 h.room
  rw [left_eq h] at hstep
  rw [hstart] at hphase
  obtain ⟨hwren, hwr⟩ := hkeeps.filled hstart
  have hwait := hkeeps.waits (.inl hstart)
  have hcount := h.count
  have hready0 : s.regs.readyPb = false := by
    cases hr : s.regs.readyPb with
    | false => rfl
    | true =>
      rw [hr, Bool.toNat_true] at hcount
      omega
  have hsel : (s.step i).regs.hufBufSel = !s.regs.hufBufSel := by
    show (if i.startPb then _ else _) = _
    rw [hstart]
    rfl
  have hsame : (s.step i).filling = [] ∧ (s.step i).bytes = s.bytes ++ s.filling ∧
      (s.step i).asked = s.asked ++ placed (s.base i) (stuff 0xff 0 s.filling) ∧
      (s.step i).next = s.base i + BitVec.ofNat 24 (stuff 0xff 0 s.filling).length := by
    show (if i.startPb then _ else _) = _ ∧ (if i.startPb then _ else _) = _ ∧ (if i.startPb then _ else _) = _ ∧
      (if i.startPb then _ else _) = _
    rw [hstart]
    exact ⟨rfl, rfl, rfl, rfl⟩
  refine ⟨hphase, ?_, ?_, ?_, trivial, ?_, ?_, ?_, ?_, ?_, ?_, nofun⟩
  · have hnowr : (if i.wren then [i.data] else []) = [] := by
      rw [hwren]
      rfl
    rw [hnowr, List.append_nil] at hstep
    rw [hsel, hsame.1]
    refine hstep.swap ?_ (by decide)
    exact (Function.update_self _ _ _).trans hwren
  · rw [hsel, hfifoRd, Bool.not_not]
    exact ⟨h.rd.2, h.rd.1⟩
  · intro _
    rw [hsel, Bool.not_not]
    exact h.halves.empty_fill _ _ h.rd.2 hwr h.room
  · rw [hsame.1]
    exact Nat.zero_le 128
  · rw [hsame.2.2.1, log_step, show (s.step i).regs.out = [] from hout,
      show (s.step i).regs.counted = [] from hcounted, hasked, hbase]
    rfl
  · rw [hsame.2.2.2, hbase, show (s.step i).regs.counted = [] from hcounted]
    rfl
  · rw [hsame.2.1, hsame.2.2.1, List.map_append, map_placed, Stuffing.stuff_append, h.bytes]
  · show s.starts + i.startPb.toNat = s.readies + s.regs.readyPb.toNat + (s.step i).regs.readyPb.toNat + 1
    rw [hstart, hready0, show (s.step i).regs.readyPb = false from hready, hwait]
    rfl
  · intro hr
    exact absurd ((show (s.step i).regs.readyPb = false from hready).symm.trans hr) Bool.false_ne_true

/-- A cycle between two blocks. -/
theorem Inv.idle (h : Inv s .idle) (hkeeps : Keeps s i) :
    Inv (s.step i) (if i.startPb then .rise s.filling else .idle) := by
  cases hstart : i.startPb with
  | false => exact h.quiet hkeeps hstart
  | true => exact h.start hkeeps hstart

end

/-! ## Whole runs -/

theorem Inv.step {s : State} {i : Input} (h : ∃ p, Inv s p) (hkeeps : Keeps s i) : ∃ p, Inv (s.step i) p := by
  obtain ⟨p, h⟩ := h
  cases hbusy : p.busy with
  | true => exact ⟨_, (h.busy hkeeps hbusy).2⟩
  | false =>
    obtain rfl : p = .idle := by
      cases p with
      | idle => rfl
      | _ => cases hbusy
    exact ⟨_, h.idle hkeeps⟩

theorem inv_reset (mem : Bool → BitVec 7 → Byte) (readAddr : Bool → BitVec 7) (dataIn dataOut : Byte) :
    Inv (.reset mem readAddr dataIn dataOut) .idle where
  phase   := ⟨⟨rfl, rfl, rfl, rfl, rfl, BitVec.getLsbD_zero, BitVec.getLsbD_zero⟩, rfl⟩
  halves  := ⟨JpegFifo.Fifo.holds_reset _ _, rfl, ⟨[], JpegFifo.Fifo.holds_reset _ _, rfl⟩, rfl⟩
  rd      := ⟨rfl, rfl⟩
  empty   := nofun
  outputs := trivial
  room    := Nat.zero_le 128
  asked   := rfl
  next    := rfl
  bytes   := rfl
  count   := rfl
  ready   := nofun
  out     := fun _ _ => rfl

theorem cycles_next {p : Phase} (hbusy : p.busy = true) : p.next.cycles + 1 ≤ p.cycles := by
  match p with
  | .rise bs | .ask [] | .req b bs | .latched b bs | .count bs =>
    simp only [Phase.next, Phase.cycles]
    omega
  | .ask (b :: bs) =>
    simp only [Phase.next, Phase.cycles, List.length_cons]
    omega

theorem idle_of_cycles {p : Phase} (hdone : p.cycles = 0) : p = .idle := by
  cases p with
  | idle => rfl
  | _ =>
    rw [Phase.cycles] at hdone
    omega

theorem Inv.cycles_le {s : State} {p : Phase} (h : Inv s p) : p.cycles ≤ 514 := by
  have hle : p.reading.length ≤ 128 := h.halves.read.le
  cases p with
  | idle => exact Nat.zero_le 514
  | req _ _ | latched _ _ =>
    rw [Phase.reading, List.length_cons] at hle
    rw [Phase.cycles]
    omega
  | _ =>
    rw [Phase.reading] at hle
    rw [Phase.cycles]
    omega

/-- The cycles until the stuffer is idle. -/
theorem Inv.drains : ∀ {is : List Input} {s : State} {p : Phase}, Inv s p → AllSteps State.step Keeps s is →
    (∀ i ∈ is, i.startPb = false) → ∃ p', Inv (is.foldl State.step s) p' ∧ p'.cycles ≤ p.cycles - is.length
  | [], _, p, h, _, _ => ⟨p, h, Nat.le_refl _⟩
  | i :: is, s, p, h, hkeeps, hquiet => by
    cases hbusy : p.busy with
    | true =>
      obtain ⟨p', h', hcycles⟩ := (h.busy hkeeps.1 hbusy).2.drains hkeeps.2 fun j hj => hquiet j (List.mem_cons_of_mem _ hj)
      have hnext := cycles_next hbusy
      refine ⟨p', h', ?_⟩
      rw [List.length_cons]
      omega
    | false =>
      obtain rfl : p = .idle := by
        cases p with
        | idle => rfl
        | _ => cases hbusy
      have hidle := h.idle hkeeps.1
      rw [hquiet i List.mem_cons_self, if_neg Bool.false_ne_true] at hidle
      obtain ⟨p', h', hcycles⟩ := hidle.drains hkeeps.2 fun j hj => hquiet j (List.mem_cons_of_mem _ hj)
      refine ⟨p', h', ?_⟩
      rw [Phase.cycles, Nat.zero_sub] at hcycles ⊢
      exact hcycles

/-- The stuffer has answered its last start. -/
theorem Inv.resting {s : State} {p : Phase} (h : Inv s p) (hdone : s.starts = s.readies) :
    p = .idle ∧ s.regs.readyPb = false := by
  have hcount := h.count
  constructor
  · by_contra hne
    rw [busy_iff.2 hne, Bool.toNat_true] at hcount
    omega
  · cases hr : s.regs.readyPb with
    | false => rfl
    | true =>
      rw [hr, Bool.toNat_true] at hcount
      omega

theorem Inv.stuffed {s : State} {p : Phase} (h : Inv s p) :
    s.log <+: s.asked ∧ s.asked.map Prod.snd = stuff 0xff 0 s.bytes ∧ s.readies ≤ s.starts ∧ s.starts ≤ s.readies + 1 ∧
      (s.starts = s.readies → s.log = s.asked ∧ s.regs.wraddr = s.next) ∧
      ∀ more : List Input, AllSteps State.step Keeps s more → (∀ i ∈ more, i.startPb = false) → 515 ≤ more.length →
        (more.foldl State.step s).starts = (more.foldl State.step s).readies := by
  have hcount := h.count
  refine ⟨⟨_, h.asked.symm⟩, h.bytes, ?_, ?_, ?_, ?_⟩
  · exact Nat.le_trans (Nat.le_add_right _ _) (Nat.le_trans (Nat.le_add_right _ _) hcount.ge)
  · cases hr : s.regs.readyPb with
    | false =>
      have hbusy := Bool.toNat_le p.busy
      rw [hr, Bool.toNat_false] at hcount
      omega
    | true =>
      rw [hr, h.ready hr, Bool.toNat_true] at hcount
      exact hcount.le
  · intro hdone
    obtain ⟨rfl, hready⟩ := h.resting hdone
    rw [h.asked, h.next, h.out rfl hready, counted_of_zero h.phase.2]
    exact ⟨(List.append_nil _).symm, (BitVec.add_zero _).symm⟩
  · intro more hmore hquiet hlen
    obtain ⟨last, hsplit⟩ : ∃ last, more.drop (more.length - 1) = [last] :=
      List.length_eq_one_iff.1 (by rw [List.length_drop]; omega)
    have hmore' := List.take_append_drop (more.length - 1) more
    rw [hsplit] at hmore'
    rw [← hmore', Runs.allSteps_append] at hmore
    obtain ⟨p', h', hcycles⟩ := h.drains hmore.1 fun l hl => hquiet l (List.mem_of_mem_take hl)
    obtain rfl : p' = .idle := by
      refine idle_of_cycles ?_
      have hle := h.cycles_le
      rw [List.length_take, Nat.min_eq_left (Nat.sub_le _ _)] at hcycles
      omega
    have hlast := hquiet last (List.mem_of_mem_drop (hsplit ▸ List.mem_singleton_self last))
    have hcount' := h'.count
    rw [← hmore', List.foldl_append]
    show _ + last.startPb.toNat = _
    rw [hlast, hcount']
    rfl

/-- **The image data is written with its stuffing**: along a run that keeps to the rules, a start waits for one answer at
most; what is written is the beginning of the bytes of the blocks with a zero behind each mark of a marker, at the
addresses from that of the image data on, and all of it when the last start is answered; and 515 cycles without a start
are enough for the answer. -/
theorem bytes_stuffed (mem : Bool → BitVec 7 → Byte) (readAddr : Bool → BitVec 7) (dataIn dataOut : Byte)
    (is : List Input) (hkeeps : AllSteps State.step Keeps (.reset mem readAddr dataIn dataOut) is) :
    let s := is.foldl State.step (.reset mem readAddr dataIn dataOut)
    s.log <+: s.asked ∧ s.asked.map Prod.snd = stuff 0xff 0 s.bytes ∧ s.readies ≤ s.starts ∧ s.starts ≤ s.readies + 1 ∧
      (s.starts = s.readies → s.log = s.asked ∧ s.regs.wraddr = s.next) ∧
      ∀ more : List Input, AllSteps State.step Keeps s more → (∀ i ∈ more, i.startPb = false) → 515 ≤ more.length →
        (more.foldl State.step s).starts = (more.foldl State.step s).readies := by
  have hstep : ∀ s i, (∃ p, Inv s p) → Keeps s i → True ∧ ∃ p, Inv (s.step i) p :=
    fun _ _ h hk => ⟨trivial, Inv.step h hk⟩
  have hall := (hkeeps.inv hstep ⟨_, inv_reset mem readAddr dataIn dataOut⟩).2
  obtain ⟨p, h⟩ := (Runs.allStates_iff_prefix _ is _).1 hall is (List.prefix_refl is)
  exact h.stuffed

/-- A block of two bytes, the second of which is a mark. -/
theorem bytes_stuffed_mark :
    let input (start sof : Bool) (byte : Option Byte) : Input := ⟨⟨start, sof⟩, byte.isSome, byte.getD 0⟩
    let is := [input false true (some 0x12), input false false (some 0xff), input false false none, input true false none] ++
      List.replicate 16 (input false false none)
    let s := is.foldl State.step (.reset (fun _ _ => 0) (fun _ => 0) 0 0)
    s.asked = [(623, 0x12), (624, 0xff), (625, 0)] ∧ s.starts = s.readies ∧ s.log = s.asked := by
  intro input is s
  have hdone : s.starts = s.readies := by decide +kernel
  exact ⟨by decide +kernel, hdone,
    ((bytes_stuffed (fun _ _ => 0) (fun _ => 0) 0 0 is (by decide +kernel)).2.2.2.2.1 hdone).1⟩

end ByteStuffer
end Hdmi2Usb
