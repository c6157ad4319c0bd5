import Hdmi2Usb.Memory
/-!
# Rle — the run-length coder of the JPEG encoder (`RLE.vhd`, `RLE_TOP.vhd`)

A start makes the coder read the 64 quantised coefficients of a block, a coefficient a cycle, from the half of the
quantiser's buffer that the quantiser does not write.  `process` finds the words: the difference of the DC coefficient to
that of the block before, and a run of zeros with the value behind it for the others; it stops the reading while it
writes the words of a run that is too long.  `entropyCoder` gives each value its size and its amplitude bits one cycle
later, and the word goes to the FIFO in the cycle behind (`dovalid`).
-/
namespace Hdmi2Usb
namespace Rle

/-- `dbuf_data`: what is written to the FIFO for a run and a value. -/
structure Word where
  runlength : BitVec 4
  size      : BitVec 4
  amplitude : BitVec 12
deriving DecidableEq, Repr

structure Regs where
  prevDcReg0   : BitVec 12
  prevDcReg1   : BitVec 12
  prevDcReg2   : BitVec 12
  accReg       : BitVec 13
  sizeReg      : BitVec 4
  ampliVliReg  : BitVec 13
  runlengthReg : BitVec 4
  dovalidReg   : Bool
  zeroCnt      : BitVec 6
  wrCnt        : BitVec 6
  rdCnt        : BitVec 6
  rdEn         : Bool
  divalid      : Bool
  divalidEn    : Bool
  zrlProc      : Bool
  zrlDi        : BitVec 12
  runlength    : BitVec 4
  dovalid      : Bool

/-- What comes in besides the coefficient: the start of a block and of an image, and the component of the block. -/
structure Ctrl where
  startPb : Bool
  sof     : Bool
  cmpIdx  : BitVec 3

/-! ## The main process

The parts of the process, in their order.  Each takes the registers `r` before the clock edge and those assigned so far,
`n`; the last assignment counts. -/

/-- What every cycle does first. -/
def Regs.defaults (r : Regs) : Regs :=
  { r with dovalidReg := false, runlengthReg := 0, runlength := r.runlengthReg, dovalid := r.dovalidReg,
           divalid := r.rdEn }

/-- The start, and the input read enable. -/
def Regs.inputRead (r n : Regs) (i : Ctrl) : Regs :=
  let n := if i.startPb then { n with rdCnt := 0, rdEn := true, divalidEn := true } else n
  let n := if r.divalid ∧ r.wrCnt = 63 then { n with divalidEn := false } else n
  if r.rdEn then
    if r.rdCnt = 63 then { n with rdCnt := 0, rdEn := false } else { n with rdCnt := r.rdCnt + 1 }
  else n

/-- The first coefficient of a block: the difference to the last block of the component. -/
def Regs.dcCoefficient (r n : Regs) (di : BitVec 12) (i : Ctrl) : Regs :=
  let n :=
    if i.cmpIdx = 0 ∨ i.cmpIdx = 1 then
      { n with accReg := di.signExtend 13 - r.prevDcReg0.signExtend 13, prevDcReg0 := di }
    else if i.cmpIdx = 2 then
      { n with accReg := di.signExtend 13 - r.prevDcReg1.signExtend 13, prevDcReg1 := di }
    else if i.cmpIdx = 3 then
      { n with accReg := di.signExtend 13 - r.prevDcReg2.signExtend 13, prevDcReg2 := di }
    else n
  { n with runlengthReg := 0, dovalidReg := true }

/-- The other coefficients. -/
def Regs.acCoefficient (r n : Regs) (di : BitVec 12) : Regs :=
  if di = 0 then
    if r.wrCnt = 63 then { n with accReg := 0, runlengthReg := 0, dovalidReg := true }
    else { n with zeroCnt := r.zeroCnt + 1 }
  else if r.zeroCnt.toNat ≤ 15 then
    { n with accReg := di.signExtend 13, runlengthReg := r.zeroCnt.setWidth 4, zeroCnt := 0, dovalidReg := true }
  else
    { n with accReg := 0, runlengthReg := 15, zeroCnt := r.zeroCnt - 16, dovalidReg := true, zrlProc := true,
             zrlDi := di, divalid := false, rdCnt := r.rdCnt }

/-- The input data valid. -/
def Regs.inputData (r n : Regs) (di : BitVec 12) (i : Ctrl) : Regs :=
  if r.divalid then
    let n := { n with wrCnt := r.wrCnt + 1 }
    if r.wrCnt = 0 then r.dcCoefficient n di i else r.acCoefficient n di
  else n

/-- The ZRL processing: the rest of a run that is longer than fifteen, and its value. -/
def Regs.zrl (r n : Regs) : Regs :=
  if r.zrlProc then
    if r.zeroCnt.toNat ≤ 15 then
      { n with accReg := r.zrlDi.signExtend 13, runlengthReg := r.zeroCnt.setWidth 4,
               zeroCnt := if r.zrlDi = 0 then 1 else 0, dovalidReg := true, divalid := r.divalidEn, zrlProc := false }
    else
      { n with accReg := 0, runlengthReg := 15, zeroCnt := r.zeroCnt - 16, dovalidReg := true, divalid := false,
               rdCnt := r.rdCnt }
  else n

/-- The start of a block and the start of an image. -/
def Regs.restart (n : Regs) (i : Ctrl) : Regs :=
  let n := if i.startPb then { n with zeroCnt := 0, wrCnt := 0 } else n
  if i.sof then { n with prevDcReg0 := 0, prevDcReg1 := 0, prevDcReg2 := 0 } else n

/-! ## The entropy coder -/

/-- The size of a value.  The two chains of comparisons go over the sizes 1 to 11 for negative and for positive values;
a value that is in none of their ranges leaves the register as it is. -/
def symbolSize (sizeReg : BitVec 4) (acc : BitVec 13) : BitVec 4 :=
  if acc.toInt = 0 then 0
  else
    match (List.range' 1 11).find? fun n =>
      (acc.toInt < 1 - 2 ^ (n - 1 : ℕ) ∧ -2 ^ n < acc.toInt) ∨ (2 ^ (n - 1 : ℕ) - 1 < acc.toInt ∧ acc.toInt < 2 ^ n) with
    | some n => BitVec.ofNat 4 n
    | none   => sizeReg

def Regs.entropyCoder (r n : Regs) : Regs :=
  { n with ampliVliReg := if 0 ≤ r.accReg.toInt then r.accReg else r.accReg - 1, sizeReg := symbolSize r.sizeReg r.accReg }

/-- A clock edge. -/
def Regs.step (r : Regs) (di : BitVec 12) (i : Ctrl) : Regs :=
  let n := r.inputRead r.defaults i
  let n := r.inputData n di i
  let n := r.zrl n
  let n := n.restart i
  r.entropyCoder n

/-- Under `rst`; `wr_cnt`, `divalid` and `zrl_di` are 0 from power-on. -/
def Regs.reset : Regs where
  prevDcReg0   := 0
  prevDcReg1   := 0
  prevDcReg2   := 0
  accReg       := 0
  sizeReg      := 0
  ampliVliReg  := 0
  runlengthReg := 0
  dovalidReg   := false
  zeroCnt      := 0
  wrCnt        := 0
  rdCnt        := 0
  rdEn         := false
  divalid      := false
  divalidEn    := false
  zrlProc      := false
  zrlDi        := 0
  runlength    := 0
  dovalid      := false

/-- `dbuf_data` -/
def Regs.word (r : Regs) : Word := ⟨r.runlength, r.sizeReg, r.ampliVliReg.extractLsb' 0 12⟩

/-! ## The top level, and the quantiser's buffer -/

structure Top where
  wrCnt     : BitVec 6
  readyPb   : Bool
  quaBufSel : Bool

/-- `p_ready_pb` and `p_buf_sel`. -/
def Top.step (t : Top) (r : Regs) (startPb : Bool) : Top where
  wrCnt :=
    if r.dovalid then
      if r.word.runlength = 15 ∧ r.word.size = 0 then t.wrCnt + 16 else t.wrCnt + 1 + r.word.runlength.setWidth 6
    else if startPb then 0 else t.wrCnt
  readyPb :=
    r.dovalid && (decide (r.word = ⟨0, 0, 0⟩ ∧ t.wrCnt ≠ 0) ||
      decide (t.wrCnt + r.word.runlength.setWidth 6 = 63))
  quaBufSel := if startPb then !t.quaBufSel else t.quaBufSel

/-- `RAMZ`, as two halves; `qua_buf_sel` is the top bit of the read address, and not that of the write address. -/
structure Buffer where
  mem     : Bool → BitVec 6 → BitVec 12
  readSel : Bool
  readAdr : BitVec 6

def Buffer.q (b : Buffer) : BitVec 12 := b.mem b.readSel b.readAdr

/-- The write of the quantiser, and the read address of this cycle. -/
def Buffer.step (b : Buffer) (bufSel : Bool) (rdAddr : BitVec 6) (write : Option (BitVec 6 × BitVec 12)) : Buffer where
  mem     := match write with
    | some (wrCnt, d) => Function.update b.mem (!bufSel) (Function.update (b.mem !bufSel) wrCnt d)
    | none            => b.mem
  readSel := bufSel
  readAdr := rdAddr

end Rle
end Hdmi2Usb
