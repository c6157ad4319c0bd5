import Hdmi2Usb.Memory
import Hdmi2Usb.Runs
/-!
# JfifGen — the header of a JPEG image (`JFIFGen.vhd`, `HeaderRAM.v`)

A start makes `p_ctrl` read the header RAM byte by byte, and wait where the output is almost full; what is read is
written two cycles later.  Between a start and the write of its last byte the bytes that are not written yet are in the
registers on the way or still to be read (`pending`), so each is written once, at its address and in order
(`header_written`).
-/
namespace Hdmi2Usb
namespace JfifGen

open Runs (AllSteps)

/-- `C_HDR_SIZE` -/
def hdrSize : Nat := 623

structure Input where
  outifAlmostFull : Bool
  start           : Bool
  eoi             : Bool
  numEncBytes     : BitVec 24
  qwren           : Bool
  qwaddr          : BitVec 7
  qwdata          : Byte
  imageSizeReg    : BitVec 32
  imageSizeRegWr  : Bool

/-! ## The header RAM and the host's port -/

structure HeaderRam where
  mem      : BitVec 10 → Byte
  readAddr : BitVec 10

def HeaderRam.q (r : HeaderRam) : Byte := r.mem r.readAddr

structure Host where
  sizeWrCnt : BitVec 3
  sizeWr    : Bool
  hrWe      : Bool
  hrData    : Byte
  hrWaddr   : BitVec 10

def HeaderRam.step (r : HeaderRam) (h : Host) (raddr : BitVec 10) : HeaderRam :=
  { mem := if h.hrWe then Function.update r.mem h.hrWaddr h.hrData else r.mem, readAddr := raddr }

/-- The bytes of the image size, each with its place in the header. -/
def sizeByte (i : Input) (sizeWrCnt : BitVec 3) : Option (BitVec 10 × Byte) :=
  if sizeWrCnt = 0 then some (25, i.imageSizeReg.extractLsb' 8 8)
  else if sizeWrCnt = 1 then some (26, i.imageSizeReg.extractLsb' 0 8)
  else if sizeWrCnt = 2 then some (27, i.imageSizeReg.extractLsb' 24 8)
  else if sizeWrCnt = 3 then some (28, i.imageSizeReg.extractLsb' 16 8)
  else none

/-- Where a quantiser value goes: the luminance table, or the chrominance table. -/
def tableAddr (qwaddr : BitVec 7) : BitVec 10 :=
  if qwaddr.getLsbD 6 = false then (qwaddr.extractLsb' 0 6).setWidth 10 + 44
  else (qwaddr.extractLsb' 0 6).setWidth 10 + (44 + 69)

/-- `p_host_wr`.  The last assignment to a signal counts. -/
def Host.step (h : Host) (i : Input) : Host :=
  let n := { h with hrWe := false }
  let n := if i.imageSizeRegWr then { n with sizeWrCnt := 0, sizeWr := true } else n
  if h.sizeWr then
    if h.sizeWrCnt = 4 then { n with sizeWrCnt := 0, sizeWr := false }
    else
      let w := (sizeByte i h.sizeWrCnt).getD (h.hrWaddr, h.hrData)
      { n with sizeWrCnt := h.sizeWrCnt + 1, hrWe := true, hrWaddr := w.1, hrData := w.2 }
  else if i.qwren then { n with hrWe := true, hrWaddr := tableAddr i.qwaddr, hrData := i.qwdata }
  else n

/-! ## The control process -/

structure Ctrl where
  ready         : Bool
  readingHeader : Bool
  rdEn          : Bool
  rdEnD1        : Bool
  rdCnt         : BitVec 10
  rdCntD1       : BitVec 10
  eoiWr         : Bool
  eoiCnt        : BitVec 2
  ramWren       : Bool
  ramByte       : Byte
  ramWraddr     : BitVec 24

/-- What `p_ctrl` does in every cycle. -/
def Ctrl.pass (c : Ctrl) (hrQ : Byte) : Ctrl :=
  { c with ready := false, rdCntD1 := c.rdCnt, rdEnD1 := c.rdEn
           ramWren := c.rdEnD1, ramWraddr := c.rdCntD1.setWidth 24, ramByte := hrQ }

/-- `p_ctrl`. -/
def Ctrl.step (c : Ctrl) (hrQ : Byte) (i : Input) : Ctrl :=
  let n := c.pass hrQ
  let n :=
    if i.start && !i.eoi then { n with rdCnt := 0, rdEn := true, readingHeader := true }
    else if i.start && i.eoi then { n with eoiWr := true, eoiCnt := 0 }
    else n
  let n :=
    if c.readingHeader then
      if c.rdCnt.toNat = hdrSize - 1 then { n with readingHeader := false, rdEn := false, ready := true }
      else if i.outifAlmostFull = false then { n with rdEn := true, rdCnt := c.rdCnt + 1 }
      else { n with rdEn := false }
    else n
  if c.eoiWr then
    if c.eoiCnt = 2 then { n with eoiCnt := 0, eoiWr := false, ready := true }
    else
      let n := { n with eoiCnt := c.eoiCnt + 1, ramWren := true }
      if c.eoiCnt = 0 then { n with ramByte := 0xff, ramWraddr := i.numEncBytes }
      else if c.eoiCnt = 1 then { n with ramByte := 0xd9, ramWraddr := i.numEncBytes + 1 }
      else n
  else n

/-! ## Runs -/

/-- A write of the output RAM: its address and the byte. -/
abbrev Write := BitVec 24 × Byte

/-- The first bytes of the header RAM, from the `k`-th on, each at its address. -/
def headerFrom (mem : BitVec 10 → Byte) (k : Nat) : List Write :=
  (List.range' k (hdrSize - k)).map fun n => (BitVec.ofNat 24 n, mem (BitVec.ofNat 10 n))

/-- The generator, with what it has written and signalled so far, and what its starts have asked for. -/
structure State where
  ctrl    : Ctrl
  host    : Host
  ram     : HeaderRam
  log     : List Write
  readies : Nat
  starts  : Nat
  asked   : List Write

/-- What a start asks for, and what a cycle of the end marker does. -/
def State.asks (s : State) (i : Input) : List Write :=
  if i.start && !i.eoi then headerFrom s.ram.mem 0
  else if s.ctrl.eoiWr && s.ctrl.eoiCnt = 0 then [(i.numEncBytes, 0xff)]
  else if s.ctrl.eoiWr && s.ctrl.eoiCnt = 1 then [(i.numEncBytes + 1, 0xd9)]
  else []

def State.step (s : State) (i : Input) : State :=
  { ctrl    := s.ctrl.step s.ram.q i
    host    := s.host.step i
    ram     := s.ram.step s.host s.ctrl.rdCnt
    log     := if s.ctrl.ramWren then s.log ++ [(s.ctrl.ramWraddr, s.ctrl.ramByte)] else s.log
    readies := s.readies + s.ctrl.ready.toNat
    starts  := s.starts + i.start.toNat
    asked   := s.asked ++ s.asks i }

/-- After a reset, with anything in the header RAM. -/
def State.reset (ram : HeaderRam) : State where
  ctrl    := ⟨false, false, false, false, 0, 0, false, 0, false, 0, 0⟩
  host    := ⟨0, false, false, 0, 0⟩
  ram     := ram
  log     := []
  readies := 0
  starts  := 0
  asked   := []

/-- A start is for a generator that is not at work. -/
def Ctrl.Free (c : Ctrl) : Prop := c.readingHeader = false ∧ c.eoiWr = false

/-- The header is being read, or its last byte is on the way. -/
def Ctrl.Reads (c : Ctrl) : Prop := c.readingHeader = true ∨ c.rdEnD1 = true

/-- The host has finished its writes and makes no new one. -/
def Quiet (h : Host) (i : Input) : Prop :=
  (h.sizeWr = false ∧ h.hrWe = false) ∧ i.imageSizeRegWr = false ∧ i.qwren = false

/-- What the other side keeps to: a start finds the generator free, and the host's writes are finished before the start
of a header and wait for its end. -/
def Keeps (s : State) (i : Input) : Prop :=
  (i.start = true → s.ctrl.Free) ∧ (s.ctrl.Reads ∨ (i.start = true ∧ i.eoi = false) → Quiet s.host i)

/-! ## What a cycle does -/

/-- What a run keeps of the control process. -/
structure Ctrl.Inv (c : Ctrl) : Prop where
  rdEn  : c.rdEn = true → c.readingHeader = true
  rdCnt : c.readingHeader = true → c.rdCnt.toNat < hdrSize
  eoi   : c.eoiWr = true → c.readingHeader = false ∧ c.rdEnD1 = false ∧ c.eoiCnt.toNat ≤ 2

/-- The steps of the control process, between starts that find it free. -/
inductive Ctrl.Move (c : Ctrl) (hrQ : Byte) (i : Input) : Ctrl → Prop
  | rest (hfree : c.Free) (hstart : i.start = false) : Move c hrQ i (c.pass hrQ)
  | header (hfree : c.Free) (hstart : i.start = true) (heoi : i.eoi = false) :
      Move c hrQ i { c.pass hrQ with rdCnt := 0, rdEn := true, readingHeader := true }
  | marker (hfree : c.Free) (hstart : i.start = true) (heoi : i.eoi = true) :
      Move c hrQ i { c.pass hrQ with eoiWr := true, eoiCnt := 0 }
  | last (hread : c.readingHeader = true) (heoi : c.eoiWr = false) (hstart : i.start = false)
      (hcnt : c.rdCnt.toNat = hdrSize - 1) :
      Move c hrQ i { c.pass hrQ with readingHeader := false, rdEn := false, ready := true }
  | next (hread : c.readingHeader = true) (heoi : c.eoiWr = false) (hstart : i.start = false)
      (hcnt : c.rdCnt.toNat < hdrSize - 1) (hfull : i.outifAlmostFull = false) :
      Move c hrQ i { c.pass hrQ with rdEn := true, rdCnt := c.rdCnt + 1 }
  | stall (hread : c.readingHeader = true) (heoi : c.eoiWr = false) (hstart : i.start = false)
      (hcnt : c.rdCnt.toNat < hdrSize - 1) (hfull : i.outifAlmostFull = true) :
      Move c hrQ i { c.pass hrQ with rdEn := false }
  | high (hread : c.readingHeader = false) (heoi : c.eoiWr = true) (hstart : i.start = false) (hcnt : c.eoiCnt = 0) :
      Move c hrQ i { c.pass hrQ with eoiCnt := 1, ramWren := true, ramByte := 0xff, ramWraddr := i.numEncBytes }
  | low (hread : c.readingHeader = false) (heoi : c.eoiWr = true) (hstart : i.start = false) (hcnt : c.eoiCnt = 1) :
      Move c hrQ i { c.pass hrQ with eoiCnt := 2, ramWren := true, ramByte := 0xd9, ramWraddr := i.numEncBytes + 1 }
  | done (hread : c.readingHeader = false) (heoi : c.eoiWr = true) (hstart : i.start = false) (hcnt : c.eoiCnt = 2) :
      Move c hrQ i { c.pass hrQ with eoiCnt := 0, eoiWr := false, ready := true }

theorem eoiCnt_cases {n : BitVec 2} (h : n.toNat ≤ 2) : n = 0 ∨ n = 1 ∨ n = 2 := by
  revert h
  revert n
  decide

theorem Ctrl.Inv.move {c : Ctrl} (h : c.Inv) (hrQ : Byte) {i : Input} (hstart : i.start = true → c.Free) :
    c.Move hrQ i (c.step hrQ i) := by
  cases hs : i.start with
  | true =>
    obtain ⟨hread, heoi⟩ := hstart hs
    cases he : i.eoi with
    | false =>
      have hstep : c.step hrQ i = { c.pass hrQ with rdCnt := 0, rdEn := true, readingHeader := true } := by
        simp [Ctrl.step, hs, he, hread, heoi]
      exact hstep ▸ .header ⟨hread, heoi⟩ hs he
    | true =>
      have hstep : c.step hrQ i = { c.pass hrQ with eoiWr := true, eoiCnt := 0 } := by
        simp [Ctrl.step, hs, he, hread, heoi]
      exact hstep ▸ .marker ⟨hread, heoi⟩ hs he
  | false =>
    cases heoi : c.eoiWr with
    | true =>
      obtain ⟨hread, -, hcnt⟩ := h.eoi heoi
      rcases eoiCnt_cases hcnt with h0 | h1 | h2
      · have hstep : c.step hrQ i =
            { c.pass hrQ with eoiCnt := 1, ramWren := true, ramByte := 0xff, ramWraddr := i.numEncBytes } := by
          simp [Ctrl.step, hs, hread, heoi, h0]
        exact hstep ▸ .high hread heoi hs h0
      · have hstep : c.step hrQ i =
            { c.pass hrQ with eoiCnt := 2, ramWren := true, ramByte := 0xd9, ramWraddr := i.numEncBytes + 1 } := by
          simp [Ctrl.step, hs, hread, heoi, h1]
        exact hstep ▸ .low hread heoi hs h1
      · have hstep : c.step hrQ i = { c.pass hrQ with eoiCnt := 0, eoiWr := false, ready := true } := by
          simp [Ctrl.step, hs, hread, heoi, h2]
        exact hstep ▸ .done hread heoi hs h2
    | false =>
      cases hread : c.readingHeader with
      | false =>
        have hstep : c.step hrQ i = c.pass hrQ := by simp [Ctrl.step, hs, hread, heoi]
        exact hstep ▸ .rest ⟨hread, heoi⟩ hs
      | true =>
        by_cases hcnt : c.rdCnt.toNat = hdrSize - 1
        · have hstep : c.step hrQ i = { c.pass hrQ with readingHeader := false, rdEn := false, ready := true } := by
            simp [Ctrl.step, hs, hread, heoi, hcnt]
          exact hstep ▸ .last hread heoi hs hcnt
        · have hlt : c.rdCnt.toNat < hdrSize - 1 := Nat.lt_of_le_of_ne (Nat.le_sub_one_of_lt (h.rdCnt hread)) hcnt
          cases hfull : i.outifAlmostFull with
          | false =>
            have hstep : c.step hrQ i = { c.pass hrQ with rdEn := true, rdCnt := c.rdCnt + 1 } := by
              simp [Ctrl.step, hs, hread, heoi, hcnt, hfull]
            exact hstep ▸ .next hread heoi hs hlt hfull
          | true =>
            have hstep : c.step hrQ i = { c.pass hrQ with rdEn := false } := by
              simp [Ctrl.step, hs, hread, heoi, hcnt, hfull]
            exact hstep ▸ .stall hread heoi hs hlt hfull

theorem toNat_rdCnt_succ {n : BitVec 10} (h : n.toNat < hdrSize - 1) : (n + 1).toNat = n.toNat + 1 := by
  simp only [hdrSize] at h
  rw [BitVec.toNat_add]
  exact Nat.mod_eq_of_lt (by simp; omega)

theorem Ctrl.Inv.rdEn_of_not_reading {c : Ctrl} (h : c.Inv) (hread : c.readingHeader = false) : c.rdEn = false := by
  rw [← Bool.not_eq_true]
  intro hen
  rw [h.rdEn hen] at hread
  cases hread

theorem Ctrl.Inv.step {c : Ctrl} (h : c.Inv) (hrQ : Byte) {i : Input} (hstart : i.start = true → c.Free) :
    (c.step hrQ i).Inv := by
  have hfree : c.readingHeader = false → c.rdEn = false := h.rdEn_of_not_reading
  generalize hc : c.step hrQ i = c'
  have hmove := h.move hrQ hstart
  rw [hc] at hmove
  cases hmove with
  | rest hf hs =>
    exact ⟨h.rdEn, h.rdCnt, fun heoi => absurd heoi (by simp [Ctrl.pass, hf.2])⟩
  | header hf hs he =>
    exact ⟨fun _ => rfl, fun _ => Nat.zero_lt_succ 622, fun heoi => absurd heoi (by simp [Ctrl.pass, hf.2])⟩
  | marker hf hs he =>
    exact ⟨h.rdEn, h.rdCnt, fun _ => ⟨hf.1, hfree hf.1, Nat.zero_le 2⟩⟩
  | last hread heoi hs hcnt =>
    exact ⟨fun hen => absurd hen (by simp), fun hr => absurd hr (by simp),
      fun he => absurd he (by simp [Ctrl.pass, heoi])⟩
  | next hread heoi hs hcnt hfull =>
    refine ⟨fun _ => hread, fun _ => ?_, fun he => absurd he (by simp [Ctrl.pass, heoi])⟩
    show (c.rdCnt + 1).toNat < hdrSize
    rw [toNat_rdCnt_succ hcnt]
    exact Nat.add_lt_of_lt_sub hcnt
  | stall hread heoi hs hcnt hfull =>
    exact ⟨fun hen => absurd hen (by simp), h.rdCnt, fun he => absurd he (by simp [Ctrl.pass, heoi])⟩
  | high hread heoi hs hcnt =>
    exact ⟨h.rdEn, h.rdCnt, fun _ => ⟨hread, hfree hread, Nat.le_succ 1⟩⟩
  | low hread heoi hs hcnt =>
    exact ⟨h.rdEn, h.rdCnt, fun _ => ⟨hread, hfree hread, Nat.le_refl 2⟩⟩
  | done hread heoi hs hcnt =>
    exact ⟨h.rdEn, h.rdCnt, fun he => absurd he (by simp)⟩

/-! ## The bytes on the way -/

theorem headerFrom_of_lt (mem : BitVec 10 → Byte) {k : Nat} (h : k < hdrSize) :
    headerFrom mem k = (BitVec.ofNat 24 k, mem (BitVec.ofNat 10 k)) :: headerFrom mem (k + 1) := by
  have hlen : hdrSize - k = hdrSize - (k + 1) + 1 := by omega
  rw [headerFrom, hlen, List.range'_succ, List.map_cons]
  rfl

section

variable (c : Ctrl) (mem : BitVec 10 → Byte)

/-- What is written in this cycle. -/
def Ctrl.out : List Write := if c.ramWren then [(c.ramWraddr, c.ramByte)] else []

/-- What is written in the next one, and in the one behind. -/
def Ctrl.second : List Write := if c.rdEnD1 then [(c.rdCntD1.setWidth 24, mem c.rdCntD1)] else []

def Ctrl.first : List Write := if c.rdEn then [(c.rdCnt.setWidth 24, mem c.rdCnt)] else []

/-- What is still to be read. -/
def Ctrl.unread : List Write := if c.readingHeader then headerFrom mem (c.rdCnt.toNat + 1) else []

/-- All that is not written yet. -/
def Ctrl.pending : List Write := c.out ++ (c.second mem ++ (c.first mem ++ c.unread mem))

end

theorem setWidth_rdCnt (n : BitVec 10) : n.setWidth 24 = BitVec.ofNat 24 n.toNat := by
  apply BitVec.eq_of_toNat_eq
  rw [BitVec.toNat_setWidth, BitVec.toNat_ofNat]

/-- The read that goes on reads the next byte. -/
theorem read_next (mem : BitVec 10 → Byte) {n : BitVec 10} (h : n.toNat < hdrSize) :
    headerFrom mem n.toNat = (n.setWidth 24, mem n) :: headerFrom mem (n.toNat + 1) := by
  have hself : BitVec.ofNat 10 n.toNat = n := by rw [BitVec.ofNat_toNat, BitVec.setWidth_eq]
  rw [headerFrom_of_lt mem h, hself, setWidth_rdCnt]

/-- What goes from one register to the next. -/
theorem out_pass {c c' : Ctrl} {mem : BitVec 10 → Byte} {hrQ : Byte} (hq : c.rdEnD1 = true → hrQ = mem c.rdCntD1)
    (hwren : c'.ramWren = c.rdEnD1) (haddr : c'.ramWraddr = c.rdCntD1.setWidth 24) (hbyte : c'.ramByte = hrQ) :
    c'.out = c.second mem := by
  rw [Ctrl.out, Ctrl.second, hwren, haddr, hbyte]
  split
  next hd1 => rw [hq hd1]
  next => rfl

theorem second_pass {c c' : Ctrl} {mem mem' : BitVec 10 → Byte} (hmem : c.rdEn = true → mem' = mem)
    (hen : c'.rdEnD1 = c.rdEn) (hcnt : c'.rdCntD1 = c.rdCnt) : c'.second mem' = c.first mem := by
  rw [Ctrl.second, Ctrl.first, hen, hcnt]
  split
  next hen => rw [hmem hen]
  next => rfl

theorem unread_of_not_reading {c : Ctrl} (h : c.readingHeader = false) (mem : BitVec 10 → Byte) : c.unread mem = [] := by
  rw [Ctrl.unread, h]
  rfl

theorem first_of_not_rdEn {c : Ctrl} (h : c.rdEn = false) (mem : BitVec 10 → Byte) : c.first mem = [] := by
  rw [Ctrl.first, h]
  rfl

/-- **A cycle loses no byte and makes none up**: what was pending behind the write of this cycle, and what the cycle asks
for, is pending behind it. -/
theorem pending_move {c c' : Ctrl} (h : c.Inv) {mem mem' : BitVec 10 → Byte} {hrQ : Byte} {i : Input}
    (hq : c.rdEnD1 = true → hrQ = mem c.rdCntD1)
    (hmem : c.Reads ∨ (i.start = true ∧ i.eoi = false) → mem' = mem) (hmove : c.Move hrQ i c') :
    c'.pending mem' = c.second mem ++ (c.first mem ++ c.unread mem) ++
      (if i.start && !i.eoi then headerFrom mem 0
        else if c.eoiWr && c.eoiCnt = 0 then [(i.numEncBytes, 0xff)]
        else if c.eoiWr && c.eoiCnt = 1 then [(i.numEncBytes + 1, 0xd9)] else []) := by
  have hfree : c.readingHeader = false → c.rdEn = false := h.rdEn_of_not_reading
  have hreads : c.rdEn = true → mem' = mem := fun hen => hmem (.inl (.inl (h.rdEn hen)))
  rw [Ctrl.pending]
  cases hmove with
  | rest hf hs =>
    have hen := hfree hf.1
    rw [out_pass hq rfl rfl rfl, second_pass hreads rfl rfl, first_of_not_rdEn (c := c.pass hrQ) hen,
      unread_of_not_reading (c := c.pass hrQ) hf.1, unread_of_not_reading hf.1, hs, hf.2]
    simp
  | header hf hs he =>
    have hen := hfree hf.1
    rw [out_pass hq rfl rfl rfl, second_pass hreads rfl rfl, first_of_not_rdEn hen, unread_of_not_reading hf.1, hs, he,
      hmem (.inr ⟨hs, he⟩)]
    simp [Ctrl.first, Ctrl.unread, headerFrom_of_lt mem (show 0 < hdrSize by decide)]
  | marker hf hs he =>
    have hen := hfree hf.1
    rw [out_pass hq rfl rfl rfl, second_pass hreads rfl rfl, first_of_not_rdEn hen, unread_of_not_reading hf.1, hs, he, hf.2]
    simp [Ctrl.first, Ctrl.unread, Ctrl.pass, hen, hf.1]
  | last hread heoi hs hcnt =>
    have hlast : c.unread mem = [] := by
      rw [Ctrl.unread, hread, hcnt]
      rfl
    rw [out_pass hq rfl rfl rfl, second_pass hreads rfl rfl, hlast, hs, heoi]
    simp [Ctrl.first, Ctrl.unread]
  | next hread heoi hs hcnt hfull =>
    have hnext : c.unread mem =
        ((c.rdCnt + 1).setWidth 24, mem (c.rdCnt + 1)) :: headerFrom mem ((c.rdCnt + 1).toNat + 1) := by
      have hsucc := toNat_rdCnt_succ hcnt
      rw [Ctrl.unread, hread, if_pos rfl, ← hsucc]
      exact read_next mem (by rw [hsucc]; exact Nat.add_lt_of_lt_sub hcnt)
    rw [out_pass hq rfl rfl rfl, second_pass hreads rfl rfl, hnext, hs, heoi, hmem (.inl (.inl hread))]
    simp [Ctrl.first, Ctrl.unread, Ctrl.pass, hread]
  | stall hread heoi hs hcnt hfull =>
    rw [out_pass hq rfl rfl rfl, second_pass hreads rfl rfl, hs, heoi, hmem (.inl (.inl hread))]
    simp [Ctrl.first, Ctrl.unread, Ctrl.pass, hread]
  | high hread heoi hs hcnt =>
    obtain ⟨-, hd1, -⟩ := h.eoi heoi
    have hen := hfree hread
    simp [Ctrl.out, Ctrl.second, Ctrl.first, Ctrl.unread, Ctrl.pass, hread, heoi, hs, hcnt, hd1, hen]
  | low hread heoi hs hcnt =>
    obtain ⟨-, hd1, -⟩ := h.eoi heoi
    have hen := hfree hread
    simp [Ctrl.out, Ctrl.second, Ctrl.first, Ctrl.unread, Ctrl.pass, hread, heoi, hs, hcnt, hd1, hen]
  | done hread heoi hs hcnt =>
    obtain ⟨-, hd1, -⟩ := h.eoi heoi
    have hen := hfree hread
    simp [Ctrl.out, Ctrl.second, Ctrl.first, Ctrl.unread, Ctrl.pass, hread, hs, hcnt, hd1, hen]

/-! ## Runs -/

/-- The generator is at work on a start. -/
def Ctrl.working (c : Ctrl) : Bool := c.readingHeader || c.eoiWr

/-- A start puts the generator to work, and `ready` goes high where it is done. -/
theorem working_move {c c' : Ctrl} {hrQ : Byte} {i : Input} (hmove : c.Move hrQ i c') :
    c.working.toNat + i.start.toNat = c'.ready.toNat + c'.working.toNat := by
  cases hmove with
  | rest hf hs => simp [Ctrl.working, Ctrl.pass, hf.1, hf.2, hs]
  | header hf hs he => simp [Ctrl.working, Ctrl.pass, hf.1, hf.2, hs]
  | marker hf hs he => simp [Ctrl.working, Ctrl.pass, hf.1, hf.2, hs]
  | last hread heoi hs hcnt => simp [Ctrl.working, Ctrl.pass, hread, heoi, hs]
  | next hread heoi hs hcnt hfull => simp [Ctrl.working, Ctrl.pass, hread, hs]
  | stall hread heoi hs hcnt hfull => simp [Ctrl.working, Ctrl.pass, hread, hs]
  | high hread heoi hs hcnt => simp [Ctrl.working, Ctrl.pass, hread, heoi, hs]
  | low hread heoi hs hcnt => simp [Ctrl.working, Ctrl.pass, hread, heoi, hs]
  | done hread heoi hs hcnt => simp [Ctrl.working, Ctrl.pass, hread, heoi, hs]

structure State.Inv (s : State) : Prop where
  ctrl    : s.ctrl.Inv
  addr    : s.ctrl.rdEnD1 = true → s.ram.readAddr = s.ctrl.rdCntD1
  asked   : s.asked = s.log ++ s.ctrl.pending s.ram.mem
  readies : s.starts = s.readies + s.ctrl.ready.toNat + s.ctrl.working.toNat

theorem rdCntD1_step {c c' : Ctrl} {hrQ : Byte} {i : Input} (hmove : c.Move hrQ i c') : c'.rdCntD1 = c.rdCnt := by
  cases hmove <;> rfl

theorem State.Inv.step {s : State} (h : s.Inv) {i : Input} (hkeeps : Keeps s i) : (s.step i).Inv := by
  have hmove := h.ctrl.move s.ram.q hkeeps.1
  have hmem : s.ctrl.Reads ∨ (i.start = true ∧ i.eoi = false) → (s.step i).ram.mem = s.ram.mem := by
    intro hreads
    obtain ⟨⟨-, hwe⟩, -⟩ := hkeeps.2 hreads
    show (if s.host.hrWe then _ else _) = _
    rw [hwe]
    rfl
  refine ⟨h.ctrl.step s.ram.q hkeeps.1, fun _ => (rdCntD1_step hmove).symm, ?_, ?_⟩
  · have hq : s.ctrl.rdEnD1 = true → s.ram.q = s.ram.mem s.ctrl.rdCntD1 := fun hd1 => by rw [HeaderRam.q, h.addr hd1]
    have hpending := pending_move h.ctrl hq hmem hmove
    have hlog : (s.step i).log = s.log ++ s.ctrl.out := by
      show (if _ then _ else _) = _
      rw [Ctrl.out]
      split
      next => rfl
      next => rw [List.append_nil]
    have hasked : (s.step i).asked = s.asked ++ s.asks i := rfl
    have hctrl : (s.step i).ctrl = s.ctrl.step s.ram.q i := rfl
    rw [hasked, hlog, hctrl, hpending, h.asked, Ctrl.pending, State.asks]
    simp only [List.append_assoc]
  · have hworking := working_move hmove
    have hstarts : (s.step i).starts = s.starts + i.start.toNat := rfl
    have hreadies : (s.step i).readies = s.readies + s.ctrl.ready.toNat := rfl
    have hctrl : (s.step i).ctrl = s.ctrl.step s.ram.q i := rfl
    have hcount := h.readies
    rw [hstarts, hreadies, hctrl]
    omega

theorem inv_reset (ram : HeaderRam) : (State.reset ram).Inv where
  ctrl    := ⟨fun h => absurd h (by simp [State.reset]), fun h => absurd h (by simp [State.reset]),
    fun h => absurd h (by simp [State.reset])⟩
  addr h  := absurd h (by simp [State.reset])
  asked   := rfl
  readies := rfl

/-! ## The end of the header -/

/-- Nothing is under way. -/
def Ctrl.Resting (c : Ctrl) : Prop :=
  c.readingHeader = false ∧ c.eoiWr = false ∧ c.rdEnD1 = false ∧ c.ramWren = false

/-- The bytes whose read has not begun. -/
def Ctrl.left (c : Ctrl) : Nat := if c.readingHeader then hdrSize - 1 - c.rdCnt.toNat else 0

/-- The cycles that the rest takes once the last read has begun. -/
def Ctrl.drain (c : Ctrl) : Nat :=
  if c.readingHeader then 3 else if c.eoiWr then 3 - c.eoiCnt.toNat else if c.rdEnD1 then 2 else if c.ramWren then 1 else 0

theorem resting_of_drain {c : Ctrl} (h : c.Inv) (hdrain : c.drain = 0) : c.Resting := by
  unfold Ctrl.drain at hdrain
  cases hread : c.readingHeader with
  | true => simp [hread] at hdrain
  | false =>
    cases heoi : c.eoiWr with
    | true =>
      obtain ⟨-, -, hcnt⟩ := h.eoi heoi
      simp only [hread, heoi, if_true, if_false, Bool.false_eq_true] at hdrain
      omega
    | false =>
      simp only [hread, heoi, if_false, Bool.false_eq_true] at hdrain
      cases hd1 : c.rdEnD1 with
      | true => simp [hd1] at hdrain
      | false =>
        cases hwren : c.ramWren with
        | true  => simp [hd1, hwren] at hdrain
        | false => exact ⟨hread, heoi, hd1, hwren⟩

theorem left_move {c c' : Ctrl} {hrQ : Byte} {i : Input} (hstart : i.start = false) (hmove : c.Move hrQ i c') :
    c'.left ≤ c.left - (!i.outifAlmostFull).toNat := by
  cases hmove with
  | rest hf hs => simp [Ctrl.left, Ctrl.pass, hf.1]
  | header hf hs he => rw [hs] at hstart; cases hstart
  | marker hf hs he => rw [hs] at hstart; cases hstart
  | last hread heoi hs hcnt => simp [Ctrl.left]
  | next hread heoi hs hcnt hfull =>
    have hsucc := toNat_rdCnt_succ hcnt
    simp only [Ctrl.left, Ctrl.pass, hread, if_true, hsucc, hfull, Bool.not_false, Bool.toNat_true]
    omega
  | stall hread heoi hs hcnt hfull => simp [Ctrl.left, Ctrl.pass, hread, hfull]
  | high hread heoi hs hcnt => simp [Ctrl.left, Ctrl.pass, hread]
  | low hread heoi hs hcnt => simp [Ctrl.left, Ctrl.pass, hread]
  | done hread heoi hs hcnt => simp [Ctrl.left, Ctrl.pass, hread]

theorem drain_move {c c' : Ctrl} (h : c.Inv) {hrQ : Byte} {i : Input} (hstart : i.start = false) (hleft : c.left = 0)
    (hmove : c.Move hrQ i c') : c'.drain ≤ c.drain - 1 := by
  have hfree : c.readingHeader = false → c.rdEn = false := h.rdEn_of_not_reading
  have hreading : c.readingHeader = true → ¬ c.rdCnt.toNat < hdrSize - 1 := fun hread hlt => by
    rw [Ctrl.left, hread, if_pos rfl] at hleft
    omega
  cases hmove with
  | rest hf hs =>
    have hen := hfree hf.1
    simp only [Ctrl.drain, Ctrl.pass, hf.1, hf.2, hen, if_false, Bool.false_eq_true]
    split
    next => decide
    next => exact Nat.zero_le _
  | header hf hs he => rw [hs] at hstart; cases hstart
  | marker hf hs he => rw [hs] at hstart; cases hstart
  | last hread heoi hs hcnt =>
    simp only [Ctrl.drain, Ctrl.pass, hread, heoi, if_true, if_false, Bool.false_eq_true]
    split
    next => decide
    next => split <;> decide
  | next hread heoi hs hcnt hfull => exact absurd hcnt (hreading hread)
  | stall hread heoi hs hcnt hfull => exact absurd hcnt (hreading hread)
  | high hread heoi hs hcnt => simp [Ctrl.drain, Ctrl.pass, hread, heoi, hcnt]
  | low hread heoi hs hcnt => simp [Ctrl.drain, Ctrl.pass, hread, heoi, hcnt]
  | done hread heoi hs hcnt =>
    obtain ⟨-, hd1, -⟩ := h.eoi heoi
    have hen := hfree hread
    simp [Ctrl.drain, Ctrl.pass, hread, hd1, hen]

theorem free_of_not_start {c : Ctrl} {i : Input} (h : i.start = false) : i.start = true → c.Free := fun hs => by
  rw [h] at hs
  cases hs

theorem left_run (is : List Input) : ∀ {s : State}, s.ctrl.Inv → (∀ i ∈ is, i.start = false) →
    (is.foldl State.step s).ctrl.Inv ∧
      (is.foldl State.step s).ctrl.left ≤ s.ctrl.left - is.countP (fun i => !i.outifAlmostFull) := by
  induction is with
  | nil => exact fun h _ => ⟨h, Nat.le_refl _⟩
  | cons i is ih =>
    intro s h hstart
    obtain ⟨hi, his⟩ := List.forall_mem_cons.1 hstart
    have hmove := h.move s.ram.q (free_of_not_start hi)
    have hleft := left_move hi hmove
    obtain ⟨hinv, hrun⟩ := ih (s := s.step i) (h.step s.ram.q (free_of_not_start hi)) his
    refine ⟨hinv, Nat.le_trans hrun ?_⟩
    have hcount : (i :: is).countP (fun i => !i.outifAlmostFull) =
        is.countP (fun i => !i.outifAlmostFull) + (!i.outifAlmostFull).toNat := by
      rw [List.countP_cons]
      cases i.outifAlmostFull <;> rfl
    have hstep : (s.step i).ctrl = s.ctrl.step s.ram.q i := rfl
    rw [hcount, hstep]
    omega

theorem drain_run (is : List Input) : ∀ {s : State}, s.ctrl.Inv → s.ctrl.left = 0 → (∀ i ∈ is, i.start = false) →
    (is.foldl State.step s).ctrl.Inv ∧ (is.foldl State.step s).ctrl.drain ≤ s.ctrl.drain - is.length := by
  induction is with
  | nil => exact fun h _ _ => ⟨h, Nat.le_refl _⟩
  | cons i is ih =>
    intro s h hleft hstart
    obtain ⟨hi, his⟩ := List.forall_mem_cons.1 hstart
    have hmove := h.move s.ram.q (free_of_not_start hi)
    have hdrain := drain_move h hi hleft hmove
    have hleft' : (s.step i).ctrl.left = 0 := by
      have hle := left_move hi hmove
      rw [hleft, Nat.zero_sub] at hle
      exact Nat.le_zero.1 hle
    obtain ⟨hinv, hrun⟩ := ih (s := s.step i) (h.step s.ram.q (free_of_not_start hi)) hleft' his
    refine ⟨hinv, Nat.le_trans hrun ?_⟩
    have hstep : (s.step i).ctrl = s.ctrl.step s.ram.q i := rfl
    rw [hstep, List.length_cons]
    omega

theorem drain_le (c : Ctrl) : c.drain ≤ 3 := by
  unfold Ctrl.drain
  split_ifs <;> omega

/-- **Every start emits its header once**: whatever the stalls, what has been written is what the starts have asked for
up to what is pending; each start is answered by one `ready`; and once the output has taken 622 reads and three more
cycles are over nothing is pending any more. -/
theorem header_written (ram : HeaderRam) (is : List Input) (h : AllSteps State.step Keeps (.reset ram) is) :
    let s := is.foldl State.step (.reset ram)
    s.asked = s.log ++ s.ctrl.pending s.ram.mem ∧
      s.starts = s.readies + s.ctrl.ready.toNat + s.ctrl.working.toNat ∧
      (s.ctrl.Resting → s.log = s.asked ∧ s.starts = s.readies + s.ctrl.ready.toNat) ∧
      ∀ js ks : List Input, (∀ j ∈ js ++ ks, j.start = false) →
        hdrSize - 1 ≤ js.countP (fun j => !j.outifAlmostFull) → 3 ≤ ks.length →
          ((js ++ ks).foldl State.step s).ctrl.Resting := by
  intro s
  have hinv : s.Inv := by
    have hstep : ∀ s i, State.Inv s → Keeps s i → True ∧ (s.step i).Inv := fun s i hs hk => ⟨trivial, hs.step hk⟩
    have hsteps := AllSteps.inv hstep (inv_reset ram) h
    exact (Runs.allStates_iff_prefix State.Inv is _).1 hsteps.2 is (List.prefix_refl is)
  refine ⟨hinv.asked, hinv.readies, ?_, ?_⟩
  · rintro ⟨hread, heoi, hd1, hwren⟩
    have hen := hinv.ctrl.rdEn_of_not_reading hread
    have hnone : s.ctrl.pending s.ram.mem = [] := by
      simp only [Ctrl.pending, Ctrl.out, Ctrl.second, Ctrl.first, Ctrl.unread, hread, hd1, hwren, hen, if_false,
        Bool.false_eq_true, List.append_nil]
    have hcount := hinv.readies
    rw [Ctrl.working, hread, heoi] at hcount
    refine ⟨?_, hcount⟩
    rw [hinv.asked, hnone, List.append_nil]
  · intro js ks hstart hfree htail
    obtain ⟨hjs, hks⟩ := List.forall_mem_append.1 hstart
    obtain ⟨hinv', hleft⟩ := left_run js hinv.ctrl hjs
    have hnone : (js.foldl State.step s).ctrl.left = 0 := by
      have hle : s.ctrl.left ≤ hdrSize - 1 := by
        unfold Ctrl.left
        split
        next => exact Nat.sub_le _ _
        next => exact Nat.zero_le _
      omega
    obtain ⟨hrest, hdrain⟩ := drain_run ks hinv' hnone hks
    have hle := drain_le (js.foldl State.step s).ctrl
    rw [List.foldl_append]
    exact resting_of_drain hrest (by omega)

/-- A cycle with nothing asked for, and with or without room in the output. -/
def quietInput (outifAlmostFull : Bool) : Input := ⟨outifAlmostFull, false, false, 0, false, 0, 0, 0, false⟩

def headerStart : Input := { quietInput false with start := true }

/-- A start with stalls behind it: 622 reads later the header is out. -/
theorem header_written_stalled :
    ((List.replicate 9 (quietInput true) ++ List.replicate 622 (quietInput false) ++ List.replicate 3 (quietInput true)).foldl
      State.step ([headerStart].foldl State.step (.reset ⟨fun a => a.setWidth 8, 0⟩))).ctrl.Resting := by
  have hkeeps : AllSteps State.step Keeps (.reset ⟨fun a => a.setWidth 8, 0⟩) [headerStart] :=
    ⟨⟨fun _ => ⟨rfl, rfl⟩, fun _ => ⟨⟨rfl, rfl⟩, rfl, rfl⟩⟩, trivial⟩
  refine (header_written ⟨fun a => a.setWidth 8, 0⟩ [headerStart] hkeeps).2.2.2 _ _ ?_ ?_ ?_
  · intro j hj
    simp only [List.mem_append, List.mem_replicate] at hj
    obtain (⟨-, rfl⟩ | ⟨-, rfl⟩) | ⟨-, rfl⟩ := hj <;> rfl
  · rw [List.countP_append, List.countP_replicate, List.countP_replicate]
    decide
  · rw [List.length_replicate]

end JfifGen
end Hdmi2Usb
