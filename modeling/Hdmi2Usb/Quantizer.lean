import Mathlib.Data.BitVec
import Mathlib.Tactic.Linarith
import Mathlib.Tactic.Ring
import Hdmi2Usb.Runs
/-!
# Quantizer — the division by the quantiser tables (`QUANTIZER.vhd`, `r_divider.vhd`, `ROMR.vhd`)

The divider multiplies with a reciprocal of 16 bits and rounds, in a pipeline.  A coefficient that is taken leaves five
cycles later, in order, divided by the table's value at its place (`quantized`); the quotient is a nearest one for a divisor
below 32, and off by at most 33/64 of the divisor for all others (`quotient_error`).
-/
namespace Hdmi2Usb
namespace Quantizer

open Runs (AllSteps)

/-! ## The divider -/

/-- `ROMR`: the reciprocals, in parts of 65536. -/
def rom : List ℕ :=
  [0, 65535, 32768, 21845, 16384, 13107, 10923, 9362, 8192, 7282, 6554, 5958, 5461, 5041, 4681, 4369, 4096, 3855,
   3641, 3449, 3277, 3121, 2979, 2849, 2731, 2621, 2521, 2427, 2341, 2260, 2185, 2114, 2048, 1986, 1928, 1872, 1820,
   1771, 1725, 1680, 1638, 1598, 1560, 1524, 1489, 1456, 1425, 1394, 1365, 1337, 1311, 1285, 1260, 1237, 1214, 1192,
   1170, 1150, 1130, 1111, 1092, 1074, 1057, 1040, 1024, 1008, 993, 978, 964, 950, 936, 923, 910, 898, 886, 874, 862,
   851, 840, 830, 819, 809, 799, 790, 780, 771, 762, 753, 745, 736, 728, 720, 712, 705, 697, 690, 683, 676, 669, 662,
   655, 649, 643, 636, 630, 624, 618, 612, 607, 601, 596, 590, 585, 580, 575, 570, 565, 560, 555, 551, 546, 542, 537,
   533, 529, 524, 520, 516, 512, 508, 504, 500, 496, 493, 489, 485, 482, 478, 475, 471, 468, 465, 462, 458, 455, 452,
   449, 446, 443, 440, 437, 434, 431, 428, 426, 423, 420, 417, 415, 412, 410, 407, 405, 402, 400, 397, 395, 392, 390,
   388, 386, 383, 381, 379, 377, 374, 372, 370, 368, 366, 364, 362, 360, 358, 356, 354, 352, 350, 349, 347, 345, 343,
   341, 340, 338, 336, 334, 333, 331, 329, 328, 326, 324, 323, 321, 320, 318, 317, 315, 314, 312, 311, 309, 308, 306,
   305, 303, 302, 301, 299, 298, 297, 295, 294, 293, 291, 290, 289, 287, 286, 285, 284, 282, 281, 280, 279, 278, 277,
   275, 274, 273, 272, 271, 270, 269, 267, 266, 265, 264, 263, 262, 261, 260, 259, 258, 257]

def romr (addr : BitVec 8) : BitVec 16 := BitVec.ofNat 16 (rom.getD addr.toNat 0)

/-- The registers of `r_divider`, and the address register of its ROM. -/
structure Divider where
  addrReg    : BitVec 8
  dividendD1 : BitVec 12
  multOut    : BitVec 28
  multOutS   : BitVec 12
  round      : Bool
  signbitD1  : Bool
  signbitD2  : Bool
  signbitD3  : Bool
  q          : BitVec 12

def magnitude (a : BitVec 12) : BitVec 12 := if a.msb then 0 - a else a

def multiply (dividend : BitVec 12) (reciprocal : BitVec 16) : BitVec 28 := dividend.setWidth 28 * reciprocal.setWidth 28

def signed (signbit : Bool) (multOut : BitVec 28) : BitVec 12 :=
  if signbit = false then multOut.extractLsb' 16 12 else 0 - multOut.extractLsb' 16 12

def rounded (signbit round : Bool) (multOutS : BitVec 12) : BitVec 12 :=
  if signbit = false then
    if round then multOutS + 1 else multOutS
  else if round then multOutS - 1 else multOutS

def Divider.step (r : Divider) (a : BitVec 12) (d : BitVec 8) : Divider where
  addrReg    := d
  dividendD1 := magnitude a
  multOut    := multiply r.dividendD1 (romr r.addrReg)
  multOutS   := signed r.signbitD2 r.multOut
  round      := r.multOut.getLsbD 15
  signbitD1  := a.msb
  signbitD2  := r.signbitD1
  signbitD3  := r.signbitD2
  q          := rounded r.signbitD3 r.round r.multOutS

/-- What the divider makes of a product. -/
def ofProduct (signbit : Bool) (multOut : BitVec 28) : BitVec 12 :=
  rounded signbit (multOut.getLsbD 15) (signed signbit multOut)

/-- What the divider gives for `a` and `d`, four cycles later. -/
def quotient (a : BitVec 12) (d : BitVec 8) : BitVec 12 := ofProduct a.msb (multiply (magnitude a) (romr d))

/-! ## The error of a quotient -/

/-- The reciprocals are rounded to nearest, but for that of 1, which has no room. -/
theorem rom_error : ∀ d < 256, 0 < d → rom.getD d 0 < 65536 ∧
    (65536 ≤ rom.getD d 0 * d + max (d / 2) 1 ∧ rom.getD d 0 * d ≤ 65536 + d / 2) := by
  decide +kernel

theorem toNat_romr (d : BitVec 8) (hd : d ≠ 0) : (romr d).toNat = rom.getD d.toNat 0 := by
  have hpos : 0 < d.toNat := Nat.pos_of_ne_zero fun h => hd (BitVec.eq_of_toNat_eq h)
  rw [romr, BitVec.toNat_ofNat]
  exact Nat.mod_eq_of_lt (rom_error d.toNat d.isLt hpos).1

theorem toNat_magnitude (a : BitVec 12) : ((magnitude a).toNat : ℤ) = |a.toInt| ∧ (magnitude a).toNat ≤ 2048 ∧
    (a.msb = false → (magnitude a).toNat ≤ 2047) := by
  have hlt := a.isLt
  rw [magnitude, BitVec.toInt_eq_msb_cond]
  cases hmsb : a.msb with
  | false =>
    have hhalf := BitVec.toNat_lt_of_msb_false hmsb
    refine ⟨?_, ?_, fun _ => ?_⟩
    · simp only [Bool.false_eq_true, if_false]
      exact (abs_of_nonneg (Int.natCast_nonneg _)).symm
    · simp only [Bool.false_eq_true, if_false]
      omega
    · simp only [Bool.false_eq_true, if_false]
      omega
  | true =>
    have hhalf := BitVec.le_toNat_of_msb_true hmsb
    have hneg : (0 - a).toNat = 4096 - a.toNat := by
      rw [BitVec.toNat_sub]
      show (2 ^ 12 - a.toNat + 0) % 2 ^ 12 = _
      omega
    simp only [if_true, hneg]
    refine ⟨?_, by omega, by rintro ⟨⟩⟩
    rw [abs_of_nonpos (by omega)]
    omega

theorem toInt_rounded (signbit round : Bool) (u : BitVec 12) (hfits : u.toNat + round.toNat < 2048 + signbit.toNat) :
    (rounded signbit round (if signbit = false then u else 0 - u)).toInt =
      if signbit then -((u.toNat + round.toNat : ℕ) : ℤ) else ((u.toNat + round.toNat : ℕ) : ℤ) := by
  have hlt := u.isLt
  rw [rounded]
  cases signbit <;> cases round <;>
    simp only [if_true, Bool.false_eq_true, Bool.true_eq_false, if_false, Bool.toNat_false, Bool.toNat_true] at hfits ⊢
  · rw [BitVec.toInt_eq_toNat_of_lt (by omega)]
    rfl
  · have hsum : (u + 1).toNat = u.toNat + 1 := by bv_omega
    rw [BitVec.toInt_eq_toNat_of_lt (by omega), hsum]
  · have hneg : (0 - u).toNat = (4096 - u.toNat) % 4096 := by bv_omega
    rw [BitVec.toInt_eq_toNat_cond, hneg]
    split <;> omega
  · have hneg : (0 - u - 1).toNat = 4096 - (u.toNat + 1) := by bv_omega
    rw [BitVec.toInt_eq_toNat_cond, hneg]
    split <;> omega

/-- A product is rounded to the nearest multiple of 65536. -/
theorem toInt_ofProduct (signbit : Bool) (m : BitVec 28) (hfits : m.toNat + 32768 < 65536 * (2048 + signbit.toNat)) :
    (ofProduct signbit m).toInt =
      if signbit then -(((m.toNat + 32768) / 65536 : ℕ) : ℤ) else (((m.toNat + 32768) / 65536 : ℕ) : ℤ) := by
  have hhigh : (m.extractLsb' 16 12).toNat = m.toNat / 65536 := by
    rw [BitVec.extractLsb'_toNat, Nat.shiftRight_eq_div_pow]
    have hlt := m.isLt
    omega
  have hround : (m.getLsbD 15).toNat = m.toNat / 32768 % 2 := by
    rw [show m.getLsbD 15 = decide (m.toNat / 32768 % 2 = 1) from Nat.testBit_eq_decide_div_mod_eq]
    by_cases hbit : m.toNat / 32768 % 2 = 1
    · rw [decide_eq_true hbit, hbit]
      rfl
    · rw [decide_eq_false hbit, Bool.toNat_false]
      omega
  have hsum : (m.extractLsb' 16 12).toNat + (m.getLsbD 15).toNat = (m.toNat + 32768) / 65536 := by
    rw [hhigh, hround]
    omega
  rw [ofProduct, signed, toInt_rounded _ _ _ (by omega), hsum]

/-- The error of a rounded product, for a reciprocal that is rounded itself. -/
theorem product_error {x d r : ℕ} (hx : x ≤ 2048) (hd : 0 < d) (hlow : 65536 ≤ r * d + max (d / 2) 1)
    (hhigh : r * d ≤ 65536 + d / 2) :
    64 * |(((x * r + 32768) / 65536 : ℕ) : ℤ) * d - x| ≤ 33 * d := by
  obtain ⟨y, hy⟩ : ∃ y, y = (x * r + 32768) / 65536 := ⟨_, rfl⟩
  -- 65536 times the quotient is the product, but for half of that
  have hround : 65536 * y ≤ x * r + 32768 ∧ x * r + 32768 < 65536 * y + 65536 := by omega
  have hup : 65536 * y * d ≤ (x * r + 32768) * d := Nat.mul_le_mul_right d hround.1
  have hdown : (x * r + 32768) * d < (65536 * y + 65536) * d := Nat.mul_lt_mul_of_pos_right hround.2 hd
  -- and the product times the divisor is the dividend, but for the error of the reciprocal
  have hprod : x * r * d ≤ 65536 * x + 1024 * d := by
    calc x * r * d = x * (r * d) := Nat.mul_assoc x r d
      _ ≤ x * (65536 + d / 2) := Nat.mul_le_mul_left x hhigh
      _ = 65536 * x + x * (d / 2) := by ring
      _ ≤ 65536 * x + 2048 * (d / 2) := Nat.add_le_add_left (Nat.mul_le_mul_right _ hx) _
      _ ≤ 65536 * x + 1024 * d := by omega
  have hprod' : 65536 * x ≤ x * r * d + 2048 * max (d / 2) 1 := by
    calc 65536 * x = x * 65536 := Nat.mul_comm _ _
      _ ≤ x * (r * d + max (d / 2) 1) := Nat.mul_le_mul_left x hlow
      _ = x * r * d + x * max (d / 2) 1 := by ring
      _ ≤ x * r * d + 2048 * max (d / 2) 1 := Nat.add_le_add_left (Nat.mul_le_mul_right _ hx) _
  rw [← hy]
  have h1 : 65536 * (y * d) ≤ x * r * d + 32768 * d := by nlinarith only [hup]
  have h2 : x * r * d < 65536 * (y * d) + 32768 * d := by nlinarith only [hdown]
  obtain ⟨p, hp⟩ : ∃ p, p = y * d := ⟨_, rfl⟩
  rw [← hp] at h1 h2
  rw [← Nat.cast_mul, ← hp]
  obtain ⟨habs, -⟩ | ⟨habs, -⟩ := abs_cases ((p : ℤ) - x) <;> rw [habs] <;> omega

theorem toInt_quotient (a : BitVec 12) (d : BitVec 8) :
    (quotient a d).toInt = if a.msb then -((((magnitude a).toNat * (romr d).toNat + 32768) / 65536 : ℕ) : ℤ)
      else ((((magnitude a).toNat * (romr d).toNat + 32768) / 65536 : ℕ) : ℤ) := by
  obtain ⟨-, hle, hle'⟩ := toNat_magnitude a
  have hrom : (romr d).toNat ≤ 65535 := Nat.le_sub_one_of_lt (romr d).isLt
  have hmul : (magnitude a).toNat * (romr d).toNat ≤ (magnitude a).toNat * 65535 := Nat.mul_le_mul_left _ hrom
  have hproduct : (multiply (magnitude a) (romr d)).toNat = (magnitude a).toNat * (romr d).toNat := by
    rw [multiply, BitVec.toNat_mul, BitVec.toNat_setWidth, BitVec.toNat_setWidth,
      Nat.mod_eq_of_lt (show (magnitude a).toNat < 2 ^ 28 by omega), Nat.mod_eq_of_lt (show (romr d).toNat < 2 ^ 28 by omega),
      Nat.mod_eq_of_lt (by omega)]
  rw [quotient, toInt_ofProduct, hproduct]
  rw [hproduct]
  cases hmsb : a.msb with
  | false =>
    have hle' := hle' hmsb
    rw [Bool.toNat_false]
    omega
  | true =>
    rw [Bool.toNat_true]
    omega

/-- **The error of the divider**: half of the divisor for a divisor below 32, and 33/64 of it for every other. -/
theorem quotient_error (a : BitVec 12) (d : BitVec 8) (hd : d ≠ 0) :
    64 * |(quotient a d).toInt * d.toNat - a.toInt| ≤ 33 * d.toNat ∧
      (d.toNat < 32 → 2 * |(quotient a d).toInt * d.toNat - a.toInt| ≤ d.toNat) := by
  have hpos : 0 < d.toNat := Nat.pos_of_ne_zero fun h => hd (BitVec.eq_of_toNat_eq h)
  obtain ⟨-, hlow, hhigh⟩ := rom_error d.toNat d.isLt hpos
  obtain ⟨habs, hle, -⟩ := toNat_magnitude a
  rw [← toNat_romr d hd] at hlow hhigh
  have herror := product_error hle hpos hlow hhigh
  have hsame : |(quotient a d).toInt * d.toNat - a.toInt| =
      |(((magnitude a).toNat * (romr d).toNat + 32768) / 65536 : ℕ) * (d.toNat : ℤ) - (magnitude a).toNat| := by
    have hsign : a.msb = decide (a.toInt < 0) := BitVec.msb_eq_toInt
    rw [toInt_quotient]
    cases hmsb : a.msb with
    | false =>
      have hnonneg : 0 ≤ a.toInt := not_lt.1 (of_decide_eq_false (hsign.symm.trans hmsb))
      rw [habs, abs_of_nonneg hnonneg]
      rfl
    | true =>
      have hneg : a.toInt < 0 := of_decide_eq_true (hsign.symm.trans hmsb)
      rw [habs, abs_of_neg hneg, ← abs_neg, neg_sub, if_pos rfl, Int.neg_mul]
      congr 1
      omega
  rw [hsame]
  exact ⟨herror, fun hsmall => by omega⟩

/-- Above it the quotient need not be a nearest one. -/
example : quotient 1825 41 = 44 ∧ 2 * |(44 : ℤ) * 41 - 1825| = 42 := by decide

/-! ## The pipeline -/

structure Input where
  di      : BitVec 12
  divalid : Bool
  qdata   : BitVec 8
  qwaddr  : BitVec 7
  qwren   : Bool
  cmpIdx  : BitVec 3

/-- The quantiser with its tables, what it has taken, each coefficient with the table's value at its place, and what it has
given. -/
structure State where
  ram         : BitVec 7 → BitVec 8
  readAddr    : BitVec 7
  divider     : Divider
  tableSelect : Bool
  romaddr     : BitVec 6
  pipelineReg : BitVec 5
  diD1        : BitVec 12
  taken       : List (BitVec 12 × BitVec 8)
  outs        : List (BitVec 12)

/-- The tables behind a write of the host. -/
def State.tables (s : State) (i : Input) : BitVec 7 → BitVec 8 :=
  if i.qwren then Function.update s.ram i.qwaddr i.qdata else s.ram

/-- The table of a component. -/
def chrominance (cmpIdx : BitVec 3) : Bool := !decide (cmpIdx < 2)

/-- The place of the next coefficient in the tables: that of its component, at its number in the block. -/
def State.place (s : State) (i : Input) : BitVec 7 :=
  BitVec.ofBool (chrominance i.cmpIdx) ++ BitVec.ofNat 6 s.taken.length

def State.dovalid (s : State) : Bool := s.pipelineReg.msb

def State.step (s : State) (i : Input) : State where
  ram         := s.tables i
  readAddr    := BitVec.ofBool s.tableSelect ++ s.romaddr
  divider     := s.divider.step s.diD1 (s.ram s.readAddr)
  tableSelect := chrominance i.cmpIdx
  romaddr     := if i.divalid then s.romaddr + 1 else s.romaddr
  pipelineReg := s.pipelineReg.extractLsb' 0 4 ++ BitVec.ofBool i.divalid
  diD1        := i.di
  taken       := if i.divalid then s.taken ++ [(i.di, s.tables i (s.place i))] else s.taken
  outs        := if s.dovalid then s.outs ++ [s.divider.q] else s.outs

/-- After a reset, with any tables. -/
def State.reset (ram : BitVec 7 → BitVec 8) (readAddr : BitVec 7) (addrReg : BitVec 8) : State where
  ram         := ram
  readAddr    := readAddr
  divider     := ⟨addrReg, 0, 0, 0, false, false, false, false, 0⟩
  tableSelect := false
  romaddr     := 0
  pipelineReg := 0
  diD1        := 0
  taken       := []
  outs        := []

/-- The component is set a cycle before its first coefficient. -/
def Keeps (s : State) (i : Input) : Prop := i.divalid = true → s.tableSelect = chrominance i.cmpIdx

/-- What a stage of the pipeline will give, the last stage first. -/
def State.stage (s : State) : ℕ → BitVec 12
  | 0 => quotient s.diD1 (s.ram s.readAddr)
  | 1 => ofProduct s.divider.signbitD1 (multiply s.divider.dividendD1 (romr s.divider.addrReg))
  | 2 => ofProduct s.divider.signbitD2 s.divider.multOut
  | 3 => rounded s.divider.signbitD3 s.divider.round s.divider.multOutS
  | _ => s.divider.q

/-- What the stages below the `k`-th hold, the oldest first. -/
def State.held (s : State) : ℕ → List (BitVec 12)
  | 0     => []
  | k + 1 => (if s.pipelineReg.getLsbD k then [s.stage k] else []) ++ s.held k

/-- What is to be given for a coefficient. -/
def given (t : BitVec 12 × BitVec 8) : BitVec 12 := quotient t.1 t.2

structure Inv (s : State) : Prop where
  romaddr : s.romaddr = BitVec.ofNat 6 s.taken.length
  leaves  : s.taken.map given = s.outs ++ s.held 5

section

variable {s : State} {i : Input}

/-- A coefficient moves on with what it will give. -/
theorem stage_step {k : ℕ} (hk : k < 4) : (s.step i).stage (k + 1) = s.stage k := by
  match k with
  | 0 | 1 | 2 | 3 => rfl

theorem valid_step (v : BitVec 5) (b : Bool) : (v.extractLsb' 0 4 ++ BitVec.ofBool b).getLsbD 0 = b ∧
    ∀ k < 4, (v.extractLsb' 0 4 ++ BitVec.ofBool b).getLsbD (k + 1) = v.getLsbD k := by
  revert v b
  decide

/-- What a cycle takes into the pipeline. -/
def State.new (s : State) (i : Input) : List (BitVec 12) := if i.divalid then [(s.step i).stage 0] else []

theorem held_step (s : State) (i : Input) : ∀ {k : ℕ}, k < 5 → (s.step i).held (k + 1) = s.held k ++ s.new i
  | 0, _ => by
    rw [State.held, State.held, State.held, List.append_nil, List.nil_append, State.new]
    show (if (s.pipelineReg.extractLsb' 0 4 ++ BitVec.ofBool i.divalid).getLsbD 0 = true then _ else _) = _
    rw [(valid_step _ _).1]
  | k + 1, hk => by
    rw [State.held, held_step s i (Nat.lt_of_succ_lt hk), stage_step (by omega), State.held, List.append_assoc]
    show (if (s.pipelineReg.extractLsb' 0 4 ++ BitVec.ofBool i.divalid).getLsbD (k + 1) = true then _ else _) ++ _ = _
    rw [(valid_step _ _).2 k (by omega)]

theorem outs_step (s : State) (i : Input) : (s.step i).outs ++ s.held 4 = s.outs ++ s.held 5 := by
  have hvalid : s.dovalid = s.pipelineReg.getLsbD 4 := rfl
  rw [State.held.eq_2 s 4, ← hvalid]
  show (if s.dovalid then _ else _) ++ _ = _
  cases s.dovalid with
  | true => exact List.append_assoc _ _ _
  | false => rfl

/-- **A cycle of the pipeline**: a coefficient comes in with the table's value at its place. -/
theorem Inv.step (h : Inv s) (hkeeps : Keeps s i) : Inv (s.step i) := by
  constructor
  · show (if i.divalid then s.romaddr + 1 else s.romaddr) = BitVec.ofNat 6 (if i.divalid then _ else _ : List _).length
    cases i.divalid with
    | true =>
      rw [if_pos rfl, if_pos rfl, List.length_append, h.romaddr, BitVec.ofNat_add]
      rfl
    | false => exact h.romaddr
  · have hnew : (s.step i).taken.map given = s.taken.map given ++ s.new i := by
      rw [State.new]
      show (if i.divalid then _ else _ : List _).map given = _
      cases hvalid : i.divalid with
      | true =>
        have hplace : s.place i = (s.step i).readAddr := by
          rw [State.place, ← hkeeps hvalid, ← h.romaddr]
          rfl
        rw [if_pos rfl, if_pos rfl, List.map_append, hplace]
        rfl
      | false => exact (List.append_nil _).symm
    rw [hnew, h.leaves, held_step s i (by decide), ← List.append_assoc, outs_step]

/-- What is held leaves, a stage a cycle. -/
theorem outs_run : ∀ (js : List Input) {s : State}, js.length ≤ 5 →
    (js.foldl State.step s).outs ++ s.held (5 - js.length) = s.outs ++ s.held 5
  | [], _, _ => rfl
  | j :: js, s, hlen => by
    rw [List.length_cons] at hlen
    have hrest := outs_run js (s := s.step j) (Nat.le_of_succ_le hlen)
    rw [show 5 - js.length = 5 - (js.length + 1) + 1 by omega, held_step s j (by omega), held_step s j (by decide),
      ← List.append_assoc, ← List.append_assoc, outs_step] at hrest
    exact List.append_cancel_right hrest

end

/-! ## Whole runs -/

/-- A quotient that is near: for a divisor below 32 a nearest one, and off by at most 33/64 of the divisor for all. -/
def Near (t : BitVec 12 × BitVec 8) (q : BitVec 12) : Prop :=
  t.2 ≠ 0 → 64 * |q.toInt * t.2.toNat - t.1.toInt| ≤ 33 * t.2.toNat ∧
    (t.2.toNat < 32 → 2 * |q.toInt * t.2.toNat - t.1.toInt| ≤ t.2.toNat)

theorem inv_reset (ram : BitVec 7 → BitVec 8) (readAddr : BitVec 7) (addrReg : BitVec 8) :
    Inv (.reset ram readAddr addrReg) where
  romaddr := rfl
  leaves  := by simp [State.reset, State.held]

/-- **Every coefficient is divided**: whatever the tables hold, whenever coefficients come and whatever the host writes,
the coefficients that are taken have left five cycles later, in their order, each as a near quotient by the value that its
component's table has at its place. -/
theorem quantized (ram : BitVec 7 → BitVec 8) (readAddr : BitVec 7) (addrReg : BitVec 8) (is js : List Input)
    (hkeeps : AllSteps State.step Keeps (.reset ram readAddr addrReg) is) (hlen : js.length = 5) :
    let s := is.foldl State.step (.reset ram readAddr addrReg)
    s.outs <+: (js.foldl State.step s).outs ∧ List.Forall₂ Near s.taken (js.foldl State.step s).outs := by
  intro s
  have hstep : ∀ s i, Inv s → Keeps s i → True ∧ Inv (s.step i) := fun _ _ h hk => ⟨trivial, h.step hk⟩
  have hall := (hkeeps.inv hstep (inv_reset ram readAddr addrReg)).2
  have h : Inv s := (Runs.allStates_iff_prefix _ is _).1 hall is (List.prefix_refl is)
  have houts : (js.foldl State.step s).outs = s.outs ++ s.held 5 := by
    have hrun := outs_run js (s := s) hlen.le
    rw [hlen] at hrun
    exact (List.append_nil _).symm.trans hrun
  refine ⟨?_, ?_⟩
  · rw [houts]
    exact List.prefix_append _ _
  · rw [houts, ← h.leaves, List.forall₂_map_right_iff, List.forall₂_same]
    exact fun t _ hd => quotient_error t.1 t.2 hd

def idleInput : Input := ⟨0, false, 0, 0, false, 2⟩

/-- A chrominance coefficient of 1825 behind a write of 41 into its table. -/
theorem quantized_chrominance :
    let s := [{ idleInput with qwren := true, qwaddr := 64, qdata := 41 }, { idleInput with divalid := true, di := 1825 }].foldl
      State.step (.reset (fun _ => 1) 0 0)
    s.taken = [(1825, 41)] ∧ s.outs <+: ((List.replicate 5 idleInput).foldl State.step s).outs ∧
      List.Forall₂ Near s.taken ((List.replicate 5 idleInput).foldl State.step s).outs := by
  have hkeeps : AllSteps State.step Keeps (.reset (fun _ => 1) 0 0)
      [{ idleInput with qwren := true, qwaddr := 64, qdata := 41 }, { idleInput with divalid := true, di := 1825 }] :=
    ⟨by rintro ⟨⟩, fun _ => rfl, trivial⟩
  exact ⟨by decide +kernel, quantized (fun _ => 1) 0 0 _ _ hkeeps rfl⟩

end Quantizer
end Hdmi2Usb
