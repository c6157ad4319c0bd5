import Hdmi2Usb.JfifGen
import Hdmi2Usb.JpegHeader
/-!
# JfifHeader — the header with what the host has written (`JFIFGen.vhd`)

The header RAM holds `header.hex` from power-on.  The host's port writes the size of the image, a byte a cycle, and the
quantiser values into it, and nothing else (`Inv`).  So a header that is written is that of a file, with the size and the
tables of the host (`header_programmed`).
-/
namespace Hdmi2Usb
namespace JfifHeader

open JfifGen (Host Input hdrSize headerFrom sizeByte tableAddr)
open JpegFile (Segment file soi eoi)
open JpegHeader (header scan segments slice)
open Runs (AllSteps)
open Stuffing (stuff)

/-- The generator, and what the host has written: the size register, and the quantiser values. -/
structure State where
  gen   : JfifGen.State
  size  : BitVec 32
  sized : Bool
  quant : BitVec 7 → Byte

def State.step (s : State) (i : Input) : State where
  gen   := s.gen.step i
  size  := i.imageSizeReg
  sized := s.sized || i.imageSizeRegWr
  quant := if i.qwren then Function.update s.quant i.qwaddr i.qwdata else s.quant

/-- What `header.hex` has at a place. -/
def initial (a : BitVec 10) : Byte := header[a.toNat]?.getD 0

/-- After a reset, with anything behind the header. -/
def State.reset (rest : BitVec 10 → Byte) (readAddr : BitVec 10) : State where
  gen   := .reset ⟨fun a => if a.toNat < hdrSize then initial a else rest a, readAddr⟩
  size  := 0
  sized := false
  quant := fun q => initial (tableAddr q)

/-- What the generator is connected to: the host makes no write while the bytes of a size are written, and the size register
changes with the signal that says so. -/
structure Keeps (s : State) (i : Input) : Prop where
  gen  : JfifGen.Keeps s.gen i
  host : i.imageSizeRegWr = true ∨ i.qwren = true → s.gen.host.sizeWr = false
  size : i.imageSizeRegWr = false → i.imageSizeReg = s.size

/-- The header RAM behind the write of this cycle. -/
def State.written (s : State) : BitVec 10 → Byte :=
  if s.gen.host.hrWe then Function.update s.gen.ram.mem s.gen.host.hrWaddr s.gen.host.hrData else s.gen.ram.mem

/-- The bytes of a size, in the order of their places. -/
def sizePart (size : BitVec 32) : ℕ → Byte
  | 0 => size.extractLsb' 8 8
  | 1 => size.extractLsb' 0 8
  | 2 => size.extractLsb' 24 8
  | _ => size.extractLsb' 16 8

def sizePlace (k : ℕ) : BitVec 10 := BitVec.ofNat 10 (25 + k)

/-- The places of the size and of the tables. -/
def HostPlace (n : ℕ) : Prop := (25 ≤ n ∧ n < 29) ∨ (44 ≤ n ∧ n < 108) ∨ (113 ≤ n ∧ n < 177)

/-- What a run keeps of the header RAM: the bytes of the size are in it, or are still to be written. -/
structure Inv (s : State) : Prop where
  cnt   : s.gen.host.sizeWrCnt.toNat ≤ 4
  fixed : ∀ a : BitVec 10, a.toNat < hdrSize → ¬ HostPlace a.toNat → s.written a = initial a
  quant : ∀ q, s.written (tableAddr q) = s.quant q
  size  : s.sized = true → ∀ k < 4,
    (s.gen.host.sizeWr = true ∧ s.gen.host.sizeWrCnt.toNat ≤ k) ∨ s.written (sizePlace k) = sizePart s.size k

/-! ## The port of the host -/

theorem toNat_tableAddr (q : BitVec 7) : (tableAddr q).toNat = if q.toNat < 64 then 44 + q.toNat else 49 + q.toNat := by
  revert q
  decide

theorem toNat_sizePlace {k : ℕ} (h : k < 4) : (sizePlace k).toNat = 25 + k := by
  rw [sizePlace, BitVec.toNat_ofNat, Nat.mod_eq_of_lt (by omega)]

theorem tableAddr_place (q : BitVec 7) : HostPlace (tableAddr q).toNat := by
  have hlt := q.isLt
  rw [toNat_tableAddr, HostPlace]
  split <;> omega

theorem sizePlace_place {k : ℕ} (h : k < 4) : HostPlace (sizePlace k).toNat := by
  rw [toNat_sizePlace h, HostPlace]
  omega

theorem tableAddr_inj {p q : BitVec 7} : tableAddr p = tableAddr q ↔ p = q := by
  constructor
  · intro h
    have hval := congrArg BitVec.toNat h
    have hp := p.isLt
    have hq := q.isLt
    rw [toNat_tableAddr, toNat_tableAddr] at hval
    apply BitVec.eq_of_toNat_eq
    split at hval <;> split at hval <;> omega
  · rintro rfl
    rfl

theorem tableAddr_ne_sizePlace (q : BitVec 7) {k : ℕ} (h : k < 4) : tableAddr q ≠ sizePlace k := fun he => by
  have hval := congrArg BitVec.toNat he
  rw [toNat_tableAddr, toNat_sizePlace h] at hval
  split at hval <;> omega

theorem sizePlace_inj {j k : ℕ} (hj : j < 4) (hk : k < 4) (he : sizePlace j = sizePlace k) : j = k := by
  have hval := congrArg BitVec.toNat he
  rw [toNat_sizePlace hj, toNat_sizePlace hk] at hval
  omega

theorem sizeByte_eq (i : Input) {c : BitVec 3} (h : c.toNat < 4) :
    sizeByte i c = some (sizePlace c.toNat, sizePart i.imageSizeReg c.toNat) := by
  have hcases : ∀ c : BitVec 3, c.toNat < 4 → c = 0 ∨ c = 1 ∨ c = 2 ∨ c = 3 := by decide
  rcases hcases c h with rfl | rfl | rfl | rfl <;> rfl

/-- **A cycle of the port**: the next byte of a size, the end of a size, a quantiser value, or nothing; a new size is taken
up where none is being written. -/
theorem host_cases (h : Host) {i : Input} (hcnt : h.sizeWrCnt.toNat ≤ 4)
    (hkeeps : i.imageSizeRegWr = true ∨ i.qwren = true → h.sizeWr = false) :
    (∃ k < 4, h.sizeWr = true ∧ h.sizeWrCnt.toNat = k ∧ i.imageSizeRegWr = false ∧ i.qwren = false ∧
      h.step i = ⟨BitVec.ofNat 3 (k + 1), true, true, sizePart i.imageSizeReg k, sizePlace k⟩) ∨
    (h.sizeWr = true ∧ h.sizeWrCnt.toNat = 4 ∧ i.imageSizeRegWr = false ∧ i.qwren = false ∧
      h.step i = ⟨0, false, false, h.hrData, h.hrWaddr⟩) ∨
    (h.sizeWr = false ∧ (h.step i).sizeWr = i.imageSizeRegWr ∧
      (h.step i).sizeWrCnt = (if i.imageSizeRegWr then 0 else h.sizeWrCnt) ∧ (h.step i).hrWe = i.qwren ∧
      (i.qwren = true → (h.step i).hrWaddr = tableAddr i.qwaddr ∧ (h.step i).hrData = i.qwdata)) := by
  cases hwr : h.sizeWr with
  | true =>
    have hno : i.imageSizeRegWr = false ∧ i.qwren = false := by
      constructor <;> rw [Bool.eq_false_iff] <;> intro hreq <;> simp [hreq, hwr] at hkeeps
    by_cases hend : h.sizeWrCnt = 4
    · exact .inr (.inl ⟨rfl, by rw [hend]; rfl, hno.1, hno.2, by simp [Host.step, hwr, hend, hno]⟩)
    · have hlt : h.sizeWrCnt.toNat < 4 := Nat.lt_of_le_of_ne hcnt fun he => hend (BitVec.eq_of_toNat_eq he)
      have hsucc : h.sizeWrCnt + 1 = BitVec.ofNat 3 (h.sizeWrCnt.toNat + 1) := by
        rw [BitVec.ofNat_add, BitVec.ofNat_toNat, BitVec.setWidth_eq]
        rfl
      replace hend : ¬ h.sizeWrCnt = 4#3 := hend
      refine .inl ⟨_, hlt, rfl, rfl, hno.1, hno.2, ?_⟩
      rw [← hsucc]
      simp [Host.step, hwr, hend, hno, sizeByte_eq i hlt]
  | false =>
    refine .inr (.inr ⟨rfl, ?_⟩)
    cases hreg : i.imageSizeRegWr <;> cases hq : i.qwren <;> simp [Host.step, hwr, hreg, hq]

/-! ## The header RAM -/

section

variable {s : State} {i : Input}

theorem written_step (s : State) (i : Input) :
    (s.step i).written = if (s.gen.host.step i).hrWe then
      Function.update s.written (s.gen.host.step i).hrWaddr (s.gen.host.step i).hrData else s.written := rfl

/-- A write of the port changes its place only. -/
theorem written_ne {a : BitVec 10} (h : (s.gen.host.step i).hrWe = true → a ≠ (s.gen.host.step i).hrWaddr) :
    (s.step i).written a = s.written a := by
  rw [written_step]
  split
  · rename_i hwe
    exact Function.update_of_ne (h hwe) _ _
  · rfl

theorem written_self (hwe : (s.gen.host.step i).hrWe = true) :
    (s.step i).written (s.gen.host.step i).hrWaddr = (s.gen.host.step i).hrData := by
  rw [written_step, if_pos hwe]
  exact Function.update_self _ _ _

/-- The port writes the places of the size and of the tables only. -/
theorem Inv.fixed_step (h : Inv s) (hkeeps : Keeps s i) (a : BitVec 10) (ha : a.toNat < hdrSize)
    (hfix : ¬ HostPlace a.toNat) : (s.step i).written a = initial a := by
  rw [← h.fixed a ha hfix]
  apply written_ne
  rintro hwe rfl
  rcases host_cases s.gen.host h.cnt hkeeps.host with ⟨k, hk, -, -, -, -, hstep⟩ | ⟨-, -, -, -, hstep⟩ | ⟨-, -, -, hreq, haddr⟩
  · rw [hstep] at hfix
    exact hfix (sizePlace_place hk)
  · rw [hstep] at hwe
    cases hwe
  · rw [(haddr (hreq ▸ hwe)).1] at hfix
    exact hfix (tableAddr_place i.qwaddr)

/-- The tables hold the values of the host. -/
theorem Inv.quant_step (h : Inv s) (hkeeps : Keeps s i) (q : BitVec 7) :
    (s.step i).written (tableAddr q) = (s.step i).quant q := by
  show _ = (if i.qwren then Function.update s.quant i.qwaddr i.qwdata else s.quant) q
  rcases host_cases s.gen.host h.cnt hkeeps.host with
    ⟨k, hk, -, -, -, hno, hstep⟩ | ⟨-, -, -, hno, hstep⟩ | ⟨-, -, -, hreq, haddr⟩
  · rw [hno, if_neg Bool.false_ne_true, ← h.quant q]
    apply written_ne
    rw [hstep]
    exact fun _ => tableAddr_ne_sizePlace q hk
  · rw [hno, if_neg Bool.false_ne_true, ← h.quant q]
    apply written_ne
    rw [hstep]
    exact fun hwe => absurd hwe Bool.false_ne_true
  · cases hq : i.qwren with
    | false =>
      rw [if_neg Bool.false_ne_true, ← h.quant q]
      apply written_ne
      rw [hreq, hq]
      exact fun hwe => absurd hwe Bool.false_ne_true
    | true =>
      obtain ⟨hwaddr, hdata⟩ := haddr hq
      rw [if_pos rfl]
      by_cases heq : q = i.qwaddr
      · subst heq
        rw [Function.update_self, ← hdata, ← hwaddr]
        exact written_self (hreq.trans hq)
      · rw [Function.update_of_ne heq, ← h.quant q]
        apply written_ne
        rw [hwaddr]
        exact fun _ he => heq (tableAddr_inj.1 he)

/-- The bytes of the size are written one after the other. -/
theorem Inv.size_step (h : Inv s) (hkeeps : Keeps s i) (hsized : (s.step i).sized = true) {k : ℕ} (hk : k < 4) :
    ((s.step i).gen.host.sizeWr = true ∧ (s.step i).gen.host.sizeWrCnt.toNat ≤ k) ∨
      (s.step i).written (sizePlace k) = sizePart (s.step i).size k := by
  have hhost : (s.step i).gen.host = s.gen.host.step i := rfl
  have hsize : (s.step i).size = i.imageSizeReg := rfl
  replace hsized : (s.sized || i.imageSizeRegWr) = true := hsized
  rw [hhost, hsize]
  rcases host_cases s.gen.host h.cnt hkeeps.host with
    ⟨j, hj, hwr, hcnt, hno, -, hstep⟩ | ⟨hwr, hcnt, hno, -, hstep⟩ | ⟨hwr, hnew, hcnt, hreq, haddr⟩
  · rw [hno, Bool.or_false] at hsized
    rw [hkeeps.size hno] at hstep ⊢
    have hat := h.size hsized k hk
    rw [hcnt] at hat
    rcases Nat.lt_trichotomy k j with hlt | rfl | hgt
    · right
      rcases hat with ⟨-, hle⟩ | hat
      · omega
      · rw [written_ne, hat]
        rw [hstep]
        exact fun _ he => hlt.ne (sizePlace_inj hk hj he)
    · right
      have hself := written_self (s := s) (i := i) (by rw [hstep])
      rwa [hstep] at hself
    · left
      rw [hstep]
      refine ⟨rfl, ?_⟩
      rw [BitVec.toNat_ofNat, Nat.mod_eq_of_lt (by omega)]
      exact hgt
  · rw [hno, Bool.or_false] at hsized
    rcases h.size hsized k hk with ⟨-, hle⟩ | hat
    · omega
    · right
      rw [hkeeps.size hno, written_ne, hat]
      rw [hstep]
      exact fun hwe => absurd hwe Bool.false_ne_true
  · cases hreg : i.imageSizeRegWr with
    | true =>
      left
      rw [hnew, hcnt, hreg, if_pos rfl]
      exact ⟨rfl, Nat.zero_le k⟩
    | false =>
      rw [hreg, Bool.or_false] at hsized
      rcases h.size hsized k hk with ⟨hbusy, -⟩ | hat
      · rw [hwr] at hbusy
        cases hbusy
      · right
        rw [hkeeps.size hreg, written_ne, hat]
        intro hwe he
        rw [(haddr (hreq ▸ hwe)).1] at he
        exact tableAddr_ne_sizePlace i.qwaddr hk he.symm

theorem Inv.step (h : Inv s) (hkeeps : Keeps s i) : Inv (s.step i) where
  cnt   := by
    show (s.gen.host.step i).sizeWrCnt.toNat ≤ 4
    rcases host_cases s.gen.host h.cnt hkeeps.host with ⟨k, hk, -, -, -, -, hstep⟩ | ⟨-, -, -, -, hstep⟩ | ⟨-, -, hcnt, -, -⟩
    · rw [hstep, BitVec.toNat_ofNat]
      exact Nat.le_trans (Nat.mod_le _ _) hk
    · rw [hstep]
      exact Nat.zero_le 4
    · rw [hcnt]
      split
      · exact Nat.zero_le 4
      · exact h.cnt
  fixed := h.fixed_step hkeeps
  quant := h.quant_step hkeeps
  size  := fun hsized _ hk => h.size_step hkeeps hsized hk

theorem inv_reset (rest : BitVec 10 → Byte) (readAddr : BitVec 10) : Inv (.reset rest readAddr) where
  cnt   := Nat.zero_le 4
  fixed := fun a ha _ => if_pos ha
  quant := fun q => by
    have hlt := q.isLt
    have haddr := toNat_tableAddr q
    refine if_pos ?_
    rw [haddr, hdrSize]
    split <;> omega
  size  := fun hsized => by cases hsized

end

/-! ## The bytes of the header -/

def State.height (s : State) : BitVec 16 := s.size.extractLsb' 0 16

def State.width (s : State) : BitVec 16 := s.size.extractLsb' 16 16

def State.lum (s : State) : List Byte := (List.range' 0 64).map fun n => s.quant (BitVec.ofNat 7 n)

def State.chr (s : State) : List Byte := (List.range' 64 64).map fun n => s.quant (BitVec.ofNat 7 n)

section

variable {s : State} {mem : BitVec 10 → Byte}

/-- The places that the host does not write. -/
theorem map_fixed {a n : ℕ} (hle : a + n ≤ hdrSize)
    (hfix : ∀ k, a ≤ k → k < a + n → mem (BitVec.ofNat 10 k) = initial (BitVec.ofNat 10 k)) :
    (List.range' a n).map (fun k => mem (BitVec.ofNat 10 k)) = slice a n := by
  have hlen : header.length = hdrSize := by decide +kernel
  have hslice : (slice a n).length = n := by
    rw [slice, List.length_take, List.length_drop, hlen]
    omega
  refine List.ext_getElem (by rw [List.length_map, List.length_range', hslice]) fun k hk hk' => ?_
  rw [hslice] at hk'
  rw [hdrSize] at hle hlen
  have hin : a + k < header.length := by omega
  simp only [List.getElem_map, List.getElem_range', Nat.one_mul, slice, List.getElem_take, List.getElem_drop]
  rw [hfix _ (by omega) (by omega), initial, BitVec.toNat_ofNat, Nat.mod_eq_of_lt (by omega), List.getElem?_eq_getElem hin]
  rfl

/-- The parts of the header. -/
theorem range_header : List.range' 0 hdrSize = List.range' 0 25 ++ (List.range' 25 4 ++ (List.range' 29 15 ++
    (List.range' 44 64 ++ (List.range' 108 5 ++ (List.range' 113 64 ++ List.range' 177 446))))) := by decide +kernel

theorem segments_bytes (height width : BitVec 16) {lum chr : List Byte} (hlum : lum.length = 64) (hchr : chr.length = 64) :
    0xff :: soi :: (segments height width lum chr ++ [scan]).flatMap Segment.bytes =
      slice 0 25 ++ ([height.extractLsb' 8 8, height.extractLsb' 0 8, width.extractLsb' 8 8, width.extractLsb' 0 8] ++
        (slice 29 15 ++ (lum ++ (slice 108 5 ++ (chr ++ slice 177 446))))) := by
  have hfirst : slice 0 25 = 0xff :: soi :: (Segment.bytes ⟨0xe0, slice 6 14⟩ ++ [0xff, 0xc0, 0, 0x11, 8]) := by decide +kernel
  have hframe : slice 29 15 = slice 29 10 ++ [0xff, 0xdb, 0, 0x43, 0] := by decide +kernel
  have hlen : (slice 29 10).length = 10 := by decide +kernel
  have hchrom : slice 108 5 = [0xff, 0xdb, 0, 0x43, 1] := by decide +kernel
  have htables : slice 177 446 = Segment.bytes ⟨JpegFile.dht, slice 181 29⟩ ++ (Segment.bytes ⟨JpegFile.dht, slice 214 29⟩ ++
      (Segment.bytes ⟨JpegFile.dht, slice 247 179⟩ ++ (Segment.bytes ⟨JpegFile.dht, slice 430 179⟩ ++ scan.bytes))) := by
    decide +kernel
  have hsof : ∀ a b c d : Byte, Segment.bytes ⟨JpegFile.sof, [8, a, b, c, d] ++ slice 29 10⟩ =
      [0xff, 0xc0, 0, 0x11, 8] ++ ([a, b, c, d] ++ slice 29 10) := by
    intro a b c d
    simp [Segment.bytes, hlen, JpegFile.sof]
  have hdqt : ∀ (name : Byte) (values : List Byte), values.length = 64 →
      Segment.bytes ⟨JpegFile.dqt, name :: values⟩ = [0xff, 0xdb, 0, 0x43, name] ++ values := by
    intro name values hvalues
    simp [Segment.bytes, hvalues, JpegFile.dqt]
  simp only [segments, List.cons_append, List.nil_append, List.flatMap_cons, List.flatMap_nil, List.append_nil] at hsof ⊢
  rw [hsof, hdqt 0 lum hlum, hdqt 1 chr hchr, hfirst, hframe, hchrom, htables]
  simp only [List.cons_append, List.nil_append, List.append_assoc]

theorem extract_extract (x : BitVec 32) (a : ℕ) {b : ℕ} (h : b + 8 ≤ 16) :
    (x.extractLsb' a 16).extractLsb' b 8 = x.extractLsb' (a + b) 8 := by
  apply BitVec.eq_of_getLsbD_eq
  intro n hn
  simp only [BitVec.getLsbD_extractLsb', hn, decide_true, Bool.true_and]
  rw [decide_eq_true (by omega), Bool.true_and, Nat.add_assoc]

/-- **The header in the RAM** has the size and the tables of the host. -/
theorem Inv.header_bytes (h : Inv s) (hsized : s.sized = true) (hwr : s.gen.host.sizeWr = false)
    (hwe : s.gen.host.hrWe = false) :
    (headerFrom s.gen.ram.mem 0).map Prod.snd =
      0xff :: soi :: (segments s.height s.width s.lum s.chr ++ [scan]).flatMap Segment.bytes := by
  have hmem : s.written = s.gen.ram.mem := by rw [State.written, hwe, if_neg Bool.false_ne_true]
  have hfixed : ∀ a n, a + n ≤ hdrSize → (∀ k, a ≤ k → k < a + n → ¬ HostPlace k) →
      (List.range' a n).map (fun k => s.gen.ram.mem (BitVec.ofNat 10 k)) = slice a n := by
    intro a n hle hplace
    refine map_fixed hle fun k hk hk' => ?_
    have hval : (BitVec.ofNat 10 k).toNat = k := by
      rw [hdrSize] at hle
      rw [BitVec.toNat_ofNat, Nat.mod_eq_of_lt (by omega)]
    rw [← hmem]
    exact h.fixed _ (by rw [hval]; omega) (by rw [hval]; exact hplace k hk hk')
  have hsize : ∀ k < 4, s.gen.ram.mem (BitVec.ofNat 10 (25 + k)) = sizePart s.size k := by
    intro k hk
    rcases h.size hsized k hk with ⟨hbusy, -⟩ | hat
    · rw [hwr] at hbusy
      cases hbusy
    · rw [← hmem]
      exact hat
  have hquant : ∀ a q, a = 44 ∧ q = 0 ∨ a = 113 ∧ q = 64 →
      (List.range' a 64).map (fun k => s.gen.ram.mem (BitVec.ofNat 10 k)) =
        (List.range' q 64).map fun n => s.quant (BitVec.ofNat 7 n) := by
    intro a q haq
    refine List.ext_getElem (by simp) fun k hk _ => ?_
    rw [List.length_map, List.length_range'] at hk
    simp only [List.getElem_map, List.getElem_range', Nat.one_mul]
    rw [← h.quant, hmem]
    congr 1
    apply BitVec.eq_of_toNat_eq
    rw [toNat_tableAddr, BitVec.toNat_ofNat, BitVec.toNat_ofNat]
    split <;> omega
  have hlum : s.lum.length = 64 := by rw [State.lum, List.length_map, List.length_range']
  have hchr : s.chr.length = 64 := by rw [State.chr, List.length_map, List.length_range']
  have hmap : (headerFrom s.gen.ram.mem 0).map Prod.snd =
      (List.range' 0 hdrSize).map fun k => s.gen.ram.mem (BitVec.ofNat 10 k) := by
    rw [headerFrom, List.map_map]
    rfl
  have hfour : (List.range' 25 4).map (fun k => s.gen.ram.mem (BitVec.ofNat 10 k)) =
      [s.height.extractLsb' 8 8, s.height.extractLsb' 0 8, s.width.extractLsb' 8 8, s.width.extractLsb' 0 8] := by
    show [s.gen.ram.mem (BitVec.ofNat 10 (25 + 0)), s.gen.ram.mem (BitVec.ofNat 10 (25 + 1)),
      s.gen.ram.mem (BitVec.ofNat 10 (25 + 2)), s.gen.ram.mem (BitVec.ofNat 10 (25 + 3))] = _
    rw [hsize 0 (by decide), hsize 1 (by decide), hsize 2 (by decide), hsize 3 (by decide)]
    simp only [State.height, State.width, extract_extract _ _ (by decide : 8 + 8 ≤ 16), extract_extract _ _ (by decide : 0 + 8 ≤ 16)]
    rfl
  rw [segments_bytes s.height s.width hlum hchr, hmap, range_header]
  simp only [List.map_append]
  rw [hfixed 0 25 (by decide) (by rintro k - hk (hp | hp | hp) <;> omega), hfour,
    hfixed 29 15 (by decide) (by rintro k hk hk' (hp | hp | hp) <;> omega), hquant 44 0 (.inl ⟨rfl, rfl⟩),
    hfixed 108 5 (by decide) (by rintro k hk hk' (hp | hp | hp) <;> omega), hquant 113 64 (.inr ⟨rfl, rfl⟩),
    hfixed 177 446 (by decide) (by rintro k hk hk' (hp | hp | hp) <;> omega)]
  rfl

end

/-! ## Runs -/

/-- No end marker is written behind a cycle that does not start one. -/
theorem eoiWr_step {s : State} {i : Input} (h : s.gen.ctrl.eoiWr = false) (heoi : (i.start && i.eoi) = false) :
    (s.step i).gen.ctrl.eoiWr = false := by
  show (s.gen.ctrl.step s.gen.ram.q i).eoiWr = false
  have hpass : (s.gen.ctrl.pass s.gen.ram.q).eoiWr = false := h
  simp only [JfifGen.Ctrl.step, h, heoi, Bool.false_eq_true, if_false, apply_ite JfifGen.Ctrl.eoiWr, hpass, ite_self]

/-- Cycles without a start ask for nothing, where no end marker is being written. -/
theorem asked_quiet : ∀ (js : List Input) {s : State}, s.gen.ctrl.eoiWr = false → (∀ j ∈ js, j.start = false) →
    (js.foldl State.step s).gen.asked = s.gen.asked
  | [], _, _, _ => rfl
  | j :: js, s, heoi, hquiet => by
    have hstart := hquiet j List.mem_cons_self
    have heoi' := eoiWr_step heoi (i := j) (by rw [hstart]; rfl)
    have hasks : s.gen.asks j = [] := by
      simp only [JfifGen.State.asks, hstart, heoi, Bool.false_and, Bool.false_eq_true, if_false]
    rw [List.foldl_cons, asked_quiet js heoi' fun k hk => hquiet k (List.mem_cons_of_mem j hk)]
    show s.gen.asked ++ s.gen.asks j = s.gen.asked
    rw [hasks, List.append_nil]

/-- A generator that rests has written all that was asked for. -/
theorem log_resting {g : JfifGen.State} (h : g.Inv) (hresting : g.ctrl.Resting) : g.log = g.asked := by
  obtain ⟨hread, -, hd1, hwren⟩ := hresting
  have hen := h.ctrl.rdEn_of_not_reading hread
  rw [h.asked, JfifGen.Ctrl.pending, JfifGen.Ctrl.out, hwren, JfifGen.Ctrl.second, hd1, JfifGen.Ctrl.first, hen,
    JfifGen.Ctrl.unread, hread]
  exact (List.append_nil _).symm

/-- **The header of a file is written with the size and the tables of the host**: whatever the host has written in a run that
keeps to the rules, a start behind it has the generator write the bytes of a header at the addresses from 0 on, once it
rests again; they are those of a file for any image data, with the size that the host's register has, and the last values
that it wrote into the tables. -/
theorem header_programmed (rest : BitVec 10 → Byte) (readAddr : BitVec 10) (is js : List Input) (i : Input)
    (hkeeps : AllSteps State.step Keeps (.reset rest readAddr) (is ++ i :: js)) (hstart : i.start = true) (heoi : i.eoi = false)
    (hquiet : ∀ j ∈ js, j.start = false) :
    let s := is.foldl State.step (.reset rest readAddr)
    let t := js.foldl State.step (s.step i)
    s.sized = true → t.gen.ctrl.Resting → ∃ ws, t.gen.log = s.gen.asked ++ ws ∧
      ws.map Prod.fst = (List.range hdrSize).map (BitVec.ofNat 24) ∧
      ∀ data, ws.map Prod.snd ++ (stuff 0xff 0 data ++ [0xff, eoi]) =
        file (segments s.height s.width s.lum s.chr ++ [scan]) data := by
  intro s t hsized hresting
  rw [Runs.allSteps_append] at hkeeps
  obtain ⟨hbefore, hi, hbehind⟩ := hkeeps
  have hstep : ∀ s i, Inv s ∧ s.gen.Inv → Keeps s i → True ∧ Inv (s.step i) ∧ (s.step i).gen.Inv :=
    fun _ _ h hk => ⟨trivial, h.1.step hk, h.2.step hk.gen⟩
  have hall := (hbefore.inv hstep ⟨inv_reset rest readAddr, JfifGen.inv_reset _⟩).2
  obtain ⟨h, hgen⟩ : Inv s ∧ s.gen.Inv := (Runs.allStates_iff_prefix _ is _).1 hall is (List.prefix_refl is)
  have hall' := (hbehind.inv hstep ⟨h.step hi, hgen.step hi.gen⟩).2
  have hgen' : t.gen.Inv := ((Runs.allStates_iff_prefix _ js _).1 hall' js (List.prefix_refl js)).2
  -- what the start asks for, and nothing behind it
  have hasks : s.gen.asks i = headerFrom s.gen.ram.mem 0 := by
    rw [JfifGen.State.asks, hstart, heoi]
    rfl
  have heoi' : (s.step i).gen.ctrl.eoiWr = false := eoiWr_step (hi.gen.1 hstart).2 (by rw [hstart, heoi]; rfl)
  have hasked : t.gen.asked = s.gen.asked ++ headerFrom s.gen.ram.mem 0 := by
    rw [← hasks]
    exact asked_quiet js heoi' hquiet
  obtain ⟨⟨hwr, hwe⟩, -⟩ := hi.gen.2 (.inr ⟨hstart, heoi⟩)
  have hbytes := h.header_bytes hsized hwr hwe
  refine ⟨headerFrom s.gen.ram.mem 0, ?_, ?_, fun data => ?_⟩
  · rw [← hasked]
    exact log_resting hgen' hresting
  · rw [headerFrom, List.map_map, List.range_eq_range']
    rfl
  · rw [hbytes, file]
    rfl

/-! ## A header of 640 by 480 -/

instance (c : JfifGen.Ctrl) : Decidable c.Free := inferInstanceAs (Decidable (_ ∧ _))

instance (c : JfifGen.Ctrl) : Decidable c.Reads := inferInstanceAs (Decidable (_ ∨ _))

instance (h : Host) (i : Input) : Decidable (JfifGen.Quiet h i) := inferInstanceAs (Decidable (_ ∧ _))

instance (s : JfifGen.State) (i : Input) : Decidable (JfifGen.Keeps s i) := inferInstanceAs (Decidable (_ ∧ _))

instance (s : State) (i : Input) : Decidable (Keeps s i) :=
  decidable_of_iff (JfifGen.Keeps s.gen i ∧ (i.imageSizeRegWr = true ∨ i.qwren = true → s.gen.host.sizeWr = false) ∧
    (i.imageSizeRegWr = false → i.imageSizeReg = s.size)) ⟨fun h => ⟨h.1, h.2.1, h.2.2⟩, fun h => ⟨h.gen, h.host, h.size⟩⟩

/-- A cycle with nothing but the size in the register. -/
def vgaInput : Input := { JfifGen.quietInput false with imageSizeReg := 0x028001e0 }

/-- The host sets the size, and waits for its bytes. -/
def vgaWrite : List Input := { vgaInput with imageSizeRegWr := true } :: List.replicate 6 vgaInput

def vgaStart : Input := { vgaInput with start := true }

theorem keeps_vga : ∀ (n : ℕ) {s : State}, s.size = vgaInput.imageSizeReg → s.gen.host.sizeWr = false → s.gen.host.hrWe = false →
    AllSteps State.step Keeps s (List.replicate n vgaInput)
  | 0, _, _, _, _ => trivial
  | n + 1, s, hsize, hwr, hwe => by
    have hstep : ∀ h : Host, h.sizeWr = false → h.hrWe = false → h.step vgaInput = h := by
      rintro ⟨_, _, _, _, _⟩ rfl rfl
      rfl
    have hhost : (s.step vgaInput).gen.host = s.gen.host := hstep _ hwr hwe
    refine ⟨⟨⟨fun hstart => absurd hstart (by decide), fun _ => ⟨⟨hwr, hwe⟩, rfl, rfl⟩⟩, fun _ => hwr, fun _ => hsize.symm⟩, ?_⟩
    exact keeps_vga n rfl (by rw [hhost, hwr]) (by rw [hhost, hwe])

theorem foldl_gen (is : List Input) (s : State) : (is.foldl State.step s).gen = is.foldl JfifGen.State.step s.gen :=
  (List.foldl_hom State.gen fun _ _ => rfl).symm

/-- 622 cycles with room in the output, and three for the end: the header is out. -/
theorem resting_vga : ((List.replicate 625 vgaInput).foldl State.step
    ((vgaWrite ++ [vgaStart]).foldl State.step (.reset (fun _ => 0) 0))).gen.ctrl.Resting := by
  have hgen : AllSteps JfifGen.State.step JfifGen.Keeps (State.reset (fun _ => 0) 0).gen (vgaWrite ++ [vgaStart]) := by
    decide +kernel
  have hquiet : ∀ j ∈ List.replicate 622 vgaInput ++ List.replicate 3 vgaInput, j.start = false := by
    intro j hj
    simp only [List.mem_append, List.mem_replicate] at hj
    obtain ⟨-, rfl⟩ | ⟨-, rfl⟩ := hj <;> rfl
  have hrest := (JfifGen.header_written _ _ hgen).2.2.2 (List.replicate 622 vgaInput) (List.replicate 3 vgaInput) hquiet
    (by rw [List.countP_replicate]; decide) (by rw [List.length_replicate])
  rw [List.replicate_append_replicate] at hrest
  rw [foldl_gen, foldl_gen]
  exact hrest

/-- The host sets a size of 640 by 480, and the header that is then written has it. -/
theorem header_programmed_vga :
    let s := vgaWrite.foldl State.step (.reset (fun _ => 0) 0)
    let t := (List.replicate 625 vgaInput).foldl State.step (s.step vgaStart)
    ∃ ws, t.gen.log = s.gen.asked ++ ws ∧ ws.map Prod.fst = (List.range hdrSize).map (BitVec.ofNat 24) ∧
      ∀ data, ws.map Prod.snd ++ (stuff 0xff 0 data ++ [0xff, eoi]) = file (segments 480 640 s.lum s.chr ++ [scan]) data := by
  have hbefore : AllSteps State.step Keeps (.reset (fun _ => 0) 0) (vgaWrite ++ [vgaStart]) := by decide +kernel
  have hkeeps : AllSteps State.step Keeps (.reset (fun _ => 0) 0) (vgaWrite ++ vgaStart :: List.replicate 625 vgaInput) := by
    rw [List.append_cons, Runs.allSteps_append]
    exact ⟨hbefore, keeps_vga 625 rfl (by decide +kernel) (by decide +kernel)⟩
  have hquiet : ∀ j ∈ List.replicate 625 vgaInput, j.start = false := by
    intro j hj
    rw [List.eq_of_mem_replicate hj]
    rfl
  have hresting := resting_vga
  rw [List.foldl_append, List.foldl_cons, List.foldl_nil] at hresting
  have hsize : (vgaWrite.foldl State.step (.reset (fun _ => 0) 0)).height = 480 ∧
      (vgaWrite.foldl State.step (.reset (fun _ => 0) 0)).width = 640 := by decide +kernel
  rw [← hsize.1, ← hsize.2]
  exact header_programmed (fun _ => 0) 0 vgaWrite (List.replicate 625 vgaInput) vgaStart hkeeps rfl rfl hquiet rfl hresting

end JfifHeader
end Hdmi2Usb
