import Hdmi2Usb.HuffmanBits
import Hdmi2Usb.JpegFile
import Hdmi2Usb.RleBlocks
/-!
# JpegHeader — the header of the encoder's images (`header.hex`)

The header is a start marker and segments.  Its Huffman tables give every pair of a run and a value that the encoder
codes the word that its ROMs have for it, so the bits of a block are those that a reader of the header looks for.
-/
namespace Hdmi2Usb
namespace JpegHeader

open Huffman (RomTable codeBits vlcBits vliBits vlcOf)
open JpegFile (Segment bits dht dqt named readTable readQuant readFrame readScan sof sos soi tables)
open JpegScan (Block Coded Tables blockBits codeBlock pairBits symbol valueBits vli vliSize)
open PrefixCodes (Table PrefixFree canonical code code_mem value word word_value)

/-- `header.hex` -/
def header : List Byte :=
  [0xff, 0xd8, 0xff, 0xe0, 0x00, 0x10, 0x4a, 0x46, 0x49, 0x46, 0x00, 0x01, 0x01, 0x00, 0x00, 0x01, 0x00, 0x01, 0x00, 0x00,
   0xff, 0xc0, 0x00, 0x11, 0x08, 0x01, 0x20, 0x01, 0x60, 0x03, 0x01, 0x21, 0x00, 0x02, 0x11, 0x01, 0x03, 0x11, 0x01, 0xff,
   0xdb, 0x00, 0x43, 0x00, 0x01, 0x01, 0x01, 0x01, 0x01, 0x01, 0x01, 0x01, 0x01, 0x01, 0x01, 0x01, 0x01, 0x01, 0x01, 0x01,
   0x01, 0x01, 0x01, 0x01, 0x01, 0x01, 0x01, 0x01, 0x01, 0x01, 0x01, 0x01, 0x01, 0x01, 0x01, 0x01, 0x01, 0x01, 0x01, 0x01,
   0x01, 0x01, 0x01, 0x01, 0x01, 0x01, 0x01, 0x01, 0x01, 0x01, 0x01, 0x01, 0x01, 0x01, 0x01, 0x01, 0x01, 0x01, 0x01, 0x01,
   0x01, 0x01, 0x01, 0x01, 0x01, 0x01, 0x01, 0x01, 0xff, 0xdb, 0x00, 0x43, 0x01, 0x01, 0x01, 0x01, 0x01, 0x01, 0x01, 0x01,
   0x01, 0x01, 0x01, 0x01, 0x01, 0x01, 0x01, 0x01, 0x01, 0x01, 0x01, 0x01, 0x01, 0x01, 0x01, 0x01, 0x01, 0x01, 0x01, 0x01,
   0x01, 0x01, 0x01, 0x01, 0x01, 0x01, 0x01, 0x01, 0x01, 0x01, 0x01, 0x01, 0x01, 0x01, 0x01, 0x01, 0x01, 0x01, 0x01, 0x01,
   0x01, 0x01, 0x01, 0x01, 0x01, 0x01, 0x01, 0x01, 0x01, 0x01, 0x01, 0x01, 0x01, 0x01, 0x01, 0x01, 0x01, 0xff, 0xc4, 0x00,
   0x1f, 0x00, 0x00, 0x01, 0x05, 0x01, 0x01, 0x01, 0x01, 0x01, 0x01, 0x00, 0x00, 0x00, 0x00, 0x00, 0x00, 0x00, 0x00, 0x01,
   0x02, 0x03, 0x04, 0x05, 0x06, 0x07, 0x08, 0x09, 0x0a, 0x0b, 0xff, 0xc4, 0x00, 0x1f, 0x01, 0x00, 0x03, 0x01, 0x01, 0x01,
   0x01, 0x01, 0x01, 0x01, 0x01, 0x01, 0x00, 0x00, 0x00, 0x00, 0x00, 0x00, 0x01, 0x02, 0x03, 0x04, 0x05, 0x06, 0x07, 0x08,
   0x09, 0x0a, 0x0b, 0xff, 0xc4, 0x00, 0xb5, 0x10, 0x00, 0x02, 0x01, 0x03, 0x03, 0x02, 0x04, 0x03, 0x05, 0x05, 0x04, 0x04,
   0x00, 0x00, 0x01, 0x7d, 0x01, 0x02, 0x03, 0x00, 0x04, 0x11, 0x05, 0x12, 0x21, 0x31, 0x41, 0x06, 0x13, 0x51, 0x61, 0x07,
   0x22, 0x71, 0x14, 0x32, 0x81, 0x91, 0xa1, 0x08, 0x23, 0x42, 0xb1, 0xc1, 0x15, 0x52, 0xd1, 0xf0, 0x24, 0x33, 0x62, 0x72,
   0x82, 0x09, 0x0a, 0x16, 0x17, 0x18, 0x19, 0x1a, 0x25, 0x26, 0x27, 0x28, 0x29, 0x2a, 0x34, 0x35, 0x36, 0x37, 0x38, 0x39,
   0x3a, 0x43, 0x44, 0x45, 0x46, 0x47, 0x48, 0x49, 0x4a, 0x53, 0x54, 0x55, 0x56, 0x57, 0x58, 0x59, 0x5a, 0x63, 0x64, 0x65,
   0x66, 0x67, 0x68, 0x69, 0x6a, 0x73, 0x74, 0x75, 0x76, 0x77, 0x78, 0x79, 0x7a, 0x83, 0x84, 0x85, 0x86, 0x87, 0x88, 0x89,
   0x8a, 0x92, 0x93, 0x94, 0x95, 0x96, 0x97, 0x98, 0x99, 0x9a, 0xa2, 0xa3, 0xa4, 0xa5, 0xa6, 0xa7, 0xa8, 0xa9, 0xaa, 0xb2,
   0xb3, 0xb4, 0xb5, 0xb6, 0xb7, 0xb8, 0xb9, 0xba, 0xc2, 0xc3, 0xc4, 0xc5, 0xc6, 0xc7, 0xc8, 0xc9, 0xca, 0xd2, 0xd3, 0xd4,
   0xd5, 0xd6, 0xd7, 0xd8, 0xd9, 0xda, 0xe1, 0xe2, 0xe3, 0xe4, 0xe5, 0xe6, 0xe7, 0xe8, 0xe9, 0xea, 0xf1, 0xf2, 0xf3, 0xf4,
   0xf5, 0xf6, 0xf7, 0xf8, 0xf9, 0xfa, 0xff, 0xc4, 0x00, 0xb5, 0x11, 0x00, 0x02, 0x01, 0x02, 0x04, 0x04, 0x03, 0x04, 0x07,
   0x05, 0x04, 0x04, 0x00, 0x01, 0x02, 0x77, 0x00, 0x01, 0x02, 0x03, 0x11, 0x04, 0x05, 0x21, 0x31, 0x06, 0x12, 0x41, 0x51,
   0x07, 0x61, 0x71, 0x13, 0x22, 0x32, 0x81, 0x08, 0x14, 0x42, 0x91, 0xa1, 0xb1, 0xc1, 0x09, 0x23, 0x33, 0x52, 0xf0, 0x15,
   0x62, 0x72, 0xd1, 0x0a, 0x16, 0x24, 0x34, 0xe1, 0x25, 0xf1, 0x17, 0x18, 0x19, 0x1a, 0x26, 0x27, 0x28, 0x29, 0x2a, 0x35,
   0x36, 0x37, 0x38, 0x39, 0x3a, 0x43, 0x44, 0x45, 0x46, 0x47, 0x48, 0x49, 0x4a, 0x53, 0x54, 0x55, 0x56, 0x57, 0x58, 0x59,
   0x5a, 0x63, 0x64, 0x65, 0x66, 0x67, 0x68, 0x69, 0x6a, 0x73, 0x74, 0x75, 0x76, 0x77, 0x78, 0x79, 0x7a, 0x82, 0x83, 0x84,
   0x85, 0x86, 0x87, 0x88, 0x89, 0x8a, 0x92, 0x93, 0x94, 0x95, 0x96, 0x97, 0x98, 0x99, 0x9a, 0xa2, 0xa3, 0xa4, 0xa5, 0xa6,
   0xa7, 0xa8, 0xa9, 0xaa, 0xb2, 0xb3, 0xb4, 0xb5, 0xb6, 0xb7, 0xb8, 0xb9, 0xba, 0xc2, 0xc3, 0xc4, 0xc5, 0xc6, 0xc7, 0xc8,
   0xc9, 0xca, 0xd2, 0xd3, 0xd4, 0xd5, 0xd6, 0xd7, 0xd8, 0xd9, 0xda, 0xe2, 0xe3, 0xe4, 0xe5, 0xe6, 0xe7, 0xe8, 0xe9, 0xea,
   0xf2, 0xf3, 0xf4, 0xf5, 0xf6, 0xf7, 0xf8, 0xf9, 0xfa, 0xff, 0xda, 0x00, 0x0c, 0x03, 0x01, 0x00, 0x02, 0x11, 0x03, 0x11,
   0x00, 0x3f, 0x00]

/-- Some bytes of the header. -/
def slice (a n : ℕ) : List Byte := (header.drop a).take n

/-- The segments of the header in front of the scan, for the size of an image and the quantiser tables. -/
def segments (height width : BitVec 16) (lum chr : List Byte) : List Segment :=
  [⟨0xe0, slice 6 14⟩,
   ⟨sof, [8, height.extractLsb' 8 8, height.extractLsb' 0 8, width.extractLsb' 8 8, width.extractLsb' 0 8] ++ slice 29 10⟩,
   ⟨dqt, 0 :: lum⟩, ⟨dqt, 1 :: chr⟩, ⟨dht, slice 181 29⟩, ⟨dht, slice 214 29⟩, ⟨dht, slice 247 179⟩, ⟨dht, slice 430 179⟩]

def scan : Segment := ⟨sos, slice 613 10⟩

/-! ## The Huffman tables -/

/-- A table of the header. -/
def table (a n : ℕ) : Table ℕ := ((readTable (slice a n)).map Prod.snd).getD []

def lumTables : Tables := ⟨table 181 29, table 247 179⟩

def chrTables : Tables := ⟨table 214 29, table 430 179⟩

/-- The tables of the components. -/
def headerTables (c : ℕ) : Tables := if c = 0 then lumTables else if c < 3 then chrTables else ⟨[], []⟩

/-- The names of the tables of the components. -/
def names : List (Byte × Byte) := [(0, 16), (1, 17), (1, 17)]

/-- The words of a table are those of a ROM. -/
def Agrees (t : Table ℕ) (rom : ℕ → ℕ × ℕ) : Prop := ∀ p ∈ t, rom p.1 = (p.2.length, value p.2)

instance (t : Table ℕ) (rom : ℕ → ℕ × ℕ) : Decidable (Agrees t rom) := inferInstanceAs (Decidable (∀ p ∈ t, _))

theorem word_rom {t : Table ℕ} {rom : ℕ → ℕ × ℕ} (h : Agrees t rom) {s : ℕ} (hs : s ∈ t.map Prod.fst) :
    word (rom s).1 (rom s).2 = code t s := by
  rw [h _ (code_mem hs)]
  exact word_value _

theorem lumDc_agrees : Agrees lumTables.dc fun s => ((Huffman.dcRom (.ofNat 4 s)).1.toNat, (Huffman.dcRom (.ofNat 4 s)).2.toNat) := by
  decide +kernel

theorem chrDc_agrees :
    Agrees chrTables.dc fun s => ((Huffman.dcCrRom (.ofNat 4 s)).1.toNat, (Huffman.dcCrRom (.ofNat 4 s)).2.toNat) := by
  decide +kernel

theorem lumAc_agrees : Agrees lumTables.ac fun s =>
    ((Huffman.acRom (.ofNat 4 (s / 16)) (.ofNat 4 (s % 16))).1.toNat,
      (Huffman.acRom (.ofNat 4 (s / 16)) (.ofNat 4 (s % 16))).2.toNat) := by
  decide +kernel

theorem chrAc_agrees : Agrees chrTables.ac fun s =>
    ((Huffman.acCrRom (.ofNat 4 (s / 16)) (.ofNat 4 (s % 16))).1.toNat,
      (Huffman.acCrRom (.ofNat 4 (s / 16)) (.ofNat 4 (s % 16))).2.toNat) := by
  decide +kernel

/-- Every size of a DC difference has a word. -/
theorem dc_symbols : ∀ n < 12, n ∈ lumTables.dc.map Prod.fst ∧ n ∈ chrTables.dc.map Prod.fst := by decide +kernel

/-- Every run with a size up to ten has a word, and so have the end of a block and the run of sixteen zeros. -/
def AcSymbols (t : Table ℕ) : Prop := ∀ r < 16, ∀ n < 11, n ≠ 0 ∨ r = 0 ∨ r = 15 → 16 * r + n ∈ t.map Prod.fst

instance (t : Table ℕ) : Decidable (AcSymbols t) := inferInstanceAs (Decidable (∀ r < 16, _))

theorem ac_symbols : AcSymbols lumTables.ac ∧ AcSymbols chrTables.ac := by decide +kernel

/-- The numbers of the words of each length, and the symbols. -/
def counts (a n : ℕ) : List ℕ := (((slice a n).drop 1).take 16).map BitVec.toNat

def symbols (a n : ℕ) : List ℕ := (((slice a n).drop 1).drop 16).map BitVec.toNat

theorem table_prefixFree (a n : ℕ) (hnodup : (symbols a n).Nodup) (hfits : PrefixCodes.Fits 0 1 (counts a n)) :
    PrefixFree (table a n) := by
  rw [table]
  cases hslice : slice a n with
  | nil => exact fun _ hp => by cases hp
  | cons name rest =>
    rw [symbols, hslice] at hnodup
    rw [counts, hslice] at hfits
    rw [readTable]
    split
    · exact PrefixCodes.canonical_prefixFree hnodup hfits
    · exact fun _ hp => by cases hp

theorem lumTables_prefixFree : PrefixFree lumTables.dc ∧ PrefixFree lumTables.ac := by
  have hdc := table_prefixFree 181 29 (by decide +kernel) (by decide +kernel)
  have hac := table_prefixFree 247 179 (by decide +kernel) (by decide +kernel)
  dsimp only [lumTables]
  exact ⟨hdc, hac⟩

theorem chrTables_prefixFree : PrefixFree chrTables.dc ∧ PrefixFree chrTables.ac := by
  have hdc := table_prefixFree 214 29 (by decide +kernel) (by decide +kernel)
  have hac := table_prefixFree 430 179 (by decide +kernel) (by decide +kernel)
  dsimp only [chrTables]
  exact ⟨hdc, hac⟩

theorem headerTables_prefixFree (c : ℕ) : PrefixFree (headerTables c).dc ∧ PrefixFree (headerTables c).ac := by
  have hnone : PrefixFree ([] : Table ℕ) := fun _ hp => by cases hp
  rw [headerTables]
  split_ifs
  · exact lumTables_prefixFree
  · exact chrTables_prefixFree
  · exact ⟨hnone, hnone⟩

/-! ## The words of the encoder -/

theorem vliBits_wordOf {p : ℕ × ℤ} (h : vliSize p.2 ≤ 12) : vliBits (Rle.wordOf p) = valueBits p.2 := by
  have hsize : (Rle.wordOf p).size.toNat = vliSize p.2 := by
    show (BitVec.ofNat 4 (vliSize p.2)).toNat = _
    rw [BitVec.toNat_ofNat, Nat.mod_eq_of_lt (by omega)]
  have hamp : (Rle.wordOf p).amplitude.toNat = (vli p.2 % (2 ^ 12 : ℕ)).toNat :=
    BitVec.toNat_ofInt _
  have hnonneg : 0 ≤ vli p.2 % (2 ^ 12 : ℕ) := Int.emod_nonneg _ (by decide)
  have hdvd : ((2 ^ vliSize p.2 : ℕ) : ℤ) ∣ (2 ^ 12 : ℕ) := Int.natCast_dvd_natCast.2 (pow_dvd_pow 2 h)
  have hmod : (vli p.2 % (2 ^ 12 : ℕ)).toNat % 2 ^ vliSize p.2 = (vli p.2 % 2 ^ vliSize p.2).toNat := by
    rw [← Int.toNat_natCast (2 ^ vliSize p.2), ← Int.toNat_emod hnonneg (by positivity), Int.emod_emod_of_dvd _ hdvd]
    push_cast
    rfl
  rw [vliBits, hsize, hamp, ← PrefixCodes.word_mod, hmod, valueBits]

section

variable {c : BitVec 3} {p : ℕ × ℤ}

theorem vliSize_le {v : ℤ} {n : ℕ} (h : v.natAbs < 2 ^ n) : vliSize v ≤ n := Nat.size_le.2 h

/-- The length and the code of a word come through the wider registers. -/
theorem toNat_vlc {m n : ℕ} (hm : m ≤ 5) (hn : n ≤ 16) (e : BitVec m × BitVec n) :
    word (e.1.setWidth 5).toNat (e.2.setWidth 16).toNat = word e.1.toNat e.2.toNat := by
  rw [BitVec.toNat_setWidth_of_le hm, BitVec.toNat_setWidth_of_le hn]

theorem tables_lum (h : c.toNat < 2) : headerTables (Rle.component c) = lumTables := by
  have hcomp : Rle.component c = 0 := by
    revert c
    decide
  rw [hcomp]
  rfl

theorem tables_chr (h : ¬ c.toNat < 2) : headerTables (Rle.component c) = chrTables := by
  have hcomp : Rle.component c = 1 ∨ Rle.component c = 2 := by
    revert c
    decide
  rcases hcomp with hcomp | hcomp <;> rw [hcomp] <;> rfl

/-- **The word of a DC difference** is that of the header's table. -/
theorem vlcBits_dc (c : BitVec 3) {v : ℤ} (h : v.natAbs ≤ 2047) :
    vlcBits c true (Rle.wordOf (0, v)) = code (headerTables (Rle.component c)).dc (symbol (0, v)) := by
  have hsize : vliSize v < 12 := Nat.lt_succ_of_le (vliSize_le (by omega))
  have hsym : symbol (0, v) = vliSize v := by rw [symbol, Nat.mul_zero, Nat.zero_add]
  obtain ⟨hlum, hchr⟩ := dc_symbols _ hsize
  rw [hsym, vlcBits, vlcOf, if_pos rfl]
  by_cases hc : c.toNat < 2
  · rw [if_pos hc, toNat_vlc (by decide) (by decide), tables_lum hc]
    exact word_rom lumDc_agrees hlum
  · rw [if_neg hc, toNat_vlc (by decide) (by decide), tables_chr hc]
    exact word_rom chrDc_agrees hchr

/-- The pairs that the tables of the other coefficients have words for. -/
def AcPair (p : ℕ × ℤ) : Prop := p.1 < 16 ∧ p.2.natAbs ≤ 1023 ∧ (p.2 ≠ 0 ∨ p.1 = 0 ∨ p.1 = 15)

theorem AcPair.size (h : AcPair p) : vliSize p.2 < 11 := Nat.lt_succ_of_le (vliSize_le (by have := h.2.1; omega))

theorem AcPair.symbols (h : AcPair p) : symbol p ∈ lumTables.ac.map Prod.fst ∧ symbol p ∈ chrTables.ac.map Prod.fst := by
  have hne : vliSize p.2 ≠ 0 ∨ p.1 = 0 ∨ p.1 = 15 := h.2.2.imp_left fun hne hzero => hne (by
    rw [vliSize, Nat.size_eq_zero] at hzero
    exact Int.natAbs_eq_zero.1 hzero)
  exact ⟨ac_symbols.1 _ h.1 _ h.size hne, ac_symbols.2 _ h.1 _ h.size hne⟩

/-- **The word of a run and a value** is that of the header's table. -/
theorem vlcBits_ac (c : BitVec 3) (h : AcPair p) :
    vlcBits c false (Rle.wordOf p) = code (headerTables (Rle.component c)).ac (symbol p) := by
  obtain ⟨hlum, hchr⟩ := h.symbols
  have hsize := h.size
  have hdiv : symbol p / 16 = p.1 := by
    rw [symbol]
    omega
  have hmod : symbol p % 16 = vliSize p.2 := by
    rw [symbol]
    omega
  rw [vlcBits, vlcOf, if_neg Bool.false_ne_true]
  by_cases hc : c.toNat < 2
  · have hword := word_rom lumAc_agrees hlum
    rw [hdiv, hmod] at hword
    rw [if_pos hc, tables_lum hc]
    exact hword
  · have hword := word_rom chrAc_agrees hchr
    rw [hdiv, hmod] at hword
    rw [if_neg hc, tables_chr hc]
    exact hword

theorem codeBits_ac (c : BitVec 3) : ∀ {ps : List (ℕ × ℤ)}, (∀ p ∈ ps, AcPair p) →
    codeBits c false (ps.map Rle.wordOf) = ps.flatMap (pairBits (headerTables (Rle.component c)).ac)
  | [], _      => rfl
  | p :: ps, h => by
    have hp := h p List.mem_cons_self
    have hsize := hp.size
    rw [List.map_cons, codeBits, List.flatMap_cons, pairBits, vlcBits_ac c hp, vliBits_wordOf (by omega),
      codeBits_ac c fun q hq => h q (List.mem_cons_of_mem p hq)]

/-- The values of a block have words: the DC coefficient as `Rle.InRange` says, and the others are of ten bits. -/
def InTables (pred : ℤ) (coefs : List ℤ) : Prop := Rle.InRange pred coefs ∧ ∀ v ∈ coefs.tail, v.natAbs ≤ 1023

instance (pred : ℤ) (coefs : List ℤ) : Decidable (InTables pred coefs) := inferInstanceAs (Decidable (_ ∧ _))

variable {pred : ℤ} {coefs : List ℤ}

theorem acPair_encode {acs : List ℤ} (h : ∀ v ∈ acs, v.natAbs ≤ 1023) {z : ℕ} (hp : p ∈ RunLengths.encode 16 z acs) :
    AcPair p := by
  rcases RunLengths.mem_encode (by decide) hp with rfl | rfl | ⟨hrun, hmem, hne⟩
  · exact ⟨by decide, by decide, .inr (.inl rfl)⟩
  · exact ⟨by decide, by decide, .inr (.inr rfl)⟩
  · exact ⟨hrun, h _ hmem, .inl hne⟩

/-- **The bits of a block** are those that its words have in the header's tables. -/
theorem codeBits_block (c : BitVec 3) (hcoefs : coefs ≠ []) (h : InTables pred coefs) :
    codeBits c true ((codeBlock pred coefs).map Rle.wordOf) =
      blockBits (headerTables (Rle.component c)) (codeBlock pred coefs) := by
  cases coefs with
  | nil => exact (hcoefs rfl).elim
  | cons dc acs =>
    obtain ⟨⟨hdc, -⟩, hacs⟩ := h
    replace hdc : (dc - pred).natAbs ≤ 2047 := hdc
    replace hacs : ∀ v ∈ acs, v.natAbs ≤ 1023 := hacs
    have hsize : vliSize (dc - pred) ≤ 11 := vliSize_le (Nat.lt_succ_of_le hdc)
    rw [codeBlock, List.map_cons, codeBits, blockBits, pairBits, vlcBits_dc c hdc, vliBits_wordOf (Nat.le_succ_of_le hsize),
      codeBits_ac c fun p hp => acPair_encode hacs hp]

theorem tables_cases {comp : ℕ} (h : comp < 3) : headerTables comp = lumTables ∨ headerTables comp = chrTables := by
  by_cases hzero : comp = 0
  · exact .inl (if_pos hzero)
  · exact .inr ((if_neg hzero).trans (if_pos h))

/-- A block in range can be read with the header's tables. -/
theorem codable {comp : ℕ} (hcomp : comp < 3) (hlen : coefs.length = 64) (h : InTables pred coefs) :
    Block.Codable (headerTables comp) pred ⟨comp, coefs⟩ where
  length := hlen
  coded  := by
    cases coefs with
    | nil => cases hlen
    | cons dc acs =>
      obtain ⟨⟨hdc, -⟩, hacs⟩ := h
      have hsize : vliSize (dc - pred) < 12 := Nat.lt_succ_of_le (vliSize_le (Nat.lt_succ_of_le hdc))
      have hsym : symbol (0, dc - pred) = vliSize (dc - pred) := by rw [symbol, Nat.mul_zero, Nat.zero_add]
      obtain ⟨hlum, hchr⟩ := dc_symbols _ hsize
      refine ⟨_, _, rfl, ⟨?_, Nat.lt_trans hsize (by decide)⟩, fun p hp => ?_⟩
      · rw [hsym]
        rcases tables_cases hcomp with htables | htables
        · rw [htables]
          exact hlum
        · rw [htables]
          exact hchr
      · have hpair := acPair_encode hacs hp
        obtain ⟨hlum', hchr'⟩ := hpair.symbols
        refine ⟨?_, Nat.lt_trans hpair.size (by decide)⟩
        rcases tables_cases hcomp with htables | htables
        · rw [htables]
          exact hlum'
        · rw [htables]
          exact hchr'

end

/-! ## The segments -/

/-- The components of the frame: two blocks of luminance to one of each chrominance. -/
def comps : List JpegFile.Comp := [⟨1, 2, 1, 0⟩, ⟨2, 1, 1, 1⟩, ⟨3, 1, 1, 1⟩]

section

variable (height width : BitVec 16) (lum chr : List Byte)

theorem number_extract (x : BitVec 16) : JpegFile.number (x.extractLsb' 8 8) (x.extractLsb' 0 8) = x.toNat := by
  have hlt := x.isLt
  rw [JpegFile.number, BitVec.extractLsb'_toNat, BitVec.extractLsb'_toNat, Nat.shiftRight_zero, Nat.shiftRight_eq_div_pow]
  omega

theorem readFrame_header :
    readFrame ([8, height.extractLsb' 8 8, height.extractLsb' 0 8, width.extractLsb' 8 8, width.extractLsb' 0 8] ++ slice 29 10) =
      some ⟨height.toNat, width.toNat, comps⟩ := by
  have hslice : slice 29 10 = [3, 1, 0x21, 0, 2, 0x11, 1, 3, 0x11, 1] := by decide +kernel
  rw [hslice, ← number_extract height, ← number_extract width]
  rfl

theorem readScan_header : readScan comps scan.data = some names := by decide +kernel

theorem headed_segments (hlum : lum.length = 64) (hchr : chr.length = 64) :
    JpegFile.Headed (segments height width lum chr) scan where
  marker := rfl
  others := by simp [segments, sof, sos, dqt, dht]
  length := by
    have hslice : ∀ a n, (slice a n).length ≤ n := fun a n => by
      rw [slice, List.length_take]
      exact Nat.min_le_left _ _
    have h6 := hslice 6 14
    have h29 := hslice 29 10
    have h181 := hslice 181 29
    have h214 := hslice 214 29
    have h247 := hslice 247 179
    have h430 := hslice 430 179
    have h613 := hslice 613 10
    simp only [segments, scan, List.mem_append, List.mem_cons, List.not_mem_nil, or_false]
    rintro s ((rfl | rfl | rfl | rfl | rfl | rfl | rfl | rfl) | rfl) <;> simp [hlum, hchr] <;> omega

theorem readTable_slice {a n : ℕ} {name : Byte} (h : (readTable (slice a n)).map Prod.fst = some name) :
    readTable (slice a n) = some (name, table a n) := by
  rw [table]
  cases hread : readTable (slice a n) with
  | none =>
    rw [hread] at h
    cases h
  | some p =>
    rw [hread] at h
    cases h
    rfl

/-- The tables that a reader of the header finds. -/
theorem readTables_header :
    ((segments height width lum chr ++ [scan]).filter fun s => s.marker = dht).filterMap (fun s => readTable s.data) =
      [(0, table 181 29), (1, table 214 29), (16, table 247 179), (17, table 430 179)] := by
  have hdht : ((segments height width lum chr ++ [scan]).filter fun s => s.marker = dht) =
      [⟨dht, slice 181 29⟩, ⟨dht, slice 214 29⟩, ⟨dht, slice 247 179⟩, ⟨dht, slice 430 179⟩] := by
    simp [segments, scan, sof, dqt, dht, sos]
  have h0 : readTable (slice 181 29) = some (0, table 181 29) := readTable_slice (by decide +kernel)
  have h1 : readTable (slice 214 29) = some (1, table 214 29) := readTable_slice (by decide +kernel)
  have h16 : readTable (slice 247 179) = some (16, table 247 179) := readTable_slice (by decide +kernel)
  have h17 : readTable (slice 430 179) = some (17, table 430 179) := readTable_slice (by decide +kernel)
  simp only [hdht, List.filterMap_cons, h0, h1, h16, h17, List.filterMap_nil]

theorem tables_segments (c : ℕ) : tables (segments height width lum chr ++ [scan]) names c = headerTables c := by
  have hnamed : ∀ name, named readTable (segments height width lum chr ++ [scan]) dht name =
      List.lookup name [(0, table 181 29), (1, table 214 29), (16, table 247 179), (17, table 430 179)] :=
    fun name => congrArg (List.lookup name) (readTables_header height width lum chr)
  match c with
  | 0     => simp [tables, names, hnamed, headerTables, lumTables, List.lookup_cons]
  | 1 | 2 => simp [tables, names, hnamed, headerTables, chrTables, List.lookup_cons]
  | c + 3 => simp [tables, names, headerTables]

theorem quant_segments (hlum : lum.length = 64) (hchr : chr.length = 64) :
    comps.map (fun c => named readQuant (segments height width lum chr ++ [scan]) dqt c.quant) =
      [some (lum.map BitVec.toNat), some (chr.map BitVec.toNat), some (chr.map BitVec.toNat)] := by
  have hdqt : ((segments height width lum chr ++ [scan]).filter fun s => s.marker = dqt) = [⟨dqt, 0 :: lum⟩, ⟨dqt, 1 :: chr⟩] := by
    simp [segments, scan, sof, dqt, dht, sos]
  simp only [comps, List.map_cons, List.map_nil, named, hdqt, List.filterMap_cons, List.filterMap_nil, readQuant, if_pos hlum,
    if_pos hchr]
  rfl

/-- **An image is read from the bytes behind the header.** -/
theorem decode_header {bs : List Block} {data : List Byte} {pad : List Bool} (hlum : lum.length = 64) (hchr : chr.length = 64)
    (horder : bs.map Block.comp = (⟨height.toNat, width.toNat, comps⟩ : JpegFile.Frame).order)
    (hbits : bits data = JpegScan.blocksBits headerTables 0 bs ++ pad) (hpad : JpegFile.Fills pad)
    (hcodable : ∀ as b cs, bs = as ++ b :: cs → b.Codable (headerTables b.comp) (JpegScan.predsAfter 0 as b.comp)) :
    JpegFile.decode (JpegFile.file (segments height width lum chr ++ [scan]) data) =
      some ⟨height.toNat, width.toNat, [some (lum.map BitVec.toNat), some (chr.map BitVec.toNat), some (chr.map BitVec.toNat)],
        bs⟩ := by
  have htables : tables (segments height width lum chr ++ [scan]) names = headerTables :=
    funext (tables_segments height width lum chr)
  have hdecode := JpegFile.decode_file (headed_segments height width lum chr hlum hchr) rfl
    (readFrame_header height width) readScan_header (by rw [htables]; exact headerTables_prefixFree) horder
    (by rw [htables]; exact hbits) hpad (by rw [htables]; exact hcodable)
  rw [hdecode, quant_segments height width lum chr hlum hchr]

end

end JpegHeader
end Hdmi2Usb
