import Hdmi2Usb.Edid
import Mathlib.Data.Fin.VecNotation
import Mathlib.Data.List.GetD
/-!
# EdidBlock — what is in a generated EDID

`generateEdid` stores one run of 128 bytes, `edidBytes`, whatever was there before (`generateEdid_eq`).  So the block
depends on its inputs alone, its checksum is right (`generateEdid_valid`), and its descriptors decode to the timings
they were made from (`decode_generateEdid`).
-/
namespace Hdmi2Usb
namespace Edid

open Memory (store window)

/-! ## The descriptors -/

/-- What `generate_descriptor_padding` leaves behind `13 - n` characters. -/
def padding (n : Nat) : List Byte := (0x0a :: List.replicate 12 0x20).take n

def nameData (name : List Byte) : List Byte :=
  let cs := (name.takeWhile (· ≠ 0)).take maxDescriptorDataLen
  cs ++ padding (maxDescriptorDataLen - cs.length)

theorem length_padding {n : Nat} (h : n ≤ 13) : (padding n).length = n := by
  simp [padding, h]

theorem length_nameData (name : List Byte) : (nameData name).length = 13 := by
  have hle := List.length_take_le 13 (name.takeWhile (· ≠ 0))
  unfold nameData maxDescriptorDataLen
  simp only
  rw [List.length_append, length_padding (Nat.sub_le _ _)]
  omega

theorem paddingLoop_eq (d : Nat) : ∀ (left startPos : Nat) (m : Nat → Byte),
    paddingLoop d left startPos m = store m (d + descriptorData + startPos) (List.replicate left 0x20)
  | 0, _, m => (Memory.store_nil m _).symm
  | left + 1, startPos, m => by
    unfold paddingLoop
    rw [paddingLoop_eq d left]
    exact Memory.store_append m (d + descriptorData + startPos) [0x20] (List.replicate left 0x20)

theorem generateDescriptorPadding_eq (d : Nat) {startPos : Nat} (h : startPos ≤ 13) (m : Nat → Byte) :
    generateDescriptorPadding d startPos m = store m (d + descriptorData + startPos) (padding (13 - startPos)) := by
  unfold generateDescriptorPadding maxDescriptorDataLen
  by_cases hfull : 13 ≤ startPos
  · have hzero : 13 - startPos = 0 := by omega
    rw [if_pos hfull, hzero]
    exact (Memory.store_nil m _).symm
  · obtain ⟨n, hn⟩ : ∃ n, 13 - startPos = n + 1 := ⟨12 - startPos, by omega⟩
    have hpad : padding (n + 1) = [0x0a] ++ List.replicate n 0x20 := by
      unfold padding
      rw [List.take_succ_cons, List.take_replicate, Nat.min_eq_left (by omega)]
      rfl
    have hleft : 13 - (startPos + 1) = n := by omega
    rw [if_neg hfull, paddingLoop_eq, hn, hpad, hleft]
    exact Memory.store_append m (d + descriptorData + startPos) [0x0a] (List.replicate n 0x20)

theorem monitorNameLoop_eq (d : Nat) (name : List Byte) : ∀ (left i : Nat) (m : Nat → Byte),
    monitorNameLoop d name left i m =
      (i + (((name.drop i).takeWhile (· ≠ 0)).take left).length,
        store m (d + descriptorData + i) (((name.drop i).takeWhile (· ≠ 0)).take left))
  | 0, i, m => by simp [monitorNameLoop]
  | left + 1, i, m => by
    unfold monitorNameLoop
    by_cases hi : i < name.length
    · rw [List.getD_eq_getElem _ _ hi, List.drop_eq_getElem_cons hi]
      by_cases hc : name[i] = 0
      · rw [if_pos hc, List.takeWhile_cons_of_neg (by simpa using hc)]
        simp
      · rw [if_neg hc, List.takeWhile_cons_of_pos (by simpa using hc), List.take_succ_cons,
          monitorNameLoop_eq d name left]
        refine Prod.ext ?_ ?_
        · simp only [List.length_cons]
          omega
        · exact Memory.store_append m (d + descriptorData + i) [name[i]] _
    · rw [List.getD_eq_default _ _ (by omega), if_pos rfl, List.drop_eq_nil_of_le (by omega)]
      simp

def monitorNameBytes (name : List Byte) : List Byte := [0, 0, 0, descriptorMonitorName, 0] ++ nameData name

def monitorRangeBytes : List Byte :=
  [0, 0, 0, descriptorMonitorRange, 0] ++ [50, 60, 31, 68, 8, 0x00] ++ padding 7

def unusedBytes : List Byte := (List.replicate dataBlockLen 0).set 3 descriptorDummy

theorem generateMonitorName_eq (d : Nat) (name : List Byte) (m : Nat → Byte) :
    generateMonitorName d name m = store m d (monitorNameBytes name) := by
  have hle := List.length_take_le maxDescriptorDataLen (name.takeWhile (· ≠ 0))
  unfold generateMonitorName setDescriptorHeader
  simp only [monitorNameLoop_eq, List.drop_zero, Nat.add_zero, Nat.zero_add]
  rw [generateDescriptorPadding_eq d hle]
  rw [Memory.store_append]
  exact Memory.store_append m d [0, 0, 0, descriptorMonitorName, 0] _

theorem generateMonitorRangeDescriptor_eq (d : Nat) (m : Nat → Byte) :
    generateMonitorRangeDescriptor d m = store m d monitorRangeBytes := by
  unfold generateMonitorRangeDescriptor setDescriptorHeader
  simp only
  rw [generateDescriptorPadding_eq d (by decide)]
  have hfirst := Memory.store_append m d [0, 0, 0, descriptorMonitorRange, 0] [50, 60, 31, 68, 8, 0x00]
  have hall := Memory.store_append m d ([0, 0, 0, descriptorMonitorRange, 0] ++ [50, 60, 31, 68, 8, 0x00]) (padding 7)
  rw [← hfirst] at hall
  exact hall

theorem generateUnused_eq (d : Nat) (m : Nat → Byte) : generateUnused d m = store m d unusedBytes :=
  Memory.store_set m d (List.replicate dataBlockLen 0) (by decide) descriptorDummy

/-! ## The block -/

section Block

variable (charSigned : Bool) (mfgName : Fin 3 → Byte) (productCode : Fin 2 → Byte) (year : Word) (name : List Byte)
  (timing : VideoTiming) (secondaryTiming : Option VideoTiming)

/-- The four data blocks. -/
def blocksBytes : List Byte :=
  match secondaryTiming with
  | some secondary => timingBytes timing ++ timingBytes secondary ++ monitorNameBytes name ++ monitorRangeBytes
  | none           => timingBytes timing ++ monitorNameBytes name ++ monitorRangeBytes ++ unusedBytes

/-- The block up to its checksum. -/
def summedBytes : List Byte :=
  fixedBytes charSigned mfgName productCode year timing ++ blocksBytes name timing secondaryTiming ++ [0]

def edidBytes : List Byte :=
  summedBytes charSigned mfgName productCode year name timing secondaryTiming ++
    [-((summedBytes charSigned mfgName productCode year name timing secondaryTiming).foldl (· + ·) 0)]

theorem length_timingBytes (t : VideoTiming) : (timingBytes t).length = 18 := rfl

theorem length_monitorNameBytes : (monitorNameBytes name).length = 18 := by
  unfold monitorNameBytes
  rw [List.length_append, length_nameData]
  rfl

theorem length_fixedBytes : (fixedBytes charSigned mfgName productCode year timing).length = 54 := rfl

theorem length_blocksBytes : (blocksBytes name timing secondaryTiming).length = 72 := by
  unfold blocksBytes
  cases secondaryTiming with
  | some secondary => simp [length_timingBytes, length_monitorNameBytes, monitorRangeBytes, length_padding]
  | none =>
    simp [length_timingBytes, length_monitorNameBytes, monitorRangeBytes, length_padding, unusedBytes, dataBlockLen]

theorem length_summedBytes :
    (summedBytes charSigned mfgName productCode year name timing secondaryTiming).length = 127 := by
  unfold summedBytes
  rw [List.length_append, List.length_append, length_fixedBytes, length_blocksBytes]
  rfl

theorem length_edidBytes :
    (edidBytes charSigned mfgName productCode year name timing secondaryTiming).length = 128 := by
  unfold edidBytes
  rw [List.length_append, length_summedBytes]
  rfl

/-- Behind `as`, which end at `n`. -/
theorem store_behind (m : Nat → Byte) (as bs : List Byte) {n : Nat} (h : as.length = n) :
    store (store m 0 as) n bs = store m 0 (as ++ bs) := by
  have happ := Memory.store_append m 0 as bs
  rwa [h, Nat.zero_add] at happ

theorem generateEdid_summed (m : Nat → Byte) :
    generateEdid charSigned mfgName productCode year name timing secondaryTiming m =
      let m := store m 0 (summedBytes charSigned mfgName productCode year name timing secondaryTiming)
      store m 127 [computeChecksum m] := by
  have hblocks : ∀ m' : Nat → Byte, m' = store m 0 (fixedBytes charSigned mfgName productCode year timing ++
      blocksBytes name timing secondaryTiming) → store m' 126 [0] =
        store m 0 (summedBytes charSigned mfgName productCode year name timing secondaryTiming) := by
    rintro m' rfl
    exact store_behind m _ [0] (by rw [List.length_append, length_fixedBytes, length_blocksBytes])
  unfold generateEdid generateEdidTiming dataBlock dataBlocks dataBlockLen
  simp only [generateMonitorName_eq, generateMonitorRangeDescriptor_eq, generateUnused_eq]
  cases secondaryTiming with
  | some secondary =>
    simp only
    rw [hblocks]
    rw [store_behind m _ _ (by rw [length_fixedBytes]), store_behind m _ _ (by
      rw [List.length_append, length_fixedBytes, length_timingBytes]), store_behind m _ _ (by
      rw [List.length_append, List.length_append, length_fixedBytes, length_timingBytes, length_timingBytes]),
      store_behind m _ _ (by rw [List.length_append, List.length_append, List.length_append, length_fixedBytes,
        length_timingBytes, length_timingBytes, length_monitorNameBytes])]
    simp only [blocksBytes, List.append_assoc]
  | none =>
    simp only
    rw [hblocks]
    rw [store_behind m _ _ (by rw [length_fixedBytes]), store_behind m _ _ (by
      rw [List.length_append, length_fixedBytes, length_timingBytes]), store_behind m _ _ (by
      rw [List.length_append, List.length_append, length_fixedBytes, length_timingBytes, length_monitorNameBytes]),
      store_behind m _ _ (by rw [List.length_append, List.length_append, List.length_append, length_fixedBytes,
        length_timingBytes, length_monitorNameBytes]; rfl)]
    simp only [blocksBytes, List.append_assoc]

/-- The block is 128 bytes stored at once, whatever was there before. -/
theorem generateEdid_eq (m : Nat → Byte) :
    generateEdid charSigned mfgName productCode year name timing secondaryTiming m =
      store m 0 (edidBytes charSigned mfgName productCode year name timing secondaryTiming) := by
  have hlen := length_summedBytes charSigned mfgName productCode year name timing secondaryTiming
  rw [generateEdid_summed]
  unfold edidBytes computeChecksum
  generalize summedBytes charSigned mfgName productCode year name timing secondaryTiming = bs at hlen ⊢
  have hwindow := Memory.window_store m 0 bs
  rw [hlen] at hwindow
  simp only [hwindow]
  exact store_behind m bs _ hlen

/-! ## Validity -/

/-- **A generated EDID is valid and depends on its inputs alone**: it is the same whatever the memory held, all 128
bytes of it and nothing else, it passes `validate_edid`, and its bytes add up to nothing. -/
theorem generateEdid_valid (m : Nat → Byte) :
    let edid := generateEdid charSigned mfgName productCode year name timing secondaryTiming
    (∀ m' i, i < 128 → edid m i = edid m' i) ∧ (∀ i, 128 ≤ i → edid m i = m i) ∧ validateEdid (edid m) = true ∧
      (window (edid m) 0 128).foldl (· + ·) 0 = 0 := by
  have hlen := length_edidBytes charSigned mfgName productCode year name timing secondaryTiming
  have hsummed := length_summedBytes charSigned mfgName productCode year name timing secondaryTiming
  simp only [generateEdid_eq]
  have hwindow := fun m => Memory.window_store m 0 (edidBytes charSigned mfgName productCode year name timing
    secondaryTiming)
  rw [hlen] at hwindow
  refine ⟨?_, ?_, ?_, ?_⟩
  · intro m' i hi
    have ha := Memory.store_apply m 0 (hlen ▸ hi)
    have hb := Memory.store_apply m' 0 (hlen ▸ hi)
    rw [Nat.zero_add] at ha hb
    rw [ha, hb]
  · intro i hi
    exact Memory.store_of_ge m _ (by omega)
  · have hheader : window (store m 0 (edidBytes charSigned mfgName productCode year name timing secondaryTiming)) 0 8 =
        correctHeader := by
      rw [← Memory.take_window _ 0 128 8 (by decide), hwindow]
      rfl
    have hfirst : window (store m 0 (edidBytes charSigned mfgName productCode year name timing secondaryTiming)) 0 127 =
        summedBytes charSigned mfgName productCode year name timing secondaryTiming := by
      rw [← Memory.take_window _ 0 128 127 (by decide), hwindow]
      exact List.take_left' hsummed
    have hlast := Memory.store_apply m 0 (show 127 < (edidBytes charSigned mfgName productCode year name timing
      secondaryTiming).length by omega)
    rw [Nat.zero_add] at hlast
    unfold validateEdid computeChecksum
    rw [hheader, hfirst, hlast, decide_eq_true_eq]
    refine ⟨rfl, ?_⟩
    unfold edidBytes
    rw [List.getElem_append_right (by omega)]
    simp [hsummed]
  · rw [hwindow]
    unfold edidBytes
    rw [List.foldl_append]
    simp

end Block

/-! ## The timing descriptors -/

/-- The fields of the timing fit the descriptor. -/
structure Fits (t : VideoTiming) : Prop where
  pixelClock  : t.pixelClock.toNat < 2 ^ 16
  hActive     : t.hActive.toNat < 2 ^ 12
  hBlanking   : t.hBlanking.toNat < 2 ^ 12
  vActive     : t.vActive.toNat < 2 ^ 12
  vBlanking   : t.vBlanking.toNat < 2 ^ 12
  hSyncOffset : t.hSyncOffset.toNat < 2 ^ 10
  hSyncWidth  : t.hSyncWidth.toNat < 2 ^ 10
  vSyncOffset : t.vSyncOffset.toNat < 2 ^ 6
  vSyncWidth  : t.vSyncWidth.toNat < 2 ^ 6
  flags       : t.flags.toNat < 2 ^ 8

/-- The descriptor that says what the timing says. -/
def descriptorOf (t : VideoTiming) : Descriptor where
  pixelClock  := t.pixelClock.toNat
  hActive     := t.hActive.toNat
  hBlanking   := t.hBlanking.toNat
  vActive     := t.vActive.toNat
  vBlanking   := t.vBlanking.toNat
  hSyncOffset := t.hSyncOffset.toNat
  hSyncWidth  := t.hSyncWidth.toNat
  vSyncOffset := t.vSyncOffset.toNat
  vSyncWidth  := t.vSyncWidth.toNat
  hImageSize  := 10 * t.hActive.toNat / 64
  vImageSize  := 10 * t.vActive.toNat / 64
  flags       := t.flags.toNat

theorem toNat_byte (w : Word) : (byte w).toNat = w.toNat % 256 := by
  unfold byte
  rw [BitVec.toNat_setWidth]

theorem toNat_low (w : Word) : (byte (w &&& 0xff)).toNat = w.toNat % 256 := by
  have hmask : w.toNat &&& 255 = w.toNat % 256 := Nat.and_two_pow_sub_one_eq_mod w.toNat 8
  rw [toNat_byte, BitVec.toNat_and]
  show (w.toNat &&& 255) % 256 = _
  omega

theorem toNat_high (w : Word) : (byte (w >>> 8)).toNat = w.toNat / 256 % 256 := by
  rw [toNat_byte, BitVec.toNat_ushiftRight, Nat.shiftRight_eq_div_pow]

/-- Two parts of a byte that do not overlap. -/
theorem toNat_join {hi lo : Word} {k : Nat} (hhi : hi.toNat * 2 ^ k < 2 ^ 32) (hlo : lo.toNat < 2 ^ k) :
    ((hi <<< k) ||| lo).toNat = hi.toNat * 2 ^ k + lo.toNat := by
  rw [BitVec.toNat_or, BitVec.toNat_shiftLeft, Nat.shiftLeft_eq, Nat.mod_eq_of_lt hhi, Nat.mul_comm]
  exact (Nat.two_pow_add_eq_or_of_lt hlo hi.toNat).symm

/-- The byte of the high nibbles of two numbers of twelve bits. -/
theorem toNat_nibbles {a b : Word} (ha : a.toNat < 2 ^ 12) (hb : b.toNat < 2 ^ 12) :
    (byte (((a >>> 8) <<< 4) ||| (b >>> 8))).toNat = a.toNat / 256 * 16 + b.toNat / 256 := by
  have hra : (a >>> 8).toNat = a.toNat / 256 := by rw [BitVec.toNat_ushiftRight, Nat.shiftRight_eq_div_pow]
  have hrb : (b >>> 8).toNat = b.toNat / 256 := by rw [BitVec.toNat_ushiftRight, Nat.shiftRight_eq_div_pow]
  rw [toNat_byte, toNat_join (by rw [hra]; omega) (by rw [hrb]; omega), hra, hrb]
  omega

theorem toNat_and_mask (w : Word) (k : Nat) (hk : k ≤ 32) :
    (w &&& BitVec.ofNat 32 (2 ^ k - 1)).toNat = w.toNat % 2 ^ k := by
  have hpos : 0 < 2 ^ k := Nat.two_pow_pos k
  have hle : 2 ^ k ≤ 2 ^ 32 := Nat.pow_le_pow_right (by decide) hk
  rw [BitVec.toNat_and, BitVec.toNat_ofNat, Nat.mod_eq_of_lt (by omega), Nat.and_two_pow_sub_one_eq_mod]

/-- The byte of the low nibbles of the vertical sync. -/
theorem toNat_vSync (a b : Word) :
    (byte (((a &&& 0x0f) <<< 4) ||| (b &&& 0x0f))).toNat = a.toNat % 16 * 16 + b.toNat % 16 := by
  have ha : (a &&& 0x0f).toNat = a.toNat % 16 := toNat_and_mask a 4 (by decide)
  have hb : (b &&& 0x0f).toNat = b.toNat % 16 := toNat_and_mask b 4 (by decide)
  rw [toNat_byte, toNat_join (by rw [ha]; omega) (by rw [hb]; omega), ha, hb]
  omega

theorem or_pairs : ∀ a < 4, ∀ b < 4, ∀ c < 4, ∀ d < 4,
    (a * 64 ||| b * 16 ||| c * 4 ||| d) = a * 64 + b * 16 + c * 4 + d := by decide

/-- The byte of the four pairs of high bits of the sync. -/
theorem toNat_pairs (a b c d : Word) :
    (byte ((((a >>> 8) &&& 0x03) <<< 6) ||| (((b >>> 8) &&& 0x03) <<< 4) ||| (((c >>> 4) &&& 0x03) <<< 2) |||
      ((d >>> 4) &&& 0x03))).toNat =
      a.toNat / 256 % 4 * 64 + b.toNat / 256 % 4 * 16 + c.toNat / 16 % 4 * 4 + d.toNat / 16 % 4 := by
  have hpair : ∀ (w : Word) (k : Nat), ((w >>> k) &&& 0x03).toNat = w.toNat / 2 ^ k % 4 := by
    intro w k
    rw [← Nat.shiftRight_eq_div_pow, ← BitVec.toNat_ushiftRight]
    exact toNat_and_mask (w >>> k) 2 (by decide)
  have hshift : ∀ (w : Word) (k n : Nat), n ≤ 6 →
      (((w >>> k) &&& 0x03) <<< n).toNat = w.toNat / 2 ^ k % 4 * 2 ^ n := by
    intro w k n hn
    have hle : 2 ^ n ≤ 2 ^ 6 := Nat.pow_le_pow_right (by decide) hn
    have hlt : w.toNat / 2 ^ k % 4 * 2 ^ n < 2 ^ 32 := by
      have hmod : w.toNat / 2 ^ k % 4 ≤ 3 := by omega
      have hmul := Nat.mul_le_mul hmod hle
      omega
    rw [BitVec.toNat_shiftLeft, hpair, Nat.shiftLeft_eq, Nat.mod_eq_of_lt hlt]
  rw [toNat_byte, BitVec.toNat_or, BitVec.toNat_or, BitVec.toNat_or, hshift a 8 6 (by decide), hshift b 8 4 (by decide),
    hshift c 4 2 (by decide), hpair]
  have hor := or_pairs (a.toNat / 2 ^ 8 % 4) (by omega) (b.toNat / 2 ^ 8 % 4) (by omega) (c.toNat / 2 ^ 4 % 4)
    (by omega)
    (d.toNat / 2 ^ 4 % 4) (by omega)
  have hsum : a.toNat / 2 ^ 8 % 4 * 2 ^ 6 ||| b.toNat / 2 ^ 8 % 4 * 2 ^ 4 ||| c.toNat / 2 ^ 4 % 4 * 2 ^ 2 |||
      d.toNat / 2 ^ 4 % 4 = a.toNat / 2 ^ 8 % 4 * 64 + b.toNat / 2 ^ 8 % 4 * 16 + c.toNat / 2 ^ 4 % 4 * 4 +
        d.toNat / 2 ^ 4 % 4 := hor
  rw [hsum]
  omega

/-- The size in millimetres, at 6.4 pixels each. -/
theorem toNat_imageSize {a : Word} (ha : a.toNat < 2 ^ 12) : (10 * a / 64).toNat = 10 * a.toNat / 64 := by
  rw [BitVec.toNat_udiv, BitVec.toNat_mul]
  show 10 * a.toNat % 2 ^ 32 / 64 = _
  omega

theorem decodeTiming_of_window {m : Nat → Byte} {d : Nat} {t : VideoTiming} (hm : window m d 18 = timingBytes t)
    (ht : Fits t) : decodeTiming m d = descriptorOf t := by
  have hbyte : ∀ i, i < 18 → some (m (d + i)) = (timingBytes t)[i]? := by
    intro i hi
    rw [← hm, Memory.getElem?_window, if_pos hi]
  have hh := toNat_imageSize ht.hActive
  have hv := toNat_imageSize ht.vActive
  have hhlt : (10 * t.hActive / 64).toNat < 2 ^ 12 := by have := ht.hActive; omega
  have hvlt : (10 * t.vActive / 64).toNat < 2 ^ 12 := by have := ht.vActive; omega
  obtain ⟨hclock, hact, hblank, vact, vblank, hoff, hwidth, voff, vwidth, hflags⟩ := ht
  have b0 := Option.some.inj (hbyte 0 (by decide))
  have b1 := Option.some.inj (hbyte 1 (by decide))
  have b2 := Option.some.inj (hbyte 2 (by decide))
  have b3 := Option.some.inj (hbyte 3 (by decide))
  have b4 := Option.some.inj (hbyte 4 (by decide))
  have b5 := Option.some.inj (hbyte 5 (by decide))
  have b6 := Option.some.inj (hbyte 6 (by decide))
  have b7 := Option.some.inj (hbyte 7 (by decide))
  have b8 := Option.some.inj (hbyte 8 (by decide))
  have b9 := Option.some.inj (hbyte 9 (by decide))
  have b10 := Option.some.inj (hbyte 10 (by decide))
  have b11 := Option.some.inj (hbyte 11 (by decide))
  have b12 := Option.some.inj (hbyte 12 (by decide))
  have b13 := Option.some.inj (hbyte 13 (by decide))
  have b14 := Option.some.inj (hbyte 14 (by decide))
  have b17 := Option.some.inj (hbyte 17 (by decide))
  unfold decodeTiming descriptorOf
  simp only [b0, b1, b2, b3, b4, b5, b6, b7, b8, b9, b10, b11, b12, b13, b14, b17, toNat_low, toNat_high,
    toNat_nibbles hact hblank, toNat_nibbles vact vblank, toNat_nibbles hhlt hvlt, toNat_vSync, toNat_pairs,
    toNat_byte t.flags, hh, hv]
  congr 1 <;> omega

/-- **The timing descriptors decode to the timings**: the first to the primary timing, and the second to the secondary
one when there is one. -/
theorem decode_generateEdid (charSigned : Bool) (mfgName : Fin 3 → Byte) (productCode : Fin 2 → Byte) (year : Word)
    (name : List Byte) (timing : VideoTiming) (secondaryTiming : Option VideoTiming) (m : Nat → Byte)
    (ht : Fits timing) (hs : ∀ t, secondaryTiming = some t → Fits t) :
    let edid := generateEdid charSigned mfgName productCode year name timing secondaryTiming m
    decodeTiming edid (dataBlock 0) = descriptorOf timing ∧
      ∀ t, secondaryTiming = some t → decodeTiming edid (dataBlock 1) = descriptorOf t := by
  have hwindow := Memory.window_store m 0 (edidBytes charSigned mfgName productCode year name timing secondaryTiming)
  rw [length_edidBytes] at hwindow
  have hpart : ∀ d, d ≤ 110 → window (store m 0 (edidBytes charSigned mfgName productCode year name timing
      secondaryTiming)) d 18 = ((edidBytes charSigned mfgName productCode year name timing
        secondaryTiming).drop d).take 18 := by
    intro d hd
    rw [← hwindow, Memory.drop_window, Memory.take_window _ _ _ _ (by omega), Nat.zero_add, hwindow]
  simp only [generateEdid_eq]
  constructor
  · refine decodeTiming_of_window ?_ ht
    rw [hpart _ (by decide)]
    cases secondaryTiming <;> rfl
  · rintro t rfl
    refine decodeTiming_of_window ?_ (hs t rfl)
    rw [hpart _ (by decide)]
    rfl

def videoModes720p60 : VideoTiming :=
  ⟨7425, 1280, 370, 220, 40, 720, 30, 5, 5, edidDigital ||| edidHsyncPos ||| edidVsyncPos, 0, none⟩

/-- 1080p60 and 720p60 of "OHW", product "TV". -/
theorem decode_generateEdid_1080p60 :
    let edid := generateEdid true ![0x4f, 0x48, 0x57] ![0x54, 0x56] 2015 [0x48, 0x44] videoModes1080p60
      (some videoModes720p60) fun _ => 0xaa
    decodeTiming edid (dataBlock 0) = descriptorOf videoModes1080p60 ∧
      decodeTiming edid (dataBlock 1) = descriptorOf videoModes720p60 := by
  have h1080 : Fits videoModes1080p60 := by constructor <;> decide
  have h720 : ∀ t, some videoModes720p60 = some t → Fits t := by
    intro t ht
    rw [← Option.some.inj ht]
    constructor <;> decide
  obtain ⟨hfirst, hsecond⟩ := decode_generateEdid true ![0x4f, 0x48, 0x57] ![0x54, 0x56] 2015 [0x48, 0x44]
    videoModes1080p60 (some videoModes720p60) (fun _ => 0xaa) h1080 h720
  exact ⟨hfirst, hsecond _ rfl⟩

end Edid
end Hdmi2Usb
