import Hdmi2Usb.Huffman
/-!
# HuffmanBits — the bits in the register of the Huffman encoder

The first `bitPtr` bits of `word_reg` are those that are not written yet (`held`).  The loop of `p_vlp` puts the bits of
a word behind them (`held_place`), the bytes that are written are the first of them (`byteBits_wbyte`), and the shift
takes these away (`held_shifted`).
-/
namespace Hdmi2Usb
namespace Huffman

open PrefixCodes (word value)

/-- The bits of a byte, the most significant first. -/
def byteBits (b : Byte) : List Bool := word 8 b.toNat

@[simp] theorem length_byteBits (b : Byte) : (byteBits b).length = 8 := PrefixCodes.length_word 8 _

/-- The bits of `word_reg` that are not written yet. -/
def held (wordReg : BitVec 23) (bitPtr : ℕ) : List Bool := (word 23 wordReg.toNat).take bitPtr

theorem length_held (wordReg : BitVec 23) {bitPtr : ℕ} (h : bitPtr ≤ 23) : (held wordReg bitPtr).length = bitPtr := by
  rw [held, List.length_take, PrefixCodes.length_word, Nat.min_eq_left h]

theorem word_ofBits (n : ℕ) (f : ℕ → Bool) : word n (ofBits n f).toNat = (List.range n).map f := by
  have hword := PrefixCodes.word_value ((List.range n).map f)
  rw [List.length_map, List.length_range] at hword
  rw [ofBits, BitVec.toNat_ofNat, PrefixCodes.word_mod, hword]

theorem getElem_held (wordReg : BitVec 23) (bitPtr m : ℕ) (h : m < (held wordReg bitPtr).length) :
    (held wordReg bitPtr)[m] = wordReg.toNat.testBit (22 - m) := by
  simp only [held, List.getElem_take, PrefixCodes.getElem_word]

theorem held_place (wordReg : BitVec 23) {bitPtr : BitVec 5} (code : BitVec 16) {size : BitVec 5}
    (h : bitPtr.toNat + size.toNat ≤ 23) :
    held (place wordReg bitPtr code size) (bitPtr.toNat + size.toNat) =
      held wordReg bitPtr.toNat ++ word size.toNat code.toNat := by
  have hlen : (held wordReg bitPtr.toNat).length = bitPtr.toNat := length_held wordReg (by omega)
  refine List.ext_getElem ?_ fun m hm hm' => ?_
  · rw [length_held _ h, List.length_append, hlen, PrefixCodes.length_word]
  · rw [length_held _ h] at hm
    have hplace : (held (place wordReg bitPtr code size) (bitPtr.toNat + size.toNat))[m] =
        if bitPtr.toNat ≤ m ∧ m - bitPtr.toNat < size.toNat then code.getLsbD (size.toNat - 1 - (m - bitPtr.toNat))
        else wordReg.getMsbD m := by
      simp only [held, List.getElem_take, place, word_ofBits, List.getElem_map, List.getElem_range]
    rw [hplace]
    rcases Nat.lt_or_ge m bitPtr.toNat with hold | hnew
    · rw [if_neg (fun hc => absurd hc.1 (Nat.not_le.2 hold)), List.getElem_append_left (by omega), getElem_held]
      simp only [BitVec.getMsbD, BitVec.testBit_toNat]
      rw [decide_eq_true (by omega), Bool.true_and]
    · rw [if_pos ⟨hnew, by omega⟩, List.getElem_append_right (by omega), PrefixCodes.getElem_word, hlen,
        BitVec.testBit_toNat]

theorem held_shiftLeft (wordReg : BitVec 23) {bitPtr k : ℕ} (h : bitPtr ≤ 23) (hk : k ≤ bitPtr) :
    held (wordReg <<< k) (bitPtr - k) = (held wordReg bitPtr).drop k := by
  have hlen := length_held wordReg h
  refine List.ext_getElem ?_ fun m hm hm' => ?_
  · rw [length_held _ (by omega), List.length_drop, hlen]
  · rw [length_held _ (by omega)] at hm
    rw [getElem_held, List.getElem_drop, getElem_held, BitVec.testBit_toNat, BitVec.testBit_toNat, BitVec.getLsbD_shiftLeft,
      decide_eq_true (by omega), decide_eq_false (by omega), Bool.not_false, Bool.and_true, Bool.true_and]
    congr 1
    omega

/-- The `n`-th byte of the register. -/
theorem byteBits_extract (wordReg : BitVec 23) {bitPtr n : ℕ} (h : bitPtr ≤ 23) (hn : 8 * (n + 1) ≤ bitPtr) :
    byteBits (wordReg.extractLsb' (15 - 8 * n) 8) = ((held wordReg bitPtr).drop (8 * n)).take 8 := by
  have hlen := length_held wordReg h
  refine List.ext_getElem ?_ fun m hm hm' => ?_
  · rw [length_byteBits, List.length_take, List.length_drop, hlen]
    omega
  · rw [length_byteBits] at hm
    simp only [byteBits, PrefixCodes.getElem_word, List.getElem_take, List.getElem_drop, getElem_held]
    rw [BitVec.testBit_toNat, BitVec.testBit_toNat, BitVec.getLsbD_extractLsb', decide_eq_true (by omega), Bool.true_and]
    congr 1
    omega

/-- The last byte of an image is filled up with ones. -/
theorem byteBits_pad (wordReg : BitVec 23) {bitPtr : ℕ} (h : bitPtr ≤ 8) :
    byteBits (ofBits 8 fun k => if k < bitPtr then wordReg.getMsbD k else true) =
      held wordReg bitPtr ++ List.replicate (8 - bitPtr) true := by
  have hlen := length_held wordReg (show bitPtr ≤ 23 by omega)
  rw [byteBits, word_ofBits]
  refine List.ext_getElem ?_ fun m hm hm' => ?_
  · rw [List.length_map, List.length_range, List.length_append, List.length_replicate, hlen]
    omega
  · rw [List.length_map, List.length_range] at hm
    rw [List.getElem_map, List.getElem_range]
    rcases Nat.lt_or_ge m bitPtr with hold | hnew
    · rw [if_pos hold, List.getElem_append_left (by omega), getElem_held]
      simp only [BitVec.getMsbD, BitVec.testBit_toNat]
      rw [decide_eq_true (by omega), Bool.true_and]
    · rw [if_neg (Nat.not_lt.2 hnew), List.getElem_append_right (by omega), List.getElem_replicate]

/-! ## Whole bytes and code words -/

theorem toNat_numFifoWrs (r : Regs) : r.numFifoWrs.toNat = r.bitPtr.toNat / 8 := by
  have hlt := r.bitPtr.isLt
  rw [Regs.numFifoWrs, BitVec.extractLsb'_toNat, Nat.shiftRight_eq_div_pow, Nat.mod_eq_of_lt (by omega)]

theorem toNat_writtenBits (r : Regs) : r.writtenBits.toNat = 8 * (r.bitPtr.toNat / 8) := by
  rw [Regs.writtenBits, BitVec.toNat_append, toNat_numFifoWrs, Nat.shiftLeft_eq, Nat.mul_comm]
  exact Nat.or_zero _

theorem toNat_sub_writtenBits (r : Regs) : (r.bitPtr - r.writtenBits).toNat = r.bitPtr.toNat % 8 := by
  have hsub := BitVec.toNat_sub_of_le (x := r.bitPtr) (y := r.writtenBits)
    (by rw [BitVec.le_def, toNat_writtenBits]; omega)
  rw [hsub, toNat_writtenBits]
  omega

/-- The length and the code that `p_mux` takes for a word. -/
def vlcOf (cmpIdx : BitVec 3) (first : Bool) (w : Rle.Word) : BitVec 5 × BitVec 16 :=
  if first then
    if cmpIdx.toNat < 2 then ((dcRom w.size).1.setWidth 5, (dcRom w.size).2.setWidth 16)
    else ((dcCrRom w.size).1.setWidth 5, (dcCrRom w.size).2.setWidth 16)
  else if cmpIdx.toNat < 2 then acRom w.runlength w.size
  else acCrRom w.runlength w.size

def vlcBits (cmpIdx : BitVec 3) (first : Bool) (w : Rle.Word) : List Bool :=
  word (vlcOf cmpIdx first w).1.toNat (vlcOf cmpIdx first w).2.toNat

def vliBits (w : Rle.Word) : List Bool := word w.size.toNat w.amplitude.toNat

/-- The bits of the words of a block; its first word is the DC coefficient. -/
def codeBits (cmpIdx : BitVec 3) : Bool → List Rle.Word → List Bool
  | _, []          => []
  | first, w :: ws => vlcBits cmpIdx first w ++ vliBits w ++ codeBits cmpIdx false ws

theorem rom_le {t : RomTable} (h : ∀ e ∈ t, e.2.1 ≤ 16) (addr : ℕ) : (t.rom addr).1 ≤ 16 := by
  rw [RomTable.rom]
  cases hfind : t.find? fun e => e.1 = addr with
  | none => exact Nat.zero_le 16
  | some e => exact h e (List.mem_of_find?_eq_some hfind)

theorem vlcOf_le (cmpIdx : BitVec 3) (first : Bool) (w : Rle.Word) : (vlcOf cmpIdx first w).1.toNat ≤ 16 := by
  have hfour : ∀ x : BitVec 4, (x.setWidth 5).toNat ≤ 16 := fun x => by
    rw [BitVec.toNat_setWidth]
    exact Nat.le_trans (Nat.mod_le _ _) (Nat.le_of_lt x.isLt)
  have hfive : ∀ n ≤ 16, (BitVec.ofNat 5 n).toNat ≤ 16 := fun n hn => Nat.le_trans (Nat.mod_le n _) hn
  rw [vlcOf]
  split_ifs
  · exact hfour _
  · exact hfour _
  · exact hfive _ (rom_le (by decide +kernel) _)
  · exact hfive _ (rom_le (by decide +kernel) _)

end Huffman
end Hdmi2Usb
