import Hdmi2Usb.CtrlSm
import Hdmi2Usb.JpegHeader
/-!
# JpegImage — the image that the stages of the encoder write

The control starts the stages with the blocks of `CtrlSm.raster`; the run-length coder and the Huffman encoder make their
bits of them (`imageBits`), and the byte stuffer puts the bytes behind the header.  A reader that knows nothing but these
bytes finds the image (`image_decoded`).
-/
namespace Hdmi2Usb
namespace JpegImage

open CtrlSm (raster)
open Huffman (codeBits)
open JpegFile (Frame Fills bits)
open JpegHeader (InTables codeBits_block codable comps headerTables scan segments)
open JpegScan (Block blocksBits codeBlock predsAfter)
open Rle (component wordOf)

/-- A block as the stages get it: its `cmp_idx`, and its coefficients. -/
abbrev Coefs := BitVec 3 × List ℤ

def block (b : Coefs) : Block := ⟨component b.1, b.2⟩

/-- The bits that the stages make of blocks behind the DC coefficients `preds`. -/
def imageBits : (ℕ → ℤ) → List Coefs → List Bool
  | _, []          => []
  | preds, b :: bs =>
    codeBits b.1 true ((codeBlock (preds (component b.1)) b.2).map wordOf) ++ imageBits ((block b).next preds) bs

/-- Blocks of 64 coefficients whose values have words in the tables. -/
def Codable : (ℕ → ℤ) → List Coefs → Prop
  | _, []          => True
  | preds, b :: bs => (b.2.length = 64 ∧ InTables (preds (component b.1)) b.2) ∧ Codable ((block b).next preds) bs

instance decidableCodable : ∀ (preds : ℕ → ℤ) (bs : List Coefs), Decidable (Codable preds bs)
  | _, []          => isTrue trivial
  | preds, b :: bs => @instDecidableAnd _ _ _ (decidableCodable ((block b).next preds) bs)

/-! ## The order of the blocks -/

theorem map_comps (x y : ℕ) : (CtrlSm.comps x y 0).map (fun s => component s.cmpIdx) = [0, 0, 1, 2] := rfl

theorem flatMap_const {α β : Type} (l : List α) (bs : List β) : (l.flatMap fun _ => bs) = (List.replicate l.length bs).flatten := by
  rw [List.flatMap_def, List.map_const']

theorem flatten_replicate_flatten {α : Type} (m n : ℕ) (bs : List α) :
    (List.replicate m (List.replicate n bs).flatten).flatten = (List.replicate (m * n) bs).flatten := by
  induction m with
  | zero => rw [Nat.zero_mul]; rfl
  | succ m ih =>
    rw [List.replicate_succ, List.flatten_cons, ih, Nat.succ_mul, Nat.add_comm, List.replicate_add, List.flatten_append]

/-- **The control starts the blocks in the order of the file.** -/
theorem raster_order (width height : BitVec 16) :
    (raster (width, height)).map (fun s => component s.cmpIdx) = (⟨height.toNat, width.toNat, comps⟩ : Frame).order := by
  have hcolumns : ∀ y, (CtrlSm.columns (width, height) y 0).map (fun s => component s.cmpIdx) =
      (List.replicate ((width.toNat + 15) / 16) [0, 0, 1, 2]).flatten := by
    intro y
    rw [CtrlSm.columns, List.map_flatMap]
    simp only [map_comps]
    rw [flatMap_const, List.length_range', Nat.sub_zero]
  rw [raster, CtrlSm.rows, List.map_flatMap]
  simp only [hcolumns]
  rw [flatMap_const, List.length_range', Nat.sub_zero, flatten_replicate_flatten]
  rfl

/-! ## The bits -/

theorem imageBits_eq : ∀ {bs : List Coefs} {preds : ℕ → ℤ}, Codable preds bs →
    imageBits preds bs = blocksBits headerTables preds (bs.map block)
  | [], _, _         => rfl
  | b :: bs, preds, h => by
    obtain ⟨⟨hlen, hrange⟩, hrest⟩ := h
    have hne : b.2 ≠ [] := fun hnil => by
      rw [hnil] at hlen
      cases hlen
    rw [imageBits, List.map_cons, blocksBits, codeBits_block b.1 hne hrange, imageBits_eq hrest]
    rfl

theorem Codable.split : ∀ {bs : List Coefs} {preds : ℕ → ℤ}, Codable preds bs → ∀ as b cs,
    bs.map block = as ++ b :: cs → b.Codable (headerTables b.comp) (predsAfter preds as b.comp)
  | [], _, _, as, b, cs, hsplit => by
    have hlen := congrArg List.length hsplit
    rw [List.map_nil, List.length_append, List.length_cons, List.length_nil] at hlen
    omega
  | b :: bs, preds, h, [], c, cs, hsplit => by
    obtain ⟨rfl, -⟩ := List.cons.inj hsplit
    exact codable (Rle.component_lt b.1) h.1.1 h.1.2
  | b :: bs, preds, h, a :: as, c, cs, hsplit => by
    obtain ⟨rfl, hrest⟩ := List.cons.inj hsplit
    exact h.2.split as c cs hrest

/-- **The image is read from the bytes**: where the blocks come in the order of the control, and their values have words,
the header with any size and any quantiser tables, the stuffed bytes of the bits that the stages make of them, filled up
with ones, and the end marker are a file, and what a reader finds in it are the size, the tables and the blocks. -/
theorem image_decoded (height width : BitVec 16) (lum chr : List Byte) (bs : List Coefs) (data : List Byte) (pad : List Bool)
    (hlum : lum.length = 64) (hchr : chr.length = 64)
    (horder : bs.map Prod.fst = (raster (width, height)).map CtrlSm.Settings.cmpIdx) (hcodable : Codable 0 bs)
    (hbits : bits data = imageBits 0 bs ++ pad) (hpad : Fills pad) :
    JpegFile.decode (JpegFile.file (segments height width lum chr ++ [scan]) data) =
      some ⟨height.toNat, width.toNat, [some (lum.map BitVec.toNat), some (chr.map BitVec.toNat), some (chr.map BitVec.toNat)],
        bs.map block⟩ := by
  have hcomps : (bs.map block).map Block.comp = (⟨height.toNat, width.toNat, comps⟩ : Frame).order := by
    have hmap := congrArg (List.map component) horder
    rw [List.map_map, List.map_map] at hmap
    rw [← raster_order, List.map_map]
    exact hmap
  rw [imageBits_eq hcodable] at hbits
  exact JpegHeader.decode_header height width lum chr hlum hchr hcomps hbits hpad hcodable.split

/-- An image of one unit: two luminance blocks with a DC coefficient each, and two chrominance blocks. -/
theorem image_decoded_unit :
    let bs : List Coefs := [(0, 12 :: List.replicate 63 0), (1, 9 :: List.replicate 63 0), (2, List.replicate 64 0),
      (3, 0 :: 5 :: List.replicate 62 0)]
    JpegFile.decode (JpegFile.file (segments 8 16 (List.replicate 64 2) (List.replicate 64 3) ++ [scan])
        [0xb9, 0x4c, 0xa0, 0x2a, 0x9f]) =
      some ⟨8, 16, [some (List.replicate 64 2), some (List.replicate 64 3), some (List.replicate 64 3)], bs.map block⟩ := by
  intro bs
  exact image_decoded 8 16 (List.replicate 64 2) (List.replicate 64 3) bs [0xb9, 0x4c, 0xa0, 0x2a, 0x9f] (List.replicate 5 true)
    rfl rfl (by decide +kernel) (by decide +kernel) (by decide +kernel) (by decide +kernel)

end JpegImage
end Hdmi2Usb
