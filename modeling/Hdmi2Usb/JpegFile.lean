import Hdmi2Usb.JpegScan
import Hdmi2Usb.Stuffing
import Mathlib.Data.BitVec
/-!
# JpegFile — what the bytes of a JPEG file stand for

A file is a start marker, segments of which the last one begins the scan, the entropy-coded data with its stuffing, and an
end marker.  `decode` is given the bytes and nothing else: the size of the image and the tables come from the segments.  It
reads back what a file was made of (`decode_file`).
-/
namespace Hdmi2Usb
namespace JpegFile

open JpegScan (Block Tables blocksBits predsAfter readBlocks readBlocks_append)
open PrefixCodes (Table PrefixFree canonical)
open Stuffing (stuff unstuff unstuff_stuff)

/-- The markers of this format behind their `0xff`: start and end, frame, Huffman table, quantiser table, and scan. -/
def soi : BitVec 8 := 0xd8
def eoi : BitVec 8 := 0xd9
def sof : BitVec 8 := 0xc0
def dht : BitVec 8 := 0xc4
def dqt : BitVec 8 := 0xdb
def sos : BitVec 8 := 0xda

/-- A number of two bytes, the high one first. -/
def number (hi lo : BitVec 8) : ℕ := 256 * hi.toNat + lo.toNat

/-- The bits of a row of bytes, the most significant of each first. -/
def bits (bytes : List (BitVec 8)) : List Bool := bytes.flatMap fun b => PrefixCodes.word 8 b.toNat

/-! ## Segments -/

structure Segment where
  marker : BitVec 8
  data   : List (BitVec 8)

/-- The length of a segment counts its own two bytes. -/
def Segment.bytes (s : Segment) : List (BitVec 8) :=
  0xff :: s.marker :: BitVec.ofNat 8 ((s.data.length + 2) / 256) :: BitVec.ofNat 8 (s.data.length + 2) :: s.data

def readSegment : List (BitVec 8) → Option (Segment × List (BitVec 8))
  | e :: m :: hi :: lo :: rest =>
    if e = 0xff ∧ 2 ≤ number hi lo ∧ number hi lo ≤ rest.length + 2 then
      some (⟨m, rest.take (number hi lo - 2)⟩, rest.drop (number hi lo - 2))
    else none
  | _ => none

/-- At most `n` segments, up to that of the scan. -/
def readSegments : ℕ → List (BitVec 8) → Option (List Segment × List (BitVec 8))
  | 0, _         => none
  | n + 1, bytes =>
    (readSegment bytes).bind fun p =>
      if p.1.marker = sos then some ([p.1], p.2) else (readSegments n p.2).map fun q => (p.1 :: q.1, q.2)

/-- Segments of which only the last one begins a scan, and whose lengths fit. -/
structure Headed (segs : List Segment) (scan : Segment) : Prop where
  marker : scan.marker = sos
  others : ∀ s ∈ segs, s.marker ≠ sos
  length : ∀ s ∈ segs ++ [scan], s.data.length + 2 < 65536

/-! ## The frame and the tables -/

/-- A component of the frame: its name, its blocks in a unit across and down, and its quantiser table. -/
structure Comp where
  name  : BitVec 8
  horiz : ℕ
  vert  : ℕ
  quant : BitVec 8

structure Frame where
  height : ℕ
  width  : ℕ
  comps  : List Comp

def readComps : List (BitVec 8) → Option (List Comp)
  | []                  => some []
  | c :: hv :: q :: rest => (readComps rest).map (⟨c, hv.toNat / 16, hv.toNat % 16, q⟩ :: ·)
  | _                   => none

/-- A frame of samples of eight bits. -/
def readFrame : List (BitVec 8) → Option Frame
  | prec :: hy :: ly :: hx :: lx :: n :: rest =>
    (readComps rest).bind fun cs =>
      if prec = 8 ∧ cs.length = n.toNat then some ⟨number hy ly, number hx lx, cs⟩ else none
  | _ => none

/-- The names of the Huffman tables of each component of the scan, that of the DC coefficients and that of the others. -/
def readScan (cs : List Comp) : List (BitVec 8) → Option (List (BitVec 8 × BitVec 8))
  | n :: rest =>
    let names := (List.range n.toNat).filterMap fun k =>
      rest[2 * k + 1]?.map fun t => (BitVec.ofNat 8 (t.toNat / 16), BitVec.ofNat 8 (16 + t.toNat % 16))
    if (List.range n.toNat).map (fun k => rest[2 * k]?) = cs.map (fun c => some c.name) ∧
        rest.drop (2 * n.toNat) = [0, 63, 0] then some names
    else none
  | _ => none

/-- A Huffman table: its name, and its words from the numbers of the words of each length. -/
def readTable : List (BitVec 8) → Option (BitVec 8 × Table ℕ)
  | name :: rest =>
    if rest.length = 16 + ((rest.take 16).map BitVec.toNat).sum then
      some (name, canonical ((rest.take 16).map BitVec.toNat) ((rest.drop 16).map BitVec.toNat))
    else none
  | _ => none

/-- A quantiser table of 64 bytes. -/
def readQuant : List (BitVec 8) → Option (BitVec 8 × List ℕ)
  | name :: rest => if rest.length = 64 then some (name, rest.map BitVec.toNat) else none
  | _            => none

/-- What the segments with a marker say about a name. -/
def named {α : Type} (read : List (BitVec 8) → Option (BitVec 8 × α)) (segs : List Segment) (marker name : BitVec 8) :
    Option α :=
  ((segs.filter fun s => s.marker = marker).filterMap fun s => read s.data).lookup name

def tables (segs : List Segment) (names : List (BitVec 8 × BitVec 8)) (c : ℕ) : Tables :=
  match names[c]? with
  | some (dc, ac) => ⟨(named readTable segs dht dc).getD [], (named readTable segs dht ac).getD []⟩
  | none          => ⟨[], []⟩

/-! ## The decoder -/

/-- The components of the blocks of a unit. -/
def Frame.unit (f : Frame) : List ℕ := f.comps.zipIdx.flatMap fun p => List.replicate (p.1.horiz * p.1.vert) p.2

/-- The number of the units across and down. -/
def Frame.across (f : Frame) : ℕ :=
  let n := 8 * (f.comps.map Comp.horiz).foldl max 1
  (f.width + n - 1) / n

def Frame.down (f : Frame) : ℕ :=
  let n := 8 * (f.comps.map Comp.vert).foldl max 1
  (f.height + n - 1) / n

/-- The components of the blocks of the scan. -/
def Frame.order (f : Frame) : List ℕ := (List.replicate (f.down * f.across) f.unit).flatten

/-- An image: its size, the quantiser tables of its components, and its blocks. -/
structure Image where
  height : ℕ
  width  : ℕ
  quant  : List (Option (List ℕ))
  blocks : List Block

/-- The bits behind the last block fill up its byte. -/
def Fills (pad : List Bool) : Prop := pad.length < 8 ∧ ∀ b ∈ pad, b = true

instance (pad : List Bool) : Decidable (Fills pad) := inferInstanceAs (Decidable (_ ∧ _))

def decodeScan (segs : List Segment) (f : Frame) (names : List (BitVec 8 × BitVec 8)) (scan : List (BitVec 8)) :
    Option Image :=
  let data := unstuff 0xff 0 scan
  if data.2 = [0xff, eoi] then
    (readBlocks (tables segs names) 0 f.order (bits data.1)).bind fun p =>
      if Fills p.2 then
        some ⟨f.height, f.width, f.comps.map fun c => named readQuant segs dqt c.quant, p.1⟩
      else none
  else none

def decode : List (BitVec 8) → Option Image
  | e :: m :: rest =>
    if e = 0xff ∧ m = soi then
      (readSegments rest.length rest).bind fun p =>
        (p.1.find? fun s => s.marker = sof).bind fun frame =>
          (readFrame frame.data).bind fun f =>
            (p.1.find? fun s => s.marker = sos).bind fun scan =>
              (readScan f.comps scan.data).bind fun names => decodeScan p.1 f names p.2
    else none
  | _ => none

/-! ## Reading a file back -/

/-- The bytes of a file. -/
def file (segs : List Segment) (data : List (BitVec 8)) : List (BitVec 8) :=
  0xff :: soi :: (segs.flatMap Segment.bytes ++ (stuff 0xff 0 data ++ [0xff, eoi]))

theorem number_length {n : ℕ} (h : n < 65536) : number (BitVec.ofNat 8 (n / 256)) (BitVec.ofNat 8 n) = n := by
  rw [number, BitVec.toNat_ofNat, BitVec.toNat_ofNat, Nat.mod_eq_of_lt (by omega)]
  omega

theorem readSegment_append {s : Segment} (h : s.data.length + 2 < 65536) (rest : List (BitVec 8)) :
    readSegment (s.bytes ++ rest) = some (s, rest) := by
  simp only [Segment.bytes, List.cons_append, readSegment, number_length h, Nat.add_sub_cancel, List.length_append]
  rw [if_pos ⟨trivial, by omega, by omega⟩, List.take_left, List.drop_left]

theorem readSegments_append {scan : Segment} (rest : List (BitVec 8)) : ∀ {segs : List Segment} {n : ℕ},
    Headed segs scan → segs.length < n →
      readSegments n ((segs ++ [scan]).flatMap Segment.bytes ++ rest) = some (segs ++ [scan], rest)
  | [], n + 1, h, _ => by
    rw [List.nil_append, List.flatMap_singleton, readSegments,
      readSegment_append (h.length scan (List.mem_singleton_self scan)), Option.bind_some, if_pos h.marker]
  | s :: segs, n + 1, h, hlen => by
    have hrest : Headed segs scan :=
      ⟨h.marker, fun t ht => h.others t (List.mem_cons_of_mem s ht), fun t ht => h.length t (List.mem_cons_of_mem s ht)⟩
    rw [List.cons_append, List.flatMap_cons, List.append_assoc, readSegments, readSegment_append (h.length s List.mem_cons_self),
      Option.bind_some, if_neg (h.others s List.mem_cons_self), readSegments_append rest hrest (Nat.lt_of_succ_lt_succ hlen)]
    rfl

theorem length_le_bytes : ∀ segs : List Segment, segs.length ≤ (segs.flatMap Segment.bytes).length
  | []        => Nat.zero_le _
  | s :: segs => by
    have hrest := length_le_bytes segs
    have hseg : 1 ≤ s.bytes.length := by
      rw [Segment.bytes, List.length_cons]
      omega
    rw [List.flatMap_cons, List.length_append, List.length_cons]
    omega

/-- **A file is read back**: the size, the quantiser tables, and the blocks. -/
theorem decode_file {segs : List Segment} {scan frame : Segment} {f : Frame} {names : List (BitVec 8 × BitVec 8)}
    {bs : List Block} {data : List (BitVec 8)} {pad : List Bool} (hsegs : Headed segs scan)
    (hframe : segs.find? (fun s => s.marker = sof) = some frame) (hf : readFrame frame.data = some f)
    (hscan : readScan f.comps scan.data = some names)
    (hfree : ∀ c, PrefixFree (tables (segs ++ [scan]) names c).dc ∧ PrefixFree (tables (segs ++ [scan]) names c).ac)
    (horder : bs.map Block.comp = f.order)
    (hbits : bits data = blocksBits (tables (segs ++ [scan]) names) 0 bs ++ pad) (hpad : Fills pad)
    (hcodable : ∀ as b cs, bs = as ++ b :: cs →
      b.Codable (tables (segs ++ [scan]) names b.comp) (predsAfter 0 as b.comp)) :
    decode (file (segs ++ [scan]) data) =
      some ⟨f.height, f.width, f.comps.map fun c => named readQuant (segs ++ [scan]) dqt c.quant, bs⟩ := by
  have hlen : segs.length < ((segs ++ [scan]).flatMap Segment.bytes ++ (stuff 0xff 0 data ++ [0xff, eoi])).length := by
    have hle := length_le_bytes (segs ++ [scan])
    rw [List.length_append, List.length_singleton] at hle
    rw [List.length_append]
    omega
  have hread := readSegments_append (stuff 0xff 0 data ++ [0xff, eoi]) hsegs hlen
  have hfirst : (segs ++ [scan]).find? (fun s => s.marker = sof) = some frame := by rw [List.find?_append, hframe]; rfl
  have hlast : (segs ++ [scan]).find? (fun s => s.marker = sos) = some scan := by
    have hnone : segs.find? (fun s => s.marker = sos) = none :=
      List.find?_eq_none.2 fun s hs hm => hsegs.others s hs (of_decide_eq_true hm)
    rw [List.find?_append, hnone, Option.none_or, List.find?_singleton, hsegs.marker]
    rfl
  have hdata : unstuff 0xff 0 (stuff 0xff 0 data ++ [0xff, eoi]) = (data, [0xff, eoi]) :=
    unstuff_stuff (by decide) [] data
  have hblocks := readBlocks_append hfree bs 0 pad hcodable
  rw [horder, ← hbits] at hblocks
  rw [file, decode, if_pos ⟨rfl, rfl⟩, hread, Option.bind_some, hfirst, Option.bind_some, hf, Option.bind_some, hlast,
    Option.bind_some, hscan, Option.bind_some, decodeScan, hdata, if_pos rfl, hblocks, Option.bind_some, if_pos hpad]

end JpegFile
end Hdmi2Usb
