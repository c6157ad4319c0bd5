import Hdmi2Usb.Framebuffer
import Mathlib.Tactic.Ring
/-!
# EncoderReader — the DMA reader of the encoder (`gateware/encoder/core.py`)

`EncoderDMAReader` scans a frame in blocks of 8x8 pixels: `h` and `v` are the next word's place, and each word the DMA
takes moves them on by `burst` pixels of the scan.  At a size of multiples of 8 a frame is as many pixels as its area
(`Scanning.take`).
-/
namespace Hdmi2Usb
namespace Encoder

inductive Fsm
  | idle
  | read
deriving DecidableEq, Inhabited

structure Reader where
  fsm    : Fsm
  base   : Word
  h      : BitVec 16
  v      : BitVec 16
  /-- The storage of the registers `h_width` and `v_width`. -/
  hWidth : BitVec 16
  vWidth : BitVec 16
deriving Inhabited

/-- `done`, while `start` is not written. -/
def Reader.done (r : Reader) : Bool := r.fsm = .idle

/-- A write of 1 to `start`: `IDLE` has cleared the counters. -/
def Reader.start (r : Reader) (base : Word) : Reader :=
  if r.fsm = .idle then { r with fsm := .read, base, h := 0, v := 0 } else { r with base }

/-- The word at the sink of the DMA is taken. -/
def Reader.take (burst : BitVec 16) (r : Reader) : Reader :=
  match r.fsm with
  | .idle => r
  | .read =>
    let hNext := r.h + burst
    if hNext % 8 = 0 then
      if r.v % 8 = 7 then
        if r.hWidth - burst ≤ r.h then
          { r with h := 0, v := r.v + 1, fsm := if r.vWidth - 1 ≤ r.v then .idle else .read }
        else { r with h := hNext, v := r.v - 7 }
      else { r with h := (r.h >>> 3) <<< 3, v := r.v + 1 }
    else { r with h := hNext }

/-- The pixels of the scan before the place `h`, `v` in a frame of the given width. -/
def scanned (width h v : Nat) : Nat := v / 8 * (8 * width) + h / 8 * 64 + v % 8 * 8 + h % 8

/-- The reader is in a frame whose sides are positive multiples of 8. -/
structure Scanning (burst : Nat) (r : Reader) : Prop where
  fsm    : r.fsm = .read
  width  : r.hWidth.toNat % 8 = 0
  height : r.vWidth.toNat % 8 = 0
  h      : r.h.toNat < r.hWidth.toNat
  v      : r.v.toNat < r.vWidth.toNat
  word   : r.h.toNat % burst = 0

theorem Scanning.pos {burst : Nat} {r : Reader} (h : Scanning burst r) : 8 ≤ r.hWidth.toNat ∧ 8 ≤ r.vWidth.toNat := by
  have := h.width
  have := h.height
  have := h.h
  have := h.v
  omega

/-! ## The counters as numbers -/

theorem ofNat_toNat {burst : Nat} (hburst : burst = 4 ∨ burst = 8) : (BitVec.ofNat 16 burst).toNat = burst := by
  rcases hburst with rfl | rfl <;> rfl

theorem mod8_eq_iff (x : BitVec 16) (n : Nat) (hn : n < 8) : x % 8 = BitVec.ofNat 16 n ↔ x.toNat % 8 = n := by
  have h8 : (8 : BitVec 16).toNat = 8 := rfl
  rw [← BitVec.toNat_inj, BitVec.toNat_umod, BitVec.toNat_ofNat, h8]
  omega

/-- The next word in the line of a block. -/
theorem Scanning.toNat_next {burst : Nat} (hburst : burst = 4 ∨ burst = 8) {r : Reader} (h : Scanning burst r) :
    (r.h + BitVec.ofNat 16 burst).toNat = r.h.toNat + burst ∧ r.h.toNat + burst ≤ r.hWidth.toNat := by
  have hw := h.width
  have hlt := h.h
  have hword := h.word
  have hle : r.h.toNat + burst ≤ r.hWidth.toNat := by rcases hburst with rfl | rfl <;> omega
  have := r.hWidth.isLt
  rw [BitVec.toNat_add, ofNat_toNat hburst]
  omega

/-- The two comparisons with the last word of a line and the last line of a frame. -/
theorem Scanning.lastWord_iff {burst : Nat} (hburst : burst = 4 ∨ burst = 8) {r : Reader} (h : Scanning burst r) :
    r.hWidth - BitVec.ofNat 16 burst ≤ r.h ↔ r.hWidth.toNat ≤ r.h.toNat + burst := by
  have hpos := h.pos.1
  have := r.hWidth.isLt
  rw [BitVec.le_def, BitVec.toNat_sub, ofNat_toNat hburst]
  rcases hburst with rfl | rfl <;> omega

theorem Scanning.lastLine_iff {burst : Nat} {r : Reader} (h : Scanning burst r) :
    r.vWidth - 1 ≤ r.v ↔ r.vWidth.toNat ≤ r.v.toNat + 1 := by
  have hpos := h.pos.2
  have h1 : (1 : BitVec 16).toNat = 1 := rfl
  have := r.vWidth.isLt
  rw [BitVec.le_def, BitVec.toNat_sub, h1]
  omega

/-! ## The scan as numbers -/

/-- The lines of blocks before the last one leave room for it. -/
theorem scanned_lt {width height h v : Nat} (hw : width % 8 = 0) (hh : height % 8 = 0) (hh' : h < width)
    (hv : v < height) : scanned width h v < width * height := by
  obtain ⟨w, rfl⟩ := Nat.dvd_of_mod_eq_zero hw
  obtain ⟨k, rfl⟩ := Nat.dvd_of_mod_eq_zero hh
  have hrow : v / 8 + 1 ≤ k := by omega
  have hrows := Nat.mul_le_mul_right (8 * (8 * w)) hrow
  have harea : 8 * w * (8 * k) = k * (8 * (8 * w)) := by ring
  rw [scanned, harea]
  rw [Nat.add_mul] at hrows
  omega

theorem scanned_nextWord {width h v burst : Nat} (hb : burst = 4 ∨ burst = 8) (hword : h % burst = 0)
    (hin : (h + burst) % 8 ≠ 0) : scanned width (h + burst) v = scanned width h v + burst := by
  unfold scanned
  rcases hb with rfl | rfl <;> omega

theorem scanned_nextLine {width h v burst : Nat} (hb : burst = 4 ∨ burst = 8) (hword : h % burst = 0)
    (hend : (h + burst) % 8 = 0) (hv : v % 8 ≠ 7) : scanned width (h / 8 * 8) (v + 1) = scanned width h v + burst := by
  have hrow : (v + 1) / 8 = v / 8 := by omega
  unfold scanned
  rw [hrow]
  rcases hb with rfl | rfl <;> omega

theorem scanned_nextBlock {width h v burst : Nat} (hb : burst = 4 ∨ burst = 8) (hword : h % burst = 0)
    (hend : (h + burst) % 8 = 0) (hv : v % 8 = 7) : scanned width (h + burst) (v - 7) = scanned width h v + burst := by
  have hrow : (v - 7) / 8 = v / 8 := by omega
  unfold scanned
  rw [hrow]
  rcases hb with rfl | rfl <;> omega

theorem scanned_nextRow {width h v burst : Nat} (hb : burst = 4 ∨ burst = 8) (hw : width % 8 = 0)
    (hlast : h + burst = width) (hword : h % burst = 0) (hv : v % 8 = 7) :
    scanned width 0 (v + 1) = scanned width h v + burst := by
  have hrow : (v + 1) / 8 = v / 8 + 1 := by omega
  unfold scanned
  rw [hrow, Nat.add_mul]
  rcases hb with rfl | rfl <;> omega

theorem scanned_end {width height : Nat} (hw : width % 8 = 0) (hh : height % 8 = 0) :
    scanned width 0 height = width * height := by
  obtain ⟨w, rfl⟩ := Nat.dvd_of_mod_eq_zero hw
  obtain ⟨k, rfl⟩ := Nat.dvd_of_mod_eq_zero hh
  have hk : 8 * k / 8 = k := by omega
  rw [scanned, hk, Nat.mul_mod_right]
  ring

/-! ## A word of the scan -/

/-- `t` is one word further in the frame than `r`. -/
def Ahead (burst : Nat) (r t : Reader) : Prop :=
  Scanning burst t ∧
    scanned t.hWidth.toNat t.h.toNat t.v.toNat = scanned r.hWidth.toNat r.h.toNat r.v.toNat + burst

section Take

variable {burst : Nat} {r : Reader}

theorem Scanning.toNat_nextLine (h : Scanning burst r) : (r.v + 1).toNat = r.v.toNat + 1 := by
  have hv := h.v
  have := r.vWidth.isLt
  have h1 : (1 : BitVec 16).toNat = 1 := rfl
  rw [BitVec.toNat_add, h1]
  omega

theorem Scanning.nextWord (h : Scanning burst r) (hburst : burst = 4 ∨ burst = 8)
    (hend : (r.h.toNat + burst) % 8 ≠ 0) : Ahead burst r { r with h := r.h + BitVec.ofNat 16 burst } := by
  obtain ⟨hnext, hle⟩ := h.toNat_next hburst
  have hw := h.width
  refine ⟨⟨h.fsm, hw, h.height, ?_, h.v, ?_⟩, ?_⟩
  · show (r.h + BitVec.ofNat 16 burst).toNat < r.hWidth.toNat
    omega
  · show (r.h + BitVec.ofNat 16 burst).toNat % burst = 0
    rw [hnext, Nat.add_mod_right, h.word]
  · show scanned _ (r.h + BitVec.ofNat 16 burst).toNat _ = _
    rw [hnext, scanned_nextWord hburst h.word hend]

/-- The next line of the block. -/
theorem Scanning.nextLine (h : Scanning burst r) (hburst : burst = 4 ∨ burst = 8)
    (hend : (r.h.toNat + burst) % 8 = 0) (hv7 : r.v.toNat % 8 ≠ 7) :
    Ahead burst r { r with h := (r.h >>> 3) <<< 3, v := r.v + 1 } := by
  have hv1 := h.toNat_nextLine
  have hclr : ((r.h >>> 3) <<< 3).toNat = r.h.toNat / 8 * 8 := by
    have := r.h.isLt
    rw [BitVec.toNat_shiftLeft, BitVec.toNat_ushiftRight, Nat.shiftLeft_eq, Nat.shiftRight_eq_div_pow]
    omega
  have hlt := h.h
  have hv := h.v
  have hh := h.height
  refine ⟨⟨h.fsm, h.width, hh, ?_, ?_, ?_⟩, ?_⟩
  · show ((r.h >>> 3) <<< 3).toNat < r.hWidth.toNat
    omega
  · show (r.v + 1).toNat < r.vWidth.toNat
    omega
  · show ((r.h >>> 3) <<< 3).toNat % burst = 0
    rw [hclr]
    rcases hburst with rfl | rfl <;> omega
  · show scanned _ ((r.h >>> 3) <<< 3).toNat (r.v + 1).toNat = _
    rw [hclr, hv1, scanned_nextLine hburst h.word hend hv7]

/-- The first line of the next block in the row. -/
theorem Scanning.nextBlock (h : Scanning burst r) (hburst : burst = 4 ∨ burst = 8)
    (hend : (r.h.toNat + burst) % 8 = 0) (hv7 : r.v.toNat % 8 = 7) (hlast : ¬ r.hWidth.toNat ≤ r.h.toNat + burst) :
    Ahead burst r { r with h := r.h + BitVec.ofNat 16 burst, v := r.v - 7 } := by
  obtain ⟨hnext, -⟩ := h.toNat_next hburst
  have hv := h.v
  have hv' : (r.v - 7).toNat = r.v.toNat - 7 := by
    have h7 : (7 : BitVec 16).toNat = 7 := rfl
    have := r.v.isLt
    rw [BitVec.toNat_sub, h7]
    omega
  refine ⟨⟨h.fsm, h.width, h.height, ?_, ?_, ?_⟩, ?_⟩
  · show (r.h + BitVec.ofNat 16 burst).toNat < r.hWidth.toNat
    omega
  · show (r.v - 7).toNat < r.vWidth.toNat
    omega
  · show (r.h + BitVec.ofNat 16 burst).toNat % burst = 0
    rw [hnext, Nat.add_mod_right, h.word]
  · show scanned _ (r.h + BitVec.ofNat 16 burst).toNat (r.v - 7).toNat = _
    rw [hnext, hv', scanned_nextBlock hburst h.word hend hv7]

/-- The first block of the next row. -/
theorem Scanning.nextRow (h : Scanning burst r) (hburst : burst = 4 ∨ burst = 8) (hv7 : r.v.toNat % 8 = 7)
    (hlast : r.h.toNat + burst = r.hWidth.toNat) (hbottom : ¬ r.vWidth.toNat ≤ r.v.toNat + 1) :
    Ahead burst r { r with h := 0, v := r.v + 1 } := by
  have hv1 := h.toNat_nextLine
  refine ⟨⟨h.fsm, h.width, h.height, ?_, ?_, ?_⟩, ?_⟩
  · show 0 < r.hWidth.toNat
    have := h.pos.1
    omega
  · show (r.v + 1).toNat < r.vWidth.toNat
    omega
  · show (0 : BitVec 16).toNat % burst = 0
    exact Nat.zero_mod _
  · show scanned _ (0 : BitVec 16).toNat (r.v + 1).toNat = _
    rw [hv1]
    exact scanned_nextRow hburst h.width hlast h.word hv7

/-- **One word of the scan**: the reader is `burst` pixels further in its frame, or at the end of it. -/
theorem Scanning.take (hburst : burst = 4 ∨ burst = 8) (h : Scanning burst r) :
    let t := r.take (BitVec.ofNat 16 burst)
    t.hWidth = r.hWidth ∧ t.vWidth = r.vWidth ∧ t.base = r.base ∧
      (Ahead burst r t ∨
        (t.fsm = .idle ∧ scanned r.hWidth.toNat r.h.toNat r.v.toNat + burst = r.hWidth.toNat * r.vWidth.toNat)) := by
  obtain ⟨hnext, hle⟩ := h.toNat_next hburst
  have hend : (r.h + BitVec.ofNat 16 burst) % 8 = 0 ↔ (r.h.toNat + burst) % 8 = 0 := by
    rw [← hnext]
    exact mod8_eq_iff _ 0 (by decide)
  have hv7 : r.v % 8 = 7 ↔ r.v.toNat % 8 = 7 := mod8_eq_iff _ 7 (by decide)
  intro t
  by_cases hw : (r.h.toNat + burst) % 8 = 0
  case neg =>
    have ht : t = { r with h := r.h + BitVec.ofNat 16 burst } := by
      simp only [t, Reader.take, h.fsm, if_neg (mt hend.1 hw)]
    rw [ht]
    exact ⟨rfl, rfl, rfl, .inl (h.nextWord hburst hw)⟩
  by_cases hl : r.v.toNat % 8 = 7
  case neg =>
    have ht : t = { r with h := (r.h >>> 3) <<< 3, v := r.v + 1 } := by
      simp only [t, Reader.take, h.fsm, if_pos (hend.2 hw), if_neg (mt hv7.1 hl)]
    rw [ht]
    exact ⟨rfl, rfl, rfl, .inl (h.nextLine hburst hw hl)⟩
  by_cases hlast : r.hWidth.toNat ≤ r.h.toNat + burst
  case neg =>
    have ht : t = { r with h := r.h + BitVec.ofNat 16 burst, v := r.v - 7 } := by
      simp only [t, Reader.take, h.fsm, if_pos (hend.2 hw), if_pos (hv7.2 hl), if_neg (mt (h.lastWord_iff hburst).1 hlast)]
    rw [ht]
    exact ⟨rfl, rfl, rfl, .inl (h.nextBlock hburst hw hl hlast)⟩
  have ht : t = { r with h := 0, v := r.v + 1, fsm := if r.vWidth - 1 ≤ r.v then .idle else .read } := by
    simp only [t, Reader.take, h.fsm, if_pos (hend.2 hw), if_pos (hv7.2 hl), if_pos ((h.lastWord_iff hburst).2 hlast)]
  have hwide : r.h.toNat + burst = r.hWidth.toNat := by omega
  rw [ht]
  refine ⟨rfl, rfl, rfl, ?_⟩
  by_cases hbottom : r.vWidth.toNat ≤ r.v.toNat + 1
  · have hv := h.v
    refine .inr ⟨if_pos (h.lastLine_iff.2 hbottom), ?_⟩
    rw [← scanned_nextRow hburst h.width hwide h.word hl, show r.v.toNat + 1 = r.vWidth.toNat by omega,
      scanned_end h.width h.height]
  · have hahead := h.nextRow hburst hl hwide hbottom
    rw [if_neg (mt h.lastLine_iff.1 hbottom), ← h.fsm]
    exact .inl hahead

end Take

/-- A frame begins at the first pixel of the scan. -/
theorem Scanning.start {burst : Nat} {r : Reader} (base : Word) (hidle : r.fsm = .idle) (hw : r.hWidth.toNat % 8 = 0)
    (hh : r.vWidth.toNat % 8 = 0) (hw0 : 0 < r.hWidth.toNat) (hh0 : 0 < r.vWidth.toNat) :
    Scanning burst (r.start base) ∧
      scanned (r.start base).hWidth.toNat (r.start base).h.toNat (r.start base).v.toNat = 0 := by
  have heq : r.start base = { r with fsm := .read, base, h := 0, v := 0 } := if_pos hidle
  rw [heq]
  exact ⟨⟨rfl, hw, hh, hw0, hh0, Nat.zero_mod _⟩, by simp [scanned]⟩

end Encoder
end Hdmi2Usb
