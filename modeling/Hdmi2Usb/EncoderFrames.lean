import Hdmi2Usb.EncoderReader
import Hdmi2Usb.TimingCoherence
/-!
# EncoderFrames — the frames that the JPEG images are made from

`encoder_service` starts the DMA reader whenever it is done and the JPEG core whenever it is done and a picture is due,
each at the size of the mode at that time.  Between them is a queue, so the images take the frames in turn; but the reader
may be a frame ahead, and a mode change in between gives the two sides different sizes.  Where the sizes are multiples
of 8 and the ones of a frame and its image agree, every image is one whole frame (`fitting_whole`).
-/
namespace Hdmi2Usb
namespace Encoder

open Processor
open Runs (AllSteps AllStates)

/-- A pixel of the stream, by the place it was read from. -/
structure Pixel where
  base   : Word
  stride : BitVec 16
  x      : BitVec 16
  y      : BitVec 16
deriving DecidableEq

/-- A frame the reader was started for, with the pixels it has read. -/
structure Frame where
  base   : Word
  width  : BitVec 16
  height : BitVec 16
  pixels : List Pixel

/-- An image the JPEG core was started for, with the pixels it has taken. -/
structure Image where
  width  : BitVec 16
  height : BitVec 16
  pixels : List Pixel

def Frame.area (f : Frame) : Nat := f.width.toNat * f.height.toNat

def Image.area (i : Image) : Nat := i.width.toNat * i.height.toNat

structure System where
  proc           : Processor.State
  encoderEnabled : Bool
  canStart       : Bool
  frameCnt       : Nat
  encoderFps     : Nat
  reader         : Reader
  /-- The pixels between reader and core, the oldest first. -/
  queue          : List Pixel
  /-- Bit 0 of the core's status register. -/
  busy           : Bool
  /-- The newest first. -/
  frames         : List Frame
  images         : List Image

/-! ## The firmware -/

/-- The size register: both `short`s are extended before they are put together. -/
def imageSize (resx resy : BitVec 16) : Word := resx.signExtend 32 <<< 16 ||| resy.signExtend 32

def encoderStart (resx resy : BitVec 16) (s : System) : System :=
  let size := imageSize resx resy
  { s with busy := true, images := ⟨size.extractLsb' 16 16, size.extractLsb' 0 16, []⟩ :: s.images }

def encoderDone (s : System) : Bool := !s.busy

/-- `encoder_reader_h_width`, `encoder_reader_v_width` and `encoder_reader_start`. -/
def startReader (hWidth vWidth : BitVec 16) (s : System) : System :=
  { s with reader := { s.reader with hWidth, vWidth }.start s.proc.encoderBase
           frames := ⟨s.proc.encoderBase, hWidth, vWidth, []⟩ :: s.frames }

/-- `encoder_service`, and whether its two periods have passed. -/
def encoderService (elapsed fpsElapsed : Bool) (s : System) : System :=
  if s.encoderEnabled then
    let s := if elapsed then { s with canStart := true } else s
    let s :=
      if s.canStart ∧ encoderDone s then
        { encoderStart (s.proc.hActive.setWidth 16) (s.proc.vActive.setWidth 16) s with
          canStart := false, frameCnt := s.frameCnt + 1 }
      else s
    let s :=
      if s.reader.done then startReader (s.proc.hActive.setWidth 16) (s.proc.vActive.setWidth 16) s else s
    if fpsElapsed then { s with encoderFps := s.frameCnt, frameCnt := 0 } else s
  else s

/-! ## Reader and core -/

/-- The pixels of the word at the sink of the DMA. -/
def word (burst : Nat) (r : Reader) : List Pixel :=
  (List.range burst).map fun i => ⟨r.base, r.hWidth, r.h + BitVec.ofNat 16 i, r.v⟩

def read (burst : Nat) (s : System) : System :=
  match s.reader.fsm, s.frames with
  | .read, f :: fs =>
    { s with reader := s.reader.take (BitVec.ofNat 16 burst), queue := s.queue ++ word burst s.reader
             frames := { f with pixels := f.pixels ++ word burst s.reader } :: fs }
  | _, _ => s

/-- The core takes a pixel; it takes as many as its image has. -/
def consume (s : System) : System :=
  match s.busy, s.images, s.queue with
  | true, i :: is, px :: queue =>
    if i.pixels.length < i.area then { s with queue, images := { i with pixels := i.pixels ++ [px] } :: is } else s
  | _, _, _ => s

def finish (s : System) : System :=
  match s.images with
  | []     => s
  | i :: _ => if i.pixels.length = i.area then { s with busy := false } else s

inductive Event
  | service (elapsed fpsElapsed : Bool)
  /-- `processor_start`. -/
  | start (env : Env) (mode : Int)
  /-- `processor_update`. -/
  | update (env : Env)
  /-- `hdmi_inX_isr`, with what the hardware left in the slots of the input: a frame may be complete in one. -/
  | isr (x : Fin 2) (slots : Fin 2 → HdmiIn.DmaSlot)
  | enable (enable : Bool)
  | read
  | consume
  | finish

variable (p : Platform) (burst : Nat)

def step (s : System) : Event → System
  | .service elapsed fpsElapsed => encoderService elapsed fpsElapsed s
  | .start env mode             => { s with proc := processorStart p env mode s.proc }
  | .update env                 => { s with proc := processorUpdate p env s.proc }
  | .isr x slots                =>
    { s with proc := s.proc.mapIn p fun k i =>
               if k = x then { i with video := HdmiIn.isr k { i.video with dmaSlot := slots } } else i }
  | .enable enable              => { s with encoderEnabled := enable }
  | .read                       => read burst s
  | .consume                    => consume s
  | .finish                     => finish s

/-- Both sides at rest, and nothing between them. -/
def initial (proc : Processor.State) : System where
  proc           := proc
  encoderEnabled := false
  canStart       := false
  frameCnt       := 0
  encoderFps     := 0
  reader         := default
  queue          := []
  busy           := false
  frames         := []
  images         := []

/-! ## Whole frames -/

/-- The image is made from the frame: of its size and from its pixels from the first one on, and all of them at the
end. -/
structure FromFrame (f : Frame) (i : Image) : Prop where
  width  : i.width = f.width
  height : i.height = f.height
  pixels : i.pixels <+: f.pixels
  whole  : i.pixels.length = i.area → i.pixels = f.pixels
  base   : ∀ px ∈ f.pixels, px.base = f.base ∧ px.stride = f.width

/-- Every image is made from its own frame: the first from the first, the second from the second. -/
def Whole (s : System) : Prop :=
  ∃ (ahead : List Frame) (made : List (Frame × Image)), s.frames = ahead ++ made.map Prod.fst ∧
    s.images = made.map Prod.snd ∧ ∀ m ∈ made, FromFrame m.1 m.2

/-- Both sides are positive multiples of 8, and the lines fit a `short`. -/
def Blocks (width height : BitVec 16) : Prop :=
  width.toNat % 8 = 0 ∧ 0 < width.toNat ∧ height.toNat % 8 = 0 ∧ 0 < height.toNat ∧ height.toNat < 2 ^ 15

/-- A service starts either side at a size of whole blocks, and the core at that of the frame it will get, if the reader
has begun it. -/
def Fitting (s : System) : Event → Prop
  | .service elapsed _ => s.encoderEnabled = true →
      let width := s.proc.hActive.setWidth 16
      let height := s.proc.vActive.setWidth 16
      (s.reader.done = true → Blocks width height) ∧
        ((s.canStart || elapsed) = true → encoderDone s = true → Blocks width height ∧
          ∀ f ∈ s.frames.reverse[s.images.length]?, f.width = width ∧ f.height = height)
  | _ => True

instance (width height : BitVec 16) : Decidable (Blocks width height) := inferInstanceAs (Decidable (_ ∧ _ ∧ _ ∧ _ ∧ _))

instance (s : System) : (e : Event) → Decidable (Fitting s e)
  | .service _ _ => by
    unfold Fitting
    infer_instance
  | .start _ _ | .update _ | .isr _ _ | .enable _ | .read | .consume | .finish => isTrue trivial

/-! ## The size register -/

theorem imageSize_of_short {resx resy : BitVec 16} (h : resy.toNat < 2 ^ 15) :
    (imageSize resx resy).extractLsb' 16 16 = resx ∧ (imageSize resx resy).extractLsb' 0 16 = resy := by
  have hmsb : resy.msb = false := by
    rw [BitVec.msb_eq_false_iff_two_mul_lt]
    omega
  have hext : resy.signExtend 32 = resy.setWidth 32 := BitVec.signExtend_eq_setWidth_of_msb_false hmsb
  constructor
  · apply BitVec.eq_of_getLsbD_eq
    intro i hi
    simp [imageSize, hext, hi, BitVec.getElem_signExtend, show 16 + i < 32 by omega]
  · apply BitVec.eq_of_getLsbD_eq
    intro i hi
    simp [imageSize, hext, hi, show i < 32 by omega]

/-! ## The invariant -/

/-- The pixels of frames, the oldest first. -/
def data : List Frame → List Pixel
  | []      => []
  | f :: fs => data fs ++ f.pixels

def Frame.Complete (f : Frame) : Prop := f.pixels.length = f.area

/-- The reader is idle behind complete frames, or at its place in the newest one. -/
def AtReader (burst : Nat) (r : Reader) (frames : List Frame) : Prop :=
  (r.fsm = .idle ∧ ∀ f ∈ frames.head?, f.Complete) ∨
    ∃ f fs, frames = f :: fs ∧ Scanning burst r ∧ r.hWidth = f.width ∧ r.vWidth = f.height ∧ r.base = f.base ∧
      f.pixels.length = scanned r.hWidth.toNat r.h.toNat r.v.toNat

/-- The images are made from the older frames in turn; the queue is what the newest image has left of its frame, and the
frames ahead. -/
structure Linked (burst : Nat) (s : System) (ahead : List Frame) (made : List (Frame × Image)) : Prop where
  frames  : s.frames = ahead ++ made.map Prod.fst
  images  : s.images = made.map Prod.snd
  blocks  : ∀ f ∈ s.frames, Blocks f.width f.height
  stamped : ∀ f ∈ s.frames, ∀ px ∈ f.pixels, px.base = f.base ∧ px.stride = f.width
  older   : ∀ f ∈ s.frames.tail, f.Complete
  reader  : AtReader burst s.reader s.frames
  sizes   : ∀ m ∈ made, m.2.width = m.1.width ∧ m.2.height = m.1.height
  past    : ∀ m ∈ made.tail, m.2.pixels = m.1.pixels
  queue   : ∃ rest, s.queue = rest ++ data ahead ∧ (made = [] → rest = [] ∧ s.busy = false) ∧
    ∀ m ∈ made.head?, m.1.pixels = m.2.pixels ++ rest ∧ (s.busy = false → m.2.pixels.length = m.2.area)

variable {burst : Nat} {s : System} {ahead : List Frame} {made : List (Frame × Image)}

/-- Reader, core and what is between them are the same. -/
structure Alike (s t : System) : Prop where
  reader : t.reader = s.reader
  queue  : t.queue = s.queue
  busy   : t.busy = s.busy
  frames : t.frames = s.frames
  images : t.images = s.images

theorem Linked.congr (h : Linked burst s ahead made) {t : System} (ht : Alike s t) : Linked burst t ahead made where
  frames  := ht.frames.trans h.frames
  images  := ht.images.trans h.images
  blocks  := by rw [ht.frames]; exact h.blocks
  stamped := by rw [ht.frames]; exact h.stamped
  older   := by rw [ht.frames]; exact h.older
  reader  := by rw [ht.reader, ht.frames]; exact h.reader
  sizes   := h.sizes
  past    := h.past
  queue   := by rw [ht.queue, ht.busy]; exact h.queue

/-- No frame has more pixels than its area, and the one being read has fewer. -/
theorem Linked.length_le (h : Linked burst s ahead made) {f : Frame} (hf : f ∈ s.frames) :
    f.pixels.length ≤ f.area := by
  cases hs : s.frames with
  | nil =>
    rw [hs] at hf
    cases hf
  | cons g fs =>
    rw [hs] at hf
    rcases List.mem_cons.1 hf with rfl | hold
    · rcases h.reader with ⟨-, hc⟩ | ⟨g, gs, hg, hscan, hw, hh, -, hlen⟩
      · exact (hc f (by rw [hs]; rfl)).le
      · obtain ⟨rfl, -⟩ := List.cons.inj (hs.symm.trans hg)
        rw [hlen, Frame.area, ← hw, ← hh]
        exact (scanned_lt hscan.width hscan.height hscan.h hscan.v).le
    · exact (h.older f (by rw [hs]; exact hold)).le

/-- An image that has all its pixels has all of its frame's. -/
theorem Linked.fromFrame (h : Linked burst s ahead made) : ∀ m ∈ made, FromFrame m.1 m.2 := by
  intro m hm
  have hmem : m.1 ∈ s.frames := by
    rw [h.frames]
    exact List.mem_append_right _ (List.mem_map_of_mem hm)
  obtain ⟨hwidth, hheight⟩ := h.sizes m hm
  obtain ⟨rest, -, -, hhead⟩ := h.queue
  have hpre : m.2.pixels <+: m.1.pixels := by
    cases made with
    | nil        => cases hm
    | cons n made =>
      rcases List.mem_cons.1 hm with rfl | hold
      · exact ⟨rest, (hhead m rfl).1.symm⟩
      · rw [h.past m hold]
  refine { width := hwidth, height := hheight, pixels := hpre, whole := ?_, base := h.stamped m.1 hmem }
  intro hall
  refine hpre.eq_of_length_le ?_
  have := h.length_le hmem
  rw [hall, Image.area, hwidth, hheight]
  exact this

theorem Linked.whole (h : Linked burst s ahead made) : Whole s := ⟨ahead, made, h.frames, h.images, h.fromFrame⟩

/-! ## One event -/

/-- A frame that has run dry under its image is still being read, so that no frame is ahead. -/
theorem Linked.dry {m : Frame × Image} (h : Linked burst s ahead (m :: made)) (hpix : m.1.pixels = m.2.pixels)
    (hlt : m.2.pixels.length < m.2.area) : ahead = [] := by
  obtain ⟨hwidth, hheight⟩ := h.sizes m List.mem_cons_self
  have hshort : ¬ m.1.Complete := by
    rw [Frame.Complete, hpix, Frame.area, ← hwidth, ← hheight]
    exact Nat.ne_of_lt hlt
  cases ahead with
  | nil => rfl
  | cons g ahead =>
    refine absurd (h.older m.1 ?_) hshort
    rw [h.frames, List.cons_append, List.tail_cons, List.map_cons]
    exact List.mem_append_right _ List.mem_cons_self

theorem Linked.consume (h : Linked burst s ahead made) : ∃ made', Linked burst (consume s) ahead made' := by
  unfold Encoder.consume
  split
  case h_2 => exact ⟨made, h⟩
  case h_1 i is px queue hbusy himages hqueue =>
    split
    case isFalse => exact ⟨made, h⟩
    case isTrue hlt =>
      obtain ⟨rest, hq, hnil, hhead⟩ := h.queue
      cases made with
      | nil =>
        have := h.images
        rw [himages] at this
        cases this
      | cons m made =>
        obtain ⟨hi, his⟩ := List.cons.inj (himages.symm.trans h.images)
        obtain ⟨hpix, -⟩ := hhead m rfl
        obtain ⟨hwidth, hheight⟩ := h.sizes m List.mem_cons_self
        cases rest with
        | nil =>
          rw [List.append_nil] at hpix
          rw [hi] at hlt
          rw [hqueue, h.dry hpix hlt] at hq
          cases hq
        | cons px' rest =>
          rw [hqueue, List.cons_append] at hq
          obtain ⟨rfl, hq'⟩ := List.cons.inj hq
          refine ⟨(m.1, { i with pixels := i.pixels ++ [px] }) :: made, ?_⟩
          refine { frames := h.frames, images := by rw [his]; rfl, blocks := h.blocks, stamped := h.stamped,
                   older := h.older, reader := h.reader, sizes := ?_, past := h.past, queue := ?_ }
          · intro n hn
            rcases List.mem_cons.1 hn with rfl | hn
            · rw [hi]
              exact ⟨hwidth, hheight⟩
            · exact h.sizes n (List.mem_cons_of_mem _ hn)
          · refine ⟨rest, hq', nofun, ?_⟩
            intro n hn
            cases hn
            refine ⟨?_, fun hb => ?_⟩
            · rw [hpix, hi, List.append_assoc]
              rfl
            · rw [hbusy] at hb
              cases hb

theorem Linked.finish (h : Linked burst s ahead made) : Linked burst (finish s) ahead made := by
  unfold Encoder.finish
  split
  · exact h
  · rename_i i is himages
    split
    · rename_i hall
      obtain ⟨rest, hq, hnil, hhead⟩ := h.queue
      refine { frames := h.frames, images := h.images, blocks := h.blocks, stamped := h.stamped, older := h.older,
               reader := h.reader, sizes := h.sizes, past := h.past,
               queue := ⟨rest, hq, fun hm => ⟨(hnil hm).1, rfl⟩, ?_⟩ }
      intro m hm
      refine ⟨(hhead m hm).1, fun _ => ?_⟩
      cases made with
      | nil         => cases hm
      | cons n made =>
        cases hm
        obtain ⟨hi, -⟩ := List.cons.inj (himages.symm.trans h.images)
        rw [← hi, hall]
    · exact h

theorem length_word (burst : Nat) (r : Reader) : (word burst r).length = burst := by simp [word]

/-- The word taken goes to the newest frame, which it may end. -/
theorem atReader_take (hburst : burst = 4 ∨ burst = 8) {r : Reader} {f : Frame} (fs : List Frame)
    (hscan : Scanning burst r) (hw : r.hWidth = f.width) (hh : r.vWidth = f.height) (hb : r.base = f.base)
    (hlen : f.pixels.length = scanned r.hWidth.toNat r.h.toNat r.v.toNat) :
    AtReader burst (r.take (BitVec.ofNat 16 burst)) ({ f with pixels := f.pixels ++ word burst r } :: fs) := by
  obtain ⟨hw', hh', hb', htake⟩ := hscan.take hburst
  have hlength : (f.pixels ++ word burst r).length = scanned r.hWidth.toNat r.h.toNat r.v.toNat + burst := by
    rw [List.length_append, length_word, hlen]
  rcases htake with ⟨hscan', hat⟩ | ⟨hidle, hend⟩
  · exact .inr ⟨_, fs, rfl, hscan', hw'.trans hw, hh'.trans hh, hb'.trans hb, hlength.trans hat.symm⟩
  · refine .inl ⟨hidle, fun g hg => ?_⟩
    cases hg
    rw [Frame.Complete, hlength, hend, hw, hh]
    rfl

/-- The frame being read keeps its size and what its pixels are stamped with. -/
theorem Linked.more (h : Linked burst s ahead made) {f : Frame} {fs : List Frame} (hframes : s.frames = f :: fs)
    {pxs : List Pixel} (hpxs : ∀ px ∈ pxs, px.base = f.base ∧ px.stride = f.width) :
    (∀ g ∈ { f with pixels := f.pixels ++ pxs } :: fs, Blocks g.width g.height) ∧
      ∀ g ∈ { f with pixels := f.pixels ++ pxs } :: fs, ∀ px ∈ g.pixels, px.base = g.base ∧ px.stride = g.width := by
  have hblocks := h.blocks
  have hstamped := h.stamped
  rw [hframes, List.forall_mem_cons] at hblocks hstamped
  refine ⟨List.forall_mem_cons.2 hblocks, List.forall_mem_cons.2 ⟨?_, hstamped.2⟩⟩
  exact List.forall_mem_append.2 ⟨hstamped.1, hpxs⟩

theorem Linked.read (hburst : burst = 4 ∨ burst = 8) (h : Linked burst s ahead made) :
    ∃ ahead' made', Linked burst (read burst s) ahead' made' := by
  unfold Encoder.read
  split
  case h_2 => exact ⟨ahead, made, h⟩
  case h_1 f fs hfsm hframes =>
    rcases h.reader with ⟨hidle, -⟩ | ⟨g, gs, hg, hscan, hw, hh, hb, hlen⟩
    · rw [hidle] at hfsm
      cases hfsm
    obtain ⟨rfl, rfl⟩ := List.cons.inj (hframes.symm.trans hg)
    have hread := atReader_take hburst fs hscan hw hh hb hlen
    have hword : ∀ px ∈ word burst s.reader, px.base = f.base ∧ px.stride = f.width := by
      intro px hpx
      obtain ⟨i, -, rfl⟩ := List.mem_map.1 hpx
      exact ⟨hb, hw⟩
    obtain ⟨hblocks, hstamped⟩ := h.more hframes hword
    have holder := h.older
    rw [hframes, List.tail_cons] at holder
    obtain ⟨rest, hq, hnil, hhead⟩ := h.queue
    have hsplit := hframes.symm.trans h.frames
    cases ahead with
    | cons g ahead =>
      obtain ⟨rfl, hfs⟩ := List.cons.inj hsplit
      refine ⟨{ f with pixels := f.pixels ++ word burst s.reader } :: ahead, made, ?_⟩
      refine { frames := by rw [hfs]; rfl, images := h.images, blocks := hblocks, stamped := hstamped, older := holder,
               reader := hread, sizes := h.sizes, past := h.past, queue := ⟨rest, ?_, hnil, hhead⟩ }
      show s.queue ++ word burst s.reader = rest ++ data (_ :: ahead)
      rw [hq, data, data]
      simp only [List.append_assoc]
    | nil =>
      cases made with
      | nil         => cases hsplit
      | cons m made =>
        obtain ⟨rfl, hfs⟩ := List.cons.inj hsplit
        obtain ⟨hpix, hidle⟩ := hhead m rfl
        refine ⟨[], ({ m.1 with pixels := m.1.pixels ++ word burst s.reader }, m.2) :: made, ?_⟩
        refine { frames := by rw [hfs]; rfl, images := h.images, blocks := hblocks, stamped := hstamped,
                 older := holder, reader := hread, sizes := ?_, past := h.past,
                 queue := ⟨rest ++ word burst s.reader, ?_, nofun, ?_⟩ }
        · intro n hn
          rcases List.mem_cons.1 hn with rfl | hn
          · exact h.sizes m List.mem_cons_self
          · exact h.sizes n (List.mem_cons_of_mem _ hn)
        · show s.queue ++ word burst s.reader = _
          rw [hq]
          simp [data]
        · intro n hn
          cases hn
          refine ⟨?_, hidle⟩
          show m.1.pixels ++ word burst s.reader = _
          rw [hpix, List.append_assoc]

/-! ## A service -/

theorem data_append (as bs : List Frame) : data (as ++ bs) = data bs ++ data as := by
  induction as with
  | nil => simp [data]
  | cons a as ih => rw [List.cons_append, data, ih, data, List.append_assoc]

theorem Linked.startReader (h : Linked burst s ahead made) {width height : BitVec 16} (hidle : s.reader.done = true)
    (hblocks : Blocks width height) :
    Linked burst (startReader width height s) (⟨s.proc.encoderBase, width, height, []⟩ :: ahead) made := by
  have hfsm : s.reader.fsm = .idle := of_decide_eq_true hidle
  have hcomplete : ∀ f ∈ s.frames, f.Complete := by
    intro f hf
    rcases h.reader with ⟨-, hhead⟩ | ⟨-, -, -, hscan, -⟩
    · cases hs : s.frames with
      | nil       =>
        rw [hs] at hf
        cases hf
      | cons g fs =>
        rw [hs] at hf
        rcases List.mem_cons.1 hf with rfl | hf
        · exact hhead f (by rw [hs]; rfl)
        · exact h.older f (by rw [hs]; exact hf)
    · exact absurd (hscan.fsm.symm.trans hfsm) nofun
  obtain ⟨rest, hq, hnil, hhead⟩ := h.queue
  refine { frames := ?_, images := h.images, blocks := ?_, stamped := ?_, older := hcomplete, reader := .inr ?_,
           sizes := h.sizes, past := h.past, queue := ⟨rest, ?_, hnil, hhead⟩ }
  · show _ :: s.frames = _
    rw [h.frames]
    rfl
  · intro f hf
    rcases List.mem_cons.1 hf with rfl | hf
    · exact hblocks
    · exact h.blocks f hf
  · intro f hf
    rcases List.mem_cons.1 hf with rfl | hf
    · nofun
    · exact h.stamped f hf
  · have hread : (Encoder.startReader width height s).reader =
        { fsm := .read, base := s.proc.encoderBase, h := 0, v := 0, hWidth := width, vWidth := height } := by
      simp [Encoder.startReader, Reader.start, hfsm]
    obtain ⟨hw, hw0, hh, hh0, -⟩ := hblocks
    rw [hread]
    exact ⟨_, s.frames, rfl, ⟨rfl, hw, hh, hw0, hh0, Nat.zero_mod _⟩, rfl, rfl, rfl, by simp [scanned]⟩
  · show s.queue = _
    rw [hq, data, List.append_nil]

theorem Linked.encoderStart {f : Frame} (h : Linked burst s (ahead ++ [f]) made) {width height : BitVec 16}
    (hdone : encoderDone s = true) (hblocks : Blocks width height) (hwidth : f.width = width)
    (hheight : f.height = height) :
    Linked burst (encoderStart width height s) ahead ((f, ⟨width, height, []⟩) :: made) := by
  have hbusy : s.busy = false := by simpa [encoderDone] using hdone
  obtain ⟨hw, hh⟩ :
      (imageSize width height).extractLsb' 16 16 = width ∧ (imageSize width height).extractLsb' 0 16 = height :=
    imageSize_of_short hblocks.2.2.2.2
  obtain ⟨rest, hq, hnil, hhead⟩ := h.queue
  have hpast : rest = [] ∧ ∀ m ∈ made, m.2.pixels = m.1.pixels := by
    cases made with
    | nil         => exact ⟨(hnil rfl).1, nofun⟩
    | cons m made =>
      obtain ⟨hpix, hall⟩ := hhead m rfl
      have hwhole := (h.fromFrame m List.mem_cons_self).whole (hall hbusy)
      have hrest : rest = [] := by
        rw [hwhole] at hpix
        exact List.self_eq_append_right.1 hpix
      refine ⟨hrest, fun n hn => ?_⟩
      rcases List.mem_cons.1 hn with rfl | hn
      · exact hwhole
      · exact h.past n hn
  refine { frames := ?_, images := ?_, blocks := h.blocks, stamped := h.stamped, older := h.older, reader := h.reader,
           sizes := ?_, past := hpast.2, queue := ⟨f.pixels, ?_, nofun, ?_⟩ }
  · show s.frames = _
    rw [h.frames, List.append_assoc]
    rfl
  · show _ :: s.images = _
    rw [h.images, hw, hh]
    rfl
  · intro m hm
    rcases List.mem_cons.1 hm with rfl | hm
    · exact ⟨hwidth.symm, hheight.symm⟩
    · exact h.sizes m hm
  · show s.queue = _
    rw [hq, hpast.1, data_append]
    simp [data]
  · intro m hm
    cases hm
    exact ⟨rfl, nofun⟩

/-- The frame that the next image will get. -/
theorem Linked.next {f : Frame} (h : Linked burst s (ahead ++ [f]) made) :
    s.frames.reverse[s.images.length]? = some f := by
  rw [h.frames, h.images, List.length_map, List.reverse_append, List.getElem?_append_right (by simp)]
  simp

/-- Where no frame is ahead and the core is done, the reader is done too. -/
theorem Linked.done (h : Linked burst s [] made) (hdone : encoderDone s = true) : s.reader.done = true := by
  have hbusy : s.busy = false := by simpa [encoderDone] using hdone
  rcases h.reader with ⟨hidle, -⟩ | ⟨f, fs, hf, hscan, hw, hh, -, hlen⟩
  · exact decide_eq_true hidle
  · obtain ⟨rest, -, -, hhead⟩ := h.queue
    have hlt := scanned_lt hscan.width hscan.height hscan.h hscan.v
    have hfs := hf.symm.trans h.frames
    cases made with
    | nil         => cases hfs
    | cons m made =>
      obtain ⟨rfl, -⟩ := List.cons.inj hfs
      have hm := h.fromFrame m List.mem_cons_self
      have hall := (hhead m rfl).2 hbusy
      rw [← hlen, ← hm.whole hall, hall, Image.area, hm.width, hm.height, hw, hh] at hlt
      exact absurd hlt (Nat.lt_irrefl _)

/-- The two starts of a service, in the other order. -/
theorem Linked.starts (h : Linked burst s ahead made) {width height : BitVec 16} (hdone : encoderDone s = true)
    (hblocks : Blocks width height)
    (hnext : ∀ f ∈ s.frames.reverse[s.images.length]?, f.width = width ∧ f.height = height) :
    ∃ ahead' made', Linked burst (Encoder.encoderStart width height
      (if s.reader.done then Encoder.startReader width height s else s)) ahead' made' := by
  rcases List.eq_nil_or_concat ahead with rfl | ⟨ahead', f, rfl⟩
  · rw [if_pos (h.done hdone)]
    have hread := h.startReader (h.done hdone) hblocks
    rw [← List.nil_append [_]] at hread
    exact ⟨_, _, hread.encoderStart hdone hblocks rfl rfl⟩
  · rw [List.concat_eq_append] at h
    obtain ⟨hw, hh⟩ := hnext f h.next
    by_cases hr : s.reader.done = true
    · rw [if_pos hr]
      have hread := h.startReader hr hblocks
      rw [← List.cons_append] at hread
      exact ⟨_, _, hread.encoderStart hdone hblocks hw hh⟩
    · rw [if_neg hr]
      exact ⟨_, _, h.encoderStart hdone hblocks hw hh⟩

/-- The starts that a service makes: the reader's, then the core's. -/
def starts (elapsed : Bool) (s : System) : System :=
  let width := s.proc.hActive.setWidth 16
  let height := s.proc.vActive.setWidth 16
  let t := if s.reader.done then Encoder.startReader width height s else s
  if (s.canStart || elapsed) = true ∧ encoderDone s = true then Encoder.encoderStart width height t else t

theorem alike_service (hen : s.encoderEnabled = true) (elapsed fpsElapsed : Bool) :
    Alike (starts elapsed s) (encoderService elapsed fpsElapsed s) := by
  unfold starts encoderService
  rw [if_pos hen]
  cases elapsed <;> cases hcan : s.canStart <;> cases hbusy : s.busy <;> cases hdone : s.reader.done <;>
    cases fpsElapsed <;>
    exact ⟨by simp [*, encoderDone, Encoder.encoderStart, Encoder.startReader],
      by simp [*, encoderDone, Encoder.encoderStart, Encoder.startReader],
      by simp [*, encoderDone, Encoder.encoderStart, Encoder.startReader],
      by simp [*, encoderDone, Encoder.encoderStart, Encoder.startReader],
      by simp [*, encoderDone, Encoder.encoderStart, Encoder.startReader]⟩

theorem Linked.service (h : Linked burst s ahead made) {elapsed fpsElapsed : Bool}
    (hfit : Fitting s (.service elapsed fpsElapsed)) :
    ∃ ahead' made', Linked burst (encoderService elapsed fpsElapsed s) ahead' made' := by
  cases hen : s.encoderEnabled with
  | false =>
    rw [encoderService, hen]
    exact ⟨ahead, made, h⟩
  | true =>
    obtain ⟨hread, himage⟩ := hfit hen
    have hstarts : ∃ ahead' made', Linked burst (Encoder.starts elapsed s) ahead' made' := by
      unfold Encoder.starts
      by_cases hstart : (s.canStart || elapsed) = true ∧ encoderDone s = true
      · obtain ⟨hblocks, hnext⟩ := himage hstart.1 hstart.2
        rw [if_pos hstart]
        exact h.starts hstart.2 hblocks hnext
      · rw [if_neg hstart]
        by_cases hdone : s.reader.done = true
        · rw [if_pos hdone]
          exact ⟨_, _, h.startReader hdone (hread hdone)⟩
        · rw [if_neg hdone]
          exact ⟨_, _, h⟩
    obtain ⟨ahead', made', h'⟩ := hstarts
    exact ⟨ahead', made', h'.congr (alike_service hen elapsed fpsElapsed)⟩

/-! ## Runs -/

variable {p : Platform}

theorem Linked.step (hburst : burst = 4 ∨ burst = 8) (h : Linked burst s ahead made) {e : Event} (hfit : Fitting s e) :
    ∃ ahead' made', Linked burst (step p burst s e) ahead' made' := by
  cases e with
  | service elapsed fpsElapsed => exact h.service hfit
  | start env mode             => exact ⟨ahead, made, h.congr ⟨rfl, rfl, rfl, rfl, rfl⟩⟩
  | update env                 => exact ⟨ahead, made, h.congr ⟨rfl, rfl, rfl, rfl, rfl⟩⟩
  | isr x slots                => exact ⟨ahead, made, h.congr ⟨rfl, rfl, rfl, rfl, rfl⟩⟩
  | enable enable              => exact ⟨ahead, made, h.congr ⟨rfl, rfl, rfl, rfl, rfl⟩⟩
  | read                       => exact h.read hburst
  | consume                    => exact ⟨ahead, h.consume⟩
  | finish                     => exact ⟨ahead, made, h.finish⟩

theorem linked_initial (burst : Nat) (proc : Processor.State) : Linked burst (initial proc) [] [] where
  frames  := rfl
  images  := rfl
  blocks  := nofun
  stamped := nofun
  older   := nofun
  reader  := .inl ⟨rfl, nofun⟩
  sizes   := nofun
  past    := nofun
  queue   := ⟨[], rfl, fun _ => ⟨rfl, rfl⟩, nofun⟩

/-- Where every service starts the two sides at sizes that fit, every image is made from a whole frame of its own size,
at every moment of the run. -/
theorem fitting_whole (p : Platform) (hburst : burst = 4 ∨ burst = 8) (proc : Processor.State) (es : List Event)
    (h : AllSteps (step p burst) Fitting (initial proc) es) : AllStates (step p burst) Whole (initial proc) es := by
  have hstep : ∀ s e, (∃ ahead made, Linked burst s ahead made) → Fitting s e →
      True ∧ ∃ ahead made, Linked burst (step p burst s e) ahead made := by
    rintro s e ⟨ahead, made, hlinked⟩ hfit
    exact ⟨trivial, hlinked.step hburst hfit⟩
  have hinv := (AllSteps.inv (P := fun _ _ => True) hstep ⟨[], [], linked_initial burst proc⟩ h).2
  refine hinv.mono ?_
  rintro s ⟨ahead, made, hlinked⟩
  exact hlinked.whole

/-- A picture of 8x8 pixels, and the start of the next. -/
def onePicture : List Event :=
  [.enable true, .service true false] ++ List.replicate 8 .read ++ List.replicate 64 .consume ++
    [.finish, .service true false]

theorem fitting_whole_onePicture :
    AllStates (step opsis 8) Whole (initial { (default : Processor.State) with hActive := 8, vActive := 8 }) onePicture :=
  fitting_whole opsis (.inr rfl) _ _ (by decide +kernel)

/-! ## Mode changes -/

/-- The sides that a frame or an image started in the mode has. -/
def modeSize (p : Platform) (env : Env) (mode : Int) : BitVec 16 × BitVec 16 :=
  ((videoModeAt p env.stray mode).hActive.setWidth 16, (videoModeAt p env.stray mode).vActive.setWidth 16)

/-- Only the custom mode can have sides that are not of whole blocks. -/
theorem blocks_modeSize {mode : Int} (hmode : InTable p mode) (env : Env) :
    Blocks (modeSize p env mode).1 (modeSize p env mode).2 := by
  have hall : ∀ m ∈ videoModes p, Blocks (m.hActive.setWidth 16) (m.vActive.setWidth 16) := by
    unfold videoModes
    cases p.netv2OrNexysVideo <;> decide
  exact hall _ (List.mem_of_getElem? (videoModeAt_of_inTable hmode env.stray))

theorem size_processorStart {mode : Int} (hmode : InTable p mode) (env : Env) (s : Processor.State) :
    ((processorStart p env mode s).hActive.setWidth 16, (processorStart p env mode s).vActive.setWidth 16) =
      modeSize p env mode := by
  have hcoherent := Console.coherent_processorStart p env mode s
  have htable := hcoherent.table
  rw [Console.processorMode_processorStart, videoModeAt_of_inTable hmode env.stray] at htable
  rw [hcoherent.hActive, hcoherent.vActive, ← Option.some.inj (htable hmode)]
  rfl

/-- The reader begins a frame, the mode changes, and the core begins an image. -/
def changeBetween (env : Env) (mode mode' : Int) : List Event :=
  [.start env mode, .enable true, .service false false, .start env mode', .service true false, .read, .consume]

/-- The sizes that the two sides were started at, the newest first. -/
def sizes (s : System) : List (BitVec 16 × BitVec 16) × List (BitVec 16 × BitVec 16) :=
  (s.frames.map fun f => (f.width, f.height), s.images.map fun i => (i.width, i.height))

theorem sizes_read (burst : Nat) (s : System) : sizes (read burst s) = sizes s := by
  unfold Encoder.read
  split
  · rename_i hframes
    simp [sizes, hframes]
  · rfl

theorem sizes_consume (s : System) : sizes (consume s) = sizes s := by
  unfold Encoder.consume
  split
  · rename_i himages _
    split
    · simp [sizes, himages]
    · rfl
  · rfl

/-- The frame has the first mode's size and the image the second's. -/
theorem sizes_changeBetween {mode mode' : Int} (hmode : InTable p mode) (hmode' : InTable p mode') (env : Env) (burst : Nat)
    (proc : Processor.State) :
    sizes ((changeBetween env mode mode').foldl (step p burst) (initial proc)) =
      ([modeSize p env mode], [modeSize p env mode']) := by
  have hshort := (blocks_modeSize hmode' env).2.2.2.2
  rw [← size_processorStart hmode' env (processorStart p env mode proc)] at *
  rw [← size_processorStart hmode env proc]
  obtain ⟨hw, hh⟩ : _ ∧ _ :=
    @imageSize_of_short ((processorStart p env mode' (processorStart p env mode proc)).hActive.setWidth 16) _ hshort
  simp only [changeBetween, List.foldl_cons, List.foldl_nil, step, sizes_consume, sizes_read, initial]
  simp [sizes, encoderService, Encoder.startReader, Encoder.encoderStart, encoderDone, Reader.done, Reader.start,
    show (default : Reader).fsm = .idle from rfl, hw, hh]

theorem not_whole_changeBetween {mode mode' : Int} (hmode : InTable p mode) (hmode' : InTable p mode') {env : Env}
    (hne : modeSize p env mode ≠ modeSize p env mode') (burst : Nat) (proc : Processor.State) :
    ¬ Whole ((changeBetween env mode mode').foldl (step p burst) (initial proc)) := by
  have hsizes := sizes_changeBetween hmode hmode' env burst proc
  rintro ⟨ahead, made, hframes, himages, hmade⟩
  rw [sizes, hframes, himages, Prod.mk.injEq, List.map_append] at hsizes
  obtain ⟨hf, hi⟩ := hsizes
  rw [List.map_map, List.map_eq_singleton_iff] at hi
  obtain ⟨m, rfl, hm'⟩ := hi
  -- there is one frame, so none is ahead
  have hf' : ahead.map (fun f => (f.width, f.height)) ++ [(m.1.width, m.1.height)] = [] ++ [modeSize p env mode] := hf
  obtain ⟨-, hm⟩ := List.append_inj' hf' rfl
  have hfrom := hmade m List.mem_cons_self
  apply hne
  rw [← List.singleton_inj.1 hm, ← hm', ← hfrom.width, ← hfrom.height]
  rfl

/-- The reader begins a frame of 640x480 and the core takes it for an image of 800x600. -/
theorem not_whole_640x480_800x600 : ¬ ∀ (proc : Processor.State) (es : List Event),
    AllStates (step opsis 8) Whole (initial proc) es := by
  intro h
  have hall := (Runs.allStates_iff_prefix Whole _ _).1 (h default (changeBetween default 0 2)) _ List.prefix_rfl
  exact not_whole_changeBetween (by decide) (by decide) (by decide) 8 default hall

end Encoder
end Hdmi2Usb
