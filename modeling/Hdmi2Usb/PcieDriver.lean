import Hdmi2Usb.Runs
/-!
# PcieDriver — timings and pixel format of the PCIe video channels

A channel of the `hdmi2pcie` driver keeps its timings and the pixel format made from them.  `hdmi2pcie_fill_pix_format`
makes the one from the other wherever an ioctl writes either; only the registration sets the timings and leaves the
format as `kzalloc` made it.  So a channel's format agrees with its timings from the first ioctl on that fills it, and
not before (`agrees_iff_filled`).
-/
namespace Hdmi2Usb
namespace PcieDriver

open Runs (AllSteps)

inductive Errno
  | einval
  | ebusy
  | enotty
deriving DecidableEq

/-- `HDMI2PCIE_DIR_IN` and `HDMI2PCIE_DIR_OUT`. -/
inductive Dir
  | input
  | output
deriving DecidableEq

/-- `struct v4l2_dv_timings`; `other` is what the driver only copies. -/
structure DvTimings (ρ : Type*) where
  width      : BitVec 32
  height     : BitVec 32
  interlaced : BitVec 32
  other      : ρ

/-- `struct v4l2_pix_format`. -/
structure PixFormat where
  width        : BitVec 32
  height       : BitVec 32
  pixelformat  : BitVec 32
  field        : BitVec 32
  bytesperline : BitVec 32
  sizeimage    : BitVec 32
  colorspace   : BitVec 32
  priv         : BitVec 32
  flags        : BitVec 32
  ycbcrEnc     : BitVec 32
  quantization : BitVec 32
  xferFunc     : BitVec 32
deriving DecidableEq

/-- `struct vid_channel`, with `num_buffers` of its queue. -/
structure Channel (ρ : Type*) where
  dir        : Dir
  timings    : DvTimings ρ
  format     : PixFormat
  tvnorms    : BitVec 64
  numBuffers : Nat

/-- The timings helpers of V4L2, at the driver's `hdmi2pcie_timings_cap`. -/
structure V4l2 (ρ : Type*) where
  validDvTimings   : DvTimings ρ → Bool
  /-- The preset that `v4l2_find_dv_timings_cap` puts into its argument. -/
  findDvTimingsCap : DvTimings ρ → Option (DvTimings ρ)
  matchDvTimings   : DvTimings ρ → DvTimings ρ → Bool

/-! ## The pixel format -/

/-- The four character code of `UYVY`. -/
def v4l2PixFmtUyvy : BitVec 32 := 0x59565955

def v4l2FieldNone : BitVec 32 := 1

def v4l2FieldAlternate : BitVec 32 := 7

def v4l2ColorspaceRec709 : BitVec 32 := 3

variable {ρ : Type*}

/-- `hdmi2pcie_fill_pix_format`. -/
def fillPixFormat (timings : DvTimings ρ) (pix : PixFormat) : PixFormat :=
  let interlaced := timings.interlaced ≠ 0
  let height := if interlaced then timings.height / 2 else timings.height
  let bytesperline := timings.width * 2
  { pix with
    pixelformat := v4l2PixFmtUyvy
    width := timings.width
    height
    field := if interlaced then v4l2FieldAlternate else v4l2FieldNone
    colorspace := v4l2ColorspaceRec709
    bytesperline
    sizeimage := bytesperline * height
    priv := 0 }

/-! ## The queue -/

/-- `queue_setup`: the buffers to make, their planes and the size of a plane. -/
def queueSetup (chan : Channel ρ) (nbuffers nplanes : Nat) (size : BitVec 32) : Except Errno (Nat × Nat × BitVec 32) :=
  let nbuffers := if chan.numBuffers + nbuffers < 3 then 3 - chan.numBuffers else nbuffers
  if nplanes ≠ 0 then
    if size < chan.format.sizeimage then .error .einval else .ok (nbuffers, nplanes, size)
  else .ok (nbuffers, 1, chan.format.sizeimage)

/-- `buffer_prepare`: the payload of a plane of the given size. -/
def bufferPrepare (chan : Channel ρ) (planeSize : Nat) : Except Errno (BitVec 32) :=
  if planeSize < chan.format.sizeimage.toNat then .error .einval else .ok chan.format.sizeimage

/-- `vb2_is_busy`. -/
def busy (chan : Channel ρ) : Prop := 0 < chan.numBuffers

instance (chan : Channel ρ) : Decidable (busy chan) := inferInstanceAs (Decidable (_ < _))

/-! ## The ioctls -/

/-- `hdmi2pcie_try_fmt_vid`. -/
def tryFmtVid (chan : Channel ρ) (pix : PixFormat) : PixFormat × Except Errno Unit :=
  (fillPixFormat chan.timings pix, .ok ())

/-- `hdmi2pcie_s_fmt_vid`. -/
def sFmtVid (chan : Channel ρ) (pix : PixFormat) : Channel ρ × PixFormat × Except Errno Unit :=
  match tryFmtVid chan pix with
  | (pix, .error e) => (chan, pix, .error e)
  | (pix, .ok ())   =>
    if busy chan then (chan, pix, .error .ebusy) else ({ chan with format := pix }, pix, .ok ())

/-- `hdmi2pcie_s_dv_timings`, with the timings it leaves in its argument. -/
def sDvTimings (v : V4l2 ρ) (chan : Channel ρ) (timings : DvTimings ρ) :
    Channel ρ × DvTimings ρ × Except Errno Unit :=
  if v.validDvTimings timings = false then (chan, timings, .error .einval)
  else
    match v.findDvTimingsCap timings with
    | none         => (chan, timings, .error .einval)
    | some timings =>
      if v.matchDvTimings timings chan.timings then (chan, timings, .ok ())
      else if busy chan then (chan, timings, .error .ebusy)
      else ({ chan with timings, format := fillPixFormat timings chan.format }, timings, .ok ())

/-- `hdmi2pcie_s_input` and `hdmi2pcie_s_output`, which do the same. -/
def select (chan : Channel ρ) (i : BitVec 32) : Channel ρ × Except Errno Unit :=
  if 0 < i then (chan, .error .einval)
  else if busy chan then (chan, .error .ebusy)
  else ({ chan with tvnorms := 0, format := fillPixFormat chan.timings chan.format }, .ok ())

def sInput (chan : Channel ρ) (i : BitVec 32) : Channel ρ × Except Errno Unit := select chan i

def sOutput (chan : Channel ρ) (i : BitVec 32) : Channel ρ × Except Errno Unit := select chan i

inductive Ioctl (ρ : Type*)
  | sDvTimings (timings : DvTimings ρ)
  | tryFmt (pix : PixFormat)
  | sFmt (pix : PixFormat)
  | sInput (i : BitVec 32)
  | sOutput (i : BitVec 32)
  /-- `VIDIOC_REQBUFS`, after which the queue holds `held` buffers. -/
  | reqbufs (count held : Nat)
  /-- `VIDIOC_CREATE_BUFS` for planes of a size, which adds `held` buffers. -/
  | createBufs (count : Nat) (size : BitVec 32) (held : Nat)
  /-- A buffer is queued whose plane has the size. -/
  | prepare (planeSize : Nat)

/-- An ioctl on a channel; `hdmi2pcie_ioctl_in_ops` has no output and `hdmi2pcie_ioctl_out_ops` no input. -/
def ioctl (v : V4l2 ρ) (chan : Channel ρ) : Ioctl ρ → Channel ρ × Except Errno Unit
  | .sDvTimings timings => ((sDvTimings v chan timings).1, (sDvTimings v chan timings).2.2)
  | .tryFmt pix         => (chan, (tryFmtVid chan pix).2)
  | .sFmt pix           => ((sFmtVid chan pix).1, (sFmtVid chan pix).2.2)
  | .sInput i           => if chan.dir = .input then sInput chan i else (chan, .error .enotty)
  | .sOutput i          => if chan.dir = .output then sOutput chan i else (chan, .error .enotty)
  | .reqbufs count held =>
    -- the buffers there were are freed first
    if count = 0 then ({ chan with numBuffers := 0 }, .ok ())
    else
      match queueSetup { chan with numBuffers := 0 } count 0 0 with
      | .error e => ({ chan with numBuffers := 0 }, .error e)
      | .ok _    => ({ chan with numBuffers := held }, .ok ())
  | .createBufs count size held =>
    match queueSetup chan count 1 size with
    | .error e => (chan, .error e)
    | .ok _    => ({ chan with numBuffers := chan.numBuffers + held }, .ok ())
  | .prepare planeSize  =>
    match bufferPrepare chan planeSize with
    | .error e => (chan, .error e)
    | .ok _    => (chan, .ok ())

/-! ## The driver -/

/-- `kzalloc`. -/
def zeroFormat : PixFormat := ⟨0, 0, 0, 0, 0, 0, 0, 0, 0, 0, 0, 0⟩

/-- `hdmi2pcie_register_video_dev` on a channel that `hdmi2pcie_pci_probe` has allocated: 1920x1080 at 60 Hz. -/
def registerVideoDev (other : ρ) (dir : Dir) : Channel ρ :=
  { dir, timings := ⟨1920, 1080, 0, other⟩, format := zeroFormat, tvnorms := 0, numBuffers := 0 }

/-- An ioctl on one of the two channels. -/
def step (v : V4l2 ρ) (s : Dir → Channel ρ) (e : Dir × Ioctl ρ) : Dir → Channel ρ :=
  Function.update s e.1 (ioctl v (s e.1) e.2).1

/-- The format agrees with the timings in every field that `hdmi2pcie_fill_pix_format` sets. -/
def Agrees (chan : Channel ρ) : Prop := fillPixFormat chan.timings chan.format = chan.format

/-- An ioctl that fails leaves timings and format as they are. -/
def FailsClean (v : V4l2 ρ) (chan : Channel ρ) : Prop :=
  ∀ op e, (ioctl v chan op).2 = .error e →
    (ioctl v chan op).1.timings = chan.timings ∧ (ioctl v chan op).1.format = chan.format

/-- The ioctl gets to where it fills the format. -/
def Fills (v : V4l2 ρ) (chan : Channel ρ) : Ioctl ρ → Prop
  | .sDvTimings timings => v.validDvTimings timings = true ∧ ¬ busy chan ∧
      ∃ t ∈ v.findDvTimingsCap timings, v.matchDvTimings t chan.timings = false
  | .sFmt _    => ¬ busy chan
  | .sInput i  => chan.dir = .input ∧ i = 0 ∧ ¬ busy chan
  | .sOutput i => chan.dir = .output ∧ i = 0 ∧ ¬ busy chan
  | _          => False

/-- Some ioctl of the run fills the format of channel `d`. -/
def Filled (v : V4l2 ρ) (s : Dir → Channel ρ) (es : List (Dir × Ioctl ρ)) (d : Dir) : Prop :=
  ∃ pre op, pre ++ [(d, op)] <+: es ∧ Fills v (pre.foldl (step v) s d) op

/-! ## One ioctl -/

@[simp] theorem fillPixFormat_fillPixFormat (timings : DvTimings ρ) (pix : PixFormat) :
    fillPixFormat timings (fillPixFormat timings pix) = fillPixFormat timings pix := rfl

theorem select_cases (chan : Channel ρ) (i : BitVec 32) :
    ((i = 0 ∧ ¬ busy chan) ∧ (select chan i).2 = .ok () ∧ Agrees (select chan i).1) ∨
      (¬ (i = 0 ∧ ¬ busy chan) ∧ (select chan i).1.timings = chan.timings ∧ (select chan i).1.format = chan.format) := by
  by_cases hi : i = 0
  · subst hi
    by_cases hb : busy chan
    · simp [select, hb]
    · simp [select, hb, Agrees]
  · have hpos : (0 : BitVec 32) < i := (BitVec.pos_iff_ne_zero i).2 hi
    rw [select, if_pos hpos]
    exact .inr ⟨fun h => hi h.1, rfl, rfl⟩

/-- **What an ioctl does**: it fills the format from the timings it leaves, and succeeds, or it changes neither. -/
theorem ioctl_cases (v : V4l2 ρ) (chan : Channel ρ) (op : Ioctl ρ) :
    (Fills v chan op ∧ (ioctl v chan op).2 = .ok () ∧ Agrees (ioctl v chan op).1) ∨
      (¬ Fills v chan op ∧ (ioctl v chan op).1.timings = chan.timings ∧ (ioctl v chan op).1.format = chan.format) := by
  cases op with
  | sDvTimings timings =>
    simp only [ioctl, sDvTimings, Fills]
    cases hv : v.validDvTimings timings with
    | false => simp
    | true =>
      cases hf : v.findDvTimingsCap timings with
      | none => simp
      | some t =>
        cases hm : v.matchDvTimings t chan.timings with
        | true => simp [hm]
        | false =>
          by_cases hb : busy chan
          · simp [hb, hm]
          · simp [hb, hm, Agrees]
  | tryFmt pix => exact .inr ⟨id, rfl, rfl⟩
  | sFmt pix =>
    simp only [ioctl, sFmtVid, tryFmtVid, Fills]
    by_cases hb : busy chan
    · simp [hb]
    · simp [hb, Agrees]
  | sInput i =>
    simp only [ioctl, sInput, Fills]
    by_cases hd : chan.dir = .input
    · simpa [hd] using select_cases chan i
    · simp [hd]
  | sOutput i =>
    simp only [ioctl, sOutput, Fills]
    by_cases hd : chan.dir = .output
    · simpa [hd] using select_cases chan i
    · simp [hd]
  | reqbufs count held =>
    refine .inr ⟨id, ?_⟩
    simp only [ioctl]
    repeat' split
    all_goals exact ⟨rfl, rfl⟩
  | createBufs count size held =>
    refine .inr ⟨id, ?_⟩
    simp only [ioctl]
    split <;> exact ⟨rfl, rfl⟩
  | prepare planeSize =>
    refine .inr ⟨id, ?_⟩
    simp only [ioctl]
    split <;> exact ⟨rfl, rfl⟩

theorem failsClean (v : V4l2 ρ) (chan : Channel ρ) : FailsClean v chan := by
  intro op e he
  rcases ioctl_cases v chan op with ⟨-, hok, -⟩ | ⟨-, ht, hf⟩
  · rw [hok] at he
    cases he
  · exact ⟨ht, hf⟩

/-- An ioctl keeps a format that agrees, and makes one that does not agree exactly by filling it. -/
theorem agrees_ioctl (v : V4l2 ρ) (chan : Channel ρ) (op : Ioctl ρ) :
    Agrees (ioctl v chan op).1 ↔ Fills v chan op ∨ Agrees chan := by
  rcases ioctl_cases v chan op with ⟨hf, -, ha⟩ | ⟨hf, ht, hfmt⟩
  · simp [hf, ha]
  · simp [hf, Agrees, ht, hfmt]

/-! ## Every sequence of ioctls -/

theorem filled_concat (v : V4l2 ρ) (s : Dir → Channel ρ) (es : List (Dir × Ioctl ρ)) (e : Dir × Ioctl ρ) (d : Dir) :
    Filled v s (es ++ [e]) d ↔ Filled v s es d ∨ (e.1 = d ∧ Fills v (es.foldl (step v) s d) e.2) := by
  constructor
  · rintro ⟨pre, op, hp, hf⟩
    rcases List.prefix_concat_iff.1 hp with heq | hp
    · obtain ⟨rfl, hop⟩ := List.append_inj' heq rfl
      rw [List.singleton_inj] at hop
      rw [← hop]
      exact .inr ⟨rfl, hf⟩
    · exact .inl ⟨pre, op, hp, hf⟩
  · rintro (⟨pre, op, hp, hf⟩ | ⟨rfl, hf⟩)
    · exact ⟨pre, op, hp.trans (List.prefix_append es [e]), hf⟩
    · exact ⟨es, e.2, List.prefix_rfl, hf⟩

theorem agrees_run (v : V4l2 ρ) (s : Dir → Channel ρ) (d : Dir) (es : List (Dir × Ioctl ρ)) :
    Agrees (es.foldl (step v) s d) ↔ Filled v s es d ∨ Agrees (s d) := by
  induction es using List.reverseRecOn with
  | nil =>
    have hnot : ¬ Filled v s [] d := by
      rintro ⟨pre, op, hp, -⟩
      simp at hp
    rw [List.foldl_nil, or_iff_right hnot]
  | append_singleton es e ih =>
    rw [List.foldl_concat, filled_concat, step]
    by_cases hd : e.1 = d
    · subst hd
      rw [Function.update_self, agrees_ioctl, ih, ← or_assoc, or_comm (a := Fills v _ _)]
      simp
    · rw [Function.update_of_ne (Ne.symm hd), ih]
      simp [hd]

/-- A registered channel's format is all zeros. -/
theorem not_agrees_registered (other : ρ) (dir : Dir) : ¬ Agrees (registerVideoDev other dir) := by
  intro h
  have hzero : v4l2PixFmtUyvy = 0 := congrArg PixFormat.pixelformat h
  exact absurd hzero (by decide)

/-- **After any sequence of ioctls a channel's format agrees with its timings, and an ioctl that fails changes neither,
exactly when some ioctl before has filled the format.** -/
theorem agrees_iff_filled (v : V4l2 ρ) (other : ρ) (es : List (Dir × Ioctl ρ)) (d : Dir) :
    let s := es.foldl (step v) (registerVideoDev other) d
    (Agrees s ∧ FailsClean v s) ↔ Filled v (registerVideoDev other) es d := by
  intro s
  rw [and_iff_left (failsClean v s), agrees_run, or_iff_left (not_agrees_registered other d)]

/-- No ioctl at all: the buffers of 1920x1080 would be of no bytes. -/
theorem not_agrees_no_ioctl :
    ¬ ∀ (v : V4l2 Unit) (other : Unit) (es : List (Dir × Ioctl Unit)) (d : Dir),
      Agrees (es.foldl (step v) (registerVideoDev other) d) ∧
        FailsClean v (es.foldl (step v) (registerVideoDev other) d) := by
  intro h
  have := (h ⟨fun _ => true, some, fun _ _ => true⟩ () [] .output).1
  exact absurd (congrArg PixFormat.sizeimage this) (by decide)

end PcieDriver
end Hdmi2Usb
