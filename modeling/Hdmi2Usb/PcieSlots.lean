import Hdmi2Usb.Memory
import Hdmi2Usb.PcieDriver
import Hdmi2Usb.VideoMatrix
/-!
# PcieSlots — the frame slots that host and firmware share

The host copies an output frame into the slot behind the published one and then publishes it; `processor_update` gives
the outputs the published slot.  They share eight slots and two index words of BAR0, through a bridge that reverses the
bytes of every word.  The host stays off the slot the outputs read as long as they are updated in time (`slots_apart`).
-/
namespace Hdmi2Usb
namespace PcieSlots

open PcieDriver Processor Console
open Runs (AllSteps AllStates)

/-- `PCIE_BUF_SIZE`. -/
def pcieBufSize : Nat := 0x400000

/-- `READ_BUF_OFF`. -/
def readBufOff : Nat := 7 * pcieBufSize

/-- `fb_idx` of a channel. -/
def fbIdx : Dir → Nat
  | .input  => 8 * pcieBufSize - 4
  | .output => 4 * pcieBufSize - 4

/-- A buffer with the payload that `buffer_prepare` gave it, for timings up to 1920x1080. -/
structure Buffer (ρ : Type*) where
  timings : DvTimings ρ
  pix     : PixFormat
  data    : List Byte
  width   : timings.width.toNat ≤ 1920
  height  : timings.height.toNat ≤ 1080
  size    : data.length = (fillPixFormat timings pix).sizeimage.toNat

/-- The copy that a `buffer_queue` is at. -/
structure Copy where
  fbIdx : Nat
  data  : List Byte
  done  : Nat

structure State where
  /-- Main memory, byte `a` being bits `8 * (a % 4)` on of its word. -/
  ram    : Nat → Byte
  output : Option Copy
  /-- `data` is what the input frame's buffer holds, and is overwritten. -/
  input  : Option Copy
  proc   : Processor.State
  /-- The frame last published in a slot. -/
  frames : Nat → Option (List Byte)
  /-- The publications so far, and those before the last `processor_update`. -/
  count  : Nat
  seen   : Nat

/-! ## The bridge

BAR0 is at `bar0` of main memory. -/

/-- The place of a byte in the reversed word. -/
def swapped (a : Nat) : Nat := a / 4 * 4 + (3 - a % 4)

variable (bar0 : Nat)

def hostRead (ram : Nat → Byte) (a : Nat) : Byte := ram (bar0 + swapped a)

def hostWrite (ram : Nat → Byte) (a : Nat) (b : Byte) : Nat → Byte := Function.update ram (bar0 + swapped a) b

def readl (ram : Nat → Byte) (a : Nat) : Word :=
  hostRead bar0 ram (a + 3) ++ hostRead bar0 ram (a + 2) ++ hostRead bar0 ram (a + 1) ++ hostRead bar0 ram a

def writel (ram : Nat → Byte) (a : Nat) (w : Word) : Nat → Byte :=
  hostWrite bar0 (hostWrite bar0 (hostWrite bar0 (hostWrite bar0 ram a (w.extractLsb' 0 8)) (a + 1)
    (w.extractLsb' 8 8)) (a + 2) (w.extractLsb' 16 8)) (a + 3) (w.extractLsb' 24 8)

/-- The firmware's load of a word. -/
def load (ram : Nat → Byte) (a : Nat) : Word := ram (a + 3) ++ ram (a + 2) ++ ram (a + 1) ++ ram a

/-- `pcie_in_fb_index`, from the start of main memory. -/
def pcieInFbIndex : Nat := framebufferBasePcie.toNat + 4 * framebufferSize.toNat - 4

/-! ## The events -/

inductive Event (ρ : Type*)
  /-- `buffer_queue` is called. -/
  | queue (dir : Dir) (b : Buffer ρ)
  /-- The next step of a channel's `buffer_queue`. -/
  | host (dir : Dir)
  /-- `processor_update`. -/
  | update (env : Env)

variable {ρ : Type*} (p : Platform)

/-- The slot that a `buffer_queue` is about. -/
def nextIdx (dir : Dir) (s : State) : Nat := ((readl bar0 s.ram (fbIdx dir) + 1) % 4).toNat

def hostStep (s : State) : Dir → State
  | .output =>
    match s.output with
    | none   => s
    | some c =>
      if h : c.done < c.data.length then
        { s with ram := hostWrite bar0 s.ram (c.fbIdx * pcieBufSize + c.done) c.data[c.done]
                 output := some { c with done := c.done + 1 } }
      else
        { s with ram := writel bar0 s.ram (fbIdx .output) (BitVec.ofNat 32 c.fbIdx), output := none
                 frames := Function.update s.frames c.fbIdx (some c.data), count := s.count + 1 }
  | .input =>
    match s.input with
    | none   => s
    | some c =>
      if c.done < c.data.length then
        { s with input := some { c with
            data := c.data.set c.done (hostRead bar0 s.ram (readBufOff + c.done)), done := c.done + 1 } }
      else { s with ram := writel bar0 s.ram (fbIdx .input) (BitVec.ofNat 32 c.fbIdx), input := none }

def step (s : State) : Event ρ → State
  | .queue .output b =>
    if s.output.isSome then s else { s with output := some ⟨nextIdx bar0 .output s, b.data, 0⟩ }
  | .queue .input b =>
    if s.input.isSome then s else { s with input := some ⟨nextIdx bar0 .input s, b.data, 0⟩ }
  | .host dir   => hostStep bar0 s dir
  | .update env =>
    { s with proc := processorUpdate p { env with pcieInFbIndex := load s.ram pcieInFbIndex } s.proc
             seen := s.count }

/-- Both channels are registered. -/
def registered (ram : Nat → Byte) (proc : Processor.State) : State where
  ram    := writel bar0 (writel bar0 ram (fbIdx .input) 0) (fbIdx .output) 0
  output := none
  input  := none
  proc   := proc
  frames := fun _ => none
  count  := 0
  seen   := 0

/-! ## Who touches what -/

def InSlot (n a : Nat) : Prop := n * pcieBufSize ≤ a ∧ a < (n + 1) * pcieBufSize

/-- The published index. -/
def published (s : State) : Nat := (readl bar0 s.ram (fbIdx .output)).toNat

/-- A pixel goes into the slot behind the published one, and neither there nor to an index word nor to what an input
frame is read from; and a slot is published when the whole frame is in it. -/
def Confined (s : State) : Event ρ → Prop
  | .host .output => ∀ c ∈ s.output,
      if c.done < c.data.length then
        let a := c.fbIdx * pcieBufSize + c.done
        InSlot ((published bar0 s + 1) % 4) a ∧ ¬ InSlot (published bar0 s) a ∧
          (∀ dir, a < fbIdx dir ∨ fbIdx dir + 4 ≤ a) ∧
          ∀ b : Buffer ρ, ¬ (readBufOff ≤ a ∧ a < readBufOff + b.data.length)
      else c.fbIdx = (published bar0 s + 1) % 4 ∧
        ∀ i (h : i < c.data.length), hostRead bar0 s.ram (c.fbIdx * pcieBufSize + i) = c.data[i]
  | _ => True

/-- `processor_update` has run between this publication and the last but one. -/
def Timely (s : State) : Event ρ → Prop
  | .host .output => ∀ c ∈ s.output, c.done = c.data.length → s.count ≤ s.seen + 1
  | _             => True

/-- `processor_update` gives the output the PCIe slot. -/
structure Follows (proc : Processor.State) (k : Fin 2) : Prop where
  hasPcie : p.hasPcie = true
  hasOut  : p.hasOut k = true
  source0 : proc.outSource 0 = videoInPcie
  source  : proc.outSource k ≠ videoInPattern

/-- The buffer that the output reads holds a frame that was published there, with the bytes of its words reversed. -/
def Shows (k : Fin 2) (s : State) : Prop :=
  ∃ n data, n < 4 ∧ (s.proc.out k).base = pcieInFramebufferBase (BitVec.ofNat 8 n) ∧ s.frames n = some data ∧
    ∀ i (h : i < data.length), s.ram ((s.proc.out k).base.toNat + swapped i) = data[i]

/-! ## Memory through the bridge -/

theorem swapped_inj {a b : Nat} (h : swapped a = swapped b) : a = b := by
  unfold swapped at h
  omega

variable {bar0}

theorem hostRead_hostWrite (ram : Nat → Byte) (a : Nat) (b : Byte) :
    hostRead bar0 (hostWrite bar0 ram a b) = Function.update (hostRead bar0 ram) a b := by
  funext x
  unfold hostRead hostWrite
  by_cases hx : x = a
  · subst hx
    simp
  · rw [Function.update_of_ne hx, Function.update_of_ne]
    intro h
    exact hx (swapped_inj (Nat.add_left_cancel h))

theorem hostRead_writel_of_ne (ram : Nat → Byte) {a x : Nat} (w : Word) (h : x < a ∨ a + 4 ≤ x) :
    hostRead bar0 (writel bar0 ram a w) x = hostRead bar0 ram x := by
  simp only [writel, hostRead_hostWrite]
  rw [Function.update_of_ne (by omega), Function.update_of_ne (by omega), Function.update_of_ne (by omega),
    Function.update_of_ne (by omega)]

theorem readl_congr {ram ram' : Nat → Byte} {a : Nat}
    (h : ∀ x, a ≤ x → x < a + 4 → hostRead bar0 ram x = hostRead bar0 ram' x) :
    readl bar0 ram a = readl bar0 ram' a := by
  simp only [readl, h a (Nat.le_refl a) (by omega), h (a + 1) (by omega) (by omega), h (a + 2) (by omega) (by omega),
    h (a + 3) (by omega) (by omega)]

theorem readl_writel (ram : Nat → Byte) (a : Nat) (w : Word) : readl bar0 (writel bar0 ram a w) a = w := by
  have h : ∀ n, n < 4 → hostRead bar0 (writel bar0 ram a w) (a + n) = w.extractLsb' (8 * n) 8 := by
    intro n hn
    simp only [writel, hostRead_hostWrite]
    match n, hn with
    | 0, _ => simp
    | 1, _ => simp
    | 2, _ => simp
    | 3, _ => simp
  have h0 : hostRead bar0 (writel bar0 ram a w) a = w.extractLsb' 0 8 := h 0 (by decide)
  rw [readl, h 3 (by decide), h 2 (by decide), h 1 (by decide), h0]
  exact Memory.be32_of_bytes w

theorem append_shiftRight (a b c d : Byte) : (a ++ b ++ c ++ d : BitVec 32) >>> 24 = a.setWidth 32 := by
  apply BitVec.eq_of_getLsbD_eq
  intro i hi
  simp only [BitVec.getLsbD_ushiftRight, BitVec.getLsbD_append, BitVec.getLsbD_setWidth, hi, decide_true, Bool.true_and]
  rw [if_neg (by omega), if_neg (by omega), if_neg (by omega)]
  congr 1
  omega

theorem setWidth_low : ∀ n, n < 4 → ((BitVec.ofNat 32 n).extractLsb' 0 8).setWidth 32 = BitVec.ofNat 32 n := by decide

/-- The firmware finds the index that the host wrote in the high byte of its word. -/
theorem load_index (ram : Nat → Byte) {a n : Nat} (ha : a % 4 = 0) (hn : n < 4)
    (h : readl bar0 ram a = BitVec.ofNat 32 n) : (load ram (bar0 + a) >>> 24).setWidth 8 = BitVec.ofNat 8 n := by
  have hlow : hostRead bar0 ram a = (BitVec.ofNat 32 n).extractLsb' 0 8 := by
    rw [← h, readl]
    exact (Memory.extractLsb'_append_low _ _).symm
  have hhigh : ram (bar0 + a + 3) = hostRead bar0 ram a := by
    rw [hostRead, swapped]
    congr 1
    omega
  rw [load, hhigh, hlow, append_shiftRight, setWidth_low n hn]
  exact BitVec.setWidth_ofNat_of_le (by decide) n

/-! ## The invariant -/

/-- The bytes of a frame of 1920x1080. -/
def frameMax : Nat := 1920 * 2 * 1080

theorem Buffer.length_le (b : Buffer ρ) : b.data.length ≤ frameMax := by
  have hw := b.width
  have hh := b.height
  have hheight : (fillPixFormat b.timings b.pix).height.toNat ≤ 1080 := by
    simp only [fillPixFormat]
    split
    · rw [BitVec.toNat_udiv]
      exact (Nat.div_le_self _ _).trans hh
    · exact hh
  have hsize : (fillPixFormat b.timings b.pix).sizeimage =
      b.timings.width * 2 * (fillPixFormat b.timings b.pix).height := rfl
  rw [b.size, hsize, BitVec.toNat_mul, BitVec.toNat_mul]
  calc _ ≤ (b.timings.width.toNat * (2 : BitVec 32).toNat % 2 ^ 32) * (fillPixFormat b.timings b.pix).height.toNat :=
        Nat.mod_le _ _
    _ ≤ (1920 * 2) * 1080 := Nat.mul_le_mul ((Nat.mod_le _ _).trans (Nat.mul_le_mul_right _ hw)) hheight

/-- The slot holds the bytes. -/
def Holds (bar0 : Nat) (ram : Nat → Byte) (n : Nat) (data : List Byte) : Prop :=
  ∀ i (h : i < data.length), hostRead bar0 ram (n * pcieBufSize + i) = data[i]

/-- The slot that the next output frame goes to. -/
def free (bar0 : Nat) (s : State) : Nat := (published bar0 s + 1) % 4

structure Inv (bar0 : Nat) (s : State) : Prop where
  index  : published bar0 s < 4
  copy   : ∀ c ∈ s.output, c.fbIdx = free bar0 s ∧ c.data.length ≤ frameMax ∧ c.done ≤ c.data.length ∧
    Holds bar0 s.ram c.fbIdx (c.data.take c.done)
  frames : ∀ n, n < 4 → n ≠ free bar0 s → ∀ data ∈ s.frames n, data.length ≤ frameMax ∧ Holds bar0 s.ram n data
  first  : 0 < s.count → (s.frames (published bar0 s)).isSome
  seen   : s.seen ≤ s.count

/-- The output reads the slot that was published last, or one or two before. -/
def Recent (bar0 : Nat) (k : Fin 2) (s : State) : Prop :=
  0 < s.seen → s.count ≤ s.seen + 2 ∧ ∃ n, n < 4 ∧ (s.proc.out k).base = pcieInFramebufferBase (BitVec.ofNat 8 n) ∧
    published bar0 s = (n + (s.count - s.seen)) % 4 ∧ (s.frames n).isSome

theorem published_congr {s t : State} (h : ∀ x, fbIdx .output ≤ x → x < fbIdx .output + 4 →
    hostRead bar0 s.ram x = hostRead bar0 t.ram x) : published bar0 s = published bar0 t := by
  rw [published, published, readl_congr h]

theorem Holds.congr {ram ram' : Nat → Byte} {n : Nat} {data : List Byte} (h : Holds bar0 ram n data)
    (hsame : ∀ i, i < data.length → hostRead bar0 ram' (n * pcieBufSize + i) = hostRead bar0 ram (n * pcieBufSize + i)) :
    Holds bar0 ram' n data := by
  intro i hi
  rw [hsame i hi]
  exact h i hi

theorem fbIdx_output : fbIdx .output = 4 * pcieBufSize - 4 := rfl

theorem fbIdx_input : fbIdx .input = 8 * pcieBufSize - 4 := rfl

/-- A frame's bytes stay below the index word of their slot. -/
theorem slot_bounds {n i : Nat} (hn : n < 4) (hi : i < frameMax) :
    n * pcieBufSize ≤ n * pcieBufSize + i ∧ n * pcieBufSize + i < (n + 1) * pcieBufSize - 4 ∧
      n * pcieBufSize + i < fbIdx .output := by
  unfold frameMax at hi
  rw [fbIdx_output, pcieBufSize]
  omega

theorem slots_ne {n m i j : Nat} (h : n ≠ m) (hi : i < frameMax) (hj : j < frameMax) :
    n * pcieBufSize + i ≠ m * pcieBufSize + j := by
  unfold frameMax at hi hj
  unfold pcieBufSize
  omega

theorem nextIdx_output {s : State} (h : Inv bar0 s) : nextIdx bar0 .output s = free bar0 s := by
  have hlt := h.index
  have h1 : (1 : Word).toNat = 1 := rfl
  have h4 : (4 : Word).toNat = 4 := rfl
  simp only [nextIdx, free, published] at *
  rw [BitVec.toNat_umod, BitVec.toNat_add, h1, h4]
  omega

/-! ## One step -/

theorem Inv.queue {s : State} (h : Inv bar0 s) (dir : Dir) (b : Buffer ρ) :
    Inv bar0 (step bar0 p s (.queue dir b)) := by
  cases dir with
  | output =>
    simp only [step]
    split
    · exact h
    · refine { index := h.index, copy := ?_, frames := h.frames, first := h.first, seen := h.seen }
      intro c hc
      cases hc
      exact ⟨nextIdx_output h, b.length_le, Nat.zero_le _, nofun⟩
  | input =>
    simp only [step]
    split
    · exact h
    · exact { index := h.index, copy := h.copy, frames := h.frames, first := h.first, seen := h.seen }

/-- A write outside the frames and the index word is of no matter. -/
theorem Inv.of_same {s t : State} (h : Inv bar0 s)
    (hram : ∀ x, x < fbIdx .output + 4 → hostRead bar0 t.ram x = hostRead bar0 s.ram x) (hout : t.output = s.output)
    (hframes : t.frames = s.frames) (hcount : t.count = s.count) (hseen : t.seen ≤ t.count) : Inv bar0 t := by
  have hpub : published bar0 t = published bar0 s := published_congr fun x _ hx => hram x hx
  have hfree : free bar0 t = free bar0 s := by rw [free, hpub, free]
  have hholds : ∀ n data, n < 4 → data.length ≤ frameMax → Holds bar0 s.ram n data → Holds bar0 t.ram n data := by
    intro n data hn hlen hd
    refine hd.congr fun i hi => hram _ ?_
    have := slot_bounds hn (Nat.lt_of_lt_of_le hi hlen)
    omega
  refine { index := ?_, copy := ?_, frames := ?_, first := ?_, seen := hseen }
  · rw [hpub]
    exact h.index
  · intro c hc
    rw [hout] at hc
    obtain ⟨hidx, hlen, hdone, hd⟩ := h.copy c hc
    have hlt : c.fbIdx < 4 := by rw [hidx]; exact Nat.mod_lt _ (by decide)
    exact ⟨by rw [hfree, hidx], hlen, hdone, hholds _ _ hlt (by rw [List.length_take]; omega) hd⟩
  · intro n hn hne data hdata
    rw [hframes] at hdata
    rw [hfree] at hne
    obtain ⟨hlen, hd⟩ := h.frames n hn hne data hdata
    exact ⟨hlen, hholds n data hn hlen hd⟩
  · rw [hcount, hframes, hpub]
    exact h.first

/-- A pixel goes into the free slot. -/
theorem Inv.pixel {s : State} (h : Inv bar0 s) {c : Copy} (hc : s.output = some c) (hlt : c.done < c.data.length) :
    Inv bar0 (hostStep bar0 s .output) := by
  obtain ⟨hidx, hlen, hdone, hd⟩ := h.copy c hc
  have hfree : free bar0 s < 4 := Nat.mod_lt _ (by decide)
  have hslot : c.fbIdx < 4 := by rw [hidx]; exact hfree
  have hat := slot_bounds hslot (Nat.lt_of_lt_of_le hlt hlen)
  have hother : ∀ x, x ≠ c.fbIdx * pcieBufSize + c.done →
      hostRead bar0 (hostWrite bar0 s.ram (c.fbIdx * pcieBufSize + c.done) c.data[c.done]) x = hostRead bar0 s.ram x := by
    intro x hx
    rw [hostRead_hostWrite, Function.update_of_ne hx]
  simp only [hostStep, hc, dif_pos hlt]
  have hpub : published bar0 { s with
      ram := hostWrite bar0 s.ram (c.fbIdx * pcieBufSize + c.done) c.data[c.done],
      output := some { c with done := c.done + 1 } } = published bar0 s :=
    published_congr fun x hx _ => hother x (by omega)
  refine { index := ?_, copy := ?_, frames := ?_, first := ?_, seen := h.seen }
  · rw [hpub]
    exact h.index
  · intro d hcd
    cases hcd
    refine ⟨by rw [free, hpub, hidx, free], hlen, hlt, ?_⟩
    intro i hi
    have hle : i < c.done + 1 := Nat.lt_of_lt_of_le hi (List.length_take_le _ _)
    show hostRead bar0 _ (c.fbIdx * pcieBufSize + i) = _
    rw [List.getElem_take]
    by_cases heq : i = c.done
    · subst heq
      rw [hostRead_hostWrite, Function.update_self]
    · have hi' : i < (c.data.take c.done).length := by
        rw [List.length_take]
        omega
      rw [hother _ (by omega), hd i hi', List.getElem_take]
  · intro n hn hne data hdata
    rw [free, hpub] at hne
    obtain ⟨hl, hh⟩ := h.frames n hn hne data hdata
    refine ⟨hl, hh.congr fun i hi => hother _ ?_⟩
    exact slots_ne (by rw [hidx]; exact hne) (Nat.lt_of_lt_of_le hi hl) (Nat.lt_of_lt_of_le hlt hlen)
  · rw [hpub]
    exact h.first

theorem published_writel (s t : State) (n : Nat) (hn : n < 4)
    (ht : t.ram = writel bar0 s.ram (fbIdx .output) (BitVec.ofNat 32 n)) : published bar0 t = n := by
  rw [published, ht, readl_writel, BitVec.toNat_ofNat]
  omega

/-- The frame is published. -/
theorem Inv.publish {s : State} (h : Inv bar0 s) {c : Copy} (hc : s.output = some c) (hge : ¬ c.done < c.data.length) :
    Inv bar0 (hostStep bar0 s .output) := by
  obtain ⟨hidx, hlen, hdone, hd⟩ := h.copy c hc
  have hfree : free bar0 s < 4 := Nat.mod_lt _ (by decide)
  have hslot : c.fbIdx < 4 := by rw [hidx]; exact hfree
  have heq : c.done = c.data.length := by omega
  rw [heq, List.take_length] at hd
  have hholds : ∀ n data, n < 4 → data.length ≤ frameMax → Holds bar0 s.ram n data →
      Holds bar0 (writel bar0 s.ram (fbIdx .output) (BitVec.ofNat 32 c.fbIdx)) n data := by
    intro n data hn hl hh
    refine hh.congr fun i hi => hostRead_writel_of_ne _ _ (.inl ?_)
    exact (slot_bounds hn (Nat.lt_of_lt_of_le hi hl)).2.2
  simp only [hostStep, hc, dif_neg hge]
  have hpub : published bar0 { s with
      ram := writel bar0 s.ram (fbIdx .output) (BitVec.ofNat 32 c.fbIdx), output := none,
      frames := Function.update s.frames c.fbIdx (some c.data), count := s.count + 1 } = c.fbIdx :=
    published_writel s _ c.fbIdx hslot rfl
  refine { index := ?_, copy := nofun, frames := ?_, first := ?_, seen := Nat.le_succ_of_le h.seen }
  · rw [hpub]
    exact hslot
  · intro n hn hne data hdata
    by_cases hns : n = c.fbIdx
    · subst hns
      simp only [Function.update_self, Option.mem_def, Option.some.injEq] at hdata
      subst hdata
      exact ⟨hlen, hholds _ _ hn hlen hd⟩
    · simp only [Function.update_of_ne hns] at hdata
      obtain ⟨hl, hh⟩ := h.frames n hn (by rw [← hidx]; exact hns) data hdata
      exact ⟨hl, hholds n data hn hl hh⟩
  · intro _
    rw [hpub]
    simp

theorem Inv.host {s : State} (h : Inv bar0 s) (dir : Dir) : Inv bar0 (hostStep bar0 s dir) := by
  cases dir with
  | output =>
    cases hc : s.output with
    | none   =>
      simp only [hostStep, hc]
      exact h
    | some c =>
      by_cases hlt : c.done < c.data.length
      · exact h.pixel hc hlt
      · exact h.publish hc hlt
  | input =>
    cases hc : s.input with
    | none   =>
      simp only [hostStep, hc]
      exact h
    | some c =>
      simp only [hostStep, hc]
      split
      · exact h.of_same (fun _ _ => rfl) rfl rfl rfl h.seen
      · refine h.of_same (fun x hx => hostRead_writel_of_ne _ _ (.inl ?_)) rfl rfl rfl h.seen
        rw [fbIdx_output] at hx
        rw [fbIdx_input]
        unfold pcieBufSize at *
        omega

theorem Inv.step {s : State} (h : Inv bar0 s) (e : Event ρ) : Inv bar0 (step bar0 p s e) := by
  cases e with
  | queue dir b => exact h.queue p dir b
  | host dir    => exact h.host dir
  | update env  => exact h.of_same (fun _ _ => rfl) rfl rfl rfl (Nat.le_refl _)

/-- Away from a publication the output falls no further behind. -/
theorem Recent.of_same {k : Fin 2} {s t : State} (h : Recent bar0 k s) (hpub : published bar0 t = published bar0 s)
    (hproc : t.proc = s.proc) (hframes : t.frames = s.frames) (hcount : t.count = s.count) (hseen : t.seen = s.seen) :
    Recent bar0 k t := by
  intro hpos
  rw [hseen] at hpos
  rw [hpub, hproc, hframes, hcount, hseen]
  exact h hpos

theorem published_pixel {s : State} (h : Inv bar0 s) {c : Copy} (hc : s.output = some c) (hlt : c.done < c.data.length) :
    published bar0 (hostStep bar0 s .output) = published bar0 s := by
  obtain ⟨hidx, hlen, -, -⟩ := h.copy c hc
  have hslot : c.fbIdx < 4 := by rw [hidx]; exact Nat.mod_lt _ (by decide)
  have hat := slot_bounds hslot (Nat.lt_of_lt_of_le hlt hlen)
  simp only [hostStep, hc, dif_pos hlt]
  refine published_congr fun x hx _ => ?_
  rw [hostRead_hostWrite, Function.update_of_ne (by omega)]

theorem Recent.publish {k : Fin 2} {s : State} (h : Recent bar0 k s) (hinv : Inv bar0 s) {c : Copy}
    (hc : s.output = some c) (hge : ¬ c.done < c.data.length) (htime : s.count ≤ s.seen + 1) :
    Recent bar0 k (hostStep bar0 s .output) := by
  obtain ⟨hidx, -, -, -⟩ := hinv.copy c hc
  have hslot : c.fbIdx < 4 := by rw [hidx]; exact Nat.mod_lt _ (by decide)
  have hseen := hinv.seen
  simp only [hostStep, hc, dif_neg hge]
  intro hpos
  obtain ⟨-, n, hn, hbase, hpub, hsome⟩ := h hpos
  refine ⟨Nat.succ_le_succ htime, n, hn, hbase, ?_, ?_⟩
  · rw [published_writel s _ c.fbIdx hslot rfl, hidx, free, hpub]
    show _ = (n + (s.count + 1 - s.seen)) % 4
    omega
  · show (Function.update s.frames c.fbIdx (some c.data) n).isSome
    by_cases hns : n = c.fbIdx
    · subst hns
      simp
    · rw [Function.update_of_ne hns]
      exact hsome

theorem Follows.update {k : Fin 2} {proc : Processor.State} (h : Follows p proc k) (env : Env) :
    Follows p (processorUpdate p env proc) k where
  hasPcie := h.hasPcie
  hasOut  := h.hasOut
  source0 := h.source0
  source  := h.source

theorem Follows.step {k : Fin 2} {s : State} (h : Follows p s.proc k) (e : Event ρ) :
    Follows p (step bar0 p s e).proc k := by
  cases e with
  | queue dir b =>
    cases dir <;>
      (simp only [PcieSlots.step]
       split <;> exact h)
  | host dir =>
    cases dir <;>
      (simp only [PcieSlots.step, hostStep]
       repeat' split
       all_goals exact h)
  | update env => exact h.update p _

theorem Follows.base {k : Fin 2} {proc : Processor.State} (h : Follows p proc k) (env : Env) :
    ((processorUpdate p env proc).out k).base = pcieInFramebufferBase ((env.pcieInFbIndex >>> 24).setWidth 8) := by
  refine (base_processorUpdate (k := .out k) proc h.hasOut).trans ?_
  simp [sourceBase, Sink.source, Sink.pcieSource, h.source, h.source0, h.hasPcie]

theorem Recent.update {k : Fin 2} {s : State} (hinv : Inv bar0 s) (hbar : bar0 = framebufferBasePcie.toNat)
    (hk : Follows p s.proc k) (env : Env) : Recent bar0 k (step bar0 p s (.update env : Event ρ)) := by
  intro hpos
  have hindex : readl bar0 s.ram (fbIdx .output) = BitVec.ofNat 32 (published bar0 s) := by
    rw [published, BitVec.ofNat_toNat, BitVec.setWidth_eq]
  have hat : pcieInFbIndex = bar0 + fbIdx .output := by
    rw [hbar]
    decide
  have hload : (load s.ram pcieInFbIndex >>> 24).setWidth 8 = BitVec.ofNat 8 (published bar0 s) := by
    rw [hat]
    exact load_index s.ram (by decide) hinv.index hindex
  refine ⟨Nat.le_add_right _ _, published bar0 s, hinv.index, ?_, ?_, hinv.first hpos⟩
  · show ((processorUpdate p _ s.proc).out k).base = _
    rw [hk.base, hload]
  · show published bar0 s = (published bar0 s + (s.count - s.count)) % 4
    have := hinv.index
    omega

/-- A step keeps the output near the host, if it is timely. -/
theorem Recent.step {k : Fin 2} {s : State} (h : Recent bar0 k s) (hinv : Inv bar0 s)
    (hbar : bar0 = framebufferBasePcie.toNat) (hk : Follows p s.proc k) (e : Event ρ) (hok : Timely s e) :
    Recent bar0 k (step bar0 p s e) := by
  cases e with
  | queue dir b =>
    cases dir <;>
      (simp only [PcieSlots.step]
       split
       · exact h
       · exact h.of_same rfl rfl rfl rfl rfl)
  | host dir =>
    cases dir with
    | output =>
      cases hc : s.output with
      | none   =>
        simp only [PcieSlots.step, hostStep, hc]
        exact h
      | some c =>
        by_cases hlt : c.done < c.data.length
        · refine h.of_same (published_pixel hinv hc hlt) ?_ ?_ ?_ ?_ <;>
            simp only [PcieSlots.step, hostStep, hc, dif_pos hlt]
        · refine h.publish hinv hc hlt (hok c hc ?_)
          have := (hinv.copy c hc).2.2.1
          omega
    | input =>
      cases hc : s.input with
      | none   =>
        simp only [PcieSlots.step, hostStep, hc]
        exact h
      | some c =>
        simp only [PcieSlots.step, hostStep, hc]
        split
        · exact h.of_same rfl rfl rfl rfl rfl
        · refine h.of_same (published_congr fun x _ hx => hostRead_writel_of_ne _ _ (.inl ?_)) rfl rfl rfl rfl
          rw [fbIdx_output] at hx
          rw [fbIdx_input]
          unfold pcieBufSize at *
          omega
  | update env => exact Recent.update p hinv hbar hk env

/-! ## Every run -/

theorem Inv.confined {s : State} (h : Inv bar0 s) (e : Event ρ) : Confined bar0 s e := by
  cases e with
  | queue dir b => trivial
  | update env  => trivial
  | host dir    =>
    cases dir with
    | input  => trivial
    | output =>
      intro c hc
      obtain ⟨hidx, hlen, hdone, hd⟩ := h.copy c hc
      have hpub := h.index
      have hslot : c.fbIdx < 4 := by rw [hidx]; exact Nat.mod_lt _ (by decide)
      split
      case isTrue hlt =>
        have hat := slot_bounds hslot (Nat.lt_of_lt_of_le hlt hlen)
        have hne : c.fbIdx ≠ published bar0 s := by rw [hidx, free]; omega
        refine ⟨?_, ?_, ?_, ?_⟩
        · rw [← free, ← hidx]
          exact ⟨hat.1, by omega⟩
        · rintro ⟨hle, hlt'⟩
          unfold pcieBufSize at *
          omega
        · intro dir
          cases dir with
          | output => exact .inl hat.2.2
          | input  =>
            left
            have := hat.2.2
            rw [fbIdx_output] at this
            rw [fbIdx_input]
            unfold pcieBufSize at *
            omega
        · rintro b ⟨hle, -⟩
          have := hat.2.2
          rw [fbIdx_output] at this
          unfold readBufOff pcieBufSize at *
          omega
      case isFalse hge =>
        have heq : c.done = c.data.length := by omega
        rw [heq, List.take_length] at hd
        exact ⟨hidx, hd⟩

theorem pcieInFramebufferBase_toNat : ∀ n, n < 4 →
    (pcieInFramebufferBase (BitVec.ofNat 8 n)).toNat = framebufferBasePcie.toNat + n * pcieBufSize := by decide

theorem Recent.shows {k : Fin 2} {s : State} (h : Recent bar0 k s) (hinv : Inv bar0 s)
    (hbar : bar0 = framebufferBasePcie.toNat) (hpos : 0 < s.seen) : Shows k s := by
  obtain ⟨hcount, n, hn, hbase, hpub, hsome⟩ := h hpos
  obtain ⟨data, hdata⟩ := Option.isSome_iff_exists.1 hsome
  have hseen := hinv.seen
  have hne : n ≠ free bar0 s := by
    rw [free, hpub]
    omega
  obtain ⟨-, hh⟩ := hinv.frames n hn hne data hdata
  refine ⟨n, data, hn, hbase, hdata, fun i hi => ?_⟩
  rw [← hh i hi, hostRead, hbase, pcieInFramebufferBase_toNat n hn, hbar]
  congr 1
  unfold swapped pcieBufSize
  omega

theorem published_registered (ram : Nat → Byte) (proc : Processor.State) :
    published bar0 (registered bar0 ram proc) = 0 := by
  rw [published, registered, readl_writel]
  rfl

theorem inv_registered (ram : Nat → Byte) (proc : Processor.State) : Inv bar0 (registered bar0 ram proc) where
  index  := by
    rw [published_registered]
    decide
  copy   := nofun
  frames := nofun
  first  := nofun
  seen   := Nat.le_refl _

/-- **Host and firmware keep apart.**  In every run, wherever the host maps the memory, the pixels of an output frame stay
inside the free slot, away from the published one, the index words and the input frames, and a slot is published when its
frame is whole; and if the firmware has the memory where the host maps it, an output follows the host, and
`processor_update` runs once between any three publications, then from its first run after a publication on, the output
reads a whole frame. -/
theorem slots_apart (ram : Nat → Byte) (proc : Processor.State) (es : List (Event ρ)) :
    AllSteps (step bar0 p) (Confined bar0) (registered bar0 ram proc) es ∧
      (bar0 = framebufferBasePcie.toNat → ∀ k, Follows p proc k →
        AllSteps (step bar0 p) Timely (registered bar0 ram proc) es →
          AllStates (step bar0 p) (fun s => 0 < s.seen → Shows k s) (registered bar0 ram proc) es) := by
  constructor
  · exact Runs.allSteps_of_inv (fun _ e h => h.confined e) (fun _ e h => h.step p e) es (inv_registered ram proc)
  · intro hbar k hk htime
    have hstep : ∀ s (e : Event ρ), (Inv bar0 s ∧ Recent bar0 k s ∧ Follows p s.proc k) → Timely s e →
        True ∧ Inv bar0 (step bar0 p s e) ∧ Recent bar0 k (step bar0 p s e) ∧ Follows p (step bar0 p s e).proc k := by
      rintro s e ⟨hinv, hrecent, hfollows⟩ hok
      exact ⟨trivial, hinv.step p e, hrecent.step p hinv hbar hfollows e hok, hfollows.step p e⟩
    have hstart : Recent bar0 k (registered bar0 ram proc) := nofun
    have hrun := (AllSteps.inv hstep ⟨inv_registered ram proc, hstart, hk⟩ htime).2
    exact hrun.mono fun _ h hpos => h.2.1.shows h.1 hbar hpos

/-- One pixel, copied into slot 1 and published there before the outputs are updated. -/
theorem slots_apart_onePixel :
    let p := { opsis with hasPcie := true }
    let proc : Processor.State := { (default : Processor.State) with outSource := fun _ => videoInPcie }
    let b : Buffer Unit := ⟨⟨1, 1, 0, ()⟩, zeroFormat, [0x12, 0x34], by decide, by decide, by decide⟩
    let es := [.queue .output b, .host .output, .host .output, .host .output, .update default]
    AllSteps (step framebufferBasePcie.toNat p) (Confined framebufferBasePcie.toNat)
        (registered framebufferBasePcie.toNat (fun _ => 0) proc) es ∧
      AllStates (step framebufferBasePcie.toNat p) (fun s => 0 < s.seen → Shows 0 s)
        (registered framebufferBasePcie.toNat (fun _ => 0) proc) es := by
  intro p proc b es
  obtain ⟨hconfined, hshows⟩ := slots_apart p (fun _ => 0) proc es
  refine ⟨hconfined, hshows rfl 0 ⟨rfl, rfl, rfl, by decide⟩ ⟨trivial, ?_, ?_, ?_, trivial, trivial⟩⟩
  · rintro c hc -
    exact Nat.zero_le _
  · rintro c hc -
    exact Nat.zero_le _
  · rintro c hc -
    exact Nat.zero_le _

/-- The outputs are updated before a frame has been published: slot 0 is published from the registration on. -/
theorem not_shows_unpublished :
    ¬ ∀ (p : Platform) (ram : Nat → Byte) (proc : Processor.State) (k : Fin 2), Follows p proc k →
      ∀ es : List (Event Unit), AllSteps (step framebufferBasePcie.toNat p) Timely
        (registered framebufferBasePcie.toNat ram proc) es →
        AllStates (step framebufferBasePcie.toNat p)
          (fun s => ∀ n, n < 4 → (s.proc.out k).base = pcieInFramebufferBase (BitVec.ofNat 8 n) → Shows k s)
          (registered framebufferBasePcie.toNat ram proc) es := by
  intro h
  have hk : Follows { opsis with hasPcie := true }
      { (default : Processor.State) with outSource := fun _ => videoInPcie } 0 := ⟨rfl, rfl, rfl, by decide⟩
  obtain ⟨-, hlast⟩ := h _ (fun _ => 0) _ 0 hk [.update default] ⟨trivial, trivial⟩
  have hread : readl framebufferBasePcie.toNat (registered framebufferBasePcie.toNat (fun _ => 0) default).ram
      (fbIdx .output) = BitVec.ofNat 32 0 := readl_writel _ _ _
  have hload := load_index _ (by decide) (by decide) hread
  obtain ⟨n, data, -, -, hframe, -⟩ := hlast 0 (by decide) ((hk.base _ _).trans (congrArg pcieInFramebufferBase hload))
  cases hframe

end PcieSlots
end Hdmi2Usb
