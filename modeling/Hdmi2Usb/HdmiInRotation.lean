import Hdmi2Usb.HdmiIn
import Hdmi2Usb.Runs
import Mathlib.Tactic.FinCases
/-!
# HdmiInRotation — which buffers the interrupt routine hands out

Of the four buffers of an input, two are armed, one is shown and one is free.  The routine keeps no list of the free
ones: it hands out `next_fb_index` and steps it by one, which is a free buffer as long as the slots complete in turn.
`Rotation` is that bookkeeping without the registers (`call_rotation`), `Turn` counts how often the slot that delivered
last has done so in a row, and `Follows` says where the buffers then lie relative to the next index.
-/
namespace Hdmi2Usb
namespace HdmiIn

open Runs (AllSteps AllStates)

/-! ## One interrupt -/

/-- What the hardware did before an interrupt: for each slot the length it captured, if it is pending. -/
abbrev Capture := Fin 2 → Option Word

def capture (x : Nat) (s : State) (c : Capture) : State :=
  { s with
    dmaSlot := fun k =>
      match c k with
      | none => s.dmaSlot k
      | some length => ⟨.pending, dmaBase x (s.fbSlotIndexes k) + length⟩ }

def call (x : Nat) (s : State) (c : Capture) : State := isr x (capture x s c)

def delivers (length : Word) (c : Capture) (k : Fin 2) : Bool := c k = some length

/-- No slot is armed on the buffer the outputs and the encoder are reading. -/
structure Safe (x : Nat) (s : State) : Prop where
  distinct : s.fbSlotIndexes 0 ≠ s.fbSlotIndexes 1
  shown    : ∀ k, s.fbIndex ≠ s.fbSlotIndexes k
  armed    : ∀ k, (s.dmaSlot k).address ≠ base x s.fbIndex

/-! ## The bookkeeping alone -/

structure Rotation where
  slot  : Fin 2 → Nat
  next  : Nat
  shown : Nat

def State.rotation (s : State) : Rotation := ⟨s.fbSlotIndexes, s.nextFbIndex, s.fbIndex⟩

def Rotation.deliver (k : Fin 2) (r : Rotation) : Rotation :=
  ⟨Function.update r.slot k r.next, (r.next + 1) % framebufferCount, r.slot k⟩

def Rotation.call (g : Fin 2 → Bool) (r : Rotation) : Rotation :=
  let r := if g 0 then r.deliver 0 else r
  if g 1 then r.deliver 1 else r

def Rotation.Safe (r : Rotation) : Prop := r.slot 0 ≠ r.slot 1 ∧ ∀ k, r.shown ≠ r.slot k

def Armed (x : Nat) (s : State) : Prop := ∀ k, s.dmaSlot k = ⟨.loaded, base x (s.fbSlotIndexes k)⟩

theorem isrSlot_pending (x : Nat) (k : Fin 2) (s : State) (b : Option Nat) (length : Word)
    (h : s.dmaSlot k = ⟨.pending, dmaBase x (s.fbSlotIndexes k) + length⟩) :
    isrSlot x k (s, b) =
      if length = expectedLength s then
        ({ s with
            fbSlotIndexes := Function.update s.fbSlotIndexes k s.nextFbIndex
            nextFbIndex := (s.nextFbIndex + 1) % framebufferCount
            dmaSlot := Function.update s.dmaSlot k ⟨.loaded, base x s.nextFbIndex⟩ }, some (s.fbSlotIndexes k))
      else ({ s with dmaSlot := Function.update s.dmaSlot k ⟨.loaded, base x (s.fbSlotIndexes k)⟩ }, b) := by
  have hlen : dmaBase x (s.fbSlotIndexes k) + length - dmaBase x (s.fbSlotIndexes k) = length := by
    rw [BitVec.add_comm, BitVec.add_sub_cancel]
  simp only [isrSlot, h, if_true, hlen, and_framebufferMask]
  split
  · rfl
  · simp

theorem isrSlot_idle (x : Nat) (k : Fin 2) (s : State) (b : Option Nat) (h : (s.dmaSlot k).status ≠ .pending) :
    isrSlot x k (s, b) = (s, b) := by
  simp only [isrSlot, if_neg h]

def view (acc : State × Option Nat) : Rotation := ⟨acc.1.fbSlotIndexes, acc.1.nextFbIndex, acc.2.getD acc.1.fbIndex⟩

structure SlotDone (x : Nat) (k : Fin 2) (c : Option Word) (acc acc' : State × Option Nat) : Prop where
  rotation : view acc' = if c = some (expectedLength acc.1) then (view acc).deliver k else view acc
  armed    : acc'.1.dmaSlot k = ⟨.loaded, base x (acc'.1.fbSlotIndexes k)⟩
  frame    : ∀ j, j ≠ k → acc'.1.dmaSlot j = acc.1.dmaSlot j ∧ acc'.1.fbSlotIndexes j = acc.1.fbSlotIndexes j
  length   : expectedLength acc'.1 = expectedLength acc.1

theorem isrSlot_done (x : Nat) (k : Fin 2) (c : Option Word) (s : State) (b : Option Nat)
    (h : s.dmaSlot k = match c with
      | none => ⟨.loaded, base x (s.fbSlotIndexes k)⟩
      | some length => ⟨.pending, dmaBase x (s.fbSlotIndexes k) + length⟩) :
    SlotDone x k c (s, b) (isrSlot x k (s, b)) := by
  cases c with
  | none =>
    rw [isrSlot_idle x k s b (by rw [h]; simp)]
    exact ⟨by simp, h, fun j _ => ⟨rfl, rfl⟩, rfl⟩
  | some length =>
    rw [isrSlot_pending x k s b length h]
    by_cases hl : length = expectedLength s
    · rw [if_pos hl]
      exact ⟨by simp [view, Rotation.deliver, hl], by simp, fun j hj => by simp [hj], rfl⟩
    · rw [if_neg hl]
      exact ⟨by simp [view, hl], by simp, fun j hj => by simp [hj], rfl⟩

theorem isr_eq (x : Nat) (s : State) : ∃ console, isr x s =
    let r := isrSlot x 1 (isrSlot x 0 ({ s with console }, none))
    { r.1 with fbIndex := r.2.getD r.1.fbIndex } := ⟨_, rfl⟩

/-- **An interrupt on armed slots** does to the indexes what `Rotation.call` does, and leaves the slots armed. -/
theorem call_rotation (x : Nat) (s : State) (c : Capture) (h : Armed x s) :
    (call x s c).rotation = s.rotation.call (delivers (expectedLength s) c) ∧ Armed x (call x s c) ∧
      expectedLength (call x s c) = expectedLength s := by
  obtain ⟨console, he⟩ := isr_eq x (capture x s c)
  unfold call
  rw [he]
  have hcap : ∀ k, (capture x s c).dmaSlot k = match c k with
      | none => ⟨.loaded, base x (s.fbSlotIndexes k)⟩
      | some length => ⟨.pending, dmaBase x (s.fbSlotIndexes k) + length⟩ := by
    intro k
    simp only [capture]
    cases c k with
    | none => exact h k
    | some length => rfl
  have d0 := isrSlot_done x 0 (c 0) { capture x s c with console } none (hcap 0)
  generalize hr0 : isrSlot x 0 ({ capture x s c with console }, none) = r0 at d0
  obtain ⟨s0, b0⟩ := r0
  have d1 := isrSlot_done x 1 (c 1) s0 b0 (by
    obtain ⟨hd, hi⟩ := d0.frame 1 (by decide)
    rw [hd, hi]
    exact hcap 1)
  generalize hr1 : isrSlot x 1 (s0, b0) = r1 at d1
  have hlen0 : expectedLength s0 = expectedLength s := d0.length
  refine ⟨?_, ?_, ?_⟩
  · show view r1 = _
    rw [d1.rotation, d0.rotation]
    simp only [Rotation.call, delivers, decide_eq_true_eq, hlen0]
    rfl
  · intro k
    fin_cases k
    · obtain ⟨hd, hi⟩ := d1.frame 0 (by decide)
      show r1.1.dmaSlot 0 = ⟨.loaded, base x (r1.1.fbSlotIndexes 0)⟩
      rw [hd, hi]
      exact d0.armed
    · exact d1.armed
  · exact d1.length.trans hlen0

/-! ## Whose turn it is -/

/-- The slot that delivered last, and how often in a row.  `enable` leaves the buffers as if slot 1 had just
delivered. -/
structure Turn where
  last : Fin 2
  run  : Nat
deriving DecidableEq

def Turn.start : Turn := ⟨1, 1⟩

def Turn.deliver (k : Fin 2) (t : Turn) : Turn := ⟨k, if k = t.last then t.run + 1 else 1⟩

def Turn.call (g : Fin 2 → Bool) (t : Turn) : Turn :=
  let t := if g 0 then t.deliver 0 else t
  if g 1 then t.deliver 1 else t

/-- **The deliveries an interrupt may bring**: one, unless a slot has delivered three times in a row; both (slot 0
is taken first), unless slot 0 has just delivered twice in a row. -/
def Turn.Allows (t : Turn) (g : Fin 2 → Bool) : Prop :=
  match g 0, g 1 with
  | false, false => True
  | true,  true  => t.last = 1 ∨ t.run ≤ 1
  | _,     _     => t.run ≤ 2

instance (t : Turn) (g : Fin 2 → Bool) : Decidable (t.Allows g) := by
  unfold Turn.Allows
  split <;> infer_instance

def InTurn (length : Word) (cs : List Capture) : Prop :=
  AllSteps (fun t c => Turn.call (delivers length c) t) (fun t c => t.Allows (delivers length c)) Turn.start cs

/-- The slot that delivered last holds the buffer before the next one; the other slot's lies one further back for each
delivery of the row. -/
structure Follows (t : Turn) (r : Rotation) : Prop where
  next   : r.next < framebufferCount
  pos    : 1 ≤ t.run
  le     : t.run ≤ 3
  last   : r.slot t.last = (r.next + 3) % framebufferCount
  other  : r.slot (t.last + 1) = (r.next + 3 - t.run) % framebufferCount
  shown  : ∀ k, r.shown ≠ r.slot k
  shown' : r.shown < framebufferCount

theorem fin2_cases (k : Fin 2) : k = 0 ∨ k = 1 := by omega

theorem Follows.safe {t : Turn} {r : Rotation} (h : Follows t r) : r.Safe := by
  obtain ⟨k, n⟩ := t
  obtain ⟨hn, hp, hle, hl, ho, hs, -⟩ := h
  refine ⟨?_, hs⟩
  simp only [framebufferCount] at *
  rcases fin2_cases k with rfl | rfl
  all_goals
    simp only [Fin.isValue, zero_add, Fin.reduceAdd] at hl ho
    omega

theorem Follows.call {t : Turn} {r : Rotation} (h : Follows t r) (g : Fin 2 → Bool) (ha : t.Allows g) :
    Follows (t.call g) (r.call g) := by
  obtain ⟨k, n⟩ := t
  obtain ⟨slot, next, shown⟩ := r
  obtain ⟨hn, hp, hle, hl, ho, hs, hs'⟩ := h
  have h0 := hs 0
  have h1 := hs 1
  simp only [framebufferCount] at *
  rcases fin2_cases k with rfl | rfl <;> cases hg0 : g 0 <;> cases hg1 : g 1
  all_goals
    simp [Turn.Allows, hg0, hg1] at ha hl ho
    constructor
    all_goals
      simp [Turn.call, Turn.deliver, Rotation.call, Rotation.deliver, hg0, hg1, framebufferCount, Function.update]
      try omega

theorem Follows.not_safe {t : Turn} {r : Rotation} (h : Follows t r) (g : Fin 2 → Bool) (ha : ¬ t.Allows g) :
    ¬ (r.call g).Safe := by
  obtain ⟨k, n⟩ := t
  obtain ⟨slot, next, shown⟩ := r
  obtain ⟨hn, hp, hle, hl, ho, -, -⟩ := h
  simp only [framebufferCount] at *
  rcases fin2_cases k with rfl | rfl <;> cases hg0 : g 0 <;> cases hg1 : g 1
  all_goals simp [Turn.Allows, hg0, hg1] at ha hl ho
  all_goals
    simp [Rotation.Safe, Rotation.call, Rotation.deliver, hg0, hg1, framebufferCount, Function.update]
    try omega

/-! ## From the indexes to the addresses -/

theorem base_inj (x : Nat) {m n : Nat} (hm : m < framebufferCount) (hn : n < framebufferCount)
    (h : base x m = base x n) : m = n := by
  have h' := (BitVec.add_right_inj (framebufferBaseHdmiInput x)).1 h
  simp only [framebufferCount, framebufferSize] at *
  have hm' : m = 0 ∨ m = 1 ∨ m = 2 ∨ m = 3 := by omega
  have hn' : n = 0 ∨ n = 1 ∨ n = 2 ∨ n = 3 := by omega
  rcases hm' with rfl | rfl | rfl | rfl <;> rcases hn' with rfl | rfl | rfl | rfl <;> first | rfl | simp at h'

structure Tracks (x : Nat) (length : Word) (s : State) (t : Turn) : Prop where
  armed   : Armed x s
  length  : expectedLength s = length
  follows : Follows t s.rotation

theorem Tracks.enable (x : Nat) (s : State) : Tracks x (expectedLength s) (HdmiIn.enable x s) Turn.start where
  armed := fun k => by rcases fin2_cases k with rfl | rfl <;> rfl
  length := rfl
  follows := by
    show Follows Turn.start ⟨![0, 1], 2, 3⟩
    constructor <;> decide

theorem Follows.index_lt {t : Turn} {r : Rotation} (h : Follows t r) (k : Fin 2) : r.slot k < framebufferCount := by
  have hk : k = t.last ∨ k = t.last + 1 := by omega
  rcases hk with rfl | rfl
  · rw [h.last]; exact Nat.mod_lt _ (by decide)
  · rw [h.other]; exact Nat.mod_lt _ (by decide)

theorem Tracks.safe {x : Nat} {length : Word} {s : State} {t : Turn} (h : Tracks x length s t) : Safe x s where
  distinct := h.follows.safe.1
  shown := h.follows.safe.2
  armed := fun k he => by
    rw [h.armed k] at he
    exact h.follows.shown k (base_inj x (h.follows.index_lt k) h.follows.shown' he).symm

theorem Tracks.call {x : Nat} {length : Word} {s : State} {t : Turn} (h : Tracks x length s t) (c : Capture)
    (ha : t.Allows (delivers length c)) : Tracks x length (HdmiIn.call x s c) (t.call (delivers length c)) := by
  obtain ⟨hr, harm, hlen⟩ := call_rotation x s c h.armed
  refine ⟨harm, hlen.trans h.length, ?_⟩
  rw [hr, h.length]
  exact h.follows.call _ ha

theorem Tracks.safe_call_iff {x : Nat} {length : Word} {s : State} {t : Turn} (h : Tracks x length s t)
    (c : Capture) : Safe x (HdmiIn.call x s c) ↔ t.Allows (delivers length c) := by
  constructor
  · intro hs
    by_contra ha
    refine h.follows.not_safe _ ha ?_
    obtain ⟨hr, -, -⟩ := call_rotation x s c h.armed
    rw [h.length] at hr
    rw [← hr]
    exact ⟨hs.distinct, hs.shown⟩
  · intro ha
    exact (h.call c ha).safe

/-- **The rotation keeps the shown buffer out of the slots exactly while the slots deliver in turn**: from `enable`,
whatever lengths the slots capture, every state an interrupt leaves is safe if and only if `InTurn` holds of the
captures. -/
theorem safe_iff_inTurn (x : Nat) (s : State) (cs : List Capture) :
    (∀ pre, pre <+: cs → Safe x (pre.foldl (call x) (enable x s))) ↔ InTurn (expectedLength s) cs := by
  have h0 := Tracks.enable x s
  rw [← Runs.allStates_iff_prefix, Runs.allStates_iff_steps, and_iff_right h0.safe]
  exact Runs.allSteps_congr (fun _ _ c h => h.safe_call_iff c) (fun _ _ c h ha => h.call c ha) cs h0

def shortInSlot1 : Capture := ![some (640#32 * 480#32 * 2#32), some 4096#32]

/-- Slot 1 gets four short frames while slot 0 gets complete ones, and both slots end up armed on buffer 1. -/
theorem not_safe_shortInSlot1 :
    ¬ Safe 0 ([shortInSlot1, shortInSlot1, shortInSlot1, shortInSlot1].foldl (call 0)
      (initVideo 0 640#32 480#32 ⟨0, 0, 0, 0, 0, false, false, fun _ => ⟨.empty, 0⟩, 0, true, false, []⟩)) := by
  intro h
  exact absurd h.distinct (by decide)

end HdmiIn
end Hdmi2Usb
