import Hdmi2Usb.Etherbone
import Hdmi2Usb.Runs
/-!
# EtherboneReceive — what the receiver is for, and where `etherbone_callback` misses it

`framer` is the receiver on a stream: it drops bytes up to a magic, waits for the header and for the packet its counts
announce, and takes the packet.  It waits on a lone `0x4e`, which may be half of a magic.  `loop_scan` is what the code's
loop does in these terms: it scans, except that it compares a lone byte together with whatever the buffer holds behind
it.  So a `0x4e` left alone is dropped or kept by a byte nobody sent, and every lone byte is a read past the data.
-/
namespace Hdmi2Usb
namespace Etherbone

open Memory (window store move be16)
open Framing (Verdict Framer scan)
open Runs (AllSteps)

theorem append_eq_magic (a b : Byte) : a ++ b = magic ↔ a = 0x4e#8 ∧ b = 0x6f#8 := by
  unfold magic
  rw [← BitVec.toNat_inj, BitVec.toNat_append, ← Nat.shiftLeft_add_eq_or_of_lt b.isLt, ← BitVec.toNat_inj,
    ← BitVec.toNat_inj]
  simp only [Nat.shiftLeft_eq, BitVec.toNat_ofNat]
  omega

/-! ## The receiver on a stream -/

def announced (xs : List Byte) : Nat := packetLength (xs.getD 10 0).toNat (xs.getD 11 0).toNat

def verdict : List Byte → Verdict
  | []           => .wait
  | [a]          => if a = 0x4e#8 then .wait else .skip
  | a :: b :: xs =>
    if a ++ b ≠ magic then .skip
    else if headerLength < (a :: b :: xs).length ∧ announced (a :: b :: xs) ≤ (a :: b :: xs).length then
      .take (announced (a :: b :: xs))
    else .wait

theorem headerLength_le_packetLength (w r : Nat) : headerLength ≤ packetLength w r := by
  unfold packetLength
  omega

theorem announced_append (xs ys : List Byte) (h : headerLength < xs.length) : announced (xs ++ ys) = announced xs := by
  unfold headerLength at h
  unfold announced
  simp only [List.getD_eq_getElem?_getD]
  rw [List.getElem?_append_left (by omega), List.getElem?_append_left (by omega)]

theorem verdict_pair (a b : Byte) (xs : List Byte) : verdict (a :: b :: xs) =
    if a ++ b ≠ magic then .skip
    else if headerLength < (a :: b :: xs).length ∧ announced (a :: b :: xs) ≤ (a :: b :: xs).length then
      .take (announced (a :: b :: xs))
    else .wait := rfl

theorem verdict_bounds (xs : List Byte) (n : Nat) (h : verdict xs = .take n) : 0 < n ∧ n ≤ xs.length := by
  match xs, h with
  | [a], h =>
    simp only [verdict] at h
    split at h <;> simp at h
  | a :: b :: xs, h =>
    rw [verdict_pair] at h
    split at h
    · simp at h
    · split at h
      · rename_i hle
        rw [← Verdict.take.inj h]
        have := headerLength_le_packetLength ((a :: b :: xs).getD 10 0).toNat ((a :: b :: xs).getD 11 0).toNat
        refine ⟨?_, hle.2⟩
        unfold headerLength at this
        unfold announced
        omega
      · simp at h

theorem verdict_stable (xs ys : List Byte) (h : verdict xs ≠ .wait) : verdict (xs ++ ys) = verdict xs := by
  match xs, ys, h with
  | [], _, h => exact absurd rfl h
  | [a], [], _ => rfl
  | [a], b :: ys, h =>
    have ha : a ≠ 0x4e#8 := fun ha => h (by simp [verdict, ha])
    have hm : a ++ b ≠ magic := fun hm => ha ((append_eq_magic a b).1 hm).1
    simp [verdict, hm, ha]
  | a :: b :: xs, ys, h =>
    have hlen : (a :: b :: xs).length ≤ (a :: b :: xs ++ ys).length := by simp
    rw [verdict_pair] at h
    rw [List.cons_append, List.cons_append, verdict_pair, verdict_pair]
    rw [List.cons_append, List.cons_append] at hlen
    by_cases hm : a ++ b ≠ magic
    · rw [if_pos hm, if_pos hm]
    · rw [if_neg hm] at h
      rw [if_neg hm, if_neg hm]
      by_cases hc : headerLength < (a :: b :: xs).length ∧ announced (a :: b :: xs) ≤ (a :: b :: xs).length
      · have hann := announced_append (a :: b :: xs) ys hc.1
        rw [List.cons_append, List.cons_append] at hann
        rw [hann, if_pos hc, if_pos ⟨by omega, by omega⟩]
      · rw [if_neg hc] at h
        exact absurd rfl h

def framer : Framer Byte := ⟨verdict, rfl, verdict_bounds, verdict_stable⟩

/-! ## The loop of the code -/

/-- The loop's outcome on `length` bytes from `ptr` on, as a scan of those bytes. -/
structure LoopDone (buf : Nat → Byte) (ptr length : Nat) (r : Loop) : Prop where
  packets  : r.packets = (scan framer (window buf ptr length)).frames
  rest     : window buf r.ptr r.length =
    if (scan framer (window buf ptr length)).rest = [0x4e#8] ∧ buf (ptr + length) ≠ 0x6f#8 then []
    else (scan framer (window buf ptr length)).rest
  examined : (∀ a ∈ r.examined, a.1 < a.2) ↔ ∀ look ∈ (scan framer (window buf ptr length)).looks, 2 ≤ look.length

theorem verdict_window (buf : Nat → Byte) (ptr n : Nat) : verdict (window buf ptr (n + 2)) =
    if be16 (fun i => buf (ptr + i)) 0 ≠ magic then .skip
    else if headerLength < n + 2 ∧
        packetLength (wcount fun i => buf (ptr + i)) (rcount fun i => buf (ptr + i)) ≤ n + 2 then
      .take (packetLength (wcount fun i => buf (ptr + i)) (rcount fun i => buf (ptr + i)))
    else .wait := by
  have hlen := Memory.length_window buf ptr (n + 2)
  have hann : headerLength < n + 2 → announced (window buf ptr (n + 2)) =
      packetLength (wcount fun i => buf (ptr + i)) (rcount fun i => buf (ptr + i)) := by
    intro h
    unfold headerLength at h
    simp only [announced, List.getD_eq_getElem?_getD, Memory.getElem?_window]
    rw [if_pos (by omega), if_pos (by omega)]
    rfl
  rw [Memory.window_succ, Memory.window_succ] at hlen hann ⊢
  rw [verdict_pair, hlen]
  have hmagic : be16 (fun i => buf (ptr + i)) 0 = buf ptr ++ buf (ptr + 1) := rfl
  rw [hmagic]
  by_cases h : headerLength < n + 2
  · rw [hann h]
  · simp only [h, false_and, if_false]

theorem loopDone_wait {buf : Nat → Byte} {ptr n : Nat} {looked : List (Nat × Nat)}
    (hv : verdict (window buf ptr (n + 2)) = .wait) (hl : ∀ a ∈ looked, a.1 < a.2) :
    LoopDone buf ptr (n + 2) ⟨ptr, n + 2, [], looked⟩ := by
  have hne : window buf ptr (n + 2) ≠ [] := by simp [Memory.window_succ]
  have hs := Framing.scan_wait framer hne hv
  have hone : window buf ptr (n + 2) ≠ [0x4e#8] := by simp [Memory.window_succ]
  refine ⟨by rw [hs], ?_, ?_⟩
  · rw [hs, if_neg (fun h => hone h.1)]
  · rw [hs]
    simpa using hl

theorem scan_one (b : Byte) : scan framer [b] = ⟨[], if b = 0x4e#8 then [b] else [], [[b]]⟩ := by
  by_cases h : b = 0x4e#8
  · have hv : framer.verdict [b] = .wait := by simp [framer, verdict, h]
    rw [Framing.scan_wait framer (List.cons_ne_nil _ _) hv, if_pos h]
  · have hv : framer.verdict [b] = .skip := by simp [framer, verdict, h]
    rw [Framing.scan_skip framer hv, if_neg h]
    rfl

/-- A byte that stands alone is compared together with the byte behind the data. -/
theorem loopDone_one (buf : Nat → Byte) (fuel ptr : Nat) : LoopDone buf ptr 1 (loop buf (fuel + 1) ptr 1) := by
  have hw : window buf ptr 1 = [buf ptr] := Memory.window_succ buf ptr 0
  have hmagic : be16 (fun i => buf (ptr + i)) 0 = buf ptr ++ buf (ptr + 1) := rfl
  have hm := append_eq_magic (buf ptr) (buf (ptr + 1))
  unfold loop
  simp only [hmagic]
  by_cases h : buf ptr ++ buf (ptr + 1) = magic
  · obtain ⟨h4e, h6f⟩ := hm.1 h
    rw [if_neg (not_not.2 h), if_neg (by decide)]
    constructor <;> simp [hw, scan_one, h4e, h6f]
  · rw [if_pos h]
    have hstop : loop buf fuel (ptr + 1) 0 = ⟨ptr + 1, 0, [], []⟩ := by cases fuel <;> rfl
    rw [hstop]
    constructor
    · simp [hw, scan_one]
    · by_cases h4e : buf ptr = 0x4e#8
      · have h6f : buf (ptr + 1) ≠ 0x6f#8 := fun h6f => h (hm.2 ⟨h4e, h6f⟩)
        simp [hw, scan_one, h4e, h6f]
      · simp [hw, scan_one, h4e]
    · simp [hw, scan_one]

theorem loop_scan (buf : Nat → Byte) : ∀ (fuel ptr length : Nat), length ≤ fuel →
    LoopDone buf ptr length (loop buf fuel ptr length)
  | fuel, ptr, 0, _ => by
    have hstop : loop buf fuel ptr 0 = ⟨ptr, 0, [], []⟩ := by cases fuel <;> rfl
    rw [hstop]
    constructor <;> simp
  | fuel + 1, ptr, 1, _ => loopDone_one buf fuel ptr
  | fuel + 1, ptr, n + 2, hle => by
    have hw := Memory.window_succ buf ptr (n + 1)
    have hv := verdict_window buf ptr n
    unfold loop
    simp only
    by_cases hm : be16 (fun i => buf (ptr + i)) 0 ≠ magic
    · rw [if_pos hm] at hv ⊢
      obtain ⟨hp, hr, he⟩ := loop_scan buf fuel (ptr + 1) (n + 1) (by omega)
      rw [hw] at hv
      have hs := Framing.scan_skip framer hv
      rw [← hw] at hs
      have hend : ptr + 1 + (n + 1) = ptr + (n + 2) := by omega
      rw [hend] at hr
      constructor
      · rw [hs]; exact hp
      · rw [hs]; exact hr
      · rw [hs]
        simp only [List.cons_append, List.nil_append, List.forall_mem_cons, Memory.length_window]
        rw [he]
        simp
    · rw [if_neg hm] at hv ⊢
      by_cases hh : headerLength < n + 2
      · rw [if_pos hh]
        simp only [hh, true_and] at hv
        have hpos := headerLength_le_packetLength (wcount fun i => buf (ptr + i)) (rcount fun i => buf (ptr + i))
        generalize packetLength (wcount fun i => buf (ptr + i)) (rcount fun i => buf (ptr + i)) = k at hv hpos ⊢
        unfold headerLength at hh hpos
        by_cases hk : k ≤ n + 2
        · rw [if_pos hk] at hv ⊢
          obtain ⟨hp, hr, he⟩ := loop_scan buf fuel (ptr + k) (n + 2 - k) (by omega)
          have hs := Framing.scan_take framer hv
          rw [Memory.drop_window, Memory.take_window _ _ _ _ hk] at hs
          have hend : ptr + k + (n + 2 - k) = ptr + (n + 2) := by omega
          rw [hend] at hr
          constructor
          · rw [hs, ← hp]
          · rw [hs]; exact hr
          · rw [hs]
            simp only [List.cons_append, List.nil_append, List.forall_mem_cons, Memory.length_window]
            rw [he]
            constructor
            · intro h; exact ⟨by omega, h.2.2.2.2⟩
            · intro h; exact ⟨by omega, by omega, by omega, by omega, h.2⟩
        · rw [if_neg hk] at hv ⊢
          refine loopDone_wait hv ?_
          simp only [List.cons_append, List.nil_append, List.forall_mem_cons]
          exact ⟨by omega, by omega, by omega, by omega, by simp⟩
      · rw [if_neg hh]
        simp only [hh, false_and, if_false] at hv
        exact loopDone_wait hv (by simp)
  | 0, _, _ + 1, hle => absurd hle (by omega)

/-! ## One call -/

def pending (s : Receiver) : List Byte := window s.callbackBuf 0 s.callbackBufLength

/-- The byte behind the data of a call, which no sender wrote there. -/
def behind (s : Receiver) (c : List Byte) : Byte := s.callbackBuf (s.callbackBufLength + c.length)

/-- **What a call does**, as a scan of what was pending and the chunk. -/
structure CallDone (s : Receiver) (c : List Byte) : Prop where
  packets  : (callbackLoop s c).packets = (scan framer (pending s ++ c)).frames
  left     : pending (callback s c) =
    if (scan framer (pending s ++ c)).rest = [0x4e#8] ∧ behind s c ≠ 0x6f#8 then []
    else (scan framer (pending s ++ c)).rest
  examined : (∀ a ∈ (callbackLoop s c).examined, a.1 < a.2) ↔
    ∀ look ∈ (scan framer (pending s ++ c)).looks, 2 ≤ look.length

theorem callDone (s : Receiver) (c : List Byte) : CallDone s c := by
  have hw : window (store s.callbackBuf s.callbackBufLength c) 0 (s.callbackBufLength + c.length) = pending s ++ c := by
    have := Memory.window_store_append s.callbackBuf 0 s.callbackBufLength c
    rwa [Nat.zero_add] at this
  have hb : store s.callbackBuf s.callbackBufLength c (0 + (s.callbackBufLength + c.length)) = behind s c := by
    rw [Nat.zero_add]
    exact Memory.store_of_ge _ _ (Nat.le_refl _)
  obtain ⟨hp, hr, he⟩ := loop_scan (store s.callbackBuf s.callbackBufLength c)
    (s.callbackBufLength + c.length) 0 (s.callbackBufLength + c.length) (Nat.le_refl _)
  rw [hw] at hp hr he
  rw [hb] at hr
  refine ⟨hp, ?_, he⟩
  unfold pending callback
  rw [Memory.window_move]
  exact hr

/-! ## Segmentation -/

/-- The call decides nothing on bytes that were not received: any other contents of the buffer behind the pending bytes
give the same packets and leave the same bytes pending. -/
def Blind (s : Receiver) (c : List Byte) : Prop :=
  ∀ buf, window buf 0 s.callbackBufLength = pending s →
    (callbackLoop ⟨buf, s.callbackBufLength⟩ c).packets = (callbackLoop s c).packets ∧
      pending (callback ⟨buf, s.callbackBufLength⟩ c) = pending (callback s c)

/-- The stream received so far does not end in the first byte of a magic. -/
def Whole (xs : List Byte) : Prop := (scan framer xs).rest ≠ [0x4e#8]

def Unsplit (cs : List (List Byte)) : Prop := ∀ pre, pre <+: cs → Whole pre.flatten

theorem blind_iff (s : Receiver) (c : List Byte) : Blind s c ↔ (scan framer (pending s ++ c)).rest ≠ [0x4e#8] := by
  have hs := callDone s c
  constructor
  · intro hblind hrest
    -- two buffers that differ in the byte behind the data only
    have hother : ∀ b : Byte, ∃ buf, window buf 0 s.callbackBufLength = pending s ∧
        buf (s.callbackBufLength + c.length) = b := by
      intro b
      refine ⟨store s.callbackBuf (s.callbackBufLength + c.length) [b], ?_, ?_⟩
      · exact Memory.window_store_of_le _ _ (by omega)
      · simp [store]
    have hleft : ∀ b : Byte, pending (callback s c) = if b ≠ 0x6f#8 then [] else [0x4e#8] := by
      intro b
      obtain ⟨buf, hw, hb⟩ := hother b
      have hd := callDone ⟨buf, s.callbackBufLength⟩ c
      have hp : pending ⟨buf, s.callbackBufLength⟩ = pending s := hw
      have hbehind : behind ⟨buf, s.callbackBufLength⟩ c = b := hb
      rw [← (hblind buf hw).2, hd.left, hp, hbehind, hrest]
      simp
    have h1 := hleft 0x6f#8
    rw [hleft 0] at h1
    simp at h1
  · intro hrest buf hw
    have hd := callDone ⟨buf, s.callbackBufLength⟩ c
    have hp : pending ⟨buf, s.callbackBufLength⟩ = pending s := hw
    refine ⟨by rw [hd.packets, hs.packets, hp], ?_⟩
    rw [hd.left, hs.left, hp, if_neg (fun h => hrest h.1), if_neg (fun h => hrest h.1)]

def Holds (s : Receiver) (xs : List Byte) : Prop := pending s = (scan framer xs).rest

theorem holds_init (buf : Nat → Byte) : Holds (init buf) [] := rfl

theorem holds_callback {s : Receiver} {xs c : List Byte} (h : Holds s xs)
    (hrest : (scan framer (pending s ++ c)).rest ≠ [0x4e#8]) : Holds (callback s c) (xs ++ c) := by
  have hd := callDone s c
  unfold Holds at h ⊢
  rw [hd.left, if_neg (fun h => hrest h.1), (Framing.scan_append framer xs c).2, h]

theorem foldl_append_nil (cs : List (List Byte)) : cs.foldl (· ++ ·) [] = cs.flatten := by
  have := @List.foldl_append_eq_append _ _ cs id []
  simpa using this

theorem unsplit_iff (cs : List (List Byte)) : Unsplit cs ↔ AllSteps (· ++ ·) (fun xs c => Whole (xs ++ c)) [] cs := by
  rw [Runs.allSteps_iff_prefix]
  unfold Unsplit
  constructor
  · intro h pre c hp
    have hc := h _ hp
    simpa [foldl_append_nil] using hc
  · intro h pre hp
    rcases List.eq_nil_or_concat pre with rfl | ⟨pre, c, rfl⟩
    · simp [Whole]
    · have hc := h pre c (by simpa using hp)
      simpa [foldl_append_nil] using hc

theorem blind_iff_whole {s : Receiver} {xs c : List Byte} (h : Holds s xs) : Blind s c ↔ Whole (xs ++ c) := by
  unfold Whole
  rw [blind_iff, (Framing.scan_append framer xs c).2, ← h]

theorem holds_of_whole {s : Receiver} {xs c : List Byte} (h : Holds s xs) (hw : Whole (xs ++ c)) :
    Holds (callback s c) (xs ++ c) :=
  holds_callback h ((blind_iff s c).1 ((blind_iff_whole h).2 hw))

theorem allSteps_blind_iff (buf : Nat → Byte) (cs : List (List Byte)) :
    AllSteps callback Blind (init buf) cs ↔ Unsplit cs := by
  have hiff : ∀ (s : Receiver) (xs c : List Byte), Holds s xs → (Blind s c ↔ Whole (xs ++ c)) :=
    fun _ _ _ h => blind_iff_whole h
  have hkeep : ∀ (s : Receiver) (xs c : List Byte), Holds s xs → Whole (xs ++ c) → Holds (callback s c) (xs ++ c) :=
    fun _ _ _ h hw => holds_of_whole h hw
  rw [unsplit_iff, Runs.allSteps_congr hiff hkeep cs (holds_init buf)]

theorem received_scan : ∀ (cs : List (List Byte)) {s : Receiver} {xs : List Byte}, Holds s xs →
    AllSteps (· ++ ·) (fun xs c => Whole (xs ++ c)) xs cs →
    (scan framer xs).frames ++ received s cs = (scan framer (xs ++ cs.flatten)).frames
  | [], _, _, _, _ => by simp [received]
  | c :: cs, s, xs, h, hw => by
    have hstep := holds_of_whole h hw.1
    have hrest := received_scan cs hstep hw.2
    unfold received
    rw [(callDone s c).packets, h, ← List.append_assoc, ← (Framing.scan_append framer xs c).1, hrest, List.flatten_cons,
      List.append_assoc]

theorem received_init (buf : Nat → Byte) (cs : List (List Byte)) (h : Unsplit cs) :
    received (init buf) cs = (scan framer cs.flatten).frames := by
  have := received_scan cs (holds_init buf) ((unsplit_iff cs).1 h)
  simpa using this

/-- **Segmentation**: two ways of cutting a stream give the same packets, with no decision on bytes that were not
received, exactly when neither cuts a magic in two. -/
theorem segmentation_iff (buf₁ buf₂ : Nat → Byte) (cs₁ cs₂ : List (List Byte)) (h : cs₁.flatten = cs₂.flatten) :
    (received (init buf₁) cs₁ = received (init buf₂) cs₂ ∧
      AllSteps callback Blind (init buf₁) cs₁ ∧ AllSteps callback Blind (init buf₂) cs₂) ↔
    Unsplit cs₁ ∧ Unsplit cs₂ := by
  rw [allSteps_blind_iff, allSteps_blind_iff]
  constructor
  · rintro ⟨-, h₁, h₂⟩
    exact ⟨h₁, h₂⟩
  · rintro ⟨h₁, h₂⟩
    refine ⟨?_, h₁, h₂⟩
    rw [received_init buf₁ cs₁ h₁, received_init buf₂ cs₂ h₂, h]

/-- A write of `1` to address 0. -/
def writeOne : List Byte :=
  [0x4e, 0x6f, 0x10, 0x44, 0, 0, 0, 0, 0, 0, 1, 0, 0, 0, 0, 0, 0, 0, 0, 1]

theorem segmentation_writeOne :
    (received (init fun _ => 0) [writeOne] = received (init fun _ => 0) [writeOne.take 10, writeOne.drop 10] ∧
      AllSteps callback Blind (init fun _ => 0) [writeOne] ∧
      AllSteps callback Blind (init fun _ => 0) [writeOne.take 10, writeOne.drop 10]) ↔
    Unsplit [writeOne] ∧ Unsplit [writeOne.take 10, writeOne.drop 10] :=
  segmentation_iff (fun _ => 0) (fun _ => 0) [writeOne] [writeOne.take 10, writeOne.drop 10] (by decide)

/-- Cut between the bytes of its magic, the packet is lost. -/
theorem segmentation_splits :
    [writeOne].flatten = [writeOne.take 1, writeOne.drop 1].flatten ∧
      received (init fun _ => 0) [writeOne] = [writeOne] ∧
      received (init fun _ => 0) [writeOne.take 1, writeOne.drop 1] = [] := by
  refine ⟨?_, ?_, ?_⟩ <;> decide

/-! ## The bounds of the buffer -/

/-- The chunk is copied inside the buffer, and every byte the loop looks at is one of those pending. -/
def InBounds (s : Receiver) (c : List Byte) : Prop :=
  s.callbackBufLength + c.length ≤ callbackBufSize ∧ ∀ a ∈ (callbackLoop s c).examined, a.1 < a.2

/-- What the stream so far leaves pending has room for the chunk, and the scan of the two never comes down to one
byte. -/
def Fits (xs c : List Byte) : Prop :=
  (scan framer xs).rest.length + c.length ≤ callbackBufSize ∧
    ∀ look ∈ (scan framer ((scan framer xs).rest ++ c)).looks, 2 ≤ look.length

theorem inBounds_iff {s : Receiver} {xs : List Byte} (h : Holds s xs) (c : List Byte) : InBounds s c ↔ Fits xs c := by
  have hlen : s.callbackBufLength = (scan framer xs).rest.length := by
    rw [← h, pending, Memory.length_window]
  unfold InBounds Fits
  rw [(callDone s c).examined, hlen, h]

/-- **The buffer is never overrun**, and nothing behind the data is looked at, exactly when every chunk fits. -/
theorem inBounds_run_iff (buf : Nat → Byte) (cs : List (List Byte)) :
    AllSteps callback InBounds (init buf) cs ↔ AllSteps (· ++ ·) Fits [] cs := by
  have hiff : ∀ (s : Receiver) (xs c : List Byte), Holds s xs → (InBounds s c ↔ Fits xs c) :=
    fun _ _ c h => inBounds_iff h c
  have hkeep : ∀ (s : Receiver) (xs c : List Byte), Holds s xs → Fits xs c → Holds (callback s c) (xs ++ c) := by
    intro s xs c h hfits
    apply holds_callback h
    rw [h]
    intro hrest
    have := hfits.2 _ (Framing.rest_mem_looks framer (by rw [hrest]; simp))
    rw [hrest] at this
    simp at this
  exact Runs.allSteps_congr hiff hkeep cs (holds_init buf)

/-- A header that announces 255 writes and 255 reads, and one byte more. -/
def announce255 : List Byte := [0x4e, 0x6f, 0x10, 0x44, 0, 0, 0, 0, 0, 0, 255, 255, 0]

/-- A lone byte is compared with the byte behind it, and behind an announced packet of 2060 bytes a full chunk does not
fit. -/
theorem not_inBounds :
    ¬ AllSteps callback InBounds (init fun _ => 0) [[0]] ∧
      ¬ AllSteps callback InBounds (init fun _ => 0) [announce255, List.replicate bufferSizeRx 0] := by
  constructor
  · rintro ⟨⟨-, hlooked⟩, -⟩
    revert hlooked
    decide
  · rintro ⟨-, ⟨hroom, -⟩, -⟩
    have hlen : (callback (init fun _ => 0) announce255).callbackBufLength = 13 := by decide
    rw [hlen, List.length_replicate] at hroom
    revert hroom
    decide

end Etherbone
end Hdmi2Usb
