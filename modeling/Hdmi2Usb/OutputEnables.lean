import Hdmi2Usb.Mmcm
/-!
# OutputEnables — when the outputs are on (`fb_set_mode` and `processor_start` of `processor.c`)

`fb_set_mode` should write an output's timing only while the output is off, and leave it on or off as it was.  Here it
is the list of the writes it makes, in their order, from what it reads: `Device` is what they are made to, an output's
enable being one bit.  The local that remembers whether an output was on is only set if it was; if not, whatever the
local holds is written back (`keeps_iff`), in `processor_start` while the clock generator is being programmed.
-/
namespace Hdmi2Usb
namespace Processor

variable (p : Platform)

/-! ## The registers -/

inductive TimingRegister
  | hres
  | hsyncStart
  | hsyncEnd
  | hscan
  | vres
  | vsyncStart
  | vsyncEnd
  | vscan
  | length
deriving DecidableEq

/-- A statement that writes registers.  Those of the inputs, the EDIDs and the pattern are not looked into. -/
inductive Write
  | enable (k : Fin 2) (value : Word)
  | timing (k : Fin 2) (r : TimingRegister) (value : Word)
  | clockingReset (reset : Bool)
  | clockConfig (pixelClock : Word)
  | clkgen (adr : Nat) (word : Word)
  | hpdEn (k : Fin 2) (on : Bool)
  | input (k : Fin 2)
  | edid (k : Fin 2)
  | pattern

structure Device where
  enable        : Fin 2 → Bool
  timing        : Fin 2 → TimingRegister → Word
  clkgen        : Nat → Word
  clockingReset : Bool
  clockConfig   : Word

def Device.write (d : Device) : Write → Device
  | .enable k value      => { d with enable := Function.update d.enable k (value.getLsbD 0) }
  | .timing k r value    => { d with timing := Function.update d.timing k (Function.update (d.timing k) r value) }
  | .clockingReset reset => { d with clockingReset := reset }
  | .clockConfig clock   => { d with clockConfig := clock }
  | .clkgen adr word     => { d with clkgen := Function.update d.clkgen adr word }
  | .hpdEn _ _           => d
  | .input _             => d
  | .edid _              => d
  | .pattern             => d

/-! ## The writes -/

def outs : List (Fin 2) := (List.finRange 2).filter (p.hasOut ·)

def ins : List (Fin 2) := (List.finRange 2).filter (p.hasIn ·)

def timingWrites (mode : VideoTiming) (k : Fin 2) : List Write :=
  [.timing k .hres mode.hActive,
    .timing k .hsyncStart (mode.hActive + mode.hSyncOffset),
    .timing k .hsyncEnd (mode.hActive + mode.hSyncOffset + mode.hSyncWidth),
    .timing k .hscan (mode.hActive + mode.hBlanking),
    .timing k .vres mode.vActive,
    .timing k .vsyncStart (mode.vActive + mode.vSyncOffset),
    .timing k .vsyncEnd (mode.vActive + mode.vSyncOffset + mode.vSyncWidth),
    .timing k .vscan (mode.vActive + mode.vBlanking),
    .timing k .length (mode.hActive * mode.vActive * 2)]

/-- The part of `fb_set_mode` for one output, from the enable it reads and what is in its local. -/
def fbSetModeOut (mode : VideoTiming) (uninitialised : Word) (k : Fin 2) (enable : Bool) : List Write :=
  (if enable then [.enable k 0] else []) ++ timingWrites mode k ++ [.enable k (if enable then 1 else uninitialised)]

def fbSetModeOuts (mode : VideoTiming) (uninitialised : Fin 2 → Word) : List (Fin 2) → Device → List Write
  | [], _ => []
  | k :: ks, d =>
    let ws := fbSetModeOut mode (uninitialised k) k (d.enable k)
    ws ++ fbSetModeOuts mode uninitialised ks (ws.foldl Device.write d)

def fbSetClockWrites (pixelClock : Word) : List Write :=
  let (clockM, clockD) := fbGetClockMd p pixelClock
  match p.clocking with
  | .pll  => [.clkgen 0x1 (((clockD - 1) <<< 2) ||| 1), .clkgen 0x3 (((clockM - 1) <<< 2) ||| 3)]
  | .mmcm => [.clkgen 0x14 (multWord clockM), .clkgen 0x16 (divWord clockD), .clkgen 0x8 (0x1000 ||| (5 <<< 6) ||| 5),
      .clkgen 0xa (0x1000 ||| (1 <<< 6) ||| 1)]

def fbSetModeWrites (mode : VideoTiming) (uninitialised : Fin 2 → Word) (d : Device) : List Write :=
  fbSetModeOuts mode uninitialised (outs p) d ++ fbSetClockWrites p mode.pixelClock

/-- The statements of `processor_start` before `fb_set_mode`. -/
def startWrites (m : VideoTiming) : List Write :=
  (outs p).map (.enable · 0) ++ [.clockingReset true] ++ (ins p).map (.hpdEn · false) ++ (ins p).map .input ++
    (if p.simulation then [] else [.pattern]) ++ [.clockConfig m.pixelClock]

/-- The statements of `processor_start` after `fb_set_mode`. -/
def finishWrites : List Write :=
  (ins p).map .edid ++ (ins p).map .input ++ [.clockingReset false] ++ (outs p).map (.enable · 1) ++
    (ins p).map (.hpdEn · true)

def processorStartWrites (m : VideoTiming) (uninitialised : Fin 2 → Word) (d : Device) : List Write :=
  startWrites p m ++ fbSetModeWrites p m uninitialised ((startWrites p m).foldl Device.write d) ++ finishWrites p

/-! ## What is asked -/

/-- The write is one to the enable of output `k`. -/
def Write.Enables (k : Fin 2) : Write → Prop
  | .enable j _ => j = k
  | _           => False

/-- The write is one to a timing register of output `k`. -/
def Write.Times (k : Fin 2) : Write → Prop
  | .timing j _ _ => j = k
  | _             => False

/-- The write is one to the clock generator. -/
def Write.Reclocks : Write → Prop
  | .clkgen _ _ => True
  | _           => False

/-- After `pre` and before `post` some write that satisfies `P` has been made and some is still to come. -/
def Between (P : Write → Prop) (pre post : List Write) : Prop := (∃ w ∈ pre, P w) ∧ ∃ w ∈ post, P w

/-- The next write satisfies `P`. -/
def Next (P : Write → Prop) (post : List Write) : Prop := ∃ w, post.head? = some w ∧ P w

/-- What is asked of the writes of `fb_set_mode` and an output: it is off before its first timing register is written
and until its last has been, and in the end it is as it was. -/
structure KeepsMode (k : Fin 2) (d : Device) (ws : List Write) : Prop where
  off      : ∀ pre post, ws = pre ++ post → Between (·.Times k) pre post ∨ Next (·.Times k) post →
    (pre.foldl Device.write d).enable k = false
  restored : (ws.foldl Device.write d).enable k = d.enable k

/-- What is asked of the writes of `processor_start` and an output: it is off from the first write to its enable until
the last, and whenever the clock generator is written. -/
structure KeepsOff (k : Fin 2) (d : Device) (ws : List Write) : Prop where
  off   : ∀ pre post, ws = pre ++ post → Between (·.Enables k) pre post → (pre.foldl Device.write d).enable k = false
  clock : ∀ pre post, ws = pre ++ post → Next Write.Reclocks post → (pre.foldl Device.write d).enable k = false

/-! ## The enable along the writes -/

theorem enable_write {k : Fin 2} {w : Write} (h : ¬ w.Enables k) (d : Device) : (d.write w).enable k = d.enable k := by
  cases w with
  | enable j value => exact Function.update_of_ne (Ne.symm h) _ _
  | timing j r value => rfl
  | clockingReset reset => rfl
  | clockConfig clock => rfl
  | clkgen adr word => rfl
  | hpdEn j on => rfl
  | input j => rfl
  | edid j => rfl
  | pattern => rfl

theorem enable_write_enable (k : Fin 2) (value : Word) (d : Device) :
    (d.write (.enable k value)).enable k = value.getLsbD 0 :=
  Function.update_self _ _ _

theorem enable_foldl {k : Fin 2} : ∀ {ws : List Write}, (∀ w ∈ ws, ¬ w.Enables k) → ∀ d : Device,
    (ws.foldl Device.write d).enable k = d.enable k
  | [], _, _ => rfl
  | w :: ws, h, d => by
    obtain ⟨hw, hws⟩ := List.forall_mem_cons.1 h
    rw [List.foldl_cons, enable_foldl hws, enable_write hw]

/-- An output that is off stays off while nothing is written to its enable but zeros. -/
theorem off_foldl {k : Fin 2} : ∀ {ws : List Write}, (∀ v, .enable k v ∈ ws → v.getLsbD 0 = false) → ∀ {d : Device},
    d.enable k = false → (ws.foldl Device.write d).enable k = false
  | [], _, _, hd => hd
  | w :: ws, h, d, hd => by
    rw [List.foldl_cons]
    refine off_foldl (fun v hv => h v (List.mem_cons_of_mem _ hv)) ?_
    by_cases hw : w.Enables k
    · cases w with
      | enable j value =>
        cases hw
        rw [enable_write_enable]
        exact h value List.mem_cons_self
      | _ => exact hw.elim
    · rw [enable_write hw]
      exact hd

/-! ## Cutting a list of writes -/

theorem cut_left {P : Write → Prop} {pre post A R : List Write} (h : A ++ R = pre ++ post) (hA : ∀ w ∈ A, ¬ P w)
    (hpre : ∃ w ∈ pre, P w) : ∃ r, pre = A ++ r ∧ R = r ++ post ∧ ∃ w ∈ r, P w := by
  obtain ⟨w, hw, hP⟩ := hpre
  obtain ⟨r, rfl, rfl⟩ | ⟨r, rfl, rfl⟩ := List.append_eq_append_iff.1 h
  · refine ⟨r, rfl, rfl, w, ?_, hP⟩
    exact (List.mem_append.1 hw).resolve_left (fun hmem => hA w hmem hP)
  · exact absurd hP (hA w (List.mem_append_left _ hw))

theorem cut_right {P : Write → Prop} {pre post L C : List Write} (h : L ++ C = pre ++ post) (hC : ∀ w ∈ C, ¬ P w)
    (hpost : ∃ w ∈ post, P w) : ∃ l, post = l ++ C ∧ L = pre ++ l ∧ ∃ w ∈ l, P w := by
  obtain ⟨w, hw, hP⟩ := hpost
  obtain ⟨r, rfl, rfl⟩ | ⟨r, rfl, rfl⟩ := List.append_eq_append_iff.1 h
  · exact absurd hP (hC w (List.mem_append_right _ hw))
  · refine ⟨r, rfl, rfl, w, ?_, hP⟩
    exact (List.mem_append.1 hw).resolve_right (fun hmem => hC w hmem hP)

/-- Between `x`, behind which the first write that satisfies `P` is, and `y`, which has the last before it or is it. -/
theorem cut_within {P : Write → Prop} {pre post A B C : List Write} {x y : Write}
    (h : A ++ (x :: B ++ y :: C) = pre ++ post) (hA : ∀ w ∈ A, ¬ P w) (hC : ∀ w ∈ C, ¬ P w)
    (hcut : Between P pre post) : ∃ b b', pre = A ++ x :: b ∧ B = b ++ b' := by
  obtain ⟨r, rfl, hr, v, hv, -⟩ := cut_left h hA hcut.1
  cases r with
  | nil => cases hv
  | cons w b =>
    rw [List.cons_append, List.cons_append, List.cons.injEq] at hr
    obtain ⟨rfl, hb⟩ := hr
    obtain ⟨a, rfl, ha⟩ | ⟨b', rfl, -⟩ := List.append_eq_append_iff.1 hb
    · cases a with
      | nil => exact ⟨B, [], by simp, by simp⟩
      | cons z a =>
        obtain ⟨q, hq, hP⟩ := hcut.2
        rw [List.cons_append, List.cons.injEq] at ha
        obtain ⟨-, rfl⟩ := ha
        exact absurd hP (hC q (List.mem_append_right _ hq))
    · exact ⟨b, b', rfl, rfl⟩

/-- Where only the middle of a list satisfies `P`, a cut before such a write, or between two, is in the middle. -/
theorem cut_middle {P : Write → Prop} {pre post A B C : List Write} (h : A ++ B ++ C = pre ++ post)
    (hA : ∀ w ∈ A, ¬ P w) (hC : ∀ w ∈ C, ¬ P w) (hcut : Between P pre post ∨ Next P post) :
    ∃ b b', pre = A ++ b ∧ B = b ++ b' := by
  have hpost : ∃ w ∈ post, P w := by
    cases hcut with
    | inl h => exact h.2
    | inr h =>
      obtain ⟨w, hw, hP⟩ := h
      exact ⟨w, List.mem_of_mem_head? hw, hP⟩
  obtain ⟨l, hl, hAB, -⟩ := cut_right h hC hpost
  obtain ⟨b, rfl, rfl⟩ | ⟨a, rfl, rfl⟩ := List.append_eq_append_iff.1 hAB
  · exact ⟨b, l, rfl, rfl⟩
  · cases a with
    | nil => exact ⟨[], B, by simp, rfl⟩
    | cons w a =>
      -- the cut would lie in `A`, before a write that satisfies `P`
      exfalso
      cases hcut with
      | inl h =>
        obtain ⟨v, hv, hP⟩ := h.1
        exact hA v (List.mem_append_left _ hv) hP
      | inr h =>
        obtain ⟨v, hv, hP⟩ := h
        rw [hl] at hv
        cases hv
        exact hA w (by simp) hP

/-! ## Where an output's writes are -/

/-- The write is neither to the enable nor to a timing register of output `k`. -/
def Elsewhere (k : Fin 2) (w : Write) : Prop := ¬ w.Enables k ∧ ¬ w.Times k

theorem times_timingWrites {mode : VideoTiming} {k : Fin 2} {w : Write} (h : w ∈ timingWrites mode k) :
    ∃ r v, w = .timing k r v := by
  simp only [timingWrites, List.mem_cons, List.not_mem_nil, or_false] at h
  rcases h with rfl | rfl | rfl | rfl | rfl | rfl | rfl | rfl | rfl <;> exact ⟨_, _, rfl⟩

theorem not_enables_timingWrites {mode : VideoTiming} {j k : Fin 2} : ∀ w ∈ timingWrites mode j, ¬ w.Enables k := by
  intro w hw
  obtain ⟨r, v, rfl⟩ := times_timingWrites hw
  exact id

theorem elsewhere_fbSetModeOut {j k : Fin 2} (h : j ≠ k) (mode : VideoTiming) (u : Word) (e : Bool) :
    ∀ w ∈ fbSetModeOut mode u j e, Elsewhere k w := by
  intro w hw
  unfold fbSetModeOut at hw
  rw [List.mem_append, List.mem_append] at hw
  obtain (hw | hw) | hw := hw
  · cases e with
    | false => cases hw
    | true =>
      cases List.mem_singleton.1 hw
      exact ⟨h, id⟩
  · obtain ⟨r, v, rfl⟩ := times_timingWrites hw
    exact ⟨id, h⟩
  · cases List.mem_singleton.1 hw
    exact ⟨h, id⟩

theorem elsewhere_fbSetModeOuts {k : Fin 2} (mode : VideoTiming) (u : Fin 2 → Word) :
    ∀ {ks : List (Fin 2)}, k ∉ ks → ∀ d, ∀ w ∈ fbSetModeOuts mode u ks d, Elsewhere k w
  | [], _, _, w, hw => by cases hw
  | j :: ks, h, d, w, hw => by
    obtain ⟨hj, hks⟩ := not_or.1 (mt List.mem_cons.2 h)
    unfold fbSetModeOuts at hw
    cases List.mem_append.1 hw with
    | inl hw => exact elsewhere_fbSetModeOut (Ne.symm hj) mode _ _ w hw
    | inr hw => exact elsewhere_fbSetModeOuts mode u hks _ w hw

theorem elsewhere_fbSetClockWrites (k : Fin 2) (pixelClock : Word) :
    ∀ w ∈ fbSetClockWrites p pixelClock, Elsewhere k w := by
  unfold fbSetClockWrites
  generalize fbGetClockMd p pixelClock = md
  cases p.clocking with
  | pll =>
    simp only [List.forall_mem_cons, List.not_mem_nil, false_implies, implies_true, and_true]
    exact ⟨⟨id, id⟩, id, id⟩
  | mmcm =>
    simp only [List.forall_mem_cons, List.not_mem_nil, false_implies, implies_true, and_true]
    exact ⟨⟨id, id⟩, ⟨id, id⟩, ⟨id, id⟩, id, id⟩

/-- The part of an output among the parts of all. -/
theorem fbSetModeOuts_split {k : Fin 2} (mode : VideoTiming) (u : Fin 2 → Word) :
    ∀ {ks : List (Fin 2)}, ks.Nodup → k ∈ ks → ∀ d, ∃ X Y,
      fbSetModeOuts mode u ks d = X ++ fbSetModeOut mode (u k) k (d.enable k) ++ Y ∧
        (∀ w ∈ X, Elsewhere k w) ∧ ∀ w ∈ Y, Elsewhere k w
  | [], _, hk, _ => by cases hk
  | j :: ks, hnodup, hk, d => by
    obtain ⟨hj, hks⟩ := List.nodup_cons.1 hnodup
    unfold fbSetModeOuts
    by_cases hjk : j = k
    · subst hjk
      exact ⟨[], _, rfl, by simp, elsewhere_fbSetModeOuts mode u hj _⟩
    · have hmem : k ∈ ks := (List.mem_cons.1 hk).resolve_left (Ne.symm hjk)
      have helse := elsewhere_fbSetModeOut hjk mode (u j) (d.enable j)
      obtain ⟨X, Y, heq, hX, hY⟩ :=
        fbSetModeOuts_split mode u hks hmem ((fbSetModeOut mode (u j) j (d.enable j)).foldl Device.write d)
      rw [enable_foldl (fun w hw => (helse w hw).1)] at heq
      refine ⟨fbSetModeOut mode (u j) j (d.enable j) ++ X, Y, ?_, ?_, hY⟩
      · simp only [heq, List.append_assoc]
      · rw [List.forall_mem_append]
        exact ⟨helse, hX⟩

variable {p}

theorem nodup_outs : (outs p).Nodup := (List.nodup_finRange 2).filter _

theorem mem_outs {k : Fin 2} : k ∈ outs p ↔ p.hasOut k = true := by simp [outs]

theorem fbSetModeWrites_split {k : Fin 2} (hk : p.hasOut k = true) (mode : VideoTiming) (u : Fin 2 → Word)
    (d : Device) : ∃ X Y, fbSetModeWrites p mode u d = X ++ fbSetModeOut mode (u k) k (d.enable k) ++ Y ∧
      (∀ w ∈ X, Elsewhere k w) ∧ ∀ w ∈ Y, Elsewhere k w := by
  obtain ⟨X, Y, heq, hX, hY⟩ := fbSetModeOuts_split mode u nodup_outs (mem_outs.2 hk) d
  refine ⟨X, Y ++ fbSetClockWrites p mode.pixelClock, ?_, hX, ?_⟩
  · unfold fbSetModeWrites
    rw [heq, List.append_assoc]
  · rw [List.forall_mem_append]
    exact ⟨hY, elsewhere_fbSetClockWrites p k _⟩

/-! ## `fb_set_mode` -/

theorem enable_fbSetModeOut {k : Fin 2} (mode : VideoTiming) (u : Word) (d : Device) :
    ((fbSetModeOut mode u k (d.enable k)).foldl Device.write d).enable k =
      if d.enable k then true else u.getLsbD 0 := by
  unfold fbSetModeOut
  rw [List.foldl_append, List.foldl_cons, List.foldl_nil, enable_write_enable]
  cases d.enable k <;> simp

/-- What is before the timing of an output leaves its enable off. -/
theorem fbSetModeWrites_timing {k : Fin 2} (hk : p.hasOut k = true) (mode : VideoTiming) (u : Fin 2 → Word)
    (d : Device) : ∃ A C, fbSetModeWrites p mode u d = A ++ timingWrites mode k ++ C ∧ (∀ w ∈ A, ¬ w.Times k) ∧
      (∀ w ∈ C, ¬ w.Times k) ∧ (A.foldl Device.write d).enable k = false := by
  obtain ⟨X, Y, heq, hX, hY⟩ := fbSetModeWrites_split hk mode u d
  have hstart : (X.foldl Device.write d).enable k = d.enable k := enable_foldl (fun w hw => (hX w hw).1) d
  refine ⟨X ++ if d.enable k then [.enable k 0] else [], [.enable k (if d.enable k then 1 else u k)] ++ Y, ?_, ?_, ?_, ?_⟩
  · rw [heq, fbSetModeOut]
    simp only [List.append_assoc]
  · rw [List.forall_mem_append]
    refine ⟨fun w hw => (hX w hw).2, ?_⟩
    cases d.enable k with
    | false => simp
    | true => simp [Write.Times]
  · rw [List.forall_mem_append]
    exact ⟨by simp [Write.Times], fun w hw => (hY w hw).2⟩
  · rw [List.foldl_append]
    cases he : d.enable k with
    | false =>
      rw [he] at hstart
      exact hstart
    | true => exact enable_write_enable k 0 _

theorem enable_fbSetModeWrites {k : Fin 2} (hk : p.hasOut k = true) (mode : VideoTiming) (u : Fin 2 → Word)
    (d : Device) : ((fbSetModeWrites p mode u d).foldl Device.write d).enable k =
      if d.enable k then true else (u k).getLsbD 0 := by
  obtain ⟨X, Y, heq, hX, hY⟩ := fbSetModeWrites_split hk mode u d
  have hstart : (X.foldl Device.write d).enable k = d.enable k := enable_foldl (fun w hw => (hX w hw).1) d
  have hout := enable_fbSetModeOut mode (u k) (X.foldl Device.write d) (k := k)
  rw [hstart] at hout
  rw [heq, List.foldl_append, List.foldl_append, enable_foldl (fun w hw => (hY w hw).1), hout]

theorem keepsMode_iff {k : Fin 2} (hk : p.hasOut k = true) (mode : VideoTiming) (u : Fin 2 → Word) (d : Device) :
    KeepsMode k d (fbSetModeWrites p mode u d) ↔ d.enable k = true ∨ (u k).getLsbD 0 = false := by
  have hrestored : ((fbSetModeWrites p mode u d).foldl Device.write d).enable k = d.enable k ↔
      d.enable k = true ∨ (u k).getLsbD 0 = false := by
    rw [enable_fbSetModeWrites hk]
    cases d.enable k <;> simp
  constructor
  · intro h
    exact hrestored.1 h.restored
  · intro h
    refine ⟨?_, hrestored.2 h⟩
    intro pre post hcut hwhen
    -- the timing is written after the enable has been cleared, if it was set
    obtain ⟨A, C, hparts, hbefore, hafter, hoff⟩ := fbSetModeWrites_timing hk mode u d
    rw [hparts] at hcut
    obtain ⟨b, b', rfl, hb⟩ := cut_middle hcut hbefore hafter hwhen
    have hnone : ∀ w ∈ b, ¬ w.Enables k := by
      intro w hw
      apply not_enables_timingWrites w
      rw [hb]
      exact List.mem_append_left _ hw
    rw [List.foldl_append, enable_foldl hnone]
    exact hoff

/-! ## `processor_start` -/

/-- No write of the list is to the enable of `k` or to the clock generator. -/
def Aside (k : Fin 2) (ws : List Write) : Prop := ∀ w ∈ ws, ¬ w.Enables k ∧ ¬ w.Reclocks

theorem aside_append {k : Fin 2} {xs ys : List Write} : Aside k (xs ++ ys) ↔ Aside k xs ∧ Aside k ys :=
  List.forall_mem_append

theorem aside_cons {k : Fin 2} {w : Write} {ws : List Write} :
    Aside k (w :: ws) ↔ (¬ w.Enables k ∧ ¬ w.Reclocks) ∧ Aside k ws :=
  List.forall_mem_cons

theorem aside_nil {k : Fin 2} : Aside k [] := by
  intro w hw
  cases hw

theorem aside_map {α : Type*} {k : Fin 2} (f : α → Write) (l : List α)
    (h : ∀ a ∈ l, ¬ (f a).Enables k ∧ ¬ (f a).Reclocks) : Aside k (l.map f) := by
  intro w hw
  obtain ⟨a, ha, rfl⟩ := List.mem_map.1 hw
  exact h a ha

/-- The write of one value to the enables of all outputs, around that of output `k`. -/
theorem map_enable_split {k : Fin 2} (hk : p.hasOut k = true) (v : Word) :
    ∃ A M, (outs p).map (Write.enable · v) = A ++ .enable k v :: M ∧ Aside k A ∧ Aside k M := by
  obtain ⟨X, Y, heq⟩ := List.append_of_mem (mem_outs.2 hk)
  have hnodup := nodup_outs (p := p)
  rw [heq, List.nodup_middle, List.nodup_cons, List.mem_append, not_or] at hnodup
  obtain ⟨⟨hX, hY⟩, -⟩ := hnodup
  refine ⟨X.map (.enable · v), Y.map (.enable · v), ?_, ?_, ?_⟩
  · rw [heq, List.map_append, List.map_cons]
  · apply aside_map
    intro j hj
    exact ⟨fun h => hX (h ▸ hj), id⟩
  · apply aside_map
    intro j hj
    exact ⟨fun h => hY (h ▸ hj), id⟩

theorem startWrites_split {k : Fin 2} (hk : p.hasOut k = true) (m : VideoTiming) :
    ∃ A M, startWrites p m = A ++ .enable k 0 :: M ∧ Aside k A ∧ Aside k M := by
  obtain ⟨A, M, heq, hA, hM⟩ := map_enable_split hk 0
  refine ⟨A, M ++ [.clockingReset true] ++ (ins p).map (.hpdEn · false) ++ (ins p).map .input ++
    (if p.simulation then [] else [.pattern]) ++ [.clockConfig m.pixelClock], ?_, hA, ?_⟩
  · unfold startWrites
    rw [heq]
    simp only [List.append_assoc, List.cons_append]
  · have hpattern : Aside k (if p.simulation then [] else [.pattern]) := by
      cases p.simulation with
      | true => exact aside_nil
      | false => exact aside_cons.2 ⟨⟨id, id⟩, aside_nil⟩
    simp only [aside_append]
    refine ⟨⟨⟨⟨⟨hM, ?_⟩, ?_⟩, ?_⟩, hpattern⟩, ?_⟩
    · exact aside_cons.2 ⟨⟨id, id⟩, aside_nil⟩
    · exact aside_map _ _ (fun _ _ => ⟨id, id⟩)
    · exact aside_map _ _ (fun _ _ => ⟨id, id⟩)
    · exact aside_cons.2 ⟨⟨id, id⟩, aside_nil⟩

theorem finishWrites_split {k : Fin 2} (hk : p.hasOut k = true) :
    ∃ N C, finishWrites p = N ++ .enable k 1 :: C ∧ Aside k N ∧ Aside k C := by
  obtain ⟨A, M, heq, hA, hM⟩ := map_enable_split hk 1
  refine ⟨(ins p).map .edid ++ (ins p).map .input ++ [.clockingReset false] ++ A,
    M ++ (ins p).map (.hpdEn · true), ?_, ?_, ?_⟩
  · unfold finishWrites
    rw [heq]
    simp only [List.append_assoc, List.cons_append]
  · simp only [aside_append]
    refine ⟨⟨⟨?_, ?_⟩, ?_⟩, hA⟩
    · exact aside_map _ _ (fun _ _ => ⟨id, id⟩)
    · exact aside_map _ _ (fun _ _ => ⟨id, id⟩)
    · exact aside_cons.2 ⟨⟨id, id⟩, aside_nil⟩
  · rw [aside_append]
    exact ⟨hM, aside_map _ _ (fun _ _ => ⟨id, id⟩)⟩

/-- Between the first and the last write to its enable an output's enable is written once, from the local. -/
theorem processorStartWrites_split {k : Fin 2} (hk : p.hasOut k = true) (m : VideoTiming) (u : Fin 2 → Word)
    (d : Device) : ∃ A I I' C, processorStartWrites p m u d =
        A ++ (.enable k 0 :: (I ++ .enable k (u k) :: I') ++ .enable k 1 :: C) ∧ Aside k A ∧ Aside k C ∧
      (∀ w ∈ I, ¬ w.Enables k) ∧ ∀ w ∈ I', ¬ w.Enables k := by
  obtain ⟨A, M, hstart, hA, hM⟩ := startWrites_split hk m
  obtain ⟨N, C, hfinish, hN, hC⟩ := finishWrites_split hk
  have hoff : ((startWrites p m).foldl Device.write d).enable k = false := by
    rw [hstart, List.foldl_append, List.foldl_cons, enable_foldl (fun w hw => (hM w hw).1), enable_write_enable]
    rfl
  obtain ⟨X, Y, hmode, hX, hY⟩ := fbSetModeWrites_split hk m u ((startWrites p m).foldl Device.write d)
  rw [hoff] at hmode
  refine ⟨A, M ++ X ++ timingWrites m k, Y ++ N, C, ?_, hA, hC, ?_, ?_⟩
  · unfold processorStartWrites
    rw [hmode, hstart, hfinish]
    simp only [fbSetModeOut, Bool.false_eq_true, if_false, List.nil_append, List.append_assoc, List.cons_append]
  · simp only [List.forall_mem_append]
    exact ⟨⟨fun w hw => (hM w hw).1, fun w hw => (hX w hw).1⟩, not_enables_timingWrites⟩
  · rw [List.forall_mem_append]
    exact ⟨fun w hw => (hY w hw).1, fun w hw => (hN w hw).1⟩

theorem keepsOff_iff {k : Fin 2} (hk : p.hasOut k = true) (m : VideoTiming) (u : Fin 2 → Word) (d : Device) :
    KeepsOff k d (processorStartWrites p m u d) ↔ (u k).getLsbD 0 = false := by
  obtain ⟨A, I, I', C, heq, hA, hC, hI, hI'⟩ := processorStartWrites_split hk m u d
  rw [heq]
  constructor
  · intro h
    have hcut := h.off (A ++ .enable k 0 :: (I ++ [.enable k (u k)])) (I' ++ .enable k 1 :: C) (by simp)
      ⟨⟨.enable k 0, by simp, rfl⟩, .enable k 1, by simp, rfl⟩
    rw [List.foldl_append, List.foldl_cons, List.foldl_append, List.foldl_cons, List.foldl_nil,
      enable_write_enable] at hcut
    exact hcut
  · intro hu
    -- what is before the last write to the enable and not before the first leaves it off
    have hoff : ∀ b b', I ++ .enable k (u k) :: I' = b ++ b' →
        ((A ++ .enable k 0 :: b).foldl Device.write d).enable k = false := by
      intro b b' hb
      rw [List.foldl_append, List.foldl_cons]
      refine off_foldl ?_ (enable_write_enable k 0 _)
      intro v hv
      have hmem : .enable k v ∈ I ++ .enable k (u k) :: I' := by
        rw [hb]
        exact List.mem_append_left _ hv
      rw [List.mem_append, List.mem_cons] at hmem
      obtain hmem | hmem | hmem := hmem
      · exact absurd rfl (hI _ hmem)
      · cases hmem
        exact hu
      · exact absurd rfl (hI' _ hmem)
    refine ⟨?_, ?_⟩
    · intro pre post hcut hbetween
      obtain ⟨b, b', rfl, hb⟩ := cut_within hcut (fun w hw => (hA w hw).1) (fun w hw => (hC w hw).1) hbetween
      exact hoff b b' hb
    · intro pre post hcut hnext
      have hbefore : ∀ w ∈ A ++ [Write.enable k 0], ¬ w.Reclocks := by
        rw [List.forall_mem_append]
        exact ⟨fun w hw => (hA w hw).2, by simp [Write.Reclocks]⟩
      have hafter : ∀ w ∈ Write.enable k 1 :: C, ¬ w.Reclocks := by
        rw [List.forall_mem_cons]
        exact ⟨id, fun w hw => (hC w hw).2⟩
      rw [← List.append_assoc, ← List.singleton_append, ← List.append_assoc] at hcut
      obtain ⟨b, b', rfl, hb⟩ := cut_middle hcut hbefore hafter (.inr hnext)
      rw [List.append_assoc, List.singleton_append]
      exact hoff b b' hb

/-- **The outputs stay off and come back as they were exactly when** the locals that nothing sets happen to hold an even
number: in `fb_set_mode` those of the outputs that were off, in `processor_start`, which has switched all of them off,
those of all outputs the board has. -/
theorem keeps_iff (p : Platform) (m : VideoTiming) (u : Fin 2 → Word) (d : Device) :
    ((∀ k, p.hasOut k = true → KeepsMode k d (fbSetModeWrites p m u d)) ↔
      ∀ k, p.hasOut k = true → d.enable k = true ∨ (u k).getLsbD 0 = false) ∧
    ((∀ k, p.hasOut k = true → KeepsOff k d (processorStartWrites p m u d)) ↔
      ∀ k, p.hasOut k = true → (u k).getLsbD 0 = false) := by
  constructor
  · exact forall_congr' fun k => forall_congr' fun hk => keepsMode_iff hk m u d
  · exact forall_congr' fun k => forall_congr' fun hk => keepsOff_iff hk m u d

/-- Both outputs are off, and what is in the locals switches them on, before the clock generator is programmed. -/
theorem not_keeps_ones : let d : Device := ⟨fun _ => false, fun _ _ => 0, fun _ => 0, false, 0⟩
    ¬ KeepsMode 0 d (fbSetModeWrites opsis default (fun _ => 1) d) ∧
      ¬ KeepsOff 0 d (processorStartWrites opsis default (fun _ => 1) d) := by
  constructor
  · rw [keepsMode_iff rfl]
    decide
  · rw [keepsOff_iff rfl]
    decide

/-! ## What the writes leave, against `processorStart` -/

def Initiator.get (r : Initiator) : TimingRegister → Word
  | .hres       => r.hres
  | .hsyncStart => r.hsyncStart
  | .hsyncEnd   => r.hsyncEnd
  | .hscan      => r.hscan
  | .vres       => r.vres
  | .vsyncStart => r.vsyncStart
  | .vsyncEnd   => r.vsyncEnd
  | .vscan      => r.vscan
  | .length     => r.length

/-- The registers of the pipeline that a device has. -/
def deviceOf (s : State) : Device where
  enable        := fun k => (s.out k).enable.getLsbD 0
  timing        := fun k => (s.out k).get
  clkgen        := s.clkgen
  clockingReset := s.clockingReset
  clockConfig   := s.clockConfig

theorem foldl_timingWrites (mode : VideoTiming) (k : Fin 2) (d : Device) : (timingWrites mode k).foldl Device.write d =
    { d with timing := Function.update d.timing k (setInitiator mode 0 default).get } := by
  unfold timingWrites
  simp only [List.foldl_cons, List.foldl_nil, Device.write, Function.update_idem, Function.update_self]
  congr 2
  funext r
  cases r <;> rfl

theorem foldl_fbSetModeOut (mode : VideoTiming) (u : Word) (k : Fin 2) (d : Device) :
    (fbSetModeOut mode u k (d.enable k)).foldl Device.write d =
      { d with
        enable := Function.update d.enable k (if d.enable k then true else u.getLsbD 0)
        timing := Function.update d.timing k (setInitiator mode 0 default).get } := by
  unfold fbSetModeOut
  rw [List.foldl_append, List.foldl_append, foldl_timingWrites]
  cases d.enable k with
  | false => rfl
  | true => simp [Device.write]

theorem foldl_fbSetModeOuts (mode : VideoTiming) (u : Fin 2 → Word) : ∀ {ks : List (Fin 2)}, ks.Nodup → ∀ d : Device,
    (fbSetModeOuts mode u ks d).foldl Device.write d =
      { d with
        enable := fun k => if k ∈ ks then (if d.enable k then true else (u k).getLsbD 0) else d.enable k
        timing := fun k => if k ∈ ks then (setInitiator mode 0 default).get else d.timing k }
  | [], _, _ => by simp [fbSetModeOuts]
  | j :: ks, hnodup, d => by
    obtain ⟨hj, hks⟩ := List.nodup_cons.1 hnodup
    unfold fbSetModeOuts
    rw [List.foldl_append, foldl_fbSetModeOuts mode u hks, foldl_fbSetModeOut]
    have hof : ∀ {α : Type} (f : Fin 2 → α) (a : α) (g : α → Fin 2 → α),
        (fun k => if k ∈ ks then g (Function.update f j a k) k else Function.update f j a k) =
          fun k => if k = j then a else if k ∈ ks then g (f k) k else f k := by
      intro α f a g
      funext k
      by_cases hk : k = j
      · subst hk
        rw [if_neg hj, if_pos rfl, Function.update_self]
      · rw [if_neg hk, Function.update_of_ne hk]
    rw [Device.mk.injEq]
    refine ⟨?_, ?_, rfl, rfl, rfl⟩
    · rw [hof d.enable _ fun e k => if e then true else (u k).getLsbD 0]
      funext k
      by_cases hk : k = j
      · subst hk
        simp
      · simp [hk]
    · rw [hof d.timing _ fun _ _ => (setInitiator mode 0 default).get]
      funext k
      by_cases hk : k = j
      · simp [hk]
      · simp [hk]

theorem foldl_fbSetClockWrites (p : Platform) (pixelClock : Word) (d : Device) :
    (fbSetClockWrites p pixelClock).foldl Device.write d = { d with clkgen := clkgenFor p d.clkgen pixelClock } := by
  unfold fbSetClockWrites clkgenFor
  generalize fbGetClockMd p pixelClock = md
  cases p.clocking with
  | pll => rfl
  | mmcm => rfl

/-- What the writes of `fb_set_mode` leave in the registers. -/
theorem foldl_fbSetModeWrites (p : Platform) (mode : VideoTiming) (u : Fin 2 → Word) (d : Device) :
    (fbSetModeWrites p mode u d).foldl Device.write d =
      { d with
        enable := fun k => if p.hasOut k then (if d.enable k then true else (u k).getLsbD 0) else d.enable k
        timing := fun k => if p.hasOut k then (setInitiator mode 0 default).get else d.timing k
        clkgen := clkgenFor p d.clkgen mode.pixelClock } := by
  unfold fbSetModeWrites
  rw [List.foldl_append, foldl_fbSetModeOuts mode u nodup_outs, foldl_fbSetClockWrites]
  simp only [mem_outs]

/-- **The writes of `fb_set_mode` leave what `fbSetMode` does**, the enables being single bits. -/
theorem fbSetModeWrites_fbSetMode (p : Platform) (env : Env) (mode : VideoTiming) (s : State)
    (hbit : ∀ k, (s.out k).enable = 0 ∨ (s.out k).enable = 1) :
    (fbSetModeWrites p mode env.uninitialised (deviceOf s)).foldl Device.write (deviceOf s) =
      deviceOf (fbSetMode p env mode s) := by
  rw [foldl_fbSetModeWrites]
  unfold deviceOf fbSetMode State.mapOut
  rw [Device.mk.injEq]
  refine ⟨?_, ?_, rfl, rfl, rfl⟩
  · funext k
    by_cases hk : p.hasOut k = true
    · cases hbit k with
      | inl h => simp [hk, setInitiator, h]
      | inr h => simp [hk, setInitiator, h]
    · simp [hk]
  · funext k r
    by_cases hk : p.hasOut k = true
    · cases r <;> simp [hk, Initiator.get, setInitiator]
    · simp [hk]

theorem foldl_enables (v : Word) : ∀ (ks : List (Fin 2)) (d : Device),
    (ks.map (Write.enable · v)).foldl Device.write d =
      { d with enable := fun k => if k ∈ ks then v.getLsbD 0 else d.enable k }
  | [], d => by simp
  | j :: ks, d => by
    rw [List.map_cons, List.foldl_cons, foldl_enables v ks]
    unfold Device.write
    rw [Device.mk.injEq]
    refine ⟨?_, rfl, rfl, rfl, rfl⟩
    funext k
    by_cases hk : k = j
    · subst hk
      simp
    · simp [hk]

/-- Writes to none of the registers of a device. -/
theorem foldl_map_quiet {α : Type*} (f : α → Write) (hf : ∀ a (d : Device), d.write (f a) = d) :
    ∀ (l : List α) (d : Device), (l.map f).foldl Device.write d = d
  | [], _ => rfl
  | a :: l, d => by
    rw [List.map_cons, List.foldl_cons, hf, foldl_map_quiet f hf l]

/-- **The writes of `processor_start` leave what `startTiming` does.** -/
theorem processorStartWrites_startTiming (p : Platform) (env : Env) (m : VideoTiming) (sec : Option VideoTiming)
    (mode : Int) (s : State) :
    (processorStartWrites p m env.uninitialised (deviceOf s)).foldl Device.write (deviceOf s) =
      deviceOf (startTiming p env m sec mode s) := by
  have hpattern : ∀ d : Device, (if p.simulation then [] else [Write.pattern]).foldl Device.write d = d := by
    intro d
    cases p.simulation <;> rfl
  have hhpd := fun b => foldl_map_quiet (Write.hpdEn · b) (fun _ _ => rfl) (ins p)
  have hinput := foldl_map_quiet Write.input (fun _ _ => rfl) (ins p)
  have hedid := foldl_map_quiet Write.edid (fun _ _ => rfl) (ins p)
  unfold processorStartWrites
  rw [List.foldl_append, List.foldl_append, foldl_fbSetModeWrites]
  unfold startWrites finishWrites
  simp only [List.foldl_append, foldl_enables, hhpd, hinput, hedid, hpattern, List.foldl_cons, List.foldl_nil]
  unfold deviceOf startTiming
  simp only [patternFillFramebuffer_eq, State.mapOut, State.mapIn, State.divide, fbSetMode, edidSetMode]
  rw [Device.mk.injEq]
  refine ⟨?_, ?_, ?_, ?_, ?_⟩
  · funext k
    by_cases hk : p.hasOut k = true
    · simp [hk, mem_outs]
    · simp [Device.write, hk, mem_outs]
  · funext k r
    by_cases hk : p.hasOut k = true
    · cases r <;> simp [Device.write, hk, Initiator.get, setInitiator]
    · simp [Device.write, hk]
  · rfl
  · rfl
  · rfl

end Processor
end Hdmi2Usb
