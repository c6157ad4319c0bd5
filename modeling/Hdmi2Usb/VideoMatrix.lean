import Hdmi2Usb.Console
import Hdmi2Usb.Runs
/-!
# VideoMatrix — which frame buffer each sink reads

A sink is connected to a source, and `processor_update` gives it the base of that source's current frame buffer.  Two
slips keep it from doing so for PCIe: output 1 looks at the source of output 0, and the encoder has no case.  And
`video_matrix connect` accepts sources and sinks that the board does not have, or that nothing reads.  Where neither
comes in, every sink follows its own source and no other (`heeded_routes`).
-/
namespace Hdmi2Usb
namespace Console

open Processor
open Runs (AllSteps)

inductive Sink
  | out (k : Fin 2)
  | encoder
deriving DecidableEq

def Sink.present (p : Platform) : Sink → Bool
  | .out k   => p.hasOut k
  | .encoder => p.hasEncoder

def Sink.source (s : State) : Sink → Int
  | .out k   => s.outSource k
  | .encoder => s.encoderSource

def Sink.base (s : State) : Sink → Word
  | .out k   => (s.out k).base
  | .encoder => s.encoderBase

/-- The source that the PCIe case of a sink's code looks at. -/
def Sink.pcieSource (s : State) : Sink → Int
  | .out _   => s.outSource 0
  | .encoder => videoInPattern

/-- The frame buffer that a source shows, if the board has it. -/
def currentBuffer (p : Platform) (env : Env) (s : State) (source : Int) : Option Word :=
  if source = videoInPattern then some framebufferBasePattern
  else if source = videoInHdmiIn0 ∧ p.hasIn 0 then some (HdmiIn.base 0 (s.input 0).video.fbIndex)
  else if source = videoInHdmiIn1 ∧ p.hasIn 1 then some (HdmiIn.base 1 (s.input 1).video.fbIndex)
  else if source = videoInPcie ∧ p.hasPcie then some (pcieInFramebufferBase ((env.pcieInFbIndex >>> 24).setWidth 8))
  else none

/-! ## The events -/

inductive Event
  | connect (source sink : Int)
  /-- The interrupt of an input, with what the hardware left in its slots. -/
  | complete (x : Fin 2) (slots : Fin 2 → HdmiIn.DmaSlot)
  | update

variable (p : Platform)

/-- `video_matrix_connect` does not turn the command down. -/
def Accepted (source sink : Int) : Prop :=
  (0 ≤ source ∧ source < videoInMax) ∧ ((0 ≤ sink ∧ sink ≤ videoOutHdmiOut1) ∨
    (p.hasEncoder ∧ sink = videoOutEncoder) ∨ (p.hasPcie ∧ sink = videoOutPcie))

instance (source sink : Int) : Decidable (Accepted p source sink) := inferInstanceAs (Decidable (_ ∧ _))

def sinkNamed (sink : Int) : Option Sink :=
  if sink = videoOutHdmiOut0 then some (.out 0)
  else if sink = videoOutHdmiOut1 then some (.out 1)
  else if sink = videoOutEncoder then some .encoder
  else none

/-- `hdmi_inX_isr`. -/
def complete (env : Env) (x : Fin 2) (slots : Fin 2 → HdmiIn.DmaSlot) (s : State) : State :=
  processorUpdate p env (s.mapIn p fun k i =>
    if k = x then { i with video := HdmiIn.isr k { i.video with dmaSlot := slots } } else i)

def matrixStep (s : State) : Env × Event → State
  | (env, .connect source sink) => videoMatrixConnect p env source sink s
  | (env, .complete x slots)    => complete p env x slots s
  | (env, .update)              => processorUpdate p env s

/-- Every sink reads the current frame buffer of its own source. -/
def Routed (env : Env) (s : State) : Prop :=
  ∀ k : Sink, k.present p = true → currentBuffer p env s (k.source s) = some (k.base s)

/-- The step leaves every sink routed, and a connection it accepts is made at the sink it names. -/
def Routes (s : State) : Env × Event → Prop
  | (env, .connect source sink) => Accepted p source sink → Routed p env (videoMatrixConnect p env source sink s) ∧
      ∃ k, sinkNamed sink = some k ∧ k.present p = true ∧ k.source (videoMatrixConnect p env source sink s) = source
  | (env, .complete x slots)    => Routed p env (complete p env x slots s)
  | (env, .update)              => Routed p env (processorUpdate p env s)

/-! ## What a sink needs -/

def Available (source : Int) : Prop :=
  source = videoInPattern ∨ (source = videoInHdmiIn0 ∧ p.hasIn 0 = true) ∨ (source = videoInHdmiIn1 ∧ p.hasIn 1 = true) ∨
    (source = videoInPcie ∧ p.hasPcie = true)

/-- The board has the source, and the sink's PCIe case tells right whether it is PCIe. -/
def HeedsSource (source pcieSource : Int) : Prop :=
  Available p source ∧
    (p.hasPcie = true → source ≠ videoInPattern → (pcieSource = videoInPcie ↔ source = videoInPcie))

def HeedsSources (s : State) : Prop :=
  ∀ k : Sink, k.present p = true → HeedsSource p (k.source s) (k.pcieSource s)

/-- The sources after a connection. -/
def connected (source sink : Int) (s : State) : State :=
  match sinkNamed sink with
  | some (.out k)   => if p.hasOut k then { s with outSource := Function.update s.outSource k source } else s
  | some .encoder   => { s with encoderSource := source }
  | none            => s

/-- The sinks' sources are heeded when the step updates the bases, and a connection names a sink of the board. -/
def Heeded (s : State) : Env × Event → Prop
  | (_, .connect source sink) => Accepted p source sink →
      (∃ k, sinkNamed sink = some k ∧ k.present p = true) ∧ HeedsSources p (connected p source sink s)
  | (_, .complete _ _)        => HeedsSources p s
  | (_, .update)              => HeedsSources p s

instance (source : Int) : Decidable (Available p source) := inferInstanceAs (Decidable (_ ∨ _))

instance (source pcieSource : Int) : Decidable (HeedsSource p source pcieSource) :=
  inferInstanceAs (Decidable (_ ∧ _))

theorem heedsSources_iff (s : State) : HeedsSources p s ↔
    (∀ k, p.hasOut k = true → HeedsSource p (s.outSource k) (s.outSource 0)) ∧
      (p.hasEncoder = true → HeedsSource p s.encoderSource videoInPattern) := by
  constructor
  · intro h
    exact ⟨fun k => h (.out k), h .encoder⟩
  · rintro ⟨hout, henc⟩ (k | _)
    · exact hout k
    · exact henc

instance (s : State) : Decidable (HeedsSources p s) := decidable_of_iff _ (heedsSources_iff p s).symm

instance decidableHeeded (s : State) : ∀ e, Decidable (Heeded p s e)
  | (_, .connect _ _)  => inferInstanceAs (Decidable (_ → _))
  | (_, .complete _ _) => inferInstanceAs (Decidable (HeedsSources p s))
  | (_, .update)       => inferInstanceAs (Decidable (HeedsSources p s))

variable {p} {env : Env}

theorem sourceBase_of_heeds {s : State} {source pcieSource : Int} (h : HeedsSource p source pcieSource) (base : Word) :
    currentBuffer p env s source = some (sourceBase p env s source pcieSource base) := by
  obtain ⟨havail, hpcie⟩ := h
  unfold currentBuffer sourceBase
  rcases havail with rfl | ⟨rfl, h0⟩ | ⟨rfl, h1⟩ | ⟨rfl, hp⟩
  · simp
  · have hnot : ¬ (p.hasPcie = true ∧ pcieSource = videoInPcie) :=
      fun hc => absurd ((hpcie hc.1 (by decide)).1 hc.2) (by decide)
    simp [h0, if_neg hnot, videoInHdmiIn0, videoInHdmiIn1, videoInPattern]
  · have hnot : ¬ (p.hasPcie = true ∧ pcieSource = videoInPcie) :=
      fun hc => absurd ((hpcie hc.1 (by decide)).1 hc.2) (by decide)
    simp [h1, if_neg hnot, videoInHdmiIn0, videoInHdmiIn1, videoInPattern]
  · obtain rfl : pcieSource = videoInPcie := (hpcie hp (by decide)).2 rfl
    simp [hp, videoInHdmiIn0, videoInHdmiIn1, videoInPattern, videoInPcie]

/-! ## One step -/

theorem currentBuffer_congr {s t : State} (h : s.input = t.input) (source : Int) :
    currentBuffer p env s source = currentBuffer p env t source := by
  unfold currentBuffer
  rw [h]

theorem base_processorUpdate (s : State) {k : Sink} (hk : k.present p = true) :
    k.base (processorUpdate p env s) = sourceBase p env s (k.source s) (k.pcieSource s) (k.base s) := by
  cases k with
  | out k => exact congrArg Initiator.base (if_pos hk)
  | encoder => exact if_pos hk

theorem source_processorUpdate (s : State) (k : Sink) : k.source (processorUpdate p env s) = k.source s := by
  cases k <;> rfl

theorem routed_processorUpdate (env : Env) {s : State} (h : HeedsSources p s) :
    Routed p env (processorUpdate p env s) := by
  intro k hk
  rw [source_processorUpdate, base_processorUpdate s hk]
  exact sourceBase_of_heeds (h k hk) _

theorem videoMatrixConnect_accepted {source sink : Int} (h : Accepted p source sink) (s : State) :
    videoMatrixConnect p env source sink s = processorUpdate p env (connected p source sink s) := by
  obtain ⟨hsource, hsink⟩ := h
  unfold videoMatrixConnect
  rw [if_pos hsource]
  by_cases hout : 0 ≤ sink ∧ sink ≤ videoOutHdmiOut1
  · rw [if_pos hout]
    have hcases : sink = videoOutHdmiOut0 ∨ sink = videoOutHdmiOut1 := by
      unfold videoOutHdmiOut1 videoOutHdmiOut0 at *
      omega
    rcases hcases with rfl | rfl <;> rfl
  · rw [if_neg hout]
    rcases hsink with hsink | ⟨henc, rfl⟩ | ⟨hpcie, rfl⟩
    · exact absurd hsink hout
    · rw [if_pos ⟨henc, rfl⟩]
      rfl
    · rw [if_neg (fun hc => absurd hc.2 (by decide)), if_pos ⟨hpcie, rfl⟩]
      rfl

theorem videoMatrixConnect_rejected {source sink : Int} (h : ¬ Accepted p source sink) (s : State) :
    videoMatrixConnect p env source sink s = s := by
  unfold videoMatrixConnect
  by_cases hsource : 0 ≤ source ∧ source < videoInMax
  · rw [if_pos hsource, if_neg (fun hc => h ⟨hsource, Or.inl hc⟩), if_neg (fun hc => h ⟨hsource, Or.inr (Or.inl hc)⟩),
      if_neg (fun hc => h ⟨hsource, Or.inr (Or.inr hc)⟩)]
  · rw [if_neg hsource]

theorem source_connected_named {sink : Int} {k : Sink} (hk : sinkNamed sink = some k) (hp : k.present p = true)
    (source : Int) (s : State) : k.source (connected p source sink s) = source := by
  unfold connected
  rw [hk]
  cases k with
  | out k =>
    have hout : p.hasOut k = true := hp
    simp [Sink.source, hout]
  | encoder => rfl

/-- A connection changes the source of no sink but the one it names. -/
theorem source_connected_other {sink : Int} {k : Sink} (hk : sinkNamed sink ≠ some k) (source : Int) (s : State) :
    k.source (connected p source sink s) = k.source s := by
  unfold connected
  cases hn : sinkNamed sink with
  | none => rfl
  | some j =>
    have hne : k ≠ j := fun hkj => hk (by rw [hn, hkj])
    cases j with
    | out j =>
      by_cases hout : p.hasOut j = true
      · simp only [if_pos hout]
        cases k with
        | out i => exact Function.update_of_ne (fun hij => hne (by rw [hij])) _ _
        | encoder => rfl
      · simp only [if_neg hout]
    | encoder =>
      cases k with
      | out i => rfl
      | encoder => exact absurd rfl hne

theorem input_connected (source sink : Int) (s : State) : (connected p source sink s).input = s.input := by
  unfold connected
  split
  · split <;> rfl
  · rfl
  · rfl

theorem routes_of_heeded {s : State} {e : Env × Event} (h : Heeded p s e) : Routes p s e := by
  obtain ⟨env, ⟨source, sink⟩ | ⟨x, slots⟩ | _⟩ := e
  · intro hacc
    obtain ⟨⟨k, hk, hp⟩, hheeds⟩ := h hacc
    rw [videoMatrixConnect_accepted hacc]
    refine ⟨routed_processorUpdate env hheeds, k, hk, hp, ?_⟩
    rw [source_processorUpdate, source_connected_named hk hp]
  · exact routed_processorUpdate env h
  · exact routed_processorUpdate env h

/-! ## Two runs -/

/-- The same event, but for the source that a connection to `k` names. -/
def SameBut (p : Platform) (k : Sink) (e f : Env × Event) : Prop :=
  e = f ∨ ∃ env source source' sink, sinkNamed sink = some k ∧ Accepted p source sink ∧ Accepted p source' sink ∧
    e = (env, .connect source sink) ∧ f = (env, .connect source' sink)

/-- Two states that differ in `k` alone, as far as the matrix goes. -/
structure Apart (p : Platform) (k : Sink) (s t : State) : Prop where
  input  : s.input = t.input
  source : ∀ j, j ≠ k → j.source s = j.source t
  base   : ∀ j, j ≠ k → j.present p = true → j.base s = j.base t

/-- Updating two states apart in `k`, whose sources are heeded, leaves them apart in `k`. -/
theorem apart_processorUpdate {k : Sink} {s t : State} (hinput : s.input = t.input)
    (hsource : ∀ j, j ≠ k → j.source s = j.source t) (hs : HeedsSources p s) (ht : HeedsSources p t) :
    Apart p k (processorUpdate p env s) (processorUpdate p env t) := by
  refine ⟨hinput, fun j hj => ?_, fun j hj hp => ?_⟩
  · rw [source_processorUpdate, source_processorUpdate, hsource j hj]
  · have hbs := routed_processorUpdate env hs j hp
    have hbt := routed_processorUpdate env ht j hp
    rw [source_processorUpdate] at hbs hbt
    rw [hsource j hj] at hbs
    rw [currentBuffer_congr (s := processorUpdate p env s) (t := processorUpdate p env t) hinput] at hbs
    exact Option.some.inj (hbs.symm.trans hbt)

theorem apart_connect {k : Sink} {s t : State} (h : Apart p k s t) {source source' sink : Int}
    (hsame : source = source' ∨ sinkNamed sink = some k) (ha : Accepted p source sink) (hb : Accepted p source' sink)
    (hs : HeedsSources p (connected p source sink s)) (ht : HeedsSources p (connected p source' sink t)) :
    Apart p k (videoMatrixConnect p env source sink s) (videoMatrixConnect p env source' sink t) := by
  rw [videoMatrixConnect_accepted ha, videoMatrixConnect_accepted hb]
  refine apart_processorUpdate ?_ ?_ hs ht
  · rw [input_connected, input_connected, h.input]
  · intro j hj
    by_cases hnamed : sinkNamed sink = some j
    · have heq : source = source' := hsame.resolve_right fun hk => hj (Option.some.inj (hnamed.symm.trans hk))
      subst heq
      unfold connected
      rw [hnamed]
      cases j with
      | out i =>
        have hi := h.source (.out i) hj
        simp only [Sink.source] at hi ⊢
        split
        · simp
        · exact hi
      | encoder => rfl
    · rw [source_connected_other hnamed, source_connected_other hnamed, h.source j hj]

theorem apart_step {k : Sink} {s t : State} {e f : Env × Event} (h : Apart p k s t) (hsame : SameBut p k e f)
    (he : Heeded p s e) (hf : Heeded p t f) : Apart p k (matrixStep p s e) (matrixStep p t f) := by
  rcases hsame with rfl | ⟨env, source, source', sink, hk, ha, hb, rfl, rfl⟩
  · obtain ⟨env, ⟨source, sink⟩ | ⟨x, slots⟩ | _⟩ := e
    · by_cases ha : Accepted p source sink
      · exact apart_connect h (Or.inl rfl) ha ha (he ha).2 (hf ha).2
      · simp only [matrixStep, videoMatrixConnect_rejected ha]
        exact h
    · refine apart_processorUpdate ?_ h.source he hf
      simp only [State.mapIn, h.input]
    · exact apart_processorUpdate h.input h.source he hf
  · exact apart_connect h (Or.inr hk) ha hb (he ha).2 (hf hb).2

/-! ## The run -/

/-- **Every sink follows its own source and no other** through a run whose sources are heeded: after each step each sink
reads the current frame buffer of its source, and in a second such run, apart in the source of one sink, the others read
what they read in the first. -/
theorem heeded_routes (p : Platform) (s : State) (es : List (Env × Event))
    (h : AllSteps (matrixStep p) (Heeded p) s es) :
    AllSteps (matrixStep p) (Routes p) s es ∧
      ∀ (k : Sink) (fs : List (Env × Event)), List.Forall₂ (SameBut p k) es fs →
        AllSteps (matrixStep p) (Heeded p) s fs → ∀ j, j ≠ k → j.present p = true →
          j.base (es.foldl (matrixStep p) s) = j.base (fs.foldl (matrixStep p) s) := by
  constructor
  · exact (AllSteps.inv (fun _ _ (_ : True) hok => ⟨routes_of_heeded hok, trivial⟩) trivial h).1
  · intro k fs hsame hfs j hj hp
    have hstart : Apart p k s s := ⟨rfl, fun _ _ => rfl, fun _ _ _ => rfl⟩
    exact (AllSteps.rel (fun _ _ _ _ => apart_step) hsame hstart h hfs).base j hj hp

/-- A source to output 0, a frame of input 0, and the pattern to the encoder. -/
def connectBoth (source : Int) : List (Env × Event) :=
  [(default, .connect source videoOutHdmiOut0), (default, .complete 0 fun _ => ⟨.pending, 0x3000000⟩),
    (default, .connect videoInPattern videoOutEncoder)]

theorem connectBoth_routes :
    AllSteps (matrixStep opsis) (Routes opsis) default (connectBoth videoInHdmiIn0) ∧
      Sink.encoder.base ((connectBoth videoInHdmiIn0).foldl (matrixStep opsis) default) =
        Sink.encoder.base ((connectBoth videoInHdmiIn1).foldl (matrixStep opsis) default) := by
  obtain ⟨hroutes, hapart⟩ := heeded_routes opsis default (connectBoth videoInHdmiIn0) (by decide)
  refine ⟨hroutes, hapart (.out 0) (connectBoth videoInHdmiIn1) ?_ (by decide) .encoder (by decide) rfl⟩
  refine .cons (Or.inr ⟨_, _, _, _, ?_, by decide, by decide, rfl, rfl⟩) (.cons (Or.inl rfl) (.cons (Or.inl rfl) .nil))
  decide

/-- The Opsis has no PCIe, and accepts it as a source. -/
theorem not_routes_pcie : Accepted opsis videoInPcie videoOutHdmiOut0 ∧
    ¬ AllSteps (matrixStep opsis) (Routes opsis) (boot opsis default default)
      [(default, .connect videoInPcie videoOutHdmiOut0)] := by
  have hacc : Accepted opsis videoInPcie videoOutHdmiOut0 := by decide
  refine ⟨hacc, fun h => ?_⟩
  have hrouted := (h.1 hacc).1 (.out 0) rfl
  rw [videoMatrixConnect_accepted hacc, source_processorUpdate, source_connected_named rfl rfl] at hrouted
  cases hrouted

/-- Where there is PCIe, output 1 shows it while output 0 is connected to it, whatever output 1 is connected to but the
pattern. -/
theorem base_out1_of_out0_pcie {s : State} (hpcie : p.hasPcie = true) (hout : p.hasOut 1 = true)
    (h0 : s.outSource 0 = videoInPcie) (h1 : s.outSource 1 ≠ videoInPattern) :
    (Sink.out 1).base (processorUpdate p env s) = pcieInFramebufferBase ((env.pcieInFbIndex >>> 24).setWidth 8) := by
  rw [base_processorUpdate (k := .out 1) s hout]
  show sourceBase p env s (s.outSource 1) (s.outSource 0) _ = _
  unfold sourceBase
  rw [if_neg h1, if_pos ⟨hpcie, h0⟩]

end Console
end Hdmi2Usb
