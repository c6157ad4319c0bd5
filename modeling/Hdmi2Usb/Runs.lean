import Mathlib.Data.List.Infix
/-!
# Runs — what holds along the run of a step function

A system is a step function `step : σ → ι → σ`, and its run from `s` over the inputs `is` is `is.foldl step s`.
`AllSteps` and `AllStates` say that every step, or every state, of a run meets a condition.  The rules of this module
are the inductions the systems share: an invariant, an invariant under a condition on the steps, and the exact rules
(`allSteps_congr`, `allStates_iff_allSteps`), which turn a condition on the states of a run into one on its steps, or
into one on a second system over the same inputs; `AllSteps.rel`, for two runs over related inputs; and a variant
(`AllSteps.count_le`), which bounds how many steps of a kind a run has.
-/
namespace Hdmi2Usb
namespace Runs

variable {σ γ ι : Type*}

/-- Every step of the run from `s` meets `ok`, read at the state before it. -/
def AllSteps (step : σ → ι → σ) (ok : σ → ι → Prop) : σ → List ι → Prop
  | _, []      => True
  | s, i :: is => ok s i ∧ AllSteps step ok (step s i) is

/-- Every state of the run from `s` satisfies `Q`, the first included. -/
def AllStates (step : σ → ι → σ) (Q : σ → Prop) : σ → List ι → Prop
  | s, []      => Q s
  | s, i :: is => Q s ∧ AllStates step Q (step s i) is

instance decidableAllSteps (step : σ → ι → σ) (ok : σ → ι → Prop) [∀ s i, Decidable (ok s i)] :
    ∀ (s : σ) (is : List ι), Decidable (AllSteps step ok s is)
  | _, []      => isTrue trivial
  | s, i :: is => @instDecidableAnd _ _ _ (decidableAllSteps step ok (step s i) is)

instance decidableAllStates (step : σ → ι → σ) (Q : σ → Prop) [DecidablePred Q] :
    ∀ (s : σ) (is : List ι), Decidable (AllStates step Q s is)
  | s, []      => inferInstanceAs (Decidable (Q s))
  | s, i :: is => @instDecidableAnd _ _ _ (decidableAllStates step Q (step s i) is)

variable {step : σ → ι → σ} {gstep : γ → ι → γ}

@[simp] theorem allSteps_nil (ok : σ → ι → Prop) (s : σ) : AllSteps step ok s [] := trivial

@[simp] theorem allSteps_cons (ok : σ → ι → Prop) (s : σ) (i : ι) (is : List ι) :
    AllSteps step ok s (i :: is) ↔ ok s i ∧ AllSteps step ok (step s i) is := Iff.rfl

@[simp] theorem allStates_nil (Q : σ → Prop) (s : σ) : AllStates step Q s [] ↔ Q s := Iff.rfl

@[simp] theorem allStates_cons (Q : σ → Prop) (s : σ) (i : ι) (is : List ι) :
    AllStates step Q s (i :: is) ↔ Q s ∧ AllStates step Q (step s i) is := Iff.rfl

theorem allSteps_append (ok : σ → ι → Prop) : ∀ (is js : List ι) (s : σ),
    AllSteps step ok s (is ++ js) ↔ AllSteps step ok s is ∧ AllSteps step ok (is.foldl step s) js
  | [], js, s => by simp
  | i :: is, js, s => by
    rw [List.cons_append, allSteps_cons, allSteps_cons, allSteps_append ok is, List.foldl_cons, and_assoc]

theorem allSteps_iff_prefix (ok : σ → ι → Prop) : ∀ (is : List ι) (s : σ),
    AllSteps step ok s is ↔ ∀ pre i, pre ++ [i] <+: is → ok (pre.foldl step s) i
  | [], s => by
    simp only [allSteps_nil, List.prefix_nil, true_iff]
    intro pre i h
    simp at h
  | j :: is, s => by
    rw [allSteps_cons, allSteps_iff_prefix ok is (step s j)]
    constructor
    · rintro ⟨hj, hrest⟩ pre i hp
      cases pre with
      | nil =>
        obtain ⟨rfl, -⟩ := List.cons_prefix_cons.1 hp
        exact hj
      | cons k pre =>
        obtain ⟨rfl, hp'⟩ := List.cons_prefix_cons.1 hp
        exact hrest pre i hp'
    · intro h
      refine ⟨h [] j (List.cons_prefix_cons.2 ⟨rfl, List.nil_prefix⟩), fun pre i hp => ?_⟩
      exact h (j :: pre) i (List.cons_prefix_cons.2 ⟨rfl, hp⟩)

theorem allStates_iff_prefix (Q : σ → Prop) : ∀ (is : List ι) (s : σ),
    AllStates step Q s is ↔ ∀ pre, pre <+: is → Q (pre.foldl step s)
  | [], s => by
    constructor
    · intro h pre hp
      rw [List.prefix_nil.1 hp]
      exact h
    · intro h
      exact h [] List.nil_prefix
  | j :: is, s => by
    rw [allStates_cons, allStates_iff_prefix Q is (step s j)]
    constructor
    · rintro ⟨hs, hrest⟩ pre hp
      cases pre with
      | nil => exact hs
      | cons k pre =>
        obtain ⟨rfl, hp'⟩ := List.cons_prefix_cons.1 hp
        exact hrest pre hp'
    · intro h
      refine ⟨h [] List.nil_prefix, fun pre hp => ?_⟩
      exact h (j :: pre) (List.cons_prefix_cons.2 ⟨rfl, hp⟩)

theorem allStates_iff_steps (Q : σ → Prop) : ∀ (is : List ι) (s : σ),
    AllStates step Q s is ↔ Q s ∧ AllSteps step (fun s i => Q (step s i)) s is
  | [], s => by simp
  | i :: is, s => by rw [allStates_cons, allStates_iff_steps Q is, allSteps_cons]

/-- A condition on the inputs alone. -/
theorem allSteps_inputs (ok : ι → Prop) : ∀ (is : List ι) (s : σ),
    AllSteps step (fun _ i => ok i) s is ↔ ∀ i ∈ is, ok i
  | [], s => by simp
  | i :: is, s => by rw [allSteps_cons, allSteps_inputs ok is, List.forall_mem_cons]

/-- **Invariant rule.** -/
theorem foldl_inv {Inv : σ → Prop} (hstep : ∀ s i, Inv s → Inv (step s i)) :
    ∀ (is : List ι) {s : σ}, Inv s → Inv (is.foldl step s)
  | [], _, h => h
  | i :: is, _, h => foldl_inv hstep is (hstep _ i h)

/-- **Invariant rule for the steps**: what every step does from an `Inv` state. -/
theorem allSteps_of_inv {P : σ → ι → Prop} {Inv : σ → Prop} (hP : ∀ s i, Inv s → P s i)
    (hstep : ∀ s i, Inv s → Inv (step s i)) : ∀ (is : List ι) {s : σ}, Inv s → AllSteps step P s is
  | [], _, _ => trivial
  | i :: is, s, h => ⟨hP s i h, allSteps_of_inv hP hstep is (hstep s i h)⟩

theorem AllStates.mono {Q Q' : σ → Prop} (hQ : ∀ s, Q s → Q' s) :
    ∀ {is : List ι} {s : σ}, AllStates step Q s is → AllStates step Q' s is
  | [], s, h => hQ s h
  | _ :: _, s, h => ⟨hQ s h.1, AllStates.mono hQ h.2⟩

/-- **Invariant rule under a condition on the steps**: steps that meet `ok` keep `Inv` and do `P`. -/
theorem AllSteps.inv {ok P : σ → ι → Prop} {Inv : σ → Prop}
    (hstep : ∀ s i, Inv s → ok s i → P s i ∧ Inv (step s i)) :
    ∀ {is : List ι} {s : σ}, Inv s → AllSteps step ok s is →
      AllSteps step P s is ∧ AllStates step Inv s is
  | [], _, h, _ => ⟨trivial, h⟩
  | i :: _, s, h, hok => by
    obtain ⟨hP, hI⟩ := hstep s i h hok.1
    obtain ⟨hPs, hIs⟩ := AllSteps.inv hstep hI hok.2
    exact ⟨⟨hP, hPs⟩, h, hIs⟩

/-- **Two-run rule**: over inputs related by `E`, steps of two systems that meet their conditions keep `R`. -/
theorem AllSteps.rel {κ : Type*} {kstep : γ → κ → γ} {ok : σ → ι → Prop} {kok : γ → κ → Prop} {R : σ → γ → Prop}
    {E : ι → κ → Prop} (hstep : ∀ s a i k, R s a → E i k → ok s i → kok a k → R (step s i) (kstep a k)) :
    ∀ {is : List ι} {ks : List κ} {s : σ} {a : γ}, List.Forall₂ E is ks → R s a → AllSteps step ok s is →
      AllSteps kstep kok a ks → R (is.foldl step s) (ks.foldl kstep a)
  | [], [], _, _, .nil, h, _, _ => h
  | i :: _, k :: _, s, a, .cons hE hEs, h, hok, hkok => by
    rw [List.foldl_cons, List.foldl_cons]
    exact AllSteps.rel hstep hEs (hstep s a i k h hE hok.1 hkok.1) hok.2 hkok.2

/-- **Exact simulation rule**: along `R`, a step does `P` exactly when the step of the simulating system meets `ok`,
and a step that meets it keeps `R`; then the run does `P` throughout exactly when the simulating run meets `ok`. -/
theorem allSteps_congr {R : σ → γ → Prop} {P : σ → ι → Prop} {ok : γ → ι → Prop}
    (hiff : ∀ s a i, R s a → (P s i ↔ ok a i))
    (hstep : ∀ s a i, R s a → ok a i → R (step s i) (gstep a i)) :
    ∀ (is : List ι) {s : σ} {a : γ}, R s a → (AllSteps step P s is ↔ AllSteps gstep ok a is)
  | [], _, _, _ => Iff.rfl
  | i :: is, s, a, h => by
    rw [allSteps_cons, allSteps_cons, hiff s a i h]
    exact and_congr_right fun hok => allSteps_congr hiff hstep is (hstep s a i h hok)

/-- **Exact invariant rule for the steps**: under `Inv`, a step does `P` exactly when its input meets `ok`, and then keeps
`Inv`. -/
theorem allSteps_iff_inputs {Inv : σ → Prop} {P : σ → ι → Prop} {ok : ι → Prop} (hiff : ∀ s i, Inv s → (P s i ↔ ok i))
    (hstep : ∀ s i, Inv s → ok i → Inv (step s i)) (is : List ι) {s : σ} (h : Inv s) :
    AllSteps step P s is ↔ ∀ i ∈ is, ok i := by
  have hinputs : AllSteps step (fun _ i => ok i) s is ↔ ∀ i ∈ is, ok i := allSteps_inputs ok is s
  rw [← hinputs]
  refine allSteps_congr (R := fun s a => s = a ∧ Inv s) ?_ ?_ is ⟨rfl, h⟩
  · rintro s _ i ⟨rfl, hs⟩
    exact hiff s i hs
  · rintro s _ i ⟨rfl, hs⟩ hok
    exact ⟨rfl, hstep s i hs hok⟩

/-- **Exact invariant rule**: under `Inv`, a step leads to a `Q` state exactly when it meets `ok`, and such a step keeps
`Inv`; then every state of a run is a `Q` state exactly when every step meets `ok`. -/
theorem allStates_iff_allSteps {Inv Q : σ → Prop} {ok : σ → ι → Prop} (hQ : ∀ s, Inv s → Q s)
    (hiff : ∀ s i, Inv s → (Q (step s i) ↔ ok s i)) (hstep : ∀ s i, Inv s → ok s i → Inv (step s i))
    (is : List ι) {s : σ} (h : Inv s) : AllStates step Q s is ↔ AllSteps step ok s is := by
  rw [allStates_iff_steps, and_iff_right (hQ s h)]
  refine allSteps_congr (R := fun s a => s = a ∧ Inv s) ?_ ?_ is ⟨rfl, h⟩
  · rintro s _ i ⟨rfl, hs⟩
    exact hiff s i hs
  · rintro s _ i ⟨rfl, hs⟩ hok
    exact ⟨rfl, hstep s i hs hok⟩

/-- The number of steps of the run from `s` that meet `free`. -/
def countSteps (step : σ → ι → σ) (free : σ → ι → Prop) [∀ s i, Decidable (free s i)] : σ → List ι → ℕ
  | _, []      => 0
  | s, i :: is => (if free s i then 1 else 0) + countSteps step free (step s i) is

/-- **Variant rule**: where steps that meet `ok` keep `Inv` and do not raise `V`, and lower it where they meet `free`, no
more than `V` of them do. -/
theorem AllSteps.count_le {ok free : σ → ι → Prop} [∀ s i, Decidable (free s i)] {Inv : σ → Prop} {V : σ → ℕ}
    (hstep : ∀ s i, Inv s → ok s i → Inv (step s i) ∧ V (step s i) + (if free s i then 1 else 0) ≤ V s) :
    ∀ {is : List ι} {s : σ}, Inv s → AllSteps step ok s is → countSteps step free s is ≤ V s
  | [], _, _, _ => Nat.zero_le _
  | i :: _, s, h, hok => by
    obtain ⟨hI, hV⟩ := hstep s i h hok.1
    have hrest := AllSteps.count_le hstep hI hok.2
    rw [countSteps]
    omega

end Runs
end Hdmi2Usb
