import Hdmi2Usb.EndianSwap
import Hdmi2Usb.Runs
/-!
# EndianSwapRun — which slaves the bridge is transparent for

A request stays on the slave's lines for two cycles after the slave has acknowledged it: one until the acknowledgement
is through the bridge, one until what the master does then is.  A slave that takes nothing in these two cycles sees each
transaction once, and each gets to it and back in a cycle either way (`transparent_iff`); one that does takes the
transaction a second time.
-/
namespace Hdmi2Usb
namespace EndianSwap

open Runs (AllSteps AllStates)

/-! ## The master -/

structure Mastered (s : System) : Prop where
  numbered : s.issued.map Request.number = List.range s.issued.length
  current  : s.master.stb = true → s.master.cyc = true ∧ s.issued.getLast? = some s.master.req

theorem mastered_cycle {s : System} (h : Mastered s) (i : Input) : Mastered (cycle s i) := by
  constructor
  · simp only [cycle]
    split
    · rw [List.map_append, h.numbered, List.length_append, List.length_singleton, List.range_succ]
      rfl
    · exact h.numbered
  · simp only [cycle]
    by_cases hh : s.holds = true
    · simp only [hh]
      exact h.current
    · simp only [hh]
      intro hgo
      simp only [Bool.false_eq_true, if_false] at hgo
      simp [hgo]

theorem number_of_current {s : System} (h : Mastered s) (hs : s.master.stb = true) :
    s.master.req.number + 1 = s.issued.length := by
  have hlast := (h.current hs).2
  have hmap := congrArg List.getLast? h.numbered
  rw [List.getLast?_map, hlast, List.getLast?_range] at hmap
  split at hmap
  · simp at hmap
  · simp only [Option.map_some, Option.some.injEq] at hmap
    omega

/-! ## The two cycles after an acknowledgement -/

/-- The transactions the slave has still to take: the one the master drives, if it drives one. -/
def Outstanding (s : System) : Prop :=
  s.issued.length = s.performed.length + if s.master.stb then 1 else 0

/-- The slave waits for a request, and what is on its lines is the master's. -/
structure Free (s : System) : Prop where
  pending  : s.pending = none
  sinceAck : s.sinceAck = 0
  ack      : s.swap.up.ack = false
  open'    : Outstanding s
  lines    : s.swap.down.stb = true →
    s.master.stb = true ∧ s.swap.down.req = s.master.req.swapped
  received : s.received = s.answers.map Answer.seen

structure Busy (s : System) : Prop where
  pending  : s.pending = some s.master.req.swapped
  sinceAck : s.sinceAck = 0
  ack      : s.swap.up.ack = false
  stb      : s.master.stb = true
  taken    : s.issued.length = s.performed.length
  received : s.received = s.answers.map Answer.seen

/-- The master sees the acknowledgement; its request is still on the slave's lines. -/
structure Acked (s : System) : Prop where
  pending  : s.pending = none
  sinceAck : s.sinceAck = 2
  ack      : s.swap.up.ack = true
  stb      : s.master.stb = true
  taken    : s.issued.length = s.performed.length
  number   : s.swap.up.number = s.master.req.number
  lines    : s.swap.down.req = s.master.req.swapped
  received : s.received ++ [⟨s.swap.up.number, s.swap.up.number, s.swap.up.datR⟩] = s.answers.map Answer.seen

/-- The master has gone on; the request it has ended is on the slave's lines for the last time. -/
structure Stale (s : System) : Prop where
  pending  : s.pending = none
  sinceAck : s.sinceAck = 1
  ack      : s.swap.up.ack = false
  open'    : Outstanding s
  lines    : s.swap.down.req.number + 1 = s.performed.length
  received : s.received = s.answers.map Answer.seen

structure Inv (s : System) : Prop where
  mastered  : Mastered s
  performed : s.performed <+: s.issued.map Request.swapped
  phase     : Free s ∨ Busy s ∨ Acked s ∨ Stale s

/-- The slave takes no request in the two cycles after it has acknowledged one. -/
def Spaced (s : System) (i : Input) : Prop := s.takes i = true → s.sinceAck = 0

instance (s : System) (i : Input) : Decidable (Spaced s i) := inferInstanceAs (Decidable (_ → _))

theorem inv_reset : Inv reset := by
  refine ⟨⟨rfl, ?_⟩, List.prefix_refl _, Or.inl ⟨rfl, rfl, rfl, rfl, ?_, rfl⟩⟩
  · intro h
    cases h
  · intro h
    cases h

/-! ## One cycle -/

theorem free_cycle {s : System} {i : Input} (hp : s.pending = none) (hs : s.sinceAck ≤ 1) (ha : s.swap.up.ack = false)
    (ho : Outstanding s) (hr : s.received = s.answers.map Answer.seen) (ht : s.takes i = false) :
    Free (cycle s i) := by
  have hw : s.working i = none := by simp [System.working, ht, hp]
  have hup : s.up i = ⟨false, false, i.datR, 0⟩ := by simp [System.up, hw]
  have hholds : s.holds = s.master.stb := by simp [System.holds, ha]
  unfold Outstanding at ho
  constructor
  · simp [cycle, hup, hw]
  · simp only [cycle, hup, Bool.false_eq_true, if_false]
    omega
  · simp [cycle, hup, sync]
  · unfold Outstanding
    cases hstb : s.master.stb with
    | true =>
      rw [hstb] at ho
      simp [cycle, hholds, hstb, ht, ho]
    | false =>
      rw [hstb] at ho
      cases hgo : i.go with
      | true => simpa [cycle, hholds, hstb, ht, hgo] using ho
      | false => simpa [cycle, hholds, hstb, ht, hgo] using ho
  · simp only [cycle, sync, hholds]
    intro hstb
    simp [hstb]
  · simp [cycle, hup, ha, hr]

/-- While the slave works, the master holds its request; the cycle may be the one that acknowledges it. -/
theorem working_cycle {s : System} {i : Input} (hw : s.working i = some s.master.req.swapped) (hs : s.sinceAck = 0)
    (ha : s.swap.up.ack = false) (hstb : s.master.stb = true)
    (htaken : s.issued.length = (cycle s i).performed.length) (hr : s.received = s.answers.map Answer.seen) :
    Busy (cycle s i) ∨ Acked (cycle s i) := by
  have hup : s.up i = ⟨i.ack, false, i.datR, s.master.req.number⟩ := by simp [System.up, hw, Request.swapped]
  have hholds : s.holds = true := by simp [System.holds, ha, hstb]
  cases hack : i.ack with
  | false =>
    left
    rw [hack] at hup
    refine ⟨?_, ?_, ?_, ?_, ?_, ?_⟩
    · simp [cycle, hup, hw, hholds]
    · simp [cycle, hup, hs]
    · simp [cycle, hup, sync]
    · simp [cycle, hholds, hstb]
    · rw [← htaken]
      simp [cycle, hholds]
    · simp [cycle, hup, ha, hr]
  | true =>
    right
    rw [hack] at hup
    refine ⟨?_, ?_, ?_, ?_, ?_, ?_, ?_, ?_⟩
    · simp [cycle, hup]
    · simp [cycle, hup]
    · simp [cycle, hup, sync]
    · simp [cycle, hholds, hstb]
    · rw [← htaken]
      simp [cycle, hholds]
    · simp [cycle, hup, sync, hholds]
    · simp [cycle, sync, hholds]
    · simp [cycle, hup, sync, ha, hr, Answer.seen]

theorem acked_cycle {s : System} (hm : Mastered s) (h : Acked s) {i : Input} (ht : s.takes i = false) :
    Stale (cycle s i) := by
  have hw : s.working i = none := by simp [System.working, ht, h.pending]
  have hup : s.up i = ⟨false, false, i.datR, 0⟩ := by simp [System.up, hw]
  have hholds : s.holds = false := by simp [System.holds, h.ack]
  refine ⟨?_, ?_, ?_, ?_, ?_, ?_⟩
  · simp [cycle, hup, hw]
  · simp [cycle, hup, h.sinceAck]
  · simp [cycle, hup, sync]
  · have htaken := h.taken
    unfold Outstanding
    cases hgo : i.go with
    | true => simpa [cycle, hholds, ht, hgo] using htaken
    | false => simpa [cycle, hholds, ht, hgo] using htaken
  · have hnum := number_of_current hm h.stb
    rw [h.taken] at hnum
    simpa [cycle, sync, ht, Request.swapped] using hnum
  · have hrec := h.received
    simpa [cycle, hup, h.stb, h.ack, h.number] using hrec

theorem performed_cycle_of_not_takes {s : System} {i : Input} (h : s.performed <+: s.issued.map Request.swapped)
    (ht : s.takes i = false) : (cycle s i).performed <+: (cycle s i).issued.map Request.swapped := by
  simp only [cycle, ht, Bool.false_eq_true, if_false]
  split
  · rw [List.map_append]
    exact h.trans (List.prefix_append _ _)
  · exact h

theorem prefix_concat_last {s : System} (h : s.performed <+: s.issued.map Request.swapped)
    (hlen : s.issued.length = s.performed.length + 1) {r : Request} (hlast : s.issued.getLast? = some r) :
    s.performed ++ [r.swapped] <+: s.issued.map Request.swapped := by
  obtain ⟨init, hinit⟩ := List.getLast?_eq_some_iff.1 hlast
  rw [hinit, List.length_append, List.length_singleton, Nat.add_right_cancel_iff] at hlen
  rw [hinit, List.map_append] at h ⊢
  have heq : s.performed = init.map Request.swapped := by
    have hp := List.prefix_of_prefix_length_le h (List.prefix_append _ _) (by simp [hlen])
    exact hp.eq_of_length (by simp [hlen])
  rw [heq]
  exact List.prefix_refl _

theorem inv_cycle {s : System} (h : Inv s) {i : Input} (hok : Spaced s i) : Inv (cycle s i) := by
  obtain ⟨hm, hperf, hphase⟩ := h
  cases ht : s.takes i with
  | false =>
    refine ⟨mastered_cycle hm i, performed_cycle_of_not_takes hperf ht, ?_⟩
    rcases hphase with hp | hp | hp | hp
    · exact Or.inl (free_cycle hp.pending (by rw [hp.sinceAck]; omega) hp.ack hp.open' hp.received ht)
    · have hw : s.working i = some s.master.req.swapped := by simp [System.working, ht, hp.pending]
      have htaken : s.issued.length = (cycle s i).performed.length := by simp [cycle, ht, hp.taken]
      cases working_cycle hw hp.sinceAck hp.ack hp.stb htaken hp.received with
      | inl hbusy => exact Or.inr (Or.inl hbusy)
      | inr hacked => exact Or.inr (Or.inr (Or.inl hacked))
    · exact Or.inr (Or.inr (Or.inr (acked_cycle hm hp ht)))
    · exact Or.inl (free_cycle hp.pending (by rw [hp.sinceAck]) hp.ack hp.open' hp.received ht)
  | true =>
    have hrest := hok ht
    simp only [System.takes, Bool.and_eq_true, Option.isNone_iff_eq_none] at ht
    rcases hphase with hp | hp | hp | hp
    · obtain ⟨hstb, hreq⟩ := hp.lines ht.2
      have htakes : s.takes i = true := by simp [System.takes, ht]
      have hw : s.working i = some s.master.req.swapped := by simp [System.working, htakes, hreq]
      have hopen := hp.open'
      unfold Outstanding at hopen
      rw [hstb, if_pos rfl] at hopen
      have htaken : s.issued.length = (cycle s i).performed.length := by simp [cycle, htakes, hopen]
      refine ⟨mastered_cycle hm i, ?_, ?_⟩
      · have hholds : s.holds = true := by simp [System.holds, hp.ack, hstb]
        simp only [cycle, htakes, hholds, if_pos, Bool.not_true, Bool.false_and, Bool.false_eq_true, if_false]
        rw [hreq]
        exact prefix_concat_last hperf hopen (hm.current hstb).2
      · cases working_cycle hw hrest hp.ack hstb htaken hp.received with
        | inl hbusy => exact Or.inr (Or.inl hbusy)
        | inr hacked => exact Or.inr (Or.inr (Or.inl hacked))
    · rw [hp.pending] at ht
      simp at ht
    · rw [hp.sinceAck] at hrest
      cases hrest
    · rw [hp.sinceAck] at hrest
      cases hrest

/-! ## Progress -/

theorem performed_of_takes {s : System} {i : Input} (ht : s.takes i = true) :
    (cycle s i).performed.length = s.performed.length + 1 := by
  simp [cycle, ht]

/-- A transaction that the slave has not performed is on its lines in the next cycle. -/
theorem request_reaches {s : System} (hm : Mastered s) (ho : Outstanding s) (i : Input) :
    s.issued.length ≤ (cycle s i).performed.length ∨ (cycle s i).offered s.issued := by
  unfold Outstanding at ho
  cases hstb : s.master.stb with
  | false =>
    left
    rw [hstb] at ho
    have hgrow : s.performed.length ≤ (cycle s i).performed.length := by
      simp only [cycle]
      split <;> simp
    exact ho.le.trans hgrow
  | true =>
    rw [hstb] at ho
    cases ht : s.takes i with
    | true =>
      left
      rw [performed_of_takes ht, ho]
      rfl
    | false =>
      right
      obtain ⟨hcyc, hlast⟩ := hm.current hstb
      exact ⟨hcyc, hstb, by rw [hlast]; rfl⟩

theorem reaches_of_inv {s : System} (h : Inv s) (i : Input) :
    s.issued.length ≤ (cycle s i).performed.length ∨ (cycle s i).offered s.issued := by
  have hgrow : s.performed.length ≤ (cycle s i).performed.length := by
    simp only [cycle]
    split <;> simp
  rcases h.phase with hp | hp | hp | hp
  · exact request_reaches h.mastered hp.open' i
  · exact Or.inl (hp.taken.le.trans hgrow)
  · exact Or.inl (hp.taken.le.trans hgrow)
  · exact request_reaches h.mastered hp.open' i

/-- The acknowledgement on the master's lines ends the transaction that the master drives. -/
theorem ack_ends {s : System} (h : Acked s) (i : Input) : (cycle s i).received = s.answers.map Answer.seen := by
  rw [← h.received]
  simp [cycle, h.stb, h.ack, h.number]

theorem ends_of_inv {s : System} (h : Inv s) (i : Input) : s.answers.map Answer.seen <+: (cycle s i).received := by
  have hgrow : s.received <+: (cycle s i).received := by
    simp only [cycle]
    split <;> simp
  rcases h.phase with hp | hp | hp | hp
  · rwa [hp.received] at hgrow
  · rwa [hp.received] at hgrow
  · rw [ack_ends hp i]
  · rwa [hp.received] at hgrow

theorem transparent_of_inv {s : System} (h : Inv s) : Transparent s := by
  refine ⟨h.performed, ?_, reaches_of_inv h, ends_of_inv h⟩
  rcases h.phase with hp | hp | hp | hp
  · rw [hp.received]
  · rw [hp.received]
  · rw [← hp.received]
    exact List.prefix_append _ _
  · rw [hp.received]

/-! ## The slaves it is transparent for -/

/-- A request taken in the two cycles of rest has been performed already. -/
theorem number_of_rest {s : System} (h : Inv s) (hrest : s.sinceAck ≠ 0) :
    s.swap.down.req.number + 1 = s.performed.length := by
  rcases h.phase with hp | hp | hp | hp
  · exact absurd hp.sinceAck hrest
  · exact absurd hp.sinceAck hrest
  · have hnum := number_of_current h.mastered hp.stb
    rw [hp.taken] at hnum
    rw [hp.lines]
    exact hnum
  · exact hp.lines

theorem number_of_prefix {s : System} (hm : Mastered s) {l : List Request} {r : Request}
    (h : l ++ [r] <+: s.issued.map Request.swapped) : r.number = l.length := by
  have hnum := h.map Request.number
  have hcomp : Request.number ∘ Request.swapped = Request.number := by
    funext r
    rfl
  rw [List.map_map, hcomp, hm.numbered, List.map_append] at hnum
  have hget := hnum.getElem (i := l.length) (by simp)
  simpa using hget

/-- **A cycle is transparent** exactly when the slave takes nothing in the two cycles of rest. -/
theorem transparent_cycle_iff {s : System} (h : Inv s) (i : Input) : Transparent (cycle s i) ↔ Spaced s i := by
  constructor
  · intro htrans ht
    by_contra hrest
    have hnum := number_of_rest h hrest
    have hperf := htrans.performed
    have hcycle : (cycle s i).performed = s.performed ++ [s.swap.down.req] := by simp [cycle, ht]
    rw [hcycle] at hperf
    have := number_of_prefix (mastered_cycle h.mastered i) hperf
    omega
  · intro hok
    exact transparent_of_inv (inv_cycle h hok)

/-- **The bridge is transparent** through a run exactly when the slave never takes a request in the two cycles after it
has acknowledged one: nothing is performed or ended twice, and nothing stays in the bridge. -/
theorem transparent_iff (is : List Input) :
    AllStates cycle Transparent reset is ↔ AllSteps cycle Spaced reset is :=
  Runs.allStates_iff_allSteps (fun _ h => transparent_of_inv h) (fun _ i h => transparent_cycle_iff h i)
    (fun _ _ h hok => inv_cycle h hok) is inv_reset

/-- The master's first read goes to word 1 and its second to word 2; the slave acknowledges what it takes at once, with
the word's address as data.  It takes the first read again two cycles after it has acknowledged it, and that
acknowledgement ends the second read. -/
def rereads : List Input :=
  let idle : Input := ⟨false, false, idleRequest, false, false, 0⟩
  [{ idle with go := true, req := { idleRequest with adr := 1 } }, idle, { idle with take := true, ack := true, datR := 1 },
    { idle with go := true, req := { idleRequest with adr := 2 } }, { idle with take := true, ack := true, datR := 1 },
    idle]

theorem not_transparent_rereads :
    let s := rereads.foldl cycle reset
    ¬ Transparent s ∧ s.performed.map Request.adr = [1, 1] ∧
      s.received = [⟨0, 0, 0x01000000⟩, ⟨1, 0, 0x01000000⟩] := by
  refine ⟨fun h => ?_, by decide, by decide⟩
  exact absurd h.performed (by decide)

end EndianSwap
end Hdmi2Usb
