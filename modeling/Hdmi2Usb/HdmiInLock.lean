import Hdmi2Usb.HdmiIn
import Hdmi2Usb.Runs
/-!
# HdmiInLock — when an HDMI input starts on its clock (`hdmi_in0.c`, `hdmi_inX_service`)

The service looks at the clock's lock only while the input is connected, through a filter that wants to have seen it
locked for a quarter of a second.  The filter's state is not reset when the input is unplugged or enabled again, so the
first look after that may find a filter that has already passed.  The phase is started only on a clock that has been
locked long enough since its reset was released exactly where no look does (`starts_stable_iff`).
-/
namespace Hdmi2Usb
namespace HdmiIn

open Runs (AllSteps AllStates)

/-- The input with the static variables of the filter; `lock_start_time` is the cycle in which it was armed. -/
structure Service where
  hdmi          : State
  lockStatus    : Nat
  lockStartTime : Nat

/-- What a call of the service finds: the hot plug line, the raw lock, and what `elapsed` answers where it is free to. -/
structure Poll where
  hpd     : Bool
  locked  : Bool
  elapsed : Bool
deriving DecidableEq

section

-- the input, and `CONFIG_CLOCK_FREQUENCY`
variable (x clockFrequency : Nat)

/-- `elapsed` with a period above 0: it is true only if the period is over. -/
def elapsed (armed period now : Nat) (answer : Bool) : Bool := answer && decide (armed + period ≤ now)

def clockingLockedFiltered (s : Service) (now : Nat) (p : Poll) : Bool × Service :=
  if p.locked then
    match s.lockStatus with
    | 0 => (false, { s with lockStartTime := now, lockStatus := 1 })
    | 1 => (false, if elapsed s.lockStartTime (clockFrequency / 4) now p.elapsed then { s with lockStatus := 2 } else s)
    | 2 => (true, s)
    | _ => (false, s)
  else (false, { s with lockStatus := 0 })

/-- A call of the service in cycle `now`, and whether it calls `hdmi_inX_phase_startup`. -/
def service (s : Service) (now : Nat) (p : Poll) : Bool × Service :=
  if s.hdmi.connected then
    if p.hpd = false then
      (false, { s with hdmi := { s.hdmi with connected := false, locked := false, clockingReset := true } })
    else
      let (filtered, s) := clockingLockedFiltered clockFrequency s now p
      if s.hdmi.locked then (false, if filtered then s else { s with hdmi := { s.hdmi with locked := false } })
      else if filtered then (true, { s with hdmi := { s.hdmi with locked := true } })
      else (false, s)
  else if p.hpd then (false, { s with hdmi := { s.hdmi with connected := true, clockingReset := false } })
  else (false, s)

/-! ## Runs -/

/-- A call, so many cycles after the one before. -/
inductive Event where
  | service (dt : Nat) (p : Poll)
  | enable (dt : Nat)

/-- The input in cycle `now`.  `since` is the last look that found the clock unlocked, release of its reset on connection
or `enable`, whichever was latest; `stale` tells that the filter's state is from before `since`. -/
structure Run where
  code  : Service
  now   : Nat
  since : Nat
  stale : Bool

/-- The service looks at the clock's lock. -/
def Run.polls (r : Run) (p : Poll) : Bool := r.code.hdmi.connected && p.hpd

/-- The service releases the reset of the clock. -/
def Run.releases (r : Run) (p : Poll) : Bool := !r.code.hdmi.connected && p.hpd

def Run.step (r : Run) : Event → Run
  | .service dt p =>
    { code  := (service clockFrequency r.code (r.now + dt) p).2
      now   := r.now + dt
      since := if r.polls p && !p.locked || r.releases p then r.now + dt else r.since
      stale := if r.polls p && !p.locked then false else if r.releases p then r.code.lockStatus ≠ 0 else r.stale }
  | .enable dt =>
    { code  := { r.code with hdmi := enable x r.code.hdmi }
      now   := r.now + dt
      since := r.now + dt
      stale := r.code.lockStatus ≠ 0 }

/-- After power-up. -/
def Run.boot (hdmi : State) : Run := ⟨⟨{ hdmi with connected := false, locked := false }, 0, 0⟩, 0, 0, false⟩

/-- The phase is started only when every look has seen the clock locked for a quarter of a second since `since`. -/
def StartsStable (r : Run) : Event → Prop
  | .service dt p => (service clockFrequency r.code (r.now + dt) p).1 = true → r.since + clockFrequency / 4 ≤ r.now + dt
  | .enable _     => True

/-- No look finds the clock locked, sooner than that, with a filter that has passed on what it saw before `since`. -/
def Fresh (r : Run) : Event → Prop
  | .service dt p =>
    r.polls p = true → p.locked = true → r.stale = true → r.code.lockStatus = 2 →
      r.since + clockFrequency / 4 ≤ r.now + dt
  | .enable _     => True

instance decidableStartsStable (r : Run) : ∀ e, Decidable (StartsStable clockFrequency r e)
  | .service _ _ => inferInstanceAs (Decidable (_ → _))
  | .enable _    => isTrue trivial

instance decidableFresh (r : Run) : ∀ e, Decidable (Fresh clockFrequency r e)
  | .service _ _ => inferInstanceAs (Decidable (_ → _ → _ → _ → _))
  | .enable _    => isTrue trivial

end

/-! ## What a call does -/

section

variable {x clockFrequency : Nat} {s : Service} {now : Nat} {p : Poll}

theorem hdmi_filtered (clockFrequency : Nat) (s : Service) (now : Nat) (p : Poll) :
    (clockingLockedFiltered clockFrequency s now p).2.hdmi = s.hdmi := by
  unfold clockingLockedFiltered
  split
  next =>
    split
    next => rfl
    next => dsimp only; split <;> rfl
    next => rfl
    next => rfl
  next => rfl

/-- The filter passes only a clock that it sees locked and has waited for. -/
theorem of_filtered (h : (clockingLockedFiltered clockFrequency s now p).1 = true) :
    p.locked = true ∧ s.lockStatus = 2 := by
  unfold clockingLockedFiltered at h
  split at h
  next hraw =>
    split at h
    next => cases h
    next => cases h
    next hstatus => exact ⟨hraw, hstatus⟩
    next => cases h
  next => cases h

/-- The filter's variables behind a look that sees the clock locked. -/
theorem status_filtered (clockFrequency : Nat) (s : Service) (now : Nat) (hraw : p.locked = true) :
    let s' := (clockingLockedFiltered clockFrequency s now p).2
    (s'.lockStatus = 1 → s'.lockStartTime = now ∨ (s.lockStatus = 1 ∧ s'.lockStartTime = s.lockStartTime)) ∧
      (s'.lockStatus = 2 → s.lockStatus = 2 ∨ (s.lockStatus = 1 ∧ s.lockStartTime + clockFrequency / 4 ≤ now)) := by
  unfold clockingLockedFiltered
  rw [if_pos hraw]
  split
  next => simp
  next hstatus =>
    cases helapsed : elapsed s.lockStartTime (clockFrequency / 4) now p.elapsed with
    | true =>
      simp only [elapsed, Bool.and_eq_true, decide_eq_true_eq] at helapsed
      simp [hstatus, helapsed.2]
    | false => simp [hstatus]
  next hstatus => simp [hstatus]
  next h0 h1 h2 => exact ⟨fun h => absurd h h1, fun h => absurd h h2⟩

theorem status_of_unlocked (hraw : p.locked = false) :
    (clockingLockedFiltered clockFrequency s now p).2.lockStatus = 0 := by
  rw [clockingLockedFiltered, hraw]
  rfl

/-- What a call of the service does, and whether it starts the phase. -/
inductive Call (clockFrequency : Nat) (s : Service) (now : Nat) (p : Poll) : Bool × Service → Prop
  | unplug (hconnected : s.hdmi.connected = true) (hhpd : p.hpd = false) : Call clockFrequency s now p
      (false, { s with hdmi := { s.hdmi with connected := false, locked := false, clockingReset := true } })
  | lose (s' : Service) (hlook : s.hdmi.connected = true ∧ p.hpd = true) (hlocked : s.hdmi.locked = true)
      (hfiltered : clockingLockedFiltered clockFrequency s now p = (false, s')) : Call clockFrequency s now p
      (false, { s' with hdmi := { s'.hdmi with locked := false } })
  | start (s' : Service) (hlook : s.hdmi.connected = true ∧ p.hpd = true) (hlocked : s.hdmi.locked = false)
      (hfiltered : clockingLockedFiltered clockFrequency s now p = (true, s')) : Call clockFrequency s now p
      (true, { s' with hdmi := { s'.hdmi with locked := true } })
  | look (s' : Service) (hlook : s.hdmi.connected = true ∧ p.hpd = true)
      (hfiltered : clockingLockedFiltered clockFrequency s now p = (s.hdmi.locked, s')) : Call clockFrequency s now p
      (false, s')
  | plug (hconnected : s.hdmi.connected = false) (hhpd : p.hpd = true) : Call clockFrequency s now p
      (false, { s with hdmi := { s.hdmi with connected := true, clockingReset := false } })
  | idle (hconnected : s.hdmi.connected = false) (hhpd : p.hpd = false) : Call clockFrequency s now p (false, s)

theorem call_service (clockFrequency : Nat) (s : Service) (now : Nat) (p : Poll) :
    Call clockFrequency s now p (service clockFrequency s now p) := by
  cases hconnected : s.hdmi.connected with
  | false =>
    cases hhpd : p.hpd with
    | false =>
      have hservice : service clockFrequency s now p = (false, s) := by simp [service, hconnected, hhpd]
      exact hservice ▸ .idle hconnected hhpd
    | true =>
      have hservice : service clockFrequency s now p =
          (false, { s with hdmi := { s.hdmi with connected := true, clockingReset := false } }) := by
        simp [service, hconnected, hhpd]
      exact hservice ▸ .plug hconnected hhpd
  | true =>
    cases hhpd : p.hpd with
    | false =>
      have hservice : service clockFrequency s now p =
          (false, { s with hdmi := { s.hdmi with connected := false, locked := false, clockingReset := true } }) := by
        simp [service, hconnected, hhpd]
      exact hservice ▸ .unplug hconnected hhpd
    | true =>
      have hhdmi := hdmi_filtered clockFrequency s now p
      cases hf : clockingLockedFiltered clockFrequency s now p with
      | mk filtered s' =>
        rw [hf] at hhdmi
        dsimp only at hhdmi
        cases hlocked : s.hdmi.locked with
        | false =>
          cases filtered with
          | false =>
            have hservice : service clockFrequency s now p = (false, s') := by
              simp [service, hconnected, hhpd, hf, hhdmi, hlocked]
            exact hservice ▸ .look s' ⟨hconnected, hhpd⟩ (hlocked ▸ hf)
          | true =>
            have hservice : service clockFrequency s now p =
                (true, { s' with hdmi := { s'.hdmi with locked := true } }) := by
              simp [service, hconnected, hhpd, hf, hhdmi, hlocked]
            exact hservice ▸ .start s' ⟨hconnected, hhpd⟩ hlocked hf
        | true =>
          cases filtered with
          | false =>
            have hservice : service clockFrequency s now p =
                (false, { s' with hdmi := { s'.hdmi with locked := false } }) := by
              simp [service, hconnected, hhpd, hf, hhdmi, hlocked]
            exact hservice ▸ .lose s' ⟨hconnected, hhpd⟩ hlocked hf
          | true =>
            have hservice : service clockFrequency s now p = (false, s') := by
              simp [service, hconnected, hhpd, hf, hhdmi, hlocked]
            exact hservice ▸ .look s' ⟨hconnected, hhpd⟩ (hlocked ▸ hf)

/-- Where the service looks, the filter's variables are what the look leaves. -/
theorem service_of_look (clockFrequency : Nat) (now : Nat) (hconnected : s.hdmi.connected = true)
    (hhpd : p.hpd = true) :
    let s' := (service clockFrequency s now p).2
    let f := (clockingLockedFiltered clockFrequency s now p).2
    s'.lockStatus = f.lockStatus ∧ s'.lockStartTime = f.lockStartTime := by
  have hcall := call_service clockFrequency s now p
  generalize service clockFrequency s now p = r at hcall
  cases hcall with
  | unplug _ hhpd' =>
    rw [hhpd] at hhpd'
    cases hhpd'
  | lose s' _ _ hf => exact hf ▸ ⟨rfl, rfl⟩
  | start s' _ _ hf => exact hf ▸ ⟨rfl, rfl⟩
  | look s' _ hf => exact hf ▸ ⟨rfl, rfl⟩
  | plug hconnected' =>
    rw [hconnected] at hconnected'
    cases hconnected'
  | idle hconnected' =>
    rw [hconnected] at hconnected'
    cases hconnected'

/-- And elsewhere they stay. -/
theorem service_of_no_look (clockFrequency : Nat) (now : Nat) (h : (s.hdmi.connected && p.hpd) = false) :
    let s' := (service clockFrequency s now p).2
    s'.lockStatus = s.lockStatus ∧ s'.lockStartTime = s.lockStartTime := by
  have hno : ¬(s.hdmi.connected = true ∧ p.hpd = true) := by
    rw [← Bool.and_eq_true, h]
    exact Bool.false_ne_true
  have hcall := call_service clockFrequency s now p
  generalize service clockFrequency s now p = r at hcall
  cases hcall with
  | unplug => exact ⟨rfl, rfl⟩
  | lose s' hlook => exact absurd hlook hno
  | start s' hlook => exact absurd hlook hno
  | look s' hlook => exact absurd hlook hno
  | plug => exact ⟨rfl, rfl⟩
  | idle => exact ⟨rfl, rfl⟩

/-- **The phase is started** only by a look that finds the filter passed. -/
theorem of_service (h : (service clockFrequency s now p).1 = true) :
    (s.hdmi.connected = true ∧ p.hpd = true) ∧ p.locked = true ∧ s.lockStatus = 2 := by
  have hcall := call_service clockFrequency s now p
  generalize service clockFrequency s now p = r at h hcall
  cases hcall with
  | start s' hlook _ hf =>
    have hfiltered : (clockingLockedFiltered clockFrequency s now p).1 = true := by rw [hf]
    exact ⟨hlook, of_filtered hfiltered⟩
  | unplug => cases h
  | lose => cases h
  | look => cases h
  | plug => cases h
  | idle => cases h

/-- And each such look starts it, if the input is not locked yet. -/
theorem service_starts (hlook : s.hdmi.connected = true ∧ p.hpd = true) (hraw : p.locked = true)
    (hstatus : s.lockStatus = 2) (hlocked : s.hdmi.locked = false) :
    (service clockFrequency s now p).1 = true := by
  have hfiltered : clockingLockedFiltered clockFrequency s now p = (true, s) := by
    simp [clockingLockedFiltered, hraw, hstatus]
  simp [service, hlook, hfiltered, hlocked]

/-- Only a start locks the input. -/
theorem of_locked_service (h : (service clockFrequency s now p).2.hdmi.locked = true) :
    s.hdmi.locked = true ∨ (service clockFrequency s now p).1 = true := by
  have hhdmi := hdmi_filtered clockFrequency s now p
  have hcall := call_service clockFrequency s now p
  generalize service clockFrequency s now p = r at h hcall
  cases hcall with
  | unplug => cases h
  | lose => cases h
  | start => exact .inr rfl
  | look s' _ hf =>
    rw [hf] at hhdmi
    exact .inl (hhdmi ▸ h)
  | plug => exact .inl h
  | idle => exact .inl h

theorem locked_service (h : s.hdmi.locked = true → s.hdmi.connected = true) :
    (service clockFrequency s now p).2.hdmi.locked = true →
      (service clockFrequency s now p).2.hdmi.connected = true := by
  have hhdmi := hdmi_filtered clockFrequency s now p
  have hcall := call_service clockFrequency s now p
  generalize service clockFrequency s now p = r at hcall
  cases hcall with
  | unplug => exact fun hl => absurd hl Bool.false_ne_true
  | lose => exact fun hl => absurd hl Bool.false_ne_true
  | start s' hlook _ hf =>
    rw [hf] at hhdmi
    exact fun _ => hhdmi ▸ hlook.1
  | look s' hlook hf =>
    rw [hf] at hhdmi
    exact fun _ => hhdmi ▸ hlook.1
  | plug => exact fun _ => rfl
  | idle => exact h

end

/-! ## The quarter of a second -/

section

variable {x clockFrequency : Nat} {r : Run}

/-- What a filter that is not stale has waited for. -/
structure Waited (clockFrequency : Nat) (r : Run) : Prop where
  since_le : r.since ≤ r.now
  armed    : r.stale = false → r.code.lockStatus = 1 → r.since ≤ r.code.lockStartTime
  passed   : r.stale = false → r.code.lockStatus = 2 → r.since + clockFrequency / 4 ≤ r.now

/-- Behind a release of the reset, or an `enable`, a filter that is not stale has not begun. -/
theorem waited_of_restart {r : Run} (hsince : r.since = r.now) (hstale : r.stale = decide (r.code.lockStatus ≠ 0)) :
    Waited clockFrequency r := by
  have hstatus : r.stale = false → r.code.lockStatus = 0 := fun h => by
    rw [h] at hstale
    simpa using hstale.symm
  refine ⟨hsince.le, fun h h1 => ?_, fun h h2 => ?_⟩
  · rw [hstatus h] at h1
    cases h1
  · rw [hstatus h] at h2
    cases h2

/-- A look that finds the clock unlocked. -/
theorem Waited.unlocked {dt : Nat} {p : Poll} (hpoll : r.polls p = true) (hraw : p.locked = false) :
    Waited clockFrequency (r.step x clockFrequency (.service dt p)) := by
  have hlook := hpoll
  rw [Run.polls, Bool.and_eq_true] at hlook
  have hstatus : (r.step x clockFrequency (.service dt p)).code.lockStatus = 0 :=
    (service_of_look _ _ hlook.1 hlook.2).1.trans (status_of_unlocked hraw)
  refine ⟨?_, fun _ h1 => ?_, fun _ h2 => ?_⟩
  · simp [Run.step, hpoll, hraw]
  · rw [hstatus] at h1
    cases h1
  · rw [hstatus] at h2
    cases h2

/-- A look that finds the clock locked. -/
theorem Waited.locked (h : Waited clockFrequency r) {dt : Nat} {p : Poll} (hpoll : r.polls p = true)
    (hraw : p.locked = true) : Waited clockFrequency (r.step x clockFrequency (.service dt p)) := by
  have hlook := hpoll
  rw [Run.polls, Bool.and_eq_true] at hlook
  have hrelease : r.releases p = false := by rw [Run.releases, hlook.1, Bool.not_true, Bool.false_and]
  have hsince : (r.step x clockFrequency (.service dt p)).since = r.since := by simp [Run.step, hraw, hrelease]
  have hstale : (r.step x clockFrequency (.service dt p)).stale = r.stale := by simp [Run.step, hraw, hrelease]
  have hnow : (r.step x clockFrequency (.service dt p)).now = r.now + dt := rfl
  have hle := h.since_le
  obtain ⟨hstatus, htime⟩ := service_of_look clockFrequency (r.now + dt) hlook.1 hlook.2
  obtain ⟨hone, htwo⟩ := status_filtered clockFrequency r.code (r.now + dt) hraw
  refine ⟨by omega, fun hs h1 => ?_, fun hs h2 => ?_⟩
  · rw [hstale] at hs
    rw [hsince]
    refine le_of_le_of_eq ?_ htime.symm
    rcases hone (hstatus.symm.trans h1) with harmed | ⟨hbefore, hsame⟩
    · omega
    · have := h.armed hs hbefore
      omega
  · rw [hstale] at hs
    rw [hsince]
    rcases htwo (hstatus.symm.trans h2) with hbefore | ⟨hbefore, hover⟩
    · have := h.passed hs hbefore
      omega
    · have := h.armed hs hbefore
      omega

/-- The service connects. -/
theorem Waited.release {dt : Nat} {p : Poll} (hrelease : r.releases p = true) :
    Waited clockFrequency (r.step x clockFrequency (.service dt p)) := by
  have hpoll : r.polls p = false := by
    rw [Run.releases, Bool.and_eq_true, Bool.not_eq_true'] at hrelease
    rw [Run.polls, hrelease.1, Bool.false_and]
  have hstatus : (r.step x clockFrequency (.service dt p)).code.lockStatus = r.code.lockStatus :=
    (service_of_no_look _ _ hpoll).1
  refine waited_of_restart ?_ ?_
  · simp [Run.step, hrelease]
  · rw [hstatus]
    simp [Run.step, hpoll, hrelease]

/-- It does nothing to the clock. -/
theorem Waited.idle (h : Waited clockFrequency r) {dt : Nat} {p : Poll} (hpoll : r.polls p = false)
    (hrelease : r.releases p = false) : Waited clockFrequency (r.step x clockFrequency (.service dt p)) := by
  have hsince : (r.step x clockFrequency (.service dt p)).since = r.since := by simp [Run.step, hpoll, hrelease]
  have hstale : (r.step x clockFrequency (.service dt p)).stale = r.stale := by simp [Run.step, hpoll, hrelease]
  have hnow : (r.step x clockFrequency (.service dt p)).now = r.now + dt := rfl
  obtain ⟨hstatus, htime⟩ := service_of_no_look clockFrequency (r.now + dt) hpoll
  have hle := h.since_le
  refine ⟨by omega, fun hs h1 => ?_, fun hs h2 => ?_⟩
  · rw [hsince]
    exact (h.armed (hstale.symm.trans hs) (hstatus.symm.trans h1)).trans_eq htime.symm
  · have := h.passed (hstale.symm.trans hs) (hstatus.symm.trans h2)
    omega

theorem Waited.step (h : Waited clockFrequency r) : ∀ e, Waited clockFrequency (r.step x clockFrequency e)
  | .enable dt => waited_of_restart rfl rfl
  | .service dt p => by
    cases hpoll : r.polls p with
    | true =>
      cases hraw : p.locked with
      | true => exact h.locked hpoll hraw
      | false => exact .unlocked hpoll hraw
    | false =>
      cases hrelease : r.releases p with
      | true => exact .release hrelease
      | false => exact h.idle hpoll hrelease

/-- The invariant of the runs: an input that is locked is connected, and one that locked on a stale filter has been
locked long enough. -/
structure Settled (clockFrequency : Nat) (r : Run) : Prop where
  waited    : Waited clockFrequency r
  connected : r.code.hdmi.locked = true → r.code.hdmi.connected = true
  started   : r.stale = true → r.code.hdmi.locked = true → r.since + clockFrequency / 4 ≤ r.now

theorem settled_boot (hdmi : State) : Settled clockFrequency (.boot hdmi) :=
  ⟨waited_of_restart rfl rfl, fun h => absurd h Bool.false_ne_true, fun h => absurd h Bool.false_ne_true⟩

theorem connected_step (h : r.code.hdmi.locked = true → r.code.hdmi.connected = true) (e : Event) :
    (r.step x clockFrequency e).code.hdmi.locked = true → (r.step x clockFrequency e).code.hdmi.connected = true := by
  cases e with
  | service dt p => exact locked_service h
  | enable dt => exact fun h => absurd h Bool.false_ne_true

/-- What a step starts on is exactly what its look finds. -/
theorem Settled.startsStable_iff (h : Settled clockFrequency r) (e : Event) :
    StartsStable clockFrequency r e ↔ Fresh clockFrequency r e := by
  cases e with
  | enable dt => exact Iff.rfl
  | service dt p =>
    constructor
    · intro hstable hpoll hraw hstale hstatus
      have hlook := hpoll
      rw [Run.polls, Bool.and_eq_true] at hlook
      cases hlocked : r.code.hdmi.locked with
      | true =>
        have := h.started hstale hlocked
        omega
      | false => exact hstable (service_starts hlook hraw hstatus hlocked)
    · intro hfresh hstart
      obtain ⟨⟨hconnected, hhpd⟩, hraw, hstatus⟩ := of_service hstart
      cases hstale : r.stale with
      | true => exact hfresh (by rw [Run.polls, hconnected, hhpd]; rfl) hraw hstale hstatus
      | false =>
        have := h.waited.passed hstale hstatus
        omega

/-- Behind a step that starts on nothing else, an input locked on a stale filter has been locked long enough. -/
theorem Settled.step (h : Settled clockFrequency r) {e : Event} (hstable : StartsStable clockFrequency r e) :
    Settled clockFrequency (r.step x clockFrequency e) := by
  refine ⟨h.waited.step e, connected_step h.connected e, ?_⟩
  cases e with
  | enable dt => exact fun _ h => absurd h Bool.false_ne_true
  | service dt p =>
    intro hstale hlocked
    have hbefore := of_locked_service hlocked
    have hunlocked : (r.polls p && !p.locked) = false := by
      by_contra hlook
      simp [Run.step, Bool.eq_true_of_not_eq_false hlook] at hstale
    -- what is released was not connected, so it neither was locked nor starts
    have hrelease : r.releases p = false := by
      by_contra hrelease
      have hconnected : r.code.hdmi.connected = true := by
        rcases hbefore with hlocked | hstart
        · exact h.connected hlocked
        · exact (of_service hstart).1.1
      simp [Run.releases, hconnected] at hrelease
    have hsince : (r.step x clockFrequency (.service dt p)).since = r.since := by simp [Run.step, hunlocked, hrelease]
    have hnow : (r.step x clockFrequency (.service dt p)).now = r.now + dt := rfl
    rw [hsince, hnow]
    rcases hbefore with hlocked | hstart
    · have hstale' : (r.step x clockFrequency (.service dt p)).stale = r.stale := by
        simp [Run.step, hunlocked, hrelease]
      have := h.started (hstale'.symm.trans hstale) hlocked
      omega
    · exact hstable hstart

end

/-- **HDMI input start**: a locked input is always connected; and every start of the phase is on a clock that was locked
for a quarter of a second since `since` exactly when no look finds a filter that had passed before it. -/
theorem starts_stable_iff (x clockFrequency : Nat) (hdmi : State) (es : List Event) :
    AllStates (Run.step x clockFrequency) (fun r => r.code.hdmi.locked = true → r.code.hdmi.connected = true)
        (.boot hdmi) es ∧
      (AllSteps (Run.step x clockFrequency) (StartsStable clockFrequency) (.boot hdmi) es ↔
        AllSteps (Run.step x clockFrequency) (Fresh clockFrequency) (.boot hdmi) es) := by
  refine ⟨?_, ?_⟩
  · refine (Runs.allStates_iff_steps _ es _).2 ⟨fun h => absurd h Bool.false_ne_true, ?_⟩
    exact Runs.allSteps_of_inv (fun _ e h => connected_step h e) (fun _ e h => connected_step h e) es
      (fun h => absurd h Bool.false_ne_true)
  · refine Runs.allSteps_congr (R := fun r a => r = a ∧ Settled clockFrequency r) ?_ ?_ es ⟨rfl, settled_boot hdmi⟩
    · rintro r _ e ⟨rfl, h⟩
      exact h.startsStable_iff e
    · rintro r _ e ⟨rfl, h⟩ hfresh
      exact ⟨rfl, h.step ((h.startsStable_iff e).2 hfresh)⟩

/-- The input is unplugged with its filter passed; plugged in again, its first look starts the phase. -/
theorem not_startsStable_replug :
    let poll (dt : Nat) (hpd : Bool) : Event := .service dt ⟨hpd, true, true⟩
    ¬ AllSteps (Run.step 0 100000000) (StartsStable 100000000) (.boot default)
      [poll 1 true, poll 1 true, poll 25000000 true, poll 1 true, poll 1 false, poll 1 true, poll 1 true] := by
  decide

end HdmiIn
end Hdmi2Usb
