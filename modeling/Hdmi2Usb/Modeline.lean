import Hdmi2Usb.CustomMode
import Hdmi2Usb.TimingCoherence
import Mathlib.Tactic.Ring
/-!
# Modeline — what the pipeline makes of a modeline

A modeline gives positions from the start of a line or a frame, `video_timing` gives offsets and widths, and the
outputs take positions again.  There and back should be the identity.  It is, but for the horizontal sync offset, which
`video_mode_custom` counts from the wrong end: both horizontal sync positions come out early by the blanking
(`shifted_videoModeCustom`).  The flags are right (`optionsLoop_eq`).
-/
namespace Hdmi2Usb
namespace Console

open Processor

variable {p : Platform} {env : Env}

/-! ## The flags -/

/-- The options of a modeline: the words behind its nine numbers. -/
def options (str : List Char) : List (List Char) := (words str).drop 9

/-- `EDID_DIGITAL` and the flags of the table that are on the line. -/
def flagsPresent (ws : List (List Char)) : Word :=
  timingModeFlags.foldl (fun flags f => if ws.any (sameIgnoringCase f.1.toList) then flags ||| f.2 else flags) edidDigital

def flagOf (w : List Char) : Word := ((timingModeFlags.find? (fun f => sameIgnoringCase f.1.toList w)).map (·.2)).getD 0#32

theorem getToken_of_words {str w : List Char} {ws : List (List Char)} (h : words str = w :: ws) :
    (getToken str).1 = w ∧ words (getToken str).2 = ws := by
  rw [getToken_fst, words_getToken_snd, h]
  exact ⟨rfl, rfl⟩

theorem length_getToken_snd_le (str : List Char) : (getToken str).2.length ≤ str.length - 1 := by
  have hgeneric : ∀ s : List Char, (getTokenGeneric s ' ').2.length ≤ s.length - 1 := by
    intro s
    by_cases hd : ' ' ∈ s
    · have := length_getTokenGeneric_lt hd
      omega
    · rw [getTokenGeneric, if_neg hd]
      exact Nat.zero_le _
  have hloop : ∀ (fuel : Nat) (s : List Char), (getTokenLoop fuel s).2.length ≤ s.length - 1 := by
    intro fuel
    induction fuel with
    | zero => exact hgeneric
    | succ fuel ih =>
      intro s
      unfold getTokenLoop
      have hs := hgeneric s
      simp only
      split
      · have := ih (getTokenGeneric s ' ').2
        omega
      · exact hs
  exact hloop _ _

theorem optionsLoop_words : ∀ (fuel : Nat) (str : List Char) (flags : Word), str.length ≤ fuel →
    optionsLoop fuel str flags = (words str).foldl (fun flags w => flags ||| flagOf w) flags
  | 0, str, flags, h => by
    rw [List.eq_nil_of_length_eq_zero (Nat.le_zero.1 h)]
    rfl
  | fuel + 1, str, flags, h => by
    have hlen := length_getToken_snd_le str
    have hrest := fun flags => optionsLoop_words fuel (getToken str).2 flags (by omega)
    unfold optionsLoop
    by_cases hs : str = []
    · rw [if_pos hs, hs]
      rfl
    · rw [if_neg hs]
      cases hw : words str with
      | nil =>
        have htoken : (getToken str).1 = [] := by rw [getToken_fst, hw]; rfl
        have hwords : words (getToken str).2 = [] := by rw [words_getToken_snd, hw]; rfl
        simp only [htoken, List.foldl_nil]
        split
        · rfl
        · have hnone : timingModeFlags.find? (fun f => sameIgnoringCase f.1.toList []) = none := by decide
          rw [hnone]
          rfl
      | cons w ws =>
        obtain ⟨htoken, hwords⟩ := getToken_of_words hw
        have hne : w ≠ [] := by
          have hmem : w ∈ words str := by rw [hw]; exact List.mem_cons_self
          simpa [words] using (List.mem_filter.1 hmem).2
        simp only [htoken, List.foldl_cons]
        rw [if_neg (fun hc => hne hc.1)]
        cases hf : timingModeFlags.find? (fun f => sameIgnoringCase f.1.toList w) with
        | some f =>
          have hflag : flagOf w = f.2 := by rw [flagOf, hf]; rfl
          rw [hflag]
          exact (hrest _).trans (by rw [hwords])
        | none =>
          have hflag : flagOf w = 0#32 := by rw [flagOf, hf]; rfl
          rw [hflag, BitVec.or_zero]
          simp only [if_pos hne]
          exact (hrest _).trans (by rw [hwords])

theorem getLsbD_foldl_or {α : Type*} (f : α → Word) (i : Nat) : ∀ (l : List α) (flags : Word),
    (l.foldl (fun flags a => flags ||| f a) flags).getLsbD i = (flags.getLsbD i || l.any fun a => (f a).getLsbD i)
  | [], flags => by simp
  | a :: l, flags => by
    rw [List.foldl_cons, getLsbD_foldl_or f i l, BitVec.getLsbD_or, List.any_cons, Bool.or_assoc]

/-- No word is two flags. -/
theorem timingModeFlags_inj {f g : String × Word} (hf : f ∈ timingModeFlags) (hg : g ∈ timingModeFlags) {w : List Char}
    (hfw : sameIgnoringCase f.1.toList w = true) (hgw : sameIgnoringCase g.1.toList w = true) : f = g := by
  have hsame : sameIgnoringCase f.1.toList g.1.toList = true := by
    unfold sameIgnoringCase at hfw hgw ⊢
    simp only [decide_eq_true_eq] at hfw hgw ⊢
    rw [hfw, hgw]
  have hall : ∀ f ∈ timingModeFlags, ∀ g ∈ timingModeFlags, sameIgnoringCase f.1.toList g.1.toList = true → f = g := by
    decide
  exact hall f hf g hg hsame

theorem getLsbD_flagOf (w : List Char) (i : Nat) : (flagOf w).getLsbD i = true ↔
    ∃ f ∈ timingModeFlags, sameIgnoringCase f.1.toList w = true ∧ f.2.getLsbD i = true := by
  unfold flagOf
  constructor
  · intro h
    cases hfind : timingModeFlags.find? (fun f => sameIgnoringCase f.1.toList w) with
    | none => simp [hfind] at h
    | some f =>
      rw [hfind] at h
      exact ⟨f, List.mem_of_find?_eq_some hfind, by simpa using List.find?_some hfind, h⟩
  · rintro ⟨f, hf, hsame, hbit⟩
    cases hfind : timingModeFlags.find? (fun f => sameIgnoringCase f.1.toList w) with
    | none => exact absurd hsame (by simpa using List.find?_eq_none.1 hfind f hf)
    | some g =>
      have hg : g = f := timingModeFlags_inj (List.mem_of_find?_eq_some hfind) hf (by simpa using List.find?_some hfind)
        hsame
      rw [hg]
      exact hbit

/-- **The flags of a modeline** are those that are on the line, however often, in whatever order and case. -/
theorem optionsLoop_eq (fuel : Nat) (str : List Char) (h : str.length ≤ fuel) :
    optionsLoop fuel str edidDigital = flagsPresent (words str) := by
  have hpresent : flagsPresent (words str) = timingModeFlags.foldl (fun flags f => flags |||
      (if (words str).any (sameIgnoringCase f.1.toList) then f.2 else 0#32)) edidDigital := by
    unfold flagsPresent
    congr 1
    funext flags f
    split
    · rfl
    · rw [BitVec.or_zero]
  rw [optionsLoop_words fuel str edidDigital h, hpresent]
  apply BitVec.eq_of_getLsbD_eq
  intro i hi
  rw [getLsbD_foldl_or, getLsbD_foldl_or]
  congr 1
  rw [Bool.eq_iff_iff, List.any_eq_true, List.any_eq_true]
  constructor
  · rintro ⟨w, hw, hbit⟩
    obtain ⟨f, hf, hsame, hbit⟩ := (getLsbD_flagOf w i).1 hbit
    refine ⟨f, hf, ?_⟩
    rw [if_pos (List.any_eq_true.2 ⟨w, hw, hsame⟩)]
    exact hbit
  · rintro ⟨f, hf, hbit⟩
    by_cases hany : (words str).any (sameIgnoringCase f.1.toList) = true
    · rw [if_pos hany] at hbit
      obtain ⟨w, hw, hsame⟩ := List.any_eq_true.1 hany
      exact ⟨w, hw, (getLsbD_flagOf w i).2 ⟨f, hf, hsame, hbit⟩⟩
    · rw [if_neg hany] at hbit
      simp at hbit

theorem parseModeline_modeFlags (str : List Char) :
    (parseModeline str).modeFlags = flagsPresent (options str) := by
  unfold parseModeline options
  simp only [nextNumber_eq]
  rw [optionsLoop_eq _ _ (Nat.le_refl _)]
  simp only [words_getToken_snd, ← List.drop_one, List.drop_drop]

/-! ## As written -/

/-- The timing has the positions of the modeline. -/
structure Built (m : Modeline) (t : VideoTiming) : Prop where
  width      : t.hActive = m.width
  hSyncStart : t.hActive + t.hSyncOffset = m.hSyncStart
  hSyncEnd   : t.hActive + t.hSyncOffset + t.hSyncWidth = m.hSyncEnd
  hTotal     : t.hActive + t.hBlanking = m.hTotal
  height     : t.vActive = m.height
  vSyncStart : t.vActive + t.vSyncOffset = m.vSyncStart
  vSyncEnd   : t.vActive + t.vSyncOffset + t.vSyncWidth = m.vSyncEnd
  vTotal     : t.vActive + t.vBlanking = m.vTotal

/-- The registers of an output have the positions of the modeline. -/
structure Programmed (m : Modeline) (r : Initiator) : Prop where
  width      : r.hres = m.width
  hSyncStart : r.hsyncStart = m.hSyncStart
  hSyncEnd   : r.hsyncEnd = m.hSyncEnd
  hTotal     : r.hscan = m.hTotal
  height     : r.vres = m.height
  vSyncStart : r.vsyncStart = m.vSyncStart
  vSyncEnd   : r.vsyncEnd = m.vSyncEnd
  vTotal     : r.vscan = m.vTotal

structure AsWritten (p : Platform) (str : List Char) (s : State) : Prop where
  built      : Built (parseModeline str) s.customMode
  programmed : ∀ k, p.hasOut k = true → Programmed (parseModeline str) (s.out k)
  flags      : s.customMode.flags = flagsPresent (options str)

/-- The modeline with both its horizontal sync positions early by its blanking. -/
def Modeline.shifted (m : Modeline) : Modeline :=
  { m with
    hSyncStart := m.hSyncStart - (m.hTotal - m.width)
    hSyncEnd   := m.hSyncEnd - (m.hTotal - m.width) }

theorem built_timing (m : Modeline) (old : VideoTiming) : Built m.shifted (m.timing old) := by
  constructor
  · rfl
  · show m.width + (m.hSyncStart - m.hTotal) = m.hSyncStart - (m.hTotal - m.width)
    ring
  · show m.width + (m.hSyncStart - m.hTotal) + (m.hSyncEnd - m.hSyncStart) = m.hSyncEnd - (m.hTotal - m.width)
    ring
  · exact add_sub_cancel _ _
  · rfl
  · exact add_sub_cancel _ _
  · show m.height + (m.vSyncStart - m.height) + (m.vSyncEnd - m.vSyncStart) = m.vSyncEnd
    ring
  · exact add_sub_cancel _ _

/-- What the outputs show of a timing is what the timing was built from. -/
theorem Built.programmed {m : Modeline} {t : VideoTiming} (h : Built m t) {r : Initiator} (hr : Shows t r) :
    Programmed m r :=
  ⟨hr.hres.trans h.width, hr.hsyncStart.trans h.hSyncStart, hr.hsyncEnd.trans h.hSyncEnd, hr.hscan.trans h.hTotal,
    hr.vres.trans h.height, hr.vsyncStart.trans h.vSyncStart, hr.vsyncEnd.trans h.vSyncEnd, hr.vscan.trans h.vTotal⟩

theorem flags_timing (m : Modeline) (old : VideoTiming) : (m.timing old).flags = m.modeFlags := rfl

theorem customMode_videoModeCustom (str : List Char) (s : State) :
    (videoModeCustom p env str s).customMode = (parseModeline str).timing s.customMode :=
  customMode_processorStart _ _

theorem shows_videoModeCustom (env : Env) (str : List Char) (s : State) {k : Fin 2} (hk : p.hasOut k = true) :
    Shows ((parseModeline str).timing s.customMode) ((videoModeCustom p env str s).out k) := by
  have hstarted : (videoModeCustom p env str s).started = (parseModeline str).timing s.customMode :=
    started_processorSetCustomMode _
  rw [← hstarted]
  exact (coherent_processorStart p env processorModeCustom _).out k hk

/-- **Everything but the horizontal sync is as written**, whatever the line: the timing and the registers are those of
the shifted modeline, and the flags are those on the line. -/
theorem shifted_videoModeCustom (env : Env) (str : List Char) (s : State) :
    Built (parseModeline str).shifted (videoModeCustom p env str s).customMode ∧
      (∀ k, p.hasOut k = true → Programmed (parseModeline str).shifted ((videoModeCustom p env str s).out k)) ∧
      (videoModeCustom p env str s).customMode.flags = flagsPresent (options str) := by
  have hbuilt := built_timing (parseModeline str) s.customMode
  rw [customMode_videoModeCustom]
  refine ⟨hbuilt, fun k hk => hbuilt.programmed (shows_videoModeCustom env str s hk), ?_⟩
  rw [flags_timing, parseModeline_modeFlags]

/-- **No modeline is programmed as written**: with its positions in order, the sync start comes out early by the
horizontal blanking, which is not zero. -/
theorem not_asWritten (str : List Char) (s : State) (h : (parseModeline str).Ordered) :
    ¬ AsWritten p str (videoModeCustom p env str s) := by
  intro hw
  have hstart := (shifted_videoModeCustom (p := p) env str s).1.hSyncStart.symm.trans hw.built.hSyncStart
  obtain ⟨⟨hdisp, hsync, htotal⟩, -⟩ := h
  generalize parseModeline str = m at *
  have hblank : m.hTotal - m.width = 0#32 := sub_eq_self.1 hstart
  have hne : m.hTotal = m.width := sub_eq_zero.1 hblank
  rw [hne] at htotal
  exact absurd (BitVec.lt_trans hdisp (BitVec.lt_trans hsync htotal)) (BitVec.lt_irrefl _)

def modeline75 : List Char := "31.5 640 656 720 840 480 481 484 500 -HSync -VSync".toList

theorem not_asWritten_modeline75 : ¬ AsWritten opsis modeline75 (videoModeCustom opsis default modeline75 default) :=
  not_asWritten modeline75 default (by unfold Modeline.Ordered; decide)

/-- The example in the comment of `video_mode_custom`: the sync start is programmed at 456, not at 656. -/
theorem early_hsyncStart_modeline75 : (parseModeline modeline75).Ordered ∧
    ((videoModeCustom opsis default modeline75 default).out 0).hsyncStart = 456 ∧
    ¬ AsWritten opsis modeline75 (videoModeCustom opsis default modeline75 default) := by
  have hstart := (shows_videoModeCustom (p := opsis) default modeline75 default (k := 0) rfl).hsyncStart
  have hvalue : ((parseModeline modeline75).timing (default : State).customMode).hActive +
      ((parseModeline modeline75).timing (default : State).customMode).hSyncOffset = 456 := by decide
  refine ⟨by unfold Modeline.Ordered; decide, hstart.trans hvalue, fun hw => ?_⟩
  have hwritten := (hw.programmed 0 rfl).hSyncStart
  rw [hstart, hvalue] at hwritten
  revert hwritten
  decide

end Console
end Hdmi2Usb
