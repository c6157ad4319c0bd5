import Hdmi2Usb.ClockSearch
import Mathlib.Tactic.Linarith
/-!
# Mmcm — the ratio in the registers of the Artix-7's clock generator

`fb_clkgen_write` splits a multiplier or a divider into a high count and a low count of six bits each.  A count of 64
does not fit six bits, so a ratio of 127 or 128 spills; the search of `fb_get_clock_md` tries ratios up to 128.
-/
namespace Hdmi2Usb
namespace Processor

variable {p : Platform}

/-! ## What a word means -/

/-- The high count, in bits 11 to 6. -/
def highCount (w : Word) : Nat := ((w >>> 6) &&& 0x3f).toNat

/-- The low count, in bits 5 to 0. -/
def lowCount (w : Word) : Nat := (w &&& 0x3f).toNat

/-- The bits above the counts. -/
def controlBits (w : Word) : Nat := (w >>> 12).toNat

def multiplier (w : Word) : Nat := highCount w + lowCount w

/-- Bit 12 of the divider's register makes it divide by one. -/
def divider (w : Word) : Nat := if w.getLsbD 12 then 1 else highCount w + lowCount w

/-- A word has the two counts of `n` in their fields, and nothing but `control` above them. -/
structure Counts (w : Word) (n control : Nat) : Prop where
  high    : highCount w = n / 2
  low     : lowCount w = n - n / 2
  control : controlBits w = control

/-- Registers 0x14 and 0x16 hold a multiplier `m` and a divider `d`, and neither count has spilled. -/
structure Programmed (clkgen : Nat → Word) (m d : Nat) : Prop where
  mult       : multiplier (clkgen 0x14) = m
  multCounts : Counts (clkgen 0x14) m 1
  div        : divider (clkgen 0x16) = d
  divCounts  : d ≠ 1 → Counts (clkgen 0x16) d 0
  divByOne   : d = 1 → controlBits (clkgen 0x16) = 1

instance (w : Word) (n control : Nat) : Decidable (Counts w n control) :=
  decidable_of_iff (highCount w = n / 2 ∧ lowCount w = n - n / 2 ∧ controlBits w = control)
    ⟨fun ⟨h, l, c⟩ => ⟨h, l, c⟩, fun ⟨h, l, c⟩ => ⟨h, l, c⟩⟩

/-! ## What is written -/

/-- The word for the multiplier. -/
def multWord (m : Word) : Word :=
  if m % 2 ≠ 0 then 0x1000 ||| ((m / 2) <<< 6) ||| (m / 2 + 1) else 0x1000 ||| ((m / 2) <<< 6) ||| m / 2

/-- The word for the divider. -/
def divWord (d : Word) : Word :=
  if d = 1 then 0x1000 else if d % 2 ≠ 0 then ((d / 2) <<< 6) ||| (d / 2 + 1) else ((d / 2) <<< 6) ||| d / 2

theorem fbClkgenWriteMmcm_mult (clkgen : Nat → Word) (m d : Word) :
    fbClkgenWriteMmcm clkgen m d 0x14 = multWord m := by
  simp [fbClkgenWriteMmcm, multWord]

theorem fbClkgenWriteMmcm_div (clkgen : Nat → Word) (m d : Word) :
    fbClkgenWriteMmcm clkgen m d 0x16 = divWord d := by
  simp [fbClkgenWriteMmcm, divWord]

theorem multWord_spec : ∀ m : Fin 129, 2 ≤ m.val →
    ((multiplier (multWord (BitVec.ofNat 32 m)) = m ∧ Counts (multWord (BitVec.ofNat 32 m)) m 1) ↔ m.val ≤ 126) := by
  decide

theorem divWord_spec : ∀ d : Fin 129, 1 ≤ d.val →
    ((divider (divWord (BitVec.ofNat 32 d)) = d ∧ (d.val ≠ 1 → Counts (divWord (BitVec.ofNat 32 d)) d 0) ∧
      (d.val = 1 → controlBits (divWord (BitVec.ofNat 32 d)) = 1)) ↔ d.val ≤ 126) := by
  decide

/-- The registers hold what they should exactly when no count of the pair is 64. -/
theorem programmed_fbClkgenWriteMmcm (clkgen : Nat → Word) {md : ℕ × ℕ} (h : md ∈ Clocking.mmcm.pairs) :
    Programmed (fbClkgenWriteMmcm clkgen (BitVec.ofNat 32 md.1) (BitVec.ofNat 32 md.2)) md.1 md.2 ↔
      md.1 ≤ 126 ∧ md.2 ≤ 126 := by
  obtain ⟨⟨hm2, hm⟩, hd1, hd⟩ := Clocking.mem_pairs.1 h
  have hmult := multWord_spec ⟨md.1, Nat.lt_succ_of_le hm⟩ hm2
  have hdiv := divWord_spec ⟨md.2, Nat.lt_succ_of_le hd⟩ hd1
  rw [← hmult, ← hdiv]
  constructor
  · rintro ⟨h1, h2, h3, h4, h5⟩
    rw [fbClkgenWriteMmcm_mult] at h1 h2
    rw [fbClkgenWriteMmcm_div] at h3 h4 h5
    exact ⟨⟨h1, h2⟩, h3, h4, h5⟩
  · rintro ⟨⟨h1, h2⟩, h3, h4, h5⟩
    refine ⟨?_, ?_, ?_, ?_, ?_⟩
    · rw [fbClkgenWriteMmcm_mult]
      exact h1
    · rw [fbClkgenWriteMmcm_mult]
      exact h2
    · rw [fbClkgenWriteMmcm_div]
      exact h3
    · rw [fbClkgenWriteMmcm_div]
      exact h4
    · rw [fbClkgenWriteMmcm_div]
      exact h5

/-! ## Which pair is found -/

/-- `List.argmin` finds the first of the smallest, in whatever sense the list is ordered. -/
theorem argmin_first {α : Type*} [DecidableEq α] {R : α → α → Prop} {f : α → ℚ} {l : List α} (hl : l.Pairwise R)
    {a b : α} (ha : a ∈ l.argmin f) (hb : b ∈ l) (h : f b ≤ f a) : a = b ∨ R a b := by
  obtain ⟨hmem, -, hfirst⟩ := List.mem_argmin_iff.1 ha
  by_cases heq : a = b
  · exact .inl heq
  · have hidx : l.idxOf a < l.idxOf b :=
      lt_of_le_of_ne (hfirst b hb h) (fun h => heq ((List.idxOf_inj hmem).1 h))
    have hR := List.pairwise_iff_getElem.1 hl _ _ (List.idxOf_lt_length_of_mem hmem)
      (List.idxOf_lt_length_of_mem hb) hidx
    rw [List.getElem_idxOf, List.getElem_idxOf] at hR
    exact .inr hR

/-- Pairs are tried by divider, and for one divider by multiplier. -/
theorem pairwise_pairs (c : Clocking) :
    c.pairs.Pairwise fun a b => a.2 < b.2 ∨ (a.2 = b.2 ∧ a.1 < b.1) := by
  unfold Clocking.pairs
  rw [List.pairwise_flatMap]
  constructor
  · intro d _
    rw [List.pairwise_map]
    refine (List.pairwise_lt_range' 1).imp ?_
    intro a b hab
    exact .inr ⟨rfl, hab⟩
  · refine (List.pairwise_lt_range' 1).imp ?_
    intro a b hab x hx y hy
    obtain ⟨_, _, rfl⟩ := List.mem_map.1 hx
    obtain ⟨_, _, rfl⟩ := List.mem_map.1 hy
    exact .inl hab

/-- A point between two that are equally close is closer. -/
theorem closer_between {x y z t : ℚ} (hxy : x < y) (hyz : y < z) (h : |x - t| = |z - t|) : |y - t| < |x - t| := by
  have hmid : t = (x + z) / 2 := by
    cases abs_eq_abs.1 h with
    | inl h => linarith
    | inr h => linarith
  have hx : |x - t| = (z - x) / 2 := by
    rw [abs_of_neg (by linarith)]
    linarith
  rw [hx, abs_lt]
  constructor <;> linarith

/-- Some pair without a count of 64 is as close as any. -/
def CloseWithin126 (pixelClock : Word) : Prop :=
  ∃ m d : ℕ, (2 ≤ m ∧ m ≤ 126) ∧ (1 ≤ d ∧ d ≤ 126) ∧ ∀ m' d' : ℕ, 2 ≤ m' ∧ m' ≤ 128 → 1 ≤ d' ∧ d' ≤ 128 →
    |(m : ℚ) / d - pixelClock.toNat / 1000| ≤ |(m' : ℚ) / d' - pixelClock.toNat / 1000|

theorem closeWithin126_iff {pixelClock : Word} {md : ℕ × ℕ}
    (hmd : md ∈ Clocking.mmcm.pairs.argmin (Clocking.mmcm.distance pixelClock.toNat)) :
    CloseWithin126 pixelClock ↔ md.1 ≤ 126 ∧ md.2 ≤ 126 := by
  obtain ⟨hm, hd⟩ := Clocking.mem_pairs.1 (List.argmin_mem hmd)
  constructor
  · rintro ⟨m, d, hm', hd', hle⟩
    have hpair : (m, d) ∈ Clocking.mmcm.pairs :=
      Clocking.mem_pairs.2 ⟨⟨hm'.1, hm'.2.trans (by decide)⟩, hd'.1, hd'.2.trans (by decide)⟩
    have hclose : Clocking.mmcm.distance pixelClock.toNat (m, d) ≤ Clocking.mmcm.distance pixelClock.toNat md :=
      hle md.1 md.2 hm hd
    have hclosest : Clocking.mmcm.distance pixelClock.toNat md ≤ Clocking.mmcm.distance pixelClock.toNat (m, d) :=
      List.le_of_mem_argmin hpair hmd
    have hsame : |(m : ℚ) / d - pixelClock.toNat / 1000| = |(md.1 : ℚ) / md.2 - pixelClock.toNat / 1000| :=
      le_antisymm hclose hclosest
    obtain rfl | h | h := argmin_first (pairwise_pairs .mmcm) hmd hpair hclose
    · exact ⟨hm'.2, hd'.2⟩
    · -- a smaller divider
      refine ⟨?_, h.le.trans hd'.2⟩
      -- were it 127 or 128, then 126 over the same divider would be closer
      by_contra hbig
      have hd0 : (0 : ℚ) < md.2 := by exact_mod_cast hd.1
      have hxy : (m : ℚ) / d < 126 / md.2 := by
        have hm126 : (m : ℚ) ≤ 126 := by exact_mod_cast hm'.2
        have hlt : (md.2 : ℚ) < d := by exact_mod_cast h
        calc (m : ℚ) / d ≤ 126 / d := by gcongr
          _ < 126 / md.2 := by gcongr
      have hyz : (126 : ℚ) / md.2 < md.1 / md.2 := by
        have h126 : (126 : ℚ) < md.1 := by exact_mod_cast Nat.lt_of_not_le hbig
        gcongr
      have hcloser := closer_between hxy hyz hsame
      have hle126 := hle 126 md.2 (by decide) hd
      exact absurd (lt_of_lt_of_le hcloser hle126) (lt_irrefl _)
    · exact ⟨h.2.le.trans hm'.2, h.1.trans_le hd'.2⟩
  · rintro ⟨hm126, hd126⟩
    refine ⟨md.1, md.2, ⟨hm.1, hm126⟩, ⟨hd.1, hd126⟩, fun m' d' hm' hd' => ?_⟩
    have hpair : (m', d') ∈ Clocking.mmcm.pairs := Clocking.mem_pairs.2 ⟨hm', hd'⟩
    have hclosest : Clocking.mmcm.distance pixelClock.toNat md ≤ Clocking.mmcm.distance pixelClock.toNat (m', d') :=
      List.le_of_mem_argmin hpair hmd
    exact hclosest

/-- The pair that is found, and that it is the one `fb_set_clock` programs. -/
theorem programmed_clkgenFor (hp : p.clocking = .mmcm) (clkgen : Nat → Word) {pixelClock : Word}
    (h : InRange .mmcm pixelClock) :
    ∃ md ∈ Clocking.mmcm.pairs.argmin (Clocking.mmcm.distance pixelClock.toNat),
      (fbGetClockMd p pixelClock).1.toNat = md.1 ∧ (fbGetClockMd p pixelClock).2.toNat = md.2 ∧
      clkgenFor p clkgen pixelClock =
        fbClkgenWriteMmcm clkgen (BitVec.ofNat 32 md.1) (BitVec.ofNat 32 md.2) := by
  have hrange : InRange p.clocking pixelClock := by
    rw [hp]
    exact h
  obtain ⟨md, hmd, heq⟩ := search_argmin hrange
  rw [hp] at hmd
  obtain ⟨hm, hd⟩ := Clocking.mem_pairs.1 (List.argmin_mem hmd)
  refine ⟨md, hmd, ?_, ?_, ?_⟩
  · rw [heq]
    exact toNat_of_le_maxM hm.2
  · rw [heq]
    exact toNat_of_le_maxD hd.2
  · unfold clkgenFor
    rw [heq, hp]

/-- **The MMCM makes the ratio that was chosen exactly when** a ratio as close as any has no part over 126. -/
theorem programmed_iff (p : Platform) (hp : p.clocking = .mmcm) (clkgen : Nat → Word) (pixelClock : Word)
    (h : InRange .mmcm pixelClock) : Programmed (clkgenFor p clkgen pixelClock)
      (fbGetClockMd p pixelClock).1.toNat (fbGetClockMd p pixelClock).2.toNat ↔ CloseWithin126 pixelClock := by
  obtain ⟨md, hmd, hm, hd, hclkgen⟩ := programmed_clkgenFor hp clkgen h
  rw [hm, hd, hclkgen, programmed_fbClkgenWriteMmcm clkgen (List.argmin_mem hmd), closeWithin126_iff hmd]

def netv2 : Platform where
  netv2OrNexysVideo := true
  hasIn             := fun k => k = 0
  hasOut            := fun k => k = 0
  hasEncoder        := false
  hasPcie           := true
  hasMdio           := false
  clocking          := .mmcm
  simulation        := false
  mainRam           := true

theorem programmed_iff_7425 : netv2.clocking = .mmcm ∧ InRange .mmcm 7425 ∧
    (Programmed (clkgenFor netv2 (fun _ => 0) 7425) (fbGetClockMd netv2 7425).1.toNat
      (fbGetClockMd netv2 7425).2.toNat ↔ CloseWithin126 7425) := by
  have h : InRange .mmcm 7425 := by
    unfold InRange
    decide
  exact ⟨rfl, h, programmed_iff netv2 rfl (fun _ => 0) 7425 h⟩

/-- 63.5 MHz is 127/20 of the base, and 127 is programmed as 63. -/
theorem not_programmed_6350 : ¬ Programmed (clkgenFor netv2 (fun _ => 0) 6350) (fbGetClockMd netv2 6350).1.toNat
    (fbGetClockMd netv2 6350).2.toNat := by
  have h : InRange .mmcm 6350 := by
    unfold InRange
    decide
  obtain ⟨md, hmd, hm, hd, hclkgen⟩ := programmed_clkgenFor (p := netv2) rfl (fun _ => 0) h
  have hmem := List.argmin_mem hmd
  obtain ⟨hrange, hpos, -⟩ := Clocking.mem_pairs.1 hmem
  rw [hm, hd, hclkgen, programmed_fbClkgenWriteMmcm (fun _ => 0) hmem]
  rintro ⟨hm126, -⟩
  -- 127/20 is the ratio itself, and no pair with a smaller multiplier is
  have hexact : Clocking.mmcm.distance 6350 md ≤ Clocking.mmcm.distance 6350 (127, 20) :=
    List.le_of_mem_argmin (by rw [Clocking.mem_pairs]; decide) hmd
  have hzero : Clocking.mmcm.distance 6350 (127, 20) = 0 := by
    norm_num [Clocking.distance, Clocking.idealD]
  have hratio : (md.1 : ℚ) / md.2 = 127 / 20 := by
    rw [hzero] at hexact
    have habs := abs_nonpos_iff.1 hexact
    rw [sub_eq_zero] at habs
    rw [habs]
    norm_num [Clocking.idealD]
  have hne : (md.2 : ℚ) ≠ 0 := by
    have : md.2 ≠ 0 := by omega
    exact_mod_cast this
  rw [div_eq_div_iff hne (by norm_num)] at hratio
  have hnat : md.1 * 20 = 127 * md.2 := by exact_mod_cast hratio
  omega

end Processor
end Hdmi2Usb
