import Mathlib.Data.List.Basic
/-!
# Framing — cutting a stream into frames as it arrives

A receiver looks at the data in front of it and skips one element, takes a frame, or waits for more.  A `Framer` is such
a receiver that never decides on data it has not got and never changes its mind when more arrives.  `scan` applies it
until it has to wait.  Scanning a stream in pieces, with what is left of one piece put in front of the next, gives the
frames and the rest of scanning it at once (`scan_append`), so the frames do not depend on the cuts.
-/
namespace Hdmi2Usb
namespace Framing

inductive Verdict
  | skip
  | take (n : Nat)
  | wait
deriving DecidableEq, Repr

structure Framer (α : Type*) where
  verdict : List α → Verdict
  nil     : verdict [] = .wait
  bounds  : ∀ xs n, verdict xs = .take n → 0 < n ∧ n ≤ xs.length
  stable  : ∀ xs ys, verdict xs ≠ .wait → verdict (xs ++ ys) = verdict xs

structure Scan (α : Type*) where
  frames : List (List α)
  rest   : List α
  looks  : List (List α)

variable {α : Type*} (f : Framer α)

/-- `fuel` bounds the verdicts; a verdict that does not end the scan consumes at least one element. -/
def scanAux : Nat → List α → Scan α
  | 0,        xs => ⟨[], xs, []⟩
  | _,        [] => ⟨[], [], []⟩
  | fuel + 1, x :: xs =>
    match f.verdict (x :: xs) with
    | .skip =>
      let r := scanAux fuel xs
      ⟨r.frames, r.rest, (x :: xs) :: r.looks⟩
    | .take n =>
      let r := scanAux fuel ((x :: xs).drop n)
      ⟨(x :: xs).take n :: r.frames, r.rest, (x :: xs) :: r.looks⟩
    | .wait => ⟨[], x :: xs, [x :: xs]⟩

def scan (xs : List α) : Scan α := scanAux f xs.length xs

theorem scanAux_of_le : ∀ (m n : Nat) (xs : List α), xs.length ≤ m → xs.length ≤ n → scanAux f m xs = scanAux f n xs
  | 0,     0,     _,       _,  _  => rfl
  | 0,     n + 1, [],      _,  _  => by simp [scanAux]
  | 0,     n + 1, x :: xs, hm, _  => by simp at hm
  | m + 1, 0,     [],      _,  _  => by simp [scanAux]
  | m + 1, 0,     x :: xs, _,  hn => by simp at hn
  | m + 1, n + 1, [],      _,  _  => by simp [scanAux]
  | m + 1, n + 1, x :: xs, hm, hn => by
    simp only [List.length_cons, Nat.add_le_add_iff_right] at hm hn
    unfold scanAux
    cases hv : f.verdict (x :: xs) with
    | skip => simp only; rw [scanAux_of_le m n xs hm hn]
    | take k =>
      have hk := (f.bounds _ _ hv).1
      have hd : ((x :: xs).drop k).length ≤ xs.length := by
        simp only [List.length_drop, List.length_cons]; omega
      simp only
      rw [scanAux_of_le m n _ (Nat.le_trans hd hm) (Nat.le_trans hd hn)]
    | wait => rfl

@[simp] theorem scan_nil : scan f [] = ⟨[], [], []⟩ := rfl

theorem scan_skip {x : α} {xs : List α} (h : f.verdict (x :: xs) = .skip) :
    scan f (x :: xs) = ⟨(scan f xs).frames, (scan f xs).rest, (x :: xs) :: (scan f xs).looks⟩ := by
  simp only [scan, List.length_cons, scanAux, h]

theorem scan_take {xs : List α} {n : Nat} (h : f.verdict xs = .take n) :
    scan f xs = ⟨xs.take n :: (scan f (xs.drop n)).frames, (scan f (xs.drop n)).rest,
      xs :: (scan f (xs.drop n)).looks⟩ := by
  cases xs with
  | nil => rw [f.nil] at h; cases h
  | cons x xs =>
    have hn := (f.bounds _ _ h).1
    have hd : ((x :: xs).drop n).length ≤ xs.length := by
      simp only [List.length_drop, List.length_cons]; omega
    simp only [scan, List.length_cons, scanAux, h]
    rw [scanAux_of_le f xs.length _ _ hd (Nat.le_refl _)]

theorem scan_wait {xs : List α} (hne : xs ≠ []) (h : f.verdict xs = .wait) : scan f xs = ⟨[], xs, [xs]⟩ := by
  cases xs with
  | nil => exact absurd rfl hne
  | cons x xs => simp only [scan, List.length_cons, scanAux, h]

theorem rest_mem_looks : ∀ {xs : List α}, (scan f xs).rest ≠ [] → (scan f xs).rest ∈ (scan f xs).looks
  | [], h => absurd rfl h
  | x :: xs, h => by
    cases hv : f.verdict (x :: xs) with
    | skip =>
      rw [scan_skip f hv] at h ⊢
      exact List.mem_cons_of_mem _ (rest_mem_looks h)
    | take n =>
      have hpos := (f.bounds _ _ hv).1
      have hlt : ((x :: xs).drop n).length < (x :: xs).length := by
        simp only [List.length_drop, List.length_cons]; omega
      rw [scan_take f hv] at h ⊢
      exact List.mem_cons_of_mem _ (rest_mem_looks h)
    | wait =>
      rw [scan_wait f (by simp) hv]
      simp
termination_by xs => xs.length

/-- **Scanning goes on where it stopped**: what is left of a piece, put in front of the next, is scanned as the whole
stream is. -/
theorem scan_append : ∀ (xs ys : List α),
    (scan f (xs ++ ys)).frames = (scan f xs).frames ++ (scan f ((scan f xs).rest ++ ys)).frames ∧
      (scan f (xs ++ ys)).rest = (scan f ((scan f xs).rest ++ ys)).rest
  | [], ys => by simp
  | x :: xs, ys => by
    cases hv : f.verdict (x :: xs) with
    | skip =>
      have hv' : f.verdict (x :: (xs ++ ys)) = .skip := by
        rw [← List.cons_append, f.stable _ ys (by rw [hv]; simp), hv]
      rw [List.cons_append, scan_skip f hv, scan_skip f hv']
      exact scan_append xs ys
    | take n =>
      obtain ⟨hpos, hle⟩ := f.bounds _ _ hv
      have hv' : f.verdict (x :: xs ++ ys) = .take n := by rw [f.stable _ ys (by rw [hv]; simp), hv]
      have hlt : ((x :: xs).drop n).length < (x :: xs).length := by
        simp only [List.length_drop, List.length_cons]; omega
      rw [scan_take f hv, scan_take f hv', List.take_append_of_le_length hle, List.drop_append_of_le_length hle]
      obtain ⟨h1, h2⟩ := scan_append ((x :: xs).drop n) ys
      exact ⟨by rw [h1]; rfl, h2⟩
    | wait => rw [scan_wait f (by simp) hv]; exact ⟨rfl, rfl⟩
termination_by xs => xs.length

end Framing
end Hdmi2Usb
