import Mathlib.Data.List.Basic
/-!
# RunLengths — values among many zeros, coded as runs

A sequence is coded as pairs of a run of zeros and the value behind it.  A run is below `m`; `m` zeros that are too many
for it are the pair `(m - 1, 0)`, and zeros up to the end are the pair `(0, 0)`.  `Expands n ws xs` says that the pairs
`ws` stand for the `n` values `xs`; the code of a sequence stands for it (`encode_expands`).
-/
namespace Hdmi2Usb
namespace RunLengths

variable {α : Type*} [Zero α] {m : ℕ}

inductive Expands : ℕ → List (ℕ × α) → List α → Prop
  | nil : Expands 0 [] []
  | toEnd (n : ℕ) : Expands (n + 1) [(0, 0)] (List.replicate (n + 1) 0)
  | run {n : ℕ} {ws : List (ℕ × α)} {xs : List α} (r : ℕ) (x : α) (hne : (r, x) ≠ (0, 0)) (h : Expands n ws xs) :
      Expands (r + 1 + n) ((r, x) :: ws) (List.replicate r 0 ++ x :: xs)

/-- The pairs for the zeros that are too many for one run. -/
def fullRuns (m z : ℕ) : List (ℕ × α) := List.replicate (z / m) (m - 1, 0)

/-- The code of the values `xs` behind `z` zeros. -/
def encode [DecidableEq α] (m : ℕ) : ℕ → List α → List (ℕ × α)
  | z, []      => if z = 0 then [] else [(0, 0)]
  | z, x :: xs => if x = 0 then encode m (z + 1) xs else fullRuns m z ++ (z % m, x) :: encode m 0 xs

theorem Expands.fullRuns (hm : 1 < m) {n : ℕ} {ws : List (ℕ × α)} {xs : List α} (h : Expands n ws xs) :
    ∀ q : ℕ, Expands (m * q + n) (List.replicate q (m - 1, 0) ++ ws) (List.replicate (m * q) 0 ++ xs)
  | 0     => by simpa using h
  | q + 1 => by
    have hne : ((m - 1, 0) : ℕ × α) ≠ (0, 0) := fun he => by
      have hzero : m - 1 = 0 := congrArg Prod.fst he
      omega
    have hlen : m * (q + 1) + n = m - 1 + 1 + (m * q + n) := by
      rw [Nat.mul_succ]
      omega
    have hzeros : List.replicate (m * (q + 1)) (0 : α) ++ xs =
        List.replicate (m - 1) 0 ++ 0 :: (List.replicate (m * q) 0 ++ xs) := by
      have hsplit : m * (q + 1) = m - 1 + (1 + m * q) := by
        rw [Nat.mul_succ]
        omega
      rw [hsplit, List.replicate_add, List.replicate_add, List.append_assoc, List.append_assoc]
      rfl
    rw [hlen, hzeros, List.replicate_succ]
    exact .run (m - 1) 0 hne (Expands.fullRuns hm h q)

/-- Every pair stands for a value at least. -/
theorem Expands.length_le {n : ℕ} {ws : List (ℕ × α)} {xs : List α} (h : Expands n ws xs) : ws.length ≤ n := by
  induction h with
  | nil => exact Nat.le_refl 0
  | toEnd n => exact Nat.le_add_left 1 n
  | run r x hne h ih =>
    rw [List.length_cons]
    omega

theorem encode_expands [DecidableEq α] (hm : 1 < m) : ∀ (xs : List α) (z : ℕ),
    Expands (z + xs.length) (encode m z xs) (List.replicate z 0 ++ xs)
  | [], 0     => .nil
  | [], z + 1 => by
    rw [List.append_nil]
    exact .toEnd z
  | x :: xs, z => by
    rw [encode]
    split
    · rename_i hx
      have hlen : z + (x :: xs).length = z + 1 + xs.length := by
        rw [List.length_cons]
        omega
      have hzeros : List.replicate z 0 ++ x :: xs = List.replicate (z + 1) 0 ++ xs := by
        rw [hx, List.replicate_succ', List.append_assoc]
        rfl
      rw [hlen, hzeros]
      exact encode_expands hm xs (z + 1)
    · rename_i hx
      have hne : (z % m, x) ≠ (0, 0) := fun he => hx (congrArg Prod.snd he)
      have h := Expands.run (z % m) x hne (encode_expands hm xs 0)
      have hfull := h.fullRuns hm (z / m)
      have hz := Nat.div_add_mod z m
      have hlen : m * (z / m) + (z % m + 1 + (0 + xs.length)) = z + (x :: xs).length := by
        rw [List.length_cons]
        omega
      have hzeros : List.replicate (m * (z / m)) (0 : α) ++ (List.replicate (z % m) 0 ++ x :: xs) =
          List.replicate z 0 ++ x :: xs := by
        rw [← List.append_assoc, ← List.replicate_add, hz]
      rw [hlen, List.replicate_zero, List.nil_append, hzeros] at hfull
      exact hfull

/-- What a code is made of: short runs before values of the sequence, full runs, and the rest of zeros. -/
theorem mem_encode [DecidableEq α] (hm : 0 < m) : ∀ {xs : List α} {z : ℕ} {w : ℕ × α}, w ∈ encode m z xs →
    w = (0, 0) ∨ w = (m - 1, 0) ∨ (w.1 < m ∧ w.2 ∈ xs ∧ w.2 ≠ 0)
  | [], z, w, h => by
    rw [encode] at h
    split at h
    · cases h
    · exact .inl (List.mem_singleton.1 h)
  | x :: xs, z, w, h => by
    rw [encode] at h
    split at h
    · exact (mem_encode hm h).imp_right fun h => h.imp_right fun ⟨hr, hx, hne⟩ => ⟨hr, List.mem_cons_of_mem _ hx, hne⟩
    · rename_i hx
      rcases List.mem_append.1 h with hfull | hrest
      · exact .inr (.inl (List.eq_of_mem_replicate hfull))
      · rcases List.mem_cons.1 hrest with rfl | hrest
        · exact .inr (.inr ⟨Nat.mod_lt z hm, List.mem_cons_self, hx⟩)
        · exact (mem_encode hm hrest).imp_right fun h => h.imp_right fun ⟨hr, hx, hne⟩ =>
            ⟨hr, List.mem_cons_of_mem _ hx, hne⟩

end RunLengths
end Hdmi2Usb
