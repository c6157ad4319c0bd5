import Mathlib.Data.BitVec
/-!
# Chunks — words as rows of chunks, the most significant first

`chunk w x j` is the `j`-th chunk of `w` bits of a word from its most significant end.  This is the order in which a shift
register hands a word out over `w` lines: `chunk_shiftIn` and `chunk_setTop` say what shifting and loading do to the
chunks, and a register that takes all chunks of a word in turn has the word (`receive_chunk`).
-/
namespace Hdmi2Usb
namespace Chunks

variable {n m w : Nat}

def chunk (w : Nat) (x : BitVec n) (j : Nat) : BitVec w := x.extractLsb' (n - w * (j + 1)) w

/-- A chunk is shifted in at the least significant end. -/
def shiftIn (x : BitVec n) (d : BitVec w) : BitVec n := x <<< w ||| d.setWidth n

/-- A register that has taken `t` chunks in turn. -/
def receive (n : Nat) (f : Nat → BitVec w) : Nat → BitVec n
  | 0     => 0
  | t + 1 => shiftIn (receive n f t) (f t)

/-- The most significant bits are loaded. -/
def setTop (x : BitVec m) (y : BitVec n) : BitVec n := x.setWidth n <<< (n - m) ||| (y.setWidth (n - m)).setWidth n

theorem getLsbD_chunk (x : BitVec n) (j i : Nat) :
    (chunk w x j).getLsbD i = (decide (i < w) && x.getLsbD (n - w * (j + 1) + i)) := by
  rw [chunk, BitVec.getLsbD_extractLsb']

theorem chunk_shiftIn (x : BitVec n) (d : BitVec w) {j : Nat} (h : w * (j + 2) ≤ n) :
    chunk w (shiftIn x d) j = chunk w x (j + 1) := by
  apply BitVec.eq_of_getLsbD_eq
  intro i hi
  have hw : w ≤ w * (j + 1) := Nat.le_mul_of_pos_right _ (Nat.succ_pos _)
  have hj : w * (j + 1 + 1) = w * (j + 1) + w := Nat.mul_succ _ _
  have hle : w * (j + 1) + w ≤ n := hj ▸ h
  have hshift : n - w * (j + 1) + i - w = n - w * (j + 1 + 1) + i := by
    rw [hj]
    omega
  rw [getLsbD_chunk, getLsbD_chunk, shiftIn, BitVec.getLsbD_or, BitVec.getLsbD_shiftLeft, BitVec.getLsbD_setWidth, hshift]
  have hlow : d.getLsbD (n - w * (j + 1) + i) = false := BitVec.getLsbD_of_ge _ _ (by omega)
  have hnlt : ¬ n - w * (j + 1) + i < w := by omega
  have hin : n - w * (j + 1) + i < n := by omega
  simp [hlow, hnlt, hin]

theorem chunk_shiftIn_last (x : BitVec n) (d : BitVec w) {j : Nat} (h : w * (j + 1) = n) :
    chunk w (shiftIn x d) j = d := by
  apply BitVec.eq_of_getLsbD_eq
  intro i hi
  rw [getLsbD_chunk, h, shiftIn, BitVec.getLsbD_or, BitVec.getLsbD_shiftLeft, BitVec.getLsbD_setWidth]
  have hin : i < n := by
    rw [← h, Nat.mul_succ]
    omega
  simp [hi, hin]

theorem chunk_setTop (x : BitVec m) (y : BitVec n) (hm : m ≤ n) {j : Nat} (h : w * (j + 1) ≤ m) :
    chunk w (setTop x y) j = chunk w x j := by
  apply BitVec.eq_of_getLsbD_eq
  intro i hi
  have hw : w ≤ w * (j + 1) := Nat.le_mul_of_pos_right _ (Nat.succ_pos _)
  have hpos : n - w * (j + 1) + i - (n - m) = m - w * (j + 1) + i := by omega
  have hin : n - w * (j + 1) + i < n := by omega
  have hnlt : ¬ n - w * (j + 1) + i < n - m := by omega
  have hin' : m - w * (j + 1) + i < n := by omega
  rw [getLsbD_chunk, getLsbD_chunk, setTop, BitVec.getLsbD_or, BitVec.getLsbD_shiftLeft, BitVec.getLsbD_setWidth,
    BitVec.getLsbD_setWidth, BitVec.getLsbD_setWidth, hpos]
  simp [hi, hin, hnlt, hin']

/-- A word is its chunks. -/
theorem eq_of_chunk_eq {q : Nat} (hw : 0 < w) (hn : n = w * q) {x y : BitVec n}
    (h : ∀ j < q, chunk w x j = chunk w y j) : x = y := by
  apply BitVec.eq_of_getLsbD_eq
  intro b hb
  have hdiv : b / w < q := by
    apply Nat.div_lt_of_lt_mul
    omega
  have hpos : n - w * (q - 1 - b / w + 1) + b % w = b := by
    have hrow : q - 1 - b / w + 1 = q - b / w := by omega
    have hle := Nat.mul_le_mul_left w hdiv.le
    have hb' := Nat.div_add_mod b w
    rw [hrow, Nat.mul_sub, hn]
    omega
  have hrow : q - 1 - b / w < q := Nat.lt_of_le_of_lt (Nat.sub_le _ _) (Nat.sub_one_lt_of_lt hdiv)
  have hbit := congrArg (fun c => c.getLsbD (b % w)) (h _ hrow)
  simp only [getLsbD_chunk, hpos, decide_eq_true (Nat.mod_lt b hw), Bool.true_and] at hbit
  exact hbit

/-- The chunks taken are at the least significant end, the last one last. -/
theorem chunk_receive {q : Nat} (hn : n = w * q) (f : Nat → BitVec w) :
    ∀ {t j : Nat}, t ≤ q → j < t → chunk w (receive n f t) (q - t + j) = f j
  | 0, _, _, hj => absurd hj (Nat.not_lt_zero _)
  | t + 1, j, ht, hj => by
    rw [receive]
    rcases Nat.lt_succ_iff_lt_or_eq.1 hj with hlt | rfl
    · have hin : w * (q - (t + 1) + j + 2) ≤ n := by
        rw [hn]
        exact Nat.mul_le_mul_left w (by omega)
      have hidx : q - (t + 1) + j + 1 = q - t + j := by omega
      rw [chunk_shiftIn _ _ hin, hidx]
      exact chunk_receive hn f (Nat.le_of_succ_le ht) hlt
    · refine chunk_shiftIn_last _ _ ?_
      have hidx : q - (j + 1) + j + 1 = q := by omega
      rw [hidx, hn]

theorem receive_chunk {q : Nat} (hw : 0 < w) (hn : n = w * q) (x : BitVec n) {f : Nat → BitVec w}
    (hf : ∀ j < q, f j = chunk w x j) : receive n f q = x := by
  refine eq_of_chunk_eq hw hn fun j hj => ?_
  have hchunk := chunk_receive hn f le_rfl hj
  rw [Nat.sub_self, Nat.zero_add] at hchunk
  rw [hchunk, hf j hj]

theorem chunk_append_left (x : BitVec n) (y : BitVec m) {j : Nat} (h : w * (j + 1) ≤ n) :
    chunk w (x ++ y) j = chunk w x j := by
  apply BitVec.eq_of_getLsbD_eq
  intro i hi
  have hnlt : ¬ n + m - w * (j + 1) + i < m := by omega
  have hpos : n + m - w * (j + 1) + i - m = n - w * (j + 1) + i := by omega
  rw [getLsbD_chunk, getLsbD_chunk, BitVec.getLsbD_append, if_neg hnlt, hpos]

theorem chunk_append_right {q : Nat} (hn : n = w * q) (x : BitVec n) (y : BitVec m) {j : Nat} (h : w * (j + 1) ≤ m) :
    chunk w (x ++ y) (q + j) = chunk w y j := by
  apply BitVec.eq_of_getLsbD_eq
  intro i hi
  have hw : w ≤ w * (j + 1) := Nat.le_mul_of_pos_right _ (Nat.succ_pos _)
  have hmul : w * (q + j + 1) = n + w * (j + 1) := by rw [hn, Nat.add_assoc, Nat.mul_add]
  have hpos : n + m - w * (q + j + 1) + i = m - w * (j + 1) + i := by omega
  have hlt : m - w * (j + 1) + i < m := by omega
  rw [getLsbD_chunk, getLsbD_chunk, BitVec.getLsbD_append, hpos, if_pos hlt]

end Chunks
end Hdmi2Usb
