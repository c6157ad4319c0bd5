import Hdmi2Usb.PrefixCodes
import Hdmi2Usb.RunLengths
import Mathlib.Algebra.Order.Ring.Int
import Mathlib.Data.Nat.Size
import Mathlib.Tactic.Positivity
/-!
# JpegScan — what the entropy-coded bytes of a JPEG image stand for

The abstract side of the encoder: a block of coefficients as pairs of a run and a value (`codeBlock`), and a pair as bits,
a word of a Huffman table for the run and the size of the value, and the bits of the value.  `readBlocks` is the baseline
decoder, which is given the tables.
-/
namespace Hdmi2Usb
namespace JpegScan

open PrefixCodes (Table PrefixFree code read_code value value_word word length_word)

/-- A block: its component, and its 64 coefficients, the DC coefficient first and the others in zigzag order. -/
structure Block where
  comp  : ℕ
  coefs : List ℤ

/-- The pairs of a block behind a DC coefficient `pred`. -/
def codeBlock (pred : ℤ) : List ℤ → List (ℕ × ℤ)
  | []        => []
  | dc :: acs => (0, dc - pred) :: RunLengths.encode 16 0 acs

/-- The DC coefficients of the components behind a block. -/
def Block.next (b : Block) (preds : ℕ → ℤ) : ℕ → ℤ := Function.update preds b.comp (b.coefs.headD 0)

def codeBlocks : (ℕ → ℤ) → List Block → List (ℕ × ℤ)
  | _, []          => []
  | preds, b :: bs => codeBlock (preds b.comp) b.coefs ++ codeBlocks (b.next preds) bs

/-- The DC coefficients behind a row of blocks. -/
def predsAfter (preds : ℕ → ℤ) (bs : List Block) : ℕ → ℤ := bs.foldl (fun preds b => b.next preds) preds

theorem predsAfter_concat (preds : ℕ → ℤ) (bs : List Block) (b : Block) :
    predsAfter preds (bs ++ [b]) = b.next (predsAfter preds bs) := by
  rw [predsAfter, List.foldl_append]
  rfl

theorem codeBlocks_append (cs : List Block) : ∀ (bs : List Block) (preds : ℕ → ℤ),
    codeBlocks preds (bs ++ cs) = codeBlocks preds bs ++ codeBlocks (predsAfter preds bs) cs
  | [], preds      => rfl
  | a :: bs, preds => by
    rw [List.cons_append, codeBlocks, codeBlocks, codeBlocks_append cs bs, List.append_assoc]
    rfl

theorem codeBlocks_concat (b : Block) (bs : List Block) (preds : ℕ → ℤ) :
    codeBlocks preds (bs ++ [b]) = codeBlocks preds bs ++ codeBlock (predsAfter preds bs b.comp) b.coefs := by
  rw [codeBlocks_append, codeBlocks, codeBlocks, List.append_nil]

/-- The size of a value: the number of its bits. -/
def vliSize (v : ℤ) : ℕ := v.natAbs.size

/-- The bits of a value: those of the value itself, or of the value less one where it is negative. -/
def vli (v : ℤ) : ℤ := if 0 ≤ v then v else v - 1

/-! ## Values as bits -/

def valueBits (v : ℤ) : List Bool := word (vliSize v) (vli v % 2 ^ vliSize v).toNat

/-- The value of some bits; they stand for a negative one where the first of them is not set. -/
def extend (bits : List Bool) : ℤ :=
  if 2 * value bits < 2 ^ bits.length then (value bits : ℤ) - (2 ^ bits.length - 1) else value bits

theorem vliSize_bounds {v : ℤ} (h : v ≠ 0) : 2 ^ (vliSize v - 1) ≤ v.natAbs ∧ v.natAbs < 2 ^ vliSize v := by
  have hpos : 0 < v.natAbs := Int.natAbs_pos.2 h
  have hsize : 0 < vliSize v := Nat.size_pos.2 hpos
  exact ⟨Nat.lt_size.1 (Nat.sub_lt hsize Nat.one_pos), Nat.lt_size_self _⟩

/-- **A value is read back from its bits.** -/
theorem extend_valueBits (v : ℤ) : extend (valueBits v) = v := by
  by_cases hzero : v = 0
  · subst hzero
    rfl
  obtain ⟨hlow, hhigh⟩ := vliSize_bounds hzero
  have hsize : 0 < vliSize v := Nat.size_pos.2 (Int.natAbs_pos.2 hzero)
  have hpow : (2 : ℕ) ^ vliSize v = 2 * 2 ^ (vliSize v - 1) := by
    rw [← Nat.pow_succ', Nat.succ_eq_add_one, Nat.sub_add_cancel hsize]
  have hcast : ((2 ^ vliSize v : ℕ) : ℤ) = 2 ^ vliSize v := by push_cast; rfl
  have hval : value (valueBits v) = (vli v % 2 ^ vliSize v).toNat := by
    rw [valueBits, value_word, Nat.mod_eq_of_lt]
    have hlt := Int.emod_lt_of_pos (vli v) (b := 2 ^ vliSize v) (by positivity)
    omega
  rw [extend, hval, valueBits, length_word]
  rcases lt_or_ge v 0 with hneg | hnonneg
  · have hmod : vli v % 2 ^ vliSize v = v - 1 + 2 ^ vliSize v := by
      rw [vli, if_neg (by omega), ← Int.add_mul_emod_self_left (v - 1) _ 1, Int.mul_one, Int.emod_eq_of_lt (by omega) (by omega)]
    rw [hmod, if_pos (by omega)]
    omega
  · have hmod : vli v % 2 ^ vliSize v = v := by
      rw [vli, if_pos hnonneg, Int.emod_eq_of_lt hnonneg (by omega)]
    rw [hmod, if_neg (by omega)]
    omega

/-! ## Pairs and blocks as bits -/

/-- The symbol of a pair: its run, and the size of its value. -/
def symbol (w : ℕ × ℤ) : ℕ := 16 * w.1 + vliSize w.2

def pairBits (t : Table ℕ) (w : ℕ × ℤ) : List Bool := code t (symbol w) ++ valueBits w.2

/-- The tables of a component: that of the DC coefficient, and that of the others. -/
structure Tables where
  dc : Table ℕ
  ac : Table ℕ

def blockBits (t : Tables) : List (ℕ × ℤ) → List Bool
  | []      => []
  | w :: ws => pairBits t.dc w ++ ws.flatMap (pairBits t.ac)

def blocksBits (t : ℕ → Tables) : (ℕ → ℤ) → List Block → List Bool
  | _, []          => []
  | preds, b :: bs => blockBits (t b.comp) (codeBlock (preds b.comp) b.coefs) ++ blocksBits t (b.next preds) bs

/-- A pair has a word in a table. -/
def Coded (t : Table ℕ) (w : ℕ × ℤ) : Prop := symbol w ∈ t.map Prod.fst ∧ vliSize w.2 < 16

/-! ## The decoder -/

def readPair (t : Table ℕ) (bits : List Bool) : Option ((ℕ × ℤ) × List Bool) :=
  (PrefixCodes.read t bits).bind fun p =>
    if p.1 % 16 ≤ p.2.length then some ((p.1 / 16, extend (p.2.take (p.1 % 16))), p.2.drop (p.1 % 16)) else none

/-- The next `n` coefficients. -/
def readAcs (t : Table ℕ) : ℕ → List Bool → Option (List ℤ × List Bool)
  | 0, bits     => some ([], bits)
  | n + 1, bits =>
    match readPair t bits with
    | none           => none
    | some (w, rest) =>
      if w = (0, 0) then some (List.replicate (n + 1) 0, rest)
      else if w.1 ≤ n then
        (readAcs t (n - w.1) rest).map fun p => (List.replicate w.1 0 ++ w.2 :: p.1, p.2)
      else none
termination_by n => n
decreasing_by exact Nat.lt_succ_of_le (Nat.sub_le n w.1)

def readBlock (t : Tables) (pred : ℤ) (bits : List Bool) : Option (List ℤ × List Bool) :=
  (readPair t.dc bits).bind fun p =>
    (readAcs t.ac 63 p.2).map fun q => ((p.1.2 + pred) :: q.1, q.2)

/-- The blocks of the components `comps`. -/
def readBlocks (t : ℕ → Tables) : (ℕ → ℤ) → List ℕ → List Bool → Option (List Block × List Bool)
  | _, [], bits              => some ([], bits)
  | preds, c :: comps, bits =>
    (readBlock (t c) (preds c) bits).bind fun p =>
      (readBlocks t (Block.next ⟨c, p.1⟩ preds) comps p.2).map fun q => (⟨c, p.1⟩ :: q.1, q.2)

theorem readPair_append {t : Table ℕ} (ht : PrefixFree t) {w : ℕ × ℤ} (h : Coded t w) (rest : List Bool) :
    readPair t (pairBits t w ++ rest) = some (w, rest) := by
  obtain ⟨hmem, hsize⟩ := h
  have hmod : symbol w % 16 = vliSize w.2 := by rw [symbol, Nat.mul_add_mod, Nat.mod_eq_of_lt hsize]
  have hdiv : symbol w / 16 = w.1 := by rw [symbol, Nat.mul_add_div (by decide), Nat.div_eq_of_lt hsize, Nat.add_zero]
  have hlen : (valueBits w.2).length = vliSize w.2 := length_word _ _
  rw [readPair, pairBits, List.append_assoc, read_code ht hmem, Option.bind_some, hmod, hdiv,
    if_pos (by rw [List.length_append]; omega), List.take_append_of_le_length hlen.ge, List.drop_append_of_le_length hlen.ge,
    List.take_of_length_le hlen.le, List.drop_of_length_le hlen.le, extend_valueBits]
  rfl

/-- What a code stands for is read from its bits. -/
theorem readAcs_append {t : Table ℕ} (ht : PrefixFree t) {n : ℕ} {ws : List (ℕ × ℤ)} {xs : List ℤ}
    (h : RunLengths.Expands n ws xs) (hcoded : ∀ w ∈ ws, Coded t w) (rest : List Bool) :
    readAcs t n (ws.flatMap (pairBits t) ++ rest) = some (xs, rest) := by
  induction h with
  | nil => rw [readAcs]; rfl
  | toEnd n =>
    rw [List.flatMap_singleton, readAcs, readPair_append ht (hcoded _ List.mem_cons_self)]
    rfl
  | @run n ws xs r x hne h ih =>
    have hrest := ih fun w hw => hcoded w (List.mem_cons_of_mem _ hw)
    rw [List.flatMap_cons, List.append_assoc, show r + 1 + n = r + n + 1 by omega, readAcs,
      readPair_append ht (hcoded _ List.mem_cons_self)]
    simp only [if_neg hne, if_pos (Nat.le_add_right r n), Nat.add_sub_cancel_left, hrest, Option.map_some]

/-- A block that the tables have words for. -/
structure Block.Codable (t : Tables) (pred : ℤ) (b : Block) : Prop where
  length : b.coefs.length = 64
  coded  : ∃ w ws, codeBlock pred b.coefs = w :: ws ∧ Coded t.dc w ∧ ∀ v ∈ ws, Coded t.ac v

theorem readBlock_append {t : Tables} (hdc : PrefixFree t.dc) (hac : PrefixFree t.ac) {pred : ℤ} {b : Block}
    (h : b.Codable t pred) (rest : List Bool) :
    readBlock t pred (blockBits t (codeBlock pred b.coefs) ++ rest) = some (b.coefs, rest) := by
  obtain ⟨hlen, w, ws, hcode, hw, hws⟩ := h
  cases hcoefs : b.coefs with
  | nil =>
    rw [hcoefs] at hlen
    cases hlen
  | cons dc acs =>
    rw [hcoefs, codeBlock] at hcode
    obtain ⟨rfl, rfl⟩ := List.cons.inj hcode
    rw [hcoefs, List.length_cons] at hlen
    have hexp := RunLengths.encode_expands (m := 16) (by decide) acs 0
    rw [show 0 + acs.length = 63 by omega] at hexp
    rw [codeBlock, blockBits, List.append_assoc, readBlock, readPair_append hdc hw, Option.bind_some,
      readAcs_append hac hexp hws]
    simp only [Option.map_some, Int.sub_add_cancel]
    rfl

/-- **The decoder reads the blocks back.** -/
theorem readBlocks_append {t : ℕ → Tables} (ht : ∀ c, PrefixFree (t c).dc ∧ PrefixFree (t c).ac) :
    ∀ (bs : List Block) (preds : ℕ → ℤ) (rest : List Bool),
      (∀ as b cs, bs = as ++ b :: cs → b.Codable (t b.comp) (predsAfter preds as b.comp)) →
      readBlocks t preds (bs.map Block.comp) (blocksBits t preds bs ++ rest) = some (bs, rest)
  | [], _, _, _ => rfl
  | b :: bs, preds, rest, h => by
    have hfirst := readBlock_append (ht b.comp).1 (ht b.comp).2 (h [] b bs rfl)
      (blocksBits t (b.next preds) bs ++ rest)
    have hrest := readBlocks_append ht bs (b.next preds) rest fun as c cs hsplit =>
      h (b :: as) c cs (by rw [hsplit]; rfl)
    rw [List.map_cons, blocksBits, List.append_assoc, readBlocks]
    rw [show predsAfter preds [] = preds from rfl] at hfirst
    rw [hfirst, Option.bind_some, hrest]
    rfl

end JpegScan
end Hdmi2Usb
