import Hdmi2Usb.Runs
import Mathlib.Logic.Function.Basic
/-!
# EncoderBuffer — two banks between the words of the DMA and the pixels of the encoder (`gateware/encoder/core.py`)

`EncoderBuffer` writes words of 128 bits into one bank of eight lines while it reads the other one as pixels of 16 bits.
A bank goes from the writer to the reader when `write_sel` is swapped, and back when `read_sel` is: with `f` banks filled
and `s` begun to be read, both selects are the parities of these counts and `s ≤ f ≤ s + 1` (`Banks`).
-/
namespace Hdmi2Usb
namespace Encoder

inductive WriteFsm
  | idle
  | write
deriving DecidableEq

inductive ReadFsm
  | idle
  | read
deriving DecidableEq

structure WritePath where
  fsm    : WriteFsm
  vWrite : BitVec 3

structure ReadPath where
  fsm   : ReadFsm
  hRead : BitVec 3
  vRead : BitVec 3

structure Buffer where
  mem      : BitVec 4 → BitVec 128
  writeSel : Bool
  readSel  : Bool
  write    : WritePath
  read     : ReadPath

/-- What is at the sink, and whether the source is ready. -/
structure BufferInput where
  data  : BitVec 128
  valid : Bool
  ready : Bool

/-! ## One clock cycle -/

/-- A memory address: the bank, and the line in it. -/
def bankAdr (sel : Bool) (v : BitVec 3) : BitVec 4 := BitVec.ofBool sel ++ v

/-- `chooser(..., reverse=True)`: the first pixel of a word is its most significant half-word. -/
def pixel (word : BitVec 128) (h : Nat) : BitVec 16 := word.extractLsb' ((7 - h) * 16) 16

def WritePath.swap (w : WritePath) (valid : Bool) : Bool :=
  match w.fsm with
  | .idle  => false
  | .write => valid && w.vWrite = 7

def WritePath.cycle (w : WritePath) (free valid : Bool) : WritePath :=
  match w.fsm with
  | .idle => { fsm := if free then .write else .idle, vWrite := 0 }
  | .write =>
    if valid then if w.vWrite = 7 then { w with fsm := .idle } else { w with vWrite := w.vWrite + 1 } else w

def ReadPath.swap (r : ReadPath) (filled : Bool) : Bool :=
  match r.fsm with
  | .idle => filled
  | .read => false

def ReadPath.cycle (r : ReadPath) (filled ready : Bool) : ReadPath :=
  match r.fsm with
  | .idle => { fsm := if filled then .read else .idle, hRead := 0, vRead := 0 }
  | .read =>
    if ready then
      if r.hRead = 7 then
        if r.vRead = 7 then { r with fsm := .idle, hRead := 0 } else { r with hRead := 0, vRead := r.vRead + 1 }
      else { r with hRead := r.hRead + 1 }
    else r

namespace Buffer

/-- The registers after reset; the memory may hold anything. -/
def reset (mem : BitVec 4 → BitVec 128) : Buffer :=
  { mem, writeSel := false, readSel := true, write := ⟨.idle, 0⟩, read := ⟨.idle, 0, 0⟩ }

def sinkReady (b : Buffer) : Bool := b.write.fsm = .write

def sourceValid (b : Buffer) : Bool := b.read.fsm = .read

def sourceData (b : Buffer) : BitVec 16 := pixel (b.mem (bankAdr b.readSel b.read.vRead)) b.read.hRead.toNat

def sourceLast (b : Buffer) : Bool := b.read.fsm = .read && b.read.hRead = 7 && b.read.vRead = 7

def cycle (b : Buffer) (i : BufferInput) : Buffer :=
  { mem      := if i.valid && b.sinkReady then Function.update b.mem (bankAdr b.writeSel b.write.vWrite) i.data
                else b.mem
    writeSel := if b.write.swap i.valid then !b.writeSel else b.writeSel
    readSel  := if b.read.swap (b.readSel == b.writeSel) then !b.readSel else b.readSel
    write    := b.write.cycle (b.writeSel != b.readSel) i.valid
    read     := b.read.cycle (b.readSel == b.writeSel) i.ready }

/-- The word that the sink takes in a cycle. -/
def accept (b : Buffer) (i : BufferInput) : List (BitVec 128) := if i.valid && b.sinkReady then [i.data] else []

/-- The pixel that the source gives in a cycle, and its `last`. -/
def emit (b : Buffer) (i : BufferInput) : List (BitVec 16 × Bool) :=
  if b.sourceValid && i.ready then [(b.sourceData, b.sourceLast)] else []

/-- The words that a run takes. -/
def accepted : Buffer → List BufferInput → List (BitVec 128)
  | _, []      => []
  | b, i :: is => b.accept i ++ accepted (b.cycle i) is

/-- The pixels that a run gives. -/
def emitted : Buffer → List BufferInput → List (BitVec 16 × Bool)
  | _, []      => []
  | b, i :: is => b.emit i ++ emitted (b.cycle i) is

end Buffer

/-! ## Pixels of words -/

/-- The eight pixels of a word, from the most significant half-word down. -/
def pixels (word : BitVec 128) : List (BitVec 16) := (List.range 8).map (pixel word)

@[simp] theorem length_pixels (word : BitVec 128) : (pixels word).length = 8 := by simp [pixels]

theorem flatMap_pixels_getElem? : ∀ (words : List (BitVec 128)) (e : Nat),
    (words.flatMap pixels)[e]? = words[e / 8]?.map fun word => pixel word (e % 8)
  | [], e => by simp
  | word :: words, e => by
    rw [List.flatMap_cons]
    by_cases he : e < 8
    · rw [List.getElem?_append_left (by simpa using he), Nat.div_eq_of_lt he, Nat.mod_eq_of_lt he]
      simp [pixels, he]
    · obtain ⟨d, rfl⟩ := Nat.exists_eq_add_of_le (Nat.le_of_not_lt he)
      have hdiv : (8 + d) / 8 = d / 8 + 1 := by omega
      rw [List.getElem?_append_right (by simp), length_pixels, Nat.add_sub_cancel_left, flatMap_pixels_getElem? words d,
        hdiv, List.getElem?_cons_succ, Nat.add_mod_left]

/-- The pixels of the words in order, each with whether it is the last one of 64. -/
def stream (words : List (BitVec 128)) : List (BitVec 16 × Bool) :=
  (words.flatMap pixels).mapIdx fun e p => (p, decide (e % 64 = 63))

theorem stream_getElem? (words : List (BitVec 128)) (e : Nat) :
    (stream words)[e]? = words[e / 8]?.map fun word => (pixel word (e % 8), decide (e % 64 = 63)) := by
  rw [stream, List.getElem?_mapIdx, flatMap_pixels_getElem?, Option.map_map]
  rfl

theorem stream_of_isPrefix (words ws : List (BitVec 128)) : stream words <+: stream (words ++ ws) := by
  unfold stream
  rw [List.flatMap_append, List.mapIdx_append]
  exact List.prefix_append _ _

theorem prefix_snoc {α : Type*} {out l : List α} {x : α} (h : out <+: l) (hx : l[out.length]? = some x) :
    out ++ [x] <+: l := by
  rw [List.prefix_iff_eq_take] at h ⊢
  rw [List.length_append, List.length_singleton, List.take_add_one, hx, ← h]
  rfl

theorem bankAdr_inj {s t : Bool} {v w : BitVec 3} : bankAdr s v = bankAdr t w ↔ s = t ∧ v = w := by
  revert s t v w
  decide

/-! ## The counts -/

theorem three_eq_seven (v : BitVec 3) : v = 7 ↔ v.toNat = 7 := by
  rw [← BitVec.toNat_inj]
  rfl

theorem three_succ {v : BitVec 3} (h : ¬ v = 7) : (v + 1).toNat = v.toNat + 1 := by
  have := v.isLt
  have h7 := mt (three_eq_seven v).2 h
  have h1 : (1 : BitVec 3).toNat = 1 := rfl
  rw [BitVec.toNat_add, h1]
  omega

/-- The writer after `a` words, when `s` banks have been begun to be read. -/
def WritePath.At (w : WritePath) (a s : Nat) : Prop :=
  match w.fsm with
  | .idle  => a % 8 = 0
  | .write => a / 8 = s ∧ a % 8 = w.vWrite.toNat

/-- The reader after `e` pixels. -/
def ReadPath.At (r : ReadPath) (e : Nat) : Prop :=
  match r.fsm with
  | .idle => e % 64 = 0
  | .read => e % 64 = 8 * r.vRead.toNat + r.hRead.toNat

/-- The banks begun to be read, after `e` pixels. -/
def ReadPath.started (r : ReadPath) (e : Nat) : Nat :=
  match r.fsm with
  | .idle => e / 64
  | .read => e / 64 + 1

theorem WritePath.At.cycle {w : WritePath} {a s s' : Nat} (h : w.At a s) (hs : a / 8 = s → s' = s) (valid : Bool) :
    let a' := if valid && w.fsm = .write then a + 1 else a
    (w.cycle (decide (a / 8 = s)) valid).At a' s' ∧ a' / 8 = if w.swap valid then a / 8 + 1 else a / 8 := by
  obtain ⟨fsm, v⟩ := w
  cases fsm with
  | idle =>
    have ha : a % 8 = 0 := h
    by_cases hfree : a / 8 = s <;> simp [WritePath.At, WritePath.cycle, WritePath.swap, hfree, hs, ha]
  | write =>
    obtain ⟨hsel, hv⟩ : a / 8 = s ∧ a % 8 = v.toNat := h
    have hs' := hs hsel
    cases valid with
    | false => simp [WritePath.At, WritePath.cycle, WritePath.swap, hsel, hv, hs']
    | true =>
      by_cases h7 : v = 7
      · have hv7 := (three_eq_seven v).1 h7
        have hcycle : WritePath.cycle ⟨.write, v⟩ (decide (a / 8 = s)) true = ⟨.idle, v⟩ := if_pos h7
        have hswap : WritePath.swap ⟨.write, v⟩ true = true := decide_eq_true h7
        rw [hcycle, hswap]
        show (a + 1) % 8 = 0 ∧ (a + 1) / 8 = a / 8 + 1
        omega
      · have hv7 := mt (three_eq_seven v).2 h7
        have hcycle : WritePath.cycle ⟨.write, v⟩ (decide (a / 8 = s)) true = ⟨.write, v + 1⟩ := if_neg h7
        have hswap : WritePath.swap ⟨.write, v⟩ true = false := decide_eq_false h7
        have hlt := v.isLt
        rw [hcycle, hswap]
        show ((a + 1) / 8 = s' ∧ (a + 1) % 8 = (v + 1).toNat) ∧ (a + 1) / 8 = a / 8
        rw [three_succ h7]
        omega

theorem ReadPath.At.cycle {r : ReadPath} {e : Nat} (h : r.At e) (filled ready : Bool) :
    let e' := if r.fsm = .read && ready then e + 1 else e
    (r.cycle filled ready).At e' ∧
      (r.cycle filled ready).started e' = if r.swap filled then r.started e + 1 else r.started e := by
  obtain ⟨fsm, hr, vr⟩ := r
  cases fsm with
  | idle =>
    have he : e % 64 = 0 := h
    cases filled <;> simp [ReadPath.At, ReadPath.cycle, ReadPath.swap, ReadPath.started, he]
  | read =>
    have he : e % 64 = 8 * vr.toNat + hr.toNat := h
    cases ready with
    | false => simp [ReadPath.At, ReadPath.cycle, ReadPath.swap, ReadPath.started, he]
    | true =>
      have hlth := hr.isLt
      have hltv := vr.isLt
      by_cases hh : hr = 7
      case neg =>
        have hh7 := mt (three_eq_seven hr).2 hh
        have hcycle : ReadPath.cycle ⟨.read, hr, vr⟩ filled true = ⟨.read, hr + 1, vr⟩ := if_neg hh
        rw [hcycle]
        show (e + 1) % 64 = 8 * vr.toNat + (hr + 1).toNat ∧ (e + 1) / 64 + 1 = e / 64 + 1
        rw [three_succ hh]
        omega
      have hh7 := (three_eq_seven hr).1 hh
      by_cases hv : vr = 7
      · have hv7 := (three_eq_seven vr).1 hv
        have hcycle : ReadPath.cycle ⟨.read, hr, vr⟩ filled true = ⟨.idle, 0, vr⟩ := (if_pos hh).trans (if_pos hv)
        rw [hcycle]
        show (e + 1) % 64 = 0 ∧ (e + 1) / 64 = e / 64 + 1
        omega
      · have hv7 := mt (three_eq_seven vr).2 hv
        have hcycle : ReadPath.cycle ⟨.read, hr, vr⟩ filled true = ⟨.read, 0, vr + 1⟩ := (if_pos hh).trans (if_neg hv)
        have h0 : (0 : BitVec 3).toNat = 0 := rfl
        rw [hcycle]
        show (e + 1) % 64 = 8 * (vr + 1).toNat + (0 : BitVec 3).toNat ∧ (e + 1) / 64 + 1 = e / 64 + 1
        rw [three_succ hv, h0]
        omega

theorem parity_succ (n p : Nat) (hp : p < 2) : decide ((n + 1) % 2 = p) = !decide (n % 2 = p) := by
  rw [← decide_not, decide_eq_decide]
  omega

/-- With `f` banks filled and `s` begun to be read, the selects are their parities. -/
structure Banks (f s : Nat) (writeSel readSel : Bool) : Prop where
  writeSel : writeSel = decide (f % 2 = 1)
  readSel  : readSel = decide (s % 2 = 0)
  le       : s ≤ f
  ge       : f ≤ s + 1

section Banks

variable {f s : Nat} {writeSel readSel : Bool}

/-- The writer has a bank to write when all filled banks have been begun to be read. -/
theorem Banks.free (h : Banks f s writeSel readSel) : (writeSel != readSel) = decide (f = s) := by
  obtain ⟨rfl, rfl, hle, hge⟩ := h
  rw [Bool.eq_iff_iff, bne_iff_ne, ne_eq, decide_eq_decide, decide_eq_true_eq]
  omega

/-- The reader has a bank to read when one is filled that has not been begun. -/
theorem Banks.filled (h : Banks f s writeSel readSel) : (readSel == writeSel) = decide (f = s + 1) := by
  obtain ⟨rfl, rfl, hle, hge⟩ := h
  rw [Bool.eq_iff_iff, beq_iff_eq, decide_eq_decide, decide_eq_true_eq]
  omega

/-- A bank is filled only while none waits, and begun to be read only when one waits. -/
theorem Banks.swap (h : Banks f s writeSel readSel) {fill start : Bool} (hfill : fill = true → f = s)
    (hstart : start = true → f = s + 1) :
    Banks (if fill then f + 1 else f) (if start then s + 1 else s) (if fill then !writeSel else writeSel)
      (if start then !readSel else readSel) := by
  obtain ⟨rfl, rfl, hle, hge⟩ := h
  cases fill with
  | false =>
    cases start with
    | false => exact ⟨rfl, rfl, hle, hge⟩
    | true =>
      have hwait := hstart rfl
      have heven := parity_succ s 0 (by decide)
      exact ⟨rfl, heven.symm, hwait.ge, hge.trans (Nat.le_succ _)⟩
  | true =>
    cases start with
    | false =>
      have hnone := hfill rfl
      have hodd := parity_succ f 1 (by decide)
      exact ⟨hodd.symm, rfl, hle.trans (Nat.le_succ _), Nat.succ_le_succ hnone.le⟩
    | true =>
      have hwait := hstart rfl
      have hnone := hfill rfl
      omega

end Banks

/-! ## The invariant -/

/-- The buffer after it has taken `words` and given `out`: the words from the bank being read on are in the memory. -/
structure Buffered (words : List (BitVec 128)) (out : List (BitVec 16 × Bool)) (b : Buffer) : Prop where
  banks  : Banks (words.length / 8) (b.read.started out.length) b.writeSel b.readSel
  write  : b.write.At words.length (b.read.started out.length)
  read   : b.read.At out.length
  stored : ∀ k word, words[k]? = some word → out.length / 64 * 8 ≤ k →
    b.mem (bankAdr (decide (k / 8 % 2 = 1)) (BitVec.ofNat 3 k)) = word
  given  : out <+: stream words

section Buffered

variable {words : List (BitVec 128)} {out : List (BitVec 16 × Bool)} {b : Buffer}

/-- While the sink is ready its bank is that of the word to come, and all pixels the bank had before are out. -/
theorem Buffered.bank_free (h : Buffered words out b) (hready : b.sinkReady = true) :
    bankAdr b.writeSel b.write.vWrite = bankAdr (decide (words.length / 8 % 2 = 1)) (BitVec.ofNat 3 words.length) ∧
      words.length / 8 * 64 ≤ out.length + 64 := by
  have hfsm : b.write.fsm = .write := by simpa [Buffer.sinkReady] using hready
  have hwrite := h.write
  unfold WritePath.At at hwrite
  rw [hfsm] at hwrite
  obtain ⟨hs, hv⟩ := hwrite
  refine ⟨bankAdr_inj.2 ⟨h.banks.writeSel, ?_⟩, ?_⟩
  · rw [← BitVec.toNat_inj, BitVec.toNat_ofNat, ← hv]
  · unfold ReadPath.started at hs
    cases hread : b.read.fsm <;> rw [hread] at hs <;> simp only at hs <;> omega

/-- While a pixel is at the source its bank has been filled. -/
theorem Buffered.bank_filled (h : Buffered words out b) (hvalid : b.sourceValid = true) :
    bankAdr b.readSel b.read.vRead =
        bankAdr (decide (out.length / 64 % 2 = 1)) (BitVec.ofNat 3 (out.length / 8)) ∧
      out.length % 64 = 8 * b.read.vRead.toNat + b.read.hRead.toNat ∧ (out.length / 64 + 1) * 8 ≤ words.length := by
  have hfsm : b.read.fsm = .read := by simpa [Buffer.sourceValid] using hvalid
  have hread := h.read
  have hle := h.banks.le
  have hsel := h.banks.readSel
  unfold ReadPath.At at hread
  unfold ReadPath.started at hle hsel
  rw [hfsm] at hread hle hsel
  simp only at hread hle hsel
  have hlth := b.read.hRead.isLt
  have hltv := b.read.vRead.isLt
  refine ⟨bankAdr_inj.2 ⟨?_, ?_⟩, hread, by omega⟩
  · rw [hsel, decide_eq_decide]
    omega
  · rw [← BitVec.toNat_inj, BitVec.toNat_ofNat]
    omega

/-- The pixel at the source is the next one of the stream. -/
theorem Buffered.offered (h : Buffered words out b) (hvalid : b.sourceValid = true) :
    (stream words)[out.length]? = some (b.sourceData, b.sourceLast) := by
  have hfsm : b.read.fsm = .read := by simpa [Buffer.sourceValid] using hvalid
  obtain ⟨hadr, hat, hfilled⟩ := h.bank_filled hvalid
  have hlth := b.read.hRead.isLt
  have hltv := b.read.vRead.isLt
  have hin : out.length / 8 < words.length := by omega
  have hword := h.stored _ _ (List.getElem?_eq_getElem hin) (by omega)
  have hblock : out.length / 8 / 8 = out.length / 64 := Nat.div_div_eq_div_mul _ _ _
  rw [hblock, ← hadr] at hword
  have hh : out.length % 8 = b.read.hRead.toNat := by omega
  have hlast : b.sourceLast = decide (out.length % 64 = 63) := by
    unfold Buffer.sourceLast
    rw [hfsm, Bool.eq_iff_iff]
    simp only [decide_true, Bool.true_and, Bool.and_eq_true, decide_eq_true_eq, three_eq_seven]
    omega
  rw [stream_getElem?, List.getElem?_eq_getElem hin, Option.map_some, hlast, Buffer.sourceData, hword, hh]

theorem Buffered.stored_cycle (h : Buffered words out b) (i : BufferInput) {k : Nat} {word : BitVec 128}
    (hk : (words ++ b.accept i)[k]? = some word) (hge : out.length / 64 * 8 ≤ k) :
    (b.cycle i).mem (bankAdr (decide (k / 8 % 2 = 1)) (BitVec.ofNat 3 k)) = word := by
  unfold Buffer.accept at hk
  cases htake : i.valid && b.sinkReady with
  | false =>
    have hmem : (b.cycle i).mem = b.mem := by simp [Buffer.cycle, htake]
    rw [htake] at hk
    rw [hmem]
    exact h.stored k word (by simpa using hk) hge
  | true =>
    obtain ⟨hadr, hfree⟩ := h.bank_free (Bool.and_eq_true_iff.1 htake).2
    have hmem : (b.cycle i).mem =
        Function.update b.mem (bankAdr (decide (words.length / 8 % 2 = 1)) (BitVec.ofNat 3 words.length)) i.data := by
      rw [← hadr]
      simp [Buffer.cycle, htake]
    rw [htake, if_pos rfl] at hk
    rw [hmem]
    rcases Nat.lt_or_ge k words.length with hold | hnew
    · rw [List.getElem?_append_left hold] at hk
      -- the bank's other words are those of its own fill
      have hne : bankAdr (decide (k / 8 % 2 = 1)) (BitVec.ofNat 3 k) ≠
          bankAdr (decide (words.length / 8 % 2 = 1)) (BitVec.ofNat 3 words.length) := by
        intro heq
        obtain ⟨hbank, hline⟩ := bankAdr_inj.1 heq
        rw [decide_eq_decide] at hbank
        rw [← BitVec.toNat_inj, BitVec.toNat_ofNat, BitVec.toNat_ofNat] at hline
        omega
      rw [Function.update_of_ne hne]
      exact h.stored k word hk hge
    · rw [List.getElem?_append_right hnew] at hk
      obtain ⟨hzero, hdata⟩ := List.getElem?_eq_some_iff.1 hk
      have hlen : k = words.length := by
        rw [List.length_singleton] at hzero
        omega
      rw [hlen, Function.update_self]
      simpa using hdata

theorem length_accept (words : List (BitVec 128)) (b : Buffer) (i : BufferInput) :
    (words ++ b.accept i).length = if i.valid && b.write.fsm = .write then words.length + 1 else words.length := by
  unfold Buffer.accept Buffer.sinkReady
  split <;> simp

theorem length_emit (out : List (BitVec 16 × Bool)) (b : Buffer) (i : BufferInput) :
    (out ++ b.emit i).length = if b.read.fsm = .read && i.ready then out.length + 1 else out.length := by
  unfold Buffer.emit Buffer.sourceValid
  split <;> simp

/-- The reader swaps onto a bank that has been filled. -/
theorem Buffered.starts (h : Buffered words out b) (hswap : b.read.swap (b.readSel == b.writeSel) = true) :
    words.length / 8 = b.read.started out.length + 1 := by
  have hfilled : (b.readSel == b.writeSel) = true := by
    unfold ReadPath.swap at hswap
    cases hfsm : b.read.fsm <;> rw [hfsm] at hswap <;> simp_all
  rw [h.banks.filled] at hfilled
  exact of_decide_eq_true hfilled

/-- The writer swaps onto a bank that is free. -/
theorem Buffered.fills (h : Buffered words out b) (valid : Bool) (hswap : b.write.swap valid = true) :
    words.length / 8 = b.read.started out.length := by
  have hwrite := h.write
  unfold WritePath.swap at hswap
  unfold WritePath.At at hwrite
  cases hfsm : b.write.fsm <;> rw [hfsm] at hswap hwrite
  · simp at hswap
  · exact hwrite.1

theorem Buffered.given_cycle (h : Buffered words out b) (i : BufferInput) :
    out ++ b.emit i <+: stream (words ++ b.accept i) := by
  have hout := h.given.trans (stream_of_isPrefix words (b.accept i))
  unfold Buffer.emit
  cases hgive : b.sourceValid && i.ready with
  | false => simpa using hout
  | true =>
    obtain ⟨x, hx⟩ := stream_of_isPrefix words (b.accept i)
    have hnext := h.offered (Bool.and_eq_true_iff.1 hgive).1
    refine prefix_snoc hout ?_
    rw [← hx, List.getElem?_append_left (List.getElem?_eq_some_iff.1 hnext).1]
    exact hnext

/-- **One cycle.** -/
theorem Buffered.cycle (h : Buffered words out b) (i : BufferInput) :
    Buffered (words ++ b.accept i) (out ++ b.emit i) (b.cycle i) := by
  obtain ⟨hread, hstarted⟩ := h.read.cycle (b.readSel == b.writeSel) i.ready
  rw [← length_emit] at hread hstarted
  have hkeep : words.length / 8 = b.read.started out.length →
      (b.cycle i).read.started (out ++ b.emit i).length = b.read.started out.length := by
    intro hnone
    refine hstarted.trans (if_neg fun hswap => ?_)
    have := h.starts hswap
    omega
  obtain ⟨hwrite, hfilled⟩ := h.write.cycle hkeep i.valid
  rw [← length_accept, ← h.banks.free] at hwrite
  rw [← length_accept] at hfilled
  refine ⟨?_, hwrite, hread, fun k word hk hge => h.stored_cycle i hk (le_trans ?_ hge), h.given_cycle i⟩
  · have hbanks := h.banks.swap (h.fills i.valid) h.starts
    rw [← hfilled, ← hstarted] at hbanks
    exact hbanks
  · rw [List.length_append]
    exact Nat.mul_le_mul_right _ (Nat.div_le_div_right (Nat.le_add_right _ _))

/-- The pixels that are still to come of the first `t` banks, and the banks of them still to begin. -/
def ReadPath.work (r : ReadPath) (t e : Nat) : Nat := t * 64 - e + (t - r.started e)

/-- A cycle with the source ready takes one off the work. -/
theorem Buffered.work_cycle (h : Buffered words out b) {t : Nat} (ht : t ≤ words.length / 8) (i : BufferInput) :
    (b.cycle i).read.work t (out ++ b.emit i).length ≤
      b.read.work t out.length - if i.ready then 1 else 0 := by
  have hge := h.banks.ge
  have hle := h.banks.le
  have hfilled := h.banks.filled
  obtain ⟨-, hstarted⟩ := h.read.cycle (b.readSel == b.writeSel) i.ready
  rw [← length_emit] at hstarted
  change (b.cycle i).read.started (out ++ b.emit i).length = _ at hstarted
  unfold ReadPath.work
  rw [hstarted, length_emit, hfilled]
  have hat := h.read
  unfold ReadPath.At at hat
  unfold ReadPath.started ReadPath.swap at *
  cases hfsm : b.read.fsm <;> rw [hfsm] at hat hge hle <;> simp only at hat hge hle ⊢
  · -- an idle reader begins the next bank if there is one
    by_cases hwait : words.length / 8 = out.length / 64 + 1
    · cases i.ready <;> simp [hwait] <;> omega
    · cases i.ready <;> simp [hwait]; omega
  · cases i.ready <;> simp; omega

theorem Buffered.run : ∀ (is : List BufferInput) {words : List (BitVec 128)} {out : List (BitVec 16 × Bool)}
    {b : Buffer}, Buffered words out b →
      Buffered (words ++ b.accepted is) (out ++ b.emitted is) (is.foldl Buffer.cycle b)
  | [], _, _, _, h => by simpa [Buffer.accepted, Buffer.emitted] using h
  | i :: is, _, _, _, h => by
    have hrest := Buffered.run is (h.cycle i)
    rw [List.append_assoc, List.append_assoc] at hrest
    exact hrest

end Buffered

/-- Whatever the stalls, the pixels of the first `t` filled banks come out. -/
theorem Buffered.drain {t : Nat} : ∀ (is : List BufferInput) {words : List (BitVec 128)}
    {out : List (BitVec 16 × Bool)} {b : Buffer}, Buffered words out b → t ≤ words.length / 8 →
      b.read.work t out.length ≤ is.countP (·.ready) → t * 64 ≤ (out ++ b.emitted is).length
  | [], words, out, b, _, _, hwork => by
    unfold ReadPath.work at hwork
    rw [List.countP_nil] at hwork
    rw [Buffer.emitted, List.append_nil]
    omega
  | i :: is, words, out, b, h, ht, hwork => by
    have hstep := h.work_cycle ht i
    have ht' : t ≤ (words ++ b.accept i).length / 8 := by
      rw [List.length_append]
      exact ht.trans (Nat.div_le_div_right (Nat.le_add_right _ _))
    rw [List.countP_cons] at hwork
    have hrest := Buffered.drain is (h.cycle i) ht' (by omega)
    rw [List.append_assoc] at hrest
    exact hrest

/-- At most two banks are in the buffer, and one is still to begin. -/
theorem Buffered.work_le (h : Buffered words out b) : b.read.work (words.length / 8) out.length ≤ 129 := by
  have hge := h.banks.ge
  have hat := h.read
  unfold ReadPath.At at hat
  unfold ReadPath.work
  unfold ReadPath.started at hge ⊢
  cases hfsm : b.read.fsm <;> rw [hfsm] at hat hge <;> simp only at hat hge ⊢ <;> omega

theorem Buffered.reset (mem : BitVec 4 → BitVec 128) : Buffered [] [] (Buffer.reset mem) :=
  ⟨⟨rfl, rfl, le_rfl, Nat.le_succ _⟩, rfl, rfl, fun k word hk => by simp at hk, List.nil_prefix⟩

theorem Buffer.emitted_append : ∀ (is js : List BufferInput) (b : Buffer),
    b.emitted (is ++ js) = b.emitted is ++ (is.foldl Buffer.cycle b).emitted js
  | [], _, _ => rfl
  | i :: is, js, b => by
    rw [List.cons_append, Buffer.emitted, Buffer.emitted_append is js, Buffer.emitted, List.append_assoc, List.foldl_cons]

theorem Buffer.accepted_append : ∀ (is js : List BufferInput) (b : Buffer),
    b.accepted (is ++ js) = b.accepted is ++ (is.foldl Buffer.cycle b).accepted js
  | [], _, _ => rfl
  | i :: is, js, b => by
    rw [List.cons_append, Buffer.accepted, Buffer.accepted_append is js, Buffer.accepted, List.append_assoc,
      List.foldl_cons]

/-! ## The sink -/

section Sink

variable {words : List (BitVec 128)} {out : List (BitVec 16 × Bool)} {b : Buffer}

theorem Buffer.accepted_of_ready (hready : b.sinkReady = true) {k : BufferInput} (hvalid : k.valid = true)
    (ks : List BufferInput) : b.accepted (k :: ks) ≠ [] := by
  simp [Buffer.accepted, Buffer.accept, hready, hvalid]

theorem Buffer.accepted_of_cycle {k : BufferInput} {ks : List BufferInput} (h : (b.cycle k).accepted ks ≠ []) :
    b.accepted (k :: ks) ≠ [] := by
  simp [Buffer.accepted, h]

/-- When every filled bank has been begun, the writer is ready or will be in the next cycle. -/
theorem Buffered.ready_of_begun (h : Buffered words out b) (hbegun : words.length / 8 = b.read.started out.length)
    (k : BufferInput) : b.sinkReady = true ∨ (b.cycle k).sinkReady = true := by
  unfold Buffer.sinkReady
  cases hfsm : b.write.fsm with
  | write => exact Or.inl rfl
  | idle =>
    right
    have hfree : (b.writeSel != b.readSel) = true := by rw [h.banks.free, decide_eq_true hbegun]
    simp [Buffer.cycle, WritePath.cycle, hfsm, hfree]

/-- When a bank is free, every filled bank has been begun, or will have been in the next cycle. -/
theorem Buffered.begun_of_free (h : Buffered words out b) (hfree : words.length / 8 * 64 ≤ out.length + 64)
    (k : BufferInput) : words.length / 8 = b.read.started out.length ∨
      (words ++ b.accept k).length / 8 = (b.cycle k).read.started (out ++ b.emit k).length := by
  have hle := h.banks.le
  by_cases hbegun : words.length / 8 = b.read.started out.length
  · exact Or.inl hbegun
  · right
    have hfsm : b.read.fsm = .idle := by
      cases hread : b.read.fsm with
      | idle => rfl
      | read =>
        simp only [ReadPath.started, hread] at hle hbegun
        omega
    have hone : words.length / 8 = b.read.started out.length + 1 := by
      simp only [ReadPath.started, hfsm] at hle hbegun ⊢
      omega
    obtain ⟨-, hstarted⟩ := h.read.cycle (b.readSel == b.writeSel) k.ready
    rw [← length_emit, h.banks.filled, decide_eq_true hone] at hstarted
    have hidle : b.write.fsm = .idle := by
      have hwrite := h.write
      unfold WritePath.At at hwrite
      cases hfsm' : b.write.fsm with
      | idle => rfl
      | write =>
        rw [hfsm'] at hwrite
        exact absurd hwrite.1 hbegun
    have hnone : b.accept k = [] := by simp [Buffer.accept, Buffer.sinkReady, hidle]
    have hswap : b.read.swap true = true := by simp [ReadPath.swap, hfsm]
    rw [hnone, List.append_nil, hone]
    rw [if_pos hswap, ← decide_eq_true hone, ← h.banks.filled] at hstarted
    exact hstarted.symm

/-- A word that is offered while a bank is free is taken within three cycles. -/
theorem Buffered.accepts (h : Buffered words out b) (hfree : words.length / 8 * 64 ≤ out.length + 64) :
    ∀ ks : List BufferInput, 3 ≤ ks.length → (∀ k ∈ ks, k.valid = true) → b.accepted ks ≠ []
  | [], hlen, _ => absurd hlen (by decide)
  | [_], hlen, _ => absurd (Nat.le_of_succ_le_succ hlen) (Nat.not_succ_le_zero 1)
  | [_, _], hlen, _ => absurd hlen (Nat.lt_irrefl 2)
  | k₁ :: k₂ :: k₃ :: ks, _, hvalid => by
    have hvalid₁ : k₁.valid = true := hvalid _ (by simp)
    have hvalid₂ : k₂.valid = true := hvalid _ (by simp)
    have hvalid₃ : k₃.valid = true := hvalid _ (by simp)
    rcases h.begun_of_free hfree k₁ with hbegun | hbegun
    · rcases h.ready_of_begun hbegun k₁ with hready | hready
      · exact Buffer.accepted_of_ready hready hvalid₁ _
      · exact Buffer.accepted_of_cycle (Buffer.accepted_of_ready hready hvalid₂ _)
    · rcases (h.cycle k₁).ready_of_begun hbegun k₂ with hready | hready
      · exact Buffer.accepted_of_cycle (Buffer.accepted_of_ready hready hvalid₂ _)
      · exact Buffer.accepted_of_cycle (Buffer.accepted_of_cycle (Buffer.accepted_of_ready hready hvalid₃ _))

/-- Once the source has been ready for 129 cycles a bank is free, so a word has been taken or is within three cycles. -/
theorem Buffered.accepts_drained (h : Buffered words out b) {js ks : List BufferInput}
    (hjs : 129 ≤ js.countP (·.ready)) (hlen : 3 ≤ ks.length) (hvalid : ∀ k ∈ ks, k.valid = true) :
    b.accepted (js ++ ks) ≠ [] := by
  rw [Buffer.accepted_append]
  by_cases hnone : b.accepted js = []
  · have hdrained := h.drain js le_rfl (h.work_le.trans hjs)
    have hrun := h.run js
    rw [hnone, List.append_nil] at hrun
    rw [hnone, List.nil_append]
    exact hrun.accepts (hdrained.trans (Nat.le_add_right _ _)) ks hlen hvalid
  · simp [hnone]

end Sink

/-- **The buffer gives the pixels of its words.**  After any run the source has given the first pixels of the words taken,
in order, each 64th with `last`, and a pixel at the source is the next one.  A word goes into a bank whose pixels before
are all out, a pixel comes from a bank that is full; and the pixels of every full bank come out once the source has been
ready for 129 cycles.  A word that is offered while a bank is free is taken within three cycles, and once the source has
been ready for 129 cycles a bank is free. -/
theorem buffer_stream (mem : BitVec 4 → BitVec 128) (is : List BufferInput) :
    let b := is.foldl Buffer.cycle (Buffer.reset mem)
    let words := (Buffer.reset mem).accepted is
    let out := (Buffer.reset mem).emitted is
    out <+: stream words ∧
      (b.sourceValid = true → (stream words)[out.length]? = some (b.sourceData, b.sourceLast)) ∧
      (b.sinkReady = true → b.writeSel = decide (words.length / 8 % 2 = 1) ∧
        words.length / 8 * 64 ≤ out.length + 64) ∧
      (b.sourceValid = true → b.readSel = decide (out.length / 64 % 2 = 1) ∧
        (out.length / 64 + 1) * 8 ≤ words.length) ∧
      (∀ js : List BufferInput, 129 ≤ js.countP (·.ready) →
        words.length / 8 * 64 ≤ ((Buffer.reset mem).emitted (is ++ js)).length) ∧
      ∀ ks : List BufferInput, 3 ≤ ks.length → (∀ k ∈ ks, k.valid = true) →
        (words.length / 8 * 64 ≤ out.length + 64 → b.accepted ks ≠ []) ∧
        ∀ js : List BufferInput, 129 ≤ js.countP (·.ready) → b.accepted (js ++ ks) ≠ [] := by
  intro b words out
  have h : Buffered words out b := Buffered.run is (Buffered.reset mem)
  refine ⟨h.given, h.offered, fun hready => ?_, fun hvalid => ?_, fun js hjs => ?_, fun ks hlen hks => ⟨?_, ?_⟩⟩
  · exact ⟨h.banks.writeSel, (h.bank_free hready).2⟩
  · obtain ⟨hadr, -, hfilled⟩ := h.bank_filled hvalid
    exact ⟨(bankAdr_inj.1 hadr).1, hfilled⟩
  · rw [Buffer.emitted_append]
    exact h.drain js le_rfl (h.work_le.trans hjs)
  · intro hfree
    exact h.accepts hfree ks hlen hks
  · intro js hjs
    exact h.accepts_drained hjs hlen hks

/-- Nine words, offered from reset on while the source is ready: the first eight come out as 64 pixels, and the ninth
goes into the other bank. -/
theorem buffer_stream_bank :
    let word : Nat → BitVec 128 := fun k => BitVec.ofNat 128 (k + 1)
    let is := (List.range 76).map fun k => { data := word (k - 1), valid := k < 12, ready := true : BufferInput }
    let out := (Buffer.reset fun _ => 0).emitted is
    (Buffer.reset fun _ => 0).accepted is = (List.range 8).map word ++ [word 10] ∧
      out = stream ((List.range 8).map word) ∧ out.length = 64 ∧
      out <+: stream ((Buffer.reset fun _ => 0).accepted is) := by
  intro word is out
  exact ⟨by decide +kernel, by decide +kernel, by decide +kernel, (buffer_stream (fun _ => 0) is).1⟩

end Encoder
end Hdmi2Usb
