import Hdmi2Usb.Memory
import Hdmi2Usb.Runs
/-!
# Spram — the single-port RAM on the Wishbone bus (`ice40.py`)

A word of the bus is split over two blocks of 16-bit cells, or over two of four by bit 14 of the address.  The write
enable goes to every block; what is not to be written has its mask off.  The acknowledgement is a register, and while it
is high the request is still there, so every access is made twice.  To the bytes that makes no difference: the module
answers as a flat memory does (`flat_memory`).
-/
namespace Hdmi2Usb
namespace Spram

/-! ## The blocks -/

/-- `SB_SPRAM256KA`: 16K cells, and the register of what was read last. -/
structure Block where
  cells   : BitVec 14 → BitVec 16
  dataout : BitVec 16

def nibble (maskwren : BitVec 4) (old new : BitVec 16) (j : Nat) : BitVec 4 :=
  (if maskwren.getLsbD j then new else old).extractLsb' (4 * j) 4

/-- A cell with some of its nibbles replaced. -/
def merge (maskwren : BitVec 4) (old new : BitVec 16) : BitVec 16 :=
  nibble maskwren old new 3 ++ nibble maskwren old new 2 ++ nibble maskwren old new 1 ++ nibble maskwren old new 0

/-- A clock cycle of a block.  `undriven` is what the output becomes when the cycle writes. -/
def Block.step (b : Block) (address : BitVec 14) (datain : BitVec 16) (maskwren : BitVec 4) (wren : Bool)
    (undriven : BitVec 16) : Block :=
  if wren then
    { cells := Function.update b.cells address (merge maskwren (b.cells address) datain), dataout := undriven }
  else { b with dataout := b.cells address }

/-! ## The module -/

/-- `size` -/
inductive Size
  | kB64
  | kB128
deriving DecidableEq

def Size.words : Size → Nat
  | .kB64  => 2 ^ 14
  | .kB128 => 2 ^ 15

/-- The signals of the bus that a master drives.  A request is for a word of the memory. -/
structure Bus (size : Size) where
  cyc     : Bool
  stb     : Bool
  we      : Bool
  sel     : BitVec 4
  adr     : BitVec 30
  datW    : BitVec 32
  inRange : (cyc && stb) = true → adr.toNat < size.words

def Bus.request {size : Size} (bus : Bus size) : Bool := bus.cyc && bus.stb

structure Ram where
  /-- By the half of the word and the depth; 64 kB use depth 0 only. -/
  block : Nat → Nat → Block
  ack   : Bool

section

variable {size : Size} (bus : Bus size) (ram : Ram)

def datain (i : Nat) : BitVec 16 := bus.datW.extractLsb' (16 * i) 16

def maskwren (i : Nat) : BitVec 4 :=
  (BitVec.ofBool (bus.sel.getLsbD (2 * i + 1))).replicate 2 ++ (BitVec.ofBool (bus.sel.getLsbD (2 * i))).replicate 2

def wren : Bool := bus.we && bus.stb && bus.cyc

/-- Whether the data and the mask go to the blocks of a depth. -/
def routed (k : Nat) : Bool :=
  match size with
  | .kB64  => k = 0
  | .kB128 => if bus.adr.getLsbD 14 then k = 1 else k = 0

def dataout (i : Nat) : BitVec 16 :=
  match size with
  | .kB64  => (ram.block i 0).dataout
  | .kB128 => if bus.adr.getLsbD 14 then (ram.block i 1).dataout else (ram.block i 0).dataout

def datR : BitVec 32 := dataout bus ram 1 ++ dataout bus ram 0

def Ram.step (undriven : Nat → Nat → BitVec 16) : Ram where
  block i k := (ram.block i k).step (bus.adr.extractLsb' 0 14) (if routed bus k then datain bus i else 0)
    (if routed bus k then maskwren bus i else 0) (wren bus) (undriven i k)
  ack := bus.stb && bus.cyc && !ram.ack

end

/-! ## Master and module -/

/-- A request with what was on `dat_r` when it was acknowledged. -/
structure Answer (size : Size) where
  bus : Bus size
  dat : BitVec 32

structure System (size : Size) where
  ram   : Ram
  /-- What the master drives in this cycle. -/
  bus   : Bus size
  /-- The requests so far, those that are answered, and the cycles with an acknowledgement. -/
  asked : List (Bus size)
  done  : List (Answer size)
  acks  : Nat

/-- What the master drives next once it is free to, and what the blocks' outputs become when they write. -/
structure Input (size : Size) where
  bus      : Bus size
  undriven : Nat → Nat → BitVec 16

section

variable {size : Size}

/-- One clock cycle.  A classic master holds its request until it sees the acknowledgement. -/
def System.step (s : System size) (i : Input size) : System size :=
  let hold := s.bus.request && !s.ram.ack
  { ram   := s.ram.step s.bus i.undriven
    bus   := if hold then s.bus else i.bus
    asked := if !hold && i.bus.request then s.asked ++ [i.bus] else s.asked
    done  := if s.bus.request && s.ram.ack then s.done ++ [⟨s.bus, datR s.bus s.ram⟩] else s.done
    acks  := s.acks + s.ram.ack.toNat }

def Bus.idle : Bus size where
  cyc     := false
  stb     := false
  we      := false
  sel     := 0
  adr     := 0
  datW    := 0
  inRange := by simp

/-- After a reset, with anything in the blocks. -/
def System.reset (block : Nat → Nat → Block) : System size := ⟨⟨block, false⟩, .idle, [], [], 0⟩

/-! ## A flat memory -/

/-- Lane `k` of a word is the byte at four times its address, and `k`. -/
def write (m : Nat → Byte) (bus : Bus size) : Nat → Byte := fun a =>
  if bus.we ∧ a / 4 = bus.adr.toNat ∧ bus.sel.getLsbD (a % 4) then bus.datW.extractLsb' (8 * (a % 4)) 8 else m a

/-- The answers are those of a flat memory that begins as `m`. -/
def Answered : (Nat → Byte) → List (Answer size) → Prop
  | _, []        => True
  | m, x :: done =>
    (x.bus.we = false → ∀ k < 4, x.dat.extractLsb' (8 * k) 8 = m (4 * x.bus.adr.toNat + k)) ∧ Answered (write m x.bus) done

/-- The byte at an address, in the cell that holds it. -/
def memory (ram : Ram) (a : Nat) : Byte :=
  ((ram.block (a % 4 / 2) (a / 4 / 2 ^ 14)).cells (BitVec.ofNat 14 (a / 4))).extractLsb' (8 * (a % 2)) 8

end

/-! ## What a cycle does to the bytes -/

theorem getLsbD_merge (mask : BitVec 4) (old new : BitVec 16) {i : Nat} (h : i < 16) :
    (merge mask old new).getLsbD i = if mask.getLsbD (i / 4) then new.getLsbD i else old.getLsbD i := by
  have hnibble : ∀ j, 4 * j ≤ i → i < 4 * j + 4 → (nibble mask old new j).getLsbD (i - 4 * j) =
      if mask.getLsbD (i / 4) then new.getLsbD i else old.getLsbD i := by
    intro j h1 h2
    have hj : i / 4 = j := by omega
    have hlt : i - 4 * j < 4 := by omega
    rw [nibble, BitVec.getLsbD_extractLsb', hj, decide_eq_true hlt, Bool.true_and, Nat.add_sub_cancel' h1]
    split <;> rfl
  rw [merge, BitVec.getLsbD_append, BitVec.getLsbD_append, BitVec.getLsbD_append]
  split
  next h0 => exact hnibble 0 (by omega) (by omega)
  next h0 =>
    split
    next h1 => exact hnibble 1 (by omega) (by omega)
    next h1 =>
      split
      next h2 =>
        have hsub : i - 4 - 4 = i - 4 * 2 := by omega
        rw [hsub]
        exact hnibble 2 (by omega) (by omega)
      next h2 =>
        have hsub : i - 4 - 4 - 4 = i - 4 * 3 := by omega
        rw [hsub]
        exact hnibble 3 (by omega) (by omega)

/-- A byte of a cell is two nibbles. -/
theorem byte_merge {mask : BitVec 4} {old new : BitVec 16} {b : Nat} {x : Bool} (hb : b < 2)
    (hlo : mask.getLsbD (2 * b) = x) (hhi : mask.getLsbD (2 * b + 1) = x) :
    (merge mask old new).extractLsb' (8 * b) 8 = if x then new.extractLsb' (8 * b) 8 else old.extractLsb' (8 * b) 8 := by
  apply BitVec.eq_of_getLsbD_eq
  intro i hi
  have hmask : mask.getLsbD ((8 * b + i) / 4) = x := by
    have hnibble : (8 * b + i) / 4 = 2 * b ∨ (8 * b + i) / 4 = 2 * b + 1 := by omega
    rcases hnibble with heq | heq
    · rw [heq, hlo]
    · rw [heq, hhi]
  rw [BitVec.getLsbD_extractLsb', getLsbD_merge _ _ _ (by omega), hmask]
  cases x <;> simp

theorem byte_merge_zero (old new : BitVec 16) {b : Nat} (hb : b < 2) :
    (merge 0 old new).extractLsb' (8 * b) 8 = old.extractLsb' (8 * b) 8 :=
  byte_merge (x := false) hb (by simp) (by simp)

section

variable {size : Size} {bus : Bus size} {ram : Ram}

theorem maskwren_eq (bus : Bus size) (i : Nat) {b : Nat} (hb : b < 2) :
    (maskwren bus i).getLsbD (2 * b) = bus.sel.getLsbD (2 * i + b) ∧
      (maskwren bus i).getLsbD (2 * b + 1) = bus.sel.getLsbD (2 * i + b) := by
  have hcases : b = 0 ∨ b = 1 := by omega
  unfold maskwren
  rcases hcases with rfl | rfl
  · simp only [Nat.add_zero]
    generalize bus.sel.getLsbD (2 * i) = lo, bus.sel.getLsbD (2 * i + 1) = hi
    revert lo hi
    decide
  · generalize bus.sel.getLsbD (2 * i) = lo, bus.sel.getLsbD (2 * i + 1) = hi
    revert lo hi
    decide

theorem byte_datain (bus : Bus size) (i : Nat) {b : Nat} (hb : b < 2) :
    (datain bus i).extractLsb' (8 * b) 8 = bus.datW.extractLsb' (8 * (2 * i + b)) 8 := by
  apply BitVec.eq_of_getLsbD_eq
  intro n hn
  have hlt : 8 * b + n < 16 := by omega
  have hbit : 16 * i + (8 * b + n) = 8 * (2 * i + b) + n := by omega
  rw [datain, BitVec.getLsbD_extractLsb', BitVec.getLsbD_extractLsb', BitVec.getLsbD_extractLsb', decide_eq_true hlt,
    Bool.true_and, hbit]

theorem byte_datR (bus : Bus size) (ram : Ram) {k : Nat} (hk : k < 4) :
    (datR bus ram).extractLsb' (8 * k) 8 = (dataout bus ram (k / 2)).extractLsb' (8 * (k % 2)) 8 := by
  apply BitVec.eq_of_getLsbD_eq
  intro n hn
  rw [BitVec.getLsbD_extractLsb', BitVec.getLsbD_extractLsb', datR, BitVec.getLsbD_append]
  by_cases hlow : k < 2
  · have hhalf : k / 2 = 0 := by omega
    have hbyte : k % 2 = k := by omega
    rw [if_pos (by omega), hhalf, hbyte]
  · have hhalf : k / 2 = 1 := by omega
    have hbyte : 8 * k + n - 16 = 8 * (k % 2) + n := by omega
    rw [if_neg (by omega), hhalf, hbyte]

theorem write_of_ne (m : Nat → Byte) {a : Nat} (h : a / 4 ≠ bus.adr.toNat) : write m bus a = m a :=
  if_neg fun hc => h hc.2.1

theorem write_of_read (m : Nat → Byte) (h : bus.we = false) : write m bus = m := by
  funext a
  rw [write, h, if_neg (by simp)]

theorem write_of_eq (m : Nat → Byte) {a : Nat} (h : a / 4 = bus.adr.toNat) (hwe : bus.we = true) :
    write m bus a = if bus.sel.getLsbD (a % 4) then bus.datW.extractLsb' (8 * (a % 4)) 8 else m a := by
  rw [write, hwe]
  simp only [h, true_and]

/-- A request that is made twice writes what it has written. -/
theorem write_write (m : Nat → Byte) (bus : Bus size) : write (write m bus) bus = write m bus := by
  funext a
  by_cases h : bus.we ∧ a / 4 = bus.adr.toNat ∧ bus.sel.getLsbD (a % 4)
  · rw [write, if_pos h, write, if_pos h]
  · rw [write, if_neg h]

theorem wren_eq (h : bus.request = true) : wren bus = bus.we := by
  rw [Bus.request, Bool.and_eq_true] at h
  rw [wren, h.1, h.2, Bool.and_true, Bool.and_true]

theorem wren_of_not_request (h : bus.request = false) : wren bus = false := by
  rw [Bus.request, Bool.and_eq_false_iff] at h
  rcases h with h | h <;> rw [wren, h] <;> simp

theorem toNat_address (bus : Bus size) : (bus.adr.extractLsb' 0 14).toNat = bus.adr.toNat % 2 ^ 14 := by
  rw [BitVec.extractLsb'_toNat, Nat.shiftRight_zero]

/-- Of the blocks whose address fits, the ones of the word's own depth get the data. -/
theorem routed_iff (h : bus.request = true) {w : Nat} (hw : w < size.words) (hmod : w % 2 ^ 14 = bus.adr.toNat % 2 ^ 14) :
    routed bus (w / 2 ^ 14) = true ↔ w = bus.adr.toNat := by
  have hadr := bus.inRange h
  cases size with
  | kB64 =>
    simp only [Size.words] at hadr hw
    simp only [routed, decide_eq_true_eq]
    omega
  | kB128 =>
    simp only [Size.words] at hadr hw
    have hbit : bus.adr.getLsbD 14 = decide (bus.adr.toNat / 2 ^ 14 % 2 = 1) := Nat.testBit_eq_decide_div_mod_eq
    simp only [routed, hbit]
    split <;> simp only [decide_eq_true_eq] at * <;> omega

theorem block_of_read (h : wren bus = false) (undriven : Nat → Nat → BitVec 16) (i k : Nat) :
    (ram.step bus undriven).block i k =
      ⟨(ram.block i k).cells, (ram.block i k).cells (bus.adr.extractLsb' 0 14)⟩ := by
  rw [Ram.step, h]
  rfl

theorem cells_of_write (h : wren bus = true) (undriven : Nat → Nat → BitVec 16) (i k : Nat) :
    ((ram.step bus undriven).block i k).cells = Function.update (ram.block i k).cells (bus.adr.extractLsb' 0 14)
      (merge (if routed bus k then maskwren bus i else 0) ((ram.block i k).cells (bus.adr.extractLsb' 0 14))
        (if routed bus k then datain bus i else 0)) := by
  rw [Ram.step, h]
  rfl

/-- **A request** does to the bytes what it does to those of the flat memory. -/
theorem memory_step (h : bus.request = true) (undriven : Nat → Nat → BitVec 16) {a : Nat} (ha : a < 4 * size.words) :
    memory (ram.step bus undriven) a = write (memory ram) bus a := by
  have hw : a / 4 < size.words := by omega
  have hlane : 2 * (a % 4 / 2) + a % 2 = a % 4 := by omega
  have hb : a % 2 < 2 := Nat.mod_lt a (by decide)
  have hwren := wren_eq h
  cases hwe : bus.we with
  | false =>
    rw [hwe] at hwren
    rw [memory, block_of_read hwren, write_of_read _ hwe, memory]
  | true =>
    rw [hwe] at hwren
    rw [memory, cells_of_write hwren]
    by_cases haddr : BitVec.ofNat 14 (a / 4) = bus.adr.extractLsb' 0 14
    · have hmod : a / 4 % 2 ^ 14 = bus.adr.toNat % 2 ^ 14 := by
        rw [← toNat_address, ← haddr, BitVec.toNat_ofNat]
      have hrouted := routed_iff h hw hmod
      obtain ⟨hlo, hhi⟩ := maskwren_eq bus (a % 4 / 2) hb
      rw [hlane] at hlo hhi
      rw [haddr, Function.update_self]
      by_cases hword : a / 4 = bus.adr.toNat
      · rw [if_pos (hrouted.2 hword), if_pos (hrouted.2 hword), byte_merge hb hlo hhi, byte_datain bus _ hb, hlane,
          write_of_eq _ hword hwe, memory, haddr]
      · rw [if_neg (mt hrouted.1 hword), if_neg (mt hrouted.1 hword), byte_merge_zero _ _ hb, write_of_ne _ hword, memory,
          haddr]
    · have hword : a / 4 ≠ bus.adr.toNat := by
        intro heq
        apply haddr
        apply BitVec.eq_of_toNat_eq
        rw [toNat_address, BitVec.toNat_ofNat, heq]
      rw [write_of_ne _ hword, Function.update_of_ne haddr, memory]

/-- Without one they stay. -/
theorem memory_idle (h : bus.request = false) (undriven : Nat → Nat → BitVec 16) :
    memory (ram.step bus undriven) = memory ram := by
  funext a
  rw [memory, block_of_read (wren_of_not_request h), memory]

/-- What a read leaves in the blocks' outputs. -/
theorem byte_read (h : bus.request = true) (hwe : bus.we = false) (undriven : Nat → Nat → BitVec 16) {k : Nat}
    (hk : k < 4) :
    (datR bus (ram.step bus undriven)).extractLsb' (8 * k) 8 = memory ram (4 * bus.adr.toNat + k) := by
  have hwren := wren_eq h
  rw [hwe] at hwren
  have hadr := bus.inRange h
  have hword : (4 * bus.adr.toNat + k) / 4 = bus.adr.toNat := by omega
  have hhalf : (4 * bus.adr.toNat + k) % 4 / 2 = k / 2 := by omega
  have hbyte : (4 * bus.adr.toNat + k) % 2 = k % 2 := by omega
  have haddr : BitVec.ofNat 14 bus.adr.toNat = bus.adr.extractLsb' 0 14 := by
    apply BitVec.eq_of_toNat_eq
    rw [toNat_address, BitVec.toNat_ofNat]
  have hdata : dataout bus (ram.step bus undriven) (k / 2) =
      (ram.block (k / 2) (bus.adr.toNat / 2 ^ 14)).cells (bus.adr.extractLsb' 0 14) := by
    cases size with
    | kB64 =>
      have hdepth : bus.adr.toNat / 2 ^ 14 = 0 := Nat.div_eq_of_lt hadr
      simp only [dataout, block_of_read hwren, hdepth]
    | kB128 =>
      have hlt : bus.adr.toNat < 2 ^ 15 := hadr
      have hbit : bus.adr.getLsbD 14 = decide (bus.adr.toNat / 2 ^ 14 % 2 = 1) := Nat.testBit_eq_decide_div_mod_eq
      simp only [dataout, block_of_read hwren, hbit, decide_eq_true_eq]
      split
      next hdeep =>
        have hdepth : bus.adr.toNat / 2 ^ 14 = 1 := by omega
        rw [hdepth]
      next hdeep =>
        have hdepth : bus.adr.toNat / 2 ^ 14 = 0 := by omega
        rw [hdepth]
  rw [byte_datR bus _ hk, hdata, memory, hword, hhalf, hbyte, haddr]

end

/-! ## Runs -/

section

variable {size : Size}

/-- The flat memory behind some requests. -/
def after (m : Nat → Byte) (done : List (Answer size)) : Nat → Byte := done.foldl (fun m x => write m x.bus) m

theorem after_concat (m : Nat → Byte) (done : List (Answer size)) (x : Answer size) :
    after m (done ++ [x]) = write (after m done) x.bus := by
  rw [after, List.foldl_append]
  rfl

theorem answered_concat (x : Answer size) : ∀ (done : List (Answer size)) (m : Nat → Byte),
    Answered m (done ++ [x]) ↔ Answered m done ∧
      (x.bus.we = false → ∀ k < 4, x.dat.extractLsb' (8 * k) 8 = after m done (4 * x.bus.adr.toNat + k))
  | [], m => by
    simp only [List.nil_append, Answered, and_true, true_and]
    rfl
  | y :: done, m => by
    rw [List.cons_append, Answered, Answered, answered_concat x done (write m y.bus), and_assoc]
    rfl

/-- Two memories have the same bytes. -/
def Agrees (size : Size) (m m' : Nat → Byte) : Prop := ∀ a < 4 * size.words, m a = m' a

theorem Agrees.write {m m' : Nat → Byte} (h : Agrees size m m') (bus : Bus size) :
    Agrees size (write m bus) (write m' bus) := by
  intro a ha
  rw [Spram.write, Spram.write, h a ha]

/-- What a run keeps.  While the acknowledgement is high the access has been made once. -/
structure Inv (m : Nat → Byte) (s : System size) : Prop where
  asked    : s.asked = s.done.map Answer.bus ++ if s.bus.request then [s.bus] else []
  acks     : s.acks = s.done.length
  answered : Answered m s.done
  rests    : s.ram.ack = false → Agrees size (memory s.ram) (after m s.done)
  acked    : s.ram.ack = true → s.bus.request = true ∧
    Agrees size (memory s.ram) (write (after m s.done) s.bus) ∧
      (s.bus.we = false → ∀ k < 4, (datR s.bus s.ram).extractLsb' (8 * k) 8 =
        after m s.done (4 * s.bus.adr.toNat + k))

variable {m : Nat → Byte} {s : System size}

theorem ack_step (s : System size) (i : Input size) : (s.step i).ram.ack = (s.bus.request && !s.ram.ack) := by
  show (s.bus.stb && s.bus.cyc && !s.ram.ack) = _
  rw [Bus.request, Bool.and_comm s.bus.stb]

/-- A master that is free to go on has asked for what it drives next. -/
theorem asked_of_free (h : (s.bus.request && !s.ram.ack) = false) (i : Input size) :
    (s.step i).asked = s.asked ++ if (s.step i).bus.request then [(s.step i).bus] else [] := by
  have hbus : (s.step i).bus = i.bus := by
    show (if _ then _ else _) = _
    rw [h]
    rfl
  have hasked : (s.step i).asked = if i.bus.request then s.asked ++ [i.bus] else s.asked := by
    show (if _ then _ else _) = _
    rw [h]
    rfl
  rw [hasked, hbus]
  split
  next => rfl
  next => rw [List.append_nil]

/-- The bus is idle. -/
theorem Inv.idle (h : Inv m s) (hreq : s.bus.request = false) (i : Input size) : Inv m (s.step i) := by
  have hack : s.ram.ack = false := by
    by_contra hack
    rw [Bool.not_eq_false] at hack
    rw [(h.acked hack).1] at hreq
    cases hreq
  have hack' : (s.step i).ram.ack = false := by rw [ack_step, hreq, Bool.false_and]
  have hdone : (s.step i).done = s.done := by simp [System.step, hreq]
  refine ⟨?_, ?_, ?_, fun _ => ?_, fun hacked => ?_⟩
  · have hasked := h.asked
    rw [hreq, if_neg (by decide), List.append_nil] at hasked
    rw [asked_of_free (by rw [hreq, Bool.false_and]), hasked, hdone]
  · simp [System.step, hreq, hack, h.acks]
  · rw [hdone]
    exact h.answered
  · have hmem : memory (s.step i).ram = memory s.ram := memory_idle hreq i.undriven
    rw [hmem, hdone]
    exact h.rests hack
  · rw [hack'] at hacked
    cases hacked

/-- A request is there and its access is made. -/
theorem Inv.access (h : Inv m s) (hreq : s.bus.request = true) (hack : s.ram.ack = false) (i : Input size) :
    Inv m (s.step i) := by
  have hack' : (s.step i).ram.ack = true := by rw [ack_step, hreq, hack]; rfl
  have hdone : (s.step i).done = s.done := by simp [System.step, hack]
  have hbus : (s.step i).bus = s.bus := by simp [System.step, hreq, hack]
  have hasked : (s.step i).asked = s.asked := by simp [System.step, hreq, hack]
  have hrests := h.rests hack
  refine ⟨?_, ?_, ?_, fun hacked => ?_, fun _ => ⟨?_, ?_, ?_⟩⟩
  · rw [hasked, hdone, hbus]
    exact h.asked
  · simp [System.step, hack, h.acks]
  · rw [hdone]
    exact h.answered
  · rw [hack'] at hacked
    cases hacked
  · rw [hbus, hreq]
  · intro a ha
    rw [hdone, hbus]
    exact (memory_step hreq i.undriven ha).trans (hrests.write s.bus a ha)
  · intro hwe k hk
    rw [hbus] at hwe
    have hadr := s.bus.inRange hreq
    rw [hdone, hbus]
    exact (byte_read hreq hwe i.undriven hk).trans (hrests _ (by omega))

/-- The acknowledgement is high: the access is made again, and the master is free to go on. -/
theorem Inv.acknowledge (h : Inv m s) (hack : s.ram.ack = true) (i : Input size) : Inv m (s.step i) := by
  obtain ⟨hreq, hmem, hdat⟩ := h.acked hack
  have hack' : (s.step i).ram.ack = false := by rw [ack_step, hack, Bool.not_true, Bool.and_false]
  have hdone : (s.step i).done = s.done ++ [⟨s.bus, datR s.bus s.ram⟩] := by simp [System.step, hreq, hack]
  refine ⟨?_, ?_, ?_, fun _ => ?_, fun hacked => ?_⟩
  · have hasked := h.asked
    rw [hreq, if_pos rfl] at hasked
    rw [asked_of_free (by rw [hack, Bool.not_true, Bool.and_false]), hdone, List.map_append, List.map_singleton, hasked]
  · rw [hdone, List.length_append]
    simp [System.step, hack, h.acks]
  · rw [hdone, answered_concat]
    exact ⟨h.answered, hdat⟩
  · intro a ha
    rw [hdone, after_concat, ← write_write (after m s.done) s.bus]
    exact (memory_step hreq i.undriven ha).trans (hmem.write s.bus a ha)
  · rw [hack'] at hacked
    cases hacked

theorem Inv.step (h : Inv m s) (i : Input size) : Inv m (s.step i) := by
  cases hreq : s.bus.request with
  | false => exact h.idle hreq i
  | true =>
    cases hack : s.ram.ack with
    | false => exact h.access hreq hack i
    | true  => exact h.acknowledge hack i

theorem inv_reset (block : Nat → Nat → Block) : Inv (memory ⟨block, false⟩) (.reset block : System size) where
  asked        := rfl
  acks         := rfl
  answered     := trivial
  rests _ _ _  := rfl
  acked hacked := absurd hacked (by simp [System.reset])

/-- **The module is a flat memory**: whatever the master asks for and when, it is answered as a flat memory would and once
each, in order and in the cycle behind the access; and a byte that no request has written is as it was. -/
theorem flat_memory (block : Nat → Nat → Block) (is : List (Input size)) :
    let s := is.foldl System.step (.reset block)
    let m := memory ⟨block, false⟩
    Answered m s.done ∧ (s.ram.ack = false → ∀ a < 4 * size.words, memory s.ram a = after m s.done a) ∧
      s.asked = s.done.map Answer.bus ++ (if s.bus.request then [s.bus] else []) ∧ s.acks = s.done.length ∧
      (s.bus.request = true → s.ram.ack = false → ∀ i, (s.step i).ram.ack = true) := by
  intro s m
  have h : Inv m s := Runs.foldl_inv (fun _ i hs => hs.step i) is (inv_reset block)
  refine ⟨h.answered, h.rests, h.asked, h.acks, fun hreq hack i => ?_⟩
  rw [ack_step, hreq, hack]
  rfl

end

end Spram
end Hdmi2Usb
