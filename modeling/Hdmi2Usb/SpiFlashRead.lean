import Hdmi2Usb.SpiFlash
/-!
# SpiFlashRead — every core reads the flash (`gateware/spi_flash.py`)

A read is counted in clocks: at cycle `j` of clock `k` the shift register has the rest of what is to be sent at its top
(`Busy.toSend`) and what has come of the data at its bottom (`Busy.got`).  The last clock's shift falls on the edge that
acknowledges the read, so the master sees the whole word.
-/
namespace Hdmi2Usb
namespace SpiFlash

open Chunks

/-! ## The times of a read -/

theorem Config.width_cases (cfg : Config) : cfg.width = 1 ∨ cfg.width = 2 ∨ cfg.width = 4 := by
  obtain ⟨pads, _, _, _⟩ := cfg
  cases pads <;> simp [Config.width, Pads.width]

/-- The clocks of command and address. -/
def Config.sendClocks (cfg : Config) : Nat := 8 + 24 / cfg.width

/-- The clocks before the data. -/
def Config.waitClocks (cfg : Config) : Nat := cfg.sendClocks + cfg.dummy

def Config.clocks (cfg : Config) : Nat := cfg.waitClocks + 32 / cfg.width

variable {cfg : Config}

theorem Config.width_pos (cfg : Config) : 0 < cfg.width := by
  rcases cfg.width_cases with h | h | h <;> omega

theorem Config.mul_div (cfg : Config) : 24 = cfg.width * (24 / cfg.width) ∧ 32 = cfg.width * (32 / cfg.width) ∧
    8 = cfg.width * (8 / cfg.width) := by
  rcases cfg.width_cases with h | h | h <;> rw [h] <;> decide

theorem Config.clocks_lt (cfg : Config) : 8 < cfg.sendClocks ∧ cfg.waitClocks < cfg.clocks := by
  unfold Config.clocks Config.waitClocks Config.sendClocks
  rcases cfg.width_cases with h | h | h <;> rw [h] <;> omega

theorem accumulate_seq (adr : BitVec 30) : accumulate 0 (seq cfg adr) =
    [(0, Core.sendCommand), (8 * cfg.div, Core.sendAddress adr), (cfg.sendClocks * cfg.div, Core.turn),
      (cfg.clocks * cfg.div, Core.acknowledge), (cfg.clocks * cfg.div + 1, Core.release),
      (cfg.clocks * cfg.div + 1 + cfg.div, id)] := by
  have hcmd : 8 * cfg.width / cfg.width = 8 := Nat.mul_div_cancel _ cfg.width_pos
  have haddr : 8 * cfg.div + 24 / cfg.width * cfg.div = cfg.sendClocks * cfg.div := (Nat.add_mul _ _ _).symm
  have hdata : cfg.sendClocks * cfg.div + (cfg.dummy + 32 / cfg.width) * cfg.div = cfg.clocks * cfg.div := by
    rw [← Nat.add_mul, ← Nat.add_assoc]
    rfl
  simp only [seq, accumulate, hcmd, Nat.zero_add, haddr, hdata]

theorem lastEvent_seq (adr : BitVec 30) :
    lastEvent (accumulate 0 (seq cfg adr)) = cfg.clocks * cfg.div + 1 + cfg.div := by
  have h8 := Nat.mul_le_mul_right cfg.div cfg.clocks_lt.1.le
  have hsend : cfg.sendClocks * cfg.div ≤ cfg.clocks * cfg.div := by
    apply Nat.mul_le_mul_right
    have := cfg.clocks_lt.2
    unfold Config.waitClocks at this
    omega
  rw [accumulate_seq]
  simp only [lastEvent, List.map_cons, List.map_nil, List.foldl_cons, List.foldl_nil]
  omega

/-- Cycle `j` of clock `k` is the end of `n` clocks when it is the last of the `n`-th. -/
theorem count_eq_iff {div k j n : Nat} (hj : j < div) : k * div + j + 1 = n * div ↔ k + 1 = n ∧ j + 1 = div := by
  constructor
  · intro h
    rcases Nat.lt_trichotomy n (k + 1) with hlt | rfl | hgt
    · have hle := Nat.mul_le_mul_right div (Nat.le_of_lt_succ hlt)
      omega
    · rw [Nat.add_mul] at h
      omega
    · have hle := Nat.mul_le_mul_right div (Nat.succ_le_of_lt hgt)
      rw [Nat.succ_mul, Nat.succ_mul] at hle
      omega
  · rintro ⟨rfl, hj'⟩
    rw [Nat.add_mul]
    omega

section Cycle

variable {request : Bool} {adr : BitVec 30} {dqI : BitVec cfg.width} {c : Core cfg.width} {k j : Nat}

theorem divide_rise (hrise : c.i = cfg.div / 2 - 1) (hend : c.i ≠ cfg.div - 1) :
    c.divide cfg dqI = { c with clk := true, dqi := dqI, i := c.i + 1 } := by
  simp only [Core.divide]
  rw [if_neg hend, if_pos hrise]

theorem divide_idle (hrise : c.i ≠ cfg.div / 2 - 1) (hend : c.i ≠ cfg.div - 1) :
    c.divide cfg dqI = { c with i := c.i + 1 } := by
  simp only [Core.divide]
  rw [if_neg hend, if_neg hrise]

theorem divide_shift (hrise : c.i ≠ cfg.div / 2 - 1) (hend : c.i = cfg.div - 1) :
    c.divide cfg dqI = { c with clk := false, sr := shiftIn c.sr c.dqi, i := 0 } := by
  simp only [Core.divide]
  rw [if_pos hend, if_neg hrise]

/-- The actions of a read, by the count at which each is due. -/
theorem timeline_seq (hdiv : 0 < cfg.div) (trigger : Bool) (counter : Nat) :
    timeline trigger counter (accumulate 0 (seq cfg adr)) c =
      let c := if trigger && counter = 0 then c.sendCommand else c
      let c := if counter = 8 * cfg.div then c.sendAddress adr else c
      let c := if counter = cfg.sendClocks * cfg.div then c.turn else c
      let c := if counter = cfg.clocks * cfg.div then c.acknowledge else c
      if counter = cfg.clocks * cfg.div + 1 then c.release else c := by
  have h8 : 8 * cfg.div ≠ 0 := by omega
  have hsend : cfg.sendClocks * cfg.div ≠ 0 := (Nat.mul_pos (Nat.zero_lt_of_lt cfg.clocks_lt.1) hdiv).ne'
  have hclocks : cfg.clocks * cfg.div ≠ 0 := (Nat.mul_pos (Nat.zero_lt_of_lt cfg.clocks_lt.2) hdiv).ne'
  rw [accumulate_seq]
  simp only [timeline, List.foldl_cons, List.foldl_nil, if_true, if_neg h8, if_neg hsend, if_neg hclocks,
    if_neg (Nat.succ_ne_zero (cfg.clocks * cfg.div)), decide_eq_true_eq, id_eq, ite_self]

/-- The actions that are due at the end of clock `k`. -/
def act (cfg : Config) (adr : BitVec 30) (k : Nat) (c : Core cfg.width) : Core cfg.width :=
  let c := if k + 1 = 8 then c.sendAddress adr else c
  let c := if k + 1 = cfg.sendClocks then c.turn else c
  if k + 1 = cfg.clocks then c.acknowledge else c

@[simp] theorem act_i : (act cfg adr k c).i = c.i := by
  unfold act
  split_ifs <;> rfl

@[simp] theorem act_clk : (act cfg adr k c).clk = c.clk := by
  unfold act
  split_ifs <;> rfl

@[simp] theorem act_csN : (act cfg adr k c).csN = (decide (k + 1 = cfg.clocks) || c.csN) := by
  unfold act
  split_ifs <;> simp_all [Core.acknowledge, Core.turn, Core.sendAddress]

@[simp] theorem act_ack : (act cfg adr k c).ack = (decide (k + 1 = cfg.clocks) || c.ack) := by
  unfold act
  split_ifs <;> simp_all [Core.acknowledge, Core.turn, Core.sendAddress]

@[simp] theorem act_dqOe : (act cfg adr k c).dqOe = (decide (k + 1 ≠ cfg.sendClocks) && c.dqOe) := by
  unfold act
  split_ifs <;> simp_all [Core.acknowledge, Core.turn, Core.sendAddress]

@[simp] theorem act_sr :
    (act cfg adr k c).sr = if k + 1 = 8 then setTop (byteAddress adr) c.sr else c.sr := by
  unfold act
  split_ifs <;> rfl

/-- In a clock no action is due but at its end. -/
theorem cycle_clock (hj : j < cfg.div) (hk : k < cfg.clocks) (hcounter : c.counter = k * cfg.div + j + 1) :
    c.cycle cfg request adr dqI =
      { (if j + 1 = cfg.div then act cfg adr k (c.divide cfg dqI) else c.divide cfg dqI) with
        counter := k * cfg.div + j + 2 } := by
  have hle : (k + 1) * cfg.div ≤ cfg.clocks * cfg.div := Nat.mul_le_mul_right _ hk
  rw [Nat.add_mul] at hle
  have hbefore : k * cfg.div + j ≠ cfg.clocks * cfg.div := by omega
  have hlast : k * cfg.div + j + 1 ≠ cfg.clocks * cfg.div + 1 + cfg.div := by omega
  have hcount := fun n => count_eq_iff (n := n) (k := k) hj
  have hnext : nextCounter (request && c.i = cfg.div - 1) c.counter (lastEvent (accumulate 0 (seq cfg adr))) =
      k * cfg.div + j + 2 := by
    rw [lastEvent_seq, hcounter, nextCounter, if_neg hlast, if_pos (Nat.succ_ne_zero _)]
  have hdue : timeline (request && c.i = cfg.div - 1) c.counter (accumulate 0 (seq cfg adr)) (c.divide cfg dqI) =
      if j + 1 = cfg.div then act cfg adr k (c.divide cfg dqI) else c.divide cfg dqI := by
    rw [timeline_seq (Nat.zero_lt_of_lt hj), hcounter]
    by_cases hend : j + 1 = cfg.div
    · simp [hcount, hbefore, hend, act]
    · simp [hcount, hbefore, hend]
  show { timeline (request && c.i = cfg.div - 1) c.counter (accumulate 0 (seq cfg adr)) (c.divide cfg dqI) with
    counter := nextCounter (request && c.i = cfg.div - 1) c.counter (lastEvent (accumulate 0 (seq cfg adr))) } = _
  rw [hdue, hnext]

@[simp] theorem divide_csN : (c.divide cfg dqI).csN = c.csN := by
  unfold Core.divide
  split_ifs <;> rfl

@[simp] theorem divide_ack : (c.divide cfg dqI).ack = c.ack := by
  unfold Core.divide
  split_ifs <;> rfl

@[simp] theorem divide_i : (c.divide cfg dqI).i = if c.i = cfg.div - 1 then 0 else c.i + 1 := by
  unfold Core.divide
  split_ifs <;> rfl

/-- After a read, until the chip may be selected again. -/
theorem cycle_after (hdiv : 0 < cfg.div) (hcounter : cfg.clocks * cfg.div < c.counter) :
    c.cycle cfg request adr dqI =
      { (if c.counter = cfg.clocks * cfg.div + 1 then (c.divide cfg dqI).release else c.divide cfg dqI) with
        counter := if c.counter = cfg.clocks * cfg.div + 1 + cfg.div then 0 else c.counter + 1 } := by
  have hsend : cfg.sendClocks ≤ cfg.clocks := (Nat.le_add_right _ _).trans (Nat.le_add_right _ _)
  have h8le := Nat.mul_le_mul_right cfg.div (cfg.clocks_lt.1.le.trans hsend)
  have hsendle := Nat.mul_le_mul_right cfg.div hsend
  have h0 : c.counter ≠ 0 := Nat.ne_zero_of_lt hcounter
  have h8 : c.counter ≠ 8 * cfg.div := by omega
  have hturn : c.counter ≠ cfg.sendClocks * cfg.div := by omega
  have hack : c.counter ≠ cfg.clocks * cfg.div := hcounter.ne'
  have hdue : timeline (request && c.i = cfg.div - 1) c.counter (accumulate 0 (seq cfg adr)) (c.divide cfg dqI) =
      if c.counter = cfg.clocks * cfg.div + 1 then (c.divide cfg dqI).release else c.divide cfg dqI := by
    rw [timeline_seq hdiv]
    simp only [h0, h8, hturn, hack, decide_false, Bool.and_false, Bool.false_eq_true, if_false]
  have hnext : nextCounter (request && c.i = cfg.div - 1) c.counter (lastEvent (accumulate 0 (seq cfg adr))) =
      if c.counter = cfg.clocks * cfg.div + 1 + cfg.div then 0 else c.counter + 1 := by
    rw [lastEvent_seq, nextCounter, if_pos h0]
  show { timeline (request && c.i = cfg.div - 1) c.counter (accumulate 0 (seq cfg adr)) (c.divide cfg dqI) with
    counter := nextCounter (request && c.i = cfg.div - 1) c.counter (lastEvent (accumulate 0 (seq cfg adr))) } = _
  rw [hdue, hnext]

/-- While no read is on. -/
theorem cycle_idle (hdiv : 0 < cfg.div) (hcounter : c.counter = 0) :
    c.cycle cfg request adr dqI =
      { (if request && c.i = cfg.div - 1 then (c.divide cfg dqI).sendCommand else c.divide cfg dqI) with
        counter := if request && c.i = cfg.div - 1 then 1 else 0 } := by
  have h8 : 0 ≠ 8 * cfg.div := by omega
  have hsend : 0 ≠ cfg.sendClocks * cfg.div := (Nat.mul_pos (Nat.zero_lt_of_lt cfg.clocks_lt.1) hdiv).ne
  have hclocks : 0 ≠ cfg.clocks * cfg.div := (Nat.mul_pos (Nat.zero_lt_of_lt cfg.clocks_lt.2) hdiv).ne
  have hrelease : 0 ≠ cfg.clocks * cfg.div + 1 := (Nat.succ_ne_zero _).symm
  have hlast : 0 ≠ cfg.clocks * cfg.div + 1 + cfg.div := by omega
  have hdue : timeline (request && c.i = cfg.div - 1) c.counter (accumulate 0 (seq cfg adr)) (c.divide cfg dqI) =
      if request && c.i = cfg.div - 1 then (c.divide cfg dqI).sendCommand else c.divide cfg dqI := by
    rw [timeline_seq hdiv, hcounter]
    simp only [h8, hsend, hclocks, hrelease, decide_true, Bool.and_true, if_false]
  have hnext : nextCounter (request && c.i = cfg.div - 1) c.counter (lastEvent (accumulate 0 (seq cfg adr))) =
      if request && c.i = cfg.div - 1 then 1 else 0 := by
    rw [lastEvent_seq, hcounter, nextCounter, if_neg hlast, if_neg (by simp)]
  show { timeline (request && c.i = cfg.div - 1) c.counter (accumulate 0 (seq cfg adr)) (c.divide cfg dqI) with
    counter := nextCounter (request && c.i = cfg.div - 1) c.counter (lastEvent (accumulate 0 (seq cfg adr))) } = _
  rw [hdue, hnext]

end Cycle

/-! ## The words on the lines -/

theorem byteAddress_eq (adr : BitVec 30) : byteAddress adr = BitVec.ofNat 24 (4 * adr.toNat) := by
  apply BitVec.eq_of_toNat_eq
  rw [byteAddress, BitVec.toNat_setWidth, BitVec.toNat_append, BitVec.toNat_ofNat, Nat.shiftLeft_eq]
  simp [Nat.mul_comm]

/-- What a read puts on the lines at its `n`-th clock. -/
def sent (cfg : Config) (adr : BitVec 30) (n : Nat) : BitVec cfg.width :=
  if n < 8 then chunk cfg.width cfg.pads.readCmd n else chunk cfg.width (byteAddress adr) (n - 8)

/-- The command is on the first line. -/
theorem Pads.chunk_readCmd (p : Pads) :
    ∀ n < 8, BitVec.ofBool ((chunk p.width p.readCmd n).getLsbD 0) = chunk 1 p.opcode n := by
  cases p <;> decide

/-- Four bytes as chunks. -/
theorem chunk_bytes {w q : Nat} (hq : 8 = w * q) (b₀ b₁ b₂ b₃ : BitVec 8) {m : Nat} (hm : m < q) :
    chunk w (b₀ ++ b₁ ++ b₂ ++ b₃) m = chunk w b₀ m ∧ chunk w (b₀ ++ b₁ ++ b₂ ++ b₃) (q + m) = chunk w b₁ m ∧
      chunk w (b₀ ++ b₁ ++ b₂ ++ b₃) (2 * q + m) = chunk w b₂ m ∧
      chunk w (b₀ ++ b₁ ++ b₂ ++ b₃) (3 * q + m) = chunk w b₃ m := by
  have hle : ∀ t, w * (t * q + m + 1) ≤ 8 * (t + 1) := by
    intro t
    have hmul : w * (t * q + m + 1) ≤ w * (t * q + q) := Nat.mul_le_mul_left w (by omega)
    have heq : w * (t * q + q) = 8 * (t + 1) := by rw [← Nat.succ_mul, Nat.mul_left_comm, ← hq, Nat.mul_comm]
    omega
  have h0 := hle 0
  have h1 := hle 1
  have h2 := hle 2
  rw [Nat.zero_mul, Nat.zero_add] at h0
  rw [Nat.one_mul] at h1
  have hq2 : 8 + 8 = w * (2 * q) := by rw [Nat.mul_left_comm, ← hq]
  have hq3 : 8 + 8 + 8 = w * (3 * q) := by rw [Nat.mul_left_comm, ← hq]
  refine ⟨?_, ?_, ?_, ?_⟩
  · rw [chunk_append_left _ _ (by omega), chunk_append_left _ _ (by omega), chunk_append_left _ _ h0]
  · rw [chunk_append_left _ _ (by omega), chunk_append_left _ _ h1, chunk_append_right hq _ _ h0]
  · rw [chunk_append_left _ _ h2, chunk_append_right hq2 _ _ h0]
  · rw [chunk_append_right hq3 _ _ h0]

/-- The word's bytes, as they come on the lines. -/
theorem chunk_flashWord (contents : BitVec 24 → BitVec 8) (adr : BitVec 30) {n : Nat} (hn : n < 32 / cfg.width) :
    chunk cfg.width (flashWord contents adr) n = stream contents (byteAddress adr) n := by
  obtain ⟨-, -, h8⟩ := cfg.mul_div
  have h4 : 32 / cfg.width = 8 / cfg.width * 4 := by rcases cfg.width_cases with h | h | h <;> rw [h]
  unfold stream
  generalize hq : 8 / cfg.width = q at *
  have hq0 : 0 < q := Nat.pos_of_ne_zero fun h0 => by simp [h0] at h8
  have hlt : n / q < 4 := Nat.div_lt_of_lt_mul (h4 ▸ hn)
  have hm := Nat.mod_lt n hq0
  have hsplit := Nat.div_add_mod' n q
  obtain ⟨hb0, hb1, hb2, hb3⟩ := chunk_bytes h8 (contents (byteAddress adr)) (contents (byteAddress adr + 1))
    (contents (byteAddress adr + 2)) (contents (byteAddress adr + 3)) hm
  rw [flashWord, ← byteAddress_eq]
  generalize n / q = t at *
  generalize n % q = m at *
  subst hsplit
  have ht : t = 0 ∨ t = 1 ∨ t = 2 ∨ t = 3 := by omega
  rcases ht with rfl | rfl | rfl | rfl
  · simpa using hb0
  · simpa using hb1
  · exact hb2
  · exact hb3

/-! ## A read, cycle by cycle -/

section Read

variable (contents : BitVec 24 → BitVec 8)

/-- The chip has taken what was sent in the first `n` clocks. -/
def Taken (adr : BitVec 30) (n : Nat) (taken : List (BitVec cfg.width)) : Prop :=
  taken.length = n ∧ ∀ e < n, e < cfg.sendClocks → taken[e]? = some (sent cfg adr e)

/-- Cycle `j` of clock `k` of a read. -/
structure Clock (k j : Nat) (s : System cfg.width) : Prop where
  request : s.request = true
  hk      : k < cfg.clocks
  hj      : j < cfg.div
  counter : s.core.counter = k * cfg.div + j + 1
  i       : s.core.i = j
  csN     : s.core.csN = false
  ack     : s.core.ack = false
  clk     : s.core.clk = decide (cfg.div / 2 ≤ j)
  dqOe    : s.core.dqOe = (cfg.pads.tristate && decide (k < cfg.sendClocks))
  chip    : s.flash.csN = false ∧ s.flash.clk = s.core.clk
  taken   : Taken s.adr (if cfg.div / 2 ≤ j then k + 1 else k) s.flash.taken
  toSend  : ∀ n, k ≤ n → n < (if k < 8 then 8 else cfg.sendClocks) → chunk cfg.width s.core.sr (n - k) = sent cfg s.adr n
  got     : ∀ m, cfg.waitClocks + m < k →
    chunk cfg.width s.core.sr (32 / cfg.width - (k - cfg.waitClocks) + m) = stream contents (byteAddress s.adr) m
  dqi     : cfg.div / 2 ≤ j → cfg.waitClocks ≤ k →
    s.core.dqi = stream contents (byteAddress s.adr) (k - cfg.waitClocks)

/-- The acknowledgement is on the bus. -/
structure Acked (s : System cfg.width) : Prop where
  request : s.request = true
  counter : s.core.counter = cfg.clocks * cfg.div + 1
  i       : s.core.i = 0
  csN     : s.core.csN = true
  ack     : s.core.ack = true
  chip    : s.flash.csN = true
  taken   : Taken s.adr cfg.clocks s.flash.taken
  sr      : s.core.sr = flashWord contents s.adr

/-- No read is on, or the chip has been deselected for less than its time. -/
structure Resting (s : System cfg.width) : Prop where
  csN     : s.core.csN = true
  ack     : s.core.ack = false
  chip    : s.flash.csN = true
  i       : s.core.i < cfg.div
  counter : s.core.counter = 0 ∨ ∃ r, 1 ≤ r ∧ r ≤ cfg.div ∧ s.core.counter = cfg.clocks * cfg.div + 1 + r ∧
    s.core.i = if r = cfg.div then 0 else r

end Read

section Steps

variable {contents : BitVec 24 → BitVec 8} {k j : Nat} {s : System cfg.width}

/-- A chip that has taken command and address reads them off as they were sent. -/
theorem Taken.decoded {adr : BitVec 30} {n : Nat} {f : Flash cfg.width} (h : Taken adr n f.taken)
    (hn : cfg.sendClocks ≤ n) : f.command = cfg.pads.opcode ∧ f.address = byteAddress adr := by
  have h8 := cfg.clocks_lt.1
  have hsent := h.2
  have h8w : 8 = 1 * 8 := rfl
  refine ⟨receive_chunk one_pos h8w _ fun e he => ?_, receive_chunk cfg.width_pos cfg.mul_div.1 _ fun e he => ?_⟩
  · rw [List.getD_eq_getElem?_getD, hsent e (by omega) (by omega), Option.getD_some, sent, if_pos he]
    exact cfg.pads.chunk_readCmd e he
  · have hin : 8 + e < cfg.sendClocks := Nat.add_lt_add_left he 8
    rw [List.getD_eq_getElem?_getD, hsent _ (by omega) hin, Option.getD_some, sent, if_neg (by omega),
      Nat.add_sub_cancel_left]

/-- In the data's clocks the chip drives the lines. -/
theorem Clock.drives (h : Clock contents k j s) (hlow : j < cfg.div / 2) (hk : cfg.waitClocks ≤ k) :
    s.flash.drives cfg.pads.opcode cfg.dummy contents =
      some (stream contents (byteAddress s.adr) (k - cfg.waitClocks)) := by
  have htaken := h.taken
  rw [if_neg (Nat.not_le.2 hlow)] at htaken
  obtain ⟨hcommand, haddress⟩ := htaken.decoded ((Nat.le_add_right _ _).trans hk)
  have hclk : s.flash.clk = false := by
    rw [h.chip.2, h.clk, decide_eq_false]
    omega
  have hstart : 8 + 24 / cfg.width + cfg.dummy = cfg.waitClocks := rfl
  unfold Flash.drives
  rw [hclk, if_neg Bool.false_ne_true, htaken.1, hstart, if_pos ⟨h.chip.1, hcommand, hk⟩, haddress]

theorem Taken.append {n : Nat} {taken : List (BitVec cfg.width)} (h : Taken s.adr n taken) {lines : BitVec cfg.width}
    (hlines : n < cfg.sendClocks → lines = sent cfg s.adr n) : Taken s.adr (n + 1) (taken ++ [lines]) := by
  obtain ⟨hlen, hsent⟩ := h
  refine ⟨by rw [List.length_append, hlen, List.length_singleton], fun e he hsend => ?_⟩
  rcases Nat.lt_succ_iff_lt_or_eq.1 he with hlt | rfl
  · rw [List.getElem?_append_left (hlen ▸ hlt)]
    exact hsent e hlt hsend
  · rw [List.getElem?_append_right hlen.le, hlen, Nat.sub_self, hlines hsend]
    rfl

/-- The line at a rising edge of the clock: the core sends, or the chip does not heed it. -/
theorem Clock.lines (h : Clock contents k j s) (hk : k < cfg.sendClocks) :
    s.core.drives cfg = true ∧ s.core.dqO = sent cfg s.adr k := by
  refine ⟨?_, ?_⟩
  · rw [Core.drives, h.dqOe, decide_eq_true hk, Bool.and_true]
    cases cfg.pads.tristate <;> rfl
  · have hbound : k < if k < 8 then 8 else cfg.sendClocks := by split <;> assumption
    have hsend := h.toSend k le_rfl hbound
    rw [Nat.sub_self] at hsend
    exact hsend

variable (contents) in
theorem step_hold (hreq : s.request = true) (hack : s.core.ack = false) (i : Input cfg.width) :
    (step cfg contents s i).request = true ∧ (step cfg contents s i).adr = s.adr ∧
      (step cfg contents s i).reads = s.reads := by
  simp [step, hreq, hack]

/-- The lines that the core samples in a step. -/
def dqIn (cfg : Config) (contents : BitVec 24 → BitVec 8) (s : System cfg.width) (i : Input cfg.width) :
    BitVec cfg.width :=
  if cfg.pads.tristate && s.core.dqOe then s.core.dqO
  else (s.flash.drives cfg.pads.opcode cfg.dummy contents).getD i.float

theorem Clock.dqIn (h : Clock contents k j s) (hlow : j < cfg.div / 2) (hk : cfg.waitClocks ≤ k) (i : Input cfg.width) :
    SpiFlash.dqIn cfg contents s i = stream contents (byteAddress s.adr) (k - cfg.waitClocks) := by
  have hsend : ¬ k < cfg.sendClocks := Nat.not_lt.2 ((Nat.le_add_right _ _).trans hk)
  rw [SpiFlash.dqIn, h.dqOe, decide_eq_false hsend, Bool.and_false, Bool.and_false, if_neg Bool.false_ne_true,
    h.drives hlow hk, Option.getD_some]

theorem see_rise {f : Flash cfg.width} (hcs : f.csN = false) (hclk : f.clk = false) (lines : BitVec cfg.width) :
    f.see false true lines = { csN := false, clk := true, taken := f.taken ++ [lines] } := by
  simp [Flash.see, hcs, hclk]

theorem see_stay {f : Flash cfg.width} {clk : Bool} (hcs : f.csN = false) (hclk : (clk && !f.clk) = false)
    (lines : BitVec cfg.width) : f.see false clk lines = { csN := false, clk, taken := f.taken } := by
  simp [Flash.see, hcs, hclk]

theorem see_select {f : Flash cfg.width} {clk : Bool} (hcs : f.csN = true) (lines : BitVec cfg.width) :
    f.see false clk lines = { csN := false, clk, taken := [] } := by
  simp [Flash.see, hcs]

section Step

variable (contents s)

theorem step_flash (i : Input cfg.width) :
    (step cfg contents s i).flash = s.flash.see (step cfg contents s i).core.csN (step cfg contents s i).core.clk
      (if (step cfg contents s i).core.drives cfg then (step cfg contents s i).core.dqO else i.float) := rfl

theorem step_core (i : Input cfg.width) :
    (step cfg contents s i).core = s.core.cycle cfg s.request s.adr (dqIn cfg contents s i) := rfl

end Step

/-- Within a clock: the core counts on, and the line of the clock and what is sampled may change. -/
theorem Clock.within (h : Clock contents k j s) (hj : j + 1 < cfg.div) {clk : Bool} {dqi : BitVec cfg.width}
    {taken : List (BitVec cfg.width)} (i : Input cfg.width)
    (hcore : (step cfg contents s i).core = { s.core with counter := k * cfg.div + j + 2, i := j + 1, clk, dqi })
    (hflash : (step cfg contents s i).flash = { csN := s.core.csN, clk, taken })
    (hclk : clk = decide (cfg.div / 2 ≤ j + 1)) (htaken : Taken s.adr (if cfg.div / 2 ≤ j + 1 then k + 1 else k) taken)
    (hdqi : cfg.div / 2 ≤ j + 1 → cfg.waitClocks ≤ k →
      dqi = stream contents (byteAddress s.adr) (k - cfg.waitClocks)) :
    Clock contents k (j + 1) (step cfg contents s i) := by
  obtain ⟨hreq, hadr, -⟩ := step_hold contents h.request h.ack i
  constructor
  case request => exact hreq
  case hk => exact h.hk
  case hj => exact hj
  case counter => exact congrArg Core.counter hcore
  case i => rw [hcore]
  case csN => rw [hcore]; exact h.csN
  case ack => rw [hcore]; exact h.ack
  case clk => rw [hcore]; exact hclk
  case dqOe => rw [hcore]; exact h.dqOe
  case chip => rw [hflash, hcore]; exact ⟨h.csN, rfl⟩
  case taken => rw [hadr, hflash]; exact htaken
  case toSend => rw [hcore, hadr]; exact h.toSend
  case got => rw [hcore, hadr]; exact h.got
  case dqi => rw [hcore, hadr]; exact hdqi

/-- The clock rises. -/
theorem Clock.rise (h : Clock contents k j s) (hj : j + 1 < cfg.div) (hrise : j + 1 = cfg.div / 2)
    (i : Input cfg.width) : Clock contents k (j + 1) (step cfg contents s i) := by
  have hcore := step_core contents s i
  rw [cycle_clock h.hj h.hk h.counter, if_neg (by omega),
    divide_rise (by rw [h.i]; omega) (by rw [h.i]; omega), h.i] at hcore
  have hlow : s.core.clk = false := by
    rw [h.clk, decide_eq_false]
    omega
  have hflash := step_flash contents s i
  rw [hcore] at hflash
  have hsee := see_rise h.chip.1 (h.chip.2.trans hlow) (if s.core.drives cfg then s.core.dqO else i.float)
  rw [← h.csN] at hsee
  have htaken := h.taken
  rw [if_neg (by omega)] at htaken
  refine h.within hj i hcore (hflash.trans hsee) (decide_eq_true hrise.ge).symm ?_ fun _ hk => h.dqIn (by omega) hk i
  rw [if_pos hrise.ge]
  refine htaken.append fun hk => ?_
  obtain ⟨hdrives, hlines⟩ := h.lines hk
  rw [if_pos hdrives, hlines]

/-- Nothing but the divider moves. -/
theorem Clock.stay (h : Clock contents k j s) (hj : j + 1 < cfg.div) (hrise : j + 1 ≠ cfg.div / 2)
    (i : Input cfg.width) : Clock contents k (j + 1) (step cfg contents s i) := by
  have hcore := step_core contents s i
  rw [cycle_clock h.hj h.hk h.counter, if_neg (by omega),
    divide_idle (by rw [h.i]; omega) (by rw [h.i]; omega), h.i] at hcore
  have hflash := step_flash contents s i
  rw [hcore] at hflash
  have hstill : (s.core.clk && !s.flash.clk) = false := by rw [h.chip.2]; simp
  have hsee := see_stay h.chip.1 hstill (if s.core.drives cfg then s.core.dqO else i.float)
  rw [← h.csN] at hsee
  have hhalf : cfg.div / 2 ≤ j + 1 ↔ cfg.div / 2 ≤ j := by omega
  refine h.within hj i hcore (hflash.trans hsee) ?_ ?_ ?_ <;> simp only [hhalf]
  · exact h.clk
  · exact h.taken
  · exact h.dqi

/-- A shift, and the address at the end of the command. -/
theorem Clock.toSend_shift (h : Clock contents k j s) {n : Nat} (hn : k + 1 ≤ n)
    (hlt : n < if k + 1 < 8 then 8 else cfg.sendClocks) :
    chunk cfg.width (if k + 1 = 8 then setTop (byteAddress s.adr) (shiftIn s.core.sr s.core.dqi)
      else shiftIn s.core.sr s.core.dqi) (n - (k + 1)) = sent cfg s.adr n := by
  obtain ⟨h24, h32, -⟩ := cfg.mul_div
  have hroom : 8 ≤ 32 / cfg.width ∧ 24 / cfg.width ≤ 32 / cfg.width := by
    rcases cfg.width_cases with hw | hw | hw <;> rw [hw] <;> decide
  have hsend : cfg.sendClocks = 8 + 24 / cfg.width := rfl
  by_cases hk : k + 1 = 8
  · rw [if_neg (by omega)] at hlt
    have hle : cfg.width * (n - (k + 1) + 1) ≤ 24 := by
      rw [h24]
      exact Nat.mul_le_mul_left _ (by omega)
    rw [if_pos hk, chunk_setTop _ _ (by decide) hle, sent, if_neg (by omega), hk]
  · have hlt' : n < if k < 8 then 8 else cfg.sendClocks := by
      split at hlt <;> split <;> omega
    have hle : cfg.width * (n - (k + 1) + 2) ≤ 32 := by
      rw [h32]
      apply Nat.mul_le_mul_left
      split at hlt' <;> omega
    have hidx : n - (k + 1) + 1 = n - k := by omega
    rw [if_neg hk, chunk_shiftIn _ _ hle, hidx]
    exact h.toSend n (Nat.le_of_succ_le hn) hlt'

/-- A shift brings a chunk of the data. -/
theorem Clock.got_shift (h : Clock contents k j s) (hj : cfg.div / 2 ≤ j) {m : Nat} (hm : cfg.waitClocks + m < k + 1) :
    chunk cfg.width (shiftIn s.core.sr s.core.dqi) (32 / cfg.width - (k + 1 - cfg.waitClocks) + m) =
      stream contents (byteAddress s.adr) m := by
  obtain ⟨-, h32, -⟩ := cfg.mul_div
  have hk : k < cfg.waitClocks + 32 / cfg.width := h.hk
  rcases Nat.lt_succ_iff_lt_or_eq.1 hm with hlt | rfl
  · have hle : cfg.width * (32 / cfg.width - (k + 1 - cfg.waitClocks) + m + 2) ≤ 32 := by
      nth_rewrite 2 [h32]
      exact Nat.mul_le_mul_left _ (by omega)
    have hidx : 32 / cfg.width - (k + 1 - cfg.waitClocks) + m + 1 = 32 / cfg.width - (k - cfg.waitClocks) + m := by
      omega
    rw [chunk_shiftIn _ _ hle, hidx]
    exact h.got m hlt
  · have hlast : cfg.width * (32 / cfg.width - (cfg.waitClocks + m + 1 - cfg.waitClocks) + m + 1) = 32 := by
      have hidx : 32 / cfg.width - (cfg.waitClocks + m + 1 - cfg.waitClocks) + m + 1 = 32 / cfg.width := by omega
      rw [hidx, ← h32]
    have hdqi := h.dqi hj (Nat.le_add_right _ _)
    rw [Nat.add_sub_cancel_left] at hdqi
    rw [chunk_shiftIn_last _ _ hlast, hdqi]

/-- The last cycle of a clock. -/
theorem Clock.core_shift (h : Clock contents k j s) (hdiv : 2 ≤ cfg.div) (hj : j + 1 = cfg.div) (i : Input cfg.width) :
    (step cfg contents s i).core =
      { act cfg s.adr k { s.core with clk := false, sr := shiftIn s.core.sr s.core.dqi, i := 0 } with
        counter := (k + 1) * cfg.div + 1 } := by
  have hcore := step_core contents s i
  rw [cycle_clock h.hj h.hk h.counter, if_pos hj, divide_shift (by rw [h.i]; omega) (by rw [h.i]; omega)] at hcore
  have hcounter : k * cfg.div + j + 2 = (k + 1) * cfg.div + 1 := by
    rw [Nat.succ_mul]
    omega
  rw [hcore, hcounter]

theorem Clock.sr_shift (h : Clock contents k j s) (hdiv : 2 ≤ cfg.div) (hj : j + 1 = cfg.div)
    (hk : cfg.waitClocks ≤ k) {i : Input cfg.width} :
    (step cfg contents s i).core.sr = shiftIn s.core.sr s.core.dqi := by
  have h8 : k + 1 ≠ 8 := by
    have := cfg.clocks_lt.1
    unfold Config.waitClocks at hk
    omega
  rw [h.core_shift hdiv hj i]
  simp only [act_sr, if_neg h8]

theorem Clock.shift (h : Clock contents k j s) (hdiv : 2 ≤ cfg.div) (hj : j + 1 = cfg.div) (hk : k + 1 < cfg.clocks)
    (i : Input cfg.width) : Clock contents (k + 1) 0 (step cfg contents s i) := by
  obtain ⟨hreq, hadr, -⟩ := step_hold contents h.request h.ack i
  have hcore := h.core_shift hdiv hj i
  have hhigh : cfg.div / 2 ≤ j := by omega
  have hlow : ¬ cfg.div / 2 ≤ 0 := by omega
  have hcs : (step cfg contents s i).core.csN = false := by simp [hcore, hk.ne, h.csN]
  have hclk : (step cfg contents s i).core.clk = false := by simp [hcore]
  have hflash := step_flash contents s i
  rw [hcs, hclk, see_stay h.chip.1 rfl] at hflash
  constructor
  case request => exact hreq
  case hk => exact hk
  case hj => omega
  case counter => exact congrArg Core.counter hcore
  case i => simp [hcore]
  case csN => exact hcs
  case ack => simp [hcore, hk.ne, h.ack]
  case clk => rw [hclk, decide_eq_false hlow]
  case dqOe =>
    have hiff : (k + 1 ≠ cfg.sendClocks ∧ k < cfg.sendClocks) ↔ k + 1 < cfg.sendClocks := by omega
    simp only [hcore, act_dqOe, h.dqOe, Bool.and_left_comm _ cfg.pads.tristate, ← Bool.decide_and, hiff]
  case chip => rw [hflash, hclk]; exact ⟨rfl, rfl⟩
  case taken =>
    have htaken := h.taken
    rw [if_pos hhigh] at htaken
    rw [hadr, if_neg hlow, hflash]
    exact htaken
  case toSend =>
    intro n hn hlt
    rw [hadr, hcore]
    simp only [act_sr]
    exact h.toSend_shift hn hlt
  case got =>
    intro m hm
    rw [hadr, h.sr_shift hdiv hj (by omega)]
    exact h.got_shift hhigh hm
  case dqi => exact fun h0 => absurd h0 hlow

/-- The last shift: the word is on the bus, with the acknowledgement. -/
theorem Clock.acked (h : Clock contents k j s) (hdiv : 2 ≤ cfg.div) (hj : j + 1 = cfg.div) (hk : k + 1 = cfg.clocks)
    (i : Input cfg.width) : Acked contents (step cfg contents s i) := by
  obtain ⟨hreq, hadr, -⟩ := step_hold contents h.request h.ack i
  have hcore := h.core_shift hdiv hj i
  have hhigh : cfg.div / 2 ≤ j := by omega
  have hwait : cfg.waitClocks ≤ k := by
    have := cfg.clocks_lt.2
    omega
  have hcs : (step cfg contents s i).core.csN = true := by simp [hcore, hk]
  have hflash := step_flash contents s i
  rw [hcs] at hflash
  constructor
  case request => exact hreq
  case counter => exact hk ▸ congrArg Core.counter hcore
  case i => simp [hcore]
  case csN => exact hcs
  case ack => simp [hcore, hk]
  case chip =>
    rw [hflash]
    rfl
  case taken =>
    have htaken := h.taken
    rw [if_pos hhigh, hk] at htaken
    rw [hadr, hflash]
    exact htaken
  case sr =>
    refine eq_of_chunk_eq cfg.width_pos cfg.mul_div.2.1 fun m hm => ?_
    have hend : cfg.clocks = cfg.waitClocks + 32 / cfg.width := rfl
    have hgot := h.got_shift hhigh (m := m) (by omega)
    rw [hk, hend, Nat.add_sub_cancel_left, Nat.sub_self, Nat.zero_add] at hgot
    rw [h.sr_shift hdiv hj hwait, hadr, hgot, chunk_flashWord _ _ hm]

/-- The acknowledgement lasts one cycle. -/
theorem Acked.step (h : Acked contents s) (hdiv : 2 ≤ cfg.div) (i : Input cfg.width) :
    Resting (SpiFlash.step cfg contents s i) := by
  have hcore := step_core contents s i
  rw [cycle_after (by omega) (by rw [h.counter]; omega), h.counter, if_pos rfl, if_neg (by omega)] at hcore
  have hcs : (SpiFlash.step cfg contents s i).core.csN = true := by simp [hcore, Core.release, h.csN]
  have hi : (SpiFlash.step cfg contents s i).core.i = 1 := by
    have h0 : ¬ 0 = cfg.div - 1 := by omega
    simp [hcore, Core.release, h.i, h0]
  constructor
  case csN => exact hcs
  case ack => simp [hcore, Core.release]
  case chip =>
    rw [step_flash, hcs]
    rfl
  case i =>
    rw [hi]
    omega
  case counter =>
    refine .inr ⟨1, le_rfl, by omega, congrArg Core.counter hcore, ?_⟩
    rw [hi, if_neg (by omega)]

/-- The chip is selected for a read. -/
theorem Resting.start (h : Resting s) (hdiv : 2 ≤ cfg.div) (hcounter : s.core.counter = 0) (hreq : s.request = true)
    (hi : s.core.i = cfg.div - 1) (i : Input cfg.width) : Clock contents 0 0 (step cfg contents s i) := by
  obtain ⟨hreq', hadr, -⟩ := step_hold contents hreq h.ack i
  have hcore := step_core contents s i
  have htrigger : (s.request && s.core.i = cfg.div - 1) = true := by simp [hreq, hi]
  rw [cycle_idle (by omega) hcounter, htrigger, if_pos rfl, if_pos rfl, divide_shift (by omega) hi] at hcore
  have hlow : ¬ cfg.div / 2 ≤ 0 := by omega
  have hcs : (step cfg contents s i).core.csN = false := by simp [hcore, Core.sendCommand]
  have hclk : (step cfg contents s i).core.clk = false := by simp [hcore, Core.sendCommand]
  have hsend := cfg.clocks_lt.1
  have hflash := step_flash contents s i
  rw [hcs, hclk] at hflash
  replace hflash := hflash.trans (see_select h.chip _)
  constructor
  case request => exact hreq'
  case hk => exact Nat.zero_lt_of_lt cfg.clocks_lt.2
  case hj => omega
  case counter => simp [hcore]
  case i => simp [hcore, Core.sendCommand]
  case csN => exact hcs
  case ack => simp [hcore, Core.sendCommand, h.ack]
  case clk => rw [hclk, decide_eq_false hlow]
  case dqOe => simp [hcore, Core.sendCommand, Nat.zero_lt_of_lt hsend]
  case chip =>
    rw [hflash, hclk]
    exact ⟨rfl, rfl⟩
  case taken =>
    rw [if_neg hlow, hflash]
    exact ⟨rfl, fun e he => absurd he (Nat.not_lt_zero _)⟩
  case toSend =>
    intro n _ hn
    have hn8 : n < 8 := by simpa using hn
    have hle : cfg.width * (n + 1) ≤ 8 * cfg.width := by
      rw [Nat.mul_comm 8]
      exact Nat.mul_le_mul_left _ (Nat.succ_le_of_lt hn8)
    have hfit : 8 * cfg.width ≤ 32 := by rcases cfg.width_cases with hw | hw | hw <;> omega
    rw [hcore, sent, if_pos hn8]
    exact chunk_setTop _ _ hfit hle
  case got => exact fun m hm => absurd hm (Nat.not_lt_zero _)
  case dqi => exact fun h0 => absurd h0 hlow

variable (contents) in
/-- A cycle in which no read begins: the divider goes round, and the counter goes on to the end of the rest. -/
theorem Resting.cycle (h : Resting s) (hdiv : 2 ≤ cfg.div)
    (hno : ¬ (s.core.counter = 0 ∧ s.request = true ∧ s.core.i = cfg.div - 1)) (i : Input cfg.width) :
    (SpiFlash.step cfg contents s i).core.csN = true ∧ (SpiFlash.step cfg contents s i).core.ack = false ∧
      (SpiFlash.step cfg contents s i).core.i = (if s.core.i = cfg.div - 1 then 0 else s.core.i + 1) ∧
      (SpiFlash.step cfg contents s i).core.counter =
        if s.core.counter = 0 ∨ s.core.counter = cfg.clocks * cfg.div + 1 + cfg.div then 0 else s.core.counter + 1 := by
  have hcore := step_core contents s i
  obtain hcounter | ⟨r, hr1, hr, hcounter, -⟩ := h.counter
  · have htrigger : (s.request && s.core.i = cfg.div - 1) = false := by simpa [hcounter] using hno
    rw [cycle_idle (by omega) hcounter, htrigger, if_neg Bool.false_ne_true, if_neg Bool.false_ne_true] at hcore
    have hzero := congrArg Core.counter hcore
    exact ⟨by simp [hcore, h.csN], by simp [hcore, h.ack], by simp [hcore], hzero.trans (if_pos (.inl hcounter)).symm⟩
  · rw [cycle_after (by omega) (by omega), if_neg (by omega)] at hcore
    have hnot : ¬ s.core.counter = 0 := by omega
    simp only [hnot, false_or]
    exact ⟨by simp [hcore, h.csN], by simp [hcore, h.ack], by simp [hcore], congrArg Core.counter hcore⟩

/-- The chip is not selected. -/
theorem Resting.step (h : Resting s) (hdiv : 2 ≤ cfg.div)
    (hno : ¬ (s.core.counter = 0 ∧ s.request = true ∧ s.core.i = cfg.div - 1)) (i : Input cfg.width) :
    Resting (SpiFlash.step cfg contents s i) := by
  obtain ⟨hcs, hack, hi, hcounter⟩ := h.cycle contents hdiv hno i
  have hlt := h.i
  constructor
  case csN => exact hcs
  case ack => exact hack
  case chip =>
    rw [step_flash, hcs]
    rfl
  case i =>
    rw [hi]
    split <;> omega
  case counter =>
    obtain hold | ⟨r, hr1, hr, hold, hri⟩ := h.counter
    · exact .inl (hcounter.trans (if_pos (.inl hold)))
    · by_cases hend : r = cfg.div
      · exact .inl (hcounter.trans (if_pos (.inr (by rw [hold, hend]))))
      · rw [if_neg (by omega), hold] at hcounter
        refine .inr ⟨r + 1, by omega, by omega, hcounter, ?_⟩
        rw [if_neg hend] at hri
        rw [hi, hri]
        split <;> split <;> omega

theorem Clock.step (h : Clock contents k j s) (hdiv : 2 ≤ cfg.div) (i : Input cfg.width) :
    (∃ k' j', Clock contents k' j' (SpiFlash.step cfg contents s i)) ∨
      Acked contents (SpiFlash.step cfg contents s i) := by
  have hj := h.hj
  have hk := h.hk
  by_cases hend : j + 1 = cfg.div
  · by_cases hlast : k + 1 = cfg.clocks
    · exact .inr (h.acked hdiv hend hlast i)
    · exact .inl ⟨k + 1, 0, h.shift hdiv hend (by omega) i⟩
  · by_cases hrise : j + 1 = cfg.div / 2
    · exact .inl ⟨k, j + 1, h.rise (by omega) hrise i⟩
    · exact .inl ⟨k, j + 1, h.stay (by omega) hrise i⟩

end Steps

/-! ## Runs -/

/-- What the master gets for a read, and what the chip has been sent for it. -/
structure Served (cfg : Config) (contents : BitVec 24 → BitVec 8) (r : Read cfg.width) : Prop where
  data  : r.data = wordOf cfg (flashWord contents r.adr)
  taken : Taken r.adr cfg.clocks r.taken

inductive Phase (contents : BitVec 24 → BitVec 8) (s : System cfg.width) : Prop
  | resting (h : Resting s)
  | clock (k j : Nat) (h : Clock contents k j s)
  | acked (h : Acked contents s)

structure Inv (contents : BitVec 24 → BitVec 8) (s : System cfg.width) : Prop where
  reads : ∀ r ∈ s.reads, Served cfg contents r
  phase : Phase contents s

section Runs

variable {contents : BitVec 24 → BitVec 8} {s : System cfg.width}

theorem step_reads (hack : s.core.ack = false) (i : Input cfg.width) :
    (step cfg contents s i).reads = s.reads := by
  simp [step, hack]

theorem Inv.step (hdiv : 2 ≤ cfg.div) (i : Input cfg.width) (h : Inv contents s) :
    Inv contents (SpiFlash.step cfg contents s i) := by
  obtain ⟨hreads, hrest | ⟨k, j, hclock⟩ | hacked⟩ := h
  case resting =>
    refine ⟨by rwa [step_reads hrest.ack], ?_⟩
    by_cases hstart : s.core.counter = 0 ∧ s.request = true ∧ s.core.i = cfg.div - 1
    · exact .clock 0 0 (hrest.start hdiv hstart.1 hstart.2.1 hstart.2.2 i)
    · exact .resting (hrest.step hdiv hstart i)
  case clock =>
    refine ⟨by rwa [step_reads hclock.ack], ?_⟩
    rcases hclock.step hdiv i with ⟨k', j', hclock'⟩ | hacked
    · exact .clock k' j' hclock'
    · exact .acked hacked
  case acked =>
    refine ⟨fun r hr => ?_, .resting (hacked.step hdiv i)⟩
    have hlog : (SpiFlash.step cfg contents s i).reads =
        s.reads ++ [⟨s.adr, wordOf cfg s.core.sr, s.flash.taken⟩] := by
      simp [SpiFlash.step, hacked.request, hacked.ack]
    rw [hlog, List.mem_append, List.mem_singleton] at hr
    rcases hr with hr | rfl
    · exact hreads r hr
    · exact ⟨by rw [hacked.sr], hacked.taken⟩

theorem Inv.reset (cfg : Config) (hdiv : 2 ≤ cfg.div) (contents : BitVec 24 → BitVec 8) :
    Inv contents (System.reset cfg.width) :=
  ⟨fun r hr => by simp [System.reset] at hr, .resting ⟨rfl, rfl, rfl, Nat.zero_lt_of_lt hdiv, .inl rfl⟩⟩

/-- The cycles until a read that is asked for is acknowledged, at most. -/
def wait (s : System cfg.width) : Nat :=
  if s.core.counter = 0 then cfg.div - s.core.i + cfg.clocks * cfg.div + 1
  else if s.core.counter ≤ cfg.clocks * cfg.div + 1 then cfg.clocks * cfg.div + 2 - s.core.counter
  else cfg.clocks * cfg.div + 2 + cfg.div - s.core.counter + cfg.div + cfg.clocks * cfg.div

theorem Inv.wait_step (hdiv : 2 ≤ cfg.div) (h : Inv contents s) (hreq : s.request = true) (hack : s.core.ack = false)
    (i : Input cfg.width) : wait (SpiFlash.step cfg contents s i) < wait s := by
  have hcore := step_core contents s i
  obtain ⟨-, hrest | ⟨k, j, hclock⟩ | hacked⟩ := h
  case acked => simp [hacked.ack] at hack
  case clock =>
    have hj := hclock.hj
    have hle := Nat.mul_le_mul_right cfg.div (Nat.succ_le_of_lt hclock.hk)
    rw [Nat.succ_mul] at hle
    rw [cycle_clock hclock.hj hclock.hk hclock.counter] at hcore
    have hcounter := hclock.counter
    have hnext : (SpiFlash.step cfg contents s i).core.counter = k * cfg.div + j + 2 := congrArg Core.counter hcore
    unfold wait
    rw [hnext, hcounter, if_neg (by omega), if_pos (by omega), if_neg (by omega), if_pos (by omega)]
    omega
  case resting =>
    by_cases hstart : s.core.counter = 0 ∧ s.request = true ∧ s.core.i = cfg.div - 1
    · obtain ⟨hcounter, -, hend⟩ := hstart
      have htrigger : (s.request && s.core.i = cfg.div - 1) = true := by simp [hreq, hend]
      rw [cycle_idle (by omega) hcounter] at hcore
      have hnext : (SpiFlash.step cfg contents s i).core.counter = 1 :=
        (congrArg Core.counter hcore).trans (if_pos htrigger)
      unfold wait
      rw [hnext, hcounter, if_neg one_ne_zero, if_pos (Nat.le_add_left _ _), if_pos rfl]
      omega
    · obtain ⟨-, -, hi, hcounter⟩ := hrest.cycle contents hdiv hstart i
      have hlt := hrest.i
      obtain hold | ⟨r, hr1, hr, hold, hri⟩ := hrest.counter
      · have hnext : (SpiFlash.step cfg contents s i).core.counter = 0 := hcounter.trans (if_pos (.inl hold))
        have hother : ¬ s.core.i = cfg.div - 1 := fun hend => hstart ⟨hold, hreq, hend⟩
        unfold wait
        rw [hnext, hi, if_neg hother, hold, if_pos rfl, if_pos rfl]
        omega
      · by_cases hend : r = cfg.div
        · have hnext : (SpiFlash.step cfg contents s i).core.counter = 0 :=
            hcounter.trans (if_pos (.inr (by rw [hold, hend])))
          have hother : ¬ s.core.i = cfg.div - 1 := by
            rw [hri, if_pos hend]
            omega
          unfold wait
          rw [hnext, hi, if_neg hother, hold, if_pos rfl, if_neg (by omega), if_neg (by omega)]
          omega
        · have hnext : (SpiFlash.step cfg contents s i).core.counter = s.core.counter + 1 :=
            hcounter.trans (if_neg (by omega))
          unfold wait
          rw [hnext, hold, if_neg (by omega), if_neg (by omega), if_neg (by omega), if_neg (by omega)]
          omega

theorem wait_pos (hdiv : 2 ≤ cfg.div) (s : System cfg.width) : 0 < wait s := by
  have hpos : 0 < cfg.clocks * cfg.div := Nat.mul_pos (Nat.zero_lt_of_lt cfg.clocks_lt.2) (by omega)
  unfold wait
  split
  · omega
  · split <;> omega

theorem wait_le (s : System cfg.width) : wait s ≤ (cfg.clocks + 2) * cfg.div + 1 := by
  unfold wait
  rw [Nat.add_mul]
  split
  · omega
  · split <;> omega

theorem reads_mono : ∀ (is : List (Input cfg.width)) (s : System cfg.width),
    s.reads <+: (is.foldl (step cfg contents) s).reads
  | [], _ => List.prefix_rfl
  | i :: is, s => by
    refine List.IsPrefix.trans ?_ (reads_mono is (step cfg contents s i))
    unfold step
    simp only
    split
    · exact List.prefix_append _ _
    · exact List.prefix_rfl

/-- A read that is asked for is acknowledged. -/
theorem Inv.answered (hdiv : 2 ≤ cfg.div) : ∀ (is : List (Input cfg.width)) (s : System cfg.width), Inv contents s →
    s.request = true → wait s ≤ is.length → s.reads.length < (is.foldl (SpiFlash.step cfg contents) s).reads.length
  | [], s, _, _, hwait => absurd hwait (Nat.not_le.2 (wait_pos hdiv s))
  | i :: is, s, h, hreq, hwait => by
    cases hack : s.core.ack with
    | true =>
      have hgrow : s.reads.length < (SpiFlash.step cfg contents s i).reads.length := by
        simp [SpiFlash.step, hreq, hack]
      exact hgrow.trans_le (reads_mono is _).length_le
    | false =>
      have hless := h.wait_step hdiv hreq hack i
      rw [List.length_cons] at hwait
      rw [List.foldl_cons, ← step_reads hack i]
      exact Inv.answered hdiv is _ (h.step hdiv i) (step_hold contents hreq hack i).1 (by omega)

end Runs

/-- **The cores are interchangeable.**  Whatever the width of the lines, the divider, the dummy cycles and the reads that
the master asks for, a read puts its command and its byte address on the lines and gets the word at that address; it is
acknowledged once, within the time of a read, and no cycle acknowledges a read that is not asked for. -/
theorem reads_served (cfg : Config) (hdiv : 2 ≤ cfg.div) (contents : BitVec 24 → BitVec 8) (is : List (Input cfg.width)) :
    let s := is.foldl (step cfg contents) (System.reset cfg.width)
    (∀ r ∈ s.reads, r.data = wordOf cfg (flashWord contents r.adr) ∧ r.taken.length = cfg.clocks ∧
        ∀ f : Flash cfg.width, f.taken = r.taken →
          f.command = cfg.pads.opcode ∧ f.address = BitVec.ofNat 24 (4 * r.adr.toNat)) ∧
      (s.core.ack = true → s.request = true ∧ ∀ i, (step cfg contents s i).core.ack = false) ∧
      (s.request = true → ∀ js : List (Input cfg.width), (cfg.clocks + 2) * cfg.div + 1 ≤ js.length →
        s.reads.length < (js.foldl (step cfg contents) s).reads.length) := by
  intro s
  have h : Inv contents s := Runs.foldl_inv (fun s i => Inv.step hdiv i) is (Inv.reset cfg hdiv contents)
  refine ⟨fun r hr => ?_, fun hack => ?_, fun hreq js hjs => ?_⟩
  · obtain ⟨hdata, htaken⟩ := h.reads r hr
    refine ⟨hdata, htaken.1, fun f hf => ?_⟩
    rw [← byteAddress_eq]
    have hf' : Taken r.adr cfg.clocks f.taken := hf ▸ htaken
    exact hf'.decoded ((Nat.le_add_right _ _).trans (Nat.le_add_right _ _))
  · obtain ⟨-, hrest | ⟨k, j, hclock⟩ | hacked⟩ := h
    · simp [hrest.ack] at hack
    · simp [hclock.ack] at hack
    · exact ⟨hacked.request, fun i => (hacked.step hdiv i).ack⟩
  · exact Inv.answered hdiv js s h hreq ((wait_le s).trans hjs)

/-- A quad read of the word 5 in a flash whose bytes are their addresses. -/
theorem reads_served_quad :
    let cfg : Config := { pads := .quad, dummy := 4, div := 2, littleEndian := false }
    let contents : BitVec 24 → BitVec 8 := fun adr => adr.setWidth 8
    let input : Input cfg.width := { request := true, adr := 5, float := 0 }
    let s := (List.replicate 60 input).foldl (step cfg contents) (System.reset cfg.width)
    s.reads.length = 1 ∧ ∀ r ∈ s.reads, r.data = 0x14151617 := by
  intro cfg contents input s
  have hrun := reads_served cfg (by decide) contents (List.replicate 60 input)
  have hadr : ∀ r ∈ s.reads, r.adr = 5 := by decide +kernel
  refine ⟨by decide +kernel, fun r hr => ?_⟩
  rw [(hrun.1 r hr).1, hadr r hr]
  decide

end SpiFlash
end Hdmi2Usb
