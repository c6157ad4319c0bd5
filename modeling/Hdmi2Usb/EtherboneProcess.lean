import Hdmi2Usb.Etherbone
/-!
# EtherboneProcess — what serving a packet does to the bus and to the reply

The receiver's length is that of a layout in sections: the read section, when there is one, follows the write section.
`Served` says what a packet asks for under a choice of where its read section lies, and `process` serves every supported
packet as if the read section were at offset 12, where the write section is (`process_served`).  So it follows the
layout only while a packet has no more than one of the two.
-/
namespace Hdmi2Usb
namespace Etherbone

open Memory (window store move be16 be32 bytes32)

variable {β : Type*} (bus : Bus β)

/-! ## The layout -/

/-- Where the read section starts, in a packet of `wcount` writes. -/
def readSection (wcount : Nat) : Nat := headerLength + (if wcount ≠ 0 then (1 + wcount) * 4 else 0)

/-- Where the `j`-th read address is: the section starts with its base address. -/
def readAddr (wcount j : Nat) : Nat := readSection wcount + 4 + 4 * j

def writeOp (p : Nat → Byte) (i : Nat) : Op :=
  .write (headerLength + 4 + 4 * i) (be32 p headerLength + BitVec.ofNat 32 (4 * i)) (be32 p (headerLength + 4 + 4 * i))

def reads (p : Nat → Byte) (addrAt : Nat → Nat) (values : List (BitVec 32)) : List Op :=
  values.mapIdx fun j v => .read (addrAt j) (be32 p (addrAt j)) v

/-- A reply is a write packet: the values, from the base address it was asked to return them to. -/
structure IsReply (base : BitVec 32) (values : List (BitVec 32)) (reply : Nat → Byte) : Prop where
  supported : Supported reply
  wcount    : wcount reply = values.length
  rcount    : rcount reply = 0
  base      : be32 reply headerLength = base
  value     : ∀ j (h : j < values.length), be32 reply (headerLength + 4 + 4 * j) = values[j]

/-- What serving `p` has to do, with the read section's base address at `baseAt` and its addresses at `addrAt`. -/
def Served (p : Nat → Byte) (baseAt : Nat) (addrAt : Nat → Nat) (ops : List Op) : Prop :=
  ∃ values sends, values.length = rcount p ∧ ops = (List.range (wcount p)).map (writeOp p) ++ reads p addrAt values ++ sends ∧
    if rcount p = 0 then sends = []
    else ∃ reply, IsReply (be32 p baseAt) values reply ∧
      sends = [.send (window reply 0 (packetLength (rcount p) 0))]

/-! ## The loops -/

/-- The bus behind the first writes of a packet. -/
def written (p : Nat → Byte) (b : β) (w : Nat) : β :=
  (List.range w).foldl
    (fun b i => bus.write b (be32 p baseOffset + BitVec.ofNat 32 (4 * i)) (be32 p (recordOffset i))) b

/-- The words that the bus gives for the first read addresses of a packet, and the bus behind them. -/
def answered (p : Nat → Byte) (b : β) (r : Nat) : List (BitVec 32) × β :=
  (List.range r).foldl
    (fun (values, b) j => (values ++ [(bus.read b (be32 p (recordOffset j))).1], (bus.read b (be32 p (recordOffset j))).2))
    ([], b)

theorem answered_succ (p : Nat → Byte) (b : β) (r : Nat) : answered bus p b (r + 1) =
    ((answered bus p b r).1 ++ [(bus.read (answered bus p b r).2 (be32 p (recordOffset r))).1],
      (bus.read (answered bus p b r).2 (be32 p (recordOffset r))).2) := by
  rw [answered, List.range_succ, List.foldl_append]
  rfl

theorem writeLoop_eq (p : Nat → Byte) (s : Server β) : ∀ w : Nat,
    writeLoop bus p w s = (be32 p baseOffset + BitVec.ofNat 32 (4 * w),
      { s with bus := written bus p s.bus w, ops := s.ops ++ (List.range w).map (writeOp p) })
  | 0 => by simp [writeLoop, written]
  | w + 1 => by
    have hb := writeLoop_eq p s w
    have hsucc : writeLoop bus p (w + 1) s =
        ((writeLoop bus p w s).1 + 4, write bus (writeLoop bus p w s).2 (recordOffset w) (writeLoop bus p w s).1
          (be32 p (recordOffset w))) := by
      simp [writeLoop, List.range_succ]
    have haddr : be32 p baseOffset + BitVec.ofNat 32 (4 * w) + 4 = be32 p baseOffset + BitVec.ofNat 32 (4 * (w + 1)) := by
      rw [BitVec.add_assoc, Nat.mul_succ, BitVec.ofNat_add]
      rfl
    have hop : writeOp p w =
        .write (recordOffset w) (be32 p baseOffset + BitVec.ofNat 32 (4 * w)) (be32 p (recordOffset w)) := rfl
    rw [hsucc, hb, haddr]
    simp [write, written, List.range_succ, hop]

structure ReadDone (p : Nat → Byte) (r : Nat) (s t : Server β) (values : List (BitVec 32)) : Prop where
  answered  : (values, t.bus) = answered bus p s.bus r
  length    : values.length = r
  ops       : t.ops = s.ops ++ reads p recordOffset values
  value     : ∀ j (h : j < values.length), be32 t.txBuf (recordOffset j) = values[j]
  header    : ∀ a, a < sizeofPacket → t.txBuf a = s.txBuf a
  queued    : t.outputDataLen = s.outputDataLen
  delivered : t.delivered = s.delivered

theorem readLoop_done (p : Nat → Byte) (s : Server β) : ∀ r : Nat,
    ∃ values, ReadDone bus p r s (readLoop bus p r s) values
  | 0 => ⟨[], by constructor <;> simp [readLoop, reads, answered]⟩
  | r + 1 => by
    obtain ⟨values, h⟩ := readLoop_done p s r
    have hsucc : readLoop bus p (r + 1) s = readTurn bus p (readLoop bus p r s) r := by
      simp [readLoop, List.range_succ]
    rw [hsucc]
    generalize readLoop bus p r s = t at h
    refine ⟨values ++ [(bus.read t.bus (be32 p (recordOffset r))).1], ?_, ?_, ?_, ?_, ?_, h.queued, h.delivered⟩
    · rw [answered_succ, ← h.answered]
      rfl
    · simp [h.length]
    · simp [readTurn, h.ops, reads, List.mapIdx_append, h.length]
    · intro j hj
      rw [List.length_append, List.length_singleton, h.length] at hj
      by_cases hjr : j = r
      · have hlen := h.length
        rw [List.getElem_append_right (by omega)]
        simp [readTurn, hjr, Memory.be32_store]
      · rw [List.getElem_append_left (by rw [h.length]; omega), ← h.value j (by rw [h.length]; omega)]
        apply Memory.be32_congr
        intro i hi
        exact Memory.store_of_lt _ _ (by unfold recordOffset; omega)
    · intro a ha
      rw [← h.header a ha]
      exact Memory.store_of_lt _ _ (by unfold recordOffset; unfold sizeofPacket at ha; omega)

/-! ## The reply -/

theorem replyHeader_of_ge (m : Nat → Byte) (r : Nat) (base : BitVec 32) {a : Nat} (h : sizeofPacket ≤ a) :
    replyHeader m r base a = m a := by
  unfold sizeofPacket at h
  unfold replyHeader
  rw [Memory.store_of_ge _ _ (by simpa [baseOffset] using h), Memory.store_of_ge _ _ (by simp; omega),
    Memory.store_of_ge _ _ (by simp; omega)]

theorem isReply_replyHeader {m : Nat → Byte} {r : Nat} (base : BitVec 32) {values : List (BitVec 32)}
    (hr : r < 256) (hlen : values.length = r)
    (hval : ∀ j (h : j < values.length), be32 m (recordOffset j) = values[j]) :
    IsReply base values (replyHeader m r base) := by
  refine ⟨⟨?_, ?_, ?_⟩, ?_, ?_, ?_, ?_⟩
  · simp [replyHeader, be16, store, baseOffset, magic]
  · simp [replyHeader, addrSize, store, baseOffset]
  · simp [replyHeader, portSize, store, baseOffset]
  · simp [replyHeader, wcount, store, baseOffset, hlen, Nat.mod_eq_of_lt hr]
  · simp [replyHeader, rcount, store, baseOffset]
  · exact Memory.be32_store _ _ _
  · intro j hj
    rw [← hval j hj]
    apply Memory.be32_congr
    intro i _
    exact replyHeader_of_ge m r base (by unfold sizeofPacket headerLength; omega)

theorem rcount_lt (p : Nat → Byte) : rcount p < 256 := (p 11).isLt

structure Built (p : Nat → Byte) (s t : Server β) (values : List (BitVec 32)) : Prop where
  answered  : (values, t.bus) = answered bus p s.bus (rcount p)
  length    : values.length = rcount p
  ops       : t.ops = s.ops ++ reads p recordOffset values
  reply     : IsReply (be32 p baseOffset) values t.txBuf
  queued    : t.outputDataLen = s.outputDataLen
  delivered : t.delivered = s.delivered

theorem buildReply_built (p : Nat → Byte) (s : Server β) : ∃ values, Built bus p s (buildReply bus p s) values := by
  obtain ⟨values, hd⟩ := readLoop_done bus p s (rcount p)
  exact ⟨values, hd.answered, hd.length, hd.ops, isReply_replyHeader _ (rcount_lt p) hd.length hd.value, hd.queued,
    hd.delivered⟩

theorem process_eq (s : Server β) {p : Nat → Byte} (h : Supported p) : process bus s p =
    let s := { s with bus := written bus p s.bus (wcount p), ops := s.ops ++ (List.range (wcount p)).map (writeOp p) }
    if 0 < rcount p then tcpSocketSend (buildReply bus p s) (packetLength (rcount p) 0) else s := by
  have hw : (if 0 < wcount p then (writeLoop bus p (wcount p) s).2 else s) =
      { s with bus := written bus p s.bus (wcount p), ops := s.ops ++ (List.range (wcount p)).map (writeOp p) } := by
    by_cases hpos : 0 < wcount p
    · rw [if_pos hpos, writeLoop_eq bus p s (wcount p)]
    · rw [if_neg hpos, Nat.eq_zero_of_not_pos hpos]
      simp [written]
  unfold process
  simp only [if_pos h, hw]
  by_cases hr : 0 < rcount p
  · have hlen : packetLength (rcount p) 0 = sizeofPacket + 4 * rcount p := by
      unfold packetLength sizeofPacket headerLength
      rw [if_pos (by omega), if_neg (by simp)]
      omega
    rw [if_pos hr, if_pos hr, hlen]
  · rw [if_neg hr, if_neg hr]

/-- **What `process` does**: a supported packet is served as if its read section were at offset 12. -/
theorem process_served (s : Server β) {p : Nat → Byte} (h : Supported p) :
    ∃ ops, (process bus s p).ops = s.ops ++ ops ∧ Served p baseOffset recordOffset ops := by
  rw [process_eq bus s h]
  by_cases hr : 0 < rcount p
  · obtain ⟨values, hbuilt⟩ := buildReply_built bus p
      { s with bus := written bus p s.bus (wcount p), ops := s.ops ++ (List.range (wcount p)).map (writeOp p) }
    simp only [if_pos hr]
    generalize buildReply bus p { s with
      bus := written bus p s.bus (wcount p), ops := s.ops ++ (List.range (wcount p)).map (writeOp p) } = t at hbuilt ⊢
    refine ⟨(List.range (wcount p)).map (writeOp p) ++ reads p recordOffset values ++
      [.send (window t.txBuf 0 (packetLength (rcount p) 0))], ?_, values, _, hbuilt.length, rfl, ?_⟩
    · simp [tcpSocketSend, hbuilt.ops]
    · rw [if_neg (by omega)]
      exact ⟨t.txBuf, hbuilt.reply, rfl⟩
  · have hr0 := Nat.eq_zero_of_not_pos hr
    simp only [if_neg hr]
    exact ⟨(List.range (wcount p)).map (writeOp p), rfl, [], [], by simp [reads, hr0]⟩

theorem process_unsupported (s : Server β) {p : Nat → Byte} (h : ¬ Supported p) : process bus s p = s := by
  unfold process
  rw [if_neg h]

/-! ## The layout, as served -/

/-- `process` serves `p` by the layout the receiver measures it with. -/
def MeetsLayout (s : Server β) (p : Nat → Byte) : Prop :=
  ∃ ops, (process bus s p).ops = s.ops ++ ops ∧ Served p (readSection (wcount p)) (readAddr (wcount p)) ops

theorem served_noReads {p : Nat → Byte} (h : rcount p = 0) {a a' : Nat} {f f' : Nat → Nat} {ops : List Op}
    (hs : Served p a f ops) : Served p a' f' ops := by
  obtain ⟨values, sends, hlen, hops, hsends⟩ := hs
  have hnil : values = [] := List.eq_nil_of_length_eq_zero (by omega)
  subst hnil
  rw [if_pos h] at hsends
  exact ⟨[], sends, hlen, hops, by rw [if_pos h]; exact hsends⟩

theorem served_nil_iff (p : Nat → Byte) (a : Nat) (f : Nat → Nat) : Served p a f [] ↔ wcount p = 0 ∧ rcount p = 0 := by
  constructor
  · rintro ⟨values, sends, hlen, hops, hsends⟩
    have h := congrArg List.length hops
    simp [reads, hlen] at h
    omega
  · rintro ⟨hw, hr⟩
    exact ⟨[], [], hr.symm, by simp [reads, hw], by rw [if_pos hr]⟩

theorem served_addrAt {p : Nat → Byte} (h : rcount p ≠ 0) {a a' : Nat} {f f' : Nat → Nat} {ops : List Op}
    (hs : Served p a f ops) (hs' : Served p a' f' ops) : f 0 = f' 0 := by
  obtain ⟨values, sends, hlen, hops, -⟩ := hs
  obtain ⟨values', sends', hlen', hops', -⟩ := hs'
  rw [hops, List.append_assoc, List.append_assoc] at hops'
  have heq := List.append_cancel_left hops'
  cases values with
  | nil => exact absurd hlen.symm h
  | cons v values =>
    cases values' with
    | nil => exact absurd hlen'.symm h
    | cons v' values' =>
      simp only [reads, List.mapIdx_cons, List.cons_append, List.cons.injEq, Op.read.injEq] at heq
      exact heq.1.1

theorem meetsLayout_of_one (s : Server β) {p : Nat → Byte} (h : Supported p) (hone : wcount p = 0 ∨ rcount p = 0) :
    MeetsLayout bus s p := by
  obtain ⟨ops, hops, hserved⟩ := process_served bus s h
  refine ⟨ops, hops, ?_⟩
  cases hone with
  | inl hw =>
    have hsame : readAddr (wcount p) = recordOffset := by
      funext j
      rw [hw]
      rfl
    rw [hsame, hw]
    exact hserved
  | inr hr => exact served_noReads hr hserved

theorem not_meetsLayout_of_both (s : Server β) {p : Nat → Byte} (h : Supported p) (hw : wcount p ≠ 0)
    (hr : rcount p ≠ 0) : ¬ MeetsLayout bus s p := by
  obtain ⟨ops, hops, hserved⟩ := process_served bus s h
  rintro ⟨ops', hops', hserved'⟩
  rw [hops] at hops'
  rw [← List.append_cancel_left hops'] at hserved'
  have h0 := served_addrAt hr hserved hserved'
  unfold recordOffset readAddr readSection headerLength at h0
  rw [if_pos hw] at h0
  omega

theorem meetsLayout_unsupported (s : Server β) {p : Nat → Byte} (h : ¬ Supported p) :
    MeetsLayout bus s p ↔ wcount p = 0 ∧ rcount p = 0 := by
  unfold MeetsLayout
  rw [process_unsupported bus s h, ← served_nil_iff p (readSection (wcount p)) (readAddr (wcount p))]
  constructor
  · rintro ⟨ops, hops, hs⟩
    have hnil : ops = [] := by simpa using hops
    rwa [hnil] at hs
  · intro hs
    exact ⟨[], by simp, hs⟩

/-- **The layout is served** exactly for the supported packets that do not both write and read, and for those that do
neither. -/
theorem meetsLayout_iff (s : Server β) (p : Nat → Byte) : MeetsLayout bus s p ↔
    (Supported p ∧ (wcount p = 0 ∨ rcount p = 0)) ∨ (wcount p = 0 ∧ rcount p = 0) := by
  by_cases h : Supported p
  · by_cases hone : wcount p = 0 ∨ rcount p = 0
    · exact iff_of_true (meetsLayout_of_one bus s h hone) (Or.inl ⟨h, hone⟩)
    · refine iff_of_false ?_ ?_
      · exact not_meetsLayout_of_both bus s h (fun hw => hone (Or.inl hw)) (fun hr => hone (Or.inr hr))
      · rintro (⟨-, hc⟩ | ⟨hw, -⟩)
        · exact hone hc
        · exact hone (Or.inl hw)
  · rw [meetsLayout_unsupported bus s h]
    constructor
    · exact Or.inr
    · rintro (⟨hc, -⟩ | hc)
      · exact absurd hc h
      · exact hc

def addressBus : Bus Unit := ⟨fun _ _ _ => (), fun _ addr => (addr, ())⟩

/-- A write of `0x11223344` to `0x1000` and a read of `0x2000`, to be returned to `0x3000`. -/
def writeAndRead : List Byte :=
  [0x4e, 0x6f, 0x10, 0x44, 0, 0, 0, 0, 0, 0, 1, 1, 0, 0, 0x10, 0, 0x11, 0x22, 0x33, 0x44, 0, 0, 0x30, 0, 0, 0, 0x20, 0]

/-- The value written is taken for the address to read. -/
theorem not_meetsLayout_writeAndRead :
    let s := connected () fun _ => 0
    let p := fun i => writeAndRead.getD i 0
    (process addressBus s p).ops.take 2 =
        [.write 16 0x1000 0x11223344, .read 16 0x11223344 0x11223344] ∧ ¬ MeetsLayout addressBus s p := by
  refine ⟨by decide, ?_⟩
  exact not_meetsLayout_of_both addressBus _ (by decide) (by decide) (by decide)

end Etherbone
end Hdmi2Usb
