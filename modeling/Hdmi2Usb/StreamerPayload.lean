import Hdmi2Usb.Streamer
import Hdmi2Usb.Runs
/-!
# StreamerPayload — the payload stream the streamer writes

A payload stream is a list of packets: a twelve-byte header with the frame id, at most 1012 data bytes, and a packet end
after the packet that ends an image.  What the streamer writes is one, under every pattern of stalls; but the FIFO is
popped when a header is completed, before a byte of it is taken, so the first byte of all is lost.
-/
namespace Hdmi2Usb
namespace Streamer

open Runs (AllSteps AllStates)

/-! ## Payload streams -/

/-- A payload packet.  `last` says that it ends an image. -/
structure Packet where
  fid  : Bool
  data : List Byte
  last : Bool

def header (fid : Bool) : List Byte := [0x0c, headerFlags fid] ++ List.replicate 10 0x00

def Packet.render (p : Packet) : List Out := (header p.fid ++ p.data).map .byte ++ if p.last then [.pktend] else []

/-! Successive packets are listed with the newest first. -/

def render : List Packet → List Out
  | []      => []
  | p :: ps => render ps ++ p.render

def data : List Packet → List Byte
  | []      => []
  | p :: ps => data ps ++ p.data

/-- The frame id changes after a packet that ends an image. -/
def nextFid : List Packet → Bool
  | []     => false
  | p :: _ => p.fid ^^ p.last

def ImageEnd (d : List Byte) : Prop := [0xff, 0xd9] <:+ d

/-- A packet has the frame id of its image and at most 1012 data bytes, and ends where the image does: at the end of
image, and with no end of image inside. -/
structure Continues (ps : List Packet) (p : Packet) : Prop where
  fid    : p.fid = nextFid ps
  size   : p.data.length ≤ 1012
  last   : p.last = true ↔ p.data ≠ [] ∧ ImageEnd (data ps ++ p.data)
  inside : ∀ x, x <+: p.data → x ≠ [] → x ≠ p.data → ¬ ImageEnd (data ps ++ x)

def Valid : List Packet → Prop
  | []      => True
  | p :: ps => Valid ps ∧ Continues ps p

@[simp] theorem length_header (fid : Bool) : (header fid).length = 12 := by cases fid <;> rfl

/-- The log is the packets, up to a header begun or a packet end still to come. -/
def Framed (ps : List Packet) (log : List Out) : Prop :=
  (∃ n, n ≤ 11 ∧ log = render ps ++ ((header (nextFid ps)).take n).map .byte) ∨ log ++ [.pktend] = render ps

/-- The FX2 has seen a payload stream of what has come from `input`, and every byte taken from the FIFO is in it. -/
def Lossless (input : Nat → Byte) (s : System) : Prop :=
  ∃ ps, Valid ps ∧ Framed ps s.log ∧ data ps = (List.range (data ps).length).map input ∧ s.popped ≤ (data ps).length

/-! ## Growing a payload stream -/

theorem imageEnd_concat (d : List Byte) (b : Byte) : ImageEnd (d ++ [b]) ↔ d.getLast?.getD 0 = 0xff ∧ b = 0xd9 := by
  unfold ImageEnd
  rcases List.eq_nil_or_concat d with rfl | ⟨d, a, rfl⟩
  · constructor
    · intro h
      have := h.length_le
      simp at this
    · rintro ⟨h, -⟩
      exact absurd h (by decide)
  · have hsplit : ([0xff, 0xd9] : List Byte) = [0xff] ++ [0xd9] := rfl
    rw [List.concat_eq_append, hsplit]
    constructor
    · intro h
      obtain ⟨x, hx⟩ := h
      rw [← List.append_assoc] at hx
      obtain ⟨h1, h2⟩ := List.append_inj' hx rfl
      obtain ⟨-, h3⟩ := List.append_inj' h1 rfl
      simp only [List.cons.injEq, and_true] at h2 h3
      simp [← h2, ← h3]
    · rintro ⟨ha, rfl⟩
      simp only [List.getLast?_append, List.getLast?_singleton, Option.some_or, Option.getD_some] at ha
      exact ⟨d, by rw [ha, List.append_assoc]⟩

theorem valid_header {ps : List Packet} (h : Valid ps) : Valid (⟨nextFid ps, [], false⟩ :: ps) := by
  refine ⟨h, rfl, Nat.zero_le _, by simp, ?_⟩
  intro x hx hne
  exact absurd (List.prefix_nil.1 hx) hne

/-- A byte goes on with a packet that has room; an end of image ends it. -/
theorem valid_byte {p : Packet} {ps : List Packet} (h : Valid (p :: ps)) (hlast : p.last = false)
    (hroom : p.data.length < 1012) (b : Byte) {last : Bool} (hb : last = true ↔ ImageEnd (data (p :: ps) ++ [b])) :
    Valid (⟨p.fid, p.data ++ [b], last⟩ :: ps) := by
  obtain ⟨hps, hp⟩ := h
  rw [data, List.append_assoc] at hb
  refine ⟨hps, hp.fid, ?_, ?_, ?_⟩
  · rw [List.length_append]
    exact hroom
  · rw [hb]
    simp
  · intro x hx hne hall
    rcases List.prefix_concat_iff.1 hx with rfl | hx
    · exact absurd rfl hall
    · by_cases hxp : x = p.data
      · rw [hxp] at hne ⊢
        intro hend
        have := hp.last.2 ⟨hne, hend⟩
        rw [hlast] at this
        exact Bool.false_ne_true this
      · exact hp.inside x hx hne hxp

theorem render_byte (p : Packet) (ps : List Packet) (b : Byte) (hlast : p.last = false) (last : Bool) :
    render (⟨p.fid, p.data ++ [b], last⟩ :: ps) =
      render (p :: ps) ++ [.byte b] ++ if last then [.pktend] else [] := by
  simp [render, Packet.render, hlast]

theorem data_byte (p : Packet) (ps : List Packet) (b : Byte) (last : Bool) :
    data (⟨p.fid, p.data ++ [b], last⟩ :: ps) = data (p :: ps) ++ [b] := by
  simp [data]

/-! ## What the process does in a packet -/

theorem mainP_idle {s : Regs} (hs : s.fsmState = .sendData) {stb full : Bool} (h : ¬ (stb = true ∧ full = true))
    (d : Byte) : mainP s stb full d = { s with fx2WrN := true, fx2PktendN := true } := by
  unfold mainP
  simp only [hs]
  rw [if_neg h]

theorem mainP_header {s : Regs} (hs : s.fsmState = .sendData) (hc : s.packetCounter ≤ 11) (d : Byte) :
    ∃ sent, mainP s true true d = { s with
      fx2WrN := false, fx2PktendN := true, packetCounter := s.packetCounter + 1, packetSent := sent,
      fx2Data := (header s.packetFid).getD s.packetCounter 0 } := by
  unfold mainP
  simp only [hs]
  rw [if_pos (by simp), if_neg (by omega)]
  by_cases h0 : s.packetCounter = 0
  · rw [if_pos h0]
    exact ⟨false, by simp [h0, header]⟩
  · rw [if_neg h0]
    by_cases h1 : s.packetCounter = 1
    · rw [if_pos h1]
      exact ⟨s.packetSent, by simp [h1, header]⟩
    · obtain ⟨c, hc2⟩ : ∃ c, s.packetCounter = c + 2 := ⟨s.packetCounter - 2, by omega⟩
      rw [if_neg h1, if_pos hc, hc2]
      refine ⟨s.packetSent, ?_⟩
      have hzero : (header s.packetFid).getD (c + 2) 0 = (List.replicate 10 (0x00 : Byte)).getD c 0 := rfl
      have hrep : (List.replicate 10 (0x00 : Byte)).getD c 0 = 0 := by
        rw [List.getD_eq_getElem?_getD, List.getElem?_replicate]
        split <;> rfl
      rw [hzero, hrep]

theorem mainP_full {s : Regs} (hs : s.fsmState = .sendData) (hc : s.packetCounter = 1024) (d : Byte) :
    mainP s true true d =
      { s with fx2WrN := true, fx2PktendN := true, fsmState := .wait, packetCounter := 0 } := by
  unfold mainP
  simp only [hs]
  rw [if_pos (by simp), if_pos hc]

theorem mainP_data {s : Regs} (hs : s.fsmState = .sendData) (hc : 12 ≤ s.packetCounter) (hc' : s.packetCounter < 1024)
    (d : Byte) : mainP s true true d =
      if s.sinkDataD = 0xff ∧ d = 0xd9 then
        { s with fx2WrN := false, fx2PktendN := true, fx2Data := d, sinkDataD := d, packetCounter := 0,
                 packetFid := !s.packetFid, fsmState := .packetEnd, packetSent := true }
      else
        { s with fx2WrN := false, fx2PktendN := true, fx2Data := d, sinkDataD := d,
                 packetCounter := s.packetCounter + 1 } := by
  unfold mainP
  simp only [hs]
  rw [if_pos (by simp), if_neg (by omega), if_neg (by omega), if_neg (by omega), if_neg (by omega)]

/-! ## The invariant -/

/-- Where the log stands among the packets, by the state of the machine. -/
def Phase (ps : List Packet) (s : System) : Prop :=
  match s.regs.fsmState with
  | .reset     => ps = [] ∧ s.regs.packetCounter = 0 ∧ s.log = []
  | .wait      => s.regs.packetCounter = 0 ∧ s.log = render ps
  | .packetEnd => s.regs.packetCounter = 0 ∧ s.log ++ [.pktend] = render ps
  | .sendData  =>
    (s.regs.packetCounter ≤ 11 ∧
      s.log = render ps ++ ((header (nextFid ps)).take s.regs.packetCounter).map .byte) ∨
    ∃ p older, ps = p :: older ∧ p.last = false ∧ s.regs.packetCounter = 12 + p.data.length ∧ s.log = render ps

/-- The streamer follows a payload stream of its input without its first byte.  While it sends data the FIFO is one byte
ahead of it; elsewhere the byte at the head of the FIFO is the last one taken. -/
structure Follows (input : Nat → Byte) (ps : List Packet) (s : System) : Prop where
  valid  : Valid ps
  phase  : Phase ps s
  fid    : s.regs.packetFid = nextFid ps
  prev   : s.regs.sinkDataD = (data ps).getLast?.getD 0
  bytes  : data ps = (List.range (data ps).length).map fun i => input (i + 1)
  popped : s.popped = (data ps).length + if sendingData s.regs then 1 else 0

theorem follows_start (input : Nat → Byte) (fx2Data : Byte) : Follows input [] (start fx2Data) :=
  ⟨trivial, ⟨rfl, rfl, rfl⟩, rfl, rfl, rfl, rfl⟩

theorem header_take_succ (fid : Bool) {n : Nat} (h : n ≤ 11) :
    (header fid).take n ++ [(header fid).getD n 0] = (header fid).take (n + 1) := by
  have hlt : n < (header fid).length := by rw [length_header]; omega
  rw [List.getD_eq_getElem?_getD, List.getElem?_eq_getElem hlt, Option.getD_some, List.take_append_getElem hlt]

theorem data_concat {input : Nat → Byte} {d : List Byte} (h : d = (List.range d.length).map fun i => input (i + 1)) :
    d ++ [input (d.length + 1)] =
      (List.range (d ++ [input (d.length + 1)]).length).map fun i => input (i + 1) := by
  rw [List.length_append, List.length_singleton, List.range_succ, List.map_append, ← h]
  rfl

/-- In a period without a stall, the FIFO is popped exactly when the process then sends data. -/
theorem popped_period (input : Nat → Byte) (s : System) : (period input s ⟨true, true⟩).popped =
    s.popped + if sendingData (period input s ⟨true, true⟩).regs then 1 else 0 := by
  simp only [period, sinkAck, Bool.and_true]
  split <;> rfl

theorem log_header {input : Nat → Byte} {ps : List Packet} {s : System} (h : Follows input ps s)
    (hs : s.regs.fsmState = .sendData) (hc : s.regs.packetCounter ≤ 11)
    (hlog : s.log = render ps ++ ((header (nextFid ps)).take s.regs.packetCounter).map .byte) :
    (period input s ⟨true, true⟩).log =
      render ps ++ ((header (nextFid ps)).take (s.regs.packetCounter + 1)).map .byte := by
  obtain ⟨sent, hm⟩ := mainP_header hs hc (input s.popped)
  have houts : outs (mainP s.regs true true (input s.popped)) =
      [.byte ((header s.regs.packetFid).getD s.regs.packetCounter 0)] := by
    rw [hm]
    rfl
  simp only [period]
  rw [houts, hlog, h.fid, ← header_take_succ _ hc, List.map_append, List.append_assoc]
  rfl

theorem popped_header {input : Nat → Byte} {ps : List Packet} {s : System} (h : Follows input ps s)
    (hc : s.regs.packetCounter ≤ 11) : s.popped = (data ps).length := by
  have hnot : sendingData s.regs = false := by simp [sendingData]; omega
  have hpopped := h.popped
  rwa [hnot] at hpopped

theorem follows_header {input : Nat → Byte} {ps : List Packet} {s : System} (h : Follows input ps s)
    (hs : s.regs.fsmState = .sendData) (hc : s.regs.packetCounter < 11)
    (hlog : s.log = render ps ++ ((header (nextFid ps)).take s.regs.packetCounter).map .byte) :
    Follows input ps (period input s ⟨true, true⟩) := by
  obtain ⟨sent, hm⟩ := mainP_header hs (by omega) (input s.popped)
  have hlog' := log_header h hs (by omega) hlog
  refine ⟨h.valid, ?_, ?_, ?_, h.bytes, ?_⟩
  · unfold Phase
    rw [hlog']
    simp only [period, hm, hs]
    left
    exact ⟨by omega, trivial⟩
  · simp [period, hm, h.fid]
  · simp [period, hm, h.prev]
  · have hnot : sendingData (period input s ⟨true, true⟩).regs = false := by
      simp [sendingData, period, hm, hs]
      omega
    rw [popped_period, popped_header h (by omega), hnot]

theorem follows_headerDone {input : Nat → Byte} {ps : List Packet} {s : System} (h : Follows input ps s)
    (hs : s.regs.fsmState = .sendData) (hc : s.regs.packetCounter = 11)
    (hlog : s.log = render ps ++ ((header (nextFid ps)).take s.regs.packetCounter).map .byte) :
    Follows input (⟨nextFid ps, [], false⟩ :: ps) (period input s ⟨true, true⟩) := by
  obtain ⟨sent, hm⟩ := mainP_header hs (by omega) (input s.popped)
  have hlog' := log_header h hs (by omega) hlog
  refine ⟨valid_header h.valid, ?_, ?_, ?_, ?_, ?_⟩
  · unfold Phase
    rw [hlog', hc, List.take_of_length_le (by simp)]
    simp only [period, hm, hs]
    right
    exact ⟨_, _, rfl, rfl, by rw [hc]; rfl, by simp [render, Packet.render]⟩
  · simp [period, hm, h.fid, nextFid]
  · simp [period, hm, h.prev, data]
  · simpa [data] using h.bytes
  · rw [popped_period, popped_header h (by omega)]
    simp [data]

theorem follows_data {input : Nat → Byte} {p : Packet} {ps : List Packet} {s : System} (h : Follows input (p :: ps) s)
    (hs : s.regs.fsmState = .sendData) (hlast : p.last = false) (hc : s.regs.packetCounter = 12 + p.data.length)
    (hroom : p.data.length < 1012) (hlog : s.log = render (p :: ps)) :
    ∃ ps', Follows input ps' (period input s ⟨true, true⟩) := by
  have hm := mainP_data hs (by omega) (by omega) (input s.popped)
  have hsending : sendingData s.regs = true := by simp [sendingData, hs]; omega
  have hpopped := h.popped
  rw [hsending, if_pos rfl] at hpopped
  have hend := imageEnd_concat (data (p :: ps)) (input s.popped)
  rw [← h.prev] at hend
  have hbytes := data_concat h.bytes
  rw [← hpopped] at hbytes
  have hlen : (data (p :: ps) ++ [input s.popped]).length = (data (p :: ps)).length + 1 := by simp
  by_cases heoi : s.regs.sinkDataD = 0xff ∧ input s.popped = 0xd9
  · rw [if_pos heoi] at hm
    refine ⟨⟨p.fid, p.data ++ [input s.popped], true⟩ :: ps,
      valid_byte h.valid hlast hroom _ (iff_of_true rfl (hend.2 heoi)), ?_, ?_, ?_, ?_, ?_⟩
    · simp only [Phase, period, hm]
      refine ⟨trivial, ?_⟩
      rw [render_byte p ps _ hlast true, hlog]
      rfl
    · simp [period, hm, h.fid, nextFid, hlast]
    · rw [data_byte]
      simp [period, hm]
    · rw [data_byte]
      exact hbytes
    · rw [popped_period, data_byte, hlen, hpopped]
  · rw [if_neg heoi] at hm
    refine ⟨⟨p.fid, p.data ++ [input s.popped], false⟩ :: ps,
      valid_byte h.valid hlast hroom _ (iff_of_false Bool.false_ne_true (fun hi => heoi (hend.1 hi))), ?_, ?_, ?_, ?_, ?_⟩
    · simp only [Phase, period, hm, hs]
      right
      refine ⟨_, _, rfl, rfl, ?_, ?_⟩
      · simp only [List.length_append, List.length_singleton]
        omega
      · rw [render_byte p ps _ hlast false, hlog]
        simp [outs]
    · simp [period, hm, h.fid, nextFid, hlast]
    · rw [data_byte]
      simp [period, hm]
    · rw [data_byte]
      exact hbytes
    · rw [popped_period, data_byte, hlen, hpopped]

theorem follows_stalled {input : Nat → Byte} {ps : List Packet} {s : System} (h : Follows input ps s)
    (hs : s.regs.fsmState = .sendData) {i : Stall} (hi : ¬ (i.sinkStb = true ∧ i.fx2FullN = true)) :
    Follows input ps (period input s i) := by
  have hm := mainP_idle hs hi (input s.popped)
  have hack : sinkAck (period input s i).regs i.sinkStb i.fx2FullN = false := by
    rw [Bool.eq_false_iff]
    intro hack
    simp only [sinkAck, Bool.and_eq_true] at hack
    exact hi ⟨hack.1.2, hack.2⟩
  have hregs : (period input s i).regs = { s.regs with fx2WrN := true, fx2PktendN := true } := hm
  have hpopped : (period input s i).popped = s.popped := by
    rw [period] at hack ⊢
    simp only at hack ⊢
    rw [hack]
    rfl
  have hlog : (period input s i).log = s.log := by simp [period, hm, outs]
  have hphase := h.phase
  refine ⟨h.valid, ?_, ?_, ?_, h.bytes, ?_⟩
  · unfold Phase at hphase ⊢
    rw [hregs, hlog]
    exact hphase
  · rw [hregs]
    exact h.fid
  · rw [hregs]
    exact h.prev
  · rw [hpopped, hregs, h.popped]
    rfl

def HeaderDone (s : System) (i : Stall) : Prop :=
  s.regs.fsmState = .sendData ∧ s.regs.packetCounter = 11 ∧ i.sinkStb = true ∧ i.fx2FullN = true

theorem follows_reset {input : Nat → Byte} {ps : List Packet} {s : System} (h : Follows input ps s)
    (hs : s.regs.fsmState = .reset) (i : Stall) : Follows input ps (period input s i) := by
  have hphase := h.phase
  unfold Phase at hphase
  rw [hs] at hphase
  obtain ⟨rfl, hc, hlog⟩ := hphase
  have hp : s.popped = 0 := by simpa [sendingData, hs, data] using h.popped
  refine ⟨trivial, ?_, ?_, ?_, rfl, ?_⟩
  · simp [Phase, period, mainP, hs, outs, hlog, render]
  · simp [period, mainP, hs, nextFid]
  · simp [period, mainP, hs, data]
  · simp [period, mainP, hs, data, sinkAck, sendingData, hp]

theorem follows_wait {input : Nat → Byte} {ps : List Packet} {s : System} (h : Follows input ps s)
    (hs : s.regs.fsmState = .wait) (i : Stall) : Follows input ps (period input s i) := by
  have hphase := h.phase
  unfold Phase at hphase
  rw [hs] at hphase
  obtain ⟨hc, hlog⟩ := hphase
  have hp : s.popped = (data ps).length := by simpa [sendingData, hs] using h.popped
  cases hfull : i.fx2FullN with
  | true =>
    refine ⟨h.valid, ?_, ?_, ?_, h.bytes, ?_⟩
    · simp [Phase, period, mainP, hs, hfull, outs, hlog, hc]
    · simp [period, mainP, hs, hfull, h.fid]
    · simp [period, mainP, hs, hfull, h.prev]
    · simp [period, mainP, hs, hfull, sinkAck, sendingData, hc, hp]
  | false =>
    refine ⟨h.valid, ?_, ?_, ?_, h.bytes, ?_⟩
    · simp [Phase, period, mainP, hs, hfull, outs, hlog, hc]
    · simp [period, mainP, hs, hfull, h.fid]
    · simp [period, mainP, hs, hfull, h.prev]
    · simp [period, mainP, hs, hfull, sinkAck, sendingData, hp]

theorem follows_packetEnd {input : Nat → Byte} {ps : List Packet} {s : System} (h : Follows input ps s)
    (hs : s.regs.fsmState = .packetEnd) (i : Stall) : Follows input ps (period input s i) := by
  have hphase := h.phase
  unfold Phase at hphase
  rw [hs] at hphase
  obtain ⟨hc, hlog⟩ := hphase
  have hp : s.popped = (data ps).length := by simpa [sendingData, hs] using h.popped
  refine ⟨h.valid, ?_, ?_, ?_, h.bytes, ?_⟩
  · simp [Phase, period, mainP, hs, outs, hlog, hc]
  · simp [period, mainP, hs, h.fid]
  · simp [period, mainP, hs, h.prev]
  · simp [period, mainP, hs, sinkAck, sendingData, hp]

/-- A packet that is full is over without a byte. -/
theorem follows_full {input : Nat → Byte} {ps : List Packet} {s : System} (h : Follows input ps s)
    (hs : s.regs.fsmState = .sendData) (hc : s.regs.packetCounter = 1024) (hlog : s.log = render ps) :
    Follows input ps (period input s ⟨true, true⟩) := by
  have hm := mainP_full hs hc (input s.popped)
  have hp : s.popped = (data ps).length := by
    have hnot : sendingData s.regs = false := by simp [sendingData, hc]
    have hpopped := h.popped
    rwa [hnot] at hpopped
  refine ⟨h.valid, ?_, ?_, ?_, h.bytes, ?_⟩
  · simp [Phase, period, hm, outs, hlog]
  · simp [period, hm, h.fid]
  · simp [period, hm, h.prev]
  · rw [popped_period, hp]

/-- **One period** keeps the streamer on a payload stream. -/
theorem follows_period {input : Nat → Byte} {ps : List Packet} {s : System} (h : Follows input ps s) (i : Stall) :
    ∃ ps', Follows input ps' (period input s i) ∧ (ps' = ps ∨ HeaderDone s i ∨ ps ≠ []) := by
  cases hs : s.regs.fsmState with
  | reset => exact ⟨ps, follows_reset h hs i, Or.inl rfl⟩
  | wait => exact ⟨ps, follows_wait h hs i, Or.inl rfl⟩
  | packetEnd => exact ⟨ps, follows_packetEnd h hs i, Or.inl rfl⟩
  | sendData =>
    have hphase := h.phase
    unfold Phase at hphase
    rw [hs] at hphase
    by_cases hi : i.sinkStb = true ∧ i.fx2FullN = true
    · obtain ⟨stb, full⟩ := i
      obtain ⟨rfl, rfl⟩ := hi
      rcases hphase with ⟨hc, hlog⟩ | ⟨p, older, rfl, hlast, hc, hlog⟩
      · by_cases hdone : s.regs.packetCounter = 11
        · exact ⟨_, follows_headerDone h hs hdone hlog, Or.inr (Or.inl ⟨hs, hdone, rfl, rfl⟩)⟩
        · exact ⟨ps, follows_header h hs (by omega) hlog, Or.inl rfl⟩
      · have hsize := h.valid.2.size
        by_cases hroom : p.data.length < 1012
        · obtain ⟨ps', h'⟩ := follows_data h hs hlast hc hroom hlog
          exact ⟨ps', h', Or.inr (Or.inr (List.cons_ne_nil _ _))⟩
        · exact ⟨p :: older, follows_full h hs (by omega) hlog, Or.inl rfl⟩
    · exact ⟨ps, follows_stalled h hs hi, Or.inl rfl⟩

/-! ## Progress -/

/-- A packet is under way, and is not full. -/
def Sends (s : System) : Prop := s.regs.fsmState = .sendData ∧ s.regs.packetCounter < 1024

/-- A period without a stall writes the next byte of the header, or the byte at the head of the FIFO. -/
theorem log_enabled (input : Nat → Byte) {s : System} (h : Sends s) : (period input s ⟨true, true⟩).log = s.log ++
    [.byte (if s.regs.packetCounter ≤ 11 then (header s.regs.packetFid).getD s.regs.packetCounter 0
      else input s.popped)] := by
  obtain ⟨hs, hc⟩ := h
  by_cases hheader : s.regs.packetCounter ≤ 11
  · obtain ⟨sent, hm⟩ := mainP_header hs hheader (input s.popped)
    rw [if_pos hheader]
    simp only [period, hm]
    rfl
  · have hm := mainP_data hs (by omega) hc (input s.popped)
    rw [if_neg hheader]
    simp only [period, hm]
    split <;> rfl

/-- Behind the end of a packet it takes a period until the FX2 is waited for, and one until the next packet. -/
theorem sends_after {input : Nat → Byte} {ps : List Packet} {s : System} (h : Follows input ps s) :
    ∃ n, n ≤ 2 ∧ Sends ((List.replicate n ⟨true, true⟩).foldl (period input) s) := by
  have hphase := h.phase
  unfold Phase at hphase
  cases hs : s.regs.fsmState with
  | reset =>
    refine ⟨2, by decide, ?_⟩
    simp [Sends, List.replicate, period, mainP, hs]
  | wait =>
    rw [hs] at hphase
    refine ⟨1, by decide, ?_⟩
    simp [Sends, List.replicate, period, mainP, hs, hphase.1]
  | packetEnd =>
    rw [hs] at hphase
    refine ⟨2, by decide, ?_⟩
    simp [Sends, List.replicate, period, mainP, hs, hphase.1]
  | sendData =>
    by_cases hc : s.regs.packetCounter < 1024
    · exact ⟨0, by decide, hs, hc⟩
    · rw [hs] at hphase
      have hfull : s.regs.packetCounter = 1024 := by
        rcases hphase with ⟨hle, -⟩ | ⟨p, older, rfl, -, hlen, -⟩
        · omega
        · have hsize := h.valid.2.size
          omega
      have hm := mainP_full hs hfull (input s.popped)
      refine ⟨2, by decide, ?_⟩
      simp [Sends, List.replicate, period, hm]
      simp [mainP]

/-! ## The run -/

theorem framed_of_follows {input : Nat → Byte} {ps : List Packet} {s : System} (h : Follows input ps s) :
    Framed ps s.log := by
  have hphase := h.phase
  unfold Phase at hphase
  cases hs : s.regs.fsmState with
  | reset =>
    rw [hs] at hphase
    obtain ⟨rfl, -, hlog⟩ := hphase
    exact Or.inl ⟨0, Nat.zero_le _, by simpa [render] using hlog⟩
  | wait =>
    rw [hs] at hphase
    exact Or.inl ⟨0, Nat.zero_le _, by simpa using hphase.2⟩
  | packetEnd =>
    rw [hs] at hphase
    exact Or.inr hphase.2
  | sendData =>
    rw [hs] at hphase
    rcases hphase with ⟨hc, hlog⟩ | ⟨p, older, -, -, -, hlog⟩
    · exact Or.inl ⟨_, hc, hlog⟩
    · exact Or.inl ⟨0, Nat.zero_le _, by simpa using hlog⟩

theorem length_render : ∀ ps : List Packet,
    (render ps).length = 12 * ps.length + (data ps).length + ps.countP (·.last)
  | [] => rfl
  | p :: ps => by
    cases hp : p.last with
    | false => simp [render, data, Packet.render, length_render ps, hp]; omega
    | true => simp [render, data, Packet.render, length_render ps, hp]; omega

theorem data_nil_of_header {ps : List Packet} (hv : Valid ps) (h : Framed ps ((header false).map .byte)) :
    data ps = [] := by
  have hlen := length_render ps
  rcases h with ⟨n, -, hlog⟩ | hlog
  · have hl := congrArg List.length hlog
    simp only [List.length_map, length_header, List.length_append] at hl
    match ps with
    | [] => rfl
    | p :: ps =>
      rw [List.length_cons] at hlen
      exact List.eq_nil_of_length_eq_zero (by omega)
  · have hl := congrArg List.length hlog
    simp only [List.length_map, length_header, List.length_append, List.length_singleton] at hl
    match ps with
    | [] => rfl
    | [p] =>
      by_cases hlast : p.last = true
      · have hne := (hv.2.last.1 hlast).1
        have hpos := List.length_pos_of_ne_nil hne
        simp [data, hlast] at hlen
        omega
      · have hmem : Out.pktend ∈ render [p] := by
          rw [← hlog]
          simp
        simp [render, Packet.render, hlast] at hmem
    | p :: q :: ps =>
      simp only [List.length_cons] at hlen
      omega

theorem not_lossless_of_header {input : Nat → Byte} {s : System} (hlog : s.log = (header false).map .byte)
    (hpopped : 0 < s.popped) : ¬ Lossless input s := by
  rintro ⟨ps, hv, hf, -, hle⟩
  rw [hlog] at hf
  rw [data_nil_of_header hv hf, List.length_nil] at hle
  omega

/-- Until a header is completed nothing has been taken from the FIFO, and nothing is lost. -/
theorem lossless_of_follows_nil {input : Nat → Byte} {s : System} (h : Follows input [] s) : Lossless input s := by
  refine ⟨[], trivial, framed_of_follows h, rfl, ?_⟩
  have hphase := h.phase
  have hpopped := h.popped
  have hnot : sendingData s.regs = false := by
    cases hs : s.regs.fsmState with
    | sendData =>
      simp only [Phase, hs] at hphase
      rcases hphase with ⟨hc, -⟩ | ⟨p, older, hps, -⟩
      · simp [sendingData]; omega
      · cases hps
    | _ => simp [sendingData, hs]
  rw [hnot] at hpopped
  exact Nat.le_of_eq hpopped

/-- Of the first periods, the one that completes the header is the one that loses a byte. -/
theorem lossless_period_iff {input : Nat → Byte} {s : System} (h : Follows input [] s) (i : Stall) :
    Lossless input (period input s i) ↔ ¬ HeaderDone s i := by
  constructor
  · rintro hl ⟨hs, hc, hstb, hfull⟩
    obtain ⟨stb, full⟩ := i
    obtain rfl : stb = true := hstb
    obtain rfl : full = true := hfull
    have hphase := h.phase
    simp only [Phase, hs] at hphase
    rcases hphase with ⟨hle, hlog⟩ | ⟨p, older, hps, -⟩
    · have hdone := follows_headerDone h hs hc hlog
      have hlog' := log_header h hs hle hlog
      rw [hc, List.take_of_length_le (by simp)] at hlog'
      refine not_lossless_of_header hlog' ?_ hl
      have hsending : sendingData (period input s ⟨true, true⟩).regs = true := by
        obtain ⟨sent, hm⟩ := mainP_header hs hle (input s.popped)
        simp [sendingData, period, hm, hs, hc]
      rw [popped_period, hsending, if_pos rfl]
      omega
    · cases hps
  · intro hnot
    obtain ⟨ps', h', hps | hdone | hne⟩ := follows_period h i
    · rw [hps] at h'
      exact lossless_of_follows_nil h'
    · exact absurd hdone hnot
    · exact absurd rfl hne

def Streams (input : Nat → Byte) (s : System) : Prop :=
  ∃ ps, Valid ps ∧ Framed ps s.log ∧ data ps = (List.range (data ps).length).map input

/-- **The first byte is lost, and only that**: a run is lossless exactly as long as no header is completed, and what
every run writes is the payload stream of the input after its first byte.  Of three periods without a stall one writes the
next byte. -/
theorem lossless_iff (input : Nat → Byte) (fx2Data : Byte) (is : List Stall) :
    (AllStates (period input) (Lossless input) (start fx2Data) is ↔
      AllSteps (period input) (fun s i => ¬ HeaderDone s i) (start fx2Data) is) ∧
    AllStates (period input) (Streams fun i => input (i + 1)) (start fx2Data) is ∧
    ∃ n, n ≤ 2 ∧ ∃ b,
      let s := (List.replicate n ⟨true, true⟩).foldl (period input) (is.foldl (period input) (start fx2Data))
      (period input s ⟨true, true⟩).log = s.log ++ [.byte b] := by
  have hstart := follows_start input fx2Data
  have hinv : ∀ (s : System) (i : Stall), (∃ ps, Follows input ps s) → ∃ ps, Follows input ps (period input s i) := by
    rintro s i ⟨ps, h⟩
    obtain ⟨ps', h', -⟩ := follows_period h i
    exact ⟨ps', h'⟩
  refine ⟨?_, ?_, ?_⟩
  · have hkeep : ∀ (s : System) (i : Stall), Follows input [] s → ¬ HeaderDone s i → Follows input [] (period input s i) := by
      intro s i h hnot
      obtain ⟨ps', h', hps | hdone | hne⟩ := follows_period h i
      · rwa [hps] at h'
      · exact absurd hdone hnot
      · exact absurd rfl hne
    exact Runs.allStates_iff_allSteps (fun _ h => lossless_of_follows_nil h) (fun _ i h => lossless_period_iff h i)
      hkeep is hstart
  · rw [Runs.allStates_iff_prefix]
    intro pre _
    obtain ⟨ps, h⟩ := Runs.foldl_inv hinv pre ⟨[], hstart⟩
    exact ⟨ps, h.valid, framed_of_follows h, h.bytes⟩
  · obtain ⟨ps, h⟩ := Runs.foldl_inv hinv is ⟨[], hstart⟩
    obtain ⟨n, hn, hsends⟩ := sends_after h
    exact ⟨n, hn, _, log_enabled input hsends⟩

/-- The smallest image: a start and an end marker. -/
def soiEoi (i : Nat) : Byte := [0xff, 0xd8, 0xff, 0xd9].getD i 0

/-- Without any stall, the first header is followed by the second byte of the image. -/
theorem not_lossless_soiEoi :
    let s := (List.replicate 14 ⟨true, true⟩).foldl (period soiEoi) (start 0)
    ¬ Lossless soiEoi s ∧ (period soiEoi s ⟨true, true⟩).log = (header false ++ [0xd8]).map .byte := by
  refine ⟨not_lossless_of_header (by decide) (by decide), by decide⟩

end Streamer
end Hdmi2Usb
