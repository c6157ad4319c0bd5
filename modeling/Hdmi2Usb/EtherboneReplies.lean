import Hdmi2Usb.EtherboneProcess
import Hdmi2Usb.Runs
/-!
# EtherboneReplies — the replies as a byte stream

The buffer a reply is built in is the socket's output queue.  A reply built while nothing is queued is queued where it
was built, and the stream has one complete reply for each packet that asks for one, with the words that the bus has given
for it (`replies_intact`).  A reply built while others wait is built over them.
-/
namespace Hdmi2Usb
namespace Etherbone

open Memory (window move be32)
open Runs (AllSteps AllStates)

variable {β : Type*} (bus : Bus β)

inductive Event
  | packet (p : Nat → Byte)
  | acked (n : Nat)

def step (s : Server β) : Event → Server β
  | .packet p => process bus s p
  | .acked n  => acked s n

def queue (s : Server β) : List Byte := window s.txBuf 0 s.outputDataLen

/-- A packet that asks for a reply. -/
def Asks (p : Nat → Byte) : Prop := Supported p ∧ 0 < rcount p

instance (p : Nat → Byte) : Decidable (Asks p) := inferInstanceAs (Decidable (_ ∧ _))

/-- The whole reply to a packet: the words that the bus gives for its read addresses, behind its writes. -/
def Reply (b : β) (p : Nat → Byte) (reply : List Byte) : Prop :=
  ∃ m, IsReply (be32 p baseOffset) (answered bus p (written bus p b (wcount p)) (rcount p)).1 m ∧
    reply = window m 0 (packetLength (rcount p) 0)

/-- A packet leaves the queued bytes as they are and queues its whole reply behind them; bytes leave the queue in order. -/
def Undisturbed (s : Server β) (e : Event) : Prop :=
  match e with
  | .packet p => window (process bus s p).txBuf 0 s.outputDataLen = queue s ∧ (process bus s p).delivered = s.delivered ∧
      if Asks p then ∃ reply, Reply bus s.bus p reply ∧ queue (process bus s p) = queue s ++ reply
      else queue (process bus s p) = queue s
  | .acked n => (acked s n).delivered ++ queue (acked s n) = s.delivered ++ queue s

/-- A stream of one whole reply for each packet that asks for one, in order. -/
def Replied : Server β → List Event → List Byte → Prop
  | _, [],              stream => stream = []
  | s, .acked n :: es,  stream => Replied (acked s n) es stream
  | s, .packet p :: es, stream =>
    if Asks p then ∃ reply rest, Reply bus s.bus p reply ∧ stream = reply ++ rest ∧ Replied (process bus s p) es rest
    else Replied (process bus s p) es stream

/-- A packet that asks for a reply finds nothing queued. -/
def Quiet (s : Server β) (e : Event) : Prop :=
  match e with
  | .packet p => Supported p → 0 < rcount p → s.outputDataLen = 0
  | .acked _  => True

/-! ## One step -/

theorem packetLength_le_bufferSizeTx (p : Nat → Byte) : packetLength (rcount p) 0 ≤ bufferSizeTx := by
  have := rcount_lt p
  unfold packetLength headerLength bufferSizeTx
  rw [if_neg (not_not.2 rfl)]
  split
  · omega
  · omega

/-- A packet that asks for nothing leaves the queue alone. -/
theorem process_silent (s : Server β) {p : Nat → Byte} (h : ¬ Asks p) :
    (process bus s p).txBuf = s.txBuf ∧ (process bus s p).outputDataLen = s.outputDataLen ∧
      (process bus s p).delivered = s.delivered := by
  by_cases hsup : Supported p
  · rw [process_eq bus s hsup]
    simp only [if_neg fun hr : 0 < rcount p => h ⟨hsup, hr⟩, and_self]
  · rw [process_unsupported bus s hsup]
    exact ⟨rfl, rfl, rfl⟩

/-- A reply that is built while nothing is queued is queued whole. -/
theorem process_replies (s : Server β) {p : Nat → Byte} (h : Asks p) (hempty : s.outputDataLen = 0) :
    Reply bus s.bus p (queue (process bus s p)) ∧ (process bus s p).outputDataLen ≤ bufferSizeTx ∧
      (process bus s p).delivered = s.delivered := by
  obtain ⟨hsup, hr⟩ := h
  have hfit := packetLength_le_bufferSizeTx p
  have hlen : min (packetLength (rcount p) 0) bufferSizeTx = packetLength (rcount p) 0 := Nat.min_eq_left hfit
  rw [process_eq bus s hsup]
  obtain ⟨values, hbuilt⟩ := buildReply_built bus p
    { s with bus := written bus p s.bus (wcount p), ops := s.ops ++ (List.range (wcount p)).map (writeOp p) }
  simp only [if_pos hr]
  generalize buildReply bus p { s with
    bus := written bus p s.bus (wcount p), ops := s.ops ++ (List.range (wcount p)).map (writeOp p) } = t at hbuilt ⊢
  have hqueued : t.outputDataLen = 0 := hbuilt.queued.trans hempty
  refine ⟨⟨t.txBuf, ?_, ?_⟩, ?_, hbuilt.delivered⟩
  · rw [← hbuilt.answered]
    exact hbuilt.reply
  · simp only [queue, tcpSocketSend, hqueued, Nat.sub_zero, hlen, Nat.zero_add]
    exact Memory.window_move _ _ _ _
  · simp only [tcpSocketSend, hqueued]
    omega

theorem process_undisturbed {s : Server β} {p : Nat → Byte} (h : s.outputDataLen ≤ bufferSizeTx)
    (hquiet : Quiet s (.packet p)) :
    Undisturbed bus s (.packet p) ∧ (process bus s p).outputDataLen ≤ bufferSizeTx := by
  by_cases hasks : Asks p
  · have hempty : s.outputDataLen = 0 := hquiet hasks.1 hasks.2
    have hnone : queue s = [] := by simp [queue, hempty]
    obtain ⟨hreply, hfits, hdelivered⟩ := process_replies bus s hasks hempty
    refine ⟨⟨?_, hdelivered, ?_⟩, hfits⟩
    · rw [hempty, hnone, Memory.window_zero]
    · rw [if_pos hasks, hnone]
      exact ⟨_, hreply, rfl⟩
  · obtain ⟨hbuf, hlen, hdelivered⟩ := process_silent bus s hasks
    refine ⟨⟨?_, hdelivered, ?_⟩, hlen.trans_le h⟩
    · rw [hbuf, queue]
    · rw [if_neg hasks, queue, hbuf, hlen, queue]

/-- What is acknowledged leaves the queue at its front. -/
theorem acked_undisturbed {s : Server β} (h : s.outputDataLen ≤ bufferSizeTx) (n : Nat) :
    Undisturbed bus s (.acked n) := by
  have hmoved : window (move s.txBuf 0 (min n s.outputDataLen) (bufferSizeTx - min n s.outputDataLen)) 0
      (s.outputDataLen - min n s.outputDataLen) =
        window s.txBuf (min n s.outputDataLen) (s.outputDataLen - min n s.outputDataLen) := by
    have hw := Memory.window_move s.txBuf 0 (min n s.outputDataLen) (bufferSizeTx - min n s.outputDataLen)
    have ht := congrArg (List.take (s.outputDataLen - min n s.outputDataLen)) hw
    rwa [Memory.take_window _ _ _ _ (by omega), Memory.take_window _ _ _ _ (by omega)] at ht
  have hsplit : queue s = window s.txBuf 0 (min n s.outputDataLen) ++
      window s.txBuf (min n s.outputDataLen) (s.outputDataLen - min n s.outputDataLen) := by
    have ha := Memory.window_add s.txBuf 0 (min n s.outputDataLen) (s.outputDataLen - min n s.outputDataLen)
    rwa [Nat.zero_add, Nat.add_sub_cancel' (Nat.min_le_right _ _)] at ha
  show (acked s n).delivered ++ queue (acked s n) = s.delivered ++ queue s
  rw [hsplit]
  simp only [acked, queue, hmoved]
  rw [List.append_assoc]

theorem step_undisturbed {s : Server β} {e : Event} (h : s.outputDataLen ≤ bufferSizeTx) (hquiet : Quiet s e) :
    Undisturbed bus s e ∧ (step bus s e).outputDataLen ≤ bufferSizeTx := by
  cases e with
  | packet p => exact process_undisturbed bus h hquiet
  | acked n => exact ⟨acked_undisturbed bus h n, (Nat.sub_le _ _).trans h⟩

/-! ## Whole runs -/

/-- Where no step disturbs the queue, the stream grows by the replies. -/
theorem replied_of_undisturbed : ∀ (es : List Event) {s : Server β}, AllSteps (step bus) (Undisturbed bus) s es →
    ∃ stream, Replied bus s es stream ∧
      (es.foldl (step bus) s).delivered ++ queue (es.foldl (step bus) s) = s.delivered ++ queue s ++ stream
  | [], s, _ => ⟨[], rfl, (List.append_nil _).symm⟩
  | .acked n :: es, s, ⟨hack, hrest⟩ => by
    obtain ⟨stream, hreplied, hstream⟩ := replied_of_undisturbed es hrest
    refine ⟨stream, hreplied, hstream.trans ?_⟩
    rw [show (step bus s (.acked n)).delivered ++ queue (step bus s (.acked n)) = _ from hack]
  | .packet p :: es, s, ⟨⟨_, hdelivered, hqueue⟩, hrest⟩ => by
    obtain ⟨stream, hreplied, hstream⟩ := replied_of_undisturbed es hrest
    rw [show (step bus s (.packet p)).delivered = s.delivered from hdelivered] at hstream
    by_cases hasks : Asks p
    · rw [if_pos hasks] at hqueue
      obtain ⟨reply, hreply, hqueue⟩ := hqueue
      refine ⟨reply ++ stream, ?_, hstream.trans ?_⟩
      · rw [Replied, if_pos hasks]
        exact ⟨reply, stream, hreply, rfl, hreplied⟩
      · rw [show queue (step bus s (.packet p)) = queue s ++ reply from hqueue]
        simp only [List.append_assoc]
    · rw [if_neg hasks] at hqueue
      refine ⟨stream, ?_, hstream.trans ?_⟩
      · rw [Replied, if_neg hasks]
        exact hreplied
      · rw [show queue (step bus s (.packet p)) = queue s from hqueue]

/-- **Every read gets its own reply**: in any run in which every packet that asks for a reply finds nothing queued, no
step changes what is queued, and what has left the queue and what is in it are at any time one complete reply for each
packet that asked for one, in order, with the words that the bus has given for it. -/
theorem replies_intact (b : β) (txBuf : Nat → Byte) (es : List Event)
    (h : AllSteps (step bus) Quiet (connected b txBuf) es) :
    AllSteps (step bus) (Undisturbed bus) (connected b txBuf) es ∧
      ∀ pre, pre <+: es →
        let s := pre.foldl (step bus) (connected b txBuf)
        Replied bus (connected b txBuf) pre (s.delivered ++ queue s) := by
  have hstep : ∀ (s : Server β) (e : Event), s.outputDataLen ≤ bufferSizeTx → Quiet s e →
      Undisturbed bus s e ∧ (step bus s e).outputDataLen ≤ bufferSizeTx :=
    fun _ _ hi hq => step_undisturbed bus hi hq
  have hsteps := (AllSteps.inv hstep (Nat.zero_le _) h).1
  refine ⟨hsteps, fun pre hpre => ?_⟩
  obtain ⟨rest, rfl⟩ := hpre
  rw [Runs.allSteps_append] at hsteps
  obtain ⟨stream, hreplied, hstream⟩ := replied_of_undisturbed bus pre hsteps.1
  intro s
  rw [show s.delivered ++ queue s = [] ++ stream from hstream]
  exact hreplied

/-- A read of the word at `addr` and nothing else. -/
def readOne (addr : Byte) : Nat → Byte :=
  fun i => [0x4e, 0x6f, 0x10, 0x44, 0, 0, 0, 0, 0, 0, 0, 1, 0, 0, 0, 0, 0, 0, 0, addr].getD i 0

/-- The reply to it, from a bus that gives the address for the word. -/
def replyOne (addr : Byte) : List Byte :=
  [0x4e, 0x6f, 0x14, 0x44, 0, 0, 0, 0, 0, 0, 1, 0, 0, 0, 0, 0, 0, 0, 0, addr]

theorem replies_intact_readOne :
    let es : List Event := [.packet (readOne 4), .acked 20, .packet (readOne 8)]
    let s := es.foldl (step addressBus) (connected () fun _ => 0)
    s.delivered ++ queue s = replyOne 4 ++ replyOne 8 ∧
      AllSteps (step addressBus) (Undisturbed addressBus) (connected () fun _ => 0) es ∧
      Replied addressBus (connected () fun _ => 0) es (s.delivered ++ queue s) := by
  intro es s
  obtain ⟨hsteps, hstream⟩ := replies_intact addressBus () (fun _ => 0) es
    ⟨fun _ _ => rfl, trivial, fun _ _ => by decide, trivial⟩
  exact ⟨by decide +kernel, hsteps, hstream es (List.prefix_refl es)⟩

/-- Two reads with no acknowledgement in between: the second reply replaces the first in the queue. -/
theorem not_intact_pipelined :
    let es : List Event := [.packet (readOne 4), .packet (readOne 8)]
    let s := es.foldl (step addressBus) (connected () fun _ => 0)
    s.delivered ++ queue s = replyOne 8 ++ replyOne 8 ∧
      ¬ Replied addressBus (connected () fun _ => 0) es (s.delivered ++ queue s) := by
  intro es s
  have hstream : s.delivered ++ queue s = replyOne 8 ++ replyOne 8 := by decide +kernel
  refine ⟨hstream, fun hreplied => ?_⟩
  rw [hstream, Replied, if_pos (by decide)] at hreplied
  obtain ⟨reply, rest, ⟨m, hm, rfl⟩, hsplit, -⟩ := hreplied
  -- the word of the first reply is 4, and 8 is in its place
  have hword : be32 m 16 = 4 := hm.value 0 (by decide)
  have hfirst : replyOne 8 = window m 0 20 := by
    have htake := congrArg (List.take 20) hsplit
    rwa [List.take_left' (show (replyOne 8).length = 20 from rfl),
      List.take_left' (show (window m 0 (packetLength (rcount (readOne 4)) 0)).length = 20 from rfl)] at htake
  have hbytes := congrArg (fun l : List Byte => l.getD 19 0) hfirst
  have hlast : m 19 = 8 := hbytes.symm
  have hbyte : m 19 = (be32 m 16).setWidth 8 := BitVec.setWidth_append_eq_right.symm
  rw [hword, hlast] at hbyte
  exact absurd hbyte (by decide)

end Etherbone
end Hdmi2Usb
