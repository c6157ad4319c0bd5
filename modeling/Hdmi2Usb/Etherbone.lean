import Hdmi2Usb.Framing
import Hdmi2Usb.Memory
/-!
# Etherbone — the register server on TCP port 1234 (`etherbone.c`, `etherbone.h`, `tcp-socket.c`)

A packet is a 12-byte header, whose last two bytes are the counts of writes and reads, then the write section (a base
address and the values) and the read section (a base address for the reply and the addresses), each left out when its
count is 0.  `callback` finds the packets in the bytes the socket delivers; `process` serves one and queues the reply.
The processor is big-endian, so the structures' fields are read from their bytes in order.
-/
namespace Hdmi2Usb
namespace Etherbone

open Memory (window store move be16 be32 bytes32)

def bufferSizeRx : Nat := 1512
def bufferSizeTx : Nat := 1512
def headerLength : Nat := 12

def callbackBufSize : Nat := 1512

def magic : BitVec 16 := 0x4e6f#16

/-! ## The fields of `struct etherbone_packet`, for a packet at the start of `p` -/

def addrSize (p : Nat → Byte) : BitVec 4 := (p 3).extractLsb' 4 4
def portSize (p : Nat → Byte) : BitVec 4 := (p 3).extractLsb' 0 4
def wcount (p : Nat → Byte) : Nat := (p 10).toNat
def rcount (p : Nat → Byte) : Nat := (p 11).toNat

/-- Where the union of `base_write_addr` and `base_ret_addr` lies. -/
def baseOffset : Nat := 12

def recordOffset (i : Nat) : Nat := 16 + 4 * i

def sizeofPacket : Nat := 16

def packetLength (wcount rcount : Nat) : Nat :=
  headerLength + (if wcount ≠ 0 then (1 + wcount) * 4 else 0) + (if rcount ≠ 0 then (1 + rcount) * 4 else 0)

/-! ## Receiving -/

structure Receiver where
  callbackBuf       : Nat → Byte
  callbackBufLength : Nat

/-- What the loop of `callback` does: where it stops, the packets it hands to `process`, and the bytes it looks at, each
as its offset from `callback_buf_ptr` and the value of `callback_buf_length` then. -/
structure Loop where
  ptr      : Nat
  length   : Nat
  packets  : List (List Byte)
  examined : List (Nat × Nat)

/-- The loop, with `callback_buf_ptr` as an offset.  Every turn that goes on shortens `length`, so `fuel` only has to
start no smaller. -/
def loop (buf : Nat → Byte) : Nat → Nat → Nat → Loop
  | _,        ptr, 0      => ⟨ptr, 0, [], []⟩
  | 0,        ptr, length => ⟨ptr, length, [], []⟩
  | fuel + 1, ptr, length + 1 =>
    let packet := fun i => buf (ptr + i)
    let looked := [(0, length + 1), (1, length + 1)]
    if be16 packet 0 ≠ magic then
      let r := loop buf fuel (ptr + 1) length
      { r with examined := looked ++ r.examined }
    else if headerLength < length + 1 then
      let looked := looked ++ [(10, length + 1), (11, length + 1)]
      let n := packetLength (wcount packet) (rcount packet)
      if n ≤ length + 1 then
        let r := loop buf fuel (ptr + n) (length + 1 - n)
        { r with packets := window buf ptr n :: r.packets, examined := looked ++ r.examined }
      else ⟨ptr, length + 1, [], looked⟩
    else ⟨ptr, length + 1, [], looked⟩

def callbackLoop (s : Receiver) (rxbuf : List Byte) : Loop :=
  loop (store s.callbackBuf s.callbackBufLength rxbuf) (s.callbackBufLength + rxbuf.length) 0
    (s.callbackBufLength + rxbuf.length)

/-- `etherbone_callback`: what it leaves.  The loop ends by moving what is pending to the front of the buffer. -/
def callback (s : Receiver) (rxbuf : List Byte) : Receiver :=
  let r := callbackLoop s rxbuf
  ⟨move (store s.callbackBuf s.callbackBufLength rxbuf) 0 r.ptr r.length, r.length⟩

/-- `etherbone_init`: nothing is pending, whatever the buffer holds. -/
def init (callbackBuf : Nat → Byte) : Receiver := ⟨callbackBuf, 0⟩

def received : Receiver → List (List Byte) → List (List Byte)
  | _, []      => []
  | s, c :: cs => (callbackLoop s c).packets ++ received (callback s c) cs

/-! ## Serving a packet -/

/-- The processor's bus, as `etherbone_write` and `etherbone_read` use it.  A read may change it. -/
structure Bus (β : Type*) where
  write : β → (addr value : BitVec 32) → β
  read  : β → (addr : BitVec 32) → BitVec 32 × β

/-- What `process` does, in order.  `src` is the offset in the packet of the record a write takes its value from, or a
read its address. -/
inductive Op
  | write (src : Nat) (addr data : BitVec 32)
  | read (src : Nat) (addr data : BitVec 32)
  | send (reply : List Byte)
deriving DecidableEq

/-- The bus and the socket.  `txBuf` is `etherbone_tx_buf`, in which a reply is built and which `init` also registers as
the socket's output queue, so it is `output_data_ptr` too; `delivered` are the bytes that have left the queue. -/
structure Server (β : Type*) where
  bus           : β
  txBuf         : Nat → Byte
  outputDataLen : Nat
  ops           : List Op
  delivered     : List Byte

variable {β : Type*} (bus : Bus β)

def write (s : Server β) (src : Nat) (addr data : BitVec 32) : Server β :=
  { s with bus := bus.write s.bus addr data, ops := s.ops ++ [.write src addr data] }

/-- The first loop: `addr` starts at the packet's base address and grows by 4. -/
def writeLoop (p : Nat → Byte) (wcount : Nat) (s : Server β) : BitVec 32 × Server β :=
  (List.range wcount).foldl (fun (addr, s) i => (addr + 4, write bus s (recordOffset i) addr (be32 p (recordOffset i))))
    (be32 p baseOffset, s)

/-- One turn of the second loop: the value read goes to the same record of the reply. -/
def readTurn (p : Nat → Byte) (s : Server β) (i : Nat) : Server β :=
  let addr := be32 p (recordOffset i)
  let data := (bus.read s.bus addr).1
  { s with
    bus   := (bus.read s.bus addr).2
    txBuf := store s.txBuf (recordOffset i) (bytes32 data)
    ops   := s.ops ++ [.read (recordOffset i) addr data] }

def readLoop (p : Nat → Byte) (rcount : Nat) (s : Server β) : Server β :=
  (List.range rcount).foldl (readTurn bus p) s

/-- Byte 2 of a reply: version 1 and the no-reads flag.  The reserved bit is left as it was. -/
def flags (old : Byte) : Byte := 0x14#8 ||| (old &&& 0x08#8)

def replyHeader (txBuf : Nat → Byte) (rcount : Nat) (base : BitVec 32) : Nat → Byte :=
  let b := store txBuf 0 [0x4e#8, 0x6f#8, flags (txBuf 2), 0x44#8]
  let b := store b 10 [BitVec.ofNat 8 rcount, 0x00#8]
  store b baseOffset (bytes32 base)

/-- `tcp_socket_send` on `etherbone_socket` with `etherbone_tx_buf` as its data: as much of it as there is room for is
copied behind what is queued. -/
def tcpSocketSend (s : Server β) (datalen : Nat) : Server β :=
  let len := min datalen (bufferSizeTx - s.outputDataLen)
  { s with
    txBuf         := move s.txBuf s.outputDataLen 0 len
    outputDataLen := s.outputDataLen + len
    ops           := s.ops ++ [.send (window s.txBuf 0 datalen)] }

def Supported (p : Nat → Byte) : Prop := be16 p 0 = magic ∧ addrSize p = 4 ∧ portSize p = 4

instance (p : Nat → Byte) : Decidable (Supported p) := inferInstanceAs (Decidable (_ ∧ _ ∧ _))

/-- `etherbone_tx_buf` once the reply is built, and the bus and the log with it. -/
def buildReply (p : Nat → Byte) (s : Server β) : Server β :=
  let s := readLoop bus p (rcount p) s
  { s with txBuf := replyHeader s.txBuf (rcount p) (be32 p baseOffset) }

def process (s : Server β) (p : Nat → Byte) : Server β :=
  if Supported p then
    let s := if 0 < wcount p then (writeLoop bus p (wcount p) s).2 else s
    if 0 < rcount p then tcpSocketSend (buildReply bus p s) (sizeofPacket + 4 * rcount p) else s
  else s

/-- `acked`, for `n` bytes: they leave the queue and the rest moves to its front. -/
def acked (s : Server β) (n : Nat) : Server β :=
  let n := min n s.outputDataLen
  { s with
    txBuf         := move s.txBuf 0 n (bufferSizeTx - n)
    outputDataLen := s.outputDataLen - n
    delivered     := s.delivered ++ window s.txBuf 0 n }

/-- The server once connected: nothing is queued, whatever the buffer holds. -/
def connected (bus : β) (txBuf : Nat → Byte) : Server β := ⟨bus, txBuf, 0, [], []⟩

end Etherbone
end Hdmi2Usb
