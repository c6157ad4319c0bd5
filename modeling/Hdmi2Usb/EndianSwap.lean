import Hdmi2Usb.Memory
/-!
# EndianSwap — the Wishbone bridge of the NeTV2 (`targets/netv2/hdmi2pcie.py`)

Every line of `WishboneEndianSwap` goes through a register, in both directions.  `cycle` runs it for one clock between a
classic master, which holds its request until it sees an acknowledgement, and a classic slave, which takes a request off
its lines and acknowledges it some cycles later.  Transactions are numbered to tell them apart; no wire carries the
number.
-/
namespace Hdmi2Usb
namespace EndianSwap

structure Request where
  number : Nat
  adr    : BitVec 30
  datW   : BitVec 32
  sel    : BitVec 4
  we     : Bool
  cti    : BitVec 3
  bte    : BitVec 2
deriving DecidableEq

structure Down where
  cyc : Bool
  stb : Bool
  req : Request

/-- The lines from a slave to a master.  `number` is the transaction acknowledged. -/
structure Up where
  ack    : Bool
  err    : Bool
  datR   : BitVec 32
  number : Nat

/-! ## The bridge -/

def swapBytes (w : BitVec 32) : BitVec 32 :=
  w.extractLsb' 0 8 ++ w.extractLsb' 8 8 ++ w.extractLsb' 16 8 ++ w.extractLsb' 24 8

def swapSel (s : BitVec 4) : BitVec 4 :=
  s.extractLsb' 0 1 ++ s.extractLsb' 1 1 ++ s.extractLsb' 2 1 ++ s.extractLsb' 3 1

theorem bytes32_swapBytes (w : BitVec 32) : Memory.bytes32 (swapBytes w) = (Memory.bytes32 w).reverse :=
  Memory.bytes32_append _ _ _ _

theorem getLsbD_swapSel (s : BitVec 4) {i : Nat} (h : i < 4) : (swapSel s).getLsbD i = s.getLsbD (3 - i) := by
  revert s
  decide +revert

def Request.swapped (r : Request) : Request := { r with datW := swapBytes r.datW, sel := swapSel r.sel }

structure Swap where
  down : Down
  up   : Up

/-- The statements of `WishboneEndianSwap.sync`: `down` is what the master drives, `up` what the slave does. -/
def sync (down : Down) (up : Up) : Swap :=
  { down := { down with req := down.req.swapped }
    up   := { up with datR := swapBytes up.datR } }

/-! ## A master and a slave -/

/-- What a cycle leaves open: whether a master that is free starts a transaction and which, whether it holds the bus
without one, whether a slave that is free takes a request, and whether it acknowledges and with what data. -/
structure Input where
  go   : Bool
  hold : Bool
  req  : Request
  take : Bool
  ack  : Bool
  datR : BitVec 32

structure Answer where
  number : Nat
  datR   : BitVec 32
deriving DecidableEq

/-- A transaction as the master sees it end: its own number, and that of the transaction acknowledged. -/
structure Completion where
  own    : Nat
  number : Nat
  datR   : BitVec 32
deriving DecidableEq

/-- The master's lines, the bridge, and the request that the slave has taken.  `sinceAck` counts down the two cycles
after an acknowledgement of the slave.  The lists are all that has happened: the transactions the master started, those
the slave took, its answers, and what the master saw. -/
structure System where
  master    : Down
  swap      : Swap
  pending   : Option Request
  sinceAck  : Nat
  issued    : List Request
  performed : List Request
  answers   : List Answer
  received  : List Completion

/-- A master that has a transaction and no acknowledgement for it keeps its lines. -/
def System.holds (s : System) : Bool := s.master.stb && !s.swap.up.ack

def System.takes (s : System) (i : Input) : Bool :=
  s.pending.isNone && i.take && s.swap.down.cyc && s.swap.down.stb

def System.working (s : System) (i : Input) : Option Request :=
  if s.takes i then some s.swap.down.req else s.pending

def System.up (s : System) (i : Input) : Up :=
  match s.working i with
  | some r => ⟨i.ack, false, i.datR, r.number⟩
  | none   => ⟨false, false, i.datR, 0⟩

def System.next (s : System) (i : Input) : Request := { i.req with number := s.issued.length }

def cycle (s : System) (i : Input) : System :=
  let up := s.up i
  { master    := if s.holds then s.master else ⟨i.go || i.hold, i.go, s.next i⟩
    swap      := sync s.master up
    pending   := if up.ack then none else s.working i
    sinceAck  := if up.ack then 2 else s.sinceAck - 1
    issued    := if !s.holds && i.go then s.issued ++ [s.next i] else s.issued
    performed := if s.takes i then s.performed ++ [s.swap.down.req] else s.performed
    answers   := if up.ack then s.answers ++ [⟨up.number, up.datR⟩] else s.answers
    received  :=
      if s.master.stb && s.swap.up.ack then
        s.received ++ [⟨s.master.req.number, s.swap.up.number, s.swap.up.datR⟩]
      else s.received }

def idleRequest : Request := ⟨0, 0, 0, 0, false, 0, 0⟩

def reset : System :=
  ⟨⟨false, false, idleRequest⟩, ⟨⟨false, false, idleRequest⟩, ⟨false, false, 0, 0⟩⟩, none, 0, [], [], [], []⟩

/-! ## Transparency -/

def Answer.seen (a : Answer) : Completion := ⟨a.number, a.number, swapBytes a.datR⟩

/-- The transaction that the master has started last is on the slave's lines. -/
def System.offered (s : System) (issued : List Request) : Prop :=
  s.swap.down.cyc = true ∧ s.swap.down.stb = true ∧ issued.getLast?.map Request.swapped = some s.swap.down.req

/-- The slave performs the master's transactions, each once and in order, and the master sees each end with the answer
to it.  A transaction takes one cycle to get to the slave's lines, where it stays until the slave performs it, and an
answer takes one cycle more to end its transaction. -/
structure Transparent (s : System) : Prop where
  performed : s.performed <+: s.issued.map Request.swapped
  received  : s.received <+: s.answers.map Answer.seen
  reaches   : ∀ i, s.issued.length ≤ (cycle s i).performed.length ∨ (cycle s i).offered s.issued
  ends      : ∀ i, s.answers.map Answer.seen <+: (cycle s i).received

end EndianSwap
end Hdmi2Usb
