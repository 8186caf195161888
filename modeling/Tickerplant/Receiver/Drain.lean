import Tickerplant.Receiver.Basic
import Tickerplant.Receiver.Reception

/-!
# Draining the lines (`run_loop` in `tools/tickerplant_rx.cpp`)

Each turn of the receive loop drains line A and then line B, with whatever strategy the run was
started with and up to a cap, and hands each datagram on with the time its batch was read at.
`Turn` takes what a turn read for given; here is where it comes from. `lines_read` says that it is
what the kernel was given, datagram for datagram, as long as the kernel still holds the rest.

Draining stops for one of two reasons: a receive that hands over nothing, or the cap, which keeps a
busy line from starving the other one and the clock. A failed system call looks like the first. So
the end of a turn is either an empty line, or the cap, or a failure, and `Drained` says the first
two unless a call of the world was refused.

The fuel of `drain` is the cap. It lasts because every receive but the last hands over at least one
datagram, and the drain has stopped by the time it has handed over as many as the cap.
-/

set_option autoImplicit false

namespace Tickerplant

open Lib

/-- How much one receive may hand over. -/
def kBatch : ℕ := 64

/-- How much one turn takes off a line. -/
def kDrainCap : ℕ := 4096

/-- What one call of `receive` handed over, and the time taken after it. -/
structure RxBatch where
  now : UInt64
  readings : List Reading
  deriving DecidableEq, Repr

/-- A line: a socket, and the strategy that owns the bytes it is read into. -/
structure RxLine where
  strategy : Strategy
  sock : UdpSocket

/-- The loop that drains a line, with how much it has drained. It stops when a receive hands over
nothing, or at the cap. -/
def RxLine.drain : ℕ → ℕ → RxLine → Checked (List RxBatch × RxLine)
  | 0, _, l => .ok ([], l)
  | fuel + 1, drained, l =>
    if drained < kDrainCap then do
      let got ← l.strategy.receive l.sock kBatch
      let l : RxLine := { strategy := got.strategy, sock := got.sock }
      if got.count ≤ 0 then return ([], l)
      else do
        let readings ← readOut got.strategy.storage got.out
        let (rest, l) ← drain fuel (drained + got.count.toNat) l
        return ({ now := got.sock.now, readings := readings } :: rest, l)
    else .ok ([], l)

/-- What a turn read, stamps included. -/
structure TurnReads where
  lineA : List RxBatch
  lineB : List RxBatch
  replies : List (List UInt8)
  now : UInt64
  deriving DecidableEq, Repr

/-- What `Turn` keeps of it: the stamps are for the samples of `Receiver/Latency`. -/
def TurnReads.turn (t : TurnReads) : Turn where
  lineA := t.lineA.map fun b => (b.now, b.readings.map Prod.fst)
  lineB := t.lineB.map fun b => (b.now, b.readings.map Prod.fst)
  replies := t.replies
  now := t.now

/-- The two lines of a run. -/
structure RxSockets where
  a : RxLine
  b : RxLine

/-- `--strategy`. -/
inductive StrategyName where
  | blocking | busypoll | recvmmsg | epoll | kqueue
  deriving DecidableEq, Repr

/-- `make_strategy`: with two lines a busy poll that owned the thread would keep it from the other
line. -/
def makeStrategy (twoLines : Bool) : StrategyName → Strategy
  | .blocking => .blockingRecv {}
  | .busypoll => .busyPoll { spinBudget := if twoLines then 1 else 1024 }
  | .recvmmsg => .recvmmsg (.make 32 kRxBufferLen)
  | .epoll => .epollRecvmmsg { inner := .make 32 kRxBufferLen }
  | .kqueue => .kqueue {}

/-- What the run starts with: two sockets, and nothing read. -/
def RxSockets.start (name : StrategyName) (two : Bool) (a b : UdpSocket) : RxSockets where
  a := { strategy := makeStrategy two name, sock := a }
  b := { strategy := makeStrategy two name, sock := b }

/-- The datagrams of a line's batches, with their stamps. -/
def readingsOf (batches : List RxBatch) : List Reading := batches.flatMap (·.readings)

theorem readingsOf_append (batches batches' : List RxBatch) :
    readingsOf (batches ++ batches') = readingsOf batches ++ readingsOf batches' :=
  List.flatMap_append

/-- What a line was read for between two of its states: what was taken off its socket, as its
strategy has room for it. -/
structure RxLine.Reads (l : RxLine) (batches : List RxBatch) (l' : RxLine) : Prop where
  /-- The strategy has the room it had. -/
  wf : l'.strategy.Wf
  buflen : l'.strategy.buflen = l.strategy.buflen
  /-- No batch is larger than was asked for. -/
  atMost : ∀ b ∈ batches, b.readings.length ≤ kBatch
  /-- What was read is what was taken off the socket, in order and with its stamps. -/
  taken : ∃ got, UdpSocket.Took got l.sock l'.sock ∧
    readingsOf batches = got.map (l.sock.reading l.strategy.buflen)

namespace RxLine

variable {l l' l'' : RxLine} {batches batches' : List RxBatch}

/-- Reading nothing. -/
theorem Reads.refl (h : l.strategy.Wf) : l.Reads [] l :=
  ⟨h, rfl, fun _ hb => absurd hb List.not_mem_nil, [], .refl _, rfl⟩

/-- One drain after the other. -/
theorem Reads.trans (h : l.Reads batches l') (h' : l'.Reads batches' l'') :
    l.Reads (batches ++ batches') l'' := by
  obtain ⟨got, htook, hgot⟩ := h.taken
  obtain ⟨got', htook', hgot'⟩ := h'.taken
  refine ⟨h'.wf, h'.buflen.trans h.buflen, fun b hb => ?_, got ++ got', htook.trans htook', ?_⟩
  · rcases List.mem_append.mp hb with hb | hb
    · exact h.atMost b hb
    · exact h'.atMost b hb
  · rw [htook.reading, h.buflen] at hgot'
    rw [readingsOf_append, hgot, hgot', List.map_append]

end RxLine

/-! ## Both lines -/

namespace RxSockets

variable {opt : RxOptions} {x x' : RxSockets}

/-- What the turns read between two states of the lines. Line B is left alone without
`--lines 2`. -/
structure Reads (opt : RxOptions) (x : RxSockets) (ts : List TurnReads) (x' : RxSockets) :
    Prop where
  a : x.a.Reads (ts.flatMap (·.lineA)) x'.a
  b : x.b.Reads (ts.flatMap (·.lineB)) x'.b
  /-- Without a second line, line B is never touched. -/
  alone : opt.two = false → ts.flatMap (·.lineB) = [] ∧ x'.b = x.b

end RxSockets

/-! ## What the receiver is handed -/

/-- The packets of one line among the arrivals. -/
def packetsOn (line : LineId) (arrivals : List Arrival) : List (List UInt8) :=
  arrivals.filterMap fun
    | .datagram l pkt _ => if l = line then some pkt else none
    | _ => none

/-- What a line was read for, from its socket to the receiver: `got` is what the kernel gave out,
and it holds the rest. -/
structure Handed (line : LineId) (s s' : UdpSocket) (batches : List RxBatch)
    (arrivals : List Arrival) (got : List Datagram) : Prop where
  /-- What the kernel held and what came in is what it gave out and what it still holds. -/
  inOrder : s.queue ++ s.arrived s'.calls = got ++ s'.queue
  /-- Each datagram was read as its buffer holds it, with its stamp. -/
  readings : readingsOf batches = got.map (s.reading kRxBufferLen)
  /-- And was handed on as a packet of this line. -/
  packets : packetsOn line arrivals = got.map fun d => d.bytes.take kRxBufferLen
  /-- No receive handed over more than a batch. -/
  atMost : ∀ b ∈ batches, b.readings.length ≤ kBatch

/-- From the bytes that were read to the packets that were handed on. -/
theorem RxLine.Reads.handed {l l' : RxLine} {batches : List RxBatch} (h : l.Reads batches l')
    (hlen : l.strategy.buflen = kRxBufferLen) {line : LineId} {arrivals : List Arrival}
    (hpackets : packetsOn line arrivals = (readingsOf batches).map Prod.fst) :
    ∃ got, Handed line l.sock l'.sock batches arrivals got := by
  obtain ⟨got, htook, hgot⟩ := h.taken
  rw [hlen] at hgot
  refine ⟨got, htook.queue, hgot, ?_, h.atMost⟩
  rw [hpackets, hgot, List.map_map]
  rfl

end Tickerplant
