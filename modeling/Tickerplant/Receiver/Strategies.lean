import Tickerplant.Lib.Bytes
import Tickerplant.Receiver.Stamps

/-!
# The receive strategies (`include/tick/receive_strategy.hpp`)

Five ways to get a datagram out of the kernel behind one interface. The sixth is in `IoUring`.

What the kernel does is the environment's: at each system call some datagrams may have arrived, the
call may fail, a `recvmmsg` may come back with fewer than it could, and a clock says what time it
is. The kernel keeps what it has in the order it came and gives each datagram out once, cut to the
room there is. A call that never comes back is no step of a run.

A strategy owns the bytes it hands out. What it returns is where each datagram lies in them, and
`readOut` is what a caller finds there. The bytes are kept between receives as the source keeps
them, so that what a shorter datagram leaves behind of a longer one is there to be read by mistake:
that it is not read is a theorem about the lengths, not a matter of the model.

The five differ in how they wait. Blocking waits in the read; a busy poll reads up to a budget of
times; `recvmmsg` reads a batch without waiting; `epoll` and `kqueue` wait first and read when
there is something. An interrupted wait is nothing, and any other failure of one is an error.
-/

set_option autoImplicit false

namespace Tickerplant

open Lib

/-! ## The socket -/

/-- A datagram the kernel holds, with the control messages attached to it. -/
structure Datagram where
  bytes : List UInt8
  control : List ControlMessage := []
  deriving DecidableEq, Repr

/-- What the world does at one system call. -/
structure SystemCall where
  /-- What came in before it. -/
  arrivals : List Datagram := []
  /-- The error it fails with. -/
  refusal : Option Int := none
  /-- How many more than one a `recvmmsg` gets to. -/
  extra : ℕ := 0
  /-- What the clock reads after it. -/
  clock : UInt64 := 0
  deriving Repr

/-- A socket, as one of the strategies has it: what the kernel holds for it, and the world it is
in. -/
structure UdpSocket where
  /-- What the kernel holds, oldest first. -/
  queue : List Datagram := []
  /-- Whether the kernel was asked for stamps. -/
  timestamping : Bool
  /-- `realtime_to_monotonic_offset_ns()`, which is the same at every call. -/
  offset : Int64
  /-- System calls made so far. -/
  calls : ℕ := 0
  /-- What the world does at each system call, arrivals and failures included. -/
  world : ℕ → SystemCall

/-- What a caller is given of a datagram: its bytes and its stamp. -/
abbrev Reading := List UInt8 × UInt64

/-- One datagram in the strategy's own bytes. -/
structure RxDatagram where
  data : ℕ
  len : ℕ
  kernelTsNs : UInt64
  deriving DecidableEq, Repr

/-- Room for any datagram the feed sends, and then some. -/
def kRxBufferLen : ℕ := 2048

namespace UdpSocket

/-- A signal came in between. -/
def EINTR : Int := 4
/-- There is nothing now. -/
def EAGAIN : Int := 11

/-- Errors that only mean that there is nothing now. -/
def notReady (e : Int) : Bool := e = EAGAIN ∨ e = EINTR

/-- A system call is made. -/
def enter (s : UdpSocket) : UdpSocket :=
  { s with queue := s.queue ++ (s.world s.calls).arrivals, calls := s.calls + 1 }

/-- What the clock reads after the last system call. -/
def now (s : UdpSocket) : UInt64 := (s.world (s.calls - 1)).clock

/-- `rx_timestamp_ns`, where stamps were asked for. -/
def stamp (s : UdpSocket) (d : Datagram) : UInt64 :=
  if s.timestamping then rxTimestampNs s.offset d.control else 0

/-- A datagram as a buffer of this length holds it. -/
def reading (s : UdpSocket) (buflen : ℕ) (d : Datagram) : Reading :=
  (d.bytes.take buflen, s.stamp d)

/-- How a system call that reads came back: the error, or the length and stamp of each datagram. -/
structure Received (α : Type) where
  result : Except Int α
  buf : List UInt8
  sock : UdpSocket

/-- `recv_one`. -/
def recvOne (s : UdpSocket) (buf : List UInt8) : Checked (Received (ℕ × UInt64)) :=
  match (s.world s.calls).refusal, s.enter.queue with
  | some e, _ => .ok { result := .error e, buf := buf, sock := s.enter }
  | none, [] => .ok { result := .error EAGAIN, buf := buf, sock := s.enter }
  | none, d :: rest => do
    let bytes := d.bytes.take buf.length
    let buf ← store buf 0 bytes
    return { result := .ok (bytes.length, s.stamp d), buf := buf,
             sock := { s.enter with queue := rest } }

/-- The kernel writes datagrams to the slots from the `i`th on. -/
def fillSlots (buflen : ℕ) : ℕ → List Datagram → List UInt8 → Checked (List UInt8)
  | _, [], storage => .ok storage
  | i, d :: ds, storage => do
    let storage ← store storage (i * buflen) (d.bytes.take buflen)
    fillSlots buflen (i + 1) ds storage

/-- `recvmmsg`, with one slot of `buflen` bytes for each datagram it may take. -/
def recvmmsg (s : UdpSocket) (storage : List UInt8) (buflen want : ℕ) :
    Checked (Received (List (ℕ × UInt64))) :=
  match (s.world s.calls).refusal, s.enter.queue with
  | some e, _ => .ok { result := .error e, buf := storage, sock := s.enter }
  | none, [] => .ok { result := .error EAGAIN, buf := storage, sock := s.enter }
  | none, d :: rest => do
    let n := min want ((s.world s.calls).extra + 1)
    let got := (d :: rest).take n
    let storage ← fillSlots buflen 0 got storage
    return { result := .ok (got.map fun d => ((d.bytes.take buflen).length, s.stamp d)),
             buf := storage, sock := { s.enter with queue := (d :: rest).drop n } }

/-- `epoll_wait` and `kevent`, level triggered: how many sockets are ready. -/
def wait (s : UdpSocket) : Except Int ℕ :=
  match (s.world s.calls).refusal, s.enter.queue with
  | some e, _ => .error e
  | none, [] => .ok 0
  | none, _ :: _ => .ok 1

end UdpSocket

/-! ## The strategies -/

/-- What `receive` returns, what it wrote to `out`, and what it leaves. -/
structure Reception (σ : Type) where
  count : Int
  out : List RxDatagram := []
  strategy : σ
  sock : UdpSocket

namespace Reception

variable {σ τ : Type}

/-- The same receive, by a strategy that wraps this one. -/
def map (f : σ → τ) (r : Reception σ) : Reception τ :=
  { count := r.count, out := r.out, strategy := f r.strategy, sock := r.sock }

/-- Nothing was handed out, and the error says whether that is one. -/
def failed (e : Int) (strategy : σ) (sock : UdpSocket) : Reception σ :=
  { count := if UdpSocket.notReady e then 0 else -1, strategy := strategy, sock := sock }

/-- One datagram was, from the front of the strategy's bytes. -/
def single (got : ℕ × UInt64) (strategy : σ) (sock : UdpSocket) : Reception σ :=
  { count := 1, out := [{ data := 0, len := got.1, kernelTsNs := got.2 }],
    strategy := strategy, sock := sock }

end Reception

/-- One buffer, and a read that waits. -/
structure BlockingRecvStrategy where
  buf : List UInt8 := List.replicate kRxBufferLen 0
  deriving Repr

/-- One read. -/
def BlockingRecvStrategy.receive (r : BlockingRecvStrategy) (s : UdpSocket) (max : ℕ) :
    Checked (Reception BlockingRecvStrategy) :=
  if max < 1 then .ok { count := 0, strategy := r, sock := s }
  else do
    let got ← s.recvOne r.buf
    match got.result with
    | .error e => return .failed e { buf := got.buf } got.sock
    | .ok one => return .single one { buf := got.buf } got.sock

/-- One buffer, and reads that do not wait, up to a budget of them. -/
structure BusyPollStrategy where
  buf : List UInt8 := List.replicate kRxBufferLen 0
  spinBudget : ℕ := 1024
  deriving Repr

namespace BusyPollStrategy

/-- The reads of one receive: the first that finds something ends it, and so does an error. -/
def spin (r : BusyPollStrategy) (s : UdpSocket) : ℕ → Checked (Reception BusyPollStrategy)
  | 0 => .ok { count := 0, strategy := r, sock := s }
  | budget + 1 => do
    let got ← s.recvOne r.buf
    match got.result with
    | .ok one => return .single one { r with buf := got.buf } got.sock
    | .error e =>
      if UdpSocket.notReady e then spin { r with buf := got.buf } got.sock budget
      else return { count := -1, strategy := { r with buf := got.buf }, sock := got.sock }

def receive (r : BusyPollStrategy) (s : UdpSocket) (max : ℕ) :
    Checked (Reception BusyPollStrategy) :=
  if max < 1 then .ok { count := 0, strategy := r, sock := s } else r.spin s r.spinBudget

end BusyPollStrategy

/-- A buffer for each datagram of a batch, side by side in one allocation. -/
structure RecvmmsgStrategy where
  batch : ℕ
  buflen : ℕ
  storage : List UInt8
  deriving Repr

namespace RecvmmsgStrategy

/-- `RecvmmsgStrategy(sock, batch, buflen)`. -/
def make (batch buflen : ℕ) : RecvmmsgStrategy :=
  let batch := if batch < 1 then 1 else batch
  { batch := batch, buflen := buflen, storage := List.replicate (batch * buflen) 0 }

/-- The loop that writes `out`: the slots from the `i`th on. -/
def slots (buflen : ℕ) : ℕ → List (ℕ × UInt64) → List RxDatagram
  | _, [] => []
  | i, got :: rest =>
    { data := i * buflen, len := got.1, kernelTsNs := got.2 } :: slots buflen (i + 1) rest

def receive (r : RecvmmsgStrategy) (s : UdpSocket) (max : ℕ) :
    Checked (Reception RecvmmsgStrategy) :=
  if max < 1 then .ok { count := 0, strategy := r, sock := s }
  else do
    let want := if max < r.batch then max else r.batch
    let got ← s.recvmmsg r.storage r.buflen want
    match got.result with
    | .error e => return .failed e { r with storage := got.buf } got.sock
    | .ok lens =>
      return { count := lens.length, out := slots r.buflen 0 lens,
               strategy := { r with storage := got.buf }, sock := got.sock }

end RecvmmsgStrategy

/-- A wait in front of a batch. -/
structure EpollRecvmmsgStrategy where
  inner : RecvmmsgStrategy
  deriving Repr

/-- Nothing is read unless the wait says there is something. -/
def EpollRecvmmsgStrategy.receive (r : EpollRecvmmsgStrategy) (s : UdpSocket) (max : ℕ) :
    Checked (Reception EpollRecvmmsgStrategy) :=
  if max < 1 then .ok { count := 0, strategy := r, sock := s }
  else
    match s.wait with
    | .error e =>
      .ok { count := if e = UdpSocket.EINTR then 0 else -1, strategy := r, sock := s.enter }
    | .ok 0 => .ok { count := 0, strategy := r, sock := s.enter }
    | .ok _ => do
      let got ← r.inner.receive s.enter max
      return got.map EpollRecvmmsgStrategy.mk

/-- A wait in front of one read. -/
structure KqueueStrategy where
  buf : List UInt8 := List.replicate kRxBufferLen 0
  deriving Repr

/-- Nothing is read unless the wait says there is something. -/
def KqueueStrategy.receive (r : KqueueStrategy) (s : UdpSocket) (max : ℕ) :
    Checked (Reception KqueueStrategy) :=
  if max < 1 then .ok { count := 0, strategy := r, sock := s }
  else
    match s.wait with
    | .error e =>
      .ok { count := if e = UdpSocket.EINTR then 0 else -1, strategy := r, sock := s.enter }
    | .ok 0 => .ok { count := 0, strategy := r, sock := s.enter }
    | .ok _ => do
      let got ← s.enter.recvOne r.buf
      match got.result with
      | .error e => return .failed e { buf := got.buf } got.sock
      | .ok one => return .single one { buf := got.buf } got.sock

/-- What models the interface, `io_uring` apart. -/
inductive Strategy where
  | blockingRecv (r : BlockingRecvStrategy)
  | busyPoll (r : BusyPollStrategy)
  | recvmmsg (r : RecvmmsgStrategy)
  | epollRecvmmsg (r : EpollRecvmmsgStrategy)
  | kqueue (r : KqueueStrategy)
  deriving Repr

namespace Strategy

def receive (r : Strategy) (s : UdpSocket) (max : ℕ) : Checked (Reception Strategy) :=
  match r with
  | blockingRecv r => do return (← r.receive s max).map blockingRecv
  | busyPoll r => do return (← r.receive s max).map busyPoll
  | recvmmsg r => do return (← r.receive s max).map recvmmsg
  | epollRecvmmsg r => do return (← r.receive s max).map epollRecvmmsg
  | kqueue r => do return (← r.receive s max).map kqueue

/-- The bytes a strategy owns. -/
def storage : Strategy → List UInt8
  | blockingRecv r => r.buf
  | busyPoll r => r.buf
  | recvmmsg r => r.storage
  | epollRecvmmsg r => r.inner.storage
  | kqueue r => r.buf

/-- The room there is for one datagram. -/
def buflen : Strategy → ℕ
  | blockingRecv r => r.buf.length
  | busyPoll r => r.buf.length
  | recvmmsg r => r.buflen
  | epollRecvmmsg r => r.inner.buflen
  | kqueue r => r.buf.length

end Strategy

/-- What a caller reads where it is pointed. -/
def readOut (storage : List UInt8) : List RxDatagram → Checked (List Reading)
  | [] => .ok []
  | dg :: rest => do
    let bytes ← slice storage dg.data dg.len
    let others ← readOut storage rest
    return (bytes, dg.kernelTsNs) :: others

end Tickerplant
