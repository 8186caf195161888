import Tickerplant.Lib.SlotRing

/-!
# The sequencer (`include/tick/sequencer.hpp`)

Two lossy copies of a feed in, one ordered stream out. The state is the class's own: the reorder
window with its slots and bytes, the next sequence owed downstream, the gap state machine with its
deadlines, and the counters. Arbitration between the two lines has no state of its own, as in the
source: the first copy of a sequence wins because the second one is below the front, or finds its
slot taken. Two things are written differently.

The configuration is a parameter of every function rather than a field, because nothing changes it
after the constructor; `capacity`, `maxPayload'` and `attempts` are what the constructor derives
from it.

The sink is a callback in the source. Here `sink` is the record of the calls made to it, oldest
first, so that driving any handler with the stream is a fold over that record.

Sequences, times and the window count are 64-bit words and wrap as the source's do. The counters in
`SequencerStats` are natural numbers: they are only ever added to and read back.

The two loops of the source carry fuel. `drainLoop` has one round for each slot, and `drain_done`
says that is enough; `skipLoop` has one round for each sequence it is to pass, and
`skipLoop_expected` says it arrives. Nothing else in the class loops.
-/

set_option autoImplicit false

namespace Tickerplant

open Lib

/-- The bytes of one message. -/
abbrev Payload := List UInt8

/-- One call of the sink: a sequence and the payload handed over with it. -/
abbrev Delivery := UInt64 × Payload

/-- Which of the two multicast lines a datagram came in on. -/
inductive LineId where
  | a
  | b
  deriving DecidableEq, Repr

/-- What the sequencer says of the stream to whoever asks. `Stale` is a one way door: only `reset`
leads out of it. -/
inductive FeedState where
  /-- Every sequence up to `expected - 1` has been delivered. -/
  | synced
  /-- A sequence is missing and the reorder window is holding later messages. -/
  | gap
  /-- A retransmission request is outstanding for the missing range. -/
  | recovering
  /-- The gap exceeded what the window can hold. -/
  | stale
  deriving DecidableEq, Repr

/-- The settings, with the defaults of the source. The constructor rounds the window up to a power
of two, so that the slot of a sequence is a mask away, and refuses zeros where it divides or loops
by them. -/
structure SequencerConfig where
  /-- How many early messages may be held while one is missing. -/
  reorderWindow : ℕ := 1024
  /-- How long the other line has to bring a late copy before anybody is asked for it. -/
  gapGraceNs : UInt64 := 500000
  /-- How long a request may be outstanding before it is repeated. -/
  recoveryTimeoutNs : UInt64 := 50000000
  maxRecoveryAttempts : UInt32 := 3
  /-- The width of a slot. A payload wider than this cannot wait. -/
  maxPayload : ℕ := 64
  deriving DecidableEq, Repr

namespace SequencerConfig

/-- `capacity_`. -/
def capacity (c : SequencerConfig) : ℕ :=
  roundUpPow2 (if c.reorderWindow = 0 then 1 else c.reorderWindow)

/-- `max_payload_`. -/
def maxPayload' (c : SequencerConfig) : ℕ := if c.maxPayload = 0 then 1 else c.maxPayload

/-- `cfg_.max_recovery_attempts` as the constructor leaves it. -/
def attempts (c : SequencerConfig) : UInt32 :=
  if c.maxRecoveryAttempts = 0 then 1 else c.maxRecoveryAttempts

/-- The window is a power of two, which is what makes the mask a remainder. -/
theorem capacity_pow (c : SequencerConfig) : ∃ k, c.capacity = 2 ^ k := roundUpPow2_pow _

theorem capacity_pos (c : SequencerConfig) : 0 < c.capacity := roundUpPow2_pos _

end SequencerConfig

/-- A request for a contiguous run of sequences. `count` is sixteen bits because that is the
width MoldUDP64 gives it. -/
structure RetransmitRequest where
  firstSequence : UInt64
  count : UInt16
  deriving DecidableEq, Repr

/-- The counters a run leaves behind. A `reset` keeps them, since a reset is exactly the event one
wants to find in them afterwards. -/
structure SequencerStats where
  /-- Messages handed to the sink. -/
  accepted : ℕ := 0
  /-- Copies of something already dealt with. -/
  duplicates : ℕ := 0
  /-- Messages that had to wait in the window. -/
  outOfOrder : ℕ := 0
  gapsDetected : ℕ := 0
  gapsRecovered : ℕ := 0
  /-- Sequences given up on, and messages refused because they were too wide to wait. -/
  messagesDropped : ℕ := 0
  windowHighWater : ℕ := 0
  winsA : ℕ := 0
  winsB : ℕ := 0
  recoveryRequests : ℕ := 0
  recoveryRetries : ℕ := 0
  fromRecovery : ℕ := 0
  deriving DecidableEq, Repr

/-- The sequencer between two calls. -/
structure Sequencer where
  /-- `slots_` and `bytes_`, shared by every lap of the ring. -/
  window : SlotRing
  stats : SequencerStats := {}
  /-- The next sequence owed downstream: the front. -/
  expected : UInt64 := 0
  /-- How many slots are in use. -/
  pending : UInt64 := 0
  /-- When the hole at the front opened, as far as the sequencer keeps track of it. -/
  gapSinceNs : UInt64 := 0
  recoveryDeadlineNs : UInt64 := 0
  /-- One past the last sequence the outstanding request covers. -/
  recoveryEnd : UInt64 := 0
  recoveryAttempts : UInt32 := 0
  state : FeedState := .synced
  /-- Whether the stream has a first sequence yet. -/
  started : Bool := false
  /-- The calls made to the sink so far. -/
  sink : List Delivery := []

namespace Sequencer

variable (c : SequencerConfig)

/-- `Sequencer(cfg)`. -/
def fresh : Sequencer := { window := SlotRing.empty c.maxPayload' }

/-! ## The window -/

/-- `s.present && s.seq == seq` for the slot of `seq`. -/
def holds (q : Sequencer) (seq : UInt64) : Bool := q.window.has c.capacity seq

/-- The first `len` bytes of the slot of `seq`. -/
def stored (q : Sequencer) (seq : UInt64) : Payload := q.window.bytesOf c.capacity seq

/-- `sink(seq, payload); ++stats_.accepted`. -/
def hand (q : Sequencer) (seq : UInt64) (payload : Payload) : Sequencer :=
  { q with
    sink := q.sink ++ [(seq, payload)]
    stats := { q.stats with accepted := q.stats.accepted + 1 } }

/-- Hand the held message at the front to the sink, vacate its slot and move the front past it:
the body of `drain`, and the branch of `skip_to` for a sequence that is held. -/
def release (q : Sequencer) : Sequencer :=
  let q := q.hand q.expected (q.stored c q.expected)
  { q with
    window := q.window.vacate c.capacity q.expected
    pending := q.pending - 1
    expected := q.expected + 1 }

/-- `drain`. Every round vacates a slot, so `capacity` rounds are enough (`drain_done`). -/
def drainLoop : ℕ → Sequencer → Sequencer
  | 0, q => q
  | fuel + 1, q => if q.holds c q.expected then drainLoop fuel (q.release c) else q

/-- Hand on whatever is held from the front up to the first hole. -/
def drain (q : Sequencer) : Sequencer := drainLoop c c.capacity q

/-! ## The gap state machine -/

/-- Forget the outstanding request: its attempts, its deadline and its end. -/
def clearRecovery (q : Sequencer) : Sequencer :=
  { q with recoveryAttempts := 0, recoveryDeadlineNs := 0, recoveryEnd := 0 }

/-- The feed has lost something for good. The window is left alone, since what is in it is still
delivered in order. -/
def enterStale (q : Sequencer) : Sequencer := { q with state := .stale }.clearRecovery

/-- A new session: the only way out of `Stale`. The counters stay. -/
def reset (q : Sequencer) (firstSequence : UInt64) : Sequencer :=
  { q with
    window := q.window.clear
    pending := 0
    expected := firstSequence
    state := .synced
    started := true
    gapSinceNs := 0 }.clearRecovery

/-- What the state machine makes of the front having moved. With nothing held any more the hole is
closed; with something held beyond the end of what was asked for, the hole that was asked for is
closed and the next one opens, with a clock of its own. In `Gap` with something still held nothing
changes: the clock goes on from where it was. -/
def settle (q : Sequencer) (nowNs : UInt64) : Sequencer :=
  if q.pending = 0 then
    if q.state = .gap ∨ q.state = .recovering then
      { q with
        stats := { q.stats with gapsRecovered := q.stats.gapsRecovered + 1 }
        state := .synced }.clearRecovery
    else q
  else if q.state = .recovering ∧ q.recoveryEnd ≤ q.expected then
    { q with
      stats := { q.stats with
        gapsRecovered := q.stats.gapsRecovered + 1, gapsDetected := q.stats.gapsDetected + 1 }
      state := .gap
      gapSinceNs := nowNs }.clearRecovery
  else q

/-- The line whose copy came first is credited with it. A retransmission belongs to neither line.
-/
def creditLine (q : Sequencer) : Option LineId → Sequencer
  | none => q
  | some .a => { q with stats := { q.stats with winsA := q.stats.winsA + 1 } }
  | some .b => { q with stats := { q.stats with winsB := q.stats.winsB + 1 } }

/-- A message that is due: hand it on, drain what was stacked up behind it, and settle. -/
def deliverNow (q : Sequencer) (seq : UInt64) (payload : Payload) (nowNs : UInt64)
    (line : Option LineId) : Sequencer :=
  let q := (q.creditLine line).hand seq payload
  ({ q with expected := q.expected + 1 }.drain c).settle nowNs

/-- The run of sequences missing at the front, never more than the window. -/
def missingRun (q : Sequencer) : ℕ :=
  ((List.range c.capacity).find? fun i => q.holds c (q.expected + UInt64.ofNat i)).getD c.capacity

/-- A request for the run missing at the front and for nothing more. The count is sixteen bits on
the wire, so a longer run is asked for in parts. -/
def issueRequest (q : Sequencer) : RetransmitRequest × Sequencer :=
  let run := q.missingRun c
  let n := if run > 65535 then 65535 else run
  ({ firstSequence := q.expected, count := UInt16.ofNat n },
    { q with recoveryEnd := q.expected + UInt64.ofNat n })

/-- The sequence at the front was never received. -/
def dropFront (q : Sequencer) : Sequencer :=
  { q with
    stats := { q.stats with messagesDropped := q.stats.messagesDropped + 1 }
    expected := q.expected + 1 }

/-- `while (expected_ < target)`, run for as many rounds as the front is short of the target. -/
def skipLoop (target : UInt64) : ℕ → Sequencer → Sequencer
  | 0, q => q
  | fuel + 1, q =>
    if q.expected < target then
      skipLoop target fuel (if q.holds c q.expected then q.release c else q.dropFront)
    else q

/-- The flag says the jump was wide enough to wipe the whole window. -/
def skipTo (q : Sequencer) (target : UInt64) : Bool × Sequencer :=
  if target ≤ q.expected then (false, q)
  else
    let span := (target - q.expected).toNat
    if c.capacity ≤ span then
      (true, { q with
        window := q.window.clear
        pending := 0
        stats := { q.stats with messagesDropped := q.stats.messagesDropped + span }
        expected := target })
    else (false, (skipLoop c target span q).drain c)

/-- Give up on the run missing at the front, and hand on what is held behind it. -/
def skipHole (q : Sequencer) : Sequencer :=
  (q.skipTo c (q.expected + UInt64.ofNat (q.missingRun c))).2

/-! ## Taking a message in -/

/-- A message further ahead than the window reaches: move the front by the least that makes room,
and to the message itself when that already wiped the window. -/
def overflow (q : Sequencer) (seq : UInt64) : Sequencer :=
  let r := q.skipTo c (seq - UInt64.ofNat (c.capacity - 1))
  -- a jump that wiped the window left a hole no arrival can fill, so the front goes all the way
  (if r.1 then (r.2.skipTo c seq).2 else r.2).enterStale

/-- Put an early message into its slot. -/
def buffer (q : Sequencer) (seq : UInt64) (payload : Payload) (nowNs : UInt64)
    (line : Option LineId) : Sequencer :=
  let firstHole := q.pending = 0
  let pending := q.pending + 1
  let q := { q with
    window := q.window.write c.capacity seq payload
    pending := pending
    stats := { q.stats with
      windowHighWater := max q.stats.windowHighWater pending.toNat
      outOfOrder := q.stats.outOfOrder + 1 } }.creditLine line
  let q := if firstHole then
      { q with
        gapSinceNs := nowNs
        stats := { q.stats with gapsDetected := q.stats.gapsDetected + 1 } }
    else q
  if q.state = .synced then { q with state := .gap } else q

/-- The tail of `ingest`, for a message ahead of the front: too wide for a slot is a lost
message, anything else goes into the window. -/
def takeEarly (q : Sequencer) (seq : UInt64) (payload : Payload) (nowNs : UInt64)
    (line : Option LineId) : Bool × Sequencer :=
  if payload.length > c.maxPayload' then
    (false, { q with
      stats := { q.stats with messagesDropped := q.stats.messagesDropped + 1 } })
  else (true, q.buffer c seq payload nowNs line)

/-- A copy of something already dealt with. -/
def countDuplicate (q : Sequencer) : Sequencer :=
  { q with stats := { q.stats with duplicates := q.stats.duplicates + 1 } }

/-- The one place a message enters, after the implicit reset. -/
def ingestStarted (q : Sequencer) (seq : UInt64) (payload : Payload) (nowNs : UInt64)
    (line : Option LineId) : Bool × Sequencer :=
  if seq < q.expected then (false, q.countDuplicate)
  else if seq = q.expected then (true, q.deliverNow c seq payload nowNs line)
  else if q.holds c seq then (false, q.countDuplicate)
  else if c.capacity ≤ (seq - q.expected).toNat then
    -- draining on the way may have brought the front up to this very message
    let q := q.overflow c seq
    if seq = q.expected then (true, q.deliverNow c seq payload nowNs line)
    else q.takeEarly c seq payload nowNs line
  else q.takeEarly c seq payload nowNs line

/-- `ingest`: the flag says the message was taken, delivered or held. -/
def ingest (q : Sequencer) (seq : UInt64) (payload : Payload) (nowNs : UInt64)
    (line : Option LineId) : Bool × Sequencer :=
  (if q.started then q else q.reset seq).ingestStarted c seq payload nowNs line

/-! ## The public calls -/

/-- A message from one of the two lines. -/
def onMessage (q : Sequencer) (line : LineId) (seq : UInt64) (payload : Payload)
    (nowNs : UInt64) : Sequencer :=
  (q.ingest c seq payload nowNs (some line)).2

/-- A message from the retransmission server. It takes the same path, is credited to neither line,
and restarts the deadline of the outstanding request if it was taken. -/
def onRetransmit (q : Sequencer) (seq : UInt64) (payload : Payload) (nowNs : UInt64) :
    Sequencer :=
  let r := q.ingest c seq payload nowNs none
  if r.1 then
    let q : Sequencer :=
      { r.2 with stats := { r.2.stats with fromRecovery := r.2.stats.fromRecovery + 1 } }
    if q.state = .recovering then { q with recoveryDeadlineNs := nowNs + c.recoveryTimeoutNs }
    else q
  else r.2

/-- Whether the window is three quarters full. -/
def underPressure (q : Sequencer) : Bool := UInt64.ofNat c.capacity * 3 ≤ q.pending * 4

/-- Time passing. In `Gap` the grace runs out or the window fills up and the hole is asked for; in
`Recovering` the deadline passes and the request is repeated or the hole given up on; in `Stale`
nobody is asked, and after another grace the hole is stepped over. The request is returned and not
sent: the class knows nothing of sockets. -/
def poll (q : Sequencer) (nowNs : UInt64) : Option RetransmitRequest × Sequencer :=
  match q.state with
  -- three quarters full, to leave room for what arrives while the request is in flight
  | .gap =>
    if q.underPressure c = false ∧ nowNs < q.gapSinceNs + c.gapGraceNs then (none, q)
    else
      let r := { q with
        state := .recovering
        recoveryAttempts := 1
        recoveryDeadlineNs := nowNs + c.recoveryTimeoutNs
        stats := { q.stats with
          recoveryRequests := q.stats.recoveryRequests + 1 } : Sequencer }.issueRequest c
      (some r.1, r.2)
  | .recovering =>
    if nowNs < q.recoveryDeadlineNs then (none, q)
    -- out of attempts: what is held behind the hole is released, since the rest is not coming
    else if c.attempts ≤ q.recoveryAttempts then (none, (q.skipHole c).enterStale)
    else
      let r := { q with
        recoveryAttempts := q.recoveryAttempts + 1
        stats := { q.stats with
          recoveryRequests := q.stats.recoveryRequests + 1
          recoveryRetries := q.stats.recoveryRetries + 1 }
        recoveryDeadlineNs := nowNs + c.recoveryTimeoutNs : Sequencer }.issueRequest c
      (some r.1, r.2)
  | .stale =>
    if q.pending ≠ 0 ∧ q.gapSinceNs + c.gapGraceNs ≤ nowNs then
      (none, { q.skipHole c with gapSinceNs := nowNs })
    else (none, q)
  | .synced => (none, q)

end Sequencer

/-! ## Runs -/

/-- One call of the sequencer's interface, `reset` apart. -/
inductive Call where
  | message (line : LineId) (seq : UInt64) (payload : Payload) (nowNs : UInt64)
  | retransmit (seq : UInt64) (payload : Payload) (nowNs : UInt64)
  | poll (nowNs : UInt64)
  deriving DecidableEq, Repr

/-- The message a call carries. -/
def carried : Call → Option Delivery
  | .message _ seq payload _ => some (seq, payload)
  | .retransmit seq payload _ => some (seq, payload)
  | .poll _ => none

namespace Sequencer

variable (c : SequencerConfig)

/-- The state after one call. -/
def exec (q : Sequencer) : Call → Sequencer
  | .message line seq payload nowNs => q.onMessage c line seq payload nowNs
  | .retransmit seq payload nowNs => q.onRetransmit c seq payload nowNs
  | .poll nowNs => (q.poll c nowNs).2

/-- The state after a list of calls. -/
def run (q : Sequencer) (calls : List Call) : Sequencer := calls.foldl (exec c) q

/-- `reset`, with the record of the sink started anew. -/
def restart (q : Sequencer) (first : UInt64) : Sequencer := { q with sink := [] }.reset first

/-- A new sequencer, reset to `first` and not called yet. -/
def begin (first : UInt64) : Sequencer := (fresh c).restart first

end Sequencer

end Tickerplant
