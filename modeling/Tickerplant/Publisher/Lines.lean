import Tickerplant.Publisher.Loop

/-!
# The two lines (`tools/tickerplant_pub.cpp`)

Every packet goes out on both lines, less what the failure injection takes: a packet is lost on a
line, or held back, or delayed because its line is. What is held back waits in one queue for both
lines, and the queue is only looked at from its front, so a packet that is due waits for the one
before it.

The draws of a packet and the readings of the clock are arguments. `lines_lossless` is what comes
out in the end: nothing is lost that was not drawn to be, and nothing is sent twice.

It is proved by a ledger. For each line, what has been sent on it and what waits for it are
together what it was given and did not lose, in some order (`ledger_sendAll`). A flush moves
packets from the one to the other and leaves the ledger as it is, so the times at which the queue
is looked at make no difference to it, and once the queue is empty the ledger is what was sent.
That it empties is the clock's doing: every packet waits for a time that some packet's departure
set (`Due`), and a reading past all of them takes the whole queue.

The order is kept only if nothing is held back. Then line A never waits, and line B waits either
always or never (`Unheld`), so each line is a queue of its own.
-/

set_option autoImplicit false

namespace Tickerplant

open Mold

/-- What is drawn for a packet: each draw as it compares with its option. -/
structure Draw where
  hold : Bool := false
  loseA : Bool := false
  loseB : Bool := false
  deriving DecidableEq, Repr

/-- Whether the packet is lost on a line. -/
def Draw.loses (d : Draw) : LineId → Bool
  | .a => d.loseA
  | .b => d.loseB

/-- A packet that waits, and for what. -/
structure PendingPacket where
  bytes : List UInt8
  /-- When it may leave, at the earliest. -/
  dueNs : UInt64
  lineB : Bool
  deriving DecidableEq, Repr

/-- The line it waits for. -/
def PendingPacket.line (p : PendingPacket) : LineId := if p.lineB then .b else .a

/-- A packet that is finished, the time it leaves at, and its draws. -/
structure Departure where
  bytes : List UInt8
  nowNs : UInt64
  draw : Draw
  deriving DecidableEq, Repr

/-- When it is due on line A, if it is held back. -/
def Departure.dueA (d : Departure) : UInt64 := d.nowNs + 50000

/-- On line B everything waits for the skew, and longer if it is held back. -/
def Departure.dueB (skewBUs : UInt64) (d : Departure) : UInt64 :=
  d.nowNs + skewBUs * 1000 + if d.draw.hold then 50000 else 0

/-- The publisher's side of the two lines. -/
structure Lines where
  /-- What waits, for either line, in the order it came. -/
  delayed : List PendingPacket := []
  /-- What `sendto` was given, in order. -/
  sent : List (LineId × List UInt8) := []
  /-- The counters are natural numbers: they are only added to and printed. -/
  packets : ℕ := 0
  droppedA : ℕ := 0
  droppedB : ℕ := 0
  reordered : ℕ := 0
  deriving DecidableEq, Repr

namespace Lines

variable (skewBUs : UInt64)

/-- A packet leaves on a line. -/
def transmit (l : Lines) (line : LineId) (bytes : List UInt8) : Lines :=
  { l with sent := l.sent ++ [(line, bytes)] }

/-- The loop of `flush_delayed`: what is sent of a queue, and what is left of it. -/
def release (now : UInt64) : List PendingPacket → List (LineId × List UInt8) × List PendingPacket
  | [] => ([], [])
  | p :: ps =>
    if p.dueNs ≤ now then
      let r := release now ps
      ((p.line, p.bytes) :: r.1, r.2)
    else ([], p :: ps)

/-- What is due leaves, from the front of the queue up to the first that is not. -/
def flushDelayed (l : Lines) (now : UInt64) : Lines :=
  let r := release now l.delayed
  { l with sent := l.sent ++ r.1, delayed := r.2 }

/-- `send_packet`, for line A. -/
def sendA (l : Lines) (d : Departure) : Lines :=
  if d.draw.loseA then { l with droppedA := l.droppedA + 1 }
  else if d.draw.hold then { l with
    delayed := l.delayed ++ [{ bytes := d.bytes, dueNs := d.dueA, lineB := false }]
    reordered := l.reordered + 1 }
  else l.transmit .a d.bytes

/-- `send_packet`, for line B. -/
def sendB (l : Lines) (d : Departure) : Lines :=
  if d.draw.loseB then { l with droppedB := l.droppedB + 1 }
  else if 0 < skewBUs ∨ d.draw.hold then { l with
    delayed := l.delayed ++ [{ bytes := d.bytes, dueNs := d.dueB skewBUs, lineB := true }] }
  else l.transmit .b d.bytes

/-- A packet goes to both lines, line A first. -/
def sendPacket (l : Lines) (d : Departure) : Lines :=
  ({ l with packets := l.packets + 1 }.sendA d).sendB skewBUs d

/-- The end of `flush_packet`, for every packet of a run. -/
def sendAll (l : Lines) (ds : List Departure) : Lines :=
  ds.foldl (fun l d => (l.flushDelayed d.nowNs).sendPacket skewBUs d) l

/-- The loop that empties the queue, for as long as the clock is read; nothing if it is still
going. -/
def drainDelayed : List UInt64 → Lines → Option Lines
  | [], l => if l.delayed.isEmpty then some l else none
  | now :: nows, l => if l.delayed.isEmpty then some l else drainDelayed nows (l.flushDelayed now)

/-- The end of the session, twice on each line. -/
def endSession (l : Lines) (eos : List UInt8) : Lines :=
  (((l.transmit .a eos).transmit .b eos).transmit .a eos).transmit .b eos

/-- The run of a publisher whose loop finishes these packets. -/
def broadcast (ds : List Departure) (nows : List UInt64) (eos : List UInt8) : Option Lines :=
  (drainDelayed nows (({} : Lines).sendAll skewBUs ds)).map fun l => l.endSession eos

/-! ## The ledger of a line

What a line has been given is either on the wire or waits. A packet joins the ledger of a line
unless it is lost there, and a flush changes no ledger. -/

/-- What has been sent on a line. -/
def on (line : LineId) (sent : List (LineId × List UInt8)) : List (List UInt8) :=
  sent.filterMap fun x => if x.1 = line then some x.2 else none

/-- What waits for a line. -/
def waiting (line : LineId) (delayed : List PendingPacket) : List (List UInt8) :=
  on line (delayed.map fun p => (p.line, p.bytes))

/-- The packets that are not lost on a line. -/
def keeps (line : LineId) (ds : List Departure) : List (List UInt8) :=
  on line ((ds.filter fun d => !d.draw.loses line).map fun d => (line, d.bytes))

/-- What a line has been given and what it is yet to get. -/
def ledger (line : LineId) (l : Lines) : List (List UInt8) :=
  on line l.sent ++ waiting line l.delayed

variable {line : LineId} {l : Lines}

@[simp] theorem on_append (xs ys : List (LineId × List UInt8)) :
    on line (xs ++ ys) = on line xs ++ on line ys := List.filterMap_append

@[simp] theorem on_self (bytes : List UInt8) : on line [(line, bytes)] = [bytes] := by
  simp [on]

/-- Another line's packet is not this line's. -/
theorem on_other {other : LineId} (h : other ≠ line) (bytes : List UInt8) :
    on line [(other, bytes)] = [] := by
  simp [on, h]

@[simp] theorem waiting_append (ps qs : List PendingPacket) :
    waiting line (ps ++ qs) = waiting line ps ++ waiting line qs := by
  rw [waiting, List.map_append, on_append]
  rfl

/-- Flushing moves the front of the queue to the wire. -/
theorem release_moves (now : UInt64) (ps : List PendingPacket) :
    (release now ps).1 ++ (release now ps).2.map (fun p => (p.line, p.bytes)) =
      ps.map fun p => (p.line, p.bytes) := by
  induction ps with
  | nil => rfl
  | cons p ps ih =>
    unfold release
    split
    case isTrue => exact congrArg _ ih
    case isFalse => rfl

/-- A flush leaves the ledger as it is. -/
@[simp] theorem ledger_flushDelayed (now : UInt64) :
    ledger line (l.flushDelayed now) = ledger line l := by
  unfold ledger flushDelayed waiting
  rw [on_append, List.append_assoc, ← on_append, release_moves]

/-- A packet that was sent joins what its line has, before what waits. -/
theorem ledger_transmit (bytes : List UInt8) :
    (ledger line (l.transmit line bytes)).Perm (ledger line l ++ [bytes]) := by
  unfold ledger transmit
  rw [on_append, on_self, List.append_assoc, List.append_assoc]
  exact List.perm_append_comm.append_left _

/-- A packet sent on another line is not in it. -/
theorem ledger_transmit_other {other : LineId} (h : other ≠ line) (bytes : List UInt8) :
    ledger line (l.transmit other bytes) = ledger line l := by
  unfold ledger transmit
  rw [on_append, on_other h, List.append_nil]

/-- A packet that is to wait comes last on its line. -/
theorem ledger_push (p : PendingPacket) :
    ledger line { l with delayed := l.delayed ++ [p] } =
      ledger line l ++ if p.line = line then [p.bytes] else [] := by
  unfold ledger
  rw [waiting_append, List.append_assoc]
  congr 2
  unfold waiting on
  split
  case isTrue h => simp [h]
  case isFalse h => simp [h]

/-- One packet after another. -/
theorem keeps_cons (d : Departure) (ds : List Departure) :
    keeps line (d :: ds) = (if d.draw.loses line then [] else [d.bytes]) ++ keeps line ds := by
  unfold keeps
  cases h : d.draw.loses line with
  | true => simp [h]
  | false =>
    rw [List.filter_cons_of_pos (by rw [h]; rfl), List.map_cons, ← List.singleton_append, on_append,
      on_self]
    rfl

variable (d : Departure)

/-- Line A gets the packet, unless it is lost there, and line B nothing. -/
theorem ledger_sendA : (ledger .a (l.sendA d)).Perm
      (ledger .a l ++ if d.draw.loses .a then [] else [d.bytes]) ∧
    ledger .b (l.sendA d) = ledger .b l := by
  unfold sendA
  rw [show d.draw.loses .a = d.draw.loseA from rfl]
  split
  case isTrue =>
    rw [List.append_nil]
    exact ⟨.refl _, rfl⟩
  case isFalse =>
    split
    case isTrue =>
      exact ⟨.of_eq (ledger_push _), (ledger_push _).trans (List.append_nil _)⟩
    case isFalse => exact ⟨ledger_transmit _, ledger_transmit_other (by decide) _⟩

/-- Line B gets the packet, unless it is lost there, and line A nothing. -/
theorem ledger_sendB : (ledger .b (l.sendB skewBUs d)).Perm
      (ledger .b l ++ if d.draw.loses .b then [] else [d.bytes]) ∧
    ledger .a (l.sendB skewBUs d) = ledger .a l := by
  unfold sendB
  rw [show d.draw.loses .b = d.draw.loseB from rfl]
  split
  case isTrue =>
    rw [List.append_nil]
    exact ⟨.refl _, rfl⟩
  case isFalse =>
    split
    case isTrue =>
      exact ⟨.of_eq (ledger_push _), (ledger_push _).trans (List.append_nil _)⟩
    case isFalse => exact ⟨ledger_transmit _, ledger_transmit_other (by decide) _⟩

/-- **A packet** joins each line's ledger once, unless it is lost there. -/
theorem ledger_sendPacket : (ledger line (l.sendPacket skewBUs d)).Perm
    (ledger line l ++ if d.draw.loses line then [] else [d.bytes]) := by
  unfold sendPacket
  obtain ⟨ha, hb⟩ := ledger_sendA (l := { l with packets := l.packets + 1 }) d
  obtain ⟨hb', ha'⟩ := ledger_sendB skewBUs (l := { l with packets := l.packets + 1 }.sendA d) d
  -- what is done for one line leaves the ledger of the other
  cases line with
  | a =>
    rw [ha']
    exact ha
  | b =>
    rw [hb] at hb'
    exact hb'

/-- **A run of packets** joins each ledger, whenever the queue is flushed. -/
theorem ledger_sendAll (ds : List Departure) : ∀ l : Lines,
    (ledger line (l.sendAll skewBUs ds)).Perm (ledger line l ++ keeps line ds) := by
  induction ds with
  | nil => exact fun l => .of_eq (List.append_nil _).symm
  | cons d ds ih =>
    intro l
    have hd : (ledger line ((l.flushDelayed d.nowNs).sendPacket skewBUs d)).Perm _ :=
      ledger_sendPacket skewBUs d
    -- the flush before the packet changes nothing here
    rw [ledger_flushDelayed] at hd
    have hrest := (ih _).trans (hd.append_right (keeps line ds))
    rwa [List.append_assoc, ← keeps_cons] at hrest

/-! ## Without reordering

Where no packet is held back, each line sends in the order it was given. -/

/-- Nothing is held back: on line A nothing waits, and on line B only if it is skewed. -/
def Unheld (l : Lines) : Prop :=
  waiting .a l.delayed = [] ∧ (skewBUs = 0 → waiting .b l.delayed = [])

/-- What does not wait for a line still does not after a flush. -/
theorem waiting_release (now : UInt64) {ps : List PendingPacket} (h : waiting line ps = []) :
    waiting line (release now ps).2 = [] := by
  unfold waiting at h ⊢
  rw [← release_moves now ps, on_append] at h
  exact (List.append_eq_nil_iff.mp h).2

/-- So a flush leaves nothing held back. -/
theorem Unheld.flushDelayed (h : Unheld skewBUs l) (now : UInt64) :
    Unheld skewBUs (l.flushDelayed now) :=
  ⟨waiting_release now h.1, fun hskew => waiting_release now (h.2 hskew)⟩

/-- Where nothing waits, what is sent comes last. -/
theorem ledger_transmit_direct (h : waiting line l.delayed = []) (bytes : List UInt8) :
    ledger line (l.transmit line bytes) = ledger line l ++ [bytes] := by
  unfold ledger transmit
  rw [h, on_append, on_self, List.append_nil, List.append_nil]

/-- A packet that is not held back comes last on each line that gets it. -/
theorem Unheld.sendPacket (h : Unheld skewBUs l) (hhold : d.draw.hold = false) :
    Unheld skewBUs (l.sendPacket skewBUs d) ∧
      ∀ line, ledger line (l.sendPacket skewBUs d) =
        ledger line l ++ if d.draw.loses line then [] else [d.bytes] := by
  let l₁ := { l with packets := l.packets + 1 }.sendA d
  -- line A sends it at once or loses it, and the queue stays as it is
  have hdelayed : l₁.delayed = l.delayed := by
    show ({ l with packets := l.packets + 1 }.sendA d).delayed = _
    unfold sendA
    rw [hhold, if_neg Bool.false_ne_true]
    split <;> rfl
  have ha : ledger .a l₁ = ledger .a l ++ if d.draw.loses .a then [] else [d.bytes] := by
    show ledger .a ({ l with packets := l.packets + 1 }.sendA d) = _
    unfold sendA
    rw [hhold, if_neg Bool.false_ne_true, show d.draw.loses .a = d.draw.loseA from rfl]
    split
    case isTrue => exact (List.append_nil _).symm
    case isFalse => exact ledger_transmit_direct h.1 _
  obtain ⟨-, hb⟩ := ledger_sendA (l := { l with packets := l.packets + 1 }) d
  obtain ⟨-, ha'⟩ := ledger_sendB skewBUs (l := l₁) d
  show Unheld skewBUs (l₁.sendB skewBUs d) ∧ ∀ line, ledger line (l₁.sendB skewBUs d) = _
  refine ⟨?_, fun line => ?_⟩
  · unfold sendB Unheld
    rw [hhold]
    split
    case isTrue => exact hdelayed ▸ h
    case isFalse =>
      split
      case isTrue hwait =>
        have hskew : 0 < skewBUs := hwait.resolve_right Bool.false_ne_true
        refine ⟨?_, fun hzero => absurd (hzero ▸ hskew) (UInt64.lt_irrefl _)⟩
        rw [waiting_append, hdelayed, h.1]
        rfl
      case isFalse => exact hdelayed ▸ h
  · cases line with
    | a => exact ha'.trans ha
    | b =>
      rw [← show ledger .b l₁ = ledger .b l from hb]
      unfold sendB
      rw [hhold, show d.draw.loses .b = d.draw.loseB from rfl]
      split
      case isTrue => exact (List.append_nil _).symm
      case isFalse =>
        split
        case isTrue => exact ledger_push _
        -- a line B without skew sends at once too, and nothing waits for it
        case isFalse hdirect =>
          have hskew : skewBUs = 0 := by_contra fun hne =>
            hdirect (.inl (UInt64.pos_iff_ne_zero.mpr hne))
          exact ledger_transmit_direct (hdelayed ▸ h.2 hskew) _

/-- So it is for a run of them. -/
theorem Unheld.sendAll (ds : List Departure) (hhold : ∀ d ∈ ds, d.draw.hold = false) :
    ∀ {l : Lines}, Unheld skewBUs l →
      ∀ line, ledger line (l.sendAll skewBUs ds) = ledger line l ++ keeps line ds := by
  induction ds with
  | nil => exact fun {l} _ line => (List.append_nil _).symm
  | cons d ds ih =>
    intro l h line
    obtain ⟨hd, hledger⟩ := (h.flushDelayed skewBUs d.nowNs).sendPacket skewBUs d
      (hhold d List.mem_cons_self)
    have hrest := ih (fun x hx => hhold x (List.mem_cons_of_mem _ hx)) hd line
    rw [hledger, ledger_flushDelayed, List.append_assoc, ← keeps_cons] at hrest
    exact hrest

/-! ## What is counted

Each counter is the number of packets whose draws say so. A packet that is held back and lost on
line A is lost, and not counted as reordered. -/

/-- The counters after these packets. -/
structure Counts (ds : List Departure) (l : Lines) : Prop where
  packets : l.packets = ds.length
  droppedA : l.droppedA = ds.countP fun d => d.draw.loses .a
  droppedB : l.droppedB = ds.countP fun d => d.draw.loses .b
  reordered : l.reordered = ds.countP fun d => d.draw.hold && !d.draw.loses .a

/-- What line A adds to the counters. -/
theorem sendA_counts : (l.sendA d).packets = l.packets ∧ (l.sendA d).droppedB = l.droppedB ∧
    (l.sendA d).droppedA = l.droppedA + (if d.draw.loses .a then 1 else 0) ∧
    (l.sendA d).reordered =
      l.reordered + if (d.draw.hold && !d.draw.loses .a) = true then 1 else 0 := by
  unfold sendA transmit
  rw [show d.draw.loses .a = d.draw.loseA from rfl]
  cases d.draw.loseA <;> cases d.draw.hold <;> exact ⟨rfl, rfl, rfl, rfl⟩

/-- And line B. -/
theorem sendB_counts : (l.sendB skewBUs d).packets = l.packets ∧
    (l.sendB skewBUs d).droppedA = l.droppedA ∧
    (l.sendB skewBUs d).droppedB = l.droppedB + (if d.draw.loses .b then 1 else 0) ∧
    (l.sendB skewBUs d).reordered = l.reordered := by
  unfold sendB transmit
  rw [show d.draw.loses .b = d.draw.loseB from rfl]
  cases d.draw.loseB with
  | true => exact ⟨rfl, rfl, rfl, rfl⟩
  | false =>
    rw [if_neg Bool.false_ne_true]
    split <;> exact ⟨rfl, rfl, rfl, rfl⟩

variable {ds : List Departure}

/-- One packet more is counted. -/
theorem Counts.sendPacket (h : Counts ds l) (now : UInt64) :
    Counts (ds ++ [d]) ((l.flushDelayed now).sendPacket skewBUs d) := by
  obtain ⟨hpackets, hb, ha, hr⟩ := sendA_counts (d := d)
    (l := { l.flushDelayed now with packets := l.packets + 1 })
  obtain ⟨hpackets', ha', hb', hr'⟩ := sendB_counts skewBUs (d := d)
    (l := { l.flushDelayed now with packets := l.packets + 1 }.sendA d)
  constructor
  · rw [List.length_append, ← h.packets]
    exact hpackets'.trans hpackets
  · rw [List.countP_append, ← h.droppedA, List.countP_singleton]
    exact ha'.trans ha
  · rw [List.countP_append, ← h.droppedB, List.countP_singleton]
    exact hb'.trans (congrArg (· + _) hb)
  · rw [List.countP_append, ← h.reordered, List.countP_singleton]
    exact hr'.trans hr

/-- And a run of them. -/
theorem Counts.sendAll (ds' : List Departure) : ∀ {ds : List Departure} {l : Lines},
    Counts ds l → Counts (ds ++ ds') (l.sendAll skewBUs ds') := by
  induction ds' with
  | nil =>
    intro ds l h
    rw [List.append_nil]
    exact h
  | cons d ds' ih =>
    intro ds l h
    have hrest := ih (h.sendPacket skewBUs d d.nowNs)
    rwa [List.append_assoc] at hrest

/-! ## The queue empties

A packet that is due may wait behind one that is not, so the queue is only sure to empty when the
clock is past everything in it. -/

/-- What waits is due when some packet was. -/
def Due (ds : List Departure) (ps : List PendingPacket) : Prop :=
  ∀ p ∈ ps, ∃ d ∈ ds, p.dueNs = d.dueA ∨ p.dueNs = d.dueB skewBUs

/-- What is left of the queue was in it. -/
theorem mem_release (now : UInt64) {ps : List PendingPacket} {p : PendingPacket}
    (h : p ∈ (release now ps).2) : p ∈ ps := by
  induction ps with
  | nil => exact h
  | cons q ps ih =>
    unfold release at h
    split at h
    case isTrue => exact List.mem_cons_of_mem _ (ih h)
    case isFalse => exact h

/-- A reading that is past everything empties the queue. -/
theorem release_all {now : UInt64} {ps : List PendingPacket} (h : ∀ p ∈ ps, p.dueNs ≤ now) :
    (release now ps).2 = [] := by
  induction ps with
  | nil => rfl
  | cons p ps ih =>
    unfold release
    rw [if_pos (h p List.mem_cons_self)]
    exact ih fun q hq => h q (List.mem_cons_of_mem _ hq)

/-- What a packet puts in the queue is due when the packet says. -/
theorem due_sendPacket (h : Due skewBUs ds l.delayed) (hd : d ∈ ds) (now : UInt64) :
    Due skewBUs ds ((l.flushDelayed now).sendPacket skewBUs d).delayed := by
  have hflush : Due skewBUs ds (l.flushDelayed now).delayed := fun p hp => h p (mem_release now hp)
  have ha : Due skewBUs ds
      ({ l.flushDelayed now with packets := l.packets + 1 }.sendA d).delayed := by
    unfold sendA
    split
    case isTrue => exact hflush
    case isFalse =>
      split
      case isTrue =>
        intro p hp
        rcases List.mem_append.mp hp with hp | hp
        · exact hflush p hp
        · obtain rfl := List.mem_singleton.mp hp
          exact ⟨d, hd, .inl rfl⟩
      case isFalse => exact hflush
  show Due skewBUs ds
    (({ l.flushDelayed now with packets := l.packets + 1 }.sendA d).sendB skewBUs d).delayed
  unfold sendB
  split
  case isTrue => exact ha
  case isFalse =>
    split
    case isTrue =>
      intro p hp
      rcases List.mem_append.mp hp with hp | hp
      · exact ha p hp
      · obtain rfl := List.mem_singleton.mp hp
        exact ⟨d, hd, .inr rfl⟩
    case isFalse => exact ha

/-- So nothing in the queue is due at any other time. -/
theorem due_sendAll (ds' : List Departure) : ∀ {l : Lines}, Due skewBUs ds l.delayed →
    (∀ d ∈ ds', d ∈ ds) → Due skewBUs ds (l.sendAll skewBUs ds').delayed := by
  induction ds' with
  | nil => exact fun {l} h _ => h
  | cons d ds' ih =>
    intro l h hmem
    exact ih (due_sendPacket skewBUs d h (hmem d List.mem_cons_self) d.nowNs)
      fun x hx => hmem x (List.mem_cons_of_mem _ hx)

/-- **The queue empties** once the clock has passed every due time. -/
theorem drainDelayed_ends (nows : List UInt64) : ∀ {l : Lines}, Due skewBUs ds l.delayed →
    (∃ now ∈ nows, ∀ d ∈ ds, d.dueA ≤ now ∧ d.dueB skewBUs ≤ now) →
    ∃ l', drainDelayed nows l = some l' := by
  induction nows with
  | nil =>
    rintro l - ⟨now, hnow, -⟩
    exact absurd hnow List.not_mem_nil
  | cons now nows ih =>
    rintro l hdue ⟨last, hlast, hpast⟩
    unfold drainDelayed
    by_cases hempty : l.delayed.isEmpty = true
    · rw [if_pos hempty]
      exact ⟨l, rfl⟩
    · rw [if_neg hempty]
      -- either this is the reading that is past everything, or it comes later
      rcases List.mem_cons.mp hlast with rfl | hlater
      · have hdone : (l.flushDelayed last).delayed = [] := release_all fun p hp => by
          obtain ⟨d, hd, heq | heq⟩ := hdue p hp
          · exact heq ▸ (hpast d hd).1
          · exact heq ▸ (hpast d hd).2
        refine ⟨l.flushDelayed last, ?_⟩
        cases nows <;> rw [drainDelayed, hdone] <;> rfl
      · exact ih (fun p hp => hdue p (mem_release now hp)) ⟨last, hlater, hpast⟩

/-- What waited is sent, and nothing else. -/
theorem drainDelayed_spec (nows : List UInt64) : ∀ {l l' : Lines}, drainDelayed nows l = some l' →
    l'.delayed = [] ∧ (∀ line, ledger line l' = ledger line l) ∧
      ∀ ds, Counts ds l → Counts ds l' := by
  have hdone {l l' : Lines} (hempty : l.delayed.isEmpty = true) (h : some l = some l') :
      l'.delayed = [] ∧ (∀ line, ledger line l' = ledger line l) ∧
        ∀ ds, Counts ds l → Counts ds l' := by
    obtain rfl := Option.some.inj h
    exact ⟨List.isEmpty_iff.mp hempty, fun _ => rfl, fun _ hc => hc⟩
  -- each reading moves packets from the queue to the wire
  induction nows with
  | nil =>
    intro l l' h
    unfold drainDelayed at h
    split at h
    case isTrue hempty => exact hdone hempty h
    case isFalse => cases h
  | cons now nows ih =>
    intro l l' h
    unfold drainDelayed at h
    split at h
    case isTrue hempty => exact hdone hempty h
    case isFalse =>
      obtain ⟨hnil, hledger, hcounts⟩ := ih h
      exact ⟨hnil, fun line => (hledger line).trans (ledger_flushDelayed _),
        fun ds hc => hcounts ds ⟨hc.packets, hc.droppedA, hc.droppedB, hc.reordered⟩⟩

/-! ## A session on two lines

The packets, the queue emptied, and the end of the session twice on each line. -/

/-- The end goes out twice on each line, behind everything else. -/
theorem on_endSession (eos : List UInt8) :
    on line (l.endSession eos).sent = on line l.sent ++ [eos, eos] := by
  unfold endSession transmit
  cases line <;> simp [on]

/-- What a run that is over has sent on a line. -/
theorem on_broadcast {nows : List UInt64} {eos : List UInt8} {l : Lines}
    (h : broadcast skewBUs ds nows eos = some l) (line : LineId) :
    on line l.sent = ledger line (({} : Lines).sendAll skewBUs ds) ++ [eos, eos] := by
  obtain ⟨l₁, hl₁, rfl⟩ := Option.map_eq_some_iff.mp h
  obtain ⟨hnil, hledger, -⟩ := drainDelayed_spec nows hl₁
  rw [on_endSession, ← hledger, ledger, hnil]
  exact congrArg (· ++ _) (List.append_nil _).symm

/-- **The lines lose what is drawn to be lost, and nothing else.** Once the clock has passed the
last due time the run is over, and each line has been given every packet that was not lost on it,
once, and the end of the session twice; in the order they were finished in if none is held back.
The counters say what was lost and held. -/
theorem lines_lossless (ds : List Departure) (nows : List UInt64) (eos : List UInt8)
    (hclock : ∃ now ∈ nows, ∀ d ∈ ds, d.dueA ≤ now ∧ d.dueB skewBUs ≤ now) :
    ∃ l, broadcast skewBUs ds nows eos = some l ∧
      (∀ line, (on line l.sent).Perm (keeps line ds ++ [eos, eos])) ∧
      ((∀ d ∈ ds, d.draw.hold = false) →
        ∀ line, on line l.sent = keeps line ds ++ [eos, eos]) ∧
      Counts ds l := by
  have hdue : Due skewBUs ds (({} : Lines).sendAll skewBUs ds).delayed :=
    due_sendAll skewBUs ds (fun p hp => absurd hp List.not_mem_nil) fun d hd => hd
  obtain ⟨l, hl⟩ := drainDelayed_ends skewBUs nows hdue hclock
  have hbroadcast : broadcast skewBUs ds nows eos = some (l.endSession eos) := by
    rw [broadcast, hl]
    rfl
  obtain ⟨-, -, hcounts⟩ := drainDelayed_spec nows hl
  have hnone : Counts [] ({} : Lines) := ⟨rfl, rfl, rfl, rfl⟩
  have hcount := hcounts ds (hnone.sendAll skewBUs ds)
  refine ⟨l.endSession eos, hbroadcast, fun line => ?_, fun hhold line => ?_,
    ⟨hcount.packets, hcount.droppedA, hcount.droppedB, hcount.reordered⟩⟩
  · rw [on_broadcast skewBUs hbroadcast]
    exact (ledger_sendAll skewBUs ds {}).append_right _
  · rw [on_broadcast skewBUs hbroadcast, Unheld.sendAll skewBUs ds hhold ⟨rfl, fun _ => rfl⟩ line]
    rfl

/-- A packet held back, one lost on line A, and line B a microsecond behind. -/
def threeDepartures : List Departure :=
  [⟨[0x01], 1000, { hold := true }⟩, ⟨[0x02], 2000, { loseA := true }⟩, ⟨[0x03], 3000, {}⟩]

theorem lines_lossless_threeDepartures :
    ∃ l, broadcast 1 threeDepartures [4000, 100000] [0xFF] = some l ∧
      (∀ line, (on line l.sent).Perm (keeps line threeDepartures ++ [[0xFF], [0xFF]])) ∧
      ((∀ d ∈ threeDepartures, d.draw.hold = false) →
        ∀ line, on line l.sent = keeps line threeDepartures ++ [[0xFF], [0xFF]]) ∧
      Counts threeDepartures l :=
  lines_lossless 1 threeDepartures [4000, 100000] [0xFF] ⟨100000, by decide, by decide⟩

end Lines

end Tickerplant
