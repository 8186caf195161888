import Tickerplant.Mold.View
import Tickerplant.Sequencer.Basic

/-!
# The receiver (`tools/tickerplant_rx.cpp`)

The receive loop reads datagrams off one or two lines, replies off the retransmission socket, and a
clock. What it does with each is a list of calls of the sequencer: one for every message of a
datagram that parses and carries messages, numbered on from the header's sequence, and one for
every turn of the clock.

A turn of the loop is what it read in it: the batches of each line with the time each was read at,
the replies, and the time the turn is polled at. The loop ends when a turn brought nothing and
traffic has been idle for long enough, and the program's exit status then only asks whether the
feed is `Stale`. Counters that are only reported are left out, and `st.messages` is the number of
calls made to the sink.

Reading a packet is a walk over bytes with checked accesses, so an arrival makes its calls in
`Checked`; that it never faults is `Arrival.calls_ok`, and from there on `callList` is a plain
list. Where the batches come from, and how the strategies read them, is `Receiver/Drain`.

A line's packet and a server's reply are read alike but for two things, and both stand in
`Arrival.calls`: the live side drops heartbeats and ends of session before it looks at their
messages, and a reply is credited to no line.
-/

set_option autoImplicit false

namespace Tickerplant

open Lib Mold

/-- One thing the receiver takes in. -/
inductive Arrival where
  /-- A packet of one of the two lines. -/
  | datagram (line : LineId) (pkt : List UInt8) (now : UInt64)
  /-- A packet of the retransmission server. -/
  | reply (pkt : List UInt8) (now : UInt64)
  /-- A look at the clock. -/
  | poll (now : UInt64)
  deriving DecidableEq, Repr

/-- `s`, `s + 1`, ... for a list of messages. -/
def numbered : UInt64 → List Payload → List Delivery
  | _, [] => []
  | s, m :: ms => (s, m) :: numbered (s + 1) ms

/-- The calls of the sequencer one arrival makes. -/
def Arrival.calls : Arrival → Checked (List Call)
  | .datagram line pkt now => do
    match ← PacketView.parse pkt with
    | none => return []
    | some view =>
      if view.isEndOfSession then return []
      else if view.isHeartbeat then return []
      else
        let ms ← view.messages
        return (numbered view.hdr.sequence ms).map fun m => .message line m.1 m.2 now
  | .reply pkt now => do
    match ← PacketView.parse pkt with
    | none => return []
    | some view =>
      let ms ← view.messages
      return (numbered view.hdr.sequence ms).map fun m => .retransmit m.1 m.2 now
  | .poll now => return [.poll now]

/-- The calls a list of arrivals makes, one arrival after the other. -/
def callsOf : List Arrival → Checked (List Call)
  | [] => .ok []
  | a :: as => do
    let calls ← a.calls
    let rest ← callsOf as
    return calls ++ rest

/-- The options of the command line that the loop looks at. -/
structure RxOptions where
  /-- Whether `--lines` is 2. -/
  two : Bool := true
  /-- Whether there is a retransmission socket. -/
  retransmit : Bool := true
  /-- `--idle-exit`: how long without traffic before the run ends. Zero is never. -/
  idleExitMs : UInt64 := 0
  /-- `--limit`: after how many messages it ends. Zero is never. -/
  limit : ℕ := 0
  deriving DecidableEq, Repr

/-- What one turn of the loop reads. A batch is what one call of `receive` returned, with the
time taken after it. -/
structure Turn where
  lineA : List (UInt64 × List (List UInt8)) := []
  lineB : List (UInt64 × List (List UInt8)) := []
  replies : List (List UInt8) := []
  now : UInt64
  deriving DecidableEq, Repr

/-- The datagrams of a line's batches. -/
def datagrams (line : LineId) (batches : List (UInt64 × List (List UInt8))) : List Arrival :=
  batches.flatMap fun b => b.2.map fun pkt => .datagram line pkt b.1

/-- What a turn takes in, in the order it does: the lines, the replies, and the clock. -/
def Turn.arrivals (opt : RxOptions) (t : Turn) : List Arrival :=
  datagrams .a t.lineA ++ (if opt.two then datagrams .b t.lineB else []) ++
    (if opt.retransmit then t.replies.map fun pkt => .reply pkt t.now else []) ++ [.poll t.now]

/-- A reply counts as traffic when it parses. -/
def parses (pkt : List UInt8) : Bool :=
  match PacketView.parse pkt with
  | .ok (some _) => true
  | _ => false

/-- `got_any`. -/
def Turn.gotAny (opt : RxOptions) (t : Turn) : Bool :=
  t.lineA.any (fun b => !b.2.isEmpty) || (opt.two && t.lineB.any fun b => !b.2.isEmpty) ||
    (opt.retransmit && t.replies.any parses)

/-- The loop, from the time of the last traffic: the sequencer at the end of it, and the turns it
never came to if it broke out. -/
def runLoop (c : SequencerConfig) (opt : RxOptions) :
    Sequencer → UInt64 → List Turn → Checked (Option (List Turn) × Sequencer)
  | q, _, [] => .ok (none, q)
  | q, lastTraffic, t :: ts => do
    let calls ← callsOf (t.arrivals opt)
    let q := q.run c calls
    if t.gotAny opt then
      if opt.limit ≠ 0 ∧ opt.limit ≤ q.sink.length then .ok (some ts, q)
      else runLoop c opt q t.now ts
    else if 0 < q.sink.length ∧ opt.idleExitMs ≠ 0 ∧
        opt.idleExitMs * 1000000 < t.now - lastTraffic then .ok (some ts, q)
    else if opt.limit ≠ 0 ∧ opt.limit ≤ q.sink.length then .ok (some ts, q)
    else runLoop c opt q lastTraffic ts

/-- The exit status of a run that ended. -/
def exitStatus (q : Sequencer) : ℕ := if q.state = .stale then 3 else 0

/-! ## What an arrival amounts to -/

/-- Each of its places has a message under its number. -/
theorem mem_numbered_of_lt {s : UInt64} {ms : List Payload} {k : ℕ} (h : k < ms.length) :
    ∃ m, (s + UInt64.ofNat k, m) ∈ numbered s ms := by
  induction ms generalizing s k with
  | nil => exact absurd h (by simp)
  | cons m ms ih =>
    rw [numbered]
    cases k with
    | zero => exact ⟨m, by simp⟩
    | succ k =>
      obtain ⟨m', hm'⟩ := ih (s := s + 1) (by simpa using h)
      refine ⟨m', List.mem_cons_of_mem _ ?_⟩
      rw [UInt64.ofNat_add, UInt64.add_comm _ (UInt64.ofNat 1), ← UInt64.add_assoc]
      exact hm'

/-- **A datagram makes one call for each of its messages**, whatever the bytes, and none when it
does not parse or carries no messages. -/
theorem calls_datagram (line : LineId) (pkt : List UInt8) (now : UInt64) :
    (Arrival.datagram line pkt now).calls = .ok (match viewOf pkt with
      | none => []
      | some view =>
        if view.isEndOfSession then []
        else if view.isHeartbeat then []
        else
          match view.messages with
          | .ok ms => (numbered view.hdr.sequence ms).map fun m => .message line m.1 m.2 now
          | .error _ => []) := by
  unfold Arrival.calls
  simp only [parse_eq, bind, Except.bind, pure, Except.pure]
  cases hv : viewOf pkt with
  | none => rfl
  | some view =>
    obtain ⟨-, ms, hms, -⟩ := viewOf_some hv
    simp only [hms]
    split
    · rfl
    · split <;> rfl

/-- **So does a reply**, and it is not looked at for the end of the session. -/
theorem calls_reply (pkt : List UInt8) (now : UInt64) :
    (Arrival.reply pkt now).calls = .ok (match viewOf pkt with
      | none => []
      | some view =>
        match view.messages with
        | .ok ms => (numbered view.hdr.sequence ms).map fun m => .retransmit m.1 m.2 now
        | .error _ => []) := by
  unfold Arrival.calls
  simp only [parse_eq, bind, Except.bind, pure, Except.pure]
  cases hv : viewOf pkt with
  | none => rfl
  | some view =>
    obtain ⟨-, ms, hms, -⟩ := viewOf_some hv
    simp only [hms]

/-- **No arrival faults.** -/
theorem Arrival.calls_ok (a : Arrival) : ∃ calls, a.calls = .ok calls := by
  cases a with
  | datagram line pkt now => exact ⟨_, calls_datagram line pkt now⟩
  | reply pkt now => exact ⟨_, calls_reply pkt now⟩
  | poll now => exact ⟨_, rfl⟩

/-- The calls of one arrival come before those of the next. -/
theorem callsOf_cons {a : Arrival} {as : List Arrival} {calls rest : List Call}
    (h : a.calls = .ok calls) (hrest : callsOf as = .ok rest) :
    callsOf (a :: as) = .ok (calls ++ rest) := by
  rw [callsOf]
  simp only [bind, Except.bind, pure, Except.pure, h, hrest]

/-- Neither does any list of them. -/
theorem callsOf_ok (as : List Arrival) : ∃ calls, callsOf as = .ok calls := by
  induction as with
  | nil => exact ⟨[], rfl⟩
  | cons a as ih =>
    obtain ⟨calls, h⟩ := a.calls_ok
    obtain ⟨rest, hrest⟩ := ih
    exact ⟨calls ++ rest, callsOf_cons h hrest⟩

/-- The calls of a list of arrivals, which do not fault. -/
def callList (as : List Arrival) : List Call :=
  match callsOf as with
  | .ok calls => calls
  | .error _ => []

/-- It is what the checked walk comes to. -/
theorem callsOf_eq (as : List Arrival) : callsOf as = .ok (callList as) := by
  obtain ⟨calls, h⟩ := callsOf_ok as
  unfold callList
  rw [h]

/-- Whatever that walk comes to, it is. -/
theorem callList_eq {as : List Arrival} {calls : List Call} (h : callsOf as = .ok calls) :
    callList as = calls := by
  unfold callList
  rw [h]

/-- One list of arrivals after another. -/
theorem callList_append (as bs : List Arrival) :
    callList (as ++ bs) = callList as ++ callList bs := by
  induction as with
  | nil => rfl
  | cons a as ih =>
    obtain ⟨calls, h⟩ := a.calls_ok
    rw [List.cons_append, callList_eq (callsOf_cons h (callsOf_eq (as ++ bs))), ih,
      callList_eq (callsOf_cons h (callsOf_eq as)), List.append_assoc]

/-- The calls of each arrival are among those of the list. -/
theorem calls_subset {as : List Arrival} {a : Arrival} (ha : a ∈ as) {calls : List Call}
    (h : a.calls = .ok calls) : ∀ call ∈ calls, call ∈ callList as := by
  induction as with
  | nil => exact absurd ha (by simp)
  | cons b as ih =>
    obtain ⟨calls', hb⟩ := b.calls_ok
    intro call hc
    rw [callList_eq (callsOf_cons hb (callsOf_eq as))]
    rcases List.mem_cons.mp ha with rfl | ha
    · rw [h, Except.ok.injEq] at hb
      rw [← hb]
      exact List.mem_append_left _ hc
    · exact List.mem_append_right _ (ih ha call hc)

/-! ## The loop -/

/-- **How the loop ends** when it has no limit on messages: in a turn that brought nothing. -/
theorem runLoop_ended {c : SequencerConfig} {opt : RxOptions} (hlimit : opt.limit = 0)
    {turns unread : List Turn} {q' : Sequencer} :
    ∀ {q : Sequencer} {lastTraffic : UInt64},
      runLoop c opt q lastTraffic turns = .ok (some unread, q') →
      ∃ read t, turns = read ++ t :: unread ∧ t.gotAny opt = false ∧
        q' = q.run c (callList ((read ++ [t]).flatMap (Turn.arrivals opt))) := by
  have hno : ∀ n : ℕ, ¬ (opt.limit ≠ 0 ∧ opt.limit ≤ n) := fun n hc => hc.1 hlimit
  induction turns with
  | nil => intro q lastTraffic h; exact absurd h (by simp [runLoop])
  | cons t ts ih =>
    intro q lastTraffic h
    rw [runLoop, callsOf_eq] at h
    simp only [bind, Except.bind] at h
    -- a turn that does not end the run is one more that was read
    have hnext : ∀ {last}, runLoop c opt (q.run c (callList (t.arrivals opt))) last ts
        = .ok (some unread, q') → ∃ read t', t :: ts = read ++ t' :: unread ∧
          t'.gotAny opt = false ∧
          q' = q.run c (callList ((read ++ [t']).flatMap (Turn.arrivals opt))) := by
      intro last hrest
      obtain ⟨read, t', hts, hgot, hq⟩ := ih hrest
      refine ⟨t :: read, t', by rw [hts]; rfl, hgot, ?_⟩
      rw [hq, List.cons_append, List.flatMap_cons, callList_append]
      unfold Sequencer.run
      rw [List.foldl_append]
    split at h
    · rw [if_neg (hno _)] at h
      exact hnext h
    · rename_i hgot
      split at h
      · rw [Except.ok.injEq, Prod.mk.injEq, Option.some.injEq] at h
        obtain ⟨rfl, rfl⟩ := h
        refine ⟨[], t, rfl, by simpa using hgot, ?_⟩
        rw [List.nil_append, List.flatMap_singleton]
      · rw [if_neg (hno _)] at h
        exact hnext h

/-- Batches with nothing in them are no datagrams. -/
theorem datagrams_eq_nil {line : LineId} {batches : List (UInt64 × List (List UInt8))}
    (h : batches.any (fun b => !b.2.isEmpty) = false) : datagrams line batches = [] := by
  unfold datagrams
  rw [List.flatMap_eq_nil_iff]
  intro b hb
  have := (List.any_eq_false.mp h) b hb
  simp only [Bool.not_eq_true, Bool.not_eq_false', List.isEmpty_iff] at this
  rw [this]
  rfl

/-- A reply that does not parse makes no calls. -/
theorem callList_replies {replies : List (List UInt8)} (now : UInt64)
    (h : replies.any parses = false) :
    callList (replies.map fun pkt => Arrival.reply pkt now) = [] := by
  induction replies with
  | nil => rfl
  | cons pkt replies ih =>
    rw [List.any_cons, Bool.or_eq_false_iff] at h
    have hnone : viewOf pkt = none := by
      have hp := h.1
      unfold parses at hp
      rw [parse_eq] at hp
      cases hv : viewOf pkt with
      | none => rfl
      | some view => rw [hv] at hp; exact absurd hp (by simp)
    have hcalls := calls_reply pkt now
    rw [hnone] at hcalls
    rw [List.map_cons, callList_eq (callsOf_cons hcalls (callsOf_eq _)), ih h.2]
    rfl

/-- **A turn that brought nothing only polls.** -/
theorem callList_quiet {opt : RxOptions} {t : Turn} (h : t.gotAny opt = false) :
    callList (t.arrivals opt) = [.poll t.now] := by
  unfold Turn.gotAny at h
  rw [Bool.or_eq_false_iff, Bool.or_eq_false_iff] at h
  obtain ⟨⟨ha, hb⟩, hr⟩ := h
  have hlineB : (if opt.two then datagrams .b t.lineB else []) = [] := by
    split
    · rename_i htwo
      rw [htwo, Bool.true_and] at hb
      exact datagrams_eq_nil hb
    · rfl
  have hreplies : callList (if opt.retransmit then t.replies.map fun pkt => .reply pkt t.now
      else []) = [] := by
    split
    · rename_i hre
      rw [hre, Bool.true_and] at hr
      exact callList_replies t.now hr
    · rfl
  unfold Turn.arrivals
  rw [callList_append, datagrams_eq_nil ha, hlineB, List.append_nil, List.nil_append, hreplies]
  rfl

end Tickerplant
