import Tickerplant.Receiver.EndToEnd
import Tickerplant.Sequencer.Recovery

/-!
# When a run that reports success has delivered everything it heard of

The exit status only asks whether the feed is `Stale`. Three kinds of loss get past it: what only a
heartbeat or an end of session packet told of, because `handle` drops both without looking at their
sequence; a hole that is still open when the idle exit is taken, because `Gap` and `Recovering` are
not `Stale`; and an early message too wide for a slot, which leaves no hole behind. `loud` is the
converse: without these three, success means everything.

The argument is about any run that ends without being `Stale`. `Stale` is absorbing and a message
out of the window's reach enters it, so in such a run every message was within reach, nothing was
given up on, and every message is past or held (`Tracked`).

Being absorbing needs a word about the sequencer's first message: `reset` leads out of `Stale`, and
`ingest` resets a sequencer that is not started. `Dead` is the two together, and no call of the
receiver leaves it.

The last step is about the turn that ends the run. It brought nothing, so it only polls; the state
before the poll is neither `Gap` nor `Recovering`, by the second condition, and not `Stale` either,
so it is `Synced` and nothing is held. Then every message is past, and the sequence a datagram told
of is at most one more than the sequence of its last message.
-/

set_option autoImplicit false

namespace Tickerplant

open Lib Mold Sequencer

variable {c : SequencerConfig}

/-! ## `Stale` is absorbing -/

/-- A feed that is `Stale`, and will not be reset by its next message. -/
structure Dead (q : Sequencer) : Prop where
  /-- Something has been given up on. -/
  state : q.state = .stale
  /-- The next message will not begin a new stream. -/
  started : q.started = true

namespace Dead

variable {q : Sequencer}

/-- Settling does not lead out. -/
theorem settle (h : Dead q) (nowNs : UInt64) : Dead (q.settle nowNs) := by
  have hne : ¬ (q.state = .gap ∨ q.state = .recovering) := by
    rw [h.state]
    rintro (hc | hc) <;> exact absurd hc (by simp)
  unfold Sequencer.settle
  by_cases hp : q.pending = 0
  · rw [if_pos hp, if_neg hne]
    exact h
  · rw [if_neg hp, if_neg (fun hc => hne (Or.inr hc.1))]
    exact h

/-- Nor does delivering. -/
theorem deliverNow (h : Dead q) (seq : UInt64) (payload : Payload) (nowNs : UInt64)
    (line : Option LineId) : Dead (q.deliverNow c seq payload nowNs line) := by
  have hf := Frame.drain (c := c) { (q.creditLine line).hand seq payload with
    expected := (q.creditLine line).expected + 1 }
  unfold Sequencer.deliverNow
  refine settle ⟨hf.state.trans ?_, hf.started.trans ?_⟩ nowNs
  · rcases line with _ | _ | _ <;> exact h.state
  · rcases line with _ | _ | _ <;> exact h.started

/-- Nor does holding. -/
theorem takeEarly (h : Dead q) (seq : UInt64) (payload : Payload) (nowNs : UInt64)
    (line : Option LineId) : Dead (q.takeEarly c seq payload nowNs line).2 := by
  unfold Sequencer.takeEarly
  split
  · exact ⟨h.state, h.started⟩
  · refine ⟨?_, (buffer_quiet (c := c) q seq payload nowNs line).started.trans h.started⟩
    rw [buffer_state, h.state]
    rfl

/-- Making room leads in. -/
theorem overflow (hs : q.started = true) (seq : UInt64) : Dead (q.overflow c seq) := by
  have h1 := Frame.skipTo (c := c) q (seq - UInt64.ofNat (c.capacity - 1))
  unfold Sequencer.overflow
  simp only
  split
  · exact ⟨rfl, ((Frame.skipTo _ seq).started.trans h1.started).trans hs⟩
  · exact ⟨rfl, h1.started.trans hs⟩

/-- No message leads out. -/
theorem ingest (h : Dead q) (seq : UInt64) (payload : Payload) (nowNs : UInt64)
    (line : Option LineId) : Dead (q.ingest c seq payload nowNs line).2 := by
  unfold Sequencer.ingest
  rw [if_pos h.started]
  unfold ingestStarted
  split
  · exact ⟨h.state, h.started⟩
  · split
    · exact h.deliverNow _ _ _ _
    · split
      · exact ⟨h.state, h.started⟩
      · split
        · simp only
          split
          · exact (overflow h.started seq).deliverNow _ _ _ _
          · exact (overflow h.started seq).takeEarly _ _ _ _
        · exact h.takeEarly _ _ _ _

/-- Nor does the clock. -/
theorem poll (h : Dead q) (nowNs : UInt64) : Dead (q.poll c nowNs).2 := by
  have hf : Frame q (q.skipHole c) := Frame.skipTo q _
  unfold Sequencer.poll
  rw [h.state]
  simp only
  split
  · exact ⟨hf.state.trans h.state, hf.started.trans h.started⟩
  · exact h

/-- So no call does. -/
theorem exec (h : Dead q) (call : Call) : Dead (Sequencer.exec c q call) := by
  cases call with
  | message line seq payload nowNs => exact h.ingest _ _ _ _
  | retransmit seq payload nowNs =>
    obtain ⟨hq, hs⟩ := onRetransmit_quiet (c := c) q seq payload nowNs
    have hi := h.ingest (c := c) seq payload nowNs none
    exact ⟨hs.trans hi.state, hq.started.trans hi.started⟩
  | poll nowNs => exact h.poll nowNs

/-- And no run of them. -/
theorem run (h : Dead q) (calls : List Call) : Dead (Sequencer.run c q calls) := by
  induction calls generalizing q with
  | nil => exact h
  | cons call calls ih => exact ih (h.exec call)

end Dead

/-- A message beyond the window's reach leaves the feed dead. -/
theorem dead_of_beyond {q : Sequencer} (h : Ok c q) {seq : UInt64} (hw : ¬ Within c q seq)
    (payload : Payload) (nowNs : UInt64) (line : Option LineId) :
    Dead (q.ingest c seq payload nowNs line).2 := by
  unfold Within at hw
  have hc := c.capacity_pos
  have hdist : (seq - q.expected).toNat = seq.toNat - q.expected.toNat := toNat_sub_of_le (by omega)
  have hlt : ¬ seq < q.expected := by rw [UInt64.lt_iff_toNat_lt]; omega
  have hne : ¬ seq = q.expected := by rintro rfl; omega
  have hno : ¬ q.holds c seq = true := fun hh => hw (h.window.windowed.lt_of_holds hh)
  unfold ingest
  rw [if_pos h.started]
  unfold ingestStarted
  rw [if_neg hlt, if_neg hne, if_neg hno, if_pos (by omega)]
  simp only
  split
  · exact (Dead.overflow h.started seq).deliverNow _ _ _ _
  · exact (Dead.overflow h.started seq).takeEarly _ _ _ _

/-! ## Runs that do not end `Stale` -/

/-- After `n` calls that all were within reach: sound, nothing lost, and every message carried so
far past or held. -/
structure Tracked (c : SequencerConfig) (n : ℕ) (seen : List UInt64) (q : Sequencer) : Prop where
  /-- The window says what it holds. -/
  ok : Ok c q
  /-- The reassembler has lost nothing, and has taken one message for each call at most. -/
  inv : ∃ taken, Reassembly.Inv 1 (abs c q taken 0) ∧ taken.length ≤ n
  /-- Whatever was carried is dealt with, in order or waiting. -/
  settled : ∀ x ∈ seen, x < q.expected ∨ q.holds c x = true

/-- The front has not moved further than there were messages. -/
theorem Tracked.expected_le {n : ℕ} {seen : List UInt64} {q : Sequencer} (h : Tracked c n seen q) :
    q.expected.toNat ≤ 1 + n := by
  obtain ⟨taken, hi, hlen⟩ := h.inv
  have hcount := @sink_count c q 1 _ _ hi
  have hle := hi.length_log_le
  rw [length_log] at hle
  rw [show (1 : UInt64).toNat = 1 from rfl] at hcount
  have htaken : (Sequencer.abs c q taken 0).taken.length = taken.length := rfl
  omega

/-- The sequence a call carries. -/
def carriedSeq (call : Call) : List UInt64 := ((carried call).map Prod.fst).toList

/-- A call that leaves the feed alive was within reach, and what it carried is dealt with. -/
theorem Tracked.exec {n : ℕ} {seen : List UInt64} {q : Sequencer} (h : Tracked c n seen q)
    {call : Call} (hfar : 1 + n + 2 * c.capacity < 2 ^ 64) (hnr : refused c q call = false)
    (hns : ¬ Dead (exec c q call)) :
    Tracked c (n + 1) (seen ++ carriedSeq call) (Sequencer.exec c q call) := by
  have hle := h.expected_le
  -- out of reach it would be dead
  have hwithin : ∀ x ∈ carriedSeq call, Within c q x := by
    intro x hx
    by_contra hw
    refine hns ?_
    cases call with
    | message line seq payload nowNs =>
      rw [List.mem_singleton.mp hx] at hw
      exact dead_of_beyond h.ok hw _ _ _
    | retransmit seq payload nowNs =>
      rw [List.mem_singleton.mp hx] at hw
      obtain ⟨hq, hs⟩ := onRetransmit_quiet (c := c) q seq payload nowNs
      have hd := dead_of_beyond h.ok hw payload nowNs none
      exact ⟨hs.trans hd.state, hq.started.trans hd.started⟩
    | poll nowNs => exact absurd hx (by simp [carriedSeq, carried])
  have hcall : Call.Far c call := by
    have hx : ∀ x ∈ carriedSeq call, Far c x := by
      intro x hx
      have := hwithin x hx
      unfold Within at this
      unfold Sequencer.Far
      omega
    cases call with
    | message line seq payload nowNs => exact hx seq (List.mem_singleton.mpr rfl)
    | retransmit seq payload nowNs => exact hx seq (List.mem_singleton.mpr rfl)
    | poll nowNs => trivial
  obtain ⟨k, new, hm, hnew, -⟩ := exec_moves h.ok hcall
  -- it would be dead too, had it given up on anything
  have hk : k = 0 := by
    by_contra hne
    exact hns ⟨hm.lost_stale (Nat.pos_of_ne_zero hne), hm.ok.started⟩
  subst hk
  obtain ⟨taken, hi, hlen⟩ := h.inv
  refine ⟨hm.ok, ⟨taken ++ new, hi.steps (hm.steps taken 0), ?_⟩, fun x hx => ?_⟩
  · rw [List.length_append]
    omega
  · rcases List.mem_append.mp hx with hx | hx
    · exact hm.settled (h.settled x hx)
    · have hw := hwithin x hx
      cases call with
      | message line seq payload nowNs =>
        rw [List.mem_singleton.mp hx] at hw ⊢
        exact ingest_settles h.ok hcall hw hnr
      | retransmit seq payload nowNs =>
        rw [List.mem_singleton.mp hx] at hw ⊢
        obtain ⟨hq, -⟩ := onRetransmit_quiet (c := c) q seq payload nowNs
        rw [show Sequencer.exec c q (.retransmit seq payload nowNs)
          = q.onRetransmit c seq payload nowNs from rfl, hq.expected, hq.holds]
        exact ingest_settles h.ok hcall hw hnr
      | poll nowNs => exact absurd hx (by simp [carriedSeq, carried])

/-- So it is over a run that leaves it alive. -/
theorem Tracked.run {calls : List Call} : ∀ {n : ℕ} {seen : List UInt64} {q : Sequencer},
    Tracked c n seen q → 1 + n + calls.length + 2 * c.capacity < 2 ^ 64 →
    refusals c q calls = 0 → ¬ Dead (run c q calls) →
    Tracked c (n + calls.length) (seen ++ calls.flatMap carriedSeq) (Sequencer.run c q calls) := by
  induction calls with
  | nil =>
    intro n seen q h _ _ _
    rw [List.flatMap_nil, List.append_nil]
    exact h
  | cons call calls ih =>
    intro n seen q h hfar hnr hns
    rw [List.length_cons] at hfar
    rw [refusals, Nat.add_eq_zero_iff] at hnr
    have hnr1 : refused c q call = false := by
      rw [← Bool.not_eq_true]
      intro hr
      rw [if_pos hr] at hnr
      exact absurd hnr.1 (by simp)
    have h1 := h.exec (by omega) hnr1 (fun hd => hns (hd.run calls))
    have h2 := ih h1 (by omega) hnr.2 hns
    rw [List.length_cons, List.flatMap_cons, ← List.append_assoc]
    rw [show n + 1 + calls.length = n + (calls.length + 1) by omega] at h2
    exact h2

/-- At the start nothing was carried. -/
theorem tracked_begin (hfar : 1 + c.capacity < 2 ^ 64) : Tracked c 0 [] (begin c 1) where
  ok := restart_ok _ hfar
  inv := ⟨[], by
    rw [show begin c 1 = (fresh c).restart 1 from rfl, abs_restart]
    exact Reassembly.Inv.start, Nat.le_refl 0⟩
  settled := fun x hx => absurd hx (by simp)

/-! ## What the lines told of -/

/-- A heartbeat, or the end of the session. -/
def isMarker : Arrival → Bool
  | .datagram _ pkt _ =>
    match viewOf pkt with
    | some view => view.isEndOfSession || view.isHeartbeat
    | none => false
  | _ => false

/-- The next sequence a well-formed datagram of a line tells of: the one after its last message,
or the one a heartbeat or an end of session carries. -/
def nextSequence : Arrival → Option ℕ
  | .datagram _ pkt _ => (viewOf pkt).map fun view =>
    if view.isEndOfSession || view.isHeartbeat then view.hdr.sequence.toNat
    else view.hdr.sequence.toNat + view.hdr.count.toNat
  | _ => none

/-- A datagram with messages makes a call for its first and for its last. -/
theorem carriedSeq_of_data {a : Arrival} (hm : isMarker a = false) {n : ℕ}
    (hn : n ∈ nextSequence a) {calls : List Call} (hc : a.calls = .ok calls) :
    ∃ (s : UInt64) (k : ℕ), n = s.toNat + (k + 1) ∧ k < 2 ^ 16 ∧
      s ∈ calls.flatMap carriedSeq ∧ s + UInt64.ofNat k ∈ calls.flatMap carriedSeq := by
  cases a with
  | reply pkt now => exact absurd hn (by simp [nextSequence])
  | poll now => exact absurd hn (by simp [nextSequence])
  | datagram line pkt now =>
    obtain ⟨view, hv, rfl⟩ := Option.map_eq_some_iff.mp hn
    obtain ⟨-, ms, hms, hlen⟩ := viewOf_some hv
    simp only [isMarker, hv, Bool.or_eq_false_iff] at hm
    rw [hm.1, if_neg Bool.false_ne_true] at hlen
    -- without messages it would be a heartbeat
    have hpos : view.hdr.count.toNat ≠ 0 := by
      intro h0
      have hbeat := hm.2
      unfold PacketView.isHeartbeat at hbeat
      rw [beq_eq_false_iff_ne] at hbeat
      exact hbeat (UInt16.toNat_inj.mp h0)
    have hcount := view.hdr.count.toNat_lt
    rw [calls_datagram, hv, Except.ok.injEq] at hc
    simp only [hm.1, hm.2, hms, Bool.false_eq_true, if_false] at hc
    subst hc
    have hcarry : ∀ j < ms.length, view.hdr.sequence + UInt64.ofNat j
        ∈ ((numbered view.hdr.sequence ms).map fun m => Call.message line m.1 m.2 now).flatMap
          carriedSeq := by
      intro j hj
      obtain ⟨m, hmem⟩ := mem_numbered_of_lt (s := view.hdr.sequence) hj
      exact List.mem_flatMap.mpr ⟨_, List.mem_map_of_mem hmem, List.mem_singleton.mpr rfl⟩
    refine ⟨view.hdr.sequence, view.hdr.count.toNat - 1, ?_, by omega, ?_, hcarry _ (by omega)⟩
    · simp only [hm.1, hm.2, Bool.or_self, Bool.false_eq_true, if_false]
      omega
    · have h0 := hcarry 0 (by omega)
      rwa [show view.hdr.sequence + UInt64.ofNat 0 = view.hdr.sequence by simp] at h0

/-- What it takes, of a run whose last turn is `t`, for its success to mean everything. -/
structure Audible (c : SequencerConfig) (opt : RxOptions) (read : List Turn) (t : Turn) :
    Prop where
  /-- No early message is too wide for a slot. -/
  narrow : refusals c (begin c 1)
    (callList ((read ++ [t]).flatMap (Turn.arrivals opt))) = 0
  /-- The turn that ends the run does not find a hole open. -/
  closed : (run c (begin c 1) (callList (read.flatMap (Turn.arrivals opt)))).state ≠ .gap ∧
    (run c (begin c 1) (callList (read.flatMap (Turn.arrivals opt)))).state ≠ .recovering
  /-- No heartbeat and no end of session names a sequence beyond the messages read. -/
  marked : ∀ a ∈ (read ++ [t]).flatMap (Turn.arrivals opt), isMarker a = true →
    ∀ n ∈ nextSequence a, n ≤ 1 ∨ ∃ b ∈ (read ++ [t]).flatMap (Turn.arrivals opt),
      isMarker b = false ∧ ∃ m ∈ nextSequence b, n ≤ m

/-- Where nothing is waited for or asked for again, a turn of the clock leaves the feed as loud as
it was. -/
theorem poll_state_of_closed {c : SequencerConfig} {q : Sequencer} (hgap : q.state ≠ .gap)
    (hrec : q.state ≠ .recovering) (nowNs : UInt64) : (q.poll c nowNs).2.state = q.state := by
  unfold poll
  cases hstate : q.state with
  | gap => exact absurd hstate hgap
  | recovering => exact absurd hstate hrec
  | synced => exact hstate
  | stale =>
    simp only
    split
    · exact (Frame.skipTo q _).state.trans hstate
    · exact hstate

/-- A datagram whose messages are all behind the front is behind it as a whole. -/
theorem nextSequence_le_of_past {arrivals : List Arrival} {front : ℕ}
    (hfront : front + 2 ^ 16 ≤ 2 ^ 64)
    (hpast : ∀ x ∈ (callList arrivals).flatMap carriedSeq, x.toNat < front) {a : Arrival}
    (ha : a ∈ arrivals) (hm : isMarker a = false) {n : ℕ} (hn : n ∈ nextSequence a) :
    n ≤ front := by
  obtain ⟨calls, hcalls⟩ := a.calls_ok
  obtain ⟨s, k, rfl, hk, hfirst, hlast⟩ := carriedSeq_of_data hm hn hcalls
  have hsub : ∀ x ∈ calls.flatMap carriedSeq, x.toNat < front := by
    intro x hx
    obtain ⟨call, hcall, hx'⟩ := List.mem_flatMap.mp hx
    exact hpast x (List.mem_flatMap.mpr ⟨call, calls_subset ha hcalls call hcall, hx'⟩)
  have h1 := hsub _ hfirst
  have h2 := hsub _ hlast
  rw [toNat_add_ofNat (by omega)] at h2
  omega

/-- **Success means everything** the lines told of was delivered, in a run that met the three
conditions and was not cut short. -/
theorem loud (c : SequencerConfig) (opt : RxOptions) (hlimit : opt.limit = 0)
    (start : UInt64) (read unread : List Turn) (t : Turn) (q : Sequencer)
    (hloop : runLoop c opt (begin c 1) start (read ++ t :: unread) = .ok (some unread, q))
    (hfar : (callList ((read ++ [t]).flatMap (Turn.arrivals opt))).length + 2 * c.capacity + 2 ^ 17
      < 2 ^ 64)
    (haud : Audible c opt read t) (hexit : exitStatus q = 0) :
    (∀ a ∈ (read ++ [t]).flatMap (Turn.arrivals opt), ∀ n ∈ nextSequence a,
        n ≤ q.expected.toNat) ∧
      q.sink.map (fun d => d.1.toNat) = List.range' 1 (q.expected.toNat - 1) := by
  obtain ⟨read', t', hturns, hgot, hq⟩ := runLoop_ended hlimit hloop
  obtain ⟨rfl, rfl⟩ : read = read' ∧ t = t' := by
    have hlen := congrArg List.length hturns
    simp only [List.length_append, List.length_cons] at hlen
    obtain ⟨h1, h2⟩ := List.append_inj hturns (by omega)
    exact ⟨h1, (List.cons.inj h2).1⟩
  have hns : q.state ≠ .stale := by
    intro hs
    unfold exitStatus at hexit
    rw [if_pos hs] at hexit
    exact absurd hexit (by decide)
  have hc := c.capacity_pos
  have htr := @Tracked.run c (callList ((read ++ [t]).flatMap (Turn.arrivals opt))) _ _ _
    (tracked_begin (by omega)) (by omega) haud.narrow
    (fun hd => hns (hq ▸ hd.state))
  rw [← hq, Nat.zero_add, List.nil_append] at htr
  -- the last turn only polled, and found the feed neither waiting nor lost
  have hsynced : q.state = .synced := by
    have hsplit : q = Sequencer.exec c
        (run c (begin c 1) (callList (read.flatMap (Turn.arrivals opt)))) (.poll t.now) := by
      rw [hq, List.flatMap_append, List.flatMap_singleton, callList_append, callList_quiet hgot]
      unfold run
      rw [List.foldl_append]
      rfl
    obtain ⟨hgap, hrec⟩ := haud.closed
    have hkept : q.state = _ := (congrArg Sequencer.state hsplit).trans
      (poll_state_of_closed hgap hrec t.now)
    cases hstate : q.state with
    | gap => exact absurd (hkept.symm.trans hstate) hgap
    | recovering => exact absurd (hkept.symm.trans hstate) hrec
    | synced => rfl
    | stale => exact absurd hstate hns
  have hempty := htr.ok.window.windowed.pending_eq_zero_iff.mp (htr.ok.synced_empty hsynced)
  have hpast : ∀ x ∈ (callList ((read ++ [t]).flatMap (Turn.arrivals opt))).flatMap carriedSeq,
      x.toNat < q.expected.toNat := by
    intro x hx
    rcases htr.settled x hx with hlt | hheld
    · exact UInt64.lt_iff_toNat_lt.mp hlt
    · rw [hempty x] at hheld
      exact absurd hheld (by simp)
  have hle := htr.expected_le
  have hdata : ∀ a ∈ (read ++ [t]).flatMap (Turn.arrivals opt), isMarker a = false →
      ∀ n ∈ nextSequence a, n ≤ q.expected.toNat :=
    fun a ha hm n hn => nextSequence_le_of_past (by omega) hpast ha hm hn
  obtain ⟨taken, hi, -⟩ := htr.inv
  have hone : (1 : UInt64).toNat = 1 := rfl
  refine ⟨fun a ha n hn => ?_, ?_⟩
  · cases hm : isMarker a with
    | false => exact hdata a ha hm n hn
    | true =>
      rcases haud.marked a ha hm n hn with h1 | ⟨b, hb, hbm, m, hbn, hnm⟩
      · have hcount := @sink_count c q 1 _ _ hi
        omega
      · exact Nat.le_trans hnm (hdata b hb hbm m hbn)
  · rw [← sinkView_map_fst]
    exact hi.log_eq_range rfl

/-! ## Loss that is not loud -/

/-- A second of idling ends the run. -/
def oneSecond : RxOptions := { idleExitMs := 1000 }

/-- The first of two messages, and the end of a session whose next sequence is three. -/
def tailLost : List Turn :=
  [{ lineA := [(10, [frame (padSession []) 1 [[0x11]]])], now := 20 },
    { lineA := [(30, [header (padSession []) 3 kEndOfSession])], now := 40 },
    { now := 2000000000 }]

/-- **The tail of the feed is lost in silence**: the end of session told of sequence two, it was
never delivered, and the program reports success. -/
theorem tailLost_silent :
    ∃ q, runLoop fourSlots oneSecond (begin fourSlots 1) 0 tailLost = .ok (some [], q) ∧
      exitStatus q = 0 ∧
      ∃ a ∈ tailLost.flatMap (Turn.arrivals oneSecond), ∃ n ∈ nextSequence a,
        ¬ n ≤ q.expected.toNat := by
  refine ⟨_, rfl, by decide, .datagram .a (header (padSession []) 3 kEndOfSession) 30, ?_, 3,
    ?_, ?_⟩
  · decide
  · decide
  · decide

/-- Both messages, and the end of the session. -/
def tailRead : List Turn :=
  [{ lineA := [(10, [frame (padSession []) 1 [[0x11], [0x22]]])], now := 20 },
    { lineA := [(30, [header (padSession []) 3 kEndOfSession])], now := 40 }]

/-- A second later nothing more has come. -/
def idleTurn : Turn := { now := 2000000000 }

theorem loud_tailRead :
    (∀ a ∈ (tailRead ++ [idleTurn]).flatMap (Turn.arrivals oneSecond), ∀ n ∈ nextSequence a,
        n ≤ (run fourSlots (begin fourSlots 1)
          (callList ((tailRead ++ [idleTurn]).flatMap (Turn.arrivals oneSecond)))).expected.toNat) ∧
      (run fourSlots (begin fourSlots 1)
          (callList ((tailRead ++ [idleTurn]).flatMap (Turn.arrivals oneSecond)))).sink.map
          (fun d => d.1.toNat)
        = List.range' 1 ((run fourSlots (begin fourSlots 1)
          (callList ((tailRead ++ [idleTurn]).flatMap
            (Turn.arrivals oneSecond)))).expected.toNat - 1) :=
  loud fourSlots oneSecond rfl 0 tailRead [] idleTurn _ rfl (by decide)
    ⟨by decide, by decide, by decide⟩ (by decide)

end Tickerplant
