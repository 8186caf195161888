import Tickerplant.Sequencer.Delivery

/-!
# A server that answers every request in part

`poll` asks for the run missing at the front, and a server answers with one packet's worth of it.
Every message of the answer restarts the deadline (`on_retransmit`), but only a new hole restarts
the count of attempts, so a hole that takes more than `max_recovery_attempts` packets is given up
on although every request was answered.

A `Watch` is a sequencer with what an observer of its calls knows about the last request: what it
asked for, whether it was the last one the configuration allows, and what has been supplied since.
`Served` says what the callers promise at each step, and `LastInFull` what it takes in addition for
the hole never to be given up on (`never_given_up`).

Giving up has two doors, and each needs its own half of the promise. A message out of reach of the
window makes room for itself, whatever is missing: that is why `Served` keeps live messages within
reach. A deadline that passes after the last attempt skips the hole: that is why `LastInFull` asks
for everything the last request asked for by then. Between the two, what was supplied within reach
and fits a slot is dealt with for good, either passed or held (`ingest_settles`), so once all of a
request has been supplied the front is past its end and no deadline is left to expire.

The invariant of the run is `Watched`. It is about a feed that has lost nothing so far, which is
what makes the moves of the reassembler say that nothing is dropped.
-/

set_option autoImplicit false

namespace Tickerplant
namespace Sequencer

open Lib

variable {c : SequencerConfig}

/-! ## A message within reach of the window -/

section Within

variable {q : Sequencer} {seq : UInt64} {payload : Payload} {nowNs : UInt64}
  {line : Option LineId}

/-- The sequence is before `expected + capacity`. -/
def Within (c : SequencerConfig) (q : Sequencer) (seq : UInt64) : Prop :=
  seq.toNat < q.expected.toNat + c.capacity

/-- **The three ways `ingest` takes a message within reach**: as a copy of something dealt with,
as the front, or as an early message. -/
theorem ingest_within (hs : q.started = true) (hw : Within c q seq) :
    ((seq < q.expected ∨ q.holds c seq = true) ∧
        q.ingest c seq payload nowNs line = (false, q.countDuplicate)) ∨
      (seq = q.expected ∧
        q.ingest c seq payload nowNs line = (true, q.deliverNow c q.expected payload nowNs line)) ∨
      (q.expected < seq ∧ q.holds c seq = false ∧
        q.ingest c seq payload nowNs line = q.takeEarly c seq payload nowNs line) := by
  unfold ingest
  rw [if_pos hs]
  unfold ingestStarted
  by_cases hlt : seq < q.expected
  · rw [if_pos hlt]
    exact Or.inl ⟨Or.inl hlt, rfl⟩
  rw [if_neg hlt]
  by_cases heq : seq = q.expected
  · rw [if_pos heq, heq]
    exact Or.inr (Or.inl ⟨rfl, rfl⟩)
  rw [if_neg heq]
  have hgt : q.expected < seq := UInt64.lt_of_le_of_ne (UInt64.not_lt.mp hlt) (Ne.symm heq)
  by_cases hh : q.holds c seq = true
  · rw [if_pos hh]
    exact Or.inl ⟨Or.inr hh, rfl⟩
  have hdist : (seq - q.expected).toNat = seq.toNat - q.expected.toNat :=
    toNat_sub_of_le (Nat.le_of_lt (UInt64.lt_iff_toNat_lt.mp hgt))
  have hno : ¬ c.capacity ≤ (seq - q.expected).toNat := by
    unfold Within at hw
    rw [UInt64.lt_iff_toNat_lt] at hgt
    omega
  rw [if_neg hh, if_neg hno]
  exact Or.inr (Or.inr ⟨hgt, by simpa using hh, rfl⟩)

/-- A message within reach is too wide exactly when it is early and wider than a slot. -/
theorem tooWide_within (hgt : q.expected < seq) (hn : q.holds c seq = false)
    (hw : Within c q seq) : tooWide c q seq payload = decide (c.maxPayload' < payload.length) := by
  have hdist : (seq - q.expected).toNat = seq.toNat - q.expected.toNat :=
    toNat_sub_of_le (Nat.le_of_lt (UInt64.lt_iff_toNat_lt.mp hgt))
  have hlt : (seq - q.expected).toNat < c.capacity := by
    unfold Within at hw
    rw [UInt64.lt_iff_toNat_lt] at hgt
    omega
  simp [tooWide, early, hgt, hn, hlt]

/-- What `ingest` may do to the state machine within reach: it does not go `Stale`, and if a
request is still outstanding afterwards it is the one that was, not yet filled. -/
structure Kept (q q' : Sequencer) : Prop where
  /-- Nothing within reach makes the feed give up. -/
  not_stale : q.state ≠ .stale → q'.state ≠ .stale
  /-- Only `poll` asks. -/
  state : q'.state = .recovering → q.state = .recovering
  recoveryEnd : q'.state = .recovering → q'.recoveryEnd = q.recoveryEnd
  /-- Only `poll` counts an attempt, and only a hole closed forgets them. -/
  attempts : q'.state = .recovering → q'.recoveryAttempts = q.recoveryAttempts
  /-- If the front moved and the request stands, its end is still ahead. -/
  unfilled : q'.state = .recovering → q'.expected = q.expected ∨ q'.expected < q'.recoveryEnd

/-- Nothing more is asked of a step that leaves no request outstanding. -/
theorem Kept.closed {q' : Sequencer} (hs : q.state ≠ .stale → q'.state ≠ .stale)
    (hr : q'.state ≠ .recovering) : Kept q q' :=
  ⟨hs, fun h => absurd h hr, fun h => absurd h hr, fun h => absurd h hr, fun h => absurd h hr⟩

/-- Settling closes the request, or leaves it as it was. -/
theorem settle_kept {q' : Sequencer} (hs : q'.state = q.state)
    (he : q'.recoveryEnd = q.recoveryEnd) (ha : q'.recoveryAttempts = q.recoveryAttempts)
    (nowNs : UInt64) : Kept q (q'.settle nowNs) := by
  unfold settle
  split
  · split
    · exact Kept.closed (fun _ => by simp [clearRecovery]) (by simp [clearRecovery])
    · rename_i hno
      exact Kept.closed (fun h => hs ▸ h) (fun h => hno (Or.inr h))
  · split
    · exact Kept.closed (fun _ => by simp [clearRecovery]) (by simp [clearRecovery])
    · rename_i hno
      exact ⟨fun h => hs ▸ h, fun h => hs ▸ h, fun _ => he, fun _ => ha,
        fun h => Or.inr (UInt64.not_le.mp fun hle => hno ⟨h, hle⟩)⟩

/-- Delivering leaves the request to `settle`. -/
theorem delivered_recovery (payload : Payload) (line : Option LineId) :
    (delivered c q payload line).recoveryEnd = q.recoveryEnd ∧
      (delivered c q payload line).recoveryAttempts = q.recoveryAttempts := by
  have hf := Frame.drain (c := c)
    { (q.creditLine line).hand q.expected payload with expected := q.expected + 1 }
  unfold delivered
  rw [hf.recoveryEnd, hf.recoveryAttempts]
  rcases line with _ | _ | _ <;> exact ⟨rfl, rfl⟩

/-- Holding a message does nothing to a request. -/
theorem buffer_kept (q : Sequencer) (seq : UInt64) (payload : Payload) (nowNs : UInt64)
    (line : Option LineId) : Kept q (q.buffer c seq payload nowNs line) := by
  have hst := buffer_state (c := c) q seq payload nowNs line
  have hq := buffer_quiet (c := c) q seq payload nowNs line
  have hrec : (q.buffer c seq payload nowNs line).recoveryEnd = q.recoveryEnd ∧
      (q.buffer c seq payload nowNs line).recoveryAttempts = q.recoveryAttempts := by
    unfold buffer
    rcases line with _ | _ | _ <;> simp only [creditLine] <;> split <;> split <;> exact ⟨rfl, rfl⟩
  refine ⟨fun h => ?_, fun h => ?_, fun _ => hrec.1, fun _ => hrec.2, fun _ => Or.inl hq.expected⟩
  · rw [hst]
    split
    · simp
    · exact h
  · rw [hst] at h
    split at h
    · exact absurd h (by simp)
    · exact h

/-- So whichever of the three ways it is taken, a message within reach keeps the request. -/
theorem ingest_kept (hs : q.started = true) (hw : Within c q seq) :
    Kept q (q.ingest c seq payload nowNs line).2 := by
  have hrefl : ∀ {r : Sequencer}, r.state = q.state → r.recoveryEnd = q.recoveryEnd →
      r.recoveryAttempts = q.recoveryAttempts → r.expected = q.expected → Kept q r :=
    fun h1 h2 h3 h4 => ⟨fun h => h1 ▸ h, fun h => h1 ▸ h, fun _ => h2, fun _ => h3,
      fun _ => Or.inl h4⟩
  rcases @ingest_within c q seq payload nowNs line hs hw with
    ⟨-, heq⟩ | ⟨-, heq⟩ | ⟨-, -, heq⟩
  · rw [heq]
    exact hrefl rfl rfl rfl rfl
  · rw [heq, deliverNow_eq]
    exact settle_kept (delivered_state payload line).1 (delivered_recovery payload line).1
      (delivered_recovery payload line).2 nowNs
  · rw [heq]
    unfold takeEarly
    split
    · exact hrefl rfl rfl rfl rfl
    · exact buffer_kept q seq payload nowNs line

/-- A message within reach that is not too wide is dealt with: past, or held. -/
theorem ingest_settles (h : Ok c q) (hf : Far c seq) (hw : Within c q seq)
    (hwide : tooWide c q seq payload = false) :
    seq < (q.ingest c seq payload nowNs line).2.expected ∨
      (q.ingest c seq payload nowNs line).2.holds c seq = true := by
  rcases @ingest_within c q seq payload nowNs line h.started hw with
    ⟨hdone, heq⟩ | ⟨hfront, heq⟩ | ⟨hgt, hn, heq⟩
  · rw [heq]
    exact hdone
  · subst hfront
    rw [heq, deliverNow_eq, (settle_quiet _ _).expected]
    refine Or.inl (UInt64.lt_iff_toNat_lt.mpr ?_)
    have hq := creditLine_quiet q line
    have hexp : (q.expected + 1).toNat = q.expected.toNat + 1 := by
      have hc := c.capacity_pos
      unfold Far at hf
      exact toNat_succ (by omega)
    have hge := drain_expected_ge (c := c) (q := { (q.creditLine line).hand q.expected payload with
      expected := q.expected + 1 }) ?_
    · unfold delivered
      have hge' : (q.expected + 1).toNat ≤ _ := hge
      omega
    · have hw' := (hq.windowOk h.window).handFront
        (by rw [hq.holds, hq.expected]; exact h.idle) (by rw [hq.expected]; exact hf) payload
      rwa [hq.expected] at hw'
  · rw [tooWide_within hgt hn hw, decide_eq_false_iff_not] at hwide
    rw [heq]
    unfold takeEarly
    rw [if_neg hwide, (buffer_quiet q seq payload nowNs line).holds]
    exact Or.inr SlotRing.has_write_self

end Within

/-- A number the reassembler has settled is one passed or held. -/
theorem settled_iff {q : Sequencer} {taken : List (ℕ × Payload)} {lost : ℕ} {x : UInt64} :
    Reassembly.Settled (abs c q taken lost) x.toNat ↔ x < q.expected ∨ q.holds c x = true := by
  show x.toNat < q.expected.toNat ∨ heldView c q x.toNat ≠ none ↔ _
  rw [heldView_toNat, UInt64.lt_iff_toNat_lt]
  cases q.holds c x <;> simp

/-- What is past or held stays so over any call. -/
theorem Moves.settled {q q' : Sequencer} {new : List (ℕ × Payload)} {k wide : ℕ}
    (h : Moves c q q' new k wide) {x : UInt64} (hx : x < q.expected ∨ q.holds c x = true) :
    x < q'.expected ∨ q'.holds c x = true :=
  settled_iff.mp ((@settled_iff c q [] 0 x).mpr hx |>.steps (h.steps [] 0))

/-- The front only moves forward. -/
theorem Moves.expected_le {q q' : Sequencer} {new : List (ℕ × Payload)} {k wide : ℕ}
    (h : Moves c q q' new k wide) : q.expected ≤ q'.expected :=
  UInt64.le_iff_toNat_le.mpr (Reassembly.next_le_of_steps (h.steps [] 0))

/-! ## Watching the requests -/

/-- A sequencer, and what an observer of its calls knows about the last request. -/
structure Watch where
  q : Sequencer
  /-- The last request `poll` returned. -/
  asked : Option RetransmitRequest := none
  /-- Whether it was the last one the limit of attempts allows. -/
  last : Bool := false
  /-- Its deadline, as last restarted. -/
  deadline : UInt64 := 0
  /-- What was sent back for it before that deadline. -/
  answered : List UInt64 := []
  /-- What was supplied since, by anybody. -/
  supplied : List UInt64 := []

namespace Watch

/-- The call, and what an observer makes of it: a request begins a new watch, and anything sent or
supplied is added to the one there is. -/
def step (c : SequencerConfig) (w : Watch) (call : Call) : Watch :=
  let q := exec c w.q call
  let deadline := if q.state = .recovering then q.recoveryDeadlineNs else w.deadline
  match call with
  | .message _ seq _ _ => { w with q := q, deadline := deadline, supplied := seq :: w.supplied }
  | .retransmit seq _ nowNs => { w with
      q := q
      deadline := deadline
      answered := if nowNs < w.deadline then seq :: w.answered else w.answered
      supplied := seq :: w.supplied }
  | .poll nowNs =>
    match (w.q.poll c nowNs).1 with
    | some r => {
        q := q, asked := some r, last := decide (c.attempts ≤ q.recoveryAttempts),
        deadline := q.recoveryDeadlineNs }
    | none => { w with q := q, deadline := deadline }

/-- The watch only watches. -/
theorem step_q (w : Watch) (call : Call) : (w.step c call).q = exec c w.q call := by
  unfold step
  cases call with
  | message line seq payload nowNs => rfl
  | retransmit seq payload nowNs => rfl
  | poll nowNs =>
    simp only
    split <;> rfl

/-- Over a run too. -/
theorem foldl_q (w : Watch) (calls : List Call) :
    (calls.foldl (step c) w).q = run c w.q calls := by
  induction calls generalizing w with
  | nil => rfl
  | cons call calls ih =>
    rw [List.foldl_cons, ih, step_q]
    rfl

end Watch

/-- The sequences a request asks for. -/
def asks (r : RetransmitRequest) : List UInt64 :=
  (List.range r.count.toNat).map fun i => r.firstSequence + UInt64.ofNat i

/-- What the callers promise before a call: live messages stay within reach, the server sends
back sequences of the outstanding request, and a deadline only passes after at least the first of
them has come back. -/
def Served (c : SequencerConfig) (w : Watch) : Call → Prop
  | .message _ seq _ _ => Within c w.q seq
  | .retransmit seq _ _ => ∃ r ∈ w.asked, seq ∈ asks r
  | .poll nowNs => ∀ r ∈ w.asked, w.q.state = .recovering → w.deadline ≤ nowNs →
      r.firstSequence ∈ w.answered

/-- By the time the deadline of the last request allowed has passed, everything it asked for has
been supplied; and no early message is too wide for a slot. -/
def LastInFull (c : SequencerConfig) (w : Watch) : Call → Prop
  | .message _ seq payload _ => tooWide c w.q seq payload = false
  | .retransmit seq payload _ => tooWide c w.q seq payload = false
  | .poll nowNs => ∀ r ∈ w.asked, w.last = true → w.deadline ≤ nowNs →
      ∀ seq ∈ asks r, seq ∈ w.supplied

instance (q : Sequencer) (seq : UInt64) : Decidable (Within c q seq) :=
  inferInstanceAs (Decidable (_ < _))

instance (w : Watch) : ∀ call : Call, Decidable (Served c w call)
  | .message _ seq _ _ => inferInstanceAs (Decidable (Within c w.q seq))
  | .retransmit seq _ _ => inferInstanceAs (Decidable (∃ r ∈ w.asked, seq ∈ asks r))
  | .poll nowNs => inferInstanceAs (Decidable (∀ r ∈ w.asked, w.q.state = .recovering →
      w.deadline ≤ nowNs → r.firstSequence ∈ w.answered))

instance (w : Watch) : ∀ call : Call, Decidable (LastInFull c w call)
  | .message _ seq payload _ => inferInstanceAs (Decidable (tooWide c w.q seq payload = false))
  | .retransmit seq payload _ => inferInstanceAs (Decidable (tooWide c w.q seq payload = false))
  | .poll nowNs =>
    -- along the list: `UInt64` is finite, and the search must not run over all of it
    have (r : RetransmitRequest) : Decidable (∀ seq ∈ asks r, seq ∈ w.supplied) :=
      List.decidableBAll _ _
    inferInstanceAs (Decidable (∀ r ∈ w.asked, w.last = true →
      w.deadline ≤ nowNs → ∀ seq ∈ asks r, seq ∈ w.supplied))

/-- A sequence between the first and the last of a request is asked for. -/
theorem mem_asks {r : RetransmitRequest} {seq : UInt64} (hge : r.firstSequence ≤ seq)
    (hlt : seq.toNat < r.firstSequence.toNat + r.count.toNat) : seq ∈ asks r := by
  rw [UInt64.le_iff_toNat_le] at hge
  have hseq := seq.toNat_lt
  refine List.mem_map.mpr ⟨seq.toNat - r.firstSequence.toNat, List.mem_range.mpr (by omega), ?_⟩
  refine UInt64.toNat_inj.mp ?_
  rw [toNat_add_ofNat (by omega)]
  omega

/-- What is asked for lies before the end of the request. -/
theorem lt_of_mem_asks {r : RetransmitRequest} {seq : UInt64} (h : seq ∈ asks r)
    (hr : r.firstSequence.toNat + r.count.toNat ≤ 2 ^ 64) :
    seq.toNat < r.firstSequence.toNat + r.count.toNat := by
  obtain ⟨i, hi, rfl⟩ := List.mem_map.mp h
  have hlt := List.mem_range.mp hi
  rw [toNat_add_ofNat (by omega)]
  omega

/-- The invariant of a watched run: nothing lost, what was supplied is dealt with, and while a
request is outstanding the watch knows which. -/
structure Watched (c : SequencerConfig) (d : ℕ) (w : Watch) : Prop where
  /-- The window, below the wrap. -/
  ok : Ok c w.q
  /-- Nothing has been given up on. -/
  not_stale : w.q.state ≠ .stale
  /-- Nothing has been counted as dropped. -/
  dropped : w.q.stats.messagesDropped = d
  /-- The front never goes back behind the request, and the request asks for a window at most. -/
  reach : ∀ r, w.asked = some r → r.firstSequence ≤ w.q.expected ∧ r.count.toNat ≤ c.capacity
  /-- What was supplied is past or held, so no call can lose it any more. -/
  settled : ∀ x ∈ w.supplied, x < w.q.expected ∨ w.q.holds c x = true
  /-- While a request stands, the watch knows its end, its deadline and whether it is the last. -/
  outstanding : w.q.state = .recovering → ∃ r, w.asked = some r ∧
    w.q.recoveryEnd.toNat = r.firstSequence.toNat + r.count.toNat ∧
    w.q.expected < w.q.recoveryEnd ∧ w.deadline = w.q.recoveryDeadlineNs ∧
    w.last = decide (c.attempts ≤ w.q.recoveryAttempts)

section Watched

variable {d : ℕ} {w : Watch}

/-- After a reset nothing has been asked and nothing supplied. -/
theorem watched_restart (p : Sequencer) {first : UInt64} (hf : Far c first) :
    Watched c p.stats.messagesDropped { q := p.restart first } where
  ok := restart_ok p hf
  not_stale := by simp [restart, reset, clearRecovery]
  dropped := rfl
  reach := fun r hr => absurd hr (by simp)
  settled := fun x hx => absurd hx (by simp)
  outstanding := fun h => absurd h (by simp [restart, reset, clearRecovery])

/-- A request asks for what is missing at the front, and for something. -/
theorem issueRequest_spec {q : Sequencer} (h : Ok c q) (hp : q.pending ≠ 0) :
    (q.issueRequest c).1.firstSequence = q.expected ∧
      (q.issueRequest c).1.count.toNat ≤ c.capacity ∧
      (q.issueRequest c).2.recoveryEnd.toNat
        = q.expected.toNat + (q.issueRequest c).1.count.toNat ∧
      q.expected < (q.issueRequest c).2.recoveryEnd := by
  obtain ⟨hrun, -, -⟩ := missingRun_spec h.window.windowed hp
  have hpos : 0 < q.missingRun c := by
    rcases Nat.eq_zero_or_pos (q.missingRun c) with h0 | hpos
    · have hh := (missingRun_spec h.window.windowed hp).2.1
      rw [h0] at hh
      have hzero : q.expected + UInt64.ofNat 0 = q.expected := by simp
      rw [hzero, h.idle] at hh
      exact absurd hh (by simp)
    · exact hpos
  have hfront := h.window.front
  unfold issueRequest
  generalize q.missingRun c = run at hrun hpos
  simp only
  have hn : (if run > 65535 then 65535 else run) ≤ run ∧
      (if run > 65535 then 65535 else run) < 2 ^ 16 ∧
      0 < (if run > 65535 then 65535 else run) := by
    split <;> omega
  generalize (if run > 65535 then 65535 else run) = n at hn
  have hcount : (UInt16.ofNat n).toNat = n := by
    rw [UInt16.toNat_ofNat', Nat.mod_eq_of_lt hn.2.1]
  have hend : (q.expected + UInt64.ofNat n).toNat = q.expected.toNat + n :=
    toNat_add_ofNat (by omega)
  rw [hcount, hend]
  refine ⟨trivial, by omega, rfl, ?_⟩
  rw [UInt64.lt_iff_toNat_lt, hend]
  omega

/-- A message keeps the watch, whoever sent it. -/
theorem watched_message (h : Watched c d w) {seq : UInt64} {payload : Payload} {nowNs : UInt64}
    {line : Option LineId} (hf : Far c seq) (hw : Within c w.q seq)
    (hwide : tooWide c w.q seq payload = false) {q' : Sequencer}
    (hq : Quiet (w.q.ingest c seq payload nowNs line).2 q')
    (hs : q'.state = (w.q.ingest c seq payload nowNs line).2.state)
    (he : q'.recoveryEnd = (w.q.ingest c seq payload nowNs line).2.recoveryEnd)
    (ha : q'.recoveryAttempts = (w.q.ingest c seq payload nowNs line).2.recoveryAttempts)
    (answered : List UInt64) :
    Watched c d { w with
      q := q'
      deadline := if q'.state = .recovering then q'.recoveryDeadlineNs else w.deadline
      answered := answered
      supplied := seq :: w.supplied } := by
  obtain ⟨k, p, -, hm⟩ := ingest_moves h.ok hf payload nowNs line
  have hk := @ingest_kept c w.q seq payload nowNs line h.ok.started hw
  have hset := @ingest_settles c w.q seq payload nowNs line h.ok hf hw hwide
  rw [hwide, if_neg Bool.false_ne_true] at hm
  have hm' := hm.quiet hq hs
  rw [← hq.expected, ← hq.holds (c := c) seq] at hset
  have hns : q'.state ≠ .stale := hs ▸ hk.not_stale h.not_stale
  -- within reach nothing goes `Stale`, and what does not go `Stale` loses nothing
  have hk0 : k = 0 := by
    by_contra hne
    exact hns (hm'.lost_stale (Nat.pos_of_ne_zero hne))
  subst hk0
  refine ⟨hm'.ok, hns, hm'.dropped.trans h.dropped, fun r hr => ?_, fun x hx => ?_, fun hrec => ?_⟩
  · exact ⟨UInt64.le_trans (h.reach r hr).1 hm'.expected_le, (h.reach r hr).2⟩
  · rcases List.mem_cons.mp hx with rfl | hx
    · exact hset
    · exact hm'.settled (h.settled x hx)
  · have hrec' := hs ▸ hrec
    obtain ⟨r, hr, hend, hlt, hdl, hlast⟩ := h.outstanding (hk.state hrec')
    have hend' : q'.recoveryEnd = w.q.recoveryEnd := he.trans (hk.recoveryEnd hrec')
    refine ⟨r, hr, hend' ▸ hend, ?_, if_pos hrec, ?_⟩
    -- the front has not moved, or its request is still not filled
    · rcases hk.unfilled hrec' with hsame | hless
      · rw [hend', hq.expected, hsame]; exact hlt
      · rw [he, hq.expected]; exact hless
    · show w.last = _
      rw [hlast, ha, hk.attempts hrec']

/-- **What `poll` does to a feed that is not `Stale`**: nothing, ask, or give up. -/
theorem poll_cases {q : Sequencer} (hns : q.state ≠ .stale) (nowNs : UInt64) :
    q.poll c nowNs = (none, q) ∨
      (q.state = .recovering ∧ q.recoveryDeadlineNs ≤ nowNs ∧
        c.attempts ≤ q.recoveryAttempts) ∨
      ((q.state = .gap ∨ q.state = .recovering) ∧ ∃ q' : Sequencer,
        Quiet q q' ∧ q'.state = .recovering ∧
          q.poll c nowNs = (some (q'.issueRequest c).1, (q'.issueRequest c).2)) := by
  unfold poll
  cases hstate : q.state with
  | synced => exact Or.inl rfl
  | stale => exact absurd hstate hns
  | gap =>
    simp only
    split
    · exact Or.inl rfl
    · exact Or.inr (Or.inr ⟨Or.inl trivial, { q with
        state := .recovering
        recoveryAttempts := 1
        recoveryDeadlineNs := nowNs + c.recoveryTimeoutNs
        stats := { q.stats with recoveryRequests := q.stats.recoveryRequests + 1 } },
        ⟨rfl, rfl, rfl, rfl, rfl, rfl, rfl⟩, rfl, rfl⟩)
  | recovering =>
    simp only
    split
    · exact Or.inl rfl
    · rename_i hnow
      split
      · rename_i hmax
        exact Or.inr (Or.inl ⟨trivial, UInt64.not_lt.mp hnow, hmax⟩)
      · refine Or.inr (Or.inr ⟨Or.inr trivial, { q with
          state := .recovering
          recoveryAttempts := q.recoveryAttempts + 1
          stats := { q.stats with
            recoveryRequests := q.stats.recoveryRequests + 1
            recoveryRetries := q.stats.recoveryRetries + 1 }
          recoveryDeadlineNs := nowNs + c.recoveryTimeoutNs }, ⟨rfl, rfl, rfl, rfl, rfl, rfl, rfl⟩,
          rfl, rfl⟩)

/-- The quiet half of a request: the window and the front are as they were. -/
theorem issueRequest_quiet (q : Sequencer) : Quiet q (q.issueRequest c).2 :=
  ⟨rfl, rfl, rfl, rfl, rfl, rfl, rfl⟩

/-- A poll keeps the watch: it does nothing, asks, or finds that what it would give up on is here.
-/
theorem watched_poll (h : Watched c d w) {nowNs : UInt64}
    (hfull : LastInFull c w (.poll nowNs)) : Watched c d (w.step c (.poll nowNs)) := by
  have hcases := poll_cases (c := c) h.not_stale nowNs
  have hfull' : ∀ r ∈ w.asked, w.last = true → w.deadline ≤ nowNs →
    ∀ seq ∈ asks r, seq ∈ w.supplied := hfull
  rcases hcases with hnone | ⟨hrec, hdl, hmax⟩ | ⟨hopen, q', hq, hst, hask⟩
  · -- nothing happens
    have hstep : w.step c (.poll nowNs) = { w with
        deadline := if w.q.state = .recovering then w.q.recoveryDeadlineNs else w.deadline } := by
      unfold Watch.step
      simp only [exec, hnone]
    rw [hstep]
    refine ⟨h.ok, h.not_stale, h.dropped, h.reach, h.settled, fun hrec => ?_⟩
    obtain ⟨r, hr, hend, hlt, -, hlast⟩ := h.outstanding hrec
    exact ⟨r, hr, hend, hlt, if_pos hrec, hlast⟩
  · -- giving up: but everything asked for was supplied, so nothing is outstanding
    obtain ⟨r, hr, hend, hlt, hwdl, hlast⟩ := h.outstanding hrec
    have hasked : w.q.expected ∈ asks r :=
      mem_asks (h.reach r hr).1 (by rw [← hend]; exact UInt64.lt_iff_toNat_lt.mp hlt)
    have hsup := hfull' r hr (by rw [hlast]; exact decide_eq_true hmax) (hwdl ▸ hdl) _ hasked
    rcases h.settled _ hsup with hlt' | hheld
    · exact absurd hlt' (UInt64.lt_irrefl _)
    · rw [h.ok.idle] at hheld
      exact absurd hheld (by simp)
  · -- asking, again or for the first time
    have hp : w.q.pending ≠ 0 := h.ok.open_held hopen
    have hok' : Ok c q' := h.ok.quiet hq (fun _ => hp)
      (fun hs => by rw [hst] at hs; exact absurd hs (by simp))
    obtain ⟨hfst, hcount, hend, hlt⟩ := issueRequest_spec hok' (by rw [hq.pending]; exact hp)
    have hquiet := hq.trans (issueRequest_quiet (c := c) q')
    have hst' : (q'.issueRequest c).2.state = .recovering := hst
    have hstep : w.step c (.poll nowNs) = {
        q := (q'.issueRequest c).2
        asked := some (q'.issueRequest c).1
        last := decide (c.attempts ≤ (q'.issueRequest c).2.recoveryAttempts)
        deadline := (q'.issueRequest c).2.recoveryDeadlineNs } := by
      unfold Watch.step
      simp only [exec, hask]
    rw [hstep]
    refine ⟨h.ok.quiet hquiet (fun _ => hp)
      (fun hs => by rw [hst'] at hs; exact absurd hs (by simp)), ?_, hquiet.dropped.trans h.dropped,
      fun r hr => ?_, fun x hx => absurd hx (by simp), fun _ => ⟨_, rfl, ?_, ?_, rfl, rfl⟩⟩
    · simp [hst']
    · rw [Option.some.injEq] at hr
      subst hr
      exact ⟨UInt64.le_of_eq hfst, hcount⟩
    · rw [hend, hfst]
    · exact hlt

/-- Any call. -/
theorem watched_step (h : Watched c d w) {call : Call} (hf : Call.Far c call)
    (hserved : Served c w call) (hfull : LastInFull c w call) : Watched c d (w.step c call) := by
  cases call with
  | message line seq payload nowNs =>
    exact @watched_message c d w h seq payload nowNs (some line) hf hserved hfull _ (Quiet.refl _)
      rfl rfl rfl w.answered
  | retransmit seq payload nowNs =>
    obtain ⟨r, hr, hseq⟩ := hserved
    have hwithin : Within c w.q seq := by
      have hreach := h.reach r hr
      have hfst := UInt64.le_iff_toNat_le.mp hreach.1
      have hfront := h.ok.window.front
      have := lt_of_mem_asks hseq (by omega)
      unfold Within
      omega
    obtain ⟨hq, hs⟩ := onRetransmit_quiet (c := c) w.q seq payload nowNs
    have hrec : (w.q.onRetransmit c seq payload nowNs).recoveryEnd
          = (w.q.ingest c seq payload nowNs none).2.recoveryEnd ∧
        (w.q.onRetransmit c seq payload nowNs).recoveryAttempts
          = (w.q.ingest c seq payload nowNs none).2.recoveryAttempts := by
      unfold onRetransmit
      simp only
      split
      · split <;> exact ⟨rfl, rfl⟩
      · exact ⟨rfl, rfl⟩
    exact watched_message h hf hwithin hfull hq hs hrec.1 hrec.2 _
  | poll nowNs => exact watched_poll h hfull

/-- What a step keeps, a run keeps. -/
theorem watched_along (h : Watched c d w) {calls : List Call}
    (hfar : ∀ call ∈ calls, Call.Far c call)
    (hserved : Trace.Along (Watch.step c) (Served c) w calls)
    (hfull : Trace.Along (Watch.step c) (LastInFull c) w calls) {pre : List Call}
    (hpre : pre <+: calls) :
    Watched c d (pre.foldl (Watch.step c) w) := by
  induction pre generalizing w calls with
  | nil => exact h
  | cons call pre ih =>
    cases calls with
    | nil => exact absurd (List.prefix_nil.mp hpre) (by simp)
    | cons call' calls =>
      obtain ⟨rfl, hpre'⟩ := List.cons_prefix_cons.mp hpre
      exact ih (watched_step h (hfar _ List.mem_cons_self) hserved.1 hfull.1)
        (fun x hx => hfar x (List.mem_cons_of_mem _ hx)) hserved.2 hfull.2 hpre'

/-- **A hole is never given up on** in a run whose last allowed requests are supplied in full:
the feed is never `Stale` and nothing is counted as dropped. -/
theorem never_given_up (p : Sequencer) (first : UInt64) (hfirst : Far c first) (calls : List Call)
    (hfar : ∀ call ∈ calls, Call.Far c call)
    (hserved : Trace.Along (Watch.step c) (Served c) { q := p.restart first } calls)
    (hfull : Trace.Along (Watch.step c) (LastInFull c) { q := p.restart first } calls) :
    ∀ pre, pre <+: calls → (run c (p.restart first) pre).state ≠ .stale ∧
      (run c (p.restart first) pre).stats.messagesDropped = p.stats.messagesDropped := by
  intro pre hpre
  have h := watched_along (watched_restart p hfirst) hfar hserved hfull hpre
  have hq := Watch.foldl_q (c := c) { q := p.restart first } pre
  rw [← hq]
  exact ⟨h.not_stale, h.dropped⟩

end Watched

/-- Three attempts, a request every hundred nanoseconds. -/
def threeAttempts : SequencerConfig :=
  { reorderWindow := 8, gapGraceNs := 10, recoveryTimeoutNs := 100 }

/-- Sequences 2 to 5 are missing, and two requests for them are answered with one message
each. -/
def answeredInPart : List Call :=
  [.message .a 1 [0x11] 0, .message .a 6 [0x66] 1, .poll 20, .retransmit 2 [0x22] 50, .poll 150,
    .retransmit 3 [0x33] 200, .poll 300]

/-- The third answer brings one message too, and the hole is given up on although every request
was answered in time. -/
theorem given_up_answeredInPart :
    Trace.Along (Watch.step threeAttempts) (Served threeAttempts) { q := begin threeAttempts 1 }
        (answeredInPart ++ [.retransmit 4 [0x44] 350, .poll 450]) ∧
      (run threeAttempts (begin threeAttempts 1)
        (answeredInPart ++ [.retransmit 4 [0x44] 350, .poll 450])).state = .stale ∧
      (run threeAttempts (begin threeAttempts 1)
        (answeredInPart ++ [.retransmit 4 [0x44] 350, .poll 450])).stats.messagesDropped = 1 := by
  decide

/-- The third answer brings all that is left. -/
theorem never_given_up_threeAttempts :
    (run threeAttempts (begin threeAttempts 1) (answeredInPart ++
        [.retransmit 4 [0x44] 350, .retransmit 5 [0x55] 360, .poll 460])).state ≠ .stale ∧
      (run threeAttempts (begin threeAttempts 1) (answeredInPart ++
        [.retransmit 4 [0x44] 350, .retransmit 5 [0x55] 360, .poll 460])).stats.messagesDropped
        = 0 :=
  never_given_up (fresh threeAttempts) 1 (by decide) _ (by decide) (by decide) (by decide) _
    (List.prefix_refl _)

end Sequencer
end Tickerplant
