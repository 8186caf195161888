import Tickerplant.Sequencer.Exec

/-!
# What the sink is given, and what the counters say about it

The two results about whole runs. `run_inOrder`: what a sequencer hands on is increasing, is for
each sequence the first copy it took, and is gap-free until the feed goes `Stale`. `accounts_iff`:
the two counters add up to the sequences the front has passed in every state of a run exactly when
no early message of the run was too wide for a slot. Such a message is counted in
`messages_dropped` while its sequence is still owed, and counted again, as accepted or as dropped,
when the front gets there.

The first is conditional as well. A slot records the length of its payload in 32 bits, so where
`max_payload` lets a payload of four gibibytes wait, it comes out of its slot empty
(`not_inOrder_fourGiB`). The condition is on the messages that wait, `Slottable`, and on nothing
else: a payload that is due when it comes is handed on as it is, whatever its length.

Both are read off the reassembler: a run from a reset is one of its runs from the start
(`run_inv`), whose invariant says what was handed on, and how much was lost. What is left to do
here is the translation: the invariant is about numbers and the record of the sink is about 64-bit
words, and the counters are the sequencer's own.
-/

set_option autoImplicit false

namespace Tickerplant
namespace Sequencer

open Lib

variable {c : SequencerConfig}

instance : ∀ call : Call, Decidable (Call.Far c call)
  | .message _ seq _ _ => inferInstanceAs (Decidable (Far c seq))
  | .retransmit seq _ _ => inferInstanceAs (Decidable (Far c seq))
  | .poll _ => inferInstanceAs (Decidable True)

instance (payload : Payload) : Decidable (Fits c payload) :=
  inferInstanceAs (Decidable (_ → _))

instance (q : Sequencer) : ∀ call : Call, Decidable (Slottable c q call)
  | .message _ seq payload _ => inferInstanceAs (Decidable (early c q seq = true → Fits c payload))
  | .retransmit seq payload _ => inferInstanceAs (Decidable (early c q seq = true → Fits c payload))
  | .poll _ => inferInstanceAs (Decidable True)

/-- A run from a reset is a run of a reassembler from its start, so it keeps the reassembler's
invariant, having lost nothing unless the state is `Stale`. -/
theorem run_inv (p : Sequencer) {first : UInt64} (hfirst : Far c first) {calls : List Call}
    (hfar : ∀ call ∈ calls, Call.Far c call) :
    ∃ taken lost,
      Reassembly.Inv first.toNat (abs c (run c (p.restart first) calls) taken lost) ∧
      Ok c (run c (p.restart first) calls) ∧
      (run c (p.restart first) calls).stats.messagesDropped
        = p.stats.messagesDropped + lost + refusals c (p.restart first) calls ∧
      (0 < lost → (run c (p.restart first) calls).state = .stale) ∧
      (Trace.Along (exec c) (Slottable c) (p.restart first) calls →
        taken = (acceptedCalls c (p.restart first) calls).map fun d => (d.1.toNat, d.2)) := by
  obtain ⟨k, new, hm, hnew⟩ := run_moves (restart_ok p hfirst) hfar
  have hsteps := hm.steps [] 0
  rw [abs_restart, List.nil_append, Nat.zero_add] at hsteps
  exact ⟨new, k, Reassembly.Inv.start.steps hsteps, hm.ok, hm.dropped, hm.lost_stale, hnew⟩

/-! ## Delivery -/

/-- The record of the sink of a sequencer that was reset to `first` and has taken `taken`. -/
structure InOrder (first : UInt64) (taken : List Delivery) (q : Sequencer) : Prop where
  /-- Downstream sees strictly increasing sequences. -/
  increasing : (q.sink.map Prod.fst).Pairwise (· < ·)
  /-- Nothing from before the session. -/
  from_first : ∀ d ∈ q.sink, first ≤ d.1
  /-- No sequence twice, whichever lines brought it. -/
  once : (q.sink.map Prod.fst).Nodup
  /-- What is delivered for a sequence is the first message taken for it, byte for byte. -/
  first_copy : ∀ d ∈ q.sink, taken.find? (fun x => x.1 == d.1) = some d
  /-- Until the feed says it lost something, it has handed on every sequence up to the front. -/
  complete : q.state ≠ .stale →
    first ≤ q.expected ∧
      q.sink.map (fun d => d.1.toNat)
        = List.range' first.toNat (q.expected.toNat - first.toNat)

/-- The sequences of the record, as numbers. -/
theorem sinkView_map_fst (q : Sequencer) :
    (sinkView q).map Prod.fst = q.sink.map fun d => d.1.toNat := by
  unfold sinkView
  rw [List.map_map]
  rfl

section Record

variable {q : Sequencer} {first : UInt64} {taken : List (ℕ × Payload)} {lost : ℕ}

/-- A call of the sink is an entry of the reassembler's log. -/
theorem mem_log {d : Delivery} (hd : d ∈ q.sink) :
    (d.1.toNat, d.2) ∈ (abs c q taken lost).log :=
  List.mem_map_of_mem (f := fun d : Delivery => (d.1.toNat, d.2)) hd

/-- The record increases as 64-bit numbers too. -/
theorem sink_increasing (hi : Reassembly.Inv first.toNat (abs c q taken lost)) :
    (q.sink.map Prod.fst).Pairwise (· < ·) := by
  have h := hi.log_sorted
  rw [show (abs c q taken lost).log = sinkView q from rfl, sinkView_map_fst,
    List.pairwise_map] at h
  exact List.pairwise_map.mpr (h.imp fun hlt => UInt64.lt_iff_toNat_lt.mpr hlt)

/-- An increasing record names nothing twice. -/
theorem sink_nodup (hi : Reassembly.Inv first.toNat (abs c q taken lost)) :
    (q.sink.map Prod.fst).Nodup :=
  (sink_increasing hi).imp fun hlt => UInt64.ne_of_lt hlt

/-- Nothing is handed on from before the first sequence. -/
theorem sink_ge (hi : Reassembly.Inv first.toNat (abs c q taken lost)) {d : Delivery}
    (hd : d ∈ q.sink) : first ≤ d.1 :=
  UInt64.le_iff_toNat_le.mpr (hi.log_ge _ (mem_log hd))

/-- The two records are of one length. -/
theorem length_log : (abs c q taken lost).log.length = q.sink.length := by
  simp [abs, sinkView]

/-- The invariant's count, in the sequencer's own words. -/
theorem sink_count (hi : Reassembly.Inv first.toNat (abs c q taken lost)) :
    first.toNat + q.sink.length + lost = q.expected.toNat := by
  have h := hi.count
  rwa [length_log] at h

end Record

/-- A window of four. -/
def fourSlots : SequencerConfig := { reorderWindow := 4 }

/-- Slots so wide that their length field cannot say how much of them is used. -/
def fourGiBSlots : SequencerConfig := { reorderWindow := 4, maxPayload := 2 ^ 32 }

section FourGiB

-- Sequence 2 arrives early with `payload` and waits in its slot, then sequence 1 arrives.
variable (payload : Payload)

/-- The sequencer once the early message is in its slot. -/
def waiting : Sequencer := (begin fourGiBSlots 1).buffer fourGiBSlots 2 payload 10 (some .a)

end FourGiB

/-- The counters of a sequencer that was new when it was reset to `first`: every sequence the
front has passed was delivered once or is counted as dropped once. -/
structure Accounts (first : UInt64) (q : Sequencer) : Prop where
  /-- The front has moved over as many sequences as the two counters count. -/
  total : first.toNat + (q.stats.accepted + q.stats.messagesDropped) = q.expected.toNat
  /-- One counts the calls of the sink. -/
  accepted : q.stats.accepted = q.sink.length
  /-- No sequence is counted as accepted twice. -/
  once : (q.sink.map Prod.fst).Nodup
  /-- What was accepted lies between the first sequence and the front. -/
  passed : ∀ d ∈ q.sink, first ≤ d.1 ∧ d.1 < q.expected
  /-- The count of drops is the number of sequences below the front that were never handed on. -/
  dropped : q.stats.messagesDropped =
    ((List.range' first.toNat (q.expected.toNat - first.toNat)).filter
      fun n => n ∉ q.sink.map fun d => d.1.toNat).length

namespace Tally

variable {q : Sequencer}

/-- Delivering calls the sink for the message and for what was held behind it. -/
theorem deliverNow (h : Tally q) (seq : UInt64) (payload : Payload) (nowNs : UInt64)
    (line : Option LineId) : Tally (q.deliverNow c seq payload nowNs line) := by
  unfold Sequencer.deliverNow
  refine quiet (settle_quiet _ nowNs) ?_
  exact drain (q := { (q.creditLine line).hand seq payload with
    expected := (q.creditLine line).expected + 1 }) ((h.quiet (creditLine_quiet q line)).hand _ _)

/-- A message that waits, or is refused, calls it not at all. -/
theorem takeEarly (h : Tally q) (seq : UInt64) (payload : Payload) (nowNs : UInt64)
    (line : Option LineId) : Tally (q.takeEarly c seq payload nowNs line).2 := by
  unfold Sequencer.takeEarly
  split
  · exact h
  · exact quiet (buffer_quiet q seq payload nowNs line) h

/-- A message, whichever way it is taken. -/
theorem ingest (h : Tally q) (seq : UInt64) (payload : Payload) (nowNs : UInt64)
    (line : Option LineId) : Tally (q.ingest c seq payload nowNs line).2 := by
  have hstart : Tally (if q.started then q else q.reset seq) := by
    split
    · exact h
    · exact h
  unfold Sequencer.ingest ingestStarted
  generalize (if q.started then q else q.reset seq) = q' at hstart
  split
  · exact hstart
  · split
    · exact hstart.deliverNow _ _ _ _
    · split
      · exact hstart
      · split
        · simp only
          split
          · exact (hstart.overflow seq).deliverNow _ _ _ _
          · exact (hstart.overflow seq).takeEarly _ _ _ _
        · exact hstart.takeEarly _ _ _ _

/-- A poll that gives up hands on what is held behind the hole. -/
theorem poll (h : Tally q) (nowNs : UInt64) : Tally (q.poll c nowNs).2 := by
  unfold Sequencer.poll
  split
  · split <;> exact h
  · split
    · exact h
    · split
      · exact h.skipTo _
      · exact h
  · split
    · exact h.skipTo _
    · exact h
  · exact h

/-- Any call. -/
theorem exec (h : Tally q) (call : Call) : Tally (Sequencer.exec c q call) := by
  cases call with
  | message line seq payload nowNs => exact h.ingest _ _ _ _
  | retransmit seq payload nowNs =>
    exact (h.ingest _ _ _ _).quiet (onRetransmit_quiet q seq payload nowNs).1
  | poll nowNs => exact h.poll nowNs

/-- And so any run: the count never depends on what the messages were. -/
theorem run {calls : List Call} : ∀ {q : Sequencer}, Tally q → Tally (Sequencer.run c q calls) := by
  induction calls with
  | nil => exact fun h => h
  | cons call calls ih => exact fun h => ih (h.exec call)

end Tally

/-- What the counters of a run say, whatever its messages: too much by the early messages that
were too wide. -/
theorem run_total {first : UInt64} (hfirst : Far c first) {calls : List Call}
    (hfar : ∀ call ∈ calls, Call.Far c call) :
    first.toNat + ((run c (begin c first) calls).stats.accepted
        + (run c (begin c first) calls).stats.messagesDropped)
      = (run c (begin c first) calls).expected.toNat + refusals c (begin c first) calls := by
  obtain ⟨taken, lost, hi, -, hdropped, -, -⟩ := run_inv (fresh c) hfirst hfar
  have htally : Tally (run c (begin c first) calls) := Tally.run rfl
  have hfold : (fresh c).restart first = begin c first := rfl
  have hzero : (fresh c).stats.messagesDropped = 0 := rfl
  rw [hfold] at hdropped hi
  have hcount := sink_count hi
  unfold Tally at htally
  omega

/-- The counters of a run are right exactly when no early message of it was too wide. -/
theorem accounts_run_iff {first : UInt64} (hfirst : Far c first) {calls : List Call}
    (hfar : ∀ call ∈ calls, Call.Far c call) :
    Accounts first (run c (begin c first) calls) ↔ refusals c (begin c first) calls = 0 := by
  have htotal := run_total hfirst hfar
  constructor
  · intro h
    have := h.total
    omega
  -- nothing was refused, so what is counted as dropped is what the reassembler lost
  · intro hzero
    obtain ⟨taken, lost, hi, -, hdropped, -, -⟩ := run_inv (fresh c) hfirst hfar
    have hfold : (fresh c).restart first = begin c first := rfl
    rw [hfold] at hdropped hi
    have htally : Tally (run c (begin c first) calls) := Tally.run rfl
    have hnew : (fresh c).stats.messagesDropped = 0 := rfl
    generalize run c (begin c first) calls = q at hi hdropped htally htotal
    refine ⟨by omega, htally, sink_nodup hi, fun d hd => ⟨sink_ge hi hd, ?_⟩, ?_⟩
    · exact UInt64.lt_iff_toNat_lt.mpr (hi.log_lt _ (mem_log hd))
    · have hcard := hi.lost_eq_card
      rw [show (abs c q taken lost).log = sinkView q from rfl, sinkView_map_fst] at hcard
      have hlost : (abs c q taken lost).lost = lost := rfl
      have hnext : (abs c q taken lost).next = q.expected.toNat := rfl
      rw [hlost, hnext] at hcard
      rw [hcard]
      omega

/-- No call of a run is refused exactly when none is at the state it finds. -/
theorem refusals_eq_zero_iff {calls : List Call} : ∀ {q : Sequencer},
    refusals c q calls = 0 ↔
      ∀ pre call, pre ++ [call] <+: calls → refused c (run c q pre) call = false := by
  induction calls with
  | nil =>
    intro q
    refine iff_of_true rfl fun pre call h => ?_
    exact absurd (List.prefix_nil.mp h) (by simp)
  | cons call calls ih =>
    intro q
    rw [refusals, Nat.add_eq_zero_iff, ih]
    constructor
    · rintro ⟨h0, hrest⟩ pre call' hpre
      cases pre with
      | nil =>
        obtain ⟨rfl, -⟩ := List.cons_prefix_cons.mp hpre
        simpa [run] using h0
      | cons head pre =>
        obtain ⟨rfl, hpre'⟩ := List.cons_prefix_cons.mp hpre
        exact hrest pre call' hpre'
    · intro hall
      refine ⟨?_, fun pre call' hpre => hall (call :: pre) call'
        (List.cons_prefix_cons.mpr ⟨rfl, hpre⟩)⟩
      have h0 := hall [] call (List.cons_prefix_cons.mpr ⟨rfl, List.nil_prefix⟩)
      rw [show run c q [] = q from rfl] at h0
      simp [h0]

/-- **Accounting**: the counters are right in every state of a run exactly when no call of it
brings an early message too wide for a slot. -/
theorem accounts_iff (first : UInt64) (hfirst : Far c first) (calls : List Call)
    (hfar : ∀ call ∈ calls, Call.Far c call) :
    (∀ pre, pre <+: calls → Accounts first (run c (begin c first) pre)) ↔
      ∀ pre call, pre ++ [call] <+: calls →
        refused c (run c (begin c first) pre) call = false := by
  have hpre : ∀ {pre}, pre <+: calls → ∀ call ∈ pre, Call.Far c call :=
    fun h call hc => hfar call (h.subset hc)
  rw [← refusals_eq_zero_iff]
  constructor
  · exact fun h => (accounts_run_iff hfirst hfar).mp (h calls (List.prefix_refl _))
  · intro h pre hp
    refine (accounts_run_iff hfirst (hpre hp)).mpr (refusals_eq_zero_iff.mpr ?_)
    exact fun pre' call hp' => refusals_eq_zero_iff.mp h pre' call (hp'.trans hp)

/-- A message of two bytes through a window whose slots hold one: early it is dropped and
counted, and its second copy is delivered when it is due. -/
def countedTwice : List Call :=
  [.message .a 2 [0x22, 0x22] 10, .message .a 1 [0x11] 20, .message .b 2 [0x22, 0x22] 30]

/-- A window of four slots, one byte each. -/
def oneByteSlots : SequencerConfig := { reorderWindow := 4, maxPayload := 1 }

/-- Two sequences passed, two delivered, and one counted as dropped. -/
theorem not_accounts_countedTwice :
    ¬ Accounts 1 (run oneByteSlots (begin oneByteSlots 1) countedTwice) :=
  fun h => absurd h.total (by decide)

/-- With messages that fit, the books are right after every call. -/
theorem accounts_iff_oneByteSlots :
    (∀ pre, pre <+: [.message .a 2 [0x22] 10, .message .b 1 [0x11] 20] →
        Accounts 1 (run oneByteSlots (begin oneByteSlots 1) pre)) ↔
      ∀ pre call, pre ++ [call] <+: [.message .a 2 [0x22] 10, .message .b 1 [0x11] 20] →
        refused oneByteSlots (run oneByteSlots (begin oneByteSlots 1) pre) call = false :=
  accounts_iff 1 (by decide) _ (by decide)

end Sequencer
end Tickerplant
