import Tickerplant.Sequencer.Delivery

/-!
# The order of the stream, at any sequence numbers

The other results about the sequencer stay a window short of the 64-bit wrap. Here the numbers are
whatever a header says. The front only ever moves forward by one past what it hands on, or jumps
forward over what it gives up on, so the sink sees strictly increasing sequences up to the very
last 64-bit number. Handing that one on takes the front round to zero, and from there every
sequence is ahead of it again, the ones already delivered included (`outOfOrder_bothLines`).

`Rising` is the invariant while the front has not come round. `Round` is what it turns into: the
last sequence is out and the window is empty, so polls stay silent and only a further message can
break the order (`run_rising`).

The two are one disjunction, `Fine`, in the lemmas about a release and a drain, since a drain may
cross from the first to the second in the middle of its loop. It crosses at most once: after the
last sequence the window holds nothing, because everything held lies above the front and nothing
lies above the last number there is. Where the front is only moved to make room for a message it
cannot come round at all, and `Short` says why: that message is not held, and the front stops short
of what is not held.

Nothing here asks for a sound count of the window. A wrapped `pending` would make the state machine
lie, but it would not disorder the stream.
-/

set_option autoImplicit false

namespace Tickerplant
namespace Sequencer

open Lib

variable {c : SequencerConfig} {q q' : Sequencer}

/-- The calls made to the sink are in strictly increasing order. -/
def Ascending (q : Sequencer) : Prop := q.sink.Pairwise fun d d' => d.1 < d'.1

/-- The front has not come round: all that was handed on is below it, all that is held is not. -/
structure Rising (c : SequencerConfig) (q : Sequencer) : Prop where
  /-- What the sink has seen is in order. -/
  ascending : Ascending q
  /-- All of it lies below the front, so whatever the front hands on next comes after it. -/
  below : ∀ d ∈ q.sink, d.1 < q.expected
  /-- A slot in use is the slot of its own sequence, so `holds` finds it there and nowhere else. -/
  home : ∀ i, (q.window.slots i).present = true →
    maskIndex c.capacity (q.window.slots i).seq = i
  /-- Nothing held has been passed, so a drain can only go up. -/
  ge : ∀ i, (q.window.slots i).present = true → q.expected ≤ (q.window.slots i).seq

/-- Whether the last sequence there is has been handed on. -/
def spent (q : Sequencer) : Bool := q.sink.any fun d => d.1 == 18446744073709551615

/-- The front has just come round. -/
structure Round (q : Sequencer) : Prop where
  ascending : Ascending q
  /-- The last number there is has gone out, which is how an observer can tell. -/
  spent : spent q = true
  /-- Nothing lies above the last number, so nothing is held. -/
  vacant : ∀ i, (q.window.slots i).present = false

/-- Only the last number has a successor that wraps. -/
theorem last_eq {x : UInt64} (h : (x + 1).toNat ≠ x.toNat + 1) : x = 18446744073709551615 := by
  refine UInt64.toNat_inj.mp ?_
  have hx := x.toNat_lt
  rw [UInt64.toNat_add, UInt64.toNat_one] at h
  show x.toNat = 18446744073709551615
  omega

/-- With every slot vacant no sequence is held. -/
theorem Round.holds_eq (h : Round q) (x : UInt64) : q.holds c x = false := by
  rw [← Bool.not_eq_true, holds_iff, h.vacant]
  simp

/-- What the stream sees is all the two say. -/
theorem Rising.quiet (h : Rising c q) (hq : Quiet q q') : Rising c q' where
  ascending := by unfold Ascending; rw [hq.sink]; exact h.ascending
  below := by rw [hq.sink, hq.expected]; exact h.below
  home := by rw [hq.window]; exact h.home
  ge := by rw [hq.window, hq.expected]; exact h.ge

/-- The same once the front has come round. -/
theorem Round.quiet (h : Round q) (hq : Quiet q q') : Round q' where
  ascending := by unfold Ascending; rw [hq.sink]; exact h.ascending
  spent := by unfold Sequencer.spent; rw [hq.sink]; exact h.spent
  vacant := by rw [hq.window]; exact h.vacant

/-! ## Moving the front by one -/

/-- **Handing on the front**, with nothing left in its slot, keeps the order. -/
theorem Rising.hand (h : Rising c q) {p : Payload} (hsink : q'.sink = q.sink ++ [(q.expected, p)])
    (hexp : q'.expected = q.expected + 1)
    (hslots : ∀ i, (q'.window.slots i).present = true → q'.window.slots i = q.window.slots i ∧
      (q.window.slots i).present = true ∧ (q.window.slots i).seq ≠ q.expected) :
    Ascending q' ∧ if q.expected = 18446744073709551615 then Round q' else Rising c q' := by
  -- the sequence handed on is the front, and all that went before is below it
  have hascending : Ascending q' := by
    unfold Ascending
    rw [hsink]
    refine List.pairwise_append.mpr
      ⟨h.ascending, List.pairwise_singleton _ _, fun d hd d' hd' => ?_⟩
    rw [List.mem_singleton.mp hd']
    exact h.below d hd
  -- what stays in use lay at or above the front and is not the front
  have hgt : ∀ i, (q'.window.slots i).present = true →
      q.expected.toNat < (q'.window.slots i).seq.toNat := by
    intro i hp
    obtain ⟨heq, hp', hne⟩ := hslots i hp
    have hge := UInt64.le_iff_toNat_le.mp (h.ge i hp')
    have hne' : (q.window.slots i).seq.toNat ≠ q.expected.toNat :=
      fun heq => hne (UInt64.toNat_inj.mp heq)
    rw [heq]
    omega
  refine ⟨hascending, ?_⟩
  split
  -- the last number: nothing can lie above it, so the window is empty
  · rename_i hlast
    refine ⟨hascending, ?_, fun i => ?_⟩
    · unfold Sequencer.spent
      rw [hsink, List.any_append, hlast]
      simp
    · rw [← Bool.not_eq_true]
      intro hp
      have hlt := hgt i hp
      have hmax := (q'.window.slots i).seq.toNat_lt
      rw [hlast] at hlt
      have h0 : (18446744073709551615 : UInt64).toNat = 18446744073709551615 := rfl
      omega
  -- any other: the front is one higher, and everything keeps its side of it
  · rename_i hlast
    have hnext : q'.expected.toNat = q.expected.toNat + 1 := by
      rw [hexp]
      by_contra hne
      exact hlast (last_eq hne)
    refine ⟨hascending, fun d hd => ?_, fun i hp => ?_, fun i hp => ?_⟩
    · rw [UInt64.lt_iff_toNat_lt, hnext]
      rw [hsink, List.mem_append, List.mem_singleton] at hd
      rcases hd with hd | rfl
      · have hlt := UInt64.lt_iff_toNat_lt.mp (h.below d hd)
        omega
      · exact Nat.lt_succ_self _
    · obtain ⟨heq, hp', _⟩ := hslots i hp
      rw [heq]
      exact h.home i hp'
    · rw [UInt64.le_iff_toNat_le, hnext]
      exact hgt i hp

/-- A drop short of a target does not bring the front round. -/
theorem Rising.dropFront (h : Rising c q) (hn : q.holds c q.expected = false) {target : UInt64}
    (hlt : q.expected < target) : Rising c q.dropFront := by
  have hexp := dropFront_expected hlt
  refine ⟨h.ascending, fun d hd => ?_, h.home, fun i hp => ?_⟩
  · have hd' := UInt64.lt_iff_toNat_lt.mp (h.below d hd)
    rw [UInt64.lt_iff_toNat_lt, hexp]
    omega
  · have hge := UInt64.le_iff_toNat_le.mp (h.ge i hp)
    have hne : (q.window.slots i).seq.toNat ≠ q.expected.toNat :=
      fun heq => seq_ne_of_not_held h.home hn hp (UInt64.toNat_inj.mp heq)
    rw [UInt64.le_iff_toNat_le, hexp]
    show _ ≤ (q.window.slots i).seq.toNat
    omega

/-! ## Either way -/

/-- Not come round, or only just. -/
def Fine (c : SequencerConfig) (q : Sequencer) : Prop := Rising c q ∨ Round q

/-- Either way the stream is in order. -/
theorem Fine.ascending (h : Fine c q) : Ascending q := h.elim (·.ascending) (·.ascending)

/-- Changes the stream does not see change neither. -/
theorem Fine.quiet (h : Fine c q) (hq : Quiet q q') : Fine c q' :=
  h.imp (·.quiet hq) (·.quiet hq)

/-- Releasing what is held at the front may be what brings it round. -/
theorem Fine.release (h : Fine c q) (hh : q.holds c q.expected = true) : Fine c (q.release c) := by
  rcases h with h | h
  · have hsink : (q.release c).sink = q.sink ++ [(q.expected, _)] := rfl
    have hr := (h.hand hsink rfl fun _ hp => release_slots h.home hp).2
    split at hr
    · exact Or.inr hr
    · exact Or.inl hr
  · exact absurd hh (by simp [h.holds_eq])

/-- A drain is releases, and stops at the latest where the front comes round. -/
theorem Fine.drain (h : Fine c q) : Fine c (q.drain c) :=
  drainLoop_induct (P := Fine c) (fun _ h hh => h.release hh) _ q h

/-- The front may be moved forward over sequences that never came. -/
theorem Rising.wipe (h : Rising c q) {target : UInt64} (hlt : q.expected < target)
    (hsink : q'.sink = q.sink) (hexp : q'.expected = target)
    (hwindow : ∀ i, (q'.window.slots i).present = false) : Rising c q' where
  ascending := by unfold Ascending; rw [hsink]; exact h.ascending
  below := by
    intro d hd
    rw [hsink] at hd
    rw [hexp]
    have hd' := h.below d hd
    rw [UInt64.lt_iff_toNat_lt] at hd' hlt ⊢
    omega
  home := fun i hp => absurd hp (by rw [hwindow]; simp)
  ge := fun i hp => absurd hp (by rw [hwindow]; simp)

/-- A jump hands on what it walks over, or wipes the window; then it drains. -/
theorem Fine.skipTo (h : Fine c q) (target : UInt64) : Fine c (q.skipTo c target).2 := by
  unfold Sequencer.skipTo
  split
  · exact h
  · rename_i hle
    rw [UInt64.le_iff_toNat_le, Nat.not_le, ← UInt64.lt_iff_toNat_lt] at hle
    simp only
    split
    · rcases h with h | h
      · exact Or.inl (h.wipe hle rfl rfl fun _ => rfl)
      · exact Or.inr ⟨h.ascending, h.spent, fun _ => rfl⟩
    · refine (skipLoop_induct (P := Fine c) (fun _ h _ hh => h.release hh)
        (fun q1 h1 hlt hn => ?_) _ q h).drain
      rcases h1 with h1 | h1
      · exact Or.inl (h1.dropFront hn hlt)
      · exact Or.inr ⟨h1.ascending, h1.spent, h1.vacant⟩

/-! ## Making room for a message -/

/-- The front is short of a sequence that is not held, so it cannot be carried past it. -/
structure Short (c : SequencerConfig) (q : Sequencer) (seq : UInt64) : Prop where
  rising : Rising c q
  le : q.expected ≤ seq
  /-- What is not held is not handed on, so a drain stops here at the latest. -/
  absent : q.holds c seq = false

namespace Short

variable {seq : UInt64}

/-- The front, moved on by one, is still no further than `seq`. -/
theorem next_le (h : Short c q seq) (hne : q.expected ≠ seq) :
    q.expected ≠ 18446744073709551615 ∧ q.expected + 1 ≤ seq := by
  have hle := UInt64.le_iff_toNat_le.mp h.le
  have hne' : q.expected.toNat ≠ seq.toNat := fun heq => hne (UInt64.toNat_inj.mp heq)
  have hmax := seq.toNat_lt
  refine ⟨fun hlast => ?_, ?_⟩
  · rw [hlast] at hle hne'
    have h0 : (18446744073709551615 : UInt64).toNat = 18446744073709551615 := rfl
    omega
  · rw [UInt64.le_iff_toNat_le, toNat_succ (by omega)]
    omega

/-- A release is of something else, so `seq` is still ahead. -/
theorem release (h : Short c q seq) (hh : q.holds c q.expected = true) :
    Short c (q.release c) seq := by
  have hne : q.expected ≠ seq := by
    rintro heq
    rw [heq, h.absent] at hh
    exact absurd hh (by simp)
  obtain ⟨hlast, hle⟩ := h.next_le hne
  have hsink : (q.release c).sink = q.sink ++ [(q.expected, _)] := rfl
  have hr := (h.rising.hand hsink rfl fun _ hp => release_slots h.rising.home hp).2
  rw [if_neg hlast] at hr
  refine ⟨hr, hle, ?_⟩
  rw [← Bool.not_eq_true]
  exact fun hx => absurd (holds_of_release hx) (by simp [h.absent])

theorem drain (h : Short c q seq) : Short c (q.drain c) seq :=
  drainLoop_induct (P := fun q => Short c q seq) (fun _ h hh => h.release hh) _ q h

/-- A jump to a target no further than `seq` stops there, or drains up to `seq`. -/
theorem skipTo (h : Short c q seq) {target : UInt64} (ht : target ≤ seq) :
    Short c (q.skipTo c target).2 seq := by
  unfold Sequencer.skipTo
  split
  · exact h
  · rename_i hle
    rw [UInt64.le_iff_toNat_le, Nat.not_le, ← UInt64.lt_iff_toNat_lt] at hle
    simp only
    split
    · exact ⟨h.rising.wipe hle rfl rfl fun _ => rfl, ht, rfl⟩
    · refine (skipLoop_induct (P := fun q => Short c q seq) (fun _ h _ hh => h.release hh)
        (fun q1 h1 hlt hn => ?_) _ q h).drain
      have hne : q1.expected ≠ seq := by
        rintro heq
        rw [heq, UInt64.lt_iff_toNat_lt] at hlt
        exact absurd (UInt64.le_iff_toNat_le.mp ht) (by omega)
      exact ⟨h1.rising.dropFront hn hlt, (h1.next_le hne).2, h1.absent⟩

/-- Making room for `seq` leaves it ahead of the front, or at it, and not held. -/
theorem overflow (h : Short c q seq) (hcap : c.capacity ≤ (seq - q.expected).toNat) :
    Short c (q.overflow c seq) seq := by
  have hle := UInt64.le_iff_toNat_le.mp h.le
  have hmax := seq.toNat_lt
  rw [toNat_sub_of_le hle] at hcap
  have htarget : seq - UInt64.ofNat (c.capacity - 1) ≤ seq := by
    rw [UInt64.le_iff_toNat_le, toNat_sub_ofNat (by omega)]
    omega
  have h1 := h.skipTo htarget
  have hstale {q1 : Sequencer} (h1 : Short c q1 seq) : Short c q1.enterStale seq :=
    ⟨h1.rising.quiet (enterStale_quiet q1), h1.le, h1.absent⟩
  unfold Sequencer.overflow
  simp only
  split
  · exact hstale (h1.skipTo (UInt64.le_refl seq))
  · exact hstale h1

end Short

/-! ## Taking a message in -/

section Ingest

variable {seq : UInt64}

/-- A message that is due is handed on; the last one there is brings the front round. -/
theorem Rising.deliverNow (h : Rising c q) (hn : q.holds c q.expected = false) (payload : Payload)
    (nowNs : UInt64) (line : Option LineId) :
    Fine c (q.deliverNow c q.expected payload nowNs line) := by
  rw [deliverNow_eq]
  refine Fine.quiet (Fine.drain ?_) (settle_quiet _ nowNs)
  have hq := creditLine_quiet q line
  have hsink : ({ (q.creditLine line).hand q.expected payload with
      expected := q.expected + 1 } : Sequencer).sink = q.sink ++ [(q.expected, payload)] := by
    rw [← hq.sink]
    rfl
  have hr := (h.hand hsink rfl fun i hp => by
      have hp' : (q.window.slots i).present = true := hq.window ▸ hp
      exact ⟨congrFun (congrArg SlotRing.slots hq.window) i, hp',
        seq_ne_of_not_held h.home hn hp'⟩).2
  split at hr
  · exact Or.inr hr
  · exact Or.inl hr

/-- A message that has to wait changes what is held and nothing of what was handed on. -/
theorem Rising.takeEarly (h : Rising c q) (hlt : q.expected < seq) (payload : Payload)
    (nowNs : UInt64) (line : Option LineId) :
    Rising c (q.takeEarly c seq payload nowNs line).2 := by
  unfold Sequencer.takeEarly
  split
  · exact ⟨h.ascending, h.below, h.home, h.ge⟩
  · refine Rising.quiet (q := written c q seq payload) ?_ (buffer_quiet q seq payload nowNs line)
    have hcases := @SlotRing.write_slots_cases c.capacity seq payload q.window
    refine ⟨h.ascending, h.below, fun i hp => ?_, fun i hp => ?_⟩
    · rcases hcases i with ⟨hi, heq⟩ | ⟨_, heq⟩
      · rw [show (written c q seq payload).window.slots i = _ from heq]
        exact hi.symm
      · have hp' : (q.window.slots i).present = true := by rw [← heq]; exact hp
        rw [show (written c q seq payload).window.slots i = _ from heq]
        exact h.home i hp'
    · rcases hcases i with ⟨_, heq⟩ | ⟨_, heq⟩
      · rw [show (written c q seq payload).window.slots i = _ from heq]
        exact UInt64.le_of_lt hlt
      · have hp' : (q.window.slots i).present = true := by rw [← heq]; exact hp
        rw [show (written c q seq payload).window.slots i = _ from heq]
        exact h.ge i hp'

/-- **A message is taken in order**, whatever its sequence. -/
theorem Rising.ingestStarted (h : Rising c q) (hn : q.holds c q.expected = false)
    (payload : Payload) (nowNs : UInt64) (line : Option LineId) :
    Fine c (q.ingestStarted c seq payload nowNs line).2 ∧
      (q.ingestStarted c seq payload nowNs line).2.holds c
        (q.ingestStarted c seq payload nowNs line).2.expected = false := by
  have hsame : Fine c q.countDuplicate ∧
      q.countDuplicate.holds c q.countDuplicate.expected = false := by
    have hq := countDuplicate_quiet q
    exact ⟨Or.inl (h.quiet hq), by rw [hq.holds, hq.expected]; exact hn⟩
  have hearly {q1 : Sequencer} (h1 : Rising c q1) (hn1 : q1.holds c q1.expected = false)
      (hle : q1.expected ≤ seq) (hne : seq ≠ q1.expected) :
      Fine c (q1.takeEarly c seq payload nowNs line).2 ∧
        (q1.takeEarly c seq payload nowNs line).2.holds c
          (q1.takeEarly c seq payload nowNs line).2.expected = false := by
    have hlt := UInt64.lt_of_le_of_ne hle (Ne.symm hne)
    exact ⟨Or.inl (h1.takeEarly hlt payload nowNs line), takeEarly_idle hn1 hlt _ _ _⟩
  unfold Sequencer.ingestStarted
  split
  · exact hsame
  rename_i hge
  split
  · rename_i heq
    subst heq
    exact ⟨h.deliverNow hn payload nowNs line, deliverNow_idle _ _ _⟩
  rename_i hne
  have hle : q.expected ≤ seq := UInt64.not_lt.mp hge
  split
  · exact hsame
  rename_i hheld
  rw [Bool.not_eq_true] at hheld
  split
  · rename_i hcap
    -- the front stops short of the message or at it
    have hshort := Short.overflow ⟨h, hle, hheld⟩ hcap
    have hidle : (q.overflow c seq).holds c (q.overflow c seq).expected = false :=
      overflow_idle hn
    simp only
    generalize q.overflow c seq = q1 at hshort hidle
    split
    · rename_i heq
      subst heq
      exact ⟨hshort.rising.deliverNow hidle payload nowNs line, deliverNow_idle _ _ _⟩
    · rename_i hne1
      exact hearly hshort.rising hidle hshort.le hne1
  · exact hearly h hn hle hne

end Ingest

/-! ## Calls and runs -/

/-- The state between calls. -/
structure Calm (c : SequencerConfig) (q : Sequencer) : Prop where
  fine : Fine c q
  /-- Nothing is left to be drained between calls. -/
  idle : q.holds c q.expected = false
  /-- Before the first message nothing was handed on, so the implicit reset may set the front
  anywhere. -/
  unstarted : q.started = false → q.sink = [] ∧ q.state = .synced

/-- An explicit reset starts the record and the order anew. -/
theorem calm_restart (p : Sequencer) (first : UInt64) : Calm c (p.restart first) where
  fine := Or.inl ⟨List.Pairwise.nil, fun _ hd => absurd hd List.not_mem_nil,
    fun _ hp => absurd hp (by rw [show (p.restart first).window = p.window.clear from rfl]; simp),
    fun _ hp => absurd hp (by rw [show (p.restart first).window = p.window.clear from rfl]; simp)⟩
  idle := rfl
  unstarted := fun hs => absurd hs (by simp [restart, reset, clearRecovery])

/-- So does the constructor; the first message will say where the stream starts. -/
theorem calm_fresh : Calm c (fresh c) where
  fine := Or.inl ⟨List.Pairwise.nil, fun _ hd => absurd hd List.not_mem_nil,
    fun _ hp => absurd hp (by simp [fresh, SlotRing.empty]),
    fun _ hp => absurd hp (by simp [fresh, SlotRing.empty])⟩
  idle := rfl
  unstarted := fun _ => ⟨rfl, rfl⟩

/-- Whether a call brings a message. -/
def feeds : Call → Bool
  | .message _ _ _ _ => true
  | .retransmit _ _ _ => true
  | .poll _ => false

/-- A message is brought in only while the last sequence has not been handed on. -/
def Unspent (q : Sequencer) (call : Call) : Prop := feeds call = true → spent q = false

instance (q : Sequencer) (call : Call) : Decidable (Unspent q call) :=
  inferInstanceAs (Decidable (_ → _))

/-- No message of the run is brought in once the last sequence has been handed on. -/
def InTime (c : SequencerConfig) : Sequencer → List Call → Prop := Trace.Along (exec c) Unspent

instance (q : Sequencer) (calls : List Call) : Decidable (InTime c q calls) :=
  inferInstanceAs (Decidable (Trace.Along _ _ _ _))

namespace Calm

/-- A started sequencer stays calm over what the stream does not see. -/
theorem quiet (h : Calm c q) (hq : Quiet q q') (hs : q'.started = true) : Calm c q' where
  fine := h.fine.quiet hq
  idle := by rw [hq.holds, hq.expected]; exact h.idle
  unstarted := fun hf => absurd (hs.symm.trans hf) (by simp)

/-- A message, once the front has not come round. -/
theorem ingest (h : Calm c q) (hspent : spent q = false) (seq : UInt64) (payload : Payload)
    (nowNs : UInt64) (line : Option LineId) :
    Calm c (q.ingest c seq payload nowNs line).2 ∧
      (q.ingest c seq payload nowNs line).2.started = true := by
  -- a started sequencer whose front has not come round takes any message in order
  have hgo {q1 : Sequencer} (h1 : Rising c q1) (hn : q1.holds c q1.expected = false)
      (hs : q1.started = true) :
      Calm c (q1.ingestStarted c seq payload nowNs line).2 ∧
        (q1.ingestStarted c seq payload nowNs line).2.started = true := by
    have hstarted : (q1.ingestStarted c seq payload nowNs line).2.started = q1.started :=
      ingestStarted_started payload nowNs line
    rw [hs] at hstarted
    have hnext : Fine c (q1.ingestStarted c seq payload nowNs line).2 ∧ _ :=
      h1.ingestStarted hn payload nowNs line
    exact ⟨⟨hnext.1, hnext.2, fun hf => absurd (hstarted.symm.trans hf) (by simp)⟩, hstarted⟩
  unfold Sequencer.ingest
  split
  · rename_i hs
    rcases h.fine with hr | hr
    · exact hgo hr h.idle hs
    · exact absurd (hspent.symm.trans hr.spent) (by simp)
  · rename_i hs
    -- the first message of all: nothing is handed on yet, and the window is cleared
    obtain ⟨hsink, _⟩ := h.unstarted (by simpa using hs)
    refine hgo ⟨?_, fun d hd => ?_, fun _ hp => ?_, fun _ hp => ?_⟩ rfl rfl
    · unfold Ascending
      rw [show (q.reset seq).sink = q.sink from rfl, hsink]
      exact List.Pairwise.nil
    · rw [show (q.reset seq).sink = q.sink from rfl, hsink] at hd
      exact absurd hd List.not_mem_nil
    · exact absurd hp (by rw [show (q.reset seq).window = q.window.clear from rfl]; simp)
    · exact absurd hp (by rw [show (q.reset seq).window = q.window.clear from rfl]; simp)

/-- Stepping over the hole at the front is a jump and a drain. -/
theorem skipHole (h : Calm c q) : Fine c (q.skipHole c) ∧
    (q.skipHole c).holds c (q.skipHole c).expected = false ∧
    (q.skipHole c).started = q.started :=
  ⟨h.fine.skipTo _, skipTo_idle h.idle, (Frame.skipTo _ _).started⟩

/-- A poll, at any time. -/
theorem poll (h : Calm c q) (nowNs : UInt64) : Calm c (q.poll c nowNs).2 := by
  by_cases hsynced : q.state = .synced
  · unfold Sequencer.poll
    rw [hsynced]
    exact h
  -- in any other state a message has come before
  have hs : q.started = true := by
    by_contra hf
    exact hsynced (h.unstarted (by simpa using hf)).2
  have hquiet {q1 : Sequencer} (hq : Quiet q q1) : Calm c q1 := h.quiet hq (hq.started.trans hs)
  obtain ⟨hfine, hidle, hstarted⟩ := h.skipHole
  -- giving up on a hole moves the front as `skip_to` does
  have hskip {q1 : Sequencer} (hq : Quiet (q.skipHole c) q1) : Calm c q1 :=
    ⟨hfine.quiet hq, by rw [hq.holds, hq.expected]; exact hidle,
      fun hf => absurd (hq.started.trans (hstarted.trans hs)) (by simp [hf])⟩
  unfold Sequencer.poll
  split
  · split
    · exact h
    · exact hquiet ⟨rfl, rfl, rfl, rfl, rfl, rfl, rfl⟩
  · split
    · exact h
    · split
      · exact hskip (enterStale_quiet _)
      · exact hquiet ⟨rfl, rfl, rfl, rfl, rfl, rfl, rfl⟩
  · split
    · exact hskip ⟨rfl, rfl, rfl, rfl, rfl, rfl, rfl⟩
    · exact h
  · exact h

/-- One call. -/
theorem exec (h : Calm c q) {call : Call} (hcall : feeds call = true → spent q = false) :
    Calm c (exec c q call) := by
  cases call with
  | message line seq payload nowNs => exact (h.ingest (hcall rfl) seq payload nowNs (some line)).1
  | retransmit seq payload nowNs =>
    obtain ⟨h1, hs⟩ := h.ingest (hcall rfl) seq payload nowNs none
    have hq := (onRetransmit_quiet (c := c) q seq payload nowNs).1
    exact h1.quiet hq (hq.started.trans hs)
  | poll nowNs => exact h.poll nowNs

/-- A run of calls, by one of them after the other. -/
theorem run {calls : List Call} : ∀ {q : Sequencer}, Calm c q → InTime c q calls →
    Calm c (run c q calls) := by
  induction calls with
  | nil => exact fun h _ => h
  | cons call calls ih => exact fun h hcalls => ih (h.exec hcalls.1) hcalls.2

end Calm

/-- **The order of the stream**, from a new sequencer or an explicit reset, at any sequence
numbers: as long as nothing is brought in once the last 64-bit sequence has been handed on, the
sink sees strictly increasing sequences, and so none twice. -/
theorem run_rising (p : Sequencer) (hp : p = fresh c ∨ ∃ s first, p = restart s first)
    (calls : List Call) (hcalls : InTime c p calls) :
    (run c p calls).sink.Pairwise (fun d d' => d.1 < d'.1) ∧
      ((run c p calls).sink.map Prod.fst).Nodup := by
  have hcalm : Calm c p := by
    rcases hp with rfl | ⟨s, first, rfl⟩
    · exact calm_fresh
    · exact calm_restart s first
  have horder := (hcalm.run hcalls).fine.ascending
  refine ⟨horder, ?_⟩
  rw [List.Nodup, List.pairwise_map]
  refine horder.imp fun {d d'} hlt heq => ?_
  rw [heq, UInt64.lt_iff_toNat_lt] at hlt
  exact absurd hlt (Nat.lt_irrefl _)

/-- The stream may run up to the last sequence. -/
theorem run_rising_lastTwo :
    (run fourSlots (fresh fourSlots) [.message .a 18446744073709551614 [1] 0,
        .message .a 18446744073709551615 [2] 1, .poll 2]).sink.Pairwise
        (fun d d' => d.1 < d'.1) ∧
      ((run fourSlots (fresh fourSlots) [.message .a 18446744073709551614 [1] 0,
        .message .a 18446744073709551615 [2] 1, .poll 2]).sink.map Prod.fst).Nodup :=
  run_rising (fresh fourSlots) (Or.inl rfl) _ (by decide)

/-- **Beyond it the order is lost**: the copy of the last sequence that the second line brings is
far ahead of a front that has come round, and is handed on again. -/
theorem outOfOrder_bothLines :
    ¬ (run fourSlots (fresh fourSlots) [.message .a 18446744073709551615 [1] 0,
        .message .b 18446744073709551615 [1] 1]).sink.Pairwise (fun d d' => d.1 < d'.1) ∧
      ¬ ((run fourSlots (fresh fourSlots) [.message .a 18446744073709551615 [1] 0,
        .message .b 18446744073709551615 [1] 1]).sink.map Prod.fst).Nodup := by
  decide

end Sequencer
end Tickerplant
