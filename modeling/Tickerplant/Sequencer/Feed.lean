import Tickerplant.Sequencer.Keeping
import Tickerplant.Sequencer.Recovery

/-!
# What the feed's state means

`Meant` says what a reader of `state()`, `buffered()` and `stats()` may conclude: how many slots
are in use and with what, whether a hole is open, and that a hole is counted once when it opens and
once when it closes. The last of these is about the counters, which `Ok` leaves out, so it has its
own invariant, `Counted`: `buffer` opens a hole, `settle` closes one or trades it for the next, and
nothing else that leaves the feed trustworthy touches either counter.

A feed goes `Stale` for one of two reasons. That the second is a matter of how many deadlines have
passed is a fact about the past, so `Waiting` counts them beside the state. The count is the
observer's: it goes by the deadline and the clock of the call, and the attempts of the sequencer
are shown to agree with it (`Attempted`).

A hole is not one sequence but one stretch of waiting: `gaps_detected` goes up when the window
first holds something, and a late copy that uncovers a second hole in `Gap` counts nothing, since
the feed was waiting before and is waiting still. That is what makes the two counters differ by one
exactly while anything is held.

A `Stale` feed is left out of `Counted`. Giving up closes no hole, and a feed that never claims to
be trustworthy again has no hole to count.
-/

set_option autoImplicit false

namespace Tickerplant
namespace Sequencer

open Lib

variable {c : SequencerConfig} {q : Sequencer}

/-- What the three accessors tell their reader. -/
structure Meant (c : SequencerConfig) (q : Sequencer) : Prop where
  /-- `buffered()` is the number of slots in use. -/
  buffered : q.pending.toNat = q.window.occupied c.capacity
  /-- They hold sequences ahead of the front and within reach of it, each in its own place. -/
  slots : ∀ i, (q.window.slots i).present = true →
    q.expected < (q.window.slots i).seq ∧
      (q.window.slots i).seq.toNat < q.expected.toNat + c.capacity ∧
      i = (q.window.slots i).seq.toNat % c.capacity
  /-- `Synced`: nothing waits. -/
  synced : q.state = .synced → ∀ x, q.holds c x = false
  /-- `Gap` and `Recovering`: something does, and the sequence at the front is what it waits for.
  -/
  opened : q.state = .gap ∨ q.state = .recovering → ∃ x, q.holds c x = true
  /-- Holes are counted in pairs, but for the one that is open. -/
  gaps : q.state ≠ .stale → q.stats.gapsDetected =
    q.stats.gapsRecovered + if q.pending = 0 then 0 else 1

/-! ## The count of holes -/

/-- Holes are counted in pairs, one open while anything is held. -/
def Counted (q : Sequencer) : Prop :=
  q.state ≠ .stale →
    q.stats.gapsDetected = q.stats.gapsRecovered + if q.pending = 0 then 0 else 1

/-- Neither counter of holes moved. -/
structure SameGaps (q q' : Sequencer) : Prop where
  /-- No hole opened. -/
  detected : q'.stats.gapsDetected = q.stats.gapsDetected
  /-- None closed. -/
  recovered : q'.stats.gapsRecovered = q.stats.gapsRecovered

/-- A `Stale` feed promises nothing of its counters. -/
theorem counted_of_stale (h : q.state = .stale) : Counted q := fun hns => absurd h hns

/-- Where neither the counters nor the count of the window moved the books are as right as before.
-/
theorem Counted.same {q' : Sequencer} (h : Counted q) (hgaps : SameGaps q q')
    (hpending : q'.pending = q.pending) (hstate : q'.state ≠ .stale → q.state ≠ .stale) :
    Counted q' := by
  intro hns
  rw [hgaps.detected, hgaps.recovered, hpending]
  exact h (hstate hns)

/-- A drain decides nothing. -/
theorem drain_gaps (q : Sequencer) : SameGaps q (q.drain c) :=
  drainLoop_induct (P := SameGaps q) (fun _ h _ => ⟨h.detected, h.recovered⟩) _ q ⟨rfl, rfl⟩

/-- Nor does crediting a line. -/
theorem creditLine_gaps (q : Sequencer) (line : Option LineId) :
    SameGaps q (q.creditLine line) := by
  rcases line with _ | _ | _ <;> exact ⟨rfl, rfl⟩

/-- So neither does delivering, before it is settled. -/
theorem delivered_gaps (payload : Payload) (line : Option LineId) :
    SameGaps q (delivered c q payload line) := by
  have hline := creditLine_gaps q line
  have hdrain := drain_gaps (c := c)
    { (q.creditLine line).hand q.expected payload with expected := q.expected + 1 }
  exact ⟨hdrain.detected.trans hline.detected, hdrain.recovered.trans hline.recovered⟩

/-- Delivering to an empty window leaves it empty. -/
theorem delivered_empty (h : Windowed c q) {payload : Payload} {line : Option LineId}
    (hw : Windowed c (delivered c q payload line)) (h0 : q.pending = 0) :
    (delivered c q payload line).pending = 0 := by
  rw [hw.pending_eq_zero_iff]
  intro x
  rw [← Bool.not_eq_true]
  intro hx
  have hno := h.pending_eq_zero_iff.mp h0 x
  rw [delivered_holds line hx] at hno
  exact absurd hno (by simp)

/-- **Settling** closes the hole when nothing is held behind it any more, and trades it for the
next when the one that was asked for is filled. -/
theorem settle_counted (hdetected : q.state ≠ .stale →
      (q.state = .synced → q.pending = 0 ∧ q.stats.gapsDetected = q.stats.gapsRecovered) ∧
      (q.state ≠ .synced → q.stats.gapsDetected = q.stats.gapsRecovered + 1)) (nowNs : UInt64) :
    Counted (q.settle nowNs) := by
  intro hns
  unfold settle at hns ⊢
  by_cases h0 : q.pending = 0
  · rw [if_pos h0] at hns ⊢
    by_cases hopen : q.state = .gap ∨ q.state = .recovering
    · rw [if_pos hopen]
      have hstale : q.state ≠ .stale := by rcases hopen with h | h <;> simp [h]
      have hsynced : q.state ≠ .synced := by rcases hopen with h | h <;> simp [h]
      -- the window has emptied, and the open hole is closed
      have hone := (hdetected hstale).2 hsynced
      show q.stats.gapsDetected = q.stats.gapsRecovered + 1 + if q.pending = 0 then 0 else 1
      rw [if_pos h0, hone]
    · rw [if_neg hopen] at hns ⊢
      have hsynced : q.state = .synced := by
        cases hstate : q.state with
        | synced => rfl
        | gap => exact absurd (Or.inl hstate) hopen
        | recovering => exact absurd (Or.inr hstate) hopen
        | stale => exact absurd hstate hns
      rw [if_pos h0]
      exact ((hdetected hns).1 hsynced).2
  · rw [if_neg h0] at hns ⊢
    have hopen {hstale : q.state ≠ .stale} : q.stats.gapsDetected = q.stats.gapsRecovered + 1 :=
      (hdetected hstale).2 fun hs => h0 ((hdetected hstale).1 hs).1
    by_cases hfilled : q.state = .recovering ∧ q.recoveryEnd ≤ q.expected
    · rw [if_pos hfilled]
      -- the hole that was asked for is closed, and the next one opened in the same breath
      have hone := @hopen (by simp [hfilled.1])
      show q.stats.gapsDetected + 1 = q.stats.gapsRecovered + 1 + if q.pending = 0 then 0 else 1
      rw [if_neg h0, hone]
    · rw [if_neg hfilled] at hns ⊢
      rw [if_neg h0, @hopen hns]

/-- Delivering moves no counter of holes; settling it sets the books right again. -/
theorem deliverNow_counted (h : Ok c q) (hcounted : Counted q) (hf : Far c q.expected)
    (payload : Payload) (nowNs : UInt64) (line : Option LineId) :
    Counted (q.deliverNow c q.expected payload nowNs line) := by
  rw [deliverNow_eq]
  have hw := (delivered_spec h.window h.idle hf payload line [] 0).1
  have hgaps := delivered_gaps (c := c) (q := q) payload line
  have hstate := (delivered_state (c := c) (q := q) payload line).1
  refine settle_counted (fun hns => ⟨fun hsynced => ?_, fun hsynced => ?_⟩) nowNs
  · rw [hstate] at hns hsynced
    have h0 := h.synced_empty hsynced
    have hzero := hcounted hns
    rw [if_pos h0] at hzero
    exact ⟨delivered_empty h.window.windowed hw.windowed h0,
      by rw [hgaps.detected, hgaps.recovered, hzero, Nat.add_zero]⟩
  · rw [hstate] at hns hsynced
    have hopen : q.state = .gap ∨ q.state = .recovering := by
      cases hcase : q.state with
      | synced => exact absurd hcase hsynced
      | gap => exact Or.inl rfl
      | recovering => exact Or.inr rfl
      | stale => exact absurd hcase hns
    have hone := hcounted hns
    rw [if_neg (h.open_held hopen)] at hone
    rw [hgaps.detected, hgaps.recovered, hone]

/-- Holding a message opens a hole if none was open, and closes none. -/
theorem buffer_gaps (q : Sequencer) (seq : UInt64) (payload : Payload) (nowNs : UInt64)
    (line : Option LineId) :
    (q.buffer c seq payload nowNs line).stats.gapsDetected
        = q.stats.gapsDetected + (if q.pending = 0 then 1 else 0) ∧
      (q.buffer c seq payload nowNs line).stats.gapsRecovered = q.stats.gapsRecovered := by
  unfold buffer
  rcases line with _ | _ | _ <;> simp only [creditLine] <;> split <;> split <;> exact ⟨rfl, rfl⟩

/-- **An early message** opens a hole exactly when it is the first to be held. -/
theorem buffer_counted {seq : UInt64} {payload : Payload} (hcounted : Counted q)
    (hw : Windowed c (written c q seq payload)) (nowNs : UInt64) (line : Option LineId) :
    Counted (q.buffer c seq payload nowNs line) := by
  intro hns
  obtain ⟨hdetected, hrecovered⟩ := buffer_gaps (c := c) q seq payload nowNs line
  have hheld : (q.buffer c seq payload nowNs line).pending ≠ 0 := by
    rw [(buffer_quiet q seq payload nowNs line).pending]
    intro h0
    have hno := hw.pending_eq_zero_iff.mp h0 seq
    rw [show (written c q seq payload).holds c seq = true from SlotRing.has_write_self] at hno
    exact absurd hno (by simp)
  have hstale : q.state ≠ .stale := by
    rw [buffer_state] at hns
    intro hcon
    rw [hcon] at hns
    exact hns rfl
  have hq := hcounted hstale
  rw [hdetected, hrecovered, if_neg hheld, hq]
  split <;> rfl

/-! ## One call -/

section Ingest

variable {seq : UInt64} {payload : Payload} {nowNs : UInt64} {line : Option LineId}

/-- A message out of reach of the window is the end of the feed's trustworthiness. -/
theorem ingest_stale (hw : Windowed c q) (hs : q.started = true) (hfar : ¬ Within c q seq) :
    (q.ingest c seq payload nowNs line).2.state = .stale := by
  have hc := c.capacity_pos
  unfold Within at hfar
  have hge : q.expected.toNat + c.capacity ≤ seq.toNat := Nat.not_lt.mp hfar
  have hlt : ¬ seq < q.expected := by
    rw [UInt64.lt_iff_toNat_lt]
    omega
  have hne : seq ≠ q.expected := by
    rintro rfl
    omega
  have hh : ¬ q.holds c seq = true := fun hx => hfar (hw.lt_of_holds hx)
  have hdist : c.capacity ≤ (seq - q.expected).toNat := by
    rw [toNat_sub_of_le (by omega)]
    omega
  have hstale : (q.overflow c seq).state = .stale := overflow_state seq
  unfold ingest ingestStarted
  rw [if_pos hs, if_neg hlt, if_neg hne, if_neg hh, if_pos hdist]
  simp only
  generalize q.overflow c seq = q1 at hstale
  split
  · rename_i hfront
    rw [hfront]
    exact deliverNow_stale hstale payload nowNs line
  · exact takeEarly_stale hstale seq payload nowNs line

/-- A message keeps the books, within reach or not. -/
theorem ingest_counted (h : Ok c q) (hcounted : Counted q) (hf : Far c seq) :
    Counted (q.ingest c seq payload nowNs line).2 := by
  by_cases hwithin : Within c q seq
  · rcases @ingest_within c q seq payload nowNs line h.started hwithin with
      ⟨-, heq⟩ | ⟨hfront, heq⟩ | ⟨hgt, hn, heq⟩
    · rw [heq]
      exact hcounted.same ⟨rfl, rfl⟩ rfl id
    · rw [heq]
      exact deliverNow_counted h hcounted (hfront ▸ hf) payload nowNs line
    · rw [heq]
      unfold takeEarly
      split
      · exact hcounted.same ⟨rfl, rfl⟩ rfl id
      · exact buffer_counted hcounted (h.window.written hn hf hgt hwithin payload).windowed nowNs
          line
  · exact counted_of_stale (ingest_stale h.window.windowed h.started hwithin)

end Ingest

/-- What `on_retransmit` does beyond `ingest` is not about holes. -/
theorem onRetransmit_gaps (q : Sequencer) (seq : UInt64) (payload : Payload) (nowNs : UInt64) :
    SameGaps (q.ingest c seq payload nowNs none).2 (q.onRetransmit c seq payload nowNs) := by
  unfold onRetransmit
  simp only
  split
  · split <;> exact ⟨rfl, rfl⟩
  · exact ⟨rfl, rfl⟩

/-- A poll opens no hole and closes none: it asks, or it goes `Stale`. -/
theorem poll_counted (hcounted : Counted q) (nowNs : UInt64) : Counted (q.poll c nowNs).2 := by
  unfold poll
  cases hstate : q.state with
  | synced => exact hcounted
  | gap =>
    simp only
    split
    · exact hcounted
    · exact hcounted.same ⟨rfl, rfl⟩ rfl fun _ => by simp [hstate]
  | recovering =>
    simp only
    split
    · exact hcounted
    split
    · exact counted_of_stale rfl
    · exact hcounted.same ⟨rfl, rfl⟩ rfl fun _ => by simp [hstate]
  | stale =>
    simp only
    split
    · exact counted_of_stale ((Frame.skipTo _ _).state.trans hstate)
    · exact hcounted

/-- Any call. -/
theorem exec_counted (h : Ok c q) (hcounted : Counted q) {call : Call} (hf : Call.Far c call) :
    Counted (exec c q call) := by
  cases call with
  | message line seq payload nowNs => exact ingest_counted h hcounted hf
  | retransmit seq payload nowNs =>
    obtain ⟨hq, hstate⟩ := onRetransmit_quiet (c := c) q seq payload nowNs
    exact (ingest_counted h hcounted hf).same (onRetransmit_gaps q seq payload nowNs) hq.pending
      fun hns => hstate ▸ hns
  | poll nowNs => exact poll_counted hcounted nowNs

/-! ## How a feed goes `Stale` -/

/-- The message of the call lies out of reach of the window. -/
def OutOfReach (c : SequencerConfig) (q : Sequencer) (call : Call) : Prop :=
  ∃ d ∈ carried call, q.expected.toNat + c.capacity ≤ d.1.toNat

/-- The call is a poll that finds the deadline of the outstanding request passed. -/
def Expires (q : Sequencer) : Call → Prop
  | .poll nowNs => q.state = .recovering ∧ q.recoveryDeadlineNs ≤ nowNs
  | _ => False

instance (q : Sequencer) : ∀ call : Call, Decidable (Expires q call)
  | .poll _ => inferInstanceAs (Decidable (_ ∧ _))
  | .message .. => inferInstanceAs (Decidable False)
  | .retransmit .. => inferInstanceAs (Decidable False)

/-- A sequencer, and how many deadlines have passed since it last began to recover. -/
structure Waiting where
  q : Sequencer
  /-- How many, as an observer of the calls counts them. -/
  deadlines : ℕ := 0

namespace Waiting

/-- The call, and the deadline it found passed. Outside `Recovering` the count starts over. -/
def step (c : SequencerConfig) (w : Waiting) (call : Call) : Waiting where
  q := exec c w.q call
  deadlines := (if w.q.state = .recovering then w.deadlines else 0) +
    if Expires w.q call then 1 else 0

/-- A run of calls. -/
def run (c : SequencerConfig) (w : Waiting) (calls : List Call) : Waiting :=
  calls.foldl (step c) w

/-- The count only watches. -/
theorem run_q (calls : List Call) : ∀ w : Waiting,
    (run c w calls).q = Sequencer.run c w.q calls := by
  induction calls with
  | nil => exact fun _ => rfl
  | cons call calls ih => exact fun w => ih (step c w call)

end Waiting

/-- While a request is outstanding its attempts are one more than the deadlines that passed, and
within the limit. -/
def Attempted (c : SequencerConfig) (w : Waiting) : Prop :=
  w.q.state = .recovering →
    w.q.recoveryAttempts.toNat = w.deadlines + 1 ∧ w.q.recoveryAttempts ≤ c.attempts

/-- The constructor allows at least one attempt. -/
theorem attempts_ne_zero (c : SequencerConfig) : c.attempts ≠ 0 := by
  unfold SequencerConfig.attempts
  split
  · decide
  · assumption

/-- A message that leaves a request outstanding leaves its attempts as they were. -/
theorem ingest_attempts {seq : UInt64} {payload : Payload} {nowNs : UInt64} {line : Option LineId}
    (hw : Windowed c q) (hs : q.started = true)
    (hrec : (q.ingest c seq payload nowNs line).2.state = .recovering) :
    q.state = .recovering ∧
      (q.ingest c seq payload nowNs line).2.recoveryAttempts = q.recoveryAttempts := by
  have hwithin : Within c q seq := by
    by_contra hfar
    rw [ingest_stale hw hs hfar] at hrec
    exact absurd hrec (by simp)
  have hkept : Kept q (q.ingest c seq payload nowNs line).2 := ingest_kept hs hwithin
  exact ⟨hkept.state hrec, hkept.attempts hrec⟩

/-- An answer restarts the deadline and never the count of attempts. -/
theorem onRetransmit_attempts (q : Sequencer) (seq : UInt64) (payload : Payload)
    (nowNs : UInt64) : (q.onRetransmit c seq payload nowNs).recoveryAttempts =
      (q.ingest c seq payload nowNs none).2.recoveryAttempts := by
  unfold onRetransmit
  simp only
  split
  · split <;> rfl
  · rfl

/-- **`poll` leaves a request outstanding** in three ways: it asks for the first time, it was too
early to do anything, or it asks again because a deadline has passed. -/
theorem poll_recovering {nowNs : UInt64} (hrec : (q.poll c nowNs).2.state = .recovering) :
    (q.state = .gap ∧ (q.poll c nowNs).2.recoveryAttempts = 1) ∨
      (q.state = .recovering ∧ ¬ Expires q (.poll nowNs) ∧
        (q.poll c nowNs).2.recoveryAttempts = q.recoveryAttempts) ∨
      (q.state = .recovering ∧ Expires q (.poll nowNs) ∧ q.recoveryAttempts < c.attempts ∧
        (q.poll c nowNs).2.recoveryAttempts = q.recoveryAttempts + 1) := by
  unfold poll at hrec ⊢
  cases hstate : q.state with
  | synced =>
    rw [hstate] at hrec
    exact absurd (hstate.symm.trans hrec) (by simp)
  | gap =>
    rw [hstate] at hrec
    simp only at hrec ⊢
    split at hrec
    · exact absurd (hstate.symm.trans hrec) (by simp)
    · rename_i hwait
      rw [if_neg hwait]
      exact Or.inl ⟨trivial, rfl⟩
  | recovering =>
    rw [hstate] at hrec
    simp only at hrec ⊢
    split at hrec
    · rename_i hearly
      rw [if_pos hearly]
      exact Or.inr (Or.inl ⟨trivial, fun he => UInt64.not_lt.mpr he.2 hearly, rfl⟩)
    rename_i hlate
    rw [if_neg hlate]
    split at hrec
    · exact absurd hrec (by simp [enterStale, clearRecovery])
    · rename_i hleft
      rw [if_neg hleft]
      exact Or.inr (Or.inr ⟨trivial, ⟨hstate, UInt64.not_lt.mp hlate⟩, UInt32.not_le.mp hleft, rfl⟩)
  | stale =>
    rw [hstate] at hrec
    simp only at hrec
    split at hrec
    · have hskip : (q.skipHole c).state = .stale := (Frame.skipTo _ _).state.trans hstate
      exact absurd (hskip.symm.trans hrec) (by simp)
    · exact absurd (hstate.symm.trans hrec) (by simp)

/-- A call keeps the agreement, whatever it is. -/
theorem attempted_step {w : Waiting} (h : Ok c w.q) (ha : Attempted c w) (call : Call) :
    Attempted c (w.step c call) := by
  intro hrec
  -- a message leaves a request outstanding only if it was, with the attempts it had
  have hmessage {seq : UInt64} {payload : Payload} {nowNs : UInt64} {line : Option LineId}
      {q' : Sequencer} (hstate : q'.state = (w.q.ingest c seq payload nowNs line).2.state)
      (hattempts : q'.recoveryAttempts = (w.q.ingest c seq payload nowNs line).2.recoveryAttempts)
      (hrec : q'.state = .recovering) :
      w.q.state = .recovering ∧ q'.recoveryAttempts = w.q.recoveryAttempts := by
    obtain ⟨hold, heq⟩ := ingest_attempts h.window.windowed h.started (hstate ▸ hrec)
    exact ⟨hold, hattempts.trans heq⟩
  -- where no deadline passed and no attempt was made, both sides are as they were
  have hsame (hold : w.q.state = .recovering)
      (heq : (exec c w.q call).recoveryAttempts = w.q.recoveryAttempts)
      (hexpires : ¬ Expires w.q call) : (w.step c call).q.recoveryAttempts.toNat =
        (w.step c call).deadlines + 1 ∧ (w.step c call).q.recoveryAttempts ≤ c.attempts := by
    have hw := ha hold
    unfold Waiting.step
    rw [if_pos hold, if_neg hexpires]
    simp only
    rw [heq]
    exact hw
  cases call with
  | message line seq payload nowNs =>
    obtain ⟨hold, heq⟩ := hmessage rfl rfl hrec
    exact hsame hold heq id
  | retransmit seq payload nowNs =>
    obtain ⟨hold, heq⟩ := hmessage (onRetransmit_quiet w.q seq payload nowNs).2
      (onRetransmit_attempts w.q seq payload nowNs) hrec
    exact hsame hold heq id
  | poll nowNs =>
    rcases poll_recovering hrec with ⟨hgap, heq⟩ | ⟨hold, hexpires, heq⟩ |
      ⟨hold, hexpires, hlt, heq⟩
    · have hno : w.q.state ≠ .recovering := by simp [hgap]
      have hexpires : ¬ Expires w.q (.poll nowNs) := fun he => hno he.1
      have hpos := UInt32.toNat_inj.not.mpr (attempts_ne_zero c)
      have heq' : (w.step c (.poll nowNs)).q.recoveryAttempts = 1 := heq
      have hzero : (w.step c (.poll nowNs)).deadlines = 0 := by
        unfold Waiting.step
        rw [if_neg hno, if_neg hexpires]
      rw [heq', hzero, UInt32.le_iff_toNat_le]
      exact ⟨rfl, Nat.pos_of_ne_zero hpos⟩
    · exact hsame hold heq hexpires
    · obtain ⟨hcount, -⟩ := ha hold
      have hlt' := UInt32.lt_iff_toNat_lt.mp hlt
      have hbound := c.attempts.toNat_lt
      have hnext : (w.q.recoveryAttempts + 1).toNat = w.q.recoveryAttempts.toNat + 1 := by
        rw [UInt32.toNat_add, Nat.mod_eq_of_lt (by simp; omega)]
        rfl
      have heq' : (w.step c (.poll nowNs)).q.recoveryAttempts = w.q.recoveryAttempts + 1 := heq
      have hone : (w.step c (.poll nowNs)).deadlines = w.deadlines + 1 := by
        unfold Waiting.step
        rw [if_pos hold, if_pos hexpires]
      rw [heq', hone, UInt32.le_iff_toNat_le, hnext]
      omega

/-- A poll that ends in `Stale` has found a deadline passed with the attempts used up. -/
theorem poll_stale {nowNs : UInt64} (hns : q.state ≠ .stale)
    (hstale : (q.poll c nowNs).2.state = .stale) :
    Expires q (.poll nowNs) ∧ c.attempts ≤ q.recoveryAttempts := by
  rcases poll_cases (c := c) hns nowNs with heq | ⟨hrec, hnow, hmax⟩ | ⟨-, q', -, hrec, heq⟩
  · rw [heq] at hstale
    exact absurd hstale hns
  · exact ⟨⟨hrec, hnow⟩, hmax⟩
  · rw [heq] at hstale
    exact absurd (hrec.symm.trans hstale) (by simp)

/-- **The two ways a feed goes `Stale`**: a message out of reach of the window, or a poll that has
seen as many deadlines pass as there are attempts. -/
theorem stale_reason {w : Waiting} (h : Ok c w.q) (ha : Attempted c w) (call : Call)
    (hns : w.q.state ≠ .stale) (hstale : (exec c w.q call).state = .stale) :
    OutOfReach c w.q call ∨
      (Expires w.q call ∧ (w.step c call).deadlines = c.attempts.toNat) := by
  have hmessage {seq : UInt64} {payload : Payload} {nowNs : UInt64} {line : Option LineId}
      (hstale : (w.q.ingest c seq payload nowNs line).2.state = .stale) :
      w.q.expected.toNat + c.capacity ≤ seq.toNat := by
    by_contra hfar
    have hkept : Kept w.q (w.q.ingest c seq payload nowNs line).2 :=
      ingest_kept h.started (Nat.not_le.mp hfar)
    exact hkept.not_stale hns hstale
  cases call with
  | message line seq payload nowNs => exact Or.inl ⟨(seq, payload), rfl, hmessage hstale⟩
  | retransmit seq payload nowNs =>
    have hstate := (onRetransmit_quiet (c := c) w.q seq payload nowNs).2
    exact Or.inl ⟨(seq, payload), rfl, hmessage (hstate.symm.trans hstale)⟩
  | poll nowNs =>
    obtain ⟨hexpires, hmax⟩ := poll_stale hns hstale
    obtain ⟨hcount, hle⟩ := ha hexpires.1
    rw [UInt32.le_iff_toNat_le] at hmax hle
    refine Or.inr ⟨hexpires, ?_⟩
    unfold Waiting.step
    rw [if_pos hexpires.1, if_pos hexpires]
    simp only
    omega

/-! ## A run -/

/-- What holds between the calls of a run from a reset. -/
structure Running (c : SequencerConfig) (w : Waiting) : Prop where
  /-- The window, below the wrap. -/
  ok : Ok c w.q
  /-- The counters of holes. -/
  counted : Counted w.q
  /-- The attempts and the deadlines. -/
  attempted : Attempted c w

/-- A new sequencer, reset. -/
theorem running_start {first : UInt64} (hfirst : Far c first) :
    Running c { q := begin c first } where
  ok := restart_ok (fresh c) hfirst
  counted := fun _ => rfl
  attempted := fun hrec => absurd hrec (by simp [begin, restart, reset, clearRecovery])

/-- One call keeps all three; each has its own step lemma. -/
theorem running_step {w : Waiting} (h : Running c w) {call : Call} (hf : Call.Far c call) :
    Running c (w.step c call) := by
  obtain ⟨k, new, hm, -⟩ := exec_moves h.ok hf
  exact ⟨hm.ok, exec_counted h.ok h.counted hf, attempted_step h.ok h.attempted call⟩

/-- And so does a run. -/
theorem running_run {calls : List Call} : ∀ {w : Waiting}, Running c w →
    (∀ call ∈ calls, Call.Far c call) → Running c (w.run c calls) := by
  induction calls with
  | nil => exact fun h _ => h
  | cons call calls ih =>
    intro w h hfar
    exact ih (running_step h (hfar call List.mem_cons_self))
      fun call' hmem => hfar call' (List.mem_cons_of_mem _ hmem)

/-- What the invariant means to a reader. -/
theorem Running.meant {w : Waiting} (h : Running c w) : Meant c w.q where
  buffered := h.ok.window.pending
  slots := by
    intro i hp
    have hhome := h.ok.window.home i hp
    have hge := h.ok.window.ge i hp
    refine ⟨UInt64.lt_of_le_of_ne (UInt64.le_iff_toNat_le.mpr hge) fun heq => ?_,
      h.ok.window.lt i hp, by rw [← maskIndex_eq, hhome]⟩
    have hheld : w.q.holds c w.q.expected = true := by
      rw [heq]
      exact holds_iff.mpr ⟨by rw [hhome]; exact hp, by rw [hhome]⟩
    rw [h.ok.idle] at hheld
    exact absurd hheld (by simp)
  synced := fun hs => h.ok.window.windowed.pending_eq_zero_iff.mp (h.ok.synced_empty hs)
  opened := by
    intro hopen
    by_contra hno
    simp only [not_exists, Bool.not_eq_true] at hno
    exact h.ok.open_held hopen (h.ok.window.windowed.pending_eq_zero_iff.mpr hno)
  gaps := h.counted

/-- **The feed's state means what it says**, after any calls on a sequencer reset to `first`, as
long as the sequences stay more than a window below the 64-bit wrap; and whatever call comes next,
`Stale` is final, and there are the two ways into it. -/
theorem feed_meant (c : SequencerConfig) (first : UInt64) (hfirst : Far c first)
    (calls : List Call) (hfar : ∀ call ∈ calls, Call.Far c call) :
    let w := Waiting.run c { q := begin c first } calls
    w.q = run c (begin c first) calls ∧ Meant c w.q ∧ ∀ call, Call.Far c call →
      (w.q.state = .stale → (exec c w.q call).state = .stale) ∧
      (w.q.state ≠ .stale → (exec c w.q call).state = .stale →
        OutOfReach c w.q call ∨
          (Expires w.q call ∧ (w.step c call).deadlines = c.attempts.toNat)) := by
  intro w
  have hrunning : Running c w := running_run (running_start hfirst) hfar
  refine ⟨Waiting.run_q calls _, hrunning.meant, fun call hf => ⟨fun hstale => ?_, fun hns => ?_⟩⟩
  · obtain ⟨k, new, hm, -⟩ := exec_moves hrunning.ok hf
    exact hm.stale hstale
  · exact stale_reason hrunning.ok hrunning.attempted call hns

/-- A hole, three requests for it nobody answers, and the poll that gives up. -/
def unanswered : List Call :=
  [.message .a 1 [1] 0, .message .b 3 [3] 10, .poll 600000, .poll 60000000, .poll 120000000]

/-- With three attempts the third deadline is the end of the feed's trustworthiness. -/
theorem feed_meant_unanswered :
    let w := Waiting.run fourSlots { q := begin fourSlots 1 } unanswered
    Meant fourSlots w.q ∧ w.q.stats.gapsDetected = 1 ∧
      (exec fourSlots w.q (.poll 180000000)).state = .stale ∧
      (w.step fourSlots (.poll 180000000)).deadlines = 3 := by
  obtain ⟨-, hmeant, hnext⟩ := feed_meant fourSlots 1 (by decide) unanswered (by decide)
  have hstale : (exec fourSlots (Waiting.run fourSlots { q := begin fourSlots 1 } unanswered).q
      (.poll 180000000)).state = .stale := by decide
  refine ⟨hmeant, by decide, hstale, ?_⟩
  rcases (hnext (.poll 180000000) trivial).2 (by decide) hstale with ⟨d, hd, -⟩ | ⟨-, hdeadlines⟩
  · cases hd
  · exact hdeadlines

end Sequencer
end Tickerplant
