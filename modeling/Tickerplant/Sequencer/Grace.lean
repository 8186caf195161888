import Tickerplant.Lib.Trace
import Tickerplant.Sequencer.Keeping

/-!
# The grace a hole is given

In `Gap` the first request for a hole goes out once `gap_grace_ns` has passed since `gap_since_ns_`,
or the window is three quarters full. The clock is set where the window first holds something and
where `settle` finds a new hole behind an answered request. It is not set where a late copy fills
the front hole in `Gap` and uncovers another: that hole inherits the old clock, and may be asked
for before its own grace is over (`impatient_lateCopy`).

`since` says when each message was buffered. `Opened` is what holds while no step leaves an
uncovered hole with only younger messages behind it: something held is as old as the clock.

The grace is a promise to the other line: it has that long to bring a late copy before anybody else
is bothered. A hole is known of since the first message beyond it was buffered, so that is where
its grace begins, and `Patient` says so without the sequencer's clock, from the ages of what is
held and the clock of the call.

`Timely` is a condition on the state before the step. It names the messages the step would uncover
(`uncovered`) and asks for one of them to be as old as the clock that will be inherited. Where
nothing is uncovered there is no hole left; where the copy comes in `Recovering` the sequencer
starts a new clock itself.
-/

set_option autoImplicit false

namespace Tickerplant

/-- The caller's clock at a call. -/
def Call.nowNs : Call → UInt64
  | .message _ _ _ nowNs => nowNs
  | .retransmit _ _ nowNs => nowNs
  | .poll nowNs => nowNs

namespace Sequencer

open Lib

variable {c : SequencerConfig}

/-! ## The window as a list -/

/-- The sequences held, in order. -/
def heldSeqs (c : SequencerConfig) (q : Sequencer) : List UInt64 :=
  ((List.range c.capacity).map fun i => q.expected + UInt64.ofNat i).filter fun x => q.holds c x

/-- The sequences held beyond a second hole: what is left when the front one is filled. -/
def uncovered (c : SequencerConfig) (q : Sequencer) : List UInt64 :=
  (heldSeqs c q).filter fun x =>
    (List.range (x - q.expected).toNat).any fun i =>
      decide (0 < i) && !q.holds c (q.expected + UInt64.ofNat i)

theorem mem_heldSeqs {q : Sequencer} (h : Windowed c q) {x : UInt64} :
    x ∈ heldSeqs c q ↔ q.holds c x = true := by
  unfold heldSeqs
  rw [List.mem_filter, and_iff_right_iff_imp]
  intro hx
  have hge := h.ge_of_holds hx
  have hlt := h.lt_of_holds hx
  have hmax := x.toNat_lt
  refine List.mem_map.mpr ⟨x.toNat - q.expected.toNat, List.mem_range.mpr (by omega), ?_⟩
  refine UInt64.toNat_inj.mp ?_
  rw [toNat_add_ofNat (by omega)]
  omega

theorem mem_uncovered {q : Sequencer} (h : Windowed c q) {x : UInt64} :
    x ∈ uncovered c q ↔ q.holds c x = true ∧
      ∃ y, q.expected < y ∧ y < x ∧ q.holds c y = false := by
  unfold uncovered
  rw [List.mem_filter, mem_heldSeqs h]
  refine and_congr_right fun hx => ?_
  have hge := h.ge_of_holds hx
  have hdist : (x - q.expected).toNat = x.toNat - q.expected.toNat := toNat_sub_of_le hge
  have hmax := x.toNat_lt
  rw [List.any_eq_true]
  constructor
  · rintro ⟨i, hi, hhole⟩
    rw [List.mem_range, hdist] at hi
    simp only [Bool.and_eq_true, decide_eq_true_eq, Bool.not_eq_true'] at hhole
    refine ⟨q.expected + UInt64.ofNat i, ?_, ?_, hhole.2⟩
    · rw [UInt64.lt_iff_toNat_lt, toNat_add_ofNat (by omega)]
      omega
    · rw [UInt64.lt_iff_toNat_lt, toNat_add_ofNat (by omega)]
      omega
  · rintro ⟨y, hlo, hhi, hhole⟩
    rw [UInt64.lt_iff_toNat_lt] at hlo hhi
    have hy : q.expected + UInt64.ofNat (y.toNat - q.expected.toNat) = y := by
      refine UInt64.toNat_inj.mp ?_
      rw [toNat_add_ofNat (by omega)]
      omega
    refine ⟨y.toNat - q.expected.toNat, List.mem_range.mpr (by omega), ?_⟩
    rw [hy, hhole]
    simp only [Bool.not_false, Bool.and_true, decide_eq_true_eq]
    omega

/-- **A copy of the message at the front leaves what it uncovers**, and nothing else. -/
theorem holds_deliverNow {q : Sequencer} (h : Windowed c q) (hi : q.holds c q.expected = false)
    (payload : Payload) (nowNs : UInt64) (line : Option LineId) {x : UInt64} :
    (q.deliverNow c q.expected payload nowNs line).holds c x = true ↔ x ∈ uncovered c q := by
  have hx := x.toNat_lt
  have hvacant : heldView c q q.expected.toNat = none := by
    rw [heldView_toNat, hi]
    rfl
  -- what the drain reaches is handed on, and it reaches up to the second hole
  obtain ⟨b, hb, hstop, hpass⟩ := deliverNow_passage (At.of_windowed h) q.expected.toNat_lt hvacant
    payload nowNs line
  have hidle := deliverNow_idle (c := c) (q := q) payload nowNs line
  have hview := hpass.reached.view
  have hfront := hpass.reached.toNat_front
  generalize q.deliverNow c q.expected payload nowNs line = q' at hpass hidle hview hfront
  rw [mem_uncovered h]
  -- past the front, what is held is what was
  have hsame {n : ℕ} (hn : b ≤ n) : heldView c q' n = heldView c q n := by
    rw [hview, if_pos hn, Function.update_of_ne (by omega)]
  constructor
  · intro hheld
    have hge : b ≤ x.toNat := by
      by_contra hlt
      have hv := hview x.toNat
      rw [heldView_toNat, if_pos hheld, if_neg hlt] at hv
      exact absurd hv (by simp)
    have hb' := hfront (by omega)
    have hv := hsame hge
    rw [heldView_toNat, heldView_toNat, if_pos hheld] at hv
    refine ⟨?_, q'.expected, ?_, ?_, ?_⟩
    · by_contra hno
      rw [if_neg hno] at hv
      exact absurd hv (by simp)
    · rw [UInt64.lt_iff_toNat_lt]
      omega
    · rw [UInt64.lt_iff_toNat_lt]
      refine Nat.lt_of_le_of_ne (by omega) fun heq => ?_
      rw [UInt64.toNat_inj.mp heq] at hidle
      exact absurd hheld (by simp [hidle])
    · have hv' := hsame (Nat.le_of_eq hb'.symm)
      rw [heldView_toNat, heldView_toNat, hidle] at hv'
      by_contra hno
      rw [Bool.not_eq_false] at hno
      rw [if_pos hno] at hv'
      exact absurd hv' (by simp)
  · rintro ⟨hheld, y, hlo, hhi, hhole⟩
    rw [UInt64.lt_iff_toNat_lt] at hlo hhi
    have hge := hstop y.toNat hlo (by rw [heldView_toNat, hhole]; rfl)
    have hv := hsame (n := x.toNat) (by omega)
    rw [heldView_toNat, heldView_toNat, if_pos hheld] at hv
    by_contra hno
    rw [if_neg hno] at hv
    exact absurd hv (by simp)

/-! ## When each message was buffered -/

/-- A sequencer, and when each sequence last went into the window. -/
structure Timed where
  q : Sequencer
  /-- As an observer of the calls sees it: the clock of the call that put the sequence in. -/
  since : UInt64 → UInt64 := fun _ => 0

/-- `since` after a call: what has gone into the window was buffered now. -/
def stamp (c : SequencerConfig) (q q' : Sequencer) (since : UInt64 → UInt64) (nowNs : UInt64) :
    UInt64 → UInt64 :=
  fun x => if q'.holds c x && !q.holds c x then nowNs else since x

namespace Timed

/-- The call, and the ages after it. -/
def step (c : SequencerConfig) (w : Timed) (call : Call) : Timed :=
  { q := exec c w.q call, since := stamp c w.q (exec c w.q call) w.since call.nowNs }

/-- **The grace of the front hole is respected**: where a poll asks for it first, the window is
three quarters full or something held has waited for `gap_grace_ns`. -/
def Patient (c : SequencerConfig) (w : Timed) (call : Call) : Prop :=
  carried call = none → w.q.state = .gap → (w.q.poll c call.nowNs).1 ≠ none →
    3 * c.capacity ≤ 4 * w.q.window.occupied c.capacity ∨
      ∃ x ∈ heldSeqs c w.q, (w.since x).toNat + c.gapGraceNs.toNat ≤ call.nowNs.toNat

/-- A copy of the message at the front, arriving in `Gap`, uncovers nothing or something as old as
the clock; and a poll in `Gap` finds a deadline that does not wrap. -/
def Timely (c : SequencerConfig) (w : Timed) (call : Call) : Prop :=
  w.q.state = .gap →
    (∀ d ∈ carried call, d.1 = w.q.expected →
      uncovered c w.q = [] ∨ ∃ x ∈ uncovered c w.q, w.since x ≤ w.q.gapSinceNs) ∧
    (carried call = none → w.q.gapSinceNs.toNat + c.gapGraceNs.toNat < 2 ^ 64)

instance (w : Timed) (call : Call) : Decidable (Patient c w call) :=
  inferInstanceAs (Decidable (carried call = none → w.q.state = .gap →
    (w.q.poll c call.nowNs).1 ≠ none → _ ∨ ∃ x ∈ heldSeqs c w.q, _ ≤ _))

instance (w : Timed) (call : Call) : Decidable (Timely c w call) :=
  inferInstanceAs (Decidable (w.q.state = .gap →
    (∀ d ∈ carried call, d.1 = w.q.expected →
      uncovered c w.q = [] ∨ ∃ x ∈ uncovered c w.q, w.since x ≤ w.q.gapSinceNs) ∧ _))

end Timed

/-! ## One message -/

/-- Settling ends in `Gap` with the clock it had, or with a new one. -/
theorem settle_gap (q : Sequencer) (nowNs : UInt64) (h : (q.settle nowNs).state = .gap) :
    q.state = .gap ∧ (q.settle nowNs).gapSinceNs = q.gapSinceNs ∨
      (q.settle nowNs).gapSinceNs = nowNs := by
  unfold settle at h ⊢
  split at h
  · split at h
    · exact absurd h (by simp [clearRecovery])
    · rename_i hpending hclosed
      rw [if_pos hpending, if_neg hclosed]
      exact Or.inl ⟨h, rfl⟩
  · rename_i hpending
    rw [if_neg hpending]
    split at h
    · rename_i hanswered
      rw [if_pos hanswered]
      exact Or.inr rfl
    · rename_i hopen
      rw [if_neg hopen]
      exact Or.inl ⟨h, rfl⟩

/-- So does delivering. -/
theorem deliverNow_gap {q : Sequencer} {payload : Payload} {nowNs : UInt64} {line : Option LineId}
    (h : (q.deliverNow c q.expected payload nowNs line).state = .gap) :
    q.state = .gap ∧
        (q.deliverNow c q.expected payload nowNs line).gapSinceNs = q.gapSinceNs ∨
      (q.deliverNow c q.expected payload nowNs line).gapSinceNs = nowNs := by
  have hclock : (delivered c q payload line).gapSinceNs = q.gapSinceNs := by
    unfold delivered
    rw [(Frame.drain _).gapSinceNs]
    rcases line with _ | _ | _ <;> rfl
  rw [deliverNow_eq] at h ⊢
  rw [← hclock, ← (delivered_state (c := c) payload line).1]
  exact settle_gap _ nowNs h

/-- What a message that is neither delivered nor too far ahead does to the window and the clock:
nothing, or it goes into the window, and starts the clock if the window was empty. -/
def Waits (c : SequencerConfig) (q : Sequencer) (seq nowNs : UInt64) (q' : Sequencer) : Prop :=
  (q'.state = q.state ∧ q'.gapSinceNs = q.gapSinceNs ∧ ∀ x, q'.holds c x = q.holds c x) ∨
    q.holds c seq = false ∧ (∀ x, q'.holds c x = true ↔ q.holds c x = true ∨ x = seq) ∧
      q'.state = (if q.state = .synced then .gap else q.state) ∧
      q'.gapSinceNs = if q.pending = 0 then nowNs else q.gapSinceNs

/-- A message in reach is refused, or held. -/
theorem takeEarly_waits {q : Sequencer} {seq : UInt64} (h : Windowed c q)
    (hn : q.holds c seq = false) (hlo : q.expected < seq)
    (hhi : seq.toNat < q.expected.toNat + c.capacity) (payload : Payload) (nowNs : UInt64)
    (line : Option LineId) : Waits c q seq nowNs (q.takeEarly c seq payload nowNs line).2 := by
  unfold takeEarly
  split
  · exact Or.inl ⟨rfl, rfl, fun _ => rfl⟩
  · refine Or.inr ⟨hn, fun x => ?_, buffer_state q seq payload nowNs line, ?_⟩
    · have hv := congrFun (heldView_written h hlo hhi payload) x.toNat
      rw [heldView_toNat, Function.update_apply, heldView_toNat] at hv
      rw [(buffer_quiet q seq payload nowNs line).holds]
      -- the view gains the message, and so does what is held
      by_cases hx : x = seq
      · subst hx
        rw [if_pos rfl] at hv
        refine iff_of_true ?_ (Or.inr rfl)
        by_contra hno
        rw [if_neg hno] at hv
        exact absurd hv (by simp)
      · rw [if_neg fun heq => hx (UInt64.toNat_inj.mp heq)] at hv
        simp only [hx, or_false]
        by_cases hx' : q.holds c x = true
        · rw [if_pos hx'] at hv
          refine iff_of_true ?_ hx'
          by_contra hno
          rw [if_neg hno] at hv
          exact absurd hv (by simp)
        · rw [if_neg hx'] at hv
          refine iff_of_false (fun hyes => ?_) hx'
          rw [if_pos hyes] at hv
          exact absurd hv (by simp)
    · unfold buffer
      rcases line with _ | _ | _ <;> simp only [creditLine] <;> split <;> split <;> simp_all

/-- **One message**: it ends in `Stale`, or is handed on at the front, or waits. -/
theorem ingestStarted_cases {q : Sequencer} (h : Sound c q) (seq : UInt64) (payload : Payload)
    (nowNs : UInt64) (line : Option LineId) :
    (q.ingestStarted c seq payload nowNs line).2.state = .stale ∨
      (seq = q.expected ∧ (q.ingestStarted c seq payload nowNs line).2 =
        q.deliverNow c q.expected payload nowNs line) ∨
      Waits c q seq nowNs (q.ingestStarted c seq payload nowNs line).2 := by
  have hsame : Waits c q seq nowNs q.countDuplicate := Or.inl ⟨rfl, rfl, fun _ => rfl⟩
  unfold ingestStarted
  by_cases hlt : seq < q.expected
  · rw [if_pos hlt]
    exact Or.inr (Or.inr hsame)
  rw [if_neg hlt]
  by_cases heq : seq = q.expected
  · rw [if_pos heq]
    subst heq
    exact Or.inr (Or.inl ⟨rfl, rfl⟩)
  rw [if_neg heq]
  have hge := UInt64.le_iff_toNat_le.mp (UInt64.not_lt.mp hlt)
  have hgt : q.expected < seq := UInt64.lt_of_le_of_ne (UInt64.not_lt.mp hlt) (Ne.symm heq)
  by_cases hh : q.holds c seq = true
  · rw [if_pos hh]
    exact Or.inr (Or.inr hsame)
  rw [if_neg hh]
  have hdist : (seq - q.expected).toNat = seq.toNat - q.expected.toNat := toNat_sub_of_le hge
  by_cases hcapacity : c.capacity ≤ (seq - q.expected).toNat
  · rw [if_pos hcapacity]
    have hstale : (q.overflow c seq).state = .stale := overflow_state seq
    simp only
    generalize q.overflow c seq = q1 at hstale
    -- making room goes `Stale`, and so it stays whatever comes of the message
    refine Or.inl ?_
    by_cases hre : seq = q1.expected
    · subst hre
      rw [if_pos rfl]
      exact deliverNow_stale hstale payload nowNs line
    · rw [if_neg hre]
      exact takeEarly_stale hstale seq payload nowNs line
  · rw [if_neg hcapacity]
    exact Or.inr (Or.inr (takeEarly_waits h.windowed (by simpa using hh) hgt (by omega) payload
      nowNs line))

/-! ## The clock of the front hole -/

/-- Something held is as old as the clock. -/
def Old (c : SequencerConfig) (q : Sequencer) (since : UInt64 → UInt64) : Prop :=
  ∃ x, q.holds c x = true ∧ since x ≤ q.gapSinceNs

/-- Between calls: what is held was buffered by the last call, and the clock of an open hole is
older than something held. -/
structure Opened (c : SequencerConfig) (q : Sequencer) (since : UInt64 → UInt64) (last : ℕ) :
    Prop where
  /-- The window says what it holds. -/
  sound : Sound c q
  /-- No message is younger than the last call. -/
  aged : ∀ x, q.holds c x = true → (since x).toNat ≤ last
  /-- In `Gap` the grace the sequencer counts is one somebody held has waited. -/
  old : q.state = .gap → Old c q since

section Opened

variable {q q' : Sequencer} {since : UInt64 → UInt64} {last : ℕ} {nowNs : UInt64}

/-- What was held keeps its age. -/
theorem stamp_of_held {x : UInt64} (hx : q.holds c x = true) :
    stamp c q q' since nowNs x = since x := if_neg (by simp [hx])

/-- What has just been put in is as young as the call. -/
theorem stamp_of_new {x : UInt64} (hx : q'.holds c x = true) (hn : q.holds c x = false) :
    stamp c q q' since nowNs x = nowNs := if_pos (by simp [hx, hn])

/-- What is still held is as old as it was. -/
theorem Old.kept {x : UInt64} (hx : q.holds c x = true) (hx' : q'.holds c x = true)
    (hsince : since x ≤ q'.gapSinceNs) : Old c q' (stamp c q q' since nowNs) :=
  ⟨x, hx', by rw [stamp_of_held hx]; exact hsince⟩

/-- A call keeps the ages right, whatever it does to the window. -/
theorem Opened.aged_step (h : Opened c q since last) (hnow : last ≤ nowNs.toNat) (x : UInt64)
    (hx : q'.holds c x = true) : (stamp c q q' since nowNs x).toNat ≤ nowNs.toNat := by
  by_cases hold : q.holds c x = true
  · rw [stamp_of_held hold]
    exact Nat.le_trans (h.aged x hold) hnow
  · rw [stamp_of_new hx (by simpa using hold)]

/-- A message that waits leaves something held that is as old as the clock. -/
theorem Opened.waits (h : Opened c q since last) {seq : UInt64} (hw : Waits c q seq nowNs q')
    (hgap : q'.state = .gap) : Old c q' (stamp c q q' since nowNs) := by
  rcases hw with ⟨hstate, hclock, hheld⟩ | ⟨hn, hheld, hstate, hclock⟩
  · obtain ⟨x, hx, hsince⟩ := h.old (hstate ▸ hgap)
    exact Old.kept hx ((hheld x).trans hx) (hclock ▸ hsince)
  · by_cases hempty : q.pending = 0
    · -- the first to be held starts the clock
      have hseq := (hheld seq).mpr (Or.inr rfl)
      rw [if_pos hempty] at hclock
      refine ⟨seq, hseq, ?_⟩
      rw [stamp_of_new hseq hn, hclock]
      exact UInt64.le_refl nowNs
    · have hopen : q.state = .gap := by
        rw [hstate] at hgap
        split at hgap
        · rename_i hsynced; exact absurd (h.sound.synced_empty hsynced) hempty
        · exact hgap
      obtain ⟨x, hx, hsince⟩ := h.old hopen
      rw [if_neg hempty] at hclock
      exact Old.kept hx ((hheld x).mpr (Or.inl hx)) (hclock ▸ hsince)

/-- So does one that is handed on, if something it uncovers is. -/
theorem Opened.delivered (h : Opened c q since last) (hnow : last ≤ nowNs.toNat)
    {payload : Payload} {line : Option LineId}
    (huncovered : q.state = .gap →
      uncovered c q = [] ∨ ∃ x ∈ uncovered c q, since x ≤ q.gapSinceNs)
    (hs : Sound c (q.deliverNow c q.expected payload nowNs line))
    (hgap : (q.deliverNow c q.expected payload nowNs line).state = .gap) :
    Old c (q.deliverNow c q.expected payload nowNs line)
      (stamp c q (q.deliverNow c q.expected payload nowNs line) since nowNs) := by
  have hheld (x : UInt64) : (q.deliverNow c q.expected payload nowNs line).holds c x = true ↔
      x ∈ uncovered c q := holds_deliverNow h.sound.windowed h.sound.idle payload nowNs line
  have hclock := deliverNow_gap hgap
  generalize q.deliverNow c q.expected payload nowNs line = q' at hs hgap hheld hclock
  have hbefore {x : UInt64} (hx : x ∈ uncovered c q) : q.holds c x = true :=
    ((mem_uncovered h.sound.windowed).mp hx).1
  obtain ⟨x, hx⟩ : ∃ x, q'.holds c x = true := by
    by_contra hnone
    simp only [not_exists, Bool.not_eq_true] at hnone
    exact hs.open_held (Or.inl hgap) (hs.windowed.pending_eq_zero_iff.mpr hnone)
  have hx' := (hheld x).mp hx
  rcases hclock with ⟨hopen, hclock⟩ | hclock
  · rcases huncovered hopen with hnone | ⟨y, hy, hsince⟩
    · rw [hnone] at hx'
      exact absurd hx' List.not_mem_nil
    · exact Old.kept (hbefore hy) ((hheld y).mpr hy) (hclock ▸ hsince)
  · -- the clock starts again, and nothing is younger than that
    refine Old.kept (hbefore hx') hx ?_
    rw [hclock, UInt64.le_iff_toNat_le]
    exact Nat.le_trans (h.aged x (hbefore hx')) hnow

/-- One message: it goes `Stale`, or is delivered, or waits. -/
theorem Opened.ingestStarted (h : Opened c q since last) (hs : q.started = true)
    (hcap : c.capacity < 2 ^ 64) (hnow : last ≤ nowNs.toNat) {seq : UInt64}
    (huncovered : q.state = .gap → seq = q.expected →
      uncovered c q = [] ∨ ∃ x ∈ uncovered c q, since x ≤ q.gapSinceNs)
    (payload : Payload) (line : Option LineId) :
    Opened c (q.ingestStarted c seq payload nowNs line).2
      (stamp c q (q.ingestStarted c seq payload nowNs line).2 since nowNs) nowNs.toNat := by
  have hsound := h.sound.ingestStarted hs hcap seq payload nowNs line
  refine ⟨hsound, h.aged_step hnow, fun hgap => ?_⟩
  have hcases := ingestStarted_cases h.sound seq payload nowNs line
  generalize (q.ingestStarted c seq payload nowNs line).2 = q' at hgap hsound hcases
  rcases hcases with hstale | ⟨heq, rfl⟩ | hwaits
  · rw [hstale] at hgap
    exact absurd hgap (by simp)
  · exact h.delivered hnow (fun hopen => huncovered hopen heq) hsound hgap
  · exact h.waits hwaits hgap

/-- What the stream does not see keeps the ages and, if it keeps the clock, all of it. -/
theorem Opened.quiet (h : Opened c q since last) (hq : Quiet q q') (hs : q'.state = q.state)
    (hclock : q'.gapSinceNs = q.gapSinceNs) : Opened c q' since last where
  sound := h.sound.quiet_state hq hs
  aged := fun x hx => h.aged x ((hq.holds x).symm.trans hx)
  old := by
    intro hgap
    obtain ⟨x, hx, hsince⟩ := h.old (hs ▸ hgap)
    exact ⟨x, (hq.holds x).trans hx, hclock ▸ hsince⟩

/-- The implicit reset has nothing held to age. -/
theorem opened_joined (h : Opened c q since last) (call : Call) :
    Opened c (joined q call) since last where
  sound := joined_sound h.sound call
  aged := fun x hx => h.aged x ((holds_joined h.sound call x).1.symm.trans hx)
  old := by
    unfold joined
    split
    · split
      · exact h.old
      · exact fun hgap => absurd hgap (by simp [reset, clearRecovery])
    · exact h.old

/-- A poll that stays in `Gap` does nothing. -/
theorem poll_gap (h : (q.poll c nowNs).2.state = .gap) : (q.poll c nowNs).2 = q := by
  unfold poll at h ⊢
  cases hstate : q.state with
  | synced => rfl
  | gap =>
    simp only [hstate] at h ⊢
    split at h
    · rename_i hwait
      rw [if_pos hwait]
    · exact absurd h (by simp [issueRequest])
  | recovering =>
    simp only [hstate] at h ⊢
    split at h
    · rename_i hwait
      rw [if_pos hwait]
    · split at h
      · exact absurd h (by simp [enterStale, clearRecovery])
      · exact absurd h (by simp [issueRequest])
  | stale =>
    have hskip : (q.skipHole c).state = .stale := (Frame.skipTo _ _).state.trans hstate
    simp only [hstate] at h ⊢
    split at h
    · exact absurd (hskip.symm.trans h) (by simp)
    · rename_i hwait
      rw [if_neg hwait]

/-- The ages are those of the state the call found. -/
theorem stamp_joined (h : Sound c q) (call : Call) :
    stamp c (joined q call) q' since nowNs = stamp c q q' since nowNs := by
  funext x
  unfold stamp
  rw [(holds_joined h call x).1]

/-- Bookkeeping after the message changes no age. -/
theorem stamp_quiet {q'' : Sequencer} (hq : Quiet q' q'') :
    stamp c q q'' since nowNs = stamp c q q' since nowNs := by
  funext x
  unfold stamp
  rw [hq.holds]

/-- The state a call works on is in `Gap` only if it has been started. -/
theorem joined_gap {call : Call} (hgap : (joined q call).state = .gap) : joined q call = q := by
  unfold joined at hgap ⊢
  split at hgap
  · split at hgap
    · rename_i hs; exact if_pos hs
    · exact absurd hgap (by simp [reset, clearRecovery])
  · rfl

/-- Nor does it touch the clock of the hole. -/
theorem onRetransmit_clock (q : Sequencer) (seq : UInt64) (payload : Payload) (nowNs : UInt64) :
    (q.onRetransmit c seq payload nowNs).gapSinceNs
      = (q.ingest c seq payload nowNs none).2.gapSinceNs := by
  unfold onRetransmit
  simp only
  split
  · split <;> rfl
  · rfl

/-- **A timely call** keeps the clock of the front hole older than something held. -/
theorem Opened.exec (h : Opened c q since last) (hcap : c.capacity < 2 ^ 64) (call : Call)
    (hnow : last ≤ call.nowNs.toNat) (ht : Timed.Timely c { q := q, since := since } call) :
    Opened c (exec c q call) (stamp c q (exec c q call) since call.nowNs) call.nowNs.toNat := by
  have hj := opened_joined h call
  -- timeliness is about the state the call found, and that is the one it works on
  have huncovered {d : Delivery} (hd : carried call = some d) :
      (joined q call).state = .gap → d.1 = (joined q call).expected →
        uncovered c (joined q call) = [] ∨
          ∃ x ∈ uncovered c (joined q call), since x ≤ (joined q call).gapSinceNs := by
    intro hgap
    have hsame := joined_gap hgap
    rw [hsame] at hgap ⊢
    exact (ht hgap).1 d hd
  rw [← stamp_joined h.sound call]
  cases call with
  | message line seq payload nowNs =>
    have hingest : q.ingest c seq payload nowNs (some line) = _ :=
      ingest_eq q (.message line seq payload nowNs) rfl nowNs (some line)
    rw [Sequencer.exec, onMessage, hingest]
    exact hj.ingestStarted (joined_started q _ rfl) hcap hnow (huncovered rfl) payload (some line)
  | retransmit seq payload nowNs =>
    have hingest : q.ingest c seq payload nowNs none = _ :=
      ingest_eq q (.retransmit seq payload nowNs) rfl nowNs none
    obtain ⟨hq, hstate⟩ := onRetransmit_quiet (c := c) q seq payload nowNs
    have hclock := onRetransmit_clock (c := c) q seq payload nowNs
    rw [hingest] at hq hstate hclock
    have hstep := hj.ingestStarted (joined_started q (.retransmit seq payload nowNs) rfl)
      hcap hnow (huncovered rfl) payload none
    show Opened c (q.onRetransmit c seq payload nowNs) (stamp c _ _ since nowNs) nowNs.toNat
    rw [Sequencer.exec, stamp_quiet hq]
    exact hstep.quiet hq hstate hclock
  | poll nowNs =>
    refine ⟨h.sound.poll nowNs, hj.aged_step hnow, fun hgap => ?_⟩
    have hsame : Sequencer.exec c q (.poll nowNs) = q := poll_gap hgap
    rw [hsame] at hgap ⊢
    obtain ⟨x, hx, hsince⟩ := h.old hgap
    exact Old.kept hx hx hsince

/-- **A poll in `Gap`** asks only once the grace is over or the window is three quarters full. -/
theorem Opened.patient (h : Opened c q since last) (hcap : c.capacity ≤ 2 ^ 62) (call : Call)
    (ht : Timed.Timely c { q := q, since := since } call) :
    Timed.Patient c { q := q, since := since } call := by
  intro hpoll hgap hasks
  obtain ⟨-, hwrap⟩ := ht hgap
  have hocc := h.sound.windowed.pending
  have hfull : q.window.occupied c.capacity ≤ c.capacity := SlotRing.occupied_le
  -- the deadline of the grace does not wrap, so it is what it says
  have hdeadline : (q.gapSinceNs + c.gapGraceNs).toNat
      = q.gapSinceNs.toNat + c.gapGraceNs.toNat := by
    rw [UInt64.toNat_add, Nat.mod_eq_of_lt (hwrap hpoll)]
  simp only at hgap hasks ⊢
  rw [poll, hgap] at hasks
  simp only at hasks
  split at hasks
  · exact absurd rfl hasks
  · rename_i hready
    by_cases hpressure : q.underPressure c = true
    · refine Or.inl ?_
      simp only [underPressure, decide_eq_true_eq, UInt64.le_iff_toNat_le, UInt64.toNat_mul,
        UInt64.toNat_ofNat', show (3 : UInt64).toNat = 3 from rfl,
        show (4 : UInt64).toNat = 4 from rfl] at hpressure
      rw [Nat.mod_eq_of_lt (a := c.capacity) (by omega), Nat.mod_eq_of_lt (by omega), hocc]
        at hpressure
      have hle := Nat.mod_le (q.window.occupied c.capacity * 4) (2 ^ 64)
      show 3 * c.capacity ≤ 4 * q.window.occupied c.capacity
      omega
    · refine Or.inr ?_
      obtain ⟨x, hx, hsince⟩ := h.old hgap
      refine ⟨x, (mem_heldSeqs h.sound.windowed).mpr hx, ?_⟩
      have hlate : ¬ call.nowNs < q.gapSinceNs + c.gapGraceNs :=
        fun hlt => hready ⟨by simpa using hpressure, hlt⟩
      rw [UInt64.lt_iff_toNat_lt, hdeadline] at hlate
      rw [UInt64.le_iff_toNat_le] at hsince
      omega

/-- A run of timely calls is patient, by one of them after the other. -/
theorem patient_along (hcap : c.capacity ≤ 2 ^ 62) : ∀ (calls : List Call) (w : Timed) (last : ℕ),
    Opened c w.q w.since last → (∀ call ∈ calls, last ≤ call.nowNs.toNat) →
    calls.Pairwise (fun call call' => call.nowNs ≤ call'.nowNs) →
    Trace.Along (Timed.step c) (Timed.Timely c) w calls →
    Trace.Along (Timed.step c) (Timed.Patient c) w calls := by
  intro calls
  induction calls with
  | nil => exact fun _ _ _ _ _ _ => trivial
  | cons call calls ih =>
    intro w last h hlast htimes ht
    obtain ⟨hfirst, htimes⟩ := List.pairwise_cons.mp htimes
    have hstep := h.exec (by omega) call (hlast call List.mem_cons_self) ht.1
    exact ⟨h.patient hcap call ht.1, ih (w.step c call) _ hstep
      (fun call' hmem => UInt64.le_iff_toNat_le.mp (hfirst call' hmem)) htimes ht.2⟩

end Opened

/-! ## The result -/

/-- **Every hole gets its own grace**, in every run from a new sequencer or an explicit reset with
a clock that does not go back, as long as every call is timely. -/
theorem own_grace (c : SequencerConfig) (hcap : c.capacity ≤ 2 ^ 62) (p : Sequencer)
    (hp : p = fresh c ∨ ∃ s first, p = restart s first) (calls : List Call)
    (htimes : calls.Pairwise fun call call' => call.nowNs ≤ call'.nowNs)
    (hcalls : Trace.Along (Timed.step c) (Timed.Timely c) { q := p } calls) :
    Trace.Along (Timed.step c) (Timed.Patient c) { q := p } calls := by
  have hopened : Opened c p (fun _ => 0) 0 := by
    rcases hp with rfl | ⟨s, first, rfl⟩
    · exact ⟨sound_fresh, fun _ _ => Nat.le_refl 0, fun hgap => absurd hgap (by simp [fresh])⟩
    · exact ⟨sound_reset _ first, fun _ _ => Nat.le_refl 0,
        fun hgap => absurd hgap (by simp [restart, reset, clearRecovery])⟩
  exact patient_along hcap calls { q := p } 0 hopened (fun _ _ => Nat.zero_le _) htimes hcalls

/-- A grace of 500 and a window of eight. -/
def shortGrace : SequencerConfig := { reorderWindow := 8, gapGraceNs := 500 }

/-- Two holes open one after the other, and a late copy of the first. -/
def twoHoles : List Call :=
  [.message .a 1 [1] 0, .message .a 3 [3] 100, .message .a 5 [5] 400, .message .b 2 [2] 450,
    .poll 600]

/-- **A late copy hands its hole's clock on**: the second hole is asked for at 600, although the
message behind it was buffered only at 400. -/
theorem impatient_lateCopy :
    (twoHoles.Pairwise fun call call' => call.nowNs ≤ call'.nowNs) ∧
      ¬ Trace.Along (Timed.step shortGrace) (Timed.Patient shortGrace) { q := fresh shortGrace }
        twoHoles := by
  decide

/-- Where the hole was there from the start, the copy hands on what is due. -/
def holesAtOnce : List Call :=
  [.message .a 1 [1] 0, .message .a 3 [3] 100, .message .a 5 [5] 100, .message .b 2 [2] 450,
    .poll 600]

/-- And no request goes out early. -/
theorem own_grace_holesAtOnce :
    Trace.Along (Timed.step shortGrace) (Timed.Patient shortGrace) { q := fresh shortGrace }
      holesAtOnce :=
  own_grace shortGrace (by decide) (fresh shortGrace) (Or.inl rfl) holesAtOnce (by decide)
    (by decide)

end Sequencer
end Tickerplant
