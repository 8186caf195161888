import Tickerplant.Receiver.Basic
import Tickerplant.Sequencer.Grace
import Tickerplant.Sequencer.Requests

/-!
# A hole that is filled from the front

What a server sends back for a request starts at the front, and goes on from there without leaving
anything out. `Answered` says what such an answer does, message by message: what was held is
released or stays held, nothing else comes to be held, nothing is given up on, and a request left
outstanding is the one that was.

A hole takes as many requests as it takes answers to fill it, and `max_recovery_attempts` is the
most there may be of them. `Mending` is what a feed keeps while a server answers: every run of
missing sequences is one that the attempts left for it suffice for. `Mending.round` takes one
request and its answer.

Only a new hole gets its attempts back, so the width of a hole has to be measured where it opens:
at the front it is bounded by the attempts that are left, and everywhere else by all of them. The
measure is how far it is to the next sequence held, which an answer can only shorten.

The clocks come in twice. Every message of an answer that is taken restarts the deadline, and a
hole that opens behind the one that was filled starts a clock of its own; so after an answer the
next request waits for clocks that were started with the answer (`Rearmed`), and no turn before
that asks for anything.
-/

set_option autoImplicit false

namespace Tickerplant
namespace Sequencer

open Lib

variable {c : SequencerConfig} {q q' q'' : Sequencer} {nowNs : UInt64} {b : ℕ}

/-! ## Answers, message by message -/

/-- Everything held is below `b`, and the front is there at most. -/
structure Below (c : SequencerConfig) (b : ℕ) (q : Sequencer) : Prop where
  /-- The window says what it holds. -/
  ok : Ok c q
  not_stale : q.state ≠ .stale
  /-- There is an end to what waits. -/
  held : ∀ x, q.holds c x = true → x.toNat < b
  /-- Past it there is nothing to wait for. -/
  front : q.expected.toNat ≤ b

/-- What was sent back for a request, as far as it has been taken. -/
structure Answered (c : SequencerConfig) (q q' : Sequencer) : Prop where
  /-- The front moves forward. -/
  expected : q.expected ≤ q'.expected
  /-- Nothing new comes to be held, since an answer leaves nothing out. -/
  held : ∀ x, q'.holds c x = true → q.holds c x = true
  /-- What was held waits on, or has been let through. -/
  settled : ∀ x, q.holds c x = true → x < q'.expected ∨ q'.holds c x = true
  dropped : q'.stats.messagesDropped = q.stats.messagesDropped
  /-- A request that is left outstanding is not filled. -/
  kept : Kept q q'

/-- The clocks that the next request waits for were started at `nowNs`. -/
structure Rearmed (c : SequencerConfig) (nowNs : UInt64) (q : Sequencer) : Prop where
  /-- A hole that has just opened has its grace from now. -/
  gap : q.state = .gap → q.gapSinceNs = nowNs
  /-- A request that goes on has its time-out from now. -/
  recovering : q.state = .recovering → q.recoveryDeadlineNs = nowNs + c.recoveryTimeoutNs

/-- Nothing was done to the request. -/
theorem Kept.refl (q : Sequencer) : Kept q q :=
  ⟨id, id, fun _ => rfl, fun _ => rfl, fun _ => .inl rfl⟩

/-- One step after the other. -/
theorem Kept.trans (h : Kept q q') (h' : Kept q' q'') : Kept q q'' where
  not_stale := fun hs => h'.not_stale (h.not_stale hs)
  state := fun hs => h.state (h'.state hs)
  recoveryEnd := fun hs => (h'.recoveryEnd hs).trans (h.recoveryEnd (h'.state hs))
  attempts := fun hs => (h'.attempts hs).trans (h.attempts (h'.state hs))
  unfilled := by
    intro hs
    rcases h'.unfilled hs with heq | hlt
    · rw [heq, h'.recoveryEnd hs]
      exact h.unfilled (h'.state hs)
    · exact .inr hlt

/-- No answer yet. -/
theorem Answered.refl (q : Sequencer) : Answered c q q :=
  ⟨UInt64.le_refl _, fun _ h => h, fun _ h => .inr h, rfl, .refl q⟩

/-- One part of the answer after the other. -/
theorem Answered.trans (h : Answered c q q') (h' : Answered c q' q'') : Answered c q q'' where
  expected := UInt64.le_trans h.expected h'.expected
  held := fun x hx => h.held x (h'.held x hx)
  settled := by
    intro x hx
    rcases h.settled x hx with hlt | hx'
    · exact .inl (UInt64.lt_of_lt_of_le hlt h'.expected)
    · exact h'.settled x hx'
  dropped := h'.dropped.trans h.dropped
  kept := h.kept.trans h'.kept

/-- A message at the front lets out what was stacked up behind it, and takes nothing in. -/
theorem holds_of_delivered {payload : Payload} {line : Option LineId} {x : UInt64}
    (h : (delivered c q payload line).holds c x = true) : q.holds c x = true := by
  have hbefore := holds_of_drain h
  rwa [← (creditLine_quiet q line).holds]

/-- Letting out what was stacked up stops below the end of what was held. -/
theorem delivered_le (h : Below c b q) (hlt : q.expected.toNat < b) (hf : Far c q.expected)
    (payload : Payload) (line : Option LineId) :
    (delivered c q payload line).expected.toNat ≤ b := by
  have hq := creditLine_quiet q line
  have hw := (hq.windowOk h.ok.window).handFront (by rw [hq.holds, hq.expected]; exact h.ok.idle)
    (by rw [hq.expected]; exact hf) payload
  rw [hq.expected] at hw
  have hc := c.capacity_pos
  unfold Far at hf
  unfold delivered
  refine drain_expected_le hw (fun x hx => h.held x ?_) ?_
  · rwa [← hq.holds]
  · show (q.expected + 1).toNat ≤ b
    rw [toNat_succ (by omega)]
    omega

/-- The one thing `on_retransmit` does to the clocks by itself. -/
theorem onRetransmit_clocks (q : Sequencer) (seq : UInt64) (payload : Payload) (nowNs : UInt64) :
    (q.onRetransmit c seq payload nowNs).gapSinceNs =
        (q.ingest c seq payload nowNs none).2.gapSinceNs ∧
      (q.onRetransmit c seq payload nowNs).recoveryEnd =
        (q.ingest c seq payload nowNs none).2.recoveryEnd ∧
      (q.onRetransmit c seq payload nowNs).recoveryAttempts =
        (q.ingest c seq payload nowNs none).2.recoveryAttempts ∧
      ((q.ingest c seq payload nowNs none).1 = true →
        (q.onRetransmit c seq payload nowNs).state = .recovering →
        (q.onRetransmit c seq payload nowNs).recoveryDeadlineNs = nowNs + c.recoveryTimeoutNs) ∧
      ((q.ingest c seq payload nowNs none).1 = false →
        q.onRetransmit c seq payload nowNs = (q.ingest c seq payload nowNs none).2) := by
  unfold onRetransmit
  simp only
  cases (q.ingest c seq payload nowNs none).1 with
  | false => exact ⟨rfl, rfl, rfl, fun h => absurd h (by simp), fun _ => rfl⟩
  | true =>
    simp only [if_true]
    split
    · exact ⟨rfl, rfl, rfl, fun _ _ => rfl, fun h => absurd h (by simp)⟩
    · rename_i hno
      exact ⟨rfl, rfl, rfl, fun _ h => absurd h hno, fun h => absurd h (by simp)⟩

/-- `on_retransmit` does to the state machine what `ingest` does. -/
theorem onRetransmit_kept (hs : q.started = true) {seq : UInt64} (hw : Within c q seq)
    (payload : Payload) : Kept q (q.onRetransmit c seq payload nowNs) := by
  have hkept := @ingest_kept c q seq payload nowNs none hs hw
  obtain ⟨-, hend, hattempts, -, -⟩ := onRetransmit_clocks (c := c) q seq payload nowNs
  obtain ⟨hquiet, hstate⟩ := onRetransmit_quiet (c := c) q seq payload nowNs
  refine ⟨fun h => ?_, fun h => ?_, fun h => ?_, fun h => ?_, fun h => ?_⟩ <;> rw [hstate] at *
  · exact hkept.not_stale h
  · exact hkept.state h
  · exact hend.trans (hkept.recoveryEnd h)
  · exact hattempts.trans (hkept.attempts h)
  · rw [hend, hquiet.expected]
    exact hkept.unfilled h

/-- A copy of something past changes nothing but the count of copies. -/
theorem copy_answered (h : Below c b q) {seq : UInt64} (hlt : seq < q.expected)
    (payload : Payload) (nowNs : UInt64) :
    Below c b (q.onRetransmit c seq payload nowNs) ∧
      Answered c q (q.onRetransmit c seq payload nowNs) ∧
      (q.onRetransmit c seq payload nowNs).expected = q.expected ∧
      (Rearmed c nowNs q → Rearmed c nowNs (q.onRetransmit c seq payload nowNs)) := by
  have hcount := countDuplicate_quiet q
  have hsame : q.onRetransmit c seq payload nowNs = q.countDuplicate := by
    unfold onRetransmit ingest
    rw [if_pos h.ok.started]
    unfold ingestStarted
    rw [if_pos hlt]
    rfl
  rw [hsame]
  exact ⟨⟨h.ok.quiet hcount h.ok.open_held h.ok.synced_empty, h.not_stale, h.held, h.front⟩,
    ⟨UInt64.le_refl _, fun _ hx => hx, fun _ hx => .inr hx, rfl,
      ⟨id, id, fun _ => rfl, fun _ => rfl, fun _ => .inl rfl⟩⟩, rfl,
    fun hr => ⟨hr.gap, hr.recovering⟩⟩

/-- The message at the front. -/
theorem front_answered (h : Below c b q) (hlt : q.expected.toNat < b)
    (hfar : b + c.capacity ≤ 2 ^ 64) (payload : Payload) (nowNs : UInt64) :
    Below c b (q.onRetransmit c q.expected payload nowNs) ∧
      Answered c q (q.onRetransmit c q.expected payload nowNs) ∧
      q.expected < (q.onRetransmit c q.expected payload nowNs).expected ∧
      (Rearmed c nowNs q ∨ q.state = .recovering →
        Rearmed c nowNs (q.onRetransmit c q.expected payload nowNs)) := by
  have hf : Far c q.expected := by
    unfold Far
    omega
  have hc := c.capacity_pos
  have hwithin : Within c q q.expected := Nat.lt_add_of_pos_right hc
  have hkept := @onRetransmit_kept c q nowNs h.ok.started q.expected hwithin payload
  obtain ⟨hgap, -, -, hdeadline, -⟩ := onRetransmit_clocks (c := c) q q.expected payload nowNs
  obtain ⟨hquiet, hstate⟩ := onRetransmit_quiet (c := c) q q.expected payload nowNs
  have heq : q.ingest c q.expected payload nowNs none =
      (true, (delivered c q payload none).settle nowNs) := by
    rw [← deliverNow_eq]
    rcases @ingest_within c q q.expected payload nowNs none h.ok.started hwithin with
      ⟨hpast | hheld, -⟩ | ⟨-, heq⟩ | ⟨hgt, -, -⟩
    · exact absurd hpast (UInt64.lt_irrefl _)
    · exact absurd (h.ok.idle.symm.trans hheld) (by simp)
    · exact heq
    · exact absurd hgt (UInt64.lt_irrefl _)
  rw [heq] at hgap hdeadline hquiet hstate
  have hsettle := settle_quiet (delivered c q payload none) nowNs
  obtain ⟨-, hdropped, -⟩ := delivered_spec h.ok.window h.ok.idle hf payload none [] 0
  have hframe := Frame.drain (c := c)
    ({ q.hand q.expected payload with expected := q.expected + 1 } : Sequencer)
  obtain ⟨k, new, hmoves, -, -⟩ := @exec_moves c q h.ok (.retransmit q.expected payload nowNs) hf
  have hexpected : (q.onRetransmit c q.expected payload nowNs).expected =
      (delivered c q payload none).expected := hquiet.expected.trans hsettle.expected
  have hholds : ∀ x, (q.onRetransmit c q.expected payload nowNs).holds c x = true →
      q.holds c x = true := by
    intro x hx
    rw [hquiet.holds, hsettle.holds] at hx
    exact holds_of_delivered hx
  have hwide : tooWide c q q.expected payload = false := by
    simp [tooWide, early]
  -- the message is dealt with, and it was not held, so the front is past it
  have hpast : q.expected < (q.onRetransmit c q.expected payload nowNs).expected := by
    rcases @ingest_settles c q q.expected payload nowNs none h.ok hf hwithin hwide
      with hpast | hheld
    · rwa [heq, ← hquiet.expected] at hpast
    · rw [heq, ← hquiet.holds] at hheld
      exact absurd (h.ok.idle.symm.trans (hholds _ hheld)) (by simp)
  refine ⟨⟨hmoves.ok, hkept.not_stale h.not_stale, fun x hx => h.held x (hholds x hx), ?_⟩,
    ⟨hmoves.expected_le, hholds, fun x hx => hmoves.settled (.inr hx), ?_, hkept⟩, hpast, ?_⟩
  · rw [hexpected]
    exact delivered_le h hlt hf payload none
  · exact hquiet.dropped.trans (hsettle.dropped.trans hdropped)
  · intro hopen
    refine ⟨fun hs => ?_, hdeadline rfl⟩
    rw [hstate] at hs
    rw [hgap]
    rcases settle_gap _ nowNs hs with ⟨hbefore, hsince⟩ | hnow
    · rw [(delivered_state payload none).1] at hbefore
      rcases hopen with hr | hrec
      · exact (hsince.trans hframe.gapSinceNs).trans (hr.gap hbefore)
      · exact absurd (hrec.symm.trans hbefore) (by simp)
    · exact hnow

/-- **An answer**: messages that start at the front or before it, and leave nothing out. -/
theorem answer_answered (hfar : b + c.capacity ≤ 2 ^ 64) (nowNs : UInt64) (ms : List Payload) :
    ∀ (s : UInt64) (q : Sequencer), Below c b q → s ≤ q.expected → s.toNat + ms.length ≤ b →
      Below c b (run c q ((numbered s ms).map fun d => .retransmit d.1 d.2 nowNs)) ∧
        Answered c q (run c q ((numbered s ms).map fun d => .retransmit d.1 d.2 nowNs)) ∧
        s.toNat + ms.length ≤
          (run c q ((numbered s ms).map fun d => .retransmit d.1 d.2 nowNs)).expected.toNat ∧
        (Rearmed c nowNs q →
          Rearmed c nowNs (run c q ((numbered s ms).map fun d => .retransmit d.1 d.2 nowNs))) := by
  induction ms with
  | nil => exact fun s q h hle _ => ⟨h, .refl q, UInt64.le_iff_toNat_le.mp hle, id⟩
  | cons m ms ih =>
    intro s q h hle hlen
    rw [List.length_cons] at hlen ⊢
    have hc := c.capacity_pos
    have hnext : (s + 1).toNat = s.toNat + 1 := toNat_succ (by omega)
    -- a copy, or the front
    obtain ⟨hbelow, hans, hpast, hrearm⟩ : Below c b (q.onRetransmit c s m nowNs) ∧
        Answered c q (q.onRetransmit c s m nowNs) ∧
        s + 1 ≤ (q.onRetransmit c s m nowNs).expected ∧
        (Rearmed c nowNs q → Rearmed c nowNs (q.onRetransmit c s m nowNs)) := by
      rw [UInt64.le_iff_toNat_le, hnext]
      by_cases hlt : s < q.expected
      · obtain ⟨hbelow, hans, hexp, hrearm⟩ := copy_answered h hlt m nowNs
        rw [hexp]
        exact ⟨hbelow, hans, UInt64.lt_iff_toNat_lt.mp hlt, hrearm⟩
      · obtain rfl : s = q.expected := UInt64.le_antisymm hle (UInt64.not_lt.mp hlt)
        obtain ⟨hbelow, hans, hexp, hrearm⟩ := front_answered h (by omega) hfar m nowNs
        exact ⟨hbelow, hans, UInt64.lt_iff_toNat_lt.mp hexp, fun hr => hrearm (.inl hr)⟩
    obtain ⟨hbelow', hans', hpast', hrearm'⟩ := ih (s + 1) _ hbelow hpast (by omega)
    rw [hnext, Nat.add_right_comm] at hpast'
    exact ⟨hbelow', hans.trans hans', hpast', fun hr => hrearm' (hrearm hr)⟩

/-- The first message of an answer to an outstanding request is the front, and starts the
clocks. -/
theorem answer_rearmed (hfar : b + c.capacity ≤ 2 ^ 64) (nowNs : UInt64) {ms : List Payload}
    (hms : ms ≠ []) (h : Below c b q) (hrec : q.state = .recovering)
    (hlen : q.expected.toNat + ms.length ≤ b) :
    Rearmed c nowNs (run c q ((numbered q.expected ms).map fun d =>
      .retransmit d.1 d.2 nowNs)) := by
  cases ms with
  | nil => exact absurd rfl hms
  | cons m ms =>
    rw [List.length_cons] at hlen
    have hc := c.capacity_pos
    have hnext : (q.expected + 1).toNat = q.expected.toNat + 1 := toNat_succ (by omega)
    obtain ⟨hbelow, -, hexp, hrearm⟩ := front_answered h (by omega) hfar m nowNs
    refine (answer_answered hfar nowNs ms (q.expected + 1) _ hbelow ?_ (by omega)).2.2.2
      (hrearm (.inr hrec))
    rw [UInt64.le_iff_toNat_le, hnext]
    exact UInt64.lt_iff_toNat_lt.mp hexp

/-! ## Requests -/

/-- How many requests there may still be for the hole at the front. -/
def attemptsLeft (c : SequencerConfig) (q : Sequencer) : ℕ :=
  if q.state = .recovering then c.attempts.toNat - q.recoveryAttempts.toNat else c.attempts.toNat

/-- A poll at this time finds the clock of the hole run out. -/
def Due (c : SequencerConfig) (q : Sequencer) (nowNs : UInt64) : Prop :=
  (q.state = .gap → q.gapSinceNs + c.gapGraceNs ≤ nowNs) ∧
    (q.state = .recovering → q.recoveryDeadlineNs ≤ nowNs)

/-- A poll has asked for `r`, the run missing at the front, with one attempt less left. -/
structure Asked (c : SequencerConfig) (q : Sequencer) (r : RetransmitRequest) (q' : Sequencer) :
    Prop where
  /-- There was a hole to ask for. -/
  opened : q.state = .gap ∨ q.state = .recovering
  quiet : Quiet q q'
  /-- It is the one at the front. -/
  first : r.firstSequence = q.expected
  /-- All of it, or as much of it as a count can say. -/
  count : r.count.toNat = min (q.missingRun c) 65535
  state : q'.state = .recovering
  recoveryEnd : q'.recoveryEnd.toNat = q.expected.toNat + r.count.toNat
  /-- There was an attempt left, and now there is one less. -/
  left : attemptsLeft c q' + 1 = attemptsLeft c q

/-- Asking moves nothing: what was held is held, and the front is where it was. -/
theorem Below.asked {r : RetransmitRequest} (h : Below c b q) (ha : Asked c q r q') :
    Below c b q' := by
  refine ⟨h.ok.quiet ha.quiet (fun _ => h.ok.open_held ha.opened) (fun hs => ?_), ?_,
    fun x hx => ?_, ?_⟩
  · exact absurd (ha.state.symm.trans hs) (by simp)
  · rw [ha.state]
    simp
  · exact h.held x (by rwa [← ha.quiet.holds])
  · rw [ha.quiet.expected]
    exact h.front

/-- Nothing is held before the end of the run that is missing at the front. -/
theorem missingRun_le_of_holds (h : Windowed c q) (hp : q.pending ≠ 0) {x : UInt64}
    (hx : q.holds c x = true) : q.expected.toNat + q.missingRun c ≤ x.toNat := by
  obtain ⟨-, -, hmissing⟩ := missingRun_spec h hp
  have hx64 := x.toNat_lt
  have hfront := h.ge_of_holds hx
  by_contra hlt
  have hno := hmissing (x.toNat - q.expected.toNat) (by omega)
  have hat : q.expected + UInt64.ofNat (x.toNat - q.expected.toNat) = x := by
    refine UInt64.toNat_inj.mp ?_
    rw [toNat_add_ofNat (by omega)]
    omega
  rw [hat, hx] at hno
  exact absurd hno (by simp)

/-! ## A feed that is being mended -/

/-- `has` is what the server has, and `w` how many messages it has room for in an answer. Up to
`top`, the last sequence held, it has all that is missing, and none of the runs that are missing
is wider than the answers there may still be for it. -/
structure Mending (c : SequencerConfig) (w : ℕ) (has : UInt64 → Prop) (top : UInt64)
    (q : Sequencer) : Prop where
  /-- Nothing waits beyond `top`. -/
  below : Below c (top.toNat + 1) q
  /-- `top` itself waits, or has been let through. -/
  last : top < q.expected ∨ q.holds c top = true
  /-- Whatever is missing, the server still has. -/
  stocked : ∀ x, q.expected ≤ x → x ≤ top → q.holds c x = false → has x
  /-- From anywhere in a hole it is not far to the next sequence held. -/
  narrow : ∀ s, q.expected ≤ s → s ≤ top → ∃ x, q.holds c x = true ∧ s ≤ x ∧
    x.toNat ≤ s.toNat + w * c.attempts.toNat
  /-- At the front the attempts that were used count. -/
  front : q.state = .recovering → ∃ x, q.holds c x = true ∧
    x.toNat ≤ q.expected.toNat + w * attemptsLeft c q

namespace Mending

variable {w : ℕ} {has : UInt64 → Prop} {top : UInt64} {r : RetransmitRequest}

/-- Everything held is up to `top`. -/
theorem le_top (h : Mending c w has top q) {x : UInt64} (hx : q.holds c x = true) : x ≤ top := by
  have hlt := h.below.held x hx
  rw [UInt64.le_iff_toNat_le]
  omega

/-- The hole at the front is no wider than the answers left for it. -/
theorem reach (h : Mending c w has top q) (hopen : q.state = .gap ∨ q.state = .recovering) :
    ∃ x, q.holds c x = true ∧ x.toNat ≤ q.expected.toNat + w * attemptsLeft c q := by
  rcases hopen with hgap | hrec
  · obtain ⟨-, hheld, -⟩ := missingRun_spec h.below.ok.window.windowed
      (h.below.ok.open_held (.inl hgap))
    have hge := h.below.ok.window.windowed.ge_of_holds hheld
    have hle := h.le_top hheld
    obtain ⟨x, hx, -, hreach⟩ := h.narrow q.expected (UInt64.le_refl _)
      (UInt64.le_trans (UInt64.le_iff_toNat_le.mpr hge) hle)
    refine ⟨x, hx, ?_⟩
    rwa [attemptsLeft, if_neg (by rw [hgap]; decide)]
  · exact h.front hrec

/-- What a request asks for ends below the last sequence held, and the server has all of it. -/
theorem asked (h : Mending c w has top q) {q' : Sequencer} (ha : Asked c q r q') :
    1 ≤ r.count.toNat ∧ q.expected.toNat + r.count.toNat ≤ top.toNat ∧
      ∀ i < r.count.toNat, has (r.firstSequence + UInt64.ofNat i) := by
  have hok := h.below.ok
  obtain ⟨hrun, hheld, hmissing⟩ := missingRun_spec hok.window.windowed (hok.open_held ha.opened)
  have hfront := hok.window.front
  have hle := UInt64.le_iff_toNat_le.mp (h.le_top hheld)
  rw [toNat_add_ofNat (by omega)] at hle
  have hcount := ha.count
  have hpos : 0 < q.missingRun c := by
    by_contra hzero
    obtain hzero : q.missingRun c = 0 := by omega
    rw [hzero] at hheld
    have hidle := hok.idle
    simp [hidle] at hheld
  refine ⟨by omega, by omega, fun i hi => ?_⟩
  have hat : (q.expected + UInt64.ofNat i).toNat = q.expected.toNat + i :=
    toNat_add_ofNat (by omega)
  rw [ha.first]
  refine h.stocked _ ?_ ?_ (hmissing i (by omega))
  · rw [UInt64.le_iff_toNat_le, hat]
    omega
  · rw [UInt64.le_iff_toNat_le, hat]
    omega

/-- **One request and its answer** leave the front further on, and the rest as it has to be for
the next one. -/
theorem round (h : Mending c w has top q) (hfar : Far c top) (hw : 1 ≤ w) {p : Sequencer}
    (ha : Asked c q r p) {ms : List Payload} (hmost : ms.length ≤ r.count.toNat)
    (hleast : min r.count.toNat w ≤ ms.length) (nowNs : UInt64) {q' : Sequencer}
    (hrun : run c p ((numbered r.firstSequence ms).map fun d => .retransmit d.1 d.2 nowNs) = q') :
    Mending c w has top q' ∧ q.expected.toNat < q'.expected.toNat ∧ Rearmed c nowNs q' ∧
      q'.stats.messagesDropped = q.stats.messagesDropped := by
  obtain ⟨hone, hbefore, -⟩ := h.asked ha
  have hok := h.below.ok
  have hheld : ∀ x, p.holds c x = q.holds c x := ha.quiet.holds
  unfold Far at hfar
  have hroom : top.toNat + 1 + c.capacity ≤ 2 ^ 64 := by omega
  have hbelow := h.below.asked ha
  have hms : ms ≠ [] := by
    rintro rfl
    rw [List.length_nil] at hleast
    omega
  rw [ha.first, ← ha.quiet.expected] at hrun
  have hlen : p.expected.toNat + ms.length ≤ top.toNat + 1 := by
    rw [ha.quiet.expected]
    omega
  obtain ⟨hbelow', hans, hpast, -⟩ :=
    answer_answered hroom nowNs ms p.expected p hbelow (UInt64.le_refl _) hlen
  have hrearmed := answer_rearmed hroom nowNs hms hbelow ha.state hlen
  rw [hrun] at hbelow' hans hpast hrearmed
  rw [ha.quiet.expected] at hpast
  have hmono := UInt64.le_iff_toNat_le.mp hans.expected
  rw [ha.quiet.expected] at hmono
  -- what was held is still held unless the front has passed it
  have hstays : ∀ x, q.holds c x = true → q'.expected ≤ x → q'.holds c x = true := by
    intro x hx hge
    rcases hans.settled x (by rwa [hheld]) with hlt | hx'
    · exact absurd hlt (UInt64.not_lt.mpr hge)
    · exact hx'
  have hge : q.expected ≤ q'.expected := UInt64.le_iff_toNat_le.mpr hmono
  refine ⟨⟨hbelow', ?_, fun x hfront hx hno => ?_, fun s hs hle => ?_, fun hrec => ?_⟩, by omega,
    hrearmed, hans.dropped.trans ha.quiet.dropped⟩
  · rcases h.last with hlt | hx
    · exact .inl (UInt64.lt_of_lt_of_le hlt hge)
    · exact hans.settled top (by rwa [hheld])
  · refine h.stocked x (UInt64.le_trans hge hfront) hx ?_
    by_contra hwas
    rw [Bool.not_eq_false] at hwas
    exact absurd (hno.symm.trans (hstays x hwas hfront)) (by simp)
  · obtain ⟨x, hx, hsx, hreach⟩ := h.narrow s (UInt64.le_trans hge hs) hle
    exact ⟨x, hstays x hx (UInt64.le_trans hs hsx), hsx, hreach⟩
  · -- the request is still outstanding, so the answer was a full packet short of the hole
    have hunfilled : q'.expected.toNat < q.expected.toNat + r.count.toNat := by
      rcases hans.kept.unfilled hrec with heq | hlt
      · rw [heq, ha.quiet.expected]
        omega
      · rw [hans.kept.recoveryEnd hrec, UInt64.lt_iff_toNat_lt, ha.recoveryEnd] at hlt
        exact hlt
    obtain ⟨x, hx, hreach⟩ := h.reach ha.opened
    have hbeyond := missingRun_le_of_holds hok.window.windowed (hok.open_held ha.opened) hx
    have hcount := ha.count
    have hleft : attemptsLeft c q' = attemptsLeft c p := by
      unfold attemptsLeft
      rw [if_pos hrec, if_pos ha.state, hans.kept.attempts hrec]
    have hspent := ha.left
    refine ⟨x, hstays x hx (UInt64.le_iff_toNat_le.mpr (by omega)), ?_⟩
    rw [← hspent, Nat.mul_add, Nat.mul_one] at hreach
    rw [hleft]
    omega

end Mending

end Sequencer
end Tickerplant
