import Tickerplant.Ouch.OrderState

/-!
# A venue and a client on one order

Requests travel one way and reports the other, each direction in order, and neither side waits: a
report may be on its way to the client while a request it knows nothing of is on its way to the
venue. The client feeds what it sends and what it hears to its `ClientOrderState`.

The venue is any that keeps to the protocol. Its state is the number of shares it has working, a
report is possible if it follows from that number (`Report.possible`), and answers are given in the
order of the requests. It may execute and cancel of its own accord at any time.

The state machine has one slot for what is pending, and it forgets: a cancel sent before the
acknowledgement hides that the order is unacknowledged, an execution hides that a replace is
pending, and a cancel answered in part looks pending for ever. `Uncrossed` excludes exactly these,
and a dialogue is without fault exactly as long as its steps are uncrossed.

The proof keeps two things in step. `Tracks` says that the reports on the wire lead, one possible
report after the other, from what the client has heard to what the venue has, so that whatever the
client hears next is possible from where the client is. `InStep` then ties the machine's state to
the last mark and its working shares to what was heard, and with both each handler's answer can be
computed.
-/

set_option autoImplicit false

namespace Tickerplant
namespace Ouch

open Trace

/-! ## The protocol -/

/-- What the client asks for. -/
inductive Request where
  | enter
  | cancel
  | replace
  deriving DecidableEq, Repr

/-- What the venue says of the order. `answers` marks the `Canceled` that answers a request; the
others are the venue's own doing. -/
inductive Report where
  | accepted (shares px : UInt32) (ref : UInt64) (dead : Bool) (ts : UInt64)
  | rejected (ts : UInt64)
  | executed (shares px : UInt32) (ts : UInt64)
  | canceled (decrement : UInt32) (answers : Bool) (ts : UInt64)
  | replaced (t : Token) (shares px : UInt32) (ref : UInt64) (dead : Bool) (ts : UInt64)

/-- The last thing the client sent or heard about the order, a `Canceled` apart. -/
inductive Mark where
  | nothing
  | entered
  | answered
  | executed
  | askedCancel
  | askedReplace
  deriving DecidableEq, Repr

namespace Report

/-- What the client feeds to its state on hearing the report. -/
def event : Report → OrderEvent
  | accepted shares px ref dead ts => .accepted shares px ref dead ts
  | rejected ts => .rejected ts
  | executed shares px ts => .fill shares px ts
  | canceled decrement _ ts => .canceled decrement ts
  | replaced t shares px ref dead ts => .replaced t shares px ref dead ts

/-- The shares the report leaves working; nothing is known of them before the first answer. -/
def left : Report → Option ℕ → Option ℕ
  | accepted shares _ _ dead _, _ => some (if dead then 0 else shares.toNat)
  | rejected _, _ => some 0
  | executed shares _ _, working => working.map (· - shares.toNat)
  | canceled decrement _ _, working => working.map (· - decrement.toNat)
  | replaced _ shares _ _ dead _, _ => some (if dead then 0 else shares.toNat)

/-- What a venue may report of an order with so many shares working: one answer to the order, and
then at most what works. -/
def possible : Report → Option ℕ → Bool
  | accepted shares _ _ dead _, none => dead || decide (shares ≠ 0)
  | rejected _, none => true
  | executed shares _ _, some n => decide (0 < n ∧ shares.toNat ≤ n)
  | canceled decrement _ _, some n => decide (0 < n ∧ decrement.toNat ≤ n)
  | replaced _ shares _ _ dead _, some n => decide (0 < n) && (dead || decide (shares ≠ 0))
  | _, _ => false

/-- Whether the report answers this request. A `Canceled` that answers a replace is terminal. -/
def answer : Report → Option ℕ → Request → Bool
  | accepted .., _, .enter => true
  | rejected _, _, .enter => true
  | canceled _ true _, _, .cancel => true
  | canceled decrement true _, working, .replace => decide (working = some decrement.toNat)
  | replaced .., _, .replace => true
  | _, _, _ => false

/-- The venue's own doing. -/
def unasked : Report → Bool
  | executed .. => true
  | canceled _ answers _ => !answers
  | _ => false

/-- The client's request is outstanding no longer. -/
def settles : Report → Bool
  | canceled _ answers _ => answers
  | replaced .. => true
  | _ => false

/-- The mark after a report. A `Canceled` leaves it, because it leaves the state. -/
def mark : Report → Mark → Mark
  | accepted .., _ => .answered
  | rejected _, _ => .answered
  | executed .., _ => .executed
  | canceled .., m => m
  | replaced .., _ => .answered

end Report

/-- The client with what it knows, the two wires, the oldest first, and the venue. -/
structure Dialogue where
  order : ClientOrderState := {}
  /-- Every call so far returned true. -/
  legal : Bool := true
  /-- The last thing said, as far as the client knows. -/
  latest : Mark := .nothing
  /-- A cancel or a replace has not been answered. -/
  outstanding : Bool := false
  /-- The shares working as far as the client has heard. -/
  left : Option ℕ := none
  /-- On their way to the venue. -/
  requests : List Request := []
  /-- On their way to the client. -/
  reports : List Report := []
  /-- The shares working. -/
  venue : Option ℕ := none

/-- A step of one side: the client sends or hears, the venue reports or drops a request. -/
inductive Act where
  | enter (t : Token) (loc : UInt16) (sd : UInt8) (shares px : UInt32) (ts : UInt64)
  | askCancel (ts : UInt64)
  | askReplace (ts : UInt64)
  | report (r : Report)
  | discard
  | hear

namespace Dialogue

/-- An event goes to the client's state, and the answer is remembered. -/
def feed (w : Dialogue) (e : OrderEvent) : Dialogue :=
  { w with order := (w.order.apply e).1, legal := w.legal && (w.order.apply e).2 }

/-- Nothing outstanding, and the order not known to be dead. -/
def mayAsk (w : Dialogue) : Bool := !w.outstanding && decide (w.left ≠ some 0)

/-- An order may be cancelled once it is sent. -/
def mayCancel (w : Dialogue) : Bool := w.mayAsk && decide (w.latest ≠ .nothing)

/-- An order may be replaced once it is answered. -/
def mayReplace (w : Dialogue) : Bool := w.mayAsk && decide (w.left ≠ none)

/-- The report is possible, and answers the oldest request unless nobody asked for it. -/
def mayReport (w : Dialogue) (r : Report) : Bool :=
  r.possible w.venue && (r.unasked || w.requests.head?.any (r.answer w.venue))

/-- One step of either side. What the protocol does not allow there is no step. -/
def step (w : Dialogue) : Act → Dialogue
  | .enter t loc sd shares px ts =>
    if w.latest = .nothing then
      let w' := w.feed (.sent t loc sd shares px ts)
      { w' with latest := .entered, requests := w.requests ++ [.enter] }
    else w
  | .askCancel ts =>
    if w.mayCancel then
      let w' := w.feed (.cancelSent ts)
      { w' with latest := .askedCancel, outstanding := true, requests := w.requests ++ [.cancel] }
    else w
  | .askReplace ts =>
    if w.mayReplace then
      let w' := w.feed (.replaceSent ts)
      { w' with latest := .askedReplace, outstanding := true, requests := w.requests ++ [.replace] }
    else w
  | .report r =>
    if w.mayReport r then
      { w with
        requests := if r.unasked then w.requests else w.requests.tail
        reports := w.reports ++ [r]
        venue := r.left w.venue }
    else w
  -- a request that reaches a dead order gets no answer
  | .discard => if w.venue = some 0 then { w with requests := w.requests.tail } else w
  | .hear =>
    match w.reports with
    | [] => w
    | r :: rest =>
      let w' := w.feed r.event
      { w' with
        latest := r.mark w.latest
        outstanding := w.outstanding && !r.settles
        left := r.left w.left
        reports := rest }

end Dialogue

/-- Every call returned true, and nothing was counted. -/
structure Faultless (w : Dialogue) : Prop where
  legal : w.legal = true
  illegalTransitions : w.order.illegalTransitions = 0
  orphanFills : w.order.orphanFills = 0
  overfills : w.order.overfills = 0

/-- No acknowledgement comes to a client that has already asked to cancel, no `Replaced` after an
execution that came since the replace was asked for, and nothing is asked for while a cancel was
the last thing said. -/
def Uncrossed (w : Dialogue) : Act → Prop
  | .askCancel _ => w.mayCancel = true → w.latest ≠ .askedCancel ∧ w.latest ≠ .askedReplace
  | .askReplace _ => w.mayReplace = true → w.latest ≠ .askedCancel ∧ w.latest ≠ .askedReplace
  | .hear =>
    match w.reports.head? with
    | some (.accepted ..) => w.latest = .entered
    | some (.rejected _) => w.latest = .entered
    | some (.replaced ..) => w.latest = .askedReplace
    | _ => True
  | _ => True

/-! ## What stays in step -/

/-- The reports on the wire take what the client has heard to what works at the venue. -/
def Tracks : Option ℕ → List Report → Option ℕ → Prop
  | heard, [], working => heard = working
  | heard, r :: rest, working => r.possible heard = true ∧ Tracks (r.left heard) rest working

/-- A report joins the wire at the venue's end. -/
theorem tracks_append {r : Report} {working : Option ℕ} (hr : r.possible working = true) :
    ∀ {reports : List Report} {heard : Option ℕ}, Tracks heard reports working →
      Tracks heard (reports ++ [r]) (r.left working)
  | [], _, h => by
    cases h
    exact ⟨hr, rfl⟩
  | _ :: _, _, h => ⟨h.1, tracks_append hr h.2⟩

/-- A dead order is not reported on. -/
theorem Report.pos_of_possible {r : Report} {n : ℕ} (h : r.possible (some n) = true) : 0 < n := by
  cases r with
  | accepted | rejected => cases h
  | executed => exact (of_decide_eq_true h).1
  | canceled => exact (of_decide_eq_true h).1
  | replaced => exact of_decide_eq_true (Bool.and_eq_true_iff.mp h).1

/-- The state a client is in after what it last sent or heard. -/
def Mark.state : Mark → OrderState
  | nothing => .unknown
  | entered => .sent
  | answered => .accepted
  | executed => .partiallyFilled
  | askedCancel => .cancelSent
  | askedReplace => .replaceSent

/-- **What stays in step**, whatever crosses on the wire. -/
structure InStep (w : Dialogue) : Prop where
  /-- The reports on the wire lead to where the venue is. -/
  tracks : Tracks w.left w.reports w.venue
  /-- While the order is not known to be dead the machine is where the last mark put it. -/
  state : w.left ≠ some 0 → w.order.state = w.latest.state
  /-- The shares it believes in are those it has heard of. -/
  leaves : ∀ n, w.left = some n → w.order.leavesShares.toNat = n
  /-- Nothing executes before the first answer. -/
  unfilled : w.left = none → w.order.filledShares = 0
  /-- Until then only sending and cancelling are possible, -/
  early : w.left = none → w.latest = .nothing ∨ w.latest = .entered ∨ w.latest = .askedCancel
  /-- and after it neither comes back. -/
  late : w.left ≠ none → w.latest ≠ .nothing ∧ w.latest ≠ .entered

/-- Nothing is said yet. -/
theorem inStep_start : InStep {} where
  tracks := rfl
  state _ := rfl
  leaves _ h := nomatch h
  unfilled _ := rfl
  early _ := .inl rfl
  late h := absurd rfl h

section Steps

variable {w : Dialogue}

/-- What the client hears first fits what it has heard, and the rest fits that. -/
theorem InStep.heard (hw : InStep w) {r : Report} {rest : List Report}
    (hreports : w.reports = r :: rest) :
    r.possible w.left = true ∧ Tracks (r.left w.left) rest w.venue := by
  have htracks := hw.tracks
  rwa [hreports] at htracks

/-- The first answer. -/
theorem InStep.hear_first (hw : InStep w) (hnone : w.left = none) {r : Report}
    {rest : List Report} (hr : r.possible none = true) (hreports : w.reports = r :: rest)
    (hrest : Tracks (r.left none) rest w.venue) : InStep (w.step .hear) := by
  have hunfilled : w.order.filledShares.toNat = 0 := congrArg UInt32.toNat (hw.unfilled hnone)
  simp only [Dialogue.step, hreports, hnone]
  cases r with
  | accepted shares px ref dead ts =>
    refine ⟨hrest, ?_, ?_, nofun, nofun, fun _ => ⟨nofun, nofun⟩⟩
    · intro hleft
      cases dead with
      | true => exact absurd rfl hleft
      | false => rfl
    · intro n hn
      cases hn
      refine (ClientOrderState.step_leavesShares _ _).trans ?_
      simp only [Report.event, hunfilled, Nat.sub_zero]
  | rejected ts =>
    refine ⟨hrest, fun hleft => absurd rfl hleft, ?_, nofun, nofun, fun _ => ⟨nofun, nofun⟩⟩
    intro n hn
    cases hn
    exact ClientOrderState.step_leavesShares _ (.rejected ts)
  -- these three are not possible before the venue has answered
  | executed | canceled | replaced => cases hr

/-- A report on an order that works. -/
theorem InStep.hear_working (hw : InStep w) {n : ℕ} (hn : w.left = some n) {r : Report}
    {rest : List Report} (hr : r.possible (some n) = true) (hreports : w.reports = r :: rest)
    (hrest : Tracks (r.left (some n)) rest w.venue) : InStep (w.step .hear) := by
  have hleaves := hw.leaves n hn
  have hlate := hw.late (by simp [hn])
  simp only [Dialogue.step, hreports, hn]
  cases r with
  | accepted | rejected => cases hr
  | executed shares px ts =>
    have hleft := ClientOrderState.step_leavesShares w.order (.fill shares px ts)
    simp only [hleaves] at hleft
    refine ⟨hrest, ?_, ?_, nofun, nofun, fun _ => ⟨nofun, nofun⟩⟩
    · intro hne
      refine if_neg fun hzero => hne (congrArg some ?_)
      exact hleft.symm.trans (congrArg UInt32.toNat hzero)
    · intro m hm
      cases hm
      exact hleft
  -- a partial cancel keeps the state, which is the mark's because shares were working before it
  | canceled decrement answers ts =>
    have hleft := ClientOrderState.step_leavesShares w.order (.canceled decrement ts)
    have hpos : 0 < n ∧ decrement.toNat ≤ n := of_decide_eq_true hr
    simp only [hleaves] at hleft
    refine ⟨hrest, ?_, ?_, nofun, nofun, fun _ => hlate⟩
    · intro hne
      have hworks : w.left ≠ some 0 := by
        rw [hn]
        exact fun h => absurd (Option.some.inj h) (Nat.pos_iff_ne_zero.mp hpos.1)
      refine (ClientOrderState.canceled_state _ _ _).trans ((if_neg ?_).trans (hw.state hworks))
      intro hzero
      exact hne (congrArg some (hleft.symm.trans (congrArg UInt32.toNat hzero)))
    · intro m hm
      cases hm
      exact hleft
  | replaced t shares px ref dead ts =>
    refine ⟨hrest, ?_, ?_, nofun, nofun, fun _ => ⟨nofun, nofun⟩⟩
    · intro hleft
      cases dead with
      | true => exact absurd rfl hleft
      | false => rfl
    · intro m hm
      cases hm
      exact ClientOrderState.step_leavesShares w.order (.replaced t shares px ref dead ts)

/-- A request that may be made: the state follows the mark, and nothing else moves. -/
theorem InStep.ask (hw : InStep w) {e : OrderEvent} {m : Mark} {requests : List Request}
    (hstate : (w.order.step e).state = m.state)
    (hleaves : (w.order.step e).leavesShares = w.order.leavesShares)
    (hfilled : (w.order.step e).filledShares = w.order.filledShares)
    (hearly : w.left = none → m = .askedCancel) (hlate : m ≠ .nothing ∧ m ≠ .entered) :
    InStep { w.feed e with latest := m, outstanding := true, requests := requests } where
  tracks := hw.tracks
  state _ := hstate
  leaves n hn := (congrArg UInt32.toNat hleaves).trans (hw.leaves n hn)
  unfilled hnone := hfilled.trans (hw.unfilled hnone)
  early hnone := .inr (.inr (hearly hnone))
  late _ := hlate

/-- Every step keeps it, one that crosses included: nothing here says that a call was legal. -/
theorem step_inStep (hw : InStep w) (a : Act) : InStep (w.step a) := by
  cases a with
  | enter t loc sd shares px ts =>
    simp only [Dialogue.step]
    split
    case isTrue hnothing =>
      -- nothing sent, so nothing was answered
      have hnone : w.left = none := by
        by_contra hsome
        exact (hw.late hsome).1 hnothing
      exact ⟨hw.tracks, fun _ => rfl, fun n hn => absurd (hnone.symm.trans hn) nofun,
        fun _ => rfl, fun _ => .inr (.inl rfl), fun hsome => absurd hnone hsome⟩
    case isFalse => exact hw
  | askCancel ts =>
    simp only [Dialogue.step]
    split
    case isTrue =>
      exact hw.ask rfl (ClientOrderState.checked_leavesShares _ _)
        (ClientOrderState.checked_filledShares _ _) (fun _ => rfl) ⟨nofun, nofun⟩
    case isFalse => exact hw
  | askReplace ts =>
    simp only [Dialogue.step]
    split
    case isTrue hmay =>
      have hsome : w.left ≠ none := of_decide_eq_true (Bool.and_eq_true_iff.mp hmay).2
      exact hw.ask rfl (ClientOrderState.checked_leavesShares _ _)
        (ClientOrderState.checked_filledShares _ _) (fun hnone => absurd hnone hsome)
        ⟨nofun, nofun⟩
    case isFalse => exact hw
  | report r =>
    simp only [Dialogue.step]
    split
    case isTrue hmay =>
      have hr : r.possible w.venue = true := (Bool.and_eq_true_iff.mp hmay).1
      exact { hw with tracks := tracks_append hr hw.tracks }
    case isFalse => exact hw
  | discard =>
    simp only [Dialogue.step]
    split
    case isTrue => exact { hw with }
    case isFalse => exact hw
  | hear =>
    cases hreports : w.reports with
    | nil =>
      simp only [Dialogue.step, hreports]
      exact hw
    | cons r rest =>
      obtain ⟨hr, hrest⟩ := hw.heard hreports
      cases hleft : w.left with
      | none =>
        rw [hleft] at hr hrest
        exact hw.hear_first hleft hr hreports hrest
      | some n =>
        rw [hleft] at hr hrest
        exact hw.hear_working hleft hr hreports hrest

/-- Feeding an event finds no fault exactly when the call returns true. -/
theorem Faultless.feed (hf : Faultless w) {w' : Dialogue} {e : OrderEvent}
    (horder : w'.order = w.order.step e) (hlegal : w'.legal = (w.legal && (w.order.apply e).2)) :
    Faultless w' ↔ (w.order.apply e).2 = true := by
  refine ⟨fun h => (Bool.and_eq_true_iff.mp (hlegal ▸ h.legal)).2, fun h => ?_⟩
  obtain ⟨hillegal, horphan, hover⟩ := ClientOrderState.step_counters h
  refine ⟨hlegal.trans (Bool.and_eq_true_iff.mpr ⟨hf.legal, h⟩), ?_, ?_, ?_⟩
  · rw [horder, hillegal, hf.illegalTransitions]
  · rw [horder, horphan, hf.orphanFills]
  · rw [horder, hover, hf.overfills]

/-- A client that may ask is in the state it was last put in. -/
theorem InStep.asking (hw : InStep w) (hmay : w.mayAsk = true) :
    w.order.state = w.latest.state :=
  hw.state (of_decide_eq_true (Bool.and_eq_true_iff.mp hmay).2)

/-- The first answer is expected by an order that is sent, and by no other. -/
theorem Faultless.hear_first (hf : Faultless w) (hw : InStep w) (hnone : w.left = none)
    {r : Report} {rest : List Report} (hr : r.possible none = true)
    (hreports : w.reports = r :: rest) : Faultless (w.step .hear) ↔ Uncrossed w .hear := by
  have hstate : w.order.state = w.latest.state := hw.state (by simp [hnone])
  have hearly := hw.early hnone
  have hfeed : Faultless (w.step .hear) ↔ (w.order.apply r.event).2 = true := by
    simp only [Dialogue.step, hreports]
    exact hf.feed rfl rfl
  rw [hfeed]
  simp only [Uncrossed, hreports, List.head?_cons]
  cases r with
  | accepted shares px ref dead ts =>
    refine decide_eq_true_iff.trans ?_
    rw [hstate]
    cases w.latest <;> simp [Mark.state]
  | rejected ts =>
    refine decide_eq_true_iff.trans ?_
    rw [hstate]
    rcases hearly with h | h | h <;> simp [h, Mark.state]
  | executed | canceled | replaced => cases hr

/-- An execution or a cancel of what works is legal in any state an order works in. -/
theorem Faultless.hear_working (hf : Faultless w) (hw : InStep w) {n : ℕ} (hn : w.left = some n)
    {r : Report} {rest : List Report} (hr : r.possible (some n) = true)
    (hreports : w.reports = r :: rest) : Faultless (w.step .hear) ↔ Uncrossed w .hear := by
  have hleaves := hw.leaves n hn
  have hlate := hw.late (by simp [hn])
  have hpos : 0 < n := Report.pos_of_possible hr
  have hstate : w.order.state = w.latest.state :=
    hw.state fun h => absurd (Option.some.inj (hn.symm.trans h)) (Nat.pos_iff_ne_zero.mp hpos)
  have hfeed : Faultless (w.step .hear) ↔ (w.order.apply r.event).2 = true := by
    simp only [Dialogue.step, hreports]
    exact hf.feed rfl rfl
  -- shares are working, so the machine is in one of the states of an order that lives
  have hlive : w.order.terminal = false ∧ w.order.state ≠ .unknown := by
    rw [ClientOrderState.terminal, hstate]
    cases h : w.latest <;> simp_all [Mark.state, OrderState.terminal]
  rw [hfeed]
  simp only [Uncrossed, hreports, List.head?_cons]
  cases r with
  | accepted | rejected => cases hr
  | executed shares px ts =>
    have hle : shares ≤ w.order.leavesShares := by
      rw [UInt32.le_iff_toNat_le, hleaves]
      exact (of_decide_eq_true hr).2
    refine iff_of_true ?_ trivial
    simp [Report.event, ClientOrderState.apply, ClientOrderState.onFill, hlive, hle]
  | canceled decrement answers ts =>
    have hle : decrement ≤ w.order.leavesShares := by
      rw [UInt32.le_iff_toNat_le, hleaves]
      exact (of_decide_eq_true hr).2
    refine iff_of_true ?_ trivial
    simp [Report.event, ClientOrderState.apply, ClientOrderState.onCanceled, hlive, hle]
  | replaced t shares px ref dead ts =>
    refine decide_eq_true_iff.trans ?_
    rw [hstate]
    cases w.latest <;> simp [Mark.state]

/-- **One step.** From a dialogue without fault, a step finds one exactly when it crosses. -/
theorem step_faultless (hw : InStep w) (hf : Faultless w) (a : Act) :
    Faultless (w.step a) ↔ Uncrossed w a := by
  cases a with
  | enter t loc sd shares px ts =>
    refine iff_of_true ?_ trivial
    simp only [Dialogue.step]
    split
    case isTrue hnothing =>
      have hnone : w.left = none := by
        by_contra hsome
        exact (hw.late hsome).1 hnothing
      have hstate : w.order.state = .unknown := by
        rw [hw.state (by simp [hnone]), hnothing]
        rfl
      exact (hf.feed (e := .sent t loc sd shares px ts) rfl rfl).mpr (decide_eq_true hstate)
    case isFalse => exact hf
  | askCancel ts =>
    simp only [Dialogue.step, Uncrossed]
    split
    case isTrue hmay =>
      obtain ⟨hask, hsent⟩ := Bool.and_eq_true_iff.mp hmay
      have hsent : w.latest ≠ .nothing := of_decide_eq_true hsent
      refine (hf.feed (e := .cancelSent ts) rfl rfl).trans (decide_eq_true_iff.trans ?_)
      -- which of the states the mark puts it in decides, and the two that are excluded are the
      -- illegal ones
      rw [hw.asking hask]
      cases h : w.latest <;> simp_all [Mark.state]
    case isFalse hmay => exact iff_of_true hf fun h => absurd h hmay
  | askReplace ts =>
    simp only [Dialogue.step, Uncrossed]
    split
    case isTrue hmay =>
      obtain ⟨hask, hacked⟩ := Bool.and_eq_true_iff.mp hmay
      have hlate := hw.late (of_decide_eq_true hacked)
      refine (hf.feed (e := .replaceSent ts) rfl rfl).trans (decide_eq_true_iff.trans ?_)
      rw [hw.asking hask]
      cases h : w.latest <;> simp_all [Mark.state]
    case isFalse hmay => exact iff_of_true hf fun h => absurd h hmay
  | report r =>
    refine iff_of_true ?_ trivial
    simp only [Dialogue.step]
    split
    case isTrue => exact { hf with }
    case isFalse => exact hf
  | discard =>
    refine iff_of_true ?_ trivial
    simp only [Dialogue.step]
    split
    case isTrue => exact { hf with }
    case isFalse => exact hf
  | hear =>
    cases hreports : w.reports with
    | nil => simpa only [Dialogue.step, Uncrossed, hreports, List.head?_nil, iff_true] using hf
    | cons r rest =>
      obtain ⟨hr, -⟩ := hw.heard hreports
      cases hleft : w.left with
      | none => exact hf.hear_first hw hleft (hleft ▸ hr) hreports
      | some n => exact hf.hear_working hw hleft (hleft ▸ hr) hreports

end Steps

/-- **Whole dialogues.** In any order of steps, every call returns true and nothing is counted
exactly as long as no step crosses. -/
theorem faultless_iff_uncrossed (acts : List Act) :
    Always Dialogue.step Faultless {} acts ↔ Along Dialogue.step Uncrossed {} acts := by
  have hstart : Faultless {} := ⟨rfl, rfl, rfl, rfl⟩
  have hstep : ∀ (w : Dialogue) (a : Act), InStep w → Faultless w →
      (Faultless (w.step a) ↔ Uncrossed w a) := fun _ a hw hf => step_faultless hw hf a
  exact always_iff_along_of_invariant (fun _ a hw => step_inStep hw a) hstep acts {}
    inStep_start hstart

/-- A cancel sent before the order is acknowledged. -/
def canceledEarly : List Act :=
  [.enter (Lib.alpha kTokenLen []) 1 66 100 10 0, .askCancel 1,
   .report (.accepted 100 10 1 false 2), .hear]

/-- A replace that crosses a fill of part of the order. -/
def replacedWhileFilling : List Act :=
  [.enter (Lib.alpha kTokenLen []) 1 66 100 10 0, .report (.accepted 100 10 1 false 1), .hear,
   .askReplace 2, .report (.executed 40 10 3),
   .report (.replaced (Lib.alpha kTokenLen []) 60 11 2 false 4), .hear, .hear]

/-- Both dialogues keep to the protocol, and in both an answer is counted as illegal. -/
theorem faulted_crossings :
    ¬(∀ acts : List Act, Always Dialogue.step Faultless {} acts) ∧
      (after Dialogue.step {} canceledEarly).order.illegalTransitions = 1 ∧
      (after Dialogue.step {} replacedWhileFilling).order.illegalTransitions = 1 := by
  refine ⟨fun h => ?_, by decide, by decide⟩
  exact absurd (h canceledEarly).last.illegalTransitions (by decide)

end Ouch
end Tickerplant
