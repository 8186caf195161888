import Mathlib.Data.UInt
import Tickerplant.Risk.Runs

/-!
# The controls of the risk engine (`include/tick/risk.hpp`)

Beside the orders and what is reported of them stand the calls a person makes or the feed does: the
kill switch and its reset, a symbol's flags and position, new limits. `RiskCall` is the whole of
what may be asked of an engine, with an order as the send path asks it: checked and counted, and
told to the engine if it goes out.

Whatever is asked, in whatever order, the books are kept and the gate's counters balance, and the
engine is stopped exactly when a person has said so since the last reset (`controls_kept`): the
branch that trips the switch by itself is never reached. While it is stopped nothing goes out
(`kill_switch_latched`).

The state of the switch is compared with a listener that hears the calls and nothing else
(`KillOrders`). That the two agree is more than that the switch can be thrown: no order, report or
setting throws it or releases it. The first reason given stays the reason, and every throw counts.

New limits are only taken with nothing working, because the table is made anew for them. What was
in it would be forgotten, and with it what the tallies are sums of.
-/

set_option autoImplicit false

namespace Tickerplant

/-- The reasons, in the order of the enumeration. -/
def RiskReject.all : List RiskReject :=
  [.none, .maxOrderSize, .maxOrderNotional, .fatFingerPrice, .positionLimit, .notionalLimit,
    .maxOpenOrders, .messageRate, .symbolNotEnabled, .symbolHalted, .killSwitch, .selfCross,
    .duplicateToken, .staleMarketData]

namespace RiskEngine

/-! ## The calls -/

section Calls

variable (e : RiskEngine)

/-- `++checked`, the reason's own counter, and one of the two outcomes. -/
def countCheck (reason : RiskReject) : RiskEngine :=
  { e with
    stats := { e.stats with
      checked := e.stats.checked + 1
      byReason := Function.update e.stats.byReason reason (e.stats.byReason reason + 1)
      passed := if reason = .none then e.stats.passed + 1 else e.stats.passed
      rejected := if reason = .none then e.stats.rejected else e.stats.rejected + 1 } }

/-- `check`, with its counters. -/
def checkAndCount (r : OrderRequest) : Option (RiskReject × RiskEngine) :=
  (e.check r).map fun reason => (reason, e.countCheck reason)

/-- The one way to start an engine that was stopped. -/
def resetKillSwitchAfterHumanReview : RiskEngine :=
  { e with tripped := false, stats := { e.stats with killReason := none } }

/-- A change of one symbol's record. -/
def setSymbol (locate : UInt16) (f : SymbolRisk → SymbolRisk) : RiskEngine :=
  { e with symbols := Function.update e.symbols locate (f (e.symbols locate)) }

/-- Whether the symbol may be traded at all. -/
def enableSymbol (locate : UInt16) (on : Bool) : RiskEngine :=
  e.setSymbol locate fun s => { s with enabled := on }

/-- Whether it may be traded now. -/
def setHalted (locate : UInt16) (halted : Bool) : RiskEngine :=
  e.setSymbol locate fun s => { s with halted := halted }

/-- What the feed says of it: only `T` is trading. -/
def onTradingAction (locate : UInt16) (state : Char) : RiskEngine :=
  e.setSymbol locate fun s => { s with halted := decide (state ≠ 'T') }

/-- The position it starts with. -/
def setPosition (locate : UInt16) (shares : Int64) : RiskEngine :=
  e.setSymbol locate fun s => { s with position := shares }

/-- Refused while anything is working. -/
def setLimits (l : RiskLimits) : Bool × RiskEngine :=
  if e.openOrders ≠ 0 then (false, e)
  else (true, { e with limits := l, table := .make l.maxOpenOrders })

end Calls

end RiskEngine

/-- What may be asked of an engine. -/
inductive RiskCall where
  /-- An order is wanted, and goes out if it passes. -/
  | order (r : OrderRequest)
  /-- The exchange says something of an order. -/
  | report (token : Ouch.Token) (said : RiskReport)
  /-- A person stops the engine. -/
  | trip (why : String)
  /-- And starts it again. -/
  | reset
  | enable (locate : UInt16) (on : Bool)
  | halt (locate : UInt16) (halted : Bool)
  | tradingAction (locate : UInt16) (state : Char)
  | position (locate : UInt16) (shares : Int64)
  | limits (l : RiskLimits)

namespace RiskEngine

/-- One call. An order is sent if the check passes it. -/
def call (e : RiskEngine) : RiskCall → Option RiskEngine
  | .order r => (e.checkAndCount r).map fun (reason, e) =>
    if reason = .none then e.onOrderSent r else e
  | .report token said => e.onReport token said
  | .trip why => some (e.tripKillSwitch why)
  | .reset => some e.resetKillSwitchAfterHumanReview
  | .enable locate on => some (e.enableSymbol locate on)
  | .halt locate halted => some (e.setHalted locate halted)
  | .tradingAction locate state => some (e.onTradingAction locate state)
  | .position locate shares => some (e.setPosition locate shares)
  | .limits l => some (e.setLimits l).2

end RiskEngine

/-- What the kill switch has been told: the first reason since the last reset, and how often. -/
structure KillOrders where
  why : Option String := none
  trips : ℕ := 0

/-- What a call says of the switch, if it does. -/
def KillOrders.hear (k : KillOrders) : RiskCall → KillOrders
  | .trip why => { why := some (k.why.getD why), trips := k.trips + 1 }
  | .reset => { k with why := none }
  | _ => k

namespace RiskEngine

open Interleave

variable {e e' : RiskEngine}

/-! ## What a call leaves alone -/

/-- The counters of the gate and of the switch, which no report moves. -/
structure SameGate (e e' : RiskEngine) : Prop where
  tripped : e'.tripped = e.tripped
  checked : e'.stats.checked = e.stats.checked
  passed : e'.stats.passed = e.stats.passed
  rejected : e'.stats.rejected = e.stats.rejected
  byReason : e'.stats.byReason = e.stats.byReason
  ordersSent : e'.stats.ordersSent = e.stats.ordersSent
  killReason : e'.stats.killReason = e.stats.killReason
  trips : e'.stats.killSwitchTrips = e.stats.killSwitchTrips

/-- A gate that nothing has passed. -/
theorem SameGate.refl (e : RiskEngine) : SameGate e e := ⟨rfl, rfl, rfl, rfl, rfl, rfl, rfl, rfl⟩

/-- One report after the other. -/
theorem SameGate.trans {e'' : RiskEngine} (h : SameGate e e') (h' : SameGate e' e'') :
    SameGate e e'' where
  tripped := h'.tripped.trans h.tripped
  checked := h'.checked.trans h.checked
  passed := h'.passed.trans h.passed
  rejected := h'.rejected.trans h.rejected
  byReason := h'.byReason.trans h.byReason
  ordersSent := h'.ordersSent.trans h.ordersSent
  killReason := h'.killReason.trans h.killReason
  trips := h'.trips.trans h.trips

/-- An overfill is not the gate's. -/
theorem countOverfill_gate (e : RiskEngine) (slot : ℕ) (n : UInt32) :
    SameGate e { e with stats := e.countOverfill slot n } := by
  unfold countOverfill
  split <;> exact ⟨rfl, rfl, rfl, rfl, rfl, rfl, rfl, rfl⟩

/-- Nor is an order that leaves. -/
theorem retire_gate {slot : ℕ} (h : e.retire slot = some e') : SameGate e e' := by
  obtain ⟨table, -, rfl⟩ := Option.map_eq_some_iff.mp h
  exact ⟨rfl, rfl, rfl, rfl, rfl, rfl, rfl, rfl⟩

/-- Whether it leaves or not. -/
theorem retireEmpty_gate {slot : ℕ} (h : e.retireEmpty slot = some e') : SameGate e e' := by
  unfold retireEmpty at h
  split at h
  · exact retire_gate h
  · obtain rfl := Option.some.inj h
    exact SameGate.refl e

/-- Whatever else is counted of it, an order that loses shares moves none of these. -/
theorem lowered_gate {stats : RiskStats} {slot : ℕ} {n : UInt32} {traded : Bool}
    (hstats : SameGate e { e with stats := stats })
    (h : (lower { e with stats := stats } slot n traded).retireEmpty slot = some e') :
    SameGate e e' := by
  have hlower : SameGate { e with stats := stats }
      (lower { e with stats := stats } slot n traded) := ⟨rfl, rfl, rfl, rfl, rfl, rfl, rfl, rfl⟩
  exact hstats.trans (hlower.trans (retireEmpty_gate h))

/-- A report is about orders that have gone out. -/
theorem onReport_gate {token : Ouch.Token} {said : RiskReport}
    (h : e.onReport token said = some e') : SameGate e e' := by
  cases said with
  | fill shares price =>
    obtain ⟨slot | slot, -, hslot⟩ := Option.bind_eq_some_iff.mp h
    · obtain rfl := Option.some.inj hslot
      exact ⟨rfl, rfl, rfl, rfl, rfl, rfl, rfl, rfl⟩
    · simp only at hslot
      refine lowered_gate ?_ hslot
      exact (countOverfill_gate e slot shares).trans ⟨rfl, rfl, rfl, rfl, rfl, rfl, rfl, rfl⟩
  | cancelAcked decrement =>
    obtain ⟨slot | slot, -, hslot⟩ := Option.bind_eq_some_iff.mp h
    · obtain rfl := Option.some.inj hslot
      exact ⟨rfl, rfl, rfl, rfl, rfl, rfl, rfl, rfl⟩
    · simp only at hslot
      refine lowered_gate ?_ hslot
      exact (countOverfill_gate e slot _).trans ⟨rfl, rfl, rfl, rfl, rfl, rfl, rfl, rfl⟩
  | reject =>
    obtain ⟨slot | slot, -, hslot⟩ := Option.bind_eq_some_iff.mp h
    · obtain rfl := Option.some.inj hslot
      exact ⟨rfl, rfl, rfl, rfl, rfl, rfl, rfl, rfl⟩
    · simp only at hslot
      rw [← retireEmpty_lower] at hslot
      refine lowered_gate ?_ hslot
      exact ⟨rfl, rfl, rfl, rfl, rfl, rfl, rfl, rfl⟩

/-- Counting a check changes nothing the engine goes by. -/
theorem same_countCheck (e : RiskEngine) (reason : RiskReject) : Same e (e.countCheck reason) :=
  ⟨rfl, rfl, rfl, rfl, rfl, rfl, rfl, rfl⟩

/-- A symbol may change in what is not a tally. -/
theorem Books.setSymbol (hb : Books e) (locate : UInt16) {f : SymbolRisk → SymbolRisk}
    (hshares : ∀ s b, (f s).workingShares b = s.workingShares b)
    (horders : ∀ s b, (f s).workingOrders b = s.workingOrders b) :
    Books (e.setSymbol locate f) where
  wf := hb.wf
  size := hb.size
  count := hb.count
  ceiling := hb.ceiling
  leaves := hb.leaves
  shares loc b := by
    show (Function.update e.symbols locate _ loc).workingShares b = _
    rw [show (e.setSymbol locate f).table = e.table from rfl, ← hb.shares, Function.update_apply]
    split
    case isTrue hloc => rw [hloc, hshares]
    case isFalse => rfl
  orders loc b := by
    show ((Function.update e.symbols locate _ loc).workingOrders b).toNat = _
    rw [show (e.setSymbol locate f).table = e.table from rfl, ← hb.orders, Function.update_apply]
    split
    case isTrue hloc => rw [hloc, horders]
    case isFalse => rfl
  drift := hb.drift
  failed := hb.failed

/-- New limits find nothing working, and a table of their size. -/
theorem Books.setLimits (hb : Books e) (l : RiskLimits) : Books (e.setLimits l).2 := by
  unfold RiskEngine.setLimits
  split
  case isTrue => exact hb
  case isFalse hopen =>
    have hopen : e.openOrders = 0 := not_not.mp hopen
    have hheld : e.table.held = ∅ := by
      rw [← Finset.card_eq_zero, ← hb.count, hopen]
      rfl
    refine Idle.books ⟨OpenOrderTable.wf_make _, OpenOrderTable.le_sizeFor _,
      OpenOrderTable.held_make _, hopen, fun loc b => ?_, fun loc b => ?_, hb.drift, hb.failed⟩
    · have hshares := hb.shares loc b
      rw [hheld] at hshares
      exact hshares
    · have horders := hb.orders loc b
      rw [hheld] at horders
      exact UInt32.toNat_inj.mp horders

/-! ## The counters -/

/-- Every check is counted once, under its reason, and every order that passed went out. -/
structure Balanced (s : RiskStats) : Prop where
  /-- Every check has passed or was rejected. -/
  checked : s.passed + s.rejected = s.checked
  /-- And has one reason, `none` being that of those that passed. -/
  reasons : (RiskReject.all.map s.byReason).sum = s.checked
  passed : s.byReason .none = s.passed
  /-- What passed has gone out, and nothing else has. -/
  sent : s.ordersSent = s.passed

/-- Counters that have not moved still balance. -/
theorem Balanced.same (hb : Balanced e.stats) (h : SameGate e e') : Balanced e'.stats where
  checked := by rw [h.passed, h.rejected, h.checked, hb.checked]
  reasons := by rw [h.byReason, h.checked, hb.reasons]
  passed := by rw [h.byReason, h.passed, hb.passed]
  sent := by rw [h.ordersSent, h.passed, hb.sent]

/-- One reason counted once more is one check more. -/
theorem sum_update (f : RiskReject → UInt64) (reason : RiskReject) :
    (RiskReject.all.map (Function.update f reason (f reason + 1))).sum =
      (RiskReject.all.map f).sum + 1 := by
  cases reason <;>
    simp only [RiskReject.all, List.map_cons, List.map_nil, List.sum_cons, List.sum_nil,
      Function.update_self, Function.update_of_ne, ne_eq, reduceCtorEq, not_false_eq_true] <;>
    ac_rfl

/-- A check that fails is counted, and that is all. -/
theorem Balanced.refused (hb : Balanced e.stats) {reason : RiskReject} (h : reason ≠ .none) :
    Balanced (e.countCheck reason).stats where
  checked := by
    simp only [countCheck, if_neg h]
    rw [← UInt64.add_assoc, hb.checked]
  reasons := by
    simp only [countCheck]
    rw [sum_update, hb.reasons]
  passed := by
    simp only [countCheck, if_neg h]
    rw [Function.update_of_ne h.symm, hb.passed]
  sent := by
    simp only [countCheck, if_neg h]
    exact hb.sent

/-- A check that passes is followed by the order. -/
theorem Balanced.passes (hb : Balanced e.stats) {s : RiskStats}
    (hs : s.checked = e.stats.checked + 1 ∧ s.passed = e.stats.passed + 1 ∧
      s.rejected = e.stats.rejected ∧ s.ordersSent = e.stats.ordersSent + 1 ∧
      s.byReason = Function.update e.stats.byReason .none (e.stats.byReason .none + 1)) :
    Balanced s := by
  obtain ⟨hchecked, hpassed, hrejected, hsent, hreasons⟩ := hs
  constructor
  · rw [hchecked, hpassed, hrejected, ← hb.checked]
    ac_rfl
  · rw [hreasons, sum_update, hb.reasons, hchecked]
  · rw [hreasons, Function.update_self, hb.passed, hpassed]
  · rw [hsent, hb.sent, hpassed]

/-! ## One call -/

/-- An engine after it has been told so much. -/
structure Controlled (e : RiskEngine) (k : KillOrders) : Prop where
  books : Books e
  balanced : Balanced e.stats
  /-- The switch is on if somebody has thrown it since the last reset. -/
  tripped : e.tripped = k.why.isSome
  /-- It remembers the first reason it was given. -/
  reason : e.stats.killReason = k.why
  /-- And how often it was thrown, ever. -/
  trips : e.stats.killSwitchTrips = UInt64.ofNat k.trips

/-- A call that is not about the switch. -/
theorem Controlled.same {k : KillOrders} (h : Controlled e k) (hb : Books e')
    (hg : SameGate e e') : Controlled e' k :=
  ⟨hb, h.balanced.same hg, hg.tripped.trans h.tripped, hg.killReason.trans h.reason,
    hg.trips.trans h.trips⟩

/-- A check comes to an end, because the table does. -/
theorem check_answers (hb : Books e) (r : OrderRequest) : ∃ reason, e.check r = some reason := by
  obtain ⟨e₁, sent, hexec, -⟩ := exec_step hb (.order r)
  obtain ⟨reason, hcheck, -⟩ := Option.map_eq_some_iff.mp hexec
  exact ⟨reason, hcheck⟩

/-- An order is refused, or it passed and is on the books. -/
theorem call_order (hb : Books e) (r : OrderRequest) :
    (∃ reason, reason ≠ .none ∧ e.call (.order r) = some (e.countCheck reason)) ∨
      ∃ e', e.call (.order r) = some e' ∧ Passes e r ∧ Books e' ∧
        e' = (e.countCheck .none).onOrderSent r ∧ Placed (e.countCheck .none) r e' := by
  obtain ⟨reason, hcheck⟩ := check_answers hb r
  rw [call, checkAndCount, hcheck]
  by_cases hpass : reason = .none
  · subst hpass
    have hpasses := passes_of_check hcheck
    have hno := hpasses.absent hb.wf
    have hopen := UInt32.lt_iff_toNat_lt.mp hpasses.room
    have hcount := hb.count
    have hsize := hb.size
    have hb' : Books (e.countCheck .none) := hb.same (same_countCheck e .none)
    obtain ⟨-, hplaced⟩ := onOrderSent_placed hb'.wf hno (show e.table.held.card + 1 <
      e.table.cap by omega)
    exact .inr ⟨_, rfl, hpasses, hb'.placed hplaced hpasses.size.1 hno hpasses.room, rfl, hplaced⟩
  · exact .inl ⟨reason, hpass, congrArg some (if_neg hpass)⟩

/-- What the placing of an order counts. -/
theorem placed_stats {r : OrderRequest} {table : OpenOrderTable}
    (h : e.table.insertOpen r.token r.shares r.locate r.isBuy = some table) :
    (e.onOrderSent r).stats.checked = e.stats.checked ∧
      (e.onOrderSent r).stats.passed = e.stats.passed ∧
      (e.onOrderSent r).stats.rejected = e.stats.rejected ∧
      (e.onOrderSent r).stats.ordersSent = e.stats.ordersSent + 1 ∧
      (e.onOrderSent r).stats.byReason = e.stats.byReason ∧
      (e.onOrderSent r).stats.killReason = e.stats.killReason ∧
      (e.onOrderSent r).stats.killSwitchTrips = e.stats.killSwitchTrips := by
  rw [onOrderSent, h]
  exact ⟨rfl, rfl, rfl, rfl, rfl, rfl, rfl⟩

/-- **Every call is answered**, and the engine is then one that has been told of it. -/
theorem Controlled.call {k : KillOrders} (h : Controlled e k) (c : RiskCall) :
    ∃ e', e.call c = some e' ∧ Controlled e' (k.hear c) := by
  cases c with
  | order r =>
    rcases call_order h.books r with ⟨reason, hne, hcall⟩ | ⟨e', hcall, hp, hb, heq, hpl⟩
    · exact ⟨_, hcall, h.books.same (same_countCheck e reason), h.balanced.refused hne, h.tripped,
        h.reason, h.trips⟩
    · refine ⟨e', hcall, hb, ?_, hpl.tripped.trans h.tripped, ?_, ?_⟩
      -- the table had room, so the branch that trips the switch was not taken
      all_goals
        have hno := hp.absent h.books.wf
        have hopen := UInt32.lt_iff_toNat_lt.mp hp.room
        have hcount := h.books.count
        have hsize := h.books.size
        obtain ⟨table, hinsert, -⟩ := h.books.wf.insert hno
          (show e.table.held.card + 1 < e.table.cap by omega) r.shares r.locate r.isBuy
        obtain ⟨hchecked, hpassed, hrejected, hsent, hreasons, hkill, htrips⟩ :=
          placed_stats (e := e.countCheck .none) hinsert
        subst heq
      · exact h.balanced.passes ⟨hchecked, hpassed, hrejected, hsent, hreasons⟩
      · exact hkill.trans h.reason
      · exact htrips.trans h.trips
  | report token said =>
    rcases held_or_absent e token with ⟨o, ho, rfl⟩ | hno
    · obtain ⟨e', hreport, hlost⟩ := onReport_known h.books.wf ho said
      exact ⟨e', hreport, h.same (h.books.lost ho (takes_le _ _) hlost) (onReport_gate hreport)⟩
    · have hreport := onReport_unknown h.books.wf hno said
      exact ⟨_, hreport, h.same (h.books.same same_unknownToken) (onReport_gate hreport)⟩
  | trip why =>
    refine ⟨_, rfl, ⟨h.books.wf, h.books.size, h.books.count, h.books.ceiling, h.books.leaves,
      h.books.shares, h.books.orders, h.books.drift, h.books.failed⟩,
      ⟨h.balanced.checked, h.balanced.reasons, h.balanced.passed, h.balanced.sent⟩, rfl, ?_, ?_⟩
    · show (if e.tripped then e.stats.killReason else some why) = some (k.why.getD why)
      rw [h.tripped, h.reason]
      cases k.why <;> rfl
    · show e.stats.killSwitchTrips + 1 = UInt64.ofNat (k.trips + 1)
      rw [h.trips, UInt64.ofNat_add]
      rfl
  | reset =>
    exact ⟨_, rfl, ⟨h.books.wf, h.books.size, h.books.count, h.books.ceiling, h.books.leaves,
      h.books.shares, h.books.orders, h.books.drift, h.books.failed⟩,
      ⟨h.balanced.checked, h.balanced.reasons, h.balanced.passed, h.balanced.sent⟩, rfl, rfl,
      h.trips⟩
  | enable | halt | tradingAction | position =>
    refine ⟨_, rfl, h.same (h.books.setSymbol _ (fun s b => ?_) fun s b => ?_)
      ⟨rfl, rfl, rfl, rfl, rfl, rfl, rfl, rfl⟩⟩ <;> cases b <;> rfl
  | limits l =>
    refine ⟨_, rfl, h.same (h.books.setLimits l) ?_⟩
    unfold RiskEngine.setLimits
    split <;> exact ⟨rfl, rfl, rfl, rfl, rfl, rfl, rfl, rfl⟩

/-! ## Runs -/

/-- An engine that has just been made. -/
theorem controlled_make (limits : RiskLimits) : Controlled (make limits) {} :=
  ⟨(idle_make limits).books, ⟨rfl, rfl, rfl, rfl⟩, rfl, rfl, rfl⟩

/-- Any calls. -/
theorem Controlled.run (calls : List RiskCall) : ∀ {e : RiskEngine}
    {k : KillOrders}, Controlled e k →
      ∃ e', Interleave.run RiskEngine.call e calls = some e' ∧
        Controlled e' (calls.foldl KillOrders.hear k) := by
  induction calls with
  | nil => exact fun h => ⟨_, rfl, h⟩
  | cons c calls ih =>
    intro e k h
    obtain ⟨e₁, hcall, h₁⟩ := h.call c
    obtain ⟨e', hrun, h'⟩ := ih h₁
    exact ⟨e', by rw [Interleave.run, hcall]; exact hrun, h'⟩

/-- **The controls.** Whatever is asked of an engine, in whatever order: every call is answered,
the table and the tallies say the same of what works, every check is counted once and under its
reason, every order that passed went out, and the kill switch is on exactly when it was tripped
since the last reset, with the first reason it was given. -/
theorem controls_kept (limits : RiskLimits) (calls : List RiskCall) :
    ∃ e, Interleave.run call (make limits) calls = some e ∧ Books e ∧ Balanced e.stats ∧
      e.tripped = (calls.foldl KillOrders.hear {}).why.isSome ∧
      e.stats.killReason = (calls.foldl KillOrders.hear {}).why ∧
      e.stats.killSwitchTrips = UInt64.ofNat (calls.foldl KillOrders.hear {}).trips := by
  obtain ⟨e, hrun, h⟩ := Controlled.run (k := {}) calls (controlled_make limits)
  exact ⟨e, hrun, h.books, h.balanced, h.tripped, h.reason, h.trips⟩

/-- A stopped engine passes no order, and only its reset starts it. -/
theorem Controlled.call_stopped {k : KillOrders} (h : Controlled e k) (hstop : k.why.isSome)
    {c : RiskCall} (hno : c ≠ .reset) (hcall : e.call c = some e') :
    (k.hear c).why = k.why ∧ e'.stats.ordersSent = e.stats.ordersSent ∧
      e'.stats.passed = e.stats.passed := by
  obtain ⟨why, hwhy⟩ := Option.isSome_iff_exists.mp hstop
  cases c with
  | order r =>
    rcases call_order h.books r with ⟨reason, hne, hcall'⟩ | ⟨_, _, hp, _⟩
    · obtain rfl := Option.some.inj (hcall'.symm.trans hcall)
      refine ⟨rfl, rfl, ?_⟩
      simp only [countCheck, if_neg hne]
    · have htripped := h.tripped.symm.trans hp.live
      rw [hwhy] at htripped
      exact Bool.noConfusion htripped
  | report token said =>
    have hgate := onReport_gate hcall
    exact ⟨rfl, hgate.ordersSent, hgate.passed⟩
  | trip why' =>
    obtain rfl := Option.some.inj hcall
    exact ⟨by rw [KillOrders.hear, hwhy]; rfl, rfl, rfl⟩
  | reset => exact absurd rfl hno
  | enable | halt | tradingAction | position =>
    obtain rfl := Option.some.inj hcall
    exact ⟨rfl, rfl, rfl⟩
  | limits l =>
    obtain rfl := Option.some.inj hcall
    refine ⟨rfl, ?_⟩
    unfold RiskEngine.setLimits
    split <;> exact ⟨rfl, rfl⟩

/-- A run without a reset leaves a stopped engine stopped. -/
theorem latched (calls : List RiskCall) : .reset ∉ calls → ∀ {e : RiskEngine} {k : KillOrders},
    Controlled e k → k.why.isSome →
      ∃ e', Interleave.run call e calls = some e' ∧ e'.tripped = true ∧
        e'.stats.killReason = k.why ∧ e'.stats.ordersSent = e.stats.ordersSent ∧
        e'.stats.passed = e.stats.passed := by
  induction calls with
  | nil =>
    intro _ e k h hstop
    exact ⟨e, rfl, h.tripped.trans hstop, h.reason, rfl, rfl⟩
  | cons c calls ih =>
    intro hno e k h hstop
    obtain ⟨hc, hcalls⟩ := not_or.mp fun h => hno (List.mem_cons.mpr h)
    obtain ⟨e₁, hcall, h₁⟩ := h.call c
    obtain ⟨hwhy, hsent, hpassed⟩ := h.call_stopped hstop (Ne.symm hc) hcall
    obtain ⟨e', hrun, hend, hreason, hsent', hpassed'⟩ := ih hcalls h₁ (hwhy ▸ hstop)
    refine ⟨e', ?_, hend, hreason.trans hwhy, hsent'.trans hsent, hpassed'.trans hpassed⟩
    rw [Interleave.run, hcall]
    exact hrun

/-- **The latch.** Once the switch is tripped, whatever is asked of the engine until it is reset,
no order goes out and none passes. -/
theorem kill_switch_latched (limits : RiskLimits) (before : List RiskCall) (why : String)
    (after : List RiskCall) (hno : .reset ∉ after) :
    ∃ e e', Interleave.run call (make limits) before = some e ∧
      Interleave.run call (make limits) (before ++ .trip why :: after) = some e' ∧
      e'.tripped = true ∧
      e'.stats.killReason = some ((before.foldl KillOrders.hear {}).why.getD why) ∧
      e'.stats.ordersSent = e.stats.ordersSent ∧ e'.stats.passed = e.stats.passed := by
  obtain ⟨e, hrun, h⟩ := Controlled.run (k := {}) before (controlled_make limits)
  obtain ⟨e₁, htrip, h₁⟩ := h.call (.trip why)
  obtain rfl := Option.some.inj htrip
  obtain ⟨e', hafter, hend, hwhy, hsent, hpassed⟩ := latched after hno h₁ rfl
  refine ⟨e, e', hrun, ?_, hend, hwhy, hsent, hpassed⟩
  rw [Interleave.run_append, hrun]
  exact hafter

/-- An order for an enabled symbol, after a person has stopped the engine. -/
theorem kill_switch_latched_oneOrder : ∃ e e',
    Interleave.run call (make onePerSecond) [.enable 0 true] = some e ∧
      Interleave.run call (make onePerSecond)
        ([.enable 0 true] ++ .trip "review" :: [.order (oneShare 65 199999999)]) = some e' ∧
      e'.tripped = true ∧ e'.stats.killReason = some "review" ∧
      e'.stats.ordersSent = e.stats.ordersSent ∧ e'.stats.passed = e.stats.passed :=
  kill_switch_latched onePerSecond [.enable 0 true] "review" [.order (oneShare 65 199999999)]
    (by simp)

end RiskEngine
end Tickerplant
