import Mathlib.Data.List.Sort
import Tickerplant.Risk.Runs

/-!
# What the gate keeps out (`include/tick/risk.hpp`)

No order that passes the check would trade with one of ours (`no_self_cross`): the best working
price of a side is only ever too aggressive. And no second holds more orders than the limit, as
long as the rate limiter has not forgotten part of it (`rate_bounded`).

The best price of a side is remembered and not computed: an order that joins may improve it, and an
order that leaves does not look for the next one. It is reset when the side empties. So it may be
the price of an order that is long gone, which refuses more than it has to and never less; what has
to be kept is that every open order is behind it (`Priced`), and behind is a matter of the side.

The two results rest on the history for what the engine does not keep: the price an order was sent
at, and the times of the orders that went out.
-/

set_option autoImplicit false

namespace Tickerplant

open Interleave

namespace RiskEngine

variable {e e' : RiskEngine} {h : History}

/-! ## No order trades with our own -/

/-- The price is no more aggressive than the best on its side. -/
def Behind (isBuy : Bool) (p best : Price) : Prop := if isBuy then p ≤ best else best ≤ p

/-- An order that joins is not ahead of the best. -/
theorem place_best_new (s : SymbolRisk) (b : Bool) (n : UInt32) (p : Price) :
    Behind b p ((s.place b n p).best b) := by
  cases b with
  | true =>
    show p ≤ (if s.workingBuyOrders = 0 ∨ s.bestWorkingBuy < p then p else s.bestWorkingBuy)
    split
    case isTrue => exact Int.le_refl p
    case isFalse h => exact Int.not_lt.mp fun hlt => h (.inr hlt)
  | false =>
    show (if s.workingSellOrders = 0 ∨ p < s.bestWorkingSell then p else s.bestWorkingSell) ≤ p
    split
    case isTrue => exact Int.le_refl p
    case isFalse h => exact Int.not_lt.mp fun hlt => h (.inr hlt)

/-- An order that joins leaves every other one behind the best. -/
theorem place_best_old {s : SymbolRisk} {b : Bool} {q : Price} (horders : s.workingOrders b ≠ 0)
    (hq : Behind b q (s.best b)) (b' : Bool) (n : UInt32) (p : Price) :
    Behind b q ((s.place b' n p).best b) := by
  cases b with
  | true =>
    cases b' with
    | false => exact hq
    | true =>
      have hq : q ≤ s.bestWorkingBuy := hq
      show q ≤ (if s.workingBuyOrders = 0 ∨ s.bestWorkingBuy < p then p else s.bestWorkingBuy)
      split
      case isTrue h => exact Int.le_trans hq (Int.le_of_lt (h.resolve_left horders))
      case isFalse => exact hq
  | false =>
    cases b' with
    | true => exact hq
    | false =>
      have hq : s.bestWorkingSell ≤ q := hq
      show (if s.workingSellOrders = 0 ∨ p < s.bestWorkingSell then p else s.bestWorkingSell) ≤ q
      split
      case isTrue h => exact Int.le_trans (Int.le_of_lt (h.resolve_left horders)) hq
      case isFalse => exact hq

/-- Every open order was sent at a price the best of its side is not behind. -/
def Priced (e : RiskEngine) (h : History) : Prop :=
  ∀ o ∈ e.table.held, Behind o.isBuy (h.priceOf o.token) ((e.symbols o.locate).best o.isBuy)

/-- A side with an open order counts one. -/
theorem Books.orders_ne_zero (hb : Books e) {o : OpenOrder} (ho : o ∈ e.table.held) :
    (e.symbols o.locate).workingOrders o.isBuy ≠ 0 := by
  intro hzero
  have hcount := hb.orders o.locate o.isBuy
  rw [hzero, ordersOf_eq_card] at hcount
  exact Finset.notMem_empty o (Finset.card_eq_zero.mp hcount.symm ▸
    Finset.mem_filter.mpr ⟨ho, rfl, rfl⟩)

/-- The one that joins is behind it, and the others still are. -/
theorem Priced.placed (hp : Priced e h) (hb : Books e) {r : OrderRequest}
    (hno : ∀ o ∈ e.table.held, o.token ≠ r.token) (hpl : Placed e r e') :
    Priced e' (h.record (.order r) (e', true)) := by
  intro o ho
  rw [hpl.held] at ho
  rw [hpl.symbols]
  rcases Finset.mem_insert.mp ho with rfl | ho
  · have hprice : (h.record (.order r) (e', true)).priceOf r.token = r.price := by
      simp [History.record, History.priceOf]
    rw [Function.update_self, hprice]
    exact place_best_new _ _ _ _
  · have hprice : (h.record (.order r) (e', true)).priceOf o.token = h.priceOf o.token := by
      simp [History.record, History.priceOf, Ne.symm (hno o ho)]
    rw [hprice, Function.update_apply]
    split
    case isTrue hloc =>
      have hbest := place_best_old (hb.orders_ne_zero ho) (hp o ho) r.isBuy r.shares r.price
      rwa [hloc] at hbest
    case isFalse => exact hp o ho

/-- A side that keeps an order keeps its best price. -/
theorem Books.best_lost (hb : Books e) {o x : OpenOrder} {n : UInt32} {traded : Bool}
    (ho : o ∈ e.table.held) (hlost : Lost e o n traded e')
    (hx : x ∈ lostFrom e.table.held o n) :
    (e'.symbols x.locate).best x.isBuy = (e.symbols x.locate).best x.isBuy := by
  rw [hlost.symbols, Function.update_apply]
  split
  case isFalse => rfl
  case isTrue hloc =>
    rw [hloc, lostBy]
    split
    case isFalse => exact SymbolRisk.lose_best _ _ _ _ _
    case isTrue hlast =>
      by_cases hzero : SymbolRisk.fewer
          (((e.symbols o.locate).lose o.isBuy n traded).workingOrders o.isBuy) = 0
      · have hside : x.isBuy ≠ o.isBuy := by
          intro hside
          rw [SymbolRisk.lose_workingOrders] at hzero
          have hnone := hb.last_order ho hlast hzero
          rw [ordersOf_eq_card] at hnone
          exact Finset.notMem_empty x (Finset.card_eq_zero.mp hnone ▸
            Finset.mem_filter.mpr ⟨hx, hloc, hside⟩)
        rw [(SymbolRisk.close_of_eq _ _ _ hzero).2.2 hside, SymbolRisk.lose_best]
      · rw [(SymbolRisk.close_of_ne _ _ x.isBuy hzero).2.1, SymbolRisk.lose_best]

/-- No event leaves an open order ahead. -/
theorem Priced.step {ev : RiskEvent} {sent : Bool} (hp : Priced e h) (hb : Books e)
    (hdo : Step e ev e' sent) : Priced e' (h.record ev (e', sent)) := by
  cases hdo with
  | refused => exact hp
  | placed _ hno hpl => exact hp.placed hb hno hpl
  | unknown => exact hp
  | lost ho hl =>
    intro x hx
    rw [hl.held] at hx
    obtain ⟨y, hy, htoken, hlocate, hisBuy⟩ := mem_lostFrom ho hx
    rw [hb.best_lost ho hl hx, ← hlocate, ← hisBuy, ← htoken]
    exact hp y hy

/-- **A self-cross is never missed.** After any run, an order that passes the check is priced
away from every open order on the other side of its symbol. -/
theorem no_self_cross (start : RiskEngine) (hstart : Idle start) (events : List RiskEvent) :
    ∃ e h, run trade (start, {}) events = some (e, h) ∧
      ∀ r, e.check r = some .none → ∀ o ∈ e.table.held, o.locate = r.locate →
        (r.isBuy = true → o.isBuy = false → r.price < h.priceOf o.token) ∧
        (r.isBuy = false → o.isBuy = true → h.priceOf o.token < r.price) := by
  have hidle : Priced start {} := by
    intro o ho
    rw [hstart.held] at ho
    exact absurd ho (Finset.notMem_empty o)
  obtain ⟨e, h, hrun, hb, hp⟩ := run_kept (fun _ _ _ _ _ hb hp hdo => Priced.step hp hb hdo)
    events hstart.books hidle
  refine ⟨e, h, hrun, fun r hcheck o ho hloc => ?_⟩
  have hcross := (passes_of_check hcheck).noCross
  have hbehind := hp o ho
  have horders := UInt32.pos_iff_ne_zero.mpr (hb.orders_ne_zero ho)
  rw [hloc] at hbehind horders
  constructor
  · intro hbuy hsell
    rw [selfCross, if_pos hbuy, decide_eq_false_iff_not] at hcross
    rw [hsell] at hbehind horders
    exact Int.lt_of_lt_of_le (Int.not_le.mp fun hle => hcross ⟨horders, hle⟩) hbehind
  · intro hsell hbuy
    rw [selfCross, if_neg (by rw [hsell]; decide), decide_eq_false_iff_not] at hcross
    rw [hbuy] at hbehind horders
    exact Int.lt_of_le_of_lt hbehind (Int.not_le.mp fun hle => hcross ⟨horders, hle⟩)

/-- With a share bid for, a share may be offered above the bid. -/
theorem no_self_cross_oneBid : ∃ e h,
    run trade (opened onePerSecond, {}) [.order (oneShare 65 199999999)] = some (e, h) ∧
      (∃ o ∈ e.table.held, o.isBuy = true) ∧
      ∀ r, e.check r = some .none → ∀ o ∈ e.table.held, o.locate = r.locate →
        (r.isBuy = true → o.isBuy = false → r.price < h.priceOf o.token) ∧
        (r.isBuy = false → o.isBuy = true → h.priceOf o.token < r.price) := by
  obtain ⟨e, h, hrun, hcross⟩ := no_self_cross (opened onePerSecond) (idle_opened _)
    [.order (oneShare 65 199999999)]
  have hheld : (run trade (opened onePerSecond, {}) [.order (oneShare 65 199999999)]).map
      (fun w => decide (∃ o ∈ w.1.table.held, o.isBuy = true)) = some true := by decide +kernel
  rw [hrun] at hheld
  exact ⟨e, h, hrun, of_decide_eq_true (Option.some.inj hheld), hcross⟩

/-! ## The message rate -/

/-- The times at which orders are wanted. -/
def wantedAt (events : List RiskEvent) : List UInt64 :=
  events.filterMap fun
    | .order r => some r.nowNs
    | .report .. => none

/-- The orders that go out are some of those wanted, in their order. -/
theorem times_sublist : ∀ (events : List RiskEvent) {e e' : RiskEngine} {h h' : History},
    run trade (e, h) events = some (e', h') →
      ∃ new, h'.times = new ++ h.times ∧ new.reverse.Sublist (wantedAt events) := by
  intro events
  induction events with
  | nil =>
    intro e e' h h' hrun
    cases hrun
    exact ⟨[], rfl, List.Sublist.refl _⟩
  | cons ev rest ih =>
    intro e e' h h' hrun
    obtain ⟨⟨e₁, h₁⟩, hstep, hrest⟩ := Option.bind_eq_some_iff.mp hrun
    obtain ⟨new, hnew, hsub⟩ := ih hrest
    obtain ⟨e₂, sent, _, heq⟩ := observed_cases hstep
    cases heq
    cases ev with
    | report token said => exact ⟨new, hnew, hsub⟩
    | order r =>
      cases sent with
      | false => exact ⟨new, hnew, hsub.trans (List.sublist_cons_self _ _)⟩
      | true =>
        refine ⟨new ++ [r.nowNs], ?_, ?_⟩
        · rw [hnew, List.append_assoc]
          rfl
        · rw [List.reverse_append]
          exact hsub.cons_cons r.nowNs

/-- The limiter has seen the orders that went out, as long as they came in order. -/
def Metered (limit : UInt32) (e : RiskEngine) (h : History) : Prop :=
  e.limits.maxMessagesPerSecond = limit ∧
    (h.times.Pairwise (fun later earlier => earlier ≤ later) →
      RateLimiter.Admitted limit e.rate h.times)

/-- Only an order that goes out is metered, and it was below the limit. -/
theorem Metered.step {limit : UInt32} {ev : RiskEvent} {sent : Bool} (hm : Metered limit e h)
    (hdo : Step e ev e' sent) : Metered limit e' (h.record ev (e', sent)) := by
  cases hdo with
  | refused => exact hm
  | placed hpasses _ hpl =>
    refine ⟨hpl.limits ▸ hm.1, fun hsorted => ?_⟩
    obtain ⟨hlast, hsorted⟩ := List.pairwise_cons.mp hsorted
    rw [hpl.rate]
    exact (hm.2 hsorted).send hlast (hm.1 ▸ hpasses.slow)
  | unknown => exact hm
  | lost _ hl =>
    rw [Metered, hl.limits, hl.rate]
    exact hm

/-- **The message rate.** After any run in which orders are wanted in order of time, no second
holds more orders than the limit, as long as no two of them are ten buckets but less than a
second apart. -/
theorem rate_bounded (start : RiskEngine) (hstart : Idle start) (hrate : start.rate = {})
    (events : List RiskEvent) (htimes : (wantedAt events).Pairwise (· ≤ ·)) :
    ∃ e h, run trade (start, {}) events = some (e, h) ∧
      (h.times.Pairwise RateLimiter.Remembered →
        ∀ t, h.times.countP (RateLimiter.inSecond t) ≤
          start.limits.maxMessagesPerSecond.toNat) := by
  have hidle : Metered start.limits.maxMessagesPerSecond start {} :=
    ⟨rfl, fun _ => hrate ▸ .start⟩
  obtain ⟨e, h, hrun, -, hm⟩ := run_kept (fun _ _ _ _ _ _ hm hdo => Metered.step hm hdo)
    events hstart.books hidle
  refine ⟨e, h, hrun, fun hremembered t => ?_⟩
  obtain ⟨new, hnew, hsub⟩ := times_sublist events hrun
  have hsorted : h.times.Pairwise (fun later earlier => earlier ≤ later) := by
    rw [hnew]
    exact List.pairwise_reverse.mp (by simpa [History.times] using htimes.sublist hsub)
  exact (hm.2 hsorted).second hremembered t

/-- One order at the end of a bucket, and one at the beginning of the tenth bucket after it. -/
def tenBucketsApart : List RiskEvent :=
  [.order (oneShare 65 199999999), .order (oneShare 66 1100000000)]

/-- The limiter has forgotten the first of them, which is nine tenths of a second old. -/
theorem rate_exceeded_tenBucketsApart :
    ¬∀ (start : RiskEngine) (events : List RiskEvent), Idle start → start.rate = {} →
      (wantedAt events).Pairwise (· ≤ ·) → ∃ e h, run trade (start, {}) events = some (e, h) ∧
        ∀ t, h.times.countP (RateLimiter.inSecond t) ≤
          start.limits.maxMessagesPerSecond.toNat := by
  intro hall
  obtain ⟨e, h, hrun, hsecond⟩ := hall (opened onePerSecond) tenBucketsApart (idle_opened _) rfl
    (by decide)
  have htimes : (run trade (opened onePerSecond, {}) tenBucketsApart).map (fun w => w.2.times) =
      some [1100000000, 199999999] := by decide +kernel
  rw [hrun] at htimes
  have htimes : h.times = [1100000000, 199999999] := Option.some.inj htimes
  have hsecond := hsecond 199999999
  rw [htimes] at hsecond
  exact absurd hsecond (by decide)

/-- A bucket later the first is more than a second old. -/
theorem rate_bounded_elevenBuckets : ∃ e h,
    run trade (opened onePerSecond, {})
        [.order (oneShare 65 199999999), .order (oneShare 66 1200000000)] = some (e, h) ∧
      h.times = [1200000000, 199999999] ∧ ∀ t, h.times.countP (RateLimiter.inSecond t) ≤ 1 := by
  obtain ⟨e, h, hrun, hbounded⟩ := rate_bounded (opened onePerSecond) (idle_opened _) rfl
    [.order (oneShare 65 199999999), .order (oneShare 66 1200000000)] (by decide)
  have htimes : (run trade (opened onePerSecond, {})
      [.order (oneShare 65 199999999), .order (oneShare 66 1200000000)]).map
      (fun w => w.2.times) = some [1200000000, 199999999] := by decide +kernel
  rw [hrun] at htimes
  have htimes : h.times = [1200000000, 199999999] := Option.some.inj htimes
  exact ⟨e, h, hrun, htimes, hbounded (by rw [htimes]; decide)⟩

end RiskEngine
end Tickerplant
