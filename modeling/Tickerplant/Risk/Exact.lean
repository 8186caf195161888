import Tickerplant.Risk.Runs

/-!
# The bookkeeping is exact (`include/tick/risk.hpp`)

In every state a run reaches the table answers as the history's map of the open orders, and the
tallies are the sums over it. The one thing that can go wrong is the width of a total: a side of a
symbol may work for more shares than a signed 64-bit number holds (`bookkeeping_exact_iff`), which
takes more than `2 ^ 31` orders.

The map of the open orders is the history's own (`History.record`): it is told the events and knows
nothing of slots, clamps or tallies. An entry of the table and an entry of the map are tied by
token (`Shows`), and a report does the same to both, since the truncated difference of the one is
the clamped difference of the other.

That the totals can wrap is not only arithmetic: the orders that do it have to pass the check, one
after the other, each judged with the totals as they are by then. `ladder` is such a run. A symbol
that is short by the limit is bid for until the position would be long by the limit, which is the
one way for `2 ^ 63` shares to work on one side; every rung passes (`Climbed.passes`), and the last
one takes the total past the end of its type.
-/

set_option autoImplicit false

namespace Tickerplant

open Interleave

namespace RiskEngine

variable {e e' : RiskEngine} {h : History}

/-! ## What the engine shows -/

/-- What the history says works is what the table holds. -/
structure Shows (e : RiskEngine) (h : History) : Prop where
  /-- An entry of the table is an entry of the map. -/
  held : ∀ o ∈ e.table.held, h.working o.token = some o.working
  /-- And the map has no others. -/
  absent : ∀ token, (∀ o ∈ e.table.held, o.token ≠ token) → h.working token = none

/-- Nothing works, on either side. -/
theorem Idle.shows (hi : Idle e) : Shows e {} where
  held o ho := by rw [hi.held] at ho; exact absurd ho (Finset.notMem_empty o)
  absent _ _ := rfl

/-- A report takes what it asks, as far as there is that much. -/
theorem toNat_takes (leaves : UInt32) (said : RiskReport) :
    (takes leaves said).toNat = min leaves.toNat (said.asks leaves.toNat) := by
  have hwanted : (wanted leaves said).toNat = said.asks leaves.toNat := by
    cases said with
    | fill | reject => rfl
    | cancelAcked decrement =>
      rw [wanted, RiskReport.asks]
      split <;> rfl
  rw [takes, clamp, ← hwanted]
  split
  case isTrue hlt => exact (Nat.min_eq_left (Nat.le_of_lt (UInt32.lt_iff_toNat_lt.mp hlt))).symm
  case isFalse hlt =>
    exact (Nat.min_eq_right (UInt32.le_iff_toNat_le.mp (UInt32.not_lt.mp hlt))).symm

/-- What is left is a truncated difference. -/
theorem toNat_left (leaves : UInt32) (said : RiskReport) :
    (leaves - takes leaves said).toNat = leaves.toNat - said.asks leaves.toNat := by
  have htakes := toNat_takes leaves said
  rw [UInt32.toNat_sub_of_le _ _ (takes_le _ _)]
  omega

/-- An order that goes out is in both. -/
theorem Shows.placed (hs : Shows e h) {r : OrderRequest}
    (hno : ∀ o ∈ e.table.held, o.token ≠ r.token) (hp : Placed e r e') :
    Shows e' (h.record (.order r) (e', true)) where
  held o ho := by
    rw [hp.held] at ho
    rcases Finset.mem_insert.mp ho with rfl | ho
    · exact Function.update_self _ _ _
    · exact (Function.update_of_ne (hno o ho) _ _).trans (hs.held o ho)
  absent token htoken := by
    rw [hp.held] at htoken
    have hne : r.token ≠ token := htoken _ (Finset.mem_insert_self _ _)
    refine (Function.update_of_ne (Ne.symm hne) _ _).trans (hs.absent token fun o ho => ?_)
    exact htoken o (Finset.mem_insert_of_mem ho)

/-- An order that loses shares has as many left in both, or is gone from both. -/
theorem Shows.lost (hs : Shows e h) (hb : Books e) {o : OpenOrder} (ho : o ∈ e.table.held)
    {said : RiskReport} (hl : Lost e o (takes o.leaves said) (trades said) e') :
    Shows e' (h.record (.report o.token said) (e', false)) := by
  have hleft := toNat_left o.leaves said
  have hlast : takes o.leaves said = o.leaves ↔
      o.leaves.toNat - said.asks o.leaves.toNat = 0 := by
    rw [← hleft, ← sub_eq_zero_iff (takes_le _ _), ← UInt32.toNat_inj, UInt32.toNat_zero]
  have hrecord : (h.working o.token).bind (fun w => w.after said) = o.working.after said := by
    rw [hs.held o ho]
    rfl
  -- the other orders have other tokens
  have hother : ∀ x ∈ e.table.held.erase o, x.token ≠ o.token := by
    intro x hx htoken
    obtain ⟨hne, hx⟩ := Finset.mem_erase.mp hx
    exact hne (hb.wf.held_inj hx ho htoken)
  constructor
  · intro x hx
    rw [hl.held, lostFrom] at hx
    show Function.update h.working o.token _ x.token = _
    rw [hrecord]
    split at hx
    case isTrue =>
      rw [Function.update_of_ne (hother x hx)]
      exact hs.held x (Finset.mem_of_mem_erase hx)
    case isFalse hne =>
      rcases Finset.mem_insert.mp hx with rfl | hx
      · rw [Function.update_self, Working.after]
        refine (if_neg fun hzero => hne (hlast.mpr hzero)).trans (congrArg some ?_)
        rw [OpenOrder.working, OpenOrder.working, ← hleft]
      · rw [Function.update_of_ne (hother x hx)]
        exact hs.held x (Finset.mem_of_mem_erase hx)
  · intro token hno
    rw [hl.held, lostFrom] at hno
    show Function.update h.working o.token _ token = _
    rw [hrecord]
    by_cases htoken : token = o.token
    · subst htoken
      rw [Function.update_self, Working.after]
      split at hno
      case isTrue hall => exact if_pos (hlast.mp hall)
      case isFalse =>
        exact absurd rfl (hno { o with leaves := o.leaves - takes o.leaves said }
          (Finset.mem_insert_self _ _))
    · rw [Function.update_of_ne htoken]
      refine hs.absent token fun x hx hxt => ?_
      have hxo : x ≠ o := fun heq => htoken (hxt.symm.trans (congrArg OpenOrder.token heq))
      split at hno
      case isTrue => exact hno x (Finset.mem_erase.mpr ⟨hxo, hx⟩) hxt
      case isFalse => exact hno x (Finset.mem_insert_of_mem (Finset.mem_erase.mpr ⟨hxo, hx⟩)) hxt

/-- Every event keeps the two in step. -/
theorem Shows.step {ev : RiskEvent} {sent : Bool} (hs : Shows e h) (hb : Books e)
    (hdo : Step e ev e' sent) : Shows e' (h.record ev (e', sent)) := by
  cases hdo with
  | refused => exact hs
  | placed _ hno hp => exact hs.placed hno hp
  | @unknown token said hno =>
    have hsame : (h.record (.report token said) (e.unknownToken, false)).working = h.working := by
      refine Function.update_eq_self_iff.mpr ?_
      rw [hs.absent token hno]
      rfl
    exact ⟨fun o ho => hsame ▸ hs.held o ho, fun t ht => hsame ▸ hs.absent t ht⟩
  | lost ho hl => exact hs.lost hb ho hl

/-- What the table answers for a token; the outer option is whether the search stops. -/
def lookup (e : RiskEngine) (token : Ouch.Token) : Option (Option Working) :=
  (e.table.findOpen token).map fun slot => slot.map fun i => (e.table.slots i).working

/-- The table answers for what it holds. -/
theorem lookup_held (hwf : e.table.Wf) {o : OpenOrder} (ho : o ∈ e.table.held) :
    e.lookup o.token = some (some o.working) := by
  obtain ⟨slot, _, hfind, hat⟩ := hwf.find_held ho
  rw [lookup, hfind, ← hat]
  rfl

/-- And for what it does not. -/
theorem lookup_absent (hwf : e.table.Wf) {token : Ouch.Token}
    (hno : ∀ o ∈ e.table.held, o.token ≠ token) : e.lookup token = some none := by
  rw [lookup, hwf.find_absent hno]
  rfl

/-- So it answers as the map does. -/
theorem Shows.lookup_eq (hs : Shows e h) (hwf : e.table.Wf) (token : Ouch.Token) :
    e.lookup token = some (h.working token) := by
  rcases held_or_absent e token with ⟨o, ho, rfl⟩ | hno
  · rw [lookup_held hwf ho, hs.held o ho]
  · rw [lookup_absent hwf hno, hs.absent token hno]

/-- The bookkeeping is exact: the table answers as the map of the open orders, each with shares
left; the tallies are the sums over it; and nothing was ever found to disagree. -/
structure Exact (e : RiskEngine) (h : History) : Prop where
  /-- The table answers as the map of the open orders. -/
  lookup : ∀ token, e.lookup token = some (h.working token)
  /-- What the map has is what the table has. -/
  held : ∀ token w, h.working token = some w ↔
    ∃ o ∈ e.table.held, o.token = token ∧ o.working = w
  /-- An open order has shares left. -/
  leaves : ∀ token w, h.working token = some w → 0 < w.leaves
  /-- The tallies of shares are the sums, not only modulo their wrap. -/
  shares : ∀ loc b, ((e.symbols loc).workingShares b).toInt = workingOf e.table.held loc b
  orders : ∀ loc b, ((e.symbols loc).workingOrders b).toNat = ordersOf e.table.held loc b
  /-- The count of open orders is the number of slots in use. -/
  openOrders : e.openOrders.toNat = ((OpenOrderTable.scheme e.table.cap).occupied
    e.table.slots).card
  ceiling : e.openOrders ≤ e.limits.maxOpenOrders
  /-- No total was ever found to be wrong. -/
  drift : e.stats.workingShareDrift = 0
  failed : e.stats.tableInsertFailed = 0

/-- The shares on every side of every symbol fit a signed 64-bit total. -/
def Fits (e : RiskEngine) : Prop := ∀ loc b, workingOf e.table.held loc b < 2 ^ 63

/-- Equality modulo `2 ^ 64` is equality exactly when the sum fits. -/
theorem Shows.exact_iff (hs : Shows e h) (hb : Books e) : Exact e h ↔ Fits e := by
  constructor
  · intro hexact loc b
    rw [← Lib.toInt_ofNat_iff, ← hb.shares]
    exact hexact.shares loc b
  · intro hfits
    have hheld : ∀ token w, h.working token = some w ↔
        ∃ o ∈ e.table.held, o.token = token ∧ o.working = w := by
      intro token w
      constructor
      · intro hw
        rcases held_or_absent e token with ⟨o, ho, rfl⟩ | hno
        · exact ⟨o, ho, rfl, Option.some.inj ((hs.held o ho).symm.trans hw)⟩
        · rw [hs.absent token hno] at hw
          exact absurd hw (by simp)
      · rintro ⟨o, ho, rfl, rfl⟩
        exact hs.held o ho
    refine ⟨hs.lookup_eq hb.wf, hheld, ?_, ?_, hb.orders, ?_, hb.ceiling, hb.drift, hb.failed⟩
    · intro token w hw
      obtain ⟨o, ho, -, rfl⟩ := (hheld token w).mp hw
      exact Nat.pos_of_ne_zero fun hzero => hb.leaves o ho (UInt32.toNat_inj.mp hzero)
    · intro loc b
      rw [hb.shares]
      exact Lib.toInt_ofNat_iff.mpr (hfits loc b)
    · rw [hb.count, hb.wf.card_held]

/-- With few orders the shares fit. -/
theorem Books.fits (hb : Books e) (hfew : e.limits.maxOpenOrders.toNat ≤ 2 ^ 31) : Fits e := by
  intro loc b
  have hle := workingOf_le e.table.held loc b
  have hceiling := UInt32.le_iff_toNat_le.mp hb.ceiling
  have hcount := hb.count
  omega

/-- **The bookkeeping**, over whole runs. Every call of a run is answered, and in the state it
ends in the books are exact exactly when the working shares fit their totals, which a limit of
`2 ^ 31` orders sees to. -/
theorem bookkeeping_exact_iff (start : RiskEngine) (hstart : Idle start)
    (events : List RiskEvent) :
    ∃ e h, run trade (start, {}) events = some (e, h) ∧ (Exact e h ↔ Fits e) ∧
      (start.limits.maxOpenOrders.toNat ≤ 2 ^ 31 → Fits e) := by
  obtain ⟨e, h, hrun, hb, hs, hlimits⟩ := run_kept
    (P := fun e h => Shows e h ∧ e.limits = start.limits)
    (fun _ _ _ _ _ hb hp hdo => ⟨hp.1.step hb hdo, hdo.limits.trans hp.2⟩)
    events hstart.books ⟨hstart.shows, rfl⟩
  exact ⟨e, h, hrun, hs.exact_iff hb, fun hfew => hb.fits (by rwa [hlimits])⟩

/-- Six of ten shares are left after a fill of four, a fill of an order that never was and a
fill of nothing. -/
theorem bookkeeping_exact_iff_partFilled : ∃ e h,
    run trade (opened onePerSecond, {})
      [.order { oneShare 65 199999999 with shares := 10 },
        .report (oneShare 65 0).token (.fill 4 1), .report (oneShare 66 0).token (.fill 4 1),
        .report (oneShare 65 0).token (.fill 0 1)] = some (e, h) ∧
      (e.symbols 0).workingBuyShares = 6 ∧ Exact e h := by
  obtain ⟨e, h, hrun, hiff, hfits⟩ := bookkeeping_exact_iff (opened onePerSecond) (idle_opened _)
    [.order { oneShare 65 199999999 with shares := 10 },
      .report (oneShare 65 0).token (.fill 4 1), .report (oneShare 66 0).token (.fill 4 1),
      .report (oneShare 65 0).token (.fill 0 1)]
  have hshares : (run trade (opened onePerSecond, {})
      [.order { oneShare 65 199999999 with shares := 10 },
        .report (oneShare 65 0).token (.fill 4 1), .report (oneShare 66 0).token (.fill 4 1),
        .report (oneShare 65 0).token (.fill 0 1)]).map
      (fun w => (w.1.symbols 0).workingBuyShares) = some 6 := by decide +kernel
  rw [hrun] at hshares
  exact ⟨e, h, hrun, Option.some.inj hshares, hiff.mpr (hfits (by decide))⟩

/-! ### More shares than a total holds

A book of one symbol, short by the limit of `2 ^ 62` shares, is bid for up to the other limit:
`2 ^ 31` orders of as many shares as fit one, and a last one. Each passes, and together they work
for `2 ^ 63` shares. -/

/-- The widest limits there are. -/
def ladderLimits : RiskLimits :=
  { maxOrderShares := 0xFFFFFFFF, maxOrderNotional := 0xFFFFFFFFFFFFFFFF,
    maxPositionShares := 0x4000000000000000, maxSymbolNotional := 0xFFFFFFFFFFFFFFFF,
    maxOpenOrders := 0xFFFFFFFF, maxMessagesPerSecond := 0xFFFFFFFF }

/-- Short by the limit. -/
def short : RiskEngine :=
  { make ladderLimits with
    symbols := fun _ => { enabled := true, position := -0x4000000000000000 } }

/-- Nothing works on it. -/
theorem idle_short : Idle short :=
  { idle_make ladderLimits with
    shares := fun _ b => by cases b <;> rfl
    orders := fun _ b => by cases b <;> rfl }

/-- A token of its own for each rung. -/
def rungToken (k : ℕ) : Ouch.Token := ⟨Lib.be 14 k, Lib.length_be 14 k⟩

/-- A share bid and a share offered at a price of one. -/
def evenBook : TopOfBook := { bidPrice := 1, bidQty := 1, askPrice := 1, askQty := 1 }

/-- One rung: as many shares as fit one order, and the last one to the limit. -/
def rung (k : ℕ) : OrderRequest :=
  { token := rungToken k, shares := if k < 2 ^ 31 then 0xFFFFFFFF else 0x80000000, price := 1,
    book := evenBook, bookTsNs := 1, nowNs := 1 }

/-- The first so many of them. -/
def ladder (n : ℕ) : List RiskEvent := (List.range n).map fun k => .order (rung k)

/-- The shares of the first rungs. -/
def climbed (k : ℕ) : ℕ := if k ≤ 2 ^ 31 then k * (2 ^ 32 - 1) else 2 ^ 63

/-- As many shares as the rung is for. -/
theorem toNat_rung_shares (k : ℕ) :
    (rung k).shares.toNat = if k < 2 ^ 31 then 2 ^ 32 - 1 else 2 ^ 31 := by
  show (if k < 2 ^ 31 then (0xFFFFFFFF : UInt32) else 0x80000000).toNat = _
  split <;> rfl

/-- One rung more is that many shares more. -/
theorem climbed_succ {k : ℕ} (hk : k ≤ 2 ^ 31) :
    climbed (k + 1) = (rung k).shares.toNat + climbed k := by
  rw [toNat_rung_shares, climbed, climbed, if_pos hk]
  by_cases hlast : k < 2 ^ 31
  · rw [if_pos hlast, if_pos (by omega)]
    omega
  · rw [if_neg hlast, if_neg (by omega)]
    omega

/-- The top is at `2 ^ 63`. -/
theorem climbed_le (k : ℕ) : climbed k ≤ 2 ^ 63 := by
  rw [climbed]
  split <;> omega

/-- No token comes twice. -/
theorem rungToken_inj {j k : ℕ} (hj : j < 2 ^ 32) (hk : k < 2 ^ 32)
    (h : rungToken j = rungToken k) : j = k := by
  have hbytes := congrArg (fun t => Lib.ofBe t.chars) h
  have hwide : (2 : ℕ) ^ 32 ≤ 256 ^ 14 := by decide
  simpa only [rungToken, Lib.ofBe_be_of_lt (Nat.lt_of_lt_of_le hj hwide),
    Lib.ofBe_be_of_lt (Nat.lt_of_lt_of_le hk hwide)] using hbytes

/-- The engine on the ladder, with so many rungs climbed. -/
structure Climbed (k : ℕ) (e : RiskEngine) (h : History) : Prop where
  books : Books e
  limits : e.limits = ladderLimits
  live : e.tripped = false
  enabled : (e.symbols 0).enabled = true
  trading : (e.symbols 0).halted = false
  /-- The position has not moved: nothing fills. -/
  position : (e.symbols 0).position = -0x4000000000000000
  /-- Nothing is offered, so nothing is crossed. -/
  sells : ordersOf e.table.held 0 false = 0
  /-- The shares of the rungs work. -/
  working : workingOf e.table.held 0 true = climbed k
  tokens : ∀ o ∈ e.table.held, ∃ j < k, o.token = rungToken j
  count : e.openOrders.toNat = k
  times : h.times = List.replicate k 1
  /-- The limiter has let them all through. -/
  rate : RateLimiter.Admitted 0xFFFFFFFF e.rate h.times

variable {k : ℕ}

/-- At the bottom nothing works. -/
theorem climbed_zero : Climbed 0 short {} where
  books := idle_short.books
  limits := rfl
  live := rfl
  enabled := rfl
  trading := rfl
  position := rfl
  sells := by rw [idle_short.held]; rfl
  working := by rw [idle_short.held]; rfl
  tokens o ho := by rw [idle_short.held] at ho; exact absurd ho (Finset.notMem_empty o)
  count := rfl
  times := rfl
  rate := .start

/-- The widest limit is none. -/
theorem le_max64 (x : UInt64) : x ≤ 0xFFFFFFFFFFFFFFFF :=
  UInt64.le_iff_toNat_le.mpr (Nat.le_of_lt_succ x.toNat_lt)

/-- If all of them fill, this one too, the position is as far above the limit's negation as was
bid. -/
theorem Climbed.worstLong (hc : Climbed k e h) (hk : k ≤ 2 ^ 31) :
    (e.worstLong (rung k)).toInt = -2 ^ 62 + climbed (k + 1) := by
  have hshares : (e.symbols 0).workingBuyShares = Int64.ofNat (climbed k) :=
    hc.working ▸ hc.books.shares 0 true
  have hlong : e.worstLong (rung k) = Int64.ofInt (-2 ^ 62 + climbed (k + 1)) := by
    show (e.symbols 0).position + (e.symbols 0).workingBuyShares + signed (rung k).shares = _
    rw [hc.position, hshares, signed, climbed_succ hk, Nat.cast_add,
      Int.add_comm (_ : ℤ) (climbed k),
      ← Int.add_assoc, Int64.ofInt_add, Int64.ofInt_add]
    rfl
  have hle := climbed_le (k + 1)
  rw [hlong, Lib.toInt_ofInt_of_mem (by omega) (by omega)]

/-- The next rung passes. -/
theorem Climbed.passes (hc : Climbed k e h) (hk : k ≤ 2 ^ 31) : Passes e (rung k) := by
  have hmax : e.limits.maxPositionShares = 0x4000000000000000 := by rw [hc.limits]; rfl
  have hsells : (e.symbols 0).workingSellShares = 0 := by
    have hsells := hc.books.shares 0 false
    rwa [workingOf_eq_zero hc.sells] at hsells
  have hsellOrders : (e.symbols 0).workingSellOrders = 0 :=
    UInt32.toNat_inj.mp ((hc.books.orders 0 false).trans hc.sells)
  have hprice : 0 < (rung k).price := Int.one_pos
  have htwoSided : (rung k).book.twoSided = true := show evenBook.twoSided = true by decide
  have href : 0 < (rung k).book.microPrice := show 0 < evenBook.microPrice by decide
  -- one test after the other; the two that matter are the position and the message rate
  refine ⟨hc.live, hc.enabled, hc.trading, ⟨?_, ?_⟩, hprice, ?_, ?_, htwoSided, href, ?_, ?_, ?_,
    ?_, ?_, ?_, ?_, ?_⟩
  · intro hzero
    have hshares := toNat_rung_shares k
    rw [hzero, UInt32.toNat_zero] at hshares
    split at hshares <;> omega
  · rw [hc.limits]
    exact UInt32.le_iff_toNat_le.mpr (Nat.le_of_lt_succ (rung k).shares.toNat_lt)
  · rw [hc.limits]
    exact le_max64 _
  · rw [stale, hc.limits]
    show (decide ((1 : UInt64) = 0) || decide ((1 : UInt64) < 1) || decide ((0 : UInt64) < 1 - 1)) =
      false
    decide
  · rw [fatFinger, hc.limits]
    show decide (UInt64.ofInt evenBook.microPrice * 0 < UInt64.ofInt (if evenBook.microPrice < 1
      then 1 - evenBook.microPrice else evenBook.microPrice - 1) * 10000) = false
    decide
  · have hle := climbed_le (k + 1)
    rw [hmax, Int64.le_iff_toInt_le, hc.worstLong hk]
    show _ ≤ (0x4000000000000000 : ℤ)
    omega
  · show -e.limits.maxPositionShares ≤ (e.symbols 0).position - (e.symbols 0).workingSellShares - 0
    rw [hmax, hc.position, hsells]
    decide
  · rw [hc.limits]
    exact le_max64 _
  · refine decide_eq_false fun hpos => absurd hpos.1 ?_
    rw [show (e.symbols (rung k).locate).workingSellOrders = 0 from hsellOrders]
    exact UInt32.lt_irrefl 0
  · rw [hc.limits, UInt32.lt_iff_toNat_lt, hc.count]
    show k < 4294967295
    omega
  · have hle : h.times.countP (RateLimiter.inRing 1) ≤ k := by
      have hle := h.times.countP_le_length (p := RateLimiter.inRing 1)
      rwa [hc.times, List.length_replicate, ← hc.times] at hle
    have hcount : (e.rate.countAt 1).toNat = h.times.countP (RateLimiter.inRing 1) := by
      refine RateLimiter.countAt_eq hc.rate.paced.counts (fun t ht => ?_) (by omega)
      rw [hc.times] at ht
      rw [List.eq_of_mem_replicate ht]
    rw [hc.limits, UInt32.lt_iff_toNat_lt]
    show (e.rate.countAt 1).toNat < 4294967295
    omega
  · refine hc.books.wf.find_absent fun o ho htoken => ?_
    obtain ⟨j, hj, hrung⟩ := hc.tokens o ho
    have := rungToken_inj (by omega) (by omega) (hrung.symm.trans htoken)
    omega

/-- And with it one more is climbed. -/
theorem Climbed.succ (hc : Climbed k e h) (hk : k ≤ 2 ^ 31) :
    ∃ e' h', trade (e, h) (.order (rung k)) = some (e', h') ∧ Climbed (k + 1) e' h' := by
  have hpasses := hc.passes hk
  have hno := hpasses.absent hc.books.wf
  have hnew : (⟨(rung k).token, (rung k).shares, (rung k).locate, (rung k).isBuy, true⟩ :
      OpenOrder) ∉ e.table.held := fun hin => hno _ hin rfl
  have hroom := UInt32.lt_iff_toNat_lt.mp hpasses.room
  have hcount := hc.books.count
  have hsize := hc.books.size
  obtain ⟨hsome, hpl⟩ := onOrderSent_placed hc.books.wf hno (by omega)
  have hsymbol : (e.onOrderSent (rung k)).symbols 0 =
      (e.symbols 0).place true (rung k).shares 1 := by
    rw [hpl.symbols]
    exact Function.update_self _ _ _
  -- one clause after the other, of an order that was placed
  refine ⟨e.onOrderSent (rung k), h.record (.order (rung k)) (e.onOrderSent (rung k), true),
    ?_, hc.books.placed hpl hpasses.size.1 hno hpasses.room, hpl.limits.trans hc.limits,
    hpl.tripped.trans hc.live, ?_, ?_, ?_, ?_, ?_, ?_, ?_, ?_, ?_⟩
  · rw [trade, observed, exec, hpasses.check, Option.map_some, if_pos rfl, hsome]
    rfl
  · rw [hsymbol]
    exact hc.enabled
  · rw [hsymbol]
    exact hc.trading
  · rw [hsymbol]
    exact hc.position
  · rw [hpl.held, ordersOf]
    exact (tally_insert hnew).trans (congrArg (0 + ·) hc.sells)
  · rw [hpl.held, workingOf, climbed_succ hk, ← hc.working]
    exact tally_insert hnew
  · intro o ho
    rw [hpl.held] at ho
    rcases Finset.mem_insert.mp ho with rfl | ho
    · exact ⟨k, Nat.lt_succ_self k, rfl⟩
    · obtain ⟨j, hj, htoken⟩ := hc.tokens o ho
      exact ⟨j, Nat.lt_succ_of_lt hj, htoken⟩
  · have hcard := hc.books.placed hpl hpasses.size.1 hno hpasses.room |>.count
    rw [hcard, hpl.card hno, ← hcount, hc.count]
  · exact congrArg ((1 : UInt64) :: ·) hc.times
  · rw [hpl.rate]
    refine hc.rate.send (fun t ht => ?_) ?_
    · rw [hc.times] at ht
      rw [List.eq_of_mem_replicate ht]
      exact UInt64.le_refl 1
    · have hslow := hpasses.slow
      rw [hc.limits] at hslow
      exact hslow

/-- Every rung can be climbed. -/
theorem climb : ∀ n ≤ 2 ^ 31 + 1, ∃ e h,
    run trade (short, {}) (ladder n) = some (e, h) ∧ Climbed n e h := by
  intro n
  induction n with
  | zero => exact fun _ => ⟨short, {}, rfl, climbed_zero⟩
  | succ k ih =>
    intro hk
    obtain ⟨e, h, hrun, hc⟩ := ih (by omega)
    obtain ⟨e', h', hstep, hc'⟩ := hc.succ (by omega)
    refine ⟨e', h', ?_, hc'⟩
    rw [ladder, List.range_succ, List.map_append, run_append, ← ladder, hrun, Option.bind_some]
    exact congrArg (Option.bind · _) hstep

/-- At the top the total of the working shares has wrapped. -/
theorem climb_top : ∃ e h, run trade (short, {}) (ladder (2 ^ 31 + 1)) = some (e, h) ∧
    (e.symbols 0).workingBuyShares = Int64.minValue := by
  obtain ⟨e, h, hrun, hc⟩ := climb (2 ^ 31 + 1) (Nat.le_refl _)
  have hshares : (e.symbols 0).workingBuyShares = Int64.ofNat (climbed (2 ^ 31 + 1)) :=
    hc.working ▸ hc.books.shares 0 true
  rw [climbed, if_neg (by omega)] at hshares
  exact ⟨e, h, hrun, hshares⟩

/-- **A total that wraps**: at the top of the ladder the books are not exact. -/
theorem bookkeeping_wraps_ladder :
    ¬∀ (start : RiskEngine) (events : List RiskEvent), Idle start →
      ∃ e h, run trade (start, {}) events = some (e, h) ∧ Exact e h := by
  intro hall
  obtain ⟨e, h, hrun, hexact⟩ := hall short (ladder (2 ^ 31 + 1)) idle_short
  obtain ⟨e', h', hrun', hmin⟩ := climb_top
  obtain ⟨rfl, rfl⟩ := Prod.mk.inj (Option.some.inj (hrun.symm.trans hrun'))
  have hshares : (e.symbols 0).workingBuyShares.toInt = _ := hexact.shares 0 true
  rw [hmin, Int64.toInt_minValue] at hshares
  omega

end RiskEngine
end Tickerplant
