import Mathlib.Algebra.Order.BigOperators.Group.Finset
import Mathlib.Data.Finset.Card
import Tickerplant.Lib.Interleave
import Tickerplant.Risk.Engine

/-!
# The risk engine's books

The open order table says which orders work and with how many shares; the tallies of a symbol say
it again, summed for each side. `Books` is what ties them together, and every event keeps it.

The tallies of shares are 64-bit numbers, so what is kept is equality modulo their wrap. They are
the exact sums as long as the sums fit, which `bookkeeping_exact_iff` says of every state a run
reaches.

What an event does is said once, in three shapes: an order is `Placed`, an order has `Lost` shares,
or nothing but counters moved (`Same`). `Step` is their union with what is known of the event, and
`exec_step` says that every event is one of them. A fill, a cancel and a reject are all losses of
shares: they differ in how many, and in whether the shares become position. So the invariant has
one lemma for each shape, and so has every other one that is built on it.

Retiring an order on a side that empties sets the side's total to zero instead of subtracting, and
counts a drift if it was not zero by then. The total is zero modulo its wrap whenever no order is
left, so the drift is never counted, which is one of the clauses of `Books` and could not be proved
alone.

The table is seen as the set of its occupied entries, which have different tokens. An order that
loses shares is one entry for another, and what the sums over the set do then is `workingOf_lost`
and `ordersOf_lost`.
-/

set_option autoImplicit false

namespace Tickerplant

open Interleave

/-! ## The two sides of a symbol -/

namespace SymbolRisk

variable (s : SymbolRisk) (b b' : Bool) (n : UInt32) (p : Price) (traded : Bool)

/-- The shares of a side that work. -/
def workingShares : Int64 := if b then s.workingBuyShares else s.workingSellShares

/-- How many orders of a side work. -/
def workingOrders : UInt32 := if b then s.workingBuyOrders else s.workingSellOrders

/-- The most aggressive working price, as far as it is remembered. -/
def best : Price := if b then s.bestWorkingBuy else s.bestWorkingSell

/-- Only the side that loses shares counts fewer. -/
theorem lose_workingShares : (s.lose b n traded).workingShares b' =
    if b' = b then s.workingShares b' - signed n else s.workingShares b' := by
  cases b <;> cases b' <;> cases traded <;> rfl

/-- An order that loses shares is still an order. -/
theorem lose_workingOrders : (s.lose b n traded).workingOrders b' = s.workingOrders b' := by
  cases b <;> cases traded <;> rfl

/-- And its price is not looked at. -/
theorem lose_best : (s.lose b n traded).best b' = s.best b' := by
  cases b <;> cases traded <;> rfl

/-- Only the side that is joined counts more. -/
theorem place_workingShares : (s.place b n p).workingShares b' =
    if b' = b then s.workingShares b' + signed n else s.workingShares b' := by
  cases b <;> cases b' <;> rfl

/-- One order more, on that side. -/
theorem place_workingOrders : (s.place b n p).workingOrders b' =
    if b' = b then s.workingOrders b' + 1 else s.workingOrders b' := by
  cases b <;> cases b' <;> rfl

/-- A side that still has orders keeps its shares and its price. -/
theorem close_of_ne (h : fewer (s.workingOrders b) ≠ 0) :
    (s.close b).workingShares b' = s.workingShares b' ∧ (s.close b).best b' = s.best b' ∧
      (s.close b).workingOrders b' =
        if b' = b then fewer (s.workingOrders b) else s.workingOrders b' := by
  cases b with
  | true =>
    have hclose : s.close true = { s with workingBuyOrders := fewer s.workingBuyOrders } := if_neg h
    rw [hclose]
    cases b' <;> exact ⟨rfl, rfl, rfl⟩
  | false =>
    have hclose : s.close false = { s with workingSellOrders := fewer s.workingSellOrders } :=
      if_neg h
    rw [hclose]
    cases b' <;> exact ⟨rfl, rfl, rfl⟩

/-- A side that has lost its last order starts again. -/
theorem close_of_eq (h : fewer (s.workingOrders b) = 0) :
    (s.close b).workingShares b' = (if b' = b then 0 else s.workingShares b') ∧
      (s.close b).workingOrders b' = (if b' = b then 0 else s.workingOrders b') ∧
      (b' ≠ b → (s.close b).best b' = s.best b') := by
  cases b with
  | true =>
    have hclose : s.close true =
        { s with workingBuyOrders := 0, bestWorkingBuy := 0, workingBuyShares := 0 } := if_pos h
    rw [hclose]
    cases b' with
    | true => exact ⟨rfl, rfl, fun hne => absurd rfl hne⟩
    | false => exact ⟨rfl, rfl, fun _ => rfl⟩
  | false =>
    have hclose : s.close false =
        { s with workingSellOrders := 0, bestWorkingSell := 0, workingSellShares := 0 } := if_pos h
    rw [hclose]
    cases b' with
    | true => exact ⟨rfl, rfl, fun _ => rfl⟩
    | false => exact ⟨rfl, rfl, fun hne => absurd rfl hne⟩

end SymbolRisk

/-! ## Sums over the open orders -/

/-- The sum of `w` over the orders on one side of a symbol. -/
def tally (orders : Finset OpenOrder) (w : OpenOrder → ℕ) (loc : UInt16) (b : Bool) : ℕ :=
  ∑ o ∈ orders, if o.locate = loc ∧ o.isBuy = b then w o else 0

/-- The shares that work on a side. -/
def workingOf (orders : Finset OpenOrder) (loc : UInt16) (b : Bool) : ℕ :=
  tally orders (fun o => o.leaves.toNat) loc b

/-- The orders that work on a side. -/
def ordersOf (orders : Finset OpenOrder) (loc : UInt16) (b : Bool) : ℕ :=
  tally orders (fun _ => 1) loc b

section Tally

variable {orders : Finset OpenOrder} {w : OpenOrder → ℕ} {loc : UInt16} {b : Bool}
  {o : OpenOrder}

/-- One entry more. -/
theorem tally_insert (ho : o ∉ orders) : tally (insert o orders) w loc b =
    (if o.locate = loc ∧ o.isBuy = b then w o else 0) + tally orders w loc b :=
  Finset.sum_insert ho

/-- One entry fewer. -/
theorem tally_erase (ho : o ∈ orders) : tally orders w loc b =
    (if o.locate = loc ∧ o.isBuy = b then w o else 0) + tally (orders.erase o) w loc b :=
  (Finset.add_sum_erase orders (fun o => if o.locate = loc ∧ o.isBuy = b then w o else 0) ho).symm

/-- Summing ones is counting. -/
theorem ordersOf_eq_card : ordersOf orders loc b =
    (orders.filter fun o => o.locate = loc ∧ o.isBuy = b).card :=
  (Finset.card_filter _ _).symm

/-- No side has more orders than there are. -/
theorem ordersOf_le_card (orders : Finset OpenOrder) (loc : UInt16) (b : Bool) :
    ordersOf orders loc b ≤ orders.card := by
  rw [ordersOf_eq_card]
  exact Finset.card_filter_le _ _

/-- No order has more shares than one field holds. -/
theorem workingOf_le (orders : Finset OpenOrder) (loc : UInt16) (b : Bool) :
    workingOf orders loc b ≤ orders.card * (2 ^ 32 - 1) := by
  refine Finset.sum_le_card_nsmul _ _ _ fun o _ => ?_
  split
  case isTrue => exact Nat.le_pred_of_lt o.leaves.toNat_lt
  case isFalse => exact Nat.zero_le _

/-- A side with no orders has no shares. -/
theorem workingOf_eq_zero (h : ordersOf orders loc b = 0) : workingOf orders loc b = 0 := by
  rw [ordersOf_eq_card, Finset.card_eq_zero, Finset.filter_eq_empty_iff] at h
  exact Finset.sum_eq_zero fun o ho => if_neg (h ho)

end Tally

/-! ## What an event does -/

namespace RiskEngine

/-- The open orders after `o` has lost `n` shares. -/
def lostFrom (orders : Finset OpenOrder) (o : OpenOrder) (n : UInt32) : Finset OpenOrder :=
  if n = o.leaves then orders.erase o
  else insert { o with leaves := o.leaves - n } (orders.erase o)

/-- An order that is left was there before, with its token and on its side. -/
theorem mem_lostFrom {orders : Finset OpenOrder} {o x : OpenOrder} {n : UInt32}
    (ho : o ∈ orders) (hx : x ∈ lostFrom orders o n) :
    ∃ y ∈ orders, y.token = x.token ∧ y.locate = x.locate ∧ y.isBuy = x.isBuy := by
  rw [lostFrom] at hx
  split at hx
  · exact ⟨x, Finset.mem_of_mem_erase hx, rfl, rfl, rfl⟩
  · rcases Finset.mem_insert.mp hx with rfl | hx
    · exact ⟨o, ho, rfl, rfl, rfl⟩
    · exact ⟨x, Finset.mem_of_mem_erase hx, rfl, rfl, rfl⟩

/-- A symbol after its order `o` has lost `n` shares. -/
def lostBy (s : SymbolRisk) (o : OpenOrder) (n : UInt32) (traded : Bool) : SymbolRisk :=
  if n = o.leaves then (s.lose o.isBuy n traded).close o.isBuy else s.lose o.isBuy n traded

/-- The order `o` loses `n` shares, and is retired if they are its last. -/
structure Lost (e : RiskEngine) (o : OpenOrder) (n : UInt32) (traded : Bool)
    (e' : RiskEngine) : Prop where
  wf : e'.table.Wf
  cap : e'.table.cap = e.table.cap
  /-- The entry has fewer shares, or is gone. -/
  held : e'.table.held = lostFrom e.table.held o n
  /-- Its symbol has lost the shares, and has an order less if they were the last. -/
  symbols : e'.symbols =
    Function.update e.symbols o.locate (lostBy (e.symbols o.locate) o n traded)
  openOrders : e'.openOrders =
    if n = o.leaves then SymbolRisk.fewer e.openOrders else e.openOrders
  limits : e'.limits = e.limits
  /-- No message was sent. -/
  rate : e'.rate = e.rate
  tripped : e'.tripped = e.tripped
  /-- A drift is counted where the side empties with shares still counted. -/
  drift : e'.stats.workingShareDrift =
    if n = o.leaves ∧ ((e.symbols o.locate).lose o.isBuy n traded).drifts o.isBuy = true then
      e.stats.workingShareDrift + 1
    else e.stats.workingShareDrift
  failed : e'.stats.tableInsertFailed = e.stats.tableInsertFailed

/-- Nothing moves but counters. -/
structure Same (e e' : RiskEngine) : Prop where
  table : e'.table = e.table
  symbols : e'.symbols = e.symbols
  openOrders : e'.openOrders = e.openOrders
  limits : e'.limits = e.limits
  rate : e'.rate = e.rate
  tripped : e'.tripped = e.tripped
  drift : e'.stats.workingShareDrift = e.stats.workingShareDrift
  failed : e'.stats.tableInsertFailed = e.stats.tableInsertFailed

/-- The order goes out. -/
structure Placed (e : RiskEngine) (r : OrderRequest) (e' : RiskEngine) : Prop where
  wf : e'.table.Wf
  cap : e'.table.cap = e.table.cap
  /-- There is one entry more, and it is the order. -/
  held : e'.table.held = insert ⟨r.token, r.shares, r.locate, r.isBuy, true⟩ e.table.held
  symbols : e'.symbols = Function.update e.symbols r.locate
    ((e.symbols r.locate).place r.isBuy r.shares r.price)
  openOrders : e'.openOrders = e.openOrders + 1
  limits : e'.limits = e.limits
  /-- A message was sent, at the time of the order. -/
  rate : e'.rate = e.rate.record r.nowNs
  tripped : e'.tripped = e.tripped
  drift : e'.stats.workingShareDrift = e.stats.workingShareDrift
  failed : e'.stats.tableInsertFailed = e.stats.tableInsertFailed

variable {e e' : RiskEngine} {o : OpenOrder} {n : UInt32} {traded : Bool} {slot : ℕ}

/-- Counting an unknown token moves a counter. -/
theorem same_unknownToken : Same e e.unknownToken := ⟨rfl, rfl, rfl, rfl, rfl, rfl, rfl, rfl⟩

/-- Nothing is left exactly when all was taken. -/
theorem sub_eq_zero_iff {a b : UInt32} (h : b ≤ a) : a - b = 0 ↔ b = a := by
  have hsub := UInt32.toNat_sub_of_le a b h
  rw [← UInt32.toNat_inj, ← UInt32.toNat_inj, hsub, UInt32.toNat_zero]
  have := UInt32.le_iff_toNat_le.mp h
  omega

/-- The order `o` leaves the table and its side. -/
structure Retired (e : RiskEngine) (o : OpenOrder) (e' : RiskEngine) : Prop where
  wf : e'.table.Wf
  cap : e'.table.cap = e.table.cap
  held : e'.table.held = e.table.held.erase o
  symbols : e'.symbols =
    Function.update e.symbols o.locate ((e.symbols o.locate).close o.isBuy)
  openOrders : e'.openOrders = SymbolRisk.fewer e.openOrders
  limits : e'.limits = e.limits
  rate : e'.rate = e.rate
  tripped : e'.tripped = e.tripped
  drift : e'.stats.workingShareDrift = if (e.symbols o.locate).drifts o.isBuy = true then
    e.stats.workingShareDrift + 1 else e.stats.workingShareDrift
  failed : e'.stats.tableInsertFailed = e.stats.tableInsertFailed

/-- Retiring takes the entry out of the set and the order off its side. -/
theorem retire_retired (hwf : e.table.Wf) (hslot : slot < e.table.cap)
    (hheld : e.table.slots slot ∈ e.table.held) :
    ∃ e', e.retire slot = some e' ∧ Retired e (e.table.slots slot) e' := by
  obtain ⟨table, herase, hwf', hcap, hheld'⟩ := hwf.eraseAt hslot hheld
  rw [retire, herase]
  exact ⟨_, rfl, hwf', hcap, hheld', rfl, rfl, rfl, rfl, rfl, rfl, rfl⟩

/-- An order lowered to nothing and retired has lost all its shares. -/
theorem Retired.lost {o₁ : OpenOrder} {e₁ : RiskEngine} (h : Retired e₁ o₁ e')
    (hlocate : o₁.locate = o.locate) (hisBuy : o₁.isBuy = o.isBuy) (hn : n = o.leaves)
    (hcap : e₁.table.cap = e.table.cap) (hheld : e₁.table.held.erase o₁ = e.table.held.erase o)
    (hsymbols : e₁.symbols =
      Function.update e.symbols o.locate ((e.symbols o.locate).lose o.isBuy n traded))
    (hsame : e₁.openOrders = e.openOrders ∧ e₁.limits = e.limits ∧ e₁.rate = e.rate ∧
      e₁.tripped = e.tripped ∧ e₁.stats = e.stats) : Lost e o n traded e' := by
  obtain ⟨hopen, hlimits, hrate, htripped, hstats⟩ := hsame
  refine ⟨h.wf, h.cap.trans hcap, ?_, ?_, ?_, h.limits.trans hlimits, h.rate.trans hrate,
    h.tripped.trans htripped, ?_, ?_⟩
  · rw [h.held, hheld, lostFrom, if_pos hn]
  · rw [h.symbols, hsymbols, lostBy, if_pos hn, hlocate, hisBuy, Function.update_self,
      Function.update_idem]
  · rw [h.openOrders, hopen, if_pos hn]
  · rw [h.drift, hsymbols, hlocate, hisBuy, Function.update_self, hstats]
    simp only [hn, true_and]
  · rw [h.failed, hstats]

/-- **Lowering an order**, and retiring it if nothing is left. -/
theorem lower_lost (hwf : e.table.Wf) (hslot : slot < e.table.cap) (ho : e.table.slots slot = o)
    (hheld : o ∈ e.table.held) (hn : n ≤ o.leaves) :
    ∃ e', (e.lower slot n traded).retireEmpty slot = some e' ∧ Lost e o n traded e' := by
  subst ho
  obtain ⟨hwf₁, hheld₁⟩ := hwf.setLeaves hslot hheld ((e.table.slots slot).leaves - n)
  have hslot₁ : (e.lower slot n traded).table.slots slot =
      { e.table.slots slot with leaves := (e.table.slots slot).leaves - n } :=
    Function.update_self _ _ _
  rw [retireEmpty, hslot₁]
  -- all of it, and the order is retired; or some of it, and the entry changes
  by_cases hlast : n = (e.table.slots slot).leaves
  · rw [if_pos ((sub_eq_zero_iff hn).mpr hlast)]
    have hmem : (e.lower slot n traded).table.slots slot ∈ (e.lower slot n traded).table.held := by
      rw [hslot₁]
      exact hheld₁ ▸ Finset.mem_insert_self _ _
    obtain ⟨e', hretire, h⟩ := retire_retired (e := e.lower slot n traded) hwf₁ hslot hmem
    -- no other order has the token of the one that is gone
    have hgone : { e.table.slots slot with leaves := (e.table.slots slot).leaves - n } ∉
        e.table.held.erase (e.table.slots slot) := by
      intro hin
      obtain ⟨hne, hin⟩ := Finset.mem_erase.mp hin
      exact hne (hwf.held_inj hin hheld rfl)
    rw [hslot₁] at h
    refine ⟨e', hretire, h.lost rfl rfl hlast rfl ?_ rfl ⟨rfl, rfl, rfl, rfl, rfl⟩⟩
    exact (congrArg (Finset.erase · _) hheld₁).trans (Finset.erase_insert hgone)
  · rw [if_neg fun h => hlast ((sub_eq_zero_iff hn).mp h)]
    refine ⟨_, rfl, hwf₁, rfl, ?_, ?_, (if_neg hlast).symm, rfl, rfl, rfl, ?_, rfl⟩
    · rw [lostFrom, if_neg hlast]
      exact hheld₁
    · rw [lostBy, if_neg hlast]
      rfl
    · rw [if_neg fun h => hlast h.1]
      rfl

/-- No more is taken than there is. -/
theorem clamp_le (leaves m : UInt32) : clamp leaves m ≤ leaves := by
  unfold clamp
  split
  case isTrue => exact UInt32.le_refl _
  case isFalse h => exact UInt32.not_lt.mp h

/-- What there is enough of is taken whole. -/
theorem clamp_of_le {leaves m : UInt32} (h : m ≤ leaves) : clamp leaves m = m :=
  if_neg (UInt32.not_lt.mpr h)

/-- Counting an overfill moves that counter alone. -/
theorem countOverfill_kept (slot : ℕ) (m : UInt32) :
    (e.countOverfill slot m).workingShareDrift = e.stats.workingShareDrift ∧
      (e.countOverfill slot m).tableInsertFailed = e.stats.tableInsertFailed := by
  unfold countOverfill
  split <;> exact ⟨rfl, rfl⟩

/-- The same after other counters have moved. -/
theorem lowered {stats : RiskStats} (hdrift : stats.workingShareDrift = e.stats.workingShareDrift)
    (hfailed : stats.tableInsertFailed = e.stats.tableInsertFailed) (hwf : e.table.Wf)
    (hslot : slot < e.table.cap) (ho : e.table.slots slot = o) (hheld : o ∈ e.table.held)
    (hn : n ≤ o.leaves) : ∃ e', (lower { e with stats := stats } slot n traded).retireEmpty slot =
      some e' ∧ Lost e o n traded e' := by
  obtain ⟨e', hlower, h⟩ := lower_lost (e := { e with stats := stats }) hwf hslot ho hheld hn
  exact ⟨e', hlower, h.wf, h.cap, h.held, h.symbols, h.openOrders, h.limits, h.rate, h.tripped,
    h.drift.trans (by rw [hdrift]), h.failed.trans hfailed⟩

/-- An order that loses all it has is empty. -/
theorem retireEmpty_lower (e : RiskEngine) (slot : ℕ) (traded : Bool) :
    (e.lower slot (e.table.slots slot).leaves traded).retireEmpty slot =
      (e.lower slot (e.table.slots slot).leaves traded).retire slot := by
  refine if_pos ?_
  simp only [lower, OpenOrderTable.setLeaves, Function.update_self]
  exact UInt32.sub_self _

/-- What a report asks of an order with so many shares left. A cancel of zero asks for all. -/
def wanted (leaves : UInt32) : RiskReport → UInt32
  | .fill shares _ => shares
  | .cancelAcked decrement => if decrement = 0 then leaves else decrement
  | .reject => leaves

/-- What it takes. -/
def takes (leaves : UInt32) (said : RiskReport) : UInt32 := clamp leaves (wanted leaves said)

/-- A report takes no more than is left. -/
theorem takes_le (leaves : UInt32) (said : RiskReport) : takes leaves said ≤ leaves :=
  clamp_le _ _

/-- Only a fill makes position of the shares it takes. -/
def trades : RiskReport → Bool
  | .fill .. => true
  | _ => false

/-- **A report on a working order** takes its shares from it. -/
theorem onReport_known (hwf : e.table.Wf) (ho : o ∈ e.table.held) (said : RiskReport) :
    ∃ e', e.onReport o.token said = some e' ∧
      Lost e o (takes o.leaves said) (trades said) e' := by
  obtain ⟨slot, hslot, hfind, hat⟩ := hwf.find_held ho
  cases said with
  | fill shares price =>
    obtain ⟨hdrift, hfailed⟩ := countOverfill_kept (e := e) slot shares
    rw [onReport, onFill, hfind, Option.bind_some]
    simp only [hat]
    exact lowered hdrift hfailed hwf hslot hat ho (clamp_le _ _)
  | cancelAcked decrement =>
    obtain ⟨hdrift, hfailed⟩ := countOverfill_kept (e := e) slot
      (if decrement = 0 then o.leaves else decrement)
    rw [onReport, onCancelAcked, hfind, Option.bind_some]
    simp only [hat]
    exact lowered hdrift hfailed hwf hslot hat ho (clamp_le _ _)
  | reject =>
    subst hat
    have hall : takes (e.table.slots slot).leaves .reject = (e.table.slots slot).leaves :=
      clamp_of_le (UInt32.le_refl _)
    rw [onReport, onReject, hfind, Option.bind_some, hall]
    simp only
    rw [← retireEmpty_lower]
    exact lowered rfl rfl hwf hslot rfl ho (UInt32.le_refl _)

/-- A report on any other token is counted, and that is all. -/
theorem onReport_unknown (hwf : e.table.Wf) {token : Ouch.Token}
    (hno : ∀ o ∈ e.table.held, o.token ≠ token) (said : RiskReport) :
    e.onReport token said = some e.unknownToken := by
  have hfind := hwf.find_absent hno
  cases said with
  | fill shares price => rw [onReport, onFill, hfind, Option.bind_some]
  | cancelAcked decrement => rw [onReport, onCancelAcked, hfind, Option.bind_some]
  | reject => rw [onReport, onReject, hfind, Option.bind_some]

/-- A new token finds room, so the order is placed. -/
theorem onOrderSent_placed (hwf : e.table.Wf) {r : OrderRequest}
    (hno : ∀ o ∈ e.table.held, o.token ≠ r.token)
    (hroom : e.table.held.card + 1 < e.table.cap) :
    (e.table.insertOpen r.token r.shares r.locate r.isBuy).isSome = true ∧
      Placed e r (e.onOrderSent r) := by
  obtain ⟨table, hinsert, hwf', hcap, hheld⟩ := hwf.insert hno hroom r.shares r.locate r.isBuy
  rw [onOrderSent, hinsert]
  exact ⟨rfl, hwf', hcap, hheld, rfl, rfl, rfl, rfl, rfl, rfl, rfl⟩

/-! ## The invariant -/

/-- **The books.** What the table holds and what the tallies say. -/
structure Books (e : RiskEngine) : Prop where
  /-- The table finds what it holds. -/
  wf : e.table.Wf
  /-- It is four times as large as the most it may hold, so it never fills. -/
  size : e.limits.maxOpenOrders.toNat * 4 ≤ e.table.cap ∧ 64 ≤ e.table.cap
  /-- The count of open orders is the number of entries. -/
  count : e.openOrders.toNat = e.table.held.card
  /-- It never goes over the limit. -/
  ceiling : e.openOrders ≤ e.limits.maxOpenOrders
  /-- An open order has shares left: one that has not is retired at once. -/
  leaves : ∀ o ∈ e.table.held, o.leaves ≠ 0
  /-- The tallies of shares are the sums over the entries, modulo their wrap. -/
  shares : ∀ loc b, (e.symbols loc).workingShares b = Int64.ofNat (workingOf e.table.held loc b)
  /-- The tallies of orders are the numbers of entries, exactly. -/
  orders : ∀ loc b, ((e.symbols loc).workingOrders b).toNat = ordersOf e.table.held loc b
  /-- No side has emptied with shares still counted. -/
  drift : e.stats.workingShareDrift = 0
  /-- No order has found the table full. -/
  failed : e.stats.tableInsertFailed = 0

/-- One fewer, or none. -/
theorem toNat_fewer (m : UInt32) : (SymbolRisk.fewer m).toNat = m.toNat - 1 := by
  unfold SymbolRisk.fewer
  split
  case isTrue h => exact UInt32.toNat_sub_of_le _ _ (UInt32.le_iff_toNat_le.mpr
    (UInt32.lt_iff_toNat_lt.mp h))
  case isFalse h =>
    have := UInt32.le_iff_toNat_le.mp (UInt32.not_lt.mp h)
    rw [UInt32.toNat_zero] at this
    omega

/-- Counters apart, nothing has moved. -/
theorem Books.same (hb : Books e) (h : Same e e') : Books e' where
  wf := h.table ▸ hb.wf
  size := by rw [h.limits, h.table]; exact hb.size
  count := by rw [h.openOrders, h.table]; exact hb.count
  ceiling := by rw [h.openOrders, h.limits]; exact hb.ceiling
  leaves := by rw [h.table]; exact hb.leaves
  shares := by rw [h.symbols, h.table]; exact hb.shares
  orders := by rw [h.symbols, h.table]; exact hb.orders
  drift := h.drift.trans hb.drift
  failed := h.failed.trans hb.failed

/-- One order more is open. -/
theorem Placed.card {r : OrderRequest} (h : Placed e r e')
    (hno : ∀ o ∈ e.table.held, o.token ≠ r.token) :
    e'.table.held.card = e.table.held.card + 1 := by
  rw [h.held, Finset.card_insert_of_notMem fun hin => hno _ hin rfl]

/-- **An order that joins** keeps the books: one entry more in the table, and one more in the
tallies of its side. -/
theorem Books.placed (hb : Books e) {r : OrderRequest} (h : Placed e r e')
    (hshares : r.shares ≠ 0) (hno : ∀ o ∈ e.table.held, o.token ≠ r.token)
    (hroom : e.openOrders < e.limits.maxOpenOrders) : Books e' := by
  have hnew : (⟨r.token, r.shares, r.locate, r.isBuy, true⟩ : OpenOrder) ∉ e.table.held :=
    fun hin => hno _ hin rfl
  have hroom := UInt32.lt_iff_toNat_lt.mp hroom
  have hmax := e.limits.maxOpenOrders.toNat_lt
  have hopen : (e.openOrders + 1).toNat = e.openOrders.toNat + 1 :=
    (UInt32.toNat_add _ _).trans (Nat.mod_eq_of_lt (by rw [UInt32.toNat_one]; omega))
  have hcard := h.card hno
  refine ⟨h.wf, ?_, ?_, ?_, ?_, ?_, ?_, h.drift.trans hb.drift, h.failed.trans hb.failed⟩
  · rw [h.limits, h.cap]
    exact hb.size
  · rw [h.openOrders, hopen, hcard, hb.count]
  · rw [h.openOrders, h.limits, UInt32.le_iff_toNat_le, hopen]
    exact hroom
  · rw [h.held]
    intro o ho
    rcases Finset.mem_insert.mp ho with rfl | ho
    · exact hshares
    · exact hb.leaves o ho
  · intro loc b
    rw [h.symbols, h.held, workingOf, tally_insert hnew, Int64.ofNat_add, Function.update_apply]
    -- the side it joins, and every other one
    by_cases hside : r.locate = loc ∧ r.isBuy = b
    · obtain ⟨rfl, rfl⟩ := hside
      rw [if_pos rfl, if_pos ⟨rfl, rfl⟩, SymbolRisk.place_workingShares, if_pos rfl, hb.shares,
        Int64.add_comm]
      rfl
    · rw [if_neg hside, ← workingOf, ← hb.shares,
        show Int64.ofNat 0 = 0 from rfl, Int64.zero_add]
      split
      case isTrue hloc =>
        have hne : b ≠ r.isBuy := fun hb => hside ⟨hloc.symm, hb.symm⟩
        rw [SymbolRisk.place_workingShares, if_neg hne, hloc]
      case isFalse => rfl
  · intro loc b
    rw [h.symbols, h.held, ordersOf, tally_insert hnew, ← ordersOf, Function.update_apply]
    by_cases hside : r.locate = loc ∧ r.isBuy = b
    · obtain ⟨rfl, rfl⟩ := hside
      have hle := ordersOf_le_card e.table.held r.locate r.isBuy
      have hcount := hb.count
      rw [if_pos rfl, if_pos ⟨rfl, rfl⟩, SymbolRisk.place_workingOrders, if_pos rfl,
        UInt32.toNat_add, hb.orders, UInt32.toNat_one, Nat.mod_eq_of_lt (by omega), Nat.add_comm]
    · rw [if_neg hside, ← hb.orders, Nat.zero_add]
      split
      case isTrue hloc =>
        have hne : b ≠ r.isBuy := fun hb => hside ⟨hloc.symm, hb.symm⟩
        rw [SymbolRisk.place_workingOrders, if_neg hne, hloc]
      case isFalse => rfl

/-! ### Losing shares -/

section Lost

variable {orders : Finset OpenOrder}

/-- What is left of an order is not one of the others. -/
theorem remnant_notMem (hwf : e.table.Wf) (ho : o ∈ e.table.held) (n : UInt32) :
    { o with leaves := o.leaves - n } ∉ e.table.held.erase o := by
  intro hin
  obtain ⟨hne, hin⟩ := Finset.mem_erase.mp hin
  exact hne (hwf.held_inj hin ho rfl)

/-- A side works for as many shares less as its order has lost. -/
theorem workingOf_lost (loc : UInt16) (b : Bool) (ho : o ∈ orders) (hn : n ≤ o.leaves)
    (hnew : { o with leaves := o.leaves - n } ∉ orders.erase o) :
    workingOf orders loc b = workingOf (lostFrom orders o n) loc b +
      if o.locate = loc ∧ o.isBuy = b then n.toNat else 0 := by
  have hsub := UInt32.toNat_sub_of_le o.leaves n hn
  have hle := UInt32.le_iff_toNat_le.mp hn
  rw [workingOf, tally_erase ho, lostFrom]
  by_cases hlast : n = o.leaves
  · rw [if_pos hlast, hlast, workingOf, Nat.add_comm]
  · rw [if_neg hlast, workingOf, tally_insert hnew, hsub]
    by_cases hside : o.locate = loc ∧ o.isBuy = b
    · rw [if_pos hside, if_pos hside, if_pos hside]
      omega
    · rw [if_neg hside, if_neg hside, if_neg hside, Nat.add_zero]

/-- It has an order less if those were the last. -/
theorem ordersOf_lost (loc : UInt16) (b : Bool) (ho : o ∈ orders)
    (hnew : { o with leaves := o.leaves - n } ∉ orders.erase o) :
    ordersOf orders loc b = ordersOf (lostFrom orders o n) loc b +
      if n = o.leaves ∧ o.locate = loc ∧ o.isBuy = b then 1 else 0 := by
  rw [ordersOf, tally_erase ho, lostFrom]
  by_cases hlast : n = o.leaves
  · rw [if_pos hlast, ordersOf, Nat.add_comm]
    simp only [hlast, true_and]
  · rw [if_neg hlast, ordersOf, tally_insert hnew,
      if_neg (c := n = o.leaves ∧ _) fun h => hlast h.1]
    rfl

/-- And so has the table. -/
theorem card_lostFrom (ho : o ∈ orders)
    (hnew : { o with leaves := o.leaves - n } ∉ orders.erase o) :
    (lostFrom orders o n).card = if n = o.leaves then orders.card - 1 else orders.card := by
  have hpos : 0 < orders.card := Finset.card_pos.mpr ⟨o, ho⟩
  rw [lostFrom]
  split
  case isTrue => exact Finset.card_erase_of_mem ho
  case isFalse =>
    rw [Finset.card_insert_of_notMem hnew, Finset.card_erase_of_mem ho]
    omega

/-- The shares of a side, before its order is retired. -/
theorem Books.lose_shares (hb : Books e) (ho : o ∈ e.table.held) (hn : n ≤ o.leaves)
    (traded : Bool) (b : Bool) :
    ((e.symbols o.locate).lose o.isBuy n traded).workingShares b =
      Int64.ofNat (workingOf (lostFrom e.table.held o n) o.locate b) := by
  have hworking := workingOf_lost o.locate b ho hn (remnant_notMem hb.wf ho n)
  rw [SymbolRisk.lose_workingShares, hb.shares, hworking]
  by_cases hside : b = o.isBuy
  · rw [if_pos hside, if_pos ⟨rfl, hside.symm⟩, Int64.ofNat_add]
    exact Int64.add_sub_cancel _ _
  · rw [if_neg hside, if_neg fun h => hside h.2.symm, Nat.add_zero]

/-- When a side loses its last order, none is left on it. -/
theorem Books.last_order (hb : Books e) (ho : o ∈ e.table.held) (hlast : n = o.leaves)
    (hzero : SymbolRisk.fewer ((e.symbols o.locate).workingOrders o.isBuy) = 0) :
    ordersOf (lostFrom e.table.held o n) o.locate o.isBuy = 0 := by
  have hcount := ordersOf_lost o.locate o.isBuy ho (remnant_notMem hb.wf ho n)
  have hfewer := toNat_fewer ((e.symbols o.locate).workingOrders o.isBuy)
  rw [if_pos ⟨hlast, rfl, rfl⟩, ← hb.orders] at hcount
  rw [hzero, UInt32.toNat_zero] at hfewer
  omega

end Lost

/-- A drift is a total that is not zero on a side that has emptied. -/
theorem drifts_eq (s : SymbolRisk) (b : Bool) : s.drifts b =
    decide (SymbolRisk.fewer (s.workingOrders b) = 0 ∧ s.workingShares b ≠ 0) := by
  cases b <;> rfl

/-- The tallies of a symbol after its order has lost shares. -/
theorem Books.lostBy_tallies (hb : Books e) (ho : o ∈ e.table.held) (hn : n ≤ o.leaves)
    (traded : Bool) (b : Bool) :
    (lostBy (e.symbols o.locate) o n traded).workingShares b =
        Int64.ofNat (workingOf (lostFrom e.table.held o n) o.locate b) ∧
      ((lostBy (e.symbols o.locate) o n traded).workingOrders b).toNat =
        ordersOf (lostFrom e.table.held o n) o.locate b := by
  have hshares := hb.lose_shares ho hn traded b
  have horders := ordersOf_lost o.locate b ho (remnant_notMem hb.wf ho n)
  rw [← hb.orders] at horders
  rw [lostBy]
  by_cases hlast : n = o.leaves
  · rw [if_pos hlast]
    -- the side empties and starts again from zero, or it has other orders and keeps its total
    by_cases hzero : SymbolRisk.fewer
        (((e.symbols o.locate).lose o.isBuy n traded).workingOrders o.isBuy) = 0
    · obtain ⟨hclose, hclose', -⟩ := SymbolRisk.close_of_eq _ _ b hzero
      rw [SymbolRisk.lose_workingOrders] at hzero
      rw [hclose, hclose']
      by_cases hside : b = o.isBuy
      · have hnone := hb.last_order ho hlast hzero
        rw [if_pos hside, if_pos hside, hside, workingOf_eq_zero hnone, hnone]
        exact ⟨rfl, rfl⟩
      · rw [if_neg hside, if_neg hside, SymbolRisk.lose_workingOrders]
        rw [if_neg fun h => hside h.2.2.symm, Nat.add_zero] at horders
        exact ⟨hshares, horders⟩
    · obtain ⟨hclose, -, hclose'⟩ := SymbolRisk.close_of_ne _ _ b hzero
      rw [hclose, hclose', SymbolRisk.lose_workingOrders, SymbolRisk.lose_workingOrders]
      refine ⟨hshares, ?_⟩
      by_cases hside : b = o.isBuy
      · rw [if_pos hside, toNat_fewer, ← hside]
        rw [if_pos ⟨hlast, rfl, hside.symm⟩] at horders
        omega
      · rw [if_neg hside]
        rw [if_neg fun h => hside h.2.2.symm, Nat.add_zero] at horders
        exact horders
  · rw [if_neg hlast, SymbolRisk.lose_workingOrders]
    rw [if_neg fun h => hlast h.1, Nat.add_zero] at horders
    exact ⟨hshares, horders⟩

/-- **An order that loses shares** keeps the books, whether it is retired or not. -/
theorem Books.lost (hb : Books e) (ho : o ∈ e.table.held) (hn : n ≤ o.leaves)
    (h : Lost e o n traded e') : Books e' := by
  have hnew := remnant_notMem hb.wf ho n
  have hcard := card_lostFrom ho hnew
  have hopen : e'.openOrders.toNat = e'.table.held.card := by
    rw [h.openOrders, h.held, hcard]
    split
    · rw [toNat_fewer, hb.count]
    · exact hb.count
  refine ⟨h.wf, ?_, hopen, ?_, ?_, ?_, ?_, ?_, h.failed.trans hb.failed⟩
  · rw [h.limits, h.cap]
    exact hb.size
  · have hceiling := UInt32.le_iff_toNat_le.mp hb.ceiling
    have hcount := hb.count
    rw [UInt32.le_iff_toNat_le, hopen, h.held, hcard, h.limits]
    split <;> omega
  · rw [h.held, lostFrom]
    intro x hx
    split at hx
    case isTrue => exact hb.leaves x (Finset.mem_of_mem_erase hx)
    case isFalse hlast =>
      rcases Finset.mem_insert.mp hx with rfl | hx
      · exact fun hzero => hlast ((sub_eq_zero_iff hn).mp hzero)
      · exact hb.leaves x (Finset.mem_of_mem_erase hx)
  · intro loc b
    rw [h.symbols, h.held, Function.update_apply]
    split
    case isTrue hloc => exact hloc ▸ (hb.lostBy_tallies ho hn traded b).1
    case isFalse hloc =>
      have hworking := workingOf_lost loc b ho hn hnew
      rw [if_neg fun h => hloc h.1.symm, Nat.add_zero] at hworking
      rw [hb.shares, hworking]
  · intro loc b
    rw [h.symbols, h.held, Function.update_apply]
    split
    case isTrue hloc => exact hloc ▸ (hb.lostBy_tallies ho hn traded b).2
    case isFalse hloc =>
      have horders := ordersOf_lost loc b ho hnew
      rw [if_neg fun h => hloc h.2.1.symm, Nat.add_zero] at horders
      rw [hb.orders, horders]
  · rw [h.drift, if_neg, hb.drift]
    rintro ⟨hlast, hdrifts⟩
    rw [drifts_eq, decide_eq_true_iff, SymbolRisk.lose_workingOrders,
      hb.lose_shares ho hn traded o.isBuy] at hdrifts
    exact hdrifts.2 (by rw [workingOf_eq_zero (hb.last_order ho hlast hdrifts.1)]; rfl)

/-! ## One event -/

/-- What an event may do. -/
inductive Step (e : RiskEngine) : RiskEvent → RiskEngine → Bool → Prop where
  | refused {r : OrderRequest} : Step e (.order r) e false
  | placed {r : OrderRequest} {e' : RiskEngine} : Passes e r →
      (∀ o ∈ e.table.held, o.token ≠ r.token) → Placed e r e' → Step e (.order r) e' true
  | unknown {token : Ouch.Token} {said : RiskReport} : (∀ o ∈ e.table.held, o.token ≠ token) →
      Step e (.report token said) e.unknownToken false
  | lost {o : OpenOrder} {said : RiskReport} {e' : RiskEngine} : o ∈ e.table.held →
      Lost e o (takes o.leaves said) (trades said) e' → Step e (.report o.token said) e' false

/-- No event changes what is allowed. -/
theorem Step.limits {ev : RiskEvent} {sent : Bool} (h : Step e ev e' sent) :
    e'.limits = e.limits := by
  cases h with
  | refused | unknown => rfl
  | placed _ _ hplaced => exact hplaced.limits
  | lost _ hlost => exact hlost.limits

/-- A token is that of one open order, or of none. -/
theorem held_or_absent (e : RiskEngine) (token : Ouch.Token) :
    (∃ o ∈ e.table.held, o.token = token) ∨ ∀ o ∈ e.table.held, o.token ≠ token := by
  by_cases h : ∃ o ∈ e.table.held, o.token = token
  · exact .inl h
  · exact .inr fun o ho htoken => h ⟨o, ho, htoken⟩

/-- An order that passes has a token that is not working. -/
theorem Passes.absent {r : OrderRequest} (h : Passes e r) (hwf : e.table.Wf) :
    ∀ o ∈ e.table.held, o.token ≠ r.token := by
  rintro o ho htoken
  obtain ⟨slot, _, hfind, _⟩ := hwf.find_held ho
  rw [htoken, h.token] at hfind
  exact absurd hfind (by simp)

/-- **Every event is taken**, and does what it may. -/
theorem exec_step (hb : Books e) (ev : RiskEvent) :
    ∃ e' sent, e.exec ev = some (e', sent) ∧ Step e ev e' sent := by
  cases ev with
  | order r =>
    -- the walk for the token stops, because the table is never full
    have hstops : ∃ reason, e.check r = some reason := by
      rw [check]
      split
      case isTrue =>
        rcases held_or_absent e r.token with ⟨o, ho, htoken⟩ | hno
        · obtain ⟨slot, _, hfind, _⟩ := hb.wf.find_held ho
          exact ⟨_, by rw [← htoken, hfind]; rfl⟩
        · exact ⟨_, by rw [hb.wf.find_absent hno]; rfl⟩
      case isFalse => exact ⟨_, rfl⟩
    obtain ⟨reason, hcheck⟩ := hstops
    rw [exec, hcheck, Option.map_some]
    by_cases hpass : reason = .none
    · have hpasses := passes_of_check (hpass ▸ hcheck)
      have hno := hpasses.absent hb.wf
      have hopen := UInt32.lt_iff_toNat_lt.mp hpasses.room
      have hcount := hb.count
      have hsize := hb.size
      obtain ⟨hsome, hplaced⟩ := onOrderSent_placed hb.wf hno (by omega)
      rw [if_pos hpass, hsome]
      exact ⟨_, _, rfl, .placed hpasses hno hplaced⟩
    · rw [if_neg hpass]
      exact ⟨e, false, rfl, .refused⟩
  | report token said =>
    rcases held_or_absent e token with ⟨o, ho, rfl⟩ | hno
    · obtain ⟨e', hreport, hlost⟩ := onReport_known hb.wf ho said
      exact ⟨e', false, by rw [exec, hreport]; rfl, .lost ho hlost⟩
    · exact ⟨_, false, by rw [exec, onReport_unknown hb.wf hno]; rfl, .unknown hno⟩

/-- **Every event keeps the books.** -/
theorem Books.step {ev : RiskEvent} {sent : Bool} (hb : Books e) (h : Step e ev e' sent) :
    Books e' := by
  cases h with
  | refused => exact hb
  | placed hpasses hno hplaced => exact hb.placed hplaced hpasses.size.1 hno hpasses.room
  | unknown => exact hb.same same_unknownToken
  | lost ho hlost => exact hb.lost ho (takes_le _ _) hlost

end RiskEngine
end Tickerplant
