import Tickerplant.Risk.Gate
import Tickerplant.Trade.Loop

/-!
# The accounts of the trading loop

Three parties keep account of what the loop has sent: the venue, which trades it; the gate, which
hears of a trade when its fill is drained; and the rule, which counts the fills. They do not keep
the same account. The gate is told of a fill under the token its side has by then, never hears of a
cancel, and clamps what an order has no shares for. What is true all the same is one inequality
each way (`Accounts`): what the gate counts as filled was filled, and what it counts as working
covers what rests.

That is enough for the position limit, since the gate errs on the safe side: a share it has let out
stays in its count until a fill of that side takes it off, so whatever rests at the venue is
counted by the gate, and the limit it checks covers it.

`Gate`, `Accounts`, `Priced` and `Named` are what the loop keeps of the gate, and the sections are
what may happen to the gate in a turn: a flag or a counter moves (`Alike`), an order goes out
(`Placed`), a fill is booked. Each of the four has its lemma in each section.
-/

set_option autoImplicit false

namespace Tickerplant

open Lib RiskEngine

/-! ## Engines that differ in flags and counters

Most of what happens to the gate in a turn is of no account: a symbol is enabled or halted, a check
is counted, a token is not known. -/

namespace RiskEngine

/-- Engines with the same books, the same tallies and the same limits. -/
structure Alike (e e' : RiskEngine) : Prop where
  table : e'.table = e.table
  openOrders : e'.openOrders = e.openOrders
  limits : e'.limits = e.limits
  tripped : e'.tripped = e.tripped
  drift : e'.stats.workingShareDrift = e.stats.workingShareDrift
  failed : e'.stats.tableInsertFailed = e.stats.tableInsertFailed
  shares : ∀ loc b, (e'.symbols loc).workingShares b = (e.symbols loc).workingShares b
  orders : ∀ loc b, (e'.symbols loc).workingOrders b = (e.symbols loc).workingOrders b
  best : ∀ loc b, (e'.symbols loc).best b = (e.symbols loc).best b
  position : ∀ loc, e'.position loc = e.position loc

variable {e e' : RiskEngine}

/-- Engines that differ in counters alone. -/
theorem Same.alike (h : Same e e') : Alike e e' where
  table := h.table
  openOrders := h.openOrders
  limits := h.limits
  tripped := h.tripped
  drift := h.drift
  failed := h.failed
  shares loc b := by rw [h.symbols]
  orders loc b := by rw [h.symbols]
  best loc b := by rw [h.symbols]
  position loc := by rw [RiskEngine.position, h.symbols, RiskEngine.position]

/-- A symbol's flags may change. -/
theorem alike_setSymbol (e : RiskEngine) (locate : UInt16) {f : SymbolRisk → SymbolRisk}
    (hshares : ∀ s b, (f s).workingShares b = s.workingShares b)
    (horders : ∀ s b, (f s).workingOrders b = s.workingOrders b)
    (hbest : ∀ s b, (f s).best b = s.best b) (hposition : ∀ s, (f s).position = s.position) :
    Alike e (e.setSymbol locate f) := by
  -- whatever is read of a symbol is read the same, of this one and of the others
  have hsymbols (loc : UInt16) : (e.setSymbol locate f).symbols loc =
      if loc = locate then f (e.symbols locate) else e.symbols loc := Function.update_apply _ _ _ _
  refine ⟨rfl, rfl, rfl, rfl, rfl, rfl, fun loc b => ?_, fun loc b => ?_, fun loc b => ?_,
    fun loc => ?_⟩
  · rw [hsymbols]
    split
    case isTrue hloc => rw [hshares, hloc]
    case isFalse => rfl
  · rw [hsymbols]
    split
    case isTrue hloc => rw [horders, hloc]
    case isFalse => rfl
  · rw [hsymbols]
    split
    case isTrue hloc => rw [hbest, hloc]
    case isFalse => rfl
  · rw [RiskEngine.position, hsymbols]
    split
    case isTrue hloc => rw [hposition, hloc, RiskEngine.position]
    case isFalse => rfl

/-- The books are in order as they were. -/
theorem Alike.books (h : Alike e e') (hb : Books e) : Books e' where
  wf := h.table ▸ hb.wf
  size := by rw [h.limits, h.table]; exact hb.size
  count := by rw [h.openOrders, h.table]; exact hb.count
  ceiling := by rw [h.openOrders, h.limits]; exact hb.ceiling
  leaves := by rw [h.table]; exact hb.leaves
  shares loc b := by rw [h.shares, h.table]; exact hb.shares loc b
  orders loc b := by rw [h.orders, h.table]; exact hb.orders loc b
  drift := h.drift.trans hb.drift
  failed := h.failed.trans hb.failed

/-- And the limit covers what it did. -/
theorem Alike.covered (h : Alike e e') (hc : Covered e) : Covered e' where
  long loc := by rw [h.position, h.table, limit, h.limits]; exact hc.long loc
  short loc := by rw [h.position, h.table, limit, h.limits]; exact hc.short loc

/-- What works on a side is the shares of some open order. -/
theorem exists_held {loc : UInt16} {b : Bool} (h : workingOf e.table.held loc b ≠ 0) :
    ∃ o ∈ e.table.held, o.locate = loc ∧ o.isBuy = b := by
  have hcount : ordersOf e.table.held loc b ≠ 0 := fun hzero => h (workingOf_eq_zero hzero)
  rw [ordersOf_eq_card] at hcount
  obtain ⟨o, ho⟩ := Finset.card_ne_zero.mp hcount
  obtain ⟨hheld, hside⟩ := Finset.mem_filter.mp ho
  exact ⟨o, hheld, hside⟩

end RiskEngine

namespace TradeLoop

variable {loc : UInt16} {limits : RiskLimits} {e e' : RiskEngine}

/-! ## What is kept of the gate -/

/-- The gate is in order, and knows of this symbol only. -/
structure Gate (limits : RiskLimits) (loc : UInt16) (e : RiskEngine) : Prop where
  /-- The tallies are the sums over the table. -/
  books : Books e
  /-- The position and what works are within the limit, either way. -/
  covered : Covered e
  limits : e.limits = limits
  /-- Nothing in the loop trips the switch. -/
  live : e.tripped = false
  /-- So what works in the symbol is all that works. -/
  here : ∀ o ∈ e.table.held, o.locate = loc

/-- What the gate counts as filled was filled, what it counts as working was sent, and its
position is what it counts. -/
structure Accounts (loc : UInt16) (tape : List Submission) (fills : List Fill) (e : RiskEngine) :
    Prop where
  /-- The gate has nothing that was not sent. -/
  working : ∀ b, workingOf e.table.held loc b ≤ sentOn b tape
  /-- What was sent and does not work any more was filled, and its fill drained. -/
  filled : ∀ b, sentOn b tape + pendingOn b fills ≤
    workingOf e.table.held loc b + filledOn b tape
  /-- So the gate's position is of shares that were filled, if not of all of them. -/
  position : e.position loc = (sentOn true tape - workingOf e.table.held loc true : ℤ) -
    (sentOn false tape - workingOf e.table.held loc false)

/-- No order of ours rests at a price better than the gate remembers. -/
def Priced (loc : UInt16) (resting : List (LimitOrder UInt64 Price)) (e : RiskEngine) : Prop :=
  ∀ o ∈ resting, Behind o.isBuy o.price ((e.symbols loc).best o.isBuy)

/-- The prefix of every token of the loop. -/
def tokenPrefix : List UInt8 := "TKP".toList.map Char.toUInt8

/-- A token that the generator has made. -/
def Made (g : Ouch.TokenGenerator) (token : Ouch.Token) : Prop :=
  ∃ v : UInt64, v.toNat < g.counter.toNat ∧ token = g.render v

/-- The tokens are the generator's, and the one a side goes by is of that side. -/
structure Named (g : Ouch.TokenGenerator) (quotes : Side → LiveQuote) (e : RiskEngine) :
    Prop where
  chars : g.prefixChars = tokenPrefix
  held : ∀ o ∈ e.table.held, Made g o.token
  /-- A side goes by a token that was made, or by the blank one it starts with. -/
  live : ∀ side, (quotes side).token = alpha Ouch.kTokenLen [] ∨ Made g (quotes side).token
  /-- A fill told under the token of its side finds an order of that side, or none. -/
  side : ∀ o ∈ e.table.held, ∀ side, o.token = (quotes side).token → o.isBuy = side.isBid

/-! ### Flags and counters

Nothing that is kept looks at them. -/

/-- The gate stays in order. -/
theorem Gate.alike (h : Gate limits loc e) (ha : Alike e e') : Gate limits loc e' :=
  ⟨ha.books h.books, ha.covered h.covered, ha.limits.trans h.limits, ha.tripped.trans h.live,
    by rw [ha.table]; exact h.here⟩

/-- The accounts stay as they are. -/
theorem Accounts.alike {tape : List Submission} {fills : List Fill}
    (h : Accounts loc tape fills e) (ha : Alike e e') : Accounts loc tape fills e' := by
  refine ⟨fun b => ?_, fun b => ?_, ?_⟩
  · rw [ha.table]
    exact h.working b
  · rw [ha.table]
    exact h.filled b
  · rw [ha.position, ha.table]
    exact h.position

/-- So do the prices remembered. -/
theorem Priced.alike {resting : List (LimitOrder UInt64 Price)} (h : Priced loc resting e)
    (ha : Alike e e') : Priced loc resting e' := by
  intro o ho
  rw [ha.best]
  exact h o ho

/-- And the tokens. -/
theorem Named.alike {g : Ouch.TokenGenerator} {live : Side → LiveQuote} (h : Named g live e)
    (ha : Alike e e') : Named g live e' :=
  ⟨h.chars, by rw [ha.table]; exact h.held, h.live, by rw [ha.table]; exact h.side⟩

/-! ### An order goes out

It is in the table, on the tape and at rest, all of it, and its side goes by its token. -/

section Placed

variable {r : OrderRequest}

/-- The gate lets out what the limit covers. -/
theorem Gate.placed (h : Gate limits loc e)
    (hlimit : 0 ≤ limits.maxPositionShares.toInt ∧ limits.maxPositionShares.toInt ≤ 2 ^ 62)
    (hp : Passes e r) (hloc : r.locate = loc) (hpl : Placed e r e') : Gate limits loc e' := by
  have hno := hp.absent h.books.wf
  have hlim : 0 ≤ e.limit ∧ e.limit ≤ 2 ^ 62 := by
    rw [limit, h.limits]
    exact hlimit
  refine ⟨h.books.placed hpl hp.size.1 hno hp.room, h.covered.placed h.books hlim hp hno hpl,
    hpl.limits.trans h.limits, hpl.tripped.trans h.live, ?_⟩
  rw [hpl.held]
  intro o ho
  rcases Finset.mem_insert.mp ho with rfl | ho
  · exact hloc
  · exact h.here o ho

/-- The venue and the gate both count the order. -/
theorem Accounts.placed {tape : List Submission} {fills : List Fill}
    (h : Accounts loc tape fills e) (hno : ∀ o ∈ e.table.held, o.token ≠ r.token)
    (hloc : r.locate = loc) (hpl : Placed e r e') {sub : Submission}
    (hsent : ∀ b, sub.sent b = if r.isBuy = b then r.shares.toNat else 0)
    (hnone : ∀ b, sub.filled b = 0) : Accounts loc (sub :: tape) fills e' := by
  have hworking (b : Bool) : workingOf e'.table.held loc b =
      (if r.isBuy = b then r.shares.toNat else 0) + workingOf e.table.held loc b := by
    rw [workingOf_placed hpl hno]
    simp only [hloc, true_and]
  -- only a fill moves the position
  have hposition : e'.position loc = e.position loc := by
    rw [RiskEngine.position, hpl.symbols, Function.update_apply]
    split
    case isTrue heq => rw [SymbolRisk.place_position, heq, RiskEngine.position]
    case isFalse => rfl
  refine ⟨fun b => ?_, fun b => ?_, ?_⟩
  · have hle := h.working b
    rw [hworking, Venue.sentOn_cons, hsent]
    omega
  · have hle := h.filled b
    rw [hworking, Venue.sentOn_cons, Venue.filledOn_cons, hsent, hnone]
    omega
  · have hpos := h.position
    rw [hposition, hworking, hworking, Venue.sentOn_cons, Venue.sentOn_cons, hsent, hsent, hpos]
    omega

/-- The order joins those that rest, and the gate remembers its price. -/
theorem Priced.placed {resting resting' : List (LimitOrder UInt64 Price)} (h : Priced loc resting e)
    (hopen : ∀ o ∈ resting, (e.symbols loc).workingOrders o.isBuy ≠ 0) (hloc : r.locate = loc)
    (hpl : Placed e r e') {o : LimitOrder UInt64 Price} (hside : o.isBuy = r.isBuy)
    (hprice : o.price = r.price) (hrest : resting'.Perm (resting ++ [o])) :
    Priced loc resting' e' := by
  intro x hx
  rw [hpl.symbols, hloc, Function.update_self]
  rcases List.mem_append.mp (hrest.mem_iff.mp hx) with hx | hx
  · exact place_best_old (hopen x hx) (h x hx) _ _ _
  · obtain rfl := List.mem_singleton.mp hx
    rw [hside, hprice]
    exact place_best_new _ _ _ _

/-- Its side goes by the new token, which no order and no other side has. -/
theorem Named.placed {g : Ouch.TokenGenerator} {live : Side → LiveQuote} (h : Named g live e)
    (hno : ∀ o ∈ e.table.held, o.token ≠ r.token) (hpl : Placed e r e') (hmade : Made g r.token)
    (hside : r.side.isBid = r.isBuy) (hother : ∀ side, (live side).token ≠ r.token) (id : UInt64) :
    Named g (Function.update live r.side { id := id, token := r.token }) e' := by
  refine ⟨h.chars, ?_, fun side => ?_, ?_⟩
  · rw [hpl.held]
    exact (Finset.forall_mem_insert _ _ _).mpr ⟨hmade, h.held⟩
  · rw [Function.update_apply]
    split
    case isTrue => exact .inr hmade
    case isFalse => exact h.live side
  · rw [hpl.held]
    intro o ho side heq
    -- the new token is of the new order alone, and the other side keeps its own
    rw [Function.update_apply] at heq
    rcases Finset.mem_insert.mp ho with rfl | ho
    · split at heq
      case isTrue hsd => rw [hsd, hside]
      case isFalse => exact absurd heq.symm (hother side)
    · split at heq
      case isTrue => exact absurd heq (hno o ho)
      case isFalse => exact h.side o ho side heq

/-- An order that passes reaches nothing of ours that rests. -/
theorem Priced.nobody {resting : List (LimitOrder UInt64 Price)} (h : Priced loc resting e)
    (hopen : ∀ o ∈ resting, (e.symbols loc).workingOrders o.isBuy ≠ 0) (hloc : r.locate = loc)
    (hp : Passes e r) : ∀ o ∈ resting, ¬Crosses r.isBuy r.price o := by
  rintro o ho ⟨hside, hreach⟩
  have hbehind := h o ho
  have horders := UInt32.pos_iff_ne_zero.mpr (hopen o ho)
  have hcross := hp.noCross
  rw [selfCross, hloc] at hcross
  rw [hside] at hbehind horders
  -- the gate compares with the best price it remembers, which is no worse than any that rests
  cases hbuy : r.isBuy with
  | true =>
    rw [hbuy, if_pos rfl, decide_eq_false_iff_not] at hcross
    rw [hbuy] at hbehind horders hreach
    exact hcross ⟨horders, Int.le_trans hbehind hreach⟩
  | false =>
    rw [hbuy, if_neg Bool.false_ne_true, decide_eq_false_iff_not] at hcross
    rw [hbuy] at hbehind horders hreach
    exact hcross ⟨horders, Int.le_trans hreach hbehind⟩

end Placed

/-! ### A fill is booked

Under the token of its side the gate finds an order of that side, from which it takes as much as
there is, or it finds none and only counts that. -/

section Booked

variable {tape : List Submission} {f : Fill} {fills : List Fill}

/-- One fill less to drain. -/
theorem pendingOn_cons (b : Bool) : pendingOn b (f :: fills) =
    (if f.ourSide.isBid = b then f.qty.toNat else 0) + pendingOn b fills := List.sum_cons

/-- A fill the gate does not know leaves its count behind. -/
theorem Accounts.unknown (h : Accounts loc tape (f :: fills) e) (ha : Alike e e') :
    Accounts loc tape fills e' := by
  have h := h.alike ha
  refine ⟨h.working, fun b => ?_, h.position⟩
  have hle := h.filled b
  rw [pendingOn_cons] at hle
  omega

variable {o : OpenOrder} {n : UInt32}

/-- Shares that have traded leave the gate in order. -/
theorem Gate.lost (h : Gate limits loc e)
    (hlimit : 0 ≤ limits.maxPositionShares.toInt ∧ limits.maxPositionShares.toInt ≤ 2 ^ 62)
    (ho : o ∈ e.table.held) (hn : n ≤ o.leaves) {traded : Bool} (hl : Lost e o n traded e') :
    Gate limits loc e' := by
  have hlim : 0 ≤ e.limit ∧ e.limit ≤ 2 ^ 62 := by
    rw [limit, h.limits]
    exact hlimit
  refine ⟨h.books.lost ho hn hl, h.covered.lost h.books hlim ho hn hl, hl.limits.trans h.limits,
    hl.tripped.trans h.live, ?_⟩
  rw [hl.held]
  intro x hx
  obtain ⟨y, hy, -, hlocate, -⟩ := mem_lostFrom ho hx
  exact hlocate ▸ h.here y hy

/-- A fill that is booked is no more than was filled. -/
theorem Accounts.lost (h : Accounts loc tape (f :: fills) e) (hg : Gate limits loc e)
    (hlimit : 0 ≤ limits.maxPositionShares.toInt ∧ limits.maxPositionShares.toInt ≤ 2 ^ 62)
    (ho : o ∈ e.table.held) (hn : n ≤ o.leaves) (hside : o.isBuy = f.ourSide.isBid)
    (hless : n ≤ f.qty) (hl : Lost e o n true e') : Accounts loc tape fills e' := by
  have hloc := hg.here o ho
  have hlim : 0 ≤ e.limit ∧ e.limit ≤ 2 ^ 62 := by
    rw [limit, hg.limits]
    exact hlimit
  have hless := UInt32.le_iff_toNat_le.mp hless
  -- what is taken off the order is taken off its side, and goes to the position
  have hworking (b : Bool) : workingOf e.table.held loc b = workingOf e'.table.held loc b +
      if f.ourSide.isBid = b then n.toNat else 0 := by
    have hlost := workingOf_lost loc b ho hn (remnant_notMem hg.books.wf ho n)
    rw [hl.held, hlost]
    simp only [hloc, true_and, hside]
  have hposition : e'.position loc = e.position loc +
      if f.ourSide.isBid = true then (n.toNat : ℤ) else -n.toNat := by
    have hlong := hg.covered.long o.locate
    have hshort := hg.covered.short o.locate
    have hwide := n.toNat_lt
    rw [lost_position hl (by omega), moved, if_pos ⟨rfl, hloc⟩, hside]
  refine ⟨fun b => ?_, fun b => ?_, ?_⟩
  · have hle := h.working b
    rw [hworking] at hle
    omega
  · have hle := h.filled b
    rw [hworking, pendingOn_cons] at hle
    split at hle <;> omega
  · have hpos := h.position
    rw [hworking true, hworking false] at hpos
    rw [hposition, hpos]
    cases hbid : f.ourSide.isBid <;> simp only [if_true, if_false, Bool.false_eq_true,
      Bool.true_eq_false, Nat.cast_add, Nat.cast_zero] <;> omega

/-- A side of the gate that still has an order remembers its price, and one that has none has
nothing resting. -/
theorem Priced.lost {resting : List (LimitOrder UInt64 Price)} (h : Priced loc resting e)
    (hg : Gate limits loc e) (ho : o ∈ e.table.held) {traded : Bool} (hl : Lost e o n traded e')
    (hopen : ∀ x ∈ resting, ∃ y ∈ e'.table.held, y.locate = loc ∧ y.isBuy = x.isBuy) :
    Priced loc resting e' := by
  intro x hx
  obtain ⟨y, hy, hloc, hside⟩ := hopen x hx
  rw [hl.held] at hy
  have hbest := hg.books.best_lost ho hl hy
  rw [hloc, hside] at hbest
  rw [hbest]
  exact h x hx

/-- An order that has lost shares keeps its token. -/
theorem Named.lost {g : Ouch.TokenGenerator} {live : Side → LiveQuote} (h : Named g live e)
    (ho : o ∈ e.table.held) {traded : Bool} (hl : Lost e o n traded e') : Named g live e' := by
  refine ⟨h.chars, ?_, h.live, ?_⟩
  · rw [hl.held]
    intro x hx
    obtain ⟨y, hy, htoken, -⟩ := mem_lostFrom ho hx
    exact htoken ▸ h.held y hy
  · rw [hl.held]
    intro x hx side heq
    obtain ⟨y, hy, htoken, -, hisBuy⟩ := mem_lostFrom ho hx
    exact hisBuy ▸ h.side y hy side (htoken.trans heq)

end Booked

end TradeLoop
end Tickerplant
