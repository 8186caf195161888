import Tickerplant.Book.Builder
import Tickerplant.Risk.Rate
import Tickerplant.Risk.Table

/-!
# The risk engine (`include/tick/risk.hpp`)

`check` looks at a request and the engine and answers the first reason against it, or none. What is
sent, filled, cancelled and rejected is told to the engine by four calls, which keep an open order
table, a tally for each symbol and side, and the message rate.

Positions and share totals are the source's 64-bit signed numbers and wrap where it would; the
products are taken in 64-bit unsigned ones.

The order of the tests in `reason` is the source's: cheap ones first, and each one may take for
granted what the ones before it have established, a positive price above all. The duplicate token
comes last because it is the one that walks the table.

`Passes` says of an order all that the tests have found, one field for each. Everything below this
file that is about an order that goes out starts from it, and the tests are not unfolded again.

An event for a token that is not working is counted and changes nothing else: a fill may cross a
cancel on the wire. The option that these calls and `check` return is about the search for the
token, whose loop stops as long as the table has a free slot.
-/

set_option autoImplicit false

namespace Tickerplant

/-- Why an order does not go out. -/
inductive RiskReject where
  | none
  | maxOrderSize
  | maxOrderNotional
  | fatFingerPrice
  | positionLimit
  | notionalLimit
  | maxOpenOrders
  | messageRate
  | symbolNotEnabled
  | symbolHalted
  | killSwitch
  | selfCross
  | duplicateToken
  | staleMarketData
  deriving DecidableEq, Repr

/-- What a person allows. A limit that is left out is zero, and lets nothing through. -/
structure RiskLimits where
  maxOrderShares : UInt32 := 0
  maxOrderNotional : UInt64 := 0
  /-- How far from the micro price an order may be, in hundredths of a percent. -/
  fatFingerBps : UInt32 := 0
  maxPositionShares : Int64 := 0
  maxSymbolNotional : UInt64 := 0
  maxOpenOrders : UInt32 := 0
  maxMessagesPerSecond : UInt32 := 0
  /-- How old the book may be that an order is judged by. -/
  maxMarketDataAgeNs : UInt64 := 0

/-- An order that is wanted, with the market it is wanted in and the time. -/
structure OrderRequest where
  locate : UInt16 := 0
  token : Ouch.Token := Lib.alpha Ouch.kTokenLen []
  side : Side := .buy
  shares : UInt32 := 0
  price : Price := 0
  book : TopOfBook := {}
  bookTsNs : UInt64 := 0
  nowNs : UInt64 := 0

/-- Its side, as the tallies have it. -/
def OrderRequest.isBuy (r : OrderRequest) : Bool := decide (r.side = .buy)

/-- The counters. They are of fixed width and wrap as the source's do. -/
structure RiskStats where
  checked : UInt64 := 0
  passed : UInt64 := 0
  rejected : UInt64 := 0
  byReason : RiskReject → UInt64 := fun _ => 0
  ordersSent : UInt64 := 0
  fills : UInt64 := 0
  cancelsAcked : UInt64 := 0
  exchangeRejects : UInt64 := 0
  openOrders : UInt32 := 0
  openOrdersPeak : UInt32 := 0
  unknownTokenEvents : UInt64 := 0
  overfills : UInt64 := 0
  /-- How often an order that passed found no room: never, by the size of the table. -/
  tableInsertFailed : UInt64 := 0
  /-- How often a side that emptied still had shares counted: never, if the books are kept. -/
  workingShareDrift : UInt64 := 0
  filledNotional : UInt64 := 0
  killSwitchTrips : UInt64 := 0
  killReason : Option String := none

/-- `static_cast<int64_t>` of a share count. -/
def signed (shares : UInt32) : Int64 := Int64.ofNat shares.toNat

/-- What is kept of one symbol. -/
structure SymbolRisk where
  position : Int64 := 0
  /-- The shares of the buys that work, summed. -/
  workingBuyShares : Int64 := 0
  workingSellShares : Int64 := 0
  workingBuyOrders : UInt32 := 0
  workingSellOrders : UInt32 := 0
  /-- The highest price a buy has joined at since the side was last empty. -/
  bestWorkingBuy : Price := 0
  bestWorkingSell : Price := 0
  enabled : Bool := false
  halted : Bool := false

namespace SymbolRisk

/-- An order joins its side. -/
def place (s : SymbolRisk) (isBuy : Bool) (shares : UInt32) (price : Price) : SymbolRisk :=
  if isBuy then
    { s with
      workingBuyShares := s.workingBuyShares + signed shares
      bestWorkingBuy :=
        if s.workingBuyOrders = 0 ∨ s.bestWorkingBuy < price then price else s.bestWorkingBuy
      workingBuyOrders := s.workingBuyOrders + 1 }
  else
    { s with
      workingSellShares := s.workingSellShares + signed shares
      bestWorkingSell :=
        if s.workingSellOrders = 0 ∨ price < s.bestWorkingSell then price else s.bestWorkingSell
      workingSellOrders := s.workingSellOrders + 1 }

/-- Shares stop working. -/
def reduce (s : SymbolRisk) (isBuy : Bool) (n : UInt32) : SymbolRisk :=
  if isBuy then { s with workingBuyShares := s.workingBuyShares - signed n }
  else { s with workingSellShares := s.workingSellShares - signed n }

/-- Shares become position. -/
def trade (s : SymbolRisk) (isBuy : Bool) (n : UInt32) : SymbolRisk :=
  if isBuy then { s with position := s.position + signed n }
  else { s with position := s.position - signed n }

/-- Shares leave the order they worked for, traded or not. -/
def lose (s : SymbolRisk) (isBuy : Bool) (n : UInt32) (traded : Bool) : SymbolRisk :=
  if traded then (s.reduce isBuy n).trade isBuy n else s.reduce isBuy n

/-- `if (orders > 0) --orders`. -/
def fewer (orders : UInt32) : UInt32 := if 0 < orders then orders - 1 else orders

/-- One order fewer on a side. An empty side has no best price and no shares. -/
def close (s : SymbolRisk) (wasBuy : Bool) : SymbolRisk :=
  if wasBuy then
    if fewer s.workingBuyOrders = 0 then
      { s with workingBuyOrders := 0, bestWorkingBuy := 0, workingBuyShares := 0 }
    else { s with workingBuyOrders := fewer s.workingBuyOrders }
  else
    if fewer s.workingSellOrders = 0 then
      { s with workingSellOrders := 0, bestWorkingSell := 0, workingSellShares := 0 }
    else { s with workingSellOrders := fewer s.workingSellOrders }

/-- The side empties with shares still counted. -/
def drifts (s : SymbolRisk) (wasBuy : Bool) : Bool :=
  if wasBuy then decide (fewer s.workingBuyOrders = 0 ∧ s.workingBuyShares ≠ 0)
  else decide (fewer s.workingSellOrders = 0 ∧ s.workingSellShares ≠ 0)

end SymbolRisk

/-- The engine: what is allowed, what works, and what it has come to. -/
structure RiskEngine where
  limits : RiskLimits := {}
  symbols : UInt16 → SymbolRisk := fun _ => {}
  table : OpenOrderTable := .make 0
  openOrders : UInt32 := 0
  tripped : Bool := false
  rate : RateLimiter := {}
  stats : RiskStats := {}

namespace RiskEngine

/-- An engine that has sent nothing yet, with no symbol switched on. -/
def make (limits : RiskLimits) : RiskEngine :=
  { limits := limits, table := .make limits.maxOpenOrders }

/-- An engine with every symbol switched on. -/
def opened (limits : RiskLimits) : RiskEngine :=
  { make limits with symbols := fun _ => { enabled := true } }

/-! ## The check -/

/-- `abs64`. -/
def abs64 (v : Int64) : Int64 := if v < 0 then -v else v

section Check

variable (e : RiskEngine) (r : OrderRequest)

/-- What the order is worth at its own price. -/
def notional : UInt64 := r.shares.toUInt64 * UInt64.ofInt r.price

/-- The book is too old, or from the future, or has never been updated. -/
def stale : Bool :=
  decide (r.bookTsNs = 0) || decide (r.nowNs < r.bookTsNs) ||
    decide (e.limits.maxMarketDataAgeNs < r.nowNs - r.bookTsNs)

/-- The price is too far from the micro price. -/
def fatFinger : Bool :=
  let ref := r.book.microPrice
  let away := UInt64.ofInt (if ref < r.price then r.price - ref else ref - r.price)
  decide (UInt64.ofInt ref * e.limits.fatFingerBps.toUInt64 < away * 10000)

/-- The position if every buy were filled, this one too if it is one. -/
def worstLong : Int64 :=
  let s := e.symbols r.locate
  s.position + s.workingBuyShares + if r.isBuy then signed r.shares else 0

/-- The position if every sell were. -/
def worstShort : Int64 :=
  let s := e.symbols r.locate
  s.position - s.workingSellShares - if r.isBuy then 0 else signed r.shares

/-- The larger of the two, as a number of shares. -/
def worstShares : UInt64 :=
  (if abs64 (e.worstShort r) < abs64 (e.worstLong r) then abs64 (e.worstLong r)
    else abs64 (e.worstShort r)).toUInt64

/-- The order would trade with a working order of ours. -/
def selfCross : Bool :=
  let s := e.symbols r.locate
  if r.isBuy then decide (0 < s.workingSellOrders ∧ s.bestWorkingSell ≤ r.price)
  else decide (0 < s.workingBuyOrders ∧ r.price ≤ s.bestWorkingBuy)

/-- The first reason against the order, its token apart. -/
def reason : RiskReject :=
  if e.tripped then .killSwitch
  else if !(e.symbols r.locate).enabled then .symbolNotEnabled
  else if (e.symbols r.locate).halted then .symbolHalted
  else if r.shares = 0 ∨ e.limits.maxOrderShares < r.shares then .maxOrderSize
  else if r.price ≤ 0 then .fatFingerPrice
  else if e.limits.maxOrderNotional < notional r then .maxOrderNotional
  -- from here on the order is judged by the market, so the market has to be there and fresh
  else if e.stale r then .staleMarketData
  else if !r.book.twoSided then .fatFingerPrice
  else if r.book.microPrice ≤ 0 then .fatFingerPrice
  else if e.fatFinger r then .fatFingerPrice
  else if e.limits.maxPositionShares < e.worstLong r then .positionLimit
  else if e.worstShort r < -e.limits.maxPositionShares then .positionLimit
  else if e.limits.maxSymbolNotional < e.worstShares r * UInt64.ofInt r.price then .notionalLimit
  else if e.selfCross r then .selfCross
  else if e.limits.maxOpenOrders ≤ e.openOrders then .maxOpenOrders
  else if e.limits.maxMessagesPerSecond ≤ e.rate.countAt r.nowNs then .messageRate
  else .none

/-- `check`. The option is whether the token's search stops. -/
def check : Option RiskReject :=
  if e.reason r = .none then
    (e.table.findOpen r.token).map fun slot => if slot.isSome then .duplicateToken else .none
  else some (e.reason r)

end Check

/-- Everything an order that passes has been found to meet. -/
structure Passes (e : RiskEngine) (r : OrderRequest) : Prop where
  /-- Nobody has stopped the engine. -/
  live : e.tripped = false
  enabled : (e.symbols r.locate).enabled = true
  trading : (e.symbols r.locate).halted = false
  /-- It is for something, and for no more than one order may be. -/
  size : r.shares ≠ 0 ∧ r.shares ≤ e.limits.maxOrderShares
  price : 0 < r.price
  money : notional r ≤ e.limits.maxOrderNotional
  fresh : e.stale r = false
  twoSided : r.book.twoSided = true
  reference : 0 < r.book.microPrice
  /-- It is not far from the micro price, as the 64-bit products say. -/
  near : e.fatFinger r = false
  /-- If every buy fills, the position stays within the limit. -/
  long : e.worstLong r ≤ e.limits.maxPositionShares
  short : -e.limits.maxPositionShares ≤ e.worstShort r
  symbolMoney : e.worstShares r * UInt64.ofInt r.price ≤ e.limits.maxSymbolNotional
  /-- It would not meet one of our own. -/
  noCross : e.selfCross r = false
  /-- There is an order less open than may be. -/
  room : e.openOrders < e.limits.maxOpenOrders
  slow : e.rate.countAt r.nowNs < e.limits.maxMessagesPerSecond
  /-- Its token is not that of an open order. -/
  token : e.table.findOpen r.token = some none

/-- A guard that is passed is passed because its condition fails. -/
theorem guard_passed {c : Prop} [Decidable c] {reason rest : RiskReject}
    (hif : (if c then reason else rest) = .none) (h : reason ≠ .none) : ¬c ∧ rest = .none := by
  by_cases hc : c
  · exact absurd ((if_pos hc).symm.trans hif) h
  · exact ⟨hc, (if_neg hc).symm.trans hif⟩

/-- **An order that passes** has met every one of the tests. -/
theorem passes_of_check {e : RiskEngine} {r : OrderRequest} (h : e.check r = some .none) :
    Passes e r := by
  have hreason : e.reason r = .none := by
    by_contra hne
    rw [check, if_neg hne] at h
    exact hne (Option.some.inj h)
  have htoken : e.table.findOpen r.token = some none := by
    rw [check, if_pos hreason] at h
    obtain ⟨slot, hslot, hnone⟩ := Option.map_eq_some_iff.mp h
    cases slot with
    | none => exact hslot
    | some i => simp at hnone
  rw [reason] at hreason
  -- each guard in turn, in the order of the tests
  obtain ⟨hlive, hreason⟩ := guard_passed hreason nofun
  obtain ⟨henabled, hreason⟩ := guard_passed hreason nofun
  obtain ⟨htrading, hreason⟩ := guard_passed hreason nofun
  obtain ⟨hsize, hreason⟩ := guard_passed hreason nofun
  obtain ⟨hprice, hreason⟩ := guard_passed hreason nofun
  obtain ⟨hmoney, hreason⟩ := guard_passed hreason nofun
  obtain ⟨hfresh, hreason⟩ := guard_passed hreason nofun
  obtain ⟨htwoSided, hreason⟩ := guard_passed hreason nofun
  obtain ⟨href, hreason⟩ := guard_passed hreason nofun
  obtain ⟨hnear, hreason⟩ := guard_passed hreason nofun
  obtain ⟨hlong, hreason⟩ := guard_passed hreason nofun
  obtain ⟨hshort, hreason⟩ := guard_passed hreason nofun
  obtain ⟨hsymbol, hreason⟩ := guard_passed hreason nofun
  obtain ⟨hcross, hreason⟩ := guard_passed hreason nofun
  obtain ⟨hroom, hreason⟩ := guard_passed hreason nofun
  obtain ⟨hslow, -⟩ := guard_passed hreason nofun
  exact {
    live := Bool.eq_false_iff.mpr hlive
    enabled := by simpa using henabled
    trading := Bool.eq_false_iff.mpr htrading
    size := ⟨fun h => hsize (.inl h), UInt32.not_lt.mp fun h => hsize (.inr h)⟩
    price := Int.not_le.mp hprice
    money := UInt64.not_lt.mp hmoney
    fresh := Bool.eq_false_iff.mpr hfresh
    twoSided := by simpa using htwoSided
    reference := Int.not_le.mp href
    near := Bool.eq_false_iff.mpr hnear
    long := Int64.not_lt.mp hlong
    short := Int64.not_lt.mp hshort
    symbolMoney := UInt64.not_lt.mp hsymbol
    noCross := Bool.eq_false_iff.mpr hcross
    room := UInt32.not_le.mp hroom
    slow := UInt32.not_le.mp hslow
    token := htoken }

/-- What meets them all passes. -/
theorem Passes.check {e : RiskEngine} {r : OrderRequest} (h : Passes e r) :
    e.check r = some .none := by
  have hreason : e.reason r = .none := by
    rw [reason, if_neg (by rw [h.live]; decide), if_neg (by rw [h.enabled]; decide),
      if_neg (by rw [h.trading]; decide),
      if_neg (not_or_intro h.size.1 (UInt32.not_lt.mpr h.size.2)),
      if_neg (Int.not_le.mpr h.price), if_neg (UInt64.not_lt.mpr h.money),
      if_neg (by rw [h.fresh]; decide), if_neg (by rw [h.twoSided]; decide),
      if_neg (Int.not_le.mpr h.reference), if_neg (by rw [h.near]; decide),
      if_neg (Int64.not_lt.mpr h.long), if_neg (Int64.not_lt.mpr h.short),
      if_neg (UInt64.not_lt.mpr h.symbolMoney), if_neg (by rw [h.noCross]; decide),
      if_neg (UInt32.not_le.mpr h.room), if_neg (UInt32.not_le.mpr h.slow)]
  rw [RiskEngine.check, if_pos hreason, h.token]
  rfl

/-! ## State updates -/

section Updates

variable (e : RiskEngine)

/-- `trip_kill_switch`. -/
def tripKillSwitch (why : String) : RiskEngine :=
  { e with
    tripped := true
    stats := { e.stats with
      killReason := if e.tripped then e.stats.killReason else some why
      killSwitchTrips := e.stats.killSwitchTrips + 1 } }

/-- The order has gone out. Without room in the table the engine stops itself. -/
def onOrderSent (r : OrderRequest) : RiskEngine :=
  match e.table.insertOpen r.token r.shares r.locate r.isBuy with
  | none =>
    let failed := e.stats.tableInsertFailed + 1
    tripKillSwitch { e with stats := { e.stats with tableInsertFailed := failed } }
      "open order table full"
  | some table =>
    let openOrders := e.openOrders + 1
    { e with
      table := table
      symbols := Function.update e.symbols r.locate
        ((e.symbols r.locate).place r.isBuy r.shares r.price)
      openOrders := openOrders
      rate := e.rate.record r.nowNs
      stats := { e.stats with
        ordersSent := e.stats.ordersSent + 1
        openOrders := openOrders
        openOrdersPeak :=
          if e.stats.openOrdersPeak < openOrders then openOrders else e.stats.openOrdersPeak } }

/-- Take the order in a slot out of the table and off its side. -/
def retire (slot : ℕ) : Option RiskEngine :=
  let o := e.table.slots slot
  (e.table.eraseAt slot).map fun table =>
    let openOrders := SymbolRisk.fewer e.openOrders
    let drift := (e.symbols o.locate).drifts o.isBuy
    { e with
      table := table
      symbols := Function.update e.symbols o.locate ((e.symbols o.locate).close o.isBuy)
      openOrders := openOrders
      stats := { e.stats with
        openOrders := openOrders
        workingShareDrift :=
          if drift then e.stats.workingShareDrift + 1 else e.stats.workingShareDrift } }

/-- No more than is left. -/
def clamp (leaves n : UInt32) : UInt32 := if leaves < n then leaves else n

/-- An event for a token that is not working. -/
def unknownToken : RiskEngine :=
  { e with stats := { e.stats with unknownTokenEvents := e.stats.unknownTokenEvents + 1 } }

/-- The order in a slot loses shares, and its symbol's tally with it. -/
def lower (slot : ℕ) (n : UInt32) (traded : Bool) : RiskEngine :=
  let o := e.table.slots slot
  { e with
    table := e.table.setLeaves slot (o.leaves - n)
    symbols := Function.update e.symbols o.locate ((e.symbols o.locate).lose o.isBuy n traded) }

/-- `++stats_.overfills` where more is taken than is left. -/
def countOverfill (slot : ℕ) (n : UInt32) : RiskStats :=
  if (e.table.slots slot).leaves < n then
    { e.stats with overfills := e.stats.overfills + 1 }
  else e.stats

/-- An order with nothing left does not stay. -/
def retireEmpty (slot : ℕ) : Option RiskEngine :=
  if (e.table.slots slot).leaves = 0 then e.retire slot else some e

/-- Shares were traded. No more is taken than is left, and a price that is not positive is worth
nothing. -/
def onFill (token : Ouch.Token) (shares : UInt32) (price : Price) : Option RiskEngine :=
  (e.table.findOpen token).bind fun
    | none => some e.unknownToken
    | some slot =>
      let n := clamp (e.table.slots slot).leaves shares
      let stats := e.countOverfill slot shares
      let money := n.toUInt64 * UInt64.ofInt (if 0 < price then price else 0)
      let e' := { e with
        stats := { stats with
          filledNotional := stats.filledNotional + money, fills := stats.fills + 1 } }
      (e'.lower slot n true).retireEmpty slot

/-- Shares were cancelled; a decrement of zero is all of them. -/
def onCancelAcked (token : Ouch.Token) (decrementShares : UInt32) : Option RiskEngine :=
  (e.table.findOpen token).bind fun
    | none => some e.unknownToken
    | some slot =>
      let o := e.table.slots slot
      let wanted := if decrementShares = 0 then o.leaves else decrementShares
      let n := clamp o.leaves wanted
      let stats := e.countOverfill slot wanted
      let e' := { e with stats := { stats with cancelsAcked := stats.cancelsAcked + 1 } }
      (e'.lower slot n false).retireEmpty slot

/-- The exchange would not have the order, so it leaves with all its shares. -/
def onReject (token : Ouch.Token) : Option RiskEngine :=
  (e.table.findOpen token).bind fun
    | none => some e.unknownToken
    | some slot =>
      let o := e.table.slots slot
      let e' := { e with
        stats := { e.stats with exchangeRejects := e.stats.exchangeRejects + 1 } }
      (e'.lower slot o.leaves false).retire slot

end Updates

end RiskEngine

/-! ## Events -/

/-- What the exchange says of an order. -/
inductive RiskReport where
  | fill (shares : UInt32) (price : Price)
  | cancelAcked (decrementShares : UInt32)
  | reject

/-- What happens to an engine: an order is wanted, and sent if the check passes it, or the
exchange reports on a token. -/
inductive RiskEvent where
  | order (r : OrderRequest)
  | report (token : Ouch.Token) (said : RiskReport)

namespace RiskEngine

/-- A report, by what it says. -/
def onReport (e : RiskEngine) (token : Ouch.Token) : RiskReport → Option RiskEngine
  | .fill shares price => e.onFill token shares price
  | .cancelAcked decrement => e.onCancelAcked token decrement
  | .reject => e.onReject token

/-- One event, and whether it was an order that went out. -/
def exec (e : RiskEngine) : RiskEvent → Option (RiskEngine × Bool)
  | .order r => (e.check r).map fun reason =>
    if reason = .none then
      (e.onOrderSent r, (e.table.insertOpen r.token r.shares r.locate r.isBuy).isSome)
    else (e, false)
  | .report token said => (e.onReport token said).map fun e' => (e', false)

end RiskEngine
end Tickerplant
