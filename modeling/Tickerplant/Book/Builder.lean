import Tickerplant.Book.FlatOrderMap
import Tickerplant.Book.Side

/-!
# Rebuilding the book (`include/tick/book_builder.hpp`)

`BookBuilder` applies what the feed says happened: an order rests, loses shares, goes, or is
replaced. It keeps the pool the orders live in, the table from references to orders, one book a
symbol, the traded volume and the counters. It does not match: the exchange has decided which
orders trade, and a book that decided for itself would part from the exchange's within seconds.

Nothing a feed can send makes a handler stop. An execution of an order that is not resting, an add
of a reference that is, more shares taken than there are: each is counted and survived, because
after a gap they do happen. So every handler has its error paths inside, and they are modelled with
it. A handler is a function to `Option` for one reason only, that the table's probing loops are run
with fuel; that they all answer is part of what is proved.

The sides are of either `SideKind`, the levels and the pool any that `Book/Nano` allows.
`BookEvent` is the `ItchHandler` surface with the fields the handlers read, so that a decoded
stream is a list and `run` one fold over it.
-/

set_option autoImplicit false

namespace Tickerplant

/-! ## What it answers -/

/-- What `top` answers, the best level of each side. A side with nothing on it is all zeros, which
no level shows, since a level with no shares does not stay. -/
structure TopOfBook where
  bidPrice : Price := 0
  bidQty : Quantity := 0
  bidOrders : UInt32 := 0
  askPrice : Price := 0
  askQty : Quantity := 0
  askOrders : UInt32 := 0
  deriving DecidableEq, Repr

namespace TopOfBook

/-- Is anything bid? The quantity says so, not the price. -/
def hasBid (t : TopOfBook) : Bool := decide (0 < t.bidQty)

/-- Is anything offered? -/
def hasAsk (t : TopOfBook) : Bool := decide (0 < t.askQty)

/-- Both sides are there, which `spread`, `mid` and `micro_price` ask for. -/
def twoSided (t : TopOfBook) : Bool := t.hasBid && t.hasAsk

/-- The best ask less the best bid, or zero with a side missing. -/
def spread (t : TopOfBook) : Price := if t.twoSided then t.askPrice - t.bidPrice else 0

/-- The midpoint in the feed's ten-thousandths of a dollar. `/ 2` of C++ truncates, hence `tdiv`.
-/
def mid (t : TopOfBook) : Price := if t.twoSided then (t.bidPrice + t.askPrice).tdiv 2 else 0

/-- The size weighted midpoint, in 64-bit unsigned arithmetic. -/
def microPrice (t : TopOfBook) : Price :=
  if t.twoSided then
    let bq := t.bidQty.toUInt64
    let aq := t.askQty.toUInt64
    let total := bq + aq
    if total = 0 then t.mid
    else ((UInt64.ofInt t.bidPrice * aq + UInt64.ofInt t.askPrice * bq) / total).toInt64.toInt
  else 0

end TopOfBook

/-- One level as a caller sees it: what `for_each` hands to its visitor and `depth` writes out. -/
structure DepthLevel where
  price : Price
  qty : Quantity
  orders : UInt32
  deriving DecidableEq, Repr

/-- What the builder counts: the messages by kind, then what should not have happened. On a clean
day the second group is zero; after a gap its size is the measure of what the gap cost. The
counters are natural numbers: they are only added to and read back, and `liveOrders` goes down only
when an order does. -/
structure BookStats where
  messages : ℕ := 0
  adds : ℕ := 0
  addsMpid : ℕ := 0
  executes : ℕ := 0
  executesWithPrice : ℕ := 0
  cancels : ℕ := 0
  deletes : ℕ := 0
  replaces : ℕ := 0
  trades : ℕ := 0
  crossTrades : ℕ := 0
  brokenTrades : ℕ := 0
  directoryEntries : ℕ := 0
  tradingActions : ℕ := 0
  systemEvents : ℕ := 0
  other : ℕ := 0
  duplicateRefs : ℕ := 0
  orphanExecutes : ℕ := 0
  orphanCancels : ℕ := 0
  orphanDeletes : ℕ := 0
  orphanReplaces : ℕ := 0
  overfills : ℕ := 0
  poolExhausted : ℕ := 0
  unknownSide : ℕ := 0
  liveOrders : ℕ := 0
  peakLiveOrders : ℕ := 0
  lastTimestamp : UInt64 := 0
  sessionState : Char := '\x00'

/-- A symbol's running totals, at the width of the source: shares and notional of what was
executed, and apart from them what was hidden and what an auction crossed. -/
structure SymbolTotals where
  executedShares : UInt64 := 0
  executedNotional : UInt64 := 0
  hiddenShares : UInt64 := 0
  crossShares : UInt64 := 0
  messages : UInt64 := 0
  deriving DecidableEq, Repr

/-! ## The symbol table (`include/tick/symbol_table.hpp`) -/

/-- An entry of the symbol table. A symbol nobody has described is unknown and trades. -/
structure SymbolInfo where
  /-- Eight bytes. -/
  name : List UInt8 := List.replicate 8 0
  nameLen : ℕ := 0
  roundLot : UInt32 := 0
  tradingState : Char := 'T'
  known : Bool := false
  deriving DecidableEq, Repr

/-- One entry for each stock locate, and how many of them have been described. -/
structure SymbolTable where
  entries : UInt16 → SymbolInfo := fun _ => {}
  defined : ℕ := 0

namespace SymbolTable

/-- A stock directory message. A ticker longer than the entry's eight bytes is cut, a shorter one
leaves the bytes behind it as they were, and a symbol described twice counts once. -/
def define (t : SymbolTable) (locate : UInt16) (ticker : List UInt8) (roundLot : UInt32) :
    SymbolTable :=
  let e := t.entries locate
  let n := min ticker.length e.name.length
  { entries := Function.update t.entries locate { e with
      name := ticker.take n ++ e.name.drop n
      nameLen := n
      roundLot := roundLot
      known := true }
    defined := if e.known then t.defined else t.defined + 1 }

/-- A trading action: the state changes and the symbol does not become known by it. -/
def setTradingState (t : SymbolTable) (locate : UInt16) (state : Char) : SymbolTable :=
  { t with entries := Function.update t.entries locate { t.entries locate with
      tradingState := state } }

end SymbolTable

/-! ## The builder -/

/-- The two sides of one symbol. -/
structure Book (L : Type) where
  /-- `SideT<true>`, the highest price first. -/
  bids : BookSide L := ⟨[]⟩
  /-- `SideT<false>`, the lowest price first. -/
  asks : BookSide L := ⟨[]⟩

namespace Book

variable {L : Type}

/-- The side an order is on. -/
def side (b : Book L) : Side → BookSide L
  | .buy => b.bids
  | .sell => b.asks

/-- The book with one of its sides changed. -/
def setSide (b : Book L) (side : Side) (s : BookSide L) : Book L :=
  match side with
  | .buy => { b with bids := s }
  | .sell => { b with asks := s }

end Book

/-- `SideT<true>` holds the bids. -/
def Side.isBid : Side → Bool
  | .buy => true
  | .sell => false

/-- The builder's members. The source keeps pointers from the table and from the levels into the
pool; here they are `OrderPtr`s, and `heap` is what they point to. -/
structure BookBuilder (L P : Type) where
  pool : P
  /-- The orders in the pool's storage. -/
  heap : OrderPtr → Order
  orders : FlatOrderMap OrderPtr
  books : UInt16 → Book L
  totals : UInt16 → SymbolTotals
  symbols : SymbolTable
  stats : BookStats

/-- What the decoder calls: the `ItchHandler` surface. -/
inductive BookEvent where
  | systemEvent (ts : UInt64) (code : Char)
  | stockDirectory (locate : UInt16) (ts : UInt64) (ticker : List UInt8) (roundLot : UInt32)
  | tradingAction (locate : UInt16) (ts : UInt64) (state : Char)
  | add (locate : UInt16) (ts ref : UInt64) (side : Char) (shares price : UInt32) (hasMpid : Bool)
  | execute (locate : UInt16) (ts ref : UInt64) (shares : UInt32)
  | executePrice (locate : UInt16) (ts ref : UInt64) (shares : UInt32) (printable : Bool)
      (price : UInt32)
  | cancel (locate : UInt16) (ts ref : UInt64) (shares : UInt32)
  | delete (locate : UInt16) (ts ref : UInt64)
  | replace (locate : UInt16) (ts oldRef newRef : UInt64) (shares price : UInt32)
  | trade (locate : UInt16) (ts : UInt64) (shares price : UInt32)
  | crossTrade (locate : UInt16) (ts : UInt64) (shares price : UInt32)
  | brokenTrade (ts : UInt64)
  | other (ts : UInt64)
  deriving DecidableEq, Repr

namespace BookBuilder

variable {L P : Type} [PriceLevel L] [MemoryPool P]

/-- `BookBuilder(order_map_capacity)`. -/
def make (orderMapCapacity : ℕ) : BookBuilder L P where
  pool := MemoryPool.make
  heap := fun _ =>
    { id := 0, side := .buy, price := 0, remainingQty := 0, timestamp := 0, symbol := 0 }
  orders := FlatOrderMap.make orderMapCapacity
  books := fun _ => {}
  totals := fun _ => {}
  symbols := {}
  stats := {}

section Handlers

variable (kind : SideKind) (b : BookBuilder L P)

/-- A change of the counters. -/
def count (f : BookStats → BookStats) : BookBuilder L P := { b with stats := f b.stats }

/-- What every handler does first. -/
def touch (ts : UInt64) : BookBuilder L P :=
  b.count fun s => { s with lastTimestamp := ts, messages := s.messages + 1 }

/-- `++totals_[locate].messages`. -/
def countMessage (locate : UInt16) : BookBuilder L P :=
  { b with totals := Function.update b.totals locate { b.totals locate with
      messages := (b.totals locate).messages + 1 } }

/-- Shares at a price, into the volume that is reconciled at the end of the day. -/
def recordVolume (locate : UInt16) (shares : UInt32) (price : UInt64) : BookBuilder L P :=
  { b with totals := Function.update b.totals locate { b.totals locate with
      executedShares := (b.totals locate).executedShares + shares.toUInt64
      executedNotional := (b.totals locate).executedNotional + shares.toUInt64 * price } }

/-- A change of one side of one book. -/
def updateSide (stock : UInt16) (side : Side) (f : BookSide L → BookSide L) : BookBuilder L P :=
  let book := b.books stock
  { b with books := Function.update b.books stock (book.setSide side (f (book.side side))) }

/-- `orders_.find(ref)`: the outer `Option` is the table's loop, the inner one its answer. -/
def find (ref : UInt64) : Option (Option OrderPtr) := b.orders.find splitMix64 ref

/-- Append to the order's level, which is made if it is not there. -/
def link (isBid : Bool) (o : OrderPtr) (ord : Order) (s : BookSide L) : BookSide L :=
  (s.level kind isBid ord.price).modify ord.price fun lvl => PriceLevel.append lvl o ord

/-- Remove from the order's level, and the level when that leaves it empty. -/
def unlink (isBid : Bool) (o : OrderPtr) (ord : Order) (s : BookSide L) : BookSide L :=
  match s.find kind isBid ord.price with
  | none => s
  | some lvl =>
    let s' := s.modify ord.price fun lvl => PriceLevel.remove lvl o ord
    if PriceLevel.isEmpty (PriceLevel.remove lvl o ord) then s'.erase kind isBid ord.price else s'

/-- Take shares off the order's level. -/
def shrink (isBid : Bool) (ord : Order) (shares : Quantity) (s : BookSide L) : BookSide L :=
  match s.find kind isBid ord.price with
  | none => s
  | some _ => s.modify ord.price fun lvl => PriceLevel.reduce lvl shares

/-- `remove_order`: unlink from the level, drop the level if it is empty, forget the reference, and
give the storage back to the pool. All four, in that order, every time. -/
def removeOrder (ref : UInt64) : Option (BookBuilder L P) :=
  (b.find ref).bind fun slot =>
    match slot with
    -- a reference that is not there is left alone: the callers have counted it
    | none => some b
    | some o =>
      let ord := b.heap o
      let b := b.updateSide ord.symbol ord.side (unlink kind ord.side.isBid o ord)
      (b.orders.erase splitMix64 ref).map fun erased =>
        { b with
          orders := erased.2, pool := MemoryPool.deallocate b.pool o : BookBuilder L P }.count
          fun s => { s with liveOrders := s.liveOrders - 1 }

/-- `reduce`: take shares off a resting order, removing it when nothing is left. -/
def reduce (ref : UInt64) (o : OrderPtr) (shares : UInt32) : Option (BookBuilder L P) :=
  let ord := b.heap o
  if ord.remainingQty ≤ shares then
    removeOrder kind
      (if ord.remainingQty < shares then
        b.count fun s => { s with overfills := s.overfills + 1 }
      else b) ref
  else
    some { b.updateSide ord.symbol ord.side (shrink kind ord.side.isBid ord shares) with
      heap := Function.update b.heap o { ord with remainingQty := ord.remainingQty - shares } }

/-- What `on_add` and `on_replace` both end with: an order from the pool, linked, entered under
its reference and counted. -/
def rest (ref : UInt64) (side : Side) (price shares : UInt32) (ts : UInt64) (stock : UInt16) :
    Option (BookBuilder L P) :=
  match MemoryPool.allocate b.pool with
  | none => some (b.count fun s => { s with poolExhausted := s.poolExhausted + 1 })
  | some (o, pool) =>
    let ord : Order := { id := ref, side := side, price := price.toNat, remainingQty := shares,
                         timestamp := ts, symbol := stock }
    let b := { b.updateSide stock side (link kind side.isBid o ord) with
      pool := pool
      heap := Function.update b.heap o ord }
    (b.orders.insert splitMix64 ref o).map fun inserted =>
      { b with orders := inserted.2 : BookBuilder L P }.count fun s =>
        { s with
          liveOrders := s.liveOrders + 1
          peakLiveOrders := max (s.liveOrders + 1) s.peakLiveOrders }

/-- A and F, an order comes to rest. The exchange never reuses a live reference, so an add of one
means that a message was missed: the old order is abandoned and the new one takes the reference. -/
def onAdd (locate : UInt16) (ts ref : UInt64) (sideChar : Char) (shares price : UInt32)
    (hasMpid : Bool) : Option (BookBuilder L P) :=
  let b := b.touch ts
  let b := b.count fun s =>
    { s with adds := s.adds + 1, addsMpid := if hasMpid then s.addsMpid + 1 else s.addsMpid }
  let b := b.countMessage locate
  -- the source counts a character it does not know and drops the order
  let side? := if sideChar = 'B' then some Side.buy
    else if sideChar = 'S' then some Side.sell else none
  match side? with
  | none => some (b.count fun s => { s with unknownSide := s.unknownSide + 1 })
  | some side =>
    (b.find ref).bind fun slot =>
      match slot with
      | some _ =>
        (removeOrder kind (b.count fun s => { s with duplicateRefs := s.duplicateRefs + 1 })
            ref).bind fun b =>
          rest kind b ref side price shares ts locate
      | none => rest kind b ref side price shares ts locate

/-- E, shares of a resting order trade at its own price, which the message does not carry. The
volume goes to the symbol of the order. -/
def onExecute (locate : UInt16) (ts ref : UInt64) (shares : UInt32) : Option (BookBuilder L P) :=
  let b := b.touch ts
  let b := b.count fun s => { s with executes := s.executes + 1 }
  let b := b.countMessage locate
  (b.find ref).bind fun slot =>
    match slot with
    | none => some (b.count fun s => { s with orphanExecutes := s.orphanExecutes + 1 })
    | some o =>
      reduce kind (b.recordVolume (b.heap o).symbol shares (UInt64.ofInt (b.heap o).price)) ref o
        shares

/-- C, as E but at a price of its own. A print that is not printable is one leg of something
reported elsewhere, and is not counted twice. -/
def onExecutePrice (locate : UInt16) (ts ref : UInt64) (shares : UInt32) (printable : Bool)
    (price : UInt32) : Option (BookBuilder L P) :=
  let b := b.touch ts
  let b := b.count fun s =>
    { s with executes := s.executes + 1, executesWithPrice := s.executesWithPrice + 1 }
  let b := b.countMessage locate
  (b.find ref).bind fun slot =>
    match slot with
    | none => some (b.count fun s => { s with orphanExecutes := s.orphanExecutes + 1 })
    | some o =>
      reduce kind
        (if printable then b.recordVolume (b.heap o).symbol shares price.toUInt64 else b) ref o
        shares

/-- X, an order loses shares without a trade. -/
def onCancel (locate : UInt16) (ts ref : UInt64) (shares : UInt32) : Option (BookBuilder L P) :=
  let b := b.touch ts
  let b := b.count fun s => { s with cancels := s.cancels + 1 }
  let b := b.countMessage locate
  (b.find ref).bind fun slot =>
    match slot with
    | none => some (b.count fun s => { s with orphanCancels := s.orphanCancels + 1 })
    | some o => reduce kind b ref o shares

/-- D, an order goes. -/
def onDelete (locate : UInt16) (ts ref : UInt64) : Option (BookBuilder L P) :=
  let b := b.touch ts
  let b := b.count fun s => { s with deletes := s.deletes + 1 }
  let b := b.countMessage locate
  (b.find ref).bind fun slot =>
    match slot with
    | none => some (b.count fun s => { s with orphanDeletes := s.orphanDeletes + 1 })
    | some _ => removeOrder kind b ref

/-- U, the old reference goes and a new order comes. The message carries no side and no symbol:
they are the old order's, so that an orphaned replace can only be counted. The new reference is
entered whatever the table says of it. -/
def onReplace (locate : UInt16) (ts oldRef newRef : UInt64) (shares price : UInt32) :
    Option (BookBuilder L P) :=
  let b := b.touch ts
  let b := b.count fun s => { s with replaces := s.replaces + 1 }
  let b := b.countMessage locate
  (b.find oldRef).bind fun slot =>
    match slot with
    | none => some (b.count fun s => { s with orphanReplaces := s.orphanReplaces + 1 })
    | some o =>
      (removeOrder kind b oldRef).bind fun b' =>
        rest kind b' newRef (b.heap o).side price shares ts (b.heap o).symbol

/-- S, the session's state. It belongs to no symbol. -/
def onSystemEvent (ts : UInt64) (code : Char) : BookBuilder L P :=
  let b := (b.count fun s => { s with sessionState := code }).touch ts
  b.count fun s => { s with systemEvents := s.systemEvents + 1 }

/-- R, a symbol is described. -/
def onStockDirectory (locate : UInt16) (ts : UInt64) (ticker : List UInt8) (roundLot : UInt32) :
    BookBuilder L P :=
  let b := { b with symbols := b.symbols.define locate ticker roundLot }.touch ts
  b.count fun s => { s with directoryEntries := s.directoryEntries + 1 }

/-- H, a symbol halts or trades again. -/
def onTradingAction (locate : UInt16) (ts : UInt64) (state : Char) : BookBuilder L P :=
  let b := { b with symbols := b.symbols.setTradingState locate state }.touch ts
  b.count fun s => { s with tradingActions := s.tradingActions + 1 }

/-- P, a trade against hidden liquidity. It never rested, so that nothing is removed, and the
reference it carries is none that was added. -/
def onTrade (locate : UInt16) (ts : UInt64) (shares price : UInt32) : BookBuilder L P :=
  let b := b.touch ts
  let b := b.count fun s => { s with trades := s.trades + 1 }
  let b := b.countMessage locate
  let b := { b with totals := Function.update b.totals locate { b.totals locate with
    hiddenShares := (b.totals locate).hiddenShares + shares.toUInt64 } }
  b.recordVolume locate shares price.toUInt64

/-- Q, an auction. It does not touch the book either. -/
def onCrossTrade (locate : UInt16) (ts : UInt64) (shares price : UInt32) : BookBuilder L P :=
  let b := b.touch ts
  let b := b.count fun s => { s with crossTrades := s.crossTrades + 1 }
  let b := b.countMessage locate
  let b := { b with totals := Function.update b.totals locate { b.totals locate with
    crossShares := (b.totals locate).crossShares + shares.toUInt64 } }
  b.recordVolume locate shares price.toUInt64

/-- B, a trade that did not stand. The volume is not backed out; the messages are counted. -/
def onBrokenTrade (ts : UInt64) : BookBuilder L P :=
  let b := b.touch ts
  b.count fun s => { s with brokenTrades := s.brokenTrades + 1 }

/-- Every other kind the feed has. -/
def onOther (ts : UInt64) : BookBuilder L P :=
  let b := b.touch ts
  b.count fun s => { s with other := s.other + 1 }

/-- The handler an event calls. -/
def apply : BookEvent → Option (BookBuilder L P)
  | .systemEvent ts code => some (b.onSystemEvent ts code)
  | .stockDirectory locate ts ticker lot => some (b.onStockDirectory locate ts ticker lot)
  | .tradingAction locate ts state => some (b.onTradingAction locate ts state)
  | .add locate ts ref side shares price mpid => onAdd kind b locate ts ref side shares price mpid
  | .execute locate ts ref shares => onExecute kind b locate ts ref shares
  | .executePrice locate ts ref shares printable price =>
    onExecutePrice kind b locate ts ref shares printable price
  | .cancel locate ts ref shares => onCancel kind b locate ts ref shares
  | .delete locate ts ref => onDelete kind b locate ts ref
  | .replace locate ts oldRef newRef shares price =>
    onReplace kind b locate ts oldRef newRef shares price
  | .trade locate ts shares price => some (b.onTrade locate ts shares price)
  | .crossTrade locate ts shares price => some (b.onCrossTrade locate ts shares price)
  | .brokenTrade ts => some (b.onBrokenTrade ts)
  | .other ts => some (b.onOther ts)

end Handlers

/-- A stream of events. -/
def run (kind : SideKind) (b : BookBuilder L P) : List BookEvent → Option (BookBuilder L P)
  | [] => some b
  | e :: events => (apply kind b e).bind fun b' => run kind b' events

/-! ## Queries -/

section Queries

variable (b : BookBuilder L P)

/-- The best level of each side, read off the first level of its list. -/
def top (locate : UInt16) : TopOfBook :=
  let book := b.books locate
  let t : TopOfBook := match book.bids.best with
    | some lvl => { bidPrice := PriceLevel.price lvl, bidQty := PriceLevel.totalQuantity lvl,
                    bidOrders := PriceLevel.orderCount lvl }
    | none => {}
  match book.asks.best with
  | some lvl => { t with askPrice := PriceLevel.price lvl, askQty := PriceLevel.totalQuantity lvl,
                         askOrders := PriceLevel.orderCount lvl }
  | none => t

/-- What `for_each` shows of a side. -/
def levels (locate : UInt16) (side : Side) : List DepthLevel :=
  ((b.books locate).side side).levels.map fun e =>
    { price := e.1, qty := PriceLevel.totalQuantity e.2, orders := PriceLevel.orderCount e.2 }

/-- Up to `depth` levels of a side, best first. -/
def depth (locate : UInt16) (side : Side) (depth : ℕ) : List DepthLevel :=
  (b.levels locate side).take depth

end Queries

end BookBuilder

/-! ## The fingerprint -/

/-- One word into an FNV-1a hash. -/
def mix (h v : UInt64) : UInt64 :=
  (List.range 8).foldl
    (fun h i => (h ^^^ ((v >>> UInt64.ofNat (i * 8)) &&& 0xFF)) * 1099511628211) h

/-- What a level contributes: price, shares and orders. Which orders they are is left out, as the
feed does not promise it across a recovery. -/
def mixLevel (h : UInt64) (lvl : DepthLevel) : UInt64 :=
  mix (mix (mix h (UInt64.ofInt lvl.price)) lvl.qty.toUInt64) lvl.orders.toUInt64

/-- The walk of `digest`, over what `for_each` shows of each book. -/
def digestOf (levels : UInt16 → Side → List DepthLevel) : UInt64 :=
  (List.range (2 ^ 16)).foldl (fun h locate =>
    let bids := levels (UInt16.ofNat locate) .buy
    let asks := levels (UInt16.ofNat locate) .sell
    if bids.isEmpty && asks.isEmpty then h
    else asks.foldl mixLevel (mix (bids.foldl mixLevel
      (mix (mix h (UInt64.ofNat locate)) 0xB1D)) 0xA5C)) 1469598103934665603

/-- The fingerprint of everything visible, by which two runs are compared. -/
def BookBuilder.digest {L P : Type} [PriceLevel L] (b : BookBuilder L P) : UInt64 :=
  digestOf b.levels

end Tickerplant
