import Tickerplant.Ouch.Roundtrip
import Tickerplant.Ouch.TokenGenerator
import Tickerplant.Replay.RunPass
import Tickerplant.Risk.Control
import Tickerplant.Risk.Position
import Tickerplant.Strategy.Quoter
import Tickerplant.Trade.Venue

/-!
# The trading loop (`tools/tickerplant_trade.cpp`)

One turn of the loop takes a message of the feed: it is decoded into the book, a trade of the
market is pushed through the venue, the quoting rule looks at the new top, what it wants goes
through the risk gate and onto the wire and rests at the venue, and the fills that came of it are
told to the rule and to the gate.

The clock is read four times in a turn and is an argument here (`Clock`). The histograms and the
counts of allocations are not modelled, and the two variables that each side of the quote has are
one function of the side. The counters of a run are natural numbers: they are only added to,
printed, and compared with the limit.

An option is what a turn answers where the source would loop for ever or fault: a search of a table
that does not end, or an order whose encoding fails. Both come from the models of the table and of
the encoder, and that neither happens in a session is part of what is proved of it. A read outside
of a buffer is an error of `Checked`, as everywhere.
-/

set_option autoImplicit false

namespace Tickerplant

open Lib Itch

/-- The options of the tool, with their defaults. -/
structure TradeOptions where
  symbol : List UInt8 := "AAPL".toList.map Char.toUInt8
  /-- Zero is no limit. -/
  limit : ℕ := 0
  quote : QuoteConfig := {}
  limits : RiskLimits :=
    { maxOrderShares := 5000
      maxOrderNotional := 50000000000
      fatFingerBps := 500
      maxPositionShares := 5000
      maxSymbolNotional := 100000000000
      maxOpenOrders := 64
      maxMessagesPerSecond := 100000
      maxMarketDataAgeNs := 5000000000 }

/-- What the clock answers in a turn: `t_book`, `t_q0`, and `now_ns` of the order of each side. -/
structure Clock where
  book : UInt64
  quote : UInt64
  send : Side → UInt64

/-- What the loop counts. -/
structure TradeRun where
  messages : ℕ := 0
  quoteUpdates : ℕ := 0
  ordersSent : ℕ := 0
  ordersRejected : ℕ := 0
  cancelsSent : ℕ := 0
  fills : ℕ := 0
  filledShares : ℕ := 0

/-- Our live quote on a side. Zero means nothing resting. -/
structure LiveQuote where
  id : UInt64 := 0
  /-- Of the last order sent on the side, kept when the quote is gone. -/
  token : Ouch.Token := alpha Ouch.kTokenLen []

/-- An order that has left, and its bytes. -/
structure SentOrder where
  request : OrderRequest
  bytes : List UInt8

/-- The variables of the loop. -/
structure TradeLoop (E L P : Type) where
  book : BookBuilder L P
  decoder : ZeroCopyDecoder := {}
  quoter : MicroPriceQuoter
  risk : RiskEngine
  tokens : Ouch.TokenGenerator
  venue : Venue E
  /-- The buffer orders are encoded into. -/
  wire : List UInt8 := List.replicate 256 0
  live : Side → LiveQuote := fun _ => {}
  nextOurId : UInt64 := 1
  /-- That of the symbol, once the directory has it. -/
  locate : Option UInt16 := none
  /-- The size of the directory when it was last searched. -/
  lastDefined : ℕ := 0
  /-- When the book last changed, for the gate to judge its age by. -/
  bookTs : UInt64 := 0
  halted : Bool := false
  run : TradeRun := {}
  /-- What has left, the latest first. Nothing reads it. -/
  sent : List SentOrder := []

namespace TradeLoop

variable {E L P : Type} [MatchingEngine E] [PriceLevel L] [MemoryPool P]

/-- The loop before its first message. -/
def start (opt : TradeOptions) : TradeLoop E L P where
  book := .make (1 <<< 22)
  quoter := { cfg := opt.quote }
  risk := .make opt.limits
  tokens := .make ("TKP".toList.map Char.toUInt8) 0
  venue := .make

section Turn

variable (opt : TradeOptions) (s : TradeLoop E L P)

/-- The symbol is looked for when the directory has grown. -/
def resolve : TradeLoop E L P :=
  let defined := s.book.symbols.defined
  if defined = s.lastDefined then s
  else
    let locate := s.book.symbols.find opt.symbol
    { s with
      lastDefined := defined
      locate := locate
      risk := match locate with
        | some locate => s.risk.enableSymbol locate true
        | none => s.risk }

/-- Trading halts come straight off the feed. -/
def hear (loc : UInt16) (type : UInt8) : TradeLoop E L P :=
  if type = 'H'.toUInt8 then
    let state := (s.book.symbols.entries loc).tradingState
    { s with halted := decide (state ≠ 'T'), risk := s.risk.onTradingAction loc state }
  else s

/-- The market traded: an aggressor from each side, at the midpoint. -/
def market (loc : UInt16) (type : UInt8) : TradeLoop E L P :=
  let t := s.book.top loc
  if (type = 'E'.toUInt8 ∨ type = 'C'.toUInt8 ∨ type = 'P'.toUInt8) ∧ t.twoSided = true then
    let venue := s.venue.marketTraded opt.symbol .buy t.mid 100
    { s with venue := venue.marketTraded opt.symbol .sell t.mid 100 }
  else s

/-- The quote of a side is taken back at the venue. The gate is not told. -/
def cancelLive (side : Side) : TradeLoop E L P :=
  let live := s.live side
  if live.id = 0 then s
  else { s with
    venue := s.venue.cancel opt.symbol live.id
    live := Function.update s.live side { live with id := 0 }
    run := { s.run with cancelsSent := s.run.cancelsSent + 1 } }

/-- The order as it goes on the wire. -/
def enterOrder (r : OrderRequest) : Ouch.EnterOrder where
  token := r.token
  side := if r.side = .buy then 'B'.toUInt8 else 'S'.toUInt8
  shares := r.shares
  stock := alpha Ouch.kStockLen opt.symbol
  price := UInt32.ofInt r.price

/-- The end of `send`: the order is encoded, and rests at the venue. -/
def place (r : OrderRequest) : Option (TradeLoop E L P) :=
  match Ouch.encodeEnterOrder s.wire (enterOrder opt r) with
  | .error _ => none
  | .ok (n, wire) =>
    -- an order with no bytes would not go out
    if n = 0 then some { s with wire := wire }
    else some { s with
      wire := wire
      risk := s.risk.onOrderSent r
      live := Function.update s.live r.side { id := s.nextOurId, token := r.token }
      nextOurId := s.nextOurId + 1
      venue := s.venue.submit s.nextOurId opt.symbol r.side r.price r.shares
      run := { s.run with ordersSent := s.run.ordersSent + 1 }
      sent := { request := r, bytes := wire.take n } :: s.sent }

/-- An order is numbered and put to the gate, and goes out if it passes. -/
def send (loc : UInt16) (top : TopOfBook) (now : UInt64) (side : Side) (price : Price)
    (qty : Quantity) : Option (TradeLoop E L P) :=
  let t := s.tokens.next
  let r : OrderRequest :=
    { locate := loc, token := t.1, side := side, shares := qty, price := price, book := top
      bookTsNs := s.bookTs, nowNs := now }
  (s.risk.checkAndCount r).bind fun (verdict, risk) =>
    let s := { s with tokens := t.2, risk := risk }
    if verdict ≠ .none then
      some { s with run := { s.run with ordersRejected := s.run.ordersRejected + 1 } }
    else s.place opt r

/-- Cancel first, then replace. -/
def requote (loc : UInt16) (top : TopOfBook) (want : Quote) (t : Clock) :
    Option (TradeLoop E L P) :=
  let s := (s.cancelLive opt .buy).cancelLive opt .sell
  (if want.hasBid then s.send opt loc top (t.send .buy) .buy want.bid want.bidQty
    else some s).bind fun s =>
  if want.hasAsk then s.send opt loc top (t.send .sell) .sell want.ask want.askQty else some s

/-- Both are told of a fill, the gate under the token of the side. -/
def bookFill (f : Fill) : Option (TradeLoop E L P) :=
  (s.risk.onFill (s.live f.ourSide).token f.qty f.price).map fun risk =>
    { s with
      quoter := s.quoter.onFill f.ourSide f.qty
      risk := risk
      run := { s.run with
        fills := s.run.fills + 1, filledShares := s.run.filledShares + f.qty.toNat }
      live := Function.update s.live f.ourSide { s.live f.ourSide with id := 0 } }

/-- Drain whatever filled. -/
def drain : Option (TradeLoop E L P) :=
  (s.venue.fills.foldlM bookFill s).map fun s => { s with venue := { s.venue with fills := [] } }

/-- The rule looks at the top of the book, and what it decides is done. -/
def decideQuote (loc : UInt16) (t : Clock) : Option (TradeLoop E L P) :=
  let top := s.book.top loc
  let a := s.quoter.onTopOfBook top s.quoter.position t.quote s.halted
  let s := { s with
    bookTs := t.book
    quoter := a.quoter
    run := { s.run with quoteUpdates := s.run.quoteUpdates + 1 } }
  if a.decision = .pull then some ((s.cancelLive opt .buy).cancelLive opt .sell)
  else if a.decision = .requote then s.requote opt loc top a.out t
  else some s

/-- A message of the symbol that is quoted. -/
def turn (loc : UInt16) (type : UInt8) (t : Clock) : Option (TradeLoop E L P) :=
  (((s.hear loc type).market opt loc type).decideQuote opt loc t).bind drain

/-- One turn of the loop, and whether the loop ends with it. -/
def step (msg : List UInt8) (t : Clock) : Checked (Option (TradeLoop E L P × Bool)) := do
  let r ← ZeroCopyDecoder.decode (onCall .map) s.decoder msg (some s.book) 0
  match r.handler with
  | none => return none
  | some book =>
    let s := { s with
      book := book, decoder := r.decoder, run := { s.run with messages := s.run.messages + 1 } }
    let enough := decide (opt.limit ≠ 0 ∧ opt.limit ≤ s.run.messages)
    match s.locate with
    -- until the symbol is known every message may be the one that names it
    | none => return some (s.resolve opt, enough)
    | some locate =>
      -- a message without a header is skipped before the limit is looked at
      if msg.length < kHeaderLen then return some (s, false)
      else do
        let loc ← Itch.locate msg
        if loc ≠ locate then return some (s, enough)
        else do
          let type ← msgType msg
          return (s.turn opt loc type t).map fun s => (s, enough)

end Turn

/-- The loop over messages, each with the clock of its turn. -/
def session (opt : TradeOptions) :
    TradeLoop E L P → List (List UInt8 × Clock) → Checked (Option (TradeLoop E L P))
  | s, [] => return some s
  | s, (msg, t) :: rest => do
    match ← s.step opt msg t with
    | none => return none
    | some (s, enough) => if enough then return some s else session opt s rest

end TradeLoop

end Tickerplant
