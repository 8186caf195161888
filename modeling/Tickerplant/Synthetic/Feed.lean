import Tickerplant.Itch.Roundtrip

/-!
# The synthetic session (`include/tick/synthetic_feed.hpp`)

`SyntheticFeed` makes up a trading day: it draws what happens from an engine of random numbers,
keeps the orders that are live, and writes one message for each thing that happens. What it
promises of the whole day it counts as it goes (`SyntheticExpectation`), so that a consumer can be
checked against the day and not against its own output.

The functions are the source's, one for one, in its order. Three things about them:

* The engine is `rng`, any sequence of numbers, of which `drawn` have been taken. The source's is
  one sequence for each seed, and nothing here depends on which. A function that draws returns
  what it drew and the generator after it.
* A message is written into `buf`, which is reused, and the sink is the list of the spans it was
  called with (`sent`), each read off the buffer at the time of the call.
* The clock, the references and the counters have the widths of the source and wrap as they do
  there. That they do not wrap within a session is shown where it is needed, and the clock's six
  bytes on the wire are the one place where it can fail.
-/

set_option autoImplicit false

namespace Tickerplant
namespace Synthetic

open Lib Itch

/-! ## Configuration and promises -/

/-- The relative frequencies of the actions. Adds and deletes are most of the traffic. -/
structure SyntheticMix where
  add : UInt32 := 34
  addMpid : UInt32 := 4
  execute : UInt32 := 10
  executePrice : UInt32 := 3
  cancel : UInt32 := 9
  del : UInt32 := 30
  replace : UInt32 := 8
  trade : UInt32 := 2
  deriving DecidableEq, Repr

/-- What an action is drawn below. -/
def SyntheticMix.total (m : SyntheticMix) : UInt32 :=
  m.add + m.addMpid + m.execute + m.executePrice + m.cancel + m.del + m.replace + m.trade

/-- What a session is made from, with the defaults of the source. -/
structure SyntheticConfig where
  symbols : UInt32 := 50
  /-- The target for the whole session. -/
  messages : UInt64 := 100000
  mix : SyntheticMix := {}
  deriving DecidableEq, Repr

/-- What the generator promises the stream adds up to. A symbol's column is its locate less one,
since locate zero is of messages that are not about a symbol. -/
structure SyntheticExpectation where
  symbols : List (List UInt8) := []
  /-- Printable E, C, P and Q, by symbol. -/
  executedShares : List UInt64 := []
  /-- Orders still live at the end. -/
  restingBySymbol : List UInt32 := []
  byType : UInt8 → UInt64 := fun _ => 0
  messages : UInt64 := 0
  /-- Framing excluded. -/
  bodyBytes : UInt64 := 0
  /-- What a file of the session weighs. -/
  framedBytes : UInt64 := 0
  restingOrders : UInt64 := 0
  executedSharesTotal : UInt64 := 0
  /-- C with the printable flag clear. -/
  nonprintableShares : UInt64 := 0
  lastTimestamp : UInt64 := 0

/-- An order that can be drawn, as the stream has left it. -/
structure LiveOrder where
  ref : UInt64
  /-- Remaining, always a multiple of one hundred. -/
  shares : UInt32
  price : UInt32
  locate : UInt16
  side : UInt8
  deriving DecidableEq, Repr, Inhabited

/-! ## The buffer

The writers refuse a buffer that is too short, and this one has room for the longest message
(`exists_write`), so that what is written is a function of the buffer and the message. -/

/-- The buffer is never too short, and stays as long as it is. -/
theorem exists_write (buf : Staging) (m : Message) :
    ∃ r, m.write buf.bytes = .ok r ∧ r.2.length = kMaxMessageLen := by
  have hfits : messageLength m.type ≤ buf.bytes.length := by
    rw [buf.length_bytes]
    exact (messageLength_bounds (length_type m)).2
  refine ⟨_, write_spec m hfits, ?_⟩
  rw [← m.length_bytes] at hfits
  rw [fill, List.length_append, List.length_drop, Nat.add_sub_cancel' hfits, buf.length_bytes]

/-- A message written into `buf_`, which is long enough for any: its length, and the buffer. -/
def written (buf : Staging) (m : Message) : ℕ × Staging :=
  match h : m.write buf.bytes with
  | .ok r => (r.1, ⟨r.2, by
      obtain ⟨r', hr', hlen⟩ := exists_write buf m
      rw [h] at hr'
      rw [Except.ok.inj hr', hlen]⟩)
  | .error e => absurd h (by
      obtain ⟨r', hr', -⟩ := exists_write buf m
      rw [hr']
      exact nofun)

/-! ## The generator

One record holds the configuration, what has been drawn, what is promised, and the state of the
day: the prices, the live orders, the clock and the two counters. -/

/-- The generator, with the state of the day. -/
structure SyntheticFeed where
  cfg : SyntheticConfig
  rng : ℕ → UInt64
  drawn : ℕ := 0
  exp : SyntheticExpectation := {}
  /-- The price each symbol walks about. -/
  mid : List UInt32 := []
  /-- A pool to draw from: its order carries no meaning. -/
  live : List LiveOrder := []
  buf : Staging :=
    { bytes := List.replicate kMaxMessageLen 0, length_bytes := List.length_replicate }
  /-- Nanoseconds since midnight. -/
  ts : UInt64 := 0
  nextRef : UInt64 := 1
  nextMatch : UInt64 := 1
  /-- What the sink was called with. -/
  sent : List (List UInt8) := []

/-- Four in the morning. -/
def kPreMarketNs : UInt64 := 4 * 3600 * 1000000000
/-- Half past nine. -/
def kMarketOpenNs : UInt64 := 34200 * 1000000000
/-- Four in the afternoon. -/
def kMarketCloseNs : UInt64 := 57600 * 1000000000

/-- The last `k` letters of a name, in front of those already there. -/
def letters : ℕ → ℕ → List UInt8 → List UInt8
  | 0, _, name => name
  | k + 1, v, name => letters k (v / 26) (('A'.toUInt8 + UInt8.ofNat (v % 26)) :: name)

/-- What a step of the activity may do. -/
inductive Action where
  | add | addMpid | execute | executePrice | cancel | delete | replace | trade
  deriving DecidableEq, Repr

/-- Everything but an add and a trade needs an order to act on. -/
def Action.needsOrder : Action → Bool
  | .add | .addMpid | .trade => false
  | _ => true

namespace SyntheticFeed

variable (f : SyntheticFeed)

/-! ### Randomness

Plain modulo, as in the source, where the distributions of the library would not reproduce. -/

/-- The next number of the engine. -/
def next : UInt64 × SyntheticFeed := (f.rng f.drawn, { f with drawn := f.drawn + 1 })

/-- A number below `n`. Zero is not drawn below, and leaves the engine alone. -/
def below (n : UInt64) : UInt64 × SyntheticFeed :=
  if n = 0 then (0, f)
  else
    let (r, f) := f.next
    (r % n, f)

/-! ### Symbols

Names have three to five letters, by index, and opening prices spread over ten to two hundred
dollars on a grid of a penny. -/

/-- A name and an opening price. -/
def buildSymbol (i : ℕ) : SyntheticFeed :=
  let f := { f with exp := { f.exp with symbols := f.exp.symbols ++ [letters (3 + i % 3) i []] } }
  let (r, f) := f.below 1900
  { f with mid := f.mid ++ [(100000 + r * 1000).toUInt32] }

/-- All of them, with the columns of what is promised. -/
def buildSymbols : SyntheticFeed :=
  let n := f.cfg.symbols.toNat
  (List.range n).foldl buildSymbol { f with exp := { f.exp with
    executedShares := List.replicate n 0
    restingBySymbol := List.replicate n 0 } }

/-- The locate of some symbol, counted from one. -/
def pickLocate : UInt16 × SyntheticFeed :=
  let (r, f) := f.below f.cfg.symbols.toUInt64
  ((r + 1).toUInt16, f)

/-- The name a locate stands for. -/
def symbolOf (locate : UInt16) : List UInt8 := f.exp.symbols.getD (locate.toNat - 1) []

/-- A penny walk of the symbol's price. -/
def walk (locate : UInt16) : UInt32 × SyntheticFeed :=
  let m := f.mid.getD (locate.toNat - 1) 0
  let (r, f) := f.below 4
  let m := if r = 0 ∧ 20000 < m then m - 100 else m
  let m := if r = 1 ∧ m < 5000000 then m + 100 else m
  (m, { f with mid := f.mid.set (locate.toNat - 1) m })

/-! ### Emission

`emit` counts by the type it reads back from the buffer, as a decoder would, and the clock only
ever moves forward. -/

/-- Writes a message, counts it and gives it to the sink. -/
def emit (m : Message) : SyntheticFeed :=
  let (len, buf) := written f.buf m
  let type := buf.bytes.getD kOffType 0
  { f with
    buf := buf
    exp := { f.exp with
      messages := f.exp.messages + 1
      bodyBytes := f.exp.bodyBytes + UInt64.ofNat len
      framedBytes := f.exp.framedBytes + UInt64.ofNat (len + kFrameLen)
      byType := Function.update f.exp.byType type (f.exp.byType type + 1) }
    sent := f.sent ++ [buf.bytes.take len] }

/-- The clock goes on by less than two microseconds. -/
def tickClock : UInt64 × SyntheticFeed :=
  let (r, f) := f.below 2000
  let f := { f with ts := f.ts + r }
  (f.ts, f)

/-- The clock is brought up to a time of day, if it is behind. -/
def atLeast (t : UInt64) : SyntheticFeed := if f.ts < t then { f with ts := t } else f

/-- `exp_.executed_shares[locate - 1]` and the total. -/
def countExecuted (locate : UInt16) (shares : UInt64) : SyntheticFeed :=
  { f with exp := { f.exp with
    executedShares := f.exp.executedShares.modify (locate.toNat - 1) (· + shares)
    executedSharesTotal := f.exp.executedSharesTotal + shares } }

/-- A new reference. -/
def takeRef : UInt64 × SyntheticFeed := (f.nextRef, { f with nextRef := f.nextRef + 1 })

/-- A new match number. -/
def takeMatch : UInt64 × SyntheticFeed := (f.nextMatch, { f with nextMatch := f.nextMatch + 1 })

/-- An event of the system, which is about no symbol. -/
def systemEvent (code : UInt8) : SyntheticFeed :=
  let (ts, f) := f.tickClock
  f.emit (.systemEvent 0 0 ts code)

/-- The directory entry of a symbol. -/
def stockDirectory (i : ℕ) : SyntheticFeed :=
  let stock := f.exp.symbols.getD i []
  let (ts, f) := f.tickClock
  f.emit (.stockDirectory (UInt16.ofNat (i + 1)) 0 ts { stock := stock })

/-- The symbol goes to trading. -/
def tradingAction (i : ℕ) : SyntheticFeed :=
  let stock := f.exp.symbols.getD i []
  let (ts, f) := f.tickClock
  f.emit (.tradingAction (UInt16.ofNat (i + 1)) 0 ts stock 'T'.toUInt8 [])

/-- A cross prints volume without touching the book, so it counts for the symbol and changes no
order. -/
def cross (locate : UInt16) (crossType : UInt8) : SyntheticFeed :=
  let (r, f) := f.below 500
  let shares := 100 * (1 + r)
  let price := f.mid.getD (locate.toNat - 1) 0
  let f := f.countExecuted locate shares
  let (ts, f) := f.tickClock
  let (matchNo, f) := f.takeMatch
  f.emit (.crossTrade locate 0 ts shares (f.symbolOf locate) price matchNo crossType)

/-- A loop over the symbols. -/
def forSymbols (body : SyntheticFeed → ℕ → SyntheticFeed) : SyntheticFeed :=
  (List.range f.cfg.symbols.toNat).foldl body f

/-- The day begins: the directory, the symbols going to trading, and the opening crosses. -/
def sessionOpen : SyntheticFeed :=
  let f := (f.atLeast kPreMarketNs).systemEvent 'O'.toUInt8
  let f := f.forSymbols stockDirectory
  let f := (f.atLeast kMarketOpenNs).systemEvent 'Q'.toUInt8
  let f := f.forSymbols tradingAction
  f.forSymbols fun f i => f.cross (UInt16.ofNat (i + 1)) 'O'.toUInt8

/-- It ends: the closing crosses, the close of the market, and the end of messages. -/
def sessionClose : SyntheticFeed :=
  let f := f.forSymbols fun f i => f.cross (UInt16.ofNat (i + 1)) 'C'.toUInt8
  let f := (f.atLeast kMarketCloseNs).systemEvent 'M'.toUInt8
  f.systemEvent 'C'.toUInt8

/-! ### Order activity

An execution, a cancel, a delete or a replace is only ever written for an order drawn from the live
ones. Where none is live, an add is made instead. -/

/-- An action, as likely as its weight: what is drawn is compared with each weight in turn, less
the weights before it. -/
def pickAction : Action × SyntheticFeed :=
  let m := f.cfg.mix
  let (r, f) := f.below m.total.toUInt64
  if r < m.add.toUInt64 then (.add, f)
  else
    let r := r - m.add.toUInt64
    if r < m.addMpid.toUInt64 then (.addMpid, f)
    else
      let r := r - m.addMpid.toUInt64
      if r < m.execute.toUInt64 then (.execute, f)
      else
        let r := r - m.execute.toUInt64
        if r < m.executePrice.toUInt64 then (.executePrice, f)
        else
          let r := r - m.executePrice.toUInt64
          if r < m.cancel.toUInt64 then (.cancel, f)
          else
            let r := r - m.cancel.toUInt64
            if r < m.del.toUInt64 then (.delete, f)
            else
              let r := r - m.del.toUInt64
              if r < m.replace.toUInt64 then (.replace, f) else (.trade, f)

/-- A new order, a lot at least, some pennies off the price its symbol is at. -/
def doAdd (withMpid : Bool) : SyntheticFeed :=
  let (locate, f) := f.pickLocate
  let (mid, f) := f.walk locate
  let (s, f) := f.next
  let side := if s &&& 1 ≠ 0 then 'B'.toUInt8 else 'S'.toUInt8
  let (r, f) := f.below 20
  let shares := (100 * (1 + r)).toUInt32
  let (d, f) := f.below 10
  let depth := (100 * (1 + d)).toUInt32
  let price := if side = 'B'.toUInt8 then mid - depth else mid + depth
  let (ref, f) := f.takeRef
  let (ts, f) := f.tickClock
  let f := f.emit (if withMpid then
      .addOrderMpid locate 0 ts ref side shares (f.symbolOf locate) price "NSDQ".toUTF8.toList
    else .addOrder locate 0 ts ref side shares (f.symbolOf locate) price)
  { f with live := f.live ++ [⟨ref, shares, price, locate, side⟩] }

/-- One of the live orders. -/
def pickLive : ℕ × SyntheticFeed :=
  let (i, f) := f.below (UInt64.ofNat f.live.length)
  (i.toNat, f)

/-- `live_[i] = live_.back()`, and the back is dropped. -/
def dropLive (i : ℕ) : SyntheticFeed :=
  { f with live := (f.live.set i (f.live.getLastD default)).dropLast }

/-- Some lots of a live order trade. What does not print leaves the book and is not volume. An
order that is fully executed leaves with no further message. -/
def doExecute (withPrice : Bool) : SyntheticFeed :=
  let (i, f) := f.pickLive
  let o := f.live.getD i default
  let lots := o.shares / 100
  let (r, f) := f.below lots.toUInt64
  let done := (100 * (1 + r)).toUInt32
  let (matchNo, f) := f.takeMatch
  let (printable, f) := if withPrice then
      let (r, f) := f.below 10
      (r ≠ 0, f)
    else (true, f)
  let (ts, f) := f.tickClock
  let f := f.emit (if withPrice then
      .orderExecutedPrice o.locate 0 ts o.ref done matchNo printable o.price
    else .orderExecuted o.locate 0 ts o.ref done matchNo)
  let f := if printable then f.countExecuted o.locate done.toUInt64
    else { f with exp := { f.exp with
      nonprintableShares := f.exp.nonprintableShares + done.toUInt64 } }
  let o := { o with shares := o.shares - done }
  let f := { f with live := f.live.set i o }
  if o.shares = 0 then f.dropLive i else f

/-- The order at `i` goes. -/
def doDeleteAt (i : ℕ) : SyntheticFeed :=
  let o := f.live.getD i default
  let (ts, f) := f.tickClock
  let f := f.emit (.orderDelete o.locate 0 ts o.ref)
  f.dropLive i

/-- Some lots of a live order go, and some stay. -/
def doCancel : SyntheticFeed :=
  let (i, f) := f.pickLive
  let o := f.live.getD i default
  let lots := o.shares / 100
  -- a cancel of the whole order comes across as a D
  if lots < 2 then f.doDeleteAt i
  else
    let (r, f) := f.below (lots - 1).toUInt64
    let gone := (100 * (1 + r)).toUInt32
    let (ts, f) := f.tickClock
    let f := f.emit (.orderCancel o.locate 0 ts o.ref gone)
    { f with live := f.live.set i { o with shares := o.shares - gone } }

/-- A live order goes. -/
def doDelete : SyntheticFeed :=
  let (i, f) := f.pickLive
  f.doDeleteAt i

/-- A live order goes and a new one comes, in one message. -/
def doReplace : SyntheticFeed :=
  let (i, f) := f.pickLive
  let old := f.live.getD i default
  let (mid, f) := f.walk old.locate
  let (r, f) := f.below 20
  let shares := (100 * (1 + r)).toUInt32
  let (d, f) := f.below 10
  let depth := (100 * (1 + d)).toUInt32
  let price := if old.side = 'B'.toUInt8 then mid - depth else mid + depth
  let (ref, f) := f.takeRef
  let (ts, f) := f.tickClock
  let f := f.emit (.orderReplace old.locate 0 ts old.ref ref shares price)
  let f := f.dropLive i
  { f with live := f.live ++ [⟨ref, shares, price, old.locate, old.side⟩] }

/-- A match against an order that was never shown: its reference is taken and never live. -/
def doTrade : SyntheticFeed :=
  let (locate, f) := f.pickLocate
  let (price, f) := f.walk locate
  let (r, f) := f.below 10
  let shares := (100 * (1 + r)).toUInt32
  let (ref, f) := f.takeRef
  let (ts, f) := f.tickClock
  let (matchNo, f) := f.takeMatch
  let f := f.emit (.trade locate 0 ts ref 'B'.toUInt8 shares (f.symbolOf locate) price matchNo)
  f.countExecuted locate shares.toUInt64

/-- One step of the activity. -/
def step : SyntheticFeed :=
  let (a, f) := f.pickAction
  match if a.needsOrder && f.live.isEmpty then .add else a with
  | .add => f.doAdd false
  | .addMpid => f.doAdd true
  | .execute => f.doExecute false
  | .executePrice => f.doExecute true
  | .cancel => f.doCancel
  | .delete => f.doDelete
  | .replace => f.doReplace
  | .trade => f.doTrade

/-! ### The session

The target counts the whole session, preamble included, and the activity is what is left of it. -/

/-- The messages of a session that are not order activity. -/
def overhead (cfg : SyntheticConfig) : UInt64 := 4 + 4 * cfg.symbols.toUInt64

/-- The steps of the activity. A target below the overhead has none. -/
def activity (cfg : SyntheticConfig) : UInt64 :=
  if overhead cfg < cfg.messages then cfg.messages - overhead cfg else 0

/-- The promises that are read off the live orders at the end. -/
def finish : SyntheticFeed :=
  { f with exp := { f.exp with
    restingOrders := UInt64.ofNat f.live.length
    restingBySymbol := f.live.foldl (fun resting o => resting.modify (o.locate.toNat - 1) (· + 1))
      f.exp.restingBySymbol
    lastTimestamp := f.ts } }

/-- The whole session. -/
def generate : SyntheticFeed :=
  let f := f.sessionOpen
  let f := (List.range (activity f.cfg).toNat).foldl (fun f _ => f.step) f
  f.sessionClose.finish

/-- The constructor. -/
def make (cfg : SyntheticConfig) (rng : ℕ → UInt64) : Except String SyntheticFeed :=
  if cfg.symbols = 0 then .error "synthetic feed needs a symbol"
  else if cfg.mix.total = 0 then .error "synthetic mix is all zeroes"
  else .ok (buildSymbols { cfg := cfg, rng := rng })

end SyntheticFeed

end Synthetic
end Tickerplant
