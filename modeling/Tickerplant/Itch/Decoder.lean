import Tickerplant.Itch.Wire

/-!
# The two ITCH decoders (`include/tick/itch_decoder.hpp`)

`ZeroCopyDecoder` reads the fields where they are in the receive buffer and calls the handler.
`CopyingDecoder` copies the message into a staging buffer, reads every field of its type into a
`NormalizedEvent`, and makes the handler's call from that. Both run in `Checked`: a read outside
the buffer, or a copy that does not fit the staging buffer, is a fault.

A handler is any state `H` with what a call does to it, so that what is said of both decoders is
said of every handler. A call has all the arguments the source passes, those of no use to a book
included, since a handler may use them.

The two switches are written out apart, with their cases in the order of the source, which is not
the same in the two. The copying one reads more: a tracking number, tickers, a market category. It
must not fault on those either.

`consumed` is an out-parameter that is written only when a message was decoded, so it is passed in
and handed back.
-/

set_option autoImplicit false

namespace Tickerplant
namespace Itch

open Lib

/-! ## What a decoder calls and answers -/

/-- The calls of the `ItchHandler` concept, with all their arguments. -/
inductive HandlerCall where
  | onSystemEvent (ts : UInt64) (code : UInt8)
  | onStockDirectory (locate : UInt16) (ts : UInt64) (stock : List UInt8) (roundLot : UInt32)
  | onTradingAction (locate : UInt16) (ts : UInt64) (state : UInt8)
  | onAdd (locate : UInt16) (ts ref : UInt64) (side : UInt8) (shares price : UInt32)
      (hasMpid : Bool)
  | onExecute (locate : UInt16) (ts ref : UInt64) (shares : UInt32) (matchNo : UInt64)
  | onExecutePrice (locate : UInt16) (ts ref : UInt64) (shares : UInt32) (matchNo : UInt64)
      (printable : Bool) (price : UInt32)
  | onCancel (locate : UInt16) (ts ref : UInt64) (shares : UInt32)
  | onDelete (locate : UInt16) (ts ref : UInt64)
  | onReplace (locate : UInt16) (ts oldRef newRef : UInt64) (shares price : UInt32)
  | onTrade (locate : UInt16) (ts ref : UInt64) (side : UInt8) (shares price : UInt32)
      (matchNo : UInt64)
  | onCrossTrade (locate : UInt16) (ts : UInt64) (shares price : UInt32) (matchNo : UInt64)
      (crossType : UInt8)
  | onBrokenTrade (locate : UInt16) (ts matchNo : UInt64)
  | onOther (type : UInt8) (locate : UInt16) (ts : UInt64)
  deriving DecidableEq, Repr

/-- `DecodeResult`: decoded, not all there, or of no known type. -/
inductive DecodeResult where
  | ok
  | truncated
  | unknownType
  deriving DecidableEq, Repr

/-- What a decoder counts, at 64 bits and by type. -/
structure DecodeStats where
  messages : UInt64 := 0
  bytes : UInt64 := 0
  unknown : UInt64 := 0
  truncated : UInt64 := 0
  byType : UInt8 → UInt64 := fun _ => 0

/-- The counters after a message. -/
def DecodeStats.count (s : DecodeStats) (type : UInt8) (len : ℕ) : DecodeStats :=
  { s with
    messages := s.messages + 1
    bytes := s.bytes + UInt64.ofNat len
    byType := Function.update s.byType type (s.byType type + 1) }

/-- What `decode` leaves behind: its answer, the decoder, the handler, and `*consumed`. -/
structure Decoded (D H : Type) where
  result : DecodeResult
  decoder : D
  handler : H
  consumed : ℕ

/-! ## Zero-copy -/

/-- Counters are all it has. -/
structure ZeroCopyDecoder where
  stats : DecodeStats := {}

namespace ZeroCopyDecoder

/-- The switch of `decode`: the call that a message of the type makes. -/
def readCall (p : List UInt8) (type : UInt8) (loc : UInt16) (ts : UInt64) :
    Checked HandlerCall :=
  match Char.ofUInt8 type with
  | 'A' => do
    let ref ← beLoad UInt64 p Off.kAddRef
    let side ← charAt p Off.kAddSide
    let shares ← beLoad UInt32 p Off.kAddShares
    let price ← beLoad UInt32 p Off.kAddPrice
    return .onAdd loc ts ref side shares price false
  | 'D' => do
    let ref ← beLoad UInt64 p Off.kDeleteRef
    return .onDelete loc ts ref
  | 'U' => do
    let oldRef ← beLoad UInt64 p Off.kReplaceOldRef
    let newRef ← beLoad UInt64 p Off.kReplaceNewRef
    let shares ← beLoad UInt32 p Off.kReplaceShares
    let price ← beLoad UInt32 p Off.kReplacePrice
    return .onReplace loc ts oldRef newRef shares price
  | 'E' => do
    let ref ← beLoad UInt64 p Off.kExecRef
    let shares ← beLoad UInt32 p Off.kExecShares
    let matchNo ← beLoad UInt64 p Off.kExecMatch
    return .onExecute loc ts ref shares matchNo
  | 'X' => do
    let ref ← beLoad UInt64 p Off.kCancelRef
    let shares ← beLoad UInt32 p Off.kCancelShares
    return .onCancel loc ts ref shares
  | 'C' => do
    let ref ← beLoad UInt64 p Off.kExecPxRef
    let shares ← beLoad UInt32 p Off.kExecPxShares
    let matchNo ← beLoad UInt64 p Off.kExecPxMatch
    let printable ← charAt p Off.kExecPxPrintable
    let price ← beLoad UInt32 p Off.kExecPxPrice
    return .onExecutePrice loc ts ref shares matchNo (printable == 'Y'.toUInt8) price
  | 'F' => do
    let ref ← beLoad UInt64 p Off.kAddRef
    let side ← charAt p Off.kAddSide
    let shares ← beLoad UInt32 p Off.kAddShares
    let price ← beLoad UInt32 p Off.kAddPrice
    return .onAdd loc ts ref side shares price true
  | 'P' => do
    let ref ← beLoad UInt64 p Off.kTradeRef
    let side ← charAt p Off.kTradeSide
    let shares ← beLoad UInt32 p Off.kTradeShares
    let price ← beLoad UInt32 p Off.kTradePrice
    let matchNo ← beLoad UInt64 p Off.kTradeMatch
    return .onTrade loc ts ref side shares price matchNo
  | 'Q' => do
    let shares ← beLoad UInt64 p Off.kCrossShares
    let price ← beLoad UInt32 p Off.kCrossPrice
    let matchNo ← beLoad UInt64 p Off.kCrossMatch
    let crossType ← charAt p Off.kCrossType
    return .onCrossTrade loc ts shares.toUInt32 price matchNo crossType
  | 'B' => do
    let matchNo ← beLoad UInt64 p Off.kBrokenMatch
    return .onBrokenTrade loc ts matchNo
  | 'R' => do
    let ticker ← stock p Off.kDirStock
    let roundLot ← beLoad UInt32 p Off.kDirRoundLot
    return .onStockDirectory loc ts ticker roundLot
  | 'H' => do
    let state ← charAt p Off.kActionState
    return .onTradingAction loc ts state
  | 'S' => do
    let code ← charAt p Off.kEventCode
    return .onSystemEvent ts code
  | _ => return .onOther type loc ts

section Decode

variable {H : Type} (on : H → HandlerCall → H)

/-- `decode`. The three ways to answer without a call are checked in this order: an empty buffer, a
type that is not known, a buffer too short for its type. -/
def decode (d : ZeroCopyDecoder) (msg : List UInt8) (handler : H) (consumed : ℕ) :
    Checked (Decoded ZeroCopyDecoder H) :=
  if msg.isEmpty then
    return { result := .truncated, handler := handler, consumed := consumed
             decoder := { stats := { d.stats with truncated := d.stats.truncated + 1 } } }
  else do
    let type ← msgType msg
    let len := messageLength type
    if len = 0 then
      return { result := .unknownType, handler := handler, consumed := consumed
               decoder := { stats := { d.stats with unknown := d.stats.unknown + 1 } } }
    else if msg.length < len then
      return { result := .truncated, handler := handler, consumed := consumed
               decoder := { stats := { d.stats with truncated := d.stats.truncated + 1 } } }
    else
      let loc ← locate msg
      let ts ← timestamp msg
      let call ← readCall msg type loc ts
      return { result := .ok, handler := on handler call, consumed := len
               decoder := { stats := d.stats.count type len } }

end Decode

end ZeroCopyDecoder

/-! ## Copying -/

/-- The fields of every type side by side. What a message does not have stays zero; a type that is
passed on without being read has the header only. -/
structure NormalizedEvent where
  timestamp : UInt64 := 0
  /-- The original reference, for a replace. -/
  ref : UInt64 := 0
  /-- The new one. -/
  ref2 : UInt64 := 0
  matchNo : UInt64 := 0
  shares : UInt32 := 0
  price : UInt32 := 0
  roundLot : UInt32 := 0
  locate : UInt16 := 0
  tracking : UInt16 := 0
  type : UInt8 := 0
  side : UInt8 := 0
  /-- A character with no field of its own: event, state, category or kind of cross. -/
  aux : UInt8 := 0
  stockLen : ℕ := 0
  hasMpid : Bool := false
  printable : Bool := false
  stock : List UInt8 := List.replicate kStockLen 0
  deriving DecidableEq, Repr

/-- The ticker without its padding. -/
def NormalizedEvent.symbol (e : NormalizedEvent) : List UInt8 := e.stock.take e.stockLen

/-- The staging array. -/
structure Staging where
  bytes : List UInt8
  /-- It is as long as the longest message, which is all a copy needs. -/
  length_bytes : bytes.length = kMaxMessageLen

/-- `std::memcpy` to the front of the staging array. -/
def Staging.copy (s : Staging) (bytes : List UInt8) : Checked Staging :=
  if h : bytes.length ≤ kMaxMessageLen then
    .ok { bytes := bytes ++ s.bytes.drop bytes.length
          length_bytes := by rw [List.length_append, List.length_drop, s.length_bytes]; omega }
  else .error .outOfRange

/-- The staging buffer and the event are members and outlive a call. What an earlier message left
in them must not show. -/
structure CopyingDecoder where
  staging : Staging :=
    { bytes := List.replicate kMaxMessageLen 0, length_bytes := List.length_replicate }
  event : NormalizedEvent := {}
  stats : DecodeStats := {}

namespace CopyingDecoder

/-- The ticker and its length without blanks. -/
def copyStock (p : List UInt8) (off : ℕ) (e : NormalizedEvent) : Checked NormalizedEvent := do
  let s ← slice p off kStockLen
  return { e with stock := s, stockLen := trimLen s kStockLen }

/-- The switch of `normalize`, which reads what the type has. -/
def normalize (p : List UInt8) (type : UInt8) : Checked NormalizedEvent := do
  let loc ← Itch.locate p
  let trk ← Itch.tracking p
  let ts ← Itch.timestamp p
  -- a fresh event: nothing of the last one is left in it
  let e : NormalizedEvent := { type := type, locate := loc, tracking := trk, timestamp := ts }
  match Char.ofUInt8 type with
  | 'A' | 'F' => do
    let ref ← beLoad UInt64 p Off.kAddRef
    let side ← charAt p Off.kAddSide
    let shares ← beLoad UInt32 p Off.kAddShares
    let price ← beLoad UInt32 p Off.kAddPrice
    copyStock p Off.kAddStock { e with
      ref := ref, side := side, shares := shares, price := price
      hasMpid := type == 'F'.toUInt8 }
  | 'E' => do
    let ref ← beLoad UInt64 p Off.kExecRef
    let shares ← beLoad UInt32 p Off.kExecShares
    let matchNo ← beLoad UInt64 p Off.kExecMatch
    return { e with ref := ref, shares := shares, matchNo := matchNo }
  | 'C' => do
    let ref ← beLoad UInt64 p Off.kExecPxRef
    let shares ← beLoad UInt32 p Off.kExecPxShares
    let matchNo ← beLoad UInt64 p Off.kExecPxMatch
    let printable ← charAt p Off.kExecPxPrintable
    let price ← beLoad UInt32 p Off.kExecPxPrice
    return { e with
      ref := ref, shares := shares, matchNo := matchNo
      printable := printable == 'Y'.toUInt8, price := price }
  | 'X' => do
    let ref ← beLoad UInt64 p Off.kCancelRef
    let shares ← beLoad UInt32 p Off.kCancelShares
    return { e with ref := ref, shares := shares }
  | 'D' => do
    let ref ← beLoad UInt64 p Off.kDeleteRef
    return { e with ref := ref }
  | 'U' => do
    let ref ← beLoad UInt64 p Off.kReplaceOldRef
    let ref2 ← beLoad UInt64 p Off.kReplaceNewRef
    let shares ← beLoad UInt32 p Off.kReplaceShares
    let price ← beLoad UInt32 p Off.kReplacePrice
    return { e with ref := ref, ref2 := ref2, shares := shares, price := price }
  | 'P' => do
    let ref ← beLoad UInt64 p Off.kTradeRef
    let side ← charAt p Off.kTradeSide
    let shares ← beLoad UInt32 p Off.kTradeShares
    let price ← beLoad UInt32 p Off.kTradePrice
    let matchNo ← beLoad UInt64 p Off.kTradeMatch
    copyStock p Off.kTradeStock { e with
      ref := ref, side := side, shares := shares, price := price, matchNo := matchNo }
  | 'Q' => do
    let shares ← beLoad UInt64 p Off.kCrossShares
    let price ← beLoad UInt32 p Off.kCrossPrice
    let matchNo ← beLoad UInt64 p Off.kCrossMatch
    let aux ← charAt p Off.kCrossType
    copyStock p Off.kCrossStock { e with
      shares := shares.toUInt32, price := price, matchNo := matchNo, aux := aux }
  | 'B' => do
    let matchNo ← beLoad UInt64 p Off.kBrokenMatch
    return { e with matchNo := matchNo }
  | 'R' => do
    let roundLot ← beLoad UInt32 p Off.kDirRoundLot
    let aux ← charAt p Off.kDirMarketCat
    copyStock p Off.kDirStock { e with roundLot := roundLot, aux := aux }
  | 'H' => do
    let aux ← charAt p Off.kActionState
    copyStock p Off.kActionStock { e with aux := aux }
  | 'S' => do
    let aux ← charAt p Off.kEventCode
    return { e with aux := aux }
  | _ => return e

/-- The call an event makes. -/
def dispatch (e : NormalizedEvent) : HandlerCall :=
  match Char.ofUInt8 e.type with
  | 'A' | 'F' => .onAdd e.locate e.timestamp e.ref e.side e.shares e.price e.hasMpid
  | 'E' => .onExecute e.locate e.timestamp e.ref e.shares e.matchNo
  | 'C' => .onExecutePrice e.locate e.timestamp e.ref e.shares e.matchNo e.printable e.price
  | 'X' => .onCancel e.locate e.timestamp e.ref e.shares
  | 'D' => .onDelete e.locate e.timestamp e.ref
  | 'U' => .onReplace e.locate e.timestamp e.ref e.ref2 e.shares e.price
  | 'P' => .onTrade e.locate e.timestamp e.ref e.side e.shares e.price e.matchNo
  | 'Q' => .onCrossTrade e.locate e.timestamp e.shares e.price e.matchNo e.aux
  | 'B' => .onBrokenTrade e.locate e.timestamp e.matchNo
  | 'R' => .onStockDirectory e.locate e.timestamp e.symbol e.roundLot
  | 'H' => .onTradingAction e.locate e.timestamp e.aux
  | 'S' => .onSystemEvent e.timestamp e.aux
  | _ => .onOther e.type e.locate e.timestamp

section Decode

variable {H : Type} (on : H → HandlerCall → H)

/-- `decode`: the same checks, then the copy, the event and the call. -/
def decode (d : CopyingDecoder) (msg : List UInt8) (handler : H) (consumed : ℕ) :
    Checked (Decoded CopyingDecoder H) :=
  if msg.isEmpty then
    return { result := .truncated, handler := handler, consumed := consumed
             decoder := { d with stats := { d.stats with truncated := d.stats.truncated + 1 } } }
  else do
    let type ← msgType msg
    let len := messageLength type
    if len = 0 then
      return { result := .unknownType, handler := handler, consumed := consumed
               decoder := { d with stats := { d.stats with unknown := d.stats.unknown + 1 } } }
    else if msg.length < len then
      return { result := .truncated, handler := handler, consumed := consumed
               decoder := { d with stats := { d.stats with truncated := d.stats.truncated + 1 } } }
    else
      let bytes ← slice msg 0 len
      let staging ← d.staging.copy bytes
      let e ← normalize staging.bytes type
      return { result := .ok, handler := on handler (dispatch e), consumed := len
               decoder := { staging := staging, event := e, stats := d.stats.count type len } }

end Decode

end CopyingDecoder

end Itch
end Tickerplant
