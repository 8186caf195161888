import Tickerplant.Ouch.Wire

/-!
# Encoding and decoding OUCH (`include/tick/ouch.hpp`)

An encoder writes its message into a caller's buffer and returns its length, or returns zero and
writes nothing when the buffer is too short. The inbound decoders give the order back; the outbound
`OuchDecoder` calls a handler. Both run in `Checked`.

So there are two ways not to succeed. A buffer that is too short is an answer the code has thought
of, and the caller is told. A read or a store outside a buffer is one it has not, and is a fault of
the model; that there is none is proved with the round trip.

The order of the stores is the source's. The fields Accepted and Replaced share are written and
read by one function each, so that the two cannot drift apart. The last byte of both, the weight
against the market, is not among them, since in Replaced the old token stands in its place.
-/

set_option autoImplicit false

namespace Tickerplant
namespace Ouch

open Lib

/-! ## Inbound -/

/-- `encode` of an order: the whole message, or nothing into a buffer too short for it. -/
def encodeEnterOrder (buf : List UInt8) (o : EnterOrder) : Checked (ℕ × List UInt8) :=
  if buf.length < In.Enter.kLen then return (0, buf)
  else do
    let p ← putChar buf In.Enter.kType 'O'.toUInt8
    let p ← storeAlpha p In.Enter.kToken o.token
    let p ← putChar p In.Enter.kSide o.side
    let p ← beStore p In.Enter.kShares o.shares
    let p ← storeAlpha p In.Enter.kStock o.stock
    let p ← beStore p In.Enter.kPrice o.price
    let p ← beStore p In.Enter.kTimeInForce o.timeInForce
    let p ← storeAlpha p In.Enter.kFirm o.firm
    let p ← putChar p In.Enter.kDisplay o.display
    let p ← putChar p In.Enter.kCapacity o.capacity
    let p ← putChar p In.Enter.kIso o.iso
    let p ← beStore p In.Enter.kMinQuantity o.minQuantity
    let p ← putChar p In.Enter.kCrossType o.crossType
    let p ← putChar p In.Enter.kCustomerType o.customerType
    return (In.Enter.kLen, p)

/-- `encode` of a replace, which names the order it replaces and the token it goes on under. -/
def encodeReplaceOrder (buf : List UInt8) (o : ReplaceOrder) : Checked (ℕ × List UInt8) :=
  if buf.length < In.Replace.kLen then return (0, buf)
  else do
    let p ← putChar buf In.Replace.kType 'U'.toUInt8
    let p ← storeAlpha p In.Replace.kExistingToken o.existingToken
    let p ← storeAlpha p In.Replace.kReplacementToken o.replacementToken
    let p ← beStore p In.Replace.kShares o.shares
    let p ← beStore p In.Replace.kPrice o.price
    let p ← beStore p In.Replace.kTimeInForce o.timeInForce
    let p ← putChar p In.Replace.kDisplay o.display
    let p ← putChar p In.Replace.kIso o.iso
    let p ← beStore p In.Replace.kMinQuantity o.minQuantity
    return (In.Replace.kLen, p)

/-- `encode` of a cancel. -/
def encodeCancelOrder (buf : List UInt8) (o : CancelOrder) : Checked (ℕ × List UInt8) :=
  if buf.length < In.Cancel.kLen then return (0, buf)
  else do
    let p ← putChar buf In.Cancel.kType 'X'.toUInt8
    let p ← storeAlpha p In.Cancel.kToken o.token
    let p ← beStore p In.Cancel.kShares o.intendedShares
    return (In.Cancel.kLen, p)

/-- `decode_enter_order`: the length first, then the type, and only then a field. -/
def decodeEnterOrder (buf : List UInt8) : Checked (Option EnterOrder) :=
  if buf.length < In.Enter.kLen then return none
  else do
    let type ← Field.msgType buf
    if type ≠ 'O'.toUInt8 then return none
    else
      let token ← Field.token buf In.Enter.kToken
      let side ← Field.charAt buf In.Enter.kSide
      let shares ← beLoad UInt32 buf In.Enter.kShares
      let stock ← Field.stock buf In.Enter.kStock
      let price ← beLoad UInt32 buf In.Enter.kPrice
      let timeInForce ← beLoad UInt32 buf In.Enter.kTimeInForce
      let firm ← Field.firm buf In.Enter.kFirm
      let display ← Field.charAt buf In.Enter.kDisplay
      let capacity ← Field.charAt buf In.Enter.kCapacity
      let iso ← Field.charAt buf In.Enter.kIso
      let minQuantity ← beLoad UInt32 buf In.Enter.kMinQuantity
      let crossType ← Field.charAt buf In.Enter.kCrossType
      let customerType ← Field.charAt buf In.Enter.kCustomerType
      return some {
        token := token, side := side, shares := shares, stock := stock, price := price
        timeInForce := timeInForce, firm := firm, display := display, capacity := capacity
        iso := iso, minQuantity := minQuantity, crossType := crossType
        customerType := customerType }

/-- `decode_replace_order`. -/
def decodeReplaceOrder (buf : List UInt8) : Checked (Option ReplaceOrder) :=
  if buf.length < In.Replace.kLen then return none
  else do
    let type ← Field.msgType buf
    if type ≠ 'U'.toUInt8 then return none
    else
      let existingToken ← Field.token buf In.Replace.kExistingToken
      let replacementToken ← Field.token buf In.Replace.kReplacementToken
      let shares ← beLoad UInt32 buf In.Replace.kShares
      let price ← beLoad UInt32 buf In.Replace.kPrice
      let timeInForce ← beLoad UInt32 buf In.Replace.kTimeInForce
      let display ← Field.charAt buf In.Replace.kDisplay
      let iso ← Field.charAt buf In.Replace.kIso
      let minQuantity ← beLoad UInt32 buf In.Replace.kMinQuantity
      return some {
        existingToken := existingToken, replacementToken := replacementToken, shares := shares
        price := price, timeInForce := timeInForce, display := display, iso := iso
        minQuantity := minQuantity }

/-- `decode_cancel_order`. -/
def decodeCancelOrder (buf : List UInt8) : Checked (Option CancelOrder) :=
  if buf.length < In.Cancel.kLen then return none
  else do
    let type ← Field.msgType buf
    if type ≠ 'X'.toUInt8 then return none
    else
      let token ← Field.token buf In.Cancel.kToken
      let intendedShares ← beLoad UInt32 buf In.Cancel.kShares
      return some { token := token, intendedShares := intendedShares }

/-! ## Outbound -/

/-- `encode_system_event`. -/
def encodeSystemEvent (buf : List UInt8) (ts : UInt64) (code : UInt8) :
    Checked (ℕ × List UInt8) :=
  if buf.length < Out.Sysevt.kLen then return (0, buf)
  else do
    let p ← putChar buf Out.Sysevt.kType 'S'.toUInt8
    let p ← beStore p Out.Sysevt.kTimestamp ts
    let p ← putChar p Out.Sysevt.kEventCode code
    return (Out.Sysevt.kLen, p)

/-- What Accepted and Replaced have in common, offsets one through sixty four. -/
def writeCommon (p : List UInt8) (a : AcceptedMsg) : Checked (List UInt8) := do
  let p ← beStore p Out.Accepted.kTimestamp a.timestamp
  let p ← storeAlpha p Out.Accepted.kToken a.token
  let p ← putChar p Out.Accepted.kSide a.side
  let p ← beStore p Out.Accepted.kShares a.shares
  let p ← storeAlpha p Out.Accepted.kStock a.stock
  let p ← beStore p Out.Accepted.kPrice a.price
  let p ← beStore p Out.Accepted.kTimeInForce a.timeInForce
  let p ← storeAlpha p Out.Accepted.kFirm a.firm
  let p ← putChar p Out.Accepted.kDisplay a.display
  let p ← beStore p Out.Accepted.kReference a.reference
  let p ← putChar p Out.Accepted.kCapacity a.capacity
  let p ← putChar p Out.Accepted.kIso a.iso
  let p ← beStore p Out.Accepted.kMinQuantity a.minQuantity
  let p ← putChar p Out.Accepted.kCrossType a.crossType
  putChar p Out.Accepted.kOrderState a.orderState

/-- `encode_accepted`. -/
def encodeAccepted (buf : List UInt8) (a : AcceptedMsg) : Checked (ℕ × List UInt8) :=
  if buf.length < Out.Accepted.kLen then return (0, buf)
  else do
    let p ← putChar buf Out.Accepted.kType 'A'.toUInt8
    let p ← writeCommon p a
    let p ← putChar p Out.Accepted.kBboWeight a.bboWeight
    return (Out.Accepted.kLen, p)

/-- `encode_replaced`: the same fields, then the old token, then the weight. -/
def encodeReplaced (buf : List UInt8) (r : ReplacedMsg) : Checked (ℕ × List UInt8) :=
  if buf.length < Out.Replaced.kLen then return (0, buf)
  else do
    let p ← putChar buf Out.Replaced.kType 'U'.toUInt8
    let p ← writeCommon p r.common
    let p ← storeAlpha p Out.Replaced.kPreviousToken r.previousToken
    let p ← putChar p Out.Replaced.kBboWeight r.common.bboWeight
    return (Out.Replaced.kLen, p)

/-- `encode_canceled`. -/
def encodeCanceled (buf : List UInt8) (ts : UInt64) (tok : Token) (decrement : UInt32)
    (reason : UInt8) : Checked (ℕ × List UInt8) :=
  if buf.length < Out.Canceled.kLen then return (0, buf)
  else do
    let p ← putChar buf Out.Canceled.kType 'C'.toUInt8
    let p ← beStore p Out.Canceled.kTimestamp ts
    let p ← storeAlpha p Out.Canceled.kToken tok
    let p ← beStore p Out.Canceled.kDecrementShares decrement
    let p ← putChar p Out.Canceled.kReason reason
    return (Out.Canceled.kLen, p)

/-- `encode_executed`. -/
def encodeExecuted (buf : List UInt8) (ts : UInt64) (tok : Token) (shares price : UInt32)
    (liquidity : UInt8) (matchNo : UInt64) : Checked (ℕ × List UInt8) :=
  if buf.length < Out.Executed.kLen then return (0, buf)
  else do
    let p ← putChar buf Out.Executed.kType 'E'.toUInt8
    let p ← beStore p Out.Executed.kTimestamp ts
    let p ← storeAlpha p Out.Executed.kToken tok
    let p ← beStore p Out.Executed.kShares shares
    let p ← beStore p Out.Executed.kPrice price
    let p ← putChar p Out.Executed.kLiquidityFlag liquidity
    let p ← beStore p Out.Executed.kMatchNumber matchNo
    return (Out.Executed.kLen, p)

/-- `encode_rejected`. -/
def encodeRejected (buf : List UInt8) (ts : UInt64) (tok : Token) (reason : UInt8) :
    Checked (ℕ × List UInt8) :=
  if buf.length < Out.Rejected.kLen then return (0, buf)
  else do
    let p ← putChar buf Out.Rejected.kType 'J'.toUInt8
    let p ← beStore p Out.Rejected.kTimestamp ts
    let p ← storeAlpha p Out.Rejected.kToken tok
    let p ← putChar p Out.Rejected.kReason reason
    return (Out.Rejected.kLen, p)

/-! ## The outbound decoder -/

/-- The calls of the `OuchHandler` concept. -/
inductive HandlerCall where
  | onSystemEvent (ts : UInt64) (code : UInt8)
  | onAccepted (a : AcceptedMsg)
  | onReplaced (r : ReplacedMsg)
  | onCanceled (ts : UInt64) (tok : Token) (decrement : UInt32) (reason : UInt8)
  | onExecuted (ts : UInt64) (tok : Token) (shares price : UInt32) (liquidity : UInt8)
      (matchNo : UInt64)
  | onRejected (ts : UInt64) (tok : Token) (reason : UInt8)
  | onOther (type : UInt8) (ts : UInt64)
  deriving DecidableEq

/-- `DecodeResult`. It is not the one of the feed: the two streams are not the same kind of thing.
-/
inductive DecodeResult where
  | ok
  | truncated
  | unknownType
  deriving DecidableEq, Repr

/-- What a decoder counts, at 64 bits and by type. -/
structure DecodeStats where
  messages : UInt64 := 0
  bytes : UInt64 := 0
  unknown : UInt64 := 0
  truncated : UInt64 := 0
  byType : UInt8 → UInt64 := fun _ => 0

/-- The counters after a message. -/
def DecodeStats.count (s : DecodeStats) (type : UInt8) (len : ℕ) : DecodeStats :=
  { s with
    messages := s.messages + 1
    bytes := s.bytes + UInt64.ofNat len
    byType := Function.update s.byType type (s.byType type + 1) }

/-- Counters are all it has. -/
structure OuchDecoder where
  stats : DecodeStats := {}

/-- What `decode` leaves behind. -/
structure Decoded (H : Type) where
  result : DecodeResult
  decoder : OuchDecoder
  handler : H
  consumed : ℕ

namespace OuchDecoder

/-- `read_common`: the fields Accepted and Replaced share. -/
def readCommon (p : List UInt8) (ts : UInt64) (a : AcceptedMsg) : Checked AcceptedMsg := do
  let token ← Field.token p Out.Accepted.kToken
  let side ← Field.charAt p Out.Accepted.kSide
  let shares ← beLoad UInt32 p Out.Accepted.kShares
  let stock ← Field.stock p Out.Accepted.kStock
  let price ← beLoad UInt32 p Out.Accepted.kPrice
  let timeInForce ← beLoad UInt32 p Out.Accepted.kTimeInForce
  let firm ← Field.firm p Out.Accepted.kFirm
  let display ← Field.charAt p Out.Accepted.kDisplay
  let reference ← beLoad UInt64 p Out.Accepted.kReference
  let capacity ← Field.charAt p Out.Accepted.kCapacity
  let iso ← Field.charAt p Out.Accepted.kIso
  let minQuantity ← beLoad UInt32 p Out.Accepted.kMinQuantity
  let crossType ← Field.charAt p Out.Accepted.kCrossType
  let orderState ← Field.charAt p Out.Accepted.kOrderState
  return { a with
    timestamp := ts, token := token, side := side, shares := shares, stock := stock
    price := price, timeInForce := timeInForce, firm := firm, display := display
    reference := reference, capacity := capacity, iso := iso, minQuantity := minQuantity
    crossType := crossType, orderState := orderState }

/-- The switch of `decode`. -/
def readCall (p : List UInt8) (type : UInt8) (ts : UInt64) : Checked HandlerCall :=
  match Char.ofUInt8 type with
  | 'E' => do
    let tok ← Field.token p Out.Executed.kToken
    let shares ← beLoad UInt32 p Out.Executed.kShares
    let price ← beLoad UInt32 p Out.Executed.kPrice
    let liquidity ← Field.charAt p Out.Executed.kLiquidityFlag
    let matchNo ← beLoad UInt64 p Out.Executed.kMatchNumber
    return .onExecuted ts tok shares price liquidity matchNo
  | 'C' => do
    let tok ← Field.token p Out.Canceled.kToken
    let decrement ← beLoad UInt32 p Out.Canceled.kDecrementShares
    let reason ← Field.charAt p Out.Canceled.kReason
    return .onCanceled ts tok decrement reason
  | 'A' => do
    let a ← readCommon p ts {}
    let bboWeight ← Field.charAt p Out.Accepted.kBboWeight
    return .onAccepted { a with bboWeight := bboWeight }
  | 'U' => do
    let common ← readCommon p ts {}
    let previousToken ← Field.token p Out.Replaced.kPreviousToken
    let bboWeight ← Field.charAt p Out.Replaced.kBboWeight
    return .onReplaced {
      common := { common with bboWeight := bboWeight }, previousToken := previousToken }
  | 'J' => do
    let tok ← Field.token p Out.Rejected.kToken
    let reason ← Field.charAt p Out.Rejected.kReason
    return .onRejected ts tok reason
  | 'S' => do
    let code ← Field.charAt p Out.Sysevt.kEventCode
    return .onSystemEvent ts code
  -- a type with a length and no meaning here: it is passed on and skipped
  | _ => return .onOther type ts

/-- `decode`: an empty buffer, a type that is not known and a buffer too short are counted, in this
order, before anything behind the type is read. -/
def decode {H : Type} (on : H → HandlerCall → H) (d : OuchDecoder) (msg : List UInt8)
    (handler : H) (consumed : ℕ) : Checked (Decoded H) :=
  if msg.isEmpty then
    return { result := .truncated, handler := handler, consumed := consumed
             decoder := { stats := { d.stats with truncated := d.stats.truncated + 1 } } }
  else do
    let type ← Field.msgType msg
    let len := Out.messageLength type
    if len = 0 then
      return { result := .unknownType, handler := handler, consumed := consumed
               decoder := { stats := { d.stats with unknown := d.stats.unknown + 1 } } }
    else if msg.length < len then
      return { result := .truncated, handler := handler, consumed := consumed
               decoder := { stats := { d.stats with truncated := d.stats.truncated + 1 } } }
    else
      let ts ← Field.timestamp msg
      let call ← readCall msg type ts
      return { result := .ok, handler := on handler call, consumed := len
               decoder := { stats := d.stats.count type len } }

end OuchDecoder

end Ouch
end Tickerplant
