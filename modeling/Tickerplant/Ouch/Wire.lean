import Tickerplant.Lib.Record

/-!
# OUCH 4.2 on the wire (`include/tick/ouch.hpp`)

Offsets, lengths and message bodies. The type byte is unique within a direction only: a `U` is a
replace on the way out and a replacement on the way back. So there are two tables of lengths in the
source, and the one the decoder reads is `Out.messageLength`, from the exchange to the participant.

Two things are not as in ITCH. There is no common header, and a message to the exchange has no time
at all, while one from it has eight bytes of it behind the type. And text is stored as it came,
padding included: a `Token` is fourteen characters and not the text before the blanks, as the whole
of it goes on the wire and is compared.

`Alpha n` of the library carries its length, so that a token of another width cannot be built.
Lengths of messages that the decoder knows and does not read are in the table, to be skipped by.
-/

set_option autoImplicit false

namespace Tickerplant
namespace Ouch

open Lib

/-- The width of an Order Token. -/
@[simp] abbrev kTokenLen : ℕ := 14
/-- The width of a ticker. -/
@[simp] abbrev kStockLen : ℕ := 8
/-- The width of a firm. -/
@[simp] abbrev kFirmLen : ℕ := 4

/-- The Order Token, with its padding. -/
abbrev Token := Alpha kTokenLen

/-- `kTifImmediateOrCancel`. -/
def kTifImmediateOrCancel : UInt32 := 0

/-! ## Participant to exchange -/

namespace In

namespace Enter

/-- `O`. -/
@[simp] def kType : ℕ := 0
/-- The token the participant chose, 14 bytes. -/
@[simp] def kToken : ℕ := 1
/-- Buy or sell. -/
@[simp] def kSide : ℕ := 15
/-- Shares, 4 bytes. -/
@[simp] def kShares : ℕ := 16
/-- Ticker, 8 bytes. -/
@[simp] def kStock : ℕ := 20
/-- Price in ten-thousandths, 4 bytes. -/
@[simp] def kPrice : ℕ := 28
/-- Seconds to live, 4 bytes. -/
@[simp] def kTimeInForce : ℕ := 32
/-- Firm, 4 bytes. -/
@[simp] def kFirm : ℕ := 36
/-- How it is shown. -/
@[simp] def kDisplay : ℕ := 40
/-- For whose account. -/
@[simp] def kCapacity : ℕ := 41
/-- Is it an intermarket sweep. -/
@[simp] def kIso : ℕ := 42
/-- The least that may execute, 4 bytes. -/
@[simp] def kMinQuantity : ℕ := 43
/-- Which cross it is for. -/
@[simp] def kCrossType : ℕ := 47
/-- Whose order it is. -/
@[simp] def kCustomerType : ℕ := 48
/-- Forty nine bytes. -/
@[simp] def kLen : ℕ := 49

end Enter

namespace Replace

/-- `U`. -/
@[simp] def kType : ℕ := 0
/-- The order that goes, 14 bytes. -/
@[simp] def kExistingToken : ℕ := 1
/-- The token of the one that comes, 14 bytes. -/
@[simp] def kReplacementToken : ℕ := 15
/-- Shares, 4 bytes. -/
@[simp] def kShares : ℕ := 29
/-- Price, 4 bytes. -/
@[simp] def kPrice : ℕ := 33
/-- Seconds to live, 4 bytes. -/
@[simp] def kTimeInForce : ℕ := 37
/-- How it is shown. -/
@[simp] def kDisplay : ℕ := 41
/-- Is it an intermarket sweep. -/
@[simp] def kIso : ℕ := 42
/-- The least that may execute, 4 bytes. -/
@[simp] def kMinQuantity : ℕ := 43
/-- Forty seven bytes. There is no ticker: an order stays in its symbol. -/
@[simp] def kLen : ℕ := 47

end Replace

namespace Cancel

/-- `X`. -/
@[simp] def kType : ℕ := 0
/-- The order, 14 bytes. -/
@[simp] def kToken : ℕ := 1
/-- The size it is to have, 4 bytes. Not what is taken off. -/
@[simp] def kShares : ℕ := 15
/-- Nineteen bytes. -/
@[simp] def kLen : ℕ := 19

end Cancel

end In

/-! ## Exchange to participant -/

namespace Out

namespace Sysevt

/-- `S`. -/
@[simp] def kType : ℕ := 0
/-- Nanoseconds since midnight, 8 bytes. -/
@[simp] def kTimestamp : ℕ := 1
/-- Start or end of the day. -/
@[simp] def kEventCode : ℕ := 9
/-- Ten bytes. -/
@[simp] def kLen : ℕ := 10

end Sysevt

namespace Accepted

/-- `A`. -/
@[simp] def kType : ℕ := 0
/-- Nanoseconds since midnight, 8 bytes. -/
@[simp] def kTimestamp : ℕ := 1
/-- The order, 14 bytes. -/
@[simp] def kToken : ℕ := 9
/-- Buy or sell. -/
@[simp] def kSide : ℕ := 23
/-- Shares accepted, 4 bytes. -/
@[simp] def kShares : ℕ := 24
/-- Ticker, 8 bytes. -/
@[simp] def kStock : ℕ := 28
/-- Price accepted, 4 bytes. -/
@[simp] def kPrice : ℕ := 36
/-- Seconds to live, 4 bytes. -/
@[simp] def kTimeInForce : ℕ := 40
/-- Firm, 4 bytes. -/
@[simp] def kFirm : ℕ := 44
/-- How it is shown. -/
@[simp] def kDisplay : ℕ := 48
/-- The exchange's own number, 8 bytes. -/
@[simp] def kReference : ℕ := 49
/-- For whose account. -/
@[simp] def kCapacity : ℕ := 57
/-- Is it an intermarket sweep. -/
@[simp] def kIso : ℕ := 58
/-- The least that may execute, 4 bytes. -/
@[simp] def kMinQuantity : ℕ := 59
/-- Which cross it is for. -/
@[simp] def kCrossType : ℕ := 63
/-- Live, or dead on arrival. -/
@[simp] def kOrderState : ℕ := 64
/-- Where it stands to the market. -/
@[simp] def kBboWeight : ℕ := 65
/-- Sixty six bytes. -/
@[simp] def kLen : ℕ := 66

end Accepted

/-! Accepted through offset sixty four; then the token of the order that was replaced. -/

namespace Replaced

/-- `U`. -/
@[simp] def kType : ℕ := 0
/-- The order that went, 14 bytes. -/
@[simp] def kPreviousToken : ℕ := 65
/-- Where it stands to the market, pushed back by the token. -/
@[simp] def kBboWeight : ℕ := 79
/-- Eighty bytes, the longest message. -/
@[simp] def kLen : ℕ := 80

end Replaced

namespace Canceled

/-- `C`. -/
@[simp] def kType : ℕ := 0
/-- Nanoseconds since midnight, 8 bytes. -/
@[simp] def kTimestamp : ℕ := 1
/-- The order, 14 bytes. -/
@[simp] def kToken : ℕ := 9
/-- Shares taken off, 4 bytes. The rest works on. -/
@[simp] def kDecrementShares : ℕ := 23
/-- Why. -/
@[simp] def kReason : ℕ := 27
/-- Twenty eight bytes. -/
@[simp] def kLen : ℕ := 28

end Canceled

namespace Executed

/-- `E`. -/
@[simp] def kType : ℕ := 0
/-- Nanoseconds since midnight, 8 bytes. -/
@[simp] def kTimestamp : ℕ := 1
/-- The order, 14 bytes, and the only key there is. -/
@[simp] def kToken : ℕ := 9
/-- Shares executed now, 4 bytes. -/
@[simp] def kShares : ℕ := 23
/-- At this price, 4 bytes. -/
@[simp] def kPrice : ℕ := 27
/-- Added or taken. -/
@[simp] def kLiquidityFlag : ℕ := 31
/-- The match, 8 bytes. -/
@[simp] def kMatchNumber : ℕ := 32
/-- Forty bytes. -/
@[simp] def kLen : ℕ := 40

end Executed

namespace Rejected

/-- `J`. -/
@[simp] def kType : ℕ := 0
/-- Nanoseconds since midnight, 8 bytes. -/
@[simp] def kTimestamp : ℕ := 1
/-- The order, 14 bytes. Its token is burnt. -/
@[simp] def kToken : ℕ := 9
/-- Why. -/
@[simp] def kReason : ℕ := 23
/-- Twenty four bytes. -/
@[simp] def kLen : ℕ := 24

end Rejected

/-- Known and not decoded, as are the six after it: the length is there to skip them by. -/
@[simp] def kAiqCanceledLen : ℕ := 38
/-- A trade was broken. -/
@[simp] def kBrokenTradeLen : ℕ := 32
/-- An execution with a reference price. -/
@[simp] def kExecutedWithRefPriceLen : ℕ := 45
/-- A cancel is held up. -/
@[simp] def kCancelPendingLen : ℕ := 23
/-- A cancel is refused. -/
@[simp] def kCancelRejectLen : ℕ := 23
/-- The order has moved in the queue. -/
@[simp] def kPriorityUpdateLen : ℕ := 36
/-- Side or capacity has changed. -/
@[simp] def kOrderModifiedLen : ℕ := 28

/-- The length of an outbound message, or zero for a type that is not one. -/
def messageLength (type : UInt8) : ℕ :=
  match Char.ofUInt8 type with
  | 'S' => Sysevt.kLen
  | 'A' => Accepted.kLen
  | 'U' => Replaced.kLen
  | 'C' => Canceled.kLen
  | 'D' => kAiqCanceledLen
  | 'E' => Executed.kLen
  | 'B' => kBrokenTradeLen
  | 'G' => kExecutedWithRefPriceLen
  | 'J' => Rejected.kLen
  | 'P' => kCancelPendingLen
  | 'I' => kCancelRejectLen
  | 'T' => kPriorityUpdateLen
  | 'M' => kOrderModifiedLen
  | _ => 0

end Out

/-! ## Field accessors -/

namespace Field

/-- One character, `p[off]`. -/
def charAt (p : List UInt8) (off : ℕ) : Checked UInt8 := beLoad UInt8 p off
/-- `msg_type`. -/
def msgType (p : List UInt8) : Checked UInt8 := charAt p 0
/-- Eight bytes at offset one, in every message back. -/
def timestamp (p : List UInt8) : Checked UInt64 := beLoad UInt64 p 1
/-- Fourteen characters. -/
def token (p : List UInt8) (off : ℕ) : Checked Token := alphaAt kTokenLen p off
/-- Eight characters. -/
def stock (p : List UInt8) (off : ℕ) : Checked (Alpha kStockLen) := alphaAt kStockLen p off
/-- Four characters. -/
def firm (p : List UInt8) (off : ℕ) : Checked (Alpha kFirmLen) := alphaAt kFirmLen p off

end Field

/-- `p[off] = static_cast<std::byte>(c)`. -/
def putChar (p : List UInt8) (off : ℕ) (c : UInt8) : Checked (List UInt8) := beStore p off c

/-! ## Message bodies -/

/-- The fields of Accepted. A message as wide as this comes as a record; the others' fields are
arguments. -/
structure AcceptedMsg where
  timestamp : UInt64 := 0
  token : Token := alpha kTokenLen []
  /-- Assigned by the exchange. -/
  reference : UInt64 := 0
  stock : Alpha kStockLen := alpha kStockLen []
  firm : Alpha kFirmLen := alpha kFirmLen []
  shares : UInt32 := 0
  price : UInt32 := 0
  timeInForce : UInt32 := 0
  minQuantity : UInt32 := 0
  side : UInt8 := 0
  display : UInt8 := 0
  capacity : UInt8 := 0
  iso : UInt8 := 0
  crossType : UInt8 := 0
  orderState : UInt8 := 0
  bboWeight : UInt8 := 0
  deriving DecidableEq

/-- Those of Replaced: what Accepted has, and the token that this one took the place of. -/
structure ReplacedMsg where
  common : AcceptedMsg := {}
  previousToken : Token := alpha kTokenLen []
  deriving DecidableEq

/-- An order to be entered, with the defaults of an ordinary one. -/
structure EnterOrder where
  token : Token := alpha kTokenLen []
  side : UInt8 := 'B'.toUInt8
  shares : UInt32 := 0
  stock : Alpha kStockLen := alpha kStockLen []
  price : UInt32 := 0
  timeInForce : UInt32 := kTifImmediateOrCancel
  firm : Alpha kFirmLen := alpha kFirmLen []
  display : UInt8 := 'Y'.toUInt8
  capacity : UInt8 := 'P'.toUInt8
  iso : UInt8 := 'N'.toUInt8
  minQuantity : UInt32 := 0
  crossType : UInt8 := 'N'.toUInt8
  customerType : UInt8 := ' '.toUInt8
  deriving DecidableEq

/-- An order to be replaced. Neither side nor ticker can change. -/
structure ReplaceOrder where
  existingToken : Token := alpha kTokenLen []
  replacementToken : Token := alpha kTokenLen []
  shares : UInt32 := 0
  price : UInt32 := 0
  timeInForce : UInt32 := kTifImmediateOrCancel
  display : UInt8 := 'Y'.toUInt8
  iso : UInt8 := 'N'.toUInt8
  minQuantity : UInt32 := 0
  deriving DecidableEq

/-- An order to be cancelled, wholly or down to a size. -/
structure CancelOrder where
  token : Token := alpha kTokenLen []
  /-- The new intended size of the order. -/
  intendedShares : UInt32 := 0
  deriving DecidableEq

end Ouch
end Tickerplant
