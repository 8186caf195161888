import Tickerplant.Itch.Wire

/-!
# Writing ITCH (`include/tick/itch_writer.hpp`)

Every writer stores its fields into a caller's buffer and returns the length of its message. The
fields of a message stand one behind another from the first byte on, so what a writer leaves in a
buffer is `fill out bytes`, and `write_spec` says which bytes those are for each message.

The writers are translated as they are, a chain of stores at named offsets. That the chain leaves
no hole and no overlap is what has to be proved: each store must begin where what is already
written ends. `Lib/Record` has this as one rule for a store behind what is done, and the proof of
`write_spec` is that rule, once a field. Between them stands `Message.body`, the fields in order
with no offset in it, which is what a message is to everyone else.

A store past the end of the buffer is a fault. The buffer must be as long as the message and may be
longer; what is behind the message stays as it was.
-/

set_option autoImplicit false

namespace Tickerplant
namespace Itch

open Lib

/-- A length in front of a message, 2 bytes. -/
def kFrameLen : ℕ := 2

/-! Offsets of fields the decoder never reads. -/

namespace Woff

/-- Issue classification. -/
@[simp] def kDirIssueClass : ℕ := 26
/-- Issue sub-type, 2 bytes. -/
@[simp] def kDirIssueSubType : ℕ := 27
/-- Live or test. -/
@[simp] def kDirAuthenticity : ℕ := 29
/-- Short sale threshold. -/
@[simp] def kDirShortSaleThreshold : ℕ := 30
/-- Is it a new issue. -/
@[simp] def kDirIpoFlag : ℕ := 31
/-- Price band tier. -/
@[simp] def kDirLuldTier : ℕ := 32
/-- Is it an exchange traded product. -/
@[simp] def kDirEtpFlag : ℕ := 33
/-- Its leverage, 4 bytes. -/
@[simp] def kDirEtpLeverage : ℕ := 34
/-- Does it move against its index. -/
@[simp] def kDirInverse : ℕ := 38

/-- A blank between state and reason. -/
@[simp] def kActionReserved : ℕ := 20

end Woff

/-! ## Field primitives -/

/-- `put_char`. -/
def putChar (out : List UInt8) (off : ℕ) (c : UInt8) : Checked (List UInt8) := beStore out off c

/-- `put_alpha`: left justified, padded with blanks, and cut at the width of its field. -/
def putAlpha (out : List UInt8) (off : ℕ) (s : List UInt8) (width : ℕ) : Checked (List UInt8) :=
  store out off (padTo width s)

/-- `put_stock`. -/
def putStock (out : List UInt8) (off : ℕ) (ticker : List UInt8) : Checked (List UInt8) :=
  putAlpha out off ticker kStockLen

/-- `be_store_u48`: the upper four of six bytes and the lower two. -/
def beStoreU48 (out : List UInt8) (off : ℕ) (v : UInt64) : Checked (List UInt8) := do
  let out ← beStore out off (v >>> 16).toUInt32
  beStore out (off + 4) (v &&& 0xFFFF).toUInt16

/-- The four fields every message starts with. -/
def writeHeader (out : List UInt8) (type : UInt8) (locate tracking : UInt16)
    (timestamp : UInt64) : Checked (List UInt8) := do
  let out ← putChar out kOffType type
  let out ← beStore out kOffLocate locate
  let out ← beStore out kOffTracking tracking
  beStoreU48 out kOffTimestamp timestamp

/-! ## Messages -/

section Writers

variable (out : List UInt8) (locate tracking : UInt16) (timestamp : UInt64)

/-- S. -/
def writeSystemEvent (eventCode : UInt8) : Checked (ℕ × List UInt8) := do
  let out ← writeHeader out 'S'.toUInt8 locate tracking timestamp
  let out ← putChar out Off.kEventCode eventCode
  return (messageLength 'S'.toUInt8, out)

/-- The fields of a stock directory message, with the defaults of an ordinary share. -/
structure StockDirectoryFields where
  stock : List UInt8 := []
  marketCategory : UInt8 := 'Q'.toUInt8
  financialStatus : UInt8 := 'N'.toUInt8
  roundLotSize : UInt32 := 100
  roundLotsOnly : UInt8 := 'N'.toUInt8
  issueClassification : UInt8 := 'C'.toUInt8
  /-- Two bytes on the wire. -/
  issueSubType : List UInt8 := ['Z'.toUInt8]
  authenticity : UInt8 := 'P'.toUInt8
  shortSaleThreshold : UInt8 := 'N'.toUInt8
  ipoFlag : UInt8 := 'N'.toUInt8
  luldTier : UInt8 := '1'.toUInt8
  etpFlag : UInt8 := 'N'.toUInt8
  etpLeverage : UInt32 := 0
  inverseIndicator : UInt8 := 'N'.toUInt8
  deriving DecidableEq, Repr

/-- R. The decoder reads five of these fields; the others are there for a reader of the file. -/
def writeStockDirectory (f : StockDirectoryFields) : Checked (ℕ × List UInt8) := do
  let out ← writeHeader out 'R'.toUInt8 locate tracking timestamp
  let out ← putStock out Off.kDirStock f.stock
  let out ← putChar out Off.kDirMarketCat f.marketCategory
  let out ← putChar out Off.kDirFinStatus f.financialStatus
  let out ← beStore out Off.kDirRoundLot f.roundLotSize
  let out ← putChar out Off.kDirRoundLotsOnly f.roundLotsOnly
  let out ← putChar out Woff.kDirIssueClass f.issueClassification
  let out ← putAlpha out Woff.kDirIssueSubType f.issueSubType 2
  let out ← putChar out Woff.kDirAuthenticity f.authenticity
  let out ← putChar out Woff.kDirShortSaleThreshold f.shortSaleThreshold
  let out ← putChar out Woff.kDirIpoFlag f.ipoFlag
  let out ← putChar out Woff.kDirLuldTier f.luldTier
  let out ← putChar out Woff.kDirEtpFlag f.etpFlag
  let out ← beStore out Woff.kDirEtpLeverage f.etpLeverage
  let out ← putChar out Woff.kDirInverse f.inverseIndicator
  return (messageLength 'R'.toUInt8, out)

/-- H, with a reserved byte between state and reason. -/
def writeTradingAction (stock : List UInt8) (tradingState : UInt8) (reason : List UInt8 := []) :
    Checked (ℕ × List UInt8) := do
  let out ← writeHeader out 'H'.toUInt8 locate tracking timestamp
  let out ← putStock out Off.kActionStock stock
  let out ← putChar out Off.kActionState tradingState
  let out ← putChar out Woff.kActionReserved ' '.toUInt8
  let out ← putAlpha out Off.kActionReason reason 4
  return (messageLength 'H'.toUInt8, out)

/-- A. -/
def writeAddOrder (orderRef : UInt64) (side : UInt8) (shares : UInt32) (stock : List UInt8)
    (price : UInt32) : Checked (ℕ × List UInt8) := do
  let out ← writeHeader out 'A'.toUInt8 locate tracking timestamp
  let out ← beStore out Off.kAddRef orderRef
  let out ← putChar out Off.kAddSide side
  let out ← beStore out Off.kAddShares shares
  let out ← putStock out Off.kAddStock stock
  let out ← beStore out Off.kAddPrice price
  return (messageLength 'A'.toUInt8, out)

/-- An add order, its type written over and the participant behind it. -/
def writeAddOrderMpid (orderRef : UInt64) (side : UInt8) (shares : UInt32) (stock : List UInt8)
    (price : UInt32) (mpid : List UInt8) : Checked (ℕ × List UInt8) := do
  let (_, out) ← writeAddOrder out locate tracking timestamp orderRef side shares stock price
  let out ← putChar out kOffType 'F'.toUInt8
  let out ← putAlpha out Off.kAddMpid mpid 4
  return (messageLength 'F'.toUInt8, out)

/-- E. There is no price: shares trade at the price of the order. -/
def writeOrderExecuted (orderRef : UInt64) (executedShares : UInt32) (matchNo : UInt64) :
    Checked (ℕ × List UInt8) := do
  let out ← writeHeader out 'E'.toUInt8 locate tracking timestamp
  let out ← beStore out Off.kExecRef orderRef
  let out ← beStore out Off.kExecShares executedShares
  let out ← beStore out Off.kExecMatch matchNo
  return (messageLength 'E'.toUInt8, out)

/-- C, with the price and whether the print counts. -/
def writeOrderExecutedPrice (orderRef : UInt64) (executedShares : UInt32) (matchNo : UInt64)
    (printable : Bool) (price : UInt32) : Checked (ℕ × List UInt8) := do
  let out ← writeHeader out 'C'.toUInt8 locate tracking timestamp
  let out ← beStore out Off.kExecPxRef orderRef
  let out ← beStore out Off.kExecPxShares executedShares
  let out ← beStore out Off.kExecPxMatch matchNo
  let out ← putChar out Off.kExecPxPrintable (if printable then 'Y'.toUInt8 else 'N'.toUInt8)
  let out ← beStore out Off.kExecPxPrice price
  return (messageLength 'C'.toUInt8, out)

/-- X. -/
def writeOrderCancel (orderRef : UInt64) (cancelledShares : UInt32) :
    Checked (ℕ × List UInt8) := do
  let out ← writeHeader out 'X'.toUInt8 locate tracking timestamp
  let out ← beStore out Off.kCancelRef orderRef
  let out ← beStore out Off.kCancelShares cancelledShares
  return (messageLength 'X'.toUInt8, out)

/-- D. -/
def writeOrderDelete (orderRef : UInt64) : Checked (ℕ × List UInt8) := do
  let out ← writeHeader out 'D'.toUInt8 locate tracking timestamp
  let out ← beStore out Off.kDeleteRef orderRef
  return (messageLength 'D'.toUInt8, out)

/-- U. Neither side nor ticker is on the wire. -/
def writeOrderReplace (originalRef newRef : UInt64) (shares price : UInt32) :
    Checked (ℕ × List UInt8) := do
  let out ← writeHeader out 'U'.toUInt8 locate tracking timestamp
  let out ← beStore out Off.kReplaceOldRef originalRef
  let out ← beStore out Off.kReplaceNewRef newRef
  let out ← beStore out Off.kReplaceShares shares
  let out ← beStore out Off.kReplacePrice price
  return (messageLength 'U'.toUInt8, out)

/-- P. -/
def writeTrade (orderRef : UInt64) (side : UInt8) (shares : UInt32) (stock : List UInt8)
    (price : UInt32) (matchNo : UInt64) : Checked (ℕ × List UInt8) := do
  let out ← writeHeader out 'P'.toUInt8 locate tracking timestamp
  let out ← beStore out Off.kTradeRef orderRef
  let out ← putChar out Off.kTradeSide side
  let out ← beStore out Off.kTradeShares shares
  let out ← putStock out Off.kTradeStock stock
  let out ← beStore out Off.kTradePrice price
  let out ← beStore out Off.kTradeMatch matchNo
  return (messageLength 'P'.toUInt8, out)

/-- Q. The shares are eight bytes wide. -/
def writeCrossTrade (shares : UInt64) (stock : List UInt8) (crossPrice : UInt32)
    (matchNo : UInt64) (crossType : UInt8) : Checked (ℕ × List UInt8) := do
  let out ← writeHeader out 'Q'.toUInt8 locate tracking timestamp
  let out ← beStore out Off.kCrossShares shares
  let out ← putStock out Off.kCrossStock stock
  let out ← beStore out Off.kCrossPrice crossPrice
  let out ← beStore out Off.kCrossMatch matchNo
  let out ← putChar out Off.kCrossType crossType
  return (messageLength 'Q'.toUInt8, out)

/-- B. -/
def writeBrokenTrade (matchNo : UInt64) : Checked (ℕ × List UInt8) := do
  let out ← writeHeader out 'B'.toUInt8 locate tracking timestamp
  let out ← beStore out Off.kBrokenMatch matchNo
  return (messageLength 'B'.toUInt8, out)

end Writers

/-! ## Framing -/

/-- `frame`: the length in front of a message that is already there. -/
def frame (out : List UInt8) (bodyLen : ℕ) : Checked (ℕ × List UInt8) := do
  let out ← beStore out 0 (UInt16.ofNat bodyLen)
  return (kFrameLen + bodyLen, out)

/-- `write_framed`: the body is written behind the two bytes of its length. -/
def writeFramed (out : List UInt8) (writeBody : List UInt8 → Checked (ℕ × List UInt8)) :
    Checked (ℕ × List UInt8) := do
  let (bodyLen, body) ← writeBody (out.drop kFrameLen)
  frame (out.take kFrameLen ++ body) bodyLen

/-! ## What is written -/

/-- A message to write: one constructor a writer, with its arguments. -/
inductive Message where
  | systemEvent (locate tracking : UInt16) (timestamp : UInt64) (eventCode : UInt8)
  | stockDirectory (locate tracking : UInt16) (timestamp : UInt64) (f : StockDirectoryFields)
  | tradingAction (locate tracking : UInt16) (timestamp : UInt64) (stock : List UInt8)
      (tradingState : UInt8) (reason : List UInt8)
  | addOrder (locate tracking : UInt16) (timestamp orderRef : UInt64) (side : UInt8)
      (shares : UInt32) (stock : List UInt8) (price : UInt32)
  | addOrderMpid (locate tracking : UInt16) (timestamp orderRef : UInt64) (side : UInt8)
      (shares : UInt32) (stock : List UInt8) (price : UInt32) (mpid : List UInt8)
  | orderExecuted (locate tracking : UInt16) (timestamp orderRef : UInt64)
      (executedShares : UInt32) (matchNo : UInt64)
  | orderExecutedPrice (locate tracking : UInt16) (timestamp orderRef : UInt64)
      (executedShares : UInt32) (matchNo : UInt64) (printable : Bool) (price : UInt32)
  | orderCancel (locate tracking : UInt16) (timestamp orderRef : UInt64)
      (cancelledShares : UInt32)
  | orderDelete (locate tracking : UInt16) (timestamp orderRef : UInt64)
  | orderReplace (locate tracking : UInt16) (timestamp originalRef newRef : UInt64)
      (shares price : UInt32)
  | trade (locate tracking : UInt16) (timestamp orderRef : UInt64) (side : UInt8)
      (shares : UInt32) (stock : List UInt8) (price : UInt32) (matchNo : UInt64)
  | crossTrade (locate tracking : UInt16) (timestamp shares : UInt64) (stock : List UInt8)
      (crossPrice : UInt32) (matchNo : UInt64) (crossType : UInt8)
  | brokenTrade (locate tracking : UInt16) (timestamp matchNo : UInt64)
  deriving DecidableEq, Repr

namespace Message

/-- The first byte of the message. -/
def type : Message → UInt8
  | .systemEvent .. => 'S'.toUInt8
  | .stockDirectory .. => 'R'.toUInt8
  | .tradingAction .. => 'H'.toUInt8
  | .addOrder .. => 'A'.toUInt8
  | .addOrderMpid .. => 'F'.toUInt8
  | .orderExecuted .. => 'E'.toUInt8
  | .orderExecutedPrice .. => 'C'.toUInt8
  | .orderCancel .. => 'X'.toUInt8
  | .orderDelete .. => 'D'.toUInt8
  | .orderReplace .. => 'U'.toUInt8
  | .trade .. => 'P'.toUInt8
  | .crossTrade .. => 'Q'.toUInt8
  | .brokenTrade .. => 'B'.toUInt8

/-- The writer of the message. -/
def write (out : List UInt8) : Message → Checked (ℕ × List UInt8)
  | .systemEvent loc trk ts code => writeSystemEvent out loc trk ts code
  | .stockDirectory loc trk ts f => writeStockDirectory out loc trk ts f
  | .tradingAction loc trk ts stock state reason =>
    writeTradingAction out loc trk ts stock state reason
  | .addOrder loc trk ts ref side shares stock price =>
    writeAddOrder out loc trk ts ref side shares stock price
  | .addOrderMpid loc trk ts ref side shares stock price mpid =>
    writeAddOrderMpid out loc trk ts ref side shares stock price mpid
  | .orderExecuted loc trk ts ref shares matchNo =>
    writeOrderExecuted out loc trk ts ref shares matchNo
  | .orderExecutedPrice loc trk ts ref shares matchNo printable price =>
    writeOrderExecutedPrice out loc trk ts ref shares matchNo printable price
  | .orderCancel loc trk ts ref shares => writeOrderCancel out loc trk ts ref shares
  | .orderDelete loc trk ts ref => writeOrderDelete out loc trk ts ref
  | .orderReplace loc trk ts oldRef newRef shares price =>
    writeOrderReplace out loc trk ts oldRef newRef shares price
  | .trade loc trk ts ref side shares stock price matchNo =>
    writeTrade out loc trk ts ref side shares stock price matchNo
  | .crossTrade loc trk ts shares stock price matchNo crossType =>
    writeCrossTrade out loc trk ts shares stock price matchNo crossType
  | .brokenTrade loc trk ts matchNo => writeBrokenTrade out loc trk ts matchNo

end Message

/-- Six bytes: what is stored of a timestamp. -/
def u48Bytes (v : UInt64) : List UInt8 :=
  bytesOf (v >>> 16).toUInt32 ++ bytesOf (v &&& 0xFFFF).toUInt16

/-- Type, locate, tracking number and timestamp. -/
def headerBytes (type : UInt8) (locate tracking : UInt16) (timestamp : UInt64) : List UInt8 :=
  bytesOf type ++ bytesOf locate ++ bytesOf tracking ++ u48Bytes timestamp

@[simp] theorem length_u48Bytes (v : UInt64) : (u48Bytes v).length = 6 := by simp [u48Bytes]

@[simp] theorem length_headerBytes (type : UInt8) (locate tracking : UInt16)
    (timestamp : UInt64) : (headerBytes type locate tracking timestamp).length = 11 := by
  simp [headerBytes]

namespace Message

/-- The fields of a message, in their order. -/
def body : Message → List UInt8
  | .systemEvent _ _ _ code => bytesOf code
  | .stockDirectory _ _ _ f =>
    padTo kStockLen f.stock ++ bytesOf f.marketCategory ++ bytesOf f.financialStatus
      ++ bytesOf f.roundLotSize ++ bytesOf f.roundLotsOnly ++ bytesOf f.issueClassification
      ++ padTo 2 f.issueSubType ++ bytesOf f.authenticity ++ bytesOf f.shortSaleThreshold
      ++ bytesOf f.ipoFlag ++ bytesOf f.luldTier ++ bytesOf f.etpFlag ++ bytesOf f.etpLeverage
      ++ bytesOf f.inverseIndicator
  | .tradingAction _ _ _ stock state reason =>
    padTo kStockLen stock ++ bytesOf state ++ bytesOf ' '.toUInt8 ++ padTo 4 reason
  | .addOrder _ _ _ ref side shares stock price =>
    bytesOf ref ++ bytesOf side ++ bytesOf shares ++ padTo kStockLen stock ++ bytesOf price
  | .addOrderMpid _ _ _ ref side shares stock price mpid =>
    bytesOf ref ++ bytesOf side ++ bytesOf shares ++ padTo kStockLen stock ++ bytesOf price
      ++ padTo 4 mpid
  | .orderExecuted _ _ _ ref shares matchNo => bytesOf ref ++ bytesOf shares ++ bytesOf matchNo
  | .orderExecutedPrice _ _ _ ref shares matchNo printable price =>
    bytesOf ref ++ bytesOf shares ++ bytesOf matchNo
      ++ bytesOf (if printable then 'Y'.toUInt8 else 'N'.toUInt8) ++ bytesOf price
  | .orderCancel _ _ _ ref shares => bytesOf ref ++ bytesOf shares
  | .orderDelete _ _ _ ref => bytesOf ref
  | .orderReplace _ _ _ oldRef newRef shares price =>
    bytesOf oldRef ++ bytesOf newRef ++ bytesOf shares ++ bytesOf price
  | .trade _ _ _ ref side shares stock price matchNo =>
    bytesOf ref ++ bytesOf side ++ bytesOf shares ++ padTo kStockLen stock ++ bytesOf price
      ++ bytesOf matchNo
  | .crossTrade _ _ _ shares stock price matchNo crossType =>
    bytesOf shares ++ padTo kStockLen stock ++ bytesOf price ++ bytesOf matchNo
      ++ bytesOf crossType
  | .brokenTrade _ _ _ matchNo => bytesOf matchNo

/-- Its stock locate. -/
def locate : Message → UInt16
  | .systemEvent loc .. | .stockDirectory loc .. | .tradingAction loc .. | .addOrder loc ..
  | .addOrderMpid loc .. | .orderExecuted loc .. | .orderExecutedPrice loc ..
  | .orderCancel loc .. | .orderDelete loc .. | .orderReplace loc .. | .trade loc ..
  | .crossTrade loc .. | .brokenTrade loc .. => loc

/-- Its tracking number. -/
def tracking : Message → UInt16
  | .systemEvent _ trk .. | .stockDirectory _ trk .. | .tradingAction _ trk ..
  | .addOrder _ trk .. | .addOrderMpid _ trk .. | .orderExecuted _ trk ..
  | .orderExecutedPrice _ trk .. | .orderCancel _ trk .. | .orderDelete _ trk ..
  | .orderReplace _ trk .. | .trade _ trk .. | .crossTrade _ trk .. | .brokenTrade _ trk .. => trk

/-- Its time. Of the eight bytes six are written. -/
def timestamp : Message → UInt64
  | .systemEvent _ _ ts .. | .stockDirectory _ _ ts .. | .tradingAction _ _ ts ..
  | .addOrder _ _ ts .. | .addOrderMpid _ _ ts .. | .orderExecuted _ _ ts ..
  | .orderExecutedPrice _ _ ts .. | .orderCancel _ _ ts .. | .orderDelete _ _ ts ..
  | .orderReplace _ _ ts .. | .trade _ _ ts .. | .crossTrade _ _ ts .. | .brokenTrade _ _ ts .. =>
      ts

/-- The bytes of a message. -/
def bytes (m : Message) : List UInt8 :=
  headerBytes m.type m.locate m.tracking m.timestamp ++ m.body

/-- A message is as long as the table says. -/
theorem length_bytes (m : Message) : m.bytes.length = messageLength m.type := by
  unfold bytes
  cases m <;> simp [body, type] <;> rfl

end Message

/-! ## The writers -/

section Fill

variable {out : List UInt8}

/-- A text goes behind what is done. -/
theorem putAlpha_fill {done : List UInt8} {off : ℕ} {s : List UInt8} {width : ℕ}
    (h : off = done.length ∧ done.length + width ≤ out.length) :
    putAlpha (fill out done) off s width = .ok (fill out (done ++ padTo width s)) :=
  store_fill h.1 (by rw [length_padTo]; exact h.2)

/-- The header goes to the front. -/
theorem writeHeader_fill (h : kHeaderLen ≤ out.length) (type : UInt8) (locate tracking : UInt16)
    (timestamp : UInt64) :
    writeHeader out type locate tracking timestamp =
      .ok (fill out (headerBytes type locate tracking timestamp)) := by
  simp only [kHeaderLen] at h
  show writeHeader (fill out []) type locate tracking timestamp = _
  unfold writeHeader putChar beStoreU48
  simp (disch := (simp; omega)) only [beStore_fill, bind, Except.bind, List.nil_append]
  simp only [headerBytes, u48Bytes, List.append_assoc]

/-- The type is the first byte, and may be written again. -/
theorem putChar_type {type : UInt8} {locate tracking : UInt16} {timestamp : UInt64}
    {rest : List UInt8} (type' : UInt8) :
    putChar (fill out (headerBytes type locate tracking timestamp ++ rest)) kOffType type' =
      .ok (fill out (headerBytes type' locate tracking timestamp ++ rest)) := by
  have hdone : headerBytes type locate tracking timestamp ++ rest =
      [] ++ bytesOf type ++ (bytesOf locate ++ bytesOf tracking ++ u48Bytes timestamp ++ rest) := by
    simp only [headerBytes, List.append_assoc, List.nil_append]
  have hoff : kOffType = ([] : List UInt8).length := rfl
  unfold putChar beStore
  rw [store_over hdone hoff (by rw [length_bytesOf, length_bytesOf])]
  simp only [headerBytes, List.append_assoc, List.nil_append]

theorem writeAddOrder_fill (h : 36 ≤ out.length) (locate tracking : UInt16)
    (timestamp orderRef : UInt64) (side : UInt8) (shares : UInt32) (stock : List UInt8)
    (price : UInt32) :
    writeAddOrder out locate tracking timestamp orderRef side shares stock price =
      .ok (36, fill out (headerBytes 'A'.toUInt8 locate tracking timestamp ++ bytesOf orderRef
        ++ bytesOf side ++ bytesOf shares ++ padTo kStockLen stock ++ bytesOf price)) := by
  unfold writeAddOrder putStock putChar
  rw [writeHeader_fill (by simp only [kHeaderLen]; omega)]
  simp (disch := (simp; omega)) only [beStore_fill, putAlpha_fill, bind, Except.bind]
  rfl

end Fill

/-- **What a writer writes**: the bytes of its message from the front of the buffer, nothing behind
them, and it returns the length of its type. -/
theorem write_spec (m : Message) {out : List UInt8} (h : messageLength m.type ≤ out.length) :
    m.write out = .ok (messageLength m.type, fill out m.bytes) := by
  rw [← m.length_bytes] at h
  unfold Message.bytes at h ⊢
  rw [List.length_append, length_headerBytes] at h
  have hheader : kHeaderLen ≤ out.length := Nat.le_of_add_right_le h
  cases m
  all_goals
    simp [Message.body] at h
    simp only [Message.write, Message.type, Message.body, Message.locate, Message.tracking,
      Message.timestamp, ← List.append_assoc]
  case addOrder => exact writeAddOrder_fill h ..
  case addOrderMpid =>
    unfold writeAddOrderMpid
    rw [writeAddOrder_fill (Nat.le_trans (by decide) h)]
    simp only [bind, Except.bind, List.append_assoc, putChar_type]
    simp (disch := (simp; omega)) only [putAlpha_fill]
    simp only [List.append_assoc]
    rfl
  -- the others store their fields one behind another
  all_goals
    simp only [writeSystemEvent, writeStockDirectory, writeTradingAction, writeOrderExecuted,
      writeOrderExecutedPrice, writeOrderCancel, writeOrderDelete, writeOrderReplace, writeTrade,
      writeCrossTrade, writeBrokenTrade, writeHeader_fill hheader, putStock, putChar]
    simp (disch := (simp; omega)) only [beStore_fill, putAlpha_fill, bind, Except.bind]
    rfl

end Itch
end Tickerplant
