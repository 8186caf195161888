import Tickerplant.Lib.Record

/-!
# ITCH 5.0 on the wire (`include/tick/itch.hpp`)

The offsets, the table of lengths, and the header every message starts with. A `char` of the source
is the byte it is on the wire; a switch over message types reads that byte as a character.

The source names the offsets instead of writing numbers where they are used, because a transposed
offset makes a decoder that runs, produces plausible numbers and is wrong. They are kept apart here
for the same reason, under the source's names, and tagged for simplification, so that a proof about
a decoder sees the numbers and a reader the fields.

Every field of every message is big endian, a ticker is eight characters with blanks behind it, and
a timestamp has six bytes, which are read as four and two.
-/

set_option autoImplicit false

namespace Tickerplant
namespace Itch

open Lib

/-- The message type, one character. -/
@[simp] def kOffType : ℕ := 0
/-- Stock locate, 2 bytes. -/
@[simp] def kOffLocate : ℕ := 1
/-- Tracking number, 2 bytes. Nothing is decided by it. -/
@[simp] def kOffTracking : ℕ := 3
/-- Nanoseconds since midnight, 6 bytes. -/
@[simp] def kOffTimestamp : ℕ := 5
/-- Where the body starts. -/
@[simp] def kHeaderLen : ℕ := 11

/-- A ticker, padded with blanks. -/
@[simp] def kStockLen : ℕ := 8

/-- The longest message, the order imbalance indicator. -/
@[simp] def kMaxMessageLen : ℕ := 50

/-- The length of a message of a type, header included, or zero for a type that is not known. -/
def messageLength (type : UInt8) : ℕ :=
  match Char.ofUInt8 type with
  | 'S' => 12
  | 'R' => 39
  | 'H' => 25
  | 'Y' => 20
  | 'L' => 26
  | 'V' => 35
  | 'W' => 12
  | 'K' => 28
  | 'J' => 35
  | 'h' => 21
  | 'A' => 36
  | 'F' => 40
  | 'E' => 31
  | 'C' => 36
  | 'X' => 23
  | 'D' => 19
  | 'U' => 35
  | 'P' => 44
  | 'Q' => 40
  | 'B' => 19
  | 'I' => 50
  | 'N' => 20
  | 'O' => 48
  | _ => 0

/-- A type with a length. -/
def isKnownType (type : UInt8) : Bool := messageLength type ≠ 0

/-! ## Body offsets -/

namespace Off

/-- S: the event. -/
@[simp] def kEventCode : ℕ := 11

/-- R: ticker, 8 bytes. -/
@[simp] def kDirStock : ℕ := 11
/-- R: market category. -/
@[simp] def kDirMarketCat : ℕ := 19
/-- R: financial status. -/
@[simp] def kDirFinStatus : ℕ := 20
/-- R: round lot size, 4 bytes. -/
@[simp] def kDirRoundLot : ℕ := 21
/-- R: are only round lots taken. -/
@[simp] def kDirRoundLotsOnly : ℕ := 25

/-- H: ticker, 8 bytes. -/
@[simp] def kActionStock : ℕ := 11
/-- H: trading state. -/
@[simp] def kActionState : ℕ := 19
/-- H: reason, 4 bytes. -/
@[simp] def kActionReason : ℕ := 21

/-- A and F: order reference, 8 bytes. -/
@[simp] def kAddRef : ℕ := 11
/-- A and F: the side, `B` or `S`. -/
@[simp] def kAddSide : ℕ := 19
/-- A and F: shares, 4 bytes. -/
@[simp] def kAddShares : ℕ := 20
/-- A and F: ticker, 8 bytes. -/
@[simp] def kAddStock : ℕ := 24
/-- A and F: price in ten-thousandths, 4 bytes. -/
@[simp] def kAddPrice : ℕ := 32
/-- F only: the participant, 4 bytes. -/
@[simp] def kAddMpid : ℕ := 36

/-- E: order reference, 8 bytes. -/
@[simp] def kExecRef : ℕ := 11
/-- E: executed shares, 4 bytes. -/
@[simp] def kExecShares : ℕ := 19
/-- E: match number, 8 bytes. -/
@[simp] def kExecMatch : ℕ := 23

/-- C: order reference, 8 bytes. -/
@[simp] def kExecPxRef : ℕ := 11
/-- C: executed shares, 4 bytes. -/
@[simp] def kExecPxShares : ℕ := 19
/-- C: match number, 8 bytes. -/
@[simp] def kExecPxMatch : ℕ := 23
/-- C: `Y` if the print counts. -/
@[simp] def kExecPxPrintable : ℕ := 31
/-- C: the price it printed at, 4 bytes. -/
@[simp] def kExecPxPrice : ℕ := 32

/-- X: order reference, 8 bytes. -/
@[simp] def kCancelRef : ℕ := 11
/-- X: cancelled shares, 4 bytes. -/
@[simp] def kCancelShares : ℕ := 19

/-- D: order reference, 8 bytes. -/
@[simp] def kDeleteRef : ℕ := 11

/-- U: the reference that goes, 8 bytes. -/
@[simp] def kReplaceOldRef : ℕ := 11
/-- U: the reference that comes, 8 bytes. -/
@[simp] def kReplaceNewRef : ℕ := 19
/-- U: shares, 4 bytes. -/
@[simp] def kReplaceShares : ℕ := 27
/-- U: price, 4 bytes. -/
@[simp] def kReplacePrice : ℕ := 31

/-- P: a reference no add ever gave, 8 bytes. -/
@[simp] def kTradeRef : ℕ := 11
/-- P: side of the hidden order. -/
@[simp] def kTradeSide : ℕ := 19
/-- P: shares, 4 bytes. -/
@[simp] def kTradeShares : ℕ := 20
/-- P: ticker, 8 bytes. -/
@[simp] def kTradeStock : ℕ := 24
/-- P: price, 4 bytes. -/
@[simp] def kTradePrice : ℕ := 32
/-- P: match number, 8 bytes. -/
@[simp] def kTradeMatch : ℕ := 36

/-- Q: shares, 8 bytes here and nowhere else. -/
@[simp] def kCrossShares : ℕ := 11
/-- Q: ticker, 8 bytes. -/
@[simp] def kCrossStock : ℕ := 19
/-- Q: price, 4 bytes. -/
@[simp] def kCrossPrice : ℕ := 27
/-- Q: match number, 8 bytes. -/
@[simp] def kCrossMatch : ℕ := 31
/-- Q: opening, closing or halt. -/
@[simp] def kCrossType : ℕ := 39

/-- B: the match that did not stand, 8 bytes. -/
@[simp] def kBrokenMatch : ℕ := 11

end Off

/-! ## Reading the header -/

/-- `be_load_u48`: four bytes and two, joined. -/
def beLoadU48 (p : List UInt8) (off : ℕ) : Checked UInt64 := do
  let hi ← beLoad UInt32 p off
  let lo ← beLoad UInt16 p (off + 4)
  return (hi.toUInt64 <<< 16) ||| lo.toUInt64

/-- One byte, as the character it is. -/
def charAt (p : List UInt8) (off : ℕ) : Checked UInt8 := beLoad UInt8 p off

/-- `msg_type`. -/
def msgType (p : List UInt8) : Checked UInt8 := charAt p kOffType
/-- `locate`. -/
def locate (p : List UInt8) : Checked UInt16 := beLoad UInt16 p kOffLocate
/-- `tracking`. -/
def tracking (p : List UInt8) : Checked UInt16 := beLoad UInt16 p kOffTracking
/-- `timestamp`. -/
def timestamp (p : List UInt8) : Checked UInt64 := beLoadU48 p kOffTimestamp

/-- The ticker at `off`, without its padding. -/
def stock (p : List UInt8) (off : ℕ) : Checked (List UInt8) := do
  let s ← slice p off kStockLen
  return s.take (trimLen s kStockLen)

/-! ## The lengths -/

/-- The table, row by row: a known type has a header and a byte, and fits the staging buffer. -/
theorem messageLength_cases (type : UInt8) :
    messageLength type = 0 ∨ 12 ≤ messageLength type ∧ messageLength type ≤ kMaxMessageLen := by
  unfold messageLength
  split <;> simp

/-- A message that is long enough for its type has a header, and fits the staging buffer. -/
theorem messageLength_bounds {type : UInt8} (h : messageLength type ≠ 0) :
    12 ≤ messageLength type ∧ messageLength type ≤ kMaxMessageLen :=
  (messageLength_cases type).resolve_left h

end Itch
end Tickerplant
