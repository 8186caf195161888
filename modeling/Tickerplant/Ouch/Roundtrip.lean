import Tickerplant.Ouch.Codec

/-!
# Encoding and decoding are inverse

For an inbound order `Inverse` says it in both directions: what is encoded decodes to the order,
whatever follows it, and what a decoder accepted encodes to the bytes it was read from. For the
outbound messages the decoder makes a call, and the message of a call is `Message`: every call but
`onOther` is that of a message, whose bytes are those that were read.

The second direction is the one that costs. It says that no byte of an accepted message is ignored,
so that a decoder that skipped a field, or read one from the wrong place, would not have it.
`bytesOf` of what was read at an offset is what stands at that offset (`Lib/Record`), and the
fields taken together are the message, offset by offset.

The bytes of a message are written down between the two, in `bytes`, fields in order and no offset.
Encoder and decoder are compared with that and never with each other.
-/

set_option autoImplicit false

namespace Tickerplant
namespace Ouch

open Lib

/-! ## Inbound -/

/-- An encoder and a decoder of messages of one length. -/
structure Inverse {M : Type} (len : ℕ) (bytes : M → List UInt8)
    (encode : List UInt8 → M → Checked (ℕ × List UInt8))
    (decode : List UInt8 → Checked (Option M)) : Prop where
  /-- The message has one length. -/
  length_bytes (m : M) : (bytes m).length = len
  /-- A buffer that is shorter is left alone, and zero is returned. -/
  short (buf : List UInt8) (m : M) : buf.length < len → encode buf m = .ok (0, buf)
  /-- Otherwise the bytes go to its front. -/
  encodes (buf : List UInt8) (m : M) : len ≤ buf.length →
    encode buf m = .ok (len, fill buf (bytes m))
  /-- They are read back, whatever is behind them. -/
  decodes (m : M) (rest : List UInt8) : decode (bytes m ++ rest) = .ok (some m)
  /-- Any buffer is answered, and if it is accepted it has those bytes in front. -/
  answers (buf : List UInt8) : decode buf = .ok none ∨
    ∃ m, decode buf = .ok (some m) ∧ len ≤ buf.length ∧ bytes m = buf.take len

/-- The fields in the order of the wire. -/
def EnterOrder.bytes (o : EnterOrder) : List UInt8 :=
  bytesOf 'O'.toUInt8 ++ o.token.chars ++ bytesOf o.side ++ bytesOf o.shares ++ o.stock.chars
    ++ bytesOf o.price ++ bytesOf o.timeInForce ++ o.firm.chars ++ bytesOf o.display
    ++ bytesOf o.capacity ++ bytesOf o.iso ++ bytesOf o.minQuantity ++ bytesOf o.crossType
    ++ bytesOf o.customerType

/-- Likewise. -/
def ReplaceOrder.bytes (o : ReplaceOrder) : List UInt8 :=
  bytesOf 'U'.toUInt8 ++ o.existingToken.chars ++ o.replacementToken.chars ++ bytesOf o.shares
    ++ bytesOf o.price ++ bytesOf o.timeInForce ++ bytesOf o.display ++ bytesOf o.iso
    ++ bytesOf o.minQuantity

/-- Likewise. -/
def CancelOrder.bytes (o : CancelOrder) : List UInt8 :=
  bytesOf 'X'.toUInt8 ++ o.token.chars ++ bytesOf o.intendedShares

/-- Enter Order. -/
theorem enterOrder_inverse :
    Inverse In.Enter.kLen EnterOrder.bytes encodeEnterOrder decodeEnterOrder where
  length_bytes o := by simp [EnterOrder.bytes]
  short _ _ h := if_pos h
  encodes buf o h := by
    unfold encodeEnterOrder putChar
    rw [if_neg (Nat.not_lt.mpr h), In.Enter.kType, beStore_front (by simp at h ⊢; omega)]
    simp only [In.Enter.kLen] at h
    simp (disch := (simp; omega)) only [beStore_fill, storeAlpha_fill, bind, Except.bind]
    rfl
  decodes o rest := by
    unfold decodeEnterOrder EnterOrder.bytes
    rw [if_neg (by simp; omega)]
    simp [Field.msgType, Field.charAt, Field.token, Field.stock, Field.firm, beLoad_skip,
      beLoad_here, alphaAt_skip, alphaAt_here, bind, Except.bind, pure, Except.pure]
  answers buf := by
    unfold decodeEnterOrder
    by_cases hlen : buf.length < In.Enter.kLen
    · exact Or.inl (if_pos hlen)
    rw [if_neg hlen]
    simp only [In.Enter.kLen] at hlen ⊢
    simp (disch := (simp; omega)) only [Field.msgType, Field.charAt, Field.token, Field.stock,
      Field.firm, beLoad_eq, alphaAt_eq, bind, Except.bind, pure, Except.pure]
    by_cases htype : valueAt UInt8 buf 0 = 'O'.toUInt8
    · rw [if_neg (not_not.mpr htype)]
      refine Or.inr ⟨_, rfl, Nat.not_lt.mp hlen, ?_⟩
      -- the fields stand side by side, the type in front of them
      unfold EnterOrder.bytes
      rw [← htype]
      simp (disch := (simp; omega)) only [bytesOf_valueAt]
      simp [field_join]
      rfl
    · exact Or.inl (if_pos htype)

/-- Replace Order. -/
theorem replaceOrder_inverse :
    Inverse In.Replace.kLen ReplaceOrder.bytes encodeReplaceOrder decodeReplaceOrder where
  length_bytes o := by simp [ReplaceOrder.bytes]
  short _ _ h := if_pos h
  encodes buf o h := by
    unfold encodeReplaceOrder putChar
    rw [if_neg (Nat.not_lt.mpr h), In.Replace.kType, beStore_front (by simp at h ⊢; omega)]
    simp only [In.Replace.kLen] at h
    simp (disch := (simp; omega)) only [beStore_fill, storeAlpha_fill, bind, Except.bind]
    rfl
  decodes o rest := by
    unfold decodeReplaceOrder ReplaceOrder.bytes
    rw [if_neg (by simp; omega)]
    simp [Field.msgType, Field.charAt, Field.token, beLoad_skip, beLoad_here,
      alphaAt_skip, alphaAt_here, bind, Except.bind, pure, Except.pure]
  answers buf := by
    unfold decodeReplaceOrder
    by_cases hlen : buf.length < In.Replace.kLen
    · exact Or.inl (if_pos hlen)
    rw [if_neg hlen]
    simp only [In.Replace.kLen] at hlen ⊢
    simp (disch := (simp; omega)) only [Field.msgType, Field.charAt, Field.token, beLoad_eq,
      alphaAt_eq, bind, Except.bind, pure, Except.pure]
    by_cases htype : valueAt UInt8 buf 0 = 'U'.toUInt8
    · rw [if_neg (not_not.mpr htype)]
      refine Or.inr ⟨_, rfl, Nat.not_lt.mp hlen, ?_⟩
      -- the fields stand side by side, the type in front of them
      unfold ReplaceOrder.bytes
      rw [← htype]
      simp (disch := (simp; omega)) only [bytesOf_valueAt]
      simp [field_join]
      rfl
    · exact Or.inl (if_pos htype)

/-- Cancel Order. -/
theorem cancelOrder_inverse :
    Inverse In.Cancel.kLen CancelOrder.bytes encodeCancelOrder decodeCancelOrder where
  length_bytes o := by simp [CancelOrder.bytes]
  short _ _ h := if_pos h
  encodes buf o h := by
    unfold encodeCancelOrder putChar
    rw [if_neg (Nat.not_lt.mpr h), In.Cancel.kType, beStore_front (by simp at h ⊢; omega)]
    simp only [In.Cancel.kLen] at h
    simp (disch := (simp; omega)) only [beStore_fill, storeAlpha_fill, bind, Except.bind]
    rfl
  decodes o rest := by
    unfold decodeCancelOrder CancelOrder.bytes
    rw [if_neg (by simp; omega)]
    simp [Field.msgType, Field.charAt, Field.token, beLoad_skip, beLoad_here,
      alphaAt_skip, alphaAt_here, bind, Except.bind, pure, Except.pure]
  answers buf := by
    unfold decodeCancelOrder
    by_cases hlen : buf.length < In.Cancel.kLen
    · exact Or.inl (if_pos hlen)
    rw [if_neg hlen]
    simp only [In.Cancel.kLen] at hlen ⊢
    simp (disch := (simp; omega)) only [Field.msgType, Field.charAt, Field.token, beLoad_eq,
      alphaAt_eq, bind, Except.bind, pure, Except.pure]
    by_cases htype : valueAt UInt8 buf 0 = 'X'.toUInt8
    · rw [if_neg (not_not.mpr htype)]
      refine Or.inr ⟨_, rfl, Nat.not_lt.mp hlen, ?_⟩
      -- the fields stand side by side, the type in front of them
      unfold CancelOrder.bytes
      rw [← htype]
      simp (disch := (simp; omega)) only [bytesOf_valueAt]
      simp [field_join]
      rfl
    · exact Or.inl (if_pos htype)

/-! ## Outbound -/

/-- An outbound message: one constructor an encoder, with its arguments. -/
inductive Message where
  | systemEvent (ts : UInt64) (code : UInt8)
  | accepted (a : AcceptedMsg)
  | replaced (r : ReplacedMsg)
  | canceled (ts : UInt64) (tok : Token) (decrement : UInt32) (reason : UInt8)
  | executed (ts : UInt64) (tok : Token) (shares price : UInt32) (liquidity : UInt8)
      (matchNo : UInt64)
  | rejected (ts : UInt64) (tok : Token) (reason : UInt8)
  deriving DecidableEq

namespace Message

/-- Its first byte. -/
def type : Message → UInt8
  | .systemEvent .. => 'S'.toUInt8
  | .accepted .. => 'A'.toUInt8
  | .replaced .. => 'U'.toUInt8
  | .canceled .. => 'C'.toUInt8
  | .executed .. => 'E'.toUInt8
  | .rejected .. => 'J'.toUInt8

/-- The encoder of the message. -/
def encode (buf : List UInt8) : Message → Checked (ℕ × List UInt8)
  | .systemEvent ts code => encodeSystemEvent buf ts code
  | .accepted a => encodeAccepted buf a
  | .replaced r => encodeReplaced buf r
  | .canceled ts tok decrement reason => encodeCanceled buf ts tok decrement reason
  | .executed ts tok shares price liquidity matchNo =>
    encodeExecuted buf ts tok shares price liquidity matchNo
  | .rejected ts tok reason => encodeRejected buf ts tok reason

/-- The call the decoder makes of it. -/
def call : Message → HandlerCall
  | .systemEvent ts code => .onSystemEvent ts code
  | .accepted a => .onAccepted a
  | .replaced r => .onReplaced r
  | .canceled ts tok decrement reason => .onCanceled ts tok decrement reason
  | .executed ts tok shares price liquidity matchNo =>
    .onExecuted ts tok shares price liquidity matchNo
  | .rejected ts tok reason => .onRejected ts tok reason

end Message

/-- What Accepted and Replaced have in common, behind the type. -/
def AcceptedMsg.commonBytes (a : AcceptedMsg) : List UInt8 :=
  bytesOf a.timestamp ++ a.token.chars ++ bytesOf a.side ++ bytesOf a.shares ++ a.stock.chars
    ++ bytesOf a.price ++ bytesOf a.timeInForce ++ a.firm.chars ++ bytesOf a.display
    ++ bytesOf a.reference ++ bytesOf a.capacity ++ bytesOf a.iso ++ bytesOf a.minQuantity
    ++ bytesOf a.crossType ++ bytesOf a.orderState

namespace Message

/-- The fields in the order of the wire. -/
def bytes : Message → List UInt8
  | .systemEvent ts code => bytesOf 'S'.toUInt8 ++ bytesOf ts ++ bytesOf code
  | .accepted a => bytesOf 'A'.toUInt8 ++ a.commonBytes ++ bytesOf a.bboWeight
  | .replaced r => bytesOf 'U'.toUInt8 ++ r.common.commonBytes ++ r.previousToken.chars
      ++ bytesOf r.common.bboWeight
  | .canceled ts tok decrement reason => bytesOf 'C'.toUInt8 ++ bytesOf ts ++ tok.chars
      ++ bytesOf decrement ++ bytesOf reason
  | .executed ts tok shares price liquidity matchNo => bytesOf 'E'.toUInt8 ++ bytesOf ts
      ++ tok.chars ++ bytesOf shares ++ bytesOf price ++ bytesOf liquidity ++ bytesOf matchNo
  | .rejected ts tok reason => bytesOf 'J'.toUInt8 ++ bytesOf ts ++ tok.chars ++ bytesOf reason

variable (m : Message)

/-- As long as the table says. -/
theorem length_bytes : m.bytes.length = Out.messageLength m.type := by
  cases m <;> simp [bytes, type, AcceptedMsg.commonBytes] <;> rfl

/-- Too short a buffer is left alone. -/
theorem encode_short {buf : List UInt8} (h : buf.length < Out.messageLength m.type) :
    m.encode buf = .ok (0, buf) := by
  cases m <;> exact if_pos h

/-- Field by field, each behind the one before. -/
theorem encode_fill {buf : List UInt8} (h : Out.messageLength m.type ≤ buf.length) :
    m.encode buf = .ok (Out.messageLength m.type, fill buf m.bytes) := by
  have hlong := Nat.not_lt.mpr h
  rw [← m.length_bytes] at h
  cases m
  all_goals
    simp [bytes, AcceptedMsg.commonBytes] at h
    refine (if_neg hlong).trans ?_
    simp only [writeCommon, putChar, Out.Sysevt.kType, Out.Accepted.kType, Out.Replaced.kType,
      Out.Canceled.kType, Out.Executed.kType, Out.Rejected.kType]
    rw [beStore_front (by simp; omega)]
    simp (disch := (simp; omega)) only [beStore_fill, storeAlpha_fill, bind, Except.bind]
  case accepted a =>
    simp only [← List.append_assoc, bytes, AcceptedMsg.commonBytes]
    rfl
  case replaced r =>
    simp only [← List.append_assoc, bytes, AcceptedMsg.commonBytes]
    rfl
  all_goals rfl

end Message

section Read

variable (m : Message) (rest : List UInt8)

/-- The first byte is the type. -/
theorem msgType_bytes : Field.msgType (m.bytes ++ rest) = .ok m.type := by
  unfold Field.msgType Field.charAt
  cases m
  all_goals
    simp only [Message.bytes, Message.type, List.append_assoc]
    exact beLoad_here _

/-- What the decoder reads of an encoded message. -/
theorem readCall_bytes : ∃ ts, Field.timestamp (m.bytes ++ rest) = .ok ts ∧
    OuchDecoder.readCall (m.bytes ++ rest) m.type ts = .ok m.call := by
  unfold OuchDecoder.readCall OuchDecoder.readCommon Field.timestamp
  cases m
  all_goals
    simp only [Message.type]
    rw [ofUInt8_toUInt8 (by decide)]
    simp [Message.bytes, Message.call, AcceptedMsg.commonBytes, Field.charAt, Field.token,
      Field.stock, Field.firm, beLoad_skip, beLoad_here, alphaAt_skip, alphaAt_here, bind,
      Except.bind, pure, Except.pure]

end Read

/-! ## What the decoder accepts -/

/-- The types whose fields the decoder reads. -/
def isImplemented (type : UInt8) : Bool :=
  Char.ofUInt8 type ∈ ['S', 'A', 'U', 'C', 'E', 'J']

/-- The common fields of Accepted and Replaced are the bytes behind the type. -/
theorem readCommon_accepted {p : List UInt8} (h : 65 ≤ p.length) (a : AcceptedMsg) :
    ∃ a', OuchDecoder.readCommon p (valueAt UInt64 p 1) a = .ok a' ∧
      a'.commonBytes = field p 1 64 := by
  unfold OuchDecoder.readCommon
  simp (disch := (simp; omega)) only [Field.charAt, Field.token, Field.stock, Field.firm, beLoad_eq,
    alphaAt_eq, bind, Except.bind, pure, Except.pure]
  refine ⟨_, rfl, ?_⟩
  unfold AcceptedMsg.commonBytes
  simp (disch := (simp; omega)) only [bytesOf_valueAt]
  simp [field_join]

/-- A buffer as long as its type says makes the call of a message that encodes to the same bytes,
or, when its type has no semantics, `onOther`. -/
theorem readCall_accepted {p : List UInt8} {type : UInt8} (htype : Field.msgType p = .ok type)
    (hk : Out.messageLength type ≠ 0) (hlen : Out.messageLength type ≤ p.length) :
    ∃ ts call, Field.timestamp p = .ok ts ∧ OuchDecoder.readCall p type ts = .ok call ∧
      ((isImplemented type = true ∧ ∃ m : Message, m.type = type ∧ m.call = call ∧
          m.bytes = p.take (Out.messageLength type)) ∨
        (isImplemented type = false ∧ call = .onOther type ts)) := by
  have hts : 9 ≤ p.length → Field.timestamp p = .ok (valueAt UInt64 p 1) := fun h =>
    beLoad_eq (by simp; omega)
  have hfront : 9 ≤ p.length → bytesOf type = field p 0 1 := fun h => by
    unfold Field.msgType Field.charAt at htype
    rw [beLoad_eq (by simp; omega)] at htype
    rw [← Except.ok.inj htype]
    exact bytesOf_valueAt (by simp; omega)
  have hchar : (Char.ofUInt8 type).toUInt8 = type := toUInt8_ofUInt8 type
  refine ⟨valueAt UInt64 p 1, ?_⟩
  unfold OuchDecoder.readCall isImplemented
  unfold Out.messageLength at hk hlen ⊢
  split at hk
  case h_14 => exact absurd rfl hk
  all_goals
    rename_i hc
    rw [hc] at hlen hchar ⊢
    simp at hlen
  case h_2 =>
    obtain ⟨a, ha, hcommon⟩ := readCommon_accepted (show 65 ≤ p.length by omega) {}
    simp (disch := (simp; omega)) only [Field.charAt, beLoad_eq, ha, bind, Except.bind, pure,
      Except.pure]
    refine ⟨_, hts (by omega), rfl, Or.inl ⟨by decide, .accepted _, hchar, rfl, ?_⟩⟩
    show bytesOf 'A'.toUInt8 ++ a.commonBytes ++ _ = _
    rw [hchar, hfront (by omega), hcommon, bytesOf_valueAt (by simp; omega)]
    simp [field_join]
    rfl
  case h_3 =>
    obtain ⟨a, ha, hcommon⟩ := readCommon_accepted (show 65 ≤ p.length by omega) {}
    simp (disch := (simp; omega)) only [Field.charAt, Field.token, beLoad_eq, alphaAt_eq, ha, bind,
      Except.bind, pure, Except.pure]
    refine ⟨_, hts (by omega), rfl, Or.inl ⟨by decide, .replaced _, hchar, rfl, ?_⟩⟩
    show bytesOf 'U'.toUInt8 ++ a.commonBytes ++ _ ++ _ = _
    rw [hchar, hfront (by omega), hcommon, bytesOf_valueAt (by simp; omega)]
    simp [field_join]
    rfl
  all_goals
    simp (disch := (simp; omega)) only [Field.charAt, Field.token, beLoad_eq, alphaAt_eq, bind,
      Except.bind, pure, Except.pure]
    refine ⟨_, hts (by omega), rfl, ?_⟩
  case h_5 | h_7 | h_8 | h_10 | h_11 | h_12 | h_13 => exact Or.inr ⟨by decide, rfl⟩
  case' h_1 => refine Or.inl ⟨by decide, .systemEvent _ _, hchar, rfl, ?_⟩
  case' h_4 => refine Or.inl ⟨by decide, .canceled _ _ _ _, hchar, rfl, ?_⟩
  case' h_6 => refine Or.inl ⟨by decide, .executed _ _ _ _ _ _, hchar, rfl, ?_⟩
  case' h_9 => refine Or.inl ⟨by decide, .rejected _ _ _, hchar, rfl, ?_⟩
  -- the fields that were read stand side by side, the type in front of them
  all_goals
    unfold Message.bytes
    rw [hchar, hfront (by omega)]
    simp (disch := (simp; omega)) only [bytesOf_valueAt]
    simp [field_join]
    rfl

section Decode

variable {H : Type} (on : H → HandlerCall → H)

/-- A decode that makes a call. -/
theorem OuchDecoder.decode_call {msg : List UInt8} {type : UInt8} {ts : UInt64}
    {call : HandlerCall} (hne : msg.isEmpty = false) (htype : Field.msgType msg = .ok type)
    (hk : Out.messageLength type ≠ 0) (hlen : Out.messageLength type ≤ msg.length)
    (hts : Field.timestamp msg = .ok ts) (hcall : OuchDecoder.readCall msg type ts = .ok call)
    (d : OuchDecoder) (handler : H) (consumed : ℕ) :
    d.decode on msg handler consumed = .ok
      { result := .ok, handler := on handler call, consumed := Out.messageLength type
        decoder := { stats := d.stats.count type (Out.messageLength type) } } := by
  unfold OuchDecoder.decode
  simp only [hne, htype, bind, Except.bind, hk, Nat.not_lt.mpr hlen, hts, hcall, if_false,
    Bool.false_eq_true]
  rfl

/-- A decode of a type that is not one. -/
theorem OuchDecoder.decode_unknown {msg : List UInt8} {type : UInt8} (d : OuchDecoder)
    (hne : msg.isEmpty = false) (htype : Field.msgType msg = .ok type)
    (hk : Out.messageLength type = 0) (handler : H) (consumed : ℕ) :
    d.decode on msg handler consumed = .ok
      { result := .unknownType, handler := handler, consumed := consumed
        decoder := { stats := { d.stats with unknown := d.stats.unknown + 1 } } } := by
  unfold OuchDecoder.decode
  simp only [hne, htype, bind, Except.bind, hk, if_true, if_false, Bool.false_eq_true]
  rfl

/-- A decode of a message that is not all there. -/
theorem OuchDecoder.decode_short {msg : List UInt8} {type : UInt8} (d : OuchDecoder)
    (hne : msg.isEmpty = false) (htype : Field.msgType msg = .ok type)
    (hk : Out.messageLength type ≠ 0) (hlen : msg.length < Out.messageLength type) (handler : H)
    (consumed : ℕ) :
    d.decode on msg handler consumed = .ok
      { result := .truncated, handler := handler, consumed := consumed
        decoder := { stats := { d.stats with truncated := d.stats.truncated + 1 } } } := by
  unfold OuchDecoder.decode
  simp only [hne, htype, bind, Except.bind, hk, hlen, if_true, if_false, Bool.false_eq_true]
  rfl

/-- Every message has a length. -/
theorem Message.length_ne_zero (m : Message) : Out.messageLength m.type ≠ 0 := by
  rw [← m.length_bytes]
  cases m <;> simp [bytes, AcceptedMsg.commonBytes]

/-- An encoded message, in front of anything. -/
theorem OuchDecoder.decode_message (m : Message) (rest : List UInt8) (d : OuchDecoder)
    (handler : H) (consumed : ℕ) :
    d.decode on (m.bytes ++ rest) handler consumed = .ok
      { result := .ok, handler := on handler m.call, consumed := Out.messageLength m.type
        decoder := { stats := d.stats.count m.type (Out.messageLength m.type) } } := by
  obtain ⟨ts, hts, hcall⟩ := readCall_bytes m rest
  have hlen := m.length_bytes
  have hne : (m.bytes ++ rest).isEmpty = false := by
    cases hb : m.bytes with
    | nil =>
      rw [hb] at hlen
      exact absurd hlen.symm m.length_ne_zero
    | cons b bytes => rfl
  exact decode_call on hne (msgType_bytes m rest) m.length_ne_zero
    (by rw [List.length_append, hlen]; exact Nat.le_add_right _ _) hts hcall d handler consumed

/-- One decode, and how far it went. -/
def decodeStep (s : OuchDecoder × H) (buf : List UInt8) :
    Checked ((OuchDecoder × H) × Option ℕ) := do
  let r ← s.1.decode on buf s.2 0
  return ((r.decoder, r.handler), if r.result = .ok then some r.consumed else none)

/-- Decode what a buffer holds, message after message. -/
def decodeAll (d : OuchDecoder) (handler : H) (buf : List UInt8) :
    Checked ((OuchDecoder × H) × List UInt8) :=
  consume (decodeStep on) buf.length (d, handler) buf

/-- What a message does to the handler and to the counts of what was not one. -/
def nextView (v : H × UInt64 × UInt64) (m : Message) : H × UInt64 × UInt64 :=
  (on v.1 m.call, v.2)

/-- The counts do not move over a list of messages. -/
theorem foldl_nextView (ms : List Message) (v : H × UInt64 × UInt64) :
    ms.foldl (nextView on) v = (ms.foldl (fun handler m => on handler m.call) v.1, v.2) := by
  induction ms generalizing v with
  | nil => rfl
  | cons m ms ih => rw [List.foldl_cons, ih, List.foldl_cons, nextView]

/-- The outbound encoders and the decoder. -/
structure OutInverse : Prop where
  length_bytes (m : Message) : m.bytes.length = Out.messageLength m.type
  short (buf : List UInt8) (m : Message) : buf.length < Out.messageLength m.type →
    m.encode buf = .ok (0, buf)
  encodes (buf : List UInt8) (m : Message) : Out.messageLength m.type ≤ buf.length →
    m.encode buf = .ok (Out.messageLength m.type, fill buf m.bytes)
  decodes (m : Message) (rest : List UInt8) (d : OuchDecoder) (handler : H) (consumed : ℕ) :
    d.decode on (m.bytes ++ rest) handler consumed = .ok
      { result := .ok, handler := on handler m.call, consumed := Out.messageLength m.type
        decoder := { stats := d.stats.count m.type (Out.messageLength m.type) } }
  /-- A decode answers, and what it accepted is a message with these bytes, or has a type without
  semantics. -/
  answers (d : OuchDecoder) (msg : List UInt8) (handler : H) (consumed : ℕ) :
    ∃ r, d.decode on msg handler consumed = .ok r ∧ (r.result = .ok →
      ∃ type, Field.msgType msg = .ok type ∧ r.consumed = Out.messageLength type ∧
        r.consumed ≤ msg.length ∧
        ((isImplemented type = true ∧ ∃ m : Message, m.type = type ∧
            r.handler = on handler m.call ∧ m.bytes = msg.take r.consumed) ∨
          (isImplemented type = false ∧ ∃ ts, r.handler = on handler (.onOther type ts))))
  /-- A buffer of messages is read to its end, and nothing in it is unknown or truncated. -/
  stream (ms : List Message) (d : OuchDecoder) (handler : H) :
    ∃ d', decodeAll on d handler (ms.flatMap Message.bytes) =
        .ok ((d', ms.foldl (fun handler m => on handler m.call) handler), []) ∧
      d'.stats.unknown = d.stats.unknown ∧ d'.stats.truncated = d.stats.truncated

theorem decode_answers (d : OuchDecoder) (msg : List UInt8) (handler : H) (consumed : ℕ) :
    ∃ r, d.decode on msg handler consumed = .ok r ∧ (r.result = .ok →
      ∃ type, Field.msgType msg = .ok type ∧ r.consumed = Out.messageLength type ∧
        r.consumed ≤ msg.length ∧
        ((isImplemented type = true ∧ ∃ m : Message, m.type = type ∧
            r.handler = on handler m.call ∧ m.bytes = msg.take r.consumed) ∨
          (isImplemented type = false ∧ ∃ ts, r.handler = on handler (.onOther type ts)))) := by
  cases msg with
  | nil => exact ⟨_, rfl, fun h => absurd h (by simp)⟩
  | cons b m =>
    have htype : Field.msgType (b :: m) = .ok b := beLoad_cons b m
    by_cases hk : Out.messageLength b = 0
    · exact ⟨_, d.decode_unknown on rfl htype hk handler consumed, fun h => absurd h (by simp)⟩
    by_cases hlen : (b :: m).length < Out.messageLength b
    · exact ⟨_, d.decode_short on rfl htype hk hlen handler consumed, fun h => absurd h (by simp)⟩
    have hlong := Nat.not_lt.mp hlen
    obtain ⟨ts, call, hts, hcall, himp⟩ := readCall_accepted htype hk hlong
    refine ⟨_, OuchDecoder.decode_call on rfl htype hk hlong hts hcall d handler consumed,
      fun _ => ⟨b, htype, rfl, hlong, ?_⟩⟩
    rcases himp with ⟨hyes, msg, hm, rfl, hbytes⟩ | ⟨hno, rfl⟩
    · exact Or.inl ⟨hyes, msg, hm, rfl, hbytes⟩
    · exact Or.inr ⟨hno, ts, rfl⟩

theorem outInverse : OutInverse on where
  length_bytes := Message.length_bytes
  short _ m h := m.encode_short h
  encodes _ m h := m.encode_fill h
  decodes := OuchDecoder.decode_message on
  answers := decode_answers on
  stream ms d handler := by
    have hpos : ∀ m : Message, 0 < m.bytes.length := fun m =>
      Nat.pos_of_ne_zero (m.length_bytes ▸ m.length_ne_zero)
    -- one decode takes one message off the front, and counts nothing else
    have hstep : ∀ (s : OuchDecoder × H) (m : Message) (rest : List UInt8), ∃ s',
        decodeStep on s (m.bytes ++ rest) = .ok (s', some m.bytes.length) ∧
          (s'.2, s'.1.stats.unknown, s'.1.stats.truncated) =
            nextView on (s.2, s.1.stats.unknown, s.1.stats.truncated) m := by
      intro s m rest
      refine ⟨({ stats := s.1.stats.count m.type (Out.messageLength m.type) }, on s.2 m.call), ?_,
        rfl⟩
      unfold decodeStep
      rw [OuchDecoder.decode_message, m.length_bytes]
      rfl
    obtain ⟨⟨d', handler'⟩, hw, hview⟩ := consume_flatMap
      (fun s : OuchDecoder × H => (s.2, s.1.stats.unknown, s.1.stats.truncated)) (nextView on) hpos
      hstep ms _ (d, handler) (Nat.le_refl _)
    rw [foldl_nextView] at hview
    obtain ⟨rfl, hunknown, htruncated⟩ : _ ∧ _ ∧ _ := by simpa using hview
    exact ⟨d', hw, hunknown, htruncated⟩

end Decode

/-- **Encoding and decoding are inverse**, for the three inbound orders and for every outbound
message. -/
theorem codec_inverse {H : Type} (on : H → HandlerCall → H) :
    Inverse In.Enter.kLen EnterOrder.bytes encodeEnterOrder decodeEnterOrder ∧
    Inverse In.Replace.kLen ReplaceOrder.bytes encodeReplaceOrder decodeReplaceOrder ∧
    Inverse In.Cancel.kLen CancelOrder.bytes encodeCancelOrder decodeCancelOrder ∧
    OutInverse on :=
  ⟨enterOrder_inverse, replaceOrder_inverse, cancelOrder_inverse, outInverse on⟩

end Ouch
end Tickerplant
