import Tickerplant.Itch.Agree
import Tickerplant.Itch.Writer
import Tickerplant.Mold.Builder

/-!
# What is written is what is read

A written message holds at the front of whatever follows it (`Message.holds`), and the call it
makes is the one with the values that were written (`Message.call`): a timestamp keeps six bytes, a
ticker eight characters without the padding, a cross four of the eight bytes of its shares. A list
of messages is read back from the stream of their bytes, from the framed stream, and one buffer at
a time.

These three losses are all there are, and they are the format's. The writer takes a ticker of any
length and a timestamp of 64 bits; what the field cannot hold is cut off when it is written, and
`Message.call` says by how much.

The proofs are about bytes once, in `readCall_bytes`, where each field is found at the offset it
was written at. From there on a message is something that a buffer `Holds`, and what `Itch/Agree`
says of both decoders applies (`Reads`). A stream of messages is then taken apart by `consume` of
the library, each decode starting where the one before said it ended.
-/

set_option autoImplicit false

namespace Tickerplant
namespace Itch

open Lib

/-- The call a written message makes. -/
def Message.call : Message → HandlerCall
  | .systemEvent _ _ ts code => .onSystemEvent (ts % 0x1000000000000) code
  | .stockDirectory loc _ ts f =>
    .onStockDirectory loc (ts % 0x1000000000000) (trim (f.stock.take kStockLen)) f.roundLotSize
  | .tradingAction loc _ ts _ state _ => .onTradingAction loc (ts % 0x1000000000000) state
  | .addOrder loc _ ts ref side shares _ price =>
    .onAdd loc (ts % 0x1000000000000) ref side shares price false
  | .addOrderMpid loc _ ts ref side shares _ price _ =>
    .onAdd loc (ts % 0x1000000000000) ref side shares price true
  | .orderExecuted loc _ ts ref shares matchNo =>
    .onExecute loc (ts % 0x1000000000000) ref shares matchNo
  | .orderExecutedPrice loc _ ts ref shares matchNo printable price =>
    .onExecutePrice loc (ts % 0x1000000000000) ref shares matchNo printable price
  | .orderCancel loc _ ts ref shares => .onCancel loc (ts % 0x1000000000000) ref shares
  | .orderDelete loc _ ts ref => .onDelete loc (ts % 0x1000000000000) ref
  | .orderReplace loc _ ts oldRef newRef shares price =>
    .onReplace loc (ts % 0x1000000000000) oldRef newRef shares price
  | .trade loc _ ts ref side shares _ price matchNo =>
    .onTrade loc (ts % 0x1000000000000) ref side shares price matchNo
  | .crossTrade loc _ ts shares _ price matchNo crossType =>
    .onCrossTrade loc (ts % 0x1000000000000) shares.toUInt32 price matchNo crossType
  | .brokenTrade loc _ ts matchNo => .onBrokenTrade loc (ts % 0x1000000000000) matchNo

/-! ## Reading one message back -/

/-- Four bytes and two are six. -/
theorem u48_join (v : UInt64) :
    ((v >>> 16).toUInt32.toUInt64 <<< 16) ||| (v &&& 0xFFFF).toUInt16.toUInt64 =
    v % 0x1000000000000 := by
  have hlow : (v &&& 0xFFFF).toUInt16.toUInt64.toNat = v.toNat % 2 ^ 16 := by
    have hmask : (0xFFFF : UInt64).toNat = 2 ^ 16 - 1 := rfl
    rw [UInt16.toNat_toUInt64, UInt64.toNat_toUInt16, UInt64.toNat_and, hmask,
      Nat.and_two_pow_sub_one_eq_mod, Nat.mod_mod]
  have hhigh : ((v >>> 16).toUInt32.toUInt64 <<< 16).toNat =
      v.toNat / 2 ^ 16 % 2 ^ 32 * 2 ^ 16 := by
    have h16 : (16 : UInt64).toNat % 64 = 16 := rfl
    rw [UInt64.toNat_shiftLeft, UInt32.toNat_toUInt64, UInt64.toNat_toUInt32,
      UInt64.toNat_shiftRight, h16, Nat.shiftRight_eq_div_pow, Nat.shiftLeft_eq]
    omega
  rw [← UInt64.toNat_inj, UInt64.toNat_or, hlow, hhigh, UInt64.toNat_mod, Nat.mul_comm,
    ← Nat.two_pow_add_eq_or_of_lt (Nat.mod_lt _ (by decide))]
  have hsix : (0x1000000000000 : UInt64).toNat = 2 ^ 48 := rfl
  rw [hsix]
  omega

section Read

variable (m : Message) (rest : List UInt8)

/-- The first byte is the type. -/
theorem msgType_bytes : msgType (m.bytes ++ rest) = .ok m.type := by
  unfold msgType charAt Message.bytes headerBytes
  simp only [List.append_assoc]
  exact beLoad_here m.type

/-- The header is where it was written. -/
theorem locate_bytes : locate (m.bytes ++ rest) = .ok m.locate := by
  unfold locate Message.bytes headerBytes
  simp only [List.append_assoc]
  rw [beLoad_skip (by simp)]
  exact beLoad_here m.locate

/-- Of the time, six bytes. -/
theorem timestamp_bytes :
    timestamp (m.bytes ++ rest) = .ok (m.timestamp % 0x1000000000000) := by
  unfold timestamp beLoadU48 Message.bytes headerBytes u48Bytes
  simp (disch := simp) only [List.append_assoc, beLoad_skip, length_bytesOf, size_u8, size_u16,
    size_u32, kOffTimestamp, Nat.reduceSub, Nat.reduceAdd, beLoad_here, bind, Except.bind]
  rw [u48_join]
  rfl

/-- A padded field, cut out again. -/
theorem slice_padTo (w : ℕ) (s t : List UInt8) : slice (padTo w s ++ t) 0 w = .ok (padTo w s) :=
  slice_here (length_padTo w s)

/-- Trimming by length and trimming are one. -/
theorem trim_eq {s : List UInt8} {n : ℕ} (h : s.length = n) : s.take (trimLen s n) = trim s := by
  subst h
  rfl

/-- **One message read back**: every field is where its writer put it. -/
theorem readCall_bytes : ZeroCopyDecoder.readCall (m.bytes ++ rest) m.type m.locate
    (m.timestamp % 0x1000000000000) = .ok m.call := by
  unfold ZeroCopyDecoder.readCall Message.bytes
  cases m
  all_goals
    simp only [Message.type]
    rw [ofUInt8_toUInt8 (by decide)]
    simp [Message.body, Message.call, Message.locate, Message.timestamp, charAt, stock,
      beLoad_skip, beLoad_here, slice_skip, slice_padTo, bind, Except.bind, pure, Except.pure]
  case stockDirectory f =>
    rw [trim_eq (length_padTo 8 f.stock), trim_padTo]
  case orderExecutedPrice printable _ =>
    cases printable <;> rfl

/-- What has a writer has a length. -/
theorem length_type : messageLength m.type ≠ 0 := by
  have h := m.length_bytes
  unfold Message.bytes at h
  rw [List.length_append, length_headerBytes] at h
  omega

/-- A written message is at the front of whatever follows it. -/
theorem Message.holds :
    ∃ e, Holds (m.bytes ++ rest) m.type e ∧ CopyingDecoder.dispatch e = m.call := by
  have hlen := m.length_bytes
  have hk := length_type m
  have htype := msgType_bytes m []
  rw [List.append_nil] at htype
  obtain ⟨e, he⟩ : ∃ e, Holds m.bytes m.type e := by
    cases hb : m.bytes with
    | nil =>
      rw [hb, List.length_nil] at hlen
      exact absurd hlen.symm hk
    | cons b bytes =>
      rw [hb, msgType_cons] at htype
      obtain rfl := Except.ok.inj htype
      exact exists_holds hk (Nat.le_of_eq (hlen.symm.trans (congrArg List.length hb)))
  have h := he.append rest
  obtain ⟨loc, ts, hloc, hts, hcall⟩ := h.readCall
  obtain rfl := Except.ok.inj ((locate_bytes m rest).symm.trans hloc)
  obtain rfl := Except.ok.inj ((timestamp_bytes m rest).symm.trans hts)
  exact ⟨e, h, Except.ok.inj (hcall.symm.trans (readCall_bytes m rest))⟩

end Read

/-! ## Streams -/

/-- One decode, and how far it went. -/
def decodeStep {D H : Type} (decode : D → List UInt8 → H → ℕ → Checked (Decoded D H)) (s : D × H)
    (buf : List UInt8) : Checked ((D × H) × Option ℕ) := do
  let r ← decode s.1 buf s.2 0
  return ((r.decoder, r.handler), if r.result = .ok then some r.consumed else none)

/-- Decode what a buffer holds, message after message, each starting where `consumed` says the one
before ended. What is left in the buffer when no message is found. -/
def decodeAll {D H : Type} (decode : D → List UInt8 → H → ℕ → Checked (Decoded D H)) (d : D)
    (handler : H) (buf : List UInt8) : Checked ((D × H) × List UInt8) :=
  consume (decodeStep decode) buf.length (d, handler) buf

section Streams

variable {D H : Type} {on : H → HandlerCall → H}
  {decode : D → List UInt8 → H → ℕ → Checked (Decoded D H)}

/-- A decoder that makes the call of the message a buffer holds. -/
def Reads (on : H → HandlerCall → H)
    (decode : D → List UInt8 → H → ℕ → Checked (Decoded D H)) : Prop :=
  ∀ (d : D) (msg : List UInt8) (handler : H) (consumed : ℕ) (type : UInt8) (e : NormalizedEvent),
    Holds msg type e → ∃ d', decode d msg handler consumed = .ok
      { result := .ok, decoder := d', handler := on handler (CopyingDecoder.dispatch e)
        consumed := messageLength type }

/-- The zero-copy decoder. -/
theorem ZeroCopyDecoder.reads : Reads on (ZeroCopyDecoder.decode on) :=
  fun d _ handler consumed _ _ h => ⟨_, d.decode_holds on handler consumed h⟩

/-- The copying decoder. -/
theorem CopyingDecoder.reads : Reads on (CopyingDecoder.decode on) := by
  intro d msg handler consumed type e h
  obtain ⟨staging, _, hd⟩ := d.decode_holds on handler consumed h
  exact ⟨_, hd⟩

/-- A written message in front of anything. -/
theorem Reads.message (hr : Reads on decode) (m : Message) (rest : List UInt8) (d : D)
    (handler : H) (consumed : ℕ) :
    ∃ d', decode d (m.bytes ++ rest) handler consumed = .ok
      { result := .ok, decoder := d', handler := on handler m.call
        consumed := messageLength m.type } := by
  obtain ⟨e, he, hcall⟩ := m.holds rest
  obtain ⟨d', hd⟩ := hr d _ handler consumed _ _ he
  rw [hcall] at hd
  exact ⟨d', hd⟩

/-- The calls of a list of messages, in their order. -/
def calls (on : H → HandlerCall → H) (handler : H) (ms : List Message) : H :=
  ms.foldl (fun handler m => on handler m.call) handler

/-- The stream of the messages' bytes. -/
theorem Reads.stream (hr : Reads on decode) (ms : List Message) (d : D) (handler : H) :
    ∃ d', decodeAll decode d handler (ms.flatMap Message.bytes) =
      .ok ((d', calls on handler ms), []) := by
  have hpos : ∀ m : Message, 0 < m.bytes.length := fun m =>
    Nat.pos_of_ne_zero (m.length_bytes ▸ length_type m)
  have hstep : ∀ (s : D × H) (m : Message) (rest : List UInt8), ∃ s',
      decodeStep decode s (m.bytes ++ rest) = .ok (s', some m.bytes.length) ∧
        s'.2 = on s.2 m.call := by
    intro s m rest
    obtain ⟨d1, hd⟩ := hr.message m rest s.1 s.2 0
    refine ⟨(d1, on s.2 m.call), ?_, rfl⟩
    unfold decodeStep
    rw [hd, m.length_bytes]
    rfl
  obtain ⟨⟨d', handler'⟩, hw, rfl⟩ := consume_flatMap Prod.snd (fun handler m => on handler m.call)
    hpos hstep ms _ (d, handler) (Nat.le_refl _)
  exact ⟨d', hw⟩

/-- One buffer at a time. -/
theorem Reads.feed (hr : Reads on decode) : ∀ (ms : List Message) (d : D) (handler : H)
    (consumed : ℕ), ∃ d', Itch.feed decode d handler consumed (ms.map Message.bytes) =
      .ok (ms.map fun m => (.ok, messageLength m.type), d', calls on handler ms) := by
  intro ms
  induction ms with
  | nil => exact fun d _ _ => ⟨d, rfl⟩
  | cons m ms ih =>
    intro d handler consumed
    obtain ⟨d1, hd⟩ := hr.message m [] d handler consumed
    rw [List.append_nil] at hd
    obtain ⟨d', hf⟩ := ih d1 (on handler m.call) (messageLength m.type)
    exact ⟨d', feed_cons hd hf⟩

/-- Reading back what was written: a message at the front of a buffer, a buffer of messages, and
framed messages. -/
structure ReadsBack (on : H → HandlerCall → H)
    (decode : D → List UInt8 → H → ℕ → Checked (Decoded D H)) : Prop where
  /-- One message, whatever is behind it. -/
  message (m : Message) (rest : List UInt8) (d : D) (handler : H) (consumed : ℕ) :
    ∃ d', decode d (m.bytes ++ rest) handler consumed = .ok
      { result := .ok, decoder := d', handler := on handler m.call
        consumed := messageLength m.type }
  /-- Messages one behind another. -/
  stream (ms : List Message) (d : D) (handler : H) :
    ∃ d', decodeAll decode d handler (ms.flatMap Message.bytes) =
      .ok ((d', calls on handler ms), [])
  /-- Messages with their lengths in front. -/
  framed (ms : List Message) (d : D) (handler : H) (consumed : ℕ) :
    ∃ d' bufs, Mold.splitBlocks ms.length (ms.flatMap fun m => Mold.block m.bytes) = some bufs ∧
      Itch.feed decode d handler consumed bufs =
        .ok (ms.map fun m => (.ok, messageLength m.type), d', calls on handler ms)

/-- All three, from one decode. -/
theorem Reads.back (hr : Reads on decode) : ReadsBack on decode where
  message := hr.message
  stream := hr.stream
  framed ms d handler consumed := by
    obtain ⟨d', hf⟩ := hr.feed ms d handler consumed
    have hnarrow : ∀ b ∈ ms.map Message.bytes, b.length ≤ 0xFFFF := by
      intro b hb
      obtain ⟨m, _, rfl⟩ := List.mem_map.mp hb
      have hbound := (messageLength_bounds (length_type m)).2
      rw [m.length_bytes]
      exact hbound.trans (by decide)
    have hsplit := Mold.splitBlocks_flatMap hnarrow
    rw [List.length_map, List.flatMap_map] at hsplit
    exact ⟨d', _, hsplit, hf⟩

end Streams

/-- A framed message is a length-prefixed block. -/
theorem writeFramed_spec (m : Message) {out : List UInt8}
    (h : kFrameLen + messageLength m.type ≤ out.length) :
    writeFramed out m.write = .ok (kFrameLen + messageLength m.type,
      fill out (Mold.block m.bytes)) := by
  unfold kFrameLen at h
  have hbody : messageLength m.type ≤ (out.drop kFrameLen).length := by
    rw [List.length_drop, kFrameLen]
    omega
  have hbound := (messageLength_bounds (length_type m)).2
  have hlen : bytesOf (UInt16.ofNat (messageLength m.type)) = be 2 (messageLength m.type) := by
    have hnarrow : messageLength m.type < 2 ^ 16 := Nat.lt_of_le_of_lt hbound (by decide)
    show be 2 (UInt16.ofNat (messageLength m.type)).toNat = _
    rw [UInt16.toNat_ofNat_of_lt' hnarrow]
  have htake : (out.take kFrameLen).length = 2 := by
    rw [List.length_take, kFrameLen]
    omega
  have hstore : beStore (out.take kFrameLen ++ fill (out.drop kFrameLen) m.bytes) 0
      (UInt16.ofNat (messageLength m.type)) = .ok (fill out (Mold.block m.bytes)) := by
    unfold beStore store
    rw [hlen, length_be, if_pos (by rw [List.length_append, htake]; omega), List.take_zero,
      Nat.zero_add, List.drop_left' htake]
    unfold fill Mold.block
    rw [List.length_append, length_be, m.length_bytes, List.drop_drop]
    simp only [List.nil_append, List.append_assoc, kFrameLen]
  unfold writeFramed
  simp only [write_spec m hbody, bind, Except.bind, frame, hstore]
  rfl

/-- **The writers and the decoders agree.** Every writer writes the bytes of its message, as many
as its type says, in front of a buffer or of a frame's body and nowhere else; and both decoders
read every message, every buffer of messages and every list of framed messages back as the calls
with the values written. -/
theorem writers_decoders_agree {H : Type} (on : H → HandlerCall → H) :
    (∀ m : Message, m.bytes.length = messageLength m.type ∧
      (∀ out : List UInt8, messageLength m.type ≤ out.length →
        m.write out = .ok (messageLength m.type, m.bytes ++ out.drop (messageLength m.type))) ∧
      ∀ out : List UInt8, kFrameLen + messageLength m.type ≤ out.length →
        writeFramed out m.write = .ok (kFrameLen + messageLength m.type,
          Mold.block m.bytes ++ out.drop (kFrameLen + messageLength m.type))) ∧
    ReadsBack on (ZeroCopyDecoder.decode on) ∧ ReadsBack on (CopyingDecoder.decode on) := by
  refine ⟨fun m => ⟨m.length_bytes, fun out h => ?_, fun out h => ?_⟩,
    ZeroCopyDecoder.reads.back, CopyingDecoder.reads.back⟩
  · rw [write_spec m h, fill, m.length_bytes]
  · have hlen : (Mold.block m.bytes).length = kFrameLen + messageLength m.type := by
      unfold Mold.block
      rw [List.length_append, length_be, m.length_bytes]
      rfl
    rw [writeFramed_spec m h, fill, hlen]

end Itch
end Tickerplant
