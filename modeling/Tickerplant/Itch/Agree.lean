import Tickerplant.Itch.Decoder

/-!
# The two decoders are one function

Per message type, what the copying decoder normalises and dispatches is the call the zero-copy
decoder makes (`readCall_dispatch`), and neither reads past the length of the type
(`readCall_append`, `normalize_append`). So a decode of a buffer is a decode of its first message
(`decode_front`), the copy in the staging buffer is as good as the original, and the two decoders
answer alike on every stream (`decoders_agree`).

A buffer either holds a message at its front (`Holds`) or it does not (`Misses`), and then for one
of three reasons that the first byte and the length decide. Each decoder is described once for the
two cases, by what it answers and counts; agreement, and that only the front of a buffer is read,
are read off those descriptions without opening the decoders again.

The staging buffer still has bytes of an older, longer message behind the copy. They do no harm for
the same reason the rest of the receive buffer does none: nothing reads past the length of the
type.
-/

set_option autoImplicit false

namespace Tickerplant
namespace Itch

open Lib

/-! ## Streams -/

/-- Decode buffers one after another into one handler. What each decode answered and what
`*consumed` was after it. -/
def feed {D H : Type} (decode : D → List UInt8 → H → ℕ → Checked (Decoded D H)) :
    D → H → ℕ → List (List UInt8) → Checked (List (DecodeResult × ℕ) × D × H)
  | d, handler, _, [] => .ok ([], d, handler)
  | d, handler, consumed, msg :: msgs => do
    let r ← decode d msg handler consumed
    let rest ← feed decode r.decoder r.handler r.consumed msgs
    return ((r.result, r.consumed) :: rest.1, rest.2)

/-- One decode, and then the others. -/
theorem feed_cons {D H : Type} {decode : D → List UInt8 → H → ℕ → Checked (Decoded D H)}
    {d d' : D} {handler handler' : H} {consumed : ℕ} {msg : List UInt8} {msgs : List (List UInt8)}
    {r : Decoded D H} {answers : List (DecodeResult × ℕ)}
    (h : decode d msg handler consumed = .ok r)
    (hrest : feed decode r.decoder r.handler r.consumed msgs = .ok (answers, d', handler')) :
    feed decode d handler consumed (msg :: msgs) =
      .ok ((r.result, r.consumed) :: answers, d', handler') := by
  rw [feed, h]
  simp only [bind, Except.bind, hrest]
  rfl

/-! ## One message -/

/-- The two ways the source asks for a type. -/
theorem beq_F (type : UInt8) : (type == 'F'.toUInt8) = decide (Char.ofUInt8 type = 'F') := by
  rw [Bool.eq_iff_iff, beq_iff_eq, decide_eq_true_iff]
  exact (ofUInt8_eq_iff type 'F'.toUInt8).symm

section Message

variable {p t : List UInt8} {type : UInt8} {loc : UInt16} {ts : UInt64}

/-- A header is read from the first bytes. -/
theorem locate_append (h : kHeaderLen ≤ p.length) : locate (p ++ t) = locate p :=
  beLoad_append (by simp at h ⊢; omega)

theorem tracking_append (h : kHeaderLen ≤ p.length) : tracking (p ++ t) = tracking p :=
  beLoad_append (by simp at h ⊢; omega)

theorem timestamp_append (h : kHeaderLen ≤ p.length) : timestamp (p ++ t) = timestamp p := by
  simp only [kHeaderLen] at h
  unfold timestamp beLoadU48
  rw [beLoad_append (by simp; omega), beLoad_append (by simp; omega)]

/-- The header of a buffer that is long enough. -/
theorem header_ok (h : kHeaderLen ≤ p.length) :
    ∃ loc trk ts, locate p = .ok loc ∧ tracking p = .ok trk ∧ timestamp p = .ok ts := by
  simp only [kHeaderLen] at h
  have hts : timestamp p = .ok (((valueAt UInt32 p kOffTimestamp).toUInt64 <<< 16) |||
      (valueAt UInt16 p (kOffTimestamp + 4)).toUInt64) := by
    unfold timestamp beLoadU48
    rw [beLoad_eq (by simp; omega), beLoad_eq (by simp; omega)]
    rfl
  exact ⟨_, _, _, beLoad_eq (by simp; omega), beLoad_eq (by simp; omega), hts⟩

/-- The zero-copy switch stays inside the message. -/
theorem readCall_append (hk : messageLength type ≠ 0) (h : messageLength type ≤ p.length) :
    ZeroCopyDecoder.readCall (p ++ t) type loc ts = ZeroCopyDecoder.readCall p type loc ts := by
  unfold ZeroCopyDecoder.readCall
  unfold messageLength at h hk
  generalize Char.ofUInt8 type = c at *
  split at hk
  case h_24 => exact absurd rfl hk
  all_goals
    simp only at h
    simp (disch := (simp <;> omega)) only [charAt, stock, beLoad_append, slice_append]

/-- Normalising stays inside the message. -/
theorem normalize_append (hk : messageLength type ≠ 0) (h : messageLength type ≤ p.length) :
    CopyingDecoder.normalize (p ++ t) type = CopyingDecoder.normalize p type := by
  have hheader : kHeaderLen ≤ p.length := by
    have := (messageLength_bounds hk).1
    simp only [kHeaderLen]
    omega
  unfold CopyingDecoder.normalize
  rw [locate_append hheader, tracking_append hheader, timestamp_append hheader]
  unfold messageLength at h hk
  generalize Char.ofUInt8 type = c at *
  split at hk
  case h_24 => exact absurd rfl hk
  all_goals
    simp only at h
    simp (disch := (simp <;> omega)) only [charAt, CopyingDecoder.copyStock, beLoad_append,
      slice_append]

/-- **One message.** The call made from the normalised event is the one made from the buffer,
and neither read misses the buffer. -/
theorem readCall_dispatch (hk : messageLength type ≠ 0) (h : messageLength type ≤ p.length)
    (hloc : locate p = .ok loc) (hts : timestamp p = .ok ts) :
    ∃ e, CopyingDecoder.normalize p type = .ok e ∧
      ZeroCopyDecoder.readCall p type loc ts = .ok (CopyingDecoder.dispatch e) := by
  have hlen := (messageLength_bounds hk).1
  have htrk : tracking p = .ok (valueAt UInt16 p kOffTracking) := beLoad_eq (by simp; omega)
  unfold ZeroCopyDecoder.readCall CopyingDecoder.normalize
  rw [beq_F, hloc, hts, htrk]
  unfold messageLength at h hk
  split at hk
  case h_24 => exact absurd rfl hk
  all_goals
    rename_i hc
    rw [hc] at h ⊢
    simp only at h
    simp (disch := (simp <;> omega)) only [charAt, stock, CopyingDecoder.copyStock, beLoad_eq,
      slice_field, bind, Except.bind, pure, Except.pure]
    -- both have read every field: the event's type brings `dispatch` to the same branch
    refine ⟨_, rfl, ?_⟩
    unfold CopyingDecoder.dispatch
    rw [hc]
    rfl

end Message

/-! ## One decode -/

section Decode

variable {H : Type} (on : H → HandlerCall → H) (handler : H) (consumed : ℕ)

theorem msgType_cons (b : UInt8) (m : List UInt8) : msgType (b :: m) = .ok b := beLoad_cons b m

/-- A buffer that holds a message of its type at its front. -/
structure Holds (msg : List UInt8) (type : UInt8) (e : NormalizedEvent) : Prop where
  /-- The first byte is the type. -/
  type_eq : msgType msg = .ok type
  /-- It has a length. -/
  known : messageLength type ≠ 0
  /-- The buffer is that long. -/
  long : messageLength type ≤ msg.length
  /-- The message normalises to this, on its own. -/
  event : CopyingDecoder.normalize (msg.take (messageLength type)) type = .ok e

/-- Every buffer whose type is known and which is long enough for it holds a message. -/
theorem exists_holds {b : UInt8} {m : List UInt8} (hk : messageLength b ≠ 0)
    (hlen : messageLength b ≤ (b :: m).length) : ∃ e, Holds (b :: m) b e := by
  have htake : ((b :: m).take (messageLength b)).length = messageLength b := by
    rw [List.length_take]
    omega
  have hheader : kHeaderLen ≤ ((b :: m).take (messageLength b)).length := by
    have := (messageLength_bounds hk).1
    rw [htake, kHeaderLen]
    omega
  obtain ⟨loc, trk, ts, hloc, _, hts⟩ := header_ok hheader
  obtain ⟨e, he, _⟩ := readCall_dispatch hk (Nat.le_of_eq htake.symm) hloc hts
  exact ⟨e, msgType_cons b m, hk, hlen, he⟩

namespace Holds

variable {msg : List UInt8} {type : UInt8} {e : NormalizedEvent}

theorem length_take (h : Holds msg type e) :
    (msg.take (messageLength type)).length = messageLength type := by
  rw [List.length_take, Nat.min_eq_left h.long]

theorem ne_nil (h : Holds msg type e) : msg.isEmpty = false := by
  cases msg with
  | nil =>
    have := h.long
    have := h.known
    rw [List.length_nil] at *
    omega
  | cons b m => rfl

/-- Only the message matters. -/
theorem append (h : Holds msg type e) (t : List UInt8) : Holds (msg ++ t) type e := by
  have htake : (msg ++ t).take (messageLength type) = msg.take (messageLength type) :=
    List.take_append_of_le_length h.long
  refine ⟨?_, h.known, ?_, by rw [htake]; exact h.event⟩
  · cases msg with
    | nil => exact absurd h.ne_nil (by simp)
    | cons b m =>
      have hb := h.type_eq
      rw [msgType_cons] at hb
      rw [List.cons_append, msgType_cons]
      exact hb
  · rw [List.length_append]
    exact Nat.le_add_right_of_le h.long

/-- The call of a message. -/
theorem readCall (h : Holds msg type e) :
    ∃ loc ts, locate msg = .ok loc ∧ timestamp msg = .ok ts ∧
      ZeroCopyDecoder.readCall msg type loc ts = .ok (CopyingDecoder.dispatch e) := by
  have hlen := h.length_take
  have hheader : kHeaderLen ≤ (msg.take (messageLength type)).length := by
    have := (messageLength_bounds h.known).1
    rw [hlen, kHeaderLen]
    omega
  obtain ⟨loc, _, ts, hloc, _, hts⟩ := header_ok hheader
  obtain ⟨e', he', hcall⟩ := readCall_dispatch h.known (Nat.le_of_eq hlen.symm) hloc hts
  obtain rfl : e = e' := Except.ok.inj (h.event.symm.trans he')
  have hsplit : msg.take (messageLength type) ++ msg.drop (messageLength type) = msg :=
    List.take_append_drop _ msg
  rw [← hsplit]
  exact ⟨loc, ts, (locate_append hheader).trans hloc, (timestamp_append hheader).trans hts,
    (readCall_append h.known (Nat.le_of_eq hlen.symm)).trans hcall⟩

end Holds

/-- The counters after a decode that found no message. -/
def DecodeStats.missed (s : DecodeStats) : DecodeResult → DecodeStats
  | .ok => s
  | .truncated => { s with truncated := s.truncated + 1 }
  | .unknownType => { s with unknown := s.unknown + 1 }

/-- Why a buffer holds no message. -/
inductive Misses : List UInt8 → DecodeResult → Prop where
  | empty : Misses [] .truncated
  | unknown {b : UInt8} (m : List UInt8) : messageLength b = 0 → Misses (b :: m) .unknownType
  | short {b : UInt8} {m : List UInt8} : messageLength b ≠ 0 →
      (b :: m).length < messageLength b → Misses (b :: m) .truncated

/-- There is no third case. -/
theorem holds_or_misses (msg : List UInt8) :
    (∃ type e, Holds msg type e) ∨ ∃ r, Misses msg r := by
  cases msg with
  | nil => exact Or.inr ⟨_, .empty⟩
  | cons b m =>
    by_cases hk : messageLength b = 0
    · exact Or.inr ⟨_, .unknown m hk⟩
    · by_cases hlen : (b :: m).length < messageLength b
      · exact Or.inr ⟨_, .short hk hlen⟩
      · obtain ⟨e, he⟩ := exists_holds hk (Nat.not_lt.mp hlen)
        exact Or.inl ⟨b, e, he⟩

namespace ZeroCopyDecoder

variable (d : ZeroCopyDecoder) {msg : List UInt8}

theorem decode_holds {type : UInt8} {e : NormalizedEvent} (h : Holds msg type e) :
    d.decode on msg handler consumed = .ok
      { result := .ok, handler := on handler (CopyingDecoder.dispatch e)
        consumed := messageLength type
        decoder := { stats := d.stats.count type (messageLength type) } } := by
  obtain ⟨loc, ts, hloc, hts, hcall⟩ := h.readCall
  unfold decode
  simp only [h.ne_nil, h.type_eq, bind, Except.bind, h.known, Nat.not_lt.mpr h.long, hloc, hts,
    hcall, if_false, Bool.false_eq_true]
  rfl

theorem decode_misses {r : DecodeResult} (h : Misses msg r) :
    d.decode on msg handler consumed = .ok
      { result := r, handler := handler, consumed := consumed
        decoder := { stats := d.stats.missed r } } := by
  cases h with
  | empty => rfl
  | unknown m hk =>
    unfold decode
    simp only [List.isEmpty_cons, msgType_cons, bind, Except.bind, hk, if_true, if_false,
      Bool.false_eq_true]
    rfl
  | short hk hlen =>
    unfold decode
    simp only [List.isEmpty_cons, msgType_cons, bind, Except.bind, hk, hlen, if_true, if_false,
      Bool.false_eq_true]
    rfl

end ZeroCopyDecoder

/-- What fits the staging array stands at its front. -/
theorem Staging.copy_eq (s : Staging) {bytes : List UInt8} (h : bytes.length ≤ kMaxMessageLen) :
    ∃ s' rest, s.copy bytes = .ok s' ∧ s'.bytes = bytes ++ rest := by
  unfold Staging.copy
  rw [dif_pos h]
  exact ⟨_, _, rfl, rfl⟩

namespace CopyingDecoder

variable (d : CopyingDecoder) {msg : List UInt8}

theorem decode_holds {type : UInt8} {e : NormalizedEvent} (h : Holds msg type e) :
    ∃ staging, d.staging.copy (msg.take (messageLength type)) = .ok staging ∧
      d.decode on msg handler consumed = .ok
      { result := .ok, handler := on handler (dispatch e), consumed := messageLength type
        decoder := { staging := staging, event := e
                     stats := d.stats.count type (messageLength type) } } := by
  have hslice : slice msg 0 (messageLength type) = .ok (msg.take (messageLength type)) :=
    slice_field (by rw [Nat.zero_add]; exact h.long)
  obtain ⟨staging, rest, hcopy, hbytes⟩ := d.staging.copy_eq
    (h.length_take.trans_le (messageLength_bounds h.known).2)
  -- what the staging array held before lies behind the message
  have hnorm : normalize staging.bytes type = .ok e := by
    rw [hbytes, normalize_append h.known (Nat.le_of_eq h.length_take.symm)]
    exact h.event
  refine ⟨staging, hcopy, ?_⟩
  unfold decode
  simp only [h.ne_nil, h.type_eq, bind, Except.bind, h.known, Nat.not_lt.mpr h.long, hslice, hcopy,
    hnorm, if_false, Bool.false_eq_true]
  rfl

theorem decode_misses {r : DecodeResult} (h : Misses msg r) :
    d.decode on msg handler consumed = .ok
      { result := r, handler := handler, consumed := consumed
        decoder := { d with stats := d.stats.missed r } } := by
  cases h with
  | empty => rfl
  | unknown m hk =>
    unfold decode
    simp only [List.isEmpty_cons, msgType_cons, bind, Except.bind, hk, if_true, if_false,
      Bool.false_eq_true]
    rfl
  | short hk hlen =>
    unfold decode
    simp only [List.isEmpty_cons, msgType_cons, bind, Except.bind, hk, hlen, if_true, if_false,
      Bool.false_eq_true]
    rfl

end CopyingDecoder

/-! ## Streams, and how far a decode reads -/

/-- The front of a buffer: the message its type byte announces, or that byte alone. -/
def front (msg : List UInt8) : List UInt8 := msg.take (max 1 (messageLength (msg.headD 0)))

/-- A buffer and its front hold the same message, or miss one for the same reason. -/
theorem front_spec (msg : List UInt8) :
    (∃ type e, Holds msg type e ∧ Holds (front msg) type e ∧
        (front msg).take (messageLength type) = msg.take (messageLength type)) ∨
      ∃ r, Misses msg r ∧ Misses (front msg) r := by
  cases msg with
  | nil => exact Or.inr ⟨_, .empty, .empty⟩
  | cons b m =>
    obtain ⟨k, hk⟩ : ∃ k, max 1 (messageLength b) = k + 1 :=
      ⟨max 1 (messageLength b) - 1, by omega⟩
    have hfront : front (b :: m) = b :: m.take k := by
      unfold front
      rw [List.headD_cons, hk, List.take_succ_cons]
    have hback : front (b :: m) ++ m.drop k = b :: m := by
      rw [hfront, List.cons_append, List.take_append_drop]
    rw [hfront] at hback ⊢
    by_cases hzero : messageLength b = 0
    · exact Or.inr ⟨_, .unknown m hzero, .unknown _ hzero⟩
    · by_cases hlen : (b :: m).length < messageLength b
      · refine Or.inr ⟨_, .short hzero hlen, .short hzero ?_⟩
        rw [List.length_cons, List.length_take] at *
        omega
      · have hlong : messageLength b ≤ (b :: m.take k).length := by
          rw [List.length_cons, List.length_take] at *
          omega
        obtain ⟨e, he⟩ := exists_holds hzero hlong
        have hall := he.append (m.drop k)
        rw [hback] at hall
        exact Or.inl ⟨b, e, hall, he, by
          rw [← hback, List.take_append_of_le_length hlong]⟩

/-- Both decoders on one stream, from any decoders that have counted alike. -/
theorem feed_agree (msgs : List (List UInt8)) (staging : Staging) (event : NormalizedEvent)
    (stats : DecodeStats) :
    ∃ answers staging' event' stats' handler',
      feed (ZeroCopyDecoder.decode on) { stats := stats } handler consumed msgs =
        .ok (answers, { stats := stats' }, handler') ∧
      feed (CopyingDecoder.decode on) { staging := staging, event := event, stats := stats }
        handler consumed msgs =
        .ok (answers, { staging := staging', event := event', stats := stats' }, handler') := by
  induction msgs generalizing handler consumed staging event stats with
  | nil => exact ⟨[], staging, event, stats, handler, rfl, rfl⟩
  | cons msg msgs ih =>
    rcases holds_or_misses msg with ⟨type, e, h⟩ | ⟨r, h⟩
    · have hz := ZeroCopyDecoder.decode_holds on handler consumed { stats := stats } h
      obtain ⟨staging1, _, hc⟩ := CopyingDecoder.decode_holds on handler consumed
        { staging := staging, event := event, stats := stats } h
      obtain ⟨answers, staging', event', stats', handler', hz', hc'⟩ :=
        ih (on handler (CopyingDecoder.dispatch e)) (messageLength type) staging1 e
          (stats.count type (messageLength type))
      exact ⟨_, staging', event', stats', handler', feed_cons hz hz', feed_cons hc hc'⟩
    · have hz := ZeroCopyDecoder.decode_misses on handler consumed { stats := stats } h
      have hc := CopyingDecoder.decode_misses on handler consumed
        { staging := staging, event := event, stats := stats } h
      obtain ⟨answers, staging', event', stats', handler', hz', hc'⟩ :=
        ih handler consumed staging event (stats.missed r)
      exact ⟨_, staging', event', stats', handler', feed_cons hz hz', feed_cons hc hc'⟩

/-- A decode reads the front of its buffer. -/
theorem ZeroCopyDecoder.decode_front (d : ZeroCopyDecoder) (msg : List UInt8) :
    d.decode on (front msg) handler consumed = d.decode on msg handler consumed := by
  rcases front_spec msg with ⟨type, e, h, hf, _⟩ | ⟨r, h, hf⟩
  · rw [d.decode_holds on handler consumed h, d.decode_holds on handler consumed hf]
  · rw [d.decode_misses on handler consumed h, d.decode_misses on handler consumed hf]

theorem CopyingDecoder.decode_front (d : CopyingDecoder) (msg : List UInt8) :
    d.decode on (front msg) handler consumed = d.decode on msg handler consumed := by
  rcases front_spec msg with ⟨type, e, h, hf, htake⟩ | ⟨r, h, hf⟩
  · obtain ⟨staging, hcopy, hd⟩ := d.decode_holds on handler consumed h
    obtain ⟨staging', hcopy', hd'⟩ := d.decode_holds on handler consumed hf
    rw [htake, hcopy] at hcopy'
    rw [hd, hd', Except.ok.inj hcopy']
  · rw [d.decode_misses on handler consumed h, d.decode_misses on handler consumed hf]

end Decode

/-- **The two decoders are the same function.** On every stream of buffers, from any decoders that
have counted alike, they give the same answers and consumed lengths, leave every handler in the
same state, and count alike. Neither leaves a buffer, and each decode is the decode of the front of
its buffer: the message its type announces, or the type byte alone where the type is not known. -/
theorem decoders_agree {H : Type} (on : H → HandlerCall → H) (handler : H) (consumed : ℕ)
    (staging : Staging) (event : NormalizedEvent) (stats : DecodeStats) :
    (∀ msgs : List (List UInt8), ∃ answers staging' event' stats' handler',
      feed (ZeroCopyDecoder.decode on) { stats := stats } handler consumed msgs =
        .ok (answers, { stats := stats' }, handler') ∧
      feed (CopyingDecoder.decode on) { staging := staging, event := event, stats := stats }
        handler consumed msgs =
        .ok (answers, { staging := staging', event := event', stats := stats' }, handler')) ∧
    (∀ (d : ZeroCopyDecoder) (msg : List UInt8),
      d.decode on (front msg) handler consumed = d.decode on msg handler consumed) ∧
    ∀ (d : CopyingDecoder) (msg : List UInt8),
      d.decode on (front msg) handler consumed = d.decode on msg handler consumed :=
  ⟨fun msgs => feed_agree on handler consumed msgs staging event stats,
    ZeroCopyDecoder.decode_front on handler consumed,
    CopyingDecoder.decode_front on handler consumed⟩

end Itch
end Tickerplant
