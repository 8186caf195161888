import Tickerplant.Lib.Record
import Tickerplant.Mold.View

/-!
# Writing a MoldUDP64 packet (`PacketBuilder`)

The builder fills a buffer the caller owns: a header with a count of zero, then one block for each
message that fits, and the true count stamped into the header when the packet is finished.
`Building` is its invariant: the first `size` bytes of the buffer are a header and the blocks
appended so far. A finished packet is `frame` of them, and a frame is read back as what was framed
(`viewOf_frame`, `messages_frame`).

The buffer keeps what an older packet left behind `size`, so that nothing can be said of the buffer
as a whole. The invariant speaks of its front, and each store is known by the front it leaves
(`store_spec` of the library).

Two callers use the builder, and differently. One offers messages and goes on with the next packet
at the first that is refused; the other wants all of a list in one packet or nothing. Both are
`offerAll`, since a refusal changes nothing (`tryAppend_spec`), and what `appendAll` does is
derived from it.
-/

set_option autoImplicit false

namespace Tickerplant
namespace Mold

open Lib

/-- A session cut or space padded to its field. -/
def padSession (session : List UInt8) : List UInt8 := padTo kSessionLen session

/-- `write_header`: the length written, zero when the buffer cannot hold a header. -/
def writeHeader (buf session : List UInt8) (sequence : UInt64) (count : UInt16) :
    Checked (ℕ × List UInt8) :=
  if buf.length < kHeaderLen then .ok (0, buf)
  else do
    let buf ← store buf kOffSession (padSession session)
    let buf ← store buf kOffSequence (be 8 sequence.toNat)
    let buf ← store buf kOffCount (be 2 count.toNat)
    return (kHeaderLen, buf)

/-- The members. `size` is zero when the buffer is too short even for a header, and then nothing is
ever appended. -/
structure PacketBuilder where
  buf : List UInt8
  session : List UInt8
  size : ℕ
  count : UInt16
  deriving DecidableEq, Repr

namespace PacketBuilder

/-- `reset(first_sequence)`: the header is written in full, so that a buffer used before cannot
keep an old count. -/
def reset (b : PacketBuilder) (firstSequence : UInt64) : Checked PacketBuilder := do
  let (size, buf) ← writeHeader b.buf b.session firstSequence 0
  return { b with size := size, buf := buf, count := 0 }

/-- `PacketBuilder(buf, cap, session)`. -/
def make (buf session : List UInt8) : Checked PacketBuilder :=
  reset { buf := buf, session := padSession session, size := 0, count := 0 } 0

/-- The flag says the message was appended. -/
def tryAppend (b : PacketBuilder) (msg : List UInt8) : Checked (Bool × PacketBuilder) :=
  if b.size = 0 then .ok (false, b)
  else if kMaxCount ≤ b.count then .ok (false, b)
  else if msg.length > 0xFFFF then .ok (false, b)
  else
    let need := kBlockLenBytes + msg.length
    if b.buf.length - b.size < need then .ok (false, b)
    else do
      let buf ← store b.buf b.size (be 2 msg.length)
      let buf ← store buf (b.size + kBlockLenBytes) msg
      return (true, { b with buf := buf, size := b.size + need, count := b.count + 1 })

/-- The finished packet: the first `size` bytes, with the count stamped in. -/
def finish (b : PacketBuilder) : Checked (List UInt8) :=
  if b.size = 0 then .ok []
  else do
    let buf ← store b.buf kOffCount (be 2 b.count.toNat)
    return buf.take b.size

/-- Offer messages one after another. The first component is those that were appended. -/
def offerAll (b : PacketBuilder) : List (List UInt8) → Checked (List (List UInt8) × PacketBuilder)
  | [] => .ok ([], b)
  | m :: msgs => do
    let (appended, b) ← b.tryAppend m
    let (taken, b) ← offerAll b msgs
    return (if appended then m :: taken else taken, b)

end PacketBuilder

/-! ## Frames -/

/-- One length-prefixed block. -/
def block (msg : List UInt8) : List UInt8 := be 2 msg.length ++ msg

/-- Twenty bytes of header. -/
def header (session : List UInt8) (sequence : UInt64) (count : UInt16) : List UInt8 :=
  session ++ be 8 sequence.toNat ++ be 2 count.toNat

/-- A header and its blocks. -/
def frame (session : List UInt8) (sequence : UInt64) (msgs : List (List UInt8)) : List UInt8 :=
  header session sequence (UInt16.ofNat msgs.length) ++ msgs.flatMap block

/-- A session fills its field. -/
theorem length_padSession (session : List UInt8) : (padSession session).length = kSessionLen :=
  length_padTo _ _

/-- Two bytes more than the message. -/
theorem length_block (msg : List UInt8) : (block msg).length = kBlockLenBytes + msg.length := by
  unfold block kBlockLenBytes
  rw [List.length_append, length_be]

section Frame

variable {session : List UInt8} {sequence : UInt64} {msgs : List (List UInt8)} {count : UInt16}

/-- Twenty bytes. -/
theorem length_header (hs : session.length = kSessionLen) :
    (header session sequence count).length = kHeaderLen := by
  unfold header
  rw [List.length_append, List.length_append, length_be, length_be, hs]
  rfl

/-- The fields of a header come back. -/
theorem headerOf_header (hs : session.length = kSessionLen) (rest : List UInt8) :
    headerOf (header session sequence count ++ rest)
      = { session := session, sequence := sequence, count := count } := by
  unfold headerOf header
  have h10 : kOffSequence = session.length := hs.symm
  have h18 : kOffCount = (session ++ be 8 sequence.toNat).length := by
    rw [List.length_append, length_be, hs]
    rfl
  -- each field is cut out of the four pieces at the length of those before it
  have hseq :
      (((session ++ be 8 sequence.toNat ++ be 2 count.toNat ++ rest).drop kOffSequence).take 8)
        = be 8 sequence.toNat := by
    rw [List.append_assoc, List.append_assoc, h10, List.drop_left]
    conv => lhs; arg 1; rw [← length_be 8 sequence.toNat]
    rw [List.take_left]
  have hcount :
      (((session ++ be 8 sequence.toNat ++ be 2 count.toNat ++ rest).drop kOffCount).take 2)
        = be 2 count.toNat := by
    rw [List.append_assoc (session ++ be 8 sequence.toNat), h18, List.drop_left]
    conv => lhs; arg 1; rw [← length_be 2 count.toNat]
    rw [List.take_left]
  have hsession : (session ++ be 8 sequence.toNat ++ be 2 count.toNat ++ rest).take kSessionLen
      = session := by
    rw [List.append_assoc, List.append_assoc, ← hs, List.take_left]
  have h64 : sequence.toNat < 256 ^ 8 := by
    have := sequence.toNat_lt
    norm_num at this ⊢
    omega
  have h16 : count.toNat < 256 ^ 2 := by
    have := count.toNat_lt
    norm_num at this ⊢
    omega
  rw [hseq, hcount, hsession, ofBe_be_of_lt h64, ofBe_be_of_lt h16, UInt64.ofNat_toNat,
    UInt16.ofNat_toNat]

/-- The blocks of a list of messages split back into it. -/
theorem splitBlocks_flatMap (hlen : ∀ m ∈ msgs, m.length ≤ 0xFFFF) :
    splitBlocks msgs.length (msgs.flatMap block) = some msgs := by
  induction msgs with
  | nil => rfl
  | cons m msgs ih =>
    have hm := hlen m List.mem_cons_self
    have htake : (block m ++ msgs.flatMap block).take 2 = be 2 m.length := by
      unfold block
      rw [List.append_assoc]
      conv => lhs; arg 1; rw [← length_be 2 m.length]
      rw [List.take_left]
    have hdrop : (block m ++ msgs.flatMap block).drop 2 = m ++ msgs.flatMap block := by
      unfold block
      rw [List.append_assoc]
      conv => lhs; arg 1; rw [← length_be 2 m.length]
      rw [List.drop_left]
    -- two bytes hold the length
    have hbe : ofBe (be 2 m.length) = m.length := ofBe_be_of_lt (by norm_num; omega)
    have hlong : ¬ (block m ++ msgs.flatMap block).length < 2 := by
      rw [List.length_append, length_block]
      unfold kBlockLenBytes
      omega
    have hrest : ¬ (m ++ msgs.flatMap block).length < m.length := by
      rw [List.length_append]
      omega
    rw [List.flatMap_cons, List.length_cons, splitBlocks]
    unfold kBlockLenBytes
    simp only [if_neg hlong, htake, hdrop, hbe, if_neg hrest]
    rw [List.drop_left, List.take_left, ih (fun x hx => hlen x (List.mem_cons_of_mem _ hx))]
    rfl

/-- **A frame is accepted**, as the header and the number of blocks it was made of. -/
theorem viewOf_frame (hs : session.length = kSessionLen) (hn : msgs.length ≤ 0xFFFE)
    (hlen : ∀ m ∈ msgs, m.length ≤ 0xFFFF) :
    viewOf (frame session sequence msgs) = some {
      pkt := frame session sequence msgs
      hdr := { session := session, sequence := sequence, count := UInt16.ofNat msgs.length }
      blocks := msgs.length } := by
  have hcount : (UInt16.ofNat msgs.length).toNat = msgs.length := by
    rw [UInt16.toNat_ofNat', Nat.mod_eq_of_lt (by omega)]
  -- few enough messages are not taken for the end of the session
  have hend : ¬ UInt16.ofNat msgs.length = kEndOfSession := by
    intro h
    have := congrArg UInt16.toNat h
    rw [hcount] at this
    have hk : kEndOfSession.toNat = 0xFFFF := rfl
    omega
  have hshort : ¬ (frame session sequence msgs).length < kHeaderLen := by
    unfold frame
    rw [List.length_append, length_header hs]
    omega
  have hdrop : (frame session sequence msgs).drop kHeaderLen = msgs.flatMap block := by
    unfold frame
    rw [← @length_header session sequence (UInt16.ofNat msgs.length) hs, List.drop_left]
  unfold viewOf
  rw [if_neg hshort, hdrop]
  have hhdr : headerOf (frame session sequence msgs)
      = { session := session, sequence := sequence, count := UInt16.ofNat msgs.length } :=
    headerOf_header hs _
  rw [hhdr]
  simp only [hcount]
  rw [if_neg hend, splitBlocks_flatMap hlen]
  rfl

/-- A view of a frame walks what was framed. -/
theorem messages_frame (hs : session.length = kSessionLen)
    (hlen : ∀ m ∈ msgs, m.length ≤ 0xFFFF) {v : PacketView}
    (hv : v.pkt = frame session sequence msgs) (hb : v.blocks = msgs.length) :
    v.messages = .ok msgs := by
  refine messages_eq hv ?_
  unfold frame
  rw [hb, ← @length_header session sequence (UInt16.ofNat msgs.length) hs, List.drop_left,
    splitBlocks_flatMap hlen]

end Frame

/-! ## The builder -/

/-- A builder that has started a packet at `sequence` and appended `msgs` to it. -/
structure Building (sequence : UInt64) (msgs : List (List UInt8)) (b : PacketBuilder) : Prop where
  /-- The session was padded when the builder was made. -/
  session : b.session.length = kSessionLen
  /-- The packet is inside the buffer. -/
  fits : b.size ≤ b.buf.length
  /-- It is a header without a count, and the blocks. -/
  written : b.buf.take b.size = header b.session sequence 0 ++ msgs.flatMap block
  /-- The count is kept beside it until the packet is finished. -/
  count : b.count.toNat = msgs.length
  /-- It is none of the two counts that mean something else. -/
  short : msgs.length ≤ 0xFFFE
  /-- Each length fits its two bytes. -/
  narrow : ∀ m ∈ msgs, m.length ≤ 0xFFFF

namespace Building

variable {sequence : UInt64} {msgs : List (List UInt8)} {b : PacketBuilder}

/-- The size is what has been written. -/
theorem size_eq (h : Building sequence msgs b) :
    b.size = kHeaderLen + (msgs.flatMap block).length := by
  have hlen := congrArg List.length h.written
  rw [List.length_take, Nat.min_eq_left h.fits, List.length_append, length_header h.session] at hlen
  exact hlen

/-- There is a header, so that messages may be appended. -/
theorem size_pos (h : Building sequence msgs b) : b.size ≠ 0 := by
  have := h.size_eq
  unfold kHeaderLen at this
  omega

end Building

section Builder

variable {sequence : UInt64} {msgs : List (List UInt8)} {b : PacketBuilder}

/-- A header written into a buffer that holds one. -/
theorem writeHeader_spec {buf session : List UInt8} (hbuf : kHeaderLen ≤ buf.length)
    (count : UInt16) :
    ∃ buf', writeHeader buf session sequence count = .ok (kHeaderLen, buf') ∧
      buf'.length = buf.length ∧
      buf'.take kHeaderLen = header (padSession session) sequence count := by
  have hpad := length_padSession session
  unfold kHeaderLen at hbuf
  unfold kSessionLen at hpad
  unfold writeHeader header
  rw [if_neg (by unfold kHeaderLen; omega)]
  -- three stores, each where the one before ended
  obtain ⟨buf1, hst1, hlen1, htake1, -⟩ := store_spec buf kOffSession
    (padSession session) (by rw [hpad]; unfold kOffSession; omega)
  obtain ⟨buf2, hst2, hlen2, htake2, -⟩ := store_spec buf1 kOffSequence
    (be 8 sequence.toNat) (by rw [length_be]; unfold kOffSequence; omega)
  obtain ⟨buf3, hst3, hlen3, htake3, -⟩ := store_spec buf2 kOffCount
    (be 2 count.toNat) (by rw [length_be]; unfold kOffCount; omega)
  refine ⟨buf3, ?_, by omega, ?_⟩
  · simp only [hst1, hst2, hst3, bind, Except.bind, pure, Except.pure]
  · rw [hpad, show kOffSession + 10 = kOffSequence from rfl,
      show buf.take kOffSession = [] from rfl, List.nil_append] at htake1
    rw [length_be, show kOffSequence + 8 = kOffCount from rfl, htake1] at htake2
    rw [length_be, show kOffCount + 2 = kHeaderLen from rfl, htake2] at htake3
    exact htake3

/-- A session that fills its field is left alone. -/
theorem padSession_of_length {session : List UInt8} (h : session.length = kSessionLen) :
    padSession session = session := padTo_of_length h

/-- A packet is started, with nothing in it. -/
theorem reset_spec (hs : b.session.length = kSessionLen) (hbuf : kHeaderLen ≤ b.buf.length)
    (sequence : UInt64) :
    ∃ b', b.reset sequence = .ok b' ∧ Building sequence [] b' ∧ b'.session = b.session ∧
      b'.buf.length = b.buf.length := by
  obtain ⟨buf', hwrite, hlen, htake⟩ := @writeHeader_spec sequence b.buf b.session hbuf 0
  rw [padSession_of_length hs] at htake
  unfold PacketBuilder.reset
  rw [hwrite]
  refine ⟨_, rfl, ⟨hs, hlen ▸ hbuf, ?_, rfl, Nat.zero_le _, by simp⟩, rfl, hlen⟩
  rw [List.flatMap_nil, List.append_nil]
  exact htake

/-- **An append is all or nothing**: the message becomes the packet's last block, or the packet
stays exactly as it was. -/
theorem tryAppend_spec (h : Building sequence msgs b) (m : List UInt8) :
    b.tryAppend m = .ok (false, b) ∨
      ∃ b', b.tryAppend m = .ok (true, b') ∧ Building sequence (msgs ++ [m]) b' ∧
        b'.session = b.session ∧ b'.buf.length = b.buf.length := by
  unfold PacketBuilder.tryAppend
  rw [if_neg h.size_pos]
  by_cases hcount : kMaxCount ≤ b.count
  · rw [if_pos hcount]; exact Or.inl rfl
  rw [if_neg hcount]
  by_cases hwide : m.length > 0xFFFF
  · rw [if_pos hwide]; exact Or.inl rfl
  rw [if_neg hwide]
  simp only
  by_cases hfull : b.buf.length - b.size < kBlockLenBytes + m.length
  · rw [if_pos hfull]; exact Or.inl rfl
  rw [if_neg hfull]
  -- past the three refusals there is room for the length and the message
  refine Or.inr ?_
  have hfits := h.fits
  have hkb : kBlockLenBytes = 2 := rfl
  obtain ⟨buf1, hst1, hlen1, htake1, -⟩ := store_spec b.buf b.size
    (be 2 m.length) (by rw [length_be]; omega)
  obtain ⟨buf2, hst2, hlen2, htake2, -⟩ := store_spec buf1
    (b.size + kBlockLenBytes) m (by omega)
  rw [UInt16.le_iff_toNat_le, h.count, show kMaxCount.toNat = 0xFFFE from rfl] at hcount
  refine ⟨{ b with
      buf := buf2, size := b.size + (kBlockLenBytes + m.length), count := b.count + 1 },
    ?_, ⟨h.session, ?_, ?_, ?_, ?_, ?_⟩, rfl, hlen2.trans hlen1⟩
  · simp only [hst1, hst2, bind, Except.bind, pure, Except.pure]
  · show b.size + (kBlockLenBytes + m.length) ≤ buf2.length
    omega
  · show buf2.take (b.size + (kBlockLenBytes + m.length)) = _
    rw [length_be, h.written] at htake1
    rw [← Nat.add_assoc, htake2, hkb, htake1, List.flatMap_append, List.flatMap_singleton]
    unfold block
    simp only [List.append_assoc]
  -- below the ceiling the count does not wrap
  · show (b.count + 1).toNat = _
    have hc := h.count
    rw [UInt16.toNat_add, UInt16.toNat_one, List.length_append, List.length_singleton, hc,
      Nat.mod_eq_of_lt (by omega)]
  · rw [List.length_append, List.length_singleton]; omega
  · intro x hx
    rcases List.mem_append.mp hx with hx | hx
    · exact h.narrow x hx
    · rw [List.mem_singleton.mp hx]; omega

/-- With room for it, a message is appended. -/
theorem tryAppend_fits (h : Building sequence msgs b) {m : List UInt8}
    (hshort : msgs.length < 0xFFFE) (hnarrow : m.length ≤ 0xFFFF)
    (hroom : b.size + (kBlockLenBytes + m.length) ≤ b.buf.length) :
    ∃ b', b.tryAppend m = .ok (true, b') ∧ Building sequence (msgs ++ [m]) b' ∧
      b'.session = b.session ∧ b'.buf.length = b.buf.length := by
  refine (tryAppend_spec h m).resolve_left fun hno => ?_
  -- none of the four refusals applies
  have hcount : ¬ kMaxCount ≤ b.count := by
    rw [UInt16.le_iff_toNat_le, h.count, show kMaxCount.toNat = 0xFFFE from rfl]
    omega
  obtain ⟨buf1, hst1, hlen1, -, -⟩ := store_spec b.buf b.size (be 2 m.length)
    (by rw [length_be]; unfold kBlockLenBytes at hroom; omega)
  obtain ⟨buf2, hst2, -, -, -⟩ := store_spec buf1 (b.size + kBlockLenBytes) m (by omega)
  unfold PacketBuilder.tryAppend at hno
  rw [if_neg h.size_pos, if_neg hcount, if_neg (by omega)] at hno
  simp only at hno
  rw [if_neg (by omega)] at hno
  simp only [hst1, hst2, bind, Except.bind] at hno
  cases hno

/-- **A finished packet is the frame of what was appended.** -/
theorem finish_spec (h : Building sequence msgs b) :
    b.finish = .ok (frame b.session sequence msgs) := by
  have hsize := h.size_eq
  have hfits := h.fits
  have hk : kHeaderLen = 20 := rfl
  have hs := h.session
  unfold kSessionLen at hs
  unfold PacketBuilder.finish
  rw [if_neg h.size_pos]
  obtain ⟨buf', hst, -, htake, hdrop⟩ := store_spec b.buf kOffCount
    (be 2 b.count.toNat) (by rw [length_be]; unfold kOffCount; omega)
  rw [length_be, show kOffCount + 2 = kHeaderLen from rfl] at htake hdrop
  -- the buffer up to `size` is the front of the header, the old count, and the blocks
  have hfront : b.buf.take kOffCount = b.session ++ be 8 sequence.toNat := by
    have := congrArg (List.take kOffCount) h.written
    rw [List.take_take, Nat.min_eq_left (by unfold kOffCount; omega)] at this
    have hlen : (b.session ++ be 8 sequence.toNat).length = kOffCount := by
      rw [List.length_append, length_be, hs]; rfl
    rw [this]
    unfold header
    rw [List.append_assoc, ← hlen, List.take_left]
  have hback : (b.buf.drop kHeaderLen).take (msgs.flatMap block).length = msgs.flatMap block := by
    have := congrArg (List.drop kHeaderLen) h.written
    rw [List.drop_take, hsize, Nat.add_sub_cancel_left] at this
    rw [this, ← @length_header b.session sequence 0 h.session, List.drop_left]
  have hpacket : buf'.take b.size
      = b.session ++ be 8 sequence.toNat ++ be 2 b.count.toNat ++ msgs.flatMap block := by
    rw [hsize, List.take_add, htake, hdrop, hfront, hback]
  simp only [hst, bind, Except.bind, pure, Except.pure]
  rw [hpacket]
  unfold frame header
  have hcount : (UInt16.ofNat msgs.length).toNat = b.count.toNat := by
    rw [h.count, UInt16.toNat_ofNat', Nat.mod_eq_of_lt (by have := h.short; omega)]
  rw [hcount]

/-- A builder on a buffer that holds a header, at the start of a packet. -/
theorem start_spec {buf : List UInt8} (hbuf : kHeaderLen ≤ buf.length) (session : List UInt8)
    (sequence : UInt64) :
    ∃ b b', PacketBuilder.make buf session = .ok b ∧ b.reset sequence = .ok b' ∧
      Building sequence [] b' ∧ b'.session = padSession session ∧ b'.buf.length = buf.length := by
  obtain ⟨b, hb, hbuild, hs, hlen⟩ := reset_spec
    (b := { buf := buf, session := padSession session, size := 0, count := 0 })
    (length_padSession session) hbuf 0
  obtain ⟨b', hb', hbuild', hs', hlen'⟩ := reset_spec hbuild.session (hlen ▸ hbuf) sequence
  exact ⟨b, b', hb, hb', hbuild', hs'.trans hs, hlen'.trans hlen⟩

/-- Offering messages builds the packet of those that were appended. -/
theorem offerAll_spec (h : Building sequence msgs b) (more : List (List UInt8)) :
    ∃ taken b', b.offerAll more = .ok (taken, b') ∧ taken.Sublist more ∧
      Building sequence (msgs ++ taken) b' ∧ b'.session = b.session := by
  induction more generalizing msgs b with
  | nil => exact ⟨[], b, rfl, List.Sublist.refl _, by rw [List.append_nil]; exact h, rfl⟩
  | cons m more ih =>
    rcases tryAppend_spec h m with hno | ⟨b1, hyes, hb1, hs1, _⟩
    · obtain ⟨taken, b', ho, hsub, hb', hs'⟩ := ih h
      refine ⟨taken, b', ?_, hsub.cons m, hb', hs'⟩
      rw [PacketBuilder.offerAll, hno]
      simp only [bind, Except.bind, ho]
      rfl
    · obtain ⟨taken, b', ho, hsub, hb', hs'⟩ := ih hb1
      refine ⟨m :: taken, b', ?_, hsub.cons_cons m, ?_, hs'.trans hs1⟩
      · rw [PacketBuilder.offerAll, hyes]
        simp only [bind, Except.bind, ho]
        rfl
      · rw [List.append_assoc] at hb'
        exact hb'

end Builder

end Mold
end Tickerplant
