import Tickerplant.Mold.Builder

/-!
# The MoldUDP64 framing, both ways

`Framed` says what a well-formed datagram is without walking it: a header, and behind it as many
length-prefixed blocks as the header's count, or none when the count marks the end of the session.
`parse` accepts the framed datagrams and no others, and the view it returns iterates over their
blocks (`parse_iff`). A builder finishes a framed packet of what it took (`build_spec`), and
building a parsed packet's blocks again gives back its bytes (`rebuild_spec`), because a frame is
determined by its fields. `framing_exact` puts the three together.

A session may be given to the builder as it stands in the header or with its blanks removed.
Padding puts back what trimming took off, so that the same packet comes out
(`padSession_trimRight`).

The packet that ends a session is framed too, but no builder makes it: its count is not a number of
blocks. It is left out of what is rebuilt.
-/

set_option autoImplicit false

namespace Tickerplant
namespace Mold

open Lib

/-- Drop the trailing spaces. -/
def trimRight (bytes : List UInt8) : List UInt8 := trim bytes

namespace PacketView

/-- The session with its padding removed. -/
def session (v : PacketView) : List UInt8 := trimRight ((v.pkt.drop kOffSession).take kSessionLen)

end PacketView

namespace PacketBuilder

/-- A packet from a buffer, with the messages that went into it. -/
def build (buf session : List UInt8) (firstSequence : UInt64) (msgs : List (List UInt8)) :
    Checked (List (List UInt8) × List UInt8) := do
  let b ← make buf session
  let b ← b.reset firstSequence
  let (taken, b) ← b.offerAll msgs
  let pkt ← b.finish
  return (taken, pkt)

end PacketBuilder

/-- **A well-formed datagram**, with its header's fields and its blocks. -/
structure Framed (pkt : List UInt8) (hdr : Header) (msgs : List (List UInt8)) : Prop where
  /-- Ten bytes of session. -/
  session : hdr.session.length = kSessionLen
  /-- The datagram is the header and the blocks, with nothing between or behind them. -/
  bytes : pkt = header hdr.session hdr.sequence hdr.count ++ msgs.flatMap block
  /-- A length is what its two bytes can hold. -/
  narrow : ∀ m ∈ msgs, m.length ≤ 0xFFFF
  /-- The count is of the blocks, or is the marker. -/
  count : msgs.length = if hdr.count = kEndOfSession then 0 else hdr.count.toNat

/-! ## Reading -/

/-- The blocks a string of bytes splits into make it up. -/
theorem flatMap_splitBlocks : ∀ {n : ℕ} {bytes : List UInt8} {ms : List (List UInt8)},
    splitBlocks n bytes = some ms → bytes = ms.flatMap block ∧ ∀ m ∈ ms, m.length ≤ 0xFFFF := by
  intro n
  induction n with
  | zero =>
    intro bytes ms h
    rw [splitBlocks] at h
    split at h
    · rename_i hnil
      rw [Option.some.injEq] at h
      subst h
      exact ⟨hnil, by simp⟩
    · exact absurd h (by simp)
  | succ n ih =>
    intro bytes ms h
    rw [splitBlocks] at h
    unfold kBlockLenBytes at h
    split at h
    · exact absurd h (by simp)
    rename_i hshort
    simp only at h
    split at h
    · exact absurd h (by simp)
    rename_i hlong
    obtain ⟨rest, hrest, rfl⟩ := Option.map_eq_some_iff.mp h
    obtain ⟨hbytes, hnarrow⟩ := ih hrest
    -- the two bytes of a length, read and written again, are themselves
    have htwo : (bytes.take 2).length = 2 := by
      rw [List.length_take]
      omega
    have hlt := ofBe_lt (bytes.take 2)
    rw [htwo] at hlt
    have hlen : ((bytes.drop 2).take (ofBe (bytes.take 2))).length = ofBe (bytes.take 2) := by
      rw [List.length_take]
      omega
    constructor
    · have hbe := be_ofBe (bytes.take 2)
      rw [htwo] at hbe
      rw [List.flatMap_cons, ← hbytes, block, hlen, hbe, List.append_assoc,
        List.take_append_drop, List.take_append_drop]
    · intro m hm
      rcases List.mem_cons.mp hm with rfl | hm
      · rw [hlen]
        norm_num at hlt
        omega
      · exact hnarrow m hm

/-- The header fields of a datagram write its first twenty bytes. -/
theorem header_headerOf {pkt : List UInt8} (h : kHeaderLen ≤ pkt.length) :
    header (headerOf pkt).session (headerOf pkt).sequence (headerOf pkt).count =
      pkt.take kHeaderLen := by
  have hlen : 20 ≤ pkt.length := h
  have h8 : ((pkt.drop 10).take 8).length = 8 := by
    rw [List.length_take, List.length_drop]
    omega
  have h2 : ((pkt.drop 18).take 2).length = 2 := by
    rw [List.length_take, List.length_drop]
    omega
  -- each field holds what it was read as, so that writing it gives its bytes
  have hseq := ofBe_lt ((pkt.drop 10).take 8)
  have hcount := ofBe_lt ((pkt.drop 18).take 2)
  have hbe8 := be_ofBe ((pkt.drop 10).take 8)
  have hbe2 := be_ofBe ((pkt.drop 18).take 2)
  rw [h8] at hseq hbe8
  rw [h2] at hcount hbe2
  unfold header headerOf kSessionLen kOffSequence kOffCount kHeaderLen
  simp only
  rw [UInt64.toNat_ofNat', UInt16.toNat_ofNat', Nat.mod_eq_of_lt (by norm_num at hseq ⊢; omega),
    Nat.mod_eq_of_lt (by norm_num at hcount ⊢; omega), hbe8, hbe2, ← List.take_add, ← List.take_add]

/-- What `parse` accepts is framed. -/
theorem framed_of_view {pkt : List UInt8} {v : PacketView} (h : viewOf pkt = some v) :
    v.pkt = pkt ∧ ∃ msgs, v.messages = .ok msgs ∧ Framed pkt v.hdr msgs := by
  unfold viewOf at h
  split at h
  · exact absurd h (by simp)
  rename_i hshort
  have hlen := Nat.not_lt.mp hshort
  have hsession : (headerOf pkt).session.length = kSessionLen := by
    show (pkt.take kSessionLen).length = _
    rw [List.length_take]
    unfold kHeaderLen at hlen
    unfold kSessionLen
    omega
  split at h
  · rename_i hend
    split at h
    · rename_i hbare
      obtain rfl := Option.some.inj h
      refine ⟨rfl, [], messages_eq rfl ?_, hsession, ?_, by simp, by simp [hend]⟩
      · rw [List.drop_eq_nil_iff.mpr (Nat.le_of_eq hbare)]
        rfl
      · rw [header_headerOf hlen, ← hbare, List.take_length, List.flatMap_nil, List.append_nil]
    · exact absurd h (by simp)
  · rename_i hend
    split at h
    · rename_i hsome
      obtain rfl := Option.some.inj h
      obtain ⟨msgs, hms⟩ := Option.isSome_iff_exists.mp hsome
      obtain ⟨hbytes, hnarrow⟩ := flatMap_splitBlocks hms
      refine ⟨rfl, msgs, messages_eq rfl hms, hsession, ?_, hnarrow, ?_⟩
      · rw [header_headerOf hlen, ← hbytes, List.take_append_drop]
      · rw [if_neg hend]
        exact length_splitBlocks hms
    · exact absurd h (by simp)

/-- What is framed is accepted. -/
theorem view_of_framed {pkt : List UInt8} {hdr : Header} {msgs : List (List UInt8)}
    (h : Framed pkt hdr msgs) :
    ∃ v, viewOf pkt = some v ∧ v.hdr = hdr ∧ v.messages = .ok msgs := by
  -- the fields are those the datagram was framed with, and behind them are its blocks
  have hhdr : headerOf pkt = hdr := by
    rw [h.bytes]
    exact headerOf_header h.session _
  have hdrop : pkt.drop kHeaderLen = msgs.flatMap block := by
    rw [h.bytes, ← @length_header hdr.session hdr.sequence hdr.count h.session, List.drop_left]
  have hlen : pkt.length = kHeaderLen + (msgs.flatMap block).length := by
    rw [h.bytes, List.length_append, length_header h.session]
  have hshort : ¬ pkt.length < kHeaderLen := by omega
  have hcount := h.count
  unfold viewOf
  rw [if_neg hshort, hhdr, hdrop]
  split
  · rename_i hend
    rw [if_pos hend, List.length_eq_zero_iff] at hcount
    subst hcount
    rw [if_pos (by rw [hlen]; rfl)]
    refine ⟨_, rfl, rfl, messages_eq rfl ?_⟩
    rw [hdrop]
    rfl
  · rename_i hend
    rw [if_neg hend] at hcount
    have hsplit := splitBlocks_flatMap h.narrow
    rw [hcount] at hsplit
    rw [hsplit]
    refine ⟨_, rfl, rfl, messages_eq rfl ?_⟩
    rw [hdrop]
    exact hsplit

/-- **`parse` accepts exactly the well-formed datagrams**, and its view walks their blocks. -/
theorem parse_iff (pkt : List UInt8) :
    ∃ r, PacketView.parse pkt = .ok r ∧ (r.isSome = true ↔ ∃ hdr msgs, Framed pkt hdr msgs) ∧
      ∀ v, r = some v → v.pkt = pkt ∧ ∃ msgs, v.messages = .ok msgs ∧ Framed pkt v.hdr msgs := by
  refine ⟨viewOf pkt, parse_eq pkt, ?_, fun v hv => framed_of_view hv⟩
  constructor
  · intro hsome
    obtain ⟨v, hv⟩ := Option.isSome_iff_exists.mp hsome
    obtain ⟨_, msgs, _, hframed⟩ := framed_of_view hv
    exact ⟨v.hdr, msgs, hframed⟩
  · rintro ⟨hdr, msgs, hframed⟩
    obtain ⟨v, hv, _⟩ := view_of_framed hframed
    exact Option.isSome_iff_exists.mpr ⟨v, hv⟩

/-! ## Writing -/

section Builder

variable {sequence : UInt64} {msgs : List (List UInt8)} {b : PacketBuilder}

/-- A message that does not fit leaves no mark. -/
theorem tryAppend_refused {b' : PacketBuilder} {m : List UInt8}
    (h : b.tryAppend m = .ok (false, b')) : b' = b := by
  unfold PacketBuilder.tryAppend at h
  split at h
  · cases h; rfl
  split at h
  · cases h; rfl
  split at h
  · cases h; rfl
  simp only at h
  split at h
  · cases h; rfl
  · cases h1 : store b.buf b.size (be 2 m.length) with
    | error e => rw [h1] at h; cases h
    | ok buf1 =>
      rw [h1] at h
      cases h2 : store buf1 (b.size + kBlockLenBytes) m with
      | error e => simp only [bind, Except.bind, h2] at h; cases h
      | ok buf2 => simp only [bind, Except.bind, h2] at h; cases h

/-- With room for all of them, all messages are appended. -/
theorem offerAll_fits (h : Building sequence msgs b) {more : List (List UInt8)}
    (hshort : msgs.length + more.length ≤ 0xFFFE) (hnarrow : ∀ m ∈ more, m.length ≤ 0xFFFF)
    (hroom : b.size + (more.flatMap block).length ≤ b.buf.length) :
    ∃ b', b.offerAll more = .ok (more, b') ∧ Building sequence (msgs ++ more) b' ∧
      b'.session = b.session := by
  induction more generalizing msgs b with
  | nil => exact ⟨b, rfl, by rw [List.append_nil]; exact h, rfl⟩
  | cons m more ih =>
    rw [List.flatMap_cons, List.length_append, length_block] at hroom
    rw [List.length_cons] at hshort
    have hm := hnarrow m List.mem_cons_self
    obtain ⟨b1, hyes, hb1, hs1, hl1⟩ := tryAppend_fits h (by omega) hm (by omega)
    have hsize := hb1.size_eq
    rw [List.flatMap_append, List.length_append, List.flatMap_singleton, length_block,
      ← Nat.add_assoc, ← h.size_eq] at hsize
    obtain ⟨b', ho, hb', hs'⟩ := ih hb1 (by rw [List.length_append, List.length_singleton]; omega)
      (fun x hx => hnarrow x (List.mem_cons_of_mem _ hx)) (by rw [hsize, hl1]; omega)
    refine ⟨b', ?_, ?_, hs'.trans hs1⟩
    · rw [PacketBuilder.offerAll, hyes]
      simp only [bind, Except.bind, ho]
      rfl
    · rw [List.append_assoc] at hb'
      exact hb'

end Builder

/-- A frame of few enough messages is well formed. -/
theorem framed_frame {session : List UInt8} {sequence : UInt64} {msgs : List (List UInt8)}
    (hs : session.length = kSessionLen) (hshort : msgs.length ≤ 0xFFFE)
    (hnarrow : ∀ m ∈ msgs, m.length ≤ 0xFFFF) :
    Framed (frame session sequence msgs)
      { session := session, sequence := sequence, count := UInt16.ofNat msgs.length } msgs := by
  have hcount : (UInt16.ofNat msgs.length).toNat = msgs.length := by
    rw [UInt16.toNat_ofNat', Nat.mod_eq_of_lt (by omega)]
  refine ⟨hs, rfl, hnarrow, ?_⟩
  simp only
  rw [if_neg, hcount]
  intro hend
  rw [hend] at hcount
  have hk : kEndOfSession.toNat = 0xFFFF := rfl
  omega

/-- **What a builder finishes is framed**, around what it took. -/
theorem build_spec {buf : List UInt8} (hbuf : kHeaderLen ≤ buf.length) (session : List UInt8)
    (sequence : UInt64) (msgs : List (List UInt8)) :
    ∃ taken pkt, PacketBuilder.build buf session sequence msgs = .ok (taken, pkt) ∧
      taken.Sublist msgs ∧ Framed pkt
        { session := padSession session, sequence := sequence, count := UInt16.ofNat taken.length }
        taken := by
  obtain ⟨b, b', hmake, hreset, hb, hs, -⟩ := start_spec hbuf session sequence
  obtain ⟨taken, b'', ho, hsub, hb'', hs''⟩ := offerAll_spec hb msgs
  rw [List.nil_append] at hb''
  refine ⟨taken, frame b''.session sequence taken, ?_, hsub, ?_⟩
  · unfold PacketBuilder.build
    simp only [bind, Except.bind, pure, Except.pure, hmake, hreset, ho, finish_spec hb'']
  · have hsession : b''.session = padSession session := hs''.trans hs
    rw [hsession]
    exact framed_frame (length_padSession session) hb''.short hb''.narrow

/-- Padding puts back what trimming took off. -/
theorem padSession_trimRight {session : List UInt8} (h : session.length = kSessionLen) :
    padSession (trimRight session) = session := padTo_trim h

/-- **Building a parsed packet again** reproduces it, from its session field or from the trimmed
one. -/
theorem rebuild_spec {pkt : List UInt8} {hdr : Header} {msgs : List (List UInt8)}
    (h : Framed pkt hdr msgs) (hdata : hdr.count ≠ kEndOfSession) {buf : List UInt8}
    (hbuf : pkt.length ≤ buf.length) {session : List UInt8}
    (hsession : padSession session = hdr.session) :
    PacketBuilder.build buf session hdr.sequence msgs = .ok (msgs, pkt) := by
  have hcount := h.count
  rw [if_neg hdata] at hcount
  have hmax := hdr.count.toNat_lt
  have hend : hdr.count.toNat ≠ 0xFFFF := fun heq => hdata (UInt16.toNat_inj.mp heq)
  have hlen : pkt.length = kHeaderLen + (msgs.flatMap block).length := by
    rw [h.bytes, List.length_append, length_header h.session]
  have hroom : kHeaderLen ≤ buf.length := by omega
  obtain ⟨b, b', hmake, hreset, hb, hs, hl⟩ := start_spec hroom session hdr.sequence
  have hsize := hb.size_eq
  rw [List.flatMap_nil, List.length_nil, Nat.add_zero] at hsize
  have hcounted : ([] : List (List UInt8)).length + msgs.length ≤ 0xFFFE := by
    rw [List.length_nil]
    omega
  obtain ⟨b'', ho, hb'', hs''⟩ := offerAll_fits hb hcounted h.narrow (by rw [hsize, hl]; omega)
  rw [List.nil_append] at hb''
  unfold PacketBuilder.build
  simp only [bind, Except.bind, pure, Except.pure, hmake, hreset, ho, finish_spec hb'']
  rw [hs'', hs, hsession, frame, hcount, UInt16.ofNat_toNat, ← h.bytes]

/-- A datagram is framed in one way. -/
theorem framed_unique {pkt : List UInt8} {hdr hdr' : Header} {msgs msgs' : List (List UInt8)}
    (h : Framed pkt hdr msgs) (h' : Framed pkt hdr' msgs') : hdr = hdr' ∧ msgs = msgs' := by
  obtain ⟨v, hv, rfl, hms⟩ := view_of_framed h
  obtain ⟨v', hv', rfl, hms'⟩ := view_of_framed h'
  obtain rfl := Option.some.inj (hv.symm.trans hv')
  exact ⟨rfl, Except.ok.inj (hms.symm.trans hms')⟩

/-- **The framing is exact.** Every datagram is judged without reading outside it, and accepted
just when it is well formed; its view walks the blocks it is made of. What a builder finishes is
accepted and holds what the builder took, a refused message changes nothing, and a data packet's
blocks build the same packet again. -/
theorem framing_exact :
    (∀ pkt, ∃ r, PacketView.parse pkt = .ok r ∧
      (r.isSome = true ↔ ∃ hdr msgs, Framed pkt hdr msgs) ∧
      ∀ v, r = some v → v.pkt = pkt ∧ ∃ msgs, v.messages = .ok msgs ∧ Framed pkt v.hdr msgs) ∧
    (∀ pkt hdr hdr' msgs msgs', Framed pkt hdr msgs → Framed pkt hdr' msgs' →
      hdr = hdr' ∧ msgs = msgs') ∧
    (∀ buf session sequence msgs, kHeaderLen ≤ buf.length → ∃ taken pkt v,
      PacketBuilder.build buf session sequence msgs = .ok (taken, pkt) ∧ taken.Sublist msgs ∧
      PacketView.parse pkt = .ok (some v) ∧ v.hdr.session = padSession session ∧
      v.hdr.sequence = sequence ∧ v.messages = .ok taken) ∧
    (∀ b m b', PacketBuilder.tryAppend b m = .ok (false, b') → b' = b) ∧
    ∀ pkt v buf, PacketView.parse pkt = .ok (some v) → v.hdr.count ≠ kEndOfSession →
      pkt.length ≤ buf.length → ∃ msgs, v.messages = .ok msgs ∧
        PacketBuilder.build buf v.hdr.session v.hdr.sequence msgs = .ok (msgs, pkt) ∧
        PacketBuilder.build buf v.session v.hdr.sequence msgs = .ok (msgs, pkt) := by
  refine ⟨parse_iff, fun _ _ _ _ _ => framed_unique, fun buf session sequence msgs hbuf => ?_,
    fun _ _ _ => tryAppend_refused, fun pkt v buf hparse hdata hbuf => ?_⟩
  · obtain ⟨taken, pkt, hbuild, hsub, hframed⟩ := build_spec hbuf session sequence msgs
    obtain ⟨v, hv, hhdr, hmsgs⟩ := view_of_framed hframed
    exact ⟨taken, pkt, v, hbuild, hsub, by rw [parse_eq, hv], by rw [hhdr], by rw [hhdr], hmsgs⟩
  · rw [parse_eq] at hparse
    obtain ⟨hpkt, msgs, hms, hframed⟩ := framed_of_view (Except.ok.inj hparse)
    have hfield : (v.pkt.drop kOffSession).take kSessionLen = v.hdr.session := by
      rw [hpkt, hframed.bytes, show kOffSession = 0 from rfl, List.drop_zero, header,
        List.append_assoc, List.append_assoc, ← hframed.session, List.take_left]
    refine ⟨msgs, hms, rebuild_spec hframed hdata hbuf (padSession_of_length hframed.session),
      rebuild_spec hframed hdata hbuf ?_⟩
    rw [PacketView.session, hfield]
    exact padSession_trimRight hframed.session

end Mold
end Tickerplant
