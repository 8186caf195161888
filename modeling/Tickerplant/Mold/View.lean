import Tickerplant.Lib.Bytes

/-!
# Reading a MoldUDP64 datagram (`include/tick/moldudp64.hpp`)

A header of twenty bytes, then as many length-prefixed blocks as it says. `parse` walks the blocks
once to check that they end exactly at the end of the datagram, and hands back a view that walks
them again. Both run in `Checked`, because a datagram comes off a network and its own lengths
decide where the next read is.

Nothing is trusted but the size of the datagram. A block that runs past the end, a count that
promises more blocks than there are bytes, and bytes left over behind the last block are all
refused; the last because sender and reader then disagree about the framing, and what was
understood may not be what was meant. Two counts are special: none is a heartbeat, and `0xFFFF`
ends the session, with no block behind it either.

`splitBlocks` is what the blocks of a string of bytes are, said without offsets. `parse_eq` says
`parse` accepts exactly the datagrams it splits, and faults on none; `messages_eq` says the view of
an accepted datagram walks exactly those blocks.
-/

set_option autoImplicit false

namespace Tickerplant
namespace Mold

open Lib

/-- Session, sequence and count. -/
def kHeaderLen : ℕ := 20
/-- A session's name, padded with blanks. -/
def kSessionLen : ℕ := 10
/-- Ten bytes. -/
def kOffSession : ℕ := 0
/-- Eight bytes, the sequence of the first block. -/
def kOffSequence : ℕ := 10
/-- Two bytes. -/
def kOffCount : ℕ := 18
/-- A length in front of each block. -/
def kBlockLenBytes : ℕ := 2
/-- The count that ends a session. -/
def kEndOfSession : UInt16 := 0xFFFF
/-- One block more would read as the end of the session. -/
def kMaxCount : UInt16 := 0xFFFE
/-- What goes through a path of 1500 bytes without being cut in pieces. -/
def kMaxPacketLen : ℕ := 1400

/-- The fields of a header. The session is as it stands there, padding included. -/
structure Header where
  session : List UInt8
  sequence : UInt64
  count : UInt16
  deriving DecidableEq, Repr

/-- The three fields, for a buffer that is long enough. -/
def readHeader (pkt : List UInt8) : Checked Header := do
  let session ← slice pkt kOffSession kSessionLen
  let sequence ← load 8 pkt kOffSequence
  let count ← load 2 pkt kOffCount
  return { session := session, sequence := UInt64.ofNat sequence, count := UInt16.ofNat count }

/-- A datagram that was found to describe itself. -/
structure PacketView where
  pkt : List UInt8
  hdr : Header
  /-- The number of blocks actually present. -/
  blocks : ℕ
  deriving DecidableEq, Repr

/-- The loop of `parse`: where the walk over `n` blocks from `off` ends, or nothing when a block
does not fit. -/
def walk (pkt : List UInt8) : ℕ → ℕ → Checked (Option ℕ)
  | 0, off => .ok (some off)
  | n + 1, off =>
    if pkt.length - off < kBlockLenBytes then .ok none
    else do
      let len ← load kBlockLenBytes pkt off
      if pkt.length - (off + kBlockLenBytes) < len then .ok none
      else walk pkt n (off + kBlockLenBytes + len)

namespace PacketView

/-- `PacketView::parse`. -/
def parse (pkt : List UInt8) : Checked (Option PacketView) :=
  if pkt.length < kHeaderLen then .ok none
  else do
    let hdr ← readHeader pkt
    if hdr.count = kEndOfSession then
      -- the end of a session is a bare header
      if pkt.length ≠ kHeaderLen then return none
      else return some { pkt := pkt, hdr := hdr, blocks := 0 }
    else
      match ← walk pkt hdr.count.toNat kHeaderLen with
      | none => return none
      | some off =>
        -- nothing may be left over
        if off ≠ pkt.length then return none
        else return some { pkt := pkt, hdr := hdr, blocks := hdr.count.toNat }

/-- A packet with nothing in it, sent to show that the feed is there. -/
def isHeartbeat (v : PacketView) : Bool := v.hdr.count == 0

/-- The count is the marker, and not a number of blocks. -/
def isEndOfSession (v : PacketView) : Bool := v.hdr.count == kEndOfSession

/-- A range-for over `n` blocks from `off`: dereference, then step. -/
def iterate (pkt : List UInt8) : ℕ → ℕ → Checked (List (List UInt8))
  | 0, _ => .ok []
  | n + 1, off => do
    let len ← load kBlockLenBytes pkt off
    let block ← slice pkt (off + kBlockLenBytes) len
    let rest ← iterate pkt n (off + kBlockLenBytes + len)
    return block :: rest

/-- The messages between `begin` and `end`. -/
def messages (v : PacketView) : Checked (List (List UInt8)) := iterate v.pkt v.blocks kHeaderLen

end PacketView

/-! ## What a datagram is -/

/-- The header fields of a datagram that is long enough to have them. -/
def headerOf (pkt : List UInt8) : Header :=
  { session := pkt.take kSessionLen
    sequence := UInt64.ofNat (ofBe ((pkt.drop kOffSequence).take 8))
    count := UInt16.ofNat (ofBe ((pkt.drop kOffCount).take 2)) }

/-- `n` length-prefixed blocks with nothing left over. -/
def splitBlocks : ℕ → List UInt8 → Option (List (List UInt8))
  | 0, bytes => if bytes = [] then some [] else none
  | n + 1, bytes =>
    if bytes.length < kBlockLenBytes then none
    else
      let len := ofBe (bytes.take kBlockLenBytes)
      let bytes := bytes.drop kBlockLenBytes
      if bytes.length < len then none
      else (splitBlocks n (bytes.drop len)).map (bytes.take len :: ·)

/-- Twenty bytes are enough to read one. -/
theorem readHeader_eq {pkt : List UInt8} (h : kHeaderLen ≤ pkt.length) :
    readHeader pkt = .ok (headerOf pkt) := by
  unfold kHeaderLen at h
  unfold readHeader kOffSession kSessionLen kOffSequence kOffCount
  rw [slice_eq (by omega), load_eq (by omega), load_eq (by omega)]
  rfl

/-- The walk never leaves the datagram, and ends at its end exactly when the rest of it is the
blocks it was asked for. -/
theorem walk_spec (pkt : List UInt8) : ∀ (n off : ℕ), off ≤ pkt.length →
    ∃ r, walk pkt n off = .ok r ∧
      (r = some pkt.length ↔ (splitBlocks n (pkt.drop off)).isSome = true) := by
  intro n
  induction n with
  | zero =>
    intro off hoff
    refine ⟨some off, rfl, ?_⟩
    rw [splitBlocks, Option.some.injEq]
    by_cases hend : off = pkt.length
    · subst hend; simp
    · have hne : pkt.drop off ≠ [] := by
        rw [Ne, List.drop_eq_nil_iff]; omega
      simp [hend, hne]
  | succ n ih =>
    intro off hoff
    rw [walk, splitBlocks, List.length_drop]
    by_cases hshort : pkt.length - off < kBlockLenBytes
    · rw [if_pos hshort, if_pos hshort]
      exact ⟨none, rfl, by simp⟩
    rw [if_neg hshort, if_neg hshort]
    unfold kBlockLenBytes at hshort ⊢
    rw [load_eq (by omega)]
    simp only [List.length_drop, List.drop_drop]
    generalize ofBe ((pkt.drop off).take 2) = len
    by_cases hlong : pkt.length - (off + 2) < len
    · refine ⟨none, ?_, by rw [if_pos hlong]; simp⟩
      show (if pkt.length - (off + 2) < len then _ else _) = _
      rw [if_pos hlong]
    · obtain ⟨r, hr, hiff⟩ := ih (off + 2 + len) (by omega)
      refine ⟨r, ?_, by rw [if_neg hlong, hiff, Option.isSome_map]⟩
      show (if pkt.length - (off + 2) < len then _ else _) = _
      rw [if_neg hlong]
      exact hr

/-- Iterating over bytes that split into blocks visits those blocks, and nothing outside. -/
theorem iterate_spec (pkt : List UInt8) : ∀ (n off : ℕ) {ms : List (List UInt8)},
    splitBlocks n (pkt.drop off) = some ms → PacketView.iterate pkt n off = .ok ms := by
  intro n
  induction n with
  | zero =>
    intro off ms h
    rw [splitBlocks] at h
    split at h
    · rw [Option.some.injEq] at h
      rw [← h]
      rfl
    · exact absurd h (by simp)
  | succ n ih =>
    intro off ms h
    rw [splitBlocks] at h
    unfold kBlockLenBytes at h
    simp only [List.length_drop, List.drop_drop] at h
    by_cases hshort : pkt.length - off < 2
    · rw [if_pos hshort] at h
      exact absurd h (by simp)
    rw [if_neg hshort] at h
    rw [PacketView.iterate]
    unfold kBlockLenBytes
    rw [load_eq (by omega)]
    generalize ofBe ((pkt.drop off).take 2) = len at h
    by_cases hlong : pkt.length - (off + 2) < len
    · rw [if_pos hlong] at h
      exact absurd h (by simp)
    rw [if_neg hlong] at h
    obtain ⟨rest, hrest, rfl⟩ := Option.map_eq_some_iff.mp h
    show (do
      let block ← slice pkt (off + 2) len
      let rest ← PacketView.iterate pkt n (off + 2 + len)
      return block :: rest) = _
    rw [slice_eq (by omega), ih _ hrest]
    rfl

/-- What `parse` accepts. -/
def viewOf (pkt : List UInt8) : Option PacketView :=
  if pkt.length < kHeaderLen then none
  else if (headerOf pkt).count = kEndOfSession then
    if pkt.length = kHeaderLen then some { pkt := pkt, hdr := headerOf pkt, blocks := 0 } else none
  else if (splitBlocks (headerOf pkt).count.toNat (pkt.drop kHeaderLen)).isSome then
    some { pkt := pkt, hdr := headerOf pkt, blocks := (headerOf pkt).count.toNat }
  else none

/-- **`parse` is total**: it never reads outside the datagram, whatever the bytes, and accepts
exactly a header with that many blocks behind it and nothing left over, or a bare header that
ends the session. -/
theorem parse_eq (pkt : List UInt8) : PacketView.parse pkt = .ok (viewOf pkt) := by
  unfold PacketView.parse viewOf
  by_cases hshort : pkt.length < kHeaderLen
  · rw [if_pos hshort, if_pos hshort]
  rw [if_neg hshort, if_neg hshort, readHeader_eq (Nat.not_lt.mp hshort)]
  show (if (headerOf pkt).count = kEndOfSession then _ else _) = _
  by_cases hend : (headerOf pkt).count = kEndOfSession
  · rw [if_pos hend, if_pos hend]
    by_cases hlen : pkt.length = kHeaderLen
    · rw [if_neg (not_not.mpr hlen), if_pos hlen]
      rfl
    · rw [if_pos hlen, if_neg hlen]
      rfl
  rw [if_neg hend, if_neg hend]
  obtain ⟨r, hr, hiff⟩ := walk_spec pkt (headerOf pkt).count.toNat kHeaderLen (Nat.not_lt.mp hshort)
  rw [hr]
  cases r with
  | none =>
    rw [if_neg (fun h => absurd (hiff.mpr h) (by simp))]
    rfl
  | some off =>
    rw [Option.some.injEq] at hiff
    show (if off ≠ pkt.length then _ else _) = _
    by_cases hoff : off = pkt.length
    · rw [if_neg (not_not.mpr hoff), if_pos (hiff.mp hoff)]
      rfl
    · rw [if_pos hoff, if_neg (fun h => hoff (hiff.mpr h))]
      rfl

/-- The view of an accepted datagram walks its blocks. -/
theorem messages_eq {pkt : List UInt8} {v : PacketView} {ms : List (List UInt8)}
    (hv : v.pkt = pkt) (hms : splitBlocks v.blocks (pkt.drop kHeaderLen) = some ms) :
    v.messages = .ok ms := by
  unfold PacketView.messages
  rw [hv]
  exact iterate_spec pkt v.blocks kHeaderLen hms

/-- There are as many blocks as were asked for. -/
theorem length_splitBlocks : ∀ {n : ℕ} {bytes : List UInt8} {ms : List (List UInt8)},
    splitBlocks n bytes = some ms → ms.length = n := by
  intro n
  induction n with
  | zero =>
    intro bytes ms h
    rw [splitBlocks] at h
    split at h
    · rw [Option.some.injEq] at h
      rw [← h]
      rfl
    · exact absurd h (by simp)
  | succ n ih =>
    intro bytes ms h
    rw [splitBlocks] at h
    split at h
    · exact absurd h (by simp)
    · simp only at h
      split at h
      · exact absurd h (by simp)
      · obtain ⟨rest, hrest, rfl⟩ := Option.map_eq_some_iff.mp h
        rw [List.length_cons, ih hrest]

/-- **An accepted datagram**: its view has its header, and walks as many blocks as the header
says, or none at the end of a session. -/
theorem viewOf_some {pkt : List UInt8} {v : PacketView} (h : viewOf pkt = some v) :
    v.hdr = headerOf pkt ∧
      ∃ ms, v.messages = .ok ms ∧
        ms.length = if v.isEndOfSession = true then 0 else v.hdr.count.toNat := by
  unfold viewOf at h
  split at h
  · exact absurd h (by simp)
  rename_i hshort
  split at h
  · rename_i hend
    split at h
    · rename_i hlen
      rw [Option.some.injEq] at h
      subst h
      have hdrop : pkt.drop kHeaderLen = [] := by rw [List.drop_eq_nil_iff]; omega
      refine ⟨rfl, [], messages_eq rfl (by rw [hdrop]; rfl), ?_⟩
      simp [PacketView.isEndOfSession, hend]
    · exact absurd h (by simp)
  · rename_i hend
    split at h
    · rename_i hsome
      rw [Option.some.injEq] at h
      subst h
      obtain ⟨ms, hms⟩ := Option.isSome_iff_exists.mp hsome
      refine ⟨rfl, ms, messages_eq rfl hms, ?_⟩
      rw [length_splitBlocks hms]
      simp [PacketView.isEndOfSession, hend]
    · exact absurd h (by simp)

end Mold
end Tickerplant
