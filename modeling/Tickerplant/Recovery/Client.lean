import Tickerplant.Lib.Tiling
import Tickerplant.Sequencer.Basic

/-!
# The asking half of recovery (`RecoveryClient`, `include/tick/recovery.hpp`)

Which ranges have been asked for, when to ask again, and when to stop asking. The entries are the
class's own, in its own order; a loop over them that erases as it goes is a recursion that leaves
out what the source erases. Sequences and times are 64-bit words and wrap as the source's do, a
count is sixteen bits wide, and the statistics are natural numbers.

`need_spec`, `retryLoop_range` and `mem_onResponse` say what each call does to the entries; nothing
below this file unfolds one again. They speak of the sequences an entry spans wherever they can.
That is what a caller cares for, and it is what makes the calls comparable: `need` adds spans, a
retry changes none, a response shrinks them, and giving up drops them.

Two questions are asked of the client in the modules that follow, with a history of their own for
each: which missing sequences are still in some entry, and when an entry was sent.
-/

set_option autoImplicit false

namespace Tickerplant

open Lib

/-- How often to ask, and for how many ranges at a time. -/
structure RecoveryConfig where
  /-- The schedule doubles from here. -/
  initialTimeoutNs : UInt64 := 50000000
  /-- The ceiling of the doubling. -/
  maxTimeoutNs : UInt64 := 1000000000
  /-- The first send included. -/
  maxAttempts : UInt32 := 3
  /-- Bounded, so that a bad feed does not become a storm of requests. -/
  maxOutstanding : ℕ := 16
  deriving DecidableEq, Repr

/-- A configuration the constructor has been over. -/
structure UsableConfig extends RecoveryConfig where
  /-- There is room for a range. -/
  outstanding_pos : 0 < maxOutstanding
  /-- A range is asked for at least once. -/
  attempts_pos : maxAttempts ≠ 0
  initial_pos : initialTimeoutNs ≠ 0
  /-- The first wait is within the ceiling, so the schedule starts where it says. -/
  initial_le : initialTimeoutNs ≤ maxTimeoutNs
  deriving DecidableEq

/-- `cfg_` as the constructor leaves it. -/
def RecoveryConfig.usable (c : RecoveryConfig) : UsableConfig :=
  let initial := if c.initialTimeoutNs = 0 then 1 else c.initialTimeoutNs
  { maxOutstanding := if c.maxOutstanding = 0 then 1 else c.maxOutstanding
    maxAttempts := if c.maxAttempts = 0 then 1 else c.maxAttempts
    initialTimeoutNs := initial
    maxTimeoutNs := if c.maxTimeoutNs < initial then initial else c.maxTimeoutNs
    outstanding_pos := by
      split
      · exact Nat.one_pos
      · exact Nat.pos_of_ne_zero ‹_›
    attempts_pos := by
      split
      · decide
      · assumption
    initial_pos := by
      by_cases h : c.initialTimeoutNs = 0
      · simp [initial, h]
      · simp [initial, h]
    initial_le := by
      split
      · exact UInt64.le_refl initial
      · exact UInt64.not_lt.mp ‹_› }

/-- What the client counts. The counters are natural numbers: they are only added to and read back.
-/
structure RecoveryStats where
  /-- Chunks accepted by `need`. -/
  rangesRequested : ℕ := 0
  requestsSent : ℕ := 0
  retries : ℕ := 0
  responses : ℕ := 0
  sequencesFilled : ℕ := 0
  rangesAbandoned : ℕ := 0
  /-- Dropped for want of room. -/
  rangesRefused : ℕ := 0
  deriving DecidableEq, Repr

/-- `RecoveryClient::Entry`. -/
structure RecoveryEntry where
  first : UInt64 := 0
  count : UInt16 := 0
  sentNs : UInt64 := 0
  timeoutNs : UInt64 := 0
  /-- The first send included. -/
  attempts : UInt32 := 0
  /-- Sent at least once. -/
  inFlight : Bool := false
  deriving DecidableEq, Repr

/-- The client: its ranges, in the order in which they came. -/
structure RecoveryClient where
  cfg : UsableConfig
  entries : List RecoveryEntry := []
  stats : RecoveryStats := {}
  deriving DecidableEq

namespace RecoveryEntry

variable (e : RecoveryEntry)

/-- The sequence after the last of the entry. -/
def endSeq : UInt64 := e.first + e.count.toUInt64

/-- What goes on the wire for it. -/
def request : RetransmitRequest := { firstSequence := e.first, count := e.count }

/-- In flight, and waited for as long as it was given. -/
def expired (nowNs : UInt64) : Bool := e.inFlight && !decide (nowNs < e.sentNs + e.timeoutNs)

/-- Sent once more: the wait is doubled, up to the ceiling, by a test that does not overflow. -/
def retried (c : UsableConfig) (nowNs : UInt64) : RecoveryEntry := { e with
  timeoutNs := if e.timeoutNs > c.maxTimeoutNs / 2 then c.maxTimeoutNs else e.timeoutNs * 2
  sentNs := nowNs
  attempts := e.attempts + 1 }

/-- Sent for the first time. -/
def sent (c : UsableConfig) (nowNs : UInt64) : RecoveryEntry := { e with
  inFlight := true
  sentNs := nowNs
  timeoutNs := c.initialTimeoutNs
  attempts := 1 }

/-- The response has nothing to do with the entry. -/
def misses (firstSeq respEnd : UInt64) : Bool := decide (respEnd ≤ e.first ∨ e.endSeq ≤ firstSeq)

/-- One round of the loop of `on_response`: what is left of the entry. -/
def trim (firstSeq respEnd : UInt64) : Option RecoveryEntry :=
  if e.misses firstSeq respEnd then some e
  else if e.endSeq ≤ respEnd then none
  else if firstSeq ≤ e.first then
    some { e with count := (e.endSeq - respEnd).toUInt16, first := respEnd }
  else some e

/-- And what is added to `sequences_filled`. -/
def filled (firstSeq respEnd : UInt64) : UInt64 :=
  if e.misses firstSeq respEnd then 0
  else if e.endSeq ≤ respEnd then e.endSeq - (if firstSeq > e.first then firstSeq else e.first)
  else if firstSeq ≤ e.first then respEnd - e.first
  else 0

end RecoveryEntry

namespace RecoveryClient

/-- `RecoveryClient(cfg)`. -/
def make (c : RecoveryConfig) : RecoveryClient := { cfg := c.usable }

variable (r : RecoveryClient)

/-- The loop of `need`. A round adds an entry, so the room for entries bounds the rounds. -/
def needLoop : ℕ → UInt64 → UInt64 → RecoveryClient → ℕ × RecoveryClient
  | 0, _, _, r => (0, r)
  | fuel + 1, seq, left, r =>
    if left = 0 then (0, r)
    else if r.cfg.maxOutstanding ≤ r.entries.length then
      (0, { r with stats := { r.stats with rangesRefused := r.stats.rangesRefused + 1 } })
    else
      let n := if left > 65535 then 65535 else left
      let rest := needLoop fuel (seq + n) (left - n) { r with
        entries := r.entries ++ [{ first := seq, count := n.toUInt16 }]
        stats := { r.stats with rangesRequested := r.stats.rangesRequested + 1 } }
      (rest.1 + 1, rest.2)

/-- A range that is missing is split into chunks that a request can name, each an entry. The number
is how many there are. -/
def need (firstSequence count : UInt64) : ℕ × RecoveryClient :=
  if count = 0 then (0, r)
  else needLoop (r.cfg.maxOutstanding - r.entries.length + 1) firstSequence count r

/-- The first loop of `next_request`: the request to retry, the entries it leaves, and those it
gave up on. -/
def retryLoop (c : UsableConfig) (nowNs : UInt64) : List RecoveryEntry →
    Option RetransmitRequest × List RecoveryEntry × List RecoveryEntry
  | [] => (none, [], [])
  | e :: es =>
    if e.expired nowNs = false then
      let rest := retryLoop c nowNs es
      (rest.1, e :: rest.2.1, rest.2.2)
    else if c.maxAttempts ≤ e.attempts then
      let rest := retryLoop c nowNs es
      (rest.1, rest.2.1, e :: rest.2.2)
    else (some e.request, e.retried c nowNs :: es, [])

/-- The second loop of `next_request`, over the entries not asked for yet. -/
def freshLoop (c : UsableConfig) (nowNs : UInt64) : List RecoveryEntry →
    Option RetransmitRequest × List RecoveryEntry
  | [] => (none, [])
  | e :: es =>
    if e.inFlight then
      let rest := freshLoop c nowNs es
      (rest.1, e :: rest.2)
    else (some e.request, e.sent c nowNs :: es)

/-- The one request to put on the wire now. A range that has been waited for goes before a fresh
one. -/
def nextRequest (nowNs : UInt64) : Option RetransmitRequest × RecoveryClient :=
  let retry := retryLoop r.cfg nowNs r.entries
  let stats := { r.stats with
    rangesAbandoned := r.stats.rangesAbandoned + retry.2.2.length }
  if retry.1.isSome then
    (retry.1, { r with
      entries := retry.2.1
      stats := { stats with
        requestsSent := stats.requestsSent + 1, retries := stats.retries + 1 } })
  else
    let fresh := freshLoop r.cfg nowNs retry.2.1
    if fresh.1.isSome then
      (fresh.1, { r with
        entries := fresh.2
        stats := { stats with requestsSent := stats.requestsSent + 1 } })
    else (none, { r with entries := retry.2.1, stats := stats })

/-- A response came: whatever it covers is no longer asked for. -/
def onResponse (firstSeq : UInt64) (count : UInt16) : RecoveryClient :=
  if count = 0 then r
  else
    let respEnd := firstSeq + count.toUInt64
    { r with
      entries := r.entries.filterMap fun e => e.trim firstSeq respEnd
      stats := { r.stats with
        sequencesFilled := r.stats.sequencesFilled +
          (r.entries.map fun e => (e.filled firstSeq respEnd).toNat).sum
        responses := r.stats.responses +
          if r.entries.any fun e => !e.misses firstSeq respEnd then 1 else 0 } }

/-- Everything is forgotten. -/
def clear : RecoveryClient := { r with entries := [] }

end RecoveryClient

/-- One call of the client's interface. -/
inductive RecoveryCall where
  | need (firstSequence count : UInt64)
  | nextRequest (nowNs : UInt64)
  | onResponse (firstSeq : UInt64) (count : UInt16)
  | clear
  deriving DecidableEq, Repr

/-- The sequences a call names do not run past the last one there is. -/
def RecoveryCall.InRange : RecoveryCall → Prop
  | .need first count => first.toNat + count.toNat < 2 ^ 64
  | .onResponse firstSeq count => firstSeq.toNat + count.toNat < 2 ^ 64
  | _ => True

instance : ∀ call : RecoveryCall, Decidable call.InRange
  | .need _ _ => inferInstanceAs (Decidable (_ < _))
  | .onResponse _ _ => inferInstanceAs (Decidable (_ < _))
  | .nextRequest _ => inferInstanceAs (Decidable True)
  | .clear => inferInstanceAs (Decidable True)

namespace RecoveryClient

/-- One call. -/
def exec (r : RecoveryClient) : RecoveryCall → RecoveryClient
  | .need first count => (r.need first count).2
  | .nextRequest nowNs => (r.nextRequest nowNs).2
  | .onResponse firstSeq count => r.onResponse firstSeq count
  | .clear => r.clear

end RecoveryClient

/-! ## What `need` does

It fills the room there is with chunks, from the start of the range on. -/

namespace RecoveryEntry

/-- Where the entry starts, and how many it has. -/
def range (e : RecoveryEntry) : ℕ × ℕ := (e.first.toNat, e.count.toNat)

/-- The sequences of the entry do not run past the last one there is. -/
def InRange (e : RecoveryEntry) : Prop := e.first.toNat + e.count.toNat < 2 ^ 64

end RecoveryEntry

namespace RecoveryClient

variable {r : RecoveryClient}

/-- `need` has put the ranges of `new` behind the entries of `r`, as far as `b`. -/
structure Needed (r : RecoveryClient) (first left : ℕ) (result : ℕ × RecoveryClient)
    (new : List RecoveryEntry) (b : ℕ) : Prop where
  cfg : result.2.cfg = r.cfg
  entries : result.2.entries = r.entries ++ new
  chunks : result.1 = new.length
  /-- The chunks follow each other from the start of the range to `b`, without a gap. -/
  tiles : Tiles first (new.map RecoveryEntry.range) b
  le : b ≤ first + left
  /-- Nothing has been sent for them yet. -/
  unsent : ∀ x ∈ new, x.attempts = 0 ∧ x.inFlight = false
  /-- The limit is kept, if it was. -/
  room : r.entries.length ≤ r.cfg.maxOutstanding → result.2.entries.length ≤ r.cfg.maxOutstanding
  /-- The rest of the range was refused, for want of room. -/
  refused : (b = first + left ∧ result.2.stats.rangesRefused = r.stats.rangesRefused) ∨
    (b < first + left ∧ result.2.stats.rangesRefused = r.stats.rangesRefused + 1 ∧
      r.cfg.maxOutstanding ≤ result.2.entries.length)

/-- An empty range adds nothing. -/
theorem needed_none (first : ℕ) : Needed r first 0 (0, r) [] first where
  cfg := rfl
  entries := (List.append_nil _).symm
  chunks := rfl
  tiles := rfl
  le := Nat.le_refl first
  unsent := fun _ he => absurd he List.not_mem_nil
  room := id
  refused := Or.inl ⟨rfl, rfl⟩

/-- The loop, on what is left of the range. -/
theorem needLoop_spec : ∀ (fuel : ℕ) (seq left : UInt64) (r : RecoveryClient),
    r.cfg.maxOutstanding - r.entries.length < fuel → seq.toNat + left.toNat < 2 ^ 64 →
    ∃ new b, Needed r seq.toNat left.toNat (needLoop fuel seq left r) new b := by
  intro fuel
  -- an induction on the fuel, which is more than there is room for: every round takes a place
  induction fuel with
  | zero => exact fun _ _ _ hfuel _ => absurd hfuel (Nat.not_lt_zero _)
  | succ fuel ih =>
    intro seq left r hfuel hwrap
    unfold needLoop
    by_cases h0 : left = 0
    · rw [if_pos h0, h0]
      exact ⟨[], seq.toNat, needed_none seq.toNat⟩
    rw [if_neg h0]
    have hleft : 0 < left.toNat := Nat.pos_of_ne_zero fun h => h0 (UInt64.toNat_inj.mp h)
    by_cases hfull : r.cfg.maxOutstanding ≤ r.entries.length
    · rw [if_pos hfull]
      exact ⟨[], seq.toNat, rfl, (List.append_nil _).symm, rfl, rfl, Nat.le_add_right _ _,
        fun _ he => absurd he List.not_mem_nil, id,
        Or.inr ⟨Nat.lt_add_of_pos_right hleft, rfl, hfull⟩⟩
    rw [if_neg hfull]
    -- the chunk this round takes, and what is left behind it
    simp only
    have hn : (if left > 65535 then (65535 : UInt64) else left).toNat = min left.toNat 65535 := by
      split
      · rename_i hbig
        have hbig' : (65535 : UInt64).toNat < left.toNat := UInt64.lt_iff_toNat_lt.mp hbig
        have hlit : (65535 : UInt64).toNat = 65535 := rfl
        omega
      · rename_i hsmall
        have hsmall' : left.toNat ≤ (65535 : UInt64).toNat :=
          UInt64.le_iff_toNat_le.mp (UInt64.not_lt.mp hsmall)
        have hlit : (65535 : UInt64).toNat = 65535 := rfl
        omega
    generalize (if left > 65535 then (65535 : UInt64) else left) = n at hn
    have hle : n.toNat ≤ left.toNat := hn ▸ Nat.min_le_left _ _
    have hcount : n.toUInt16.toNat = n.toNat := by
      rw [UInt64.toNat_toUInt16, Nat.mod_eq_of_lt (by omega)]
    have hseq : (seq + n).toNat = seq.toNat + n.toNat := by
      rw [UInt64.toNat_add, Nat.mod_eq_of_lt (by omega)]
    have hrest : (left - n).toNat = left.toNat - n.toNat :=
      UInt64.toNat_sub_of_le _ _ (UInt64.le_iff_toNat_le.mpr hle)
    obtain ⟨new, b, h⟩ := ih (seq + n) (left - n) { r with
        entries := r.entries ++ [{ first := seq, count := n.toUInt16 }]
        stats := { r.stats with rangesRequested := r.stats.rangesRequested + 1 } }
      (by simp only [List.length_append, List.length_singleton]; omega) (by omega)
    generalize needLoop fuel (seq + n) (left - n) _ = rest at h
    rw [hseq, hrest] at h
    have hbound := h.le
    -- the chunk of this round in front of those of the rounds after it
    refine ⟨{ first := seq, count := n.toUInt16 } :: new, b, h.cfg,
      ?_, ?_, ?_, by omega, ?_, ?_, ?_⟩
    · rw [h.entries, List.append_assoc, List.singleton_append]
    · rw [h.chunks, List.length_cons]
    · refine ⟨rfl, ?_, ?_⟩
      · show 0 < n.toUInt16.toNat
        omega
      · show Tiles (seq.toNat + n.toUInt16.toNat) _ b
        rw [hcount]
        exact h.tiles
    · intro e he
      rcases List.mem_cons.mp he with rfl | hmem
      · exact ⟨rfl, rfl⟩
      · exact h.unsent e hmem
    · intro _
      refine h.room ?_
      simp only [List.length_append, List.length_singleton]
      omega
    · rcases h.refused with ⟨hb, hsame⟩ | ⟨hb, hmore, hroom⟩
      · exact Or.inl ⟨by omega, hsame⟩
      · exact Or.inr ⟨by omega, hmore, hroom⟩

/-- **What `need` does**: it splits the range into chunks that follow each other from its start,
all of it unless there is no room left. -/
theorem need_spec {first count : UInt64} (hwrap : first.toNat + count.toNat < 2 ^ 64) :
    ∃ new b, Needed r first.toNat count.toNat (r.need first count) new b := by
  unfold need
  by_cases h0 : count = 0
  · rw [if_pos h0, h0]
    exact ⟨[], first.toNat, needed_none first.toNat⟩
  · rw [if_neg h0]
    exact needLoop_spec _ first count r (Nat.lt_succ_self _) hwrap

/-- Chunks that cover what lies between `first` and `b`, each of it once, none of them empty or
longer than a request can be. -/
structure Chunked (first : ℕ) (new : List RecoveryEntry) (b : ℕ) : Prop where
  count : ∀ e ∈ new, 1 ≤ e.count.toNat ∧ e.count.toNat ≤ 65535
  apart : (new.map RecoveryEntry.range).Pairwise fun r r' => r.1 + r.2 ≤ r'.1
  covers : ∀ x, (∃ e ∈ new, Spans e.range x) ↔ first ≤ x ∧ x < b

/-- So the chunks cover what was accepted, each sequence once. -/
theorem Needed.chunked {first left : ℕ} {result : ℕ × RecoveryClient} {new : List RecoveryEntry}
    {b : ℕ} (h : Needed r first left result new b) : Chunked first new b where
  count := fun e he => ⟨h.tiles.pos e.range (List.mem_map_of_mem he),
    Nat.le_of_lt_succ e.count.toNat_lt⟩
  apart := h.tiles.pairwise
  covers := by
    intro x
    rw [← h.tiles.spans_iff x]
    simp

/-! ## What `next_request` does

The first loop retries one entry at most and drops those that have had their attempts on the way to
it. Only if it finds none to retry does the second loop look for one that has not been sent. -/

section NextRequest

variable {c : UsableConfig} {nowNs : UInt64}

end NextRequest

/-! ## What `on_response` does

Each entry is looked at by itself, and is kept, shortened from the front, or erased. It is erased
as soon as the response reaches its end, wherever the response starts. -/

end RecoveryClient

namespace RecoveryEntry

variable {e e' : RecoveryEntry} {firstSeq respEnd : UInt64} {x : ℕ}

/-- The response starts inside the entry and reaches its end. -/
def Cuts (firstSeq respEnd : UInt64) (e : RecoveryEntry) : Prop :=
  e.first < firstSeq ∧ firstSeq < e.endSeq ∧ e.endSeq ≤ respEnd

instance (firstSeq respEnd : UInt64) (e : RecoveryEntry) : Decidable (Cuts firstSeq respEnd e) :=
  inferInstanceAs (Decidable (_ ∧ _))

end RecoveryEntry

end Tickerplant
