import Mathlib.Data.Finset.Card
import Mathlib.Data.Finset.Range
import Tickerplant.Lib.Word

/-!
# A masked ring of numbered messages

A fixed ring of slots, each with a fixed stretch of bytes, in which message `n` lives in slot `n &
(size - 1)`. The mapping aliases every `size` numbers, so a slot records which number it holds and
a lookup compares (`has`); the bytes of a message are the first `len` bytes of its slot's stretch
(`bytesOf`), whatever an earlier and longer message left behind them.

The length is a 32-bit field. A message of `2 ^ 32` bytes or more is stored whole and read back
short (`bytesOf_write_self` says how short), so whoever wants the message back must keep such
messages out.

The `_self` and `_ne` lemmas say what each operation does to the slot it touches and that it
touches no other. Which slots are touched depends on the number through its remainder only, so
every lemma about another number asks for a different index, not for a different number. `occupied`
counts the slots in use.
-/

set_option autoImplicit false

namespace Tickerplant.Lib

/-- What one slot records. -/
structure Slot where
  seq : UInt64 := 0
  len : UInt32 := 0
  present : Bool := false
  deriving DecidableEq, Repr, Inhabited

/-- The slots, and each slot's stretch of bytes. -/
structure SlotRing where
  slots : ℕ → Slot
  bytes : ℕ → List UInt8

namespace SlotRing

/-- Every slot vacant and every byte zero. -/
def empty (width : ℕ) : SlotRing :=
  { slots := fun _ => {}, bytes := fun _ => List.replicate width 0 }

variable (size : ℕ)

/-- The slot `seq` maps to, whatever it holds. -/
def slotOf (r : SlotRing) (seq : UInt64) : Slot := r.slots (maskIndex size seq)

/-- Whether the slot `seq` maps to holds `seq`. -/
def has (r : SlotRing) (seq : UInt64) : Bool :=
  (r.slotOf size seq).present && (r.slotOf size seq).seq == seq

/-- The bytes kept in the slot `seq` maps to. -/
def bytesOf (r : SlotRing) (seq : UInt64) : List UInt8 :=
  (r.bytes (maskIndex size seq)).take (r.slotOf size seq).len.toNat

/-- Copy a message over the front of its slot's stretch and mark the slot. -/
def write (r : SlotRing) (seq : UInt64) (payload : List UInt8) : SlotRing :=
  let i := maskIndex size seq
  { slots := Function.update r.slots i
      { seq := seq, len := UInt32.ofNat payload.length, present := true }
    bytes := Function.update r.bytes i (payload ++ (r.bytes i).drop payload.length) }

/-- Mark one slot vacant. Its number and its bytes stay behind. -/
def vacate (r : SlotRing) (seq : UInt64) : SlotRing :=
  let i := maskIndex size seq
  { r with slots := Function.update r.slots i { r.slots i with present := false } }

/-- Mark every slot vacant. -/
def clear (r : SlotRing) : SlotRing :=
  { r with slots := fun i => { r.slots i with present := false } }

/-- How many slots are in use. -/
def occupied (r : SlotRing) : ℕ :=
  ((Finset.range size).filter fun i => (r.slots i).present = true).card

variable {size : ℕ} {r : SlotRing} {s t : UInt64} {p : List UInt8}

/-- What a lookup compares. -/
theorem has_iff : r.has size s = true ↔
    (r.slots (maskIndex size s)).present = true ∧ (r.slots (maskIndex size s)).seq = s := by
  simp [has, slotOf]

@[simp] theorem has_empty (w : ℕ) : (SlotRing.empty w).has size s = false := rfl

@[simp] theorem has_clear : r.clear.has size s = false := rfl

@[simp] theorem clear_present (i : ℕ) : (r.clear.slots i).present = false := rfl

/-! ## Writing

What was in the slot is written over, whichever number it had. -/

theorem write_slots_self :
    (r.write size s p).slots (maskIndex size s)
      = { seq := s, len := UInt32.ofNat p.length, present := true } := by
  simp [write]

theorem write_slots_ne {i : ℕ} (h : i ≠ maskIndex size s) :
    (r.write size s p).slots i = r.slots i := by
  simp [write, h]

/-- A slot after a write is the one written, or what it was. -/
theorem write_slots_cases (r : SlotRing) (i : ℕ) :
    (i = maskIndex size s ∧ (r.write size s p).slots i
        = { seq := s, len := UInt32.ofNat p.length, present := true }) ∨
      (i ≠ maskIndex size s ∧ (r.write size s p).slots i = r.slots i) := by
  by_cases h : i = maskIndex size s
  · exact Or.inl ⟨h, h ▸ write_slots_self⟩
  · exact Or.inr ⟨h, write_slots_ne h⟩

/-- What was written is there. -/
theorem has_write_self : (r.write size s p).has size s = true := by
  rw [has_iff, write_slots_self]
  exact ⟨rfl, rfl⟩

/-- No other slot is touched. -/
theorem has_write_ne (h : maskIndex size t ≠ maskIndex size s) :
    (r.write size s p).has size t = r.has size t := by
  unfold has slotOf
  rw [write_slots_ne h]

/-- What was written comes back as far as the length field can say how long it was. -/
theorem bytesOf_write_self :
    (r.write size s p).bytesOf size s = p.take (p.length % 2 ^ 32) := by
  unfold bytesOf slotOf
  rw [write_slots_self]
  simp only [write, Function.update_self, UInt32.toNat_ofNat']
  rw [List.take_append_of_le_length (Nat.mod_le _ _)]

theorem bytesOf_write_ne (h : maskIndex size t ≠ maskIndex size s) :
    (r.write size s p).bytesOf size t = r.bytesOf size t := by
  unfold bytesOf slotOf
  rw [write_slots_ne h]
  simp [write, h]

/-! ## Vacating

Only the mark is taken away: the number and the bytes of a slot outlive its use. -/

theorem vacate_slots_self :
    (r.vacate size s).slots (maskIndex size s)
      = { r.slots (maskIndex size s) with present := false } := by
  simp [vacate]

theorem vacate_slots_ne {i : ℕ} (h : i ≠ maskIndex size s) :
    (r.vacate size s).slots i = r.slots i := by
  simp [vacate, h]

/-- A slot still in use is one that was not vacated. -/
theorem present_of_vacate {i : ℕ} (h : ((r.vacate size s).slots i).present = true) :
    i ≠ maskIndex size s ∧ (r.vacate size s).slots i = r.slots i := by
  have hne : i ≠ maskIndex size s := by
    rintro rfl
    rw [vacate_slots_self] at h
    exact absurd h (by simp)
  exact ⟨hne, vacate_slots_ne hne⟩

/-- What was vacated is gone. -/
theorem has_vacate_self : (r.vacate size s).has size s = false := by
  rw [← Bool.not_eq_true, has_iff, vacate_slots_self]
  exact fun h => absurd h.1 (by simp)

theorem has_vacate_ne (h : maskIndex size t ≠ maskIndex size s) :
    (r.vacate size s).has size t = r.has size t := by
  unfold has slotOf
  rw [vacate_slots_ne h]

theorem bytesOf_vacate_ne (h : maskIndex size t ≠ maskIndex size s) :
    (r.vacate size s).bytesOf size t = r.bytesOf size t := by
  unfold bytesOf slotOf
  rw [vacate_slots_ne h]
  rfl

/-! ## Counting

Here the size must be a power of two, since only then is every index that the mask yields one of
the ring's. -/

/-- No more slots are in use than there are. -/
theorem occupied_le : r.occupied size ≤ size := by
  unfold occupied
  refine (Finset.card_filter_le _ _).trans ?_
  rw [Finset.card_range]

@[simp] theorem occupied_clear : r.clear.occupied size = 0 := by
  simp [occupied, clear]

theorem occupied_eq_zero_iff :
    r.occupied size = 0 ↔ ∀ i < size, (r.slots i).present = false := by
  unfold occupied
  rw [Finset.card_eq_zero, Finset.filter_eq_empty_iff]
  simp only [Finset.mem_range, Bool.not_eq_true]

theorem maskIndex_lt {k : ℕ} (hs : size = 2 ^ k) (x : UInt64) : maskIndex size x < size := by
  rw [maskIndex_eq_mod hs]
  exact Nat.mod_lt _ (hs ▸ Nat.two_pow_pos k)

/-- A message written to a vacant slot. -/
theorem occupied_write {k : ℕ} (hs : size = 2 ^ k)
    (h : (r.slots (maskIndex size s)).present = false) :
    (r.write size s p).occupied size = r.occupied size + 1 := by
  unfold occupied
  have hset : ((Finset.range size).filter fun i => ((r.write size s p).slots i).present = true)
      = insert (maskIndex size s)
        ((Finset.range size).filter fun i => (r.slots i).present = true) := by
    ext i
    simp only [Finset.mem_filter, Finset.mem_range, Finset.mem_insert]
    by_cases hi : i = maskIndex size s
    · subst hi
      simp [write_slots_self, maskIndex_lt hs s]
    · simp [write_slots_ne hi, hi]
  rw [hset, Finset.card_insert_of_notMem]
  simp [h]

/-- One slot fewer. -/
theorem occupied_vacate {k : ℕ} (hs : size = 2 ^ k)
    (h : (r.slots (maskIndex size s)).present = true) :
    (r.vacate size s).occupied size + 1 = r.occupied size := by
  unfold occupied
  have hset : ((Finset.range size).filter fun i => ((r.vacate size s).slots i).present = true)
      = ((Finset.range size).filter fun i => (r.slots i).present = true).erase
        (maskIndex size s) := by
    ext i
    simp only [Finset.mem_filter, Finset.mem_range, Finset.mem_erase]
    by_cases hi : i = maskIndex size s
    · subst hi
      simp [vacate_slots_self]
    · simp [vacate_slots_ne hi, hi]
  rw [hset, Finset.card_erase_add_one]
  simp [h, maskIndex_lt hs s]

/-- A ring that has something is not empty. -/
theorem occupied_pos_of_has {k : ℕ} (hs : size = 2 ^ k) (h : r.has size s = true) :
    0 < r.occupied size := by
  rcases Nat.eq_zero_or_pos (r.occupied size) with h0 | hpos
  · have := occupied_eq_zero_iff.mp h0 _ (maskIndex_lt hs s)
    rw [(has_iff.mp h).1] at this
    exact absurd this (by simp)
  · exact hpos

end SlotRing

end Tickerplant.Lib
