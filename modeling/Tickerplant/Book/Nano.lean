import Mathlib.Data.Finset.Insert
import Mathlib.Data.Finset.Card
import Mathlib.Data.Finset.Range
import Mathlib.Data.List.Nodup

/-!
# What the book takes from NanoExchange

`nano::Order`, `nano::PriceLevel` and `nano::MemoryPool` are not in this repository: they come with
NanoExchange, and only what the book calls of them is known. An order is the record of the fields
the book reads. A price level and a pool are classes: the operations the book calls, and one more
that no code calls and only statements look at, the list of orders threaded through a level and the
set of orders a pool has handed out.

`LawfulPriceLevel` and `LawfulMemoryPool` are what the book relies on, as the tests of the book
sides have it: a level keeps its orders oldest first and counts their shares, and a pool hands out
an order nobody has until its capacity is reached. The laws are conditional where the call is. A
level promises nothing about an order appended twice or removed without being there, and a pool
nothing about a place given back twice; that the book never does either is part of its invariant.

`ListLevel` and `CellPool` at the end satisfy the laws, so that they are laws of something, and
concrete runs can be evaluated.
-/

set_option autoImplicit false

namespace Tickerplant

/-- `nano::Price`, in ten-thousandths of a dollar. -/
abbrev Price := Int

/-- `nano::Quantity`. -/
abbrev Quantity := UInt32

/-- `nano::Side`. -/
inductive Side where
  | buy
  | sell
  deriving DecidableEq, Repr

/-- Where the pool keeps an order. -/
abbrev OrderPtr := ℕ

/-- `nano::Order`. -/
structure Order where
  id : UInt64
  side : Side
  price : Price
  remainingQty : Quantity
  timestamp : UInt64
  symbol : UInt16
  deriving DecidableEq, Repr

/-- The list of the orders of one price. -/
class PriceLevel (L : Type) where
  /-- An empty level of a price. -/
  make : Price → L
  /-- Thread an order in behind the others. -/
  append : L → OrderPtr → Order → L
  /-- Take an order out, wherever it stands. -/
  remove : L → OrderPtr → Order → L
  /-- Take shares off the total, after an order of the level has lost them. -/
  reduce : L → Quantity → L
  price : L → Price
  totalQuantity : L → Quantity
  orderCount : L → UInt32
  isEmpty : L → Bool
  /-- The orders linked on the level, oldest first. -/
  linked : L → List OrderPtr

/-- What a level promises. Its price never changes; `linked` is a queue; `totalQuantity` moves with
the shares of what comes and goes, in 32 bits, and is not recomputed, so that it is only as right
as what it is told; the count and `isEmpty` are the list's. -/
class LawfulPriceLevel (L : Type) [PriceLevel L] : Prop where
  linked_make : ∀ p : Price, PriceLevel.linked (PriceLevel.make p : L) = []
  -- an order is appended to a list it is not on, and removed from one it is on: an intrusive list
  -- has no more to offer
  linked_append : ∀ (l : L) o ord, o ∉ PriceLevel.linked l →
    PriceLevel.linked (PriceLevel.append l o ord) = PriceLevel.linked l ++ [o]
  linked_remove : ∀ (l : L) o ord, o ∈ PriceLevel.linked l →
    PriceLevel.linked (PriceLevel.remove l o ord) = (PriceLevel.linked l).erase o
  linked_reduce : ∀ (l : L) q, PriceLevel.linked (PriceLevel.reduce l q) = PriceLevel.linked l
  total_make : ∀ p : Price, PriceLevel.totalQuantity (PriceLevel.make p : L) = 0
  total_append : ∀ (l : L) o ord, o ∉ PriceLevel.linked l →
    PriceLevel.totalQuantity (PriceLevel.append l o ord) =
      PriceLevel.totalQuantity l + ord.remainingQty
  total_remove : ∀ (l : L) o ord, o ∈ PriceLevel.linked l →
    PriceLevel.totalQuantity (PriceLevel.remove l o ord) =
      PriceLevel.totalQuantity l - ord.remainingQty
  total_reduce : ∀ (l : L) q,
    PriceLevel.totalQuantity (PriceLevel.reduce l q) = PriceLevel.totalQuantity l - q
  price_make : ∀ p : Price, PriceLevel.price (PriceLevel.make p : L) = p
  price_append : ∀ (l : L) o ord, PriceLevel.price (PriceLevel.append l o ord) = PriceLevel.price l
  price_remove : ∀ (l : L) o ord, PriceLevel.price (PriceLevel.remove l o ord) = PriceLevel.price l
  price_reduce : ∀ (l : L) q, PriceLevel.price (PriceLevel.reduce l q) = PriceLevel.price l
  orderCount_eq : ∀ l : L,
    PriceLevel.orderCount l = UInt32.ofNat (PriceLevel.linked l).length
  isEmpty_iff : ∀ l : L, PriceLevel.isEmpty l = true ↔ PriceLevel.linked l = []

/-- `nano::MemoryPool<Order, PoolCapacity>`, as a source of places for orders. -/
class MemoryPool (P : Type) where
  make : P
  allocate : P → Option (OrderPtr × P)
  deallocate : P → OrderPtr → P
  /-- `PoolCapacity`. -/
  capacity : P → ℕ
  /-- The orders handed out and not given back. -/
  inUse : P → Finset OrderPtr

/-- What a pool promises. It is full exactly when its capacity is out, and what it hands out was
nobody's until then. Which free place it hands out is its own business. -/
class LawfulMemoryPool (P : Type) [MemoryPool P] : Prop where
  inUse_make : MemoryPool.inUse (MemoryPool.make : P) = ∅
  allocate_none : ∀ p : P, MemoryPool.allocate p = none ↔
    MemoryPool.capacity p ≤ (MemoryPool.inUse p).card
  allocate_some : ∀ (p p' : P) o, MemoryPool.allocate p = some (o, p') →
    o ∉ MemoryPool.inUse p ∧ MemoryPool.inUse p' = insert o (MemoryPool.inUse p) ∧
      MemoryPool.capacity p' = MemoryPool.capacity p
  -- a place can only be given back by who has it
  inUse_deallocate : ∀ (p : P) o, o ∈ MemoryPool.inUse p →
    MemoryPool.inUse (MemoryPool.deallocate p o) = (MemoryPool.inUse p).erase o
  capacity_deallocate : ∀ (p : P) o,
    MemoryPool.capacity (MemoryPool.deallocate p o) = MemoryPool.capacity p

/-! ## A level and a pool of that kind -/

/-- A level that is its list and its total. -/
structure ListLevel where
  price : Price
  total : Quantity
  linked : List OrderPtr
  deriving DecidableEq, Repr

instance : PriceLevel ListLevel where
  make p := { price := p, total := 0, linked := [] }
  append l o ord := { l with total := l.total + ord.remainingQty, linked := l.linked ++ [o] }
  remove l o ord := { l with total := l.total - ord.remainingQty, linked := l.linked.erase o }
  reduce l q := { l with total := l.total - q }
  price := ListLevel.price
  totalQuantity := ListLevel.total
  orderCount l := UInt32.ofNat l.linked.length
  isEmpty l := l.linked.isEmpty
  linked := ListLevel.linked

instance : LawfulPriceLevel ListLevel where
  linked_make _ := rfl
  linked_append _ _ _ _ := rfl
  linked_remove _ _ _ _ := rfl
  linked_reduce _ _ := rfl
  total_make _ := rfl
  total_append _ _ _ _ := rfl
  total_remove _ _ _ _ := rfl
  total_reduce _ _ := rfl
  price_make _ := rfl
  price_append _ _ _ := rfl
  price_remove _ _ _ := rfl
  price_reduce _ _ := rfl
  orderCount_eq _ := rfl
  isEmpty_iff _ := List.isEmpty_iff

/-- A pool that knows which of its places are taken, and hands out the first that is not. -/
structure CellPool (capacity : ℕ) where
  /-- The places handed out. -/
  used : Finset OrderPtr
  /-- There are no others, which is what makes a full pool one with `capacity` places out. -/
  range : used ⊆ Finset.range capacity

namespace CellPool

variable {capacity : ℕ}

/-- The first place that is not taken, if there is one below the capacity. -/
def allocate (p : CellPool capacity) : Option (OrderPtr × CellPool capacity) :=
  match h : (List.range capacity).find? fun o => decide (o ∉ p.used) with
  | none => none
  | some o => some (o, {
      used := insert o p.used
      range := Finset.insert_subset
        (Finset.mem_range.mpr (List.mem_range.mp (List.mem_of_find?_eq_some h))) p.range })

instance : MemoryPool (CellPool capacity) where
  make := ⟨∅, Finset.empty_subset _⟩
  allocate := allocate
  deallocate p o := ⟨p.used.erase o, (Finset.erase_subset _ _).trans p.range⟩
  capacity _ := capacity
  inUse := CellPool.used

theorem allocate_none (p : CellPool capacity) : p.allocate = none ↔ capacity ≤ p.used.card := by
  unfold allocate
  split
  · rename_i h
    refine ⟨fun _ => ?_, fun _ => rfl⟩
    have hall : Finset.range capacity ⊆ p.used := by
      intro o ho
      have hno := List.find?_eq_none.mp h o (List.mem_range.mpr (Finset.mem_range.mp ho))
      by_contra hout
      exact hno (decide_eq_true hout)
    have hcard := Finset.card_le_card hall
    rwa [Finset.card_range] at hcard
  · rename_i o h
    refine ⟨fun hc => absurd hc (by simp), fun hle => ?_⟩
    have hall := Finset.eq_of_subset_of_card_le p.range (by rw [Finset.card_range]; exact hle)
    have hmem := List.mem_of_find?_eq_some h
    have hout := List.find?_some h
    rw [decide_eq_true_eq, hall, Finset.mem_range] at hout
    exact absurd (List.mem_range.mp hmem) hout

instance : LawfulMemoryPool (CellPool capacity) where
  inUse_make := rfl
  allocate_none := allocate_none
  allocate_some := by
    intro p p' o h
    have h : p.allocate = some (o, p') := h
    unfold allocate at h
    split at h
    · exact absurd h (by simp)
    · rename_i o' hf
      rw [Option.some.injEq, Prod.mk.injEq] at h
      obtain ⟨rfl, rfl⟩ := h
      have hout := List.find?_some hf
      exact ⟨of_decide_eq_true hout, rfl, rfl⟩
  inUse_deallocate _ _ _ := rfl
  capacity_deallocate _ _ := rfl

end CellPool

end Tickerplant
