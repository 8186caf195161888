import Mathlib.Algebra.BigOperators.Group.List.Basic
import Tickerplant.Book.Meaning

/-!
# The book's representation

`Rep` is what the builder's structures say of each other. The table maps a reference to the order
that carries it; an order is linked on the level of its symbol, side and price exactly when the
table reaches it; no level is empty, and a level's total is the sum of what its orders have left;
the pool has handed out the orders the table reaches and no others.

What a handler does to these structures is one of three things: an order goes (`without`,
`removeOrder_spec`), an order loses shares (`lessened`, `reduce_spec`), or an order comes
(`joined`, `rest_spec`). Each is one state, and each clause of `Rep` a lemma about it: who is
linked where afterwards (`on_…`), whom the table reaches (`toMap_…`, `reached_…`) and what the one
level that changed says (`levelRep_…`). Everything away from that level is as it was.

None of the clauses stands without the others. A level is unlinked from by the order's own symbol,
side and price, so that the order must be on that level or nothing happens and the level keeps a
place the pool will hand out again. A place is given back once because an order has one reference.
And the next order finds its place unlinked because what is linked is reached, and what is reached
is in use.

The first two changes keep `Rep`. The third keeps it when the reference is not zero and not in the
table; otherwise the order is linked and counted and the table does not reach it, or stops reaching
another one (`rest_outOfStep`).
-/

set_option autoImplicit false

namespace Tickerplant

/-! ## A side after a change -/

namespace BookBuilder

section Sides

variable {L : Type} [PriceLevel L] {kind : SideKind} {isBid : Bool} {s : BookSide L}
  {o : OrderPtr} {ord : Order} {q : Price}

theorem sorted_link (h : BookSide.Sorted isBid s) :
    BookSide.Sorted isBid (link kind isBid o ord s) :=
  BookSide.sorted_modify (BookSide.sorted_level h)

theorem lookup_link (h : BookSide.Sorted isBid s) :
    (link kind isBid o ord s).lookup q =
      if q = ord.price then
        some (PriceLevel.append ((s.lookup ord.price).getD (PriceLevel.make ord.price)) o ord)
      else s.lookup q := by
  unfold link
  rw [BookSide.lookup_modify, BookSide.lookup_level h, BookSide.lookup_level h]
  by_cases hq : q = ord.price <;> simp [hq]

theorem sorted_unlink (h : BookSide.Sorted isBid s) :
    BookSide.Sorted isBid (unlink kind isBid o ord s) := by
  unfold unlink
  split
  · exact h
  · simp only
    split
    · exact BookSide.sorted_erase (BookSide.sorted_modify h)
    · exact BookSide.sorted_modify h

theorem lookup_unlink (h : BookSide.Sorted isBid s) {lvl : L}
    (hl : s.lookup ord.price = some lvl) :
    (unlink kind isBid o ord s).lookup q =
      if q = ord.price then
        if PriceLevel.isEmpty (PriceLevel.remove lvl o ord) then none
        else some (PriceLevel.remove lvl o ord)
      else s.lookup q := by
  unfold unlink
  rw [BookSide.find_eq h, hl]
  simp only
  by_cases hempty : PriceLevel.isEmpty (PriceLevel.remove lvl o ord) = true
  · rw [if_pos hempty, BookSide.lookup_erase (BookSide.sorted_modify h), BookSide.lookup_modify]
    by_cases hq : q = ord.price <;> simp [hq, hempty]
  · rw [if_neg hempty, BookSide.lookup_modify, hl]
    by_cases hq : q = ord.price <;> simp [hq, hempty]

theorem sorted_shrink (h : BookSide.Sorted isBid s) {n : Quantity} :
    BookSide.Sorted isBid (shrink kind isBid ord n s) := by
  unfold shrink
  split
  · exact h
  · exact BookSide.sorted_modify h

theorem lookup_shrink (h : BookSide.Sorted isBid s) {n : Quantity} {lvl : L}
    (hl : s.lookup ord.price = some lvl) :
    (shrink kind isBid ord n s).lookup q =
      if q = ord.price then some (PriceLevel.reduce lvl n) else s.lookup q := by
  unfold shrink
  rw [BookSide.find_eq h, hl]
  simp only
  rw [BookSide.lookup_modify, hl, Option.map_some]

end Sides

/-! ## The invariant -/

variable {L P : Type} [PriceLevel L] [MemoryPool P]

/-- The level at a price of a side of a book. -/
def levelAt (b : BookBuilder L P) (stock : UInt16) (side : Side) (p : Price) : Option L :=
  ((b.books stock).side side).lookup p

/-- What a level says about the orders on it. -/
structure LevelRep (heap : OrderPtr → Order) (p : Price) (lvl : L) : Prop where
  /-- It carries the price it is kept under. -/
  price : PriceLevel.price lvl = p
  /-- An order is threaded through once, so that one unlinking takes it off. -/
  nodup : (PriceLevel.linked lvl).Nodup
  /-- The total is the sum, at the width of the counter. -/
  total : PriceLevel.totalQuantity lvl =
    UInt32.ofNat ((PriceLevel.linked lvl).map fun o => (heap o).remainingQty.toNat).sum

/-- The order is linked on the level of that symbol, side and price. -/
def On (b : BookBuilder L P) (stock : UInt16) (side : Side) (p : Price) (o : OrderPtr) : Prop :=
  ∃ lvl, b.levelAt stock side p = some lvl ∧ o ∈ PriceLevel.linked lvl

/-- The table knows the order. -/
def Reached (b : BookBuilder L P) (o : OrderPtr) : Prop := ∃ ref, b.orders.toMap ref = some o

/-- **The invariant of the book.** `on` is its centre: what is linked on a level is what the table
reaches, level by level, so that an order can neither rest where nothing finds it nor be found
where it does not rest. `ident` makes the two ways from an order to its reference one, and with it
two references never share an order. `nonempty` is what lets `best` be read off the first level,
`live` lets the counter stand for the table, and `pool` and `room` say that a place given back is
one that can be handed out again: after an order has gone the next one always finds a place. -/
structure Rep (b : BookBuilder L P) : Prop where
  /-- The table answers as a finite map. -/
  map : b.orders.Wf splitMix64
  /-- Searching a side by halves finds what is there. -/
  sorted : ∀ stock side, BookSide.Sorted side.isBid ((b.books stock).side side)
  /-- What each level says of its own orders. -/
  level : ∀ stock side p lvl, b.levelAt stock side p = some lvl → LevelRep b.heap p lvl
  /-- An empty level is dropped at once. -/
  nonempty : ∀ stock side p lvl, b.levelAt stock side p = some lvl → PriceLevel.linked lvl ≠ []
  /-- An order knows the reference it is found by. -/
  ident : ∀ ref o, b.orders.toMap ref = some o → (b.heap o).id = ref
  /-- Linked is reached, in the right place. -/
  on : ∀ stock side p o, b.On stock side p o ↔ b.Reached o ∧
    (b.heap o).symbol = stock ∧ (b.heap o).side = side ∧ (b.heap o).price = p
  /-- The counter counts the table. -/
  live : b.stats.liveOrders = b.orders.size
  /-- In use is reached. -/
  pool : ∀ o, o ∈ MemoryPool.inUse b.pool ↔ b.Reached o
  /-- No more is in use than there is, which the pool's law for `allocate` needs to know. -/
  room : (MemoryPool.inUse b.pool).card ≤ MemoryPool.capacity b.pool

/-- The map the builder stands for. -/
def meaning (b : BookBuilder L P) : Orders := fun ref =>
  (b.orders.toMap ref).map fun o =>
    { symbol := (b.heap o).symbol, side := (b.heap o).side, price := (b.heap o).price,
      remaining := (b.heap o).remainingQty }

variable {b b' : BookBuilder L P}

/-- `Rep` reads the pool, the orders, the books and one counter. -/
theorem Rep.congr (h : Rep b) (hpool : b'.pool = b.pool) (hheap : b'.heap = b.heap)
    (horders : b'.orders = b.orders) (hbooks : b'.books = b.books)
    (hlive : b'.stats.liveOrders = b.stats.liveOrders) : Rep b' := by
  -- `levelAt`, `On` and `Reached` are read off the books and the table alone
  have hat : ∀ stock side p, b'.levelAt stock side p = b.levelAt stock side p := by
    intro stock side p
    unfold levelAt
    rw [hbooks]
  have hon : ∀ stock side p o, b'.On stock side p o ↔ b.On stock side p o := by
    intro stock side p o
    unfold On
    rw [hat]
  have hreached : ∀ o, b'.Reached o ↔ b.Reached o := by
    intro o
    unfold Reached
    rw [horders]
  exact {
    map := horders ▸ h.map
    sorted := hbooks ▸ h.sorted
    level := fun stock side p lvl hl => hheap ▸ h.level stock side p lvl (hat _ _ _ ▸ hl)
    nonempty := fun stock side p lvl hl => h.nonempty stock side p lvl (hat _ _ _ ▸ hl)
    ident := fun ref o hro => hheap ▸ h.ident ref o (horders ▸ hro)
    on := fun stock side p o => by rw [hon, hreached, hheap, h.on]
    live := by rw [hlive, horders, h.live]
    pool := fun o => by rw [hpool, hreached, h.pool]
    room := hpool ▸ h.room }

/-- What is linked on a level is in the table under its own reference, and belongs there. -/
theorem Rep.linked (h : Rep b) {stock : UInt16} {side : Side} {p : Price} {lvl : L}
    (hl : b.levelAt stock side p = some lvl) {o : OrderPtr} (ho : o ∈ PriceLevel.linked lvl) :
    b.orders.toMap (b.heap o).id = some o ∧
      (b.heap o).symbol = stock ∧ (b.heap o).side = side ∧ (b.heap o).price = p := by
  obtain ⟨⟨ref, hr⟩, hwhere⟩ := (h.on stock side p o).mp ⟨lvl, hl, ho⟩
  exact ⟨by rw [h.ident ref o hr, hr], hwhere⟩

/-- What the table reaches is linked on its level. -/
theorem Rep.reached (h : Rep b) {ref : UInt64} {o : OrderPtr} (hr : b.orders.toMap ref = some o) :
    (b.heap o).id = ref ∧
      ∃ lvl, b.levelAt (b.heap o).symbol (b.heap o).side (b.heap o).price = some lvl ∧
        o ∈ PriceLevel.linked lvl :=
  ⟨h.ident ref o hr, (h.on _ _ _ o).mpr ⟨⟨ref, hr⟩, rfl, rfl, rfl⟩⟩

/-- A reference finds at most one order, and an order answers to one reference. -/
theorem Rep.ref_eq (h : Rep b) {ref ref' : UInt64} {o : OrderPtr}
    (hr : b.orders.toMap ref = some o) (hr' : b.orders.toMap ref' = some o) : ref = ref' :=
  (h.ident ref o hr).symm.trans (h.ident ref' o hr')

/-- A level among those of its side. -/
theorem levelAt_mem (h : Rep b) {stock : UInt16} {side : Side} {e : Price × L}
    (he : e ∈ ((b.books stock).side side).levels) : b.levelAt stock side e.1 = some e.2 :=
  (BookSide.lookup_some (h.sorted stock side)).mpr he

theorem find_eq (h : Rep b) (ref : UInt64) : b.find ref = some (b.orders.toMap ref) :=
  FlatOrderMap.find_eq h.map ref

omit [PriceLevel L] [MemoryPool P] in
/-- A changed side, read back. -/
theorem levelAt_updateSide {stock stock' : UInt16} {side side' : Side} {p : Price}
    {f : BookSide L → BookSide L} :
    (b.updateSide stock side f).levelAt stock' side' p =
      if stock' = stock ∧ side' = side then (f ((b.books stock).side side)).lookup p
      else b.levelAt stock' side' p := by
  unfold levelAt updateSide
  by_cases hstock : stock' = stock
  · subst hstock
    simp only [Function.update_self, true_and]
    cases side <;> cases side' <;> simp [Book.setSide, Book.side]
  · simp [hstock]

theorem sorted_updateSide (h : Rep b) {stock : UInt16} {side : Side}
    {f : BookSide L → BookSide L}
    (hf : BookSide.Sorted side.isBid (f ((b.books stock).side side))) (stock' : UInt16)
    (side' : Side) :
    BookSide.Sorted side'.isBid (((b.updateSide stock side f).books stock').side side') := by
  unfold updateSide
  by_cases hstock : stock' = stock
  · subst hstock
    simp only [Function.update_self]
    have hold := h.sorted stock' side'
    cases side <;> cases side' <;> first | exact hf | exact hold
  · simp only [Function.update_of_ne hstock]
    exact h.sorted stock' side'

/-! ## A level after a change -/

section Level

variable [LawfulPriceLevel L] {heap heap' : OrderPtr → Order} {p : Price} {lvl : L} {o : OrderPtr}

theorem LevelRep.make : LevelRep heap p (PriceLevel.make p : L) where
  price := LawfulPriceLevel.price_make p
  nodup := by rw [LawfulPriceLevel.linked_make]; exact List.nodup_nil
  total := by rw [LawfulPriceLevel.total_make, LawfulPriceLevel.linked_make]; rfl

omit [LawfulPriceLevel L] in
theorem LevelRep.congr (h : LevelRep heap p lvl)
    (hsame : ∀ o ∈ PriceLevel.linked lvl, heap' o = heap o) : LevelRep heap' p lvl where
  price := h.price
  nodup := h.nodup
  total := by
    rw [h.total]
    congr 2
    exact List.map_congr_left fun o ho => by rw [hsame o ho]

theorem LevelRep.append (h : LevelRep heap p lvl) (ho : o ∉ PriceLevel.linked lvl) :
    LevelRep heap p (PriceLevel.append lvl o (heap o)) where
  price := by rw [LawfulPriceLevel.price_append]; exact h.price
  nodup := by
    rw [LawfulPriceLevel.linked_append lvl o _ ho]
    exact List.nodup_append.mpr ⟨h.nodup, List.nodup_singleton o, by
      intro a ha b hb
      rw [List.mem_singleton] at hb
      rintro rfl
      exact ho (hb ▸ ha)⟩
  total := by
    rw [LawfulPriceLevel.total_append lvl o _ ho, LawfulPriceLevel.linked_append lvl o _ ho,
      h.total, List.map_append, List.sum_append, UInt32.ofNat_add]
    simp

theorem LevelRep.remove (h : LevelRep heap p lvl) (ho : o ∈ PriceLevel.linked lvl) :
    LevelRep heap p (PriceLevel.remove lvl o (heap o)) where
  price := by rw [LawfulPriceLevel.price_remove]; exact h.price
  nodup := by
    rw [LawfulPriceLevel.linked_remove lvl o _ ho]
    exact h.nodup.erase o
  total := by
    have hsum := List.sum_map_erase (fun o => (heap o).remainingQty.toNat) ho
    rw [LawfulPriceLevel.total_remove lvl o _ ho, LawfulPriceLevel.linked_remove lvl o _ ho,
      h.total, ← hsum, UInt32.ofNat_add, UInt32.ofNat_toNat, UInt32.add_comm,
      UInt32.add_sub_cancel]

/-- An order of the level with `n` shares fewer, and the level with `n` fewer. -/
theorem LevelRep.reduce (h : LevelRep heap p lvl) (ho : o ∈ PriceLevel.linked lvl) {n : Quantity}
    (hn : n ≤ (heap o).remainingQty)
    (hqty : (heap' o).remainingQty = (heap o).remainingQty - n)
    (hsame : ∀ x, x ≠ o → heap' x = heap x) :
    LevelRep heap' p (PriceLevel.reduce lvl n) where
  price := by rw [LawfulPriceLevel.price_reduce]; exact h.price
  nodup := by
    rw [LawfulPriceLevel.linked_reduce]
    exact h.nodup
  total := by
    -- one summand of the sum is `n` smaller, and the rest are the other orders'
    have hsum := List.sum_map_erase (fun o => (heap o).remainingQty.toNat) ho
    have hsum' := List.sum_map_erase (fun o => (heap' o).remainingQty.toNat) ho
    have hrest : ((PriceLevel.linked lvl).erase o).map (fun o => (heap' o).remainingQty.toNat) =
        ((PriceLevel.linked lvl).erase o).map fun o => (heap o).remainingQty.toNat := by
      refine List.map_congr_left fun x hx => ?_
      rw [hsame x (h.nodup.mem_erase_iff.mp hx).1]
    have hle := UInt32.le_iff_toNat_le.mp hn
    have hleft : (heap' o).remainingQty.toNat + n.toNat = (heap o).remainingQty.toNat := by
      rw [hqty, UInt32.toNat_sub_of_le _ _ hn]
      omega
    rw [hrest] at hsum'
    have hmore : ((PriceLevel.linked lvl).map fun o => (heap o).remainingQty.toNat).sum =
        ((PriceLevel.linked lvl).map fun o => (heap' o).remainingQty.toNat).sum + n.toNat := by
      omega
    rw [LawfulPriceLevel.total_reduce, LawfulPriceLevel.linked_reduce, h.total, hmore,
      UInt32.ofNat_add, UInt32.ofNat_toNat, UInt32.add_sub_cancel]

end Level

/-! ## An order goes -/

section Transitions

variable [LawfulPriceLevel L] [LawfulMemoryPool P] (kind : SideKind) {ref : UInt64} {o : OrderPtr}

omit [MemoryPool P] [LawfulPriceLevel L] [LawfulMemoryPool P] in
/-- The levels after an order has been unlinked: its own level has lost it, and is gone if that
was all it held. -/
theorem levelAt_unlink (hsorted : ∀ stock side,
      BookSide.Sorted side.isBid ((b.books stock).side side)) {ord : Order} {lvl : L}
    (hl : b.levelAt ord.symbol ord.side ord.price = some lvl) {stock : UInt16} {side : Side}
    {p : Price} :
    (b.updateSide ord.symbol ord.side (unlink kind ord.side.isBid o ord)).levelAt stock side p =
      if ord.symbol = stock ∧ ord.side = side ∧ ord.price = p then
        if PriceLevel.isEmpty (PriceLevel.remove lvl o ord) then none
        else some (PriceLevel.remove lvl o ord)
      else b.levelAt stock side p := by
  -- another side is untouched, and another price of the same side is not the level unlinked from
  rw [levelAt_updateSide]
  by_cases hsame : stock = ord.symbol ∧ side = ord.side
  · obtain ⟨rfl, rfl⟩ := hsame
    rw [if_pos ⟨rfl, rfl⟩, lookup_unlink (hsorted _ _) hl]
    by_cases hp : p = ord.price
    · have hown : ord.symbol = ord.symbol ∧ ord.side = ord.side ∧ ord.price = p :=
        ⟨rfl, rfl, hp.symm⟩
      rw [if_pos hp, if_pos hown]
    · rw [if_neg hp, if_neg fun hc => hp hc.2.2.symm]
      rfl
  · rw [if_neg hsame, if_neg fun hc => hsame ⟨hc.1.symm, hc.2.1.symm⟩]

/-- The builder without an order: its level, the table, the pool and the counter have let go. -/
def without (b : BookBuilder L P) (o : OrderPtr) (orders : FlatOrderMap OrderPtr) :
    BookBuilder L P :=
  { b.updateSide (b.heap o).symbol (b.heap o).side
      (unlink kind (b.heap o).side.isBid o (b.heap o)) with
    orders := orders
    pool := MemoryPool.deallocate b.pool o
    stats := { b.stats with liveOrders := b.stats.liveOrders - 1 } }

section Without

variable {orders : FlatOrderMap OrderPtr} (h : Rep b) (hr : b.orders.toMap ref = some o)
  (hmap : orders.toMap = Function.update b.orders.toMap ref none)
include h hr

omit [LawfulPriceLevel L] [LawfulMemoryPool P] in
include hmap in
/-- The table reaches the other orders as before. -/
theorem toMap_without {ref' : UInt64} {x : OrderPtr} :
    orders.toMap ref' = some x ↔ b.orders.toMap ref' = some x ∧ x ≠ o := by
  rw [hmap]
  by_cases href : ref' = ref
  · subst href
    rw [Function.update_self, hr]
    exact iff_of_false (by simp) fun hx => hx.2 (Option.some.inj hx.1).symm
  · rw [Function.update_of_ne href]
    refine ⟨fun hx => ⟨hx, ?_⟩, And.left⟩
    rintro rfl
    exact href (h.ref_eq hx hr)

omit [LawfulPriceLevel L] [LawfulMemoryPool P] in
include hmap in
theorem reached_without {x : OrderPtr} :
    (without kind b o orders).Reached x ↔ b.Reached x ∧ x ≠ o := by
  constructor
  · rintro ⟨ref', hx⟩
    obtain ⟨hx, hne⟩ := (toMap_without h hr hmap).mp hx
    exact ⟨⟨ref', hx⟩, hne⟩
  · rintro ⟨⟨ref', hx⟩, hne⟩
    exact ⟨ref', (toMap_without h hr hmap).mpr ⟨hx, hne⟩⟩

omit [LawfulMemoryPool P] in
/-- The other orders are linked where they were. -/
theorem on_without {stock : UInt16} {side : Side} {p : Price} {x : OrderPtr} :
    (without kind b o orders).On stock side p x ↔ b.On stock side p x ∧ x ≠ o := by
  obtain ⟨-, lvl, hl, hmem⟩ := h.reached hr
  have hat : (without kind b o orders).levelAt stock side p = _ :=
    levelAt_unlink kind h.sorted hl
  unfold On
  rw [hat]
  by_cases hsame : (b.heap o).symbol = stock ∧ (b.heap o).side = side ∧ (b.heap o).price = p
  · obtain ⟨rfl, rfl, rfl⟩ := hsame
    have hin : x ∈ PriceLevel.linked (PriceLevel.remove lvl o (b.heap o)) ↔
        x ∈ PriceLevel.linked lvl ∧ x ≠ o := by
      rw [LawfulPriceLevel.linked_remove lvl o _ hmem,
        (h.level _ _ _ _ hl).nodup.mem_erase_iff, and_comm]
    rw [if_pos ⟨rfl, rfl, rfl⟩, hl]
    split
    -- the level went because nobody else was on it
    · rename_i hempty
      rw [LawfulPriceLevel.isEmpty_iff] at hempty
      rw [hempty] at hin
      simpa using hin
    · simpa using hin
  · rw [if_neg hsame]
    -- away from its own level the order was never linked
    refine ⟨fun hx => ⟨hx, ?_⟩, And.left⟩
    rintro rfl
    exact hsame ((h.on _ _ _ _).mp hx).2

omit [LawfulMemoryPool P] in
/-- The level that lost the order is one without it, and the others are what they were. -/
theorem levelRep_without {stock : UInt16} {side : Side} {p : Price} {lvl' : L}
    (hl' : (without kind b o orders).levelAt stock side p = some lvl') :
    LevelRep b.heap p lvl' ∧ PriceLevel.linked lvl' ≠ [] := by
  obtain ⟨-, lvl, hl, hmem⟩ := h.reached hr
  have hat : (without kind b o orders).levelAt stock side p = _ :=
    levelAt_unlink kind h.sorted hl
  rw [hat] at hl'
  by_cases hsame : (b.heap o).symbol = stock ∧ (b.heap o).side = side ∧ (b.heap o).price = p
  · rw [if_pos hsame] at hl'
    split at hl'
    -- a level that lost its last order is not there to speak of
    · exact absurd hl' (by simp)
    · rename_i hempty
      rw [← Option.some.inj hl', ← hsame.2.2]
      exact ⟨(h.level _ _ _ _ hl).remove hmem,
        fun hnil => hempty ((LawfulPriceLevel.isEmpty_iff _).mpr hnil)⟩
  · rw [if_neg hsame] at hl'
    exact ⟨h.level _ _ _ _ hl', h.nonempty _ _ _ _ hl'⟩

include hmap in
/-- **The invariant without the order**, clause by clause. -/
theorem rep_without (hwf : orders.Wf splitMix64) (hsize : orders.size = b.orders.size - 1) :
    Rep (without kind b o orders) where
  map := hwf
  sorted := sorted_updateSide h (sorted_unlink (h.sorted _ _))
  level := fun _ _ _ _ hl' => (levelRep_without kind h hr hl').1
  nonempty := fun _ _ _ _ hl' => (levelRep_without kind h hr hl').2
  ident := fun ref' x hx => h.ident ref' x ((toMap_without h hr hmap).mp hx).1
  -- linked and reached have both lost the order, and nobody else
  on := fun stock side p x => by
    rw [on_without kind h hr, reached_without kind h hr hmap, h.on, and_right_comm]
    rfl
  live := by
    show b.stats.liveOrders - 1 = orders.size
    rw [hsize, h.live]
  -- and so has the pool
  pool := fun x => by
    show x ∈ MemoryPool.inUse (MemoryPool.deallocate b.pool o) ↔ _
    rw [LawfulMemoryPool.inUse_deallocate _ _ ((h.pool o).mpr ⟨ref, hr⟩), Finset.mem_erase,
      h.pool, reached_without kind h hr hmap, and_comm]
  room := by
    show (MemoryPool.inUse (MemoryPool.deallocate b.pool o)).card ≤
      MemoryPool.capacity (MemoryPool.deallocate b.pool o)
    rw [LawfulMemoryPool.inUse_deallocate _ _ ((h.pool o).mpr ⟨ref, hr⟩),
      LawfulMemoryPool.capacity_deallocate]
    exact (Finset.card_erase_le).trans h.room

omit [LawfulPriceLevel L] in
/-- An order that goes leaves a place. -/
theorem allocate_without : MemoryPool.allocate (without kind b o orders).pool ≠ none := by
  intro hnone
  have hfull := (LawfulMemoryPool.allocate_none _).mp hnone
  have huse : o ∈ MemoryPool.inUse b.pool := (h.pool o).mpr ⟨ref, hr⟩
  change MemoryPool.capacity (MemoryPool.deallocate b.pool o) ≤
    (MemoryPool.inUse (MemoryPool.deallocate b.pool o)).card at hfull
  rw [LawfulMemoryPool.inUse_deallocate _ _ huse, LawfulMemoryPool.capacity_deallocate,
    Finset.card_erase_of_mem huse] at hfull
  have hpos := Finset.card_pos.mpr ⟨o, huse⟩
  have hroom := h.room
  omega

end Without

/-- What is left when the order of a reference has gone. -/
structure Removed (b b' : BookBuilder L P) (ref : UInt64) : Prop where
  rep : Rep b'
  map : b'.orders.toMap = Function.update b.orders.toMap ref none
  meaning : b'.meaning = Function.update b.meaning ref none
  totals : b'.totals = b.totals
  capacity : MemoryPool.capacity b'.pool = MemoryPool.capacity b.pool
  place : MemoryPool.allocate b'.pool ≠ none

/-- **Removing an order** keeps the representation and forgets its reference. -/
theorem removeOrder_spec (h : Rep b) (hr : b.orders.toMap ref = some o) :
    ∃ b', removeOrder kind b ref = some b' ∧ Removed b b' ref := by
  -- the table's erase is the only step that could fail to answer
  obtain ⟨orders, he, hwf, hsize, hmap⟩ := FlatOrderMap.erase_eq h.map ref
  rw [hr] at he hsize
  refine ⟨without kind b o orders, ?_, rep_without kind h hr hmap hwf hsize, hmap, ?_, rfl,
    LawfulMemoryPool.capacity_deallocate _ _, allocate_without kind h hr⟩
  · unfold removeOrder
    rw [find_eq h, hr]
    simp only [Option.bind_some]
    show ((b.orders.erase splitMix64 ref).map _) = _
    rw [he]
    rfl
  -- the freed order's fields stay where they were, but nothing reaches them
  · funext ref'
    show (orders.toMap ref').map _ = _
    rw [hmap]
    by_cases href : ref' = ref
    · subst href
      rw [Function.update_self, Function.update_self]
      rfl
    · rw [Function.update_of_ne href, Function.update_of_ne href]
      rfl

/-! ## An order loses shares -/

/-- The orders, one of them with `n` shares fewer. -/
def shrunk (heap : OrderPtr → Order) (o : OrderPtr) (n : Quantity) : OrderPtr → Order :=
  Function.update heap o { heap o with remainingQty := (heap o).remainingQty - n }

section Shrunk

variable {heap : OrderPtr → Order} {n : Quantity} {x : OrderPtr}

theorem shrunk_of_ne (hne : x ≠ o) : shrunk heap o n x = heap x := Function.update_of_ne hne _ _

theorem shrunk_self : shrunk heap o n o =
    { heap o with remainingQty := (heap o).remainingQty - n } := Function.update_self _ _ _

/-- An order keeps everything but its shares. -/
theorem shrunk_fields (heap : OrderPtr → Order) (o : OrderPtr) (n : Quantity) (x : OrderPtr) :
    (shrunk heap o n x).id = (heap x).id ∧ (shrunk heap o n x).symbol = (heap x).symbol ∧
      (shrunk heap o n x).side = (heap x).side ∧ (shrunk heap o n x).price = (heap x).price := by
  by_cases hx : x = o
  · subst hx
    rw [shrunk_self]
    exact ⟨rfl, rfl, rfl, rfl⟩
  · rw [shrunk_of_ne hx]
    exact ⟨rfl, rfl, rfl, rfl⟩

end Shrunk

omit [MemoryPool P] [LawfulPriceLevel L] [LawfulMemoryPool P] in
/-- The levels after an order has lost shares: its own has as many fewer. -/
theorem levelAt_shrink (hsorted : ∀ stock side,
      BookSide.Sorted side.isBid ((b.books stock).side side)) {ord : Order} {lvl : L}
    (hl : b.levelAt ord.symbol ord.side ord.price = some lvl) {n : Quantity} {stock : UInt16}
    {side : Side} {p : Price} :
    (b.updateSide ord.symbol ord.side (shrink kind ord.side.isBid ord n)).levelAt stock side p =
      if ord.symbol = stock ∧ ord.side = side ∧ ord.price = p then
        some (PriceLevel.reduce lvl n)
      else b.levelAt stock side p := by
  rw [levelAt_updateSide]
  by_cases hsame : stock = ord.symbol ∧ side = ord.side
  · obtain ⟨rfl, rfl⟩ := hsame
    rw [if_pos ⟨rfl, rfl⟩, lookup_shrink (hsorted _ _) hl]
    by_cases hp : p = ord.price
    · rw [if_pos hp, if_pos ⟨rfl, rfl, hp.symm⟩]
    · rw [if_neg hp, if_neg fun hc => hp hc.2.2.symm]
      rfl
  · rw [if_neg hsame, if_neg fun hc => hsame ⟨hc.1.symm, hc.2.1.symm⟩]

/-- The builder with `n` shares fewer on an order and on its level. -/
def lessened (b : BookBuilder L P) (o : OrderPtr) (n : Quantity) : BookBuilder L P :=
  { b.updateSide (b.heap o).symbol (b.heap o).side
      (shrink kind (b.heap o).side.isBid (b.heap o) n) with
    heap := shrunk b.heap o n }

section Lessened

variable {n : Quantity} (h : Rep b) (hr : b.orders.toMap ref = some o)
include h hr

omit [LawfulMemoryPool P] in
/-- Every order stays linked where it was. -/
theorem on_lessened {stock : UInt16} {side : Side} {p : Price} {x : OrderPtr} :
    (lessened kind b o n).On stock side p x ↔ b.On stock side p x := by
  obtain ⟨-, lvl, hl, -⟩ := h.reached hr
  have hat : (lessened kind b o n).levelAt stock side p = _ := levelAt_shrink kind h.sorted hl
  unfold On
  rw [hat]
  split
  · rename_i hsame
    obtain ⟨rfl, rfl, rfl⟩ := hsame
    rw [hl]
    simp [LawfulPriceLevel.linked_reduce]
  · rfl

omit [LawfulMemoryPool P] in
/-- The order's level has `n` shares fewer, as the order has. -/
theorem levelRep_lessened (hle : n ≤ (b.heap o).remainingQty) {stock : UInt16} {side : Side}
    {p : Price} {lvl' : L} (hl' : (lessened kind b o n).levelAt stock side p = some lvl') :
    LevelRep (shrunk b.heap o n) p lvl' ∧ PriceLevel.linked lvl' ≠ [] := by
  obtain ⟨-, lvl, hl, hmem⟩ := h.reached hr
  have hat : (lessened kind b o n).levelAt stock side p = _ := levelAt_shrink kind h.sorted hl
  rw [hat] at hl'
  split at hl'
  · rename_i hsame
    rw [← Option.some.inj hl', ← hsame.2.2, LawfulPriceLevel.linked_reduce]
    exact ⟨(h.level _ _ _ _ hl).reduce hmem hle (by rw [shrunk_self]) fun x hx => shrunk_of_ne hx,
      h.nonempty _ _ _ _ hl⟩
  · rename_i hfar
    refine ⟨(h.level _ _ _ _ hl').congr fun x hx => shrunk_of_ne ?_, h.nonempty _ _ _ _ hl'⟩
    rintro rfl
    exact hfar (h.linked hl' hx).2

omit [LawfulMemoryPool P] in
/-- **The invariant with fewer shares**: only the totals have moved. -/
theorem rep_lessened (hle : n ≤ (b.heap o).remainingQty) : Rep (lessened kind b o n) where
  map := h.map
  sorted := sorted_updateSide h (sorted_shrink (h.sorted _ _))
  level := fun _ _ _ _ hl' => (levelRep_lessened kind h hr hle hl').1
  nonempty := fun _ _ _ _ hl' => (levelRep_lessened kind h hr hle hl').2
  ident := fun ref' x hx => (shrunk_fields b.heap o n x).1.trans (h.ident ref' x hx)
  on := fun stock side p x => by
    obtain ⟨-, hs, hd, hp⟩ := shrunk_fields b.heap o n x
    show _ ↔ b.Reached x ∧ (shrunk b.heap o n x).symbol = stock ∧
      (shrunk b.heap o n x).side = side ∧ (shrunk b.heap o n x).price = p
    rw [on_lessened kind h hr, hs, hd, hp, h.on]
  live := h.live
  pool := h.pool
  room := h.room

omit [LawfulPriceLevel L] [LawfulMemoryPool P] in
theorem meaning_lessened : (lessened kind b o n).meaning = Function.update b.meaning ref
    (some { symbol := (b.heap o).symbol, side := (b.heap o).side, price := (b.heap o).price,
            remaining := (b.heap o).remainingQty - n }) := by
  funext ref'
  show (b.orders.toMap ref').map (fun x =>
    { symbol := (shrunk b.heap o n x).symbol, side := (shrunk b.heap o n x).side,
      price := (shrunk b.heap o n x).price,
      remaining := (shrunk b.heap o n x).remainingQty : Resting }) = _
  by_cases href : ref' = ref
  · subst href
    rw [hr, Function.update_self, Option.map_some, shrunk_self]
  · rw [Function.update_of_ne href]
    unfold meaning
    cases hx : b.orders.toMap ref' with
    | none => rfl
    | some x =>
      -- another reference's order is another order
      have hne : x ≠ o := by
        rintro rfl
        exact href (h.ref_eq hx hr)
      rw [Option.map_some, Option.map_some, shrunk_of_ne hne]

end Lessened

/-- **Reducing an order** keeps the representation, and is `Orders.take`. -/
theorem reduce_spec (h : Rep b) (hr : b.orders.toMap ref = some o) (shares : UInt32) :
    ∃ b', reduce kind b ref o shares = some b' ∧ Rep b' ∧
      b'.meaning = b.meaning.take ref shares ∧ b'.totals = b.totals ∧
      MemoryPool.capacity b'.pool = MemoryPool.capacity b.pool := by
  have hat : b.meaning ref = some ⟨(b.heap o).symbol, (b.heap o).side, (b.heap o).price,
      (b.heap o).remainingQty⟩ := by
    unfold meaning
    rw [hr]
    rfl
  unfold Orders.take reduce
  rw [hat]
  simp only
  by_cases hall : (b.heap o).remainingQty ≤ shares
  · rw [if_pos hall, if_pos hall]
    -- counting an overfill touches nothing the representation reads
    have hcount : ∀ b1 : BookBuilder L P, b1 = (if (b.heap o).remainingQty < shares then
          { b with stats := { b.stats with overfills := b.stats.overfills + 1 } } else b) →
        Rep b1 ∧ b1.orders = b.orders ∧ b1.meaning = b.meaning ∧ b1.totals = b.totals ∧
          b1.pool = b.pool := by
      rintro b1 rfl
      split
      · exact ⟨h.congr rfl rfl rfl rfl rfl, rfl, rfl, rfl, rfl⟩
      · exact ⟨h, rfl, rfl, rfl, rfl⟩
    obtain ⟨h1, horders, hmeaning, htotals, hpool⟩ := hcount _ rfl
    obtain ⟨b', hb', hgone⟩ := removeOrder_spec kind h1 (by rw [horders]; exact hr)
    exact ⟨b', hb', hgone.rep, by rw [hgone.meaning, hmeaning], hgone.totals.trans htotals,
      by rw [hgone.capacity, hpool]⟩
  · rw [if_neg hall, if_neg hall]
    have hle : shares ≤ (b.heap o).remainingQty := UInt32.le_of_lt (UInt32.not_le.mp hall)
    exact ⟨_, rfl, rep_lessened kind h hr hle, meaning_lessened kind h hr, rfl, rfl⟩

/-! ## An order comes -/

omit [LawfulPriceLevel L] [LawfulMemoryPool P] in
/-- The pool is out of places: only a counter moves. -/
theorem rest_full (h : Rep b) (hfull : MemoryPool.allocate b.pool = none) {side : Side}
    {price shares : UInt32} {ts : UInt64} {stock : UInt16} :
    ∃ b', rest kind b ref side price shares ts stock = some b' ∧ Rep b' ∧
      b'.meaning = b.meaning ∧ b'.totals = b.totals ∧
      MemoryPool.capacity b'.pool = MemoryPool.capacity b.pool := by
  unfold rest
  rw [hfull]
  exact ⟨_, rfl, h.congr rfl rfl rfl rfl rfl, rfl, rfl, rfl⟩

omit [LawfulPriceLevel L] [LawfulMemoryPool P] in
/-- **An order the table does not take in**: reference zero is refused, and under a live reference
the order already there is overwritten. The builder links and counts the order all the same, and
from then on it counts one order more than the table holds. -/
theorem rest_outOfStep (h : Rep b) (hbad : ref = kEmptyKey ∨ b.orders.toMap ref ≠ none)
    (hplace : MemoryPool.allocate b.pool ≠ none) {side : Side} {price shares : UInt32}
    {ts : UInt64} {stock : UInt16} :
    ∃ b', rest kind b ref side price shares ts stock = some b' ∧
      b'.stats.liveOrders = b'.orders.size + 1 := by
  obtain ⟨⟨o, pool⟩, halloc⟩ := Option.ne_none_iff_exists'.mp hplace
  -- either way `insert` answers and the table has no more entries than before
  have hins : ∃ inserted, b.orders.insert splitMix64 ref o = some inserted ∧
      inserted.2.size = b.orders.size := by
    by_cases hz : ref = kEmptyKey
    · subst hz
      exact ⟨_, FlatOrderMap.insert_zero o, rfl⟩
    · obtain ⟨orders, hins, -, hsize, -⟩ := FlatOrderMap.insert_eq h.map hz o
      obtain ⟨old, hold⟩ := Option.ne_none_iff_exists'.mp (hbad.resolve_left hz)
      rw [hold] at hsize
      exact ⟨_, hins, hsize⟩
  obtain ⟨inserted, hins, hsize⟩ := hins
  unfold rest
  rw [halloc]
  simp only
  refine ⟨_, congrArg (Option.map _) hins, ?_⟩
  show b.stats.liveOrders + 1 = inserted.2.size + 1
  rw [hsize, h.live]

omit [MemoryPool P] [LawfulPriceLevel L] [LawfulMemoryPool P] in
/-- The levels after an order has been linked: its own has it at the end. -/
theorem levelAt_link (hsorted : ∀ stock side,
      BookSide.Sorted side.isBid ((b.books stock).side side)) (ord : Order) {stock : UInt16}
    {side : Side} {p : Price} :
    (b.updateSide ord.symbol ord.side (link kind ord.side.isBid o ord)).levelAt stock side p =
      if ord.symbol = stock ∧ ord.side = side ∧ ord.price = p then
        some (PriceLevel.append
          ((b.levelAt ord.symbol ord.side ord.price).getD (PriceLevel.make ord.price)) o ord)
      else b.levelAt stock side p := by
  -- as with unlinking, only the level of that symbol, side and price has changed
  rw [levelAt_updateSide]
  by_cases hsame : stock = ord.symbol ∧ side = ord.side
  · obtain ⟨rfl, rfl⟩ := hsame
    rw [if_pos ⟨rfl, rfl⟩, lookup_link (hsorted _ _)]
    by_cases hp : p = ord.price
    · rw [if_pos hp, if_pos ⟨rfl, rfl, hp.symm⟩]
      rfl
    · rw [if_neg hp, if_neg fun hc => hp hc.2.2.symm]
      rfl
  · rw [if_neg hsame, if_neg fun hc => hsame ⟨hc.1.symm, hc.2.1.symm⟩]

/-- The builder with an order more: in a place of the pool, on its level, in the table, counted. -/
def joined (b : BookBuilder L P) (o : OrderPtr) (ord : Order) (pool : P)
    (orders : FlatOrderMap OrderPtr) : BookBuilder L P :=
  { b.updateSide ord.symbol ord.side (link kind ord.side.isBid o ord) with
    pool := pool
    heap := Function.update b.heap o ord
    orders := orders
    stats := { b.stats with
      liveOrders := b.stats.liveOrders + 1
      peakLiveOrders := max (b.stats.liveOrders + 1) b.stats.peakLiveOrders } }

section Joined

variable {ord : Order} {pool : P} {orders : FlatOrderMap OrderPtr} (h : Rep b)
  (hfresh : ¬ b.Reached o) (hnew : b.orders.toMap ord.id = none)
  (hmap : orders.toMap = Function.update b.orders.toMap ord.id (some o))

omit [PriceLevel L] [MemoryPool P] [LawfulPriceLevel L] [LawfulMemoryPool P] in
include hfresh in
/-- The new order's place is nobody's. -/
theorem ne_of_fresh {ref' : UInt64} {x : OrderPtr} (hx : b.orders.toMap ref' = some x) : x ≠ o := by
  rintro rfl
  exact hfresh ⟨ref', hx⟩

omit [PriceLevel L] [MemoryPool P] [LawfulPriceLevel L] [LawfulMemoryPool P] in
include hnew hmap in
/-- The table reaches the new order by its reference, and the others as before. -/
theorem toMap_joined {ref' : UInt64} {x : OrderPtr} :
    orders.toMap ref' = some x ↔ b.orders.toMap ref' = some x ∨ ref' = ord.id ∧ x = o := by
  rw [hmap]
  by_cases href : ref' = ord.id
  · rw [href, Function.update_self, hnew]
    simp [eq_comm]
  · rw [Function.update_of_ne href]
    simp [href]

omit [MemoryPool P] [LawfulPriceLevel L] [LawfulMemoryPool P] in
include hnew hmap in
/-- The new order is reached, and the others as before. -/
theorem reached_joined {x : OrderPtr} :
    (joined kind b o ord pool orders).Reached x ↔ b.Reached x ∨ x = o := by
  constructor
  · rintro ⟨ref', hx⟩
    exact ((toMap_joined hnew hmap).mp hx).imp (fun hold => ⟨ref', hold⟩) And.right
  · rintro (⟨ref', hx⟩ | rfl)
    · exact ⟨ref', (toMap_joined hnew hmap).mpr (Or.inl hx)⟩
    · exact ⟨ord.id, (toMap_joined hnew hmap).mpr (Or.inr ⟨rfl, rfl⟩)⟩

omit [MemoryPool P] [LawfulPriceLevel L] [LawfulMemoryPool P] in
include hfresh hmap in
/-- The map has the new order under its reference. -/
theorem meaning_joined : (joined kind b o ord pool orders).meaning =
    Function.update b.meaning ord.id
      (some ⟨ord.symbol, ord.side, ord.price, ord.remainingQty⟩) := by
  funext ref'
  show (orders.toMap ref').map (fun x =>
    { symbol := (Function.update b.heap o ord x).symbol
      side := (Function.update b.heap o ord x).side
      price := (Function.update b.heap o ord x).price
      remaining := (Function.update b.heap o ord x).remainingQty : Resting }) = _
  rw [hmap]
  by_cases href : ref' = ord.id
  · rw [href, Function.update_self, Function.update_self, Option.map_some, Function.update_self]
  · rw [Function.update_of_ne href, Function.update_of_ne href]
    unfold meaning
    cases hx : b.orders.toMap ref' with
    | none => rfl
    | some x =>
      rw [Option.map_some, Option.map_some, Function.update_of_ne (ne_of_fresh hfresh hx)]

include h hfresh

omit [LawfulPriceLevel L] [LawfulMemoryPool P] in
/-- No level knows the new order's place. -/
theorem not_linked {stock : UInt16} {side : Side} {p : Price} {lvl : L}
    (hl : b.levelAt stock side p = some lvl) : o ∉ PriceLevel.linked lvl := fun ho =>
  hfresh ⟨_, (h.linked hl ho).1⟩

omit [LawfulMemoryPool P] in
/-- The level the order joins, or the one made for it. -/
theorem level_joined (ord : Order) {lvl : L}
    (hbase : lvl = (b.levelAt ord.symbol ord.side ord.price).getD (PriceLevel.make ord.price)) :
    LevelRep b.heap ord.price lvl ∧ o ∉ PriceLevel.linked lvl ∧
      ∀ x, x ∈ PriceLevel.linked lvl ↔ b.On ord.symbol ord.side ord.price x := by
  unfold On
  cases hl : b.levelAt ord.symbol ord.side ord.price with
  | none =>
    rw [hl, Option.getD_none] at hbase
    rw [hbase, LawfulPriceLevel.linked_make]
    exact ⟨LevelRep.make, List.not_mem_nil, fun x => iff_of_false List.not_mem_nil (by simp)⟩
  | some lvl0 =>
    rw [hl, Option.getD_some] at hbase
    rw [hbase]
    exact ⟨h.level _ _ _ _ hl, not_linked h hfresh hl, fun x => by simp⟩

omit [LawfulMemoryPool P] in
/-- The order is linked on its level, and the others where they were. -/
theorem on_joined {stock : UInt16} {side : Side} {p : Price} {x : OrderPtr} :
    (joined kind b o ord pool orders).On stock side p x ↔ b.On stock side p x ∨
      x = o ∧ ord.symbol = stock ∧ ord.side = side ∧ ord.price = p := by
  obtain ⟨-, hout, hmem⟩ := level_joined h hfresh ord rfl
  have hat : (joined kind b o ord pool orders).levelAt stock side p = _ :=
    levelAt_link kind h.sorted ord
  show (∃ lvl, (joined kind b o ord pool orders).levelAt stock side p = some lvl ∧ _) ↔ _
  rw [hat]
  by_cases hsame : ord.symbol = stock ∧ ord.side = side ∧ ord.price = p
  · obtain ⟨rfl, rfl, rfl⟩ := hsame
    rw [if_pos ⟨rfl, rfl, rfl⟩, ← hmem]
    simp [LawfulPriceLevel.linked_append _ _ _ hout]
  · rw [if_neg hsame]
    exact ⟨Or.inl, fun hx => hx.resolve_right fun hnew => hsame hnew.2⟩

omit [LawfulMemoryPool P] in
/-- The order's level has it at the end and its shares in the total; the others are what they were.
-/
theorem levelRep_joined {stock : UInt16} {side : Side} {p : Price} {lvl' : L}
    (hl' : (joined kind b o ord pool orders).levelAt stock side p = some lvl') :
    LevelRep (Function.update b.heap o ord) p lvl' ∧ PriceLevel.linked lvl' ≠ [] := by
  obtain ⟨hrep, hout, -⟩ := level_joined h hfresh ord rfl
  have hat : (joined kind b o ord pool orders).levelAt stock side p = _ :=
    levelAt_link kind h.sorted ord
  rw [hat] at hl'
  -- a level that does not hold the order does not see its place change
  have hsame : ∀ {q : Price} {lvl : L}, LevelRep b.heap q lvl → o ∉ PriceLevel.linked lvl →
      LevelRep (Function.update b.heap o ord) q lvl := fun hq hno =>
    hq.congr fun x hx => Function.update_of_ne (ne_of_mem_of_not_mem hx hno) _ _
  split at hl'
  · rename_i hown
    rw [← Option.some.inj hl', ← hown.2.2]
    have hafter := (hsame hrep hout).append hout
    rw [Function.update_self] at hafter
    refine ⟨hafter, ?_⟩
    rw [LawfulPriceLevel.linked_append _ _ _ hout]
    simp
  · exact ⟨hsame (h.level _ _ _ _ hl') (not_linked h hfresh hl'), h.nonempty _ _ _ _ hl'⟩

omit [LawfulMemoryPool P] in
include hnew hmap in
/-- **The invariant with an order more**, clause by clause. -/
theorem rep_joined (hwf : orders.Wf splitMix64) (hsize : orders.size = b.orders.size + 1)
    (huse : MemoryPool.inUse pool = insert o (MemoryPool.inUse b.pool))
    (hroom : (MemoryPool.inUse pool).card ≤ MemoryPool.capacity pool) :
    Rep (joined kind b o ord pool orders) where
  map := hwf
  sorted := sorted_updateSide h (sorted_link (h.sorted _ _))
  level := fun _ _ _ _ hl' => (levelRep_joined kind h hfresh hl').1
  nonempty := fun _ _ _ _ hl' => (levelRep_joined kind h hfresh hl').2
  -- the heap has changed in the new order's place, which no other reference reaches
  ident := fun ref' x hx => by
    show (Function.update b.heap o ord x).id = ref'
    rcases (toMap_joined hnew hmap).mp hx with hx | ⟨rfl, rfl⟩
    · rw [Function.update_of_ne (ne_of_fresh hfresh hx)]
      exact h.ident ref' x hx
    · rw [Function.update_self]
  on := fun stock side p x => by
    rw [on_joined kind h hfresh, reached_joined kind hnew hmap]
    show _ ↔ _ ∧ (Function.update b.heap o ord x).symbol = stock ∧
      (Function.update b.heap o ord x).side = side ∧ (Function.update b.heap o ord x).price = p
    by_cases hx : x = o
    · subst hx
      have hno : ¬ b.On stock side p x := fun hon => hfresh ((h.on _ _ _ _).mp hon).1
      rw [Function.update_self]
      simp [hno]
    · rw [Function.update_of_ne hx, h.on]
      simp [hx]
  live := by
    show b.stats.liveOrders + 1 = orders.size
    rw [hsize, h.live]
  pool := fun x => by
    show x ∈ MemoryPool.inUse pool ↔ _
    rw [huse, Finset.mem_insert, h.pool, reached_joined kind hnew hmap, or_comm]
  room := hroom

end Joined

/-- **An order with a new reference** joins its level and the table. -/
theorem rest_spec (h : Rep b) (hz : ref ≠ kEmptyKey) (hnew : b.orders.toMap ref = none)
    (hplace : MemoryPool.allocate b.pool ≠ none) {side : Side} {price shares : UInt32}
    {ts : UInt64} {stock : UInt16} :
    ∃ b', rest kind b ref side price shares ts stock = some b' ∧ Rep b' ∧
      b'.meaning = Function.update b.meaning ref (some ⟨stock, side, price.toNat, shares⟩) ∧
      b'.totals = b.totals ∧
      MemoryPool.capacity b'.pool = MemoryPool.capacity b.pool := by
  obtain ⟨⟨o, pool⟩, halloc⟩ := Option.ne_none_iff_exists'.mp hplace
  obtain ⟨hunused, huse, hcap⟩ := LawfulMemoryPool.allocate_some _ _ _ halloc
  obtain ⟨orders, hins, hwf, hsize, hmap⟩ := FlatOrderMap.insert_eq h.map hz o
  rw [hnew] at hins hsize
  let ord : Order := { id := ref, side := side, price := price.toNat, remainingQty := shares,
                       timestamp := ts, symbol := stock }
  -- the pool's place was not in use, so no reference reaches it: it is on no level either
  have hfresh : ¬ b.Reached o := fun hx => hunused ((h.pool o).mpr hx)
  -- the pool was not full
  have hroom : (MemoryPool.inUse pool).card ≤ MemoryPool.capacity pool := by
    have hleft := mt (LawfulMemoryPool.allocate_none b.pool).mpr hplace
    rw [huse, hcap, Finset.card_insert_of_notMem hunused]
    omega
  refine ⟨joined kind b o ord pool orders, ?_,
    rep_joined kind h hfresh hnew hmap hwf hsize huse hroom,
    meaning_joined kind hfresh hmap, rfl, hcap⟩
  unfold rest
  rw [halloc]
  show (b.orders.insert splitMix64 ref o).map _ = _
  rw [hins]
  rfl

end Transitions

end BookBuilder

end Tickerplant
