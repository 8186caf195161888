import Mathlib.Algebra.BigOperators.Group.Finset.Basic
import Tickerplant.Book.Runs
import Tickerplant.Lib.Trace

/-!
# The book is its orders

`Shows` is what a caller of the builder can see, and says that all of it is computed from the
finite map of the resting orders: the levels of every side, the top, the depth to any number of
levels, the count of live orders and the fingerprint. `Rep` gives it for the map the builder stands
for (`Rep.shows`), and that map moves with the feed (`run_refines`).

So a caller need not know that there is a hash table or a pool, or which container the levels are
kept in. A stream is legal when no reference is zero, no replace takes a live reference and the
pool is never asked for more than it has. It may well be a stream with messages missing: orphans,
duplicates and overfills are events of the map like any other.

The levels come out right in three steps. A level's orders are those the map has at its price
(`refsAt_eq`), so its total and its count are theirs; a price has a level exactly when it has
orders (`prices_eq`); and the side's own order, best first, is the sorted order of the prices, of
which there is only one (`levels_eq`). Top, depth and fingerprint are functions of the levels.
-/

set_option autoImplicit false

namespace Tickerplant

namespace Orders

/-- Added and replacing references are not zero, and a replace does not name a reference that is
live once the old one is removed. -/
def LegalEvent (m : Orders) : BookEvent → Prop
  | .add _ _ ref _ _ _ _ => ref ≠ kEmptyKey
  | .replace _ _ oldRef newRef _ _ =>
    newRef ≠ kEmptyKey ∧ Function.update m oldRef none newRef = none
  | _ => True

/-- A legal event after which no more than `capacity` orders are live. -/
def LegalWithin (capacity : ℕ) (m : Orders) (e : BookEvent) : Prop :=
  m.LegalEvent e ∧ (m.step e).live ≤ capacity

/-- A stream of legal events that never has more than `capacity` orders live. -/
def Legal (capacity : ℕ) : Orders → List BookEvent → Prop :=
  Trace.Along step (LegalWithin capacity)

end Orders

namespace BookBuilder

variable {L P : Type} [PriceLevel L] [MemoryPool P] {b b' : BookBuilder L P}

/-- What is seen of the builder is computed from the orders `m`. -/
structure Shows (b : BookBuilder L P) (m : Orders) : Prop where
  /-- Every level, best first. -/
  levels : ∀ stock side, b.levels stock side = m.levels stock side
  top : ∀ stock, b.top stock = m.top stock
  depth : ∀ stock side k, b.depth stock side k = (m.levels stock side).take k
  /-- The counter. -/
  live : b.stats.liveOrders = m.live
  /-- The fingerprint, which walks the levels of every symbol. -/
  digest : b.digest = digestOf m.levels

/-! ## A level -/

section Level

variable (h : Rep b) {stock : UInt16} {side : Side} {p : Price} {lvl : L}
include h

/-- The references of the orders on a level. -/
theorem refsAt_eq (hl : b.levelAt stock side p = some lvl) :
    b.meaning.refsAt stock side p =
      ((PriceLevel.linked lvl).map fun o => (b.heap o).id).toFinset := by
  ext ref
  unfold Orders.refsAt
  rw [Orders.mem_refs, List.mem_toFinset, List.mem_map]
  constructor
  · rintro ⟨r, hr, hs, hd, hp⟩
    obtain ⟨o, ho, rfl⟩ := Option.map_eq_some_iff.mp hr
    obtain ⟨hid, lvl', hl', hmem⟩ := h.reached ho
    simp only at hs hd hp
    rw [hs, hd, hp, hl, Option.some.injEq] at hl'
    exact ⟨o, hl' ▸ hmem, hid⟩
  · rintro ⟨o, ho, rfl⟩
    obtain ⟨hto, hwhere⟩ := h.linked hl ho
    exact ⟨_, meaning_some hto, hwhere⟩

/-- No reference is on a level twice. -/
theorem nodup_refs (hl : b.levelAt stock side p = some lvl) :
    ((PriceLevel.linked lvl).map fun o => (b.heap o).id).Nodup := by
  refine (h.level _ _ _ _ hl).nodup.map_on fun o ho o' ho' heq => ?_
  have hto := (h.linked hl ho).1
  rw [heq, (h.linked hl ho').1, Option.some.injEq] at hto
  exact hto.symm

/-- The shares resting at a price are those its level's orders have left. -/
theorem sharesAt_level (hl : b.levelAt stock side p = some lvl) :
    b.meaning.sharesAt stock side p =
      ((PriceLevel.linked lvl).map fun o => (b.heap o).remainingQty.toNat).sum := by
  unfold Orders.sharesAt
  rw [refsAt_eq h hl, List.sum_toFinset _ (nodup_refs h hl), List.map_map]
  congr 1
  refine List.map_congr_left fun o ho => ?_
  show b.meaning.left (b.heap o).id = _
  unfold Orders.left
  rw [meaning_some (h.linked hl ho).1]
  rfl

/-- **A level is what its orders make it.** -/
theorem levelOf_eq [LawfulPriceLevel L] (hl : b.levelAt stock side p = some lvl) :
    b.meaning.levelOf stock side p =
      { price := p, qty := PriceLevel.totalQuantity lvl,
        orders := PriceLevel.orderCount lvl } := by
  unfold Orders.levelOf
  rw [sharesAt_level h hl, (h.level _ _ _ _ hl).total, LawfulPriceLevel.orderCount_eq,
    refsAt_eq h hl, List.toFinset_card_of_nodup (nodup_refs h hl), List.length_map]

/-- The prices of a side. -/
theorem prices_eq :
    b.meaning.prices stock side =
      (((b.books stock).side side).levels.map Prod.fst).toFinset := by
  ext q
  unfold Orders.prices
  rw [Finset.mem_image, List.mem_toFinset, List.mem_map]
  constructor
  -- an order rests at the price, and it is linked on the level there
  · rintro ⟨ref, hmem, rfl⟩
    obtain ⟨r, hr, hs, hd⟩ := Orders.mem_refs.mp hmem
    obtain ⟨o, ho, rfl⟩ := Option.map_eq_some_iff.mp hr
    obtain ⟨_, lvl', hl', _⟩ := h.reached ho
    simp only at hs hd
    rw [hs, hd] at hl'
    refine ⟨_, (BookSide.lookup_some (h.sorted _ _)).mp hl', ?_⟩
    rw [hr]
    rfl
  -- a level is there because somebody is on it
  · rintro ⟨e, he, rfl⟩
    have hl := levelAt_mem h he
    obtain ⟨o, ho⟩ := List.exists_mem_of_ne_nil _ (h.nonempty _ _ _ _ hl)
    obtain ⟨hto, hs, hd, hp⟩ := h.linked hl ho
    refine ⟨(b.heap o).id, Orders.mem_refs.mpr ⟨_, meaning_some hto, hs, hd⟩, ?_⟩
    rw [meaning_some hto]
    exact hp

end Level

/-! ## What is seen -/

section Shown

variable [LawfulPriceLevel L] (h : Rep b)
include h

/-- **The levels of a side**, best price first. -/
theorem levels_eq (stock : UInt16) (side : Side) :
    b.levels stock side = b.meaning.levels stock side := by
  have hsorted := h.sorted stock side
  have hbefore : (((b.books stock).side side).levels.map Prod.fst).Pairwise
      fun a b => BookSide.before side.isBid a b = true := by
    rw [List.pairwise_map]
    exact hsorted
  have hnodup : (((b.books stock).side side).levels.map Prod.fst).Nodup :=
    hbefore.imp fun hab => BookSide.before_ne hab
  -- a list with no duplicates that is in order is the sorted list of its elements
  have hprices : b.meaning.sortedPrices stock side =
      ((b.books stock).side side).levels.map Prod.fst := by
    cases side with
    | buy =>
      rw [Orders.sortedPrices, prices_eq h]
      exact (List.toFinset_sort _ hnodup).mpr
        (hbefore.imp fun hab => Int.le_of_lt (of_decide_eq_true hab))
    | sell =>
      rw [Orders.sortedPrices, prices_eq h]
      exact (List.toFinset_sort _ hnodup).mpr
        (hbefore.imp fun hab => Int.le_of_lt (of_decide_eq_true hab))
  unfold levels Orders.levels
  rw [hprices, List.map_map]
  exact List.map_congr_left fun e he => (levelOf_eq h (levelAt_mem h he)).symm

theorem top_eq (stock : UInt16) : b.top stock = b.meaning.top stock := by
  have hbest : ∀ side, ((b.books stock).side side).best =
      ((b.books stock).side side).levels.head?.map Prod.snd := fun _ => rfl
  have hprice : ∀ side, ∀ e ∈ ((b.books stock).side side).levels.head?,
      PriceLevel.price e.2 = e.1 := fun side e he =>
    (h.level _ _ _ _ (levelAt_mem h (List.mem_of_mem_head? he))).price
  unfold Orders.top
  rw [← levels_eq h, ← levels_eq h]
  unfold top levels
  rw [List.head?_map, List.head?_map]
  have hb := hprice .buy
  have ha := hprice .sell
  change ∀ e ∈ (b.books stock).bids.levels.head?, _ at hb
  change ∀ e ∈ (b.books stock).asks.levels.head?, _ at ha
  simp only [BookSide.best, Book.side]
  -- a side with no level shows zeros, in the source and in the map
  cases hbids : (b.books stock).bids.levels.head? with
  | none =>
    cases hasks : (b.books stock).asks.levels.head? with
    | none => rfl
    | some e => simp [ha e hasks]
  | some e =>
    cases hasks : (b.books stock).asks.levels.head? with
    | none => simp [hb e hbids]
    | some e' => simp [hb e hbids, ha e' hasks]

/-- **Everything seen of the book comes from its orders.** -/
theorem Rep.shows : Shows b b.meaning where
  levels := levels_eq h
  top := top_eq h
  depth := fun stock side k => by rw [depth, levels_eq h]
  live := by rw [h.live, live_meaning h, card_inUse h]
  digest := by
    unfold digest
    congr 1
    funext stock side
    exact levels_eq h stock side

end Shown

/-! ## Streams -/

omit [PriceLevel L] in
/-- A legal event is harmless. -/
theorem harmless_of_legal {e : BookEvent} (h : b.meaning.LegalEvent e) : Harmless b e := by
  cases e with
  | add locate ts ref side shares price mpid => exact fun _ _ => h
  | replace locate ts oldRef newRef shares price =>
    refine fun _ => ⟨h.1, ?_⟩
    by_cases heq : newRef = oldRef
    · exact Or.inl heq
    · have hfree := h.2
      rw [Function.update_of_ne heq] at hfree
      exact Or.inr (meaning_none.mp hfree)
  | _ => trivial

section Streams

variable [LawfulPriceLevel L] [LawfulMemoryPool P]

/-- From any state: the map moves with the stream, and so does the volume. -/
theorem run_meaning (kind : SideKind) {events : List BookEvent} : ∀ {b : BookBuilder L P}, Rep b →
    Orders.Legal (MemoryPool.capacity b.pool) b.meaning events →
    ∃ b', run kind b events = some b' ∧ Rep b' ∧ b'.meaning = b.meaning.run events ∧
      ∀ stock, (b'.totals stock).executedShares =
        (b.totals stock).executedShares + b.meaning.volume stock events := by
  induction events with
  | nil => exact fun {b} h _ => ⟨b, rfl, h, rfl, fun _ => (UInt64.add_zero _).symm⟩
  | cons e events ih =>
    intro b h hlegal
    obtain ⟨⟨hevent, hfits⟩, hrest⟩ := hlegal
    obtain ⟨b1, hb1, happ⟩ := apply_spec kind h (harmless_of_legal hevent)
    have hm : b1.meaning = b.meaning.step e := happ.meaning_eq hfits
    obtain ⟨b', hb', hrep, hm', hvol⟩ := ih happ.rep (by rw [happ.capacity, hm]; exact hrest)
    refine ⟨b', by rw [run, hb1, Option.bind_some, hb'], hrep, by rw [hm', hm]; rfl, ?_⟩
    intro stock
    rw [hvol, happ.traded, hm, UInt64.add_assoc]
    rfl

omit [PriceLevel L] [LawfulPriceLevel L] [LawfulMemoryPool P] in
theorem meaning_make (capacity : ℕ) :
    (make capacity : BookBuilder L P).meaning = fun _ => none := by
  funext ref
  exact meaning_none.mpr (FlatOrderMap.toMap_empty _ ref)

/-- **The book refines the map of its orders**: after any legal stream, orphans, duplicates and
overfills included, everything seen of the book is computed from the map, and a symbol's volume
is what the stream traded of it. -/
theorem run_refines (kind : SideKind) (capacity : ℕ) (events : List BookEvent)
    (hlegal : Orders.Legal (MemoryPool.capacity (MemoryPool.make : P)) (fun _ => none) events) :
    ∃ b, run kind (make capacity : BookBuilder L P) events = some b ∧
      Shows b (Orders.run (fun _ => none) events) ∧
      ∀ stock, (b.totals stock).executedShares =
        Orders.volume (fun _ => none) stock events := by
  obtain ⟨b, hb, hrep, hm, hvol⟩ := run_meaning kind (rep_make capacity)
    (meaning_make (L := L) (P := P) capacity ▸ hlegal)
  rw [meaning_make] at hm hvol
  refine ⟨b, hb, hm ▸ hrep.shows, fun stock => ?_⟩
  rw [hvol]
  exact UInt64.zero_add _

end Streams

/-- Two orders and a trade against hidden liquidity, in a pool of four. -/
theorem run_refines_twoOrders :
    ∃ b, run .vector (make 8 : BookBuilder ListLevel (CellPool 4))
        [.add 7 100 1 'B' 500 1000000 false, .add 7 101 2 'S' 300 1000500 false,
          .trade 7 102 250 1000250] = some b ∧
      Shows b (Orders.run (fun _ => none) [.add 7 100 1 'B' 500 1000000 false,
        .add 7 101 2 'S' 300 1000500 false, .trade 7 102 250 1000250]) ∧
      ∀ stock, (b.totals stock).executedShares = Orders.volume (fun _ => none) stock
        [.add 7 100 1 'B' 500 1000000 false, .add 7 101 2 'S' 300 1000500 false,
          .trade 7 102 250 1000250] := by
  have hone : Orders.live (Function.update (fun _ => none) 1
      (some ⟨7, .buy, (1000000 : UInt32).toNat, 500⟩)) = 1 := by
    rw [Orders.live_update rfl, Orders.live_empty]
  have htwo : Orders.live (Function.update (Function.update (fun _ => none) 1
      (some ⟨7, .buy, (1000000 : UInt32).toNat, 500⟩)) 2
      (some ⟨7, .sell, (1000500 : UInt32).toNat, 300⟩)) = 2 := by
    rw [Orders.live_update rfl, hone]
  have hz1 : (1 : UInt64) ≠ kEmptyKey := by decide
  have hz2 : (2 : UInt64) ≠ kEmptyKey := by decide
  refine run_refines .vector 8 _ ⟨⟨hz1, ?_⟩, ⟨hz2, ?_⟩, ⟨trivial, ?_⟩, trivial⟩
  · exact hone.trans_le (by decide)
  · exact htwo.trans_le (by decide)
  · exact htwo.trans_le (by decide)

end BookBuilder

end Tickerplant
