import Tickerplant.Book.Refines
import Tickerplant.Lib.Interleave

/-!
# Nothing out of step

`InStep` is what the book promises of its own structures, said of what can be counted and summed:
the counter, the table and the levels hold the same orders, each can be found by its reference, and
a level's total is the sum of what its orders have left. It is said of the builder alone, and does
not mention the orders of the feed.

The representation gives all of it but the last. A level's total is a 32-bit counter, so `Rep`
makes it the sum only modulo `2 ^ 32`, and it is the sum exactly when no price has more shares
resting than that (`Rep.inStep_iff`). So there are three ways out of step and no others: an order
entered under reference zero, a replace that takes a live reference, and an order whose level
cannot count it. `run_inStep` has them as the condition on each event, in the state it finds.

The condition is exact because each of the three shows at once. The first two leave one live order
more than the table has (`rest_outOfStep`), and the counter and the table are compared in `InStep`;
the third leaves a total short of its sum by a multiple of `2 ^ 32`. An event that brings no order
to rest can do none of it: it only takes shares away (`Applied.narrow`).

What the condition asks of the shares is about one price at a time. A stream that brings fewer than
`2 ^ 32` shares altogether meets it without a look at the prices (`sustains_of_brought`).
-/

set_option autoImplicit false

namespace Tickerplant

namespace BookBuilder

variable {L P : Type} [PriceLevel L] [MemoryPool P] {b b' : BookBuilder L P}

/-! ## The structures, as a whole -/

/-- The orders linked on the levels of a side. -/
def sideOrders (b : BookBuilder L P) (stock : UInt16) (side : Side) : List OrderPtr :=
  ((b.books stock).side side).levels.flatMap fun e => PriceLevel.linked e.2

/-- Every order linked on some level. -/
def linkedOrders (b : BookBuilder L P) : List OrderPtr :=
  (List.range (2 ^ 16)).flatMap fun stock =>
    b.sideOrders (UInt16.ofNat stock) .buy ++ b.sideOrders (UInt16.ofNat stock) .sell

/-- **Nothing is out of step**: the counter, the table and the levels count the same orders, the
table reaches what is linked and only that, no level is empty, and a level's total is the sum of
what its orders have left. -/
structure InStep (b : BookBuilder L P) : Prop where
  /-- `live_orders` counts the table. -/
  live_size : b.stats.liveOrders = b.orders.size
  /-- As many orders are linked as the table has. -/
  size_linked : b.orders.size = b.linkedOrders.length
  /-- What is linked can be found by its reference. -/
  reachable : ∀ stock side, ∀ e ∈ ((b.books stock).side side).levels,
    ∀ o ∈ PriceLevel.linked e.2, b.find (b.heap o).id = some (some o)
  /-- What can be found is linked, on the level of its own price. -/
  linked : ∀ ref o, b.find ref = some (some o) → (b.heap o).id = ref ∧
    ∃ e ∈ ((b.books (b.heap o).symbol).side (b.heap o).side).levels,
      e.1 = (b.heap o).price ∧ o ∈ PriceLevel.linked e.2
  /-- No level is kept with nobody on it. -/
  nonempty : ∀ stock side, ∀ e ∈ ((b.books stock).side side).levels, PriceLevel.linked e.2 ≠ []
  /-- A total is the sum, as a number. -/
  total : ∀ stock side, ∀ e ∈ ((b.books stock).side side).levels,
    (PriceLevel.totalQuantity e.2).toNat =
      ((PriceLevel.linked e.2).map fun o => (b.heap o).remainingQty.toNat).sum

section Counting

/-- The orders of a side are those the table reaches that say so. -/
theorem mem_sideOrders (h : Rep b) {stock : UInt16} {side : Side} {o : OrderPtr} :
    o ∈ b.sideOrders stock side ↔ o ∈ MemoryPool.inUse b.pool ∧ (b.heap o).symbol = stock ∧
      (b.heap o).side = side := by
  unfold sideOrders
  rw [List.mem_flatMap]
  constructor
  · rintro ⟨e, he, ho⟩
    obtain ⟨hto, hs, hd, _⟩ := h.linked (levelAt_mem h he) ho
    exact ⟨(h.pool o).mpr ⟨_, hto⟩, hs, hd⟩
  · rintro ⟨huse, rfl, rfl⟩
    obtain ⟨ref, hr⟩ := (h.pool o).mp huse
    obtain ⟨_, lvl, hl, ho⟩ := h.reached hr
    exact ⟨_, (BookSide.lookup_some (h.sorted _ _)).mp hl, ho⟩

/-- No order is on two levels of a side. -/
theorem nodup_sideOrders (h : Rep b) (stock : UInt16) (side : Side) :
    (b.sideOrders stock side).Nodup := by
  unfold sideOrders
  refine List.nodup_flatMap.mpr ⟨fun e he => (h.level _ _ _ _ (levelAt_mem h he)).nodup, ?_⟩
  refine (h.sorted stock side).imp_of_mem fun {e e'} he he' hbefore o ho ho' => ?_
  have hp := (h.linked (levelAt_mem h he) ho).2.2.2
  have hp' := (h.linked (levelAt_mem h he') ho').2.2.2
  exact BookSide.before_ne hbefore (hp.symm.trans hp')

theorem mem_linkedOrders (h : Rep b) {o : OrderPtr} :
    o ∈ b.linkedOrders ↔ o ∈ MemoryPool.inUse b.pool := by
  unfold linkedOrders
  rw [List.mem_flatMap]
  constructor
  · rintro ⟨stock, _, ho⟩
    rcases List.mem_append.mp ho with ho | ho <;> exact ((mem_sideOrders h).mp ho).1
  · intro huse
    refine ⟨(b.heap o).symbol.toNat, List.mem_range.mpr (UInt16.toNat_lt _), ?_⟩
    rw [UInt16.ofNat_toNat, List.mem_append, mem_sideOrders h, mem_sideOrders h]
    cases hside : (b.heap o).side with
    | buy => exact Or.inl ⟨huse, rfl, rfl⟩
    | sell => exact Or.inr ⟨huse, rfl, rfl⟩

theorem nodup_linkedOrders (h : Rep b) : b.linkedOrders.Nodup := by
  unfold linkedOrders
  refine List.nodup_flatMap.mpr ⟨fun stock _ => ?_, ?_⟩
  · refine List.nodup_append.mpr ⟨nodup_sideOrders h _ _, nodup_sideOrders h _ _, ?_⟩
    rintro o ho o' ho' rfl
    have hbuy := ((mem_sideOrders h).mp ho).2.2
    have hsell := ((mem_sideOrders h).mp ho').2.2
    rw [hbuy] at hsell
    exact absurd hsell (by simp)
  · refine List.nodup_range.imp_of_mem fun {i j} hi hj hne o ho ho' => hne ?_
    -- an order says which symbol it is of, so that two symbols share none
    have hsymbol : ∀ n, o ∈ b.sideOrders (UInt16.ofNat n) .buy ++ b.sideOrders (UInt16.ofNat n)
        .sell → (b.heap o).symbol = UInt16.ofNat n := by
      intro n hn
      rcases List.mem_append.mp hn with hn | hn <;> exact ((mem_sideOrders h).mp hn).2.1
    have hboth := (hsymbol i ho).symm.trans (hsymbol j ho')
    have hnat := congrArg UInt16.toNat hboth
    rwa [UInt16.toNat_ofNat_of_lt' (List.mem_range.mp hi),
      UInt16.toNat_ofNat_of_lt' (List.mem_range.mp hj)] at hnat

/-- A price with shares resting has a level. -/
theorem levelAt_of_sharesAt (h : Rep b) {stock : UInt16} {side : Side} {p : Price}
    (hpos : b.meaning.sharesAt stock side p ≠ 0) : ∃ lvl, b.levelAt stock side p = some lvl := by
  obtain ⟨ref, hmem, _⟩ := Finset.exists_ne_zero_of_sum_ne_zero hpos
  obtain ⟨r, hr, hs, hd, hp⟩ := Orders.mem_refs.mp hmem
  obtain ⟨o, ho, rfl⟩ := Option.map_eq_some_iff.mp hr
  obtain ⟨-, lvl, hl, -⟩ := h.reached ho
  simp only at hs hd hp
  rw [hs, hd, hp] at hl
  exact ⟨lvl, hl⟩

/-- **What the representation is short of**: the structures are in step exactly when every level
can count its shares. -/
theorem Rep.inStep_iff (h : Rep b) : InStep b ↔ b.meaning.Narrow := by
  constructor
  · intro hin stock side p
    by_cases hpos : b.meaning.sharesAt stock side p = 0
    -- a price with no shares needs no level to say so
    · rw [hpos]
      exact Nat.two_pow_pos 32
    · obtain ⟨lvl, hl⟩ := levelAt_of_sharesAt h hpos
      have htotal := hin.total stock side _ ((BookSide.lookup_some (h.sorted _ _)).mp hl)
      rw [sharesAt_level h hl, ← htotal]
      -- a sum the counter equals is below what a counter can hold
      exact (PriceLevel.totalQuantity lvl).toNat_lt
  · intro hnarrow
    exact {
      live_size := h.live
      size_linked := by
        have hset : b.linkedOrders.toFinset = MemoryPool.inUse b.pool := by
          ext o
          rw [List.mem_toFinset]
          exact mem_linkedOrders h
        rw [← card_inUse h, ← hset, List.toFinset_card_of_nodup (nodup_linkedOrders h)]
      reachable := fun stock side e he o ho => by
        rw [find_eq h, (h.linked (levelAt_mem h he) ho).1]
      linked := by
        intro ref o hr
        rw [find_eq h, Option.some.injEq] at hr
        obtain ⟨hid, lvl, hl, ho⟩ := h.reached hr
        exact ⟨hid, _, (BookSide.lookup_some (h.sorted _ _)).mp hl, rfl, ho⟩
      nonempty := fun stock side e he => h.nonempty _ _ _ _ (levelAt_mem h he)
      total := fun stock side e he => by
        have hl := levelAt_mem h he
        have hfits := hnarrow stock side e.1
        rw [sharesAt_level h hl] at hfits
        rw [(h.level _ _ _ _ hl).total, UInt32.toNat_ofNat_of_lt' hfits] }

end Counting

/-! ## One event -/

section Events

variable [LawfulPriceLevel L] [LawfulMemoryPool P] (kind : SideKind) {e : BookEvent}

/-- What an event has to be for nothing to fall out of step: the table can take in the order it
brings, and the level can count it. -/
def Sustains (b : BookBuilder L P) (e : BookEvent) : Prop :=
  Harmless b e ∧ (Rests b e → b.meaning.Countable e)

/-- An order that comes to rest keeps the structures in step exactly when the event sustains
them. -/
theorem Placing.inStep {b3 : BookBuilder L P} {old ref : UInt64} {r : Resting}
    (hp : Placing kind b e b3 old ref r) (hrests : Rests b e) (hnarrow : b.meaning.Narrow) :
    ∃ b', apply kind b e = some b' ∧ (InStep b' ↔ Sustains b e) ∧ (Sustains b e → Rep b') := by
  have hplace := hp.place.mpr hrests
  obtain ⟨price, ts, hprice, happly⟩ := hp.applies
  by_cases hok : Harmless b e
  · obtain ⟨hz, hnew⟩ := hp.harmless.mp hok hrests
    obtain ⟨b', hb', hrep, hm, -, -⟩ := rest_spec kind hp.rep hz hnew hplace
    rw [← hprice] at hm
    -- removing the order in the way has made no level longer, so the new order's is the one to ask
    -- about
    have hbefore : b3.meaning.Narrow := fun stock side p => by
      rw [hp.meaning]
      exact Orders.sharesAt_none_le.trans_lt (hnarrow stock side p)
    refine ⟨b', happly.trans hb', ?_, fun _ => hrep⟩
    rw [hrep.inStep_iff, hm, Orders.narrow_some hbefore (meaning_none.mpr hnew), ← hp.countable]
    exact ⟨fun hc => ⟨hok, fun _ => hc⟩, fun hs => hs.2 hrests⟩
  -- harmful: one order more is counted than the table has, whatever its level says
  · have hbad : ref = kEmptyKey ∨ b3.orders.toMap ref ≠ none := by
      by_contra hfree
      obtain ⟨hz, hnew⟩ := not_or.mp hfree
      exact hok (hp.harmless.mpr fun _ => ⟨hz, not_not.mp hnew⟩)
    obtain ⟨b', hb', hmore⟩ := rest_outOfStep kind hp.rep hbad hplace
    refine ⟨b', happly.trans hb', iff_of_false (fun hin => ?_) fun hs => hok hs.1,
      fun hs => absurd hs.1 hok⟩
    have hsize := hin.live_size
    omega

omit [LawfulPriceLevel L] in
/-- An add with no place to go would be one order more than the pool has places. -/
theorem live_of_full (h : Rep b) {ref : UInt64} (hfree : b.orders.toMap ref = none)
    (hfull : MemoryPool.allocate b.pool = none) (r : Resting) :
    MemoryPool.capacity b.pool < Orders.live (Function.update b.meaning ref (some r)) := by
  rw [Orders.live_update (meaning_none.mpr hfree), live_meaning h]
  exact Nat.lt_succ_of_le ((LawfulMemoryPool.allocate_none b.pool).mp hfull)

omit [LawfulPriceLevel L] in
/-- An event that brings no order to rest only takes shares away. -/
theorem Applied.narrow (happ : Applied b b' e) (hrests : ¬ Rests b e) (h : Rep b)
    (hnarrow : b.meaning.Narrow) : b'.meaning.Narrow := by
  rcases happ.meaning with hm | ⟨-, hm⟩
  · have hlive : (b.meaning.step e).live ≤ MemoryPool.capacity b.pool := by
      rw [← hm, live_meaning happ.rep, ← happ.capacity]
      exact happ.rep.room
    rw [hm]
    intro stock side p
    refine lt_of_le_of_lt ?_ (hnarrow stock side p)
    cases e with
    | add locate ts ref sideChar shares price mpid =>
      cases hs : sideOf sideChar with
      | none => simp only [Orders.step, hs, le_refl]
      | some s =>
        -- an add that did not rest although its side was named found the pool full, and then the
        -- map cannot have the order either
        have hnone := not_or.mp fun hplace => hrests ⟨by rw [hs]; simp, hplace⟩
        have hmore := live_of_full h (not_not.mp hnone.1) (not_not.mp hnone.2)
          ⟨locate, s, price.toNat, shares⟩
        simp only [Orders.step, hs] at hlive
        omega
    | execute locate ts ref shares => exact Orders.sharesAt_take_le
    | executePrice locate ts ref shares printable price => exact Orders.sharesAt_take_le
    | cancel locate ts ref shares => exact Orders.sharesAt_take_le
    | delete locate ts ref => exact Orders.sharesAt_none_le
    | replace locate ts oldRef newRef shares price =>
      simp only [Orders.step, meaning_none.mpr (not_not.mp hrests), le_refl]
    | _ => exact le_rfl
  · rw [hm]
    exact hnarrow

/-- The events that bring an order to rest are an add that names a side and a replace of a live
order. -/
theorem exists_placing (h : Rep b) (hrests : Rests b e) :
    ∃ b3 old ref r, Placing kind b e b3 old ref r := by
  cases e with
  | add locate ts ref sideChar shares price mpid =>
    obtain ⟨side, hs⟩ := Option.ne_none_iff_exists'.mp hrests.1
    obtain ⟨b3, hp⟩ := onAdd_placing kind h hs
    exact ⟨b3, _, _, _, hp⟩
  | replace locate ts oldRef newRef shares price =>
    obtain ⟨o, hr⟩ := Option.ne_none_iff_exists'.mp hrests
    obtain ⟨b3, hp⟩ := onReplace_placing kind h hr
    exact ⟨b3, _, _, _, hp⟩
  | _ => exact absurd hrests id

omit [PriceLevel L] [LawfulPriceLevel L] [LawfulMemoryPool P] in
theorem harmless_of_not_rests (h : ¬ Rests b e) : Harmless b e := by
  cases e with
  | add locate ts ref side shares price mpid =>
    exact fun hs hplace => absurd ⟨hs, Or.inr hplace⟩ h
  | replace locate ts oldRef newRef shares price => exact fun hr => absurd hr h
  | _ => trivial

/-- **One event** from a state in step: the builder answers, and is in step afterwards exactly when
the event sustains it. -/
theorem apply_inStep (h : Rep b) (hnarrow : b.meaning.Narrow) (e : BookEvent) :
    ∃ b', apply kind b e = some b' ∧ (InStep b' ↔ Sustains b e) ∧ (Sustains b e → Rep b') := by
  by_cases hrests : Rests b e
  · obtain ⟨b3, old, ref, r, hp⟩ := exists_placing kind h hrests
    exact hp.inStep kind hrests hnarrow
  · have hok := harmless_of_not_rests hrests
    obtain ⟨b', hb', happ⟩ := apply_spec kind h hok
    have hin : InStep b' := happ.rep.inStep_iff.mpr (happ.narrow hrests h hnarrow)
    exact ⟨b', hb', iff_of_true hin ⟨hok, fun hr => absurd hr hrests⟩, fun _ => happ.rep⟩

end Events

/-! ## Whole streams -/

variable [LawfulPriceLevel L] [LawfulMemoryPool P]

omit [LawfulPriceLevel L] in
theorem inStep_make (capacity : ℕ) : InStep (make capacity : BookBuilder L P) :=
  (rep_make capacity).inStep_iff.mpr (meaning_make (L := L) (P := P) capacity ▸ Orders.narrow_empty)

omit [LawfulPriceLevel L] [LawfulMemoryPool P] in
theorem run_eq (kind : SideKind) (events : List BookEvent) : ∀ b : BookBuilder L P,
    run kind b events = Interleave.run (apply kind) b events := by
  induction events with
  | nil => exact fun _ => rfl
  | cons e events ih => exact fun b => congrArg (Option.bind _) (funext ih)

/-- **When the book is in step**: after every event of a stream, exactly when every event sustains
it in the state it arrives in. Such a stream is applied to its end. -/
theorem run_inStep (kind : SideKind) (capacity : ℕ) (events : List BookEvent) :
    (Interleave.Throughout (apply kind) InStep (make capacity : BookBuilder L P) events ↔
      Interleave.Along (apply kind) Sustains (make capacity : BookBuilder L P) events) ∧
    (Interleave.Along (apply kind) Sustains (make capacity : BookBuilder L P) events →
      ∃ b, run kind (make capacity : BookBuilder L P) events = some b ∧ InStep b) := by
  have hstart := inStep_make (L := L) (P := P) capacity
  constructor
  · exact Interleave.throughout_iff_along_of_answers
      (fun b e (h : Rep b) hin => apply_inStep kind h (h.inStep_iff.mp hin) e) events _
      (rep_make capacity) hstart
  · intro hall
    -- the run itself, from what each event preserves
    have hstep : ∀ (b : BookBuilder L P) e, Rep b ∧ InStep b → Sustains b e →
        ∃ b', apply kind b e = some b' ∧ Rep b' ∧ InStep b' := by
      rintro b e ⟨h, hin⟩ hs
      obtain ⟨b', hb', hiff, hrep⟩ := apply_inStep kind h (h.inStep_iff.mp hin) e
      exact ⟨b', hb', hrep hs, hiff.mpr hs⟩
    obtain ⟨b, hb, -, hin⟩ := Interleave.run_total_along hstep events _
      ⟨rep_make capacity, hstart⟩ hall
    exact ⟨b, (run_eq kind events _).trans hb, hin⟩

/-- **A stream with few shares**: one that brings fewer than `2 ^ 32` in all is sustained if its
references are in order. -/
theorem sustains_of_brought (kind : SideKind) {events : List BookEvent} :
    ∀ {b : BookBuilder L P}, Rep b → Interleave.Along (apply kind) Harmless b events →
      (∀ stock side p, b.meaning.sharesAt stock side p +
        (events.map Orders.brought).sum < 2 ^ 32) →
      Interleave.Along (apply kind) Sustains b events := by
  induction events with
  | nil => exact fun _ _ _ => trivial
  | cons e events ih =>
    intro b h hok hfew
    rw [List.map_cons, List.sum_cons] at hfew
    refine ⟨⟨hok.1, fun _ => ?_⟩, fun b' hb' => ?_⟩
    · -- the order it brings is among the shares counted
      have hroom : ∀ stock side p ref, Orders.sharesAt (Function.update b.meaning ref none) stock
          side p + Orders.brought e < 2 ^ 32 := by
        intro stock side p ref
        have hle : Orders.sharesAt (Function.update b.meaning ref none) stock side p ≤
            b.meaning.sharesAt stock side p := Orders.sharesAt_none_le
        have hall := hfew stock side p
        omega
      cases e with
      | add locate ts ref side shares price mpid => exact fun s _ => hroom _ _ _ _
      | replace locate ts oldRef newRef shares price => exact fun r _ => hroom _ _ _ _
      | _ => trivial
    · obtain ⟨b1, hb1, happ⟩ := apply_spec kind h hok.1
      rw [hb1, Option.some.injEq] at hb'
      subst hb'
      refine ih happ.rep (hok.2 _ hb1) fun stock side p => ?_
      have hall := hfew stock side p
      have hgrow := Orders.sharesAt_step_le b.meaning e stock side p
      rcases happ.meaning with hm | ⟨-, hm⟩ <;> rw [hm] <;> omega

/-- Two orders, one of them replaced, and an execution of more than is left. -/
theorem run_inStep_replaced :
    ∃ b, run .map (make 8 : BookBuilder ListLevel (CellPool 4)) [.add 7 100 1 'B' 500 1000000 false,
        .add 7 101 2 'S' 300 1000500 false, .replace 7 102 1 3 200 1000100,
        .execute 7 103 3 250] = some b ∧ InStep b := by
  refine (run_inStep .map 8 _).2 (sustains_of_brought .map (rep_make 8) ?_ ?_)
  · exact .cons rfl (fun _ _ => by decide) <| .cons rfl (fun _ _ => by decide) <|
      .cons rfl (fun _ => ⟨by decide, Or.inr rfl⟩) <| .cons rfl trivial trivial
  · intro stock side p
    rw [meaning_make, Orders.sharesAt_empty]
    decide

/-- **Reference zero**: the table refuses it, and the order is linked and counted all the same. -/
theorem outOfStep_zeroRef :
    ∃ b, run .map (make 8 : BookBuilder ListLevel (CellPool 4))
      [.add 7 100 0 'B' 500 1000000 false] = some b ∧ ¬ InStep b :=
  ⟨_, rfl, fun h => absurd h.live_size (by decide)⟩

-- a replace onto a live reference: the table overwrites it, and the order it had stays linked
-- with nothing to reach it by
example :
    ∃ b, run .map (make 8 : BookBuilder ListLevel (CellPool 4)) [.add 7 100 1 'B' 500 1000000 false,
        .add 7 101 2 'B' 300 1000000 false, .replace 7 102 1 2 200 1000100] = some b ∧
      ¬ InStep b :=
  ⟨_, rfl, fun h => absurd h.live_size (by decide)⟩

-- two orders of 2 ^ 31 shares at one price: the level's counter is back at zero
example :
    ∃ b, run .map (make 8 : BookBuilder ListLevel (CellPool 4))
        [.add 7 100 1 'B' 2147483648 1000000 false,
          .add 7 101 2 'B' 2147483648 1000000 false] = some b ∧ ¬ InStep b :=
  ⟨_, rfl, fun h => absurd (h.total 7 .buy _ (List.mem_singleton.mpr rfl)) (by decide)⟩

end BookBuilder

end Tickerplant
