import Mathlib.Data.List.Perm.Basic
import Tickerplant.Book.Faultless
import Tickerplant.Synthetic.Feed

/-!
# The live orders are the orders of the book

`Pool` ties the list the generator draws from to the map of the orders the stream has left: each
order of the one is an order of the other, under a reference issued once, with whole lots of
shares. It is the invariant that the header of the generator calls absolute, in a form that an
action can be checked against: what is drawn from the list is in the map (`Pool.resting`), and what
comes under a new reference is not (`Pool.free`).

The order of the list carries no meaning, so that `Pool` is kept by a permutation (`Pool.perm`),
and a swap with the back that drops the back is the removal of one order (`dropSwap_perm`). With
that every lemma here is about the head of a list, and what the eight actions do to the pool is one
of three things: an order comes (`Pool.push`), goes (`Pool.drop`), or loses shares (`Pool.change`).
An execution and a cancel are the last two, by whether shares are left (`Pool.take`, and
`Pool.fill` for the list as the generator keeps it).

At the end of a session the list is counted, in all and by symbol, and the book is counted by its
map. `card_refs` says that the two counts agree for any kind of order.
-/

set_option autoImplicit false

namespace Tickerplant

/-! ## Taking an order out of a list -/

section Lists

variable {α : Type} {l : List α} {i : ℕ}

/-- Swapping with the back and dropping the back takes one element out. -/
theorem dropSwap_perm (h : i < l.length) (d : α) :
    ((l.set i (l.getLastD d)).dropLast).Perm (l.eraseIdx i) := by
  obtain ⟨x, hx⟩ : ∃ x, l.getLastD d = x := ⟨_, rfl⟩
  have hne : l ≠ [] := List.ne_nil_of_length_pos (Nat.zero_lt_of_lt h)
  have hlast : l.getLast hne = x := by
    rw [← hx, List.getLastD_eq_getLast?, List.getLast?_eq_some_getLast hne, Option.getD_some]
  have hset : l.set i x ≠ [] := mt (List.set_eq_nil_iff i x).mp hne
  have hback : (l.set i x).getLast hset = x := by
    rw [List.getLast_eq_getElem, List.getElem_set]
    split
    · rfl
    · simpa [List.getLast_eq_getElem] using hlast
  rw [hx]
  -- the list with the back written over `i` is the back and the rest, and its own back is that
  -- back
  have hwhole := List.set_perm_cons_eraseIdx h x
  rw [← List.dropLast_concat_getLast hset, hback] at hwhole
  exact (List.perm_cons _).mp ((List.perm_append_singleton _ _).symm.trans hwhole)

/-- The order at `i` may be taken to be the first. -/
theorem getD_cons_eraseIdx_perm (h : i < l.length) (d : α) :
    (l.getD i d :: l.eraseIdx i).Perm l := by
  rw [List.getD_eq_getElem _ _ h]
  exact List.getElem_cons_eraseIdx_perm h

end Lists

namespace Synthetic

open Lib Itch

/-! ## The pool

`m` is the map of the orders that the messages so far have left in a book. -/

namespace LiveOrder

/-- The order of the book it is. -/
def resting (o : LiveOrder) : Resting where
  symbol := o.locate
  side := if o.side = 'B'.toUInt8 then .buy else .sell
  price := o.price.toNat
  remaining := o.shares

/-- An order that the book will take, and that the generator may draw from. -/
structure Sound (symbols : ℕ) (nextRef : UInt64) (o : LiveOrder) : Prop where
  /-- Its reference has been issued, so the next one is free. -/
  issued : o.ref < nextRef
  /-- There is a lot to execute, and whole lots stay whole lots. -/
  lots : 100 ≤ o.shares.toNat ∧ o.shares.toNat % 100 = 0
  /-- One of the two letters the book knows. -/
  side : o.side = 'B'.toUInt8 ∨ o.side = 'S'.toUInt8
  /-- It counts for some symbol at the end. -/
  listed : 1 ≤ o.locate.toNat ∧ o.locate.toNat ≤ symbols

/-- The book reads the letter as the side it stands for. -/
theorem Sound.sideOf {symbols : ℕ} {nextRef : UInt64} {o : LiveOrder}
    (h : o.Sound symbols nextRef) :
    Tickerplant.sideOf (Char.ofUInt8 o.side) = some o.resting.side := by
  show _ = some (if o.side = 'B'.toUInt8 then Side.buy else Side.sell)
  rcases h.side with hs | hs <;> rw [hs] <;> decide

end LiveOrder

/-- The live orders are those of the map. -/
structure Pool (symbols : ℕ) (nextRef : UInt64) (live : List LiveOrder) (m : Orders) : Prop where
  /-- In both directions: nothing live is missing from the book, and nothing else is in it. -/
  means : ∀ ref r, m ref = some r ↔ ∃ o ∈ live, o.ref = ref ∧ o.resting = r
  /-- An order is named by its reference, so one comes off the list when one comes off the map. -/
  nodup : (live.map LiveOrder.ref).Nodup
  sound : ∀ o ∈ live, o.Sound symbols nextRef

namespace Pool

variable {symbols : ℕ} {nextRef : UInt64} {live live' : List LiveOrder} {m : Orders}
  {o o' : LiveOrder}

/-- Nothing is live at the open. -/
theorem empty (symbols : ℕ) (nextRef : UInt64) : Pool symbols nextRef [] fun _ => none where
  means := fun _ _ => by simp
  nodup := List.nodup_nil
  sound := fun _ h => by cases h

/-- The order of the list carries no meaning. -/
theorem perm (h : Pool symbols nextRef live m) (hp : live.Perm live') :
    Pool symbols nextRef live' m where
  means := fun ref r => (h.means ref r).trans
    ⟨fun ⟨o, ho, hr⟩ => ⟨o, hp.mem_iff.mp ho, hr⟩, fun ⟨o, ho, hr⟩ => ⟨o, hp.mem_iff.mpr ho, hr⟩⟩
  nodup := (hp.map _).nodup_iff.mp h.nodup
  sound := fun o ho => h.sound o (hp.mem_iff.mpr ho)

/-- References are issued, and those that are live stay below. -/
theorem issue (h : Pool symbols nextRef live m) {nextRef' : UInt64} (hle : nextRef ≤ nextRef') :
    Pool symbols nextRef' live m where
  means := h.means
  nodup := h.nodup
  sound := fun o ho =>
    { h.sound o ho with issued := UInt64.lt_of_lt_of_le (h.sound o ho).issued hle }

/-- What is live is in the book. -/
theorem resting (h : Pool symbols nextRef live m) (ho : o ∈ live) : m o.ref = some o.resting :=
  (h.means _ _).mpr ⟨o, ho, rfl, rfl⟩

/-- A reference that is not live is free. -/
theorem free (h : Pool symbols nextRef live m) {ref : UInt64} (hfree : ∀ o ∈ live, o.ref ≠ ref) :
    m ref = none := by
  by_contra hne
  obtain ⟨r, hr⟩ := Option.ne_none_iff_exists'.mp hne
  obtain ⟨o, ho, href, -⟩ := (h.means ref r).mp hr
  exact hfree o ho href

/-- A reference not issued yet is not live. -/
theorem ne_of_le (h : Pool symbols nextRef live m) {ref : UInt64} (hle : nextRef ≤ ref) :
    ∀ o ∈ live, o.ref ≠ ref := fun o ho heq => by
  have hlt := (h.sound o ho).issued
  rw [heq] at hlt
  exact UInt64.not_lt.mpr hle hlt

/-- An order comes. -/
theorem push (h : Pool symbols nextRef live m) (hfree : ∀ o' ∈ live, o'.ref ≠ o.ref)
    (ho : o.Sound symbols nextRef) :
    Pool symbols nextRef (o :: live) (Function.update m o.ref (some o.resting)) where
  means := fun ref r => by
    by_cases href : ref = o.ref
    · subst href
      rw [Function.update_self, Option.some_inj]
      constructor
      · rintro rfl
        exact ⟨o, List.mem_cons_self, rfl, rfl⟩
      · rintro ⟨o', ho', href, rfl⟩
        rcases List.mem_cons.mp ho' with rfl | hmem
        · rfl
        · exact absurd href (hfree o' hmem)
    · rw [Function.update_of_ne href, h.means]
      constructor
      · rintro ⟨o', ho', hr⟩
        exact ⟨o', List.mem_cons_of_mem _ ho', hr⟩
      · rintro ⟨o', ho', rfl, rfl⟩
        rcases List.mem_cons.mp ho' with rfl | hmem
        · exact absurd rfl href
        · exact ⟨o', hmem, rfl, rfl⟩
  nodup := by
    rw [List.map_cons, List.nodup_cons]
    refine ⟨fun hmem => ?_, h.nodup⟩
    obtain ⟨o', ho', href⟩ := List.mem_map.mp hmem
    exact hfree o' ho' href
  sound := fun o' ho' => by
    rcases List.mem_cons.mp ho' with rfl | hmem
    · exact ho
    · exact h.sound o' hmem

/-- An order is the only one under its reference. -/
theorem ne_of_cons (h : Pool symbols nextRef (o :: live) m) : ∀ o' ∈ live, o'.ref ≠ o.ref :=
  fun o' ho' href => by
    have hnodup := h.nodup
    rw [List.map_cons, List.nodup_cons] at hnodup
    exact hnodup.1 (List.mem_map.mpr ⟨o', ho', href⟩)

/-- An order goes. -/
theorem drop (h : Pool symbols nextRef (o :: live) m) :
    Pool symbols nextRef live (Function.update m o.ref none) where
  means := fun ref r => by
    by_cases href : ref = o.ref
    · subst href
      rw [Function.update_self]
      refine iff_of_false nofun ?_
      rintro ⟨o', ho', href, -⟩
      exact h.ne_of_cons o' ho' href
    · rw [Function.update_of_ne href, h.means]
      constructor
      · rintro ⟨o', ho', rfl, rfl⟩
        rcases List.mem_cons.mp ho' with rfl | hmem
        · exact absurd rfl href
        · exact ⟨o', hmem, rfl, rfl⟩
      · rintro ⟨o', ho', hr⟩
        exact ⟨o', List.mem_cons_of_mem _ ho', hr⟩
  nodup := (List.nodup_cons.mp h.nodup).2
  sound := fun o' ho' => h.sound o' (List.mem_cons_of_mem _ ho')

/-- An order stays under its reference, with something of it changed. -/
theorem change (h : Pool symbols nextRef (o :: live) m) (href : o'.ref = o.ref)
    (ho' : o'.Sound symbols nextRef) :
    Pool symbols nextRef (o' :: live) (Function.update m o.ref (some o'.resting)) := by
  have hpush := h.drop.push (fun o'' ho'' => href ▸ h.ne_of_cons o'' ho'') ho'
  rwa [href, Function.update_idem] at hpush

/-- **What execution and cancellation do**: shares are taken off an order, which goes when none
are left. -/
theorem take (h : Pool symbols nextRef (o :: live) m) {shares : UInt32}
    (hle : shares.toNat ≤ o.shares.toNat) (hlots : shares.toNat % 100 = 0) :
    let o' := { o with shares := o.shares - shares }
    (o'.shares = 0 → Pool symbols nextRef live (m.take o.ref shares)) ∧
      (o'.shares ≠ 0 → Pool symbols nextRef (o' :: live) (m.take o.ref shares)) := by
  intro o'
  -- no borrow, since no more is taken than is left
  have hleft : o'.shares.toNat = o.shares.toNat - shares.toNat :=
    UInt32.toNat_sub_of_le _ _ (UInt32.le_iff_toNat_le.mpr hle)
  have hzero : o'.shares = 0 ↔ o.shares ≤ shares := by
    rw [← UInt32.toNat_inj, hleft, UInt32.le_iff_toNat_le]
    show _ - _ = 0 ↔ _
    omega
  have hsound := h.sound o List.mem_cons_self
  unfold Orders.take
  rw [h.resting List.mem_cons_self]
  simp only
  -- the map drops an order whose remaining shares are all taken, as the list does
  constructor
  · intro hgone
    rw [if_pos (show o.resting.remaining ≤ shares from hzero.mp hgone)]
    exact h.drop
  · intro hstays
    rw [if_neg (show ¬ o.resting.remaining ≤ shares from fun hgone => hstays (hzero.mpr hgone))]
    have hpos : o'.shares.toNat ≠ 0 := fun h0 => hstays (UInt32.toNat_inj.mp h0)
    have hwhole := hsound.lots.2
    have hlots' : 100 ≤ o'.shares.toNat ∧ o'.shares.toNat % 100 = 0 := by omega
    have hsound' : o'.Sound symbols nextRef := { hsound with lots := hlots' }
    exact h.change rfl hsound'

/-- Shares come off the order at `i`, and its place in the list is filled from the back when none
are left. -/
theorem fill (h : Pool symbols nextRef live m) {i : ℕ} (hi : i < live.length) {shares : UInt32}
    (hle : shares.toNat ≤ (live.getD i default).shares.toNat) (hlots : shares.toNat % 100 = 0) :
    let o := live.getD i default
    let o' := { o with shares := o.shares - shares }
    let changed := live.set i o'
    Pool symbols nextRef
      (if o'.shares = 0 then (changed.set i (changed.getLastD default)).dropLast else changed)
      (m.take o.ref shares) := by
  intro o o' changed
  obtain ⟨hgone, hstays⟩ := (h.perm (getD_cons_eraseIdx_perm hi default).symm).take hle hlots
  split
  · rename_i hzero
    have hi' : i < changed.length := by rwa [List.length_set]
    have herase : changed.eraseIdx i = live.eraseIdx i := List.eraseIdx_set_eq
    exact (hgone hzero).perm (herase ▸ (dropSwap_perm hi' default).symm)
  · rename_i hne
    exact (hstays hne).perm (List.set_perm_cons_eraseIdx hi o').symm

/-- No more orders are live than references were issued. -/
theorem length_lt (h : Pool symbols nextRef live m) : live.length < 2 ^ 64 := by
  have hnodup : (live.map fun o => o.ref.toNat).Nodup := by
    have hinj := h.nodup.map (f := UInt64.toNat) fun _ _ heq => UInt64.toNat_inj.mp heq
    rwa [List.map_map] at hinj
  -- each live order has a reference of its own below the next
  have hsub : (live.map fun o => o.ref.toNat) ⊆ List.range nextRef.toNat := by
    intro n hn
    obtain ⟨o, ho, rfl⟩ := List.mem_map.mp hn
    exact List.mem_range.mpr (UInt64.lt_iff_toNat_lt.mp (h.sound o ho).issued)
  have hle := (hnodup.subperm hsub).length_le
  rw [List.length_map, List.length_range] at hle
  exact Nat.lt_of_le_of_lt hle nextRef.toNat_lt

/-! ## Counting

The list has each order once, so it may be counted in place of the map's references. -/

/-- The orders of a kind, counted in the pool. -/
theorem card_refs (h : Pool symbols nextRef live m) (p : Resting → Bool) :
    (m.refs fun r => p r = true).card = live.countP fun o => p o.resting := by
  have hset : (m.refs fun r => p r = true) =
      ((live.filter fun o => p o.resting).map LiveOrder.ref).toFinset := by
    ext ref
    rw [Orders.mem_refs, List.mem_toFinset, List.mem_map]
    constructor
    · rintro ⟨r, hr, hp⟩
      obtain ⟨o, ho, rfl, rfl⟩ := (h.means ref r).mp hr
      exact ⟨o, List.mem_filter.mpr ⟨ho, hp⟩, rfl⟩
    · rintro ⟨o, ho, rfl⟩
      obtain ⟨hmem, hp⟩ := List.mem_filter.mp ho
      exact ⟨_, h.resting hmem, hp⟩
  have hnodup : ((live.filter fun o => p o.resting).map LiveOrder.ref).Nodup :=
    h.nodup.sublist (List.filter_sublist.map _)
  rw [hset, List.toFinset_card_of_nodup hnodup, List.length_map, List.countP_eq_length_filter]

/-- As many orders are live as the book has. -/
theorem live_eq (h : Pool symbols nextRef live m) : m.live = live.length := by
  have hall := h.card_refs fun _ => true
  simp only [List.countP_true] at hall
  rw [← hall]
  simp [Orders.live]

end Pool

end Synthetic
end Tickerplant
