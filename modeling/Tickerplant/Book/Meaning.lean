import Mathlib.Algebra.BigOperators.Group.Finset.Basic
import Mathlib.Data.Set.Finite.Basic
import Mathlib.Data.Finset.Sort
import Tickerplant.Book.Builder

/-!
# What the book means

A book is a finite map from references to resting orders: symbol, side, price and what is left.
`Orders.step` is what each event of the feed does to that map, and `Orders.traded` the shares it
adds to a symbol's volume. Everything the builder answers can be read off the map: the orders of a
symbol, side and price (`Orders.refsAt`), hence the levels best first (`Orders.levels`), the top
and the count of what rests.

No hash table, no pool and no tree is mentioned here, and no event is refused: an execution of an
unknown reference changes nothing, more shares taken than there are take all there are, and an add
discards what its reference had. A caller who knows only the feed can compute all of it.

The last part is about one number the code keeps in 32 bits. `Orders.sharesAt` is the true sum of
the shares at a price, and `Orders.Narrow` says that every one of them fits. Sums over the orders
of a level are taken through `Orders.share`, what one reference contributes, so that a change of
one order changes one summand (`Orders.sharesAt_update`).
-/

set_option autoImplicit false

namespace Tickerplant

/-- An order as the feed describes it. -/
structure Resting where
  symbol : UInt16
  side : Side
  price : Price
  remaining : Quantity
  deriving DecidableEq, Repr

/-- What rests, by reference. -/
abbrev Orders := UInt64 → Option Resting

/-- The side an add message names. -/
def sideOf (c : Char) : Option Side :=
  if c = 'B' then some Side.buy else if c = 'S' then some Side.sell else none

namespace Orders

/-- Take shares off an order, which goes when nothing is left. -/
def take (m : Orders) (ref : UInt64) (shares : Quantity) : Orders :=
  match m ref with
  | none => m
  | some r => Function.update m ref
      (if r.remaining ≤ shares then none else some { r with remaining := r.remaining - shares })

/-- What an event does to the orders. An add discards the order its reference had. -/
def step (m : Orders) : BookEvent → Orders
  | .add locate _ ref side shares price _ =>
    match sideOf side with
    | none => m
    | some s => Function.update m ref
        (some { symbol := locate, side := s, price := price.toNat, remaining := shares })
  | .execute _ _ ref shares => m.take ref shares
  | .executePrice _ _ ref shares _ _ => m.take ref shares
  | .cancel _ _ ref shares => m.take ref shares
  | .delete _ _ ref => Function.update m ref none
  | .replace _ _ oldRef newRef shares price =>
    match m oldRef with
    | none => m
    -- side and symbol stay the old order's; the old reference goes before the new one comes, which
    -- matters when they are the same
    | some r => Function.update (Function.update m oldRef none) newRef
        (some { r with price := price.toNat, remaining := shares })
  | _ => m

/-- The shares an event adds to a symbol's volume. -/
def traded (m : Orders) (stock : UInt16) : BookEvent → UInt64
  | .execute _ _ ref shares =>
    match m ref with
    | some r => if r.symbol = stock then shares.toUInt64 else 0
    | none => 0
  | .executePrice _ _ ref shares printable _ =>
    match m ref with
    | some r => if printable ∧ r.symbol = stock then shares.toUInt64 else 0
    | none => 0
  | .trade locate _ shares _ => if locate = stock then shares.toUInt64 else 0
  | .crossTrade locate _ shares _ => if locate = stock then shares.toUInt64 else 0
  | _ => 0

/-- What a stream does to the orders. -/
def run (m : Orders) (events : List BookEvent) : Orders := events.foldl step m

/-- A symbol's volume over a stream. -/
def volume (m : Orders) (stock : UInt16) : List BookEvent → UInt64
  | [] => 0
  | e :: events => m.traded stock e + volume (m.step e) stock events

/-! ## What can be read off -/

instance : Finite UInt64 := Finite.of_injective UInt64.toFin fun _ _ h => UInt64.toFin_inj.mp h

/-- The references whose order is of a kind. -/
noncomputable def refs (m : Orders) (p : Resting → Prop) : Finset UInt64 :=
  (Set.toFinite { ref | ∃ r, m ref = some r ∧ p r }).toFinset

theorem mem_refs {m : Orders} {p : Resting → Prop} {ref : UInt64} :
    ref ∈ m.refs p ↔ ∃ r, m ref = some r ∧ p r := Set.Finite.mem_toFinset _

/-- How many orders rest. -/
noncomputable def live (m : Orders) : ℕ := (m.refs fun _ => True).card

theorem live_empty : live (fun _ => none) = 0 := by
  unfold live
  rw [Finset.card_eq_zero]
  refine Finset.eq_empty_of_forall_notMem fun ref hmem => ?_
  obtain ⟨_, hr, _⟩ := mem_refs.mp hmem
  exact absurd hr (by simp)

/-- A reference that had no order and now has one. -/
theorem live_update {m : Orders} {ref : UInt64} (h : m ref = none) (r : Resting) :
    live (Function.update m ref (some r)) = m.live + 1 := by
  have hset : refs (Function.update m ref (some r)) (fun _ => True) =
      insert ref (m.refs fun _ => True) := by
    ext ref'
    rw [Finset.mem_insert, mem_refs, mem_refs]
    by_cases href : ref' = ref
    · subst href
      simp
    · simp [href]
  unfold live
  rw [hset, Finset.card_insert_of_notMem]
  intro hmem
  obtain ⟨r', hr', _⟩ := mem_refs.mp hmem
  rw [h] at hr'
  exact absurd hr' (by simp)

/-- The orders of a symbol, side and price. -/
noncomputable def refsAt (m : Orders) (stock : UInt16) (side : Side) (p : Price) : Finset UInt64 :=
  m.refs fun r => r.symbol = stock ∧ r.side = side ∧ r.price = p

/-- The prices at which orders of a symbol and side rest. -/
noncomputable def prices (m : Orders) (stock : UInt16) (side : Side) : Finset Price :=
  (m.refs fun r => r.symbol = stock ∧ r.side = side).image fun ref => ((m ref).map (·.price)).getD 0

/-- The shares left on an order. -/
def left (m : Orders) (ref : UInt64) : ℕ := ((m ref).map (·.remaining.toNat)).getD 0

/-- The shares resting at a price: the true sum, which a level keeps in 32 bits. -/
noncomputable def sharesAt (m : Orders) (stock : UInt16) (side : Side) (p : Price) : ℕ :=
  ∑ ref ∈ m.refsAt stock side p, m.left ref

/-- The level of a price: how much rests there, and how many orders. -/
noncomputable def levelOf (m : Orders) (stock : UInt16) (side : Side) (p : Price) : DepthLevel where
  price := p
  qty := UInt32.ofNat (m.sharesAt stock side p)
  orders := UInt32.ofNat (m.refsAt stock side p).card

/-- The prices of a side, best first. A bid is the better the higher it is, an ask the lower. -/
noncomputable def sortedPrices (m : Orders) (stock : UInt16) : Side → List Price
  | .buy => (m.prices stock .buy).sort (· ≥ ·)
  | .sell => (m.prices stock .sell).sort (· ≤ ·)

/-- The levels of a side, best price first. -/
noncomputable def levels (m : Orders) (stock : UInt16) (side : Side) : List DepthLevel :=
  (m.sortedPrices stock side).map (m.levelOf stock side)

/-- The top of a symbol's book. -/
noncomputable def top (m : Orders) (stock : UInt16) : TopOfBook :=
  let bid := (m.levels stock .buy).head?
  let ask := (m.levels stock .sell).head?
  { bidPrice := (bid.map (·.price)).getD 0
    bidQty := (bid.map (·.qty)).getD 0
    bidOrders := (bid.map (·.orders)).getD 0
    askPrice := (ask.map (·.price)).getD 0
    askQty := (ask.map (·.qty)).getD 0
    askOrders := (ask.map (·.orders)).getD 0 }

/-! ## What a level's counter can hold -/

/-- The shares an order adds to a price. -/
def share (stock : UInt16) (side : Side) (p : Price) : Option Resting → ℕ
  | none => 0
  | some r => if r.symbol = stock ∧ r.side = side ∧ r.price = p then r.remaining.toNat else 0

/-- No price has more shares resting than `Quantity` counts. -/
def Narrow (m : Orders) : Prop := ∀ stock side p, m.sharesAt stock side p < 2 ^ 32

/-- **The order the event brings can be counted**: with what already rests at its price, the order
it takes the place of apart, it stays below `2 ^ 32` shares. -/
def Countable (m : Orders) : BookEvent → Prop
  | .add locate _ ref side shares price _ => ∀ s, sideOf side = some s →
    sharesAt (Function.update m ref none) locate s price.toNat + shares.toNat < 2 ^ 32
  | .replace _ _ oldRef _ shares price => ∀ r, m oldRef = some r →
    sharesAt (Function.update m oldRef none) r.symbol r.side price.toNat + shares.toNat < 2 ^ 32
  | _ => True

/-- The shares an event brings to the book. -/
def brought : BookEvent → ℕ
  | .add _ _ _ _ shares _ _ | .replace _ _ _ _ shares _ => shares.toNat
  | _ => 0

section Shares

variable {m : Orders} {ref : UInt64} {x : Option Resting} {stock : UInt16} {side : Side} {p : Price}

/-- The sum may run over more references: those of other levels add nothing. -/
theorem sharesAt_eq {s : Finset UInt64} (hs : m.refsAt stock side p ⊆ s) :
    m.sharesAt stock side p = ∑ ref ∈ s, share stock side p (m ref) := by
  have hout : ∀ ref ∈ s, ref ∉ m.refsAt stock side p → share stock side p (m ref) = 0 := by
    intro ref _ hno
    cases hr : m ref with
    | none => rfl
    | some r => exact if_neg fun hat => hno (mem_refs.mpr ⟨r, hr, hat⟩)
  rw [← Finset.sum_subset hs hout]
  refine Finset.sum_congr rfl fun ref hmem => ?_
  obtain ⟨r, hr, hat⟩ := mem_refs.mp hmem
  rw [left, hr]
  exact (if_pos hat).symm

/-- **One reference changes**: a level has what it had, less what the old order added to it, and
with what the new one does. -/
theorem sharesAt_update (m : Orders) (ref : UInt64) (x : Option Resting) (stock : UInt16)
    (side : Side) (p : Price) :
    sharesAt (Function.update m ref x) stock side p + share stock side p (m ref) =
      m.sharesAt stock side p + share stock side p x := by
  let s : Finset UInt64 :=
    insert ref (m.refsAt stock side p ∪ refsAt (Function.update m ref x) stock side p)
  have hmem : ref ∈ s := Finset.mem_insert_self _ _
  have hold : m.refsAt stock side p ⊆ s :=
    Finset.subset_union_left.trans (Finset.subset_insert _ _)
  have hnew : refsAt (Function.update m ref x) stock side p ⊆ s :=
    Finset.subset_union_right.trans (Finset.subset_insert _ _)
  -- away from the reference the two sums have the same terms
  have hrest : ∑ ref' ∈ s.erase ref, share stock side p (Function.update m ref x ref') =
      ∑ ref' ∈ s.erase ref, share stock side p (m ref') :=
    Finset.sum_congr rfl fun ref' hmem' => by
      rw [Function.update_of_ne (Finset.ne_of_mem_erase hmem')]
  rw [sharesAt_eq hold, sharesAt_eq hnew, ← Finset.add_sum_erase s _ hmem,
    ← Finset.add_sum_erase s _ hmem, hrest, Function.update_self]
  omega

theorem sharesAt_none_le :
    sharesAt (Function.update m ref none) stock side p ≤ m.sharesAt stock side p := by
  have h := sharesAt_update m ref none stock side p
  rw [share] at h
  omega

/-- A new order's shares are on its own level. -/
theorem sharesAt_some (hfree : m ref = none) (r : Resting) :
    sharesAt (Function.update m ref (some r)) stock side p =
      m.sharesAt stock side p + share stock side p (some r) := by
  have h := sharesAt_update m ref (some r) stock side p
  rwa [hfree, share] at h

theorem sharesAt_take_le {shares : Quantity} :
    (m.take ref shares).sharesAt stock side p ≤ m.sharesAt stock side p := by
  unfold take
  cases hr : m ref with
  | none => exact le_rfl
  | some r =>
    simp only
    split
    · exact sharesAt_none_le
    · rename_i hsome
      -- the order is the same but for its shares, so that it contributes to the same level
      have hle : (r.remaining - shares).toNat ≤ r.remaining.toNat := by
        rw [UInt32.toNat_sub_of_le _ _ (UInt32.le_of_lt (UInt32.not_le.mp hsome))]
        exact Nat.sub_le _ _
      have hshare : share stock side p (some { r with remaining := r.remaining - shares }) ≤
          share stock side p (some r) := by
        simp only [share]
        split
        · exact hle
        · exact le_rfl
      have h := sharesAt_update m ref (some { r with remaining := r.remaining - shares }) stock
        side p
      rw [hr] at h
      omega

theorem sharesAt_empty : sharesAt (fun _ => none) stock side p = 0 :=
  sharesAt_eq (s := ∅) fun ref hmem => by
    obtain ⟨_, hr, _⟩ := mem_refs.mp hmem
    exact absurd hr (by simp)

theorem narrow_empty : Narrow fun _ => none := fun _ _ _ => sharesAt_empty ▸ Nat.two_pow_pos 32

theorem share_le {r : Resting} : share stock side p (some r) ≤ r.remaining.toNat := by
  simp only [share]
  split
  · exact le_rfl
  · exact Nat.zero_le _

theorem sharesAt_some_le {r : Resting} :
    sharesAt (Function.update m ref (some r)) stock side p ≤
      m.sharesAt stock side p + r.remaining.toNat := by
  have h := sharesAt_update m ref (some r) stock side p
  have hle : share stock side p (some r) ≤ r.remaining.toNat := share_le
  omega

/-- A level grows by no more than an event brings. -/
theorem sharesAt_step_le (m : Orders) (e : BookEvent) (stock : UInt16) (side : Side) (p : Price) :
    (m.step e).sharesAt stock side p ≤ m.sharesAt stock side p + brought e := by
  cases e with
  | add locate ts ref side' shares price mpid =>
    unfold step
    simp only
    cases sideOf side' with
    | none => exact Nat.le_add_right _ _
    | some s => exact sharesAt_some_le
  | execute locate ts ref shares => exact sharesAt_take_le
  | executePrice locate ts ref shares printable price => exact sharesAt_take_le
  | cancel locate ts ref shares => exact sharesAt_take_le
  | delete locate ts ref => exact sharesAt_none_le
  -- the old order goes, which takes shares away, and the new one comes with what the event brings
  | replace locate ts oldRef newRef shares price =>
    unfold step
    simp only
    cases m oldRef with
    | none => exact Nat.le_add_right _ _
    | some r => exact sharesAt_some_le.trans (Nat.add_le_add_right sharesAt_none_le _)
  | _ => exact le_rfl

/-- **A map with one order more** is narrow exactly when its level still is. -/
theorem narrow_some (hm : m.Narrow) (hfree : m ref = none) (r : Resting) :
    Narrow (Function.update m ref (some r)) ↔
      m.sharesAt r.symbol r.side r.price + r.remaining.toNat < 2 ^ 32 := by
  constructor
  · intro h
    have hat := h r.symbol r.side r.price
    rwa [sharesAt_some hfree, share, if_pos ⟨rfl, rfl, rfl⟩] at hat
  · intro h stock side p
    rw [sharesAt_some hfree, share]
    split
    · rename_i hat
      rwa [← hat.1, ← hat.2.1, ← hat.2.2]
    · exact hm stock side p

end Shares

end Orders

end Tickerplant
