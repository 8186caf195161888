import Mathlib.Algebra.BigOperators.Group.List.Basic
import Mathlib.Algebra.Ring.Nat
import Mathlib.Data.Nat.Notation

/-!
# Limit orders that meet

A venue keeps the orders that rest. An order that comes in trades with resting orders of the other
side whose prices its own reaches, takes from each no more than is left of it, and an order with
nothing left is gone. `Matched` is any sequence of such trades, in whatever order a venue takes
them: whose turn it is is not part of it. Price-time priority is one such order, and nothing below
depends on it.

What is part of it is what accounts rest on. A side loses the shares that traded and no others
(`Matched.shares`), what rests afterwards rested before (`Matched.mem`), an order that still rests
has shares left (`Matched.pos`), and an order that reaches nobody's price trades with nobody
(`Matched.nobody`). Each is an induction on the trades: the first one changes a single order, in
place, and the others are those of the list it leaves.
-/

set_option autoImplicit false

namespace Tickerplant.Lib

variable {I P : Type}

/-- An order that rests, with the shares of it that have not traded. -/
structure LimitOrder (I P : Type) where
  id : I
  isBuy : Bool
  price : P
  leaves : ℕ

/-- What rests of the order after `n` shares of it have traded. -/
def LimitOrder.less (o : LimitOrder I P) (n : ℕ) : List (LimitOrder I P) :=
  if n = o.leaves then [] else [{ o with leaves := o.leaves - n }]

/-- The shares that rest on a side. -/
def sharesOn (b : Bool) (os : List (LimitOrder I P)) : ℕ :=
  (os.map fun o => if o.isBuy = b then o.leaves else 0).sum

/-- The shares of some trades, each a maker and a number of shares. -/
def tradedShares (trades : List (I × ℕ)) : ℕ := (trades.map Prod.snd).sum

section Shares

variable (b : Bool) (o : LimitOrder I P) (os os' : List (LimitOrder I P))

@[simp] theorem sharesOn_nil : sharesOn b ([] : List (LimitOrder I P)) = 0 := rfl

@[simp] theorem sharesOn_cons :
    sharesOn b (o :: os) = (if o.isBuy = b then o.leaves else 0) + sharesOn b os := by
  simp [sharesOn]

@[simp] theorem sharesOn_append : sharesOn b (os ++ os') = sharesOn b os + sharesOn b os' := by
  simp [sharesOn]

@[simp] theorem tradedShares_nil : tradedShares ([] : List (I × ℕ)) = 0 := rfl

@[simp] theorem tradedShares_cons (t : I × ℕ) (ts : List (I × ℕ)) :
    tradedShares (t :: ts) = t.2 + tradedShares ts := by
  simp [tradedShares]

/-- An order loses what trades of it, on its own side. -/
theorem sharesOn_less {n : ℕ} (h : n ≤ o.leaves) :
    sharesOn b (o.less n) + (if o.isBuy = b then n else 0) =
      if o.isBuy = b then o.leaves else 0 := by
  unfold LimitOrder.less
  by_cases hall : n = o.leaves
  · rw [if_pos hall, hall, sharesOn_nil, Nat.zero_add]
  · rw [if_neg hall, sharesOn_cons, sharesOn_nil]
    dsimp only
    split <;> omega

/-- Orders that leave take shares with them. -/
theorem sharesOn_filter_le (p : LimitOrder I P → Bool) :
    sharesOn b (os.filter p) ≤ sharesOn b os := by
  induction os with
  | nil => exact Nat.le_refl 0
  | cons x os ih =>
    rw [List.filter_cons, sharesOn_cons]
    split
    · rw [sharesOn_cons]
      omega
    · omega

end Shares

/-- The order they are listed in does not matter. -/
theorem sharesOn_perm {b : Bool} {os os' : List (LimitOrder I P)} (h : os.Perm os') :
    sharesOn b os = sharesOn b os' :=
  (h.map _).sum_eq

/-- A side on which no shares rest has no orders, as long as every order has some. -/
theorem side_empty {b : Bool} {os : List (LimitOrder I P)} (hpos : ∀ o ∈ os, 0 < o.leaves)
    (hzero : sharesOn b os = 0) : ∀ o ∈ os, o.isBuy ≠ b := by
  induction os with
  | nil => exact fun o ho => absurd ho List.not_mem_nil
  | cons x os ih =>
    rw [sharesOn_cons] at hzero
    intro o ho
    rcases List.mem_cons.mp ho with rfl | ho
    · intro hside
      have hleaves := hpos o List.mem_cons_self
      rw [if_pos hside] at hzero
      omega
    · exact ih (fun o ho => hpos o (List.mem_cons_of_mem _ ho)) (by omega) o ho

/-- What is left of an order among the others, with its number, side and price. -/
theorem mem_less {before after : List (LimitOrder I P)} {o x : LimitOrder I P} {n : ℕ}
    (hx : x ∈ before ++ o.less n ++ after) :
    ∃ y ∈ before ++ o :: after, y.id = x.id ∧ y.isBuy = x.isBuy ∧ y.price = x.price := by
  rcases List.mem_append.mp hx with hx | hx
  · rcases List.mem_append.mp hx with hx | hx
    · exact ⟨x, List.mem_append_left _ hx, rfl, rfl, rfl⟩
    · refine ⟨o, List.mem_append_right _ List.mem_cons_self, ?_⟩
      unfold LimitOrder.less at hx
      split at hx
      · exact absurd hx List.not_mem_nil
      · obtain rfl := List.mem_singleton.mp hx
        exact ⟨rfl, rfl, rfl⟩
  · exact ⟨x, List.mem_append_right _ (List.mem_cons_of_mem _ hx), rfl, rfl, rfl⟩

/-! ## Trades -/

section Matched

variable [LE P]

/-- An order of this side and price reaches the one that rests. -/
def Crosses (isBuy : Bool) (price : P) (o : LimitOrder I P) : Prop :=
  o.isBuy = !isBuy ∧ if isBuy then o.price ≤ price else price ≤ o.price

/-- What the trades of an order that comes in do to those that rest. -/
inductive Matched (isBuy : Bool) (price : P) :
    List (LimitOrder I P) → List (I × ℕ) → List (LimitOrder I P) → Prop
  | done (os : List (LimitOrder I P)) : Matched isBuy price os [] os
  | trade {before after os' : List (LimitOrder I P)} {o : LimitOrder I P} {n : ℕ}
      {trades : List (I × ℕ)} : Crosses isBuy price o → 0 < n → n ≤ o.leaves →
      Matched isBuy price (before ++ o.less n ++ after) trades os' →
      Matched isBuy price (before ++ o :: after) ((o.id, n) :: trades) os'

variable {isBuy : Bool} {price : P} {os os' : List (LimitOrder I P)} {trades : List (I × ℕ)}

/-- Only the other side loses shares, and those that traded. -/
theorem Matched.shares (h : Matched isBuy price os trades os') (b : Bool) :
    sharesOn b os = sharesOn b os' + if b = !isBuy then tradedShares trades else 0 := by
  induction h with
  | done => simp
  | @trade before after os' o n trades hcross _ hle _ ih =>
    have hless := sharesOn_less b o hle
    simp only [sharesOn_append, sharesOn_cons, tradedShares_cons] at ih ⊢
    rw [hcross.1] at hless ⊢
    by_cases hside : b = !isBuy
    · rw [if_pos hside.symm] at hless ⊢
      rw [if_pos hside] at ih ⊢
      rw [if_pos hside.symm] at hless
      omega
    · rw [if_neg fun h => hside h.symm] at hless ⊢
      rw [if_neg hside] at ih ⊢
      rw [if_neg fun h => hside h.symm] at hless
      omega

/-- What rests afterwards rested before, with the same number, side and price. -/
theorem Matched.mem (h : Matched isBuy price os trades os') : ∀ x ∈ os',
    ∃ y ∈ os, y.id = x.id ∧ y.isBuy = x.isBuy ∧ y.price = x.price := by
  induction h with
  | done => exact fun x hx => ⟨x, hx, rfl, rfl, rfl⟩
  | trade _ _ _ _ ih =>
    intro x hx
    obtain ⟨y, hy, hid, hside, hprice⟩ := ih x hx
    obtain ⟨z, hz, hid', hside', hprice'⟩ := mem_less hy
    exact ⟨z, hz, hid'.trans hid, hside'.trans hside, hprice'.trans hprice⟩

/-- An order that rests afterwards has shares left. -/
theorem Matched.pos (h : Matched isBuy price os trades os') (hpos : ∀ o ∈ os, 0 < o.leaves) :
    ∀ o ∈ os', 0 < o.leaves := by
  induction h with
  | done => exact hpos
  | @trade before after os' o n trades _ _ hle _ ih =>
    apply ih
    intro x hx
    rcases List.mem_append.mp hx with hx | hx
    · rcases List.mem_append.mp hx with hx | hx
      · exact hpos x (List.mem_append_left _ hx)
      · unfold LimitOrder.less at hx
        split at hx
        case isTrue => exact absurd hx List.not_mem_nil
        case isFalse hne =>
          obtain rfl := List.mem_singleton.mp hx
          exact Nat.sub_pos_of_lt (Nat.lt_of_le_of_ne hle hne)
    · exact hpos x (List.mem_append_right _ (List.mem_cons_of_mem _ hx))

/-- Every maker rested, and was reached. -/
theorem Matched.maker (h : Matched isBuy price os trades os') : ∀ t ∈ trades,
    ∃ o ∈ os, o.id = t.1 ∧ Crosses isBuy price o := by
  induction h with
  | done => exact fun t ht => absurd ht List.not_mem_nil
  | @trade before after os' o n trades hcross _ _ _ ih =>
    intro t ht
    rcases List.mem_cons.mp ht with rfl | ht
    · exact ⟨o, List.mem_append_right _ List.mem_cons_self, rfl, hcross⟩
    · obtain ⟨x, hx, hid, hreached⟩ := ih t ht
      obtain ⟨y, hy, hid', hside, hprice⟩ := mem_less hx
      exact ⟨y, hy, hid'.trans hid, by rw [Crosses, hside, hprice]; exact hreached⟩

/-- An order that reaches nobody trades with nobody. -/
theorem Matched.nobody (h : Matched isBuy price os trades os')
    (hnone : ∀ o ∈ os, ¬Crosses isBuy price o) : trades = [] ∧ os' = os := by
  cases h with
  | done => exact ⟨rfl, rfl⟩
  | trade hcross =>
    exact absurd hcross (hnone _ (List.mem_append_right _ List.mem_cons_self))

end Matched

end Tickerplant.Lib
