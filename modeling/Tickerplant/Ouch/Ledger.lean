import Mathlib.Tactic.Ring
import Tickerplant.Ouch.OrderState

/-!
# Where an order's shares go

Beside the order stands a ledger of what the events say: the shares that left without trading, and
the fills with their prices. As long as nothing is overfilled, nothing accepted below what is
filled and no counter wraps, the order's counters are exactly the ledger's: what is left, what is
filled and what was removed make up the order, and the notional is the sum over the fills.

The ledger is not in the code. It takes its entries from the events and not from the counters, so
that agreeing with it says something; only the shares of a reject are read off the order, since the
message does not carry them.

`Plain` is what the books need of an event. An overfill is counted and not booked, an acceptance
below what is filled leaves fewer shares than the fills, and a counter that wraps is no sum. None
of these is asked of the state, so that a run is looked at one event at a time. The notional needs
nothing: a product of two 32-bit numbers summed over fewer than `2 ^ 32` shares stays below `2 ^
64` (`notionalOf_lt`).
-/

set_option autoImplicit false

namespace Tickerplant
namespace Ouch

open Trace ClientOrderState

/-- A fill: its shares and its price. -/
abbrev Fill := UInt32 × UInt32

/-- The shares of the fills. -/
def sharesOf (fills : List Fill) : ℕ := (fills.map fun f => f.1.toNat).sum

/-- What they cost. -/
def notionalOf (fills : List Fill) : ℕ := (fills.map fun f => f.1.toNat * f.2.toNat).sum

theorem sharesOf_cons (f : Fill) (fills : List Fill) :
    sharesOf (f :: fills) = f.1.toNat + sharesOf fills := List.sum_cons

theorem notionalOf_cons (f : Fill) (fills : List Fill) :
    notionalOf (f :: fills) = f.1.toNat * f.2.toNat + notionalOf fills := List.sum_cons

/-- Fills at no more than `hi` cost no more than that a share. -/
theorem notionalOf_le {fills : List Fill} {hi : ℕ} (h : ∀ f ∈ fills, f.2.toNat ≤ hi) :
    notionalOf fills ≤ sharesOf fills * hi := by
  induction fills with
  | nil => exact Nat.zero_le _
  | cons f rest ih =>
    have hhead := Nat.mul_le_mul_left f.1.toNat (h f List.mem_cons_self)
    have hrest := ih fun g hg => h g (List.mem_cons_of_mem f hg)
    rw [notionalOf_cons, sharesOf_cons, Nat.add_mul]
    exact Nat.add_le_add hhead hrest

/-- Fills at no less than `lo` cost no less. -/
theorem le_notionalOf {fills : List Fill} {lo : ℕ} (h : ∀ f ∈ fills, lo ≤ f.2.toNat) :
    sharesOf fills * lo ≤ notionalOf fills := by
  induction fills with
  | nil => exact Nat.le_of_eq (Nat.zero_mul lo)
  | cons f rest ih =>
    have hhead := Nat.mul_le_mul_left f.1.toNat (h f List.mem_cons_self)
    have hrest := ih fun g hg => h g (List.mem_cons_of_mem f hg)
    rw [notionalOf_cons, sharesOf_cons, Nat.add_mul]
    exact Nat.add_le_add hhead hrest

/-! ## The order and its ledger -/

/-- An order and its ledger. -/
structure Booked where
  order : ClientOrderState
  /-- Shares that left by a cancel, a dead acknowledgement or a reject, since the order was last
  sent, accepted or replaced. -/
  removed : ℕ := 0
  /-- The fills since the order was last sent, the latest first. -/
  fills : List Fill := []

namespace Booked

/-- An event goes to both. -/
def step (b : Booked) (e : OrderEvent) : Booked where
  order := b.order.step e
  removed := match e with
    | .sent .. => 0
    | .accepted shares _ _ dead _ =>
      if dead then shares.toNat - b.order.filledShares.toNat else 0
    | .replaced _ shares _ _ dead _ => if dead then shares.toNat else 0
    | .canceled decrement _ => b.removed + decrement.toNat
    | .rejected _ => b.removed + b.order.leavesShares.toNat
    | .fill .. | .cancelSent _ | .replaceSent _ => b.removed
  fills := match e with
    | .sent .. => []
    | .fill shares px _ => (shares, px) :: b.fills
    | _ => b.fills

end Booked

/-- The event is no overfill, accepts no fewer shares than are filled, and wraps no counter. -/
def Plain (o : ClientOrderState) (e : OrderEvent) : Prop :=
  (o.step e).overfills = o.overfills ∧
    match e with
    | .accepted shares _ _ _ _ => o.filledShares ≤ shares
    | .replaced _ shares _ _ _ _ => shares.toNat + o.filledShares.toNat < 2 ^ 32
    | .fill shares _ _ => o.filledShares.toNat + shares.toNat < 2 ^ 32
    | _ => True

instance (o : ClientOrderState) : DecidablePred (Plain o)
  | .accepted shares _ _ _ _ => inferInstanceAs (Decidable (_ ∧ o.filledShares ≤ shares))
  | .replaced _ shares _ _ _ _ =>
    inferInstanceAs (Decidable (_ ∧ shares.toNat + o.filledShares.toNat < 2 ^ 32))
  | .fill shares _ _ =>
    inferInstanceAs (Decidable (_ ∧ o.filledShares.toNat + shares.toNat < 2 ^ 32))
  | .sent .. | .cancelSent _ | .replaceSent _ | .canceled .. | .rejected _ =>
    inferInstanceAs (Decidable (_ ∧ True))

/-- **The books balance.** -/
structure Conserved (b : Booked) : Prop where
  /-- A share of the order works, is filled, or was removed. -/
  shares : b.order.leavesShares.toNat + b.order.filledShares.toNat + b.removed =
    b.order.originalShares.toNat
  /-- What is filled is what the fills say. -/
  filled : b.order.filledShares.toNat = sharesOf b.fills
  /-- What it cost is what they say. -/
  notional : b.order.filledNotional.toNat = notionalOf b.fills

/-- The average price lies between any bounds on the prices of the fills. -/
def Averaged (b : Booked) : Prop :=
  b.order.filledShares ≠ 0 → ∀ lo hi : UInt32, (∀ f ∈ b.fills, lo ≤ f.2 ∧ f.2 ≤ hi) →
    lo ≤ b.order.averagePrice ∧ b.order.averagePrice ≤ hi

/-- The notional of any fills of fewer than `2 ^ 32` shares fits its counter. -/
theorem notionalOf_lt {fills : List Fill} (h : sharesOf fills < 2 ^ 32) :
    notionalOf fills < 2 ^ 64 := by
  have hle : notionalOf fills ≤ sharesOf fills * (2 ^ 32 - 1) :=
    notionalOf_le fun f _ => Nat.le_sub_one_of_lt f.2.toNat_lt
  have hshares := Nat.mul_le_mul_right (2 ^ 32 - 1) (Nat.le_sub_one_of_lt h)
  omega

/-- A quotient of two sums lies where their terms do. -/
theorem Conserved.averaged {b : Booked} (hb : Conserved b) : Averaged b := by
  intro hfilled lo hi hbounds
  have hpos : 0 < b.order.filledShares.toNat :=
    Nat.pos_of_ne_zero fun h => hfilled (UInt32.toNat_inj.mp h)
  have hlo := le_notionalOf fun f hf => UInt32.le_iff_toNat_le.mp (hbounds f hf).1
  have hhi := notionalOf_le fun f hf => UInt32.le_iff_toNat_le.mp (hbounds f hf).2
  rw [← hb.filled, ← hb.notional] at hlo hhi
  have hle : lo.toNat ≤ b.order.filledNotional.toNat / b.order.filledShares.toNat :=
    (Nat.le_div_iff_mul_le hpos).mpr (Nat.mul_comm _ _ ▸ hlo)
  have hge : b.order.filledNotional.toNat / b.order.filledShares.toNat ≤ hi.toNat :=
    Nat.div_le_of_le_mul hhi
  -- the cast to 32 bits loses nothing, as the average is at most a price
  have havg : b.order.averagePrice.toNat =
      b.order.filledNotional.toNat / b.order.filledShares.toNat := by
    rw [averagePrice, if_neg hfilled, UInt64.toNat_toUInt32, UInt64.toNat_div,
      UInt32.toNat_toUInt64]
    exact Nat.mod_eq_of_lt (Nat.lt_of_le_of_lt hge hi.toNat_lt)
  rw [UInt32.le_iff_toNat_le, UInt32.le_iff_toNat_le, havg]
  exact ⟨hle, hge⟩

/-- **One event** keeps the books. -/
theorem step_conserved {b : Booked} {e : OrderEvent} (hb : Conserved b)
    (he : Plain b.order e) : Conserved (b.step e) := by
  obtain ⟨hover, hplain⟩ := he
  obtain ⟨hshares, hfilled, hnotional⟩ := hb
  -- the handlers are seen through what they do to each counter
  have hleaves := step_leavesShares b.order e
  have hfills := step_filledShares b.order e
  have hsum := step_filledNotional b.order e
  have horiginal := step_originalShares b.order e
  rw [step_overfills] at hover
  cases e with
  | sent t loc sd shares px ts => exact ⟨rfl, rfl, rfl⟩
  | accepted shares px ref dead ts =>
    refine ⟨?_, hfills ▸ hfilled, hsum ▸ hnotional⟩
    have hle := UInt32.le_iff_toNat_le.mp hplain
    simp only [Booked.step, hleaves, hfills, horiginal]
    cases dead
    · simp
      omega
    · simp
      omega
  | replaced t shares px ref dead ts =>
    refine ⟨?_, hfills ▸ hfilled, hsum ▸ hnotional⟩
    -- the order is for the replacement's shares and those already filled
    have hadd : (shares + b.order.filledShares).toNat =
        shares.toNat + b.order.filledShares.toNat :=
      (UInt32.toNat_add _ _).trans (Nat.mod_eq_of_lt hplain)
    simp only [Booked.step, hleaves, hfills, horiginal, hadd]
    cases dead
    · simp
    · simp
      omega
  | fill shares px ts =>
    have hle := UInt32.le_iff_toNat_le.mp hover
    have hadd : (b.order.filledShares + shares).toNat =
        b.order.filledShares.toNat + shares.toNat :=
      (UInt32.toNat_add _ _).trans (Nat.mod_eq_of_lt hplain)
    have hfilled' : (b.order.filledShares + shares).toNat =
        sharesOf ((shares, px) :: b.fills) := by
      rw [hadd, sharesOf_cons, ← hfilled, Nat.add_comm]
    refine ⟨?_, ?_, ?_⟩
    · simp only [Booked.step, hleaves, hfills, horiginal, hadd]
      omega
    · simp only [Booked.step, hfills, hfilled']
    · -- fewer than `2 ^ 32` shares are filled, so neither the product nor the sum wraps
      have hfits : notionalOf ((shares, px) :: b.fills) < 2 ^ 64 :=
        notionalOf_lt (hfilled' ▸ (b.order.filledShares + shares).toNat_lt)
      rw [notionalOf_cons, ← hnotional] at hfits
      simp only [Booked.step, hsum, notionalOf_cons, ← hnotional]
      rw [UInt64.toNat_add, UInt64.toNat_mul, UInt32.toNat_toUInt64, UInt32.toNat_toUInt64,
        Nat.add_mod_mod, Nat.add_comm, Nat.mod_eq_of_lt hfits]
  | cancelSent ts =>
    refine ⟨?_, hfills ▸ hfilled, hsum ▸ hnotional⟩
    simp only [Booked.step, hleaves, hfills, horiginal, hshares]
  | replaceSent ts =>
    refine ⟨?_, hfills ▸ hfilled, hsum ▸ hnotional⟩
    simp only [Booked.step, hleaves, hfills, horiginal, hshares]
  | canceled decrement ts =>
    refine ⟨?_, hfills ▸ hfilled, hsum ▸ hnotional⟩
    have hle := UInt32.le_iff_toNat_le.mp hover
    simp only [Booked.step, hleaves, hfills, horiginal]
    omega
  | rejected ts =>
    refine ⟨?_, hfills ▸ hfilled, hsum ▸ hnotional⟩
    simp only [Booked.step, hleaves, hfills, horiginal]
    omega

/-- **Whole runs.** From the moment an order is sent, and after every event, its shares are
accounted for and its average price lies among the prices of its fills. -/
theorem shares_conserved (o : ClientOrderState) (t : Token) (loc : UInt16) (sd : UInt8)
    (shares px : UInt32) (ts : UInt64) (events : List OrderEvent)
    (hplain : Along step Plain (o.onSent t loc sd shares px ts).1 events) :
    Always Booked.step (fun b => Conserved b ∧ Averaged b)
      { order := (o.onSent t loc sd shares px ts).1 } events := by
  have hsent : Conserved { order := (o.onSent t loc sd shares px ts).1 } := ⟨rfl, rfl, rfl⟩
  have hstep : ∀ (b : Booked) (e : OrderEvent), Conserved b ∧ Averaged b → Plain b.order e →
      Conserved (b.step e) ∧ Averaged (b.step e) := fun b e hb he =>
    have h := step_conserved hb.1 he
    ⟨h, h.averaged⟩
  exact always_of_along hstep events _ ⟨hsent, hsent.averaged⟩
    (Along.of_view Booked.order (fun _ _ => rfl) hplain)

/-- An order filled in part, replaced while a fill crosses, and canceled in two parts. -/
def replacedAndCanceled : List OrderEvent :=
  [.accepted 100 10 1 false 1, .fill 30 10 2, .replaceSent 3, .fill 20 12 4,
   .replaced (Lib.alpha kTokenLen []) 80 13 2 false 5, .cancelSent 6, .canceled 60 7,
   .canceled 20 8]

theorem shares_conserved_replacedAndCanceled :
    let sent := (({} : ClientOrderState).onSent (Lib.alpha kTokenLen []) 1 66 100 10 0).1
    let last := after Booked.step { order := sent } replacedAndCanceled
    Always Booked.step (fun b => Conserved b ∧ Averaged b) { order := sent }
        replacedAndCanceled ∧
      last.removed = 80 ∧ last.order.filledShares = 50 ∧ last.order.averagePrice = 10 :=
  ⟨shares_conserved {} _ 1 66 100 10 0 replacedAndCanceled (by decide), by decide⟩

end Ouch
end Tickerplant
