import Tickerplant.Book.Builder
import Tickerplant.Lib.Word

/-!
# The size weighted midpoint (`include/tick/book_builder.hpp`)

`micro_price` weighs each price with the size of the other side, in unsigned 64-bit arithmetic. A
product of two feed fields fits that, but the sum of two products may not. As long as it does, the
result is the exact mean rounded down, which lies inside the market; past it the sum has lost `2 ^
64` and the mean with it (`microPrice_inside_iff`).

What is computed is always the wrapped sum over the true total (`microPrice_eq`), as the total of
two 32-bit sizes cannot wrap. So the micro price is the exact one if and only if the two sums have
the same quotient. A sum that wrapped lost at least `2 ^ 64`, and the total is below `2 ^ 33`, so
the quotient drops by more than `2 ^ 30` and cannot be the same by accident.
-/

set_option autoImplicit false

namespace Tickerplant

open Lib

namespace TopOfBook

/-- The sides weighted by each other's size. -/
def weighted (t : TopOfBook) : ℤ :=
  t.bidPrice * t.askQty.toNat + t.askPrice * t.bidQty.toNat

/-- The size weighted midpoint, rounded down. -/
def exactMicro (t : TopOfBook) : ℤ := t.weighted / (t.bidQty.toNat + t.askQty.toNat)

variable {t : TopOfBook}

/-- Each side has a share at least. -/
theorem two_le_total (h : t.twoSided = true) : 2 ≤ t.bidQty.toNat + t.askQty.toNat := by
  rw [twoSided, Bool.and_eq_true, hasBid, hasAsk, decide_eq_true_iff, decide_eq_true_iff,
    UInt32.lt_iff_toNat_lt, UInt32.lt_iff_toNat_lt] at h
  have hbid : 0 < t.bidQty.toNat := h.1
  have hask : 0 < t.askQty.toNat := h.2
  omega

/-- What is computed divides the weighted sum as it is after its wrap. -/
theorem microPrice_eq (h : t.twoSided = true) :
    t.microPrice = t.weighted % 2 ^ 64 / (t.bidQty.toNat + t.askQty.toNat) := by
  have htwo := two_le_total h
  have hbid := t.bidQty.toNat_lt
  have hask := t.askQty.toNat_lt
  have htotal : (t.bidQty.toUInt64 + t.askQty.toUInt64).toNat =
      t.bidQty.toNat + t.askQty.toNat := by
    rw [UInt64.toNat_add, UInt32.toNat_toUInt64, UInt32.toNat_toUInt64, Nat.mod_eq_of_lt (by omega)]
  have hne : t.bidQty.toUInt64 + t.askQty.toUInt64 ≠ 0 := by
    intro hzero
    rw [hzero, UInt64.toNat_zero] at htotal
    omega
  -- a negative price wraps, its product wraps with it, and modulo `2 ^ 64` none of it matters
  have hsum : UInt64.ofInt t.bidPrice * t.askQty.toUInt64 +
      UInt64.ofInt t.askPrice * t.bidQty.toUInt64 = UInt64.ofInt t.weighted := by
    rw [ofInt_mul_toUInt64, ofInt_mul_toUInt64, ← UInt64.ofInt_add]
    rfl
  have hquotient : (UInt64.ofInt t.weighted / (t.bidQty.toUInt64 + t.askQty.toUInt64)).toNat =
      (UInt64.ofInt t.weighted).toNat / (t.bidQty.toNat + t.askQty.toNat) := by
    rw [UInt64.toNat_div, htotal]
  -- the quotient by two or more is below `2 ^ 63`, so that casting it to a signed price changes
  -- nothing
  have hsmall : (UInt64.ofInt t.weighted).toNat / (t.bidQty.toNat + t.askQty.toNat) < 2 ^ 63 := by
    have := (UInt64.ofInt t.weighted).toNat_lt
    rw [Nat.div_lt_iff_lt_mul (by omega)]
    omega
  rw [microPrice, if_pos h]
  simp only [if_neg hne, hsum]
  rw [toInt_toInt64 (by rw [hquotient]; exact hsmall), hquotient, ← toNat_ofInt]
  exact Int.natCast_div _ _

/-- A sum that is not negative is divided exactly if and only if it does not wrap. -/
theorem microPrice_exact_iff_lt (h : t.twoSided = true) (hpos : 0 ≤ t.weighted) :
    t.microPrice = t.exactMicro ↔ t.weighted < 2 ^ 64 := by
  have htwo := two_le_total h
  have hbid := t.bidQty.toNat_lt
  have hask := t.askQty.toNat_lt
  rw [microPrice_eq h, exactMicro]
  generalize t.weighted = w at hpos ⊢
  have htotal : (2 : ℤ) ≤ t.bidQty.toNat + t.askQty.toNat := by omega
  have hbound : (t.bidQty.toNat : ℤ) + t.askQty.toNat < 2 ^ 33 := by omega
  generalize (t.bidQty.toNat : ℤ) + t.askQty.toNat = total at htotal hbound ⊢
  constructor
  · intro heq
    have heq : w % 2 ^ 64 / total = w / total := heq
    by_contra hge
    -- a turn lost is more than the shares, so more than one price
    have hturn : w % 2 ^ 64 + total ≤ w := by omega
    have hle := Int.ediv_le_ediv (by omega : (0 : ℤ) < total) hturn
    rw [Int.add_ediv_of_dvd_right (Int.dvd_refl total), Int.ediv_self (by omega)] at hle
    omega
  · intro hhi
    rw [Int.emod_eq_of_lt hpos hhi]

/-- The micro price is the exact one exactly when the weighted sum does not wrap, as far as a
price above nothing goes. -/
theorem microPrice_exact_iff (h : t.twoSided = true) (hpos : 0 < t.microPrice) :
    t.microPrice = t.exactMicro ↔ 0 ≤ t.weighted ∧ t.weighted < 2 ^ 64 := by
  constructor
  · intro heq
    -- a negative sum would have a negative mean, and the price is above zero
    have hnonneg : 0 ≤ t.weighted := by
      by_contra hneg
      have htotal : (0 : ℤ) < t.bidQty.toNat + t.askQty.toNat := by
        have := two_le_total h
        omega
      have hbelow : t.exactMicro < 0 :=
        Int.ediv_neg_of_neg_of_pos (Int.not_le.mp hneg) htotal
      have habove : (0 : ℤ) < t.exactMicro := heq ▸ hpos
      omega
    exact ⟨hnonneg, (microPrice_exact_iff_lt h hnonneg).mp heq⟩
  · rintro ⟨hlo, hhi⟩
    exact (microPrice_exact_iff_lt h hlo).mpr hhi

/-! ## Inside the market -/

/-- Prices of the feed, which are 32-bit and unsigned there. -/
structure FeedPriced (t : TopOfBook) : Prop where
  /-- What a bid's field can hold. -/
  bid : 0 ≤ t.bidPrice ∧ t.bidPrice < 2 ^ 32
  /-- What an ask's field can hold. -/
  ask : 0 ≤ t.askPrice ∧ t.askPrice < 2 ^ 32

/-- Such prices have no negative sum. -/
theorem FeedPriced.weighted_nonneg (h : t.FeedPriced) : 0 ≤ t.weighted :=
  Int.add_nonneg (Int.mul_nonneg h.bid.1 (Int.natCast_nonneg _))
    (Int.mul_nonneg h.ask.1 (Int.natCast_nonneg _))

/-- The exact mean of two prices lies between them. -/
theorem exactMicro_bounds (h : t.twoSided = true) :
    min t.bidPrice t.askPrice ≤ t.exactMicro ∧ t.exactMicro ≤ max t.bidPrice t.askPrice := by
  have htwo := two_le_total h
  have htotal : (0 : ℤ) < t.bidQty.toNat + t.askQty.toNat := by omega
  -- each bound times the total is at most, or at least, the weighted sum, term by term
  rw [exactMicro, weighted]
  constructor
  · rw [Int.le_ediv_iff_mul_le htotal, Int.mul_add, Int.add_comm]
    exact Int.add_le_add
      (Int.mul_le_mul_of_nonneg_right (Int.min_le_left _ _) (Int.natCast_nonneg _))
      (Int.mul_le_mul_of_nonneg_right (Int.min_le_right _ _) (Int.natCast_nonneg _))
  · refine Int.ediv_le_of_le_mul htotal ?_
    rw [Int.mul_add, Int.add_comm (_ * _) (_ * (t.askQty.toNat : ℤ))]
    exact Int.add_le_add
      (Int.mul_le_mul_of_nonneg_right (Int.le_max_left _ _) (Int.natCast_nonneg _))
      (Int.mul_le_mul_of_nonneg_right (Int.le_max_right _ _) (Int.natCast_nonneg _))

/-- **The micro price is the exact mean, rounded down and inside the market, exactly when the
weighted sum fits 64 bits**: for any prices of the feed and any sizes on both sides. -/
theorem microPrice_inside_iff (h : t.twoSided = true) (hfeed : t.FeedPriced) :
    (t.microPrice = t.exactMicro ∧
        min t.bidPrice t.askPrice ≤ t.microPrice ∧ t.microPrice ≤ max t.bidPrice t.askPrice) ↔
      t.weighted < 2 ^ 64 := by
  have hiff := microPrice_exact_iff_lt h hfeed.weighted_nonneg
  constructor
  · rintro ⟨hexact, -, -⟩
    exact hiff.mp hexact
  · intro hfits
    have hexact := hiff.mpr hfits
    rw [hexact]
    exact ⟨rfl, exactMicro_bounds h⟩

/-- A hundred dollars, three times as much bid as offered. -/
theorem microPrice_inside_iff_hundredDollars :
    let t : TopOfBook := ⟨1000000, 300, 1, 1000300, 100, 1⟩
    t.microPrice = t.exactMicro ∧
      min t.bidPrice t.askPrice ≤ t.microPrice ∧ t.microPrice ≤ max t.bidPrice t.askPrice :=
  (microPrice_inside_iff (by decide) ⟨by decide, by decide⟩).mpr (by decide)

/-- **The highest price and the largest sizes of the feed**: the sum wraps, and the micro price is
half of what both prices are. -/
theorem not_microPrice_inside_largest :
    let t : TopOfBook := ⟨4294967295, 4294967295, 1, 4294967295, 4294967295, 1⟩
    t.twoSided = true ∧ t.FeedPriced ∧ t.microPrice = 2147483646 ∧
      t.exactMicro = 4294967295 ∧ ¬ min t.bidPrice t.askPrice ≤ t.microPrice := by
  refine ⟨by decide, ⟨by decide, by decide⟩, by decide, by decide, by decide⟩

end TopOfBook
end Tickerplant
