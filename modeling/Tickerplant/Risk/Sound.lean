import Tickerplant.Risk.Engine
import Tickerplant.Book.MicroPrice

/-!
# The check in exact arithmetic (`include/tick/risk.hpp`)

The check compares 64-bit numbers: products of a price and shares, a difference times ten thousand,
sums of positions. Here the same comparisons are written over the integers, and the two are
compared for an order that passes. They agree exactly when no number in them has wrapped in a way
that matters (`sound_iff`), and prices are wide enough for that to happen.

A price is a signed 64-bit number, and the feed never sends one of more than 32 bits; the engine
does not look. So each comparison has its own condition here, on the request and on the state of
the engine, and each is shown to be what that comparison needs: an unsigned product that is below
the limit is the exact one if and only if the exact one fits, since the limit fits itself.

The distance from the micro price is different. Both sides of that comparison are products, and
both may wrap, so what is asked is that they wrap equally often.
-/

set_option autoImplicit false

namespace Tickerplant

open Lib

namespace RiskEngine

/-! ## The numbers compared -/

section Numbers

variable (e : RiskEngine) (r : OrderRequest)

/-- The limit on a position. -/
def limit : ℤ := e.limits.maxPositionShares.toInt

/-- The shares held of a symbol. -/
def position (loc : UInt16) : ℤ := (e.symbols loc).position.toInt

/-- What the order is worth. -/
def exactNotional : ℤ := r.price * r.shares.toNat

/-- The shares held if every buy were filled, this order too if it is one. -/
def exactLong : ℤ :=
  e.position r.locate + (e.symbols r.locate).workingBuyShares.toInt +
    if r.isBuy then (r.shares.toNat : ℤ) else 0

/-- The shares held if every sell were filled, this order too if it is one. -/
def exactShort : ℤ :=
  e.position r.locate - (e.symbols r.locate).workingSellShares.toInt -
    if r.isBuy then 0 else (r.shares.toNat : ℤ)

/-- The larger of the two, whichever way. -/
def exactWorst : ℤ := max |e.exactLong r| |e.exactShort r|

end Numbers

variable {e : RiskEngine} {r : OrderRequest}

/-- The code's product is this one, modulo its wrap. -/
theorem notional_eq : notional r = UInt64.ofInt (exactNotional r) := by
  rw [notional, UInt64.mul_comm, ofInt_mul_toUInt64, exactNotional]

/-- A share count is not negative, whatever its type. -/
theorem signed_eq (n : UInt32) : signed n = Int64.ofInt n.toNat := Int64.ofInt_eq_ofNat.symm

/-- Modulo their wrap, the worst positions are sums, whatever names the total of the working
shares. -/
theorem worstLong_eq {working : ℤ}
    (hworking : (e.symbols r.locate).workingBuyShares = Int64.ofInt working) :
    e.worstLong r = Int64.ofInt
      (e.position r.locate + working + if r.isBuy then (r.shares.toNat : ℤ) else 0) := by
  rw [worstLong, position, hworking, Int64.ofInt_add, Int64.ofInt_add, Int64.ofInt_toInt]
  split
  · rw [signed_eq]
  · rfl

/-- The same of the other side. -/
theorem worstShort_eq {working : ℤ}
    (hworking : (e.symbols r.locate).workingSellShares = Int64.ofInt working) :
    e.worstShort r = Int64.ofInt
      (e.position r.locate - working - if r.isBuy then 0 else (r.shares.toNat : ℤ)) := by
  rw [worstShort, position, hworking, Int64.ofInt_sub, Int64.ofInt_sub, Int64.ofInt_toInt]
  split
  · rfl
  · rw [signed_eq]

/-- All but one signed number have an absolute value. -/
theorem toInt_abs64 {v : Int64} (h : v.toInt ≠ -2 ^ 63) : (abs64 v).toInt = |v.toInt| := by
  rw [abs64]
  split
  case isTrue hneg =>
    rw [toInt_neg_of_ne h, abs_of_neg (Int64.lt_iff_toInt_lt.mp hneg)]
  case isFalse hneg =>
    rw [abs_of_nonneg (Int.not_lt.mp fun hlt => hneg (Int64.lt_iff_toInt_lt.mpr hlt))]

/-- The larger of the two worst positions, when neither is the one number with no absolute
value. -/
theorem toNat_worstShares (hlong : (e.worstLong r).toInt ≠ -2 ^ 63)
    (hshort : (e.worstShort r).toInt ≠ -2 ^ 63) :
    ((e.worstShares r).toNat : ℤ) = max |(e.worstLong r).toInt| |(e.worstShort r).toInt| := by
  rw [worstShares, ← toInt_abs64 hlong, ← toInt_abs64 hshort]
  have hlong' : 0 ≤ (abs64 (e.worstLong r)).toInt := toInt_abs64 hlong ▸ abs_nonneg _
  have hshort' : 0 ≤ (abs64 (e.worstShort r)).toInt := toInt_abs64 hshort ▸ abs_nonneg _
  split
  case isTrue hlt =>
    rw [toNat_toUInt64_of_nonneg hlong', max_eq_left (Int64.lt_iff_toInt_lt.mp hlt).le]
  case isFalse hlt =>
    rw [toNat_toUInt64_of_nonneg hshort', max_eq_right]
    exact Int.not_lt.mp fun h => hlt (Int64.lt_iff_toInt_lt.mpr h)

/-- With the long position at that number, the other one is taken. -/
theorem toNat_worstShares_of_min (hlong : (e.worstLong r).toInt = -2 ^ 63)
    (hshort : (e.worstShort r).toInt ≠ -2 ^ 63) :
    ((e.worstShares r).toNat : ℤ) = |(e.worstShort r).toInt| := by
  have hmin : e.worstLong r = Int64.minValue := Int64.toInt_inj.mp hlong
  have hshort' : 0 ≤ (abs64 (e.worstShort r)).toInt := toInt_abs64 hshort ▸ abs_nonneg _
  rw [worstShares, hmin, if_neg, toNat_toUInt64_of_nonneg hshort', toInt_abs64 hshort]
  rw [Int64.lt_iff_toInt_lt]
  exact fun hlt => absurd (Int.lt_of_le_of_lt hshort' hlt) (by decide)

/-! ## Soundness -/

/-- The limits hold in exact arithmetic, of numbers that have not wrapped. -/
structure Sound (e : RiskEngine) (r : OrderRequest) : Prop where
  money : exactNotional r ≤ e.limits.maxOrderNotional.toNat
  /-- The micro price itself has not wrapped. -/
  micro : r.book.microPrice = r.book.exactMicro
  near : |r.price - r.book.exactMicro| * 10000 ≤
    r.book.exactMicro * e.limits.fatFingerBps.toNat
  /-- The worst positions the engine compares are the true ones. -/
  longExact : (e.worstLong r).toInt = e.exactLong r
  shortExact : (e.worstShort r).toInt = e.exactShort r
  long : e.exactLong r ≤ e.limit
  short : -e.limit ≤ e.exactShort r
  /-- And so is the larger of them. -/
  worstExact : ((e.worstShares r).toNat : ℤ) = e.exactWorst r
  symbolMoney : r.price * e.exactWorst r ≤ e.limits.maxSymbolNotional.toNat

/-- Nothing wraps that would matter: the products with the price fit, the weighted sum of the
micro price fits, the distance from it times ten thousand wraps no more often than what it is
compared with, and the positions and the limit are not at the end of their range. -/
structure Harmless (e : RiskEngine) (r : OrderRequest) : Prop where
  money : exactNotional r < 2 ^ 64
  weighted : 0 ≤ r.book.weighted ∧ r.book.weighted < 2 ^ 64
  near : |r.price - r.book.exactMicro| * 10000 / 2 ^ 64 ≤
    r.book.exactMicro * e.limits.fatFingerBps.toNat / 2 ^ 64
  long : -2 ^ 63 < e.exactLong r ∧ e.exactLong r < 2 ^ 63
  short : -2 ^ 63 < e.exactShort r ∧ e.exactShort r < 2 ^ 63
  limit : e.limit ≠ -2 ^ 63
  symbolMoney : r.price * e.exactWorst r < 2 ^ 64

/-- The sum is the true one exactly when that fits. -/
theorem longExact_iff : (e.worstLong r).toInt = e.exactLong r ↔
    -2 ^ 63 ≤ e.exactLong r ∧ e.exactLong r < 2 ^ 63 := by
  rw [worstLong_eq (Int64.ofInt_toInt _).symm]
  exact toInt_ofInt_iff

/-- So is the difference. -/
theorem shortExact_iff : (e.worstShort r).toInt = e.exactShort r ↔
    -2 ^ 63 ≤ e.exactShort r ∧ e.exactShort r < 2 ^ 63 := by
  rw [worstShort_eq (Int64.ofInt_toInt _).symm]
  exact toInt_ofInt_iff

namespace Passes

/-- The product was below the limit, so it is the true one exactly when that fits. -/
theorem money_iff (hp : Passes e r) :
    exactNotional r ≤ e.limits.maxOrderNotional.toNat ↔ exactNotional r < 2 ^ 64 :=
  ofInt_le_iff (Int.mul_nonneg hp.price.le (Int.natCast_nonneg _)) (notional_eq ▸ hp.money)

/-- The two products compare as the true ones do exactly when they have wrapped equally often. -/
theorem near_iff (hp : Passes e r) : |r.price - r.book.microPrice| * 10000 ≤
      r.book.microPrice * e.limits.fatFingerBps.toNat ↔
    |r.price - r.book.microPrice| * 10000 / 2 ^ 64 ≤
      r.book.microPrice * e.limits.fatFingerBps.toNat / 2 ^ 64 := by
  have haway : (if r.book.microPrice < r.price then r.price - r.book.microPrice
      else r.book.microPrice - r.price) = |r.price - r.book.microPrice| := by
    split
    case isTrue h => exact (abs_of_pos (Int.sub_pos.mpr h)).symm
    case isFalse h =>
      rw [abs_sub_comm]
      exact (abs_of_nonneg (Int.sub_nonneg.mpr (Int.not_lt.mp h))).symm
  have hnear := hp.near
  rw [fatFinger, decide_eq_false_iff_not, UInt64.not_lt, ofInt_mul_toUInt64, haway,
    show (10000 : UInt64) = UInt64.ofInt 10000 from rfl, ← UInt64.ofInt_mul] at hnear
  exact ofInt_le_ofInt_iff hnear

/-- The long side was held to the limit. -/
theorem long_le (hp : Passes e r) : (e.worstLong r).toInt ≤ e.limit :=
  Int64.le_iff_toInt_le.mp hp.long

/-- The short side is held to the limit's negation, unless it has none. -/
theorem le_short (hp : Passes e r) (hlimit : e.limit ≠ -2 ^ 63) :
    -e.limit ≤ (e.worstShort r).toInt := by
  have hshort := Int64.le_iff_toInt_le.mp hp.short
  rwa [toInt_neg_of_ne hlimit] at hshort

/-- As with the order's own worth. -/
theorem symbolMoney_iff (hp : Passes e r)
    (hworst : ((e.worstShares r).toNat : ℤ) = e.exactWorst r) :
    r.price * e.exactWorst r ≤ e.limits.maxSymbolNotional.toNat ↔
      r.price * e.exactWorst r < 2 ^ 64 := by
  have hmoney := hp.symbolMoney
  rw [UInt64.mul_comm, ← ofInt_toNat (e.worstShares r), hworst, ← UInt64.ofInt_mul] at hmoney
  exact ofInt_le_iff (Int.mul_nonneg hp.price.le (hworst ▸ Int.natCast_nonneg _)) hmoney

/-- Nothing wrapped, so the limits hold of the true numbers. -/
theorem sound (hp : Passes e r) (h : Harmless e r) : Sound e r := by
  have hmicro : r.book.microPrice = r.book.exactMicro :=
    (TopOfBook.microPrice_exact_iff hp.twoSided hp.reference).mpr h.weighted
  have hlong := longExact_iff.mpr ⟨h.long.1.le, h.long.2⟩
  have hshort := shortExact_iff.mpr ⟨h.short.1.le, h.short.2⟩
  have hworst : ((e.worstShares r).toNat : ℤ) = e.exactWorst r := by
    rw [toNat_worstShares (hlong ▸ h.long.1.ne') (hshort ▸ h.short.1.ne'), hlong, hshort]
    rfl
  refine ⟨hp.money_iff.mpr h.money, hmicro, ?_, hlong, hshort, hlong ▸ hp.long_le,
    hshort ▸ hp.le_short h.limit, hworst, (hp.symbolMoney_iff hworst).mpr h.symbolMoney⟩
  have hnear := hp.near_iff
  rw [hmicro] at hnear
  exact hnear.mpr h.near

/-- The limits hold of the true numbers, so nothing wrapped. -/
theorem harmless (hp : Passes e r) (h : Sound e r) : Harmless e r := by
  have hlong := longExact_iff.mp h.longExact
  have hshort := shortExact_iff.mp h.shortExact
  have hlimit : e.limit ≠ -2 ^ 63 := by
    intro hmin
    have := h.short
    omega
  have hlimit' : e.limit < 2 ^ 63 := e.limits.maxPositionShares.toInt_lt
  have hshort' : e.exactShort r ≠ -2 ^ 63 := by
    have := h.short
    omega
  -- at the end of the range the larger of the two worst positions is not the one taken
  have hlong' : e.exactLong r ≠ -2 ^ 63 := by
    intro hmin
    have hworst := toNat_worstShares_of_min (h.longExact.trans hmin) (h.shortExact ▸ hshort')
    rw [h.worstExact, h.shortExact, exactWorst, hmin] at hworst
    have hmax : |(-2 ^ 63 : ℤ)| ≤ |e.exactShort r| := hworst ▸ le_max_left _ _
    have habs : |e.exactShort r| < 2 ^ 63 := abs_lt.mpr ⟨by omega, hshort.2⟩
    exact absurd (Int.lt_of_le_of_lt hmax habs) (by decide)
  have hnear := hp.near_iff
  rw [h.micro] at hnear
  exact {
    money := hp.money_iff.mp h.money
    weighted := (TopOfBook.microPrice_exact_iff hp.twoSided hp.reference).mp h.micro
    near := hnear.mp h.near
    long := ⟨by omega, hlong.2⟩
    short := ⟨by omega, hshort.2⟩
    limit := hlimit
    symbolMoney := (hp.symbolMoney_iff h.worstExact).mp h.symbolMoney }

end Passes

/-- **The check is sound** of an order it passes exactly when nothing wraps that matters. -/
theorem sound_iff (e : RiskEngine) (r : OrderRequest) (h : e.check r = some .none) :
    Sound e r ↔ Harmless e r :=
  ⟨(passes_of_check h).harmless, (passes_of_check h).sound⟩

/-- A hundred shares, sixteen hundred dollars and five percent from the market. -/
def tightLimits : RiskLimits :=
  { maxOrderShares := 100, maxOrderNotional := 16000000, fatFingerBps := 500,
    maxPositionShares := 100, maxSymbolNotional := 16000000, maxOpenOrders := 10,
    maxMessagesPerSecond := 10, maxMarketDataAgeNs := 1000 }

/-- Sixteen shares in a market at a hundred dollars. -/
def sixteenAt (price : Price) : OrderRequest :=
  { shares := 16, price := price, bookTsNs := 1, nowNs := 1,
    book := { bidPrice := 1000000, bidQty := 1, askPrice := 1000000, askQty := 1 } }

/-- At the market's price nothing wraps. -/
theorem sound_iff_atMarket : Sound (opened tightLimits) (sixteenAt 1000000) := by
  refine (sound_iff _ _ (by decide +kernel)).mpr ⟨?_, ?_, ?_, ?_, ?_, ?_, ?_⟩ <;> decide +kernel

/-- At a price `2 ^ 60` above it every product with the price or the distance wraps to what it
was at the market. -/
theorem unsound_farOut : ¬(∀ (e : RiskEngine) (r : OrderRequest), e.check r = some .none →
      exactNotional r ≤ e.limits.maxOrderNotional.toNat) ∧
    ¬(∀ (e : RiskEngine) (r : OrderRequest), e.check r = some .none →
      |r.price - r.book.exactMicro| * 10000 ≤ r.book.exactMicro * e.limits.fatFingerBps.toNat) ∧
    ¬(∀ (e : RiskEngine) (r : OrderRequest), e.check r = some .none →
      r.price * e.exactWorst r ≤ e.limits.maxSymbolNotional.toNat) := by
  have hcheck : (opened tightLimits).check (sixteenAt (1000000 + 2 ^ 60)) = some .none := by
    decide +kernel
  refine ⟨fun hall => ?_, fun hall => ?_, fun hall => ?_⟩
  · exact absurd (hall _ _ hcheck) (by decide +kernel)
  · exact absurd (hall _ _ hcheck) (by decide +kernel)
  · exact absurd (hall _ _ hcheck) (by decide +kernel)

end RiskEngine
end Tickerplant
