import Tickerplant.Strategy.Quoter

/-!
# Rounding a quote outward

The quoter means to round a bid down and an offer up, so that a rounding error can only make the
quote less aggressive. Its division truncates towards zero. From zero on that is what is meant.
Below zero a bid off the grid is rounded up, past its bound (`floorToTick_le_iff`), and an offer
stays on the right side of its bound but may go further than a tick from it (`ceilToTick_le_iff`).
Inventory skew is what takes a fair value there.

`Outward` is what is meant of a quote: on the grid, each side on the safe side of its bound, and no
more than a tick from it. The last is not asked of a side that backs off from the book, which goes
as far as the book makes it. `RoundsOut` is where truncation does that, in terms of the bounds
alone, and the two are the same for every quote that is sent (`requote_outward_iff`).

A side that is not quoted is asked for nothing, but is on the grid all the same.
-/

set_option autoImplicit false

namespace Tickerplant

/-! ## The grid

A tick of one or less is no grid. Otherwise the remainder of the division has the sign of what is
divided, which is what everything here comes down to. -/

namespace QuoteConfig

variable {c : QuoteConfig} (h : (1 : Int) ≤ c.tickSize) (p : Int)

include h in
/-- A tick that makes no grid is one. -/
theorem tick_eq_one (hle : c.tickSize ≤ 1) : c.tickSize = (1 : Int) := Int.le_antisymm hle h

include h in
/-- A bid is on the grid. -/
theorem dvd_floorToTick : (c.tickSize : Int) ∣ c.floorToTick p := by
  unfold floorToTick
  split
  · rename_i hle
    rw [tick_eq_one h hle]
    exact Int.one_dvd p
  · exact Int.dvd_mul_left _ _

include h in
/-- And an offer. -/
theorem dvd_ceilToTick : (c.tickSize : Int) ∣ c.ceilToTick p := by
  unfold ceilToTick
  split
  · rename_i hle
    rw [tick_eq_one h hle]
    exact Int.one_dvd p
  · exact Int.dvd_mul_left _ _

include h in
/-- The bid's grid is never more than a tick below what is rounded. -/
theorem le_floorToTick_add : p ≤ c.floorToTick p + c.tickSize := by
  unfold floorToTick
  split
  · unfold Price at *
    omega
  · have hmod : p.tmod c.tickSize < c.tickSize := Int.tmod_lt_of_pos p (by unfold Price at *; omega)
    rw [Int.tdiv_mul_self]
    unfold Price at *
    omega

include h in
/-- **The bid is rounded down** from zero on, and below zero only if it is on the grid. -/
theorem floorToTick_le_iff : c.floorToTick p ≤ p ↔ 0 ≤ p ∨ (c.tickSize : Int) ∣ p := by
  unfold floorToTick
  split
  · rename_i hle
    rw [tick_eq_one h hle]
    exact iff_of_true (Int.le_refl p) (Or.inr (Int.one_dvd p))
  · rw [Int.tdiv_mul_self]
    -- below zero the remainder is below zero too, unless there is none
    constructor
    · intro hdown
      by_contra hno
      rw [not_or, Int.not_le] at hno
      have hneg := Int.tmod_nonneg (c.tickSize : Int) (show 0 ≤ -p by omega)
      rw [Int.neg_tmod] at hneg
      have hzero : p.tmod c.tickSize ≠ 0 := fun h0 => hno.2 (Int.dvd_of_tmod_eq_zero h0)
      unfold Price at *
      omega
    · rintro (hpos | hdvd)
      · have hmod := Int.tmod_nonneg (c.tickSize : Int) hpos
        unfold Price at *
        omega
      · rw [Int.tmod_eq_zero_of_dvd hdvd, Int.sub_zero]

/-- Counting down from one before a multiple, and up to it. -/
theorem emod_one_sub {t p : Int} (ht : 2 ≤ t) : (1 - p) % t ≤ 1 ↔ p % t ≤ 1 := by
  have hnonneg := Int.emod_nonneg p (show t ≠ 0 by omega)
  have hlt := Int.emod_lt_of_pos p (show 0 < t by omega)
  have hsplit := Int.mul_ediv_add_emod p t
  by_cases hle : p % t ≤ 1
  · have hmod : (1 - p) % t = 1 - p % t := by
      have hform : 1 - p = (1 - p % t) + t * (-(p / t)) := by
        rw [Int.mul_neg]
        omega
      rw [hform, Int.add_mul_emod_self_left, Int.emod_eq_of_lt (by omega) (by omega)]
    omega
  · have hmod : (1 - p) % t = t + 1 - p % t := by
      have hform : 1 - p = (t + 1 - p % t) + t * (-(p / t) - 1) := by
        rw [Int.mul_sub, Int.mul_neg]
        omega
      rw [hform, Int.add_mul_emod_self_left, Int.emod_eq_of_lt (by omega) (by omega)]
    omega

include h in
/-- **The offer is rounded up by no more than a tick** from above minus one tick on, and below that
only on the grid or just past it. -/
theorem ceilToTick_le_iff :
    c.ceilToTick p ≤ p + c.tickSize ↔ -c.tickSize < p ∨ p % c.tickSize ≤ 1 := by
  unfold ceilToTick
  split
  · rename_i hle
    rw [tick_eq_one h hle]
    exact iff_of_true (Int.le_add_of_nonneg_right (by decide)) (Or.inr (by omega))
  · rename_i hgt
    rw [Int.tdiv_mul_self]
    by_cases hpos : -c.tickSize < p
    · have hmod := Int.tmod_nonneg (c.tickSize : Int)
        (show 0 ≤ p + c.tickSize - 1 by unfold Price at *; omega)
      exact iff_of_true (by unfold Price at *; omega) (Or.inl hpos)
    · -- below zero the remainder is the one of the distance to the multiple above
      have hmod : (p + c.tickSize - 1).tmod c.tickSize = -((1 - p) % c.tickSize) := by
        have hneg : p + c.tickSize - 1 = -(1 - p - c.tickSize) := by
          unfold Price at *
          omega
        rw [hneg, Int.neg_tmod, Int.tmod_eq_emod_of_nonneg (by unfold Price at *; omega),
          Int.sub_emod_right]
      rw [hmod]
      have hone := emod_one_sub (t := c.tickSize) (p := p) (by unfold Price at *; omega)
      constructor
      · intro hle
        exact Or.inr (hone.mp (by unfold Price at *; omega))
      · rintro (hlt | hle)
        · exact absurd hlt hpos
        · have hle' := hone.mpr hle
          unfold Price at *
          omega

end QuoteConfig

/-! ## The quote

The bounds of a quote are its fair value less and plus half the spread. -/

namespace MicroPriceQuoter

section Bounds

variable (c : QuoteConfig) (top : TopOfBook) (position : Int)

/-- The fair value, shifted against the inventory. -/
def fair : Int := top.microPrice - position * c.skewPerShare

/-- What a bid is not meant to be above. -/
def bidBound : Int := fair c top position - c.halfSpreadTicks * c.tickSize

/-- What an offer is not meant to be below. -/
def askBound : Int := fair c top position + c.halfSpreadTicks * c.tickSize

/-- The rounded bid would cross the book. -/
def BidBacksOff : Prop := top.askPrice ≤ c.floorToTick (bidBound c top position)

/-- The rounded offer would. -/
def AskBacksOff : Prop := c.ceilToTick (askBound c top position) ≤ top.bidPrice

instance : Decidable (BidBacksOff c top position) := inferInstanceAs (Decidable (_ ≤ (_ : Int)))

instance : Decidable (AskBacksOff c top position) := inferInstanceAs (Decidable ((_ : Int) ≤ _))

/-- **A quote rounded outward**: on the grid, and each side on the safe side of its bound, within
a tick of it unless it backed off from the book. -/
structure Outward (quote : Quote) : Prop where
  grid : (c.tickSize : Int) ∣ quote.bid ∧ (c.tickSize : Int) ∣ quote.ask
  /-- The bid is not above its bound, and not more than a tick below it unless it backed off. -/
  bid : quote.hasBid = true → quote.bid ≤ bidBound c top position ∧
    (bidBound c top position ≤ quote.bid + c.tickSize ∨ BidBacksOff c top position)
  /-- The offer is not below its bound, and likewise. -/
  ask : quote.hasAsk = true → askBound c top position ≤ quote.ask ∧
    (quote.ask ≤ askBound c top position + c.tickSize ∨ AskBacksOff c top position)

/-- The bounds are where truncating division rounds outward. -/
def RoundsOut : Prop :=
  (position < c.maxInventory → 0 ≤ bidBound c top position ∨
    (c.tickSize : Int) ∣ bidBound c top position ∨ BidBacksOff c top position) ∧
  (-c.maxInventory < position → -c.tickSize < askBound c top position ∨
    askBound c top position % c.tickSize ≤ 1 ∨ AskBacksOff c top position)

instance : Decidable (RoundsOut c top position) := inferInstanceAs (Decidable (_ ∧ _))

end Bounds

section Quoted

variable {c : QuoteConfig} (h : (1 : Int) ≤ c.tickSize) (top : TopOfBook) (position : Int)
include h

/-- A bid that backs off is below its bound, however it was rounded before. -/
theorem floor_backOff_le {p ask : Int} (hcross : ask ≤ c.floorToTick p) :
    c.floorToTick (ask - c.tickSize) ≤ p := by
  have hbelow := QuoteConfig.floorToTick_lt h (ask - c.tickSize)
  have habove := QuoteConfig.floorToTick_lt h p
  obtain ⟨k, hk⟩ := QuoteConfig.dvd_floorToTick h p
  obtain ⟨j, hj⟩ := QuoteConfig.dvd_floorToTick h (ask - c.tickSize)
  -- one multiple below another is a tick below it
  have hjk : j < k := by
    refine Int.lt_of_mul_lt_mul_left (a := c.tickSize) ?_ (by unfold Price at *; omega)
    rw [← hk, ← hj]
    unfold Price at *
    omega
  have htick : (c.tickSize : Int) * (j + 1) ≤ c.tickSize * k :=
    Int.mul_le_mul_of_nonneg_left hjk (by unfold Price at *; omega)
  rw [Int.mul_add, Int.mul_one, ← hk, ← hj] at htick
  unfold Price at *
  omega

/-- **The exact condition**: the quote for a fair value is rounded outward exactly when its bounds
are where truncation does that. -/
theorem outward_quoteFor :
    Outward c top position (quoteFor c top position) ↔ RoundsOut c top position := by
  have hbid : (quoteFor c top position).bid =
      if position < c.maxInventory ∧ BidBacksOff c top position then
        c.floorToTick (top.askPrice - c.tickSize)
      else c.floorToTick (bidBound c top position) := by
    unfold quoteFor
    rw [backOff_bid]
    simp only [decide_eq_true_iff, ge_iff_le]
    rfl
  have hask : (quoteFor c top position).ask =
      if -c.maxInventory < position ∧ AskBacksOff c top position then
        c.ceilToTick (top.bidPrice + c.tickSize)
      else c.ceilToTick (askBound c top position) := by
    unfold quoteFor
    rw [backOff_ask]
    simp only [decide_eq_true_iff, gt_iff_lt]
    rfl
  have hhasBid : (quoteFor c top position).hasBid = true ↔ position < c.maxInventory := by
    unfold quoteFor
    rw [backOff_hasBid, decide_eq_true_iff]
  have hhasAsk : (quoteFor c top position).hasAsk = true ↔ -c.maxInventory < position := by
    unfold quoteFor
    rw [backOff_hasAsk, decide_eq_true_iff]
  -- each side of the quote is the grid's answer to its bound, or to the book where it backed off
  constructor
  · refine fun hout => ⟨fun hside => ?_, fun hside => ?_⟩
    · by_cases hback : BidBacksOff c top position
      · exact Or.inr (Or.inr hback)
      · have hle := (hout.bid (hhasBid.mpr hside)).1
        rw [hbid, if_neg fun hboth => hback hboth.2] at hle
        rcases (QuoteConfig.floorToTick_le_iff h _).mp hle with hpos | hdvd
        · exact Or.inl hpos
        · exact Or.inr (Or.inl hdvd)
    · by_cases hback : AskBacksOff c top position
      · exact Or.inr (Or.inr hback)
      · have hle := (hout.ask (hhasAsk.mpr hside)).2.resolve_right hback
        rw [hask, if_neg fun hboth => hback hboth.2] at hle
        rcases (QuoteConfig.ceilToTick_le_iff h _).mp hle with hlt | hmod
        · exact Or.inl hlt
        · exact Or.inr (Or.inl hmod)
  · rintro ⟨hrbid, hrask⟩
    refine ⟨⟨?_, ?_⟩, fun hb => ?_, fun ha => ?_⟩
    · rw [hbid]
      split <;> exact QuoteConfig.dvd_floorToTick h _
    · rw [hask]
      split <;> exact QuoteConfig.dvd_ceilToTick h _
    · have hside := hhasBid.mp hb
      rw [hbid]
      by_cases hback : BidBacksOff c top position
      · rw [if_pos ⟨hside, hback⟩]
        exact ⟨floor_backOff_le h hback, Or.inr hback⟩
      · rw [if_neg fun hboth => hback hboth.2]
        refine ⟨(QuoteConfig.floorToTick_le_iff h _).mpr ?_,
          Or.inl (QuoteConfig.le_floorToTick_add h _)⟩
        rcases hrbid hside with hpos | hdvd | hcross
        · exact Or.inl hpos
        · exact Or.inr hdvd
        · exact absurd hcross hback
    · have hside := hhasAsk.mp ha
      rw [hask]
      by_cases hback : AskBacksOff c top position
      · rw [if_pos ⟨hside, hback⟩]
        have hceil := QuoteConfig.le_ceilToTick h (top.bidPrice + c.tickSize)
        have hbound := QuoteConfig.le_ceilToTick h (askBound c top position)
        have hcross : (c.ceilToTick (askBound c top position) : Int) ≤ top.bidPrice := hback
        refine ⟨?_, Or.inr hback⟩
        unfold Price at *
        omega
      · rw [if_neg fun hboth => hback hboth.2]
        refine ⟨QuoteConfig.le_ceilToTick h _,
          Or.inl ((QuoteConfig.ceilToTick_le_iff h _).mpr ?_)⟩
        rcases hrask hside with hlt | hmod | hcross
        · exact Or.inl hlt
        · exact Or.inr hmod
        · exact absurd hcross hback

end Quoted

/-- **Rounding makes a quote less aggressive exactly when its bounds are not below zero**, or are
on the grid there, or the side backs off: of every quote that is sent, from any state of the
quoter, for any top and position. -/
theorem requote_outward_iff (q : MicroPriceQuoter) (h : (1 : Int) ≤ q.cfg.tickSize)
    (top : TopOfBook) (position : Int) (nowNs : UInt64) (halted : Bool)
    (hr : (q.onTopOfBook top position nowNs halted).decision = .requote) :
    Outward q.cfg top position (q.onTopOfBook top position nowNs halted).out ↔
      RoundsOut q.cfg top position := by
  rcases q.onTopOfBook_cases top position nowNs halted with
    ⟨-, -, hholds⟩ | ⟨-, -, -, hholds⟩ | ⟨-, -, hsends⟩
  · exact absurd hr hholds.decision
  · exact absurd hr hholds.decision
  · rw [hsends.out]
    exact outward_quoteFor h top position

/-- A stock at a hundred dollars, and a position that leaves its fair value above zero. -/
theorem requote_outward_iff_hundredDollars :
    Outward {} { bidPrice := 1000000, bidQty := 200, askPrice := 1000300, askQty := 100 } 900
      (({ cfg := {} } : MicroPriceQuoter).onTopOfBook
        { bidPrice := 1000000, bidQty := 200, askPrice := 1000300, askQty := 100 } 900 5
        false).out :=
  (requote_outward_iff { cfg := {} } (by decide)
    { bidPrice := 1000000, bidQty := 200, askPrice := 1000300, askQty := 100 } 900 5 false
    (by decide)).mpr (by decide)

/-- A stock at two cents, and an inventory that takes its fair value below zero: the bid is sent
above the bound it was rounded from. -/
theorem not_requote_outward_penny :
    (({ cfg := {} } : MicroPriceQuoter).onTopOfBook
        { bidPrice := 100, bidQty := 100, askPrice := 300, askQty := 100 } 175 5 false).decision =
      .requote ∧
    ¬ Outward {} { bidPrice := 100, bidQty := 100, askPrice := 300, askQty := 100 } 175
      (({ cfg := {} } : MicroPriceQuoter).onTopOfBook
        { bidPrice := 100, bidQty := 100, askPrice := 300, askQty := 100 } 175 5 false).out := by
  refine ⟨by decide, fun hout => ?_⟩
  have hbid := (hout.bid (by decide)).1
  exact absurd hbid (by decide)

end MicroPriceQuoter

end Tickerplant
