import Tickerplant.Book.Builder

/-!
# The quoting rule (`include/tick/strategy.hpp`)

A fair value from the top of the book, shifted against the inventory, quoted either side on the
tick grid, and moved only when that is worth a message. Signed arithmetic is exact here: it is the
source's as long as nothing overflows 64 bits. The grid is reached by division that truncates
towards zero, so below zero it is the offer that is rounded outward and the bid inward.

The rule sends nothing. It answers what the quote should be, and why it is what it was if it is,
and its caller does the rest. So a run is a list of calls with their answers (`answers`), and what
is said of a run is said of those answers that are to be sent.

`onTopOfBook_cases` is the one place where the branches of an update are gone through: it pulls,
lets the last quote stand, or sends the new one, and each of the three says what becomes of what
the later results are about. `onTopOfBook_passive` is the safety of one update, from any state: a
quote that is sent takes no liquidity, and its two sides do not meet. It does not depend on how the
grid rounds, only on the grid being less than a tick above what a bid is rounded from, and never
below what an offer is.
-/

set_option autoImplicit false

namespace Tickerplant

/-- The settings of the rule, with their defaults. Prices are in ten-thousandths of a dollar. -/
structure QuoteConfig where
  /-- The smallest increment the venue allows. -/
  tickSize : Price := 100
  halfSpreadTicks : Int := 1
  quoteSize : Quantity := 100
  /-- How far a share of inventory shifts the fair value. -/
  skewPerShare : Int := 2
  /-- The side that would make the position worse is not quoted from here on. -/
  maxInventory : Int := 1000
  requoteThresholdTicks : Int := 1
  minRequoteIntervalNs : UInt64 := 1000000
  /-- A wider market is not quoted at all. -/
  maxQuotableSpreadTicks : Int := 50
  deriving DecidableEq, Repr

/-- The two sides, either of which may be missing. -/
structure Quote where
  hasBid : Bool := false
  hasAsk : Bool := false
  bid : Price := 0
  ask : Price := 0
  bidQty : Quantity := 0
  askQty : Quantity := 0
  deriving DecidableEq, Repr

/-- Why the quoter did or did not act. -/
inductive QuoteDecision where
  /-- Nothing moved enough to be worth a message. -/
  | unchanged
  /-- The quote changed and should be sent. -/
  | requote
  /-- There should be no quote at all now. -/
  | pull
  /-- The book is not two sided. -/
  | noMarket
  | spreadTooWide
  | halted
  /-- The minimum requote interval has not elapsed. -/
  | tooSoon
  deriving DecidableEq, Repr

/-- The decisions, counted. The counters are natural numbers: they are only added to and read back.
-/
structure QuoterStats where
  updates : ℕ := 0
  requotes : ℕ := 0
  pulls : ℕ := 0
  unchanged : ℕ := 0
  noMarket : ℕ := 0
  spreadWide : ℕ := 0
  tooSoon : ℕ := 0
  halted : ℕ := 0
  deriving DecidableEq, Repr

/-- The rule, the quote it has out, and what it knows of its fills. -/
structure MicroPriceQuoter where
  cfg : QuoteConfig
  /-- The last quote sent, as long as it stands. -/
  live : Quote := {}
  /-- Whether it stands. -/
  quoting : Bool := false
  lastQuoteNs : UInt64 := 0
  position : Int := 0
  fills : ℕ := 0
  lastReason : QuoteDecision := .unchanged
  stats : QuoterStats := {}
  deriving DecidableEq, Repr

namespace QuoteConfig

/-- The grid at or below a price, as the source has it: towards zero. -/
def floorToTick (c : QuoteConfig) (p : Price) : Price :=
  if c.tickSize ≤ 1 then p else p.tdiv c.tickSize * c.tickSize

/-- The grid at or above it. -/
def ceilToTick (c : QuoteConfig) (p : Price) : Price :=
  if c.tickSize ≤ 1 then p else (p + c.tickSize - 1).tdiv c.tickSize * c.tickSize

/-- A quote that would cross the book takes liquidity: back off to joining it, each side alone. -/
def backOff (c : QuoteConfig) (top : TopOfBook) (quote : Quote) : Quote :=
  let quote := if quote.hasBid ∧ quote.bid ≥ top.askPrice then
      { quote with bid := c.floorToTick (top.askPrice - c.tickSize) }
    else quote
  if quote.hasAsk ∧ quote.ask ≤ top.bidPrice then
    { quote with ask := c.ceilToTick (top.bidPrice + c.tickSize) }
  else quote

end QuoteConfig

namespace MicroPriceQuoter

variable (q : MicroPriceQuoter)

/-- The quote that stands is taken back. With none there, the reason is the answer. -/
def pullIfQuoting (reason : QuoteDecision) : QuoteDecision × MicroPriceQuoter :=
  let q := { q with lastReason := reason }
  if q.quoting then
    (.pull, { q with
      quoting := false
      live := {}
      stats := { q.stats with pulls := q.stats.pulls + 1 } })
  else (reason, q)

/-- The hysteresis: two gates, and both have to open. -/
def worthRequoting (quote : Quote) (nowNs : UInt64) : Bool × MicroPriceQuoter :=
  if q.quoting = false then (true, q)
  else if nowNs - q.lastQuoteNs < q.cfg.minRequoteIntervalNs then
    (false, { q with
      stats := { q.stats with tooSoon := q.stats.tooSoon + 1 }
      lastReason := .tooSoon })
  else if quote.hasBid ≠ q.live.hasBid ∨ quote.hasAsk ≠ q.live.hasAsk then (true, q)
  else
    let threshold := q.cfg.requoteThresholdTicks * q.cfg.tickSize
    let dbid := if quote.bid > q.live.bid then quote.bid - q.live.bid else q.live.bid - quote.bid
    let dask := if quote.ask > q.live.ask then quote.ask - q.live.ask else q.live.ask - quote.ask
    if dbid ≥ threshold ∨ dask ≥ threshold then (true, q)
    else (false, { q with lastReason := .unchanged })

/-- What `on_top_of_book` answers and leaves behind; `out` is its last argument. -/
structure Answer where
  decision : QuoteDecision
  out : Quote
  quoter : MicroPriceQuoter

/-- One update: the reasons not to quote, in the order they are looked at, and then the quote. -/
def onTopOfBook (top : TopOfBook) (position : Int) (nowNs : UInt64) (halted : Bool) : Answer :=
  let q := { q with stats := { q.stats with updates := q.stats.updates + 1 } }
  if halted then
    let q := { q with stats := { q.stats with halted := q.stats.halted + 1 } }
    let r := q.pullIfQuoting .halted
    { decision := r.1, out := {}, quoter := r.2 }
  else if top.twoSided = false then
    let q := { q with stats := { q.stats with noMarket := q.stats.noMarket + 1 } }
    let r := q.pullIfQuoting .noMarket
    { decision := r.1, out := {}, quoter := r.2 }
  else if top.spread > q.cfg.maxQuotableSpreadTicks * q.cfg.tickSize then
    let q := { q with stats := { q.stats with spreadWide := q.stats.spreadWide + 1 } }
    let r := q.pullIfQuoting .spreadTooWide
    { decision := r.1, out := {}, quoter := r.2 }
  else
    let fair := top.microPrice - position * q.cfg.skewPerShare
    let quote : Quote :=
      { bid := q.cfg.floorToTick (fair - q.cfg.halfSpreadTicks * q.cfg.tickSize)
        ask := q.cfg.ceilToTick (fair + q.cfg.halfSpreadTicks * q.cfg.tickSize)
        bidQty := q.cfg.quoteSize
        askQty := q.cfg.quoteSize
        hasBid := decide (position < q.cfg.maxInventory)
        hasAsk := decide (position > -q.cfg.maxInventory) }
    let quote := q.cfg.backOff top quote
    if quote.hasBid = false ∧ quote.hasAsk = false then
      let r := q.pullIfQuoting .pull
      { decision := r.1, out := {}, quoter := r.2 }
    else
      let r := q.worthRequoting quote nowNs
      let q := r.2
      if r.1 = false then
        { decision := q.lastReason, out := q.live
          quoter := { q with stats := { q.stats with unchanged := q.stats.unchanged + 1 } } }
      else
        { decision := .requote, out := quote
          quoter := { q with
            live := quote
            quoting := true
            lastQuoteNs := nowNs
            stats := { q.stats with requotes := q.stats.requotes + 1 } } }

/-- What traded moves the inventory. -/
def onFill (side : Side) (qty : Quantity) : MicroPriceQuoter :=
  { q with
    position := q.position + (if side = .buy then (qty.toNat : Int) else -qty.toNat)
    fills := q.fills + 1 }

end MicroPriceQuoter

/-! ## Rounding

What the safety of a quote needs to know of the grid, on either side of zero. -/

namespace QuoteConfig

variable {c : QuoteConfig} (h : (1 : Int) ≤ c.tickSize) (p : Int)
include h

/-- The bid's grid is less than a tick above what is rounded, on either side of zero. -/
theorem floorToTick_lt : (c.floorToTick p : Int) < p + c.tickSize := by
  unfold floorToTick
  split
  · exact Int.lt_add_of_pos_right p (Int.lt_of_lt_of_le Int.zero_lt_one h)
  · have hmod := Int.lt_tmod_of_pos p (Int.lt_of_lt_of_le Int.zero_lt_one h)
    rw [Int.tdiv_mul_self]
    unfold Price at *
    omega

/-- The offer's grid is never below what is rounded. -/
theorem le_ceilToTick : p ≤ c.ceilToTick p := by
  unfold ceilToTick
  split
  · exact Int.le_refl p
  · have hmod : (p + c.tickSize - 1).tmod c.tickSize < c.tickSize :=
      Int.tmod_lt_of_pos _ (Int.lt_of_lt_of_le Int.zero_lt_one h)
    rw [Int.tdiv_mul_self]
    omega

end QuoteConfig

/-! ## One update

First the backing off, which makes a quote passive whatever it was, and then the branches of an
update. -/

/-- A quote that takes no liquidity: neither side reaches the book's other side, and the two do
not meet. -/
structure Passive (c : QuoteConfig) (top : TopOfBook) (quote : Quote) : Prop where
  /-- The bid is below the book's offer. -/
  bid : quote.hasBid = true → quote.bid < top.askPrice
  /-- And the offer above the book's bid. -/
  ask : quote.hasAsk = true → top.bidPrice < quote.ask
  /-- The quote's own sides do not meet, if they are meant to be apart. -/
  apart : 1 ≤ c.halfSpreadTicks → quote.hasBid = true → quote.hasAsk = true → quote.bid < quote.ask

section BackOff

open QuoteConfig

variable {c : QuoteConfig} {top : TopOfBook} {quote : Quote}

@[simp] theorem backOff_hasBid : (backOff c top quote).hasBid = quote.hasBid := by
  simp only [backOff]
  split <;> split <;> rfl

@[simp] theorem backOff_hasAsk : (backOff c top quote).hasAsk = quote.hasAsk := by
  simp only [backOff]
  split <;> split <;> rfl

/-- The bid backs off from the book's offer, whatever the offer of the quote does. -/
theorem backOff_bid : (backOff c top quote).bid =
    if quote.hasBid ∧ quote.bid ≥ top.askPrice then c.floorToTick (top.askPrice - c.tickSize)
    else quote.bid := by
  simp only [backOff]
  split <;> split <;> rfl

/-- And the offer from the book's bid. -/
theorem backOff_ask : (backOff c top quote).ask =
    if quote.hasAsk ∧ quote.ask ≤ top.bidPrice then c.ceilToTick (top.bidPrice + c.tickSize)
    else quote.ask := by
  simp only [backOff]
  split <;> split <;> simp_all

/-- **Backing off** moves a quote's sides away from each other, and off the book. -/
theorem backOff_passive (h : (1 : Int) ≤ c.tickSize)
    (hapart : 1 ≤ c.halfSpreadTicks → quote.bid < quote.ask) :
    Passive c top (backOff c top quote) := by
  have hfloor := QuoteConfig.floorToTick_lt h (top.askPrice - c.tickSize)
  have hceil := QuoteConfig.le_ceilToTick h (top.bidPrice + c.tickSize)
  refine ⟨fun hb => ?_, fun ha => ?_, fun hs hb ha => ?_⟩
  · rw [backOff_hasBid] at hb
    rw [backOff_bid]
    split
    · unfold Price at *
      omega
    · rename_i hno
      exact Int.not_le.mp fun hle => hno ⟨hb, hle⟩
  · rw [backOff_hasAsk] at ha
    rw [backOff_ask]
    split
    · unfold Price at *
      omega
    · rename_i hno
      exact Int.not_le.mp fun hle => hno ⟨ha, hle⟩
  · have hlt := hapart hs
    -- a side that backs off moves outward
    have hbid : (backOff c top quote).bid ≤ quote.bid := by
      rw [backOff_bid]
      split
      · rename_i hcross
        have hge := hcross.2
        unfold Price at *
        omega
      · exact Int.le_refl _
    have hask : quote.ask ≤ (backOff c top quote).ask := by
      rw [backOff_ask]
      split
      · rename_i hcross
        have hle := hcross.2
        unfold Price at *
        omega
      · exact Int.le_refl _
    exact Int.lt_of_le_of_lt hbid (Int.lt_of_lt_of_le hlt hask)

end BackOff

/-- Both sides of a fair value, at least a tick away from it, do not meet on the grid. -/
theorem floor_lt_ceil {c : QuoteConfig} (h : (1 : Int) ≤ c.tickSize) (fair : Int)
    (hs : 1 ≤ c.halfSpreadTicks) :
    (c.floorToTick (fair - c.halfSpreadTicks * c.tickSize) : Int) <
      c.ceilToTick (fair + c.halfSpreadTicks * c.tickSize) := by
  have hfloor := QuoteConfig.floorToTick_lt h (fair - c.halfSpreadTicks * c.tickSize)
  have hceil := QuoteConfig.le_ceilToTick h (fair + c.halfSpreadTicks * c.tickSize)
  have htick : c.tickSize ≤ c.halfSpreadTicks * c.tickSize :=
    le_mul_of_one_le_left (Int.le_trans (Int.le_of_lt Int.zero_lt_one) h) hs
  unfold Price at *
  omega

namespace MicroPriceQuoter

variable {q : MicroPriceQuoter}

/-- A pull sends no quote. -/
theorem pullIfQuoting_decision {reason : QuoteDecision} (h : reason ≠ .requote) :
    (q.pullIfQuoting reason).1 ≠ .requote := by
  unfold pullIfQuoting
  simp only
  split
  · simp
  · exact h

/-- A quote not worth a message says why not. -/
theorem worthRequoting_reason (quote : Quote) (nowNs : UInt64) :
    (q.worthRequoting quote nowNs).1 = true ∨
      (q.worthRequoting quote nowNs).2.lastReason ≠ .requote := by
  unfold worthRequoting
  split
  · exact Or.inl rfl
  split
  · exact Or.inr (by simp)
  split
  · exact Or.inl rfl
  extract_lets threshold dbid dask
  split
  · exact Or.inl rfl
  · exact Or.inr (by simp)

@[simp] theorem pullIfQuoting_quoting (reason : QuoteDecision) :
    (q.pullIfQuoting reason).2.quoting = false := by
  unfold pullIfQuoting
  simp only
  split
  · rfl
  · rename_i hquoting
    simpa using hquoting

@[simp] theorem pullIfQuoting_lastQuoteNs (reason : QuoteDecision) :
    (q.pullIfQuoting reason).2.lastQuoteNs = q.lastQuoteNs := by
  unfold pullIfQuoting
  simp only
  split <;> rfl

@[simp] theorem pullIfQuoting_requotes (reason : QuoteDecision) :
    (q.pullIfQuoting reason).2.stats.requotes = q.stats.requotes := by
  unfold pullIfQuoting
  simp only
  split <;> rfl

/-- Asking whether a quote is worth a message changes no quote. -/
theorem worthRequoting_kept (quote : Quote) (nowNs : UInt64) :
    (q.worthRequoting quote nowNs).2.quoting = q.quoting ∧
      (q.worthRequoting quote nowNs).2.lastQuoteNs = q.lastQuoteNs ∧
      (q.worthRequoting quote nowNs).2.stats.requotes = q.stats.requotes := by
  unfold worthRequoting
  split
  · exact ⟨rfl, rfl, rfl⟩
  split
  · exact ⟨rfl, rfl, rfl⟩
  split
  · exact ⟨rfl, rfl, rfl⟩
  extract_lets threshold dbid dask
  split <;> exact ⟨rfl, rfl, rfl⟩

/-- The counters have no say in it. -/
theorem worthRequoting_stats (stats : QuoterStats) (quote : Quote) (nowNs : UInt64) :
    ({ q with stats := stats }.worthRequoting quote nowNs).1 =
      (q.worthRequoting quote nowNs).1 := by
  unfold worthRequoting
  split
  · rfl
  split
  · rfl
  split
  · rfl
  extract_lets threshold dbid dask
  split <;> rfl

/-- The market can be quoted, and a side is left to quote. -/
def Quotable (c : QuoteConfig) (top : TopOfBook) (position : Int) (halted : Bool) : Prop :=
  halted = false ∧ top.twoSided = true ∧ top.spread ≤ c.maxQuotableSpreadTicks * c.tickSize ∧
    (position < c.maxInventory ∨ -c.maxInventory < position)

instance (c : QuoteConfig) (top : TopOfBook) (position : Int) (halted : Bool) :
    Decidable (Quotable c top position halted) := inferInstanceAs (Decidable (_ ∧ _))

/-- The quote for a fair value. -/
def quoteFor (c : QuoteConfig) (top : TopOfBook) (position : Int) : Quote :=
  let fair := top.microPrice - position * c.skewPerShare
  c.backOff top
    { bid := c.floorToTick (fair - c.halfSpreadTicks * c.tickSize)
      ask := c.ceilToTick (fair + c.halfSpreadTicks * c.tickSize)
      bidQty := c.quoteSize
      askQty := c.quoteSize
      hasBid := decide (position < c.maxInventory)
      hasAsk := decide (position > -c.maxInventory) }

/-- No quote is sent, and if the last one stands, it stands as it was. -/
structure Holds (q : MicroPriceQuoter) (a : Answer) : Prop where
  /-- Nothing is to be sent. -/
  decision : a.decision ≠ .requote
  lastQuoteNs : a.quoter.lastQuoteNs = q.lastQuoteNs
  /-- And nothing is counted as sent. -/
  requotes : a.quoter.stats.requotes = q.stats.requotes

/-- The quote is sent. -/
structure Sends (q : MicroPriceQuoter) (quote : Quote) (nowNs : UInt64) (a : Answer) : Prop where
  decision : a.decision = .requote
  /-- What is to be sent is this quote. -/
  out : a.out = quote
  /-- It stands from now on. -/
  quoting : a.quoter.quoting = true
  lastQuoteNs : a.quoter.lastQuoteNs = nowNs
  requotes : a.quoter.stats.requotes = q.stats.requotes + 1

/-- **What one update can do**: pull, because there is nothing to quote; let the last quote stand,
because the new one is not worth a message; or send the new one. -/
theorem onTopOfBook_cases (q : MicroPriceQuoter) (top : TopOfBook) (position : Int)
    (nowNs : UInt64) (halted : Bool) :
    ¬ Quotable q.cfg top position halted ∧
        (q.onTopOfBook top position nowNs halted).quoter.quoting = false ∧
        Holds q (q.onTopOfBook top position nowNs halted) ∨
      Quotable q.cfg top position halted ∧
        (q.worthRequoting (quoteFor q.cfg top position) nowNs).1 = false ∧
        (q.onTopOfBook top position nowNs halted).quoter.quoting = q.quoting ∧
        Holds q (q.onTopOfBook top position nowNs halted) ∨
      Quotable q.cfg top position halted ∧
        (q.worthRequoting (quoteFor q.cfg top position) nowNs).1 = true ∧
        Sends q (quoteFor q.cfg top position) nowNs
          (q.onTopOfBook top position nowNs halted) := by
  -- each of the reasons not to quote ends in the same way
  have hpull {q' : MicroPriceQuoter} {reason : QuoteDecision} (hne : reason ≠ .requote)
      (hlast : q'.lastQuoteNs = q.lastQuoteNs) (hcount : q'.stats.requotes = q.stats.requotes)
      (hno : ¬ Quotable q.cfg top position halted) :
      ¬ Quotable q.cfg top position halted ∧ (q'.pullIfQuoting reason).2.quoting = false ∧
        Holds q ⟨(q'.pullIfQuoting reason).1, {}, (q'.pullIfQuoting reason).2⟩ :=
    ⟨hno, pullIfQuoting_quoting _, pullIfQuoting_decision hne,
      (pullIfQuoting_lastQuoteNs _).trans hlast, (pullIfQuoting_requotes _).trans hcount⟩
  unfold onTopOfBook
  simp only
  split
  · rename_i hhalted
    exact Or.inl (hpull (by decide) rfl rfl fun h => absurd (h.1.symm.trans hhalted) (by decide))
  rename_i hhalted
  split
  · rename_i htwo
    exact Or.inl (hpull (by decide) rfl rfl fun h => absurd (h.2.1.symm.trans htwo) (by decide))
  rename_i htwo
  split
  · rename_i hwide
    exact Or.inl (hpull (by decide) rfl rfl fun h => absurd h.2.2.1 (Int.not_le.mpr hwide))
  rename_i hwide
  split
  · rename_i hnone
    rw [backOff_hasBid, backOff_hasAsk, decide_eq_false_iff_not, decide_eq_false_iff_not] at hnone
    exact Or.inl (hpull (by decide) rfl rfl fun h => h.2.2.2.elim hnone.1 hnone.2)
  rename_i hnone
  -- past all of them there is something to quote
  have hquotable : Quotable q.cfg top position halted := by
    rw [backOff_hasBid, backOff_hasAsk, decide_eq_false_iff_not, decide_eq_false_iff_not] at hnone
    exact ⟨Bool.not_eq_true _ ▸ hhalted, Bool.not_eq_false _ ▸ htwo, Int.not_lt.mp hwide, by tauto⟩
  obtain ⟨hquoting, hlast, hcount⟩ := worthRequoting_kept
    (q := { q with stats := { q.stats with updates := q.stats.updates + 1 } })
    (quoteFor q.cfg top position) nowNs
  split
  · rename_i hkeep
    have hreason := (worthRequoting_reason _ nowNs).resolve_left fun hworth =>
      absurd (hworth.symm.trans hkeep) (by decide)
    exact Or.inr (Or.inl ⟨hquotable, (worthRequoting_stats _ _ _).symm.trans hkeep, hquoting,
      hreason, hlast, hcount⟩)
  · rename_i hworth
    rw [Bool.not_eq_false] at hworth
    exact Or.inr (Or.inr ⟨hquotable, (worthRequoting_stats _ _ _).symm.trans hworth, rfl, rfl, rfl,
      rfl, congrArg (· + 1) hcount⟩)

/-- **One update**, from any state: a quote to be sent takes no liquidity. -/
theorem onTopOfBook_passive (h : (1 : Int) ≤ q.cfg.tickSize) (top : TopOfBook) (position : Int)
    (nowNs : UInt64) (halted : Bool)
    (hr : (q.onTopOfBook top position nowNs halted).decision = .requote) :
    Passive q.cfg top (q.onTopOfBook top position nowNs halted).out := by
  rcases q.onTopOfBook_cases top position nowNs halted with
    ⟨-, -, hholds⟩ | ⟨-, -, -, hholds⟩ | ⟨-, -, hsends⟩
  · exact absurd hr hholds.decision
  · exact absurd hr hholds.decision
  · rw [hsends.out]
    exact backOff_passive h (floor_lt_ceil h _)

@[simp] theorem pullIfQuoting_cfg (reason : QuoteDecision) :
    (q.pullIfQuoting reason).2.cfg = q.cfg := by
  unfold pullIfQuoting
  simp only
  split <;> rfl

@[simp] theorem worthRequoting_cfg (quote : Quote) (nowNs : UInt64) :
    (q.worthRequoting quote nowNs).2.cfg = q.cfg := by
  unfold worthRequoting
  split
  · rfl
  split
  · rfl
  split
  · rfl
  extract_lets threshold dbid dask
  split <;> rfl

@[simp] theorem onTopOfBook_cfg (top : TopOfBook) (position : Int) (nowNs : UInt64)
    (halted : Bool) : (q.onTopOfBook top position nowNs halted).quoter.cfg = q.cfg := by
  unfold onTopOfBook
  simp only
  split
  · simp
  split
  · simp
  split
  · simp
  split
  · simp
  split <;> simp

/-! ## A run of updates

The state a quoter is left in is the state the next update finds. -/

/-- One call of `on_top_of_book`. -/
structure Update where
  top : TopOfBook
  position : Int
  nowNs : UInt64
  halted : Bool
  deriving DecidableEq, Repr

/-- The calls of a run from `q`, each with the answer it got. -/
def answers (q : MicroPriceQuoter) : List Update → List (Update × Answer)
  | [] => []
  | u :: us =>
    let a := q.onTopOfBook u.top u.position u.nowNs u.halted
    (u, a) :: answers a.quoter us

/-- Every answer of a run is an update's, from a quoter of the run's own configuration. -/
theorem answers_update {us : List Update} {u : Update} {a : Answer} (hmem : (u, a) ∈ q.answers us) :
    ∃ q' : MicroPriceQuoter, q'.cfg = q.cfg ∧
      a = q'.onTopOfBook u.top u.position u.nowNs u.halted := by
  induction us generalizing q with
  | nil => cases hmem
  | cons v vs ih =>
    rcases List.mem_cons.mp hmem with heq | hrest
    · cases heq
      exact ⟨q, rfl, rfl⟩
    · obtain ⟨q', hcfg, ha⟩ := ih hrest
      exact ⟨q', hcfg.trans (onTopOfBook_cfg ..), ha⟩

/-- **Quotes never take liquidity.** In a run of updates, any tops and positions, every quote to be
sent is off the book's other side, and its two sides do not meet. -/
theorem quotes_passive {c : QuoteConfig} (h : (1 : Int) ≤ c.tickSize) (us : List Update)
    {u : Update} {a : Answer} (hmem : (u, a) ∈ ({ cfg := c } : MicroPriceQuoter).answers us)
    (hr : a.decision = .requote) : Passive c u.top a.out := by
  obtain ⟨q', hcfg, ha⟩ := answers_update hmem
  subst ha
  have hpassive := onTopOfBook_passive (q := q') (by rw [hcfg]; exact h) u.top u.position u.nowNs
    u.halted hr
  rw [hcfg] at hpassive
  exact hpassive

/-- A crossed market, and a position that pulls the fair value down. -/
def crossed : Update where
  top := { bidPrice := 1000300, bidQty := 200, askPrice := 1000100, askQty := 100 }
  position := 900
  nowNs := 5000000
  halted := false

/-- What a quoter of the defaults answers to it. -/
def crossedAnswer : Answer :=
  ({ cfg := {} } : MicroPriceQuoter).onTopOfBook crossed.top crossed.position crossed.nowNs
    crossed.halted

/-- The bid backs off below the offer, and the offer above the bid. -/
theorem quotes_passive_crossed :
    crossedAnswer.decision = .requote ∧ Passive {} crossed.top crossedAnswer.out := by
  have hr : crossedAnswer.decision = .requote := by decide
  exact ⟨hr, quotes_passive (by decide) [crossed] List.mem_cons_self hr⟩

end MicroPriceQuoter

end Tickerplant
