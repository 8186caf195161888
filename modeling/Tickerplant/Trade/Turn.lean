import Tickerplant.Trade.Kept

/-!
# A turn of the trading loop

The pieces put together: the quotes are cancelled and sent, the fills are drained, and a turn from
any state that keeps the invariant answers and keeps it.

A turn is a chain of calls each of which might not answer, so every lemma here has the same shape:
there is a state that the call answers with, the invariant holds of it, there is room for as many
orders as are still to come, and what the call has no part in is as it was. The next call starts
from that state. What is carried along besides the invariant is the book and the locate, which the
turn reads and does not change.

The quoting rule comes in with two facts of its own: that what it wants sent takes no liquidity
from the book, and that only fills move its position.
-/

set_option autoImplicit false

namespace Tickerplant

open Lib RiskEngine

namespace MicroPriceQuoter

variable {q : MicroPriceQuoter}

/-- A pull moves no position. -/
@[simp] theorem pullIfQuoting_position (reason : QuoteDecision) :
    (q.pullIfQuoting reason).2.position = q.position := by
  unfold pullIfQuoting
  simp only
  split <;> rfl

/-- Nor does asking whether a quote is worth a message. -/
@[simp] theorem worthRequoting_position (quote : Quote) (nowNs : UInt64) :
    (q.worthRequoting quote nowNs).2.position = q.position := by
  unfold worthRequoting
  split
  · rfl
  split
  · rfl
  split
  · rfl
  extract_lets threshold dbid dask
  split <;> rfl

/-- Only fills move the position. -/
@[simp] theorem onTopOfBook_position (top : TopOfBook) (position : Int) (nowNs : UInt64)
    (halted : Bool) : (q.onTopOfBook top position nowNs halted).quoter.position = q.position := by
  unfold onTopOfBook
  simp only
  split
  · simp
  split
  · simp
  split
  · simp
  split
  · simp
  split <;> simp

end MicroPriceQuoter

namespace TradeLoop

variable {E L P : Type} [MatchingEngine E] [LawfulMatchingEngine E] [PriceLevel L] [MemoryPool P]
  {opt : TradeOptions} {loc : UInt16} {fills : List Fill} {s : TradeLoop E L P} {a b : ℕ}

/-! ## Quotes are replaced

Both sides are cancelled first, so that at the venue no quote of ours waits beside its successor.
-/

omit [PriceLevel L] [MemoryPool P] in
/-- **A quote is replaced**: the one that stands is cancelled, and its sides are sent or refused. -/
theorem Kept.requote (h : Kept opt loc s.venue.fills s)
    (hlimit : 0 ≤ opt.limits.maxPositionShares.toInt ∧
      opt.limits.maxPositionShares.toInt ≤ 2 ^ 62)
    (hroom : Room (a + 2) b s) (top : TopOfBook) (want : Quote) (t : Clock)
    (hpassive : 1 ≤ opt.quote.tickSize → Passive opt.quote top want) :
    ∃ s', s.requote opt loc top want t = some s' ∧ Kept opt loc s'.venue.fills s' ∧
      Room a b s' ∧ Stays s s' := by
  obtain ⟨h₁, hroom₁, hfills₁, hstays₁⟩ := h.cancelLive hroom .buy
  obtain ⟨h₂, hroom₂, hfills₂, hstays₂⟩ := h₁.cancelLive hroom₁ .sell
  let s₂ := (s.cancelLive opt .buy).cancelLive opt .sell
  rw [← hfills₁, ← hfills₂] at h₂
  -- each side takes a number and a token if it is sent, and none if it is not
  obtain ⟨s₃, hbid, h₃, hroom₃, hstays₃⟩ : ∃ s₃,
      (if want.hasBid then s₂.send opt loc top (t.send .buy) .buy want.bid want.bidQty
        else some s₂) = some s₃ ∧
      Kept opt loc s₃.venue.fills s₃ ∧ Room (a + 1) b s₃ ∧ Stays s₂ s₃ := by
    split
    case isTrue hhas =>
      exact h₂.send hlimit hroom₂ top _ .buy _ _ fun ht => (hpassive ht).bid hhas
    case isFalse => exact ⟨s₂, rfl, h₂, hroom₂.mono (by omega) (Nat.le_refl _), Stays.refl s₂⟩
  obtain ⟨s₄, hask, h₄, hroom₄, hstays₄⟩ : ∃ s₄,
      (if want.hasAsk then s₃.send opt loc top (t.send .sell) .sell want.ask want.askQty
        else some s₃) = some s₄ ∧
      Kept opt loc s₄.venue.fills s₄ ∧ Room a b s₄ ∧ Stays s₃ s₄ := by
    split
    case isTrue hhas =>
      exact h₃.send hlimit hroom₃ top _ .sell _ _ fun ht => (hpassive ht).ask hhas
    case isFalse => exact ⟨s₃, rfl, h₃, hroom₃.mono (by omega) (Nat.le_refl _), Stays.refl s₃⟩
  refine ⟨s₄, ?_, h₄, hroom₄, ((hstays₁.trans hstays₂).trans hstays₃).trans hstays₄⟩
  rw [TradeLoop.requote]
  exact (congrArg (Option.bind · _) hbid).trans hask

/-! ## The rule is asked

What it answers is a pull, a quote, or nothing to do. -/

omit [PriceLevel L] [MemoryPool P] in
/-- The rule and the stamps move on. -/
theorem Kept.asked (h : Kept opt loc fills s) {quoter : MicroPriceQuoter}
    (hposition : quoter.position = s.quoter.position) (hcfg : quoter.cfg = s.quoter.cfg)
    (bookTs : UInt64) (updates : ℕ) : Kept opt loc fills { s with
      bookTs := bookTs, quoter := quoter, run := { s.run with quoteUpdates := updates } } :=
  { h with
    owns := hposition.trans h.owns
    cfg := hcfg.trans h.cfg }

omit [MemoryPool P] in
/-- **The rule's decision** is carried out. -/
theorem Kept.decideQuote (h : Kept opt loc s.venue.fills s)
    (hlimit : 0 ≤ opt.limits.maxPositionShares.toInt ∧
      opt.limits.maxPositionShares.toInt ≤ 2 ^ 62)
    (hroom : Room (a + 2) b s) (t : Clock) :
    ∃ s', s.decideQuote opt loc t = some s' ∧ Kept opt loc s'.venue.fills s' ∧ Room a b s' ∧
      s'.book = s.book ∧ s'.locate = s.locate := by
  unfold TradeLoop.decideQuote
  extract_lets top answer run s₁
  have h₁ : Kept opt loc s₁.venue.fills s₁ :=
    h.asked (MicroPriceQuoter.onTopOfBook_position ..) (MicroPriceQuoter.onTopOfBook_cfg ..) _ _
  have hroom₁ : Room (a + 2) b s₁ := ⟨hroom.ids, hroom.counter, hroom.base, hroom.market⟩
  split
  case isTrue =>
    obtain ⟨h₂, hroom₂, hfills₂, hstays₂⟩ := h₁.cancelLive hroom₁ .buy
    obtain ⟨h₃, hroom₃, hfills₃, hstays₃⟩ := h₂.cancelLive hroom₂ .sell
    rw [← hfills₂, ← hfills₃] at h₃
    have hstays := hstays₂.trans hstays₃
    exact ⟨_, rfl, h₃, hroom₃.mono (by omega) (Nat.le_refl _), hstays.book, hstays.locate⟩
  case isFalse =>
    split
    case isTrue hrequote =>
      -- the quote takes no liquidity from the top the rule was asked about, which is the one it is
      -- sent with
      have hpassive (ht : 1 ≤ opt.quote.tickSize) : Passive opt.quote top answer.out := by
        rw [← h.cfg] at ht ⊢
        exact MicroPriceQuoter.onTopOfBook_passive ht _ _ _ _ hrequote
      obtain ⟨s', hs', h', hroom', hstays⟩ := h₁.requote hlimit hroom₁ top answer.out t hpassive
      exact ⟨s', hs', h', hroom', hstays.book, hstays.locate⟩
    case isFalse =>
      exact ⟨_, rfl, h₁, hroom₁.mono (by omega) (Nat.le_refl _), rfl, rfl⟩

/-! ## The fills are drained

The fills that the market left are booked one by one, and then forgotten. -/

omit [PriceLevel L] [MemoryPool P] in
/-- All of them, from the front: those that are left are still to be accounted for. -/
theorem Kept.bookFills (hlimit : 0 ≤ opt.limits.maxPositionShares.toInt ∧
      opt.limits.maxPositionShares.toInt ≤ 2 ^ 62) :
    ∀ {fills : List Fill} {s : TradeLoop E L P}, Kept opt loc fills s → Room a b s →
      ∃ s', fills.foldlM TradeLoop.bookFill s = some s' ∧ Kept opt loc [] s' ∧ Room a b s' ∧
        s'.book = s.book ∧ s'.locate = s.locate := by
  intro fills
  induction fills with
  | nil => exact fun {s} h hroom => ⟨s, rfl, h, hroom, rfl, rfl⟩
  | cons f fills ih =>
    intro s h hroom
    obtain ⟨s₁, hs₁, h₁, hroom₁, hbook₁, hlocate₁, -⟩ := h.bookFill hlimit hroom
    obtain ⟨s₂, hs₂, h₂, hroom₂, hbook₂, hlocate₂⟩ := ih h₁ hroom₁
    refine ⟨s₂, ?_, h₂, hroom₂, hbook₂.trans hbook₁, hlocate₂.trans hlocate₁⟩
    rw [List.foldlM_cons, hs₁]
    exact hs₂

omit [PriceLevel L] [MemoryPool P] in
/-- Then there are none. -/
theorem Kept.drain (h : Kept opt loc s.venue.fills s)
    (hlimit : 0 ≤ opt.limits.maxPositionShares.toInt ∧
      opt.limits.maxPositionShares.toInt ≤ 2 ^ 62) (hroom : Room a b s) :
    ∃ s', s.drain = some s' ∧ Kept opt loc [] s' ∧ s'.venue.fills = [] ∧ Room a b s' ∧
      s'.book = s.book ∧ s'.locate = s.locate := by
  obtain ⟨s₁, hs₁, h₁, hroom₁, hbook, hlocate⟩ := Kept.bookFills hlimit h hroom
  exact ⟨_, congrArg (Option.map _) hs₁, { h₁ with ours := ⟨h₁.ours.ids, h₁.ours.pos,
    h₁.ours.apart, h₁.ours.shares⟩ }, rfl,
    ⟨hroom₁.ids, hroom₁.counter, hroom₁.base, hroom₁.market⟩, hbook, hlocate⟩

/-! ## The turn

A halt is heard, the market trades, the rule is asked, and the fills are drained. -/

omit [MatchingEngine E] [LawfulMatchingEngine E] [PriceLevel L] [MemoryPool P] in
/-- A halt is of no account to the book and the venue. -/
theorem hear_frame (s : TradeLoop E L P) (loc : UInt16) (type : UInt8) :
    (s.hear loc type).book = s.book ∧ (s.hear loc type).locate = s.locate ∧
      (s.hear loc type).venue = s.venue ∧ (s.hear loc type).nextOurId = s.nextOurId ∧
      (s.hear loc type).tokens = s.tokens := by
  unfold TradeLoop.hear
  split <;> exact ⟨rfl, rfl, rfl, rfl, rfl⟩

omit [LawfulMatchingEngine E] [MemoryPool P] in
/-- The market trades at the venue, and the book is of the feed. -/
theorem market_frame (opt : TradeOptions) (s : TradeLoop E L P) (loc : UInt16) (type : UInt8) :
    (s.market opt loc type).book = s.book ∧ (s.market opt loc type).locate = s.locate := by
  unfold TradeLoop.market
  extract_lets t venue
  split <;> exact ⟨rfl, rfl⟩

omit [MemoryPool P] in
/-- **A turn** answers, and keeps what the loop keeps. -/
theorem Kept.turn (h : Kept opt loc [] s) (hfills : s.venue.fills = [])
    (hlimit : 0 ≤ opt.limits.maxPositionShares.toInt ∧
      opt.limits.maxPositionShares.toInt ≤ 2 ^ 62)
    (hroom : Room (a + 2) (b + 2) s) (type : UInt8) (t : Clock) :
    ∃ s', s.turn opt loc type t = some s' ∧ Kept opt loc [] s' ∧ s'.venue.fills = [] ∧
      Room a b s' ∧ s'.book = s.book ∧ s'.locate = s.locate := by
  obtain ⟨hbook₁, hlocate₁, hvenue₁, hids₁, htokens₁⟩ := hear_frame s loc type
  obtain ⟨hbook₂, hlocate₂⟩ := market_frame opt (s.hear loc type) loc type
  have h₁ := h.hear type
  have hroom₁ : Room (a + 2) (b + 2) (s.hear loc type) :=
    ⟨hids₁ ▸ hroom.ids, htokens₁ ▸ hroom.counter, hvenue₁ ▸ hroom.base, hvenue₁ ▸ hroom.market⟩
  rw [← hfills, ← hvenue₁] at h₁
  -- the fills of the market are those that are to be drained at the end of the turn
  obtain ⟨h₂, hroom₂⟩ := h₁.market hroom₁ type
  obtain ⟨s₃, hs₃, h₃, hroom₃, hbook₃, hlocate₃⟩ := h₂.decideQuote hlimit hroom₂ t
  obtain ⟨s₄, hs₄, h₄, hfills₄, hroom₄, hbook₄, hlocate₄⟩ := h₃.drain hlimit hroom₃
  refine ⟨s₄, ?_, h₄, hfills₄, hroom₄,
    hbook₄.trans (hbook₃.trans (hbook₂.trans hbook₁)),
    hlocate₄.trans (hlocate₃.trans (hlocate₂.trans hlocate₁))⟩
  rw [TradeLoop.turn, hs₃]
  exact hs₄

end TradeLoop
end Tickerplant
