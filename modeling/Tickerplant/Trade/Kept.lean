import Tickerplant.Trade.Accounts

/-!
# What a turn of the trading loop keeps

`Kept` is the loop's invariant, with the fills that are still to be drained beside it. Each section
takes one of the things a turn does, in the order the turn does them; `Kept.turn` puts them
together.

Its clauses are there for three ends. The accounts (`gate`, `accounts`, `owns`, `shares`, `orders`)
are what the position and the counters come from. The venue (`ours`, `priced`, `alone`) is what
keeps our orders from each other: the gate stops an order that would reach one of ours only as far
as it remembers the best price of the side, and `priced` says that it does for as long as something
rests there. The wire (`count`, `wire`, `fit`, `rested`, `fresh`, `made`) ties what was decided to
the bytes that left and to what the venue was asked for. `named` serves all three: a token that
came back would let a fill of one order be booked to another.

The numbers of our orders stay below those of the market, and the tokens within their width, for as
long as there is room for two more orders in every turn that is left (`Room`). Without it a number
could come round and be taken for the market's.
-/

set_option autoImplicit false

namespace Tickerplant

open Lib RiskEngine

/-- What has left met every limit there is on one order, against a market of two sides no older
than allowed, takes no liquidity from it, and is on the wire as it was decided. -/
structure SentOrder.Fit (opt : TradeOptions) (x : SentOrder) : Prop where
  size : x.request.shares ≠ 0 ∧ x.request.shares ≤ opt.limits.maxOrderShares
  price : 0 < x.request.price
  money : notional x.request ≤ opt.limits.maxOrderNotional
  fresh : stale (make opt.limits) x.request = false
  twoSided : x.request.book.twoSided = true
  near : fatFinger (make opt.limits) x.request = false
  /-- The offer of the book is above a bid of ours, and its bid below an offer. -/
  passive : 1 ≤ opt.quote.tickSize →
    if x.request.side = .buy then x.request.price < x.request.book.askPrice
    else x.request.book.bidPrice < x.request.price
  /-- What left is the order that was decided on, in full. -/
  decodes : Ouch.decodeEnterOrder x.bytes = .ok (some (TradeLoop.enterOrder opt x.request))

/-- What the venue is asked to rest. -/
def SentOrder.rests (x : SentOrder) : Side × Price × Quantity :=
  (x.request.side, x.request.price, x.request.shares)

/-- What it was asked to rest. -/
def Submission.rests (x : Submission) : Side × Price × Quantity := (x.side, x.price, x.quantity)

namespace TradeLoop

variable {E L P : Type}

/-- Numbers are left for so many orders of ours and so many of the market's. -/
structure Room (ours market : ℕ) (s : TradeLoop E L P) : Prop where
  /-- Our numbers do not get to the market's. -/
  ids : s.nextOurId.toNat + ours ≤ 2 ^ 40
  /-- Eleven digits are enough for every token to come. -/
  counter : s.tokens.counter.toNat + ours ≤ 2 ^ 40
  /-- The market's start where ours end. -/
  base : kMarketIdBase ≤ s.venue.nextMarketId
  /-- And do not come round. -/
  market : s.venue.nextMarketId.toNat + market ≤ 2 ^ 41

section Room

variable {s : TradeLoop E L P} {a b : ℕ}

/-- With room for one, the next number is ours. -/
theorem Room.below (h : Room (a + 1) b s) : s.nextOurId < kMarketIdBase := by
  have hids := h.ids
  have hbase : kMarketIdBase.toNat = 2 ^ 40 := rfl
  rw [UInt64.lt_iff_toNat_lt, hbase]
  omega

/-- The numbers that rest are below the market's. -/
theorem Room.le (h : Room a b s) : s.nextOurId ≤ kMarketIdBase := by
  have hids := h.ids
  have hbase : kMarketIdBase.toNat = 2 ^ 40 := rfl
  rw [UInt64.le_iff_toNat_le, hbase]
  omega

/-- Room for more is room for fewer. -/
theorem Room.mono {a' b' : ℕ} (h : Room a b s) (ha : a' ≤ a) (hb : b' ≤ b) : Room a' b' s := by
  have hids := h.ids
  have hcounter := h.counter
  have hmarket := h.market
  exact ⟨by omega, by omega, h.base, by omega⟩

end Room

variable [MatchingEngine E] [LawfulMatchingEngine E]

/-- **What the loop keeps**, `fills` being those it has yet to drain. -/
structure Kept (opt : TradeOptions) (loc : UInt16) (fills : List Fill) (s : TradeLoop E L P) :
    Prop where
  /-- The gate is in order. -/
  gate : Gate opt.limits loc s.risk
  /-- The venue has orders of ours only, none of which could trade with another. -/
  ours : s.venue.Ours opt.symbol s.nextOurId
  /-- The gate's account and the venue's are no further apart than they may be. -/
  accounts : Accounts loc s.venue.tape fills s.risk
  /-- The gate remembers a price at least as good as any that rests. -/
  priced : Priced loc (s.venue.resting opt.symbol) s.risk
  /-- A fill cannot be booked to an order of the other side. -/
  named : Named s.tokens s.live s.risk
  /-- The rule's position lags the venue's by the fills not drained. -/
  owns : s.quoter.position =
    tapePosition s.venue.tape - (pendingOn true fills - pendingOn false fills : ℤ)
  /-- And so does the count of shares. -/
  shares : s.run.filledShares + (pendingOn true fills + pendingOn false fills) =
    filledOn true s.venue.tape + filledOn false s.venue.tape
  /-- The rule quotes by the options' settings. -/
  cfg : s.quoter.cfg = opt.quote
  /-- No order of ours has traded when it came. -/
  alone : ∀ x ∈ s.venue.tape, x.id < kMarketIdBase → x.trades = []
  /-- An order the gate has let out is open there, or was taken off by a fill. -/
  orders : s.run.ordersSent ≤ s.risk.table.held.card + s.run.fills
  count : s.run.ordersSent = s.sent.length
  /-- The buffer has room for an order. -/
  wire : s.wire.length = 256
  fit : ∀ x ∈ s.sent, x.Fit opt
  /-- What left is what the venue was asked to rest, in the same order. -/
  rested : (s.venue.tape.filter fun x => x.id < kMarketIdBase).map Submission.rests =
    s.sent.map SentOrder.rests
  /-- No token was used twice. -/
  fresh : (s.sent.map (·.request.token)).Nodup
  made : ∀ x ∈ s.sent, Made s.tokens x.request.token
  /-- The table of the book answers every search. -/
  book : s.book.orders.Wf splitMix64

variable {opt : TradeOptions} {loc : UInt16} {fills : List Fill} {s : TradeLoop E L P} {a b : ℕ}

/-- The gate has an order open on every side where one of ours rests. -/
theorem Kept.open (h : Kept opt loc fills s) {x : LimitOrder UInt64 Price}
    (hx : x ∈ s.venue.resting opt.symbol) :
    ∃ y ∈ s.risk.table.held, y.locate = loc ∧ y.isBuy = x.isBuy := by
  refine exists_held fun hzero => ?_
  have hshares := h.ours.shares x.isBuy
  -- what rests and what has traded is no more than was sent, so the gate counts it as working
  have hfilled := h.accounts.filled x.isBuy
  rw [hzero] at hfilled
  exact side_empty h.ours.pos (by omega) x hx rfl

/-- The gate counts an order there. -/
theorem Kept.working (h : Kept opt loc fills s) :
    ∀ x ∈ s.venue.resting opt.symbol, (s.risk.symbols loc).workingOrders x.isBuy ≠ 0 := by
  intro x hx
  obtain ⟨y, hy, hloc, hside⟩ := h.open hx
  have horders := h.gate.books.orders_ne_zero hy
  rwa [hloc, hside] at horders

/-! ## The gate hears of the feed

A halt sets a flag, of the loop and of the gate. -/

/-- Flags and counters of the gate are of no account. -/
theorem Kept.alike (h : Kept opt loc fills s) {risk : RiskEngine} (ha : Alike s.risk risk) :
    Kept opt loc fills { s with risk := risk } :=
  { h with
    gate := h.gate.alike ha
    accounts := h.accounts.alike ha
    priced := h.priced.alike ha
    named := h.named.alike ha
    orders := by
      show s.run.ordersSent ≤ risk.table.held.card + _
      rw [ha.table]
      exact h.orders }

/-- So a halt is heard. -/
theorem Kept.hear (h : Kept opt loc fills s) (type : UInt8) :
    Kept opt loc fills (s.hear loc type) := by
  unfold TradeLoop.hear
  split
  case isTrue =>
    have ha : Alike s.risk
        (s.risk.onTradingAction loc (s.book.symbols.entries loc).tradingState) := by
      refine alike_setSymbol _ _ (fun s b => ?_) (fun s b => ?_) (fun s b => ?_) fun s => rfl <;>
        cases b <;> rfl
    exact { h.alike ha with }
  case isFalse => exact h

/-! ## The market trades

What it takes is on the tape at once, and with the gate and the rule when its fills are drained.
Until then the fills make up the difference. -/

/-- The two aggressors take from our orders what is recorded, and the gate has yet to hear. -/
theorem Kept.marketTraded (h : Kept opt loc s.venue.fills s) (hroom : Room a (b + 1) s)
    (side : Side) (price : Price) (quantity : Quantity) :
    let s' := { s with venue := s.venue.marketTraded opt.symbol side price quantity }
    Kept opt loc s'.venue.fills s' ∧ Room a b s' := by
  intro s'
  obtain ⟨hours, hwithin, hnext, hmoved⟩ :=
    h.ours.market hroom.le hroom.base side price quantity s'.venue rfl
  have hmarket := hroom.market
  have hsucc : s'.venue.nextMarketId.toNat = s.venue.nextMarketId.toNat + 1 := by
    rw [hnext, UInt64.toNat_add, show (1 : UInt64).toNat = 1 from rfl, Nat.mod_eq_of_lt (by omega)]
  obtain ⟨hbuy, n, hbuys, hbuys'⟩ := hmoved true
  obtain ⟨hsell, m, hsells, hsells'⟩ := hmoved false
  have htape : s'.venue.tape = ⟨s.venue.nextMarketId, side, .immediateOrCancel, price, quantity,
      (MatchingEngine.submit s.venue.engine s.venue.nextMarketId opt.symbol side
        .immediateOrCancel price quantity).1⟩ :: s.venue.tape := rfl
  have hnot : ¬s.venue.nextMarketId < kMarketIdBase := UInt64.not_lt.mpr hroom.base
  -- one clause for each account that a trade moves
  refine ⟨{ h with
    ours := hours
    accounts := ⟨fun b => ?_, fun b => ?_, ?_⟩
    priced := fun x hx => ?_
    owns := ?_
    shares := ?_
    alone := ?_
    rested := ?_ }, hroom.ids, hroom.counter, ?_, by omega⟩
  · rw [(hmoved b).1]
    exact h.accounts.working b
  · obtain ⟨hsent, k, hfilled, hpending⟩ := hmoved b
    have hle := h.accounts.filled b
    rw [hsent, hfilled, hpending]
    show _ ≤ workingOf s.risk.table.held loc b + _
    omega
  · rw [hbuy, hsell]
    exact h.accounts.position
  · obtain ⟨y, hy, -, hside, hprice⟩ := hwithin x hx
    have hbehind := h.priced y hy
    rwa [hside, hprice] at hbehind
  · have howns := h.owns
    rw [tapePosition] at howns ⊢
    rw [hbuys, hsells, hbuys', hsells']
    show s.quoter.position = _
    push_cast
    omega
  · have hshares := h.shares
    rw [hbuys, hsells, hbuys', hsells']
    show s.run.filledShares + _ = _
    omega
  · rw [htape]
    intro x hx hid
    rcases List.mem_cons.mp hx with rfl | hx
    · exact absurd hid hnot
    · exact h.alone x hx hid
  · rw [htape, List.filter_cons_of_neg (by simpa using hnot)]
    exact h.rested
  · rw [UInt64.le_iff_toNat_le, hsucc]
    exact Nat.le_succ_of_le (UInt64.le_iff_toNat_le.mp hroom.base)

/-- An aggressor comes from each side, if the market traded. -/
theorem Kept.market [PriceLevel L] (h : Kept opt loc s.venue.fills s) (hroom : Room a (b + 2) s)
    (type : UInt8) :
    Kept opt loc (s.market opt loc type).venue.fills (s.market opt loc type) ∧
      Room a b (s.market opt loc type) := by
  unfold TradeLoop.market
  extract_lets t venue
  split
  case isTrue =>
    obtain ⟨h₁, hroom₁⟩ := h.marketTraded hroom .buy t.mid 100
    exact h₁.marketTraded hroom₁ .sell t.mid 100
  case isFalse =>
    exact ⟨h, hroom.ids, hroom.counter, hroom.base, by have := hroom.market; omega⟩

/-! ## Quotes are cancelled

The venue drops the order and the loop its number. The gate keeps its shares, and the side its
token. -/

/-- What cancelling and sending leave alone. -/
structure Stays (s s' : TradeLoop E L P) : Prop where
  book : s'.book = s.book
  quoter : s'.quoter = s.quoter
  locate : s'.locate = s.locate
  halted : s'.halted = s.halted

omit [MatchingEngine E] [LawfulMatchingEngine E] in
/-- Nothing has happened. -/
theorem Stays.refl (s : TradeLoop E L P) : Stays s s := ⟨rfl, rfl, rfl, rfl⟩

omit [MatchingEngine E] [LawfulMatchingEngine E] in
/-- One call after another. -/
theorem Stays.trans {s s' s'' : TradeLoop E L P} (h : Stays s s') (h' : Stays s' s'') :
    Stays s s'' :=
  ⟨h'.book.trans h.book, h'.quoter.trans h.quoter, h'.locate.trans h.locate,
    h'.halted.trans h.halted⟩

/-- **A quote is taken back**, if one stands. -/
theorem Kept.cancelLive (h : Kept opt loc fills s) (hroom : Room a b s) (side : Side) :
    Kept opt loc fills (s.cancelLive opt side) ∧ Room a b (s.cancelLive opt side) ∧
      (s.cancelLive opt side).venue.fills = s.venue.fills ∧ Stays s (s.cancelLive opt side) := by
  unfold TradeLoop.cancelLive
  extract_lets live
  split
  case isTrue => exact ⟨h, hroom, rfl, Stays.refl s⟩
  case isFalse =>
    obtain ⟨hours, hwithin, hnext, hfills, htape⟩ := h.ours.cancel live.id
      (s.venue.cancel opt.symbol live.id) rfl
    -- the token stays, for a fill of the order may still come
    have htoken (sd : Side) : (Function.update s.live side { live with id := 0 } sd).token =
        (s.live sd).token := by
      rw [Function.update_apply]
      split
      case isTrue heq => rw [heq]
      case isFalse => rfl
    refine ⟨{ h with
      ours := hours
      accounts := htape ▸ h.accounts
      priced := fun x hx => ?_
      named := ⟨h.named.chars, h.named.held, fun sd => ?_, fun o ho sd hsd => ?_⟩
      owns := htape ▸ h.owns
      shares := htape ▸ h.shares
      alone := htape ▸ h.alone
      rested := htape ▸ h.rested }, ⟨hroom.ids, hroom.counter, hnext ▸ hroom.base,
        hnext ▸ hroom.market⟩, hfills, rfl, rfl, rfl, rfl⟩
    · obtain ⟨y, hy, -, hside, hprice⟩ := hwithin x hx
      have hbehind := h.priced y hy
      rwa [hside, hprice] at hbehind
    · rw [htoken]
      exact h.named.live sd
    · rw [htoken] at hsd
      exact h.named.side o ho sd hsd

/-! ## Tokens

The generator renders its counter in eleven digits after the prefix, so a token is as good as the
number it was made from. -/

section Tokens

open Ouch.TokenGenerator

variable {g : Ouch.TokenGenerator} {token : Ouch.Token}

/-- A generator of the loop that has room renders its counter, and keeps its prefix. -/
theorem next_render (hchars : g.prefixChars = tokenPrefix) (hroom : g.counter.toNat < 2 ^ 40) :
    g.next.1 = g.render g.counter ∧ g.next.2.counter.toNat = g.counter.toNat + 1 := by
  have hdigits : g.digits = 11 := by
    rw [Ouch.TokenGenerator.digits, prefixLen, hchars]
    rfl
  -- the counter is short of the width, so it does not start over
  have hwidth : g.pastWidth = false := by
    rw [pastWidth, capacity, hdigits, Bool.and_eq_false_iff, decide_eq_false_iff_not]
    refine .inr fun hle => ?_
    have hle := UInt64.le_iff_toNat_le.mp hle
    rw [pow36_toNat, if_pos (by decide)] at hle
    omega
  refine ⟨by rw [next, hwidth, if_neg Bool.false_ne_true], ?_⟩
  show (g.counter + 1).toNat = _
  rw [UInt64.toNat_add, show (1 : UInt64).toNat = 1 from rfl, Nat.mod_eq_of_lt (by omega)]

/-- What was made was made before. -/
theorem Made.next (h : Made g token) (hchars : g.prefixChars = tokenPrefix)
    (hroom : g.counter.toNat < 2 ^ 40) : Made g.next.2 token := by
  obtain ⟨v, hv, heq⟩ := h
  refine ⟨v, ?_, heq⟩
  rw [(next_render hchars hroom).2]
  exact Nat.lt_succ_of_lt hv

/-- The token that comes next is one that was made then. -/
theorem made_next (hchars : g.prefixChars = tokenPrefix) (hroom : g.counter.toNat < 2 ^ 40) :
    Made g.next.2 g.next.1 := by
  obtain ⟨hrender, hcounter⟩ := next_render hchars hroom
  exact ⟨g.counter, by omega, hrender⟩

/-- A new token is none of those that were made. -/
theorem Made.ne (h : Made g token) (hchars : g.prefixChars = tokenPrefix)
    (hroom : g.counter.toNat < 2 ^ 40) : token ≠ g.next.1 := by
  obtain ⟨v, hv, rfl⟩ := h
  have hdigits : g.digits = 11 := by
    rw [Ouch.TokenGenerator.digits, prefixLen, hchars]
    rfl
  rw [(next_render hchars hroom).1]
  intro heq
  -- tokens go up with the counter
  have hlex := render_lt g hv (by rw [hdigits]; omega)
  rw [heq] at hlex
  exact lex_irrefl _ hlex

/-- A side that has sent nothing goes by a token that is never made. -/
theorem blank_ne (hchars : g.prefixChars = tokenPrefix) (v : UInt64) :
    alpha Ouch.kTokenLen [] ≠ g.render v := by
  intro heq
  have hfirst := congrArg (fun t : Ouch.Token => t.chars.head?) heq
  have hblank : (alpha Ouch.kTokenLen []).chars.head? = some 0x20 := by decide
  have hprefix (rest : List UInt8) : (tokenPrefix ++ rest).head? = some 'T'.toUInt8 := rfl
  simp only [chars_render, hchars] at hfirst
  rw [hblank, hprefix] at hfirst
  exact absurd hfirst (by decide)

end Tokens

/-- The generator moves on. -/
theorem Kept.next (h : Kept opt loc fills s) (hroom : Room (a + 1) b s) :
    Kept opt loc fills { s with tokens := s.tokens.next.2 } := by
  have hcounter := hroom.counter
  have hmade {token : Ouch.Token} (ht : Made s.tokens token) : Made s.tokens.next.2 token :=
    ht.next h.named.chars (by omega)
  exact { h with
    named := ⟨h.named.chars, fun o ho => hmade (h.named.held o ho),
      fun side => (h.named.live side).imp_right hmade, h.named.side⟩
    made := fun x hx => hmade (h.made x hx) }

/-! ## An order is sent

It is put to the gate. If it passes it is encoded, sent, and rests. -/

/-- The bytes of an order decode to it. -/
theorem encode_enter {wire : List UInt8} (hwire : wire.length = 256) (o : Ouch.EnterOrder) :
    ∃ wire', Ouch.encodeEnterOrder wire o = .ok (Ouch.In.Enter.kLen, wire') ∧
      wire'.length = 256 ∧
      Ouch.decodeEnterOrder (wire'.take Ouch.In.Enter.kLen) = .ok (some o) := by
  have hlen := Ouch.enterOrder_inverse.length_bytes o
  have htake : (fill wire o.bytes).take Ouch.In.Enter.kLen = o.bytes := by
    rw [fill, ← hlen, List.take_left]
  refine ⟨fill wire o.bytes, Ouch.enterOrder_inverse.encodes wire o ?_, ?_, ?_⟩
  · rw [hwire]
    decide
  · rw [fill, List.length_append, List.length_drop, hlen, hwire]
    decide
  · have hdecodes := Ouch.enterOrder_inverse.decodes o []
    rwa [List.append_nil, ← htake] at hdecodes

omit [LawfulMatchingEngine E] in
/-- Every order that is placed goes out, whole. -/
theorem place_goes (s : TradeLoop E L P) (opt : TradeOptions)
    (hlen : s.wire.length = 256) (r : OrderRequest) :
    ∃ wire, wire.length = 256 ∧
      Ouch.decodeEnterOrder (wire.take Ouch.In.Enter.kLen) = .ok (some (enterOrder opt r)) ∧
      s.place opt r = some { s with
        wire := wire
        risk := s.risk.onOrderSent r
        live := Function.update s.live r.side { id := s.nextOurId, token := r.token }
        nextOurId := s.nextOurId + 1
        venue := s.venue.submit s.nextOurId opt.symbol r.side r.price r.shares
        run := { s.run with ordersSent := s.run.ordersSent + 1 }
        sent := { request := r, bytes := wire.take Ouch.In.Enter.kLen } :: s.sent } := by
  obtain ⟨wire, hencode, hwire, hdecode⟩ := encode_enter hlen (enterOrder opt r)
  refine ⟨wire, hwire, hdecode, ?_⟩
  rw [TradeLoop.place, hencode]
  rfl

/-- Every order that is placed rests, and every account of it is opened. -/
theorem Kept.place (h : Kept opt loc s.venue.fills s)
    (hlimit : 0 ≤ opt.limits.maxPositionShares.toInt ∧
      opt.limits.maxPositionShares.toInt ≤ 2 ^ 62)
    (hid : s.nextOurId < kMarketIdBase) {r : OrderRequest}
    (hp : Passes s.risk r) (hloc : r.locate = loc) (hmade : Made s.tokens r.token)
    (hnew : ∀ x ∈ s.sent, x.request.token ≠ r.token)
    (hother : ∀ side, (s.live side).token ≠ r.token)
    (hfit : ∀ x : SentOrder, x.request = r →
      Ouch.decodeEnterOrder x.bytes = .ok (some (enterOrder opt r)) → x.Fit opt) :
    ∃ s', s.place opt r = some s' ∧ Kept opt loc s'.venue.fills s' ∧ Stays s s' ∧
      s'.tokens = s.tokens ∧ s'.nextOurId = s.nextOurId + 1 ∧
      s'.venue.nextMarketId = s.venue.nextMarketId := by
  obtain ⟨wire, hwire, hdecode, hplace⟩ := s.place_goes opt h.wire r
  have hno := hp.absent h.gate.books.wf
  have hopen := UInt32.lt_iff_toNat_lt.mp hp.room
  have hcount := h.gate.books.count
  have hsize := h.gate.books.size
  obtain ⟨-, hpl⟩ := onOrderSent_placed h.gate.books.wf hno (by omega)
  have hside : r.side.isBid = r.isBuy := by
    rw [OrderRequest.isBuy]
    cases r.side <;> rfl
  obtain ⟨hours, hnext, hfills, htape, hrest⟩ := h.ours.submit hid r.side r.price hp.size.1
    (hside ▸ h.priced.nobody h.working hloc hp) (s.venue.submit s.nextOurId opt.symbol r.side
      r.price r.shares) rfl
  -- the gate has one order more
  have hcard := hpl.card hno
  -- the venue's tape is the old one behind a submission without trades
  refine ⟨_, hplace, { h with
    gate := h.gate.placed hlimit hp hloc hpl
    ours := hours
    accounts := ?_
    priced := h.priced.placed h.working hloc hpl hside rfl hrest
    named := h.named.placed hno hpl hmade hside hother _
    owns := ?_
    shares := ?_
    alone := ?_
    orders := ?_
    count := congrArg (· + 1) h.count
    wire := hwire
    fit := List.forall_mem_cons.mpr ⟨hfit _ rfl hdecode, h.fit⟩
    rested := ?_
    fresh := List.nodup_cons.mpr ⟨?_, h.fresh⟩
    made := List.forall_mem_cons.mpr ⟨hmade, h.made⟩ }, ⟨rfl, rfl, rfl, rfl⟩, rfl, rfl, hnext⟩
  -- the order is on the tape, and is open at the gate
  · simp only [hfills, htape]
    refine h.accounts.placed hno hloc hpl (fun b => ?_) (Venue.filled_of_quiet rfl)
    rw [Submission.sent, hside]
    simp only [hid, true_and]
  · simp only [hfills, htape]
    rw [Venue.tapePosition_quiet rfl]
    exact h.owns
  · simp only [hfills, htape]
    rw [Venue.filledOn_quiet rfl, Venue.filledOn_quiet rfl]
    exact h.shares
  · simp only [htape]
    exact List.forall_mem_cons.mpr ⟨fun _ => rfl, h.alone⟩
  · rw [hcard]
    have horders := h.orders
    show s.run.ordersSent + 1 ≤ s.risk.table.held.card + 1 + s.run.fills
    omega
  · rw [htape, List.filter_cons_of_pos (by simpa using hid), List.map_cons, List.map_cons,
      h.rested]
    rfl
  · intro hin
    obtain ⟨x, hx, heq⟩ := List.mem_map.mp hin
    exact hnew x hx heq

/-- A check that is counted was passed all the same. -/
theorem passes_countCheck {e : RiskEngine} {r : OrderRequest} (h : Passes e r) :
    Passes (e.countCheck .none) r :=
  ⟨h.live, h.enabled, h.trading, h.size, h.price, h.money, h.fresh, h.twoSided, h.reference,
    h.near, h.long, h.short, h.symbolMoney, h.noCross, h.room, h.slow, h.token⟩

/-- **An order that is wanted** is refused and counted, or goes out. -/
theorem Kept.send (h : Kept opt loc s.venue.fills s)
    (hlimit : 0 ≤ opt.limits.maxPositionShares.toInt ∧
      opt.limits.maxPositionShares.toInt ≤ 2 ^ 62)
    (hroom : Room (a + 1) b s) (top : TopOfBook) (now : UInt64) (side : Side) (price : Price)
    (qty : Quantity)
    (hpassive : 1 ≤ opt.quote.tickSize →
      if side = .buy then price < top.askPrice else top.bidPrice < price) :
    ∃ s', s.send opt loc top now side price qty = some s' ∧ Kept opt loc s'.venue.fills s' ∧
      Room a b s' ∧ Stays s s' := by
  have hcounter := hroom.counter
  have hids := hroom.ids
  have hchars := h.named.chars
  have hlow : s.tokens.counter.toNat < 2 ^ 40 := by omega
  obtain ⟨-, hnext⟩ := next_render hchars hlow
  let r : OrderRequest :=
    { locate := loc, token := s.tokens.next.1, side := side, shares := qty, price := price
      book := top, bookTsNs := s.bookTs, nowNs := now }
  obtain ⟨reason, hcheck⟩ := check_answers h.gate.books r
  -- the token is taken and the check counted, whatever comes of it
  have hcounted := (h.next hroom).alike (same_countCheck s.risk reason).alike
  let s₁ : TradeLoop E L P :=
    { s with tokens := s.tokens.next.2, risk := s.risk.countCheck reason }
  have hsend : s.send opt loc top now side price qty = if reason ≠ .none then
      some { s₁ with run := { s.run with ordersRejected := s.run.ordersRejected + 1 } }
      else s₁.place opt r := by
    unfold TradeLoop.send
    dsimp only
    rw [checkAndCount, hcheck]
    rfl
  rw [hsend]
  by_cases hpass : reason = .none
  case neg =>
    rw [if_pos hpass]
    exact ⟨_, rfl, { hcounted with }, ⟨by show s.nextOurId.toNat + a ≤ _; omega,
      by show s.tokens.next.2.counter.toNat + a ≤ _; omega, hroom.base, hroom.market⟩,
      rfl, rfl, rfl, rfl⟩
  case pos =>
    subst hpass
    rw [if_neg (not_not.mpr rfl)]
    have hp := passes_of_check hcheck
    -- no side goes by the new token yet
    have hother (sd : Side) : (s.live sd).token ≠ r.token := by
      rcases h.named.live sd with hblank | hmade
      · show (s.live sd).token ≠ s.tokens.next.1
        rw [hblank, (next_render hchars hlow).1]
        exact blank_ne hchars _
      · exact hmade.ne hchars hlow
    -- what the gate checked is what is said of what leaves
    have hfit (x : SentOrder) (hx : x.request = r)
        (hdecode : Ouch.decodeEnterOrder x.bytes = .ok (some (enterOrder opt r))) : x.Fit opt := by
      have hlimits := h.gate.limits
      have hfresh := hp.fresh
      have hnear := hp.near
      rw [stale, hlimits] at hfresh
      rw [fatFinger, hlimits] at hnear
      rw [← hx] at hdecode hfresh hnear hp
      refine ⟨hlimits ▸ hp.size, hp.price, hlimits ▸ hp.money, hfresh, hp.twoSided, hnear, ?_,
        hdecode⟩
      rw [hx]
      exact hpassive
    obtain ⟨s', hplace, h', hstays, htokens, hnextId, hmarket⟩ := Kept.place (s := s₁) (r := r)
      hcounted hlimit hroom.below (passes_countCheck hp) rfl (made_next hchars hlow)
      (fun x hx => (h.made x hx).ne hchars hlow) hother hfit
    have hsucc : (s.nextOurId + 1).toNat = s.nextOurId.toNat + 1 := by
      rw [UInt64.toNat_add, show (1 : UInt64).toNat = 1 from rfl, Nat.mod_eq_of_lt (by omega)]
    refine ⟨s', hplace, h', ⟨?_, ?_, ?_, ?_⟩, hstays.book, hstays.quoter, hstays.locate,
      hstays.halted⟩
    · rw [hnextId]
      show (s.nextOurId + 1).toNat + a ≤ _
      omega
    · rw [htokens]
      show s.tokens.next.2.counter.toNat + a ≤ _
      omega
    · rw [hmarket]
      exact hroom.base
    · rw [hmarket]
      exact hroom.market

/-! ## Fills are booked

The rule and the counters take the fill as it is. The gate is told of it under the token its side
has by then, which may be that of a later order or of one that has no shares left. -/

/-- A fill is known to the gate under the token of its side, or is not. -/
theorem Kept.bookFill {f : Fill} (h : Kept opt loc (f :: fills) s)
    (hlimit : 0 ≤ opt.limits.maxPositionShares.toInt ∧
      opt.limits.maxPositionShares.toInt ≤ 2 ^ 62) (hroom : Room a b s) :
    ∃ s', s.bookFill f = some s' ∧ Kept opt loc fills s' ∧ Room a b s' ∧ s'.book = s.book ∧
      s'.locate = s.locate ∧ s'.halted = s.halted ∧ s'.venue = s.venue ∧
      ∀ side, (s.live side).id = 0 → (s'.live side).id = 0 := by
  have hlive (side : Side) : (Function.update s.live f.ourSide
      { s.live f.ourSide with id := 0 } side).token = (s.live side).token := by
    rw [Function.update_apply]
    split
    case isTrue heq => rw [heq]
    case isFalse => rfl
  have hzero (side : Side) (hid : (s.live side).id = 0) : (Function.update s.live f.ourSide
      { s.live f.ourSide with id := 0 } side).id = 0 := by
    rw [Function.update_apply]
    split
    case isTrue => rfl
    case isFalse => exact hid
  have howns : (s.quoter.onFill f.ourSide f.qty).position =
      tapePosition s.venue.tape - (pendingOn true fills - pendingOn false fills : ℤ) := by
    have howns := h.owns
    rw [pendingOn_cons, pendingOn_cons] at howns
    rw [MicroPriceQuoter.onFill]
    simp only [howns]
    cases f.ourSide <;> simp [Side.isBid] <;> omega
  have hshares : s.run.filledShares + f.qty.toNat + (pendingOn true fills + pendingOn false fills) =
      filledOn true s.venue.tape + filledOn false s.venue.tape := by
    have hshares := h.shares
    rw [pendingOn_cons, pendingOn_cons] at hshares
    rw [← hshares]
    cases f.ourSide <;> simp [Side.isBid] <;> omega
  -- what the gate makes of it, however it does
  have hkept (risk : RiskEngine) (hgate : Gate opt.limits loc risk)
      (haccounts : Accounts loc s.venue.tape fills risk)
      (hpriced : Priced loc (s.venue.resting opt.symbol) risk)
      (hnamed : Named s.tokens s.live risk)
      (hcard : s.risk.table.held.card ≤ risk.table.held.card + 1) :
      Kept opt loc fills { s with
        quoter := s.quoter.onFill f.ourSide f.qty
        risk := risk
        run := { s.run with
          fills := s.run.fills + 1, filledShares := s.run.filledShares + f.qty.toNat }
        live := Function.update s.live f.ourSide { s.live f.ourSide with id := 0 } } :=
    { h with
      gate := hgate
      accounts := haccounts
      priced := hpriced
      named := ⟨hnamed.chars, hnamed.held, fun side => hlive side ▸ hnamed.live side,
        fun o ho side heq => hnamed.side o ho side (heq.trans (hlive side))⟩
      owns := howns
      shares := hshares
      cfg := h.cfg
      orders := by
        have horders := h.orders
        show s.run.ordersSent ≤ risk.table.held.card + (s.run.fills + 1)
        omega }
  -- the gate knows an order under that token, which then is of that side, or it does not
  rcases held_or_absent s.risk (s.live f.ourSide).token with ⟨o, ho, htoken⟩ | hno
  · obtain ⟨risk, hfill, hl⟩ := onReport_known h.gate.books.wf ho (.fill f.qty f.price)
    have hside := h.named.side o ho f.ourSide htoken
    have hn : takes o.leaves (.fill f.qty f.price) ≤ o.leaves := takes_le _ _
    have hless : takes o.leaves (.fill f.qty f.price) ≤ f.qty := by
      show clamp o.leaves f.qty ≤ f.qty
      unfold clamp
      split
      case isTrue hlt => exact UInt32.le_of_lt hlt
      case isFalse => exact UInt32.le_refl _
    have hgate := h.gate.lost hlimit ho hn hl
    have haccounts := h.accounts.lost h.gate hlimit ho hn hside hless hl
    rw [htoken] at hfill
    refine ⟨_, congrArg (Option.map _) hfill, hkept risk hgate haccounts
      (h.priced.lost h.gate ho hl fun x hx => ?_) (h.named.lost ho hl) ?_,
      ⟨hroom.ids, hroom.counter, hroom.base, hroom.market⟩, rfl, rfl, rfl, rfl, hzero⟩
    · refine exists_held fun hnone => ?_
      have hshares := h.ours.shares x.isBuy
      have hfilled := haccounts.filled x.isBuy
      rw [hnone] at hfilled
      exact side_empty h.ours.pos (by omega) x hx rfl
    · rw [hl.held, card_lostFrom ho (remnant_notMem h.gate.books.wf ho _)]
      split <;> omega
  · have hfill := onReport_unknown h.gate.books.wf hno (.fill f.qty f.price)
    have ha := (same_unknownToken (e := s.risk)).alike
    exact ⟨_, congrArg (Option.map _) hfill, hkept _ (h.gate.alike ha) (h.accounts.unknown ha)
      (h.priced.alike ha) (h.named.alike ha) (Nat.le_succ _),
      ⟨hroom.ids, hroom.counter, hroom.base, hroom.market⟩, rfl, rfl, rfl, rfl, hzero⟩

end TradeLoop
end Tickerplant
