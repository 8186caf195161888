import Mathlib.Algebra.Order.BigOperators.Group.List
import Tickerplant.Book.Builder
import Tickerplant.Lib.Matching

/-!
# The venue of the trading loop (`tools/tickerplant_trade.cpp`)

`nano::MatchingEngine` is not in this repository. Here it is a class with the two calls the tool
makes of it, and `LawfulMatchingEngine` is what a venue does: an order that is submitted trades
with resting orders it reaches, what is left of a limit order rests, and a cancelled order rests no
longer. Whose turn it is among the orders that are reached is left to the engine. `ListEngine` is
one that goes by price and then by time.

`Venue` is the tool's wrapper. It keeps the fills of the orders that are ours, which are told from
the market's by their numbers; the tape beside them is what was submitted and what came of it, and
is what statements about the venue speak of.

Only our orders ever rest, for the market's are immediate or cancelled. So what happens at the
venue is one of three things, each with a lemma about `Ours`, the state of a venue in this tool: an
order of ours rests (`Ours.submit`), the market takes from those that do (`Ours.market`), or one of
them is cancelled (`Ours.cancel`). That an order of ours reaches nothing of ours is a hypothesis of
the first. It is the risk gate that sees to it.
-/

set_option autoImplicit false

namespace Tickerplant

open Lib

/-- `nano::OrderType`, as far as it is used. -/
inductive OrderType where
  | limit
  | immediateOrCancel
  deriving DecidableEq, Repr

/-- `nano::Trade`, as far as it is read. -/
structure Trade where
  makerId : UInt64
  takerSide : Side
  quantity : Quantity
  price : Price
  deriving DecidableEq, Repr

/-- From whom, and how much. -/
def Trade.took (t : Trade) : UInt64 × ℕ := (t.makerId, t.quantity.toNat)

/-- `nano::MatchingEngine`. -/
class MatchingEngine (E : Type) where
  make : E
  submit : E → UInt64 → List UInt8 → Side → OrderType → Price → Quantity → List Trade × E
  cancel : E → List UInt8 → UInt64 → Bool × E

/-- What rests of an order that has traded. -/
def remainder (id : UInt64) (side : Side) (type : OrderType) (price : Price) (quantity done : ℕ) :
    List (LimitOrder UInt64 Price) :=
  if type = .limit ∧ done < quantity then [⟨id, side.isBid, price, quantity - done⟩] else []

/-- What is relied on of the engine: a matching, as the library has it, of the orders that rest. -/
class LawfulMatchingEngine (E : Type) [MatchingEngine E] where
  /-- The orders that rest in a symbol. -/
  resting : E → List UInt8 → List (LimitOrder UInt64 Price)
  /-- Nothing rests at first. -/
  resting_make : ∀ symbol, resting (MatchingEngine.make : E) symbol = []
  /-- An order with a number of its own trades with orders it reaches, up to its quantity, and a
  limit order rests with what is left of it. -/
  submit_matched : ∀ (e : E) (id : UInt64) (symbol : List UInt8) (side : Side) (type : OrderType)
    (price : Price) (quantity : Quantity), (∀ o ∈ resting e symbol, o.id ≠ id) →
    let r := MatchingEngine.submit e id symbol side type price quantity
    let trades := r.1.map Trade.took
    (∀ t ∈ r.1, t.takerSide = side) ∧ tradedShares trades ≤ quantity.toNat ∧
      ∃ os, Matched side.isBid price (resting e symbol) trades os ∧
        (resting r.2 symbol).Perm
          (os ++ remainder id side type price quantity.toNat (tradedShares trades))
  /-- A cancel takes the order with that number, if it rests, and no other. -/
  cancel_resting : ∀ (e : E) (symbol : List UInt8) (id : UInt64),
    (resting (MatchingEngine.cancel e symbol id).2 symbol).Perm
      ((resting e symbol).filter fun o => o.id != id)

/-! ## The wrapper -/

/-- Our numbers are below this one, the market's from it on. -/
def kMarketIdBase : UInt64 := (1 : UInt64) <<< 40

/-- A fill where we were the maker. -/
structure Fill where
  makerId : UInt64
  ourSide : Side
  qty : Quantity
  price : Price
  deriving DecidableEq, Repr

/-- A call of `submit`, and the trades it returned. -/
structure Submission where
  id : UInt64
  side : Side
  type : OrderType
  price : Price
  quantity : Quantity
  trades : List Trade
  deriving DecidableEq, Repr

/-- `Venue`, with the tape of what was submitted. -/
structure Venue (E : Type) where
  engine : E
  /-- Those not drained yet. -/
  fills : List Fill := []
  nextMarketId : UInt64 := kMarketIdBase
  cancels : ℕ := 0
  /-- What was submitted, the latest first. Nothing reads it. -/
  tape : List Submission := []

namespace Venue

variable {E : Type} [MatchingEngine E]

/-- A venue where nothing has happened. -/
def make : Venue E := { engine := MatchingEngine.make }

/-- `record`. Only trades where an order of ours was the maker matter. -/
def record (fills : List Fill) (t : Trade) : List Fill :=
  if kMarketIdBase ≤ t.makerId then fills
  else fills ++ [{ makerId := t.makerId, qty := t.quantity, price := t.price
                   ourSide := if t.takerSide = .buy then .sell else .buy }]

/-- A submission, its trades recorded. -/
def enter (v : Venue E) (id : UInt64) (symbol : List UInt8) (side : Side) (type : OrderType)
    (price : Price) (quantity : Quantity) : Venue E :=
  let r := MatchingEngine.submit v.engine id symbol side type price quantity
  { v with
    engine := r.2
    fills := r.1.foldl record v.fills
    tape := ⟨id, side, type, price, quantity, r.1⟩ :: v.tape }

/-- Rest one of our quotes. -/
def submit (v : Venue E) (id : UInt64) (symbol : List UInt8) (side : Side) (price : Price)
    (quantity : Quantity) : Venue E :=
  v.enter id symbol side .limit price quantity

/-- Takes back one of our quotes. Only one that still rested is counted. -/
def cancel (v : Venue E) (symbol : List UInt8) (id : UInt64) : Venue E :=
  let r := MatchingEngine.cancel v.engine symbol id
  { v with engine := r.2, cancels := if r.1 then v.cancels + 1 else v.cancels }

/-- The market traded at this price. -/
def marketTraded (v : Venue E) (symbol : List UInt8) (aggressorSide : Side) (price : Price)
    (quantity : Quantity) : Venue E :=
  { v with nextMarketId := v.nextMarketId + 1 }.enter v.nextMarketId symbol aggressorSide
    .immediateOrCancel price quantity

end Venue

/-! ## Accounts

What was sent and what has traded, in shares of a side, read off the tape. `b` is whether the side
is the bid. -/

/-- The shares of an order of ours. -/
def Submission.sent (b : Bool) (s : Submission) : ℕ :=
  if s.id < kMarketIdBase ∧ s.side.isBid = b then s.quantity.toNat else 0

/-- The shares of ours that a submission traded: those of the makers that are ours, and all of
them if it is ours itself. -/
def Submission.filled (b : Bool) (s : Submission) : ℕ :=
  (s.trades.map fun t =>
    if t.makerId < kMarketIdBase ∧ t.takerSide.isBid = !b then t.quantity.toNat else 0).sum +
    if s.id < kMarketIdBase ∧ s.side.isBid = b then (s.trades.map (·.quantity.toNat)).sum else 0

/-- The shares we have sent to a side. -/
def sentOn (b : Bool) (tape : List Submission) : ℕ := (tape.map (Submission.sent b)).sum

/-- The shares of ours on a side that have traded. -/
def filledOn (b : Bool) (tape : List Submission) : ℕ := (tape.map (Submission.filled b)).sum

/-- What we own by the venue's account. -/
def tapePosition (tape : List Submission) : ℤ := filledOn true tape - filledOn false tape

/-- The shares of the fills that have not been looked at. -/
def pendingOn (b : Bool) (fills : List Fill) : ℕ :=
  (fills.map fun f => if f.ourSide.isBid = b then f.qty.toNat else 0).sum

/-! ## What the calls do

Each call is told by what rests after it and by what the tape and the fills say then. -/

namespace Venue

variable {E : Type} [MatchingEngine E] [LawfulMatchingEngine E]

/-- The orders that rest in a symbol. -/
def resting (v : Venue E) (symbol : List UInt8) : List (LimitOrder UInt64 Price) :=
  LawfulMatchingEngine.resting v.engine symbol

/-- A venue where only our orders rest, those with numbers below `next`, none of which could trade
with another, and where no more has traded and rests than was sent. -/
structure Ours (v : Venue E) (symbol : List UInt8) (next : UInt64) : Prop where
  /-- They are numbered by the loop, so the next number is free. -/
  ids : ∀ o ∈ v.resting symbol, o.id < next
  /-- Nothing empty rests. -/
  pos : ∀ o ∈ v.resting symbol, 0 < o.leaves
  /-- Every bid is below every offer. -/
  apart : ∀ o ∈ v.resting symbol, o.isBuy = true → ∀ x ∈ v.resting symbol, x.isBuy = false →
    o.price < x.price
  /-- A share that was sent rests, has traded, or was cancelled. -/
  shares : ∀ b, sharesOn b (v.resting symbol) + filledOn b v.tape ≤ sentOn b v.tape

/-- Nothing rests at first. -/
theorem ours_make (symbol : List UInt8) (next : UInt64) : (make : Venue E).Ours symbol next := by
  have hnone : (make : Venue E).resting symbol = [] := LawfulMatchingEngine.resting_make symbol
  constructor
  · rw [hnone]
    exact fun o ho => absurd ho List.not_mem_nil
  · rw [hnone]
    exact fun o ho => absurd ho List.not_mem_nil
  · rw [hnone]
    exact fun o ho => absurd ho List.not_mem_nil
  · rw [hnone]
    exact fun b => Nat.le_refl _

/-- Whatever rests, rested. -/
def Within (v v' : Venue E) (symbol : List UInt8) : Prop :=
  ∀ x ∈ v'.resting symbol, ∃ y ∈ v.resting symbol,
    y.id = x.id ∧ y.isBuy = x.isBuy ∧ y.price = x.price

/-- Nothing has happened. -/
theorem Within.refl (v : Venue E) (symbol : List UInt8) : Within v v symbol :=
  fun x hx => ⟨x, hx, rfl, rfl, rfl⟩

/-- One thing after another. -/
theorem Within.trans {v v' v'' : Venue E} {symbol : List UInt8} (h : Within v v' symbol)
    (h' : Within v' v'' symbol) : Within v v'' symbol := by
  intro x hx
  obtain ⟨y, hy, hid, hside, hprice⟩ := h' x hx
  obtain ⟨z, hz, hid', hside', hprice'⟩ := h y hy
  exact ⟨z, hz, hid'.trans hid, hside'.trans hside, hprice'.trans hprice⟩

/-- What rested apart still does. -/
theorem Within.apart {v v' : Venue E} {symbol : List UInt8} {next : UInt64}
    (hw : Within v v' symbol) (h : v.Ours symbol next) :
    ∀ o ∈ v'.resting symbol, o.isBuy = true → ∀ x ∈ v'.resting symbol, x.isBuy = false →
      o.price < x.price := by
  intro o ho hbuy x hx hsell
  obtain ⟨o', ho', -, hside, hprice⟩ := hw o ho
  obtain ⟨x', hx', -, hside', hprice'⟩ := hw x hx
  rw [← hprice, ← hprice']
  exact h.apart o' ho' (hside.trans hbuy) x' hx' (hside'.trans hsell)

/-- Fills of ours are recorded, and no others. -/
theorem pendingOn_record (b : Bool) (trades : List Trade) : ∀ fills : List Fill,
    pendingOn b (trades.foldl record fills) = pendingOn b fills +
      (trades.map fun t => if t.makerId < kMarketIdBase ∧ t.takerSide.isBid = !b then
        t.quantity.toNat else 0).sum := by
  induction trades with
  | nil => exact fun fills => rfl
  | cons t trades ih =>
    intro fills
    rw [List.foldl_cons, ih, List.map_cons, List.sum_cons, ← Nat.add_assoc]
    congr 1
    unfold record
    by_cases hmarket : kMarketIdBase ≤ t.makerId
    · rw [if_pos hmarket, if_neg fun h => UInt64.not_lt.mpr hmarket h.1, Nat.add_zero]
    · rw [if_neg hmarket, pendingOn, List.map_append, List.sum_append, ← pendingOn]
      congr 1
      have hours := UInt64.not_le.mp hmarket
      cases hside : t.takerSide <;> cases b <;> simp [Side.isBid, hours]

/-- The shares of some trades. -/
theorem sum_quantity (trades : List Trade) :
    (trades.map (·.quantity.toNat)).sum = tradedShares (trades.map Trade.took) := by
  rw [tradedShares, List.map_map]
  rfl

/-- What entering an order did, `trades` being what it returned and `os` what they left resting. -/
structure Entered (v : Venue E) (id : UInt64) (symbol : List UInt8) (side : Side)
    (type : OrderType) (price : Price) (quantity : Quantity) (v' : Venue E) (trades : List Trade)
    (os : List (LimitOrder UInt64 Price)) : Prop where
  tape : v'.tape = ⟨id, side, type, price, quantity, trades⟩ :: v.tape
  fills : v'.fills = trades.foldl record v.fills
  market : v'.nextMarketId = v.nextMarketId
  /-- Every trade is the order's. -/
  taker : ∀ t ∈ trades, t.takerSide = side
  /-- With orders that rested and that it reaches. -/
  matched : Matched side.isBid price (v.resting symbol) (trades.map Trade.took) os
  /-- What rests then is what they left, and what is left of it. -/
  rest : (v'.resting symbol).Perm
    (os ++ remainder id side type price quantity.toNat (tradedShares (trades.map Trade.took)))

/-- An order with a number of its own is entered like that. -/
theorem enter_entered (v : Venue E) {id : UInt64} {symbol : List UInt8} (side : Side)
    (type : OrderType) (price : Price) (quantity : Quantity)
    (hfresh : ∀ o ∈ v.resting symbol, o.id ≠ id) :
    ∃ trades os, Entered v id symbol side type price quantity
      (v.enter id symbol side type price quantity) trades os := by
  obtain ⟨htaker, -, os, hmatched, hperm⟩ := LawfulMatchingEngine.submit_matched v.engine id symbol
    side type price quantity hfresh
  exact ⟨_, os, rfl, rfl, rfl, htaker, hmatched, hperm⟩

/-- One submission more. -/
theorem sentOn_cons (b : Bool) (s : Submission) (tape : List Submission) :
    sentOn b (s :: tape) = s.sent b + sentOn b tape := List.sum_cons

/-- And what it traded. -/
theorem filledOn_cons (b : Bool) (s : Submission) (tape : List Submission) :
    filledOn b (s :: tape) = s.filled b + filledOn b tape := List.sum_cons

/-- A submission that traded with nobody took nothing. -/
theorem filled_of_quiet {s : Submission} (h : s.trades = []) (b : Bool) : s.filled b = 0 := by
  rw [Submission.filled, h]
  simp

/-- So the accounts stay as they were. -/
theorem filledOn_quiet {s : Submission} (h : s.trades = []) (b : Bool) (tape : List Submission) :
    filledOn b (s :: tape) = filledOn b tape := by
  rw [filledOn_cons, filled_of_quiet h, Nat.zero_add]

/-- And what we own. -/
theorem tapePosition_quiet {s : Submission} (h : s.trades = []) (tape : List Submission) :
    tapePosition (s :: tape) = tapePosition tape := by
  rw [tapePosition, filledOn_quiet h, filledOn_quiet h]
  rfl

/-- What an order of the market's takes from orders of ours, on the side it meets. -/
theorem filled_market {id : UInt64} {side : Side} {trades : List Trade} (b : Bool)
    (hid : kMarketIdBase ≤ id) (htaker : ∀ t ∈ trades, t.takerSide = side)
    (hmakers : ∀ t ∈ trades, t.makerId < kMarketIdBase) (type : OrderType) (price : Price)
    (quantity : Quantity) :
    Submission.filled b ⟨id, side, type, price, quantity, trades⟩ =
      if b = !side.isBid then tradedShares (trades.map Trade.took) else 0 := by
  rw [Submission.filled, if_neg fun h => UInt64.not_lt.mpr hid h.1, Nat.add_zero, ← sum_quantity]
  split
  case isTrue hside =>
    refine congrArg List.sum (List.map_congr_left fun t ht => if_pos ⟨hmakers t ht, ?_⟩)
    rw [htaker t ht, hside, Bool.not_not]
  case isFalse hside =>
    refine List.sum_eq_zero fun n hn => ?_
    obtain ⟨t, ht, rfl⟩ := List.mem_map.mp hn
    refine if_neg fun h => hside ?_
    rw [← htaker t ht, h.2, Bool.not_not]

/-- **The market trades** with our orders. What it takes from them is recorded, and they have that
much less. -/
theorem Ours.market {v : Venue E} {symbol : List UInt8} {next : UInt64} (h : v.Ours symbol next)
    (hnext : next ≤ kMarketIdBase) (hmarket : kMarketIdBase ≤ v.nextMarketId) (side : Side)
    (price : Price) (quantity : Quantity) (v' : Venue E)
    (hv : v' = v.marketTraded symbol side price quantity) :
    v'.Ours symbol next ∧ Within v v' symbol ∧ v'.nextMarketId = v.nextMarketId + 1 ∧
      ∀ b, sentOn b v'.tape = sentOn b v.tape ∧
        ∃ n, filledOn b v'.tape = filledOn b v.tape + n ∧
          pendingOn b v'.fills = pendingOn b v.fills + n := by
  -- its number is the market's, and no order that rests has one of those
  have hfresh : ∀ o ∈ v.resting symbol, o.id ≠ v.nextMarketId := by
    rintro o ho heq
    have hlt := UInt64.lt_of_lt_of_le (h.ids o ho) hnext
    exact UInt64.not_lt.mpr hmarket (heq ▸ hlt)
  obtain ⟨trades, os, he⟩ := enter_entered { v with nextMarketId := v.nextMarketId + 1 } side
    .immediateOrCancel price quantity hfresh
  have hos : (v'.resting symbol).Perm os := by
    have hrest := he.rest
    simp only [remainder, reduceCtorEq, false_and, if_false, List.append_nil] at hrest
    exact hv ▸ hrest
  have hwithin : Within v v' symbol := fun x hx => he.matched.mem x (hos.mem_iff.mp hx)
  -- every maker is ours, so every trade is a fill of ours
  have hmakers : ∀ t ∈ trades, t.makerId < kMarketIdBase := by
    intro t ht
    obtain ⟨o, ho, hid, -⟩ := he.matched.maker t.took (List.mem_map_of_mem ht)
    have hlt := UInt64.lt_of_lt_of_le (h.ids o ho) hnext
    rw [hid] at hlt
    exact hlt
  have hsent (b : Bool) : sentOn b v'.tape = sentOn b v.tape := by
    rw [hv, marketTraded, he.tape, sentOn_cons, Submission.sent,
      if_neg fun h => UInt64.not_lt.mpr hmarket h.1, Nat.zero_add]
  have hfilled (b : Bool) := filled_market b hmarket he.taker hmakers .immediateOrCancel price
    quantity
  refine ⟨⟨fun o ho => ?_, fun o ho => ?_, hwithin.apart h, fun b => ?_⟩, hwithin, ?_,
    fun b => ⟨hsent b, ?_⟩⟩
  · obtain ⟨y, hy, hid, -⟩ := hwithin o ho
    exact hid ▸ h.ids y hy
  · exact he.matched.pos h.pos o (hos.mem_iff.mp ho)
  · have hshares := he.matched.shares b
    have hle := h.shares b
    rw [hsent, sharesOn_perm hos, hv, marketTraded, he.tape, filledOn_cons, hfilled]
    change sharesOn b (v.resting symbol) = _ at hshares
    change _ + (_ + filledOn b v.tape) ≤ _
    omega
  · rw [hv, marketTraded, he.market]
  · refine ⟨Submission.filled b ⟨v.nextMarketId, side, .immediateOrCancel, price, quantity,
      trades⟩, ?_, ?_⟩
    · rw [hv, marketTraded, he.tape, filledOn_cons, Nat.add_comm]
    · rw [hv, marketTraded, he.fills, pendingOn_record, Submission.filled,
        if_neg fun h => UInt64.not_lt.mpr hmarket h.1, Nat.add_zero]

/-- **An order of ours that reaches nobody** rests, all of it. -/
theorem Ours.submit {v : Venue E} {symbol : List UInt8} {next : UInt64} (h : v.Ours symbol next)
    (hnext : next < kMarketIdBase) (side : Side) (price : Price) {quantity : Quantity}
    (hquantity : quantity ≠ 0)
    (hnobody : ∀ o ∈ v.resting symbol, ¬Crosses side.isBid price o) (v' : Venue E)
    (hv : v' = v.submit next symbol side price quantity) :
    v'.Ours symbol (next + 1) ∧ v'.nextMarketId = v.nextMarketId ∧ v'.fills = v.fills ∧
      v'.tape = ⟨next, side, .limit, price, quantity, []⟩ :: v.tape ∧
      (v'.resting symbol).Perm
        (v.resting symbol ++ [⟨next, side.isBid, price, quantity.toNat⟩]) := by
  have hfresh : ∀ o ∈ v.resting symbol, o.id ≠ next := by
    rintro o ho rfl
    exact UInt64.lt_irrefl _ (h.ids o ho)
  obtain ⟨trades, os, he⟩ := enter_entered v side .limit price quantity hfresh
  -- reaching nobody, it trades with nobody
  obtain ⟨hnone, rfl⟩ := he.matched.nobody hnobody
  obtain rfl := List.map_eq_nil_iff.mp hnone
  have hpos : 0 < quantity.toNat := Nat.pos_of_ne_zero fun hzero =>
    hquantity (UInt32.toNat_inj.mp hzero)
  have hrest : (v'.resting symbol).Perm
      (v.resting symbol ++ [⟨next, side.isBid, price, quantity.toNat⟩]) := by
    have hrest := he.rest
    rw [remainder, List.map_nil, tradedShares_nil, if_pos ⟨rfl, hpos⟩] at hrest
    exact hv ▸ hrest
  have hsucc : (next + 1).toNat = next.toNat + 1 := by
    have hlt := UInt64.lt_iff_toNat_lt.mp hnext
    have hbase : kMarketIdBase.toNat = 2 ^ 40 := rfl
    rw [UInt64.toNat_add, show (1 : UInt64).toNat = 1 from rfl, Nat.mod_eq_of_lt (by omega)]
  have htape : v'.tape = ⟨next, side, .limit, price, quantity, []⟩ :: v.tape := hv ▸ he.tape
  refine ⟨⟨fun o ho => ?_, fun o ho => ?_, ?_, fun b => ?_⟩, hv ▸ he.market, hv ▸ he.fills, htape,
    hrest⟩
  · rw [UInt64.lt_iff_toNat_lt, hsucc]
    rcases List.mem_append.mp (hrest.mem_iff.mp ho) with ho | ho
    · exact Nat.lt_succ_of_lt (UInt64.lt_iff_toNat_lt.mp (h.ids o ho))
    · obtain rfl := List.mem_singleton.mp ho
      exact Nat.lt_succ_self _
  · rcases List.mem_append.mp (hrest.mem_iff.mp ho) with ho | ho
    · exact h.pos o ho
    · obtain rfl := List.mem_singleton.mp ho
      exact hpos
  -- either both rested before, or one is the new order, which does not reach the other
  · intro o ho hbuy x hx hsell
    rcases List.mem_append.mp (hrest.mem_iff.mp ho) with ho | ho <;>
      rcases List.mem_append.mp (hrest.mem_iff.mp hx) with hx | hx
    · exact h.apart o ho hbuy x hx hsell
    · obtain rfl := List.mem_singleton.mp hx
      have hside : side.isBid = false := hsell
      refine Int.not_le.mp fun hle => hnobody o ho ⟨?_, ?_⟩
      · rw [hbuy, hside]
        rfl
      · rw [if_neg (Bool.eq_false_iff.mp hside)]
        exact hle
    · obtain rfl := List.mem_singleton.mp ho
      have hside : side.isBid = true := hbuy
      refine Int.not_le.mp fun hle => hnobody x hx ⟨?_, ?_⟩
      · rw [hside, hsell]
        rfl
      · rw [if_pos hside]
        exact hle
    · obtain rfl := List.mem_singleton.mp ho
      obtain rfl := List.mem_singleton.mp hx
      exact Bool.noConfusion (hbuy.symm.trans hsell)
  · have hle := h.shares b
    rw [sharesOn_perm hrest, sharesOn_append, sharesOn_cons, sharesOn_nil, htape, filledOn_cons,
      sentOn_cons, Submission.filled, Submission.sent]
    simp only [List.map_nil, List.sum_nil, ite_self, hnext, true_and]
    split <;> omega

/-- **A cancel** takes an order away and touches no account: what it had left was sent, and neither
rests nor has traded. -/
theorem Ours.cancel {v : Venue E} {symbol : List UInt8} {next : UInt64} (h : v.Ours symbol next)
    (id : UInt64) (v' : Venue E) (hv : v' = v.cancel symbol id) :
    v'.Ours symbol next ∧ Within v v' symbol ∧ v'.nextMarketId = v.nextMarketId ∧
      v'.fills = v.fills ∧ v'.tape = v.tape := by
  have hrest : (v'.resting symbol).Perm ((v.resting symbol).filter fun o => o.id != id) :=
    hv ▸ LawfulMatchingEngine.cancel_resting v.engine symbol id
  have hmem : ∀ o ∈ v'.resting symbol, o ∈ v.resting symbol :=
    fun o ho => List.mem_of_mem_filter (hrest.mem_iff.mp ho)
  have htape : v'.tape = v.tape := hv ▸ rfl
  have hwithin : Within v v' symbol := fun o ho => ⟨o, hmem o ho, rfl, rfl, rfl⟩
  refine ⟨⟨fun o ho => h.ids o (hmem o ho), fun o ho => h.pos o (hmem o ho), hwithin.apart h,
    fun b => ?_⟩, hwithin, hv ▸ rfl, hv ▸ rfl, htape⟩
  have hle := h.shares b
  have hfewer := sharesOn_filter_le b (v.resting symbol) fun o => o.id != id
  rw [sharesOn_perm hrest, htape]
  omega

end Venue

/-! ## An engine

One that is lawful, so that what is proved of every lawful engine is proved of something. -/

/-- For each symbol the orders that rest, those that trade first in front. -/
structure ListEngine where
  orders : List UInt8 → List (LimitOrder UInt64 Price) := fun _ => []

namespace ListEngine

instance decidableCrosses (isBuy : Bool) (price : Price) (o : LimitOrder UInt64 Price) :
    Decidable (Crosses isBuy price o) :=
  inferInstanceAs (Decidable (_ ∧ if isBuy = true then o.price ≤ price else price ≤ o.price))

/-- The price of an order is better than that of another on its side. -/
def ahead (o x : LimitOrder UInt64 Price) : Bool :=
  o.isBuy == x.isBuy && if o.isBuy then decide (x.price < o.price) else decide (o.price < x.price)

/-- An order goes in front of those of its side that are priced worse. -/
def insert (o : LimitOrder UInt64 Price) : List (LimitOrder UInt64 Price) →
    List (LimitOrder UInt64 Price)
  | [] => [o]
  | x :: os => if ahead o x then o :: x :: os else x :: insert o os

/-- The trades of an order of so many shares, and what they leave. -/
def walk (isBuy : Bool) (price : Price) : ℕ → List (LimitOrder UInt64 Price) →
    List (LimitOrder UInt64 Price × ℕ) × List (LimitOrder UInt64 Price)
  | _, [] => ([], [])
  | quantity, o :: os =>
    if 0 < min quantity o.leaves ∧ Crosses isBuy price o then
      let r := walk isBuy price (quantity - min quantity o.leaves) os
      ((o, min quantity o.leaves) :: r.1, o.less (min quantity o.leaves) ++ r.2)
    else
      let r := walk isBuy price quantity os
      (r.1, o :: r.2)

/-- The order walks down the other side, and what is left of it goes to its own. -/
def submit (e : ListEngine) (id : UInt64) (symbol : List UInt8) (side : Side) (type : OrderType)
    (price : Price) (quantity : Quantity) : List Trade × ListEngine :=
  let r := walk side.isBid price quantity.toNat (e.orders symbol)
  let done := (r.1.map Prod.snd).sum
  (r.1.map fun (o, n) => ⟨o.id, side, UInt32.ofNat n, o.price⟩,
    ⟨Function.update e.orders symbol
      ((remainder id side type price quantity.toNat done).foldr insert r.2)⟩)

instance matchingEngine : MatchingEngine ListEngine where
  make := {}
  submit := submit
  cancel e symbol id :=
    ((e.orders symbol).any fun o => o.id == id,
      ⟨Function.update e.orders symbol ((e.orders symbol).filter fun o => o.id != id)⟩)

/-- Wherever it goes, it is there. -/
theorem insert_perm (o : LimitOrder UInt64 Price) (os : List (LimitOrder UInt64 Price)) :
    (insert o os).Perm (o :: os) := by
  induction os with
  | nil => exact .refl _
  | cons x os ih =>
    unfold insert
    split
    · exact .refl _
    · exact (ih.cons x).trans (.swap o x os)

/-- A walk is a matching. -/
theorem walk_matched (isBuy : Bool) (price : Price) (os : List (LimitOrder UInt64 Price)) :
    ∀ (quantity : ℕ) (before : List (LimitOrder UInt64 Price)),
      Matched isBuy price (before ++ os)
        ((walk isBuy price quantity os).1.map fun (o, n) => (o.id, n))
        (before ++ (walk isBuy price quantity os).2) := by
  induction os with
  | nil => exact fun quantity before => .done _
  | cons o os ih =>
    intro quantity before
    unfold walk
    split
    -- the orders walked past are behind, in the order they were in
    case isTrue h =>
      refine .trade h.2 h.1 (Nat.min_le_right _ _) ?_
      rw [← List.append_assoc before]
      exact ih _ _
    case isFalse =>
      have hrest := ih quantity (before ++ [o])
      rwa [List.append_assoc, List.append_assoc] at hrest

/-- No more is traded than was asked for. -/
theorem walk_le (isBuy : Bool) (price : Price) (os : List (LimitOrder UInt64 Price)) :
    ∀ quantity : ℕ, ((walk isBuy price quantity os).1.map Prod.snd).sum ≤ quantity := by
  induction os with
  | nil => exact fun quantity => Nat.zero_le _
  | cons o os ih =>
    intro quantity
    unfold walk
    split
    · have hrest := ih (quantity - min quantity o.leaves)
      simp only [List.map_cons, List.sum_cons]
      omega
    · exact ih quantity

/-- The trades name the makers and what each gave. -/
theorem submit_took (e : ListEngine) (id : UInt64) (symbol : List UInt8) (side : Side)
    (type : OrderType) (price : Price) (quantity : Quantity) :
    (e.submit id symbol side type price quantity).1.map Trade.took =
      (walk side.isBid price quantity.toNat (e.orders symbol)).1.map fun (o, n) => (o.id, n) := by
  have hle := walk_le side.isBid price (e.orders symbol) quantity.toNat
  have hwide := quantity.toNat_lt
  simp only [submit, List.map_map]
  refine List.map_congr_left fun x hx => ?_
  have hx : x.2 ≤ ((walk side.isBid price quantity.toNat (e.orders symbol)).1.map Prod.snd).sum :=
    List.le_sum_of_mem (List.mem_map_of_mem hx)
  rw [Function.comp_apply, Trade.took]
  simp only [Prod.mk.injEq, true_and]
  rw [UInt32.toNat_ofNat', Nat.mod_eq_of_lt (by omega)]

instance lawfulMatchingEngine : LawfulMatchingEngine ListEngine where
  resting := orders
  resting_make _ := rfl
  submit_matched e id symbol side type price quantity _ := by
    have htook := submit_took e id symbol side type price quantity
    have hdone : tradedShares ((walk side.isBid price quantity.toNat (e.orders symbol)).1.map
        fun (o, n) => (o.id, n)) =
        ((walk side.isBid price quantity.toNat (e.orders symbol)).1.map Prod.snd).sum := by
      rw [tradedShares, List.map_map]
      rfl
    show (∀ t ∈ (e.submit id symbol side type price quantity).1, t.takerSide = side) ∧ _
    refine ⟨?_, ?_, [] ++ (walk side.isBid price quantity.toNat (e.orders symbol)).2, ?_, ?_⟩
    · intro t ht
      obtain ⟨x, -, rfl⟩ := List.mem_map.mp ht
      rfl
    · show tradedShares ((e.submit id symbol side type price quantity).1.map Trade.took) ≤ _
      rw [htook, hdone]
      exact walk_le _ _ _ _
    · show Matched _ _ _ ((e.submit id symbol side type price quantity).1.map Trade.took) _
      rw [htook]
      exact walk_matched _ _ _ _ []
    · show ((e.submit id symbol side type price quantity).2.orders symbol).Perm
        (_ ++ remainder id side type price quantity.toNat
          (tradedShares ((e.submit id symbol side type price quantity).1.map Trade.took)))
      rw [htook, hdone, List.nil_append]
      simp only [submit, Function.update_self]
      unfold remainder
      split
      · exact (insert_perm _ _).trans (List.perm_append_singleton _ _).symm
      · rw [List.append_nil]
        exact .refl _
  cancel_resting e symbol id := by
    show (Function.update e.orders symbol _ symbol).Perm _
    rw [Function.update_self]

end ListEngine

end Tickerplant
