import Tickerplant.Synthetic.Pool

/-!
# What each part of a session writes

Each part of a session writes one message, and each function of the generator has its lemma here
that says so (`doAdd_told` and its like, `act_told`, `step_told`). What it says is `Told`, which is
everything the function does to what is later promised. It is built in three layers, since the
three have different reasons to hold:

* `Wrote`: the bytes that went to the sink and the counters that `emit` moves. This is one fact
  about `emit` (`wrote_emit`), whatever is done before and after it.
* `Said`: the volume and the tick of the clock that go with the message. The generator counts the
  one and draws the other outside of `emit`, so every function accounts for its own.
* `Told`: what a book makes of the message. Here the generator's list of live orders meets the map
  of the orders the stream has left (`Pool`), and the header's invariant is proved: an execution, a
  cancel, a delete or a replace names an order that was added and has not been removed since.

What is drawn is not followed: a draw moves the engine, a symbol's price and the match number
(`exists_below` and the like), and no promise is about these. Hence a draw's lemma says that the
generator is as it was but for them, and bounds what was drawn where a promise depends on it: a
locate is of a listed symbol, an execution is of whole lots and of no more than is left.
-/

set_option autoImplicit false

namespace Tickerplant
namespace Synthetic

open Lib Itch

/-! ## Messages as the book hears them -/

/-- The book's handler for a call. -/
def event : HandlerCall → BookEvent
  | .onSystemEvent ts code => .systemEvent ts (Char.ofUInt8 code)
  | .onStockDirectory locate ts stock roundLot => .stockDirectory locate ts stock roundLot
  | .onTradingAction locate ts state => .tradingAction locate ts (Char.ofUInt8 state)
  | .onAdd locate ts ref side shares price mpid =>
    .add locate ts ref (Char.ofUInt8 side) shares price mpid
  | .onExecute locate ts ref shares _ => .execute locate ts ref shares
  | .onExecutePrice locate ts ref shares _ printable price =>
    .executePrice locate ts ref shares printable price
  | .onCancel locate ts ref shares => .cancel locate ts ref shares
  | .onDelete locate ts ref => .delete locate ts ref
  | .onReplace locate ts oldRef newRef shares price =>
    .replace locate ts oldRef newRef shares price
  | .onTrade locate ts _ _ shares price _ => .trade locate ts shares price
  | .onCrossTrade locate ts shares price _ _ => .crossTrade locate ts shares price
  | .onBrokenTrade _ ts _ => .brokenTrade ts
  | .onOther _ _ ts => .other ts

/-- The shares a message prints to the tape. -/
def printed : Message → UInt64
  | .orderExecuted _ _ _ _ shares _ => shares.toUInt64
  | .orderExecutedPrice _ _ _ _ shares _ printable _ => if printable then shares.toUInt64 else 0
  | .trade _ _ _ _ _ shares _ _ _ => shares.toUInt64
  | .crossTrade _ _ _ shares _ _ _ _ => shares.toUInt32.toUInt64
  | _ => 0

/-- A number of round lots, in shares. -/
theorem toNat_round {r : UInt64} (h : 100 * (1 + r.toNat) < 2 ^ 32) :
    (100 * (1 + r)).toNat = 100 * (1 + r.toNat) := by
  have hone : (1 + r).toNat = 1 + r.toNat := by
    rw [UInt64.toNat_add]
    exact Nat.mod_eq_of_lt (by show 1 + r.toNat < _; omega)
  rw [UInt64.toNat_mul, hone]
  exact Nat.mod_eq_of_lt (by show 100 * (1 + r.toNat) < _; omega)

/-- And in the 32 bits of the wire. -/
theorem toNat_round32 {r : UInt64} (h : 100 * (1 + r.toNat) < 2 ^ 32) :
    (100 * (1 + r)).toUInt32.toNat = 100 * (1 + r.toNat) := by
  rw [UInt64.toNat_toUInt32, toNat_round h]
  exact Nat.mod_eq_of_lt h

namespace SyntheticFeed

variable (f : SyntheticFeed)

/-! ## Draws

A draw is known by its range and by what it leaves alone. The number of draws taken is hidden under
an existential, so that the lemmas of the functions need not count them. -/

section Draws

/-- A number below `n`. -/
theorem exists_below (n : UInt64) : ∃ r d, f.below n = (r, { f with drawn := d }) ∧
    (n ≠ 0 → r.toNat < n.toNat) := by
  unfold below
  split
  · rename_i hn
    exact ⟨0, f.drawn, rfl, fun h => absurd hn h⟩
  · refine ⟨_, _, rfl, fun hn => ?_⟩
    rw [UInt64.toNat_mod]
    exact Nat.mod_lt _ (Nat.pos_of_ne_zero fun h => hn (UInt64.toNat_inj.mp h))

/-- Some round lots are drawn, at least one and at most `n`. -/
theorem exists_lots {n : UInt64} (hpos : n ≠ 0) (hsmall : 100 * n.toNat < 2 ^ 32) :
    ∃ r d, f.below n = (r, { f with drawn := d }) ∧
      100 ≤ (100 * (1 + r)).toUInt32.toNat ∧ (100 * (1 + r)).toUInt32.toNat % 100 = 0 ∧
      (100 * (1 + r)).toUInt32.toNat ≤ 100 * n.toNat := by
  obtain ⟨r, d, hr, hlt⟩ := f.exists_below n
  have hlt := hlt hpos
  refine ⟨r, d, hr, ?_⟩
  rw [toNat_round32 (by omega)]
  omega

/-- The clock goes on by less than two microseconds. -/
theorem exists_tickClock : ∃ k d, f.tickClock =
    (f.ts + f.rng k % 2000, { f with drawn := d, ts := f.ts + f.rng k % 2000 }) :=
  ⟨f.drawn, f.drawn + 1, rfl⟩

/-- A locate of a listed symbol. There are no more symbols than a locate of two bytes can name. -/
theorem exists_pickLocate (hpos : f.cfg.symbols ≠ 0) (hle : f.cfg.symbols.toNat ≤ 65535) :
    ∃ locate d, f.pickLocate = (locate, { f with drawn := d }) ∧
      1 ≤ locate.toNat ∧ locate.toNat ≤ f.cfg.symbols.toNat := by
  obtain ⟨r, d, hr, hlt⟩ := f.exists_below f.cfg.symbols.toUInt64
  have hn : f.cfg.symbols.toUInt64.toNat = f.cfg.symbols.toNat := UInt32.toNat_toUInt64 _
  have hbound : r.toNat < f.cfg.symbols.toNat := by
    refine hn ▸ hlt fun h => hpos (UInt32.toNat_inj.mp ?_)
    rw [← hn, h]
    rfl
  -- one more than a draw below the number of symbols, which two bytes hold
  have hone : (r + 1).toUInt16.toNat = r.toNat + 1 := by
    rw [UInt64.toNat_toUInt16, UInt64.toNat_add]
    show (r.toNat + 1) % _ % _ = _
    omega
  refine ⟨(r + 1).toUInt16, d, ?_, ?_, ?_⟩
  · unfold pickLocate
    rw [hr]
  · rw [hone]
    exact Nat.le_add_left 1 _
  · rw [hone]
    exact hbound

/-- A step of the walk moves a price and nothing else. -/
theorem exists_walk (locate : UInt16) :
    ∃ m d mid, f.walk locate = (m, { f with drawn := d, mid := mid }) := by
  obtain ⟨r, d, hr, -⟩ := f.exists_below 4
  unfold walk
  rw [hr]
  exact ⟨_, _, _, rfl⟩

/-- One of the orders that are live. -/
theorem exists_pickLive (hne : f.live ≠ []) (hlen : f.live.length < 2 ^ 64) :
    ∃ i d o, f.pickLive = (i, { f with drawn := d }) ∧ i < f.live.length ∧
      f.live.getD i default = o ∧ o ∈ f.live := by
  obtain ⟨r, d, hr, hlt⟩ := f.exists_below (UInt64.ofNat f.live.length)
  have hn : (UInt64.ofNat f.live.length).toNat = f.live.length := UInt64.toNat_ofNat_of_lt' hlen
  have hi : r.toNat < f.live.length := by
    refine hn ▸ hlt fun h => hne (List.length_eq_zero_iff.mp ?_)
    rw [← hn, h]
    rfl
  refine ⟨r.toNat, d, f.live[r.toNat], ?_, hi, ?_, List.getElem_mem hi⟩
  · unfold pickLive
    rw [hr]
  · exact List.getD_eq_getElem _ _ hi

/-- Some action of the mix. -/
theorem exists_pickAction : ∃ a d, f.pickAction = (a, { f with drawn := d }) := by
  obtain ⟨r, d, hr, -⟩ := f.exists_below f.cfg.mix.total.toUInt64
  simp only [pickAction, hr]
  repeat' split
  all_goals exact ⟨_, _, rfl⟩

end Draws

/-! ## Emission

A message is written over the front of the buffer, and what the sink sees is that front. -/

/-- What the buffer holds after a message is written: its type where a decoder looks for it, and
the message in front. -/
theorem exists_written (buf : Staging) (m : Message) : ∃ buf',
    written buf m = (messageLength m.type, buf') ∧ buf'.bytes.getD kOffType 0 = m.type ∧
      buf'.bytes.take (messageLength m.type) = m.bytes := by
  have hfits : messageLength m.type ≤ buf.bytes.length := by
    rw [buf.length_bytes]
    exact (messageLength_bounds (length_type m)).2
  have hwrite := write_spec m hfits
  unfold written
  split
  · rename_i r hr
    obtain rfl := Except.ok.inj (hwrite.symm.trans hr)
    refine ⟨_, rfl, ?_, ?_⟩
    -- the byte at the type's offset is the first of the message, which is not empty
    · have htype := msgType_bytes m (buf.bytes.drop m.bytes.length)
      show (m.bytes ++ buf.bytes.drop m.bytes.length).getD 0 0 = m.type
      cases hb : m.bytes ++ buf.bytes.drop m.bytes.length with
      | nil =>
        have hlen := congrArg List.length hb
        rw [List.length_append, m.length_bytes, List.length_nil] at hlen
        exact absurd (Nat.eq_zero_of_add_eq_zero_right hlen) (length_type m)
      | cons b t =>
        rw [hb, msgType_cons] at htype
        exact Except.ok.inj htype
    · exact List.take_left' m.length_bytes
  · rename_i e he
    exact absurd (hwrite.symm.trans he) nofun

/-- The sink gets the message. -/
theorem emit_sent (m : Message) : (f.emit m).sent = f.sent ++ [m.bytes] := by
  obtain ⟨buf, hw, -, htake⟩ := exists_written f.buf m
  unfold emit
  rw [hw]
  simp only [htake]

/-- It is counted under the type that was read back from the buffer, which is its own. -/
theorem emit_byType (m : Message) : (f.emit m).exp.byType =
    Function.update f.exp.byType m.type (f.exp.byType m.type + 1) := by
  obtain ⟨buf, hw, htype, -⟩ := exists_written f.buf m
  unfold emit
  rw [hw]
  simp only [htype]

end SyntheticFeed

/-! ## What an act says

The message is the same in all three layers. `f` is the generator before the act and `f'` after. -/

open SyntheticFeed

/-- One message, sent and counted. -/
structure Wrote (f f' : SyntheticFeed) (m : Message) : Prop where
  /-- The script of a session is read off the configuration, so a run must leave it alone. -/
  cfg : f'.cfg = f.cfg
  /-- And the engine: the next act draws from the same numbers. -/
  rng : f'.rng = f.rng
  sent : f'.sent = f.sent ++ [m.bytes]
  messages : f'.exp.messages = f.exp.messages + 1
  byType : f'.exp.byType = Function.update f.exp.byType m.type (f.exp.byType m.type + 1)
  /-- The promise per symbol is made at the end, from the orders that are live then. -/
  resting : f'.exp.restingBySymbol = f.exp.restingBySymbol

/-- What `Wrote` is about. -/
def SyntheticFeed.wire (f : SyntheticFeed) :=
  (f.cfg, f.rng, f.sent, f.exp.messages, f.exp.byType, f.exp.restingBySymbol)

/-- What is done before and after an emission does not touch what it wrote. -/
theorem wrote_emit {f f' : SyntheticFeed} (g : SyntheticFeed) (m : Message)
    (hbefore : g.wire = f.wire) (hafter : f'.wire = (g.emit m).wire) : Wrote f f' m := by
  -- `emit` counts on from what stands before it, so the equations are chained field by field
  simp only [wire, Prod.mk.injEq] at hbefore hafter
  obtain ⟨hcfg, hrng, hsent, hmessages, hbyType, hresting⟩ := hbefore
  obtain ⟨hcfg', hrng', hsent', hmessages', hbyType', hresting'⟩ := hafter
  exact {
    cfg := hcfg'.trans hcfg
    rng := hrng'.trans hrng
    sent := by rw [hsent', emit_sent, hsent]
    messages := hmessages'.trans (congrArg (· + 1) hmessages)
    byType := by rw [hbyType', emit_byType, hbyType]
    resting := hresting'.trans hresting }

/-- One message, with the volume and the tick of the clock that go with it. The clock has been
brought up to `floor` first. -/
structure Said (f f' : SyntheticFeed) (floor : UInt64) (m : Message) : Prop
    extends Wrote f f' m where
  /-- Only the printed volume counts: shares that trade without printing leave the book and not the
  tape. A locate of zero is about no symbol, and what it prints is zero. -/
  executed : f'.exp.executedShares =
    f.exp.executedShares.modify (m.locate.toNat - 1) (· + printed m)
  total : f'.exp.executedSharesTotal = f.exp.executedSharesTotal + printed m
  /-- The message carries the clock as it is after the act. -/
  clock : f'.ts = m.timestamp
  /-- How the clock got there, which is what keeps it from going back. -/
  tick : ∃ k, f'.ts = (f.atLeast floor).ts + f.rng k % 2000

/-- What it means to a book of `orders`: the message finds what it names, its volume is its
symbol's, and the live orders are those it leaves. -/
structure Told (symbols : ℕ) (orders : Orders) (f f' : SyntheticFeed) (floor : UInt64)
    (m : Message) : Prop extends Said f f' floor m where
  /-- The book finds what the message names, or has room for what it brings. -/
  faultless : orders.Faultless (event m.call)
  /-- And what it then holds are the live orders of the generator. -/
  pool : Pool symbols f'.nextRef f'.live (orders.step (event m.call))
  /-- A book counts the volume by the symbol of the order it finds, the generator by the locate it
  writes. They are the same symbol's. -/
  traded : ∀ stock, orders.traded stock (event m.call) = if m.locate = stock then printed m else 0
  /-- Whatever prints is of a symbol that has a column. -/
  listed : printed m = 0 ∨ 1 ≤ m.locate.toNat ∧ m.locate.toNat ≤ symbols
  /-- An act takes at most one reference. -/
  issued : f'.nextRef = f.nextRef ∨ f'.nextRef = f.nextRef + 1

/-- To count no shares is to count nothing. -/
theorem modify_add_zero (l : List UInt64) (i : ℕ) : l.modify i (· + 0) = l := by
  simp only [UInt64.add_zero]
  exact List.modify_id i l

/-- Bringing the clock up is part of the next act. -/
theorem Told.afterFloor {symbols : ℕ} {orders : Orders} {f f' : SyntheticFeed} {t : UInt64}
    {m : Message} (h : Told symbols orders (f.atLeast t) f' 0 m) :
    Told symbols orders f f' t m := by
  have hzero : ((f.atLeast t).atLeast 0).ts = (f.atLeast t).ts := by
    unfold atLeast
    rw [if_neg UInt64.not_lt_zero]
  obtain ⟨k, hk⟩ := h.tick
  rw [hzero] at hk
  have hkept : (f.atLeast t).cfg = f.cfg ∧ (f.atLeast t).rng = f.rng ∧
      (f.atLeast t).exp = f.exp ∧ (f.atLeast t).sent = f.sent ∧
      (f.atLeast t).nextRef = f.nextRef := by
    unfold atLeast
    split <;> exact ⟨rfl, rfl, rfl, rfl, rfl⟩
  obtain ⟨hcfg, hrng, hexp, hsent, hnext⟩ := hkept
  exact { h with
    cfg := hcfg ▸ h.cfg
    rng := hrng ▸ h.rng
    sent := hsent ▸ h.sent
    messages := hexp ▸ h.messages
    byType := hexp ▸ h.byType
    resting := hexp ▸ h.resting
    executed := hexp ▸ h.executed
    total := hexp ▸ h.total
    tick := ⟨k, hrng ▸ hk⟩
    issued := hnext ▸ h.issued }

section Told

variable {symbols : ℕ} {orders : Orders} {f : SyntheticFeed}

/-- A message that is not for the tape. -/
theorem Told.unprinted {f' : SyntheticFeed} {m : Message} (hwrote : Wrote f f' m)
    (hzero : printed m = 0)
    (hexp : f'.exp.executedShares = f.exp.executedShares ∧
      f'.exp.executedSharesTotal = f.exp.executedSharesTotal)
    (hclock : f'.ts = m.timestamp) (htick : ∃ k, f'.ts = (f.atLeast 0).ts + f.rng k % 2000)
    (hfaultless : orders.Faultless (event m.call))
    (hpool : Pool symbols f'.nextRef f'.live (orders.step (event m.call)))
    (htraded : ∀ stock, orders.traded stock (event m.call) = 0)
    (hissued : f'.nextRef = f.nextRef ∨ f'.nextRef = f.nextRef + 1) :
    Told symbols orders f f' 0 m where
  toWrote := hwrote
  executed := by
    rw [hzero, modify_add_zero]
    exact hexp.1
  total := by
    rw [hzero, UInt64.add_zero]
    exact hexp.2
  clock := hclock
  tick := htick
  faultless := hfaultless
  pool := hpool
  traded := fun stock => by rw [htraded, hzero, ite_self]
  listed := .inl hzero
  issued := hissued

/-- What was drawn before an act is part of it. -/
theorem Told.drawn {d : ℕ} {f' : SyntheticFeed} {m : Message}
    (h : Told symbols orders { f with drawn := d } f' 0 m) : Told symbols orders f f' 0 m where
  cfg := h.cfg
  rng := h.rng
  sent := h.sent
  messages := h.messages
  byType := h.byType
  resting := h.resting
  executed := h.executed
  total := h.total
  clock := h.clock
  tick := h.tick
  faultless := h.faultless
  pool := h.pool
  traded := h.traded
  listed := h.listed
  issued := h.issued

variable (hpool : Pool symbols f.nextRef f.live orders)
include hpool

/-! ### The open and the close

These need no order. Only a cross prints, and it changes no order of the continuous book. -/

/-- An event of the system. -/
theorem systemEvent_told (code : UInt8) :
    ∃ m, Told symbols orders f (f.systemEvent code) 0 m := by
  obtain ⟨k, d, hk⟩ := f.exists_tickClock
  unfold systemEvent
  simp only [hk]
  exact ⟨.systemEvent 0 0 _ code, .unprinted (wrote_emit _ _ rfl rfl) rfl ⟨rfl, rfl⟩ rfl
    ⟨k, rfl⟩ trivial hpool (fun _ => rfl) (.inl rfl)⟩

/-- A symbol is listed. -/
theorem stockDirectory_told (i : ℕ) : ∃ m, Told symbols orders f (f.stockDirectory i) 0 m := by
  obtain ⟨k, d, hk⟩ := f.exists_tickClock
  unfold stockDirectory
  simp only [hk]
  exact ⟨.stockDirectory (UInt16.ofNat (i + 1)) 0 _ _, .unprinted (wrote_emit _ _ rfl rfl) rfl
    ⟨rfl, rfl⟩ rfl ⟨k, rfl⟩ trivial hpool (fun _ => rfl) (.inl rfl)⟩

/-- A symbol goes to trading. -/
theorem tradingAction_told (i : ℕ) : ∃ m, Told symbols orders f (f.tradingAction i) 0 m := by
  obtain ⟨k, d, hk⟩ := f.exists_tickClock
  unfold tradingAction
  simp only [hk]
  exact ⟨.tradingAction (UInt16.ofNat (i + 1)) 0 _ _ _ _, .unprinted (wrote_emit _ _ rfl rfl) rfl
    ⟨rfl, rfl⟩ rfl ⟨k, rfl⟩ trivial hpool (fun _ => rfl) (.inl rfl)⟩

/-- A cross prints its shares for its symbol. They are drawn in 64 bits and there are at most 50000
of them, so the handler, which is told 32 bits of them, counts the same. -/
theorem cross_told {locate : UInt16} (hpos : 1 ≤ locate.toNat) (hle : locate.toNat ≤ symbols)
    (crossType : UInt8) : ∃ m, Told symbols orders f (f.cross locate crossType) 0 m := by
  obtain ⟨r, d, hr, hlt⟩ := f.exists_below 500
  -- the generator counts what it drew, the book what it was told
  have hshares : (100 * (1 + r)).toUInt32.toUInt64 = 100 * (1 + r) := by
    have hsmall : 100 * (1 + r.toNat) < 2 ^ 32 := by
      have hr500 : r.toNat < 500 := hlt (by decide)
      omega
    rw [← UInt64.toNat_inj, UInt32.toNat_toUInt64, toNat_round32 hsmall, toNat_round hsmall]
  unfold cross
  simp only [hr]
  obtain ⟨k, d', hk⟩ :=
    ({ f with drawn := d }.countExecuted locate (100 * (1 + r))).exists_tickClock
  simp only [hk]
  exact ⟨.crossTrade locate 0 _ (100 * (1 + r)) _ _ _ crossType,
    { toWrote := wrote_emit _ _ rfl rfl
      executed := by rw [printed, hshares]; rfl
      total := by rw [printed, hshares]; rfl
      clock := rfl
      tick := ⟨k, rfl⟩
      faultless := trivial
      pool := hpool
      traded := fun _ => rfl
      listed := .inr ⟨hpos, hle⟩
      issued := .inl rfl }⟩

/-! ### Order activity

An action that needs an order draws one from the live ones, of which there is one or `step` adds
instead. One that brings an order takes the next reference, which no order has had. -/

/-- There is a symbol to draw, and a reference to issue. -/
structure Ready (symbols : ℕ) (f : SyntheticFeed) : Prop where
  count : f.cfg.symbols.toNat = symbols
  some_symbol : f.cfg.symbols ≠ 0
  /-- A locate is two bytes. -/
  narrow : symbols ≤ 65535
  /-- Zero is the key of an empty slot of the order map, and the first reference is one. -/
  issued : 1 ≤ f.nextRef.toNat
  /-- The next reference is a new one: the counter does not come round. -/
  more : f.nextRef.toNat + 1 < 2 ^ 64

omit hpool in
/-- The counter goes up. -/
theorem Ready.next (h : Ready symbols f) : (f.nextRef + 1).toNat = f.nextRef.toNat + 1 := by
  rw [UInt64.toNat_add]
  exact Nat.mod_eq_of_lt h.more

omit hpool in
/-- And past every reference it has issued. -/
theorem Ready.lt_next (h : Ready symbols f) : f.nextRef < f.nextRef + 1 :=
  UInt64.lt_iff_toNat_lt.mpr (h.next ▸ Nat.lt_succ_self _)

omit hpool in
/-- What it issues is not the key of an empty slot. -/
theorem Ready.ref_ne (h : Ready symbols f) : f.nextRef ≠ kEmptyKey := by
  intro h0
  have hissued := h.issued
  rw [h0] at hissued
  exact absurd hissued (by decide)

omit hpool in
/-- A new order, under the next reference, in whatever is live. -/
theorem Ready.place (h : Ready symbols f) {live : List LiveOrder} {m : Orders} {o : LiveOrder}
    (hpool : Pool symbols f.nextRef live m) (href : o.ref = f.nextRef)
    (ho : o.Sound symbols (f.nextRef + 1)) :
    m f.nextRef = none ∧ Pool symbols (f.nextRef + 1) (live ++ [o])
      (Function.update m f.nextRef (some o.resting)) := by
  have hfree := hpool.ne_of_le (UInt64.le_refl _)
  have hpush := (hpool.issue (UInt64.le_of_lt h.lt_next)).push (href ▸ hfree) ho
  rw [href] at hpush
  exact ⟨hpool.free hfree, hpush.perm (List.perm_append_singleton _ _).symm⟩

/-- A new order, drawn, written and live. -/
theorem doAdd_told (h : Ready symbols f) (withMpid : Bool) :
    ∃ m, Told symbols orders f (f.doAdd withMpid) 0 m := by
  obtain ⟨locate, d1, hlocate, hpos, hle⟩ :=
    f.exists_pickLocate h.some_symbol (h.count ▸ h.narrow)
  rw [h.count] at hle
  obtain ⟨mid, d2, mids, hwalk⟩ := exists_walk { f with drawn := d1 } locate
  obtain ⟨r, d3, hr, hlots, hround, -⟩ := exists_lots { f with drawn := d2 + 1, mid := mids }
    (by decide : (20 : UInt64) ≠ 0) (by decide)
  obtain ⟨d, d4, hd, -⟩ := exists_below { f with drawn := d3, mid := mids } 10
  obtain ⟨k, d5, hk⟩ := exists_tickClock
    { f with drawn := d4, mid := mids, nextRef := f.nextRef + 1 }
  unfold doAdd
  simp only [hlocate, hwalk, next, hr, hd, takeRef, hk]
  -- from here on the side, the price and the shares are any that a sound order may have
  generalize hside : (if f.rng d2 &&& 1 ≠ 0 then 'B'.toUInt8 else 'S'.toUInt8) = side
  generalize hprice : (if side = 'B'.toUInt8 then _ else _ : UInt32) = price
  generalize (100 * (1 + r)).toUInt32 = shares at hlots hround
  generalize hstock : symbolOf _ locate = stock
  let o : LiveOrder := ⟨f.nextRef, shares, price, locate, side⟩
  have ho : o.Sound symbols (f.nextRef + 1) := by
    refine ⟨h.lt_next, ⟨hlots, hround⟩, ?_, hpos, hle⟩
    show side = _ ∨ side = _
    split at hside
    · exact .inl hside.symm
    · exact .inr hside.symm
  obtain ⟨hfree, hplace⟩ := h.place hpool (o := o) rfl ho
  have hfaultless : f.nextRef ≠ kEmptyKey ∧ orders f.nextRef = none ∧
      sideOf (Char.ofUInt8 side) ≠ none :=
    ⟨h.ref_ne, hfree, by rw [ho.sideOf]; exact nofun⟩
  -- what a book makes of it, with or without an attribution
  have hstep (ts : UInt64) (mpid : Bool) :
      orders.step (.add locate ts f.nextRef (Char.ofUInt8 side) shares price mpid) =
        Function.update orders f.nextRef (some o.resting) := by
    have hs : sideOf (Char.ofUInt8 side) = some o.resting.side := ho.sideOf
    simp only [Orders.step, hs]
    rfl
  cases withMpid with
  | false =>
    exact ⟨.addOrder locate 0 _ f.nextRef side shares stock price,
      .unprinted (wrote_emit _ _ rfl rfl) rfl ⟨rfl, rfl⟩ rfl ⟨k, rfl⟩ hfaultless
        (hstep _ _ ▸ hplace) (fun _ => rfl) (.inr rfl)⟩
  | true =>
    exact ⟨.addOrderMpid locate 0 _ f.nextRef side shares stock price _,
      .unprinted (wrote_emit _ _ rfl rfl) rfl ⟨rfl, rfl⟩ rfl ⟨k, rfl⟩ hfaultless
        (hstep _ _ ▸ hplace) (fun _ => rfl) (.inr rfl)⟩

omit hpool in
/-- An order that has no shares left is dropped after its message. -/
theorem Told.taken {g : SyntheticFeed} {i : ℕ} {shares : UInt32} {m : Message}
    (hsaid : Said f g 0 m) (hnext : g.nextRef = f.nextRef)
    (hfaultless : orders.Faultless (event m.call))
    (hpool : Pool symbols f.nextRef
      (if shares = 0 then (g.live.set i (g.live.getLastD default)).dropLast else g.live)
      (orders.step (event m.call)))
    (htraded : ∀ stock, orders.traded stock (event m.call) =
      if m.locate = stock then printed m else 0)
    (hlisted : 1 ≤ m.locate.toNat ∧ m.locate.toNat ≤ symbols) :
    Told symbols orders f (if shares = 0 then g.dropLive i else g) 0 m := by
  -- the drop comes after the message, and touches nothing but the list
  split at hpool
  · rename_i hgone
    rw [if_pos hgone]
    exact {
      cfg := hsaid.cfg
      rng := hsaid.rng
      sent := hsaid.sent
      messages := hsaid.messages
      byType := hsaid.byType
      resting := hsaid.resting
      executed := hsaid.executed
      total := hsaid.total
      clock := hsaid.clock
      tick := hsaid.tick
      faultless := hfaultless
      pool := hnext ▸ hpool
      traded := htraded
      listed := .inr hlisted
      issued := .inl hnext }
  · rename_i hstays
    rw [if_neg hstays]
    exact { hsaid with
      faultless := hfaultless
      pool := hnext ▸ hpool
      traded := htraded
      listed := .inr hlisted
      issued := .inl hnext }

/-- An execution, at the order's price or with a price of its own. The shares are whole lots and no
more than are left, and an order that has none left goes without a further message, in the
generator as in the book. One that does not print leaves the book and not the tape. -/
theorem doExecute_told (hne : f.live ≠ []) (withPrice : Bool) :
    ∃ m, Told symbols orders f (f.doExecute withPrice) 0 m := by
  obtain ⟨i, d1, o, hi, hlen, hget, ho⟩ := f.exists_pickLive hne hpool.length_lt
  obtain ⟨-, ⟨hlots, -⟩, -, hlisted⟩ := hpool.sound o ho
  have hn : (o.shares / 100).toUInt64.toNat = o.shares.toNat / 100 := by
    rw [UInt32.toNat_toUInt64, UInt32.toNat_div]
    rfl
  -- a live order has a lot at least, so there is something to draw
  have hpos : (o.shares / 100).toUInt64 ≠ 0 := by
    intro h0
    have hzero : (o.shares / 100).toUInt64.toNat = 0 := congrArg UInt64.toNat h0
    omega
  have h32 := o.shares.toNat_lt
  obtain ⟨r, d2, hr, -, hround, hall⟩ := exists_lots { f with drawn := d1 } hpos (by omega)
  generalize hshares : (100 * (1 + r)).toUInt32 = done at hround hall
  have hdone : done.toNat ≤ o.shares.toNat := by omega
  -- the list after the execution, against the map the book then has
  have hfill := hpool.fill hlen (hget ▸ hdone) hround
  rw [hget] at hfill
  have hmeans := hpool.resting ho
  have hfaultless : ∃ r, orders o.ref = some r ∧ done ≤ r.remaining :=
    ⟨_, hmeans, UInt32.le_iff_toNat_le.mpr hdone⟩
  cases withPrice with
  | false =>
    obtain ⟨k, d3, hk⟩ := exists_tickClock
      { f with drawn := d2, nextMatch := f.nextMatch + 1 }
    unfold doExecute
    simp only [hi, hget, hr, takeMatch, hshares, hk, if_true, if_false, Bool.false_eq_true]
    have htraded (stock : UInt16) (ts : UInt64) :
        orders.traded stock (.execute o.locate ts o.ref done) =
          if o.locate = stock then done.toUInt64 else 0 := by
      simp only [Orders.traded, hmeans]
      rfl
    exact ⟨.orderExecuted o.locate 0 _ o.ref done f.nextMatch, .taken
      { toWrote := wrote_emit _ _ rfl rfl
        executed := rfl
        total := rfl
        clock := rfl
        tick := ⟨k, rfl⟩ } rfl hfaultless hfill (fun stock => htraded stock _) hlisted⟩
  | true =>
    obtain ⟨p, d3, hp, -⟩ := exists_below { f with drawn := d2, nextMatch := f.nextMatch + 1 } 10
    obtain ⟨k, d4, hk⟩ := exists_tickClock
      { f with drawn := d3, nextMatch := f.nextMatch + 1 }
    unfold doExecute
    simp only [hi, hget, hr, takeMatch, hshares, hp, hk, if_true]
    generalize decide (p ≠ 0) = printable
    have htraded (stock : UInt16) (ts : UInt64) :
        orders.traded stock (.executePrice o.locate ts o.ref done printable o.price) =
          if o.locate = stock then (if printable then done.toUInt64 else 0) else 0 := by
      simp only [Orders.traded, hmeans]
      cases printable with
      | false => simp
      | true => simp [LiveOrder.resting]
    -- what does not print is counted in neither column
    refine ⟨.orderExecutedPrice o.locate 0 (f.ts + f.rng k % 2000) o.ref done f.nextMatch printable
      o.price, ?_⟩
    cases printable with
    | false =>
      simp only [if_false, Bool.false_eq_true]
      exact .taken
        { toWrote := wrote_emit _ _ rfl rfl
          executed := (modify_add_zero _ _).symm
          total := (UInt64.add_zero _).symm
          clock := rfl
          tick := ⟨k, rfl⟩ } rfl hfaultless hfill (fun stock => htraded stock _) hlisted
    | true =>
      simp only [if_true]
      exact .taken
        { toWrote := wrote_emit _ _ rfl rfl
          executed := rfl
          total := rfl
          clock := rfl
          tick := ⟨k, rfl⟩ } rfl hfaultless hfill (fun stock => htraded stock _) hlisted

/-- The order at `i` goes. -/
theorem doDeleteAt_told {i : ℕ} (hi : i < f.live.length) :
    ∃ m, Told symbols orders f (f.doDeleteAt i) 0 m := by
  obtain ⟨k, d, hk⟩ := f.exists_tickClock
  have hcons := hpool.perm (getD_cons_eraseIdx_perm hi default).symm
  have hdrop := hcons.drop.perm (dropSwap_perm hi default).symm
  have hlive : orders (f.live.getD i default).ref ≠ none := by
    rw [hcons.resting List.mem_cons_self]
    exact nofun
  unfold doDeleteAt
  simp only [hk]
  exact ⟨.orderDelete _ 0 _ _, .unprinted (wrote_emit _ _ rfl rfl) rfl ⟨rfl, rfl⟩ rfl ⟨k, rfl⟩
    hlive hdrop (fun _ => rfl) (.inl rfl)⟩

/-- A live order goes. -/
theorem doDelete_told (hne : f.live ≠ []) : ∃ m, Told symbols orders f f.doDelete 0 m := by
  obtain ⟨i, d, -, hi, hlen, -⟩ := f.exists_pickLive hne hpool.length_lt
  unfold doDelete
  simp only [hi]
  obtain ⟨m, hm⟩ := doDeleteAt_told (f := { f with drawn := d }) hpool hlen
  exact ⟨m, hm.drawn⟩

/-- Shares come off an order that keeps some. A cancel of the whole comes across as a delete, which
an order of a single lot always gets. -/
theorem doCancel_told (hne : f.live ≠ []) : ∃ m, Told symbols orders f f.doCancel 0 m := by
  obtain ⟨i, d1, o, hi, hlen, hget, ho⟩ := f.exists_pickLive hne hpool.length_lt
  unfold doCancel
  simp only [hi, hget]
  have hlots : (o.shares / 100).toNat = o.shares.toNat / 100 := UInt32.toNat_div _ _
  split
  · obtain ⟨m, hm⟩ := doDeleteAt_told (f := { f with drawn := d1 }) hpool hlen
    exact ⟨m, hm.drawn⟩
  · rename_i htwo
    rw [UInt32.lt_iff_toNat_lt, hlots] at htwo
    have hone : (2 : UInt32).toNat = 2 ∧ (1 : UInt32).toNat = 1 := ⟨rfl, rfl⟩
    -- two lots at least, of which all but one may go
    have hn : (o.shares / 100 - 1).toUInt64.toNat = o.shares.toNat / 100 - 1 := by
      have hle : (1 : UInt32) ≤ o.shares / 100 := UInt32.le_iff_toNat_le.mpr (by omega)
      rw [UInt32.toNat_toUInt64, UInt32.toNat_sub_of_le _ _ hle, hlots, hone.2]
    have hpos : (o.shares / 100 - 1).toUInt64 ≠ 0 := by
      intro h0
      have hzero : (o.shares / 100 - 1).toUInt64.toNat = 0 := congrArg UInt64.toNat h0
      omega
    have h32 := o.shares.toNat_lt
    obtain ⟨r, d2, hr, -, hround, hall⟩ := exists_lots { f with drawn := d1 } hpos (by omega)
    obtain ⟨k, d3, hk⟩ := exists_tickClock { f with drawn := d2 }
    simp only [hr, hk]
    generalize (100 * (1 + r)).toUInt32 = gone at hround hall
    have hgone : gone.toNat < o.shares.toNat := by omega
    -- a cancel leaves something
    have hleft : o.shares - gone ≠ 0 := by
      intro h0
      have hsub := UInt32.toNat_sub_of_le o.shares gone (UInt32.le_iff_toNat_le.mpr hgone.le)
      rw [h0] at hsub
      exact absurd (hsub.symm.trans rfl) (Nat.sub_ne_zero_of_lt hgone)
    have hfill := hpool.fill hlen (hget ▸ hgone.le) hround
    simp only [hget, if_neg hleft] at hfill
    have hfaultless : ∃ r, orders o.ref = some r ∧ gone ≤ r.remaining :=
      ⟨_, hpool.resting ho, UInt32.le_iff_toNat_le.mpr hgone.le⟩
    exact ⟨.orderCancel _ 0 _ _ gone, .unprinted (wrote_emit _ _ rfl rfl) rfl ⟨rfl, rfl⟩ rfl
      ⟨k, rfl⟩ hfaultless hfill (fun _ => rfl) (.inl rfl)⟩

/-- The old order goes and a new one comes, in one message: the old reference is dead when the new
order is looked for a place. -/
theorem doReplace_told (h : Ready symbols f) (hne : f.live ≠ []) :
    ∃ m, Told symbols orders f f.doReplace 0 m := by
  obtain ⟨i, d1, old, hi, hlen, hget, hold⟩ := f.exists_pickLive hne hpool.length_lt
  obtain ⟨-, -, hside, hlisted⟩ := hpool.sound old hold
  obtain ⟨mid, d2, mids, hwalk⟩ := exists_walk { f with drawn := d1 } old.locate
  obtain ⟨r, d3, hr, hlots, hround, -⟩ := exists_lots { f with drawn := d2, mid := mids }
    (by decide : (20 : UInt64) ≠ 0) (by decide)
  obtain ⟨d, d4, hd, -⟩ := exists_below { f with drawn := d3, mid := mids } 10
  obtain ⟨k, d5, hk⟩ := exists_tickClock
    { f with drawn := d4, mid := mids, nextRef := f.nextRef + 1 }
  unfold doReplace
  simp only [hi, hget, hwalk, hr, hd, takeRef, hk]
  generalize hprice : (if old.side = 'B'.toUInt8 then _ else _ : UInt32) = price
  generalize (100 * (1 + r)).toUInt32 = shares at hlots hround
  let o : LiveOrder := ⟨f.nextRef, shares, price, old.locate, old.side⟩
  have ho : o.Sound symbols (f.nextRef + 1) := ⟨h.lt_next, ⟨hlots, hround⟩, hside, hlisted⟩
  -- the pool without the old order, and then with the new one at its end
  have hcons := hpool.perm (getD_cons_eraseIdx_perm hlen default).symm
  rw [hget] at hcons
  have hdrop := hcons.drop.perm (dropSwap_perm hlen default).symm
  obtain ⟨hfree, hplace⟩ := h.place hdrop (o := o) rfl ho
  have hmeans := hpool.resting hold
  have hfaultless : orders old.ref ≠ none ∧ f.nextRef ≠ kEmptyKey ∧
      Function.update orders old.ref none f.nextRef = none :=
    ⟨by rw [hmeans]; exact nofun, h.ref_ne, hfree⟩
  have hstep (ts : UInt64) :
      orders.step (.replace old.locate ts old.ref f.nextRef shares price) =
        Function.update (Function.update orders old.ref none) f.nextRef (some o.resting) := by
    simp only [Orders.step, hmeans]
    rfl
  exact ⟨.orderReplace _ 0 _ _ f.nextRef shares price, .unprinted (wrote_emit _ _ rfl rfl) rfl
    ⟨rfl, rfl⟩ rfl ⟨k, rfl⟩ hfaultless (hstep _ ▸ hplace) (fun _ => rfl) (.inr rfl)⟩

/-- A match against an order that was never shown. Its reference is taken, and nothing is live
under it, so the pool stays as it is below a higher bound. -/
theorem doTrade_told (h : Ready symbols f) : ∃ m, Told symbols orders f f.doTrade 0 m := by
  obtain ⟨locate, d1, hlocate, hpos, hle⟩ :=
    f.exists_pickLocate h.some_symbol (h.count ▸ h.narrow)
  rw [h.count] at hle
  obtain ⟨mid, d2, mids, hwalk⟩ := exists_walk { f with drawn := d1 } locate
  obtain ⟨r, d3, hr, -⟩ := exists_below { f with drawn := d2, mid := mids } 10
  obtain ⟨k, d4, hk⟩ := exists_tickClock
    { f with drawn := d3, mid := mids, nextRef := f.nextRef + 1 }
  unfold doTrade
  simp only [hlocate, hwalk, hr, takeRef, hk, takeMatch]
  exact ⟨.trade locate 0 _ f.nextRef _ _ _ mid _,
    { toWrote := wrote_emit _ _ rfl rfl
      executed := rfl
      total := rfl
      clock := rfl
      tick := ⟨k, rfl⟩
      faultless := trivial
      pool := hpool.issue (UInt64.le_of_lt h.lt_next)
      traded := fun _ => rfl
      listed := .inr ⟨hpos, hle⟩
      issued := .inr rfl }⟩

/-- The switch of `step`. -/
def SyntheticFeed.act (f : SyntheticFeed) : Action → SyntheticFeed
  | .add => f.doAdd false
  | .addMpid => f.doAdd true
  | .execute => f.doExecute false
  | .executePrice => f.doExecute true
  | .cancel => f.doCancel
  | .delete => f.doDelete
  | .replace => f.doReplace
  | .trade => f.doTrade

/-- **Every action** that has an order to act on, or needs none. -/
theorem act_told (h : Ready symbols f) {a : Action} (hne : a.needsOrder = true → f.live ≠ []) :
    ∃ m, Told symbols orders f (f.act a) 0 m := by
  cases a with
  | add => exact doAdd_told hpool h false
  | addMpid => exact doAdd_told hpool h true
  | execute => exact doExecute_told hpool (hne rfl) false
  | executePrice => exact doExecute_told hpool (hne rfl) true
  | cancel => exact doCancel_told hpool (hne rfl)
  | delete => exact doDelete_told hpool (hne rfl)
  | replace => exact doReplace_told hpool h (hne rfl)
  | trade => exact doTrade_told hpool h

/-- **A step** of the activity writes one message. -/
theorem step_told (h : Ready symbols f) : ∃ m, Told symbols orders f f.step 0 m := by
  obtain ⟨a, d, ha⟩ := f.exists_pickAction
  -- with nothing live, whatever was drawn becomes an add
  have hstep : f.step =
      { f with drawn := d }.act (if a.needsOrder && f.live.isEmpty then .add else a) := by
    unfold step
    simp only [ha]
    rfl
  have hready : Ready symbols { f with drawn := d } :=
    ⟨h.count, h.some_symbol, h.narrow, h.issued, h.more⟩
  rw [hstep]
  obtain ⟨m, hm⟩ := act_told (f := { f with drawn := d }) hpool hready
    (a := if a.needsOrder && f.live.isEmpty then .add else a) (by
      intro hneeds hnil
      split at hneeds
      · exact absurd hneeds (by decide)
      · rename_i hfree
        rw [show f.live = [] from hnil, List.isEmpty_nil, Bool.and_true] at hfree
        exact hfree hneeds)
  exact ⟨m, hm.drawn⟩

end Told

end Synthetic
end Tickerplant
