import Mathlib.Data.UInt
import Tickerplant.Synthetic.Clock
import Tickerplant.Synthetic.Kept

/-!
# The session is its own oracle

The whole stream, buffer by buffer, goes through the zero-copy decoder into a builder. Of what the
generator promises, the decoder counts as many messages, in all and of each type, the builder shows
as many orders, in all and of each symbol, and as much volume, and none of the counters of what
should not happen moves (`session_met`). What is left is the clock, of which the wire has six bytes
(`oracle_iff`).

`Met` has one clause for each promise. Most are read off `Kept`, the invariant of the run, and the
builder's own result for a stream in which it finds everything. Two are not:

* The builder's counters are by handler and the decoder's by type of message. `tallied` says once
  which types each of them counts, and `Tallies` that the sums agree.
* The resting orders of a symbol are counted from the list of live orders by the generator, and
  from the levels of both sides by the builder. Both are the number of references of that symbol in
  the map (`sum_both`).

The clock can fail: one symbol and nothing but trades, for 2^38 messages whose ticks are all 1999,
is a configuration the source accepts, and its timestamps start over (`not_correct_oneSymbol`).
-/

set_option autoImplicit false

namespace Tickerplant
namespace Synthetic

open Lib Itch SyntheticFeed

/-! ## The stream, decoded

The decoder is fed the buffers the sink was given, and its handler keeps the calls. -/

/-- The timestamp of a call. -/
def heardAt : HandlerCall → UInt64
  | .onSystemEvent ts _ | .onStockDirectory _ ts _ _ | .onTradingAction _ ts _
  | .onAdd _ ts _ _ _ _ _ | .onExecute _ ts _ _ _ | .onExecutePrice _ ts _ _ _ _ _
  | .onCancel _ ts _ _ | .onDelete _ ts _ | .onReplace _ ts _ _ _ _ | .onTrade _ ts _ _ _ _ _
  | .onCrossTrade _ ts _ _ _ _ | .onBrokenTrade _ ts _ | .onOther _ _ ts => ts

/-- A handler is told six bytes of the timestamp. -/
theorem heardAt_call (m : Message) : heardAt m.call = sixBytes m.timestamp := by
  cases m <;> rfl

/-- A handler that keeps the calls it gets. -/
def noted (calls : List HandlerCall) (call : HandlerCall) : List HandlerCall := calls ++ [call]

/-- The buffers of a stream, decoded in turn: the answers, the decoder, and the calls it made. -/
def decoded (stream : List (List UInt8)) :
    Checked (List (DecodeResult × ℕ) × ZeroCopyDecoder × List HandlerCall) :=
  feed (ZeroCopyDecoder.decode noted) {} [] 0 stream

/-- Messages are decoded one for one, from any state of the decoder. -/
theorem feed_messages (ms : List Message) : ∀ (d : ZeroCopyDecoder) (calls : List HandlerCall)
    (consumed : ℕ), feed (ZeroCopyDecoder.decode noted) d calls consumed (ms.map Message.bytes) =
      .ok (ms.map fun m => (.ok, messageLength m.type),
        { stats := ms.foldl (fun s m => s.count m.type (messageLength m.type)) d.stats },
        calls ++ ms.map Message.call) := by
  induction ms with
  | nil =>
    intro d calls _
    rw [List.map_nil, List.map_nil, List.map_nil, List.append_nil]
    rfl
  | cons m ms ih =>
    intro d calls consumed
    obtain ⟨e, he, hcall⟩ := m.holds []
    rw [List.append_nil] at he
    have hone := d.decode_holds noted calls consumed he
    rw [hcall] at hone
    have hsplit : calls ++ (m :: ms).map Message.call =
        noted calls m.call ++ ms.map Message.call := by
      rw [noted, List.append_assoc]
      rfl
    rw [hsplit]
    exact feed_cons hone (ih _ _ _)

/-- And from a new one. -/
theorem decoded_messages (ms : List Message) : decoded (ms.map Message.bytes) =
    .ok (ms.map fun m => (.ok, messageLength m.type), { stats := counted ms },
      ms.map Message.call) := feed_messages ms {} [] 0

/-! ## What the builder counts

The builder counts by handler, the decoder by type. An add with an attribution is counted with the
adds and on its own, and so is an execution with a price. -/

/-- The counters of the builder, and the types of the messages that each counts. -/
def tallied : List ((BookStats → ℕ) × List UInt8) :=
  [(BookStats.adds, ['A'.toUInt8, 'F'.toUInt8]), (BookStats.addsMpid, ['F'.toUInt8]),
    (BookStats.executes, ['E'.toUInt8, 'C'.toUInt8]), (BookStats.executesWithPrice, ['C'.toUInt8]),
    (BookStats.cancels, ['X'.toUInt8]), (BookStats.deletes, ['D'.toUInt8]),
    (BookStats.replaces, ['U'.toUInt8]), (BookStats.trades, ['P'.toUInt8]),
    (BookStats.crossTrades, ['Q'.toUInt8]), (BookStats.brokenTrades, ['B'.toUInt8]),
    (BookStats.directoryEntries, ['R'.toUInt8]), (BookStats.tradingActions, ['H'.toUInt8]),
    (BookStats.systemEvents, ['S'.toUInt8]), (BookStats.other, [])]

/-- The builder has counted what the decoder has. -/
structure Tallies (s : BookStats) (d : DecodeStats) : Prop where
  messages : UInt64.ofNat s.messages = d.messages
  /-- Each counter is the sum over its types. -/
  types : ∀ t ∈ tallied, UInt64.ofNat (t.1 s) = (t.2.map d.byType).sum

/-- An event moves the counters of its type. -/
theorem tallied_hear (s : BookStats) (m : Message) : ∀ t ∈ tallied,
    t.1 (s.hear (event m.call)) = t.1 s + if m.type ∈ t.2 then 1 else 0 := by
  unfold tallied
  simp only [List.forall_mem_cons]
  -- fourteen counters against thirteen kinds of message, each by computation
  cases m <;>
    exact ⟨rfl, rfl, rfl, rfl, rfl, rfl, rfl, rfl, rfl, rfl, rfl, rfl, rfl, rfl,
      fun _ h => absurd h List.not_mem_nil⟩

/-- No counter counts a type twice. -/
theorem tallied_nodup : ∀ t ∈ tallied, t.2.Nodup := by
  unfold tallied
  decide

/-- Counting a message of a type, summed over some types. -/
theorem sum_update {types : List UInt8} (h : types.Nodup) (byType : UInt8 → UInt64) (type : UInt8) :
    (types.map (Function.update byType type (byType type + 1))).sum =
      (types.map byType).sum + if type ∈ types then 1 else 0 := by
  induction types with
  | nil => rfl
  | cons c types ih =>
    obtain ⟨hc, hnodup⟩ := List.nodup_cons.mp h
    rw [List.map_cons, List.map_cons, List.sum_cons, List.sum_cons, ih hnodup]
    by_cases htype : type = c
    · subst htype
      rw [Function.update_self, if_neg hc, if_pos List.mem_cons_self, UInt64.add_zero,
        UInt64.add_assoc, UInt64.add_comm 1, UInt64.add_assoc]
    · rw [Function.update_of_ne (Ne.symm htype), UInt64.add_assoc]
      simp only [List.mem_cons, htype, false_or]

/-- One more message keeps the two in step. -/
theorem Tallies.hear {s : BookStats} {d : DecodeStats} (h : Tallies s d) (m : Message) :
    Tallies (s.hear (event m.call)) (d.count m.type (messageLength m.type)) where
  messages := by
    have hone : (s.hear (event m.call)).messages = s.messages + 1 := by
      cases m <;> rfl
    rw [hone, UInt64.ofNat_add, h.messages]
    rfl
  types := by
    intro t ht
    rw [tallied_hear s m t ht, UInt64.ofNat_add, h.types t ht]
    refine (sum_update (tallied_nodup t ht) d.byType m.type).symm ▸ ?_
    split <;> rfl

/-- So the messages of a stream do. -/
theorem tallies (ms : List Message) :
    Tallies ((heard ms).foldl BookStats.hear {}) (counted ms) := by
  have hrun (ms : List Message) : ∀ {s : BookStats} {d : DecodeStats}, Tallies s d →
      Tallies ((heard ms).foldl BookStats.hear s)
        (ms.foldl (fun d m => d.count m.type (messageLength m.type)) d) := by
    induction ms with
    | nil => exact fun h => h
    | cons m ms ih => exact fun h => ih (h.hear m)
  refine hrun ms ⟨rfl, ?_⟩
  unfold tallied
  simp only [List.forall_mem_cons]
  exact ⟨rfl, rfl, rfl, rfl, rfl, rfl, rfl, rfl, rfl, rfl, rfl, rfl, rfl, rfl,
    fun _ h => absurd h List.not_mem_nil⟩

/-! ## What rests

The orders of a symbol: as references of a map, as orders on levels, and as members of the pool. -/

section Resting

variable {symbols : ℕ} {nextRef : UInt64} {live : List LiveOrder} {m : Orders}

/-- The prices of a side, each once. -/
theorem sortedPrices_spec (m : Orders) (stock : UInt16) (side : Side) :
    (m.sortedPrices stock side).Nodup ∧
      (m.sortedPrices stock side).toFinset = m.prices stock side := by
  cases side with
  | buy => exact ⟨Finset.sort_nodup _ _, Finset.sort_toFinset _ _⟩
  | sell => exact ⟨Finset.sort_nodup _ _, Finset.sort_toFinset _ _⟩

/-- Every order of a side is on the level of its price. -/
theorem card_side (m : Orders) (stock : UInt16) (side : Side) :
    (m.refs fun r => r.symbol = stock ∧ r.side = side).card =
      ∑ p ∈ m.prices stock side, (m.refsAt stock side p).card := by
  -- the references of the side, sorted by the price of their order
  rw [Finset.card_eq_sum_card_image fun ref => ((m ref).map (·.price)).getD 0]
  refine Finset.sum_congr rfl fun p _ => congrArg _ ?_
  ext ref
  rw [Finset.mem_filter, Orders.refsAt, Orders.mem_refs, Orders.mem_refs]
  constructor
  · rintro ⟨⟨r, hr, hstock, hside⟩, hp⟩
    rw [hr] at hp
    exact ⟨r, hr, hstock, hside, hp⟩
  · rintro ⟨r, hr, hstock, hside, hp⟩
    refine ⟨⟨r, hr, hstock, hside⟩, ?_⟩
    rw [hr]
    exact hp

/-- The orders of a side, summed over its levels. -/
theorem sum_levels (m : Orders) (stock : UInt16) (side : Side) :
    ((m.levels stock side).map DepthLevel.orders).sum =
      UInt32.ofNat (m.refs fun r => r.symbol = stock ∧ r.side = side).card := by
  -- the levels count in 32 bits, and so is the sum
  have hsum (l : List ℕ) : (l.map UInt32.ofNat).sum = UInt32.ofNat l.sum := by
    induction l with
    | nil => rfl
    | cons n l ih => rw [List.map_cons, List.sum_cons, List.sum_cons, ih, UInt32.ofNat_add]
  have hcard : ((m.sortedPrices stock side).map fun p => (m.refsAt stock side p).card).sum =
      (m.refs fun r => r.symbol = stock ∧ r.side = side).card := by
    obtain ⟨hnodup, hprices⟩ := sortedPrices_spec m stock side
    rw [card_side, ← hprices, List.sum_toFinset _ hnodup]
  have hmap : (m.levels stock side).map DepthLevel.orders =
      ((m.sortedPrices stock side).map fun p => (m.refsAt stock side p).card).map UInt32.ofNat := by
    unfold Orders.levels
    rw [List.map_map, List.map_map]
    rfl
  rw [hmap, hsum, hcard]

/-- What rests of a symbol, on the levels of both sides. -/
theorem sum_both (h : Pool symbols nextRef live m) (stock : UInt16) :
    ((m.levels stock .buy ++ m.levels stock .sell).map DepthLevel.orders).sum =
      UInt32.ofNat (live.countP fun o => o.locate = stock) := by
  have hside (side : Side) : (m.refs fun r => r.symbol = stock ∧ r.side = side).card =
      live.countP fun o => decide (o.locate = stock ∧ o.resting.side = side) := by
    have hcard := h.card_refs fun r => decide (r.symbol = stock ∧ r.side = side)
    simp only [decide_eq_true_eq] at hcard
    exact hcard
  -- every order is on one side or the other
  have hboth (l : List LiveOrder) : (l.countP fun o => o.locate = stock) =
      (l.countP fun o => decide (o.locate = stock ∧ o.resting.side = .buy)) +
        l.countP fun o => decide (o.locate = stock ∧ o.resting.side = .sell) := by
    induction l with
    | nil => rfl
    | cons o l ih =>
      simp only [List.countP_cons, ih, decide_eq_true_eq]
      cases hs : o.resting.side <;> by_cases hl : o.locate = stock <;> simp [hl] <;> omega
  rw [List.map_append, List.sum_append, sum_levels, sum_levels, hside, hside, hboth,
    UInt32.ofNat_add]

/-- The promise per symbol, read off the live orders. -/
theorem foldl_resting (live : List LiveOrder) : ∀ g : ℕ → UInt32,
    (∀ o ∈ live, 1 ≤ o.locate.toNat ∧ o.locate.toNat ≤ symbols) → symbols ≤ 65535 →
    live.foldl (fun resting o => resting.modify (o.locate.toNat - 1) (· + 1))
        ((List.range symbols).map g) =
      (List.range symbols).map fun i =>
        g i + UInt32.ofNat (live.countP fun o => o.locate = UInt16.ofNat (i + 1)) := by
  induction live with
  | nil =>
    intro g _ _
    refine List.map_congr_left fun i _ => ?_
    exact (UInt32.add_zero _).symm
  | cons o live ih =>
    intro g hlisted hnarrow
    obtain ⟨⟨hpos, hle⟩, hlisted'⟩ := List.forall_mem_cons.mp hlisted
    rw [List.foldl_cons, modify_range, ih _ hlisted' hnarrow]
    refine List.map_congr_left fun i hi => ?_
    have hi : i < symbols := List.mem_range.mp hi
    have hlocate : (UInt16.ofNat (i + 1)).toNat = i + 1 :=
      UInt16.toNat_ofNat_of_lt' (show i + 1 < 2 ^ 16 by omega)
    -- a locate and its column name each other, as long as locates are two bytes
    have hiff : o.locate = UInt16.ofNat (i + 1) ↔ o.locate.toNat - 1 = i := by
      rw [← UInt16.toNat_inj, hlocate]
      omega
    rw [List.countP_cons, UInt32.ofNat_add]
    by_cases hmine : o.locate.toNat - 1 = i
    · rw [if_pos hmine, if_pos (decide_eq_true (hiff.mpr hmine)), UInt32.add_assoc,
        UInt32.add_comm 1]
      rfl
    · rw [if_neg hmine, if_neg (mt of_decide_eq_true (mt hiff.mp hmine))]
      rw [show UInt32.ofNat 0 = 0 from rfl, UInt32.add_zero]

end Resting

/-! ## The oracle

A builder's counters of what it heard are the events', whatever else it has counted. -/

/-- Only what was heard is tallied. -/
theorem tallies_of_heard {s s' : BookStats} {d : DecodeStats} (hs : s.heard = s'.heard)
    (h : Tallies s d) : Tallies s' d := by
  have hkept (s : BookStats) : ∀ t ∈ tallied, t.1 s = t.1 s.heard := by
    unfold tallied
    simp only [List.forall_mem_cons]
    exact ⟨rfl, rfl, rfl, rfl, rfl, rfl, rfl, rfl, rfl, rfl, rfl, rfl, rfl, rfl,
      fun _ h => absurd h List.not_mem_nil⟩
  have hmessages : s.heard.messages = s'.heard.messages := congrArg BookStats.messages hs
  refine ⟨(congrArg UInt64.ofNat hmessages).symm.trans h.messages, fun t ht => ?_⟩
  rw [hkept s' t ht, ← hs, ← hkept s t ht]
  exact h.types t ht

section Session

variable {L P : Type} [PriceLevel L] [MemoryPool P]

/-- The orders a symbol has, on all its levels. -/
def restingOf (b : BookBuilder L P) (stock : UInt16) : UInt32 :=
  ((b.levels stock .buy ++ b.levels stock .sell).map DepthLevel.orders).sum

/-- **The promises are met**: nothing happened that should not, and what was promised is what the
decoder counted and what the builder shows. -/
structure Met (exp : SyntheticExpectation) (symbols : ℕ) (d : DecodeStats) (b : BookBuilder L P) :
    Prop where
  /-- No order was missing, none was there twice, and nothing went below zero. -/
  violations : ∀ n ∈ b.stats.violations, n = 0
  messages : exp.messages = d.messages
  byType : exp.byType = d.byType
  tallies : Tallies b.stats d
  resting : exp.restingOrders = UInt64.ofNat b.stats.liveOrders
  restingBySymbol : exp.restingBySymbol =
    (List.range symbols).map fun i => restingOf b (UInt16.ofNat (i + 1))
  executed : exp.executedShares =
    (List.range symbols).map fun i => (b.totals (UInt16.ofNat (i + 1))).executedShares
  executedTotal : exp.executedSharesTotal =
    ((List.range symbols).map fun i => (b.totals (UInt16.ofNat (i + 1))).executedShares).sum

variable [LawfulPriceLevel L] [LawfulMemoryPool P]

/-- What is kept at the end is what is promised. -/
theorem Kept.met {symbols : ℕ} {g : SyntheticFeed} {ms : List Message}
    (h : Kept symbols (MemoryPool.capacity (MemoryPool.make : P)) g ms) (hnarrow : symbols ≤ 65535)
    (kind : SideKind) (orderMapCapacity : ℕ) :
    ∃ b, BookBuilder.run kind (BookBuilder.make orderMapCapacity : BookBuilder L P) (heard ms) =
      some b ∧ Met g.finish.exp symbols (counted ms) b := by
  obtain ⟨b, hb, hshows, hvolume, hheard⟩ :=
    BookBuilder.run_faultless (L := L) kind orderMapCapacity h.fits
  have hexecuted : g.exp.executedShares = (List.range symbols).map fun i =>
      (b.totals (UInt16.ofNat (i + 1))).executedShares := by
    rw [h.executed]
    exact List.map_congr_left fun i _ => (hvolume _).symm
  refine ⟨b, hb, ?_⟩
  exact {
    violations := by
      rw [BookStats.violations_of_heard hheard, BookStats.violations_foldl]
      decide
    messages := h.messages
    byType := h.byType
    tallies := tallies_of_heard hheard.symm (tallies ms)
    resting := by
      rw [hshows.live, h.pool.live_eq]
      rfl
    -- the generator counts at the end, from the columns it set to zero at the start
    restingBySymbol := by
      have hzero : g.exp.restingBySymbol = (List.range symbols).map fun _ => 0 := by
        rw [h.resting, List.map_const', List.length_range]
      show g.live.foldl _ g.exp.restingBySymbol = _
      rw [hzero, foldl_resting g.live _ (fun o ho => (h.pool.sound o ho).listed) hnarrow]
      refine List.map_congr_left fun i _ => ?_
      rw [restingOf, hshows.levels, hshows.levels, sum_both h.pool, UInt32.zero_add]
    executed := hexecuted
    executedTotal := by
      rw [← hexecuted]
      exact h.total }

/-- **A session keeps its promises**, whatever its clock does, and its timestamps are what six bytes
hold of that clock. -/
theorem session_met {cfg : SyntheticConfig} {rng : ℕ → UInt64} {f : SyntheticFeed}
    (hmake : make cfg rng = .ok f) (hnarrow : cfg.symbols.toNat ≤ 65535)
    (hroom : Trace.Always perform
      (fun f => f.live.length ≤ MemoryPool.capacity (MemoryPool.make : P)) f (script cfg))
    (kind : SideKind) (orderMapCapacity : ℕ) :
    ∃ answers d calls, decoded f.generate.sent = .ok (answers, d, calls) ∧
      (∀ a ∈ answers, a.1 = .ok) ∧ calls.map heardAt = (clocks f (script cfg)).map sixBytes ∧
      ∃ b, BookBuilder.run kind (BookBuilder.make orderMapCapacity : BookBuilder L P)
        (calls.map event) = some b ∧ Met f.generate.exp cfg.symbols.toNat d.stats b := by
  obtain ⟨ms, g, hgenerate, hkept, hclocks, -⟩ := session_kept hmake hnarrow hroom
  obtain ⟨b, hb, hmet⟩ := hkept.met (L := L) hnarrow kind orderMapCapacity
  have hsent : f.generate.sent = ms.map Message.bytes := hgenerate ▸ hkept.sent
  refine ⟨_, _, _, hsent ▸ decoded_messages ms, ?_, ?_, b, ?_, hgenerate ▸ hmet⟩
  · intro a ha
    obtain ⟨m, -, rfl⟩ := List.mem_map.mp ha
    rfl
  · rw [← hclocks, List.map_map, List.map_map]
    exact List.map_congr_left fun m _ => heardAt_call m
  · rw [List.map_map]
    exact hb

omit [PriceLevel L] [MemoryPool P] [LawfulPriceLevel L] [LawfulMemoryPool P] in
/-- The timestamps of a session ascend exactly if its clock stays below 2^48. -/
theorem session_ascends {cfg : SyntheticConfig} {f : SyntheticFeed} (hstart : f.ts = 0)
    (hticks : Trace.Along perform Ticks f (script cfg)) :
    ((clocks f (script cfg)).map sixBytes).Pairwise (· ≤ ·) ↔
      Trace.Always perform (fun f => f.ts.toNat < 2 ^ 48) f (script cfg) := by
  obtain ⟨rest, hscript⟩ : ∃ rest, script cfg =
      .systemEvent kPreMarketNs 'O'.toUInt8 :: rest := ⟨_, rfl⟩
  rw [hscript] at hticks ⊢
  obtain ⟨⟨-, -, k, hk⟩, hrest⟩ := hticks
  have hzero : f.ts.toNat < 2 ^ 48 := by
    rw [hstart]
    decide
  -- the first message is of four in the morning
  have hpast : 2000 ≤ (f.perform (.systemEvent kPreMarketNs 'O'.toUInt8)).ts.toNat ∧
      (f.perform (.systemEvent kPreMarketNs 'O'.toUInt8)).ts.toNat < 2 ^ 48 := by
    have hup : (f.atLeast kPreMarketNs).ts = kPreMarketNs := by
      unfold atLeast
      rw [hstart, if_pos (by decide)]
    have hdraw : (f.rng k % 2000).toNat < 2000 := by
      rw [UInt64.toNat_mod]
      exact Nat.mod_lt _ (by decide)
    have hpre : kPreMarketNs.toNat = 14400000000000 := by decide
    have hsum : (f.perform (.systemEvent kPreMarketNs 'O'.toUInt8)).ts.toNat =
        kPreMarketNs.toNat + (f.rng k % 2000).toNat := by
      rw [hk, show Act.floor (.systemEvent kPreMarketNs 'O'.toUInt8) = kPreMarketNs from rfl, hup,
        UInt64.toNat_add]
      exact Nat.mod_eq_of_lt (by omega)
    omega
  -- neighbours in order are all in order
  have htrans : Trans (α := UInt64) (· ≤ ·) (· ≤ ·) (· ≤ ·) := ⟨UInt64.le_trans⟩
  rw [← List.isChain_iff_pairwise]
  exact (ascending_iff rest hpast.1 hpast.2 hrest).trans ⟨fun h => ⟨hzero, h⟩, fun h => h.2⟩

/-- **A correct oracle**: the whole stream goes through the decoder into a builder, the promises are
met, and the timestamps do not go back. -/
def Correct (L P : Type) [PriceLevel L] [MemoryPool P] (kind : SideKind) (orderMapCapacity : ℕ)
    (f : SyntheticFeed) : Prop :=
  ∃ answers d calls, decoded f.generate.sent = .ok (answers, d, calls) ∧
    (∀ a ∈ answers, a.1 = .ok) ∧ (calls.map heardAt).Pairwise (· ≤ ·) ∧
    ∃ b, BookBuilder.run kind (BookBuilder.make orderMapCapacity : BookBuilder L P)
      (calls.map event) = some b ∧ Met f.generate.exp f.cfg.symbols.toNat d.stats b

/-- What a correct session says of its clock. -/
theorem Correct.clock {cfg : SyntheticConfig} {rng : ℕ → UInt64} {f : SyntheticFeed}
    {kind : SideKind} {orderMapCapacity : ℕ} (h : Correct L P kind orderMapCapacity f)
    (hmake : make cfg rng = .ok f) (hnarrow : cfg.symbols.toNat ≤ 65535)
    (hroom : Trace.Always perform
      (fun f => f.live.length ≤ MemoryPool.capacity (MemoryPool.make : P)) f (script cfg)) :
    Trace.Along perform Ticks f (script cfg) ∧
      Trace.Always perform (fun f => f.ts.toNat < 2 ^ 48) f (script cfg) := by
  obtain ⟨_, _, -, -, -, hticks⟩ := session_kept hmake hnarrow hroom
  obtain ⟨answers, d, calls, hdecoded, -, hclocks, -⟩ :=
    session_met (L := L) hmake hnarrow hroom kind orderMapCapacity
  obtain ⟨answers', d', calls', hdecoded', -, hascends, -⟩ := h
  obtain ⟨-, hd⟩ := Prod.mk.inj (Except.ok.inj (hdecoded.symm.trans hdecoded'))
  rw [← (Prod.mk.inj hd).2, hclocks] at hascends
  exact ⟨hticks, (session_ascends (fresh_of_make hmake).2.ts hticks).mp hascends⟩

/-- **The session is a correct oracle** exactly if its clock stays below 2^48 nanoseconds, what the
wire has room for. -/
theorem oracle_iff (cfg : SyntheticConfig) (rng : ℕ → UInt64) {f : SyntheticFeed}
    (hmake : make cfg rng = .ok f) (hnarrow : cfg.symbols.toNat ≤ 65535)
    (hroom : Trace.Always perform
      (fun f => f.live.length ≤ MemoryPool.capacity (MemoryPool.make : P)) f (script cfg))
    (kind : SideKind) (orderMapCapacity : ℕ) :
    Correct L P kind orderMapCapacity f ↔
      Trace.Always perform (fun f => f.ts.toNat < 2 ^ 48) f (script cfg) := by
  refine ⟨fun h => (h.clock hmake hnarrow hroom).2, fun hclock => ?_⟩
  obtain ⟨_, _, -, -, -, hticks⟩ := session_kept hmake hnarrow hroom
  have hfresh := (fresh_of_make hmake).2
  obtain ⟨answers, d, calls, hdecoded, hok, hclocks, b, hb, hmet⟩ :=
    session_met (L := L) hmake hnarrow hroom kind orderMapCapacity
  have hascends := (session_ascends hfresh.ts hticks).mpr hclock
  exact ⟨answers, d, calls, hdecoded, hok, hclocks ▸ hascends, b, hb, hfresh.cfg ▸ hmet⟩

/-- Two symbols and two actions. -/
def twoSymbols : SyntheticConfig := { symbols := 2, messages := 14 }

/-- Draws that count up. -/
def counting (k : ℕ) : UInt64 := UInt64.ofNat (37 * k)

theorem oracle_iff_twoSymbols : Correct ListLevel (CellPool 4) .vector 8
    (buildSymbols { cfg := twoSymbols, rng := counting }) :=
  (oracle_iff (L := ListLevel) (P := CellPool 4) twoSymbols counting rfl (by decide)
    (by decide +kernel) .vector 8).mpr (by decide +kernel)

end Session

/-! ### Days of trades -/

/-- One symbol, and nothing but trades, for 2^38 messages. -/
def oneSymbol : SyntheticConfig where
  symbols := 1
  messages := 274877906944
  mix := {
    add := 0, addMpid := 0, execute := 0, executePrice := 0, cancel := 0, del := 0, replace := 0
    trade := 1 }

theorem step_oneSymbol {f : SyntheticFeed} (h : f.cfg = oneSymbol) :
    f.step.cfg = f.cfg ∧ f.step.live = f.live := by
  have hpick : ∃ d, f.pickAction = (.trade, { f with drawn := d }) := by
    obtain ⟨r, d, hr, -⟩ := f.exists_below f.cfg.mix.total.toUInt64
    have hzero (x : UInt64) : ¬ x < (0 : UInt32).toUInt64 := UInt64.not_lt_zero
    refine ⟨d, ?_⟩
    rw [h] at hr
    simp only [pickAction, h, hr]
    simp only [oneSymbol, hzero, if_false]
  obtain ⟨d, hd⟩ := hpick
  have hstep : f.step = { f with drawn := d }.doTrade := by
    unfold SyntheticFeed.step
    simp only [hd]
    rfl
  obtain ⟨locate, d1, hlocate, -⟩ := exists_pickLocate { f with drawn := d }
    (show f.cfg.symbols ≠ 0 by rw [h]; decide) (show f.cfg.symbols.toNat ≤ _ by rw [h]; decide)
  obtain ⟨mid, d2, mids, hwalk⟩ := exists_walk { f with drawn := d1 } locate
  obtain ⟨r, d3, hr, -⟩ := exists_below { f with drawn := d2, mid := mids } 10
  rw [hstep]
  unfold doTrade
  simp only [hlocate, hwalk, hr]
  exact ⟨rfl, rfl⟩

theorem perform_oneSymbol {f : SyntheticFeed} (a : Act) (h : f.cfg = oneSymbol ∧ f.live = []) :
    (f.perform a).cfg = oneSymbol ∧ (f.perform a).live = [] := by
  cases a with
  | systemEvent t code =>
    have hcfg : (f.perform (.systemEvent t code)).cfg = f.cfg := perform_cfg nofun
    refine ⟨hcfg.trans h.1, ?_⟩
    show (f.atLeast t).live = []
    unfold atLeast
    split <;> exact h.2
  | stockDirectory i => exact h
  | tradingAction i => exact h
  | cross i crossType => exact h
  | step =>
    obtain ⟨hcfg, hlive⟩ := step_oneSymbol h.1
    exact ⟨hcfg.trans h.1, hlive.trans h.2⟩

/-- **Days of trades**: draws of 1999 take the clock past 2^48 before the session ends, and the
timestamps start over. -/
theorem not_correct_oneSymbol : ∃ f, make oneSymbol (fun _ => 1999) = .ok f ∧
    Trace.Always perform
      (fun f => f.live.length ≤ MemoryPool.capacity (MemoryPool.make : CellPool 4))
      f (script oneSymbol) ∧
    ¬ Correct ListLevel (CellPool 4) .vector 8 f := by
  obtain ⟨f, hmake⟩ : ∃ f, make oneSymbol (fun _ => 1999) = .ok f := ⟨_, rfl⟩
  have hfresh := (fresh_of_make hmake).2
  have hroom : Trace.Always perform
      (fun f => f.live.length ≤ MemoryPool.capacity (MemoryPool.make : CellPool 4))
      f (script oneSymbol) := by
    have hempty : Trace.Always perform (fun f => f.cfg = oneSymbol ∧ f.live = []) f
        (script oneSymbol) :=
      Trace.always_of_along (P := fun _ _ => True) (fun _ a hs _ => perform_oneSymbol a hs) _ f
        ⟨hfresh.cfg, hfresh.live⟩ (.of_forall fun _ _ => trivial)
    refine hempty.mono fun g hg => ?_
    rw [hg.2]
    exact Nat.zero_le _
  refine ⟨f, hmake, hroom, fun h => ?_⟩
  obtain ⟨hticks, hclock⟩ := h.clock hmake (by decide) hroom
  have hdraws (k : ℕ) : 1999 ≤ (f.rng k % 2000).toNat := by
    rw [hfresh.rng]
    exact (by decide : 1999 ≤ ((1999 : UInt64) % 2000).toNat)
  have hbound := ticks_le 1999 (script oneSymbol) hdraws hticks hclock
  have hlong : (script oneSymbol).length = 274877906944 := by
    unfold script
    rw [List.length_append, List.length_append, List.length_replicate]
    decide
  rw [hlong] at hbound
  omega

end Synthetic
end Tickerplant
