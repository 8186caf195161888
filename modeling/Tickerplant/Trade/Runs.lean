import Tickerplant.Trade.Turn

/-!
# Sessions of the trading loop

What holds after every message of every feed: well formed or not, whatever the clock answers,
whichever way the venue picks among the orders that are reached. The only bounds are on numbers.
The position limit is not negative and at most `2 ^ 62`, and the feed has fewer than `2 ^ 39`
messages, which is how long our order numbers stay below the market's.

Two of the results are worth a word. The gate is told of a fill under whichever token its side has
by then and is never told of a cancel, so its account of what works is not the venue's; the
position limit holds at the venue all the same (`position_limited`). The price of that is
`sends_bounded`: an order the gate has once let out it counts until it fills, and after as many as
it may count no other leaves.

The invariant of a turn speaks of one locate, that of the symbol. Until the directory has named it
there is none, and the invariant holds for any, since no order has been sent (`Paused`). A session
is an induction on the messages, each of which leaves room for two orders of ours and two of the
market's fewer (`session_paused`), and every result is read off the invariant in its last state.
-/

set_option autoImplicit false

namespace Tickerplant

open Lib Itch RiskEngine

namespace TradeLoop

section Session

variable {E L P : Type} [MatchingEngine E] [LawfulMatchingEngine E] [PriceLevel L] [MemoryPool P]
  {opt : TradeOptions} {s : TradeLoop E L P} {a b : ℕ}

/-! ## Between messages

The fills are drained at the end of a turn, so none is left between messages. -/

/-- Between two messages. Until the symbol is known it may turn out to be any. -/
structure Paused (opt : TradeOptions) (a b : ℕ) (s : TradeLoop E L P) : Prop where
  /-- The invariant holds for the symbol's locate, if it is known. -/
  kept : ∀ loc, s.locate = none ∨ s.locate = some loc → Kept opt loc [] s
  drained : s.venue.fills = []
  room : Room a b s

omit [PriceLevel L] [MemoryPool P] in
/-- Some locate stands for the symbol. -/
theorem Paused.any (h : Paused opt a b s) : ∃ loc, Kept opt loc [] s := by
  cases hlocate : s.locate with
  | none => exact ⟨0, h.kept 0 (.inl hlocate)⟩
  | some loc => exact ⟨loc, h.kept loc (.inr hlocate)⟩

omit [PriceLevel L] [MemoryPool P] in
/-- Room for more is room for fewer. -/
theorem Paused.mono {a' b' : ℕ} (h : Paused opt a b s) (ha : a' ≤ a) (hb : b' ≤ b) :
    Paused opt a' b' s :=
  ⟨h.kept, h.drained, h.room.mono ha hb⟩

/-- A gate that nothing has come to is in order, for any symbol. -/
theorem gate_make {limits : RiskLimits} (loc : UInt16)
    (hlimit : 0 ≤ limits.maxPositionShares.toInt) : Gate limits loc (make limits) where
  books := (idle_make limits).books
  covered := by
    have hnone := (idle_make limits).held
    constructor
    · intro l
      rw [hnone]
      exact hlimit
    · intro l
      rw [hnone]
      exact Int.neg_nonpos_of_nonneg hlimit
  limits := rfl
  live := rfl
  here o ho := by
    rw [(idle_make limits).held] at ho
    exact absurd ho (Finset.notMem_empty o)

omit [PriceLevel L] in
/-- The loop starts with every account empty. -/
theorem kept_start (opt : TradeOptions) (loc : UInt16)
    (hlimit : 0 ≤ opt.limits.maxPositionShares.toInt) :
    Kept opt loc [] (start opt : TradeLoop E L P) := by
  have hheld := (idle_make opt.limits).held
  have hours := Venue.ours_make (E := E) opt.symbol (start opt : TradeLoop E L P).nextOurId
  have hrest : (start opt : TradeLoop E L P).venue.resting opt.symbol = [] :=
    LawfulMatchingEngine.resting_make opt.symbol
  have hno (o : OpenOrder) : o ∉ (make opt.limits).table.held := by
    rw [hheld]
    exact Finset.notMem_empty o
  refine {
    gate := gate_make loc hlimit
    ours := hours
    accounts := ⟨fun b => ?_, fun b => ?_, ?_⟩
    priced := ?_
    named := ⟨rfl, fun o ho => absurd ho (hno o), fun side => .inl rfl,
      fun o ho => absurd ho (hno o)⟩
    owns := rfl
    shares := rfl
    cfg := rfl
    alone := ?_
    orders := Nat.zero_le _
    count := rfl
    wire := List.length_replicate
    fit := ?_
    rested := rfl
    fresh := List.nodup_nil
    made := ?_
    book := FlatOrderMap.wf_make _ }
  · show workingOf (make opt.limits).table.held loc b ≤ 0
    rw [hheld]
    exact Nat.le_refl _
  · exact Nat.zero_le _
  · show (0 : ℤ) = (0 - workingOf (make opt.limits).table.held loc true : ℤ) -
      (0 - workingOf (make opt.limits).table.held loc false)
    rw [hheld]
    rfl
  · rw [Priced, hrest]
    exact fun o ho => absurd ho List.not_mem_nil
  · exact fun x hx => absurd hx List.not_mem_nil
  · exact fun x hx => absurd hx List.not_mem_nil
  · exact fun x hx => absurd hx List.not_mem_nil

omit [PriceLevel L] in
/-- So the loop starts between messages. -/
theorem paused_start {n : ℕ} (hlimit : 0 ≤ opt.limits.maxPositionShares.toInt)
    (hroom : n < 2 ^ 40) : Paused opt n n (start opt : TradeLoop E L P) where
  kept loc _ := kept_start opt loc hlimit
  drained := rfl
  room := by
    refine ⟨?_, ?_, UInt64.le_refl _, ?_⟩
    · show 1 + n ≤ 2 ^ 40
      omega
    · show 0 + n ≤ 2 ^ 40
      omega
    · show 2 ^ 40 + n ≤ 2 ^ 41
      omega

/-! ## One message

The book hears every message. What else is done depends on whether the symbol is known, on whether
the message has a header, and on whether it is of the symbol. -/

/-- The book hears a message, whatever it is. -/
theorem exists_heard (d : ZeroCopyDecoder) (msg : List UInt8) {book : BookBuilder L P}
    (h : book.orders.Wf splitMix64) :
    ∃ r book', ZeroCopyDecoder.decode (onCall .map) d msg (some book) 0 = .ok r ∧
      r.handler = some book' ∧ book'.orders.Wf splitMix64 := by
  obtain ⟨r, hr, hheard⟩ := Replay.speaks_zeroCopy (onCall .map) d msg (some book) 0
  -- a buffer that holds no message is no call, and the book stays as it is
  cases hcall : Replay.callOf msg with
  | none => exact ⟨r, book, hr, by rw [hheard, hcall]; rfl, h⟩
  | some call =>
    obtain ⟨book', hbook', hwf, -⟩ : BookBuilder.Answers
        (book.apply .map (Synthetic.event call)) (book.symbols.hear (Synthetic.event call)) :=
      BookBuilder.apply_answers h _
    exact ⟨r, book', hr, by rw [hheard, hcall]; exact hbook', hwf⟩

omit [PriceLevel L] [MemoryPool P] in
/-- Hearing is of no account to the rest. -/
theorem Kept.heard {loc : UInt16} {fills : List Fill} (h : Kept opt loc fills s)
    {book : BookBuilder L P} (hbook : book.orders.Wf splitMix64) (decoder : ZeroCopyDecoder)
    (messages : ℕ) : Kept opt loc fills { s with
      book := book, decoder := decoder, run := { s.run with messages := messages } } :=
  { h with book := hbook }

omit [PriceLevel L] [MemoryPool P] in
/-- The symbol is found, and the gate opens for it. -/
theorem Paused.resolve (h : Paused opt a b s) (hlocate : s.locate = none) :
    Paused opt a b (s.resolve opt) := by
  unfold TradeLoop.resolve
  extract_lets defined locate
  split
  case isTrue => exact h
  case isFalse =>
    refine ⟨fun loc _ => ?_, h.drained, h.room.ids, h.room.counter, h.room.base, h.room.market⟩
    have hkept := h.kept loc (.inl hlocate)
    cases locate with
    | none => exact { hkept with }
    | some l =>
      have ha : Alike s.risk (s.risk.enableSymbol l true) := by
        refine alike_setSymbol _ _ (fun s b => ?_) (fun s b => ?_) (fun s b => ?_) fun s => rfl <;>
          cases b <;> rfl
      exact { hkept.alike ha with }

/-- **One message**: the loop answers it, and has kept what it keeps. -/
theorem Paused.step (h : Paused opt (a + 2) (b + 2) s)
    (hlimit : 0 ≤ opt.limits.maxPositionShares.toInt ∧
      opt.limits.maxPositionShares.toInt ≤ 2 ^ 62) (msg : List UInt8) (t : Clock) :
    ∃ s' enough, s.step opt msg t = .ok (some (s', enough)) ∧ Paused opt a b s' := by
  obtain ⟨loc₀, hkept₀⟩ := h.any
  obtain ⟨r, book, hr, hbook, hwf⟩ := exists_heard s.decoder msg hkept₀.book
  let s₁ : TradeLoop E L P := { s with
    book := book, decoder := r.decoder, run := { s.run with messages := s.run.messages + 1 } }
  let enough := decide (opt.limit ≠ 0 ∧ opt.limit ≤ s₁.run.messages)
  have h₁ : Paused opt (a + 2) (b + 2) s₁ :=
    ⟨fun loc hloc => (h.kept loc hloc).heard hwf _ _, h.drained, h.room.ids, h.room.counter,
      h.room.base, h.room.market⟩
  have hless : Paused opt a b s₁ := h₁.mono (by omega) (by omega)
  have hstep : s.step opt msg t = s₁.locate.elim (.ok (some (s₁.resolve opt, enough))) fun locate =>
      if msg.length < kHeaderLen then .ok (some (s₁, false))
      else do
        let loc ← Itch.locate msg
        if loc ≠ locate then return some (s₁, enough)
        else do
          let type ← msgType msg
          return (s₁.turn opt loc type t).map fun s => (s, enough) := by
    rw [TradeLoop.step, hr]
    simp only [bind, Except.bind, hbook, s₁, enough]
    cases s.locate <;> rfl
  -- the four ways a turn may end, in the order of the tests
  rw [hstep]
  cases hlocate : s₁.locate with
  | none => exact ⟨_, _, rfl, hless.resolve hlocate⟩
  | some locate =>
    by_cases hshort : msg.length < kHeaderLen
    · exact ⟨s₁, false, if_pos hshort, hless⟩
    · obtain ⟨loc, -, -, hloc, -⟩ := header_ok (Nat.not_lt.mp hshort)
      simp only [Option.elim, hshort, if_false, hloc, bind, Except.bind]
      by_cases hother : loc ≠ locate
      · exact ⟨s₁, enough, by rw [if_pos hother]; rfl, hless⟩
      · obtain rfl := not_not.mp hother
        obtain ⟨type, htype⟩ : ∃ type, msgType msg = .ok type := by
          cases msg with
          | nil => exact absurd (show ([] : List UInt8).length < kHeaderLen by decide) hshort
          | cons type rest => exact ⟨type, msgType_cons type rest⟩
        obtain ⟨s₂, hs₂, h₂, hfills, hroom, -, hlocate₂⟩ :=
          (h₁.kept loc (.inr hlocate)).turn h₁.drained hlimit h₁.room type t
        refine ⟨s₂, enough, ?_, fun l hl => ?_, hfills, hroom⟩
        · rw [if_neg hother, htype]
          simp only [hs₂]
          rfl
        · rcases hl with hnone | hsome
          · rw [hlocate₂, hlocate] at hnone
            exact absurd hnone (Option.some_ne_none loc)
          · rw [hlocate₂, hlocate] at hsome
            exact Option.some.inj hsome ▸ h₂

/-! ## Every session

The limit on messages may end a session early, and then it is the session of a shorter feed. -/

/-- **Every session** is answered to its end, and keeps what the loop keeps. -/
theorem session_paused (hlimit : 0 ≤ opt.limits.maxPositionShares.toInt ∧
      opt.limits.maxPositionShares.toInt ≤ 2 ^ 62) (feed : List (List UInt8 × Clock)) :
    ∀ {s : TradeLoop E L P}, Paused opt (2 * feed.length) (2 * feed.length) s →
      ∃ s', session opt s feed = .ok (some s') ∧ Paused opt 0 0 s' := by
  induction feed with
  | nil => exact fun {s} h => ⟨s, rfl, h⟩
  | cons m feed ih =>
    intro s h
    obtain ⟨s₁, enough, hs₁, h₁⟩ := Paused.step (a := 2 * feed.length) (b := 2 * feed.length) h
      hlimit m.1 m.2
    have hsession : session opt s (m :: feed) =
        if enough then .ok (some s₁) else session opt s₁ feed := by
      rw [session, hs₁]
      simp only [bind, Except.bind]
      rfl
    rw [hsession]
    cases enough with
    | true => exact ⟨s₁, rfl, h₁.mono (Nat.zero_le _) (Nat.zero_le _)⟩
    | false => exact ih h₁

/-- From the start, with the bound on the feed for room. -/
theorem session_kept (hlimit : 0 ≤ opt.limits.maxPositionShares.toInt ∧
      opt.limits.maxPositionShares.toInt ≤ 2 ^ 62) (feed : List (List UInt8 × Clock))
    (hlong : feed.length < 2 ^ 39) :
    ∃ (s : TradeLoop E L P) (loc : UInt16), session opt (start opt) feed = .ok (some s) ∧
      Kept opt loc [] s := by
  obtain ⟨s, hs, h⟩ := session_paused hlimit feed (s := (start opt : TradeLoop E L P))
    (paused_start hlimit.1 (by omega))
  obtain ⟨loc, hkept⟩ := h.any
  exact ⟨s, loc, hs, hkept⟩

/-- The symbol is listed, quoted, and trades. The clock goes a second for each message. -/
def openingTrade : List (List UInt8 × Clock) :=
  let symbol := "AAPL".toList.map Char.toUInt8
  let msgs : List Message := [.stockDirectory 1 0 0 { stock := symbol },
    .addOrder 1 0 1 1 'B'.toUInt8 300 symbol 1000000,
    .addOrder 1 0 2 2 'S'.toUInt8 300 symbol 1000400,
    .orderExecuted 1 0 3 2 100 1]
  msgs.zipIdx.map fun (m, i) =>
    let now := UInt64.ofNat (i * 1000000000)
    (m.bytes, { book := now, quote := now, send := fun _ => now })

/-! ## What holds of every session -/

variable (opt : TradeOptions)

/-- **The position limit holds at the venue.** What we own by the venue's account stays within the
limit whichever of the orders that rest there fill: if every bid did, and if every offer did. -/
theorem position_limited (hlimit : 0 ≤ opt.limits.maxPositionShares.toInt ∧
      opt.limits.maxPositionShares.toInt ≤ 2 ^ 62) (feed : List (List UInt8 × Clock))
    (hlong : feed.length < 2 ^ 39) :
    ∃ s : TradeLoop E L P, session opt (start opt) feed = .ok (some s) ∧
      tapePosition s.venue.tape + sharesOn true (s.venue.resting opt.symbol) ≤
        opt.limits.maxPositionShares.toInt ∧
      -opt.limits.maxPositionShares.toInt ≤
        tapePosition s.venue.tape - sharesOn false (s.venue.resting opt.symbol) := by
  obtain ⟨s, loc, hs, h⟩ := session_kept (E := E) (L := L) (P := P) hlimit feed hlong
  have hlim : s.risk.limit = opt.limits.maxPositionShares.toInt := by
    rw [limit, h.gate.limits]
  have hlong := h.gate.covered.long loc
  have hshort := h.gate.covered.short loc
  -- the gate's position is what was sent less what works, and what works covers what rests
  have hposition := h.accounts.position
  have hbuy := h.ours.shares true
  have hsell := h.ours.shares false
  have hbuys := h.accounts.filled true
  have hsells := h.accounts.filled false
  rw [hlim, hposition] at hlong hshort
  refine ⟨s, hs, ?_, ?_⟩
  · rw [tapePosition]
    omega
  · rw [tapePosition]
    omega

theorem position_limited_openingTrade :
    ∃ s : TradeLoop ListEngine ListLevel (CellPool 4),
      session {} (start {}) openingTrade = .ok (some s) ∧
      tapePosition s.venue.tape + sharesOn true (s.venue.resting ({} : TradeOptions).symbol) ≤
        ({} : TradeOptions).limits.maxPositionShares.toInt ∧
      -({} : TradeOptions).limits.maxPositionShares.toInt ≤
        tapePosition s.venue.tape - sharesOn false (s.venue.resting ({} : TradeOptions).symbol) :=
  position_limited {} (by decide) openingTrade (by decide)

/-- **We never trade with ourselves.** An order of ours has traded with nobody when it comes, and
none that rests could trade with another that does, those that the loop has lost sight of
included. -/
theorem never_trades_itself (hlimit : 0 ≤ opt.limits.maxPositionShares.toInt ∧
      opt.limits.maxPositionShares.toInt ≤ 2 ^ 62) (feed : List (List UInt8 × Clock))
    (hlong : feed.length < 2 ^ 39) :
    ∃ s : TradeLoop E L P, session opt (start opt) feed = .ok (some s) ∧
      (∀ x ∈ s.venue.tape, x.id < kMarketIdBase → x.trades = []) ∧
      ∀ o ∈ s.venue.resting opt.symbol, o.id < s.nextOurId ∧ (o.isBuy = true →
        ∀ x ∈ s.venue.resting opt.symbol, x.isBuy = false → o.price < x.price) := by
  obtain ⟨s, loc, hs, h⟩ := session_kept (E := E) (L := L) (P := P) hlimit feed hlong
  exact ⟨s, hs, h.alone, fun o ho => ⟨h.ours.ids o ho, h.ours.apart o ho⟩⟩

theorem never_trades_itself_openingTrade :
    ∃ s : TradeLoop ListEngine ListLevel (CellPool 4),
      session {} (start {}) openingTrade = .ok (some s) ∧
      (∀ x ∈ s.venue.tape, x.id < kMarketIdBase → x.trades = []) ∧
      ∀ o ∈ s.venue.resting ({} : TradeOptions).symbol, o.id < s.nextOurId ∧ (o.isBuy = true →
        ∀ x ∈ s.venue.resting ({} : TradeOptions).symbol, x.isBuy = false → o.price < x.price) :=
  never_trades_itself {} (by decide) openingTrade (by decide)

/-- **A cancel frees nothing.** Every order beyond as many as may be open takes a fill, and every
share sent to a side beyond the position limit takes a share that traded on the other, however
often the quotes were cancelled. -/
theorem sends_bounded (hlimit : 0 ≤ opt.limits.maxPositionShares.toInt ∧
      opt.limits.maxPositionShares.toInt ≤ 2 ^ 62) (feed : List (List UInt8 × Clock))
    (hlong : feed.length < 2 ^ 39) :
    ∃ s : TradeLoop E L P, session opt (start opt) feed = .ok (some s) ∧
      s.run.ordersSent ≤ opt.limits.maxOpenOrders.toNat + s.run.fills ∧
      ∀ b, (sentOn b s.venue.tape : ℤ) ≤
        opt.limits.maxPositionShares.toInt + filledOn (!b) s.venue.tape := by
  obtain ⟨s, loc, hs, h⟩ := session_kept (E := E) (L := L) (P := P) hlimit feed hlong
  have hlim : s.risk.limit = opt.limits.maxPositionShares.toInt := by
    rw [limit, h.gate.limits]
  have hlong := h.gate.covered.long loc
  have hshort := h.gate.covered.short loc
  have hposition := h.accounts.position
  have hbuys := h.accounts.filled true
  have hsells := h.accounts.filled false
  rw [hlim, hposition] at hlong hshort
  refine ⟨s, hs, ?_, fun b => ?_⟩
  · have horders := h.orders
    have hcount := h.gate.books.count
    have hceiling := UInt32.le_iff_toNat_le.mp h.gate.books.ceiling
    rw [h.gate.limits] at hceiling
    omega
  · cases b with
    | true =>
      rw [Bool.not_true]
      omega
    | false =>
      rw [Bool.not_false]
      omega

theorem sends_bounded_openingTrade :
    ∃ s : TradeLoop ListEngine ListLevel (CellPool 4),
      session {} (start {}) openingTrade = .ok (some s) ∧
      s.run.ordersSent ≤ ({} : TradeOptions).limits.maxOpenOrders.toNat + s.run.fills ∧
      ∀ b, (sentOn b s.venue.tape : ℤ) ≤
        ({} : TradeOptions).limits.maxPositionShares.toInt + filledOn (!b) s.venue.tape :=
  sends_bounded {} (by decide) openingTrade (by decide)

/-- **The report is the venue's account.** The position, the shares filled and the orders sent are
what the venue has, the gate's own books have found no fault, and the kill switch is where it
was. -/
theorem report_agrees (hlimit : 0 ≤ opt.limits.maxPositionShares.toInt ∧
      opt.limits.maxPositionShares.toInt ≤ 2 ^ 62) (feed : List (List UInt8 × Clock))
    (hlong : feed.length < 2 ^ 39) :
    ∃ s : TradeLoop E L P, session opt (start opt) feed = .ok (some s) ∧
      s.quoter.position = tapePosition s.venue.tape ∧
      s.run.filledShares = filledOn true s.venue.tape + filledOn false s.venue.tape ∧
      s.run.ordersSent = (s.venue.tape.filter fun x => x.id < kMarketIdBase).length ∧
      s.risk.stats.workingShareDrift = 0 ∧ s.risk.stats.tableInsertFailed = 0 ∧
      s.risk.tripped = false := by
  obtain ⟨s, loc, hs, h⟩ := session_kept (E := E) (L := L) (P := P) hlimit feed hlong
  have hcount := congrArg List.length h.rested
  rw [List.length_map, List.length_map] at hcount
  exact ⟨s, hs, h.owns.trans (sub_zero _), h.shares, h.count.trans hcount.symm,
    h.gate.books.drift, h.gate.books.failed, h.gate.live⟩

theorem report_agrees_openingTrade :
    ∃ s : TradeLoop ListEngine ListLevel (CellPool 4),
      session {} (start {}) openingTrade = .ok (some s) ∧
      s.quoter.position = tapePosition s.venue.tape ∧
      s.run.filledShares = filledOn true s.venue.tape + filledOn false s.venue.tape ∧
      s.run.ordersSent = (s.venue.tape.filter fun x => x.id < kMarketIdBase).length ∧
      s.risk.stats.workingShareDrift = 0 ∧ s.risk.stats.tableInsertFailed = 0 ∧
      s.risk.tripped = false :=
  report_agrees {} (by decide) openingTrade (by decide)

end Session

end TradeLoop
end Tickerplant
