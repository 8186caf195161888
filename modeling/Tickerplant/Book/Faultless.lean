import Tickerplant.Book.Refines

/-!
# Streams that find what they name

An event is faultless if the order it names rests with the shares it takes, an added reference is
free, and the side is one of the two. Over such a stream that fits the pool, the builder moves only
the counters of the messages it hears: none of those that say the feed and the book disagree
(`run_faultless`). What rests and what traded is the stream's own (`Book/Refines`), and a symbol's
resting orders can be counted on its levels.

`BookStats.hear` is what a message counts by being heard, and `heard` forgets the two counters of
what rests, which are the book's business. A handler on an order that is there then differs from
`hear` in nothing: each of the three ways it can end (`removeOrder_heard`, `reduce_heard`,
`rest_heard`) leaves `heard` alone, and what came before it was the counting.

This is what a generator of sessions has to meet for its sessions to be clean, and a replay of a
clean day to be read off its counters.
-/

set_option autoImplicit false

namespace Tickerplant

/-! ## What a message counts -/

namespace BookStats

/-- The counters of what should never happen. -/
def violations (s : BookStats) : List ℕ :=
  [s.duplicateRefs, s.orphanExecutes, s.orphanCancels, s.orphanDeletes, s.orphanReplaces,
    s.overfills, s.poolExhausted, s.unknownSide]

/-- All but the counters of what rests. -/
def heard (s : BookStats) : BookStats := { s with liveOrders := 0, peakLiveOrders := 0 }

/-- A message counted under its type. -/
def hear (s : BookStats) : BookEvent → BookStats
  | .systemEvent ts code =>
    { s with sessionState := code, lastTimestamp := ts, messages := s.messages + 1
             systemEvents := s.systemEvents + 1 }
  | .stockDirectory _ ts _ _ =>
    { s with lastTimestamp := ts, messages := s.messages + 1
             directoryEntries := s.directoryEntries + 1 }
  | .tradingAction _ ts _ =>
    { s with lastTimestamp := ts, messages := s.messages + 1
             tradingActions := s.tradingActions + 1 }
  | .add _ ts _ _ _ _ hasMpid =>
    { s with lastTimestamp := ts, messages := s.messages + 1, adds := s.adds + 1
             addsMpid := if hasMpid then s.addsMpid + 1 else s.addsMpid }
  | .execute _ ts _ _ =>
    { s with lastTimestamp := ts, messages := s.messages + 1, executes := s.executes + 1 }
  | .executePrice _ ts _ _ _ _ =>
    { s with lastTimestamp := ts, messages := s.messages + 1, executes := s.executes + 1
             executesWithPrice := s.executesWithPrice + 1 }
  | .cancel _ ts _ _ =>
    { s with lastTimestamp := ts, messages := s.messages + 1, cancels := s.cancels + 1 }
  | .delete _ ts _ =>
    { s with lastTimestamp := ts, messages := s.messages + 1, deletes := s.deletes + 1 }
  | .replace _ ts _ _ _ _ =>
    { s with lastTimestamp := ts, messages := s.messages + 1, replaces := s.replaces + 1 }
  | .trade _ ts _ _ =>
    { s with lastTimestamp := ts, messages := s.messages + 1, trades := s.trades + 1 }
  | .crossTrade _ ts _ _ =>
    { s with lastTimestamp := ts, messages := s.messages + 1, crossTrades := s.crossTrades + 1 }
  | .brokenTrade ts =>
    { s with lastTimestamp := ts, messages := s.messages + 1
             brokenTrades := s.brokenTrades + 1 }
  | .other ts => { s with lastTimestamp := ts, messages := s.messages + 1, other := s.other + 1 }

/-- Hearing a message is no violation. -/
theorem violations_hear (s : BookStats) (e : BookEvent) :
    (s.hear e).violations = s.violations := by
  cases e <;> rfl

/-- Nor is hearing any number of them. -/
theorem violations_foldl (events : List BookEvent) :
    ∀ s : BookStats, (events.foldl hear s).violations = s.violations := by
  induction events with
  | nil => exact fun _ => rfl
  | cons e events ih => exact fun s => (ih (s.hear e)).trans (violations_hear s e)

/-- The violations are among what is heard. -/
theorem violations_of_heard {s s' : BookStats} (h : s.heard = s'.heard) :
    s.violations = s'.violations := by
  have hkept (t : BookStats) : t.violations = t.heard.violations := rfl
  rw [hkept s, h, ← hkept s']

/-- What a message counts does not depend on what rests. -/
theorem hear_heard {s s' : BookStats} (h : s.heard = s'.heard) (e : BookEvent) :
    (s.hear e).heard = (s'.hear e).heard := by
  have hkept (t : BookStats) : (t.hear e).heard = (t.heard.hear e).heard := by
    cases e <;> rfl
  rw [hkept s, h, ← hkept s']

theorem foldl_hear_heard {s s' : BookStats} (h : s.heard = s'.heard) (events : List BookEvent) :
    (events.foldl hear s).heard = (events.foldl hear s').heard := by
  induction events generalizing s s' with
  | nil => exact h
  | cons e events ih => exact ih (hear_heard h e)

end BookStats

/-! ## What a faultless event is -/

namespace Orders

/-- The event finds what it names. -/
def Faultless (m : Orders) : BookEvent → Prop
  | .add _ _ ref side _ _ _ => ref ≠ kEmptyKey ∧ m ref = none ∧ sideOf side ≠ none
  | .execute _ _ ref shares | .executePrice _ _ ref shares _ _ | .cancel _ _ ref shares =>
    ∃ r, m ref = some r ∧ shares ≤ r.remaining
  | .delete _ _ ref => m ref ≠ none
  | .replace _ _ oldRef newRef _ _ =>
    m oldRef ≠ none ∧ newRef ≠ kEmptyKey ∧ Function.update m oldRef none newRef = none
  | _ => True

theorem Faultless.legal {m : Orders} {e : BookEvent} (h : m.Faultless e) : m.LegalEvent e := by
  cases e with
  | add locate ts ref side shares price mpid => exact h.1
  | replace locate ts oldRef newRef shares price => exact h.2
  | _ => trivial

/-- The event finds what it names, and the pool has room after it. -/
def Fits (capacity : ℕ) (m : Orders) (e : BookEvent) : Prop :=
  m.Faultless e ∧ (m.step e).live ≤ capacity

theorem Fits.legal {capacity : ℕ} {m : Orders} {e : BookEvent} (h : m.Fits capacity e) :
    m.LegalWithin capacity e := ⟨h.1.legal, h.2⟩

end Orders

/-! ## What the handlers count -/

namespace BookBuilder

variable {L P : Type} [PriceLevel L] [MemoryPool P] {b b' : BookBuilder L P}

section Handlers

variable (kind : SideKind) {ref : UInt64} {o : OrderPtr} {shares : UInt32}

/-- An order that goes changes the counters of what rests only. -/
theorem removeOrder_heard (h : removeOrder kind b ref = some b') :
    b'.stats.heard = b.stats.heard := by
  unfold removeOrder at h
  obtain ⟨slot, -, h⟩ := Option.bind_eq_some_iff.mp h
  cases slot with
  | none => rw [Option.some.inj h]
  | some o =>
    obtain ⟨erased, -, rfl⟩ := Option.map_eq_some_iff.mp h
    rfl

/-- So does an order that has the shares it loses. With fewer it would be an overfill. -/
theorem reduce_heard (hle : shares ≤ (b.heap o).remainingQty)
    (h : reduce kind b ref o shares = some b') : b'.stats.heard = b.stats.heard := by
  unfold reduce at h
  simp only at h
  rw [if_neg (UInt32.not_lt.mpr hle)] at h
  split at h
  · exact removeOrder_heard kind h
  · rw [← Option.some.inj h]
    rfl

/-- So does an order that finds a place. -/
theorem rest_heard (hroom : MemoryPool.allocate b.pool ≠ none) {side : Side} {price : UInt32}
    {ts : UInt64} {stock : UInt16} (h : rest kind b ref side price shares ts stock = some b') :
    b'.stats.heard = b.stats.heard := by
  unfold rest at h
  split at h
  · rename_i hfull
    exact absurd hfull hroom
  · obtain ⟨inserted, -, rfl⟩ := Option.map_eq_some_iff.mp h
    rfl

variable [LawfulMemoryPool P]

/-- There is a place for an order that still fits. -/
theorem allocate_ne_none (h : Rep b) (hfree : b.meaning ref = none) {r : Resting}
    (hfits : Orders.live (Function.update b.meaning ref (some r)) ≤ MemoryPool.capacity b.pool) :
    MemoryPool.allocate b.pool ≠ none := by
  intro hfull
  have hle := (LawfulMemoryPool.allocate_none b.pool).mp hfull
  rw [Orders.live_update hfree, live_meaning h] at hfits
  omega

omit [PriceLevel L] [MemoryPool P] [LawfulMemoryPool P] in
/-- The order that a reference means. -/
theorem exists_order {r : Resting} (hr : b.meaning ref = some r) :
    ∃ o, b.orders.toMap ref = some o ∧ (b.heap o).remainingQty = r.remaining := by
  obtain ⟨o, ho, rfl⟩ := Option.map_eq_some_iff.mp hr
  exact ⟨o, ho, rfl⟩

section Handled

variable {locate : UInt16} {ts : UInt64}

omit [LawfulMemoryPool P] in
/-- What E, C and X end with, for an order that has the shares. -/
theorem handled_heard {b1 : BookBuilder L P} (h1 : Rep b1) (horders : b1.orders = b.orders)
    {r : Resting} (hr : b.meaning ref = some r) (hle : shares ≤ r.remaining) :
    ∃ o, b1.find ref = some (some o) ∧ ∀ b2 b' : BookBuilder L P,
      reduce kind b2 ref o shares = some b' → b2.heap = b.heap → b2.stats = b1.stats →
      b'.stats.heard = b1.stats.heard := by
  obtain ⟨o, ho, hrem⟩ := exists_order hr
  refine ⟨o, by rw [find_eq h1, horders, ho], fun b2 b' hb' hheap hstats => ?_⟩
  rw [← hstats]
  exact reduce_heard kind (by rw [hheap, hrem]; exact hle) hb'

/-- A and F: the reference is free and the pool has a place. -/
theorem onAdd_heard (h : Rep b) {side : Char} {price : UInt32} {mpid : Bool}
    (he : Orders.Fits (MemoryPool.capacity b.pool) b.meaning
      (.add locate ts ref side shares price mpid))
    (hb : onAdd kind b locate ts ref side shares price mpid = some b') :
    b'.stats.heard = (b.stats.hear (.add locate ts ref side shares price mpid)).heard := by
  obtain ⟨⟨-, hfree, hside⟩, hfits⟩ := he
  obtain ⟨s, hs⟩ := Option.ne_none_iff_exists'.mp hside
  simp only [Orders.step, hs] at hfits
  unfold onAdd at hb
  extract_lets b0 b1 b2 side? at hb
  have ha : Aside b b2 := ((Aside.touch ts).count rfl).countMessage locate
  have hstats : b2.stats = b.stats.hear (.add locate ts ref side shares price mpid) := rfl
  have hsome : side? = some s := hs
  have hfind : b2.find ref = some none := by
    rw [find_eq (ha.rep h), ha.orders, meaning_none.mp hfree]
  -- one order more still fits, so that the pool is not full now
  have hroom := allocate_ne_none h hfree hfits
  rw [← ha.pool] at hroom
  clear_value b2
  rw [hsome] at hb
  simp only [hfind, Option.bind_some] at hb
  rw [rest_heard kind hroom hb, hstats]

omit [LawfulMemoryPool P] in
/-- E: the order is there and has the shares. -/
theorem onExecute_heard (h : Rep b) (he : b.meaning.Faultless (.execute locate ts ref shares))
    (hb : onExecute kind b locate ts ref shares = some b') :
    b'.stats.heard = (b.stats.hear (.execute locate ts ref shares)).heard := by
  obtain ⟨r, hr, hle⟩ := he
  unfold onExecute at hb
  extract_lets b0 b1 b2 at hb
  have ha : Aside b b2 := ((Aside.touch ts).count rfl).countMessage locate
  have hstats : b2.stats = b.stats.hear (.execute locate ts ref shares) := rfl
  clear_value b2
  obtain ⟨o, hfind, hreduce⟩ := handled_heard kind (ha.rep h) ha.orders hr hle
  simp only [hfind, Option.bind_some] at hb
  rw [hreduce _ _ hb ha.heap rfl, hstats]

omit [LawfulMemoryPool P] in
/-- C: likewise, and the volume is not among the counters. -/
theorem onExecutePrice_heard (h : Rep b) {printable : Bool} {price : UInt32}
    (he : b.meaning.Faultless (.executePrice locate ts ref shares printable price))
    (hb : onExecutePrice kind b locate ts ref shares printable price = some b') :
    b'.stats.heard =
      (b.stats.hear (.executePrice locate ts ref shares printable price)).heard := by
  obtain ⟨r, hr, hle⟩ := he
  unfold onExecutePrice at hb
  extract_lets b0 b1 b2 at hb
  have ha : Aside b b2 := ((Aside.touch ts).count rfl).countMessage locate
  have hstats : b2.stats = b.stats.hear (.executePrice locate ts ref shares printable price) := rfl
  clear_value b2
  obtain ⟨o, hfind, hreduce⟩ := handled_heard kind (ha.rep h) ha.orders hr hle
  simp only [hfind, Option.bind_some] at hb
  cases printable with
  | true => rw [hreduce _ _ hb ha.heap rfl, hstats]
  | false => rw [hreduce _ _ hb ha.heap rfl, hstats]

omit [LawfulMemoryPool P] in
/-- X: likewise. -/
theorem onCancel_heard (h : Rep b) (he : b.meaning.Faultless (.cancel locate ts ref shares))
    (hb : onCancel kind b locate ts ref shares = some b') :
    b'.stats.heard = (b.stats.hear (.cancel locate ts ref shares)).heard := by
  obtain ⟨r, hr, hle⟩ := he
  unfold onCancel at hb
  extract_lets b0 b1 b2 at hb
  have ha : Aside b b2 := ((Aside.touch ts).count rfl).countMessage locate
  have hstats : b2.stats = b.stats.hear (.cancel locate ts ref shares) := rfl
  clear_value b2
  obtain ⟨o, hfind, hreduce⟩ := handled_heard kind (ha.rep h) ha.orders hr hle
  simp only [hfind, Option.bind_some] at hb
  rw [hreduce _ _ hb ha.heap rfl, hstats]

omit [LawfulMemoryPool P] in
/-- D: the order is there. -/
theorem onDelete_heard (h : Rep b) (he : b.meaning ref ≠ none)
    (hb : onDelete kind b locate ts ref = some b') :
    b'.stats.heard = (b.stats.hear (.delete locate ts ref)).heard := by
  obtain ⟨r, hr⟩ := Option.ne_none_iff_exists'.mp he
  obtain ⟨o, ho, -⟩ := exists_order hr
  unfold onDelete at hb
  extract_lets b0 b1 b2 at hb
  have ha : Aside b b2 := ((Aside.touch ts).count rfl).countMessage locate
  have hstats : b2.stats = b.stats.hear (.delete locate ts ref) := rfl
  clear_value b2
  rw [find_eq (ha.rep h), ha.orders, ho, Option.bind_some] at hb
  rw [removeOrder_heard kind hb, hstats]

variable [LawfulPriceLevel L]

/-- U: the order that goes leaves a place for the one that comes. -/
theorem onReplace_heard (h : Rep b) {newRef : UInt64} {price : UInt32}
    (he : b.meaning.Faultless (.replace locate ts ref newRef shares price))
    (hb : onReplace kind b locate ts ref newRef shares price = some b') :
    b'.stats.heard = (b.stats.hear (.replace locate ts ref newRef shares price)).heard := by
  obtain ⟨r, hr⟩ := Option.ne_none_iff_exists'.mp he.1
  obtain ⟨o, ho, -⟩ := exists_order hr
  unfold onReplace at hb
  extract_lets b0 b1 b2 at hb
  have ha : Aside b b2 := ((Aside.touch ts).count rfl).countMessage locate
  have hstats : b2.stats = b.stats.hear (.replace locate ts ref newRef shares price) := rfl
  clear_value b2
  rw [find_eq (ha.rep h), ha.orders, ho, Option.bind_some] at hb
  obtain ⟨b3, hb3, hgone⟩ := removeOrder_spec kind (ha.rep h) (ha.orders ▸ ho)
  simp only [hb3, Option.bind_some] at hb
  rw [rest_heard kind hgone.place hb, removeOrder_heard kind hb3, hstats]

end Handled

variable [LawfulPriceLevel L]

/-- **A faultless event that fits** moves no counter but those of its type. -/
theorem apply_heard (h : Rep b) {e : BookEvent}
    (he : Orders.Fits (MemoryPool.capacity b.pool) b.meaning e) (hb : apply kind b e = some b') :
    b'.stats.heard = (b.stats.hear e).heard := by
  obtain ⟨he, hfits⟩ := he
  cases e with
  | add locate ts ref side shares price mpid =>
    exact onAdd_heard kind h ⟨he, hfits⟩ hb
  | execute locate ts ref shares => exact onExecute_heard kind h he hb
  | executePrice locate ts ref shares printable price => exact onExecutePrice_heard kind h he hb
  | cancel locate ts ref shares => exact onCancel_heard kind h he hb
  | delete locate ts ref => exact onDelete_heard kind h he hb
  | replace locate ts oldRef newRef shares price => exact onReplace_heard kind h he hb
  | _ =>
    rw [← Option.some.inj hb]
    rfl

/-! ## A whole stream -/

/-- From any state, and so for a stream cut anywhere. -/
theorem run_heard {events : List BookEvent} : ∀ {b b' : BookBuilder L P}, Rep b →
    Trace.Along Orders.step (Orders.Fits (MemoryPool.capacity b.pool)) b.meaning events →
    run kind b events = some b' → b'.stats.heard = (events.foldl BookStats.hear b.stats).heard := by
  induction events with
  | nil => exact fun _ _ hb => by rw [← Option.some.inj hb]; rfl
  | cons e events ih =>
    intro b b' h hfits hb
    obtain ⟨b1, hb1, happ⟩ := apply_spec kind h (harmless_of_legal hfits.1.1.legal)
    have hm : b1.meaning = b.meaning.step e := happ.meaning_eq hfits.1.2
    have hone := apply_heard kind h hfits.1 hb1
    rw [run, hb1, Option.bind_some] at hb
    rw [ih happ.rep (by rw [happ.capacity, hm]; exact hfits.2) hb]
    exact BookStats.foldl_hear_heard hone events

/-- **A faultless stream that fits**: the builder answers, and what it shows and counts is the
stream's own. -/
theorem run_faultless {events : List BookEvent} (capacity : ℕ)
    (hfits : Trace.Along Orders.step (Orders.Fits (MemoryPool.capacity (MemoryPool.make : P)))
      (fun _ => none) events) :
    ∃ b, run kind (make capacity : BookBuilder L P) events = some b ∧
      Shows b (Orders.run (fun _ => none) events) ∧
      (∀ stock, (b.totals stock).executedShares = Orders.volume (fun _ => none) stock events) ∧
      b.stats.heard = (events.foldl BookStats.hear {}).heard := by
  have hempty : (make capacity : BookBuilder L P).meaning = fun _ => none := meaning_make capacity
  rw [← hempty] at hfits
  obtain ⟨b, hb, hrep, hm, hvol⟩ := run_meaning kind (rep_make capacity)
    (hfits.mono fun _ _ he => he.legal)
  have hheard := run_heard kind (rep_make capacity) hfits hb
  rw [hempty] at hm hvol
  exact ⟨b, hb, hm ▸ hrep.shows, fun stock => (hvol stock).trans (UInt64.zero_add _), hheard⟩

end Handlers

end BookBuilder

end Tickerplant
