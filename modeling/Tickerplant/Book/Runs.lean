import Tickerplant.Book.Linked

/-!
# One event

`apply_spec` says that a handler answers, keeps `Rep` and moves the book's meaning by
`Orders.step`, unless the pool had no place for the order. It asks that the event be `Harmless`: an
order that will rest has a reference other than zero, and a replace does not name a reference that
is still live once the old one is gone. Those are the two events the builder gets wrong.
`FlatOrderMap::insert` refuses the first, and `on_add` and `on_replace` do not look at what it
says; it overwrites the second, and the order it overwrites stays linked.

Every handler starts alike, with counters that no structure reads. `Aside` is that part: what comes
after it may be proved as if the builder were the one the event found.

E, C, X and D end in `reduce` or `remove_order`, and so in one lemma (`reduce_applied`). A and U
end in the same few lines: an order that was in the way goes, and the new one takes a place of the
pool, a level, a reference and a count. `Placing` is the state just before those lines, so that
what they do is said once for both, for the events that keep the structures in step here and for
those that do not in `Book/InStep`.

A full pool is not an error of the feed. The order is not entered, which `Applied` allows for with
a book that has not moved, and only then.
-/

set_option autoImplicit false

namespace Tickerplant

namespace BookBuilder

variable {L P : Type} [PriceLevel L] [MemoryPool P] {b b' : BookBuilder L P}

/-! ## Counting orders -/

/-- The pool has as many orders out as the table has references. -/
theorem card_inUse (h : Rep b) : (MemoryPool.inUse b.pool).card = b.orders.size := by
  have hto : ∀ i ∈ (FlatOrderMap.scheme OrderPtr splitMix64 b.orders.cap).occupied b.orders.slots,
      b.orders.toMap (b.orders.slots i).1 = some (b.orders.slots i).2 := by
    intro i hi
    obtain ⟨hlt, hne⟩ := Lib.Probe.Scheme.mem_occupied.mp hi
    obtain ⟨k, hk⟩ := Option.ne_none_iff_exists'.mp hne
    obtain ⟨heq, _⟩ := FlatOrderMap.key_some.mp hk
    exact h.map.toMap_some.mpr ⟨i, hlt, rfl, by rw [hk, heq]⟩
  rw [h.map.size_eq]
  symm
  refine Finset.card_bij (fun i _ => (b.orders.slots i).2) ?_ ?_ ?_
  · exact fun i hi => (h.pool _).mpr ⟨_, hto i hi⟩
  · intro i hi j hj heq
    change (b.orders.slots i).2 = (b.orders.slots j).2 at heq
    obtain ⟨hlti, hnei⟩ := Lib.Probe.Scheme.mem_occupied.mp hi
    obtain ⟨k, hk⟩ := Option.ne_none_iff_exists'.mp hnei
    obtain ⟨hltj, _⟩ := Lib.Probe.Scheme.mem_occupied.mp hj
    have hrefs := h.ref_eq (hto i hi) (heq ▸ hto j hj)
    obtain ⟨hki, hk0⟩ := FlatOrderMap.key_some.mp hk
    exact h.map.probe.unique i hlti j hltj k hk
      (FlatOrderMap.key_some.mpr ⟨hrefs.symm.trans hki, hk0⟩)
  -- and every order out is in some slot, as the table reaches it
  · intro o ho
    obtain ⟨ref, hr⟩ := (h.pool o).mp ho
    obtain ⟨i, hi, hti, hk⟩ := h.map.toMap_some.mp hr
    exact ⟨i, Lib.Probe.Scheme.mem_occupied.mpr ⟨hi, by rw [hti, hk]; simp⟩, by simp only [hti]⟩

/-- The book means as many orders as the pool has out. -/
theorem live_meaning (h : Rep b) : b.meaning.live = (MemoryPool.inUse b.pool).card := by
  -- an order and its reference determine each other: `ident` one way, the table the other
  symm
  refine Finset.card_bij (fun o _ => (b.heap o).id) ?_ ?_ ?_
  · intro o ho
    obtain ⟨ref, hr⟩ := (h.pool o).mp ho
    have hid := h.ident ref o hr
    simp only [hid]
    exact Orders.mem_refs.mpr ⟨_, by unfold meaning; rw [hr]; rfl, trivial⟩
  · intro o ho o' ho' heq
    obtain ⟨ref, hr⟩ := (h.pool o).mp ho
    obtain ⟨ref', hr'⟩ := (h.pool o').mp ho'
    simp only [h.ident ref o hr, h.ident ref' o' hr'] at heq
    rw [heq, hr', Option.some.injEq] at hr
    exact hr.symm
  · intro ref hmem
    obtain ⟨r, hr, _⟩ := Orders.mem_refs.mp hmem
    obtain ⟨o, ho, _⟩ := Option.map_eq_some_iff.mp hr
    exact ⟨o, (h.pool o).mpr ⟨ref, ho⟩, h.ident ref o ho⟩

omit [PriceLevel L] [MemoryPool P] in
/-- A reference with no order in the table means none. -/
theorem meaning_none {ref : UInt64} : b.meaning ref = none ↔ b.orders.toMap ref = none :=
  Option.map_eq_none_iff

/-! ## One event -/

/-- The event ends with an order at rest: an add that names a side and finds a place, the one its
own reference leaves if there is no other, and a replace of an order that is live. -/
def Rests (b : BookBuilder L P) : BookEvent → Prop
  | .add _ _ ref side _ _ _ =>
    sideOf side ≠ none ∧ (b.orders.toMap ref ≠ none ∨ MemoryPool.allocate b.pool ≠ none)
  | .replace _ _ oldRef _ _ _ => b.orders.toMap oldRef ≠ none
  | _ => False

/-- The events the table stays in step through: an order that will rest has a reference other than
zero, and a replace does not take a reference from another live order. -/
def Harmless (b : BookBuilder L P) : BookEvent → Prop
  | .add _ _ ref side _ _ _ =>
    sideOf side ≠ none → MemoryPool.allocate b.pool ≠ none → ref ≠ kEmptyKey
  | .replace _ _ oldRef newRef _ _ => b.orders.toMap oldRef ≠ none →
    newRef ≠ kEmptyKey ∧ (newRef = oldRef ∨ b.orders.toMap newRef = none)
  | _ => True

/-- What an applied event leaves behind. Its meaning is the event's own, unless there was no place
for the order: then the book means what it meant. -/
structure Applied (b b' : BookBuilder L P) (e : BookEvent) : Prop where
  /-- The structures are in step. -/
  rep : Rep b'
  /-- The map has moved, or the order would have been one too many for the pool. -/
  meaning : b'.meaning = b.meaning.step e ∨
    MemoryPool.capacity b.pool < (b.meaning.step e).live ∧ b'.meaning = b.meaning
  /-- The volume has. -/
  traded : ∀ stock, (b'.totals stock).executedShares =
    (b.totals stock).executedShares + b.meaning.traded stock e
  /-- The pool is as large as it was. -/
  capacity : MemoryPool.capacity b'.pool = MemoryPool.capacity b.pool

/-- An event whose orders fit the pool does to the book what it means. -/
theorem Applied.meaning_eq {e : BookEvent} (h : Applied b b' e)
    (hfits : (b.meaning.step e).live ≤ MemoryPool.capacity b.pool) :
    b'.meaning = b.meaning.step e :=
  h.meaning.resolve_right fun hfull => Nat.not_lt.mpr hfits hfull.1

/-- A change of counters: nothing the representation reads, and no volume. -/
structure Aside (b b' : BookBuilder L P) : Prop where
  pool : b'.pool = b.pool
  heap : b'.heap = b.heap
  orders : b'.orders = b.orders
  books : b'.books = b.books
  live : b'.stats.liveOrders = b.stats.liveOrders
  executed : ∀ stock, (b'.totals stock).executedShares = (b.totals stock).executedShares

namespace Aside

theorem rep (h : Aside b b') (hb : Rep b) : Rep b' :=
  hb.congr h.pool h.heap h.orders h.books h.live

omit [PriceLevel L] [MemoryPool P] in
theorem meaning_eq (h : Aside b b') : b'.meaning = b.meaning := by
  unfold meaning
  rw [h.orders, h.heap]

/-- An event that only counts. -/
theorem applied (h : Aside b b') (hb : Rep b) {e : BookEvent} (hstep : b.meaning.step e = b.meaning)
    (htraded : ∀ stock, b.meaning.traded stock e = 0) : Applied b b' e where
  rep := h.rep hb
  meaning := Or.inl (by rw [h.meaning_eq, hstep])
  traded := fun stock => by rw [h.executed, htraded, UInt64.add_zero]
  capacity := by rw [h.pool]

end Aside

omit [PriceLevel L] [MemoryPool P] in
/-- The message counter is not the volume. -/
theorem executed_countMessage (locate stock : UInt16) :
    ((b.countMessage locate).totals stock).executedShares = (b.totals stock).executedShares := by
  unfold countMessage
  by_cases hstock : stock = locate
  · subst hstock
    simp only [Function.update_self]
  · simp only [Function.update_of_ne hstock]

omit [PriceLevel L] [MemoryPool P] in
/-- The volume of one symbol grows by the shares. -/
theorem executed_recordVolume (locate stock : UInt16) (shares : UInt32) (price : UInt64) :
    ((b.recordVolume locate shares price).totals stock).executedShares =
      (b.totals stock).executedShares + if locate = stock then shares.toUInt64 else 0 := by
  unfold recordVolume
  by_cases hstock : stock = locate
  · subst hstock
    simp only [Function.update_self, if_true]
  · simp only [Function.update_of_ne hstock, if_neg (Ne.symm hstock), UInt64.add_zero]

namespace Aside

omit [PriceLevel L] [MemoryPool P] in
/-- Some counters more. -/
theorem count (h : Aside b b') {f : BookStats → BookStats}
    (hlive : (f b'.stats).liveOrders = b'.stats.liveOrders) : Aside b (b'.count f) :=
  ⟨h.pool, h.heap, h.orders, h.books, hlive.trans h.live, h.executed⟩

omit [PriceLevel L] [MemoryPool P] in
theorem touch (ts : UInt64) : Aside b (b.touch ts) := ⟨rfl, rfl, rfl, rfl, rfl, fun _ => rfl⟩

omit [PriceLevel L] [MemoryPool P] in
theorem countMessage (h : Aside b b') (locate : UInt16) : Aside b (b'.countMessage locate) :=
  ⟨h.pool, h.heap, h.orders, h.books, h.live, fun stock =>
    (executed_countMessage locate stock).trans (h.executed stock)⟩

end Aside

section Handlers

variable [LawfulPriceLevel L] [LawfulMemoryPool P] (kind : SideKind) {ref : UInt64}
  {o : OrderPtr} {shares : UInt32} {e : BookEvent} {locate : UInt16} {ts : UInt64}

/-- What E, C and X end with. -/
theorem reduce_applied {b1 : BookBuilder L P} (h1 : Rep b1) (horders : b1.orders = b.orders)
    (hheap : b1.heap = b.heap) (hpool : b1.pool = b.pool) (hr : b.orders.toMap ref = some o)
    (hstep : b.meaning.step e = b.meaning.take ref shares)
    (htraded : ∀ stock, (b1.totals stock).executedShares =
      (b.totals stock).executedShares + b.meaning.traded stock e) :
    ∃ b', reduce kind b1 ref o shares = some b' ∧ Applied b b' e := by
  obtain ⟨b', hb', hrep, hm, ht, hc⟩ := reduce_spec kind h1 (horders ▸ hr) shares
  have hmeaning : b1.meaning = b.meaning := by
    unfold meaning
    rw [horders, hheap]
  exact ⟨b', hb', hrep, Or.inl (by rw [hm, hmeaning, hstep]), fun stock => by rw [ht, htraded],
    by rw [hc, hpool]⟩

omit [PriceLevel L] [MemoryPool P] [LawfulPriceLevel L] [LawfulMemoryPool P] in
/-- What a reference in the table means. -/
theorem meaning_some (hr : b.orders.toMap ref = some o) :
    b.meaning ref = some ⟨(b.heap o).symbol, (b.heap o).side, (b.heap o).price,
      (b.heap o).remainingQty⟩ := by
  unfold meaning
  rw [hr]
  rfl

omit [PriceLevel L] [MemoryPool P] [LawfulPriceLevel L] [LawfulMemoryPool P] in
/-- Nothing is taken from an order that is not there. -/
theorem take_none (hr : b.orders.toMap ref = none) : b.meaning.take ref shares = b.meaning := by
  unfold Orders.take
  rw [meaning_none.mpr hr]

/-- E: an orphan is counted, an order loses its shares, and its symbol's volume has them. -/
theorem onExecute_applied (h : Rep b) : ∃ b', onExecute kind b locate ts ref shares = some b' ∧
    Applied b b' (.execute locate ts ref shares) := by
  unfold onExecute
  extract_lets b0 b1 b2
  -- the three counters on the way in
  have ha : Aside b b2 := ((Aside.touch ts).count rfl).countMessage locate
  clear_value b2
  rw [find_eq (ha.rep h), ha.orders, Option.bind_some]
  cases hr : b.orders.toMap ref with
  | none =>
    refine ⟨_, rfl, (ha.count rfl).applied h (take_none hr) fun stock => ?_⟩
    simp only [Orders.traded, meaning_none.mpr hr]
  | some o =>
    refine reduce_applied kind ((ha.rep h).congr rfl rfl rfl rfl rfl) ha.orders ha.heap ha.pool hr
      rfl
      fun stock => ?_
    rw [executed_recordVolume, ha.executed, ha.heap]
    simp only [Orders.traded, meaning_some hr]

/-- C: the shares go either way, the volume only for a print that is printable. -/
theorem onExecutePrice_applied (h : Rep b) {printable : Bool} {price : UInt32} :
    ∃ b', onExecutePrice kind b locate ts ref shares printable price = some b' ∧
      Applied b b' (.executePrice locate ts ref shares printable price) := by
  unfold onExecutePrice
  extract_lets b0 b1 b2
  have ha : Aside b b2 := ((Aside.touch ts).count rfl).countMessage locate
  clear_value b2
  rw [find_eq (ha.rep h), ha.orders, Option.bind_some]
  cases hr : b.orders.toMap ref with
  | none =>
    refine ⟨_, rfl, (ha.count rfl).applied h (take_none hr) fun stock => ?_⟩
    simp only [Orders.traded, meaning_none.mpr hr]
  | some o =>
    -- the two volumes are `Orders.traded`'s two cases
    cases printable with
    | true =>
      refine reduce_applied kind ((ha.rep h).congr rfl rfl rfl rfl rfl) ha.orders ha.heap ha.pool hr
        rfl
        fun stock => ?_
      rw [if_pos rfl, executed_recordVolume, ha.executed, ha.heap]
      simp only [Orders.traded, meaning_some hr, true_and]
    | false =>
      refine reduce_applied kind (ha.rep h) ha.orders ha.heap ha.pool hr rfl fun stock => ?_
      rw [if_neg Bool.false_ne_true, ha.executed]
      simp [Orders.traded, meaning_some hr]

/-- X: as E, without volume. -/
theorem onCancel_applied (h : Rep b) : ∃ b', onCancel kind b locate ts ref shares = some b' ∧
    Applied b b' (.cancel locate ts ref shares) := by
  unfold onCancel
  extract_lets b0 b1 b2
  have ha : Aside b b2 := ((Aside.touch ts).count rfl).countMessage locate
  clear_value b2
  rw [find_eq (ha.rep h), ha.orders, Option.bind_some]
  cases hr : b.orders.toMap ref with
  | none => exact ⟨_, rfl, (ha.count rfl).applied h (take_none hr) fun _ => rfl⟩
  | some o =>
    refine reduce_applied kind (ha.rep h) ha.orders ha.heap ha.pool hr rfl fun stock => ?_
    rw [ha.executed]
    exact (UInt64.add_zero _).symm

/-- D: the order goes, however many shares it had. -/
theorem onDelete_applied (h : Rep b) : ∃ b', onDelete kind b locate ts ref = some b' ∧
    Applied b b' (.delete locate ts ref) := by
  unfold onDelete
  extract_lets b0 b1 b2
  have ha : Aside b b2 := ((Aside.touch ts).count rfl).countMessage locate
  clear_value b2
  rw [find_eq (ha.rep h), ha.orders, Option.bind_some]
  cases hr : b.orders.toMap ref with
  | none =>
    have hstep : b.meaning.step (.delete locate ts ref) = b.meaning := by
      rw [Orders.step, ← meaning_none.mpr hr, Function.update_eq_self]
    exact ⟨_, rfl, (ha.count rfl).applied h hstep fun _ => rfl⟩
  | some o =>
    obtain ⟨b', hb', hgone⟩ := removeOrder_spec kind (ha.rep h) (ha.orders ▸ hr)
    refine ⟨b', hb', hgone.rep, Or.inl (by rw [hgone.meaning, ha.meaning_eq]; rfl),
      fun stock => ?_, by rw [hgone.capacity, ha.pool]⟩
    rw [hgone.totals, ha.executed]
    exact (UInt64.add_zero _).symm

/-- An order is about to rest, which is what A and U end with: `b3` is the builder by then, the
order `old` is gone from it, and the order `r` is to be entered under `ref`. The last three fields
say of `b3` what `Rests`, `Harmless` and `Orders.Countable` say of `b`. -/
structure Placing (kind : SideKind) (b : BookBuilder L P) (e : BookEvent) (b3 : BookBuilder L P)
    (old ref : UInt64) (r : Resting) : Prop where
  /-- From here on the handler is `rest`. -/
  applies : ∃ (price : UInt32) (ts : UInt64), r.price = price.toNat ∧
    apply kind b e = rest kind b3 ref r.side price r.remaining ts r.symbol
  /-- Whatever went, went cleanly. -/
  rep : Rep b3
  meaning : b3.meaning = Function.update b.meaning old none
  step : b.meaning.step e = Function.update b3.meaning ref (some r)
  traded : ∀ stock, (b3.totals stock).executedShares =
    (b.totals stock).executedShares + b.meaning.traded stock e
  capacity : MemoryPool.capacity b3.pool = MemoryPool.capacity b.pool
  /-- Only an add of a new reference can find the pool full: anything else has just given a place
  back. -/
  full : MemoryPool.allocate b3.pool = none → old = ref ∧ b.meaning old = none
  place : MemoryPool.allocate b3.pool ≠ none ↔ Rests b e
  harmless : Harmless b e ↔ (Rests b e → ref ≠ kEmptyKey ∧ b3.orders.toMap ref = none)
  countable : b.meaning.Countable e ↔
    b3.meaning.sharesAt r.symbol r.side r.price + r.remaining.toNat < 2 ^ 32

/-- The order rests, or the pool has no place for it. -/
theorem Placing.applied {b3 : BookBuilder L P} {old : UInt64} {r : Resting}
    (hp : Placing kind b e b3 old ref r) (hok : Harmless b e) :
    ∃ b', apply kind b e = some b' ∧ Applied b b' e := by
  obtain ⟨price, ts, hprice, happly⟩ := hp.applies
  rw [happly]
  cases ha : MemoryPool.allocate b3.pool with
  | none =>
    -- no place: nothing had gone to make one, so that the book is what it was
    obtain ⟨rfl, hnone⟩ := hp.full ha
    obtain ⟨b', hb', hrep, hm, ht, hc⟩ := rest_full kind hp.rep ha
    have hfree : b3.meaning old = none := by rw [hp.meaning, Function.update_self]
    have hfull := (LawfulMemoryPool.allocate_none b3.pool).mp ha
    refine ⟨b', hb', hrep, Or.inr ⟨?_, ?_⟩, fun stock => by rw [ht, hp.traded],
      hc.trans hp.capacity⟩
    · rw [hp.step, Orders.live_update hfree, live_meaning hp.rep, ← hp.capacity]
      exact Nat.lt_succ_of_le hfull
    · rw [hm, hp.meaning, ← hnone, Function.update_eq_self]
  | some place =>
    have hplace : MemoryPool.allocate b3.pool ≠ none := by rw [ha]; simp
    obtain ⟨hz, hnew⟩ := hp.harmless.mp hok (hp.place.mp hplace)
    obtain ⟨b', hb', hrep, hm, ht, hc⟩ := rest_spec kind hp.rep hz hnew hplace
    exact ⟨b', hb', hrep, Or.inl (by rw [hm, hp.step, ← hprice]),
      fun stock => by rw [ht, hp.traded], hc.trans hp.capacity⟩

/-- An add that names a side: the order its reference had goes first. -/
theorem onAdd_placing (h : Rep b) {sideChar : Char} {price : UInt32} {hasMpid : Bool} {side : Side}
    (hs : sideOf sideChar = some side) :
    ∃ b3, Placing kind b (.add locate ts ref sideChar shares price hasMpid) b3 ref ref
      ⟨locate, side, price.toNat, shares⟩ := by
  have hnamed : sideOf sideChar ≠ none := by rw [hs]; simp
  have hstep : b.meaning.step (.add locate ts ref sideChar shares price hasMpid) =
      Function.update b.meaning ref (some ⟨locate, side, price.toNat, shares⟩) := by
    simp only [Orders.step, hs]
  have hcountable : b.meaning.Countable (.add locate ts ref sideChar shares price hasMpid) ↔
      Orders.sharesAt (Function.update b.meaning ref none) locate side price.toNat +
        shares.toNat < 2 ^ 32 := by
    refine ⟨fun hc => hc side hs, fun hc s hs' => ?_⟩
    rwa [Option.some.inj (hs'.symm.trans hs)]
  have htraded : ∀ stock, (b.totals stock).executedShares = (b.totals stock).executedShares +
      b.meaning.traded stock (.add locate ts ref sideChar shares price hasMpid) := fun stock =>
    (UInt64.add_zero _).symm
  have happly : apply kind b (.add locate ts ref sideChar shares price hasMpid) =
      onAdd kind b locate ts ref sideChar shares price hasMpid := rfl
  unfold onAdd at happly
  extract_lets b0 b1 b2 side? at happly
  -- the handler up to the lookup, with its counters put aside
  have ha : Aside b b2 := ((Aside.touch ts).count rfl).countMessage locate
  have hside : side? = some side := hs
  clear_value b2
  rw [hside] at happly
  simp only [find_eq (ha.rep h), ha.orders, Option.bind_some] at happly
  cases hr : b.orders.toMap ref with
  | none =>
    rw [hr] at happly
    have hfree : Function.update b.meaning ref none = b.meaning := by
      rw [← meaning_none.mpr hr, Function.update_eq_self]
    -- a new reference: nothing has to go
    exact ⟨b2, {
      applies := ⟨price, ts, rfl, happly⟩
      rep := ha.rep h
      meaning := by rw [hfree, ha.meaning_eq]
      step := by rw [ha.meaning_eq, hstep]
      traded := fun stock => by rw [ha.executed, ← htraded]
      capacity := by rw [ha.pool]
      full := fun _ => ⟨rfl, meaning_none.mpr hr⟩
      place := by
        rw [ha.pool]
        exact ⟨fun hp => ⟨hnamed, Or.inr hp⟩, fun hp => hp.2.resolve_left fun hc => hc hr⟩
      harmless := by
        rw [ha.orders]
        exact ⟨fun hok hp => ⟨hok hnamed (hp.2.resolve_left fun hc => hc hr), hr⟩,
          fun hok _ hp => (hok ⟨hnamed, Or.inr hp⟩).1⟩
      countable := by rw [hcountable, hfree, ha.meaning_eq] }⟩
  | some o =>
    rw [hr] at happly
    -- a duplicate: it is counted, the order it had is removed, and its place is free
    have hd : Aside b (b2.count fun s => { s with duplicateRefs := s.duplicateRefs + 1 }) :=
      ha.count rfl
    obtain ⟨b3, hb3, hgone⟩ := removeOrder_spec kind (hd.rep h) (hd.orders ▸ hr)
    have hz : ref ≠ kEmptyKey := by
      rintro rfl
      rw [h.map.toMap_zero] at hr
      exact absurd hr (by simp)
    have hlive : b.orders.toMap ref ≠ none := by rw [hr]; simp
    have hm : b3.meaning = Function.update b.meaning ref none := by
      rw [hgone.meaning, hd.meaning_eq]
    exact ⟨b3, {
      applies := ⟨price, ts, rfl, by rw [happly, hb3, Option.bind_some]⟩
      rep := hgone.rep
      meaning := hm
      step := by rw [hm, Function.update_idem, hstep]
      traded := fun stock => by rw [hgone.totals, hd.executed, ← htraded]
      capacity := by rw [hgone.capacity, hd.pool]
      full := fun hnone => absurd hnone hgone.place
      place := iff_of_true hgone.place ⟨hnamed, Or.inl hlive⟩
      harmless := iff_of_true (fun _ _ => hz)
        fun _ => ⟨hz, by rw [hgone.map, Function.update_self]⟩
      countable := by rw [hcountable, hm] }⟩

/-- A replace of a live order, which goes first. -/
theorem onReplace_placing (h : Rep b) {newRef : UInt64} {price : UInt32}
    (hr : b.orders.toMap ref = some o) :
    ∃ b3, Placing kind b (.replace locate ts ref newRef shares price) b3 ref newRef
      ⟨(b.heap o).symbol, (b.heap o).side, price.toNat, shares⟩ := by
  have hlive : b.orders.toMap ref ≠ none := by rw [hr]; simp
  have happly : apply kind b (.replace locate ts ref newRef shares price) =
      onReplace kind b locate ts ref newRef shares price := rfl
  unfold onReplace at happly
  extract_lets b0 b1 b2 at happly
  have ha : Aside b b2 := ((Aside.touch ts).count rfl).countMessage locate
  clear_value b2
  obtain ⟨b3, hb3, hgone⟩ := removeOrder_spec kind (ha.rep h) (ha.orders ▸ hr)
  simp only [find_eq (ha.rep h), ha.orders, hr, Option.bind_some, hb3, ha.heap] at happly
  have hm : b3.meaning = Function.update b.meaning ref none := by
    rw [hgone.meaning, ha.meaning_eq]
  -- the new reference may be the old one, which is free by now
  have hnew : b3.orders.toMap newRef = none ↔ newRef = ref ∨ b.orders.toMap newRef = none := by
    rw [hgone.map, ha.orders]
    by_cases heq : newRef = ref
    · rw [heq, Function.update_self]
      exact iff_of_true rfl (Or.inl rfl)
    · rw [Function.update_of_ne heq]
      exact ⟨Or.inr, fun hfree => hfree.resolve_left heq⟩
  exact ⟨b3, {
    applies := ⟨price, ts, rfl, happly⟩
    rep := hgone.rep
    meaning := hm
    step := by
      rw [hm]
      simp only [Orders.step, meaning_some hr]
    traded := fun stock => by
      rw [hgone.totals, ha.executed]
      exact (UInt64.add_zero _).symm
    capacity := by rw [hgone.capacity, ha.pool]
    full := fun hnone => absurd hnone hgone.place
    place := iff_of_true hgone.place hlive
    harmless := by
      rw [hnew]
      rfl
    -- the order replaced is the one the map has there, so its symbol and side are those of `hr`
    countable := by
      rw [hm]
      constructor
      · intro hc
        exact hc ⟨(b.heap o).symbol, (b.heap o).side, (b.heap o).price, (b.heap o).remainingQty⟩
          (meaning_some hr)
      · intro hc r hr'
        rw [meaning_some hr, Option.some.injEq] at hr'
        rwa [← hr'] }⟩

/-- A and F: a side nobody knows is counted, and otherwise the order rests or the pool is full. -/
theorem onAdd_applied (h : Rep b) {sideChar : Char} {price : UInt32} {hasMpid : Bool}
    (hok : Harmless b (.add locate ts ref sideChar shares price hasMpid)) :
    ∃ b', onAdd kind b locate ts ref sideChar shares price hasMpid = some b' ∧
      Applied b b' (.add locate ts ref sideChar shares price hasMpid) := by
  cases hs : sideOf sideChar with
  | some side =>
    obtain ⟨b3, hp⟩ := onAdd_placing kind h hs
    exact hp.applied kind hok
  | none =>
    unfold onAdd
    extract_lets b0 b1 b2 side?
    have ha : Aside b b2 := ((Aside.touch ts).count rfl).countMessage locate
    rw [show side? = none from hs]
    have hstep : b.meaning.step (.add locate ts ref sideChar shares price hasMpid) = b.meaning := by
      simp only [Orders.step, hs]
    exact ⟨_, rfl, (ha.count rfl).applied h hstep fun _ => rfl⟩

/-- U: an orphan is counted, and otherwise the order is replaced. -/
theorem onReplace_applied (h : Rep b) {newRef : UInt64} {price : UInt32}
    (hok : Harmless b (.replace locate ts ref newRef shares price)) :
    ∃ b', onReplace kind b locate ts ref newRef shares price = some b' ∧
      Applied b b' (.replace locate ts ref newRef shares price) := by
  cases hr : b.orders.toMap ref with
  | some o =>
    obtain ⟨b3, hp⟩ := onReplace_placing kind h hr
    exact hp.applied kind hok
  | none =>
    unfold onReplace
    extract_lets b0 b1 b2
    have ha : Aside b b2 := ((Aside.touch ts).count rfl).countMessage locate
    clear_value b2
    rw [find_eq (ha.rep h), ha.orders, Option.bind_some, hr]
    have hstep : b.meaning.step (.replace locate ts ref newRef shares price) = b.meaning := by
      simp only [Orders.step, meaning_none.mpr hr]
    exact ⟨_, rfl, (ha.count rfl).applied h hstep fun _ => rfl⟩

omit [LawfulPriceLevel L] [LawfulMemoryPool P] in
/-- P: volume, and nothing else. -/
theorem onTrade_applied (h : Rep b) {price : UInt32} :
    Applied b (b.onTrade locate ts shares price) (.trade locate ts shares price) where
  rep := h.congr rfl rfl rfl rfl rfl
  meaning := Or.inl rfl
  capacity := rfl
  traded := by
    intro stock
    unfold onTrade
    extract_lets b0 b1 b2 b3
    have ha : Aside b b2 := ((Aside.touch ts).count rfl).countMessage locate
    rw [executed_recordVolume]
    congr 1
    rw [← ha.executed]
    show (Function.update b2.totals locate _ stock).executedShares = _
    by_cases hstock : stock = locate
    · subst hstock
      rw [Function.update_self]
    · rw [Function.update_of_ne hstock]

omit [LawfulPriceLevel L] [LawfulMemoryPool P] in
/-- Q: likewise. -/
theorem onCrossTrade_applied (h : Rep b) {price : UInt32} :
    Applied b (b.onCrossTrade locate ts shares price) (.crossTrade locate ts shares price) where
  rep := h.congr rfl rfl rfl rfl rfl
  meaning := Or.inl rfl
  capacity := rfl
  traded := by
    intro stock
    unfold onCrossTrade
    extract_lets b0 b1 b2 b3
    have ha : Aside b b2 := ((Aside.touch ts).count rfl).countMessage locate
    rw [executed_recordVolume]
    congr 1
    rw [← ha.executed]
    show (Function.update b2.totals locate _ stock).executedShares = _
    by_cases hstock : stock = locate
    · subst hstock
      rw [Function.update_self]
    · rw [Function.update_of_ne hstock]

omit [LawfulPriceLevel L] [LawfulMemoryPool P] in
/-- A handler that touches neither the book nor the volume. -/
theorem applied_of_untouched (h : Rep b) (hpool : b'.pool = b.pool) (hheap : b'.heap = b.heap)
    (horders : b'.orders = b.orders) (hbooks : b'.books = b.books)
    (hlive : b'.stats.liveOrders = b.stats.liveOrders) (htotals : b'.totals = b.totals)
    (hstep : b.meaning.step e = b.meaning) (htraded : ∀ stock, b.meaning.traded stock e = 0) :
    Applied b b' e :=
  (Aside.mk hpool hheap horders hbooks hlive fun stock => by rw [htotals]).applied h hstep htraded

end Handlers

/-! ## Any event -/

variable [LawfulPriceLevel L] [LawfulMemoryPool P]

/-- **One event**: the builder answers, its structures stay in step, and what it means moves as
the event says. -/
theorem apply_spec (kind : SideKind) (h : Rep b) {e : BookEvent} (hok : Harmless b e) :
    ∃ b', apply kind b e = some b' ∧ Applied b b' e := by
  cases e with
  | systemEvent ts code =>
    exact ⟨_, rfl, applied_of_untouched h rfl rfl rfl rfl rfl rfl rfl fun _ => rfl⟩
  | stockDirectory locate ts ticker lot =>
    exact ⟨_, rfl, applied_of_untouched h rfl rfl rfl rfl rfl rfl rfl fun _ => rfl⟩
  | tradingAction locate ts state =>
    exact ⟨_, rfl, applied_of_untouched h rfl rfl rfl rfl rfl rfl rfl fun _ => rfl⟩
  | add locate ts ref side shares price mpid => exact onAdd_applied kind h hok
  | execute locate ts ref shares => exact onExecute_applied kind h
  | executePrice locate ts ref shares printable price => exact onExecutePrice_applied kind h
  | cancel locate ts ref shares => exact onCancel_applied kind h
  | delete locate ts ref => exact onDelete_applied kind h
  | replace locate ts oldRef newRef shares price => exact onReplace_applied kind h hok
  | trade locate ts shares price => exact ⟨_, rfl, onTrade_applied h⟩
  | crossTrade locate ts shares price => exact ⟨_, rfl, onCrossTrade_applied h⟩
  | brokenTrade ts =>
    exact ⟨_, rfl, applied_of_untouched h rfl rfl rfl rfl rfl rfl rfl fun _ => rfl⟩
  | other ts => exact ⟨_, rfl, applied_of_untouched h rfl rfl rfl rfl rfl rfl rfl fun _ => rfl⟩

omit [LawfulPriceLevel L] in
/-- Nothing rests in a new builder. -/
theorem rep_make (capacity : ℕ) : Rep (make capacity : BookBuilder L P) := by
  have hmap : ∀ ref, (make capacity : BookBuilder L P).orders.toMap ref = none := fun ref =>
    FlatOrderMap.toMap_empty _ ref
  have hat : ∀ stock side p, (make capacity : BookBuilder L P).levelAt stock side p = none := by
    intro stock side p
    cases side <;> rfl
  -- no reference, hence no order anywhere and none in use
  have hreached : ∀ o, ¬ (make capacity : BookBuilder L P).Reached o := by
    rintro o ⟨ref, hr⟩
    exact absurd ((hmap ref).symm.trans hr) (by simp)
  have hon : ∀ stock side p o, ¬ (make capacity : BookBuilder L P).On stock side p o := by
    rintro stock side p o ⟨lvl, hl, _⟩
    exact absurd ((hat stock side p).symm.trans hl) (by simp)
  have huse : MemoryPool.inUse (make capacity : BookBuilder L P).pool = ∅ :=
    LawfulMemoryPool.inUse_make
  exact {
    map := FlatOrderMap.wf_make capacity
    sorted := by
      intro stock side
      cases side <;> exact List.Pairwise.nil
    level := fun stock side p lvl hl => absurd ((hat stock side p).symm.trans hl) (by simp)
    nonempty := fun stock side p lvl hl => absurd ((hat stock side p).symm.trans hl) (by simp)
    ident := fun ref o hr => absurd ⟨ref, hr⟩ (hreached o)
    on := fun stock side p o => iff_of_false (hon stock side p o) fun h => hreached o h.1
    live := rfl
    pool := fun o => by
      rw [huse]
      exact iff_of_false (Finset.notMem_empty o) (hreached o)
    room := by
      rw [huse, Finset.card_empty]
      exact Nat.zero_le _ }

end BookBuilder

end Tickerplant
