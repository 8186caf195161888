import Mathlib.Data.List.Sort
import Tickerplant.Concurrency.MpmcSteps

/-!
# Nothing lost, nothing twice

What the invariant says of the calls that returned. A push is known by its ticket: the pops that
returned have different tickets, each of them the ticket of a push that succeeded, and carry its
item. Nothing here looks at a step.

The bridge between the two sides is the slot. A pop that returned has moved its slot on, so the
slot has been at that ticket with an item in it, so the push of that ticket had released it, and by
`LogOk.complete` that push is in the log. Order is the same argument with two tickets: what one
thread pushed has ascending tickets, and so has what one thread popped, so the two sequences cannot
cross.

A queue does not begin empty here. The items it holds at the start are pushes that came before,
with the first tickets, and `held` says who made them.
-/

set_option autoImplicit false

namespace Tickerplant
namespace MpmcQueue

open Lib
open Interleave

variable {α T : Type} {cap : Capacity} {left : α → α} {w w' : World α T}

/-! ## Resting states -/

/-- The first ticket of a slot is in the first lap. -/
theorem home_lt (cap : Capacity) (q : State α T) (i : ℕ) : home cap q i < cap.size :=
  Nat.mod_lt _ (Nat.lt_of_lt_of_le (by decide) cap.two)

/-- It is a ticket of that slot. -/
theorem place_home (q : State α T) (held : List (T × α)) {i : ℕ} (hi : i < cap.size) :
    (History.start cap q held).place cap (home cap q i) = i := by
  have hlt := Nat.mod_lt q.head.toNat (show 0 < cap.size by have := cap.two; omega)
  have hdiv := Nat.div_add_mod q.head.toNat cap.size
  show (q.head.toNat + home cap q i) % cap.size = i
  rw [home, Nat.add_mod_mod]
  have : q.head.toNat + (i + (cap.size - q.head.toNat % cap.size)) =
      i + cap.size * (q.head.toNat / cap.size + 1) := by
    rw [Nat.mul_add, Nat.mul_one]
    omega
  rw [this, Nat.add_mul_mod_self_left, Nat.mod_eq_of_lt hi]

/-- A resting state meets the invariant. -/
theorem inv_start {q : State α T} {held : List (T × α)}
    (hq : Quiescent cap (held.map Prod.snd) q) : Inv cap (q, History.start cap q held) := by
  have hfits := hq.fits
  rw [List.length_map] at hfits
  -- Every stamp is its slot's first ticket, or one more where an item is; the machine shows just
  -- that, by `full` and `free`.
  constructor
  case position =>
    intro k
    cases k with
    | push =>
      have := hq.tail
      rw [List.length_map] at this
      simp only [State.position, History.pos, History.count, History.start, List.length_map, this]
    | pop => simp [State.position, History.pos, History.count, History.start]
  case items => simp [History.start, History.count]
  case room => simpa [History.start, History.count] using hfits
  case held => simp [History.start, History.count]
  case seq =>
    intro i hi
    have hplace := place_home q held hi
    rw [← maskIndex_pos] at hplace
    simp only [History.start]
    split
    · rename_i hlt
      have hget : (held.map Prod.snd)[home cap q i]? = some (held[home cap q i]).2 := by
        rw [List.getElem?_map, List.getElem?_eq_getElem hlt]
        rfl
      have := hq.full _ _ hget
      rw [show q.head + UInt64.ofNat (home cap q i) =
        (History.start cap q held).pos (home cap q i) from rfl, hplace] at this
      rw [this]
      simp only [History.pos, History.start]
      rw [UInt64.ofNat_add, UInt64.add_assoc]
      rfl
    · rename_i hge
      have := hq.free (home cap q i) (by rw [List.length_map]; omega) (home_lt cap q i)
      rw [show q.head + UInt64.ofNat (home cap q i) =
        (History.start cap q held).pos (home cap q i) from rfl, hplace] at this
      exact this
  case slot =>
    intro i hi
    refine ⟨home cap q i, place_home q held hi, ?_, ?_, ?_⟩
    · simp only [History.start, History.count, List.length_map]
      omega
    · have := home_lt cap q i
      simp only [History.start, History.count, List.length_nil]
      omega
    · by_cases hlt : home cap q i < held.length
      · refine .inr ⟨?_, ?_, .inl ?_⟩
        · simp only [History.start, mark, if_pos hlt]
        · simpa [History.start, History.count] using hlt
        · simp [History.start, History.count]
      · refine .inl ⟨?_, ?_, .inl ?_⟩
        · simp only [History.start, mark, if_neg hlt]
        · simp [History.start, History.count]
        · simpa [History.start, History.count] using hlt
  case payload =>
    intro j x hx _ _
    have hlt := (List.getElem?_eq_some_iff.mp hx).1
    have hfull := hq.full j x hx
    rw [show q.head + UInt64.ofNat j = (History.start cap q held).pos j from rfl,
      maskIndex_pos] at hfull
    exact congrArg Slot.value hfull
  case thread =>
    intro t
    rw [hq.idle t]
    trivial
  case since => exact fun t => Nat.zero_le _
  case log =>
    intro k
    refine ⟨?_, ?_, ?_, List.Pairwise.nil, List.Pairwise.nil⟩
    · cases k <;> simp [History.origin, History.count, History.start]
    · intro e he
      cases he
    · intro j hlo hhi
      cases k <;> simp [History.origin, History.count, History.start] at hlo hhi
      omega

/-! ## Nothing lost, nothing twice -/

/-- Every push there has been that succeeded: those whose items were in the queue at the start,
and those that returned since. -/
def pushes (held : List (T × α)) (log : List (Returned α T)) : List (Passed α T) :=
  held.zipIdx.map (fun p => ⟨p.1.1, p.2, p.1.2⟩) ++ passed .push log

/-- What one thread moved, with its tickets, in the order its calls returned. -/
def movedBy [DecidableEq T] (t : T) (l : List (Passed α T)) : List (ℕ × α) :=
  (l.filter fun e => e.thread = t).map fun e => (e.ticket, e.item)

/-- The slot a thread is moving a payload in or out of, or about to give up. -/
def State.touches (cap : Capacity) (q : State α T) (t : T) : Option ℕ :=
  match q.thread t with
  | some (_, .copying pos) => some (maskIndex cap.size pos)
  | some (_, .releasing pos _) => some (maskIndex cap.size pos)
  | _ => none

/-- What holds of the ring whatever the threads do. -/
structure Lossless [DecidableEq T] (cap : Capacity) (held : List (T × α)) (w : World α T) :
    Prop where
  /-- No two pushes have one ticket, and no two pops. -/
  pushedOnce : (pushes held w.2.log).Pairwise fun e f => e.ticket ≠ f.ticket
  poppedOnce : (passed .pop w.2.log).Pairwise fun e f => e.ticket ≠ f.ticket
  /-- A pop returns the item of the push with its ticket. -/
  popped : ∀ e ∈ passed .pop w.2.log, ∃ f ∈ pushes held w.2.log,
    f.ticket = e.ticket ∧ f.item = e.item
  /-- No two threads are at one payload. -/
  exclusive : ∀ t t' i, w.1.touches cap t = some i → w.1.touches cap t' = some i → t = t'
  /-- A payload about to be written has been read: whatever was pushed into the slot before has
  been popped. -/
  readFirst : ∀ t pos item, w.1.thread t = some (.push item, .copying pos) →
    ∀ f ∈ pushes held w.2.log, w.2.place cap f.ticket = maskIndex cap.size pos →
      ∃ e ∈ passed .pop w.2.log, e.ticket = f.ticket
  /-- What `b` popped of the items of `a` came out in the order `a` pushed it. -/
  fifo : ∀ a b, ((movedBy b (passed .pop w.2.log)).filter fun e =>
      e.1 ∈ (movedBy a (pushes held w.2.log)).map Prod.fst).Sublist
    (movedBy a (pushes held w.2.log))
  /-- At most a ring's worth is in the ring. -/
  bounded : (pushes held w.2.log).length ≤ (passed .pop w.2.log).length + cap.size

/-- The history still begins with what was in the queue. -/
structure Begins (held : List (T × α)) (h : History α T) : Prop where
  first : h.first = held.length
  items : held.map Prod.snd <+: h.items
  claims : held.map Prod.fst <+: h.claims .push

/-- The history starts with them. -/
theorem begins_start (q : State α T) (held : List (T × α)) :
    Begins held (History.start cap q held) :=
  ⟨rfl, List.prefix_refl _, List.prefix_refl _⟩

/-- Claims and items are only ever added. -/
theorem begins_steps [DecidableEq T] {held : List (T × α)} (hb : Begins held w.2)
    (h : Steps cap left w w') : Begins held w'.2 := by
  cases h with
  | claim t op pos at_ won =>
    refine ⟨?_, ?_, ?_⟩
    · cases op <;> exact hb.first
    · rw [claim_items]
      exact hb.items.trans (List.prefix_append _ _)
    · rw [claim_claims]
      exact hb.claims.trans (List.prefix_append _ _)
  | _ => exact ⟨hb.first, hb.items, hb.claims⟩

section Tickets

variable {held : List (T × α)} (hb : Begins held w.2) (hinv : Inv cap w)

include hb hinv

/-- The ticket, the thread and the item of a push that succeeded. -/
theorem push_sound {e : Passed α T} (he : e ∈ pushes held w.2.log) :
    (w.2.claims .push)[e.ticket]? = some e.thread ∧ w.2.items[e.ticket]? = some e.item := by
  rcases List.mem_append.mp he with he | he
  · obtain ⟨⟨⟨t, x⟩, j⟩, hmem, rfl⟩ := List.mem_map.mp he
    have hget : held[j]? = some (t, x) := List.mem_zipIdx_iff_getElem?.mp hmem
    obtain ⟨more, hmore⟩ := hb.claims
    obtain ⟨more', hmore'⟩ := hb.items
    have hlt := (List.getElem?_eq_some_iff.mp hget).1
    refine ⟨?_, ?_⟩
    · rw [← hmore, List.getElem?_append_left (by rw [List.length_map]; exact hlt),
        List.getElem?_map, hget]
      rfl
    · rw [← hmore', List.getElem?_append_left (by rw [List.length_map]; exact hlt),
        List.getElem?_map, hget]
      rfl
  · obtain ⟨-, hclaim, hitem, -⟩ := (hinv.log .push).sound e he
    exact ⟨hclaim, hitem⟩

/-- A ticket whose slot has moved on from being filled belongs to a push that succeeded. -/
theorem push_complete {j : ℕ} (hj : j < w.2.count .push)
    (hmoved : w.2.stamp (w.2.place cap j) ≠ mark j .push) :
    ∃ e ∈ pushes held w.2.log, e.ticket = j := by
  rcases Nat.lt_or_ge j held.length with hlt | hge
  · refine ⟨⟨held[j].1, j, held[j].2⟩, List.mem_append_left _ (List.mem_map.mpr ?_), rfl⟩
    exact ⟨(held[j], j), List.mem_zipIdx_iff_getElem?.mpr (List.getElem?_eq_getElem hlt), rfl⟩
  · obtain ⟨e, he, hticket⟩ :=
      (hinv.log .push).complete j (by rw [History.origin, hb.first]; exact hge) hj hmoved
    exact ⟨e, List.mem_append_right _ he, hticket⟩

/-- The slot of a push that succeeded has moved on. -/
theorem push_moved {e : Passed α T} (he : e ∈ pushes held w.2.log) :
    w.2.stamp (w.2.place cap e.ticket) ≠ mark e.ticket .push := by
  rcases List.mem_append.mp he with hold | hnew
  · obtain ⟨⟨⟨t, x⟩, j⟩, hmem, rfl⟩ := List.mem_map.mp hold
    have hlt : j < held.length :=
      (List.getElem?_eq_some_iff.mp (List.mem_zipIdx_iff_getElem?.mp hmem)).1
    have hclaimed := (List.getElem?_eq_some_iff.mp (push_sound hb hinv he).1).1
    intro hstamp
    obtain ⟨j', hplace, -, -, hphase⟩ := hinv.slot _ (place_lt cap w.2 j)
    rcases hphase with ⟨hs, -, hown⟩ | ⟨hs, -, -⟩
    · obtain ⟨rfl, -⟩ := mark_inj hplace (hs.symm.trans hstamp)
      rcases hown with hle | ⟨t', ho, hticket⟩
      · exact absurd hclaimed (Nat.not_lt.mpr hle)
      · -- nobody owns a ticket from before the start
        obtain ⟨pos, howns⟩ := hinv.owns ho
        have horigin := howns.2.1
        rw [History.origin, hb.first] at horigin
        omega
    · exact absurd (mark_inj hplace (hs.symm.trans hstamp)).2 (by decide)
  · exact Nat.ne_of_gt ((hinv.log .push).sound e hnew).2.2.2

theorem pushes_pairwise {R : Passed α T → Passed α T → Prop}
    (hR : ∀ e f : Passed α T, e.ticket < f.ticket → R e f)
    (hlog : (passed .push w.2.log).Pairwise R) : (pushes held w.2.log).Pairwise R := by
  refine List.pairwise_append.mpr ⟨?_, hlog, ?_⟩
  · rw [List.pairwise_map]
    have hidx : (held.zipIdx.map Prod.snd).Pairwise (· < ·) := by
      rw [List.zipIdx_map_snd]
      exact List.pairwise_lt_range'
    exact (List.pairwise_map.mp hidx).imp fun h => hR _ _ h
  · intro e he f hf
    obtain ⟨⟨⟨t, x⟩, j⟩, hmem, rfl⟩ := List.mem_map.mp he
    have hlt := (List.getElem?_eq_some_iff.mp (List.mem_zipIdx_iff_getElem?.mp hmem)).1
    have hge := ((hinv.log .push).sound f hf).1
    rw [History.origin, hb.first] at hge
    exact hR _ _ (Nat.lt_of_lt_of_le hlt hge)

/-- An item that is in the ring sits in the slot of its ticket. -/
theorem unpopped_stamp {e : Passed α T} (he : e ∈ pushes held w.2.log)
    (hnot : ∀ f ∈ passed .pop w.2.log, f.ticket ≠ e.ticket) :
    w.2.stamp (w.2.place cap e.ticket) = mark e.ticket .pop := by
  have hclaimed := (List.getElem?_eq_some_iff.mp (push_sound hb hinv he).1).1
  by_contra hne
  rcases Nat.lt_or_ge e.ticket (w.2.count .pop) with hlt | hge
  · obtain ⟨f, hf, hticket⟩ := (hinv.log .pop).complete _ (Nat.zero_le _) hlt hne
    exact hnot f hf hticket
  · obtain ⟨j, hplace, hlo, hhi, hphase⟩ := hinv.slot _ (place_lt cap w.2 e.ticket)
    have hcount : e.ticket < w.2.count .push := hclaimed
    obtain rfl : j = e.ticket := place_inj (by omega) (by omega) hplace
    rcases hphase with ⟨hs, -, -⟩ | ⟨hs, -, -⟩
    · exact push_moved hb hinv he hs
    · exact hne hs

theorem bounded : (pushes held w.2.log).length ≤ (passed .pop w.2.log).length + cap.size := by
  have hnodup : ((pushes held w.2.log).map Passed.ticket).Nodup := by
    rw [List.Nodup, List.pairwise_map]
    exact pushes_pairwise hb hinv (fun _ _ h => Nat.ne_of_lt h) (hinv.log .push).once
  have hin : (((pushes held w.2.log).map Passed.ticket).toFinset \
      ((passed .pop w.2.log).map Passed.ticket).toFinset).card ≤ (Finset.range cap.size).card := by
    have hstamp : ∀ j ∈ ((pushes held w.2.log).map Passed.ticket).toFinset \
        ((passed .pop w.2.log).map Passed.ticket).toFinset,
        w.2.stamp (w.2.place cap j) = mark j .pop := by
      intro j hj
      obtain ⟨hmem, hnot⟩ := Finset.mem_sdiff.mp hj
      obtain ⟨e, he, rfl⟩ := List.mem_map.mp (List.mem_toFinset.mp hmem)
      refine unpopped_stamp hb hinv he ?_
      intro f hf heq
      exact hnot (List.mem_toFinset.mpr (List.mem_map.mpr ⟨f, hf, heq⟩))
    refine Finset.card_le_card_of_injOn (w.2.place cap) ?_ ?_
    · exact fun j _ => Finset.mem_coe.mpr (Finset.mem_range.mpr (place_lt cap w.2 j))
    · intro j hj j' hj' hplace
      exact (mark_inj hplace (((hstamp j hj).symm.trans (congrArg _ hplace)).trans
        (hstamp j' hj'))).1
  have hcard := Finset.card_le_card_sdiff_add_card
    (s := ((pushes held w.2.log).map Passed.ticket).toFinset)
    (t := ((passed .pop w.2.log).map Passed.ticket).toFinset)
  have hlen := List.toFinset_card_le ((passed .pop w.2.log).map Passed.ticket)
  rw [List.toFinset_card_of_nodup hnodup] at hcard
  rw [List.length_map] at hcard hlen
  rw [Finset.card_range] at hin
  omega

theorem popped_pushed {e : Passed α T} (he : e ∈ passed .pop w.2.log) :
    ∃ f ∈ pushes held w.2.log, f.ticket = e.ticket ∧ f.item = e.item := by
  obtain ⟨-, hclaim, hitem, hmoved⟩ := (hinv.log .pop).sound e he
  have hlt : e.ticket < w.2.count .pop := (List.getElem?_eq_some_iff.mp hclaim).1
  obtain ⟨f, hf, hticket⟩ := push_complete hb hinv (Nat.lt_of_lt_of_le hlt hinv.held)
    (by simp only [mark] at hmoved ⊢; omega)
  have hitem' := (push_sound hb hinv hf).2
  rw [hticket, hitem] at hitem'
  exact ⟨f, hf, hticket, (Option.some.inj hitem').symm⟩

theorem read_first {t : T} {pos : UInt64} {item : α}
    (hat : w.1.thread t = some (.push item, .copying pos)) {f : Passed α T}
    (hf : f ∈ pushes held w.2.log) (hplace : w.2.place cap f.ticket = maskIndex cap.size pos) :
    ∃ e ∈ passed .pop w.2.log, e.ticket = f.ticket := by
  have hok := hinv.thread t
  rw [hat] at hok
  obtain ⟨hpos, -, hclaim, hmark, -⟩ := hok.1
  rw [hpos, maskIndex_pos] at hplace
  have hclaimed := (List.getElem?_eq_some_iff.mp (push_sound hb hinv hf).1).1
  have hmoved := push_moved hb hinv hf
  have hle := hinv.mark_le hclaimed
  have hown : w.2.ticket t < w.2.count .push := (List.getElem?_eq_some_iff.mp hclaim).1
  have hroom := hinv.room
  rw [hplace, hmark] at hmoved hle
  have hlap := place_lap hplace (by simp only [mark, Op.kind] at hmoved hle; omega)
  refine (hinv.log .pop).complete f.ticket (Nat.zero_le _) (by omega) ?_
  rw [hplace, hmark]
  intro heq
  exact absurd (mark_inj hplace.symm heq).2 (by simp [Op.kind])

end Tickets

theorem touches_owns (hinv : Inv cap w) {t : T} {i : ℕ} (h : w.1.touches cap t = some i) :
    ∃ k pos, Owns cap w.2 t k pos ∧ w.2.place cap (w.2.ticket t) = i := by
  have hok := hinv.thread t
  unfold State.touches at h
  split at h
  · rename_i op pos hat
    rw [hat] at hok
    cases h
    exact ⟨op.kind, pos, hok.1, by rw [hok.1.1, maskIndex_pos]⟩
  · rename_i op pos moved hat
    rw [hat] at hok
    cases h
    exact ⟨op.kind, pos, hok.1, by rw [hok.1.1, maskIndex_pos]⟩
  · cases h

/-- A list that increases along a key is a sublist of any other that does and has its members. -/
theorem sublist_of_increasing {β : Type} (key : β → ℕ) {l l' : List β}
    (h : l.Pairwise fun a b => key a < key b) (h' : l'.Pairwise fun a b => key a < key b)
    (hsub : l ⊆ l') : l.Sublist l' := by
  have hanti : Std.Antisymm fun a b : β => key a < key b :=
    ⟨fun _ _ hab hba => absurd hab (Nat.lt_asymm hba)⟩
  have hnodup : l.Nodup := h.imp fun hlt heq => by
    rw [heq] at hlt
    exact absurd hlt (Nat.lt_irrefl _)
  exact List.sublist_of_subperm_of_pairwise (List.subperm_of_subset hnodup hsub) h h'

section Lossless

variable [DecidableEq T]

theorem movedBy_increasing {l : List (Passed α T)}
    (h : l.Pairwise fun e f => e.thread = f.thread → e.ticket < f.ticket) (t : T) :
    (movedBy t l).Pairwise fun e f => e.1 < f.1 := by
  unfold movedBy
  rw [List.pairwise_map]
  refine (h.filter _).imp_of_mem ?_
  intro e f he hf hlt
  have he' := of_decide_eq_true (List.mem_filter.mp he).2
  have hf' := of_decide_eq_true (List.mem_filter.mp hf).2
  exact hlt (he'.trans hf'.symm)

theorem mem_movedBy {t : T} {l : List (Passed α T)} {p : ℕ × α} :
    p ∈ movedBy t l ↔ ∃ e ∈ l, e.thread = t ∧ (e.ticket, e.item) = p := by
  simp only [movedBy, List.mem_map, List.mem_filter, decide_eq_true_eq, and_assoc]

theorem lossless {held : List (T × α)} (hb : Begins held w.2) (hinv : Inv cap w) :
    Lossless cap held w where
  pushedOnce := pushes_pairwise hb hinv (fun _ _ h => Nat.ne_of_lt h) (hinv.log .push).once
  poppedOnce := (hinv.log .pop).once
  popped _ he := popped_pushed hb hinv he
  exclusive t t' i h h' := by
    obtain ⟨k, pos, ho, rfl⟩ := touches_owns hinv h
    obtain ⟨k', pos', ho', hplace⟩ := touches_owns hinv h'
    exact owns_inj ho ho' hplace.symm
  readFirst _ _ _ hat _ hf hplace := read_first hb hinv hat hf hplace
  fifo a b := by
    refine sublist_of_increasing Prod.fst ?_ ?_ ?_
    · exact (movedBy_increasing (hinv.log .pop).order b).filter _
    · exact movedBy_increasing
        (pushes_pairwise hb hinv (fun _ _ h _ => h) (hinv.log .push).order) a
    · intro p hp
      obtain ⟨hpopped, hpushed⟩ := List.mem_filter.mp hp
      obtain ⟨e, he, -, rfl⟩ := mem_movedBy.mp hpopped
      obtain ⟨⟨j, x⟩, hx, hj⟩ := List.mem_map.mp (of_decide_eq_true hpushed)
      obtain ⟨f, hf, hthread, hfx⟩ := mem_movedBy.mp hx
      have hitem := (push_sound hb hinv hf).2
      have hsame := ((hinv.log .pop).sound e he).2.2.1
      have hticket : f.ticket = e.ticket := (congrArg Prod.fst hfx).trans hj
      rw [hticket, hsame] at hitem
      exact mem_movedBy.mpr ⟨f, hf, hthread, by rw [hticket, Option.some.inj hitem]⟩
  bounded := bounded hb hinv

end Lossless

end MpmcQueue
end Tickerplant
