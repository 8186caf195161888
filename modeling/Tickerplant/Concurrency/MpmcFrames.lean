import Tickerplant.Concurrency.MpmcOwners

/-!
# What a step of one thread leaves to the others

A thread's half-finished call rests on what it saw: a position it loaded, a ticket it claimed, an
item it moved. This file is why none of that is undone by somebody else. There are four ways the
rest of the world can move under it (an idle step, a claim, a payload moved, a slot released) and
one lemma for each.

The four are not alike. An idle step and a payload moved touch nothing that anybody else has in his
hands. A claim makes a look at the same position worthless, which is harmless because `ThreadOk`
promises nothing of a look once the position is claimed. A release changes the sequence of a slot:
an owner of another slot does not care, and a thread that was about to claim this very slot would
have seen the mark of a ticket that somebody owns, so its ticket was claimed already.
-/

set_option autoImplicit false

namespace Tickerplant
namespace MpmcQueue

open Lib
open Interleave

variable {α T : Type} {cap : Capacity} {left : α → α} {w w' : World α T}

/-- The thread holds no slot: it is in no call, or has not claimed yet. -/
def Unclaimed : Option (Op α × Pc α) → Prop
  | none => True
  | some (_, pc) => pc.owner = false

/-- A thread that owns a slot is not one that owns none. -/
theorem Owner.ne {q : State α T} {t t' : T} {k : Kind} (ho : Owner q t' k)
    (hfrom : Unclaimed (q.thread t)) : t' ≠ t := by
  rintro rfl
  obtain ⟨op, pc, ht, -, hpc⟩ := ho
  rw [ht, Unclaimed, hpc] at hfrom
  cases hfrom

/-! ## What others know while a thread claims nothing -/

/-- The history after a step of `t` that claims nothing and releases nothing: perhaps `t` has
loaded a position or begun a call, perhaps a failed call was logged. -/
structure Idles (t : T) (h h' : History α T) : Prop where
  /-- Nothing the invariant says of the slots can tell the difference. -/
  fixed : h'.base = h.base ∧ h'.first = h.first ∧ h'.claims = h.claims ∧ h'.items = h.items ∧
    h'.stamp = h.stamp
  ticket : ∀ t', t' ≠ t → h'.ticket t' = h.ticket t'
  since : ∀ t', t' ≠ t → h'.since t' = h.since t'
  begun : h.since t ≤ h.log.length → h'.since t ≤ h'.log.length
  /-- What was logged moved no item. -/
  log : ∃ more, h'.log = h.log ++ more ∧ ∀ k, passed k more = []

/-- A position that another thread loaded is as good as before. -/
theorem Idles.loaded {t t' : T} {h h' : History α T} (hi : Idles t h h') (hne : t' ≠ t)
    (hsince : h.since t' ≤ h.log.length) {k : Kind} {pos : UInt64} (hl : Loaded h t' k pos) :
    Loaded h' t' k pos := by
  obtain ⟨hfixed, hticket, hs, -, more, hlog, -⟩ := hi
  cases h'
  obtain ⟨rfl, rfl, rfl, rfl, rfl⟩ := hfixed
  obtain ⟨hpos, hle, hold⟩ := hl
  simp only at hticket hs hlog
  refine ⟨?_, ?_, ?_⟩ <;> simp only [hticket t' hne]
  · exact hpos
  · exact hle
  · rw [hs t' hne, hlog, List.take_append_of_le_length hsince]
    exact hold

/-- So is one it claimed. -/
theorem Idles.owns {t t' : T} {h h' : History α T} (hi : Idles t h h') (hne : t' ≠ t)
    {k : Kind} {pos : UInt64} (ho : Owns cap h t' k pos) : Owns cap h' t' k pos := by
  obtain ⟨hfixed, hticket, hs, -, more, hlog, hmore⟩ := hi
  cases h'
  obtain ⟨rfl, rfl, rfl, rfl, rfl⟩ := hfixed
  obtain ⟨hpos, horigin, hclaim, hstamp, hlast⟩ := ho
  simp only at hticket hlog
  have hpassed : passed k (h.log ++ more) = passed k h.log := by
    rw [passed, List.filterMap_append]
    exact (congrArg _ (hmore k)).trans (List.append_nil _)
  refine ⟨?_, ?_, ?_, ?_, ?_⟩ <;> simp only [hticket t' hne]
  · exact hpos
  · exact horigin
  · exact hclaim
  · exact hstamp
  · rw [hlog, hpassed]
    exact hlast

/-- Another thread's step that claims and releases nothing leaves what `t'` knows as it is. -/
theorem Idles.threadOk {t t' : T} {h h' : History α T} (hi : Idles t h h') (hne : t' ≠ t)
    (hsince : h.since t' ≤ h.log.length) {slots : ℕ → Slot α} {p : Option (Op α × Pc α)}
    (hok : ThreadOk cap h slots t' p) : ThreadOk cap h' slots t' p := by
  have hticket := hi.ticket t' hne
  obtain ⟨hbase, hfirst, hclaims, hitems, hstamp⟩ := hi.fixed
  have hplace : h'.place cap = h.place cap := by
    funext j
    simp only [History.place, hbase]
  rcases p with _ | ⟨op, pos | _ | pos | pos | ⟨pos, moved⟩ | _⟩
  · trivial
  · exact hi.loaded hne hsince hok
  · trivial
  · refine ⟨hi.loaded hne hsince hok.1, ?_⟩
    simpa only [hticket, hplace, hstamp, History.count, hclaims] using hok.2
  · refine ⟨hi.owns hne hok.1, ?_⟩
    simpa only [hticket, hitems] using hok.2
  · refine ⟨hi.owns hne hok.1, ?_⟩
    simpa only [hticket, hplace, hitems] using hok.2
  · trivial

/-- A position just loaded. -/
theorem Inv.loaded (hinv : Inv cap w) {t : T} {k : Kind} {h' : History α T}
    (hfixed : h'.base = w.2.base ∧ h'.first = w.2.first ∧ h'.claims = w.2.claims ∧
      h'.log = w.2.log) (hticket : h'.ticket t = w.2.count k) :
    Loaded h' t k (w.1.position k) := by
  obtain ⟨hbase, hfirst, hclaims, hlog⟩ := hfixed
  have hcount : h'.count k = w.2.count k := by simp only [History.count, hclaims]
  have horigin : h'.origin k = w.2.origin k := by cases k <;> simp only [History.origin, hfirst]
  refine ⟨?_, ?_, ?_⟩ <;> rw [hticket]
  · rw [hinv.position k, History.pos, History.pos, hbase]
  · exact Nat.le_of_eq hcount.symm
  · rw [horigin, hlog]
    exact Nat.le_trans (Nat.add_le_add_left (passed_take_le _ _ _) _) (hinv.log k).passed_le

/-! ## What a claim changes

One more claim of its kind, and for a push one more item. The stamps do not move, so the only thing
that can be wrong afterwards is something that was said of the number of claims. -/

/-- The claimer joins the claims of its kind. -/
theorem claim_claims (h : History α T) (t : T) (op : Op α) (k : Kind) :
    (h.claim t op).claims k = h.claims k ++ if k = op.kind then [t] else [] := by
  cases op <;> cases k <;> simp [History.claim, Op.kind]

/-- One claim more. -/
theorem claim_count (h : History α T) (t : T) (op : Op α) (k : Kind) :
    (h.claim t op).count k = h.count k + if k = op.kind then 1 else 0 := by
  unfold History.count
  rw [claim_claims, List.length_append]
  split <;> rfl

/-- A push brings its item, and a pop none. -/
theorem claim_items (h : History α T) (t : T) (op : Op α) :
    (h.claim t op).items = h.items ++ match op with | .push item => [item] | .pop => [] := by
  cases op with
  | push item => rfl
  | pop => exact (List.append_nil _).symm

section ClaimFixed

variable (h : History α T) (t : T) (op : Op α)

/-- No sequence moves. -/
@[simp] theorem claim_stamp : (h.claim t op).stamp = h.stamp := by cases op <;> rfl

@[simp] theorem claim_ticket : (h.claim t op).ticket = h.ticket := by cases op <;> rfl

@[simp] theorem claim_log : (h.claim t op).log = h.log := by cases op <;> rfl

@[simp] theorem claim_since : (h.claim t op).since = h.since := by cases op <;> rfl

@[simp] theorem claim_pos (j : ℕ) : (h.claim t op).pos j = h.pos j := by cases op <;> rfl

@[simp] theorem claim_place (j : ℕ) : (h.claim t op).place cap j = h.place cap j := by
  cases op <;> rfl

@[simp] theorem claim_origin (k : Kind) : (h.claim t op).origin k = h.origin k := by
  cases op <;> cases k <;> rfl

end ClaimFixed

/-- Old claims stay where they were. -/
theorem claims_getElem? {h : History α T} {t t' : T} {op : Op α} {k : Kind} {j : ℕ}
    (hj : (h.claims k)[j]? = some t') : ((h.claim t op).claims k)[j]? = some t' := by
  rw [claim_claims, List.getElem?_append_left (List.getElem?_eq_some_iff.mp hj).1]
  exact hj

/-- So do old items. -/
theorem items_getElem? {h : History α T} {t : T} {op : Op α} {x : α} {j : ℕ}
    (hj : h.items[j]? = some x) : (h.claim t op).items[j]? = some x := by
  rw [claim_items, List.getElem?_append_left (List.getElem?_eq_some_iff.mp hj).1]
  exact hj

/-- What another thread knows survives a claim. -/
theorem threadOk_claim {h : History α T} {slots : ℕ → Slot α} {t t' : T} {op : Op α}
    {p : Option (Op α × Pc α)} (hok : ThreadOk cap h slots t' p) :
    ThreadOk cap (h.claim t op) slots t' p := by
  have hloaded : ∀ k pos, Loaded h t' k pos → Loaded (h.claim t op) t' k pos := by
    rintro k pos ⟨hpos, hle, hold⟩
    refine ⟨?_, ?_, ?_⟩ <;> simp only [claim_pos, claim_ticket, claim_origin, claim_log,
      claim_since]
    · exact hpos
    · rw [claim_count]
      omega
    · exact hold
  have howns : ∀ k pos, Owns cap h t' k pos → Owns cap (h.claim t op) t' k pos := by
    rintro k pos ⟨hpos, horigin, hclaim, hmark, hlast⟩
    refine ⟨?_, ?_, ?_, ?_, ?_⟩ <;>
      simp only [claim_pos, claim_ticket, claim_origin, claim_stamp, claim_place, claim_log]
    · exact hpos
    · exact horigin
    · exact claims_getElem? hclaim
    · exact hmark
    · exact hlast
  rcases p with _ | ⟨op', pos | _ | pos | pos | ⟨pos, moved⟩ | _⟩
  · trivial
  · exact hloaded _ _ hok
  · trivial
  · refine ⟨hloaded _ _ hok.1, ?_⟩
    rw [claim_count, claim_ticket, claim_stamp, claim_place]
    intro hcur
    have := hok.1.2.1
    exact hok.2 (by omega)
  · refine ⟨howns _ _ hok.1, ?_⟩
    rw [claim_ticket]
    exact fun item hop => items_getElem? (hok.2 item hop)
  · refine ⟨howns _ _ hok.1, ?_⟩
    rw [claim_ticket, claim_place]
    exact ⟨items_getElem? hok.2.1, hok.2.2⟩
  · trivial

/-- The log is right about the new claim: its slot still shows the ticket's own mark, so nobody
expects a success of it. -/
theorem log_claim {h : History α T} {t : T} {op : Op α} {k : Kind}
    (hmark : h.stamp (h.place cap (h.count op.kind)) = mark (h.count op.kind) op.kind)
    (hlog : LogOk cap h k) : LogOk cap (h.claim t op) k where
  origin := by
    rw [claim_origin, claim_count]
    exact Nat.le_trans hlog.origin (Nat.le_add_right _ _)
  sound e he := by
    rw [claim_log] at he
    obtain ⟨horigin, hclaim, hitem, hmoved⟩ := hlog.sound e he
    rw [claim_origin, claim_stamp, claim_place]
    exact ⟨horigin, claims_getElem? hclaim, items_getElem? hitem, hmoved⟩
  complete j hlo hhi hmoved := by
    rw [claim_origin] at hlo
    rw [claim_count] at hhi
    rw [claim_stamp, claim_place] at hmoved
    rw [claim_log]
    refine hlog.complete j hlo ?_ hmoved
    split at hhi
    · rename_i hk
      subst hk
      have : j ≠ h.count op.kind := by
        rintro rfl
        exact hmoved hmark
      omega
    · exact hhi
  once := by
    rw [claim_log]
    exact hlog.once
  order := by
    rw [claim_log]
    exact hlog.order

/-- What the winner of the compare-exchange knows. -/
theorem Inv.won (hinv : Inv cap w) (hslow : Unhurried w) {t : T} {op : Op α} {pos : UInt64}
    (hat : w.1.thread t = some (op, .claiming pos)) (heq : w.1.position op.kind = pos) :
    w.2.ticket t = w.2.count op.kind ∧ w.2.stamp (w.2.place cap (w.2.count op.kind)) =
      mark (w.2.count op.kind) op.kind := by
  have hok := hinv.thread t
  rw [hat] at hok
  have hcur := hinv.claim_exact (hslow t (by rw [hat]; simp)) hok.1 heq
  refine ⟨hcur, ?_⟩
  rw [← hcur]
  exact hok.2 hcur

/-! ## What a change of a slot leaves alone -/

/-- Other slots stay. -/
theorem setSlot_of_ne {q : State α T} {i i' : ℕ} {s : Slot α} (h : i' ≠ i) :
    (q.setSlot i s).slots i' = q.slots i' := Function.update_of_ne h _ _

theorem setSlot_self {q : State α T} {i : ℕ} {s : Slot α} : (q.setSlot i s).slots i = s :=
  Function.update_self _ _ _

/-- A payload moved changes no sequence. -/
theorem setSlot_seq {q : State α T} {i i' : ℕ} {value : α} :
    ((q.setSlot i { q.slots i with value := value }).slots i').seq = (q.slots i').seq := by
  by_cases h : i' = i
  · rw [h, setSlot_self]
  · rw [setSlot_of_ne h]

/-- What a thread knows survives a change of a slot it does not own. -/
theorem ThreadOk.of_slots {h : History α T} {slots slots' : ℕ → Slot α} {t : T}
    {p : Option (Op α × Pc α)} (hok : ThreadOk cap h slots t p)
    (hslot : ∀ op pos moved, p = some (op, .releasing pos moved) →
      slots' (h.place cap (h.ticket t)) = slots (h.place cap (h.ticket t))) :
    ThreadOk cap h slots' t p := by
  rcases p with _ | ⟨op, pos | _ | pos | pos | ⟨pos, moved⟩ | _⟩
  · trivial
  · exact hok
  · trivial
  · exact hok
  · exact hok
  · refine ⟨hok.1, hok.2.1, ?_⟩
    rw [hslot op pos moved rfl]
    exact hok.2.2
  · trivial

/-- The item the owner moves is the item of its ticket. -/
theorem Inv.move_item (left : α → α) (hinv : Inv cap w) {t : T} {op : Op α} {pos : UInt64}
    (hat : w.1.thread t = some (op, .copying pos)) :
    w.2.items[w.2.ticket t]? =
      some (op.move left (w.1.slots (w.2.place cap (w.2.ticket t))).value).1 := by
  have hok := hinv.thread t
  rw [hat] at hok
  cases op with
  | push item => exact hok.2 item rfl
  | pop =>
    have hlt : w.2.ticket t < w.2.items.length := by
      have hclaim := (List.getElem?_eq_some_iff.mp hok.1.2.2.1).1
      have hle : w.2.count .pop ≤ w.2.items.length := hinv.items ▸ hinv.held
      exact Nat.lt_of_lt_of_le hclaim hle
    rw [List.getElem?_eq_getElem hlt]
    refine congrArg some (hinv.payload _ _ (List.getElem?_eq_getElem hlt) hok.1.2.2.2.1 ?_).symm
    intro t' pos' moved ht' hj
    obtain ⟨pos'', ho'⟩ := hinv.owns ⟨_, _, ht', rfl, rfl⟩
    have : t' = t := owns_inj ho' hok.1 (by rw [hj])
    subst this
    rw [hat] at ht'
    cases ht'

/-! ## What a release changes -/

/-- The history after the last store of `t`. -/
def History.finish (cap : Capacity) (h : History α T) (t : T) (k : Kind) (moved : α) :
    History α T := (h.release cap t k).close t (k.accept moved)

/-- The success joins the calls of its kind. -/
theorem finish_passed (h : History α T) (t : T) (k k' : Kind) (moved : α) :
    passed k' (h.finish cap t k moved).log =
      passed k' h.log ++ if k' = k then [⟨t, h.ticket t, moved⟩] else [] := by
  rw [History.finish, History.close, History.release, passed_append]
  cases k <;> cases k' <;> rfl

/-- The sequence of the owner's slot is the one it leaves. -/
theorem finish_stamp_self (cap : Capacity) (h : History α T) (t : T) (k : Kind) (moved : α) :
    (h.finish cap t k moved).stamp (h.place cap (h.ticket t)) = leaves cap (h.ticket t) k :=
  Function.update_self _ _ _

/-- No other sequence moves. -/
theorem finish_stamp_of_ne {h : History α T} {t : T} {k : Kind} {moved : α} {i : ℕ}
    (hne : i ≠ h.place cap (h.ticket t)) : (h.finish cap t k moved).stamp i = h.stamp i :=
  Function.update_of_ne hne _ _

/-- A slot's sequence only goes up. -/
theorem finish_stamp_le {h : History α T} {t : T} {k : Kind} {moved : α} (i : ℕ)
    (hmark : h.stamp (h.place cap (h.ticket t)) = mark (h.ticket t) k) :
    h.stamp i ≤ (h.finish cap t k moved).stamp i := by
  by_cases hi : i = h.place cap (h.ticket t)
  · rw [hi, finish_stamp_self, hmark]
    exact Nat.le_of_lt (mark_lt_leaves cap _ k)
  · rw [finish_stamp_of_ne hi]

/-- The log is right about the success: it was a claim, and the slot has moved on now. -/
theorem log_finish {h : History α T} {t : T} {k k' : Kind} {pos : UInt64} {moved : α}
    (ho : Owns cap h t k pos) (hitem : h.items[h.ticket t]? = some moved)
    (hlog : LogOk cap h k') : LogOk cap (h.finish cap t k moved) k' := by
  obtain ⟨-, horigin, hclaim, hmark, hlast⟩ := ho
  -- the ticket is not in the log yet: its slot had not moved on
  have hfresh : ∀ e ∈ passed k h.log, LogOk cap h k → e.ticket ≠ h.ticket t := by
    intro e he hl heq
    have := (hl.sound e he).2.2.2
    rw [heq, hmark] at this
    omega
  constructor
  case origin => exact hlog.origin
  case sound =>
    intro e he
    rw [finish_passed, List.mem_append] at he
    rcases he with he | he
    · obtain ⟨h1, h2, h3, h4⟩ := hlog.sound e he
      exact ⟨h1, h2, h3, Nat.lt_of_lt_of_le h4 (finish_stamp_le _ hmark)⟩
    · split at he
      · rename_i hk
        subst hk
        rw [List.mem_singleton.mp he]
        refine ⟨horigin, hclaim, hitem, ?_⟩
        exact Nat.lt_of_lt_of_eq (mark_lt_leaves cap _ _) (finish_stamp_self cap h t _ moved).symm
      · cases he
  case complete =>
    intro j hlo hhi hmoved
    rw [finish_passed]
    by_cases hold : h.stamp (h.place cap j) = mark j k'
    · -- only the slot just released can have moved on in this step
      have hplace : h.place cap j = h.place cap (h.ticket t) := by
        by_contra hne
        exact hmoved ((finish_stamp_of_ne hne).trans hold)
      rw [hplace, hmark] at hold
      obtain ⟨hj, hk⟩ := mark_inj hplace.symm hold
      exact ⟨⟨t, h.ticket t, moved⟩, List.mem_append_right _ (by rw [if_pos hk.symm]; simp), hj⟩
    · obtain ⟨e, he, hticket⟩ := hlog.complete j hlo hhi hold
      exact ⟨e, List.mem_append_left _ he, hticket⟩
  case once =>
    rw [finish_passed, List.pairwise_append]
    refine ⟨hlog.once, ?_, ?_⟩
    · split <;> simp
    · intro e he f hf
      split at hf
      · rename_i hk
        subst hk
        rw [List.mem_singleton.mp hf]
        exact hfresh e he hlog
      · cases hf
  case order =>
    rw [finish_passed, List.pairwise_append]
    refine ⟨hlog.order, ?_, ?_⟩
    · split <;> simp
    · intro e he f hf
      split at hf
      · rename_i hk
        subst hk
        rw [List.mem_singleton.mp hf]
        exact hlast e he
      · cases hf

/-- The released slot is full, or free for the next lap. -/
theorem slot_finish (hinv : Inv cap w) {t : T} {k : Kind} {pos : UInt64} {moved : α}
    (ho : Owns cap w.2 t k pos) (q : State α T) :
    ∃ j, w.2.place cap j = w.2.place cap (w.2.ticket t) ∧ w.2.count .push ≤ j + cap.size ∧
      j < w.2.count .pop + cap.size ∧
      SlotOk q (w.2.finish cap t k moved) (w.2.place cap (w.2.ticket t)) j := by
  obtain ⟨-, -, hclaim, hmark, -⟩ := ho
  have hclaimed := (List.getElem?_eq_some_iff.mp hclaim).1
  have hheld := hinv.held
  obtain ⟨j, hplace, hlo, hhi, hphase⟩ := hinv.slot _ (place_lt cap w.2 (w.2.ticket t))
  have hstamp := finish_stamp_self cap w.2 t k moved
  rcases hphase with ⟨hs, hpop, -⟩ | ⟨hs, hpush, -⟩
  · obtain ⟨rfl, rfl⟩ := mark_inj hplace (hs.symm.trans hmark)
    exact ⟨_, rfl, hlo, hhi, .inr ⟨hstamp, hclaimed, .inl hpop⟩⟩
  · obtain ⟨rfl, rfl⟩ := mark_inj hplace (hs.symm.trans hmark)
    have hpopped : w.2.ticket t < w.2.count .pop := hclaimed
    refine ⟨w.2.ticket t + cap.size, place_add_size cap w.2 _, by omega, by omega,
      .inl ⟨hstamp, ?_, .inl hlo⟩⟩
    exact Nat.le_trans hheld hlo

/-- What another thread knows survives a release. -/
theorem threadOk_finish {h : History α T} {slots : ℕ → Slot α} {t t' : T} {k : Kind}
    {pos : UInt64} {moved : α} {p : Option (Op α × Pc α)} (hne : t' ≠ t)
    (ho : Owns cap h t k pos) (hsince : h.since t' ≤ h.log.length)
    (hok : ThreadOk cap h slots t' p) : ThreadOk cap (h.finish cap t k moved) slots t' p := by
  have hloaded : ∀ k' pos', Loaded h t' k' pos' → Loaded (h.finish cap t k moved) t' k' pos' := by
    rintro k' pos' ⟨hpos, hle, hold⟩
    refine ⟨hpos, hle, ?_⟩
    show h.origin k' + (passed k' ((h.log ++ [_]).take (h.since t'))).length ≤ h.ticket t'
    rw [List.take_append_of_le_length hsince]
    exact hold
  have howns : ∀ k' pos', Owns cap h t' k' pos' → Owns cap (h.finish cap t k moved) t' k' pos' := by
    rintro k' pos' ho'
    obtain ⟨hpos, horigin, hclaim, hmark, hlast⟩ := ho'
    refine ⟨hpos, horigin, hclaim, ?_, ?_⟩
    · refine (finish_stamp_of_ne ?_).trans hmark
      exact fun hp => hne (owns_inj ⟨hpos, horigin, hclaim, hmark, hlast⟩ ho hp)
    · intro e he hthread
      rw [finish_passed, List.mem_append] at he
      rcases he with he | he
      · exact hlast e he hthread
      · split at he
        · rw [List.mem_singleton.mp he] at hthread
          exact absurd hthread.symm hne
        · cases he
  rcases p with _ | ⟨op, pos' | _ | pos' | pos' | ⟨pos', moved'⟩ | _⟩
  · trivial
  · exact hloaded _ _ hok
  · trivial
  · refine ⟨hloaded _ _ hok.1, ?_⟩
    intro hcur
    have hseen := hok.2 hcur
    refine (finish_stamp_of_ne ?_).trans hseen
    intro hp
    -- A thread about to claim has seen the awaited mark. Were it the mark of the slot just
    -- released, its ticket would be one that is claimed already.
    have hmark := ho.2.2.2.1
    rw [← hp] at hmark
    obtain ⟨hj, hk⟩ := mark_inj hp (hseen.symm.trans hmark)
    have hclaimed := (List.getElem?_eq_some_iff.mp ho.2.2.1).1
    have hcur' : h.ticket t' = h.count op.kind := hcur
    rw [hk] at hcur'
    exact absurd (hj.symm.trans hcur') (Nat.ne_of_lt hclaimed)
  · exact ⟨howns _ _ hok.1, hok.2⟩
  · exact ⟨howns _ _ hok.1, hok.2⟩
  · trivial

end MpmcQueue
end Tickerplant
