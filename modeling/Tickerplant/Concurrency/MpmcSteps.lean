import Tickerplant.Concurrency.MpmcFrames

/-!
# A step of the ring

Every step of every thread keeps the invariant. The steps come in three sorts: those that only
move the thread (a load, a look, a failed compare-exchange), the claim, and the two steps of an
owner. The first sort leaves every slot and every other thread as it was; the claim hands one slot
to the thread; the owner's steps touch the one slot nobody else can own.

Each sort is hard for one clause of the invariant and easy for the others, and the lemmas are cut
along that line:

* a **look** is worth something only while nobody claims the position, which is why `ThreadOk`
  says "if the ticket is still the count" of a thread at `claiming` and nothing of the slot
  otherwise;
* the **claim** is where `slot` and `thread` meet. The slot was nobody's, and `Inv.won` is the
  reason: the compare-exchange compares positions, which could have gone round, and `Unhurried` is
  what rules that out;
* the **copy** changes a payload, so `payload` speaks only of tickets no pop is about to give up;
* the **release** changes a sequence, and with it which ticket the slot has come to. Only here does
  the log grow by a success, and `LogOk` grows with it.

A look across `2 ^ 63` moves the thread to where it does nothing any more. That keeps the
invariant too: what is lost there is the meaning of the program, not the order in the ring.
-/

set_option autoImplicit false

namespace Tickerplant
namespace MpmcQueue

open Lib
open Interleave

variable {α T : Type} [DecidableEq T] {cap : Capacity} {left : α → α} {w w' : World α T}

/-! ## What a step can do -/

/-- Thread `t` goes to `p` and nothing else happens in the machine. -/
def World.moved (w : World α T) (t : T) (p : Option (Op α × Pc α)) (h : History α T) :
    World α T := (w.1.setThread t p, h)

/-- The machine after a claim. -/
def State.claimed (q : State α T) (t : T) (op : Op α) (pos : UInt64) : State α T :=
  (q.setPosition (pos + 1) op.kind).setThread t (some (op, .copying pos))

/-- What a step does, by sort. The inversion of `advance`: everything below works from this, and
no proof unfolds the machine again. -/
inductive Steps (cap : Capacity) (left : α → α) (w : World α T) : World α T → Prop where
  /-- A call begins, and loads the position. -/
  | call (t : T) (op : Op α) (idle : w.1.thread t = none) :
    Steps cap left w (w.moved t (some (op, .seeking (w.1.position op.kind)))
      (History.load { w.2 with since := Function.update w.2.since t w.2.log.length } t op.kind))
  /-- A position is loaded again: the sequence was ahead, or the compare-exchange failed. -/
  | load (t : T) (op : Op α) (pc : Pc α) (at_ : w.1.thread t = some (op, pc))
    (unclaimed : pc.owner = false) :
    Steps cap left w (w.moved t (some (op, .seeking (w.1.position op.kind)))
      (w.2.load t op.kind))
  /-- The look that finds the awaited sequence. -/
  | found (t : T) (op : Op α) (pos : UInt64) (at_ : w.1.thread t = some (op, .seeking pos))
    (seq : (w.1.slots (maskIndex cap.size pos)).seq = awaited pos op.kind) :
    Steps cap left w (w.moved t (some (op, .claiming pos)) w.2)
  /-- The look that finds the slot behind: the call returns false. -/
  | refused (t : T) (op : Op α) (pos : UInt64) (at_ : w.1.thread t = some (op, .seeking pos))
    {diff : Int64} (behind : diff < 0)
    (seq : signedDiff (w.1.slots (maskIndex cap.size pos)).seq (awaited pos op.kind) =
      some diff) :
    Steps cap left w (w.moved t none (w.2.close t op.kind.refuse))
  /-- The look that finds it ahead: somebody has claimed the position since. -/
  | ahead (t : T) (op : Op α) (pos : UInt64) (at_ : w.1.thread t = some (op, .seeking pos))
    {diff : Int64} (other : diff ≠ 0) (ahead : ¬ diff < 0)
    (seq : signedDiff (w.1.slots (maskIndex cap.size pos)).seq (awaited pos op.kind) =
      some diff) :
    Steps cap left w (w.moved t (some (op, .reloading)) w.2)
  /-- The look that has no answer. -/
  | overflows (t : T) (op : Op α) (pos : UInt64)
    (at_ : w.1.thread t = some (op, .seeking pos)) (astride : w.1.Astride cap pos op.kind) :
    Steps cap left w (w.moved t (some (op, .undefined)) w.2)
  /-- The compare-exchange that succeeds. -/
  | claim (t : T) (op : Op α) (pos : UInt64) (at_ : w.1.thread t = some (op, .claiming pos))
    (won : w.1.position op.kind = pos) :
    Steps cap left w (w.1.claimed t op pos, w.2.claim t op)
  /-- The owner moves the payload. -/
  | copy (t : T) (op : Op α) (pos : UInt64) (at_ : w.1.thread t = some (op, .copying pos)) :
    Steps cap left w ((w.1.setSlot (maskIndex cap.size pos)
      { w.1.slots (maskIndex cap.size pos) with
        value := (op.move left (w.1.slots (maskIndex cap.size pos)).value).2 }).setThread t
      (some (op, .releasing pos (op.move left (w.1.slots (maskIndex cap.size pos)).value).1)),
      w.2)
  /-- The owner stores the sequence, and the call returns true. -/
  | release (t : T) (op : Op α) (pos : UInt64) (moved : α)
    (at_ : w.1.thread t = some (op, .releasing pos moved)) :
    Steps cap left w ((w.1.setSlot (maskIndex cap.size pos)
      { w.1.slots (maskIndex cap.size pos) with
        seq := released cap pos op.kind }).setThread t none,
      w.2.finish cap t op.kind moved)

/-- What is remembered of a call that returns false. -/
theorem record_refuse (h : History α T) (a : Action α T) (q : State α T) (k : Kind) :
    record cap h a (q, some k.refuse) = h.close a.thread k.refuse := by
  cases k <;> rfl

/-- What is remembered of one that returns true. -/
theorem record_accept (h : History α T) (a : Action α T) (q : State α T) (k : Kind) (moved : α) :
    record cap h a (q, some (k.accept moved)) =
      (h.release cap a.thread k).close a.thread (k.accept moved) := by
  cases k <;> rfl

/-- The turn of a thread that is in a call. -/
theorem attempt_steps {t : T} {op : Op α} {pc : Pc α} {s : State α T × Option (Reply α)}
    (hat : w.1.thread t = some (op, pc)) (h : attempt cap left w.1 t op pc = some s) :
    Steps cap left w (s.1, record cap w.2 (.go t) s) := by
  cases pc with
  | seeking pos =>
    simp only [attempt] at h
    split at h
    · rename_i hnone
      cases h
      have : Steps cap left w _ := .overflows t op pos hat (signedDiff_eq_none_iff.mp hnone)
      simpa [record, Action.thread, History.begin, State.setThread, World.moved] using this
    · rename_i diff hdiff
      split at h
      · rename_i hzero
        subst hzero
        cases h
        have : Steps cap left w _ := .found t op pos hat (signedDiff_eq_zero.mp hdiff)
        simpa [record, Action.thread, History.begin, State.setThread, World.moved] using this
      · rename_i hne
        split at h
        · rename_i hneg
          cases h
          rw [record_refuse]
          exact .refused t op pos hat hneg hdiff
        · rename_i hpos
          cases h
          have : Steps cap left w _ := .ahead t op pos hat hne hpos hdiff
          simpa [record, Action.thread, History.begin, State.setThread, World.moved] using this
  | reloading =>
    cases h
    have : Steps cap left w _ := .load t op _ hat rfl
    simpa [record, Action.thread, History.begin, State.setThread, World.moved] using this
  | claiming pos =>
    simp only [attempt] at h
    split at h
    · rename_i hwon
      cases h
      have : Steps cap left w _ := .claim t op pos hat hwon
      simpa [record, Action.thread, State.claimed, State.setThread] using this
    · cases h
      have : Steps cap left w _ := .load t op _ hat rfl
      simpa [record, Action.thread, History.begin, State.setThread, World.moved] using this
  | copying pos =>
    simp only [attempt, Option.some.injEq] at h
    subst h
    have : Steps cap left w _ := .copy t op pos hat
    simpa [record, Action.thread, History.begin, State.setThread, World.moved] using this
  | releasing pos moved =>
    cases h
    rw [record_accept]
    exact .release t op pos moved hat
  | undefined => cases h

/-- Every step of the machine is one of these. -/
theorem advance_steps (a : Action α T) (h : advance cap left w a = some w') :
    Steps cap left w w' := by
  obtain ⟨q, o, hstep, rfl⟩ := observed_cases h
  cases a with
  | call t op =>
    simp only [step] at hstep
    split at hstep
    · rename_i hidle
      cases hstep
      have : Steps cap left w _ := .call t op hidle
      simpa [record, Action.thread, History.begin, State.setThread, World.moved] using this
    · cases hstep
  | go t =>
    simp only [step] at hstep
    split at hstep
    · cases hstep
    · rename_i item pc hat
      exact attempt_steps hat hstep
    · rename_i pc hat
      exact attempt_steps hat hstep
  | spurious t =>
    simp only [step] at hstep
    split at hstep
    · rename_i op pos hat
      cases hstep
      have : Steps cap left w _ := .load t op _ hat rfl
      simpa [record, Action.thread, History.begin, State.setThread, World.moved] using this
    · cases hstep

/-! ## What makes a run undefined -/

/-- The others stay where they are. -/
theorem setThread_of_ne {q : State α T} {t t' : T} {p : Option (Op α × Pc α)} (hne : t' ≠ t) :
    (q.setThread t p).thread t' = q.thread t' := Function.update_of_ne hne _ _

theorem setThread_self {q : State α T} {t : T} {p : Option (Op α × Pc α)} :
    (q.setThread t p).thread t = p := Function.update_self _ _ _

/-- A thread that goes where it knows what it is doing makes nothing undefined. -/
theorem defined_setThread {q : State α T} (hq : q.Defined) (t : T) {p : Option (Op α × Pc α)}
    (hp : ∀ op, p ≠ some (op, .undefined)) : (q.setThread t p).Defined := by
  intro t' op h
  by_cases hne : t' = t
  · subst hne
    rw [setThread_self] at h
    exact hp op h
  · rw [setThread_of_ne hne] at h
    exact hq t' op h

/-- A turn of the loop is defined unless it is a look across `2 ^ 63`. -/
theorem attempt_defined {q : State α T} {t : T} {op : Op α} {pc : Pc α}
    {s : State α T × Option (Reply α)} (hq : q.Defined)
    (hsound : ∀ pos, pc = .seeking pos → ¬ q.Astride cap pos op.kind)
    (h : attempt cap left q t op pc = some s) : s.1.Defined := by
  cases pc with
  | seeking pos =>
    simp only [attempt] at h
    split at h
    · rename_i hnone
      exact absurd (signedDiff_eq_none_iff.mp hnone) (hsound pos rfl)
    · split at h
      · cases h
        exact defined_setThread hq t (by simp)
      · split at h <;> cases h <;> exact defined_setThread hq t (by simp)
  | reloading =>
    cases h
    exact defined_setThread hq t (by simp)
  | claiming pos =>
    simp only [attempt] at h
    split at h
    · cases h
      refine defined_setThread (fun t' op' ht' => hq t' op' ?_) t (by simp)
      cases op <;> exact ht'
    · cases h
      exact defined_setThread hq t (by simp)
  | copying pos =>
    cases h
    exact defined_setThread (q := q.setSlot _ _) hq t (by simp)
  | releasing pos moved =>
    cases h
    exact defined_setThread (q := q.setSlot _ _) hq t (by simp)
  | undefined => cases h

/-- A step that is no look across `2 ^ 63` executes nothing undefined. -/
theorem defined_advance {a : Action α T} (h : advance cap left w a = some w')
    (hsound : Sound cap w a) (hw : w.1.Defined) : w'.1.Defined := by
  obtain ⟨q, o, hstep, rfl⟩ := observed_cases h
  cases a with
  | call t op =>
    simp only [step] at hstep
    split at hstep
    · cases hstep
      exact defined_setThread hw t (by simp)
    · cases hstep
  | go t =>
    simp only [step] at hstep
    split at hstep
    · cases hstep
    · rename_i item pc hat
      exact attempt_defined hw (fun pos hpc => hsound _ pos (hpc ▸ hat)) hstep
    · rename_i pc hat
      exact attempt_defined hw (fun pos hpc => hsound _ pos (hpc ▸ hat)) hstep
  | spurious t =>
    simp only [step] at hstep
    split at hstep
    · cases hstep
      exact defined_setThread hw t (by simp)
    · cases hstep

/-! ## Steps that only move the thread -/

/-- Another thread still owns what it owned. -/
theorem Owner.setThread {q : State α T} {t t' : T} {k : Kind} {p : Option (Op α × Pc α)}
    (hne : t' ≠ t) (ho : Owner q t' k) : Owner (q.setThread t p) t' k := by
  obtain ⟨op, pc, ht, hk, hpc⟩ := ho
  exact ⟨op, pc, (setThread_of_ne hne).trans ht, hk, hpc⟩

/-- A step that only moves a thread which owns nothing keeps the invariant, if
what the thread now knows is right. -/
theorem inv_moved (hinv : Inv cap w) {t : T} {p : Option (Op α × Pc α)} {h' : History α T}
    (hfrom : Unclaimed (w.1.thread t)) (hi : Idles t w.2 h')
    (hp : ThreadOk cap h' w.1.slots t p) : Inv cap (w.moved t p h') := by
  have hpassed : ∀ k, passed k h'.log = passed k w.2.log := by
    intro k
    obtain ⟨more, hlog, hmore⟩ := hi.log
    rw [hlog, passed, List.filterMap_append]
    exact (congrArg _ (hmore k)).trans (List.append_nil _)
  have hthread : ∀ t', ThreadOk cap h' w.1.slots t' ((w.1.setThread t p).thread t') := by
    intro t'
    by_cases hne : t' = t
    · rw [hne, setThread_self]
      exact hp
    · rw [setThread_of_ne hne]
      exact hi.threadOk hne (hinv.since t') (hinv.thread t')
  have howner : ∀ t' k, Owner w.1 t' k → Owner (w.1.setThread t p) t' k ∧
      h'.ticket t' = w.2.ticket t' := by
    intro t' k ho
    exact ⟨ho.setThread (ho.ne hfrom), hi.ticket t' (ho.ne hfrom)⟩
  have hlater : ∀ t', h'.since t' ≤ h'.log.length := by
    intro t'
    by_cases hne : t' = t
    · rw [hne]
      exact hi.begun (hinv.since t)
    · obtain ⟨more, hlog, -⟩ := hi.log
      have := hinv.since t'
      rw [hi.since t' hne, hlog, List.length_append]
      omega
  have hreleasing : ∀ t' op pos moved, w.1.thread t' = some (op, .releasing pos moved) →
      (w.1.setThread t p).thread t' = some (op, .releasing pos moved) ∧
        h'.ticket t' = w.2.ticket t' := by
    intro t' op pos moved ht
    have ho : Owner w.1 t' op.kind := ⟨op, _, ht, rfl, rfl⟩
    exact ⟨(setThread_of_ne (ho.ne hfrom)).trans ht, (howner t' _ ho).2⟩
  have hfixed := hi.fixed
  clear hi
  obtain ⟨base, first, claims, items, stamp, ticket, log, since⟩ := h'
  obtain ⟨rfl, rfl, rfl, rfl, rfl⟩ := hfixed
  -- the machine's slots and positions are untouched, so what is left is what was said of threads
  refine ⟨hinv.position, hinv.items, hinv.room, hinv.held, hinv.seq, ?_, ?_, hthread, hlater, ?_⟩
  · intro i hlt
    obtain ⟨j, hplace, hlo, hhi, hphase⟩ := hinv.slot i hlt
    refine ⟨j, hplace, hlo, hhi, hphase.imp ?_ ?_⟩
    · rintro ⟨hs, hpop, hown⟩
      refine ⟨hs, hpop, hown.imp id ?_⟩
      rintro ⟨t', ho, ht'⟩
      exact ⟨t', (howner t' _ ho).1, (howner t' _ ho).2.trans ht'⟩
    · rintro ⟨hs, hpush, hown⟩
      refine ⟨hs, hpush, hown.imp id ?_⟩
      rintro ⟨t', ho, ht'⟩
      exact ⟨t', (howner t' _ ho).1, (howner t' _ ho).2.trans ht'⟩
  · intro j x hitem hstamp hnot
    refine hinv.payload j x hitem hstamp ?_
    intro t' pos moved ht hj
    obtain ⟨ht', hticket⟩ := hreleasing t' _ pos moved ht
    exact hnot t' pos moved ht' (hticket.trans hj)
  · intro k
    have hold := hinv.log k
    exact ⟨hold.origin, by rw [World.moved, hpassed]; exact hold.sound,
      by rw [World.moved, hpassed]; exact hold.complete,
      by rw [World.moved, hpassed]; exact hold.once,
      by rw [World.moved, hpassed]; exact hold.order⟩

/-- The beginning of a call: nothing had returned since it began, so the position it loaded is as
late as anything in the log. -/
theorem inv_call (hinv : Inv cap w) {t : T} {op : Op α} (hidle : w.1.thread t = none) :
    Inv cap (w.moved t (some (op, .seeking (w.1.position op.kind)))
      (History.load { w.2 with since := Function.update w.2.since t w.2.log.length } t
      op.kind)) := by
  refine inv_moved hinv (by rw [hidle]; trivial) ⟨⟨rfl, rfl, rfl, rfl, rfl⟩, ?_, ?_, ?_, ?_⟩ ?_
  · exact fun t' hne => Function.update_of_ne hne _ _
  · exact fun t' hne => Function.update_of_ne hne _ _
  · intro _
    simp [History.load]
  · exact ⟨[], (List.append_nil _).symm, fun _ => rfl⟩
  · exact hinv.loaded ⟨rfl, rfl, rfl, rfl⟩ (Function.update_self _ _ _)

/-- A position loaded again: the one the loop was at is forgotten, so no look at it is either. -/
theorem inv_load (hinv : Inv cap w) {t : T} {op : Op α} {pc : Pc α}
    (hat : w.1.thread t = some (op, pc)) (hpc : pc.owner = false) :
    Inv cap (w.moved t (some (op, .seeking (w.1.position op.kind))) (w.2.load t op.kind)) := by
  refine inv_moved hinv (by rw [hat]; exact hpc) ⟨⟨rfl, rfl, rfl, rfl, rfl⟩, ?_, ?_, id, ?_⟩ ?_
  · exact fun t' hne => Function.update_of_ne hne _ _
  · exact fun t' hne => rfl
  · exact ⟨[], (List.append_nil _).symm, fun _ => rfl⟩
  · exact hinv.loaded ⟨rfl, rfl, rfl, rfl⟩ (Function.update_self _ _ _)

/-- After a look: the thread goes to `p`, and perhaps a failed call is logged. -/
theorem inv_look (hinv : Inv cap w) {t : T} {op : Op α} {pos : UInt64}
    (hat : w.1.thread t = some (op, .seeking pos)) {p : Option (Op α × Pc α)}
    (more : List (Returned α T)) (hmore : ∀ k, passed k more = [])
    (hp : ThreadOk cap { w.2 with log := w.2.log ++ more } w.1.slots t p) :
    Inv cap (w.moved t p { w.2 with log := w.2.log ++ more }) := by
  refine inv_moved hinv (by rw [hat]; rfl) ⟨⟨rfl, rfl, rfl, rfl, rfl⟩, ?_, ?_, ?_, ?_⟩ hp
  · exact fun t' hne => rfl
  · exact fun t' hne => rfl
  · intro hle
    simp only [List.length_append]
    omega
  · exact ⟨more, rfl, hmore⟩

/-- The look that found the awaited sequence. -/
theorem inv_found (hinv : Inv cap w) {t : T} {op : Op α} {pos : UInt64}
    (hat : w.1.thread t = some (op, .seeking pos))
    (hseq : (w.1.slots (maskIndex cap.size pos)).seq = awaited pos op.kind) :
    Inv cap (w.moved t (some (op, .claiming pos)) w.2) := by
  have hl := hinv.thread t
  rw [hat] at hl
  have hlook := inv_look hinv hat (p := some (op, .claiming pos)) [] (fun _ => rfl)
  rw [List.append_nil] at hlook
  exact hlook ⟨hl, fun hcur => hinv.look_exact hl hcur hseq⟩

/-! ## The claim -/

/-- The claimed position moves on, the other one stays. -/
theorem position_claim (q : State α T) (t : T) (p : Option (Op α × Pc α)) (pos : UInt64)
    (k k' : Kind) : ((q.setPosition pos k).setThread t p).position k' =
      if k' = k then pos else q.position k' := by
  cases k <;> cases k' <;> rfl

/-- No slot is touched. -/
theorem claimed_slots (q : State α T) (t : T) (op : Op α) (pos : UInt64) :
    (q.claimed t op pos).slots = q.slots := by cases op <;> rfl

/-- The claimer is about to copy. -/
theorem claimed_self (q : State α T) (t : T) (op : Op α) (pos : UInt64) :
    (q.claimed t op pos).thread t = some (op, .copying pos) := setThread_self

/-- The others stay where they are. -/
theorem claimed_of_ne {q : State α T} {t t' : T} {op : Op α} {pos : UInt64} (hne : t' ≠ t) :
    (q.claimed t op pos).thread t' = q.thread t' := by
  rw [State.claimed, setThread_of_ne hne]
  cases op <;> rfl

/-- Other owners stay owners. -/
theorem Owner.claimed {q : State α T} {t t' : T} {op : Op α} {pos : UInt64} {k : Kind}
    (hne : t' ≠ t) (ho : Owner q t' k) : Owner (q.claimed t op pos) t' k := by
  obtain ⟨op', pc, ht, hk, hpc⟩ := ho
  exact ⟨op', pc, (claimed_of_ne hne).trans ht, hk, hpc⟩

/-- The slot of the claimed ticket passes to the claimer. -/
theorem slot_claim_self (pos : UInt64) (hinv : Inv cap w) {t : T} {op : Op α} {j : ℕ}
    (hticket : w.2.ticket t = w.2.count op.kind) (hplace : w.2.place cap j =
      w.2.place cap (w.2.count op.kind))
    (hmark : w.2.stamp (w.2.place cap (w.2.count op.kind)) =
      mark (w.2.count op.kind) op.kind)
    (hphase : SlotOk w.1 w.2 (w.2.place cap (w.2.count op.kind)) j) :
    j = w.2.count op.kind ∧ (op.kind = .pop → j < w.2.count .push) ∧
      SlotOk (w.1.claimed t op pos) (w.2.claim t op) (w.2.place cap (w.2.count op.kind)) j := by
  have hheld := hinv.held
  have howner : Owner (w.1.claimed t op pos) t op.kind := ⟨op, _, claimed_self _ _ _ _, rfl, rfl⟩
  rcases hphase with ⟨hs, hpop, -⟩ | ⟨hs, hpush, -⟩
  · obtain ⟨rfl, hkind⟩ := mark_inj hplace (hs.symm.trans hmark)
    rw [← hkind] at howner hticket hmark ⊢
    refine ⟨rfl, (by intro h; cases h), .inl ⟨?_, ?_, .inr ⟨t, howner, ?_⟩⟩⟩
    · rw [claim_stamp]
      exact hmark
    · rw [claim_count, if_neg (by rw [← hkind]; intro h; cases h)]
      exact hheld
    · rw [claim_ticket]
      exact hticket
  · obtain ⟨rfl, hkind⟩ := mark_inj hplace (hs.symm.trans hmark)
    rw [← hkind] at howner hticket hmark hpush ⊢
    refine ⟨rfl, fun _ => hpush, .inr ⟨?_, ?_, .inr ⟨t, howner, ?_⟩⟩⟩
    · rw [claim_stamp]
      exact hmark
    · rw [claim_count]
      omega
    · rw [claim_ticket]
      exact hticket

/-- Any other slot stays in its phase. -/
theorem slot_claim_ne {t : T} {op : Op α} {pos : UInt64} {i j : ℕ}
    (hfrom : Unclaimed (w.1.thread t)) (hne : j ≠ w.2.count op.kind)
    (hphase : SlotOk w.1 w.2 i j) : SlotOk (w.1.claimed t op pos) (w.2.claim t op) i j := by
  have howner : ∀ k, (∃ t', Owner w.1 t' k ∧ w.2.ticket t' = j) →
      ∃ t', Owner (w.1.claimed t op pos) t' k ∧ (w.2.claim t op).ticket t' = j := by
    rintro k ⟨t', ho, ht'⟩
    exact ⟨t', ho.claimed (ho.ne hfrom), by rw [claim_ticket]; exact ht'⟩
  have hcount := claim_count w.2 t op
  refine hphase.imp ?_ ?_
  · rintro ⟨hs, hpop, hown⟩
    refine ⟨by rw [claim_stamp]; exact hs, ?_, hown.imp ?_ (howner _)⟩
    · rw [hcount]
      split
      · rename_i hk
        rw [← hk] at hne
        omega
      · exact hpop
    · intro hpush
      rw [hcount]
      split
      · rename_i hk
        rw [← hk] at hne
        omega
      · exact hpush
  · rintro ⟨hs, hpush, hown⟩
    refine ⟨by rw [claim_stamp]; exact hs, ?_, hown.imp ?_ (howner _)⟩
    · rw [hcount]
      omega
    · intro hpop
      rw [hcount]
      split
      · rename_i hk
        rw [← hk] at hne
        omega
      · exact hpop

section Claim

-- What the winner of the compare-exchange knows (`Inv.won`): its ticket is the next one, and the
-- ticket's slot shows the mark it waited for.
variable (hinv : Inv cap w) {t : T} {op : Op α} {pos : UInt64}
  (hat : w.1.thread t = some (op, .claiming pos)) (hcur : w.2.ticket t = w.2.count op.kind)
  (hmark : w.2.stamp (w.2.place cap (w.2.count op.kind)) = mark (w.2.count op.kind) op.kind)

include hinv

/-- The machine's positions are still the counts of the claims. -/
theorem position_claimed (heq : w.1.position op.kind = pos) (k : Kind) :
    (w.1.claimed t op pos).position k = (w.2.claim t op).pos ((w.2.claim t op).count k) := by
  simp only [State.claimed, position_claim, claim_count, claim_pos]
  split
  · rename_i hk
    subst hk
    rw [← heq, hinv.position, History.pos, History.pos, UInt64.ofNat_add, UInt64.add_assoc]
    rfl
  · exact hinv.position k

omit [DecidableEq T] in
/-- There are still as many items as pushes claimed. -/
theorem items_claimed : (w.2.claim t op).items.length = (w.2.claim t op).count .push := by
  have := hinv.items
  simp only [claim_items, claim_count, List.length_append]
  cases op <;> simp only [Op.kind] <;> simpa using this

/-- The claimed slot goes to the claimer and the others stay where they were. A push that claims
comes a lap after the pop that freed its slot, and a pop after the push that filled it: that is
why neither position overtakes the other. -/
theorem slot_claimed (pos : UInt64) (hfrom : Unclaimed (w.1.thread t))
    (hcur : w.2.ticket t = w.2.count op.kind)
    (hmark : w.2.stamp (w.2.place cap (w.2.count op.kind)) = mark (w.2.count op.kind) op.kind) :
    ((w.2.claim t op).count .push ≤ (w.2.claim t op).count .pop + cap.size ∧
      (w.2.claim t op).count .pop ≤ (w.2.claim t op).count .push) ∧
    ∀ i, i < cap.size → ∃ j, (w.2.claim t op).place cap j = i ∧
      (w.2.claim t op).count .push ≤ j + cap.size ∧ j < (w.2.claim t op).count .pop + cap.size ∧
        SlotOk (w.1.claimed t op pos) (w.2.claim t op) i j := by
  have hcount := claim_count w.2 t op
  have hheld := hinv.held
  have hroom := hinv.room
  obtain ⟨j, hplace, hlo, hhi, hphase⟩ := hinv.slot _ (place_lt cap w.2 (w.2.count op.kind))
  obtain ⟨rfl, hfull, hself⟩ := slot_claim_self pos hinv hcur hplace hmark hphase
  refine ⟨⟨?_, ?_⟩, ?_⟩
  -- `room`: a push claims the slot that a pop has freed, a lap behind
  · simp only [hcount]
    cases op <;> simp only [Op.kind] at hhi ⊢ <;> simp <;> omega
  · simp only [hcount]
    cases op with
    | push item => simp only [Op.kind]; simp; omega
    | pop =>
      have := hfull rfl
      simp only [Op.kind] at this ⊢
      simp
      omega
  · intro i hi
    simp only [claim_place]
    -- the claimed slot passes to the claimer; the others keep their ticket, which the count has
    -- not reached by this one claim
    by_cases hplace : i = w.2.place cap (w.2.count op.kind)
    · subst hplace
      refine ⟨_, rfl, ?_, ?_, hself⟩ <;> rw [hcount]
      · split
        · rename_i hk
          have := cap.two
          rw [← hk]
          omega
        · exact hlo
      · omega
    · obtain ⟨j, rfl, hlo, hhi, hphase⟩ := hinv.slot i hi
      have hne : j ≠ w.2.count op.kind := by
        rintro rfl
        exact hplace rfl
      refine ⟨j, rfl, ?_, ?_, slot_claim_ne hfrom hne hphase⟩
      · rw [hcount]
        split
        · rename_i hk
          have hlap : w.2.count .push ≠ j + cap.size := by
            intro h
            rw [← hk, h, place_add_size] at hplace
            exact hplace rfl
          omega
        · exact hlo
      · rw [hcount]
        omega

include hat hmark

/-- A claim moves no payload, and the item it brings is not in its slot yet. -/
theorem payload_claimed {j : ℕ} {x : α} (hitem : (w.2.claim t op).items[j]? = some x)
    (hstamp : w.2.stamp (w.2.place cap j) = mark j .pop)
    (hnot : ∀ t' pos' moved, (w.1.claimed t op pos).thread t' = some (.pop, .releasing pos' moved) →
      w.2.ticket t' ≠ j) : (w.1.slots (w.2.place cap j)).value = x := by
  refine hinv.payload j x ?_ hstamp ?_
  · rw [claim_items] at hitem
    cases op with
    | pop => rwa [List.append_nil] at hitem
    | push item =>
      rcases Nat.lt_or_ge j w.2.items.length with hlt | hge
      · rwa [List.getElem?_append_left hlt] at hitem
      · have hlast := (List.getElem?_eq_some_iff.mp hitem).1
        rw [List.length_append, List.length_singleton] at hlast
        have : j = w.2.count .push := by
          have := hinv.items
          omega
        subst this
        have := hmark.symm.trans hstamp
        simp only [Op.kind, mark] at this
        omega
  · intro t' p moved ht'
    refine hnot t' p moved ?_
    have hne : t' ≠ t := by
      rintro rfl
      rw [hat] at ht'
      cases ht'
    rw [claimed_of_ne hne]
    exact ht'

include hcur

/-- The claimer owns what it claimed, and the others know what they knew. -/
theorem thread_claimed (t' : T) : ThreadOk cap (w.2.claim t op) w.1.slots t'
    ((w.1.claimed t op pos).thread t') := by
  by_cases hne : t' = t
  · subst hne
    have hlog := hinv.log op.kind
    have hok := hinv.thread t'
    rw [hat] at hok
    rw [claimed_self]
    refine ⟨⟨?_, ?_, ?_, ?_, ?_⟩, ?_⟩ <;>
      simp only [claim_pos, claim_ticket, claim_origin, claim_stamp, claim_place, claim_log, hcur]
    · rw [← hcur]
      exact hok.1.1
    · exact hlog.origin
    · rw [claim_claims, if_pos rfl]
      exact List.getElem?_concat_length
    · exact hmark
    · intro e he _
      exact (List.getElem?_eq_some_iff.mp (hlog.sound e he).2.1).1
    · rintro item rfl
      rw [claim_items]
      have := hinv.items
      rw [show w.2.count (Op.push item).kind = w.2.items.length from this.symm]
      exact List.getElem?_concat_length
  · rw [claimed_of_ne hne]
    exact threadOk_claim (hinv.thread t')

end Claim

/-- **The claim.** The one step at which a slot changes hands. -/
theorem inv_claim (hinv : Inv cap w) (hslow : Unhurried w) {t : T} {op : Op α} {pos : UInt64}
    (hat : w.1.thread t = some (op, .claiming pos)) (heq : w.1.position op.kind = pos) :
    Inv cap (w.1.claimed t op pos, w.2.claim t op) := by
  obtain ⟨hcur, hmark⟩ := hinv.won hslow hat heq
  obtain ⟨⟨hroom, hheld⟩, hslot⟩ := slot_claimed hinv pos (by rw [hat]; rfl) hcur hmark
  constructor
  case position => exact position_claimed hinv heq
  case items => exact items_claimed hinv
  case room => exact hroom
  case held => exact hheld
  case seq =>
    intro i hi
    simp only [claimed_slots, claim_stamp, claim_pos]
    exact hinv.seq i hi
  case slot => exact hslot
  case payload =>
    intro j x hitem hstamp hnot
    simp only [claimed_slots, claim_place, claim_stamp, claim_ticket] at hstamp hnot ⊢
    exact payload_claimed hinv hat hmark hitem hstamp hnot
  case thread =>
    intro t'
    simp only [claimed_slots]
    exact thread_claimed hinv hat hcur hmark t'
  case since =>
    intro t'
    simp only [claim_since, claim_log]
    exact hinv.since t'
  case log => exact fun k => log_claim hmark (hinv.log k)

/-! ## The owner's two steps -/

/-- **The copy.** Only the payload of the owner's own slot changes, and the invariant speaks of
that payload only to those who do not own it. -/
theorem inv_copy (hinv : Inv cap w) {t : T} {op : Op α} {pos : UInt64}
    (hat : w.1.thread t = some (op, .copying pos)) :
    Inv cap ((w.1.setSlot (maskIndex cap.size pos)
      { w.1.slots (maskIndex cap.size pos) with
        value := (op.move left (w.1.slots (maskIndex cap.size pos)).value).2 }).setThread t
      (some (op, .releasing pos (op.move left (w.1.slots (maskIndex cap.size pos)).value).1)),
      w.2) := by
  have hmoved := hinv.move_item left hat
  have hok := hinv.thread t
  rw [hat] at hok
  obtain ⟨howns, -⟩ := hok
  have hi : maskIndex cap.size pos = w.2.place cap (w.2.ticket t) := by
    rw [howns.1, maskIndex_pos]
  rw [hi]
  -- the copier goes on owning its slot, and so do the other owners
  have howner : ∀ t' k, Owner w.1 t' k → Owner ((w.1.setSlot (w.2.place cap (w.2.ticket t))
      { w.1.slots (w.2.place cap (w.2.ticket t)) with
        value := (op.move left (w.1.slots (w.2.place cap (w.2.ticket t))).value).2 }).setThread t
      (some (op, .releasing pos
        (op.move left (w.1.slots (w.2.place cap (w.2.ticket t))).value).1))) t' k := by
    rintro t' k ⟨op', pc, ht', hk, hpc⟩
    by_cases hne : t' = t
    · subst hne
      rw [hat] at ht'
      cases ht'
      exact ⟨op, _, setThread_self, hk, rfl⟩
    · exact ⟨op', pc, (setThread_of_ne hne).trans ht', hk, hpc⟩
  refine ⟨hinv.position, hinv.items, hinv.room, hinv.held, ?_, ?_, ?_, ?_, hinv.since, hinv.log⟩
  -- `seq`: a payload is no sequence
  · intro i hlt
    exact setSlot_seq.trans (hinv.seq i hlt)
  · intro i hlt
    obtain ⟨j, hplace, hlo, hhi, hphase⟩ := hinv.slot i hlt
    refine ⟨j, hplace, hlo, hhi, hphase.imp ?_ ?_⟩
    · rintro ⟨hs, hpop, hown⟩
      exact ⟨hs, hpop, hown.imp id fun ⟨t', ho, ht'⟩ => ⟨t', howner t' _ ho, ht'⟩⟩
    · rintro ⟨hs, hpush, hown⟩
      exact ⟨hs, hpush, hown.imp id fun ⟨t', ho, ht'⟩ => ⟨t', howner t' _ ho, ht'⟩⟩
  -- `payload`: the one payload that changed is the owner's
  · intro j x hitem hstamp hnot
    by_cases hplace : w.2.place cap j = w.2.place cap (w.2.ticket t)
    · -- the slot is being emptied by this very step
      have hmark := howns.2.2.2.1
      rw [← hplace, hstamp] at hmark
      obtain ⟨hj, hk⟩ := mark_inj hplace hmark
      cases op with
      | push item => cases hk
      | pop => exact absurd hj.symm (hnot t pos _ setThread_self)
    · refine (congrArg Slot.value (setSlot_of_ne hplace)).trans (hinv.payload j x hitem hstamp ?_)
      intro t' pos' moved ht'
      refine hnot t' pos' moved ((setThread_of_ne ?_).trans ht')
      rintro rfl
      rw [hat] at ht'
      cases ht'
  -- `thread`: what another owner knows of its slot is about another slot
  · intro t'
    by_cases hne : t' = t
    · subst hne
      rw [setThread_self]
      refine ⟨howns, hmoved, ?_⟩
      intro hk
      cases op with
      | push item => exact congrArg Slot.value setSlot_self
      | pop => cases hk
    · rw [setThread_of_ne hne]
      refine (hinv.thread t').of_slots ?_
      intro op' pos' moved ht'
      obtain ⟨pos'', ho'⟩ := hinv.owns ⟨_, _, ht', rfl, rfl⟩
      exact setSlot_of_ne fun hp => hne (owns_inj ho' howns hp)

/-- **The release.** The slot's sequence moves on: after a push the slot is full at the same
ticket, after a pop it is free at the ticket one lap ahead (`slot_finish`). -/
theorem inv_release (hinv : Inv cap w) {t : T} {op : Op α} {pos : UInt64} {moved : α}
    (hat : w.1.thread t = some (op, .releasing pos moved)) :
    Inv cap ((w.1.setSlot (maskIndex cap.size pos)
      { w.1.slots (maskIndex cap.size pos) with
        seq := released cap pos op.kind }).setThread t none,
      w.2.finish cap t op.kind moved) := by
  have hok := hinv.thread t
  rw [hat] at hok
  obtain ⟨howns, hitem, hvalue⟩ := hok
  have hmark := howns.2.2.2.1
  have hclaimed : w.2.ticket t < w.2.count op.kind := (List.getElem?_eq_some_iff.mp howns.2.2.1).1
  have hheld := hinv.held
  have hcap := cap.two
  rw [show maskIndex cap.size pos = w.2.place cap (w.2.ticket t) by
    rw [howns.1, maskIndex_pos]]
  refine ⟨hinv.position, hinv.items, hinv.room, hinv.held, ?_, ?_, ?_, ?_, ?_, ?_⟩
  -- `seq`: the one sequence that changed is the owner's
  · intro i hi
    by_cases hne : i = w.2.place cap (w.2.ticket t)
    · subst hne
      refine (congrArg Slot.seq setSlot_self).trans ?_
      rw [howns.1, released_pos, finish_stamp_self]
      rfl
    · refine (congrArg Slot.seq (setSlot_of_ne hne)).trans ?_
      rw [finish_stamp_of_ne hne]
      exact hinv.seq i hi
  -- `slot`: the released one goes to its next phase, and nobody else was in it
  · intro i hi
    by_cases hne : i = w.2.place cap (w.2.ticket t)
    · subst hne
      exact slot_finish hinv howns _
    · obtain ⟨j, rfl, hlo, hhi, hphase⟩ := hinv.slot i hi
      have howner : ∀ k, (∃ t', Owner w.1 t' k ∧ w.2.ticket t' = j) →
          ∃ t', Owner ((w.1.setSlot (w.2.place cap (w.2.ticket t))
            { w.1.slots (w.2.place cap (w.2.ticket t)) with
              seq := released cap pos op.kind }).setThread t none) t' k ∧ w.2.ticket t' = j := by
        rintro k ⟨t', ⟨op', pc, ht', hk, hpc⟩, rfl⟩
        refine ⟨t', ⟨op', pc, (setThread_of_ne ?_).trans ht', hk, hpc⟩, rfl⟩
        rintro rfl
        exact hne rfl
      refine ⟨j, rfl, hlo, hhi, hphase.imp ?_ ?_⟩
      · rintro ⟨hs, hpop, hown⟩
        exact ⟨(finish_stamp_of_ne hne).trans hs, hpop, hown.imp id (howner _)⟩
      · rintro ⟨hs, hpush, hown⟩
        exact ⟨(finish_stamp_of_ne hne).trans hs, hpush, hown.imp id (howner _)⟩
  -- `payload`: a push makes a full slot, which now has to hold the item; a pop leaves none
  · intro j x hx hstamp hnot
    by_cases hplace : w.2.place cap j = w.2.place cap (w.2.ticket t)
    · -- the slot just released: full with the item moved in, or free and with no item to speak of
      have hleaves := (finish_stamp_self cap w.2 t op.kind moved).symm.trans
        ((congrArg _ hplace.symm).trans hstamp)
      cases op with
      | push item =>
        have hj : w.2.ticket t = j := Nat.succ.inj hleaves
        rw [hj] at hitem hvalue
        have hsame : moved = x := Option.some.inj (hitem.symm.trans hx)
        refine (congrArg Slot.value ((congrArg _ hplace).trans setSlot_self)).trans ?_
        rw [← hplace, ← hsame]
        exact hvalue rfl
      | pop =>
        have hj : w.2.ticket t + cap.size = j + 1 := hleaves
        exact absurd (place_inj (by omega) (by omega) hplace) (by omega)
    · refine (congrArg Slot.value (setSlot_of_ne hplace)).trans
        (hinv.payload j x hx ((finish_stamp_of_ne hplace).symm.trans hstamp) ?_)
      intro t' pos' moved' ht' hj
      refine hnot t' pos' moved' ((setThread_of_ne ?_).trans ht') hj
      rintro rfl
      exact hplace (by rw [hj])
  -- `thread`: the owner is out of its call, and the others know nothing of its slot
  · intro t'
    by_cases hne : t' = t
    · rw [hne, setThread_self]
      trivial
    · rw [setThread_of_ne hne]
      refine threadOk_finish hne howns (hinv.since t') ((hinv.thread t').of_slots ?_)
      intro op' pos' moved' ht'
      obtain ⟨pos'', ho'⟩ := hinv.owns ⟨_, _, ht', rfl, rfl⟩
      exact setSlot_of_ne fun hp => hne (owns_inj ho' howns hp)
  · intro t'
    refine Nat.le_trans (hinv.since t') ?_
    simp [History.finish, History.close, History.release]
  · exact fun k => log_finish howns hitem (hinv.log k)

/-! ## Every step -/

/-- One step keeps the invariant. -/
theorem inv_advance (a : Action α T) (h : advance cap left w a = some w') (hslow : Unhurried w)
    (hinv : Inv cap w) : Inv cap w' := by
  cases advance_steps a h with
  | call t op idle => exact inv_call hinv idle
  | load t op pc at_ unclaimed => exact inv_load hinv at_ unclaimed
  | found t op pos at_ seq => exact inv_found hinv at_ seq
  | refused t op pos at_ behind seq =>
    refine inv_look hinv at_ [⟨t, _, op.kind.refuse⟩] ?_ trivial
    intro k
    cases op <;> cases k <;> rfl
  | ahead t op pos at_ other ahead seq =>
    have hlook := inv_look hinv at_ (p := some (op, .reloading)) [] (fun _ => rfl) trivial
    rwa [List.append_nil] at hlook
  | overflows t op pos at_ astride =>
    have hlook := inv_look hinv at_ (p := some (op, .undefined)) [] (fun _ => rfl) trivial
    rwa [List.append_nil] at hlook
  | claim t op pos at_ won => exact inv_claim hinv hslow at_ won
  | copy t op pos at_ => exact inv_copy hinv at_
  | release t op pos moved at_ => exact inv_release hinv at_

end MpmcQueue
end Tickerplant
