import Tickerplant.Concurrency.MpmcFifo

/-!
# One call at a time

When no two calls overlap the ring is a bounded queue, and this is the statement of it: the calls
that returned, replayed in order on a list (`Fifo`), are all answered as the list says.

A thread alone in the ring finds no slot owned by anybody, so the sequence it looks at says exactly
whether there is room, or an item (`alone_look`); and the position it loaded is the one it claims.
What the ring holds is then a list at every moment but those between a claim and the last store,
when it is one item longer or shorter than the machine shows. `Settled` says which, and
`settled_steps` is the step lemma.

`Correct` puts everything together, of a run from any resting state: nothing undefined was
executed, nothing was lost or duplicated (`Lossless`), one call at a time is a bounded queue, and a
call made while the ring rests returns. All but the first follow from `Inv`, so the exact condition
for all of it is the exact condition for the first, that no step looks across `2 ^ 63`
(`queue_correct_iff`). `sound_of_short` says for how long a ring is safe from that.
-/

set_option autoImplicit false

namespace Tickerplant
namespace MpmcQueue

open Lib
open Interleave

variable {α T : Type} {cap : Capacity} {left : α → α} {w w' : World α T}

/-! ## The bounded queue -/

/-- A queue of at most `n` items: what a reply says of the items before and after. -/
inductive Fifo (n : ℕ) : List α → Reply α → List α → Prop where
  | pushed (l : List α) (x : α) (room : l.length < n) : Fifo n l (.pushed x) (l ++ [x])
  | full (l : List α) (full : l.length = n) : Fifo n l .full l
  | popped (x : α) (l : List α) : Fifo n (x :: l) (.popped x) l
  | empty : Fifo n [] .empty []

/-- The replies of a run of calls, one after the other. -/
inductive FifoRun (n : ℕ) : List α → List (Reply α) → List α → Prop where
  | start (l : List α) : FifoRun n l [] l
  | snoc {l l' l'' : List α} {replies : List (Reply α)} {reply : Reply α}
    (run : FifoRun n l replies l') (last : Fifo n l' reply l'') :
    FifoRun n l (replies ++ [reply]) l''

/-- No two calls are running. -/
def Apart (w : World α T) : Prop :=
  ∀ t t', w.1.thread t ≠ none → w.1.thread t' ≠ none → t = t'

/-- Nobody owns a slot. -/
def Unowned (q : State α T) : Prop := ∀ t k, ¬ Owner q t k

/-- With nobody in a call nobody owns a slot. -/
theorem unowned_of_idle {q : State α T} (h : ∀ t, q.thread t = none) : Unowned q := by
  rintro t k ⟨op, pc, ht, -, -⟩
  rw [h t] at ht
  cases ht

/-- There is room to push, or an item to pop. -/
def Available (cap : Capacity) (h : History α T) : Kind → Prop
  | .push => h.count .push < h.count .pop + cap.size
  | .pop => h.count .pop < h.count .push

/-- With nobody at a slot, each slot is free for a ticket to come or holds a ticket's item. -/
theorem unowned_slot (hinv : Inv cap w) (hnone : Unowned w.1) {i : ℕ} (hi : i < cap.size) :
    ∃ j, w.2.place cap j = i ∧ w.2.count .pop ≤ j ∧ j < w.2.count .pop + cap.size ∧
      (w.2.stamp i = mark j .push ∧ w.2.count .push ≤ j ∨
        w.2.stamp i = mark j .pop ∧ j < w.2.count .push) := by
  obtain ⟨j, hplace, -, hhi, hphase⟩ := hinv.slot i hi
  have hheld := hinv.held
  rcases hphase with ⟨hs, -, hown⟩ | ⟨hs, hpush, hown⟩
  · have hj := hown.resolve_right fun ⟨t, ho, _⟩ => hnone t _ ho
    exact ⟨j, hplace, Nat.le_trans hheld hj, hhi, .inl ⟨hs, hj⟩⟩
  · exact ⟨j, hplace, hown.resolve_right fun ⟨t, ho, _⟩ => hnone t _ ho, hhi, .inr ⟨hs, hpush⟩⟩

/-- With nobody at a slot, the sequence at the next ticket is the awaited one if the call can
succeed, and is behind it, by less than a lap, if it cannot. -/
theorem alone_look (hinv : Inv cap w) (hnone : Unowned w.1) (k : Kind) :
    (Available cap w.2 k → w.2.stamp (w.2.place cap (w.2.count k)) = mark (w.2.count k) k) ∧
      (¬ Available cap w.2 k → ∃ d, 0 < d ∧ d ≤ cap.size ∧
        w.2.stamp (w.2.place cap (w.2.count k)) + d = mark (w.2.count k) k) := by
  obtain ⟨j, hplace, hlo, hhi, hphase⟩ := unowned_slot hinv hnone (place_lt cap w.2 (w.2.count k))
  have hheld := hinv.held
  have hroom := hinv.room
  have hcap := cap.two
  have hlap : j < w.2.count k → j + cap.size ≤ w.2.count k := place_lap hplace
  have hlap' : w.2.count k < j → w.2.count k + cap.size ≤ j := place_lap hplace.symm
  cases k with
  | push =>
    simp only [Available, mark] at *
    rcases hphase with ⟨hs, hj⟩ | ⟨hs, hpush⟩
    · exact ⟨fun _ => by omega, fun _ => by omega⟩
    · exact ⟨fun _ => by omega, fun _ => ⟨cap.size - 1, by omega, by omega, by omega⟩⟩
  | pop =>
    simp only [Available, mark] at *
    rcases hphase with ⟨hs, hj⟩ | ⟨hs, hpush⟩
    · exact ⟨fun _ => by omega, fun _ => ⟨1, by omega, by omega, by omega⟩⟩
    · exact ⟨fun _ => by omega, fun _ => by omega⟩

/-- So the look of a thread that is alone and up to date is decided by whether it can succeed, if
its subtraction has an answer. -/
theorem alone_seq (hinv : Inv cap w) (hnone : Unowned w.1) {k : Kind} {pos : UInt64}
    (hpos : pos = w.2.pos (w.2.count k)) :
    (Available cap w.2 k → (w.1.slots (maskIndex cap.size pos)).seq = awaited pos k) ∧
      (¬ Available cap w.2 k → ∀ d, signedDiff (w.1.slots (maskIndex cap.size pos)).seq
        (awaited pos k) = some d → d < 0) := by
  obtain ⟨hyes, hno⟩ := alone_look hinv hnone k
  rw [hpos, maskIndex_pos, hinv.seq _ (place_lt cap w.2 _), awaited_pos]
  refine ⟨fun h => congrArg _ (hyes h), fun h d hdiff => ?_⟩
  obtain ⟨n, hpos', hle, hsum⟩ := hno h
  rw [← hsum, History.pos, History.pos, UInt64.ofNat_add, ← UInt64.add_assoc] at hdiff
  exact signedDiff_neg hpos' (Nat.le_trans hle cap.le) hdiff

/-! ## A call alone in the ring -/

/-- The ring holds `l`, up to what the one call under way has claimed and not finished: a push
that has claimed its position is not in `l` yet, and a pop that has is still in it. -/
structure Settled (cap : Capacity) (w : World α T) (l : List α) : Prop where
  /-- With no claim half finished, the list is what was pushed and not popped. -/
  unowned : Unowned w.1 → l = w.2.items.drop (w.2.count .pop)
  /-- The one call under way holds the next position: nobody else could have claimed it. -/
  fresh : ∀ t op pc, w.1.thread t = some (op, pc) → pc.owner = false →
    pc ≠ .reloading ∧ w.2.ticket t = w.2.count op.kind
  /-- A push that has claimed has room for its item, which the list does not have yet. -/
  filling : ∀ t x, Owner w.1 t .push → w.2.items[w.2.ticket t]? = some x →
    l.length < cap.size ∧ l ++ [x] = w.2.items.drop (w.2.count .pop)
  /-- A pop that has claimed has taken the first item, which the list still has. -/
  emptying : ∀ t x, Owner w.1 t .pop → w.2.items[w.2.ticket t]? = some x →
    l = x :: w.2.items.drop (w.2.count .pop)

/-- Nor does anybody when the only thread in a call has not claimed. -/
theorem unowned_of_unclaimed {q : State α T} {t : T} (hothers : ∀ t', t' ≠ t → q.thread t' = none)
    (hp : Unclaimed (q.thread t)) : Unowned q := by
  intro t' k ho
  have hidle := hothers t' (ho.ne hp)
  obtain ⟨op, pc, ht, -, -⟩ := ho
  rw [hidle] at ht
  cases ht

/-- With `t` the only thread in a call, and not an owner. -/
theorem settled_of_unclaimed {t : T} {l : List α}
    (hothers : ∀ t', t' ≠ t → w.1.thread t' = none) (hp : Unclaimed (w.1.thread t))
    (hl : l = w.2.items.drop (w.2.count .pop))
    (hfresh : ∀ op pc, w.1.thread t = some (op, pc) →
      pc ≠ .reloading ∧ w.2.ticket t = w.2.count op.kind) : Settled cap w l := by
  have hnone := unowned_of_unclaimed hothers hp
  refine ⟨fun _ => hl, ?_, fun t' x ho => absurd ho (hnone t' _),
    fun t' x ho => absurd ho (hnone t' _)⟩
  intro t' op pc ht' _
  by_cases hne : t' = t
  · subst hne
    exact hfresh op pc ht'
  · rw [hothers t' hne] at ht'
    cases ht'

/-- At the start the list is what the queue holds. -/
theorem settled_start {q : State α T} {held : List (T × α)}
    (hq : Quiescent cap (held.map Prod.snd) q) :
    Settled cap (q, History.start cap q held) (held.map Prod.snd) := by
  have hnone : Unowned q := unowned_of_idle hq.idle
  refine ⟨fun _ => rfl, ?_, fun t' x ho => absurd ho (hnone t' _),
    fun t' x ho => absurd ho (hnone t' _)⟩
  intro t op pc ht
  rw [hq.idle t] at ht
  cases ht

/-- What a call that cannot succeed finds in the ring. -/
theorem refuse_fifo (hinv : Inv cap w) {op : Op α} (hno : ¬ Available cap w.2 op.kind) :
    Fifo cap.size (w.2.items.drop (w.2.count .pop)) op.kind.refuse
      (w.2.items.drop (w.2.count .pop)) := by
  have hitems := hinv.items
  have hheld := hinv.held
  have hroom := hinv.room
  cases op with
  | push item =>
    simp only [Op.kind, Available] at hno
    refine .full _ ?_
    rw [List.length_drop]
    omega
  | pop =>
    simp only [Op.kind, Available] at hno
    rw [List.drop_eq_nil_of_le (by omega)]
    exact .empty

/-- What a claim adds to or takes from the ring. -/
theorem settled_claim [DecidableEq T] (hinv : Inv cap w) {t : T} {op : Op α} {pos : UInt64}
    {l : List α} (hinv' : Inv cap (w.1.claimed t op pos, w.2.claim t op))
    (hothers : ∀ t', t' ≠ t → w.1.thread t' = none)
    (hticket : w.2.ticket t = w.2.count op.kind)
    (hl : l = w.2.items.drop (w.2.count .pop)) :
    Settled cap (w.1.claimed t op pos, w.2.claim t op) l := by
  have hself : (w.1.claimed t op pos).thread t = some (op, .copying pos) := claimed_self _ _ _ _
  -- after the claim there is one owner, and it is `t`
  have honly : ∀ t' op' pc, (w.1.claimed t op pos).thread t' = some (op', pc) →
      t' = t ∧ op' = op ∧ pc.owner = true := by
    intro t' op' pc ht'
    by_cases hne : t' = t
    · subst hne
      rw [hself] at ht'
      cases ht'
      exact ⟨rfl, rfl, rfl⟩
    · rw [claimed_of_ne hne, hothers t' hne] at ht'
      cases ht'
  have hitems := hinv.items
  have hroom := hinv'.room
  have hheld := hinv.held
  refine ⟨?_, ?_, ?_, ?_⟩
  · exact fun hnone => absurd ⟨op, _, hself, rfl, rfl⟩ (hnone t op.kind)
  · intro t' op' pc ht' hpc
    rw [(honly t' op' pc ht').2.2] at hpc
    cases hpc
  · rintro t' x ⟨op', pc, ht', hk, -⟩ hx
    obtain ⟨rfl, rfl, -⟩ := honly t' op' pc ht'
    cases op' with
    | pop => cases hk
    | push item =>
      have hcount : w.2.count (Op.push item).kind = w.2.items.length := hitems.symm
      simp only [claim_ticket, claim_items, hticket, hcount,
        List.getElem?_concat_length] at hx
      cases hx
      have hpush : (w.2.claim t' (Op.push x)).count .push = w.2.count .push + 1 :=
        claim_count _ _ _ _
      have hpop : (w.2.claim t' (Op.push x)).count .pop = w.2.count .pop := claim_count _ _ _ _
      simp only [hpush, hpop] at hroom
      simp only [claim_items, hpop]
      rw [hl, List.drop_append_of_le_length (by omega), List.length_drop]
      exact ⟨by omega, rfl⟩
  · rintro t' x ⟨op', pc, ht', hk, -⟩ hx
    obtain ⟨rfl, rfl, -⟩ := honly t' op' pc ht'
    cases op' with
    | push item => cases hk
    | pop =>
      simp only [claim_ticket, claim_items, hticket, List.append_nil, Op.kind] at hx
      obtain ⟨hlt, hget⟩ := List.getElem?_eq_some_iff.mp hx
      have hpop : (w.2.claim t' .pop).count .pop = w.2.count .pop + 1 := claim_count _ _ _ _
      simp only [claim_items, List.append_nil, hpop]
      rw [hl, List.drop_eq_getElem_cons hlt, hget]

/-- What a call that succeeds did to the ring. -/
theorem accept_fifo (hinv : Inv cap w) {l : List α} (hset : Settled cap w l) {t : T} {op : Op α}
    {pos : UInt64} {moved : α} (hat : w.1.thread t = some (op, .releasing pos moved)) :
    Fifo cap.size l (op.kind.accept moved) (w.2.items.drop (w.2.count .pop)) := by
  have hok := hinv.thread t
  rw [hat] at hok
  cases op with
  | push item =>
    obtain ⟨hroom, hl⟩ := hset.filling t moved ⟨_, _, hat, rfl, rfl⟩ hok.2.1
    rw [← hl]
    exact .pushed l moved hroom
  | pop =>
    rw [hset.emptying t moved ⟨_, _, hat, rfl, rfl⟩ hok.2.1]
    exact .popped moved _

section Steps

variable [DecidableEq T]

/-- A step that moves a thread which is alone and owns nothing to where it still owns nothing. The
list does not move; what has to be said is that the thread's ticket is the next one. -/
theorem settled_moved {t : T} {p : Option (Op α × Pc α)} {h' : History α T} {l : List α}
    (hset : Settled cap w l) (hidle : ∀ t', t' ≠ t → w.1.thread t' = none)
    (hfrom : Unclaimed (w.1.thread t)) (hto : Unclaimed p)
    (hitems : h'.items = w.2.items) (hcount : h'.count .pop = w.2.count .pop)
    (hfresh : ∀ op pc, p = some (op, pc) → pc ≠ .reloading ∧ h'.ticket t = h'.count op.kind) :
    Settled cap (w.moved t p h') l := by
  have hl := hset.unowned (unowned_of_unclaimed hidle hfrom)
  refine settled_of_unclaimed (t := t) ?_ ?_ ?_ ?_
  · exact fun t' hne => (setThread_of_ne hne).trans (hidle t' hne)
  · rw [World.moved, setThread_self]
    exact hto
  · rw [World.moved, hitems, hcount]
    exact hl
  · rw [World.moved, setThread_self]
    exact hfresh

/-- The first step of a call: everybody else is in none, or two would be under way after it. -/
theorem idle_of_call {t : T} {p : Option (Op α × Pc α)} {h' : History α T}
    (hidle : w.1.thread t = none) (hp : p ≠ none) (hapart' : Apart (w.moved t p h')) (t' : T) :
    w.1.thread t' = none := by
  by_cases hne : t' = t
  · rw [hne]
    exact hidle
  · by_contra hbusy
    refine hne (hapart' t' t ?_ ?_)
    · rw [World.moved, setThread_of_ne hne]
      exact hbusy
    · rw [World.moved, setThread_self]
      exact hp

omit [DecidableEq T] in
/-- The position a thread alone is looking at is the next one. -/
theorem looks_next (hinv : Inv cap w) {l : List α} (hset : Settled cap w l) {t : T} {op : Op α}
    {pos : UInt64} (hat : w.1.thread t = some (op, .seeking pos)) :
    pos = w.2.pos (w.2.count op.kind) := by
  have hok := hinv.thread t
  rw [hat] at hok
  rw [← (hset.fresh t op _ hat rfl).2]
  exact hok.1

omit [DecidableEq T] in
/-- A look that found the slot behind is right that the call cannot succeed. -/
theorem not_available_of_behind (hinv : Inv cap w) (hnone : Unowned w.1) {k : Kind}
    {pos : UInt64} (hpos : pos = w.2.pos (w.2.count k)) {d : Int64} (hneg : d < 0)
    (hdiff : signedDiff (w.1.slots (maskIndex cap.size pos)).seq (awaited pos k) = some d) :
    ¬ Available cap w.2 k := by
  intro hyes
  rw [signedDiff_eq_zero.mpr ((alone_seq hinv hnone hpos).1 hyes)] at hdiff
  cases hdiff
  exact absurd hneg (by decide)

/-- The owner's copy: it still owns its slot, so the list still waits for its last store. -/
theorem settled_copy {t : T} {op : Op α} {pos : UInt64} {l : List α} (hset : Settled cap w l)
    (hat : w.1.thread t = some (op, .copying pos)) (i : ℕ) (slot : Slot α) (moved : α) :
    Settled cap ((w.1.setSlot i slot).setThread t (some (op, .releasing pos moved)), w.2) l := by
  have howner : ∀ t' k, Owner ((w.1.setSlot i slot).setThread t
      (some (op, .releasing pos moved))) t' k → Owner w.1 t' k := by
    rintro t' k ⟨op', pc, ht', hk, hpc⟩
    by_cases hne : t' = t
    · subst hne
      rw [setThread_self] at ht'
      cases ht'
      exact ⟨op, _, hat, hk, rfl⟩
    · rw [setThread_of_ne hne] at ht'
      exact ⟨op', pc, ht', hk, hpc⟩
  refine ⟨?_, ?_, fun t' x ho => hset.filling t' x (howner t' _ ho),
    fun t' x ho => hset.emptying t' x (howner t' _ ho)⟩
  · exact fun hnone => absurd ⟨op, _, setThread_self, rfl, rfl⟩ (hnone t op.kind)
  · intro t' op' pc ht' hpc
    by_cases hne : t' = t
    · subst hne
      rw [setThread_self] at ht'
      cases ht'
      cases hpc
    · rw [setThread_of_ne hne] at ht'
      exact hset.fresh t' op' pc ht' hpc

/-- One step in a ring with at most one call under way: either nothing returned, or the call that
returned did what the list says. -/
theorem settled_steps (hinv : Inv cap w) (hinv' : Inv cap w') (hslow : Unhurried w)
    (hapart : Apart w) (hapart' : Apart w') (hs : Steps cap left w w') {l : List α}
    (hset : Settled cap w l) :
    w'.2.log = w.2.log ∧ Settled cap w' l ∨
      ∃ e l', w'.2.log = w.2.log ++ [e] ∧ Fifo cap.size l e.reply l' ∧ Settled cap w' l' := by
  -- two threads in calls would not be apart
  have hothers : ∀ t op pc, w.1.thread t = some (op, pc) →
      ∀ t', t' ≠ t → w.1.thread t' = none := by
    intro t op pc hat t' hne
    by_contra hbusy
    exact hne (hapart t' t hbusy (by rw [hat]; simp))
  cases hs with
  | call t op idle =>
    have hidle := idle_of_call idle (by simp) hapart'
    refine .inl ⟨rfl, settled_moved hset (fun t' _ => hidle t') ?_ rfl rfl rfl ?_⟩
    · rw [idle]
      trivial
    · rintro op' pc ⟨⟩
      exact ⟨by simp, Function.update_self _ _ _⟩
  | load t op pc at_ unclaimed =>
    refine .inl ⟨rfl, settled_moved hset (hothers t op pc at_) ?_ rfl rfl rfl ?_⟩
    · rw [at_]
      exact unclaimed
    · rintro op' pc' ⟨⟩
      exact ⟨by simp, Function.update_self _ _ _⟩
  | found t op pos at_ seq =>
    refine .inl ⟨rfl, settled_moved hset (hothers t _ _ at_) (by rw [at_]; rfl) rfl rfl rfl ?_⟩
    rintro op' pc' ⟨⟩
    exact ⟨by simp, (hset.fresh t op _ at_ rfl).2⟩
  | overflows t op pos at_ astride =>
    refine .inl ⟨rfl, settled_moved hset (hothers t _ _ at_) (by rw [at_]; rfl) rfl rfl rfl ?_⟩
    rintro op' pc' ⟨⟩
    exact ⟨by simp, (hset.fresh t op _ at_ rfl).2⟩
  | refused t op pos at_ behind seq =>
    have hfrom : Unclaimed (w.1.thread t) := by
      rw [at_]
      rfl
    have hnone := unowned_of_unclaimed (hothers t _ _ at_) hfrom
    have hno := not_available_of_behind hinv hnone (looks_next hinv hset at_) behind seq
    refine .inr ⟨_, l, rfl, ?_, settled_moved hset (hothers t _ _ at_) hfrom trivial rfl rfl ?_⟩
    · rw [hset.unowned hnone]
      exact refuse_fifo hinv hno
    · rintro op' pc' ⟨⟩
  | ahead t op pos at_ other ahead seq =>
    have hnone := unowned_of_unclaimed (hothers t _ _ at_) (by rw [at_]; rfl)
    obtain ⟨hyes, hno⟩ := alone_seq hinv hnone (looks_next hinv hset at_)
    -- a look that is ahead would mean a claim since the load, and nobody else was there to make
    -- one
    by_cases havail : Available cap w.2 op.kind
    · rw [signedDiff_eq_zero.mpr (hyes havail)] at seq
      exact absurd (Option.some.inj seq).symm other
    · exact absurd (hno havail _ seq) ahead
  | claim t op pos at_ won =>
    have hidle := hothers t _ _ at_
    have hnone := unowned_of_unclaimed hidle (by rw [at_]; rfl)
    exact .inl ⟨claim_log _ _ _, settled_claim hinv hinv' hidle (hinv.won hslow at_ won).1
      (hset.unowned hnone)⟩
  | copy t op pos at_ => exact .inl ⟨rfl, settled_copy hset at_ _ _ _⟩
  | release t op pos moved at_ =>
    have hidle := hothers t _ _ at_
    refine .inr ⟨_, _, rfl, accept_fifo hinv hset at_, settled_of_unclaimed (t := t)
      (fun t' hne => (setThread_of_ne hne).trans (hidle t' hne)) ?_ rfl ?_⟩
    · rw [setThread_self]
      trivial
    · intro op' pc' ht
      rw [setThread_self] at ht
      cases ht

end Steps

/-! ## Resting again -/

/-- Whenever nobody is in a call the queue rests, and holds what was claimed by a push and not yet
by a pop. -/
theorem quiescent_again (hinv : Inv cap w) (hidle : ∀ t, w.1.thread t = none) :
    Quiescent cap (w.2.items.drop (w.2.count .pop)) w.1 := by
  have hnone := unowned_of_idle hidle
  have hitems := hinv.items
  have hheld := hinv.held
  have hroom := hinv.room
  -- the machine's positions from `head` on are the tickets from the number of pops on
  have hticket : ∀ j, w.1.head + UInt64.ofNat j = w.2.pos (w.2.count .pop + j) := by
    intro j
    have := hinv.position .pop
    rw [show w.1.head = w.1.position .pop from rfl, this, History.pos, History.pos,
      UInt64.ofNat_add, UInt64.add_assoc]
  refine ⟨hidle, ?_, ?_, ?_, ?_⟩
  · rw [List.length_drop]
    omega
  · rw [hticket, List.length_drop, show w.1.tail = w.1.position .push from rfl,
      hinv.position .push]
    congr 1
    omega
  -- a ticket that was pushed and not popped: its slot cannot be free for it
  · intro j x hx
    rw [List.getElem?_drop] at hx
    have hlt := (List.getElem?_eq_some_iff.mp hx).1
    have hplace := place_lt cap w.2 (w.2.count .pop + j)
    obtain ⟨j', hplace', hlo, hhi, hphase⟩ := unowned_slot hinv hnone hplace
    obtain rfl : j' = w.2.count .pop + j := place_inj (by omega) (by omega) hplace'
    rcases hphase with ⟨-, hge⟩ | ⟨hs, -⟩
    · omega
    · have hvalue := hinv.payload _ x hx hs fun t pos moved ht => by
        rw [hidle t] at ht
        cases ht
      have hseq : _ = w.2.pos (w.2.count .pop + j) + 1 :=
        ((hinv.seq _ hplace).trans (congrArg _ hs)).trans (awaited_pos w.2 _ .pop).symm
      rw [hticket, maskIndex_pos, ← hvalue, ← hseq]
  -- a ticket that was not pushed: its slot cannot be full at it
  · intro j hge hlt
    rw [List.length_drop] at hge
    rw [hticket, maskIndex_pos]
    have hplace := place_lt cap w.2 (w.2.count .pop + j)
    obtain ⟨j', hplace', hlo, hhi, hphase⟩ := unowned_slot hinv hnone hplace
    obtain rfl : j' = w.2.count .pop + j := place_inj (by omega) (by omega) hplace'
    rcases hphase with ⟨hs, -⟩ | ⟨-, hlt'⟩
    · rw [hinv.seq _ hplace, hs]
      rfl
    · omega

/-! ## A call alone returns -/

section Machine

variable [DecidableEq T]

/-- Thread `t` is out of its call after `n` more steps of its own. -/
def Returns (cap : Capacity) (left : α → α) (t : T) (n : ℕ) (q : State α T) : Prop :=
  ∀ h, ∃ w', run (advance cap left) (q, h) (List.replicate n (.go t)) = some w' ∧
    w'.1.thread t = none

/-- A turn of a thread that is in a call. -/
theorem advance_go {t : T} {op : Op α} {pc : Pc α} {q : State α T} {h : History α T}
    {s : State α T × Option (Reply α)} (hat : q.thread t = some (op, pc))
    (hstep : attempt cap left q t op pc = some s) :
    advance cap left (q, h) (.go t) = some (s.1, record cap h (.go t) s) := by
  cases op <;> simp [advance, observed, step, hat, pushImpl, tryPop, hstep]

/-- A thread in no call has returned. -/
theorem returns_idle {t : T} {q : State α T} (hat : q.thread t = none) : Returns cap left t 0 q :=
  fun h => ⟨(q, h), rfl, hat⟩

/-- One more turn first. -/
theorem returns_step {t : T} {op : Op α} {pc : Pc α} {n : ℕ} {q : State α T}
    {s : State α T × Option (Reply α)} (hat : q.thread t = some (op, pc))
    (hstep : attempt cap left q t op pc = some s) (hrest : Returns cap left t n s.1) :
    Returns cap left t (n + 1) q := by
  intro h
  obtain ⟨w', hrun, hidle⟩ := hrest (record cap h (.go t) s)
  refine ⟨w', ?_, hidle⟩
  rw [List.replicate_succ, run, advance_go hat hstep]
  exact hrun

/-- An owner has two steps left. -/
theorem returns_copying {t : T} {op : Op α} {pos : UInt64} {q : State α T}
    (hat : q.thread t = some (op, .copying pos)) : Returns cap left t 2 q :=
  returns_step hat rfl (returns_step setThread_self rfl (returns_idle setThread_self))

/-- With the position still its own, three. -/
theorem returns_claiming {t : T} {op : Op α} {pos : UInt64} {q : State α T}
    (hat : q.thread t = some (op, .claiming pos)) (hwon : q.position op.kind = pos) :
    Returns cap left t 3 q :=
  returns_step hat (if_pos hwon) (returns_copying setThread_self)

/-- A look that finds what it waits for leaves four. -/
theorem returns_seeking {t : T} {op : Op α} {pos : UInt64} {q : State α T}
    (hat : q.thread t = some (op, .seeking pos)) (hpos : q.position op.kind = pos)
    (hseq : (q.slots (maskIndex cap.size pos)).seq = awaited pos op.kind) :
    Returns cap left t 4 q := by
  have hfound : attempt cap left q t op (.seeking pos) =
      some (q.setThread t (some (op, .claiming pos)), none) := by
    simp only [attempt, signedDiff_eq_zero.mpr hseq, if_true]
  refine returns_step hat hfound (returns_claiming setThread_self ?_)
  rw [← hpos]
  cases op <;> rfl

/-- A look that finds the slot behind is the last step. -/
theorem returns_refused {t : T} {op : Op α} {pos : UInt64} {q : State α T} {d : Int64}
    (hat : q.thread t = some (op, .seeking pos)) (hneg : d < 0)
    (hdiff : signedDiff (q.slots (maskIndex cap.size pos)).seq (awaited pos op.kind) = some d) :
    Returns cap left t 1 q := by
  have hne : d ≠ 0 := by
    rintro rfl
    exact absurd hneg (by decide)
  have hrefused : attempt cap left q t op (.seeking pos) =
      some (q.setThread t none, some op.kind.refuse) := by
    simp only [attempt, hdiff, if_neg hne, if_pos hneg]
  exact returns_step hat hrefused (returns_idle setThread_self)

/-- A thread that has done what is undefined takes no step any more. -/
theorem stuck_of_undefined {t : T} {op : Op α} {n : ℕ} {v v' : World α T}
    (hat : v.1.thread t = some (op, .undefined))
    (hrun : run (advance cap left) v (List.replicate n (.go t)) = some v') :
    v'.1.thread t ≠ none := by
  cases n with
  | zero =>
    cases hrun
    rw [hat]
    simp
  | succ n =>
    rw [List.replicate_succ, run] at hrun
    have hnone : advance cap left v (.go t) = none := by
      cases op <;> simp [advance, observed, step, hat, pushImpl, tryPop, attempt]
    rw [hnone] at hrun
    cases hrun

/-- A thread that looks across `2 ^ 63` never returns. -/
theorem stuck_of_astride {t : T} {op : Op α} {pos : UInt64} {n : ℕ} {v v' : World α T}
    (hat : v.1.thread t = some (op, .seeking pos)) (hastride : v.1.Astride cap pos op.kind)
    (hrun : run (advance cap left) v (List.replicate n (.go t)) = some v') :
    v'.1.thread t ≠ none := by
  cases n with
  | zero =>
    cases hrun
    rw [hat]
    simp
  | succ n =>
    have hundefined : attempt cap left v.1 t op (.seeking pos) =
        some (v.1.setThread t (some (op, .undefined)), none) := by
      simp only [attempt, signedDiff_eq_none_iff.mpr hastride]
    rw [List.replicate_succ, run, advance_go hat hundefined] at hrun
    exact stuck_of_undefined (setThread_self (q := v.1)) hrun

/-- A thread that calls while nobody else is in a call returns, after at most four more steps of
its own, if its compare-exchange does not fail for no reason and it does not look across
`2 ^ 63`; and if it does, it does not return however often it is its turn. -/
theorem alone_returns_iff (hinv : Inv cap w) (hidle : ∀ t, w.1.thread t = none) (t : T)
    (op : Op α) :
    (∃ n w', n ≤ 4 ∧ run (advance cap left) w (.call t op :: List.replicate n (.go t)) = some w' ∧
      w'.1.thread t = none) ↔ ¬ w.1.Astride cap (w.1.position op.kind) op.kind := by
  have hcall : advance cap left w (.call t op) =
      some (w.1.setThread t (some (op, .seeking (w.1.position op.kind))), record cap w.2
        (.call t op) (w.1.setThread t (some (op, .seeking (w.1.position op.kind))), none)) := by
    simp only [advance, observed, step, hidle t, Option.map_some]
  constructor
  · rintro ⟨n, w', -, hrun, hdone⟩ hastride
    rw [run, hcall] at hrun
    exact stuck_of_astride (v := (_, _)) setThread_self hastride hrun hdone
  · intro hnot
    obtain ⟨hyes, hno⟩ := alone_seq hinv (unowned_of_idle hidle) (hinv.position op.kind)
    have hseek : ∃ n, n ≤ 4 ∧ Returns cap left t n
        (w.1.setThread t (some (op, .seeking (w.1.position op.kind)))) := by
      by_cases havail : Available cap w.2 op.kind
      · exact ⟨4, Nat.le_refl _,
          returns_seeking setThread_self (by cases op <;> rfl) (hyes havail)⟩
      · obtain ⟨d, hd⟩ := Option.ne_none_iff_exists'.mp fun h =>
          hnot (signedDiff_eq_none_iff.mp h)
        exact ⟨1, by omega, returns_refused setThread_self (hno havail d hd) hd⟩
    obtain ⟨n, hn, hreturns⟩ := hseek
    obtain ⟨w', hrun, hdone⟩ := hreturns (record cap w.2 (.call t op)
      (w.1.setThread t (some (op, .seeking (w.1.position op.kind))), none))
    refine ⟨n, w', hn, ?_, hdone⟩
    rw [run, hcall]
    exact hrun

/-! ## Every run -/

/-- A run executes nothing undefined exactly when no step of it looks across `2 ^ 63`. -/
theorem defined_iff_sound {q : State α T} (hq : q.Defined) (h : History α T)
    (acts : List (Action α T)) :
    Throughout (advance cap left) (fun v => v.1.Defined) (q, h) acts ↔
      Along (advance cap left) (Sound cap) (q, h) acts := by
  refine throughout_iff_along (fun v a (_ : True) hv => ⟨?_, fun _ _ _ => trivial⟩) acts (q, h)
    trivial hq
  constructor
  · intro hnext
    cases a with
    | call t op => trivial
    | spurious t => trivial
    | go t =>
      intro op pos hat hastride
      have hundefined : attempt cap left v.1 t op (.seeking pos) =
          some (v.1.setThread t (some (op, .undefined)), none) := by
        simp only [attempt, signedDiff_eq_none_iff.mpr hastride]
      exact hnext _ (advance_go hat hundefined) t op setThread_self
  · intro hsound v' hv'
    exact defined_advance hv' hsound hv

/-- **What the ring is for**, of a run that ends at `w`. Nothing undefined was executed; what
`Lossless` says holds; if at no time two calls were under way, the replies are those of a bounded
queue that began with what was in the ring, and whenever the ring rests it holds what that queue
holds; and when it rests, a call made then returns, unless that very call looks across
`2 ^ 63`. -/
structure Correct (cap : Capacity) (left : α → α) (held : List (T × α)) (start : World α T)
    (acts : List (Action α T)) (w : World α T) : Prop where
  defined : Throughout (advance cap left) (fun v => v.1.Defined) start acts
  lossless : Lossless cap held w
  fifo : Throughout (advance cap left) Apart start acts →
    ∃ l, FifoRun cap.size (held.map Prod.snd) (w.2.log.map Returned.reply) l ∧
      ((∀ t, w.1.thread t = none) → Quiescent cap l w.1)
  returns : (∀ t, w.1.thread t = none) → ∀ t op,
    (∃ n w', n ≤ 4 ∧ run (advance cap left) w (.call t op :: List.replicate n (.go t)) = some w' ∧
      w'.1.thread t = none) ↔ ¬ w.1.Astride cap (w.1.position op.kind) op.kind

/-- One call at a time, over a run. -/
theorem run_fifo {q : State α T} (held : List (T × α)) (hq : Quiescent cap (held.map Prod.snd) q)
    (acts : List (Action α T))
    (hrun : run (advance cap left) (q, History.start cap q held) acts = some w)
    (hslow : Throughout (advance cap left) Unhurried (q, History.start cap q held) acts)
    (hapart : Throughout (advance cap left) Apart (q, History.start cap q held) acts) :
    Inv cap w ∧ ∃ l, FifoRun cap.size (held.map Prod.snd) (w.2.log.map Returned.reply) l ∧
      Settled cap w l := by
  have hkeep : ∀ v (a : Action α T) v', advance cap left v a = some v' →
      Unhurried v ∧ Apart v → Unhurried v' ∧ Apart v' →
      (Inv cap v ∧ ∃ l, FifoRun cap.size (held.map Prod.snd) (v.2.log.map Returned.reply) l ∧
        Settled cap v l) →
      Inv cap v' ∧ ∃ l, FifoRun cap.size (held.map Prod.snd) (v'.2.log.map Returned.reply) l ∧
        Settled cap v' l := by
    rintro v a v' h ⟨hP, hA⟩ ⟨-, hA'⟩ ⟨hI, l, hfifo, hset⟩
    have hI' := inv_advance a h hP hI
    refine ⟨hI', ?_⟩
    rcases settled_steps hI hI' hP hA hA' (advance_steps a h) hset with
      ⟨hlog, hset'⟩ | ⟨e, l', hlog, hreply, hset'⟩
    · exact ⟨l, by rw [hlog]; exact hfifo, hset'⟩
    · refine ⟨l', ?_, hset'⟩
      rw [hlog, List.map_append]
      exact .snoc hfifo hreply
  exact run_invariant hkeep acts _ _ hrun (hslow.and hapart)
    ⟨inv_start hq, _, .start _, settled_start hq⟩

/-- **The ring loses and duplicates nothing.** From any resting state, however the steps of the
threads fall, as long as during no call `2 ^ 63` others return: the run is `Correct` exactly when
no step of it subtracts two counters astride `2 ^ 63`. -/
theorem queue_correct_iff {q : State α T} (held : List (T × α))
    (hq : Quiescent cap (held.map Prod.snd) q) (acts : List (Action α T))
    (hrun : run (advance cap left) (q, History.start cap q held) acts = some w)
    (hslow : Throughout (advance cap left) Unhurried (q, History.start cap q held) acts) :
    Correct cap left held (q, History.start cap q held) acts w ↔
      Along (advance cap left) (Sound cap) (q, History.start cap q held) acts := by
  have hstart : q.Defined := fun t op h => by
    rw [hq.idle t] at h
    cases h
  rw [← defined_iff_sound hstart]
  refine ⟨Correct.defined, fun hdefined => ?_⟩
  have hkeep : ∀ v (a : Action α T) v', advance cap left v a = some v' → Unhurried v →
      Unhurried v' → Inv cap v ∧ Begins held v.2 → Inv cap v' ∧ Begins held v'.2 :=
    fun v a v' h hP _ hI => ⟨inv_advance a h hP hI.1, begins_steps hI.2 (advance_steps a h)⟩
  obtain ⟨hinv, hbegins⟩ : Inv cap w ∧ Begins held w.2 :=
    run_invariant hkeep acts _ _ hrun hslow ⟨inv_start hq, begins_start q held⟩
  refine ⟨hdefined, lossless hbegins hinv, fun hapart => ?_,
    fun hidle t op => alone_returns_iff hinv hidle t op⟩
  obtain ⟨-, l, hfifo, hset⟩ := run_fifo held hq acts hrun hslow hapart
  refine ⟨l, hfifo, fun hidle => ?_⟩
  rw [hset.unowned (unowned_of_idle hidle)]
  exact quiescent_again hinv hidle

/-- A step logs at most one call and claims at most one position. -/
theorem advance_counts {a : Action α T} (h : advance cap left w a = some w') :
    w'.2.log.length ≤ w.2.log.length + 1 ∧ w'.2.count .push ≤ w.2.count .push + 1 ∧
      w'.2.base = w.2.base := by
  cases advance_steps a h with
  | claim t op pos at_ won =>
    refine ⟨?_, ?_, ?_⟩
    · simp only [claim_log, Nat.le_succ]
    · rw [claim_count]
      split <;> omega
    · cases op <;> rfl
  | release t op pos moved at_ =>
    refine ⟨?_, Nat.le_succ _, rfl⟩
    simp only [History.finish, History.close, History.release, List.length_append,
      List.length_singleton, Nat.le_refl]
  | refused t op pos at_ behind seq =>
    refine ⟨?_, Nat.le_succ _, rfl⟩
    simp only [World.moved, History.close, List.length_append, List.length_singleton,
      Nat.le_refl]
  | _ => exact ⟨Nat.le_succ _, Nat.le_succ _, rfl⟩

/-- In a run of fewer than `2 ^ 63` steps no call is outrun. -/
theorem unhurried_of_short (q : State α T) (held : List (T × α)) (acts : List (Action α T))
    (hshort : acts.length < 2 ^ 63) :
    Throughout (advance cap left) Unhurried (q, History.start cap q held) acts := by
  refine throughout_of_count (fun w : World α T => w.2.log.length) (2 ^ 63) ?_ ?_ acts _
    (by simpa [History.start] using hshort)
  · exact fun w a w' h => (advance_counts h).1
  · intro w h t _
    exact Nat.lt_of_le_of_lt (Nat.sub_le _ _) h

omit [DecidableEq T] in
/-- While every position there is lies below `2 ^ 63`, so does every counter a look compares. -/
theorem not_astride_of_low (hinv : Inv cap w)
    (hlow : w.2.base.toNat + w.2.count .push + cap.size < 2 ^ 63) {t : T} {op : Op α}
    {pos : UInt64} (hat : w.1.thread t = some (op, .seeking pos)) :
    ¬ w.1.Astride cap pos op.kind := by
  have hl := hinv.thread t
  rw [hat] at hl
  obtain ⟨hpos, hle, -⟩ := hl
  have hplace := place_lt cap w.2 (w.2.ticket t)
  have hhi := (hinv.stamp_range hplace).2
  have hheld := hinv.held
  have hcap := cap.two
  have hcount : w.2.count op.kind ≤ w.2.count .push := by
    cases op with
    | push item => exact Nat.le_refl _
    | pop => exact hheld
  have hmark : mark (w.2.ticket t) op.kind ≤ w.2.ticket t + 1 := by
    cases op <;> simp only [Op.kind, mark] <;> omega
  have hbelow : ∀ j, w.2.base.toNat + j < 2 ^ 63 → (w.2.pos j).toNat < 2 ^ 63 := by
    intro j hj
    rw [History.pos, toNat_add_ofNat (by omega)]
    exact hj
  have hseq := hbelow (w.2.stamp (w.2.place cap (w.2.ticket t))) (by omega)
  have hawaited := hbelow (mark (w.2.ticket t) op.kind) (by omega)
  rw [State.Astride, hpos, maskIndex_pos, hinv.seq _ hplace, awaited_pos, Lib.Astride]
  omega

/-- A ring counted from a position so far below `2 ^ 63` that the run cannot reach it is never
looked at across it. So a ring just built works for its first `2 ^ 63` steps, less a lap. -/
theorem sound_of_short {q : State α T} (held : List (T × α))
    (hq : Quiescent cap (held.map Prod.snd) q) (acts : List (Action α T))
    (hshort : q.head.toNat + held.length + acts.length + cap.size < 2 ^ 63) :
    Along (advance cap left) (Sound cap) (q, History.start cap q held) acts := by
  refine along_of_budget (fun n (v : World α T) => Inv cap v ∧ v.2.log.length + n < 2 ^ 63 ∧
    v.2.base.toNat + v.2.count .push + n + cap.size < 2 ^ 63) ?_ ?_ acts _ ⟨inv_start hq, ?_, ?_⟩
  · rintro n v a v' ⟨hinv, hlog, hlow⟩ h
    obtain ⟨hlog', hcount', hbase'⟩ := advance_counts h
    have hslow : Unhurried v := fun t _ => Nat.lt_of_le_of_lt (Nat.sub_le _ _) (by omega)
    exact ⟨inv_advance a h hslow hinv, by omega, by rw [hbase']; omega⟩
  · rintro n v a ⟨hinv, -, hlow⟩
    cases a with
    | call t op => trivial
    | spurious t => trivial
    | go t => exact fun op pos hat => not_astride_of_low hinv (by omega) hat
  · simp only [History.start, List.length_nil]
    omega
  · simp only [History.start, History.count, List.length_map]
    omega

end Machine

/-- The queue as the constructor leaves it rests, and is empty. -/
theorem quiescent_new (value : α) : Quiescent cap [] (new value : State α T) where
  idle _ := rfl
  fits := Nat.zero_le _
  tail := rfl
  full j x hx := by cases hx
  free j _ hj := by
    obtain ⟨m, hm⟩ := cap.power
    have hword := cap.word
    rw [maskIndex_eq_mod hm]
    simp only [new, UInt64.zero_add, UInt64.toNat_ofNat']
    rw [Nat.mod_eq_of_lt (a := j) (by omega), Nat.mod_eq_of_lt hj]

/-- The smallest ring. -/
def two : Capacity := ⟨2, Nat.le_refl _, ⟨1, rfl⟩, by decide⟩

/-- A push whose compare-exchange fails once for no reason, with a pop that finds nothing while
the push is under way, and a pop that finds the item. -/
def pushAndPop : List (Action ℕ Bool) :=
  [.call true (.push 7), .go true, .spurious true, .call false .pop, .go true, .go false,
   .go true, .go true, .go true, .call false .pop, .go false, .go false, .go false, .go false]

theorem queue_correct_iff_pushAndPop : ∃ w : World ℕ Bool,
    run (advance two id) (new 0, History.start two (new 0) []) pushAndPop = some w ∧
    Correct two id [] (new 0, History.start two (new 0) []) pushAndPop w := by
  obtain ⟨w, hw⟩ := Option.isSome_iff_exists.mp
    (show (run (advance two id) (new 0, History.start two (new 0) []) pushAndPop).isSome = true
      by decide)
  have hsound : Along (advance two id) (Sound two) (new 0, History.start two (new 0) [])
      pushAndPop := sound_of_short [] (quiescent_new 0) pushAndPop (by decide)
  exact ⟨w, hw, (queue_correct_iff [] (quiescent_new 0) pushAndPop hw
    (unhurried_of_short _ _ _ (by decide))).mpr hsound⟩

/-- An empty ring whose next position is the last one below `2 ^ 63`. -/
def lastBelow : State ℕ Bool where
  head := UInt64.ofNat (2 ^ 63 - 1)
  tail := UInt64.ofNat (2 ^ 63 - 1)
  slots i := ⟨if i = 0 then UInt64.ofNat (2 ^ 63) else UInt64.ofNat (2 ^ 63 - 1), 0⟩
  thread _ := none

theorem quiescent_lastBelow : Quiescent two [] lastBelow := by
  refine ⟨fun _ => rfl, Nat.zero_le _, by decide, ?_, ?_⟩
  · intro j x hx
    cases hx
  · intro j _ hj
    have hcases : j = 0 ∨ j = 1 := by
      simp only [two] at hj
      omega
    rcases hcases with rfl | rfl <;> decide

/-- **Across `2 ^ 63`.** The ring holds nothing and nobody else is at it, so a pop must return
false. The slot shows `2 ^ 63 - 1`, the largest signed word, and the pop waits for `2 ^ 63`, the
smallest: the difference is `2 ^ 64 - 1`, no word holds it, and the pop does not return. -/
theorem not_correct_lastBelow : Quiescent two [] lastBelow ∧ ∃ w,
    run (advance two id) (lastBelow, History.start two lastBelow [])
      [.call true .pop, .go true] = some w ∧
    Throughout (advance two id) Unhurried (lastBelow, History.start two lastBelow [])
      [.call true .pop, .go true] ∧
    w.1.thread true = some (.pop, .undefined) ∧ w.2.log.length = 0 ∧
    advance two id w (.go true) = none ∧
    ¬ Correct two id [] (lastBelow, History.start two lastBelow [])
      [.call true .pop, .go true] w := by
  refine ⟨quiescent_lastBelow, _, rfl, unhurried_of_short _ _ _ (by decide), rfl, rfl, rfl, ?_⟩
  intro hcorrect
  have hlast := (hcorrect.defined.2 _ rfl).2 _ rfl
  exact hlast true .pop rfl

end MpmcQueue
end Tickerplant
