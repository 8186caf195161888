import Mathlib.Data.Finset.Card
import Mathlib.Order.Interval.Finset.Nat
import Tickerplant.Concurrency.MpmcQueue

/-!
# Who owns a slot

The invariant of the ring, in tickets: what each slot's sequence says about who may touch it, what
every half-finished call has in its hands, and what the log of finished calls has to do with both.

A slot at ticket `j` shows `j` while it is free or being filled and `j + 1` while it is full or
being emptied, and the two cannot be confused, whatever the tickets (`mark_inj`): that is where the
capacity of at least two is used. So at most one thread owns a slot, and everything else about the
ring follows from following one slot through its four phases.

Nothing here is about wrapping. The sequences and positions of the machine are the tickets modulo
`2 ^ 64`, and the two places where the machine compares them are `look_exact` and `claim_exact`.
The first compares a slot with a position, and a slot is never more than a lap from the positions;
the second compares two positions, one of which a thread has kept since it loaded it. A thread may
keep a position for as long as it likes, so the second one needs an assumption (`Unhurried`), and
`Loaded` carries what it takes to use it: how much had returned when the call began.
-/

set_option autoImplicit false

namespace Tickerplant
namespace MpmcQueue

open Lib
open Interleave

variable {α T : Type}

/-! ## Tickets and slots -/

/-- The position of ticket `j`, as the machine counts it. -/
def History.pos (h : History α T) (j : ℕ) : UInt64 := h.base + UInt64.ofNat j

/-- A power of two that fits a word is at most half its range. -/
theorem Capacity.le (cap : Capacity) : cap.size ≤ 2 ^ 63 := by
  obtain ⟨m, hm⟩ := cap.power
  have hlt := cap.word
  rw [hm] at hlt ⊢
  exact Nat.pow_le_pow_right (by decide) (Nat.lt_succ_iff.mp ((Nat.pow_lt_pow_iff_right
    (by decide)).mp hlt))

/-- So laps and turns of the counter do not interfere. -/
theorem Capacity.dvd (cap : Capacity) : cap.size ∣ 2 ^ 64 := by
  obtain ⟨m, hm⟩ := cap.power
  have hlt := cap.word
  rw [hm] at hlt ⊢
  exact Nat.pow_dvd_pow 2 (Nat.le_of_lt ((Nat.pow_lt_pow_iff_right (by decide)).mp hlt))

/-- The slot the machine finds is the ticket's. -/
theorem maskIndex_pos (cap : Capacity) (h : History α T) (j : ℕ) :
    maskIndex cap.size (h.pos j) = h.place cap j := by
  obtain ⟨m, hm⟩ := cap.power
  rw [maskIndex_eq_mod hm, History.pos, UInt64.toNat_add, UInt64.toNat_ofNat',
    Nat.add_mod_mod, Nat.mod_mod_of_dvd _ cap.dvd]
  rfl

/-- Every ticket has a slot. -/
theorem place_lt (cap : Capacity) (h : History α T) (j : ℕ) : h.place cap j < cap.size :=
  Nat.mod_lt _ (Nat.lt_of_lt_of_le (by decide) cap.two)

/-- A slot comes round after a lap. -/
theorem place_add_size (cap : Capacity) (h : History α T) (j : ℕ) :
    h.place cap (j + cap.size) = h.place cap j := by
  unfold History.place
  rw [← Nat.add_assoc, Nat.add_mod_right]

/-- Two tickets less than a lap apart are in different slots. -/
theorem place_inj {cap : Capacity} {h : History α T} {j j' : ℕ} (hlt : j < j' + cap.size)
    (hlt' : j' < j + cap.size) (hp : h.place cap j = h.place cap j') : j = j' := by
  unfold History.place at hp
  rcases Nat.le_total j j' with hle | hle
  · have := @mod_inj_of_window (h.base.toNat + j) cap.size _ _ (Nat.le_refl _) (by omega)
      (by omega) (by omega) hp
    omega
  · have := @mod_inj_of_window (h.base.toNat + j') cap.size _ _ (by omega) (by omega)
      (Nat.le_refl _) (by omega) hp
    omega

/-- One lap is the least two tickets of a slot can be apart. -/
theorem place_lap {cap : Capacity} {h : History α T} {j j' : ℕ}
    (hp : h.place cap j = h.place cap j') (hlt : j < j') : j + cap.size ≤ j' := by
  by_contra hnot
  exact absurd (place_inj (by omega) (by omega) hp) (Nat.ne_of_lt hlt)

/-- A slot's sequence tells the ticket and whether the slot is being filled or emptied. -/
theorem mark_inj {cap : Capacity} {h : History α T} {j j' : ℕ} {k k' : Kind}
    (hp : h.place cap j = h.place cap j') (hm : mark j k = mark j' k') : j = j' ∧ k = k' := by
  have hcap := cap.two
  cases k <;> cases k' <;> simp only [mark] at hm
  · exact ⟨hm, rfl⟩
  · exact absurd (place_inj (by omega) (by omega) hp) (by omega)
  · exact absurd (place_inj (by omega) (by omega) hp) (by omega)
  · exact ⟨by omega, rfl⟩

/-- Whoever owns a slot leaves it at a higher sequence. -/
theorem mark_lt_leaves (cap : Capacity) (j : ℕ) (k : Kind) : mark j k < leaves cap j k := by
  have := cap.two
  cases k <;> simp only [mark, leaves] <;> omega

/-- What the machine waits for is the ticket's mark. -/
theorem awaited_pos (h : History α T) (j : ℕ) (k : Kind) :
    awaited (h.pos j) k = h.pos (mark j k) := by
  cases k with
  | push => rfl
  | pop =>
    simp only [awaited, mark, History.pos]
    rw [UInt64.ofNat_add, UInt64.add_assoc]
    rfl

/-- What it stores is what the owner leaves. -/
theorem released_pos (cap : Capacity) (h : History α T) (j : ℕ) (k : Kind) :
    released cap (h.pos j) k = h.pos (leaves cap j k) := by
  cases k with
  | push =>
    simp only [released, leaves, History.pos, UInt64.ofNat_add, UInt64.add_assoc]
    rfl
  | pop => simp only [released, leaves, History.pos, UInt64.ofNat_add, UInt64.add_assoc]

/-- Positions less than a turn of the counter apart are told apart. -/
theorem pos_inj {h : History α T} {j j' : ℕ} (hlt : j < j' + 2 ^ 64) (hlt' : j' < j + 2 ^ 64)
    (hp : h.pos j = h.pos j') : j = j' := by
  have := congrArg UInt64.toNat hp
  simp only [History.pos, UInt64.toNat_add, UInt64.toNat_ofNat'] at this
  omega

/-! ## The log -/

/-- What a reply of true moved. -/
def Reply.accepted : Kind → Reply α → Option α
  | .push, .pushed item => some item
  | .pop, .popped item => some item
  | _, _ => none

/-- A successful call, seen from its ticket. -/
structure Passed (α T : Type) where
  thread : T
  ticket : ℕ
  item : α

/-- The successful calls of one kind, in the order they returned. -/
def passed (k : Kind) (log : List (Returned α T)) : List (Passed α T) :=
  log.filterMap fun e => (e.reply.accepted k).map fun x => ⟨e.thread, e.ticket, x⟩

/-- One more call in the log. -/
theorem passed_append (k : Kind) (log : List (Returned α T)) (e : Returned α T) :
    passed k (log ++ [e]) = passed k log ++
      ((e.reply.accepted k).map fun x => (⟨e.thread, e.ticket, x⟩ : Passed α T)).toList := by
  unfold passed
  rw [List.filterMap_append, List.filterMap_cons, List.filterMap_nil]
  cases e.reply.accepted k <;> rfl

theorem passed_length_le (k : Kind) (log : List (Returned α T)) :
    (passed k log).length ≤ log.length := List.length_filterMap_le _ _

/-- Fewer had succeeded earlier. -/
theorem passed_take_le (k : Kind) (log : List (Returned α T)) (n : ℕ) :
    (passed k (log.take n)).length ≤ (passed k log).length :=
  ((List.take_sublist n log).filterMap _).length_le

/-- The ticket the first claim of the run gets. -/
def History.origin (h : History α T) : Kind → ℕ
  | .push => h.first
  | .pop => 0

/-! ## The invariant -/

/-- The thread is between its claim and its last store. -/
def Pc.owner : Pc α → Bool
  | .copying _ => true
  | .releasing _ _ => true
  | _ => false

/-- Thread `t` owns the slot of its ticket, in a call of kind `k`. -/
def Owner (q : State α T) (t : T) (k : Kind) : Prop :=
  ∃ op pc, q.thread t = some (op, pc) ∧ op.kind = k ∧ pc.owner = true

/-- What `t` knows of the position it loaded: it was the count then, and that was after everything
that had returned when the call began. -/
def Loaded (h : History α T) (t : T) (k : Kind) (pos : UInt64) : Prop :=
  pos = h.pos (h.ticket t) ∧ h.ticket t ≤ h.count k ∧
    h.origin k + (passed k (h.log.take (h.since t))).length ≤ h.ticket t

/-- What `t` knows of the position it claimed: it is its own, and comes after all it claimed
before. -/
def Owns (cap : Capacity) (h : History α T) (t : T) (k : Kind) (pos : UInt64) : Prop :=
  pos = h.pos (h.ticket t) ∧ h.origin k ≤ h.ticket t ∧ (h.claims k)[h.ticket t]? = some t ∧
    h.stamp (h.place cap (h.ticket t)) = mark (h.ticket t) k ∧
    ∀ e ∈ passed k h.log, e.thread = t → e.ticket < h.ticket t

/-- What a half-finished call has in its hands. -/
def ThreadOk (cap : Capacity) (h : History α T) (slots : ℕ → Slot α) (t : T) :
    Option (Op α × Pc α) → Prop
  | none => True
  | some (_, .reloading) => True
  | some (_, .undefined) => True
  | some (op, .seeking pos) => Loaded h t op.kind pos
  | some (op, .claiming pos) =>
    -- the look is only worth something if nobody has claimed the position since
    Loaded h t op.kind pos ∧ (h.ticket t = h.count op.kind →
      h.stamp (h.place cap (h.ticket t)) = mark (h.ticket t) op.kind)
  | some (op, .copying pos) =>
    Owns cap h t op.kind pos ∧ ∀ item, op = .push item → h.items[h.ticket t]? = some item
  | some (op, .releasing pos moved) =>
    Owns cap h t op.kind pos ∧ h.items[h.ticket t]? = some moved ∧
      (op.kind = .push → (slots (h.place cap (h.ticket t))).value = moved)

/-- The phase of slot `i`, which has come to ticket `j`. -/
def SlotOk (q : State α T) (h : History α T) (i j : ℕ) : Prop :=
  h.stamp i = mark j .push ∧ h.count .pop ≤ j ∧
      (h.count .push ≤ j ∨ ∃ t, Owner q t .push ∧ h.ticket t = j) ∨
    h.stamp i = mark j .pop ∧ j < h.count .push ∧
      (h.count .pop ≤ j ∨ ∃ t, Owner q t .pop ∧ h.ticket t = j)

/-- The log and the claims tell the same story. A successful call's slot has moved on, and a
claimed ticket whose slot has moved on belongs to a successful call. -/
structure LogOk (cap : Capacity) (h : History α T) (k : Kind) : Prop where
  origin : h.origin k ≤ h.count k
  /-- A success was a claim, of that thread, with that item; and its slot has been released since.
  -/
  sound : ∀ e ∈ passed k h.log, h.origin k ≤ e.ticket ∧ (h.claims k)[e.ticket]? = some e.thread ∧
    h.items[e.ticket]? = some e.item ∧ mark e.ticket k < h.stamp (h.place cap e.ticket)
  /-- A claim whose slot has been released is in the log. Without this clause items could
  disappear. -/
  complete : ∀ j, h.origin k ≤ j → j < h.count k → h.stamp (h.place cap j) ≠ mark j k →
    ∃ e ∈ passed k h.log, e.ticket = j
  /-- No ticket succeeds twice. -/
  once : (passed k h.log).Pairwise fun e f => e.ticket ≠ f.ticket
  /-- A thread finishes its claims in the order it made them. -/
  order : (passed k h.log).Pairwise fun e f => e.thread = f.thread → e.ticket < f.ticket

/-- The invariant. -/
structure Inv (cap : Capacity) (w : World α T) : Prop where
  /-- The machine's positions are the counts of the claims. -/
  position : ∀ k, w.1.position k = w.2.pos (w.2.count k)
  items : w.2.items.length = w.2.count .push
  /-- No push is more than a lap ahead of the pops, and no pop ahead of the pushes. -/
  room : w.2.count .push ≤ w.2.count .pop + cap.size
  held : w.2.count .pop ≤ w.2.count .push
  /-- The machine's sequences are the stamps. -/
  seq : ∀ i, i < cap.size → (w.1.slots i).seq = w.2.pos (w.2.stamp i)
  /-- Every slot has come to one ticket of the lap between the two positions, and is in one of its
  phases there. -/
  slot : ∀ i, i < cap.size → ∃ j, w.2.place cap j = i ∧ w.2.count .push ≤ j + cap.size ∧
    j < w.2.count .pop + cap.size ∧ SlotOk w.1 w.2 i j
  /-- A full slot holds its ticket's item, except for the pop that has already taken it out. -/
  payload : ∀ j x, w.2.items[j]? = some x → w.2.stamp (w.2.place cap j) = mark j .pop →
    (∀ t pos moved, w.1.thread t = some (.pop, .releasing pos moved) → w.2.ticket t ≠ j) →
    (w.1.slots (w.2.place cap j)).value = x
  thread : ∀ t, ThreadOk cap w.2 w.1.slots t (w.1.thread t)
  since : ∀ t, w.2.since t ≤ w.2.log.length
  /-- What the threads said when they returned. -/
  log : ∀ k, LogOk cap w.2 k

variable {cap : Capacity} {w : World α T}

/-! ## What the invariant says of one slot -/

/-- No slot is more than a lap away from either position. -/
theorem Inv.stamp_range (hinv : Inv cap w) {i : ℕ} (hi : i < cap.size) :
    w.2.count .push ≤ w.2.stamp i + cap.size ∧ w.2.stamp i ≤ w.2.count .pop + cap.size := by
  obtain ⟨j, -, hlo, hhi, hphase⟩ := hinv.slot i hi
  rcases hphase with ⟨hs, -, -⟩ | ⟨hs, -, -⟩ <;> rw [hs, mark] <;> omega

/-- A claimed ticket's slot shows the ticket's own mark, or has moved on. -/
theorem Inv.mark_le (hinv : Inv cap w) {j : ℕ} {k : Kind} (hj : j < w.2.count k) :
    mark j k ≤ w.2.stamp (w.2.place cap j) := by
  obtain ⟨j', hp, hlo, hhi, hphase⟩ := hinv.slot _ (place_lt cap w.2 j)
  have hheld := hinv.held
  have hle : j ≤ j' := by
    by_contra hnot
    have := place_lap hp (by omega)
    cases k <;> omega
  rcases Nat.eq_or_lt_of_le hle with rfl | hlt
  · rcases hphase with ⟨hs, hpop, -⟩ | ⟨hs, -, -⟩ <;> rw [hs] <;> cases k <;>
      simp only [mark] <;> omega
  · have := place_lap hp.symm hlt
    have := cap.two
    rcases hphase with ⟨hs, -, -⟩ | ⟨hs, -, -⟩ <;> rw [hs] <;> cases k <;>
      simp only [mark] <;> omega

/-- Two threads that own slots own different ones. -/
theorem owns_inj {h : History α T} {t t' : T} {k k' : Kind} {pos pos' : UInt64}
    (ho : Owns cap h t k pos) (ho' : Owns cap h t' k' pos')
    (hp : h.place cap (h.ticket t) = h.place cap (h.ticket t')) : t = t' := by
  have hm : mark (h.ticket t) k = mark (h.ticket t') k' := by
    rw [← ho.2.2.2.1, ← ho'.2.2.2.1, hp]
  obtain ⟨hj, rfl⟩ := mark_inj hp hm
  have := ho.2.2.1
  rw [hj, ho'.2.2.1] at this
  exact (Option.some.inj this).symm

/-- A thread at its copy or its last store owns its slot. -/
theorem Inv.owns (hinv : Inv cap w) {t : T} {k : Kind} (ho : Owner w.1 t k) :
    ∃ pos, Owns cap w.2 t k pos := by
  obtain ⟨op, pc, ht, rfl, hpc⟩ := ho
  have hok := hinv.thread t
  rw [ht] at hok
  cases pc with
  | seeking _ | reloading | claiming _ | undefined => cases hpc
  | copying pos => exact ⟨pos, hok.1⟩
  | releasing pos moved => exact ⟨pos, hok.1⟩

/-! ## How far the log lags behind the claims -/

/-- No more calls have succeeded than positions were claimed. -/
theorem LogOk.passed_le {h : History α T} {k : Kind} (hlog : LogOk cap h k) :
    h.origin k + (passed k h.log).length ≤ h.count k := by
  have hnodup : ((passed k h.log).map Passed.ticket).Nodup := by
    rw [List.Nodup, List.pairwise_map]
    exact hlog.once
  have hsub : ((passed k h.log).map Passed.ticket).toFinset ⊆
      Finset.Ico (h.origin k) (h.count k) := by
    intro j hj
    obtain ⟨e, he, rfl⟩ := List.mem_map.mp (List.mem_toFinset.mp hj)
    obtain ⟨hlo, hclaim, -, -⟩ := hlog.sound e he
    exact Finset.mem_Ico.mpr ⟨hlo, (List.getElem?_eq_some_iff.mp hclaim).1⟩
  have hcard := Finset.card_le_card hsub
  rw [List.toFinset_card_of_nodup hnodup, List.length_map, Nat.card_Ico] at hcard
  have := hlog.origin
  omega

/-- At most a ring's worth of claims is under way. -/
theorem Inv.count_le (hinv : Inv cap w) (k : Kind) :
    w.2.count k ≤ w.2.origin k + (passed k w.2.log).length + cap.size := by
  have hsub : Finset.Ico (w.2.origin k) (w.2.count k - cap.size) ⊆
      ((passed k w.2.log).map Passed.ticket).toFinset := by
    intro j hj
    obtain ⟨hlo, hhi⟩ := Finset.mem_Ico.mp hj
    have hmoved : w.2.stamp (w.2.place cap j) ≠ mark j k := by
      obtain ⟨j', hp, hlo', -, hphase⟩ := hinv.slot _ (place_lt cap w.2 j)
      have hcount : w.2.count k ≤ w.2.count .push := by
        cases k with
        | push => exact Nat.le_refl _
        | pop => exact hinv.held
      have hlap := place_lap hp.symm (by omega)
      have := cap.two
      rcases hphase with ⟨hs, -, -⟩ | ⟨hs, -, -⟩ <;> rw [hs] <;> cases k <;>
        simp only [mark] <;> omega
    obtain ⟨e, he, rfl⟩ := (hinv.log k).complete j hlo (by omega) hmoved
    exact List.mem_toFinset.mpr (List.mem_map.mpr ⟨e, he, rfl⟩)
  have hcard := Finset.card_le_card hsub
  have hlen := List.toFinset_card_le ((passed k w.2.log).map Passed.ticket)
  rw [Nat.card_Ico] at hcard
  rw [List.length_map] at hlen
  omega

/-- During one call the position moves less than a turn of the counter. -/
theorem Inv.loaded_recent (hinv : Inv cap w) {t : T} {k : Kind} {pos : UInt64}
    (hslow : w.2.log.length - w.2.since t < 2 ^ 63) (hl : Loaded w.2 t k pos) :
    w.2.count k < w.2.ticket t + 2 ^ 64 := by
  obtain ⟨-, -, hold⟩ := hl
  have hcount := hinv.count_le k
  have hcap := cap.le
  have hsplit : (passed k w.2.log).length = (passed k (w.2.log.take (w.2.since t))).length +
      (passed k (w.2.log.drop (w.2.since t))).length := by
    rw [← List.length_append, passed, passed, passed, ← List.filterMap_append,
      List.take_append_drop]
  have hdrop := passed_length_le k (w.2.log.drop (w.2.since t))
  rw [List.length_drop] at hdrop
  omega

/-- **The first comparison.** A look that finds the awaited sequence, at a position nobody has
claimed since, has found the slot in the awaited phase. -/
theorem Inv.look_exact (hinv : Inv cap w) {t : T} {k : Kind} {pos : UInt64}
    (hl : Loaded w.2 t k pos) (hcur : w.2.ticket t = w.2.count k)
    (hseq : (w.1.slots (maskIndex cap.size pos)).seq = awaited pos k) :
    w.2.stamp (w.2.place cap (w.2.ticket t)) = mark (w.2.ticket t) k := by
  have hplace := place_lt cap w.2 (w.2.ticket t)
  rw [hl.1, maskIndex_pos, hinv.seq _ hplace, awaited_pos] at hseq
  obtain ⟨hlo, hhi⟩ := hinv.stamp_range hplace
  have hheld := hinv.held
  have hroom := hinv.room
  have hcap := cap.le
  rw [hcur] at hlo hhi hseq ⊢
  refine pos_inj ?_ ?_ hseq <;> cases k <;> simp only [mark] <;> omega

/-- **The second comparison.** The compare-exchange only succeeds at the current ticket. -/
theorem Inv.claim_exact (hinv : Inv cap w) {t : T} {k : Kind} {pos : UInt64}
    (hslow : w.2.log.length - w.2.since t < 2 ^ 63) (hl : Loaded w.2 t k pos)
    (heq : w.1.position k = pos) : w.2.ticket t = w.2.count k := by
  have hrecent := hinv.loaded_recent hslow hl
  have hle := hl.2.1
  rw [hinv.position k, hl.1] at heq
  exact pos_inj (by omega) hrecent heq.symm

end MpmcQueue
end Tickerplant
