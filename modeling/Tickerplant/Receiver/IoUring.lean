import Mathlib.Algebra.Group.Nat.Defs
import Mathlib.Data.List.Nodup
import Mathlib.Data.List.Range
import Mathlib.Data.List.Perm.Subperm
import Mathlib.Logic.Function.Basic
import Tickerplant.Lib.Interleave

/-!
# The io_uring receive strategy (`IoUringStrategy` in `include/tick/receive_strategy.hpp`)

A ring of `depth` receive buffers shared by three parties. The kernel owns the ones a receive is
armed on, the completion queue the ones it has finished with, and the caller the ones the last
`receive` handed out; the rest are free. `receive` is cut here at every point where the kernel can
come in between, so a completion may arrive before the first peek, during the wait, and between any
two peeks of the reaping loop.

liburing is taken at its word: an armed receive completes once, an entry can be had as long as
fewer than `depth` are unsubmitted, and a submit takes all of them. What `wait` returns is the
environment's choice.

`Owned` says each slot has one owner. `Stocked` adds what is needed for the next datagram to have
somewhere to go; a step keeps it except when `receive` is called with all `depth` buffers handed
out (`step_stocked`), and from there a time-out leaves a ring nothing can wake (`Asleep`).

What a receiver cannot afford is a ring with nothing armed and no completion of a slot on its way:
the next datagram then has nowhere to go, and nothing will ever say so. `Live` is that this is not
so, and it is not an invariant. Between the release of the buffers and the arming at the end of
`receive` a slot may belong to nobody, so `StockedAt` says for each place in `receive` what is
still there: before the wait, something armed or completed and nothing handed out; in the reaping
loop, no more handed out than counted. At the end of the loop whatever is free is armed, and the
time-out is the one way out that does not pass there.
-/

set_option autoImplicit false

namespace Tickerplant

/-- A completion: the slot it is tagged with and the receive's result. -/
structure Cqe where
  /-- `user_data`: the slot the receive was armed on. -/
  tag : UInt64
  /-- How many bytes came, or the error. -/
  res : Int
  deriving DecidableEq, Repr

/-- Where `receive` is. -/
inductive ReceivePc where
  /-- Not in it. What the last call returned, if there was one. -/
  | idle (returned : Option Int)
  /-- The buffers are released, and the ring is about to be peeked at. -/
  | peek (max : ℕ)
  /-- The ring was empty. -/
  | wait (max : ℕ)
  /-- At the head of the reaping loop, with `count` buffers handed out. -/
  | reap (max count : ℕ)
  deriving DecidableEq, Repr

/-- The strategy, with what it shares with the kernel. -/
structure IoUring where
  depth : ℕ
  /-- `inflight_`: the slots the strategy believes somebody has. -/
  inflight : ℕ → Bool
  /-- The first `handed_count_` entries of `handed_out_`. -/
  handedOut : List ℕ
  /-- Entries taken from the submission queue and not submitted. -/
  queued : List ℕ
  /-- The slots the kernel has a receive armed on. -/
  armed : List ℕ
  /-- Completions waiting in the ring, oldest first. -/
  cq : List Cqe
  /-- Where the thread is. -/
  pc : ReceivePc

namespace IoUring

/-- The wait ran out. -/
def ETIME : Int := 62
/-- Nothing is ready. -/
def EAGAIN : Int := 11
/-- A signal came in between. -/
def EINTR : Int := 4

/-- What the caller was handed is free again: `release_handed_out`. -/
def releaseHandedOut (u : IoUring) : IoUring :=
  { u with
    inflight := fun i => if i ∈ u.handedOut then false else u.inflight i
    handedOut := [] }

/-- The loop of `arm_free_slots`. -/
def armLoop (u : IoUring) : List ℕ → IoUring
  | [] => u
  | i :: slots =>
    if u.inflight i then armLoop u slots
    else if u.depth ≤ u.queued.length then u
    else armLoop { u with
      inflight := Function.update u.inflight i true
      queued := u.queued ++ [i] } slots

/-- `io_uring_submit`: what was queued is armed. -/
def submit (u : IoUring) : IoUring := { u with armed := u.armed ++ u.queued, queued := [] }

/-- `arm_free_slots`: everything free is queued, and all of it submitted. -/
def armFreeSlots (u : IoUring) : IoUring := (u.armLoop (List.range u.depth)).submit

/-- `IoUringStrategy(sock, depth)`. -/
def init (depth : ℕ) : IoUring :=
  { depth := if depth < 1 then 1 else depth
    inflight := fun _ => false, handedOut := [], queued := [], armed := [], cq := [],
    pc := .idle none : IoUring }.armFreeSlots

/-- One completion taken off the ring. -/
def reapOne (u : IoUring) (max count : ℕ) (cqe : Cqe) (rest : List Cqe) : IoUring :=
  if u.depth ≤ cqe.tag.toNat then { u with cq := rest, pc := .reap max count }
  else if cqe.res < 0 then
    { u with
      cq := rest
      inflight := Function.update u.inflight cqe.tag.toNat false
      pc := .reap max count }
  else
    { u with
      cq := rest
      handedOut := u.handedOut ++ [cqe.tag.toNat]
      pc := .reap max (count + 1) }

/-- What can happen next: the thread in `receive` goes on, or the kernel completes something. -/
inductive Action where
  /-- `receive` is called, with room for so many. -/
  | call (max : ℕ)
  /-- It looks whether something is there. -/
  | peek
  /-- It waits, and comes back with this. -/
  | wait (w : Int)
  /-- It takes a completion, or sees that there is none. -/
  | reap
  /-- The kernel finishes a receive. -/
  | complete (slot : ℕ) (res : Int)
  /-- A completion with a tag that is no slot's. -/
  | foreign (tag : UInt64) (res : Int)
  deriving DecidableEq, Repr

/-- One step of the thread or of the kernel. `none` is a step that cannot be taken there. -/
def step (u : IoUring) : Action → Option IoUring
  | .call max =>
    match u.pc with
    | .idle _ =>
      if max < 1 then some { u with pc := .idle (some 0) }
      else some { u.releaseHandedOut with pc := .peek max }
    | _ => none
  | .peek =>
    match u.pc with
    | .peek max =>
      if u.cq = [] then some { u with pc := .wait max } else some { u with pc := .reap max 0 }
    | _ => none
  | .wait w =>
    match u.pc with
    | .wait max =>
      -- the wait that runs out returns at once, before anything is armed again
      if w = -ETIME ∨ w = -EAGAIN ∨ w = -EINTR then some { u with pc := .idle (some 0) }
      else if w < 0 then some { u with pc := .idle (some (-1)) }
      else some { u with pc := .reap max 0 }
    | _ => none
  | .reap =>
    match u.pc with
    | .reap max count =>
      if count < max then
        match u.cq with
        | [] => some { u.armFreeSlots with pc := .idle (some count) }
        | cqe :: rest => some (u.reapOne max count cqe rest)
      else some { u.armFreeSlots with pc := .idle (some count) }
    | _ => none
  | .complete slot res =>
    if slot ∈ u.armed then
      some { u with
        armed := u.armed.erase slot
        cq := u.cq ++ [{ tag := UInt64.ofNat slot, res := res }] }
    else none
  | .foreign tag res =>
    if u.depth ≤ tag.toNat then some { u with cq := u.cq ++ [{ tag := tag, res := res }] } else none

/-- The state after a list of steps, if each could be taken. -/
def run (u : IoUring) (actions : List Action) : Option IoUring := Interleave.run step u actions

/-- **What a step can do**, with the guard it passed. -/
inductive Stepped (u : IoUring) : Action → IoUring → Prop where
  | refuse {returned : Option Int} {max : ℕ} : u.pc = .idle returned → max < 1 →
      Stepped u (.call max) { u with pc := .idle (some 0) }
  | release {returned : Option Int} {max : ℕ} : u.pc = .idle returned → ¬ max < 1 →
      Stepped u (.call max) { u.releaseHandedOut with pc := .peek max }
  | nothing {max : ℕ} : u.pc = .peek max → u.cq = [] →
      Stepped u .peek { u with pc := .wait max }
  | ready {max : ℕ} : u.pc = .peek max → u.cq ≠ [] →
      Stepped u .peek { u with pc := .reap max 0 }
  | timedOut {max : ℕ} {w : Int} : u.pc = .wait max → (w = -ETIME ∨ w = -EAGAIN ∨ w = -EINTR) →
      Stepped u (.wait w) { u with pc := .idle (some 0) }
  | failed {max : ℕ} {w : Int} : u.pc = .wait max → w < 0 →
      Stepped u (.wait w) { u with pc := .idle (some (-1)) }
  | woken {max : ℕ} {w : Int} : u.pc = .wait max → ¬ w < 0 →
      Stepped u (.wait w) { u with pc := .reap max 0 }
  | finish {max count : ℕ} : u.pc = .reap max count →
      Stepped u .reap { u.armFreeSlots with pc := .idle (some count) }
  | reaped {max count : ℕ} {cqe : Cqe} {rest : List Cqe} : u.pc = .reap max count →
      u.cq = cqe :: rest → Stepped u .reap (u.reapOne max count cqe rest)
  | completed {slot : ℕ} {res : Int} : slot ∈ u.armed →
      Stepped u (.complete slot res) { u with
        armed := u.armed.erase slot
        cq := u.cq ++ [{ tag := UInt64.ofNat slot, res := res }] }
  | foreign {tag : UInt64} {res : Int} : u.depth ≤ tag.toNat →
      Stepped u (.foreign tag res) { u with cq := u.cq ++ [{ tag := tag, res := res }] }

theorem stepped {u u' : IoUring} {a : Action} (h : u.step a = some u') : Stepped u a u' := by
  unfold step at h
  -- by the action, and by where `receive` is: each has one or two outcomes
  cases a with
  | call max =>
    cases hpc : u.pc <;> simp only [hpc, reduceCtorEq] at h
    split at h <;> cases h
    · exact .refuse hpc ‹_›
    · exact .release hpc ‹_›
  | peek =>
    cases hpc : u.pc <;> simp only [hpc, reduceCtorEq] at h
    split at h <;> cases h
    · exact .nothing hpc ‹_›
    · exact .ready hpc ‹_›
  | wait w =>
    cases hpc : u.pc <;> simp only [hpc, reduceCtorEq] at h
    split at h
    · cases h
      exact .timedOut hpc ‹_›
    · split at h <;> cases h
      · exact .failed hpc ‹_›
      · exact .woken hpc ‹_›
  | reap =>
    cases hpc : u.pc <;> simp only [hpc, reduceCtorEq] at h
    split at h
    · cases hcq : u.cq <;> simp only [hcq] at h <;> cases h
      · exact .finish hpc
      · exact .reaped hpc hcq
    · cases h
      exact .finish hpc
  | complete slot res =>
    simp only at h
    split at h <;> cases h
    exact .completed ‹_›
  | foreign tag res =>
    simp only at h
    split at h <;> cases h
    exact .foreign ‹_›

/-! ## Arming -/

/-- With room in the submission queue the loop arms every slot of its list that is free. -/
theorem armLoop_eq (slots : List ℕ) : ∀ (u : IoUring), slots.Nodup →
    u.queued.length + slots.length ≤ u.depth →
    u.armLoop slots = { u with
      inflight := fun i => u.inflight i || decide (i ∈ slots)
      queued := u.queued ++ slots.filter fun i => !u.inflight i } := by
  induction slots with
  | nil => intro u _ _; simp [armLoop]
  | cons i slots ih =>
    intro u hnd hroom
    obtain ⟨hi, hnd⟩ := List.nodup_cons.mp hnd
    rw [List.length_cons] at hroom
    rw [armLoop]
    cases hfree : u.inflight i with
    | true =>
      rw [if_pos rfl, ih u hnd (by omega)]
      congr 1
      · funext j
        by_cases hj : j = i
        · subst hj; simp [hfree]
        · simp [hj]
      · simp [hfree]
    | false =>
      -- the slot is free and there is an entry for it, so it is armed
      have hroom' : (u.queued ++ [i]).length + slots.length ≤ u.depth := by
        rw [List.length_append, List.length_singleton]
        omega
      rw [if_neg Bool.false_ne_true, if_neg (by omega), ih _ hnd hroom']
      simp only
      congr 1
      · funext j
        by_cases hj : j = i
        · subst hj; simp
        · simp [hj]
      · rw [List.filter_cons_of_pos (by simp [hfree]), List.append_assoc, List.singleton_append]
        congr 2
        refine List.filter_congr fun j hj => ?_
        have hne : j ≠ i := fun heq => hi (heq ▸ hj)
        simp [hne]

/-- Arming gives every free slot to the kernel. -/
theorem armFreeSlots_eq (u : IoUring) (hq : u.queued = []) :
    u.armFreeSlots = { u with
      inflight := fun i => u.inflight i || decide (i < u.depth)
      armed := u.armed ++ (List.range u.depth).filter fun i => !u.inflight i } := by
  unfold armFreeSlots
  rw [armLoop_eq _ u List.nodup_range (by rw [hq, List.length_range]; simp)]
  unfold submit
  simp [hq]

/-! ## Who owns a slot -/

/-- The slots whose completions wait in the ring. -/
def cqSlots (u : IoUring) : List ℕ :=
  u.cq.filterMap fun e => if u.depth ≤ e.tag.toNat then none else some e.tag.toNat

/-- The slots that are not free: the kernel's, the ring's and the caller's. -/
def owners (u : IoUring) : List ℕ := u.armed ++ u.cqSlots ++ u.handedOut

/-- **Every slot has one owner**, and `inflight_` says which ones have one. -/
structure Owned (u : IoUring) : Prop where
  depth_pos : 0 < u.depth
  depth_small : u.depth < 2 ^ 31
  /-- Nothing is left unsubmitted between two steps. -/
  queued : u.queued = []
  /-- No slot is with two of the three. -/
  nodup : u.owners.Nodup
  /-- Nothing else is, either: a tag that is no slot's is no owner's. -/
  range : ∀ i ∈ u.owners, i < u.depth
  /-- `inflight_` does not say who has a slot. That one has it is all it says. -/
  inflight : ∀ i, i < u.depth → (u.inflight i = true ↔ i ∈ u.owners)

namespace Owned

variable {u u' : IoUring}

/-- The owners may change among themselves. -/
theorem of_perm (h : Owned u) (hd : u'.depth = u.depth) (hq : u'.queued = [])
    (hi : u'.inflight = u.inflight) (hp : u'.owners.Perm u.owners) : Owned u' where
  depth_pos := hd ▸ h.depth_pos
  depth_small := hd ▸ h.depth_small
  queued := hq
  nodup := hp.nodup_iff.mpr h.nodup
  range := fun i hmem => hd ▸ h.range i (hp.mem_iff.mp hmem)
  inflight := fun i hlt => by rw [hi, hp.mem_iff]; exact h.inflight i (hd ▸ hlt)

/-- A slot may be given up, and is free then. -/
theorem of_drop (h : Owned u) (hd : u'.depth = u.depth) (hq : u'.queued = []) {gone : List ℕ}
    (hp : u.owners.Perm (u'.owners ++ gone))
    (hi : ∀ i, i < u.depth → (u'.inflight i = true ↔ u.inflight i = true ∧ i ∉ gone)) :
    Owned u' where
  depth_pos := hd ▸ h.depth_pos
  depth_small := hd ▸ h.depth_small
  queued := hq
  nodup := (List.nodup_append.mp (hp.nodup_iff.mp h.nodup)).1
  range := fun i hmem => hd ▸ h.range i (hp.mem_iff.mpr (List.mem_append_left _ hmem))
  inflight := by
    intro i hlt
    rw [hi i (hd ▸ hlt), h.inflight i (hd ▸ hlt), hp.mem_iff, List.mem_append]
    have hdisj := (List.nodup_append.mp (hp.nodup_iff.mp h.nodup)).2.2
    constructor
    · rintro ⟨hmem | hmem, hno⟩
      · exact hmem
      · exact absurd hmem hno
    · exact fun hmem => ⟨Or.inl hmem, fun hg => hdisj i hmem i hg rfl⟩

/-- Nobody loses a slot when the free ones are armed. -/
theorem armFreeSlots (h : Owned u) : Owned u.armFreeSlots ∧
    ∀ i, i < u.depth → i ∈ u.armFreeSlots.owners := by
  have heq := armFreeSlots_eq u h.queued
  have hown : u.armFreeSlots.owners.Perm
      (((List.range u.depth).filter fun i => !u.inflight i) ++ u.owners) := by
    rw [heq]
    unfold owners cqSlots
    simp only [List.append_assoc]
    exact List.perm_append_comm_assoc _ _ _
  -- a free slot is armed now, and any other had an owner before
  have hall : ∀ i, i ∈ u.armFreeSlots.owners ↔ i < u.depth := by
    intro i
    rw [hown.mem_iff, List.mem_append, List.mem_filter, List.mem_range]
    constructor
    · rintro (⟨hlt, -⟩ | hmem)
      · exact hlt
      · exact h.range i hmem
    · intro hlt
      cases hin : u.inflight i with
      | true => exact Or.inr ((h.inflight i hlt).mp hin)
      | false => exact Or.inl ⟨hlt, rfl⟩
  have hdepth : u.armFreeSlots.depth = u.depth := by rw [heq]
  refine ⟨⟨hdepth ▸ h.depth_pos, hdepth ▸ h.depth_small, by rw [heq]; exact h.queued, ?_, ?_, ?_⟩,
    fun i hlt => (hall i).mpr hlt⟩
  · refine hown.nodup_iff.mpr (List.nodup_append.mpr ⟨List.nodup_range.filter _, h.nodup, ?_⟩)
    rintro i hfree j hmem rfl
    rw [List.mem_filter, List.mem_range] at hfree
    rw [(h.inflight i hfree.1).mpr hmem] at hfree
    exact absurd hfree.2 (by simp)
  · exact fun i hmem => hdepth ▸ (hall i).mp hmem
  · intro i hlt
    rw [hdepth] at hlt
    refine iff_of_true ?_ ((hall i).mpr hlt)
    rw [heq]
    simp [hlt]

/-- Where `receive` is has no part in it. -/
theorem at_pc (h : Owned u) (pc : ReceivePc) : Owned { u with pc := pc } :=
  ⟨h.depth_pos, h.depth_small, h.queued, h.nodup, h.range, h.inflight⟩

/-- A tag is the number of its slot again. -/
theorem ofNat_toNat_slot {i d : ℕ} (hi : i < d) (hd : d < 2 ^ 31) :
    (UInt64.ofNat i).toNat = i := by
  rw [UInt64.toNat_ofNat', Nat.mod_eq_of_lt (by omega)]

/-- The completion of an armed slot is tagged with it. -/
theorem cqSlots_complete (h : Owned u) {slot : ℕ} (hs : slot ∈ u.armed) (res : Int) :
    ({ u with
      armed := u.armed.erase slot
      cq := u.cq ++ [{ tag := UInt64.ofNat slot, res := res }] } : IoUring).cqSlots =
      u.cqSlots ++ [slot] := by
  have hlt : slot < u.depth := h.range slot (List.mem_append_left _ (List.mem_append_left _ hs))
  have htag := ofNat_toNat_slot hlt h.depth_small
  unfold cqSlots
  rw [List.filterMap_append]
  simp [htag, Nat.not_le.mpr hlt]

/-- A completion moves its slot from the kernel to the ring. -/
theorem complete (h : Owned u) {slot : ℕ} (hs : slot ∈ u.armed) (res : Int) :
    Owned { u with
      armed := u.armed.erase slot
      cq := u.cq ++ [{ tag := UInt64.ofNat slot, res := res }] } := by
  refine h.of_perm rfl h.queued rfl ?_
  unfold owners
  rw [h.cqSlots_complete hs]
  show (u.armed.erase slot ++ (u.cqSlots ++ [slot]) ++ u.handedOut).Perm
    (u.armed ++ u.cqSlots ++ u.handedOut)
  have hperm := List.perm_cons_erase hs
  refine List.Perm.append_right _ ?_
  rw [← List.append_assoc]
  refine (List.perm_append_singleton slot _).trans ?_
  rw [← List.cons_append]
  exact hperm.symm.append_right _

/-- Nobody's slot waits in the ring because of it. -/
theorem cqSlots_foreign {tag : UInt64} (ht : u.depth ≤ tag.toNat) (res : Int) :
    ({ u with cq := u.cq ++ [{ tag := tag, res := res }] } : IoUring).cqSlots = u.cqSlots := by
  unfold cqSlots
  rw [List.filterMap_append]
  simp [ht]

/-- A completion with a tag of nobody's changes nothing. -/
theorem foreign (h : Owned u) {tag : UInt64} (ht : u.depth ≤ tag.toNat) (res : Int) :
    Owned { u with cq := u.cq ++ [{ tag := tag, res := res }] } :=
  h.of_perm rfl h.queued rfl (by unfold owners; rw [cqSlots_foreign ht])

/-- Reaping a completion frees its slot or hands it to the caller. -/
theorem reapOne (h : Owned u) (max count : ℕ) {cqe : Cqe} {rest : List Cqe}
    (hcq : u.cq = cqe :: rest) : Owned (u.reapOne max count cqe rest) := by
  unfold IoUring.reapOne
  by_cases hforeign : u.depth ≤ cqe.tag.toNat
  · rw [if_pos hforeign]
    have hslots : u.cqSlots
        = ({ u with cq := rest, pc := .reap max count } : IoUring).cqSlots := by
      unfold cqSlots
      rw [hcq, List.filterMap_cons_none (by simp [hforeign])]
    exact h.of_perm rfl h.queued rfl (by unfold owners; rw [hslots])
  rw [if_neg hforeign]
  have hslots : u.cqSlots = cqe.tag.toNat
      :: rest.filterMap fun e => if u.depth ≤ e.tag.toNat then none else some e.tag.toNat := by
    unfold cqSlots
    rw [hcq, List.filterMap_cons, if_neg hforeign]
  -- taking it off the ring takes its slot out of the owners
  have hperm : u.owners.Perm ((u.armed ++ (rest.filterMap fun e =>
      if u.depth ≤ e.tag.toNat then none else some e.tag.toNat) ++ u.handedOut)
        ++ [cqe.tag.toNat]) := by
    unfold owners
    rw [hslots]
    refine List.Perm.trans ?_ (List.perm_append_singleton _ _).symm
    rw [List.append_assoc, List.append_assoc]
    exact List.perm_middle
  -- an error frees the slot; a datagram hands it to the caller
  by_cases herr : cqe.res < 0
  · rw [if_pos herr]
    refine h.of_drop rfl h.queued hperm fun i hi => ?_
    simp only [Function.update_apply, List.mem_singleton]
    by_cases heq : i = cqe.tag.toNat
    · simp [heq]
    · simp [heq]
  · rw [if_neg herr]
    refine h.of_perm rfl h.queued rfl ?_
    refine List.Perm.trans ?_ hperm.symm
    unfold owners cqSlots
    simp only [List.append_assoc]
    exact List.Perm.refl _

/-- `receive` takes its buffers back. -/
theorem release (h : Owned u) : Owned u.releaseHandedOut := by
  refine @Owned.of_drop u _ h rfl h.queued u.handedOut ?_ fun i hi => ?_
  · unfold owners
    show (u.armed ++ u.cqSlots ++ u.handedOut).Perm (u.armed ++ u.cqSlots ++ [] ++ u.handedOut)
    rw [List.append_nil]
  · show (if i ∈ u.handedOut then false else u.inflight i) = true ↔ _
    by_cases hmem : i ∈ u.handedOut
    · simp [hmem]
    · simp [hmem]

/-- Not more slots are handed out than there are. -/
theorem length_handedOut (h : Owned u) : u.handedOut.length ≤ u.depth := by
  have hsub : u.handedOut.Subperm (List.range u.depth) :=
    List.Nodup.subperm (List.nodup_append.mp h.nodup).2.1 fun i hi =>
      List.mem_range.mpr (h.range i (List.mem_append_right _ hi))
  have := hsub.length_le
  rwa [List.length_range] at this

end Owned

/-! ## Where the next datagram goes -/

/-- A slot is armed, or its completion waits in the ring. -/
def Live (u : IoUring) : Prop := u.armed ≠ [] ∨ u.cqSlots ≠ []

/-- With every slot owned and fewer than all of them handed out, one is live. -/
theorem live_of_full {u : IoUring} (hfull : ∀ i, i < u.depth → i ∈ u.owners)
    (hlt : u.handedOut.length < u.depth) : Live u := by
  by_contra hno
  unfold Live at hno
  simp only [ne_eq, not_or, not_not] at hno
  have hown : u.owners = u.handedOut := by
    unfold owners
    rw [hno.1, hno.2]
    rfl
  have hsub : (List.range u.depth).Subperm u.owners :=
    List.Nodup.subperm List.nodup_range fun i hi => hfull i (List.mem_range.mp hi)
  have hle := hsub.length_le
  rw [List.length_range, hown] at hle
  omega

/-- What `Stocked` says at each point of `receive`. -/
def StockedAt (u : IoUring) : ReceivePc → Prop
  | .idle returned => (Live u ∨ u.handedOut.length = u.depth) ∧
      ∀ v, returned = some v → 0 ≤ v → v < u.depth → Live u
  | .peek _ => Live u ∧ u.handedOut = []
  | .wait _ => Live u ∧ u.handedOut = []
  | .reap _ count => u.handedOut.length = count

/-- **The ring is stocked**: every slot has one owner, and the next datagram somewhere to go, as
far as can be said where `receive` is. -/
structure Stocked (u : IoUring) : Prop where
  owned : Owned u
  /-- What that is, by the place. -/
  at_pc : StockedAt u u.pc

section Steps

variable {u u' : IoUring}

/-- The loop ends: whatever is free is armed, and the count is returned. -/
theorem stocked_finish (h : Owned u) {count : ℕ} (hc : u.handedOut.length = count) :
    Stocked { u.armFreeSlots with pc := .idle (some (count : Int)) } := by
  obtain ⟨hown, hfull⟩ := h.armFreeSlots
  have heq := armFreeSlots_eq u h.queued
  have hdepth : u.armFreeSlots.depth = u.depth := by rw [heq]
  have hhanded : u.armFreeSlots.handedOut = u.handedOut := by rw [heq]
  have hlive : u.handedOut.length < u.depth → Live u.armFreeSlots := fun hlt =>
    live_of_full (fun i hi => hfull i (hdepth ▸ hi)) (by rw [hhanded, hdepth]; exact hlt)
  have hle := h.length_handedOut
  refine ⟨hown.at_pc _, ?_, fun v hv h0 hlt => ?_⟩
  · rcases Nat.lt_or_ge u.handedOut.length u.depth with hlt | hge
    · exact Or.inl (hlive hlt)
    · refine Or.inr ?_
      show u.armFreeSlots.handedOut.length = u.armFreeSlots.depth
      rw [hhanded, hdepth]
      omega
  · rw [Option.some.injEq] at hv
    have hlt' : v < (u.armFreeSlots.depth : Int) := hlt
    rw [hdepth] at hlt'
    exact hlive (by omega)

/-- A completion moves its slot from the kernel to the ring. -/
theorem stocked_complete (h : Stocked u) {slot : ℕ} (hs : slot ∈ u.armed) (res : Int) :
    Stocked { u with
      armed := u.armed.erase slot
      cq := u.cq ++ [{ tag := UInt64.ofNat slot, res := res }] } := by
  have hlive : ({ u with
      armed := u.armed.erase slot
      cq := u.cq ++ [{ tag := UInt64.ofNat slot, res := res }] } : IoUring).Live := by
    refine Or.inr ?_
    rw [h.owned.cqSlots_complete hs]
    simp
  refine ⟨h.owned.complete hs res, ?_⟩
  have hat := h.at_pc
  show StockedAt _ u.pc
  cases hpc : u.pc with
  | idle returned => exact ⟨Or.inl hlive, fun _ _ _ _ => hlive⟩
  | peek max => rw [hpc] at hat; exact ⟨hlive, hat.2⟩
  | wait max => rw [hpc] at hat; exact ⟨hlive, hat.2⟩
  | reap max count => rw [hpc] at hat; exact hat

/-- A completion with a tag of nobody's changes nothing. -/
theorem stocked_foreign (h : Stocked u) {tag : UInt64} (ht : u.depth ≤ tag.toNat) (res : Int) :
    Stocked { u with cq := u.cq ++ [{ tag := tag, res := res }] } := by
  have hlive : ({ u with cq := u.cq ++ [{ tag := tag, res := res }] } : IoUring).Live ↔ u.Live := by
    unfold Live
    rw [Owned.cqSlots_foreign ht]
  refine ⟨h.owned.foreign ht res, ?_⟩
  have hat := h.at_pc
  show StockedAt _ u.pc
  cases hpc : u.pc with
  | idle returned =>
    rw [hpc] at hat
    exact ⟨hat.1.imp hlive.mpr id, fun v hv h0 hlt => hlive.mpr (hat.2 v hv h0 hlt)⟩
  | peek max => rw [hpc] at hat; exact ⟨hlive.mpr hat.1, hat.2⟩
  | wait max => rw [hpc] at hat; exact ⟨hlive.mpr hat.1, hat.2⟩
  | reap max count => rw [hpc] at hat; exact hat

/-- Reaping a completion counts the slots handed to the caller. -/
theorem stocked_reapOne (h : Owned u) {max count : ℕ} (hc : u.handedOut.length = count) {cqe : Cqe}
    {rest : List Cqe} (hcq : u.cq = cqe :: rest) : Stocked (u.reapOne max count cqe rest) := by
  refine ⟨h.reapOne max count hcq, ?_⟩
  unfold reapOne
  split
  · exact hc
  · split
    · exact hc
    · show (u.handedOut ++ [cqe.tag.toNat]).length = count + 1
      rw [List.length_append, hc]
      rfl

/-- `receive` takes its buffers back. -/
theorem stocked_release (h : Stocked u) {returned : Option Int} (hpc : u.pc = .idle returned)
    (hback : u.handedOut.length < u.depth) (max : ℕ) :
    Stocked { u.releaseHandedOut with pc := .peek max } := by
  have hat := h.at_pc
  rw [hpc] at hat
  have hlive : Live u := by
    rcases hat.1 with hlive | hfull
    · exact hlive
    · omega
  exact ⟨h.owned.release.at_pc _, hlive, rfl⟩

/-- The calls that leave the kernel something: `receive` is not called with all the buffers
handed out. -/
def HoldsBack (u : IoUring) : Action → Prop
  | .call _ => u.handedOut.length < u.depth
  | _ => True

/-- Every step keeps the ring stocked. -/
theorem step_stocked (h : Stocked u) {a : Action} (ha : HoldsBack u a) (hs : u.step a = some u') :
    Stocked u' := by
  have hat := h.at_pc
  -- by what the step was; only the release needs the caller to have held one back
  cases stepped hs with
  | refuse hpc hmax =>
    have hlt : u.handedOut.length < u.depth := ha
    rw [hpc] at hat
    have hlive : Live u := by
      rcases hat.1 with hlive | hfull
      · exact hlive
      · omega
    exact ⟨h.owned.at_pc _, Or.inl hlive, fun _ _ _ _ => hlive⟩
  | release hpc hmax => exact stocked_release h hpc ha _
  | nothing hpc hcq =>
    rw [hpc] at hat
    exact ⟨h.owned.at_pc _, hat.1, hat.2⟩
  | ready hpc hcq =>
    rw [hpc] at hat
    exact ⟨h.owned.at_pc _, congrArg List.length hat.2⟩
  | timedOut hpc hw =>
    rw [hpc] at hat
    exact ⟨h.owned.at_pc _, Or.inl hat.1, fun _ _ _ _ => hat.1⟩
  | failed hpc hw =>
    rw [hpc] at hat
    exact ⟨h.owned.at_pc _, Or.inl hat.1, fun _ _ _ _ => hat.1⟩
  | woken hpc hw =>
    rw [hpc] at hat
    exact ⟨h.owned.at_pc _, congrArg List.length hat.2⟩
  | finish hpc =>
    rw [hpc] at hat
    exact stocked_finish h.owned hat
  | reaped hpc hcq =>
    rw [hpc] at hat
    exact stocked_reapOne h.owned hat hcq
  | completed hmem => exact stocked_complete h hmem _
  | foreign htag => exact stocked_foreign h htag _

end Steps

/-- The constructor hands every slot to the kernel. -/
theorem stocked_init {depth : ℕ} (hd : depth < 2 ^ 31) : Stocked (init depth) := by
  let fresh : IoUring :=
    { depth := if depth < 1 then 1 else depth
      inflight := fun _ => false, handedOut := [], queued := [], armed := [], cq := [],
      pc := .idle none }
  have hpos : 0 < fresh.depth := by
    show 0 < if depth < 1 then 1 else depth
    split <;> omega
  have hsmall : fresh.depth < 2 ^ 31 := by
    show (if depth < 1 then 1 else depth) < 2 ^ 31
    split <;> omega
  have hfresh : Owned fresh :=
    ⟨hpos, hsmall, rfl, List.nodup_nil, fun i hi => absurd hi (by simp [owners, fresh, cqSlots]),
      fun i _ => by simp [owners, fresh, cqSlots]⟩
  obtain ⟨hown, hfull⟩ := hfresh.armFreeSlots
  have heq := armFreeSlots_eq fresh rfl
  have hdepth : fresh.armFreeSlots.depth = fresh.depth := by rw [heq]
  refine ⟨hown, ?_⟩
  rw [show (init depth).pc = .idle none by
    show fresh.armFreeSlots.pc = _
    rw [heq]]
  refine ⟨Or.inl (live_of_full (fun i hi => hfull i (hdepth ▸ hi)) ?_),
    fun v hv => absurd hv (by simp)⟩
  show fresh.armFreeSlots.handedOut.length < fresh.armFreeSlots.depth
  rw [hdepth, heq]
  exact hpos

/-- What a step keeps, a run keeps. -/
theorem run_stocked {actions : List Action} {u u' : IoUring} (h : Stocked u)
    (hback : Interleave.Along step HoldsBack u actions) (hr : u.run actions = some u') :
    Stocked u' :=
  Interleave.run_along (fun _ _ _ hu ha hs => step_stocked hu ha hs) actions u u' h hback hr

/-- **The ring is never left asleep** in a run in which `receive` is never called with every
buffer handed out: whenever it returns without an error and with fewer than all the buffers, a
receive is armed or the completion of one waits. A completion that belongs to none of the slots
would not do, since no datagram arrives in it. -/
theorem never_asleep (depth : ℕ) (hd : depth < 2 ^ 31) (actions : List Action) (u : IoUring)
    (hrun : (init depth).run actions = some u)
    (hback : Interleave.Along step HoldsBack (init depth) actions) (v : Int)
    (hret : u.pc = .idle (some v)) (hv : 0 ≤ v) (hlt : v < u.depth) : u.Live := by
  have h := (run_stocked (stocked_init hd) hback hrun).at_pc
  rw [hret] at h
  exact h.2 v rfl hv hlt

/-- Two buffers: the datagram of the first is handed out while the second stays armed, so the
call that times out leaves the ring awake. -/
theorem never_asleep_twoBuffers :
    ∃ u, (init 2).run [.complete 0 100, .call 1, .peek, .reap, .reap, .call 1, .peek,
        .wait (-ETIME)] = some u ∧ u.pc = .idle (some 0) ∧ u.Live := by
  refine ⟨_, rfl, rfl, never_asleep 2 (by decide) [.complete 0 100, .call 1, .peek, .reap, .reap,
    .call 1, .peek, .wait (-ETIME)] _ rfl ?_ 0 rfl (by decide) (by decide)⟩
  have hnone : 0 < 2 := by decide
  have hone : 1 < 2 := by decide
  exact .cons rfl trivial <| .cons rfl hnone <| .cons rfl trivial <| .cons rfl trivial <|
    .cons rfl trivial <| .cons rfl hone <| .cons rfl trivial <| .cons rfl trivial trivial

/-! ## Asleep -/

/-- Nothing is armed, nothing waits, and `receive` has nothing to reap. -/
structure Asleep (u : IoUring) : Prop where
  /-- No receive is armed. -/
  armed : u.armed = []
  /-- No completion is on its way. -/
  cq : u.cq = []
  /-- And the thread is not on its way to arm one. -/
  outside : ∀ max count, u.pc ≠ .reap max count

/-- What liburing does when nothing was armed: it completes nothing, and a wait does not
succeed. -/
def Silent : Action → Prop
  | .wait w => w < 0
  | .foreign _ _ => False
  | _ => True

/-- **A ring that is asleep stays asleep**: no call of `receive` arms anything again. -/
theorem step_asleep {u u' : IoUring} (h : Asleep u) {a : Action} (ha : Silent a)
    (hs : u.step a = some u') : Asleep u' := by
  cases stepped hs with
  | refuse _ _ => exact ⟨h.armed, h.cq, nofun⟩
  | release _ _ => exact ⟨h.armed, h.cq, nofun⟩
  | nothing _ _ => exact ⟨h.armed, h.cq, nofun⟩
  | ready _ hcq => exact absurd h.cq hcq
  | timedOut _ _ => exact ⟨h.armed, h.cq, nofun⟩
  | failed _ _ => exact ⟨h.armed, h.cq, nofun⟩
  | woken _ hw => exact absurd ha hw
  | finish hpc => exact absurd hpc (h.outside _ _)
  | reaped hpc _ => exact absurd hpc (h.outside _ _)
  | completed hmem =>
    rw [h.armed] at hmem
    exact absurd hmem List.not_mem_nil
  | foreign _ => exact absurd ha id

/-- So it is over any run: nothing wakes it. -/
theorem run_asleep {actions : List Action} {u u' : IoUring} (h : Asleep u)
    (ha : ∀ a ∈ actions, Silent a) (hr : u.run actions = some u') : Asleep u' := by
  have hstep : ∀ (v : IoUring) a v', Asleep v → Silent a → v.step a = some v' → Asleep v' :=
    fun _ _ _ hv hsilent hs => step_asleep hv hsilent hs
  exact Interleave.run_along hstep actions u u' h (.of_forall ha) hr

/-- One buffer: a datagram is received and handed out, and the next call times out. -/
def burstThenQuiet : List Action :=
  [.complete 0 100, .call 1, .peek, .reap, .reap, .call 1, .peek, .wait (-ETIME)]

/-- **The burst that hands out every buffer**: the call after it releases them, times out before
it arms one, and reports success with nothing armed and nothing waiting. -/
theorem asleep_burstThenQuiet :
    ∃ u, (init 1).run burstThenQuiet = some u ∧ u.pc = .idle (some 0) ∧ (0 : Int) < u.depth ∧
      ¬ (u.armed ≠ [] ∨ u.cq ≠ []) :=
  ⟨_, rfl, rfl, by decide, fun h => h.elim (fun ha => ha rfl) fun hc => hc rfl⟩

end IoUring

end Tickerplant
