import Tickerplant.Receiver.IoUring

/-!
# Every buffer has one owner (`IoUringStrategy` in `include/tick/receive_strategy.hpp`)

A slot is free, armed, completed or with the caller, in every state `receive` and the kernel can
reach between them, and never in two of these places. What the caller was handed stays with it
until the next call of `receive`, whatever completes in between (`slots_one_owner`). Unlike
`Stocked` this asks nothing of the caller.

`Owned` is the invariant, and it is the half of `Stocked` that every step keeps. It counts three
owners; that a slot is free is that it is in none of them, which is the one thing `inflight_` says.
So the four places are told apart by `inflight_` and by the three lists together, and
`Owned.one_place` is a look at each.

The bytes of a slot are the kernel's while a receive is armed on it, and the caller reads them
while they are handed out. Two owners at a time would be a datagram changing under its reader.
-/

set_option autoImplicit false

namespace Tickerplant
namespace IoUring

/-- Where a slot can be. -/
inductive Place where
  | free
  | armed
  | completed
  | handedOut
  deriving DecidableEq, Repr

/-- The slot is there. -/
def Holds (u : IoUring) (i : ℕ) : Place → Prop
  | .free => u.inflight i = false
  | .armed => i ∈ u.armed
  | .completed => i ∈ u.cqSlots
  | .handedOut => i ∈ u.handedOut

section Places

variable {u u' : IoUring}

/-- A slot that is owned is with one of the three, and with no other. -/
theorem Owned.disjoint (h : Owned u) {i : ℕ} :
    (i ∈ u.armed → i ∉ u.cqSlots ∧ i ∉ u.handedOut) ∧ (i ∈ u.cqSlots → i ∉ u.handedOut) := by
  obtain ⟨hfirst, -, hhanded⟩ := List.nodup_append.mp h.nodup
  obtain ⟨-, -, hcq⟩ := List.nodup_append.mp hfirst
  refine ⟨fun harmed => ⟨fun hmem => hcq i harmed i hmem rfl, fun hmem => ?_⟩, fun hmem' hmem => ?_⟩
  · exact hhanded i (List.mem_append_left _ harmed) i hmem rfl
  · exact hhanded i (List.mem_append_right _ hmem') i hmem rfl

/-- An owner is one of the three. -/
theorem mem_owners {i : ℕ} :
    i ∈ u.owners ↔ i ∈ u.armed ∨ i ∈ u.cqSlots ∨ i ∈ u.handedOut := by
  rw [owners, List.mem_append, List.mem_append, or_assoc]

/-- **Every slot is in one place.** -/
theorem Owned.one_place (h : Owned u) {i : ℕ} (hi : i < u.depth) : ∃! place, u.Holds i place := by
  obtain ⟨harmed, hcompleted⟩ := h.disjoint (i := i)
  have hinflight := (h.inflight i hi).trans mem_owners
  cases hfree : u.inflight i with
  | false =>
    -- `inflight_` says nobody has it
    have hnone : ¬ (i ∈ u.armed ∨ i ∈ u.cqSlots ∨ i ∈ u.handedOut) := fun hmem => by
      rw [hinflight.mpr hmem] at hfree
      exact Bool.noConfusion hfree
    refine ⟨.free, hfree, fun place hplace => ?_⟩
    cases place with
    | free => rfl
    | armed => exact absurd (Or.inl hplace) hnone
    | completed => exact absurd (Or.inr (Or.inl hplace)) hnone
    | handedOut => exact absurd (Or.inr (Or.inr hplace)) hnone
  | true =>
    -- somebody has it, and only one of them
    have hnot : ¬ u.Holds i .free := fun hplace => by
      rw [Holds, hfree] at hplace
      exact Bool.noConfusion hplace
    rcases hinflight.mp hfree with hmem | hmem | hmem
    · refine ⟨.armed, hmem, fun place hplace => ?_⟩
      cases place with
      | free => exact absurd hplace hnot
      | armed => rfl
      | completed => exact absurd hplace (harmed hmem).1
      | handedOut => exact absurd hplace (harmed hmem).2
    · refine ⟨.completed, hmem, fun place hplace => ?_⟩
      cases place with
      | free => exact absurd hplace hnot
      | armed => exact absurd hmem (harmed hplace).1
      | completed => rfl
      | handedOut => exact absurd hplace (hcompleted hmem)
    · refine ⟨.handedOut, hmem, fun place hplace => ?_⟩
      cases place with
      | free => exact absurd hplace hnot
      | armed => exact absurd hmem (harmed hplace).2
      | completed => exact absurd hmem (hcompleted hplace)
      | handedOut => rfl

end Places

/-! ## Over a run -/

section Steps

variable {u u' : IoUring} {a : Action} {actions : List Action}

/-- No step gives a slot a second owner or loses one. -/
theorem step_owned (h : Owned u) (hs : u.step a = some u') : Owned u' := by
  cases stepped hs with
  | refuse => exact h.at_pc _
  | release => exact h.release.at_pc _
  | nothing => exact h.at_pc _
  | ready => exact h.at_pc _
  | timedOut => exact h.at_pc _
  | failed => exact h.at_pc _
  | woken => exact h.at_pc _
  | finish => exact h.armFreeSlots.1.at_pc _
  | reaped _ hcq => exact h.reapOne _ _ hcq
  | completed hmem => exact h.complete hmem _
  | foreign htag => exact h.foreign htag _

/-- The ring stays as large as it was made. -/
theorem step_depth (h : Owned u) (hs : u.step a = some u') : u'.depth = u.depth := by
  cases stepped hs with
  | finish =>
    show u.armFreeSlots.depth = u.depth
    rw [armFreeSlots_eq u h.queued]
  | reaped =>
    unfold reapOne
    split
    · rfl
    · split <;> rfl
  | _ => rfl

/-- Only a call of `receive` takes back what was handed out. -/
theorem step_handedOut (h : Owned u) (ha : ∀ max, a ≠ .call max) (hs : u.step a = some u') {i : ℕ}
    (hi : i ∈ u.handedOut) : i ∈ u'.handedOut := by
  cases stepped hs with
  | refuse => exact absurd rfl (ha _)
  | release => exact absurd rfl (ha _)
  | finish =>
    show i ∈ u.armFreeSlots.handedOut
    rw [armFreeSlots_eq u h.queued]
    exact hi
  | reaped =>
    unfold reapOne
    split
    · exact hi
    · split
      · exact hi
      · exact List.mem_append_left _ hi
  | _ => exact hi

/-- So it is over a run. -/
theorem run_owned (h : Owned u) (hr : u.run actions = some u') :
    Owned u' ∧ u'.depth = u.depth := by
  have hstep : ∀ (v : IoUring) a v', Owned v ∧ v.depth = u.depth → True → v.step a = some v' →
      Owned v' ∧ v'.depth = u.depth := fun _ _ _ hv _ hs =>
    ⟨step_owned hv.1 hs, (step_depth hv.1 hs).trans hv.2⟩
  exact Interleave.run_along hstep actions u u' ⟨h, rfl⟩ (.of_forall fun _ _ => trivial) hr

/-- **Between two calls** a slot of the caller's stays the caller's. -/
theorem run_handedOut (h : Owned u) (hcalls : ∀ max, .call max ∉ actions)
    (hr : u.run actions = some u') {i : ℕ} (hi : i ∈ u.handedOut) : i ∈ u'.handedOut := by
  have hstep : ∀ (v : IoUring) a v', Owned v ∧ i ∈ v.handedOut → (∀ max, a ≠ .call max) →
      v.step a = some v' → Owned v' ∧ i ∈ v'.handedOut := fun _ _ _ hv ha hs =>
    ⟨step_owned hv.1 hs, step_handedOut hv.1 ha hs hv.2⟩
  exact (Interleave.run_along hstep actions u u' ⟨h, hi⟩
    (.of_forall fun _ ha max heq => hcalls max (heq ▸ ha)) hr).2

end Steps

/-- `IoUringStrategy(sock, depth)`, of any `int`. -/
def initInt (depth : Int32) : IoUring := init depth.toInt.toNat

/-- The constructor arms every slot. -/
theorem owned_initInt (depth : Int32) : Owned (initInt depth) := by
  have hlt := depth.toInt_lt
  exact (stocked_init (by omega)).owned

/-- `depth < 1 ? 1 : depth`, and arming changes nothing of it. -/
theorem depth_initInt (depth : Int32) : (initInt depth).depth = max 1 depth.toInt.toNat := by
  rw [initInt, init, armFreeSlots_eq _ rfl]
  show (if depth.toInt.toNat < 1 then 1 else depth.toInt.toNat) = _
  split <;> omega

/-- **Every buffer has exactly one owner**: for any depth, in every state that calls of `receive`
and completions lead to in any order. A slot is free, armed, completed or with the caller; none is
lost and none is there twice; no more than all are handed out; and what is handed out is not armed
before `receive` is called again. -/
theorem slots_one_owner (depth : Int32) (actions : List Action) (u : IoUring)
    (hrun : (initInt depth).run actions = some u) :
    u.depth = max 1 depth.toInt.toNat ∧
      (∀ i, i < u.depth → ∃! place, u.Holds i place) ∧
      u.owners.Nodup ∧ (∀ i ∈ u.owners, i < u.depth) ∧
      u.handedOut.length ≤ u.depth ∧
      ∀ (later : List Action) (v : IoUring), (∀ max, .call max ∉ later) →
        u.run later = some v → ∀ i ∈ u.handedOut, i ∈ v.handedOut ∧ i ∉ v.armed := by
  obtain ⟨h, hdepth⟩ := run_owned (owned_initInt depth) hrun
  refine ⟨hdepth.trans (depth_initInt depth), fun i hi => h.one_place hi, h.nodup, h.range,
    h.length_handedOut,
    fun later v hcalls hlater i hi => ?_⟩
  have hkept := run_handedOut h hcalls hlater hi
  exact ⟨hkept, fun harmed => ((run_owned h hlater).1.disjoint.1 harmed).2 hkept⟩

/-- Two buffers, one of them failed and one handed out. -/
theorem slots_one_owner_twoBuffers :
    ∃ u, (initInt 2).run [.complete 1 (-5), .complete 0 100, .call 4, .peek, .reap, .reap,
        .reap] = some u ∧ u.handedOut = [0] ∧
      u.depth = max 1 (2 : Int32).toInt.toNat ∧
      (∀ i, i < u.depth → ∃! place, u.Holds i place) ∧
      u.owners.Nodup ∧ (∀ i ∈ u.owners, i < u.depth) ∧
      u.handedOut.length ≤ u.depth ∧
      ∀ (later : List Action) (v : IoUring), (∀ max, .call max ∉ later) →
        u.run later = some v → ∀ i ∈ u.handedOut, i ∈ v.handedOut ∧ i ∉ v.armed :=
  ⟨_, rfl, rfl, slots_one_owner 2 [.complete 1 (-5), .complete 0 100, .call 4, .peek, .reap,
    .reap, .reap] _ rfl⟩

end IoUring
end Tickerplant
