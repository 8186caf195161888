import Tickerplant.Lib.Reassembly
import Tickerplant.Sequencer.Basic

/-!
# The reorder window, and what it stands for

The window is a masked ring that is reused every lap. `WindowOk` is what makes reading it sound:
every slot in use sits at its own sequence's index, holds a sequence less than one lap ahead of the
front, and is counted in `pending`. Under it a sequencer *is* a reassembler
(`Lib/Reassembly.lean`), and `abs` says which one.

The rest of the file is one lemma per primitive of the class: each keeps `WindowOk`, and each is a
few moves of the reassembler. `release` is one `release`, `dropFront` one `skip`, `drain` a run of
releases, and `skip_to` either a run of releases and skips or a single `jump`.

Everything here is below the 64-bit wrap: `Far` says how far. The clauses of `Windowed` do not
mention that distance, and hold at any sequence numbers; the files that follow the front all the
way to the wrap use them alone. `WindowOk` adds the distance, which is what turns the 64-bit sums
of the code into sums of numbers, and so into moves of a reassembler.

`Frame` is the other half of each primitive: the fields of the state machine, which moving the
front does not touch. It is one record because `drain` and `skip_to` are loops, and an induction
for each field would be the same induction six times.
-/

set_option autoImplicit false

namespace Tickerplant
namespace Sequencer

open Lib

variable {c : SequencerConfig}

/-- More than one window short of the 64-bit wrap. -/
def Far (c : SequencerConfig) (x : UInt64) : Prop := x.toNat + c.capacity < 2 ^ 64

instance (c : SequencerConfig) (x : UInt64) : Decidable (Far c x) :=
  inferInstanceAs (Decidable (_ < _))

/-- What every slot in use says, wherever the front is. -/
structure Windowed (c : SequencerConfig) (q : Sequencer) : Prop where
  /-- A slot in use is the slot of its own sequence, so a sequence is held in one place or none. -/
  home : ∀ i, (q.window.slots i).present = true →
    maskIndex c.capacity (q.window.slots i).seq = i
  /-- Nothing held has been passed: a slot is vacated before the front moves on. -/
  ge : ∀ i, (q.window.slots i).present = true →
    q.expected.toNat ≤ (q.window.slots i).seq.toNat
  /-- Nothing held is a lap ahead, so two sequences held are held in two slots. -/
  lt : ∀ i, (q.window.slots i).present = true →
    (q.window.slots i).seq.toNat < q.expected.toNat + c.capacity
  /-- The count is the number of slots in use. `settle` and `poll` go by it, not by the slots. -/
  pending : q.pending.toNat = q.window.occupied c.capacity

/-- A sound window that is clear of the 64-bit wrap, with the front and with all it holds. -/
structure WindowOk (c : SequencerConfig) (q : Sequencer) : Prop extends Windowed c q where
  /-- Whatever is held can be handed on and the front moved past it without a wrap. -/
  far : ∀ i, (q.window.slots i).present = true → Far c (q.window.slots i).seq
  /-- So can the front itself be moved by a window. -/
  front : q.expected.toNat + c.capacity ≤ 2 ^ 64

/-- The half that holds at any sequence numbers. -/
theorem WindowOk.windowed {q : Sequencer} (h : WindowOk c q) : Windowed c q := h.toWindowed

/-! ## Reading the window -/

/-- Masking is taking the remainder, the capacity being a power of two. -/
theorem maskIndex_eq (x : UInt64) : maskIndex c.capacity x = x.toNat % c.capacity :=
  let ⟨_, hk⟩ := c.capacity_pow
  maskIndex_eq_mod hk x

/-- A sequence is held where its slot is in use and says so: a `present` flag alone would hand back
a message of an earlier lap. -/
theorem holds_iff {q : Sequencer} {x : UInt64} : q.holds c x = true ↔
    (q.window.slots (maskIndex c.capacity x)).present = true ∧
      (q.window.slots (maskIndex c.capacity x)).seq = x :=
  SlotRing.has_iff

namespace Windowed

variable {q : Sequencer}

/-- What is held has not been passed. -/
theorem ge_of_holds (h : Windowed c q) {x : UInt64} (hx : q.holds c x = true) :
    q.expected.toNat ≤ x.toNat := by
  obtain ⟨hp, hs⟩ := holds_iff.mp hx
  simpa [hs] using h.ge _ hp

/-- What is held is less than a window ahead. -/
theorem lt_of_holds (h : Windowed c q) {x : UInt64} (hx : q.holds c x = true) :
    x.toNat < q.expected.toNat + c.capacity := by
  obtain ⟨hp, hs⟩ := holds_iff.mp hx
  simpa [hs] using h.lt _ hp

/-- A slot in use whose sequence is in the window of `x` is the slot of `x` only if it holds
`x`. -/
theorem holds_of_present (h : Windowed c q) {x : UInt64} (hlo : q.expected.toNat ≤ x.toNat)
    (hhi : x.toNat < q.expected.toNat + c.capacity)
    (hp : (q.window.slots (maskIndex c.capacity x)).present = true) : q.holds c x = true := by
  have hhome := h.home _ hp
  have hge := h.ge _ hp
  have hlt := h.lt _ hp
  refine holds_iff.mpr ⟨hp, UInt64.toNat_inj.mp ?_⟩
  generalize (q.window.slots (maskIndex c.capacity x)).seq = y at hhome hge hlt
  rw [maskIndex_eq, maskIndex_eq] at hhome
  exact mod_inj_of_window hge hlt hlo hhi hhome

/-- Two held sequences are held in two slots. -/
theorem index_ne (h : Windowed c q) {x y : UInt64} (hx : q.holds c x = true) (hne : x ≠ y)
    (hlo : q.expected.toNat ≤ y.toNat) (hhi : y.toNat < q.expected.toNat + c.capacity) :
    maskIndex c.capacity x ≠ maskIndex c.capacity y := by
  intro heq
  rw [maskIndex_eq, maskIndex_eq] at heq
  exact hne (UInt64.toNat_inj.mp
    (mod_inj_of_window (h.ge_of_holds hx) (h.lt_of_holds hx) hlo hhi heq))

/-- The count is zero exactly when nothing is held. -/
theorem pending_eq_zero_iff (h : Windowed c q) :
    q.pending = 0 ↔ ∀ x, q.holds c x = false := by
  obtain ⟨k, hk⟩ := c.capacity_pow
  rw [← UInt64.toNat_inj, h.pending, UInt64.toNat_zero]
  constructor
  · intro h0 x
    by_contra hx
    rw [Bool.not_eq_false] at hx
    exact absurd h0 (Nat.pos_iff_ne_zero.mp (SlotRing.occupied_pos_of_has hk hx))
  · intro hall
    rw [SlotRing.occupied_eq_zero_iff]
    intro i _
    by_contra hp
    rw [Bool.not_eq_false] at hp
    have hx := hall (q.window.slots i).seq
    rw [← Bool.not_eq_true, holds_iff, h.home i hp] at hx
    exact hx ⟨hp, rfl⟩

end Windowed

/-- What is held is clear of the wrap. -/
theorem WindowOk.far_of_holds {q : Sequencer} (h : WindowOk c q) {x : UInt64}
    (hx : q.holds c x = true) : Far c x := by
  obtain ⟨hp, hs⟩ := holds_iff.mp hx
  simpa [hs] using h.far _ hp

/-! ## What a sequencer stands for -/

/-- The messages in the window, by number. -/
def heldView (c : SequencerConfig) (q : Sequencer) : ℕ → Option Payload := fun n =>
  if n < 2 ^ 64 ∧ q.holds c (UInt64.ofNat n) = true then some (q.stored c (UInt64.ofNat n))
  else none

/-- The calls made to the sink, by number. -/
def sinkView (q : Sequencer) : List (ℕ × Payload) := q.sink.map fun d => (d.1.toNat, d.2)

/-- The reassembler a sequencer stands for, given which messages it has taken so far and how many
sequences it has given up on. -/
def abs (c : SequencerConfig) (q : Sequencer) (taken : List (ℕ × Payload)) (lost : ℕ) :
    Reassembly Payload :=
  { next := q.expected.toNat, held := heldView c q, taken := taken, log := sinkView q,
    lost := lost }

/-- The view at the number of a 64-bit word is what the window says of that word. -/
theorem heldView_toNat {q : Sequencer} (x : UInt64) :
    heldView c q x.toNat = if q.holds c x = true then some (q.stored c x) else none := by
  unfold heldView
  rw [UInt64.ofNat_toNat]
  simp [x.toNat_lt]

/-- A message in the view is a message in the window. -/
theorem heldView_eq_some {q : Sequencer} {n : ℕ} {p : Payload} (h : heldView c q n = some p) :
    ∃ x : UInt64, x.toNat = n ∧ q.holds c x = true ∧ q.stored c x = p := by
  unfold heldView at h
  split at h
  · rename_i hn
    refine ⟨UInt64.ofNat n, ?_, hn.2, by simpa using h⟩
    rw [UInt64.toNat_ofNat', Nat.mod_eq_of_lt hn.1]
  · exact absurd h (by simp)

/-- Two views agree when they agree at every 64-bit number. -/
theorem heldView_ext {q : Sequencer} {g : ℕ → Option Payload}
    (hx : ∀ x : UInt64, heldView c q x.toNat = g x.toNat) (hg : ∀ n, 2 ^ 64 ≤ n → g n = none) :
    heldView c q = g := by
  funext n
  rcases Nat.lt_or_ge n (2 ^ 64) with hn | hn
  · have := hx (UInt64.ofNat n)
    rwa [UInt64.toNat_ofNat', Nat.mod_eq_of_lt hn] at this
  · rw [hg n hn]
    unfold heldView
    rw [if_neg (fun h => absurd h.1 (Nat.not_lt.mpr hn))]

/-- There is nothing in the view beyond the 64-bit numbers. -/
theorem heldView_big {q : Sequencer} {n : ℕ} (hn : 2 ^ 64 ≤ n) : heldView c q n = none := by
  unfold heldView
  rw [if_neg (fun h => absurd h.1 (Nat.not_lt.mpr hn))]

/-- The view only reads the window. -/
theorem heldView_congr {q q' : Sequencer} (h : q'.window = q.window) :
    heldView c q' = heldView c q := by
  unfold heldView holds stored
  rw [h]

/-- With nothing held the view is empty. -/
theorem heldView_none {q : Sequencer} (h : ∀ x, q.holds c x = false) :
    heldView c q = fun _ => none := by
  refine heldView_ext (fun x => ?_) (fun _ _ => rfl)
  rw [heldView_toNat, h x]
  rfl

/-! ## Moving the front by one -/

section Front

variable {q q' : Sequencer}

/-- A sequence that is not held is in no slot. -/
theorem seq_ne_of_not_held (home : ∀ i, (q.window.slots i).present = true →
      maskIndex c.capacity (q.window.slots i).seq = i) {x : UInt64} (hx : q.holds c x = false)
    {i : ℕ} (hp : (q.window.slots i).present = true) : (q.window.slots i).seq ≠ x := by
  rintro rfl
  rw [← Bool.not_eq_true, holds_iff, home i hp] at hx
  exact hx ⟨hp, rfl⟩

/-- What a release leaves in use was in use before, and is not the sequence released. -/
theorem release_slots (home : ∀ i, (q.window.slots i).present = true →
      maskIndex c.capacity (q.window.slots i).seq = i) {i : ℕ}
    (hp : ((q.release c).window.slots i).present = true) :
    (q.release c).window.slots i = q.window.slots i ∧
      (q.window.slots i).present = true ∧ (q.window.slots i).seq ≠ q.expected := by
  obtain ⟨hne, heq⟩ := SlotRing.present_of_vacate hp
  have hp' : (q.window.slots i).present = true := heq ▸ hp
  exact ⟨heq, hp', fun hs => hne (hs ▸ (home i hp').symm)⟩

namespace Windowed

/-- The front moves on by one once its own slot is vacant. At the last sequence there is, nothing
is left beyond it and the front comes round to zero. -/
theorem next (h : Windowed c q) (hexp : q'.expected = q.expected + 1)
    (hslots : ∀ i, (q'.window.slots i).present = true → q'.window.slots i = q.window.slots i ∧
      (q.window.slots i).present = true ∧ (q.window.slots i).seq ≠ q.expected)
    (hpending : q'.pending.toNat = q'.window.occupied c.capacity) : Windowed c q' := by
  have hgt : ∀ i, (q'.window.slots i).present = true →
      q'.expected.toNat = q.expected.toNat + 1 ∧
        q.expected.toNat < (q'.window.slots i).seq.toNat := by
    intro i hp
    obtain ⟨heq, hp', hne⟩ := hslots i hp
    have hge := h.ge i hp'
    have hne' : (q.window.slots i).seq.toNat ≠ q.expected.toNat :=
      fun heq => hne (UInt64.toNat_inj.mp heq)
    have hmax := (q.window.slots i).seq.toNat_lt
    rw [hexp, toNat_succ (by omega), heq]
    omega
  refine ⟨fun i hp => ?_, fun i hp => ?_, fun i hp => ?_, hpending⟩
  · obtain ⟨heq, hp', _⟩ := hslots i hp
    rw [heq]
    exact h.home i hp'
  · obtain ⟨hnext, hlt⟩ := hgt i hp
    omega
  · obtain ⟨hnext, _⟩ := hgt i hp
    obtain ⟨heq, hp', _⟩ := hslots i hp
    have hlt := h.lt i hp'
    rw [heq, hnext]
    omega

/-- A release vacates the front's slot and moves on. -/
theorem release (h : Windowed c q) (hh : q.holds c q.expected = true) :
    Windowed c (q.release c) := by
  obtain ⟨k, hk⟩ := c.capacity_pow
  refine h.next rfl (fun i hp => release_slots h.home hp) ?_
  have hocc := SlotRing.occupied_vacate hk (s := q.expected) (holds_iff.mp hh).1
  have hp := h.pending
  show (q.pending - 1).toNat = (q.window.vacate c.capacity q.expected).occupied c.capacity
  rw [toNat_sub_of_le (by rw [UInt64.toNat_one]; omega), UInt64.toNat_one]
  omega

/-- So does a drop, which had no slot to vacate. -/
theorem dropFront (h : Windowed c q) (hn : q.holds c q.expected = false) :
    Windowed c q.dropFront :=
  h.next rfl (fun _ hp => ⟨rfl, hp, seq_ne_of_not_held h.home hn hp⟩) h.pending

end Windowed

end Front

/-! ## `release` -/

section Release

variable {q : Sequencer}

/-- Where something is held at the front, moving on does not wrap. -/
theorem release_holds_expected (h : WindowOk c q) (hh : q.holds c q.expected = true) :
    (q.release c).expected.toNat = q.expected.toNat + 1 := by
  have hf := h.far_of_holds hh
  have hc := c.capacity_pos
  unfold Far at hf
  show (q.expected + 1).toNat = _
  exact toNat_succ (by omega)

/-- A release keeps the distance: what is left was held before. -/
theorem WindowOk.release (h : WindowOk c q) (hh : q.holds c q.expected = true) :
    WindowOk c (q.release c) := by
  have hexp := release_holds_expected h hh
  have hf := h.far_of_holds hh
  have hw := h.windowed.release hh
  unfold Far at hf
  refine ⟨hw, fun i hp => ?_, by rw [hexp]; omega⟩
  obtain ⟨heq, hp', _⟩ := release_slots h.home hp
  rw [heq]
  exact h.far i hp'

/-- A release takes the front out of the view and leaves the rest as it was. -/
theorem heldView_release (h : Windowed c q) :
    heldView c (q.release c) = Function.update (heldView c q) q.expected.toNat none := by
  have hc := c.capacity_pos
  refine heldView_ext (fun x => ?_) (fun n hn => ?_)
  · rw [Function.update_apply]
    by_cases hx : x = q.expected
    · subst hx
      rw [if_pos rfl, heldView_toNat, if_neg]
      exact fun hcon => absurd (SlotRing.has_vacate_self (r := q.window)) (by
        rw [show (q.window.vacate c.capacity q.expected).has c.capacity q.expected = true from hcon]
        simp)
    · rw [if_neg (fun he => hx (UInt64.toNat_inj.mp he)), heldView_toNat, heldView_toNat]
      by_cases hidx : maskIndex c.capacity x = maskIndex c.capacity q.expected
      · -- the slot of `x` is the front's slot, and held the front
        have hno : q.holds c x = false := by
          rw [← Bool.not_eq_true]
          exact fun hxh => h.index_ne hxh hx (Nat.le_refl _) (by omega) hidx
        have hno' : (q.release c).holds c x = false := by
          rw [← Bool.not_eq_true]
          intro hcon
          have hp := (holds_iff.mp hcon).1
          exact (SlotRing.present_of_vacate hp).1 hidx
        rw [hno, hno']
        rfl
      -- any other slot is as it was
      · have hhas : (q.release c).holds c x = q.holds c x :=
          SlotRing.has_vacate_ne hidx
        have hst : (q.release c).stored c x = q.stored c x :=
          SlotRing.bytesOf_vacate_ne hidx
        rw [hhas, hst]
  · rw [Function.update_apply, heldView_big hn]
    simp

/-- A release is the reassembler's. -/
theorem abs_release (h : WindowOk c q) (hh : q.holds c q.expected = true)
    (taken : List (ℕ × Payload)) (lost : ℕ) :
    Reassembly.Step (abs c q taken lost) (abs c (q.release c) taken lost) := by
  have hheld : (abs c q taken lost).held (abs c q taken lost).next
      = some (q.stored c q.expected) := by
    show heldView c q q.expected.toNat = _
    rw [heldView_toNat, if_pos hh]
  have hstep := Reassembly.Step.release (abs c q taken lost) _ hheld
  have habs : abs c (q.release c) taken lost = { abs c q taken lost with
      next := (abs c q taken lost).next + 1
      held := Function.update (abs c q taken lost).held (abs c q taken lost).next none
      log := (abs c q taken lost).log ++
        [((abs c q taken lost).next, q.stored c q.expected)] } := by
    simp only [abs, release_holds_expected h hh, heldView_release h.windowed]
    simp [sinkView, Sequencer.release, hand]
  rw [habs]
  exact hstep

end Release

/-! ## `drain` -/

/-- The fields that moving the front leaves alone. -/
structure Frame (q q' : Sequencer) : Prop where
  /-- None of the primitives that move the front decides anything; `settle` and `poll` do. -/
  state : q'.state = q.state
  gapSinceNs : q'.gapSinceNs = q.gapSinceNs
  recoveryDeadlineNs : q'.recoveryDeadlineNs = q.recoveryDeadlineNs
  recoveryEnd : q'.recoveryEnd = q.recoveryEnd
  recoveryAttempts : q'.recoveryAttempts = q.recoveryAttempts
  started : q'.started = q.started

/-- A frame composes, so that a loop of moves is one. -/
theorem Frame.refl (q : Sequencer) : Frame q q := ⟨rfl, rfl, rfl, rfl, rfl, rfl⟩

theorem Frame.trans {q q' q'' : Sequencer} (h : Frame q q') (h' : Frame q' q'') : Frame q q'' :=
  ⟨h'.1.trans h.1, h'.2.trans h.2, h'.3.trans h.3, h'.4.trans h.4, h'.5.trans h.5,
    h'.6.trans h.6⟩

theorem Frame.release (q : Sequencer) : Frame q (q.release c) := ⟨rfl, rfl, rfl, rfl, rfl, rfl⟩

theorem Frame.dropFront (q : Sequencer) : Frame q q.dropFront := ⟨rfl, rfl, rfl, rfl, rfl, rfl⟩

/-- What a release keeps, a drain keeps. -/
theorem drainLoop_induct {P : Sequencer → Prop}
    (hr : ∀ q : Sequencer, P q → q.holds c q.expected = true → P (q.release c)) :
    ∀ (fuel : ℕ) (q : Sequencer), P q → P (drainLoop c fuel q) := by
  intro fuel
  induction fuel with
  | zero => intro q h; exact h
  | succ fuel ih =>
    intro q h
    rw [drainLoop]
    split
    · rename_i hh; exact ih _ (hr q h hh)
    · exact h

/-- A drain only releases. -/
theorem Frame.drain (q : Sequencer) : Frame q (q.drain c) :=
  drainLoop_induct (P := Frame q) (fun q' h _ => h.trans (Frame.release q')) _ q (Frame.refl q)

/-- A drain loses nothing. -/
theorem drain_messagesDropped (q : Sequencer) :
    (q.drain c).stats.messagesDropped = q.stats.messagesDropped :=
  drainLoop_induct (P := fun q' => q'.stats.messagesDropped = q.stats.messagesDropped)
    (fun _ h _ => h) _ q rfl

/-- A release leaves only what was there, less the sequence released. -/
theorem holds_of_release {q : Sequencer} {x : UInt64} (h : (q.release c).holds c x = true) :
    q.holds c x = true := by
  obtain ⟨hp, hs⟩ := holds_iff.mp h
  obtain ⟨_, heq⟩ := SlotRing.present_of_vacate hp
  have heq' : (q.release c).window.slots (maskIndex c.capacity x)
      = q.window.slots (maskIndex c.capacity x) := heq
  rw [heq'] at hp hs
  exact holds_iff.mpr ⟨hp, hs⟩

/-- So does a drain, which is releases. -/
theorem holds_of_drain {q : Sequencer} {x : UInt64} (h : (q.drain c).holds c x = true) :
    q.holds c x = true :=
  drainLoop_induct (P := fun q' => q'.holds c x = true → q.holds c x = true)
    (fun _ ih _ h' => ih (holds_of_release h')) _ q id h

/-- A drain keeps the window sound. -/
theorem WindowOk.drain {q : Sequencer} (h : WindowOk c q) : WindowOk c (q.drain c) :=
  drainLoop_induct (fun _ h hh => h.release hh) _ q h

/-- A drain is a run of the reassembler's releases. -/
theorem abs_drain {q : Sequencer} (h : WindowOk c q) (taken : List (ℕ × Payload)) (lost : ℕ) :
    Reassembly.Steps (abs c q taken lost) (abs c (q.drain c) taken lost) := by
  refine (drainLoop_induct
    (P := fun q' => WindowOk c q' ∧ Reassembly.Steps (abs c q taken lost) (abs c q' taken lost))
    ?_ _ q ⟨h, Relation.ReflTransGen.refl⟩).2
  rintro q' ⟨hw, hs⟩ hh
  exact ⟨hw.release hh, hs.tail (abs_release hw hh taken lost)⟩

/-- **The drain ends because nothing is left at the front**, not because the fuel ran out: every
round vacates one of `capacity` slots. -/
theorem drain_done (q : Sequencer) : (q.drain c).holds c (q.drain c).expected = false := by
  obtain ⟨k, hk⟩ := c.capacity_pow
  suffices ∀ fuel (q : Sequencer), q.window.occupied c.capacity ≤ fuel →
      (drainLoop c fuel q).holds c (drainLoop c fuel q).expected = false from
    this _ q SlotRing.occupied_le
  intro fuel
  induction fuel with
  | zero =>
    intro q h
    rw [drainLoop, ← Bool.not_eq_true]
    exact fun hh => absurd (SlotRing.occupied_pos_of_has hk hh) (by omega)
  | succ fuel ih =>
    intro q h
    rw [drainLoop]
    split
    · rename_i hh
      refine ih _ ?_
      have hocc := SlotRing.occupied_vacate hk (s := q.expected) (holds_iff.mp hh).1
      show (q.window.vacate c.capacity q.expected).occupied c.capacity ≤ fuel
      omega
    · rename_i hh
      simpa using hh

/-- A drain stops at or below anything that is above everything held. -/
theorem drain_expected_le {q : Sequencer} {b : ℕ} (h : WindowOk c q)
    (hb : ∀ x, q.holds c x = true → x.toNat < b) (he : q.expected.toNat ≤ b) :
    (q.drain c).expected.toNat ≤ b := by
  refine (drainLoop_induct (P := fun q' => WindowOk c q' ∧
    (∀ x, q'.holds c x = true → x.toNat < b) ∧ q'.expected.toNat ≤ b) ?_ _ q ⟨h, hb, he⟩).2.2
  rintro q' ⟨hw, hb', _⟩ hh
  refine ⟨hw.release hh, fun x hx => hb' x (holds_of_release hx), ?_⟩
  rw [release_holds_expected hw hh]
  exact hb' _ hh

/-- A drain never goes back. -/
theorem drain_expected_ge {q : Sequencer} (h : WindowOk c q) :
    q.expected.toNat ≤ (q.drain c).expected.toNat := by
  refine (drainLoop_induct (P := fun q' => WindowOk c q' ∧
    q.expected.toNat ≤ q'.expected.toNat) ?_ _ q ⟨h, Nat.le_refl _⟩).2
  rintro q' ⟨hw, hle⟩ hh
  refine ⟨hw.release hh, ?_⟩
  rw [release_holds_expected hw hh]
  omega

/-! ## `skip_to` -/

section Skip

variable {q : Sequencer}

/-- A drop short of a target does not wrap. -/
theorem dropFront_expected {x : UInt64} (h : q.expected < x) :
    q.dropFront.expected.toNat = q.expected.toNat + 1 := by
  have hx := x.toNat_lt
  rw [UInt64.lt_iff_toNat_lt] at h
  show (q.expected + 1).toNat = _
  exact toNat_succ (by omega)

/-- A drop leaves every slot as it was, and needs the front itself not to be held. -/
theorem WindowOk.dropFront (h : WindowOk c q) (hn : q.holds c q.expected = false)
    (hf : q.expected.toNat + c.capacity < 2 ^ 64) : WindowOk c q.dropFront := by
  have hc := c.capacity_pos
  have hexp : q.dropFront.expected.toNat = q.expected.toNat + 1 := toNat_succ (by omega)
  have hw := h.windowed.dropFront hn
  exact ⟨hw, h.far, by rw [hexp]; omega⟩

/-- A drop is the reassembler's `skip`: one more sequence lost. -/
theorem abs_dropFront (hn : q.holds c q.expected = false)
    (hexp : q.dropFront.expected.toNat = q.expected.toNat + 1)
    (taken : List (ℕ × Payload)) (lost : ℕ) :
    Reassembly.Step (abs c q taken lost) (abs c q.dropFront taken (lost + 1)) := by
  have hheld : (abs c q taken lost).held (abs c q taken lost).next = none := by
    show heldView c q q.expected.toNat = _
    rw [heldView_toNat, hn]
    rfl
  have hstep := Reassembly.Step.skip (abs c q taken lost) hheld
  have habs : abs c q.dropFront taken (lost + 1) = { abs c q taken lost with
      next := (abs c q taken lost).next + 1, lost := (abs c q taken lost).lost + 1 } := by
    simp only [abs, hexp]
    rw [@heldView_congr c q q.dropFront rfl]
    simp [sinkView, Sequencer.dropFront]
  rw [habs]
  exact hstep

/-- One round of the loop moves the front by one, down to the target. -/
theorem skipLoop_expected {target : UInt64} : ∀ (fuel : ℕ) (q : Sequencer),
    q.expected ≤ target → target.toNat - q.expected.toNat ≤ fuel →
      (skipLoop c target fuel q).expected = target := by
  intro fuel
  induction fuel with
  | zero =>
    intro q hle hf
    rw [UInt64.le_iff_toNat_le] at hle
    exact UInt64.toNat_inj.mp (by rw [skipLoop]; omega)
  | succ fuel ih =>
    intro q hle hf
    rw [skipLoop]
    have ht := target.toNat_lt
    rw [UInt64.le_iff_toNat_le] at hle
    by_cases hlt : q.expected < target
    · rw [if_pos hlt]
      rw [UInt64.lt_iff_toNat_lt] at hlt
      -- handed on or dropped, the front moves by one
      have hexp : (if q.holds c q.expected = true then q.release c else q.dropFront).expected.toNat
          = q.expected.toNat + 1 := by
        split
        · show (q.expected + 1).toNat = _
          exact toNat_succ (by omega)
        · show (q.expected + 1).toNat = _
          exact toNat_succ (by omega)
      refine ih _ ?_ ?_
      · rw [UInt64.le_iff_toNat_le, hexp]; omega
      · rw [hexp]; omega
    · rw [if_neg hlt]
      rw [UInt64.lt_iff_toNat_lt] at hlt
      exact UInt64.toNat_inj.mp (by omega)

/-- What a release and a drop keep, the loop keeps. -/
theorem skipLoop_induct {target : UInt64} {P : Sequencer → Prop}
    (hr : ∀ q : Sequencer, P q → q.expected < target → q.holds c q.expected = true →
      P (q.release c))
    (hd : ∀ q : Sequencer, P q → q.expected < target → q.holds c q.expected = false →
      P q.dropFront) :
    ∀ (fuel : ℕ) (q : Sequencer), P q → P (skipLoop c target fuel q) := by
  intro fuel
  induction fuel with
  | zero => intro q h; exact h
  | succ fuel ih =>
    intro q h
    rw [skipLoop]
    by_cases hlt : q.expected < target
    · rw [if_pos hlt]
      refine ih _ ?_
      split
      · rename_i hh; exact hr q h hlt hh
      · rename_i hh; exact hd q h hlt (by simpa using hh)
    · rw [if_neg hlt]; exact h

/-- The loop, below the wrap: it keeps the window and is a run of releases and skips, one skip
for each drop it counts. -/
theorem skipLoop_spec {target : UInt64} (h : WindowOk c q)
    (ht : target.toNat + c.capacity ≤ 2 ^ 64) (taken : List (ℕ × Payload)) (lost fuel : ℕ) :
    WindowOk c (skipLoop c target fuel q) ∧
      ∃ k, (skipLoop c target fuel q).stats.messagesDropped = q.stats.messagesDropped + k ∧
        Reassembly.Steps (abs c q taken lost)
          (abs c (skipLoop c target fuel q) taken (lost + k)) := by
  refine skipLoop_induct (P := fun q' => WindowOk c q' ∧
    ∃ k, q'.stats.messagesDropped = q.stats.messagesDropped + k ∧
      Reassembly.Steps (abs c q taken lost) (abs c q' taken (lost + k))) ?_ ?_ fuel q
    ⟨h, 0, rfl, Relation.ReflTransGen.refl⟩
  · rintro q' ⟨hw, k, hk, hs⟩ _ hh
    exact ⟨hw.release hh, k, hk, hs.tail (abs_release hw hh _ _)⟩
  · rintro q' ⟨hw, k, hk, hs⟩ hlt hn
    have hexp := dropFront_expected hlt
    rw [UInt64.lt_iff_toNat_lt] at hlt
    refine ⟨hw.dropFront hn (by omega), k + 1, ?_, hs.tail (abs_dropFront hn hexp _ _)⟩
    show q'.stats.messagesDropped + 1 = _
    omega

/-- The walk moves the front and nothing of the state machine. -/
theorem Frame.skipLoop {target : UInt64} (fuel : ℕ) (q : Sequencer) :
    Frame q (Sequencer.skipLoop c target fuel q) :=
  skipLoop_induct (P := Frame q) (fun q' h _ _ => h.trans (Frame.release q'))
    (fun q' h _ _ => h.trans (Frame.dropFront q')) fuel q (Frame.refl q)

/-- The walk only takes out of the window. -/
theorem holds_of_skipLoop {target : UInt64} {fuel : ℕ} {x : UInt64}
    (h : (Sequencer.skipLoop c target fuel q).holds c x = true) : q.holds c x = true :=
  skipLoop_induct (P := fun q' => q'.holds c x = true → q.holds c x = true)
    (fun _ ih _ _ h' => ih (holds_of_release h')) (fun _ ih _ _ h' => ih h') fuel q id h

/-- Nor does the whole jump. -/
theorem Frame.skipTo (q : Sequencer) (target : UInt64) : Frame q (q.skipTo c target).2 := by
  unfold Sequencer.skipTo
  split
  · exact Frame.refl q
  · simp only
    split
    · exact ⟨rfl, rfl, rfl, rfl, rfl, rfl⟩
    · exact (Frame.skipLoop _ q).trans (Frame.drain _)

/-- The whole jump only takes out of the window. -/
theorem holds_of_skipTo {target x : UInt64} (h : (q.skipTo c target).2.holds c x = true) :
    q.holds c x = true := by
  unfold Sequencer.skipTo at h
  split at h
  · exact h
  · simp only at h
    split at h
    · exact absurd h (by simp [holds])
    · exact holds_of_skipLoop (holds_of_drain h)

/-- A wiping jump. -/
theorem WindowOk.wipe {target : UInt64} {k : ℕ} (ht : target.toNat + c.capacity ≤ 2 ^ 64) :
    WindowOk c { q with
      window := q.window.clear
      pending := 0
      stats := { q.stats with messagesDropped := q.stats.messagesDropped + k }
      expected := target } :=
  ⟨⟨fun _ hp => absurd hp (by simp), fun _ hp => absurd hp (by simp),
    fun _ hp => absurd hp (by simp), by simp⟩, fun _ hp => absurd hp (by simp), ht⟩

/-- **`skip_to`, below the wrap**: the window is kept, and the move is a run of the reassembler
that gives up on exactly the sequences it counts as dropped. -/
theorem skipTo_spec {target : UInt64} (h : WindowOk c q)
    (ht : target.toNat + c.capacity ≤ 2 ^ 64) (taken : List (ℕ × Payload)) (lost : ℕ) :
    WindowOk c (q.skipTo c target).2 ∧
      ∃ k, (q.skipTo c target).2.stats.messagesDropped = q.stats.messagesDropped + k ∧
        Reassembly.Steps (abs c q taken lost)
          (abs c (q.skipTo c target).2 taken (lost + k)) := by
  unfold Sequencer.skipTo
  by_cases hle : target ≤ q.expected
  · rw [if_pos hle]
    exact ⟨h, 0, rfl, Relation.ReflTransGen.refl⟩
  rw [if_neg hle]
  rw [UInt64.le_iff_toNat_le, Nat.not_le] at hle
  have hspan := toNat_sub_of_le (Nat.le_of_lt hle)
  simp only
  by_cases hcap : c.capacity ≤ (target - q.expected).toNat
  · rw [if_pos hcap]
    -- wide: everything held lies below the target, so the reassembler may jump
    refine ⟨WindowOk.wipe ht, (target - q.expected).toNat, rfl, Relation.ReflTransGen.single ?_⟩
    have hall : ∀ n a, (abs c q taken lost).held n = some a →
        n < (abs c q taken lost).next + (target - q.expected).toNat := by
      intro n a ha
      obtain ⟨x, rfl, hx, _⟩ := heldView_eq_some ha
      have := h.windowed.lt_of_holds hx
      show x.toNat < q.expected.toNat + _
      omega
    have hstep := Reassembly.Step.jump (abs c q taken lost) _ hall
    have hnext : target.toNat = (abs c q taken lost).next + (target - q.expected).toNat := by
      show _ = q.expected.toNat + _
      omega
    have habs : abs c { q with
          window := q.window.clear
          pending := 0
          stats := { q.stats with
            messagesDropped := q.stats.messagesDropped + (target - q.expected).toNat }
          expected := target } taken (lost + (target - q.expected).toNat)
        = { abs c q taken lost with
          next := (abs c q taken lost).next + (target - q.expected).toNat
          held := fun _ => none
          lost := (abs c q taken lost).lost + (target - q.expected).toNat } := by
      simp only [abs] at hnext ⊢
      rw [hnext, heldView_none (fun x => by simp [holds])]
      simp [sinkView]
    rw [habs]
    exact hstep
  · rw [if_neg hcap]
    -- narrow: the walk, and the drain behind it
    obtain ⟨hw, k, hk, hs⟩ := skipLoop_spec h ht taken lost (target - q.expected).toNat
    refine ⟨hw.drain, k, ?_, hs.trans (abs_drain hw _ _)⟩
    rw [drain_messagesDropped, hk]

end Skip

end Sequencer
end Tickerplant
