import Mathlib.Data.List.Sort
import Mathlib.Data.List.Nodup
import Mathlib.Data.List.Perm.Subperm
import Mathlib.Data.List.Range
import Mathlib.Logic.Function.Basic
import Mathlib.Logic.Relation

/-!
# In-order reassembly of a numbered stream

What a component that turns numbered messages, arriving in any order and any number of times, back
into one increasing stream is allowed to do, over an arbitrary message type. It knows the next
number it owes, it may hold messages that arrived early, and it moves in five ways: pass a message
that is due straight through, hold an early one, release a held one that has become due, skip one
number nobody supplied, and jump over a stretch with everything held in it.

`Inv` is what every run of these moves keeps (`Inv.steps`), and the three facts worth having about
the stream are read off it:

* what came out is increasing, and everything in it was taken in (`Inv.log_sorted`,
  `Inv.log_taken`);
* each number is taken at most once (`Inv.taken_nodup`), so "the copy that was taken" is well
  defined and is the one that comes out;
* what came out and what was lost together are exactly the numbers below `next`
  (`Inv.count`), and with nothing lost the output is a gap-free run (`Inv.log_eq_range`).

A component is shown to be one of these by naming its moves. It may make several in one call, and
it may also do nothing with what arrives: a message that is refused is no move at all, so `taken`
is what was accepted and not what was offered.

The last part says what a walk over a stretch of numbers hands on and what it misses, for a given
supply. That is the other way to look at the same stream: not which moves were made, but what must
have come out when everything that was available did.
-/

set_option autoImplicit false

namespace Tickerplant.Lib

variable {α : Type*}

/-- A reassembler, with its whole history. -/
structure Reassembly (α : Type*) where
  /-- The next number owed downstream. -/
  next : ℕ
  /-- Early messages held for later. -/
  held : ℕ → Option α
  /-- Every message taken in, oldest first. -/
  taken : List (ℕ × α)
  /-- Every message handed on, oldest first. -/
  log : List (ℕ × α)
  /-- How many numbers were given up on. -/
  lost : ℕ

namespace Reassembly

/-- Nothing held and nothing handed on, with `f` due next. -/
def start (f : ℕ) : Reassembly α :=
  { next := f, held := fun _ => none, taken := [], log := [], lost := 0 }

/-- The five moves. -/
inductive Step : Reassembly α → Reassembly α → Prop
  /-- A message that is due, and not held, is taken and handed on at once. -/
  | pass (s : Reassembly α) (a : α) (h : s.held s.next = none) :
      Step s { s with
        next := s.next + 1, taken := s.taken ++ [(s.next, a)], log := s.log ++ [(s.next, a)] }
  /-- An early message nobody has supplied yet is taken and held. -/
  | hold (s : Reassembly α) (n : ℕ) (a : α) (hn : s.next < n) (h : s.held n = none) :
      Step s { s with
        held := Function.update s.held n (some a), taken := s.taken ++ [(n, a)] }
  /-- A held message that has become due is handed on. -/
  | release (s : Reassembly α) (a : α) (h : s.held s.next = some a) :
      Step s { s with
        next := s.next + 1, held := Function.update s.held s.next none,
        log := s.log ++ [(s.next, a)] }
  /-- The number that is due, which nobody supplied, is given up on. -/
  | skip (s : Reassembly α) (h : s.held s.next = none) :
      Step s { s with next := s.next + 1, lost := s.lost + 1 }
  /-- A stretch of `k` numbers is given up on, and everything held lies inside it. -/
  | jump (s : Reassembly α) (k : ℕ) (h : ∀ n a, s.held n = some a → n < s.next + k) :
      Step s { s with next := s.next + k, held := fun _ => none, lost := s.lost + k }

/-- Any number of moves. -/
abbrev Steps : Reassembly α → Reassembly α → Prop := Relation.ReflTransGen Step

/-! ## Numbers that are dealt with -/

/-- A number that is past, or held. -/
def Settled (s : Reassembly α) (n : ℕ) : Prop := n < s.next ∨ s.held n ≠ none

/-- One move settles nothing that was settled otherwise: a number that was held is released, or
passed over. -/
theorem Settled.step {s s' : Reassembly α} {n : ℕ} (hn : Settled s n) (h : Step s s') :
    Settled s' n := by
  cases h with
  | pass a h => exact hn.imp Nat.lt_succ_of_lt id
  | hold m a hm h =>
    refine hn.imp id fun hheld => ?_
    simp only [Function.update_apply]
    split
    · simp
    · exact hheld
  | release a h =>
    by_cases hne : n = s.next
    · exact Or.inl (hne ▸ Nat.lt_succ_self _)
    · refine hn.imp Nat.lt_succ_of_lt fun hheld => ?_
      simpa only [Function.update_apply, if_neg hne] using hheld
  | skip h => exact hn.imp Nat.lt_succ_of_lt id
  | jump k h =>
    refine Or.inl ?_
    rcases hn with hlt | hheld
    · exact Nat.lt_of_lt_of_le hlt (Nat.le_add_right _ _)
    · obtain ⟨a, ha⟩ := Option.ne_none_iff_exists'.mp hheld
      exact h n a ha

/-- What is past or held stays so. -/
theorem Settled.steps {s s' : Reassembly α} {n : ℕ} (hn : Settled s n) (h : Steps s s') :
    Settled s' n := by
  induction h with
  | refl => exact hn
  | tail _ h ih => exact ih.step h

/-- `next` only goes up. -/
theorem next_le_of_steps {s s' : Reassembly α} (h : Steps s s') : s.next ≤ s'.next := by
  induction h with
  | refl => exact Nat.le_refl _
  | tail _ h ih =>
    refine Nat.le_trans ih ?_
    cases h with
    | pass a h => exact Nat.le_succ _
    | hold n a hn h => exact Nat.le_refl _
    | release a h => exact Nat.le_succ _
    | skip h => exact Nat.le_succ _
    | jump k h => exact Nat.le_add_right _ _

/-! ## The invariant -/

/-- What every run from `start f` keeps. -/
structure Inv (f : ℕ) (s : Reassembly α) : Prop where
  /-- Held messages are still to come. -/
  held_ge : ∀ n a, s.held n = some a → s.next ≤ n
  /-- Held messages were taken, and are the copy that was. -/
  held_taken : ∀ n a, s.held n = some a → (n, a) ∈ s.taken
  /-- Conversely, what was taken is past or still held. This and the clause before it are what lets
  the next one be kept: a number is free exactly when it has not been taken. -/
  taken_cases : ∀ n a, (n, a) ∈ s.taken → n < s.next ∨ s.held n = some a
  /-- One copy of each number. -/
  taken_nodup : (s.taken.map Prod.fst).Nodup
  /-- Nothing comes out that did not go in. -/
  log_taken : ∀ x ∈ s.log, x ∈ s.taken
  log_ge : ∀ x ∈ s.log, f ≤ x.1
  log_lt : ∀ x ∈ s.log, x.1 < s.next
  /-- Strictly: nothing comes out twice. -/
  log_sorted : (s.log.map Prod.fst).Pairwise (· < ·)
  /-- Every number up to `next` either came out or was lost. -/
  count : f + s.log.length + s.lost = s.next

namespace Inv

/-- Nothing has happened. -/
theorem start {f : ℕ} : Inv f (Reassembly.start f : Reassembly α) where
  held_ge := by intro n a h; exact absurd h (by simp [Reassembly.start])
  held_taken := by intro n a h; exact absurd h (by simp [Reassembly.start])
  taken_cases := by intro n a h; exact absurd h (by simp [Reassembly.start])
  taken_nodup := List.nodup_nil
  log_taken := by intro x hx; exact absurd hx (by simp [Reassembly.start])
  log_ge := by intro x hx; exact absurd hx (by simp [Reassembly.start])
  log_lt := by intro x hx; exact absurd hx (by simp [Reassembly.start])
  log_sorted := List.Pairwise.nil
  count := by simp [Reassembly.start]

variable {f : ℕ} {s : Reassembly α}

/-- A number that is neither below `next` nor held was never taken. -/
theorem not_taken (hi : Inv f s) {n : ℕ} (hn : s.next ≤ n) (h : s.held n = none) :
    n ∉ s.taken.map Prod.fst := by
  intro hm
  obtain ⟨⟨n', a⟩, hmem, rfl⟩ := List.mem_map.mp hm
  rcases hi.taken_cases n' a hmem with hlt | hheld
  · exact absurd hlt (Nat.not_lt.mpr hn)
  · simp only at h
    rw [h] at hheld
    exact absurd hheld (by simp)

/-- Handing on the number that is due keeps the output increasing. -/
theorem log_append_sorted (hi : Inv f s) (a : α) :
    ((s.log ++ [(s.next, a)]).map Prod.fst).Pairwise (· < ·) := by
  rw [List.map_append, List.pairwise_append]
  refine ⟨hi.log_sorted, by simp, ?_⟩
  intro n hn n' hn'
  obtain ⟨x, hx, rfl⟩ := List.mem_map.mp hn
  simp only [List.map_cons, List.map_nil, List.mem_singleton] at hn'
  subst hn'
  exact hi.log_lt x hx

/-- A number that was free may be taken. -/
theorem taken_append_nodup (hi : Inv f s) {n : ℕ} (a : α) (hn : s.next ≤ n)
    (h : s.held n = none) : ((s.taken ++ [(n, a)]).map Prod.fst).Nodup := by
  rw [List.map_append]
  refine List.nodup_append.mpr ⟨hi.taken_nodup, by simp, ?_⟩
  intro x hx y hy
  simp only [List.map_cons, List.map_nil, List.mem_singleton] at hy
  subst hy
  rintro rfl
  exact hi.not_taken hn h hx

/-- What is handed on comes no sooner than the start. -/
theorem log_append_ge (hi : Inv f s) (a : α) : ∀ x ∈ s.log ++ [(s.next, a)], f ≤ x.1 := by
  intro x hx
  rcases List.mem_append.mp hx with hx | hx
  · exact hi.log_ge x hx
  · have hc := hi.count
    rw [List.mem_singleton.mp hx]
    simp only
    omega

/-- What is handed on is past. -/
theorem log_append_lt (hi : Inv f s) (a : α) :
    ∀ x ∈ s.log ++ [(s.next, a)], x.1 < s.next + 1 := by
  intro x hx
  rcases List.mem_append.mp hx with hx | hx
  · exact Nat.lt_succ_of_lt (hi.log_lt x hx)
  · rw [List.mem_singleton.mp hx]
    exact Nat.lt_succ_self _

theorem pass (hi : Inv f s) (a : α) (h : s.held s.next = none) :
    Inv f { s with
      next := s.next + 1, taken := s.taken ++ [(s.next, a)], log := s.log ++ [(s.next, a)] } where
  held_ge := by
    intro n b hb
    have hge := hi.held_ge n b hb
    rcases Nat.eq_or_lt_of_le hge with heq | hlt
    · subst heq; simp only at hb; rw [h] at hb; exact absurd hb (by simp)
    · exact hlt
  held_taken := fun n b hb => List.mem_append_left _ (hi.held_taken n b hb)
  taken_cases := by
    intro n b hm
    rcases List.mem_append.mp hm with hm | hm
    · exact (hi.taken_cases n b hm).imp Nat.lt_succ_of_lt id
    · have heq := List.mem_singleton.mp hm
      simp only [Prod.mk.injEq] at heq
      exact Or.inl (heq.1 ▸ Nat.lt_succ_self _)
  taken_nodup := hi.taken_append_nodup a (Nat.le_refl _) h
  log_taken := by
    intro x hx
    rcases List.mem_append.mp hx with hx | hx
    · exact List.mem_append_left _ (hi.log_taken x hx)
    · exact List.mem_append_right _ hx
  log_ge := hi.log_append_ge a
  log_lt := hi.log_append_lt a
  log_sorted := hi.log_append_sorted a
  count := by
    have := hi.count
    simp only [List.length_append, List.length_singleton]
    omega

theorem hold (hi : Inv f s) {n : ℕ} (a : α) (hn : s.next < n) (h : s.held n = none) :
    Inv f { s with
      held := Function.update s.held n (some a), taken := s.taken ++ [(n, a)] } where
  held_ge := by
    intro m b hb
    simp only [Function.update_apply] at hb
    split at hb
    · rename_i heq; rw [heq]; exact Nat.le_of_lt hn
    · exact hi.held_ge m b hb
  held_taken := by
    intro m b hb
    simp only [Function.update_apply] at hb
    split at hb
    · rename_i heq
      rw [Option.some.injEq] at hb
      rw [heq, hb]
      exact List.mem_append_right _ (List.mem_singleton.mpr rfl)
    · exact List.mem_append_left _ (hi.held_taken m b hb)
  taken_cases := by
    intro m b hm
    rcases List.mem_append.mp hm with hm | hm
    · refine (hi.taken_cases m b hm).imp id fun hb => ?_
      have hne : m ≠ n := by rintro rfl; rw [h] at hb; exact absurd hb (by simp)
      simpa [Function.update_apply, hne] using hb
    · have heq := List.mem_singleton.mp hm
      simp only [Prod.mk.injEq] at heq
      exact Or.inr (by simp [heq.1, heq.2])
  taken_nodup := hi.taken_append_nodup a (Nat.le_of_lt hn) h
  log_taken := fun x hx => List.mem_append_left _ (hi.log_taken x hx)
  log_ge := hi.log_ge
  log_lt := hi.log_lt
  log_sorted := hi.log_sorted
  count := hi.count

theorem release (hi : Inv f s) {a : α} (h : s.held s.next = some a) :
    Inv f { s with
      next := s.next + 1, held := Function.update s.held s.next none,
      log := s.log ++ [(s.next, a)] } where
  held_ge := by
    -- the number just released is held no longer, so what is held still lies beyond
    intro n b hb
    simp only [Function.update_apply] at hb
    split at hb
    · exact absurd hb (by simp)
    · rename_i hne
      exact Nat.lt_of_le_of_ne (hi.held_ge n b hb) (Ne.symm hne)
  held_taken := by
    intro n b hb
    simp only [Function.update_apply] at hb
    split at hb
    · exact absurd hb (by simp)
    · exact hi.held_taken n b hb
  taken_cases := by
    intro n b hm
    rcases hi.taken_cases n b hm with hlt | hb
    · exact Or.inl (Nat.lt_succ_of_lt hlt)
    · by_cases hne : n = s.next
      · exact Or.inl (hne ▸ Nat.lt_succ_self _)
      · exact Or.inr (by simpa [Function.update_apply, hne] using hb)
  taken_nodup := hi.taken_nodup
  log_taken := by
    intro x hx
    rcases List.mem_append.mp hx with hx | hx
    · exact hi.log_taken x hx
    · rw [List.mem_singleton.mp hx]
      exact hi.held_taken _ _ h
  log_ge := hi.log_append_ge a
  log_lt := hi.log_append_lt a
  log_sorted := hi.log_append_sorted a
  count := by
    have := hi.count
    simp only [List.length_append, List.length_singleton]
    omega

theorem skip (hi : Inv f s) (h : s.held s.next = none) :
    Inv f { s with next := s.next + 1, lost := s.lost + 1 } where
  held_ge := by
    intro n b hb
    refine Nat.lt_of_le_of_ne (hi.held_ge n b hb) ?_
    rintro rfl
    simp only at hb
    rw [h] at hb
    exact absurd hb (by simp)
  held_taken := hi.held_taken
  taken_cases := fun n b hm => (hi.taken_cases n b hm).imp Nat.lt_succ_of_lt id
  taken_nodup := hi.taken_nodup
  log_taken := hi.log_taken
  log_ge := hi.log_ge
  log_lt := fun x hx => Nat.lt_succ_of_lt (hi.log_lt x hx)
  log_sorted := hi.log_sorted
  count := by
    have := hi.count
    simp only
    omega

theorem jump (hi : Inv f s) {k : ℕ} (h : ∀ n a, s.held n = some a → n < s.next + k) :
    Inv f { s with next := s.next + k, held := fun _ => none, lost := s.lost + k } where
  held_ge := by intro n b hb; exact absurd hb (by simp)
  held_taken := by intro n b hb; exact absurd hb (by simp)
  taken_cases := by
    intro n b hm
    refine Or.inl ?_
    rcases hi.taken_cases n b hm with hlt | hb
    · exact Nat.lt_of_lt_of_le hlt (Nat.le_add_right _ _)
    · exact h n b hb
  taken_nodup := hi.taken_nodup
  log_taken := hi.log_taken
  log_ge := hi.log_ge
  log_lt := fun x hx => Nat.lt_of_lt_of_le (hi.log_lt x hx) (Nat.le_add_right _ _)
  log_sorted := hi.log_sorted
  count := by
    have := hi.count
    simp only
    omega

/-- One move keeps the invariant: one case per constructor. -/
theorem step (hi : Inv f s) {s' : Reassembly α} (h : Step s s') : Inv f s' := by
  cases h with
  | pass a h => exact hi.pass a h
  | hold n a hn h => exact hi.hold a hn h
  | release a h => exact hi.release h
  | skip h => exact hi.skip h
  | jump k h => exact hi.jump h

/-- So does a run. -/
theorem steps (hi : Inv f s) {s' : Reassembly α} (h : Steps s s') : Inv f s' := by
  induction h with
  | refl => exact hi
  | tail _ h ih => exact ih.step h

/-! ## Reading the invariant -/

/-- No more is handed on than was taken. -/
theorem length_log_le (hi : Inv f s) : s.log.length ≤ s.taken.length := by
  have hkeys : (s.log.map Prod.fst).Nodup := hi.log_sorted.imp fun hlt => Nat.ne_of_lt hlt
  exact (List.Nodup.subperm (List.Nodup.of_map Prod.fst hkeys) hi.log_taken).length_le

/-- An increasing list of `len` numbers, all in a run of `len` numbers, is that run. -/
theorem eq_range'_of_sorted {l : List ℕ} {lo len : ℕ} (hs : l.Pairwise (· < ·))
    (hlo : ∀ n ∈ l, lo ≤ n) (hhi : ∀ n ∈ l, n < lo + len) (hl : l.length = len) :
    l = List.range' lo len := by
  induction l generalizing lo len with
  | nil => simp only [List.length_nil] at hl; subst hl; rfl
  | cons n l ih =>
    obtain ⟨len, rfl⟩ : ∃ k, len = k + 1 := ⟨l.length, by simpa using hl.symm⟩
    obtain ⟨hn, hs⟩ := List.pairwise_cons.mp hs
    have htail : l = List.range' (n + 1) len := by
      refine ih hs (fun m hm => hn m hm) (fun m hm => ?_) (by simpa using hl)
      have := hhi m (List.mem_cons_of_mem _ hm)
      have := hlo n List.mem_cons_self
      omega
    have hnlo : n = lo := by
      have h1 := hlo n List.mem_cons_self
      rcases Nat.eq_zero_or_pos len with rfl | hpos
      · have := hhi n List.mem_cons_self
        omega
      · -- the last of the tail is `n + len`, and it must still be below `lo + len + 1`
        have hlast : n + len ∈ l := by
          rw [htail, List.mem_range'_1]
          omega
        have := hhi (n + len) (List.mem_cons_of_mem _ hlast)
        omega
    rw [htail, hnlo, List.range'_succ]

/-- **With nothing lost the output is every number from `f` up to `next`.** -/
theorem log_eq_range (hi : Inv f s) (h : s.lost = 0) :
    s.log.map Prod.fst = List.range' f (s.next - f) := by
  have hc := hi.count
  refine eq_range'_of_sorted hi.log_sorted ?_ ?_ (by rw [List.length_map]; omega)
  · intro n hn
    obtain ⟨x, hx, rfl⟩ := List.mem_map.mp hn
    exact hi.log_ge x hx
  · intro n hn
    obtain ⟨x, hx, rfl⟩ := List.mem_map.mp hn
    have := hi.log_lt x hx
    omega

/-- **`lost` counts the numbers below `next` that never came out**, each once. -/
theorem lost_eq_card (hi : Inv f s) :
    ((List.range' f (s.next - f)).filter (fun n => n ∉ s.log.map Prod.fst)).length = s.lost := by
  have hc := hi.count
  have hsub : ∀ n ∈ s.log.map Prod.fst, n ∈ List.range' f (s.next - f) := by
    intro n hn
    obtain ⟨x, hx, rfl⟩ := List.mem_map.mp hn
    have h1 := hi.log_ge x hx
    have h2 := hi.log_lt x hx
    rw [List.mem_range'_1]
    omega
  have hnd : (s.log.map Prod.fst).Nodup := hi.log_sorted.imp (fun h => Nat.ne_of_lt h)
  -- those below `next` that came out are the log, each once
  have hperm : ((List.range' f (s.next - f)).filter (fun n => n ∈ s.log.map Prod.fst)).Perm
      (s.log.map Prod.fst) := by
    refine (List.perm_ext_iff_of_nodup ((List.nodup_range' ..).filter _) hnd).mpr fun n => ?_
    rw [List.mem_filter, decide_eq_true_eq]
    exact ⟨fun h => h.2, fun h => ⟨hsub n h, h⟩⟩
  have hsplit := List.length_eq_length_filter_add
    (l := List.range' f (s.next - f)) (fun n => decide (n ∈ s.log.map Prod.fst))
  rw [List.length_range', hperm.length_eq, List.length_map] at hsplit
  have hneg : (fun n => decide (n ∉ s.log.map Prod.fst))
      = (fun n => !decide (n ∈ s.log.map Prod.fst)) := by
    funext n; simp only [decide_not]
  rw [hneg]
  omega

end Inv

end Reassembly

/-! ## A stretch of numbers

What moving from `a` to `b` hands on, and what it gives up on, when `avail` says what is there. -/

section Stretch

variable {avail avail' : ℕ → Option α} {a b d : ℕ}

/-- What is handed on between the two numbers. -/
def handed (avail : ℕ → Option α) (a b : ℕ) : List (ℕ × α) :=
  (List.range' a (b - a)).filterMap fun n => (avail n).map fun x => (n, x)

/-- How many are given up on. -/
def missed (avail : ℕ → Option α) (a b : ℕ) : ℕ :=
  (List.range' a (b - a)).countP fun n => (avail n).isNone

/-- A stretch in two parts. -/
theorem range'_split (hab : a ≤ b) (hbd : b ≤ d) :
    List.range' a (b - a) ++ List.range' b (d - b) = List.range' a (d - a) := by
  have h := List.range'_append_1 (s := a) (m := b - a) (n := d - b)
  rwa [show a + (b - a) = b by omega, show b - a + (d - b) = d - a by omega] at h

@[simp] theorem handed_self : handed avail a a = [] := by simp [handed]

@[simp] theorem missed_self : missed avail a a = 0 := by simp [missed]

/-- What is handed on over two parts. -/
theorem handed_append (hab : a ≤ b) (hbd : b ≤ d) :
    handed avail a b ++ handed avail b d = handed avail a d := by
  unfold handed
  rw [← List.filterMap_append, range'_split hab hbd]

/-- What is missed over two parts. -/
theorem missed_add (hab : a ≤ b) (hbd : b ≤ d) :
    missed avail a b + missed avail b d = missed avail a d := by
  unfold missed
  rw [← List.countP_append, range'_split hab hbd]

/-- Only the supply inside the stretch matters. -/
theorem handed_congr (h : ∀ n, a ≤ n → n < b → avail n = avail' n) :
    handed avail a b = handed avail' a b := by
  refine List.filterMap_congr fun n hn => ?_
  rw [List.mem_range'_1] at hn
  rw [h n hn.1 (by omega)]

theorem missed_congr (h : ∀ n, a ≤ n → n < b → avail n = avail' n) :
    missed avail a b = missed avail' a b := by
  refine List.countP_congr fun n hn => ?_
  rw [List.mem_range'_1] at hn
  rw [h n hn.1 (by omega)]

/-- A stretch of one number. -/
theorem handed_one : handed avail a (a + 1) = ((avail a).map fun x => (a, x)).toList := by
  unfold handed
  rw [Nat.add_sub_cancel_left, List.range'_one]
  cases h : avail a <;> simp [h]

theorem missed_one : missed avail a (a + 1) = if (avail a).isNone then 1 else 0 := by
  unfold missed
  rw [Nat.add_sub_cancel_left, List.range'_one, List.countP_singleton]

/-- What comes out of a stretch is what was there. -/
theorem mem_handed {n : ℕ} {x : α} :
    (n, x) ∈ handed avail a b ↔ a ≤ n ∧ n < b ∧ avail n = some x := by
  unfold handed
  simp only [List.mem_filterMap, List.mem_range'_1, Option.map_eq_some_iff, Prod.mk.injEq]
  constructor
  · rintro ⟨m, hm, y, hy, rfl, rfl⟩
    exact ⟨hm.1, by omega, hy⟩
  · rintro ⟨ha, hb, hx⟩
    exact ⟨n, ⟨ha, by omega⟩, x, hx, rfl, rfl⟩

end Stretch

end Tickerplant.Lib
