import Mathlib.Data.Finset.Card
import Mathlib.Data.Finset.Max
import Mathlib.Data.Finset.Range
import Mathlib.Data.Finset.Insert
import Mathlib.Logic.Function.Basic
import Mathlib.Tactic.SplitIfs

/-!
# Linear probing with backward shift

An open-addressed table is a function from slot numbers below `cap` to slots. A `Scheme` says which
key a slot holds, if any, how a slot is emptied, where the search for a key starts, and how the
deletion loop decides that an entry may stay where it is. Nothing is assumed about the slots
themselves, so a table of keys beside a table of values and a table of records with an `occupied`
flag are both instances.

`gap i j` is how many steps forward lead from `i` to `j`. `Wf` is the invariant: a key is in one
slot, no slot between a key's home and its slot is empty, and some slot is empty. Under it the
search loop stops (`walk_holds`, `walk_absent`), an insertion at the empty slot it stops at keeps
`Wf` (`Wf.put`), and so does a deletion, whose loop stops at the next empty slot (`erase_spec`).
Both say what became of the contents.

The deletion is the part with an argument in it. Emptying a slot may leave a hole on the way to
other entries, and the loop walks on from the hole, looking at one entry after another: an entry
whose way leads over the hole moves back into it and leaves a new hole where it was, and any other
stays. `Shifting` is what holds in between: the ways are whole but for the hole, and only entries
not yet looked at can miss it. At the next empty slot there are no such entries left, because no
way leads over an empty slot. A loop may decide whether an entry stays by any comparison of slot
numbers that comes to the condition in `Lawful.stays_iff`; the two usual ones do, on both sides of
the end of the table.
-/

set_option autoImplicit false

namespace Tickerplant.Lib

namespace Probe

/-! ## Going round -/

/-- The steps forward from `i` to `j` on a ring of `cap` slots. -/
def gap (cap i j : ℕ) : ℕ := if i ≤ j then j - i else cap - i + j

section Gap

variable {cap i j k : ℕ}

/-- No steps lead from a slot to itself. -/
theorem gap_self : gap cap i i = 0 := by simp [gap]

/-- Going once round is never needed. -/
theorem gap_lt (hi : i < cap) (hj : j < cap) : gap cap i j < cap := by
  unfold gap
  split <;> omega

/-- Only the slot itself is no steps away. -/
theorem gap_eq_zero (hi : i < cap) (h : gap cap i j = 0) : i = j := by
  unfold gap at h
  split at h <;> omega

theorem gap_pos (hi : i < cap) (hne : i ≠ j) : 0 < gap cap i j :=
  Nat.pos_of_ne_zero fun h => hne (gap_eq_zero hi h)

/-- The slots a number of steps away are one slot. -/
theorem gap_inj (hj : j < cap) (hk : k < cap) (h : gap cap i j = gap cap i k) : j = k := by
  unfold gap at h
  split_ifs at h <;> omega

/-- A slot passed on the way to another divides the way. -/
theorem gap_split (hj : j < cap) (hk : k < cap) (h : gap cap i j ≤ gap cap i k) :
    gap cap i k = gap cap i j + gap cap j k := by
  unfold gap at *
  split_ifs at h ⊢ <;> omega

/-- Past `j`, and still short of `i`. -/
theorem gap_join (hi : i < cap) (hj : j < cap)
    (h : gap cap i j + gap cap j k < cap) : gap cap i k = gap cap i j + gap cap j k := by
  unfold gap at *
  split_ifs at h ⊢ <;> omega

end Gap

/-! ## The table -/

/-- How a table's slots are read. -/
structure Scheme (S K : Type) where
  cap : ℕ
  /-- The key a slot holds. -/
  key : S → Option K
  /-- The slot, emptied. -/
  clear : S → S
  /-- Where the search for a key starts. -/
  home : K → ℕ
  /-- Whether the entry at `j`, whose key's home is `ideal`, may stay when `hole` is empty. -/
  stays : (hole ideal j : ℕ) → Bool

namespace Scheme

variable {S K : Type}

/-- The next slot, the first one again after the last. -/
def next (c : Scheme S K) (i : ℕ) : ℕ := (i + 1) % c.cap

/-- The search loop: the slot of the key, or else the first empty one. -/
def walk [DecidableEq K] (c : Scheme S K) (t : ℕ → S) (k : K) : ℕ → ℕ → Option ℕ
  | 0, _ => none
  | fuel + 1, i =>
    match c.key (t i) with
    | none => some i
    | some k' => if k' = k then some i else walk c t k fuel (c.next i)

/-- The deletion loop. `hole` is empty, and the slots after it up to `j` have been looked at. -/
def shift (c : Scheme S K) (t : ℕ → S) : ℕ → (hole j : ℕ) → Option (ℕ → S)
  | 0, _, _ => none
  | fuel + 1, hole, j =>
    match c.key (t (c.next j)) with
    | none => some t
    | some kj =>
      if c.stays hole (c.home kj) (c.next j) then shift c t fuel hole (c.next j)
      else shift c (Function.update (Function.update t hole (t (c.next j))) (c.next j)
        (c.clear (t (c.next j)))) fuel (c.next j) (c.next j)

/-- Empty the slot, and close the hole. -/
def erase (c : Scheme S K) (t : ℕ → S) (i : ℕ) : Option (ℕ → S) :=
  c.shift (Function.update t i (c.clear (t i))) c.cap i i

/-- What a scheme has to get right. -/
structure Lawful (c : Scheme S K) : Prop where
  cap_pos : 0 < c.cap
  home_lt : ∀ k, c.home k < c.cap
  key_clear : ∀ s, c.key (c.clear s) = none
  stays_iff : ∀ hole ideal j, hole < c.cap → ideal < c.cap → j < c.cap → hole ≠ j →
    (c.stays hole ideal j = true ↔
      0 < gap c.cap hole ideal ∧ gap c.cap hole ideal ≤ gap c.cap hole j)

/-! ## What a table holds -/

/-- The key `k` is in slot `s`. -/
def Holds (c : Scheme S K) (t : ℕ → S) (k : K) (s : S) : Prop :=
  ∃ i < c.cap, t i = s ∧ c.key s = some k

/-- The occupied slots. -/
def occupied (c : Scheme S K) (t : ℕ → S) : Finset ℕ :=
  (Finset.range c.cap).filter fun i => (c.key (t i)).isSome

/-- Occupied is to hold a key. -/
theorem mem_occupied {c : Scheme S K} {t : ℕ → S} {i : ℕ} :
    i ∈ c.occupied t ↔ i < c.cap ∧ c.key (t i) ≠ none := by
  rw [occupied, Finset.mem_filter, Finset.mem_range, Option.isSome_iff_ne_none]

/-- **The invariant**: a key is in one slot, and its search reaches that slot. -/
structure Wf (c : Scheme S K) (t : ℕ → S) : Prop where
  /-- So a lookup may stop at the first match. -/
  unique : ∀ i < c.cap, ∀ j < c.cap, ∀ k, c.key (t i) = some k → c.key (t j) = some k → i = j
  /-- A search that stops at an empty slot has not passed the key by. -/
  reach : ∀ i < c.cap, ∀ k, c.key (t i) = some k →
    ∀ q < c.cap, gap c.cap (c.home k) q < gap c.cap (c.home k) i → c.key (t q) ≠ none
  /-- Without an empty slot the search for an absent key would go round for ever. -/
  room : ∃ e < c.cap, c.key (t e) = none

variable {c : Scheme S K} {t : ℕ → S}

/-- A table that is not all occupied has an empty slot. -/
theorem exists_empty (h : (c.occupied t).card < c.cap) : ∃ e < c.cap, c.key (t e) = none := by
  by_contra hall
  have hsub : Finset.range c.cap ⊆ c.occupied t := by
    intro i hi
    have hlt := Finset.mem_range.mp hi
    exact mem_occupied.mpr ⟨hlt, fun hnone => hall ⟨i, hlt, hnone⟩⟩
  have hcard := Finset.card_le_card hsub
  rw [Finset.card_range] at hcard
  omega

/-- A key has one slot, so it has one value. -/
theorem Wf.holds_inj (h : Wf c t) {k : K} {s s' : S} (hs : c.Holds t k s) (hs' : c.Holds t k s') :
    s = s' := by
  obtain ⟨i, hi, rfl, hki⟩ := hs
  obtain ⟨j, hj, rfl, hkj⟩ := hs'
  rw [h.unique i hi j hj k hki hkj]

/-- An all-empty table. -/
theorem wf_empty (hc : Lawful c) (hempty : ∀ i < c.cap, c.key (t i) = none) : Wf c t where
  unique := fun i hi _ _ k hk => absurd hk (by rw [hempty i hi]; simp)
  reach := fun i hi k hk => absurd hk (by rw [hempty i hi]; simp)
  room := ⟨0, hc.cap_pos, hempty 0 hc.cap_pos⟩

/-- Nothing is occupied in an empty table. -/
theorem occupied_empty (hempty : ∀ i < c.cap, c.key (t i) = none) : c.occupied t = ∅ := by
  refine Finset.eq_empty_of_forall_notMem fun i hi => ?_
  obtain ⟨hlt, hne⟩ := mem_occupied.mp hi
  exact hne (hempty i hlt)

/-! ## Searching -/

/-- The next slot is a slot. -/
theorem next_lt (hc : Lawful c) (i : ℕ) : c.next i < c.cap := Nat.mod_lt _ hc.cap_pos

/-- The wrap, without the remainder. -/
theorem next_eq {i : ℕ} (hi : i < c.cap) : c.next i = if i + 1 = c.cap then 0 else i + 1 := by
  unfold next
  split
  · rename_i h
    rw [h, Nat.mod_self]
  · exact Nat.mod_eq_of_lt (by omega)

/-- A step forward is one step, unless it comes back to the start. -/
theorem gap_next {i j : ℕ} (hi : i < c.cap) (hj : j < c.cap) (hne : c.next j ≠ i) :
    gap c.cap i (c.next j) = gap c.cap i j + 1 := by
  rw [next_eq hj] at hne ⊢
  unfold gap
  split_ifs at hne ⊢ <;> omega

/-- Going forward from `j` shortens the way to another slot. -/
theorem gap_next_left {j e : ℕ} (hj : j < c.cap) (he : e < c.cap) (hne : j ≠ e) :
    gap c.cap (c.next j) e + 1 = gap c.cap j e := by
  rw [next_eq hj]
  unfold gap
  split_ifs <;> omega

section Searching

variable [DecidableEq K]

/-- The search stops at the first slot that is empty or holds the key. -/
theorem walk_eq (hc : Lawful c) {k : K} {e : ℕ} (he : e < c.cap)
    (hstop : c.key (t e) = none ∨ c.key (t e) = some k) : ∀ (fuel i : ℕ), i < c.cap →
    gap c.cap i e < fuel →
    (∀ q < c.cap, gap c.cap i q < gap c.cap i e → ∃ k', c.key (t q) = some k' ∧ k' ≠ k) →
    c.walk t k fuel i = some e := by
  intro fuel
  induction fuel with
  | zero => intro i _ hfuel _; exact absurd hfuel (Nat.not_lt_zero _)
  | succ fuel ih =>
    intro i hi hfuel hpass
    rw [walk]
    by_cases hie : i = e
    · subst hie
      rcases hstop with hnone | hsome
      · rw [hnone]
      · rw [hsome]
        exact if_pos rfl
    · obtain ⟨k', hk', hne⟩ := hpass i hi (by rw [gap_self]; exact gap_pos hi hie)
      have hstep := gap_next_left hi he hie
      rw [hk']
      simp only
      rw [if_neg hne]
      refine ih (c.next i) (next_lt hc i) (by omega) fun q hq hlt => ?_
      have hiq : i ≠ q := by
        rintro rfl
        -- all the way round is further than `e`
        have hback := gap_next_left (c := c) hi he hie
        rw [next_eq hi] at hlt hback
        unfold gap at hlt hback
        split_ifs at hlt hback <;> omega
      have hq' := gap_next_left (c := c) hi hq hiq
      exact hpass q hq (by omega)

/-- **A key that is held is found.** -/
theorem walk_holds (hc : Lawful c) (h : Wf c t) {k : K} {i : ℕ} (hi : i < c.cap)
    (hk : c.key (t i) = some k) : c.walk t k c.cap (c.home k) = some i := by
  refine walk_eq hc hi (Or.inr hk) c.cap _ (hc.home_lt k) (gap_lt (hc.home_lt k) hi) ?_
  intro q hq hlt
  obtain ⟨k', hk'⟩ := Option.ne_none_iff_exists'.mp (h.reach i hi k hk q hq hlt)
  refine ⟨k', hk', ?_⟩
  rintro rfl
  rw [h.unique q hq i hi k' hk' hk] at hlt
  exact absurd hlt (Nat.lt_irrefl _)

/-- **The search for any other key stops too**, at an empty slot that nothing empty comes
before. -/
theorem walk_absent (hc : Lawful c) (h : Wf c t) {k : K}
    (hk : ∀ i < c.cap, c.key (t i) ≠ some k) :
    ∃ e < c.cap, c.walk t k c.cap (c.home k) = some e ∧ c.key (t e) = none ∧
      ∀ q < c.cap, gap c.cap (c.home k) q < gap c.cap (c.home k) e → c.key (t q) ≠ none := by
  classical
  -- the empty slot with the shortest way from the key's home
  obtain ⟨e0, he0, hnone0⟩ := h.room
  obtain ⟨e, he, hmin⟩ := Finset.exists_min_image
    ((Finset.range c.cap).filter fun i => c.key (t i) = none) (gap c.cap (c.home k))
    ⟨e0, Finset.mem_filter.mpr ⟨Finset.mem_range.mpr he0, hnone0⟩⟩
  obtain ⟨he, hnone⟩ := Finset.mem_filter.mp he
  rw [Finset.mem_range] at he
  have hbefore : ∀ q < c.cap, gap c.cap (c.home k) q < gap c.cap (c.home k) e →
      c.key (t q) ≠ none := by
    intro q hq hlt hqnone
    have hle := hmin q (Finset.mem_filter.mpr ⟨Finset.mem_range.mpr hq, hqnone⟩)
    omega
  refine ⟨e, he, ?_, hnone, hbefore⟩
  refine walk_eq hc he (Or.inl hnone) c.cap _ (hc.home_lt k) (gap_lt (hc.home_lt k) he) ?_
  intro q hq hlt
  obtain ⟨k', hk'⟩ := Option.ne_none_iff_exists'.mp (hbefore q hq hlt)
  exact ⟨k', hk', fun heq => hk q hq (heq ▸ hk')⟩

end Searching

/-! ## Filling a slot -/

/-- A write to slot `e`, read back. -/
theorem holds_update {e : ℕ} (he : e < c.cap) {s : S} {k' : K} {s' : S} :
    c.Holds (Function.update t e s) k' s' ↔
      (s = s' ∧ c.key s' = some k') ∨ ∃ i < c.cap, i ≠ e ∧ t i = s' ∧ c.key s' = some k' := by
  constructor
  · rintro ⟨i, hi, hti, hk⟩
    by_cases hie : i = e
    · subst hie
      rw [Function.update_self] at hti
      exact Or.inl ⟨hti, hk⟩
    · rw [Function.update_of_ne hie] at hti
      exact Or.inr ⟨i, hi, hie, hti, hk⟩
  · rintro (⟨heq, hk⟩ | ⟨i, hi, hie, hti, hk⟩)
    · exact ⟨e, he, by rw [Function.update_self, heq], hk⟩
    · exact ⟨i, hi, by rw [Function.update_of_ne hie, hti], hk⟩

/-- A slot that is filled joins the occupied ones. -/
theorem occupied_put {e : ℕ} (he : e < c.cap) {s : S} (hs : c.key s ≠ none) :
    c.occupied (Function.update t e s) = insert e (c.occupied t) := by
  ext i
  rw [Finset.mem_insert, mem_occupied, mem_occupied]
  by_cases hie : i = e
  · subst hie
    simp [he, hs]
  · simp [hie]

/-- A slot that is emptied leaves them. -/
theorem occupied_clear {e : ℕ} {s : S} (hs : c.key s = none) :
    c.occupied (Function.update t e s) = (c.occupied t).erase e := by
  ext i
  rw [Finset.mem_erase, mem_occupied, mem_occupied]
  by_cases hie : i = e
  · subst hie
    simp [hs]
  · simp [hie]

/-- **A new key goes into the empty slot its search stops at**, if that leaves one empty. -/
theorem Wf.put (h : Wf c t) {k : K} (hk : ∀ i < c.cap, c.key (t i) ≠ some k) {e : ℕ}
    (he : e < c.cap) (hnone : c.key (t e) = none)
    (hbefore : ∀ q < c.cap, gap c.cap (c.home k) q < gap c.cap (c.home k) e → c.key (t q) ≠ none)
    {s : S} (hs : c.key s = some k) (hroom : (c.occupied t).card + 1 < c.cap) :
    Wf c (Function.update t e s) ∧
      (c.occupied (Function.update t e s)).card = (c.occupied t).card + 1 ∧
      ∀ k' s', c.Holds (Function.update t e s) k' s' ↔
        (k' = k ∧ s' = s) ∨ c.Holds t k' s' := by
  have hkept : ∀ i, i ≠ e → Function.update t e s i = t i := fun i hi =>
    Function.update_of_ne hi _ _
  have hcard : (c.occupied (Function.update t e s)).card = (c.occupied t).card + 1 := by
    rw [occupied_put he (by rw [hs]; simp), Finset.card_insert_of_notMem]
    exact fun hmem => (mem_occupied.mp hmem).2 hnone
  have hfull : ∀ q, c.key (t q) ≠ none → c.key (Function.update t e s q) ≠ none := by
    intro q hq
    have hqe : q ≠ e := fun heq => hq (heq ▸ hnone)
    rwa [hkept q hqe]
  -- a key in two slots would be the new one, which was nowhere; a way that leads over `e` was not
  -- whole before
  refine ⟨⟨?_, ?_, exists_empty (by omega)⟩, hcard, ?_⟩
  · intro i hi j hj k' hki hkj
    by_cases hie : i = e <;> by_cases hje : j = e
    · rw [hie, hje]
    · rw [hie, Function.update_self, hs, Option.some.injEq] at hki
      rw [hkept j hje, ← hki] at hkj
      exact absurd hkj (hk j hj)
    · rw [hje, Function.update_self, hs, Option.some.injEq] at hkj
      rw [hkept i hie, ← hkj] at hki
      exact absurd hki (hk i hi)
    · rw [hkept i hie] at hki
      rw [hkept j hje] at hkj
      exact h.unique i hi j hj k' hki hkj
  · intro i hi k' hki q hq hlt
    by_cases hie : i = e
    · subst hie
      rw [Function.update_self, hs, Option.some.injEq] at hki
      subst hki
      exact hfull q (hbefore q hq hlt)
    · rw [hkept i hie] at hki
      exact hfull q (h.reach i hi k' hki q hq hlt)
  · intro k' s'
    rw [holds_update he]
    constructor
    · rintro (⟨rfl, hk'⟩ | ⟨i, hi, _, hti, hk'⟩)
      · rw [hs, Option.some.injEq] at hk'
        exact Or.inl ⟨hk'.symm, rfl⟩
      · exact Or.inr ⟨i, hi, hti, hk'⟩
    · rintro (⟨rfl, rfl⟩ | ⟨i, hi, hti, hk'⟩)
      · exact Or.inl ⟨rfl, hs⟩
      · refine Or.inr ⟨i, hi, fun hie => ?_, hti, hk'⟩
        rw [hie] at hti
        rw [← hti, hnone] at hk'
        exact absurd hk' (by simp)

/-- A value may be replaced under its key. -/
theorem Wf.overwrite (h : Wf c t) {k : K} {i : ℕ} (hi : i < c.cap) (hki : c.key (t i) = some k)
    {s : S} (hs : c.key s = some k) :
    Wf c (Function.update t i s) ∧
      c.occupied (Function.update t i s) = c.occupied t ∧
      ∀ k' s', c.Holds (Function.update t i s) k' s' ↔
        (k' = k ∧ s' = s) ∨ (k' ≠ k ∧ c.Holds t k' s') := by
  -- the keys stay where they are, and the invariant speaks of keys only
  have hkeys : ∀ j, c.key (Function.update t i s j) = c.key (t j) := by
    intro j
    by_cases hji : j = i
    · subst hji
      rw [Function.update_self, hs, hki]
    · rw [Function.update_of_ne hji]
  refine ⟨⟨?_, ?_, ?_⟩, ?_, ?_⟩
  · simp only [hkeys]
    exact h.unique
  · simp only [hkeys]
    exact h.reach
  · simp only [hkeys]
    exact h.room
  · ext j
    rw [mem_occupied, mem_occupied, hkeys]
  · intro k' s'
    rw [holds_update hi]
    constructor
    · rintro (⟨rfl, hk'⟩ | ⟨j, hj, hji, htj, hk'⟩)
      · rw [hs, Option.some.injEq] at hk'
        exact Or.inl ⟨hk'.symm, rfl⟩
      · refine Or.inr ⟨fun heq => hji ?_, j, hj, htj, hk'⟩
        subst heq
        subst htj
        exact h.unique j hj i hi _ hk' hki
    · rintro (⟨rfl, rfl⟩ | ⟨hne, j, hj, htj, hk'⟩)
      · exact Or.inl ⟨rfl, hs⟩
      · refine Or.inr ⟨j, hj, fun hji => hne ?_, htj, hk'⟩
        subst hji
        rw [← htj, hki, Option.some.injEq] at hk'
        exact hk'.symm

/-! ## Emptying a slot -/

/-- The deletion loop's invariant. `hole` is empty and may be missing from the way to some
entries, but only to entries beyond `j`. -/
structure Shifting (c : Scheme S K) (t : ℕ → S) (hole j : ℕ) : Prop where
  hole_lt : hole < c.cap
  j_lt : j < c.cap
  empty : c.key (t hole) = none
  unique : ∀ i < c.cap, ∀ j < c.cap, ∀ k, c.key (t i) = some k → c.key (t j) = some k → i = j
  /-- Every way is whole but for the hole. -/
  reach : ∀ i < c.cap, ∀ k, c.key (t i) = some k → ∀ q < c.cap,
    gap c.cap (c.home k) q < gap c.cap (c.home k) i → q ≠ hole → c.key (t q) ≠ none
  /-- An entry that the hole is missing from the way to has not been looked at. -/
  looked : ∀ i < c.cap, ∀ k, c.key (t i) = some k →
    gap c.cap (c.home k) hole < gap c.cap (c.home k) i → gap c.cap hole j < gap c.cap hole i

namespace Shifting

variable {hole j : ℕ}

/-- At the next empty slot every way is whole again. -/
theorem finish (hc : Lawful c) (h : Shifting c t hole j) (hne : c.next j ≠ hole)
    (hnone : c.key (t (c.next j)) = none) : Wf c t where
  unique := h.unique
  room := ⟨hole, h.hole_lt, h.empty⟩
  reach := by
    intro i hi k hki q hq hlt
    by_cases hqh : q = hole
    · subst hqh
      -- the way to `i` would lead over the empty slot after `j`
      exfalso
      have hj' := next_lt hc j
      have hhome := hc.home_lt k
      have hbeyond := h.looked i hi k hki hlt
      have hstep := gap_next h.hole_lt h.j_lt hne
      have hji : c.next j ≠ i := by
        rintro rfl
        rw [hnone] at hki
        exact absurd hki (by simp)
      have hfar : gap c.cap q (c.next j) ≠ gap c.cap q i := fun heq =>
        hji (gap_inj hj' hi heq)
      have hsplit := gap_split h.hole_lt hi (Nat.le_of_lt hlt)
      have hway := gap_join (k := c.next j) hhome h.hole_lt
        (by have := gap_lt hhome hi; omega)
      exact h.reach i hi k hki (c.next j) hj' (by omega) hne hnone
    · exact h.reach i hi k hki q hq hlt hqh

/-- An entry that may stay is passed. -/
theorem pass (hc : Lawful c) (h : Shifting c t hole j) (hne : c.next j ≠ hole) {kj : K}
    (hkj : c.key (t (c.next j)) = some kj)
    (hstays : c.stays hole (c.home kj) (c.next j) = true) : Shifting c t hole (c.next j) := by
  have hj' := next_lt hc j
  refine ⟨h.hole_lt, hj', h.empty, h.unique, h.reach, fun i hi k hki hlt => ?_⟩
  have hbeyond := h.looked i hi k hki hlt
  have hstep := gap_next h.hole_lt h.j_lt hne
  have hfar : gap c.cap hole (c.next j) ≠ gap c.cap hole i := by
    intro heq
    have hij := gap_inj hj' hi heq
    subst hij
    rw [hki, Option.some.injEq] at hkj
    subst hkj
    -- its home is after the hole, so the hole is not on its way
    obtain ⟨hpos, hle⟩ := (hc.stays_iff hole (c.home k) (c.next j) h.hole_lt (hc.home_lt k) hj'
      (Ne.symm hne)).mp hstays
    have hhome := hc.home_lt k
    have hhole := h.hole_lt
    unfold gap at hpos hle hlt
    split_ifs at hpos hle hlt <;> omega
  omega

/-- An entry that may not stay moves into the hole, and the hole to where it was. -/
theorem move (hc : Lawful c) (h : Shifting c t hole j) (hne : c.next j ≠ hole) {kj : K}
    (hkj : c.key (t (c.next j)) = some kj)
    (hstays : ¬ c.stays hole (c.home kj) (c.next j) = true) :
    Shifting c (Function.update (Function.update t hole (t (c.next j))) (c.next j)
      (c.clear (t (c.next j)))) (c.next j) (c.next j) := by
  have hj' := next_lt hc j
  have hhome := hc.home_lt kj
  have hhole := h.hole_lt
  generalize hjn : c.next j = m at *
  set t' := Function.update (Function.update t hole (t m)) m (c.clear (t m)) with ht'
  have hat_m : c.key (t' m) = none := by
    rw [ht', Function.update_self]
    exact hc.key_clear _
  have hat_hole : t' hole = t m := by
    rw [ht', Function.update_of_ne (Ne.symm hne), Function.update_self]
  have hat : ∀ i, i ≠ m → i ≠ hole → t' i = t i := by
    intro i him hih
    rw [ht', Function.update_of_ne him, Function.update_of_ne hih]
  -- where an entry of the new table was
  have hfrom : ∀ i < c.cap, ∀ k, c.key (t' i) = some k →
      (i = hole ∧ k = kj) ∨ (i ≠ hole ∧ i ≠ m ∧ c.key (t i) = some k) := by
    intro i hi k hk
    have him : i ≠ m := by
      rintro rfl
      rw [hat_m] at hk
      exact absurd hk (by simp)
    by_cases hih : i = hole
    · subst hih
      rw [hat_hole, hkj, Option.some.injEq] at hk
      exact Or.inl ⟨rfl, hk.symm⟩
    · rw [hat i him hih] at hk
      exact Or.inr ⟨hih, him, hk⟩
  -- what was occupied still is, the slot moved from apart
  have hfull : ∀ q, q ≠ m → (q = hole ∨ c.key (t q) ≠ none) → c.key (t' q) ≠ none := by
    intro q hqm hq
    by_cases hqh : q = hole
    · subst hqh
      rw [hat_hole, hkj]
      simp
    · rw [hat q hqm hqh]
      exact hq.resolve_left hqh
  refine ⟨hj', hj', hat_m, ?_, ?_, ?_⟩
  · intro i hi i' hi' k hk hk'
    rcases hfrom i hi k hk with ⟨rfl, rfl⟩ | ⟨hih, him, hki⟩
    · rcases hfrom i' hi' k hk' with ⟨rfl, _⟩ | ⟨_, him', hki'⟩
      · rfl
      · exact absurd (h.unique i' hi' m hj' k hki' hkj) him'
    · rcases hfrom i' hi' k hk' with ⟨rfl, rfl⟩ | ⟨_, _, hki'⟩
      · exact absurd (h.unique i hi m hj' k hki hkj) him
      · exact h.unique i hi i' hi' k hki hki'
  · intro i hi k hk q hq hlt hqm
    rcases hfrom i hi k hk with ⟨rfl, rfl⟩ | ⟨hih, him, hki⟩
    · -- the way to the hole is the first part of the way to where the entry was
      refine hfull q hqm (Or.inr (h.reach m hj' k hkj q hq ?_ ?_))
      · have hno : ¬ (0 < gap c.cap i (c.home k) ∧ gap c.cap i (c.home k) ≤ gap c.cap i m) :=
          fun hcon => hstays ((hc.stays_iff i (c.home k) m hi hhome hj' (Ne.symm hne)).mpr hcon)
        have hshort : gap c.cap (c.home k) i < gap c.cap (c.home k) m := by
          unfold gap at hno ⊢
          split_ifs at hno ⊢ <;> omega
        omega
      · rintro rfl
        omega
    · by_cases hqh : q = hole
      · exact hfull q hqm (Or.inl hqh)
      · exact hfull q hqm (Or.inr (h.reach i hi k hki q hq hlt hqh))
  · intro i hi k hk _
    rw [gap_self]
    refine gap_pos hj' ?_
    rintro rfl
    rw [hat_m] at hk
    exact absurd hk (by simp)

/-- Moving an entry changes neither what is held nor how much of it. -/
theorem move_holds (hc : Lawful c) (h : Shifting c t hole j) {m : ℕ} (hm : m < c.cap)
    (hne : m ≠ hole) {kj : K} (hkj : c.key (t m) = some kj) :
    (∀ k s, c.Holds (Function.update (Function.update t hole (t m)) m (c.clear (t m))) k s ↔
        c.Holds t k s) ∧
      (c.occupied (Function.update (Function.update t hole (t m)) m (c.clear (t m)))).card =
        (c.occupied t).card := by
  constructor
  · intro k s
    rw [holds_update hm]
    constructor
    · rintro (⟨rfl, hk⟩ | ⟨i, hi, him, hti, hk⟩)
      · rw [hc.key_clear] at hk
        exact absurd hk (by simp)
      · by_cases hih : i = hole
        · subst hih
          rw [Function.update_self] at hti
          exact ⟨m, hm, hti, hk⟩
        · rw [Function.update_of_ne hih] at hti
          exact ⟨i, hi, hti, hk⟩
    · rintro ⟨i, hi, hti, hk⟩
      by_cases him : i = m
      · subst him
        exact Or.inr ⟨hole, h.hole_lt, Ne.symm hne, by rw [Function.update_self, hti], hk⟩
      · have hih : i ≠ hole := by
          rintro rfl
          rw [← hti, h.empty] at hk
          exact absurd hk (by simp)
        exact Or.inr ⟨i, hi, him, by rw [Function.update_of_ne hih, hti], hk⟩
  -- one slot is emptied and one that was empty is filled
  · have hmem : m ∈ c.occupied t := mem_occupied.mpr ⟨hm, by rw [hkj]; simp⟩
    have hout : hole ∉ c.occupied t := fun hin => (mem_occupied.mp hin).2 h.empty
    rw [occupied_clear (hc.key_clear _), occupied_put h.hole_lt (by rw [hkj]; simp),
      Finset.card_erase_of_mem (Finset.mem_insert_of_mem hmem), Finset.card_insert_of_notMem hout,
      Nat.add_sub_cancel]

end Shifting

/-- The table after the entry at `m` has moved into `hole`. -/
def moved (c : Scheme S K) (t : ℕ → S) (hole m : ℕ) : ℕ → S :=
  Function.update (Function.update t hole (t m)) m (c.clear (t m))

/-- **The deletion loop stops** before it reaches an empty slot it has not come from, and what
its two steps keep holds when it does. -/
theorem shift_induct (hc : Lawful c) {P : (ℕ → S) → ℕ → ℕ → Prop}
    (hpass : ∀ t hole j kj, Shifting c t hole j → c.next j ≠ hole →
      c.key (t (c.next j)) = some kj → c.stays hole (c.home kj) (c.next j) = true →
      P t hole j → P t hole (c.next j))
    (hmove : ∀ t hole j kj, Shifting c t hole j → c.next j ≠ hole →
      c.key (t (c.next j)) = some kj → ¬ c.stays hole (c.home kj) (c.next j) = true →
      P t hole j → P (c.moved t hole (c.next j)) (c.next j) (c.next j))
    {e : ℕ} (he : e < c.cap) : ∀ (fuel : ℕ) (t : ℕ → S) (hole j : ℕ), Shifting c t hole j →
    P t hole j → c.key (t e) = none →
    gap c.cap hole j < gap c.cap hole e → gap c.cap hole e ≤ fuel + gap c.cap hole j →
    ∃ t' hole' j', c.shift t fuel hole j = some t' ∧ Shifting c t' hole' j' ∧
      c.next j' ≠ hole' ∧ c.key (t' (c.next j')) = none ∧ P t' hole' j' := by
  -- The induction is on the fuel; what shrinks with it is the way from `j` to the empty slot `e`,
  -- which the loop cannot pass.
  intro fuel
  induction fuel with
  | zero => intro t hole j _ _ _ hlt hle; exact absurd hle (by omega)
  | succ fuel ih =>
    intro t hole j h hp hnone hlt hle
    have hj' := next_lt hc j
    -- it has not come round to the hole again, since `e` lies before it
    have hne : c.next j ≠ hole := by
      intro heq
      have hround := gap_next_left (c := c) h.j_lt h.hole_lt
      have hfar := gap_lt h.hole_lt he
      have hj := h.j_lt
      rw [next_eq hj] at heq
      unfold gap at hlt hfar
      split_ifs at heq hlt hfar <;> omega
    have hstep := gap_next h.hole_lt h.j_lt hne
    rw [shift]
    cases hkj : c.key (t (c.next j)) with
    | none => exact ⟨t, hole, j, rfl, h, hne, hkj, hp⟩
    | some kj =>
      have hje : c.next j ≠ e := by
        rintro rfl
        rw [hnone] at hkj
        exact absurd hkj (by simp)
      have hfar : gap c.cap hole (c.next j) ≠ gap c.cap hole e := fun heq =>
        hje (gap_inj hj' he heq)
      simp only
      by_cases hstays : c.stays hole (c.home kj) (c.next j) = true
      · rw [if_pos hstays]
        exact ih t hole (c.next j) (h.pass hc hne hkj hstays)
          (hpass t hole j kj h hne hkj hstays hp) hnone (by omega) (by omega)
      · rw [if_neg hstays]
        have heh : e ≠ hole := by
          rintro rfl
          rw [gap_self] at hlt
          exact absurd hlt (Nat.not_lt_zero _)
        -- measured from the new hole, the way to `e` is what is left of the old one
        have hsplit := gap_split hj' he (by omega : gap c.cap hole (c.next j) ≤ gap c.cap hole e)
        exact ih _ (c.next j) (c.next j) (h.move hc hne hkj hstays)
          (hmove t hole j kj h hne hkj hstays hp)
          (by rw [Function.update_of_ne (Ne.symm hje), Function.update_of_ne heh]; exact hnone)
          (by rw [gap_self]; exact gap_pos hj' hje) (by rw [gap_self]; omega)

/-- It leaves the contents alone. -/
theorem shift_spec (hc : Lawful c) {e : ℕ} (he : e < c.cap) (fuel : ℕ) (t : ℕ → S)
    (hole j : ℕ) (h : Shifting c t hole j) (hnone : c.key (t e) = none)
    (hlt : gap c.cap hole j < gap c.cap hole e)
    (hle : gap c.cap hole e ≤ fuel + gap c.cap hole j) :
    ∃ t', c.shift t fuel hole j = some t' ∧ Wf c t' ∧
      (∀ k s, c.Holds t' k s ↔ c.Holds t k s) ∧ (c.occupied t').card = (c.occupied t).card := by
  obtain ⟨t', hole', j', hs, h', hne, hend, hsame⟩ := shift_induct hc
    (P := fun t' _ _ => (∀ k s, c.Holds t' k s ↔ c.Holds t k s) ∧
      (c.occupied t').card = (c.occupied t).card)
    (fun _ _ _ _ _ _ _ _ hp => hp)
    (fun _ _ j _ h hne hkj _ hp => by
      obtain ⟨hholds, hcard⟩ := h.move_holds hc (next_lt hc j) hne hkj
      exact ⟨fun k s => (hholds k s).trans (hp.1 k s), hcard.trans hp.2⟩)
    he fuel t hole j h ⟨fun _ _ => Iff.rfl, rfl⟩ hnone hlt hle
  exact ⟨t', hs, h'.finish hc hne hend, hsame⟩

/-- The hole the deletion of slot `i` starts from. -/
theorem shifting_start (hc : Lawful c) (h : Wf c t) {i : ℕ} (hi : i < c.cap) :
    Shifting c (Function.update t i (c.clear (t i))) i i := by
  have hcleared : c.key (Function.update t i (c.clear (t i)) i) = none := by
    rw [Function.update_self]
    exact hc.key_clear _
  have hother : ∀ j k', c.key (Function.update t i (c.clear (t i)) j) = some k' →
      j ≠ i ∧ c.key (t j) = some k' := by
    intro j k' hk'
    have hji : j ≠ i := by
      rintro rfl
      rw [hcleared] at hk'
      exact absurd hk' (by simp)
    rw [Function.update_of_ne hji] at hk'
    exact ⟨hji, hk'⟩
  refine ⟨hi, hi, hcleared, ?_, ?_, ?_⟩
  · intro a ha b hb k' hka hkb
    exact h.unique a ha b hb k' (hother a k' hka).2 (hother b k' hkb).2
  · intro a ha k' hka q hq hlt hqi
    rw [Function.update_of_ne hqi]
    exact h.reach a ha k' (hother a k' hka).2 q hq hlt
  · intro a ha k' hka _
    rw [gap_self]
    exact gap_pos hi (Ne.symm (hother a k' hka).1)

/-- **Deleting a key** forgets it and nothing else. -/
theorem erase_spec (hc : Lawful c) (h : Wf c t) {i : ℕ} (hi : i < c.cap) {k : K}
    (hki : c.key (t i) = some k) :
    ∃ t', c.erase t i = some t' ∧ Wf c t' ∧
      (∀ k' s, c.Holds t' k' s ↔ k' ≠ k ∧ c.Holds t k' s) ∧
      (c.occupied t').card + 1 = (c.occupied t).card := by
  obtain ⟨e, he, hnone⟩ := h.room
  have hie : i ≠ e := by
    rintro rfl
    rw [hnone] at hki
    exact absurd hki (by simp)
  obtain ⟨t', hs, hwf, hsame, hsize⟩ := shift_spec hc he c.cap _ i i
    (shifting_start hc h hi)
    (by rw [Function.update_of_ne (Ne.symm hie)]; exact hnone)
    (by rw [gap_self]; exact gap_pos hi hie)
    (by have := gap_lt hi he; rw [gap_self]; omega)
  refine ⟨t', hs, hwf, fun k' s => (hsame k' s).trans ?_, ?_⟩
  · rw [holds_update hi]
    constructor
    · rintro (⟨rfl, hk'⟩ | ⟨j, hj, hji, htj, hk'⟩)
      · rw [hc.key_clear] at hk'
        exact absurd hk' (by simp)
      · refine ⟨fun heq => hji ?_, j, hj, htj, hk'⟩
        subst heq
        subst htj
        exact h.unique j hj i hi _ hk' hki
    · rintro ⟨hne, j, hj, htj, hk'⟩
      refine Or.inr ⟨j, hj, fun hji => hne ?_, htj, hk'⟩
      subst hji
      rw [← htj, hki, Option.some.injEq] at hk'
      exact hk'.symm
  · have hmem : i ∈ c.occupied t := mem_occupied.mpr ⟨hi, by rw [hki]; simp⟩
    have hpos : 0 < (c.occupied t).card := Finset.card_pos.mpr ⟨i, hmem⟩
    rw [hsize, occupied_clear (hc.key_clear _), Finset.card_erase_of_mem hmem]
    omega

end Scheme

end Probe

end Tickerplant.Lib
