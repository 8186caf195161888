import Tickerplant.Lib.Probe

/-!
# The order behind a probed table

Where linear probing puts a key depends on the keys that were there first. `Ranked` records that:
give every key a rank, say the time of its insertion, and all slots on the way to a key hold keys
of lower rank. An insertion at the empty slot the search stops at keeps this for a key that comes
last (`Ranked.put`). So does the deletion loop (`erase_ranked`): an entry that moves back moves
along its own way, and whoever had the deleted key on its way then has the moved one there, which
it had on its way before. And two tables of the same keys that are ranked alike are the same, slot
by slot (`ranked_unique`), so a deletion leaves what the other keys alone would have built.

The last step is an induction on the rank. Were the two slots of a key different, one of them would
lie on the way to the other, and in that table hold a key of lower rank. That key has one slot in
both tables, by induction, so in the other table it would be where the key itself is.
-/

set_option autoImplicit false

namespace Tickerplant.Lib

namespace Probe.Scheme

variable {S K : Type} {c : Scheme S K} {t : ℕ → S} {rank : K → ℕ}

/-- All slots on the way to a key hold keys of lower rank. -/
def Ranked (c : Scheme S K) (t : ℕ → S) (rank : K → ℕ) : Prop :=
  ∀ i < c.cap, ∀ k, c.key (t i) = some k → ∀ q < c.cap,
    gap c.cap (c.home k) q < gap c.cap (c.home k) i → ∃ k', c.key (t q) = some k' ∧ rank k' < rank k

/-- The same while a deletion is under way: all slots but the hole. -/
def RankedBut (c : Scheme S K) (t : ℕ → S) (rank : K → ℕ) (hole : ℕ) : Prop :=
  ∀ i < c.cap, ∀ k, c.key (t i) = some k → ∀ q < c.cap,
    gap c.cap (c.home k) q < gap c.cap (c.home k) i → q ≠ hole →
      ∃ k', c.key (t q) = some k' ∧ rank k' < rank k

/-- There is nothing to rank. -/
theorem ranked_empty (hempty : ∀ i < c.cap, c.key (t i) = none) : Ranked c t rank :=
  fun i hi k hk => absurd hk (by rw [hempty i hi]; simp)

/-- Ranks matter for the keys in the table only. -/
theorem Ranked.congr (h : Ranked c t rank) {rank' : K → ℕ}
    (heq : ∀ i < c.cap, ∀ k, c.key (t i) = some k → rank' k = rank k) : Ranked c t rank' := by
  intro i hi k hk q hq hlt
  obtain ⟨k', hk', hr⟩ := h i hi k hk q hq hlt
  exact ⟨k', hk', by rwa [heq q hq k' hk', heq i hi k hk]⟩

/-- A table whose slots hold the same keys is ranked alike. -/
theorem Ranked.of_keys (h : Ranked c t rank) {t' : ℕ → S}
    (heq : ∀ i, c.key (t' i) = c.key (t i)) : Ranked c t' rank := by
  unfold Ranked
  simp only [heq]
  exact h

/-- **A key of the highest rank goes last.** -/
theorem Ranked.put (h : Ranked c t rank) {k : K} {e : ℕ} (hnone : c.key (t e) = none)
    (hbefore : ∀ q < c.cap, gap c.cap (c.home k) q < gap c.cap (c.home k) e → c.key (t q) ≠ none)
    (hlast : ∀ i < c.cap, ∀ k', c.key (t i) = some k' → rank k' < rank k)
    {s : S} (hs : c.key s = some k) : Ranked c (Function.update t e s) rank := by
  have hkept : ∀ q k', c.key (t q) = some k' → c.key (Function.update t e s q) = some k' := by
    intro q k' hk'
    have hqe : q ≠ e := by
      rintro rfl
      rw [hnone] at hk'
      exact absurd hk' (by simp)
    rw [Function.update_of_ne hqe]
    exact hk'
  intro i hi k' hk' q hq hlt
  by_cases hie : i = e
  · subst hie
    rw [Function.update_self, hs, Option.some.injEq] at hk'
    subst hk'
    obtain ⟨k', hk'⟩ := Option.ne_none_iff_exists'.mp (hbefore q hq hlt)
    exact ⟨k', hkept q k' hk', hlast q hq k' hk'⟩
  · rw [Function.update_of_ne hie] at hk'
    obtain ⟨k'', hk'', hr⟩ := h i hi k' hk' q hq hlt
    exact ⟨k'', hkept q k'' hk'', hr⟩

/-- An entry that moves back moves along its own way. -/
theorem RankedBut.move (hc : Lawful c) {hole j : ℕ} (h : RankedBut c t rank hole)
    (hs : Shifting c t hole j) (hne : c.next j ≠ hole) {kj : K}
    (hkj : c.key (t (c.next j)) = some kj)
    (hstays : ¬ c.stays hole (c.home kj) (c.next j) = true) :
    RankedBut c (c.moved t hole (c.next j)) rank (c.next j) := by
  have hm := next_lt hc j
  have hstep := gap_next hs.hole_lt hs.j_lt hne
  have hhome := hc.home_lt kj
  have hhole := hs.hole_lt
  have hlooked := hs.looked
  generalize c.next j = m at *
  have hat_m : c.key (c.moved t hole m m) = none := by
    rw [moved, Function.update_self]
    exact hc.key_clear _
  have hat_hole : c.moved t hole m hole = t m := by
    rw [moved, Function.update_of_ne (Ne.symm hne), Function.update_self]
  have hat : ∀ i, i ≠ m → i ≠ hole → c.moved t hole m i = t i := by
    intro i him hih
    rw [moved, Function.update_of_ne him, Function.update_of_ne hih]
  -- the hole is on the way the entry came
  have hshort : gap c.cap (c.home kj) hole < gap c.cap (c.home kj) m := by
    have hno : ¬ (0 < gap c.cap hole (c.home kj) ∧
        gap c.cap hole (c.home kj) ≤ gap c.cap hole m) :=
      fun hcon => hstays ((hc.stays_iff hole (c.home kj) m hhole hhome hm (Ne.symm hne)).mpr hcon)
    unfold gap at hno ⊢
    split_ifs at hno ⊢ <;> omega
  intro i hi k hk q hq hlt hqm
  have him : i ≠ m := by
    rintro rfl
    rw [hat_m] at hk
    exact absurd hk (by simp)
  by_cases hih : i = hole
  · subst hih
    rw [hat_hole, hkj, Option.some.injEq] at hk
    subst hk
    have hqh : q ≠ i := by
      rintro rfl
      exact absurd hlt (Nat.lt_irrefl _)
    rw [hat q hqm hqh]
    exact h m hm kj hkj q hq (Nat.lt_trans hlt hshort) hqh
  · rw [hat i him hih] at hk
    by_cases hqh : q = hole
    · subst hqh
      -- what stood at `m` stood on the way to `i` too, being past the hole and short of `i`
      refine ⟨kj, by rw [hat_hole, hkj], ?_⟩
      have hbeyond := hlooked i hi k hk hlt
      have hfar : gap c.cap q m ≠ gap c.cap q i := fun heq => him (gap_inj hm hi heq).symm
      have hsplit := gap_split hhole hi (Nat.le_of_lt hlt)
      have hway := gap_join (k := m) (hc.home_lt k) hhole
        (by have := gap_lt (hc.home_lt k) hi; omega)
      obtain ⟨k', hk', hr⟩ := h i hi k hk m hm (by omega) hne
      rw [hkj, Option.some.injEq] at hk'
      exact hk' ▸ hr
    · rw [hat q hqm hqh]
      exact h i hi k hk q hq hlt hqh

/-- **A deletion keeps the ranks.** -/
theorem erase_ranked (hc : Lawful c) (h : Wf c t) (hr : Ranked c t rank) {i : ℕ} (hi : i < c.cap)
    {k : K} (hki : c.key (t i) = some k) {t' : ℕ → S} (he : c.erase t i = some t') :
    Ranked c t' rank := by
  obtain ⟨e, hecap, hnone⟩ := h.room
  have hie : i ≠ e := by
    rintro rfl
    rw [hnone] at hki
    exact absurd hki (by simp)
  have hstart : RankedBut c (Function.update t i (c.clear (t i))) rank i := by
    intro a ha ka hka q hq hlt hqi
    have hai : a ≠ i := by
      rintro rfl
      rw [Function.update_self, hc.key_clear] at hka
      exact absurd hka (by simp)
    rw [Function.update_of_ne hai] at hka
    rw [Function.update_of_ne hqi]
    exact hr a ha ka hka q hq hlt
  obtain ⟨t'', hole, j, hs, hshift, hne, hend, hbut⟩ := shift_induct hc
    (P := fun t' hole _ => RankedBut c t' rank hole)
    (fun _ _ _ _ _ _ _ _ hp => hp)
    (fun _ _ _ _ h hne hkj hstays hp => hp.move hc h hne hkj hstays)
    hecap c.cap _ i i (shifting_start hc h hi) hstart
    (by rw [Function.update_of_ne (Ne.symm hie)]; exact hnone)
    (by rw [gap_self]; exact gap_pos hi hie)
    (by have := gap_lt hi hecap; rw [gap_self]; omega)
  obtain rfl : t'' = t' := Option.some.inj (hs.symm.trans he)
  -- the hole the loop ends at is on nobody's way
  have hwf := hshift.finish hc hne hend
  intro a ha ka hka q hq hlt
  refine hbut a ha ka hka q hq hlt ?_
  rintro rfl
  exact hwf.reach a ha ka hka q hq hlt hshift.empty

/-- **Ranks decide the table.** -/
theorem ranked_unique {t' : ℕ → S} (hr : Ranked c t rank) (hr' : Ranked c t' rank)
    (hsame : ∀ k, (∃ i < c.cap, c.key (t i) = some k) ↔ ∃ i < c.cap, c.key (t' i) = some k) :
    ∀ i < c.cap, c.key (t i) = c.key (t' i) := by
  -- by induction on its rank, a key has the same slot in both
  have hslot : ∀ n k, rank k = n → ∀ i < c.cap, ∀ i' < c.cap, c.key (t i) = some k →
      c.key (t' i') = some k → i = i' := by
    intro n
    induction n using Nat.strong_induction_on with
    | _ n ih =>
      intro k hn i hi i' hi' hk hk'
      rcases Nat.lt_trichotomy (gap c.cap (c.home k) i) (gap c.cap (c.home k) i') with
        hlt | heq | hgt
      · obtain ⟨k1, hk1, hlow⟩ := hr' i' hi' k hk' i hi hlt
        obtain ⟨i1, hi1, hki1⟩ := (hsame k1).mpr ⟨i, hi, hk1⟩
        obtain rfl := ih (rank k1) (by omega) k1 rfl i1 hi1 i hi hki1 hk1
        rw [hk, Option.some.injEq] at hki1
        subst hki1
        exact absurd hlow (Nat.lt_irrefl _)
      · exact gap_inj hi hi' heq
      · obtain ⟨k1, hk1, hlow⟩ := hr i hi k hk i' hi' hgt
        obtain ⟨i1, hi1, hki1⟩ := (hsame k1).mp ⟨i', hi', hk1⟩
        obtain rfl := ih (rank k1) (by omega) k1 rfl i' hi' i1 hi1 hk1 hki1
        rw [hk', Option.some.injEq] at hki1
        subst hki1
        exact absurd hlow (Nat.lt_irrefl _)
  intro i hi
  cases hk : c.key (t i) with
  | some k =>
    obtain ⟨i', hi', hk'⟩ := (hsame k).mp ⟨i, hi, hk⟩
    obtain rfl := hslot (rank k) k rfl i hi i' hi' hk hk'
    exact hk'.symm
  | none =>
    cases hk' : c.key (t' i) with
    | none => rfl
    | some k =>
      obtain ⟨i', hi', hki'⟩ := (hsame k).mpr ⟨i, hi, hk'⟩
      obtain rfl := hslot (rank k) k rfl i' hi' i hi hki' hk'
      rw [hk] at hki'
      exact absurd hki' (by simp)

/-- The search sees the keys only. -/
theorem walk_congr [DecidableEq K] {t' : ℕ → S} (hc : Lawful c)
    (heq : ∀ i < c.cap, c.key (t i) = c.key (t' i)) (k : K) : ∀ (fuel i : ℕ), i < c.cap →
    c.walk t k fuel i = c.walk t' k fuel i := by
  intro fuel
  induction fuel with
  | zero => exact fun _ _ => rfl
  | succ fuel ih =>
    intro i hi
    rw [walk, walk, heq i hi, ih (c.next i) (next_lt hc i)]

end Probe.Scheme

end Tickerplant.Lib
