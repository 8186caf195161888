import Mathlib.Tactic.NormNum
import Tickerplant.Lib.Probe
import Tickerplant.Lib.Word

/-!
# The order reference table (`include/tick/flat_order_map.hpp`)

The open-addressed table from 64-bit references to values: `keys_[i]` and `vals_[i]` side by side,
zero marking an empty slot, deletion by backward shift. The probing and shifting loops are the ones
of `Lib/Probe`, run with as much fuel as there are slots; a table that ran out would answer `none`.
It never does (`find_eq`, `insert_eq`, `erase_eq`): whatever was done to it, a table answers as the
finite map `toMap`, and it grows before it could fill up.

The invariant `Wf` has four clauses. That the capacity is a power of two makes `& mask_` a
remainder; that probing sequences have no holes is the library's; that `size_` counts the occupied
slots and stays within `kMaxLoad` is why a loop always meets an empty slot and stops.

`insert` and `grow` call each other in the source, and `grow` inserts into a table with room for
everything. The recursion is therefore two deep and no deeper, and `insertNested` counts the depth:
`insert` is its value at two, and that a third level is never asked for is `growWith_eq`.
-/

set_option autoImplicit false

namespace Tickerplant

open Lib.Probe

/-- The key that marks an empty slot. References start at one, and a caller who comes with zero is
refused. -/
def kEmptyKey : UInt64 := 0

/-- `SplitMix64Hash`. -/
def splitMix64 (x : UInt64) : UInt64 :=
  let x := (x ^^^ (x >>> 30)) * 0xbf58476d1ce4e5b9
  let x := (x ^^^ (x >>> 27)) * 0x94d049bb133111eb
  x ^^^ (x >>> 31)

/-- `IdentityHash`. -/
def identityHash (x : UInt64) : UInt64 := x

/-- `keys_` and `vals_`; `mask_` is `cap - 1`. -/
structure FlatOrderMap (V : Type) where
  /-- How many slots there are, always a power of two. -/
  cap : ℕ
  /-- Key and value of each slot. Past the capacity they are not looked at. -/
  slots : ℕ → UInt64 × V
  /-- `size_`, the slots that are taken. -/
  size : ℕ
  /-- `grows_`, which the benchmarks read to see that a day did not rehash. -/
  grows : ℕ

namespace FlatOrderMap

/-- Is `x` in the cyclic interval that ends at `hi` and begins after `lo`. -/
def cyclicallyBetween (lo x hi : ℕ) : Bool :=
  if lo ≤ hi then decide (lo < x) && decide (x ≤ hi) else decide (lo < x) || decide (x ≤ hi)

/-- How the probing loops read a table of `cap` slots. -/
def scheme (V : Type) (hash : UInt64 → UInt64) (cap : ℕ) : Scheme (UInt64 × V) UInt64 where
  cap := cap
  key := fun s => if s.1 = kEmptyKey then none else some s.1
  clear := fun s => (kEmptyKey, s.2)
  home := fun k => (hash k).toNat &&& (cap - 1)
  stays := cyclicallyBetween

/-- A table of `cap` empty slots. -/
def empty {V : Type} [Inhabited V] (cap : ℕ) : FlatOrderMap V :=
  { cap := cap, slots := fun _ => (kEmptyKey, default), size := 0, grows := 0 }

/-- `FlatOrderMap(capacity_hint)`. -/
def make {V : Type} [Inhabited V] (hint : ℕ) : FlatOrderMap V := empty (Lib.roundUpPow2 hint)

/-- `cap * kMaxLoad`. The double nearest to `0.6` is `5404319552844595 / 2 ^ 53`, and a power of
two times it is exact. -/
def maxFill (cap : ℕ) : ℕ := cap * 5404319552844595 / 9007199254740992

variable {V : Type} (hash : UInt64 → UInt64)

/-- `find`. -/
def find (t : FlatOrderMap V) (key : UInt64) : Option (Option V) :=
  if key = kEmptyKey then some none
  else
    let c := scheme V hash t.cap
    (c.walk t.slots key t.cap (c.home key)).map fun i =>
      if (t.slots i).1 = key then some (t.slots i).2 else none

/-- `insert`, after the table has made room. -/
def place (t : FlatOrderMap V) (key : UInt64) (value : V) : Option (Bool × FlatOrderMap V) :=
  let c := scheme V hash t.cap
  (c.walk t.slots key t.cap (c.home key)).map fun i =>
    if (t.slots i).1 = key then
      (false, { t with slots := Function.update t.slots i (key, value) })
    else
      (true, { t with slots := Function.update t.slots i (key, value), size := t.size + 1 })

/-- `grow`, by way of `insert`. -/
def growWith [Inhabited V] (insert : FlatOrderMap V → UInt64 → V → Option (Bool × FlatOrderMap V))
    (t : FlatOrderMap V) : Option (FlatOrderMap V) :=
  -- the counter is carried over by hand: the new table is not the old one's
  ((List.range t.cap).foldlM (fun (t' : FlatOrderMap V) i =>
      if (t.slots i).1 = kEmptyKey then some t'
      else (insert t' (t.slots i).1 (t.slots i).2).map Prod.snd)
    { empty (t.cap * 2) with grows := t.grows }).map fun t' => { t' with grows := t'.grows + 1 }

/-- `insert`, nested `depth` deep. -/
def insertNested [Inhabited V] :
    (depth : ℕ) → FlatOrderMap V → UInt64 → V → Option (Bool × FlatOrderMap V)
  | 0, _, _, _ => none
  | depth + 1, t, key, value =>
    if key = kEmptyKey then some (false, t)
    else if maxFill t.cap < t.size + 1 then
      (growWith (insertNested depth) t).bind fun t' => t'.place hash key value
    else t.place hash key value

/-- `insert`. The calls `grow` makes do not grow again. -/
def insert [Inhabited V] (t : FlatOrderMap V) (key : UInt64) (value : V) :
    Option (Bool × FlatOrderMap V) := insertNested hash 2 t key value

/-- `erase`. -/
def erase (t : FlatOrderMap V) (key : UInt64) : Option (Bool × FlatOrderMap V) :=
  if key = kEmptyKey then some (false, t)
  else
    let c := scheme V hash t.cap
    (c.walk t.slots key t.cap (c.home key)).bind fun i =>
      if (t.slots i).1 = key then
        (c.erase t.slots i).map fun slots => (true, { t with slots := slots, size := t.size - 1 })
      else some (false, t)

/-! ## The loops' terms -/

section Scheme

variable {hash} {cap : ℕ}

theorem key_some {s : UInt64 × V} {k : UInt64} :
    (scheme V hash cap).key s = some k ↔ s.1 = k ∧ k ≠ kEmptyKey := by
  simp only [scheme]
  split
  · rename_i h
    constructor
    · intro hc
      exact absurd hc (by simp)
    · rintro ⟨rfl, hne⟩
      exact absurd h hne
  · rename_i h
    rw [Option.some.injEq]
    constructor
    · rintro rfl
      exact ⟨rfl, h⟩
    · exact fun hk => hk.1

theorem key_none {s : UInt64 × V} : (scheme V hash cap).key s = none ↔ s.1 = kEmptyKey := by
  simp only [scheme]
  split
  · rename_i h
    exact ⟨fun _ => h, fun _ => rfl⟩
  · rename_i h
    exact ⟨fun hc => absurd hc (by simp), fun hc => absurd hc h⟩

/-- `& mask_` is the remainder, in a table of a power of two slots. -/
theorem lawful {m : ℕ} (hcap : cap = 2 ^ m) : (scheme V hash cap).Lawful where
  cap_pos := by
    show 0 < cap
    rw [hcap]
    exact Nat.two_pow_pos m
  home_lt := by
    intro k
    show (hash k).toNat &&& (cap - 1) < cap
    rw [hcap, Nat.and_two_pow_sub_one_eq_mod]
    exact Nat.mod_lt _ (Nat.two_pow_pos m)
  key_clear := fun s => by simp [scheme]
  -- the source asks for a cyclic interval with comparisons, the library for distances round the
  -- table
  stays_iff := by
    intro hole ideal j hhole hideal hj hne
    show cyclicallyBetween hole ideal j = true ↔ _
    have hhole : hole < cap := hhole
    have hideal : ideal < cap := hideal
    have hj : j < cap := hj
    show _ ↔ 0 < gap cap hole ideal ∧ gap cap hole ideal ≤ gap cap hole j
    unfold cyclicallyBetween gap
    split_ifs <;> simp only [Bool.and_eq_true, Bool.or_eq_true, decide_eq_true_eq] <;> omega

end Scheme

/-! ## Capacities -/

/-- The table never counts on its last slot. -/
theorem maxFill_lt {cap : ℕ} (h : 0 < cap) : maxFill cap < cap := by
  unfold maxFill
  omega

/-- One growth makes room. -/
theorem maxFill_double {cap : ℕ} (h : 0 < cap) : maxFill cap + 1 ≤ maxFill (cap * 2) := by
  unfold maxFill
  rcases Nat.lt_or_ge 1 cap with h2 | h1
  · rw [← Nat.add_div_right _ (by norm_num)]
    exact Nat.div_le_div_right (by omega)
  · obtain rfl : cap = 1 := by omega
    norm_num

/-! ## The finite map -/

/-- What the table maps a reference to. -/
def toMap (t : FlatOrderMap V) (k : UInt64) : Option V :=
  (((List.range t.cap).map t.slots).find? fun s => decide (s.1 ≠ kEmptyKey ∧ s.1 = k)).map Prod.snd

/-- **The table's invariant.** -/
structure Wf (t : FlatOrderMap V) : Prop where
  /-- `& mask_` is a remainder. -/
  pow : ∃ m, t.cap = 2 ^ m
  /-- Every key can be reached from its home slot, and no key is there twice. -/
  probe : (scheme V hash t.cap).Wf t.slots
  /-- The counter is the truth. -/
  size_eq : t.size = ((scheme V hash t.cap).occupied t.slots).card
  /-- There is an empty slot, so that a search ends. -/
  fill : t.size ≤ maxFill t.cap

variable {hash}

namespace Wf

variable {t : FlatOrderMap V}

theorem lawful (h : Wf hash t) : (scheme V hash t.cap).Lawful := by
  obtain ⟨m, hm⟩ := h.pow
  exact FlatOrderMap.lawful hm

theorem cap_pos (h : Wf hash t) : 0 < t.cap := h.lawful.cap_pos

theorem toMap_some (h : Wf hash t) {k : UInt64} {v : V} :
    t.toMap k = some v ↔ (scheme V hash t.cap).Holds t.slots k (k, v) := by
  unfold toMap
  rw [Option.map_eq_some_iff]
  constructor
  · rintro ⟨s, hs, rfl⟩
    have hmem := List.mem_of_find?_eq_some hs
    have hkey := List.find?_some hs
    obtain ⟨i, hi, rfl⟩ := List.mem_map.mp hmem
    simp only [decide_eq_true_eq] at hkey
    obtain ⟨hne, rfl⟩ := hkey
    exact ⟨i, List.mem_range.mp hi, rfl, key_some.mpr ⟨rfl, hne⟩⟩
  · rintro ⟨i, hi, hti, hk⟩
    obtain ⟨_, hne⟩ := key_some.mp hk
    cases hf : ((List.range t.cap).map t.slots).find?
        fun s => decide (s.1 ≠ kEmptyKey ∧ s.1 = k) with
    | none =>
      have hnone := List.find?_eq_none.mp hf (t.slots i)
        (List.mem_map.mpr ⟨i, List.mem_range.mpr hi, rfl⟩)
      exact absurd (by rw [hti]; simp [hne]) hnone
    | some s =>
      have hmem := List.mem_of_find?_eq_some hf
      have hkey := List.find?_some hf
      obtain ⟨j, hj, rfl⟩ := List.mem_map.mp hmem
      simp only [decide_eq_true_eq] at hkey
      obtain ⟨hne', heq⟩ := hkey
      -- the first match is the only one, as no key is in two slots
      have hij := h.probe.unique j (List.mem_range.mp hj) i hi k
        (key_some.mpr ⟨heq, heq ▸ hne'⟩) (hti.symm ▸ hk)
      exact ⟨_, rfl, by rw [hij, hti]⟩

theorem toMap_none (h : Wf hash t) {k : UInt64} :
    t.toMap k = none ↔ ∀ i < t.cap, (scheme V hash t.cap).key (t.slots i) ≠ some k := by
  constructor
  · intro hnone i hi hki
    obtain ⟨heq, _⟩ := key_some.mp hki
    have hsome : t.toMap k = some (t.slots i).2 :=
      h.toMap_some.mpr ⟨i, hi, by rw [← heq], by rw [← heq] at hki ⊢; exact hki⟩
    rw [hnone] at hsome
    exact absurd hsome (by simp)
  · intro hall
    cases hv : t.toMap k with
    | none => rfl
    | some v =>
      obtain ⟨i, hi, hti, hki⟩ := h.toMap_some.mp hv
      exact absurd (by rw [hti]; exact hki) (hall i hi)

/-- Key zero is in no table. -/
theorem toMap_zero (h : Wf hash t) : t.toMap kEmptyKey = none := by
  cases hv : t.toMap kEmptyKey with
  | none => rfl
  | some v =>
    obtain ⟨_, _, _, hk⟩ := h.toMap_some.mp hv
    exact absurd rfl (key_some.mp hk).2

end Wf

/-! ## The operations -/

section Operations

variable {t : FlatOrderMap V}

/-- A new table is empty. -/
theorem wf_empty [Inhabited V] {cap : ℕ} (hcap : ∃ m, cap = 2 ^ m) :
    Wf hash (empty cap : FlatOrderMap V) := by
  obtain ⟨m, hm⟩ := hcap
  have hnone : ∀ i < (scheme V hash cap).cap,
      (scheme V hash cap).key ((empty cap : FlatOrderMap V).slots i) = none :=
    fun _ _ => key_none.mpr rfl
  refine ⟨⟨m, hm⟩, Scheme.wf_empty (lawful hm) hnone, ?_, Nat.zero_le _⟩
  show 0 = ((scheme V hash cap).occupied _).card
  rw [Scheme.occupied_empty hnone, Finset.card_empty]

theorem wf_make [Inhabited V] (hint : ℕ) : Wf hash (make hint : FlatOrderMap V) :=
  wf_empty (Lib.roundUpPow2_pow hint)

theorem toMap_empty [Inhabited V] (cap : ℕ) (k : UInt64) :
    (empty cap : FlatOrderMap V).toMap k = none := by
  have hf : ((List.range cap).map (empty cap : FlatOrderMap V).slots).find?
      (fun s => decide (s.1 ≠ kEmptyKey ∧ s.1 = k)) = none := by
    refine List.find?_eq_none.mpr fun s hs => ?_
    obtain ⟨i, _, rfl⟩ := List.mem_map.mp hs
    simp [empty]
  unfold toMap
  rw [show (empty cap : FlatOrderMap V).cap = cap from rfl, hf]
  rfl

/-- The map, read off what the slots hold. -/
theorem Wf.toMap_eq {t' : FlatOrderMap V} (h' : Wf hash t') {f : UInt64 → Option V}
    (hiff : ∀ k v, (scheme V hash t'.cap).Holds t'.slots k (k, v) ↔ f k = some v) :
    t'.toMap = f := by
  funext k
  exact Option.ext fun v => h'.toMap_some.trans (hiff k v)

/-- **`find` is the map's lookup.** -/
theorem find_eq (h : Wf hash t) (key : UInt64) : t.find hash key = some (t.toMap key) := by
  unfold find
  split
  · rename_i hz
    rw [hz, h.toMap_zero]
  · rename_i hz
    simp only
    cases hv : t.toMap key with
    | some v =>
      obtain ⟨i, hi, hti, hki⟩ := h.toMap_some.mp hv
      -- the walk stops at the key's slot
      have hw := Scheme.walk_holds h.lawful h.probe hi (hti.symm ▸ hki)
      simp only [show (scheme V hash t.cap).cap = t.cap from rfl] at hw
      rw [hw, Option.map_some, hti]
      simp
    | none =>
      -- the walk stops at the first empty slot, which there is
      obtain ⟨e, _, hw, hnone, _⟩ := Scheme.walk_absent h.lawful h.probe (h.toMap_none.mp hv)
      simp only [show (scheme V hash t.cap).cap = t.cap from rfl] at hw
      have hempty : (t.slots e).1 ≠ key := fun heq => hz (heq ▸ key_none.mp hnone)
      rw [hw, Option.map_some, if_neg hempty]

/-- The tail of `insert`, in a table with room. -/
theorem place_eq (h : Wf hash t) {key : UInt64} (hz : key ≠ kEmptyKey) (value : V)
    (hroom : t.toMap key = none → t.size + 1 ≤ maxFill t.cap) :
    ∃ t', t.place hash key value = some ((t.toMap key).isNone, t') ∧ Wf hash t' ∧
      t'.cap = t.cap ∧ t'.size = (if (t.toMap key).isNone then t.size + 1 else t.size) ∧
      t'.toMap = Function.update t.toMap key (some value) := by
  have hkey : (scheme V hash t.cap).key (key, value) = some key := key_some.mpr ⟨rfl, hz⟩
  unfold place
  simp only
  cases hv : t.toMap key with
  | some v =>
    obtain ⟨i, hi, hti, hki⟩ := h.toMap_some.mp hv
    have hw := Scheme.walk_holds h.lawful h.probe hi (hti.symm ▸ hki)
    simp only [show (scheme V hash t.cap).cap = t.cap from rfl] at hw
    -- the key is there: its value is overwritten and the slots taken are the same
    obtain ⟨hwf, hocc, hholds⟩ := h.probe.overwrite hi (hti.symm ▸ hki) hkey
    have h' : Wf hash { t with slots := Function.update t.slots i (key, value) } :=
      ⟨h.pow, hwf, h.size_eq.trans (by rw [hocc]), h.fill⟩
    rw [hw, Option.map_some, hti, if_pos rfl]
    refine ⟨_, rfl, h', rfl, rfl, h'.toMap_eq fun k' v' => (hholds k' (k', v')).trans ?_⟩
    rw [← h.toMap_some, Prod.mk.injEq]
    by_cases hkk : k' = key
    · subst hkk
      simp [eq_comm]
    · simp [hkk]
  | none =>
    have habsent := h.toMap_none.mp hv
    obtain ⟨e, he, hw, hnone, hbefore⟩ := Scheme.walk_absent h.lawful h.probe habsent
    simp only [show (scheme V hash t.cap).cap = t.cap from rfl] at hw
    -- the key is new: the walk ends at the first empty slot, and one more must still leave one
    -- empty
    have hempty : (t.slots e).1 ≠ key := fun heq => hz (heq ▸ key_none.mp hnone)
    have hfits := hroom hv
    have hlt := maxFill_lt h.cap_pos
    obtain ⟨hwf, hcard, hholds⟩ := h.probe.put habsent he hnone hbefore hkey
      (by rw [← h.size_eq]; exact Nat.lt_of_le_of_lt hfits hlt)
    have h' : Wf hash { t with
        slots := Function.update t.slots e (key, value), size := t.size + 1 } :=
      ⟨h.pow, hwf, by rw [hcard, ← h.size_eq], hfits⟩
    rw [hw, Option.map_some, if_neg hempty]
    refine ⟨_, rfl, h', rfl, rfl, h'.toMap_eq fun k' v' => (hholds k' (k', v')).trans ?_⟩
    rw [← h.toMap_some, Prod.mk.injEq]
    by_cases hkk : k' = key
    · subst hkk
      simp [hv, eq_comm]
    · simp [hkk]

theorem insertNested_zero [Inhabited V] (n : ℕ) (value : V) :
    insertNested hash (n + 1) t kEmptyKey value = some (false, t) := if_pos rfl

/-- `insert`, when there is room. -/
theorem insertNested_room [Inhabited V] (n : ℕ) {key : UInt64} (hz : key ≠ kEmptyKey) (value : V)
    (hroom : t.size + 1 ≤ maxFill t.cap) :
    insertNested hash (n + 1) t key value = t.place hash key value := by
  rw [insertNested, if_neg hz, if_neg (by omega)]

/-- The table being rebuilt, with the first `n` slots of `t` moved into it. -/
structure Rehashed (hash : UInt64 → UInt64) (t t' : FlatOrderMap V) (n : ℕ) : Prop where
  wf : Wf hash t'
  cap : t'.cap = t.cap * 2
  /-- The counter has kept up. -/
  size : t'.size = ((Finset.range n).filter fun i => (t.slots i).1 ≠ kEmptyKey).card
  /-- It holds what those slots held, and nothing else. -/
  holds : ∀ k v, t'.toMap k = some v ↔ ∃ i < n, t.slots i = (k, v) ∧ k ≠ kEmptyKey

/-- One slot more. -/
theorem Rehashed.step [Inhabited V] (h : Wf hash t) {t' : FlatOrderMap V} {n : ℕ}
    (hr : Rehashed hash t t' n) (hn : n < t.cap) (depth : ℕ) :
    ∃ t'', (if (t.slots n).1 = kEmptyKey then some t'
        else (insertNested hash (depth + 1) t' (t.slots n).1 (t.slots n).2).map Prod.snd) =
          some t'' ∧ Rehashed hash t t'' (n + 1) := by
  split
  · rename_i hz
    refine ⟨t', rfl, hr.wf, hr.cap, ?_, fun k v => (hr.holds k v).trans ?_⟩
    · rw [hr.size, Finset.range_add_one, Finset.filter_insert, if_neg (by simp [hz])]
    · constructor
      · rintro ⟨i, hi, hti⟩
        exact ⟨i, by omega, hti⟩
      · rintro ⟨i, hi, hti, hk⟩
        refine ⟨i, ?_, hti, hk⟩
        have hin : i ≠ n := by
          rintro rfl
          rw [hti] at hz
          exact hk hz
        omega
  · rename_i hz
    -- the reference is not in the new table yet, since only slot `n` of the old one holds it
    have hnew : t'.toMap (t.slots n).1 = none := by
      cases hv : t'.toMap (t.slots n).1 with
      | none => rfl
      | some v =>
        obtain ⟨i, hi, hti, hk⟩ := (hr.holds _ _).mp hv
        have hin := h.probe.unique i (Nat.lt_trans hi hn) n hn (t.slots n).1
          (key_some.mpr ⟨by rw [hti], hk⟩) (key_some.mpr ⟨rfl, hk⟩)
        omega
    have hcard : ((Finset.range (n + 1)).filter fun i => (t.slots i).1 ≠ kEmptyKey).card =
        ((Finset.range n).filter fun i => (t.slots i).1 ≠ kEmptyKey).card + 1 := by
      rw [Finset.range_add_one, Finset.filter_insert, if_pos hz, Finset.card_insert_of_notMem]
      simp
    have hle : ((Finset.range (n + 1)).filter fun i => (t.slots i).1 ≠ kEmptyKey).card ≤
        t.size := by
      rw [h.size_eq]
      refine Finset.card_le_card fun i hi => ?_
      obtain ⟨hi, hne⟩ := Finset.mem_filter.mp hi
      have hlt := Finset.mem_range.mp hi
      exact Scheme.mem_occupied.mpr
        ⟨Nat.lt_of_lt_of_le hlt hn, fun hnone => hne (key_none.mp hnone)⟩
    have hroom : t'.size + 1 ≤ maxFill t'.cap := by
      have hfill := h.fill
      have hdouble := maxFill_double h.cap_pos
      have hsize := hr.size
      rw [hr.cap]
      omega
    obtain ⟨t'', hp, hwf, hcap, hsize, hmap⟩ := place_eq hr.wf hz (t.slots n).2 fun _ => hroom
    rw [insertNested_room depth hz _ hroom, hp]
    refine ⟨t'', rfl, hwf, hcap.trans hr.cap, ?_, fun k v => ?_⟩
    · rw [hsize, hnew, hcard, ← hr.size]
      rfl
    · rw [hmap]
      by_cases hk : k = (t.slots n).1
      · subst hk
        rw [Function.update_self]
        constructor
        · intro hv
          rw [Option.some.injEq] at hv
          exact ⟨n, Nat.lt_succ_self n, by rw [← hv], hz⟩
        · rintro ⟨i, hi, hti, hk⟩
          have hin := h.probe.unique i (Nat.lt_of_lt_of_le hi hn) n hn (t.slots n).1
            (key_some.mpr ⟨by rw [hti], hk⟩) (key_some.mpr ⟨rfl, hk⟩)
          rw [← hin, hti]
      · rw [Function.update_of_ne hk, hr.holds]
        constructor
        · rintro ⟨i, hi, hti⟩
          exact ⟨i, by omega, hti⟩
        · rintro ⟨i, hi, hti, hk'⟩
          refine ⟨i, ?_, hti, hk'⟩
          have hin : i ≠ n := by
            rintro rfl
            exact hk (by rw [hti])
          omega

/-- **Growing** doubles the table and moves everything over. -/
theorem growWith_eq [Inhabited V] (h : Wf hash t) (depth : ℕ) :
    ∃ t', growWith (insertNested hash (depth + 1)) t = some t' ∧ Wf hash t' ∧
      t'.cap = t.cap * 2 ∧ t'.size = t.size ∧ t'.toMap = t.toMap := by
  -- the loop has moved the first `n` slots over; the order of a table's slots does not matter to
  -- its map
  have hloop : ∀ n ≤ t.cap, ∃ t', (List.range n).foldlM (fun (t' : FlatOrderMap V) i =>
      if (t.slots i).1 = kEmptyKey then some t'
      else (insertNested hash (depth + 1) t' (t.slots i).1 (t.slots i).2).map Prod.snd)
      { empty (t.cap * 2) with grows := t.grows } = some t' ∧ Rehashed hash t t' n := by
    intro n
    induction n with
    | zero =>
      intro _
      obtain ⟨m, hm⟩ := h.pow
      have hwf : Wf hash (empty (t.cap * 2) : FlatOrderMap V) :=
        wf_empty ⟨m + 1, by rw [hm, Nat.pow_succ]⟩
      refine ⟨_, rfl, ⟨hwf.pow, hwf.probe, hwf.size_eq, hwf.fill⟩, rfl, rfl, fun k v => ?_⟩
      have hnone := toMap_empty (V := V) (t.cap * 2) k
      constructor
      · intro hv
        exact absurd (hnone.symm.trans hv) (by simp)
      · rintro ⟨i, hi, _⟩
        exact absurd hi (Nat.not_lt_zero i)
    | succ n ih =>
      intro hn
      obtain ⟨t', hf, hr⟩ := ih (by omega)
      obtain ⟨t'', hs, hr'⟩ := hr.step h hn depth
      refine ⟨t'', ?_, hr'⟩
      rw [List.range_succ, List.foldlM_append, hf]
      simp only [Option.bind_eq_bind, Option.bind_some, List.foldlM_cons, List.foldlM_nil]
      rw [hs]
      rfl
  obtain ⟨t', hf, hr⟩ := hloop t.cap (Nat.le_refl _)
  refine ⟨{ t' with grows := t'.grows + 1 }, ?_, ⟨hr.wf.pow, hr.wf.probe, hr.wf.size_eq,
    hr.wf.fill⟩, hr.cap, ?_, ?_⟩
  · unfold growWith
    rw [hf]
    rfl
  -- what was moved are the occupied slots
  · show t'.size = t.size
    rw [hr.size, h.size_eq]
    congr 1
    ext i
    rw [Finset.mem_filter, Finset.mem_range, Scheme.mem_occupied, ne_eq, ne_eq, key_none]
    rfl
  · show t'.toMap = t.toMap
    funext k
    refine Option.ext fun v => ?_
    rw [hr.holds, h.toMap_some]
    constructor
    · rintro ⟨i, hi, hti, hk⟩
      exact ⟨i, hi, hti, key_some.mpr ⟨rfl, hk⟩⟩
    · rintro ⟨i, hi, hti, hk⟩
      exact ⟨i, hi, hti, (key_some.mp hk).2⟩

/-- Key zero is refused. -/
theorem insert_zero [Inhabited V] (value : V) :
    t.insert hash kEmptyKey value = some (false, t) := insertNested_zero 1 value

/-- **`insert` updates the map**, and says whether the reference is new. -/
theorem insert_eq [Inhabited V] (h : Wf hash t) {key : UInt64} (hz : key ≠ kEmptyKey)
    (value : V) :
    ∃ t', t.insert hash key value = some ((t.toMap key).isNone, t') ∧ Wf hash t' ∧
      t'.size = (if (t.toMap key).isNone then t.size + 1 else t.size) ∧
      t'.toMap = Function.update t.toMap key (some value) := by
  by_cases hgrow : maxFill t.cap < t.size + 1
  · obtain ⟨t1, hg, hwf, hcap, hsize, hmap⟩ := growWith_eq h 0
    -- twice the slots take one entry more
    have hroom : t1.size + 1 ≤ maxFill t1.cap := by
      have hfill := h.fill
      have hdouble := maxFill_double h.cap_pos
      rw [hcap, hsize]
      omega
    obtain ⟨t', hp, hwf', _, hsize', hmap'⟩ := place_eq hwf hz value fun _ => hroom
    refine ⟨t', ?_, hwf', by rw [hsize', hmap, hsize], by rw [hmap', hmap]⟩
    unfold insert
    rw [insertNested, if_neg hz, if_pos hgrow, hg, Option.bind_some, hp, hmap]
  · have hroom : t.size + 1 ≤ maxFill t.cap := by omega
    obtain ⟨t', hp, hwf', _, hsize', hmap'⟩ := place_eq h hz value fun _ => hroom
    exact ⟨t', (insertNested_room 1 hz value hroom).trans hp, hwf', hsize', hmap'⟩

/-- **`erase` forgets the reference**, and says whether there was one. -/
theorem erase_eq (h : Wf hash t) (key : UInt64) :
    ∃ t', t.erase hash key = some ((t.toMap key).isSome, t') ∧ Wf hash t' ∧
      t'.size = (if (t.toMap key).isSome then t.size - 1 else t.size) ∧
      t'.toMap = Function.update t.toMap key none := by
  -- a key that is not there is forgotten already
  have hsame : t.toMap key = none → t.toMap = Function.update t.toMap key none := fun hv => by
    rw [← hv, Function.update_eq_self]
  unfold erase
  split
  · rename_i hz
    have hv : t.toMap key = none := by rw [hz, h.toMap_zero]
    exact ⟨t, by rw [hv]; rfl, h, by rw [hv]; rfl, hsame hv⟩
  · rename_i hz
    simp only
    cases hv : t.toMap key with
    | none =>
      obtain ⟨e, _, hw, hnone, _⟩ := Scheme.walk_absent h.lawful h.probe (h.toMap_none.mp hv)
      simp only [show (scheme V hash t.cap).cap = t.cap from rfl] at hw
      have hempty : (t.slots e).1 ≠ key := fun heq => hz (heq ▸ key_none.mp hnone)
      rw [hw, Option.bind_some, if_neg hempty]
      exact ⟨t, rfl, h, rfl, hsame hv⟩
    | some v =>
      obtain ⟨i, hi, hti, hki⟩ := h.toMap_some.mp hv
      have hw := Scheme.walk_holds h.lawful h.probe hi (hti.symm ▸ hki)
      simp only [show (scheme V hash t.cap).cap = t.cap from rfl] at hw
      -- the shift closes the hole and moves no key out of reach
      obtain ⟨slots, he, hwf, hholds, hcard⟩ := Scheme.erase_spec h.lawful h.probe hi
        (hti.symm ▸ hki)
      have hsize : t.size - 1 = ((scheme V hash t.cap).occupied slots).card := by
        rw [h.size_eq]
        omega
      have h' : Wf hash { t with slots := slots, size := t.size - 1 } :=
        ⟨h.pow, hwf, hsize, Nat.le_trans (Nat.sub_le _ _) h.fill⟩
      rw [hw, Option.bind_some, hti, if_pos rfl, he]
      refine ⟨_, rfl, h', rfl, h'.toMap_eq fun k' v' => (hholds k' (k', v')).trans ?_⟩
      rw [← h.toMap_some]
      by_cases hkk : k' = key
      · subst hkk
        simp
      · simp [hkk]

end Operations

end FlatOrderMap

end Tickerplant
