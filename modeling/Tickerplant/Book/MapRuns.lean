import Mathlib.Algebra.Order.BigOperators.Group.List
import Mathlib.Data.Set.Card
import Tickerplant.Lib.ProbeRank
import Tickerplant.Book.FlatOrderMap

/-!
# Histories of the order reference table

What a client of `FlatOrderMap` can observe over a whole sequence of calls (`run_isMap`): the
answers of a finite map that refuses key zero. And what it cannot: that anything was ever erased.
As long as the table has not grown, its slots are those of a table into which only the surviving
keys were inserted, oldest first (`run_restores`). A key's age is the time of its latest insertion
as a new key; writing over a value does not renew it.

The second needs more than an invariant of the table, because two tables with the same map may have
their keys in different slots. `Laid` says which slots they are. It gives every key a rank, its
age, and asks that the table be `Ranked` by it: each key lies at the first slot of its probe
sequence not taken by an older one. That determines the layout, so two tables laid out by one
ranking are equal slot by slot. Inserting puts a key behind the older ones; backward shift, which
moves a key into a hole, keeps the ranking (`Lib/ProbeRank`), and this is the source's claim for
it, that the table is restored to the state it would have had.

The ranks are not kept by the code and need not be given in advance. Each insertion of a new key
chooses one above all others (`Laid.exec`).
-/

set_option autoImplicit false

namespace Tickerplant

open Lib.Probe

/-- A call on the table. -/
inductive MapOp (V : Type) where
  /-- `insert(key, value)`. -/
  | insert (key : UInt64) (value : V)
  /-- `erase(key)`. -/
  | erase (key : UInt64)
  /-- `find(key)`. -/
  | find (key : UInt64)
  /-- `clear()`. -/
  | clear

/-- What a call returns. -/
inductive MapAnswer (V : Type) where
  | inserted (fresh : Bool)
  | erased (present : Bool)
  | found (value : Option V)
  | cleared
  deriving DecidableEq

namespace FlatOrderMap

variable {V : Type}

/-- Every slot is marked empty and the values stay where they are. -/
def clear (t : FlatOrderMap V) : FlatOrderMap V :=
  { t with slots := fun i => (kEmptyKey, (t.slots i).2), size := 0 }

/-- The calls `for_each` makes, in order. -/
def forEach (t : FlatOrderMap V) : List (UInt64 × V) :=
  ((List.range t.cap).map t.slots).filter fun s => decide (s.1 ≠ kEmptyKey)

section Exec

variable [Inhabited V] (hash : UInt64 → UInt64)

/-- A call: its answer, and the table after it. -/
def exec (t : FlatOrderMap V) : MapOp V → Option (MapAnswer V × FlatOrderMap V)
  | .insert key value => (t.insert hash key value).map fun r => (.inserted r.1, r.2)
  | .erase key => (t.erase hash key).map fun r => (.erased r.1, r.2)
  | .find key => (t.find hash key).map fun v => (.found v, t)
  | .clear => some (.cleared, t.clear)

/-- A sequence of calls, with all their answers. -/
def run : FlatOrderMap V → List (MapOp V) → Option (List (MapAnswer V) × FlatOrderMap V)
  | t, [] => some ([], t)
  | t, op :: ops => (t.exec hash op).bind fun r =>
      (run r.2 ops).map fun rest => (r.1 :: rest.1, rest.2)

end Exec

/-! ## What the calls mean -/

/-- A finite map on the nonzero keys. -/
def meaning (m : UInt64 → Option V) : MapOp V → MapAnswer V × (UInt64 → Option V)
  | .insert key value =>
    if key = kEmptyKey then (.inserted false, m)
    else (.inserted (m key).isNone, Function.update m key (some value))
  | .erase key =>
    if key = kEmptyKey then (.erased false, m)
    else (.erased (m key).isSome, Function.update m key none)
  | .find key => (.found (if key = kEmptyKey then none else m key), m)
  | .clear => (.cleared, fun _ => none)

/-- The answers the map gives over a sequence. -/
def meanings : (UInt64 → Option V) → List (MapOp V) → List (MapAnswer V) × (UInt64 → Option V)
  | m, [] => ([], m)
  | m, op :: ops => ((meaning m op).1 :: (meanings (meaning m op).2 ops).1,
      (meanings (meaning m op).2 ops).2)

/-! ## The table is a finite map -/

variable {hash : UInt64 → UInt64} {t : FlatOrderMap V}

/-- A cleared table is in order. -/
theorem wf_clear (h : Wf hash t) : Wf hash t.clear := by
  have hnone : ∀ i < (scheme V hash t.cap).cap,
      (scheme V hash t.cap).key (t.clear.slots i) = none := fun _ _ => key_none.mpr rfl
  refine ⟨h.pow, Scheme.wf_empty h.lawful hnone, ?_, Nat.zero_le _⟩
  show 0 = ((scheme V hash t.cap).occupied _).card
  rw [Scheme.occupied_empty hnone, Finset.card_empty]

/-- And it is empty. -/
theorem toMap_clear (t : FlatOrderMap V) : t.clear.toMap = fun _ => none := by
  funext k
  have hf : ((List.range t.cap).map t.clear.slots).find?
      (fun s => decide (s.1 ≠ kEmptyKey ∧ s.1 = k)) = none := by
    refine List.find?_eq_none.mpr fun s hs => ?_
    obtain ⟨i, _, rfl⟩ := List.mem_map.mp hs
    simp [clear]
  unfold toMap
  rw [show t.clear.cap = t.cap from rfl, hf]
  rfl

/-- `for_each` visits what the map has. -/
theorem mem_forEach (h : Wf hash t) {k : UInt64} {v : V} :
    (k, v) ∈ t.forEach ↔ t.toMap k = some v := by
  rw [h.toMap_some, forEach, List.mem_filter, List.mem_map]
  constructor
  · rintro ⟨⟨i, hi, hti⟩, hk⟩
    exact ⟨i, List.mem_range.mp hi, hti, key_some.mpr ⟨rfl, of_decide_eq_true hk⟩⟩
  · rintro ⟨i, hi, hti, hk⟩
    exact ⟨⟨i, List.mem_range.mpr hi, hti⟩, decide_eq_true (key_some.mp hk).2⟩

/-- No key is visited twice. -/
theorem nodup_forEach (h : Wf hash t) : (t.forEach.map Prod.fst).Nodup := by
  rw [forEach, List.Nodup, List.pairwise_map, List.pairwise_filter, List.pairwise_map]
  refine List.pairwise_lt_range.imp_of_mem fun {i j} hi hj hij hi0 _ heq => ?_
  have hi' := List.mem_range.mp hi
  have hj' := List.mem_range.mp hj
  have hkey := of_decide_eq_true hi0
  have hsame := h.probe.unique i hi' j hj' (t.slots i).1 (key_some.mpr ⟨rfl, hkey⟩)
    (key_some.mpr ⟨heq.symm, hkey⟩)
  omega

/-- There are as many visits as `size` says. -/
theorem length_forEach (h : Wf hash t) : t.forEach.length = t.size := by
  rw [h.size_eq, forEach, ← List.countP_eq_length_filter, List.countP_map, Scheme.occupied,
    Finset.card_def, Finset.filter_val, Finset.range_val, ← Multiset.countP_eq_card_filter,
    Multiset.range, Multiset.coe_countP]
  refine List.countP_congr fun i _ => ?_
  simp only [Function.comp, decide_eq_true_eq, Option.isSome_iff_ne_none, ne_eq, key_none]

/-- `size` counts the keys. -/
theorem size_eq_ncard (h : Wf hash t) : {k | t.toMap k ≠ none}.ncard = t.size := by
  have hset : {k | t.toMap k ≠ none} = ((t.forEach.map Prod.fst).toFinset : Set UInt64) := by
    ext k
    show t.toMap k ≠ none ↔ _
    rw [Finset.mem_coe, List.mem_toFinset, List.mem_map]
    constructor
    · intro hne
      obtain ⟨v, hv⟩ := Option.ne_none_iff_exists'.mp hne
      exact ⟨(k, v), (mem_forEach h).mpr hv, rfl⟩
    · rintro ⟨⟨k', v⟩, hmem, rfl⟩
      rw [(mem_forEach h).mp hmem]
      simp
  rw [hset, Set.ncard_coe_finset, List.toFinset_card_of_nodup (nodup_forEach h), List.length_map,
    length_forEach h]

section Meaning

variable [Inhabited V]

/-- One call. -/
theorem exec_eq (h : Wf hash t) (op : MapOp V) :
    ∃ t', t.exec hash op = some ((meaning t.toMap op).1, t') ∧ Wf hash t' ∧
      t'.toMap = (meaning t.toMap op).2 := by
  cases op with
  | insert key value =>
    -- zero is refused before the table is looked at
    by_cases hz : key = kEmptyKey
    · subst hz
      refine ⟨t, ?_, h, by rw [meaning, if_pos rfl]⟩
      rw [exec, insert_zero, Option.map_some, meaning, if_pos rfl]
    · obtain ⟨t', hi, hwf, _, hmap⟩ := insert_eq h hz value
      refine ⟨t', ?_, hwf, by rw [meaning, if_neg hz, hmap]⟩
      rw [exec, hi, Option.map_some, meaning, if_neg hz]
  | erase key =>
    obtain ⟨t', he, hwf, _, hmap⟩ := erase_eq h key
    by_cases hz : key = kEmptyKey
    · subst hz
      refine ⟨t, ?_, h, by rw [meaning, if_pos rfl]⟩
      rw [exec, erase, if_pos rfl, Option.map_some, meaning, if_pos rfl]
    · refine ⟨t', ?_, hwf, by rw [meaning, if_neg hz, hmap]⟩
      rw [exec, he, Option.map_some, meaning, if_neg hz]
  | find key =>
    refine ⟨t, ?_, h, rfl⟩
    rw [exec, find_eq h, Option.map_some, meaning]
    split
    · rename_i hz
      rw [hz, h.toMap_zero]
    · rfl
  | clear => exact ⟨t.clear, rfl, wf_clear h, toMap_clear t⟩

/-- Any number of calls. -/
theorem run_eq (ops : List (MapOp V)) : ∀ {t : FlatOrderMap V}, Wf hash t →
    ∃ t', t.run hash ops = some ((meanings t.toMap ops).1, t') ∧ Wf hash t' ∧
      t'.toMap = (meanings t.toMap ops).2 := by
  induction ops with
  | nil => exact fun {t} h => ⟨t, rfl, h, rfl⟩
  | cons op ops ih =>
    intro t h
    obtain ⟨t1, he, hwf, hmap⟩ := exec_eq h op
    obtain ⟨t', hr, hwf', hmap'⟩ := ih hwf
    rw [hmap] at hr hmap'
    refine ⟨t', ?_, hwf', hmap'⟩
    rw [run, he, Option.bind_some, hr, Option.map_some]
    rfl

/-- **The table is a finite map**, for every hash, hint and history: the answers are the map's, no
loop runs on, one slot stays empty, and key zero leaves no trace. -/
theorem run_isMap (hash : UInt64 → UInt64) (hint : ℕ) (ops : List (MapOp V)) :
    ∃ t, run hash (make hint) ops = some ((meanings (fun _ => none) ops).1, t) ∧
      (∀ k, t.find hash k = some ((meanings (fun _ => none) ops).2 k)) ∧
      (t.forEach.map Prod.fst).Nodup ∧
      (∀ k v, (k, v) ∈ t.forEach ↔ (meanings (fun _ => none) ops).2 k = some v) ∧
      t.forEach.length = t.size ∧
      {k | (meanings (fun _ => none) ops).2 k ≠ none}.ncard = t.size ∧
      (∃ i < t.cap, (t.slots i).1 = kEmptyKey) ∧
      t.find hash kEmptyKey = some none ∧
      (∀ value, t.insert hash kEmptyKey value = some (false, t)) ∧
      t.erase hash kEmptyKey = some (false, t) := by
  have hempty : (make hint : FlatOrderMap V).toMap = fun _ => none :=
    funext fun k => toMap_empty _ k
  have hmake : Wf hash (make hint : FlatOrderMap V) := wf_make hint
  obtain ⟨t, hr, hwf, hmap⟩ := run_eq ops hmake
  rw [hempty] at hr hmap
  obtain ⟨e, he, hnone⟩ := hwf.probe.room
  rw [← hmap]
  exact ⟨t, hr, find_eq hwf, nodup_forEach hwf, fun _ _ => mem_forEach hwf, length_forEach hwf,
    size_eq_ncard hwf, ⟨e, he, key_none.mp hnone⟩, if_pos rfl, insert_zero, if_pos rfl⟩

end Meaning

/-! ## Growing shows in `growth_events` -/

section Growth

variable [Inhabited V]

omit [Inhabited V] in
/-- Placing a key does not count as growing. -/
theorem grows_place {key : UInt64} {value : V} {b : Bool} {t' : FlatOrderMap V}
    (h : t.place hash key value = some (b, t')) : t'.grows = t.grows := by
  obtain ⟨i, _, hi⟩ := Option.map_eq_some_iff.mp h
  split at hi <;> cases hi <;> rfl

/-- Rebuilding counts once, and what it calls does not count down. -/
theorem grows_growWith {insert : FlatOrderMap V → UInt64 → V → Option (Bool × FlatOrderMap V)}
    (hinsert : ∀ t key value b t', insert t key value = some (b, t') → t.grows ≤ t'.grows)
    {t' : FlatOrderMap V} (h : growWith insert t = some t') : t.grows < t'.grows := by
  -- the inserts of the loop could only raise the counter; afterwards it is raised once
  have hloop : ∀ (l : List ℕ) (t1 t2 : FlatOrderMap V),
      l.foldlM (fun (t' : FlatOrderMap V) i =>
        if (t.slots i).1 = kEmptyKey then some t'
        else (insert t' (t.slots i).1 (t.slots i).2).map Prod.snd) t1 = some t2 →
      t1.grows ≤ t2.grows := by
    intro l
    induction l with
    | nil =>
      intro t1 t2 h
      obtain rfl := Option.some.inj h
      exact Nat.le_refl _
    | cons i l ih =>
      intro t1 t2 h
      obtain ⟨t3, hstep, hrest⟩ := Option.bind_eq_some_iff.mp h
      refine Nat.le_trans ?_ (ih t3 t2 hrest)
      beta_reduce at hstep
      split at hstep
      · exact Nat.le_of_eq (congrArg grows (Option.some.inj hstep))
      · obtain ⟨⟨b, t4⟩, hi, rfl⟩ := Option.map_eq_some_iff.mp hstep
        exact hinsert _ _ _ _ _ hi
  obtain ⟨t1, hf, rfl⟩ := Option.map_eq_some_iff.mp h
  exact Nat.lt_succ_of_le (hloop _ { empty (t.cap * 2) with grows := t.grows } t1 hf)

/-- No insertion lowers the counter. -/
theorem grows_insertNested (depth : ℕ) : ∀ (t : FlatOrderMap V) (key : UInt64) (value : V)
    (b : Bool) (t' : FlatOrderMap V), insertNested hash depth t key value = some (b, t') →
    t.grows ≤ t'.grows := by
  induction depth with
  | zero => exact fun _ _ _ _ _ h => absurd h (by simp [insertNested])
  | succ depth ih =>
    intro t key value b t' h
    rw [insertNested] at h
    split at h
    · cases h
      exact Nat.le_refl _
    · split at h
      · obtain ⟨t1, hg, hp⟩ := Option.bind_eq_some_iff.mp h
        rw [grows_place hp]
        exact Nat.le_of_lt (grows_growWith ih hg)
      · rw [grows_place h]

/-- An `insert` that did not grow the table only had to place the key. -/
theorem insert_stayed {key : UInt64} (hz : key ≠ kEmptyKey) {value : V} {b : Bool}
    {t' : FlatOrderMap V} (h : t.insert hash key value = some (b, t')) (hg : t'.grows ≤ t.grows) :
    t.size + 1 ≤ maxFill t.cap ∧ t.place hash key value = some (b, t') := by
  rw [insert, insertNested, if_neg hz] at h
  split at h
  · obtain ⟨t1, hgrow, hp⟩ := Option.bind_eq_some_iff.mp h
    have hlt := grows_growWith (grows_insertNested 1) hgrow
    rw [grows_place hp] at hg
    omega
  · rename_i hroom
    exact ⟨by omega, h⟩

omit [Inhabited V] in
/-- Nor does erasing touch it. -/
theorem grows_erase {key : UInt64} {b : Bool} {t' : FlatOrderMap V}
    (h : t.erase hash key = some (b, t')) : t'.grows = t.grows := by
  rw [erase] at h
  split at h
  · cases h
    rfl
  · obtain ⟨i, _, hi⟩ := Option.bind_eq_some_iff.mp h
    split at hi
    · obtain ⟨slots, _, heq⟩ := Option.map_eq_some_iff.mp hi
      cases heq
      rfl
    · cases hi
      rfl

/-- So no call lowers it, -/
theorem grows_exec {op : MapOp V} {a : MapAnswer V} {t' : FlatOrderMap V}
    (h : t.exec hash op = some (a, t')) : t.grows ≤ t'.grows := by
  cases op with
  | insert key value =>
    obtain ⟨⟨b, t1⟩, hi, heq⟩ := Option.map_eq_some_iff.mp h
    cases heq
    exact grows_insertNested 2 _ _ _ _ _ hi
  | erase key =>
    obtain ⟨⟨b, t1⟩, he, heq⟩ := Option.map_eq_some_iff.mp h
    cases heq
    exact Nat.le_of_eq (grows_erase he).symm
  | find key =>
    obtain ⟨v, _, heq⟩ := Option.map_eq_some_iff.mp h
    cases heq
    exact Nat.le_refl _
  | clear =>
    cases h
    exact Nat.le_refl _

/-- nor does a sequence of calls. -/
theorem grows_run {ops : List (MapOp V)} : ∀ {t t' : FlatOrderMap V} {as : List (MapAnswer V)},
    t.run hash ops = some (as, t') → t.grows ≤ t'.grows := by
  induction ops with
  | nil =>
    intro t t' as h
    cases h
    exact Nat.le_refl _
  | cons op ops ih =>
    intro t t' as h
    obtain ⟨⟨a, t1⟩, he, hrest⟩ := Option.bind_eq_some_iff.mp h
    obtain ⟨⟨as', t2⟩, hr, heq⟩ := Option.map_eq_some_iff.mp hrest
    cases heq
    exact Nat.le_trans (grows_exec he) (ih hr)

end Growth

/-! ## What a history leaves behind -/

/-- The surviving entries after one more call, oldest first. -/
def survive (es : List (UInt64 × V)) : MapOp V → List (UInt64 × V)
  | .insert key value =>
    if key = kEmptyKey then es
    else if key ∈ es.map Prod.fst then es.map fun e => if e.1 = key then (key, value) else e
    else es ++ [(key, value)]
  | .erase key => es.filter fun e => decide (e.1 ≠ key)
  | .find _ => es
  | .clear => []

/-- The surviving keys of a history with their values, in the order of their latest insertion as
new keys. -/
def survivors (ops : List (MapOp V)) : List (UInt64 × V) := ops.foldl survive []

/-- The table holds `es`, and every key was placed when just the older ones were there. -/
structure Laid (hash : UInt64 → UInt64) (t : FlatOrderMap V) (rank : UInt64 → ℕ)
    (es : List (UInt64 × V)) : Prop where
  /-- It is a table. -/
  wf : Wf hash t
  /-- Each key has the first slot on its way that no older key had. -/
  ranked : (scheme V hash t.cap).Ranked t.slots rank
  /-- The entries are listed oldest first. -/
  ages : es.Pairwise fun e e' => rank e.1 < rank e'.1
  /-- They are what the table holds. -/
  mem : ∀ k v, t.toMap k = some v ↔ (k, v) ∈ es

namespace Laid

variable {rank : UInt64 → ℕ} {es : List (UInt64 × V)}

/-- A slot's key is one of the entries'. -/
theorem mem_of_key (h : Laid hash t rank es) {i : ℕ} (hi : i < t.cap) {k : UInt64}
    (hk : (scheme V hash t.cap).key (t.slots i) = some k) : (k, (t.slots i).2) ∈ es := by
  refine (h.mem k _).mp (h.wf.toMap_some.mpr ⟨i, hi, ?_, ?_⟩)
  · rw [← (key_some.mp hk).1]
  · exact key_some.mpr ⟨rfl, (key_some.mp hk).2⟩

/-- A new key that is younger than all others. -/
theorem fresh (h : Laid hash t rank es) {key : UInt64} (hz : key ≠ kEmptyKey) (value : V)
    (hnew : t.toMap key = none) (hlast : ∀ e ∈ es, rank e.1 < rank key)
    (hroom : t.size + 1 ≤ maxFill t.cap) :
    ∃ t', t.place hash key value = some (true, t') ∧ t'.cap = t.cap ∧ t'.size = t.size + 1 ∧
      Laid hash t' rank (es ++ [(key, value)]) := by
  obtain ⟨t', hp, hwf, hcap, hsize, hmap⟩ := place_eq h.wf hz value fun _ => hroom
  rw [hnew] at hp hsize
  refine ⟨t', hp, hcap, hsize, hwf, ?_, ?_, ?_⟩
  -- the key goes to the first empty slot of its way, behind keys that are all older
  · obtain ⟨e, _, hw, hnone, hbefore⟩ := Scheme.walk_absent h.wf.lawful h.wf.probe
      (h.wf.toMap_none.mp hnew)
    simp only [show (scheme V hash t.cap).cap = t.cap from rfl] at hw
    have hempty : (t.slots e).1 ≠ key := fun heq => hz (heq ▸ key_none.mp hnone)
    have hslots := hp
    rw [place, hw, Option.map_some, if_neg hempty, Option.some.injEq, Prod.mk.injEq] at hslots
    obtain ⟨-, rfl⟩ := hslots
    exact h.ranked.put hnone hbefore
      (fun i hi k' hk' => hlast _ (h.mem_of_key hi hk')) (key_some.mpr ⟨rfl, hz⟩)
  · refine List.pairwise_append.mpr ⟨h.ages, List.pairwise_singleton _ _, ?_⟩
    intro e he e' he'
    rw [List.mem_singleton.mp he']
    exact hlast e he
  · intro k v
    rw [hmap, List.mem_append, List.mem_singleton, Prod.mk.injEq]
    by_cases hk : k = key
    · subst hk
      rw [Function.update_self, Option.some.injEq, ← h.mem, hnew]
      simp [eq_comm]
    · rw [Function.update_of_ne hk, h.mem]
      simp [hk]

/-- A key that is already there keeps its place. -/
theorem overwrite (h : Laid hash t rank es) {key : UInt64} (hz : key ≠ kEmptyKey) (value : V)
    {old : V} (hold : t.toMap key = some old) :
    ∃ t', t.place hash key value = some (false, t') ∧ t'.cap = t.cap ∧
      Laid hash t' rank (es.map fun e => if e.1 = key then (key, value) else e) := by
  obtain ⟨t', hp, hwf, hcap, hsize, hmap⟩ := place_eq h.wf hz value fun hnone =>
    absurd (hold.symm.trans hnone) (by simp)
  rw [hold] at hp
  -- an entry keeps its key, and with it its age
  have hfst : ∀ e : UInt64 × V, (if e.1 = key then (key, value) else e).1 = e.1 := by
    intro e
    split
    · rename_i heq
      exact heq.symm
    · rfl
  refine ⟨t', hp, hcap, hwf, ?_, ?_, ?_⟩
  · obtain ⟨i, hi, hti, hki⟩ := h.wf.toMap_some.mp hold
    have hw := Scheme.walk_holds h.wf.lawful h.wf.probe hi (hti.symm ▸ hki)
    simp only [show (scheme V hash t.cap).cap = t.cap from rfl] at hw
    have hslots := hp
    rw [place, hw, Option.map_some, hti, if_pos rfl, Option.some.injEq, Prod.mk.injEq] at hslots
    obtain ⟨-, rfl⟩ := hslots
    -- and the slot keeps its key, so that the ranking is not disturbed
    refine h.ranked.of_keys fun j => ?_
    by_cases hj : j = i
    · subst hj
      show (scheme V hash t.cap).key (Function.update t.slots j (key, value) j) = _
      rw [Function.update_self, hti]
      rfl
    · show (scheme V hash t.cap).key (Function.update t.slots i (key, value) j) = _
      rw [Function.update_of_ne hj]
  · rw [List.pairwise_map]
    simp only [hfst]
    exact h.ages
  · intro k v
    rw [hmap, List.mem_map]
    by_cases hk : k = key
    · subst hk
      rw [Function.update_self, Option.some.injEq]
      constructor
      · rintro rfl
        exact ⟨(k, old), (h.mem k old).mp hold, if_pos rfl⟩
      · rintro ⟨e, _, he⟩
        split at he
        · exact (Prod.mk.inj he).2
        · rename_i hne
          rw [he] at hne
          exact absurd rfl hne
    · rw [Function.update_of_ne hk, h.mem]
      constructor
      · exact fun hmem => ⟨(k, v), hmem, if_neg hk⟩
      · rintro ⟨e, he, heq⟩
        split at heq
        · exact absurd (Prod.mk.inj heq).1.symm hk
        · exact heq ▸ he

/-- An erased key leaves no trace. -/
theorem erased (h : Laid hash t rank es) (key : UInt64) {b : Bool} {t' : FlatOrderMap V}
    (he : t.erase hash key = some (b, t')) :
    t'.cap = t.cap ∧ Laid hash t' rank (es.filter fun e => decide (e.1 ≠ key)) := by
  obtain ⟨t1, he1, hwf, _, hmap⟩ := erase_eq h.wf key
  obtain ⟨-, rfl⟩ := Prod.mk.inj (Option.some.inj (he1.symm.trans he))
  -- either nothing is erased, or the shift is run from the key's slot
  have hkept : t1.cap = t.cap ∧ (scheme V hash t1.cap).Ranked t1.slots rank := by
    rw [erase] at he
    split at he
    · obtain ⟨-, rfl⟩ := Prod.mk.inj (Option.some.inj he)
      exact ⟨rfl, h.ranked⟩
    · rename_i hz
      obtain ⟨i, hw, hi⟩ := Option.bind_eq_some_iff.mp he
      split at hi
      · rename_i hki
        obtain ⟨slots, hs, heq⟩ := Option.map_eq_some_iff.mp hi
        obtain ⟨-, rfl⟩ := Prod.mk.inj heq
        obtain ⟨v, hv⟩ : ∃ v, t.toMap key = some v := by
          cases hv : t.toMap key with
          | some v => exact ⟨v, rfl⟩
          | none =>
            obtain ⟨e, _, hw', hnone, _⟩ := Scheme.walk_absent h.wf.lawful h.wf.probe
              (h.wf.toMap_none.mp hv)
            obtain rfl := Option.some.inj (hw'.symm.trans hw)
            exact absurd (hki.symm.trans (key_none.mp hnone)) hz
        obtain ⟨j, hj, htj, hkj⟩ := h.wf.toMap_some.mp hv
        have hw' := Scheme.walk_holds h.wf.lawful h.wf.probe hj (htj.symm ▸ hkj)
        obtain rfl := Option.some.inj (hw'.symm.trans hw)
        exact ⟨rfl, Scheme.erase_ranked h.wf.lawful h.wf.probe h.ranked hj (htj.symm ▸ hkj) hs⟩
      · obtain ⟨-, rfl⟩ := Prod.mk.inj (Option.some.inj hi)
        exact ⟨rfl, h.ranked⟩
  refine ⟨hkept.1, hwf, hkept.2, h.ages.filter _, fun k v => ?_⟩
  rw [hmap, List.mem_filter, decide_eq_true_eq]
  by_cases hk : k = key
  · subst hk
    simp
  · rw [Function.update_of_ne hk, h.mem]
    simp [hk]

/-- Nothing is left, in any order. -/
theorem cleared (h : Laid hash t rank es) : Laid hash t.clear rank [] where
  wf := wf_clear h.wf
  ranked := Scheme.ranked_empty fun _ _ => key_none.mpr rfl
  ages := List.Pairwise.nil
  mem := fun k v => by
    rw [toMap_clear]
    simp

/-- There are as many entries as the table counts. -/
theorem length_eq (h : Laid hash t rank es) : es.length = t.size := by
  -- ages are distinct, hence the keys are
  have hnodup : (es.map Prod.fst).Nodup := by
    rw [List.Nodup, List.pairwise_map]
    exact h.ages.imp fun {e e'} hlt heq => by
      rw [heq] at hlt
      exact absurd hlt (Nat.lt_irrefl _)
  have hset : {k | t.toMap k ≠ none} = ((es.map Prod.fst).toFinset : Set UInt64) := by
    ext k
    show t.toMap k ≠ none ↔ _
    rw [Finset.mem_coe, List.mem_toFinset, List.mem_map, Option.ne_none_iff_exists']
    constructor
    · rintro ⟨v, hv⟩
      exact ⟨(k, v), (h.mem k v).mp hv, rfl⟩
    · rintro ⟨⟨k', v⟩, hmem, rfl⟩
      exact ⟨v, (h.mem k' v).mpr hmem⟩
  rw [← size_eq_ncard h.wf, hset, Set.ncard_coe_finset, List.toFinset_card_of_nodup hnodup,
    List.length_map]

/-- The empty marker is nobody's key. -/
theorem key_ne_zero (h : Laid hash t rank es) {e : UInt64 × V} (he : e ∈ es) :
    e.1 ≠ kEmptyKey := by
  obtain ⟨_, _, _, hk⟩ := h.wf.toMap_some.mp ((h.mem e.1 e.2).mpr he)
  exact (key_some.mp hk).2

/-- The keys in the slots are the entries'. -/
theorem in_slots (h : Laid hash t rank es) (key : UInt64) :
    (∃ i < t.cap, (scheme V hash t.cap).key (t.slots i) = some key) ↔
      ∃ v, t.toMap key = some v := by
  constructor
  · rintro ⟨i, hi, hk⟩
    exact ⟨_, (h.mem key _).mpr (h.mem_of_key hi hk)⟩
  · rintro ⟨v, hv⟩
    obtain ⟨i, hi, hti, hk⟩ := h.wf.toMap_some.mp hv
    exact ⟨i, hi, hti.symm ▸ hk⟩

/-- A key among the entries is in the table. -/
theorem mem_keys (h : Laid hash t rank es) {key : UInt64} :
    key ∈ es.map Prod.fst ↔ ∃ v, t.toMap key = some v := by
  rw [List.mem_map]
  constructor
  · rintro ⟨⟨k, v⟩, hmem, rfl⟩
    exact ⟨v, (h.mem k v).mpr hmem⟩
  · rintro ⟨v, hv⟩
    exact ⟨(key, v), (h.mem key v).mp hv, rfl⟩

/-- Any ranking lays out an empty table. -/
theorem empty [Inhabited V] {cap : ℕ} (hcap : ∃ m, cap = 2 ^ m) (rank : UInt64 → ℕ) :
    Laid hash (empty cap : FlatOrderMap V) rank [] where
  wf := wf_empty hcap
  ranked := Scheme.ranked_empty fun _ _ => key_none.mpr rfl
  ages := List.Pairwise.nil
  mem := fun k v => by
    rw [toMap_empty]
    simp

variable [Inhabited V]

/-- **One call.** A new key is given a rank above all others. -/
theorem exec (h : Laid hash t rank es) {op : MapOp V} {a : MapAnswer V} {t' : FlatOrderMap V}
    (he : t.exec hash op = some (a, t')) (hgrows : t'.grows ≤ t.grows) :
    t'.cap = t.cap ∧ ∃ rank', Laid hash t' rank' (survive es op) := by
  cases op with
  | insert key value =>
    obtain ⟨⟨b, t1⟩, hi, heq⟩ := Option.map_eq_some_iff.mp he
    obtain ⟨-, rfl⟩ := Prod.mk.inj heq
    by_cases hz : key = kEmptyKey
    · subst hz
      rw [insert_zero] at hi
      obtain ⟨-, rfl⟩ := Prod.mk.inj (Option.some.inj hi)
      exact ⟨rfl, rank, by rw [survive, if_pos rfl]; exact h⟩
    · obtain ⟨hroom, hp⟩ := insert_stayed hz hi hgrows
      rw [survive, if_neg hz]
      cases hv : t.toMap key with
      | some old =>
        obtain ⟨t2, hp', hcap, hlaid⟩ := h.overwrite hz value hv
        obtain ⟨-, rfl⟩ := Prod.mk.inj (Option.some.inj (hp'.symm.trans hp))
        rw [if_pos (h.mem_keys.mpr ⟨old, hv⟩)]
        exact ⟨hcap, rank, hlaid⟩
      | none =>
        have hout : key ∉ es.map Prod.fst := fun hin => by
          obtain ⟨v, hsome⟩ := h.mem_keys.mp hin
          exact absurd (hv.symm.trans hsome) (by simp)
        -- the new key's rank is above all others, whose own stay as they are
        let top := (es.map fun e => rank e.1).sum + 1
        have hkept : ∀ e ∈ es, Function.update rank key top e.1 = rank e.1 := fun e he =>
          Function.update_of_ne (fun heq => hout (List.mem_map.mpr ⟨e, he, heq⟩)) _ _
        have hbelow : ∀ e ∈ es, rank e.1 < top := fun e he =>
          Nat.lt_succ_of_le (List.le_sum_of_mem (List.mem_map.mpr ⟨e, he, rfl⟩))
        have h' : Laid hash t (Function.update rank key top) es :=
          ⟨h.wf, h.ranked.congr fun i hi k hk => hkept _ (h.mem_of_key hi hk),
            h.ages.imp_of_mem fun {e e'} he he' hlt => by rwa [hkept e he, hkept e' he'], h.mem⟩
        obtain ⟨t2, hp', hcap, _, hlaid⟩ := h'.fresh hz value hv
          (fun e he => by rw [hkept e he, Function.update_self]; exact hbelow e he) hroom
        obtain ⟨-, rfl⟩ := Prod.mk.inj (Option.some.inj (hp'.symm.trans hp))
        rw [if_neg hout]
        exact ⟨hcap, _, hlaid⟩
  | erase key =>
    obtain ⟨⟨b, t1⟩, hi, heq⟩ := Option.map_eq_some_iff.mp he
    obtain ⟨-, rfl⟩ := Prod.mk.inj heq
    obtain ⟨hcap, hlaid⟩ := h.erased key hi
    exact ⟨hcap, rank, hlaid⟩
  | find key =>
    obtain ⟨v, _, heq⟩ := Option.map_eq_some_iff.mp he
    obtain ⟨-, rfl⟩ := Prod.mk.inj heq
    exact ⟨rfl, rank, h⟩
  | clear =>
    obtain ⟨-, rfl⟩ := Prod.mk.inj (Option.some.inj he)
    exact ⟨rfl, rank, h.cleared⟩

/-- **A history without growth.** -/
theorem run {ops : List (MapOp V)} : ∀ {t t' : FlatOrderMap V} {rank : UInt64 → ℕ}
    {es : List (UInt64 × V)} {as : List (MapAnswer V)}, Laid hash t rank es →
    t.run hash ops = some (as, t') → t'.grows ≤ t.grows →
    t'.cap = t.cap ∧ ∃ rank', Laid hash t' rank' (ops.foldl survive es) := by
  induction ops with
  | nil =>
    intro t t' rank es as h hr _
    obtain ⟨-, rfl⟩ := Prod.mk.inj (Option.some.inj hr)
    exact ⟨rfl, rank, h⟩
  | cons op ops ih =>
    intro t t' rank es as h hr hgrows
    obtain ⟨⟨a, t1⟩, he, hrest⟩ := Option.bind_eq_some_iff.mp hr
    obtain ⟨⟨as', t2⟩, hr', heq⟩ := Option.map_eq_some_iff.mp hrest
    obtain ⟨-, rfl⟩ := Prod.mk.inj heq
    have hge := grows_run hr'
    obtain ⟨hcap, rank1, h1⟩ := h.exec he (Nat.le_trans hge hgrows)
    obtain ⟨hcap', hlaid⟩ := ih h1 hr' (Nat.le_trans hgrows (grows_exec he))
    exact ⟨hcap'.trans hcap, hlaid⟩

/-- **Inserting the entries only**, oldest first. -/
theorem replay {es' : List (UInt64 × V)} : ∀ {t : FlatOrderMap V} {es : List (UInt64 × V)},
    Laid hash t rank es → (es ++ es').Pairwise (fun e e' => rank e.1 < rank e'.1) →
    (∀ e ∈ es', e.1 ≠ kEmptyKey) → t.size + es'.length ≤ maxFill t.cap →
    ∃ as t', t.run hash (es'.map fun e => .insert e.1 e.2) = some (as, t') ∧ t'.cap = t.cap ∧
      t'.grows = t.grows ∧ Laid hash t' rank (es ++ es') := by
  induction es' with
  | nil => exact fun {t es} h _ _ _ => ⟨[], t, rfl, rfl, rfl, by rw [List.append_nil]; exact h⟩
  | cons e es' ih =>
    intro t es h hages hzero hfill
    rw [List.length_cons] at hfill
    -- the next entry is younger than all that are in already, so it is not one of them
    have hlast : ∀ e' ∈ es, rank e'.1 < rank e.1 := fun e' he' =>
      (List.pairwise_append.mp hages).2.2 e' he' e List.mem_cons_self
    have hnew : t.toMap e.1 = none := by
      cases hv : t.toMap e.1 with
      | none => rfl
      | some v => exact absurd (hlast _ ((h.mem _ _).mp hv)) (Nat.lt_irrefl _)
    have hroom : t.size + 1 ≤ maxFill t.cap := by omega
    have hz := hzero e List.mem_cons_self
    obtain ⟨t1, hp, hcap, hsize, h1⟩ := h.fresh hz e.2 hnew hlast hroom
    obtain ⟨as, t', hr, hcap', hgrows, h'⟩ := ih h1
      (by rw [List.append_assoc]; exact hages)
      (fun e' he' => hzero e' (List.mem_cons_of_mem _ he')) (by rw [hcap, hsize]; omega)
    refine ⟨.inserted true :: as, t', ?_, hcap'.trans hcap, hgrows.trans (grows_place hp), ?_⟩
    · rw [List.map_cons, FlatOrderMap.run, FlatOrderMap.exec, insert,
        insertNested_room 1 hz _ hroom, hp, Option.map_some, Option.bind_some, hr]
      rfl
    · rw [List.append_assoc] at h'
      exact h'

end Laid

/-- **Erasing restores the table that would have been.** Whatever was inserted and erased, a table
that has not grown is slot by slot the one that its surviving entries alone build, so a search
goes through the same slots in both. -/
theorem run_restores [Inhabited V] (hash : UInt64 → UInt64) (hint : ℕ) (ops : List (MapOp V)) :
    ∃ answers t, run hash (make hint) ops = some (answers, t) ∧ (t.grows = 0 →
      ∃ answers' t', run hash (make hint)
          ((survivors ops).map fun e => .insert e.1 e.2) = some (answers', t') ∧
        t'.grows = 0 ∧ t'.cap = t.cap ∧ t'.size = t.size ∧
        (∀ i < t.cap, (t'.slots i).1 = (t.slots i).1 ∧
          ((t.slots i).1 ≠ kEmptyKey → (t'.slots i).2 = (t.slots i).2)) ∧
        ∀ key, (scheme V hash t.cap).walk t'.slots key t.cap ((scheme V hash t.cap).home key) =
          (scheme V hash t.cap).walk t.slots key t.cap ((scheme V hash t.cap).home key)) := by
  have hmake : Wf hash (make hint : FlatOrderMap V) := wf_make hint
  obtain ⟨t, hr, hwf, _⟩ := run_eq ops hmake
  refine ⟨_, t, hr, fun hgrows => ?_⟩
  have hpow := Lib.roundUpPow2_pow hint
  have hstart (rank) : Laid hash (make hint : FlatOrderMap V) rank [] := Laid.empty hpow rank
  obtain ⟨hcap, rank, h⟩ := (hstart fun _ => 0).run hr (by rw [hgrows]; exact Nat.zero_le _)
  have hfill : 0 + (survivors ops).length ≤ maxFill (make hint : FlatOrderMap V).cap := by
    have hfill := h.wf.fill
    rw [hcap, ← h.length_eq] at hfill
    rw [Nat.zero_add]
    exact hfill
  obtain ⟨as', t', hr', hcap', hgrows', h'⟩ := (hstart rank).replay h.ages
    (fun e he => h.key_ne_zero he) hfill
  have hsame : t'.cap = t.cap := hcap'.trans hcap.symm
  have hmap : t'.toMap = t.toMap := funext fun k => Option.ext fun v => (h'.mem k v).trans
    (h.mem k v).symm
  -- the two tables hold the same keys and rank them alike
  have hkeys : ∀ i < t.cap, (scheme V hash t.cap).key (t'.slots i) =
      (scheme V hash t.cap).key (t.slots i) := by
    refine Scheme.ranked_unique (c := scheme V hash t.cap) (hsame ▸ h'.ranked) h.ranked fun k => ?_
    have hin' := h'.in_slots k
    rw [hmap, hsame] at hin'
    exact hin'.trans (h.in_slots k).symm
  refine ⟨as', t', hr', hgrows', hsame, ?_, fun i hi => ?_, fun key => ?_⟩
  · rw [← size_eq_ncard h'.wf, hmap, size_eq_ncard h.wf]
  · have hki := hkeys i hi
    by_cases hz : (t.slots i).1 = kEmptyKey
    · rw [key_none.mpr hz, key_none] at hki
      exact ⟨hki.trans hz.symm, fun hne => absurd hz hne⟩
    · have hki0 : (scheme V hash t.cap).key (t.slots i) = some (t.slots i).1 :=
        key_some.mpr ⟨rfl, hz⟩
      rw [hki0, key_some] at hki
      have hv := (h.mem _ _).mpr (h.mem_of_key hi hki0)
      have hv' := (h'.mem _ _).mpr (h'.mem_of_key (hsame.symm ▸ hi) (key_some.mpr hki))
      rw [hmap, hv, Option.some.injEq] at hv'
      exact ⟨hki.1, fun _ => hv'.symm⟩
  · exact Scheme.walk_congr h.wf.lawful hkeys key t.cap _ (h.wf.lawful.home_lt key)

/-- A cluster that runs past the end of the array closes up behind the erased key. -/
example : (run identityHash (make 8 : FlatOrderMap ℕ)
    [.insert 7 1, .insert 15 2, .insert 8 3, .erase 7]).map (fun r => (r.2.grows, r.2.forEach)) =
      some (0, [(8, 3), (15, 2)]) := by
  decide

end FlatOrderMap

end Tickerplant
