import Tickerplant.Lib.Probe
import Tickerplant.Lib.Word
import Tickerplant.Ouch.Wire

/-!
# The open order table (`include/tick/risk.hpp`)

Orders that are working, by token: open addressing with linear probing, deletion by backward shift.
Unlike the book's table it never grows, and a slot is addressed by its number between a search and
what is done to it. The loops are those of `Lib/Probe`.

What a table holds is the set `held` of its occupied entries, no two with the same token. Each
operation is specified by what it does to that set.

The library's scheme is given a key for each slot, a home for each key and the rule by which an
entry stays where it is when the one before it is deleted. `lawful` is what it asks of them, and is
the one place where the hash and the mask are looked at. The rest is the library's: every search
stops, because an empty slot is left, and a deletion loses nothing.

The table never grows, so it has to be large enough from the start. It has four slots for each
order that may be open, and 64 at least.
-/

set_option autoImplicit false

namespace Tickerplant

open Lib Lib.Probe

/-- A slot: an order that works, with what is left of it and where it belongs. -/
structure OpenOrder where
  token : Ouch.Token := alpha Ouch.kTokenLen []
  leaves : UInt32 := 0
  locate : UInt16 := 0
  isBuy : Bool := false
  /-- A slot that is not occupied keeps the rest of what it said. -/
  occupied : Bool := false
  deriving DecidableEq

/-- `slots_`; `mask_` is `cap - 1`. -/
structure OpenOrderTable where
  cap : ℕ
  slots : ℕ → OpenOrder

namespace OpenOrderTable

/-- Four times the open order ceiling, rounded up to a power of two, and 64 at least. -/
def sizeFor (maxOpenOrders : UInt32) : ℕ :=
  doubleUntil (maxOpenOrders.toNat * 4) (maxOpenOrders.toNat * 4) 64

/-- `size_open_order_table`. -/
def make (maxOpenOrders : UInt32) : OpenOrderTable :=
  { cap := sizeFor maxOpenOrders, slots := fun _ => {} }

/-- Eight bytes in the machine's own order, the lowest first. -/
def nativeLoad (bytes : List UInt8) : UInt64 :=
  bytes.foldr (fun b acc => acc * 256 + b.toUInt64) 0

/-- The first eight characters and the last eight, mixed. -/
def hashToken (t : Ouch.Token) : UInt64 :=
  let a := nativeLoad (t.chars.take 8)
  let b := nativeLoad (t.chars.drop (Ouch.kTokenLen - 8))
  let h := a ^^^ (b * 0x9E3779B97F4A7C15)
  let h := (h ^^^ (h >>> 30)) * 0xBF58476D1CE4E5B9
  let h := (h ^^^ (h >>> 27)) * 0x94D049BB133111EB
  h ^^^ (h >>> 31)

/-- Whether the entry at `j`, whose home is `k`, is pulled back into the hole at `i`. -/
def movable (i k j : ℕ) : Bool :=
  if i ≤ j then decide (k ≤ i) || decide (j < k) else decide (k ≤ i) && decide (j < k)

/-- How the loops read a table of `cap` slots. -/
def scheme (cap : ℕ) : Scheme OpenOrder Ouch.Token where
  cap := cap
  key := fun s => if s.occupied then some s.token else none
  clear := fun s => { s with occupied := false }
  home := fun t => (hashToken t).toNat &&& (cap - 1)
  stays := fun i k j => !movable i k j

/-- `find_open`: the slot, or none. The outer option is whether the loop stops. -/
def findOpen (t : OpenOrderTable) (token : Ouch.Token) : Option (Option ℕ) :=
  let c := scheme t.cap
  (c.walk t.slots token t.cap (c.home token)).map fun i =>
    if (t.slots i).occupied then some i else none

/-- `insert_open`. It gives up on a token that is there and on a full table. -/
def insertOpen (t : OpenOrderTable) (token : Ouch.Token) (leaves : UInt32) (locate : UInt16)
    (isBuy : Bool) : Option OpenOrderTable :=
  let c := scheme t.cap
  (c.walk t.slots token t.cap (c.home token)).bind fun i =>
    if (t.slots i).occupied then none
    else some { t with slots := Function.update t.slots i ⟨token, leaves, locate, isBuy, true⟩ }

/-- `slots_[i].leaves = n`. -/
def setLeaves (t : OpenOrderTable) (i : ℕ) (n : UInt32) : OpenOrderTable :=
  { t with slots := Function.update t.slots i { t.slots i with leaves := n } }

/-- `erase_at`. -/
def eraseAt (t : OpenOrderTable) (i : ℕ) : Option OpenOrderTable :=
  ((scheme t.cap).erase t.slots i).map fun slots => { t with slots := slots }

/-! ## The loops' terms -/

section Scheme

variable {cap : ℕ}

/-- A slot has a key when it is occupied. -/
theorem key_some {s : OpenOrder} {token : Ouch.Token} :
    (scheme cap).key s = some token ↔ s.occupied = true ∧ s.token = token := by
  simp only [scheme]
  split <;> simp_all

/-- And none when it is not. -/
theorem key_none {s : OpenOrder} : (scheme cap).key s = none ↔ s.occupied = false := by
  simp only [scheme]
  split <;> simp_all

theorem lawful {m : ℕ} (hcap : cap = 2 ^ m) : (scheme cap).Lawful where
  cap_pos := by
    show 0 < cap
    rw [hcap]
    exact Nat.two_pow_pos m
  home_lt := by
    intro t
    show (hashToken t).toNat &&& (cap - 1) < cap
    rw [hcap, Nat.and_two_pow_sub_one_eq_mod]
    exact Nat.mod_lt _ (Nat.two_pow_pos m)
  key_clear := fun _ => rfl
  stays_iff := by
    intro hole ideal j hhole hideal hj hne
    have hhole : hole < cap := hhole
    have hideal : ideal < cap := hideal
    have hj : j < cap := hj
    show (!movable hole ideal j) = true ↔
      0 < gap cap hole ideal ∧ gap cap hole ideal ≤ gap cap hole j
    unfold movable gap
    split_ifs <;> simp only [Bool.not_eq_true', Bool.or_eq_false_iff, Bool.and_eq_false_iff,
      decide_eq_false_iff_not] <;> omega

end Scheme

/-! ## What a table holds -/

/-- The occupied entries. -/
def held (t : OpenOrderTable) : Finset OpenOrder :=
  ((scheme t.cap).occupied t.slots).image t.slots

/-- A table that finds what it holds. -/
structure Wf (t : OpenOrderTable) : Prop where
  /-- Masking is taking the remainder. -/
  pow : ∃ m, t.cap = 2 ^ m
  /-- There is no gap between the home of an entry and the entry. -/
  probe : (scheme t.cap).Wf t.slots

variable {t : OpenOrderTable}

/-- An order is held when the library says so. -/
theorem mem_held {o : OpenOrder} : o ∈ t.held ↔ (scheme t.cap).Holds t.slots o.token o := by
  rw [held, Finset.mem_image]
  constructor
  · rintro ⟨i, hi, rfl⟩
    obtain ⟨hlt, hne⟩ := Scheme.mem_occupied.mp hi
    refine ⟨i, hlt, rfl, key_some.mpr ⟨?_, rfl⟩⟩
    exact Bool.not_eq_false _ |>.mp fun h => hne (key_none.mpr h)
  · rintro ⟨i, hi, rfl, hk⟩
    exact ⟨i, Scheme.mem_occupied.mpr ⟨hi, by rw [hk]; simp⟩, rfl⟩

/-- What is held is in a slot that is occupied. -/
theorem occupied_of_held {o : OpenOrder} (h : o ∈ t.held) : o.occupied = true := by
  obtain ⟨_, _, _, hk⟩ := mem_held.mp h
  exact (key_some.mp hk).1

/-- And what is in one is held. -/
theorem mem_held_slot {i : ℕ} (hi : i < t.cap) (ho : (t.slots i).occupied = true) :
    t.slots i ∈ t.held :=
  mem_held.mpr ⟨i, hi, rfl, key_some.mpr ⟨ho, rfl⟩⟩

/-- The set, read off what the slots hold. -/
theorem held_eq {t' : OpenOrderTable} {s : Finset OpenOrder}
    (hocc : ∀ o ∈ s, o.occupied = true)
    (h : ∀ token o, (scheme t'.cap).Holds t'.slots token o ↔
      o.occupied = true ∧ o.token = token ∧ o ∈ s) : t'.held = s := by
  ext o
  rw [mem_held, h]
  exact ⟨fun ho => ho.2.2, fun ho => ⟨hocc o ho, rfl, ho⟩⟩

/-- What the library says of a token is who has it. -/
theorem holds_iff {token : Ouch.Token} {o : OpenOrder} :
    (scheme t.cap).Holds t.slots token o ↔ o.token = token ∧ o ∈ t.held := by
  constructor
  · intro h
    obtain ⟨i, hi, hti, hk⟩ := h
    obtain ⟨_, rfl⟩ := key_some.mp hk
    exact ⟨rfl, mem_held.mpr ⟨i, hi, hti, hk⟩⟩
  · rintro ⟨rfl, ho⟩
    exact mem_held.mp ho

namespace Wf

theorem lawful (h : Wf t) : (scheme t.cap).Lawful := by
  obtain ⟨m, hm⟩ := h.pow
  exact OpenOrderTable.lawful hm

/-- No two orders have one token. -/
theorem held_inj (h : Wf t) {o o' : OpenOrder} (ho : o ∈ t.held) (ho' : o' ∈ t.held)
    (htoken : o.token = o'.token) : o = o' :=
  h.probe.holds_inj (holds_iff.mpr ⟨htoken, ho⟩) (holds_iff.mpr ⟨rfl, ho'⟩)

/-- There are as many as there are slots in use. -/
theorem card_held (h : Wf t) : t.held.card = ((scheme t.cap).occupied t.slots).card := by
  refine Finset.card_image_of_injOn fun i hi j hj hij => ?_
  obtain ⟨hi, hne⟩ := Scheme.mem_occupied.mp hi
  obtain ⟨token, hk⟩ := Option.ne_none_iff_exists'.mp hne
  have hj := (Scheme.mem_occupied.mp hj).1
  exact h.probe.unique i hi j hj token hk (hij ▸ hk)

/-- A token nobody has is in no slot. -/
theorem absent {token : Ouch.Token} (hno : ∀ o ∈ t.held, o.token ≠ token) (i : ℕ) (hi : i < t.cap) :
    (scheme t.cap).key (t.slots i) ≠ some token := by
  intro hk
  obtain ⟨hocc, htoken⟩ := key_some.mp hk
  exact hno _ (mem_held_slot hi hocc) htoken

/-- **Every search stops**, and finds the order that is there. -/
theorem find_held (h : Wf t) {o : OpenOrder} (ho : o ∈ t.held) :
    ∃ i < t.cap, t.findOpen o.token = some (some i) ∧ t.slots i = o := by
  obtain ⟨i, hi, rfl, hk⟩ := mem_held.mp ho
  have hwalk := Scheme.walk_holds h.lawful h.probe hi hk
  refine ⟨i, hi, ?_, rfl⟩
  rw [findOpen]
  simp only [show (scheme t.cap).cap = t.cap from rfl] at hwalk
  simp only [hwalk, Option.map_some, (key_some.mp hk).1, if_true]

/-- A token that is not there is not found. -/
theorem find_absent (h : Wf t) {token : Ouch.Token} (hno : ∀ o ∈ t.held, o.token ≠ token) :
    t.findOpen token = some none := by
  obtain ⟨e, _, hwalk, hnone, _⟩ := Scheme.walk_absent h.lawful h.probe (absent hno)
  rw [findOpen]
  simp only [show (scheme t.cap).cap = t.cap from rfl] at hwalk
  simp only [hwalk, Option.map_some, key_none.mp hnone, Bool.false_eq_true, if_false]

/-- A new token goes in, if that leaves a slot empty. -/
theorem insert (h : Wf t) {token : Ouch.Token} (hno : ∀ o ∈ t.held, o.token ≠ token)
    (hroom : t.held.card + 1 < t.cap) (leaves : UInt32) (locate : UInt16) (isBuy : Bool) :
    ∃ t', t.insertOpen token leaves locate isBuy = some t' ∧ Wf t' ∧ t'.cap = t.cap ∧
      t'.held = Insert.insert ⟨token, leaves, locate, isBuy, true⟩ t.held := by
  obtain ⟨e, he, hwalk, hnone, hbefore⟩ :=
    Scheme.walk_absent h.lawful h.probe (absent hno)
  -- the search has stopped at an empty slot, and nothing between it and the home is empty
  have hnew : (scheme t.cap).key ⟨token, leaves, locate, isBuy, true⟩ = some token := rfl
  obtain ⟨hwf, _, hholds⟩ := h.probe.put (absent hno) he hnone hbefore hnew
    (h.card_held ▸ hroom)
  refine ⟨{ t with slots := Function.update t.slots e ⟨token, leaves, locate, isBuy, true⟩ },
    ?_, ⟨h.pow, hwf⟩, rfl, ?_⟩
  · rw [insertOpen]
    simp only [show (scheme t.cap).cap = t.cap from rfl] at hwalk
    simp only [hwalk, Option.bind_some, key_none.mp hnone, Bool.false_eq_true, if_false]
  · refine held_eq ?_ fun k o => ?_
    · intro o ho
      rcases Finset.mem_insert.mp ho with rfl | ho
      · rfl
      · exact occupied_of_held ho
    · refine (hholds k o).trans ?_
      rw [holds_iff, Finset.mem_insert]
      constructor
      · rintro (⟨rfl, rfl⟩ | ⟨rfl, ho⟩)
        · exact ⟨rfl, rfl, .inl rfl⟩
        · exact ⟨occupied_of_held ho, rfl, .inr ho⟩
      · rintro ⟨_, rfl, rfl | ho⟩
        · exact .inl ⟨rfl, rfl⟩
        · exact .inr ⟨rfl, ho⟩

/-- A write to a held order's leaves. -/
theorem setLeaves (h : Wf t) {i : ℕ} (hi : i < t.cap) (hheld : t.slots i ∈ t.held)
    (n : UInt32) : Wf (t.setLeaves i n) ∧
      (t.setLeaves i n).held =
        Insert.insert { t.slots i with leaves := n } (t.held.erase (t.slots i)) := by
  have hocc := occupied_of_held hheld
  have hk : (scheme t.cap).key (t.slots i) = some (t.slots i).token := key_some.mpr ⟨hocc, rfl⟩
  have hk' : (scheme t.cap).key { t.slots i with leaves := n } = some (t.slots i).token :=
    key_some.mpr ⟨hocc, rfl⟩
  obtain ⟨hwf, _, hholds⟩ := h.probe.overwrite hi hk hk'
  refine ⟨⟨h.pow, hwf⟩, held_eq ?_ fun k o => ?_⟩
  · intro o ho
    rcases Finset.mem_insert.mp ho with rfl | ho
    · exact hocc
    · exact occupied_of_held (Finset.mem_of_mem_erase ho)
  · refine (hholds k o).trans ?_
    rw [holds_iff, Finset.mem_insert, Finset.mem_erase]
    constructor
    · rintro (⟨rfl, rfl⟩ | ⟨hne, rfl, ho⟩)
      · exact ⟨hocc, rfl, .inl rfl⟩
      · exact ⟨occupied_of_held ho, rfl, .inr ⟨fun heq => hne (congrArg _ heq), ho⟩⟩
    · rintro ⟨_, rfl, rfl | ⟨hne, ho⟩⟩
      · exact .inl ⟨rfl, rfl⟩
      · exact .inr ⟨fun heq => hne (h.held_inj ho hheld heq), rfl, ho⟩

/-- **Every deletion stops**, and forgets that order and no other. -/
theorem eraseAt (h : Wf t) {i : ℕ} (hi : i < t.cap) (hheld : t.slots i ∈ t.held) :
    ∃ t', t.eraseAt i = some t' ∧ Wf t' ∧ t'.cap = t.cap ∧
      t'.held = t.held.erase (t.slots i) := by
  have hk : (scheme t.cap).key (t.slots i) = some (t.slots i).token :=
    key_some.mpr ⟨occupied_of_held hheld, rfl⟩
  obtain ⟨slots, herase, hwf, hholds, _⟩ := Scheme.erase_spec h.lawful h.probe hi hk
  refine ⟨{ t with slots := slots }, ?_, ⟨h.pow, hwf⟩, rfl, held_eq ?_ fun k o => ?_⟩
  · rw [OpenOrderTable.eraseAt, herase, Option.map_some]
  · exact fun o ho => occupied_of_held (Finset.mem_of_mem_erase ho)
  · refine (hholds k o).trans ?_
    rw [holds_iff, Finset.mem_erase]
    constructor
    · rintro ⟨hne, rfl, ho⟩
      exact ⟨occupied_of_held ho, rfl, fun heq => hne (congrArg _ heq), ho⟩
    · rintro ⟨_, rfl, hne, ho⟩
      exact ⟨fun heq => hne (h.held_inj ho hheld heq), rfl, ho⟩

end Wf

/-- A new table is empty, and four times the ceiling fits. -/
theorem wf_make (maxOpenOrders : UInt32) : Wf (make maxOpenOrders) where
  pow := doubleUntil_pow _ _ 6
  probe := Scheme.wf_empty (lawful (doubleUntil_pow _ _ 6).choose_spec) fun _ _ => rfl

/-- A new table holds nothing. -/
theorem held_make (maxOpenOrders : UInt32) : (make maxOpenOrders).held = ∅ := by
  rw [held, Scheme.occupied_empty fun _ _ => rfl, Finset.image_empty]

/-- It is large enough for four times the ceiling, and for 64. -/
theorem le_sizeFor (maxOpenOrders : UInt32) :
    maxOpenOrders.toNat * 4 ≤ sizeFor maxOpenOrders ∧ 64 ≤ sizeFor maxOpenOrders := by
  refine ⟨le_doubleUntil _ _ 64 ?_, self_le_doubleUntil _ _ 64⟩
  have hpow := (maxOpenOrders.toNat * 4).lt_two_pow_self
  omega

end OpenOrderTable
end Tickerplant
