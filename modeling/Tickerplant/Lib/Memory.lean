import Mathlib.Data.Nat.Notation
import Mathlib.Logic.Function.Basic

/-!
# Regions of memory, and lists threaded through it

An address is a number. A region is where it starts and how long it is; two regions are apart when
one ends before the other starts, and what lies within regions that are apart is apart. That is all
an allocator needs to know of the memory it hands out: a part of a free region is apart from
everything the region was apart from.

A `Chain` is a linked list whose links lie in the memory of its own members: the word at a member
is the address of the next one, and the last one's is null. Only the members' words matter to it
(`congr`), so whoever writes elsewhere leaves it alone; the first member can be taken off (`pop`)
and a new one put in front (`push`), which is how a free list is used.
-/

set_option autoImplicit false

namespace Tickerplant.Lib

/-! ## Regions -/

/-- An interval of addresses. -/
structure Region where
  base : ℕ
  size : ℕ
  deriving DecidableEq, Repr

namespace Region

/-- The first address after it. -/
def stop (r : Region) : ℕ := r.base + r.size

/-- One ends before the other starts. -/
def Apart (r t : Region) : Prop := r.stop ≤ t.base ∨ t.stop ≤ r.base

/-- It starts no sooner and ends no later. -/
def Within (r t : Region) : Prop := t.base ≤ r.base ∧ r.stop ≤ t.stop

/-- The address lies in it. -/
def Has (r : Region) (x : ℕ) : Prop := r.base ≤ x ∧ x < r.stop

instance (r t : Region) : Decidable (r.Apart t) := inferInstanceAs (Decidable (_ ∨ _))

instance (r t : Region) : Decidable (r.Within t) := inferInstanceAs (Decidable (_ ∧ _))

instance (r : Region) (x : ℕ) : Decidable (r.Has x) := inferInstanceAs (Decidable (_ ∧ _))

variable {r s t u : Region}

/-- Neither comes first. -/
theorem Apart.symm (h : r.Apart t) : t.Apart r := Or.symm h

theorem Within.refl (r : Region) : r.Within r := ⟨Nat.le_refl _, Nat.le_refl _⟩

theorem Within.trans (h : r.Within s) (h' : s.Within t) : r.Within t :=
  ⟨Nat.le_trans h'.1 h.1, Nat.le_trans h.2 h'.2⟩

/-- What lies in the part lies in the whole. -/
theorem Within.has {x : ℕ} (h : r.Within t) (hx : r.Has x) : t.Has x :=
  ⟨Nat.le_trans h.1 hx.1, Nat.lt_of_lt_of_le hx.2 h.2⟩

/-- Parts of regions that are apart are apart. -/
theorem Apart.within (h : t.Apart u) (hr : r.Within t) (hs : s.Within u) : r.Apart s :=
  h.imp (fun h => Nat.le_trans hr.2 (Nat.le_trans h hs.1))
    fun h => Nat.le_trans hs.2 (Nat.le_trans h hr.1)

/-- Regions that are apart have no address in common. -/
theorem Apart.not_has {x : ℕ} (h : r.Apart t) (hr : r.Has x) : ¬ t.Has x := by
  rintro ⟨hge, hlt⟩
  rcases h with h | h
  · exact absurd (Nat.lt_of_lt_of_le hr.2 h) (Nat.not_lt.mpr hge)
  · exact absurd (Nat.lt_of_lt_of_le hlt h) (Nat.not_lt.mpr hr.1)

end Region

/-! ## Chains -/

/-- The members of the list that starts at `p`, null being zero. -/
def Chain (mem : ℕ → ℕ) : ℕ → List ℕ → Prop
  | p, [] => p = 0
  | p, a :: rest => p = a ∧ a ≠ 0 ∧ Chain mem (mem a) rest

namespace Chain

variable {mem mem' : ℕ → ℕ} {p : ℕ} {l : List ℕ}

/-- Memory may change where no member lies. -/
theorem congr (h : Chain mem p l) (hsame : ∀ a ∈ l, mem' a = mem a) : Chain mem' p l := by
  induction l generalizing p with
  | nil => exact h
  | cons a rest ih =>
    refine ⟨h.1, h.2.1, ?_⟩
    rw [hsame a List.mem_cons_self]
    exact ih h.2.2 fun b hb => hsame b (List.mem_cons_of_mem a hb)

/-- **Pop**: what a list that is not empty starts with, and the list after it. -/
theorem pop (h : Chain mem p l) (hp : p ≠ 0) : ∃ rest, l = p :: rest ∧ Chain mem (mem p) rest := by
  cases l with
  | nil => exact absurd h hp
  | cons a rest =>
    obtain ⟨rfl, -, hrest⟩ := h
    exact ⟨rest, rfl, hrest⟩

/-- **Push**: the new first member holds the address of the old one. -/
theorem push (h : Chain mem p l) {a : ℕ} (ha : a ≠ 0) (hnew : a ∉ l) :
    Chain (Function.update mem a p) a (a :: l) := by
  refine ⟨rfl, ha, ?_⟩
  rw [Function.update_self]
  refine h.congr fun b hb => Function.update_of_ne ?_ _ _
  rintro rfl
  exact hnew hb

end Chain

end Tickerplant.Lib
