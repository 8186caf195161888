import Mathlib.Data.List.Basic
import Mathlib.Data.Nat.Notation
import Mathlib.Order.Basic

/-!
# Consecutive ranges

A range is where it starts and how many it has. `Tiles a rs b` says that the ranges of `rs` follow
each other without a gap from `a` to `b`, none of them empty: so they are disjoint, and together
they cover exactly what lies between.

It is what cutting a long range into pieces must produce. The cut is a loop that moves a starting
point forward, and the definition follows that loop, so the loop's invariant is that what has been
cut so far tiles up to where it stands. Everything else said of the pieces (`pairwise`,
`spans_iff`, `end_le`) is read off the result.
-/

set_option autoImplicit false

namespace Tickerplant
namespace Lib

/-- `x` lies in the range. -/
def Spans (r : ℕ × ℕ) (x : ℕ) : Prop := r.1 ≤ x ∧ x < r.1 + r.2

instance (r : ℕ × ℕ) (x : ℕ) : Decidable (Spans r x) := inferInstanceAs (Decidable (_ ∧ _))

/-- One range after the other, from `a` to `b`. -/
def Tiles : ℕ → List (ℕ × ℕ) → ℕ → Prop
  | a, [], b => a = b
  | a, r :: rs, b => r.1 = a ∧ 0 < r.2 ∧ Tiles (a + r.2) rs b

namespace Tiles

/-- It goes forward. -/
theorem le : ∀ {rs : List (ℕ × ℕ)} {a b : ℕ}, Tiles a rs b → a ≤ b
  | [], _, _, h => Nat.le_of_eq h
  | r :: _, a, _, h => Nat.le_trans (Nat.le_add_right a r.2) h.2.2.le

/-- What the ranges cover together. -/
theorem spans_iff : ∀ {rs : List (ℕ × ℕ)} {a b : ℕ}, Tiles a rs b → ∀ x,
    (∃ r ∈ rs, Spans r x) ↔ a ≤ x ∧ x < b := by
  intro rs
  induction rs with
  | nil =>
    intro a b h x
    have hab : a = b := h
    constructor
    · rintro ⟨r, hr, -⟩
      cases hr
    · omega
  | cons r rs ih =>
    intro a b h x
    obtain ⟨hfirst, -, hrest⟩ := h
    have hle := hrest.le
    have hiff := ih hrest x
    rw [List.exists_mem_cons_iff, hiff, Spans]
    omega

/-- No range starts before the first. -/
theorem first_ge : ∀ {rs : List (ℕ × ℕ)} {a b : ℕ}, Tiles a rs b → ∀ r ∈ rs, a ≤ r.1
  | [], _, _, _, _, hr => absurd hr List.not_mem_nil
  | r :: _, a, _, h, r', hr => by
    rcases List.mem_cons.mp hr with rfl | hmem
    · exact Nat.le_of_eq h.1.symm
    · exact Nat.le_trans (Nat.le_add_right a r.2) (h.2.2.first_ge r' hmem)

/-- No range is empty. -/
theorem pos : ∀ {rs : List (ℕ × ℕ)} {a b : ℕ}, Tiles a rs b → ∀ r ∈ rs, 0 < r.2
  | [], _, _, _, _, hr => absurd hr List.not_mem_nil
  | _ :: _, _, _, h, r', hr => by
    rcases List.mem_cons.mp hr with rfl | hmem
    · exact h.2.1
    · exact h.2.2.pos r' hmem

/-- Each range ends before the next one starts. -/
theorem pairwise : ∀ {rs : List (ℕ × ℕ)} {a b : ℕ}, Tiles a rs b →
    rs.Pairwise fun r r' => r.1 + r.2 ≤ r'.1
  | [], _, _, _ => List.Pairwise.nil
  | r :: _, a, _, h => by
    refine List.pairwise_cons.mpr ⟨fun r' hr' => ?_, h.2.2.pairwise⟩
    rw [h.1]
    exact h.2.2.first_ge r' hr'

end Tiles

end Lib
end Tickerplant
