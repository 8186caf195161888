import Mathlib.Algebra.Group.Nat.Defs
import Mathlib.Data.List.Basic
import Mathlib.Data.Nat.Notation

/-!
# Doubling delays with a ceiling

`delay init ceiling k` is how long to wait after the `k`-th attempt. It doubles from `init` until
it meets the ceiling, and a sender that only ever doubles what it waited last keeps to it
(`delay_succ`), so the sender need not count: the delay it holds says which attempt it is at.

`Spaced` says that a list of times, oldest first, was kept to: each attempt came no sooner than the
delay after the one before. It bounds times from below only. A sender that is asked late sends
late, and what it then waits is counted from when it did send, not from when it might have.
-/

set_option autoImplicit false

namespace Tickerplant
namespace Lib

/-- How long to wait after so many times: twice as long after each, up to the ceiling. -/
def delay (init ceiling k : ℕ) : ℕ := min (init * 2 ^ (k - 1)) ceiling

/-- The first wait is the initial one. -/
theorem delay_one {init ceiling : ℕ} (h : init ≤ ceiling) : delay init ceiling 1 = init := by
  unfold delay
  rw [Nat.sub_self, Nat.pow_zero, Nat.mul_one, Nat.min_eq_left h]

/-- Each wait doubles the one before, up to the ceiling, whether or not that one had met it. -/
theorem delay_succ {init ceiling k : ℕ} (hk : 0 < k) :
    delay init ceiling (k + 1) = min (delay init ceiling k * 2) ceiling := by
  obtain ⟨k, rfl⟩ := Nat.exists_eq_succ_of_ne_zero (Nat.pos_iff_ne_zero.mp hk)
  unfold delay
  rw [Nat.succ_eq_add_one, Nat.add_sub_cancel, Nat.add_sub_cancel, Nat.pow_succ, ← Nat.mul_assoc]
  omega

/-- No wait is longer than the ceiling. -/
theorem delay_le {init ceiling k : ℕ} : delay init ceiling k ≤ ceiling := Nat.min_le_right _ _

/-- The waits never become shorter. -/
theorem delay_mono {init ceiling k n : ℕ} (h : k ≤ n) :
    delay init ceiling k ≤ delay init ceiling n := by
  have hpow : 2 ^ (k - 1) ≤ 2 ^ (n - 1) :=
    Nat.pow_le_pow_right Nat.two_pos (Nat.sub_le_sub_right h 1)
  have hinit := Nat.mul_le_mul_left init hpow
  unfold delay
  omega

/-- Between the `k`-th time and the next at least `wait k` passes. -/
def Spaced (wait : ℕ → ℕ) (times : List ℕ) : Prop :=
  ∀ (k : ℕ) (h : k + 1 < times.length), times[k] + wait (k + 1) ≤ times[k + 1]

/-- Nothing has been sent. -/
theorem spaced_nil (wait : ℕ → ℕ) : Spaced wait [] := fun _ h => absurd h (Nat.not_lt_zero _)

/-- One more time, no sooner than the last one and its wait. -/
theorem Spaced.push {wait : ℕ → ℕ} {times : List ℕ} (h : Spaced wait times) {t : ℕ}
    (ht : ∀ last ∈ times.getLast?, last + wait times.length ≤ t) : Spaced wait (times ++ [t]) := by
  intro k hk
  rw [List.length_append, List.length_singleton] at hk
  by_cases hlast : k + 1 = times.length
  · have hlt : k < times.length := by omega
    have hmem : times[k] ∈ times.getLast? := by
      rw [List.getLast?_eq_getElem?, ← hlast, Nat.add_sub_cancel]
      exact List.getElem?_eq_getElem hlt
    have hgap := ht _ hmem
    rw [← hlast] at hgap
    rw [List.getElem_append_left hlt, List.getElem_append_right (by omega)]
    simpa using hgap
  · rw [List.getElem_append_left (by omega), List.getElem_append_left (by omega)]
    exact h k (by omega)

end Lib
end Tickerplant
