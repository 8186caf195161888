import Mathlib.Algebra.Group.Nat.Defs
import Mathlib.Order.Basic

/-!
# Digits of a fixed width

A number written with a fixed count of digits, padded with zeros on the left: what is left of it is
its remainder by the power of the base, and two such texts stand in the order of the numbers
(`lex_digits_iff`). Characters that ascend with the digits they stand for keep that order
(`lex_map_digits`).

That is why a counter rendered this way makes texts that sort by age, and why no two of them are
alike before the digits run out. When they do, the texts start again from zero: the remainder is
the whole truth about the text.
-/

set_option autoImplicit false

namespace Tickerplant.Lib

/-- The last `n` digits of `v` in base `b`, the most significant one first. -/
def digits (b : ℕ) : ℕ → ℕ → List ℕ
  | 0, _ => []
  | n + 1, v => v / b ^ n % b :: digits b n v

section Digits

variable {b : ℕ}

/-- As many digits as were asked for. -/
@[simp] theorem length_digits (n v : ℕ) : (digits b n v).length = n := by
  induction n with
  | zero => rfl
  | succ n ih => rw [digits, List.length_cons, ih]

/-- The last digit splits off, and the others are those of the quotient. -/
theorem digits_snoc (n v : ℕ) : digits b (n + 1) v = digits b n (v / b) ++ [v % b] := by
  induction n with
  | zero => rw [digits, digits, Nat.pow_zero, Nat.div_one, digits, List.nil_append]
  | succ n ih =>
    rw [digits, ih, digits, List.cons_append, Nat.div_div_eq_div_mul, ← Nat.pow_succ']

/-- Two numbers with a leading digit compare by that digit first. -/
theorem lead_lt_iff {p q r q' r' : ℕ} (hr : r < p) (hr' : r' < p) :
    r + p * q < r' + p * q' ↔ q < q' ∨ q = q' ∧ r < r' := by
  constructor
  · intro h
    by_contra hnot
    rw [not_or, Nat.not_lt, not_and, Nat.not_lt] at hnot
    rcases Nat.eq_or_lt_of_le hnot.1 with heq | hlt
    · have := hnot.2 heq.symm
      rw [heq] at h
      omega
    · have hle : p * (q' + 1) ≤ p * q := Nat.mul_le_mul_left p hlt
      rw [Nat.mul_add, Nat.mul_one] at hle
      omega
  · rintro (hlt | ⟨rfl, hlt⟩)
    · have hle : p * (q + 1) ≤ p * q' := Nat.mul_le_mul_left p hlt
      rw [Nat.mul_add, Nat.mul_one] at hle
      omega
    · omega

/-- **Digits of one width stand in the order of the remainders.** -/
theorem lex_digits_iff (hb : 0 < b) (n v w : ℕ) :
    List.Lex (· < ·) (digits b n v) (digits b n w) ↔ v % b ^ n < w % b ^ n := by
  induction n with
  | zero =>
    rw [Nat.pow_zero, Nat.mod_one, Nat.mod_one]
    exact ⟨nofun, fun h => absurd h (Nat.lt_irrefl 0)⟩
  | succ n ih =>
    have hpow := Nat.pow_pos (n := n) hb
    rw [digits, digits, List.cons_lex_cons_iff, ih, Nat.mod_pow_succ, Nat.mod_pow_succ,
      lead_lt_iff (Nat.mod_lt v hpow) (Nat.mod_lt w hpow)]

/-- Characters ascending with the digits keep the order of the texts. -/
theorem lex_map_digits {α : Type*} {r : α → α → Prop} {f : ℕ → α} (hb : 0 < b)
    (hf : ∀ i j, i < j → j < b → r (f i) (f j)) {n v w : ℕ}
    (h : List.Lex (· < ·) (digits b n v) (digits b n w)) :
    List.Lex r ((digits b n v).map f) ((digits b n w).map f) := by
  induction n with
  | zero => cases h
  | succ n ih =>
    rw [digits, digits] at h ⊢
    rw [List.map_cons, List.map_cons]
    rcases List.cons_lex_cons_iff.mp h with hlead | ⟨heq, htail⟩
    · exact .rel (hf _ _ hlead (Nat.mod_lt _ hb))
    · rw [heq]
      exact .cons (ih htail)

end Digits

/-- A common beginning changes no order. -/
theorem lex_append_left {α : Type*} {r : α → α → Prop} (p : List α) {s t : List α}
    (h : List.Lex r s t) : List.Lex r (p ++ s) (p ++ t) := by
  induction p with
  | nil => exact h
  | cons x p ih => exact .cons ih

end Tickerplant.Lib
