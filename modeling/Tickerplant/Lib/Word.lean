import Mathlib.Data.Nat.Bitwise
import Mathlib.Order.Basic

/-!
# Machine words and power-of-two rings

A ring buffer of `2 ^ k` slots finds the slot of a sequence number by masking, and this file is the
arithmetic that makes that a remainder: `maskIndex_eq_mod`. Beside it stands the loop every such
ring sizes itself with (`roundUpPow2`), and the few facts about `UInt64` that are used when a
counter is known not to wrap.

Two numbers less than one ring apart never share a slot (`mod_inj_of_window`). That is the whole
reason a masked ring may be read without a search.

Counters that do wrap are compared by the sign of their difference. Unsigned words wrap by
definition, but a difference of two *signed* words that has no place in the word is undefined, and
`signedDiff` has no answer there. `signedDiff_eq_none_iff` says when: the two counters lie astride
`2 ^ 63`, which is not where the unsigned ones wrap.

The last sections are the other place where words and numbers part: a sum kept in a signed word is
the exact sum as long as that fits (`toInt_ofInt_iff`), and a product kept in an unsigned one is
compared rightly as long as both sides wrapped equally often (`ofInt_le_ofInt_iff`).
-/

set_option autoImplicit false

namespace Tickerplant.Lib

/-! ## Rounding up to a power of two -/

/-- `while (v < n) v <<= 1`. The fuel is a bound on the number of doublings. -/
def doubleUntil : ℕ → ℕ → ℕ → ℕ
  | 0, _, v => v
  | fuel + 1, n, v => if v < n then doubleUntil fuel n (2 * v) else v

/-- The loop started at one. `n` doublings are enough, see `le_roundUpPow2`. -/
def roundUpPow2 (n : ℕ) : ℕ := doubleUntil n n 1

/-- The loop never leaves the powers of two. -/
theorem doubleUntil_pow (fuel n : ℕ) : ∀ j, ∃ k, doubleUntil fuel n (2 ^ j) = 2 ^ k := by
  induction fuel with
  | zero => intro j; exact ⟨j, rfl⟩
  | succ fuel ih =>
    intro j
    rw [doubleUntil]
    split
    · rw [← Nat.pow_succ']; exact ih (j + 1)
    · exact ⟨j, rfl⟩

/-- What the loop answers is a power of two. -/
theorem roundUpPow2_pow (n : ℕ) : ∃ k, roundUpPow2 n = 2 ^ k := doubleUntil_pow n n 0

/-- With enough doublings the loop reaches what was asked for. -/
theorem le_doubleUntil (fuel n : ℕ) : ∀ v, n ≤ 2 ^ fuel * v → n ≤ doubleUntil fuel n v := by
  induction fuel with
  | zero => intro v h; simpa [doubleUntil] using h
  | succ fuel ih =>
    intro v h
    rw [doubleUntil]
    split
    · refine ih (2 * v) ?_
      rw [Nat.pow_succ, Nat.mul_assoc] at h
      exact h
    · omega

/-- It never goes down. -/
theorem self_le_doubleUntil (fuel n : ℕ) : ∀ v, v ≤ doubleUntil fuel n v := by
  induction fuel with
  | zero => exact fun v => Nat.le_refl v
  | succ fuel ih =>
    intro v
    rw [doubleUntil]
    split
    · have := ih (2 * v)
      omega
    · exact Nat.le_refl v

/-- There is room for what was asked for. -/
theorem le_roundUpPow2 (n : ℕ) : n ≤ roundUpPow2 n :=
  le_doubleUntil n n 1 (by rw [Nat.mul_one]; exact Nat.le_of_lt n.lt_two_pow_self)

/-- It stops at the first power that will do: a double of a number below `n` does not pass `2 ^ k`.
-/
theorem doubleUntil_le {n k : ℕ} (fuel : ℕ) (hn : n ≤ 2 ^ k) :
    ∀ j, j ≤ k → doubleUntil fuel n (2 ^ j) ≤ 2 ^ k := by
  induction fuel with
  | zero => exact fun j hj => Nat.pow_le_pow_right (by decide) hj
  | succ fuel ih =>
    intro j hj
    rw [doubleUntil]
    split
    · rename_i hlt
      rw [← Nat.pow_succ']
      exact ih (j + 1) ((Nat.pow_lt_pow_iff_right (by decide)).mp (Nat.lt_of_lt_of_le hlt hn))
    · exact Nat.pow_le_pow_right (by decide) hj

/-- It is the least power of two that will do. -/
theorem roundUpPow2_le {n k : ℕ} (h : n ≤ 2 ^ k) : roundUpPow2 n ≤ 2 ^ k :=
  doubleUntil_le n h 0 (Nat.zero_le k)

/-- Rounding twice changes nothing. -/
theorem roundUpPow2_roundUpPow2 (n : ℕ) : roundUpPow2 (roundUpPow2 n) = roundUpPow2 n := by
  obtain ⟨k, hk⟩ := roundUpPow2_pow n
  rw [hk]
  exact Nat.le_antisymm (roundUpPow2_le (Nat.le_refl _)) (le_roundUpPow2 _)

/-- There is at least one slot. -/
theorem roundUpPow2_pos (n : ℕ) : 0 < roundUpPow2 n := by
  obtain ⟨k, hk⟩ := roundUpPow2_pow n
  rw [hk]
  exact Nat.two_pow_pos k

/-! ## Masking -/

/-- `x & (size - 1)`, as an index. -/
def maskIndex (size : ℕ) (x : UInt64) : ℕ := (x &&& UInt64.ofNat (size - 1)).toNat

/-- **A mask is a remainder.** No bound on `k` is needed: a mask wider than the word keeps every
bit, and so does the remainder by more than `2 ^ 64`. -/
theorem maskIndex_eq_mod {size : ℕ} {k : ℕ} (hs : size = 2 ^ k) (x : UInt64) :
    maskIndex size x = x.toNat % size := by
  subst hs
  unfold maskIndex
  rw [UInt64.toNat_and, UInt64.toNat_ofNat']
  by_cases hk : k ≤ 64
  · have hlt : 2 ^ k - 1 < 2 ^ 64 := by
      have := Nat.pow_le_pow_right (show 0 < 2 by decide) hk
      have := Nat.two_pow_pos k
      omega
    rw [Nat.mod_eq_of_lt hlt, Nat.and_two_pow_sub_one_eq_mod]
  · have hx : x.toNat < 2 ^ 64 := x.toNat_lt
    have hle : 2 ^ 64 ≤ 2 ^ k := Nat.pow_le_pow_right (by decide) (by omega)
    have hfull : (2 ^ k - 1) % 2 ^ 64 = 2 ^ 64 - 1 := by
      obtain ⟨d, rfl⟩ : ∃ d, k = 64 + d := ⟨k - 64, by omega⟩
      have hd := Nat.two_pow_pos d
      obtain ⟨e, he⟩ : ∃ e, 2 ^ d = e + 1 := ⟨2 ^ d - 1, by omega⟩
      rw [Nat.pow_add, he, Nat.mul_add, Nat.mul_one, Nat.add_sub_assoc (by decide),
        Nat.mul_add_mod, Nat.mod_eq_of_lt (by decide)]
    rw [hfull, Nat.and_two_pow_sub_one_eq_mod, Nat.mod_eq_of_lt hx,
      Nat.mod_eq_of_lt (Nat.lt_of_lt_of_le hx hle)]

/-- Two members of one window of `size` numbers with the same remainder are one number. -/
theorem mod_inj_of_window {lo size x y : ℕ} (hx : lo ≤ x) (hx' : x < lo + size) (hy : lo ≤ y)
    (hy' : y < lo + size) (h : x % size = y % size) : x = y := by
  have hsize : 0 < size := by omega
  have ex := Nat.div_add_mod x size
  have ey := Nat.div_add_mod y size
  rw [h] at ex
  have hq : x / size = y / size := by
    rcases Nat.lt_trichotomy (x / size) (y / size) with hlt | heq | hgt
    · have := Nat.mul_le_mul_left size (Nat.succ_le_of_lt hlt)
      rw [Nat.mul_succ] at this
      omega
    · exact heq
    · have := Nat.mul_le_mul_left size (Nat.succ_le_of_lt hgt)
      rw [Nat.mul_succ] at this
      omega
  rw [hq] at ex
  omega

/-! ## `UInt64` below the wrap -/

/-- A counter that has not come to its end goes up by one. -/
theorem toNat_succ {x : UInt64} (h : x.toNat + 1 < 2 ^ 64) : (x + 1).toNat = x.toNat + 1 := by
  rw [UInt64.toNat_add, UInt64.toNat_one, Nat.mod_eq_of_lt h]

/-- And by more, while there is room. -/
theorem toNat_add_ofNat {x : UInt64} {n : ℕ} (h : x.toNat + n < 2 ^ 64) :
    (x + UInt64.ofNat n).toNat = x.toNat + n := by
  rw [UInt64.toNat_add, UInt64.toNat_ofNat', Nat.mod_eq_of_lt (a := n) (by omega),
    Nat.mod_eq_of_lt h]

/-- A difference that does not go below zero. -/
theorem toNat_sub_of_le {x y : UInt64} (h : y.toNat ≤ x.toNat) :
    (x - y).toNat = x.toNat - y.toNat := by
  have hx := x.toNat_lt
  rw [UInt64.toNat_sub]
  omega

theorem toNat_sub_ofNat {x : UInt64} {n : ℕ} (h : n ≤ x.toNat) :
    (x - UInt64.ofNat n).toNat = x.toNat - n := by
  have hx := x.toNat_lt
  rw [toNat_sub_of_le] <;> rw [UInt64.toNat_ofNat', Nat.mod_eq_of_lt (by omega)]
  exact h

/-! ## The signed difference of two counters -/

/-- `a - b` of two counters read as signed words. There is no answer where the exact difference
has no place in the word: the language leaves that subtraction undefined, so a program that
reaches it has no number to go on with, wrapped or otherwise. -/
def signedDiff (a b : UInt64) : Option Int64 :=
  if -2 ^ 63 ≤ a.toInt64.toInt - b.toInt64.toInt ∧ a.toInt64.toInt - b.toInt64.toInt < 2 ^ 63 then
    some (a.toInt64 - b.toInt64)
  else none

/-- The counters lie on the two sides of `2 ^ 63`, where a word read as signed jumps from its
largest value to its smallest, and nearer to each other across it than across the wrap. -/
def Astride (a b : UInt64) : Prop :=
  a.toNat < 2 ^ 63 ∧ 2 ^ 63 ≤ b.toNat ∧ b.toNat ≤ a.toNat + 2 ^ 63 ∨
    b.toNat < 2 ^ 63 ∧ 2 ^ 63 ≤ a.toNat ∧ a.toNat < b.toNat + 2 ^ 63

instance (a b : UInt64) : Decidable (Astride a b) := inferInstanceAs (Decidable (_ ∨ _))

/-- A word read as signed is itself, or a whole turn less. -/
theorem toInt_toInt64_cases (x : UInt64) :
    x.toNat < 2 ^ 63 ∧ x.toInt64.toInt = x.toNat ∨
      2 ^ 63 ≤ x.toNat ∧ x.toInt64.toInt = x.toNat - 2 ^ 64 := by
  have hlt := x.toNat_lt
  have hsize : Int64.size = 2 ^ 64 := rfl
  have hof : x.toInt64 = Int64.ofNat x.toNat := by
    rw [← UInt64.toInt64_ofNat', UInt64.ofNat_toNat]
  rw [hof]
  simp only [Int64.toInt_ofNat', hsize, Int.bmod]
  split <;> omega

/-- **When the subtraction has no answer.** Exactly when the counters are astride `2 ^ 63`. -/
theorem signedDiff_eq_none_iff {a b : UInt64} : signedDiff a b = none ↔ Astride a b := by
  have ha := a.toNat_lt
  have hb := b.toNat_lt
  unfold signedDiff Astride
  rcases toInt_toInt64_cases a with ⟨hlow, hia⟩ | ⟨hhigh, hia⟩ <;>
    rcases toInt_toInt64_cases b with ⟨hlow', hib⟩ | ⟨hhigh', hib⟩ <;>
    rw [hia, hib] <;> split <;> simp only [reduceCtorEq, false_iff, true_iff] <;> omega

/-- Where there is an answer it is the wrapped difference. -/
theorem signedDiff_eq_some {a b : UInt64} {d : Int64} (h : signedDiff a b = some d) :
    a.toInt64 - b.toInt64 = d := by
  unfold signedDiff at h
  split at h
  · exact Option.some.inj h
  · cases h

/-- Read as signed numbers, two counters differ by nothing exactly when they are equal. -/
theorem signedDiff_eq_zero {a b : UInt64} : signedDiff a b = some 0 ↔ a = b := by
  constructor
  · intro h
    have hzero := signedDiff_eq_some h
    rw [Int64.sub_eq_iff_eq_add, Int64.zero_add] at hzero
    simpa using congrArg Int64.toUInt64 hzero
  · rintro rfl
    simp [signedDiff]

/-- A counter at most half a turn behind another differs from it by less than nothing, where the
difference has an answer. -/
theorem signedDiff_neg {a : UInt64} {n : ℕ} {d : Int64} (hpos : 0 < n) (hn : n ≤ 2 ^ 63)
    (h : signedDiff a (a + UInt64.ofNat n) = some d) : d < 0 := by
  have hdiff : a.toInt64 - (a + UInt64.ofNat n).toInt64 = -Int64.ofNat n := by
    rw [UInt64.toInt64_add, UInt64.toInt64_ofNat', Int64.sub_eq_iff_eq_add, Int64.add_comm,
      Int64.add_assoc, Int64.add_right_neg, Int64.add_zero]
  rw [← signedDiff_eq_some h, hdiff, Int64.lt_iff_toInt_lt, Int64.toInt_neg_ofNat_of_le hn,
    Int64.toInt_zero]
  omega

/-! ## `Int64` within its range -/

/-- A natural number fits a signed word below half the range. -/
theorem toInt_ofNat_iff {m : ℕ} : (Int64.ofNat m).toInt = m ↔ m < 2 ^ 63 := by
  have hsize : Int64.size = 2 ^ 64 := rfl
  simp only [Int64.toInt_ofNat', hsize, Int.bmod]
  split <;> omega

/-- An exact number that fits is kept. -/
theorem toInt_ofInt_of_mem {i : ℤ} (hlo : -2 ^ 63 ≤ i) (hhi : i < 2 ^ 63) :
    (Int64.ofInt i).toInt = i := by
  have hsize : Int64.size = 2 ^ 64 := rfl
  simp only [Int64.toInt_ofInt, hsize, Int.bmod]
  split <;> omega

/-- And no other is. -/
theorem toInt_ofInt_iff {i : ℤ} :
    (Int64.ofInt i).toInt = i ↔ -2 ^ 63 ≤ i ∧ i < 2 ^ 63 := by
  constructor
  · intro h
    have hlo := (Int64.ofInt i).le_toInt
    have hhi := (Int64.ofInt i).toInt_lt
    omega
  · rintro ⟨hlo, hhi⟩
    exact toInt_ofInt_of_mem hlo hhi

/-- A wrapped number is whole turns away from the exact one. -/
theorem toInt_ofInt_turns (i : ℤ) : ∃ turns : ℤ, (Int64.ofInt i).toInt = i + turns * 2 ^ 64 := by
  have hsize : Int64.size = 2 ^ 64 := rfl
  simp only [Int64.toInt_ofInt, hsize, Int.bmod]
  split
  · exact ⟨-(i / 2 ^ 64), by omega⟩
  · exact ⟨-(i / 2 ^ 64) - 1, by omega⟩

/-- Every number but the least has its negative in the word. -/
theorem toInt_neg_of_ne {x : Int64} (h : x.toInt ≠ -2 ^ 63) : (-x).toInt = -x.toInt := by
  have hlo := x.le_toInt
  have hhi := x.toInt_lt
  rw [Int64.toInt_neg, Int.bmod]
  split <;> omega

/-- A number that is not negative reads the same unsigned. -/
theorem toNat_toUInt64_of_nonneg {x : Int64} (h : 0 ≤ x.toInt) :
    (x.toUInt64.toNat : ℤ) = x.toInt := by
  rw [Int64.toNat_toUInt64_of_le (Int64.le_iff_toInt_le.mpr h), Int64.toNatClampNeg,
    Int.toNat_of_nonneg h]

/-! ## Unsigned results of exact ones -/

/-- An exact number in an unsigned word is its remainder. -/
theorem toNat_ofInt (i : ℤ) : ((UInt64.ofInt i).toNat : ℤ) = i % 2 ^ 64 := by
  rw [UInt64.ofInt, UInt64.toNat_ofNat']
  omega

/-- A word is the remainder of itself. -/
theorem ofInt_toNat (x : UInt64) : UInt64.ofInt x.toNat = x := by
  have hof := toNat_ofInt x.toNat
  have hlt := x.toNat_lt
  exact UInt64.toNat_inj.mp (by omega)

/-- Remainders may be taken before a product or after it. -/
theorem ofInt_mul_toUInt64 (i : ℤ) (q : UInt32) :
    UInt64.ofInt i * q.toUInt64 = UInt64.ofInt (i * q.toNat) := by
  rw [UInt64.ofInt_mul, ← UInt32.toNat_toUInt64, ofInt_toNat]

/-- A wrapped number that is small enough was small enough exactly if it did not wrap. -/
theorem ofInt_le_iff {i : ℤ} {x : UInt64} (hi : 0 ≤ i) (h : UInt64.ofInt i ≤ x) :
    i ≤ x.toNat ↔ i < 2 ^ 64 := by
  have hle := UInt64.le_iff_toNat_le.mp h
  have hof := toNat_ofInt i
  have hx := x.toNat_lt
  omega

/-- Two wrapped numbers in order were in order exactly if the smaller one wrapped no more often. -/
theorem ofInt_le_ofInt_iff {i j : ℤ} (h : UInt64.ofInt i ≤ UInt64.ofInt j) :
    i ≤ j ↔ i / 2 ^ 64 ≤ j / 2 ^ 64 := by
  have hle := UInt64.le_iff_toNat_le.mp h
  have hi := toNat_ofInt i
  have hj := toNat_ofInt j
  omega

/-- A number below half the range reads the same signed. -/
theorem toInt_toInt64 {x : UInt64} (h : x.toNat < 2 ^ 63) : x.toInt64.toInt = x.toNat := by
  rcases toInt_toInt64_cases x with ⟨-, hx⟩ | ⟨hhigh, -⟩
  · exact hx
  · exact absurd h (Nat.not_lt.mpr hhigh)

end Tickerplant.Lib
