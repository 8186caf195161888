import Tickerplant.Lib.Digits
import Tickerplant.Ouch.Wire

/-!
# Order tokens (`include/tick/ouch.hpp`)

A token is a prefix followed by a counter in base thirty six, right justified over whatever width
the prefix left. The digits ascend in ASCII, so tokens of one generator stand in the order they
were made in, for as long as the counter fits the width; the first one that does not is counted,
and `exhausted` says so from then on (`tokens_never_reused`).

A token that is used twice is not refused by the exchange. It is ignored, and the order vanishes
without an error anywhere, so that the generator must say when it starts to repeat itself. It goes
on making tokens all the same, with the counter reduced to the width.

The width may be fourteen digits, more than a counter of 64 bits can fill. `pow36` answers zero
there, which is read as no bound, and rightly: `36 ^ 13` is already out of reach of the counter.

Order is the stronger fact, and that no token comes twice follows from it. It is proved of two
numbers that fit the width (`render_lt`), where padding with zeros makes comparing characters
comparing numbers, and carried over a run by the counter, which only rises.
-/

set_option autoImplicit false

namespace Tickerplant
namespace Ouch

open Lib

/-- The digits, in the order of ASCII. -/
def kDigits36 : List UInt8 := "0123456789ABCDEFGHIJKLMNOPQRSTUVWXYZ".toList.map Char.toUInt8

/-- `kDigits36[d]`. -/
def digit36 (d : ℕ) : UInt8 := kDigits36.getD d 0

/-- The loop of `pow36`, with `n` factors to go. -/
def pow36Loop : ℕ → UInt64 → UInt64
  | 0, v => v
  | n + 1, v => if v > (~~~(0 : UInt64)) / 36 then 0 else pow36Loop n (v * 36)

/-- Thirty six to the power `d`, or zero when that does not fit. -/
def pow36 (d : ℕ) : UInt64 := pow36Loop d 1

/-- `for (i = kTokenLen; i > prefix_len_; --i)`: `n` places after the first `start` are left to
fill, the last one first. -/
def renderLoop (start : ℕ) : ℕ → UInt64 → List UInt8 → List UInt8
  | 0, _, b => b
  | n + 1, v, b => renderLoop start n (v / 36) (b.set (start + n) (digit36 (v % 36).toNat))

/-- Places are written over, none is added. -/
theorem length_renderLoop (start n : ℕ) (v : UInt64) (b : List UInt8) :
    (renderLoop start n v b).length = b.length := by
  induction n generalizing v b with
  | zero => rfl
  | succ n ih => rw [renderLoop, ih, List.length_set]

/-- What `TokenGenerator` keeps. The characters of the prefix are those it was cut to. -/
structure TokenGenerator where
  prefixChars : List UInt8
  /-- The next number. -/
  counter : UInt64
  /-- Tokens made past the width. -/
  overflowed : UInt64 := 0
  /-- A prefix that is too long was cut, so that `digits` is never negative. -/
  short : prefixChars.length ≤ kTokenLen

namespace TokenGenerator

/-- `TokenGenerator(prefix, first)`. -/
def make (chars : List UInt8) (first : UInt64) : TokenGenerator where
  prefixChars := chars.take kTokenLen
  counter := first
  short := by rw [List.length_take]; exact Nat.min_le_left _ _

/-- How much of the token is taken. -/
def prefixLen (g : TokenGenerator) : ℕ := g.prefixChars.length

/-- How much is left for the counter. -/
def digits (g : TokenGenerator) : ℕ := kTokenLen - g.prefixLen

/-- Zero means that the width is never exhausted. -/
def capacity (g : TokenGenerator) : UInt64 := pow36 g.digits

/-- A token was made that may have been made before. -/
def exhausted (g : TokenGenerator) : Bool := g.overflowed != 0

/-- The counter is past the width the prefix left. -/
def pastWidth (g : TokenGenerator) : Bool := g.capacity != 0 && decide (g.capacity ≤ g.counter)

/-- The prefix, and `v` behind it. -/
def render (g : TokenGenerator) (v : UInt64) : Token where
  chars := renderLoop g.prefixLen g.digits v (padTo kTokenLen g.prefixChars)
  length_chars := by rw [length_renderLoop, length_padTo]

/-- `next()`: the token, and the generator with its counter one further, whatever the token was. -/
def next (g : TokenGenerator) : Token × TokenGenerator :=
  (g.render (if g.pastWidth then g.counter % g.capacity else g.counter),
    { g with
      counter := g.counter + 1
      overflowed := if g.pastWidth then g.overflowed + 1 else g.overflowed })

/-- `n` calls of `next`: each token, and what `exhausted` answers after it. -/
def tokens (g : TokenGenerator) : ℕ → List (Token × Bool)
  | 0 => []
  | n + 1 => (g.next.1, g.next.2.exhausted) :: g.next.2.tokens n

/-! ## What is rendered -/

section Rendered

theorem pow36Loop_toNat (n k : ℕ) {v : UInt64} (hv : v.toNat = 36 ^ k) :
    (pow36Loop n v).toNat = if 36 ^ (k + n) < 2 ^ 64 then 36 ^ (k + n) else 0 := by
  induction n generalizing k v with
  | zero =>
    rw [pow36Loop, Nat.add_zero, hv, if_pos (hv ▸ v.toNat_lt)]
  | succ n ih =>
    have hlimit : ((~~~(0 : UInt64)) / 36).toNat = (2 ^ 64 - 1) / 36 := rfl
    have hsucc : 36 ^ (k + 1) = 36 ^ k * 36 := Nat.pow_succ _ _
    rw [pow36Loop]
    split
    -- past the limit one more factor would not fit, and then the whole power does not
    case isTrue hover =>
      have hover : (2 ^ 64 - 1) / 36 < v.toNat := hlimit ▸ UInt64.lt_iff_toNat_lt.mp hover
      have hmono : 36 ^ (k + 1) ≤ 36 ^ (k + (n + 1)) := Nat.pow_le_pow_right (by decide) (by omega)
      rw [if_neg (by omega), UInt64.toNat_zero]
    case isFalse hfits =>
      have hfits : v.toNat ≤ (2 ^ 64 - 1) / 36 :=
        Nat.not_lt.mp fun h => hfits (UInt64.lt_iff_toNat_lt.mpr (hlimit ▸ h))
      have hprod : (v * 36).toNat = 36 ^ (k + 1) := by
        rw [UInt64.toNat_mul, show (36 : UInt64).toNat = 36 from rfl, Nat.mod_eq_of_lt (by omega),
          hv, hsucc]
      rw [ih (k + 1) hprod, Nat.add_right_comm, Nat.add_assoc]

/-- **What `pow36` answers**: the power if it fits 64 bits, zero otherwise. -/
theorem pow36_toNat (d : ℕ) : (pow36 d).toNat = if 36 ^ d < 2 ^ 64 then 36 ^ d else 0 := by
  have h := pow36Loop_toNat d 0 (v := 1) rfl
  rwa [Nat.zero_add] at h

/-- A counter that is not past the width has digits enough, zero being no bound. -/
theorem counter_lt {g : TokenGenerator} (h : g.pastWidth = false) :
    g.counter.toNat < 36 ^ g.digits := by
  have hpow := pow36_toNat g.digits
  have hcounter := g.counter.toNat_lt
  rw [pastWidth, Bool.and_eq_false_iff, bne_eq_false_iff_eq, decide_eq_false_iff_not] at h
  by_contra hle
  rw [Nat.not_lt] at hle
  have hsmall : 36 ^ g.digits < 2 ^ 64 := Nat.lt_of_le_of_lt hle hcounter
  rw [if_pos hsmall] at hpow
  rcases h with hzero | hbelow
  · have hpos : 0 < 36 ^ g.digits := Nat.pow_pos (by decide)
    have hzero : (pow36 g.digits).toNat = 0 := congrArg UInt64.toNat hzero
    omega
  · exact hbelow (UInt64.le_iff_toNat_le.mpr (hpow.trans_le hle))

theorem renderLoop_eq (start n : ℕ) (v : UInt64) {b : List UInt8} (hb : b.length = start + n) :
    renderLoop start n v b = b.take start ++ (Lib.digits 36 n v.toNat).map digit36 := by
  -- the loop fills from the back, so that what is behind the places still to fill must be spoken
  -- of too
  suffices h : ∀ (n : ℕ) (v : UInt64) (b : List UInt8), start + n ≤ b.length →
      renderLoop start n v b =
        b.take start ++ (Lib.digits 36 n v.toNat).map digit36 ++ b.drop (start + n) by
    rw [h n v b (by omega), List.drop_eq_nil_of_le (by omega), List.append_nil]
  intro n
  induction n with
  | zero =>
    intro v b _
    rw [renderLoop, Lib.digits, List.map_nil, List.append_nil, Nat.add_zero, List.take_append_drop]
  | succ n ih =>
    intro v b hlen
    have hdrop : (b.set (start + n) (digit36 (v % 36).toNat)).drop (start + n) =
        digit36 (v % 36).toNat :: b.drop (start + (n + 1)) := by
      rw [List.drop_set, if_neg (Nat.lt_irrefl _), Nat.sub_self,
        List.drop_eq_getElem_cons (by omega), List.set_cons_zero, Nat.add_assoc]
    rw [renderLoop, ih _ _ (by rw [List.length_set]; omega), hdrop,
      List.take_set_of_le (by omega), digits_snoc, List.map_append, UInt64.toNat_div,
      UInt64.toNat_mod, show (36 : UInt64).toNat = 36 from rfl, List.map_singleton,
      List.append_assoc, List.append_assoc, List.append_assoc, List.singleton_append]

/-- **A token**: the prefix, then the last digits of the number. -/
theorem chars_render (g : TokenGenerator) (v : UInt64) :
    (g.render v).chars = g.prefixChars ++ (Lib.digits 36 g.digits v.toNat).map digit36 := by
  have hshort := g.short
  have hlen : (padTo kTokenLen g.prefixChars).length = g.prefixLen + g.digits := by
    rw [length_padTo, digits, prefixLen]
    omega
  have htake : (padTo kTokenLen g.prefixChars).take g.prefixLen = g.prefixChars := by
    rw [padTo, prefixLen, List.take_of_length_le hshort, List.take_left]
  show renderLoop _ _ _ _ = _
  rw [renderLoop_eq _ _ _ hlen, htake]

/-- The characters ascend with the digits. -/
theorem digit36_lt (i j : ℕ) (hij : i < j) (hj : j < 36) : digit36 i < digit36 j := by
  have hascending : kDigits36.Pairwise (· < ·) := by decide
  have hlen : kDigits36.length = 36 := by decide
  rw [digit36, digit36, ← List.getElem_eq_getD (h := by omega),
    ← List.getElem_eq_getD (h := by omega)]
  exact List.pairwise_iff_getElem.mp hascending i j (by omega) (by omega) hij

/-- **Numbers that fit are rendered in their order.** -/
theorem render_lt (g : TokenGenerator) {v w : UInt64} (hlt : v.toNat < w.toNat)
    (hw : w.toNat < 36 ^ g.digits) :
    List.Lex (· < ·) (g.render v).chars (g.render w).chars := by
  rw [chars_render, chars_render]
  refine lex_append_left _ (lex_map_digits (by decide) digit36_lt ?_)
  rw [lex_digits_iff (by decide), Nat.mod_eq_of_lt (hlt.trans hw), Nat.mod_eq_of_lt hw]
  exact hlt

end Rendered

/-! ## Over a run of calls -/

/-- `n` more calls do not wrap the counter, and no more calls were past the width than were
made. -/
structure Unwrapped (g : TokenGenerator) (n : ℕ) : Prop where
  /-- The counter does not come round. -/
  fits : g.counter.toNat + n < 2 ^ 64
  /-- Nor does the count of what was past the width. -/
  counted : g.overflowed.toNat ≤ g.counter.toNat

section Run

variable {g : TokenGenerator} {n : ℕ}

/-- One number further. -/
theorem counter_next (h : g.Unwrapped (n + 1)) :
    g.next.2.counter.toNat = g.counter.toNat + 1 := by
  have hfits := h.fits
  show (g.counter + 1).toNat = _
  rw [UInt64.toNat_add, show (1 : UInt64).toNat = 1 from rfl, Nat.mod_eq_of_lt (by omega)]

/-- One more past the width, or none. -/
theorem overflowed_next (h : g.Unwrapped (n + 1)) :
    g.next.2.overflowed.toNat = g.overflowed.toNat + (if g.pastWidth then 1 else 0) := by
  have hfits := h.fits
  have hcounted := h.counted
  show (if g.pastWidth then g.overflowed + 1 else g.overflowed).toNat = _
  split
  · rw [UInt64.toNat_add, show (1 : UInt64).toNat = 1 from rfl, Nat.mod_eq_of_lt (by omega)]
  · rfl

/-- A call uses up one of the calls. -/
theorem Unwrapped.next (h : g.Unwrapped (n + 1)) : g.next.2.Unwrapped n := by
  have hfits := h.fits
  have hcounted := h.counted
  constructor
  · rw [counter_next h]
    omega
  · rw [overflowed_next h, counter_next h]
    split <;> omega

/-- Not exhausted means that nothing was past the width. -/
theorem exhausted_eq_false_iff : g.exhausted = false ↔ g.overflowed.toNat = 0 := by
  rw [exhausted, bne_eq_false_iff_eq, ← UInt64.toNat_inj, UInt64.toNat_zero]

/-- **One call**: a generator not exhausted after it was not exhausted before, and rendered the
counter as it was. -/
theorem next_unexhausted (h : g.Unwrapped (n + 1)) (hnot : g.next.2.exhausted = false) :
    g.exhausted = false ∧ g.counter.toNat < 36 ^ g.digits ∧ g.next.1 = g.render g.counter := by
  rw [exhausted_eq_false_iff, overflowed_next h] at hnot
  -- a call past the width would have been counted
  have hwidth : g.pastWidth = false := by
    by_contra hpast
    rw [Bool.not_eq_false] at hpast
    rw [if_pos hpast] at hnot
    omega
  refine ⟨exhausted_eq_false_iff.mpr (by omega), counter_lt hwidth, ?_⟩
  rw [next, hwidth, if_neg Bool.false_ne_true]

/-- **Every call of a run** after which the generator is not exhausted: it never was, and the
token is a number not below the counter the run began with. -/
theorem tokens_unexhausted {call : Token × Bool} (h : g.Unwrapped n) (hcall : call ∈ g.tokens n)
    (hnot : call.2 = false) :
    g.exhausted = false ∧ ∃ v : UInt64, g.counter.toNat ≤ v.toNat ∧
      v.toNat < 36 ^ g.digits ∧ call.1 = g.render v := by
  induction n generalizing g with
  | zero => cases hcall
  | succ n ih =>
    rcases List.mem_cons.mp hcall with rfl | hlater
    · obtain ⟨hexhausted, hlt, hrender⟩ := next_unexhausted h hnot
      exact ⟨hexhausted, g.counter, Nat.le_refl _, hlt, hrender⟩
    · obtain ⟨hexhausted, v, hge, hlt, hrender⟩ := ih h.next hlater
      have hcounter := counter_next h
      exact ⟨(next_unexhausted h hexhausted).1, v, by omega, hlt, hrender⟩

/-- **The order of a run**: before a call that leaves the generator unexhausted every call did,
with a smaller token. -/
theorem tokens_ascend (h : g.Unwrapped n) :
    (g.tokens n).Pairwise fun earlier later =>
      later.2 = false → List.Lex (· < ·) earlier.1.chars later.1.chars := by
  induction n generalizing g with
  | zero => exact .nil
  | succ n ih =>
    refine .cons (fun later hlater hnot => ?_) (ih h.next)
    obtain ⟨hexhausted, v, hge, hlt, hrender⟩ := tokens_unexhausted h.next hlater hnot
    obtain ⟨-, -, hfirst⟩ := next_unexhausted h hexhausted
    have hcounter := counter_next h
    show List.Lex (· < ·) g.next.1.chars later.1.chars
    rw [hfirst, hrender]
    exact render_lt g (by omega) hlt

end Run

/-- A text is not before itself. -/
theorem lex_irrefl (s : List UInt8) : ¬ List.Lex (· < ·) s s := by
  induction s with
  | nil => nofun
  | cons x s ih =>
    rw [List.cons_lex_cons_iff]
    rintro (hlt | ⟨-, hlex⟩)
    · exact UInt8.lt_irrefl x hlt
    · exact ih hlex

/-- **Tokens are never silently reused.** Whatever the prefix and the first counter, as long as
the counter does not wrap: the tokens after which the generator is not exhausted ascend and are
distinct, and a token made twice leaves it exhausted. -/
theorem tokens_never_reused (chars : List UInt8) (first : UInt64) (n : ℕ)
    (h : first.toNat + n < 2 ^ 64) :
    ((((make chars first).tokens n).filter fun call => !call.2).map fun call =>
        call.1.chars).Pairwise (List.Lex (· < ·)) ∧
      ((((make chars first).tokens n).filter fun call => !call.2).map Prod.fst).Nodup ∧
      ((make chars first).tokens n).Pairwise fun earlier later =>
        earlier.1 = later.1 → later.2 = true := by
  -- both the order and that nothing repeats are read off the order of the run
  have hascend := tokens_ascend (g := make chars first) ⟨h, Nat.zero_le _⟩
  refine ⟨?_, ?_, ?_⟩
  · rw [List.pairwise_map, List.pairwise_filter]
    refine hascend.imp fun hlex _ hlater => hlex ?_
    rwa [Bool.not_eq_true'] at hlater
  · rw [List.Nodup, List.pairwise_map, List.pairwise_filter]
    refine hascend.imp fun hlex _ hlater heq => ?_
    rw [Bool.not_eq_true'] at hlater
    exact lex_irrefl _ (congrArg Alpha.chars heq ▸ hlex hlater)
  · refine hascend.imp fun hlex heq => ?_
    by_contra hnot
    rw [Bool.not_eq_true] at hnot
    exact lex_irrefl _ (congrArg Alpha.chars heq ▸ hlex hnot)

/-- Thirteen characters of prefix leave one digit, and the second of two calls from thirty five on
is past it. -/
theorem tokens_never_reused_oneDigit :
    let made := (make ("PREFIX1234567".toList.map Char.toUInt8) 35).tokens 2
    made.map Prod.snd = [false, true] ∧
      ((made.filter fun call => !call.2).map fun call => call.1.chars).Pairwise
        (List.Lex (· < ·)) ∧
      ((made.filter fun call => !call.2).map Prod.fst).Nodup ∧
      made.Pairwise fun earlier later => earlier.1 = later.1 → later.2 = true :=
  ⟨by decide, tokens_never_reused _ 35 2 (by decide)⟩

end TokenGenerator
end Ouch
end Tickerplant
