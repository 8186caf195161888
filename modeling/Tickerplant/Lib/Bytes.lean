import Mathlib.Data.List.Basic
import Mathlib.Tactic.Ring

/-!
# Big-endian fields in a buffer, and reads that may miss it

Integers are written most significant byte first (`be`) and read back from a buffer of known length
(`load`). A read or a write that does not lie wholly inside its buffer is a fault, and a fault is
not the same thing as an input being rejected: a program that rejects a buffer returns a value, a
program that reads outside it has no result at all. So loads and stores run in `Checked`, and
"never reads outside the buffer" is the theorem that a function's result is always an `ok`.

The conversions are inverse to one another only within a width: `be w` keeps the `w` lowest bytes
of what it is given (`be_mod`), and `ofBe` of `w` bytes is below `256 ^ w` (`ofBe_lt`). Both
directions are wanted, since a codec is asked to give back the value it was given (`ofBe_be_of_lt`)
and a relay the bytes it was given (`be_ofBe`).
-/

set_option autoImplicit false

namespace Tickerplant.Lib

/-- An access outside the buffer. -/
inductive Fault where
  | outOfRange
  deriving DecidableEq, Repr

/-- A computation that reads and writes buffers. -/
abbrev Checked (α : Type) := Except Fault α

/-- The `w` lowest bytes of `v`, most significant first. -/
def be : ℕ → ℕ → List UInt8
  | 0, _ => []
  | w + 1, v => UInt8.ofNat (v / 256 ^ w) :: be w v

/-- The number whose bytes these are, most significant first. -/
def ofBe (bytes : List UInt8) : ℕ := bytes.foldl (fun acc b => acc * 256 + b.toNat) 0

/-- The field is as wide as it was asked to be, whatever the value. -/
@[simp] theorem length_be (w v : ℕ) : (be w v).length = w := by
  induction w with
  | zero => rfl
  | succ w ih => rw [be, List.length_cons, ih]

/-- Reading goes on from what has been read: the accumulator moves up by the width of the field.
This is the shape the induction needs. -/
theorem foldl_be (w v acc : ℕ) :
    (be w v).foldl (fun acc b => acc * 256 + b.toNat) acc = acc * 256 ^ w + v % 256 ^ w := by
  induction w generalizing acc with
  | zero => rw [be, List.foldl_nil, Nat.pow_zero, Nat.mod_one]; omega
  | succ w ih =>
    have hmod : v % (256 ^ w * 256) = v % 256 ^ w + 256 ^ w * (v / 256 ^ w % 256) := Nat.mod_mul
    rw [be, List.foldl_cons, ih, UInt8.toNat_ofNat', show 2 ^ 8 = 256 from rfl, pow_succ 256 w,
      hmod]
    ring

/-- Writing and reading back keeps what fits the width. -/
theorem ofBe_be (w v : ℕ) : ofBe (be w v) = v % 256 ^ w := by
  unfold ofBe
  rw [foldl_be, Nat.zero_mul, Nat.zero_add]

/-- Writing and reading back keeps a value that fits. -/
theorem ofBe_be_of_lt {w v : ℕ} (h : v < 256 ^ w) : ofBe (be w v) = v := by
  rw [ofBe_be, Nat.mod_eq_of_lt h]

/-- Only what fits the width is written. -/
theorem be_mod (w v : ℕ) : be w (v % 256 ^ w) = be w v := by
  induction w generalizing v with
  | zero => rfl
  | succ w ih =>
    have hhead : UInt8.ofNat (v % 256 ^ (w + 1) / 256 ^ w) = UInt8.ofNat (v / 256 ^ w) := by
      rw [pow_succ, Nat.mod_mul_right_div_self]
      exact UInt8.toNat_inj.mp (by rw [UInt8.toNat_ofNat', UInt8.toNat_ofNat', Nat.mod_mod])
    have htail : v % 256 ^ (w + 1) % 256 ^ w = v % 256 ^ w :=
      Nat.mod_mod_of_dvd _ (pow_dvd_pow _ (Nat.le_succ w))
    rw [be, be, hhead, ← ih (v % 256 ^ (w + 1)), htail, ih]

/-- The first byte counts most. -/
theorem ofBe_cons (b : UInt8) (bytes : List UInt8) :
    ofBe (b :: bytes) = b.toNat * 256 ^ bytes.length + ofBe bytes := by
  have hfold : ∀ (bytes : List UInt8) (acc : ℕ),
      bytes.foldl (fun acc b => acc * 256 + b.toNat) acc
        = acc * 256 ^ bytes.length + ofBe bytes := by
    intro bytes
    induction bytes with
    | nil => intro acc; rw [List.foldl_nil, List.length_nil, pow_zero, mul_one]; rfl
    | cons b bytes ih =>
      intro acc
      unfold ofBe
      rw [List.foldl_cons, ih, List.foldl_cons, ih, List.length_cons, pow_succ]
      ring
  show (b :: bytes).foldl _ 0 = _
  rw [List.foldl_cons, Nat.zero_mul, Nat.zero_add, hfold]

/-- So many bytes make no larger number. -/
theorem ofBe_lt (bytes : List UInt8) : ofBe bytes < 256 ^ bytes.length := by
  induction bytes with
  | nil => exact Nat.one_pos
  | cons b bytes ih =>
    have hb : b.toNat + 1 ≤ 256 := b.toNat_lt
    rw [ofBe_cons, List.length_cons, pow_succ]
    calc b.toNat * 256 ^ bytes.length + ofBe bytes
        < b.toNat * 256 ^ bytes.length + 256 ^ bytes.length := Nat.add_lt_add_left ih _
      _ = (b.toNat + 1) * 256 ^ bytes.length := by rw [Nat.succ_mul]
      _ ≤ 256 * 256 ^ bytes.length := Nat.mul_le_mul_right _ hb
      _ = 256 ^ bytes.length * 256 := Nat.mul_comm _ _

/-- **Reading and writing back** reproduces the bytes. -/
theorem be_ofBe (bytes : List UInt8) : be bytes.length (ofBe bytes) = bytes := by
  induction bytes with
  | nil => rfl
  | cons b bytes ih =>
    have hlt := ofBe_lt bytes
    have hdiv : ofBe (b :: bytes) / 256 ^ bytes.length = b.toNat := by
      rw [ofBe_cons, Nat.mul_comm, Nat.mul_add_div (Nat.pow_pos (by omega)), Nat.div_eq_of_lt hlt,
        Nat.add_zero]
    have hmod : ofBe (b :: bytes) % 256 ^ bytes.length = ofBe bytes := by
      rw [ofBe_cons, Nat.mul_add_mod_self_right, Nat.mod_eq_of_lt hlt]
    rw [List.length_cons, be, hdiv, UInt8.ofNat_toNat, ← be_mod, hmod, ih]

/-! ## Loads and stores -/

/-- The `n` bytes from `off` on. -/
def slice (buf : List UInt8) (off n : ℕ) : Checked (List UInt8) :=
  if off + n ≤ buf.length then .ok ((buf.drop off).take n) else .error .outOfRange

/-- `be_load` of `w` bytes at `off`. -/
def load (w : ℕ) (buf : List UInt8) (off : ℕ) : Checked ℕ := do
  let bytes ← slice buf off w
  return ofBe bytes

/-- Overwrite the bytes from `off` on. -/
def store (buf : List UInt8) (off : ℕ) (bytes : List UInt8) : Checked (List UInt8) :=
  if off + bytes.length ≤ buf.length then
    .ok (buf.take off ++ bytes ++ buf.drop (off + bytes.length))
  else .error .outOfRange

/-- A read inside the buffer succeeds. -/
theorem slice_eq {buf : List UInt8} {off n : ℕ} (h : off + n ≤ buf.length) :
    slice buf off n = .ok ((buf.drop off).take n) := if_pos h

/-- A load inside the buffer gives the number there. -/
theorem load_eq {w : ℕ} {buf : List UInt8} {off : ℕ} (h : off + w ≤ buf.length) :
    load w buf off = .ok (ofBe ((buf.drop off).take w)) := by
  unfold load
  rw [slice_eq h]
  rfl

/-- **A store inside the buffer** succeeds, keeps its length and what lies beyond, and leaves
what was before followed by what was stored. -/
theorem store_spec (buf : List UInt8) (off : ℕ) (bytes : List UInt8)
    (h : off + bytes.length ≤ buf.length) :
    ∃ buf', store buf off bytes = .ok buf' ∧ buf'.length = buf.length ∧
      buf'.take (off + bytes.length) = buf.take off ++ bytes ∧
      buf'.drop (off + bytes.length) = buf.drop (off + bytes.length) := by
  have hlen : (buf.take off ++ bytes).length = off + bytes.length := by
    rw [List.length_append, List.length_take]
    omega
  refine ⟨_, if_pos h, ?_, ?_, ?_⟩
  · rw [List.length_append, hlen, List.length_drop]
    omega
  · rw [← hlen, List.take_left]
  · conv => lhs; arg 1; rw [← hlen]
    rw [List.drop_left]

end Tickerplant.Lib
