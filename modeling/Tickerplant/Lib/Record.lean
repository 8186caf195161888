import Tickerplant.Lib.Bytes

/-!
# Records of fixed fields

A message of fixed layout is a row of fields, each at an offset of its own. A writer stores them
one after another and a reader loads any of them by its offset; the two agree when the offsets are
the sums of the widths before them, and that is all there is to check for one layout.

A buffer whose first bytes have been written is `fill out done`: what was written, then what the
buffer held behind it. Storing the next field extends `done` (`store_fill`), so a writer's spec is
a list of what it stored. A load from a row of fields passes over the fields in front of its own
(`beLoad_skip`) and finds its own (`beLoad_here`). The other direction, that a row of fields read
from a buffer is the buffer, is `field_join`.

Text fields are padded with spaces on the right. Cutting and padding loses what does not fit, and
trimming loses spaces that were part of the text, so neither undoes the other in general:
`trim_padTo` says what comes back of a text, and `padTo_trim` that a field that was full comes back
as it was.

`consume` takes records off the front of a buffer with whatever step a decoder has, and
`consume_flatMap` lifts "this step reads this record, whatever follows it" to a whole stream.
-/

set_option autoImplicit false

namespace Tickerplant.Lib

/-! ## Unsigned integers of a fixed width -/

/-- An unsigned integer type of `size` bytes. -/
class Unsigned (T : Type) where
  size : ℕ
  toNat : T → ℕ
  ofNat : ℕ → T
  toNat_lt (v : T) : toNat v < 256 ^ size
  ofNat_toNat (v : T) : ofNat (toNat v) = v
  toNat_ofNat {n : ℕ} (h : n < 256 ^ size) : toNat (ofNat n) = n

open Unsigned

instance : Unsigned UInt8 where
  size := 1
  toNat := UInt8.toNat
  ofNat := UInt8.ofNat
  toNat_lt v := v.toNat_lt
  ofNat_toNat _ := UInt8.ofNat_toNat
  toNat_ofNat h := UInt8.toNat_ofNat_of_lt' h

instance : Unsigned UInt16 where
  size := 2
  toNat := UInt16.toNat
  ofNat := UInt16.ofNat
  toNat_lt v := v.toNat_lt
  ofNat_toNat _ := UInt16.ofNat_toNat
  toNat_ofNat h := UInt16.toNat_ofNat_of_lt' h

instance : Unsigned UInt32 where
  size := 4
  toNat := UInt32.toNat
  ofNat := UInt32.ofNat
  toNat_lt v := v.toNat_lt
  ofNat_toNat _ := UInt32.ofNat_toNat
  toNat_ofNat h := UInt32.toNat_ofNat_of_lt' h

instance : Unsigned UInt64 where
  size := 8
  toNat := UInt64.toNat
  ofNat := UInt64.ofNat
  toNat_lt v := v.toNat_lt
  ofNat_toNat _ := UInt64.ofNat_toNat
  toNat_ofNat h := UInt64.toNat_ofNat_of_lt' h

/-- The sizes, for the side conditions of the loads and stores. -/
@[simp] theorem size_u8 : size UInt8 = 1 := rfl
@[simp] theorem size_u16 : size UInt16 = 2 := rfl
@[simp] theorem size_u32 : size UInt32 = 4 := rfl
@[simp] theorem size_u64 : size UInt64 = 8 := rfl

variable {T : Type} [Unsigned T]

/-- The value, most significant byte first. -/
def bytesOf (v : T) : List UInt8 := be (size T) (toNat v)

/-- A value takes as many bytes as its type has. -/
@[simp] theorem length_bytesOf (v : T) : (bytesOf v).length = size T := length_be _ _

/-- `be_load<T>`. -/
def beLoad (T : Type) [Unsigned T] (buf : List UInt8) (off : ℕ) : Checked T := do
  let v ← load (size T) buf off
  return ofNat v

/-- `be_store<T>`. -/
def beStore (buf : List UInt8) (off : ℕ) (v : T) : Checked (List UInt8) :=
  store buf off (bytesOf v)

/-! ## Fields of a buffer -/

/-- The `w` bytes at `off`. -/
def field (buf : List UInt8) (off w : ℕ) : List UInt8 := (buf.drop off).take w

/-- The value at `off`. -/
def valueAt (T : Type) [Unsigned T] (buf : List UInt8) (off : ℕ) : T :=
  ofNat (ofBe (field buf off (size T)))

section Fields

variable {a t buf : List UInt8} {off w w' : ℕ}

/-- A field that lies inside the buffer is as wide as it should be. -/
theorem length_field (h : off + w ≤ buf.length) : (field buf off w).length = w := by
  unfold field
  rw [List.length_take, List.length_drop]
  omega

/-- A read of a field. -/
theorem slice_field (h : off + w ≤ buf.length) : slice buf off w = .ok (field buf off w) :=
  slice_eq h

/-- A load inside the buffer. -/
theorem beLoad_eq (h : off + size T ≤ buf.length) : beLoad T buf off = .ok (valueAt T buf off) := by
  unfold beLoad
  rw [load_eq h]
  rfl

/-- A load of what was stored. -/
@[simp] theorem ofNat_ofBe_bytesOf (v : T) : ofNat (ofBe (bytesOf v)) = v := by
  unfold bytesOf
  rw [ofBe_be_of_lt (toNat_lt v), ofNat_toNat]

/-- A store of what was loaded. -/
theorem bytesOf_valueAt (h : off + size T ≤ buf.length) :
    bytesOf (valueAt T buf off) = field buf off (size T) := by
  have hlen := length_field h
  have hlt := ofBe_lt (field buf off (size T))
  rw [hlen] at hlt
  have hback := be_ofBe (field buf off (size T))
  rw [hlen] at hback
  unfold bytesOf valueAt
  rw [toNat_ofNat hlt, hback]

/-! Passing over the fields in front. -/

/-- A read behind the first part is a read of the second. -/
theorem slice_skip (h : a.length ≤ off) : slice (a ++ t) off w = slice t (off - a.length) w := by
  unfold slice
  rw [List.length_append, List.drop_append, List.drop_of_length_le h, List.nil_append]
  congr 1
  rw [eq_iff_iff]
  omega

/-- A read of the first part. -/
theorem slice_here (h : a.length = w) : slice (a ++ t) 0 w = .ok a := by
  subst h
  rw [slice_eq (by rw [List.length_append]; omega), List.drop_zero, List.take_left]

/-- A read that ends inside the first part does not depend on the second. -/
theorem slice_append (h : off + w ≤ a.length) : slice (a ++ t) off w = slice a off w := by
  rw [slice_eq h, slice_eq (by rw [List.length_append]; omega),
    List.drop_append_of_le_length (by omega), List.take_append_of_le_length]
  rw [List.length_drop]
  omega

/-- So is a load. -/
theorem beLoad_skip (h : a.length ≤ off) :
    beLoad T (a ++ t) off = beLoad T t (off - a.length) := by
  unfold beLoad load
  rw [slice_skip h]

/-- A load of the field that comes first. -/
theorem beLoad_here (v : T) : beLoad T (bytesOf v ++ t) 0 = .ok v := by
  unfold beLoad load
  rw [slice_here (length_bytesOf v)]
  show Except.ok (ofNat (ofBe (bytesOf v))) = _
  rw [ofNat_ofBe_bytesOf]

/-- The first byte. -/
theorem beLoad_cons (b : UInt8) (buf : List UInt8) : beLoad UInt8 (b :: buf) 0 = .ok b := by
  have hb : b :: buf = bytesOf b ++ buf := by
    show b :: buf = UInt8.ofNat (b.toNat / 256 ^ 0) :: buf
    rw [pow_zero, Nat.div_one, UInt8.ofNat_toNat]
  rw [hb]
  exact beLoad_here b

/-- A load that ends inside the first part does not depend on the second. -/
theorem beLoad_append (h : off + size T ≤ a.length) :
    beLoad T (a ++ t) off = beLoad T a off := by
  unfold beLoad load
  rw [slice_append h]

/-! Fields that stand side by side. -/

/-- Two neighbours are one field. -/
theorem field_join {off' : ℕ} (h : off' = off + w) :
    field buf off w ++ field buf off' w' = field buf off (w + w') := by
  subst h
  unfold field
  rw [List.take_add, List.drop_drop]

end Fields

/-! ## Filling a buffer from the front -/

/-- The buffer once its first bytes have been written. -/
def fill (out done : List UInt8) : List UInt8 := done ++ out.drop done.length

section Fill

variable {out done bytes : List UInt8} {off : ℕ}

/-- The next field. -/
theorem store_fill (hoff : off = done.length) (hroom : done.length + bytes.length ≤ out.length) :
    store (fill out done) off bytes = .ok (fill out (done ++ bytes)) := by
  subst hoff
  have hlen : (fill out done).length = out.length := by
    unfold fill
    rw [List.length_append, List.length_drop]
    omega
  unfold store
  rw [if_pos (by omega)]
  unfold fill
  rw [List.take_left, List.drop_length_add_append, List.drop_drop, List.length_append]

/-- The next field, when it is an integer. -/
theorem beStore_fill {v : T} (h : off = done.length ∧ done.length + size T ≤ out.length) :
    beStore (fill out done) off v = .ok (fill out (done ++ bytesOf v)) :=
  store_fill h.1 (by rw [length_bytesOf]; exact h.2)

/-- The first field. -/
theorem beStore_front {v : T} (h : size T ≤ out.length) :
    beStore out 0 v = .ok (fill out (bytesOf v)) := by
  have hdone : 0 = ([] : List UInt8).length ∧ ([] : List UInt8).length + size T ≤ out.length :=
    ⟨rfl, by rw [List.length_nil, Nat.zero_add]; exact h⟩
  exact beStore_fill hdone

/-- A field that is written over. -/
theorem store_over {pre old post : List UInt8} (hdone : done = pre ++ old ++ post)
    (hoff : off = pre.length) (hlen : old.length = bytes.length) :
    store (fill out done) off bytes = .ok (fill out (pre ++ bytes ++ post)) := by
  subst hoff hdone
  unfold store fill
  rw [if_pos (by simp only [List.length_append]; omega)]
  simp only [List.append_assoc, List.take_left', List.length_append, ← hlen]
  rw [← List.append_assoc pre old, List.drop_left' (by rw [List.length_append])]

end Fill

/-! ## Padded text -/

/-- What a field of `w` characters holds of `s`: too long is cut, too short is padded with
spaces. -/
def padTo (w : ℕ) (s : List UInt8) : List UInt8 :=
  s.take w ++ List.replicate (w - s.length) 0x20

/-- The field is as wide as it was asked to be. -/
@[simp] theorem length_padTo (w : ℕ) (s : List UInt8) : (padTo w s).length = w := by
  unfold padTo
  rw [List.length_append, List.length_take, List.length_replicate]
  omega

/-- `while (n > 0 && s[n - 1] == ' ') --n`. -/
def trimLen (s : List UInt8) : ℕ → ℕ
  | 0 => 0
  | n + 1 => if s[n]? = some 0x20 then trimLen s n else n + 1

/-- Without its trailing spaces. -/
def trim (s : List UInt8) : List UInt8 := s.take (trimLen s s.length)

/-- Only the bytes up to where the loop starts matter. -/
theorem trimLen_congr {s s' : List UInt8} {n : ℕ} (h : s.take n = s'.take n) :
    trimLen s n = trimLen s' n := by
  induction n with
  | zero => rfl
  | succ n ih =>
    have hn : s[n]? = s'[n]? := by
      have := congrArg (·[n]?) h
      simpa using this
    have htake : s.take n = s'.take n := by
      have := congrArg (List.take n) h
      simpa [List.take_take] using this
    rw [trimLen, trimLen, hn, ih htake]

/-- The loop passes over spaces that were put behind a text. -/
theorem trimLen_replicate (s : List UInt8) (k : ℕ) :
    trimLen (s ++ List.replicate k 0x20) (s.length + k) = trimLen s s.length := by
  induction k with
  | zero => rw [List.replicate_zero, List.append_nil, Nat.add_zero]
  | succ k ih =>
    have hlast : (s ++ List.replicate (k + 1) (0x20 : UInt8))[s.length + k]? = some 0x20 := by
      rw [List.getElem?_append_right (by omega), Nat.add_sub_cancel_left,
        List.getElem?_replicate_of_lt (by omega)]
    have hfront : (s ++ List.replicate (k + 1) (0x20 : UInt8)).take (s.length + k) =
        (s ++ List.replicate k 0x20).take (s.length + k) := by
      rw [List.take_length_add_append, List.take_length_add_append, List.take_replicate,
        List.take_replicate, Nat.min_self, Nat.min_eq_left (by omega)]
    rw [← Nat.add_assoc, trimLen, if_pos hlast, trimLen_congr hfront, ih]

/-- The loop goes one way. -/
theorem trimLen_le (s : List UInt8) (n : ℕ) : trimLen s n ≤ n := by
  induction n with
  | zero => exact Nat.le_refl 0
  | succ n ih =>
    rw [trimLen]
    split
    · omega
    · exact Nat.le_refl _

/-- **Padding and trimming** gives back what fits the field, without its own trailing spaces. -/
theorem trim_padTo (w : ℕ) (s : List UInt8) : trim (padTo w s) = trim (s.take w) := by
  have hw : w = (s.take w).length + (w - s.length) := by
    rw [List.length_take]
    omega
  have hlen : trimLen (padTo w s) w = trimLen (s.take w) (s.take w).length := by
    conv_lhs => arg 2; rw [hw]
    exact trimLen_replicate _ _
  unfold trim
  rw [length_padTo, hlen]
  unfold padTo
  exact List.take_append_of_le_length (trimLen_le _ _)

/-- What trimming takes off is spaces. -/
theorem drop_trimLen (s : List UInt8) : ∀ {n : ℕ}, n ≤ s.length →
    (s.take n).drop (trimLen s n) = List.replicate (n - trimLen s n) 0x20 := by
  intro n
  induction n with
  | zero => exact fun _ => rfl
  | succ n ih =>
    intro hn
    have hle := trimLen_le s n
    rw [trimLen]
    split
    · rename_i hspace
      -- the byte the loop looked at joins the spaces already passed
      have hlast : s.take (n + 1) = s.take n ++ [0x20] := by
        rw [List.take_add_one, hspace]
        rfl
      rw [hlast, List.drop_append_of_le_length (by rw [List.length_take]; omega), ih (by omega),
        Nat.sub_add_comm hle, List.replicate_succ']
    · rw [Nat.sub_self, List.drop_of_length_le (List.length_take_le _ _)]
      rfl

/-- **Trimming and padding** gives back a field that was full. -/
theorem padTo_trim {w : ℕ} {s : List UInt8} (h : s.length = w) : padTo w (trim s) = s := by
  subst h
  have hle := trimLen_le s s.length
  have hspaces := drop_trimLen s (Nat.le_refl _)
  rw [List.take_length] at hspaces
  have hlen : (trim s).length = trimLen s s.length := by
    unfold trim
    rw [List.length_take]
    omega
  -- what was cut off is what is put back: as many spaces
  unfold padTo
  rw [List.take_of_length_le (by omega), hlen, ← hspaces]
  exact List.take_append_drop _ _

/-- A field that is full is not padded. -/
theorem padTo_of_length {w : ℕ} {s : List UInt8} (h : s.length = w) : padTo w s = s := by
  subst h
  unfold padTo
  rw [Nat.sub_self, List.take_length]
  exact List.append_nil _

/-! ## Characters as bytes -/

/-- Bytes that read as one character are one byte. -/
theorem ofUInt8_eq_iff (n m : UInt8) : Char.ofUInt8 n = Char.ofUInt8 m ↔ n = m := by
  refine ⟨fun h => ?_, fun h => by rw [h]⟩
  have hval : n.toUInt32 = m.toUInt32 := congrArg Char.val h
  have hnat := congrArg UInt32.toNat hval
  rw [UInt8.toNat_toUInt32, UInt8.toNat_toUInt32] at hnat
  exact UInt8.toNat_inj.mp hnat

/-- A byte comes back from the character it reads as. -/
theorem toUInt8_ofUInt8 (n : UInt8) : (Char.ofUInt8 n).toUInt8 = n := by
  refine UInt8.toNat_inj.mp ?_
  show n.toUInt32.toUInt8.toNat = n.toNat
  rw [UInt32.toNat_toUInt8, UInt8.toNat_toUInt32, Nat.mod_eq_of_lt n.toNat_lt]

/-- A character that fits a byte comes back from it. -/
theorem ofUInt8_toUInt8 {c : Char} (h : c.toNat < 256) : Char.ofUInt8 c.toUInt8 = c := by
  refine Char.ext (UInt32.toNat_inj.mp ?_)
  show c.val.toUInt8.toUInt32.toNat = c.val.toNat
  rw [UInt8.toNat_toUInt32, UInt32.toNat_toUInt8]
  exact Nat.mod_eq_of_lt h

/-! ## Text of a fixed length -/

/-- `std::array<char, n>`. -/
@[ext] structure Alpha (n : ℕ) where
  chars : List UInt8
  length_chars : chars.length = n
  deriving DecidableEq

attribute [simp] Alpha.length_chars

section Alpha

variable {n : ℕ} {a t : List UInt8} {off : ℕ}

/-- Left justified, padded with spaces, cut when too long. -/
def alpha (n : ℕ) (s : List UInt8) : Alpha n := ⟨padTo n s, length_padTo n s⟩

/-- The `n` characters at `off`. -/
def alphaAt (n : ℕ) (buf : List UInt8) (off : ℕ) : Checked (Alpha n) :=
  if h : off + n ≤ buf.length then .ok ⟨field buf off n, length_field h⟩ else .error .outOfRange

/-- The copy of a text field into its place. -/
def storeAlpha (buf : List UInt8) (off : ℕ) (s : Alpha n) : Checked (List UInt8) :=
  store buf off s.chars

/-- Text inside the buffer. -/
theorem alphaAt_eq {buf : List UInt8} (h : off + n ≤ buf.length) :
    alphaAt n buf off = .ok ⟨field buf off n, length_field h⟩ := dif_pos h

/-- Text behind the first part is text of the second. -/
theorem alphaAt_skip (h : a.length ≤ off) :
    alphaAt n (a ++ t) off = alphaAt n t (off - a.length) := by
  have hfield : field (a ++ t) off n = field t (off - a.length) n := by
    unfold field
    rw [List.drop_append, List.drop_of_length_le h, List.nil_append]
  have hiff : off + n ≤ (a ++ t).length ↔ off - a.length + n ≤ t.length := by
    rw [List.length_append]
    omega
  unfold alphaAt
  by_cases hin : off - a.length + n ≤ t.length
  · rw [dif_pos hin, dif_pos (hiff.mpr hin)]
    exact congrArg Except.ok (Alpha.ext hfield)
  · rw [dif_neg hin, dif_neg (hin ∘ hiff.mp)]

/-- Text that comes first. -/
theorem alphaAt_here (s : Alpha n) : alphaAt n (s.chars ++ t) 0 = .ok s := by
  have hfield : field (s.chars ++ t) 0 n = s.chars := by
    unfold field
    rw [List.drop_zero, List.take_left' s.length_chars]
  rw [alphaAt_eq (by rw [List.length_append, s.length_chars]; omega)]
  exact congrArg Except.ok (Alpha.ext hfield)

/-- The next field, when it is text. -/
theorem storeAlpha_fill {out done : List UInt8} {s : Alpha n}
    (h : off = done.length ∧ done.length + n ≤ out.length) :
    storeAlpha (fill out done) off s = .ok (fill out (done ++ s.chars)) :=
  store_fill h.1 (by rw [s.length_chars]; exact h.2)

end Alpha

/-! ## A buffer of records -/

/-- Take records off the front of a buffer until a step finds none, or the buffer is empty. A step
answers how many bytes it used. -/
def consume {S : Type} (step : S → List UInt8 → Checked (S × Option ℕ)) :
    ℕ → S → List UInt8 → Checked (S × List UInt8)
  | 0, s, buf => .ok (s, buf)
  | fuel + 1, s, buf =>
    if buf.isEmpty then .ok (s, buf)
    else do
      let (s, used) ← step s buf
      match used with
      | some n => consume step fuel s (buf.drop n)
      | none => return (s, buf)

/-- Records that a step reads whatever follows them are all read from their concatenation. What a
step does is told by a view of the state, `next` on that view. -/
theorem consume_flatMap {S V M : Type} {step : S → List UInt8 → Checked (S × Option ℕ)}
    {bytes : M → List UInt8} (view : S → V) (next : V → M → V) (hpos : ∀ m, 0 < (bytes m).length)
    (hstep : ∀ s m rest, ∃ s', step s (bytes m ++ rest) = .ok (s', some (bytes m).length) ∧
      view s' = next (view s) m) :
    ∀ (ms : List M) (fuel : ℕ) (s : S), (ms.flatMap bytes).length ≤ fuel →
      ∃ s', consume step fuel s (ms.flatMap bytes) = .ok (s', []) ∧
        view s' = ms.foldl next (view s) := by
  intro ms
  induction ms with
  | nil =>
    intro fuel s _
    cases fuel with
    | zero => exact ⟨s, rfl, rfl⟩
    | succ fuel => exact ⟨s, rfl, rfl⟩
  | cons m ms ih =>
    intro fuel s hfuel
    have hm := hpos m
    rw [List.flatMap_cons, List.length_append] at hfuel
    cases fuel with
    | zero => omega
    | succ fuel =>
      have hne : (bytes m ++ ms.flatMap bytes).isEmpty = false := by
        cases hb : bytes m with
        | nil => rw [hb] at hm; exact absurd hm (by simp)
        | cons b bs => rfl
      obtain ⟨s1, h1, hv1⟩ := hstep s m (ms.flatMap bytes)
      obtain ⟨s', h', hv'⟩ := ih fuel s1 (by omega)
      refine ⟨s', ?_, by rw [hv', hv1, List.foldl_cons]⟩
      rw [List.flatMap_cons, consume, hne, h1]
      simp only [bind, Except.bind, Bool.false_eq_true, if_false]
      rw [List.drop_left, h']

end Tickerplant.Lib
