import Tickerplant.Lib.Bytes

/-!
# Length-prefixed frames

A stream of frames, each a two byte big-endian length and then that many bytes. `headFrame` is the
body of the frame a stream starts with, if it is there in full and not empty; `frames` are the
bodies of the frames a stream starts with, and `leftover` is what follows the last of them. A frame
of no bytes is where a reader stops: a length of zero is how these files mark their end.

Both walk the stream with its length for fuel, and a frame takes at least three bytes, so
`frames_some` and `frames_none` unfold them one frame at a time, and no proof outside this file
looks at the fuel. `headFrame_leftover` says the walk did not stop early.
-/

set_option autoImplicit false

namespace Tickerplant
namespace Lib

/-- The body of the first frame. Neither half a length, nor a length of zero, nor a body that is
cut short makes one. -/
def headFrame (s : List UInt8) : Option (List UInt8) :=
  if s.length < 2 then none
  else
    let len := ofBe (s.take 2)
    if len = 0 ∨ s.length < 2 + len then none else some ((s.drop 2).take len)

/-- What a stream leaves behind the frame it starts with. -/
def afterFrame (s body : List UInt8) : List UInt8 := s.drop (2 + body.length)

/-- The bodies of the frames, and what follows the last. -/
def walk : ℕ → List UInt8 → List (List UInt8) × List UInt8
  | 0, s => ([], s)
  | fuel + 1, s =>
    match headFrame s with
    | none => ([], s)
    | some m => (m :: (walk fuel (afterFrame s m)).1, (walk fuel (afterFrame s m)).2)

/-- The bodies of the frames a stream starts with. -/
def frames (s : List UInt8) : List (List UInt8) := (walk s.length s).1

/-- What follows the last of them. -/
def leftover (s : List UInt8) : List UInt8 := (walk s.length s).2

variable {s m : List UInt8}

/-- What a frame is made of. -/
theorem headFrame_spec (h : headFrame s = some m) :
    m ≠ [] ∧ m.length = ofBe (s.take 2) ∧ 2 + m.length ≤ s.length ∧
      m = (s.drop 2).take m.length := by
  unfold headFrame at h
  simp only at h
  split at h
  · cases h
  split at h
  · cases h
  rename_i hno
  rw [not_or, Nat.not_lt] at hno
  cases h
  have hlen : ((s.drop 2).take (ofBe (s.take 2))).length = ofBe (s.take 2) := by
    rw [List.length_take, List.length_drop]
    omega
  refine ⟨fun hnil => hno.1 ?_, hlen, by rw [hlen]; exact hno.2, by rw [hlen]⟩
  rw [← hlen, hnil, List.length_nil]

/-- More fuel than the stream is long makes no difference. -/
theorem walk_fuel : ∀ (fuel fuel' : ℕ) (s : List UInt8), s.length ≤ fuel → s.length ≤ fuel' →
    walk fuel s = walk fuel' s := by
  intro fuel
  induction fuel with
  | zero =>
    intro fuel' s h _
    have hnil : s = [] := List.eq_nil_of_length_eq_zero (Nat.le_zero.mp h)
    subst hnil
    cases fuel' <;> rfl
  | succ fuel ih =>
    intro fuel' s h h'
    cases fuel' with
    | zero =>
      have hnil : s = [] := List.eq_nil_of_length_eq_zero (Nat.le_zero.mp h')
      subst hnil
      rfl
    | succ fuel' =>
      unfold walk
      cases hm : headFrame s with
      | none => rfl
      | some m =>
        have hle := (headFrame_spec hm).2.2.1
        have hlen : (afterFrame s m).length = s.length - (2 + m.length) := List.length_drop
        simp only
        rw [ih fuel' (afterFrame s m) (by omega) (by omega)]

/-- A stream that starts with no frame has none. -/
theorem frames_none (h : headFrame s = none) : frames s = [] ∧ leftover s = s := by
  unfold frames leftover
  cases hlen : s.length with
  | zero => exact ⟨rfl, rfl⟩
  | succ n =>
    unfold walk
    rw [h]
    exact ⟨rfl, rfl⟩

/-- One that does has that one, and those of what follows it. -/
theorem frames_some (h : headFrame s = some m) :
    frames s = m :: frames (afterFrame s m) ∧ leftover s = leftover (afterFrame s m) := by
  have hle := (headFrame_spec h).2.2.1
  have hlen : (afterFrame s m).length = s.length - (2 + m.length) := List.length_drop
  unfold frames leftover
  obtain ⟨n, hn⟩ := Nat.exists_eq_succ_of_ne_zero (show s.length ≠ 0 by omega)
  rw [hn, walk, h]
  simp only
  rw [walk_fuel n (afterFrame s m).length (afterFrame s m) (by omega) (Nat.le_refl _)]
  exact ⟨rfl, rfl⟩

/-- A stream has no more frames than bytes. -/
theorem length_frames_le (s : List UInt8) : (frames s).length ≤ s.length := by
  have hwalk : ∀ (fuel : ℕ) (s : List UInt8), (walk fuel s).1.length ≤ fuel := by
    intro fuel
    induction fuel with
    | zero => exact fun _ => Nat.le_refl 0
    | succ fuel ih =>
      intro s
      unfold walk
      cases headFrame s with
      | none => exact Nat.zero_le _
      | some m => exact Nat.succ_le_succ (ih _)
  exact hwalk s.length s

/-- What is left behind the last frame does not start with one. -/
theorem headFrame_leftover (s : List UInt8) : headFrame (leftover s) = none := by
  have hwalk : ∀ (fuel : ℕ) (s : List UInt8), s.length ≤ fuel →
      headFrame (walk fuel s).2 = none := by
    intro fuel
    induction fuel with
    | zero =>
      intro s h
      have hnil : s = [] := List.eq_nil_of_length_eq_zero (Nat.le_zero.mp h)
      subst hnil
      rfl
    | succ fuel ih =>
      intro s h
      unfold walk
      cases hm : headFrame s with
      | none => exact hm
      | some m =>
        have hle := (headFrame_spec hm).2.2.1
        have hlen : (afterFrame s m).length = s.length - (2 + m.length) := List.length_drop
        exact ih (afterFrame s m) (by omega)
  exact hwalk s.length s (Nat.le_refl _)

/-- A frame that was written is read back, and what follows it is left. -/
theorem frames_append (hne : m ≠ []) (hlen : m.length < 256 ^ 2) (rest : List UInt8) :
    frames (be 2 m.length ++ m ++ rest) = m :: frames rest := by
  have htwo : (be 2 m.length ++ m ++ rest).take 2 = be 2 m.length := by
    rw [List.append_assoc, List.take_left' (length_be 2 _)]
  have hbody : (be 2 m.length ++ m ++ rest).drop 2 = m ++ rest := by
    rw [List.append_assoc, List.drop_left' (length_be 2 _)]
  have hsize : (be 2 m.length ++ m ++ rest).length = 2 + m.length + rest.length := by
    rw [List.length_append, List.length_append, length_be]
  have hpos : m.length ≠ 0 := fun h0 => hne (List.eq_nil_of_length_eq_zero h0)
  have hhead : headFrame (be 2 m.length ++ m ++ rest) = some m := by
    unfold headFrame
    simp only
    rw [htwo, ofBe_be_of_lt hlen, hbody, if_neg (by omega), if_neg (by omega), List.take_left]
  rw [(frames_some hhead).1]
  unfold afterFrame
  rw [List.drop_left' (by rw [List.length_append, length_be])]

end Lib
end Tickerplant
