import Tickerplant.Lib.Framing

/-!
# Reading a sample file (`include/tick/itch_file.hpp`)

The decompressed stream comes in pieces of any size. `GzStream.read` is `gzread` under an arbitrary
`split`: the `k`-th call returns `split k` bytes as far as that is between one and what was asked
for, and as far as the stream has them. Every way to split a stream is one of these.

The buffer is written as the bytes the class has read into it, its first `end_` ones: nothing reads
further. What the class has yet to hand out is then the bytes behind `pos` and what the stream has
left (`unread`), and `next_spec` says what a call takes of it, whatever the split. So neither the
split nor the way the buffer is shifted appears in any answer: `unread` is a stream, and a call
takes the frame off its front.

`refill` reads in a loop that is bounded by nothing but the stream. Each round brings a byte or
ends it, so that as many rounds as bytes were wanted are always enough (`refillLoop_rounds`).

A stream that ends one byte into a length prefix fails the first of the two refills, which is the
one that is taken for a clean end of file (`truncated_iff`). A read that fails throws in the
source; here every stream is one that can be read to its end. The three counters are natural
numbers, added to and read back.
-/

set_option autoImplicit false

namespace Tickerplant

open Lib

/-- A decompressed stream: what is left of it, and how often it was read from. -/
structure GzStream where
  rest : List UInt8
  reads : ℕ := 0
  deriving DecidableEq, Repr

/-- `gzread` of up to `requested` bytes: at least one while there are any. -/
def GzStream.read (split : ℕ → ℕ) (gz : GzStream) (requested : ℕ) : List UInt8 × GzStream :=
  let n := min (max 1 (split gz.reads)) requested
  (gz.rest.take n, { rest := gz.rest.drop n, reads := gz.reads + 1 })

/-- The members: the stream, the buffer with the place in it, and what was counted. -/
structure ItchFile where
  gz : GzStream
  /-- The first `end_` bytes of `buf_`. -/
  buf : List UInt8 := []
  /-- The first byte not handed out yet. -/
  pos : ℕ := 0
  /-- Messages handed out. -/
  framed : ℕ := 0
  /-- Their bytes, with the lengths in front. -/
  bytes : ℕ := 0
  /-- Ends behind a length. -/
  truncated : ℕ := 0
  deriving DecidableEq, Repr

namespace ItchFile

/-- A mebibyte. The longest frame is sixteen times shorter. -/
def kBufferSize : ℕ := 1 <<< 20

/-- `ItchFile(path)`, for a file that holds `stream`. -/
def ofStream (stream : List UInt8) : ItchFile := { gz := { rest := stream } }

variable (split : ℕ → ℕ)

/-- `avail()`. -/
def avail (f : ItchFile) : ℕ := f.buf.length - f.pos

/-- The loop of `refill`. A read brings a byte or ends the loop, so `want` rounds are enough. -/
def refillLoop (want : ℕ) : ℕ → ItchFile → Bool × ItchFile
  | 0, f => (decide (want ≤ f.buf.length), f)
  | fuel + 1, f =>
    if want ≤ f.buf.length then (true, f)
    else
      let r := f.gz.read split (kBufferSize - f.buf.length)
      let f := { f with gz := r.2 }
      if r.1.length = 0 then (false, f)
      else refillLoop want fuel { f with buf := f.buf ++ r.1 }

/-- `refill(want)`: what is left is moved to the front, and the loop fills up behind it. -/
def refill (want : ℕ) (f : ItchFile) : Bool × ItchFile :=
  if want > kBufferSize then (false, f)
  else refillLoop split want want { f with buf := f.buf.drop f.pos, pos := 0 }

/-- `avail() >= want || refill(want)`. -/
def ready (want : ℕ) (f : ItchFile) : Bool × ItchFile :=
  if f.avail < want then f.refill split want else (true, f)

/-- `next`: the message handed out, if there is one. -/
def next (f : ItchFile) : Option (List UInt8) × ItchFile :=
  let r := f.ready split 2
  if r.1 = false then (none, r.2)
  else
    let f := r.2
    let len := ofBe ((f.buf.drop f.pos).take 2)
    -- a frame of no bytes ends the session, and is not handed out
    if len = 0 then (none, f)
    else
      let r := f.ready split (2 + len)
      let f := r.2
      if r.1 = false then (none, { f with truncated := f.truncated + 1 })
      else (some ((f.buf.drop (f.pos + 2)).take len),
        { f with pos := f.pos + (2 + len), framed := f.framed + 1, bytes := f.bytes + (2 + len) })

/-- What successive calls return, and the state they leave. -/
def calls : ℕ → ItchFile → List (Option (List UInt8)) × ItchFile
  | 0, f => ([], f)
  | k + 1, f =>
    let r := f.next split
    ((r.1 :: (calls k r.2).1), (calls k r.2).2)

/-! ## Refilling -/

section Refill

variable {split} {want : ℕ} {f : ItchFile}

/-- The bytes read and not handed out yet, and those not read yet. -/
def unread (f : ItchFile) : List UInt8 := f.buf.drop f.pos ++ f.gz.rest

/-- A call that reads, and does nothing else. -/
structure Reads (f f' : ItchFile) : Prop where
  /-- No byte is lost, doubled or moved. -/
  unread : f'.unread = f.unread
  framed : f'.framed = f.framed
  bytes : f'.bytes = f.bytes
  truncated : f'.truncated = f.truncated

theorem Reads.refl (f : ItchFile) : Reads f f := ⟨rfl, rfl, rfl, rfl⟩

theorem Reads.trans {f f' f'' : ItchFile} (h : Reads f f') (h' : Reads f' f'') : Reads f f'' :=
  ⟨h'.unread.trans h.unread, h'.framed.trans h.framed, h'.bytes.trans h.bytes,
    h'.truncated.trans h.truncated⟩

/-- What a read brings and what it leaves are the stream. -/
theorem read_append (gz : GzStream) (requested : ℕ) :
    (gz.read split requested).1 ++ (gz.read split requested).2.rest = gz.rest :=
  List.take_append_drop _ _

/-- A read brings nothing only at the end of the stream. -/
theorem read_eq_nil {gz : GzStream} {requested : ℕ} (hr : 0 < requested)
    (h : (gz.read split requested).1.length = 0) : gz.rest = [] := by
  unfold GzStream.read at h
  rw [List.length_take] at h
  refine List.eq_nil_of_length_eq_zero ?_
  omega

/-- The loop reads until there is enough or the stream is at its end, and never runs out of
rounds. -/
theorem refillLoop_spec (hwant : want ≤ kBufferSize) : ∀ (fuel : ℕ) (f : ItchFile), f.pos = 0 →
    want ≤ f.buf.length + fuel →
    Reads f (refillLoop split want fuel f).2 ∧ (refillLoop split want fuel f).2.pos = 0 ∧
      ((refillLoop split want fuel f).1 = true → want ≤ (refillLoop split want fuel f).2.avail) ∧
      ((refillLoop split want fuel f).1 = false → f.unread.length < want) := by
  intro fuel
  induction fuel with
  | zero =>
    intro f hpos hfuel
    refine ⟨Reads.refl f, hpos, fun h => ?_, fun h => ?_⟩
    · unfold avail
      rw [show (refillLoop split want 0 f).2 = f from rfl, hpos]
      exact of_decide_eq_true h
    · exact absurd hfuel (of_decide_eq_false h)
  | succ fuel ih =>
    intro f hpos hfuel
    unfold refillLoop
    by_cases henough : want ≤ f.buf.length
    · rw [if_pos henough]
      refine ⟨Reads.refl f, hpos, fun _ => ?_, fun h => absurd h (by simp)⟩
      unfold avail
      rw [hpos]
      exact henough
    rw [if_neg henough]
    simp only
    have happend := @read_append split f.gz (kBufferSize - f.buf.length)
    -- no bytes: the stream is at its end, and what is in the buffer is all there was
    by_cases hend : (f.gz.read split (kBufferSize - f.buf.length)).1.length = 0
    · rw [if_pos hend]
      have hnil := read_eq_nil (by omega) hend
      rw [List.eq_nil_of_length_eq_zero hend, List.nil_append] at happend
      refine ⟨⟨?_, rfl, rfl, rfl⟩, hpos, fun h => absurd h (by simp), fun _ => ?_⟩
      · unfold unread
        rw [happend]
      · unfold unread
        rw [hnil, List.append_nil, hpos, List.drop_zero]
        omega
    -- some bytes: one round fewer is needed for what is still missing
    · rw [if_neg hend]
      generalize f.gz.read split (kBufferSize - f.buf.length) = r at happend hend
      have hmore : Reads f { f with gz := r.2, buf := f.buf ++ r.1 } := by
        refine ⟨?_, rfl, rfl, rfl⟩
        unfold unread
        simp only
        rw [hpos, List.drop_zero, List.drop_zero, List.append_assoc, happend]
      obtain ⟨hreads, hpos', htrue, hfalse⟩ := ih { f with gz := r.2, buf := f.buf ++ r.1 } hpos
        (by simp only [List.length_append]; omega)
      rw [hmore.unread] at hfalse
      exact ⟨hmore.trans hreads, hpos', htrue, hfalse⟩

/-- Moving what is left to the front changes where it is and not what it is. -/
theorem refill_spec (hwant : want ≤ kBufferSize) :
    Reads f (f.refill split want).2 ∧ (f.refill split want).2.pos = 0 ∧
      ((f.refill split want).1 = true → want ≤ (f.refill split want).2.avail) ∧
      ((f.refill split want).1 = false → f.unread.length < want) := by
  have hmoved : Reads f { f with buf := f.buf.drop f.pos, pos := 0 } := ⟨rfl, rfl, rfl, rfl⟩
  obtain ⟨hreads, hpos, htrue, hfalse⟩ :=
    @refillLoop_spec split _ hwant want { f with buf := f.buf.drop f.pos, pos := 0 } rfl
      (Nat.le_add_left _ _)
  unfold refill
  rw [if_neg (Nat.not_lt.mpr hwant)]
  rw [hmoved.unread] at hfalse
  exact ⟨hmoved.trans hreads, hpos, htrue, hfalse⟩

/-- **Having enough**: either it is there afterwards, or the stream ends short of it. -/
theorem ready_spec (hwant : want ≤ kBufferSize) :
    Reads f (f.ready split want).2 ∧
      ((f.ready split want).1 = true ↔ want ≤ f.unread.length) ∧
      ((f.ready split want).1 = true → want ≤ (f.ready split want).2.avail) := by
  have hsize (f' : ItchFile) : f'.avail ≤ f'.unread.length := by
    unfold avail unread
    rw [List.length_append, List.length_drop]
    exact Nat.le_add_right _ _
  unfold ready
  by_cases hhave : f.avail < want
  · rw [if_pos hhave]
    obtain ⟨hreads, -, htrue, hfalse⟩ := @refill_spec split want f hwant
    refine ⟨hreads, ⟨fun h => ?_, fun h => ?_⟩, htrue⟩
    · exact hreads.unread ▸ Nat.le_trans (htrue h) (hsize _)
    · by_contra hno
      exact absurd h (Nat.not_le.mpr (hfalse (by simpa using hno)))
  · rw [if_neg hhave]
    have hle := Nat.not_lt.mp hhave
    exact ⟨Reads.refl f, iff_of_true rfl (Nat.le_trans hle (hsize f)), fun _ => hle⟩

/-- What is in the buffer is the front of what is unread. -/
theorem take_unread {n : ℕ} (h : n ≤ f.avail) : (f.buf.drop f.pos).take n = f.unread.take n := by
  unfold unread
  rw [List.take_append_of_le_length]
  rw [List.length_drop]
  exact h

/-- Moving past what is in the buffer is moving past the front of what is unread. -/
theorem drop_unread {n : ℕ} (h : n ≤ f.avail) :
    f.buf.drop (f.pos + n) ++ f.gz.rest = f.unread.drop n := by
  unfold unread
  rw [List.drop_append_of_le_length, List.drop_drop]
  rw [List.length_drop]
  exact h

end Refill

/-! ## One call -/

/-- A stream that starts with the frame of no bytes, which ends a session. -/
def EndsSession (s : List UInt8) : Prop := 2 ≤ s.length ∧ ofBe (s.take 2) = 0

instance (s : List UInt8) : Decidable (EndsSession s) := inferInstanceAs (Decidable (_ ∧ _))

/-- The stream breaks off behind a length, before the bytes it promises. -/
def BreaksOff (s : List UInt8) : Prop := 2 ≤ s.length ∧ headFrame s = none ∧ ¬ EndsSession s

instance (s : List UInt8) : Decidable (BreaksOff s) := inferInstanceAs (Decidable (_ ∧ _))

section Next

variable {split : ℕ → ℕ} {f : ItchFile}

/-- **One call**, whatever the split: it hands out the frame that what is unread starts with, if it
starts with one, and takes it from there. -/
theorem next_spec (f : ItchFile) :
    (f.next split).1 = headFrame f.unread ∧
      match headFrame f.unread with
      | some m => (f.next split).2.unread = afterFrame f.unread m ∧
          (f.next split).2.framed = f.framed + 1 ∧
          (f.next split).2.bytes = f.bytes + (2 + m.length) ∧
          (f.next split).2.truncated = f.truncated
      | none => (f.next split).2.unread = f.unread ∧
          (f.next split).2.framed = f.framed ∧ (f.next split).2.bytes = f.bytes ∧
          (f.next split).2.truncated = f.truncated + if BreaksOff f.unread then 1 else 0 := by
  obtain ⟨hreads, hiff, henough⟩ := @ready_spec split 2 f (by decide)
  unfold next
  simp only
  generalize f.ready split 2 = r at hreads hiff henough
  by_cases hlength : r.1 = false
  · -- not even a length is left
    have hshort : f.unread.length < 2 := by
      rw [← Nat.not_le, ← hiff]
      simp [hlength]
    have hnone : headFrame f.unread = none := if_pos hshort
    have hno : ¬ BreaksOff f.unread := fun hb => absurd hb.1 (Nat.not_le.mpr hshort)
    rw [if_pos hlength, hnone, if_neg hno]
    exact ⟨rfl, hreads.unread, hreads.framed, hreads.bytes, hreads.truncated⟩
  rw [Bool.not_eq_false] at hlength
  have hlong := hiff.mp hlength
  have hlen : ofBe ((r.2.buf.drop r.2.pos).take 2) = ofBe (f.unread.take 2) := by
    rw [take_unread (henough hlength), hreads.unread]
  rw [if_neg (by simp [hlength]), hlen]
  by_cases hzero : ofBe (f.unread.take 2) = 0
  · have hnone : headFrame f.unread = none := by
      unfold headFrame
      rw [if_neg (Nat.not_lt.mpr hlong)]
      simp only
      rw [if_pos (Or.inl hzero)]
    have hno : ¬ BreaksOff f.unread := fun hb => hb.2.2 ⟨hlong, hzero⟩
    rw [if_pos hzero, hnone, if_neg hno]
    exact ⟨rfl, hreads.unread, hreads.framed, hreads.bytes, hreads.truncated⟩
  rw [if_neg hzero]
  -- the length is two bytes, so the buffer has room for the frame
  have hbound : ofBe (f.unread.take 2) < 256 ^ 2 := by
    have hlt := ofBe_lt (f.unread.take 2)
    rwa [List.length_take, Nat.min_eq_left hlong] at hlt
  have hroom : 2 + ofBe (f.unread.take 2) ≤ kBufferSize :=
    Nat.le_trans (by omega : _ ≤ 2 + 256 ^ 2) (by decide)
  obtain ⟨hreads', hiff', henough'⟩ := @ready_spec split _ r.2 hroom
  generalize r.2.ready split (2 + ofBe (f.unread.take 2)) = r' at hreads' hiff' henough'
  have hall := hreads.trans hreads'
  rw [hreads.unread] at hiff'
  by_cases hbody : r'.1 = false
  · have hshort : f.unread.length < 2 + ofBe (f.unread.take 2) := by
      rw [← Nat.not_le, ← hiff']
      simp [hbody]
    have hnone : headFrame f.unread = none := by
      unfold headFrame
      rw [if_neg (Nat.not_lt.mpr hlong)]
      simp only
      rw [if_pos (Or.inr hshort)]
    have hcut : BreaksOff f.unread := ⟨hlong, hnone, fun he => hzero he.2⟩
    rw [if_pos hbody, hnone, if_pos hcut]
    exact ⟨rfl, hall.unread, hall.framed, hall.bytes, congrArg (· + 1) hall.truncated⟩
  · rw [Bool.not_eq_false] at hbody
    have hfull := hiff'.mp hbody
    have hsome : headFrame f.unread = some ((f.unread.drop 2).take (ofBe (f.unread.take 2))) := by
      unfold headFrame
      rw [if_neg (Nat.not_lt.mpr hlong)]
      simp only
      rw [if_neg (by omega)]
    have hbytes : (r'.2.buf.drop (r'.2.pos + 2)).take (ofBe (f.unread.take 2)) =
        (f.unread.drop 2).take (ofBe (f.unread.take 2)) := by
      have htake := take_unread (henough' hbody)
      rw [hall.unread] at htake
      have hdrop := congrArg (List.drop 2) htake
      rwa [List.drop_take, List.drop_take, Nat.add_sub_cancel_left, List.drop_drop] at hdrop
    have hsize := (headFrame_spec hsome).2.1
    rw [if_neg (by simp [hbody]), hsome, hbytes]
    refine ⟨rfl, ?_, congrArg (· + 1) hall.framed, ?_, hall.truncated⟩
    · unfold afterFrame
      rw [hsize]
      exact (drop_unread (henough' hbody)).trans (by rw [hall.unread])
    · rw [hsize]
      exact congrArg (· + (2 + ofBe (f.unread.take 2))) hall.bytes

end Next

/-! ## A run of calls -/

section Calls

variable {split : ℕ → ℕ}

/-- **Successive calls** return the frames there are, in order, and after them nothing; they count
what they returned, and an end behind a length as often as they came to it. -/
theorem calls_spec : ∀ (k : ℕ) (f : ItchFile),
    (calls split k f).1 = ((frames f.unread).map some ++ List.replicate k none).take k ∧
      (calls split k f).2.framed = f.framed + ((frames f.unread).take k).length ∧
      (calls split k f).2.bytes =
        f.bytes + (((frames f.unread).take k).map fun m => 2 + m.length).sum ∧
      (calls split k f).2.truncated = f.truncated +
        (k - (frames f.unread).length) * if BreaksOff (leftover f.unread) then 1 else 0 := by
  intro k
  induction k with
  | zero => exact fun f => ⟨rfl, rfl, rfl, by simp [calls]⟩
  | succ k ih =>
    intro f
    obtain ⟨hnext, hstate⟩ := @next_spec split f
    obtain ⟨hmsgs, hframed, hbytes, htruncated⟩ := ih (f.next split).2
    unfold calls
    simp only
    rw [hmsgs, hframed, hbytes, htruncated, hnext]
    -- the first call answers the first frame, and the others the frames of what it left
    cases hhead : headFrame f.unread with
    | none =>
      rw [hhead] at hstate
      obtain ⟨hunread, hframed', hbytes', htruncated'⟩ := hstate
      obtain ⟨hframes, hleft⟩ := frames_none hhead
      rw [hunread, hframed', hbytes', htruncated', hframes, hleft]
      refine ⟨by simp [List.replicate_succ], by simp, by simp, ?_⟩
      rw [List.length_nil, Nat.sub_zero, Nat.sub_zero]
      split <;> omega
    | some m =>
      rw [hhead] at hstate
      obtain ⟨hunread, hframed', hbytes', htruncated'⟩ := hstate
      obtain ⟨hframes, hleft⟩ := frames_some hhead
      rw [hunread, hframed', hbytes', htruncated', hframes, hleft]
      refine ⟨?_, ?_, ?_, ?_⟩
      · have hlen : k ≤ ((frames (afterFrame f.unread m)).map some ++
            List.replicate k none).length := by simp
        rw [List.map_cons, List.cons_append, List.take_succ_cons, List.replicate_succ',
          ← List.append_assoc, List.take_append_of_le_length hlen]
      · rw [List.take_succ_cons, List.length_cons]
        omega
      · rw [List.take_succ_cons, List.map_cons, List.sum_cons]
        omega
      · rw [List.length_cons, Nat.add_sub_add_right]

/-- The loop of `refill` ends by itself: rounds beyond those it has make no difference. -/
theorem refillLoop_rounds {want : ℕ} (more : ℕ) :
    ∀ (fuel : ℕ) (f : ItchFile), want ≤ f.buf.length + fuel →
      refillLoop split want (fuel + more) f = refillLoop split want fuel f := by
  intro fuel
  induction fuel with
  | zero =>
    intro f hfuel
    have henough : want ≤ f.buf.length := hfuel
    have hzero : refillLoop split want 0 f = (true, f) := by
      unfold refillLoop
      rw [decide_eq_true henough]
    rw [hzero, Nat.zero_add]
    cases more with
    | zero => exact hzero
    | succ more =>
      unfold refillLoop
      rw [if_pos henough]
  | succ fuel ih =>
    intro f hfuel
    rw [Nat.add_right_comm]
    unfold refillLoop
    split
    · rfl
    simp only
    split
    · rfl
    · rename_i hsome
      refine ih _ ?_
      simp only [List.length_append]
      omega

/-- **File framing is independent of buffering.** However the stream is split, any number of calls
returns the frames it starts with, one after the other and then nothing, and counts them and their
bytes; and no call's loop runs on. -/
theorem framing_independent (stream : List UInt8) (split : ℕ → ℕ) (k : ℕ) :
    (calls split k (ofStream stream)).1 =
        ((frames stream).map some ++ List.replicate k none).take k ∧
      (calls split k (ofStream stream)).2.framed = ((frames stream).take k).length ∧
      (calls split k (ofStream stream)).2.bytes =
        (((frames stream).take k).map fun m => 2 + m.length).sum ∧
      ∀ (f : ItchFile) (want more : ℕ),
        refillLoop split want (want + more) f = refillLoop split want want f := by
  have hunread : (ofStream stream).unread = stream := rfl
  obtain ⟨hmsgs, hframed, hbytes, -⟩ := @calls_spec split k (ofStream stream)
  rw [hunread] at hmsgs hframed hbytes
  refine ⟨hmsgs, ?_, ?_, fun f want more =>
    refillLoop_rounds more want f (Nat.le_add_left _ _)⟩
  · rw [hframed]
    exact Nat.zero_add _
  · rw [hbytes]
    exact Nat.zero_add _

/-- A message in three pieces, one of them inside its length. -/
example : (calls (fun k => k + 1) 2 (ofStream [0, 3, 0x41, 0x42, 0x43, 0, 0])).1
    = [some [0x41, 0x42, 0x43], none] := by decide

/-! ## A file that was cut off -/

/-- Nothing was returned, so all the frames had been. -/
theorem none_mem_calls {stream : List UInt8} {k : ℕ}
    (h : none ∈ (calls split k (ofStream stream)).1) : (frames stream).length < k := by
  by_contra hle
  rw [Nat.not_lt] at hle
  have hmsgs := (@calls_spec split k (ofStream stream)).1
  rw [show (ofStream stream).unread = stream from rfl] at hmsgs
  rw [hmsgs, List.take_append_of_le_length (by simpa using hle)] at h
  have hmem := List.mem_of_mem_take h
  simp at hmem

/-- **A file that was cut off is reported** once a call has returned nothing, at a place that is not
the end of a session, exactly when the file does not end one byte into a length. -/
theorem truncated_iff (stream : List UInt8) (split : ℕ → ℕ) (k : ℕ)
    (hend : none ∈ (calls split k (ofStream stream)).1)
    (hsession : ¬ EndsSession (leftover stream)) :
    ((calls split k (ofStream stream)).2.truncated ≠ 0 ↔ leftover stream ≠ []) ↔
      (leftover stream).length ≠ 1 := by
  have hunread : (ofStream stream).unread = stream := rfl
  have hk := none_mem_calls hend
  have htruncated := (@calls_spec split k (ofStream stream)).2.2.2
  rw [hunread, show (ofStream stream).truncated = 0 from rfl, Nat.zero_add] at htruncated
  -- what is left over holds no frame; past two bytes that is a frame cut off
  have hcut : BreaksOff (leftover stream) ↔ 2 ≤ (leftover stream).length :=
    ⟨fun h => h.1, fun h => ⟨h, headFrame_leftover stream, hsession⟩⟩
  -- so the counter has moved if and only if there are two bytes or more
  have hcount : (calls split k (ofStream stream)).2.truncated ≠ 0 ↔
      2 ≤ (leftover stream).length := by
    rw [htruncated, ← hcut]
    split
    · rename_i hb
      exact iff_of_true (by omega) hb
    · rename_i hb
      exact iff_of_false (by simp) hb
  rw [hcount, ← List.length_pos_iff_ne_nil]
  omega

/-- A file of one byte. -/
theorem not_truncated_oneByte :
    none ∈ (calls (fun _ => 1) 1 (ofStream [0])).1 ∧ ¬ EndsSession (leftover [0]) ∧
      ¬ ((calls (fun _ => 1) 1 (ofStream [0])).2.truncated ≠ 0 ↔ leftover [0] ≠ []) := by decide

/-- A file cut off inside its second message. -/
theorem truncated_iff_cutOff :
    ((calls (fun _ => 1) 2 (ofStream [0, 1, 0x41, 0, 3, 0x42])).2.truncated ≠ 0 ↔
      leftover [0, 1, 0x41, 0, 3, 0x42] ≠ []) ↔
      (leftover [0, 1, 0x41, 0, 3, 0x42]).length ≠ 1 :=
  truncated_iff [0, 1, 0x41, 0, 3, 0x42] (fun _ => 1) 2 (by decide) (by decide)

end Calls

end ItchFile

end Tickerplant
