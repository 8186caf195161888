import Mathlib.Algebra.BigOperators.Fin
import Mathlib.Data.Fintype.BigOperators
import Mathlib.Logic.Function.Basic
import Tickerplant.Lib.Word

/-!
# The message rate limiter (`include/tick/risk.hpp`)

A ring of ten buckets of a hundred milliseconds. A slot remembers which bucket it counts, so one
left over from an earlier lap is recognised and not counted.

`Counts` ties the ring to the times recorded. From it `countAt_eq`: the count is the number of
recorded times in the ten buckets that end with the current one. That is not the number in the last
second: the oldest bucket of a second that begins inside a bucket is already forgotten.

So what the limiter bounds is any ten buckets in a row (`Paced`), and a second that begins inside a
bucket touches eleven. The eleventh is the one `Remembered` is about: of two times in one second
the earlier one is forgotten only if it is ten buckets back, and where no two times of a run are
so, every second lies in ten buckets as far as its messages go (`Admitted.second`).

The caller asks before it records, with the same clock; `Admitted` is the runs of such a caller.
The latest time comes first in the lists here, as it does in the history.
-/

set_option autoImplicit false

namespace Tickerplant

/-- How many slots the ring has. -/
abbrev kBuckets : ℕ := 10
/-- A hundred milliseconds. -/
def kBucketNs : UInt64 := 100000000

/-- The ring: which bucket each slot counts, and how many messages of it. -/
structure RateLimiter where
  /-- The number of the bucket, counted from the beginning of the clock. -/
  index : Fin kBuckets → UInt64 := fun _ => 0
  count : Fin kBuckets → UInt32 := fun _ => 0

namespace RateLimiter

/-- The slot holds a bucket inside the window that ends with bucket `b`. -/
def live (l : RateLimiter) (b : UInt64) (i : Fin kBuckets) : Bool :=
  decide (l.index i ≤ b) && decide (b < l.index i + 10)

/-- `count_at`. -/
def countAt (l : RateLimiter) (now : UInt64) : UInt32 :=
  let b := now / kBucketNs
  (List.finRange kBuckets).foldl (fun n i => if l.live b i then n + l.count i else n) 0

/-- `record`: the slot of the current bucket counts one more, and starts over if it counted
another. -/
def record (l : RateLimiter) (now : UInt64) : RateLimiter :=
  let b := now / kBucketNs
  let slot := Fin.ofNat kBuckets (b % 10).toNat
  let l' := if l.index slot ≠ b then
      { index := Function.update l.index slot b, count := Function.update l.count slot 0 }
    else l
  { l' with count := Function.update l'.count slot (l'.count slot + 1) }

/-! ## Buckets -/

/-- The bucket a time falls in. -/
def bucketOf (t : UInt64) : ℕ := t.toNat / 100000000

/-- The slot of that bucket. -/
def slotOf (t : UInt64) : Fin kBuckets := Fin.ofNat kBuckets (bucketOf t)

/-- The code's division is this one. -/
theorem toNat_bucket (t : UInt64) : (t / kBucketNs).toNat = bucketOf t := UInt64.toNat_div _ _

/-- And so is its remainder. -/
theorem slot_eq (t : UInt64) : Fin.ofNat kBuckets (t / kBucketNs % 10).toNat = slotOf t := by
  refine Fin.ext ?_
  show (t / kBucketNs % 10).toNat % 10 = bucketOf t % 10
  rw [UInt64.toNat_mod, toNat_bucket]
  exact Nat.mod_mod _ _

/-- Two times share a slot when their buckets are a number of laps apart. -/
theorem slotOf_eq {s t : UInt64} : slotOf s = slotOf t ↔ bucketOf s % 10 = bucketOf t % 10 :=
  Fin.ext_iff

/-- No bucket is so late that ten more would wrap. -/
theorem bucketOf_lt (t : UInt64) : bucketOf t + 10 < 2 ^ 64 := by
  have := t.toNat_lt
  unfold bucketOf
  omega

/-! ## What the ring counts -/

/-- The ring holds the recorded times: each slot counts its latest bucket. -/
structure Counts (l : RateLimiter) (sent : List UInt64) : Prop where
  /-- A slot is never behind a time that falls in it. -/
  latest : ∀ t ∈ sent, bucketOf t ≤ (l.index (slotOf t)).toNat
  /-- It counts a bucket that was recorded, or none yet. -/
  seen : ∀ i, (l.index i).toNat ≠ 0 → ∃ t ∈ sent, slotOf t = i ∧ bucketOf t = (l.index i).toNat
  /-- And counts exactly the times of it. -/
  exact : ∀ i, (l.count i).toNat =
    sent.countP fun t => decide (slotOf t = i ∧ bucketOf t = (l.index i).toNat)

variable {l : RateLimiter} {sent : List UInt64} {now : UInt64}

/-- Nothing was recorded and nothing is counted. -/
theorem counts_empty : Counts {} [] where
  latest _ h := absurd h List.not_mem_nil
  seen _ h := absurd rfl h
  exact _ := rfl

/-- No slot is ahead of the clock. -/
theorem Counts.index_le (h : Counts l sent) (hle : ∀ t ∈ sent, bucketOf t ≤ bucketOf now)
    (i : Fin kBuckets) : (l.index i).toNat ≤ bucketOf now := by
  by_cases hzero : (l.index i).toNat = 0
  · omega
  · obtain ⟨t, ht, -, heq⟩ := h.seen i hzero
    exact heq ▸ hle t ht

/-- Only the slot of the time has its bucket changed. -/
theorem record_index (l : RateLimiter) (now : UInt64) (i : Fin kBuckets) :
    (l.record now).index i = if i = slotOf now then now / kBucketNs else l.index i := by
  simp only [record, slot_eq]
  by_cases hb : l.index (slotOf now) = now / kBucketNs
  · rw [if_neg (not_not_intro hb)]
    split
    case isTrue hi => rw [hi, hb]
    case isFalse => rfl
  · rw [if_pos hb]
    exact Function.update_apply _ _ _ _

/-- It counts one more, or the first of a new bucket. -/
theorem record_count_self (l : RateLimiter) (now : UInt64) :
    (l.record now).count (slotOf now) =
      (if l.index (slotOf now) = now / kBucketNs then l.count (slotOf now) else 0) + 1 := by
  simp only [record, slot_eq, Function.update_self]
  by_cases hb : l.index (slotOf now) = now / kBucketNs
  · rw [if_neg (not_not_intro hb), if_pos hb]
  · rw [if_pos hb, if_neg hb]
    exact congrArg (· + 1) (Function.update_self _ _ _)

/-- The others count what they did. -/
theorem record_count_ne (l : RateLimiter) {now : UInt64} {i : Fin kBuckets}
    (hi : i ≠ slotOf now) : (l.record now).count i = l.count i := by
  simp only [record, slot_eq, Function.update_of_ne hi]
  split
  · exact Function.update_of_ne hi _ _
  · rfl

/-- What the slot of the current bucket counts of it. -/
theorem Counts.current (h : Counts l sent) (hle : ∀ t ∈ sent, bucketOf t ≤ bucketOf now) :
    (if l.index (slotOf now) = now / kBucketNs then l.count (slotOf now) else 0).toNat =
      sent.countP fun t => decide (bucketOf t = bucketOf now) := by
  split
  case isTrue hb =>
    rw [h.exact]
    refine List.countP_congr fun t _ => ?_
    rw [hb, toNat_bucket, decide_eq_true_iff, decide_eq_true_iff]
    exact ⟨fun ht => ht.2, fun ht => ⟨slotOf_eq.mpr (by rw [ht]), ht⟩⟩
  case isFalse hb =>
    refine (List.countP_eq_zero.mpr fun t ht hbucket => ?_).symm
    -- the slot would have moved on to the bucket
    have hbucket : bucketOf t = bucketOf now := of_decide_eq_true hbucket
    have hslot : slotOf t = slotOf now := slotOf_eq.mpr (by rw [hbucket])
    have hlatest := hslot ▸ h.latest t ht
    have hindex := h.index_le hle (slotOf now)
    exact hb (UInt64.toNat_inj.mp (by rw [toNat_bucket]; omega))

/-- One more recorded time, not before the others. -/
theorem Counts.record (h : Counts l sent) (hle : ∀ t ∈ sent, bucketOf t ≤ bucketOf now)
    (hroom : (sent.countP fun t => decide (bucketOf t = bucketOf now)) + 1 < 2 ^ 32) :
    Counts (l.record now) (now :: sent) where
  latest t ht := by
    rw [record_index]
    split
    case isTrue =>
      rw [toNat_bucket]
      rcases List.mem_cons.mp ht with rfl | ht
      · exact Nat.le_refl _
      · exact hle t ht
    case isFalse hslot =>
      rcases List.mem_cons.mp ht with rfl | ht
      · exact absurd rfl hslot
      · exact h.latest t ht
  seen i := by
    rw [record_index]
    split
    case isTrue hi => exact fun _ => ⟨now, List.mem_cons_self, hi.symm, (toNat_bucket now).symm⟩
    case isFalse =>
      intro hne
      obtain ⟨t, ht, htime⟩ := h.seen i hne
      exact ⟨t, List.mem_cons_of_mem now ht, htime⟩
  exact i := by
    rw [List.countP_cons, record_index]
    -- the slot of the time, whose earlier laps have been forgotten, and every other one
    by_cases hi : i = slotOf now
    · subst hi
      have hcurrent := h.current hle
      have hsame : (sent.countP fun t => decide (slotOf t = slotOf now ∧
          bucketOf t = (now / kBucketNs).toNat)) =
          sent.countP fun t => decide (bucketOf t = bucketOf now) := by
        refine List.countP_congr fun t _ => ?_
        rw [toNat_bucket, decide_eq_true_iff, decide_eq_true_iff]
        exact ⟨fun ht => ht.2, fun ht => ⟨slotOf_eq.mpr (by rw [ht]), ht⟩⟩
      rw [if_pos rfl, hsame, record_count_self, UInt32.toNat_add, hcurrent, toNat_bucket]
      simp only [true_and, decide_true, if_true]
      exact Nat.mod_eq_of_lt hroom
    · have hne : ¬(slotOf now = i ∧ bucketOf now = (l.index i).toNat) := fun h => hi h.1.symm
      rw [if_neg hi, record_count_ne l hi, h.exact, decide_eq_false hne]
      simp

/-! ## The count -/

/-- A count over all elements, by what each belongs to. -/
theorem sum_countP_fiber {α ι : Type} [Fintype ι] [DecidableEq ι] (f : α → ι) (p : α → Bool)
    (xs : List α) : ∑ i, xs.countP (fun x => decide (f x = i) && p x) = xs.countP p := by
  induction xs with
  | nil => exact Finset.sum_const_zero
  | cons x rest ih =>
    simp only [List.countP_cons, Finset.sum_add_distrib, ih]
    cases p x <;> simp

/-- The ten buckets that end with the current one. -/
def inRing (now t : UInt64) : Bool := decide (bucketOf now < bucketOf t + 10)

/-- A live slot counts all its recorded times in the ring, and a slot that is not live has
none. -/
theorem Counts.slot (h : Counts l sent) (hle : ∀ t ∈ sent, bucketOf t ≤ bucketOf now)
    (i : Fin kBuckets) : (if l.live (now / kBucketNs) i then (l.count i).toNat else 0) =
      sent.countP fun t => decide (slotOf t = i) && inRing now t := by
  have hindex := h.index_le hle i
  have hlive : l.live (now / kBucketNs) i = true ↔ bucketOf now < (l.index i).toNat + 10 := by
    have hadd : (l.index i + 10).toNat = (l.index i).toNat + 10 :=
      Lib.toNat_add_ofNat (n := 10) (by have := bucketOf_lt now; omega)
    rw [live, Bool.and_eq_true, decide_eq_true_iff, decide_eq_true_iff, UInt64.le_iff_toNat_le,
      UInt64.lt_iff_toNat_lt, hadd, toNat_bucket]
    exact ⟨fun h => h.2, fun h => ⟨hindex, h⟩⟩
  -- in one slot, the ring has room for one bucket
  have hone : ∀ t ∈ sent, slotOf t = i → bucketOf now < bucketOf t + 10 →
      bucketOf t = (l.index i).toNat := by
    intro t ht hslot hring
    have hlatest := hslot ▸ h.latest t ht
    by_cases hzero : (l.index i).toNat = 0
    · omega
    · obtain ⟨t', _, hslot', hbucket'⟩ := h.seen i hzero
      have hmod : bucketOf t % 10 = bucketOf t' % 10 := slotOf_eq.mp (hslot.trans hslot'.symm)
      omega
  by_cases hl : bucketOf now < (l.index i).toNat + 10
  · rw [if_pos (hlive.mpr hl), h.exact]
    refine List.countP_congr fun t ht => ?_
    rw [Bool.and_eq_true, inRing, decide_eq_true_iff, decide_eq_true_iff, decide_eq_true_iff]
    exact ⟨fun hin => ⟨hin.1, hin.2 ▸ hl⟩, fun hin => ⟨hin.1, hone t ht hin.1 hin.2⟩⟩
  · rw [if_neg fun h => hl (hlive.mp h)]
    refine (List.countP_eq_zero.mpr fun t ht hin => hl ?_).symm
    rw [Bool.and_eq_true, inRing, decide_eq_true_iff, decide_eq_true_iff] at hin
    exact hone t ht hin.1 hin.2 ▸ hin.2

/-- The loop's sum, modulo its wrap. -/
theorem foldl_toNat (l : RateLimiter) (b : UInt64) (slots : List (Fin kBuckets)) (n : UInt32) :
    (slots.foldl (fun n i => if l.live b i then n + l.count i else n) n).toNat =
      (n.toNat + (slots.map fun i => if l.live b i then (l.count i).toNat else 0).sum) %
        2 ^ 32 := by
  induction slots generalizing n with
  | nil => exact (Nat.mod_eq_of_lt n.toNat_lt).symm
  | cons i rest ih =>
    rw [List.foldl_cons, List.map_cons, List.sum_cons]
    split
    case isTrue =>
      rw [ih, UInt32.toNat_add, Nat.mod_add_mod, Nat.add_assoc]
    case isFalse =>
      rw [ih, Nat.zero_add]

/-- The count is the number of recorded times in the ten buckets that end with the current one,
as far as 32 bits go. -/
theorem countAt_mod (h : Counts l sent) (hle : ∀ t ∈ sent, bucketOf t ≤ bucketOf now) :
    (l.countAt now).toNat = sent.countP (inRing now) % 2 ^ 32 := by
  have hsum : ((List.finRange kBuckets).map fun i =>
      if l.live (now / kBucketNs) i then (l.count i).toNat else 0).sum =
      sent.countP (inRing now) := by
    rw [← List.ofFn_eq_map, List.sum_ofFn, ← sum_countP_fiber slotOf]
    exact Finset.sum_congr rfl fun i _ => h.slot hle i
  have hfold := foldl_toNat l (now / kBucketNs) (List.finRange kBuckets) 0
  rwa [hsum, UInt32.toNat_zero, Nat.zero_add] at hfold

/-- **The count** is the number of recorded times in the ten buckets that end with the current
one. -/
theorem countAt_eq (h : Counts l sent) (hle : ∀ t ∈ sent, bucketOf t ≤ bucketOf now)
    (hroom : sent.countP (inRing now) < 2 ^ 32) :
    (l.countAt now).toNat = sent.countP (inRing now) := by
  rw [countAt_mod h hle, Nat.mod_eq_of_lt hroom]

/-! ## A second -/

/-- The times recorded in the second that begins with `t`. -/
def inSecond (t : ℕ) (s : UInt64) : Bool := decide (t ≤ s.toNat) && decide (s.toNat < t + 10 ^ 9)

/-- Of two recorded times the ring has forgotten the earlier one only after a second: ten buckets
back is a second back. -/
def Remembered (later earlier : UInt64) : Prop :=
  bucketOf earlier + 10 = bucketOf later → earlier.toNat + 10 ^ 9 ≤ later.toNat

instance (later earlier : UInt64) : Decidable (Remembered later earlier) :=
  inferInstanceAs (Decidable (_ → _))

/-- Times recorded by a caller that asks first: in order, and each while the count is below the
limit. The latest comes first. -/
inductive Admitted (limit : UInt32) : RateLimiter → List UInt64 → Prop where
  /-- Nothing was sent yet. -/
  | start : Admitted limit {} []
  /-- The count was below the limit when it was asked for. -/
  | send {l : RateLimiter} {sent : List UInt64} {now : UInt64} : Admitted limit l sent →
      (∀ t ∈ sent, t ≤ now) → l.countAt now < limit → Admitted limit (l.record now) (now :: sent)

/-- Later times are in later buckets. -/
theorem bucketOf_le {s t : UInt64} (h : s ≤ t) : bucketOf s ≤ bucketOf t :=
  Nat.div_le_div_right (UInt64.le_iff_toNat_le.mp h)

/-- What the limiter keeps: no ten buckets hold more than the limit. -/
structure Paced (limit : UInt32) (l : RateLimiter) (sent : List UInt64) : Prop where
  /-- The ring holds the recorded times. -/
  counts : Counts l sent
  /-- Wherever the ten buckets begin. -/
  ring : ∀ b, (sent.countP fun t => decide (bucketOf t ≤ b ∧ b < bucketOf t + 10)) ≤ limit.toNat

section Admitted

variable {limit : UInt32}

/-- A caller that may send sees the true count, and it is below the limit. -/
theorem Paced.count_lt (h : Paced limit l sent) (hle : ∀ t ∈ sent, t ≤ now)
    (hpass : l.countAt now < limit) : sent.countP (inRing now) < limit.toNat := by
  have hbucket : ∀ t ∈ sent, bucketOf t ≤ bucketOf now := fun t ht => bucketOf_le (hle t ht)
  have hring : sent.countP (inRing now) ≤ limit.toNat := by
    refine Nat.le_trans (Nat.le_of_eq (List.countP_congr fun t ht => ?_)) (h.ring (bucketOf now))
    rw [inRing, decide_eq_true_iff, decide_eq_true_iff]
    exact ⟨fun hin => ⟨hbucket t ht, hin⟩, fun hin => hin.2⟩
  have hcount := countAt_eq h.counts hbucket (Nat.lt_of_le_of_lt hring limit.toNat_lt)
  exact hcount ▸ UInt32.lt_iff_toNat_lt.mp hpass

/-- One more message leaves no ten buckets too full: those that contain it end with it. -/
theorem Paced.send (h : Paced limit l sent) (hle : ∀ t ∈ sent, t ≤ now)
    (hpass : l.countAt now < limit) : Paced limit (l.record now) (now :: sent) := by
  have hbucket : ∀ t ∈ sent, bucketOf t ≤ bucketOf now := fun t ht => bucketOf_le (hle t ht)
  have hlt := h.count_lt hle hpass
  have hlimit := limit.toNat_lt
  refine ⟨h.counts.record hbucket ?_, fun b => ?_⟩
  · have hsub : (sent.countP fun t => decide (bucketOf t = bucketOf now)) ≤
        sent.countP (inRing now) := by
      refine List.countP_mono_left fun t _ ht => ?_
      rw [decide_eq_true_iff] at ht
      exact decide_eq_true (by omega)
    omega
  · rw [List.countP_cons]
    by_cases hin : bucketOf now ≤ b ∧ b < bucketOf now + 10
    · -- what is in these buckets is in the ring of the time sent
      have hsub : (sent.countP fun t => decide (bucketOf t ≤ b ∧ b < bucketOf t + 10)) ≤
          sent.countP (inRing now) := by
        refine List.countP_mono_left fun t _ ht => ?_
        rw [decide_eq_true_iff] at ht
        exact decide_eq_true (by omega)
      rw [decide_eq_true hin, if_pos rfl]
      omega
    · rw [decide_eq_false hin, if_neg Bool.false_ne_true]
      exact h.ring b

/-- So it is for a caller that asks first. -/
theorem Admitted.paced (h : Admitted limit l sent) : Paced limit l sent := by
  induction h with
  | start => exact ⟨counts_empty, fun _ => Nat.zero_le _⟩
  | send _ hle hpass ih => exact ih.send hle hpass

/-- **No second holds more than the limit**, as long as nothing less than a second old has been
forgotten. -/
theorem Admitted.second (h : Admitted limit l sent) (hrem : sent.Pairwise Remembered) (t : ℕ) :
    sent.countP (inSecond t) ≤ limit.toNat := by
  induction h with
  | start => exact Nat.zero_le _
  | @send l sent now hsent hle hpass ih =>
    obtain ⟨hnow, hrem⟩ := List.pairwise_cons.mp hrem
    rw [List.countP_cons]
    by_cases hin : inSecond t now = true
    · have hlt := hsent.paced.count_lt hle hpass
      have hsub : sent.countP (inSecond t) ≤ sent.countP (inRing now) := by
        refine List.countP_mono_left fun s hs hsecond => ?_
        rw [inSecond, Bool.and_eq_true, decide_eq_true_iff, decide_eq_true_iff] at hin hsecond
        have hclose : s.toNat ≤ now.toNat := UInt64.le_iff_toNat_le.mp (hle s hs)
        have hremember := hnow s hs
        refine decide_eq_true ?_
        unfold Remembered bucketOf at hremember
        unfold bucketOf
        omega
      rw [if_pos hin]
      omega
    · rw [if_neg hin]
      exact ih hrem

end Admitted

end RateLimiter
end Tickerplant
