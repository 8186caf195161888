import Tickerplant.Risk.Rate

/-!
# The ring over a whole run (`include/tick/risk.hpp`)

Whatever gaps lie between the recorded times, the ring never counts a slot of an earlier lap and
never misses a time of its ten buckets. A count of one bucket fits its slot; the sum of ten need
not fit the 32 bits it is added up in, and that is the only way in which `countAt` is wrong
(`countAt_exact_iff`).

A gap of a lap or more is where a ring of this kind goes wrong first, if it does: a slot that was
not written since still has its old count. Here it has its old bucket as well, and `live` looks at
that. The times are those of the whole run, so a gap is just two of them that are far apart.
-/

set_option autoImplicit false

namespace Tickerplant
namespace RateLimiter

/-- The limiter after `record` was called at each time. -/
def recordAll (times : List UInt64) : RateLimiter := times.foldl record {}

/-- The time lies in the ten whole buckets that end with the one of `now`. -/
def inTenBuckets (now t : UInt64) : Bool :=
  decide (bucketOf now ≤ bucketOf t + 9) && decide (bucketOf t ≤ bucketOf now)

variable {times : List UInt64} {now : UInt64}

/-- **Over a run** in order, with room in every bucket: the ring holds the recorded times. -/
theorem recordAll_counts (hordered : times.Pairwise (· ≤ ·))
    (hroom : ∀ b, (times.countP fun t => decide (bucketOf t = b)) < 2 ^ 32) :
    Counts (recordAll times) times.reverse := by
  induction times using List.reverseRecOn with
  | nil => exact counts_empty
  | append_singleton times now ih =>
    have hparts := List.pairwise_append.mp hordered
    have hbefore : ∀ t ∈ times.reverse, bucketOf t ≤ bucketOf now := fun t ht =>
      bucketOf_le (hparts.2.2 t (List.mem_reverse.mp ht) now List.mem_cons_self)
    have hcounts := ih hparts.1 fun b => by
      have := hroom b
      rw [List.countP_append] at this
      omega
    have hslot := hroom (bucketOf now)
    rw [List.countP_append, List.countP_singleton, if_pos (decide_eq_true rfl)] at hslot
    rw [recordAll, List.foldl_append, List.foldl_cons, List.foldl_nil, List.reverse_append,
      List.reverse_singleton, List.singleton_append]
    exact hcounts.record hbefore (by rwa [List.countP_reverse])

/-- What is counted at a later time, modulo the wrap of the sum. -/
theorem recordAll_countAt (hordered : times.Pairwise (· ≤ ·))
    (hroom : ∀ b, (times.countP fun t => decide (bucketOf t = b)) < 2 ^ 32)
    (hlater : ∀ t ∈ times, t ≤ now) :
    ((recordAll times).countAt now).toNat = times.countP (inTenBuckets now) % 2 ^ 32 := by
  have hbucket : ∀ t ∈ times.reverse, bucketOf t ≤ bucketOf now := fun t ht =>
    bucketOf_le (hlater t (List.mem_reverse.mp ht))
  have hring : times.reverse.countP (inRing now) = times.countP (inTenBuckets now) := by
    rw [List.countP_reverse]
    refine List.countP_congr fun t ht => ?_
    have hle := bucketOf_le (hlater t ht)
    rw [inRing, inTenBuckets, Bool.and_eq_true, decide_eq_true_iff, decide_eq_true_iff,
      decide_eq_true_iff]
    omega
  rw [countAt_mod (recordAll_counts hordered hroom) hbucket, hring]

/-- **The ring counts exactly what its buckets say** if and only if the ten together hold fewer
than `2 ^ 32`: for any times in order, no bucket of which overflows its own slot. -/
theorem countAt_exact_iff (times : List UInt64) (now : UInt64)
    (hordered : times.Pairwise (· ≤ ·))
    (hroom : ∀ b, (times.countP fun t => decide (bucketOf t = b)) < 2 ^ 32)
    (hlater : ∀ t ∈ times, t ≤ now) :
    ((recordAll times).countAt now).toNat = times.countP (inTenBuckets now) ↔
      times.countP (inTenBuckets now) < 2 ^ 32 := by
  rw [recordAll_countAt hordered hroom hlater]
  constructor
  · intro heq
    rw [← heq]
    exact Nat.mod_lt _ (by decide)
  · exact fun hlt => Nat.mod_eq_of_lt hlt

/-- Three messages and a gap of more than a lap before the last of them. -/
theorem countAt_exact_iff_gap :
    ((recordAll [50000000, 250000000, 2250000000]).countAt 2300000000).toNat =
      [50000000, 250000000, 2250000000].countP (inTenBuckets 2300000000) :=
  (countAt_exact_iff [50000000, 250000000, 2250000000] 2300000000 (by decide)
    (fun _ => Nat.lt_of_le_of_lt List.countP_le_length (by decide))
    (List.forall_mem_cons.mpr ⟨by decide, List.forall_mem_cons.mpr ⟨by decide,
      List.forall_mem_singleton.mpr (by decide)⟩⟩)).mpr (by decide)

/-! ## A sum that wraps -/

/-- `n` messages in each of the first two buckets. -/
def twoBuckets (n : ℕ) : List UInt64 := List.replicate n 0 ++ List.replicate n kBucketNs

/-- A count over the two is a count of each. -/
theorem countP_twoBuckets (n : ℕ) (p : UInt64 → Bool) :
    (twoBuckets n).countP p = (if p 0 then n else 0) + if p kBucketNs then n else 0 := by
  rw [twoBuckets, List.countP_append, List.countP_replicate, List.countP_replicate]

/-- There are no others. -/
theorem mem_twoBuckets {n : ℕ} {t : UInt64} (h : t ∈ twoBuckets n) : t = 0 ∨ t = kBucketNs := by
  rcases List.mem_append.mp h with h | h
  · exact .inl (List.eq_of_mem_replicate h)
  · exact .inr (List.eq_of_mem_replicate h)

/-- They are in order. -/
theorem twoBuckets_ordered (n : ℕ) : (twoBuckets n).Pairwise (· ≤ ·) := by
  refine List.pairwise_append.mpr ⟨?_, ?_, fun s hs t ht => ?_⟩
  · exact List.pairwise_replicate.mpr (.inr (by decide))
  · exact List.pairwise_replicate.mpr (.inr (by decide))
  · rw [List.eq_of_mem_replicate hs]
    exact UInt64.zero_le

/-- Each time is in one of the two buckets. -/
theorem twoBuckets_room {n : ℕ} (hn : n < 2 ^ 32) (b : ℕ) :
    ((twoBuckets n).countP fun t => decide (bucketOf t = b)) < 2 ^ 32 := by
  have hzero : bucketOf 0 = 0 := by decide
  have hone : bucketOf kBucketNs = 1 := by decide
  rw [countP_twoBuckets, hzero, hone]
  by_cases hb : 0 = b
  · rw [if_pos (decide_eq_true hb), if_neg (by rw [decide_eq_true_iff]; omega)]
    omega
  · rw [if_neg (by rw [decide_eq_true_iff]; exact hb)]
    split <;> omega

/-- **Half of `2 ^ 32` in each of two buckets**: each bucket has room, both are in the window, and
the limiter counts nothing. -/
theorem not_countAt_exact_twoBuckets :
    (twoBuckets (2 ^ 31)).Pairwise (· ≤ ·) ∧
      (∀ b, ((twoBuckets (2 ^ 31)).countP fun t => decide (bucketOf t = b)) < 2 ^ 32) ∧
      (∀ t ∈ twoBuckets (2 ^ 31), t ≤ kBucketNs) ∧
      (twoBuckets (2 ^ 31)).countP (inTenBuckets kBucketNs) = 2 ^ 32 ∧
      ((recordAll (twoBuckets (2 ^ 31))).countAt kBucketNs).toNat = 0 := by
  have hordered := twoBuckets_ordered (2 ^ 31)
  have hroom := twoBuckets_room (n := 2 ^ 31) (by decide)
  have hlater : ∀ t ∈ twoBuckets (2 ^ 31), t ≤ kBucketNs := by
    intro t ht
    rcases mem_twoBuckets ht with rfl | rfl <;> decide
  have hcount : (twoBuckets (2 ^ 31)).countP (inTenBuckets kBucketNs) = 2 ^ 32 := by
    rw [countP_twoBuckets, if_pos (by decide), if_pos (by decide)]
    omega
  refine ⟨hordered, hroom, hlater, hcount, ?_⟩
  rw [recordAll_countAt hordered hroom hlater, hcount, Nat.mod_self]

end RateLimiter
end Tickerplant
