import Mathlib.Algebra.Order.Group.Abs
import Mathlib.Algebra.Order.Ring.Int
import Tickerplant.Lib.Word

/-!
# Kernel stamps on the monotonic base (`include/tick/clock.hpp`, `include/tick/udp_socket.hpp`)

The kernel stamps a datagram with the realtime clock, and everything else is measured on the
monotonic one. One offset converts the first to the second. It is read off sixteen sandwiches, a
realtime reading between two monotonic ones, and the tightest of them is kept.

How far realtime is ahead of the monotonic clock is nothing the program can know: it is a number
for each sandwich here, and another one for the moment of the stamp, since the clock may have been
slewed or stepped in between. `stamps_near` says what the conversion is worth in these terms.

A sandwich says where realtime stood between two moments of the monotonic clock. Its middle is the
best guess, and half its span is what the guess may be off by: that is why the tightest one is
kept, and why the thread being put to sleep in one sandwich does no harm as long as it is not
asleep in all sixteen. A monotonic clock that goes backwards gives no sandwich at all.

The offset is a signed word and the clocks are unsigned ones. The differences are taken in the
signed half of the type, where they are exact as long as both clocks are below `2 ^ 63`, which is
some three hundred years of nanoseconds.
-/

set_option autoImplicit false

namespace Tickerplant

open Lib

/-! ## The offset -/

/-- A realtime reading between two monotonic ones. -/
structure ClockSample where
  m0 : UInt64
  r : UInt64
  m1 : UInt64
  deriving DecidableEq, Repr

namespace ClockSample

/-- How long the sandwich took. -/
def span (c : ClockSample) : UInt64 := c.m1 - c.m0

/-- Halfway, with nothing added up that could overflow. -/
def mid (c : ClockSample) : UInt64 := c.m0 / 2 + c.m1 / 2 + (c.m0 % 2 + c.m1 % 2) / 2

/-- How far realtime seems to be ahead. -/
def offset (c : ClockSample) : Int64 := c.r.toInt64 - c.mid.toInt64

end ClockSample

/-- `best_offset` and `best_span`. -/
structure BestSample where
  offset : Int64 := 0
  span : UInt64 := 0xFFFFFFFFFFFFFFFF
  deriving DecidableEq, Repr

/-- A tighter sandwich takes the place of the one kept; one that went backwards is skipped. -/
def BestSample.take (b : BestSample) (c : ClockSample) : BestSample :=
  if c.m1 < c.m0 then b
  else if c.span < b.span then { offset := c.offset, span := c.span }
  else b

/-- What the first use comes to: sixteen samples, the tightest kept. -/
def realtimeToMonotonicOffsetNs (read : ℕ → ClockSample) : Int64 :=
  ((List.range 16).foldl (fun b i => b.take (read i)) ({} : BestSample)).offset

/-- Realtime, put on the monotonic base. -/
def realtimeNsToMonotonic (offset : Int64) (realtimeNs : UInt64) : UInt64 :=
  (realtimeNs.toInt64 - offset).toUInt64

/-- Zero is no stamp, and stays zero. -/
def kernelRealtimeToMonoNs (offset : Int64) (realtimeNs : UInt64) : UInt64 :=
  if realtimeNs = 0 then 0 else realtimeNsToMonotonic offset realtimeNs

/-! ## Control messages -/

/-- A control message, with what the time at the front of its payload says: the seconds, and what
comes after them in nanoseconds or microseconds. -/
structure ControlMessage where
  level : ℕ
  type : ℕ
  sec : UInt64
  sub : UInt64
  deriving DecidableEq, Repr

/-- The level at which the kernel attaches its stamps. -/
def SOL_SOCKET : ℕ := 1
/-- Seconds and microseconds. -/
def SCM_TIMESTAMP : ℕ := 29
/-- Seconds and nanoseconds. -/
def SCM_TIMESTAMPNS : ℕ := 35
/-- Three stamps, of which the first is the software one: seconds and nanoseconds. -/
def SCM_TIMESTAMPING : ℕ := 37

/-- The realtime a control message carries, if it is one that does. -/
def ControlMessage.realtimeNs (cm : ControlMessage) : Option UInt64 :=
  if cm.level ≠ SOL_SOCKET then none
  else if cm.type = SCM_TIMESTAMPING then some (cm.sec * 1000000000 + cm.sub)
  else if cm.type = SCM_TIMESTAMPNS then some (cm.sec * 1000000000 + cm.sub)
  else if cm.type = SCM_TIMESTAMP then some (cm.sec * 1000000000 + cm.sub * 1000)
  else none

/-- The walk over the control buffer, which stops at the first stamp. -/
def rxTimestampNs (offset : Int64) : List ControlMessage → UInt64
  | [] => 0
  | cm :: rest =>
    match cm.realtimeNs with
    | some rt => kernelRealtimeToMonoNs offset rt
    | none => rxTimestampNs offset rest

/-- The first stamp a control buffer carries. -/
def stampOf (control : List ControlMessage) : Option UInt64 := control.findSome? (·.realtimeNs)

/-- The walk converts the first stamp it meets; without one there is none. -/
theorem rxTimestampNs_eq (offset : Int64) (control : List ControlMessage) :
    rxTimestampNs offset control =
      ((stampOf control).map (kernelRealtimeToMonoNs offset)).getD 0 := by
  induction control with
  | nil => rfl
  | cons cm rest ih =>
    unfold rxTimestampNs stampOf
    rw [List.findSome?_cons]
    cases cm.realtimeNs with
    | some rt => rfl
    | none => exact ih

/-! ## What a sandwich is worth -/

/-- The sample was read while realtime was `ahead` of the monotonic clock. The two clocks stay
below half of what their type holds. -/
structure ReadAhead (ahead : ℤ) (c : ClockSample) : Prop where
  /-- Realtime was read after the first monotonic reading. -/
  after : (c.m0.toNat : ℤ) ≤ c.r.toNat - ahead
  /-- And before the second. -/
  before : (c.r.toNat : ℤ) - ahead ≤ c.m1.toNat
  realtime : c.r.toNat < 2 ^ 63
  monotonic : c.m1.toNat < 2 ^ 63

namespace ClockSample

variable {c : ClockSample}

/-- A sandwich that went forward has an honest span. -/
theorem toNat_span (h : ¬ c.m1 < c.m0) : c.span.toNat = c.m1.toNat - c.m0.toNat :=
  UInt64.toNat_sub_of_le _ _ (UInt64.not_lt.mp h)

/-- Halving before adding loses nothing but the half. -/
theorem toNat_mid (c : ClockSample) : c.mid.toNat = (c.m0.toNat + c.m1.toNat) / 2 := by
  have h0 := c.m0.toNat_lt
  have h1 := c.m1.toNat_lt
  have htwo : (2 : UInt64).toNat = 2 := rfl
  simp only [mid, UInt64.toNat_add, UInt64.toNat_div, UInt64.toNat_mod, htwo]
  omega

/-- Below `2 ^ 63` the difference is what it says. -/
theorem toInt_offset {ahead : ℤ} (h : ReadAhead ahead c) (hfwd : ¬ c.m1 < c.m0) :
    c.offset.toInt = c.r.toNat - ((c.m0.toNat + c.m1.toNat) / 2 : ℕ) := by
  have hr := h.realtime
  have hm := h.monotonic
  have hle := UInt64.le_iff_toNat_le.mp (UInt64.not_lt.mp hfwd)
  have hmid : c.mid.toNat < 2 ^ 63 := by
    rw [toNat_mid]
    omega
  rw [offset, Int64.toInt_sub, toInt_toInt64 hr, toInt_toInt64 hmid, toNat_mid,
    Int.bmod_eq_of_le] <;> omega

/-- **A sandwich** is off by half its span at most. -/
theorem offset_near {ahead : ℤ} (h : ReadAhead ahead c) (hfwd : ¬ c.m1 < c.m0) :
    |c.offset.toInt - ahead| ≤ (c.span.toNat + 1) / 2 := by
  have hafter := h.after
  have hbefore := h.before
  rw [toInt_offset h hfwd, toNat_span hfwd, abs_le]
  have hle := UInt64.le_iff_toNat_le.mp (UInt64.not_lt.mp hfwd)
  omega

end ClockSample

/-! ## The tightest one -/

/-- What is kept after some samples: one of those that went forward, and none of them was
tighter. Nothing is kept while there was none. -/
structure BestSample.Of (read : ℕ → ClockSample) (n : ℕ) (b : BestSample) : Prop where
  /-- One that went forward, and none that went forward was tighter. -/
  some_kept : (∃ i < n, ¬ (read i).m1 < (read i).m0) →
    ∃ i < n, ¬ (read i).m1 < (read i).m0 ∧ b.offset = (read i).offset ∧ b.span = (read i).span ∧
      ∀ j < n, ¬ (read j).m1 < (read j).m0 → (read i).span ≤ (read j).span
  /-- The first one that goes forward is always tighter than nothing. -/
  none_kept : (¬ ∃ i < n, ¬ (read i).m1 < (read i).m0) → b = {}

/-- One more sample. Its span is no span a sample cannot beat. -/
theorem BestSample.Of.take {read : ℕ → ClockSample} {n : ℕ} {b : BestSample}
    (h : b.Of read n) (hspan : ¬ (read n).m1 < (read n).m0 → (read n).m1.toNat < 2 ^ 63) :
    (b.take (read n)).Of read (n + 1) := by
  unfold BestSample.take
  by_cases hback : (read n).m1 < (read n).m0
  · -- a clock that went backwards is not a sample
    have hold : (∃ i < n + 1, ¬ (read i).m1 < (read i).m0) →
        ∃ i < n, ¬ (read i).m1 < (read i).m0 := by
      rintro ⟨i, hi, hfwd⟩
      rcases Nat.lt_succ_iff_lt_or_eq.mp hi with hi | rfl
      · exact ⟨i, hi, hfwd⟩
      · exact absurd hback hfwd
    rw [if_pos hback]
    refine ⟨fun hex => ?_, fun hno => h.none_kept fun ⟨i, hi, hfwd⟩ => hno ⟨i, by omega, hfwd⟩⟩
    obtain ⟨i, hi, hfwd, hoff, hsp, hmin⟩ := h.some_kept (hold hex)
    refine ⟨i, by omega, hfwd, hoff, hsp, fun j hj hj' => ?_⟩
    rcases Nat.lt_succ_iff_lt_or_eq.mp hj with hj | rfl
    · exact hmin j hj hj'
    · exact absurd hback hj'
  · rw [if_neg hback]
    have hno : ¬ ¬ ∃ i < n + 1, ¬ (read i).m1 < (read i).m0 := fun h => h ⟨n, by omega, hback⟩
    by_cases hold : ∃ i < n, ¬ (read i).m1 < (read i).m0
    · obtain ⟨i, hi, hfwd, hoff, hsp, hmin⟩ := h.some_kept hold
      by_cases hlt : (read n).span < b.span
      · rw [if_pos hlt]
        refine ⟨fun _ => ⟨n, by omega, hback, rfl, rfl, fun j hj hj' => ?_⟩, fun h => absurd h hno⟩
        rcases Nat.lt_succ_iff_lt_or_eq.mp hj with hj | rfl
        · exact UInt64.le_trans (UInt64.le_of_lt (hsp ▸ hlt)) (hmin j hj hj')
        · exact UInt64.le_refl _
      · rw [if_neg hlt]
        refine ⟨fun _ => ⟨i, by omega, hfwd, hoff, hsp, fun j hj hj' => ?_⟩, fun h => absurd h hno⟩
        rcases Nat.lt_succ_iff_lt_or_eq.mp hj with hj | rfl
        · exact hmin j hj hj'
        · exact UInt64.not_lt.mp (hsp ▸ hlt)
    · -- the first one that went forward
      have hlt : (read n).span < b.span := by
        have hm := hspan hback
        rw [h.none_kept hold, UInt64.lt_iff_toNat_lt, ClockSample.toNat_span hback]
        show _ < 2 ^ 64 - 1
        omega
      rw [if_pos hlt]
      refine ⟨fun _ => ⟨n, by omega, hback, rfl, rfl, fun j hj hj' => ?_⟩, fun h => absurd h hno⟩
      rcases Nat.lt_succ_iff_lt_or_eq.mp hj with hj | rfl
      · exact absurd ⟨j, hj, hj'⟩ hold
      · exact UInt64.le_refl _

/-- Any number of samples. -/
theorem bestSample_of (read : ℕ → ClockSample) (n : ℕ)
    (hspan : ∀ i < n, ¬ (read i).m1 < (read i).m0 → (read i).m1.toNat < 2 ^ 63) :
    ((List.range n).foldl (fun b i => b.take (read i)) ({} : BestSample)).Of read n := by
  induction n with
  | zero => exact ⟨fun ⟨_, hi, _⟩ => absurd hi (Nat.not_lt_zero _), fun _ => rfl⟩
  | succ n ih =>
    rw [List.range_succ, List.foldl_append, List.foldl_cons, List.foldl_nil]
    exact (ih fun i hi => hspan i (by omega)).take (hspan n (by omega))

/-! ## What a stamp is worth -/

/-- The conversion is exact about the offset it is given. -/
theorem toNat_realtimeNsToMonotonic {offset : Int64} {rt : UInt64} (hrt : rt.toNat < 2 ^ 63)
    (hlo : 0 ≤ (rt.toNat : ℤ) - offset.toInt) (hhi : (rt.toNat : ℤ) - offset.toInt < 2 ^ 63) :
    ((realtimeNsToMonotonic offset rt).toNat : ℤ) = rt.toNat - offset.toInt := by
  have hsub : (rt.toInt64 - offset).toInt = rt.toNat - offset.toInt := by
    rw [Int64.toInt_sub, toInt_toInt64 hrt, Int.bmod_eq_of_le] <;> omega
  rw [realtimeNsToMonotonic, toNat_toUInt64_of_nonneg (by rw [hsub]; exact hlo), hsub]

/-- **Stamps are near the truth**. The offset is that of a sample no other was tighter than. A
datagram the kernel stamped is put where the monotonic clock stood then, but for half of that
sample's span and what realtime was moved by in between; one without a stamp is given none. The
two bounds on `mono` keep what the conversion may come to within the signed half of the clock,
where none of its differences wraps. -/
theorem stamps_near (read : ℕ → ClockSample) (ahead : ℕ → ℤ)
    (hread : ∀ i < 16, ¬ (read i).m1 < (read i).m0 → ReadAhead (ahead i) (read i))
    (hsome : ∃ i < 16, ¬ (read i).m1 < (read i).m0) :
    ∃ i < 16, ¬ (read i).m1 < (read i).m0 ∧
      realtimeToMonotonicOffsetNs read = (read i).offset ∧
      (∀ j < 16, ¬ (read j).m1 < (read j).m0 → (read i).span ≤ (read j).span) ∧
      ∀ control : List ControlMessage,
        (stampOf control = none →
          rxTimestampNs (realtimeToMonotonicOffsetNs read) control = 0) ∧
        ∀ (rt : UInt64) (mono : ℕ) (err : ℤ), stampOf control = some rt → rt ≠ 0 →
          rt.toNat < 2 ^ 63 →
          err = (((read i).span.toNat + 1) / 2 : ℕ) + |(rt.toNat : ℤ) - mono - ahead i| →
          err ≤ mono → mono + err < 2 ^ 63 →
          |((rxTimestampNs (realtimeToMonotonicOffsetNs read) control).toNat : ℤ) - mono|
            ≤ err := by
  obtain ⟨i, hi, hfwd, hoff, -, hmin⟩ :=
    (bestSample_of read 16 fun i hi hfwd => (hread i hi hfwd).monotonic).some_kept hsome
  refine ⟨i, hi, hfwd, hoff, hmin, fun control => ⟨fun hnone => ?_, ?_⟩⟩
  · rw [rxTimestampNs_eq, hnone]
    rfl
  · intro rt mono err hstamp hzero hrt herr hlo hhi
    have hnear := ClockSample.offset_near (hread i hi hfwd) hfwd
    rw [← hoff] at hnear
    rw [rxTimestampNs_eq, hstamp, Option.map_some, Option.getD_some, kernelRealtimeToMonoNs,
      if_neg hzero, realtimeToMonotonicOffsetNs]
    generalize ((List.range 16).foldl (fun b i => b.take (read i)) ({} : BestSample)).offset = o
      at hnear ⊢
    have hcast : (((read i).span.toNat + 1) / 2 : ℕ) = ((read i).span.toNat + 1 : ℤ) / 2 := by
      omega
    have hmoved := abs_le.mp (le_refl |(rt.toNat : ℤ) - mono - ahead i|)
    have hhalf := abs_le.mp hnear
    rw [toNat_realtimeNsToMonotonic hrt (by omega) (by omega), abs_le]
    omega

/-- The thread was away for four milliseconds in the fourth sandwich, and a clock went backwards in
the sixth. -/
def sixteenSamples (i : ℕ) : ClockSample :=
  if i = 3 then { m0 := 5000000, r := 1000009000000, m1 := 9000000 }
  else if i = 5 then { m0 := 7000000, r := 1000007000000, m1 := 6999999 }
  else
    { m0 := UInt64.ofNat (1000 * i), r := UInt64.ofNat (1000000000040 + 1000 * i),
      m1 := UInt64.ofNat (1000 * i + 100) }

theorem stamps_near_sixteenSamples :
    |((rxTimestampNs (realtimeToMonotonicOffsetNs sixteenSamples)
        [{ level := 0, type := 8, sec := 0, sub := 0 },
          { level := SOL_SOCKET, type := SCM_TIMESTAMPING, sec := 1000, sub := 50000 }]).toNat : ℤ)
      - 50000| ≤ 50 := by
  have hread : ∀ i < 16, ¬ (sixteenSamples i).m1 < (sixteenSamples i).m0 →
      ReadAhead 1000000000000 (sixteenSamples i) := by
    intro i hi hfwd
    unfold sixteenSamples at hfwd ⊢
    split at hfwd
    · rw [if_pos ‹_›]
      exact ⟨by decide, by decide, by decide, by decide⟩
    · rw [if_neg ‹_›]
      split at hfwd
      · exact absurd (by decide) hfwd
      · rw [if_neg ‹_›]
        constructor <;> simp (disch := omega) only [UInt64.toNat_ofNat', Nat.mod_eq_of_lt] <;> omega
  obtain ⟨i, hi, hfwd, -, hmin, hstamps⟩ :=
    stamps_near sixteenSamples (fun _ => 1000000000000) hread ⟨0, by omega, by decide⟩
  have hspan : (sixteenSamples i).span.toNat ≤ 100 :=
    UInt64.le_iff_toNat_le.mp (hmin 0 (by omega) (by decide))
  have hnear := (hstamps [{ level := 0, type := 8, sec := 0, sub := 0 },
      { level := SOL_SOCKET, type := SCM_TIMESTAMPING, sec := 1000, sub := 50000 }]).2
    1000000050000 50000 (((sixteenSamples i).span.toNat + 1) / 2 : ℕ) rfl (by decide) (by decide)
    (by simp) (by omega) (by omega)
  exact hnear.trans (by omega)

end Tickerplant
