import Tickerplant.Lib.Backoff
import Tickerplant.Lib.Trace
import Tickerplant.Recovery.Client

/-!
# When a missing range is asked for again

An entry says when it was last sent and how often, but not when before. A `Timetable` carries the
times beside each entry, through every trim of it, and keeps the entries that were given up on with
the time of that. It makes the same two passes over its entries as `next_request` does
(`requestTracked_eq`), so its record is one of the requests the client returned.

`OnSchedule` is the invariant of one entry: its attempts are the sends recorded, the last of them
is the one it remembers, and its timeout is what the schedule says comes after so many. The
schedule itself is a function of the number of sends (`UsableConfig.wait`, doubling up to a
ceiling), and what it is to be spaced by one is the library's (`Spaced`): a further send keeps it
if it comes when the last one has been waited out.

The clock is a 64-bit word, and an entry expires when the time of its last send plus its timeout is
reached. `InTime` keeps that sum from wrapping. It is bounded by the longest wait the attempts
allow, so a ceiling that the doubling never gets to asks for nothing.
-/

set_option autoImplicit false

namespace Tickerplant

open Lib Trace

/-- An entry, and when it was sent, oldest first. -/
structure TrackedEntry where
  entry : RecoveryEntry
  /-- The times of `next_request` at which it was returned. -/
  sends : List ℕ := []
  deriving DecidableEq

/-- The client, with the record of what was sent when. -/
structure Timetable where
  client : RecoveryClient
  tracked : List TrackedEntry := []
  /-- What was given up on, and when. -/
  abandoned : List (TrackedEntry × ℕ) := []
  deriving DecidableEq

/-- How long to wait after so many sends. -/
def UsableConfig.wait (c : UsableConfig) : ℕ → ℕ :=
  delay c.initialTimeoutNs.toNat c.maxTimeoutNs.toNat

/-- The wait after the last send there may be. A ceiling no doubling gets to does not count. -/
def UsableConfig.longestWait (c : UsableConfig) : ℕ := c.wait c.maxAttempts.toNat

namespace Timetable

section Passes

variable (c : UsableConfig) (nowNs : UInt64)

/-- The first loop of `next_request`, with the times. -/
def retryTracked :
    List TrackedEntry → Option RetransmitRequest × List TrackedEntry × List TrackedEntry
  | [] => (none, [], [])
  | x :: xs =>
    if x.entry.expired nowNs = false then
      let rest := retryTracked xs
      (rest.1, x :: rest.2.1, rest.2.2)
    else if c.maxAttempts ≤ x.entry.attempts then
      let rest := retryTracked xs
      (rest.1, rest.2.1, x :: rest.2.2)
    else
      (some x.entry.request,
        { entry := x.entry.retried c nowNs, sends := x.sends ++ [nowNs.toNat] } :: xs, [])

/-- The second loop. -/
def freshTracked : List TrackedEntry → Option RetransmitRequest × List TrackedEntry
  | [] => (none, [])
  | x :: xs =>
    if x.entry.inFlight then
      let rest := freshTracked xs
      (rest.1, x :: rest.2)
    else
      (some x.entry.request,
        { entry := x.entry.sent c nowNs, sends := x.sends ++ [nowNs.toNat] } :: xs)

/-- Both, as `next_request` makes them. -/
def requestTracked (xs : List TrackedEntry) :
    Option RetransmitRequest × List TrackedEntry × List TrackedEntry :=
  let retry := retryTracked c nowNs xs
  if retry.1.isSome then retry
  else
    let fresh := freshTracked c nowNs retry.2.1
    (fresh.1, fresh.2, retry.2.2)

end Passes

/-- One call of the client, and what it does to the record. -/
def step (t : Timetable) (call : RecoveryCall) : Timetable where
  client := t.client.exec call
  tracked := match call with
    | .need first count => t.tracked ++
        ((t.client.need first count).2.entries.drop t.client.entries.length).map fun e =>
          { entry := e }
    | .nextRequest nowNs => (requestTracked t.client.cfg nowNs t.tracked).2.1
    | .onResponse firstSeq count =>
      if count = 0 then t.tracked
      else t.tracked.filterMap fun x =>
        (x.entry.trim firstSeq (firstSeq + count.toUInt64)).map fun e => { x with entry := e }
    | .clear => []
  abandoned := match call with
    | .nextRequest nowNs => t.abandoned ++
        (requestTracked t.client.cfg nowNs t.tracked).2.2.map fun x => (x, nowNs.toNat)
    | _ => t.abandoned

/-! ## The record is the client's own

Without the times the passes over the record are the client's loops. -/

section Mirror

variable {c : UsableConfig} {nowNs : UInt64}

/-- The first pass is the first loop. -/
theorem retryTracked_eq (xs : List TrackedEntry) :
    RecoveryClient.retryLoop c nowNs (xs.map TrackedEntry.entry) =
      ((retryTracked c nowNs xs).1, (retryTracked c nowNs xs).2.1.map TrackedEntry.entry,
        (retryTracked c nowNs xs).2.2.map TrackedEntry.entry) := by
  induction xs with
  | nil => rfl
  | cons x xs ih =>
    unfold retryTracked
    rw [List.map_cons, RecoveryClient.retryLoop, ih]
    split
    · rfl
    split <;> rfl

/-- And the second the second. -/
theorem freshTracked_eq (xs : List TrackedEntry) :
    RecoveryClient.freshLoop c nowNs (xs.map TrackedEntry.entry) =
      ((freshTracked c nowNs xs).1, (freshTracked c nowNs xs).2.map TrackedEntry.entry) := by
  induction xs with
  | nil => rfl
  | cons x xs ih =>
    unfold freshTracked
    rw [List.map_cons, RecoveryClient.freshLoop, ih]
    split <;> rfl

/-- With nothing fresh to send, the second pass changes nothing. -/
theorem freshTracked_none {xs : List TrackedEntry} (h : (freshTracked c nowNs xs).1 = none) :
    (freshTracked c nowNs xs).2 = xs := by
  induction xs with
  | nil => rfl
  | cons x xs ih =>
    unfold freshTracked at h ⊢
    split at h
    · rename_i hflight
      rw [if_pos hflight]
      show x :: (freshTracked c nowNs xs).2 = x :: xs
      rw [ih h]
    · cases h

/-- **The passes over the record** return what `next_request` returns, and leave its entries. -/
theorem requestTracked_eq (r : RecoveryClient) {xs : List TrackedEntry}
    (hxs : xs.map TrackedEntry.entry = r.entries) :
    (r.nextRequest nowNs).1 = (requestTracked r.cfg nowNs xs).1 ∧
      (r.nextRequest nowNs).2.entries =
        (requestTracked r.cfg nowNs xs).2.1.map TrackedEntry.entry := by
  have hretry := @retryTracked_eq r.cfg nowNs xs
  have hfresh := @freshTracked_eq r.cfg nowNs (retryTracked r.cfg nowNs xs).2.1
  rw [hxs] at hretry
  unfold RecoveryClient.nextRequest requestTracked
  simp only [hretry, hfresh]
  split
  · exact ⟨rfl, rfl⟩
  split
  · exact ⟨rfl, rfl⟩
  -- with nothing to send the client keeps what the first loop left
  · rename_i hno
    have hnone := Option.not_isSome_iff_eq_none.mp hno
    exact ⟨hnone.symm, by rw [freshTracked_none hnone]⟩

end Mirror

/-! ## One entry

What an entry remembers is the last of its sends and how many there were. The record has the rest.
-/

/-- What the record of one entry says, and what the entry remembers of it. -/
structure OnSchedule (c : UsableConfig) (x : TrackedEntry) : Prop where
  /-- Every attempt is in the record. -/
  attempts : x.entry.attempts.toNat = x.sends.length
  /-- There are no more than the limit allows. -/
  limit : x.sends.length ≤ c.maxAttempts.toNat
  /-- It is waited for once it has been sent. -/
  inFlight : x.entry.inFlight = true ↔ x.sends ≠ []
  /-- Each send came no sooner than the schedule says after the one before. -/
  spaced : Spaced c.wait x.sends
  /-- The entry remembers the last send and the wait that follows it, which is what the next send
  is measured by. -/
  last : ∀ t ∈ x.sends.getLast?,
    x.entry.sentNs.toNat = t ∧ x.entry.timeoutNs.toNat = c.wait x.sends.length
  /-- The clock does not run out before the entry expires. -/
  inTime : x.sends ≠ [] → x.entry.sentNs.toNat + c.longestWait < 2 ^ 64

/-- A clock that stays as far short of the 64-bit wrap as an entry is ever waited for. -/
def InTime (c : UsableConfig) : RecoveryCall → Prop
  | .nextRequest nowNs => nowNs.toNat + c.longestWait < 2 ^ 64
  | _ => True

instance (c : UsableConfig) : ∀ call : RecoveryCall, Decidable (InTime c call)
  | .nextRequest _ => inferInstanceAs (Decidable (_ < _))
  | .need _ _ => inferInstanceAs (Decidable True)
  | .onResponse _ _ => inferInstanceAs (Decidable True)
  | .clear => inferInstanceAs (Decidable True)

section Entry

variable {c : UsableConfig} {x : TrackedEntry} {nowNs : UInt64}

/-- An entry that was not sent yet has no times to keep. -/
theorem onSchedule_unsent {e : RecoveryEntry} (h : e.attempts = 0 ∧ e.inFlight = false) :
    OnSchedule c { entry := e } where
  attempts := by
    rw [h.1]
    rfl
  limit := Nat.zero_le _
  inFlight := by simp [h.2]
  spaced := spaced_nil _
  last := fun t ht => by cases ht
  inTime := fun hne => absurd rfl hne

/-- The first wait is the initial timeout. -/
theorem wait_one (c : UsableConfig) : c.wait 1 = c.initialTimeoutNs.toNat :=
  delay_one (UInt64.le_iff_toNat_le.mp c.initial_le)

/-- An expired entry has waited out what the schedule says. -/
theorem OnSchedule.expired (h : OnSchedule c x) (hexp : x.entry.expired nowNs = true) :
    x.sends ≠ [] ∧ x.entry.timeoutNs.toNat = c.wait x.sends.length ∧
      ∀ t ∈ x.sends.getLast?, t + c.wait x.sends.length ≤ nowNs.toNat := by
  unfold RecoveryEntry.expired at hexp
  simp only [Bool.and_eq_true, Bool.not_eq_true', decide_eq_false_iff_not, UInt64.not_lt] at hexp
  have hne := h.inFlight.mp hexp.1
  have hlast := h.last _ (List.getLast?_eq_some_getLast hne)
  have htime := h.inTime hne
  have hlongest : c.wait x.sends.length ≤ c.longestWait := delay_mono h.limit
  have hdue := UInt64.le_iff_toNat_le.mp hexp.2
  rw [UInt64.toNat_add, Nat.mod_eq_of_lt (by omega)] at hdue
  refine ⟨hne, hlast.2, fun t ht => ?_⟩
  have := (h.last t ht).1
  omega

/-- **Doubling with saturation** is the next delay of the schedule. -/
theorem retried_timeout {e : RecoveryEntry} {k : ℕ} (hk : 0 < k)
    (h : e.timeoutNs.toNat = c.wait k) :
    (e.retried c nowNs).timeoutNs.toNat = c.wait (k + 1) := by
  have hceiling : c.wait k ≤ c.maxTimeoutNs.toNat := delay_le
  have hnext : c.wait (k + 1) = min (c.wait k * 2) c.maxTimeoutNs.toNat := delay_succ hk
  have hhalf : (c.maxTimeoutNs / 2).toNat = c.maxTimeoutNs.toNat / 2 := rfl
  have hbound := c.maxTimeoutNs.toNat_lt
  rw [hnext]
  unfold RecoveryEntry.retried
  simp only
  split
  -- more than half the ceiling, whose double is past it or at it
  · rename_i hbig
    have hbig' := UInt64.lt_iff_toNat_lt.mp hbig
    omega
  · rename_i hsmall
    have hsmall' := UInt64.le_iff_toNat_le.mp (UInt64.not_lt.mp hsmall)
    have hdouble : (e.timeoutNs * 2).toNat = e.timeoutNs.toNat * 2 := by
      rw [UInt64.toNat_mul, Nat.mod_eq_of_lt]
      · rfl
      · show e.timeoutNs.toNat * 2 < 2 ^ 64
        omega
    omega

/-- A retry comes on time, and is within the limit. -/
theorem OnSchedule.retried (h : OnSchedule c x) (hexp : x.entry.expired nowNs = true)
    (hleft : x.entry.attempts < c.maxAttempts)
    (htime : nowNs.toNat + c.longestWait < 2 ^ 64) :
    OnSchedule c { entry := x.entry.retried c nowNs, sends := x.sends ++ [nowNs.toNat] } := by
  obtain ⟨hne, htimeout, hdue⟩ := h.expired hexp
  have hleft' := UInt32.lt_iff_toNat_lt.mp hleft
  have hattempts := h.attempts
  have hlen : (x.sends ++ [nowNs.toNat]).length = x.sends.length + 1 := by simp
  refine ⟨?_, ?_, ?_, h.spaced.push hdue, fun t ht => ?_, fun _ => htime⟩
  · have hmax := c.maxAttempts.toNat_lt
    rw [hlen, ← hattempts]
    show (x.entry.attempts + 1).toNat = _
    rw [UInt32.toNat_add, Nat.mod_eq_of_lt (by simp; omega)]
    rfl
  · rw [hlen]
    omega
  · have hflight : (x.entry.retried c nowNs).inFlight = x.entry.inFlight := rfl
    rw [hflight, h.inFlight]
    simp [hne]
  · rw [List.getLast?_concat, Option.mem_some_iff] at ht
    rw [hlen]
    exact ⟨ht, retried_timeout (List.length_pos_of_ne_nil hne) htimeout⟩

/-- A first send starts the record. -/
theorem OnSchedule.sent (h : OnSchedule c x) (hfresh : x.entry.inFlight = false)
    (htime : nowNs.toNat + c.longestWait < 2 ^ 64) :
    OnSchedule c { entry := x.entry.sent c nowNs, sends := x.sends ++ [nowNs.toNat] } := by
  have hnone : x.sends = [] := by
    by_contra hne
    rw [h.inFlight.mpr hne] at hfresh
    cases hfresh
  have hpos := UInt32.toNat_inj.not.mpr c.attempts_pos
  rw [hnone, List.nil_append]
  refine ⟨rfl, Nat.pos_of_ne_zero hpos, by simp [RecoveryEntry.sent],
    fun k hk => absurd hk (by simp), fun t ht => ?_, fun _ => htime⟩
  rw [List.getLast?_singleton, Option.mem_some_iff] at ht
  exact ⟨ht, (wait_one c).symm⟩

/-- Trimming an entry leaves its times alone. -/
theorem OnSchedule.trim (h : OnSchedule c x) {firstSeq respEnd : UInt64} {e : RecoveryEntry}
    (htrim : x.entry.trim firstSeq respEnd = some e) : OnSchedule c { x with entry := e } := by
  have hsame : e.attempts = x.entry.attempts ∧ e.inFlight = x.entry.inFlight ∧
      e.sentNs = x.entry.sentNs ∧ e.timeoutNs = x.entry.timeoutNs := by
    unfold RecoveryEntry.trim at htrim
    split at htrim
    · cases htrim
      exact ⟨rfl, rfl, rfl, rfl⟩
    split at htrim
    · cases htrim
    split at htrim
    · cases htrim
      exact ⟨rfl, rfl, rfl, rfl⟩
    · cases htrim
      exact ⟨rfl, rfl, rfl, rfl⟩
  obtain ⟨hattempts, hflight, hsent, htimeout⟩ := hsame
  refine ⟨?_, h.limit, ?_, h.spaced, ?_, ?_⟩
  · rw [hattempts]
    exact h.attempts
  · rw [hflight]
    exact h.inFlight
  · rw [hsent, htimeout]
    exact h.last
  · rw [hsent]
    exact h.inTime

end Entry

/-! ## One call -/

/-- An entry given up on at `at`: its sends are the limit's number, on schedule, and the last of
them has been waited for as well. -/
structure GivenUp (c : UsableConfig) (x : TrackedEntry) (now : ℕ) : Prop where
  /-- It was sent as often as it may be. -/
  sends : x.sends.length = c.maxAttempts.toNat
  spaced : Spaced c.wait x.sends
  /-- And not given up on before the last send was waited out. -/
  waited : ∀ t ∈ x.sends.getLast?, t + c.wait x.sends.length ≤ now

section Call

variable {c : UsableConfig} {nowNs : UInt64} {xs : List TrackedEntry}

/-- The first pass keeps the schedule, and gives up on what has had its attempts. -/
theorem retryTracked_onSchedule (htime : nowNs.toNat + c.longestWait < 2 ^ 64)
    (h : ∀ x ∈ xs, OnSchedule c x) :
    (∀ x ∈ (retryTracked c nowNs xs).2.1, OnSchedule c x) ∧
      ∀ x ∈ (retryTracked c nowNs xs).2.2, GivenUp c x nowNs.toNat := by
  induction xs with
  | nil => exact ⟨fun _ hx => absurd hx List.not_mem_nil, fun _ hx => absurd hx List.not_mem_nil⟩
  | cons x xs ih =>
    have hx := h x List.mem_cons_self
    obtain ⟨hkept, hgone⟩ := ih fun y hy => h y (List.mem_cons_of_mem _ hy)
    unfold retryTracked
    split
    · exact ⟨List.forall_mem_cons.mpr ⟨hx, hkept⟩, hgone⟩
    rename_i hexp
    rw [Bool.not_eq_false] at hexp
    split
    · rename_i hout
      refine ⟨hkept, List.forall_mem_cons.mpr ⟨?_, hgone⟩⟩
      have hout' := UInt32.le_iff_toNat_le.mp hout
      have hattempts := hx.attempts
      exact ⟨Nat.le_antisymm hx.limit (by omega), hx.spaced, (hx.expired hexp).2.2⟩
    · rename_i hleft
      exact ⟨List.forall_mem_cons.mpr ⟨hx.retried hexp (UInt32.not_le.mp hleft) htime,
        fun y hy => h y (List.mem_cons_of_mem _ hy)⟩, fun _ hy => absurd hy List.not_mem_nil⟩

/-- The second pass keeps it. -/
theorem freshTracked_onSchedule (htime : nowNs.toNat + c.longestWait < 2 ^ 64)
    (h : ∀ x ∈ xs, OnSchedule c x) : ∀ x ∈ (freshTracked c nowNs xs).2, OnSchedule c x := by
  induction xs with
  | nil => exact fun _ hx => absurd hx List.not_mem_nil
  | cons x xs ih =>
    have hx := h x List.mem_cons_self
    unfold freshTracked
    split
    · exact List.forall_mem_cons.mpr ⟨hx, ih fun y hy => h y (List.mem_cons_of_mem _ hy)⟩
    · rename_i hfresh
      rw [Bool.not_eq_true] at hfresh
      exact List.forall_mem_cons.mpr ⟨hx.sent hfresh htime,
        fun y hy => h y (List.mem_cons_of_mem _ hy)⟩

/-- And so do both. -/
theorem requestTracked_onSchedule (htime : nowNs.toNat + c.longestWait < 2 ^ 64)
    (h : ∀ x ∈ xs, OnSchedule c x) :
    (∀ x ∈ (requestTracked c nowNs xs).2.1, OnSchedule c x) ∧
      ∀ x ∈ (requestTracked c nowNs xs).2.2, GivenUp c x nowNs.toNat := by
  obtain ⟨hkept, hgone⟩ := retryTracked_onSchedule htime h
  unfold requestTracked
  simp only
  split
  · exact ⟨hkept, hgone⟩
  · exact ⟨freshTracked_onSchedule htime hkept, hgone⟩

/-- The two passes add no entry. -/
theorem length_retryTracked (xs : List TrackedEntry) :
    (retryTracked c nowNs xs).2.1.length ≤ xs.length := by
  induction xs with
  | nil => exact Nat.le_refl 0
  | cons x xs ih =>
    unfold retryTracked
    split
    · exact Nat.succ_le_succ ih
    split
    · exact Nat.le_succ_of_le ih
    · exact Nat.le_refl _

/-- The second pass adds none and drops none. -/
theorem length_freshTracked (xs : List TrackedEntry) :
    (freshTracked c nowNs xs).2.length = xs.length := by
  induction xs with
  | nil => rfl
  | cons x xs ih =>
    unfold freshTracked
    split
    · exact congrArg Nat.succ ih
    · rfl

/-- So there are never more entries than before. -/
theorem length_requestTracked (xs : List TrackedEntry) :
    (requestTracked c nowNs xs).2.1.length ≤ xs.length := by
  unfold requestTracked
  simp only
  split
  · exact length_retryTracked xs
  · rw [length_freshTracked]
    exact length_retryTracked xs

end Call

/-- Retryable: waited for as long as it was given, with attempts left. -/
def Retryable (c : UsableConfig) (nowNs : UInt64) (e : RecoveryEntry) : Prop :=
  e.expired nowNs = true ∧ e.attempts < c.maxAttempts

/-- **Expired requests go first**: while one of them may be retried, what `next_request` returns is
one of them. -/
theorem retry_first (r : RecoveryClient) (nowNs : UInt64)
    (h : ∃ e ∈ r.entries, Retryable r.cfg nowNs e) :
    ∃ e ∈ r.entries, Retryable r.cfg nowNs e ∧ (r.nextRequest nowNs).1 = some e.request ∧
      (r.nextRequest nowNs).2.stats.retries = r.stats.retries + 1 := by
  -- the loop goes past what is not to be retried yet or any more, and returns the first that is
  have hloop (es : List RecoveryEntry) : (∃ e ∈ es, Retryable r.cfg nowNs e) →
      ∃ e ∈ es, Retryable r.cfg nowNs e ∧
        (RecoveryClient.retryLoop r.cfg nowNs es).1 = some e.request := by
    induction es with
    | nil => exact fun ⟨e, he, _⟩ => absurd he List.not_mem_nil
    | cons e es ih =>
      rintro ⟨e', he', hr⟩
      have hrest (hno : ¬ Retryable r.cfg nowNs e) : ∃ e ∈ es, Retryable r.cfg nowNs e ∧
          (RecoveryClient.retryLoop r.cfg nowNs es).1 = some e.request := by
        rcases List.mem_cons.mp he' with rfl | hmem
        · exact absurd hr hno
        · exact ih ⟨e', hmem, hr⟩
      unfold RecoveryClient.retryLoop
      split
      · rename_i hwait
        obtain ⟨e1, hmem, hr1, heq⟩ := hrest fun hr => absurd (hwait.symm.trans hr.1) (by decide)
        exact ⟨e1, List.mem_cons_of_mem _ hmem, hr1, heq⟩
      rename_i hexp
      split
      · rename_i hout
        obtain ⟨e1, hmem, hr1, heq⟩ := hrest fun hr => absurd hr.2 (UInt32.not_lt.mpr hout)
        exact ⟨e1, List.mem_cons_of_mem _ hmem, hr1, heq⟩
      · rename_i hleft
        exact ⟨e, List.mem_cons_self, ⟨by simpa using hexp, UInt32.not_le.mp hleft⟩, rfl⟩
  obtain ⟨e, he, hr, heq⟩ := hloop r.entries h
  refine ⟨e, he, hr, ?_⟩
  unfold RecoveryClient.nextRequest
  simp only [heq, Option.isSome_some, if_true]
  exact ⟨trivial, trivial⟩

/-! ## A run

The record stays beside the client's entries, one for one, and each is on schedule. -/

/-- What holds between the calls of a run. -/
structure Kept (c : UsableConfig) (t : Timetable) : Prop where
  /-- The configuration is the constructor's. -/
  cfg : t.client.cfg = c
  /-- The record is of the client's entries, in their order. -/
  entries : t.tracked.map TrackedEntry.entry = t.client.entries
  /-- There is a bound on how many there are. -/
  outstanding : t.client.entries.length ≤ c.maxOutstanding
  onSchedule : ∀ x ∈ t.tracked, OnSchedule c x
  /-- What was given up on had its attempts, and was waited for. -/
  givenUp : ∀ a ∈ t.abandoned, GivenUp c a.1 a.2

/-- No call changes the configuration. -/
theorem nextRequest_cfg (r : RecoveryClient) (nowNs : UInt64) :
    (r.nextRequest nowNs).2.cfg = r.cfg := by
  unfold RecoveryClient.nextRequest
  simp only
  split
  · rfl
  split <;> rfl

/-- Nor does a response. -/
theorem onResponse_cfg (r : RecoveryClient) (firstSeq : UInt64) (count : UInt16) :
    (r.onResponse firstSeq count).cfg = r.cfg := by
  unfold RecoveryClient.onResponse
  split <;> rfl

/-- A range that is missing brings entries that were not sent yet. -/
theorem kept_need {c : UsableConfig} {t : Timetable} (h : Kept c t) {first count : UInt64}
    (hrange : first.toNat + count.toNat < 2 ^ 64) : Kept c (t.step (.need first count)) := by
  obtain ⟨new, b, hneeded⟩ := RecoveryClient.need_spec (r := t.client) hrange
  have htracked : (t.step (.need first count)).tracked =
      t.tracked ++ new.map fun e => { entry := e } := by
    show t.tracked ++ _ = _
    rw [hneeded.entries, List.drop_left]
  refine ⟨hneeded.cfg.trans h.cfg, ?_, ?_, fun x hx => ?_, h.givenUp⟩
  · have hentries : (t.step (.need first count)).client.entries = t.client.entries ++ new :=
      hneeded.entries
    rw [htracked, hentries, List.map_append, h.entries, List.map_map]
    simp [Function.comp_def]
  · have hroom := hneeded.room
    rw [h.cfg] at hroom
    exact hroom h.outstanding
  · rw [htracked] at hx
    rcases List.mem_append.mp hx with hold | hnew
    · exact h.onSchedule x hold
    · obtain ⟨e, he, rfl⟩ := List.mem_map.mp hnew
      exact onSchedule_unsent (hneeded.unsent e he)

/-- A request is recorded where the client records it. -/
theorem kept_nextRequest {c : UsableConfig} {t : Timetable} (h : Kept c t) {nowNs : UInt64}
    (htime : nowNs.toNat + c.longestWait < 2 ^ 64) :
    Kept c (t.step (.nextRequest nowNs)) := by
  have hmirror := (@requestTracked_eq nowNs t.client t.tracked h.entries).2
  have hcfg := nextRequest_cfg t.client nowNs
  obtain ⟨hkept, hgone⟩ := requestTracked_onSchedule htime h.onSchedule
  have hlen := @length_requestTracked c nowNs t.tracked
  rw [← h.cfg] at hkept hgone hlen
  refine ⟨hcfg.trans h.cfg, hmirror.symm, ?_, ?_, fun a ha => ?_⟩
  · have houtstanding := h.outstanding
    show (t.client.nextRequest nowNs).2.entries.length ≤ _
    rw [hmirror, List.length_map]
    rw [← h.entries, List.length_map] at houtstanding
    omega
  · rw [← h.cfg]
    exact hkept
  · rcases List.mem_append.mp ha with hold | hnew
    · exact h.givenUp a hold
    · obtain ⟨x, hx, rfl⟩ := List.mem_map.mp hnew
      rw [← h.cfg]
      exact hgone x hx

/-- A response trims entries and leaves their times alone. -/
theorem kept_onResponse {c : UsableConfig} {t : Timetable} (h : Kept c t) {firstSeq : UInt64}
    {count : UInt16} : Kept c (t.step (.onResponse firstSeq count)) := by
  have hcfg := (onResponse_cfg t.client firstSeq count).trans h.cfg
  by_cases h0 : count = 0
  · have hclient : (t.step (.onResponse firstSeq count)).client = t.client := if_pos h0
    have htracked : (t.step (.onResponse firstSeq count)).tracked = t.tracked := if_pos h0
    refine ⟨hcfg, ?_, ?_, ?_, h.givenUp⟩
    · rw [hclient, htracked]
      exact h.entries
    · rw [hclient]
      exact h.outstanding
    · rw [htracked]
      exact h.onSchedule
  · have hentries : (t.step (.onResponse firstSeq count)).client.entries =
        t.client.entries.filterMap fun e => e.trim firstSeq (firstSeq + count.toUInt64) := by
      show (t.client.onResponse firstSeq count).entries = _
      unfold RecoveryClient.onResponse
      rw [if_neg h0]
    have htracked : (t.step (.onResponse firstSeq count)).tracked =
        t.tracked.filterMap fun x => (x.entry.trim firstSeq (firstSeq + count.toUInt64)).map
          fun e => { x with entry := e } := if_neg h0
    refine ⟨hcfg, ?_, ?_, fun x hx => ?_, h.givenUp⟩
    · rw [hentries, htracked, ← h.entries, List.map_filterMap, List.filterMap_map]
      simp [Function.comp_def]
    · rw [hentries]
      exact Nat.le_trans (List.length_filterMap_le _ _) h.outstanding
    · rw [htracked] at hx
      obtain ⟨y, hy, heq⟩ := List.mem_filterMap.mp hx
      obtain ⟨e, htrim, rfl⟩ := Option.map_eq_some_iff.mp heq
      exact (h.onSchedule y hy).trim htrim

/-- **One call keeps the schedule.** -/
theorem kept_step {c : UsableConfig} {t : Timetable} (h : Kept c t) {call : RecoveryCall}
    (hrange : call.InRange) (htime : InTime c call) : Kept c (t.step call) := by
  cases call with
  | need first count => exact kept_need h hrange
  | nextRequest nowNs => exact kept_nextRequest h htime
  | onResponse firstSeq count => exact kept_onResponse h
  | clear =>
    exact ⟨h.cfg, rfl, Nat.zero_le _, fun _ hx => absurd hx List.not_mem_nil, h.givenUp⟩

/-- **A run** keeps the schedule. -/
theorem kept_after {c : UsableConfig} {calls : List RecoveryCall}
    (hrange : ∀ call ∈ calls, call.InRange) (htime : ∀ call ∈ calls, InTime c call) :
    ∀ {t : Timetable}, Kept c t → Kept c (after step t calls) := by
  induction calls with
  | nil => exact fun h => h
  | cons call calls ih =>
    intro t h
    exact ih (fun x hx => hrange x (List.mem_cons_of_mem _ hx))
      (fun x hx => htime x (List.mem_cons_of_mem _ hx))
      (kept_step h (hrange call List.mem_cons_self) (htime call List.mem_cons_self))

/-- The client of a run is the client's own run. -/
theorem after_client (calls : List RecoveryCall) : ∀ t : Timetable,
    (after step t calls).client = after RecoveryClient.exec t.client calls := by
  induction calls with
  | nil => exact fun _ => rfl
  | cons call calls ih => exact fun t => ih (t.step call)

/-- **Re-requests are bounded and back off**, for every configuration and every interleaving of
calls whose sequences and times stay clear of the 64-bit wrap. There are never more entries than the
limit; `need` splits a range into chunks that follow each other from its start, all of it unless it
counts a refusal; an entry is sent as often as the limit allows and no oftener, each time no sooner
than the schedule says after the time before, and is given up on only when the last send has been
waited for too; and while an expired request may be retried, no fresh one is returned. -/
theorem bounded_backoff (c : RecoveryConfig) (calls : List RecoveryCall)
    (hrange : ∀ call ∈ calls, call.InRange) (htime : ∀ call ∈ calls, InTime c.usable call) :
    let t := after step { client := RecoveryClient.make c } calls
    t.client = after RecoveryClient.exec (RecoveryClient.make c) calls ∧
      t.tracked.map TrackedEntry.entry = t.client.entries ∧
      t.client.entries.length ≤ c.usable.maxOutstanding ∧
      (∀ x ∈ t.tracked, x.sends.length ≤ c.usable.maxAttempts.toNat ∧
        Spaced c.usable.wait x.sends) ∧
      (∀ a ∈ t.abandoned, GivenUp c.usable a.1 a.2) ∧
      (∀ first count : UInt64, first.toNat + count.toNat < 2 ^ 64 → ∃ new b,
        RecoveryClient.Needed t.client first.toNat count.toNat (t.client.need first count) new b ∧
          RecoveryClient.Chunked first.toNat new b) ∧
      ∀ nowNs, (t.client.nextRequest nowNs).1 =
          (requestTracked t.client.cfg nowNs t.tracked).1 ∧
        ((∃ e ∈ t.client.entries, Retryable c.usable nowNs e) →
          ∃ e ∈ t.client.entries, Retryable c.usable nowNs e ∧
            (t.client.nextRequest nowNs).1 = some e.request ∧
            (t.client.nextRequest nowNs).2.stats.retries = t.client.stats.retries + 1) := by
  intro t
  have h : Kept c.usable t := kept_after hrange htime
    ⟨rfl, rfl, Nat.zero_le _, fun _ hx => absurd hx List.not_mem_nil,
      fun _ ha => absurd ha List.not_mem_nil⟩
  refine ⟨after_client calls _, h.entries, h.outstanding, fun x hx => ?_, h.givenUp,
    fun first count hwrap => ?_, fun nowNs => ⟨?_, ?_⟩⟩
  · exact ⟨(h.onSchedule x hx).limit, (h.onSchedule x hx).spaced⟩
  · obtain ⟨new, b, hneeded⟩ := RecoveryClient.need_spec (r := t.client) hwrap
    exact ⟨new, b, hneeded, hneeded.chunked⟩
  · exact (requestTracked_eq t.client h.entries).1
  · rw [← h.cfg]
    exact retry_first t.client nowNs

/-- Two attempts, one after a thousand nanoseconds, and an answer to part of what was asked for. -/
def twice : RecoveryConfig := { initialTimeoutNs := 1000, maxTimeoutNs := 4000, maxAttempts := 2 }

/-- A range, an answer to its first sequence, and a clock that goes on. -/
def askedTwice : List RecoveryCall :=
  [.need 10 3, .nextRequest 0, .onResponse 10 1, .nextRequest 999, .nextRequest 1000,
    .nextRequest 2999]

/-- The trimmed entry was sent at once and a thousand nanoseconds later, and is still waited for. -/
theorem bounded_backoff_askedTwice :
    let t := after step { client := RecoveryClient.make twice } askedTwice
    t.tracked.map TrackedEntry.sends = [[0, 1000]] ∧
      ∀ x ∈ t.tracked, x.sends.length ≤ 2 ∧ Spaced twice.usable.wait x.sends := by
  obtain ⟨-, -, -, hsends, -⟩ := bounded_backoff twice askedTwice (by decide) (by decide)
  exact ⟨by decide, hsends⟩

end Timetable

end Tickerplant
