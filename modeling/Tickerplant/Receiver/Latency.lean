import Tickerplant.Lib.Trace
import Tickerplant.Mold.Builder
import Tickerplant.Receiver.Basic
import Tickerplant.Sequencer.Grace

/-!
# Where a latency sample starts (`tools/tickerplant_rx.cpp`)

The receiver notes when each sequence arrived, in a table of as many slots as the reorder window,
and its sink reads the table back when the sequencer lets the message through. The table is written
before the sequencer is asked: a copy that turns out to be a duplicate, or late, has by then put
its own time into the slot its sequence shares with a message that may still be waiting.

`taken` is not in the source. It is the copy of each sequence that the sequencer took last, with
the time stamp it came under, and `handed` records each call of the sink with what the table said
then and with that copy. `Agrees` is what the table is for: every sample started at the copy that
was taken, and so would every sample to come.

The condition is on one call and on the state before it: `Spares`. A message that shares its slot
with one that waits must have come under the same time, unless it lies so far ahead that whatever
waits is thrown away with it. The condition is necessary as well, because the table does not
forget: what was written over is read when the message that waited is let through, or stays wrong
while it waits, so `Agrees` fails from that call on (`agrees_step`).

What the window holds and what the sink is given is followed with the passages of
`Sequencer/Passage`; `Supplies` says what of them is needed here, where everything handed over or
left waiting came from.
-/

set_option autoImplicit false

namespace Tickerplant

open Lib Mold Sequencer

/-! ## The arrival table -/

/-- `while (window < opt.reorder_window) window <<= 1`. -/
def rxWindow (reorderWindow : ℕ) : ℕ := roundUpPow2 reorderWindow

/-- `scfg`. -/
def rxConfig (reorderWindow : ℕ) : SequencerConfig := { reorderWindow := rxWindow reorderWindow }

/-- What is taken in, with `kernel_ts_ns`: zero when the kernel put no stamp on it. -/
structure Received where
  arrival : Arrival
  kernelTsNs : UInt64 := 0
  deriving DecidableEq, Repr

/-- The time the messages of one arrival are noted under. A reply is read with `recv`, which has
no kernel stamp to give. -/
def Received.stamp (r : Received) : UInt64 :=
  match r.arrival with
  | .datagram _ _ now => if r.kernelTsNs ≠ 0 then r.kernelTsNs else now
  | .reply _ now => now
  | .poll now => now

/-- A call of the sequencer, and the time noted just before it. -/
structure Stamped where
  /-- The call. -/
  call : Call
  stamp : UInt64
  deriving DecidableEq, Repr

/-- The calls a list of arrivals makes, each with its time. -/
def stampedCalls (rs : List Received) : List Stamped :=
  rs.flatMap fun r => (callList [r.arrival]).map fun call => ⟨call, r.stamp⟩

/-- A copy of a message, and the time of the datagram it came in. -/
structure Copy where
  /-- What its datagram was stamped with. -/
  stampNs : UInt64 := 0
  payload : Payload := []
  deriving DecidableEq, Repr

/-- One call of the sink. -/
structure HandOver where
  sequence : UInt64
  payload : Payload
  /-- `arrived`: what the table said. -/
  arrived : UInt64
  /-- The copy of the sequence that the sequencer had taken. -/
  copy : Copy
  deriving DecidableEq, Repr

/-- The receiver as far as its samples go: the sequencer, the table, and the two records beside
them. -/
structure RunState where
  q : Sequencer
  /-- `arrival_ns`, by slot. -/
  arrivalNs : ℕ → UInt64 := fun _ => 0
  /-- The copy of each sequence that was taken. -/
  taken : UInt64 → Copy := fun _ => {}
  /-- The calls of the sink, oldest first. -/
  handed : List HandOver := []

namespace RunState

variable (n : ℕ)

/-- `arrival_ns[seq & window_mask] = ns`. -/
def noteArrival (st : RunState) (seq ns : UInt64) : RunState :=
  { st with arrivalNs := Function.update st.arrivalNs (maskIndex (rxWindow n) seq) ns }

/-- `arrival_ns[seq & window_mask]`. -/
def arrivalOf (st : RunState) (seq : UInt64) : UInt64 :=
  st.arrivalNs (maskIndex (rxWindow n) seq)

/-- The time of a message is noted as it comes in; a turn of the clock notes nothing. -/
def noted (st : RunState) (e : Stamped) : RunState :=
  match carried e.call with
  | some d => st.noteArrival n d.1 e.stamp
  | none => st

/-- The copies taken, after a call that takes what it carries or does not. -/
def takes (st : RunState) (e : Stamped) : UInt64 → Copy :=
  match accepts (rxConfig n) st.q e.call with
  | some d => Function.update st.taken d.1 ⟨e.stamp, d.2⟩
  | none => st.taken

/-- One call of the sequencer, and the calls of the sink it makes. -/
def step (st : RunState) (e : Stamped) : RunState :=
  let q' := exec (rxConfig n) st.q e.call
  { q := q'
    arrivalNs := (st.noted n e).arrivalNs
    taken := st.takes n e
    handed := st.handed ++ (handedDuring st.q q').map fun d =>
      ⟨d.1, d.2, (st.noted n e).arrivalOf n d.1, st.takes n e d.1⟩ }

/-- `seq.reset(1)`, and every slot of the table zero. -/
def start : RunState := { q := begin (rxConfig n) 1 }

/-- **The table agrees with the sequencer**: every sample so far started at the copy that was
taken, and what is waiting has the time of its own copy in its slot. -/
structure Agrees (st : RunState) : Prop where
  /-- No sample started anywhere else. -/
  handed : ∀ h ∈ st.handed, h.arrived = h.copy.stampNs
  /-- None will. -/
  waiting : ∀ x, st.q.holds (rxConfig n) x = true → st.arrivalOf n x = (st.taken x).stampNs

/-- A call spares what is waiting: a message that shares the slot of its sequence came under the
same time, or the sequence is so far ahead that nothing waiting is ever handed over. -/
def Spares (st : RunState) (e : Stamped) : Prop :=
  ∀ d ∈ carried e.call, ¬ Beyond (rxConfig n) st.q d.1 →
    ∀ x ∈ heldSeqs (rxConfig n) st.q, maskIndex (rxWindow n) x = maskIndex (rxWindow n) d.1 →
      (st.taken x).stampNs = e.stamp

instance (st : RunState) (e : Stamped) : Decidable (st.Spares n e) :=
  -- the list is searched, and not every sequence there is
  have (d : Delivery) : Decidable (∀ x ∈ heldSeqs (rxConfig n) st.q,
      maskIndex (rxWindow n) x = maskIndex (rxWindow n) d.1 → (st.taken x).stampNs = e.stamp) :=
    List.decidableBAll _ _
  inferInstanceAs (Decidable (∀ d ∈ carried e.call, ¬ Beyond (rxConfig n) st.q d.1 →
    ∀ x ∈ heldSeqs (rxConfig n) st.q, _ → _))

end RunState

/-! ## What a call takes -/

section Available

variable {c : SequencerConfig} {q : Sequencer} {call : Call} {avail : ℕ → Option Payload}
  {b wide : ℕ}

/-- What is taken of a call is what it carries. -/
theorem carried_of_accepts {d : Delivery} (h : accepts c q call = some d) :
    carried call = some d := by
  cases call with
  | message line seq payload nowNs =>
    rw [accepts] at h
    split at h
    · exact h
    · exact absurd h (by simp)
  | retransmit seq payload nowNs =>
    rw [accepts] at h
    split at h
    · exact h
    · exact absurd h (by simp)
  | poll nowNs => exact absurd h (by simp [accepts])

/-- A second copy of what is held is not taken. -/
theorem ingest_held (h : Sound c q) (hs : q.started = true) {seq : UInt64}
    (hx : q.holds c seq = true) (payload : Payload) (nowNs : UInt64) (line : Option LineId) :
    (q.ingest c seq payload nowNs line).1 = false := by
  have hne : seq ≠ q.expected := by
    rintro rfl
    exact absurd hx (by simp [h.idle])
  unfold ingest
  rw [if_pos hs]
  unfold ingestStarted
  by_cases hlt : seq < q.expected
  · rw [if_pos hlt]
  · rw [if_neg hlt, if_neg hne, if_pos hx]

/-- What is taken was not held before. -/
theorem vacant_of_accepts (h : Sound c q) (hs : q.started = true) {d : Delivery}
    (hd : accepts c q call = some d) : q.holds c d.1 = false := by
  have hcarried := carried_of_accepts hd
  by_contra hx
  rw [Bool.not_eq_false] at hx
  cases call with
  | message line seq payload nowNs =>
    obtain rfl : (seq, payload) = d := Option.some.inj hcarried
    rw [accepts, ingest_held h hs hx] at hd
    exact absurd hd (by simp)
  | retransmit seq payload nowNs =>
    obtain rfl : (seq, payload) = d := Option.some.inj hcarried
    rw [accepts, ingest_held h hs hx] at hd
    exact absurd hd (by simp)
  | poll nowNs => exact absurd hcarried (by simp [carried])

/-- A started sequencer is the one the call works on. -/
theorem joined_of_started (hs : q.started = true) (call : Call) : joined q call = q := by
  unfold joined
  split
  · rw [if_pos hs]
  · rfl

/-- **Where what a call hands over or leaves waiting came from**: it is the message of the call,
which was taken, or it was waiting, and the message of the call did not take its place. -/
theorem available_cases (hs : q.started = true) (hwidth : c.maxPayload' < 2 ^ 32)
    (hoffers : CallOffers c (joined q call) call avail b wide) (htook : CallTook c q call avail)
    {x : UInt64} {p : Payload} (hp : avail x.toNat = some p) :
    accepts c q call = some (x, p) ∨
      (q.holds c x = true ∧ q.stored c x = p ∧ (∀ d ∈ accepts c q call, d.1 ≠ x) ∧
        ∀ d ∈ carried call, ¬ Beyond c q d.1) := by
  rw [joined_of_started hs] at hoffers
  unfold CallTook at htook
  rw [joined_of_started hs] at htook
  have hheld {g : ℕ → Option Payload} (hg : g = heldView c q) (hv : g x.toNat = some p) :
      q.holds c x = true ∧ q.stored c x = p := by
    rw [hg, heldView_toNat] at hv
    split at hv
    · rename_i hx
      exact ⟨hx, Option.some.inj hv⟩
    · exact absurd hv (by simp)
  cases hcarried : carried call with
  | none =>
    unfold CallOffers at hoffers
    rw [hcarried] at hoffers
    obtain ⟨hx, hst⟩ := hheld hoffers.1 hp
    refine Or.inr ⟨hx, hst, fun d hd => ?_, fun d hd => absurd hd (by simp)⟩
    exact absurd ((carried_of_accepts hd).symm.trans hcarried) (by simp)
  | some d =>
    unfold CallOffers at hoffers
    rw [hcarried] at hoffers
    have htook := htook d hcarried
    -- what the window offered is offered still, unless the message lies beyond it
    have hfound (hv : found c q d.1 x.toNat = some p) (hno : ∀ d' ∈ accepts c q call, d'.1 ≠ x) :
        q.holds c x = true ∧ q.stored c x = p ∧ (∀ d' ∈ accepts c q call, d'.1 ≠ x) ∧
          ∀ d' ∈ some d, ¬ Beyond c q d'.1 := by
      by_cases hbeyond : Beyond c q d.1
      · rw [found, if_pos hbeyond] at hv
        exact absurd hv (by simp)
      · obtain ⟨hx, hst⟩ := hheld (if_neg hbeyond) hv
        exact ⟨hx, hst, hno, fun d' hd' => Option.some.inj hd' ▸ hbeyond⟩
    by_cases hx : x = d.1
    · subst hx
      cases haccepts : accepts c q call with
      | none =>
        rw [haccepts] at htook
        exact Or.inr (haccepts ▸ hfound (htook.refused rfl ▸ hp) fun d' hd' => by
          rw [haccepts] at hd'
          exact absurd hd' (by simp))
      | some d' =>
        obtain rfl : d = d' :=
          Option.some.inj (hcarried.symm.trans (carried_of_accepts haccepts))
        rw [haccepts] at htook
        refine Or.inl ?_
        rcases htook.taken rfl with hown | ⟨hfits, hown⟩
        · rw [← Option.some.inj (hown.symm.trans hp)]
        · rw [slotted_eq (Nat.lt_of_le_of_lt hfits hwidth)] at hown
          rw [← Option.some.inj (hown.symm.trans hp)]
    · rw [hoffers.others _ fun heq => hx (UInt64.toNat_inj.mp heq)] at hp
      refine Or.inr (hfound hp fun d' hd' heq => hx ?_)
      rw [← heq, Option.some.inj (hcarried.symm.trans (carried_of_accepts hd'))]

end Available

/-! ## One call -/

section Step

variable {n : ℕ} {st : RunState}

/-- The table and the window have the same number of slots. -/
theorem rxConfig_capacity (n : ℕ) : (rxConfig n).capacity = rxWindow n := by
  have hpos : rxWindow n ≠ 0 := Nat.ne_of_gt (roundUpPow2_pos n)
  show roundUpPow2 (if rxWindow n = 0 then 1 else rxWindow n) = rxWindow n
  rw [if_neg hpos]
  exact roundUpPow2_roundUpPow2 n

/-- That number is a 64-bit one. -/
theorem rxConfig_capacity_lt {n : ℕ} (hn : n ≤ 2 ^ 63) : (rxConfig n).capacity < 2 ^ 64 := by
  rw [rxConfig_capacity]
  exact Nat.lt_of_le_of_lt (roundUpPow2_le hn) (by decide)

/-- What holds between calls whatever arrives: the record of the calls of the sink is the sink's
own, and the bytes waiting or handed over are those of the copy taken. -/
structure Carrying (n : ℕ) (st : RunState) : Prop where
  /-- The window says what it holds. -/
  sound : Sound (rxConfig n) st.q
  started : st.q.started = true
  /-- The record beside the table leaves out nothing the sink was given. -/
  sink : st.handed.map (fun h => (h.sequence, h.payload)) = st.q.sink
  /-- What waits has the bytes of the copy taken. -/
  waiting : ∀ x, st.q.holds (rxConfig n) x = true →
    st.q.stored (rxConfig n) x = (st.taken x).payload
  /-- So has what was handed over. -/
  handed : ∀ h ∈ st.handed, h.payload = h.copy.payload

/-- Nothing was handed over and nothing waits. -/
theorem carrying_start (n : ℕ) : Carrying n (RunState.start n) where
  sound := sound_reset _ 1
  started := rfl
  sink := rfl
  waiting := fun x hx => absurd hx (by
    simp [RunState.start, begin, restart, reset, clearRecovery, holds])
  handed := fun h hh => absurd hh (by simp [RunState.start])

/-- The copy taken of `x`, after a call that took another or none. -/
theorem takes_of_ne {e : Stamped} {x : UInt64}
    (h : ∀ d ∈ accepts (rxConfig n) st.q e.call, d.1 ≠ x) : st.takes n e x = st.taken x := by
  unfold RunState.takes
  cases hd : accepts (rxConfig n) st.q e.call with
  | none => rfl
  | some d => exact Function.update_of_ne (Ne.symm (h d hd)) _ _

/-- The copy just taken is the one the call brought. -/
theorem takes_of_accepts {e : Stamped} {d : Delivery}
    (h : accepts (rxConfig n) st.q e.call = some d) : st.takes n e d.1 = ⟨e.stamp, d.2⟩ := by
  unfold RunState.takes
  rw [h]
  exact Function.update_self d.1 _ _

/-- The slot of `x` after a call, if the message of the call shares it, and if not. -/
theorem arrivalOf_noted_of_eq {e : Stamped} {d : Delivery} (hd : carried e.call = some d)
    {x : UInt64} (hx : maskIndex (rxWindow n) x = maskIndex (rxWindow n) d.1) :
    (st.noted n e).arrivalOf n x = e.stamp := by
  unfold RunState.noted RunState.arrivalOf
  rw [hd, hx]
  exact Function.update_self _ _ _

/-- A message in another slot leaves the time of `x` alone. -/
theorem arrivalOf_noted_of_ne {e : Stamped} {x : UInt64}
    (hx : ∀ d ∈ carried e.call, maskIndex (rxWindow n) x ≠ maskIndex (rxWindow n) d.1) :
    (st.noted n e).arrivalOf n x = st.arrivalOf n x := by
  unfold RunState.noted
  split
  · rename_i d hd
    exact Function.update_of_ne (hx d hd) _ _
  · rfl

/-- What a call has to hand over, by number, and where it came from. -/
structure Supplies (n : ℕ) (st : RunState) (e : Stamped) (avail : ℕ → Option Payload) :
    Prop where
  /-- What the sink is given was available on the way. -/
  handed : ∀ x p, (x, p) ∈ handedDuring st.q (exec (rxConfig n) st.q e.call) →
    avail x.toNat = some p
  /-- So was what waits afterwards. -/
  waiting : ∀ x, (exec (rxConfig n) st.q e.call).holds (rxConfig n) x = true →
    avail x.toNat = some ((exec (rxConfig n) st.q e.call).stored (rxConfig n) x)
  /-- It is what the call brought, or it waited before. -/
  source : ∀ (x : UInt64) p, avail x.toNat = some p →
    accepts (rxConfig n) st.q e.call = some (x, p) ∨
      (st.q.holds (rxConfig n) x = true ∧ st.q.stored (rxConfig n) x = p ∧
        (∀ d ∈ accepts (rxConfig n) st.q e.call, d.1 ≠ x) ∧
        ∀ d ∈ carried e.call, ¬ Beyond (rxConfig n) st.q d.1)
  /-- What was waiting goes to the sink or waits on, unless the message lies beyond it. -/
  kept : ∀ x, st.q.holds (rxConfig n) x = true →
    (∀ d ∈ carried e.call, ¬ Beyond (rxConfig n) st.q d.1) →
    (∃ p, (x, p) ∈ handedDuring st.q (exec (rxConfig n) st.q e.call)) ∨
      (exec (rxConfig n) st.q e.call).holds (rxConfig n) x = true

/-- The slots are narrow, so a slot reads back what was put into it. -/
theorem rxConfig_maxPayload (n : ℕ) : (rxConfig n).maxPayload' < 2 ^ 32 := by
  show (64 : ℕ) < 2 ^ 32
  decide

/-- A call has something to hand over and leave waiting, whatever it is. -/
theorem step_supplies (hcap : (rxConfig n).capacity < 2 ^ 64) (h : Carrying n st) (e : Stamped) :
    ∃ avail, Supplies n st e avail ∧ Sound (rxConfig n) (st.step n e).q ∧
      (st.step n e).q.started = true ∧
      (st.step n e).q.sink = st.q.sink ++ handedDuring st.q (st.step n e).q := by
  obtain ⟨hsound, avail, b, wide, hoffers, hpass, htook⟩ := exec_took h.sound hcap e.call
  have hsource := fun (x : UInt64) (p : Payload) (hp : avail x.toNat = some p) =>
    available_cases h.started (rxConfig_maxPayload n) hoffers htook hp
  have hstarted : (exec (rxConfig n) st.q e.call).started = true := by
    rw [exec_started, joined_of_started h.started, h.started]
  rw [joined_of_started h.started] at hoffers hpass
  have hduring := handedDuring_eq hpass
  have hreach := hpass.reached
  refine ⟨avail, ⟨fun x p hx => ?_, fun x hx => ?_, hsource, fun x hx hnear => ?_⟩, hsound,
    hstarted, ?_⟩
  · rw [hduring] at hx
    obtain ⟨⟨k, p'⟩, hk, heq⟩ := List.mem_map.mp hx
    obtain ⟨rfl, rfl⟩ := Prod.mk.inj heq
    obtain ⟨-, hlt, hp⟩ := mem_handed.mp hk
    have hle := hreach.le
    rw [UInt64.toNat_ofNat', Nat.mod_eq_of_lt (by omega)]
    exact hp
  · have hv := hreach.view x.toNat
    rw [heldView_toNat, if_pos hx] at hv
    split at hv
    · exact hv.symm
    · exact absurd hv (by simp)
  · have hp : heldView (rxConfig n) st.q x.toNat = some _ :=
      (heldView_toNat x).trans (if_pos hx)
    have havail := hoffers.kept (fun ⟨d, hd, hb⟩ => hnear d hd hb) hp
    rcases Nat.lt_or_ge x.toNat b with hlt | hge
    · refine Or.inl ⟨st.q.stored (rxConfig n) x, ?_⟩
      rw [hduring]
      have hmem := mem_handed.mpr ⟨h.sound.windowed.ge_of_holds hx, hlt, havail⟩
      exact List.mem_map.mpr ⟨_, hmem, by rw [UInt64.ofNat_toNat]⟩
    · refine Or.inr ?_
      have hv := hreach.view x.toNat
      rw [if_pos hge, havail, heldView_toNat] at hv
      by_contra hno
      rw [if_neg hno] at hv
      exact absurd hv (by simp)
  · show (exec (rxConfig n) st.q e.call).sink = _
    rw [hpass.sink, ← hduring]
    rfl

/-- A call keeps the records true, whatever arrives. -/
theorem carrying_step (hcap : (rxConfig n).capacity < 2 ^ 64) (h : Carrying n st) (e : Stamped) :
    Carrying n (st.step n e) := by
  obtain ⟨avail, hsup, hsound, hstarted, hsink⟩ := step_supplies hcap h e
  -- the bytes available are those of the copy taken
  have hbytes {x : UInt64} {p : Payload} (hp : avail x.toNat = some p) :
      p = (st.takes n e x).payload := by
    rcases hsup.source x p hp with hown | ⟨hx, hst, hno, -⟩
    · rw [show x = ((x, p) : Delivery).1 from rfl, takes_of_accepts hown]
    · rw [takes_of_ne hno, ← h.waiting x hx, hst]
  refine ⟨hsound, hstarted, ?_, fun x hx => hbytes (hsup.waiting x hx), fun ho hho => ?_⟩
  · rw [hsink, ← h.sink]
    show List.map _ (st.handed ++ _) = _
    rw [List.map_append, List.map_map]
    congr 1
    exact List.map_id _
  · rcases List.mem_append.mp hho with hold | hnew
    · exact h.handed ho hold
    · obtain ⟨⟨x, p⟩, hd, rfl⟩ := List.mem_map.mp hnew
      exact hbytes (hsup.handed x p hd)

/-- **One call keeps the table in agreement exactly when it spares what is waiting.** -/
theorem agrees_step (hcap : (rxConfig n).capacity < 2 ^ 64) (h : Carrying n st)
    (hagrees : st.Agrees n) (e : Stamped) : (st.step n e).Agrees n ↔ st.Spares n e := by
  obtain ⟨avail, hsup, -, -, -⟩ := step_supplies hcap h e
  constructor
  -- the slot is written over now, so if the table still agrees the two times were the same
  · intro hafter d hd hnear x hx hslot
    rw [mem_heldSeqs h.sound.windowed] at hx
    have hnear' : ∀ d' ∈ carried e.call, ¬ Beyond (rxConfig n) st.q d'.1 := fun d' hd' =>
      Option.some.inj (hd.symm.trans hd') ▸ hnear
    have hno : ∀ d' ∈ accepts (rxConfig n) st.q e.call, d'.1 ≠ x := by
      rintro d' hd' rfl
      exact absurd hx (by simp [vacant_of_accepts h.sound h.started hd'])
    have htold : (st.noted n e).arrivalOf n x = (st.takes n e x).stampNs := by
      rcases hsup.kept x hx hnear' with ⟨p, hp⟩ | hheld
      · exact hafter.handed _ (List.mem_append_right _ (List.mem_map_of_mem hp))
      · exact hafter.waiting x hheld
    rw [takes_of_ne hno, arrivalOf_noted_of_eq hd hslot] at htold
    exact htold.symm
  -- what the call brought has just been noted; anything else has its slot spared
  · intro hspares
    have htold {x : UInt64} {p : Payload} (hp : avail x.toNat = some p) :
        (st.noted n e).arrivalOf n x = (st.takes n e x).stampNs := by
      rcases hsup.source x p hp with hown | ⟨hx, -, hno, hnear⟩
      · rw [arrivalOf_noted_of_eq (carried_of_accepts hown) rfl]
        exact (congrArg Copy.stampNs (takes_of_accepts hown)).symm
      · rw [takes_of_ne hno]
        by_cases hshares : ∃ d ∈ carried e.call,
            maskIndex (rxWindow n) x = maskIndex (rxWindow n) d.1
        · obtain ⟨d, hd, hslot⟩ := hshares
          rw [arrivalOf_noted_of_eq hd hslot]
          exact (hspares d hd (hnear d hd) x ((mem_heldSeqs h.sound.windowed).mpr hx) hslot).symm
        · rw [arrivalOf_noted_of_ne fun d hd hslot => hshares ⟨d, hd, hslot⟩]
          exact hagrees.waiting x hx
    refine ⟨fun ho hho => ?_, fun x hx => htold (hsup.waiting x hx)⟩
    rcases List.mem_append.mp hho with hold | hnew
    · exact hagrees.handed ho hold
    · obtain ⟨⟨x, p⟩, hd, rfl⟩ := List.mem_map.mp hnew
      exact htold (hsup.handed x p hd)

end Step

/-! ## The run -/

/-- The table beside it does not touch the sequencer. -/
theorem after_q {n : ℕ} : ∀ (es : List Stamped) (st : RunState),
    (Trace.after (RunState.step n) st es).q = run (rxConfig n) st.q (es.map Stamped.call)
  | [], _ => rfl
  | e :: es, st => after_q es (st.step n e)

/-- Without their times they are the calls of the loop. -/
theorem map_call_stampedCalls (rs : List Received) :
    (stampedCalls rs).map Stamped.call = callList (rs.map Received.arrival) := by
  induction rs with
  | nil => rfl
  | cons r rs ih =>
    have hown : ((callList [r.arrival]).map fun call => (⟨call, r.stamp⟩ : Stamped)).map
        Stamped.call = callList [r.arrival] := by
      rw [List.map_map]
      exact List.map_id _
    unfold stampedCalls at ih ⊢
    rw [List.flatMap_cons, List.map_append, ih, hown, List.map_cons]
    exact (callList_append [r.arrival] _).symm

/-- The sequencer of such a run is the receiver's. -/
theorem after_stampedCalls (n : ℕ) (rs : List Received) :
    (Trace.after (RunState.step n) (RunState.start n) (stampedCalls rs)).q
      = run (rxConfig n) (begin (rxConfig n) 1) (callList (rs.map Received.arrival)) := by
  rw [after_q, map_call_stampedCalls]
  rfl

/-- So the records are true in every state of a run. -/
theorem carrying_run {n : ℕ} (hcap : (rxConfig n).capacity < 2 ^ 64) (es : List Stamped) :
    Trace.Always (RunState.step n) (Carrying n) (RunState.start n) es :=
  Trace.always_of_along (P := fun _ _ => True) (fun _ e h _ => carrying_step hcap h e) es _
    (carrying_start n) (.of_forall fun _ _ => trivial)

/-- **Every sample starts at the copy that was taken exactly when nothing that waits is written
over.** For any reorder window, any datagrams on the two lines, replies and turns of the clock: in
every state the table agrees with the sequencer if and only if every call spares what is waiting.
The record is the sink's own, the bytes handed over are those of the copy taken, and the sequencer
beside the table is the receiver's.

A window over `2 ^ 63` is never rounded up: the loop that does it does not end. -/
theorem samples_agree_iff (n : ℕ) (hn : n ≤ 2 ^ 63) (rs : List Received) :
    (Trace.Always (RunState.step n) (RunState.Agrees n) (RunState.start n) (stampedCalls rs) ↔
        Trace.Along (RunState.step n) (RunState.Spares n) (RunState.start n) (stampedCalls rs)) ∧
      Trace.Always (RunState.step n) (fun st =>
          st.handed.map (fun h => (h.sequence, h.payload)) = st.q.sink ∧
            ∀ h ∈ st.handed, h.payload = h.copy.payload)
        (RunState.start n) (stampedCalls rs) ∧
      (Trace.after (RunState.step n) (RunState.start n) (stampedCalls rs)).q
        = run (rxConfig n) (begin (rxConfig n) 1) (callList (rs.map Received.arrival)) := by
  have hcap := rxConfig_capacity_lt hn
  refine ⟨?_, (carrying_run hcap _).mono fun st h => ⟨h.sink, h.handed⟩, after_stampedCalls n rs⟩
  exact Trace.always_iff_along_of_invariant (fun st e h => carrying_step hcap h e)
    (fun st e h hagrees => agrees_step hcap h hagrees e) _ _ (carrying_start n)
    ⟨fun h hh => absurd hh (by simp [RunState.start]), fun x hx => absurd hx (by
      simp [RunState.start, begin, restart, reset, clearRecovery, holds])⟩

/-- One message in a datagram of its own. -/
def single (line : LineId) (seq : UInt64) (now kernelTsNs : UInt64) : Received :=
  ⟨.datagram line (frame (padSession []) seq [[0x41]]) now, kernelTsNs⟩

/-- The second message waits for the first; its other copy is no longer new when it comes. -/
def oneWaits : List Received :=
  [single .a 2 10 9, single .b 1 20 0, single .b 2 30 29, single .a 1 40 0]

theorem samples_agree_oneWaits :
    Trace.Always (RunState.step 4) (RunState.Agrees 4) (RunState.start 4) (stampedCalls oneWaits) :=
  (samples_agree_iff 4 (by decide) oneWaits).1.mpr (by decide)

/-- The second message is on both lines before the first is on either. -/
def bothLines : List Received :=
  [single .a 2 10 9, single .b 2 20 19, single .a 1 30 29]

/-- A late copy of the first message, while the fifth waits in a window of four. -/
def lateCopy : List Received :=
  [single .a 1 10 9, single .a 5 20 19, single .b 1 30 29, single .a 2 40 39, single .a 3 50 49,
    single .a 4 60 59]

/-- **A copy the sequencer has no use for starts the sample**: a second one of the message that is
waiting, or one of another that shares its slot. -/
theorem not_samples_agree_secondCopy :
    (∃ h ∈ (Trace.after (RunState.step 4) (RunState.start 4) (stampedCalls bothLines)).handed,
        h.sequence = 2 ∧ h.copy.stampNs = 9 ∧ h.arrived = 19) ∧
      ∃ h ∈ (Trace.after (RunState.step 4) (RunState.start 4) (stampedCalls lateCopy)).handed,
        h.sequence = 5 ∧ h.copy.stampNs = 19 ∧ h.arrived = 29 := by
  constructor <;> decide

end Tickerplant
