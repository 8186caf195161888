import Tickerplant.Sequencer.Window

/-!
# Taking a message in, one piece at a time

`Ok` is the invariant of a sequencer between calls: the window is sound, nothing is left
deliverable at the front, and the state machine agrees with the window about whether anything is
held. The pieces `ingest` is made of are taken here one by one: handing the front on and draining
behind it, putting an early message into its slot, and making room for one that is too far ahead.
Each is a run of the reassembler the sequencer stands for.

Most of a call is bookkeeping: crediting a line, settling the state machine, counting. `Quiet` says
of such a change that the stream does not see it, and the soundness of the window, the view of it
and the record of the sink all pass through it. So a piece is proved for the part that moves the
window (`delivered`, `written`), and the bookkeeping is added by its `Quiet` lemma.

The soundness of a piece and the state machine's honesty after it are stated apart. The first needs
the window alone, and holds in the middle of a call as well; the second is only true once the call
has settled.
-/

set_option autoImplicit false

namespace Tickerplant
namespace Sequencer

open Lib

variable {c : SequencerConfig}

/-! ## Changes the stream does not see -/

/-- The two agree on the window, the front and what has been handed on or counted as dropped. -/
structure Quiet (q q' : Sequencer) : Prop where
  /-- No slot changed, so neither did what is held. -/
  window : q'.window = q.window
  expected : q'.expected = q.expected
  pending : q'.pending = q.pending
  /-- Nothing was handed on. -/
  sink : q'.sink = q.sink
  dropped : q'.stats.messagesDropped = q.stats.messagesDropped
  /-- The two counters that count what the stream saw; the others may move. -/
  accepted : q'.stats.accepted = q.stats.accepted
  started : q'.started = q.started

namespace Quiet

variable {q q' q'' : Sequencer}

/-- Nothing happened. -/
theorem refl (q : Sequencer) : Quiet q q := ⟨rfl, rfl, rfl, rfl, rfl, rfl, rfl⟩

/-- One change after the other. -/
theorem trans (h : Quiet q q') (h' : Quiet q' q'') : Quiet q q'' :=
  ⟨h'.1.trans h.1, h'.2.trans h.2, h'.3.trans h.3, h'.4.trans h.4, h'.5.trans h.5,
    h'.6.trans h.6, h'.7.trans h.7⟩

theorem holds (h : Quiet q q') (x : UInt64) : q'.holds c x = q.holds c x := by
  unfold Sequencer.holds
  rw [h.window]

/-- The window is as sound as it was. -/
theorem windowed (h : Quiet q q') (hw : Windowed c q) : Windowed c q' where
  home := by rw [h.window]; exact hw.home
  ge := by rw [h.window, h.expected]; exact hw.ge
  lt := by rw [h.window, h.expected]; exact hw.lt
  pending := by rw [h.window, h.pending]; exact hw.pending

/-- And as far from the wrap. -/
theorem windowOk (h : Quiet q q') (hw : WindowOk c q) : WindowOk c q' where
  toWindowed := h.windowed hw.windowed
  far := by rw [h.window]; exact hw.far
  front := by rw [h.expected]; exact hw.front

/-- The sequencer stands for the same reassembler. -/
theorem abs (h : Quiet q q') (taken : List (ℕ × Payload)) (lost : ℕ) :
    abs c q' taken lost = Sequencer.abs c q taken lost := by
  unfold Sequencer.abs sinkView
  rw [h.expected, heldView_congr h.window, h.sink]

end Quiet

/-- Crediting a line moves one counter. -/
theorem creditLine_quiet (q : Sequencer) (line : Option LineId) : Quiet q (q.creditLine line) := by
  rcases line with _ | _ | _ <;> exact ⟨rfl, rfl, rfl, rfl, rfl, rfl, rfl⟩

/-- Settling moves the state machine and its counters. -/
theorem settle_quiet (q : Sequencer) (nowNs : UInt64) : Quiet q (q.settle nowNs) := by
  unfold settle
  split
  · split
    · exact ⟨rfl, rfl, rfl, rfl, rfl, rfl, rfl⟩
    · exact Quiet.refl q
  · split
    · exact ⟨rfl, rfl, rfl, rfl, rfl, rfl, rfl⟩
    · exact Quiet.refl q

/-- Going `Stale` leaves the window as it is. -/
theorem enterStale_quiet (q : Sequencer) : Quiet q q.enterStale :=
  ⟨rfl, rfl, rfl, rfl, rfl, rfl, rfl⟩

/-- A copy of something dealt with moves one counter. -/
theorem countDuplicate_quiet (q : Sequencer) : Quiet q q.countDuplicate :=
  ⟨rfl, rfl, rfl, rfl, rfl, rfl, rfl⟩

/-! ## The count of accepted messages -/

/-- `stats_.accepted` is the number of calls made to the sink. -/
def Tally (q : Sequencer) : Prop := q.stats.accepted = q.sink.length

namespace Tally

variable {q q' : Sequencer}

theorem quiet (h : Quiet q q') (ht : Tally q) : Tally q' := by
  unfold Tally
  rw [h.accepted, h.sink]
  exact ht

/-- A call of the sink is counted where it is made. -/
theorem hand (h : Tally q) (seq : UInt64) (payload : Payload) : Tally (q.hand seq payload) := by
  show q.stats.accepted + 1 = (q.sink ++ [(seq, payload)]).length
  rw [List.length_append, ← h]
  rfl

/-- A release calls the sink once. -/
theorem release (h : Tally q) : Tally (q.release c) := h.hand _ _

theorem drain (h : Tally q) : Tally (q.drain c) :=
  drainLoop_induct (P := Tally) (fun _ h _ => h.release) _ q h

/-- A jump calls it for what it walks over, and not for what it wipes. -/
theorem skipTo (h : Tally q) (target : UInt64) : Tally (q.skipTo c target).2 := by
  unfold Sequencer.skipTo
  split
  · exact h
  · simp only
    split
    · exact h
    · exact (skipLoop_induct (P := Tally) (fun _ h _ _ => h.release) (fun _ h _ _ => h) _ q h).drain

theorem overflow (h : Tally q) (seq : UInt64) : Tally (q.overflow c seq) := by
  unfold Sequencer.overflow
  simp only
  split
  · exact (h.skipTo _).skipTo _
  · exact h.skipTo _

end Tally

/-! ## The state between calls -/

/-- What holds of a started sequencer between two calls, below the wrap. -/
structure Ok (c : SequencerConfig) (q : Sequencer) : Prop where
  /-- The window says what it holds. -/
  window : WindowOk c q
  /-- Nothing is waiting to be drained. -/
  idle : q.holds c q.expected = false
  /-- A hole is open only with something held beyond it. -/
  open_held : q.state = .gap ∨ q.state = .recovering → q.pending ≠ 0
  /-- `Synced` promises that every sequence before the front was delivered and nothing waits
  beyond. -/
  synced_empty : q.state = .synced → q.pending = 0
  /-- The stream has a first sequence, so `ingest` will not reset. -/
  started : q.started = true

/-- The state machine's own fields may change as long as it stays honest about the window. -/
theorem Ok.quiet {q q' : Sequencer} (h : Ok c q) (hq : Quiet q q')
    (ho : q'.state = .gap ∨ q'.state = .recovering → q.pending ≠ 0)
    (hs : q'.state = .synced → q.pending = 0) : Ok c q' where
  window := hq.windowOk h.window
  idle := by rw [hq.holds, hq.expected]; exact h.idle
  open_held := by rw [hq.pending]; exact ho
  synced_empty := by rw [hq.pending]; exact hs
  started := by rw [hq.started]; exact h.started

/-- A reset that far from the wrap leaves nothing held and nothing lost. -/
theorem Ok.reset (q : Sequencer) {first : UInt64} (hf : Far c first) : Ok c (q.reset first) where
  window := ⟨⟨fun _ hp => absurd hp (by simp [Sequencer.reset, clearRecovery]),
    fun _ hp => absurd hp (by simp [Sequencer.reset, clearRecovery]),
    fun _ hp => absurd hp (by simp [Sequencer.reset, clearRecovery]),
    by simp [Sequencer.reset, clearRecovery]⟩,
    fun _ hp => absurd hp (by simp [Sequencer.reset, clearRecovery]), Nat.le_of_lt hf⟩
  idle := SlotRing.has_clear
  open_held := by simp [Sequencer.reset, clearRecovery]
  synced_empty := fun _ => rfl
  started := rfl

/-- After a reset it stands for a reassembler that has taken nothing. -/
theorem abs_reset (q : Sequencer) (first : UInt64) (hq : q.sink = []) :
    abs c (q.reset first) [] 0 = Reassembly.start first.toNat := by
  unfold abs
  rw [heldView_none (fun x => by simp [holds, Sequencer.reset, clearRecovery])]
  simp [Reassembly.start, sinkView, Sequencer.reset, clearRecovery, hq]

/-- So does a reset that starts the record anew. -/
theorem restart_ok (q : Sequencer) {first : UInt64} (hf : Far c first) : Ok c (q.restart first) :=
  Ok.reset _ hf

theorem abs_restart (q : Sequencer) (first : UInt64) :
    abs c (q.restart first) [] 0 = Reassembly.start first.toNat := abs_reset _ _ rfl

/-! ## Delivery at the front -/

section Deliver

variable {q : Sequencer} {seq : UInt64}

/-- Handing the front on moves the window forward by one. -/
theorem WindowOk.handFront (h : WindowOk c q) (hn : q.holds c q.expected = false)
    (hf : Far c q.expected) (payload : Payload) :
    WindowOk c { q.hand q.expected payload with expected := q.expected + 1 } := by
  have hd := h.dropFront hn hf
  exact ⟨⟨hd.home, hd.ge, hd.lt, hd.pending⟩, hd.far, hd.front⟩

/-- Handing the front on is the reassembler's way of taking the message that is due. -/
theorem abs_handFront (hn : q.holds c q.expected = false) (hf : Far c q.expected)
    (payload : Payload) (taken : List (ℕ × Payload)) (lost : ℕ) :
    Reassembly.Step (abs c q taken lost)
      (abs c { q.hand q.expected payload with expected := q.expected + 1 }
        (taken ++ [(q.expected.toNat, payload)]) lost) := by
  have hc := c.capacity_pos
  unfold Far at hf
  have hexp : (q.expected + 1).toNat = q.expected.toNat + 1 := toNat_succ (by omega)
  have hheld : (abs c q taken lost).held (abs c q taken lost).next = none := by
    show heldView c q q.expected.toNat = _
    rw [heldView_toNat, hn]
    rfl
  have hstep := Reassembly.Step.pass (abs c q taken lost) payload hheld
  have habs : abs c { q.hand q.expected payload with expected := q.expected + 1 }
      (taken ++ [(q.expected.toNat, payload)]) lost
      = { abs c q taken lost with
          next := (abs c q taken lost).next + 1
          taken := (abs c q taken lost).taken ++ [((abs c q taken lost).next, payload)]
          log := (abs c q taken lost).log ++ [((abs c q taken lost).next, payload)] } := by
    have hview : heldView c { q.hand q.expected payload with expected := q.expected + 1 }
        = heldView c q := heldView_congr rfl
    unfold abs
    simp only [hexp, hview]
    simp [sinkView, hand]
  rw [habs]
  exact hstep

/-- Settling leaves an open hole only where something is held. -/
theorem settle_open (q : Sequencer) (nowNs : UInt64)
    (h : (q.settle nowNs).state = .gap ∨ (q.settle nowNs).state = .recovering) :
    q.pending ≠ 0 := by
  intro h0
  unfold settle at h
  rw [if_pos h0] at h
  split at h
  · rcases h with h | h <;> exact absurd h (by simp [clearRecovery])
  · rename_i hno; exact hno h

/-- Settling with something held does not go back to `Synced`. -/
theorem settle_synced (q : Sequencer) (nowNs : UInt64) (hs : q.state = .synced → q.pending = 0)
    (h : (q.settle nowNs).state = .synced) : q.pending = 0 := by
  by_contra hp
  unfold settle at h
  rw [if_neg hp] at h
  split at h
  · exact absurd h (by simp [clearRecovery])
  · exact hp (hs h)

/-- Settling does not lead out of `Stale`. -/
theorem settle_stale {q : Sequencer} (nowNs : UInt64) (h : q.state = .stale) :
    (q.settle nowNs).state = .stale := by
  unfold settle
  split <;> split <;> simp_all

/-- The state `deliver_now` settles. -/
def delivered (c : SequencerConfig) (q : Sequencer) (payload : Payload)
    (line : Option LineId) : Sequencer :=
  ({ (q.creditLine line).hand q.expected payload with expected := q.expected + 1 } :
    Sequencer).drain c

/-- `deliver_now` is that state, settled. -/
theorem deliverNow_eq (payload : Payload) (nowNs : UInt64) (line : Option LineId) :
    q.deliverNow c q.expected payload nowNs line = (delivered c q payload line).settle nowNs := by
  have he := (creditLine_quiet q line).expected
  unfold deliverNow delivered
  simp only [hand, he]

/-- **Delivering** takes the message that is due and hands on what was stacked up behind it. -/
theorem delivered_spec (h : WindowOk c q) (hn : q.holds c q.expected = false)
    (hf : Far c q.expected) (payload : Payload) (line : Option LineId)
    (taken : List (ℕ × Payload)) (lost : ℕ) :
    WindowOk c (delivered c q payload line) ∧
      (delivered c q payload line).stats.messagesDropped = q.stats.messagesDropped ∧
      Reassembly.Steps (abs c q taken lost)
        (abs c (delivered c q payload line) (taken ++ [(q.expected.toNat, payload)]) lost) := by
  have hq := creditLine_quiet q line
  unfold delivered
  have he := hq.expected
  have hw := hq.windowOk h
  have ha := hq.abs (c := c) taken lost
  have hn' := hq.holds (c := c) q.expected
  have hd := hq.dropped
  generalize q.creditLine line = r at he hw ha hn' hd
  rw [← he] at hn hf hn' ⊢
  rw [hn] at hn'
  have hw' := hw.handFront hn' hf payload
  refine ⟨hw'.drain, ?_, ?_⟩
  · rw [drain_messagesDropped]
    exact hd
  · have hs := abs_handFront hn' hf payload taken lost
    rw [ha] at hs
    exact (Relation.ReflTransGen.single hs).trans (abs_drain hw' _ _)

/-- The state machine has not been asked yet. -/
theorem delivered_state (payload : Payload) (line : Option LineId) :
    (delivered c q payload line).state = q.state ∧
      (delivered c q payload line).started = q.started := by
  have hf := Frame.drain (c := c)
    { (q.creditLine line).hand q.expected payload with expected := q.expected + 1 }
  unfold delivered
  rw [hf.state, hf.started]
  rcases line with _ | _ | _ <;> exact ⟨rfl, rfl⟩

/-- The drain leaves nothing deliverable. -/
theorem delivered_idle (payload : Payload) (line : Option LineId) :
    (delivered c q payload line).holds c (delivered c q payload line).expected = false :=
  drain_done _

end Deliver

/-! ## Holding an early message -/

section Buffer

variable {q : Sequencer} {seq : UInt64}

/-- What the slot of `seq` reads back after `payload` was put into it: all of it, as long as its
length fits the slot's length field. -/
def slotted (payload : Payload) : Payload := payload.take (payload.length % 2 ^ 32)

/-- So it does below four gibibytes. -/
theorem slotted_eq {payload : Payload} (h : payload.length < 2 ^ 32) :
    slotted payload = payload := by
  unfold slotted
  rw [Nat.mod_eq_of_lt h, List.take_length]

/-- The window and the count after `buffer`; the rest of it is the state machine and counters. -/
def written (c : SequencerConfig) (q : Sequencer) (seq : UInt64) (payload : Payload) : Sequencer :=
  { q with window := q.window.write c.capacity seq payload, pending := q.pending + 1 }

/-- What `buffer` does beyond that, the stream does not see. -/
theorem buffer_quiet (q : Sequencer) (seq : UInt64) (payload : Payload) (nowNs : UInt64)
    (line : Option LineId) :
    Quiet (written c q seq payload) (q.buffer c seq payload nowNs line) := by
  unfold buffer
  rcases line with _ | _ | _ <;> simp only [creditLine] <;> split <;> split <;>
    exact ⟨rfl, rfl, rfl, rfl, rfl, rfl, rfl⟩

/-- The first message held turns `Synced` into `Gap`; any other state stays. -/
theorem buffer_state (q : Sequencer) (seq : UInt64) (payload : Payload) (nowNs : UInt64)
    (line : Option LineId) :
    (q.buffer c seq payload nowNs line).state = if q.state = .synced then .gap else q.state := by
  unfold buffer
  rcases line with _ | _ | _ <;> simp only [creditLine] <;> split <;> split <;> simp_all

/-- A message in reach goes into a slot that is free, because nothing else in reach has that slot.
-/
theorem Windowed.written (h : Windowed c q) (hcap : c.capacity < 2 ^ 64)
    (hn : q.holds c seq = false) (hlo : q.expected < seq)
    (hhi : seq.toNat < q.expected.toNat + c.capacity) (payload : Payload) :
    Windowed c (written c q seq payload) := by
  obtain ⟨k, hk⟩ := c.capacity_pow
  rw [UInt64.lt_iff_toNat_lt] at hlo
  -- a slot in use at this index would hold `seq` itself
  have hfree : (q.window.slots (maskIndex c.capacity seq)).present = false := by
    rw [← Bool.not_eq_true]
    exact fun hp => absurd (h.holds_of_present (Nat.le_of_lt hlo) hhi hp) (by simp [hn])
  have hcases := @SlotRing.write_slots_cases c.capacity seq payload q.window
  have hwin : (Sequencer.written c q seq payload).window = q.window.write c.capacity seq payload :=
    rfl
  refine ⟨fun i hp => ?_, fun i hp => ?_, fun i hp => ?_, ?_⟩ <;>
    try rw [hwin] at hp ⊢
  · rcases hcases i with ⟨hi, heq⟩ | ⟨_, heq⟩
    · rw [heq]; exact hi.symm
    · rw [heq] at hp ⊢; exact h.home i hp
  · rcases hcases i with ⟨_, heq⟩ | ⟨_, heq⟩
    · rw [heq]; exact Nat.le_of_lt hlo
    · rw [heq] at hp ⊢; exact h.ge i hp
  · rcases hcases i with ⟨_, heq⟩ | ⟨_, heq⟩
    · rw [heq]; exact hhi
    · rw [heq] at hp ⊢; exact h.lt i hp
  -- one more slot is in use, and the count cannot wrap because there are only so many slots
  · have hocc := SlotRing.occupied_write hk (p := payload) hfree
    have hle : q.window.occupied c.capacity + 1 ≤ c.capacity := hocc ▸ SlotRing.occupied_le
    have hp := h.pending
    show (q.pending + 1).toNat = (q.window.write c.capacity seq payload).occupied c.capacity
    rw [hocc, toNat_succ (by omega), hp]

/-- It keeps the distance if the message does. -/
theorem WindowOk.written (h : WindowOk c q) (hn : q.holds c seq = false) (hf : Far c seq)
    (hlo : q.expected < seq) (hhi : seq.toNat < q.expected.toNat + c.capacity)
    (payload : Payload) : WindowOk c (written c q seq payload) := by
  have hw := h.windowed.written (by unfold Far at hf; omega) hn hlo hhi payload
  refine ⟨hw, fun i hp => ?_, h.front⟩
  have hwin : (Sequencer.written c q seq payload).window = q.window.write c.capacity seq payload :=
    rfl
  rw [hwin] at hp ⊢
  rcases @SlotRing.write_slots_cases c.capacity seq payload q.window i with ⟨_, heq⟩ | ⟨_, heq⟩
  · rw [heq]; exact hf
  · rw [heq] at hp ⊢; exact h.far i hp

/-- The view gains the message and nothing else. -/
theorem heldView_written (h : Windowed c q) (hlo : q.expected < seq)
    (hhi : seq.toNat < q.expected.toNat + c.capacity) (payload : Payload) :
    heldView c (written c q seq payload)
      = Function.update (heldView c q) seq.toNat (some (slotted payload)) := by
  rw [UInt64.lt_iff_toNat_lt] at hlo
  refine heldView_ext (fun x => ?_) (fun n hn => ?_)
  · rw [Function.update_apply, heldView_toNat]
    by_cases hx : x = seq
    · subst hx
      have hhas : (written c q x payload).holds c x = true := SlotRing.has_write_self
      have hst : (written c q x payload).stored c x = slotted payload :=
        SlotRing.bytesOf_write_self
      rw [if_pos rfl, if_pos hhas, hst]
    · rw [if_neg (fun he => hx (UInt64.toNat_inj.mp he)), heldView_toNat]
      by_cases hidx : maskIndex c.capacity x = maskIndex c.capacity seq
      · -- the slot of `x` is the one written, and did not hold `x` before either
        have hno : q.holds c x = false := by
          rw [← Bool.not_eq_true]
          exact fun hxh => h.index_ne hxh hx (Nat.le_of_lt hlo) hhi hidx
        have hno' : (written c q seq payload).holds c x = false := by
          rw [← Bool.not_eq_true, holds_iff, hidx]
          show ¬(((q.window.write c.capacity seq payload).slots _).present = true ∧
            ((q.window.write c.capacity seq payload).slots _).seq = x)
          rw [SlotRing.write_slots_self]
          exact fun hcon => hx hcon.2.symm
        simp [hno, hno']
      · have hhas : (written c q seq payload).holds c x = q.holds c x :=
          SlotRing.has_write_ne hidx
        have hst : (written c q seq payload).stored c x = q.stored c x :=
          SlotRing.bytesOf_write_ne hidx
        rw [hhas, hst]
  · have hne : n ≠ seq.toNat := by
      have := seq.toNat_lt
      omega
    rw [Function.update_apply, if_neg hne, heldView_big hn]

/-- Holding a message is the reassembler's way of taking one that is early. -/
theorem abs_written (h : WindowOk c q) (hn : q.holds c seq = false) (hlo : q.expected < seq)
    (hhi : seq.toNat < q.expected.toNat + c.capacity) (payload : Payload)
    (taken : List (ℕ × Payload)) (lost : ℕ) :
    Reassembly.Step (abs c q taken lost)
      (abs c (written c q seq payload) (taken ++ [(seq.toNat, slotted payload)]) lost) := by
  have hheld : (abs c q taken lost).held seq.toNat = none := by
    show heldView c q seq.toNat = _
    rw [heldView_toNat, hn]
    rfl
  have hstep := Reassembly.Step.hold (abs c q taken lost) seq.toNat (slotted payload)
    (UInt64.lt_iff_toNat_lt.mp hlo) hheld
  have habs : abs c (written c q seq payload) (taken ++ [(seq.toNat, slotted payload)]) lost
      = { abs c q taken lost with
          held := Function.update (abs c q taken lost).held seq.toNat (some (slotted payload))
          taken := (abs c q taken lost).taken ++ [(seq.toNat, slotted payload)] } := by
    simp only [abs, heldView_written h.windowed hlo hhi]
    simp [sinkView, written]
  rw [habs]
  exact hstep

/-- What is held is ahead of the front, so the front is still a hole. -/
theorem written_idle (h : Windowed c q) (hi : q.holds c q.expected = false)
    (hlo : q.expected < seq) (hhi : seq.toNat < q.expected.toNat + c.capacity)
    (payload : Payload) : (written c q seq payload).holds c q.expected = false := by
  have hv := congrFun (heldView_written h hlo hhi payload) q.expected.toNat
  have hne : q.expected.toNat ≠ seq.toNat := Nat.ne_of_lt (UInt64.lt_iff_toNat_lt.mp hlo)
  rw [Function.update_apply, if_neg hne, heldView_toNat, heldView_toNat, hi] at hv
  rw [← Bool.not_eq_true]
  intro hh
  rw [if_pos hh] at hv
  exact absurd hv (by simp)

end Buffer

/-! ## Making room -/

section Overflow

variable {q : Sequencer} {seq target : UInt64}

/-- A jump gets at least as far as its target. -/
theorem skipTo_expected_ge (h : WindowOk c q) (ht : target.toNat + c.capacity ≤ 2 ^ 64) :
    target ≤ (q.skipTo c target).2.expected := by
  unfold skipTo
  by_cases hle : target ≤ q.expected
  · rw [if_pos hle]; exact hle
  rw [if_neg hle]
  rw [UInt64.le_iff_toNat_le, Nat.not_le] at hle
  simp only
  split
  · exact UInt64.le_refl _
  · have hspan := toNat_sub_of_le (Nat.le_of_lt hle)
    have hreach : (skipLoop c target (target - q.expected).toNat q).expected = target :=
      skipLoop_expected _ q (UInt64.le_iff_toNat_le.mpr (Nat.le_of_lt hle)) (by omega)
    have hge := drain_expected_ge (skipLoop_spec h ht [] 0 (target - q.expected).toNat).1
    rw [hreach] at hge
    exact UInt64.le_iff_toNat_le.mpr hge

/-- The front never passes something that is above everything held. -/
theorem skipTo_expected_le {b : ℕ} (h : WindowOk c q) (ht : target.toNat + c.capacity ≤ 2 ^ 64)
    (hb : ∀ x, q.holds c x = true → x.toNat < b) (htb : target.toNat ≤ b)
    (he : q.expected.toNat ≤ b) : (q.skipTo c target).2.expected.toNat ≤ b := by
  unfold skipTo
  by_cases hle : target ≤ q.expected
  · rw [if_pos hle]; exact he
  rw [if_neg hle]
  rw [UInt64.le_iff_toNat_le, Nat.not_le] at hle
  simp only
  split
  · exact htb
  · have hspan := toNat_sub_of_le (Nat.le_of_lt hle)
    have hreach : (skipLoop c target (target - q.expected).toNat q).expected = target :=
      skipLoop_expected _ q (UInt64.le_iff_toNat_le.mpr (Nat.le_of_lt hle)) (by omega)
    refine drain_expected_le (skipLoop_spec h ht [] 0 (target - q.expected).toNat).1
      (fun x hx => hb x (holds_of_skipLoop hx)) ?_
    rw [hreach]
    exact htb

/-- After a move nothing is left deliverable. -/
theorem skipTo_idle (hi : q.holds c q.expected = false) :
    (q.skipTo c target).2.holds c (q.skipTo c target).2.expected = false := by
  unfold skipTo
  split
  · exact hi
  · simp only
    split
    · exact SlotRing.has_clear
    · exact drain_done _

/-- A wiping move empties the window. -/
theorem skipTo_wiped (h : (q.skipTo c target).1 = true) (x : UInt64) :
    (q.skipTo c target).2.holds c x = false ∧ (q.skipTo c target).2.expected = target := by
  unfold skipTo at h ⊢
  split at h
  · exact absurd h (by simp)
  · rename_i hle
    simp only at h ⊢
    split at h
    · rename_i hcap
      rw [if_neg hle, if_pos hcap]
      exact ⟨SlotRing.has_clear, rfl⟩
    · exact absurd h (by simp)

/-- **Making room for a message that is too far ahead**: it ends up in reach and not held, with
nothing deliverable below it. -/
theorem overflow_spec (h : WindowOk c q) (hi : q.holds c q.expected = false) (hf : Far c seq)
    (hfar : q.expected.toNat + c.capacity ≤ seq.toNat) (taken : List (ℕ × Payload)) (lost : ℕ) :
    WindowOk c (q.overflow c seq) ∧ (q.overflow c seq).state = .stale ∧
      (q.overflow c seq).started = q.started ∧
      (q.overflow c seq).expected ≤ seq ∧
      seq.toNat < (q.overflow c seq).expected.toNat + c.capacity ∧
      (q.overflow c seq).holds c seq = false ∧
      (q.overflow c seq).holds c (q.overflow c seq).expected = false ∧
      ∃ k, (q.overflow c seq).stats.messagesDropped = q.stats.messagesDropped + k ∧
        Reassembly.Steps (abs c q taken lost) (abs c (q.overflow c seq) taken (lost + k)) := by
  have hc := c.capacity_pos
  unfold Far at hf
  have htarget : (seq - UInt64.ofNat (c.capacity - 1)).toNat = seq.toNat - (c.capacity - 1) :=
    toNat_sub_ofNat (by omega)
  -- the window reaches less far than the message, so neither it nor anything beyond it is held
  have hheld : ∀ x, q.holds c x = true → x.toNat < seq.toNat := by
    intro x hx
    have := h.windowed.lt_of_holds hx
    omega
  have hno : q.holds c seq = false := by
    rw [← Bool.not_eq_true]
    exact fun hh => absurd (hheld seq hh) (Nat.lt_irrefl _)
  unfold overflow
  generalize seq - UInt64.ofNat (c.capacity - 1) = target at htarget
  have ht : target.toNat + c.capacity ≤ 2 ^ 64 := by omega
  obtain ⟨hw, k, hk, hs⟩ := skipTo_spec h ht taken lost
  have hge := UInt64.le_iff_toNat_le.mp (skipTo_expected_ge h ht)
  have hle := skipTo_expected_le h ht hheld (by omega) (by omega : q.expected.toNat ≤ seq.toNat)
  have hidle : (q.skipTo c target).2.holds c (q.skipTo c target).2.expected = false :=
    skipTo_idle hi
  have hfr := Frame.skipTo (c := c) q target
  have hwiped := @skipTo_wiped c q target
  have hsub : ∀ {x}, (q.skipTo c target).2.holds c x = true → q.holds c x = true :=
    holds_of_skipTo
  generalize q.skipTo c target = r at hw hk hs hge hle hidle hfr hwiped hsub
  simp only
  by_cases hr : r.1 = true
  · -- wiped: a second move, through an empty window, ends at the message itself
    rw [if_pos hr]
    have hseq : seq.toNat + c.capacity ≤ 2 ^ 64 := by omega
    obtain ⟨hw', k', hk', hs'⟩ := skipTo_spec hw hseq taken (lost + k)
    have hge' := UInt64.le_iff_toNat_le.mp (skipTo_expected_ge hw hseq)
    have hle' := skipTo_expected_le hw hseq
      (fun x hx => absurd hx (by simp [(hwiped hr x).1])) (Nat.le_refl _) hle
    have hno' : (r.2.skipTo c seq).2.holds c seq = false := by
      rw [← Bool.not_eq_true]
      exact fun hh => absurd (hsub (holds_of_skipTo hh)) (by simp [hno])
    have hfr' := Frame.skipTo (c := c) r.2 seq
    refine ⟨(enterStale_quiet _).windowOk hw', rfl, hfr'.started.trans hfr.started,
      UInt64.le_iff_toNat_le.mpr hle', ?_, hno', skipTo_idle hidle, k + k', ?_, ?_⟩
    · show seq.toNat < (r.2.skipTo c seq).2.expected.toNat + _
      omega
    · show (r.2.skipTo c seq).2.stats.messagesDropped = _
      omega
    · rw [(enterStale_quiet _).abs, ← Nat.add_assoc]
      exact hs.trans hs'
  -- not wiped: the least that makes room leaves the message in reach
  · rw [if_neg hr]
    refine ⟨(enterStale_quiet _).windowOk hw, rfl, hfr.started, UInt64.le_iff_toNat_le.mpr hle,
      ?_, ?_, hidle, k, hk, ?_⟩
    · show seq.toNat < r.2.expected.toNat + _
      omega
    · show r.2.holds c seq = false
      rw [← Bool.not_eq_true]
      exact fun hh => absurd (hsub hh) (by simp [hno])
    · rw [(enterStale_quiet _).abs]
      exact hs

end Overflow

/-! ## Between calls -/

section Between

variable {q : Sequencer} {seq : UInt64}

/-- Taking an early message leaves nothing deliverable. -/
theorem takeEarly_idle (hn : q.holds c q.expected = false) (hlt : q.expected < seq)
    (payload : Payload) (nowNs : UInt64) (line : Option LineId) :
    (q.takeEarly c seq payload nowNs line).2.holds c
      (q.takeEarly c seq payload nowNs line).2.expected = false := by
  unfold Sequencer.takeEarly
  split
  · exact hn
  · have hq := buffer_quiet (c := c) q seq payload nowNs line
    rw [hq.holds, hq.expected, show (written c q seq payload).expected = q.expected from rfl,
      ← Bool.not_eq_true, holds_iff]
    rintro ⟨hp, hs⟩
    rcases @SlotRing.write_slots_cases c.capacity seq payload q.window
        (maskIndex c.capacity q.expected) with ⟨_, heq⟩ | ⟨_, heq⟩
    · rw [show (written c q seq payload).window.slots _ = _ from heq] at hs
      have hs' : seq = q.expected := hs
      rw [hs', UInt64.lt_iff_toNat_lt] at hlt
      exact absurd hlt (Nat.lt_irrefl _)
    · rw [show (written c q seq payload).window.slots _ = _ from heq] at hp hs
      rw [← Bool.not_eq_true, holds_iff] at hn
      exact hn ⟨hp, hs⟩

/-- Nor does delivering one. -/
theorem deliverNow_idle (payload : Payload) (nowNs : UInt64) (line : Option LineId) :
    (q.deliverNow c q.expected payload nowNs line).holds c
      (q.deliverNow c q.expected payload nowNs line).expected = false := by
  rw [deliverNow_eq, (settle_quiet _ nowNs).holds, (settle_quiet _ nowNs).expected]
  exact delivered_idle payload line

/-- Nor does making room for one. -/
theorem overflow_idle (hn : q.holds c q.expected = false) :
    (q.overflow c seq).holds c (q.overflow c seq).expected = false := by
  have hstale (q1 : Sequencer) (h1 : q1.holds c q1.expected = false) :
      q1.enterStale.holds c q1.enterStale.expected = false := by
    rw [(enterStale_quiet q1).holds, (enterStale_quiet q1).expected]
    exact h1
  unfold Sequencer.overflow
  simp only
  split
  · exact hstale _ (skipTo_idle (skipTo_idle hn))
  · exact hstale _ (skipTo_idle hn)

/-- No message takes a sequencer back to before its first. -/
theorem ingestStarted_started (payload : Payload) (nowNs : UInt64) (line : Option LineId) :
    (q.ingestStarted c seq payload nowNs line).2.started = q.started := by
  -- each of the three pieces keeps the flag, and every branch ends in one of them
  have hdeliver (q1 : Sequencer) :
      (q1.deliverNow c q1.expected payload nowNs line).started = q1.started := by
    rw [deliverNow_eq, (settle_quiet _ nowNs).started, (delivered_state payload line).2]
  have hearly (q1 : Sequencer) :
      (q1.takeEarly c seq payload nowNs line).2.started = q1.started := by
    unfold Sequencer.takeEarly
    split
    · rfl
    · rw [(buffer_quiet q1 seq payload nowNs line).started]
      rfl
  have hoverflow : (q.overflow c seq).started = q.started := by
    unfold Sequencer.overflow
    simp only
    split
    · exact (Frame.skipTo _ _).started.trans (Frame.skipTo _ _).started
    · exact (Frame.skipTo _ _).started
  unfold Sequencer.ingestStarted
  split
  · rfl
  split
  · rename_i heq
    subst heq
    exact hdeliver q
  split
  · rfl
  split
  · simp only
    rw [← hoverflow]
    generalize q.overflow c seq = q1
    split
    · rename_i heq
      subst heq
      exact hdeliver q1
    · exact hearly q1
  · exact hearly q

end Between

end Sequencer
end Tickerplant
