import Tickerplant.Lib.Trace
import Tickerplant.Sequencer.Steps

/-!
# What one call does, and what a run does

Every call keeps `Ok` below the 64-bit wrap, and is a run of the reassembler the sequencer stands
for (`Moves`), in which

* the message is taken exactly when `ingest` says so,
* a number is given up on only on the way to `Stale` or in it, and
* `messages_dropped` goes up by what was given up on, and by one more for an early message too
  wide for a slot (`tooWide`), which is counted although nothing is given up on.

`exec_moves` is the step lemma and `run_moves` the run lemma. Nothing below this file unfolds a
call again.

Whether a message is early is not read off the state before the call alone: making room for it may
bring the front all the way up to it, in which case it is delivered and never waits. `early` says
so in terms of what is held (`overflow_reaches_iff`), and with it `tooWide` and `refused` are
predicates of the state before the call that anybody watching the calls could evaluate.

What a slot reads back is not always what was put into it: its length field has 32 bits. `Moves`
therefore lists what the reassembler took, and the claim that this is the payload of the call has a
condition of its own, `Fits`, which only an early message needs.
-/

set_option autoImplicit false

namespace Tickerplant
namespace Sequencer

open Lib

variable {c : SequencerConfig}

/-! ## When an early message is too wide -/

/-- One of the `capacity - 1` sequences before `seq` is not held, so that making room for `seq`
does not bring the front all the way up to it. -/
def fallsShort (c : SequencerConfig) (q : Sequencer) (seq : UInt64) : Bool :=
  (List.range (c.capacity - 1)).any fun i => !q.holds c (seq - UInt64.ofNat (i + 1))

/-- The sequence is ahead of the front and not held, and it is still ahead once room has been made
for it: its message has to wait in a slot. -/
def early (c : SequencerConfig) (q : Sequencer) (seq : UInt64) : Bool :=
  decide (q.expected < seq) && !q.holds c seq &&
    (decide ((seq - q.expected).toNat < c.capacity) ||
      (decide ((seq - q.expected).toNat < 2 * c.capacity - 1) && fallsShort c q seq))

/-- An early message whose payload is wider than a slot. -/
def tooWide (c : SequencerConfig) (q : Sequencer) (seq : UInt64) (payload : Payload) : Bool :=
  decide (c.maxPayload' < payload.length) && early c q seq

section Reach

variable {q : Sequencer}

/-- A drain passes only what was held. -/
theorem holds_of_drained (h : WindowOk c q) {x : UInt64} (hx : q.expected ≤ x)
    (hd : x < (q.drain c).expected) : q.holds c x = true := by
  refine (drainLoop_induct (P := fun q' => WindowOk c q' ∧ (∀ y, q'.holds c y = true →
    q.holds c y = true) ∧ ∀ y, q.expected ≤ y → y < q'.expected → q.holds c y = true) ?_ _ q
    ⟨h, fun _ hy => hy, fun y hy hy' => absurd hy (UInt64.not_le.mpr hy')⟩).2.2 x hx hd
  rintro q' ⟨hw, hsub, hpast⟩ hh
  refine ⟨hw.release hh, fun y hy => hsub y (holds_of_release hy), fun y hy hlt => ?_⟩
  have hexp := release_holds_expected hw hh
  rw [UInt64.lt_iff_toNat_lt, hexp] at hlt
  rcases Nat.lt_or_ge y.toNat q'.expected.toNat with hlt' | hge
  · exact hpast y hy (UInt64.lt_iff_toNat_lt.mpr hlt')
  · have heq : y = q'.expected := UInt64.toNat_inj.mp (by omega)
    rw [heq]
    exact hsub _ hh

/-- Releasing the front leaves every later message in its slot. -/
theorem holds_release (h : WindowOk c q) {x : UInt64} (hx : q.holds c x = true)
    (hne : x ≠ q.expected) : (q.release c).holds c x = true := by
  have hc := c.capacity_pos
  have hidx := h.windowed.index_ne hx hne (Nat.le_refl _) (by omega)
  have hhas : (q.release c).holds c x = q.holds c x := SlotRing.has_vacate_ne hidx
  rw [hhas, hx]

/-- A drain leaves in its slot whatever it does not reach. -/
theorem holds_drain (h : WindowOk c q) {x : UInt64} (hx : q.holds c x = true)
    (hd : (q.drain c).expected ≤ x) : (q.drain c).holds c x = true := by
  refine (drainLoop_induct (P := fun q' => WindowOk c q' ∧ ∀ y, q.holds c y = true →
    q'.expected ≤ y → q'.holds c y = true) ?_ _ q ⟨h, fun _ hy _ => hy⟩).2 x hx hd
  rintro q' ⟨hw, hkeep⟩ hh
  refine ⟨hw.release hh, fun y hy hle => ?_⟩
  have hexp := release_holds_expected hw hh
  rw [UInt64.le_iff_toNat_le, hexp] at hle
  refine holds_release hw (hkeep y hy (UInt64.le_iff_toNat_le.mpr (by omega))) ?_
  rintro rfl
  omega

/-- The drain gets all the way to `b` exactly when everything before `b` is held. -/
theorem drain_reaches_iff (h : WindowOk c q) {b : UInt64} (hb : (q.drain c).expected ≤ b) :
    (q.drain c).expected = b ↔ ∀ x, q.expected ≤ x → x < b → q.holds c x = true := by
  constructor
  · intro he x hx hlt
    exact holds_of_drained h hx (he ▸ hlt)
  · intro hall
    by_contra hne
    have hlt : (q.drain c).expected < b := UInt64.lt_of_le_of_ne hb hne
    have hge := UInt64.le_iff_toNat_le.mpr (drain_expected_ge h)
    have hh := holds_drain h (hall _ hge hlt) (UInt64.le_refl _)
    exact absurd hh (by simp [drain_done])

/-- The walk of a narrow `skip_to` leaves in its slot whatever lies at or beyond the target. -/
theorem holds_skipLoop {target x : UInt64} (h : WindowOk c q)
    (ht : target.toNat + c.capacity ≤ 2 ^ 64) (hx : q.holds c x = true) (hle : target ≤ x)
    (fuel : ℕ) : (skipLoop c target fuel q).holds c x = true := by
  refine (skipLoop_induct (P := fun q' => WindowOk c q' ∧ q'.holds c x = true) ?_ ?_ fuel q
    ⟨h, hx⟩).2
  · rintro q' ⟨hw, hh'⟩ hlt hh
    refine ⟨hw.release hh, holds_release hw hh' ?_⟩
    rintro rfl
    exact absurd hle (UInt64.not_le.mpr hlt)
  · rintro q' ⟨hw, hh'⟩ hlt hn
    rw [UInt64.lt_iff_toNat_lt] at hlt
    exact ⟨hw.dropFront hn (by omega), hh'⟩

/-- The search says what it is a search for: every one of those sequences is held. -/
theorem fallsShort_eq_false_iff {seq : UInt64} (hs : c.capacity - 1 ≤ seq.toNat) :
    fallsShort c q seq = false ↔
      ∀ x, seq - UInt64.ofNat (c.capacity - 1) ≤ x → x < seq → q.holds c x = true := by
  have htarget : (seq - UInt64.ofNat (c.capacity - 1)).toNat = seq.toNat - (c.capacity - 1) :=
    toNat_sub_ofNat hs
  simp only [fallsShort, List.any_eq_false, List.mem_range, Bool.not_eq_true, Bool.not_eq_false']
  constructor
  · intro hall x hle hlt
    rw [UInt64.le_iff_toNat_le, htarget] at hle
    rw [UInt64.lt_iff_toNat_lt] at hlt
    have hx := hall (seq.toNat - x.toNat - 1) (by omega)
    have heq : seq - UInt64.ofNat (seq.toNat - x.toNat - 1 + 1) = x := by
      refine UInt64.toNat_inj.mp ?_
      rw [toNat_sub_ofNat (by omega)]
      omega
    rwa [heq] at hx
  · intro hall i hi
    have hsub : (seq - UInt64.ofNat (i + 1)).toNat = seq.toNat - (i + 1) :=
      toNat_sub_ofNat (by omega)
    refine hall _ ?_ ?_
    · rw [UInt64.le_iff_toNat_le, htarget, hsub]
      omega
    · rw [UInt64.lt_iff_toNat_lt, hsub]
      omega

/-- **Making room brings the front up to the message itself** unless the move is narrow and
something just before the message is missing. -/
theorem overflow_reaches_iff (h : WindowOk c q) {seq : UInt64} (hf : Far c seq)
    (hfar : q.expected.toNat + c.capacity ≤ seq.toNat) :
    (q.overflow c seq).expected = seq ↔
      ¬((seq - q.expected).toNat < 2 * c.capacity - 1 ∧ fallsShort c q seq = true) := by
  have hc := c.capacity_pos
  unfold Far at hf
  have htarget : (seq - UInt64.ofNat (c.capacity - 1)).toNat = seq.toNat - (c.capacity - 1) :=
    toNat_sub_ofNat (by omega)
  have hback : c.capacity - 1 ≤ seq.toNat := by omega
  have hshort := fallsShort_eq_false_iff (q := q) hback
  have hdist : (seq - q.expected).toNat = seq.toNat - q.expected.toNat := toNat_sub_of_le (by omega)
  unfold overflow
  generalize seq - UInt64.ofNat (c.capacity - 1) = target at htarget hshort
  have ht : target.toNat + c.capacity ≤ 2 ^ 64 := by omega
  have hspan : (target - q.expected).toNat = target.toNat - q.expected.toNat :=
    toNat_sub_of_le (by omega)
  -- the target lies ahead of the front, since the message is a window ahead of it
  have hnle : ¬ target ≤ q.expected := by
    rw [UInt64.le_iff_toNat_le]
    omega
  by_cases hcap : c.capacity ≤ (target - q.expected).toNat
  · -- wide: the window is empty, so the second move stops exactly at the message
    have hr : (q.skipTo c target).1 = true := by
      unfold skipTo
      rw [if_neg hnle]
      simp only
      rw [if_pos hcap]
    obtain ⟨hw, -⟩ := skipTo_spec h ht [] 0
    have hwiped := skipTo_wiped hr
    generalize q.skipTo c target = r at hr hw hwiped
    have hseq : seq.toNat + c.capacity ≤ 2 ^ 64 := by omega
    have hle : (r.2.skipTo c seq).2.expected.toNat ≤ seq.toNat :=
      skipTo_expected_le hw hseq (fun x hx => absurd hx (by simp [(hwiped x).1]))
        (Nat.le_refl _) (by rw [(hwiped 0).2]; omega)
    have hge := UInt64.le_iff_toNat_le.mp (skipTo_expected_ge hw hseq)
    have hreach : (r.2.skipTo c seq).2.expected = seq := UInt64.toNat_inj.mp (by omega)
    simp only
    rw [if_pos hr]
    exact iff_of_true hreach (fun hcon => by omega)
  · -- narrow: the walk stops at the target, and the drain behind it decides
    have hskip : q.skipTo c target
        = (false, (skipLoop c target (target - q.expected).toNat q).drain c) := by
      unfold skipTo
      rw [if_neg hnle]
      simp only
      rw [if_neg hcap]
    have hnarrow : (seq - q.expected).toNat < 2 * c.capacity - 1 := by omega
    rw [hskip]
    simp only
    rw [if_neg (by simp)]
    have hw := (skipLoop_spec h ht [] 0 (target - q.expected).toNat).1
    have hreach : (skipLoop c target (target - q.expected).toNat q).expected = target :=
      skipLoop_expected _ q (UInt64.le_iff_toNat_le.mpr (by omega)) (by omega)
    have hle : ((skipLoop c target (target - q.expected).toNat q).drain c).expected ≤ seq := by
      rw [UInt64.le_iff_toNat_le]
      refine drain_expected_le hw (fun x hx => ?_) (by rw [hreach]; omega)
      have := h.windowed.lt_of_holds (holds_of_skipLoop hx)
      omega
    have hiff := drain_reaches_iff hw hle
    have hstale : (((skipLoop c target (target - q.expected).toNat q).drain c).enterStale).expected
        = ((skipLoop c target (target - q.expected).toNat q).drain c).expected := rfl
    rw [hstale, hiff, hreach]
    simp only [hnarrow, true_and, Bool.not_eq_true, hshort]
    constructor
    · exact fun hall x hx hlt => holds_of_skipLoop (hall x hx hlt)
    · exact fun hall x hx hlt => holds_skipLoop h ht (hall x hx hlt) hx _

end Reach

/-! ## The moves of one call -/

/-- `q'` is what a sequencer in state `q` may become: it took the messages `new`, gave up on `k`
sequences, and counted `wide` more as dropped. -/
structure Moves (c : SequencerConfig) (q q' : Sequencer) (new : List (ℕ × Payload))
    (k wide : ℕ) : Prop where
  /-- The invariant holds again. -/
  ok : Ok c q'
  /-- The same run whatever was taken and lost before, so that two calls can be put one after the
  other. -/
  steps : ∀ taken lost,
    Reassembly.Steps (abs c q taken lost) (abs c q' (taken ++ new) (lost + k))
  /-- The counter moves by what was given up on and by what was refused for its width. -/
  dropped : q'.stats.messagesDropped = q.stats.messagesDropped + k + wide
  /-- `Stale` is a one way door. -/
  stale : q.state = .stale → q'.state = .stale
  /-- Nothing is given up on without saying so. -/
  lost_stale : 0 < k → q'.state = .stale

namespace Moves

variable {q q' q'' : Sequencer} {new new' : List (ℕ × Payload)} {k k' wide wide' : ℕ}

theorem refl (h : Ok c q) : Moves c q q [] 0 0 where
  ok := h
  steps := by intro taken lost; rw [List.append_nil]; exact Relation.ReflTransGen.refl
  dropped := rfl
  stale := id
  lost_stale := fun h => absurd h (Nat.lt_irrefl 0)

/-- One call after the other adds up what was taken, lost and refused. -/
theorem trans (h : Moves c q q' new k wide) (h' : Moves c q' q'' new' k' wide') :
    Moves c q q'' (new ++ new') (k + k') (wide + wide') where
  ok := h'.ok
  steps := by
    intro taken lost
    have := h'.steps (taken ++ new) (lost + k)
    rw [List.append_assoc, Nat.add_assoc] at this
    exact (h.steps taken lost).trans this
  dropped := by
    have h1 := h.dropped
    have h2 := h'.dropped
    omega
  stale := fun hs => h'.stale (h.stale hs)
  lost_stale := by
    intro hk
    rcases Nat.eq_zero_or_pos k with rfl | hpos
    · exact h'.lost_stale (by omega)
    · exact h'.stale (h.lost_stale hpos)

/-- A change the stream does not see is no move at all. -/
theorem quiet (h : Moves c q q' new k wide) (hq : Quiet q' q'') (hs : q''.state = q'.state) :
    Moves c q q'' new k wide where
  ok := h.ok.quiet hq (fun ho => h.ok.open_held (hs ▸ ho)) (fun ho => h.ok.synced_empty (hs ▸ ho))
  steps := by intro taken lost; rw [hq.abs]; exact h.steps taken lost
  dropped := hq.dropped.trans h.dropped
  stale := fun ho => hs.trans (h.stale ho)
  lost_stale := fun hk => hs.trans (h.lost_stale hk)

end Moves

section Ingest

variable {q : Sequencer} {seq : UInt64} {payload : Payload}

/-- Making room gives up on what it skips, and goes `Stale`. -/
theorem overflow_moves (h : Ok c q) (hf : Far c seq)
    (hfar : q.expected.toNat + c.capacity ≤ seq.toNat) :
    ∃ k, Moves c q (q.overflow c seq) [] k 0 := by
  obtain ⟨hw, hst, hstart, -, -, -, hidle, k, hk, -⟩ := overflow_spec h.window h.idle hf hfar [] 0
  refine ⟨k, ⟨hw, hidle, fun ho => ?_, fun ho => ?_, hstart.trans h.started⟩,
    fun taken lost => ?_, hk, fun _ => hst, fun _ => hst⟩
  · rcases ho with ho | ho <;> rw [hst] at ho <;> exact absurd ho (by simp)
  · rw [hst] at ho; exact absurd ho (by simp)
  · obtain ⟨-, -, -, -, -, -, -, k', hk', hs⟩ := overflow_spec h.window h.idle hf hfar taken lost
    have hkk : k' = k := by omega
    rw [List.append_nil, ← hkk]
    exact hs

/-- Delivering adds nothing to the window. -/
theorem delivered_holds {x : UInt64} (line : Option LineId)
    (hx : (delivered c q payload line).holds c x = true) : q.holds c x = true := by
  unfold delivered at hx
  have hx' : (q.creditLine line).holds c x = true := holds_of_drain (q := { (q.creditLine line).hand
    q.expected payload with expected := q.expected + 1 }) hx
  rwa [(creditLine_quiet q line).holds] at hx'

/-- The state machine agrees with the window about whether anything is held. -/
structure Honest (q : Sequencer) : Prop where
  /-- An open hole has something behind it; otherwise nobody would know of it. -/
  open_held : q.state = .gap ∨ q.state = .recovering → q.pending ≠ 0
  /-- `Synced` means that nothing is waiting. -/
  synced_empty : q.state = .synced → q.pending = 0

/-- `Stale` promises nothing of either kind. -/
theorem honest_of_stale (h : q.state = .stale) : Honest q where
  open_held := fun ho => by rcases ho with ho | ho <;> rw [h] at ho <;> exact absurd ho (by simp)
  synced_empty := fun ho => by rw [h] at ho; exact absurd ho (by simp)

/-- `settle` closes the hole exactly when the count says nothing is held, so a sound count is what
makes it honest. -/
theorem deliverNow_honest (h : Windowed c q) (hs : q.state = .synced → q.pending = 0)
    {nowNs : UInt64} {line : Option LineId}
    (hw : Windowed c (q.deliverNow c q.expected payload nowNs line)) :
    Honest (q.deliverNow c q.expected payload nowNs line) := by
  rw [deliverNow_eq] at hw ⊢
  have hq := settle_quiet (delivered c q payload line) nowNs
  have hempty : (delivered c q payload line).state = .synced →
      (delivered c q payload line).pending = 0 := by
    intro hsynced
    rw [← hq.pending, hw.pending_eq_zero_iff]
    intro x
    rw [hq.holds, ← Bool.not_eq_true]
    intro hx
    have hstate := (delivered_state (c := c) (q := q) payload line).1
    have hno := h.pending_eq_zero_iff.mp (hs (hstate ▸ hsynced)) x
    rw [delivered_holds line hx] at hno
    exact absurd hno (by simp)
  exact ⟨fun ho => hq.pending ▸ settle_open _ _ ho,
    fun ho => hq.pending ▸ settle_synced _ _ hempty ho⟩

/-- With a message just put into it the window is not empty, and the state is no longer `Synced`.
-/
theorem buffer_honest (hw : Windowed c (written c q seq payload)) (nowNs : UInt64)
    (line : Option LineId) : Honest (q.buffer c seq payload nowNs line) where
  open_held := by
    rw [(buffer_quiet (c := c) q seq payload nowNs line).pending]
    intro _ h0
    have hno := hw.pending_eq_zero_iff.mp h0 seq
    rw [show (written c q seq payload).holds c seq = true from SlotRing.has_write_self] at hno
    exact absurd hno (by simp)
  synced_empty := by
    rw [buffer_state]
    intro ho
    split at ho
    · exact absurd ho (by simp)
    · rename_i hne; exact absurd ho hne

/-- A message that is due is taken as it is: it never goes through a slot. -/
theorem deliverNow_moves (h : Ok c q) (hf : Far c q.expected) (payload : Payload)
    (nowNs : UInt64) (line : Option LineId) :
    Moves c q (q.deliverNow c q.expected payload nowNs line) [(q.expected.toNat, payload)] 0 0 := by
  obtain ⟨hw, hd, -⟩ := delivered_spec h.window h.idle hf payload line [] 0
  obtain ⟨hstate, hstart⟩ := delivered_state (c := c) (q := q) payload line
  have heq : q.deliverNow c q.expected payload nowNs line = _ := deliverNow_eq payload nowNs line
  have hq := settle_quiet (delivered c q payload line) nowNs
  have hhonest := deliverNow_honest h.window.windowed h.synced_empty
    (heq ▸ (hq.windowOk hw).windowed)
  rw [heq] at hhonest ⊢
  refine ⟨⟨hq.windowOk hw, ?_, hhonest.open_held, hhonest.synced_empty,
    hq.started.trans (hstart.trans h.started)⟩, ?_, hq.dropped.trans hd, ?_,
    fun hk => absurd hk (Nat.lt_irrefl 0)⟩
  · rw [hq.holds, hq.expected]; exact delivered_idle payload line
  · intro taken lost
    rw [hq.abs]
    exact (delivered_spec h.window h.idle hf payload line taken lost).2.2
  · exact fun hs => settle_stale nowNs (hstate.trans hs)

/-- A message that waits is taken as its slot will read it back. -/
theorem buffer_moves (h : Ok c q) (hn : q.holds c seq = false) (hf : Far c seq)
    (hlo : q.expected < seq) (hhi : seq.toNat < q.expected.toNat + c.capacity)
    (payload : Payload) (nowNs : UInt64) (line : Option LineId) :
    Moves c q (q.buffer c seq payload nowNs line) [(seq.toNat, slotted payload)] 0 0 := by
  have hq := buffer_quiet (c := c) q seq payload nowNs line
  have hw := h.window.written hn hf hlo hhi payload
  have hhonest := buffer_honest hw.windowed nowNs line
  refine ⟨⟨hq.windowOk hw, ?_, hhonest.open_held, hhonest.synced_empty,
    hq.started.trans h.started⟩, ?_, hq.dropped, ?_, fun hk => absurd hk (Nat.lt_irrefl 0)⟩
  · rw [hq.holds, hq.expected]; exact written_idle h.window.windowed h.idle hlo hhi payload
  · intro taken lost
    rw [hq.abs]
    exact Relation.ReflTransGen.single (abs_written h.window hn hlo hhi payload taken lost)
  · intro hs
    rw [buffer_state, hs]
    rfl

/-- A payload that fits a slot has a length that fits the slot's length field. -/
def Fits (c : SequencerConfig) (payload : Payload) : Prop :=
  payload.length ≤ c.maxPayload' → payload.length < 2 ^ 32

/-- Too wide for a slot, it is counted and not taken; else it waits. -/
theorem takeEarly_moves (h : Ok c q) (hn : q.holds c seq = false) (hf : Far c seq)
    (hlo : q.expected < seq) (hhi : seq.toNat < q.expected.toNat + c.capacity)
    (payload : Payload) (nowNs : UInt64) (line : Option LineId) :
    ∃ p, (Fits c payload → p = payload) ∧
      Moves c q (q.takeEarly c seq payload nowNs line).2
        (if (q.takeEarly c seq payload nowNs line).1 = true then [(seq.toNat, p)] else []) 0
        (if c.maxPayload' < payload.length then 1 else 0) := by
  unfold takeEarly
  by_cases hw : c.maxPayload' < payload.length
  · rw [if_pos hw, if_pos hw]
    have hr := Moves.refl h
    have hwin := h.window
    exact ⟨payload, fun _ => rfl, ⟨⟨⟨hwin.home, hwin.ge, hwin.lt, hwin.pending⟩, hwin.far,
      hwin.front⟩, h.idle, h.open_held, h.synced_empty, h.started⟩, hr.steps, rfl, id,
      hr.lost_stale⟩
  · rw [if_neg hw, if_neg hw]
    simp only [if_true]
    exact ⟨slotted payload, fun hfit => slotted_eq (hfit (Nat.not_lt.mp hw)),
      buffer_moves h hn hf hlo hhi payload nowNs line⟩

/-- **What `ingest` does**, once the sequencer is started: whatever the message, it is a run of
the reassembler that takes the message exactly when the flag says so. -/
theorem ingest_moves (h : Ok c q) (hf : Far c seq) (payload : Payload) (nowNs : UInt64)
    (line : Option LineId) :
    ∃ k p, ((early c q seq = true → Fits c payload) → p = payload) ∧
      Moves c q (q.ingest c seq payload nowNs line).2
        (if (q.ingest c seq payload nowNs line).1 = true then [(seq.toNat, p)] else []) k
        (if tooWide c q seq payload = true then 1 else 0) := by
  -- a copy of something dealt with: nothing is taken
  have hnone : ∀ {r : Sequencer}, Quiet q r → r.state = q.state → ∃ k p,
      ((early c q seq = true → Fits c payload) → p = payload) ∧ Moves c q r [] k 0 :=
    fun hq hs => ⟨0, payload, fun _ => rfl, (Moves.refl h).quiet hq hs⟩
  unfold ingest
  rw [if_pos h.started]
  unfold ingestStarted
  by_cases hlt : seq < q.expected
  · have hwide : ¬ tooWide c q seq payload = true := by
      simp [tooWide, early, UInt64.not_lt.mpr (UInt64.le_of_lt hlt)]
    rw [if_pos hlt, if_neg hwide]
    exact hnone (countDuplicate_quiet q) rfl
  rw [if_neg hlt]
  by_cases heq : seq = q.expected
  · have hwide : ¬ tooWide c q seq payload = true := by
      subst heq
      simp [tooWide, early]
    rw [if_pos heq, if_neg hwide]
    subst heq
    exact ⟨0, payload, fun _ => rfl, deliverNow_moves h hf payload nowNs line⟩
  rw [if_neg heq]
  have hgt : q.expected < seq := UInt64.lt_of_le_of_ne (UInt64.not_lt.mp hlt) (Ne.symm heq)
  by_cases hh : q.holds c seq = true
  · have hwide : ¬ tooWide c q seq payload = true := by
      simp [tooWide, early, hh]
    rw [if_pos hh, if_neg hwide]
    exact hnone (countDuplicate_quiet q) rfl
  rw [if_neg hh]
  rw [Bool.not_eq_true] at hh
  have hdist : (seq - q.expected).toNat = seq.toNat - q.expected.toNat :=
    toNat_sub_of_le (Nat.le_of_lt (UInt64.lt_iff_toNat_lt.mp hgt))
  have hgt' := UInt64.lt_iff_toNat_lt.mp hgt
  by_cases hcap : c.capacity ≤ (seq - q.expected).toNat
  · -- too far ahead: room is made first, and that may bring the front up to the message
    rw [if_pos hcap]
    have hfar : q.expected.toNat + c.capacity ≤ seq.toNat := by omega
    obtain ⟨k, hm⟩ := overflow_moves h hf hfar
    obtain ⟨-, -, -, hle, hhi, hno, -, -⟩ := overflow_spec h.window h.idle hf hfar [] 0
    have hreach := overflow_reaches_iff h.window hf hfar
    have hearly : early c q seq = true ↔ (q.overflow c seq).expected ≠ seq := by
      rw [Ne, hreach, not_not]
      simp [early, hgt, hh, Nat.not_lt.mpr hcap]
    have hwide : tooWide c q seq payload = true ↔
        c.maxPayload' < payload.length ∧ (q.overflow c seq).expected ≠ seq := by
      rw [← hearly]
      simp [tooWide]
    simp only
    generalize q.overflow c seq = r at hm hle hhi hno hwide hearly
    -- either it is due now, and its width no longer matters, or it has to wait after all
    by_cases hre : seq = r.expected
    · have hwide' : ¬ tooWide c q seq payload = true := fun hw => (hwide.mp hw).2 hre.symm
      rw [if_pos hre, if_neg hwide']
      subst hre
      refine ⟨k, payload, fun _ => rfl, ?_⟩
      exact hm.trans (deliverNow_moves hm.ok hf payload nowNs line)
    · rw [if_neg hre]
      have hlo : r.expected < seq := UInt64.lt_of_le_of_ne hle (Ne.symm hre)
      obtain ⟨p, hp, ht⟩ := takeEarly_moves hm.ok hno hf hlo hhi payload nowNs line
      refine ⟨k, p, fun hfit => hp (hfit (hearly.mpr (Ne.symm hre))), ?_⟩
      have hall := hm.trans ht
      have hiff : tooWide c q seq payload = true ↔ c.maxPayload' < payload.length :=
        hwide.trans ⟨fun h => h.1, fun h => ⟨h, Ne.symm hre⟩⟩
      simp only [hiff]
      simpa using hall
  · rw [if_neg hcap]
    obtain ⟨p, hp, ht⟩ := takeEarly_moves h hh hf hgt (by omega) payload nowNs line
    have hearly : early c q seq = true := by
      simp [early, hgt, hh, Nat.not_le.mp hcap]
    refine ⟨0, p, fun hfit => hp (hfit hearly), ?_⟩
    have hiff : tooWide c q seq payload = true ↔ c.maxPayload' < payload.length := by
      simp [tooWide, hearly]
    simp only [hiff]
    exact ht

end Ingest

/-! ## `poll` -/

section Poll

variable {q : Sequencer}

/-- With something held, the missing run ends at the first held sequence. -/
theorem missingRun_spec (h : Windowed c q) (hp : q.pending ≠ 0) :
    q.missingRun c < c.capacity ∧
      q.holds c (q.expected + UInt64.ofNat (q.missingRun c)) = true ∧
      ∀ i < q.missingRun c, q.holds c (q.expected + UInt64.ofNat i) = false := by
  obtain ⟨x, hx⟩ : ∃ x, q.holds c x = true := by
    by_contra hcon
    simp only [not_exists, Bool.not_eq_true] at hcon
    exact hp (h.pending_eq_zero_iff.mpr hcon)
  have hge := h.ge_of_holds hx
  have hlt := h.lt_of_holds hx
  have hxlt := x.toNat_lt
  -- the slot that is in use is one the search looks at
  have hat : q.expected + UInt64.ofNat (x.toNat - q.expected.toNat) = x := by
    refine UInt64.toNat_inj.mp ?_
    rw [toNat_add_ofNat (by omega)]
    omega
  unfold missingRun
  cases hfind :
      (List.range c.capacity).find? (fun i => q.holds c (q.expected + UInt64.ofNat i)) with
  | none =>
    rw [List.find?_eq_none] at hfind
    have := hfind (x.toNat - q.expected.toNat) (List.mem_range.mpr (by omega))
    rw [hat] at this
    exact absurd hx this
  | some i =>
    have hi := List.find?_some hfind
    have hmem := List.mem_range.mp (List.mem_of_find?_eq_some hfind)
    rw [Option.getD_some]
    refine ⟨hmem, by simpa using hi, fun j hj => ?_⟩
    rw [List.find?_range_eq_some] at hfind
    simpa using hfind.2.2 j hj

/-- Giving up on the run at the front, with something held beyond it. -/
theorem skipHole_spec (h : Ok c q) (hp : q.pending ≠ 0) :
    WindowOk c (q.skipHole c) ∧
      (q.skipHole c).holds c (q.skipHole c).expected = false ∧
      Frame q (q.skipHole c) ∧
      ∃ k, (q.skipHole c).stats.messagesDropped = q.stats.messagesDropped + k ∧
        ∀ taken lost,
          Reassembly.Steps (abs c q taken lost) (abs c (q.skipHole c) taken (lost + k)) := by
  obtain ⟨-, hh, -⟩ := missingRun_spec h.window.windowed hp
  have hfar := h.window.far_of_holds hh
  unfold skipHole
  generalize q.expected + UInt64.ofNat (q.missingRun c) = target at hfar
  unfold Far at hfar
  have ht : target.toNat + c.capacity ≤ 2 ^ 64 := by omega
  obtain ⟨hw, k, hk, -⟩ := skipTo_spec h.window ht [] 0
  refine ⟨hw, skipTo_idle h.idle, Frame.skipTo q target, k, hk,
    fun taken lost => ?_⟩
  obtain ⟨-, k', hk', hs⟩ := skipTo_spec h.window ht taken lost
  have hkk : k' = k := by omega
  rw [← hkk]
  exact hs

/-- Giving up on a run is allowed to a feed that is `Stale` afterwards. -/
theorem skipHole_moves (h : Ok c q) (hp : q.pending ≠ 0) {q' : Sequencer}
    (hq : Quiet (q.skipHole c) q') (hs : q'.state = .stale) : ∃ k, Moves c q q' [] k 0 := by
  obtain ⟨hw, hi, hf, k, hk, hsteps⟩ := skipHole_spec h hp
  refine ⟨k, ⟨hq.windowOk hw, ?_, fun ho => ?_, fun ho => ?_, ?_⟩, fun taken lost => ?_,
    hq.dropped.trans hk, fun _ => hs, fun _ => hs⟩
  · rw [hq.holds, hq.expected]; exact hi
  · rcases ho with ho | ho <;> rw [hs] at ho <;> exact absurd ho (by simp)
  · rw [hs] at ho; exact absurd ho (by simp)
  · exact hq.started.trans (hf.started.trans h.started)
  · rw [hq.abs, List.append_nil]
    exact hsteps taken lost

/-- **What `poll` does**: nothing the stream sees, unless it gives up on a run and the state is
`Stale` afterwards. -/
theorem poll_moves (h : Ok c q) (nowNs : UInt64) :
    ∃ k, Moves c q (q.poll c nowNs).2 [] k 0 := by
  -- asking, or asking again: the window and the front are as they were
  have hquiet : ∀ {q' : Sequencer}, Quiet q q' → q'.state = .recovering → q.pending ≠ 0 →
      q.state ≠ .stale → ∃ k, Moves c q q' [] k 0 := by
    intro q' hq hs hp hns
    refine ⟨0, ⟨h.quiet hq (fun _ => hp) (fun ho => ?_), fun taken lost => ?_, hq.dropped,
      fun ho => absurd ho hns, fun hk => absurd hk (Nat.lt_irrefl 0)⟩⟩
    · rw [hs] at ho; exact absurd ho (by simp)
    · rw [hq.abs, List.append_nil]; exact Relation.ReflTransGen.refl
  unfold poll
  cases hstate : q.state with
  | synced => exact ⟨0, Moves.refl h⟩
  | gap =>
    simp only
    split
    · exact ⟨0, Moves.refl h⟩
    · exact hquiet ⟨rfl, rfl, rfl, rfl, rfl, rfl, rfl⟩ rfl (h.open_held (Or.inl hstate))
        (by simp [hstate])
  | recovering =>
    have hp := h.open_held (Or.inr hstate)
    simp only
    split
    · exact ⟨0, Moves.refl h⟩
    · split
      · exact skipHole_moves h hp (enterStale_quiet _) rfl
      · exact hquiet ⟨rfl, rfl, rfl, rfl, rfl, rfl, rfl⟩ rfl hp (by simp [hstate])
  | stale =>
    simp only
    split
    · rename_i hc
      obtain ⟨-, -, hf, -⟩ := skipHole_spec h hc.1
      exact skipHole_moves h hc.1 ⟨rfl, rfl, rfl, rfl, rfl, rfl, rfl⟩ (hf.state.trans hstate)
    · exact ⟨0, Moves.refl h⟩

end Poll

/-! ## One call, and a run of them -/

/-- The message `ingest` takes on a call, if it takes one. -/
def accepts (c : SequencerConfig) (q : Sequencer) : Call → Option Delivery
  | .message line seq payload nowNs =>
    if (q.ingest c seq payload nowNs (some line)).1 then some (seq, payload) else none
  | .retransmit seq payload nowNs =>
    if (q.ingest c seq payload nowNs none).1 then some (seq, payload) else none
  | .poll _ => none

/-- The messages taken over a run, oldest first. -/
def acceptedCalls (c : SequencerConfig) : Sequencer → List Call → List Delivery
  | _, [] => []
  | q, call :: calls => (accepts c q call).toList ++ acceptedCalls c (exec c q call) calls

/-- Whether a call is an early message too wide for a slot. -/
def refused (c : SequencerConfig) (q : Sequencer) : Call → Bool
  | .message _ seq payload _ => tooWide c q seq payload
  | .retransmit seq payload _ => tooWide c q seq payload
  | .poll _ => false

/-- How many calls of a run were such messages. -/
def refusals (c : SequencerConfig) : Sequencer → List Call → ℕ
  | _, [] => 0
  | q, call :: calls => (if refused c q call then 1 else 0) + refusals c (exec c q call) calls

/-- The sequence a call carries is far enough below the wrap. -/
def Call.Far (c : SequencerConfig) : Call → Prop
  | .message _ seq _ _ => Sequencer.Far c seq
  | .retransmit seq _ _ => Sequencer.Far c seq
  | .poll _ => True

/-- The message a call carries, if it has to wait in a slot, has a length the slot can record. -/
def Slottable (c : SequencerConfig) (q : Sequencer) : Call → Prop
  | .message _ seq payload _ => early c q seq = true → Fits c payload
  | .retransmit seq payload _ => early c q seq = true → Fits c payload
  | .poll _ => True

/-- The bookkeeping of `on_retransmit` is nothing the stream sees. -/
theorem onRetransmit_quiet (q : Sequencer) (seq : UInt64) (payload : Payload) (nowNs : UInt64) :
    Quiet (q.ingest c seq payload nowNs none).2 (q.onRetransmit c seq payload nowNs) ∧
      (q.onRetransmit c seq payload nowNs).state = (q.ingest c seq payload nowNs none).2.state := by
  unfold onRetransmit
  simp only
  split
  · split
    · rename_i hs; exact ⟨⟨rfl, rfl, rfl, rfl, rfl, rfl, rfl⟩, rfl⟩
    · exact ⟨⟨rfl, rfl, rfl, rfl, rfl, rfl, rfl⟩, rfl⟩
  · exact ⟨Quiet.refl _, rfl⟩

/-- **One call** below the wrap: a few moves, taking at most the message it carries. -/
theorem exec_moves {q : Sequencer} (h : Ok c q) {call : Call} (hf : Call.Far c call) :
    ∃ k new, Moves c q (exec c q call) new k (if refused c q call then 1 else 0) ∧
      new.length ≤ 1 ∧
      (Slottable c q call → new = (accepts c q call).toList.map fun d => (d.1.toNat, d.2)) := by
  cases call with
  | message line seq payload nowNs =>
    obtain ⟨k, p, hp, hm⟩ := ingest_moves h hf payload nowNs (some line)
    refine ⟨k, _, hm, by split <;> simp, fun hfit => ?_⟩
    rw [hp hfit]
    simp only [accepts]
    split <;> rfl
  | retransmit seq payload nowNs =>
    obtain ⟨k, p, hp, hm⟩ := ingest_moves h hf payload nowNs none
    obtain ⟨hq, hs⟩ := onRetransmit_quiet (c := c) q seq payload nowNs
    refine ⟨k, _, hm.quiet hq hs, by split <;> simp, fun hfit => ?_⟩
    rw [hp hfit]
    simp only [accepts]
    split <;> rfl
  | poll nowNs =>
    obtain ⟨k, hm⟩ := poll_moves h nowNs
    exact ⟨k, [], hm, by simp, fun _ => rfl⟩

/-- **A run** below the wrap. -/
theorem run_moves {calls : List Call} : ∀ {q : Sequencer}, Ok c q →
    (∀ call ∈ calls, Call.Far c call) →
    ∃ k new, Moves c q (run c q calls) new k (refusals c q calls) ∧
      (Trace.Along (exec c) (Slottable c) q calls →
        new = (acceptedCalls c q calls).map fun d => (d.1.toNat, d.2)) := by
  induction calls with
  | nil => intro q h _; exact ⟨0, [], Moves.refl h, fun _ => rfl⟩
  | cons call calls ih =>
    intro q h hf
    obtain ⟨k, new, hm, -, hnew⟩ := exec_moves h (hf call List.mem_cons_self)
    obtain ⟨k', new', hm', hnew'⟩ := ih hm.ok (fun x hx => hf x (List.mem_cons_of_mem _ hx))
    refine ⟨k + k', new ++ new', hm.trans hm', fun hfit => ?_⟩
    rw [hnew hfit.1, hnew' hfit.2, ← List.map_append]
    rfl

end Sequencer
end Tickerplant
