import Tickerplant.Sequencer.Exec

/-!
# The front's way through the window, at any sequence numbers

What a call does to the window is to take the front from one number to another: what is available
on the way is handed on, what is not is counted as dropped, and what lies beyond stays where it is.
`Passage` says so for one such way, `avail` being what is available by number. The front is counted
in natural numbers here: at `2 ^ 64` the sequences have run out, nothing is held, and the
sequencer's own count stands at zero again.

One lemma per piece of `ingest` follows, and `ingestStarted_took` puts them together. `Beyond` is
the one thing that loses what was held: a message so far ahead that making room for it skips the
whole window.

`avail` is not the window. It is the window as the call finds it, with the message of the call
added, or with everything taken away where the message lies `Beyond`. Stating the way in terms of
it means that the whole call is one passage, although it may walk, drain, deliver and drain again:
passages compose (`trans`), as long as the two agree on what was available below where the second
begins (`trans_of_agree`).

`Offers` says what `avail` may be, and it says it by clauses rather than by a definition: what a
message that was too wide makes available depends on how far making room for it went, which is the
end of the very passage.
-/

set_option autoImplicit false

namespace Tickerplant
namespace Sequencer

open Lib

variable {c : SequencerConfig} {q q' q'' : Sequencer} {avail avail' : ℕ → Option Payload}
  {a b d wide wide' : ℕ}

/-- The front is at `a`, and what is held is what is available from there on. -/
structure At (c : SequencerConfig) (avail : ℕ → Option Payload) (a : ℕ) (q : Sequencer) :
    Prop where
  /-- The window is sound, wherever its front is. -/
  windowed : Windowed c q
  /-- The sequencer's count is `a`, and zero where `a` is `2 ^ 64`. -/
  front : q.expected = UInt64.ofNat a
  /-- The front comes round at most once. -/
  le : a ≤ 2 ^ 64
  /-- Nothing below the front is held, and nothing beyond it is lost. -/
  view : ∀ n, heldView c q n = if a ≤ n then avail n else none

/-- The front went from `a` to `b` through what is available, and `wide` more sequences were
counted as dropped. -/
structure Passage (c : SequencerConfig) (avail : ℕ → Option Payload) (a : ℕ) (q : Sequencer)
    (b : ℕ) (q' : Sequencer) (wide : ℕ) : Prop where
  /-- The front is at `b` now. -/
  reached : At c avail b q'
  le : a ≤ b
  /-- What was available on the way was handed on, in order. -/
  sink : q'.sink = q.sink ++ (handed avail a b).map fun d => (UInt64.ofNat d.1, d.2)
  /-- What was not is counted. -/
  dropped : q'.stats.messagesDropped = q.stats.messagesDropped + missed avail a b + wide
  /-- The last sequence there is can be handed on, but not given up on. -/
  last : b = 2 ^ 64 → a < 2 ^ 64 → avail (2 ^ 64 - 1) ≠ none

namespace At

/-- Any sound window is at its own front, with what it holds available. -/
theorem of_windowed (h : Windowed c q) : At c (heldView c q) q.expected.toNat q where
  windowed := h
  front := by rw [UInt64.ofNat_toNat]
  le := Nat.le_of_lt q.expected.toNat_lt
  view := by
    intro n
    split
    · rfl
    · rename_i hlt
      by_contra hne
      obtain ⟨p, hp⟩ := Option.ne_none_iff_exists'.mp hne
      obtain ⟨x, rfl, hx, _⟩ := heldView_eq_some hp
      exact hlt (h.ge_of_holds hx)

/-- Below the end of the numbers the sequencer's count is the front. -/
theorem toNat_front (h : At c avail a q) (ha : a < 2 ^ 64) : q.expected.toNat = a := by
  rw [h.front, UInt64.toNat_ofNat', Nat.mod_eq_of_lt ha]

/-- With something at the front, the sequences have not run out. -/
theorem lt_of_holds (h : At c avail a q) {x : UInt64} (hx : q.holds c x = true) : a < 2 ^ 64 := by
  by_contra hge
  have hv := h.view x.toNat
  have hlt := x.toNat_lt
  have hle := h.le
  rw [heldView_toNat, if_pos hx, if_neg (by omega)] at hv
  exact absurd hv (by simp)

/-- What is available at the front is what its slot says. -/
theorem front_view (h : At c avail a q) (ha : a < 2 ^ 64) :
    avail a = if q.holds c q.expected = true then some (q.stored c q.expected) else none := by
  have hv := h.view a
  rw [if_pos (Nat.le_refl a), ← h.toNat_front ha, heldView_toNat] at hv
  rw [← h.toNat_front ha]
  exact hv.symm

/-- The front moves on by one, past a slot that is vacant afterwards. -/
theorem next (h : At c avail a q) (ha : a < 2 ^ 64) (hw : Windowed c q')
    (hexp : q'.expected = q.expected + 1)
    (hview : heldView c q' = Function.update (heldView c q) a none) : At c avail (a + 1) q' where
  windowed := hw
  front := by rw [hexp, h.front, UInt64.ofNat_add]; rfl
  le := ha
  view := by
    intro n
    rw [hview, Function.update_apply, h.view]
    by_cases hn : n = a
    · rw [if_pos hn, if_neg (by omega)]
    · rw [if_neg hn]
      exact if_congr (by omega) rfl rfl

theorem quiet (h : At c avail a q) (hq : Quiet q q') : At c avail a q' where
  windowed := hq.windowed h.windowed
  front := hq.expected.trans h.front
  le := h.le
  view := by rw [heldView_congr hq.window]; exact h.view

end At

namespace Passage

/-- Standing still. -/
theorem refl (h : At c avail a q) : Passage c avail a q a q 0 where
  reached := h
  le := Nat.le_refl a
  sink := by simp
  dropped := by simp
  last := fun hb ha => absurd hb (Nat.ne_of_lt ha)

/-- A second passage, through what is still the same below where it starts. -/
theorem trans_of_agree (h : Passage c avail a q b q' wide)
    (h' : Passage c avail' b q' d q'' wide') (hagree : ∀ n, n < b → avail n = avail' n) :
    Passage c avail' a q d q'' (wide + wide') where
  reached := h'.reached
  le := Nat.le_trans h.le h'.le
  sink := by
    rw [h'.sink, h.sink, List.append_assoc, ← List.map_append,
      handed_congr (fun n _ hn => hagree n hn), handed_append h.le h'.le]
  dropped := by
    have hmissed : missed avail' a b + missed avail' b d = missed avail' a d :=
      missed_add h.le h'.le
    have hcongr := missed_congr (a := a) fun n _ hn => hagree n hn
    rw [h'.dropped, h.dropped]
    omega
  last := by
    intro hd ha
    by_cases hb : b = 2 ^ 64
    · rw [← hagree _ (by omega)]
      exact h.last hb ha
    · have hle := h.reached.le
      exact h'.last hd (by omega)

/-- Two passages through the same. -/
theorem trans (h : Passage c avail a q b q' wide) (h' : Passage c avail b q' d q'' wide') :
    Passage c avail a q d q'' (wide + wide') :=
  h.trans_of_agree h' fun _ _ => rfl

theorem quiet (h : Passage c avail a q b q' wide) (hq : Quiet q' q'') :
    Passage c avail a q b q'' wide where
  reached := h.reached.quiet hq
  le := h.le
  sink := hq.sink.trans h.sink
  dropped := hq.dropped.trans h.dropped
  last := h.last

/-- The same from a state that has handed on and dropped the same. -/
theorem of_same (h : Passage c avail a q' b q'' wide) (hsink : q'.sink = q.sink)
    (hdropped : q'.stats.messagesDropped = q.stats.messagesDropped) :
    Passage c avail a q b q'' wide where
  reached := h.reached
  le := h.le
  sink := by rw [h.sink, hsink]
  dropped := by rw [h.dropped, hdropped]
  last := h.last

/-- One number handed on. -/
theorem hand (hat : At c avail (a + 1) q') {p : Payload} (hp : avail a = some p)
    (hsink : q'.sink = q.sink ++ [(UInt64.ofNat a, p)])
    (hdropped : q'.stats.messagesDropped = q.stats.messagesDropped) :
    Passage c avail a q (a + 1) q' 0 where
  reached := hat
  le := Nat.le_succ a
  sink := by rw [hsink, handed_one, hp]; rfl
  dropped := by rw [hdropped, missed_one, hp]; rfl
  last := by
    intro hb _
    rw [show 2 ^ 64 - 1 = a by omega, hp]
    simp

/-- One number given up on. -/
theorem drop (ha : a + 1 < 2 ^ 64) (hat : At c avail (a + 1) q') (hp : avail a = none)
    (hsink : q'.sink = q.sink)
    (hdropped : q'.stats.messagesDropped = q.stats.messagesDropped + 1) :
    Passage c avail a q (a + 1) q' 0 where
  reached := hat
  le := Nat.le_succ a
  sink := by rw [hsink, handed_one, hp]; simp
  dropped := by rw [hdropped, missed_one, hp]; rfl
  last := fun hb _ => absurd hb (Nat.ne_of_lt ha)

/-! ## The pieces of `drain` and `skip_to` -/

/-- A release hands on what is at the front. -/
theorem release (h : At c avail a q) (hh : q.holds c q.expected = true) :
    Passage c avail a q (a + 1) (q.release c) 0 := by
  have ha := h.lt_of_holds hh
  have hview := heldView_release (c := c) h.windowed
  rw [h.toNat_front ha] at hview
  refine hand (h.next ha (h.windowed.release hh) rfl hview) (p := q.stored c q.expected) ?_ ?_ rfl
  · rw [h.front_view ha, if_pos hh]
  · rw [← h.front]
    rfl

/-- A drop counts what is not. -/
theorem dropFront (h : At c avail a q) (hn : q.holds c q.expected = false) (ha : a + 1 < 2 ^ 64) :
    Passage c avail a q (a + 1) q.dropFront 0 := by
  have hv := h.front_view (by omega)
  rw [if_neg (by simp [hn])] at hv
  refine drop ha (h.next (by omega) (h.windowed.dropFront hn) rfl ?_) hv rfl rfl
  rw [heldView_congr (show q.dropFront.window = q.window from rfl), eq_comm,
    Function.update_eq_self_iff, h.view, if_pos (Nat.le_refl a), hv]

/-- A drain passes only what is available. -/
theorem drain (h : At c avail a q) :
    ∃ b, Passage c avail a q b (q.drain c) 0 ∧ ∀ s, a ≤ s → avail s = none → b ≤ s := by
  refine drainLoop_induct (P := fun q' => ∃ b, Passage c avail a q b q' 0 ∧
    ∀ s, a ≤ s → avail s = none → b ≤ s) ?_ _ q ⟨a, refl h, fun _ hs _ => hs⟩
  rintro q' ⟨b, hp, hstop⟩ hh
  refine ⟨b + 1, hp.trans (release hp.reached hh), fun s hs hn => ?_⟩
  have hv := hp.reached.front_view (hp.reached.lt_of_holds hh)
  rw [if_pos hh] at hv
  refine Nat.lt_of_le_of_ne (hstop s hs hn) ?_
  rintro rfl
  rw [hv] at hn
  exact absurd hn (by simp)

/-- The loop of `skip_to` goes all the way to the target. -/
theorem skipLoop (h : At c avail a q) {target : UInt64} (ha : a ≤ target.toNat) {fuel : ℕ}
    (hfuel : target.toNat - a ≤ fuel) :
    Passage c avail a q target.toNat (Sequencer.skipLoop c target fuel q) 0 := by
  have ht := target.toNat_lt
  have hloop : ∃ b, Passage c avail a q b (Sequencer.skipLoop c target fuel q) 0 ∧
      b ≤ target.toNat := by
    refine skipLoop_induct (P := fun q' => ∃ b, Passage c avail a q b q' 0 ∧ b ≤ target.toNat)
      ?_ ?_ fuel q ⟨a, refl h, ha⟩
    · rintro q' ⟨b, hp, hb⟩ hlt hh
      rw [UInt64.lt_iff_toNat_lt, hp.reached.toNat_front (by omega)] at hlt
      exact ⟨b + 1, hp.trans (release hp.reached hh), hlt⟩
    · rintro q' ⟨b, hp, hb⟩ hlt hn
      rw [UInt64.lt_iff_toNat_lt, hp.reached.toNat_front (by omega)] at hlt
      exact ⟨b + 1, hp.trans (dropFront hp.reached hn (by omega)), hlt⟩
  obtain ⟨b, hp, hb⟩ := hloop
  have hfront := h.toNat_front (by omega)
  have hreach : (Sequencer.skipLoop c target fuel q).expected = target :=
    skipLoop_expected fuel q (UInt64.le_iff_toNat_le.mpr (by omega)) (by omega)
  have hbfront := hp.reached.toNat_front (by omega)
  rw [hreach] at hbfront
  rw [hbfront]
  exact hp

/-! ## `skip_to` -/

/-- A move of less than a window walks: it reaches the target and drains, stopping at the latest
at whatever is not available beyond it. -/
theorem skipTo_narrow (h : At c avail a q) (target : UInt64) (ha : a ≤ target.toNat)
    (hspan : target.toNat - a < c.capacity) :
    (q.skipTo c target).1 = false ∧ ∃ b, Passage c avail a q b (q.skipTo c target).2 0 ∧
      target.toNat ≤ b ∧ ∀ s, target.toNat ≤ s → avail s = none → b ≤ s := by
  have ht := target.toNat_lt
  have hfront := h.toNat_front (by omega)
  unfold skipTo
  by_cases hle : target ≤ q.expected
  · rw [if_pos hle]
    rw [UInt64.le_iff_toNat_le] at hle
    exact ⟨rfl, a, refl h, by omega, fun s hs _ => by omega⟩
  · rw [if_neg hle]
    have hdist : (target - q.expected).toNat = target.toNat - a := by
      rw [toNat_sub_of_le (by omega), hfront]
    simp only
    rw [if_neg (by omega)]
    have hloop := skipLoop h ha (Nat.le_of_eq hdist.symm)
    obtain ⟨b, hdrain, hstop⟩ := drain hloop.reached
    exact ⟨rfl, b, hloop.trans hdrain, hdrain.le, hstop⟩

/-- A move of a window or more abandons what was held. -/
theorem skipTo_wide (hfront : q.expected.toNat = a) (target : UInt64) (hc : 0 < c.capacity)
    (hspan : a + c.capacity ≤ target.toNat) :
    (q.skipTo c target).1 = true ∧
      Passage c (fun _ => none) a q target.toNat (q.skipTo c target).2 0 := by
  have hle : ¬ target ≤ q.expected := by
    rw [UInt64.le_iff_toNat_le]
    omega
  have hdist : (target - q.expected).toNat = target.toNat - a := by
    rw [toNat_sub_of_le (by omega), hfront]
  unfold skipTo
  rw [if_neg hle]
  simp only
  rw [if_pos (by omega)]
  refine ⟨rfl, ⟨⟨fun _ hp => absurd hp (by simp), fun _ hp => absurd hp (by simp),
    fun _ hp => absurd hp (by simp), by simp⟩, by rw [UInt64.ofNat_toNat],
    Nat.le_of_lt target.toNat_lt, fun n => ?_⟩, by omega, ?_, ?_, ?_⟩
  · rw [heldView_none fun x => by simp [holds]]
    simp
  · simp [handed]
  · have hall : missed (fun _ => (none : Option Payload)) a target.toNat = target.toNat - a := by
      simp [missed]
    rw [hall, hdist]
    rfl
  · exact fun hb _ => absurd target.toNat_lt (by omega)

end Passage

/-! ## Making room -/

section Overflow

variable {seq : UInt64}

/-- A message so far ahead that making room for it skips the whole window. -/
def Beyond (c : SequencerConfig) (q : Sequencer) (seq : UInt64) : Prop :=
  q.expected.toNat + 2 * c.capacity - 1 ≤ seq.toNat

instance (q : Sequencer) (seq : UInt64) : Decidable (Beyond c q seq) :=
  inferInstanceAs (Decidable (_ ≤ _))

/-- What of the window a message with this sequence finds. -/
def found (c : SequencerConfig) (q : Sequencer) (seq : UInt64) : ℕ → Option Payload :=
  if Beyond c q seq then fun _ => none else heldView c q

/-- **Making room** stops at the message or less than a window short of it, and loses what was
held only if the message lies `Beyond`. -/
theorem overflow_passage (h : Windowed c q) (seq : UInt64)
    (hfar : q.expected.toNat + c.capacity ≤ seq.toNat) :
    ∃ b, Passage c (found c q seq) q.expected.toNat q b (q.overflow c seq) 0 ∧
      b ≤ seq.toNat ∧ seq.toNat < b + c.capacity ∧ (Beyond c q seq → b = seq.toNat) := by
  have hc := c.capacity_pos
  have hseq := seq.toNat_lt
  have htarget : (seq - UInt64.ofNat (c.capacity - 1)).toNat = seq.toNat - (c.capacity - 1) :=
    toNat_sub_ofNat (by omega)
  unfold overflow
  generalize seq - UInt64.ofNat (c.capacity - 1) = target at htarget
  simp only
  by_cases hbeyond : Beyond c q seq
  · have hb : q.expected.toNat + 2 * c.capacity - 1 ≤ seq.toNat := hbeyond
    obtain ⟨hr, hwide⟩ := Passage.skipTo_wide (c := c) (q := q) rfl target hc (by omega)
    -- through an empty window, the second move stops exactly at the message
    obtain ⟨-, b, hnarrow, hge, hstop⟩ := Passage.skipTo_narrow hwide.reached seq (by omega)
      (by omega)
    have hle := hstop seq.toNat (Nat.le_refl _) rfl
    rw [if_pos hr, found, if_pos hbeyond]
    exact ⟨b, (hwide.trans hnarrow).quiet (enterStale_quiet _), hle, by omega, fun _ => by omega⟩
  · have hb : ¬ q.expected.toNat + 2 * c.capacity - 1 ≤ seq.toNat := hbeyond
    obtain ⟨hr, b, hnarrow, hge, hstop⟩ := Passage.skipTo_narrow (At.of_windowed h) target
      (by omega) (by omega)
    have habsent : heldView c q seq.toNat = none := by
      rw [heldView_toNat, if_neg]
      intro hx
      have := h.lt_of_holds hx
      omega
    have hle := hstop seq.toNat (by omega) habsent
    rw [if_neg (by simp [hr]), found, if_neg hbeyond]
    exact ⟨b, hnarrow.quiet (enterStale_quiet _), hle, by omega, fun hcon => absurd hcon hbeyond⟩

end Overflow

/-! ## Taking a message in -/

section Ingest

variable {seq : UInt64}

/-- What is available below the front does not matter. -/
theorem At.congr (h : At c avail a q) (hagree : ∀ n, a ≤ n → avail n = avail' n) :
    At c avail' a q where
  windowed := h.windowed
  front := h.front
  le := h.le
  view := by
    intro n
    rw [h.view]
    split
    · rename_i hn; exact hagree n hn
    · rfl

/-- Delivering makes the message available at the front, hands it on, and drains. -/
theorem deliverNow_passage (h : At c avail a q) (ha : a < 2 ^ 64) (hn : avail a = none)
    (payload : Payload) (nowNs : UInt64) (line : Option LineId) :
    ∃ b, a < b ∧ (∀ s, a < s → avail s = none → b ≤ s) ∧
      Passage c (Function.update avail a (some payload)) a q b
        (q.deliverNow c q.expected payload nowNs line) 0 := by
  have hq := creditLine_quiet q line
  rw [deliverNow_eq]
  unfold delivered
  rw [← hq.expected]
  generalize q.creditLine line = r at hq
  have hr := h.quiet hq
  -- the front's slot is vacant, so moving past it leaves every slot as it was
  have hvacant : r.holds c r.expected = false := by
    have hv := hr.front_view ha
    rw [hn] at hv
    rw [← Bool.not_eq_true]
    intro hh
    rw [if_pos hh] at hv
    exact absurd hv (by simp)
  let r' : Sequencer := { r.hand r.expected payload with expected := r.expected + 1 }
  have hd := hr.windowed.dropFront hvacant
  have hview : heldView c r' = Function.update (heldView c r) a none := by
    rw [heldView_congr (show r'.window = r.window from rfl), eq_comm,
      Function.update_eq_self_iff, hr.view, if_pos (Nat.le_refl a), hn]
  have hat : At c avail (a + 1) r' :=
    hr.next ha ⟨hd.home, hd.ge, hd.lt, hd.pending⟩ rfl hview
  have hat' : At c (Function.update avail a (some payload)) (a + 1) r' :=
    hat.congr fun n hlt => by rw [Function.update_of_ne (by omega)]
  have hhand := Passage.hand (q := r) hat' (Function.update_self a _ _)
    (by rw [← hr.front]; rfl) rfl
  -- the drain goes on from there, through what was held before
  obtain ⟨b, hdrain, hstop⟩ := Passage.drain hat'
  refine ⟨b, hdrain.le, fun s hs hs' => hstop s hs ?_,
    ((hhand.trans hdrain).quiet (settle_quiet _ nowNs)).of_same hq.sink hq.dropped⟩
  rw [Function.update_of_ne (by omega)]
  exact hs'

/-- Holding a message makes it available where it is. -/
theorem written_at (h : At c avail a q) (hcap : c.capacity < 2 ^ 64) (ha : a < seq.toNat)
    (hhi : seq.toNat < a + c.capacity) (hn : avail seq.toNat = none) (payload : Payload) :
    At c (Function.update avail seq.toNat (some (slotted payload))) a
      (written c q seq payload) := by
  have hfront := h.toNat_front (Nat.lt_trans ha seq.toNat_lt)
  have hlo : q.expected < seq := by
    rw [UInt64.lt_iff_toNat_lt]
    omega
  have habsent : q.holds c seq = false := by
    have hv := h.view seq.toNat
    rw [heldView_toNat, if_pos (Nat.le_of_lt ha), hn] at hv
    rw [← Bool.not_eq_true]
    intro hh
    rw [if_pos hh] at hv
    exact absurd hv (by simp)
  refine ⟨h.windowed.written hcap habsent hlo (by omega) payload, h.front, h.le, fun n => ?_⟩
  rw [heldView_written h.windowed hlo (by omega), Function.update_apply, Function.update_apply,
    h.view]
  by_cases hseq : n = seq.toNat
  · rw [if_pos hseq, if_pos hseq, if_pos (by omega)]
  · rw [if_neg hseq, if_neg hseq]

/-- What a message makes available: what it found of the window, and itself. -/
structure Offers (c : SequencerConfig) (q : Sequencer) (seq : UInt64) (payload : Payload)
    (avail : ℕ → Option Payload) (b wide : ℕ) : Prop where
  /-- Elsewhere it changes nothing. -/
  others : ∀ n, n ≠ seq.toNat → avail n = found c q seq n
  /-- What is held under the same sequence stays: the first copy wins. -/
  kept : ∀ p, found c q seq seq.toNat = some p → avail seq.toNat = some p
  /-- A payload a slot can hold is never refused, unless its sequence has been passed. -/
  narrow : payload.length ≤ c.maxPayload' →
    wide = 0 ∧ (q.expected ≤ seq → avail seq.toNat ≠ none)
  /-- Under its own sequence nothing else can become available; a wide payload only if it is
  passed. -/
  source : avail seq.toNat ≠ none →
    found c q seq seq.toNat ≠ none ∨ payload.length ≤ c.maxPayload' ∨ seq.toNat < b
  /-- A message that wipes the window is itself delivered. -/
  beyond : Beyond c q seq → seq.toNat < b

/-- What the flag of a message says: taken, it is what is available under its sequence; refused, it
leaves that as it was. -/
structure Took (c : SequencerConfig) (q : Sequencer) (seq : UInt64) (payload : Payload)
    (avail : ℕ → Option Payload) (flag : Bool) : Prop where
  taken : flag = true → avail seq.toNat = some payload ∨
    payload.length ≤ c.maxPayload' ∧ avail seq.toNat = some (slotted payload)
  refused : flag = false → avail seq.toNat = found c q seq seq.toNat

/-- A message ahead of the front, with room for it. -/
theorem takeEarly_passage (h : At c (found c q seq) a q') (hcap : c.capacity < 2 ^ 64)
    (ha : a < seq.toNat) (hhi : seq.toNat < a + c.capacity)
    (hn : found c q seq seq.toNat = none) (hb : ¬ Beyond c q seq) (payload : Payload)
    (nowNs : UInt64) (line : Option LineId) :
    ∃ avail wide, Passage c avail a q' a (q'.takeEarly c seq payload nowNs line).2 wide ∧
      (∀ n, n < a → found c q seq n = avail n) ∧ Offers c q seq payload avail a wide ∧
      Took c q seq payload avail (q'.takeEarly c seq payload nowNs line).1 := by
  unfold takeEarly
  by_cases hw : c.maxPayload' < payload.length
  · rw [if_pos hw]
    -- refused: nothing becomes available, and one more is counted
    refine ⟨found c q seq, 1, ?_, fun _ _ => rfl, ⟨fun _ _ => rfl, fun _ hp => hp, fun hle => ?_,
      fun hne => absurd hn hne, fun hcon => absurd hcon hb⟩,
      fun ht => absurd ht (by simp), fun _ => rfl⟩
    · exact ⟨⟨⟨h.windowed.home, h.windowed.ge, h.windowed.lt, h.windowed.pending⟩, h.front, h.le,
        h.view⟩, Nat.le_refl a, by simp, by simp, fun hb ha => absurd hb (Nat.ne_of_lt ha)⟩
    · exact absurd hle (by omega)
  · rw [if_neg hw]
    -- held: it becomes available where the front has yet to get to
    have hat := written_at h hcap ha hhi hn payload
    have hsame : Passage c _ a q' a (written c q' seq payload) 0 :=
      (Passage.refl hat).of_same rfl rfl
    refine ⟨_, 0, hsame.quiet (buffer_quiet q' seq payload nowNs line), fun n hlt => ?_,
      ⟨fun n hne => ?_, fun p hp => ?_, fun _ => ⟨rfl, fun _ => by simp⟩,
        fun _ => Or.inr (Or.inl (by omega)), fun hcon => absurd hcon hb⟩,
      fun _ => Or.inr ⟨by omega, Function.update_self seq.toNat _ _⟩,
      fun hf => absurd hf (by simp)⟩
    · rw [Function.update_of_ne (by omega)]
    · rw [Function.update_of_ne hne]
    · rw [hn] at hp
      exact absurd hp (by simp)

/-- A message less than a lap ahead of the front is not beyond the window: nothing is lost to it. -/
theorem found_eq_heldView (hnear : seq.toNat < q.expected.toNat + c.capacity) :
    ¬ Beyond c q seq ∧ found c q seq = heldView c q := by
  have hc := c.capacity_pos
  have hb : ¬ Beyond c q seq := by
    unfold Beyond
    omega
  exact ⟨hb, funext fun n => by rw [found, if_neg hb]⟩

/-- A message that is not new: it is counted, and the window and the front stay. -/
theorem countDuplicate_took (h : Windowed c q)
    (hnear : seq.toNat < q.expected.toNat + c.capacity) (payload : Payload)
    (hown : q.expected ≤ seq → heldView c q seq.toNat ≠ none) :
    Offers c q seq payload (found c q seq) q.expected.toNat 0 ∧
      Passage c (found c q seq) q.expected.toNat q q.expected.toNat q.countDuplicate 0 ∧
      Took c q seq payload (found c q seq) false := by
  obtain ⟨hb, hfound⟩ := found_eq_heldView hnear
  refine ⟨⟨fun _ _ => rfl, fun _ hp => hp, fun _ => ⟨rfl, fun hle => ?_⟩, Or.inl,
    fun hcon => absurd hcon hb⟩, ?_, fun ht => absurd ht (by simp), fun _ => rfl⟩
  · rw [hfound]
    exact hown hle
  · rw [hfound]
    exact (Passage.refl (At.of_windowed h)).quiet (countDuplicate_quiet q)

/-- A message the front has come to: it goes to the sink with its own bytes, and what waited behind
it follows. -/
theorem deliverNow_took {q1 : Sequencer}
    (h1 : Passage c (found c q seq) q.expected.toNat q seq.toNat q1 0)
    (hn : found c q seq seq.toNat = none) (he : seq = q1.expected) (payload : Payload)
    (nowNs : UInt64) (line : Option LineId) :
    ∃ avail b wide, Offers c q seq payload avail b wide ∧
      Passage c avail q.expected.toNat q b (q1.deliverNow c seq payload nowNs line) wide ∧
      Took c q seq payload avail true := by
  obtain ⟨b, hb, -, hd⟩ := deliverNow_passage h1.reached seq.toNat_lt hn payload nowNs line
  rw [← he] at hd
  refine ⟨_, b, 0, ⟨fun n hne => ?_, fun p hp => ?_, fun _ => ⟨rfl, fun _ => by simp⟩,
    fun _ => Or.inr (Or.inr hb), fun _ => hb⟩, h1.trans_of_agree hd fun n hlt => ?_,
    fun _ => Or.inl (Function.update_self seq.toNat _ _), fun hf => absurd hf (by simp)⟩
  · rw [Function.update_of_ne hne]
  · rw [hn] at hp
    exact absurd hp (by simp)
  · rw [Function.update_of_ne (by omega)]

/-- **What a message does to the window**, whatever its sequence, and what its flag says. -/
theorem ingestStarted_took (h : Windowed c q) (hi : q.holds c q.expected = false)
    (hcap : c.capacity < 2 ^ 64) (seq : UInt64) (payload : Payload) (nowNs : UInt64)
    (line : Option LineId) :
    ∃ avail b wide, Offers c q seq payload avail b wide ∧
      Passage c avail q.expected.toNat q b (q.ingestStarted c seq payload nowNs line).2 wide ∧
      Took c q seq payload avail (q.ingestStarted c seq payload nowNs line).1 := by
  have hc := c.capacity_pos
  have hseq := seq.toNat_lt
  unfold ingestStarted
  by_cases hlt : seq < q.expected
  · rw [if_pos hlt]
    have hlt' := UInt64.lt_iff_toNat_lt.mp hlt
    exact ⟨_, _, _, countDuplicate_took h (by omega) payload fun hle =>
      absurd hlt (UInt64.not_lt.mpr hle)⟩
  rw [if_neg hlt]
  have hge := UInt64.le_iff_toNat_le.mp (UInt64.not_lt.mp hlt)
  by_cases heq : seq = q.expected
  · rw [if_pos heq]
    have hnear : seq.toNat < q.expected.toNat + c.capacity := by rw [heq]; omega
    obtain ⟨-, hfound⟩ := found_eq_heldView hnear
    have hat : At c (found c q seq) seq.toNat q := by
      rw [hfound, heq]
      exact At.of_windowed h
    have hn : found c q seq seq.toNat = none := by
      rw [hfound, heldView_toNat, heq, hi]
      rfl
    exact deliverNow_took (heq ▸ Passage.refl hat) hn heq payload nowNs line
  rw [if_neg heq]
  have hgt : q.expected.toNat < seq.toNat :=
    Nat.lt_of_le_of_ne hge fun hcon => heq (UInt64.toNat_inj.mp hcon.symm)
  by_cases hh : q.holds c seq = true
  · rw [if_pos hh]
    exact ⟨_, _, _, countDuplicate_took h (h.lt_of_holds hh) payload fun _ => by
      rw [heldView_toNat, if_pos hh]; simp⟩
  rw [if_neg hh]
  have hn : found c q seq seq.toNat = none := by
    unfold found
    split
    · rfl
    · rw [heldView_toNat, if_neg hh]
  have hdist : (seq - q.expected).toNat = seq.toNat - q.expected.toNat := toNat_sub_of_le hge
  by_cases hcapacity : c.capacity ≤ (seq - q.expected).toNat
  · -- too far ahead: room is made first, and that may bring the front up to the message
    rw [if_pos hcapacity]
    obtain ⟨b, hroom, hle, hhi, hbeyond⟩ := overflow_passage h seq (by omega)
    simp only
    generalize q.overflow c seq = q1 at hroom
    have hfront := hroom.reached.toNat_front (by omega)
    by_cases hre : seq = q1.expected
    · rw [if_pos hre]
      have hb : b = seq.toNat := by rw [← hfront, hre]
      exact deliverNow_took (hb ▸ hroom) hn hre payload nowNs line
    · rw [if_neg hre]
      have hlt' : b < seq.toNat :=
        Nat.lt_of_le_of_ne hle fun hcon => hre (UInt64.toNat_inj.mp (hcon.symm.trans hfront.symm))
      have hnb : ¬ Beyond c q seq := fun hcon => absurd (hbeyond hcon) (Nat.ne_of_lt hlt')
      obtain ⟨avail, wide, hearly, hagree, hoffers, htook⟩ :=
        takeEarly_passage hroom.reached hcap hlt' hhi hn hnb payload nowNs line
      have hall := hroom.trans_of_agree hearly hagree
      rw [Nat.zero_add] at hall
      exact ⟨avail, b, wide, hoffers, hall, htook⟩
  · rw [if_neg hcapacity]
    have hnear : seq.toNat < q.expected.toNat + c.capacity := by omega
    obtain ⟨hnb, hfound⟩ := found_eq_heldView hnear
    have hat : At c (found c q seq) q.expected.toNat q := by
      rw [hfound]
      exact At.of_windowed h
    obtain ⟨avail, wide, hearly, -, hoffers, htook⟩ :=
      takeEarly_passage hat hcap hgt hnear hn hnb payload nowNs line
    exact ⟨avail, _, wide, hoffers, hearly, htook⟩

/-- The same without the flag. -/
theorem ingestStarted_passage (h : Windowed c q) (hi : q.holds c q.expected = false)
    (hcap : c.capacity < 2 ^ 64) (seq : UInt64) (payload : Payload) (nowNs : UInt64)
    (line : Option LineId) :
    ∃ avail b wide, Offers c q seq payload avail b wide ∧
      Passage c avail q.expected.toNat q b (q.ingestStarted c seq payload nowNs line).2 wide := by
  obtain ⟨avail, b, wide, hoffers, hpass, -⟩ :=
    ingestStarted_took h hi hcap seq payload nowNs line
  exact ⟨avail, b, wide, hoffers, hpass⟩

end Ingest

end Sequencer
end Tickerplant
