import Tickerplant.Sequencer.Recovery

/-!
# What a request asks for

`poll` asks only in `Gap` and in `Recovering`, where something is held, so the run it finds missing
ends inside the window: at the first held sequence, or at the 65535 a request has room for.
`run_fresh` says that a sequencer nobody has reset is one the first message has, and
`requests_exact` is then about every state there is, whatever came before the last reset.

A server of retransmissions answers everybody on the feed at once, so a request is to ask for what
is missing and for nothing else. That it asks for nothing held is a matter of the window alone.
That it asks for nothing handed on already needs the record of the sink: what was handed on lies
below the front, and the request begins at the front.

The count is cut to sixteen bits without a word, and that is not a loss: the rest of the run is
still missing when the first part of it has been answered, and a new request asks for it.
-/

set_option autoImplicit false

namespace Tickerplant
namespace Sequencer

open Lib

variable {c : SequencerConfig} {q : Sequencer}

/-- The request `r`, issued by a sequencer in state `q`, asks for the run that is missing at the
front and for nothing else. -/
structure Exact (c : SequencerConfig) (q : Sequencer) (r : RetransmitRequest) : Prop where
  /-- It begins at the sequence owed downstream. -/
  front : r.firstSequence = q.expected
  /-- It asks for something. -/
  pos : 1 ≤ r.count.toNat
  le : r.count.toNat ≤ 65535
  /-- Nothing it asks for is held, or was handed on. -/
  missing : ∀ x ∈ asks r, q.holds c x = false ∧ x ∉ q.sink.map Prod.fst
  /-- All of the run, as far as a count goes. -/
  whole : r.count = 65535 ∨ q.holds c (r.firstSequence + UInt64.ofNat r.count.toNat) = true
  /-- It is not asked without a reason. -/
  held : ∃ x, q.holds c x = true
  /-- It fits in the window, so every answer to it is within reach. -/
  lt : r.count.toNat < c.capacity

/-! ## One request -/

/-- What a request says depends on the window and the front alone. -/
theorem Quiet.issueRequest {q' : Sequencer} (hq : Quiet q q') :
    (q'.issueRequest c).1 = (q.issueRequest c).1 := by
  have hrun : q'.missingRun c = q.missingRun c := by
    unfold missingRun
    rw [hq.expected, funext fun i => hq.holds (q.expected + UInt64.ofNat i)]
  unfold Sequencer.issueRequest
  rw [hrun, hq.expected]

/-- A request is issued with something held, for the front as it is. -/
theorem poll_request (h : Ok c q) {nowNs : UInt64} {r : RetransmitRequest}
    (hr : (q.poll c nowNs).1 = some r) : q.pending ≠ 0 ∧ r = (q.issueRequest c).1 := by
  by_cases hstale : q.state = .stale
  · unfold poll at hr
    rw [hstale] at hr
    simp only at hr
    split at hr <;> exact absurd hr (by simp)
  rcases poll_cases (c := c) hstale nowNs with heq | ⟨hrec, hnow, hmax⟩ | ⟨hopen, q', hq, -, heq⟩
  · rw [heq] at hr
    exact absurd hr (by simp)
  · -- the attempts are used up: the hole is abandoned without a word
    unfold poll at hr
    rw [hrec] at hr
    simp only at hr
    rw [if_neg (UInt64.not_lt.mpr hnow), if_pos hmax] at hr
    exact absurd hr (by simp)
  · rw [heq] at hr
    exact ⟨h.open_held hopen, (Option.some_inj.mp hr).symm.trans hq.issueRequest⟩

/-- The count is the missing run, cut to sixteen bits' worth of it. -/
theorem issueRequest_count (q : Sequencer) : (q.issueRequest c).1.count.toNat =
    min (q.missingRun c) 65535 := by
  unfold issueRequest
  simp only
  have hmin : (if q.missingRun c > 65535 then 65535 else q.missingRun c)
      = min (q.missingRun c) 65535 := by
    split <;> omega
  rw [hmin, UInt16.toNat_ofNat', Nat.mod_eq_of_lt (by omega)]

/-- With something held, a request is exact. -/
theorem issueRequest_exact (h : Ok c q) (hp : q.pending ≠ 0)
    (hsink : ∀ d ∈ q.sink, d.1 < q.expected) : Exact c q (q.issueRequest c).1 := by
  obtain ⟨hrun, hheld, hmissing⟩ := missingRun_spec h.window.windowed hp
  obtain ⟨hfirst, -, hend, hlt⟩ := issueRequest_spec h hp
  have hcount := issueRequest_count (c := c) q
  have hfar := h.window.front
  rw [UInt64.lt_iff_toNat_lt, hend] at hlt
  refine ⟨hfirst, by omega, by omega, fun x hx => ?_, ?_, ⟨_, hheld⟩, by omega⟩
  · obtain ⟨i, hi, rfl⟩ := List.mem_map.mp hx
    have hi' := List.mem_range.mp hi
    rw [hfirst]
    refine ⟨hmissing i (by omega), fun hmem => ?_⟩
    obtain ⟨d, hd, heq⟩ := List.mem_map.mp hmem
    have hbelow := UInt64.lt_iff_toNat_lt.mp (hsink d hd)
    have hat : (q.expected + UInt64.ofNat i).toNat = q.expected.toNat + i :=
      toNat_add_ofNat (by omega)
    rw [heq, hat] at hbelow
    omega
  · rcases Nat.lt_or_ge (q.missingRun c) 65535 with hshort | hlong
    · rw [hfirst, hcount, Nat.min_eq_left (Nat.le_of_lt hshort)]
      exact Or.inr hheld
    · refine Or.inl (UInt16.toNat_inj.mp ?_)
      rw [hcount, Nat.min_eq_right hlong]
      rfl

/-! ## Every state -/

/-- A sequencer nobody has reset has not been called with a message yet, or the first message
has reset it. -/
theorem run_fresh (calls : List Call) : run c (fresh c) calls = fresh c ∨
    ∃ first rest, rest ⊆ calls ∧ (∃ call ∈ calls, ∃ d ∈ carried call, d.1 = first) ∧
      run c (fresh c) calls = run c ((fresh c).restart first) rest := by
  -- by the calls: only the first message changes which of the two it is
  induction calls with
  | nil => exact Or.inl rfl
  | cons call calls ih =>
    -- the first message of all works on the state it has just reset
    have hjoins {d : Delivery} (hd : carried call = some d)
        (hexec : exec c (fresh c) call = exec c ((fresh c).restart d.1) call) :
        run c (fresh c) (call :: calls) = fresh c ∨ ∃ first rest, rest ⊆ call :: calls ∧
          (∃ call' ∈ call :: calls, ∃ d ∈ carried call', d.1 = first) ∧
          run c (fresh c) (call :: calls) = run c ((fresh c).restart first) rest := by
      refine Or.inr ⟨d.1, call :: calls, List.Subset.refl _,
        ⟨call, List.mem_cons_self, d, hd, rfl⟩, ?_⟩
      simp only [run, List.foldl_cons, hexec]
    cases call with
    | message line seq payload nowNs => exact hjoins (d := (seq, payload)) rfl rfl
    | retransmit seq payload nowNs => exact hjoins (d := (seq, payload)) rfl rfl
    | poll nowNs =>
      have hidle : run c (fresh c) (.poll nowNs :: calls) = run c (fresh c) calls := rfl
      rw [hidle]
      rcases ih with hfresh | ⟨first, rest, hsub, ⟨call, hmem, hcall⟩, heq⟩
      · exact Or.inl hfresh
      · exact Or.inr ⟨first, rest, fun x hx => List.mem_cons_of_mem _ (hsub hx),
          ⟨call, List.mem_cons_of_mem _ hmem, hcall⟩, heq⟩

/-- The distance of a call is that of the message it carries. -/
theorem Call.Far.carried {call : Call} (h : Call.Far c call) {d : Delivery}
    (hd : d ∈ carried call) : Sequencer.Far c d.1 := by
  cases call with
  | message line seq payload nowNs =>
    cases hd
    exact h
  | retransmit seq payload nowNs =>
    cases hd
    exact h
  | poll nowNs => cases hd

/-- **Requests ask for exactly what is missing**, in every state a sequencer gets to by calls and
resets with sequences more than a window below the 64-bit wrap: whatever request `poll` returns is
for the front, for nothing held or handed on since the last reset, and as far as something held
or the count's own limit. -/
theorem requests_exact (c : SequencerConfig) (p : Sequencer)
    (hp : p = fresh c ∨ ∃ s first, Far c first ∧ p = restart s first) (calls : List Call)
    (hfar : ∀ call ∈ calls, Call.Far c call) (nowNs : UInt64) (r : RetransmitRequest)
    (hr : ((run c p calls).poll c nowNs).1 = some r) : Exact c (run c p calls) r := by
  have hreset {s : Sequencer} {first : UInt64} {rest : List Call} (hfirst : Far c first)
      (hrest : ∀ call ∈ rest, Call.Far c call)
      (hr : ((run c (s.restart first) rest).poll c nowNs).1 = some r) :
      Exact c (run c (s.restart first) rest) r := by
    obtain ⟨taken, lost, hi, hok, -⟩ := run_inv s hfirst hrest
    obtain ⟨hpending, heq⟩ := poll_request hok hr
    rw [heq]
    exact issueRequest_exact hok hpending fun d hd =>
      UInt64.lt_iff_toNat_lt.mpr (hi.log_lt _ (mem_log hd))
  rcases hp with rfl | ⟨s, first, hfirst, rfl⟩
  · rcases run_fresh (c := c) calls with hfresh | ⟨first, rest, hsub, ⟨call, hmem, d, hd, rfl⟩, heq⟩
    · rw [hfresh] at hr
      exact absurd hr (by simp [poll, fresh])
    · rw [heq] at hr ⊢
      exact hreset ((hfar call hmem).carried hd) (fun x hx => hfar x (hsub hx)) hr
  · exact hreset hfirst hfar hr

/-- A window of eight. -/
def eightSlots : SequencerConfig := { reorderWindow := 8 }

/-- Two holes, and a server that has filled part of the first. -/
def partAnswered : List Call :=
  [.message .a 1 [1] 0, .message .b 4 [4] 10, .message .a 6 [6] 20, .poll 600000,
    .retransmit 2 [2] 700000]

/-- The retry is for what is left of the first hole. -/
theorem requests_exact_partAnswered :
    let q := run eightSlots (fresh eightSlots) partAnswered
    (q.poll eightSlots 60000000).1 = some { firstSequence := 3, count := 1 } ∧
      Exact eightSlots q { firstSequence := 3, count := 1 } := by
  have hr : ((run eightSlots (fresh eightSlots) partAnswered).poll eightSlots 60000000).1
      = some { firstSequence := 3, count := 1 } := by decide
  exact ⟨hr, requests_exact eightSlots _ (Or.inl rfl) partAnswered (by decide) 60000000 _ hr⟩

end Sequencer
end Tickerplant
