import Mathlib.Data.Nat.Notation

/-!
# Interleavings

Threads that share a state are one transition function here: an action says whose turn it is and
what that thread does, and the function answers nothing when the thread is not in a position to do
it. A list of actions is then one interleaving, and "every interleaving" is "every list the
function accepts". The same shape does for a component and its environment, where an action is one
or the other's, and for a machine that can fail, where no answer is the failure.

`Throughout` speaks of the states a run passes and `Along` of the actions it takes and the states
they find. A run that is refused half way has passed the states up to there, so both stop at the
first refusal. The rules are `Trace`'s for steps that may have no answer: what one step keeps, a
run keeps (`run_invariant`, `run_along`), a step that always answers makes runs that do
(`run_total_along`), and `throughout_iff_along` is the exact condition.

What is to be said about an interleaving often speaks of the past: who had stored what, when a call
began. That is kept in a *history* beside the state. The history is written by the steps and never
read by them, which is `run_observed`: with or without it the machine does the same.
-/

set_option autoImplicit false

namespace Tickerplant
namespace Interleave

variable {S A O H : Type}

/-! ## Runs -/

/-- The state after the actions, taken in order. -/
def run (step : S → A → Option S) : S → List A → Option S
  | s, [] => some s
  | s, a :: rest => (step s a).bind fun t => run step t rest

/-- `P` holds in every state the run passes through, the first and the last included. -/
def Throughout (step : S → A → Option S) (P : S → Prop) : S → List A → Prop
  | s, [] => P s
  | s, a :: rest => P s ∧ ∀ t, step s a = some t → Throughout step P t rest

variable {step : S → A → Option S} {P Inv : S → Prop}

/-- The first state is one the run passes through. -/
theorem Throughout.head {s : S} {acts : List A} (h : Throughout step P s acts) : P s := by
  cases acts with
  | nil => exact h
  | cons a rest => exact h.1

/-- Two things that hold throughout hold together. -/
theorem Throughout.and {Q : S → Prop} : ∀ {acts : List A} {s : S}, Throughout step P s acts →
    Throughout step Q s acts → Throughout step (fun s => P s ∧ Q s) s acts
  | [], _, hP, hQ => ⟨hP, hQ⟩
  | _ :: _, _, hP, hQ => ⟨⟨hP.1, hQ.1⟩, fun t ht => (hP.2 t ht).and (hQ.2 t ht)⟩

/-- **The rule of invariants.** What one step keeps, between two states that meet the run's own
assumption, every run keeps. -/
theorem run_invariant
    (hstep : ∀ s a t, step s a = some t → P s → P t → Inv s → Inv t) :
    ∀ (acts : List A) (s t : S), run step s acts = some t → Throughout step P s acts →
      Inv s → Inv t := by
  intro acts
  induction acts with
  | nil =>
    intro s t hrun _ hinv
    cases hrun
    exact hinv
  | cons a rest ih =>
    intro s t hrun hall hinv
    obtain ⟨u, hu, hrest⟩ := Option.bind_eq_some_iff.mp hrun
    have hnext := hall.2 u hu
    exact ih u t hrest hnext (hstep s a u hu hall.1 hnext.head hinv)

/-- A step that always answers where the invariant holds makes runs that do. -/
theorem run_total (hstep : ∀ s a, Inv s → ∃ t, step s a = some t ∧ Inv t) :
    ∀ (acts : List A) (s : S), Inv s → ∃ t, run step s acts = some t ∧ Inv t := by
  intro acts
  induction acts with
  | nil => exact fun s hinv => ⟨s, rfl, hinv⟩
  | cons a rest ih =>
    intro s hinv
    obtain ⟨u, hu, hnext⟩ := hstep s a hinv
    obtain ⟨t, ht, hend⟩ := ih u hnext
    exact ⟨t, by rw [run, hu]; exact ht, hend⟩

/-- A run in two parts. -/
theorem run_append (first rest : List A) : ∀ s : S,
    run step s (first ++ rest) = (run step s first).bind fun t => run step t rest := by
  induction first with
  | nil => exact fun s => rfl
  | cons a more ih =>
    intro s
    rw [List.cons_append, run, run, Option.bind_assoc]
    exact congrArg _ (funext ih)

/-- Every action of the run meets `Q`, in the state it finds. -/
def Along (step : S → A → Option S) (Q : S → A → Prop) : S → List A → Prop
  | _, [] => True
  | s, a :: rest => Q s a ∧ ∀ t, step s a = some t → Along step Q t rest

/-- One more action in front. -/
theorem Along.cons {Q : S → A → Prop} {s t : S} {a : A} {rest : List A} (ht : step s a = some t)
    (hq : Q s a) (h : Along step Q t rest) : Along step Q s (a :: rest) :=
  ⟨hq, fun _ hu => Option.some.inj (ht.symm.trans hu) ▸ h⟩

/-- A condition on the actions alone, met by each. -/
theorem Along.of_forall {p : A → Prop} : ∀ {acts : List A} {s : S}, (∀ a ∈ acts, p a) →
    Along step (fun _ a => p a) s acts
  | [], _, _ => trivial
  | _ :: _, _, h => ⟨h _ List.mem_cons_self,
    fun _ _ => .of_forall fun a ha => h a (List.mem_cons_of_mem _ ha)⟩

/-- What a step that meets the condition keeps, a run whose steps all do keeps. -/
theorem run_along {Q : S → A → Prop}
    (hstep : ∀ s a t, Inv s → Q s a → step s a = some t → Inv t) :
    ∀ (acts : List A) (s t : S), Inv s → Along step Q s acts → run step s acts = some t →
      Inv t := by
  intro acts
  induction acts with
  | nil =>
    intro s t hinv _ hrun
    cases hrun
    exact hinv
  | cons a rest ih =>
    intro s t hinv hall hrun
    obtain ⟨u, hu, hrest⟩ := Option.bind_eq_some_iff.mp hrun
    exact ih u t (hstep s a u hinv hall.1 hu) (hall.2 u hu) hrest

/-- A step that always answers where the invariant holds and the condition is met, and keeps the
one, makes runs that do. -/
theorem run_total_along {Q : S → A → Prop}
    (hstep : ∀ s a, Inv s → Q s a → ∃ t, step s a = some t ∧ Inv t) :
    ∀ (acts : List A) (s : S), Inv s → Along step Q s acts →
      ∃ t, run step s acts = some t ∧ Inv t := by
  intro acts
  induction acts with
  | nil => exact fun s hinv _ => ⟨s, rfl, hinv⟩
  | cons a rest ih =>
    intro s hinv hall
    obtain ⟨u, hu, hnext⟩ := hstep s a hinv hall.1
    obtain ⟨t, ht, hend⟩ := ih u hnext (hall.2 u hu)
    exact ⟨t, by rw [run, hu]; exact ht, hend⟩

/-- **The exact condition.** If a step out of a state that meets `P` leads to one that does
exactly when it meets `Q`, and then keeps what that rests on, a run keeps `P` throughout exactly
when all its steps meet `Q`. A step with no answer leads nowhere and must meet `Q`. -/
theorem throughout_iff_along {Q : S → A → Prop}
    (hstep : ∀ s a, Inv s → P s → ((∀ t, step s a = some t → P t) ↔ Q s a) ∧
      (Q s a → ∀ t, step s a = some t → Inv t)) :
    ∀ (acts : List A) (s : S), Inv s → P s → (Throughout step P s acts ↔ Along step Q s acts) := by
  intro acts
  induction acts with
  | nil => exact fun s _ hs => iff_of_true hs trivial
  | cons a rest ih =>
    intro s hinv hs
    obtain ⟨hiff, hnext⟩ := hstep s a hinv hs
    constructor
    · intro h
      have hq := hiff.mp fun t ht => (h.2 t ht).head
      exact ⟨hq, fun t ht => (ih t (hnext hq t ht) (h.2 t ht).head).mp (h.2 t ht)⟩
    · rintro ⟨hq, hrest⟩
      exact ⟨hs, fun t ht => (ih t (hnext hq t ht) (hiff.mpr hq t ht)).mpr (hrest t ht)⟩

/-- The same for a step that always answers. -/
theorem throughout_iff_along_of_answers {Q : S → A → Prop}
    (hstep : ∀ s a, Inv s → P s → ∃ t, step s a = some t ∧ (P t ↔ Q s a) ∧ (Q s a → Inv t)) :
    ∀ (acts : List A) (s : S), Inv s → P s →
      (Throughout step P s acts ↔ Along step Q s acts) := by
  refine throughout_iff_along fun s a hinv hs => ?_
  obtain ⟨t, ht, hiff, hnext⟩ := hstep s a hinv hs
  rw [ht]
  refine ⟨⟨fun h => hiff.mp (h t rfl), fun hq u hu => ?_⟩, fun hq u hu => ?_⟩
  · exact Option.some.inj hu ▸ hiff.mpr hq
  · exact Option.some.inj hu ▸ hnext hq

/-- What is left of a budget after every step is enough for the condition of the next, so a run no
longer than the budget meets it at every step. -/
theorem along_of_budget {Q : S → A → Prop} (I : ℕ → S → Prop)
    (hstep : ∀ n s a t, I (n + 1) s → step s a = some t → I n t)
    (hQ : ∀ n s a, I (n + 1) s → Q s a) :
    ∀ (acts : List A) (s : S), I acts.length s → Along step Q s acts := by
  intro acts
  induction acts with
  | nil => exact fun s _ => trivial
  | cons a rest ih => exact fun s h => ⟨hQ _ s a h, fun t ht => ih t (hstep _ s a t h ht)⟩

/-- A run too short for a count to reach the bound meets an assumption that only the count can
break. -/
theorem throughout_of_count (count : S → ℕ) (bound : ℕ)
    (hstep : ∀ s a t, step s a = some t → count t ≤ count s + 1)
    (hbound : ∀ s, count s < bound → P s) :
    ∀ (acts : List A) (s : S), count s + acts.length < bound → Throughout step P s acts := by
  intro acts
  induction acts with
  | nil => exact fun s h => hbound s h
  | cons a rest ih =>
    intro s h
    rw [List.length_cons] at h
    refine ⟨hbound s (by omega), ?_⟩
    intro t ht
    have := hstep s a t ht
    exact ih t (by omega)

/-! ## Histories -/

/-- A step that also answers something, with what is remembered of it. -/
def observed (step : S → A → Option (S × O)) (record : H → A → S × O → H) (w : S × H) (a : A) :
    Option (S × H) :=
  (step w.1 a).map fun t => (t.1, record w.2 a t)

variable {step' : S → A → Option (S × O)} {record : H → A → S × O → H}

/-- A step of the machine with its history is a step of the machine. -/
theorem observed_cases {w w' : S × H} {a : A} (h : observed step' record w a = some w') :
    ∃ s o, step' w.1 a = some (s, o) ∧ w' = (s, record w.2 a (s, o)) := by
  obtain ⟨⟨s, o⟩, hs, rfl⟩ := Option.map_eq_some_iff.mp h
  exact ⟨s, o, hs, rfl⟩

/-- A history changes nothing: the states of the run are those of the machine alone. -/
theorem run_observed (acts : List A) : ∀ (s : S) (h : H),
    (run (observed step' record) (s, h) acts).map Prod.fst =
      run (fun s a => (step' s a).map Prod.fst) s acts := by
  induction acts with
  | nil => intro s h; rfl
  | cons a rest ih =>
    intro s h
    cases hs : step' s a with
    | none => simp [run, observed, hs]
    | some t => simpa [run, observed, hs] using ih t.1 (record h a t)

end Interleave
end Tickerplant
