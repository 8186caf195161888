import Mathlib.Data.Nat.Notation

/-!
# Runs of a step function

A component whose every call is a total function of its state and an event, run over a list of
events. `Always` speaks of the states such a run passes, `Along` of the events it takes and the
states they find; the rules turn a fact about one step into one about every run.

Two kinds of rule are wanted. An invariant is what a step keeps: `always_of_along` gives it to
every run whose steps all meet what the step needs. An *exact condition* says more: a component
that is right on most inputs and wrong on some is described by saying which, and the description is
worth having only if it is an equivalence.

`always_iff_along_under` is the rule for that: if, from a good state, the next state is good
exactly when the step meets a condition, then a run stays good exactly when all its steps meet it.
It comes in three shapes, by what the step's own exactness rests on. The invariant may hold
whatever happens (`always_iff_along_of_invariant`), or only under what is promised of every step
(`always_iff_along_under`), or only as long as the condition has been met
(`always_iff_along_while`); in the last case the run is not followed past the first bad step, which
must be seen at once.
-/

set_option autoImplicit false

namespace Tickerplant
namespace Trace

variable {S E : Type}

/-- The state after the events, taken in order. -/
def after (step : S → E → S) : S → List E → S
  | s, [] => s
  | s, e :: rest => after step (step s e) rest

/-- Every state of the run meets `Q`, the first and the last included. -/
def Always (step : S → E → S) (Q : S → Prop) : S → List E → Prop
  | s, [] => Q s
  | s, e :: rest => Q s ∧ Always step Q (step s e) rest

/-- Every event of the run meets `P`, in the state it finds. -/
def Along (step : S → E → S) (P : S → E → Prop) : S → List E → Prop
  | _, [] => True
  | s, e :: rest => P s e ∧ Along step P (step s e) rest

instance Always.decidable (step : S → E → S) (Q : S → Prop) [∀ s, Decidable (Q s)] :
    ∀ (s : S) (l : List E), Decidable (Always step Q s l)
  | s, [] => inferInstanceAs (Decidable (Q s))
  | s, e :: rest =>
    have := Always.decidable step Q (step s e) rest
    inferInstanceAs (Decidable (_ ∧ _))

instance Along.decidable (step : S → E → S) (P : S → E → Prop) [∀ s e, Decidable (P s e)] :
    ∀ (s : S) (l : List E), Decidable (Along step P s l)
  | _, [] => inferInstanceAs (Decidable True)
  | s, e :: rest =>
    have := Along.decidable step P (step s e) rest
    inferInstanceAs (Decidable (_ ∧ _))

variable {step : S → E → S} {Q : S → Prop} {P A : S → E → Prop} {s : S} {l : List E}

/-- A condition on the events alone, met by each, is met along the run. -/
theorem Along.of_forall {p : E → Prop} : ∀ {l : List E} {s : S}, (∀ e ∈ l, p e) →
    Along step (fun _ e => p e) s l
  | [], _, _ => trivial
  | _ :: _, _, h => ⟨h _ List.mem_cons_self, .of_forall fun e he => h e (List.mem_cons_of_mem _ he)⟩

/-- A weaker condition is met where a stronger one is. -/
theorem Along.mono {P' : S → E → Prop} (h : ∀ s e, P s e → P' s e) : ∀ {l : List E} {s : S},
    Along step P s l → Along step P' s l
  | [], _, _ => trivial
  | _ :: _, _, hP => ⟨h _ _ hP.1, hP.2.mono h⟩

/-- A condition on the events alone is one on each of them. -/
theorem along_iff_forall {p : E → Prop} : Along step (fun _ e => p e) s l ↔ ∀ e ∈ l, p e := by
  refine ⟨fun h => ?_, .of_forall⟩
  induction l generalizing s with
  | nil => exact fun e he => absurd he List.not_mem_nil
  | cons e rest ih => exact List.forall_mem_cons.mpr ⟨h.1, ih h.2⟩

/-- One more event. -/
theorem along_snoc {e : E} :
    Along step P s (l ++ [e]) ↔ Along step P s l ∧ P (l.foldl step s) e := by
  induction l generalizing s with
  | nil => exact ⟨fun h => ⟨trivial, h.1⟩, fun h => ⟨h.2, trivial⟩⟩
  | cons e' rest ih =>
    rw [List.cons_append]
    show P s e' ∧ Along step P (step s e') (rest ++ [e]) ↔ (P s e' ∧ _) ∧ _
    rw [ih, and_assoc]
    rfl

/-- A run of a system that carries another along meets what the other meets. -/
theorem Along.of_view {S' : Type} {step' : S' → E → S'} (view : S' → S)
    (hview : ∀ s e, view (step' s e) = step (view s) e) : ∀ {l : List E} {s : S'},
    Along step P (view s) l → Along step' (fun s e => P (view s) e) s l
  | [], _, _ => trivial
  | e :: _, s, h => ⟨h.1, .of_view view hview (hview s e ▸ h.2)⟩

/-- The run's first state is one of its states. -/
theorem Always.head (h : Always step Q s l) : Q s := by
  cases l with
  | nil => exact h
  | cons e rest => exact h.1

theorem Always.mono {R : S → Prop} (h : ∀ s, Q s → R s) : ∀ {l : List E} {s : S},
    Always step Q s l → Always step R s l
  | [], _, hQ => h _ hQ
  | _ :: _, _, hQ => ⟨h _ hQ.1, hQ.2.mono h⟩

/-- So is its last. -/
theorem Always.last : ∀ {l : List E} {s : S}, Always step Q s l → Q (after step s l)
  | [], _, h => h
  | _ :: _, _, h => h.2.last

/-- The beginning of a run. -/
theorem Always.of_append {l' : List E} (h : Always step Q s (l ++ l')) : Always step Q s l := by
  induction l generalizing s with
  | nil => exact h.head
  | cons e rest ih => exact ⟨h.1, ih h.2⟩

/-- **The rule of invariants.** What a step that meets the condition keeps, a run whose steps all
do keeps. -/
theorem always_of_along (hstep : ∀ s e, Q s → P s e → Q (step s e)) :
    ∀ (l : List E) (s : S), Q s → Along step P s l → Always step Q s l := by
  intro l
  induction l with
  | nil => exact fun s hs _ => hs
  | cons e rest ih => exact fun s hs h => ⟨hs, ih (step s e) (hstep s e hs h.1) h.2⟩

/-- **The exact condition**, where one step's exactness rests on an invariant `I` and on what is
promised of every step, `A`. -/
theorem always_iff_along_under {I : S → Prop} (hinv : ∀ s e, I s → A s e → I (step s e))
    (hstep : ∀ s e, I s → Q s → A s e → (Q (step s e) ↔ P s e)) :
    ∀ (l : List E) (s : S), I s → Q s → Along step A s l →
      (Always step Q s l ↔ Along step P s l) := by
  intro l
  induction l with
  | nil => exact fun s _ hs _ => ⟨fun _ => trivial, fun _ => hs⟩
  | cons e rest ih =>
    intro s hI hs hA
    have hnext := hinv s e hI hA.1
    refine ⟨fun h => ?_, fun h => ?_⟩
    · exact ⟨(hstep s e hI hs hA.1).mp h.2.head, (ih _ hnext h.2.head hA.2).mp h.2⟩
    · have hgood := (hstep s e hI hs hA.1).mpr h.1
      exact ⟨hs, (ih _ hnext hgood hA.2).mpr h.2⟩

/-- A run stays good exactly as long as its steps meet the condition under which one step does. -/
theorem always_iff_along (hstep : ∀ s e, Q s → A s e → (Q (step s e) ↔ P s e)) (l : List E)
    (s : S) : Q s → Along step A s l → (Always step Q s l ↔ Along step P s l) :=
  always_iff_along_under (I := fun _ => True) (fun _ _ _ _ => trivial)
    (fun s e _ hs hA => hstep s e hs hA) l s trivial

/-- **The exact condition**, where the invariant lasts only as long as the condition is met, and a
step that does not meet it is seen at once. -/
theorem always_iff_along_while {I : S → Prop} (hgood : ∀ s, I s → Q s)
    (hkeep : ∀ s e, I s → A s e → P s e → I (step s e))
    (hbreak : ∀ s e, I s → A s e → Q (step s e) → P s e) :
    ∀ (l : List E) (s : S), I s → Along step A s l → (Always step Q s l ↔ Along step P s l) := by
  intro l
  induction l with
  | nil => exact fun s hI _ => ⟨fun _ => trivial, fun _ => hgood s hI⟩
  | cons e rest ih =>
    intro s hI hA
    refine ⟨fun h => ?_, fun h => ?_⟩
    · have hmet := hbreak s e hI hA.1 h.2.head
      exact ⟨hmet, (ih _ (hkeep s e hI hA.1 hmet) hA.2).mp h.2⟩
    · exact ⟨hgood s hI, (ih _ (hkeep s e hI hA.1 h.1) hA.2).mpr h.2⟩

/-- **The exact condition**, where the invariant that one step's exactness rests on is kept by
every step. -/
theorem always_iff_along_of_invariant {I : S → Prop} (hinv : ∀ s e, I s → I (step s e))
    (hstep : ∀ s e, I s → Q s → (Q (step s e) ↔ P s e)) (l : List E) (s : S) (hI : I s)
    (hs : Q s) : Always step Q s l ↔ Along step P s l :=
  always_iff_along_under (A := fun _ _ => True) (fun s e hI _ => hinv s e hI)
    (fun s e hI hs _ => hstep s e hI hs) l s hI hs (.of_forall fun _ _ => trivial)

/-! ## Logs

A run may also be judged by the record it leaves: what is written down must come after what it is an
answer to. -/

/-- Every event of the log comes after the events it needs. -/
def Preceded (needs : E → E → Prop) (log : List E) : Prop :=
  ∀ pre e post, log = pre ++ e :: post → ∀ e', needs e e' → e' ∈ pre

/-- One more event, whose needs have been met. -/
theorem Preceded.snoc {needs : E → E → Prop} {log : List E} {e : E} (h : Preceded needs log)
    (he : ∀ e', needs e e' → e' ∈ log) : Preceded needs (log ++ [e]) := by
  intro pre x post heq e' hneeds
  rcases List.eq_nil_or_concat post with rfl | ⟨post', y, rfl⟩
  · obtain ⟨rfl, hx⟩ := List.append_inj' heq rfl
    exact he e' (List.singleton_inj.mp hx ▸ hneeds)
  · rw [List.concat_eq_append, ← List.cons_append, ← List.append_assoc] at heq
    exact h pre x post' (List.append_inj' heq rfl).1 e' hneeds

end Trace
end Tickerplant
