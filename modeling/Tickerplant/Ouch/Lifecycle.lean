import Tickerplant.Ouch.OrderState

/-!
# Whether a dead order looks dead

An order with no shares left to work should be in a terminal state, and an order in a terminal
state should have none left. Four handlers keep that whatever they are called with. The other four
can leave a working state over no shares: an acceptance sets `Accepted` even where it computes that
nothing is left, which is what a resent duplicate does to a filled order, and the client's own
sends set a pending state without looking at the shares at all.

`Lively` is what those four need, and a run keeps the agreement exactly as long as every event
finds it. Nothing is asked about legality. A transition may be illegal and the order still agree, a
fill of a dead order for instance, and one may be legal and break it.

The condition looks at the state before the event and at what the message says. That an exchange
neither accepts nor replaces with zero shares is `Stated`, and is assumed of the messages: with it
a replacement always leaves shares to work or a dead order.
-/

set_option autoImplicit false

namespace Tickerplant
namespace Ouch

open Trace ClientOrderState

/-- No dead order is reported as working, and no working order as dead. -/
def Agrees (o : ClientOrderState) : Prop :=
  (o.leavesShares = 0 → o.terminal = true ∧ o.working = false) ∧
    (o.terminal = true → o.leavesShares = 0)

instance (o : ClientOrderState) : Decidable (Agrees o) :=
  inferInstanceAs (Decidable (_ ∧ _))

namespace OrderEvent

/-- No acceptance and no replacement of nothing. -/
def Stated : OrderEvent → Prop
  | .accepted shares _ _ _ _ => shares ≠ 0
  | .replaced _ shares _ _ _ _ => shares ≠ 0
  | _ => True

instance : DecidablePred Stated
  | .accepted shares _ _ _ _ => inferInstanceAs (Decidable (shares ≠ 0))
  | .replaced _ shares _ _ _ _ => inferInstanceAs (Decidable (shares ≠ 0))
  | .sent .. | .fill .. | .cancelSent _ | .replaceSent _ | .canceled .. | .rejected _ =>
    inferInstanceAs (Decidable True)

end OrderEvent

/-- The event leaves shares to work, or ends the order. -/
def Lively (o : ClientOrderState) : OrderEvent → Prop
  | .sent _ _ _ shares _ _ => shares ≠ 0
  | .accepted shares _ _ dead _ => dead = true ∨ o.filledShares < shares
  | .cancelSent _ => o.leavesShares ≠ 0
  | .replaceSent _ => o.leavesShares ≠ 0
  | _ => True

/-- In a working state the two agree exactly when shares are left. -/
theorem agrees_of_working {o : ClientOrderState} (h : o.state.terminal = false) :
    Agrees o ↔ o.leavesShares ≠ 0 := by
  simp [Agrees, ClientOrderState.terminal, h]

/-- In a terminal state with nothing left there is nothing to disagree about. -/
theorem agrees_of_terminal {o : ClientOrderState} (h : o.state.terminal = true)
    (hleft : o.leavesShares = 0) : Agrees o := by
  refine ⟨fun _ => ⟨h, ?_⟩, fun _ => hleft⟩
  cases hs : o.state <;> simp_all [ClientOrderState.working, OrderState.terminal,
    OrderState.working]

/-- **One event.** From an order that agrees, the next state agrees exactly when the event is
lively. -/
theorem step_agrees (o : ClientOrderState) (e : OrderEvent) (ho : Agrees o) (he : e.Stated) :
    Agrees (o.step e) ↔ Lively o e := by
  cases e with
  | sent t loc sd shares px ts => exact agrees_of_working rfl
  | accepted shares px ref dead ts =>
    cases dead with
    | true => exact iff_of_true (agrees_of_terminal rfl rfl) (.inl rfl)
    | false =>
      have hleft : (o.step (.accepted shares px ref false ts)).leavesShares =
          if o.filledShares < shares then shares - o.filledShares else 0 := rfl
      rw [agrees_of_working (show (o.step (.accepted shares px ref false ts)).state.terminal = _
        from rfl), hleft]
      by_cases h : o.filledShares < shares
      · have hne : shares - o.filledShares ≠ 0 := by
          have hsub := UInt32.toNat_sub_of_le _ _ (UInt32.le_of_lt h)
          have hlt := UInt32.lt_iff_toNat_lt.mp h
          intro hzero
          rw [hzero, UInt32.toNat_zero] at hsub
          omega
        rw [if_pos h]
        exact iff_of_true hne (.inr h)
      · rw [if_neg h]
        exact iff_of_false (fun hne => hne rfl) (by simp [Lively, h])
  | replaced t shares px ref dead ts =>
    cases dead with
    | true => exact iff_of_true (agrees_of_terminal rfl rfl) trivial
    | false => exact iff_of_true ((agrees_of_working rfl).mpr he) trivial
  | fill shares px ts =>
    refine iff_of_true ?_ trivial
    by_cases hleft : (o.step (.fill shares px ts)).leavesShares = 0
    · exact agrees_of_terminal (congrArg OrderState.terminal (if_pos hleft)) hleft
    · exact (agrees_of_working (congrArg OrderState.terminal (if_neg hleft))).mpr hleft
  | cancelSent ts =>
    rw [agrees_of_working (show (o.step (.cancelSent ts)).state.terminal = _ from rfl)]
    exact not_congr (by rw [UInt32.toNat_inj.mp (step_leavesShares o (.cancelSent ts))])
  | replaceSent ts =>
    rw [agrees_of_working (show (o.step (.replaceSent ts)).state.terminal = _ from rfl)]
    exact not_congr (by rw [UInt32.toNat_inj.mp (step_leavesShares o (.replaceSent ts))])
  | canceled decrement ts =>
    refine iff_of_true ?_ trivial
    by_cases hleft : (o.step (.canceled decrement ts)).leavesShares = 0
    · refine agrees_of_terminal ?_ hleft
      rw [canceled_state, if_pos hleft]
      split <;> rfl
    · have hbefore : o.leavesShares ≠ 0 := by
        intro hzero
        refine hleft (UInt32.toNat_inj.mp ((step_leavesShares o (.canceled decrement ts)).trans ?_))
        simp only [hzero, UInt32.toNat_zero, Nat.zero_sub]
      -- the state is the one before, which was no terminal one over these shares
      refine (agrees_of_working ?_).mpr hleft
      rw [canceled_state, if_neg hleft]
      exact Bool.eq_false_iff.mpr fun h => hbefore (ho.2 h)
  | rejected ts => exact iff_of_true (agrees_of_terminal rfl rfl) trivial

/-- **Whole runs.** After an order is sent for some shares, every state agrees exactly when every
event is lively. -/
theorem agrees_iff_lively (o : ClientOrderState) (t : Token) (loc : UInt16) (sd : UInt8)
    (shares px : UInt32) (ts : UInt64) (hshares : shares ≠ 0) (events : List OrderEvent)
    (hstated : ∀ e ∈ events, e.Stated) :
    Always step Agrees (o.onSent t loc sd shares px ts).1 events ↔
      Along step Lively (o.onSent t loc sd shares px ts).1 events := by
  have hsent : Agrees (o.onSent t loc sd shares px ts).1 := (agrees_of_working rfl).mpr hshares
  exact always_iff_along step_agrees events _ hsent (Along.of_forall hstated)

/-- The acceptance of an order, its fill, and the acceptance once more. -/
def acceptedTwice : List OrderEvent :=
  [.accepted 100 10 1 false 1, .fill 100 10 2, .accepted 100 10 1 false 3]

/-- Sent again, the acceptance turns the filled order into a working one with nothing left. -/
theorem disagrees_acceptedTwice :
    ¬∀ (o : ClientOrderState) (t : Token) (loc : UInt16) (sd : UInt8) (shares px : UInt32)
      (ts : UInt64) (events : List OrderEvent), shares ≠ 0 → (∀ e ∈ events, e.Stated) →
      Always step Agrees (o.onSent t loc sd shares px ts).1 events := by
  intro h
  have hrun := h {} (Lib.alpha kTokenLen []) 1 66 100 10 0 acceptedTwice (by decide) (by decide)
  exact absurd hrun (by decide)

/-- A cancel and a fill that cross. -/
theorem agrees_iff_lively_crossed :
    let sent := ((({} : ClientOrderState).onSent (Lib.alpha kTokenLen []) 1 66 100 10 0).1)
    let events : List OrderEvent :=
      [.accepted 100 10 1 false 1, .cancelSent 2, .fill 40 10 3, .canceled 60 4]
    (Always step Agrees sent events ↔ Along step Lively sent events) ∧
      Always step Agrees sent events :=
  ⟨agrees_iff_lively {} _ 1 66 100 10 0 (by decide) _ (by decide), by decide⟩

end Ouch
end Tickerplant
