import Tickerplant.Lib.Trace
import Tickerplant.Ouch.Wire

/-!
# One order, as the client sees it

`ClientOrderState` follows one order token through its life: what the client sent, what came back,
how many shares still work and how many are filled. Every handler returns whether the transition
was legal and advances the state either way, because the exchange is the authority on what
happened.

An illegal transition is counted and survived, as in the book and for the same reason. The protocol
is built on resending, and messages cross on the wire; a second acceptance or an execution after a
cancel are things to expect. A fill of an order that is not there is counted apart from the others,
since it is a position nobody knew of.

The counters have the widths of the source and wrap where it would. The handlers share three parts
(`checked`, `takeShares`, `orphaned`), and what each of these leaves alone is tagged for
simplification. Above that a counter is described once for all events (`step_filledShares`,
`step_leavesShares` and so on), so that what is proved of runs never opens a handler.
-/

set_option autoImplicit false

namespace Tickerplant
namespace Ouch

open Lib

/-- `OrderState`. The last three are final, the first is nothing sent yet. -/
inductive OrderState where
  | unknown
  | sent
  | accepted
  | partiallyFilled
  | filled
  /-- A replace is asked for and not answered. The order may still fill on its old terms. -/
  | replaceSent
  | cancelSent
  | canceled
  | rejected
  deriving DecidableEq, Repr

/-- One token's worth of state. -/
structure ClientOrderState where
  token : Token := alpha kTokenLen []
  state : OrderState := .unknown
  locate : UInt16 := 0
  side : UInt8 := 0
  originalShares : UInt32 := 0
  /-- Still working at the exchange. -/
  leavesShares : UInt32 := 0
  filledShares : UInt32 := 0
  /-- The sum of shares times price over the fills. -/
  filledNotional : UInt64 := 0
  price : UInt32 := 0
  /-- The exchange's number, which arrives with the acceptance. -/
  reference : UInt64 := 0
  lastUpdateNs : UInt64 := 0
  illegalTransitions : UInt32 := 0
  /-- Fills of an order that was dead or never sent. -/
  orphanFills : UInt32 := 0
  /-- Times that more was taken than was working. -/
  overfills : UInt32 := 0

namespace OrderState

/-- Nothing more is to come for the token. -/
def terminal : OrderState → Bool
  | .filled | .canceled | .rejected => true
  | _ => false

/-- The exchange may have it. -/
def working : OrderState → Bool
  | .sent | .accepted | .partiallyFilled | .replaceSent | .cancelSent => true
  | _ => false

end OrderState

namespace ClientOrderState

/-- `terminal()`. -/
def terminal (o : ClientOrderState) : Bool := o.state.terminal

/-- `working()`. -/
def working (o : ClientOrderState) : Bool := o.state.working

/-- `average_price()`, rounded down, and zero before the first fill. -/
def averagePrice (o : ClientOrderState) : UInt32 :=
  if o.filledShares = 0 then 0 else (o.filledNotional / o.filledShares.toUInt64).toUInt32

/-! ## The handlers -/

/-- `if (!legal) ++illegal_transitions`. -/
def checked (o : ClientOrderState) (legal : Bool) : ClientOrderState :=
  if legal then o else { o with illegalTransitions := o.illegalTransitions + 1 }

/-- The order goes out, from nothing. Whatever the token was used for before is forgotten. -/
def onSent (o : ClientOrderState) (t : Token) (loc : UInt16) (sd : UInt8) (shares px : UInt32)
    (ts : UInt64) : ClientOrderState × Bool :=
  let legal := decide (o.state = .unknown)
  ({ o.checked legal with
    token := t
    locate := loc
    side := sd
    originalShares := shares
    leavesShares := shares
    filledShares := 0
    filledNotional := 0
    price := px
    state := .sent
    lastUpdateNs := ts }, legal)

/-- The order is acknowledged. The exchange's shares and price win over the ones that were sent,
and an order that is dead on arrival is cancelled at once. -/
def onAccepted (o : ClientOrderState) (acceptedShares acceptedPrice : UInt32) (ref : UInt64)
    (dead : Bool) (ts : UInt64) : ClientOrderState × Bool :=
  let legal := decide (o.state = .sent)
  let leaves := if o.filledShares < acceptedShares then acceptedShares - o.filledShares else 0
  ({ o.checked legal with
    reference := ref
    price := acceptedPrice
    lastUpdateNs := ts
    originalShares := acceptedShares
    leavesShares := if dead then 0 else leaves
    state := if dead then .canceled else .accepted }, legal)

/-- The replacement is there, under a new token. It is for so many shares on top of what is filled.
-/
def onReplaced (o : ClientOrderState) (newToken : Token) (shares px : UInt32) (ref : UInt64)
    (dead : Bool) (ts : UInt64) : ClientOrderState × Bool :=
  let legal := decide (o.state = .replaceSent)
  ({ o.checked legal with
    token := newToken
    originalShares := shares + o.filledShares
    leavesShares := if dead then 0 else shares
    price := px
    reference := ref
    lastUpdateNs := ts
    state := if dead then .canceled else .accepted }, legal)

/-- Shares leave what is working; more than are working is an overfill and leaves none. -/
def takeShares (o : ClientOrderState) (shares : UInt32) : ClientOrderState :=
  if o.leavesShares < shares then { o with overfills := o.overfills + 1, leavesShares := 0 }
  else { o with leavesShares := o.leavesShares - shares }

/-- `++orphan_fills` for a fill against a terminal or unknown token. -/
def orphaned (o : ClientOrderState) (orphan : Bool) : ClientOrderState :=
  if orphan then { o with orphanFills := o.orphanFills + 1 } else o

/-- Shares are executed. The exchange's number is taken even where it is more than was working. -/
def onFill (o : ClientOrderState) (shares px : UInt32) (ts : UInt64) :
    ClientOrderState × Bool :=
  let orphan := o.terminal || decide (o.state = .unknown)
  let o' := (o.orphaned orphan).takeShares shares
  ({ o' with
    filledShares := o'.filledShares + shares
    filledNotional := o'.filledNotional + shares.toUInt64 * px.toUInt64
    lastUpdateNs := ts
    state := if o'.leavesShares = 0 then .filled else .partiallyFilled },
    -- the counts go into the state whatever the answer; the answer is whether they moved
    !orphan && decide (shares ≤ o.leavesShares))

/-- A cancel goes out, which may be before the order is acknowledged. -/
def onCancelSent (o : ClientOrderState) (ts : UInt64) : ClientOrderState × Bool :=
  let legal := decide (o.state = .accepted ∨ o.state = .partiallyFilled ∨ o.state = .sent)
  ({ o.checked legal with state := .cancelSent, lastUpdateNs := ts }, legal)

/-- A replace goes out, of an order that is acknowledged. -/
def onReplaceSent (o : ClientOrderState) (ts : UInt64) : ClientOrderState × Bool :=
  let legal := decide (o.state = .accepted ∨ o.state = .partiallyFilled)
  ({ o.checked legal with state := .replaceSent, lastUpdateNs := ts }, legal)

/-- Shares are taken off. The order is over only when none are left, and was filled if all that
ever were in it have executed. -/
def onCanceled (o : ClientOrderState) (decrement : UInt32) (ts : UInt64) :
    ClientOrderState × Bool :=
  let legal := !o.terminal && decide (o.state ≠ .unknown)
  let o' := (o.checked legal).takeShares decrement
  ({ o' with
    lastUpdateNs := ts
    state :=
      if o'.leavesShares = 0 then
        if 0 < o'.filledShares ∧ o'.filledShares = o'.originalShares then .filled else .canceled
      else o'.state }, legal && decide (decrement ≤ o.leavesShares))

/-- The order, or a replace of it, is refused, and the token is burnt. -/
def onRejected (o : ClientOrderState) (ts : UInt64) : ClientOrderState × Bool :=
  let legal := decide (o.state = .sent ∨ o.state = .replaceSent)
  ({ o.checked legal with leavesShares := 0, state := .rejected, lastUpdateNs := ts }, legal)

end ClientOrderState

/-! ## Sequences of events -/

/-- Everything that can happen to a `ClientOrderState`. -/
inductive OrderEvent where
  | sent (t : Token) (loc : UInt16) (sd : UInt8) (shares px : UInt32) (ts : UInt64)
  | accepted (shares px : UInt32) (ref : UInt64) (dead : Bool) (ts : UInt64)
  | replaced (t : Token) (shares px : UInt32) (ref : UInt64) (dead : Bool) (ts : UInt64)
  | fill (shares px : UInt32) (ts : UInt64)
  | cancelSent (ts : UInt64)
  | replaceSent (ts : UInt64)
  | canceled (decrement : UInt32) (ts : UInt64)
  | rejected (ts : UInt64)

namespace ClientOrderState

/-- The handler of an event. -/
def apply (o : ClientOrderState) : OrderEvent → ClientOrderState × Bool
  | .sent t loc sd shares px ts => o.onSent t loc sd shares px ts
  | .accepted shares px ref dead ts => o.onAccepted shares px ref dead ts
  | .replaced t shares px ref dead ts => o.onReplaced t shares px ref dead ts
  | .fill shares px ts => o.onFill shares px ts
  | .cancelSent ts => o.onCancelSent ts
  | .replaceSent ts => o.onReplaceSent ts
  | .canceled decrement ts => o.onCanceled decrement ts
  | .rejected ts => o.onRejected ts

/-- The state after an event. -/
def step (o : ClientOrderState) (e : OrderEvent) : ClientOrderState := (o.apply e).1

/-! ## What the shared parts touch -/

section Shared

variable (o : ClientOrderState) (flag : Bool) (shares : UInt32)

@[simp] theorem checked_state : (o.checked flag).state = o.state := by
  unfold checked
  split <;> rfl

@[simp] theorem checked_originalShares : (o.checked flag).originalShares = o.originalShares := by
  unfold checked
  split <;> rfl

@[simp] theorem checked_leavesShares : (o.checked flag).leavesShares = o.leavesShares := by
  unfold checked
  split <;> rfl

@[simp] theorem checked_filledShares : (o.checked flag).filledShares = o.filledShares := by
  unfold checked
  split <;> rfl

@[simp] theorem checked_filledNotional : (o.checked flag).filledNotional = o.filledNotional := by
  unfold checked
  split <;> rfl

@[simp] theorem checked_overfills : (o.checked flag).overfills = o.overfills := by
  unfold checked
  split <;> rfl

@[simp] theorem checked_orphanFills : (o.checked flag).orphanFills = o.orphanFills := by
  unfold checked
  split <;> rfl

@[simp] theorem orphaned_state : (o.orphaned flag).state = o.state := by
  unfold orphaned
  split <;> rfl

@[simp] theorem orphaned_originalShares : (o.orphaned flag).originalShares = o.originalShares := by
  unfold orphaned
  split <;> rfl

@[simp] theorem orphaned_leavesShares : (o.orphaned flag).leavesShares = o.leavesShares := by
  unfold orphaned
  split <;> rfl

@[simp] theorem orphaned_filledShares : (o.orphaned flag).filledShares = o.filledShares := by
  unfold orphaned
  split <;> rfl

@[simp] theorem orphaned_filledNotional : (o.orphaned flag).filledNotional = o.filledNotional := by
  unfold orphaned
  split <;> rfl

@[simp] theorem orphaned_overfills : (o.orphaned flag).overfills = o.overfills := by
  unfold orphaned
  split <;> rfl

@[simp] theorem orphaned_illegalTransitions :
    (o.orphaned flag).illegalTransitions = o.illegalTransitions := by
  unfold orphaned
  split <;> rfl

@[simp] theorem takeShares_state : (o.takeShares shares).state = o.state := by
  unfold takeShares
  split <;> rfl

@[simp] theorem takeShares_originalShares :
    (o.takeShares shares).originalShares = o.originalShares := by
  unfold takeShares
  split <;> rfl

@[simp] theorem takeShares_filledShares : (o.takeShares shares).filledShares = o.filledShares := by
  unfold takeShares
  split <;> rfl

@[simp] theorem takeShares_filledNotional :
    (o.takeShares shares).filledNotional = o.filledNotional := by
  unfold takeShares
  split <;> rfl

@[simp] theorem takeShares_illegalTransitions :
    (o.takeShares shares).illegalTransitions = o.illegalTransitions := by
  unfold takeShares
  split <;> rfl

@[simp] theorem takeShares_orphanFills : (o.takeShares shares).orphanFills = o.orphanFills := by
  unfold takeShares
  split <;> rfl

/-- What is left after taking, in whole shares: what the code clamps, subtraction clamps. -/
theorem takeShares_leavesShares :
    (o.takeShares shares).leavesShares.toNat = o.leavesShares.toNat - shares.toNat := by
  unfold takeShares
  split
  case isTrue h => exact (Nat.sub_eq_zero_of_le (Nat.le_of_lt (UInt32.lt_iff_toNat_lt.mp h))).symm
  case isFalse h => exact UInt32.toNat_sub_of_le _ _ (UInt32.not_lt.mp h)

/-- The overfill counter moves exactly when more is taken than works. -/
theorem takeShares_overfills :
    (o.takeShares shares).overfills = o.overfills ↔ shares ≤ o.leavesShares := by
  unfold takeShares
  split
  case isTrue h =>
    have hne : o.overfills + 1 ≠ o.overfills := by simp
    exact iff_of_false hne (UInt32.not_le.mpr h)
  case isFalse h => exact iff_of_true rfl (UInt32.not_lt.mp h)

end Shared

/-! ## What one event does to each counter -/

/-- Only a fill adds to what is filled, and only sending clears it. -/
theorem step_filledShares (o : ClientOrderState) (e : OrderEvent) :
    (o.step e).filledShares = match e with
      | .sent .. => 0
      | .fill shares _ _ => o.filledShares + shares
      | _ => o.filledShares := by
  cases e <;> simp only [step, apply, onSent, onAccepted, onReplaced, onFill, onCancelSent,
    onReplaceSent, onCanceled, onRejected, takeShares_filledShares, orphaned_filledShares,
    checked_filledShares]

/-- Likewise for the notional. -/
theorem step_filledNotional (o : ClientOrderState) (e : OrderEvent) :
    (o.step e).filledNotional = match e with
      | .sent .. => 0
      | .fill shares px _ => o.filledNotional + shares.toUInt64 * px.toUInt64
      | _ => o.filledNotional := by
  cases e <;> simp only [step, apply, onSent, onAccepted, onReplaced, onFill, onCancelSent,
    onReplaceSent, onCanceled, onRejected, takeShares_filledNotional, orphaned_filledNotional,
    checked_filledNotional]

/-- The size of the order is what was last sent, accepted or replaced. -/
theorem step_originalShares (o : ClientOrderState) (e : OrderEvent) :
    (o.step e).originalShares = match e with
      | .sent _ _ _ shares _ _ => shares
      | .accepted shares _ _ _ _ => shares
      | .replaced _ shares _ _ _ _ => shares + o.filledShares
      | _ => o.originalShares := by
  cases e <;> simp only [step, apply, onSent, onAccepted, onReplaced, onFill, onCancelSent,
    onReplaceSent, onCanceled, onRejected, takeShares_originalShares, orphaned_originalShares,
    checked_originalShares, checked_filledShares]

/-- What is left, in whole shares. -/
theorem step_leavesShares (o : ClientOrderState) (e : OrderEvent) :
    (o.step e).leavesShares.toNat = match e with
      | .sent _ _ _ shares _ _ => shares.toNat
      | .accepted shares _ _ dead _ =>
        if dead then 0 else shares.toNat - o.filledShares.toNat
      | .replaced _ shares _ _ dead _ => if dead then 0 else shares.toNat
      | .fill shares _ _ => o.leavesShares.toNat - shares.toNat
      | .canceled decrement _ => o.leavesShares.toNat - decrement.toNat
      | .rejected _ => 0
      | .cancelSent _ | .replaceSent _ => o.leavesShares.toNat := by
  cases e with
  | sent t loc sd shares px ts => rfl
  | accepted shares px ref dead ts =>
    cases dead with
    | true => rfl
    | false =>
      -- the source clamps at zero, and so does subtraction of naturals
      by_cases h : o.filledShares < shares
      · have hleft : (o.step (.accepted shares px ref false ts)).leavesShares =
            shares - o.filledShares := if_pos h
        rw [hleft]
        exact UInt32.toNat_sub_of_le _ _ (UInt32.le_of_lt h)
      · have hleft : (o.step (.accepted shares px ref false ts)).leavesShares = 0 := if_neg h
        rw [hleft]
        exact (Nat.sub_eq_zero_of_le (UInt32.not_lt.mp h)).symm
  | replaced t shares px ref dead ts => cases dead <;> rfl
  | fill shares px ts =>
    exact (takeShares_leavesShares _ _).trans (by rw [orphaned_leavesShares])
  | cancelSent ts => exact congrArg UInt32.toNat (o.checked_leavesShares _)
  | replaceSent ts => exact congrArg UInt32.toNat (o.checked_leavesShares _)
  | canceled decrement ts =>
    exact (takeShares_leavesShares _ _).trans (by rw [checked_leavesShares])
  | rejected ts => rfl

/-- Only a fill or a cancel of more than is left moves the overfill counter. -/
theorem step_overfills (o : ClientOrderState) (e : OrderEvent) :
    (o.step e).overfills = o.overfills ↔ match e with
      | .fill shares _ _ => shares ≤ o.leavesShares
      | .canceled decrement _ => decrement ≤ o.leavesShares
      | _ => True := by
  cases e with
  | fill shares px ts =>
    have h := takeShares_overfills
      (o.orphaned (o.terminal || decide (o.state = .unknown))) shares
    rwa [orphaned_overfills, orphaned_leavesShares] at h
  | canceled decrement ts =>
    have h := takeShares_overfills
      (o.checked (!o.terminal && decide (o.state ≠ .unknown))) decrement
    rwa [checked_overfills, checked_leavesShares] at h
  | _ => exact iff_of_true (checked_overfills _ _) trivial

/-- A call that answers true counts nothing. -/
theorem step_counters {o : ClientOrderState} {e : OrderEvent} (h : (o.apply e).2 = true) :
    (o.step e).illegalTransitions = o.illegalTransitions ∧
      (o.step e).orphanFills = o.orphanFills ∧ (o.step e).overfills = o.overfills := by
  cases e with
  -- a fill that answers true was no orphan and no overfill; the other two counters it does not
  -- touch
  | fill shares px ts =>
    obtain ⟨horphan, hover⟩ := Bool.and_eq_true_iff.mp h
    refine ⟨?_, ?_, (step_overfills o (.fill shares px ts)).mpr (of_decide_eq_true hover)⟩
    · exact (takeShares_illegalTransitions _ _).trans (orphaned_illegalTransitions _ _)
    · refine (takeShares_orphanFills _ _).trans ?_
      rw [(Bool.not_eq_true' _).mp horphan]
      rfl
  | canceled decrement ts =>
    obtain ⟨hlegal, hover⟩ := Bool.and_eq_true_iff.mp h
    refine ⟨?_, ?_, (step_overfills o (.canceled decrement ts)).mpr (of_decide_eq_true hover)⟩
    · refine (takeShares_illegalTransitions _ _).trans ?_
      rw [hlegal]
      rfl
    · exact (takeShares_orphanFills _ _).trans (checked_orphanFills _ _)
  | _ =>
    refine ⟨?_, checked_orphanFills _ _, checked_overfills _ _⟩
    exact congrArg (fun legal => (o.checked legal).illegalTransitions) h

/-- A cancel ends the order only when nothing is left, and leaves the state alone otherwise. -/
theorem canceled_state (o : ClientOrderState) (decrement : UInt32) (ts : UInt64) :
    (o.step (.canceled decrement ts)).state =
      if (o.step (.canceled decrement ts)).leavesShares = 0 then
        if 0 < o.filledShares ∧ o.filledShares = o.originalShares then .filled else .canceled
      else o.state := by
  simp only [step, apply, onCanceled, takeShares_state, takeShares_filledShares,
    takeShares_originalShares, checked_state, checked_filledShares, checked_originalShares]

end ClientOrderState

end Ouch
end Tickerplant
