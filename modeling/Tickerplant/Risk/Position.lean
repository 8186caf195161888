import Tickerplant.Risk.Exact
import Tickerplant.Risk.Sound

/-!
# The position limit (`include/tick/risk.hpp`)

What the check compares with the limit is the position as it would be if every order that works on
a side were filled. `Covered` says it of the exact sums: a fill moves shares from the working total
to the position and nothing else raises either, so every step keeps it, and the position itself
never leaves the limits.

The engine's own totals say it too as long as they are the exact sums (`position_within_iff`). They
always are when the limit is below `2 ^ 62`; at `2 ^ 62` a side may work for `2 ^ 63` shares.

The sums are of integers and the engine adds up 64-bit numbers, so the step of an order that goes
out has to be taken in the engine's arithmetic first: the check passes a worst position that has
been computed modulo `2 ^ 64`. With the limit at `2 ^ 62` or below and the position covered before,
neither worst position can have gone as far as to wrap, and what was compared was what it should
be.

That a side works for at most twice the limit is what `Covered` comes to for the totals: the
position is at least the limit's negation, and the position with everything that works is at most
the limit.
-/

set_option autoImplicit false

namespace Tickerplant

open Interleave

/-! ## What moves a position -/

/-- An order that joins moves no position. -/
theorem SymbolRisk.place_position (s : SymbolRisk) (b : Bool) (n : UInt32) (p : Price) :
    (s.place b n p).position = s.position := by
  cases b <;> rfl

/-- Nor does one that leaves. -/
theorem SymbolRisk.close_position (s : SymbolRisk) (b : Bool) :
    (s.close b).position = s.position := by
  cases b with
  | true =>
    rw [close, if_pos rfl]
    split <;> rfl
  | false =>
    rw [close, if_neg Bool.false_ne_true]
    split <;> rfl

/-- Only shares that trade do. -/
theorem SymbolRisk.lose_position (s : SymbolRisk) (b : Bool) (n : UInt32) (traded : Bool) :
    (s.lose b n traded).position =
      if traded then (if b then s.position + signed n else s.position - signed n)
      else s.position := by
  cases traded <;> cases b <;> rfl

namespace RiskEngine

variable {e e' : RiskEngine} {o : OpenOrder} {n : UInt32} {traded : Bool}

/-- Whether the order is retired or not. -/
theorem lostBy_position (s : SymbolRisk) (o : OpenOrder) (n : UInt32) (traded : Bool) :
    (lostBy s o n traded).position = (s.lose o.isBuy n traded).position := by
  rw [lostBy]
  split
  · exact SymbolRisk.close_position _ _
  · rfl

/-! ## The invariant -/

/-- Whichever of the open orders fill, no position leaves the limits. -/
structure Covered (e : RiskEngine) : Prop where
  /-- If every buy fills. -/
  long : ∀ loc, e.position loc + workingOf e.table.held loc true ≤ e.limit
  /-- If every sell does. -/
  short : ∀ loc, -e.limit ≤ e.position loc - workingOf e.table.held loc false

/-- The sums of a side after an order has joined. -/
theorem workingOf_placed {r : OrderRequest} (hpl : Placed e r e')
    (hno : ∀ x ∈ e.table.held, x.token ≠ r.token) (loc : UInt16) (b : Bool) :
    workingOf e'.table.held loc b =
      (if r.locate = loc ∧ r.isBuy = b then r.shares.toNat else 0) +
        workingOf e.table.held loc b := by
  rw [hpl.held]
  exact tally_insert fun hin => hno _ hin rfl

/-- An order that passes is covered with all that works beside it. -/
theorem Covered.placed {r : OrderRequest} (hc : Covered e) (hb : Books e)
    (hlimit : 0 ≤ e.limit ∧ e.limit ≤ 2 ^ 62) (hp : Passes e r)
    (hno : ∀ x ∈ e.table.held, x.token ≠ r.token) (hpl : Placed e r e') : Covered e' := by
  have hposition : ∀ loc, e'.position loc = e.position loc := by
    intro loc
    rw [position, hpl.symbols, Function.update_apply]
    split
    case isTrue hloc => rw [SymbolRisk.place_position, hloc, position]
    case isFalse => rfl
  have hlim : e'.limit = e.limit := by rw [limit, hpl.limits, limit]
  have hn := r.shares.toNat_lt
  have hlong := hc.long r.locate
  have hshort := hc.short r.locate
  constructor
  · intro loc
    rw [hposition, hlim, workingOf_placed hpl hno]
    split
    case isFalse => exact (Nat.zero_add _).symm ▸ hc.long loc
    case isTrue hside =>
      obtain ⟨rfl, hbuy⟩ := hside
      -- the check has seen the same sum, and it does not wrap
      have hworst := hp.long_le
      rw [worstLong_eq (e := e) (r := r) ((hb.shares r.locate true).trans
        Int64.ofInt_eq_ofNat.symm), hbuy, if_pos rfl, Lib.toInt_ofInt_of_mem] at hworst
      all_goals omega
  · intro loc
    rw [hposition, hlim, workingOf_placed hpl hno]
    split
    case isFalse => exact (Nat.zero_add _).symm ▸ hc.short loc
    case isTrue hside =>
      obtain ⟨rfl, hbuy⟩ := hside
      have hworst := hp.le_short (by omega)
      rw [worstShort_eq (e := e) (r := r) ((hb.shares r.locate false).trans
        Int64.ofInt_eq_ofNat.symm), hbuy, if_neg Bool.false_ne_true,
        Lib.toInt_ofInt_of_mem] at hworst
      all_goals omega

/-- What an order that loses shares moves a position by. -/
def moved (o : OpenOrder) (n : UInt32) (traded : Bool) (loc : UInt16) : ℤ :=
  if traded = true ∧ o.locate = loc then (if o.isBuy then (n.toNat : ℤ) else -n.toNat) else 0

/-- The position after a loss, modulo its wrap. -/
theorem lost_symbols_position (hl : Lost e o n traded e') (loc : UInt16) :
    (e'.symbols loc).position = Int64.ofInt (e.position loc + moved o n traded loc) := by
  rw [hl.symbols, Function.update_apply, moved]
  by_cases hloc : loc = o.locate
  case neg => rw [if_neg hloc, if_neg fun h => hloc h.2.symm, Int.add_zero, position,
      Int64.ofInt_toInt]
  case pos =>
    subst hloc
    have hat : (e.symbols o.locate).position = Int64.ofInt (e.position o.locate) :=
      (Int64.ofInt_toInt _).symm
    rw [if_pos rfl, lostBy_position, SymbolRisk.lose_position]
    cases traded with
    | false =>
      rw [if_neg Bool.false_ne_true, if_neg fun h => Bool.false_ne_true h.1, Int.add_zero, hat]
    | true =>
      simp only [and_self, if_true, signed_eq, hat]
      split
      case isTrue => rw [Int64.ofInt_add]
      case isFalse => rw [← Int.sub_eq_add_neg, Int64.ofInt_sub]

/-- The position of a symbol after its order has traded, when there is room for that. -/
theorem lost_position (hl : Lost e o n traded e')
    (hroom : -2 ^ 63 ≤ e.position o.locate - n.toNat ∧ e.position o.locate + n.toNat < 2 ^ 63)
    (loc : UInt16) : e'.position loc = e.position loc + moved o n traded loc := by
  have hlo := (e.symbols loc).position.le_toInt
  have hhi := (e.symbols loc).position.toInt_lt
  rw [position, lost_symbols_position hl]
  apply Lib.toInt_ofInt_of_mem
  all_goals
    rw [moved]
    split
    case isTrue hmoved =>
      obtain ⟨-, rfl⟩ := hmoved
      split <;> omega
    case isFalse =>
      rw [position]
      omega

/-- What trades was covered, and what is cancelled leaves less to cover. -/
theorem Covered.lost (hc : Covered e) (hb : Books e) (hlimit : 0 ≤ e.limit ∧ e.limit ≤ 2 ^ 62)
    (ho : o ∈ e.table.held) (hn : n ≤ o.leaves) (hl : Lost e o n traded e') : Covered e' := by
  have hnew := remnant_notMem hb.wf ho n
  have hworking : ∀ loc b, workingOf e.table.held loc b = workingOf e'.table.held loc b +
      if o.locate = loc ∧ o.isBuy = b then n.toNat else 0 := by
    intro loc b
    rw [hl.held]
    exact workingOf_lost loc b ho hn hnew
  have hlim : e'.limit = e.limit := by rw [limit, hl.limits, limit]
  have hwide := n.toNat_lt
  have hlong := hc.long o.locate
  have hshort := hc.short o.locate
  -- the position was covered, so there is room for what trades
  have hposition := lost_position hl (by omega)
  constructor
  · intro loc
    have hlong := hc.long loc
    rw [hworking loc true] at hlong
    rw [hlim, hposition, moved]
    by_cases hloc : o.locate = loc
    case neg =>
      rw [if_neg fun h => hloc h.1] at hlong
      rw [if_neg fun h => hloc h.2]
      omega
    case pos =>
      simp only [hloc, true_and, and_true] at hlong ⊢
      cases hbuy : o.isBuy <;> cases traded <;>
        simp only [hbuy, if_true, if_false, Bool.false_eq_true] at hlong ⊢ <;> omega
  · intro loc
    have hshort := hc.short loc
    rw [hworking loc false] at hshort
    rw [hlim, hposition, moved]
    by_cases hloc : o.locate = loc
    case neg =>
      rw [if_neg fun h => hloc h.1] at hshort
      rw [if_neg fun h => hloc h.2]
      omega
    case pos =>
      simp only [hloc, true_and, and_true] at hshort ⊢
      cases hbuy : o.isBuy <;> cases traded <;>
        simp only [hbuy, if_true, if_false, Bool.false_eq_true, Bool.true_eq_false] at hshort ⊢ <;>
        omega

/-- **Every event leaves the positions covered.** -/
theorem Covered.step {ev : RiskEvent} {sent : Bool} (hc : Covered e) (hb : Books e)
    (hlimit : 0 ≤ e.limit ∧ e.limit ≤ 2 ^ 62) (hdo : Step e ev e' sent) : Covered e' := by
  cases hdo with
  | refused => exact hc
  | placed hp hno hpl => exact hc.placed hb hlimit hp hno hpl
  | unknown => exact ⟨hc.long, hc.short⟩
  | lost ho hl => exact hc.lost hb hlimit ho (takes_le _ _) hl

/-! ## The engine's own numbers -/

/-- The limit holds of the engine's numbers, whichever of the working orders fill. -/
structure Within (e : RiskEngine) : Prop where
  /-- If every buy fills, as the engine has it. -/
  long : ∀ loc, e.position loc + (e.symbols loc).workingBuyShares.toInt ≤ e.limit
  /-- If every sell does. -/
  short : ∀ loc, -e.limit ≤ e.position loc - (e.symbols loc).workingSellShares.toInt
  /-- No total is below nothing. -/
  buys : ∀ loc, 0 ≤ (e.symbols loc).workingBuyShares.toInt
  sells : ∀ loc, 0 ≤ (e.symbols loc).workingSellShares.toInt
  /-- The position as it is. -/
  position : ∀ loc, -e.limit ≤ e.position loc ∧ e.position loc ≤ e.limit

/-- What works on a side is between the position and a limit. -/
theorem Covered.workingOf_le (hc : Covered e) (loc : UInt16) (b : Bool) :
    (workingOf e.table.held loc b : ℤ) ≤ 2 * e.limit := by
  have hlong := hc.long loc
  have hshort := hc.short loc
  cases b <;> omega

/-- The engine's numbers say it exactly when they are the sums. -/
theorem Covered.within_iff (hc : Covered e) (hb : Books e) (hlimit : e.limit ≤ 2 ^ 62) :
    Within e ↔ Fits e := by
  constructor
  · intro hw loc b
    have hle := hc.workingOf_le loc b
    have hshares := hb.shares loc b
    by_contra hwide
    have hmax : workingOf e.table.held loc b = 2 ^ 63 := by omega
    rw [hmax] at hshares
    cases b with
    | true => exact absurd ((congrArg Int64.toInt hshares) ▸ hw.buys loc) (by decide)
    | false => exact absurd ((congrArg Int64.toInt hshares) ▸ hw.sells loc) (by decide)
  · intro hfits
    have hshares : ∀ loc b, ((e.symbols loc).workingShares b).toInt =
        workingOf e.table.held loc b := by
      intro loc b
      rw [hb.shares]
      exact Lib.toInt_ofNat_iff.mpr (hfits loc b)
    have hbuys : ∀ loc, (e.symbols loc).workingBuyShares.toInt = workingOf e.table.held loc true :=
      fun loc => hshares loc true
    have hsells : ∀ loc, (e.symbols loc).workingSellShares.toInt =
        workingOf e.table.held loc false := fun loc => hshares loc false
    refine ⟨fun loc => ?_, fun loc => ?_, fun loc => ?_, fun loc => ?_, fun loc => ?_⟩
    · exact (hbuys loc).symm ▸ hc.long loc
    · exact (hsells loc).symm ▸ hc.short loc
    · exact (hbuys loc).symm ▸ Int.natCast_nonneg _
    · exact (hsells loc).symm ▸ Int.natCast_nonneg _
    · have hlong := hc.long loc
      have hshort := hc.short loc
      constructor <;> omega

/-- **The position limit**, over whole runs of an engine that starts within it. The engine's
numbers keep to it exactly when its totals fit, as they do for every limit below `2 ^ 62`. -/
theorem position_within_iff (start : RiskEngine) (hstart : Idle start)
    (hlimit : 0 ≤ start.limit ∧ start.limit ≤ 2 ^ 62)
    (hposition : ∀ loc, -start.limit ≤ start.position loc ∧ start.position loc ≤ start.limit)
    (events : List RiskEvent) :
    ∃ e h, run trade (start, {}) events = some (e, h) ∧ (Within e ↔ Fits e) ∧
      (start.limit < 2 ^ 62 → Fits e) := by
  have hnone : ∀ loc b, workingOf start.table.held loc b = 0 := by
    intro loc b
    rw [hstart.held]
    rfl
  -- with nothing working, the position covers itself
  have hcovered : Covered start := by
    constructor
    · intro loc
      rw [hnone]
      exact (Int.add_zero _).symm ▸ (hposition loc).2
    · intro loc
      rw [hnone]
      exact (Int.sub_zero _).symm ▸ (hposition loc).1
  obtain ⟨e, h, hrun, hb, hc, hlimits⟩ := run_kept
    (P := fun e _ => Covered e ∧ e.limits = start.limits)
    (fun e _ _ _ _ hb hp hdo => by
      have heq : e.limit = start.limit := congrArg (fun l => l.maxPositionShares.toInt) hp.2
      exact ⟨hp.1.step hb (heq ▸ hlimit) hdo, hdo.limits.trans hp.2⟩)
    events hstart.books ⟨hcovered, rfl⟩
  have heq : e.limit = start.limit := congrArg (fun l => l.maxPositionShares.toInt) hlimits
  refine ⟨e, h, hrun, hc.within_iff hb (heq ▸ hlimit.2), fun hsmall loc b => ?_⟩
  have hle := hc.workingOf_le loc b
  omega

/-- With one share bid for and a limit of a hundred, the engine keeps to it. -/
theorem position_within_iff_oneBid : ∃ e h,
    run trade (opened onePerSecond, {}) [.order (oneShare 65 199999999)] = some (e, h) ∧
      (e.symbols 0).workingBuyShares = 1 ∧ Within e := by
  obtain ⟨e, h, hrun, hiff, hfits⟩ := position_within_iff (opened onePerSecond) (idle_opened _)
    (by decide) (fun _ => show -(100 : ℤ) ≤ 0 ∧ (0 : ℤ) ≤ 100 by decide)
    [.order (oneShare 65 199999999)]
  have hshares : (run trade (opened onePerSecond, {}) [.order (oneShare 65 199999999)]).map
      (fun w => (w.1.symbols 0).workingBuyShares) = some 1 := by decide +kernel
  rw [hrun] at hshares
  exact ⟨e, h, hrun, Option.some.inj hshares, hiff.mpr (hfits (by decide))⟩

/-- At the limit of `2 ^ 62` a side's total can wrap to below nothing. -/
theorem position_wraps_ladder :
    ¬∀ (start : RiskEngine), Idle start → 0 ≤ start.limit ∧ start.limit ≤ 2 ^ 62 →
      (∀ loc, -start.limit ≤ start.position loc ∧ start.position loc ≤ start.limit) →
      ∀ events, ∃ e h, run trade (start, {}) events = some (e, h) ∧ Within e := by
  intro hall
  obtain ⟨e, h, hrun, hwithin⟩ := hall short idle_short (by decide)
    (fun _ => show -(2 ^ 62 : ℤ) ≤ -2 ^ 62 ∧ (-2 ^ 62 : ℤ) ≤ 2 ^ 62 by decide)
    (ladder (2 ^ 31 + 1))
  obtain ⟨e', h', hrun', hmin⟩ := climb_top
  obtain ⟨rfl, rfl⟩ := Prod.mk.inj (Option.some.inj (hrun.symm.trans hrun'))
  have hbuys := hwithin.buys 0
  rw [hmin] at hbuys
  exact absurd hbuys (by decide)

end RiskEngine
end Tickerplant
