import Tickerplant.Ouch.OrderState
import Tickerplant.Risk.Position

/-!
# Two trackers of one order (`include/tick/risk.hpp`, `include/tick/ouch.hpp`)

The risk engine and a `ClientOrderState` hear the same reports about an order and keep their own
account of it. They differ in two places. More executed than is left is clamped by the engine and
believed by the client, and a cancel of zero is everything to the engine and nothing to the client.

`Careful` rules the two out, and with them a position that has no room for what is executed. The
accounts agree after every report exactly as long as every report is careful.

Both differences are deliberate on their own side. The engine guards a limit, and a total that went
below nothing would let too much through; the client's record is of what the exchange said, and an
overfill is something a person has to see.

The agreement is about one order, and the engine has others. So the engine is any that a run leads
to, and what the reports do to its other orders is left open: `Own` and `Told` are about the slot
of this one and about the position of its symbol.
-/

set_option autoImplicit false

namespace Tickerplant

open Interleave

/-- What the exchange says of an order after its acceptance. -/
inductive OrderReport where
  /-- Shares were traded. -/
  | executed (shares px : UInt32) (ts : UInt64)
  /-- Shares were cancelled. -/
  | canceled (decrement : UInt32) (ts : UInt64)
  /-- The order was not taken. -/
  | rejected (ts : UInt64)

namespace OrderReport

/-- What the risk engine is told. -/
def toRisk : OrderReport → RiskReport
  | .executed shares px _ => .fill shares px.toNat
  | .canceled decrement _ => .cancelAcked decrement
  | .rejected _ => .reject

/-- What the client's record is told. -/
def toClient : OrderReport → Ouch.OrderEvent
  | .executed shares px ts => .fill shares px ts
  | .canceled decrement ts => .canceled decrement ts
  | .rejected ts => .rejected ts

end OrderReport

/-- The two accounts. -/
structure Trackers where
  engine : RiskEngine
  client : Ouch.ClientOrderState

namespace Trackers

/-- A report about the order with a token. -/
def tell (token : Ouch.Token) (w : Trackers) (said : OrderReport) : Option Trackers :=
  (w.engine.onReport token said.toRisk).map fun e => ⟨e, w.client.step said.toClient⟩

/-- The order is sent, and accepted as it was sent. -/
def begun (e : RiskEngine) (o : Ouch.ClientOrderState) (r : OrderRequest) (sd : UInt8)
    (px : UInt32) (ref sentNs acceptedNs : UInt64) : Trackers :=
  ⟨e.onOrderSent r, ((o.onSent r.token r.locate sd r.shares px sentNs).1.onAccepted r.shares px ref
    false acceptedNs).1⟩

end Trackers

/-- The shares the engine counts as left of an order. -/
def RiskEngine.remaining (e : RiskEngine) (token : Ouch.Token) : ℕ :=
  match e.lookup token with
  | some (some o) => o.leaves
  | _ => 0

/-- The accounts agree: on whether the order is open, on what is left of it and on what it has
done to the position. -/
structure Agree (before : RiskEngine) (r : OrderRequest) (w : Trackers) : Prop where
  /-- Both have it open, or neither. -/
  isOpen : (∃ o, w.engine.lookup r.token = some (some o)) ↔
    w.client.working = true ∧ 0 < w.client.leavesShares
  /-- With as much left. -/
  leaves : w.engine.remaining r.token = w.client.leavesShares.toNat
  /-- What has filled is what the position has moved by since the order went out. -/
  position : w.engine.position r.locate - before.position r.locate =
    if r.isBuy then (w.client.filledShares.toNat : ℤ) else -w.client.filledShares.toNat

/-- No more is executed than is left and the position has room for; and a cancel of an order with
shares left is of some of them. -/
def Careful (r : OrderRequest) (w : Trackers) : OrderReport → Prop
  | .executed shares _ _ => shares ≤ w.client.leavesShares ∧
    if r.isBuy then w.engine.position r.locate + shares.toNat < 2 ^ 63
    else -2 ^ 63 ≤ w.engine.position r.locate - shares.toNat
  | .canceled decrement _ => decrement ≠ 0 ∨ w.client.leavesShares = 0
  | .rejected _ => True

instance (r : OrderRequest) (w : Trackers) : DecidablePred (Careful r w)
  | .executed shares _ _ => inferInstanceAs (Decidable (shares ≤ w.client.leavesShares ∧
    if r.isBuy then w.engine.position r.locate + shares.toNat < 2 ^ 63
    else -2 ^ 63 ≤ w.engine.position r.locate - shares.toNat))
  | .canceled decrement _ =>
    inferInstanceAs (Decidable (decrement ≠ 0 ∨ w.client.leavesShares = 0))
  | .rejected _ => inferInstanceAs (Decidable True)

namespace RiskEngine

variable {e e' : RiskEngine} {o : OpenOrder} {n : UInt32} {traded : Bool} {r : OrderRequest}

/-! ## The engine's account -/

/-- What is left of an open order is what its entry says. -/
theorem remaining_held (hwf : e.table.Wf) (ho : o ∈ e.table.held) :
    e.remaining o.token = o.leaves.toNat := by
  rw [remaining, lookup_held hwf ho]
  rfl

/-- Of any other there is nothing left. -/
theorem remaining_absent (hwf : e.table.Wf) {token : Ouch.Token}
    (hno : ∀ o ∈ e.table.held, o.token ≠ token) : e.remaining token = 0 := by
  rw [remaining, lookup_absent hwf hno]

/-- An open order has shares left. -/
theorem Books.isOpen_iff (hb : Books e) (token : Ouch.Token) :
    (∃ w, e.lookup token = some (some w)) ↔ 0 < e.remaining token := by
  rcases held_or_absent e token with ⟨o, ho, rfl⟩ | hno
  · rw [remaining_held hb.wf ho, lookup_held hb.wf ho]
    refine iff_of_true ⟨_, rfl⟩ (Nat.pos_of_ne_zero fun hzero => ?_)
    exact hb.leaves o ho (UInt32.toNat_inj.mp hzero)
  · rw [remaining_absent hb.wf hno, lookup_absent hb.wf hno]
    refine iff_of_false ?_ (Nat.lt_irrefl 0)
    rintro ⟨w, hw⟩
    cases hw

/-- The order with the token is on the symbol and side it was sent for. -/
def Own (r : OrderRequest) (e : RiskEngine) : Prop :=
  ∀ o ∈ e.table.held, o.token = r.token → o.locate = r.locate ∧ o.isBuy = r.isBuy

/-- A loss is a difference, also where it retires the order. -/
theorem Lost.remaining (hb : Books e) (hb' : Books e') (ho : o ∈ e.table.held)
    (hl : Lost e o n traded e') : e'.remaining o.token = (o.leaves - n).toNat := by
  have hheld := hl.held
  rw [lostFrom] at hheld
  by_cases hlast : n = o.leaves
  · rw [if_pos hlast] at hheld
    rw [hlast, UInt32.sub_self, remaining_absent hb'.wf, UInt32.toNat_zero]
    intro x hx htoken
    rw [hheld] at hx
    obtain ⟨hne, hx⟩ := Finset.mem_erase.mp hx
    exact hne (hb.wf.held_inj hx ho htoken)
  · rw [if_neg hlast] at hheld
    have hleft : { o with leaves := o.leaves - n } ∈ e'.table.held :=
      hheld ▸ Finset.mem_insert_self _ _
    exact remaining_held hb'.wf hleft

/-- What a report with so many shares left moves the order's position by. -/
def shift (r : OrderRequest) (leaves : ℕ) (said : RiskReport) : ℤ :=
  if trades said = true then
    if r.isBuy then (min leaves (said.asks leaves) : ℕ) else -(min leaves (said.asks leaves) : ℕ)
  else 0

/-- What a report makes of the engine's account of the order. -/
structure Told (r : OrderRequest) (said : RiskReport) (e e' : RiskEngine) : Prop where
  books : Books e'
  own : Own r e'
  /-- The engine takes what is asked, as far as there is that much. -/
  remaining : e'.remaining r.token = e.remaining r.token - said.asks (e.remaining r.token)
  /-- And moves the position by what it took, modulo its wrap. -/
  position : (e'.symbols r.locate).position =
    Int64.ofInt (e.position r.locate + shift r (e.remaining r.token) said)

/-- **A report about the order** is answered, and does that much. -/
theorem onReport_told (hb : Books e) (hown : Own r e) (said : RiskReport) :
    ∃ e', e.onReport r.token said = some e' ∧ Told r said e e' := by
  rcases held_or_absent e r.token with ⟨o, ho, htoken⟩ | hno
  · obtain ⟨hlocate, hisBuy⟩ := hown o ho htoken
    obtain ⟨e', hreport, hl⟩ := onReport_known hb.wf ho said
    have hb' := hb.lost ho (takes_le _ _) hl
    have hleft := remaining_held hb.wf ho
    rw [htoken] at hreport hleft
    refine ⟨e', hreport, hb', ?_, ?_, ?_⟩
    · intro x hx hxt
      rw [hl.held] at hx
      obtain ⟨y, hy, hyt, hyl, hyb⟩ := mem_lostFrom ho hx
      rw [← hyl, ← hyb]
      exact hown y hy (hyt.trans hxt)
    · rw [← htoken, hl.remaining hb hb' ho, toNat_left, htoken, hleft]
    · rw [lost_symbols_position hl, hleft, moved, shift, toNat_takes, hisBuy]
      simp only [hlocate, and_true]
  · have hnone := remaining_absent hb.wf hno
    refine ⟨e.unknownToken, onReport_unknown hb.wf hno said, hb.same same_unknownToken, hown,
      ?_, ?_⟩
    · rw [hnone, Nat.zero_sub]
      exact hnone
    · rw [hnone, shift, Nat.zero_min, Nat.cast_zero, Int.neg_zero, ite_self, ite_self,
        Int.add_zero, position, Int64.ofInt_toInt]
      rfl

end RiskEngine

/-! ## The two accounts together -/

namespace Trackers

open RiskEngine Ouch.ClientOrderState

variable {before : RiskEngine} {r : OrderRequest} {w w' : Trackers}

/-- What the agreement rests on. -/
structure Tracked (r : OrderRequest) (w : Trackers) : Prop where
  books : Books w.engine
  /-- The engine has the order where it was sent. -/
  own : Own r w.engine
  /-- The client's shares are a split of what was sent, so its sums do not wrap. -/
  whole : w.client.filledShares.toNat + w.client.leavesShares.toNat < 2 ^ 32

/-- Over the same shares, the accounts agree on whether the order is open when the client's is in
a working state as long as any are left. -/
theorem agree_iff (hb : Books w.engine) : Agree before r w ↔
    w.engine.remaining r.token = w.client.leavesShares.toNat ∧
      (0 < w.client.leavesShares → w.client.working = true) ∧
      w.engine.position r.locate - before.position r.locate =
        if r.isBuy then (w.client.filledShares.toNat : ℤ) else -w.client.filledShares.toNat := by
  have hopen := hb.isOpen_iff r.token
  have hpos : 0 < w.client.leavesShares ↔ 0 < w.client.leavesShares.toNat := UInt32.lt_iff_toNat_lt
  constructor
  · intro ha
    refine ⟨ha.leaves, fun hleft => ?_, ha.position⟩
    exact (ha.isOpen.mp (hopen.mpr (ha.leaves ▸ hpos.mp hleft))).1
  · rintro ⟨hleaves, hworking, hposition⟩
    refine ⟨hopen.trans ?_, hleaves, hposition⟩
    rw [hleaves, ← hpos]
    exact ⟨fun hleft => ⟨hworking hleft, hleft⟩, fun h => h.2⟩

/-- A report that takes nothing from the position leaves the agreement on it. -/
theorem position_kept {said : OrderReport} {e' : RiskEngine} (ht : Told r said.toRisk w.engine e')
    (htrades : trades said.toRisk = false) : e'.position r.locate = w.engine.position r.locate := by
  rw [position, ht.position, shift, htrades, if_neg Bool.false_ne_true, Int.add_zero, position,
    Int64.ofInt_toInt]

/-- The clamped fill of the engine and the unclamped one of the client do the same exactly when
there is nothing to clamp and no wrap. -/
theorem executed_position {shares px : UInt32} {ts : UInt64} {e' : RiskEngine} (hw : Tracked r w)
    (ha : Agree before r w)
    (ht : Told r (OrderReport.toRisk (.executed shares px ts)) w.engine e') :
    e'.position r.locate - before.position r.locate =
        (if r.isBuy then ((w.client.filledShares + shares).toNat : ℤ)
          else -(w.client.filledShares + shares).toNat) ↔
      Careful r w (.executed shares px ts) := by
  have hposition := ha.position
  have hwhole := hw.whole
  have hlo := (w.engine.symbols r.locate).position.le_toInt
  have hhi := (w.engine.symbols r.locate).position.toInt_lt
  have hlo' := (e'.symbols r.locate).position.le_toInt
  have hhi' := (e'.symbols r.locate).position.toInt_lt
  have hshares := shares.toNat_lt
  have hfilled := UInt32.toNat_add w.client.filledShares shares
  -- the position may have gone round any number of times; `Careful` says it has not
  obtain ⟨turns, hturns⟩ := Lib.toInt_ofInt_turns
    (w.engine.position r.locate + shift r (w.engine.remaining r.token) (.fill shares px.toNat))
  have hmoved : e'.position r.locate = w.engine.position r.locate +
      shift r (w.engine.remaining r.token) (.fill shares px.toNat) + turns * 2 ^ 64 := by
    rw [position, ht.position]
    exact hturns
  change -2 ^ 63 ≤ e'.position r.locate at hlo'
  change e'.position r.locate < 2 ^ 63 at hhi'
  change -2 ^ 63 ≤ w.engine.position r.locate at hlo
  change w.engine.position r.locate < 2 ^ 63 at hhi
  rw [ha.leaves, shift, if_pos (show trades (.fill shares px.toNat) = true from rfl),
    RiskReport.asks] at hmoved
  rw [Careful, UInt32.le_iff_toNat_le]
  cases hbuy : r.isBuy with
  | true =>
    simp only [hbuy, if_true] at hmoved hposition ⊢
    omega
  | false =>
    simp only [hbuy, if_false, Bool.false_eq_true] at hmoved hposition ⊢
    omega

/-- **A report** is answered, and keeps the accounts in agreement exactly when it is careful. -/
theorem tell_agree (hw : Tracked r w) (ha : Agree before r w) (said : OrderReport) :
    ∃ w', w.tell r.token said = some w' ∧ (Agree before r w' ↔ Careful r w said) ∧
      (Careful r w said → Tracked r w') := by
  obtain ⟨e', hreport, ht⟩ := onReport_told hw.books hw.own said.toRisk
  obtain ⟨hleaves, hworking, hposition⟩ := (agree_iff hw.books).mp ha
  have hremaining := ht.remaining
  have hleft' := step_leavesShares w.client said.toClient
  have hfilled' := step_filledShares w.client said.toClient
  have hwhole := hw.whole
  rw [hleaves] at hremaining
  refine ⟨⟨e', w.client.step said.toClient⟩, by rw [tell, hreport]; rfl, ?_, ?_⟩
  · rw [agree_iff ht.books]
    cases said with
    | executed shares px ts =>
      refine (and_iff_right (hremaining.trans hleft'.symm)).trans
        ((and_iff_right ?_).trans ?_)
      · intro hleft
        have hne : (w.client.step (.fill shares px ts)).leavesShares ≠ 0 :=
          fun hzero => UInt32.lt_irrefl 0 (hzero ▸ hleft)
        exact congrArg Ouch.OrderState.working (if_neg hne)
      · rw [hfilled']
        exact executed_position hw ha ht
    | canceled decrement ts =>
      have hworking' : 0 < (w.client.step (.canceled decrement ts)).leavesShares →
          (w.client.step (.canceled decrement ts)).working = true := by
        intro hleft
        have hpos := UInt32.lt_iff_toNat_lt.mp hleft
        have hne : (w.client.step (.canceled decrement ts)).leavesShares ≠ 0 :=
          fun hzero => UInt32.lt_irrefl 0 (hzero ▸ hleft)
        have hbefore : 0 < w.client.leavesShares := by
          rw [UInt32.lt_iff_toNat_lt]
          simp only [OrderReport.toClient] at hleft'
          omega
        refine (congrArg Ouch.OrderState.working ?_).trans (hworking hbefore)
        rw [canceled_state, if_neg hne]
      have hposition' := (position_kept ht rfl).symm ▸ hposition
      refine (and_iff_left ⟨hworking', hfilled' ▸ hposition'⟩).trans ?_
      rw [hremaining, hleft', Careful, OrderReport.toRisk, RiskReport.asks]
      have hnone : w.client.leavesShares = 0 ↔ w.client.leavesShares.toNat = 0 :=
        UInt32.toNat_inj.symm
      simp only [OrderReport.toClient]
      -- a cancel of nothing takes everything from one account and nothing from the other
      by_cases hzero : decrement = 0
      case pos =>
        rw [if_pos hzero, or_iff_right (not_not_intro hzero), hnone, hzero, UInt32.toNat_zero]
        omega
      case neg => exact iff_of_true (by rw [if_neg hzero]) (.inl hzero)
    | rejected ts =>
      have hposition' := (position_kept ht rfl).symm ▸ hposition
      refine iff_of_true ⟨?_, fun hleft => ?_, hfilled' ▸ hposition'⟩ trivial
      · rw [hremaining, hleft']
        exact Nat.sub_self _
      · exact absurd hleft (UInt32.lt_irrefl 0)
  · intro hcareful
    refine ⟨ht.books, ht.own, ?_⟩
    have hshares := UInt32.toNat_add w.client.filledShares
    cases said with
    | executed shares px ts =>
      have hle := UInt32.le_iff_toNat_le.mp hcareful.1
      rw [hfilled', hleft']
      simp only [OrderReport.toClient, hshares]
      omega
    | canceled decrement ts =>
      rw [hfilled', hleft']
      simp only [OrderReport.toClient]
      omega
    | rejected ts =>
      rw [hfilled', hleft']
      simp only [OrderReport.toClient]
      omega

/-- The accounts of an order that has just been sent and accepted. -/
theorem begun_tracked {e : RiskEngine} (hb : Books e) (hp : Passes e r)
    (o : Ouch.ClientOrderState) (sd : UInt8) (px : UInt32) (ref sentNs acceptedNs : UInt64) :
    Tracked r (begun e o r sd px ref sentNs acceptedNs) ∧
      Agree e r (begun e o r sd px ref sentNs acceptedNs) := by
  have hno := hp.absent hb.wf
  have hroom := UInt32.lt_iff_toNat_lt.mp hp.room
  have hcount := hb.count
  have hsize := hb.size
  obtain ⟨-, hpl⟩ := onOrderSent_placed hb.wf hno (by omega)
  have hb' := hb.placed hpl hp.size.1 hno hp.room
  have hnew : (⟨r.token, r.shares, r.locate, r.isBuy, true⟩ : OpenOrder) ∈
      (e.onOrderSent r).table.held := hpl.held ▸ Finset.mem_insert_self _ _
  have hpos : 0 < r.shares := UInt32.pos_iff_ne_zero.mpr hp.size.1
  have hleaves : (begun e o r sd px ref sentNs acceptedNs).client.leavesShares = r.shares := by
    refine (if_pos hpos).trans ?_
    exact UInt32.sub_zero r.shares
  refine ⟨⟨hb', ?_, ?_⟩, (agree_iff hb').mpr ⟨?_, fun _ => rfl, ?_⟩⟩
  · intro x hx htoken
    obtain rfl := hb'.wf.held_inj hx hnew htoken
    exact ⟨rfl, rfl⟩
  · rw [hleaves]
    exact (Nat.zero_add _).symm ▸ r.shares.toNat_lt
  · rw [hleaves]
    exact remaining_held hb'.wf hnew
  · have hposition : (e.onOrderSent r).position r.locate = e.position r.locate := by
      rw [position, hpl.symbols, Function.update_self, SymbolRisk.place_position, position]
    refine (Int.sub_eq_zero.mpr hposition).trans ?_
    show (0 : ℤ) = if r.isBuy then 0 else -0
    split <;> rfl

/-- **The two trackers.** After any run of the engine, an order that passes is sent and accepted.
Any reports about it are answered, and the accounts agree after each of them exactly when each is
careful. -/
theorem trackers_agree_iff (start : RiskEngine) (hstart : Idle start) (events : List RiskEvent) :
    ∃ e h, run trade (start, {}) events = some (e, h) ∧
      ∀ r, e.check r = some .none → ∀ (o : Ouch.ClientOrderState) (sd : UInt8) (px : UInt32)
        (ref sentNs acceptedNs : UInt64) (reports : List OrderReport),
        (run (tell r.token) (begun e o r sd px ref sentNs acceptedNs) reports).isSome = true ∧
          (Throughout (tell r.token) (Agree e r) (begun e o r sd px ref sentNs acceptedNs) reports ↔
            Along (tell r.token) (Careful r) (begun e o r sd px ref sentNs acceptedNs)
              reports) := by
  obtain ⟨e, h, hrun, hb, -⟩ := run_kept (P := fun _ _ => True)
    (fun _ _ _ _ _ _ _ _ => trivial) events hstart.books trivial
  refine ⟨e, h, hrun, fun r hcheck o sd px ref sentNs acceptedNs reports => ?_⟩
  obtain ⟨htracked, hagree⟩ := begun_tracked hb (passes_of_check hcheck) o sd px ref sentNs
    acceptedNs
  constructor
  · have hanswers : ∀ (w : Trackers) (said : OrderReport), Books w.engine ∧ Own r w.engine →
        ∃ w', tell r.token w said = some w' ∧ Books w'.engine ∧ Own r w'.engine := by
      intro w said hw
      obtain ⟨e', hreport, ht⟩ := onReport_told hw.1 hw.2 said.toRisk
      exact ⟨⟨e', w.client.step said.toClient⟩, by rw [tell, hreport]; rfl, ht.books, ht.own⟩
    obtain ⟨w, hw, -⟩ := run_total hanswers reports _ ⟨htracked.books, htracked.own⟩
    rw [hw]
    rfl
  · exact throughout_iff_along_of_answers (fun w said hw ha => tell_agree hw ha said) reports _
      htracked hagree

/-- Ten shares, wanted at a price of one. -/
def tenShares : OrderRequest := { oneShare 65 199999999 with shares := 10 }

/-- Four of them filled and three cancelled leaves three in both accounts. -/
theorem trackers_agree_iff_partFilled :
    Throughout (tell tenShares.token) (Agree (opened onePerSecond) tenShares)
      (begun (opened onePerSecond) {} tenShares 66 1 7 0 1)
      [.executed 4 1 2, .canceled 3 3] := by
  obtain ⟨e, h, hrun, hagree⟩ := trackers_agree_iff (opened onePerSecond) (idle_opened _) []
  obtain ⟨rfl, rfl⟩ := Prod.mk.inj (Option.some.inj hrun)
  refine (hagree tenShares (by decide +kernel) {} 66 1 7 0 1 _).2.mpr ⟨by decide +kernel, ?_⟩
  intro w _
  exact ⟨.inl (by decide), fun _ _ => trivial⟩

/-- A cancel of nothing ends the order in one account and leaves it whole in the other. -/
theorem trackers_disagree_canceledZero :
    ¬∀ (start : RiskEngine), Idle start → ∀ (events : List RiskEvent) (e : RiskEngine)
      (h : History), run trade (start, {}) events = some (e, h) → ∀ (r : OrderRequest),
      e.check r = some .none → ∀ (o : Ouch.ClientOrderState) (sd : UInt8) (px : UInt32)
      (ref sentNs acceptedNs : UInt64) (reports : List OrderReport),
      Throughout (tell r.token) (Agree e r) (begun e o r sd px ref sentNs acceptedNs) reports := by
  intro hall
  have hthrough := hall (opened onePerSecond) (idle_opened _) [] _ _ rfl tenShares
    (by decide +kernel) {} 66 1 7 0 1 [.canceled 0 2]
  obtain ⟨w, hw, hleft⟩ : ∃ w, tell tenShares.token
      (begun (opened onePerSecond) {} tenShares 66 1 7 0 1) (.canceled 0 2) = some w ∧
        (w.engine.remaining tenShares.token, w.client.leavesShares) = (0, 10) :=
    Option.map_eq_some_iff.mp (by decide +kernel)
  have hagree := (hthrough.2 w hw).head.leaves
  obtain ⟨hengine, hclient⟩ := Prod.mk.inj hleft
  rw [hengine, hclient] at hagree
  exact absurd hagree (by decide)

end Trackers
end Tickerplant
