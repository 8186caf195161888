import Mathlib.Data.List.Chain
import Tickerplant.Lib.Trace
import Tickerplant.Strategy.Quoter

/-!
# How often the quoter sends (`include/tick/strategy.hpp`)

A quote is not to be sent more often than the configured interval. The gate that sees to it is
behind the flag that a quote stands: while one does, the next is an interval away
(`spaced_of_quoting`). Every pull clears the flag, and the quote after a pull is sent at once. So
the quotes of a run are an interval apart exactly when every quote sent while none stands happens
to be (`requotes_spaced_iff`).

The condition is on the calls and on the state before each (`ReturnsLate`): a call that finds no
quote standing and a market it can quote will send, so it has to come an interval after the last
quote. It asks nothing of the first quote there is, nor of a call that cannot quote.

The induction runs over the calls to come, with the time of the last quote put in front of the
times that are yet to be (`lastTime`). That times are an interval apart two by two is then a matter
of each call and the one before it that sent, since being an interval later is transitive.
-/

set_option autoImplicit false

namespace Tickerplant
namespace MicroPriceQuoter

/-- A call of `on_top_of_book`, as a step of the quoter. -/
def update (q : MicroPriceQuoter) (u : Update) : MicroPriceQuoter :=
  (q.onTopOfBook u.top u.position u.nowNs u.halted).quoter

/-- The times of the quotes sent in a run from `q`. -/
def requoteTimes (q : MicroPriceQuoter) (us : List Update) : List UInt64 :=
  ((q.answers us).filter fun p => p.2.decision = .requote).map fun p => p.1.nowNs

/-- The later time is an interval after the earlier one. -/
def Spaced (interval earlier later : UInt64) : Prop :=
  earlier.toNat + interval.toNat ≤ later.toNat

instance (interval earlier later : UInt64) : Decidable (Spaced interval earlier later) :=
  inferInstanceAs (Decidable (_ ≤ _))

/-- An interval after what is an interval after. -/
theorem Spaced.trans {interval a b c : UInt64} (hab : Spaced interval a b)
    (hbc : Spaced interval b c) : Spaced interval a c := by
  unfold Spaced at *
  omega

instance (interval : UInt64) : IsTrans UInt64 (Spaced interval) where
  trans _ _ _ := Spaced.trans

/-- A call that finds no quote standing, after quotes that have been, and can quote, comes an
interval after the last. -/
def ReturnsLate (q : MicroPriceQuoter) (u : Update) : Prop :=
  q.quoting = false → 0 < q.stats.requotes → Quotable q.cfg u.top u.position u.halted →
    Spaced q.cfg.minRequoteIntervalNs q.lastQuoteNs u.nowNs

instance (q : MicroPriceQuoter) (u : Update) : Decidable (q.ReturnsLate u) :=
  inferInstanceAs (Decidable (_ → _))

section Gate

variable {q : MicroPriceQuoter}

/-- With no quote standing, any is worth sending. -/
theorem worthRequoting_of_not_quoting (h : q.quoting = false) (quote : Quote) (nowNs : UInt64) :
    (q.worthRequoting quote nowNs).1 = true := by
  unfold worthRequoting
  rw [if_pos h]

/-- **The gate**: what is sent while a quote stands is sent an interval after it. -/
theorem spaced_of_quoting (h : q.quoting = true) {quote : Quote} {nowNs : UInt64}
    (hle : q.lastQuoteNs ≤ nowNs) (hworth : (q.worthRequoting quote nowNs).1 = true) :
    Spaced q.cfg.minRequoteIntervalNs q.lastQuoteNs nowNs := by
  unfold worthRequoting at hworth
  rw [if_neg (by rw [h]; decide)] at hworth
  split at hworth
  · exact absurd hworth Bool.false_ne_true
  · rename_i hgate
    have hsub := UInt64.toNat_sub_of_le _ _ hle
    rw [UInt64.le_iff_toNat_le] at hle
    rw [UInt64.lt_iff_toNat_lt, hsub] at hgate
    unfold Spaced
    omega

end Gate

/-! ## A run

A call sends one quote or none, so the times of a run are those of its calls that send. -/

/-- The time of the last quote, if there has been one. -/
def lastTime (q : MicroPriceQuoter) : List UInt64 :=
  if q.stats.requotes = 0 then [] else [q.lastQuoteNs]

/-- A call's time, if it sends, and the times after it. -/
theorem requoteTimes_cons (q : MicroPriceQuoter) (u : Update) (us : List Update) :
    q.requoteTimes (u :: us) =
      (if (q.onTopOfBook u.top u.position u.nowNs u.halted).decision = .requote
        then [u.nowNs] else []) ++ (q.update u).requoteTimes us := by
  unfold requoteTimes update
  rw [answers]
  simp only [List.filter_cons, decide_eq_true_eq]
  split <;> rfl

/-- What holds between the calls of a run: a quote stands only if one was sent, and the calls to
come are not before the last one sent. -/
structure Resumes (q : MicroPriceQuoter) (us : List Update) : Prop where
  /-- The flag is set by sending. -/
  stands : q.quoting = true → 0 < q.stats.requotes
  /-- Time goes on, so the difference the gate takes does not wrap. -/
  last : 0 < q.stats.requotes → ∀ u ∈ us, q.lastQuoteNs ≤ u.nowNs

section Step

variable {q : MicroPriceQuoter} {u : Update} {us : List Update}

/-- A call that sends nothing leaves the last time. -/
theorem Holds.lastTime (h : Holds q (q.onTopOfBook u.top u.position u.nowNs u.halted)) :
    (q.update u).lastTime = q.lastTime := by
  unfold MicroPriceQuoter.lastTime update
  rw [h.requotes, h.lastQuoteNs]

/-- A call that sends nothing hands on what holds. -/
theorem Holds.resumes (h : Holds q (q.onTopOfBook u.top u.position u.nowNs u.halted))
    (hq : Resumes q (u :: us)) (hquoting : (q.update u).quoting = true → q.quoting = true) :
    Resumes (q.update u) us where
  stands hnow := by
    show 0 < (q.onTopOfBook u.top u.position u.nowNs u.halted).quoter.stats.requotes
    rw [h.requotes]
    exact hq.stands (hquoting hnow)
  last hpos v hv := by
    have hpos : 0 < (q.onTopOfBook u.top u.position u.nowNs u.halted).quoter.stats.requotes := hpos
    show (q.onTopOfBook u.top u.position u.nowNs u.halted).quoter.lastQuoteNs ≤ _
    rw [h.requotes] at hpos
    rw [h.lastQuoteNs]
    exact hq.last hpos v (List.mem_cons_of_mem u hv)

/-- A call that sends is the last from then on. -/
theorem Sends.lastTime {quote : Quote}
    (h : Sends q quote u.nowNs (q.onTopOfBook u.top u.position u.nowNs u.halted)) :
    (q.update u).lastTime = [u.nowNs] := by
  unfold MicroPriceQuoter.lastTime update
  rw [h.requotes, h.lastQuoteNs, if_neg (Nat.succ_ne_zero _)]

/-- And the calls after it are not before it. -/
theorem Sends.resumes {quote : Quote}
    (h : Sends q quote u.nowNs (q.onTopOfBook u.top u.position u.nowNs u.halted))
    (hlater : ∀ v ∈ us, u.nowNs ≤ v.nowNs) : Resumes (q.update u) us where
  stands _ := by
    show 0 < (q.onTopOfBook u.top u.position u.nowNs u.halted).quoter.stats.requotes
    rw [h.requotes]
    exact Nat.succ_pos _
  last _ v hv := by
    show (q.onTopOfBook u.top u.position u.nowNs u.halted).quoter.lastQuoteNs ≤ _
    rw [h.lastQuoteNs]
    exact hlater v hv

/-- A call that sends meets the condition exactly when it comes an interval after the last: while a
quote stands the gate sees to that. -/
theorem returnsLate_iff {quote : Quote} (hq : Resumes q (u :: us))
    (hcan : Quotable q.cfg u.top u.position u.halted)
    (hworth : (q.worthRequoting quote u.nowNs).1 = true) :
    q.ReturnsLate u ↔ ∀ t ∈ q.lastTime, Spaced q.cfg.minRequoteIntervalNs t u.nowNs := by
  unfold lastTime
  -- before the first quote there is nothing to be an interval after
  by_cases hzero : q.stats.requotes = 0
  · rw [if_pos hzero]
    refine iff_of_true (fun _ hpos _ => absurd hzero (Nat.pos_iff_ne_zero.mp hpos)) ?_
    exact fun t ht => absurd ht List.not_mem_nil
  · rw [if_neg hzero]
    have hpos := Nat.pos_of_ne_zero hzero
    constructor
    · intro h t ht
      rw [List.mem_singleton.mp ht]
      cases hquoting : q.quoting with
      | true => exact spaced_of_quoting hquoting (hq.last hpos u List.mem_cons_self) hworth
      | false => exact h hquoting hpos hcan
    · exact fun h _ _ _ => h _ (List.mem_singleton.mpr rfl)

/-- The times before a call, the call's and those after it. -/
theorem pairwise_lastTime {interval : UInt64} {times : List UInt64} :
    (q.lastTime ++ u.nowNs :: times).Pairwise (Spaced interval) ↔
      (∀ t ∈ q.lastTime, Spaced interval t u.nowNs) ∧
        (u.nowNs :: times).Pairwise (Spaced interval) := by
  unfold lastTime
  split
  · simp
  · rw [List.singleton_append, ← List.isChain_iff_pairwise, List.isChain_cons_cons,
      List.isChain_iff_pairwise]
    simp

end Step

/-- From between two calls: the quotes of a run are an interval apart, and after the last one
before it, exactly when those sent while none stands are. -/
theorem spaced_from (us : List Update) : ∀ q : MicroPriceQuoter, Resumes q us →
    us.Pairwise (fun u v => u.nowNs ≤ v.nowNs) →
    ((q.lastTime ++ q.requoteTimes us).Pairwise (Spaced q.cfg.minRequoteIntervalNs) ↔
      Trace.Along update ReturnsLate q us) := by
  -- an induction on the calls, by what each of them does
  induction us with
  | nil =>
    intro q _ _
    refine iff_of_true ?_ trivial
    unfold lastTime
    split
    · exact List.Pairwise.nil
    · exact List.pairwise_singleton _ _
  | cons u us ih =>
    intro q hq hmono
    obtain ⟨hfirst, hrest⟩ := List.pairwise_cons.mp hmono
    have hcfg : (q.update u).cfg = q.cfg := onTopOfBook_cfg ..
    have ihu := ih (q.update u)
    rw [hcfg] at ihu
    show _ ↔ q.ReturnsLate u ∧ Trace.Along update ReturnsLate (q.update u) us
    rw [requoteTimes_cons]
    rcases q.onTopOfBook_cases u.top u.position u.nowNs u.halted with
      ⟨hno, hpulled, hholds⟩ | ⟨hcan, hworth, hkept, hholds⟩ | ⟨hcan, hworth, hsends⟩
    -- a call that sends nothing meets the condition
    · have hnext := ihu (hholds.resumes hq fun h => absurd (hpulled.symm.trans h) (by decide)) hrest
      rw [hholds.lastTime] at hnext
      rw [if_neg hholds.decision, List.nil_append, hnext]
      exact ⟨fun h => ⟨fun _ _ hcan => absurd hcan hno, h⟩, fun h => h.2⟩
    · have hnext := ihu (hholds.resumes hq fun h => hkept.symm.trans h) hrest
      rw [hholds.lastTime] at hnext
      rw [if_neg hholds.decision, List.nil_append, hnext]
      refine ⟨fun h => ⟨fun hnone => ?_, h⟩, fun h => h.2⟩
      exact absurd ((worthRequoting_of_not_quoting hnone _ _).symm.trans hworth) (by decide)
    · have hnext := ihu (hsends.resumes hfirst) hrest
      rw [hsends.lastTime, List.singleton_append] at hnext
      rw [if_pos hsends.decision, List.singleton_append, pairwise_lastTime,
        returnsLate_iff hq hcan hworth, hnext]

/-- **Quotes are an interval apart exactly when those after a pull are**: in any run of calls in
the order of their times, whatever the tops, the positions and the halts. -/
theorem requotes_spaced_iff (c : QuoteConfig) (us : List Update)
    (hmono : us.Pairwise fun u v => u.nowNs ≤ v.nowNs) :
    (({ cfg := c } : MicroPriceQuoter).requoteTimes us).Pairwise (Spaced c.minRequoteIntervalNs) ↔
      Trace.Along update ReturnsLate { cfg := c } us :=
  spaced_from us { cfg := c }
    ⟨fun h => absurd h Bool.false_ne_true, fun h => absurd h (Nat.lt_irrefl 0)⟩ hmono

/-- A market worth quoting at a time, or one that is halted. -/
def market (nowNs : UInt64) (halted : Bool) : Update where
  top := { bidPrice := 1000000, bidQty := 200, askPrice := 1000300, askQty := 100 }
  position := 0
  nowNs := nowNs
  halted := halted

/-- A halt that lasts longer than the interval. -/
theorem requotes_spaced_iff_longHalt :
    (({ cfg := {} } : MicroPriceQuoter).requoteTimes
        [market 0 false, market 5 true, market 2000000 false]).Pairwise (Spaced 1000000) :=
  (requotes_spaced_iff {} [market 0 false, market 5 true, market 2000000 false]
    (by decide)).mpr (by decide)

/-- **A halt that lifts at once**: the quote after it is sent two nanoseconds after the one before
it. -/
theorem not_requotes_spaced_shortHalt :
    ({ cfg := {} } : MicroPriceQuoter).requoteTimes
        [market 0 false, market 1 true, market 2 false] = [0, 2] ∧
      ¬ (({ cfg := {} } : MicroPriceQuoter).requoteTimes
        [market 0 false, market 1 true, market 2 false]).Pairwise (Spaced 1000000) := by
  constructor <;> decide

end MicroPriceQuoter
end Tickerplant
