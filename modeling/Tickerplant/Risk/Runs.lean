import Tickerplant.Risk.Bookkeeping

/-!
# Runs of the risk engine

Beside the engine stands a history: the orders that went out, and the open orders as the events
tell them, a map from tokens that knows nothing of slots. Every run of an engine that starts with
nothing working is answered, and keeps the books and whatever else every step keeps (`run_kept`).

The history is what the results are about that the engine does not remember: the price of an order,
the time it was sent, and what is left of it in exact numbers. It is recorded from the events and
from whether an order went out, so it is what an observer of the calls could have written down.

`run_kept` is the one induction of this directory. A result about runs is an invariant and its step
lemma, and is handed to it.
-/

set_option autoImplicit false

namespace Tickerplant

open Interleave

/-! ## The open orders, abstractly -/

/-- An open order, as the events tell it. -/
structure Working where
  locate : UInt16
  isBuy : Bool
  leaves : ℕ
  deriving DecidableEq

/-- An entry of the table, as such. -/
def OpenOrder.working (o : OpenOrder) : Working := ⟨o.locate, o.isBuy, o.leaves.toNat⟩

/-- What a report asks of an order. -/
def RiskReport.asks (leaves : ℕ) : RiskReport → ℕ
  | .fill shares _ => shares.toNat
  | .cancelAcked decrement => if decrement = 0 then leaves else decrement.toNat
  | .reject => leaves

/-- What is left of an order, if anything. -/
def Working.after (w : Working) (said : RiskReport) : Option Working :=
  if w.leaves - said.asks w.leaves = 0 then none
  else some { w with leaves := w.leaves - said.asks w.leaves }

/-- The orders that went out, the latest first, and those of them that work. -/
structure History where
  sent : List OrderRequest := []
  working : Ouch.Token → Option Working := fun _ => none

namespace History

/-- What an event does to the history: an order that went out joins it, and a report takes from the
order it is about. -/
def record (h : History) (ev : RiskEvent) (t : RiskEngine × Bool) : History :=
  match ev with
  | .order r =>
    if t.2 then
      { sent := r :: h.sent
        working := Function.update h.working r.token (some ⟨r.locate, r.isBuy, r.shares.toNat⟩) }
    else h
  | .report token said =>
    { h with working :=
        Function.update h.working token ((h.working token).bind fun w => w.after said) }

/-- The price an order was sent at. -/
def priceOf (h : History) (token : Ouch.Token) : Price :=
  match h.sent.find? fun r => decide (r.token = token) with
  | some r => r.price
  | none => 0

/-- The times of the orders that went out, the latest first. -/
def times (h : History) : List UInt64 := h.sent.map (·.nowNs)

end History

namespace RiskEngine

/-- The engine and its history. -/
def trade : RiskEngine × History → RiskEvent → Option (RiskEngine × History) :=
  observed exec History.record

/-- An engine with nothing working. -/
structure Idle (e : RiskEngine) : Prop where
  /-- The table finds what it holds. -/
  wf : e.table.Wf
  /-- It has the size the constructor gives it. -/
  size : e.limits.maxOpenOrders.toNat * 4 ≤ e.table.cap ∧ 64 ≤ e.table.cap
  /-- It holds nothing. -/
  held : e.table.held = ∅
  openOrders : e.openOrders = 0
  /-- No side works for anything; the positions are as they may be. -/
  shares : ∀ loc b, (e.symbols loc).workingShares b = 0
  orders : ∀ loc b, (e.symbols loc).workingOrders b = 0
  drift : e.stats.workingShareDrift = 0
  failed : e.stats.tableInsertFailed = 0

/-- An engine that has just been made. -/
theorem idle_make (limits : RiskLimits) : Idle (make limits) where
  wf := OpenOrderTable.wf_make _
  size := OpenOrderTable.le_sizeFor _
  held := OpenOrderTable.held_make _
  openOrders := rfl
  shares _ b := by cases b <;> rfl
  orders _ b := by cases b <;> rfl
  drift := rfl
  failed := rfl

/-- With its symbols switched on. -/
theorem idle_opened (limits : RiskLimits) : Idle (opened limits) :=
  { idle_make limits with
    shares := fun _ b => by cases b <;> rfl
    orders := fun _ b => by cases b <;> rfl }

/-- One message a second, and small orders otherwise. -/
def onePerSecond : RiskLimits :=
  { maxOrderShares := 100, maxOrderNotional := 1000, maxPositionShares := 100,
    maxSymbolNotional := 1000, maxOpenOrders := 10, maxMessagesPerSecond := 1 }

/-- One share at a price of one, wanted at a time. -/
def oneShare (name : UInt8) (now : UInt64) : OrderRequest :=
  { token := Lib.alpha Ouch.kTokenLen [name], shares := 1, price := 1, nowNs := now,
    bookTsNs := now, book := { bidPrice := 1, bidQty := 1, askPrice := 1, askQty := 1 } }

variable {e e' : RiskEngine} {h : History}

/-- The books are kept from the start. -/
theorem Idle.books (hi : Idle e) : Books e where
  wf := hi.wf
  size := hi.size
  count := by rw [hi.openOrders, hi.held]; rfl
  ceiling := by rw [hi.openOrders]; exact UInt32.zero_le
  leaves o ho := by rw [hi.held] at ho; exact absurd ho (Finset.notMem_empty o)
  shares loc b := by rw [hi.shares, hi.held]; rfl
  orders loc b := by rw [hi.orders, hi.held]; rfl
  drift := hi.drift
  failed := hi.failed

/-- **Every run is answered**, keeps the books, and keeps what every step keeps. -/
theorem run_kept {P : RiskEngine → History → Prop}
    (hstep : ∀ e h ev e' sent, Books e → P e h → Step e ev e' sent →
      P e' (h.record ev (e', sent)))
    (events : List RiskEvent) (hb : Books e) (hp : P e h) :
    ∃ e' h', run trade (e, h) events = some (e', h') ∧ Books e' ∧ P e' h' := by
  have hall : ∀ (w : RiskEngine × History) (ev : RiskEvent), Books w.1 ∧ P w.1 w.2 →
      ∃ w', trade w ev = some w' ∧ Books w'.1 ∧ P w'.1 w'.2 := by
    intro w ev hw
    obtain ⟨e', sent, hexec, hdo⟩ := exec_step hw.1 ev
    refine ⟨(e', w.2.record ev (e', sent)), ?_, hw.1.step hdo, hstep _ _ _ _ _ hw.1 hw.2 hdo⟩
    rw [trade, observed, hexec]
    rfl
  obtain ⟨⟨e', h'⟩, hrun, hend⟩ := run_total hall events (e, h) ⟨hb, hp⟩
  exact ⟨e', h', hrun, hend⟩

end RiskEngine
end Tickerplant
