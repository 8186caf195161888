import Mathlib.Data.List.Chain
import Tickerplant.Synthetic.Script

/-!
# The clock of a session, and the six bytes of it

The clock goes on by less than two microseconds an act, or up to a time of day, so that it never
goes back (`tick_spec`). A message carries six of its eight bytes. What is read off the messages
ascends exactly as long as the clock is below 2^48 (`ascending_iff`): the message on which it gets
there reads as one of the first two microseconds of the day.

That is why the condition is on the clock and not on the messages. A clock that has once come past
2^48 reads as a time before the message ahead of it, whatever it does afterwards, and one that has
not reads as itself. The other way to break the order, a clock of eight bytes that comes round,
would need the six to come round first.

`ticks_le` is the other direction in numbers: every act takes its tick of what room there is, so a
run that draws large ticks and is long enough has a clock that does not stay below.
-/

set_option autoImplicit false

namespace Tickerplant
namespace Synthetic

open Itch SyntheticFeed

/-- What a message keeps of a timestamp. -/
def sixBytes (t : UInt64) : UInt64 := t % 0x1000000000000

/-- As a number. -/
theorem toNat_sixBytes (t : UInt64) : (sixBytes t).toNat = t.toNat % 2 ^ 48 := UInt64.toNat_mod _ _

/-- The tick of an act. -/
def Ticks (f : SyntheticFeed) (a : Act) : Prop :=
  a.floor ≤ kMarketCloseNs ∧ (f.perform a).rng = f.rng ∧
    ∃ k, (f.perform a).ts = (f.atLeast a.floor).ts + f.rng k % 2000

/-- The clock after each act. -/
def clocks : SyntheticFeed → List Act → List UInt64
  | _, [] => []
  | f, a :: acts => (f.perform a).ts :: clocks (f.perform a) acts

variable {f : SyntheticFeed} {a : Act}

/-- The times of day are below 2^48, so bringing the clock up keeps it there. -/
theorem atLeast_spec {t : UInt64} (h : t ≤ kMarketCloseNs) (hlt : f.ts.toNat < 2 ^ 48) :
    f.ts.toNat ≤ (f.atLeast t).ts.toNat ∧ t.toNat ≤ (f.atLeast t).ts.toNat ∧
      (f.atLeast t).ts.toNat < 2 ^ 48 := by
  have hclose : kMarketCloseNs.toNat < 2 ^ 48 := by decide
  rw [UInt64.le_iff_toNat_le] at h
  unfold atLeast
  split
  · rename_i hbehind
    rw [UInt64.lt_iff_toNat_lt] at hbehind
    exact ⟨hbehind.le, Nat.le_refl _, Nat.lt_of_le_of_lt h hclose⟩
  · rename_i hahead
    rw [UInt64.not_lt, UInt64.le_iff_toNat_le] at hahead
    exact ⟨Nat.le_refl _, hahead, hlt⟩

/-- The clock goes on, and not far. -/
theorem tick_spec (h : Ticks f a) (hlt : f.ts.toNat < 2 ^ 48) :
    f.ts.toNat ≤ (f.perform a).ts.toNat ∧ a.floor.toNat ≤ (f.perform a).ts.toNat ∧
      (f.perform a).ts.toNat < 2 ^ 48 + 2000 := by
  obtain ⟨hfloor, -, k, hk⟩ := h
  obtain ⟨hfrom, hover, hbelow⟩ := atLeast_spec hfloor hlt
  have hdraw : (f.rng k % 2000).toNat < 2000 := by
    rw [UInt64.toNat_mod]
    exact Nat.mod_lt _ (by decide)
  -- a clock below 2^48 has room for a tick in its eight bytes
  have hsum : (f.perform a).ts.toNat = (f.atLeast a.floor).ts.toNat + (f.rng k % 2000).toNat := by
    rw [hk, UInt64.toNat_add]
    exact Nat.mod_eq_of_lt (by omega)
  omega

/-- **The timestamps of a run ascend** exactly if its clock stays below 2^48. -/
theorem ascending_iff (acts : List Act) : ∀ {f : SyntheticFeed}, 2000 ≤ f.ts.toNat →
    f.ts.toNat < 2 ^ 48 → Trace.Along perform Ticks f acts →
    (((f.ts :: clocks f acts).map sixBytes).IsChain (· ≤ ·) ↔
      Trace.Always perform (fun f => f.ts.toNat < 2 ^ 48) f acts) := by
  -- an induction on the acts, with the clock one tick past midnight at least and below 2^48 so
  -- far: the first is what makes a wrapped timestamp smaller than the one before it
  induction acts with
  | nil => exact fun _ hlt _ => iff_of_true (List.isChain_singleton _) hlt
  | cons a acts ih =>
    intro f hfrom hlt hticks
    obtain ⟨hon, -, hbelow⟩ := tick_spec hticks.1 hlt
    have hsix : (sixBytes f.ts).toNat = f.ts.toNat :=
      (toNat_sixBytes _).trans (Nat.mod_eq_of_lt hlt)
    show (sixBytes f.ts :: (((f.perform a).ts :: clocks (f.perform a) acts).map sixBytes)).IsChain
      (· ≤ ·) ↔ _ ∧ _
    rw [List.map_cons, List.isChain_cons_cons, UInt64.le_iff_toNat_le, hsix, toNat_sixBytes,
      ← List.map_cons]
    by_cases hfits : (f.perform a).ts.toNat < 2 ^ 48
    · rw [Nat.mod_eq_of_lt hfits, ih (hfrom.trans hon) hfits hticks.2]
      exact and_congr (iff_of_true hon hlt) Iff.rfl
    · -- what is left of the clock is less than one tick
      have hwrapped : (f.perform a).ts.toNat % 2 ^ 48 < f.ts.toNat := by omega
      refine iff_of_false (fun h => absurd h.1 (Nat.not_le.mpr hwrapped)) ?_
      exact fun h => hfits h.2.head

/-- A clock that stays below 2^48 has room for every tick of the run. -/
theorem ticks_le (least : ℕ) (acts : List Act) : ∀ {f : SyntheticFeed},
    (∀ k, least ≤ (f.rng k % 2000).toNat) → Trace.Along perform Ticks f acts →
    Trace.Always perform (fun f => f.ts.toNat < 2 ^ 48) f acts →
    f.ts.toNat + least * acts.length < 2 ^ 48 := by
  induction acts with
  | nil => exact fun _ _ hlt => hlt
  | cons a acts ih =>
    intro f hleast hticks hlt
    obtain ⟨⟨hfloor, hrng, k, hk⟩, hrest⟩ := hticks
    have hmore := ih (hrng ▸ hleast) hrest hlt.2
    obtain ⟨hfrom, -, hbelow⟩ := atLeast_spec hfloor hlt.1
    have hdraw := hleast k
    have hshort : (f.rng k % 2000).toNat < 2000 := by
      rw [UInt64.toNat_mod]
      exact Nat.mod_lt _ (by decide)
    have hsum : (f.perform a).ts.toNat =
        (f.atLeast a.floor).ts.toNat + (f.rng k % 2000).toNat := by
      rw [hk, UInt64.toNat_add]
      exact Nat.mod_eq_of_lt (by omega)
    rw [List.length_cons, Nat.mul_succ]
    omega

end Synthetic
end Tickerplant
