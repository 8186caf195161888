import Tickerplant.Lib.Trace
import Tickerplant.Synthetic.Told

/-!
# A session as a script

A session is a run over a list of acts that its configuration alone decides (`script`,
`generate_eq`): the opening, as many actions as there are messages left for, and the closing. Each
act writes one message (`perform_told`).

The generator is written as loops over the symbols and over the activity. As a list of acts it is a
run like any other, to which the lemmas about runs apply, and what holds at every act is said with
them. The list is known before the run, since nothing that is drawn decides how many acts there
are: a step draws which action it takes, and takes one.

That a session is the run of its script needs the configuration to stay as it is, for the loops
read it afresh. The acts of the opening and the closing leave it alone on their face
(`perform_cfg`). That the activity does too is read off the messages it writes, so here it is a
hypothesis.
-/

set_option autoImplicit false

namespace Tickerplant
namespace Synthetic

open Lib Itch SyntheticFeed

/-! ## Acts -/

/-- What the session does between two messages. -/
inductive Act where
  /-- The clock is brought up to `t` first. -/
  | systemEvent (t : UInt64) (code : UInt8)
  | stockDirectory (i : ℕ)
  | tradingAction (i : ℕ)
  /-- The symbol at `i`, by its locate. -/
  | cross (i : ℕ) (crossType : UInt8)
  | step
  deriving DecidableEq

/-- The time of day the clock is brought up to before the act. -/
def Act.floor : Act → UInt64
  | .systemEvent t _ => t
  | _ => 0

/-- The clock is not brought past the close, and a cross is of a listed symbol. -/
def Act.Listed (symbols : ℕ) : Act → Prop
  | .systemEvent t _ => t ≤ kMarketCloseNs
  | .cross i _ => i < symbols
  | _ => True

/-- An act of the generator. -/
def SyntheticFeed.perform (f : SyntheticFeed) : Act → SyntheticFeed
  | .systemEvent t code => (f.atLeast t).systemEvent code
  | .stockDirectory i => f.stockDirectory i
  | .tradingAction i => f.tradingAction i
  | .cross i crossType => f.cross (UInt16.ofNat (i + 1)) crossType
  | .step => f.step

/-- `session_open`. -/
def opening (symbols : ℕ) : List Act :=
  .systemEvent kPreMarketNs 'O'.toUInt8 :: (List.range symbols).map .stockDirectory ++
    .systemEvent kMarketOpenNs 'Q'.toUInt8 :: ((List.range symbols).map .tradingAction ++
      (List.range symbols).map fun i => .cross i 'O'.toUInt8)

/-- `session_close`. -/
def closing (symbols : ℕ) : List Act :=
  (List.range symbols).map (fun i => .cross i 'C'.toUInt8) ++
    [.systemEvent kMarketCloseNs 'M'.toUInt8, .systemEvent 0 'C'.toUInt8]

/-- The acts of a session. -/
def script (cfg : SyntheticConfig) : List Act :=
  opening cfg.symbols.toNat ++ List.replicate (activity cfg).toNat .step ++
    closing cfg.symbols.toNat

/-- **An act** writes one message. -/
theorem perform_told {symbols : ℕ} {orders : Orders} {f : SyntheticFeed} {a : Act}
    (hpool : Pool symbols f.nextRef f.live orders) (hnarrow : symbols ≤ 65535)
    (hlisted : a.Listed symbols) (hready : a = .step → Ready symbols f) :
    ∃ m, Told symbols orders f (f.perform a) a.floor m := by
  cases a with
  | systemEvent t code =>
    have hpool' : Pool symbols (f.atLeast t).nextRef (f.atLeast t).live orders := by
      unfold atLeast
      split <;> exact hpool
    obtain ⟨m, hm⟩ := systemEvent_told hpool' code
    exact ⟨m, hm.afterFloor⟩
  | stockDirectory i => exact stockDirectory_told hpool i
  | tradingAction i => exact tradingAction_told hpool i
  -- the listed symbols have locates of two bytes
  | cross i crossType =>
    have hi : i < symbols := hlisted
    have hlocate : (UInt16.ofNat (i + 1)).toNat = i + 1 :=
      UInt16.toNat_ofNat_of_lt' (show i + 1 < 2 ^ 16 by omega)
    exact cross_told hpool (by omega) (by omega) crossType
  | step => exact step_told hpool (hready rfl)

/-! ### The session runs its script

Each loop over the symbols is the run of its acts, and the loops follow each other. -/

/-- All but the activity leave the configuration alone, whatever they draw. -/
theorem perform_cfg {f : SyntheticFeed} {a : Act} (h : a ≠ .step) : (f.perform a).cfg = f.cfg := by
  cases a with
  | systemEvent t code =>
    show (f.atLeast t).cfg = f.cfg
    unfold atLeast
    split <;> rfl
  | stockDirectory i => rfl
  | tradingAction i => rfl
  | cross i crossType => rfl
  | step => exact absurd rfl h

/-- A loop over the symbols, each with its act. -/
theorem forSymbols_eq (f : SyntheticFeed) (body : SyntheticFeed → ℕ → SyntheticFeed)
    (act : ℕ → Act) (hbody : ∀ g i, body g i = g.perform (act i)) (hquiet : ∀ i, act i ≠ .step) :
    f.forSymbols body = ((List.range f.cfg.symbols.toNat).map act).foldl perform f ∧
      (f.forSymbols body).cfg = f.cfg := by
  have hcfg (l : List ℕ) : ∀ g : SyntheticFeed, (l.foldl body g).cfg = g.cfg := by
    induction l with
    | nil => exact fun _ => rfl
    | cons i l ih => exact fun g => (ih _).trans ((hbody g i) ▸ perform_cfg (hquiet i))
  refine ⟨?_, hcfg _ f⟩
  unfold forSymbols
  rw [List.foldl_map, show body = fun g i => g.perform (act i) from funext₂ hbody]

/-- The opening is the run of its acts. -/
theorem sessionOpen_eq (f : SyntheticFeed) :
    f.sessionOpen = (opening f.cfg.symbols.toNat).foldl perform f ∧ f.sessionOpen.cfg = f.cfg := by
  have hcfg1 : (f.perform (.systemEvent kPreMarketNs 'O'.toUInt8)).cfg = f.cfg := perform_cfg nofun
  obtain ⟨f1, hf1⟩ : ∃ f1, f.perform (.systemEvent kPreMarketNs 'O'.toUInt8) = f1 := ⟨_, rfl⟩
  obtain ⟨hdirectory, hcfg2⟩ := forSymbols_eq f1 stockDirectory .stockDirectory
    (fun _ _ => rfl) (fun _ => nofun)
  obtain ⟨f2, hf2⟩ : ∃ f2, f1.forSymbols stockDirectory = f2 := ⟨_, rfl⟩
  have hcfg3 : (f2.perform (.systemEvent kMarketOpenNs 'Q'.toUInt8)).cfg = f2.cfg :=
    perform_cfg nofun
  obtain ⟨f3, hf3⟩ : ∃ f3, f2.perform (.systemEvent kMarketOpenNs 'Q'.toUInt8) = f3 := ⟨_, rfl⟩
  obtain ⟨haction, hcfg4⟩ := forSymbols_eq f3 tradingAction .tradingAction
    (fun _ _ => rfl) (fun _ => nofun)
  obtain ⟨f4, hf4⟩ : ∃ f4, f3.forSymbols tradingAction = f4 := ⟨_, rfl⟩
  obtain ⟨hcross, hcfg5⟩ := forSymbols_eq f4
    (fun f i => f.cross (UInt16.ofNat (i + 1)) 'O'.toUInt8) (fun i => .cross i 'O'.toUInt8)
    (fun _ _ => rfl) (fun _ => nofun)
  -- every loop reads the number of symbols off the configuration it finds, which is the first one
  rw [hf1] at hcfg1
  rw [hf2, hcfg1] at hdirectory hcfg2
  rw [hf3, hcfg2] at hcfg3
  rw [hf4, hcfg3] at haction hcfg4
  rw [hcfg4] at hcross hcfg5
  have hopen : f.sessionOpen =
      f4.forSymbols fun f i => f.cross (UInt16.ofNat (i + 1)) 'O'.toUInt8 := by
    rw [← hf4, ← hf3, ← hf2, ← hf1]
    rfl
  unfold opening
  rw [List.foldl_append, List.foldl_cons, List.foldl_cons, List.foldl_append, hf1, ← hdirectory,
    hf3, ← haction, ← hcross, hopen]
  exact ⟨rfl, hcfg5⟩

/-- And so is the closing. -/
theorem sessionClose_eq (f : SyntheticFeed) :
    f.sessionClose = (closing f.cfg.symbols.toNat).foldl perform f := by
  obtain ⟨hcross, -⟩ := forSymbols_eq f (fun f i => f.cross (UInt16.ofNat (i + 1)) 'C'.toUInt8)
    (fun i => .cross i 'C'.toUInt8) (fun _ _ => rfl) (fun _ => nofun)
  unfold sessionClose closing
  rw [List.foldl_append, ← hcross]
  rfl

/-- **The session runs its script**, if the activity leaves the configuration alone. -/
theorem generate_eq {f : SyntheticFeed}
    (hcfg : ((opening f.cfg.symbols.toNat ++
      List.replicate (activity f.cfg).toNat Act.step).foldl perform f).cfg = f.cfg) :
    f.generate = ((script f.cfg).foldl perform f).finish := by
  obtain ⟨hopen, hcfg'⟩ := sessionOpen_eq f
  have hsteps (k : ℕ) (g : SyntheticFeed) : (List.range k).foldl (fun g _ => g.step) g =
      (List.replicate k Act.step).foldl perform g := by
    have hmap : List.replicate k Act.step = (List.range k).map fun _ => Act.step := by
      rw [List.map_const', List.length_range]
    rw [hmap, List.foldl_map]
    rfl
  have hactive : (List.range (activity f.cfg).toNat).foldl (fun g _ => g.step) f.sessionOpen =
      (opening f.cfg.symbols.toNat ++ List.replicate (activity f.cfg).toNat Act.step).foldl
        perform f := by
    rw [hsteps, hopen, ← List.foldl_append]
  unfold script
  rw [List.foldl_append]
  have hclose := sessionClose_eq ((opening f.cfg.symbols.toNat ++
    List.replicate (activity f.cfg).toNat Act.step).foldl perform f)
  rw [hcfg] at hclose
  rw [← hclose, ← hactive, ← hcfg']
  rfl

end Synthetic
end Tickerplant
