import Mathlib.Data.UInt
import Tickerplant.Synthetic.Clock

/-!
# What a session keeps

`Kept` holds between the generator and the list of the messages it has written: what it counts is
counted from the messages, the tape is the volume of the book that hears them, and the live orders
are the orders of that book, which heard nothing it could not find. Every act keeps it
(`Kept.told`), so a run does (`run_kept`), and a session is one (`session_kept`).

`Kept` speaks of a book only as the map of the orders that the messages leave. That a builder shows
that map is the builder's own result, for streams in which it finds everything and has room for
everything (`fits`), and it is applied where the session is replayed. So the only thing that is
assumed of a session here is that its live orders never outgrow the pool of the builder that is to
hear it.

A reference is taken by some of the actions and by nothing else (`Told.next`), and there are fewer
steps of activity than references (`activity_lt`), which is why the counter does not come round.
-/

set_option autoImplicit false

namespace Tickerplant
namespace Synthetic

open Lib Itch SyntheticFeed

/-! ## Counters

What the messages written so far add up to, for a book and for a decoder. -/

/-- The events of a book that hears the messages. -/
def heard (ms : List Message) : List BookEvent := ms.map fun m => event m.call

/-- The counters of a decoder that has decoded the messages. -/
def counted (ms : List Message) : DecodeStats :=
  ms.foldl (fun s m => s.count m.type (messageLength m.type)) {}

/-- The volume after one more event. -/
theorem volume_snoc (m : Orders) (stock : UInt16) (events : List BookEvent) (e : BookEvent) :
    m.volume stock (events ++ [e]) =
      m.volume stock events + (Orders.run m events).traded stock e := by
  induction events generalizing m with
  | nil =>
    show _ + 0 = 0 + _
    rw [UInt64.add_zero, UInt64.zero_add]
    rfl
  | cons e' events ih =>
    rw [List.cons_append, Orders.volume, Orders.volume, ih, UInt64.add_assoc]
    rfl

/-- One column of a table changes. -/
theorem modify_range {α : Type} {n j : ℕ} (g : ℕ → α) (h : α → α) :
    ((List.range n).map g).modify j h =
      (List.range n).map fun i => if j = i then h (g i) else g i := by
  refine List.ext_getElem (by simp) fun i _ _ => ?_
  rw [List.getElem_modify]
  by_cases hj : j = i
  · simp [hj]
  · simp [hj]

/-- And with it the sum of the columns. -/
theorem sum_modify {l : List UInt64} {j : ℕ} (h : j < l.length) (x : UInt64) :
    (l.modify j (· + x)).sum = l.sum + x := by
  induction l generalizing j with
  | nil => exact absurd h (Nat.not_lt_zero _)
  | cons y l ih =>
    cases j with
    | zero =>
      rw [List.modify_zero_cons, List.sum_cons, List.sum_cons, UInt64.add_assoc, UInt64.add_comm x,
        ← UInt64.add_assoc]
    | succ j =>
      rw [List.modify_succ_cons, List.sum_cons, List.sum_cons, ih (Nat.lt_of_succ_lt_succ h),
        UInt64.add_assoc]

/-! ## What is kept -/

/-- What the generator has counted and keeps, read off the messages it has written. -/
structure Kept (symbols capacity : ℕ) (f : SyntheticFeed) (ms : List Message) : Prop where
  /-- The live orders are the orders of the book that hears the messages. -/
  pool : Pool symbols f.nextRef f.live (Orders.run (fun _ => none) (heard ms))
  /-- That book found whatever the messages named, and had room for whatever they brought. -/
  fits : Trace.Along Orders.step (Orders.Fits capacity) (fun _ => none) (heard ms)
  sent : f.sent = ms.map Message.bytes
  messages : f.exp.messages = (counted ms).messages
  byType : f.exp.byType = (counted ms).byType
  /-- Each symbol's column is the volume of the book under that symbol's locate. -/
  executed : f.exp.executedShares = (List.range symbols).map fun i =>
    Orders.volume (fun _ => none) (UInt16.ofNat (i + 1)) (heard ms)
  total : f.exp.executedSharesTotal = f.exp.executedShares.sum
  /-- The promise per symbol waits for the end, and starts from zero. -/
  resting : f.exp.restingBySymbol = List.replicate symbols 0
  /-- References are counted from one, so none is the key of an empty slot. -/
  issued : 1 ≤ f.nextRef.toNat

variable {symbols capacity : ℕ} {f f' : SyntheticFeed} {ms : List Message}

/-- The symbol's column of the tape is the one its locate says. -/
theorem Told.column {orders : Orders} {floor : UInt64} {m : Message}
    (h : Told symbols orders f f' floor m) (hnarrow : symbols ≤ 65535) {i : ℕ} (hi : i < symbols)
    (v : UInt64) :
    (v + if m.locate = UInt16.ofNat (i + 1) then printed m else 0) =
      if m.locate.toNat - 1 = i then v + printed m else v := by
  rcases h.listed with hzero | ⟨hpos, -⟩
  · rw [hzero, ite_self, UInt64.add_zero, ite_self]
  · have hlocate : (UInt16.ofNat (i + 1)).toNat = i + 1 :=
      UInt16.toNat_ofNat_of_lt' (show i + 1 < 2 ^ 16 by omega)
    have hiff : m.locate = UInt16.ofNat (i + 1) ↔ m.locate.toNat - 1 = i := by
      rw [← UInt16.toNat_inj, hlocate]
      omega
    simp only [hiff]
    split
    · rfl
    · exact UInt64.add_zero _

/-- An act is told of. -/
theorem Kept.told (h : Kept symbols capacity f ms) (hnarrow : symbols ≤ 65535) {floor : UInt64}
    {m : Message}
    (hm : Told symbols (Orders.run (fun _ => none) (heard ms)) f f' floor m)
    (hroom : f'.live.length ≤ capacity) (hissued : 1 ≤ f'.nextRef.toNat) :
    Kept symbols capacity f' (ms ++ [m]) := by
  have hheard : heard (ms ++ [m]) = heard ms ++ [event m.call] := List.map_append
  have hrun : Orders.run (fun _ => none) (heard (ms ++ [m])) =
      (Orders.run (fun _ => none) (heard ms)).step (event m.call) := by
    rw [hheard]
    exact List.foldl_append
  have hcounted : counted (ms ++ [m]) = (counted ms).count m.type (messageLength m.type) :=
    List.foldl_append
  exact {
    pool := hrun ▸ hm.pool
    fits := by
      rw [hheard]
      exact Trace.along_snoc.mpr ⟨h.fits, hm.faultless, hm.pool.live_eq ▸ hroom⟩
    sent := by rw [hm.sent, h.sent, List.map_append]; rfl
    messages := by rw [hm.messages, h.messages, hcounted]; rfl
    byType := by rw [hm.byType, h.byType, hcounted]; rfl
    -- every column but the message's own stays as it is
    executed := by
      rw [hm.executed, h.executed, modify_range, hheard]
      refine List.map_congr_left fun i hi => ?_
      rw [volume_snoc, hm.traded, hm.column hnarrow (List.mem_range.mp hi)]
    -- what prints is of a listed symbol, so the total moves with the sum of the columns
    total := by
      rw [hm.total, h.total, hm.executed]
      rcases hm.listed with hzero | ⟨hpos, hle⟩
      · rw [hzero, modify_add_zero, UInt64.add_zero]
      · refine (sum_modify ?_ _).symm
        rw [h.executed, List.length_map, List.length_range]
        omega
    resting := hm.resting.trans h.resting
    issued := hissued }

/-- The next reference after an act. -/
theorem Told.next {orders : Orders} {a : Act} {m : Message}
    (h : Told symbols orders f (f.perform a) a.floor m) (hissued : 1 ≤ f.nextRef.toNat)
    (hmore : f.nextRef.toNat + [a].count .step < 2 ^ 64) :
    1 ≤ (f.perform a).nextRef.toNat ∧
      (f.perform a).nextRef.toNat ≤ f.nextRef.toNat + [a].count .step := by
  have hsame (hquiet : (f.perform a).nextRef = f.nextRef) : 1 ≤ (f.perform a).nextRef.toNat ∧
      (f.perform a).nextRef.toNat ≤ f.nextRef.toNat + [a].count .step := by
    rw [hquiet]
    exact ⟨hissued, Nat.le_add_right _ _⟩
  -- only a step of the activity takes a reference
  cases a with
  | systemEvent t code =>
    refine hsame ?_
    show (f.atLeast t).nextRef = f.nextRef
    unfold atLeast
    split <;> rfl
  | stockDirectory i => exact hsame rfl
  | tradingAction i => exact hsame rfl
  | cross i crossType => exact hsame rfl
  | step =>
    rcases h.issued with hquiet | hnext
    · exact hsame hquiet
    · have hone : [Act.step].count Act.step = 1 := rfl
      rw [hone] at hmore ⊢
      have hplus : (f.perform .step).nextRef.toNat = f.nextRef.toNat + 1 := by
        rw [hnext, UInt64.toNat_add]
        exact Nat.mod_eq_of_lt hmore
      omega

/-- **A run** keeps what an act keeps, ticks at every act, and its messages carry its clock. -/
theorem run_kept (hnarrow : symbols ≤ 65535) (acts : List Act) : ∀ {f : SyntheticFeed}
    {ms : List Message}, Kept symbols capacity f ms → f.cfg.symbols ≠ 0 →
    f.cfg.symbols.toNat = symbols → (∀ a ∈ acts, a.Listed symbols) →
    f.nextRef.toNat + acts.count .step < 2 ^ 64 →
    Trace.Always perform (fun f => f.live.length ≤ capacity) f acts →
    ∃ ms', Kept symbols capacity (acts.foldl perform f) (ms ++ ms') ∧
      ms'.map Message.timestamp = clocks f acts ∧ Trace.Along perform Ticks f acts ∧
      (acts.foldl perform f).cfg = f.cfg := by
  -- the induction is on the acts, for any generator that keeps what it should: the references that
  -- are left bound the steps that are to come
  induction acts with
  | nil =>
    intro f ms h _ _ _ _ _
    exact ⟨[], by rwa [List.append_nil], rfl, trivial, rfl⟩
  | cons a acts ih =>
    intro f ms h hsome hcount hlisted hmore hroom
    have hlisted' := List.forall_mem_cons.mp hlisted
    have hsplit : (a :: acts).count .step = [a].count .step + acts.count .step := by
      rw [← List.count_append]
      rfl
    have hready (hstep : a = .step) : Ready symbols f := by
      refine ⟨hcount, hsome, hnarrow, h.issued, ?_⟩
      rw [hsplit, hstep] at hmore
      have hone : [Act.step].count Act.step = 1 := rfl
      omega
    -- what one act says, and what holds after it
    obtain ⟨m, hm⟩ := perform_told h.pool hnarrow hlisted'.1 hready
    obtain ⟨hissued, hnext⟩ := hm.next h.issued (by omega)
    have hkept := h.told hnarrow hm hroom.2.head hissued
    obtain ⟨ms', hkept', hclocks, hticks, hcfg⟩ := ih hkept (hm.cfg ▸ hsome) (hm.cfg ▸ hcount)
      hlisted'.2 (by omega) hroom.2
    refine ⟨m :: ms', ?_, ?_, ⟨⟨?_, hm.rng, hm.tick⟩, hticks⟩, hcfg.trans hm.cfg⟩
    · rw [List.append_assoc] at hkept'
      exact hkept'
    · rw [List.map_cons, hclocks, ← hm.clock]
      rfl
    · cases a with
      | systemEvent t code => exact hlisted'.1
      | _ => exact UInt64.zero_le

/-! ## The session of a configuration

The constructor draws the opening prices and nothing else, so a session starts from nothing
written, nothing live and a clock at midnight. -/

/-- A generator that has written nothing yet. -/
structure Fresh (c : SyntheticConfig) (draws : ℕ → UInt64) (f : SyntheticFeed) : Prop where
  cfg : f.cfg = c
  rng : f.rng = draws
  live : f.live = []
  ts : f.ts = 0
  nextRef : f.nextRef = 1
  sent : f.sent = []
  messages : f.exp.messages = 0
  byType : f.exp.byType = fun _ => 0
  executed : f.exp.executedShares = List.replicate c.symbols.toNat 0
  total : f.exp.executedSharesTotal = 0
  resting : f.exp.restingBySymbol = List.replicate c.symbols.toNat 0

/-- A name and a price are no part of what is promised. -/
theorem Fresh.buildSymbol {cfg : SyntheticConfig} {rng : ℕ → UInt64} (h : Fresh cfg rng f) (i : ℕ) :
    Fresh cfg rng (f.buildSymbol i) := by
  obtain ⟨r, d, hr, -⟩ := exists_below
    { f with exp := { f.exp with symbols := f.exp.symbols ++ [letters (3 + i % 3) i []] } } 1900
  unfold SyntheticFeed.buildSymbol
  simp only [hr]
  exact ⟨h.cfg, h.rng, h.live, h.ts, h.nextRef, h.sent, h.messages, h.byType, h.executed, h.total,
    h.resting⟩

/-- What the constructor makes. -/
theorem fresh_of_make {cfg : SyntheticConfig} {rng : ℕ → UInt64} (h : make cfg rng = .ok f) :
    cfg.symbols ≠ 0 ∧ Fresh cfg rng f := by
  unfold make at h
  split at h
  · exact absurd h nofun
  · rename_i hsome
    split at h
    · exact absurd h nofun
    · obtain rfl := Except.ok.inj h
      refine ⟨hsome, ?_⟩
      exact List.foldlRecOn (List.range cfg.symbols.toNat) SyntheticFeed.buildSymbol
        ⟨rfl, rfl, rfl, rfl, rfl, rfl, rfl, rfl, rfl, rfl, rfl⟩ fun g hg i _ => hg.buildSymbol i

/-- Nothing written is nothing to keep. -/
theorem Fresh.kept {cfg : SyntheticConfig} {rng : ℕ → UInt64} (h : Fresh cfg rng f)
    (capacity : ℕ) : Kept cfg.symbols.toNat capacity f [] where
  pool := h.live ▸ Pool.empty _ _
  fits := trivial
  sent := h.sent
  messages := h.messages
  byType := h.byType
  executed := by
    rw [h.executed]
    show _ = (List.range _).map fun _ => 0
    rw [List.map_const', List.length_range]
  total := by
    rw [h.total, h.executed]
    generalize cfg.symbols.toNat = n
    induction n with
    | zero => rfl
    | succ n ih => rw [List.replicate_succ, List.sum_cons, ← ih]; rfl
  resting := h.resting
  issued := by rw [h.nextRef]; decide

/-! ### The acts of the script

The acts of a script are of listed symbols and of times of day, and as many are steps as there is
activity. -/

/-- The opening brings the clock up to four and to half past nine, and crosses each symbol. -/
theorem opening_listed (symbols : ℕ) : ∀ a ∈ opening symbols, a.Listed symbols := by
  intro a ha
  simp only [opening, List.mem_append, List.mem_cons, List.mem_map, List.mem_range] at ha
  rcases ha with (rfl | ⟨i, -, rfl⟩) | rfl | ⟨i, -, rfl⟩ | ⟨i, hi, rfl⟩
  · show kPreMarketNs ≤ kMarketCloseNs
    decide
  · trivial
  · show kMarketOpenNs ≤ kMarketCloseNs
    decide
  · trivial
  · exact hi

/-- The closing brings it up to four in the afternoon. -/
theorem closing_listed (symbols : ℕ) : ∀ a ∈ closing symbols, a.Listed symbols := by
  intro a ha
  simp only [closing, List.mem_append, List.mem_cons, List.mem_map, List.mem_range,
    List.not_mem_nil, or_false] at ha
  rcases ha with ⟨i, hi, rfl⟩ | rfl | rfl
  · exact hi
  · exact UInt64.le_refl _
  · exact UInt64.zero_le

/-- So it is for the whole script: a step asks for nothing. -/
theorem script_listed (cfg : SyntheticConfig) : ∀ a ∈ script cfg, a.Listed cfg.symbols.toNat := by
  intro a ha
  unfold script at ha
  rcases List.mem_append.mp ha with ha | ha
  · rcases List.mem_append.mp ha with ha | ha
    · exact opening_listed _ a ha
    · rw [List.eq_of_mem_replicate ha]
      trivial
  · exact closing_listed _ a ha

/-- Only the activity issues references. -/
theorem count_script (cfg : SyntheticConfig) : (script cfg).count .step = (activity cfg).toNat := by
  have hopen : (opening cfg.symbols.toNat).count .step = 0 :=
    List.count_eq_zero.mpr (by simp [opening])
  have hclose : (closing cfg.symbols.toNat).count .step = 0 :=
    List.count_eq_zero.mpr (by simp [closing])
  unfold script
  rw [List.count_append, List.count_append, hopen, hclose, List.count_replicate_self, Nat.zero_add,
    Nat.add_zero]

/-- The activity is less than the target, which is a number of 64 bits. -/
theorem activity_lt (cfg : SyntheticConfig) : (activity cfg).toNat + 1 < 2 ^ 64 := by
  have hcount : cfg.symbols.toUInt64.toNat < 2 ^ 32 := by
    rw [UInt32.toNat_toUInt64]
    exact cfg.symbols.toNat_lt
  -- the symbols are counted in 32 bits, so the overhead does not wrap
  have hover : (overhead cfg).toNat = 4 + 4 * cfg.symbols.toUInt64.toNat := by
    unfold overhead
    rw [UInt64.toNat_add, UInt64.toNat_mul]
    show (4 + 4 * _ % _) % _ = _
    omega
  have hmessages := cfg.messages.toNat_lt
  unfold activity
  split
  · rename_i hlt
    rw [UInt64.lt_iff_toNat_lt] at hlt
    rw [UInt64.toNat_sub_of_le _ _ (UInt64.le_iff_toNat_le.mpr hlt.le)]
    omega
  · decide

/-- The messages of a session. -/
theorem session_kept {cfg : SyntheticConfig} {rng : ℕ → UInt64} (hmake : make cfg rng = .ok f)
    (hnarrow : cfg.symbols.toNat ≤ 65535)
    (hroom : Trace.Always perform (fun f => f.live.length ≤ capacity) f (script cfg)) :
    ∃ ms g, f.generate = g.finish ∧ Kept cfg.symbols.toNat capacity g ms ∧
      ms.map Message.timestamp = clocks f (script cfg) ∧
      Trace.Along perform Ticks f (script cfg) := by
  obtain ⟨hsome, hfresh⟩ := fresh_of_make hmake
  obtain rfl : f.cfg = cfg := hfresh.cfg
  have hmore : f.nextRef.toNat + (script f.cfg).count .step < 2 ^ 64 := by
    have hone : (1 : UInt64).toNat = 1 := rfl
    have hlt := activity_lt f.cfg
    rw [hfresh.nextRef, count_script, hone]
    omega
  have hsplit : script f.cfg = (opening f.cfg.symbols.toNat ++
      List.replicate (activity f.cfg).toNat Act.step) ++ closing f.cfg.symbols.toNat := rfl
  -- the script up to the closing is itself a run, which leaves the configuration alone
  have hprefix : ((opening f.cfg.symbols.toNat ++
      List.replicate (activity f.cfg).toNat Act.step).foldl perform f).cfg = f.cfg := by
    have hlisted := script_listed f.cfg
    rw [hsplit] at hroom hmore hlisted
    rw [List.count_append] at hmore
    obtain ⟨_, -, -, -, hkept⟩ := run_kept hnarrow _ (hfresh.kept capacity) hsome rfl
      (fun a ha => hlisted a (List.mem_append_left _ ha)) (by omega) hroom.of_append
    exact hkept
  obtain ⟨ms, hkept, hclocks, hticks, -⟩ := run_kept hnarrow _ (hfresh.kept capacity) hsome rfl
    (script_listed f.cfg) hmore hroom
  exact ⟨ms, _, generate_eq hprefix, hkept, hclocks, hticks⟩

end Synthetic
end Tickerplant
