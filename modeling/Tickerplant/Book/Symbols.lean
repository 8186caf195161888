import Mathlib.Data.Set.Card
import Tickerplant.Book.Builder

/-!
# The symbol table over a session (`include/tick/symbol_table.hpp`)

The directory messages name the locates and the trading actions open and close them. `Directory` is
what they have said, a map from locates, and `Tells` is that a table says the same. Only these two
messages touch the builder's table, and every message is heard to its end, whatever it is
(`apply_answers`): the table of order references is never so full that a search does not stop. So
after every stream the table tells what the stream has said (`symbols_told`).

A ticker is copied into eight bytes that may hold a longer one from before, and its length is kept
beside it. `Tells` therefore speaks of `ticker`, the first `nameLen` of them, and needs to know
that the array stays eight bytes wide: otherwise a long name would not be cut where the source cuts
it.

`find` walks the entries from zero and stops at the first match. Two locates may be listed under
one ticker, and it is the least of them that is found (`Tells.find_iff`).

Nothing is asked of the stream, so the second part cannot use the book's invariant. It needs only
that the order table is one of `Book/FlatOrderMap`, which no handler can spoil.
-/

set_option autoImplicit false

namespace Tickerplant

/-- `ticker`. -/
def SymbolInfo.ticker (s : SymbolInfo) : List UInt8 := s.name.take s.nameLen

/-! ## What has been said -/

/-- The last directory entry and the last trading state of each locate. -/
structure Directory where
  /-- What the last directory entry said, if there was one. -/
  listed : UInt16 → Option (List UInt8 × UInt32) := fun _ => none
  /-- The last trading state; a locate that was never mentioned trades. -/
  state : UInt16 → Char := fun _ => 'T'

/-- A ticker is what eight bytes hold of it. -/
def Directory.hear (d : Directory) : BookEvent → Directory
  | .stockDirectory locate _ ticker roundLot =>
    { d with listed := Function.update d.listed locate (some (ticker.take 8, roundLot)) }
  | .tradingAction locate _ state => { d with state := Function.update d.state locate state }
  | _ => d

instance finite_uInt16 : Finite UInt16 :=
  Finite.of_injective UInt16.toFin fun _ _ h => UInt16.toFin_inj.mp h

namespace SymbolTable

variable {t : SymbolTable} {d : Directory}

/-- `find`. The source's minus one is none. -/
def find (t : SymbolTable) (ticker : List UInt8) : Option UInt16 :=
  ((List.range (2 ^ 16)).find? fun i =>
    (t.entries (UInt16.ofNat i)).known &&
      decide ((t.entries (UInt16.ofNat i)).ticker = ticker)).map UInt16.ofNat

/-- What the handlers of the builder do to the table. -/
def hear (t : SymbolTable) : BookEvent → SymbolTable
  | .stockDirectory locate _ ticker roundLot => t.define locate ticker roundLot
  | .tradingAction locate _ state => t.setTradingState locate state
  | _ => t

/-- The table says what the directory does. -/
structure Tells (t : SymbolTable) (d : Directory) : Prop where
  /-- An entry is eight bytes, so that a name is cut where it should be. -/
  width : ∀ locate, (t.entries locate).name.length = 8
  /-- An entry is known if it was listed. A trading action alone does not list it. -/
  known : ∀ locate, (t.entries locate).known = (d.listed locate).isSome
  /-- It has the last ticker and round lot. -/
  listed : ∀ locate e, d.listed locate = some e →
    (t.entries locate).ticker = e.1 ∧ (t.entries locate).roundLot = e.2
  /-- And the last state. -/
  state : ∀ locate, (t.entries locate).tradingState = d.state locate
  /-- Each locate was counted the first time only. -/
  defined : t.defined = {locate | d.listed locate ≠ none}.ncard

/-- A new table tells that nothing was said. -/
theorem tells_empty : Tells {} {} where
  width _ := rfl
  known _ := rfl
  listed _ _ h := absurd h nofun
  state _ := rfl
  defined := by simp

theorem Tells.define (h : Tells t d) (locate : UInt16) (ts : UInt64) (ticker : List UInt8)
    (roundLot : UInt32) :
    Tells (t.define locate ticker roundLot)
      (d.hear (.stockDirectory locate ts ticker roundLot)) where
  width l := by
    show ((Function.update t.entries locate _ l) : SymbolInfo).name.length = 8
    rw [Function.update_apply]
    split
    · have hw := h.width locate
      simp only [List.length_append, List.length_take, List.length_drop]
      omega
    · exact h.width l
  known l := by
    show ((Function.update t.entries locate _ l) : SymbolInfo).known =
      (Function.update d.listed locate _ l).isSome
    rw [Function.update_apply, Function.update_apply]
    split
    · rfl
    · exact h.known l
  listed l e he := by
    show ((Function.update t.entries locate _ l) : SymbolInfo).ticker = _ ∧ _
    change Function.update d.listed locate _ l = some e at he
    simp only [SymbolTable.define, Function.update_apply] at he ⊢
    split at he
    · rename_i hl
      obtain rfl := Option.some.inj he
      rw [if_pos hl]
      -- of the old name only what lies past the new one is left, and the length cuts it off
      refine ⟨?_, rfl⟩
      rw [SymbolInfo.ticker, h.width locate, List.take_append_of_le_length (by simp),
        List.take_take, Nat.min_self]
      by_cases hlen : ticker.length ≤ 8
      · rw [Nat.min_eq_left hlen, List.take_length, List.take_of_length_le hlen]
      · rw [Nat.min_eq_right (by omega)]
    · rename_i hl
      rw [if_neg hl]
      exact h.listed l e he
  state l := by
    show ((Function.update t.entries locate _ l) : SymbolInfo).tradingState = d.state l
    rw [Function.update_apply]
    split
    · rename_i hl
      rw [hl]
      exact h.state locate
    · exact h.state l
  defined := by
    show (if (t.entries locate).known then t.defined else t.defined + 1) =
      {l | Function.update d.listed locate (some (ticker.take 8, roundLot)) l ≠ none}.ncard
    have hset : {l | Function.update d.listed locate (some (ticker.take 8, roundLot)) l ≠ none} =
        insert locate {l | d.listed l ≠ none} := by
      ext l
      simp only [Set.mem_ofPred_eq, Function.update_apply, Set.mem_insert_iff]
      split <;> simp_all
    rw [hset, h.known]
    cases hold : d.listed locate with
    | none =>
      have hnew : locate ∉ {l | d.listed l ≠ none} := by simp [hold]
      rw [Set.ncard_insert_of_notMem hnew (Set.toFinite _), ← h.defined]
      rfl
    | some e =>
      have hmem : locate ∈ {l | d.listed l ≠ none} := by simp [hold]
      rw [Set.insert_eq_of_mem hmem, ← h.defined]
      rfl

theorem Tells.setTradingState (h : Tells t d) (locate : UInt16) (ts : UInt64) (state : Char) :
    Tells (t.setTradingState locate state) (d.hear (.tradingAction locate ts state)) := by
  have hentry (l : UInt16) : (t.setTradingState locate state).entries l =
      { t.entries l with
        tradingState := if l = locate then state else (t.entries l).tradingState } := by
    show Function.update t.entries locate _ l = _
    rw [Function.update_apply]
    split
    · rename_i hl
      rw [hl]
    · rfl
  -- only the state of one entry has changed
  refine ⟨fun l => ?_, fun l => ?_, fun l e he => ?_, fun l => ?_, h.defined⟩
  · rw [hentry]
    exact h.width l
  · rw [hentry]
    exact h.known l
  · rw [hentry]
    exact h.listed l e he
  · rw [hentry]
    show (if l = locate then state else (t.entries l).tradingState) =
      Function.update d.state locate state l
    rw [Function.update_apply, h.state]

/-- **Every message** keeps the table telling what has been said. -/
theorem Tells.hear (h : Tells t d) (e : BookEvent) : Tells (t.hear e) (d.hear e) := by
  cases e with
  | stockDirectory locate ts ticker roundLot => exact h.define locate ts ticker roundLot
  | tradingAction locate ts state => exact h.setTradingState locate ts state
  | _ => exact h

theorem Tells.foldl (events : List BookEvent) : ∀ {t : SymbolTable} {d : Directory}, Tells t d →
    Tells (events.foldl SymbolTable.hear t) (events.foldl Directory.hear d) := by
  induction events with
  | nil => exact fun h => h
  | cons e events ih => exact fun h => ih (h.hear e)

/-- **`find` answers the least locate** whose last directory entry names the ticker. -/
theorem Tells.find_iff (h : Tells t d) (ticker : List UInt8) (locate : UInt16) :
    t.find ticker = some locate ↔ (∃ lot, d.listed locate = some (ticker, lot)) ∧
      ∀ l < locate, ∀ lot, d.listed l ≠ some (ticker, lot) := by
  -- the entry the loop accepts is the one the directory lists under the ticker
  have hnamed (l : UInt16) :
      ((t.entries l).known && decide ((t.entries l).ticker = ticker)) = true ↔
      ∃ lot, d.listed l = some (ticker, lot) := by
    rw [Bool.and_eq_true, decide_eq_true_iff, h.known]
    constructor
    · rintro ⟨hsome, hname⟩
      obtain ⟨e, he⟩ := Option.isSome_iff_exists.mp hsome
      exact ⟨e.2, by rw [he, ← hname, (h.listed l e he).1]⟩
    · rintro ⟨lot, hl⟩
      exact ⟨by rw [hl]; rfl, (h.listed l _ hl).1⟩
  unfold find
  rw [Option.map_eq_some_iff]
  constructor
  · rintro ⟨i, hi, rfl⟩
    obtain ⟨hhere, hlt, hbefore⟩ := List.find?_range_eq_some.mp hi
    refine ⟨(hnamed _).mp hhere, fun l hl lot hlot => ?_⟩
    -- a smaller locate was looked at before, and passed over
    have hil : l.toNat < i := by
      have := UInt16.lt_iff_toNat_lt.mp hl
      rwa [UInt16.toNat_ofNat', Nat.mod_eq_of_lt (List.mem_range.mp hlt)] at this
    have hnot := hbefore l.toNat hil
    rw [UInt16.ofNat_toNat, (hnamed l).mpr ⟨lot, hlot⟩] at hnot
    exact absurd hnot (by decide)
  · rintro ⟨hhere, hbefore⟩
    refine ⟨locate.toNat, List.find?_range_eq_some.mpr ⟨?_, ?_, fun j hj => ?_⟩,
      UInt16.ofNat_toNat⟩
    · rw [UInt16.ofNat_toNat]
      exact (hnamed locate).mpr hhere
    · exact List.mem_range.mpr locate.toNat_lt
    · have hlt : UInt16.ofNat j < locate := by
        rw [UInt16.lt_iff_toNat_lt, UInt16.toNat_ofNat', Nat.mod_eq_of_lt (by
          have := locate.toNat_lt
          omega)]
        exact hj
      rw [Bool.not_eq_true']
      refine Bool.eq_false_iff.mpr fun htrue => ?_
      obtain ⟨lot, hlot⟩ := (hnamed _).mp htrue
      exact hbefore _ hlt lot hlot

end SymbolTable

/-! ## Every message is heard -/

namespace BookBuilder

variable {L P : Type} [PriceLevel L] [MemoryPool P] {kind : SideKind} {b : BookBuilder L P}
  {locate : UInt16} {ts ref : UInt64} {shares : UInt32} {table : SymbolTable}

/-- An answer that comes, of a builder whose references are in order and whose symbols are these. -/
def Answers (x : Option (BookBuilder L P)) (table : SymbolTable) : Prop :=
  ∃ b', x = some b' ∧ b'.orders.Wf splitMix64 ∧ b'.symbols = table

omit [PriceLevel L] [MemoryPool P] in
/-- What is done next, from a builder with the same symbols. -/
theorem Answers.bind {x : Option (BookBuilder L P)} {table' : SymbolTable} (h : Answers x table)
    {f : BookBuilder L P → Option (BookBuilder L P)}
    (hf : ∀ b', b'.orders.Wf splitMix64 → b'.symbols = table → Answers (f b') table') :
    Answers (x.bind f) table' := by
  obtain ⟨b', rfl, hwf, hs⟩ := h
  exact hf b' hwf hs

omit [PriceLevel L] [MemoryPool P] in
theorem answers_find (h : b.orders.Wf splitMix64) {f : Option OrderPtr → Option (BookBuilder L P)}
    (hf : ∀ slot, Answers (f slot) table) : Answers ((b.find ref).bind f) table := by
  rw [BookBuilder.find, FlatOrderMap.find_eq h]
  exact hf _

/-- Removing an order says nothing of the symbols. -/
theorem removeOrder_answers (h : b.orders.Wf splitMix64) :
    Answers (removeOrder kind b ref) b.symbols := by
  refine answers_find h fun slot => ?_
  cases slot with
  | none => exact ⟨b, rfl, h, rfl⟩
  | some o =>
    obtain ⟨orders, herase, hwf, -⟩ := FlatOrderMap.erase_eq h ref
    have herase' : b.orders.erase splitMix64 ref = some (_, orders) := herase
    simp only [updateSide, herase', Option.map_some]
    exact ⟨_, rfl, hwf, rfl⟩

/-- Nor does taking shares off one. -/
theorem reduce_answers (h : b.orders.Wf splitMix64) (o : OrderPtr) :
    Answers (reduce kind b ref o shares) b.symbols := by
  unfold reduce
  simp only
  split
  · split
    · exact removeOrder_answers (b := b.count _) h
    · exact removeOrder_answers h
  · exact ⟨_, rfl, h, rfl⟩

/-- Nor does a new order, entered or not. -/
theorem rest_answers (h : b.orders.Wf splitMix64) (side : Side) (price : UInt32) (stock : UInt16) :
    Answers (rest kind b ref side price shares ts stock) b.symbols := by
  unfold rest
  split
  · exact ⟨_, rfl, h, rfl⟩
  · rename_i o pool _
    have hinsert : ∃ r, b.orders.insert splitMix64 ref o = some r ∧ r.2.Wf splitMix64 := by
      by_cases hz : ref = kEmptyKey
      · exact ⟨_, hz ▸ FlatOrderMap.insert_zero o, h⟩
      · obtain ⟨orders, hi, hwf, -⟩ := FlatOrderMap.insert_eq h hz o
        exact ⟨_, hi, hwf⟩
    obtain ⟨r, hr, hwf⟩ := hinsert
    simp only [updateSide, hr, Option.map_some]
    exact ⟨_, rfl, hwf, rfl⟩

theorem onAdd_answers (h : b.orders.Wf splitMix64) (side : Char) (price : UInt32) (mpid : Bool) :
    Answers (onAdd kind b locate ts ref side shares price mpid) b.symbols := by
  unfold onAdd
  extract_lets b1 b2 b3 side?
  have h3 : b3.orders.Wf splitMix64 := h
  cases side? with
  | none => exact ⟨_, rfl, h3, rfl⟩
  | some side =>
    refine answers_find h3 fun slot => ?_
    cases slot with
    | none => exact rest_answers h3 side price locate
    | some o =>
      refine (removeOrder_answers (b := b3.count _) h3).bind fun b' hwf hs => ?_
      rw [← show b'.symbols = b.symbols from hs]
      exact rest_answers hwf side price locate

theorem onExecute_answers (h : b.orders.Wf splitMix64) :
    Answers (onExecute kind b locate ts ref shares) b.symbols := by
  unfold onExecute
  extract_lets b1 b2 b3
  have h3 : b3.orders.Wf splitMix64 := h
  refine answers_find h3 fun slot => ?_
  cases slot with
  | none => exact ⟨_, rfl, h3, rfl⟩
  | some o => exact reduce_answers (b := b3.recordVolume _ _ _) h3 o

theorem onExecutePrice_answers (h : b.orders.Wf splitMix64) (printable : Bool) (price : UInt32) :
    Answers (onExecutePrice kind b locate ts ref shares printable price) b.symbols := by
  unfold onExecutePrice
  extract_lets b1 b2 b3
  have h3 : b3.orders.Wf splitMix64 := h
  refine answers_find h3 fun slot => ?_
  cases slot with
  | none => exact ⟨_, rfl, h3, rfl⟩
  | some o =>
    cases printable with
    | true => exact reduce_answers (b := b3.recordVolume _ _ _) h3 o
    | false => exact reduce_answers (b := b3) h3 o

theorem onCancel_answers (h : b.orders.Wf splitMix64) :
    Answers (onCancel kind b locate ts ref shares) b.symbols := by
  unfold onCancel
  extract_lets b1 b2 b3
  have h3 : b3.orders.Wf splitMix64 := h
  refine answers_find h3 fun slot => ?_
  cases slot with
  | none => exact ⟨_, rfl, h3, rfl⟩
  | some o => exact reduce_answers (b := b3) h3 o

theorem onDelete_answers (h : b.orders.Wf splitMix64) :
    Answers (onDelete kind b locate ts ref) b.symbols := by
  unfold onDelete
  extract_lets b1 b2 b3
  have h3 : b3.orders.Wf splitMix64 := h
  refine answers_find h3 fun slot => ?_
  cases slot with
  | none => exact ⟨_, rfl, h3, rfl⟩
  | some o => exact removeOrder_answers (b := b3) h3

theorem onReplace_answers (h : b.orders.Wf splitMix64) (newRef : UInt64) (price : UInt32) :
    Answers (onReplace kind b locate ts ref newRef shares price) b.symbols := by
  unfold onReplace
  extract_lets b1 b2 b3
  have h3 : b3.orders.Wf splitMix64 := h
  refine answers_find h3 fun slot => ?_
  cases slot with
  | none => exact ⟨_, rfl, h3, rfl⟩
  | some o =>
    refine (removeOrder_answers (b := b3) h3).bind fun b' hwf hs => ?_
    rw [← show b'.symbols = b.symbols from hs]
    exact rest_answers hwf _ price _

/-- **Every event is heard**, whatever it is, and the table hears of it what it should. -/
theorem apply_answers (h : b.orders.Wf splitMix64) (e : BookEvent) :
    Answers (apply kind b e) (b.symbols.hear e) := by
  cases e with
  | add locate ts ref side shares price mpid => exact onAdd_answers h side price mpid
  | execute locate ts ref shares => exact onExecute_answers h
  | executePrice locate ts ref shares printable price =>
    exact onExecutePrice_answers h printable price
  | cancel locate ts ref shares => exact onCancel_answers h
  | delete locate ts ref => exact onDelete_answers h
  | replace locate ts oldRef newRef shares price => exact onReplace_answers h newRef price
  | systemEvent ts code => exact ⟨_, rfl, h, rfl⟩
  | stockDirectory locate ts ticker roundLot => exact ⟨_, rfl, h, rfl⟩
  | tradingAction locate ts state => exact ⟨_, rfl, h, rfl⟩
  | trade locate ts shares price => exact ⟨_, rfl, h, rfl⟩
  | crossTrade locate ts shares price => exact ⟨_, rfl, h, rfl⟩
  | brokenTrade ts => exact ⟨_, rfl, h, rfl⟩
  | other ts => exact ⟨_, rfl, h, rfl⟩

/-- A stream is heard to its end. -/
theorem run_answers (kind : SideKind) (events : List BookEvent) : ∀ {b : BookBuilder L P},
    b.orders.Wf splitMix64 →
    Answers (run kind b events) (events.foldl SymbolTable.hear b.symbols) := by
  induction events with
  | nil => exact fun h => ⟨_, rfl, h, rfl⟩
  | cons e events ih =>
    intro b h
    refine (apply_answers h e).bind fun b' hwf hs => ?_
    rw [List.foldl_cons, ← hs]
    exact ih hwf

/-- **The symbol table tells what the session has said.** Every stream of events, malformed ones
included, is heard to its end, and then each locate has the ticker, the round lot and the trading
state last said of it, the table counts the locates that were listed, and a ticker is found at the
least locate that is listed under it now. -/
theorem symbols_told (kind : SideKind) (capacity : ℕ) (events : List BookEvent) :
    ∃ b, run kind (make capacity : BookBuilder L P) events = some b ∧
      b.symbols.Tells (events.foldl Directory.hear {}) ∧
      ∀ ticker locate, b.symbols.find ticker = some locate ↔
        (∃ lot, (events.foldl Directory.hear {}).listed locate = some (ticker, lot)) ∧
        ∀ l < locate, ∀ lot, (events.foldl Directory.hear {}).listed l ≠ some (ticker, lot) := by
  obtain ⟨b, hb, -, hs⟩ := run_answers kind events
    (b := (make capacity : BookBuilder L P)) (FlatOrderMap.wf_make capacity)
  have htells : b.symbols.Tells (events.foldl Directory.hear {}) :=
    hs ▸ SymbolTable.tells_empty.foldl events
  exact ⟨b, hb, htells, htells.find_iff⟩

end BookBuilder

end Tickerplant
