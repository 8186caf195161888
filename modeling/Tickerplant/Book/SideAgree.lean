import Tickerplant.Book.Linked

/-!
# Either side structure makes the same book

A side stays in order under whatever is done to it, and in order the tree and the vector answer
alike and change alike (`level_agrees`, `find_agrees`, `erase_agrees`). So a book never shows which
of the two it is made of. Nothing here is asked of the events: an orphan, a duplicate or an order
the table lost changes both books in the same way (`sides_interchangeable`).

The argument is not about what the book means, since for such streams it means nothing. `Same` says
of two answers that they are one and the same builder, sides in order; every handler is a chain of
lookups and changes of sides, and `Same.bind` carries the equality along the chain. That order is
kept is part of the statement because the next change needs it.

`SideOp` is the other half: a side by itself, under operations that need not come from a builder,
as the tests drive the two containers.
-/

set_option autoImplicit false

namespace Tickerplant

/-! ## One side -/

/-- What is done to a side from outside. A write goes through the level that was answered. -/
inductive SideOp (L : Type) where
  /-- Ask for a level, which is made if it is not there. -/
  | level (p : Price) (write : L → L)
  /-- Ask for a level that may not be there. -/
  | find (p : Price) (write : L → L)
  /-- Drop a level. -/
  | erase (p : Price)

namespace BookSide

section Agree

variable {L : Type} (kind kind' : SideKind) {isBid : Bool} {s : BookSide L} {p : Price}

/-- One level is found. -/
theorem find_agrees (h : Sorted isBid s) : s.find kind isBid p = s.find kind' isBid p := by
  rw [find_eq h, find_eq h]

/-- One level goes. -/
theorem erase_agrees (h : Sorted isBid s) : s.erase kind isBid p = s.erase kind' isBid p := by
  rw [erase_levels h, erase_levels h]

/-- One level is made. -/
theorem level_agrees [PriceLevel L] (h : Sorted isBid s) :
    s.level kind isBid p = s.level kind' isBid p := by
  rw [level_levels h, level_levels h]

theorem sorted_empty : Sorted isBid (⟨[]⟩ : BookSide L) := List.Pairwise.nil

/-- In order, no price is there twice. -/
theorem Sorted.nodup (h : Sorted isBid s) : (s.levels.map Prod.fst).Nodup := by
  rw [List.Nodup, List.pairwise_map]
  exact h.imp before_ne

end Agree

section Ops

variable {L : Type} [PriceLevel L] (kind : SideKind) (isBid : Bool)

/-- One operation: the level it answered, as it was before the write, and the side after it. -/
def exec (s : BookSide L) : SideOp L → Option L × BookSide L
  | .level p write =>
    let s' := s.level kind isBid p
    (s'.find kind isBid p, s'.modify p write)
  | .find p write =>
    match s.find kind isBid p with
    | none => (none, s)
    | some l => (some l, s.modify p write)
  | .erase p => (none, s.erase kind isBid p)

/-- The answers of a sequence of operations, and the side after it. -/
def execAll (s : BookSide L) : List (SideOp L) → List (Option L) × BookSide L
  | [] => ([], s)
  | op :: ops =>
    let first := s.exec kind isBid op
    let rest := first.2.execAll ops
    (first.1 :: rest.1, rest.2)

variable (kind kind' : SideKind) {isBid : Bool} {s : BookSide L}

/-- No operation disturbs the order. -/
theorem sorted_exec (h : Sorted isBid s) (op : SideOp L) :
    Sorted isBid (s.exec kind isBid op).2 := by
  cases op with
  | level p write => exact sorted_modify (sorted_level h)
  | find p write =>
    rw [exec]
    split
    · exact h
    · exact sorted_modify h
  | erase p => exact sorted_erase h

/-- One operation, one answer. -/
theorem exec_agrees (h : Sorted isBid s) (op : SideOp L) :
    s.exec kind isBid op = s.exec kind' isBid op := by
  cases op with
  | level p write =>
    rw [exec, exec, level_agrees kind kind' h,
      find_agrees kind kind' (sorted_level h)]
  | find p write => rw [exec, exec, find_agrees kind kind' h]
  | erase p => rw [exec, exec, erase_agrees kind kind' h]

/-- **A sequence of operations** keeps a side in order, and the two structures cannot be told
apart by it. -/
theorem execAll_agrees (ops : List (SideOp L)) (h : Sorted isBid s) :
    Sorted isBid (s.execAll kind isBid ops).2 ∧
      s.execAll kind isBid ops = s.execAll kind' isBid ops := by
  induction ops generalizing s with
  | nil => exact ⟨h, rfl⟩
  | cons op ops ih =>
    obtain ⟨hsorted, hrest⟩ := ih (sorted_exec kind h op)
    refine ⟨hsorted, ?_⟩
    rw [execAll, execAll, ← exec_agrees kind kind' h]
    exact congrArg (fun rest => ((s.exec kind isBid op).1 :: rest.1, rest.2)) hrest

end Ops

end BookSide

/-! ## The builder -/

namespace BookBuilder

section Sides

variable {L : Type} [PriceLevel L] (kind kind' : SideKind) {isBid : Bool} {s : BookSide L}
  {o : OrderPtr} {ord : Order}

/-- Linking an order. -/
theorem link_agrees (h : BookSide.Sorted isBid s) :
    link kind isBid o ord s = link kind' isBid o ord s := by
  rw [link, link, BookSide.level_agrees kind kind' h]

/-- Unlinking one, and dropping the level if it is empty. -/
theorem unlink_agrees (h : BookSide.Sorted isBid s) :
    unlink kind isBid o ord s = unlink kind' isBid o ord s := by
  rw [unlink, unlink, BookSide.find_agrees kind kind' h]
  split
  · rfl
  · simp only
    rw [BookSide.erase_agrees kind kind' (BookSide.sorted_modify h)]

/-- Taking shares off a level. -/
theorem shrink_agrees (h : BookSide.Sorted isBid s) {n : Quantity} :
    shrink kind isBid ord n s = shrink kind' isBid ord n s := by
  rw [shrink, shrink, BookSide.find_agrees kind kind' h]

end Sides

variable {L P : Type} [PriceLevel L] [MemoryPool P] {b : BookBuilder L P}
  {kind kind' : SideKind}

/-- Every side of every book is in order. -/
def InOrder (b : BookBuilder L P) : Prop :=
  ∀ stock side, BookSide.Sorted (Side.isBid side) ((b.books stock).side side)

omit [PriceLevel L] [MemoryPool P] in
theorem InOrder.updateSide (h : InOrder b) {stock : UInt16} {side : Side}
    {f : BookSide L → BookSide L}
    (hf : ∀ s, BookSide.Sorted side.isBid s → BookSide.Sorted side.isBid (f s)) :
    InOrder (b.updateSide stock side f) := by
  intro stock' side'
  show BookSide.Sorted side'.isBid ((Function.update b.books stock _ stock').side side')
  rw [Function.update_apply]
  split
  case isTrue =>
    cases side <;> cases side'
    · exact hf _ (h stock .buy)
    · exact h stock .sell
    · exact h stock .buy
    · exact hf _ (h stock .sell)
  case isFalse => exact h stock' side'

omit [PriceLevel L] [MemoryPool P] in
/-- Two changes that agree on sides in order make the same book. -/
theorem InOrder.updateSide_congr (h : InOrder b) {stock : UInt16} {side : Side}
    {f g : BookSide L → BookSide L} (hfg : ∀ s, BookSide.Sorted side.isBid s → f s = g s) :
    b.updateSide stock side f = b.updateSide stock side g := by
  rw [BookBuilder.updateSide, BookBuilder.updateSide, hfg _ (h stock side)]

/-- The two answers are the same builder, in order. -/
structure Same (x y : Option (BookBuilder L P)) : Prop where
  /-- One answer. -/
  eq : x = y
  /-- Good for the next change. -/
  inOrder : ∀ b, x = some b → InOrder b

section Same

variable {x y : Option (BookBuilder L P)}

omit [PriceLevel L] [MemoryPool P] in
theorem Same.none : Same (none : Option (BookBuilder L P)) none := ⟨rfl, nofun⟩

omit [PriceLevel L] [MemoryPool P] in
theorem Same.some (h : InOrder b) : Same (some b) (some b) := by
  refine ⟨rfl, fun b' hb' => ?_⟩
  rw [Option.some.injEq] at hb'
  exact hb' ▸ h

omit [PriceLevel L] [MemoryPool P] in
/-- What is done next, from one builder in order, with the same answer. -/
theorem Same.bind (h : Same x y) {f g : BookBuilder L P → Option (BookBuilder L P)}
    (hfg : ∀ b, InOrder b → Same (f b) (g b)) : Same (x.bind f) (y.bind g) := by
  obtain ⟨rfl, hx⟩ := h
  cases x with
  | none => exact .none
  | some b => exact hfg b (hx b rfl)

omit [PriceLevel L] [MemoryPool P] in
/-- The same, after a look that no side has a part in. -/
theorem Same.look {α : Type} (a : Option α) {f g : α → Option (BookBuilder L P)}
    (hfg : ∀ x, Same (f x) (g x)) : Same (a.bind f) (a.bind g) := by
  cases a with
  | none => exact .none
  | some x => exact hfg x

end Same

/-! ## One event -/

theorem removeOrder_same (h : InOrder b) (ref : UInt64) :
    Same (removeOrder kind b ref) (removeOrder kind' b ref) := by
  refine .look (b.find ref) fun slot => ?_
  cases slot with
  | none => exact .some h
  | some o =>
    simp only
    rw [← h.updateSide_congr fun s hs => unlink_agrees kind kind' hs]
    refine ⟨rfl, fun b' hb' => ?_⟩
    obtain ⟨erased, -, rfl⟩ := Option.map_eq_some_iff.mp hb'
    exact h.updateSide fun s hs => sorted_unlink hs

theorem reduce_same (h : InOrder b) (ref : UInt64) (o : OrderPtr) (shares : UInt32) :
    Same (reduce kind b ref o shares) (reduce kind' b ref o shares) := by
  unfold reduce
  simp only
  by_cases hall : (b.heap o).remainingQty ≤ shares
  · rw [if_pos hall, if_pos hall]
    refine removeOrder_same ?_ ref
    split <;> exact h
  · rw [if_neg hall, if_neg hall,
      ← h.updateSide_congr fun s hs => shrink_agrees kind kind' hs]
    exact .some (h.updateSide fun s hs => sorted_shrink hs)

theorem rest_same (h : InOrder b) (ref : UInt64) (side : Side) (price shares : UInt32)
    (ts : UInt64) (stock : UInt16) :
    Same (rest kind b ref side price shares ts stock)
      (rest kind' b ref side price shares ts stock) := by
  unfold rest
  cases MemoryPool.allocate b.pool with
  | none => exact .some h
  | some cell =>
    simp only
    rw [← h.updateSide_congr fun s hs => link_agrees kind kind' hs]
    refine ⟨rfl, fun b' hb' => ?_⟩
    obtain ⟨inserted, -, rfl⟩ := Option.map_eq_some_iff.mp hb'
    exact h.updateSide fun s hs => sorted_link hs

section Handlers

variable (h : InOrder b) (locate : UInt16) (ts ref : UInt64) (shares price : UInt32)

include h

theorem onAdd_same (sideChar : Char) (hasMpid : Bool) :
    Same (onAdd kind b locate ts ref sideChar shares price hasMpid)
      (onAdd kind' b locate ts ref sideChar shares price hasMpid) := by
  unfold onAdd
  simp only
  split
  · exact .some h
  · refine .look _ fun slot => ?_
    cases slot with
    | none =>
      refine rest_same ?_ ref _ price shares ts locate
      exact h
    | some _ =>
      refine (removeOrder_same ?_ ref).bind fun b' hb' => ?_
      · exact h
      · exact rest_same hb' ref _ price shares ts locate

theorem onExecute_same :
    Same (onExecute kind b locate ts ref shares) (onExecute kind' b locate ts ref shares) := by
  refine .look _ fun slot => ?_
  cases slot with
  | none => exact .some h
  | some o =>
    refine reduce_same ?_ ref o shares
    exact h

theorem onExecutePrice_same (printable : Bool) :
    Same (onExecutePrice kind b locate ts ref shares printable price)
      (onExecutePrice kind' b locate ts ref shares printable price) := by
  refine .look _ fun slot => ?_
  cases slot with
  | none => exact .some h
  | some o =>
    refine reduce_same ?_ ref o shares
    cases printable <;> exact h

theorem onCancel_same :
    Same (onCancel kind b locate ts ref shares) (onCancel kind' b locate ts ref shares) := by
  refine .look _ fun slot => ?_
  cases slot with
  | none => exact .some h
  | some o =>
    refine reduce_same ?_ ref o shares
    exact h

theorem onDelete_same :
    Same (onDelete kind b locate ts ref) (onDelete kind' b locate ts ref) := by
  refine .look _ fun slot => ?_
  cases slot with
  | none => exact .some h
  | some _ =>
    refine removeOrder_same ?_ ref
    exact h

theorem onReplace_same (newRef : UInt64) :
    Same (onReplace kind b locate ts ref newRef shares price)
      (onReplace kind' b locate ts ref newRef shares price) := by
  refine .look _ fun slot => ?_
  cases slot with
  | none => exact .some h
  | some o =>
    refine (removeOrder_same ?_ ref).bind fun b' hb' => ?_
    · exact h
    · exact rest_same hb' newRef _ price shares ts _

end Handlers

/-- **One event**, any event, does the same to a builder of either kind. -/
theorem apply_same (h : InOrder b) (e : BookEvent) : Same (apply kind b e) (apply kind' b e) := by
  cases e with
  | systemEvent ts code => exact .some h
  | stockDirectory locate ts ticker lot => exact .some h
  | tradingAction locate ts state => exact .some h
  | add locate ts ref side shares price mpid =>
    exact onAdd_same h locate ts ref shares price side mpid
  | execute locate ts ref shares => exact onExecute_same h locate ts ref shares
  | executePrice locate ts ref shares printable price =>
    exact onExecutePrice_same h locate ts ref shares price printable
  | cancel locate ts ref shares => exact onCancel_same h locate ts ref shares
  | delete locate ts ref => exact onDelete_same h locate ts ref
  | replace locate ts oldRef newRef shares price =>
    exact onReplace_same h locate ts oldRef shares price newRef
  | trade locate ts shares price => exact .some h
  | crossTrade locate ts shares price => exact .some h
  | brokenTrade ts => exact .some h
  | other ts => exact .some h

/-- **A stream of events** does the same to a builder of either kind. -/
theorem run_same (kind kind' : SideKind) (events : List BookEvent) {b : BookBuilder L P}
    (h : InOrder b) :
    Same (run kind b events) (run kind' b events) := by
  induction events generalizing b with
  | nil => exact .some h
  | cons e events ih => exact (apply_same h e).bind fun b' hb' => ih hb'

omit [PriceLevel L] in
theorem inOrder_make (capacity : ℕ) : InOrder (make capacity : BookBuilder L P) := by
  intro stock side
  cases side <;> exact BookSide.sorted_empty

/-! ## What is seen of a book -/

section Queries

variable (b : BookBuilder L P)

/-- `live_levels`. -/
def liveLevels : ℕ :=
  (List.range (2 ^ 16)).foldl (fun n locate =>
    n + ((b.books (UInt16.ofNat locate)).bids.size +
      (b.books (UInt16.ofNat locate)).asks.size)) 0

/-- What the queries answer, for every symbol, side and depth. -/
structure Seen where
  top : UInt16 → TopOfBook
  depth : UInt16 → Side → ℕ → List DepthLevel
  digest : UInt64
  liveLevels : ℕ
  stats : BookStats

/-- All of it, of one builder. -/
def seen : Seen where
  top := b.top
  depth := b.depth
  digest := b.digest
  liveLevels := b.liveLevels
  stats := b.stats

end Queries

/-- **The two side structures are interchangeable.** After every event of any stream a builder
over maps and one over vectors answer every query alike. Under any operations on one side the
vector stays strictly in order, no price twice, and both structures give the same answers and
hold the same levels in the same order. -/
theorem sides_interchangeable (capacity : ℕ) (events : List BookEvent) :
    (∀ n, ((run .map (make capacity : BookBuilder L P) (events.take n)).map seen =
        (run .vector (make capacity : BookBuilder L P) (events.take n)).map seen)) ∧
      ∀ (isBid : Bool) (ops : List (SideOp L)),
        BookSide.Sorted isBid ((⟨[]⟩ : BookSide L).execAll .vector isBid ops).2 ∧
        (((⟨[]⟩ : BookSide L).execAll .vector isBid ops).2.levels.map Prod.fst).Nodup ∧
        (⟨[]⟩ : BookSide L).execAll .map isBid ops =
          (⟨[]⟩ : BookSide L).execAll .vector isBid ops := by
  constructor
  · intro n
    rw [(run_same .map .vector (events.take n) (inOrder_make capacity)).eq]
  · intro isBid ops
    have hempty : BookSide.Sorted isBid (⟨[]⟩ : BookSide L) := BookSide.sorted_empty
    obtain ⟨hsorted, hagree⟩ := BookSide.execAll_agrees .vector .map ops hempty
    exact ⟨hsorted, hsorted.nodup, hagree.symm⟩

end BookBuilder

end Tickerplant
