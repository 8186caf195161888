import Mathlib.Data.List.InsertIdx
import Tickerplant.Book.Nano

/-!
# One side of one book (`include/tick/book_side.hpp`)

`MapSide` is a tree keyed by price and `VectorSide` a sorted array searched by halves. Both are the
list of their levels, best price first, and differ in how they find their way in it: `std::map` by
the key, `std::lower_bound` by the first level that does not come before the price. `SideKind` is
the template argument `SideT`, so that one definition of the builder is both builds of the source.

Binary search is only as good as the order it searches in. Here `locate` is the first index the
search could stop at, which is where `std::lower_bound` does stop when the list is sorted, and
`Sorted` is what the invariant of the book maintains. On a list in order the two kinds agree
(`find_eq`, `level_levels`, `erase_levels`), and each operation is then an equation about `lookup`
(`lookup_level`, `lookup_erase`, `lookup_modify`), so that what follows is about `lookup` and never
about the kind again.
-/

set_option autoImplicit false

namespace Tickerplant

/-- `MapSide` or `VectorSide`. -/
inductive SideKind where
  | map
  | vector
  deriving DecidableEq, Repr

/-- `levels_`. -/
structure BookSide (L : Type) where
  levels : List (Price × L)
  deriving DecidableEq, Repr

namespace BookSide

/-- `Cmp` of the map, `before` of the vector. -/
def before (isBid : Bool) (a b : Price) : Bool :=
  if isBid then decide (b < a) else decide (a < b)

section Operations

variable {L : Type} [PriceLevel L] (kind : SideKind) (isBid : Bool) (s : BookSide L) (p : Price)

/-- `std::map::emplace`, of a price that is not there. -/
def emplace (l : L) : List (Price × L) → List (Price × L)
  | [] => [(p, l)]
  | e :: levels =>
    if before isBid e.1 p then e :: emplace l levels else (p, l) :: e :: levels

/-- `locate`: `std::lower_bound`. -/
def locate : ℕ := s.levels.findIdx fun e => !before isBid e.1 p

/-- The level of a price, by the price alone. It is how `std::map` finds, and the side's meaning
for both kinds. -/
def lookup : Option L := (s.levels.find? fun e => decide (e.1 = p)).map Prod.snd

/-- `find(p)`. The vector looks only where the search stopped, and asks whether that level is the
one. -/
def find : Option L :=
  match kind with
  | .map => s.lookup p
  | .vector =>
    match s.levels[s.locate isBid p]? with
    | some e => if e.1 = p then some e.2 else none
    | none => none

/-- `level(p)`, as a change of the side. -/
def level : BookSide L :=
  match kind with
  | .map =>
    match s.lookup p with
    | some _ => s
    | none => { levels := emplace isBid p (PriceLevel.make p) s.levels }
  | .vector =>
    match s.levels[s.locate isBid p]? with
    | some e =>
      if e.1 = p then s
      else { levels := s.levels.insertIdx (s.locate isBid p) (p, PriceLevel.make p) }
    | none => { levels := s.levels.insertIdx (s.locate isBid p) (p, PriceLevel.make p) }

/-- `erase(p)`: of a price that has no level, nothing. -/
def erase : BookSide L :=
  match kind with
  | .map => { levels := s.levels.filter fun e => !decide (e.1 = p) }
  | .vector =>
    match s.levels[s.locate isBid p]? with
    | some e => if e.1 = p then { levels := s.levels.eraseIdx (s.locate isBid p) } else s
    | none => s

/-- A write through the level that `level` or `find` answered. -/
def modify (f : L → L) : BookSide L :=
  { levels := s.levels.map fun e => if e.1 = p then (e.1, f e.2) else e }

/-- `best()`, the first level of the list. -/
def best : Option L := s.levels.head?.map Prod.snd

/-- `empty()`. -/
def isEmpty : Bool := s.levels.isEmpty

/-- `size()`, how many levels there are. -/
def size : ℕ := s.levels.length

end Operations

/-! ## Levels in order -/

/-- Best price first, and no price twice. -/
def Sorted {L : Type} (isBid : Bool) (s : BookSide L) : Prop :=
  s.levels.Pairwise fun a b => before isBid a.1 b.1 = true

section Order

variable {isBid : Bool} {a b c : Price}

theorem before_irrefl : before isBid a a = false := by
  unfold before
  cases isBid <;> simp

theorem before_trans (h : before isBid a b = true) (h' : before isBid b c = true) :
    before isBid a c = true := by
  cases isBid with
  | true => exact decide_eq_true (Int.lt_trans (of_decide_eq_true h') (of_decide_eq_true h))
  | false => exact decide_eq_true (Int.lt_trans (of_decide_eq_true h) (of_decide_eq_true h'))

/-- Of two prices one comes before the other. -/
theorem before_total (hne : a ≠ b) (h : ¬ before isBid a b = true) : before isBid b a = true := by
  cases isBid with
  | true =>
    have hle : ¬ b < a := fun hlt => h (decide_eq_true hlt)
    exact decide_eq_true (Int.lt_iff_le_and_ne.mpr ⟨Int.not_lt.mp hle, hne⟩)
  | false =>
    have hle : ¬ a < b := fun hlt => h (decide_eq_true hlt)
    exact decide_eq_true (Int.lt_iff_le_and_ne.mpr ⟨Int.not_lt.mp hle, Ne.symm hne⟩)

theorem before_ne (h : before isBid a b = true) : a ≠ b := by
  rintro rfl
  rw [before_irrefl] at h
  exact absurd h (by simp)

end Order

section Lists

variable {L : Type} {isBid : Bool} {p : Price}

/-- In order, the first level that does not come before `p` is the one of `p`, if there is
one. -/
theorem getElem?_findIdx (levels : List (Price × L))
    (h : levels.Pairwise fun a b => before isBid a.1 b.1 = true) :
    (levels[levels.findIdx fun e => !before isBid e.1 p]?).filter (fun e => decide (e.1 = p)) =
      levels.find? fun e => decide (e.1 = p) := by
  induction levels with
  | nil => rfl
  | cons e levels ih =>
    obtain ⟨hfirst, hrest⟩ := List.pairwise_cons.mp h
    rw [List.findIdx_cons, List.find?_cons]
    cases hb : before isBid e.1 p with
    | true =>
      have hne : decide (e.1 = p) = false := decide_eq_false (before_ne hb)
      rw [hne]
      simpa using ih hrest
    | false =>
      by_cases heq : e.1 = p
      -- the search stops at the head either way; if the head is another price, nothing after it is
      -- `p`
      · simp [heq]
      · have hafter := before_total heq (by rw [hb]; simp)
        have hnone : levels.find? (fun e => decide (e.1 = p)) = none := by
          refine List.find?_eq_none.mpr fun x hx => ?_
          have hx := before_ne (before_trans hafter (hfirst x hx))
          simpa using Ne.symm hx
        simp [heq, hnone]

theorem price_of_find? {levels : List (Price × L)} {e : Price × L}
    (h : levels.find? (fun e => decide (e.1 = p)) = some e) : e.1 = p := by
  have he := List.find?_some h
  exact of_decide_eq_true he

theorem insertIdx_findIdx (l : L) (levels : List (Price × L)) :
    levels.insertIdx (levels.findIdx fun e => !before isBid e.1 p) (p, l) =
      emplace isBid p l levels := by
  induction levels with
  | nil => rfl
  | cons e levels ih =>
    rw [List.findIdx_cons, emplace]
    cases hb : before isBid e.1 p with
    | true => simpa using ih
    | false => simp

theorem eraseIdx_findIdx (levels : List (Price × L))
    (h : levels.Pairwise fun a b => before isBid a.1 b.1 = true)
    (hmem : (levels.find? fun e => decide (e.1 = p)) ≠ none) :
    levels.eraseIdx (levels.findIdx fun e => !before isBid e.1 p) =
      levels.filter fun e => !decide (e.1 = p) := by
  induction levels with
  | nil => rfl
  | cons e levels ih =>
    obtain ⟨hfirst, hrest⟩ := List.pairwise_cons.mp h
    rw [List.findIdx_cons]
    rw [List.find?_cons] at hmem
    cases hb : before isBid e.1 p with
    | true =>
      have hne := before_ne hb
      rw [decide_eq_false hne] at hmem
      rw [List.filter_cons_of_pos (by simp [hne])]
      simpa using ih hrest hmem
    | false =>
      by_cases heq : e.1 = p
      · rw [List.filter_cons_of_neg (by simp [heq])]
        refine (List.filter_eq_self.mpr fun x hx => ?_).symm
        have hx := before_ne (heq ▸ hfirst x hx)
        simpa using Ne.symm hx
      · have hafter := before_total heq (by rw [hb]; simp)
        rw [decide_eq_false heq] at hmem
        -- the head already comes after `p`, so that `p` has no level, against `hmem`
        exfalso
        refine hmem (List.find?_eq_none.mpr fun x hx => ?_)
        have hx := before_ne (before_trans hafter (hfirst x hx))
        simpa using Ne.symm hx

theorem mem_emplace {l : L} {e : Price × L} (levels : List (Price × L)) :
    e ∈ emplace isBid p l levels ↔ e = (p, l) ∨ e ∈ levels := by
  induction levels with
  | nil => simp [emplace]
  | cons x levels ih =>
    rw [emplace]
    split
    · rw [List.mem_cons, ih, List.mem_cons]
      tauto
    · rw [List.mem_cons]

theorem pairwise_emplace {l : L} (levels : List (Price × L))
    (h : levels.Pairwise fun a b => before isBid a.1 b.1 = true) (hnew : ∀ e ∈ levels, e.1 ≠ p) :
    (emplace isBid p l levels).Pairwise fun a b => before isBid a.1 b.1 = true := by
  induction levels with
  | nil => exact List.pairwise_singleton _ _
  | cons x levels ih =>
    obtain ⟨hfirst, hrest⟩ := List.pairwise_cons.mp h
    rw [emplace]
    split
    · rename_i hb
      refine List.pairwise_cons.mpr
        ⟨?_, ih hrest fun e he => hnew e (List.mem_cons_of_mem _ he)⟩
      intro e he
      rcases (mem_emplace levels).mp he with rfl | he
      · exact hb
      · exact hfirst e he
    · rename_i hb
      -- the head does not come before `p` and is not `p`: it comes after
      have hx := before_total (hnew x List.mem_cons_self) hb
      refine List.pairwise_cons.mpr ⟨?_, h⟩
      intro e he
      rcases List.mem_cons.mp he with rfl | he
      · exact hx
      · exact before_trans hx (hfirst e he)

end Lists

/-! ## What the operations do -/

section Spec

variable {L : Type} {kind : SideKind} {isBid : Bool} {s : BookSide L} {p q : Price}

theorem lookup_none : s.lookup p = none ↔ ∀ e ∈ s.levels, e.1 ≠ p := by
  unfold lookup
  rw [Option.map_eq_none_iff, List.find?_eq_none]
  simp

/-- A level is found under its price. -/
theorem lookup_some (h : Sorted isBid s) {l : L} : s.lookup p = some l ↔ (p, l) ∈ s.levels := by
  unfold lookup
  rw [Option.map_eq_some_iff]
  constructor
  · rintro ⟨e, he, rfl⟩
    have hp := price_of_find? he
    have hmem := List.mem_of_find?_eq_some he
    rwa [← hp]
  · intro hmem
    cases hf : s.levels.find? fun e => decide (e.1 = p) with
    | none => exact absurd (decide_eq_true rfl) (List.find?_eq_none.mp hf (p, l) hmem)
    | some e =>
      have hp := price_of_find? hf
      have hmem' := List.mem_of_find?_eq_some hf
      -- two levels of one price would not be in order
      have heq : e = (p, l) := by
        by_contra hne
        have hor : before isBid e.1 p = true ∨ before isBid p e.1 = true := by
          obtain ⟨i, hi, hei⟩ := List.mem_iff_getElem.mp hmem'
          obtain ⟨j, hj, hej⟩ := List.mem_iff_getElem.mp hmem
          rcases Nat.lt_trichotomy i j with hij | hij | hij
          · have := List.pairwise_iff_getElem.mp h i j hi hj hij
            rw [hei, hej] at this
            exact Or.inl this
          · subst hij
            exact absurd (hei.symm.trans hej) hne
          · have := List.pairwise_iff_getElem.mp h j i hj hi hij
            rw [hei, hej] at this
            exact Or.inr this
        rw [hp, before_irrefl] at hor
        simp at hor
      exact ⟨e, rfl, by rw [heq]⟩

theorem match_filter (o : Option (Price × L)) :
    (match o with
      | some e => if e.1 = p then some e.2 else none
      | none => none) = (o.filter fun e => decide (e.1 = p)).map Prod.snd := by
  cases o with
  | none => rfl
  | some e => by_cases hp : e.1 = p <;> simp [hp, Option.filter]

/-- **Both kinds find the same level.** -/
theorem find_eq (h : Sorted isBid s) : s.find kind isBid p = s.lookup p := by
  cases kind with
  | map => rfl
  | vector =>
    unfold find lookup locate
    simp only
    rw [match_filter, getElem?_findIdx s.levels h]

variable [PriceLevel L]

/-- **Both kinds make room in the same place.** -/
theorem level_levels (h : Sorted isBid s) :
    s.level kind isBid p = match s.lookup p with
      | some _ => s
      | none => { levels := emplace isBid p (PriceLevel.make p) s.levels } := by
  cases kind with
  | map => rfl
  | vector =>
    have hfind := @find_eq L .vector isBid s p h
    unfold find at hfind
    unfold level
    simp only at hfind ⊢
    rw [← hfind]
    unfold locate
    cases s.levels[s.levels.findIdx fun e => !before isBid e.1 p]? with
    | none => simp only [insertIdx_findIdx]
    | some e => by_cases hp : e.1 = p <;> simp [hp, insertIdx_findIdx]

omit [PriceLevel L] in
/-- **Both kinds drop the same level.** -/
theorem erase_levels (h : Sorted isBid s) :
    s.erase kind isBid p = { levels := s.levels.filter fun e => !decide (e.1 = p) } := by
  cases kind with
  | map => rfl
  | vector =>
    have hfind := @find_eq L .vector isBid s p h
    -- with no level of the price both kinds leave the side alone
    have hgone : s.lookup p = none →
        s = { levels := s.levels.filter fun e => !decide (e.1 = p) } := by
      intro hnone
      have hall : s.levels.filter (fun e => !decide (e.1 = p)) = s.levels :=
        List.filter_eq_self.mpr fun e he => by simpa using lookup_none.mp hnone e he
      rw [hall]
    unfold find at hfind
    unfold erase
    simp only at hfind ⊢
    unfold locate at *
    cases he : s.levels[s.levels.findIdx fun e => !before isBid e.1 p]? with
    | none =>
      rw [he] at hfind
      exact hgone hfind.symm
    | some e =>
      rw [he] at hfind
      simp only at hfind ⊢
      by_cases hp : e.1 = p
      · rw [if_pos hp] at hfind ⊢
        have hmem : (s.levels.find? fun e => decide (e.1 = p)) ≠ none := by
          intro hnone
          rw [lookup, hnone] at hfind
          exact absurd hfind (by simp)
        rw [eraseIdx_findIdx s.levels h hmem]
      · rw [if_neg hp] at hfind ⊢
        exact hgone hfind.symm

theorem sorted_level (h : Sorted isBid s) : Sorted isBid (s.level kind isBid p) := by
  rw [level_levels h]
  cases hl : s.lookup p with
  | some l => exact h
  | none => exact pairwise_emplace _ h (lookup_none.mp hl)

omit [PriceLevel L] in
theorem sorted_erase (h : Sorted isBid s) : Sorted isBid (s.erase kind isBid p) := by
  rw [erase_levels h]
  exact h.filter _

omit [PriceLevel L] in
theorem sorted_modify (h : Sorted isBid s) {f : L → L} : Sorted isBid (s.modify p f) := by
  unfold Sorted modify
  rw [List.pairwise_map]
  refine h.imp fun hab => ?_
  split <;> split <;> exact hab

theorem lookup_level (h : Sorted isBid s) :
    (s.level kind isBid p).lookup q =
      if q = p then some ((s.lookup p).getD (PriceLevel.make p)) else s.lookup q := by
  have hsorted : Sorted isBid (s.level kind isBid p) := sorted_level h
  refine Option.ext fun l => ?_
  rw [lookup_some hsorted, level_levels h]
  cases hl : s.lookup p with
  | some l' =>
    rw [← lookup_some h]
    by_cases hq : q = p
    · subst hq
      rw [if_pos rfl, hl, Option.getD_some]
    · rw [if_neg hq]
  | none =>
    -- the level was made just now: it is found under its own price, the others under theirs
    show (q, l) ∈ emplace isBid p _ s.levels ↔ _
    rw [mem_emplace, ← lookup_some h, Prod.mk.injEq]
    by_cases hq : q = p
    · subst hq
      simp [hl, eq_comm]
    · simp [hq]

omit [PriceLevel L] in
theorem lookup_erase (h : Sorted isBid s) :
    (s.erase kind isBid p).lookup q = if q = p then none else s.lookup q := by
  refine Option.ext fun l => ?_
  rw [lookup_some (sorted_erase h), erase_levels h, List.mem_filter, ← lookup_some h]
  by_cases hq : q = p <;> simp [hq]

omit [PriceLevel L] in
theorem lookup_modify {f : L → L} :
    (s.modify p f).lookup q = if q = p then (s.lookup p).map f else s.lookup q := by
  unfold lookup modify
  rw [List.find?_map, Option.map_map]
  have hkey : ((fun e : Price × L => decide (e.1 = q)) ∘
      fun e : Price × L => if e.1 = p then (e.1, f e.2) else e) = fun e => decide (e.1 = q) := by
    funext e
    show decide ((if e.1 = p then (e.1, f e.2) else e).1 = q) = _
    split <;> rfl
  rw [hkey]
  by_cases hq : q = p
  · subst hq
    rw [if_pos rfl, Option.map_map]
    cases hf : s.levels.find? fun e => decide (e.1 = q) with
    | none => rfl
    | some e =>
      have he := price_of_find? hf
      simp [he]
  · rw [if_neg hq]
    cases hf : s.levels.find? fun e => decide (e.1 = q) with
    | none => rfl
    | some e =>
      have he := price_of_find? hf
      have hne : e.1 ≠ p := fun hp => hq (he ▸ hp)
      simp [hne]

end Spec

end BookSide

end Tickerplant
