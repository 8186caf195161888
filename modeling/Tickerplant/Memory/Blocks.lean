import Mathlib.Data.List.Perm.Basic
import Tickerplant.Memory.PoolResource

/-!
# The blocks of the pool

`Laid` is how the storage is shared out: the blocks callers hold, the blocks on the free lists and
what is left to carve are apart; all but upstream's own lie in chunks; and each list is threaded
through blocks of its own class. Every step keeps it as long as a chunk has room for the class that
is asked for (`Laid.step`).

`new_chunk` does not look at the size it was called for. A chunk smaller than the class is carved
all the same: the block sticks out of it, and what is left wraps (`sound_always_iff`).

The blocks on the lists are a ghost, a list of a class and an address each, in which the order
within a class is the list's. An action does one of four things to the storage: a block moves from
a list to a caller or back (`Laid.reuse`, `Laid.giveBack`), the front of what is left becomes a
block (`Laid.takeFront`), a region comes from upstream (`Laid.newChunk`, `Laid.oversized`), or some
of it is given up (`Laid.fewer`, `Laid.release`). A move leaves the regions as they are up to their
order, so that they are apart is not proved again for it.

That the links are not written over follows from the rest. A caller writes into its own blocks, a
link lies in a free one, and the two are apart (`Laid.write`).
-/

set_option autoImplicit false

namespace Tickerplant

open Lib

/-! ## Sizes

A class and a size are worked out in 64-bit words, for sizes that are at least one and at most 256,
so nothing here wraps. -/

namespace PoolResource

/-- Something is asked for. -/
theorem atLeastOne_pos (bytes : UInt64) : 0 < (atLeastOne bytes).toNat := by
  rw [atLeastOne]
  split
  · decide
  · exact Nat.pos_of_ne_zero fun h => ‹¬ bytes = 0› (UInt64.toNat_inj.mp h)

/-- And no less than the caller said. -/
theorem le_atLeastOne (bytes : UInt64) : bytes.toNat ≤ (atLeastOne bytes).toNat := by
  rw [atLeastOne]
  split
  case isTrue h => rw [h]; decide
  case isFalse => exact Nat.le_refl _

/-- What is not upstream's is at most 256 bytes. -/
theorem le_of_ordinary {bytes align : UInt64} (h : isOversized bytes align = false) :
    bytes.toNat ≤ 256 := by
  rw [isOversized, Bool.or_eq_false_iff, decide_eq_false_iff_not, UInt64.lt_iff_toNat_lt] at h
  exact Nat.not_lt.mp h.1

/-- The class is by how many times sixteen the size is more than the first byte. -/
theorem classOf_toNat {bytes : UInt64} (hpos : 0 < bytes.toNat) (hle : bytes.toNat ≤ 256) :
    (classOf bytes).toNat = (bytes.toNat - 1) / 16 := by
  have hadd : (bytes + kGranularity).toNat = bytes.toNat + 16 := by
    rw [UInt64.toNat_add, Nat.mod_eq_of_lt]
    · rfl
    · show bytes.toNat + 16 < _
      omega
  have hsub : (bytes + kGranularity - 1).toNat = bytes.toNat + 15 := by
    rw [UInt64.toNat_sub_of_le _ _ (UInt64.le_iff_toNat_le.mpr (by rw [hadd]; show 1 ≤ _; omega)),
      hadd]
    show bytes.toNat + 16 - 1 = _
    omega
  have hdiv : ((bytes + kGranularity - 1) / kGranularity).toNat = (bytes.toNat + 15) / 16 := by
    rw [UInt64.toNat_div, hsub]
    rfl
  rw [classOf, UInt64.toNat_sub_of_le _ _ (UInt64.le_iff_toNat_le.mpr (by
    rw [hdiv]; show 1 ≤ _; omega)), hdiv]
  show (bytes.toNat + 15) / 16 - 1 = _
  omega

/-- **A class is large enough**: its blocks are the next multiple of sixteen. -/
theorem blockSize_toNat {bytes align : UInt64} (hpos : 0 < bytes.toNat)
    (hord : isOversized bytes align = false) :
    (blockSize (classOf bytes)).toNat = ((slot (classOf bytes)).val + 1) * 16 ∧
      bytes.toNat ≤ (blockSize (classOf bytes)).toNat := by
  have hle := le_of_ordinary hord
  have hcls := classOf_toNat hpos hle
  have hslot : (slot (classOf bytes)).val = (bytes.toNat - 1) / 16 := by
    show (classOf bytes).toNat % 16 = _
    rw [hcls]
    omega
  have hsize : (blockSize (classOf bytes)).toNat = ((bytes.toNat - 1) / 16 + 1) * 16 := by
    rw [blockSize, UInt64.toNat_mul, UInt64.toNat_add, hcls]
    show (((bytes.toNat - 1) / 16 + 1) % 2 ^ 64 * 16) % 2 ^ 64 = _
    omega
  rw [hsize, hslot]
  exact ⟨rfl, by omega⟩

end PoolResource

namespace Block

variable {b : Block}

/-- A block of the pool takes up its class's size, which is as much as was asked for. -/
theorem extent_ordinary (h : b.oversized = false) :
    b.extent = (b.cls.val + 1) * 16 ∧ b.bytes.toNat ≤ b.extent := by
  obtain ⟨hsize, hle⟩ := PoolResource.blockSize_toNat (PoolResource.atLeastOne_pos b.bytes) h
  rw [extent, if_neg (by rw [h]; exact Bool.false_ne_true)]
  exact ⟨hsize, Nat.le_trans (PoolResource.le_atLeastOne b.bytes) hle⟩

/-- A block has its first byte. -/
theorem has_addr (b : Block) : b.region.Has b.addr := by
  refine ⟨Nat.le_refl _, ?_⟩
  show b.addr < b.addr + b.extent
  have hpos := PoolResource.atLeastOne_pos b.bytes
  cases h : b.oversized with
  | true =>
    have : b.extent = b.asked.toNat := by rw [extent, if_pos h]
    rw [this, asked]
    omega
  | false =>
    have := (extent_ordinary h).1
    omega

end Block

/-! ## How the storage is shared out

Every byte of a chunk is in a caller's block, on a list, left to carve, or lost at the end of a
chunk that was too small for what came next. The invariant says that no byte is in two of these. -/

namespace Arena

/-- A block on a free list: its class and where it is. -/
def cell (f : Fin kClasses × ℕ) : Region := ⟨f.2, (f.1.val + 1) * 16⟩

/-- The blocks of one class, in the order of its list. -/
def ofClass (i : Fin kClasses) (fl : List (Fin kClasses × ℕ)) : List ℕ :=
  fl.filterMap fun f => if f.1 = i then some f.2 else none

/-- A region in a chunk, aligned. -/
def Carved (s : Arena) (r : Region) : Prop :=
  (∃ c ∈ s.pool.chunks, r.Within c.region) ∧ r.base % 16 = 0

/-- The blocks in callers' hands, and those on the free lists. -/
def regions (s : Arena) (fl : List (Fin kClasses × ℕ)) : List Region :=
  s.live.map Block.region ++ fl.map cell

/-- `fl` is what the free lists hold. -/
structure Laid (n : UInt64) (s : Arena) (fl : List (Fin kClasses × ℕ)) : Prop where
  bytes : s.pool.chunkBytes = n
  /-- All chunks are of the size the resource was made with, and none lies at null. -/
  chunk : ∀ c ∈ s.pool.chunks, c.bytes = n ∧ 0 < c.base
  /-- The links in memory run through the blocks of a class, in the order of the list. -/
  chain : ∀ i, Chain s.mem (s.pool.free i) (ofClass i fl)
  /-- A caller's block lies in a chunk unless it is upstream's own. -/
  inside : ∀ b ∈ s.live, b.oversized = false → s.Carved b.region
  /-- And so does a block on a list, which is what it is when it is handed out again. -/
  listed : ∀ f ∈ fl, s.Carved (cell f)
  /-- Upstream's own blocks lie in none, so that no chunk is carved into them. -/
  outside : ∀ b ∈ s.live, b.oversized = true → ∀ c ∈ s.pool.chunks, b.region.Apart c.region
  /-- No two blocks overlap, in callers' hands or on lists. -/
  apart : (s.regions fl).Pairwise Region.Apart
  /-- What is left ends where its chunk ends, so carving from it stays inside. -/
  left : (s.pool.carve = 0 ∧ s.pool.carveLeft = 0) ∨
    ∃ c ∈ s.pool.chunks, s.pool.rest.Within c.region ∧ s.pool.rest.stop = c.region.stop
  /-- The next block carved is aligned. -/
  leftAligned : s.pool.carve % 16 = 0
  /-- And overlaps none that there are. -/
  leftApart : ∀ r ∈ s.regions fl, r.Apart s.pool.rest

section Laid

variable {n : UInt64} {s : Arena} {fl : List (Fin kClasses × ℕ)}

/-- A block is on the list of its class. -/
theorem mem_ofClass {i : Fin kClasses} {a : ℕ} : a ∈ ofClass i fl ↔ (i, a) ∈ fl := by
  rw [ofClass, List.mem_filterMap]
  constructor
  · rintro ⟨⟨j, x⟩, hmem, heq⟩
    split at heq
    · cases heq
      subst_vars
      exact hmem
    · exact absurd heq (by simp)
  · exact fun hmem => ⟨(i, a), hmem, if_pos rfl⟩

/-- A block in front of the list of its class. -/
theorem ofClass_self (i : Fin kClasses) (a : ℕ) (fl : List (Fin kClasses × ℕ)) :
    ofClass i ((i, a) :: fl) = a :: ofClass i fl := List.filterMap_cons_some (if_pos rfl)

/-- Which is on no other list. -/
theorem ofClass_of_ne {i j : Fin kClasses} (hne : j ≠ i) (a : ℕ) (fl : List (Fin kClasses × ℕ)) :
    ofClass j ((i, a) :: fl) = ofClass j fl := List.filterMap_cons_none (if_neg (Ne.symm hne))

/-- A block on a list has its first sixteen bytes, of which the link takes eight. -/
theorem cell_has (f : Fin kClasses × ℕ) {x : ℕ} (hle : f.2 ≤ x) (hlt : x < f.2 + 16) :
    (cell f).Has x := by
  refine ⟨hle, ?_⟩
  show x < f.2 + (f.1.val + 1) * 16
  omega

/-- Nothing has been asked of upstream yet. -/
theorem Laid.start (n : UInt64) : Laid n (start n) [] where
  bytes := rfl
  chunk _ h := absurd h List.not_mem_nil
  chain _ := rfl
  inside _ h := absurd h List.not_mem_nil
  listed _ h := absurd h List.not_mem_nil
  outside _ h := absurd h List.not_mem_nil
  apart := List.Pairwise.nil
  left := .inl ⟨rfl, rfl⟩
  leftAligned := rfl
  leftApart _ h := absurd h List.not_mem_nil

/-- What is laid out is sound. -/
theorem Laid.sound (h : Laid n s fl) : Sound s where
  inside b hb hord := by
    obtain ⟨hin, haligned⟩ := h.inside b hb hord
    exact ⟨hin, (Block.extent_ordinary hord).2, haligned⟩
  apart := by
    have happ := (List.pairwise_append.mp h.apart).1
    exact List.pairwise_map.mp happ
  left := h.left

/-- A block in a caller's hands is apart from those on the lists. -/
theorem Laid.live_apart_free (h : Laid n s fl) {b : Block} (hb : b ∈ s.live)
    {f : Fin kClasses × ℕ} (hf : f ∈ fl) : b.region.Apart (cell f) :=
  (List.pairwise_append.mp h.apart).2.2 _ (List.mem_map_of_mem hb) _ (List.mem_map_of_mem hf)

/-- A region upstream finds is apart from everything that is shared out. -/
theorem Laid.apart_of_fresh (h : Laid n s fl) {r : Region} (hfresh : ∀ t ∈ s.held, r.Apart t) :
    (∀ t ∈ s.regions fl, r.Apart t) ∧ r.Apart s.pool.rest := by
  have hchunk : ∀ c ∈ s.pool.chunks, r.Apart c.region := fun c hc =>
    hfresh _ (List.mem_append_left _ (List.mem_map_of_mem hc))
  have hcarved : ∀ t, s.Carved t → r.Apart t := by
    rintro t ⟨⟨c, hc, hin⟩, -⟩
    exact (hchunk c hc).within (Region.Within.refl r) hin
  -- a block lies in a chunk, from which the region is apart, or is upstream's own
  refine ⟨fun t ht => ?_, ?_⟩
  · rcases List.mem_append.mp ht with ht | ht
    · obtain ⟨b, hb, rfl⟩ := List.mem_map.mp ht
      cases hover : b.oversized with
      | true =>
        exact hfresh _ (List.mem_append_right _ (List.mem_map_of_mem
          (List.mem_filter.mpr ⟨hb, hover⟩)))
      | false => exact hcarved _ (h.inside b hb hover)
    · obtain ⟨f, hf, rfl⟩ := List.mem_map.mp ht
      exact hcarved _ (h.listed f hf)
  · rcases h.left with ⟨hzero, hleft⟩ | ⟨c, hc, hin, -⟩
    · refine .inr ?_
      show s.pool.carve + s.pool.carveLeft.toNat ≤ r.base
      rw [hzero, hleft]
      exact Nat.zero_le _
    · exact (hchunk c hc).within (Region.Within.refl r) hin

/-! ## One step

Each of the things an action may do to the storage, and then the actions. -/

/-- What upstream hands to a caller is apart from everything else. -/
theorem Laid.oversized (h : Laid n s fl) {b : Block} (hover : b.oversized = true)
    (hfresh : ∀ t ∈ s.held, b.region.Apart t) (count : UInt64) :
    Laid n { s with pool := { s.pool with oversized := count }, live := b :: s.live } fl := by
  obtain ⟨hregions, hrest⟩ := h.apart_of_fresh hfresh
  refine { h with inside := ?_, outside := ?_, apart := ?_, leftApart := ?_ }
  · refine List.forall_mem_cons.mpr ⟨fun hord => ?_, h.inside⟩
    rw [hover] at hord
    exact Bool.noConfusion hord
  · refine List.forall_mem_cons.mpr ⟨fun _ c hc => ?_, h.outside⟩
    exact hfresh _ (List.mem_append_left _ (List.mem_map_of_mem hc))
  · exact List.pairwise_cons.mpr ⟨hregions, h.apart⟩
  · exact List.forall_mem_cons.mpr ⟨hrest, h.leftApart⟩

/-- A fresh chunk is what is left to carve. -/
theorem Laid.newChunk (h : Laid n s fl) {base : ℕ} (hpos : 0 < base) (haligned : base % 16 = 0)
    (hfresh : ∀ t ∈ s.held, Region.Apart ⟨base, n.toNat⟩ t) :
    Laid n { s with pool := s.pool.newChunk base } fl := by
  have hold : ∀ c ∈ s.pool.chunks, c ∈ (s.pool.newChunk base).chunks := fun c hc =>
    List.mem_append_left _ hc
  have hcarved : ∀ r, s.Carved r → Carved { s with pool := s.pool.newChunk base } r := by
    rintro r ⟨⟨c, hc, hin⟩, hr⟩
    exact ⟨⟨c, hold c hc, hin⟩, hr⟩
  have hchunks : ∀ c ∈ (s.pool.newChunk base).chunks,
      c ∈ s.pool.chunks ∨ c = ⟨base, n⟩ := by
    intro c hc
    rcases List.mem_append.mp hc with hc | hc
    · exact .inl hc
    · exact .inr (h.bytes ▸ List.mem_singleton.mp hc)
  -- what was left of the chunk before is lost, and what is left is the new one
  have hrest : (s.pool.newChunk base).rest = ⟨base, n.toNat⟩ := by rw [← h.bytes]; rfl
  refine
    { h with
      chunk := fun c hc => ?_
      inside := fun b hb hord => hcarved _ (h.inside b hb hord)
      listed := fun f hf => hcarved _ (h.listed f hf)
      outside := fun b hb hover c hc => ?_
      left := .inr ⟨⟨base, n⟩, ?_, ?_⟩
      leftAligned := haligned
      leftApart := fun r hr => ?_ }
  · rcases hchunks c hc with hc | rfl
    · exact h.chunk c hc
    · exact ⟨rfl, hpos⟩
  · rcases hchunks c hc with hc | rfl
    · exact h.outside b hb hover c hc
    · exact (hfresh _ (List.mem_append_right _ (List.mem_map_of_mem
        (List.mem_filter.mpr ⟨hb, hover⟩)))).symm
  · exact List.mem_append_right _ (h.bytes ▸ List.mem_singleton.mpr rfl)
  · show (s.pool.newChunk base).rest.Within _ ∧ (s.pool.newChunk base).rest.stop = _
    rw [hrest]
    exact ⟨Region.Within.refl _, rfl⟩
  · show r.Apart (s.pool.newChunk base).rest
    rw [hrest]
    exact ((h.apart_of_fresh hfresh).1 r hr).symm

/-- **Carving**: the block is the front of what is left, and the rest of it is left. -/
theorem Laid.takeFront (h : Laid n s fl) {b : Block} (hord : b.oversized = false)
    (haddr : b.addr = s.pool.carve)
    (hroom : PoolResource.blockSize (PoolResource.classOf b.asked) ≤ s.pool.carveLeft) :
    Laid n { s with
      pool := (s.pool.takeFront (PoolResource.blockSize (PoolResource.classOf b.asked))).2
      live := b :: s.live } fl := by
  generalize hsize : PoolResource.blockSize (PoolResource.classOf b.asked) = size at hroom
  have hextent : b.extent = size.toNat := by
    rw [Block.extent, if_neg (by rw [hord]; exact Bool.false_ne_true), hsize]
  have hmultiple : size.toNat % 16 = 0 ∧ 0 < size.toNat := by
    rw [← hextent, (Block.extent_ordinary hord).1]
    omega
  have hroom := UInt64.le_iff_toNat_le.mp hroom
  have hleft : (s.pool.carveLeft - size).toNat = s.pool.carveLeft.toNat - size.toNat :=
    UInt64.toNat_sub_of_le _ _ (UInt64.le_iff_toNat_le.mpr hroom)
  have hrest : (s.pool.takeFront size).2.rest =
      ⟨s.pool.carve + size.toNat, s.pool.carveLeft.toNat - size.toNat⟩ :=
    congrArg (Region.mk _) hleft
  have hregion : b.region = ⟨s.pool.carve, size.toNat⟩ := by rw [Block.region, haddr, hextent]
  -- both parts lie in what was left
  have hfront : b.region.Within s.pool.rest := by
    rw [hregion]
    exact ⟨Nat.le_refl _, Nat.add_le_add_left hroom _⟩
  have hback : (s.pool.takeFront size).2.rest.Within s.pool.rest ∧
      (s.pool.takeFront size).2.rest.stop = s.pool.rest.stop := by
    rw [hrest]
    constructor
    · constructor
      · exact Nat.le_add_right _ _
      · show s.pool.carve + size.toNat + (s.pool.carveLeft.toNat - size.toNat) ≤
          s.pool.carve + s.pool.carveLeft.toNat
        omega
    · show s.pool.carve + size.toNat + (s.pool.carveLeft.toNat - size.toNat) =
        s.pool.carve + s.pool.carveLeft.toNat
      omega
  -- there is a chunk, since something is left of it
  obtain ⟨c, hc, hin, hstop⟩ : ∃ c ∈ s.pool.chunks, s.pool.rest.Within c.region ∧
      s.pool.rest.stop = c.region.stop := by
    rcases h.left with ⟨-, hzero⟩ | hleft
    · rw [hzero, UInt64.toNat_zero] at hroom
      omega
    · exact hleft
  refine
    { h with
      inside := List.forall_mem_cons.mpr ⟨fun _ => ⟨⟨c, hc, hfront.trans hin⟩, ?_⟩, h.inside⟩
      outside := List.forall_mem_cons.mpr ⟨fun hover => ?_, h.outside⟩
      apart := List.pairwise_cons.mpr ⟨fun r hr => ?_, h.apart⟩
      left := .inr ⟨c, hc, hback.1.trans hin, hback.2.trans hstop⟩
      leftAligned := ?_
      leftApart := List.forall_mem_cons.mpr ⟨?_, fun r hr => ?_⟩ }
  · rw [hregion]
    exact h.leftAligned
  · rw [hord] at hover
    exact Bool.noConfusion hover
  · exact ((h.leftApart r hr).within (Region.Within.refl r) hfront).symm
  · show (s.pool.carve + size.toNat) % 16 = 0
    have := h.leftAligned
    omega
  · show b.region.Apart (s.pool.takeFront size).2.rest
    rw [hrest, hregion]
    exact .inl (Nat.le_refl _)
  · exact (h.leftApart r hr).within (Region.Within.refl r) hback.1

/-- The first block of a class's list, and the lists without it. -/
theorem Laid.pop (h : Laid n s fl) {i : Fin kClasses} (hne : s.pool.free i ≠ 0) :
    ∃ fl', fl.Perm ((i, s.pool.free i) :: fl') ∧
      ∀ j, Chain s.mem (if j = i then s.mem (s.pool.free i) else s.pool.free j)
        (ofClass j fl') := by
  obtain ⟨rest, hlist, hchain⟩ := (h.chain i).pop hne
  obtain ⟨before, f, after, rfl, hnone, hfirst, hrest⟩ := List.filterMap_eq_cons_iff.mp hlist
  have hf : f = (i, s.pool.free i) := by
    split at hfirst
    case isTrue hcls => exact Prod.ext hcls (Option.some.inj hfirst)
    case isFalse => exact absurd hfirst (by simp)
  subst hf
  refine ⟨before ++ after, List.perm_middle, fun j => ?_⟩
  -- the block is the first of its class and on no other list
  by_cases hj : j = i
  · subst hj
    have hbefore : ofClass j before = [] := List.filterMap_eq_nil_iff.mpr hnone
    rw [if_pos rfl, ofClass, List.filterMap_append]
    show Chain _ _ (ofClass j before ++ _)
    rw [hbefore, hrest]
    exact hchain
  · have hskip : ofClass j (before ++ (i, s.pool.free i) :: after) =
        ofClass j (before ++ after) := by
      rw [ofClass, ofClass, List.filterMap_append, List.filterMap_cons_none, List.filterMap_append]
      exact if_neg (Ne.symm hj)
    rw [if_neg hj, ← hskip]
    exact h.chain j

/-- **Reuse**: a block of the class goes from its list to the caller. -/
theorem Laid.reuse (h : Laid n s fl) {b : Block} (hord : b.oversized = false)
    (hne : s.pool.free b.cls ≠ 0) (haddr : b.addr = s.pool.free b.cls) (count : UInt64) :
    ∃ fl', Laid n { s with
      pool := { s.pool with
        free := Function.update s.pool.free b.cls (s.mem (s.pool.free b.cls))
        reused := count }
      live := b :: s.live } fl' := by
  obtain ⟨fl', hperm, hchain⟩ := h.pop hne
  have hregion : b.region = cell (b.cls, s.pool.free b.cls) := by
    rw [Block.region, (Block.extent_ordinary hord).1, haddr, cell]
  -- the regions are the same, with the block now in a caller's hands
  have hregions : (s.regions fl).Perm (b.region :: s.regions fl') := by
    rw [hregion]
    refine ((hperm.map cell).append_left _).trans ?_
    rw [List.map_cons]
    exact List.perm_middle
  have hmem : (b.cls, s.pool.free b.cls) ∈ fl := hperm.mem_iff.mpr List.mem_cons_self
  refine ⟨fl',
    { h with
      chain := fun j => ?_
      inside := List.forall_mem_cons.mpr ⟨fun _ => ?_, h.inside⟩
      listed := fun f hf => h.listed f (hperm.mem_iff.mpr (List.mem_cons_of_mem _ hf))
      outside := List.forall_mem_cons.mpr ⟨fun hover => ?_, h.outside⟩
      apart := (hregions.pairwise_iff Region.Apart.symm).mp h.apart
      leftApart := fun r hr => h.leftApart r (hregions.mem_iff.mpr hr) }⟩
  · show Chain s.mem (Function.update s.pool.free b.cls (s.mem (s.pool.free b.cls)) j) _
    rw [Function.update_apply]
    exact hchain j
  · rw [hregion]
    exact h.listed _ hmem
  · rw [hord] at hover
    exact Bool.noConfusion hover

/-- **Give back**: a block goes from the caller to its class's list, and holds the link there. -/
theorem Laid.giveBack (h : Laid n s fl) {b : Block} (hb : b ∈ s.live) (hord : b.oversized = false) :
    Laid n
      { pool := { s.pool with free := Function.update s.pool.free b.cls b.addr }
        mem := Function.update s.mem b.addr (s.pool.free b.cls)
        live := s.live.erase b } ((b.cls, b.addr) :: fl) := by
  have hregion : cell (b.cls, b.addr) = b.region := by
    rw [Block.region, (Block.extent_ordinary hord).1, cell]
  have hregions : (s.regions fl).Perm
      ((s.live.erase b).map Block.region ++ (cell (b.cls, b.addr) :: fl.map cell)) := by
    rw [hregion]
    refine (((List.perm_cons_erase hb).map Block.region).append_right _).trans ?_
    rw [List.map_cons, List.cons_append]
    exact List.perm_middle.symm
  -- the block is apart from all on the lists, so its link is written over none of theirs
  have hnew : ∀ f ∈ fl, f.2 ≠ b.addr := fun f hf heq =>
    (h.live_apart_free hb hf).not_has b.has_addr (cell_has f (Nat.le_of_eq heq) (by omega))
  obtain ⟨⟨c, hc, hin⟩, -⟩ := h.inside b hb hord
  have hpos : b.addr ≠ 0 := by
    have hbase := (h.chunk c hc).2
    have hle : c.base ≤ b.addr := hin.1
    omega
  refine
    { h with
      chain := fun j => ?_
      inside := fun x hx => h.inside x (List.mem_of_mem_erase hx)
      listed := List.forall_mem_cons.mpr ⟨?_, h.listed⟩
      outside := fun x hx => h.outside x (List.mem_of_mem_erase hx)
      apart := (hregions.pairwise_iff Region.Apart.symm).mp h.apart
      leftApart := fun r hr => h.leftApart r (hregions.mem_iff.mpr hr) }
  · show Chain (Function.update s.mem b.addr (s.pool.free b.cls))
      (Function.update s.pool.free b.cls b.addr j) _
    by_cases hj : j = b.cls
    · subst hj
      rw [Function.update_self, ofClass_self]
      exact (h.chain _).push hpos fun hmem => hnew _ (mem_ofClass.mp hmem) rfl
    · rw [Function.update_of_ne hj, ofClass_of_ne hj]
      exact (h.chain j).congr fun a ha => Function.update_of_ne (hnew _ (mem_ofClass.mp ha)) _ _
  · rw [hregion]
    exact h.inside b hb hord

/-- Blocks that callers lose leave the others where they are. -/
theorem Laid.fewer (h : Laid n s fl) {live : List Block} (hsub : live.Sublist s.live) :
    Laid n { s with live := live } fl where
  bytes := h.bytes
  chunk := h.chunk
  chain := h.chain
  inside b hb := h.inside b (hsub.subset hb)
  listed := h.listed
  outside b hb := h.outside b (hsub.subset hb)
  apart := h.apart.sublist ((hsub.map Block.region).append_right _)
  left := h.left
  leftAligned := h.leftAligned
  leftApart r hr := h.leftApart r (((hsub.map Block.region).append_right _).subset hr)

/-- A caller that writes into its own block, or outside the chunks, writes over no link. -/
theorem Laid.write (h : Laid n s fl) {x : ℕ} (words : ℕ → ℕ)
    (hx : (∃ b ∈ s.live, b.region.Has x) ∨ ∀ c ∈ s.pool.chunks, ¬ c.region.Has x) :
    Laid n (s.step (.write x words)) fl := by
  refine { h with chain := fun i => (h.chain i).congr fun a ha => if_neg ?_ }
  rintro ⟨hle, hlt⟩
  have hf := mem_ofClass.mp ha
  have hhas : (cell (i, a)).Has x :=
    cell_has (i, a) hle (Nat.lt_of_lt_of_le hlt (Nat.add_le_add_left (by decide) a))
  rcases hx with ⟨b, hb, hin⟩ | hout
  · exact (h.live_apart_free hb hf).not_has hin hhas
  · obtain ⟨⟨c, hc, hwithin⟩, -⟩ := h.listed _ hf
    exact hout c hc (hwithin.has hhas)

/-- Everything but upstream's own blocks is gone. -/
theorem Laid.release (h : Laid n s fl) : Laid n (s.step .release) [] := by
  have hfew := h.fewer (List.filter_sublist (l := s.live) (p := Block.oversized))
  have hover : ∀ b ∈ s.live.filter Block.oversized, b.oversized = true := fun b hb =>
    (List.mem_filter.mp hb).2
  refine
    { bytes := h.bytes
      chunk := fun c hc => absurd hc List.not_mem_nil
      chain := fun _ => rfl
      inside := fun b hb hord => ?_
      listed := fun f hf => absurd hf List.not_mem_nil
      outside := fun b hb _ c hc => absurd hc List.not_mem_nil
      apart := ?_
      left := .inl ⟨rfl, rfl⟩
      leftAligned := rfl
      leftApart := fun r hr => .inr (Nat.zero_le _) }
  · rw [hover b hb] at hord
    exact Bool.noConfusion hord
  · rw [regions, List.map_nil, List.append_nil]
    exact (List.pairwise_append.mp hfew.apart).1

/-- **One request**, with room in a chunk for its class. -/
theorem Laid.allocate (h : Laid n s fl) {bytes align : UInt64} {upstream : ℕ}
    (hproper : s.Proper (.allocate bytes align upstream))
    (hfits : (Act.allocate bytes align upstream).Fits n) :
    ∃ fl', Laid n (s.step (.allocate bytes align upstream)) fl' := by
  rw [Arena.step]
  -- from upstream, off the chunk, or off a list
  cases hord : PoolResource.isOversized (PoolResource.atLeastOne bytes) align with
  | true =>
    obtain ⟨hanswer, hdemand⟩ := s.pool.allocate_oversized s.mem upstream hord
    obtain ⟨-, -, hfresh⟩ := hproper _ hdemand
    have hover : (⟨upstream, bytes, align⟩ : Block).oversized = true := hord
    have hregion : (⟨upstream, bytes, align⟩ : Block).region =
        ⟨upstream, (PoolResource.atLeastOne bytes).toNat⟩ :=
      congrArg (Region.mk upstream) (if_pos hover)
    rw [hanswer]
    exact ⟨fl, h.oversized hover (hregion ▸ hfresh) _⟩
  | false =>
    by_cases hfree :
        s.pool.free (PoolResource.slot (PoolResource.classOf (PoolResource.atLeastOne bytes))) = 0
    · obtain ⟨hanswer, hdemand⟩ := s.pool.allocate_carved s.mem upstream hord hfree
      rw [hanswer]
      by_cases hroom : s.pool.carveLeft <
          PoolResource.blockSize (PoolResource.classOf (PoolResource.atLeastOne bytes))
      · rw [if_pos hroom] at hdemand ⊢
        obtain ⟨hpos, haligned, hfresh⟩ := hproper _ hdemand
        have hchunk := h.newChunk hpos (haligned (show 0 < kMaxAlign.toNat by decide))
          (h.bytes ▸ hfresh)
        refine ⟨fl, @Laid.takeFront n _ fl hchunk ⟨_, bytes, align⟩ hord rfl ?_⟩
        show _ ≤ s.pool.chunkBytes
        rw [h.bytes]
        exact hfits hord
      · rw [if_neg hroom]
        exact ⟨fl, @Laid.takeFront n s fl h ⟨_, bytes, align⟩ hord rfl (UInt64.not_lt.mp hroom)⟩
    · rw [s.pool.allocate_listed s.mem upstream hord hfree]
      exact @Laid.reuse n s fl h ⟨_, bytes, align⟩ hord hfree rfl _

/-- **One step**, with room in a chunk for the class that is asked for. -/
theorem Laid.step (h : Laid n s fl) {a : Act} (hproper : s.Proper a) (hfits : a.Fits n) :
    ∃ fl', Laid n (s.step a) fl' := by
  cases a with
  | allocate bytes align upstream => exact h.allocate hproper hfits
  | deallocate b =>
    rw [Arena.step]
    cases hord : b.oversized with
    | true =>
      have hover : PoolResource.isOversized (PoolResource.atLeastOne b.bytes) b.align = true := hord
      rw [PoolResource.deallocate, if_pos hover]
      exact ⟨fl, h.fewer List.erase_sublist⟩
    | false =>
      rw [s.pool.deallocate_ordinary s.mem hord]
      exact ⟨_, h.giveBack hproper hord⟩
  | write x words => exact ⟨fl, h.write words hproper⟩
  | release => exact ⟨[], h.release⟩

/-- A block on a list was carved from a chunk, so a chunk has room for its class. -/
theorem Laid.listed_fits (h : Laid n s fl) {i : Fin kClasses} (hne : s.pool.free i ≠ 0) :
    (i.val + 1) * 16 ≤ n.toNat := by
  obtain ⟨fl', hperm, -⟩ := h.pop hne
  obtain ⟨⟨c, hc, hin⟩, -⟩ := h.listed _ (hperm.mem_iff.mpr List.mem_cons_self)
  have hsize : c.region.size = n.toNat := congrArg UInt64.toNat (h.chunk c hc).1
  have hlow : c.region.base ≤ s.pool.free i := hin.1
  have hhigh : s.pool.free i + (i.val + 1) * 16 ≤ c.region.base + c.region.size := hin.2
  omega

/-- What is left is part of a chunk. -/
theorem Laid.left_le (h : Laid n s fl) : s.pool.carveLeft ≤ n := by
  rw [UInt64.le_iff_toNat_le]
  rcases h.left with ⟨-, hzero⟩ | ⟨c, hc, hin, hstop⟩
  · rw [hzero]
    exact Nat.zero_le _
  · have hsize : c.region.size = n.toNat := congrArg UInt64.toNat (h.chunk c hc).1
    have hlow : c.region.base ≤ s.pool.carve := hin.1
    have hhigh : s.pool.carve + s.pool.carveLeft.toNat = c.region.base + c.region.size := hstop
    omega

/-- **A class no chunk has room for**: what is left to carve wraps, past the end of every chunk. -/
theorem Laid.wraps (h : Laid n s fl) {size : UInt64} (hlarge : n < size) (hpos : 0 < size.toNat)
    (hsmall : size.toNat ≤ 256) (upstream : ℕ) (live : List Block) :
    ¬ Sound { s with pool := ((s.pool.newChunk upstream).takeFront size).2, live := live } := by
  intro hsound
  have hlarge := UInt64.lt_iff_toNat_lt.mp hlarge
  have hleft : ((s.pool.newChunk upstream).takeFront size).2.rest =
      ⟨upstream + size.toNat, 2 ^ 64 - size.toNat + n.toNat⟩ := by
    refine congrArg (Region.mk _) ?_
    show (s.pool.chunkBytes - size).toNat = _
    rw [h.bytes, UInt64.toNat_sub, Nat.mod_eq_of_lt (by omega)]
  -- what is left is more than a chunk, so it cannot end where one does
  rcases hsound.left with ⟨hzero, -⟩ | ⟨c, hc, hin, hstop⟩
  · have hzero : upstream + size.toNat = 0 := hzero
    omega
  · have hsize : c.region.size = n.toNat := by
      refine congrArg UInt64.toNat ?_
      rcases List.mem_append.mp hc with hc | hc
      · exact (h.chunk c hc).1
      · rw [List.mem_singleton.mp hc]
        exact h.bytes
    have hlow : c.region.base ≤ upstream + size.toNat := hin.1
    have hstop : ((s.pool.newChunk upstream).takeFront size).2.rest.stop = c.region.stop := hstop
    rw [hleft, Region.stop, Region.stop] at hstop
    simp only at hstop
    omega

/-- A sound step has asked for nothing that a chunk has no room for. -/
theorem Laid.fits_of_sound (h : Laid n s fl) {a : Act} (hsound : Sound (s.step a)) : a.Fits n := by
  cases a with
  | allocate bytes align upstream =>
    intro hord
    have hpos := PoolResource.atLeastOne_pos bytes
    obtain ⟨hsize, hle⟩ := PoolResource.blockSize_toNat hpos hord
    have hslot :
        (PoolResource.slot (PoolResource.classOf (PoolResource.atLeastOne bytes))).val < 16 :=
      Fin.isLt _
    by_cases hfree :
        s.pool.free (PoolResource.slot (PoolResource.classOf (PoolResource.atLeastOne bytes))) = 0
    · rw [Arena.step, (s.pool.allocate_carved s.mem upstream hord hfree).1] at hsound
      -- what is left is no more than a chunk, so a class no chunk has room for asks for a new one
      by_contra hlarge
      rw [UInt64.not_le] at hlarge
      rw [if_pos (UInt64.lt_of_le_of_lt h.left_le hlarge)] at hsound
      exact h.wraps hlarge (by omega) (by omega) upstream _ hsound
    · rw [UInt64.le_iff_toNat_le, hsize]
      exact h.listed_fits hfree
  | deallocate b => trivial
  | write x words => trivial
  | release => trivial

end Laid

/-- **The blocks are disjoint and inside their chunks over a whole run, exactly when a chunk has
room for every class that is asked for.** That is so whatever the chunk's size and whatever the
order of requests, as long as upstream and the callers keep their side. -/
theorem sound_always_iff (chunkBytes : UInt64) (acts : List Act)
    (hproper : Trace.Along step Proper (start chunkBytes) acts) :
    Trace.Always step Sound (start chunkBytes) acts ↔ ∀ a ∈ acts, a.Fits chunkBytes := by
  have hgood : ∀ s, (∃ fl, Laid chunkBytes s fl) → Sound s := fun s ⟨fl, h⟩ => h.sound
  refine (Trace.always_iff_along_while hgood ?_ ?_ acts _ ⟨[], .start chunkBytes⟩ hproper).trans
    Trace.along_iff_forall
  · exact fun s a ⟨fl, h⟩ hproper hfits => h.step hproper hfits
  · exact fun s a ⟨fl, h⟩ _ hsound => h.fits_of_sound hsound

/-- Two level nodes of a map and one given back and used again, in chunks of the default size. -/
theorem sound_always_iff_levels :
    Trace.Always step Sound (start 1048576) [.allocate 104 8 4096, .allocate 104 8 0,
      .deallocate ⟨4096, 104, 8⟩, .allocate 100 8 0, .allocate 1024 8 2097152] :=
  (sound_always_iff 1048576 [.allocate 104 8 4096, .allocate 104 8 0, .deallocate ⟨4096, 104, 8⟩,
    .allocate 100 8 0, .allocate 1024 8 2097152] (by decide)).mpr (by decide)

/-- **A chunk of eight bytes**: a request for sixteen gets a block that sticks out of it, and eight
bytes less sixteen are left. -/
theorem not_sound_eightBytes :
    Trace.Along step Proper (start 8) [.allocate 16 8 4096] ∧
      ((start 8).step (.allocate 16 8 4096)).pool.carveLeft = 18446744073709551608 ∧
      ¬ Trace.Always step Sound (start 8) [.allocate 16 8 4096] := by
  refine ⟨by decide, by decide, fun h => ?_⟩
  obtain ⟨⟨c, hc, -, hstop⟩, -⟩ := h.2.inside ⟨4096, 16, 8⟩ List.mem_cons_self (by decide)
  rw [List.mem_singleton.mp hc] at hstop
  exact absurd hstop (by decide)

end Arena
end Tickerplant
