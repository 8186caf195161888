import Mathlib.Algebra.Group.Nat.Defs
import Tickerplant.Lib.Memory
import Tickerplant.Lib.Trace
import Tickerplant.Lib.Word

/-!
# The pool behind the price levels (`include/tick/pool_resource.hpp`)

Sixteen free lists, one for each multiple of sixteen bytes up to 256, and a chunk that new blocks
are carved from. A free block holds the link of its list in its own storage, so the lists lie in
the memory the callers write to. A block that is larger, or is to be aligned to more than a chunk
is, comes from upstream and goes back there.

`Arena` is the resource with that memory and the blocks its callers hold. The upstream resource is
the environment: an action says where it would put a region if it were asked for one, and `Proper`
is what is expected of it and of the callers. It returns a region nobody has, aligned as it was
asked; they give back what they were handed, and write nowhere else. Without the last the lists
would be at the callers' mercy, since a link is written over as easily as anything.

Memory is a function from an address to the word that starts there. A write of a byte changes up to
eight of these words, and what they become is the writer's choice, so that nothing is assumed about
how a word is laid out. Sizes and counts are 64-bit words and wrap as the source's do: that is
where the resource can go wrong (`carveLeft`).
-/

set_option autoImplicit false

namespace Tickerplant

open Lib

/-- Blocks larger than this are upstream's. -/
def kMaxBlock : UInt64 := 256
/-- The sizes are its multiples. -/
def kGranularity : UInt64 := 16
/-- As many lists as there are sizes. -/
abbrev kClasses : ℕ := 16

/-- `alignof(std::max_align_t)`. -/
def kMaxAlign : UInt64 := 16
/-- The bytes of a `FreeNode`. -/
def kLinkBytes : ℕ := 8

/-- A region that was asked of upstream, to be carved. -/
structure Chunk where
  base : ℕ
  bytes : UInt64
  deriving DecidableEq, Repr

/-- Where it lies. -/
def Chunk.region (c : Chunk) : Region := ⟨c.base, c.bytes.toNat⟩

/-- An address of zero is null. -/
structure PoolResource where
  chunkBytes : UInt64
  /-- Every chunk, to be given back at the end. -/
  chunks : List Chunk := []
  /-- The first free block of each class. -/
  free : Fin kClasses → ℕ := fun _ => 0
  /-- The end of the last block carved, and the bytes of the chunk behind it. -/
  carve : ℕ := 0
  carveLeft : UInt64 := 0
  /-- The counters, 64-bit words. -/
  upstreamBytes : UInt64 := 0
  reused : UInt64 := 0
  carved : UInt64 := 0
  oversized : UInt64 := 0

namespace PoolResource

/-- The class of a size, counted from zero. -/
def classOf (bytes : UInt64) : UInt64 := (bytes + kGranularity - 1) / kGranularity - 1

/-- `if (bytes == 0) bytes = 1`. -/
def atLeastOne (bytes : UInt64) : UInt64 := if bytes = 0 then 1 else bytes

/-- Upstream's business, of what `atLeastOne` answered. -/
def isOversized (bytes align : UInt64) : Bool :=
  decide (kMaxBlock < bytes) || decide (kMaxAlign < align)

/-- The size of the blocks of a class. -/
def blockSize (cls : UInt64) : UInt64 := (cls + 1) * kGranularity

/-- `free_[cls]`. -/
def slot (cls : UInt64) : Fin kClasses := Fin.ofNat kClasses cls.toNat

/-- `upstream` is what the upstream resource answered. -/
def newChunk (r : PoolResource) (upstream : ℕ) : PoolResource :=
  { r with
    chunks := r.chunks ++ [⟨upstream, r.chunkBytes⟩]
    upstreamBytes := r.upstreamBytes + r.chunkBytes
    carve := upstream
    carveLeft := r.chunkBytes }

/-- The tail of `do_allocate`: a block off the front of what is left. -/
def takeFront (r : PoolResource) (size : UInt64) : ℕ × PoolResource :=
  (r.carve, { r with
    carve := r.carve + size.toNat
    carveLeft := r.carveLeft - size
    carved := r.carved + 1 })

/-- `do_allocate`, for at least one byte. -/
def allocateSome (r : PoolResource) (mem : ℕ → ℕ) (bytes align : UInt64) (upstream : ℕ) :
    ℕ × PoolResource :=
  if isOversized bytes align then (upstream, { r with oversized := r.oversized + 1 })
  else
    let cls := slot (classOf bytes)
    let size := blockSize (classOf bytes)
    if r.free cls ≠ 0 then
      (r.free cls, { r with
        free := Function.update r.free cls (mem (r.free cls))
        reused := r.reused + 1 })
    else (if r.carveLeft < size then r.newChunk upstream else r).takeFront size

/-- `do_allocate`. An empty request is one for a byte. -/
def allocate (r : PoolResource) (mem : ℕ → ℕ) (bytes align : UInt64) (upstream : ℕ) :
    ℕ × PoolResource := r.allocateSome mem (atLeastOne bytes) align upstream

/-- `do_deallocate`: the resource, and the memory with the link in it. -/
def deallocate (r : PoolResource) (mem : ℕ → ℕ) (p : ℕ) (bytes align : UInt64) :
    PoolResource × (ℕ → ℕ) :=
  let bytes := atLeastOne bytes
  if isOversized bytes align then (r, mem)
  else
    let cls := slot (classOf bytes)
    ({ r with free := Function.update r.free cls p }, Function.update mem p (r.free cls))

/-- Every chunk goes back, and with them whatever was carved from them. The counters stay. -/
def release (r : PoolResource) : PoolResource :=
  { r with chunks := [], free := fun _ => 0, carve := 0, carveLeft := 0 }

/-- What is left to carve. -/
def rest (r : PoolResource) : Region := ⟨r.carve, r.carveLeft.toNat⟩

/-- How many bytes upstream would be asked for, and how aligned. -/
def demand (r : PoolResource) (bytes align : UInt64) : Option (UInt64 × UInt64) :=
  let bytes := atLeastOne bytes
  if isOversized bytes align then some (bytes, align)
  else if r.free (slot (classOf bytes)) ≠ 0 then none
  else if r.carveLeft < blockSize (classOf bytes) then some (r.chunkBytes, kMaxAlign)
  else none

/-! ## How a request is answered

One lemma for each of the three ways: from upstream, off a list, off the chunk. Together with what
they say upstream was asked for, they are all that is used of `allocate`. -/

section Answers

variable (r : PoolResource) (mem : ℕ → ℕ) {bytes align : UInt64} (upstream : ℕ)

/-- What is too large, or aligned to more than a chunk is, is upstream's answer. -/
theorem allocate_oversized (h : isOversized (atLeastOne bytes) align = true) :
    r.allocate mem bytes align upstream = (upstream, { r with oversized := r.oversized + 1 }) ∧
      r.demand bytes align = some (atLeastOne bytes, align) := by
  rw [allocate, allocateSome, demand, if_pos h, if_pos h]
  exact ⟨rfl, rfl⟩

variable (h : isOversized (atLeastOne bytes) align = false)

include h

/-- A block on the list of the class is taken off it. -/
theorem allocate_listed (hfree : r.free (slot (classOf (atLeastOne bytes))) ≠ 0) :
    r.allocate mem bytes align upstream =
      (r.free (slot (classOf (atLeastOne bytes))), { r with
        free := Function.update r.free (slot (classOf (atLeastOne bytes)))
          (mem (r.free (slot (classOf (atLeastOne bytes)))))
        reused := r.reused + 1 }) := by
  rw [allocate, allocateSome, if_neg (Bool.eq_false_iff.mp h), if_pos hfree]

/-- With none there, the block is carved, from a new chunk if what is left is too small for it. The
size of the new chunk is not looked at. -/
theorem allocate_carved (hfree : r.free (slot (classOf (atLeastOne bytes))) = 0) :
    r.allocate mem bytes align upstream =
        (if r.carveLeft < blockSize (classOf (atLeastOne bytes)) then r.newChunk upstream
          else r).takeFront (blockSize (classOf (atLeastOne bytes))) ∧
      r.demand bytes align =
        if r.carveLeft < blockSize (classOf (atLeastOne bytes)) then some (r.chunkBytes, kMaxAlign)
          else none := by
  rw [allocate, allocateSome, demand, if_neg (Bool.eq_false_iff.mp h),
    if_neg (Bool.eq_false_iff.mp h), if_neg (not_not_intro hfree), if_neg (not_not_intro hfree)]
  exact ⟨rfl, rfl⟩

/-- What comes back is the resource with the link in the block. -/
theorem deallocate_ordinary (p : ℕ) :
    r.deallocate mem p bytes align =
      ({ r with free := Function.update r.free (slot (classOf (atLeastOne bytes))) p },
        Function.update mem p (r.free (slot (classOf (atLeastOne bytes))))) := by
  rw [deallocate, if_neg (Bool.eq_false_iff.mp h)]

end Answers

end PoolResource

/-! ## With its callers

What the pool promises is about its callers' blocks, so they are part of the state. -/

/-- A block in a caller's hands, and what it asked for. -/
structure Block where
  addr : ℕ
  bytes : UInt64
  align : UInt64
  deriving DecidableEq, Repr

namespace Block

variable (b : Block)

/-- The bytes it asked for, at least one. -/
def asked : UInt64 := PoolResource.atLeastOne b.bytes

/-- It is upstream's own. -/
def oversized : Bool := PoolResource.isOversized b.asked b.align

/-- The list it goes back to, worked out from what it asked for. -/
def cls : Fin kClasses := PoolResource.slot (PoolResource.classOf b.asked)

/-- What the block takes up: its class's size, or as much as upstream was asked for. -/
def extent : ℕ :=
  if b.oversized then b.asked.toNat
  else (PoolResource.blockSize (PoolResource.classOf b.asked)).toNat

/-- The storage it takes up. -/
def region : Region := ⟨b.addr, b.extent⟩

end Block

/-- The resource, the memory, and the blocks in its callers' hands. -/
structure Arena where
  pool : PoolResource
  /-- The word at an address. -/
  mem : ℕ → ℕ
  live : List Block

namespace Arena

/-- What the callers do. -/
inductive Act where
  /-- `upstream` is where a region would be, if one were asked for. -/
  | allocate (bytes align : UInt64) (upstream : ℕ)
  | deallocate (b : Block)
  /-- A byte is written, and every word it is part of becomes what `words` says. -/
  | write (pos : ℕ) (words : ℕ → ℕ)
  | release

/-- `PoolResource(chunk_bytes)`. -/
def start (chunkBytes : UInt64) : Arena where
  pool := { chunkBytes := chunkBytes }
  mem := fun _ => 0
  live := []

/-- One action. -/
def step (s : Arena) : Act → Arena
  | .allocate bytes align upstream =>
    let answer := s.pool.allocate s.mem bytes align upstream
    { s with pool := answer.2, live := ⟨answer.1, bytes, align⟩ :: s.live }
  | .deallocate b =>
    let answer := s.pool.deallocate s.mem b.addr b.bytes b.align
    { pool := answer.1, mem := answer.2, live := s.live.erase b }
  | .write x words =>
    { s with mem := fun a => if a ≤ x ∧ x < a + kLinkBytes then words a else s.mem a }
  | .release => { s with pool := s.pool.release, live := s.live.filter Block.oversized }

/-- The regions upstream has given out and not got back. -/
def held (s : Arena) : List Region :=
  s.pool.chunks.map Chunk.region ++ (s.live.filter Block.oversized).map Block.region

/-- What the environment does: upstream finds a region apart from those it gave out, a caller gives
back a block it holds, and nobody writes into a chunk except into such a block. -/
def Proper (s : Arena) : Act → Prop
  | .allocate bytes align upstream => ∀ want ∈ s.pool.demand bytes align,
      0 < upstream ∧ (0 < want.2.toNat → upstream % want.2.toNat = 0) ∧
        ∀ r ∈ s.held, Region.Apart ⟨upstream, want.1.toNat⟩ r
  | .deallocate b => b ∈ s.live
  | .write x _ => (∃ b ∈ s.live, b.region.Has x) ∨ ∀ c ∈ s.pool.chunks, ¬ c.region.Has x
  | .release => True

instance (s : Arena) : ∀ a : Act, Decidable (s.Proper a)
  | .allocate bytes align _ =>
    (Option.decidableForallMem _ : Decidable (∀ want ∈ s.pool.demand bytes align, _))
  | .deallocate _ => inferInstanceAs (Decidable (_ ∈ _))
  | .write _ _ => inferInstanceAs (Decidable ((∃ b ∈ _, _) ∨ ∀ c ∈ _, _))
  | .release => inferInstanceAs (Decidable True)

/-- **What is promised of the blocks**: a block that is not upstream's own lies in a chunk, aligned
to sixteen and as large as was asked; no two blocks overlap; and what is left to carve is the end
of a chunk, so its count has not wrapped. -/
structure Sound (s : Arena) : Prop where
  /-- It lies in a chunk, is as large as was asked, and is aligned. -/
  inside : ∀ b ∈ s.live, b.oversized = false →
    (∃ c ∈ s.pool.chunks, b.region.Within c.region) ∧ b.bytes.toNat ≤ b.extent ∧ b.addr % 16 = 0
  /-- No byte is in two hands. -/
  apart : s.live.Pairwise fun a b => a.region.Apart b.region
  /-- Nothing has been carved yet, or what is left ends where its chunk does. -/
  left : (s.pool.carve = 0 ∧ s.pool.carveLeft = 0) ∨
    ∃ c ∈ s.pool.chunks, s.pool.rest.Within c.region ∧ s.pool.rest.stop = c.region.stop

/-- The class of the request fits a chunk. -/
def Act.Fits (chunkBytes : UInt64) : Act → Prop
  | .allocate bytes align _ =>
    PoolResource.isOversized (PoolResource.atLeastOne bytes) align = false →
      PoolResource.blockSize (PoolResource.classOf (PoolResource.atLeastOne bytes)) ≤ chunkBytes
  | _ => True

instance (chunkBytes : UInt64) : ∀ a : Act, Decidable (a.Fits chunkBytes)
  | .allocate _ _ _ => inferInstanceAs (Decidable (_ → _))
  | .deallocate _ | .write _ _ | .release => inferInstanceAs (Decidable True)

end Arena
end Tickerplant
