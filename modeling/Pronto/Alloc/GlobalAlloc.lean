import Pronto.Alloc.FreeList
import Pronto.Lib.Runs

/-!
# The global allocator

`GlobalAlloc` (`ckpt_alloc.cpp`) maps pools of memory one behind the other and hands out regions of
them, in whole blocks. Free regions form a doubly linked list whose nodes stand at the start of the
regions themselves; a node's size is the 29-bit field of the chunk header.

* `alloc` takes the end of the first region that is large enough, or maps a new pool.
* `release` puts a region in front of the list and merges it with free neighbours.
* `save` is what a snapshot keeps of the allocator.

Every mapping request is granted at the requested address. `truncated` records whether a size did
not fit into its field.
-/

namespace Pronto

open Linked

/-- `GlobalAlloc::MinPoolSize`. -/
def minPoolSize : ℕ := 0x10000000

/-- `GlobalAlloc::MaxMemorySize`. -/
def maxMemorySize : ℕ := 0x10000000000

/-- Sizes below this one fit into the field `size` of a header. -/
def sizeLimit : ℕ := 0x20000000

/-- `memory_region_t`. -/
structure MemoryRegion where
  ptr : ℕ
  size : ℕ
deriving DecidableEq, Repr

/-- The list of free regions and the pools, in the order in which they were mapped. -/
structure GlobalAlloc where
  freeList : ℕ
  mappedRegions : List MemoryRegion
  truncated : Bool

/-- The global allocator and the memory. -/
structure GlobalState where
  mem : HeapMemory
  ga : GlobalAlloc

namespace GlobalState

/-- The field `size` at `a`. -/
def size (s : GlobalState) (a : ℕ) : ℕ := (s.mem.hdr a).size

/-- Store to the field `size` at `a`. -/
def setSize (s : GlobalState) (a size : ℕ) : GlobalState :=
  ⟨{ s.mem with hdr := Function.update s.mem.hdr a ((s.mem.hdr a).withSize size) },
    { s.ga with truncated := s.ga.truncated || decide (sizeLimit ≤ size) }⟩

@[simp] theorem size_setSize_self (s : GlobalState) (a size : ℕ) :
    (s.setSize a size).size a = size % sizeLimit := by
  simp [GlobalState.size, setSize, ChunkHeader.withSize, sizeLimit]

theorem size_setSize_of_ne (s : GlobalState) {a b : ℕ} (size : ℕ) (h : b ≠ a) :
    (s.setSize a size).size b = s.size b := by
  simp [GlobalState.size, setSize, h]

@[simp] theorem links_setSize (s : GlobalState) (a size : ℕ) :
    (s.setSize a size).mem.links = s.mem.links := rfl

@[simp] theorem freeList_setSize (s : GlobalState) (a size : ℕ) :
    (s.setSize a size).ga.freeList = s.ga.freeList := rfl

@[simp] theorem mappedRegions_setSize (s : GlobalState) (a size : ℕ) :
    (s.setSize a size).ga.mappedRegions = s.ga.mappedRegions := rfl

@[simp] theorem truncated_setSize (s : GlobalState) (a size : ℕ) :
    (s.setSize a size).ga.truncated = true ↔ s.ga.truncated = true ∨ sizeLimit ≤ size := by
  simp [setSize]

/-- Insert a region in front of the free list. -/
def pushFree (s : GlobalState) (t size : ℕ) : GlobalState :=
  let s := s.setSize t size
  ⟨{ s.mem with links := s.mem.links.push s.ga.freeList t }, { s.ga with freeList := t }⟩

/-- The end of the last pool. -/
def limit (s : GlobalState) : ℕ :=
  match s.ga.mappedRegions.getLast? with
  | some region => region.ptr + region.size
  | none => baseAddress

/-- `GlobalAlloc::allocatedBlocks`. -/
def allocatedBlocks (s : GlobalState) : ℕ := (s.limit - baseAddress) / blockSize

/-- The constructor without a snapshot, on memory with arbitrary contents: one pool, which is
free. -/
def new (mem : HeapMemory) : GlobalState :=
  (⟨mem, ⟨0, [⟨baseAddress, minPoolSize⟩], false⟩⟩ : GlobalState).pushFree baseAddress minPoolSize

/-! ## `alloc` -/

/-- The loop of `alloc` from `head` on: the first region that is large enough, or zero. -/
def searchFree (s : GlobalState) (size : ℕ) : ℕ → ℕ → Option ℕ
  | 0, _ => none
  | fuel + 1, head =>
    if head = 0 then some 0
    else if s.size head < size then searchFree s size fuel (s.mem.links.next head)
    else some head

/-- Take `size` bytes off the end of the region at `head`; an empty region leaves the list. -/
def takeFrom (s : GlobalState) (head size : ℕ) : ℕ × GlobalState :=
  let s := s.setSize head (s.size head - size)
  let ptr := head + s.size head
  if s.size head = 0 then
    let links := s.mem.links
    let links := if links.next head ≠ 0 then links.setPrev (links.next head) (links.prev head)
      else links
    if links.prev head ≠ 0 then
      (ptr, ⟨{ s.mem with links := links.setNext (links.prev head) (links.next head) }, s.ga⟩)
    else (ptr, ⟨{ s.mem with links := links }, { s.ga with freeList := links.next head }⟩)
  else (ptr, s)

/-- The loop that doubles the size of a new pool. -/
def poolSize (size : ℕ) : ℕ → ℕ → Option ℕ
  | 0, _ => none
  | fuel + 1, allocSize =>
    if allocSize < size then poolSize size fuel (allocSize * 2 % 2 ^ 64) else some allocSize

/-- Map a new pool and take `size` bytes off its end. -/
def mapPool (s : GlobalState) (size : ℕ) : Option (ℕ × GlobalState) := do
  let lastRegion ← s.ga.mappedRegions.getLast?
  let allocSize ← poolSize size 64 minPoolSize
  let newRegion : MemoryRegion := ⟨lastRegion.ptr + lastRegion.size, allocSize⟩
  let s := { s with ga := { s.ga with mappedRegions := s.ga.mappedRegions ++ [newRegion] } }
  let ptr := newRegion.ptr + newRegion.size - size
  if newRegion.size - size > 0 then
    some (ptr, s.pushFree newRegion.ptr (newRegion.size - size))
  else some (ptr, s)

/-- The part of `alloc` under the mutex, with the value of `free_list` that was read before; the
search ends within `fuel` nodes. -/
def allocFrom (s : GlobalState) (fuel head size : ℕ) : Option (ℕ × GlobalState) := do
  let found ← s.searchFree size fuel head
  if found ≠ 0 then some (s.takeFrom found size) else s.mapPool size

/-- `GlobalAlloc::alloc`. -/
def alloc (s : GlobalState) (size : ℕ) : Option (ℕ × GlobalState) :=
  s.allocFrom (s.allocatedBlocks + 1) s.ga.freeList size

/-! ## `release` -/

/-- The inner loop of `tryMergingRegions` from `t` on: a region next to `r`, or zero. -/
def findNeighbour (s : GlobalState) (r : ℕ) : ℕ → ℕ → Option ℕ
  | 0, _ => none
  | fuel + 1, t =>
    if t = 0 then some 0
    else if t = r then findNeighbour s r fuel (s.mem.links.next t)
    else if t ≠ r + s.size r ∧ r ≠ t + s.size t then
      findNeighbour s r fuel (s.mem.links.next t)
    else some t

/-- Extend the region `c` to include its successor `r`, which leaves the list. -/
def merge (s : GlobalState) (c r : ℕ) : GlobalState :=
  let s := s.setSize c (s.size c + s.size r)
  ⟨{ s.mem with links := s.mem.links.unlink r },
    { s.ga with freeList := s.mem.links.headAfter s.ga.freeList r }⟩

/-- `GlobalAlloc::tryMergingRegions`. -/
def tryMergingRegions : ℕ → GlobalState → ℕ → Option GlobalState
  | 0, _, _ => none
  | fuel + 1, s, r => do
    let c ← s.findNeighbour r (s.allocatedBlocks + 1) s.ga.freeList
    if c = 0 then some s
    else if r < c then tryMergingRegions fuel (s.merge r c) r
    else tryMergingRegions fuel (s.merge c r) c

/-- `GlobalAlloc::release`. -/
def release (s : GlobalState) (ptr size : ℕ) : Option GlobalState :=
  let s := s.pushFree ptr size
  tryMergingRegions (s.allocatedBlocks + 1) s ptr

/-! ## The free list as `save` walks it -/

/-- The regions on the free list from `f` on. -/
def walkFree (s : GlobalState) : ℕ → ℕ → List MemoryRegion
  | 0, _ => []
  | fuel + 1, f =>
    if f = 0 then [] else ⟨f, s.size f⟩ :: walkFree s fuel (s.mem.links.next f)

/-- The regions on the free list. -/
def freeRegions (s : GlobalState) : List MemoryRegion :=
  s.walkFree (s.allocatedBlocks + 1) s.ga.freeList

/-- The sum of the sizes of the pools. -/
def totalMapped (s : GlobalState) : ℕ := (s.ga.mappedRegions.map MemoryRegion.size).sum

end GlobalState

end Pronto
