import Pronto.Alloc.Bitmap
import Pronto.Alloc.GlobalAlloc

/-!
# Object allocators

An `ObjectAlloc` (`ckpt_alloc.cpp`) has one free list for every core. A request is rounded up to a
multiple of 64 with room for the header; a thread hashes to a free list. Chunks of up to a block
come from this free list, larger ones from the global allocator, in whole blocks (`big_alloc`). The
header of a chunk says to which free list it goes back; the field for the size, of 29 bits, says on
which of the two ways.
-/

namespace Pronto

/-- The global allocator with the memory, and the free lists of an object. -/
structure ObjectHeap where
  gs : GlobalState
  freeLists : List FreeList

/-- The constructor of `ObjectAlloc`: an empty free list for every core. -/
def ObjectHeap.new (gs : GlobalState) (cores : ℕ) : ObjectHeap := ⟨gs, (List.range cores).map .new⟩

/-- `ObjectAlloc::getOffset`. -/
def getOffset (threadId : BitVec 64) (totalCores : ℕ) : ℕ :=
  let key := threadId
  let key := ~~~key + (key <<< 21)
  let key := key ^^^ (key >>> 24)
  let key := (key + (key <<< 3)) + (key <<< 8)
  let key := key ^^^ (key >>> 14)
  let key := (key + (key <<< 2)) + (key <<< 4)
  let key := key ^^^ (key >>> 28)
  let key := key + (key <<< 31)
  key.toNat % totalCores

/-- The size of the chunk for a request, computed in 64 bits. -/
def chunkSizeFor (size : ℕ) : ℕ :=
  let chunkSize := (size + 8) % 2 ^ 64
  if chunkSize % alignment ≠ 0 then (chunkSize + (alignment - chunkSize % alignment)) % 2 ^ 64
  else chunkSize

/-! ## Chunks larger than a block -/

/-- The size of the region for a chunk of `size` bytes. -/
def bigAllocSize (size : ℕ) : ℕ :=
  let allocSize := size / blockSize * blockSize
  if size > allocSize then allocSize + blockSize else allocSize

/-- Write the header at `a`. -/
def GlobalState.setHeader (s : GlobalState) (a : ℕ) (header : ChunkHeader) : GlobalState :=
  { s with mem := { s.mem with
      hdr := Function.update s.mem.hdr a header
      touched := a :: s.mem.touched } }

/-- `FreeList::big_alloc` of the free list `myId`. -/
def GlobalState.bigAlloc (s : GlobalState) (myId size : ℕ) : Option (ℕ × GlobalState) := do
  let (chunk, s) ← s.alloc (bigAllocSize size)
  return (chunk, s.setHeader chunk (ChunkHeader.withSize ⟨0, myId, true, true, true, 0⟩ size))

/-- The number of blocks that `big_dealloc` computes from the size in the header. -/
def bigBlocks (size : ℕ) : ℕ := if size % blockSize ≠ 0 then size / blockSize + 1 else size / blockSize

/-- The header of a chunk that is given back. -/
def clearedHeader : ChunkHeader := ⟨0, 0, false, false, false, 0⟩

/-- `FreeList::big_dealloc`. -/
def GlobalState.bigDealloc (s : GlobalState) (chunk : ℕ) : Option GlobalState :=
  let blocks := bigBlocks (s.size chunk)
  ((s.setHeader chunk clearedHeader).mem.unsetBitmapForBigDealloc chunk blocks).bind fun mem =>
    GlobalState.release ⟨mem, s.ga⟩ chunk (blocks * blockSize)

/-! ## The operations -/

/-- `GlobalAlloc::alloc(BlockSize)`, as the free lists call it. -/
def gallocBlock (ga : GlobalAlloc) (mem : HeapMemory) : Option (ℕ × GlobalAlloc × HeapMemory) :=
  (GlobalState.alloc ⟨mem, ga⟩ blockSize).map fun r => (r.1, r.2.ga, r.2.mem)

namespace ObjectHeap

/-- The branch of `alloc` for chunks of up to a block, with free list number `c`. -/
def allocSmall (o : ObjectHeap) (c : ℕ) (fl : FreeList) (chunkSize : ℕ) : Option (ℕ × ObjectHeap) :=
  (ListState.alloc gallocBlock o.gs.ga ⟨o.gs.mem, fl⟩ chunkSize).map fun (chunk, ga, s) =>
    (chunk + 8, ⟨⟨s.mem.setBitmap chunk chunkSize, ga⟩, o.freeLists.set c s.fl⟩)

/-- The branch of `alloc` for larger chunks. -/
def allocBig (o : ObjectHeap) (fl : FreeList) (chunkSize : ℕ) : Option (ℕ × ObjectHeap) := do
  let (chunk, s) ← o.gs.bigAlloc fl.myId chunkSize
  let mem ← s.mem.setBitmapForBigAlloc chunk chunkSize
  return (chunk + 8, ⟨⟨mem, s.ga⟩, o.freeLists⟩)

/-- `ObjectAlloc::alloc` by the thread `threadId`; `none` is a failed assertion. -/
def alloc (o : ObjectHeap) (threadId : BitVec 64) (size : ℕ) : Option (ℕ × ObjectHeap) :=
  let chunkSize := chunkSizeFor size
  let c := getOffset threadId o.freeLists.length
  o.freeLists[c]?.bind fun fl =>
    if chunkSize ≤ blockSize then o.allocSmall c fl chunkSize else o.allocBig fl chunkSize

/-- `ObjectAlloc::dealloc`. -/
def dealloc (o : ObjectHeap) (ptr : ℕ) : Option ObjectHeap :=
  if ptr = 0 then some o
  else
    let chunk := ptr - 8
    let c := (o.gs.mem.hdr chunk).freeListId
    o.freeLists[c]?.bind fun fl =>
      if o.gs.size chunk ≤ blockSize then
        (ListState.dealloc ⟨o.gs.mem, fl⟩ chunk).map fun s =>
          ⟨⟨s.mem, o.gs.ga⟩, o.freeLists.set c s.fl⟩
      else (o.gs.bigDealloc chunk).map fun s => ⟨s, o.freeLists⟩

/-- `ObjectAlloc::realloc`: the pointer, or zero when the request is for more than a block. -/
def realloc (o : ObjectHeap) (ptr size : ℕ) : Option (ℕ × ObjectHeap) :=
  if ptr = 0 then some (0, o)
  else
    let newSize := chunkSizeFor size
    if newSize > blockSize then some (0, o)
    else
      let chunk := ptr - 8
      let c := (o.gs.mem.hdr chunk).freeListId
      o.freeLists[c]?.bind fun fl =>
        (ListState.realloc gallocBlock o.gs.ga ⟨o.gs.mem, fl⟩ chunk newSize).map fun (chunk, ga, s) =>
          (chunk + 8, ⟨⟨s.mem, ga⟩, o.freeLists.set c s.fl⟩)

end ObjectHeap

end Pronto
