import Mathlib.Logic.Function.Basic
import Pronto.Lib.Linked
import Pronto.Log.RedoLog

/-!
# Free lists of chunks

A `FreeList` of the allocator (`ckpt_alloc.cpp`) owns blocks of 2 MB that it cuts into chunks. Every
chunk starts with a header: its size, whether it is in use, whether it is the last of its block, and
the offset of its predecessor. Free chunks are filed by size into fourteen doubly linked buckets.

`alloc` takes a chunk from the buckets, splitting it if it is too large, or gets a new block.
`dealloc` merges a chunk with the free chunks on either side. `realloc` grows a chunk into a free
successor, or moves it.

Memory is kept as the allocator sees it: at every address the header and the link words that stand
there. Headers stand at multiples of 64, so different headers do not overlap; what a new block or the
payload of a chunk holds is arbitrary. `touched` records every header that an operation reads or
writes, and `blocks` the blocks that the list owns.
-/

namespace Pronto

open Linked

/-- `FreeList::BlockSize`. -/
def blockSize : ℕ := 0x200000

/-- `ObjectAlloc::Alignment`. -/
def alignment : ℕ := 0x40

/-- `GlobalAlloc::BitmapGranularity`. -/
def bitmapGranularity : ℕ := 0x1000

/-- `GlobalAlloc::BaseAddress`. -/
def baseAddress : ℕ := 0x10000000000

/-- `TOTAL_ALLOC_BUCKETS`. -/
def totalAllocBuckets : ℕ := 14

/-- `FreeList::BucketCaps`. -/
def bucketCaps : List ℕ :=
  [0x40, 0x80, 0x100, 0x200, 0x400, 0x800, 0x1000, 0x2000, 0x4000, 0x8000, 0x10000, 0x20000,
    0x40000, uint64Max]

/-- `chunk_header_t`. -/
structure ChunkHeader where
  prevOffset : ℕ
  freeListId : ℕ
  last : Bool
  used : Bool
  jumbo : Bool
  size : ℕ
deriving DecidableEq, Repr

/-- Store to the 29-bit field `size`. -/
def ChunkHeader.withSize (h : ChunkHeader) (size : ℕ) : ChunkHeader :=
  { h with size := size % 0x20000000 }

/-- Store to `prev_offset`. -/
def ChunkHeader.withPrev (h : ChunkHeader) (prevOffset : ℕ) : ChunkHeader :=
  { h with prevOffset := prevOffset }

/-- The memory that the allocator works on, and the bitmap of allocated pages. -/
structure HeapMemory where
  hdr : ℕ → ChunkHeader
  links : Links
  bitmap : ℕ → BitVec 64
  touched : List ℕ

/-- Memory without content. -/
def HeapMemory.blank : HeapMemory := ⟨fun _ => ⟨0, 0, false, false, false, 0⟩, ⟨fun _ => 0, fun _ => 0⟩,
  fun _ => 0, []⟩

/-- A `FreeList`. -/
structure FreeList where
  myId : ℕ
  buckets : ℕ → ℕ
  totalAllocated : ℕ
  globalAllocs : ℕ
  chainLookups : ℕ
  blocks : List ℕ

/-- A free list and the memory. -/
structure ListState where
  mem : HeapMemory
  fl : FreeList

/-- The constructor `FreeList(id)`. -/
def FreeList.new (id : ℕ) : FreeList := ⟨id, fun _ => 0, 0, 0, 0, []⟩

/-! ## The page bitmap -/

/-- The bit of a page. -/
def HeapMemory.pageBit (m : HeapMemory) (page : ℕ) : Bool :=
  (m.bitmap (page / 64)).getLsbD (page % 64)

/-- The loop of `setBitmap` and `unsetBitmap` over the pages from `alignedPtr` to `limit`. -/
def bitmapLoop (set : Bool) (limit : ℕ) :
    ℕ → ℕ → (ℕ → BitVec 64) → ℕ → BitVec 64
  | 0, _, bitmap => bitmap
  | fuel + 1, alignedPtr, bitmap =>
    if alignedPtr < limit then
      let pageOffset := (alignedPtr - baseAddress) / 0x1000
      let bit : BitVec 64 := 1#64 <<< (pageOffset % 64)
      let cell := bitmap (pageOffset / 64)
      bitmapLoop set limit fuel (alignedPtr + bitmapGranularity)
        (Function.update bitmap (pageOffset / 64) (if set then cell ||| bit else cell &&& ~~~bit))
    else bitmap

/-- `GlobalAlloc::setBitmap` and `GlobalAlloc::unsetBitmap`; the end is computed in 64 bits. -/
def HeapMemory.markPages (m : HeapMemory) (set : Bool) (ptr size : ℕ) : HeapMemory :=
  let limit := (ptr + size) % 2 ^ 64
  let alignedPtr := ptr / bitmapGranularity * bitmapGranularity
  { m with bitmap := bitmapLoop set limit (size / bitmapGranularity + 2) alignedPtr m.bitmap }

/-- `GlobalAlloc::setBitmap`. -/
def HeapMemory.setBitmap (m : HeapMemory) (ptr size : ℕ) : HeapMemory := m.markPages true ptr size

/-- `GlobalAlloc::unsetBitmap`. -/
def HeapMemory.unsetBitmap (m : HeapMemory) (ptr size : ℕ) : HeapMemory := m.markPages false ptr size

/-! ## Headers -/

namespace ListState

/-- The header at `a`. -/
def hdr (s : ListState) (a : ℕ) : ChunkHeader := s.mem.hdr a

/-- Read the header at `a`. -/
def touch (s : ListState) (a : ℕ) : ListState :=
  { s with mem := { s.mem with touched := a :: s.mem.touched } }

/-- Write the header at `a`. -/
def modify (s : ListState) (a : ℕ) (f : ChunkHeader → ChunkHeader) : ListState :=
  { s with mem := { s.mem with
      hdr := Function.update s.mem.hdr a (f (s.mem.hdr a))
      touched := a :: s.mem.touched } }

end ListState

/-- `FreeList::findBucket`. -/
def findBucket (size : ℕ) : ℕ := bucketCaps.findIdx fun cap => decide (size ≤ cap)

/-- `FreeList::chunkOffset`. -/
def chunkOffset (chunk : ℕ) : ℕ := chunk % blockSize / 64

/-- `FreeList::isLastChunkOfBlock`. -/
def isLastChunkOfBlock (chunk size : ℕ) : Bool := chunk % blockSize + size == blockSize

/-- `FreeList::prevChunk`. -/
def ListState.prevChunk (s : ListState) (chunk : ℕ) : ℕ :=
  let offset := chunkOffset chunk
  if offset = 0 then 0 else chunk - 64 * offset + 64 * (s.hdr chunk).prevOffset

/-- `FreeList::nextChunk`. -/
def ListState.nextChunk (s : ListState) (chunk : ℕ) : ℕ :=
  if (s.hdr chunk).last then 0 else chunk + (s.hdr chunk).size

/-! ## Buckets -/

namespace ListState

/-- Take `chunk` out of a bucket: its neighbours in the bucket are linked with each other. -/
def unlinkFrom (s : ListState) (bucket chunk : ℕ) : ListState :=
  let links := s.mem.links
  let s := s.touch chunk
  let s := if links.prev chunk ≠ 0 then s.touch (links.prev chunk) else s
  let s := if links.next chunk ≠ 0 then s.touch (links.next chunk) else s
  ⟨{ s.mem with links := links.unlink chunk },
    { s.fl with
      buckets := Function.update s.fl.buckets bucket
        (links.headAfter (s.fl.buckets bucket) chunk) }⟩

/-- `FreeList::removeChunkFromBuckets`. -/
def removeChunkFromBuckets (s : ListState) (chunk : ℕ) : ListState :=
  s.unlinkFrom (findBucket (s.hdr chunk).size) chunk

/-- `FreeList::addFreeChunk`. -/
def addFreeChunk (s : ListState) (ptr size : ℕ) : ListState :=
  let bucket := findBucket size
  let head := s.fl.buckets bucket
  let s := s.touch ptr
  let s := if head ≠ 0 then s.touch head else s
  ⟨{ s.mem with links := s.mem.links.push head ptr },
    { s.fl with buckets := Function.update s.fl.buckets bucket ptr }⟩

/-- A bound on the number of chunks of the list. -/
def maxChunks (s : ListState) : ℕ := s.fl.blocks.length * (blockSize / 64)

/-- The inner loop of `findBestMatch`: the first chunk from `fc` on that is large enough, or zero.
The counter of lookups is part of the loop condition. -/
def searchBucket (size : ℕ) : ℕ → ListState → ℕ → Option (ℕ × ListState)
  | 0, _, _ => none
  | fuel + 1, s, fc =>
    let chainLookups := (s.fl.chainLookups + 1) % 2 ^ 64
    let s := { s with fl := { s.fl with chainLookups := chainLookups } }
    if chainLookups ≠ 0 ∧ fc ≠ 0 then
      let s := s.touch fc
      if size ≤ (s.hdr fc).size then some (fc, s)
      else searchBucket size fuel s (s.mem.links.next fc)
    else some (0, s)

/-- The outer loop of `findBestMatch`: the bucket and the chunk that was found. -/
def searchBuckets (size : ℕ) : List ℕ → ListState → Option (Option (ℕ × ℕ) × ListState)
  | [], s => some (none, s)
  | bucket :: rest, s =>
    match searchBucket size (s.maxChunks + 1) s (s.fl.buckets bucket) with
    | none => none
    | some (fc, s) => if fc ≠ 0 then some (some (bucket, fc), s) else searchBuckets size rest s

/-- The search of `findBestMatch`, from the bucket for `size` upwards. -/
def search (s : ListState) (size : ℕ) : Option (Option (ℕ × ℕ) × ListState) :=
  searchBuckets size (List.range' (findBucket size) (totalAllocBuckets - findBucket size)) s

/-- The remainder stays in its bucket: the end of `fc` becomes the chunk. -/
def splitBack (s : ListState) (fc remainder : ℕ) : ℕ × ListState :=
  let chunk := fc + remainder
  let s := s.modify chunk fun h => { h with prevOffset := chunkOffset fc, used := false }
  let s := if !(s.hdr fc).last then
      s.modify (s.nextChunk fc) fun h => h.withPrev (chunkOffset chunk)
    else s
  (chunk, s.modify fc fun h => { h.withSize remainder with last := false })

/-- The remainder moves to another bucket: the front of `fc` becomes the chunk. The flag `last` of
the remainder is computed from the size that stands in its header before it is written. -/
def splitFront (s : ListState) (bucket fc size remainder : ℕ) : ℕ × ListState :=
  let chunk := fc
  let s := s.unlinkFrom bucket fc
  if remainder > 0 then
    let fc := fc + size
    let s := s.modify fc fun h =>
      { h.withSize remainder with
        prevOffset := chunkOffset chunk
        freeListId := s.fl.myId
        last := isLastChunkOfBlock fc h.size
        used := false }
    let s := if !(s.hdr fc).last then
        s.modify (fc + (s.hdr fc).size) fun h => h.withPrev (chunkOffset fc)
      else s
    (chunk, s.addFreeChunk fc (s.hdr fc).size)
  else (chunk, s)

/-- The branch of `findBestMatch` that keeps the remainder in its bucket. -/
def staysInBucket (bucket remainder : ℕ) : Bool :=
  decide (bucket > 0) && decide (remainder > bucketCaps.getD (bucket - 1) 0)

/-- `FreeList::findBestMatch`: the chunk, or zero. -/
def findBestMatch (s : ListState) (size : ℕ) : Option (ℕ × ListState) :=
  match s.search size with
  | none => none
  | some (none, s) => some (0, s)
  | some (some (bucket, fc), s) =>
    let remainder := (s.hdr fc).size - size
    let (chunk, s) := if staysInBucket bucket remainder then s.splitBack fc remainder
      else s.splitFront bucket fc size remainder
    if (s.hdr chunk).used = false then some (chunk, s.touch chunk) else none

/-! ## Allocation -/

/-- A block from the global allocator becomes a chunk of `size` bytes and a free chunk. -/
def addBlock (s : ListState) (block size : ℕ) : ListState :=
  let s := { s with fl := { s.fl with
    blocks := block :: s.fl.blocks
    globalAllocs := s.fl.globalAllocs + 1 } }
  let s := s.modify block fun h => { h with prevOffset := 0, used := false }
  if size < blockSize then
    let fc := block + size
    let s := s.modify fc fun h =>
      { h.withSize (blockSize - size) with
        prevOffset := 0
        freeListId := s.fl.myId
        last := true
        used := false }
    s.addFreeChunk fc (s.hdr fc).size
  else s

/-- The end of `alloc`: the chunk is in use. -/
def markUsed (s : ListState) (chunk size : ℕ) : ListState :=
  let s := s.modify chunk fun h =>
    { h.withSize size with
      freeListId := s.fl.myId
      last := isLastChunkOfBlock chunk size
      used := true }
  { s with fl := { s.fl with totalAllocated := s.fl.totalAllocated + size } }

variable {γ : Type*}

/-- `FreeList::alloc`; `galloc` is `GlobalAlloc::alloc(BlockSize)`, with the state of the global
allocator. `none` is a failed assertion. -/
def alloc (galloc : γ → HeapMemory → Option (ℕ × γ × HeapMemory)) (g : γ) (s : ListState)
    (size : ℕ) : Option (ℕ × γ × ListState) :=
  match s.findBestMatch size with
  | none => none
  | some (chunk, s) =>
    if chunk ≠ 0 then some (chunk, g, s.markUsed chunk size)
    else
      match galloc g s.mem with
      | none => none
      | some (block, g, mem) =>
        if block ≠ 0 then
          some (block, g, (ListState.addBlock ⟨mem, s.fl⟩ block size).markUsed block size)
        else none

/-! ## Deallocation -/

/-- `freeAndCoalesce`, the part for a free predecessor. -/
def coalescePrev (s : ListState) (prev chunk next : ℕ) : ListState :=
  let s := s.removeChunkFromBuckets prev
  let s := s.touch chunk
  let s := s.modify prev fun h =>
    { h.withSize (h.size + (s.hdr chunk).size) with last := (s.hdr chunk).last }
  if next ≠ 0 then
    let s := s.touch next
    if (s.hdr next).used then s.modify next fun h => h.withPrev (chunkOffset prev) else s
  else s

/-- `freeAndCoalesce`, the part for a free successor. -/
def coalesceNext (s : ListState) (chunk next : ℕ) : ListState :=
  let s := s.removeChunkFromBuckets next
  let s := s.modify chunk fun h =>
    { h.withSize (h.size + (s.hdr next).size) with last := (s.hdr next).last }
  if !(s.hdr chunk).last then
    s.modify (s.nextChunk chunk) fun h => h.withPrev (chunkOffset chunk)
  else s

/-- `FreeList::freeAndCoalesce`. -/
def freeAndCoalesce (s : ListState) (chunk : ℕ) : ℕ × ListState :=
  let prev := s.prevChunk chunk
  let next := s.nextChunk chunk
  let s := s.modify chunk fun h => { h with used := false }
  if prev = 0 ∧ next = 0 then (chunk, s)
  else
    let s := if prev ≠ 0 then s.touch prev else s
    let (chunk, s) := if prev ≠ 0 ∧ (s.hdr prev).used = false then
        (prev, s.coalescePrev prev chunk next)
      else (chunk, s)
    let s := if next ≠ 0 then s.touch next else s
    if next ≠ 0 ∧ (s.hdr next).used = false then (chunk, s.coalesceNext chunk next) else (chunk, s)

/-- The end of `dealloc`: clear the pages that only the chunk kept set. The bounds are those of the
chunk, rounded inwards where the merged chunk `fc` does not cover the whole page, and their
difference is unsigned. -/
def unsetFreed (m : HeapMemory) (chunk chunkSize fc fcSize : ℕ) : HeapMemory :=
  if fcSize < bitmapGranularity then m
  else
    let lb := chunk / bitmapGranularity * bitmapGranularity
    let ub := (chunk + chunkSize) / bitmapGranularity * bitmapGranularity
    let lb := if lb < fc then lb + bitmapGranularity else lb
    let ub := if ub + bitmapGranularity ≤ fc + fcSize then ub + bitmapGranularity else ub
    let size := (ub + 2 ^ 64 - lb) % 2 ^ 64
    if size > 0 then m.unsetBitmap lb size else m

/-- `FreeList::dealloc`; `none` is a failed assertion. -/
def dealloc (s : ListState) (chunk : ℕ) : Option ListState :=
  if (s.hdr chunk).used then
    let chunkSize := (s.hdr chunk).size
    let (fc, s) := s.touch chunk |>.freeAndCoalesce chunk
    let s := s.addFreeChunk fc (s.hdr fc).size
    if s.fl.totalAllocated ≥ chunkSize then
      some ⟨unsetFreed s.mem chunk chunkSize fc (s.hdr fc).size,
        { s.fl with totalAllocated := s.fl.totalAllocated - chunkSize }⟩
    else none
  else none

/-! ## Reallocation -/

/-- `memcpy` of the payload of a chunk of `len` bytes: everything but the first eight bytes. -/
def copyPayload (s : ListState) (src dst len : ℕ) : ListState :=
  { s with mem := { s.mem with
      hdr := fun a => if dst < a ∧ a < dst + len then s.mem.hdr (a - dst + src) else s.mem.hdr a
      links :=
        ⟨fun a => if dst ≤ a ∧ a < dst + len then s.mem.links.prev (a - dst + src)
          else s.mem.links.prev a,
        fun a => if dst ≤ a ∧ a < dst + len then s.mem.links.next (a - dst + src)
          else s.mem.links.next a⟩ } }

/-- The branch of `realloc` that grows `chunk` into its free successor `fc`. -/
def extend (s : ListState) (chunk fc newSize : ℕ) : ListState :=
  let increase := newSize - (s.hdr chunk).size
  let s := s.removeChunkFromBuckets fc
  let next := s.nextChunk fc
  let s := if (s.hdr fc).size > increase then
      -- the header of the remainder is a copy of the old one
      let header := s.hdr fc
      let fc := fc + increase
      let s := s.modify fc fun _ => header.withSize (header.size - increase)
      let s := if next ≠ 0 then s.modify next fun h => h.withPrev (chunkOffset fc) else s
      s.addFreeChunk fc (s.hdr fc).size
    else
      let s := if next ≠ 0 then s.modify next fun h => h.withPrev (s.hdr fc).prevOffset else s
      s.modify chunk fun h => { h with last := (s.hdr fc).last }
  let s := { s with mem := s.mem.setBitmap (chunk + (s.hdr chunk).size) increase }
  s.modify chunk fun h => h.withSize newSize

/-- `FreeList::realloc`; `none` is a failed assertion. -/
def realloc (galloc : γ → HeapMemory → Option (ℕ × γ × HeapMemory)) (g : γ) (s : ListState)
    (chunk newSize : ℕ) : Option (ℕ × γ × ListState) :=
  let s := s.touch chunk
  if newSize ≤ (s.hdr chunk).size then some (chunk, g, s)
  else
    let increase := newSize - (s.hdr chunk).size
    let next := s.nextChunk chunk
    let s := if next ≠ 0 then s.touch next else s
    if next = 0 ∨ (s.hdr next).used ∨ (s.hdr next).size < increase then
      match s.alloc galloc g newSize with
      | none => none
      | some (newChunk, g, s) =>
        match (s.copyPayload chunk newChunk (s.hdr chunk).size).dealloc chunk with
        | none => none
        | some s => some (newChunk, g, { s with mem := s.mem.setBitmap newChunk newSize })
    else some (chunk, g, s.extend chunk next newSize)

end ListState

end Pronto
