import Pronto.Alloc.GlobalAlloc

/-!
# The snapshot file

A snapshot file (`snapshot.cpp`) has a header, the page bitmap, the state of the global allocator,
one record for every persistent object, and the pages. `prepareSnapshot` computes where the sections
start before anything is saved, and `extendSnapshot` adds the space for the pages.

The functions that write the file are modelled by what they store and where: words of the tables as
`WordStore`, and what is copied from memory as `Copy`.
-/

namespace Pronto

/-! ## Section sizes -/

/-- `sizeof(snapshot_header_t)`. -/
def snapshotHeaderSize : ℕ := 64

/-- `GlobalAlloc::bitmapSize`. -/
def bitmapSize : ℕ := maxMemorySize / bitmapGranularity / 8

/-- `GlobalAlloc::snapshotSize`. -/
def globalSnapshotSize : ℕ := 8 + 8 + minPoolSize / 2 ^ 21 * 2

/-- `FreeList::snapshotSize`. -/
def freeListSnapshotSize : ℕ := 8 + 8 + 8 + 8 + totalAllocBuckets * 8

/-- An `ObjectAlloc`: its identifier, its own address, and one free list for every core. -/
structure ObjectAlloc where
  myId : Uuid
  this : ℕ
  freeLists : List FreeList

/-- `ObjectAlloc::snapshotSize`. -/
def ObjectAlloc.snapshotSize (oa : ObjectAlloc) : ℕ :=
  16 + 8 + 8 + oa.freeLists.length * freeListSnapshotSize

/-- What a snapshot keeps of a persistent object. -/
structure SavedObject where
  lastCommit : ℕ
  tail : ℕ
  ptr : ℕ
  alloc : ObjectAlloc

/-- The length of an object's record. -/
def SavedObject.recordSize (o : SavedObject) : ℕ := 8 + 8 + 8 + o.alloc.snapshotSize

/-- The fields of `snapshot_header_t` that say where the sections are. -/
structure SnapshotHeader where
  size : ℕ
  objectCount : ℕ
  bitmapOffset : ℕ
  globalOffset : ℕ
  allocOffset : ℕ
  dataOffset : ℕ
deriving DecidableEq, Repr

/-- The length of the sections in front of the pages. -/
def tablesSize (objects : List SavedObject) : ℕ :=
  let snapshotSize := snapshotHeaderSize + bitmapSize + globalSnapshotSize +
    (objects.map SavedObject.recordSize).sum
  if snapshotSize % 64 ≠ 0 then snapshotSize + (64 - snapshotSize % 64) else snapshotSize

/-- The header that `prepareSnapshot` writes. -/
def prepareSnapshot (objects : List SavedObject) : SnapshotHeader :=
  let bitmapOffset := snapshotHeaderSize
  let globalOffset := bitmapOffset + bitmapSize
  { size := tablesSize objects
    objectCount := objects.length
    bitmapOffset := bitmapOffset
    globalOffset := globalOffset
    allocOffset := globalOffset + globalSnapshotSize
    dataOffset := tablesSize objects }

/-- `extendSnapshot`: space for the given number of blocks. -/
def SnapshotHeader.extend (h : SnapshotHeader) (allocatedBlocks : ℕ) : SnapshotHeader :=
  { h with size := h.size + allocatedBlocks * blockSize }

/-- The header of `create` when the tables are saved: the space is computed from the blocks that are
allocated before the freeze, with one pool of slack. -/
def snapshotHeader (objects : List SavedObject) (allocatedBlocks : ℕ) : SnapshotHeader :=
  (prepareSnapshot objects).extend (allocatedBlocks + minPoolSize / blockSize)

/-! ## The tables -/

/-- A store of a 64-bit word into the file. -/
structure WordStore where
  offset : ℕ
  value : ℕ
deriving DecidableEq, Repr

/-- The loop of `GlobalAlloc::save` over the free list. -/
def saveRegions : ℕ → List MemoryRegion → List WordStore
  | _, [] => []
  | ptr, m :: ms => ⟨ptr, m.ptr⟩ :: ⟨ptr + 8, m.size⟩ :: saveRegions (ptr + 16) ms

/-- `GlobalAlloc::save`. -/
def GlobalState.save (s : GlobalState) (nvm : ℕ) : List WordStore :=
  ⟨nvm, s.totalMapped⟩ :: ⟨nvm + 8, s.freeRegions.length⟩ :: saveRegions (nvm + 16) s.freeRegions

/-- `FreeList::save`. -/
def FreeList.save (fl : FreeList) (nvm : ℕ) : List WordStore :=
  [⟨nvm, fl.myId⟩, ⟨nvm + 8, fl.totalAllocated⟩, ⟨nvm + 16, fl.globalAllocs⟩,
    ⟨nvm + 24, fl.chainLookups⟩] ++
    (List.range totalAllocBuckets).map fun i => ⟨nvm + 8 * (4 + i), fl.buckets i⟩

/-- The loop of `ObjectAlloc::save` over the cores. -/
def saveFreeLists : ℕ → List FreeList → List WordStore
  | _, [] => []
  | ptr, fl :: fls => fl.save ptr ++ saveFreeLists (ptr + freeListSnapshotSize) fls

/-- `ObjectAlloc::save`. -/
def ObjectAlloc.save (oa : ObjectAlloc) (nvm : ℕ) : List WordStore :=
  [⟨nvm, oa.myId.toNat % 2 ^ 64⟩, ⟨nvm + 8, oa.myId.toNat / 2 ^ 64⟩, ⟨nvm + 16, oa.freeLists.length⟩,
    ⟨nvm + 24, oa.this⟩] ++ saveFreeLists (nvm + 32) oa.freeLists

/-- The loop of `saveAllocationTables` over the objects. -/
def saveObjects : ℕ → List SavedObject → List WordStore
  | _, [] => []
  | snapshot, o :: os =>
    [⟨snapshot, o.lastCommit⟩, ⟨snapshot + 8, o.tail⟩, ⟨snapshot + 16, o.ptr⟩] ++
      o.alloc.save (snapshot + 24) ++ saveObjects (snapshot + 24 + o.alloc.snapshotSize) os

/-! ## Copies -/

/-- Copy `len` bytes. -/
structure Copy where
  dst : ℕ
  src : ℕ
  len : ℕ
deriving DecidableEq, Repr

/-- The loop of `GlobalAlloc::saveBitmap`, sixteen vectors of sixteen bytes at a time; `src` and
`limit` count vectors. -/
def saveBitmapLoop (limit : ℕ) : ℕ → ℕ → ℕ → List Copy
  | 0, _, _ => []
  | fuel + 1, src, dst =>
    if src < limit then
      ((List.range 16).map fun i => ⟨dst + 16 * i, 16 * (src + i), 16⟩) ++
        saveBitmapLoop limit fuel (src + 16) (dst + 256)
    else []

/-- `GlobalAlloc::saveBitmap`, with sources as offsets into `alloc_bitmap`. -/
def saveBitmap (nvm : ℕ) : List Copy :=
  saveBitmapLoop (bitmapSize / 16) (bitmapSize / 16) 0 nvm

/-- The pages of one word of the bitmap: all of a page whose bit is set, and the first cache line of
any other page. -/
def copyCell : ℕ → BitVec 64 → ℕ → ℕ → List Copy
  | 0, _, _, _ => []
  | n + 1, bit, src, dst =>
    ⟨dst, src, if bit.getLsbD 0 then bitmapGranularity else 64⟩ ::
      copyCell n (bit >>> 1) (src + bitmapGranularity) (dst + bitmapGranularity)

/-- The pages of `n` words of the bitmap, from word `cell` on. -/
def copyCells (bitmap : ℕ → BitVec 64) : ℕ → ℕ → ℕ → ℕ → List Copy
  | 0, _, _, _ => []
  | n + 1, cell, src, dst =>
    copyCell 64 (bitmap cell) src dst ++
      copyCells bitmap n (cell + 1) (src + 64 * bitmapGranularity) (dst + 64 * bitmapGranularity)

/-- The loop of `snapshotWorker` over `length` blocks; `won b` says whether the worker's CAS on block
`b` succeeds. -/
def workerLoop (bitmap : ℕ → BitVec 64) (won : ℕ → Bool) : ℕ → ℕ → ℕ → ℕ → List Copy
  | 0, _, _, _ => []
  | length + 1, b, src, dst =>
    (if won b then copyCells bitmap 8 (b * 8) src dst else []) ++
      workerLoop bitmap won length (b + 1) (src + blockSize) (dst + blockSize)

/-- `Snapshot::snapshotWorker`. -/
def snapshotWorker (h : SnapshotHeader) (bitmap : ℕ → BitVec 64) (won : ℕ → Bool)
    (offset length : ℕ) : List Copy :=
  workerLoop bitmap won length offset (baseAddress + offset * blockSize)
    (h.dataOffset + offset * blockSize)

/-- `Snapshot::pageFaultHandler` for `addr`, when its CAS succeeds. -/
def pageFaultHandler (h : SnapshotHeader) (bitmap : ℕ → BitVec 64) (addr : ℕ) : List Copy :=
  let alignedAddr := addr / blockSize * blockSize
  let offset := (alignedAddr - baseAddress) / blockSize
  copyCells bitmap 8 (offset * 512 / 64) alignedAddr (h.dataOffset + offset * blockSize)

/-- `SnapshotThreads`. -/
def snapshotThreads : ℕ := 4

/-- The copies of the workers that `saveModifiedPages` starts. -/
def saveModifiedPages (h : SnapshotHeader) (bitmap : ℕ → BitVec 64) (won : ℕ → Bool)
    (allocatedBlocks : ℕ) : List Copy :=
  (List.range snapshotThreads).flatMap fun i =>
    snapshotWorker h bitmap won (i * (allocatedBlocks / snapshotThreads))
      (allocatedBlocks / snapshotThreads)

/-- `markPagesReadOnly` marks a block as used when one of its eight words is not zero. -/
def blockUsed (bitmap : ℕ → BitVec 64) (b : ℕ) : Bool :=
  (List.range 8).any fun i => bitmap (b * 8 + i) != 0

end Pronto
