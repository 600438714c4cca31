import Pronto.Alloc.Heap
import Pronto.Snapshot.Image

/-!
# Loading a snapshot

The parts of `Snapshot::load` that read the tables of the file: the global allocator is built from its
section, and the allocators of the objects from their records.

The free list of the global allocator is rebuilt in memory, node by node, before the pages are
restored; the buckets of the free lists are raw addresses whose chains run through the restored pages.
Two loops of `load` run over the records of the objects: the first builds the allocators, the second
looks them up again by their identifiers.
-/

namespace Pronto

open Memory Linked

/-! ## The global allocator -/

/-- Store to the field `size` of the header at `a`. -/
def storeSize (m : Mem) (a size : ℕ) : Mem :=
  store m (a + 4) (bytesLE (load m (a + 4) 4 % 8 + 8 * (size % 0x20000000)) 4)

/-- One round of the loop of `GlobalAlloc::load`: the region at `f` is linked behind `prev`. -/
def linkRegion (m : Mem) (prev f size : ℕ) : Mem :=
  let m := storeSize m f size
  let m := if prev = 0 then m else store m (prev + 16) (bytesLE f 8)
  let m := store m (f + 8) (bytesLE prev 8)
  store m (f + 16) (bytesLE 0 8)

/-- The loop of `GlobalAlloc::load`: `free_list` and the memory after `n` regions. -/
def loadRegions (file : Mem) : ℕ → ℕ → ℕ → ℕ → Mem → ℕ × Mem
  | 0, _, _, freeList, m => (freeList, m)
  | n + 1, ptr, prev, freeList, m =>
    let f := load file ptr 8
    loadRegions file n (ptr + 16) f (if prev = 0 then f else freeList)
      (linkRegion m prev f (load file (ptr + 8) 8))

/-- `GlobalAlloc::load`, in new memory. -/
def loadGlobal (h : SnapshotHeader) (file : Mem) : GlobalAlloc × Mem :=
  let poolSize := load file h.globalOffset 8
  let (freeList, m) := loadRegions file (load file (h.globalOffset + 8) 8) (h.globalOffset + 16) 0 0
    fun _ => 0
  (⟨freeList, [⟨baseAddress, poolSize⟩], false⟩, m)

/-! ## The objects -/

/-- `FreeList::load`. The blocks of the list are not part of the file. -/
def loadFreeList (file : Mem) (ptr : ℕ) : FreeList where
  myId := load file ptr 8 % 2 ^ 16
  buckets i := if i < totalAllocBuckets then load file (ptr + 8 * (4 + i)) 8 else 0
  totalAllocated := load file (ptr + 8) 8
  globalAllocs := load file (ptr + 16) 8
  chainLookups := load file (ptr + 24) 8
  blocks := []

/-- The loop of `ObjectAlloc::load` over the cores. -/
def loadFreeLists (file : Mem) : ℕ → ℕ → List FreeList
  | 0, _ => []
  | n + 1, ptr => loadFreeList file ptr :: loadFreeLists file n (ptr + freeListSnapshotSize)

/-- The identifier in the record of an allocator. -/
def loadUuid (file : Mem) (ptr : ℕ) : Uuid :=
  BitVec.ofNat 128 (load file ptr 8 + 2 ^ 64 * load file (ptr + 8) 8)

/-- `ObjectAlloc::load` on a machine with `cores` cores; `none` is a failed assertion. -/
def loadObjectAlloc (file : Mem) (cores ptr : ℕ) : Option ObjectAlloc :=
  if load file (ptr + 16) 8 = cores then
    some ⟨loadUuid file ptr, load file (ptr + 24) 8, loadFreeLists file cores (ptr + 32)⟩
  else none

/-- The first loop of `load` over the records: every cursor with what is found there, and the cursor
at the end. -/
def loadObjects (file : Mem) (cores : ℕ) : ℕ → ℕ → Option (List (ℕ × SavedObject) × ℕ)
  | 0, objCkpt => some ([], objCkpt)
  | n + 1, objCkpt => do
    let alloc ← loadObjectAlloc file cores (objCkpt + 24)
    let (rest, last) ← loadObjects file cores n (objCkpt + 24 + alloc.snapshotSize)
    return ((objCkpt, ⟨load file objCkpt 8, load file (objCkpt + 8) 8, load file (objCkpt + 16) 8,
      alloc⟩) :: rest, last)

/-- `GlobalAlloc::findAllocator`, among the allocators in the order in which they were registered. -/
def findAllocator (allocators : List ObjectAlloc) (uuid : Uuid) : Option ObjectAlloc :=
  allocators.find? fun alloc => alloc.myId = uuid

/-- The second loop of `load` over the records: every cursor with the allocator that is found, and the
cursor at the end. -/
def findObjects (file : Mem) (allocators : List ObjectAlloc) :
    ℕ → ℕ → Option (List (ℕ × ObjectAlloc) × ℕ)
  | 0, objCkpt => some ([], objCkpt)
  | n + 1, objCkpt => do
    let alloc ← findAllocator allocators (loadUuid file (objCkpt + 24))
    let (rest, last) ← findObjects file allocators n (objCkpt + 24 + alloc.snapshotSize)
    return ((objCkpt, alloc) :: rest, last)

end Pronto
