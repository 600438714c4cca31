import Pronto.Lib.Memory
import Pronto.Snapshot.Sections

/-!
# The bytes of a snapshot

What `create` leaves in the file, byte for byte, and what the restore threads of `load` copy back.
The heap is a byte memory here; `heapAt` reads the headers and links of the allocator out of it.

`writeFile` saves the tables and then copies the pages of every block in use, where `faults` says
which blocks a fault handler copies. `restore` runs the restore threads over the file.
-/

namespace Pronto

open Memory Linked

/-! ## Stores and copies -/

/-- Copy from `src` to `dst`. -/
def Copy.apply (c : Copy) (src dst : Mem) : Mem :=
  fun x => if c.dst ≤ x ∧ x < c.dst + c.len then src (c.src + (x - c.dst)) else dst x

/-- Copies from `src` to `dst`, one after the other. -/
def applyCopies (src dst : Mem) (cs : List Copy) : Mem := cs.foldl (fun dst c => c.apply src dst) dst

/-- Stores of words, one after the other. -/
def applyStores (file : Mem) (ws : List WordStore) : Mem :=
  ws.foldl (fun file w => store file w.offset (bytesLE w.value 8)) file

/-! ## The file -/

/-- The bytes of `alloc_bitmap`. -/
def bitmapBytes (bitmap : ℕ → BitVec 64) : Mem :=
  fun x => UInt8.ofNat ((bitmap (x / 8)).toNat / 256 ^ (x % 8))

/-- The words of the bitmap in the file. -/
def fileBitmap (h : SnapshotHeader) (file : Mem) (cell : ℕ) : BitVec 64 :=
  BitVec.ofNat 64 (load file (h.bitmapOffset + 8 * cell) 8)

/-- `chunk_header_t` at `a`. -/
def headerAt (m : Mem) (a : ℕ) : ChunkHeader where
  prevOffset := load m a 2
  freeListId := load m (a + 2) 2
  last := (load m (a + 4) 4).testBit 0
  used := (load m (a + 4) 4).testBit 1
  jumbo := (load m (a + 4) 4).testBit 2
  size := load m (a + 4) 4 / 8

/-- The links of `free_header_t`. -/
def linksAt (m : Mem) : Links := ⟨fun a => load m (a + 8) 8, fun a => load m (a + 16) 8⟩

/-- The memory as the allocator sees it. -/
def heapAt (m : Mem) (bitmap : ℕ → BitVec 64) : HeapMemory := ⟨headerAt m, linksAt m, bitmap, []⟩

/-- `Snapshot::saveAllocationTables`. -/
def saveAllocationTables (h : SnapshotHeader) (s : GlobalState) (objects : List SavedObject)
    (file : Mem) : Mem :=
  let file := applyCopies (bitmapBytes s.mem.bitmap) file (saveBitmap h.bitmapOffset)
  let file := applyStores file (s.save h.globalOffset)
  applyStores file (saveObjects h.allocOffset objects)

/-- The file after `create`, over whatever was in it. -/
def writeFile (h : SnapshotHeader) (m : Mem) (s : GlobalState) (objects : List SavedObject)
    (faults : ℕ → Option (Fin blockSize)) (file : Mem) : Mem :=
  let file := saveAllocationTables h s objects file
  applyCopies m file (pageCopies h s (fileBitmap h file) faults)

/-! ## The restore threads -/

/-- The loop of `restoreWorker` over `length` blocks. -/
def restoreLoop (bitmap : ℕ → BitVec 64) : ℕ → ℕ → ℕ → ℕ → List Copy
  | 0, _, _, _ => []
  | length + 1, b, src, dst =>
    (if blockUsed bitmap b then copyCells bitmap 8 (b * 8) src dst else []) ++
      restoreLoop bitmap length (b + 1) (src + blockSize) (dst + blockSize)

/-- `Snapshot::restoreWorker`. -/
def restoreWorker (h : SnapshotHeader) (bitmap : ℕ → BitVec 64) (offset length : ℕ) : List Copy :=
  restoreLoop bitmap length offset (h.dataOffset + offset * blockSize)
    (baseAddress + offset * blockSize)

/-- The copies of the restore threads that `load` starts. -/
def restoreCopies (h : SnapshotHeader) (bitmap : ℕ → BitVec 64) (allocatedBlocks : ℕ) : List Copy :=
  (List.range snapshotThreads).flatMap fun i =>
    restoreWorker h bitmap (i * (allocatedBlocks / snapshotThreads))
      (allocatedBlocks / snapshotThreads)

/-- The memory `m` after the restore threads. -/
def restore (h : SnapshotHeader) (file : Mem) (allocatedBlocks : ℕ) (m : Mem) : Mem :=
  applyCopies file m (restoreCopies h (fileBitmap h file) allocatedBlocks)

end Pronto
