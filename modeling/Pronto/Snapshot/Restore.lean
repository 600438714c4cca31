import Pronto.Alloc.Heap
import Pronto.Snapshot.Image

/-!
# What a snapshot restores

The workers, the fault handlers and the restore threads copy with the same distance between source
and target, so a list of copies is settled by the addresses that it covers (`applyCopies_of_covered`).
A block in use is covered in full on every page whose bit is set and in the first 64 bytes of every
other page (`covered_block`).

`restored_heap` says what that means for a heap whose bitmap is exact: the used chunks are restored, and
so are the headers of the free chunks in the blocks that have a used chunk. A free chunk whose header
is on a page without used bytes starts this page, since its predecessor would be free as well.
-/

namespace Pronto

open Memory Linked Tiling

/-! ## Lists of copies -/

/-- Some copy writes to `x`. -/
def Covered (cs : List Copy) (x : ℕ) : Prop := ∃ c ∈ cs, c.dst ≤ x ∧ x < c.dst + c.len

/-- All copies have the same distance: what belongs to `S` goes to `D`. -/
def Aligned (S D : ℕ) (cs : List Copy) : Prop := ∀ c ∈ cs, D ≤ c.dst ∧ c.dst + S = c.src + D

section Copies

variable {src dst : Mem} {cs : List Copy} {S D x : ℕ}

/-- Bytes that no copy writes to stay. -/
theorem applyCopies_of_not_covered (h : ¬ Covered cs x) : applyCopies src dst cs x = dst x := by
  induction cs generalizing dst with
  | nil => rfl
  | cons c cs ih =>
    have hc : ¬ (c.dst ≤ x ∧ x < c.dst + c.len) := fun hx => h ⟨c, List.mem_cons_self, hx⟩
    have hcs : ¬ Covered cs x := fun ⟨c', hc', hx⟩ => h ⟨c', List.mem_cons_of_mem c hc', hx⟩
    exact (ih hcs).trans (if_neg hc)

/-- A covered address has the byte from the same distance. -/
theorem applyCopies_of_covered (hcs : Aligned S D cs) (h : Covered cs x) :
    applyCopies src dst cs x = src (x - D + S) := by
  induction cs generalizing dst with
  | nil => obtain ⟨_, hc, _⟩ := h; cases hc
  | cons c cs ih =>
    by_cases htail : Covered cs x
    · exact ih (fun c' hc' => hcs c' (List.mem_cons_of_mem c hc')) htail
    · obtain ⟨c', hc', hx⟩ := h
      obtain rfl : c' = c := by
        rcases List.mem_cons.mp hc' with heq | hc'
        · exact heq
        · exact absurd ⟨c', hc', hx⟩ htail
      obtain ⟨hD, heq⟩ := hcs c' List.mem_cons_self
      have hstep : applyCopies src dst (c' :: cs) x = c'.apply src dst x :=
        applyCopies_of_not_covered htail
      rw [hstep, Copy.apply, if_pos hx]
      congr 1
      omega

end Copies

/-! ## The pages of a block -/

section Pages

variable {bitmap : ℕ → BitVec 64} {n cell src dst x b : ℕ} {c : Copy}

theorem aligned_copyCell {bit : BitVec 64} : Aligned src dst (copyCell n bit src dst) := by
  induction n generalizing bit src dst with
  | zero => exact fun _ hc => nomatch hc
  | succ n ih =>
    intro c hc
    rcases List.mem_cons.mp hc with rfl | hc
    · exact ⟨le_rfl, Nat.add_comm _ _⟩
    · have := ih c hc
      omega

/-- A cell copies the pages whose bits are set, and the first line of the others. -/
theorem covered_copyCell {bit : BitVec 64} :
    Covered (copyCell n bit src dst) x ↔ dst ≤ x ∧ x < dst + n * bitmapGranularity ∧
      (bit.getLsbD ((x - dst) / bitmapGranularity) = true ∨ (x - dst) % bitmapGranularity < 64) := by
  -- by induction on the bits of the cell; `hsplit` splits off the first page
  induction n generalizing bit src dst with
  | zero =>
    constructor
    · rintro ⟨_, hc, _⟩
      cases hc
    · omega
  | succ n ih =>
    have hsplit : Covered (copyCell (n + 1) bit src dst) x ↔
        (dst ≤ x ∧ x < dst + if bit.getLsbD 0 then bitmapGranularity else 64) ∨
          Covered (copyCell n (bit >>> 1) (src + bitmapGranularity) (dst + bitmapGranularity)) x := by
      unfold Covered
      rw [copyCell]
      simp only [List.mem_cons, exists_eq_or_imp]
    rw [hsplit, ih]
    simp only [BitVec.getLsbD_ushiftRight]
    have hgran : bitmapGranularity = 4096 := rfl
    rw [hgran, Nat.succ_mul n]
    by_cases hfirst : x < dst + 4096
    · -- in the first page, whose bit decides between all of it and its first 64 bytes
      by_cases hge : dst ≤ x
      · have hdiv : (x - dst) / 4096 = 0 := by omega
        have hmod : (x - dst) % 4096 = x - dst := by omega
        rw [hdiv, hmod]
        split
        · rename_i hbit
          simp only [hbit, true_or, and_true]
          omega
        · rename_i hbit
          simp only [hbit, Bool.false_eq_true, false_or]
          omega
      · constructor
        · rintro (⟨hx, -⟩ | ⟨hx, -⟩) <;> omega
        · rintro ⟨hx, -⟩
          omega
    · have hdiv : 1 + (x - (dst + 4096)) / 4096 = (x - dst) / 4096 := by omega
      have hmod : (x - (dst + 4096)) % 4096 = (x - dst) % 4096 := by omega
      rw [hdiv, hmod]
      constructor
      · rintro (⟨hge, hlt⟩ | ⟨hge, hlt, hbit⟩)
        · have : (if bit.getLsbD 0 = true then 4096 else 64) ≤ 4096 := by
            split <;> decide
          omega
        · exact ⟨by omega, by omega, hbit⟩
      · rintro ⟨hge, hlt, hbit⟩
        exact .inr ⟨by omega, by omega, hbit⟩

theorem aligned_copyCells : Aligned src dst (copyCells bitmap n cell src dst) := by
  induction n generalizing cell src dst with
  | zero => exact fun _ hc => nomatch hc
  | succ n ih =>
    intro c hc
    rcases List.mem_append.mp hc with hc | hc
    · exact aligned_copyCell c hc
    · have := ih c hc
      omega

theorem covered_append {cs cs' : List Copy} :
    Covered (cs ++ cs') x ↔ Covered cs x ∨ Covered cs' x := by
  simp only [Covered, List.mem_append, or_and_right, exists_or]

/-- A range of cells copies the pages whose bits are set, and the first line of the others. -/
theorem covered_copyCells :
    Covered (copyCells bitmap n cell src dst) x ↔
      dst ≤ x ∧ x < dst + n * (64 * bitmapGranularity) ∧
        (pageSet bitmap (cell * 64 + (x - dst) / bitmapGranularity) = true ∨
          (x - dst) % bitmapGranularity < 64) := by
  induction n generalizing cell src dst with
  | zero =>
    constructor
    · rintro ⟨_, hc, _⟩
      cases hc
    · omega
  | succ n ih =>
    rw [copyCells, covered_append, covered_copyCell, ih]
    have hgran : bitmapGranularity = 4096 := rfl
    rw [hgran, Nat.succ_mul n]
    by_cases hfirst : x < dst + 64 * 4096
    · have hcell : dst ≤ x → pageSet bitmap (cell * 64 + (x - dst) / 4096) =
          (bitmap cell).getLsbD ((x - dst) / 4096) := by
        intro hge
        have hlt : (x - dst) / 4096 < 64 := by omega
        rw [pageSet, Nat.mul_comm, Nat.mul_add_div (by decide), Nat.mul_add_mod,
          Nat.div_eq_of_lt hlt, Nat.mod_eq_of_lt hlt, Nat.add_zero]
      constructor
      · rintro (⟨hge, hlt, hbit⟩ | ⟨hge, -⟩)
        · exact ⟨hge, hlt.trans_le (Nat.add_le_add_left (Nat.le_add_left _ _) _),
            by rwa [hcell hge]⟩
        · exact absurd hge (Nat.not_le.mpr hfirst)
      · rintro ⟨hge, -, hbit⟩
        exact .inl ⟨hge, hfirst, by rwa [hcell hge] at hbit⟩
    · have hpage : (cell + 1) * 64 + (x - (dst + 64 * 4096)) / 4096 =
          cell * 64 + (x - dst) / 4096 := by omega
      have hmod : (x - (dst + 64 * 4096)) % 4096 = (x - dst) % 4096 := by omega
      rw [hpage, hmod]
      constructor
      · rintro (⟨hge, hlt, -⟩ | ⟨hge, hlt, hbit⟩)
        · omega
        · exact ⟨by omega, by omega, hbit⟩
      · rintro ⟨hge, hlt, hbit⟩
        exact .inr ⟨by omega, by omega, hbit⟩

/-- Bytes of the heap that a snapshot keeps: in the blocks in use, the pages whose bit is set and the
first cache line of the others. -/
def Kept (bitmap : ℕ → BitVec 64) (blocks x : ℕ) : Prop :=
  ∃ b < blocks, blockUsed bitmap b = true ∧ baseAddress + b * blockSize ≤ x ∧
    x < baseAddress + (b + 1) * blockSize ∧
    (pageSet bitmap ((x - baseAddress) / bitmapGranularity) = true ∨
      (x - baseAddress) % bitmapGranularity < 64)

variable {h : SnapshotHeader} {s : GlobalState} {faults : ℕ → Option (Fin blockSize)}
  {blocks : ℕ}

/-- The copies of block `b`, wherever they go. -/
theorem covered_block {S D : ℕ} (hD : D ≤ x) :
    Covered (copyCells bitmap 8 (b * 8) (S + b * blockSize) (D + b * blockSize)) x ↔
      D + b * blockSize ≤ x ∧ x < D + (b + 1) * blockSize ∧
        (pageSet bitmap ((x - D) / bitmapGranularity) = true ∨
          (x - D) % bitmapGranularity < 64) := by
  have hblock : 8 * (64 * bitmapGranularity) = blockSize := rfl
  rw [covered_copyCells, hblock, Nat.succ_mul, Nat.add_assoc D]
  refine and_congr_right fun hge => and_congr_right fun _ => ?_
  have hsub : x - D = bitmapGranularity * (b * 512) + (x - (D + b * blockSize)) := by
    dsimp only [bitmapGranularity, blockSize] at hge ⊢
    omega
  have hcell : b * 8 * 64 = b * 512 := by omega
  rw [hsub, Nat.mul_add_div (by decide), Nat.mul_add_mod, hcell]

theorem aligned_block {S D : ℕ} :
    Aligned S D (copyCells bitmap 8 (b * 8) (S + b * blockSize) (D + b * blockSize)) := by
  intro c hc
  have := aligned_copyCells c hc
  omega

/-- What is covered by the copies of some blocks. -/
theorem covered_of_mem {cs : List Copy} {p : ℕ → Prop} {f : ℕ → List Copy}
    (hmem : ∀ c, c ∈ cs ↔ ∃ b < blocks, p b ∧ c ∈ f b) :
    Covered cs x ↔ ∃ b < blocks, p b ∧ Covered (f b) x := by
  constructor
  · rintro ⟨c, hc, hx⟩
    obtain ⟨b, hb, hp, hc⟩ := (hmem c).mp hc
    exact ⟨b, hb, hp, c, hc, hx⟩
  · rintro ⟨b, hb, hp, c, hc, hx⟩
    exact ⟨c, (hmem c).mpr ⟨b, hb, hp, hc⟩, hx⟩

theorem aligned_pageCopies (hmod : s.allocatedBlocks % snapshotThreads = 0) :
    Aligned baseAddress h.dataOffset (pageCopies h s bitmap faults) := by
  intro c hc
  obtain ⟨b, -, -, hc⟩ := (mem_pageCopies hmod).mp hc
  exact aligned_block c hc

/-- What the workers and the handlers write. -/
theorem covered_pageCopies (hmod : s.allocatedBlocks % snapshotThreads = 0)
    (hx : baseAddress ≤ x) :
    Covered (pageCopies h s bitmap faults) (x - baseAddress + h.dataOffset) ↔
      Kept bitmap s.allocatedBlocks x := by
  rw [covered_of_mem fun c => mem_pageCopies hmod]
  refine exists_congr fun b => and_congr_right fun _ => and_congr_right fun _ => ?_
  rw [blockCopies, covered_block (Nat.le_add_left _ _), Nat.add_sub_cancel]
  refine Iff.trans (and_congr_left fun _ => ?_) (and_congr_right fun _ => and_congr_left fun _ => ?_)
    <;> omega

theorem restoreLoop_eq {length b src dst : ℕ} : restoreLoop bitmap length b src dst =
    workerLoop bitmap (blockUsed bitmap) length b src dst := by
  induction length generalizing b src dst with
  | zero => rfl
  | succ length ih => rw [restoreLoop, workerLoop, ih]

theorem mem_restoreCopies (hmod : blocks % snapshotThreads = 0) {c : Copy} :
    c ∈ restoreCopies h bitmap blocks ↔ ∃ b < blocks, blockUsed bitmap b = true ∧
      c ∈ copyCells bitmap 8 (b * 8) (h.dataOffset + b * blockSize)
        (baseAddress + b * blockSize) := by
  unfold restoreCopies restoreWorker
  simp only [restoreLoop_eq]
  exact mem_workers hmod

theorem aligned_restoreCopies (hmod : blocks % snapshotThreads = 0) :
    Aligned h.dataOffset baseAddress (restoreCopies h bitmap blocks) := by
  intro c hc
  obtain ⟨b, -, -, hc⟩ := (mem_restoreCopies hmod).mp hc
  exact aligned_block c hc

/-- What the restore threads write. -/
theorem covered_restoreCopies (hmod : blocks % snapshotThreads = 0) (hx : baseAddress ≤ x) :
    Covered (restoreCopies h bitmap blocks) x ↔ Kept bitmap blocks x := by
  rw [covered_of_mem fun c => mem_restoreCopies hmod]
  exact exists_congr fun b => and_congr_right fun _ => and_congr_right fun _ => covered_block hx

theorem blockUsed_iff : blockUsed bitmap b = true ↔ ∃ i < 8, bitmap (b * 8 + i) ≠ 0 := by
  simp [blockUsed]

/-- What is kept depends on the bitmap of the blocks only. -/
theorem Kept.congr {bitmap' : ℕ → BitVec 64}
    (heq : ∀ cell < 8 * blocks, bitmap' cell = bitmap cell) (hkept : Kept bitmap blocks x) :
    Kept bitmap' blocks x := by
  obtain ⟨b, hb, hused, hlo, hhi, hpage⟩ := hkept
  obtain ⟨i, hi, hcell⟩ := blockUsed_iff.mp hused
  have hused' : blockUsed bitmap' b = true :=
    blockUsed_iff.mpr ⟨i, hi, by rwa [heq _ (by omega)]⟩
  refine ⟨b, hb, hused', hlo, hhi, hpage.imp_left fun hset => ?_⟩
  rw [pageSet, heq]
  · exact hset
  · dsimp only [bitmapGranularity, blockSize] at *
    omega

end Pages

/-! ## The file -/

section File

variable {x : ℕ}

/-- Words stored behind a byte leave it. -/
theorem applyStores_of_lt {file : Mem} {ws : List WordStore} (lo : ℕ)
    (hws : ∀ w ∈ ws, lo ≤ w.offset) (hx : x < lo) : applyStores file ws x = file x := by
  induction ws generalizing file with
  | nil => rfl
  | cons w ws ih =>
    have hw := hws w List.mem_cons_self
    exact (ih fun w' hw' => hws w' (List.mem_cons_of_mem w hw')).trans (store_of_lt (by omega))

/-- The bitmap is copied word by word without gaps. -/
theorem aligned_saveBitmapLoop {limit fuel src dst : ℕ} :
    Aligned (16 * src) dst (saveBitmapLoop limit fuel src dst) := by
  induction fuel generalizing src dst with
  | zero => exact fun _ hc => nomatch hc
  | succ fuel ih =>
    intro c hc
    rw [saveBitmapLoop] at hc
    split at hc
    · rcases List.mem_append.mp hc with hc | hc
      · obtain ⟨i, -, rfl⟩ := List.mem_map.mp hc
        dsimp only
        omega
      · have := ih c hc
        omega
    · cases hc

theorem covered_saveBitmapLoop {limit fuel src dst : ℕ} (hmod : (limit - src) % 16 = 0)
    (hfuel : limit - src ≤ 16 * fuel) (hlo : dst ≤ x) (hhi : x < dst + 16 * (limit - src)) :
    Covered (saveBitmapLoop limit fuel src dst) x := by
  induction fuel generalizing src dst with
  | zero => omega
  | succ fuel ih =>
    rw [saveBitmapLoop, if_pos (by omega), covered_append]
    by_cases hfirst : x < dst + 256
    · refine .inl ⟨_, List.mem_map.mpr ⟨(x - dst) / 16, List.mem_range.mpr (by omega), rfl⟩, ?_⟩
      dsimp only
      omega
    · exact .inr (ih (by omega) (by omega) (by omega) (by omega))

/-- The bytes of the bitmap section. -/
theorem saveBitmap_apply {src file : Mem} {nvm y : ℕ} (hy : y < bitmapSize) :
    applyCopies src file (saveBitmap nvm) (nvm + y) = src y := by
  have hsize : 16 * (bitmapSize / 16 - 0) = bitmapSize := by decide
  have hcovered : Covered (saveBitmap nvm) (nvm + y) :=
    covered_saveBitmapLoop (by decide) (by decide) (by omega) (by rw [hsize]; omega)
  have haligned : Aligned 0 nvm (saveBitmap nvm) := aligned_saveBitmapLoop
  rw [applyCopies_of_covered haligned hcovered, Nat.add_sub_cancel_left, Nat.add_zero]

theorem le_offset_save {s : GlobalState} {nvm : ℕ} {w : WordStore} (hw : w ∈ s.save nvm) :
    nvm ≤ w.offset := by
  rcases List.mem_cons.mp hw with rfl | hw
  · exact le_rfl
  · rcases List.mem_cons.mp hw with rfl | hw
    · exact Nat.le_add_right _ _
    · exact (Nat.le_add_right _ _).trans (saveRegions_bounds hw).1

variable {objects : List SavedObject} {n₀ : ℕ} {s : GlobalState} {m file : Mem}
  {faults : ℕ → Option (Fin blockSize)} {cell : ℕ}

/-- The tables leave the bitmap section as it was saved. -/
theorem fileBitmap_saveAllocationTables (hcell : cell < bitmapSize / 8) :
    fileBitmap (snapshotHeader objects n₀)
      (saveAllocationTables (snapshotHeader objects n₀) s objects file) cell =
      s.mem.bitmap cell := by
  set h := snapshotHeader objects n₀ with hh
  have hglobal : h.globalOffset = h.bitmapOffset + bitmapSize := rfl
  have halloc : h.allocOffset = h.globalOffset + globalSnapshotSize := rfl
  have hbyte : ∀ i < 8, saveAllocationTables h s objects file (h.bitmapOffset + 8 * cell + i) =
      UInt8.ofNat ((s.mem.bitmap cell).toNat / 256 ^ i) := by
    intro i hi
    have hy : 8 * cell + i < bitmapSize := by
      dsimp only [bitmapSize, maxMemorySize, bitmapGranularity] at hcell ⊢
      omega
    rw [saveAllocationTables, applyStores_of_lt h.allocOffset, applyStores_of_lt h.globalOffset,
      Nat.add_assoc, saveBitmap_apply hy, bitmapBytes, Nat.mul_add_div (by decide), Nat.mul_add_mod,
      Nat.div_eq_of_lt hi, Nat.mod_eq_of_lt hi, Nat.add_zero]
    · exact fun w hw => le_offset_save hw
    · omega
    · exact fun w hw => (saveObjects_bounds hw).1
    · omega
  have hlt := (s.mem.bitmap cell).isLt
  rw [fileBitmap, load_of_bytes hbyte, Nat.mod_eq_of_lt (by simpa using hlt), BitVec.ofNat_toNat,
    BitVec.setWidth_eq]

/-- The pages are written behind the tables. -/
theorem writeFile_of_lt (hmod : s.allocatedBlocks % snapshotThreads = 0) {h : SnapshotHeader}
    (hx : x < h.dataOffset) :
    writeFile h m s objects faults file x = saveAllocationTables h s objects file x := by
  refine applyCopies_of_not_covered ?_
  rintro ⟨c, hc, hlo, -⟩
  have := (aligned_pageCopies hmod c hc).1
  omega

/-- The pages are stored behind the bitmap and leave it. -/
theorem fileBitmap_pages (hmod : s.allocatedBlocks % snapshotThreads = 0) {h : SnapshotHeader}
    (hdata : h.bitmapOffset + bitmapSize ≤ h.dataOffset) (hcell : cell < bitmapSize / 8) :
    fileBitmap h (writeFile h m s objects faults file) cell =
      fileBitmap h (saveAllocationTables h s objects file) cell := by
  refine congrArg (BitVec.ofNat 64) (load_congr fun y hlo hhi => writeFile_of_lt hmod ?_)
  dsimp only [bitmapSize, maxMemorySize, bitmapGranularity] at hcell hdata
  omega

theorem bitmap_le_dataOffset : (snapshotHeader objects n₀).bitmapOffset + bitmapSize ≤
    (snapshotHeader objects n₀).dataOffset :=
  le_trans (by rw [Nat.add_assoc]; exact Nat.le_add_right _ _) (le_tablesSize objects)

/-- **The file holds the bitmap of the heap.** -/
theorem fileBitmap_writeFile (hmod : s.allocatedBlocks % snapshotThreads = 0)
    (hcell : cell < bitmapSize / 8) :
    fileBitmap (snapshotHeader objects n₀)
      (writeFile (snapshotHeader objects n₀) m s objects faults file) cell = s.mem.bitmap cell := by
  rw [fileBitmap_pages hmod bitmap_le_dataOffset hcell, fileBitmap_saveAllocationTables hcell]

/-- **What is restored.** The bytes that the snapshot keeps are those of the frozen memory, and all
other bytes are left as they were. -/
theorem restore_writeFile [Decidable (Kept s.mem.bitmap s.allocatedBlocks x)]
    (hmod : s.allocatedBlocks % snapshotThreads = 0)
    (hmax : s.allocatedBlocks ≤ maxMemorySize / blockSize) (hx : baseAddress ≤ x) (m₀ : Mem) :
    restore (snapshotHeader objects n₀)
      (writeFile (snapshotHeader objects n₀) m s objects faults file) s.allocatedBlocks m₀ x =
      if Kept s.mem.bitmap s.allocatedBlocks x then m x else m₀ x := by
  have hcells : ∀ cell < 8 * s.allocatedBlocks, cell < bitmapSize / 8 := by
    intro cell hcell
    dsimp only [bitmapSize, maxMemorySize, bitmapGranularity, blockSize] at hmax ⊢
    omega
  -- the bitmap in the file is the one that was saved
  have hfile : Kept (fileBitmap (snapshotHeader objects n₀)
      (writeFile (snapshotHeader objects n₀) m s objects faults file)) s.allocatedBlocks x ↔
      Kept s.mem.bitmap s.allocatedBlocks x :=
    ⟨Kept.congr fun cell hcell => (fileBitmap_writeFile hmod (hcells cell hcell)).symm,
      Kept.congr fun cell hcell => fileBitmap_writeFile hmod (hcells cell hcell)⟩
  have htables : Kept (fileBitmap (snapshotHeader objects n₀)
      (saveAllocationTables (snapshotHeader objects n₀) s objects file)) s.allocatedBlocks x ↔
      Kept s.mem.bitmap s.allocatedBlocks x :=
    ⟨Kept.congr fun cell hcell => (fileBitmap_saveAllocationTables (hcells cell hcell)).symm,
      Kept.congr fun cell hcell => fileBitmap_saveAllocationTables (hcells cell hcell)⟩
  unfold restore
  split
  · -- copied into the file, and from there to where it came from
    rename_i hkept
    rw [applyCopies_of_covered (aligned_restoreCopies hmod)
      ((covered_restoreCopies hmod hx).mpr (hfile.mpr hkept)), writeFile,
      applyCopies_of_covered (aligned_pageCopies hmod)
      ((covered_pageCopies hmod hx).mpr (htables.mpr hkept))]
    congr 1
    omega
  · rename_i hkept
    exact applyCopies_of_not_covered fun hcovered =>
      hkept (hfile.mp ((covered_restoreCopies hmod hx).mp hcovered))

end File

/-! ## The heap -/

section Heap

variable {bitmap : ℕ → BitVec 64} {blocks a b : ℕ} {H : HeapLayout} {hdr : ℕ → ChunkHeader}
  {limit : ℕ} {k : Chunk}

/-- The block of a page whose bit is set is in use. -/
theorem blockUsed_of_pageSet {page : ℕ} (hset : pageSet bitmap page = true) :
    blockUsed bitmap (page / 512) = true := by
  refine blockUsed_iff.mpr ⟨page / 64 % 8, Nat.mod_lt _ (by decide), fun hzero => ?_⟩
  have hcell : page / 512 * 8 + page / 64 % 8 = page / 64 := by omega
  rw [hcell] at hzero
  rw [pageSet, hzero] at hset
  simp at hset

/-- The pages in use are kept whole. -/
theorem kept_of_pageSet (hlo : baseAddress ≤ a) (hhi : a < baseAddress + blocks * blockSize)
    (hset : pageSet bitmap ((a - baseAddress) / bitmapGranularity) = true) : Kept bitmap blocks a := by
  have hused := blockUsed_of_pageSet hset
  have hpos : 0 < blockSize := by decide
  have hidx : (a - baseAddress) / bitmapGranularity / 512 = (a - baseAddress) / blockSize :=
    Nat.div_div_eq_div_mul _ _ _
  have hdiv := Nat.div_add_mod' (a - baseAddress) blockSize
  have hrest := Nat.mod_lt (a - baseAddress) hpos
  have hlt : (a - baseAddress) / blockSize < blocks :=
    (Nat.div_lt_iff_lt_mul hpos).mpr (by omega)
  refine ⟨_, hlt, hidx ▸ hused, by omega, ?_, .inl hset⟩
  rw [Nat.succ_mul]
  omega

/-- A used chunk sets the bits of its pages. -/
theorem ExactBitmap.pageSet_of_mem (hexact : ExactBitmap bitmap H) (hk : H.IsUsed k)
    (hbase : baseAddress ≤ k.addr) (hlo : k.addr ≤ a) (hhi : a < k.addr + k.size) :
    pageSet bitmap ((a - baseAddress) / bitmapGranularity) = true := by
  refine (hexact _).mpr ⟨k, hk, ?_⟩
  dsimp only [Chunk.Overlaps, bitmapGranularity]
  omega

/-- Chunks in use lie in the mapped memory. -/
theorem HeapOk.used_bounds (hok : HeapOk hdr limit H) (hk : H.IsUsed k) :
    baseAddress ≤ k.addr ∧ k.addr + k.size ≤ limit := by
  rcases hk with ⟨b, hb, hk, -⟩ | hk
  · have haligned := hok.aligned b hb
    have hbounds := (hok.blockOk b hb).bounds hk
    omega
  · obtain ⟨-, hlo, hhi, -⟩ := hok.jumbo k hk
    exact ⟨hlo, hhi⟩

/-- A free chunk on a page without used bytes starts the page. -/
theorem HeapOk.free_starts_page (hok : HeapOk hdr limit H) (hexact : ExactBitmap bitmap H)
    (hb : b ∈ H.blocks) (hk : k ∈ H.layout b) (hfree : k.used = false)
    (hclear : pageSet bitmap ((k.addr - baseAddress) / bitmapGranularity) = false) :
    (k.addr - baseAddress) % bitmapGranularity = 0 := by
  obtain ⟨hmod, hbase, -⟩ := hok.aligned b hb
  have hblock := hok.blockOk b hb
  by_contra hne
  obtain ⟨L, R, hsplit⟩ := List.append_of_mem hk
  rcases List.eq_nil_or_concat L with rfl | ⟨L, p, rfl⟩
  · -- The first chunk of the block starts a page.
    have haddr : k.addr = b := by
      have htiles := hblock.tiles
      rw [hsplit] at htiles
      exact htiles.1
    dsimp only [baseAddress, blockSize, bitmapGranularity] at hmod hbase hne
    omega
  · rw [List.concat_eq_append, List.append_assoc] at hsplit
    have hp : p ∈ H.layout b := by simp [hsplit]
    -- The predecessor ends where `k` starts, on the same page.
    have hend : p.addr + p.size = k.addr := by
      have htiles := hblock.tiles
      rw [hsplit] at htiles
      obtain ⟨_, -, hp, hk, -⟩ := tiles_append.mp htiles
      omega
    have hpair : Neighbours none hdr p k := by
      have hpairs := hblock.pairs
      rw [hsplit] at hpairs
      exact (List.isChain_append.mp hpairs).2.1.rel
    have hpused : p.used = true := by
      rcases hpair with hflaw | ⟨-, hused | hused⟩
      · cases hflaw
      · exact hused
      · rw [hfree] at hused
        cases hused
    have hpos := (hblock.sizes p hp).1
    have hplo := (hblock.bounds hp).1
    have hset := hexact.pageSet_of_mem (a := k.addr - 1) (.inl ⟨b, hb, hp, hpused⟩) (by omega)
      (by omega) (by omega)
    have hpage : (k.addr - 1 - baseAddress) / bitmapGranularity =
        (k.addr - baseAddress) / bitmapGranularity := by
      dsimp only [bitmapGranularity] at hne ⊢
      omega
    rw [hpage, hclear] at hset
    cases hset

/-- The used chunks are kept. -/
theorem HeapOk.kept_used (hok : HeapOk hdr (baseAddress + blocks * blockSize) H)
    (hexact : ExactBitmap bitmap H) (hk : H.IsUsed k) (hlo : k.addr ≤ a)
    (hhi : a < k.addr + k.size) : Kept bitmap blocks a := by
  have hbounds := hok.used_bounds hk
  exact kept_of_pageSet (by omega) (by omega) (hexact.pageSet_of_mem hk hbounds.1 hlo hhi)

/-- The headers of the free chunks are kept in the blocks that have a used chunk. -/
theorem HeapOk.kept_free (hok : HeapOk hdr (baseAddress + blocks * blockSize) H)
    (hexact : ExactBitmap bitmap H) (hb : b ∈ H.blocks) {u : Chunk} (hu : u ∈ H.layout b)
    (hused : u.used = true) (hk : k ∈ H.layout b) (hfree : k.used = false) (hlo : k.addr ≤ a)
    (hhi : a < k.addr + 24) : Kept bitmap blocks a := by
  obtain ⟨hmod, hbase, hlimit⟩ := hok.aligned b hb
  have hblock := hok.blockOk b hb
  have hkbounds := hblock.bounds hk
  have hkpos := hblock.sizes k hk
  have hk64 := hblock.addr_mod hmod hk
  have hubounds := hblock.bounds hu
  have hupos := (hblock.sizes u hu).1
  have huset := hexact.pageSet_of_mem (a := u.addr) (.inl ⟨b, hb, hu, hused⟩) (by omega) le_rfl
    (by omega)
  -- the page of the used chunk has its bit set, so the block is copied
  have hblockUsed : blockUsed bitmap ((b - baseAddress) / blockSize) = true := by
    have hidx : (u.addr - baseAddress) / bitmapGranularity / 512 = (b - baseAddress) / blockSize := by
      dsimp only [baseAddress, blockSize, bitmapGranularity] at *
      omega
    rw [← hidx]
    exact blockUsed_of_pageSet huset
  have hpage : (a - baseAddress) / bitmapGranularity = (k.addr - baseAddress) / bitmapGranularity := by
    dsimp only [baseAddress, bitmapGranularity] at *
    omega
  refine ⟨(b - baseAddress) / blockSize, ?_, hblockUsed, ?_, ?_, ?_⟩
  · dsimp only [baseAddress, blockSize] at *
    omega
  · dsimp only [baseAddress, blockSize] at *
    omega
  · dsimp only [baseAddress, blockSize] at *
    omega
  · rw [hpage]
    -- the page is copied as a whole, or the chunk starts with it and its links are in the first 64
    -- bytes
    cases hset : pageSet bitmap ((k.addr - baseAddress) / bitmapGranularity) with
    | true => exact .inl rfl
    | false =>
      have hstart := hok.free_starts_page hexact hb hk hfree hset
      right
      dsimp only [baseAddress, bitmapGranularity] at *
      omega

/-- **A snapshot restores the heap.** Restoring the file of a snapshot of a heap whose bitmap is exact,
into zeroed memory, gives every byte of every used chunk, and the headers with their links of the free
chunks in the blocks that have a used chunk, whichever blocks the fault handlers have copied. -/
theorem restored_heap {m : Mem} (ga : GlobalAlloc)
    (hpools : (⟨heapAt m bitmap, ga⟩ : GlobalState).WholePools)
    (hmax : (⟨heapAt m bitmap, ga⟩ : GlobalState).limit ≤ baseAddress + maxMemorySize)
    (hok : HeapOk (headerAt m) (⟨heapAt m bitmap, ga⟩ : GlobalState).limit H)
    (hexact : ExactBitmap bitmap H) (objects : List SavedObject) (n₀ : ℕ)
    (faults : ℕ → Option (Fin blockSize)) (file : Mem) :
    (∀ k, H.IsUsed k → ∀ a, k.addr ≤ a → a < k.addr + k.size →
      restore (snapshotHeader objects n₀)
        (writeFile (snapshotHeader objects n₀) m ⟨heapAt m bitmap, ga⟩ objects faults file)
        (⟨heapAt m bitmap, ga⟩ : GlobalState).allocatedBlocks (fun _ => 0) a = m a) ∧
    ∀ b ∈ H.blocks, (∃ u ∈ H.layout b, u.used = true) → ∀ k ∈ H.layout b, k.used = false →
      ∀ a, k.addr ≤ a → a < k.addr + 24 →
        restore (snapshotHeader objects n₀)
          (writeFile (snapshotHeader objects n₀) m ⟨heapAt m bitmap, ga⟩ objects faults file)
          (⟨heapAt m bitmap, ga⟩ : GlobalState).allocatedBlocks (fun _ => 0) a = m a := by
  classical
  have hmod := hpools.allocatedBlocks_mod
  obtain ⟨n, hn⟩ := hpools
  have hblocks : (⟨heapAt m bitmap, ga⟩ : GlobalState).allocatedBlocks = n * 128 := by
    rw [GlobalState.allocatedBlocks, hn]
    dsimp only [minPoolSize, blockSize]
    omega
  have hlimit : (⟨heapAt m bitmap, ga⟩ : GlobalState).limit =
      baseAddress + (⟨heapAt m bitmap, ga⟩ : GlobalState).allocatedBlocks * blockSize := by
    rw [hn, hblocks]
    dsimp only [minPoolSize, blockSize]
    omega
  have hmax' : (⟨heapAt m bitmap, ga⟩ : GlobalState).allocatedBlocks ≤
      maxMemorySize / blockSize := by
    rw [hn] at hmax
    rw [hblocks]
    dsimp only [minPoolSize, maxMemorySize, blockSize] at hmax ⊢
    omega
  rw [hlimit] at hok
  constructor
  · intro k hk a hlo hhi
    have hbounds := hok.used_bounds hk
    rw [restore_writeFile hmod hmax' (by omega), if_pos]
    exact hok.kept_used hexact hk hlo hhi
  · rintro b hb ⟨u, hu, hused⟩ k hk hfree a hlo hhi
    have haligned := hok.aligned b hb
    have hbounds := (hok.blockOk b hb).bounds hk
    rw [restore_writeFile hmod hmax' (by omega), if_pos]
    exact hok.kept_free hexact hb hu hused hk hfree hlo hhi

/-- A block with a used chunk of 128 bytes and a free chunk. -/
def twoChunks : HeapLayout where
  blocks := [baseAddress]
  layout := fun _ => [⟨baseAddress, 128, true⟩, ⟨baseAddress + 128, 0x1FFF80, false⟩]
  jumbos := []

/-- The headers of `twoChunks`. -/
def twoChunksBytes : Mem :=
  store (store (fun _ => 0) (baseAddress + 4) (bytesLE (8 * 128 + 2) 4)) (baseAddress + 132)
    (bytesLE (8 * 0x1FFF80 + 1) 4)

/-- The two chunks tile their block and have the right headers. -/
theorem twoChunks_ok : HeapOk (headerAt twoChunksBytes) (baseAddress + minPoolSize) twoChunks where
  nodup := by decide
  aligned := by decide
  blockOk := by
    intro b hb
    obtain rfl := List.mem_singleton.mp hb
    refine ⟨⟨rfl, rfl, rfl⟩, by decide, by decide +kernel, fun k hk _ => ?_, ?_⟩
    · revert k
      decide +kernel
    · exact List.isChain_pair.mpr (.inr (by decide +kernel))
  jumbo := nofun
  apart := nofun
  jumbosApart := .nil

/-- The first chunk is the one in use. -/
theorem twoChunks_isUsed {k : Chunk} : twoChunks.IsUsed k ↔ k = ⟨baseAddress, 128, true⟩ := by
  simp only [HeapLayout.IsUsed, twoChunks, List.mem_cons, List.not_mem_nil,
    exists_eq_left, or_false]
  constructor
  · rintro ⟨rfl | rfl, hused⟩
    · rfl
    · cases hused
  · rintro rfl
    exact ⟨.inl rfl, rfl⟩

theorem twoChunks_exact : ExactBitmap (fun cell => if cell = 0 then 1 else 0) twoChunks := by
  intro page
  simp only [twoChunks_isUsed, exists_eq_left, Chunk.Overlaps, pageSet, baseAddress,
    bitmapGranularity]
  by_cases hpage : page = 0
  · subst hpage
    decide
  · refine iff_of_false ?_ (by omega)
    split
    · have hmod : page % 64 ≠ 0 := by omega
      simp [hmod]
    · simp

/-- The first 152 bytes, which are the chunk in use and the header behind it, are restored. -/
theorem restored_heap_two_chunks :
    bytes (restore (snapshotHeader [] 128) (writeFile (snapshotHeader [] 128) twoChunksBytes
        ⟨heapAt twoChunksBytes (fun cell => if cell = 0 then 1 else 0),
          ⟨0, [⟨baseAddress, minPoolSize⟩], false⟩⟩ [] (fun _ => none) (fun _ => 0xFF)) 128
        (fun _ => 0)) baseAddress 152 = bytes twoChunksBytes baseAddress 152 := by
  obtain ⟨hused, hfree⟩ := restored_heap ⟨0, [⟨baseAddress, minPoolSize⟩], false⟩ ⟨1, rfl⟩
    (by decide) twoChunks_ok twoChunks_exact [] 128 (fun _ => none) (fun _ => 0xFF)
  refine bytes_congr fun a hlo hhi => ?_
  by_cases hchunk : a < baseAddress + 128
  · exact hused _ (twoChunks_isUsed.mpr rfl) a hlo hchunk
  · exact hfree baseAddress (by decide) (by decide) ⟨baseAddress + 128, 0x1FFF80, false⟩ (by decide)
      rfl a (Nat.le_of_not_lt hchunk) hhi

end Heap

end Pronto
