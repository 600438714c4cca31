import Pronto.Alloc.GlobalRace
import Pronto.Alloc.Merge
import Pronto.Snapshot.File

/-!
# The sections of a snapshot file

`Snapshot::create` computes the sections of the file before it saves anything. `writes_in_sections_iff`
says when everything that is written afterwards stays in its own section: the free list of the global
allocator has at most sixteen regions, and no block in use lies behind the space that was reserved for
the pages. The page bitmap and the records of the objects always fit.
-/

namespace Pronto

open Runs

/-! ## The copies of one block -/

section Copies

variable {bitmap : ℕ → BitVec 64} {won : ℕ → Bool} {n cell src dst length b : ℕ} {c : Copy}

/-- The pages of a cell are written where the cell belongs. -/
theorem copyCell_bounds {bit : BitVec 64} (hc : c ∈ copyCell n bit src dst) :
    dst ≤ c.dst ∧ c.dst + c.len ≤ dst + n * bitmapGranularity := by
  induction n generalizing bit src dst with
  | zero => cases hc
  | succ n ih =>
    rcases List.mem_cons.mp hc with rfl | hc
    · refine ⟨le_rfl, ?_⟩
      simp only [bitmapGranularity]
      split <;> omega
    · have := ih hc
      simp only [bitmapGranularity] at this ⊢
      omega

theorem copyCells_bounds (hc : c ∈ copyCells bitmap n cell src dst) :
    dst ≤ c.dst ∧ c.dst + c.len ≤ dst + n * (64 * bitmapGranularity) := by
  induction n generalizing cell src dst with
  | zero => cases hc
  | succ n ih =>
    rw [Nat.succ_mul]
    rcases List.mem_append.mp hc with hc | hc
    · have := copyCell_bounds hc
      omega
    · have := ih hc
      omega

/-- The first page is copied to the start of the block. -/
theorem exists_copy (hn : 0 < n) : ∃ c ∈ copyCells bitmap n cell src dst, c.dst = dst ∧ 0 < c.len := by
  obtain ⟨n, rfl⟩ : ∃ k, n = k + 1 := ⟨n - 1, by omega⟩
  refine ⟨_, List.mem_append_left _ List.mem_cons_self, rfl, ?_⟩
  dsimp only
  split <;> decide

/-- A snapshot thread copies the blocks whose CAS it has won. -/
theorem mem_workerLoop :
    c ∈ workerLoop bitmap won length b src dst ↔
      ∃ i < length, won (b + i) = true ∧
        c ∈ copyCells bitmap 8 ((b + i) * 8) (src + i * blockSize) (dst + i * blockSize) := by
  induction length generalizing b src dst with
  | zero => simp [workerLoop]
  | succ length ih =>
    have hhead : c ∈ (if won b then copyCells bitmap 8 (b * 8) src dst else []) ↔
        won b = true ∧ c ∈ copyCells bitmap 8 (b * 8) src dst := by
      split <;> simp_all
    have hshift : ∀ i x : ℕ, x + blockSize + i * blockSize = x + (i + 1) * blockSize := fun i x => by
      rw [Nat.succ_mul]
      omega
    rw [workerLoop, List.mem_append, hhead, ih]
    constructor
    · rintro (⟨hwon, hc⟩ | ⟨i, hi, hwon, hc⟩)
      · exact ⟨0, by omega, hwon, by simpa using hc⟩
      · refine ⟨i + 1, by omega, ?_, ?_⟩
        · rwa [Nat.add_right_comm] at hwon
        · rwa [hshift, hshift, Nat.add_right_comm] at hc
    · rintro ⟨i, hi, hwon, hc⟩
      cases i with
      | zero => exact Or.inl ⟨hwon, by simpa using hc⟩
      | succ i =>
        refine Or.inr ⟨i, by omega, ?_, ?_⟩
        · rwa [Nat.add_right_comm]
        · rwa [hshift, hshift, Nat.add_right_comm]

/-- A worker over the blocks from `offset` on, which copies from `S` to `D`. -/
theorem mem_workerLoop_from {offset S D : ℕ} :
    c ∈ workerLoop bitmap won length offset (S + offset * blockSize) (D + offset * blockSize) ↔
      ∃ b, offset ≤ b ∧ b < offset + length ∧ won b = true ∧
        c ∈ copyCells bitmap 8 (b * 8) (S + b * blockSize) (D + b * blockSize) := by
  have hshift : ∀ i x : ℕ, x + offset * blockSize + i * blockSize = x + (offset + i) * blockSize :=
    fun i x => by
      rw [Nat.add_mul]
      omega
  rw [mem_workerLoop]
  constructor
  · rintro ⟨i, hi, hwon, hc⟩
    rw [hshift, hshift] at hc
    exact ⟨offset + i, by omega, by omega, hwon, hc⟩
  · rintro ⟨b, hlo, hhi, hwon, hc⟩
    obtain ⟨i, rfl⟩ : ∃ i, b = offset + i := ⟨b - offset, by omega⟩
    refine ⟨i, by omega, hwon, ?_⟩
    rw [hshift, hshift]
    exact hc

/-- Together the threads copy every block they win. -/
theorem mem_workers {blocks S D : ℕ} (hmod : blocks % snapshotThreads = 0) :
    c ∈ ((List.range snapshotThreads).flatMap fun i =>
        workerLoop bitmap won (blocks / snapshotThreads) (i * (blocks / snapshotThreads))
          (S + i * (blocks / snapshotThreads) * blockSize)
          (D + i * (blocks / snapshotThreads) * blockSize)) ↔
      ∃ b < blocks, won b = true ∧
        c ∈ copyCells bitmap 8 (b * 8) (S + b * blockSize) (D + b * blockSize) := by
  -- the threads have equal shares, as their number divides that of the blocks
  obtain ⟨share, rfl⟩ : ∃ k, blocks = k * snapshotThreads :=
    ⟨blocks / snapshotThreads, by rw [Nat.div_mul_cancel (Nat.dvd_of_mod_eq_zero hmod)]⟩
  simp only [List.mem_flatMap, List.mem_range, mem_workerLoop_from,
    Nat.mul_div_cancel _ (show 0 < snapshotThreads by decide)]
  constructor
  · rintro ⟨i, hi, b, hlo, hhi, hwon, hc⟩
    refine ⟨b, lt_of_lt_of_le hhi ?_, hwon, hc⟩
    rw [← Nat.succ_mul, Nat.mul_comm]
    exact Nat.mul_le_mul_left _ hi
  · rintro ⟨b, hb, hwon, hc⟩
    have hpos : 0 < share := by
      rcases Nat.eq_zero_or_pos share with rfl | hpos
      · omega
      · exact hpos
    refine ⟨b / share, (Nat.div_lt_iff_lt_mul hpos).mpr (by rwa [Nat.mul_comm]), b,
      Nat.div_mul_le_self b share, ?_, hwon, hc⟩
    have h1 := Nat.div_add_mod b share
    have h2 := Nat.mod_lt b hpos
    rw [Nat.mul_comm] at h1
    omega

end Copies

/-- The copies of block `b`. -/
def blockCopies (h : SnapshotHeader) (bitmap : ℕ → BitVec 64) (b : ℕ) : List Copy :=
  copyCells bitmap 8 (b * 8) (baseAddress + b * blockSize) (h.dataOffset + b * blockSize)

section Blocks

variable {h : SnapshotHeader} {bitmap : ℕ → BitVec 64} {won : ℕ → Bool} {offset length b : ℕ}
  {c : Copy}

/-- Together the workers copy every block they win. -/
theorem mem_saveModifiedPages {allocatedBlocks : ℕ} (hmod : allocatedBlocks % snapshotThreads = 0) :
    c ∈ saveModifiedPages h bitmap won allocatedBlocks ↔
      ∃ b < allocatedBlocks, won b = true ∧ c ∈ blockCopies h bitmap b :=
  mem_workers hmod

/-- The fault handler rounds the address down, so it copies the block whichever byte was written. -/
theorem pageFaultHandler_eq (o : Fin blockSize) :
    pageFaultHandler h bitmap (baseAddress + b * blockSize + o.val) = blockCopies h bitmap b := by
  have ho := o.isLt
  have hbase : baseAddress = 0x80000 * blockSize := rfl
  have halign : (baseAddress + b * blockSize + o.val) / blockSize * blockSize =
      baseAddress + b * blockSize := by
    have hdiv : ((0x80000 + b) * blockSize + o.val) / blockSize = 0x80000 + b := by
      rw [Nat.mul_comm, Nat.mul_add_div (by decide), Nat.div_eq_of_lt ho, Nat.add_zero]
    rw [hbase, ← Nat.add_mul, hdiv]
  have hblock : (baseAddress + b * blockSize - baseAddress) / blockSize = b := by
    rw [Nat.add_sub_cancel_left, Nat.mul_div_cancel _ (by decide)]
  have hcell : b * 512 / 64 = b * 8 := by omega
  simp only [pageFaultHandler, halign, hblock, hcell, blockCopies]

theorem blockCopies_bounds (hc : c ∈ blockCopies h bitmap b) :
    h.dataOffset + b * blockSize ≤ c.dst ∧
      c.dst + c.len ≤ h.dataOffset + (b + 1) * blockSize := by
  have hblock : 8 * (64 * bitmapGranularity) = blockSize := rfl
  have := copyCells_bounds hc
  rw [hblock] at this
  rw [Nat.succ_mul]
  omega

end Blocks

/-! ## The tables -/

section Tables

variable {w : WordStore} {c : Copy}

/-- The loop over the bitmap stays in the section of the bitmap. -/
theorem saveBitmapLoop_bounds {limit fuel src dst : ℕ} (hmod : (limit - src) % 16 = 0)
    (hc : c ∈ saveBitmapLoop limit fuel src dst) :
    dst ≤ c.dst ∧ c.dst + c.len ≤ dst + 16 * (limit - src) := by
  induction fuel generalizing src dst with
  | zero => cases hc
  | succ fuel ih =>
    rw [saveBitmapLoop] at hc
    split at hc
    · rcases List.mem_append.mp hc with hc | hc
      · obtain ⟨i, hi, rfl⟩ := List.mem_map.mp hc
        have := List.mem_range.mp hi
        dsimp only
        omega
      · have := ih (by omega) hc
        omega
    · cases hc

theorem saveBitmap_bounds {nvm : ℕ} (hc : c ∈ saveBitmap nvm) :
    nvm ≤ c.dst ∧ c.dst + c.len ≤ nvm + bitmapSize := by
  have hsize : 16 * (bitmapSize / 16 - 0) = bitmapSize := by decide
  have := saveBitmapLoop_bounds (by decide) hc
  rwa [hsize] at this

/-- The regions are written one behind the other. -/
theorem saveRegions_bounds {ptr : ℕ} {ms : List MemoryRegion} (hw : w ∈ saveRegions ptr ms) :
    ptr ≤ w.offset ∧ w.offset + 8 ≤ ptr + 16 * ms.length := by
  induction ms generalizing ptr with
  | nil => cases hw
  | cons m ms ih =>
    rw [List.length_cons]
    rcases List.mem_cons.mp hw with rfl | hw
    · dsimp only
      omega
    · rcases List.mem_cons.mp hw with rfl | hw
      · dsimp only
        omega
      · have := ih hw
        omega

/-- The last region is written to the end of the list. -/
theorem exists_saveRegions {ptr : ℕ} {ms : List MemoryRegion} (hms : ms ≠ []) :
    ∃ w ∈ saveRegions ptr ms, w.offset + 8 = ptr + 16 * ms.length := by
  induction ms generalizing ptr with
  | nil => exact absurd rfl hms
  | cons m ms ih =>
    cases ms with
    | nil => exact ⟨⟨ptr + 8, m.size⟩, by simp [saveRegions], by simp⟩
    | cons m' ms =>
      obtain ⟨w, hw, hoff⟩ := ih (by simp)
      refine ⟨w, List.mem_cons_of_mem _ (List.mem_cons_of_mem _ hw), ?_⟩
      rw [hoff, List.length_cons (a := m)]
      omega

/-- What `GlobalAlloc::save` writes fits if and only if there are at most sixteen free regions. -/
theorem save_in_section_iff {s : GlobalState} {nvm : ℕ} :
    (∀ w ∈ s.save nvm, nvm ≤ w.offset ∧ w.offset + 8 ≤ nvm + globalSnapshotSize) ↔
      s.freeRegions.length ≤ 16 := by
  have hsize : globalSnapshotSize = 272 := rfl
  rw [hsize]
  constructor
  · intro h
    by_cases hms : s.freeRegions = []
    · simp [hms]
    · obtain ⟨w, hw, hoff⟩ := exists_saveRegions hms
      have := h w (List.mem_cons_of_mem _ (List.mem_cons_of_mem _ hw))
      omega
  · intro hle w hw
    rcases List.mem_cons.mp hw with rfl | hw
    · dsimp only
      omega
    · rcases List.mem_cons.mp hw with rfl | hw
      · dsimp only
        omega
      · have := saveRegions_bounds hw
        omega

/-- A free list is written into its record. -/
theorem FreeList.save_bounds {fl : FreeList} {nvm : ℕ} (hw : w ∈ fl.save nvm) :
    nvm ≤ w.offset ∧ w.offset + 8 ≤ nvm + freeListSnapshotSize := by
  have hsize : freeListSnapshotSize = 144 := rfl
  rw [hsize]
  rcases List.mem_append.mp hw with hw | hw
  · simp only [List.mem_cons, List.not_mem_nil, or_false] at hw
    rcases hw with rfl | rfl | rfl | rfl <;> dsimp only <;> omega
  · obtain ⟨i, hi, rfl⟩ := List.mem_map.mp hw
    have : i < 14 := List.mem_range.mp hi
    dsimp only
    omega

/-- The free lists are written one behind the other. -/
theorem saveFreeLists_bounds {ptr : ℕ} {fls : List FreeList} (hw : w ∈ saveFreeLists ptr fls) :
    ptr ≤ w.offset ∧ w.offset + 8 ≤ ptr + fls.length * freeListSnapshotSize := by
  induction fls generalizing ptr with
  | nil => cases hw
  | cons fl fls ih =>
    rw [List.length_cons, Nat.succ_mul]
    rcases List.mem_append.mp hw with hw | hw
    · have := FreeList.save_bounds hw
      omega
    · have := ih hw
      omega

/-- An allocator is written into its record. -/
theorem ObjectAlloc.save_bounds {oa : ObjectAlloc} {nvm : ℕ} (hw : w ∈ oa.save nvm) :
    nvm ≤ w.offset ∧ w.offset + 8 ≤ nvm + oa.snapshotSize := by
  rw [ObjectAlloc.snapshotSize]
  rcases List.mem_append.mp hw with hw | hw
  · simp only [List.mem_cons, List.not_mem_nil, or_false] at hw
    rcases hw with rfl | rfl | rfl | rfl <;> dsimp only <;> omega
  · have := saveFreeLists_bounds hw
    omega

/-- The records of the objects fill the space that is computed for them. -/
theorem saveObjects_bounds {snapshot : ℕ} {objects : List SavedObject}
    (hw : w ∈ saveObjects snapshot objects) :
    snapshot ≤ w.offset ∧ w.offset + 8 ≤ snapshot + (objects.map SavedObject.recordSize).sum := by
  induction objects generalizing snapshot with
  | nil => cases hw
  | cons o os ih =>
    rw [List.map_cons, List.sum_cons, SavedObject.recordSize]
    rcases List.mem_append.mp hw with hw | hw
    · rcases List.mem_append.mp hw with hw | hw
      · simp only [List.mem_cons, List.not_mem_nil, or_false] at hw
        rcases hw with rfl | rfl | rfl <;> dsimp only <;> omega
      · have := ObjectAlloc.save_bounds hw
        omega
    · have := ih hw
      omega

end Tables

/-! ## Pools -/

/-- The mapped memory is a number of minimal pools. -/
def GlobalState.WholePools (s : GlobalState) : Prop := ∃ n, s.limit = baseAddress + n * minPoolSize

namespace GlobalState

variable {s s' : GlobalState} {ptr size : ℕ}

theorem WholePools.congr (h : s.WholePools) (heq : s'.ga.mappedRegions = s.ga.mappedRegions) :
    s'.WholePools := by
  obtain ⟨n, hn⟩ := h
  exact ⟨n, by simpa only [limit, heq] using hn⟩

theorem mappedRegions_takeFrom (s : GlobalState) (head size : ℕ) :
    (s.takeFrom head size).2.ga.mappedRegions = s.ga.mappedRegions := by
  simp only [takeFrom]
  split
  · split <;> split <;> rfl
  · rfl

/-- Doubling keeps multiples of the minimal pool. -/
theorem poolSize_dvd {fuel allocSize n : ℕ} (hdvd : minPoolSize ∣ allocSize)
    (h : poolSize size fuel allocSize = some n) : minPoolSize ∣ n := by
  induction fuel generalizing allocSize with
  | zero => cases h
  | succ fuel ih =>
    rw [poolSize] at h
    split at h
    · exact ih ((Nat.dvd_mod_iff (by decide)).mpr (Dvd.dvd.mul_right hdvd 2)) h
    · cases h
      exact hdvd

/-- A new pool is a number of minimal pools. -/
theorem WholePools.mapPool (h : s.WholePools) (heq : s.mapPool size = some (ptr, s')) :
    s'.WholePools := by
  obtain ⟨k, hk⟩ := h
  obtain ⟨last, hlast, heq⟩ := Option.bind_eq_some_iff.mp heq
  obtain ⟨n, hn, heq⟩ := Option.bind_eq_some_iff.mp heq
  obtain ⟨j, rfl⟩ := poolSize_dvd (dvd_refl minPoolSize) hn
  have hlimit : last.ptr + last.size = baseAddress + k * minPoolSize := by
    rw [← hk]
    simp only [limit, hlast]
  have hmapped : s'.ga.mappedRegions =
      s.ga.mappedRegions ++ [⟨last.ptr + last.size, minPoolSize * j⟩] := by
    dsimp only at heq
    split at heq <;> cases heq <;> rfl
  refine ⟨k + j, ?_⟩
  simp only [limit, hmapped, List.getLast?_concat]
  rw [hlimit, Nat.add_mul, Nat.mul_comm j]
  omega

/-- Allocating keeps the pools whole. -/
theorem WholePools.allocFrom (h : s.WholePools) {fuel head : ℕ}
    (heq : s.allocFrom fuel head size = some (ptr, s')) : s'.WholePools := by
  obtain ⟨a, -, heq⟩ := Option.bind_eq_some_iff.mp heq
  split at heq
  · refine h.congr ?_
    have := mappedRegions_takeFrom s a size
    rwa [Option.some.inj heq] at this
  · exact h.mapPool heq

/-- The number of blocks is the same for all threads. -/
theorem WholePools.allocatedBlocks_mod (h : s.WholePools) :
    s.allocatedBlocks % snapshotThreads = 0 := by
  obtain ⟨n, hn⟩ := h
  have hpool : minPoolSize = blockSize * 128 := rfl
  rw [allocatedBlocks, hn, Nat.add_sub_cancel_left, hpool, Nat.mul_comm n, Nat.mul_assoc,
    Nat.mul_div_cancel_left _ (by decide)]
  simp only [snapshotThreads]
  omega

end GlobalState

/-- So does every step of any thread. -/
theorem raceStep_wholePools {s s' : RaceState} {a : RaceAction} (h : s.gs.WholePools)
    (hstep : raceStep s a = some s') : s'.gs.WholePools := by
  cases a with
  | read t size =>
    obtain ⟨-, hstep⟩ := Option.ite_none_right_eq_some.mp hstep
    cases hstep
    exact h
  | body t fuel =>
    obtain ⟨⟨size, head⟩, -, hstep⟩ := Option.bind_eq_some_iff.mp hstep
    obtain ⟨⟨ptr, gs⟩, halloc, hstep⟩ := Option.bind_eq_some_iff.mp hstep
    cases hstep
    exact h.allocFrom halloc
  | release m =>
    obtain ⟨-, hstep⟩ := Option.ite_none_right_eq_some.mp hstep
    obtain ⟨gs, hrelease, rfl⟩ := Option.map_eq_some_iff.mp hstep
    exact h.congr (mappedRegions_release hrelease)
  | write a hdr prev next =>
    obtain ⟨-, hstep⟩ := Option.ite_none_right_eq_some.mp hstep
    cases hstep
    exact h.congr rfl

/-! ## All sections -/

section Main

variable (h : SnapshotHeader) (objects : List SavedObject) (s : GlobalState)
  (bitmap : ℕ → BitVec 64) (faults : ℕ → Option (Fin blockSize))

/-- The copies of the handlers: `faults b` is where in block `b` a write faults before a worker has
come to the block. -/
def handlerCopies : List Copy :=
  (List.range s.allocatedBlocks).flatMap fun b =>
    match faults b with
    | some o =>
      if blockUsed bitmap b then pageFaultHandler h bitmap (baseAddress + b * blockSize + o.val)
      else []
    | none => []

/-- The copies of the workers and the handlers. -/
def pageCopies : List Copy :=
  saveModifiedPages h bitmap (fun b => blockUsed bitmap b && (faults b).isNone) s.allocatedBlocks ++
    handlerCopies h s bitmap faults

/-- Everything that `create` writes behind the header is written into its own section. -/
structure WritesInSections : Prop where
  bitmapSection : ∀ c ∈ saveBitmap h.bitmapOffset,
    h.bitmapOffset ≤ c.dst ∧ c.dst + c.len ≤ h.globalOffset
  globalSection : ∀ w ∈ s.save h.globalOffset, h.globalOffset ≤ w.offset ∧ w.offset + 8 ≤ h.allocOffset
  allocSection : ∀ w ∈ saveObjects h.allocOffset objects,
    h.allocOffset ≤ w.offset ∧ w.offset + 8 ≤ h.dataOffset
  dataSection : ∀ c ∈ pageCopies h s bitmap faults, h.dataOffset ≤ c.dst ∧ c.dst + c.len ≤ h.size

variable {h objects s bitmap faults}

/-- Every used block is copied, by a worker or by a handler. -/
theorem mem_pageCopies (hmod : s.allocatedBlocks % snapshotThreads = 0) {c : Copy} :
    c ∈ pageCopies h s bitmap faults ↔
      ∃ b < s.allocatedBlocks, blockUsed bitmap b = true ∧ c ∈ blockCopies h bitmap b := by
  rw [pageCopies, List.mem_append, mem_saveModifiedPages hmod, handlerCopies, List.mem_flatMap]
  constructor
  · rintro (⟨b, hb, hwon, hc⟩ | ⟨b, hb, hc⟩)
    · exact ⟨b, hb, (Bool.and_eq_true_iff.mp hwon).1, hc⟩
    · cases hfault : faults b with
      | none => simp [hfault] at hc
      | some o =>
        rw [hfault] at hc
        dsimp only at hc
        split at hc
        · rename_i hused
          rw [pageFaultHandler_eq] at hc
          exact ⟨b, List.mem_range.mp hb, hused, hc⟩
        · cases hc
  · rintro ⟨b, hb, hused, hc⟩
    cases hfault : faults b with
    | none => exact Or.inl ⟨b, hb, by simp [hused, hfault], hc⟩
    | some o =>
      refine Or.inr ⟨b, List.mem_range.mpr hb, ?_⟩
      rw [hfault]
      dsimp only
      rwa [if_pos hused, pageFaultHandler_eq]

theorem le_tablesSize (objects : List SavedObject) :
    snapshotHeaderSize + bitmapSize + globalSnapshotSize +
      (objects.map SavedObject.recordSize).sum ≤ tablesSize objects := by
  simp only [tablesSize]
  split <;> omega

/-- The pages stay in the file exactly when the blocks in use are among those for which the file
has room. -/
theorem pages_in_section_iff {n : ℕ} (hmod : s.allocatedBlocks % snapshotThreads = 0) :
    (∀ c ∈ pageCopies (snapshotHeader objects n) s bitmap faults,
        (snapshotHeader objects n).dataOffset ≤ c.dst ∧
          c.dst + c.len ≤ (snapshotHeader objects n).size) ↔
      ∀ b < s.allocatedBlocks, blockUsed bitmap b = true → b < n + minPoolSize / blockSize := by
  have hsize : (snapshotHeader objects n).size = (snapshotHeader objects n).dataOffset +
      (n + minPoolSize / blockSize) * blockSize := rfl
  have hpos : 0 < blockSize := by decide
  constructor
  · intro hcopies b hb hused
    obtain ⟨c, hc, hdst, hlen⟩ := exists_copy (n := 8) (by decide)
    have hbound := hcopies c ((mem_pageCopies hmod).mpr ⟨b, hb, hused, hc⟩)
    rw [hsize, hdst] at hbound
    have hlt : b * blockSize < (n + minPoolSize / blockSize) * blockSize := by omega
    exact Nat.lt_of_mul_lt_mul_right hlt
  · intro hused c hc
    obtain ⟨b, hb, hb', hc⟩ := (mem_pageCopies hmod).mp hc
    have hbound := blockCopies_bounds hc
    have hle : (b + 1) * blockSize ≤ (n + minPoolSize / blockSize) * blockSize :=
      Nat.mul_le_mul_right _ (hused b hb hb')
    omega

/-- **What a snapshot writes stays in its sections if and only if** the global allocator has at most
sixteen free regions and every block in use lies in front of the end of the reserved space. `s₀` is the
state in which the space for the pages is reserved and `s₁` the frozen state. -/
theorem writes_in_sections_iff {mem : HeapMemory} {acts₀ acts₁ : List RaceAction} {s₀ s₁ : RaceState}
    (hrun₀ : run raceStep (.start mem) acts₀ = some s₀) (hrun₁ : run raceStep s₀ acts₁ = some s₁)
    (objects : List SavedObject) (bitmap : ℕ → BitVec 64) (faults : ℕ → Option (Fin blockSize)) :
    WritesInSections (snapshotHeader objects s₀.gs.allocatedBlocks) objects s₁.gs bitmap faults ↔
      s₁.gs.freeRegions.length ≤ 16 ∧
      ∀ b < s₁.gs.allocatedBlocks, blockUsed bitmap b = true →
        b < s₀.gs.allocatedBlocks + minPoolSize / blockSize := by
  have hpools : s₁.gs.WholePools :=
    run_invariant (I := fun s => s.gs.WholePools) (fun _ _ _ => raceStep_wholePools)
      (run_invariant (I := fun s => s.gs.WholePools) (fun _ _ _ => raceStep_wholePools)
        ⟨1, rfl⟩ hrun₀) hrun₁
  rw [← pages_in_section_iff hpools.allocatedBlocks_mod, ← save_in_section_iff]
  constructor
  · exact fun hall => ⟨hall.globalSection, hall.dataSection⟩
  · rintro ⟨hglobal, hpages⟩
    refine ⟨fun c hc => saveBitmap_bounds hc, hglobal, fun w hw => ?_, hpages⟩
    have hbound := saveObjects_bounds hw
    have hle : (snapshotHeader objects s₀.gs.allocatedBlocks).allocOffset +
        (objects.map SavedObject.recordSize).sum ≤
        (snapshotHeader objects s₀.gs.allocatedBlocks).dataOffset := le_tablesSize objects
    omega

/-- Thirty-three blocks are taken and every other one is given back. -/
def fragmentedActions : List RaceAction :=
  ((List.range 33).flatMap fun _ => [.read 0 0x200000, .body 0 2]) ++
    (List.range 16).map fun i => .release ⟨0x10010000000 - (2 * i + 2) * 0x200000, 0x200000⟩

/-- The free list has seventeen regions, and saving it overwrites the section of the objects. -/
theorem fragmented_list_overflows :
    ∃ s, run raceStep (.start .blank) fragmentedActions = some s ∧
      s.gs.freeRegions.length = 17 ∧
      ¬ WritesInSections (snapshotHeader [] s.gs.allocatedBlocks) [] s.gs (fun _ => 0)
        (fun _ => none) := by
  have hcheck : (run raceStep (.start .blank) fragmentedActions).any
      (fun s => s.gs.freeRegions.length == 17) = true := by decide +kernel
  obtain ⟨s, hrun, hs⟩ := run_of_any hcheck
  have hlen : s.gs.freeRegions.length = 17 := by simpa using hs
  refine ⟨s, hrun, hlen, fun hall => ?_⟩
  have := save_in_section_iff.mp hall.globalSection
  omega

/-- A pool of 512 MB is mapped after the space for the pages was reserved, and its last block is in
use. -/
theorem late_pool_overflows :
    ∃ s, run raceStep (.start .blank) [.read 0 0x20000000, .body 0 2] = some s ∧
      ¬ WritesInSections (snapshotHeader [] (RaceState.start .blank).gs.allocatedBlocks) []
        s.gs (fun cell => if cell = 383 * 8 then 1 else 0) (fun _ => none) := by
  have hcheck : (run raceStep (.start .blank) [.read 0 0x20000000, .body 0 2]).any
      (fun s => s.gs.allocatedBlocks == 384) = true := by decide +kernel
  obtain ⟨s, hrun, hs⟩ := run_of_any hcheck
  have hblocks : s.gs.allocatedBlocks = 384 := by simpa using hs
  refine ⟨s, hrun, fun hall => ?_⟩
  have := (pages_in_section_iff (by rw [hblocks]; decide)).mp hall.dataSection 383 (by omega)
    (by decide)
  revert this
  decide +kernel

/-- One block is in use before the space is reserved and another one when the system is frozen. -/
theorem writes_in_sections_iff_two_blocks :
    ∃ s₀ s₁, run raceStep (.start .blank) [.read 0 0x200000, .body 0 2] = some s₀ ∧
      run raceStep s₀ [.read 1 0x200000, .body 1 2] = some s₁ ∧
      WritesInSections (snapshotHeader [⟨3, 192, 0x10000000008, ⟨0, 0x20000000000, [.new 0]⟩⟩]
          s₀.gs.allocatedBlocks) [⟨3, 192, 0x10000000008, ⟨0, 0x20000000000, [.new 0]⟩⟩] s₁.gs
        (fun cell => if cell = 126 * 8 ∨ cell = 127 * 8 then 1 else 0)
        (fun b => if b = 127 then some ⟨8, by decide⟩ else none) := by
  have hcheck₀ : (run raceStep (.start .blank) [.read 0 0x200000, .body 0 2]).any
      (fun s₀ => s₀.gs.allocatedBlocks == 128 &&
        (run raceStep s₀ [.read 1 0x200000, .body 1 2]).any
          (fun s₁ => s₁.gs.allocatedBlocks == 128 && s₁.gs.freeRegions.length == 1)) = true := by
    decide +kernel
  obtain ⟨s₀, hrun₀, hs₀⟩ := run_of_any hcheck₀
  obtain ⟨hblocks₀, hcheck₁⟩ := Bool.and_eq_true_iff.mp hs₀
  obtain ⟨s₁, hrun₁, hs₁⟩ := run_of_any hcheck₁
  obtain ⟨hblocks₁, hlen⟩ := Bool.and_eq_true_iff.mp hs₁
  refine ⟨s₀, s₁, hrun₀, hrun₁, (writes_in_sections_iff hrun₀ hrun₁ _ _ _).mpr ⟨?_, ?_⟩⟩
  · rw [beq_iff_eq.mp hlen]
    decide
  · intro b hb _
    rw [beq_iff_eq.mp hblocks₁] at hb
    rw [beq_iff_eq.mp hblocks₀]
    exact lt_of_lt_of_le hb (Nat.le_add_right _ _)

end Main

end Pronto
