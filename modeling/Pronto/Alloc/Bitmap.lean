import Pronto.Alloc.Heap

/-!
# The page bitmap

`setBitmap` and `unsetBitmap` walk over the pages of a range. For chunks larger than a block the
allocator uses `setBitmapForBigAlloc` and `unsetBitmapForBigDealloc`, which walk over the 64-bit
cells of the bitmap, each of them 64 pages. `pageSet_markPages` says what the walk over the pages
leaves, page by page, and `big_bitmap_eq` that the walks over the cells leave the same bitmap.
-/

namespace Pronto

/-- `stepSize`: the bytes that a cell of the bitmap stands for. -/
def cellSize : ℕ := bitmapGranularity * 64

/-- The `while` loop of `setBitmapForBigAlloc`: the pointer behind it and the bitmap. -/
def fillCells (limit : ℕ) : ℕ → ℕ → ℕ → (ℕ → BitVec 64) → ℕ × (ℕ → BitVec 64)
  | 0, ptr, _, bitmap => (ptr, bitmap)
  | fuel + 1, ptr, offset, bitmap =>
    let next := (ptr + cellSize) % 2 ^ 64
    if next ≤ limit then
      fillCells limit fuel next (offset + 1) (Function.update bitmap offset (BitVec.allOnes 64))
    else (ptr, bitmap)

/-- `GlobalAlloc::setBitmapForBigAlloc`; `none` is a failed assertion. -/
def HeapMemory.setBitmapForBigAlloc (m : HeapMemory) (ptr size : ℕ) : Option HeapMemory :=
  if ptr % blockSize = 0 then
    let limit := (ptr + size) % 2 ^ 64
    let r := fillCells limit (size / cellSize + 1) ptr ((ptr - baseAddress) / cellSize) m.bitmap
    let m' := { m with bitmap := r.2 }
    some (if r.1 < limit then m'.setBitmap r.1 (limit - r.1) else m')
  else none

/-- The `for` loop of `unsetBitmapForBigDealloc` over the cells from `offset` on. -/
def clearCells : ℕ → ℕ → (ℕ → BitVec 64) → ℕ → BitVec 64
  | 0, _, bitmap => bitmap
  | n + 1, offset, bitmap => clearCells n (offset + 1) (Function.update bitmap offset 0)

/-- `GlobalAlloc::unsetBitmapForBigDealloc`; `none` is a failed assertion. -/
def HeapMemory.unsetBitmapForBigDealloc (m : HeapMemory) (ptr blocks : ℕ) : Option HeapMemory :=
  if ptr % blockSize = 0 then
    some { m with
      bitmap := clearCells (blocks * 8 % 2 ^ 64) ((ptr - baseAddress) / cellSize) m.bitmap }
  else none

/-! ## Pages and cells -/

/-- The address of a page. -/
def pageAddr (page : ℕ) : ℕ := baseAddress + page * bitmapGranularity

/-- Bitmaps with the same pages are equal. -/
theorem bitmap_ext {bitmap bitmap' : ℕ → BitVec 64}
    (h : ∀ page, pageSet bitmap page = pageSet bitmap' page) : bitmap = bitmap' := by
  funext cell
  refine BitVec.eq_of_getLsbD_eq fun i hi => ?_
  have hpage := h (64 * cell + i)
  have hdiv : (64 * cell + i) / 64 = cell := by omega
  have hmod : (64 * cell + i) % 64 = i := by omega
  rwa [pageSet, pageSet, hdiv, hmod] at hpage

/-- A cell that is replaced. -/
theorem pageSet_update (bitmap : ℕ → BitVec 64) (cell : ℕ) (v : BitVec 64) (page : ℕ) :
    pageSet (Function.update bitmap cell v) page =
      if page / 64 = cell then v.getLsbD (page % 64) else pageSet bitmap page := by
  rw [pageSet, Function.update_apply]
  split <;> rfl

/-- A single bit of its cell. -/
theorem pageSet_bit (bitmap : ℕ → BitVec 64) (set : Bool) (q page : ℕ) :
    pageSet (Function.update bitmap (q / 64)
        (if set then bitmap (q / 64) ||| 1#64 <<< (q % 64)
          else bitmap (q / 64) &&& ~~~(1#64 <<< (q % 64)))) page =
      if page = q then set else pageSet bitmap page := by
  rw [pageSet_update]
  have hmod : q % 64 < 64 := Nat.mod_lt _ (by decide)
  have hmod' : page % 64 < 64 := Nat.mod_lt _ (by decide)
  have hbit : (1#64 <<< (q % 64)).getLsbD (page % 64) = decide (page % 64 = q % 64) := by
    rw [BitVec.getLsbD_shiftLeft]
    simp only [hmod', decide_true, Bool.true_and, BitVec.getLsbD_one]
    by_cases heq : page % 64 = q % 64
    · simp [heq]
    · by_cases hlt : page % 64 < q % 64
      · simp [hlt, heq]
      · have : page % 64 - q % 64 ≠ 0 := by omega
        simp [heq, this]
  by_cases hcell : page / 64 = q / 64
  · rw [if_pos hcell]
    have heq : page = q ↔ page % 64 = q % 64 := by omega
    simp only [heq, pageSet, hcell]
    cases set with
    | true =>
      simp only [if_true, BitVec.getLsbD_or, hbit]
      split <;> simp [*]
    | false =>
      simp only [Bool.false_eq_true, if_false, BitVec.getLsbD_and, BitVec.getLsbD_not, hbit, hmod',
        decide_true, Bool.true_and]
      split <;> simp [*]
  · rw [if_neg hcell, if_neg fun h => hcell (by rw [h])]

/-! ## Walking over pages and cells -/

theorem pageAddr_sub {a : ℕ} (hbase : baseAddress ≤ a) (halign : a % bitmapGranularity = 0) :
    pageAddr ((a - baseAddress) / 0x1000) = a := by
  simp only [pageAddr, baseAddress, bitmapGranularity] at *
  omega

/-- The walk over the pages from `a` to `limit`. -/
theorem pageSet_bitmapLoop {set : Bool} {limit fuel a : ℕ} {bitmap : ℕ → BitVec 64}
    (hbase : baseAddress ≤ a) (halign : a % bitmapGranularity = 0)
    (hfuel : limit ≤ a + fuel * bitmapGranularity) (page : ℕ) :
    pageSet (bitmapLoop set limit fuel a bitmap) page =
      if a ≤ pageAddr page ∧ pageAddr page < limit then set else pageSet bitmap page := by
  -- the loop goes page by page; by induction on the pages that are left
  induction fuel generalizing a bitmap with
  | zero =>
    rw [bitmapLoop, if_neg]
    omega
  | succ fuel ih =>
    rw [bitmapLoop]
    split
    · rename_i hlt
      have hpage : page = (a - baseAddress) / 0x1000 ↔ pageAddr page = a := by
        rw [← pageAddr_sub hbase halign]
        simp only [pageAddr, bitmapGranularity]
        omega
      have hnext : a + bitmapGranularity ≤ pageAddr page ↔ a < pageAddr page := by
        simp only [pageAddr, baseAddress, bitmapGranularity] at *
        omega
      dsimp only
      rw [ih (by omega) (by rw [Nat.add_mod_right]; exact halign)
        (by rw [Nat.succ_mul] at hfuel; omega), pageSet_bit]
      simp only [hpage, hnext]
      by_cases heq : pageAddr page = a
      · rw [if_neg (by omega), if_pos heq, if_pos (by omega)]
      · rw [if_neg heq]
        exact if_congr (by omega) rfl rfl
    · rw [if_neg]
      omega

/-- `setBitmap` and `unsetBitmap`, page by page. -/
theorem pageSet_markPages (m : HeapMemory) (set : Bool) {ptr : ℕ} (size : ℕ)
    (hbase : baseAddress ≤ ptr) (page : ℕ) :
    pageSet (m.markPages set ptr size).bitmap page =
      if ptr / bitmapGranularity * bitmapGranularity ≤ pageAddr page ∧
        pageAddr page < (ptr + size) % 2 ^ 64 then set else pageSet m.bitmap page := by
  refine pageSet_bitmapLoop ?_ (Nat.mul_mod_left _ _) ?_ page
  · simp only [baseAddress, bitmapGranularity] at *
    omega
  · have hle : (ptr + size) % 2 ^ 64 ≤ ptr + size := Nat.mod_le _ _
    simp only [bitmapGranularity]
    omega

/-- The pages of a cell. -/
theorem div_64_eq_iff {page cell : ℕ} :
    page / 64 = cell ↔ baseAddress + cell * cellSize ≤ pageAddr page ∧
      pageAddr page < baseAddress + (cell + 1) * cellSize := by
  simp only [pageAddr, cellSize, bitmapGranularity]
  omega

/-- A cell whose pages are all set, or all cleared. -/
theorem pageSet_cell (bitmap : ℕ → BitVec 64) (set : Bool) (cell page : ℕ) :
    pageSet (Function.update bitmap cell (if set then BitVec.allOnes 64 else 0)) page =
      if baseAddress + cell * cellSize ≤ pageAddr page ∧
        pageAddr page < baseAddress + (cell + 1) * cellSize then set else pageSet bitmap page := by
  rw [pageSet_update]
  refine if_congr div_64_eq_iff ?_ rfl
  have hmod : page % 64 < 64 := Nat.mod_lt _ (by decide)
  cases set with
  | true => rw [if_pos rfl, BitVec.getLsbD_allOnes, decide_eq_true hmod]
  | false => simp

/-- The walk over the cells that are filled: it stops behind the last one that fits. -/
theorem fillCells_spec {limit fuel offset ptr : ℕ} (bitmap : ℕ → BitVec 64)
    (hptr : ptr = baseAddress + offset * cellSize) (hsmall : ptr + cellSize < 2 ^ 64)
    (hlimit : limit + cellSize < 2 ^ 64) (hfuel : limit < ptr + fuel * cellSize) :
    ∃ k, (fillCells limit fuel ptr offset bitmap).1 = baseAddress + (offset + k) * cellSize ∧
      (fillCells limit fuel ptr offset bitmap).1 ≤ max ptr limit ∧
      ∀ page, pageSet (fillCells limit fuel ptr offset bitmap).2 page =
        if ptr ≤ pageAddr page ∧ pageAddr page < (fillCells limit fuel ptr offset bitmap).1 then true
        else pageSet bitmap page := by
  induction fuel generalizing ptr offset bitmap with
  | zero =>
    refine ⟨0, hptr, le_max_left _ _, fun page => ?_⟩
    rw [fillCells, if_neg]
    omega
  | succ fuel ih =>
    rw [fillCells, Nat.mod_eq_of_lt hsmall]
    split
    · rename_i hle
      have hnext : ptr + cellSize = baseAddress + (offset + 1) * cellSize := by
        rw [hptr, Nat.succ_mul, Nat.add_assoc]
      obtain ⟨k, hend, hbound, hpages⟩ := ih (Function.update bitmap offset (.allOnes 64))
        hnext (by omega) (by rw [Nat.succ_mul] at hfuel; omega)
      refine ⟨k + 1, by rw [hend, Nat.add_assoc, Nat.add_comm 1], by omega, fun page => ?_⟩
      have hcell := pageSet_cell bitmap true offset page
      rw [if_pos rfl, ← hptr, ← hnext] at hcell
      rw [hpages, hcell]
      have hge : ptr + cellSize ≤ (fillCells limit fuel (ptr + cellSize) (offset + 1)
          (Function.update bitmap offset (BitVec.allOnes 64))).1 := by
        rw [hend, hnext]
        have : (offset + 1) * cellSize ≤ (offset + 1 + k) * cellSize :=
          Nat.mul_le_mul_right _ (Nat.le_add_right _ _)
        omega
      generalize (fillCells limit fuel (ptr + cellSize) (offset + 1)
        (Function.update bitmap offset (BitVec.allOnes 64))).1 = last at hge
      split_ifs <;> first | rfl | omega
    · refine ⟨0, hptr, le_max_left _ _, fun page => ?_⟩
      rw [if_neg]
      omega

/-- The walk over the cells that are cleared. -/
theorem pageSet_clearCells {n offset : ℕ} {bitmap : ℕ → BitVec 64} (page : ℕ) :
    pageSet (clearCells n offset bitmap) page =
      if baseAddress + offset * cellSize ≤ pageAddr page ∧
        pageAddr page < baseAddress + (offset + n) * cellSize then false
      else pageSet bitmap page := by
  induction n generalizing offset bitmap with
  | zero =>
    rw [clearCells, if_neg]
    simp only [Nat.add_zero]
    omega
  | succ n ih =>
    have hend : (offset + 1 + n) * cellSize = (offset + (n + 1)) * cellSize := by
      rw [Nat.add_assoc, Nat.add_comm 1]
    have hmono : (offset + 1) * cellSize ≤ (offset + 1 + n) * cellSize :=
      Nat.mul_le_mul_right _ (Nat.le_add_right _ _)
    have hmono' : offset * cellSize ≤ (offset + 1) * cellSize :=
      Nat.mul_le_mul_right _ (Nat.le_add_right _ _)
    have hcell := pageSet_cell bitmap false offset page
    rw [if_neg (by decide)] at hcell
    rw [clearCells, ih, hcell, ← hend]
    split_ifs <;> first | rfl | omega

/-! ## Both walks -/

section Big

variable (m : HeapMemory) {ptr : ℕ}

/-- A block starts at a cell of the bitmap. -/
theorem cell_of_block (halign : ptr % blockSize = 0) (hbase : baseAddress ≤ ptr) :
    baseAddress + (ptr - baseAddress) / cellSize * cellSize = ptr := by
  simp only [baseAddress, blockSize, cellSize, bitmapGranularity] at *
  omega

theorem page_of_block (halign : ptr % blockSize = 0) :
    ptr / bitmapGranularity * bitmapGranularity = ptr := by
  simp only [blockSize, bitmapGranularity] at *
  omega

/-- `setBitmapForBigAlloc` passes its assertion for a region at a block boundary, and then marks
the pages as the small chunks' routine does. -/
theorem setBitmapForBigAlloc_eq (halign : ptr % blockSize = 0) (hbase : baseAddress ≤ ptr)
    (hsmall : ptr + cellSize < 2 ^ 64) {size : ℕ} (hlimit : (ptr + size) % 2 ^ 64 + cellSize < 2 ^ 64) :
    m.setBitmapForBigAlloc ptr size = some (m.setBitmap ptr size) := by
  rw [HeapMemory.setBitmapForBigAlloc, if_pos halign]
  have hcell := cell_of_block halign hbase
  have hle : (ptr + size) % 2 ^ 64 ≤ ptr + size := Nat.mod_le _ _
  have hfuel : (ptr + size) % 2 ^ 64 < ptr + (size / cellSize + 1) * cellSize := by
    have : size < (size / cellSize + 1) * cellSize := by
      rw [Nat.mul_comm]
      exact Nat.lt_mul_div_succ size (by decide)
    omega
  obtain ⟨k, hend, hbound, hpages⟩ := fillCells_spec m.bitmap hcell.symm hsmall hlimit hfuel
  dsimp only
  -- from here on only the end of the loop over whole cells and its bitmap matter
  generalize fillCells ((ptr + size) % 2 ^ 64) (size / cellSize + 1) ptr
    ((ptr - baseAddress) / cellSize) m.bitmap = r at hend hbound hpages
  obtain ⟨last, bitmap⟩ := r
  dsimp only at hend hbound hpages
  generalize hlim : (ptr + size) % 2 ^ 64 = limit at *
  have hlast : last / bitmapGranularity * bitmapGranularity = last := by
    rw [hend]
    simp only [baseAddress, cellSize, bitmapGranularity]
    omega
  have hge : ptr ≤ last := by
    rw [hend, ← hcell]
    exact Nat.add_le_add_left (Nat.mul_le_mul_right _ (by rw [hcell]; omega)) _
  congr 1
  have hset := pageSet_markPages m true size hbase
  rw [hlim, page_of_block halign] at hset
  have heq : ∀ m' : HeapMemory, m'.hdr = m.hdr → m'.links = m.links → m'.touched = m.touched →
      (∀ page, pageSet m'.bitmap page =
        if ptr ≤ pageAddr page ∧ pageAddr page < limit then true else pageSet m.bitmap page) →
      m' = m.setBitmap ptr size := by
    rintro ⟨hdr, links, bitmap', touched⟩ rfl rfl rfl hm'
    have hbitmap : bitmap' = (m.setBitmap ptr size).bitmap :=
      bitmap_ext fun page => (hm' page).trans (hset page).symm
    rw [hbitmap]
    rfl
  split
  · rename_i hlt
    refine heq _ rfl rfl rfl fun page => ?_
    have hrest := pageSet_markPages { m with bitmap := bitmap } true (limit - last) (hbase.trans hge) page
    rw [hlast, Nat.add_sub_cancel' hlt.le, Nat.mod_eq_of_lt (by omega)] at hrest
    rw [HeapMemory.setBitmap, hrest, hpages]
    split_ifs <;> first | rfl | omega
  · refine heq _ rfl rfl rfl fun page => ?_
    rw [hpages]
    split_ifs <;> first | rfl | omega

/-- `unsetBitmapForBigDealloc` clears the pages of the whole region, all of its blocks. -/
theorem unsetBitmapForBigDealloc_eq (halign : ptr % blockSize = 0) (hbase : baseAddress ≤ ptr)
    {blocks : ℕ} (hlimit : ptr + blocks * blockSize < 2 ^ 64) :
    m.unsetBitmapForBigDealloc ptr blocks = some (m.unsetBitmap ptr (blocks * blockSize)) := by
  rw [HeapMemory.unsetBitmapForBigDealloc, if_pos halign]
  have hcells : blocks * 8 % 2 ^ 64 = blocks * 8 := by
    refine Nat.mod_eq_of_lt ?_
    simp only [blockSize] at hlimit
    omega
  have hend : baseAddress + ((ptr - baseAddress) / cellSize + blocks * 8) * cellSize =
      ptr + blocks * blockSize := by
    have hcell := cell_of_block halign hbase
    rw [Nat.add_mul, ← Nat.add_assoc, hcell]
    simp only [cellSize, bitmapGranularity, blockSize]
    omega
  have hbitmap : clearCells (blocks * 8 % 2 ^ 64) ((ptr - baseAddress) / cellSize) m.bitmap =
      (m.unsetBitmap ptr (blocks * blockSize)).bitmap := by
    refine bitmap_ext fun page => ?_
    rw [hcells, pageSet_clearCells, hend, cell_of_block halign hbase, HeapMemory.unsetBitmap,
      pageSet_markPages m false _ hbase, page_of_block halign, Nat.mod_eq_of_lt hlimit]
  rw [hbitmap]
  rfl

/-- **The walks over cells and over pages leave the same bitmap**, for every block of the managed memory
and every range that does not reach into the last cell of the address space, where the walks themselves
wrap around. They change only pages that overlap the range. -/
theorem big_bitmap_eq (halign : ptr % blockSize = 0) (hbase : baseAddress ≤ ptr)
    (hmax : ptr < baseAddress + maxMemorySize) :
    (∀ size, (ptr + size) % 2 ^ 64 + cellSize < 2 ^ 64 →
      m.setBitmapForBigAlloc ptr size = some (m.setBitmap ptr size) ∧
      ∀ page, pageSet (m.setBitmap ptr size).bitmap page ≠ pageSet m.bitmap page →
        Chunk.Overlaps ⟨ptr, size, true⟩ page) ∧
    ∀ blocks, ptr + blocks * blockSize < 2 ^ 64 →
      m.unsetBitmapForBigDealloc ptr blocks = some (m.unsetBitmap ptr (blocks * blockSize)) ∧
      ∀ page, pageSet (m.unsetBitmap ptr (blocks * blockSize)).bitmap page ≠ pageSet m.bitmap page →
        Chunk.Overlaps ⟨ptr, blocks * blockSize, true⟩ page := by
  have hsmall : ptr + cellSize < 2 ^ 64 := by
    simp only [baseAddress, maxMemorySize, cellSize, bitmapGranularity] at *
    omega
  have hpages : ∀ set size page, pageSet (m.markPages set ptr size).bitmap page ≠ pageSet m.bitmap page →
      Chunk.Overlaps ⟨ptr, size, true⟩ page := by
    intro set size page hne
    rw [pageSet_markPages m set size hbase, page_of_block halign] at hne
    split at hne
    · rename_i h
      have hle : (ptr + size) % 2 ^ 64 ≤ ptr + size := Nat.mod_le _ _
      simp only [Chunk.Overlaps, pageAddr, bitmapGranularity] at h ⊢
      omega
    · exact absurd rfl hne
  exact ⟨fun size hlimit => ⟨setBitmapForBigAlloc_eq m halign hbase hsmall hlimit, hpages true size⟩,
    fun blocks hlimit => ⟨unsetBitmapForBigDealloc_eq m halign hbase hlimit, hpages false _⟩⟩

end Big

/-- A chunk of two blocks and a page. -/
theorem big_bitmap_two_blocks :
    HeapMemory.blank.setBitmapForBigAlloc baseAddress 0x401000 =
        some (HeapMemory.blank.setBitmap baseAddress 0x401000) ∧
      HeapMemory.blank.unsetBitmapForBigDealloc baseAddress 3 =
        some (HeapMemory.blank.unsetBitmap baseAddress (3 * blockSize)) :=
  have h := big_bitmap_eq .blank (show baseAddress % blockSize = 0 by decide) le_rfl (by decide)
  ⟨(h.1 0x401000 (by decide)).1, (h.2 3 (by decide)).1⟩

end Pronto
