import Pronto.Snapshot.Load
import Pronto.Snapshot.Restore

/-!
# Reading the tables back

The stores of every section go to increasing offsets, so the file holds all of them afterwards
(`holds_applyStores`). `load` then finds the objects that `create` has saved (`objects_read_back`) and,
when the free list of the global allocator fits into its section, the free regions in the order in
which they were linked (`regions_read_back`).
-/

namespace Pronto

open Memory Linked Tiling

/-- The file holds the words. -/
def Holds (file : Mem) (ws : List WordStore) : Prop :=
  ∀ w ∈ ws, load file w.offset 8 = w.value % 2 ^ 64

/-- Every word is stored behind the ones before it. -/
def Increasing (ws : List WordStore) : Prop := ws.Pairwise fun w w' => w.offset + 8 ≤ w'.offset

section Stores

variable {file file' : Mem} {ws ws' : List WordStore}

theorem Holds.append (h : Holds file (ws ++ ws')) : Holds file ws ∧ Holds file ws' :=
  ⟨fun w hw => h w (List.mem_append_left _ hw), fun w hw => h w (List.mem_append_right _ hw)⟩

theorem Holds.cons {w : WordStore} (h : Holds file (w :: ws)) :
    load file w.offset 8 = w.value % 2 ^ 64 ∧ Holds file ws :=
  ⟨h w List.mem_cons_self, fun w' hw' => h w' (List.mem_cons_of_mem w hw')⟩

/-- The words are held by every file with the same bytes. -/
theorem Holds.congr (lo hi : ℕ) (h : Holds file ws) (hws : ∀ w ∈ ws, lo ≤ w.offset ∧ w.offset + 8 ≤ hi)
    (heq : ∀ x, lo ≤ x → x < hi → file' x = file x) : Holds file' ws := by
  intro w hw
  have hbounds := hws w hw
  rw [← h w hw]
  exact load_congr fun x hlo hhi => heq x (by omega) (by omega)

theorem holds_applyStores (file : Mem) (hws : Increasing ws) : Holds (applyStores file ws) ws := by
  induction ws generalizing file with
  | nil => exact fun _ hw => nomatch hw
  | cons w ws ih =>
    obtain ⟨hfirst, hrest⟩ := List.pairwise_cons.mp hws
    intro w' hw'
    rcases List.mem_cons.mp hw' with rfl | hw'
    · have hkeep : load (applyStores file (w' :: ws)) w'.offset 8 =
          load (store file w'.offset (bytesLE w'.value 8)) w'.offset 8 :=
        load_congr fun x _ hx => applyStores_of_lt (w'.offset + 8) hfirst hx
      rw [hkeep, load_store_self, show (256 : ℕ) ^ 8 = 2 ^ 64 by rfl]
    · exact ih _ hrest w' hw'

theorem increasing_append (lo : ℕ) (h : Increasing ws) (h' : Increasing ws')
    (hws : ∀ w ∈ ws, w.offset + 8 ≤ lo) (hws' : ∀ w ∈ ws', lo ≤ w.offset) :
    Increasing (ws ++ ws') :=
  List.pairwise_append.mpr ⟨h, h', fun w hw w' hw' => (hws w hw).trans (hws' w' hw')⟩

/-- The regions are stored one behind the other. -/
theorem increasing_saveRegions {ptr : ℕ} {ms : List MemoryRegion} :
    Increasing (saveRegions ptr ms) := by
  induction ms generalizing ptr with
  | nil => exact .nil
  | cons m ms ih =>
    refine List.pairwise_cons.mpr ⟨fun w hw => ?_, List.pairwise_cons.mpr ⟨fun w hw => ?_, ih⟩⟩
    · rcases List.mem_cons.mp hw with rfl | hw
      · exact le_rfl
      · have := (saveRegions_bounds hw).1
        dsimp only
        omega
    · have := (saveRegions_bounds hw).1
      dsimp only
      omega

/-- So are the words of the global allocator. -/
theorem increasing_save {s : GlobalState} {nvm : ℕ} : Increasing (s.save nvm) := by
  refine List.pairwise_cons.mpr ⟨fun w hw => ?_, List.pairwise_cons.mpr ⟨fun w hw => ?_,
    increasing_saveRegions⟩⟩
  · rcases List.mem_cons.mp hw with rfl | hw
    · exact le_rfl
    · have := (saveRegions_bounds hw).1
      dsimp only
      omega
  · have := (saveRegions_bounds hw).1
    dsimp only
    omega

/-- So are those of a free list. -/
theorem increasing_saveFreeList {fl : FreeList} {nvm : ℕ} : Increasing (fl.save nvm) := by
  refine increasing_append (nvm + 32) ?_ ?_ ?_ ?_
  · simp [Increasing]
  · refine List.pairwise_map.mpr (List.pairwise_lt_range.imp fun hlt => ?_)
    dsimp only
    omega
  · intro w hw
    simp only [List.mem_cons, List.not_mem_nil, or_false] at hw
    rcases hw with rfl | rfl | rfl | rfl <;> dsimp only <;> omega
  · intro w hw
    obtain ⟨i, -, rfl⟩ := List.mem_map.mp hw
    dsimp only
    omega

/-- So are the free lists of an allocator. -/
theorem increasing_saveFreeLists {ptr : ℕ} {fls : List FreeList} :
    Increasing (saveFreeLists ptr fls) := by
  induction fls generalizing ptr with
  | nil => exact .nil
  | cons fl fls ih =>
    exact increasing_append _ increasing_saveFreeList ih (fun w hw => (FreeList.save_bounds hw).2)
      fun w hw => (saveFreeLists_bounds hw).1

/-- So are the words of an allocator. -/
theorem increasing_saveObjectAlloc {oa : ObjectAlloc} {nvm : ℕ} : Increasing (oa.save nvm) := by
  refine increasing_append (nvm + 32) ?_ increasing_saveFreeLists ?_
    fun w hw => (saveFreeLists_bounds hw).1
  · simp [Increasing]
  · intro w hw
    simp only [List.mem_cons, List.not_mem_nil, or_false] at hw
    rcases hw with rfl | rfl | rfl | rfl <;> dsimp only <;> omega

/-- So are the records of the objects. -/
theorem increasing_saveObjects {ptr : ℕ} {os : List SavedObject} :
    Increasing (saveObjects ptr os) := by
  induction os generalizing ptr with
  | nil => exact .nil
  | cons o os ih =>
    refine increasing_append (ptr + 24 + o.alloc.snapshotSize)
      (increasing_append (ptr + 24) ?_ increasing_saveObjectAlloc ?_
        fun w hw => (ObjectAlloc.save_bounds hw).1) ih (fun w hw => ?_)
      fun w hw => (saveObjects_bounds hw).1
    · simp [Increasing]
    · intro w hw
      simp only [List.mem_cons, List.not_mem_nil, or_false] at hw
      rcases hw with rfl | rfl | rfl <;> dsimp only <;> omega
    · rcases List.mem_append.mp hw with hw | hw
      · simp only [List.mem_cons, List.not_mem_nil, or_false] at hw
        rcases hw with rfl | rfl | rfl <;> dsimp only <;> omega
      · exact (ObjectAlloc.save_bounds hw).2

end Stores

section File

variable {objects : List SavedObject} {n₀ : ℕ} {s : GlobalState} {m file : Mem}
  {faults : ℕ → Option (Fin blockSize)}

theorem holds_saveObjects :
    Holds (saveAllocationTables (snapshotHeader objects n₀) s objects file)
      (saveObjects (snapshotHeader objects n₀).allocOffset objects) :=
  holds_applyStores _ increasing_saveObjects

theorem holds_save (hregions : s.freeRegions.length ≤ 16) :
    Holds (saveAllocationTables (snapshotHeader objects n₀) s objects file)
      (s.save (snapshotHeader objects n₀).globalOffset) := by
  set h := snapshotHeader objects n₀
  have hsave : Increasing (s.save h.globalOffset) := increasing_save
  refine (holds_applyStores
    (applyCopies (bitmapBytes s.mem.bitmap) file (saveBitmap h.bitmapOffset)) hsave).congr _ _
    (save_in_section_iff.mpr hregions) fun x _ hx => ?_
  exact applyStores_of_lt h.allocOffset (fun w hw => (saveObjects_bounds hw).1) hx

end File

/-! ## The objects -/

/-- What a snapshot keeps of a free list. -/
def FreeList.saved (fl : FreeList) : FreeList :=
  { fl with buckets := fun i => if i < totalAllocBuckets then fl.buckets i else 0, blocks := [] }

/-- What a snapshot keeps of an allocator. -/
def ObjectAlloc.saved (oa : ObjectAlloc) : ObjectAlloc :=
  { oa with freeLists := oa.freeLists.map FreeList.saved }

/-- What a snapshot keeps of an object. -/
def SavedObject.saved (o : SavedObject) : SavedObject := { o with alloc := o.alloc.saved }

/-- The fields have values of their types. -/
structure FreeList.Fits (fl : FreeList) : Prop where
  myId : fl.myId < 2 ^ 16
  totalAllocated : fl.totalAllocated < 2 ^ 64
  globalAllocs : fl.globalAllocs < 2 ^ 64
  chainLookups : fl.chainLookups < 2 ^ 64
  buckets : ∀ i < totalAllocBuckets, fl.buckets i < 2 ^ 64

/-- The fields have values of their types, and there is one free list for every core. -/
structure SavedObject.Fits (cores : ℕ) (o : SavedObject) : Prop where
  lastCommit : o.lastCommit < 2 ^ 64
  tail : o.tail < 2 ^ 64
  ptr : o.ptr < 2 ^ 64
  this : o.alloc.this < 2 ^ 64
  cores : o.alloc.freeLists.length = cores
  lists : ∀ fl ∈ o.alloc.freeLists, fl.Fits

/-- Where the records of the objects start. -/
def recordOffsets : ℕ → List SavedObject → List ℕ
  | _, [] => []
  | snapshot, o :: os => snapshot :: recordOffsets (snapshot + o.recordSize) os

section Objects

variable {file : Mem} {cores ptr : ℕ}

/-- A free list is read back. -/
theorem loadFreeList_of_holds {fl : FreeList} (hfits : fl.Fits) (h : Holds file (fl.save ptr)) :
    loadFreeList file ptr = fl.saved := by
  obtain ⟨hcounters, hbuckets⟩ := h.append
  obtain ⟨hid, hcounters⟩ := hcounters.cons
  obtain ⟨htotal, hcounters⟩ := hcounters.cons
  obtain ⟨hglobal, hcounters⟩ := hcounters.cons
  obtain ⟨hlookups, -⟩ := hcounters.cons
  have hmyId := hfits.myId
  have hread : (fun i => if i < totalAllocBuckets then load file (ptr + 8 * (4 + i)) 8 else 0) =
      fun i => if i < totalAllocBuckets then fl.buckets i else 0 := by
    funext i
    split
    · rename_i hi
      rw [hbuckets ⟨ptr + 8 * (4 + i), fl.buckets i⟩
        (List.mem_map.mpr ⟨i, List.mem_range.mpr hi, rfl⟩)]
      exact Nat.mod_eq_of_lt (hfits.buckets i hi)
    · rfl
  dsimp only at hid htotal hglobal hlookups
  simp only [loadFreeList, FreeList.saved, hread]
  rw [hid, htotal, hglobal, hlookups, Nat.mod_eq_of_lt hfits.totalAllocated,
    Nat.mod_eq_of_lt hfits.globalAllocs, Nat.mod_eq_of_lt hfits.chainLookups,
    Nat.mod_eq_of_lt (hmyId.trans (by decide)), Nat.mod_eq_of_lt hmyId]

/-- The free lists of an allocator are read back. -/
theorem loadFreeLists_of_holds {fls : List FreeList} (hfits : ∀ fl ∈ fls, fl.Fits)
    (h : Holds file (saveFreeLists ptr fls)) :
    loadFreeLists file fls.length ptr = fls.map FreeList.saved := by
  induction fls generalizing ptr with
  | nil => rfl
  | cons fl fls ih =>
    obtain ⟨hfirst, hrest⟩ := h.append
    rw [List.length_cons, loadFreeLists, loadFreeList_of_holds (hfits fl (by simp)) hfirst,
      ih (fun fl hfl => hfits fl (by simp [hfl])) hrest, List.map_cons]

/-- The identifier is stored in two words. -/
theorem loadUuid_of_holds {oa : ObjectAlloc} (h : Holds file (oa.save ptr)) :
    loadUuid file ptr = oa.myId := by
  obtain ⟨hlow, h⟩ := h.append.1.cons
  obtain ⟨hhigh, -⟩ := h.cons
  have hlt := oa.myId.isLt
  dsimp only at hlow hhigh
  refine BitVec.eq_of_toNat_eq ?_
  rw [loadUuid, hlow, hhigh, BitVec.toNat_ofNat]
  omega

/-- An allocator is read back, since it has a free list for every core. -/
theorem loadObjectAlloc_of_holds {o : SavedObject} (hfits : o.Fits cores) (hcores : cores < 2 ^ 64)
    (h : Holds file (o.alloc.save ptr)) :
    loadObjectAlloc file cores ptr = some o.alloc.saved := by
  have huuid := loadUuid_of_holds h
  obtain ⟨hhead, hlists⟩ := h.append
  obtain ⟨-, hhead⟩ := hhead.cons
  obtain ⟨-, hhead⟩ := hhead.cons
  obtain ⟨hlength, hhead⟩ := hhead.cons
  obtain ⟨hthis, -⟩ := hhead.cons
  have hread := loadFreeLists_of_holds hfits.lists hlists
  dsimp only at hlength hthis
  rw [hfits.cores] at hlength hread
  rw [loadObjectAlloc, hlength, Nat.mod_eq_of_lt hcores, if_pos rfl, huuid, hthis,
    Nat.mod_eq_of_lt hfits.this, hread]
  rfl

theorem snapshotSize_saved (oa : ObjectAlloc) : oa.saved.snapshotSize = oa.snapshotSize := by
  simp [ObjectAlloc.snapshotSize, ObjectAlloc.saved]

/-- The first loop finds what was saved, record by record. -/
theorem loadObjects_of_holds {objects : List SavedObject} (hfits : ∀ o ∈ objects, o.Fits cores)
    (hcores : cores < 2 ^ 64) (h : Holds file (saveObjects ptr objects)) :
    loadObjects file cores objects.length ptr =
      some ((recordOffsets ptr objects).zip (objects.map SavedObject.saved),
        ptr + (objects.map SavedObject.recordSize).sum) := by
  -- by induction on the objects; each record starts where the one before ends
  induction objects generalizing ptr with
  | nil => rfl
  | cons o os ih =>
    obtain ⟨hfirst, hrest⟩ := h.append
    obtain ⟨hwords, halloc⟩ := hfirst.append
    obtain ⟨hcommit, hwords⟩ := hwords.cons
    obtain ⟨htail, hwords⟩ := hwords.cons
    obtain ⟨hptr, -⟩ := hwords.cons
    have ho := hfits o (by simp)
    have hnext : ptr + 24 + o.alloc.snapshotSize = ptr + o.recordSize := by
      simp only [SavedObject.recordSize]
      omega
    have hread := ih (fun o' ho' => hfits o' (by simp [ho'])) hrest
    dsimp only at hcommit htail hptr
    rw [hnext] at hread
    rw [List.length_cons, loadObjects, loadObjectAlloc_of_holds ho hcores halloc, Option.bind_eq_bind,
      Option.bind_some, snapshotSize_saved, hnext, hread, Option.bind_eq_bind, Option.bind_some,
      hcommit, htail, hptr, Nat.mod_eq_of_lt ho.lastCommit, Nat.mod_eq_of_lt ho.tail,
      Nat.mod_eq_of_lt ho.ptr, List.map_cons, List.map_cons, List.sum_cons, recordOffsets, ← Nat.add_assoc]
    rfl

/-- The allocators that the first loop registers. -/
def savedAllocs (objects : List SavedObject) : List ObjectAlloc :=
  objects.map fun o => o.alloc.saved

/-- The second loop finds the allocator that the first one has registered, so it steps over the
record by the right size. -/
theorem findAllocator_of_mem {objects : List SavedObject} (hfits : ∀ o ∈ objects, o.Fits cores)
    {o : SavedObject} (ho : o ∈ objects) :
    ∃ oa, findAllocator (savedAllocs objects) o.alloc.myId = some oa ∧ oa.myId = o.alloc.myId ∧
      oa.snapshotSize = o.alloc.snapshotSize := by
  have hmem : o.alloc.saved ∈ savedAllocs objects := List.mem_map_of_mem ho
  have hsome : (findAllocator (savedAllocs objects) o.alloc.myId).isSome := by
    rw [findAllocator, List.find?_isSome]
    exact ⟨o.alloc.saved, hmem, by simp [ObjectAlloc.saved]⟩
  obtain ⟨oa, hfind⟩ := Option.isSome_iff_exists.mp hsome
  refine ⟨oa, hfind, by simpa using List.find?_some hfind, ?_⟩
  obtain ⟨o', ho', rfl⟩ := List.mem_map.mp (List.mem_of_find?_eq_some hfind)
  rw [snapshotSize_saved, ObjectAlloc.snapshotSize, ObjectAlloc.snapshotSize, (hfits o' ho').cores,
    (hfits o ho).cores]

/-- With distinct identifiers the allocator that is found is the object's own. -/
theorem findAllocator_of_nodup {objects : List SavedObject}
    (hnodup : (objects.map fun o => o.alloc.myId).Nodup) {o : SavedObject} (ho : o ∈ objects) :
    findAllocator (savedAllocs objects) o.alloc.myId = some o.alloc.saved := by
  induction objects with
  | nil => cases ho
  | cons o' os ih =>
    obtain ⟨hnotin, hrest⟩ := List.nodup_cons.mp hnodup
    rw [savedAllocs, findAllocator, List.map_cons]
    rcases List.mem_cons.mp ho with rfl | ho
    · exact List.find?_cons_of_pos (by simp [ObjectAlloc.saved])
    · have hne : o'.alloc.saved.myId ≠ o.alloc.myId := fun heq =>
        hnotin (List.mem_map.mpr ⟨o, ho, heq.symm⟩)
      rw [List.find?_cons_of_neg (by simpa using hne)]
      exact ih hrest ho

/-- The second loop stops at the same records. -/
theorem findObjects_of_holds {objects os : List SavedObject} (hfits : ∀ o ∈ objects, o.Fits cores)
    (hsub : ∀ o ∈ os, o ∈ objects) (h : Holds file (saveObjects ptr os)) :
    ∃ allocs, findObjects file (savedAllocs objects) os.length ptr =
        some ((recordOffsets ptr os).zip allocs, ptr + (os.map SavedObject.recordSize).sum) ∧
      allocs.map some = os.map (fun o => findAllocator (savedAllocs objects) o.alloc.myId) ∧
      allocs.map ObjectAlloc.myId = os.map (fun o => o.alloc.myId) := by
  induction os generalizing ptr with
  | nil => exact ⟨[], rfl, rfl, rfl⟩
  | cons o os ih =>
    obtain ⟨hfirst, hrest⟩ := h.append
    have hnext : ptr + 24 + o.alloc.snapshotSize = ptr + o.recordSize := by
      simp only [SavedObject.recordSize]
      omega
    rw [hnext] at hrest
    obtain ⟨allocs, hfound, hallocs, hids⟩ := ih (fun o' ho' => hsub o' (by simp [ho'])) hrest
    obtain ⟨oa, hfind, hid, hsize⟩ := findAllocator_of_mem hfits (hsub o (by simp))
    refine ⟨oa :: allocs, ?_, by simp [hallocs, hfind], by simp [hids, hid]⟩
    rw [List.length_cons, findObjects, loadUuid_of_holds hfirst.append.2, hfind, Option.bind_eq_bind,
      Option.bind_some, hsize, hnext, hfound, Option.bind_eq_bind, Option.bind_some, List.map_cons,
      List.sum_cons, recordOffsets, ← Nat.add_assoc]
    rfl

/-- **The records of the objects are read back.** Both loops of `load` stop at exactly the records that
`saveAllocationTables` wrote and end inside the tables; the first recovers every field of every object,
and the second finds the allocators again. -/
theorem objects_read_back {objects : List SavedObject} {cores : ℕ}
    (hfits : ∀ o ∈ objects, o.Fits cores) (hcores : cores < 2 ^ 64) (n₀ : ℕ) (s : GlobalState)
    (file : Mem) :
    ∃ allocs last,
      loadObjects (saveAllocationTables (snapshotHeader objects n₀) s objects file) cores
          (snapshotHeader objects n₀).objectCount (snapshotHeader objects n₀).allocOffset =
        some ((recordOffsets (snapshotHeader objects n₀).allocOffset objects).zip
          (objects.map SavedObject.saved), last) ∧
      findObjects (saveAllocationTables (snapshotHeader objects n₀) s objects file)
          (savedAllocs objects) (snapshotHeader objects n₀).objectCount
          (snapshotHeader objects n₀).allocOffset =
        some ((recordOffsets (snapshotHeader objects n₀).allocOffset objects).zip allocs, last) ∧
      allocs.map ObjectAlloc.myId = objects.map (fun o => o.alloc.myId) ∧
      ((objects.map fun o => o.alloc.myId).Nodup → allocs = savedAllocs objects) ∧
      last ≤ (snapshotHeader objects n₀).dataOffset := by
  have hholds : Holds (saveAllocationTables (snapshotHeader objects n₀) s objects file)
      (saveObjects (snapshotHeader objects n₀).allocOffset objects) := holds_saveObjects
  obtain ⟨allocs, hfound, hallocs, hids⟩ := findObjects_of_holds hfits (fun o ho => ho) hholds
  refine ⟨allocs, _, loadObjects_of_holds hfits hcores hholds, hfound, hids, fun hnodup => ?_,
    le_tablesSize objects⟩
  refine List.map_injective_iff.mpr (Option.some_injective _) ?_
  rw [hallocs, savedAllocs, List.map_map]
  exact List.map_congr_left fun o ho => findAllocator_of_nodup hnodup ho

/-- Two objects with one free list each. -/
def twoObjects : List SavedObject :=
  [⟨7, 4096, 0x500, ⟨1, baseAddress + maxMemorySize, [⟨0, fun _ => 0x10000000040, 64, 1, 3, []⟩]⟩⟩,
    ⟨9, 8192, 0x600, ⟨2, baseAddress + maxMemorySize + 40, [FreeList.new 0]⟩⟩]

/-- The two objects have fields of the right types. -/
theorem twoObjects_fit : ∀ o ∈ twoObjects, o.Fits 1 := by
  intro o ho
  simp only [twoObjects, List.mem_cons, List.not_mem_nil, or_false] at ho
  rcases ho with rfl | rfl
  all_goals
    refine ⟨by decide, by decide, by decide, by decide, rfl, fun fl hfl => ?_⟩
    obtain rfl := List.mem_singleton.mp hfl
    exact ⟨by decide, by decide, by decide, by decide, by decide⟩

/-- Both objects are read back. -/
theorem two_objects_read_back : ∃ last,
    loadObjects (saveAllocationTables (snapshotHeader twoObjects 128)
        ⟨heapAt (fun _ => 0) fun _ => 0, ⟨0, [⟨baseAddress, minPoolSize⟩], false⟩⟩ twoObjects
        fun _ => 0xFF) 1 2 (snapshotHeader twoObjects 128).allocOffset =
      some ((recordOffsets (snapshotHeader twoObjects 128).allocOffset twoObjects).zip
        (twoObjects.map SavedObject.saved), last) := by
  obtain ⟨-, last, hread, -⟩ := objects_read_back twoObjects_fit (by decide) 128
    ⟨heapAt (fun _ => 0) fun _ => 0, ⟨0, [⟨baseAddress, minPoolSize⟩], false⟩⟩ fun _ => 0xFF
  exact ⟨last, hread⟩

end Objects

/-! ## The free regions -/

section Regions

variable {m : Mem} {prev f size a x : ℕ}

theorem linkRegion_of_outside (hf : x < f + 4 ∨ f + 24 ≤ x)
    (hprev : prev = 0 ∨ x < prev + 16 ∨ prev + 24 ≤ x) : linkRegion m prev f size x = m x := by
  have hsize : storeSize m f size x = m x := store_of_outside (by rw [length_bytesLE]; omega)
  unfold linkRegion
  rw [store_of_outside (by rw [length_bytesLE]; omega),
    store_of_outside (by rw [length_bytesLE]; omega)]
  split
  · exact hsize
  · rw [store_of_outside (by rw [length_bytesLE]; omega), hsize]

/-- The header of the new node. -/
theorem size_linkRegion (hsize : size < sizeLimit)
    (hprev : prev = 0 ∨ prev + 64 ≤ f ∨ f + 64 ≤ prev) :
    (headerAt (linkRegion m prev f size) f).size = size := by
  dsimp only [sizeLimit] at hsize
  have hword : load (linkRegion m prev f size) (f + 4) 4 = load m (f + 4) 4 % 8 + 8 * size := by
    have hstore : load (storeSize m f size) (f + 4) 4 = load m (f + 4) 4 % 8 + 8 * size := by
      rw [storeSize, load_store_word (by omega), Nat.mod_eq_of_lt hsize]
    unfold linkRegion
    rw [load_store_of_disjoint (by omega), load_store_of_disjoint (by omega)]
    split
    · exact hstore
    · rw [load_store_of_disjoint (by rw [length_bytesLE]; omega), hstore]
  change load (linkRegion m prev f size) (f + 4) 4 / 8 = size
  omega

/-- The links of the new node. -/
theorem links_linkRegion (hlt : prev < 2 ^ 64) :
    (linksAt (linkRegion m prev f size)).prev f = prev ∧
      (linksAt (linkRegion m prev f size)).next f = 0 := by
  constructor
  · change load (linkRegion m prev f size) (f + 8) 8 = prev
    unfold linkRegion
    rw [load_store_of_disjoint (by omega), load_store_word (by omega)]
  · change load (linkRegion m prev f size) (f + 16) 8 = 0
    unfold linkRegion
    rw [load_store_word (by omega)]

/-- The forward link of the node before. -/
theorem next_linkRegion (hprev : prev ≠ 0) (hf : prev + 64 ≤ f ∨ f + 64 ≤ prev) (hlt : f < 2 ^ 64) :
    (linksAt (linkRegion m prev f size)).next prev = f := by
  change load (linkRegion m prev f size) (prev + 16) 8 = f
  simp only [linkRegion, if_neg hprev]
  rw [load_store_of_disjoint (by rw [length_bytesLE]; omega),
    load_store_of_disjoint (by rw [length_bytesLE]; omega), load_store_word (by omega)]

/-- What else stands at a node is unchanged. -/
theorem node_linkRegion (ha : a + 64 ≤ f ∨ f + 64 ≤ a)
    (hprev : prev = 0 ∨ prev = a ∨ a + 64 ≤ prev ∨ prev + 64 ≤ a) :
    (headerAt (linkRegion m prev f size) a).size = (headerAt m a).size ∧
      (linksAt (linkRegion m prev f size)).prev a = (linksAt m).prev a ∧
      (prev ≠ a → (linksAt (linkRegion m prev f size)).next a = (linksAt m).next a) := by
  refine ⟨congrArg (· / 8) (load_congr fun x hlo hhi => ?_), load_congr fun x hlo hhi => ?_,
    fun hne => load_congr fun x hlo hhi => ?_⟩ <;>
  exact linkRegion_of_outside (by omega) (by omega)

/-- Two nodes do not overlap. -/
def Apart (a b : ℕ) : Prop := a + 64 ≤ b ∨ b + 64 ≤ a

/-- Regions as `load` can read them: nodes that do not overlap, in fields of their types. -/
structure RegionsFit (rs : List MemoryRegion) : Prop where
  ptr : ∀ r ∈ rs, r.ptr ≠ 0 ∧ r.ptr < 2 ^ 64
  size : ∀ r ∈ rs, r.size < sizeLimit
  apart : rs.Pairwise fun r r' => Apart r.ptr r'.ptr

/-- **The loop of `GlobalAlloc::load`** links nodes with the saved addresses and sizes behind `prev`, in
the order in which they were saved, and leaves the other nodes alone. -/
theorem loadRegions_of_holds {file : Mem} {rs : List MemoryRegion} {ptr : ℕ} (m : Mem) (freeList : ℕ)
    (hfit : RegionsFit rs) (h : Holds file (saveRegions ptr rs)) (hlt : prev < 2 ^ 64)
    (hprev : prev = 0 ∨ ∀ r ∈ rs, Apart prev r.ptr) :
    ∃ m', loadRegions file rs.length ptr prev freeList m =
        (if prev = 0 then (rs.map MemoryRegion.ptr).head?.getD freeList else freeList, m') ∧
      IsList (linksAt m') prev ((rs.map MemoryRegion.ptr).head?.getD 0) (rs.map MemoryRegion.ptr) ∧
      (∀ r ∈ rs, (headerAt m' r.ptr).size = r.size) ∧
      (prev ≠ 0 → (linksAt m').next prev =
        (rs.map MemoryRegion.ptr).head?.getD ((linksAt m).next prev)) ∧
      ∀ a, (∀ r ∈ rs, Apart a r.ptr) → prev = 0 ∨ prev = a ∨ Apart a prev →
        (headerAt m' a).size = (headerAt m a).size ∧
          (linksAt m').prev a = (linksAt m).prev a ∧
          (prev ≠ a → (linksAt m').next a = (linksAt m).next a) := by
  induction rs generalizing ptr prev freeList m with
  | nil => exact ⟨m, by simp [loadRegions], rfl, by simp, by simp, by simp⟩
  | cons r rs ih =>
    obtain ⟨hptr, h⟩ := h.cons
    obtain ⟨hsize, h⟩ := h.cons
    obtain ⟨hr0, hrlt⟩ := hfit.ptr r (by simp)
    have hrsize := hfit.size r (by simp)
    obtain ⟨hfirst, hrest⟩ := List.pairwise_cons.mp hfit.apart
    dsimp only at hptr hsize
    rw [Nat.mod_eq_of_lt hrlt] at hptr
    rw [Nat.mod_eq_of_lt (hrsize.trans (by decide))] at hsize
    have hpr : prev = 0 ∨ Apart prev r.ptr := hprev.imp_right fun hall => hall r (by simp)
    -- the other nodes are linked behind `r`
    obtain ⟨m', hload, hlist, hsizes, hnext, hframe⟩ := ih (linkRegion m prev r.ptr r.size)
      (if prev = 0 then r.ptr else freeList)
      ⟨fun r' hr' => hfit.ptr r' (by simp [hr']), fun r' hr' => hfit.size r' (by simp [hr']), hrest⟩
      h hrlt (.inr hfirst)
    obtain ⟨hself, hselfPrev, -⟩ := hframe r.ptr hfirst (.inr (.inl rfl))
    refine ⟨m', ?_, ⟨rfl, hr0, hselfPrev.trans (links_linkRegion hlt).1, ?_⟩, fun r' hr' => ?_,
      fun hne => ?_, fun a ha hap => ?_⟩
    · rw [List.length_cons, loadRegions, hptr, hsize, hload, if_neg hr0]
      rfl
    · rw [hnext hr0, (links_linkRegion hlt).2]
      exact hlist
    · rcases List.mem_cons.mp hr' with rfl | hr'
      · exact hself.trans (size_linkRegion hrsize hpr)
      · exact hsizes r' hr'
    · have hapart := hpr.resolve_left hne
      obtain ⟨-, -, hkeep⟩ := hframe prev (fun r' hr' => (hprev.resolve_left hne) r' (by simp [hr']))
        (.inr (.inr hapart))
      refine (hkeep ?_).trans (next_linkRegion hne hapart hrlt)
      rintro rfl
      rcases hapart with hle | hle <;> omega
    · have har := ha r (by simp)
      obtain ⟨hsize', hprev', hnext'⟩ := hframe a (fun r' hr' => ha r' (by simp [hr']))
        (.inr (.inr har))
      refine ⟨hsize'.trans (node_linkRegion har hap).1, hprev'.trans (node_linkRegion har hap).2.1,
        fun hne => (hnext' ?_).trans ((node_linkRegion har hap).2.2 hne)⟩
      rintro rfl
      rcases har with hle | hle <;> omega

/-- The free regions of an allocator can be read back. -/
theorem Regions.regionsFit {s : GlobalState} {live : List MemoryRegion} {ps : List Piece}
    {chain : List ℕ} (h : Regions s live ps chain) (hlimit : s.limit ≤ 2 ^ 64) :
    RegionsFit (chain.map fun a => ⟨a, s.size a⟩) := by
  have hpos := h.pos
  refine ⟨?_, ?_, List.pairwise_map.mpr (h.nodup.imp_of_mem fun {a b} ha hb hne => ?_)⟩
  · intro r hr
    obtain ⟨a, ha, rfl⟩ := List.mem_map.mp hr
    obtain ⟨p, hp, rfl, -⟩ := h.mem_chain.mp ha
    have hbounds := h.tiles.mem_bounds hp
    have := hpos p hp
    exact ⟨h.addr_ne_zero hp, by dsimp only; omega⟩
  · intro r hr
    obtain ⟨a, ha, rfl⟩ := List.mem_map.mp hr
    obtain ⟨-, -, -, -, -, -, hlt⟩ := h.split ha
    exact hlt
  · obtain ⟨p, hp, rfl, -⟩ := h.mem_chain.mp ha
    obtain ⟨q, hq, rfl, -⟩ := h.mem_chain.mp hb
    -- both pieces consist of blocks
    have hpsize := Nat.le_of_dvd (hpos p hp) (h.ok p hp).blocks
    have hqsize := Nat.le_of_dvd (hpos q hq) (h.ok q hq).blocks
    have hdisj := h.tiles.disjoint hp hq hne
    dsimp only [blockSize, Apart] at *
    omega

/-- **The global allocator is read back.** If its free regions fit into their section and no size was
truncated, `GlobalAlloc::load` rebuilds the free list in new memory: the same regions in the same order,
over one pool that is as large as all pools together. -/
theorem regions_read_back {s : GlobalState} {live : List MemoryRegion} {ps : List Piece}
    {chain : List ℕ} (h : Regions s live ps chain) (htruncated : s.ga.truncated = false)
    (hlimit : s.limit ≤ 2 ^ 64) (hregions : chain.length ≤ 16) (objects : List SavedObject)
    (n₀ : ℕ) (file : Mem) (bitmap : ℕ → BitVec 64) {ga : GlobalAlloc} {m : Mem}
    (hload : loadGlobal (snapshotHeader objects n₀)
      (saveAllocationTables (snapshotHeader objects n₀) s objects file) = (ga, m)) :
    Regions ⟨heapAt m bitmap, ga⟩ live ps chain := by
  have hchain := h.freeRegions_eq
  have htotal := h.totalMapped_eq
  have hsave : Holds (saveAllocationTables (snapshotHeader objects n₀) s objects file)
      (s.save (snapshotHeader objects n₀).globalOffset) :=
    holds_save (by rw [hchain, List.length_map]; exact hregions)
  obtain ⟨hpool, hsave⟩ := hsave.cons
  obtain ⟨hcount, hsave⟩ := hsave.cons
  rw [hchain] at hcount hsave
  dsimp only at hpool hcount
  rw [Nat.mod_eq_of_lt (by dsimp only [baseAddress] at htotal; omega)] at hpool
  rw [Nat.mod_eq_of_lt (by rw [List.length_map]; omega)] at hcount
  obtain ⟨m', hloop, hlist, hsizes, -⟩ := loadRegions_of_holds (fun _ => 0) 0
    (h.regionsFit hlimit) hsave (show 0 < 2 ^ 64 by decide) (.inl rfl)
  rw [loadGlobal, hpool, hcount, hloop] at hload
  cases hload
  have hptrs : (chain.map fun a => (⟨a, s.size a⟩ : MemoryRegion)).map MemoryRegion.ptr = chain := by
    rw [List.map_map]
    exact List.map_id chain
  rw [if_pos rfl, hptrs]
  rw [hptrs] at hlist
  have htiles : Tiles Piece.addr Piece.size baseAddress ps (baseAddress + s.totalMapped) := by
    rw [htotal]
    exact h.tiles
  refine ⟨htiles, fun p hp => ⟨(h.ok p hp).pos, (h.ok p hp).blocks, fun v hv => ?_⟩, hlist,
    h.nodes, h.live, ⟨rfl, rfl⟩, by simp, ?_⟩
  · obtain ⟨hsize, hrest⟩ := (h.ok p hp).stored v hv
    have hmem : p.addr ∈ chain := h.mem_chain.mpr ⟨p, hp, rfl, v, hv⟩
    exact ⟨(hsizes ⟨p.addr, s.size p.addr⟩ (List.mem_map_of_mem hmem)).trans hsize, hrest⟩
  · rw [← h.truncated, htruncated]

end Regions

end Pronto
