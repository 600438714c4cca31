import Pronto.Lib.Persist
import Pronto.Lib.Runs
import Pronto.Log.RedoLog

/-!
# The catalog of persistent objects

`NVCatalog` (`nv_catalog.cpp`) keeps a table of all persistent objects in a file of 8 MB: a header with
the number of objects and the first free byte, the entries behind it, and from 2 MB on the arguments of
the objects' constructors. `add` appends an entry and `addConstructorArgs` stores the arguments of one.

Both are programs of stores and persists. This module is about what they do to the bytes; the entries
and the argument areas stay as they are as long as the table ends below 2 MB (`catalog_intact_iff`),
which nothing checks (`table_overwrites_args`).
-/

namespace Pronto

open Memory Persist Runs

/-! ## The file -/

/-- `CATALOG_FILE_SIZE`. -/
def catalogFileSize : ℕ := 0x800000

/-- `CATALOG_HEADER_SIZE`. -/
def catalogHeaderSize : ℕ := 0x200000

/-- `MaxPersistentObjects`. -/
def maxPersistentObjects : ℕ := (catalogHeaderSize - 32) / 32

/-- `CatalogMagic`. -/
def catalogMagic : ℕ := 0x434154414C4F4700

/-- `CatalogEntry`. -/
structure CatalogEntry where
  uuid : Uuid
  type : BitVec 64
  argsOffset : ℕ
deriving DecidableEq, Repr

/-- `object_count`. -/
def objectCount (m : Mem) : ℕ := load m 8 8

/-- `free_offset`. -/
def freeOffset (m : Mem) : ℕ := load m 16 8

/-- Where `objects[i]` is. -/
def entryOffset (i : ℕ) : ℕ := 32 + 32 * i

/-- `objects[i]`. -/
def catalogEntry (m : Mem) (i : ℕ) : CatalogEntry where
  uuid := BitVec.ofNat 128 (load m (entryOffset i) 16)
  type := BitVec.ofNat 64 (load m (entryOffset i + 16) 8)
  argsOffset := load m (entryOffset i + 24) 8

/-- The objects that the constructor of `NVCatalog` finds in an existing file. -/
def catalogEntries (m : Mem) : List CatalogEntry :=
  (List.range (objectCount m)).map (catalogEntry m)

/-- The file that the constructor of `NVCatalog` creates. -/
def newCatalog : Mem :=
  store (store (fun _ => 0) 16 (bytesLE catalogHeaderSize 8)) 0 (bytesLE catalogMagic 8)

/-! ## `add` and `addConstructorArgs` -/

/-- The instructions of `NVCatalog::add`. -/
def addOps (m : Mem) (uuid : Uuid) (type : BitVec 64) : List Op :=
  let offset := objectCount m
  byteStores (entryOffset offset) (uuidBytes uuid) ++
    [.store (entryOffset offset + 16) (bytesLE type.toNat 8), .persist (entryOffset offset) 32,
      .store 8 (bytesLE (offset + 1) 8), .persist 0 64]

/-- The instructions of `NVCatalog::addConstructorArgs` for the entry `i`. -/
def argsOps (m : Mem) (i : ℕ) (buffer : List UInt8) : List Op :=
  let offset := freeOffset m
  [.store 16 (bytesLE (offset + buffer.length) 8), .persist 0 64] ++ byteStores offset buffer ++
    [.persist offset buffer.length, .store (entryOffset i + 24) (bytesLE offset 8),
      .persist (entryOffset i) 32]

/-- `NVCatalog::add`; `none` is an access outside the file. -/
def catalogAdd (m : Mem) (uuid : Uuid) (type : BitVec 64) : Option Mem :=
  if entryOffset (objectCount m) + 32 ≤ catalogFileSize then some (runOps m (addOps m uuid type))
  else none

/-- `NVCatalog::addConstructorArgs`; `none` is a failed assertion, or an access outside the file when
the sum in the assertion wraps around. -/
def catalogAddArgs (m : Mem) (i : ℕ) (buffer : List UInt8) : Option Mem :=
  if freeOffset m + buffer.length ≤ catalogFileSize then some (runOps m (argsOps m i buffer)) else none

/-! ## What a catalog holds -/

/-- The entries that `add` has returned, and the argument areas with their bytes. -/
structure CatalogTable where
  entries : List CatalogEntry
  areas : List (ℕ × List UInt8)

/-- The table behind `add`. -/
def CatalogTable.add (t : CatalogTable) (e : CatalogEntry) : CatalogTable :=
  { t with entries := t.entries ++ [e] }

/-- The table behind `addConstructorArgs`. -/
def CatalogTable.addArgs (t : CatalogTable) (i offset : ℕ) (buffer : List UInt8) : CatalogTable where
  entries := t.entries.modify i fun e => { e with argsOffset := offset }
  areas := t.areas ++ [(offset, buffer)]

/-- The file holds the table, and the entries end below the argument areas. -/
structure TableOk (m : Mem) (t : CatalogTable) : Prop where
  count : objectCount m = t.entries.length
  entry : ∀ i e, t.entries[i]? = some e → catalogEntry m i = e
  area : ∀ p ∈ t.areas, bytes m p.1 p.2.length = p.2 ∧ catalogHeaderSize ≤ p.1 ∧
    p.1 + p.2.length ≤ freeOffset m
  free : catalogHeaderSize ≤ freeOffset m ∧ freeOffset m ≤ catalogFileSize
  fits : t.entries.length ≤ maxPersistentObjects

section Specs

variable {m m' : Mem} {t : CatalogTable} {uuid : Uuid} {type : BitVec 64} {i n : ℕ}
  {buffer : List UInt8}

/-- An entry is read from its own 32 bytes. -/
theorem catalogEntry_congr (h : ∀ x, entryOffset i ≤ x → x < entryOffset i + 32 → m' x = m x) :
    catalogEntry m' i = catalogEntry m i := by
  simp only [catalogEntry, CatalogEntry.mk.injEq]
  refine ⟨congrArg _ (load_congr fun x _ _ => h x (by omega) (by omega)),
    congrArg _ (load_congr fun x _ _ => h x (by omega) (by omega)),
    load_congr fun x _ _ => h x (by omega) (by omega)⟩

theorem entryOffset_le (hn : n ≤ maxPersistentObjects) : entryOffset n ≤ catalogHeaderSize := by
  dsimp only [maxPersistentObjects, catalogHeaderSize, entryOffset] at *
  omega

theorem entryOffset_le_iff : entryOffset n ≤ catalogHeaderSize ↔ n ≤ maxPersistentObjects := by
  dsimp only [maxPersistentObjects, catalogHeaderSize, entryOffset]
  omega

/-- A table depends on the bytes of its entries and areas, and on the two counters. -/
theorem TableOk.congr (h : TableOk m t) (hcount : objectCount m' = objectCount m)
    (hfree : freeOffset m ≤ freeOffset m' ∧ freeOffset m' ≤ catalogFileSize)
    (hentries : ∀ x, 32 ≤ x → x < entryOffset t.entries.length → m' x = m x)
    (hareas : ∀ x, catalogHeaderSize ≤ x → x < freeOffset m → m' x = m x) : TableOk m' t where
  count := hcount.trans h.count
  entry i e he := by
    rw [catalogEntry_congr fun x hlo hhi => ?_]
    · exact h.entry i e he
    · have hi : i < t.entries.length := (List.getElem?_eq_some_iff.mp he).1
      unfold entryOffset at *
      exact hentries x (by omega) (by omega)
  area p hp := by
    obtain ⟨hbytes, hlo, hhi⟩ := h.area p hp
    refine ⟨?_, hlo, hhi.trans hfree.1⟩
    rw [bytes_congr fun x h1 h2 => hareas x (by omega) (by omega)]
    exact hbytes
  free := ⟨h.free.1.trans hfree.1, hfree.2⟩
  fits := h.fits

/-- The bytes after `add`. -/
theorem runOps_addOps (m : Mem) (uuid : Uuid) (type : BitVec 64) :
    runOps m (addOps m uuid type) =
      store (store (store m (entryOffset (objectCount m)) (uuidBytes uuid))
        (entryOffset (objectCount m) + 16) (bytesLE type.toNat 8)) 8
        (bytesLE (objectCount m + 1) 8) := by
  simp [addOps, runOps_byteStores, Op.view]

/-- The bytes after `addConstructorArgs`. -/
theorem runOps_argsOps (m : Mem) (i : ℕ) (buffer : List UInt8) :
    runOps m (argsOps m i buffer) =
      store (store (store m 16 (bytesLE (freeOffset m + buffer.length) 8)) (freeOffset m) buffer)
        (entryOffset i + 24) (bytesLE (freeOffset m) 8) := by
  simp [argsOps, runOps_byteStores, Op.view]

/-- Everything but the count and the new entry stays. -/
theorem addOps_frame {x : ℕ} (hx : x < 8 ∨ 16 ≤ x)
    (hentry : x < entryOffset (objectCount m) ∨ entryOffset (objectCount m) + 24 ≤ x) :
    runOps m (addOps m uuid type) x = m x := by
  rw [runOps_addOps, store_of_outside (by rw [length_bytesLE]; omega),
    store_of_outside (by rw [length_bytesLE]; omega),
    store_of_outside (by rw [uuidBytes, length_bytesLE]; omega)]

/-- The new entry; its field for the arguments is left as it was found. -/
theorem catalogEntry_addOps : catalogEntry (runOps m (addOps m uuid type)) (objectCount m) =
    ⟨uuid, type, load m (entryOffset (objectCount m) + 24) 8⟩ := by
  have hlo : 32 ≤ entryOffset (objectCount m) := Nat.le_add_right 32 _
  have huuid := uuid.isLt
  have htype := type.isLt
  have hargs : load (runOps m (addOps m uuid type)) (entryOffset (objectCount m) + 24) 8 =
      load m (entryOffset (objectCount m) + 24) 8 :=
    load_congr fun x _ _ => addOps_frame (by omega) (by omega)
  rw [catalogEntry, hargs, runOps_addOps,
    load_store_of_disjoint (by rw [length_bytesLE]; omega),
    load_store_of_disjoint (by rw [length_bytesLE]; omega), uuidBytes, load_store_word (by omega),
    load_store_of_disjoint (by rw [length_bytesLE]; omega), load_store_word (by omega)]
  simp

theorem objectCount_addOps (hlt : objectCount m + 1 < 2 ^ 64) :
    objectCount (runOps m (addOps m uuid type)) = objectCount m + 1 := by
  rw [objectCount, runOps_addOps, load_store_word (by omega)]

theorem freeOffset_addOps : freeOffset (runOps m (addOps m uuid type)) = freeOffset m :=
  load_congr fun x _ _ => addOps_frame (by omega) (by unfold entryOffset; omega)

/-- **`add` extends the table**: the old entries and areas stay, and the new entry is at its end. -/
theorem TableOk.add (h : TableOk m t) (uuid : Uuid) (type : BitVec 64)
    (hroom : t.entries.length < maxPersistentObjects) :
    TableOk (runOps m (addOps m uuid type))
      (t.add ⟨uuid, type, load m (entryOffset t.entries.length + 24) 8⟩) := by
  have hcount := h.count
  have hfree := h.free
  have hend : entryOffset t.entries.length + 32 ≤ catalogHeaderSize := entryOffset_le hroom
  have hlo : 32 ≤ entryOffset t.entries.length := Nat.le_add_right 32 _
  have hlt : t.entries.length + 1 < 2 ^ 64 := by
    dsimp only [maxPersistentObjects, catalogHeaderSize] at hroom
    omega
  have hframe : ∀ x, 16 ≤ x → (x < entryOffset t.entries.length ∨ catalogHeaderSize ≤ x) →
      runOps m (addOps m uuid type) x = m x := by
    intro x h16 hx
    exact addOps_frame (.inr h16) (by rw [hcount]; omega)
  refine ⟨?_, fun i e he => ?_, fun p hp => ?_, by rwa [freeOffset_addOps], ?_⟩
  · rw [objectCount_addOps (hcount ▸ hlt), hcount, CatalogTable.add, List.length_append,
      List.length_singleton]
  · by_cases hi : i < t.entries.length
    · rw [CatalogTable.add, List.getElem?_append_left hi] at he
      rw [← h.entry i e he]
      refine catalogEntry_congr fun x hx1 hx2 => ?_
      unfold entryOffset at *
      exact hframe x (by omega) (.inl (by omega))
    · have hlast : i = t.entries.length := by
        have := (List.getElem?_eq_some_iff.mp he).1
        rw [CatalogTable.add, List.length_append, List.length_singleton] at this
        omega
      subst hlast
      rw [CatalogTable.add, List.getElem?_concat_length] at he
      rw [← Option.some.inj he, ← hcount]
      exact catalogEntry_addOps
  · obtain ⟨hbytes, hplo, hphi⟩ := h.area p hp
    refine ⟨?_, hplo, by rwa [freeOffset_addOps]⟩
    rw [bytes_congr fun x h1 _ => hframe x (by omega) (.inr (by omega))]
    exact hbytes
  · rw [CatalogTable.add, List.length_append, List.length_singleton]
    exact hroom

theorem argsOps_frame {x : ℕ} (hx : x < 16 ∨ 24 ≤ x)
    (harea : x < freeOffset m ∨ freeOffset m + buffer.length ≤ x)
    (hentry : x < entryOffset i + 24 ∨ entryOffset i + 32 ≤ x) :
    runOps m (argsOps m i buffer) x = m x := by
  rw [runOps_argsOps, store_of_outside (by rw [length_bytesLE]; omega),
    store_of_outside (by omega), store_of_outside (by rw [length_bytesLE]; omega)]

/-- The entry that gets arguments keeps its identifier and type. -/
theorem catalogEntry_argsOps (hfree : catalogHeaderSize ≤ freeOffset m)
    (hlt : freeOffset m < 2 ^ 64) (hi : entryOffset i + 32 ≤ catalogHeaderSize) :
    catalogEntry (runOps m (argsOps m i buffer)) i =
      { catalogEntry m i with argsOffset := freeOffset m } := by
  have hlo : 32 ≤ entryOffset i := Nat.le_add_right 32 _
  have hargs : load (runOps m (argsOps m i buffer)) (entryOffset i + 24) 8 = freeOffset m := by
    rw [runOps_argsOps, load_store_word (by omega)]
  have hframe : ∀ x, entryOffset i ≤ x → x < entryOffset i + 24 →
      runOps m (argsOps m i buffer) x = m x := fun x _ _ =>
    argsOps_frame (by omega) (by omega) (by omega)
  simp only [catalogEntry, CatalogEntry.mk.injEq]
  exact ⟨congrArg _ (load_congr fun x _ _ => hframe x (by omega) (by omega)),
    congrArg _ (load_congr fun x _ _ => hframe x (by omega) (by omega)), hargs⟩

/-- The area is taken off the free part of the file. -/
theorem freeOffset_argsOps (hfree : catalogHeaderSize ≤ freeOffset m)
    (hfit : freeOffset m + buffer.length ≤ catalogFileSize) :
    freeOffset (runOps m (argsOps m i buffer)) = freeOffset m + buffer.length := by
  have hlo : 32 ≤ entryOffset i := Nat.le_add_right 32 _
  dsimp only [catalogHeaderSize] at hfree
  dsimp only [catalogFileSize] at hfit
  rw [freeOffset, runOps_argsOps, load_store_of_disjoint (by omega),
    load_store_of_disjoint (by omega), load_store_word (by omega)]

/-- **`addConstructorArgs` extends the areas**: the new one is behind the others, so none of them
changes. -/
theorem TableOk.addArgs (h : TableOk m t) (hi : i < t.entries.length)
    (hfit : freeOffset m + buffer.length ≤ catalogFileSize) :
    TableOk (runOps m (argsOps m i buffer)) (t.addArgs i (freeOffset m) buffer) := by
  have hfree := h.free.1
  have hend : entryOffset t.entries.length ≤ catalogHeaderSize := entryOffset_le h.fits
  have hentry : entryOffset i + 32 ≤ entryOffset t.entries.length := by
    unfold entryOffset
    omega
  have hlo : 32 ≤ entryOffset i := Nat.le_add_right 32 _
  have hnew := freeOffset_argsOps (i := i) hfree hfit
  have hlt : freeOffset m < 2 ^ 64 := by
    dsimp only [catalogFileSize] at hfit
    omega
  refine ⟨?_, fun j e he => ?_, fun p hp => ?_, ?_, ?_⟩
  · have hcount : objectCount (runOps m (argsOps m i buffer)) = objectCount m :=
      load_congr fun x _ _ => argsOps_frame (by omega) (by omega) (by omega)
    rw [hcount, h.count, CatalogTable.addArgs, List.length_modify]
  · rw [CatalogTable.addArgs, List.getElem?_modify] at he
    obtain ⟨e₀, he₀, rfl⟩ := Option.map_eq_some_iff.mp he
    have hold := h.entry j e₀ he₀
    split
    · rename_i hij
      subst hij
      rw [catalogEntry_argsOps hfree hlt (hentry.trans hend), hold]
    · rename_i hij
      have hj : j < t.entries.length := (List.getElem?_eq_some_iff.mp he₀).1
      rw [← hold]
      refine catalogEntry_congr fun x hx1 hx2 => argsOps_frame ?_ ?_ ?_
      · unfold entryOffset at hx1
        omega
      · unfold entryOffset at *
        omega
      · unfold entryOffset at *
        omega
  · rw [hnew]
    rcases List.mem_append.mp hp with hp | hp
    · obtain ⟨hbytes, hplo, hphi⟩ := h.area p hp
      refine ⟨?_, hplo, by omega⟩
      rw [bytes_congr fun x h1 h2 => argsOps_frame (by omega) (by omega) (by omega)]
      exact hbytes
    · obtain rfl := List.mem_singleton.mp hp
      refine ⟨?_, hfree, le_rfl⟩
      have hself : bytes (runOps m (argsOps m i buffer)) (freeOffset m) buffer.length =
          bytes (store (store m 16 (bytesLE (freeOffset m + buffer.length) 8)) (freeOffset m) buffer)
            (freeOffset m) buffer.length := by
        rw [runOps_argsOps]
        exact bytes_congr fun x _ _ => store_of_outside (by rw [length_bytesLE]; omega)
      exact hself.trans (bytes_store_self _ _ _)
  · rw [hnew]
    exact ⟨by omega, hfit⟩
  · rw [CatalogTable.addArgs, List.length_modify]
    exact h.fits

theorem tableOk_newCatalog : TableOk newCatalog ⟨[], []⟩ where
  count := by decide +kernel
  entry := by simp
  area := by simp
  free := by decide +kernel
  fits := Nat.zero_le _

end Specs

/-! ## Runs of calls -/

/-- A call of a method of `NVCatalog`. -/
inductive CatalogCall
  | add (uuid : Uuid) (type : BitVec 64)
  /-- For the entry with this index. -/
  | addConstructorArgs (entry : ℕ) (buffer : List UInt8)

/-- The bytes of the file, and what the calls have put there. -/
structure CatalogRun where
  mem : Mem
  table : CatalogTable

/-- A call that returns normally. Arguments are added for entries that `add` has returned. -/
def catalogStep (s : CatalogRun) : CatalogCall → Option CatalogRun
  | .add uuid type => (catalogAdd s.mem uuid type).map fun mem =>
    ⟨mem, s.table.add (catalogEntry mem (objectCount s.mem))⟩
  | .addConstructorArgs i buffer =>
    if i < s.table.entries.length then
      (catalogAddArgs s.mem i buffer).map fun mem =>
        ⟨mem, s.table.addArgs i (freeOffset s.mem) buffer⟩
    else none

/-- Every entry and every argument area is as its call left it and lies in the file, and the entries
end below the argument areas. -/
structure CatalogRun.Intact (s : CatalogRun) : Prop where
  entries : ∀ i e, s.table.entries[i]? = some e →
    catalogEntry s.mem i = e ∧ entryOffset i + 32 ≤ catalogFileSize
  areas : ∀ p ∈ s.table.areas, bytes s.mem p.1 p.2.length = p.2 ∧
    catalogHeaderSize ≤ p.1 ∧ p.1 + p.2.length ≤ catalogFileSize
  apart : entryOffset s.table.entries.length ≤ catalogHeaderSize

section Calls

variable {s s' : CatalogRun} {calls : List CatalogCall}

theorem TableOk.intact (h : TableOk s.mem s.table) : s.Intact where
  entries i e he := by
    have hi : i + 1 ≤ maxPersistentObjects :=
      (List.getElem?_eq_some_iff.mp he).1.trans_le h.fits
    exact ⟨h.entry i e he, (entryOffset_le hi).trans (by decide)⟩
  areas p hp := by
    obtain ⟨hbytes, hlo, hhi⟩ := h.area p hp
    exact ⟨hbytes, hlo, hhi.trans h.free.2⟩
  apart := entryOffset_le h.fits

/-- What a call that returns has done. -/
theorem catalogStep_cases {c : CatalogCall} (hstep : catalogStep s c = some s') :
    (∃ uuid type, s'.mem = runOps s.mem (addOps s.mem uuid type) ∧
      s'.table = s.table.add (catalogEntry s'.mem (objectCount s.mem))) ∨
    ∃ i buffer, i < s.table.entries.length ∧ freeOffset s.mem + buffer.length ≤ catalogFileSize ∧
      s'.mem = runOps s.mem (argsOps s.mem i buffer) ∧
      s'.table = s.table.addArgs i (freeOffset s.mem) buffer := by
  cases c with
  | add uuid type =>
    rw [catalogStep, catalogAdd] at hstep
    split at hstep
    · obtain rfl := Option.some.inj hstep
      exact .inl ⟨uuid, type, rfl, rfl⟩
    · cases hstep
  | addConstructorArgs i buffer =>
    rw [catalogStep, catalogAddArgs] at hstep
    split at hstep
    · rename_i hi
      split at hstep
      · rename_i hfit
        obtain rfl := Option.some.inj hstep
        exact .inr ⟨i, buffer, hi, hfit, rfl, rfl⟩
      · cases hstep
    · cases hstep

/-- A call keeps the table if there is room for another entry. -/
theorem catalogStep_tableOk {c : CatalogCall} (h : TableOk s.mem s.table)
    (hstep : catalogStep s c = some s')
    (hroom : s'.table.entries.length ≤ maxPersistentObjects) : TableOk s'.mem s'.table := by
  obtain ⟨uuid, type, hmem, htable⟩ | ⟨i, buffer, hi, hfit, hmem, htable⟩ := catalogStep_cases hstep
  · rw [htable, CatalogTable.add, List.length_append, List.length_singleton] at hroom
    rw [htable, hmem, catalogEntry_addOps, h.count]
    exact h.add uuid type hroom
  · rw [htable, hmem]
    exact h.addArgs hi hfit

/-- No call takes an object off the table. -/
theorem length_catalogStep {c : CatalogCall} (hstep : catalogStep s c = some s') :
    s.table.entries.length ≤ s'.table.entries.length := by
  obtain ⟨_, _, -, htable⟩ | ⟨_, _, -, -, -, htable⟩ := catalogStep_cases hstep
  · simp [htable, CatalogTable.add]
  · simp [htable, CatalogTable.addArgs]

theorem run_tableOk (hrun : run catalogStep ⟨newCatalog, ⟨[], []⟩⟩ calls = some s)
    (hroom : s.table.entries.length ≤ maxPersistentObjects) : TableOk s.mem s.table := by
  refine run_invariant (I := fun s => s.table.entries.length ≤ maxPersistentObjects →
    TableOk s.mem s.table) ?_ (fun _ => tableOk_newCatalog) hrun hroom
  intro s c s' h hstep hroom
  exact catalogStep_tableOk (h ((length_catalogStep hstep).trans hroom)) hstep hroom

/-- **The catalog stays intact up to `MaxPersistentObjects` entries**, and not beyond: behind any calls
that return, all entries and argument areas are as they were left if and only if the table has not
grown into the argument areas. -/
theorem catalog_intact_iff (hrun : run catalogStep ⟨newCatalog, ⟨[], []⟩⟩ calls = some s) :
    s.Intact ↔ s.table.entries.length ≤ maxPersistentObjects :=
  ⟨fun h => entryOffset_le_iff.mp h.apart, fun h => (run_tableOk hrun h).intact⟩

/-- Two objects, one of them with arguments. -/
theorem catalog_intact_two_objects :
    ∃ s, run catalogStep ⟨newCatalog, ⟨[], []⟩⟩
        [.add 1 0, .addConstructorArgs 0 [7, 8, 9], .add 2 5] = some s ∧ s.Intact := by
  have hany : (run catalogStep ⟨newCatalog, ⟨[], []⟩⟩
      [.add 1 0, .addConstructorArgs 0 [7, 8, 9], .add 2 5]).any
      (fun s => s.table.entries.length ≤ maxPersistentObjects) = true := by decide +kernel
  obtain ⟨s, hrun, hlen⟩ := run_of_any hany
  exact ⟨s, hrun, (catalog_intact_iff hrun).mpr (by simpa using hlen)⟩

/-- The step of `add` inside the file. -/
theorem catalogStep_add (uuid : Uuid) (type : BitVec 64)
    (hin : entryOffset (objectCount s.mem) + 32 ≤ catalogFileSize) :
    catalogStep s (.add uuid type) = some ⟨runOps s.mem (addOps s.mem uuid type),
      s.table.add (catalogEntry (runOps s.mem (addOps s.mem uuid type)) (objectCount s.mem))⟩ := by
  rw [catalogStep, catalogAdd, if_pos hin, Option.map_some]

/-- The step of `addConstructorArgs` inside the file. -/
theorem catalogStep_args (i : ℕ) (buffer : List UInt8) (hi : i < s.table.entries.length)
    (hfit : freeOffset s.mem + buffer.length ≤ catalogFileSize) :
    catalogStep s (.addConstructorArgs i buffer) =
      some ⟨runOps s.mem (argsOps s.mem i buffer),
        s.table.addArgs i (freeOffset s.mem) buffer⟩ := by
  rw [catalogStep, if_pos hi, catalogAddArgs, if_pos hfit, Option.map_some]

theorem length_addArgs (t : CatalogTable) (i offset : ℕ) (buffer : List UInt8) :
    (t.addArgs i offset buffer).entries.length = t.entries.length := by
  simp [CatalogTable.addArgs]

theorem length_add (t : CatalogTable) (e : CatalogEntry) :
    (t.add e).entries.length = t.entries.length + 1 := by
  simp [CatalogTable.add]

/-- Entries can be added up to the maximum. -/
theorem run_adds (uuid : Uuid) (type : BitVec 64) (n : ℕ) (h : TableOk s.mem s.table)
    (hroom : s.table.entries.length + n ≤ maxPersistentObjects) :
    ∃ s', run catalogStep s (List.replicate n (.add uuid type)) = some s' ∧
      TableOk s'.mem s'.table ∧ s'.table.entries.length = s.table.entries.length + n ∧
      s'.table.areas = s.table.areas ∧ freeOffset s'.mem = freeOffset s.mem := by
  induction n generalizing s with
  | zero => exact ⟨s, rfl, h, rfl, rfl, rfl⟩
  | succ n ih =>
    have hin : entryOffset (objectCount s.mem) + 32 ≤ catalogFileSize := by
      rw [h.count]
      exact (entryOffset_le (show s.table.entries.length + 1 ≤ _ by omega)).trans (by decide)
    have hstep := catalogStep_add uuid type hin
    have hok := catalogStep_tableOk h hstep (by rw [length_add]; omega)
    obtain ⟨s', hrun, hok', hlen, hareas, hfree⟩ := ih hok (by rw [length_add]; omega)
    refine ⟨s', run_cons.mpr ⟨_, hstep, hrun⟩, hok', ?_, hareas, hfree.trans freeOffset_addOps⟩
    rw [hlen, length_add]
    omega

/-- The entry behind the last one that fits is written to the argument areas. -/
theorem add_overflow (uuid : Uuid) (type : BitVec 64) (h : TableOk s.mem s.table)
    (hfull : s.table.entries.length = maxPersistentObjects) :
    ∃ s', catalogStep s (.add uuid type) = some s' ∧ s'.table.areas = s.table.areas ∧
      s'.table.entries.length = maxPersistentObjects + 1 ∧
      bytes s'.mem catalogHeaderSize 16 = uuidBytes uuid := by
  have hoff : entryOffset (objectCount s.mem) = catalogHeaderSize := by
    rw [h.count, hfull]
    rfl
  refine ⟨_, catalogStep_add uuid type (by rw [hoff]; decide), rfl, by rw [length_add, hfull], ?_⟩
  have hpos : 16 ≤ catalogHeaderSize := by decide
  have hstored : bytes (store s.mem catalogHeaderSize (uuidBytes uuid)) catalogHeaderSize 16 =
      uuidBytes uuid := by
    have := bytes_store_self s.mem catalogHeaderSize (uuidBytes uuid)
    rwa [uuidBytes, length_bytesLE] at this
  refine Eq.trans (bytes_congr fun x hlo hhi => ?_) hstored
  dsimp only
  rw [runOps_addOps, hoff, store_of_outside (by rw [length_bytesLE]; omega),
    store_of_outside (show x < catalogHeaderSize + 16 ∨ _ from .inl hhi)]

/-- Entry 65535 takes the place of the arguments of the first object. -/
theorem table_overwrites_args :
    ∃ s, run catalogStep ⟨newCatalog, ⟨[], []⟩⟩ (List.replicate 1 (.add 1 0) ++
        .addConstructorArgs 0 [7] :: (List.replicate (maxPersistentObjects - 1) (.add 2 0) ++
          [.add 2 0])) = some s ∧
      (catalogHeaderSize, [7]) ∈ s.table.areas ∧ bytes s.mem catalogHeaderSize 1 ≠ [7] ∧
      ¬ s.Intact := by
  obtain ⟨s₁, hrun₁, hok₁, hlen₁, -, hfree₁⟩ := run_adds 1 0 1 (s := ⟨newCatalog, ⟨[], []⟩⟩)
    tableOk_newCatalog (by decide)
  have hfree : freeOffset s₁.mem = catalogHeaderSize := hfree₁.trans (by decide +kernel)
  have hlen : s₁.table.entries.length = 1 := hlen₁
  have hstep₂ := catalogStep_args 0 [7] (s := s₁) (by omega) (by rw [hfree]; decide)
  have hok₂ := catalogStep_tableOk hok₁ hstep₂ (by rw [length_addArgs, hlen]; decide)
  obtain ⟨s₃, hrun₃, hok₃, hlen₃, hareas₃, -⟩ := run_adds 2 0 (maxPersistentObjects - 1) hok₂
    (by rw [length_addArgs, hlen]; decide)
  rw [length_addArgs, hlen] at hlen₃
  obtain ⟨s₄, hstep₄, hareas₄, hlen₄, hbytes⟩ := add_overflow 2 0 hok₃ hlen₃
  have hrun₄ : run catalogStep s₃ [.add 2 0] = some s₄ := run_cons.mpr ⟨s₄, hstep₄, rfl⟩
  have hrun₂ := run_cons.mpr ⟨_, hstep₂, run_trans hrun₃ hrun₄⟩
  have hrun := run_trans hrun₁ hrun₂
  refine ⟨s₄, hrun, ?_, fun hseven => ?_, fun hintact => ?_⟩
  · rw [hareas₄, hareas₃, CatalogTable.addArgs, hfree]
    simp
  · have hbyte : s₄.mem catalogHeaderSize = 2 := by
      have := congrArg (List.headD · 0) hbytes
      exact this
    rw [show bytes s₄.mem catalogHeaderSize 1 = [s₄.mem catalogHeaderSize] from rfl, hbyte] at hseven
    revert hseven
    decide
  · have := entryOffset_le_iff.mp hintact.apart
    omega

end Calls

end Pronto
