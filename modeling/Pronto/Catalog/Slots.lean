import Pronto.Catalog.Creation

/-!
# Slots of object allocators

Every persistent object has an allocator, an `ObjectAlloc` in the array `allocatorsMemory`
(`ckpt_alloc.cpp`). `newAllocator` takes the slot behind the registered ones, while `Snapshot::load` puts
the allocators of a snapshot back to the slots they had, and objects that are newer than the snapshot
get theirs when the manager recovers them in the catalog's order.

This module runs sessions of a manager with its factories: objects are created instruction by
instruction, snapshots are taken, and sessions end by the destructor or by a crash at any point. The
invariant is that an object's slot is its position in the catalog, and that a snapshot holds the first
objects of the catalog. Therefore slots are distinct and the catalog lists every object of the latest
snapshot (`slots_distinct`), as long as the catalog's table does not overflow: its last entry overlaps
the first argument area, and an object can overwrite its own entry (`saved_object_not_listed`).
-/

namespace Pronto

open Memory Persist Runs

/-! ## Registered allocators -/

/-- The number of slots of `allocatorsMemory`: `MaxAllocatorMemorySize` over the size of an
`ObjectAlloc`. -/
def maxAllocators : ℕ := 0x200000 / 32

/-- A map from identifiers to slots. -/
abbrev SlotMap := List (Uuid × ℕ)

/-- `std::map::insert`: an entry with the same key stays. -/
def SlotMap.insert (l : SlotMap) (p : Uuid × ℕ) : SlotMap :=
  if p.1 ∈ l.map (·.1) then l else l ++ [p]

/-- `GlobalAlloc::newAllocator`; `none` is a slot behind the mapped memory. -/
def newAllocator (allocators : SlotMap) (uuid : Uuid) : Option (SlotMap × ℕ) :=
  let slot := allocators.length
  if slot < maxAllocators then some (allocators.insert (uuid, slot), slot) else none

/-- `GlobalAlloc::findAllocator`. -/
def findSlot (allocators : SlotMap) (uuid : Uuid) : Option ℕ :=
  (allocators.find? fun p => p.1 = uuid).map (·.2)

/-! ## Sessions -/

/-- The catalog file, the running call of `createNew` with its object and slot, the registered
allocators, the manager's objects with the slots of their allocators, the listed objects that the
constructor has not recovered yet, and the objects of the latest snapshot with their slots. -/
structure FactoryState where
  pm : PMem
  pending : List Op
  creating : Option (NewObject × ℕ)
  allocators : SlotMap
  objects : SlotMap
  todo : List Uuid
  up : Bool
  snapshot : SlotMap

inductive FactoryAction
  | start
  | recover
  | create (o : NewObject)
  | step
  | insert
  | snapshot
  | stop
  | evict (line : ℕ)
  | crash

/-- The identifiers that the catalog lists. -/
def listedUuids (m : Mem) : List Uuid := (catalogEntries m).map (·.uuid)

/-- `NVManager::recoverObject`. -/
def recoverObject (s : FactoryState) (uuid : Uuid) : Option FactoryState :=
  if uuid ∈ s.objects.map (·.1) then
    -- recovered from the snapshot
    (findSlot s.allocators uuid).map fun slot =>
      { s with objects := s.objects.map fun p => if p.1 = uuid then (uuid, slot) else p }
  else
    (newAllocator s.allocators uuid).map fun r =>
      { s with allocators := r.1, objects := s.objects.insert (uuid, r.2) }

/-- The state without a manager. -/
def FactoryState.down (pm : PMem) (snapshot : SlotMap) : FactoryState :=
  ⟨pm, [], none, [], [], [], false, snapshot⟩

/-- One step. `start` is the constructor up to the loading of the snapshot; `create` is `Factory` for an
object that was not recovered, up to the first instruction of `createNew`, and `insert` its end. Factories
and snapshots hold the manager's lock. -/
def factoryStep (s : FactoryState) : FactoryAction → Option FactoryState
  | .start =>
    if s.up then none
    else if objectCount s.pm.view = 0 then some { s with up := true }
    else some { s with
      up := true
      allocators := s.snapshot.foldl SlotMap.insert s.allocators
      objects := s.snapshot.foldl SlotMap.insert s.objects
      todo := listedUuids s.pm.view }
  | .recover =>
    match s.todo with
    | [] => none
    | uuid :: rest => recoverObject { s with todo := rest } uuid
  | .create o =>
    if s.up ∧ s.todo = [] ∧ s.creating = none ∧ o.uuid ∉ s.objects.map (·.1) ∧
        entryOffset (objectCount s.pm.view) + 32 ≤ catalogFileSize ∧
        freeOffset s.pm.view + o.argsSize ≤ catalogFileSize then
      (newAllocator s.allocators o.uuid).map fun r =>
        { s with
          allocators := r.1
          creating := some (o, r.2)
          pending := createOps s.pm.view o }
    else none
  | .step =>
    match s.pending with
    | [] => none
    | op :: rest => some { s with pm := op.apply s.pm, pending := rest }
  | .insert =>
    match s.creating, s.pending with
    | some (o, slot), [] =>
      some { s with creating := none, objects := s.objects.insert (o.uuid, slot) }
    | _, _ => none
  | .snapshot =>
    if s.up ∧ s.todo = [] ∧ s.creating = none then some { s with snapshot := s.objects } else none
  | .stop =>
    if s.up ∧ s.todo = [] ∧ s.creating = none then some (.down s.pm s.snapshot) else none
  | .evict line => some { s with pm := s.pm.evict line }
  | .crash => some (.down s.pm.crash s.snapshot)

/-- A new catalog. -/
def FactoryState.new : FactoryState := .down ⟨newCatalog, newCatalog⟩ []

/-- Objects are created as long as the catalog's table has room. -/
def FactoryState.HasRoom (s : FactoryState) : FactoryAction → Prop
  | .create _ => objectCount s.pm.view < maxPersistentObjects
  | _ => True

instance (s : FactoryState) (a : FactoryAction) : Decidable (s.HasRoom a) := by
  cases a <;> unfold FactoryState.HasRoom <;> infer_instance

/-! ## Slots by position -/

/-- The first `n` objects, each at its position. -/
def slotsOf (us : List Uuid) (n : ℕ) : SlotMap := (us.take n).zipIdx

section Slots

variable {us : List Uuid} {n j : ℕ} {u : Uuid} {p : Uuid × ℕ}

theorem slotsOf_keys (us : List Uuid) (n : ℕ) : (slotsOf us n).map (·.1) = us.take n :=
  List.zipIdx_map_fst 0 _

theorem slotsOf_slots (us : List Uuid) (n : ℕ) :
    (slotsOf us n).map (·.2) = List.range (us.take n).length := by
  rw [slotsOf, List.zipIdx_map_snd, List.range_eq_range']

theorem length_slotsOf (hn : n ≤ us.length) : (slotsOf us n).length = n := by
  rw [slotsOf, List.length_zipIdx, List.length_take, min_eq_left hn]

theorem mem_slotsOf : p ∈ slotsOf us n ↔ p.2 < n ∧ us[p.2]? = some p.1 := by
  rw [slotsOf, List.mem_zipIdx_iff_getElem?, List.getElem?_take]
  split <;> simp_all

theorem slotsOf_succ (hu : us[n]? = some u) : slotsOf us (n + 1) = slotsOf us n ++ [(u, n)] := by
  have hn : n < us.length := (List.getElem?_eq_some_iff.mp hu).1
  rw [slotsOf, List.take_add_one, hu, List.zipIdx_append, List.length_take, min_eq_left hn.le]
  simp [slotsOf]

theorem slotsOf_append (us : List Uuid) (v : Uuid) (hn : n ≤ us.length) :
    slotsOf (us ++ [v]) n = slotsOf us n := by
  rw [slotsOf, slotsOf, List.take_append_of_le_length hn]

theorem SlotMap.insert_of_not_mem {l : SlotMap} (h : p.1 ∉ l.map (·.1)) : l.insert p = l ++ [p] :=
  if_neg h

/-- Inserting entries with new keys one by one appends them. -/
theorem foldl_insert {acc l : SlotMap} (h : ((acc ++ l).map (·.1)).Nodup) :
    l.foldl SlotMap.insert acc = acc ++ l := by
  induction l generalizing acc with
  | nil => simp
  | cons p l ih =>
    rw [List.append_cons] at h
    have hp : p.1 ∉ acc.map (·.1) := by
      rw [List.map_append, List.map_append] at h
      intro hmem
      exact (List.nodup_append.mp (List.nodup_append.mp h).1).2.2 _ hmem _ (by simp) rfl
    rw [List.foldl_cons, SlotMap.insert_of_not_mem hp, ih h, ← List.append_cons]

theorem eq_of_mem_slotsOf (hnodup : us.Nodup) (hu : us[j]? = some u) (hp : p ∈ slotsOf us n)
    (hkey : p.1 = u) : p = (u, j) := by
  have hpos := (mem_slotsOf.mp hp).2
  have hlt : p.2 < us.length := (List.getElem?_eq_some_iff.mp hpos).1
  rw [hkey, ← hu] at hpos
  exact Prod.ext hkey ((List.getElem?_inj hlt hnodup).mp hpos)

/-- A key is found at its position. -/
theorem findSlot_slotsOf (hnodup : us.Nodup) (hu : us[j]? = some u) (hj : j < n) :
    findSlot (slotsOf us n) u = some j := by
  have hmem : (u, j) ∈ slotsOf us n := mem_slotsOf.mpr ⟨hj, hu⟩
  obtain ⟨p, hp⟩ : ∃ p, (slotsOf us n).find? (fun p => p.1 = u) = some p :=
    Option.isSome_iff_exists.mp (List.find?_isSome.mpr ⟨_, hmem, by simp⟩)
  have hkey : p.1 = u := by simpa using List.find?_some hp
  rw [findSlot, hp, Option.map_some,
    eq_of_mem_slotsOf hnodup hu (List.mem_of_find?_eq_some hp) hkey]

end Slots

/-! ## The invariant -/

/-- The identifiers of a table. -/
def CatalogTable.uuids (t : CatalogTable) : List Uuid := t.entries.map (·.uuid)

/-- What is registered over a catalog that lists `us`: nothing without a manager; otherwise the first
objects at their positions, and the constructor still has to look at those from some position on. -/
def FactoryState.Registers (s : FactoryState) (us : List Uuid) : Prop :=
  (s.up = false ∧ s.allocators = [] ∧ s.objects = [] ∧ s.todo = []) ∨
    (s.up = true ∧ ∃ j n, j ≤ n ∧ n ≤ us.length ∧ s.todo = us.drop j ∧
      s.allocators = slotsOf us n ∧ s.objects = slotsOf us n)

/-- The snapshot holds the first objects of the catalog. -/
def FactoryState.SavedFrom (s : FactoryState) (us : List Uuid) : Prop :=
  ∃ k, k ≤ us.length ∧ s.snapshot = slotsOf us k

/-- Between two calls of factories, or while the manager is down or recovers its objects. -/
structure FactoryIdle (s : FactoryState) (t : CatalogTable) : Prop where
  pending : s.pending = []
  creating : s.creating = none
  clean : s.pm.durable = s.pm.view
  table : TableOk s.pm.view t
  nodup : t.uuids.Nodup
  saved : s.SavedFrom t.uuids
  registers : s.Registers t.uuids

/-- While a factory creates an object. -/
structure FactoryBusy (s : FactoryState) (m : PMem) (t : CatalogTable) (o : NewObject) (pre : List Op) :
    Prop where
  call : Underway m t o pre s.pending s.pm
  creating : s.creating = some (o, t.uuids.length)
  nodup : (t.uuids ++ [o.uuid]).Nodup
  saved : s.SavedFrom t.uuids
  up : s.up = true
  todo : s.todo = []
  allocators : s.allocators = slotsOf (t.uuids ++ [o.uuid]) (t.uuids.length + 1)
  objects : s.objects = slotsOf t.uuids t.uuids.length

def FactoryInv (s : FactoryState) : Prop :=
  (∃ t, FactoryIdle s t) ∨ ∃ m t o pre, FactoryBusy s m t o pre

section Runs

variable {s s' : FactoryState} {t : CatalogTable} {m : PMem} {o : NewObject} {pre : List Op}

theorem length_uuids (t : CatalogTable) : t.uuids.length = t.entries.length := List.length_map ..

theorem uuids_add (t : CatalogTable) (e : CatalogEntry) : (t.add e).uuids = t.uuids ++ [e.uuid] := by
  simp [CatalogTable.uuids, CatalogTable.add]

/-- Arguments leave the identifiers. -/
theorem uuids_addArgs (t : CatalogTable) (i offset : ℕ) (buffer : List UInt8) :
    (t.addArgs i offset buffer).uuids = t.uuids := by
  refine List.ext_getElem? fun k => ?_
  simp only [CatalogTable.uuids, CatalogTable.addArgs, List.getElem?_map, List.getElem?_modify]
  rcases t.entries[k]? with _ | e
  · rfl
  · by_cases hik : i = k <;> simp [hik]

theorem uuids_table (o : NewObject) (m : Mem) (t : CatalogTable) :
    (o.table m t).uuids = t.uuids ++ [o.uuid] := by
  rw [NewObject.table]
  split
  · exact uuids_add t _
  · rw [uuids_addArgs]
    exact uuids_add t _

theorem TableOk.listedUuids_eq {m : Mem} (h : TableOk m t) : listedUuids m = t.uuids := by
  have hentries : catalogEntries m = t.entries := by
    rw [catalogEntries]
    refine List.ext_getElem (by rw [List.length_map, List.length_range, h.count]) fun i h1 h2 => ?_
    rw [List.getElem_map, List.getElem_range]
    exact h.entry i _ (List.getElem?_eq_getElem h2)
  rw [listedUuids, hentries, CatalogTable.uuids]

/-- Without a manager nothing is registered. -/
theorem factoryIdle_down {pm : PMem} {saved : SlotMap} (hclean : pm.durable = pm.view)
    (htable : TableOk pm.view t) (hnodup : t.uuids.Nodup)
    (hsaved : ∃ k, k ≤ t.uuids.length ∧ saved = slotsOf t.uuids k) :
    FactoryIdle (.down pm saved) t :=
  ⟨rfl, rfl, hclean, htable, hnodup, hsaved, .inl ⟨rfl, rfl, rfl, rfl⟩⟩

theorem factoryInv_new : FactoryInv .new :=
  .inl ⟨⟨[], []⟩, factoryIdle_down rfl tableOk_newCatalog List.nodup_nil ⟨0, le_rfl, rfl⟩⟩

/-- A constructor that has recovered all objects has registered them all. -/
theorem FactoryIdle.all_registered (h : FactoryIdle s t) (hup : s.up = true) (htodo : s.todo = []) :
    s.allocators = slotsOf t.uuids t.uuids.length ∧ s.objects = slotsOf t.uuids t.uuids.length := by
  rcases h.registers with ⟨hdown, -⟩ | ⟨-, j, n, hjn, hn, hdrop, hallocators, hobjects⟩
  · rw [hup] at hdown
    cases hdown
  · rw [htodo, eq_comm, List.drop_eq_nil_iff] at hdrop
    obtain rfl : n = t.uuids.length := by omega
    exact ⟨hallocators, hobjects⟩

/-- **The constructor** finds in the snapshot the first objects of the catalog, at the slots at
which recovery would put them. -/
theorem FactoryIdle.start (h : FactoryIdle s t) (hstep : factoryStep s .start = some s') :
    FactoryIdle s' t := by
  rw [factoryStep] at hstep
  split at hstep
  case isTrue => cases hstep
  case isFalse hup =>
  rcases h.registers with ⟨-, hallocators, hobjects, htodo⟩ | ⟨hup', -⟩
  case inr => exact absurd hup' hup
  split at hstep
  · -- nothing is listed, so nothing is to be recovered
    rename_i hcount
    cases hstep
    have hnil : t.uuids.length = 0 := by rw [length_uuids, ← h.table.count, hcount]
    refine ⟨h.pending, h.creating, h.clean, h.table, h.nodup, h.saved, .inr ⟨rfl, 0, 0, le_rfl,
      Nat.zero_le _, ?_, hallocators, hobjects⟩⟩
    rw [List.length_eq_zero_iff.mp hnil]
    exact htodo
  · cases hstep
    obtain ⟨k, hk, hsnapshot⟩ := h.saved
    have hload : s.snapshot.foldl SlotMap.insert [] = slotsOf t.uuids k := by
      rw [foldl_insert, List.nil_append, hsnapshot]
      rw [List.nil_append, hsnapshot, slotsOf_keys]
      exact h.nodup.sublist (List.take_sublist _ _)
    refine ⟨h.pending, h.creating, h.clean, h.table, h.nodup, h.saved, .inr ⟨rfl, 0, k, Nat.zero_le _,
      hk, ?_, ?_, ?_⟩⟩
    · dsimp only
      rw [h.table.listedUuids_eq, List.drop_zero]
    · dsimp only
      rw [hallocators, hload]
    · dsimp only
      rw [hobjects, hload]

/-- **Recovering the next object**: it was loaded from the snapshot with its position, or it gets
the next free slot, which is its position too. -/
theorem FactoryIdle.recover (h : FactoryIdle s t) (hstep : factoryStep s .recover = some s') :
    FactoryIdle s' t := by
  rcases h.registers with ⟨-, -, -, htodo⟩ | ⟨hup, j, n, hjn, hn, htodo, hallocators, hobjects⟩
  · simp [factoryStep, htodo] at hstep
  rcases hrest : s.todo with _ | ⟨uuid, rest⟩
  · simp [factoryStep, hrest] at hstep
  have hdrop : t.uuids.drop j = uuid :: rest := by rw [← htodo, hrest]
  have huuid : t.uuids[j]? = some uuid := by
    rw [← Nat.add_zero j, ← List.getElem?_drop, hdrop, List.getElem?_cons_zero]
  have htail : rest = t.uuids.drop (j + 1) := by
    rw [← List.drop_drop, hdrop, List.drop_one, List.tail_cons]
  have hlt : j < t.uuids.length := (List.getElem?_eq_some_iff.mp huuid).1
  simp only [factoryStep, hrest, recoverObject, hobjects, hallocators, slotsOf_keys] at hstep
  split at hstep
  · -- the object is part of the snapshot
    rename_i hmem
    have hj : j < n := by
      obtain ⟨i, hi, heq⟩ := List.mem_take_iff_getElem.mp hmem
      have : t.uuids[i]? = t.uuids[j]? := by
        rw [huuid, ← heq]
        exact List.getElem?_eq_getElem _
      have := (List.getElem?_inj (by omega) h.nodup).mp this
      omega
    rw [findSlot_slotsOf h.nodup huuid hj, Option.map_some, Option.some.injEq] at hstep
    subst hstep
    refine ⟨h.pending, h.creating, h.clean, h.table, h.nodup, h.saved, .inr ⟨hup, j + 1, n, hj, hn,
      htail, rfl, ?_⟩⟩
    refine (List.map_congr_left fun p hp => ?_).trans (List.map_id _)
    split
    · rename_i hkey
      exact (eq_of_mem_slotsOf h.nodup huuid hp hkey).symm
    · rfl
  · -- it is created anew, behind the registered ones
    rename_i hmem
    obtain rfl : j = n := by
      by_contra hne
      exact hmem (List.mem_take_iff_getElem.mpr ⟨j, by omega, by
        simpa using (List.getElem?_eq_some_iff.mp huuid).2⟩)
    have hslots : j < maxAllocators := by
      have := h.table.fits
      rw [length_uuids] at hlt
      dsimp only [maxPersistentObjects, catalogHeaderSize, maxAllocators] at *
      omega
    simp only [newAllocator, length_slotsOf hn, if_pos hslots, Option.map_some,
      Option.some.injEq] at hstep
    subst hstep
    have hinsert : (slotsOf t.uuids j).insert (uuid, j) = slotsOf t.uuids (j + 1) := by
      rw [SlotMap.insert_of_not_mem (by rw [slotsOf_keys]; exact hmem), slotsOf_succ huuid]
    exact ⟨h.pending, h.creating, h.clean, h.table, h.nodup, h.saved, .inr ⟨hup, j + 1, j + 1,
      le_rfl, hlt, htail, hinsert, hinsert⟩⟩

/-- **A factory** takes the next slot for its object before the object is listed. -/
theorem FactoryIdle.create (h : FactoryIdle s t) (hroom : s.HasRoom (.create o))
    (hstep : factoryStep s (.create o) = some s') : FactoryBusy s' s.pm t o [] := by
  rw [factoryStep] at hstep
  split at hstep
  case isFalse => cases hstep
  case isTrue hs =>
  obtain ⟨hup, htodo, -, hnew, -, hfits⟩ := hs
  obtain ⟨hallocators, hobjects⟩ := h.all_registered hup htodo
  have hentries : t.entries.length < maxPersistentObjects := by
    rw [← h.table.count]
    exact hroom
  -- slots are positions, so there is one left
  have hslots : t.uuids.length < maxAllocators := by
    rw [length_uuids]
    exact hentries.trans (by decide)
  have hfresh : o.uuid ∉ t.uuids := by
    rwa [hobjects, slotsOf_keys, List.take_length] at hnew
  simp only [newAllocator, hallocators, length_slotsOf le_rfl, if_pos hslots, Option.map_some,
    Option.some.injEq] at hstep
  subst hstep
  refine ⟨⟨h.clean, h.table, hentries, hfits, rfl, .refl⟩, rfl, ?_, h.saved, hup, htodo, ?_, hobjects⟩
  · exact List.nodup_append.mpr ⟨h.nodup, by simp, fun a ha b hb => by
      rintro rfl
      rw [List.mem_singleton.mp hb] at ha
      exact hfresh ha⟩
  · dsimp only
    rw [SlotMap.insert_of_not_mem (by rwa [slotsOf_keys, List.take_length]),
      slotsOf_succ List.getElem?_concat_length, slotsOf_append _ _ le_rfl]

/-- The end of `createNew`: the catalog lists the object. -/
theorem FactoryBusy.insert (h : FactoryBusy s m t o pre) (hstep : factoryStep s .insert = some s') :
    FactoryIdle s' (o.table m.view t) := by
  rcases hpending : s.pending with _ | ⟨op, rest⟩
  · obtain rfl : { s with creating := none, objects := s.objects.insert (o.uuid, t.uuids.length) } =
        s' := by
      simpa [factoryStep, h.creating, hpending] using hstep
    have hcall := h.call
    rw [hpending] at hcall
    obtain ⟨hclean, htable⟩ := hcall.complete
    have huuids := uuids_table o m.view t
    have hlen : (o.table m.view t).uuids.length = t.uuids.length + 1 := by rw [huuids]; simp
    have hfresh : o.uuid ∉ t.uuids := fun hmem =>
      (List.nodup_append.mp h.nodup).2.2 _ hmem _ (List.mem_singleton_self _) rfl
    refine ⟨hpending, rfl, hclean, htable, huuids ▸ h.nodup, ?_, .inr ⟨h.up, t.uuids.length + 1,
      t.uuids.length + 1, le_rfl, hlen.ge, ?_, ?_, ?_⟩⟩
    · obtain ⟨k, hk, hsnapshot⟩ := h.saved
      refine ⟨k, by omega, hsnapshot.trans ?_⟩
      rw [huuids, slotsOf_append _ _ hk]
    · rw [List.drop_eq_nil_of_le hlen.le]
      exact h.todo
    · rw [huuids]
      exact h.allocators
    · dsimp only
      rw [h.objects, SlotMap.insert_of_not_mem (by rwa [slotsOf_keys, List.take_length]), huuids,
        slotsOf_succ List.getElem?_concat_length, slotsOf_append _ _ le_rfl]
  · simp [factoryStep, h.creating, hpending] at hstep

/-- A crash while an object is created: the catalog lists it or not. -/
theorem FactoryBusy.crash (h : FactoryBusy s m t o pre) :
    ∃ t', FactoryIdle (.down s.pm.crash s.snapshot) t' := by
  rcases h.call.count with hcount | hcount
  · exact ⟨t, factoryIdle_down rfl (h.call.tableOk_of_not_counted hcount)
      (List.nodup_append.mp h.nodup).1 h.saved⟩
  · refine ⟨_, factoryIdle_down rfl (h.call.tableOk_of_counted hcount) ?_ ?_⟩
    · rw [uuids_add]
      exact h.nodup
    · obtain ⟨k, hk, hsnapshot⟩ := h.saved
      rw [uuids_add]
      refine ⟨k, by rw [List.length_append]; omega, ?_⟩
      rw [hsnapshot, slotsOf_append _ _ hk]

/-- **Every action keeps the invariant.** -/
theorem factoryStep_inv {a : FactoryAction} (h : FactoryInv s) (hroom : s.HasRoom a)
    (hstep : factoryStep s a = some s') : FactoryInv s' := by
  rcases h with ⟨t, h⟩ | ⟨m, t, o, pre, h⟩
  · cases a with
    | start => exact .inl ⟨t, h.start hstep⟩
    | recover => exact .inl ⟨t, h.recover hstep⟩
    | create o => exact .inr ⟨s.pm, t, o, [], h.create hroom hstep⟩
    | step => simp [factoryStep, h.pending] at hstep
    | insert => simp [factoryStep, h.creating] at hstep
    | snapshot =>
      rw [factoryStep] at hstep
      split at hstep <;> cases hstep
      rename_i hs
      exact .inl ⟨t, { h with saved := ⟨_, le_rfl, (h.all_registered hs.1 hs.2.1).2⟩ }⟩
    | stop =>
      rw [factoryStep] at hstep
      split at hstep <;> cases hstep
      exact .inl ⟨t, factoryIdle_down h.clean h.table h.nodup h.saved⟩
    | evict line =>
      cases hstep
      have hclean : (s.pm.evict line).durable = s.pm.view := by
        funext x
        rcases evict_durable s.pm line x with heq | heq
        · exact heq
        · exact heq.trans (congrFun h.clean x)
      exact .inl ⟨t, { h with clean := hclean }⟩
    | crash =>
      cases hstep
      refine .inl ⟨t, factoryIdle_down rfl ?_ h.nodup h.saved⟩
      dsimp only [PMem.crash]
      rw [h.clean]
      exact h.table
  · cases a with
    | start => simp [factoryStep, h.up] at hstep
    | recover => simp [factoryStep, h.todo] at hstep
    | create o => simp [factoryStep, h.creating] at hstep
    | step =>
      rcases hpending : s.pending with _ | ⟨op, rest⟩
      · simp [factoryStep, hpending] at hstep
      · obtain rfl : { s with pm := op.apply s.pm, pending := rest } = s' := by
          simpa [factoryStep, hpending] using hstep
        have hcall := h.call
        rw [hpending] at hcall
        exact .inr ⟨m, t, o, _, { h with call := hcall.step }⟩
    | insert => exact .inl ⟨_, h.insert hstep⟩
    | snapshot => simp [factoryStep, h.creating] at hstep
    | stop => simp [factoryStep, h.creating] at hstep
    | evict line =>
      cases hstep
      exact .inr ⟨m, t, o, pre, { h with call := h.call.evict line }⟩
    | crash =>
      cases hstep
      exact .inl h.crash

/-- A file lists the identifiers of a table whose entries it holds. -/
theorem mem_listedUuids {m' : Mem} {u : Uuid} (htable : TableOk m.view t)
    (hcount : t.entries.length ≤ objectCount m')
    (hentries : ∀ x, 32 ≤ x → x < entryOffset t.entries.length → m' x = m.view x)
    (hu : u ∈ t.uuids) : u ∈ listedUuids m' := by
  obtain ⟨e, he, rfl⟩ := List.mem_map.mp hu
  obtain ⟨i, hi⟩ := List.mem_iff_getElem?.mp he
  have hlt : i < t.entries.length := (List.getElem?_eq_some_iff.mp hi).1
  refine List.mem_map.mpr ⟨e, List.mem_map.mpr ⟨i, List.mem_range.mpr (by omega), ?_⟩, rfl⟩
  rw [catalogEntry_congr fun x hlo hhi => hentries x ?_ ?_]
  · exact htable.entry i e hi
  · exact le_trans (Nat.le_add_right 32 _) hlo
  · unfold entryOffset at *
    omega

/-- While an object is created the file lists the older ones, in both views. -/
theorem Underway.mem_listedUuids {pm : PMem} {post : List Op} {u : Uuid}
    (h : Underway m t o pre post pm) (hu : u ∈ t.uuids) :
    u ∈ listedUuids pm.durable ∧ u ∈ listedUuids pm.view := by
  have hfree := h.table.free.1
  have hend := h.entry_end
  have hmem : ∀ op ∈ pre, op ∈ createOps m.view o := fun op hop => by
    rw [h.ops]
    exact List.mem_append_left _ hop
  have hold : WordHolds m 8 (t.entries.length ≤ ·) := by
    rw [WordHolds, h.clean]
    exact ⟨h.table.count.ge, h.table.count.ge⟩
  have hcount : WordHolds pm 8 (t.entries.length ≤ ·) :=
    h.executes.wordHolds (by decide) hold fun op hop =>
      (createOps_respects_count h.free_ge h.count_lt op (hmem op hop)).mono fun v hv => by
        rwa [← h.table.count]
  have htouch : ∀ x, 32 ≤ x → x < entryOffset t.entries.length →
      ∀ op ∈ createOps m.view o, ¬ op.Touches x := fun x h1 h2 =>
    createOps_not_touches (by omega) (.inl (by rwa [h.table.count])) (.inl (by omega))
  refine ⟨Pronto.mem_listedUuids h.table hcount.2 (fun x h1 h2 => ?_) hu,
    Pronto.mem_listedUuids h.table hcount.1 (fun x h1 h2 => ?_) hu⟩
  · exact h.durable_of_not_touches (htouch x h1 h2)
  · rw [h.executes.view_eq]
    exact runOps_of_not_touches fun op hop => htouch x h1 h2 op (hmem op hop)

end Runs

/-- **Slots are distinct and saved objects are listed.** In every run of sessions in which objects are
created while the catalog's table has room, whatever the snapshots, the crashes and the cache lines
written back, the catalog lists every object of the latest snapshot, and the registered allocators have
distinct slots of `allocatorsMemory`. -/
theorem slots_distinct {as : List FactoryAction} {s : FactoryState}
    (hroom : Guarded factoryStep FactoryState.HasRoom .new as)
    (hrun : run factoryStep .new as = some s) :
    (∀ p ∈ s.snapshot, p.1 ∈ listedUuids s.pm.durable ∧ p.1 ∈ listedUuids s.pm.view) ∧
      (s.allocators.map (·.2)).Nodup ∧ ∀ p ∈ s.allocators, p.2 < maxAllocators := by
  have hinv : FactoryInv s :=
    hroom.invariant (fun _ _ _ h hg hstep => factoryStep_inv h hg hstep) factoryInv_new hrun
  have hkey : ∀ {us : List Uuid}, s.SavedFrom us → ∀ p ∈ s.snapshot, p.1 ∈ us := by
    rintro us ⟨k, -, hsnapshot⟩ p hp
    rw [hsnapshot] at hp
    exact List.mem_of_getElem? (mem_slotsOf.mp hp).2
  have hslots : ∀ {us : List Uuid} {n : ℕ}, s.allocators = slotsOf us n → n ≤ maxPersistentObjects →
      (s.allocators.map (·.2)).Nodup ∧ ∀ p ∈ s.allocators, p.2 < maxAllocators := by
    intro us n hallocators hn
    rw [hallocators, slotsOf_slots]
    refine ⟨List.nodup_range, fun p hp => ?_⟩
    exact ((mem_slotsOf.mp hp).1.trans_le hn).trans (by decide)
  rcases hinv with ⟨t, h⟩ | ⟨m, t, o, pre, h⟩
  · have hlisted : listedUuids s.pm.view = t.uuids := h.table.listedUuids_eq
    have hfits := h.table.fits
    rw [h.clean, hlisted]
    refine ⟨fun p hp => ⟨hkey h.saved p hp, hkey h.saved p hp⟩, ?_⟩
    rcases h.registers with ⟨-, hallocators, -⟩ | ⟨-, j, n, -, hn, -, hallocators, -⟩
    · simp [hallocators]
    · exact hslots hallocators (hn.trans ((length_uuids t).trans_le hfits))
  · refine ⟨fun p hp => h.call.mem_listedUuids (hkey h.saved p hp), ?_⟩
    refine hslots h.allocators ?_
    rw [length_uuids]
    exact h.call.room

/-! ## Whole calls -/

section Calls

variable {s : FactoryState} {t : CatalogTable} {o : NewObject}

/-- The actions of a whole call of a factory. -/
def factoryCall (o : NewObject) : List FactoryAction :=
  .create o :: (List.replicate (20 + if o.args.isSome then 5 + o.argsSize else 0) .step ++ [.insert])

theorem length_byteStores (a : ℕ) (bs : List UInt8) : (byteStores a bs).length = bs.length := by
  induction bs generalizing a with
  | nil => rfl
  | cons b bs ih => simp [byteStores, ih]

theorem length_createOps (m : Mem) (o : NewObject) :
    (createOps m o).length = 20 + if o.args.isSome then 5 + o.argsSize else 0 := by
  rcases hargs : o.args with _ | buffer
  · simp [createOps, addOps, NewObject.argsOps, hargs, length_byteStores, uuidBytes]
  · simp [createOps, addOps, NewObject.argsOps, argsOps, NewObject.argsSize, hargs,
      length_byteStores, uuidBytes]
    omega

/-- The pending instructions can all be executed. -/
theorem run_steps (s : FactoryState) : ∃ pm, run factoryStep s (List.replicate s.pending.length .step) =
      some { s with pm := pm, pending := [] } ∧ Executes s.pm s.pending pm := by
  rcases s with ⟨pm, pending, creating, allocators, objects, todo, up, snapshot⟩
  induction pending generalizing pm with
  | nil => exact ⟨pm, rfl, .refl⟩
  | cons op rest ih =>
    obtain ⟨pm', hrun, hexec⟩ := ih (op.apply pm)
    exact ⟨pm', run_cons.mpr ⟨_, rfl, hrun⟩, hexec.cons⟩

/-- The state after the first step of a call. -/
def FactoryState.creation (s : FactoryState) (o : NewObject) : FactoryState :=
  { s with
    allocators := s.allocators.insert (o.uuid, s.allocators.length)
    creating := some (o, s.allocators.length)
    pending := createOps s.pm.view o }

/-- What a factory needs to create an object. -/
structure FactoryState.Ready (s : FactoryState) (o : NewObject) : Prop where
  up : s.up = true
  todo : s.todo = []
  creating : s.creating = none
  fresh : o.uuid ∉ s.objects.map (·.1)
  entry : entryOffset (objectCount s.pm.view) + 32 ≤ catalogFileSize
  fits : freeOffset s.pm.view + o.argsSize ≤ catalogFileSize
  slot : s.allocators.length < maxAllocators

/-- The first step of a call. -/
theorem FactoryState.Ready.create (h : s.Ready o) :
    factoryStep s (.create o) = some (s.creation o) := by
  rw [factoryStep, if_pos ⟨h.up, h.todo, h.creating, h.fresh, h.entry, h.fits⟩, newAllocator,
    if_pos h.slot]
  rfl

/-- A whole call runs to its end without being interrupted. -/
theorem FactoryState.Ready.run (h : s.Ready o) : ∃ pm, Executes s.pm (createOps s.pm.view o) pm ∧
    run factoryStep s (factoryCall o) = some { s.creation o with
      pm := pm
      pending := []
      creating := none
      objects := s.objects.insert (o.uuid, s.allocators.length) } := by
  obtain ⟨pm, hsteps, hexec⟩ := run_steps (s.creation o)
  refine ⟨pm, hexec, ?_⟩
  rw [FactoryState.creation, length_createOps] at hsteps
  exact run_cons.mpr ⟨_, h.create, run_trans hsteps rfl⟩

/-- A whole call while the table has room. -/
theorem FactoryIdle.run_create (h : FactoryIdle s t) (hready : s.Ready o)
    (hroom : t.entries.length < maxPersistentObjects) :
    ∃ s', run factoryStep s (factoryCall o) = some s' ∧ FactoryIdle s' (o.table s.pm.view t) ∧
      s'.up = true ∧ s'.todo = [] ∧ s'.pm.view = runOps s.pm.view (createOps s.pm.view o) := by
  obtain ⟨pm, hexec, hrun⟩ := hready.run
  have hbusy := h.create (o := o) (by rwa [FactoryState.HasRoom, h.table.count]) hready.create
  have hdone : FactoryBusy { s.creation o with pm := pm, pending := [] } s.pm t o
      (createOps s.pm.view o) :=
    { hbusy with
      call := ⟨h.clean, h.table, hroom, hready.fits, (List.append_nil _).symm, hexec⟩ }
  exact ⟨_, hrun, hdone.insert rfl, hready.up, hready.todo, hexec.view_eq⟩

end Calls

/-- Two sessions: an object and a snapshot of it, a second object that is interrupted by a crash after it
was counted, and a recovery that takes the first from the snapshot and creates the second anew. -/
theorem slots_distinct_two_sessions :
    ∃ s, run factoryStep .new (.start :: (factoryCall ⟨1, 2, none⟩ ++ .snapshot ::
        .create ⟨3, 4, some [9]⟩ :: (List.replicate 22 .step ++ [.crash, .start, .recover, .recover]))) =
          some s ∧
      s.allocators = [(1, 0), (3, 1)] ∧ s.snapshot = [(1, 0)] ∧
      (∀ p ∈ s.snapshot, p.1 ∈ listedUuids s.pm.durable ∧ p.1 ∈ listedUuids s.pm.view) ∧
      (s.allocators.map (·.2)).Nodup ∧ ∀ p ∈ s.allocators, p.2 < maxAllocators := by
  have hany : (run factoryStep .new (.start :: (factoryCall ⟨1, 2, none⟩ ++ .snapshot ::
      .create ⟨3, 4, some [9]⟩ :: (List.replicate 22 .step ++
        [.crash, .start, .recover, .recover])))).any
      (fun s => s.allocators == [(1, 0), (3, 1)] && s.snapshot == [(1, 0)]) = true := by
    decide +kernel
  obtain ⟨s, hrun, h⟩ := run_of_any hany
  simp only [Bool.and_eq_true, beq_iff_eq] at h
  refine ⟨s, hrun, h.1, h.2, slots_distinct (guarded_of_decide ?_) hrun⟩
  decide +kernel

/-! ## A full table -/

section Full

/-- An object without arguments. -/
def bareObject (i : ℕ) : NewObject := ⟨BitVec.ofNat 128 (i + 1), 0, none⟩

/-- A session that creates `n` objects without arguments. -/
def bareCreations (n : ℕ) : List FactoryAction :=
  .start :: (List.range n).flatMap fun i => factoryCall (bareObject i)

theorem bareObject_uuid_ne {i n : ℕ} (hi : i < n) (hn : n < 2 ^ 64) :
    (bareObject i).uuid ≠ (bareObject n).uuid := by
  intro heq
  have := congrArg BitVec.toNat heq
  simp only [bareObject, BitVec.toNat_ofNat] at this
  omega

theorem start_new : factoryStep .new .start = some { FactoryState.new with up := true } := by
  have hcount : objectCount FactoryState.new.pm.view = 0 := by decide
  rw [factoryStep, if_neg (by decide), if_pos hcount]

/-- A factory can create the next object. -/
theorem FactoryIdle.ready {s : FactoryState} {t : CatalogTable} {o : NewObject} (h : FactoryIdle s t)
    (hup : s.up = true) (htodo : s.todo = []) (hfresh : o.uuid ∉ t.uuids)
    (hfits : freeOffset s.pm.view + o.argsSize ≤ catalogFileSize) : s.Ready o := by
  obtain ⟨hallocators, hobjects⟩ := h.all_registered hup htodo
  have hlen : t.uuids.length ≤ maxPersistentObjects := by
    rw [length_uuids]
    exact h.table.fits
  refine ⟨hup, htodo, h.creating, ?_, ?_, hfits, ?_⟩
  · rwa [hobjects, slotsOf_keys, List.take_length]
  · have := entryOffset_le h.table.fits
    rw [h.table.count]
    dsimp only [catalogHeaderSize, catalogFileSize] at *
    omega
  · rw [hallocators, length_slotsOf le_rfl]
    exact hlen.trans_lt (by decide)

/-- As many objects can be created as the table has room for. -/
theorem run_bareCreations {n : ℕ} (hn : n ≤ maxPersistentObjects) :
    ∃ s t, run factoryStep .new (bareCreations n) = some s ∧ FactoryIdle s t ∧ s.up = true ∧
      s.todo = [] ∧ t.uuids = (List.range n).map (fun i => (bareObject i).uuid) ∧
      freeOffset s.pm.view = catalogHeaderSize := by
  -- by induction on the number of objects; each call finds a durable table with room
  induction n with
  | zero =>
    have hidle : FactoryIdle .new ⟨[], []⟩ :=
      factoryIdle_down rfl tableOk_newCatalog List.nodup_nil ⟨0, le_rfl, rfl⟩
    exact ⟨_, _, run_cons.mpr ⟨_, start_new, rfl⟩, hidle.start start_new, rfl, rfl, rfl, by decide⟩
  | succ n ih =>
    obtain ⟨s, t, hrun, hidle, hup, htodo, huuids, hfree⟩ := ih (by omega)
    have hlen : t.entries.length = n := by rw [← length_uuids, huuids]; simp
    have hsmall : n < 2 ^ 64 := lt_of_lt_of_le hn (by decide)
    have hfresh : (bareObject n).uuid ∉ t.uuids := by
      rw [huuids]
      intro hmem
      obtain ⟨i, hi, heq⟩ := List.mem_map.mp hmem
      exact bareObject_uuid_ne (List.mem_range.mp hi) hsmall heq
    have hready : s.Ready (bareObject n) := by
      refine hidle.ready hup htodo hfresh ?_
      rw [hfree]
      show catalogHeaderSize + 0 ≤ catalogFileSize
      decide
    obtain ⟨s', hnext, hidle', hup', htodo', hview⟩ := hidle.run_create hready (by rw [hlen]; exact hn)
    refine ⟨s', _, ?_, hidle', hup', htodo', ?_, ?_⟩
    · have hall := run_trans hrun hnext
      rwa [bareCreations, List.cons_append, ← List.flatMap_singleton (fun i => factoryCall _) n,
        ← List.flatMap_append, ← List.range_succ] at hall
    · rw [uuids_table, huuids, List.range_succ, List.map_append, List.map_singleton]
    · rw [hview, createOps_of_no_args rfl, freeOffset_addOps, hfree]

/-- The object that fills the entry behind the last one, with sixteen zero bytes of arguments. -/
def overflowingObject : NewObject :=
  { bareObject maxPersistentObjects with args := some (List.replicate 16 0) }

/-- After `add`, the arguments of the object replace its identifier. -/
theorem overflow_not_listed {m : Mem} {t : CatalogTable} (h : TableOk m t)
    (hlen : t.entries.length = maxPersistentObjects) (hfree : freeOffset m = catalogHeaderSize)
    (hfresh : overflowingObject.uuid ∉ t.uuids) :
    overflowingObject.uuid ∉ listedUuids (runOps m (createOps m overflowingObject)) := by
  have hcount : objectCount m = maxPersistentObjects := h.count.trans hlen
  have hentry : entryOffset maxPersistentObjects = catalogHeaderSize := by decide
  intro hmem
  obtain ⟨e, he, heq⟩ := List.mem_map.mp hmem
  obtain ⟨i, hi, rfl⟩ := List.mem_map.mp he
  by_cases hold : i < maxPersistentObjects
  · -- the older entries stay as they are
    obtain ⟨e, he⟩ : ∃ e, t.entries[i]? = some e := ⟨_, List.getElem?_eq_getElem (hlen ▸ hold)⟩
    rw [catalogEntry_congr fun x h1 h2 => runOps_of_not_touches (createOps_not_touches ?_ ?_ ?_),
      h.entry i e he] at heq
    · exact hfresh (heq ▸ List.mem_map_of_mem (List.mem_of_getElem? he))
    · unfold entryOffset at h1
      omega
    · left
      rw [hcount]
      unfold entryOffset at *
      omega
    · left
      rw [hfree, ← hentry]
      unfold entryOffset at *
      omega
  · -- the new entry lies where its arguments go, so its identifier is overwritten with zeros
    have hview : runOps m (createOps m overflowingObject) =
        runOps (runOps m (addOps m overflowingObject.uuid overflowingObject.type))
          (argsOps (runOps m (addOps m overflowingObject.uuid overflowingObject.type))
            maxPersistentObjects (bytesLE 0 16)) := by
      rw [createOps, runOps_append, argsOps_addOps, ← hcount]
      rfl
    have hfree' : freeOffset (runOps m (addOps m overflowingObject.uuid overflowingObject.type)) =
        entryOffset maxPersistentObjects := freeOffset_addOps.trans (hfree.trans hentry.symm)
    have hlast : i = maxPersistentObjects := by
      have hnew : objectCount (runOps m (createOps m overflowingObject)) =
          maxPersistentObjects + 1 := by
        rw [hview, objectCount, load_congr fun x _ _ => argsOps_frame (by omega) ?_ ?_]
        · exact (objectCount_addOps (by rw [hcount]; decide)).trans (by rw [hcount])
        · rw [hfree']
          exact .inl (by unfold entryOffset; omega)
        · exact .inl (by unfold entryOffset; omega)
      have := List.mem_range.mp hi
      omega
    subst hlast
    have huuid : load (runOps m (createOps m overflowingObject)) (entryOffset maxPersistentObjects) 16 =
        0 := by
      rw [hview, runOps_argsOps, hfree', load_store_of_disjoint (by omega), load_store_word (by decide)]
    simp only [catalogEntry, huuid] at heq
    exact absurd heq (by decide)

/-- A catalog with `MaxPersistentObjects` objects. The next object's entry lies where the argument areas
begin, and its arguments overwrite its identifier: a snapshot holds the object, and the catalog lists
another one in its place. -/
theorem saved_object_not_listed :
    ∃ s, run factoryStep .new
        (bareCreations maxPersistentObjects ++ factoryCall overflowingObject ++ [.snapshot]) = some s ∧
      ∃ p ∈ s.snapshot, p.1 ∉ listedUuids s.pm.view := by
  obtain ⟨s, t, hrun, hidle, hup, htodo, huuids, hfree⟩ := run_bareCreations le_rfl
  have hlen : t.entries.length = maxPersistentObjects := by rw [← length_uuids, huuids]; simp
  have hfresh : overflowingObject.uuid ∉ t.uuids := by
    rw [huuids]
    intro hmem
    obtain ⟨i, hi, heq⟩ := List.mem_map.mp hmem
    exact bareObject_uuid_ne (List.mem_range.mp hi) (by decide) heq
  have hready : s.Ready overflowingObject := by
    refine hidle.ready hup htodo hfresh ?_
    rw [hfree]
    decide
  obtain ⟨pm, hexec, hcreate⟩ := hready.run
  obtain ⟨-, hobjects⟩ := hidle.all_registered hup htodo
  refine ⟨_, run_trans (run_trans hrun hcreate)
    (run_cons.mpr ⟨_, if_pos ⟨hup, htodo, rfl⟩, rfl⟩), (overflowingObject.uuid, s.allocators.length),
    ?_, ?_⟩
  · dsimp only
    rw [SlotMap.insert_of_not_mem hready.fresh]
    exact List.mem_append_right _ (List.mem_singleton_self _)
  · dsimp only
    rw [hexec.view_eq]
    exact overflow_not_listed hidle.table hlen hfree hfresh

end Full

end Pronto
