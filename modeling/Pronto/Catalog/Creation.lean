import Pronto.Catalog.NVCatalog

/-!
# Creating objects and crashing

`NVManager::createNew` enters an object into the catalog with `add` and then stores the arguments of its
constructor with `addConstructorArgs`. The machine of this module runs such calls instruction by
instruction; cache lines are written back at any time, and a crash may come between any two
instructions and leaves what is durable.

The object is listed as soon as `add` has counted it, before its arguments are stored: a crash in between
leaves an object without its arguments (`listed_without_args`). In runs in which no crash comes at such
a moment, the catalog always lists a prefix of the created objects, complete with their arguments
(`catalog_lists_created`).
-/

namespace Pronto

open Memory Persist Runs

/-- What `createNew` gets: an object's identifier and type, and its constructor's arguments. -/
structure NewObject where
  uuid : Uuid
  type : BitVec 64
  args : Option (List UInt8)
deriving DecidableEq, Repr

/-- The instructions that store the constructor's arguments, if there are any. -/
def NewObject.argsOps (o : NewObject) (m : Mem) : List Op :=
  match o.args with
  | none => []
  | some buffer => Pronto.argsOps m (objectCount m) buffer

/-- The instructions of `NVManager::createNew` on the catalog. -/
def createOps (m : Mem) (o : NewObject) : List Op := addOps m o.uuid o.type ++ o.argsOps m

/-- The number of argument bytes. -/
def NewObject.argsSize (o : NewObject) : ℕ := (o.args.getD []).length

/-- The catalog file, the objects created so far in their order, and the instructions that the running
call has left. -/
structure CreationState where
  pm : PMem
  created : List NewObject
  pending : List Op

inductive CreationAction
  | create (o : NewObject)
  | step
  | evict (line : ℕ)
  | crash

/-- One step. After a crash the file is opened again, and the objects are those that it lists. -/
def creationStep (s : CreationState) : CreationAction → Option CreationState
  | .create o =>
    if s.pending = [] ∧ entryOffset (objectCount s.pm.view) + 32 ≤ catalogFileSize ∧
        freeOffset s.pm.view + o.argsSize ≤ catalogFileSize then
      some ⟨s.pm, s.created ++ [o], createOps s.pm.view o⟩
    else none
  | .step =>
    match s.pending with
    | [] => none
    | op :: rest => some ⟨op.apply s.pm, s.created, rest⟩
  | .evict line => some { s with pm := s.pm.evict line }
  | .crash => some ⟨s.pm.crash, s.created.take (objectCount s.pm.durable), []⟩

/-- A new catalog. -/
def CreationState.new : CreationState := ⟨⟨newCatalog, newCatalog⟩, [], []⟩

/-- The file lists a prefix of the objects, each with its identifier and type and, if it was created with
arguments, with exactly these bytes at the offset in its entry. -/
def ListsPrefix (m : Mem) (created : List NewObject) : Prop :=
  objectCount m ≤ created.length ∧
    ∀ i o, i < objectCount m → created[i]? = some o →
      (catalogEntry m i).uuid = o.uuid ∧ (catalogEntry m i).type = o.type ∧
        ∀ buffer, o.args = some buffer →
          bytes m (catalogEntry m i).argsOffset buffer.length = buffer

/-- No object with arguments is listed in the durable catalog while its call is still running. -/
def CreationState.NoneHalfListed (s : CreationState) : Prop :=
  s.pending ≠ [] → ∀ o ∈ s.created.getLast?, o.args.isSome = true →
    objectCount s.pm.durable ≠ s.created.length

/-- Objects are created as long as the table has room, and crashes find no object half listed. -/
def CreationState.Careful (s : CreationState) : CreationAction → Prop
  | .create _ => s.created.length < maxPersistentObjects
  | .crash => s.NoneHalfListed
  | _ => True

instance (s : CreationState) : Decidable s.NoneHalfListed := by
  unfold CreationState.NoneHalfListed
  infer_instance

instance (s : CreationState) (a : CreationAction) : Decidable (s.Careful a) := by
  cases a <;> unfold CreationState.Careful <;> infer_instance

/-! ## The instructions of a call -/

/-- The instructions of `add` before it counts the object. -/
def entryOps (m : Mem) (o : NewObject) : List Op :=
  byteStores (entryOffset (objectCount m)) (uuidBytes o.uuid) ++
    [.store (entryOffset (objectCount m) + 16) (bytesLE o.type.toNat 8),
      .persist (entryOffset (objectCount m)) 32]

/-- The store that counts the object. -/
def countOp (m : Mem) : Op := .store 8 (bytesLE (objectCount m + 1) 8)

section Ops

variable {m : Mem} {o : NewObject} {x : ℕ}

theorem createOps_eq (m : Mem) (o : NewObject) :
    createOps m o = entryOps m o ++ countOp m :: (.persist 0 64 :: o.argsOps m) := by
  simp [createOps, addOps, entryOps, countOp]

theorem createOps_of_no_args (hargs : o.args = none) : createOps m o = addOps m o.uuid o.type := by
  rw [createOps, NewObject.argsOps, hargs, List.append_nil]

/-- `add` leaves the first free byte alone, so the arguments can be stored as if it had run before. -/
theorem argsOps_addOps (m : Mem) (uuid : Uuid) (type : BitVec 64) (i : ℕ) (buffer : List UInt8) :
    argsOps (runOps m (addOps m uuid type)) i buffer = argsOps m i buffer := by
  rw [argsOps, argsOps, freeOffset_addOps]

theorem entryOps_not_touches
    (hx : x < entryOffset (objectCount m) ∨ entryOffset (objectCount m) + 24 ≤ x) :
    ∀ op ∈ entryOps m o, ¬ op.Touches x := by
  intro op hop
  rcases List.mem_append.mp hop with hop | hop
  · exact not_touches_byteStores (by rw [uuidBytes, length_bytesLE]; omega) op hop
  · simp only [List.mem_cons, List.not_mem_nil, or_false] at hop
    rcases hop with rfl | rfl
    · simp only [Op.Touches, length_bytesLE]
      omega
    · exact id

/-- Storing the arguments changes the first free byte, the offset in the entry and the new area,
and nothing else. -/
theorem argsOps_not_touches (hfree : x < 16 ∨ 24 ≤ x)
    (hentry : x < entryOffset (objectCount m) + 24 ∨ entryOffset (objectCount m) + 32 ≤ x)
    (harea : x < freeOffset m ∨ freeOffset m + o.argsSize ≤ x) :
    ∀ op ∈ o.argsOps m, ¬ op.Touches x := by
  intro op hop
  rcases hargs : o.args with _ | buffer
  · simp [NewObject.argsOps, hargs] at hop
  · simp only [NewObject.argsSize, hargs, Option.getD_some] at harea
    simp only [NewObject.argsOps, hargs, Pronto.argsOps, List.mem_append, List.mem_cons,
      List.not_mem_nil, or_false] at hop
    rcases hop with ((rfl | rfl) | hop) | rfl | rfl | rfl
    · simp only [Op.Touches, length_bytesLE]
      omega
    · exact id
    · exact not_touches_byteStores harea op hop
    · exact id
    · simp only [Op.Touches, length_bytesLE]
      omega
    · exact id

/-- The instructions store to the new entry, to the two counters and behind the argument areas. -/
theorem createOps_not_touches (hx : x < 8 ∨ 24 ≤ x)
    (hentry : x < entryOffset (objectCount m) ∨ entryOffset (objectCount m) + 32 ≤ x)
    (harea : x < freeOffset m ∨ freeOffset m + o.argsSize ≤ x) :
    ∀ op ∈ createOps m o, ¬ op.Touches x := by
  intro op hop
  rw [createOps_eq] at hop
  simp only [List.mem_append, List.mem_cons] at hop
  rcases hop with hop | rfl | rfl | hop
  · exact entryOps_not_touches (by omega) op hop
  · simp only [countOp, Op.Touches, length_bytesLE]
    omega
  · exact id
  · exact argsOps_not_touches (by omega) (by omega) harea op hop

/-- The number of objects is stored to only once. -/
theorem entryOps_spares {a : ℕ} (ha : a + 8 ≤ 32) : ∀ op ∈ entryOps m o, op.Spares a := by
  have hlo : 32 ≤ entryOffset (objectCount m) := Nat.le_add_right 32 _
  intro op hop
  rcases List.mem_append.mp hop with hop | hop
  · exact spares_byteStores (by omega) op hop
  · simp only [List.mem_cons, List.not_mem_nil, or_false] at hop
    rcases hop with rfl | rfl
    · exact .inr (by omega)
    · exact .inr (.inl (by omega))

/-- The arguments go behind the table, so the count and the flags stay. -/
theorem argsOps_spares {a : ℕ} (ha : a + 8 ≤ 16 ∨ a = 24) (hfree : 32 ≤ freeOffset m) :
    ∀ op ∈ o.argsOps m, op.Spares a := by
  have hlo : 32 ≤ entryOffset (objectCount m) := Nat.le_add_right 32 _
  intro op hop
  rcases hargs : o.args with _ | buffer
  · simp [NewObject.argsOps, hargs] at hop
  · simp only [NewObject.argsOps, hargs, Pronto.argsOps, List.mem_append, List.mem_cons,
      List.not_mem_nil, or_false] at hop
    rcases hop with ((rfl | rfl) | hop) | rfl | rfl | rfl
    · simp only [Op.Spares, length_bytesLE]
      omega
    · exact .inr (.inr (by omega))
    · exact spares_byteStores (by omega) op hop
    · exact .inr (.inl (by omega))
    · exact .inr (by omega)
    · exact .inr (.inl (by omega))

/-- The first free byte moves on, within the file. -/
theorem createOps_respects_free (hfree : 32 ≤ freeOffset m)
    (hfits : freeOffset m + o.argsSize ≤ catalogFileSize) :
    ∀ op ∈ createOps m o,
      op.Respects 16 fun v => freeOffset m ≤ v ∧ v ≤ catalogFileSize := by
  have hlo : 32 ≤ entryOffset (objectCount m) := Nat.le_add_right 32 _
  have hline : (Op.persist 0 64).Spares 16 := .inr (.inr (by decide))
  intro op hop
  rw [createOps_eq] at hop
  simp only [List.mem_append, List.mem_cons] at hop
  rcases hop with hop | rfl | rfl | hop
  · exact .inl (entryOps_spares (by decide) op hop)
  · exact .inl (.inl (by rw [length_bytesLE]))
  · exact .inl hline
  · rcases hargs : o.args with _ | buffer
    · simp [NewObject.argsOps, hargs] at hop
    · simp only [NewObject.argsSize, hargs, Option.getD_some] at hfits
      simp only [NewObject.argsOps, hargs, Pronto.argsOps, List.mem_append, List.mem_cons,
        List.not_mem_nil, or_false] at hop
      -- only one instruction stores to `free_offset`, and it stores the end of the new area
      rcases hop with ((rfl | rfl) | hop) | rfl | rfl | rfl
      · refine .inr ⟨_, rfl, ⟨Nat.le_add_right _ _, hfits⟩, ?_⟩
        exact lt_of_le_of_lt hfits (by decide)
      · exact .inl hline
      · exact .inl (spares_byteStores (by omega) op hop)
      · exact .inl (.inr (.inl (by omega)))
      · exact .inl (.inr (by omega))
      · exact .inl (.inr (.inl (by omega)))

/-- The number of objects grows. -/
theorem createOps_respects_count (hfree : 32 ≤ freeOffset m) (hlt : objectCount m + 1 < 2 ^ 64) :
    ∀ op ∈ createOps m o, op.Respects 8 (objectCount m ≤ ·) := by
  intro op hop
  rw [createOps_eq] at hop
  simp only [List.mem_append, List.mem_cons] at hop
  rcases hop with hop | rfl | rfl | hop
  · exact .inl (entryOps_spares (by decide) op hop)
  · exact .inr ⟨_, rfl, Nat.le_succ _, hlt⟩
  · exact .inl (.inr (.inr (by decide)))
  · exact .inl (argsOps_spares (.inl le_rfl) hfree op hop)

theorem touches_byteStores {a : ℕ} {bs : List UInt8} :
    ∀ op ∈ byteStores a bs, ∀ x, op.Touches x → a ≤ x ∧ x < a + bs.length := by
  intro op hop x hx
  by_contra hout
  exact not_touches_byteStores (by omega) op hop hx

/-- A call of `createNew` persists all that it stores. -/
theorem createOps_flushes (m : Mem) (o : NewObject) : Flushes (createOps m o) := by
  have hword : ∀ a v x, (Op.store a (bytesLE v 8)).Touches x → a ≤ x ∧ x < a + 8 :=
    fun a v x hx => by simpa [Op.Touches] using hx
  have hadd : Flushes (addOps m o.uuid o.type) := by
    have hentry : Flushes ((byteStores (entryOffset (objectCount m)) (uuidBytes o.uuid) ++
        [.store (entryOffset (objectCount m) + 16) (bytesLE o.type.toNat 8)]) ++
          [.persist (entryOffset (objectCount m)) 32]) :=
      flushes_block fun op hop x hx => by
        rcases List.mem_append.mp hop with hop | hop
        · have := touches_byteStores op hop x hx
          rw [uuidBytes, length_bytesLE] at this
          omega
        · obtain rfl := List.mem_singleton.mp hop
          have := hword _ _ x hx
          omega
    have hcount : Flushes ([.store 8 (bytesLE (objectCount m + 1) 8)] ++ [.persist 0 64]) :=
      flushes_block fun op hop x hx => by
        obtain rfl := List.mem_singleton.mp hop
        have := hword _ _ x hx
        omega
    simpa [addOps] using hentry.append hcount
  refine hadd.append ?_
  rw [NewObject.argsOps]
  split
  · trivial
  · rename_i buffer _
    have hfree : Flushes ([.store 16 (bytesLE (freeOffset m + buffer.length) 8)] ++
        [.persist 0 64]) :=
      flushes_block fun op hop x hx => by
        obtain rfl := List.mem_singleton.mp hop
        have := hword _ _ x hx
        omega
    have harea : Flushes (byteStores (freeOffset m) buffer ++
        [.persist (freeOffset m) buffer.length]) := flushes_block touches_byteStores
    have hoffset : Flushes ([.store (entryOffset (objectCount m) + 24) (bytesLE (freeOffset m) 8)] ++
        [.persist (entryOffset (objectCount m)) 32]) :=
      flushes_block fun op hop x hx => by
        obtain rfl := List.mem_singleton.mp hop
        have := hword _ _ x hx
        omega
    simpa [Pronto.argsOps] using (hfree.append harea).append hoffset

end Ops

/-- The entry that `add` makes for the object. -/
def NewObject.entry (o : NewObject) (m : Mem) (t : CatalogTable) : CatalogEntry :=
  ⟨o.uuid, o.type, load m (entryOffset t.entries.length + 24) 8⟩

/-- The table behind the complete call. -/
def NewObject.table (o : NewObject) (m : Mem) (t : CatalogTable) : CatalogTable :=
  match o.args with
  | none => t.add (o.entry m t)
  | some buffer => (t.add (o.entry m t)).addArgs t.entries.length (freeOffset m) buffer

/-- **A whole call extends the table**, as seen by the program. -/
theorem TableOk.create {m : Mem} {t : CatalogTable} {o : NewObject} (h : TableOk m t)
    (hroom : t.entries.length < maxPersistentObjects)
    (hfits : freeOffset m + o.argsSize ≤ catalogFileSize) :
    TableOk (runOps m (createOps m o)) (o.table m t) := by
  have hadd := h.add o.uuid o.type hroom
  rw [createOps, runOps_append, NewObject.argsOps, NewObject.table]
  rcases hargs : o.args with _ | buffer
  · rw [runOps_nil]
    exact hadd
  · rw [NewObject.argsSize, hargs, Option.getD_some] at hfits
    have hfree : freeOffset (runOps m (addOps m o.uuid o.type)) = freeOffset m := freeOffset_addOps
    have hlast : t.entries.length < (t.add (o.entry m t)).entries.length := by
      rw [length_add]
      exact Nat.lt_succ_self _
    have hnew := hadd.addArgs hlast (by rw [hfree]; exact hfits)
    dsimp only
    rw [← argsOps_addOps m o.uuid o.type, h.count, NewObject.entry, ← hfree]
    exact hnew

/-! ## A call under way -/

/-- A call of `createNew` on a catalog with the table `t`, of which the instructions `pre` are executed
and `post` are left. -/
structure Underway (m : PMem) (t : CatalogTable) (o : NewObject) (pre post : List Op) (pm : PMem) :
    Prop where
  clean : m.durable = m.view
  table : TableOk m.view t
  room : t.entries.length < maxPersistentObjects
  fits : freeOffset m.view + o.argsSize ≤ catalogFileSize
  ops : createOps m.view o = pre ++ post
  executes : Executes m pre pm

namespace Underway

variable {m pm : PMem} {t : CatalogTable} {o : NewObject} {pre post : List Op} {x : ℕ}

/-- Where the instructions do not store, the durable bytes are the old ones. -/
theorem durable_of_not_touches (h : Underway m t o pre post pm)
    (hx : ∀ op ∈ createOps m.view o, ¬ op.Touches x) : pm.durable x = m.view x := by
  refine h.executes.durable_of_untouched (fun op hop => hx op ?_) (congrFun h.clean x)
  rw [h.ops]
  exact List.mem_append_left _ hop

/-- Either the object has not been counted yet, or its entry is durable. -/
theorem cases (h : Underway m t o pre post pm) :
    (∃ rest, entryOps m.view o = pre ++ rest) ∨
      ∃ rest, pre = entryOps m.view o ++ countOp m.view :: rest ∧
        rest ++ post = .persist 0 64 :: o.argsOps m.view := by
  have hops := h.ops
  rw [createOps_eq] at hops
  rcases List.append_eq_append_iff.mp hops with ⟨rest, hpre, hrest⟩ | ⟨rest, hpre, hrest⟩
  · rcases rest with _ | ⟨op, rest⟩
    · exact .inl ⟨[], by simpa using hpre.symm⟩
    · obtain ⟨rfl, htail⟩ := List.cons.inj hrest
      exact .inr ⟨rest, hpre, htail.symm⟩
  · exact .inl ⟨rest, hpre⟩

theorem free_ge (h : Underway m t o pre post pm) : 32 ≤ freeOffset m.view :=
  le_trans (by decide) h.table.free.1

/-- The instructions behind the count do not store to it. -/
theorem spares_of_rest (h : Underway m t o pre post pm) {rest : List Op}
    (hrest : rest ++ post = .persist 0 64 :: o.argsOps m.view) : ∀ op ∈ rest, op.Spares 8 := by
  intro op hop
  have hmem : op ∈ Op.persist 0 64 :: o.argsOps m.view := by
    rw [← hrest]
    exact List.mem_append_left _ hop
  rcases List.mem_cons.mp hmem with rfl | hmem
  · exact .inr (.inr (by decide))
  · exact argsOps_spares (.inl le_rfl) h.free_ge op hmem

/-- The object is not counted while its entry is stored. -/
theorem count_of_entryOps (h : Underway m t o pre post pm) {rest : List Op}
    (hops : entryOps m.view o = pre ++ rest) : objectCount pm.durable = t.entries.length := by
  have hclean : load m.durable 8 8 = load m.view 8 8 := by rw [h.clean]
  have hspares : ∀ op ∈ pre, op.Spares 8 := fun op hop =>
    entryOps_spares (by decide) op (by rw [hops]; exact List.mem_append_left _ hop)
  rcases h.executes.word (by decide) hspares with heq | heq
  · exact heq.trans h.table.count
  · exact (heq.trans hclean).trans h.table.count

theorem count_lt (h : Underway m t o pre post pm) : objectCount m.view + 1 < 2 ^ 64 := by
  have hroom := h.room
  rw [h.table.count]
  dsimp only [maxPersistentObjects, catalogHeaderSize] at hroom
  omega

/-- The object is counted or not. -/
theorem count (h : Underway m t o pre post pm) :
    objectCount pm.durable = t.entries.length ∨ objectCount pm.durable = t.entries.length + 1 := by
  rcases h.cases with ⟨rest, hops⟩ | ⟨rest, rfl, hrest⟩
  · exact .inl (h.count_of_entryOps hops)
  · have hclean : load m.durable 8 8 = load m.view 8 8 := by rw [h.clean]
    rcases h.executes.word_of_store (by decide) (entryOps_spares (by decide))
      (h.spares_of_rest hrest) hclean h.count_lt with heq | heq
    · exact .inr (heq.trans (by rw [h.table.count]))
    · exact .inl (heq.trans h.table.count)

/-- The object is counted once `add` has persisted the header. -/
theorem count_of_persist {rest : List Op}
    (h : Underway m t o (entryOps m.view o ++ countOp m.view :: .persist 0 64 :: rest) post pm)
    (hrest : ∀ op ∈ rest, op.Spares 8) : objectCount pm.durable = t.entries.length + 1 := by
  have hlt := h.count_lt
  have hdurable : objectCount pm.durable = objectCount pm.view := by
    have hexec := h.executes
    rw [show entryOps m.view o ++ countOp m.view :: .persist 0 64 :: rest =
      (entryOps m.view o ++ [countOp m.view]) ++ .persist 0 64 :: rest by simp] at hexec
    exact load_congr fun x hlo hhi => hexec.durable_of_persist (by omega) (by omega)
      fun op hop => (hrest op hop).not_touches hlo hhi
  have hview : objectCount pm.view = objectCount m.view + 1 := by
    rw [h.executes.view_eq, runOps_append, runOps_cons, runOps_cons, objectCount,
      load_congr fun x hlo hhi => runOps_of_not_touches fun op hop =>
        (hrest op hop).not_touches hlo hhi]
    exact load_store_word (by omega)
  rw [hdurable, hview, h.table.count]

section

variable (h : Underway m t o pre post pm)
include h

/-- As long as the object is not counted, only its entry and the count are stored to. -/
theorem durable_of_not_counted
    (hcount : objectCount pm.durable = t.entries.length) (hx : x < 8 ∨ 16 ≤ x)
    (hentry : x < entryOffset t.entries.length ∨ entryOffset t.entries.length + 24 ≤ x) :
    pm.durable x = m.view x := by
  have hold := h.table.count
  have hclean := congrFun h.clean x
  have hexec := h.executes
  rw [← hold] at hentry
  have hentryOps : ∀ op ∈ entryOps m.view o, ¬ op.Touches x := entryOps_not_touches hentry
  rcases h.cases with ⟨rest, hops⟩ | ⟨rest, rfl, hrest⟩
  · refine hexec.durable_of_untouched (fun op hop => hentryOps op ?_) hclean
    rw [hops]
    exact List.mem_append_left _ hop
  · have hspares := h.spares_of_rest hrest
    rcases rest with _ | ⟨op, rest⟩
    · refine hexec.durable_of_untouched (fun op hop => ?_) hclean
      rcases List.mem_append.mp hop with hop | hop
      · exact hentryOps op hop
      · obtain rfl := List.mem_singleton.mp hop
        simp only [countOp, Op.Touches, length_bytesLE]
        omega
    · -- the count has been persisted
      obtain ⟨rfl, -⟩ := List.cons.inj hrest
      have := h.count_of_persist fun op hop => hspares op (List.mem_cons_of_mem _ hop)
      omega

theorem entry_end :
    entryOffset t.entries.length + 32 ≤ catalogHeaderSize :=
  entryOffset_le (show t.entries.length + 1 ≤ _ from h.room)

/-- Before the object is counted the durable catalog is the old one. -/
theorem tableOk_of_not_counted
    (hcount : objectCount pm.durable = t.entries.length) : TableOk pm.durable t := by
  have hfree := h.table.free
  have hend := h.entry_end
  have hlo : 32 ≤ entryOffset t.entries.length := Nat.le_add_right 32 _
  have heq : freeOffset pm.durable = freeOffset m.view :=
    load_congr fun x _ _ => h.durable_of_not_counted hcount (by omega) (by omega)
  refine h.table.congr (hcount.trans h.table.count.symm) ⟨heq.ge, heq.le.trans hfree.2⟩
    (fun x h1 h2 => h.durable_of_not_counted hcount (by omega) (.inl h2))
    fun x h1 h2 => h.durable_of_not_counted hcount (by omega) (.inr (by omega))

/-- The first free byte has moved on or not. -/
theorem free_word :
    freeOffset m.view ≤ freeOffset pm.durable ∧ freeOffset pm.durable ≤ catalogFileSize := by
  have hold : WordHolds m 16 fun v => freeOffset m.view ≤ v ∧ v ≤ catalogFileSize := by
    rw [WordHolds, h.clean]
    exact ⟨⟨le_rfl, h.table.free.2⟩, le_rfl, h.table.free.2⟩
  refine (h.executes.wordHolds (by decide) hold fun op hop =>
    createOps_respects_free h.free_ge h.fits op ?_).2
  rw [h.ops]
  exact List.mem_append_left _ hop

/-- Once the object is counted, its identifier and type are durable. -/
theorem durable_entry
    (hcount : objectCount pm.durable = t.entries.length + 1)
    (hlo : entryOffset t.entries.length ≤ x) (hhi : x < entryOffset t.entries.length + 24) :
    pm.durable x = runOps m.view (addOps m.view o.uuid o.type) x := by
  have hfree := h.table.free.1
  have hend := h.entry_end
  have hstart : 32 ≤ entryOffset t.entries.length := Nat.le_add_right 32 _
  rw [← h.table.count] at hlo hhi hend hstart
  rcases h.cases with ⟨rest, hops⟩ | ⟨rest, rfl, hrest⟩
  · have := h.count_of_entryOps hops
    omega
  have hcountOp : ¬ (countOp m.view).Touches x := by
    simp only [countOp, Op.Touches, length_bytesLE]
    omega
  have hpost : ∀ op ∈ rest, ¬ op.Touches x := by
    intro op hop
    have hmem : op ∈ Op.persist 0 64 :: o.argsOps m.view := hrest ▸ List.mem_append_left _ hop
    rcases List.mem_cons.mp hmem with rfl | hmem
    · exact id
    · exact argsOps_not_touches (by omega) (by omega) (by omega) op hmem
  have hview : pm.view x = runOps m.view (addOps m.view o.uuid o.type) x := by
    rw [h.executes.view_eq, runOps_append, runOps_cons, runOps_of_not_touches hpost,
      view_of_not_touches hcountOp, show addOps m.view o.uuid o.type =
        entryOps m.view o ++ [countOp m.view, .persist 0 64] by simp [addOps, entryOps, countOp],
      runOps_append]
    exact (runOps_of_not_touches fun op hop => by
      rcases List.mem_cons.mp hop with rfl | hop
      · exact hcountOp
      · obtain rfl := List.mem_singleton.mp hop
        exact id).symm
  -- the entry was persisted before the count was stored, and nothing has been stored to it since
  have hexec := h.executes
  rw [entryOps, List.append_assoc, List.cons_append, List.cons_append, List.nil_append,
    ← List.singleton_append, ← List.append_assoc] at hexec
  rw [← hview]
  refine hexec.durable_of_persist (by omega) (by omega) fun op hop => ?_
  rcases List.mem_cons.mp hop with rfl | hop
  · exact hcountOp
  · exact hpost op hop

/-- Once the object is counted, its identifier and type are durable. The offset of the arguments
need not be, and neither need the arguments. -/
theorem catalogEntry_of_counted
    (hcount : objectCount pm.durable = t.entries.length + 1) :
    catalogEntry pm.durable t.entries.length = ⟨o.uuid, o.type,
      load pm.durable (entryOffset t.entries.length + 24) 8⟩ := by
  have hentry : catalogEntry (runOps m.view (addOps m.view o.uuid o.type)) t.entries.length = _ :=
    h.table.count ▸ catalogEntry_addOps
  have huuid := congrArg CatalogEntry.uuid hentry
  have htype := congrArg CatalogEntry.type hentry
  simp only [catalogEntry] at huuid htype
  rw [catalogEntry, CatalogEntry.mk.injEq]
  refine ⟨(congrArg _ (load_congr fun x h1 h2 => ?_)).trans huuid,
    (congrArg _ (load_congr fun x h1 h2 => ?_)).trans htype, rfl⟩
  · exact h.durable_entry hcount h1 (by omega)
  · exact h.durable_entry hcount (by omega) (by omega)

/-- Once the object is counted, the durable catalog lists it, with whatever its field for the arguments
holds. -/
theorem tableOk_of_counted
    (hcount : objectCount pm.durable = t.entries.length + 1) :
    TableOk pm.durable (t.add ⟨o.uuid, o.type,
      load pm.durable (entryOffset t.entries.length + 24) 8⟩) := by
  have hfree := h.table.free.1
  have hend := h.entry_end
  have hold : ∀ x, 24 ≤ x → (x < entryOffset t.entries.length ∨
      entryOffset t.entries.length + 32 ≤ x) → x < freeOffset m.view → pm.durable x = m.view x :=
    fun x h24 hentry harea => h.durable_of_not_touches
      (createOps_not_touches (.inr h24) (by rwa [h.table.count]) (.inl harea))
  refine ⟨hcount.trans (length_add ..).symm, fun i e he => ?_, fun p hp => ?_,
    ⟨hfree.trans h.free_word.1, h.free_word.2⟩, (length_add ..).trans_le h.room⟩
  · by_cases hi : i < t.entries.length
    · rw [CatalogTable.add, List.getElem?_append_left hi] at he
      rw [← h.table.entry i e he]
      refine catalogEntry_congr fun x hx1 hx2 => ?_
      unfold entryOffset at *
      exact hold x (by omega) (.inl (by omega)) (by omega)
    · obtain rfl : i = t.entries.length := by
        have := (List.getElem?_eq_some_iff.mp he).1
        rw [length_add] at this
        omega
      rw [CatalogTable.add, List.getElem?_concat_length] at he
      rw [← Option.some.inj he]
      exact h.catalogEntry_of_counted hcount
  · obtain ⟨hbytes, hlo, hhi⟩ := h.table.area p hp
    refine ⟨?_, hlo, hhi.trans h.free_word.1⟩
    rw [bytes_congr fun x h1 h2 => hold x ?_ (.inr ?_) ?_]
    · exact hbytes
    · exact le_trans (by decide) (hlo.trans h1)
    · omega
    · omega

/-- An object without arguments is complete once it is counted. -/
theorem tableOk_of_no_args (hargs : o.args = none)
    (hcount : objectCount pm.durable = t.entries.length + 1) :
    TableOk pm.durable (o.table m.view t) := by
  have hfield : load pm.durable (entryOffset t.entries.length + 24) 8 =
      load m.view (entryOffset t.entries.length + 24) 8 := by
    refine load_congr fun x h1 h2 => h.durable_of_not_touches fun op hop => ?_
    rw [← h.table.count] at h1
    rw [createOps_eq, NewObject.argsOps, hargs] at hop
    simp only [List.mem_append, List.mem_cons, List.not_mem_nil, or_false] at hop
    rcases hop with hop | rfl | rfl
    · exact entryOps_not_touches (.inr h1) op hop
    · have hstart : 32 ≤ entryOffset (objectCount m.view) := Nat.le_add_right 32 _
      simp only [countOp, Op.Touches, length_bytesLE]
      omega
    · exact id
  have hnew := h.tableOk_of_counted hcount
  rw [hfield] at hnew
  rw [NewObject.table, hargs]
  exact hnew

end

/-- One more instruction is executed. -/
theorem step {op : Op} (h : Underway m t o pre (op :: post) pm) :
    Underway m t o (pre ++ [op]) post (op.apply pm) where
  clean := h.clean
  table := h.table
  room := h.room
  fits := h.fits
  ops := by rw [h.ops, List.append_assoc, List.singleton_append]
  executes := h.executes.op op

theorem evict (h : Underway m t o pre post pm) (line : ℕ) :
    Underway m t o pre post (pm.evict line) where
  clean := h.clean
  table := h.table
  room := h.room
  fits := h.fits
  ops := h.ops
  executes := h.executes.evict line

/-- At the end of the call everything is durable. -/
theorem complete (h : Underway m t o pre [] pm) :
    pm.durable = pm.view ∧ TableOk pm.view (o.table m.view t) := by
  have hexec := h.executes
  have hops := h.ops
  rw [List.append_nil] at hops
  rw [← hops] at hexec
  refine ⟨hexec.durable_eq_view (createOps_flushes m.view o) h.clean, ?_⟩
  rw [hexec.view_eq]
  exact h.table.create h.room h.fits

end Underway

/-! ## Runs -/

/-- The table lists the objects with their arguments. -/
structure Matches (t : CatalogTable) (created : List NewObject) : Prop where
  length : t.entries.length = created.length
  entry : ∀ (i : ℕ) (e : CatalogEntry) (o : NewObject), t.entries[i]? = some e →
    created[i]? = some o → e.uuid = o.uuid ∧ e.type = o.type ∧
      ∀ buffer, o.args = some buffer → (e.argsOffset, buffer) ∈ t.areas

section Runs

variable {m : Mem} {t : CatalogTable} {o : NewObject} {created rest : List NewObject}
  {s s' : CreationState} {a : CreationAction}

/-- The new object is the last one of the table, with its arguments if it has any. -/
theorem Matches.create (h : Matches t created) (m : Mem) (o : NewObject) :
    Matches (o.table m t) (created ++ [o]) := by
  have hlen := h.length
  rw [NewObject.table]
  rcases hargs : o.args with _ | buffer
  · refine ⟨by simp [CatalogTable.add, hlen], fun i e o' he ho => ?_⟩
    simp only [CatalogTable.add] at he ⊢
    rcases lt_trichotomy i t.entries.length with hi | hi | hi
    · rw [List.getElem?_append_left hi] at he
      rw [List.getElem?_append_left (hlen ▸ hi)] at ho
      exact h.entry i e o' he ho
    · rw [hi, List.getElem?_concat_length] at he
      rw [hi, hlen, List.getElem?_concat_length] at ho
      cases he
      cases ho
      exact ⟨rfl, rfl, fun buffer hb => absurd hb (by simp [hargs])⟩
    · rw [List.getElem?_eq_none (by simp; omega)] at he
      cases he
  · refine ⟨by simp [CatalogTable.add, CatalogTable.addArgs, hlen], fun i e o' he ho => ?_⟩
    simp only [CatalogTable.add, CatalogTable.addArgs, List.getElem?_modify] at he ⊢
    obtain ⟨e₀, he₀, rfl⟩ := Option.map_eq_some_iff.mp he
    rcases lt_trichotomy i t.entries.length with hi | hi | hi
    · rw [List.getElem?_append_left hi] at he₀
      rw [List.getElem?_append_left (hlen ▸ hi)] at ho
      obtain ⟨h1, h2, h3⟩ := h.entry i e₀ o' he₀ ho
      rw [if_neg (by omega)]
      exact ⟨h1, h2, fun buffer hb => List.mem_append_left _ (h3 buffer hb)⟩
    · rw [hi, List.getElem?_concat_length] at he₀
      rw [hi, hlen, List.getElem?_concat_length] at ho
      cases he₀
      cases ho
      rw [if_pos hi.symm]
      refine ⟨rfl, rfl, fun buffer' hb => ?_⟩
      rw [hargs] at hb
      cases hb
      simp
    · rw [List.getElem?_eq_none (by simp; omega)] at he₀
      cases he₀

/-- A file that holds the table lists the objects. -/
theorem TableOk.listsPrefix (h : TableOk m t) (hmatch : Matches t created) :
    ListsPrefix m (created ++ rest) := by
  have hcount : objectCount m = created.length := h.count.trans hmatch.length
  refine ⟨by simp [hcount], fun i o hi ho => ?_⟩
  rw [List.getElem?_append_left (hcount ▸ hi)] at ho
  obtain ⟨e, he⟩ : ∃ e, t.entries[i]? = some e := ⟨_, List.getElem?_eq_getElem (h.count ▸ hi)⟩
  rw [h.entry i e he]
  obtain ⟨huuid, htype, hargs⟩ := hmatch.entry i e o he ho
  exact ⟨huuid, htype, fun buffer hb => (h.area _ (hargs buffer hb)).1⟩

/-- Between two calls the file is durable and lists the objects; during a call the machine is on its way
through the instructions. -/
def CreationInv (s : CreationState) : Prop :=
  (s.pending = [] ∧ s.pm.durable = s.pm.view ∧ ∃ t, TableOk s.pm.view t ∧ Matches t s.created) ∨
    ∃ m t before o pre, Underway m t o pre s.pending s.pm ∧ s.pending ≠ [] ∧
      s.created = before ++ [o] ∧ Matches t before

/-- The durable file of a state in which no object is half listed. -/
theorem CreationInv.durable (h : CreationInv s) (hnone : s.NoneHalfListed) :
    ∃ t, TableOk s.pm.durable t ∧
      Matches t (s.created.take (objectCount s.pm.durable)) := by
  rcases h with ⟨-, hclean, t, ht, hmatch⟩ | ⟨m, t, before, o, pre, hcall, hpending, hcreated, hmatch⟩
  · refine ⟨t, by rwa [hclean], ?_⟩
    rwa [hclean, ht.count, hmatch.length, List.take_length]
  · rcases hcall.count with hcount | hcount
    · refine ⟨t, hcall.tableOk_of_not_counted hcount, ?_⟩
      rw [hcount, hmatch.length, hcreated, List.take_left]
      exact hmatch
    · have hargs : o.args = none := by
        by_contra hsome
        refine hnone hpending o (by simp [hcreated]) (Option.isSome_iff_ne_none.mpr hsome) ?_
        rw [hcount, hmatch.length, hcreated, List.length_append, List.length_singleton]
      refine ⟨_, hcall.tableOk_of_no_args hargs hcount, ?_⟩
      rw [hcount, hmatch.length, hcreated, List.take_of_length_le (by simp)]
      exact hmatch.create m.view o

/-- **Every action keeps the invariant**: a crash falls back to a table that the file really
holds. -/
theorem creationStep_inv (h : CreationInv s) (hcareful : s.Careful a)
    (hstep : creationStep s a = some s') : CreationInv s' := by
  cases a with
  | create o =>
    rw [creationStep] at hstep
    split at hstep
    case isFalse => cases hstep
    case isTrue hidle =>
    obtain ⟨hpending, -, hfits⟩ := hidle
    cases hstep
    rcases h with ⟨-, hclean, t, ht, hmatch⟩ | ⟨_, _, _, _, _, _, hne, _⟩
    · refine .inr ⟨s.pm, t, s.created, o, [], ⟨hclean, ht, ?_, hfits, rfl, .refl⟩, ?_, rfl, hmatch⟩
      · rw [hmatch.length]
        exact hcareful
      · simp [createOps_eq]
    · exact absurd hpending hne
  | step =>
    rcases hpending : s.pending with _ | ⟨op, post⟩
    · simp [creationStep, hpending] at hstep
    · obtain rfl : (⟨op.apply s.pm, s.created, post⟩ : CreationState) = s' := by
        simpa [creationStep, hpending] using hstep
      rcases h with ⟨hnil, _⟩ | ⟨m, t, before, o, pre, hcall, -, hcreated, hmatch⟩
      · rw [hpending] at hnil
        cases hnil
      · rw [hpending] at hcall
        have hnext := hcall.step
        rcases post with _ | ⟨op', post⟩
        · obtain ⟨hclean, ht⟩ := hnext.complete
          refine .inl ⟨rfl, hclean, _, ht, ?_⟩
          dsimp only
          rw [hcreated]
          exact hmatch.create m.view o
        · exact .inr ⟨m, t, before, o, _, hnext, List.cons_ne_nil _ _, hcreated, hmatch⟩
  | evict line =>
    cases hstep
    rcases h with ⟨hnil, hclean, t, ht, hmatch⟩ | ⟨m, t, before, o, pre, hcall, hne, hcreated, hmatch⟩
    · refine .inl ⟨hnil, ?_, t, ht, hmatch⟩
      funext x
      rcases evict_durable s.pm line x with heq | heq
      · exact heq
      · exact heq.trans (congrFun hclean x)
    · exact .inr ⟨m, t, before, o, pre, hcall.evict line, hne, hcreated, hmatch⟩
  | crash =>
    cases hstep
    -- no object is half listed, so the durable file holds a table
    obtain ⟨t, ht, hmatch⟩ := h.durable hcareful
    refine .inl ⟨rfl, rfl, t, ht, ?_⟩
    dsimp only
    exact hmatch

theorem creationInv_new : CreationInv .new :=
  .inl ⟨rfl, rfl, ⟨[], []⟩, tableOk_newCatalog, ⟨rfl, fun i e o he => by simp at he⟩⟩

end Runs

/-- **The catalog lists a prefix of the created objects.** In every run in which the table does not
overflow and no crash finds an object half listed, whatever the cache lines written back, the durable
catalog of every state in which no object is half listed lists a prefix of the created objects, each with
its identifier and type, and with its arguments if it has any. -/
theorem catalog_lists_created {as : List CreationAction} {s : CreationState}
    (hcareful : Guarded creationStep CreationState.Careful .new as)
    (hrun : run creationStep .new as = some s) (hnone : s.NoneHalfListed) :
    ListsPrefix s.pm.durable s.created := by
  have hinv : CreationInv s :=
    hcareful.invariant (fun _ _ _ h hg hstep => creationStep_inv h hg hstep) creationInv_new hrun
  obtain ⟨t, ht, hmatch⟩ := hinv.durable hnone
  have hlists : ListsPrefix s.pm.durable (s.created.take (objectCount s.pm.durable) ++
      s.created.drop (objectCount s.pm.durable)) := ht.listsPrefix hmatch
  rwa [List.take_append_drop] at hlists

/-- Two objects; a crash comes before the second one is counted, although its entry was written back. -/
theorem two_objects_listed :
    ∃ s, run creationStep .new ([.create ⟨1, 2, some [7, 8]⟩] ++ List.replicate 27 .step ++
        [.create ⟨3, 4, some [9]⟩] ++ List.replicate 18 .step ++ [.evict 0, .evict 1, .crash]) =
          some s ∧
      s.created = [⟨1, 2, some [7, 8]⟩] ∧ ListsPrefix s.pm.durable s.created := by
  have hany : (run creationStep .new ([.create ⟨1, 2, some [7, 8]⟩] ++ List.replicate 27 .step ++
      [.create ⟨3, 4, some [9]⟩] ++ List.replicate 18 .step ++ [.evict 0, .evict 1, .crash])).any
        (fun s => s.created == [⟨1, 2, some [7, 8]⟩] && s.pending == []) = true := by
    decide +kernel
  obtain ⟨s, hrun, h⟩ := run_of_any hany
  simp only [Bool.and_eq_true, beq_iff_eq] at h
  refine ⟨s, hrun, h.1, catalog_lists_created (guarded_of_decide ?_) hrun fun hne => absurd h.2 hne⟩
  decide +kernel

/-- A crash right after `add`: the object is listed, but its arguments are not there, and the field for
their offset is zero. -/
theorem listed_without_args :
    ∃ s, run creationStep .new
        ([.create ⟨1, 2, some [7]⟩] ++ List.replicate 20 .step ++ [.crash]) = some s ∧
      s.created = [⟨1, 2, some [7]⟩] ∧ ¬ ListsPrefix s.pm.durable s.created := by
  have hany : (run creationStep .new
      ([.create ⟨1, 2, some [7]⟩] ++ List.replicate 20 .step ++ [.crash])).any
        (fun s => s.created == [⟨1, 2, some [7]⟩] && objectCount s.pm.durable == 1 &&
          bytes s.pm.durable (catalogEntry s.pm.durable 0).argsOffset 1 == [0]) = true := by
    decide +kernel
  obtain ⟨s, hrun, h⟩ := run_of_any hany
  simp only [Bool.and_eq_true, beq_iff_eq] at h
  obtain ⟨⟨hcreated, hcount⟩, hbytes⟩ := h
  refine ⟨s, hrun, hcreated, fun hlists => ?_⟩
  have hargs := (hlists.2 0 ⟨1, 2, some [7]⟩ (by omega) (by simp [hcreated])).2.2 [7] rfl
  rw [List.length_singleton, hbytes] at hargs
  cases hargs

end Pronto
