import Mathlib.Algebra.Ring.Nat
import Mathlib.Data.List.Sort
import Pronto.Lib.Runs

/-!
# Snapshots over sessions

`Snapshot::create` makes its file visible under its final name before it has written anything, and
fills it in many steps. A crash in between leaves the file as it is. The next start of `NVManager`
looks at the names in the directory only and loads the file with the highest number.

`start_loads_newest_completed_iff`: a start loads the newest snapshot that was completed, or none if
there is none, if and only if the create that made the last file ran to completion (with an empty
catalog, if and only if no snapshot was completed). `torn_snapshot_is_loaded` is a crash right after
the file was created.
-/

namespace Pronto

open Runs

/-- How far the create of a file has come. -/
inductive CreateStage
  /-- `open` with `O_CREAT | O_EXCL` has returned. -/
  | opened
  /-- `prepareSnapshot` has written the header. -/
  | prepared
  | extended
  /-- New transactions are blocked and no transaction is running. -/
  | frozen
  | tablesSaved
  | pagesMarked
  /-- The asynchronous copy: so many blocks are saved. -/
  | copying (saved : ℕ)
  /-- The workers and the fault handlers have returned. -/
  | pagesSaved
  /-- The header has its time stamp. -/
  | stamped
  /-- `create` has returned. -/
  | completed
deriving DecidableEq, Repr

/-- A file `snapshot.<id>`. -/
structure SnapshotFile where
  id : ℕ
  stage : CreateStage
deriving DecidableEq, Repr

/-- The number of objects in the catalog, the snapshot files in the order in which they were created,
whether the process is up, and the number of blocks to copy while a create is in progress. -/
structure SessionState where
  catalog : ℕ
  files : List SnapshotFile
  up : Bool
  creating : Option ℕ
deriving DecidableEq, Repr

namespace SessionState

/-- `std::stoi`, which throws when the number is not an `int`. -/
def stoi (n : ℕ) : Option ℕ := if n < 2 ^ 31 then some n else none

/-- `Snapshot::getExistingSnapshots`. -/
def getExistingSnapshots (s : SessionState) : Option (List ℕ) := do
  let snapshots ← s.files.mapM fun f => stoi f.id
  some (snapshots.insertionSort (· ≤ ·))

/-- `Snapshot::lastSnapshotID`. -/
def lastSnapshotID (s : SessionState) : Option ℕ := do
  let snapshots ← s.getExistingSnapshots
  some (snapshots.getLast?.getD 0)

/-- What the constructor of `NVManager` restores from: `none` when it throws, else the number of the
snapshot it loads, if any. -/
def startRestore (s : SessionState) : Option (Option ℕ) :=
  if s.catalog = 0 then some none
  else do
    let last ← s.lastSnapshotID
    some (if last > 0 then some last else none)

/-- The newest snapshot whose create ran to completion. -/
def newestCompleted (s : SessionState) : Option ℕ :=
  ((s.files.filter fun f => f.stage = .completed).map SnapshotFile.id).max?

/-- Replace the stage of the file that is being created. -/
def setStage (s : SessionState) (stage : CreateStage) : SessionState :=
  { s with files := s.files.modify (s.files.length - 1) fun f => { f with stage := stage } }

end SessionState

/-- The steps of a session. -/
inductive SessionAction
  | addObject
  /-- `create` is called, and its file is opened. -/
  | openFile (blocks : ℕ)
  /-- The next step of the create in progress. -/
  | proceed
  | crash
  /-- The process ends outside `create`. -/
  | stop
  | start
deriving DecidableEq, Repr

/-- One step; `none` when it is not enabled. The manager's lock keeps object creation and a second
create out while a create is in progress. -/
def sessionStep (s : SessionState) : SessionAction → Option SessionState
  | .addObject =>
    if s.up ∧ s.creating = none then some { s with catalog := s.catalog + 1 } else none
  | .openFile blocks =>
    if s.up ∧ s.creating = none then do
      let last ← s.lastSnapshotID
      some { s with files := s.files ++ [⟨last + 1, .opened⟩], creating := some blocks }
    else none
  | .proceed =>
    match s.creating, s.files.getLast? with
    | some blocks, some f =>
      match f.stage with
      -- the identifier in the header is read from the directory again
      | .opened => s.lastSnapshotID.bind fun _ => some (s.setStage .prepared)
      | .prepared => some (s.setStage .extended)
      | .extended => some (s.setStage .frozen)
      | .frozen => some (s.setStage .tablesSaved)
      | .tablesSaved => some (s.setStage .pagesMarked)
      | .pagesMarked => some (s.setStage (.copying 0))
      | .copying saved =>
        if saved < blocks then some (s.setStage (.copying (saved + 1)))
        else some (s.setStage .pagesSaved)
      | .pagesSaved => some (s.setStage .stamped)
      | .stamped => some { s.setStage .completed with creating := none }
      | .completed => none
    | _, _ => none
  | .crash => if s.up then some { s with up := false, creating := none } else none
  | .stop =>
    if s.up ∧ s.creating = none then some { s with up := false } else none
  | .start =>
    if ¬ s.up then s.startRestore.bind fun _ => some { s with up := true } else none

/-- A new directory. -/
def SessionState.empty : SessionState := ⟨0, [], false, none⟩

/-! ## The directory -/

/-- Every new file has a higher number than the files before it, and only files whose numbers can be
read are completed. -/
structure SessionState.Inv (s : SessionState) : Prop where
  sorted : s.files.Pairwise fun f g => f.id < g.id
  pos : ∀ f ∈ s.files, 0 < f.id
  readable : ∀ f ∈ s.files, f.stage ≠ .opened → ∀ g ∈ s.files, g.id ≤ f.id → g.id < 2 ^ 31

namespace SessionState

variable {s s' : SessionState}

theorem mapM_stoi {fs : List SnapshotFile} (h : ∀ f ∈ fs, f.id < 2 ^ 31) :
    (fs.mapM fun f => stoi f.id) = some (fs.map SnapshotFile.id) := by
  induction fs with
  | nil => rfl
  | cons f fs ih =>
    have hf : stoi f.id = some f.id := if_pos (h f (by simp))
    rw [List.mapM_cons, hf, ih fun g hg => h g (by simp [hg])]
    rfl

/-- If all names can be read, all numbers are small enough. -/
theorem readable_of_mapM {fs : List SnapshotFile} {ids : List ℕ}
    (h : (fs.mapM fun f => stoi f.id) = some ids) : ∀ f ∈ fs, f.id < 2 ^ 31 := by
  induction fs generalizing ids with
  | nil => simp
  | cons f fs ih =>
    rw [List.mapM_cons] at h
    obtain ⟨n, hn, h⟩ := Option.bind_eq_some_iff.mp h
    obtain ⟨ns, hns, -⟩ := Option.bind_eq_some_iff.mp h
    have hf : f.id < 2 ^ 31 := by
      by_contra hge
      rw [stoi, if_neg hge] at hn
      cases hn
    exact List.forall_mem_cons.mpr ⟨hf, ih hns⟩

/-- Numbers that can be read. -/
theorem readable_of_lastSnapshotID {n : ℕ} (h : s.lastSnapshotID = some n) :
    ∀ f ∈ s.files, f.id < 2 ^ 31 := by
  obtain ⟨ids, hids, -⟩ := Option.bind_eq_some_iff.mp h
  obtain ⟨ns, hns, -⟩ := Option.bind_eq_some_iff.mp hids
  exact readable_of_mapM hns

/-- The last file has the highest number. -/
theorem Inv.le_last (h : s.Inv) {l : List SnapshotFile} {f : SnapshotFile}
    (hfiles : s.files = l ++ [f]) : ∀ g ∈ s.files, g.id ≤ f.id := by
  have hsorted := h.sorted
  rw [hfiles] at hsorted ⊢
  obtain ⟨-, -, hlt⟩ := List.pairwise_append.mp hsorted
  intro g hg
  rcases List.mem_append.mp hg with hg | hg
  · exact le_of_lt (hlt g hg f (by simp))
  · rw [List.mem_singleton.mp hg]

/-- The last number is that of the newest file, or zero. -/
theorem Inv.lastSnapshotID_eq (h : s.Inv) (hread : ∀ f ∈ s.files, f.id < 2 ^ 31) :
    s.lastSnapshotID = some ((s.files.getLast?.map SnapshotFile.id).getD 0) := by
  have hsort : (s.files.map SnapshotFile.id).insertionSort (· ≤ ·) = s.files.map SnapshotFile.id :=
    List.Pairwise.insertionSort_eq (List.pairwise_map.mpr (h.sorted.imp fun hlt => le_of_lt hlt))
  simp only [lastSnapshotID, getExistingSnapshots, mapM_stoi hread, bind, Option.bind_some, hsort,
    List.getLast?_map]

/-! ## Steps -/

/-- A create that goes on changes the newest file only. -/
theorem Inv.setStage (h : s.Inv) {f : SnapshotFile} (hlast : s.files.getLast? = some f)
    {stage : CreateStage} (hread : ∀ g ∈ s.files, g.id < 2 ^ 31) : (s.setStage stage).Inv := by
  obtain ⟨l, hfiles⟩ := List.getLast?_eq_some_iff.mp hlast
  have hset : (s.setStage stage).files = l ++ [⟨f.id, stage⟩] := by
    simp only [SessionState.setStage, hfiles, List.length_append, List.length_singleton,
      Nat.add_sub_cancel]
    rw [List.modify_eq_take_cons_drop (by simp)]
    simp
  have hids : (s.setStage stage).files.map SnapshotFile.id = s.files.map SnapshotFile.id := by
    rw [hset, hfiles]
    simp
  have hmem : ∀ g ∈ (s.setStage stage).files, ∃ g' ∈ s.files, g'.id = g.id := fun g hg => by
    have := List.mem_map_of_mem (f := SnapshotFile.id) hg
    rw [hids] at this
    exact List.mem_map.mp this
  refine ⟨?_, fun g hg => ?_, fun _ _ _ g hg _ => ?_⟩
  · have := List.pairwise_map.mpr h.sorted
    rw [← hids] at this
    exact List.pairwise_map.mp this
  · obtain ⟨g', hg', heq⟩ := hmem g hg
    exact heq ▸ h.pos g' hg'
  · obtain ⟨g', hg', heq⟩ := hmem g hg
    exact heq ▸ hread g' hg'

/-- A new file gets a number above all others. -/
theorem Inv.openFile (h : s.Inv) {n blocks : ℕ} (hlast : s.lastSnapshotID = some n) :
    ({ s with files := s.files ++ [⟨n + 1, .opened⟩], creating := some blocks } : SessionState).Inv := by
  have hread := readable_of_lastSnapshotID hlast
  have hle : ∀ f ∈ s.files, f.id ≤ n := by
    rw [h.lastSnapshotID_eq hread] at hlast
    rcases List.eq_nil_or_concat s.files with hnil | ⟨l, f, hfiles⟩
    · simp [hnil]
    · rw [List.concat_eq_append] at hfiles
      rw [hfiles, List.getLast?_concat] at hlast
      cases hlast
      exact h.le_last hfiles
  refine ⟨?_, ?_, ?_⟩
  · refine List.pairwise_append.mpr ⟨h.sorted, List.pairwise_singleton _ _, fun f hf g hg => ?_⟩
    rw [List.mem_singleton.mp hg]
    exact Nat.lt_succ_of_le (hle f hf)
  · exact List.forall_mem_append.mpr ⟨h.pos, by simp⟩
  · intro f hf hstage g hg hgf
    rcases List.mem_append.mp hf with hf | hf
    · have := hread f hf
      omega
    · rw [List.mem_singleton.mp hf] at hstage
      exact absurd rfl hstage

/-- **Each step keeps the invariant.** -/
theorem Inv.step (h : s.Inv) {a : SessionAction} (hstep : sessionStep s a = some s') : s'.Inv := by
  cases a with
  | addObject =>
    obtain ⟨-, hstep⟩ := Option.ite_none_right_eq_some.mp hstep
    cases hstep
    exact ⟨h.sorted, h.pos, h.readable⟩
  | openFile blocks =>
    obtain ⟨-, hstep⟩ := Option.ite_none_right_eq_some.mp hstep
    obtain ⟨n, hn, hstep⟩ := Option.bind_eq_some_iff.mp hstep
    cases hstep
    exact h.openFile hn
  | proceed =>
    simp only [sessionStep] at hstep
    split at hstep
    · rename_i blocks f hblocks hlast
      -- behind the first step all numbers are known to be readable
      have hread : f.stage ≠ .opened → ∀ g ∈ s.files, g.id < 2 ^ 31 := fun hstage g hg => by
        obtain ⟨l, hfiles⟩ := List.getLast?_eq_some_iff.mp hlast
        exact h.readable f (by simp [hfiles]) hstage g hg (h.le_last hfiles g hg)
      split at hstep
      case h_1 =>
        obtain ⟨n, hn, hstep⟩ := Option.bind_eq_some_iff.mp hstep
        cases hstep
        exact h.setStage hlast (readable_of_lastSnapshotID hn)
      case h_7 hstage =>
        split at hstep <;> cases hstep <;> exact h.setStage hlast (hread (by simp [hstage]))
      case h_9 hstage =>
        cases hstep
        have hset : (s.setStage .completed).Inv := h.setStage hlast (hread (by simp [hstage]))
        exact ⟨hset.sorted, hset.pos, hset.readable⟩
      case h_10 => cases hstep
      all_goals
        rename_i hstage
        cases hstep
        exact h.setStage hlast (hread (by simp [hstage]))
    · cases hstep
  | crash =>
    obtain ⟨-, hstep⟩ := Option.ite_none_right_eq_some.mp hstep
    cases hstep
    exact ⟨h.sorted, h.pos, h.readable⟩
  | stop =>
    obtain ⟨-, hstep⟩ := Option.ite_none_right_eq_some.mp hstep
    cases hstep
    exact ⟨h.sorted, h.pos, h.readable⟩
  | start =>
    obtain ⟨-, hstep⟩ := Option.ite_none_right_eq_some.mp hstep
    obtain ⟨-, -, hstep⟩ := Option.bind_eq_some_iff.mp hstep
    cases hstep
    exact ⟨h.sorted, h.pos, h.readable⟩

/-! ## What a start loads -/

theorem newestCompleted_eq_some_iff {n : ℕ} :
    s.newestCompleted = some n ↔ (∃ f ∈ s.files, f.stage = .completed ∧ f.id = n) ∧
      ∀ f ∈ s.files, f.stage = .completed → f.id ≤ n := by
  simp only [newestCompleted, List.max?_eq_some_iff, List.mem_map, List.mem_filter,
    decide_eq_true_eq, and_assoc, forall_exists_index, and_imp]
  refine and_congr_right fun _ => ⟨fun h f hf hs => h f.id f hf hs rfl, fun h n f hf hs hn => ?_⟩
  exact hn ▸ h f hf hs

/-- With objects in the catalog, a start loads the newest completed snapshot if and only if the last
file is completed. -/
theorem Inv.startRestore_iff (h : s.Inv) (hcat : s.catalog ≠ 0) :
    s.startRestore = some s.newestCompleted ↔
      ∀ f, s.files.getLast? = some f → f.stage = .completed := by
  rw [startRestore, if_neg hcat]
  rcases List.eq_nil_or_concat s.files with hnil | ⟨l, f, hfiles⟩
  · have hlast : s.lastSnapshotID = some 0 := by
      rw [h.lastSnapshotID_eq (by simp [hnil]), hnil]
      rfl
    simp [hlast, newestCompleted, hnil]
  · rw [List.concat_eq_append] at hfiles
    have hmem : f ∈ s.files := by simp [hfiles]
    have hle := h.le_last hfiles
    have hpos := h.pos f hmem
    simp only [hfiles, List.getLast?_concat, Option.some.injEq, forall_eq']
    constructor
    · intro heq
      obtain ⟨n, hn, heq⟩ := Option.bind_eq_some_iff.mp heq
      have hlast := hn
      rw [h.lastSnapshotID_eq (readable_of_lastSnapshotID hn), hfiles, List.getLast?_concat] at hlast
      cases hlast
      rw [Option.map_some, Option.getD_some, if_pos hpos] at heq
      obtain ⟨⟨g, hg, hstage, hid⟩, -⟩ := newestCompleted_eq_some_iff.mp (Option.some.inj heq).symm
      -- the file with the number of the last one is the last one
      have hgf : g = f := by
        have hsorted := h.sorted
        rw [hfiles] at hsorted hg
        rcases List.mem_append.mp hg with hg | hg
        · have := (List.pairwise_append.mp hsorted).2.2 g hg f (by simp)
          omega
        · exact List.mem_singleton.mp hg
      exact hgf ▸ hstage
    · intro hstage
      have hread : ∀ g ∈ s.files, g.id < 2 ^ 31 := fun g hg =>
        h.readable f hmem (by simp [hstage]) g hg (hle g hg)
      have hnew : s.newestCompleted = some f.id :=
        newestCompleted_eq_some_iff.mpr ⟨⟨f, hmem, hstage, rfl⟩, fun g hg _ => hle g hg⟩
      simp only [h.lastSnapshotID_eq hread, hfiles, List.getLast?_concat, Option.map_some,
        Option.getD_some, bind, Option.bind_some, if_pos hpos, hnew]

end SessionState

/-- **A start loads the newest completed snapshot, or none if there is none, if and only if** the
create that made the last file ran to completion or, when the catalog is empty, there is no completed
snapshot. -/
theorem start_loads_newest_completed_iff {acts : List SessionAction} {s : SessionState}
    (hrun : run sessionStep .empty acts = some s) :
    s.startRestore = some s.newestCompleted ↔
      (s.catalog ≠ 0 ∧ ∀ f, s.files.getLast? = some f → f.stage = .completed) ∨
      (s.catalog = 0 ∧ s.newestCompleted = none) := by
  have h : s.Inv := run_invariant (I := SessionState.Inv) (fun _ _ _ hI hs => hI.step hs)
    ⟨List.Pairwise.nil, by simp [SessionState.empty], by simp [SessionState.empty]⟩ hrun
  by_cases hcat : s.catalog = 0
  · simp [SessionState.startRestore, hcat, eq_comm]
  · simp [h.startRestore_iff hcat, hcat]

/-- A create that copies one block, from its first to its last step. -/
def createActions : List SessionAction := .openFile 1 :: List.replicate 10 .proceed

/-- A snapshot is completed, and the process ends. -/
theorem start_loads_newest_completed_iff_completed :
    ∃ s, run sessionStep .empty ([.start, .addObject] ++ createActions ++ [.stop]) = some s ∧
      s.newestCompleted = some 1 ∧ s.startRestore = some s.newestCompleted := by
  obtain ⟨s, hrun, hcat, hnew, hstage⟩ :
      ∃ s, run sessionStep .empty ([.start, .addObject] ++ createActions ++ [.stop]) = some s ∧
        s.catalog ≠ 0 ∧ s.newestCompleted = some 1 ∧
        s.files.getLast? = some ⟨1, .completed⟩ := ⟨_, rfl, by decide, by decide, by decide⟩
  refine ⟨s, hrun, hnew, (start_loads_newest_completed_iff hrun).mpr (Or.inl ⟨hcat, fun f hf => ?_⟩)⟩
  rw [hstage] at hf
  cases hf
  rfl

/-- After a completed snapshot the next create is interrupted right behind `open`, and the next start
loads its file. -/
theorem torn_snapshot_is_loaded :
    ∃ s, run sessionStep .empty
        ([.start, .addObject] ++ createActions ++ [.openFile 1, .crash]) = some s ∧
      s.files = [⟨1, .completed⟩, ⟨2, .opened⟩] ∧ s.newestCompleted = some 1 ∧
      s.startRestore = some (some 2) :=
  ⟨_, rfl, by decide, by decide, by decide⟩

end Pronto
