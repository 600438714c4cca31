import Pronto.Catalog.Creation

/-!
# The flag of a clean shutdown

The destructor of `NVManager` (`nvm_manager.cpp`) sets `CatalogFlagCleanShutdown` in the catalog's header,
and the constructor skips `emulateRecoveryAndFixRedoLogs` when it finds the flag. This module runs whole
sessions, one after another over one catalog: construction, objects and transactions, and the destructor
or a crash between any two instructions.

The constructor clears the flag only when the catalog lists objects. A session that starts over an empty
catalog with the flag set therefore keeps it, and when such a session creates objects and crashes, the
next one skips the repair of the redo logs (`repair_skipped`). In all other runs the repair is never
skipped after a crash (`repair_not_skipped`).
-/

namespace Pronto

open Memory Persist Runs

/-! ## Sessions -/

/-- `CatalogFlagCleanShutdown`. -/
def catalogFlagCleanShutdown : BitVec 64 := 1

/-- `NVCatalog::getFlags`. -/
def getFlags (m : Mem) : BitVec 64 := BitVec.ofNat 64 (load m 24 8)

/-- The instructions of `NVCatalog::setFlags`. -/
def setFlagsOps (flags : BitVec 64) : List Op := [.store 24 (bytesLE flags.toNat 8), .persist 0 64]

/-- The test of the constructor. -/
def cleanShutdown (m : Mem) : Bool := getFlags m &&& catalogFlagCleanShutdown != 0

/-- Where a session is: no manager exists; the constructor recovers the objects, after repairing the
redo logs or not; it clears the flag; the manager is in use; the destructor runs. -/
inductive ManagerPhase
  | down
  | recovering (repairs : Bool)
  | clearing
  | running
  | closing
deriving DecidableEq, Repr

/-- How a session ended. -/
inductive SessionEnd
  | destructed
  | crashed
deriving DecidableEq, Repr

/-- The catalog, the manager over it, and what the sessions so far have done: whether this one has kept
the flag of an empty catalog, whether it has created objects or run transactions, how the last one that
did so ended, and whether such a session has crashed without a repair of the redo logs since. -/
structure ManagerState where
  pm : PMem
  phase : ManagerPhase
  pending : List Op
  keptFlag : Bool
  worked : Bool
  last : Option SessionEnd
  unrepaired : Bool

inductive ManagerAction
  | construct
  | recovered
  | constructed
  | create (o : NewObject)
  | transaction
  | destruct
  | destructed
  | step
  | evict (line : ℕ)
  | crash

/-- One step of a session. A crash in the destructor comes after all work of the session; it counts as an
end by the destructor. -/
def managerStep (s : ManagerState) : ManagerAction → Option ManagerState
  | .construct =>
    if s.phase ≠ .down then none
    else if objectCount s.pm.view = 0 then
      -- nothing to recover: the constructor returns, and the flags stay as they are
      some { s with phase := .running, keptFlag := cleanShutdown s.pm.view, unrepaired := false }
    else
      some { s with phase := .recovering !cleanShutdown s.pm.view, keptFlag := false }
  | .recovered =>
    match s.phase with
    | .recovering repairs =>
      some { s with
        phase := .clearing
        pending := setFlagsOps (getFlags s.pm.view &&& ~~~catalogFlagCleanShutdown)
        unrepaired := s.unrepaired && !repairs }
    | _ => none
  | .constructed =>
    if s.phase = .clearing ∧ s.pending = [] then some { s with phase := .running } else none
  | .create o =>
    if s.phase = .running ∧ s.pending = [] ∧
        entryOffset (objectCount s.pm.view) + 32 ≤ catalogFileSize ∧
        freeOffset s.pm.view + o.argsSize ≤ catalogFileSize then
      some { s with pending := createOps s.pm.view o, worked := true }
    else none
  | .transaction => if s.phase = .running then some { s with worked := true } else none
  | .destruct =>
    if s.phase = .running ∧ s.pending = [] then
      some { s with
        phase := .closing
        pending := setFlagsOps (getFlags s.pm.view ||| catalogFlagCleanShutdown) }
    else none
  | .destructed =>
    if s.phase = .closing ∧ s.pending = [] then
      some { s with
        phase := .down
        worked := false
        last := if s.worked then some .destructed else s.last }
    else none
  | .step =>
    match s.pending with
    | [] => none
    | op :: rest => some { s with pm := op.apply s.pm, pending := rest }
  | .evict line => some { s with pm := s.pm.evict line }
  | .crash =>
    some { s with
      pm := s.pm.crash
      phase := .down
      pending := []
      worked := false
      last := if s.worked then some (if s.phase = .closing then .destructed else .crashed) else s.last
      unrepaired := s.unrepaired || (s.worked && s.phase != .closing) }

/-- A new catalog. -/
def ManagerState.new : ManagerState :=
  ⟨⟨newCatalog, newCatalog⟩, .down, [], false, false, none, false⟩

/-- A session that has kept the flag of an empty catalog does not crash once it has created objects or
run transactions. -/
def ManagerState.SparesKeptFlag (s : ManagerState) : ManagerAction → Prop
  | .crash => ¬ (s.phase = .running ∧ s.keptFlag = true ∧ s.worked = true)
  | _ => True

/-- After a crash of a working session no session ends by the destructor without having created objects
or run transactions itself. -/
def ManagerState.NoIdleEnd (s : ManagerState) : ManagerAction → Prop
  | .destruct => s.worked = true ∨ s.last ≠ some .crashed
  | _ => True

instance (s : ManagerState) (a : ManagerAction) : Decidable (s.SparesKeptFlag a) := by
  cases a <;> unfold ManagerState.SparesKeptFlag <;> infer_instance

instance (s : ManagerState) (a : ManagerAction) : Decidable (s.NoIdleEnd a) := by
  cases a <;> unfold ManagerState.NoIdleEnd <;> infer_instance

/-! ## The header's words -/

/-- The instruction keeps the flags, and stores only offsets behind the header to `free_offset`. -/
def KeepsHeader (op : Op) : Prop :=
  op.Spares 24 ∧ op.Respects 16 (32 ≤ ·)

section Header

variable {pm : PMem} {op : Op} {m : Mem} {o : NewObject} {f : BitVec 64}

theorem getFlags_store (m : Mem) (f : BitVec 64) :
    getFlags (Memory.store m 24 (bytesLE f.toNat 8)) = f := by
  have := f.isLt
  rw [getFlags, load_store_word (by omega), BitVec.ofNat_toNat, BitVec.setWidth_eq]

theorem cleanShutdown_cleared (f : BitVec 64) (h : getFlags m = f &&& ~~~catalogFlagCleanShutdown) :
    cleanShutdown m = false := by
  have hzero : ~~~catalogFlagCleanShutdown &&& catalogFlagCleanShutdown = 0#64 := by decide
  rw [cleanShutdown, h, BitVec.and_assoc, hzero, BitVec.and_zero]
  rfl

/-- The instructions of `createNew` keep the header. -/
theorem createOps_keepsHeader (hfree : 32 ≤ freeOffset m)
    (hfits : freeOffset m + o.argsSize ≤ catalogFileSize) :
    ∀ op ∈ createOps m o, KeepsHeader op := by
  intro op hop
  refine ⟨?_, (createOps_respects_free hfree hfits op hop).mono fun v hv => hfree.trans hv.1⟩
  rw [createOps_eq] at hop
  simp only [List.mem_append, List.mem_cons] at hop
  rcases hop with hop | rfl | rfl | hop
  · exact entryOps_spares (by decide) op hop
  · exact .inl (by rw [length_bytesLE]; decide)
  · exact .inr (.inr (by decide))
  · exact argsOps_spares (.inr rfl) hfree op hop

/-- `setFlags` is under way: the flags are not stored yet, or not persisted yet, or durable. -/
def SettingFlags (pm : PMem) (pending : List Op) (f : BitVec 64) : Prop :=
  (pending = setFlagsOps f ∧ load pm.durable 24 8 = load pm.view 24 8) ∨
    (pending = [.persist 0 64] ∧ getFlags pm.view = f) ∨
    (pending = [] ∧ getFlags pm.view = f ∧ load pm.durable 24 8 = load pm.view 24 8)

theorem SettingFlags.pending {pending : List Op} (h : SettingFlags pm pending f) :
    ∀ op ∈ pending, op.Spares 8 ∧ op.Spares 16 := by
  have hline : (Op.persist 0 64).Spares 8 ∧ (Op.persist 0 64).Spares 16 :=
    ⟨.inr (.inr (by decide)), .inr (.inr (by decide))⟩
  intro op hop
  rcases h with ⟨rfl, -⟩ | ⟨rfl, -⟩ | ⟨rfl, -⟩
  · rcases List.mem_cons.mp hop with rfl | hop
    · exact ⟨.inr (by decide), .inr (by decide)⟩
    · obtain rfl := List.mem_singleton.mp hop
      exact hline
  · obtain rfl := List.mem_singleton.mp hop
    exact hline
  · cases hop

/-- The next instruction of `setFlags` is executed. -/
theorem SettingFlags.step {rest : List Op} (h : SettingFlags pm (op :: rest) f) :
    SettingFlags (op.apply pm) rest f := by
  rcases h with ⟨heq, -⟩ | ⟨heq, hview⟩ | ⟨heq, -⟩
  · obtain ⟨rfl, rfl⟩ := List.cons.inj heq
    exact .inr (.inl ⟨rfl, getFlags_store pm.view f⟩)
  · obtain ⟨rfl, rfl⟩ := List.cons.inj heq
    exact .inr (.inr ⟨rfl, hview, load_congr fun x _ _ => if_pos (by omega)⟩)
  · cases heq

theorem SettingFlags.evict {pending : List Op} (h : SettingFlags pm pending f) (line : ℕ) :
    SettingFlags (pm.evict line) pending f := by
  rcases h with ⟨heq, hclean⟩ | ⟨heq, hview⟩ | ⟨heq, hview, hclean⟩
  · exact .inl ⟨heq, load_evict_clean rfl line hclean⟩
  · exact .inr (.inl ⟨heq, hview⟩)
  · exact .inr (.inr ⟨heq, hview, load_evict_clean rfl line hclean⟩)

theorem SettingFlags.view_step {rest : List Op} (h : SettingFlags pm (op :: rest) f) :
    getFlags (op.apply pm).view = f := by
  rcases h with ⟨heq, -⟩ | ⟨heq, hview⟩ | ⟨heq, -⟩
  · obtain ⟨rfl, -⟩ := List.cons.inj heq
    exact getFlags_store pm.view f
  · obtain ⟨rfl, -⟩ := List.cons.inj heq
    exact hview
  · cases heq

/-- Flags become durable as they were seen before. -/
theorem SettingFlags.durable_step {rest : List Op} (h : SettingFlags pm (op :: rest) f) :
    load (op.apply pm).durable 24 8 = load pm.durable 24 8 ∨
      load (op.apply pm).durable 24 8 = load pm.view 24 8 := by
  rcases h with ⟨heq, -⟩ | ⟨heq, -⟩ | ⟨heq, -⟩
  · obtain ⟨rfl, -⟩ := List.cons.inj heq
    exact .inl rfl
  · obtain ⟨rfl, -⟩ := List.cons.inj heq
    exact .inr (load_congr fun x _ _ => if_pos (by omega))
  · cases heq

end Header

/-! ## Runs -/

/-- The flags of the two views of the header agree. -/
def FlagsDurable (pm : PMem) : Prop := load pm.durable 24 8 = load pm.view 24 8

/-- The last working session ended by the destructor, as far as that is asked for. -/
def ManagerState.LastOk (strict : Prop) (s : ManagerState) : Prop := strict → s.last ≠ some .crashed

/-- What holds in the phases of a session. A set flag tells that no repair is due. -/
def PhaseInv (strict : Prop) (s : ManagerState) : ManagerPhase → Prop
  | .down => s.pending = [] ∧ s.worked = false ∧ FlagsDurable s.pm ∧
    (cleanShutdown s.pm.view = true → s.unrepaired = false ∧ s.LastOk strict)
  | .recovering repairs => s.pending = [] ∧ s.worked = false ∧ FlagsDurable s.pm ∧
    (cleanShutdown s.pm.view = true → s.unrepaired = false ∧ s.LastOk strict) ∧
    repairs = !cleanShutdown s.pm.view
  | .clearing => s.worked = false ∧ s.unrepaired = false ∧
    (cleanShutdown s.pm.view = true ∨ cleanShutdown s.pm.durable = true → s.LastOk strict) ∧
    ∃ f, SettingFlags s.pm s.pending (f &&& ~~~catalogFlagCleanShutdown)
  | .running => s.unrepaired = false ∧ FlagsDurable s.pm ∧ (∀ op ∈ s.pending, KeepsHeader op) ∧
    (s.pending ≠ [] → s.worked = true) ∧
    (cleanShutdown s.pm.view = true → s.keptFlag = true ∧ s.LastOk strict)
  | .closing => s.unrepaired = false ∧ (s.worked = true ∨ s.LastOk strict) ∧
    ∃ f, SettingFlags s.pm s.pending f

structure ManagerInv (strict : Prop) (s : ManagerState) : Prop where
  free : WordHolds s.pm 16 (32 ≤ ·)
  listed : 0 < objectCount s.pm.view ∨ 0 < objectCount s.pm.durable →
    s.worked = true ∨ s.last ≠ none
  phase : PhaseInv strict s s.phase

section Runs

variable {strict : Prop} {s s' : ManagerState} {pm : PMem} {op : Op}

theorem cleanShutdown_congr {m m' : Mem} (h : load m 24 8 = load m' 24 8) :
    cleanShutdown m = cleanShutdown m' := by
  rw [cleanShutdown, cleanShutdown, getFlags, getFlags, h]

theorem managerInv_new : ManagerInv strict .new where
  free := ⟨by decide, by decide⟩
  listed := by decide
  phase := ⟨rfl, rfl, rfl, fun hflag => absurd hflag (by decide)⟩

/-- An instruction either belongs to `createNew`, or keeps the number of objects. -/
theorem ManagerInv.pending (h : ManagerInv strict s) (hop : op ∈ s.pending) :
    op.Respects 16 (32 ≤ ·) ∧ (s.worked = true ∨ op.Spares 8) := by
  have hphase := h.phase
  rcases hs : s.phase with _ | repairs | _ | _ | _ <;> rw [hs] at hphase
  · rw [hphase.1] at hop
    cases hop
  · rw [hphase.1] at hop
    cases hop
  · obtain ⟨-, -, -, f, hset⟩ := hphase
    exact ⟨.inl (hset.pending op hop).2, .inr (hset.pending op hop).1⟩
  · obtain ⟨-, -, hkeeps, hworked, -⟩ := hphase
    exact ⟨(hkeeps op hop).2, .inl (hworked (List.ne_nil_of_mem hop))⟩
  · obtain ⟨-, -, f, hset⟩ := hphase
    exact ⟨.inl (hset.pending op hop).2, .inr (hset.pending op hop).1⟩

/-- **An instruction of a running call keeps the invariant.** In the two phases that set flags it
is one of `setFlags`; in a running session it belongs to `createNew`, which leaves the flags
alone. -/
theorem ManagerInv.step {rest : List Op} (h : ManagerInv strict s) (hpending : s.pending = op :: rest) :
    ManagerInv strict { s with pm := op.apply s.pm, pending := rest } := by
  have hop : op ∈ s.pending := by simp [hpending]
  obtain ⟨hfree, hcount⟩ := h.pending hop
  refine ⟨h.free.apply hfree, fun hlisted => ?_, ?_⟩
  · rcases hcount with hworked | hspares
    · exact .inl hworked
    · refine h.listed ?_
      simp only [objectCount, load_view_apply hspares] at hlisted ⊢
      rcases load_apply_durable (m := s.pm) hspares with heq | heq
      · rw [heq] at hlisted
        exact .inl (hlisted.elim id id)
      · rwa [heq] at hlisted
  · have hphase := h.phase
    dsimp only
    rcases hs : s.phase with _ | repairs | _ | _ | _ <;> rw [hs] at hphase
    · exact absurd hphase.1 (by simp [hpending])
    · exact absurd hphase.1 (by simp [hpending])
    · obtain ⟨hworked, hrepaired, hlast, f, hset⟩ := hphase
      rw [hpending] at hset
      refine ⟨hworked, hrepaired, fun hflag => hlast ?_, f, hset.step⟩
      rcases hflag with hflag | hflag
      · rw [cleanShutdown_cleared f hset.view_step] at hflag
        cases hflag
      · rcases hset.durable_step with heq | heq
        · exact .inr ((cleanShutdown_congr heq).symm.trans hflag)
        · exact .inl ((cleanShutdown_congr heq).symm.trans hflag)
    · -- a running session: the instruction belongs to `createNew`, which spares the flags
      obtain ⟨hrepaired, hdurable, hkeeps, hworked, hflag⟩ := hphase
      have hspares := (hkeeps op (by simp [hpending])).1
      refine ⟨hrepaired, load_apply_clean hspares hdurable, fun op' hop' => hkeeps op' ?_,
        fun _ => hworked (by simp [hpending]), fun hset => hflag ?_⟩
      · exact hpending ▸ List.mem_cons_of_mem _ hop'
      · exact (cleanShutdown_congr (load_view_apply hspares)).symm.trans hset
    · obtain ⟨hrepaired, hlast, f, hset⟩ := hphase
      rw [hpending] at hset
      exact ⟨hrepaired, hlast, f, hset.step⟩

/-- A cache line written back at any time keeps the invariant. -/
theorem ManagerInv.evict (h : ManagerInv strict s) (line : ℕ) :
    ManagerInv strict { s with pm := s.pm.evict line } := by
  have hword : ∀ a, a % 8 = 0 → load (s.pm.evict line).durable a 8 = load s.pm.view a 8 ∨
      load (s.pm.evict line).durable a 8 = load s.pm.durable a 8 := fun a ha =>
    load_evict_durable ha line
  refine ⟨h.free.evict rfl line, fun hlisted => h.listed ?_, ?_⟩
  · rcases hlisted with hlisted | hlisted
    · exact .inl hlisted
    · rcases hword 8 rfl with heq | heq
      · exact .inl (hlisted.trans_eq heq)
      · exact .inr (hlisted.trans_eq heq)
  · have hphase := h.phase
    dsimp only
    rcases hs : s.phase with _ | repairs | _ | _ | _ <;> rw [hs] at hphase
    · obtain ⟨hpending, hworked, hdurable, hflag⟩ := hphase
      exact ⟨hpending, hworked, load_evict_clean rfl line hdurable, hflag⟩
    · obtain ⟨hpending, hworked, hdurable, hflag⟩ := hphase
      exact ⟨hpending, hworked, load_evict_clean rfl line hdurable, hflag⟩
    · obtain ⟨hworked, hrepaired, hlast, f, hset⟩ := hphase
      refine ⟨hworked, hrepaired, fun hflag => hlast ?_, f, hset.evict line⟩
      rcases hflag with hflag | hflag
      · exact .inl hflag
      · rcases hword 24 rfl with heq | heq
        · exact .inl ((cleanShutdown_congr heq).symm.trans hflag)
        · exact .inr ((cleanShutdown_congr heq).symm.trans hflag)
    · obtain ⟨hrepaired, hdurable, hrest⟩ := hphase
      exact ⟨hrepaired, load_evict_clean rfl line hdurable, hrest⟩
    · obtain ⟨hrepaired, hlast, f, hset⟩ := hphase
      exact ⟨hrepaired, hlast, f, hset.evict line⟩

/-- A crash leaves a set flag only behind a session that has ended by the destructor or not worked. -/
theorem ManagerInv.crash (h : ManagerInv strict s) (hguard : s.SparesKeptFlag .crash)
    (hstep : managerStep s .crash = some s') : ManagerInv strict s' := by
  cases hstep
  refine ⟨⟨h.free.2, h.free.2⟩, fun hlisted => ?_, rfl, rfl, rfl, fun hflag => ?_⟩
  · rcases h.listed (.inr (hlisted.elim id id)) with hworked | hlast
    · simp [hworked]
    · right
      dsimp only
      split
      · simp
      · exact hlast
  · have hphase := h.phase
    dsimp only [PMem.crash] at hflag
    rcases hs : s.phase with _ | repairs | _ | _ | _ <;> rw [hs] at hphase <;>
      simp only [PhaseInv, ManagerState.LastOk] at hphase ⊢
    · obtain ⟨-, hworked, hdurable, hok⟩ := hphase
      simpa [hworked] using hok ((cleanShutdown_congr hdurable).symm.trans hflag)
    · obtain ⟨-, hworked, hdurable, hok, -⟩ := hphase
      simpa [hworked] using hok ((cleanShutdown_congr hdurable).symm.trans hflag)
    · obtain ⟨hworked, hrepaired, hlast, -⟩ := hphase
      simpa [hworked, hrepaired] using hlast (.inr hflag)
    · obtain ⟨hrepaired, hdurable, -, -, hok⟩ := hphase
      obtain ⟨hkept, hlast⟩ := hok ((cleanShutdown_congr hdurable).symm.trans hflag)
      have hworked : s.worked = false := by
        by_contra hworked
        exact hguard ⟨hs, hkept, by simpa using hworked⟩
      simpa [hworked, hrepaired] using hlast
    · obtain ⟨hrepaired, hlast, -⟩ := hphase
      refine ⟨by simp [hrepaired], ?_⟩
      split
      · simp
      · rename_i hworked
        exact hlast.resolve_left hworked

/-- **Every action keeps the invariant**, if no crash meets a working session that kept the flag
and, where the last session matters, no destructor ends an idle session behind a crash. -/
theorem managerStep_inv {a : ManagerAction} (h : ManagerInv strict s)
    (hkept : s.SparesKeptFlag a) (hidle : strict → s.NoIdleEnd a)
    (hstep : managerStep s a = some s') : ManagerInv strict s' := by
  have hphase := h.phase
  cases a with
  | construct =>
    rw [managerStep] at hstep
    split at hstep
    case isTrue => cases hstep
    case isFalse hdown =>
    rw [not_not.mp hdown] at hphase
    obtain ⟨hpending, hworked, hdurable, hflag⟩ := hphase
    split at hstep <;> cases hstep
    · exact ⟨h.free, h.listed, rfl, hdurable, fun op hop => by simp [hpending] at hop,
        fun hne => absurd hpending hne, fun hset => ⟨hset, (hflag hset).2⟩⟩
    · exact ⟨h.free, h.listed, hpending, hworked, hdurable, hflag, rfl⟩
  | recovered =>
    rw [managerStep] at hstep
    split at hstep
    case h_2 => cases hstep
    case h_1 repairs hs =>
    cases hstep
    rw [hs] at hphase
    obtain ⟨hpending, hworked, hdurable, hflag, hrepairs⟩ := hphase
    refine ⟨h.free, h.listed, hworked, ?_, fun hset => ?_, _, .inl ⟨rfl, hdurable⟩⟩
    · cases hclean : cleanShutdown s.pm.view
      · simp [hrepairs, hclean]
      · simp [(hflag hclean).1]
    · exact (hflag (hset.elim id (cleanShutdown_congr hdurable).symm.trans)).2
  | constructed =>
    -- `setFlags` has run to its end: the bit is cleared, and durably so
    rw [managerStep] at hstep
    split at hstep
    case isFalse => cases hstep
    case isTrue hs =>
    cases hstep
    rw [hs.1] at hphase
    obtain ⟨hworked, hrepaired, hlast, f, hset⟩ := hphase
    rw [hs.2] at hset
    rcases hset with ⟨heq, -⟩ | ⟨heq, -⟩ | ⟨-, hview, hclean⟩
    · cases heq
    · cases heq
    · refine ⟨h.free, h.listed, hrepaired, hclean, fun op hop => by simp [hs.2] at hop,
        fun hne => absurd hs.2 hne, fun hflag => ?_⟩
      rw [cleanShutdown_cleared f hview] at hflag
      cases hflag
  | create o =>
    rw [managerStep] at hstep
    split at hstep
    case isFalse => cases hstep
    case isTrue hs =>
    cases hstep
    rw [hs.1] at hphase
    obtain ⟨hrepaired, hdurable, -, -, hflag⟩ := hphase
    exact ⟨h.free, fun _ => .inl rfl, by
      rw [hs.1]
      exact ⟨hrepaired, hdurable, createOps_keepsHeader h.free.1 hs.2.2.2, fun _ => rfl, hflag⟩⟩
  | transaction =>
    rw [managerStep] at hstep
    split at hstep
    case isFalse => cases hstep
    case isTrue hs =>
    cases hstep
    rw [hs] at hphase
    obtain ⟨hrepaired, hdurable, hkeeps, -, hflag⟩ := hphase
    exact ⟨h.free, fun _ => .inl rfl, by
      rw [hs]
      exact ⟨hrepaired, hdurable, hkeeps, fun _ => rfl, hflag⟩⟩
  | destruct =>
    rw [managerStep] at hstep
    split at hstep
    case isFalse => cases hstep
    case isTrue hs =>
    cases hstep
    rw [hs.1] at hphase
    obtain ⟨hrepaired, hdurable, -, -, hflag⟩ := hphase
    refine ⟨h.free, h.listed, hrepaired, ?_, _, .inl ⟨rfl, hdurable⟩⟩
    by_cases hworked : s.worked = true
    · exact .inl hworked
    · exact .inr fun hstrict => (hidle hstrict).resolve_left hworked
  | destructed =>
    rw [managerStep] at hstep
    split at hstep
    case isFalse => cases hstep
    case isTrue hs =>
    cases hstep
    rw [hs.1] at hphase
    obtain ⟨hrepaired, hlast, f, hset⟩ := hphase
    rw [hs.2] at hset
    rcases hset with ⟨heq, -⟩ | ⟨heq, -⟩ | ⟨-, -, hclean⟩
    · cases heq
    · cases heq
    · refine ⟨h.free, fun hlisted => ?_, hs.2, rfl, hclean, fun _ => ⟨hrepaired, fun hstrict => ?_⟩⟩
      · right
        dsimp only
        split
        · simp
        · rename_i hworked
          exact (h.listed hlisted).resolve_left hworked
      · dsimp only
        split
        · simp
        · rename_i hworked
          exact (hlast.resolve_left hworked) hstrict
  | step =>
    rcases hpending : s.pending with _ | ⟨op, rest⟩
    · simp [managerStep, hpending] at hstep
    · obtain rfl : { s with pm := op.apply s.pm, pending := rest } = s' := by
        simpa [managerStep, hpending] using hstep
      exact h.step hpending
  | evict line =>
    cases hstep
    exact h.evict line
  | crash => exact h.crash hkept hstep

/-- A constructor that recovers objects has found a catalog that lists some. -/
theorem construct_recovering {repairs : Bool} (h : managerStep s .construct = some s')
    (hphase : s'.phase = .recovering repairs) :
    s.phase = .down ∧ 0 < objectCount s.pm.view ∧ repairs = !cleanShutdown s.pm.view := by
  rw [managerStep] at h
  split at h
  case isTrue => cases h
  case isFalse hdown =>
  split at h <;> cases h
  · cases hphase
  · rename_i hcount
    cases hphase
    exact ⟨not_not.mp hdown, Nat.pos_of_ne_zero hcount, rfl⟩

end Runs

/-- **The repair of the redo logs is not skipped after a crash.** Take any run of sessions in which no
session that has kept the flag of an empty catalog works and crashes. Whenever the manager is constructed
over a catalog that lists objects, and a session that created objects or ran transactions has crashed
since the last repair, the constructor repairs the redo logs. If moreover no session without work ends
by the destructor after a crash, the flag is set only if the last session that worked ended by the
destructor. -/
theorem repair_not_skipped {as : List ManagerAction} {s s' : ManagerState} {repairs : Bool}
    (hkept : Guarded managerStep ManagerState.SparesKeptFlag .new as)
    (hrun : run managerStep .new as = some s) (hconstruct : managerStep s .construct = some s')
    (hlists : s'.phase = .recovering repairs) :
    (s.unrepaired = true → repairs = true) ∧
      (Guarded managerStep ManagerState.NoIdleEnd .new as → cleanShutdown s.pm.view = true →
        s.last = some .destructed) := by
  obtain ⟨hdown, hcount, rfl⟩ := construct_recovering hconstruct hlists
  have hphase : ∀ {strict}, ManagerInv strict s → PhaseInv strict s .down := fun h => by
    rw [← hdown]
    exact h.phase
  constructor
  · intro hunrepaired
    have hinv : ManagerInv False s :=
      hkept.invariant (fun _ _ _ h hg hstep => managerStep_inv h hg False.elim hstep)
        managerInv_new hrun
    obtain ⟨-, -, -, hflag⟩ := hphase hinv
    cases hclean : cleanShutdown s.pm.view
    · rfl
    · rw [(hflag hclean).1] at hunrepaired
      cases hunrepaired
  · intro hidle hclean
    have hinv : ManagerInv True s :=
      (hkept.and hidle).invariant (fun _ _ _ h hg hstep => managerStep_inv h hg.1 (fun _ => hg.2) hstep)
        managerInv_new hrun
    obtain ⟨-, hworked, -, hflag⟩ := hphase hinv
    have hsome : s.last ≠ none := (hinv.listed (.inl hcount)).resolve_left (by simp [hworked])
    have hlast : s.last ≠ some .crashed := (hflag hclean).2 trivial
    rcases hs : s.last with _ | _ | _
    · exact absurd hs hsome
    · rfl
    · exact absurd hs hlast

/-- A session that creates an object. -/
def creatingSession : List ManagerAction :=
  [.construct, .create ⟨1, 2, none⟩] ++ List.replicate 20 .step

/-- Three sessions, twice. The first creates an object and is destructed. The second crashes: with a
transaction, so that the third repairs, or in its constructor while the flag is being cleared. -/
theorem repair_not_skipped_three_sessions :
    (∃ s s' repairs, run managerStep .new (creatingSession ++ [.destruct, .step, .step, .destructed,
        .construct, .recovered, .step, .step, .constructed, .transaction, .crash]) = some s ∧
      managerStep s .construct = some s' ∧ s'.phase = .recovering repairs ∧ repairs = true) ∧
    ∃ s s', run managerStep .new (creatingSession ++ [.destruct, .step, .step, .destructed, .construct,
        .recovered, .step, .crash]) = some s ∧
      managerStep s .construct = some s' ∧ s'.phase = .recovering false ∧
      s.last = some .destructed := by
  constructor
  · have hany : (run managerStep .new (creatingSession ++ [.destruct, .step, .step, .destructed,
        .construct, .recovered, .step, .step, .constructed, .transaction, .crash])).any
          (fun s => s.unrepaired && (managerStep s .construct).any
            fun s' => s'.phase == .recovering true) = true := by
      decide +kernel
    obtain ⟨s, hrun, h⟩ := run_of_any hany
    obtain ⟨hunrepaired, h⟩ := Bool.and_eq_true_iff.mp h
    obtain ⟨s', hconstruct, hphase⟩ := (Option.any_eq_true _ _).mp h
    have hphase : s'.phase = .recovering true := by simpa using hphase
    exact ⟨s, s', true, hrun, hconstruct, hphase,
      (repair_not_skipped (guarded_of_decide (by decide +kernel)) hrun hconstruct hphase).1 hunrepaired⟩
  · have hany : (run managerStep .new (creatingSession ++ [.destruct, .step, .step, .destructed,
        .construct, .recovered, .step, .crash])).any
          (fun s => cleanShutdown s.pm.view && (managerStep s .construct).any
            fun s' => s'.phase == .recovering false) = true := by
      decide +kernel
    obtain ⟨s, hrun, h⟩ := run_of_any hany
    obtain ⟨hclean, h⟩ := Bool.and_eq_true_iff.mp h
    obtain ⟨s', hconstruct, hphase⟩ := (Option.any_eq_true _ _).mp h
    have hphase : s'.phase = .recovering false := by simpa using hphase
    refine ⟨s, s', hrun, hconstruct, hphase,
      (repair_not_skipped (guarded_of_decide ?_) hrun hconstruct hphase).2 (guarded_of_decide ?_) hclean⟩
    · decide +kernel
    · decide +kernel

/-- A session over an empty catalog ends by the destructor; the next one finds the flag, keeps it,
creates an object and crashes. The third one skips the repair. -/
theorem repair_skipped :
    ∃ s s', run managerStep .new ([.construct, .destruct, .step, .step, .destructed, .construct,
        .create ⟨1, 2, none⟩] ++ List.replicate 20 .step ++ [.transaction, .crash]) = some s ∧
      s.unrepaired = true ∧ s.last = some .crashed ∧ cleanShutdown s.pm.view = true ∧
      managerStep s .construct = some s' ∧ s'.phase = .recovering false := by
  have hany : (run managerStep .new ([.construct, .destruct, .step, .step, .destructed, .construct,
      .create ⟨1, 2, none⟩] ++ List.replicate 20 .step ++ [.transaction, .crash])).any
        (fun s => s.unrepaired && (s.last == some .crashed) && cleanShutdown s.pm.view &&
          (managerStep s .construct).any fun s' => s'.phase == .recovering false) = true := by
    decide +kernel
  obtain ⟨s, hrun, h⟩ := run_of_any hany
  simp only [Bool.and_eq_true, beq_iff_eq, Option.any_eq_true] at h
  obtain ⟨⟨⟨hunrepaired, hlast⟩, hclean⟩, s', hconstruct, hphase⟩ := h
  exact ⟨s, s', hrun, hunrepaired, hlast, hclean, hconstruct, hphase⟩

end Pronto
