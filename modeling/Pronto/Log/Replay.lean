import Pronto.Log.Invariants
import Pronto.Log.RoundTrip

/-!
# Recovery after a run of the log machine

The entries of a log are what its appends created. `recoverEntries` is recovery over that sequence
of entries; on a log whose entries are complete and none of which fills its last cache line it is
what `PersistentObject::Recover` computes from the bytes (`recover_eq`).

* `recover_from_snapshot`: recovery from the commit id and tail that a snapshot saved at a quiescent
  point plays exactly what a full recovery plays behind that point.
* `recover_after_crash_iff`: after a crash that leaves complete entries, recovery plays the longest
  gap-free sequence of ids if and only if the surviving ids have no gap at all; `gap_stops_recovery`
  is a crash between the commits of two transactions that leaves one.
-/

namespace Pronto

open Memory Tiling Runs

/-! ## Recovery over a sequence of entries -/

/-- The record of the entry at an offset. -/
def recordAt (log : RedoLog) (offset : ℕ) : CommitRecord :=
  ⟨offset + 24, load log.data offset 8, load log.data (offset + 16) 8⟩

/-- `PersistentObject::Recover` with the log viewed as the sequence of entries at `offsets`. -/
def recoverEntries (log : RedoLog) (offsets : List ℕ) (lastPlayed logHead : ℕ) :
    OrderedReplay.State CommitRecord :=
  let head := if logHead = 0 then log.head else logHead
  OrderedReplay.replay CommitRecord.commitId ⟨lastPlayed, [], []⟩
    ((offsets.filter fun o => head ≤ o ∧ o < log.tail).map (recordAt log))

/-- The entry of a transaction, with the commit id and tag as the log holds them. -/
def Tx.entry (log : RedoLog) (tx : Tx) : LogEntry :=
  ⟨tx.offset, load log.data tx.offset 8, load log.data (tx.offset + 16) 8, tx.vector.flatten.drop 8⟩

section

variable {play : DryRun} {parentReady : CommitRecord → Bool} {log : RedoLog}

/-- All bytes an append stores are in the log. -/
def Tx.InLog (log : RedoLog) (tx : Tx) : Prop :=
  ∀ i < (entryBytes tx.vector).length,
    (entryBytes tx.vector)[i]? = some (log.data (tx.offset + 8 + i))

/-- Storing an entry where its bytes already are changes nothing. -/
theorem Tx.InLog.writeEntry_eq {tx : Tx} (h : tx.InLog log) :
    writeEntry log.data tx.offset tx.vector = log.data := by
  have hstore : writeEntry log.data tx.offset tx.vector =
      store log.data (tx.offset + 8) (entryBytes tx.vector) := by
    rw [writeEntry, entryBytes, store_append, length_bytesLE]
  rw [hstore]
  funext x
  by_cases hx : tx.offset + 8 ≤ x ∧ x < tx.offset + 8 + (entryBytes tx.vector).length
  · obtain ⟨i, rfl⟩ : ∃ i, x = tx.offset + 8 + i := ⟨x - (tx.offset + 8), by omega⟩
    have hi : i < (entryBytes tx.vector).length := by omega
    rw [store_add hi]
    exact (List.getElem?_eq_some_iff.mp (h i hi)).2
  · exact store_of_outside (by omega)

/-- The entry of a call whose bytes are in the log. -/
theorem Tx.InLog.entryAt {tx : Tx} (h : tx.InLog log) (c : LogCall play)
    (hc : c.vector = tx.vector) :
    EntryAt log.data tx.offset (load log.data tx.offset 8) c.tag c.args := by
  have : EntryAt (writeEntry log.data tx.offset tx.vector) tx.offset
      (load log.data tx.offset 8) c.tag c.args :=
    entryAt_writeEntry c.tag_lt (hc ▸ c.flatten_eq) rfl
  rwa [h.writeEntry_eq] at this

theorem Tx.InLog.entry_eq {tx : Tx} (h : tx.InLog log) (c : LogCall play)
    (hc : c.vector = tx.vector) :
    tx.entry log = ⟨tx.offset, load log.data tx.offset 8, c.tag, c.args⟩ := by
  have hargs : tx.vector.flatten.drop 8 = c.args := by
    rw [← hc, c.flatten_eq, List.drop_left' (length_bytesLE _ _)]
  rw [Tx.entry, (h.entryAt c hc).tag_eq, hargs]

/-- The size of an entry and whether it fills its last cache line. -/
theorem LogCall.length_eq (c : LogCall play) {tx : Tx} (hc : c.vector = tx.vector) :
    16 + tx.vector.flatten.length = 24 + c.args.length := by
  rw [← hc, c.flatten_eq, List.length_append, length_bytesLE]
  omega

/-- A complete entry of a call. -/
theorem Tx.InLog.complete {tx : Tx} (h : tx.InLog log) (c : LogCall play)
    (hc : c.vector = tx.vector) (hfits : tx.offset + tx.size ≤ log.size) :
    (tx.entry log).Complete play log := by
  have hentry := h.entryAt c hc
  have hlen := tx.length_le_size
  rw [length_entryBytes] at hlen
  have hsize := c.length_eq hc
  rw [h.entry_eq c hc]
  have hfit : tx.offset + (24 + c.args.length) ≤ log.size := by omega
  exact ⟨⟨hentry, hfit⟩, c.processed hentry.args_eq (by dsimp only; omega)⟩

/-- The offsets of a tiled range are all in it. -/
theorem filter_offsets {txs : List Tx} {a b : ℕ} (htiles : Tiles Tx.offset Tx.size a txs b) :
    ((txs.map Tx.offset).filter fun o => a ≤ o ∧ o < b) = txs.map Tx.offset := by
  refine List.filter_eq_self.mpr fun o ho => ?_
  obtain ⟨tx, htx, rfl⟩ := List.mem_map.mp ho
  have h1 := htiles.mem_bounds htx
  have h2 := tx.size_ge
  simp only [decide_eq_true_eq]
  omega

/-- Over complete entries, none of which fills its last cache line, recovery of the bytes is
recovery of the entries. -/
theorem recover_eq {txs : List Tx} {head logHead lastPlayed : ℕ}
    (hready : ParentsReady parentReady lastPlayed (txs.map fun tx => recordAt log tx.offset))
    (hhead : (if logHead = 0 then log.head else logHead) = head)
    (htiles : Tiles Tx.offset Tx.size head txs log.tail)
    (hcalls : ∀ tx ∈ txs, ∃ c : LogCall play, c.vector = tx.vector)
    (hbytes : ∀ tx ∈ txs, tx.InLog log)
    (hfits : ∀ tx ∈ txs, tx.offset + tx.size ≤ log.size)
    (hline : ∀ tx ∈ txs, (16 + tx.vector.flatten.length) % cacheLineWidth ≠ 0) :
    recover play parentReady log lastPlayed logHead =
      if (recoverEntries log (txs.map Tx.offset) lastPlayed logHead).queue = [] then
        .ok ⟨log.tail, txs.map fun tx => (tx.entry log).visit,
          recoverEntries log (txs.map Tx.offset) lastPlayed logHead⟩
      else .error .queueNotEmpty := by
  have hcons : Consecutive head (txs.map (Tx.entry log)) log.tail :=
    htiles.map fun tx htx => by
      obtain ⟨c, hc⟩ := hcalls tx htx
      refine ⟨rfl, ?_⟩
      rw [(hbytes tx htx).entry_eq c hc, Tx.size, ← hc, ← c.entrySize_eq]
  have hcomplete : ∀ e ∈ txs.map (Tx.entry log), e.Complete play log := by
    intro e he
    obtain ⟨tx, htx, rfl⟩ := List.mem_map.mp he
    obtain ⟨c, hc⟩ := hcalls tx htx
    exact (hbytes tx htx).complete c hc (hfits tx htx)
  have hfill : ∀ e ∈ txs.map (Tx.entry log), ¬ e.FillsLine := by
    intro e he hfills
    obtain ⟨tx, htx, rfl⟩ := List.mem_map.mp he
    obtain ⟨c, hc⟩ := hcalls tx htx
    rw [(hbytes tx htx).entry_eq c hc] at hfills
    exact hline tx htx (c.length_eq hc ▸ hfills)
  have hlen := hcons.lines_le
  -- entries are not empty, so the loop has enough iterations
  obtain ⟨fuel, hfuel⟩ : ∃ fuel, log.tail = (txs.map (Tx.entry log)).length + fuel :=
    ⟨log.tail - (txs.map (Tx.entry log)).length, by omega⟩
  have hreplay : recoverEntries log (txs.map Tx.offset) lastPlayed logHead =
      OrderedReplay.replay CommitRecord.commitId ⟨lastPlayed, [], []⟩
        ((txs.map (Tx.entry log)).map LogEntry.record) := by
    simp only [recoverEntries, hhead, filter_offsets htiles, List.map_map]
    rfl
  have hloop : recoverLoop play parentReady log log.tail ⟨head, [], ⟨lastPlayed, [], []⟩⟩ =
      .ok ⟨log.tail, txs.map fun tx => (tx.entry log).visit,
        recoverEntries log (txs.map Tx.offset) lastPlayed logHead⟩ := by
    conv_lhs => rw [hfuel]
    rw [recoverLoop_entries le_rfl hcomplete hfill fuel hcons (by
        rw [List.nil_append, List.map_map]
        exact hready),
      recoverLoop_done (by simp [RecoverState.advance]), hreplay]
    simp only [RecoverState.advance, List.nil_append, List.map_map]
    rfl
  simp only [recover, hhead, hloop, bind, Except.bind]

end

/-! ## Sessions -/

/-- What holds during the first session of a log. -/
structure LogState.Session (drainPersists : Bool) (s : LogState) : Prop where
  holes : s.Holes
  bytes : s.Bytes drainPersists
  ids : s.claims.Perm (List.range' 1 s.log.lastCommit)
  up : s.mode = .running ∨ s.mode = .aborted

section Session

variable {play : DryRun} {parentReady : CommitRecord → Bool} {drainPersists : Bool}
  {s s' : LogState} {acts : List LogAction}

theorem LogState.Session.create (id : Uuid) (size : ℕ) :
    (LogState.create id size).Session drainPersists :=
  ⟨.create id size, .create id size, List.Perm.refl _, Or.inl rfl⟩

/-- Only a crash ends the process. -/
theorem LogStep.up {a : LogAction} (hstep : LogStep drainPersists s a s') (ha : a ≠ .crash)
    (hup : s.mode = .running ∨ s.mode = .aborted) : s'.mode = .running ∨ s'.mode = .aborted := by
  cases hstep with
  | crash => exact absurd rfl ha
  | reserve =>
    simp only [LogState.reserve]
    split <;> simp
  | take =>
    simp only [LogState.takeId]
    split <;> simp
  | drain => cases drainPersists <;> exact hup
  | reopen hmode => simp [hmode] at hup
  | recover hmode => simp [hmode] at hup
  | _ => exact hup

/-- Everything that holds of a session is kept by its steps. -/
theorem LogState.Session.step {a : LogAction} (h : s.Session drainPersists)
    (hstep : LogStep drainPersists s a s') (ha : a ≠ .crash) : s'.Session drainPersists := by
  have hdown : s.mode ≠ .down := by rcases h.up with h | h <;> simp [h]
  have hrec : s.mode ≠ .recovering := by rcases h.up with h | h <;> simp [h]
  refine ⟨h.holes.step ?_ hstep, h.bytes.step hstep ha hdown hrec, ?_, hstep.up ha h.up⟩
  · rintro rfl
    cases hstep with
    | reopen hmode => exact absurd hmode hdown
  · rcases hstep.claims ha with ⟨hclaims, hlast⟩ | ⟨hclaims, hlast⟩
    · rw [hclaims, hlast]
      exact h.ids
    · rw [hlast, List.range'_1_concat]
      refine (hclaims.trans ((h.ids.cons _).trans ?_))
      rw [Nat.add_comm]
      exact (List.perm_append_singleton _ _).symm

theorem LogState.Session.run (h : s.Session drainPersists) (hno : .crash ∉ acts)
    (hrun : run (logStep play parentReady drainPersists) s acts = some s') :
    s'.Session drainPersists :=
  (guarded_of_not_mem hno).invariant (fun _ _ _ h ha hs => h.step (logStep_sound hs) ha) h hrun

/-- `Savitar_log_commit` has returned. -/
def Phase.isCommitted : Phase → Bool
  | .committed _ => true
  | _ => false

/-- No transaction is open. -/
def LogState.AllCommitted (s : LogState) : Prop := ∀ tx ∈ s.txs, tx.phase.isCommitted = true

instance : Decidable s.AllCommitted :=
  inferInstanceAs (Decidable (∀ tx ∈ s.txs, tx.phase.isCommitted = true))

/-- Committed transactions stay as they are; new ones come behind them. -/
theorem LogStep.keeps_committed {a : LogAction} {old new : List Tx}
    (hstep : LogStep drainPersists s a s') (ha : a ≠ .crash) (htxs : s.txs = old ++ new)
    (hold : ∀ tx ∈ old, tx.phase.isCommitted = true) : ∃ new', s'.txs = old ++ new' := by
  -- the transaction a step acts on is not committed, so it is not one of `old`
  have hreplace : ∀ {l r : List Tx} {x y : Tx}, s.txs = l ++ x :: r →
      x.phase.isCommitted = false → ∃ new', l ++ y :: r = old ++ new' := by
    intro l r x y hsplit hx
    rcases List.append_eq_append_iff.mp (htxs.symm.trans hsplit) with ⟨m, hl, -⟩ | ⟨m, hl, hr⟩
    · exact ⟨m ++ y :: r, by rw [hl, List.append_assoc]⟩
    · cases m with
      | nil => exact ⟨y :: r, by rw [hl, List.append_nil]⟩
      | cons z m =>
        have hmem : x ∈ old := by
          rw [hl, (List.cons.inj hr).1]
          simp
        exact absurd (hold x hmem) (by simp [hx])
  cases hstep with
  | crash => exact absurd rfl ha
  | @reserve v =>
    exact ⟨new ++ [⟨s.log.tail, v, .writing 0⟩], by simp [LogState.reserve, htxs]⟩
  | write _ hsplit => exact hreplace hsplit rfl
  | drain _ hsplit => exact hreplace hsplit rfl
  | persistTail _ hsplit => exact hreplace hsplit rfl
  | take _ hsplit => exact hreplace hsplit rfl
  | store _ hsplit => exact hreplace hsplit rfl
  | persistId _ hsplit => exact hreplace hsplit rfl
  | evict => exact ⟨new, htxs⟩
  | reopen => exact ⟨new, htxs⟩
  | recover => exact ⟨new, htxs⟩

theorem run_keeps_committed (hno : .crash ∉ acts)
    (hrun : run (logStep play parentReady drainPersists) s acts = some s')
    (hall : s.AllCommitted) : ∃ new, s'.txs = s.txs ++ new :=
  (guarded_of_not_mem hno).invariant (I := fun t => ∃ new, t.txs = s.txs ++ new)
    (fun _ _ _ ⟨_, hnew⟩ ha hs => (logStep_sound hs).keeps_committed ha hnew hall)
    ⟨[], (List.append_nil _).symm⟩ hrun

end Session

/-! ## Recovery from a snapshot -/

section Snapshot

variable {play : DryRun} {parentReady : CommitRecord → Bool} {drainPersists : Bool}

/-- The commit ids in the log are the ids the transactions hold. -/
theorem commitIds_eq_claims {s : LogState} {txs : List Tx} (h : s.Holes)
    (hsub : ∀ tx ∈ txs, tx ∈ s.txs) (hall : ∀ tx ∈ txs, tx.phase.isCommitted = true) :
    (txs.map fun tx => recordAt s.log tx.offset).map CommitRecord.commitId =
      txs.map fun tx => tx.phase.claim := by
  rw [List.map_map]
  refine List.map_congr_left fun tx htx => ?_
  refine (h.hole tx (hsub tx htx)).trans ?_
  have hc := hall tx htx
  generalize tx.phase = p at hc
  cases p <;> first | rfl | cases hc

/-- The ids ahead of `p`, from the nonzero ids. -/
theorem map_filter_ahead (p : ℕ) (rs : List CommitRecord) :
    (rs.filter fun r => p < r.commitId).map CommitRecord.commitId =
      ((rs.map CommitRecord.commitId).filter fun c => c ≠ 0).filter fun c => p < c := by
  have hpred : (rs.filter fun r => p < r.commitId) =
      rs.filter ((fun c => decide (p < c) && decide (c ≠ 0)) ∘ CommitRecord.commitId) := by
    refine List.filter_congr fun r _ => ?_
    by_cases h : p < r.commitId
    · simp [h, Nat.ne_of_gt (lt_of_le_of_lt (Nat.zero_le _) h)]
    · simp [h]
  rw [hpred, ← List.filter_map, List.filter_filter]

/-- The ids ahead of `p` of records whose nonzero ids are `p + 1, …`. -/
theorem ahead_perm {p k : ℕ} {rs : List CommitRecord} {ids : List ℕ}
    (hids : rs.map CommitRecord.commitId = ids)
    (hperm : (ids.filter fun c => c ≠ 0).Perm (List.range' (p + 1) k)) :
    ((rs.filter fun r => p < r.commitId).map CommitRecord.commitId).Perm
      (List.range' (p + 1) k) := by
  have hself : ((List.range' (p + 1) k).filter fun c => p < c) = List.range' (p + 1) k := by
    refine List.filter_eq_self.mpr fun c hc => ?_
    rw [List.mem_range'_1] at hc
    exact decide_eq_true hc.1
  rw [map_filter_ahead, hids, ← hself]
  exact hperm.filter _

/-- The ids handed out behind a quiescent point continue those handed out before. -/
theorem claims_behind {s₁ s₂ : LogState} {new : List Tx} (h₁ : s₁.Session drainPersists)
    (h₂ : s₂.Session drainPersists) (htxs : s₂.txs = s₁.txs ++ new) :
    s₁.log.lastCommit ≤ s₂.log.lastCommit ∧
      ((new.map fun tx => tx.phase.claim).filter fun c => c ≠ 0).Perm
        (List.range' (s₁.log.lastCommit + 1) (s₂.log.lastCommit - s₁.log.lastCommit)) := by
  have hsplit : s₂.claims = s₁.claims ++ (new.map fun tx => tx.phase.claim).filter fun c => c ≠ 0 := by
    rw [LogState.claims, LogState.claims, htxs, List.map_append, List.filter_append]
  have hle : s₁.log.lastCommit ≤ s₂.log.lastCommit := by
    have l₁ := h₁.ids.length_eq
    have l₂ := h₂.ids.length_eq
    rw [hsplit, List.length_append] at l₂
    simp only [List.length_range'] at l₁ l₂
    omega
  refine ⟨hle, ?_⟩
  have hrange : List.range' 1 s₂.log.lastCommit = List.range' 1 s₁.log.lastCommit ++
      List.range' (s₁.log.lastCommit + 1) (s₂.log.lastCommit - s₁.log.lastCommit) := by
    rw [Nat.add_comm s₁.log.lastCommit 1, List.range'_append_1]
    congr 1
    omega
  have hids := h₂.ids
  rw [hsplit, hrange] at hids
  exact (List.perm_append_left_iff _).mp ((h₁.ids.append_right _).symm.trans hids)

/-- **Recovery from a snapshot.** Take a quiescent point of a run, and a later point at which all
transactions have committed. Recovery from the commit id and the tail saved at the first point plays
exactly what recovery from the start plays behind the commit ids of the first point; neither leaves
a record unplayed. -/
theorem recover_from_snapshot {id : Uuid} {size : ℕ} {acts₁ acts₂ : List LogAction}
    {s₁ s₂ : LogState} (hno : .crash ∉ acts₁ ++ acts₂)
    (h₁ : run (logStep play parentReady drainPersists) (.create id size) acts₁ = some s₁)
    (hsnap : s₁.AllCommitted)
    (h₂ : run (logStep play parentReady drainPersists) s₁ acts₂ = some s₂)
    (hend : s₂.AllCommitted) :
    (recoverEntries s₂.log (s₂.txs.map Tx.offset) s₁.log.lastCommit s₁.log.tail).played =
      (recoverEntries s₂.log (s₂.txs.map Tx.offset) 0 0).played.drop s₁.log.lastCommit ∧
    (recoverEntries s₂.log (s₂.txs.map Tx.offset) s₁.log.lastCommit s₁.log.tail).queue = [] ∧
    (recoverEntries s₂.log (s₂.txs.map Tx.offset) 0 0).queue = [] := by
  rw [List.mem_append, not_or] at hno
  have hs₁ : s₁.Session drainPersists := (LogState.Session.create id size).run hno.1 h₁
  have hs₂ := hs₁.run hno.2 h₂
  obtain ⟨new, htxs⟩ := run_keeps_committed hno.2 h₂ hsnap
  obtain ⟨hle, hnew⟩ := claims_behind hs₁ hs₂ htxs
  have htiles := htxs ▸ hs₂.holes.layout.tiles
  obtain ⟨t, htold, htnew⟩ := tiles_append.mp htiles
  obtain rfl : s₁.log.tail = t := hs₁.holes.layout.tiles.end_unique htold
  have hpos : s₁.log.tail ≠ 0 := by
    have := htold.le
    simp only [redoLogHeaderSize] at this
    omega
  -- the two sequences of records that are fed
  have hfull : recoverEntries s₂.log (s₂.txs.map Tx.offset) 0 0 =
      OrderedReplay.replay CommitRecord.commitId ⟨0, [], []⟩
        ((s₁.txs.map fun tx => recordAt s₂.log tx.offset) ++
          new.map fun tx => recordAt s₂.log tx.offset) := by
    rw [recoverEntries, if_pos rfl, hs₂.bytes.head.1, htxs, filter_offsets htiles, List.map_map,
      List.map_append]
    rfl
  have hback : recoverEntries s₂.log (s₂.txs.map Tx.offset) s₁.log.lastCommit s₁.log.tail =
      OrderedReplay.replay CommitRecord.commitId ⟨s₁.log.lastCommit, [], []⟩
        (new.map fun tx => recordAt s₂.log tx.offset) := by
    have hold : ((s₁.txs.map Tx.offset).filter fun o =>
        s₁.log.tail ≤ o ∧ o < s₂.log.tail) = [] := by
      refine List.filter_eq_nil_iff.mpr fun o ho => ?_
      obtain ⟨tx, htx, rfl⟩ := List.mem_map.mp ho
      have := (htold.mem_bounds htx).2
      have := tx.size_ge
      simp only [decide_eq_true_eq]
      omega
    rw [recoverEntries, if_neg hpos, htxs, List.map_append, List.filter_append, hold,
      List.nil_append, filter_offsets htnew, List.map_map]
    rfl
  have hkeys := ahead_perm (p := 0) (commitIds_eq_claims hs₂.holes
    (fun tx htx => htxs ▸ List.mem_append_left _ htx) hsnap) hs₁.ids
  have hkeys' := ahead_perm (commitIds_eq_claims hs₂.holes
    (fun tx htx => htxs ▸ List.mem_append_right _ htx)
    (fun tx htx => hend tx (htxs ▸ List.mem_append_right _ htx))) hnew
  obtain ⟨hqueue, hplayed⟩ := OrderedReplay.replay_append_complete CommitRecord.commitId
    (new.map fun tx => recordAt s₂.log tx.offset) (Nat.zero_le s₁.log.lastCommit) hkeys
  have hdone := (OrderedReplay.replay_complete CommitRecord.commitId hle hkeys').2.1
  rw [hback, hfull, hqueue]
  exact ⟨hplayed.symm, hdone, hdone⟩

/-- A snapshot behind one committed transaction; two more append in one order and commit in the
other. -/
theorem recover_from_snapshot_reversed :
    ∃ s₁ s₂, run (logStep vectorPlay (fun _ => true) true) (.create 0 1024)
        (appendActions 0 [bytesLE 1 8, [65, 0]] ++ commitActions 0) = some s₁ ∧
      run (logStep vectorPlay (fun _ => true) true) s₁
        (appendActions 1 [bytesLE 1 8, [66, 0]] ++ appendActions 2 [bytesLE 1 8, [67, 0]] ++
          commitActions 2 ++ commitActions 1) = some s₂ ∧
      (recoverEntries s₂.log (s₂.txs.map Tx.offset) s₁.log.lastCommit s₁.log.tail).played =
        (recoverEntries s₂.log (s₂.txs.map Tx.offset) 0 0).played.drop s₁.log.lastCommit ∧
      (recoverEntries s₂.log (s₂.txs.map Tx.offset) 0 0).played.map CommitRecord.ptr =
        [88, 216, 152] := by
  obtain ⟨s₁, h₁, hsnap, s₂, h₂, hend, hptr⟩ :
      ∃ s₁, run (logStep vectorPlay (fun _ => true) true) (.create 0 1024)
          (appendActions 0 [bytesLE 1 8, [65, 0]] ++ commitActions 0) = some s₁ ∧ s₁.AllCommitted ∧
        ∃ s₂, run (logStep vectorPlay (fun _ => true) true) s₁
          (appendActions 1 [bytesLE 1 8, [66, 0]] ++ appendActions 2 [bytesLE 1 8, [67, 0]] ++
            commitActions 2 ++ commitActions 1) = some s₂ ∧ s₂.AllCommitted ∧
          (recoverEntries s₂.log (s₂.txs.map Tx.offset) 0 0).played.map CommitRecord.ptr =
            [88, 216, 152] :=
    ⟨_, rfl, by decide, _, rfl, by decide, by decide⟩
  exact ⟨s₁, s₂, h₁, h₂, (recover_from_snapshot (by decide) h₁ hsnap h₂ hend).1, hptr⟩

end Snapshot

/-! ## Recovery after a crash -/

/-- Recovery finishes and plays, in order, exactly the entries with commit ids `1, …, n`, for the
largest `n` such that all of these ids are present. -/
def RecoversPrefix (play : DryRun) (parentReady : CommitRecord → Bool) (log : RedoLog)
    (offsets : List ℕ) : Prop :=
  ∃ st n, recover play parentReady log 0 0 = .ok st ∧
    (∀ k, 0 < k → k ≤ n → ∃ o ∈ offsets, load log.data o 8 = k) ∧
    (¬ ∃ o ∈ offsets, load log.data o 8 = n + 1) ∧
    st.replay.played.map CommitRecord.commitId = List.range' 1 n ∧
    ∀ r ∈ st.replay.played, ∃ o ∈ offsets, r = recordAt log o

/-- Every id below one that is present is present. -/
def NoGap (log : RedoLog) (offsets : List ℕ) : Prop :=
  ∀ o ∈ offsets, ∀ k, 0 < k → k ≤ load log.data o 8 → ∃ o' ∈ offsets, load log.data o' 8 = k

section Crash

variable {play : DryRun} {parentReady : CommitRecord → Bool}

/-- Recovery over entries with distinct ids that computes what the entries say recovers the longest
gap-free sequence exactly when there is no gap behind it. -/
theorem recoversPrefix_iff {log : RedoLog} {offsets : List ℕ} {visited : List Visit}
    {st : OrderedReplay.State CommitRecord}
    (hst : st = OrderedReplay.replay CommitRecord.commitId ⟨0, [], []⟩
      (offsets.map (recordAt log)))
    (hrec : recover play parentReady log 0 0 =
      if st.queue = [] then .ok ⟨log.tail, visited, st⟩ else .error .queueNotEmpty)
    (hnd : ((offsets.map fun o => load log.data o 8).filter fun c => c ≠ 0).Nodup) :
    RecoversPrefix play parentReady log offsets ↔ NoGap log offsets := by
  have hkeys : (((offsets.map (recordAt log)).filter fun r => 0 < r.commitId).map
      CommitRecord.commitId).Nodup := by
    rw [map_filter_ahead, List.map_map]
    exact hnd.filter _
  have hinv := OrderedReplay.replay_inv CommitRecord.commitId hkeys
  rw [← hst] at hinv
  have hgap := hinv.queue_eq_nil_iff CommitRecord.commitId
  simp only [List.mem_map, forall_exists_index, and_imp, forall_apply_eq_imp_iff₂,
    exists_exists_and_eq_and] at hgap
  constructor
  · -- the assertion at the end has passed, so the queue is empty
    rintro ⟨st', n, hok, -⟩
    have hqueue : st.queue = [] := by
      by_contra hne
      rw [hrec, if_neg hne] at hok
      cases hok
    intro o ho k hk hle
    exact hgap.mp hqueue o ho (lt_of_lt_of_le hk hle) k hk hle
  · intro hno
    have hqueue : st.queue = [] := hgap.mpr fun o ho _ k hk hle => hno o ho k hk hle
    have hmem : ∀ r, r ∈ st.played ↔ (∃ o ∈ offsets, recordAt log o = r) ∧ 0 < r.commitId :=
      fun r => by simpa [hqueue] using hinv.mem_iff CommitRecord.commitId r
    have hrange := hinv.played_keys
    rw [Nat.sub_zero, Nat.zero_add] at hrange
    refine ⟨_, st.last, by rw [hrec, if_pos hqueue], fun k hk hle => ?_, ?_, hrange, ?_⟩
    · obtain ⟨r, hr, rfl⟩ :=
        List.mem_map.mp ((hinv.mem_played CommitRecord.commitId).mpr ⟨hk, hle⟩)
      obtain ⟨⟨o, ho, rfl⟩, -⟩ := (hmem r).mp hr
      exact ⟨o, ho, rfl⟩
    · rintro ⟨o, ho, hlast⟩
      have hplayed := (hmem (recordAt log o)).mpr ⟨⟨o, ho, rfl⟩, by simp [recordAt, hlast]⟩
      have := ((hinv.mem_played CommitRecord.commitId).mp (List.mem_map_of_mem hplayed)).2
      simp only [recordAt, hlast] at this
      omega
    · intro r hr
      obtain ⟨⟨o, ho, rfl⟩, -⟩ := (hmem r).mp hr
      exact ⟨o, ho, rfl⟩

/-- **Recovery after a crash.** Let any interleaving of transactions end in a crash at which every
entry below the durable tail had been drained and none of these entries fills its last cache line.
Recovery of the surviving log finishes and plays the longest gap-free sequence of commit ids if and
only if the surviving ids have no gap. The waits of the surviving nested entries have to return. -/
theorem recover_after_crash_iff {id : Uuid} {size : ℕ} {acts : List LogAction} {s s' : LogState}
    (hno : .crash ∉ acts)
    (hrun : run (logStep play parentReady true) (.create id size) acts = some s)
    (hcalls : ∀ tx ∈ s.txs, ∃ c : LogCall play, c.vector = tx.vector)
    (hdrained : ∀ tx ∈ s.txs, tx.offset < s.durable.tail → tx.phase.isDrained = true)
    (hline : ∀ tx ∈ s.txs, tx.offset < s.durable.tail →
      (16 + tx.vector.flatten.length) % cacheLineWidth ≠ 0)
    (hcrash : run (logStep play parentReady true) s [.crash, .reopen] = some s')
    (hready : ParentsReady parentReady 0 (s'.txs.map fun tx => recordAt s'.log tx.offset)) :
    RecoversPrefix play parentReady s'.log (s'.txs.map Tx.offset) ↔
      NoGap s'.log (s'.txs.map Tx.offset) := by
  have hs : s.Session true := (LogState.Session.create id size).run hno hrun
  -- the state of the next session
  obtain ⟨hlog, htxs⟩ : s'.log = { s.durable with snapshotLock := 0 } ∧ s'.txs = s.survivors := by
    obtain ⟨t, ht, hcrash⟩ := run_cons.mp hcrash
    obtain ⟨u, hu, hcrash⟩ := run_cons.mp hcrash
    cases hcrash
    cases logStep_sound ht
    cases logStep_sound hu
    exact ⟨rfl, rfl⟩
  have hsurv : ∀ tx' ∈ s'.txs, ∃ tx ∈ s.txs, tx.offset < s.durable.tail ∧
      tx'.offset = tx.offset ∧ tx'.vector = tx.vector := by
    intro tx' htx'
    rw [htxs] at htx'
    obtain ⟨tx, htx, rfl⟩ := List.mem_map.mp htx'
    exact ⟨tx, List.mem_of_mem_filter htx, by simpa using List.of_mem_filter htx, rfl, rfl⟩
  have htiles : Tiles Tx.offset Tx.size redoLogHeaderSize s'.txs s'.log.tail := by
    rw [htxs, hlog]
    exact hs.holes.layout.crash.tiles
  have hhead : (if 0 = 0 then s'.log.head else 0) = redoLogHeaderSize := by
    rw [if_pos rfl, hlog]
    exact hs.bytes.head.2
  have hrec : recover play parentReady s'.log 0 0 = _ := recover_eq hready hhead htiles
    (fun tx' htx' => by
      obtain ⟨tx, htx, -, -, hv⟩ := hsurv tx' htx'
      exact hv ▸ hcalls tx htx)
    (fun tx' htx' => by
      obtain ⟨tx, htx, hlt, ho, hv⟩ := hsurv tx' htx'
      rw [Tx.InLog, ho, hv, hlog]
      exact hs.bytes.durable rfl tx htx (hdrained tx htx hlt))
    (fun tx' htx' => by
      obtain ⟨tx, htx, hlt, ho, hv⟩ := hsurv tx' htx'
      rw [Tx.size, ho, hv, hlog]
      exact (hs.bytes.fits tx htx (hdrained tx htx hlt)).trans (le_of_eq hs.bytes.size.symm))
    (fun tx' htx' => by
      obtain ⟨tx, htx, hlt, -, hv⟩ := hsurv tx' htx'
      exact hv ▸ hline tx htx hlt)
  refine recoversPrefix_iff ?_ hrec ?_
  · rw [recoverEntries, hhead, filter_offsets htiles]
  · have hids : (s'.txs.map Tx.offset).map (fun o => load s'.log.data o 8) =
        (s.txs.filter fun tx => tx.offset < s.durable.tail).map fun tx =>
          load s.durable.data tx.offset 8 := by
      rw [htxs, hlog, LogState.survivors, List.map_map, List.map_map]
      rfl
    rw [hids]
    exact hs.holes.durableIds_nodup (hs.ids.nodup_iff.mpr List.nodup_range')

/-- Two transactions commit; the second takes and persists its id before the first, which holds
id 1, has stored its own. -/
def crossedCommits : List LogAction :=
  appendActions 0 [bytesLE 1 8, [65, 0]] ++ appendActions 1 [bytesLE 1 8, [66, 0]] ++
    [.take 0, .take 1, .store 1, .persistId 1]

/-- When the first commit completes as well, recovery plays both. -/
theorem recover_after_crash_complete :
    ∃ s s', run (logStep vectorPlay (fun _ => true) true) (.create 0 1024)
        (crossedCommits ++ [.store 0, .persistId 0]) = some s ∧
      run (logStep vectorPlay (fun _ => true) true) s [.crash, .reopen] = some s' ∧
      RecoversPrefix vectorPlay (fun _ => true) s'.log (s'.txs.map Tx.offset) := by
  obtain ⟨s, hrun, hcalls, hdrained, hline, s', hcrash, hgap⟩ :
      ∃ s, run (logStep vectorPlay (fun _ => true) true) (.create 0 1024)
          (crossedCommits ++ [.store 0, .persistId 0]) = some s ∧
        (s.txs.map Tx.vector = [[bytesLE 1 8, [65, 0]], [bytesLE 1 8, [66, 0]]]) ∧
        (∀ tx ∈ s.txs, tx.offset < s.durable.tail → tx.phase.isDrained = true) ∧
        (∀ tx ∈ s.txs, tx.offset < s.durable.tail →
          (16 + tx.vector.flatten.length) % cacheLineWidth ≠ 0) ∧
        ∃ s', run (logStep vectorPlay (fun _ => true) true) s [.crash, .reopen] = some s' ∧
          (s'.txs.map Tx.offset).map (fun o => load s'.log.data o 8) = [1, 2] :=
    ⟨_, rfl, by decide, by decide, by decide, _, rfl, by decide⟩
  refine ⟨s, s', hrun, hcrash, (recover_after_crash_iff (by decide) hrun
    (fun tx htx => ?_) hdrained hline hcrash (parentsReady_true _ _)).mpr ?_⟩
  · have hv := hcalls ▸ List.mem_map_of_mem (f := Tx.vector) htx
    simp only [List.mem_cons, List.not_mem_nil, or_false] at hv
    rcases hv with hv | hv
    · exact ⟨pushBackCall [65] (by decide), hv.symm⟩
    · exact ⟨pushBackCall [66] (by decide), hv.symm⟩
  · intro o ho k hk hle
    have hmem : ∀ j, j ∈ [1, 2] ↔ ∃ o ∈ s'.txs.map Tx.offset, load s'.log.data o 8 = j := fun j => by
      rw [← hgap, List.mem_map]
    have := (hmem _).mpr ⟨o, ho, rfl⟩
    refine (hmem k).mp ?_
    simp only [List.mem_cons, List.not_mem_nil, or_false] at this ⊢
    omega

/-- A crash at this point leaves id 2 without id 1: recovery stops on its last assertion. -/
theorem gap_stops_recovery :
    ∃ s s', run (logStep vectorPlay (fun _ => true) true) (.create 0 1024) crossedCommits = some s ∧
      run (logStep vectorPlay (fun _ => true) true) s [.crash, .reopen] = some s' ∧
      (s'.txs.map Tx.offset).map (fun o => load s'.log.data o 8) = [0, 2] ∧
      recover vectorPlay (fun _ => true) s'.log 0 0 = .error .queueNotEmpty ∧
      ¬ RecoversPrefix vectorPlay (fun _ => true) s'.log (s'.txs.map Tx.offset) := by
  obtain ⟨s, hrun, s', hcrash, hids, hfault⟩ :
      ∃ s, run (logStep vectorPlay (fun _ => true) true) (.create 0 1024) crossedCommits = some s ∧
        ∃ s', run (logStep vectorPlay (fun _ => true) true) s [.crash, .reopen] = some s' ∧
          (s'.txs.map Tx.offset).map (fun o => load s'.log.data o 8) = [0, 2] ∧
          recover vectorPlay (fun _ => true) s'.log 0 0 = .error .queueNotEmpty :=
    ⟨_, rfl, _, rfl, by decide, rfl⟩
  refine ⟨s, s', hrun, hcrash, hids, hfault, ?_⟩
  rintro ⟨st, n, hok, -⟩
  rw [hfault] at hok
  cases hok

end Crash

end Pronto
