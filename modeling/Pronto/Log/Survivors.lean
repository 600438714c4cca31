import Pronto.Log.Replay
import Pronto.Thread.CallLogs

/-!
# What a crash leaves of the calls behind a snapshot

An append that has returned has made the tail behind its entry durable, and a commit that has
returned has made its commit id durable (`LogState.Promises`). So the entries that survive a crash
behind a quiescent point are an initial part of those reserved behind it, and they include every
committed one.

* `recover_survivors`: whenever recovery from a quiescent point finishes, it has played the calls
  with the next commit ids, each from its own bytes, and every committed call is one of them.
* `recover_between_commits`: it does finish when no thread was inside `Savitar_log_commit`, and then
  it has played every call that has a commit id.
-/

namespace Pronto

open Memory Tiling Runs

/-! ## The promises of append and commit -/

/-- What the calls that have returned say about the durable image. -/
structure LogState.Promises (s : LogState) : Prop where
  tail : ∀ tx ∈ s.txs, tx.phase.isAppended = true → tx.offset + tx.size ≤ s.durable.tail
  commitId : ∀ tx ∈ s.txs, ∀ n, tx.phase = .committed n → load s.durable.data tx.offset 8 = n

section Promises

variable {drainPersists : Bool} {s s' : LogState} {l r : List Tx} {off : ℕ}
  {v : List (List UInt8)} {p q : Phase}

theorem LogState.Promises.create (id : Uuid) (size : ℕ) : (LogState.create id size).Promises :=
  ⟨by simp [LogState.create], by simp [LogState.create]⟩

theorem LogState.Promises.writeBack (h : s.Promises) (hs : s.Holes) (lines : ℕ → Bool) :
    ({ s with durable := Pronto.writeBack lines s.log s.durable } : LogState).Promises where
  tail := fun tx htx hp => by
    rcases writeBack_tail lines s.log s.durable with heq | heq
    · exact (h.tail tx htx hp).trans (le_of_eq heq.symm)
    · exact (hs.layout.tiles.mem_bounds htx).2.trans (le_of_eq heq.symm)
  commitId := fun tx htx n hn => by
    dsimp only
    rw [load_writeBack (hs.layout.aligned.2 tx htx)]
    split
    · rw [hs.hole tx htx, hn, Phase.hole]
    · exact h.commitId tx htx n hn

/-- A phase change that promises nothing new, or something the durable image already holds. -/
theorem LogState.Promises.replace (h : s.Promises) (htxs : s.txs = l ++ ⟨off, v, p⟩ :: r)
    (htail : q.isAppended = true → p.isAppended = true ∨ off + entrySize v ≤ s.durable.tail)
    (hid : ∀ n, q = .committed n → load s.durable.data off 8 = n)
    (hdurable : s'.durable = s.durable) (htxs' : s'.txs = l ++ ⟨off, v, q⟩ :: r) :
    s'.Promises where
  tail := by
    rw [htxs', hdurable]
    exact forall_mem_replace (x := ⟨off, v, p⟩) (htxs ▸ h.tail) (fun _ _ => id)
      fun hx hq => (htail hq).elim hx id
  commitId := by
    rw [htxs', hdurable]
    exact forall_mem_replace (x := ⟨off, v, p⟩) (htxs ▸ h.commitId) (fun _ _ => id) fun _ => hid

/-- **Each step keeps the promises**: a call returns only behind its `pmem_persist`. -/
theorem LogState.Promises.step {a : LogAction} (h : s.Promises) (hs : s.Holes)
    (hstep : LogStep drainPersists s a s') (ha : a ≠ .crash) : s'.Promises := by
  cases hstep with
  | crash => exact absurd rfl ha
  | reserve =>
    refine ⟨List.forall_mem_append.mpr ⟨h.tail, ?_⟩, List.forall_mem_append.mpr ⟨h.commitId, ?_⟩⟩
    · simp [Phase.isAppended]
    · simp
  | write _ htxs =>
    exact h.replace (q := .writing _) htxs (by simp [Phase.isAppended]) (by simp) rfl rfl
  | drain _ htxs =>
    cases drainPersists
    · exact h.replace (q := .drained) htxs (by simp [Phase.isAppended]) (by simp) rfl rfl
    · exact (h.writeBack hs _).replace (q := .drained) htxs (by simp [Phase.isAppended]) (by simp)
        rfl rfl
  | @persistTail i l r off v _ htxs =>
    have hbound := (hs.layout.tiles.mem_bounds
      (show (⟨off, v, .drained⟩ : Tx) ∈ s.txs by simp [htxs])).2
    exact (h.writeBack hs (covers tailFieldOffset 8)).replace (q := .appended) htxs
      (fun _ => Or.inr hbound) (by simp) rfl rfl
  | take _ htxs => exact h.replace (q := .taken _) htxs (fun _ => Or.inl rfl) (by simp) rfl rfl
  | store _ htxs => exact h.replace (q := .stored _) htxs (fun _ => Or.inl rfl) (by simp) rfl rfl
  | @persistId i l r off id v _ htxs =>
    have hmem : (⟨off, v, .stored id⟩ : Tx) ∈ s.txs := by simp [htxs]
    refine (h.writeBack hs (covers off 8)).replace (q := .committed id) htxs (fun _ => Or.inl rfl)
      ?_ rfl rfl
    rintro n hn
    cases hn
    have hline : covers off 8 (off / cacheLineWidth) = true := by
      rw [covers, decide_eq_true_eq]
      simp only [cacheLineWidth]
      omega
    dsimp only
    rw [load_writeBack (hs.layout.aligned.2 _ hmem), if_pos hline]
    exact hs.hole _ hmem
  | evict => exact h.writeBack hs _
  | reopen => exact ⟨h.tail, h.commitId⟩
  | recover => exact ⟨h.tail, h.commitId⟩

/-- The promises hold after every run of the session. -/
theorem LogState.Promises.run {play : DryRun} {parentReady : CommitRecord → Bool}
    {acts : List LogAction} (h : s.Promises) (hs : s.Session drainPersists) (hno : .crash ∉ acts)
    (hrun : run (logStep play parentReady drainPersists) s acts = some s') : s'.Promises :=
  ((guarded_of_not_mem hno).invariant (I := fun t => t.Session drainPersists ∧ t.Promises)
    (fun _ _ _ ⟨ht, hp⟩ ha hstep =>
      ⟨ht.step (logStep_sound hstep) ha, hp.step ht.holes (logStep_sound hstep) ha⟩)
    ⟨hs, h⟩ hrun).2

end Promises

/-! ## The entries behind a quiescent point -/

/-- A crash and the next start leave the durable image. -/
theorem run_crash_reopen {play : DryRun} {parentReady : CommitRecord → Bool}
    {drainPersists : Bool} {s s' : LogState}
    (h : run (logStep play parentReady drainPersists) s [.crash, .reopen] = some s') :
    s'.log = { s.durable with snapshotLock := 0 } ∧ s'.txs = s.survivors := by
  obtain ⟨t, ht, h⟩ := run_cons.mp h
  obtain ⟨u, hu, h⟩ := run_cons.mp h
  cases h
  cases logStep_sound ht
  cases logStep_sound hu
  exact ⟨rfl, rfl⟩

/-- No thread is inside `Savitar_log_commit`: whoever holds a commit id has committed. -/
def LogState.BetweenCommits (s : LogState) : Prop :=
  ∀ tx ∈ s.txs, tx.phase.claim ≠ 0 → tx.phase.isCommitted = true

instance (s : LogState) : Decidable s.BetweenCommits :=
  inferInstanceAs (Decidable (∀ tx ∈ s.txs, tx.phase.claim ≠ 0 → tx.phase.isCommitted = true))

/-- The entries in a list that a crash leaves. -/
def LogState.live (s : LogState) (txs : List Tx) : List Tx :=
  txs.filter fun tx => tx.offset < s.durable.tail

/-- A point of a session, an earlier quiescent point, and what was reserved in between. -/
structure Behind (s₁ s : LogState) (new : List Tx) : Prop where
  before : s₁.Session true
  after : s.Session true
  promises : s.Promises
  quiescent : s₁.AllCommitted
  txs : s.txs = s₁.txs ++ new

section Behind

variable {s₁ s : LogState} {new : List Tx}

theorem Phase.isAppended_of_isCommitted {p : Phase} (h : p.isCommitted = true) :
    p.isAppended = true := by
  cases p <;> first | rfl | cases h

theorem Phase.eq_committed {p : Phase} (h : p.isCommitted = true) : p = .committed p.claim := by
  cases p <;> first | rfl | cases h

namespace Behind

variable (h : Behind s₁ s new)

include h

/-- What has been appended survives. -/
theorem mem_live {tx : Tx} (htx : tx ∈ new) (hp : tx.phase.isAppended = true) :
    tx ∈ s.live new := by
  have htail := h.promises.tail tx (h.txs ▸ List.mem_append_right _ htx) hp
  have hsize := tx.size_ge
  exact List.mem_filter.mpr ⟨htx, decide_eq_true (by omega)⟩

theorem live_txs : s.live s.txs = s₁.txs ++ s.live new := by
  rw [LogState.live, h.txs, List.filter_append]
  refine congrArg (· ++ _) (List.filter_eq_self.mpr fun tx htx => ?_)
  have htail := h.promises.tail tx (h.txs ▸ List.mem_append_left _ htx)
    (Phase.isAppended_of_isCommitted (h.quiescent tx htx))
  have hsize := tx.size_ge
  exact decide_eq_true (by omega)

/-- The survivors behind the quiescent point tile the durable log from its tail on. -/
theorem tiles : Tiles Tx.offset Tx.size s₁.log.tail (s.live new) s.durable.tail := by
  obtain ⟨n, hn, htiles⟩ := h.after.holes.layout.filter_txs
  rw [← hn] at htiles
  have hsplit : (s.txs.filter fun tx => tx.offset < s.durable.tail) = s₁.txs ++ s.live new :=
    h.live_txs
  rw [hsplit] at htiles
  obtain ⟨t, hold, hnew⟩ := tiles_append.mp htiles
  rwa [h.before.holes.layout.tiles.end_unique hold]

/-- The id in the durable entry of a survivor is the one it holds, if there is one. -/
theorem durable_claim {tx : Tx} (htx : tx ∈ new) (hne : load s.durable.data tx.offset 8 ≠ 0) :
    load s.durable.data tx.offset 8 = tx.phase.claim := by
  have heq := (h.after.holes.durable tx (h.txs ▸ List.mem_append_right _ htx)).resolve_right hne
  rw [heq] at hne ⊢
  exact Phase.hole_eq_claim hne

/-- The ids held behind the quiescent point are the next ones. -/
theorem claim_bounds {tx : Tx} (htx : tx ∈ new) (hne : tx.phase.claim ≠ 0) :
    s₁.log.lastCommit < tx.phase.claim ∧ tx.phase.claim ≤ s.log.lastCommit := by
  obtain ⟨hle, hperm⟩ := claims_behind h.before h.after h.txs
  have hmem : tx.phase.claim ∈ (new.map fun tx => tx.phase.claim).filter fun c => c ≠ 0 :=
    List.mem_filter.mpr ⟨List.mem_map_of_mem htx, decide_eq_true hne⟩
  have := List.mem_range'_1.mp (hperm.mem_iff.mp hmem)
  omega

theorem exists_claim {k : ℕ} (hlo : s₁.log.lastCommit < k) (hhi : k ≤ s.log.lastCommit) :
    ∃ tx ∈ new, tx.phase.claim = k := by
  obtain ⟨hle, hperm⟩ := claims_behind h.before h.after h.txs
  have hmem := hperm.mem_iff.mpr (List.mem_range'_1.mpr ⟨hlo, by omega⟩ : k ∈ _)
  exact List.mem_map.mp (List.mem_of_mem_filter hmem)

/-- The durable ids among the new entries are distinct. -/
theorem nodup_ids :
    (((s.live new).map fun tx => load s.durable.data tx.offset 8).filter fun c => c ≠ 0).Nodup := by
  have hnd := h.after.holes.durableIds_nodup (h.after.ids.nodup_iff.mpr List.nodup_range')
  have hids : s.durableIds =
      ((s.live s.txs).map fun tx => load s.durable.data tx.offset 8).filter fun c => c ≠ 0 := rfl
  rw [hids, h.live_txs, List.map_append, List.filter_append] at hnd
  exact (List.nodup_append.mp hnd).2.1

end Behind

end Behind

/-! ## Recovery from the quiescent point -/

/-- A crash that leaves only entries the scan can step over: calls whose bytes are all durable, none
of which fills its last cache line. -/
structure LogState.Scannable (play : DryRun) (s : LogState) : Prop where
  calls : ∀ tx ∈ s.txs, ∃ c : LogCall play, c.vector = tx.vector
  drained : ∀ tx ∈ s.txs, tx.offset < s.durable.tail → tx.phase.isDrained = true
  line : ∀ tx ∈ s.txs, tx.offset < s.durable.tail →
    (16 + tx.vector.flatten.length) % cacheLineWidth ≠ 0

section Recover

variable {play : DryRun} {parentReady : CommitRecord → Bool} {s₁ s : LogState} {log : RedoLog}
  {new : List Tx} {logHead : ℕ}

theorem Behind.inLog (h : Behind s₁ s new) (hscan : s.Scannable play)
    (hlog : log = { s.durable with snapshotLock := 0 }) {tx : Tx} (htx : tx ∈ s.live new) :
    tx.InLog log := by
  have hmem : tx ∈ s.txs := h.txs ▸ List.mem_append_right _ (List.mem_of_mem_filter htx)
  rw [Tx.InLog, hlog]
  exact h.after.bytes.durable rfl tx hmem
    (hscan.drained tx hmem (by simpa using List.of_mem_filter htx))

/-- Recovery of the bytes that survive is the ordered replay of the surviving entries. -/
theorem Behind.recover_eq (h : Behind s₁ s new) (hscan : s.Scannable play)
    (hready : ParentsReady parentReady s₁.log.lastCommit
      ((s.live new).map fun tx => recordAt log tx.offset))
    (hlog : log = { s.durable with snapshotLock := 0 })
    (hhead : (if logHead = 0 then log.head else logHead) = s₁.log.tail) :
    ∃ visited st, st = OrderedReplay.replay CommitRecord.commitId ⟨s₁.log.lastCommit, [], []⟩
        ((s.live new).map fun tx => recordAt log tx.offset) ∧
      recover play parentReady log s₁.log.lastCommit logHead =
        if st.queue = [] then .ok ⟨log.tail, visited, st⟩ else .error .queueNotEmpty := by
  have hmem : ∀ tx ∈ s.live new, tx ∈ s.txs ∧ tx.offset < s.durable.tail := fun tx htx =>
    ⟨h.txs ▸ List.mem_append_right _ (List.mem_of_mem_filter htx),
      by simpa using List.of_mem_filter htx⟩
  have htiles : Tiles Tx.offset Tx.size s₁.log.tail (s.live new) log.tail := by
    rw [hlog]
    exact h.tiles
  refine ⟨_, _, ?_, Pronto.recover_eq hready hhead htiles
    (fun tx htx => hscan.calls tx (hmem tx htx).1) (fun tx htx => h.inLog hscan hlog htx)
    (fun tx htx => ?_) (fun tx htx => hscan.line tx (hmem tx htx).1 (hmem tx htx).2)⟩
  · simp only [recoverEntries, hhead, filter_offsets htiles, List.map_map]
    rfl
  · obtain ⟨hin, hlt⟩ := hmem tx htx
    rw [hlog]
    exact (h.after.bytes.fits tx hin (hscan.drained tx hin hlt)).trans
      (le_of_eq h.after.bytes.size.symm)

/-- The replay of the surviving entries, with their ids distinct. -/
theorem Behind.replay_inv (h : Behind s₁ s new)
    (hlog : log = { s.durable with snapshotLock := 0 }) :
    OrderedReplay.Inv CommitRecord.commitId s₁.log.lastCommit
      ((s.live new).map fun tx => recordAt log tx.offset)
      (OrderedReplay.replay CommitRecord.commitId ⟨s₁.log.lastCommit, [], []⟩
        ((s.live new).map fun tx => recordAt log tx.offset)) := by
  refine OrderedReplay.replay_inv CommitRecord.commitId ?_
  rw [map_filter_ahead, List.map_map, hlog]
  exact h.nodup_ids.filter _

/-- **Recovery from a quiescent point after a crash.** Whenever it finishes, it has played
transactions with consecutive ids behind that point, each from the bytes of its own append, and
among them every transaction that had committed. -/
theorem recover_survivors {st : RecoverState} (h : Behind s₁ s new) (hscan : s.Scannable play)
    (hready : ParentsReady parentReady s₁.log.lastCommit
      ((s.live new).map fun tx => recordAt log tx.offset))
    (hlog : log = { s.durable with snapshotLock := 0 })
    (hhead : (if logHead = 0 then log.head else logHead) = s₁.log.tail)
    (hok : recover play parentReady log s₁.log.lastCommit logHead = .ok st) :
    ∃ n, s₁.log.lastCommit + n ≤ s.log.lastCommit ∧
      st.replay.played.map CommitRecord.commitId = List.range' (s₁.log.lastCommit + 1) n ∧
      (∀ tx ∈ new, tx.phase.isCommitted = true → tx.phase.claim ≤ s₁.log.lastCommit + n) ∧
      ∀ r ∈ st.replay.played, ∃ tx ∈ new, tx.phase.claim = r.commitId ∧ tx.InLog log ∧
        r = recordAt log tx.offset := by
  obtain ⟨visited, st', hst, hrec⟩ := h.recover_eq hscan hready hlog hhead
  have hinv := h.replay_inv hlog
  rw [← hst] at hinv
  have hqueue : st'.queue = [] := by
    by_contra hne
    rw [hrec, if_neg hne] at hok
    cases hok
  rw [hrec, if_pos hqueue] at hok
  cases hok
  have hmem : ∀ r, r ∈ st'.played ↔
      (∃ tx ∈ s.live new, recordAt log tx.offset = r) ∧ s₁.log.lastCommit < r.commitId :=
    fun r => by simpa [hqueue] using hinv.mem_iff CommitRecord.commitId r
  have hplayed : ∀ r ∈ st'.played, ∃ tx ∈ new, tx.phase.claim = r.commitId ∧ tx.InLog log ∧
      r = recordAt log tx.offset := by
    intro r hr
    obtain ⟨⟨tx, htx, rfl⟩, hlt⟩ := (hmem r).mp hr
    have hid : (recordAt log tx.offset).commitId = load s.durable.data tx.offset 8 := by
      rw [recordAt, hlog]
    refine ⟨tx, List.mem_of_mem_filter htx, ?_, h.inLog hscan hlog htx, rfl⟩
    rw [hid] at hlt ⊢
    exact (h.durable_claim (List.mem_of_mem_filter htx) (by omega)).symm
  have hle := hinv.le
  refine ⟨st'.last - s₁.log.lastCommit, ?_, hinv.played_keys, fun tx htx hcomm => ?_, hplayed⟩
  · -- the last number played is held by one of the transactions
    rcases Nat.eq_or_lt_of_le hle with heq | hlt
    · have := (claims_behind h.before h.after h.txs).1
      omega
    · obtain ⟨r, hr, hlast⟩ :=
        List.mem_map.mp ((hinv.mem_played CommitRecord.commitId).mpr ⟨hlt, le_rfl⟩)
      obtain ⟨tx, htx, hclaim, -, -⟩ := hplayed r hr
      have := (h.claim_bounds htx (by omega)).2
      omega
  · -- a committed transaction survives with its id, so it is played
    have hload : (recordAt log tx.offset).commitId = tx.phase.claim := by
      rw [recordAt, hlog]
      exact h.promises.commitId tx (h.txs ▸ List.mem_append_right _ htx) _
        (Phase.eq_committed hcomm)
    by_contra hgt
    have hahead : s₁.log.lastCommit < tx.phase.claim := by omega
    have hr := (hmem _).mpr ⟨⟨tx, h.mem_live htx (Phase.isAppended_of_isCommitted hcomm), rfl⟩,
      hload.symm ▸ hahead⟩
    have := ((hinv.mem_played CommitRecord.commitId).mp (List.mem_map_of_mem hr)).2
    omega

/-- A crash outside `Savitar_log_commit` leaves no gap: recovery finishes, having played every
transaction behind the quiescent point that holds a commit id. -/
theorem recover_between_commits (h : Behind s₁ s new) (hscan : s.Scannable play)
    (hready : ParentsReady parentReady s₁.log.lastCommit
      ((s.live new).map fun tx => recordAt log tx.offset))
    (hlog : log = { s.durable with snapshotLock := 0 })
    (hhead : (if logHead = 0 then log.head else logHead) = s₁.log.tail)
    (hbetween : s.BetweenCommits) :
    ∃ st, recover play parentReady log s₁.log.lastCommit logHead = .ok st ∧
      st.replay.played.length = s.log.lastCommit - s₁.log.lastCommit := by
  obtain ⟨visited, st, hst, hrec⟩ := h.recover_eq hscan hready hlog hhead
  have hinv := h.replay_inv hlog
  rw [← hst] at hinv
  -- the entry that holds an id is committed and survives
  have hfound : ∀ k, s₁.log.lastCommit < k → k ≤ s.log.lastCommit →
      ∃ tx ∈ s.live new, (recordAt log tx.offset).commitId = k := by
    intro k hlo hhi
    obtain ⟨tx, htx, hclaim⟩ := h.exists_claim hlo hhi
    have hmem : tx ∈ s.txs := h.txs ▸ List.mem_append_right _ htx
    have hcomm := hbetween tx hmem (by omega)
    refine ⟨tx, h.mem_live htx (Phase.isAppended_of_isCommitted hcomm), ?_⟩
    rw [recordAt, hlog, ← hclaim]
    exact h.promises.commitId tx hmem _ (Phase.eq_committed hcomm)
  have hqueue : st.queue = [] := by
    refine (hinv.queue_eq_nil_iff CommitRecord.commitId).mpr ?_
    simp only [List.mem_map, forall_exists_index, and_imp, forall_apply_eq_imp_iff₂,
      exists_exists_and_eq_and]
    intro tx htx hahead k hlo hhi
    have hnew := List.mem_of_mem_filter htx
    have hload : (recordAt log tx.offset).commitId = load s.durable.data tx.offset 8 := by
      rw [recordAt, hlog]
    rw [hload] at hahead hhi
    have hclaim := h.durable_claim hnew (by omega)
    exact hfound k hlo (hhi.trans (hclaim ▸ (h.claim_bounds hnew (by omega)).2))
  have hok : recover play parentReady log s₁.log.lastCommit logHead =
      .ok ⟨log.tail, visited, st⟩ := by
    rw [hrec, if_pos hqueue]
  obtain ⟨n, hle, hkeys, hcomm, -⟩ := recover_survivors h hscan hready hlog hhead hok
  have hlen : st.played.length = n := by simpa using congrArg List.length hkeys
  refine ⟨_, hok, ?_⟩
  rcases Nat.eq_or_lt_of_le (claims_behind h.before h.after h.txs).1 with heq | hlt
  · dsimp only
    omega
  · obtain ⟨tx, htx, hclaim⟩ := h.exists_claim hlt le_rfl
    have := hcomm tx htx (hbetween tx (h.txs ▸ List.mem_append_right _ htx) (by omega))
    dsimp only
    omega

/-- **Recovery from a snapshot after a crash.** Take a quiescent point of a run, let transactions go
on behind it, and let the process crash while no thread is inside `Savitar_log_commit`, with every
entry below the durable tail drained. Recovery of the durable log from the commit id and the tail of
the quiescent point finishes and plays, in the order of their ids, exactly the transactions that have
committed since, each from the bytes of its own append. The waits of the surviving nested entries
behind that point have to return. -/
theorem recover_behind_snapshot {id : Uuid} {size : ℕ} {acts₁ acts₂ : List LogAction}
    {s₁ s₂ s' : LogState} (hno : .crash ∉ acts₁ ++ acts₂)
    (h₁ : run (logStep play parentReady true) (.create id size) acts₁ = some s₁)
    (hsnap : s₁.AllCommitted) (h₂ : run (logStep play parentReady true) s₁ acts₂ = some s₂)
    (hscan : s₂.Scannable play) (hbetween : s₂.BetweenCommits)
    (hcrash : run (logStep play parentReady true) s₂ [.crash, .reopen] = some s')
    (hready : ParentsReady parentReady s₁.log.lastCommit
      (s'.txs.map fun tx => recordAt s'.log tx.offset)) :
    ∃ st, recover play parentReady s'.log s₁.log.lastCommit s₁.log.tail = .ok st ∧
      st.replay.played.map CommitRecord.commitId =
        List.range' (s₁.log.lastCommit + 1) (s₂.log.lastCommit - s₁.log.lastCommit) ∧
      ∀ r ∈ st.replay.played, ∃ tx ∈ s₂.txs, tx.phase = .committed r.commitId ∧
        tx.InLog s'.log ∧ r = recordAt s'.log tx.offset := by
  rw [List.mem_append, not_or] at hno
  have hs₁ : s₁.Session true := (LogState.Session.create id size).run hno.1 h₁
  have hp₁ := (LogState.Promises.create id size).run (.create id size) hno.1 h₁
  obtain ⟨new, htxs⟩ := run_keeps_committed hno.2 h₂ hsnap
  have hb : Behind s₁ s₂ new := ⟨hs₁, hs₁.run hno.2 h₂, hp₁.run hs₁ hno.2 h₂, hsnap, htxs⟩
  have hhead : (if s₁.log.tail = 0 then s'.log.head else s₁.log.tail) = s₁.log.tail := by
    have hle := hs₁.holes.layout.tiles.le
    simp only [redoLogHeaderSize] at hle
    rw [if_neg (by omega)]
  have hlog := (run_crash_reopen hcrash).1
  have hready : ParentsReady parentReady s₁.log.lastCommit
      ((s₂.live new).map fun tx => recordAt s'.log tx.offset) := by
    refine fun r hr => hready r ?_
    obtain ⟨tx, htx, rfl⟩ := List.mem_map.mp hr
    obtain ⟨hnew, hlt⟩ := List.mem_filter.mp htx
    have hlive : tx ∈ s₂.txs.filter fun tx => tx.offset < s₂.durable.tail :=
      List.mem_filter.mpr ⟨htxs ▸ List.mem_append_right _ hnew, hlt⟩
    rw [(run_crash_reopen hcrash).2, LogState.survivors, List.map_map]
    exact List.mem_map_of_mem hlive
  -- all ids belong to committed calls, so recovery finds no gap
  obtain ⟨st, hok, hlen⟩ := recover_between_commits hb hscan hready hlog hhead hbetween
  obtain ⟨n, -, hkeys, -, hplayed⟩ := recover_survivors hb hscan hready hlog hhead hok
  have hn : n = s₂.log.lastCommit - s₁.log.lastCommit := by
    rw [← hlen]
    simpa using (congrArg List.length hkeys).symm
  refine ⟨st, hok, hn ▸ hkeys, fun r hr => ?_⟩
  obtain ⟨tx, htx, hclaim, hin, hrec⟩ := hplayed r hr
  have hmem : tx ∈ s₂.txs := htxs ▸ List.mem_append_right _ htx
  have hpos : 0 < r.commitId := by
    have hid := List.mem_map_of_mem (f := CommitRecord.commitId) hr
    rw [hkeys, List.mem_range'_1] at hid
    omega
  exact ⟨tx, hmem, hclaim ▸ Phase.eq_committed (hbetween tx hmem (by omega)), hin, hrec⟩

/-- A snapshot behind one transaction; of the two behind it one has committed at the crash. -/
theorem recover_behind_snapshot_open :
    ∃ s₁ s₂ s' st, run (logStep vectorPlay (fun _ => true) true) (.create 0 1024)
        (appendActions 0 [bytesLE 1 8, [65, 0]] ++ commitActions 0) = some s₁ ∧
      run (logStep vectorPlay (fun _ => true) true) s₁
        (appendActions 1 [bytesLE 1 8, [66, 0]] ++ appendActions 2 [bytesLE 1 8, [67, 0]] ++
          commitActions 2) = some s₂ ∧
      run (logStep vectorPlay (fun _ => true) true) s₂ [.crash, .reopen] = some s' ∧
      recover vectorPlay (fun _ => true) s'.log s₁.log.lastCommit s₁.log.tail = .ok st ∧
      st.replay.played.map CommitRecord.commitId =
        List.range' (s₁.log.lastCommit + 1) (s₂.log.lastCommit - s₁.log.lastCommit) := by
  obtain ⟨s₁, h₁, hsnap, s₂, h₂, hvectors, hdrained, hline, hbetween, s', hcrash⟩ :
      ∃ s₁, run (logStep vectorPlay (fun _ => true) true) (.create 0 1024)
          (appendActions 0 [bytesLE 1 8, [65, 0]] ++ commitActions 0) = some s₁ ∧ s₁.AllCommitted ∧
        ∃ s₂, run (logStep vectorPlay (fun _ => true) true) s₁
            (appendActions 1 [bytesLE 1 8, [66, 0]] ++ appendActions 2 [bytesLE 1 8, [67, 0]] ++
              commitActions 2) = some s₂ ∧
          (s₂.txs.map Tx.vector =
            [[bytesLE 1 8, [65, 0]], [bytesLE 1 8, [66, 0]], [bytesLE 1 8, [67, 0]]]) ∧
          (∀ tx ∈ s₂.txs, tx.offset < s₂.durable.tail → tx.phase.isDrained = true) ∧
          (∀ tx ∈ s₂.txs, tx.offset < s₂.durable.tail →
            (16 + tx.vector.flatten.length) % cacheLineWidth ≠ 0) ∧ s₂.BetweenCommits ∧
          ∃ s', run (logStep vectorPlay (fun _ => true) true) s₂ [.crash, .reopen] = some s' :=
    ⟨_, rfl, by decide, _, rfl, by decide, by decide, by decide, by decide, _, rfl⟩
  have hcalls : ∀ tx ∈ s₂.txs, ∃ c : LogCall vectorPlay, c.vector = tx.vector := by
    intro tx htx
    have hv := hvectors ▸ List.mem_map_of_mem (f := Tx.vector) htx
    simp only [List.mem_cons, List.not_mem_nil, or_false] at hv
    rcases hv with hv | hv | hv
    · exact ⟨pushBackCall [65] (by decide), hv.symm⟩
    · exact ⟨pushBackCall [66] (by decide), hv.symm⟩
    · exact ⟨pushBackCall [67] (by decide), hv.symm⟩
  obtain ⟨st, hok, hids, -⟩ := recover_behind_snapshot (by decide) h₁ hsnap h₂
    ⟨hcalls, hdrained, hline⟩ hbetween hcrash (parentsReady_true _ _)
  exact ⟨s₁, s₂, s', st, h₁, h₂, hcrash, hok, hids⟩

end Recover

end Pronto
