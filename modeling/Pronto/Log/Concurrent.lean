import Pronto.Log.CommitIds

/-!
# Concurrent calls on one log

Any number of threads run `Savitar_log_append` and `Savitar_log_commit` on a new log, and their steps
interleave. In every state the reserved extents tile the file up to the tail, the ids in the entries
are distinct and counted by `last_commit`, and a step of a call writes only into the entry which that
call has reserved (`interleaved_calls`).
-/

namespace Pronto

open Memory Tiling Runs

/-- A step of `Savitar_log_append` or `Savitar_log_commit`, or a line written back on its own. -/
def LogAction.isCall : LogAction → Bool
  | .crash | .reopen | .recover _ _ => false
  | _ => true

/-- The transaction whose call takes the step. -/
def LogAction.caller : LogAction → Option ℕ
  | .write i | .drain i | .persistTail i | .take i | .store i | .persistId i => some i
  | _ => none

/-- The commit ids in the entries of the log. -/
def LogState.entryIds (s : LogState) : List ℕ :=
  (s.txs.map fun tx => load s.log.data tx.offset 8).filter fun c => c ≠ 0

section

variable {play : DryRun} {parentReady : CommitRecord → Bool} {drainPersists : Bool}
  {s s' : LogState} {a : LogAction}

/-- In the program's view the word in a hole is the id its transaction holds, or zero. -/
theorem LogState.Holes.entryIds_sublist (h : s.Holes) : s.entryIds.Sublist s.claims := by
  have hsub : ∀ txs : List Tx, (∀ tx ∈ txs, tx ∈ s.txs) →
      ((txs.map fun tx => load s.log.data tx.offset 8).filter fun c => c ≠ 0).Sublist
        ((txs.map fun tx => tx.phase.claim).filter fun c => c ≠ 0) := by
    intro txs htxs
    induction txs with
    | nil => exact List.Sublist.refl _
    | cons tx txs ih =>
      have hrest := ih fun y hy => htxs y (by simp [hy])
      have hhole := h.hole tx (htxs tx (by simp))
      by_cases hzero : tx.phase.hole = 0
      · rw [List.map_cons, hhole, hzero, List.filter_cons_of_neg (by simp), List.map_cons]
        refine hrest.trans ?_
        by_cases hclaim : tx.phase.claim = 0
        · rw [List.filter_cons_of_neg (by simp [hclaim])]
        · rw [List.filter_cons_of_pos (by simp [hclaim])]
          exact List.sublist_cons_self _ _
      · have hclaim := Phase.hole_eq_claim hzero
        rw [List.map_cons, hhole, List.map_cons, ← hclaim,
          List.filter_cons_of_pos (by simp [hzero]), List.filter_cons_of_pos (by simp [hzero])]
        exact hrest.cons_cons _
  exact hsub s.txs fun _ htx => htx

/-- What the step of a call stores, it stores into its own entry. -/
theorem txStep_data {i : ℕ} {tx : Tx} (h : txStep drainPersists s i tx a = some s') :
    s'.log.data = s.log.data ∨
      ∃ p bs, s'.log.data = store s.log.data p bs ∧ tx.offset ≤ p ∧
        p + bs.length ≤ tx.offset + tx.size := by
  have hsize := tx.length_le_size
  cases a with
  | write j =>
    rw [txStep] at h
    cases hp : tx.phase with
    | writing k =>
      rw [hp] at h
      obtain ⟨b, hb, rfl⟩ := Option.map_eq_some_iff.mp h
      have hk := (List.getElem?_eq_some_iff.mp hb).1
      refine .inr ⟨tx.offset + 8 + k, [b], rfl, by omega, ?_⟩
      rw [List.length_singleton]
      omega
    | _ => rw [hp] at h; cases h
  | drain j =>
    obtain ⟨-, h⟩ := Option.ite_none_right_eq_some.mp h
    cases h
    cases drainPersists <;> exact .inl rfl
  | persistTail j =>
    obtain ⟨-, h⟩ := Option.ite_none_right_eq_some.mp h
    cases h
    exact .inl rfl
  | take j =>
    obtain ⟨-, h⟩ := Option.ite_none_right_eq_some.mp h
    cases h
    exact .inl rfl
  | store j =>
    rw [txStep] at h
    cases hp : tx.phase with
    | taken id =>
      rw [hp] at h
      cases h
      refine .inr ⟨tx.offset, bytesLE id 8, rfl, le_rfl, ?_⟩
      rw [length_bytesLE]
      omega
    | _ => rw [hp] at h; cases h
  | persistId j =>
    rw [txStep] at h
    cases hp : tx.phase with
    | stored id =>
      rw [hp] at h
      cases h
      exact .inl rfl
    | _ => rw [hp] at h; cases h
  | _ => cases h

/-- Entries of different transactions do not overlap. -/
theorem LogState.Layout.apart (h : s.Layout) {i j : ℕ} {tx tx' : Tx} (hi : s.txs[i]? = some tx)
    (hj : s.txs[j]? = some tx') (hne : i ≠ j) :
    tx.offset + tx.size ≤ tx'.offset ∨ tx'.offset + tx'.size ≤ tx.offset := by
  have hnodup := h.tiles.nodup_starts fun y _ => lt_of_lt_of_le (by decide) y.size_ge
  refine h.tiles.disjoint (List.mem_of_getElem? hi) (List.mem_of_getElem? hj) fun heq => hne ?_
  have hlt : i < (s.txs.map Tx.offset).length := by
    simpa using (List.getElem?_eq_some_iff.mp hi).1
  refine (List.getElem?_inj hlt hnodup).mp ?_
  rw [List.getElem?_map, List.getElem?_map, hi, hj, Option.map_some, Option.map_some, heq]

/-- A step leaves every entry as it is, except the one that its own call has reserved. -/
theorem logStep_frame (h : s.Layout) (hcall : a.isCall = true)
    (hstep : logStep play parentReady drainPersists s a = some s') {j : ℕ} {tx' : Tx}
    (hj : s.txs[j]? = some tx') (hother : a.caller ≠ some j) {x : ℕ} (hlo : tx'.offset ≤ x)
    (hhi : x < tx'.offset + tx'.size) : s'.log.data x = s.log.data x := by
  have hown : ∀ i, a.caller = some i →
      (s.txs[i]?).bind (fun tx => txStep drainPersists s i tx a) = some s' →
      s'.log.data x = s.log.data x := by
    intro i hcaller hbind
    obtain ⟨tx, hi, htx⟩ := Option.bind_eq_some_iff.mp hbind
    have hne : i ≠ j := by
      rintro rfl
      exact hother hcaller
    have hapart := h.apart hi hj hne
    rcases txStep_data htx with hdata | ⟨p, bs, hdata, hp, hbs⟩
    · rw [hdata]
    · rw [hdata]
      exact store_of_outside (by omega)
  cases a with
  | reserve v =>
    obtain ⟨-, hstep⟩ := Option.ite_none_right_eq_some.mp hstep
    cases hstep
    rfl
  | evict line =>
    obtain ⟨-, hstep⟩ := Option.ite_none_right_eq_some.mp hstep
    cases hstep
    rfl
  | crash => cases hcall
  | reopen => cases hcall
  | recover => cases hcall
  | _ => exact hown _ rfl (Option.ite_none_right_eq_some.mp hstep).2

/-- **Interleaved calls.** In every state that appends and commits on a new log lead to, the extents
of the entries are aligned and tile the file from the header to the tail, the ids in the entries are
distinct and count up to `last_commit` at most, and no step of a call changes a byte of an entry that
another call has reserved. -/
theorem interleaved_calls {id : Uuid} {size : ℕ} {acts : List LogAction}
    (hcalls : ∀ a ∈ acts, a.isCall = true)
    (hrun : run (logStep play parentReady drainPersists) (.create id size) acts = some s) :
    (∀ tx ∈ s.txs, tx.offset % cacheLineWidth = 0 ∧ tx.size % cacheLineWidth = 0) ∧
      Tiles Tx.offset Tx.size redoLogHeaderSize s.txs s.log.tail ∧
      s.entryIds.Nodup ∧ (∀ c ∈ s.entryIds, 1 ≤ c ∧ c ≤ s.log.lastCommit) ∧
      ∀ a s', a.isCall = true → logStep play parentReady drainPersists s a = some s' →
        ∀ j tx, s.txs[j]? = some tx → a.caller ≠ some j →
          ∀ x, tx.offset ≤ x → x < tx.offset + tx.size → s'.log.data x = s.log.data x := by
  have hguard : Guarded (logStep play parentReady drainPersists) (fun _ a => a.isCall = true)
      (.create id size) acts := guarded_of_forall fun a ha _ => hcalls a ha
  have hinv : s.UniqueIds ∧ s.mode ≠ .down := by
    refine hguard.invariant (I := fun s => s.UniqueIds ∧ s.mode ≠ .down) ?_
      ⟨.create id size, by simp [LogState.create]⟩ hrun
    rintro s a s' ⟨h, -⟩ hcall hstep
    have hsound := logStep_sound hstep
    have hcrash : a ≠ .crash := by
      rintro rfl
      cases hcall
    have hopen : OpensAhead s a := by
      rintro rfl
      cases hcall
    exact ⟨h.step hopen hsound, hsound.mode_ne_down hcrash⟩
  obtain ⟨hids, hmode⟩ := hinv
  have hsub := hids.holes.entryIds_sublist
  refine ⟨fun tx htx => ⟨hids.holes.layout.aligned.2 tx htx, tx.size_mod⟩, hids.holes.layout.tiles,
    hids.nodup.sublist hsub, fun c hc => ⟨?_, hids.le hmode c (hsub.mem hc)⟩, ?_⟩
  · have hne : c ≠ 0 := by simpa using (List.mem_filter.mp hc).2
    omega
  · intro a s' hcall hstep j tx hj hother x hlo hhi
    exact logStep_frame hids.holes.layout hcall hstep hj hother hlo hhi

end

/-- Two appends whose steps alternate, and the commit of the second. -/
def alternatingActions : List LogAction :=
  [.reserve [bytesLE 1 8], .reserve [bytesLE 2 8, [65]], .write 1, .write 0, .write 1] ++
    List.replicate 15 (.write 0) ++ List.replicate 15 (.write 1) ++
    [.drain 1, .drain 0, .persistTail 1, .take 1, .persistTail 0, .store 1]

/-- Two threads append in alternating steps, and the second one commits. -/
theorem interleaved_calls_alternating :
    ∃ s, run (logStep vectorPlay (fun _ => true) true) (.create 0 1024) alternatingActions =
        some s ∧ s.txs.map Tx.offset = [64, 128] ∧ s.log.tail = 192 ∧ s.entryIds = [1] ∧
      Tiles Tx.offset Tx.size redoLogHeaderSize s.txs s.log.tail ∧ s.entryIds.Nodup := by
  obtain ⟨s, hrun, hoff, htail, hids⟩ : ∃ s, run (logStep vectorPlay (fun _ => true) true)
      (.create 0 1024) alternatingActions = some s ∧ s.txs.map Tx.offset = [64, 128] ∧
      s.log.tail = 192 ∧ s.entryIds = [1] := ⟨_, rfl, by decide⟩
  obtain ⟨-, htiles, hnodup, -⟩ := interleaved_calls (by decide) hrun
  exact ⟨s, hrun, hoff, htail, hids, htiles, hnodup⟩

end Pronto
