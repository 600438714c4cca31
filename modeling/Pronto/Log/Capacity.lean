import Pronto.Log.CommitIds
import Pronto.Log.Resync
import Pronto.Recovery.AbortChains

/-!
# The tail of a full log

`Savitar_log_append` reserves its space with one atomic addition to the tail and checks the capacity
afterwards. As long as every reservation fits, the header of the log, in the program's view and in what a
crash leaves, has its head before its tail and its tail inside the file, at the end of the last entry
(`header_in_bounds`), and the scans of `Recover` and `buildAbortChains` start every iteration at a line
of the mapped file (`ScanStartsInside`). If moreover the entries below the tail are whole, were logged by
a method whose dry run measures what it logged, and do not fill their last lines, the scans and the dry
runs in them read nothing outside the file (`ScanInside`). A reservation that does not fit leaves the
tail behind the end of the file, and the next session opens the log like that (`tail_behind_file`).
-/

namespace Pronto

open Memory Tiling Runs

/-! ## The scans -/

/-- The iterations of both scans of a log start at lines of the mapped file. -/
structure ScanStartsInside (log : RedoLog) : Prop where
  recover : ∀ (play : DryRun) (parentReady : CommitRecord → Bool) (n : ℕ) (st₀ st : RecoverState),
    st₀.ptr = log.head → recoverIterations play parentReady log n st₀ = .ok st → st.ptr < log.tail →
      st.ptr + cacheLineWidth ≤ log.size
  build : ∀ (m : NVManager) (o fuel n : ℕ) (st : BuildState), m.log o = log →
    buildIterations m fuel o n (buildStart m o) = .ok st → st.offset < log.tail →
      st.offset + cacheLineWidth ≤ log.size

/-- The iterations of both scans of an object's log read nothing outside the mapped file: `Recover` gets
through the words of an entry and the dry run of `Play`; a builder finds the words and the uuid in the
file, and does not leave it in the dry run. -/
structure ScanInside (play : DryRun) (log : RedoLog) : Prop where
  recover : ∀ (parentReady : CommitRecord → Bool) (n : ℕ) (st₀ st : RecoverState),
    st₀.ptr = log.head → recoverIterations play parentReady log n st₀ = .ok st → st.ptr < log.tail →
      scanEntry play log st.ptr ≠ .error .unmapped
  build : ∀ (m : NVManager) (o fuel n : ℕ) (st : BuildState), m.log o = log → m.play o = play →
    buildIterations m fuel o n (buildStart m o) = .ok st → st.offset < log.tail →
      st.offset + 24 + 16 ≤ log.size ∧
      (isNested (load log.data (st.offset + 16) 8) = false →
        dryRun play log log.size (load log.data (st.offset + 16) 8) (st.offset + 24) ≠
          .error .unmapped)

section Scan

variable {play : DryRun} {parentReady : CommitRecord → Bool} {log : RedoLog}

theorem nextMagic_mod {fuel ptr p : ℕ} (h : nextMagic log fuel ptr = .ok p) : p % 64 = ptr % 64 := by
  induction fuel generalizing ptr with
  | zero => cases h
  | succ fuel ih =>
    simp only [nextMagic, bind, Except.bind] at h
    split at h
    · cases h
    · split at h
      · cases h
        simp [cacheLineWidth]
      · rw [ih h]
        simp [cacheLineWidth]

/-- From a line start the cursor moves to a line start. -/
theorem scanEntry_next_mod {ptr next : ℕ} {v : Visit} (h : scanEntry play log ptr = .ok (v, next))
    (hptr : ptr % 64 = 0) : next % 64 = 0 := by
  simp only [scanEntry, bind, Except.bind] at h
  split at h
  · cases h
  split at h
  · cases h
  split at h
  · cases h
  rename_i p hp
  have hmod : p % 64 = 8 := by
    rw [magicPtr] at hp
    split at hp
    · rw [nextMagic_mod hp]
      omega
    · cases hp
      omega
  split at h
  · cases h
  split at h
  · cases h
  split at h
  · cases h
  split at h
  · cases h
  · cases h
    simp only [cacheLineWidth]
    omega

/-- Every iteration of `Recover` starts at a cache line. -/
theorem recoverIterations_mod {n : ℕ} {st st' : RecoverState}
    (h : recoverIterations play parentReady log n st = .ok st') (hptr : st.ptr % 64 = 0) :
    st'.ptr % 64 = 0 := by
  induction n generalizing st with
  | zero =>
    cases h
    exact hptr
  | succ n ih =>
    by_cases hlt : st.ptr < log.tail
    · cases hstep : recoverStep play parentReady log st with
      | error e => simp [recoverIterations, hlt, hstep, bind, Except.bind] at h
      | ok st₁ =>
        rw [recoverIterations_succ hlt hstep] at h
        obtain ⟨v, hscan, -, -⟩ := recoverStep_ok hstep
        exact ih h (scanEntry_next_mod hscan hptr)
    · obtain rfl : st = st' := by simpa [recoverIterations, hlt] using h
      exact hptr

/-- From a line start the offset of a builder moves to a line start. -/
theorem buildStep_mod {m : NVManager} {fuel o : ℕ} {st st' : BuildState}
    (h : buildStep m fuel o st = .ok st') : st'.offset % 64 = 0 := by
  simp only [buildStep, bind, Except.bind] at h
  split at h
  · cases h
  rename_i halign
  have halign : st.offset % 64 = 0 := by simpa [cacheLineWidth] using halign
  split at h
  · cases h
  split at h
  · cases h
  split at h
  · cases h
  split at h
  · cases h
    simp only [cacheLineWidth]
    omega
  split at h
  · split at h
    · cases h
      simp only [cacheLineWidth]
      omega
    split at h
    · cases h
    split at h
    · cases h
    cases h
    simp only [cacheLineWidth]
    omega
  split at h
  · cases h
  split at h
  · cases h
  · cases h
    simp only [cacheLineWidth]
    omega

/-- So does every iteration of a builder. -/
theorem buildIterations_mod {m : NVManager} {fuel o n : ℕ} {st st' : BuildState}
    (h : buildIterations m fuel o n st = .ok st') (hoff : st.offset % 64 = 0) :
    st'.offset % 64 = 0 := by
  induction n generalizing st with
  | zero =>
    cases h
    exact hoff
  | succ n ih =>
    by_cases hlt : st.offset < (m.log o).tail
    · cases hstep : buildStep m fuel o st with
      | error f => simp [buildIterations, hlt, hstep, bind, Except.bind] at h
      | ok st₁ =>
        rw [buildIterations_succ hlt hstep] at h
        exact ih h (buildStep_mod hstep)
    · rw [buildIterations_done (by omega)] at h
      cases h
      exact hoff

/-- A tail inside the file keeps the starts of the iterations inside. -/
theorem ScanStartsInside.of_tail_le (hhead : log.head % 64 = 0) (htail : log.tail % 64 = 0)
    (hle : log.tail ≤ log.size) : ScanStartsInside log where
  recover := fun play parentReady n st₀ st hstart hiter hlt => by
    have hmod := recoverIterations_mod hiter (by rw [hstart]; exact hhead)
    simp only [cacheLineWidth]
    omega
  build := fun m o fuel n st hlog hiter hlt => by
    have hmod := buildIterations_mod hiter (by rw [buildStart, hlog]; exact hhead)
    simp only [cacheLineWidth]
    omega

variable {es : List LogEntry}

/-- Over complete entries that do not fill their last lines, `Recover` is always at an entry. -/
theorem recoverIterations_at_entry {n : ℕ} {st st' : RecoverState}
    (hcomplete : ∀ e ∈ es, e.Complete play log) (hline : ∀ e ∈ es, ¬ e.FillsLine)
    (hcons : Consecutive st.ptr es log.tail)
    (h : recoverIterations play parentReady log n st = .ok st') :
    ∃ rest, rest <:+ es ∧ Consecutive st'.ptr rest log.tail := by
  -- by induction on the iterations; each steps from one entry to the next
  induction n generalizing st es with
  | zero =>
    cases h
    exact ⟨es, List.suffix_refl _, hcons⟩
  | succ n ih =>
    by_cases hlt : st.ptr < log.tail
    · cases es with
      | nil =>
        have hend : st.ptr = log.tail := hcons
        omega
      | cons e es =>
        cases hstep : recoverStep play parentReady log st with
        | error f => simp [recoverIterations, hlt, hstep, bind, Except.bind] at h
        | ok st₁ =>
          rw [recoverIterations_succ hlt hstep] at h
          obtain ⟨v, hscan, -, -⟩ := recoverStep_ok hstep
          rw [← hcons.1, scanEntry_of_complete (hcomplete e (by simp)),
            LogEntry.next_of_not_fillsLine (hline e (by simp))] at hscan
          obtain ⟨-, hptr⟩ := Prod.mk.inj (Except.ok.inj hscan)
          have hnext : Consecutive st₁.ptr es log.tail := by
            rw [← hptr, hcons.1]
            exact hcons.2
          obtain ⟨rest, hrest, hat⟩ := ih (fun f hf => hcomplete f (List.mem_cons_of_mem e hf))
            (fun f hf => hline f (List.mem_cons_of_mem e hf)) hnext h
          exact ⟨rest, hrest.trans (List.suffix_cons e es), hat⟩
    · rw [recoverIterations_done (by omega)] at h
      cases h
      exact ⟨es, List.suffix_refl _, hcons⟩

/-- Over complete entries that do not fill their last lines, a builder is always at an entry. -/
theorem buildIterations_at_entry {m : NVManager} {fuel o n : ℕ} {st st' : BuildState}
    (hcomplete : ∀ e ∈ es, e.Complete (m.play o) (m.log o)) (hline : ∀ e ∈ es, ¬ e.FillsLine)
    (haligned : ∀ e ∈ es, e.offset % cacheLineWidth = 0)
    (hcons : Consecutive st.offset es (m.log o).tail)
    (h : buildIterations m fuel o n st = .ok st') :
    ∃ rest, rest <:+ es ∧ Consecutive st'.offset rest (m.log o).tail := by
  induction n generalizing st es with
  | zero =>
    cases h
    exact ⟨es, List.suffix_refl _, hcons⟩
  | succ n ih =>
    by_cases hlt : st.offset < (m.log o).tail
    · cases es with
      | nil =>
        have hend : st.offset = (m.log o).tail := hcons
        omega
      | cons e es =>
        cases hstep : buildStep m fuel o st with
        | error f => simp [buildIterations, hlt, hstep, bind, Except.bind] at h
        | ok st₁ =>
          rw [buildIterations_succ hlt hstep] at h
          have hoff := buildStep_offset (hcomplete e (by simp)) (haligned e (by simp))
            (hline e (by simp)) hcons.1.symm hstep
          have hnext : Consecutive st₁.offset es (m.log o).tail := by
            rw [hoff, hcons.1]
            exact hcons.2
          obtain ⟨rest, hrest, hat⟩ := ih (fun f hf => hcomplete f (List.mem_cons_of_mem e hf))
            (fun f hf => hline f (List.mem_cons_of_mem e hf))
            (fun f hf => haligned f (List.mem_cons_of_mem e hf)) hnext h
          exact ⟨rest, hrest.trans (List.suffix_cons e es), hat⟩
    · rw [buildIterations_done (by omega)] at h
      cases h
      exact ⟨es, List.suffix_refl _, hcons⟩

/-- The entry at which a scan stands before the tail. -/
theorem Consecutive.head_of_lt {a b : ℕ} (h : Consecutive a es b) (hlt : a < b) :
    ∃ e ∈ es, e.offset = a := by
  cases es with
  | nil =>
    have hend : a = b := h
    omega
  | cons e es => exact ⟨e, by simp, h.1⟩

/-- **Over whole entries the scans stay inside the file.** -/
theorem ScanInside.of_entries (hcons : Consecutive log.head es log.tail)
    (hcomplete : ∀ e ∈ es, e.Complete play log) (hline : ∀ e ∈ es, ¬ e.FillsLine)
    (haligned : ∀ e ∈ es, e.offset % cacheLineWidth = 0) (hle : log.tail ≤ log.size) :
    ScanInside play log where
  recover := fun parentReady n st₀ st hstart hiter hlt => by
    obtain ⟨rest, hrest, hat⟩ := recoverIterations_at_entry hcomplete hline (hstart ▸ hcons) hiter
    obtain ⟨e, he, hoff⟩ := Consecutive.head_of_lt hat hlt
    rw [← hoff, scanEntry_of_complete (hcomplete e (hrest.subset he))]
    simp
  build := fun m o fuel n st hlog hplay hiter hlt => by
    subst hlog hplay
    obtain ⟨rest, hrest, hat⟩ := buildIterations_at_entry hcomplete hline haligned hcons hiter
    obtain ⟨e, he, hoff⟩ := Consecutive.head_of_lt hat hlt
    have hmem := hrest.subset he
    have hbound := (hcons.mem_bounds hmem).2
    have hge := e.size_ge
    have hprocessed := (hcomplete e hmem).processed
    rw [← hoff, (hcomplete e hmem).entryAt.tag_eq]
    refine ⟨by omega, fun houter => ?_⟩
    rw [bytesProcessed, houter, if_neg (by simp)] at hprocessed
    rw [hprocessed]
    simp

end Scan

/-! ## The header -/

/-- The header of a log that holds the entries `txs`. -/
structure HeaderOk (log : RedoLog) (txs : List Tx) : Prop where
  head_le : log.head ≤ log.tail
  tail_le : log.tail ≤ log.size
  tail_eq : log.tail = txs.getLast?.elim log.head fun tx => tx.offset + tx.size

/-- The header fields of a log that is not full. -/
def RedoLog.NotFull (log : RedoLog) : Prop := log.head = redoLogHeaderSize ∧ log.tail ≤ log.size

/-- Every reservation fits into the file. -/
def ReservesRoom (s : LogState) : LogAction → Prop
  | .reserve v => s.log.tail + entrySize v ≤ s.log.size
  | _ => True

instance (s : LogState) (a : LogAction) : Decidable (ReservesRoom s a) := by
  cases a <;> unfold ReservesRoom <;> infer_instance

section Header

variable {play : DryRun} {parentReady : CommitRecord → Bool} {drainPersists : Bool}
  {s s' : LogState} {a : LogAction}

theorem RedoLog.NotFull.writeBack {lines : ℕ → Bool} {log durable : RedoLog} (h : log.NotFull)
    (h' : durable.NotFull) : (writeBack lines log durable).NotFull := by
  unfold Pronto.writeBack
  cases lines 0
  · exact h'
  · exact h

/-- Each step keeps the header fields in order, as long as reservations fit. -/
theorem LogStep.notFull (hstep : LogStep drainPersists s a s') (hroom : ReservesRoom s a)
    (h : s.log.NotFull ∧ s.durable.NotFull) : s'.log.NotFull ∧ s'.durable.NotFull := by
  cases hstep with
  | reserve => exact ⟨⟨h.1.1, hroom⟩, h.2⟩
  | drain =>
    cases drainPersists
    · exact h
    · exact ⟨h.1, h.1.writeBack h.2⟩
  | persistTail => exact ⟨h.1, h.1.writeBack h.2⟩
  | persistId => exact ⟨h.1, h.1.writeBack h.2⟩
  | evict => exact ⟨h.1, h.1.writeBack h.2⟩
  | crash => exact ⟨h.2, h.2⟩
  | _ => exact h

theorem HeaderOk.of_tiles {log : RedoLog} {txs : List Tx} (h : log.NotFull)
    (htiles : Tiles Tx.offset Tx.size redoLogHeaderSize txs log.tail) : HeaderOk log txs where
  head_le := h.1 ▸ htiles.le
  tail_le := h.2
  tail_eq := h.1 ▸ htiles.end_eq

/-- An entry over which a scan steps without leaving the file: it was logged by a method whose dry run
measures what it logged, all its bytes are there, and it does not fill its last line. -/
structure Tx.Whole (play : DryRun) (log : RedoLog) (tx : Tx) : Prop where
  call : ∃ c : LogCall play, c.vector = tx.vector
  inLog : tx.InLog log
  line : (16 + tx.vector.flatten.length) % cacheLineWidth ≠ 0

/-- Whole entries that tile the log up to a tail inside the file. -/
theorem ScanInside.of_whole {log : RedoLog} {txs : List Tx} (hfull : log.NotFull)
    (htiles : Tiles Tx.offset Tx.size redoLogHeaderSize txs log.tail)
    (hwhole : ∀ tx ∈ txs, tx.Whole play log) : ScanInside play log := by
  have hentry : ∀ tx ∈ txs, ((tx.entry log).offset = tx.offset ∧ (tx.entry log).size = tx.size) ∧
      (tx.entry log).Complete play log ∧ ¬ (tx.entry log).FillsLine := by
    intro tx htx
    obtain ⟨c, hc⟩ := (hwhole tx htx).call
    have hin := (hwhole tx htx).inLog
    have hbound := (htiles.mem_bounds htx).2
    refine ⟨⟨rfl, ?_⟩, hin.complete c hc (hbound.trans hfull.2), fun hfills => ?_⟩
    · rw [hin.entry_eq c hc, Tx.size, ← hc, ← c.entrySize_eq]
    · rw [hin.entry_eq c hc] at hfills
      exact (hwhole tx htx).line (c.length_eq hc ▸ hfills)
  have hcons : Consecutive log.head (txs.map (Tx.entry log)) log.tail :=
    hfull.1 ▸ htiles.map fun tx htx => (hentry tx htx).1
  refine .of_entries hcons (fun e he => ?_) (fun e he => ?_) (fun e he => ?_) hfull.2
  all_goals obtain ⟨tx, htx, rfl⟩ := List.mem_map.mp he
  · exact (hentry tx htx).2.1
  · exact (hentry tx htx).2.2
  · exact (htiles.aligned rfl fun tx _ => tx.size_mod).2 tx htx

/-- **A log that never overflows stays scannable.** In every run, over any number of sessions, in which
every reservation fits: head, tail and size are in order in the program's view and in the durable image,
the tail is the end of the last entry of the one and of an entry, or of the header, of the other, and
opening either gives a log whose scans start every iteration inside the file. Where the entries below
that tail are whole, the scans read nothing outside the file. -/
theorem header_in_bounds {id : Uuid} {size : ℕ} {acts : List LogAction} (hsize : redoLogHeaderSize ≤ size)
    (hroom : Guarded (logStep play parentReady drainPersists) ReservesRoom (.create id size) acts)
    (hrun : run (logStep play parentReady drainPersists) (.create id size) acts = some s) :
    HeaderOk s.log s.txs ∧ (∃ n, HeaderOk s.durable (s.txs.take n)) ∧
      ∀ image, image = s.log ∨ image = s.durable → ∀ opened,
        savitarLogOpen image s.fileSize = some opened → ScanStartsInside opened ∧
          ((∀ tx ∈ s.txs, tx.offset < opened.tail → tx.Whole play opened) →
            ScanInside play opened) := by
  have hinv : s.Layout ∧ s.log.NotFull ∧ s.durable.NotFull :=
    hroom.invariant (I := fun s => s.Layout ∧ s.log.NotFull ∧ s.durable.NotFull)
      (fun _ _ _ h hok hs => ⟨h.1.step (logStep_sound hs), (logStep_sound hs).notFull hok h.2⟩)
      ⟨⟨rfl, 0, rfl⟩, ⟨rfl, hsize⟩, rfl, hsize⟩ hrun
  obtain ⟨hlayout, hlog, hdurable⟩ := hinv
  obtain ⟨n, htiles⟩ := hlayout.durable
  refine ⟨.of_tiles hlog hlayout.tiles, ⟨n, .of_tiles hdurable htiles⟩, fun image himage opened ho => ?_⟩
  obtain ⟨-, ho⟩ := Option.ite_none_right_eq_some.mp ho
  cases ho
  -- the entries below the tail of the image tile it
  have htile : ∃ txs, Tiles Tx.offset Tx.size redoLogHeaderSize txs image.tail ∧
      ∀ tx ∈ txs, tx ∈ s.txs := by
    rcases himage with rfl | rfl
    · exact ⟨s.txs, hlayout.tiles, fun _ htx => htx⟩
    · exact ⟨_, htiles, fun tx htx => List.mem_of_mem_take htx⟩
  obtain ⟨txs, htiles', hsub⟩ := htile
  have hfull : image.NotFull := by
    rcases himage with rfl | rfl
    · exact hlog
    · exact hdurable
  refine ⟨.of_tail_le (by rw [hfull.1]; rfl) (htiles'.aligned rfl fun tx _ => tx.size_mod).1 hfull.2,
    fun hwhole => .of_whole hfull htiles' fun tx htx => hwhole tx (hsub tx htx) ?_⟩
  have hbound := (htiles'.mem_bounds htx).2
  have hge := tx.size_ge
  exact lt_of_lt_of_le (by omega) hbound

end Header

/-- Two appends that fill a file of 192 bytes to its last line. -/
theorem header_in_bounds_two_appends :
    ∃ s, run (logStep vectorPlay (fun _ => true) true) (.create 0 192)
        (pushBackActions 0 ++ pushBackActions 1) = some s ∧ s.log.tail = 192 ∧
      HeaderOk s.log s.txs ∧ ScanInside vectorPlay { s.durable with snapshotLock := 0 } := by
  have hroom : Guarded (logStep vectorPlay (fun _ => true) true) ReservesRoom (.create 0 192)
      (pushBackActions 0 ++ pushBackActions 1) := guarded_of_decide (by decide +kernel)
  have hany : (run (logStep vectorPlay (fun _ => true) true) (.create 0 192)
      (pushBackActions 0 ++ pushBackActions 1)).any (fun s => decide (s.log.tail = 192 ∧
        s.durable.size = s.fileSize ∧
        s.durable.checksum = logChecksum s.durable.objectId s.durable.size ∧
        ∀ tx ∈ s.txs, tx.vector = [bytesLE 1 8, [65, 0]] ∧
          tx.InLog { s.durable with snapshotLock := 0 })) = true := by
    decide +kernel
  obtain ⟨s, hrun, hs⟩ := run_of_any hany
  obtain ⟨htail, hsize, hchecksum, hwhole⟩ := of_decide_eq_true hs
  obtain ⟨hheader, -, hscan⟩ := header_in_bounds (by decide) hroom hrun
  obtain ⟨-, hinside⟩ := hscan _ (.inr rfl) _ (if_pos ⟨hsize, hchecksum⟩)
  refine ⟨s, hrun, htail, hheader, hinside fun tx htx _ => ?_⟩
  obtain ⟨hvector, hin⟩ := hwhole tx htx
  exact ⟨⟨pushBackCall [65] (by decide), hvector.symm⟩, hin, by rw [hvector]; decide⟩

/-- An append that does not fit ends the process. Its reservation is in the header of the log that the
next session opens, and the scan leaves the file. -/
theorem tail_behind_file :
    ∃ s, run (logStep vectorPlay (fun _ => true) true) (.create 0 128)
        [.reserve [List.replicate 100 1], .evict 0, .crash, .reopen] = some s ∧
      s.log.size = 128 ∧ s.log.tail = 192 ∧
      (recover vectorPlay (fun _ => true) s.log 0 0).toOption.isNone = true := by
  have hany : (run (logStep vectorPlay (fun _ => true) true) (.create 0 128)
      [.reserve [List.replicate 100 1], .evict 0, .crash, .reopen]).any (fun s =>
        decide (s.log.size = 128 ∧ s.log.tail = 192 ∧
          (recover vectorPlay (fun _ => true) s.log 0 0).toOption.isNone = true)) = true := by
    decide +kernel
  obtain ⟨s, hrun, hs⟩ := run_of_any hany
  exact ⟨s, hrun, of_decide_eq_true hs⟩

end Pronto
