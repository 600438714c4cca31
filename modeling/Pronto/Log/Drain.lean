import Pronto.Log.FullLines

/-!
# What recovery plays, iteration by iteration

Over consecutive complete entries, in any order of their commit ids, `Recover` plays every entry ahead
of the last played one as soon as the ids up to it have all been scanned, and ends with an empty queue,
if and only if the scan gets through, reads every entry ahead under its own commit id, and the waits for
parents return (`recover_plays_in_order_iff`). Which entries the scan reads is decided by the lengths of
the entries: an entry behind one that fills its last cache line is not scanned
(`full_line_entry_not_played`), and that does no harm if it is not ahead (`shuffled_plays_in_order`).
-/

namespace Pronto

open Memory

/-- Where recovery starts when a snapshot recorded `logHead`. -/
def RedoLog.start (log : RedoLog) (logHead : ℕ) : ℕ := if logHead = 0 then log.head else logHead

/-- Recovery behind id `p` plays the entries with the ids `p + 1, …, n` in this order and nothing else,
each no later than the iteration in which the last of the ids up to it is scanned, at the latest in the
iteration whose number is the place of the last of them in the log, and ends with an empty queue behind
id `n`. -/
structure PlaysInOrder (play : DryRun) (parentReady : CommitRecord → Bool) (log : RedoLog)
    (logHead : ℕ) (es : List LogEntry) (p n : ℕ) : Prop where
  recovers : ∃ st, recover play parentReady log p logHead = .ok st ∧ st.replay.queue = [] ∧
    st.replay.last = n ∧
    st.replay.played.map CommitRecord.commitId = List.range' (p + 1) (n - p) ∧
    st.replay.played.Perm ((es.filter fun e => p < e.commitId).map LogEntry.record)
  prompt : ∀ k, ∃ st,
    recoverIterations play parentReady log k ⟨log.start logHead, [], ⟨p, [], []⟩⟩ = .ok st ∧
      ∀ c, p < c → (∀ i, p < i → i ≤ c →
          ∃ e ∈ es, e.commitId = i ∧ (e.visit ∈ st.visited ∨ e ∈ es.take k)) →
        c ∈ st.replay.played.map CommitRecord.commitId

section Drain

variable {play : DryRun} {parentReady : CommitRecord → Bool} {log : RedoLog} {logHead p n : ℕ}
  {es : List LogEntry}

theorem filter_records (p : ℕ) (es : List LogEntry) :
    (es.map LogEntry.record).filter (fun r => p < r.commitId) =
      (es.filter fun e => p < e.commitId).map LogEntry.record := by
  rw [List.filter_map]
  rfl

theorem map_records (es : List LogEntry) :
    (es.map LogEntry.record).map CommitRecord.commitId = es.map LogEntry.commitId := by
  rw [List.map_map]
  rfl

/-- The entries with an id ahead of `p` are all scanned. -/
def ScansAhead (p : ℕ) (es : List LogEntry) : Prop :=
  ∀ e ∈ es, p < e.commitId → e ∈ scanned .atEntry es

/-- Then scanning loses none of the ids ahead. -/
theorem ScansAhead.filter_eq (h : ScansAhead p es)
    (hnd : ((es.filter fun e => p < e.commitId).map LogEntry.commitId).Nodup) :
    ((scanned .atEntry es).filter fun e => p < e.commitId) = es.filter fun e => p < e.commitId := by
  have hsub : ((scanned .atEntry es).filter fun e => p < e.commitId).Sublist
      (es.filter fun e => p < e.commitId) := (scanned_sublist _ _).filter _
  refine hsub.eq_of_length_le (hnd.of_map.length_le_of_subset fun e he => ?_)
  obtain ⟨hmem, hahead⟩ := List.mem_filter.mp he
  exact List.mem_filter.mpr ⟨h e hmem (by simpa using hahead), hahead⟩

/-- A record belongs to one entry only. -/
theorem Consecutive.record_inj {a b : ℕ} (h : Consecutive a es b) {e f : LogEntry} (he : e ∈ es)
    (hf : f ∈ es) (heq : e.record = f.record) : e = f := by
  have hptr : e.offset + 24 = f.offset + 24 := congrArg CommitRecord.ptr heq
  have hnd := h.nodup_starts fun e _ => lt_of_lt_of_le (by decide) e.size_ge
  exact List.inj_on_of_nodup_map hnd he hf (by omega)

/-- Recovery is its loop and the assertion on the queue. -/
theorem recover_ok_iff {st : RecoverState} : recover play parentReady log p logHead = .ok st ↔
    recoverLoop play parentReady log log.tail ⟨log.start logHead, [], ⟨p, [], []⟩⟩ = .ok st ∧
      st.replay.queue = [] := by
  have hstart : recover play parentReady log p logHead =
      (recoverLoop play parentReady log log.tail ⟨log.start logHead, [], ⟨p, [], []⟩⟩ >>= fun st =>
        if st.replay.queue = [] then .ok st else .error .queueNotEmpty) := rfl
  rw [hstart]
  cases recoverLoop play parentReady log log.tail ⟨log.start logHead, [], ⟨p, [], []⟩⟩ with
  | error f => simp [bind, Except.bind]
  | ok st₁ =>
    simp only [bind, Except.bind, Except.ok.injEq]
    constructor
    · intro h
      split at h
      · cases h
        exact ⟨rfl, ‹_›⟩
      · cases h
    · rintro ⟨rfl, hqueue⟩
      exact if_pos hqueue

/-- **Recovery plays every entry as soon as it can, exactly when** the scan gets through the log, reads
every entry ahead of `p` under its own id, and the waits of these entries for their parents return. The
entries are complete, in any order, and their ids ahead of `p` are `p + 1, …, n`, each once. No line of
an entry behind one that fills its last line must look like the first line of an entry. -/
theorem recover_plays_in_order_iff (hcons : Consecutive (log.start logHead) es log.tail)
    (hcomplete : ∀ e ∈ es, e.Complete play log) (hpn : p ≤ n)
    (hids : ((es.filter fun e => p < e.commitId).map LogEntry.commitId).Perm
      (List.range' (p + 1) (n - p)))
    (hplain : es.IsChain fun e f => e.FillsLine → f.NoMagicInside log) :
    PlaysInOrder play parentReady log logHead es p n ↔
      Passes play log .atEntry es ∧ ScansAhead p es ∧
        ParentsReady parentReady p (es.map LogEntry.record) := by
  set st₀ : RecoverState := ⟨log.start logHead, [], ⟨p, [], []⟩⟩
  have hnd := hids.nodup_iff.mpr List.nodup_range'
  have hahead : Ahead play log .atEntry (log.start logHead) st₀.ptr es :=
    ⟨hcons, hcomplete, hplain, by simp, rfl⟩
  have hsettled : OrderedReplay.Settled CommitRecord.commitId st₀.replay := rfl
  -- what is fed is a sublist of the entries, so no id ahead is fed twice
  have hinv : ∀ vs : List LogEntry, vs.Sublist es → OrderedReplay.Inv CommitRecord.commitId p
      (vs.map LogEntry.record) (OrderedReplay.replay CommitRecord.commitId st₀.replay
        (vs.map LogEntry.record)) := fun vs hvs => by
    refine OrderedReplay.replay_inv CommitRecord.commitId ?_
    rw [filter_records, map_records]
    exact hnd.sublist ((hvs.filter _).map _)
  constructor
  · rintro ⟨⟨st, hok, -, -, -, hperm⟩, -⟩
    obtain ⟨hloop, -⟩ := recover_ok_iff.mp hok
    obtain ⟨hpass, hreplay⟩ := recoverLoop_scan hahead hsettled hloop
    have hplayed : ∀ e ∈ es, p < e.commitId → e.record ∈ st.replay.played := fun e he hlt =>
      hperm.mem_iff.mpr (List.mem_map_of_mem (List.mem_filter.mpr ⟨he, by simpa using hlt⟩))
    refine ⟨hpass, fun e he hlt => ?_, fun r hr hlt hnested => ?_⟩
    · have hfed := ((hinv _ (scanned_sublist .atEntry es)).mem_iff CommitRecord.commitId e.record).mp
        (Or.inl (hreplay ▸ hplayed e he hlt))
      obtain ⟨f, hf, heq⟩ := List.mem_map.mp hfed.1
      exact hcons.record_inj ((scanned_sublist _ _).subset hf) he heq ▸ hf
    · obtain ⟨e, he, rfl⟩ := List.mem_map.mp hr
      obtain ⟨new, hnew, hready⟩ := recoverLoop_ok_ready hloop
      rw [List.nil_append] at hnew
      exact hready _ (hnew ▸ hplayed e he hlt) hnested
  · rintro ⟨hpass, hscans, hready⟩
    have hready₀ : ParentsReady parentReady st₀.replay.last
        (st₀.replay.queue ++ es.map LogEntry.record) := hready
    constructor
    · obtain ⟨st, vs, hst⟩ := recoverIterations_scan es.length hahead hpass hsettled hready₀
      obtain ⟨htail, rfl⟩ := hst.ends (by simp [Place.turns])
      have hloop := recoverLoop_of_iterations hst.iterations htail (show es.length ≤ log.tail by
        have := hcons.lines_le
        omega)
      have hkeys : ((((scanned .atEntry es).map LogEntry.record).filter fun r => p < r.commitId).map
          CommitRecord.commitId).Perm (List.range' (p + 1) (n - p)) := by
        rw [filter_records, hscans.filter_eq hnd, map_records]
        exact hids
      obtain ⟨hlast, hqueue, -⟩ := OrderedReplay.replay_complete CommitRecord.commitId hpn hkeys
      have hfed := hinv _ (scanned_sublist .atEntry es)
      have hplayed := hfed.played_keys
      have hperm := hfed.perm
      have hreplay : st.replay = OrderedReplay.replay CommitRecord.commitId ⟨p, [], []⟩ _ := hst.replay
      rw [← hreplay] at hlast hqueue hplayed hperm
      rw [hlast] at hplayed
      rw [hqueue, List.append_nil, filter_records, hscans.filter_eq hnd] at hperm
      exact ⟨st, recover_ok_iff.mpr ⟨hloop, hqueue⟩, hqueue, hlast, hplayed, hperm⟩
    · intro k
      obtain ⟨st, vs, hst⟩ := recoverIterations_scan k hahead hpass hsettled hready₀
      refine ⟨st, hst.iterations, fun c hpc hfed => ?_⟩
      rw [hst.replay]
      refine (hinv vs (hst.firstPart.sublist.trans (scanned_sublist _ _))).mem_played_of_fed
        CommitRecord.commitId hpc fun i hpi hic => ?_
      obtain ⟨e, he, rfl, hseen⟩ := hfed i hpi hic
      suffices ∃ f ∈ vs, f.record = e.record by
        obtain ⟨f, hf, heq⟩ := this
        exact ⟨f.record, List.mem_map_of_mem hf, congrArg CommitRecord.commitId heq⟩
      rcases hseen with hvisit | htake
      · obtain ⟨new, hnew, hof⟩ := hst.visited
        rw [List.nil_append] at hnew
        rcases hof _ (hnew ▸ hvisit) with hzero | ⟨f, hf, heq⟩
        · have : e.commitId = 0 := hzero
          omega
        · exact ⟨f, hf, congrArg Visit.toRecord heq.symm⟩
      · exact ⟨e, hst.inTime e htake (hscans e he hpi), rfl⟩

/-- A `push_back` of the one character `A`. -/
def smallEntry (offset commitId : ℕ) : LogEntry := ⟨offset, commitId, 1, [65, 0]⟩

/-- A `push_back` of 39 characters, which fills its line. -/
def lineEntry (offset commitId : ℕ) : LogEntry := ⟨offset, commitId, 1, List.replicate 39 65 ++ [0]⟩

/-- A log with the given entries. -/
def logOf (es : List LogEntry) (tail : ℕ) : RedoLog :=
  { savitarLogCreate 0 1024 with
    tail := tail
    data := es.foldl (fun data e => store data e.offset (bytesLE e.commitId 8 ++
      bytesLE redoLogMagic 8 ++ bytesLE e.tag 8 ++ e.args)) fun _ => 0 }

theorem complete_of_bytes {e : LogEntry} (h : load log.data e.offset 8 = e.commitId ∧
      load log.data (e.offset + 8) 8 = redoLogMagic ∧ load log.data (e.offset + 16) 8 = e.tag ∧
      bytes log.data (e.offset + 24) e.args.length = e.args ∧ e.offset + e.length ≤ log.size ∧
      bytesProcessed play log log.size e.tag (e.offset + 24) = .ok e.args.length) :
    e.Complete play log :=
  ⟨⟨⟨h.1, h.2.1, h.2.2.1, h.2.2.2.1⟩, h.2.2.2.2.1⟩, h.2.2.2.2.2⟩

/-- Ids 3, 1, 0 and 2 in this order, behind id 1. The second and the last entry fill their lines, so
that the third one is not scanned. -/
def shuffledEntries : List LogEntry :=
  [smallEntry 64 3, lineEntry 128 1, smallEntry 192 0, lineEntry 256 2]

/-- The ids 3, 1 and 2 are scanned in this order: behind id 1 recovery plays 2 and then 3. -/
theorem shuffled_plays_in_order :
    PlaysInOrder vectorPlay (fun _ => true) (logOf shuffledEntries 320) 0 shuffledEntries 1 3 := by
  have hcons : Consecutive ((logOf shuffledEntries 320).start 0) shuffledEntries 320 :=
    ⟨rfl, rfl, rfl, rfl, rfl⟩
  have hscanned : scanned .atEntry shuffledEntries =
      [smallEntry 64 3, lineEntry 128 1, lineEntry 256 2] := rfl
  refine (recover_plays_in_order_iff hcons (fun e he => complete_of_bytes ?_) (by decide) (by decide)
    ?_).mpr ⟨⟨Or.inl rfl, trivial⟩, fun e he hlt => ?_, parentsReady_true _ _⟩
  · revert e
    decide +kernel
  · simp only [shuffledEntries, List.isChain_cons_cons, List.isChain_singleton, and_true]
    exact ⟨fun h => absurd h (by decide), fun _ => .of_line rfl, fun h => absurd h (by decide)⟩
  · rw [hscanned]
    simp only [shuffledEntries, List.mem_cons, List.not_mem_nil, or_false] at he ⊢
    rcases he with rfl | rfl | rfl | rfl
    · exact Or.inl rfl
    · exact Or.inr (Or.inl rfl)
    · cases hlt
    · exact Or.inr (Or.inr rfl)

/-- The entry behind one that fills its line is never scanned: with the ids 1 and 2 recovery ends behind
id 1. -/
theorem full_line_entry_not_played :
    Consecutive 64 [lineEntry 64 1, smallEntry 128 2] 192 ∧
      (∀ e ∈ [lineEntry 64 1, smallEntry 128 2],
        e.Complete vectorPlay (logOf [lineEntry 64 1, smallEntry 128 2] 192)) ∧
      ¬ PlaysInOrder vectorPlay (fun _ => true) (logOf [lineEntry 64 1, smallEntry 128 2] 192) 0
        [lineEntry 64 1, smallEntry 128 2] 0 2 := by
  refine ⟨⟨rfl, rfl, rfl⟩, fun e he => complete_of_bytes ?_, fun h => ?_⟩
  · revert e
    decide +kernel
  · obtain ⟨st, hst, -, hlast, -⟩ := h.recovers
    have heval := congrArg (Except.map fun st => st.replay.last) hst
    simp only [Except.map, hlast] at heval
    revert heval
    decide +kernel

end Drain

end Pronto
