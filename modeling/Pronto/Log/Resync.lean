import Pronto.Log.Replay

/-!
# Skipping a partial transaction

A crash can leave an entry whose space is reserved and whose first cache line never became durable:
its commit id is zero and its magic is missing. At such an entry the scan of `Recover` searches the
following cache lines for the next magic and continues with the entry it finds there. It should take
up the next complete entry under that entry's own commit id, or leave the scan at the tail if there
is none (`SkipOk`).

The commit id is not read again behind the search, and whatever bytes look like a magic end it.
`skip_partial_iff` says when this does no harm: the dry run of what stands behind the first magic has
to return, and the next complete entry must not be committed or be already played; without such an
entry, other bytes must happen to end the search in front of the tail.
-/

namespace Pronto

open Memory Tiling Runs

instance (log : RedoLog) (tx : Tx) : Decidable (tx.InLog log) :=
  inferInstanceAs (Decidable (∀ i < _, _))

/-- All bytes of the entry are in the file. -/
def Tx.Complete (log : RedoLog) (tx : Tx) : Prop :=
  tx.offset + tx.size ≤ log.size ∧ tx.InLog log

instance (log : RedoLog) (tx : Tx) : Decidable (tx.Complete log) :=
  inferInstanceAs (Decidable (_ ∧ _))

/-- The first complete entry among the given ones. -/
def nextComplete (log : RedoLog) (txs : List Tx) : Option Tx :=
  txs.find? fun tx => decide (tx.Complete log)

/-- The addresses of the words that the search behind a partial transaction reads. -/
def nextMagicReads (log : RedoLog) : ℕ → ℕ → List ℕ
  | 0, _ => []
  | fuel + 1, ptr =>
    (ptr + cacheLineWidth) ::
      if readWord log (ptr + cacheLineWidth) = .ok redoLogMagic then []
      else nextMagicReads log fuel (ptr + cacheLineWidth)

section Skip

variable (play : DryRun) (parentReady : CommitRecord → Bool) (log : RedoLog)

/-- What the iteration at a partial transaction reads lies below `limit`: the two words at the cursor,
those of the search, the method tag, and whatever the dry run reads of the arguments. -/
structure SkipReadsBelow (limit ptr : ℕ) : Prop where
  words : ptr + 16 ≤ limit
  search : ∀ a ∈ nextMagicReads log (log.size + 1) (ptr + 8), a + 8 ≤ limit
  found : ∀ mptr, nextMagic log (log.size + 1) (ptr + 8) = .ok mptr → mptr + 16 ≤ limit ∧
    bytesProcessed play log limit (load log.data (mptr + 8) 8) (mptr + 16) ≠ .error .unmapped

/-- The states of the recovery loop. -/
inductive RecoverReaches (lastPlayed logHead : ℕ) : RecoverState → Prop
  | start : RecoverReaches lastPlayed logHead
      ⟨if logHead = 0 then log.head else logHead, [], ⟨lastPlayed, [], []⟩⟩
  | step {st st' : RecoverState} (h : RecoverReaches lastPlayed logHead st)
      (hlt : st.ptr < log.tail) (hstep : recoverStep play parentReady log st = .ok st') :
      RecoverReaches lastPlayed logHead st'

/-- The iteration at a partial transaction takes up the next complete entry behind it under that
entry's commit id, or leaves the scan and reads nothing behind the tail if there is none. -/
def SkipOk (behind : List Tx) (st : RecoverState) : Prop :=
  match nextComplete log behind, recoverStep play parentReady log st with
  | some e, .ok st' =>
    st'.replay = OrderedReplay.feed CommitRecord.commitId st.replay (recordAt log e.offset)
  | none, .ok st' => log.tail ≤ st'.ptr ∧ st'.replay = st.replay ∧
      SkipReadsBelow play log log.tail st.ptr
  | _, .error _ => False

end Skip

section Lemmas

variable {play : DryRun} {parentReady : CommitRecord → Bool} {log : RedoLog}

/-- Between two iterations nothing is left to play. -/
theorem RecoverReaches.settled {lastPlayed logHead : ℕ} {st : RecoverState}
    (h : RecoverReaches play parentReady log lastPlayed logHead st) :
    OrderedReplay.Settled CommitRecord.commitId st.replay := by
  cases h with
  | start => rfl
  | step _ _ hstep =>
    obtain ⟨v, -, -, hreplay⟩ := recoverStep_ok hstep
    rw [hreplay]
    exact OrderedReplay.feed_settled _ _ _

/-- The search reads nothing behind the magic it ends at. -/
theorem nextMagicReads_le {fuel ptr p : ℕ} (h : nextMagic log fuel ptr = .ok p) {a : ℕ}
    (ha : a ∈ nextMagicReads log fuel ptr) : a ≤ p := by
  induction fuel generalizing ptr with
  | zero => cases h
  | succ fuel ih =>
    obtain ⟨k, hk, hp, -⟩ := nextMagic_ok h
    have hfirst : ptr + cacheLineWidth ≤ p := by
      rw [hp]
      exact Nat.add_le_add_left (Nat.le_mul_of_pos_right _ hk) _
    simp only [nextMagicReads, List.mem_cons] at ha
    rcases ha with rfl | ha
    · exact hfirst
    · split at ha
      · cases ha
      · rename_i hno
        simp only [nextMagic, bind, Except.bind] at h
        split at h
        · cases h
        · rename_i magic hread
          rw [if_neg fun hmagic : magic = redoLogMagic => hno (hmagic ▸ hread)] at h
          exact ih h ha

/-! ## The iteration at a partial transaction -/

/-- The iteration files nothing: it continues behind what stands at the first magic, under the
commit id zero. -/
theorem recoverStep_partial_iff {st st' : RecoverState} (hzero : load log.data st.ptr 8 = 0)
    (hno : load log.data (st.ptr + 8) 8 ≠ redoLogMagic)
    (hsettled : OrderedReplay.Settled CommitRecord.commitId st.replay) :
    recoverStep play parentReady log st = .ok st' ↔ ∃ mptr n, Resyncs play log st.ptr mptr n ∧
      st' = ⟨mptr + 16 + n + (cacheLineWidth - (24 + n) % cacheLineWidth),
        st.visited ++ [⟨st.ptr, 0, load log.data (mptr + 8) 8, mptr + 16⟩], st.replay⟩ := by
  have hstep : ∀ {mptr n : ℕ}, Resyncs play log st.ptr mptr n →
      recoverStep play parentReady log st =
        .ok ⟨mptr + 16 + n + (cacheLineWidth - (24 + n) % cacheLineWidth),
          st.visited ++ [⟨st.ptr, 0, load log.data (mptr + 8) 8, mptr + 16⟩], st.replay⟩ := by
    intro mptr n hresync
    have hscan := (scanEntry_partial_iff hzero hno).mpr ⟨mptr, n, hresync, rfl⟩
    have hfeed := hsettled.feed_of_le CommitRecord.commitId
      (x := ⟨mptr + 16, 0, load log.data (mptr + 8) 8⟩) (Nat.zero_le _)
    simp only [recoverStep, bind, Except.bind, hscan, Visit.toRecord, hfeed, List.drop_length,
      List.all_nil, if_true]
  constructor
  · intro h
    obtain ⟨v, hscan, -, -⟩ := recoverStep_ok h
    obtain ⟨mptr, n, hresync, -⟩ := (scanEntry_partial_iff hzero hno).mp hscan
    exact ⟨mptr, n, hresync, Except.ok.inj (h.symm.trans (hstep hresync))⟩
  · rintro ⟨mptr, n, hresync, rfl⟩
    exact hstep hresync

/-- With a complete entry behind it, a partial transaction is skipped as it should be if and only
if the iteration gets to its end and that entry has nothing to be played. -/
theorem skipOk_some_iff {behind : List Tx} {st : RecoverState} {e : Tx}
    (hzero : load log.data st.ptr 8 = 0) (hno : load log.data (st.ptr + 8) 8 ≠ redoLogMagic)
    (hsettled : OrderedReplay.Settled CommitRecord.commitId st.replay)
    (hnext : nextComplete log behind = some e) :
    SkipOk play parentReady log behind st ↔
      ∃ mptr n, Resyncs play log st.ptr mptr n ∧ load log.data e.offset 8 ≤ st.replay.last := by
  have hkey : load log.data e.offset 8 = (recordAt log e.offset).commitId := rfl
  cases hstep : recoverStep play parentReady log st with
  | error f =>
    simp only [SkipOk, hnext, hstep, false_iff]
    rintro ⟨mptr, n, hresync, -⟩
    have hok : recoverStep play parentReady log st = .ok _ :=
      (recoverStep_partial_iff hzero hno hsettled).mpr ⟨mptr, n, hresync, rfl⟩
    rw [hstep] at hok
    cases hok
  | ok st' =>
    obtain ⟨mptr, n, hresync, hst'⟩ := (recoverStep_partial_iff hzero hno hsettled).mp hstep
    have hreplay : st'.replay = st.replay := by rw [hst']
    simp only [SkipOk, hnext, hstep, hreplay]
    rw [hkey]
    constructor
    · intro heq
      refine ⟨mptr, n, hresync, ?_⟩
      -- a record that is ahead would be filed or played
      by_contra hgt
      have hlen := OrderedReplay.feed_length CommitRecord.commitId (s := st.replay)
        (x := recordAt log e.offset) (Nat.lt_of_not_le hgt)
      rw [← heq] at hlen
      omega
    · rintro ⟨-, -, -, hle⟩
      exact (hsettled.feed_of_le CommitRecord.commitId hle).symm

/-- Without a complete entry behind it, a partial transaction is skipped as it should be if and only
if some bytes in front of the tail look like an entry that ends there. -/
theorem skipOk_none_iff {behind : List Tx} {st : RecoverState}
    (hzero : load log.data st.ptr 8 = 0) (hno : load log.data (st.ptr + 8) 8 ≠ redoLogMagic)
    (hsettled : OrderedReplay.Settled CommitRecord.commitId st.replay)
    (hnext : nextComplete log behind = none) :
    SkipOk play parentReady log behind st ↔
      ∃ mptr n, Resyncs play log st.ptr mptr n ∧ mptr + 16 ≤ log.tail ∧
        bytesProcessed play log log.tail (load log.data (mptr + 8) 8) (mptr + 16) ≠
          .error .unmapped ∧
        log.tail ≤ mptr + 16 + n + (cacheLineWidth - (24 + n) % cacheLineWidth) := by
  constructor
  · intro hok
    cases hstep : recoverStep play parentReady log st with
    | error f => simp only [SkipOk, hnext, hstep] at hok
    | ok st' =>
      simp only [SkipOk, hnext, hstep] at hok
      -- the iteration succeeds, so the search has found a magic
      obtain ⟨mptr, n, hresync, rfl⟩ := (recoverStep_partial_iff hzero hno hsettled).mp hstep
      obtain ⟨htail, -, hreads⟩ := hok
      obtain ⟨hfit, hdry⟩ := hreads.found mptr
        ((nextMagic_eq_iff hresync.mapped).mpr hresync.toFirstMagic)
      exact ⟨mptr, n, hresync, hfit, hdry, htail⟩
  · rintro ⟨mptr, n, hresync, hfit, hdry, htail⟩
    have hstep : recoverStep play parentReady log st = .ok _ :=
      (recoverStep_partial_iff hzero hno hsettled).mpr ⟨mptr, n, hresync, rfl⟩
    have hfound := (nextMagic_eq_iff hresync.mapped).mpr hresync.toFirstMagic
    obtain ⟨k, hk, hline, -⟩ := hresync.line
    simp only [SkipOk, hnext, hstep]
    refine ⟨htail, trivial, by omega, fun a ha => ?_, fun p hp => ?_⟩
    · have := nextMagicReads_le hfound ha
      omega
    · obtain rfl : mptr = p := Except.ok.inj (hfound.symm.trans hp)
      exact ⟨hfit, hdry⟩

end Lemmas

section Main

/-- **The iteration at a partial transaction is right if and only if** the dry run of what stands behind
the first magic returns, and the next complete entry is not committed or already played, or there is no
such entry and the search meets bytes in front of the tail that look like an entry ending there. This
is so for every log image, in particular for every one that a crash leaves, for every state of the
recovery loop, and whatever entries were reserved behind the partial one. -/
theorem skip_partial_iff {play : DryRun} {parentReady : CommitRecord → Bool} {log : RedoLog}
    {lastPlayed logHead : ℕ} {behind : List Tx} {st : RecoverState}
    (hreach : RecoverReaches play parentReady log lastPlayed logHead st)
    (hzero : load log.data st.ptr 8 = 0) (hmagic : load log.data (st.ptr + 8) 8 ≠ redoLogMagic) :
    SkipOk play parentReady log behind st ↔
      ∃ mptr n, Resyncs play log st.ptr mptr n ∧
        ((∃ e, nextComplete log behind = some e ∧ load log.data e.offset 8 ≤ st.replay.last) ∨
          (nextComplete log behind = none ∧ mptr + 16 ≤ log.tail ∧
            bytesProcessed play log log.tail (load log.data (mptr + 8) 8) (mptr + 16) ≠
              .error .unmapped ∧
            log.tail ≤ mptr + 16 + n + (cacheLineWidth - (24 + n) % cacheLineWidth))) := by
  cases hnext : nextComplete log behind with
  | none =>
    rw [skipOk_none_iff hzero hmagic hreach.settled hnext]
    simp only [reduceCtorEq, false_and, exists_false, true_and, false_or]
  | some e =>
    rw [skipOk_some_iff hzero hmagic hreach.settled hnext]
    simp only [Option.some.injEq, exists_eq_left', reduceCtorEq, false_and, or_false]

/-- One thread has reserved its space when another one appends and commits, and then the power
fails. -/
def tornAppend : List LogAction :=
  .reserve [bytesLE 1 8, [65, 0]] ::
    (appendActions 1 [bytesLE 1 8, [66, 0]] ++ commitActions 1 ++ [.crash, .reopen])

/-- The recovery loop starts at the reserved space. -/
def tornStart : RecoverState := ⟨64, [], ⟨0, [], []⟩⟩

theorem tornStart_reached (play : DryRun) (parentReady : CommitRecord → Bool)
    {log : RedoLog} (hhead : log.head = 64) :
    RecoverReaches play parentReady log 0 0 tornStart := by
  have hstart : RecoverReaches play parentReady log 0 0 ⟨if 0 = 0 then log.head else 0, _, _⟩ :=
    .start
  rwa [if_pos rfl, hhead] at hstart

/-- The entry behind the reserved space is complete, committed and not played, and the iteration does
not take it up. -/
theorem torn_append_hides_next :
    ∃ s tx e, run (logStep vectorPlay (fun _ => true) true) (.create 0 1024) tornAppend = some s ∧
      s.mode = .recovering ∧ s.txs = [tx, e] ∧
      RecoverReaches vectorPlay (fun _ => true) s.log 0 0 tornStart ∧
      tornStart.ptr = tx.offset ∧ load s.log.data tx.offset 8 = 0 ∧
      load s.log.data (tx.offset + 8) 8 ≠ redoLogMagic ∧
      nextComplete s.log [e] = some e ∧ load s.log.data e.offset 8 = 1 ∧
      ¬ SkipOk vectorPlay (fun _ => true) s.log [e] tornStart := by
  obtain ⟨s, hrun, hmode, tx, e, htxs, hhead, hoff, hzero, hmagic, hnext, hid, st', hstep, hplayed⟩ :
      ∃ s, run (logStep vectorPlay (fun _ => true) true) (.create 0 1024) tornAppend = some s ∧
        s.mode = .recovering ∧ ∃ tx e, s.txs = [tx, e] ∧ s.log.head = 64 ∧ tx.offset = 64 ∧
          load s.log.data tx.offset 8 = 0 ∧ load s.log.data (tx.offset + 8) 8 ≠ redoLogMagic ∧
          nextComplete s.log [e] = some e ∧ load s.log.data e.offset 8 = 1 ∧
          ∃ st', recoverStep vectorPlay (fun _ => true) s.log tornStart = .ok st' ∧
            st'.replay.played ≠ (OrderedReplay.feed CommitRecord.commitId tornStart.replay
              (recordAt s.log e.offset)).played :=
    ⟨_, rfl, by decide, _, _, rfl, by decide, by decide, by decide, by decide, by decide,
      by decide, _, rfl, by decide⟩
  have hreach := tornStart_reached vectorPlay (fun _ => true) hhead
  refine ⟨s, tx, e, hrun, hmode, htxs, hreach, hoff.symm, hzero, hmagic, hnext, hid, fun hok => ?_⟩
  simp only [SkipOk, hnext, hstep] at hok
  exact hplayed (congrArg OrderedReplay.State.played hok)

/-- Without the other thread's commit there is nothing to take up. -/
theorem skip_partial_iff_uncommitted :
    ∃ s, run (logStep vectorPlay (fun _ => true) true) (.create 0 1024)
        (.reserve [bytesLE 1 8, [65, 0]] ::
          (appendActions 1 [bytesLE 1 8, [66, 0]] ++ [.crash, .reopen])) = some s ∧
      ∃ tx e, s.txs = [tx, e] ∧ SkipOk vectorPlay (fun _ => true) s.log [e] tornStart := by
  obtain ⟨s, hrun, tx, e, htxs, hhead, hoff, hzero, hmagic, hnext, hid, hfound, hfit, hargs⟩ :
      ∃ s, run (logStep vectorPlay (fun _ => true) true) (.create 0 1024)
          (.reserve [bytesLE 1 8, [65, 0]] ::
            (appendActions 1 [bytesLE 1 8, [66, 0]] ++ [.crash, .reopen])) = some s ∧
        ∃ tx e, s.txs = [tx, e] ∧ s.log.head = 64 ∧ tx.offset = 64 ∧
          load s.log.data tx.offset 8 = 0 ∧ load s.log.data (tx.offset + 8) 8 ≠ redoLogMagic ∧
          nextComplete s.log [e] = some e ∧ load s.log.data e.offset 8 = 0 ∧
          load s.log.data 136 8 = redoLogMagic ∧ 136 + 16 ≤ s.log.size ∧
          bytesProcessed vectorPlay s.log s.log.size (load s.log.data (136 + 8) 8) (136 + 16) =
            .ok 2 :=
    ⟨_, rfl, _, _, rfl, by decide, by decide, by decide, by decide, by decide, by decide, by decide,
      by decide, by decide +kernel⟩
  have hreach := tornStart_reached vectorPlay (fun _ => true) hhead
  have hresync : Resyncs vectorPlay s.log tornStart.ptr 136 2 :=
    ⟨⟨⟨1, by decide, rfl, fun j h1 h2 => by omega⟩, hfound, hfit⟩, hargs⟩
  rw [hoff] at hzero hmagic
  refine ⟨s, hrun, tx, e, htxs, (skip_partial_iff hreach hzero hmagic).mpr
    ⟨136, 2, hresync, Or.inl ⟨e, hnext, ?_⟩⟩⟩
  rw [hid]
  exact Nat.zero_le _

end Main

end Pronto
