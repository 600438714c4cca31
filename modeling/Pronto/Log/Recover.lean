import Pronto.Log.RedoLog
import Pronto.Lib.OrderedReplay

/-!
# `PersistentObject::Recover`

Recovery of one object scans its log from the head (or from the offset a snapshot recorded) up to
the tail, files every entry whose commit id is ahead of the last played one in a priority queue, and
plays from the queue in commit order (`nv_object.cpp`).

* `scanEntry` is one iteration's reading part: the four header words, the search for the next magic
  behind a partial transaction, the dry run that gives the argument length, and the cursor update.
* `recoverStep` adds filing and playing, which is `OrderedReplay.feed` on the commit ids.
* `recoverLoop` and `recover` are the loop and the whole function with its final assertion.

`Play` is a virtual method of the recovered object. A `DryRun` stands for its call with `dry` set: it
returns a byte count, or stops the process on an assertion (every `Play` of the repository asserts
that it knows the tag) or by reading behind the mapping. A nested record is not played here; the
object waits for its parent, another object with its own recovery thread, and `parentReady` says
whether that wait ends without the assertion on the parent failing.

At a partial transaction an iteration continues with the first magic behind it (`FirstMagic`);
`scanEntry_partial_iff` says what it then returns.
-/

namespace Pronto

open Memory

/-- `CommitRecord`: an argument pointer (as a log offset), a commit id and a method tag. -/
structure CommitRecord where
  ptr : ℕ
  commitId : ℕ
  methodTag : ℕ
deriving DecidableEq, Repr

/-- What one iteration of the scan reads: where it started, and the record it found. -/
structure Visit where
  offset : ℕ
  commitId : ℕ
  methodTag : ℕ
  argPtr : ℕ
deriving DecidableEq, Repr

/-- The record the scan builds from what it read. -/
def Visit.toRecord (v : Visit) : CommitRecord := ⟨v.argPtr, v.commitId, v.methodTag⟩

/-- The ways a dry run can stop the process: a read behind the mapped bytes, or an assertion of
`Play`. -/
inductive PlayFault
  | unmapped
  | assertion
deriving DecidableEq, Repr

/-- `Play(tag, args, dry)`: the number of argument bytes it returns, given the memory from the
argument pointer on and how many bytes of it are mapped. A `Play` is code, so it sees the mapped bytes
only, and it notices that there are more of them only if it has run out of them before. -/
structure DryRun where
  run : ℕ → Mem → ℕ → Except PlayFault ℕ
  reads : ∀ {tag n : ℕ} {m m' : Mem}, (∀ i < n, m i = m' i) → run tag m n = run tag m' n
  mono : ∀ {tag n n' : ℕ} {m : Mem}, n ≤ n' → run tag m n ≠ .error .unmapped →
    run tag m n' = run tag m n

/-- The ways recovery can stop the process: a read outside the mapped file, one of its assertions, or
one of `Play`'s. `outOfFuel` marks an exhausted loop bound and is never reached from `recover`. -/
inductive RecoverFault
  | unmapped
  | badMagic
  | playAssertion
  | parentLost
  | queueNotEmpty
  | outOfFuel
deriving DecidableEq, Repr

/-- The fault of a dry run as one of recovery. -/
def RecoverFault.ofPlay : PlayFault → RecoverFault
  | .unmapped => .unmapped
  | .assertion => .playAssertion

/-- Does a method tag belong to a nested transaction? -/
def isNested (tag : ℕ) : Bool := (tag &&& nestedTxTag) != 0

/-- Read a 64-bit word of the mapped file. -/
def readWord (log : RedoLog) (ptr : ℕ) : Except RecoverFault ℕ :=
  if ptr + 8 ≤ log.size then .ok (load log.data ptr 8) else .error .unmapped

/-- The `do … while` search behind a partial transaction: step by cache lines to the next word
that holds the magic. -/
def nextMagic (log : RedoLog) : ℕ → ℕ → Except RecoverFault ℕ
  | 0, _ => .error .outOfFuel
  | fuel + 1, ptr => do
    let magic ← readWord log (ptr + cacheLineWidth)
    if magic = redoLogMagic then .ok (ptr + cacheLineWidth)
    else nextMagic log fuel (ptr + cacheLineWidth)

/-- Where the magic of the entry at `ptr` is: right behind the commit id, unless the entry is a
partial transaction (no commit id, no magic), which is skipped. -/
def magicPtr (log : RedoLog) (ptr commitId magic : ℕ) : Except RecoverFault ℕ :=
  if commitId = 0 ∧ magic ≠ redoLogMagic then nextMagic log (log.size + 1) (ptr + 8)
  else .ok (ptr + 8)

section Scan

variable (play : DryRun) (parentReady : CommitRecord → Bool) (log : RedoLog)

/-- The dry run on the arguments at `argPtr`, when it may read the log up to `limit`. -/
def dryRun (limit tag argPtr : ℕ) : Except PlayFault ℕ :=
  play.run tag (suffix log.data argPtr) (limit - argPtr)

/-- The number of argument bytes behind a method tag: sixteen for a nested entry (the parent's
uuid), else what the dry run returns. -/
def bytesProcessed (limit tag argPtr : ℕ) : Except PlayFault ℕ :=
  if isNested tag then .ok 16 else dryRun play log limit tag argPtr

/-- One iteration's reading part: the entry found at the cursor and the advanced cursor. -/
def scanEntry (ptr : ℕ) : Except RecoverFault (Visit × ℕ) := do
  let commitId ← readWord log ptr
  let magic ← readWord log (ptr + 8)
  -- partial transaction: the commit id read above stays in use for the entry found behind it
  let mptr ← magicPtr log ptr commitId magic
  let magic ← readWord log mptr
  if magic ≠ redoLogMagic then .error .badMagic
  else
    let methodTag ← readWord log (mptr + 8)
    let argPtr := mptr + 16
    let n ← (bytesProcessed play log log.size methodTag argPtr).mapError .ofPlay
    .ok (⟨ptr, commitId, methodTag, argPtr⟩,
      argPtr + n + (cacheLineWidth - (24 + n) % cacheLineWidth))

/-- The scan cursor, what was visited so far, and the replayer. -/
structure RecoverState where
  ptr : ℕ
  visited : List Visit
  replay : OrderedReplay.State CommitRecord

/-- One iteration of the recovery loop. Playing a nested record waits for its parent. -/
def recoverStep (st : RecoverState) : Except RecoverFault RecoverState := do
  let (v, next) ← scanEntry play log st.ptr
  let replay := OrderedReplay.feed CommitRecord.commitId st.replay v.toRecord
  if (replay.played.drop st.replay.played.length).all
      (fun r => !isNested r.methodTag || parentReady r) then
    .ok ⟨next, st.visited ++ [v], replay⟩
  else .error .parentLost

/-- The recovery loop. -/
def recoverLoop : ℕ → RecoverState → Except RecoverFault RecoverState
  | 0, st => if st.ptr < log.tail then .error .outOfFuel else .ok st
  | fuel + 1, st =>
    if st.ptr < log.tail then do
      let st ← recoverStep play parentReady log st
      recoverLoop fuel st
    else .ok st

/-- `PersistentObject::Recover`, started behind `lastPlayed`. `logHead` is the offset a snapshot
recorded for the object, zero when there is none. -/
def recover (lastPlayed logHead : ℕ) : Except RecoverFault RecoverState := do
  let head := if logHead = 0 then log.head else logHead
  let st ← recoverLoop play parentReady log log.tail ⟨head, [], ⟨lastPlayed, [], []⟩⟩
  if st.replay.queue = [] then .ok st else .error .queueNotEmpty

end Scan

/-! ## One iteration -/

section Lemmas

variable {play : DryRun} {parentReady : CommitRecord → Bool} {log : RedoLog}

theorem readWord_ok {p : ℕ} (h : p + 8 ≤ log.size) : readWord log p = .ok (load log.data p 8) := by
  simp [readWord, h]

theorem scanEntry_offset {ptr next : ℕ} {v : Visit} (h : scanEntry play log ptr = .ok (v, next)) :
    v.offset = ptr := by
  simp only [scanEntry, bind, Except.bind] at h
  repeat' split at h
  all_goals first
    | cases h; rfl
    | cases h

/-- At a complete entry an iteration reads that entry back. -/
theorem scanEntry_of_entryAt {ptr commitId tag : ℕ} {args : List UInt8}
    (h : EntryAt log.data ptr commitId tag args)
    (hfit : ptr + 24 ≤ log.size)
    (hargs : bytesProcessed play log log.size tag (ptr + 24) = .ok args.length) :
    scanEntry play log ptr =
      .ok (⟨ptr, commitId, tag, ptr + 24⟩,
        ptr + (24 + args.length + (cacheLineWidth - (24 + args.length) % cacheLineWidth))) := by
  have hargs' : bytesProcessed play log log.size tag (ptr + 8 + 16) = .ok args.length := by
    rw [Nat.add_assoc]; exact hargs
  have h1 : readWord log ptr = .ok (load log.data ptr 8) := readWord_ok (by omega)
  have h2 : readWord log (ptr + 8) = .ok (load log.data (ptr + 8) 8) := readWord_ok (by omega)
  have h3 : readWord log (ptr + 8 + 8) = .ok (load log.data (ptr + 8 + 8) 8) :=
    readWord_ok (by omega)
  simp only [scanEntry, bind, Except.bind, h1, h2, h.commitId_eq, h.magic_eq, magicPtr, ne_eq,
    not_true_eq_false, and_false, if_false, h3]
  rw [Nat.add_assoc ptr 8 8, h.tag_eq, hargs']
  simp only [Except.mapError, Except.ok.injEq, Prod.mk.injEq, true_and]
  omega

/-! ## The search behind a partial transaction -/

/-- The magic at `mptr` is the first one that the search from the entry at `ptr` meets. -/
structure FirstMagic (log : RedoLog) (ptr mptr : ℕ) : Prop where
  line : ∃ k, 0 < k ∧ mptr = ptr + 8 + cacheLineWidth * k ∧
    ∀ j, 0 < j → j < k → load log.data (ptr + 8 + cacheLineWidth * j) 8 ≠ redoLogMagic
  magic_eq : load log.data mptr 8 = redoLogMagic
  mapped : mptr + 16 ≤ log.size

/-- The search behind the entry at `ptr` ends at the magic `mptr`, and the dry run of what stands there
returns `n`. -/
structure Resyncs (play : DryRun) (log : RedoLog) (ptr mptr n : ℕ) : Prop extends
    FirstMagic log ptr mptr where
  processed : bytesProcessed play log log.size (load log.data (mptr + 8) 8) (mptr + 16) = .ok n

theorem readWord_eq_ok {p w : ℕ} (h : readWord log p = .ok w) :
    p + 8 ≤ log.size ∧ load log.data p 8 = w := by
  rw [readWord] at h
  split at h
  · rename_i hfit
    exact ⟨hfit, Except.ok.inj h⟩
  · cases h

/-- Where the search has ended, it has found the first line with a magic. -/
theorem nextMagic_ok {fuel ptr p : ℕ} (h : nextMagic log fuel ptr = .ok p) :
    ∃ k, 0 < k ∧ p = ptr + cacheLineWidth * k ∧ p + 8 ≤ log.size ∧
      load log.data p 8 = redoLogMagic ∧
      ∀ j, 0 < j → j < k → load log.data (ptr + cacheLineWidth * j) 8 ≠ redoLogMagic := by
  induction fuel generalizing ptr with
  | zero => cases h
  | succ fuel ih =>
    by_cases hfit : ptr + cacheLineWidth + 8 ≤ log.size
    · rw [nextMagic, readWord_ok hfit] at h
      simp only [bind, Except.bind] at h
      split at h
      · rename_i hmagic
        cases h
        exact ⟨1, by omega, by rw [Nat.mul_one], hfit, hmagic, fun j h1 h2 => by omega⟩
      · rename_i hno
        obtain ⟨k, hk, hp, hfit', hmagic, hfirst⟩ := ih h
        refine ⟨k + 1, by omega, ?_, hfit', hmagic, fun j hj hjk => ?_⟩
        · rw [hp]
          simp only [cacheLineWidth]
          omega
        · rcases Nat.eq_or_lt_of_le hj with rfl | hj1
          · rwa [Nat.mul_one]
          · have hrest := hfirst (j - 1) (by omega) (by omega)
            have hshift : ptr + cacheLineWidth + cacheLineWidth * (j - 1) =
                ptr + cacheLineWidth * j := by
              simp only [cacheLineWidth]
              omega
            rwa [hshift] at hrest
    · simp [nextMagic, readWord, hfit, bind, Except.bind] at h

/-- The search ends at the first line with a magic. -/
theorem nextMagic_first {fuel ptr k : ℕ} (hk : 0 < k) (hfuel : k ≤ fuel)
    (hfit : ptr + cacheLineWidth * k + 8 ≤ log.size)
    (hmagic : load log.data (ptr + cacheLineWidth * k) 8 = redoLogMagic)
    (hfirst : ∀ j, 0 < j → j < k → load log.data (ptr + cacheLineWidth * j) 8 ≠ redoLogMagic) :
    nextMagic log fuel ptr = .ok (ptr + cacheLineWidth * k) := by
  induction fuel generalizing ptr k with
  | zero => omega
  | succ fuel ih =>
    have hread : readWord log (ptr + cacheLineWidth) = .ok (load log.data (ptr + cacheLineWidth) 8) :=
      readWord_ok (by simp only [cacheLineWidth] at *; omega)
    rcases Nat.eq_or_lt_of_le hk with rfl | hlt
    · rw [Nat.mul_one] at hmagic ⊢
      simp [nextMagic, bind, Except.bind, hread, hmagic]
    · have hno := hfirst 1 (by omega) hlt
      rw [Nat.mul_one] at hno
      have hshift : ∀ j, ptr + cacheLineWidth + cacheLineWidth * j =
          ptr + cacheLineWidth * (j + 1) := fun j => by
        simp only [cacheLineWidth]
        omega
      obtain ⟨k, rfl⟩ : ∃ k', k = k' + 1 := ⟨k - 1, by omega⟩
      have hfound := ih (k := k) (by omega) (by omega)
        (by rw [hshift]; exact hfit) (by rw [hshift]; exact hmagic) fun j hj hjk => by
          rw [hshift]
          exact hfirst (j + 1) (by omega) (by omega)
      rw [hshift] at hfound
      simp [nextMagic, bind, Except.bind, hread, hno, hfound]

theorem nextMagic_eq_iff {ptr mptr : ℕ} (hfit : mptr + 16 ≤ log.size) :
    nextMagic log (log.size + 1) (ptr + 8) = .ok mptr ↔ FirstMagic log ptr mptr := by
  constructor
  · intro h
    obtain ⟨k, hk, hp, -, hmagic, hfirst⟩ := nextMagic_ok h
    exact ⟨⟨k, hk, hp, hfirst⟩, hmagic, hfit⟩
  · rintro ⟨⟨k, hk, rfl, hfirst⟩, hmagic, -⟩
    have hle : k ≤ cacheLineWidth * k := Nat.le_mul_of_pos_left k (by decide)
    exact nextMagic_first hk (by omega) (by omega) hmagic hfirst

/-- **The iteration at a partial transaction** returns exactly when the search ends at a magic whose
dry run returns. It continues behind what stands there, under the commit id zero. -/
theorem scanEntry_partial_iff {ptr : ℕ} (hzero : load log.data ptr 8 = 0)
    (hno : load log.data (ptr + 8) 8 ≠ redoLogMagic) {r : Visit × ℕ} :
    scanEntry play log ptr = .ok r ↔ ∃ mptr n, Resyncs play log ptr mptr n ∧
      r = (⟨ptr, 0, load log.data (mptr + 8) 8, mptr + 16⟩,
        mptr + 16 + n + (cacheLineWidth - (24 + n) % cacheLineWidth)) := by
  constructor
  · intro h
    simp only [scanEntry, bind, Except.bind] at h
    split at h
    · cases h
    rename_i id hid
    split at h
    · cases h
    rename_i magic hmagic
    obtain ⟨-, rfl⟩ := readWord_eq_ok hid
    obtain ⟨-, rfl⟩ := readWord_eq_ok hmagic
    rw [magicPtr, if_pos ⟨hzero, hno⟩] at h
    split at h
    · cases h
    rename_i mptr hfound
    split at h
    · cases h
    split at h
    · cases h
    split at h
    · cases h
    rename_i tag htag
    obtain ⟨hfit, rfl⟩ := readWord_eq_ok htag
    cases hn : bytesProcessed play log log.size (load log.data (mptr + 8) 8) (mptr + 16) with
    | error f =>
      rw [hn] at h
      cases h
    | ok n =>
      rw [hn] at h
      cases h
      exact ⟨mptr, n, ⟨(nextMagic_eq_iff (by omega)).mp hfound, hn⟩, by rw [hzero]⟩
  · rintro ⟨mptr, n, ⟨hfirst, hn⟩, rfl⟩
    obtain ⟨k, hk, hline, -⟩ := hfirst.line
    have hfit := hfirst.mapped
    have h1 : readWord log ptr = .ok (load log.data ptr 8) := readWord_ok (by omega)
    have h2 : readWord log (ptr + 8) = .ok (load log.data (ptr + 8) 8) := readWord_ok (by omega)
    have h3 : readWord log mptr = .ok (load log.data mptr 8) := readWord_ok (by omega)
    have h4 : readWord log (mptr + 8) = .ok (load log.data (mptr + 8) 8) := readWord_ok (by omega)
    have hfound := (nextMagic_eq_iff hfit).mpr hfirst
    simp only [scanEntry, bind, Except.bind, h1, h2, h3, h4, magicPtr, hzero, hno, ne_eq,
      not_false_eq_true, and_self, if_true, hfound, hfirst.magic_eq, not_true_eq_false, if_false, hn,
      Except.mapError]

theorem recoverStep_ok {st st' : RecoverState}
    (h : recoverStep play parentReady log st = .ok st') :
    ∃ v, scanEntry play log st.ptr = .ok (v, st'.ptr) ∧ st'.visited = st.visited ++ [v] ∧
      st'.replay = OrderedReplay.feed CommitRecord.commitId st.replay v.toRecord := by
  simp only [recoverStep, bind, Except.bind] at h
  split at h
  · cases h
  rename_i r hr
  split at h
  · cases h
    exact ⟨r.1, hr, rfl, rfl⟩
  · cases h

/-! ## Waiting for parents -/

/-- The waits of the nested records ahead of id `p` return. -/
def ParentsReady (parentReady : CommitRecord → Bool) (p : ℕ) (rs : List CommitRecord) : Prop :=
  ∀ r ∈ rs, p < r.commitId → isNested r.methodTag = true → parentReady r = true

theorem parentsReady_true (p : ℕ) (rs : List CommitRecord) : ParentsReady (fun _ => true) p rs :=
  fun _ _ _ _ => rfl

/-- The records that are left after a feed are among those that were there before. -/
theorem ParentsReady.feed {s : OrderedReplay.State CommitRecord} {x : CommitRecord}
    {rs : List CommitRecord} (h : ParentsReady parentReady s.last (s.queue ++ x :: rs)) :
    ParentsReady parentReady (OrderedReplay.feed CommitRecord.commitId s x).last
      ((OrderedReplay.feed CommitRecord.commitId s x).queue ++ rs) := by
  intro r hr hlt
  have hle := OrderedReplay.le_feed_last CommitRecord.commitId s x
  refine h r ?_ (by omega)
  rcases List.mem_append.mp hr with hr | hr
  · rcases OrderedReplay.mem_feed_queue CommitRecord.commitId hr with rfl | hr
    · simp
    · simp [hr]
  · simp [hr]

/-- What a completed iteration has played had its parents ready. -/
theorem recoverStep_ok_ready {st st' : RecoverState}
    (h : recoverStep play parentReady log st = .ok st') :
    ∃ new, st'.replay.played = st.replay.played ++ new ∧
      ∀ r ∈ new, isNested r.methodTag = true → parentReady r = true := by
  simp only [recoverStep, bind, Except.bind] at h
  split at h
  · cases h
  rename_i r hr
  split at h
  · rename_i hall
    cases h
    dsimp only at hall ⊢
    rw [OrderedReplay.feed, OrderedReplay.drain_played, List.drop_left] at hall
    refine ⟨_, by rw [OrderedReplay.feed, OrderedReplay.drain_played], fun x hx hn => ?_⟩
    simpa [hn] using List.all_eq_true.mp hall x hx
  · cases h

/-- When the parent waits return, an iteration is the scan of one entry and one feed. -/
theorem recoverStep_of_scanEntry {st : RecoverState} {v : Visit} {next : ℕ}
    (h : scanEntry play log st.ptr = .ok (v, next))
    (hready : ParentsReady parentReady st.replay.last (v.toRecord :: st.replay.queue)) :
    recoverStep play parentReady log st =
      .ok ⟨next, st.visited ++ [v],
        OrderedReplay.feed CommitRecord.commitId st.replay v.toRecord⟩ := by
  simp only [recoverStep, bind, Except.bind, h]
  rw [if_pos]
  simp only [List.all_eq_true, Bool.or_eq_true, Bool.not_eq_eq_eq_not, Bool.not_true]
  intro r hr
  -- only what this iteration plays waits for its parent
  obtain ⟨hahead, hmem⟩ := OrderedReplay.mem_feed_played CommitRecord.commitId hr
  cases hn : isNested r.methodTag with
  | false => exact Or.inl rfl
  | true => exact Or.inr (hready r (by simpa using hmem) hahead hn)

/-! ## The loop -/

theorem recoverLoop_done {fuel : ℕ} {st : RecoverState} (h : log.tail ≤ st.ptr) :
    recoverLoop play parentReady log fuel st = .ok st := by
  cases fuel <;> simp [recoverLoop, Nat.not_lt.mpr h]

theorem recoverLoop_succ {fuel : ℕ} {st : RecoverState} (h : st.ptr < log.tail) :
    recoverLoop play parentReady log (fuel + 1) st =
      recoverStep play parentReady log st >>= recoverLoop play parentReady log fuel := by
  simp [recoverLoop, h]

/-- A completed loop has fed exactly what it visited, and its cursor has reached the tail. -/
theorem recoverLoop_ok {fuel : ℕ} {st st' : RecoverState}
    (h : recoverLoop play parentReady log fuel st = .ok st') :
    log.tail ≤ st'.ptr ∧ ∃ vs, st'.visited = st.visited ++ vs ∧
      st'.replay =
        OrderedReplay.replay CommitRecord.commitId st.replay (vs.map Visit.toRecord) := by
  induction fuel generalizing st with
  | zero =>
    simp only [recoverLoop] at h
    split at h
    · cases h
    · cases h
      exact ⟨by omega, [], by simp, rfl⟩
  | succ fuel ih =>
    by_cases hlt : st.ptr < log.tail
    · rw [recoverLoop_succ hlt] at h
      cases hs : recoverStep play parentReady log st with
      | error e => rw [hs] at h; cases h
      | ok st₁ =>
        rw [hs] at h
        obtain ⟨v, -, hv, hr⟩ := recoverStep_ok hs
        obtain ⟨hptr, vs, hvs, hrep⟩ := ih h
        refine ⟨hptr, v :: vs, ?_, ?_⟩
        · rw [hvs, hv, List.append_assoc, List.singleton_append]
        · rw [hrep, hr, List.map_cons, OrderedReplay.replay, OrderedReplay.replay, List.foldl_cons]
    · rw [recoverLoop_done (by omega)] at h
      cases h
      exact ⟨by omega, [], by simp, rfl⟩

/-- The first iteration of a completed loop that starts before the tail. -/
theorem recoverLoop_ok_step {fuel : ℕ} {st st' : RecoverState}
    (h : recoverLoop play parentReady log fuel st = .ok st') (hlt : st.ptr < log.tail) :
    ∃ fuel' st₁ v, recoverLoop play parentReady log fuel' st₁ = .ok st' ∧
      recoverStep play parentReady log st = .ok st₁ ∧
      scanEntry play log st.ptr = .ok (v, st₁.ptr) ∧ st₁.visited = st.visited ++ [v] ∧
      st₁.replay = OrderedReplay.feed CommitRecord.commitId st.replay v.toRecord := by
  cases fuel with
  | zero => simp [recoverLoop, hlt] at h
  | succ fuel =>
    rw [recoverLoop_succ hlt] at h
    cases hs : recoverStep play parentReady log st with
    | error e => rw [hs] at h; cases h
    | ok st₁ =>
      rw [hs] at h
      obtain ⟨v, hv⟩ := recoverStep_ok hs
      exact ⟨fuel, st₁, v, h, rfl, hv⟩

/-- A completed loop that starts before the tail visits its starting point first. -/
theorem recoverLoop_ok_head {fuel : ℕ} {st st' : RecoverState}
    (h : recoverLoop play parentReady log fuel st = .ok st') (hlt : st.ptr < log.tail) :
    ∃ v vs, v.offset = st.ptr ∧ st'.visited = st.visited ++ v :: vs := by
  obtain ⟨fuel', st₁, v, hrest, -, hscan, hv, -⟩ := recoverLoop_ok_step h hlt
  obtain ⟨-, vs, hvs, -⟩ := recoverLoop_ok hrest
  exact ⟨v, vs, scanEntry_offset hscan, by
    rw [hvs, hv, List.append_assoc, List.singleton_append]⟩

/-- What a completed loop has played had its parents ready. -/
theorem recoverLoop_ok_ready {fuel : ℕ} {st st' : RecoverState}
    (h : recoverLoop play parentReady log fuel st = .ok st') :
    ∃ new, st'.replay.played = st.replay.played ++ new ∧
      ∀ r ∈ new, isNested r.methodTag = true → parentReady r = true := by
  induction fuel generalizing st with
  | zero =>
    simp only [recoverLoop] at h
    split at h
    · cases h
    · cases h
      exact ⟨[], by simp, by simp⟩
  | succ fuel ih =>
    by_cases hlt : st.ptr < log.tail
    · rw [recoverLoop_succ hlt] at h
      cases hs : recoverStep play parentReady log st with
      | error e => rw [hs] at h; cases h
      | ok st₁ =>
        rw [hs] at h
        obtain ⟨new, hnew, hready⟩ := recoverStep_ok_ready hs
        obtain ⟨rest, hrest, hready'⟩ := ih h
        refine ⟨new ++ rest, by rw [hrest, hnew, List.append_assoc], fun r hr => ?_⟩
        exact (List.mem_append.mp hr).elim (hready r) (hready' r)
    · rw [recoverLoop_done (by omega)] at h
      cases h
      exact ⟨[], by simp, by simp⟩

end Lemmas

end Pronto
