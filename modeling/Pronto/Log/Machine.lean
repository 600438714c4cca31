import Pronto.Log.Entries
import Pronto.Lib.Runs

/-!
# Concurrent transactions on one log, cache lines and crashes

Any number of threads append to and commit in one log. A transaction passes through the steps of
`Savitar_log_append` (reserve space by advancing the tail, store the magic and the arguments, drain,
persist the tail) and later through those of `Savitar_log_commit` (take the next id from
`last_commit`, store it into the entry, persist it). The steps of different transactions interleave
freely.

Stores reach the program's view `log` at once. What a crash leaves behind is `durable`, which
changes a cache line at a time: `pmem_persist` writes back the lines it covers, `pmem_drain` the
lines stored before it when `drainPersists` is set, and any line may be written back at any time.
A crash loses the rest; the next session opens what is left and recovers it.

`logStep` is one step as a function, `LogStep` lists what a step can do, and `logStep_sound` relates
the two.
-/

namespace Pronto

open Memory Tiling

/-! ## Cache lines -/

/-- Does the line hold one of the `n` bytes from `a` on? -/
def covers (a n line : ℕ) : Bool :=
  decide (a / cacheLineWidth ≤ line ∧ line * cacheLineWidth < a + n)

/-- Write back the selected lines; the header is line zero. -/
def writeBack (lines : ℕ → Bool) (log durable : RedoLog) : RedoLog :=
  { (if lines 0 then log else durable) with
    data := mergeOn (fun x => lines (x / cacheLineWidth) = true) log.data durable.data }

/-- `offsetof(struct RedoLog, tail)`. -/
def tailFieldOffset : ℕ := 40

/-! ## Transactions -/

/-- How far a transaction has come. -/
inductive Phase
  /-- Space is reserved and the first `k` bytes behind the commit-id hole are stored. -/
  | writing (k : ℕ)
  | drained
  /-- `Savitar_log_append` has returned. -/
  | appended
  /-- `Savitar_log_commit` has taken an id. -/
  | taken (id : ℕ)
  | stored (id : ℕ)
  /-- `Savitar_log_commit` has returned. -/
  | committed (id : ℕ)
  /-- An entry of an earlier session, found in the log with this word in its hole. -/
  | found (word : ℕ)
deriving DecidableEq, Repr

/-- The word in the commit-id hole of a transaction's entry. -/
def Phase.hole : Phase → ℕ
  | .stored id => id
  | .committed id => id
  | .found word => word
  | _ => 0

/-- The commit id a transaction holds, stored or not; zero if it holds none. -/
def Phase.claim : Phase → ℕ
  | .taken id => id
  | .stored id => id
  | .committed id => id
  | .found word => word
  | _ => 0

/-- A transaction: the offset reserved for its entry and the arguments of its append. -/
structure Tx where
  offset : ℕ
  vector : List (List UInt8)
  phase : Phase
deriving DecidableEq, Repr

/-- The space reserved for a transaction's entry. -/
def Tx.size (tx : Tx) : ℕ := entrySize tx.vector

/-- What the appender stores behind the commit-id hole. -/
def entryBytes (v : List (List UInt8)) : List UInt8 := bytesLE redoLogMagic 8 ++ v.flatten

/-! ## The machine -/

/-- The process that owns the log. -/
inductive Mode
  | running
  /-- An assertion failed. -/
  | aborted
  | down
  /-- The log is open and not yet recovered. -/
  | recovering
deriving DecidableEq, Repr

/-- The log as the program and as a crash sees it, the length of its file, and the transactions
with an entry in it, in the order of their reservations. -/
structure LogState where
  mode : Mode
  fileSize : ℕ
  log : RedoLog
  durable : RedoLog
  txs : List Tx

/-- The steps; `i` numbers the transactions in the order of their reservations. -/
inductive LogAction
  | reserve (v : List (List UInt8))
  | write (i : ℕ)
  | drain (i : ℕ)
  | persistTail (i : ℕ)
  | take (i : ℕ)
  | store (i : ℕ)
  | persistId (i : ℕ)
  | evict (line : ℕ)
  | crash
  | reopen
  | recover (lastPlayed logHead : ℕ)
deriving DecidableEq, Repr

/-- `Savitar_log_create` has returned: the header is durable. -/
def LogState.create (id : Uuid) (size : ℕ) : LogState :=
  ⟨.running, size, savitarLogCreate id size, savitarLogCreate id size, []⟩

/-- `__sync_fetch_and_add` on the tail and the assertion behind it. -/
def LogState.reserve (s : LogState) (v : List (List UInt8)) : LogState :=
  { s with
    mode := if s.log.tail + entrySize v ≤ s.log.size then .running else .aborted
    log := { s.log with tail := s.log.tail + entrySize v }
    txs := s.txs ++ [⟨s.log.tail, v, .writing 0⟩] }

/-- Replace the phase of a transaction. -/
def LogState.setPhase (s : LogState) (i : ℕ) (p : Phase) : LogState :=
  { s with txs := s.txs.modify i fun tx => { tx with phase := p } }

/-- Store bytes into the program's view. -/
def LogState.storeBytes (s : LogState) (a : ℕ) (bs : List UInt8) : LogState :=
  { s with log := { s.log with data := store s.log.data a bs } }

/-- `pmem_persist`. -/
def LogState.persist (s : LogState) (a n : ℕ) : LogState :=
  { s with durable := writeBack (covers a n) s.log s.durable }

/-- `__sync_add_and_fetch` on `last_commit` and the assertion behind it. -/
def LogState.takeId (s : LogState) (i : ℕ) : LogState :=
  { s.setPhase i (.taken (s.log.lastCommit + 1)) with
    mode := if s.log.lastCommit + 1 < uint64Max then .running else .aborted
    log := { s.log with lastCommit := s.log.lastCommit + 1 } }

/-- The entries below the durable tail, as the next session finds them. -/
def LogState.survivors (s : LogState) : List Tx :=
  (s.txs.filter fun tx => tx.offset < s.durable.tail).map fun tx =>
    { tx with phase := .found (load s.durable.data tx.offset 8) }

/-- Only the durable image is left. -/
def LogState.crash (s : LogState) : LogState :=
  { s with mode := .down, log := s.durable, txs := s.survivors }

section Step

variable (play : DryRun) (parentReady : CommitRecord → Bool) (drainPersists : Bool)

/-- One step of a transaction that is in progress. -/
def txStep (s : LogState) (i : ℕ) (tx : Tx) : LogAction → Option LogState
  | .write _ =>
    match tx.phase with
    | .writing k => (entryBytes tx.vector)[k]?.map fun b =>
        (s.setPhase i (.writing (k + 1))).storeBytes (tx.offset + 8 + k) [b]
    | _ => none
  | .drain _ =>
    if tx.phase = .writing (entryBytes tx.vector).length then
      some ((if drainPersists then s.persist (tx.offset + 8) (entryBytes tx.vector).length
        else s).setPhase i .drained)
    else none
  | .persistTail _ =>
    if tx.phase = .drained then some ((s.persist tailFieldOffset 8).setPhase i .appended) else none
  | .take _ => if tx.phase = .appended then some (s.takeId i) else none
  | .store _ =>
    match tx.phase with
    | .taken id => some ((s.setPhase i (.stored id)).storeBytes tx.offset (bytesLE id 8))
    | _ => none
  | .persistId _ =>
    match tx.phase with
    | .stored id => some ((s.persist tx.offset 8).setPhase i (.committed id))
    | _ => none
  | _ => none

/-- One step of the machine; `none` when it is not enabled. -/
def logStep (s : LogState) (a : LogAction) : Option LogState :=
  match a with
  | .reserve v => if s.mode = .running ∧ v ≠ [] then some (s.reserve v) else none
  | .write i | .drain i | .persistTail i | .take i | .store i | .persistId i =>
    if s.mode = .running then (s.txs[i]?).bind fun tx => txStep drainPersists s i tx a else none
  | .evict line =>
    if s.mode ≠ .down then
      some { s with durable := writeBack (fun l => l == line) s.log s.durable }
    else none
  | .crash => if s.mode ≠ .down then some s.crash else none
  | .reopen =>
    if s.mode = .down then
      (savitarLogOpen s.log s.fileSize).map fun log => { s with mode := .recovering, log := log }
    else none
  | .recover lastPlayed logHead =>
    if s.mode = .recovering then
      match recover play parentReady s.log lastPlayed logHead with
      | .ok _ => some { s with mode := .running }
      | .error _ => none
    else none

/-- What a step can do, with the transaction it acts on split off. -/
inductive LogStep : LogState → LogAction → LogState → Prop
  | reserve {s : LogState} {v : List (List UInt8)} (hmode : s.mode = .running) (hv : v ≠ []) :
    LogStep s (.reserve v) (s.reserve v)
  | write {s : LogState} {i : ℕ} {l r : List Tx} {off k : ℕ} {v : List (List UInt8)} {b : UInt8}
    (hmode : s.mode = .running) (htxs : s.txs = l ++ ⟨off, v, .writing k⟩ :: r)
    (hb : (entryBytes v)[k]? = some b) :
    LogStep s (.write i)
      { s.storeBytes (off + 8 + k) [b] with txs := l ++ ⟨off, v, .writing (k + 1)⟩ :: r }
  | drain {s : LogState} {i : ℕ} {l r : List Tx} {off : ℕ} {v : List (List UInt8)}
    (hmode : s.mode = .running)
    (htxs : s.txs = l ++ ⟨off, v, .writing (entryBytes v).length⟩ :: r) :
    LogStep s (.drain i)
      { (if drainPersists then s.persist (off + 8) (entryBytes v).length else s) with
        txs := l ++ ⟨off, v, .drained⟩ :: r }
  | persistTail {s : LogState} {i : ℕ} {l r : List Tx} {off : ℕ} {v : List (List UInt8)}
    (hmode : s.mode = .running) (htxs : s.txs = l ++ ⟨off, v, .drained⟩ :: r) :
    LogStep s (.persistTail i)
      { s.persist tailFieldOffset 8 with txs := l ++ ⟨off, v, .appended⟩ :: r }
  | take {s : LogState} {i : ℕ} {l r : List Tx} {off : ℕ} {v : List (List UInt8)}
    (hmode : s.mode = .running) (htxs : s.txs = l ++ ⟨off, v, .appended⟩ :: r) :
    LogStep s (.take i)
      { s.takeId i with txs := l ++ ⟨off, v, .taken (s.log.lastCommit + 1)⟩ :: r }
  | store {s : LogState} {i : ℕ} {l r : List Tx} {off id : ℕ} {v : List (List UInt8)}
    (hmode : s.mode = .running) (htxs : s.txs = l ++ ⟨off, v, .taken id⟩ :: r) :
    LogStep s (.store i)
      { s.storeBytes off (bytesLE id 8) with txs := l ++ ⟨off, v, .stored id⟩ :: r }
  | persistId {s : LogState} {i : ℕ} {l r : List Tx} {off id : ℕ} {v : List (List UInt8)}
    (hmode : s.mode = .running) (htxs : s.txs = l ++ ⟨off, v, .stored id⟩ :: r) :
    LogStep s (.persistId i) { s.persist off 8 with txs := l ++ ⟨off, v, .committed id⟩ :: r }
  | evict {s : LogState} {line : ℕ} (hmode : s.mode ≠ .down) :
    LogStep s (.evict line) { s with durable := writeBack (fun l => l == line) s.log s.durable }
  | crash {s : LogState} (hmode : s.mode ≠ .down) : LogStep s .crash s.crash
  | reopen {s : LogState} (hmode : s.mode = .down) :
    LogStep s .reopen { s with mode := .recovering, log := { s.log with snapshotLock := 0 } }
  | recover {s : LogState} {lastPlayed logHead : ℕ} (hmode : s.mode = .recovering) :
    LogStep s (.recover lastPlayed logHead) { s with mode := .running }

end Step

section Sound

variable {play : DryRun} {parentReady : CommitRecord → Bool} {drainPersists : Bool}

/-- The executable steps of a transaction are among those of the relation. -/
theorem txStep_sound {s s' : LogState} {i : ℕ} {tx : Tx} {a : LogAction}
    (hmode : s.mode = .running) (htx : s.txs[i]? = some tx)
    (h : txStep drainPersists s i tx a = some s') : LogStep drainPersists s a s' := by
  obtain ⟨hi, hget⟩ := List.getElem?_eq_some_iff.mp htx
  have hsplit : s.txs = s.txs.take i ++ tx :: s.txs.drop (i + 1) := by
    rw [← hget, List.getElem_cons_drop, List.take_append_drop]
  have hset : ∀ p, (s.txs.modify i fun tx => { tx with phase := p }) =
      s.txs.take i ++ ⟨tx.offset, tx.vector, p⟩ :: s.txs.drop (i + 1) := fun p => by
    rw [List.modify_eq_take_cons_drop hi, hget]
  obtain ⟨off, v, p⟩ := tx
  cases a with
  | write j =>
    cases p with
    | writing k =>
      obtain ⟨b, hb, rfl⟩ := Option.map_eq_some_iff.mp h
      have : LogStep drainPersists s (.write j) _ := .write hmode hsplit hb
      rwa [← hset] at this
    | _ => cases h
  | drain j =>
    obtain ⟨hp, h⟩ := Option.ite_none_right_eq_some.mp h
    cases h
    dsimp only at hp
    subst hp
    have : LogStep drainPersists s (.drain j) _ := .drain hmode hsplit
    rw [← hset] at this
    cases drainPersists <;> exact this
  | persistTail j =>
    obtain ⟨hp, h⟩ := Option.ite_none_right_eq_some.mp h
    cases h
    dsimp only at hp
    subst hp
    have : LogStep drainPersists s (.persistTail j) _ := .persistTail hmode hsplit
    rwa [← hset] at this
  | take j =>
    obtain ⟨hp, h⟩ := Option.ite_none_right_eq_some.mp h
    cases h
    dsimp only at hp
    subst hp
    have : LogStep drainPersists s (.take j) _ := .take hmode hsplit
    rwa [← hset] at this
  | store j =>
    cases p with
    | taken id =>
      cases h
      have : LogStep drainPersists s (.store j) _ := .store hmode hsplit
      rwa [← hset] at this
    | _ => cases h
  | persistId j =>
    cases p with
    | stored id =>
      cases h
      have : LogStep drainPersists s (.persistId j) _ := .persistId hmode hsplit
      rwa [← hset] at this
    | _ => cases h
  | _ => cases h

/-- **The executable machine takes the steps of the relation**, so what is proved case by case of
the relation holds of every run. -/
theorem logStep_sound {s s' : LogState} {a : LogAction}
    (h : logStep play parentReady drainPersists s a = some s') : LogStep drainPersists s a s' := by
  cases a with
  | reserve v =>
    obtain ⟨⟨hmode, hv⟩, h⟩ := Option.ite_none_right_eq_some.mp h
    cases h
    exact .reserve hmode hv
  | evict line =>
    obtain ⟨hmode, h⟩ := Option.ite_none_right_eq_some.mp h
    cases h
    exact .evict hmode
  | crash =>
    obtain ⟨hmode, h⟩ := Option.ite_none_right_eq_some.mp h
    cases h
    exact .crash hmode
  | reopen =>
    obtain ⟨hmode, h⟩ := Option.ite_none_right_eq_some.mp h
    obtain ⟨log, hlog, rfl⟩ := Option.map_eq_some_iff.mp h
    obtain ⟨-, hlog⟩ := Option.ite_none_right_eq_some.mp hlog
    cases hlog
    exact .reopen hmode
  | recover lastPlayed logHead =>
    obtain ⟨hmode, h⟩ := Option.ite_none_right_eq_some.mp h
    split at h
    · cases h
      exact .recover hmode
    · cases h
  | _ =>
    obtain ⟨hmode, h⟩ := Option.ite_none_right_eq_some.mp h
    obtain ⟨tx, htx, h⟩ := Option.bind_eq_some_iff.mp h
    exact txStep_sound hmode htx h

end Sound

/-! ## Uninterrupted calls

A transaction whose steps are not interleaved with others does what `savitarLogAppend` and
`savitarLogCommit` do. -/

/-- The steps of `Savitar_log_append` by the next transaction, number `i`. -/
def appendActions (i : ℕ) (v : List (List UInt8)) : List LogAction :=
  .reserve v :: (List.replicate (entryBytes v).length (.write i) ++ [.drain i, .persistTail i])

/-- The steps of `Savitar_log_commit` by transaction number `i`. -/
def commitActions (i : ℕ) : List LogAction := [.take i, .store i, .persistId i]

section Calls

variable {play : DryRun} {parentReady : CommitRecord → Bool} {drainPersists : Bool}

open Runs

theorem modify_append_cons {l r : List Tx} {tx : Tx} {f : Tx → Tx} :
    (l ++ tx :: r).modify l.length f = l ++ f tx :: r := by
  rw [List.modify_eq_take_cons_drop (by simp)]
  simp

/-- The step of a transaction that is split off from the others. -/
theorem logStep_split {s : LogState} {l r : List Tx} {tx : Tx} (hmode : s.mode = .running)
    (htxs : s.txs = l ++ tx :: r) {act : ℕ → LogAction}
    (hact : act = .write ∨ act = .drain ∨ act = .persistTail ∨ act = .take ∨ act = .store ∨
      act = .persistId) :
    logStep play parentReady drainPersists s (act l.length) =
      txStep drainPersists s l.length tx (act l.length) := by
  rcases hact with rfl | rfl | rfl | rfl | rfl | rfl <;> simp [logStep, hmode, htxs]

theorem setPhase_split {s : LogState} {l r : List Tx} {tx : Tx} (htxs : s.txs = l ++ tx :: r)
    (p : Phase) : s.setPhase l.length p = { s with txs := l ++ { tx with phase := p } :: r } := by
  rw [LogState.setPhase, htxs, modify_append_cons]

/-- The stores of an append, from byte `k` on. -/
theorem run_writes {s : LogState} {l : List Tx} {off k n : ℕ} {v : List (List UInt8)}
    (hmode : s.mode = .running) (htxs : s.txs = l ++ [⟨off, v, .writing k⟩])
    (hn : (entryBytes v).length = k + n) :
    run (logStep play parentReady drainPersists) s (List.replicate n (.write l.length)) =
      some { s.storeBytes (off + 8 + k) ((entryBytes v).drop k) with
        txs := l ++ [⟨off, v, .writing (k + n)⟩] } := by
  induction n generalizing s k with
  | zero =>
    rw [List.drop_eq_nil_of_le (by omega)]
    simp only [List.replicate_zero, run, LogState.storeBytes, store_nil, Nat.add_zero, ← htxs]
  | succ n ih =>
    have hk : k < (entryBytes v).length := by omega
    have hstep : logStep play parentReady drainPersists s (.write l.length) =
        some { s.storeBytes (off + 8 + k) [(entryBytes v)[k]] with
          txs := l ++ [⟨off, v, .writing (k + 1)⟩] } := by
      rw [logStep_split hmode htxs (Or.inl rfl), txStep]
      simp only [List.getElem?_eq_getElem hk, Option.map_some, setPhase_split htxs]
      rfl
    have hrest := ih (s := { s.storeBytes (off + 8 + k) [(entryBytes v)[k]] with
      txs := l ++ [⟨off, v, .writing (k + 1)⟩] }) (k := k + 1) hmode rfl (by omega)
    have hdrop : (entryBytes v).drop k = [(entryBytes v)[k]] ++ (entryBytes v).drop (k + 1) := by
      rw [List.singleton_append, List.getElem_cons_drop]
    rw [List.replicate_succ, run, hstep, Option.bind_some, hrest, hdrop]
    simp only [LogState.storeBytes, store_append, List.length_singleton, Nat.add_right_comm k 1 n,
      Nat.add_assoc]

/-- The end of an append whose bytes are all stored. -/
theorem run_drain {s : LogState} {l : List Tx} {off : ℕ} {v : List (List UInt8)}
    (hmode : s.mode = .running) (htxs : s.txs = l ++ [⟨off, v, .writing (entryBytes v).length⟩]) :
    ∃ s', run (logStep play parentReady drainPersists) s
        [.drain l.length, .persistTail l.length] = some s' ∧
      s'.mode = .running ∧ s'.log = s.log ∧ s'.txs = l ++ [⟨off, v, .appended⟩] := by
  obtain ⟨t, hdrain, hmode1, hlog, htxs1⟩ : ∃ t,
      logStep play parentReady drainPersists s (.drain l.length) = some t ∧
      t.mode = .running ∧ t.log = s.log ∧ t.txs = l ++ [⟨off, v, .drained⟩] := by
    rw [logStep_split hmode htxs (Or.inr (Or.inl rfl)), txStep, if_pos rfl]
    cases drainPersists
    · exact ⟨_, rfl, hmode, rfl, by rw [if_neg (by simp), setPhase_split htxs]⟩
    · exact ⟨_, rfl, hmode, rfl, by rw [if_pos rfl, setPhase_split (s := s.persist _ _) htxs]⟩
  have htail : logStep play parentReady drainPersists t (.persistTail l.length) =
      some ((t.persist tailFieldOffset 8).setPhase l.length .appended) := by
    rw [logStep_split hmode1 htxs1 (by simp), txStep, if_pos rfl]
  refine ⟨(t.persist tailFieldOffset 8).setPhase l.length .appended, ?_, hmode1, hlog, ?_⟩
  · simp only [run, hdrain, htail, Option.bind_some]
  · rw [setPhase_split (s := t.persist _ _) htxs1]

/-- An append whose steps are not interrupted is `savitarLogAppend`. -/
theorem run_appendActions {s : LogState} {v : List (List UInt8)} {off : ℕ} {log : RedoLog}
    (hmode : s.mode = .running) (happend : savitarLogAppend s.log v = some (off, log)) :
    ∃ s', run (logStep play parentReady drainPersists) s (appendActions s.txs.length v) = some s' ∧
      s'.mode = .running ∧ s'.log = log ∧ s'.txs = s.txs ++ [⟨off, v, .appended⟩] := by
  obtain ⟨⟨hv, hfit⟩, happend⟩ := Option.ite_none_right_eq_some.mp happend
  cases happend
  have hreserve : logStep play parentReady drainPersists s (.reserve v) = some (s.reserve v) := by
    simp [logStep, hmode, hv]
  have hmode1 : (s.reserve v).mode = .running := if_pos hfit
  have hwrites : run (logStep play parentReady drainPersists) (s.reserve v)
      (List.replicate (entryBytes v).length (.write s.txs.length)) = some _ :=
    run_writes (k := 0) hmode1 rfl (by simp)
  simp only [Nat.zero_add, Nat.add_zero, List.drop_zero] at hwrites
  rw [appendActions, run, hreserve, Option.bind_some, run_append, hwrites, Option.bind_some]
  obtain ⟨s', hrun, hmode2, hlog, htxs⟩ := run_drain
    (s := { (s.reserve v).storeBytes (s.log.tail + 8) (entryBytes v) with
      txs := s.txs ++ [⟨s.log.tail, v, .writing (entryBytes v).length⟩] }) hmode1 rfl
  refine ⟨s', hrun, hmode2, hlog.trans ?_, htxs⟩
  simp only [LogState.storeBytes, LogState.reserve, writeEntry, entryBytes, store_append,
    length_bytesLE]

/-- A commit whose steps are not interrupted is `savitarLogCommit`. -/
theorem run_commitActions {s : LogState} {l r : List Tx} {off : ℕ} {v : List (List UInt8)}
    {log : RedoLog} (hmode : s.mode = .running) (htxs : s.txs = l ++ ⟨off, v, .appended⟩ :: r)
    (hcommit : savitarLogCommit s.log off = some log) :
    ∃ s', run (logStep play parentReady drainPersists) s (commitActions l.length) = some s' ∧
      s'.mode = .running ∧ s'.log = log ∧
      s'.txs = l ++ ⟨off, v, .committed (s.log.lastCommit + 1)⟩ :: r := by
  obtain ⟨hid, hcommit⟩ := Option.ite_none_right_eq_some.mp hcommit
  cases hcommit
  have htake : logStep play parentReady drainPersists s (.take l.length) =
      some (s.takeId l.length) := by
    rw [logStep_split hmode htxs (by simp), txStep, if_pos rfl]
  have hmode1 : (s.takeId l.length).mode = .running := if_pos hid
  have htxs1 : (s.takeId l.length).txs = l ++ ⟨off, v, .taken (s.log.lastCommit + 1)⟩ :: r := by
    simp only [LogState.takeId, setPhase_split htxs]
  set t := ((s.takeId l.length).setPhase l.length (.stored (s.log.lastCommit + 1))).storeBytes off
    (bytesLE (s.log.lastCommit + 1) 8) with ht
  have hstore : logStep play parentReady drainPersists (s.takeId l.length) (.store l.length) =
      some t := by
    rw [logStep_split hmode1 htxs1 (by simp), txStep]
  have htxs2 : t.txs = l ++ ⟨off, v, .stored (s.log.lastCommit + 1)⟩ :: r := by
    rw [ht, LogState.storeBytes, setPhase_split htxs1]
  have hpersist : logStep play parentReady drainPersists t (.persistId l.length) =
      some ((t.persist off 8).setPhase l.length (.committed (s.log.lastCommit + 1))) := by
    rw [logStep_split (show t.mode = .running from hmode1) htxs2 (by simp), txStep]
  refine ⟨(t.persist off 8).setPhase l.length (.committed (s.log.lastCommit + 1)), ?_, hmode1,
    rfl, ?_⟩
  · simp only [commitActions, run, htake, hstore, hpersist, Option.bind_some]
  · rw [setPhase_split (s := t.persist _ _) htxs2]

end Calls

end Pronto
