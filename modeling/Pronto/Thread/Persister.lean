import Mathlib.Logic.Function.Basic
import Pronto.Log.RedoLog
import Pronto.Lib.Runs
import Pronto.Thread.Quiescence

/-!
# Logging calls synchronously and through the persister

A thread announces a call on a persistent object with `Savitar_thread_notify` and commits it with
`Savitar_thread_wait`. The two communicate with the logger through the thread's `sync_buffer`, one
slot for every open call, and `tx_buffer`, whose first word counts the open calls and whose word
`i + 1` is the log offset of the call in slot `i`. A zero method tag says that a slot has nothing to
log.

With `SYNC_SL` the call is logged inside `notify` (`Savitar_persister_log`). Without it a second
thread, `Savitar_persister_worker`, follows the depth of the open calls with its own index and logs
every call whose tag is set, parents first. Both modes are the same program of the application
thread, `appStep`, with the flag as a parameter; `persisterStep` is the second thread. Every step
reads or writes one shared location. Snapshots and recovery are not part of this machine.
-/

namespace Pronto

open Memory Runs

/-- `BUFFER_SIZE`. -/
def bufferSize : ℕ := 8

/-- `tx_buffer[0] - 1` in 64-bit arithmetic. -/
def predWord (b : ℕ) : ℕ := if b = 0 then uint64Max else b - 1

/-- What the logger needs to know of the objects: their uuid, and the argument vector that the
virtual `Log(tag, arg_ptrs)` passes to `AppendLog`. -/
structure Objects where
  uuid : ℕ → Uuid
  logVector : ℕ → ℕ → (ℕ → ℕ) → Mem → List (List UInt8)

/-- The arguments of `Savitar_thread_notify`. Zero and `UINT64_MAX` are not method tags: they mark
a logged call and the end of the thread. -/
structure MethodCall where
  obj : ℕ
  tag : ℕ
  args : List ℕ
  tag_ne_zero : tag ≠ 0
  tag_ne_max : tag ≠ uint64Max
  args_fit : args.length ≤ bufferSize - 2

/-- What the application thread does. -/
inductive Event
  | notify (c : MethodCall)
  | wait (o : ℕ)
  /-- Its own code runs and leaves the memory `m`. -/
  | write (m : Mem)

/-- A slot of `sync_buffer`. -/
structure NvMethodCall where
  objPtr : ℕ
  methodTag : ℕ
  argPtrs : ℕ → ℕ

/-- The memory that both threads see: the buffers, the logs of all objects, and the rest. -/
structure TxShared where
  buffer : ℕ → NvMethodCall
  txBuffer : ℕ → ℕ
  logs : ℕ → RedoLog
  mem : Mem

/-- Where the application thread is inside the event at hand. -/
inductive AppPc
  | ready
  /-- In `notify`: the object and `k` arguments are set. -/
  | setArgs (k : ℕ)
  /-- In `notify`: `tx_buffer[0]` is incremented. -/
  | counted
  /-- In `notify`: the new offset is cleared. -/
  | cleared
  /-- In `wait`: the tag has been read as zero. -/
  | acknowledged
  /-- In `wait`: `tx_buffer[0]` is decremented from `i`. -/
  | popped (i : ℕ)
  /-- In `Savitar_log_commit`. -/
  | committing (offset : ℕ)
  /-- In `Savitar_log_commit`: the commit id is taken. -/
  | idTaken (offset commitId : ℕ)
deriving DecidableEq, Repr

/-- The argument vector that the persister passes on: two locals, or what `Log` makes of the
arguments in the slot. -/
inductive LogRequest
  | nested (tag parent : ℕ)
  | outer (tag : ℕ)
deriving DecidableEq, Repr

/-- Where the persister is. -/
inductive PersisterPc
  /-- About to read the tag of the active slot. -/
  | poll
  /-- The tag was zero; the three reads of `tx_buffer[0]`. -/
  | idleCheck
  | above
  | below
  /-- The tag was set; about to compare it with `UINT64_MAX`. -/
  | tagged
  | terminated
  /-- About to read the object. -/
  | found
  /-- About to look at the parent's offset. -/
  | loaded (obj : ℕ)
  | parentLogged (obj : ℕ)
  | tagBuilt (obj tag : ℕ)
  /-- In `Savitar_log_append`: about to reserve the space. -/
  | append (obj : ℕ) (r : LogRequest)
  /-- In `Savitar_log_append`: about to write the magic. -/
  | magic (obj : ℕ) (r : LogRequest) (offset : ℕ)
  /-- In `Savitar_log_append`: `k` elements of the vector are copied. -/
  | copy (obj : ℕ) (r : LogRequest) (offset dst k : ℕ)
  /-- About to store the offset. -/
  | publish (offset : ℕ)
  /-- About to clear the tag. -/
  | acknowledge
deriving DecidableEq, Repr

/-- Both threads and what they share. -/
structure ProgramState where
  sh : TxShared
  todo : List Event
  app : AppPc
  persister : PersisterPc
  activeTxId : ℕ

/-- The start of a program, with an idle persister. -/
def ProgramState.start (sh : TxShared) (prog : List Event) : ProgramState :=
  ⟨sh, prog, .ready, .poll, 0⟩

/-- The program has been run to its end. -/
def ProgramState.Finished (s : ProgramState) : Prop := s.todo = [] ∧ s.app = .ready

/-! ## Writes to the shared memory -/

/-- Replace a slot. -/
def TxShared.setSlot (s : TxShared) (i : ℕ) (c : NvMethodCall) : TxShared :=
  { s with buffer := Function.update s.buffer i c }

/-- Store the method tag of a slot. -/
def TxShared.setTag (s : TxShared) (i tag : ℕ) : TxShared :=
  s.setSlot i { s.buffer i with methodTag := tag }

/-- Store a word of `tx_buffer`. -/
def TxShared.setTx (s : TxShared) (i v : ℕ) : TxShared :=
  { s with txBuffer := Function.update s.txBuffer i v }

/-- Replace the log of an object. -/
def TxShared.setLog (s : TxShared) (o : ℕ) (log : RedoLog) : TxShared :=
  { s with logs := Function.update s.logs o log }

section Simp

variable (s : TxShared) (i v : ℕ) (c : NvMethodCall) (log : RedoLog)

@[simp] theorem TxShared.setSlot_buffer : (s.setSlot i c).buffer = Function.update s.buffer i c := rfl
@[simp] theorem TxShared.setSlot_txBuffer : (s.setSlot i c).txBuffer = s.txBuffer := rfl
@[simp] theorem TxShared.setSlot_logs : (s.setSlot i c).logs = s.logs := rfl
@[simp] theorem TxShared.setSlot_mem : (s.setSlot i c).mem = s.mem := rfl
@[simp] theorem TxShared.setTag_txBuffer : (s.setTag i v).txBuffer = s.txBuffer := rfl
@[simp] theorem TxShared.setTag_logs : (s.setTag i v).logs = s.logs := rfl
@[simp] theorem TxShared.setTag_mem : (s.setTag i v).mem = s.mem := rfl
@[simp] theorem TxShared.setTx_buffer : (s.setTx i v).buffer = s.buffer := rfl
@[simp] theorem TxShared.setTx_txBuffer :
    (s.setTx i v).txBuffer = Function.update s.txBuffer i v := rfl
@[simp] theorem TxShared.setTx_logs : (s.setTx i v).logs = s.logs := rfl
@[simp] theorem TxShared.setTx_mem : (s.setTx i v).mem = s.mem := rfl
@[simp] theorem TxShared.setLog_buffer : (s.setLog i log).buffer = s.buffer := rfl
@[simp] theorem TxShared.setLog_txBuffer : (s.setLog i log).txBuffer = s.txBuffer := rfl
@[simp] theorem TxShared.setLog_logs :
    (s.setLog i log).logs = Function.update s.logs i log := rfl
@[simp] theorem TxShared.setLog_mem : (s.setLog i log).mem = s.mem := rfl

@[simp] theorem TxShared.setTag_objPtr (j : ℕ) :
    ((s.setTag i v).buffer j).objPtr = (s.buffer j).objPtr := by
  rcases eq_or_ne j i with rfl | hne
  · simp [TxShared.setTag]
  · simp [TxShared.setTag, Function.update_of_ne hne]

@[simp] theorem TxShared.setTag_argPtrs (j : ℕ) :
    ((s.setTag i v).buffer j).argPtrs = (s.buffer j).argPtrs := by
  rcases eq_or_ne j i with rfl | hne
  · simp [TxShared.setTag]
  · simp [TxShared.setTag, Function.update_of_ne hne]

@[simp] theorem TxShared.setTag_methodTag (j : ℕ) :
    ((s.setTag i v).buffer j).methodTag = if j = i then v else (s.buffer j).methodTag := by
  rcases eq_or_ne j i with rfl | hne
  · simp [TxShared.setTag]
  · simp [TxShared.setTag, hne]

end Simp

variable (env : Objects)

/-! ## The application thread -/

/-- The argument vector for the call in slot `id`: an outer-most call is logged by its object, a
nested one as the offset and the uuid of its parent. -/
def callVector (s : TxShared) (id tag : ℕ) : List (List UInt8) :=
  if id > 0 then
    [bytesLE (s.txBuffer id ||| nestedTxTag) 8, uuidBytes (env.uuid (s.buffer (id - 1)).objPtr)]
  else env.logVector (s.buffer id).objPtr tag (s.buffer id).argPtrs s.mem

/-- `Savitar_persister_log`, run inside `notify`; `none` is a failed assertion of the append. -/
def savitarPersisterLog (s : TxShared) (activeTxId : ℕ) : Option TxShared :=
  let slot := s.buffer activeTxId
  (savitarLogAppend (s.logs slot.objPtr) (callVector env s activeTxId slot.methodTag)).map
    fun (logOffset, log) =>
      ((s.setLog slot.objPtr log).setTx (activeTxId + 1) logOffset).setTag activeTxId 0

/-- One step of the application thread, built with or without `SYNC_SL`; `none` is a failed
assertion or the end of the program. -/
def appStep (syncSl : Bool) (s : ProgramState) : Option ProgramState :=
  let sh := s.sh
  let count := sh.txBuffer 0
  match s.todo, s.app with
  | .notify c :: _, .ready =>
    if count < maxActiveTxs then
      some { s with
        sh := sh.setSlot count { sh.buffer count with objPtr := c.obj }
        app := .setArgs 0 }
    else none
  | .notify c :: _, .setArgs k =>
    match c.args[k]? with
    | some a =>
      some { s with
        sh := sh.setSlot count
          { sh.buffer count with argPtrs := Function.update (sh.buffer count).argPtrs k a }
        app := .setArgs (k + 1) }
    | none => some { s with sh := sh.setTx 0 (count + 1), app := .counted }
  | .notify _ :: _, .counted => some { s with sh := sh.setTx count 0, app := .cleared }
  | .notify c :: todo, .cleared =>
    let sh' := sh.setTag (count - 1) c.tag
    if syncSl then
      (savitarPersisterLog env sh' (count - 1)).map fun sh'' =>
        { s with sh := sh'', app := .ready, todo := todo }
    else some { s with sh := sh', app := .ready, todo := todo }
  -- without `SYNC_SL` the thread spins until the persister has cleared the tag
  | .wait _ :: _, .ready =>
    if syncSl ∨ (sh.buffer (predWord count)).methodTag = 0 then
      some { s with app := .acknowledged }
    else some s
  -- `Savitar_log_commit(log, tx_buffer[tx_buffer[0]--])`
  | .wait _ :: _, .acknowledged =>
    if count > 0 then some { s with sh := sh.setTx 0 (count - 1), app := .popped count } else none
  | .wait _ :: _, .popped i => some { s with app := .committing (sh.txBuffer i) }
  | .wait o :: _, .committing offset =>
    let commitId := (sh.logs o).lastCommit + 1
    if commitId < uint64Max then
      some { s with
        sh := sh.setLog o { sh.logs o with lastCommit := commitId }
        app := .idTaken offset commitId }
    else none
  | .wait o :: todo, .idTaken offset commitId =>
    some { s with
      sh := sh.setLog o
        { sh.logs o with data := store (sh.logs o).data offset (bytesLE commitId 8) }
      app := .ready
      todo := todo }
  | .write m :: todo, .ready => some { s with sh := { sh with mem := m }, todo := todo }
  | _, _ => none

/-! ## The persister -/

/-- The argument vector of a request for the call in slot `id`, as its elements are read now. -/
def LogRequest.vector (s : TxShared) (id obj : ℕ) : LogRequest → List (List UInt8)
  | .nested tag parent => [bytesLE tag 8, uuidBytes (env.uuid parent)]
  | .outer tag => env.logVector obj tag (s.buffer id).argPtrs s.mem

/-- One step of `Savitar_persister_worker`; `none` is a failed assertion or the end of the thread. -/
def persisterStep (s : ProgramState) : Option ProgramState :=
  let sh := s.sh
  let id := s.activeTxId
  match s.persister with
  | .poll =>
    some { s with persister := if (sh.buffer id).methodTag = 0 then .idleCheck else .tagged }
  | .idleCheck =>
    if sh.txBuffer 0 = 0 then some { s with activeTxId := 0, persister := .poll }
    else some { s with persister := .above }
  | .above =>
    if id > predWord (sh.txBuffer 0) then some { s with activeTxId := id - 1, persister := .poll }
    else some { s with persister := .below }
  | .below =>
    if id < predWord (sh.txBuffer 0) then some { s with activeTxId := id + 1, persister := .poll }
    else some { s with persister := .poll }
  | .tagged =>
    some { s with
      persister := if (sh.buffer id).methodTag = uint64Max then .terminated else .found }
  | .terminated => none
  | .found => some { s with persister := .loaded (sh.buffer id).objPtr }
  | .loaded obj =>
    if id > 0 then
      -- the log entry of the parent comes first
      if sh.txBuffer id = 0 then some { s with activeTxId := id - 1, persister := .poll }
      else some { s with persister := .parentLogged obj }
    else some { s with persister := .append obj (.outer (sh.buffer id).methodTag) }
  | .parentLogged obj =>
    some { s with persister := .tagBuilt obj (sh.txBuffer id ||| nestedTxTag) }
  | .tagBuilt obj tag =>
    some { s with persister := .append obj (.nested tag (sh.buffer (id - 1)).objPtr) }
  | .append obj r =>
    let log := sh.logs obj
    let v := r.vector env sh id obj
    if v ≠ [] ∧ log.tail + entrySize v ≤ log.size then
      some { s with
        sh := sh.setLog obj { log with tail := log.tail + entrySize v }
        persister := .magic obj r log.tail }
    else none
  | .magic obj r offset =>
    let log := sh.logs obj
    some { s with
      sh := sh.setLog obj { log with data := store log.data (offset + 8) (bytesLE redoLogMagic 8) }
      persister := .copy obj r offset (offset + 16) 0 }
  | .copy obj r offset dst k =>
    let log := sh.logs obj
    match (r.vector env sh id obj)[k]? with
    | some bs =>
      some { s with
        sh := sh.setLog obj { log with data := store log.data dst bs }
        persister := .copy obj r offset (dst + bs.length) (k + 1) }
    | none => some { s with persister := .publish offset }
  | .publish offset =>
    some { s with sh := sh.setTx (id + 1) offset, persister := .acknowledge }
  | .acknowledge =>
    some { s with sh := sh.setTag id 0, persister := .poll }

/-- The two threads. -/
inductive Actor
  | app
  | persister
deriving DecidableEq, Repr

/-- A step of the program built without `SYNC_SL`. -/
def asyncStep (s : ProgramState) : Actor → Option ProgramState
  | .app => appStep env false s
  | .persister => persisterStep env s

/-- A step of the program built with `SYNC_SL`. -/
def syncStep (s : ProgramState) (_ : Unit) : Option ProgramState := appStep env true s

/-- A properly nested rest of a program, with the open calls (the innermost first) and the current
memory: at most `MAX_ACTIVE_TXS - 1` calls are open at a time, each is closed by a `wait` on its
object, and the memory that `Log` reads for a call does not change while the call is open. -/
def ProperlyNested (env : Objects) : List MethodCall → Mem → List Event → Prop
  | opened, _, [] => opened = []
  | opened, m, .notify c :: todo =>
    opened.length < maxActiveTxs - 1 ∧ ProperlyNested env (c :: opened) m todo
  | opened, m, .wait o :: todo =>
    ∃ c rest, opened = c :: rest ∧ c.obj = o ∧ ProperlyNested env rest m todo
  | opened, m, .write m' :: todo =>
    (∀ c ∈ opened, ∀ argPtrs : ℕ → ℕ, (∀ i a, c.args[i]? = some a → argPtrs i = a) →
      env.logVector c.obj c.tag argPtrs m' = env.logVector c.obj c.tag argPtrs m) ∧
    ProperlyNested env opened m' todo

end Pronto
