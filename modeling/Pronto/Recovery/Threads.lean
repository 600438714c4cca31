import Pronto.Lib.Runs
import Mathlib.Logic.Function.Basic
import Mathlib.Data.List.Range

/-!
# The recovery threads of several objects

Every object has a recovery thread, `PersistentObject::Recover`, which takes the records of its log
in the order of their commit ids. A record of an outer-most transaction is played, and the method it
plays calls the methods of other objects as it did in the recorded history. A record of a nested
transaction is not played: the thread waits until the object of the parent has played the parent's
record.

The threads meet in two places. Before a nested call runs, `Savitar_thread_notify` pops the parent
object that the playing thread has recorded, and waits until the called object waits for it
(`isWaitingForParent`); then it records the called object. `Savitar_thread_wait` pops the record. The
waiting thread in turn watches `last_played_commit_id` of the parent and asserts that the parent is
recovering. Every step reads or writes one shared variable.

The scan of the log and the queue that sorts the records touch nothing that is shared; here a thread
finds the record with the next commit id. A call on an object whose recovery has ended would open a
new transaction, which is outside this machine, so such a step is not enabled.
-/

namespace Pronto

open Runs

/-! ## Histories -/

/-- A call of a method of `obj` that got the commit id `id`, and the calls that it made. -/
inductive CallTree
  | node (obj id : ℕ) (nested : List CallTree)

/-- What recovery sees of the code of a method. -/
inductive Instr
  | notify (obj id : ℕ)
  | wait (obj id : ℕ)
deriving DecidableEq, Repr

/-- A record of a log: the code that `Play` runs, or the parent of a nested transaction with the
commit id in the parent's log. -/
inductive Record
  | outer (code : List Instr)
  | nested (parent expected : ℕ)
deriving DecidableEq, Repr

mutual

/-- The code of a call. -/
def CallTree.code : CallTree → List Instr
  | .node obj id nested => .notify obj id :: (codeOf nested ++ [.wait obj id])

/-- The code of calls in sequence. -/
def codeOf : List CallTree → List Instr
  | [] => []
  | c :: cs => c.code ++ codeOf cs

end

/-- A record with its object and commit id. -/
structure LogRecord where
  obj : ℕ
  id : ℕ
  record : Record
deriving DecidableEq, Repr

mutual

/-- The records of a call, which is itself logged as `record`, and of what is nested in it. -/
def CallTree.records : CallTree → Record → List LogRecord
  | .node obj id nested, record => ⟨obj, id, record⟩ :: recordsOf obj id nested

/-- The records of the calls that the call `id` on `obj` has made. -/
def recordsOf (obj id : ℕ) : List CallTree → List LogRecord
  | [] => []
  | c :: cs => c.records (.nested obj id) ++ recordsOf obj id cs

end

/-- The objects, and their outer-most transactions with all that is nested in them; all of it is
committed. -/
structure History where
  objects : List ℕ
  txs : List CallTree

namespace History

variable (h : History)

/-- All records of all logs. -/
def records : List LogRecord := h.txs.flatMap fun c => c.records (.outer c.code)

/-- The record with commit id `id` in the log of `o`. -/
def record (o id : ℕ) : Option Record :=
  (h.records.find? fun r => r.obj = o ∧ r.id = id).map LogRecord.record

/-- The commit ids in the log of `o`, in the order of the transactions. -/
def ids (o : ℕ) : List ℕ := (h.records.filter fun r => r.obj = o).map LogRecord.id

/-- The commit ids of every log are the numbers from one on. -/
def Committed : Prop :=
  (∀ r ∈ h.records, r.obj ∈ h.objects) ∧
    ∀ o ∈ h.objects, (h.ids o).Perm (List.range' 1 (h.ids o).length)

instance : Decidable h.Committed := by unfold Committed; infer_instance

end History

/-! ## The threads -/

/-- Where a thread is inside `notify`. -/
inductive NotifyPc
  | enter
  /-- About to read `wait_parent` of the called object. -/
  | readParent (parent : ℕ)
  /-- About to read `last_played_commit_id` of the parent. -/
  | readLast (parent : ℕ)
  /-- About to read `wait_parent_commit_id` of the called object. -/
  | readCommit (parent last : ℕ)
  | push
deriving DecidableEq, Repr

/-- Where a recovery thread is. -/
inductive ThreadPc
  /-- About to take the next record. -/
  | next
  /-- In `waitForParent`. -/
  | setParent (parent expected : ℕ)
  | setCommit (parent expected : ℕ)
  /-- About to read `last_played_commit_id` of the parent. -/
  | check (parent expected : ℕ)
  /-- The parent has not got there; about to read whether it is recovering. -/
  | assertion (parent expected : ℕ)
  /-- In `Play`. -/
  | playing (code : List Instr) (pc : NotifyPc)
  /-- About to set `last_played_commit_id`. -/
  | advance
  | ended
deriving DecidableEq, Repr

/-- An operation on an object starts or ends. -/
inductive Op
  | started (id : ℕ)
  | finished (id : ℕ)
deriving DecidableEq, Repr

/-- The variables of all objects and threads; a thread has the number of its object. -/
structure RecoveryState where
  lastPlayed : ℕ → ℕ
  waitParent : ℕ → Option ℕ
  waitCommit : ℕ → ℕ
  recovering : ℕ → Bool
  /-- `RecoveryContext::parentObjects`. -/
  parentObject : ℕ → Option ℕ
  pc : ℕ → ThreadPc
  /-- What has been done to every object. -/
  ops : ℕ → List Op
  /-- An assertion has failed. -/
  aborted : Bool

namespace RecoveryState

/-- All objects are constructed and none has been played. -/
def start : RecoveryState :=
  ⟨fun _ => 0, fun _ => none, fun _ => 0, fun _ => true, fun _ => none, fun _ => .next, fun _ => [],
    false⟩

/-- Move a thread. -/
def goto (s : RecoveryState) (o : ℕ) (pc : ThreadPc) : RecoveryState :=
  { s with pc := Function.update s.pc o pc }

/-- An operation on `o` starts or ends. -/
def apply (s : RecoveryState) (o : ℕ) (op : Op) : RecoveryState :=
  { s with ops := Function.update s.ops o (s.ops o ++ [op]) }

/-- `pushParentObject` and the erasure in `popParentObject`, by the thread of `o`. -/
def setParentObject (s : RecoveryState) (o : ℕ) (parent : Option ℕ) : RecoveryState :=
  { s with parentObject := Function.update s.parentObject o parent }

end RecoveryState

/-- A step of the thread of `o` inside `Play`. -/
def playStep (s : RecoveryState) (o : ℕ) (code : List Instr) (pc : NotifyPc) :
    Option RecoveryState :=
  match code with
  | [] => some (s.goto o .advance)
  | .notify b id :: rest =>
    match pc with
    | .enter =>
      if s.recovering b then
        match s.parentObject o with
        | none => some (s.goto o (.playing code .push))
        | some parent =>
          some ((s.setParentObject o none).goto o (.playing code (.readParent parent)))
      else none
    | .readParent parent =>
      if s.waitParent b = some parent then some (s.goto o (.playing code (.readLast parent)))
      else some s
    | .readLast parent =>
      some (s.goto o (.playing code (.readCommit parent (s.lastPlayed parent))))
    | .readCommit parent last =>
      if last + 1 = s.waitCommit b then some (s.goto o (.playing code .push))
      else some (s.goto o (.playing code (.readParent parent)))
    | .push =>
      some (((s.setParentObject o (some b)).apply b (.started id)).goto o (.playing rest .enter))
  | .wait b id :: rest =>
    if s.recovering b then
      some (((s.setParentObject o none).apply b (.finished id)).goto o (.playing rest .enter))
    else none

/-- A step of the recovery thread of `o` from where it is. -/
def objectStep (h : History) (s : RecoveryState) (o : ℕ) : ThreadPc → Option RecoveryState
  | .next =>
    match h.record o (s.lastPlayed o + 1) with
    | some (.outer code) => some (s.goto o (.playing code .enter))
    | some (.nested parent expected) => some (s.goto o (.setParent parent expected))
    | none => some ({ s with recovering := Function.update s.recovering o false }.goto o .ended)
  | .setParent parent expected =>
    some ({ s with waitParent := Function.update s.waitParent o (some parent) }.goto o
      (.setCommit parent expected))
  | .setCommit parent expected =>
    some ({ s with waitCommit := Function.update s.waitCommit o expected }.goto o
      (.check parent expected))
  | .check parent expected =>
    if s.lastPlayed parent < expected then some (s.goto o (.assertion parent expected))
    else some (s.goto o .advance)
  | .assertion parent expected =>
    if s.recovering parent then some (s.goto o (.check parent expected))
    else some { s with aborted := true }
  | .playing code pc => playStep s o code pc
  | .advance =>
    some ({ s with lastPlayed := Function.update s.lastPlayed o (s.lastPlayed o + 1) }.goto o .next)
  | .ended => none

/-- A step of the recovery thread of `o`. -/
def recoveryStep (h : History) (s : RecoveryState) (o : ℕ) : Option RecoveryState :=
  if s.aborted ∨ o ∉ h.objects then none else objectStep h s o (s.pc o)

/-! ## What recovery is for -/

/-- The operations with the commit ids up to `n`, one after the other. -/
def opsUpTo (n : ℕ) : List Op :=
  (List.range' 1 n).flatMap fun id => [.started id, .finished id]

/-- Every object has seen its operations in the order of the commit ids, each at most once and none
before the one before it was finished. -/
def RecoveryState.InOrder (h : History) (s : RecoveryState) : Prop :=
  ∀ o, s.ops o <+: opsUpTo (h.ids o).length

/-- All threads have ended, and every object has seen all its operations. -/
def RecoveryState.Complete (h : History) (s : RecoveryState) : Prop :=
  (∀ o ∈ h.objects, s.pc o = .ended) ∧ ∀ o, s.ops o = opsUpTo (h.ids o).length

/-- The thread of `b` is between two reads of the test that `o` waits for it. -/
def RecoveryState.testing (s : RecoveryState) (b o : ℕ) : Bool :=
  match s.pc b with
  | .playing (.notify c _ :: _) (.readLast _) => c = o
  | .playing (.notify c _ :: _) (.readCommit _ _) => c = o
  | _ => false

/-- The thread of `b` is between the two reads of the test that `o` is behind. -/
def RecoveryState.asserting (s : RecoveryState) (b o : ℕ) : Bool :=
  match s.pc b with
  | .assertion p _ => p = o
  | _ => false

/-- A thread neither starts to wait for a parent nor ends while another thread is between the reads
of a test on it. -/
def atomicTests (h : History) (s : RecoveryState) (o : ℕ) : Bool :=
  match s.pc o with
  | .setParent _ _ => h.objects.all fun b => !s.testing b o
  | .next => (h.record o (s.lastPlayed o + 1)).isSome || h.objects.all fun b => !s.asserting b o
  | _ => true

/-! ## Histories that are not recovered in order -/

/-- An operation on object 2, then a method of object 0 that calls object 1 and object 2. -/
def twoNested : History :=
  ⟨[0, 1, 2], [.node 2 1 [], .node 0 1 [.node 1 1 [], .node 2 2 []]]⟩

/-- Object 1 waits for object 0, which then plays its record up to the second nested call. -/
def twoNestedSchedule : List ℕ := List.replicate 3 1 ++ List.replicate 11 0

/-- **A second nested call does not wait for its turn.** The first nested call has popped the parent
object, and its end pops the record of the called object. So the second one finds no parent and
starts before the first operation of its object. -/
theorem second_nested_call_overtakes : twoNested.Committed ∧
    ∃ s, run (recoveryStep twoNested) .start twoNestedSchedule = some s ∧
      s.ops 2 = [.started 2] ∧ ¬ s.InOrder twoNested := by
  have hany : (run (recoveryStep twoNested) .start twoNestedSchedule).any
      (fun s => s.ops 2 = [.started 2]) = true := by
    decide +kernel
  obtain ⟨s, hrun, hops⟩ := run_of_any hany
  rw [decide_eq_true_eq] at hops
  refine ⟨by decide +kernel, s, hrun, hops, fun horder => ?_⟩
  have hprefix := horder 2
  rw [hops] at hprefix
  exact absurd hprefix (by decide +kernel)

/-- Objects 0 and 1 call object 2 in turn, in three transactions. -/
def turns : History :=
  ⟨[0, 1, 2], [.node 0 1 [.node 2 1 []], .node 1 1 [], .node 1 2 [.node 2 2 []],
    .node 0 2 [.node 2 3 []]]⟩

/-- Object 0 reads that object 2 waits for it while object 2 has yet to notice that it need not. Then
object 2 goes on to wait for object 1, for the commit id that object 0 looks for next. -/
def tornTestSchedule : List ℕ :=
  [List.replicate 3 2, List.replicate 17 0, List.replicate 5 2, List.replicate 3 0].flatten

/-- **The test for a waiting object can mix two waits.** Its reads of `wait_parent` and
`wait_parent_commit_id` are apart. -/
theorem torn_test_overtakes : turns.Committed ∧
    ∃ s, run (recoveryStep turns) .start tornTestSchedule = some s ∧
      s.ops 2 = [.started 1, .finished 1, .started 3] := by
  have hany : (run (recoveryStep turns) .start tornTestSchedule).any
      (fun s => s.ops 2 = [.started 1, .finished 1, .started 3]) = true := by
    decide +kernel
  obtain ⟨s, hrun, hops⟩ := run_of_any hany
  exact ⟨by decide +kernel, s, hrun, of_decide_eq_true hops⟩

/-- One nested call. -/
def oneNested : History := ⟨[0, 1], [.node 0 1 [.node 1 1 []]]⟩

/-- Object 1 finds object 0 behind; object 0 plays its only record and ends before object 1 looks
whether it is recovering. -/
def lateAssertionSchedule : List ℕ := [List.replicate 4 1, List.replicate 13 0, [1]].flatten

/-- **A waiting thread can fail its assertion although its parent is played.** -/
theorem late_assertion_aborts : oneNested.Committed ∧
    ∃ s, run (recoveryStep oneNested) .start lateAssertionSchedule = some s ∧
      s.aborted = true := by
  have hany : (run (recoveryStep oneNested) .start lateAssertionSchedule).any
      (fun s => s.aborted) = true := by
    decide +kernel
  obtain ⟨s, hrun, hab⟩ := run_of_any hany
  exact ⟨by decide +kernel, s, hrun, hab⟩

end Pronto
