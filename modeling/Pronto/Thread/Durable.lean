import Pronto.Log.Invariants
import Pronto.Thread.Persister

/-!
# Crashes of a thread and its persister

The machine of `Pronto.Thread.Persister`, with the durable images of the logs. Stores reach the
images only when their cache line is written back: by `pmem_drain` and `pmem_persist`, or by an
eviction at any time. The three waits for durability are steps of their own, and the thread that
waits goes on behind them. A crash leaves the durable images, so what holds of them in every state
that is reached is what holds after a crash at any step.

Calls are numbered in the order of their announcements. The state remembers in which call a call is
nested and which call an entry was reserved for; no thread reads this.
-/

namespace Pronto

open Memory Runs

/-- How far an append is behind its last store. -/
inductive FlushStage
  | stored
  | drained
  | persisted
deriving DecidableEq, Repr

/-- A reserved entry of a log, and the number of its call. -/
structure LoggedEntry where
  offset : ℕ
  vector : List (List UInt8)
  call : ℕ

/-- Both threads, the durable images of the logs, and the calls. -/
structure DurableState where
  prog : ProgramState
  durable : ℕ → RedoLog
  flush : FlushStage
  /-- The object and the offset of a commit id that is stored and not yet persisted. -/
  unpersisted : Option (ℕ × ℕ)
  /-- An assertion of an append has failed. -/
  aborted : Bool
  /-- The number of announced calls. -/
  announced : ℕ
  /-- The open calls, the outermost first. -/
  opened : List ℕ
  parent : ℕ → Option ℕ
  entries : ℕ → List LoggedEntry

/-- A new thread, with durable logs. -/
def DurableState.start (sh : TxShared) (prog : List Event) : DurableState :=
  ⟨.start sh prog, sh.logs, .stored, none, false, 0, [], fun _ => none, fun _ => []⟩

/-- Write lines of the log of `o` back. -/
def DurableState.writeBack (d : DurableState) (o : ℕ) (lines : ℕ → Bool) : DurableState :=
  { d with
    durable := Function.update d.durable o
      (Pronto.writeBack lines (d.prog.sh.logs o) (d.durable o)) }

/-- `notify` sets the tag: a call is announced inside the innermost open one. -/
def DurableState.announce (d : DurableState) : DurableState :=
  { d with
    announced := d.announced + 1
    opened := d.opened ++ [d.announced]
    parent := Function.update d.parent d.announced d.opened.getLast? }

/-- The atomic add of an append: an entry is reserved for the call in a slot. -/
def DurableState.reserve (d : DurableState) (o : ℕ) (v : List (List UInt8)) (slot : ℕ) :
    DurableState :=
  { d with
    entries := Function.update d.entries o
      (d.entries o ++ [⟨(d.prog.sh.logs o).tail, v, d.opened.getD slot 0⟩]) }

/-- What can happen. -/
inductive DurableAction
  | app
  | persister
  /-- `pmem_drain` in `Savitar_log_append` returns. -/
  | drain
  /-- `pmem_persist` of the tail returns. -/
  | persistTail
  /-- `pmem_persist` of a commit id returns. -/
  | persistId
  | evict (o line : ℕ)
deriving DecidableEq, Repr

section Step

variable (env : Objects)

/-- A step of the application thread. -/
def durableAppStep (d : DurableState) : Option DurableState :=
  if d.unpersisted = none then
    (appStep env false d.prog).map fun prog =>
      match d.prog.todo, d.prog.app with
      | .notify _ :: _, .cleared => { d.announce with prog := prog }
      | .wait _ :: _, .acknowledged => { d with prog := prog, opened := d.opened.dropLast }
      | .wait o :: _, .idTaken offset _ =>
        { d with prog := prog, unpersisted := some (o, offset) }
      | _, _ => { d with prog := prog }
  else none

/-- A step of the persister. An append returns when its entry and the tail are persisted; its
assertion comes behind the atomic add. -/
def durablePersisterStep (d : DurableState) : Option DurableState :=
  let sh := d.prog.sh
  match d.prog.persister with
  | .append obj r =>
    let log := sh.logs obj
    let v := r.vector env sh d.prog.activeTxId obj
    if v = [] then none
    else
      match persisterStep env d.prog with
      | some prog => some { d.reserve obj v d.prog.activeTxId with prog := prog }
      | none =>
        some { d.reserve obj v d.prog.activeTxId with
          prog := { d.prog with sh := sh.setLog obj { log with tail := log.tail + entrySize v } }
          aborted := true }
  | .copy obj r _ _ k =>
    if (r.vector env sh d.prog.activeTxId obj)[k]?.isSome then
      (persisterStep env d.prog).map fun prog => { d with prog := prog }
    else if d.flush = .persisted then
      (persisterStep env d.prog).map fun prog => { d with prog := prog, flush := .stored }
    else none
  | _ => (persisterStep env d.prog).map fun prog => { d with prog := prog }

/-- The lines that the append in progress waits for: those of the entry, then that of the tail. -/
def flushStep (d : DurableState) (stage : FlushStage) : Option DurableState :=
  match d.prog.persister with
  | .copy obj r offset dst k =>
    if (r.vector env d.prog.sh d.prog.activeTxId obj)[k]? = none ∧ d.flush = stage then
      match stage with
      | .stored =>
        some { d.writeBack obj (covers (offset + 8) (dst - (offset + 8))) with flush := .drained }
      | .drained => some { d.writeBack obj (covers tailFieldOffset 8) with flush := .persisted }
      | .persisted => none
    else none
  | _ => none

/-- A step of the machine. -/
def durableStep (d : DurableState) : DurableAction → Option DurableState
  | .evict o line => some (d.writeBack o fun l => l == line)
  | a =>
    if d.aborted then none
    else
      match a with
      | .app => durableAppStep env d
      | .persister => durablePersisterStep env d
      | .drain => flushStep env d .stored
      | .persistTail => flushStep env d .drained
      | .persistId =>
        d.unpersisted.map fun (o, offset) =>
          { d.writeBack o (covers offset 8) with unpersisted := none }
      | .evict _ _ => none

end Step

/-! ## What recovery relies on -/

/-- The calls and the logs of a state, without the threads. -/
structure CallState where
  logs : ℕ → RedoLog
  durable : ℕ → RedoLog
  aborted : Bool
  announced : ℕ
  opened : List ℕ
  parent : ℕ → Option ℕ
  entries : ℕ → List LoggedEntry

def DurableState.calls (d : DurableState) : CallState :=
  ⟨d.prog.sh.logs, d.durable, d.aborted, d.announced, d.opened, d.parent, d.entries⟩

/-- The commit id of an entry in the durable log. -/
def CallState.commitId (s : CallState) (o : ℕ) (e : LoggedEntry) : ℕ :=
  load (s.durable o).data e.offset 8

/-- The entry is below the tail, with all its bytes. -/
def LoggedEntry.Complete (e : LoggedEntry) (log : RedoLog) : Prop :=
  e.offset + entrySize e.vector ≤ log.tail ∧
    bytes log.data (e.offset + 8) (entryBytes e.vector).length = entryBytes e.vector

/-- The vector of a call whose parent has its entry at `offset` in the log of `o`. -/
def parentVector (env : Objects) (o offset : ℕ) : List (List UInt8) :=
  [bytesLE (offset ||| nestedTxTag) 8, uuidBytes (env.uuid o)]

/-- A call is nested in another, directly or not. -/
def CallState.Descends (s : CallState) : ℕ → ℕ → Prop :=
  Relation.TransGen fun c p => s.parent c = some p

/-- What the abort analysis assumes of the durable logs. From `start`, where the session began, to
its tail a log consists of reserved entries. A nested entry with a commit id is complete and names
the complete entry of its own parent, and whatever is nested in a call with a commit id has a commit
id. -/
structure CallState.NestedCommits (env : Objects) (start : ℕ → ℕ) (s : CallState) : Prop where
  logs : ∀ o, ∃ n, Tiling.Tiles LoggedEntry.offset (fun e => entrySize e.vector) (start o)
    ((s.entries o).take n) (s.durable o).tail
  nested : ∀ o, ∀ e ∈ s.entries o, s.commitId o e ≠ 0 → ∀ p, s.parent e.call = some p →
    e.Complete (s.durable o) ∧ ∃ o', ∃ e' ∈ s.entries o', e'.call = p ∧
      e.vector = parentVector env o' e'.offset ∧ e'.Complete (s.durable o')
  descendants : ∀ o, ∀ e ∈ s.entries o, s.commitId o e ≠ 0 → ∀ o', ∀ e' ∈ s.entries o',
    s.Descends e'.call e.call → s.commitId o' e' ≠ 0

end Pronto
