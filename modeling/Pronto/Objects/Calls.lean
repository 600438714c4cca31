import Pronto.Lib.Sharded
import Pronto.Log.Survivors

/-!
# Concurrent calls on a durable object

A method of a durable object announces the call (`Savitar_thread_notify`), takes the lock of the
part of the object it works on, changes the part, waits for the persister and commits
(`Savitar_thread_wait`), and releases the lock. The persister appends the call to the log of the
object meanwhile. Here any number of threads call methods of one object; an object without locks is
one that a single thread uses.

The machine is the log of `Pronto.Log.Machine` together with the object of `Sharded`: every step is
a step of one of them, or of both (`MethodStep.log_step`, `MethodStep.object_step`), and
`ObjectState.Linked` says what connects the two. The main result is `recover_calls`: whenever
recovery finishes after a crash, it has played an initial part of the commit order, and all calls
that had returned are in this part.
-/

namespace Pronto

open Function Memory Runs

/-! ## The machine -/

/-- The steps of an append behind the reservation. -/
inductive AppendStep
  | write
  | drain
  | persistTail
deriving DecidableEq, Repr

def AppendStep.on (n : ℕ) : AppendStep → LogAction
  | .write => .write n
  | .drain => .drain n
  | .persistTail => .persistTail n

/-- The steps of a commit that has taken its id. -/
inductive CommitStep
  | store
  | persistId
deriving DecidableEq, Repr

def CommitStep.on (n : ℕ) : CommitStep → LogAction
  | .store => .store n
  | .persistId => .persistId n

/-- An object and its log. -/
structure ObjectState (κ σ Op : Type*) where
  log : LogState
  object : Sharded.State κ σ Op
  /-- The transaction of each thread's call, once the persister has reserved its entry. -/
  entry : ℕ → Option ℕ
  /-- The operation of each transaction. No thread reads this list or the next two. -/
  ops : List Op
  /-- The transactions in the order of their commit ids. -/
  order : List ℕ
  /-- The transactions whose calls have returned. -/
  returned : List ℕ

inductive MethodAction (Op : Type*)
  | call (i : ℕ) (op : Op)
  /-- The persister of thread `i` reserves an entry. -/
  | reserve (i : ℕ)
  | append (i : ℕ) (a : AppendStep)
  | lock (i : ℕ)
  | modify (i : ℕ)
  /-- `Savitar_log_commit` takes a commit id. -/
  | take (i : ℕ)
  | commit (i : ℕ) (a : CommitStep)
  | unlock (i : ℕ)
  | evict (line : ℕ)
deriving DecidableEq, Repr

section Machine

variable {κ σ Op : Type*} [DecidableEq κ]

/-- A new object. -/
def ObjectState.create (id : Uuid) (size : ℕ) (parts : κ → σ) : ObjectState κ σ Op :=
  ⟨.create id size, .init parts, fun _ => none, [], [], []⟩

/-- The dry run of an object for which `Play` is not called. -/
def noPlay : DryRun := ⟨fun _ _ _ => .error .assertion, fun _ => rfl, fun _ _ => rfl⟩

/-- A step of the log. No recovery runs during the session, and drains are durable. -/
def objectLogStep (s : LogState) (a : LogAction) : Option LogState :=
  logStep noPlay (fun _ => true) true s a

variable (spec : Sharded.Spec κ σ Op) (encode : Op → List (List UInt8))

/-- A step of the object's own state. -/
def ObjectState.shardedStep (s : ObjectState κ σ Op) (a : Sharded.Act Op) :
    Option (ObjectState κ σ Op) :=
  (Sharded.step spec s.object a).map fun object => { s with object := object }

/-- One step; `none` when it is not enabled. -/
def methodStep (s : ObjectState κ σ Op) : MethodAction Op → Option (ObjectState κ σ Op)
  | .call i op =>
    (s.shardedStep spec (.call i op)).map fun s => { s with entry := Function.update s.entry i none }
  | .reserve i =>
    match s.object.calls i, s.entry i with
    | some (op, _), none =>
      (objectLogStep s.log (.reserve (encode op))).map fun log =>
        { s with
          log := log
          entry := Function.update s.entry i (some s.log.txs.length)
          ops := s.ops ++ [op] }
    | _, _ => none
  | .append i a => (s.entry i).bind fun n =>
      (objectLogStep s.log (a.on n)).map fun log => { s with log := log }
  | .lock i => s.shardedStep spec (.lock i)
  | .modify i => s.shardedStep spec (.change i)
  -- enabled once the persister has acknowledged the append
  | .take i => (s.entry i).bind fun n =>
      (objectLogStep s.log (.take n)).bind fun log =>
        (s.shardedStep spec (.commit i)).map fun s => { s with log := log, order := s.order ++ [n] }
  | .commit i a => (s.entry i).bind fun n =>
      (objectLogStep s.log (a.on n)).map fun log => { s with log := log }
  | .unlock i => (s.entry i).bind fun n =>
      if (s.log.txs[n]?).any fun tx => tx.phase.isCommitted then
        (s.shardedStep spec (.unlock i)).map fun s => { s with returned := s.returned ++ [n] }
      else none
  | .evict line => (objectLogStep s.log (.evict line)).map fun log => { s with log := log }

/-- What a step can do. -/
inductive MethodStep : ObjectState κ σ Op → MethodAction Op → ObjectState κ σ Op → Prop
  | call {s : ObjectState κ σ Op} {i : ℕ} {op : Op} {object : Sharded.State κ σ Op}
    (hobject : Sharded.step spec s.object (.call i op) = some object) :
    MethodStep s (.call i op)
      { s with object := object, entry := Function.update s.entry i none }
  | reserve {s : ObjectState κ σ Op} {i : ℕ} {op : Op} {p : Sharded.Place} {log : LogState}
    (hcall : s.object.calls i = some (op, p)) (hentry : s.entry i = none)
    (hlog : objectLogStep s.log (.reserve (encode op)) = some log) :
    MethodStep s (.reserve i)
      { s with
        log := log
        entry := Function.update s.entry i (some s.log.txs.length)
        ops := s.ops ++ [op] }
  | log {s : ObjectState κ σ Op} {a : MethodAction Op} {la : LogAction} {log : LogState}
    (hlog : objectLogStep s.log la = some log) (hcrash : la ≠ .crash) (htake : ∀ n, la ≠ .take n)
    (hreserve : ∀ v, la ≠ .reserve v) : MethodStep s a { s with log := log }
  | object {s : ObjectState κ σ Op} {a : MethodAction Op} {oa : Sharded.Act Op}
    {object : Sharded.State κ σ Op} (hobject : Sharded.step spec s.object oa = some object)
    (hcall : ∀ i op, oa ≠ .call i op) (hcommit : ∀ i, oa ≠ .commit i) :
    MethodStep s a { s with object := object }
  | take {s : ObjectState κ σ Op} {i n : ℕ} {log : LogState} {object : Sharded.State κ σ Op}
    (hentry : s.entry i = some n) (hlog : objectLogStep s.log (.take n) = some log)
    (hobject : Sharded.step spec s.object (.commit i) = some object) :
    MethodStep s (.take i) { s with log := log, object := object, order := s.order ++ [n] }
  | unlock {s : ObjectState κ σ Op} {i n : ℕ} {object : Sharded.State κ σ Op}
    (hentry : s.entry i = some n)
    (hphase : ((s.log.txs[n]?).any fun tx => tx.phase.isCommitted) = true)
    (hobject : Sharded.step spec s.object (.unlock i) = some object) :
    MethodStep s (.unlock i) { s with object := object, returned := s.returned ++ [n] }

end Machine

section Sound

variable {κ σ Op : Type*} [DecidableEq κ] {spec : Sharded.Spec κ σ Op}
  {encode : Op → List (List UInt8)} {s s' : ObjectState κ σ Op} {a : MethodAction Op}

theorem shardedStep_sound {oa : Sharded.Act Op} (h : s.shardedStep spec oa = some s') :
    ∃ object, Sharded.step spec s.object oa = some object ∧ s' = { s with object := object } := by
  obtain ⟨object, hobject, rfl⟩ := Option.map_eq_some_iff.mp h
  exact ⟨object, hobject, rfl⟩

/-- The executable machine takes the steps of the relation. -/
theorem methodStep_sound (h : methodStep spec encode s a = some s') :
    MethodStep spec encode s a s' := by
  cases a with
  | call i op =>
    obtain ⟨t, ht, rfl⟩ := Option.map_eq_some_iff.mp h
    obtain ⟨object, hobject, rfl⟩ := shardedStep_sound ht
    exact .call hobject
  | reserve i =>
    rw [methodStep] at h
    split at h
    · rename_i op p hcall hentry
      obtain ⟨log, hlog, rfl⟩ := Option.map_eq_some_iff.mp h
      exact .reserve hcall hentry hlog
    · cases h
  | append i a =>
    obtain ⟨n, hentry, h⟩ := Option.bind_eq_some_iff.mp h
    obtain ⟨log, hlog, rfl⟩ := Option.map_eq_some_iff.mp h
    exact .log hlog (by cases a <;> simp [AppendStep.on]) (by cases a <;> simp [AppendStep.on])
      (by cases a <;> simp [AppendStep.on])
  | lock i =>
    obtain ⟨object, hobject, rfl⟩ := shardedStep_sound h
    exact .object hobject (by simp) (by simp)
  | modify i =>
    obtain ⟨object, hobject, rfl⟩ := shardedStep_sound h
    exact .object hobject (by simp) (by simp)
  | take i =>
    obtain ⟨n, hentry, h⟩ := Option.bind_eq_some_iff.mp h
    obtain ⟨log, hlog, h⟩ := Option.bind_eq_some_iff.mp h
    obtain ⟨t, ht, rfl⟩ := Option.map_eq_some_iff.mp h
    obtain ⟨object, hobject, rfl⟩ := shardedStep_sound ht
    exact .take hentry hlog hobject
  | commit i a =>
    obtain ⟨n, hentry, h⟩ := Option.bind_eq_some_iff.mp h
    obtain ⟨log, hlog, rfl⟩ := Option.map_eq_some_iff.mp h
    exact .log hlog (by cases a <;> simp [CommitStep.on]) (by cases a <;> simp [CommitStep.on])
      (by cases a <;> simp [CommitStep.on])
  | unlock i =>
    obtain ⟨n, hentry, h⟩ := Option.bind_eq_some_iff.mp h
    obtain ⟨hphase, h⟩ := Option.ite_none_right_eq_some.mp h
    obtain ⟨t, ht, rfl⟩ := Option.map_eq_some_iff.mp h
    obtain ⟨object, hobject, rfl⟩ := shardedStep_sound ht
    exact .unlock hentry hphase hobject
  | evict line =>
    obtain ⟨log, hlog, rfl⟩ := Option.map_eq_some_iff.mp h
    exact .log hlog (by simp) (by simp) (by simp)

/-- Every step is a step of the log or leaves it. -/
theorem MethodStep.log_step (h : MethodStep spec encode s a s') :
    s'.log = s.log ∨ ∃ la, la ≠ .crash ∧ objectLogStep s.log la = some s'.log := by
  cases h with
  | reserve _ _ hlog => exact .inr ⟨_, by simp, hlog⟩
  | log hlog hcrash => exact .inr ⟨_, hcrash, hlog⟩
  | take _ hlog => exact .inr ⟨_, by simp, hlog⟩
  | _ => exact .inl rfl

/-- Every step is a step of the object or leaves it. -/
theorem MethodStep.object_step (h : MethodStep spec encode s a s') :
    s'.object = s.object ∨ ∃ oa, Sharded.step spec s.object oa = some s'.object := by
  cases h with
  | call hobject => exact .inr ⟨_, hobject⟩
  | object hobject => exact .inr ⟨_, hobject⟩
  | take _ _ hobject => exact .inr ⟨_, hobject⟩
  | unlock _ _ hobject => exact .inr ⟨_, hobject⟩
  | _ => exact .inl rfl

end Sound

/-! ## The log and the object -/

section LogEffects

variable {s s' : LogState}

/-- The commit id of each transaction, zero if it has none. -/
def LogState.idOf (s : LogState) : List ℕ := s.txs.map fun tx => tx.phase.claim

/-- Which transactions are committed. -/
def LogState.committed (s : LogState) : List Bool := s.txs.map fun tx => tx.phase.isCommitted

/-- A step on a transaction that takes no id and is not yet committed. -/
structure LogState.Keeps (s s' : LogState) : Prop where
  vectors : s'.txs.map Tx.vector = s.txs.map Tx.vector
  ids : s'.idOf = s.idOf
  lastCommit : s'.log.lastCommit = s.log.lastCommit
  committed : ∀ n : ℕ, s.committed[n]? = some true → s'.committed[n]? = some true

theorem LogState.Keeps.refl (h : s'.txs = s.txs) (hlast : s'.log.lastCommit = s.log.lastCommit) :
    s.Keeps s' :=
  ⟨by rw [h], by rw [idOf, idOf, h], hlast, by simp [LogState.committed, h]⟩

/-- One transaction has moved on, without a new id. -/
theorem LogState.Keeps.replace {l r : List Tx} {off : ℕ} {v : List (List UInt8)} {p q : Phase}
    (htxs : s.txs = l ++ ⟨off, v, p⟩ :: r) (htxs' : s'.txs = l ++ ⟨off, v, q⟩ :: r)
    (hclaim : q.claim = p.claim) (hp : p.isCommitted = false)
    (hlast : s'.log.lastCommit = s.log.lastCommit) : s.Keeps s' := by
  refine ⟨by simp [htxs, htxs'], by simp [idOf, htxs, htxs', hclaim], hlast, fun n hn => ?_⟩
  simp only [LogState.committed, htxs, htxs', List.map_append, List.map_cons] at hn ⊢
  rcases Nat.lt_trichotomy n l.length with hlt | heq | hgt
  · rw [List.getElem?_append_left (by simpa using hlt)] at hn ⊢
    exact hn
  · rw [List.getElem?_append_right (by simp [heq])] at hn
    simp [heq, hp] at hn
  · rw [List.getElem?_append_right (by simp only [List.length_map]; omega)] at hn ⊢
    obtain ⟨k, hk⟩ : ∃ k, n - l.length = k + 1 := ⟨n - l.length - 1, by omega⟩
    simpa [hk] using hn

/-- Every log step of a call but the reservation and the taking of the id is of this kind. -/
theorem LogStep.keeps {drainPersists : Bool} {a : LogAction} (h : LogStep drainPersists s a s')
    (hcrash : a ≠ .crash) (htake : ∀ n, a ≠ .take n) (hreserve : ∀ v, a ≠ .reserve v) :
    s.Keeps s' := by
  cases h with
  | reserve => exact absurd rfl (hreserve _)
  | take => exact absurd rfl (htake _)
  | crash => exact absurd rfl hcrash
  | write _ htxs => exact .replace htxs rfl rfl rfl rfl
  | drain _ htxs => cases drainPersists <;> exact .replace htxs rfl rfl rfl rfl
  | persistTail _ htxs => exact .replace htxs rfl rfl rfl rfl
  | store _ htxs => exact .replace htxs rfl rfl rfl rfl
  | persistId _ htxs => exact .replace htxs rfl rfl rfl rfl
  | evict => exact .refl rfl rfl
  | reopen => exact .refl rfl rfl
  | recover => exact .refl rfl rfl

theorem objectLogStep_reserve {v : List (List UInt8)} (h : objectLogStep s (.reserve v) = some s') :
    s' = s.reserve v := by
  obtain ⟨-, h⟩ := Option.ite_none_right_eq_some.mp h
  exact (Option.some.inj h).symm

/-- Taking an id gives transaction `n` the next one. -/
theorem objectLogStep_take {n : ℕ} (h : objectLogStep s (.take n) = some s') :
    s.idOf[n]? = some 0 ∧
      s'.txs.map Tx.vector = s.txs.map Tx.vector ∧
      s'.idOf = s.idOf.set n (s.log.lastCommit + 1) ∧
      s'.log.lastCommit = s.log.lastCommit + 1 ∧
      ∀ m ≠ n, s'.committed[m]? = s.committed[m]? := by
  obtain ⟨-, h⟩ := Option.ite_none_right_eq_some.mp h
  obtain ⟨tx, htx, h⟩ := Option.bind_eq_some_iff.mp h
  obtain ⟨hphase, h⟩ := Option.ite_none_right_eq_some.mp h
  cases h
  refine ⟨by simp [LogState.idOf, htx, hphase, Phase.claim], ?_, ?_, rfl, fun m hm => ?_⟩
  · refine List.ext_getElem? fun m => ?_
    simp only [LogState.takeId, LogState.setPhase, List.getElem?_map, List.getElem?_modify]
    split <;> cases s.txs[m]? <;> rfl
  · refine List.ext_getElem? fun m => ?_
    simp only [LogState.idOf, LogState.takeId, LogState.setPhase, List.getElem?_map,
      List.getElem?_modify, List.getElem?_set, List.length_map]
    split
    · rename_i hmn
      subst hmn
      simp [(List.getElem?_eq_some_iff.mp htx).1, Phase.claim]
    · cases s.txs[m]? <;> rfl
  · simp only [LogState.committed, LogState.takeId, LogState.setPhase, List.getElem?_map,
      List.getElem?_modify, if_neg (Ne.symm hm)]
    cases s.txs[m]? <;> rfl

end LogEffects

section Linked

variable {κ σ Op : Type*} {encode : Op → List (List UInt8)} {s s' : ObjectState κ σ Op}

/-- How the log and the object belong together. -/
structure ObjectState.Linked (encode : Op → List (List UInt8)) (s : ObjectState κ σ Op) : Prop where
  vectors : s.log.txs.map Tx.vector = s.ops.map encode
  entry : ∀ i op p, s.object.calls i = some (op, p) → ∀ n, s.entry i = some n →
    s.ops[n]? = some op
  /-- The transactions of the order hold the ids `1, 2, …`. -/
  ids : (s.order.map fun n => s.log.idOf[n]?) = (List.range' 1 s.log.log.lastCommit).map some
  ops_order : (s.order.map fun n => s.ops[n]?) = s.object.order.map some
  ordered : ∀ i op p, s.object.calls i = some (op, p) → p = .ordered →
    ∃ n ∈ s.order, s.entry i = some n
  returned : ∀ n ∈ s.returned, n ∈ s.order ∧ s.log.committed[n]? = some true

/-- A new object and an empty log belong together. -/
theorem ObjectState.Linked.create (id : Uuid) (size : ℕ) (parts : κ → σ) :
    (ObjectState.create id size parts : ObjectState κ σ Op).Linked encode where
  vectors := rfl
  entry := by simp [ObjectState.create, Sharded.State.init]
  ids := rfl
  ops_order := rfl
  ordered := by simp [ObjectState.create, Sharded.State.init]
  returned := by simp [ObjectState.create]

/-- A transaction of the order has an id. -/
theorem ObjectState.Linked.id_of_mem (h : s.Linked encode) {n : ℕ} (hn : n ∈ s.order) :
    ∃ c, 0 < c ∧ s.log.idOf[n]? = some c := by
  have hmem := List.mem_map_of_mem (f := fun n => s.log.idOf[n]?) hn
  rw [h.ids] at hmem
  obtain ⟨c, hc, heq⟩ := List.mem_map.mp hmem
  exact ⟨c, (List.mem_range'_1.mp hc).1, heq.symm⟩

theorem ObjectState.Linked.op_of_mem (h : s.Linked encode) {n : ℕ} (hn : n ∈ s.order) :
    ∃ op, s.ops[n]? = some op := by
  have hmem := List.mem_map_of_mem (f := fun n => s.ops[n]?) hn
  rw [h.ops_order] at hmem
  obtain ⟨op, -, heq⟩ := List.mem_map.mp hmem
  exact ⟨op, heq.symm⟩

theorem getElem?_concat_of_some {α : Type*} {l : List α} {n : ℕ} {x y : α} (h : l[n]? = some x) :
    (l ++ [y])[n]? = some x := by
  rw [List.getElem?_append_left (List.getElem?_eq_some_iff.mp h).1]
  exact h

/-- A step of the log that neither reserves nor takes an id. -/
theorem ObjectState.Linked.log_step (h : s.Linked encode) {log : LogState} (hk : s.log.Keeps log) :
    ({ s with log := log } : ObjectState κ σ Op).Linked encode where
  vectors := hk.vectors.trans h.vectors
  entry := h.entry
  ids := by
    dsimp only
    rw [hk.ids, hk.lastCommit]
    exact h.ids
  ops_order := h.ops_order
  ordered := h.ordered
  returned := fun n hn => ⟨(h.returned n hn).1, hk.committed n (h.returned n hn).2⟩

/-- **Reserving an entry** ties it to the operation of the call that is being logged. -/
theorem ObjectState.Linked.reserve (h : s.Linked encode) {i : ℕ} {op : Op} {p : Sharded.Place}
    (hcall : s.object.calls i = some (op, p)) (hentry : s.entry i = none)
    (hlog : s'.log = s.log.reserve (encode op)) (hobject : s'.object = s.object)
    (hentry' : s'.entry = Function.update s.entry i (some s.log.txs.length))
    (hops : s'.ops = s.ops ++ [op]) (horder : s'.order = s.order)
    (hreturned : s'.returned = s.returned) : s'.Linked encode where
  vectors := by simp [hlog, hops, LogState.reserve, h.vectors]
  entry := fun j op' p' hj n hn => by
    rw [hobject] at hj
    rw [hentry'] at hn
    rw [hops]
    by_cases hji : j = i
    · subst hji
      have hlen : s.log.txs.length = s.ops.length := by
        simpa using congrArg List.length h.vectors
      rw [hcall] at hj
      cases hj
      simp only [update_self, Option.some.injEq] at hn
      simp [← hn, hlen]
    · rw [update_of_ne hji] at hn
      exact getElem?_concat_of_some (h.entry j op' p' hj n hn)
  ids := by
    have hlast : s'.log.log.lastCommit = s.log.log.lastCommit := by rw [hlog]; rfl
    rw [horder, hlast, ← h.ids]
    refine List.map_congr_left fun n hn => ?_
    obtain ⟨c, -, hc⟩ := h.id_of_mem hn
    rw [hc, hlog]
    simpa [LogState.idOf, LogState.reserve] using
      getElem?_concat_of_some (y := Phase.claim (.writing 0)) hc
  ops_order := by
    rw [horder, hobject, ← h.ops_order]
    refine List.map_congr_left fun n hn => ?_
    obtain ⟨op', hop⟩ := h.op_of_mem hn
    rw [hop, hops]
    exact getElem?_concat_of_some hop
  ordered := fun j op' p' hj hp => by
    rw [hobject] at hj
    obtain ⟨n, hn, hjn⟩ := h.ordered j op' p' hj hp
    have hji : j ≠ i := by
      rintro rfl
      exact absurd (hjn.symm.trans hentry) (by simp)
    exact ⟨n, horder ▸ hn, by rw [hentry', update_of_ne hji]; exact hjn⟩
  returned := fun n hn => by
    rw [hreturned] at hn
    refine ⟨horder ▸ (h.returned n hn).1, ?_⟩
    rw [hlog]
    simpa [LogState.committed, LogState.reserve] using
      getElem?_concat_of_some (y := Phase.isCommitted (.writing 0)) (h.returned n hn).2

/-- A new call has no entry yet. -/
theorem ObjectState.Linked.call (h : s.Linked encode) (i : ℕ) (op : Op) :
    ({ s with
      object := s.object.setCall i (some (op, .called))
      entry := Function.update s.entry i none } : ObjectState κ σ Op).Linked encode where
  vectors := h.vectors
  entry := Sharded.forall_setCall (by simp) fun j op' p hji hj n hn => by
    dsimp only at hn
    rw [update_of_ne hji] at hn
    exact h.entry j op' p hj n hn
  ids := h.ids
  ops_order := h.ops_order
  ordered := Sharded.forall_setCall (by simp) fun j op' p hji hj hp => by
    dsimp only
    rw [update_of_ne hji]
    exact h.ordered j op' p hj hp
  returned := h.returned

section Steps

variable [DecidableEq κ] {spec : Sharded.Spec κ σ Op} {a : MethodAction Op}

/-- A step of the object that neither opens a call nor orders one. -/
theorem ObjectState.Linked.object_step (h : s.Linked encode) {oa : Sharded.Act Op}
    {object : Sharded.State κ σ Op} (hstep : Sharded.Step spec s.object oa object)
    (hcall : ∀ i op, oa ≠ .call i op) (hcommit : ∀ i, oa ≠ .commit i) :
    ({ s with object := object } : ObjectState κ σ Op).Linked encode where
  vectors := h.vectors
  entry := fun i op p hi n hn => by
    rcases hstep.calls_cases i op p hi with ⟨heq, -⟩ | ⟨q, hq, -⟩
    · exact absurd heq (hcall i op)
    · exact h.entry i op q hq n hn
  ids := h.ids
  ops_order := by
    dsimp only
    rw [hstep.order_eq hcommit]
    exact h.ops_order
  ordered := fun i op p hi hp => by
    rcases hstep.calls_cases i op p hi with ⟨heq, -⟩ | ⟨q, hq, hor⟩
    · exact absurd heq (hcall i op)
    · exact h.ordered i op q hq ((hor hp).resolve_right (hcommit i))
  returned := h.returned

/-- **Taking the commit id** is the point at which the operation gets its place in the order of
the object: the call holds the lock of its shard, so both orders grow together. -/
theorem ObjectState.Linked.take (h : s.Linked encode) {i n : ℕ} {log : LogState}
    {object : Sharded.State κ σ Op} (hentry : s.entry i = some n)
    (hlog : objectLogStep s.log (.take n) = some log)
    (hstep : Sharded.Step spec s.object (.commit i) object) :
    ({ s with log := log, object := object, order := s.order ++ [n] } :
      ObjectState κ σ Op).Linked encode := by
  obtain ⟨hzero, hvectors, hids, hlast, hcommitted⟩ := objectLogStep_take hlog
  -- the transactions of the order have their ids already
  have hne : ∀ m ∈ s.order, m ≠ n := by
    rintro m hm rfl
    obtain ⟨c, hpos, hc⟩ := h.id_of_mem hm
    rw [hzero] at hc
    cases hc
    exact absurd hpos (lt_irrefl 0)
  have hother : ∀ j op p, object.calls j = some (op, p) → ∃ q, s.object.calls j = some (op, q) ∧
      (p = .ordered → q = .ordered ∨ (.commit i : Sharded.Act Op) = .commit j) := by
    intro j op p hj
    rcases hstep.calls_cases j op p hj with ⟨heq, -⟩ | hq
    · cases heq
    · exact hq
  refine ⟨hvectors.trans h.vectors, fun j op p hj m hm => ?_, ?_, ?_, fun j op p hj hp => ?_,
    fun m hm => ?_⟩
  · obtain ⟨q, hq, -⟩ := hother j op p hj
    exact h.entry j op q hq m hm
  · dsimp only
    rw [hlast, hids, List.range'_1_concat, List.map_append, List.map_append, ← h.ids]
    refine congrArg₂ (· ++ ·) (List.map_congr_left fun m hm => ?_) ?_
    · rw [List.getElem?_set_ne (hne m hm).symm]
    · have hlt := (List.getElem?_eq_some_iff.mp hzero).1
      simp [hlt, Nat.add_comm]
  · cases hstep with
    | @commit _ op hcall =>
      dsimp only
      rw [List.map_append, List.map_append, h.ops_order]
      simp [h.entry i op _ hcall n hentry]
  · obtain ⟨q, hq, hor⟩ := hother j op p hj
    rcases hor hp with hq' | heq
    · obtain ⟨m, hm, hjm⟩ := h.ordered j op q hq hq'
      exact ⟨m, List.mem_append_left _ hm, hjm⟩
    · cases heq
      exact ⟨n, by simp, hentry⟩
  · obtain ⟨hmem, hc⟩ := h.returned m hm
    exact ⟨List.mem_append_left _ hmem, (hcommitted m (hne m hmem)).trans hc⟩

/-- **Returning**: the lock is released only when the entry is committed. -/
theorem ObjectState.Linked.unlock (h : s.Linked encode) {i n : ℕ}
    {object : Sharded.State κ σ Op} (hentry : s.entry i = some n)
    (hphase : ((s.log.txs[n]?).any fun tx => tx.phase.isCommitted) = true)
    (hstep : Sharded.Step spec s.object (.unlock i) object) :
    ({ s with object := object, returned := s.returned ++ [n] } :
      ObjectState κ σ Op).Linked encode := by
  have h' := h.object_step hstep (by simp) (by simp)
  refine ⟨h'.vectors, h'.entry, h'.ids, h'.ops_order, h'.ordered, ?_⟩
  refine List.forall_mem_append.mpr ⟨h.returned, ?_⟩
  simp only [List.mem_singleton, forall_eq]
  cases hstep with
  | @unlock _ op hcall =>
    obtain ⟨m, hm, him⟩ := h.ordered i op _ hcall rfl
    obtain rfl := Option.some.inj (hentry.symm.trans him)
    refine ⟨hm, ?_⟩
    cases htx : s.log.txs[n]? with
    | none => simp [htx] at hphase
    | some tx => simpa [LogState.committed, htx] using hphase

/-- **Each step keeps log and object together.** -/
theorem ObjectState.Linked.step (h : s.Linked encode) (hstep : MethodStep spec encode s a s') :
    s'.Linked encode := by
  cases hstep with
  | @call i op object hobject =>
    cases Sharded.step_sound hobject with
    | call => exact h.call i op
  | reserve hcall hentry hlog =>
    exact h.reserve hcall hentry (objectLogStep_reserve hlog) rfl rfl rfl rfl rfl
  | log hlog hcrash htake hreserve =>
    exact h.log_step ((logStep_sound hlog).keeps hcrash htake hreserve)
  | object hobject hcall hcommit => exact h.object_step (Sharded.step_sound hobject) hcall hcommit
  | take hentry hlog hobject => exact h.take hentry hlog (Sharded.step_sound hobject)
  | unlock hentry hphase hobject => exact h.unlock hentry hphase (Sharded.step_sound hobject)

/-- What holds of every object that is reached from a new one. -/
structure ObjectState.Reached (spec : Sharded.Spec κ σ Op) (encode : Op → List (List UInt8))
    (parts : κ → σ) (s : ObjectState κ σ Op) : Prop where
  session : s.log.Session true
  promises : s.log.Promises
  linked : s.Linked encode
  object : s.object.Inv spec parts

/-- Each step keeps what holds of reached objects. -/
theorem MethodStep.reached {parts : κ → σ} (hstep : MethodStep spec encode s a s')
    (h : s.Reached spec encode parts) : s'.Reached spec encode parts := by
  have hlog : s'.log.Session true ∧ s'.log.Promises := by
    rcases hstep.log_step with heq | ⟨la, hla, hs⟩
    · exact heq ▸ ⟨h.session, h.promises⟩
    · exact ⟨h.session.step (logStep_sound hs) hla,
        h.promises.step h.session.holes (logStep_sound hs) hla⟩
  refine ⟨hlog.1, hlog.2, h.linked.step hstep, ?_⟩
  rcases hstep.object_step with heq | ⟨oa, ho⟩
  · exact heq ▸ h.object
  · exact h.object.step (Sharded.step_sound ho)

/-- What holds of every object reached in a run. -/
theorem ObjectState.Reached.of_run {id : Uuid} {size : ℕ} {parts : κ → σ}
    {acts : List (MethodAction Op)}
    (hrun : run (methodStep spec encode) (.create id size parts) acts = some s) :
    s.Reached spec encode parts :=
  run_invariant (fun _ _ _ h hstep => (methodStep_sound hstep).reached h)
    ⟨.create id size, .create id size, .create id size parts, .start parts⟩ hrun

end Steps

end Linked

/-! ## Recovery -/

/-- The record reads the bytes that the append of an operation has stored. -/
def CommitRecord.Encodes {Op : Type*} (encode : Op → List (List UInt8)) (log : RedoLog) (op : Op)
    (r : CommitRecord) : Prop :=
  ∃ tx : Tx, tx.vector = encode op ∧ tx.InLog log ∧ r = recordAt log tx.offset

section Recovery

variable {κ σ Op : Type*} [DecidableEq κ] {spec : Sharded.Spec κ σ Op}
  {encode : Op → List (List UInt8)} {parts : κ → σ} {s : ObjectState κ σ Op}

/-- A nonzero number stands in one place only. -/
theorem index_unique {l : List ℕ} (hnd : (l.filter fun c => c ≠ 0).Nodup) {i j c : ℕ}
    (hc : c ≠ 0) (hi : l[i]? = some c) (hj : l[j]? = some c) : i = j := by
  rw [List.Nodup, List.pairwise_filter, List.pairwise_iff_getElem] at hnd
  obtain ⟨hil, hi⟩ := List.getElem?_eq_some_iff.mp hi
  obtain ⟨hjl, hj⟩ := List.getElem?_eq_some_iff.mp hj
  have hpos : ∀ x : ℕ, x = c → decide (x ≠ 0) = true := by
    rintro x rfl
    exact decide_eq_true hc
  rcases Nat.lt_trichotomy i j with hlt | heq | hgt
  · exact absurd (hi.trans hj.symm) (hnd i j hil hjl hlt (hpos _ hi) (hpos _ hj))
  · exact heq
  · exact absurd (hj.trans hi.symm) (hnd j i hjl hil hgt (hpos _ hj) (hpos _ hi))

namespace ObjectState.Reached

variable (h : s.Reached spec encode parts)

include h

theorem order_length : s.order.length = s.log.log.lastCommit := by
  simpa using congrArg List.length h.linked.ids

theorem object_order_length : s.object.order.length = s.log.log.lastCommit := by
  rw [← h.order_length]
  simpa using (congrArg List.length h.linked.ops_order).symm

/-- The id of a transaction is its place in the order. -/
theorem id_of_order {k n : ℕ} (hk : s.order[k]? = some n) : s.log.idOf[n]? = some (k + 1) := by
  have hlt := (List.getElem?_eq_some_iff.mp hk).1
  rw [h.order_length] at hlt
  have heq := congrArg (fun l => l[k]?) h.linked.ids
  simp only [List.getElem?_map, hk, Option.map_some, List.getElem?_range' hlt] at heq
  rw [Option.some.inj heq]
  congr 1
  omega

/-- The transaction with the id `k + 1` holds the operation in place `k` of the order. -/
theorem op_of_id {tx : Tx} {k : ℕ} (htx : tx ∈ s.log.txs) (hclaim : tx.phase.claim = k + 1) :
    ∃ op, s.object.order[k]? = some op ∧ tx.vector = encode op := by
  obtain ⟨n, hn⟩ := List.mem_iff_getElem?.mp htx
  have hid : s.log.idOf[n]? = some (k + 1) := by simp [LogState.idOf, hn, hclaim]
  have hmem : k + 1 ∈ s.log.claims :=
    List.mem_filter.mpr ⟨List.mem_of_getElem? hid, decide_eq_true (Nat.succ_ne_zero k)⟩
  have hle := List.mem_range'_1.mp (h.session.ids.mem_iff.mp hmem)
  obtain ⟨m, hm⟩ : ∃ m, s.order[k]? = some m :=
    ⟨_, List.getElem?_eq_getElem (by rw [h.order_length]; omega)⟩
  obtain rfl := index_unique (h.session.ids.nodup_iff.mpr List.nodup_range')
    (Nat.succ_ne_zero k) (h.id_of_order hm) hid
  obtain ⟨op, hop⟩ := h.linked.op_of_mem (List.mem_of_getElem? hm)
  refine ⟨op, ?_, ?_⟩
  · have heq := congrArg (fun l => l[k]?) h.linked.ops_order
    simp only [List.getElem?_map, hm, Option.map_some, hop] at heq
    obtain ⟨op', hop', heq⟩ := Option.map_eq_some_iff.mp heq.symm
    cases heq
    exact hop'
  · have heq := congrArg (fun l => l[m]?) h.linked.vectors
    simpa [hn, hop] using heq

theorem behind (id : Uuid) (size : ℕ) : Behind (.create id size) s.log s.log.txs where
  before := .create id size
  after := h.session
  promises := h.promises
  quiescent := by simp [LogState.AllCommitted, LogState.create]
  txs := rfl

end ObjectState.Reached

/-- **Crashes during concurrent calls.** Whenever recovery finishes, it has played the calls of an
initial part of the commit order, in this order and each with the arguments it was called with, and
every call that had returned is among them. -/
theorem recover_calls {play : DryRun} {log : RedoLog} {st : RecoverState}
    (h : s.Reached spec encode parts) (hscan : s.log.Scannable play)
    (hlog : log = { s.log.durable with snapshotLock := 0 })
    (hok : recover play (fun _ => true) log 0 0 = .ok st) :
    List.Forall₂ (CommitRecord.Encodes encode log)
        (s.object.order.take st.replay.played.length) st.replay.played ∧
      st.replay.played.map CommitRecord.commitId = List.range' 1 st.replay.played.length ∧
      ∀ m ∈ s.returned, m ∈ s.order.take st.replay.played.length := by
  have hhead : (if 0 = 0 then log.head else 0) = (LogState.create 0 0).log.tail := by
    rw [if_pos rfl, hlog]
    exact h.session.bytes.head.2
  obtain ⟨n, hle, hkeys, hcomm, hplayed⟩ :=
    recover_survivors (h.behind 0 0) hscan (parentsReady_true _ _) hlog hhead hok
  have hlast : (LogState.create 0 0).log.lastCommit = 0 := rfl
  rw [hlast] at hle hkeys hcomm
  rw [Nat.zero_add] at hle hkeys
  have hlen : st.replay.played.length = n := by simpa using congrArg List.length hkeys
  rw [hlen]
  refine ⟨?_, hkeys, ?_⟩
  · -- the `k`-th record has commit id `k + 1`, which belongs to the `k`-th operation of the order
    refine List.forall₂_iff_get.mpr ⟨?_, fun k hk hk' => ?_⟩
    · rw [List.length_take, h.object_order_length, hlen]
      omega
    · have hid : (st.replay.played.get ⟨k, hk'⟩).commitId = k + 1 := by
        have heq := congrArg (fun l => l[k]?) hkeys
        simp only [List.getElem?_map, List.getElem?_eq_getElem hk', Option.map_some,
          List.getElem?_range' (hlen ▸ hk')] at heq
        have := Option.some.inj heq
        simp only [List.get_eq_getElem]
        omega
      obtain ⟨tx, htx, hclaim, hin, hr⟩ := hplayed _ (List.get_mem _ ⟨k, hk'⟩)
      obtain ⟨op, hop, hv⟩ := h.op_of_id htx (hclaim.trans hid)
      refine ⟨tx, ?_, hin, hr⟩
      rw [hv, List.get_eq_getElem, List.getElem_take]
      exact congrArg encode (List.getElem?_eq_some_iff.mp hop).2.symm
  · -- a call that has returned is committed, so its id is among those played
    intro m hm
    obtain ⟨hmem, hc⟩ := h.linked.returned m hm
    obtain ⟨k, hk⟩ := List.mem_iff_getElem?.mp hmem
    obtain ⟨tx, htx, hphase⟩ : ∃ tx, s.log.txs[m]? = some tx ∧ tx.phase.isCommitted = true := by
      simpa [LogState.committed] using hc
    have hclaim : tx.phase.claim = k + 1 := by
      have hid := h.id_of_order hk
      simpa [LogState.idOf, htx] using hid
    have hlt := hcomm tx (List.mem_of_getElem? htx) hphase
    refine List.mem_iff_getElem?.mpr ⟨k, ?_⟩
    rw [List.getElem?_take_of_lt (by omega)]
    exact hk

/-- A crash while no thread is inside a commit: recovery finishes and plays the whole order. -/
theorem recover_calls_between {play : DryRun} {log : RedoLog}
    (h : s.Reached spec encode parts) (hscan : s.log.Scannable play)
    (hlog : log = { s.log.durable with snapshotLock := 0 }) (hbetween : s.log.BetweenCommits) :
    ∃ st, recover play (fun _ => true) log 0 0 = .ok st ∧
      List.Forall₂ (CommitRecord.Encodes encode log) s.object.order st.replay.played ∧
      (st.replay.played.map CommitRecord.commitId).Nodup := by
  have hhead : (if 0 = 0 then log.head else 0) = (LogState.create 0 0).log.tail := by
    rw [if_pos rfl, hlog]
    exact h.session.bytes.head.2
  obtain ⟨st, hok, hlen⟩ :=
    recover_between_commits (h.behind 0 0) hscan (parentsReady_true _ _) hlog hhead hbetween
  have hall : s.object.order.take st.replay.played.length = s.object.order := by
    rw [hlen]
    exact List.take_of_length_le (le_of_eq h.object_order_length)
  obtain ⟨hcalls, hids, -⟩ := recover_calls h hscan hlog hok
  exact ⟨st, hok, hall ▸ hcalls, hids ▸ List.nodup_range'⟩

end Recovery

end Pronto
