import Mathlib.Data.List.Basic
import Pronto.Lib.Runs

/-!
# Blocking transactions for a snapshot

A snapshot needs a moment at which no transaction runs. It raises every object's `snapshot_lock`
(`blockNewTransactions`), waits until it has read zero in every registered thread's `tx_buffer[0]`
(`waitForRunningTransactions`), freezes the pages, and lowers the locks again
(`unblockNewTransactions`). A thread that opens an outer-most transaction counts itself in and then
looks at the lock of its object; if it is raised, the thread counts itself out, sleeps until the
lock is lowered, and counts itself in again (`Savitar_thread_notify`). At the end of the transaction
it counts itself out and then commits (`Savitar_thread_wait`). The broadcast at the end of
`unblockNewTransactions` makes every sleeping thread runnable; a thread may also return from
`pthread_cond_wait` without one.

Threads are created, run transactions and exit; snapshots follow each other; steps interleave
freely, each reading or writing one shared location.

The handshake does not exclude transactions from the frozen phase. A sleeping thread counts itself
in without looking at the lock again (`woken_thread_runs_frozen`), a new thread may run before the
manager knows it (`unregistered_thread_runs_frozen`), and a thread counts itself out before it
commits (`committing_thread_runs_frozen`). `frozen_quiescent` proves that these are the only gaps.
-/

namespace Pronto

open Runs

/-- `MAX_ACTIVE_TXS`. -/
def maxActiveTxs : ℕ := 15

/-- Where an application thread is, with the object of its outer-most transaction. -/
inductive Pc
  | unborn
  /-- Between transactions. -/
  | idle
  /-- In `notify`, counted in, about to look at the lock. -/
  | entered (o : ℕ)
  /-- The lock was raised; about to count itself out. -/
  | blocked (o : ℕ)
  /-- About to acquire `ckptLock`. -/
  | parking (o : ℕ)
  /-- Holds `ckptLock`, about to look at the lock. -/
  | checking (o : ℕ)
  /-- In `pthread_cond_wait`. -/
  | waiting (o : ℕ)
  /-- The lock was lowered; about to release `ckptLock`. -/
  | leaving (o : ℕ)
  /-- About to count itself in again. -/
  | rearming (o : ℕ)
  /-- About to set the method tag. -/
  | tagging (o : ℕ)
  /-- `notify` has returned. -/
  | running (o : ℕ)
  /-- In `wait`: the persister has logged the call. -/
  | waited (o : ℕ)
  /-- In `wait`: counted out, inside `Savitar_log_commit`. -/
  | committing (o : ℕ)
  | exited
deriving DecidableEq, Repr

/-- An application thread: its place, `tx_buffer[0]`, and whether `buffer[0].method_tag` is set. -/
structure Thread where
  pc : Pc
  txCount : ℕ
  tagSet : Bool
deriving DecidableEq, Repr

/-- Where `Snapshot::create` is. It holds the manager's lock unless it is `idle`. -/
inductive SnapPc
  | idle
  /-- In `blockNewTransactions`, `k` locks raised. -/
  | blocking (k : ℕ)
  /-- In `waitForRunningTransactions`, `j` threads read in this pass. -/
  | scanning (j : ℕ)
  /-- `waitForRunningTransactions` has returned, `unblockNewTransactions` has not been called. -/
  | frozen
  /-- In `unblockNewTransactions`, `k` locks lowered. -/
  | unblocking (k : ℕ)
  | saving
deriving DecidableEq, Repr

/-- The shared state: the objects are `0, …, objects - 1`. -/
structure HandshakeState where
  objects : ℕ
  locks : ℕ → Bool
  threads : ℕ → Thread
  /-- `program_threads`, in the order of the snapshot's iteration. -/
  registered : List ℕ
  /-- The thread that holds `ckptLock`. -/
  ckptLock : Option ℕ
  snap : SnapPc

/-- The steps of an application thread. -/
inductive ThreadAction
  | enter (o : ℕ)
  | test
  | disarm
  | park
  | check
  /-- `pthread_cond_wait` returns spuriously, without a broadcast. -/
  | wake
  | leave
  | rearm
  | tag
  | nest
  | unnest
  | await
  | decrement
  | commit
deriving DecidableEq, Repr

/-- The steps of the system. -/
inductive HandshakeAction
  | thread (i : ℕ) (a : ThreadAction)
  /-- The persister has logged the outer-most call of thread `i`. -/
  | persist (i : ℕ)
  | spawn (i : ℕ)
  | register (i : ℕ)
  | exit (i : ℕ)
  | begin
  | block
  | read
  | unblock
  | finish
deriving DecidableEq, Repr

/-- Before any thread and snapshot. -/
def HandshakeState.init (objects : ℕ) : HandshakeState :=
  ⟨objects, fun _ => false, fun _ => ⟨.unborn, 0, false⟩, [], none, .idle⟩

/-- Replace a thread. -/
def HandshakeState.setThread (s : HandshakeState) (i : ℕ) (t : Thread) : HandshakeState :=
  { s with threads := fun j => if j = i then t else s.threads j }

/-- A thread in `pthread_cond_wait` is made runnable: it takes `ckptLock` again. -/
def Thread.signal (t : Thread) : Thread :=
  match t.pc with
  | .waiting o => { t with pc := .parking o }
  | _ => t

/-- `pthread_cond_broadcast`. -/
def HandshakeState.broadcast (s : HandshakeState) : HandshakeState :=
  { s with threads := fun i => (s.threads i).signal }

/-- One step of thread `i`. Nested calls only move the counter. -/
def threadStep (s : HandshakeState) (i : ℕ) (a : ThreadAction) : Option HandshakeState :=
  let t := s.threads i
  match a, t.pc with
  | .enter o, .idle =>
    if o < s.objects then
      some (s.setThread i { t with pc := .entered o, txCount := t.txCount + 1 })
    else none
  | .test, .entered o =>
    some (s.setThread i { t with pc := if s.locks o then .blocked o else .tagging o })
  | .disarm, .blocked o => some (s.setThread i { t with pc := .parking o, txCount := 0 })
  | .park, .parking o =>
    if s.ckptLock = none then
      some { s.setThread i { t with pc := .checking o } with ckptLock := some i }
    else none
  | .check, .checking o =>
    if s.locks o then some { s.setThread i { t with pc := .waiting o } with ckptLock := none }
    else some (s.setThread i { t with pc := .leaving o })
  -- a spurious return: `ckptLock` is taken and the object's lock looked at again
  | .wake, .waiting o => some (s.setThread i { t with pc := .parking o })
  | .leave, .leaving o => some { s.setThread i { t with pc := .rearming o } with ckptLock := none }
  | .rearm, .rearming o => some (s.setThread i { t with pc := .tagging o, txCount := 1 })
  | .tag, .tagging o => some (s.setThread i { t with pc := .running o, tagSet := true })
  | .nest, .running _ =>
    if t.txCount < maxActiveTxs then some (s.setThread i { t with txCount := t.txCount + 1 })
    else none
  | .unnest, .running _ =>
    if 1 < t.txCount then some (s.setThread i { t with txCount := t.txCount - 1 }) else none
  | .await, .running o =>
    if t.txCount = 1 ∧ t.tagSet = false then some (s.setThread i { t with pc := .waited o }) else none
  -- `Savitar_log_commit(log, tx_buffer[tx_buffer[0]--])`: the argument is evaluated first
  | .decrement, .waited o =>
    some (s.setThread i { t with pc := .committing o, txCount := t.txCount - 1 })
  | .commit, .committing _ => some (s.setThread i { t with pc := .idle })
  | _, _ => none

/-- One step of the system; `none` when it is not enabled. -/
def handshakeStep (s : HandshakeState) : HandshakeAction → Option HandshakeState
  | .thread i a => threadStep s i a
  | .persist i =>
    if (s.threads i).tagSet then some (s.setThread i { s.threads i with tagSet := false }) else none
  -- `Savitar_thread_create`: the thread runs at once and is registered later
  | .spawn i =>
    if (s.threads i).pc = .unborn then some (s.setThread i { s.threads i with pc := .idle }) else none
  | .register i =>
    if s.snap = .idle ∧ (s.threads i).pc ≠ .unborn ∧ i ∉ s.registered then
      some { s with registered := s.registered ++ [i] }
    else none
  | .exit i =>
    if s.snap = .idle ∧ (s.threads i).pc = .idle ∧ i ∈ s.registered then
      some { s.setThread i { s.threads i with pc := .exited } with
        registered := s.registered.erase i }
    else none
  | .begin => if s.snap = .idle then some { s with snap := .blocking 0 } else none
  | .block =>
    match s.snap with
    | .blocking k =>
      if k < s.objects then
        some { s with locks := fun o => if o = k then true else s.locks o, snap := .blocking (k + 1) }
      else some { s with snap := .scanning 0 }
    | _ => none
  | .read =>
    match s.snap with
    | .scanning j =>
      match s.registered[j]? with
      | some i =>
        some { s with snap := if (s.threads i).txCount ≠ 0 then .scanning 0 else .scanning (j + 1) }
      | none => some { s with snap := .frozen }
    | _ => none
  | .unblock =>
    match s.snap with
    | .frozen => some { s with snap := .unblocking 0 }
    | .unblocking k =>
      if k < s.objects then
        some { s with
          locks := fun o => if o = k then false else s.locks o, snap := .unblocking (k + 1) }
      -- the broadcast is made under `ckptLock`
      else if s.ckptLock = none then some { s.broadcast with snap := .saving }
      else none
    | _ => none
  | .finish => if s.snap = .saving then some { s with snap := .idle } else none

/-- Between the end of `notify` and the end of `wait` of an outer-most transaction. -/
def Pc.inTx : Pc → Bool
  | .running _ => true
  | .waited _ => true
  | .committing _ => true
  | _ => false

/-- Not on the way into or inside a transaction, as long as the locks are raised. -/
def Pc.quiet : Pc → Bool
  | .tagging _ => false
  | .running _ => false
  | .waited _ => false
  | .committing _ => false
  | _ => true

/-- The property of the frozen phase. -/
def HandshakeState.Quiescent (s : HandshakeState) : Prop :=
  s.snap = .frozen → ∀ i, (s.threads i).pc.inTx = false

/-- Inside `Savitar_log_commit`. -/
def Pc.isCommitting : Pc → Bool
  | .committing _ => true
  | _ => false

/-- The steps that close the gaps of the handshake: a thread counts itself in again only while its
object's lock is lowered, opens outer-most transactions only once it is registered, and its counter
is not read between its decrement and the end of its commit. -/
def careful (s : HandshakeState) : HandshakeAction → Bool
  | .thread i .rearm =>
    match (s.threads i).pc with
    | .rearming o => !s.locks o
    | _ => true
  | .thread i (.enter _) => s.registered.contains i
  | .read =>
    match s.snap with
    | .scanning j => (s.registered[j]?).all fun i => !(s.threads i).pc.isCommitting
    | _ => true
  | _ => true

/-! ## One thread -/

/-- What the place of a thread says about its counter and its object. -/
def Thread.Ok (objects : ℕ) (t : Thread) : Prop :=
  match t.pc with
  | .unborn | .idle | .exited => t.txCount = 0
  | .entered o | .blocked o | .tagging o | .waited o => o < objects ∧ t.txCount = 1
  | .parking o | .checking o | .waiting o | .leaving o | .rearming o | .committing o =>
    o < objects ∧ t.txCount = 0
  | .running o => o < objects ∧ 0 < t.txCount

/-- A thread whose counter reads zero is quiet unless it commits. -/
theorem Thread.Ok.quiet {objects : ℕ} {t : Thread} (h : t.Ok objects) (hzero : t.txCount = 0)
    (hcommit : t.pc.isCommitting = false) : t.pc.quiet = true := by
  obtain ⟨pc, txCount, tagSet⟩ := t
  cases pc <;> simp_all [Thread.Ok, Pc.quiet, Pc.isCommitting]

theorem Thread.Ok.signal {objects : ℕ} {t : Thread} (h : t.Ok objects) : t.signal.Ok objects := by
  obtain ⟨pc, txCount, tagSet⟩ := t
  cases pc <;> exact h

/-- A broadcast leaves a thread inside or outside `notify` and its transaction, as it was. -/
theorem Thread.signal_registers {t : Thread} (hunborn : t.signal.pc ≠ .unborn)
    (hidle : t.signal.pc ≠ .idle) (hexited : t.signal.pc ≠ .exited) :
    t.pc ≠ .unborn ∧ t.pc ≠ .idle ∧ t.pc ≠ .exited := by
  obtain ⟨pc, txCount, tagSet⟩ := t
  cases pc <;> simp_all [Thread.signal]

/-- What a step of thread `i` can make of it. -/
structure ThreadMove (s : HandshakeState) (i : ℕ) (a : ThreadAction) (t : Thread) : Prop where
  ok : (s.threads i).Ok s.objects → t.Ok s.objects
  /-- While the locks are raised, a quiet thread that is careful stays quiet. -/
  quiet : (s.threads i).Ok s.objects → (s.threads i).pc.quiet = true →
    (∀ o < s.objects, s.locks o = true) → careful s (.thread i a) = true → t.pc.quiet = true
  awake : (s.threads i).pc ≠ .unborn ∧ (s.threads i).pc ≠ .exited
  idle : (s.threads i).pc = .idle → ∃ o, a = .enter o

/-- Every step of a thread is one of the moves, and changes nothing else but the lock. -/
theorem threadStep_move {s s' : HandshakeState} {i : ℕ} {a : ThreadAction}
    (h : threadStep s i a = some s') :
    ∃ t l, s' = { s.setThread i t with ckptLock := l } ∧ ThreadMove s i a t := by
  unfold threadStep at h
  generalize ht : s.threads i = t at h
  obtain ⟨pc, txCount, tagSet⟩ := t
  dsimp only at h
  split at h
  case h_1 o =>
    obtain ⟨ho, h⟩ := Option.ite_none_right_eq_some.mp h
    cases h
    exact ⟨_, _, rfl, by simp_all [Thread.Ok], by simp [Pc.quiet], by simp [ht], by simp⟩
  case h_2 o =>
    cases h
    refine ⟨_, _, rfl, fun hok => ?_, fun hok _ hlocks _ => ?_, by simp [ht], by simp [ht]⟩
    · cases s.locks o <;> simp_all [Thread.Ok]
    · have := hlocks o (by simp_all [Thread.Ok])
      simp [this, Pc.quiet]
  case h_5 o =>
    split at h
    all_goals
      cases h
      exact ⟨_, _, rfl, by simp_all [Thread.Ok], by simp [Pc.quiet], by simp [ht], by simp [ht]⟩
  case h_8 o =>
    cases h
    refine ⟨_, _, rfl, by simp_all [Thread.Ok], fun hok _ hlocks hcareful => ?_, by simp [ht],
      by simp [ht]⟩
    -- the lock of its object is raised, so a careful thread does not count itself in
    have hraised := hlocks o (by simp_all [Thread.Ok])
    simp [careful, ht, hraised] at hcareful
  case h_11 o =>
    obtain ⟨hcount, h⟩ := Option.ite_none_right_eq_some.mp h
    cases h
    refine ⟨_, _, rfl, fun hok => ?_, by simp [ht, Pc.quiet], by simp [ht], by simp [ht]⟩
    simp only [Thread.Ok, ht] at hok ⊢
    exact ⟨hok.1, by omega⟩
  case h_4 | h_10 | h_12 =>
    obtain ⟨hif, h⟩ := Option.ite_none_right_eq_some.mp h
    cases h
    exact ⟨_, _, rfl, by simp_all [Thread.Ok], by simp [ht, Pc.quiet], by simp [ht], by simp [ht]⟩
  case h_15 => cases h
  all_goals
    cases h
    exact ⟨_, _, rfl, by simp_all [Thread.Ok], by simp [ht, Pc.quiet], by simp [ht], by simp [ht]⟩

/-! ## The system -/

/-- What holds in every state of a careful run. -/
structure HandshakeState.Inv (s : HandshakeState) : Prop where
  ok : ∀ i, (s.threads i).Ok s.objects
  registered : ∀ i, (s.threads i).pc ≠ .unborn → (s.threads i).pc ≠ .idle →
    (s.threads i).pc ≠ .exited → i ∈ s.registered
  blocking : ∀ k, s.snap = .blocking k → ∀ o < k, s.locks o = true
  raised : (∃ j, s.snap = .scanning j) ∨ s.snap = .frozen → ∀ o < s.objects, s.locks o = true
  scanned : ∀ j, s.snap = .scanning j → ∀ i ∈ s.registered.take j, (s.threads i).pc.quiet = true
  frozen : s.snap = .frozen → ∀ i ∈ s.registered, (s.threads i).pc.quiet = true

section

variable {s s' : HandshakeState}

/-- Nothing has begun. -/
theorem HandshakeState.Inv.init (objects : ℕ) : (HandshakeState.init objects).Inv where
  ok := fun _ => rfl
  registered := fun _ h => absurd rfl h
  blocking := fun _ h => by cases h
  raised := by simp [HandshakeState.init]
  scanned := fun _ h => by cases h
  frozen := fun h => by cases h

/-- Replacing a thread by one that is in order keeps the invariant. -/
theorem HandshakeState.Inv.setThread (h : s.Inv) {i : ℕ} {t : Thread} (hok : t.Ok s.objects)
    (hquiet : (s.threads i).pc.quiet = true → (∀ o < s.objects, s.locks o = true) →
      t.pc.quiet = true)
    (hreg : t.pc ≠ .unborn → t.pc ≠ .idle → t.pc ≠ .exited → i ∈ s.registered) :
    (s.setThread i t).Inv := by
  have hsplit : ∀ {P : ℕ → Thread → Prop}, P i t → (∀ j, P j (s.threads j)) →
      ∀ j, P j ((s.setThread i t).threads j) := by
    intro P hi hother j
    by_cases hji : j = i
    · subst hji
      simpa [HandshakeState.setThread] using hi
    · simpa [HandshakeState.setThread, hji] using hother j
  have hq : ∀ j, (∀ o < s.objects, s.locks o = true) → (s.threads j).pc.quiet = true →
      ((s.setThread i t).threads j).pc.quiet = true := by
    intro j hlocks hj
    by_cases hji : j = i
    · subst hji
      simpa [HandshakeState.setThread] using hquiet hj hlocks
    · simpa [HandshakeState.setThread, hji] using hj
  refine ⟨hsplit (P := fun _ t => t.Ok s.objects) hok h.ok,
    hsplit (P := fun j t => t.pc ≠ .unborn → t.pc ≠ .idle → t.pc ≠ .exited → j ∈ s.registered)
      hreg h.registered,
    h.blocking, h.raised, fun j hj k hk => ?_, fun hf k hk => ?_⟩
  · exact hq k (h.raised (Or.inl ⟨j, hj⟩)) (h.scanned j hj k hk)
  · exact hq k (h.raised (Or.inr hf)) (h.frozen hf k hk)

/-- **A careful step of a thread keeps the invariant.** -/
theorem HandshakeState.Inv.thread {i : ℕ} {a : ThreadAction} (h : s.Inv)
    (hcareful : careful s (.thread i a) = true) (hstep : threadStep s i a = some s') : s'.Inv := by
  obtain ⟨t, l, rfl, hmove⟩ := threadStep_move hstep
  have hset : (s.setThread i t).Inv := by
    refine h.setThread (hmove.ok (h.ok i)) (fun hq hlocks => hmove.quiet (h.ok i) hq hlocks hcareful)
      fun _ _ _ => ?_
    by_cases hidle : (s.threads i).pc = .idle
    · obtain ⟨o, rfl⟩ := hmove.idle hidle
      simpa [careful] using hcareful
    · exact h.registered i hmove.awake.1 hidle hmove.awake.2
  exact ⟨hset.ok, hset.registered, hset.blocking, hset.raised, hset.scanned, hset.frozen⟩

/-- Threads come and go only while no snapshot is taken. -/
theorem HandshakeState.Inv.register (h : s.Inv) (hidle : s.snap = .idle) {regs : List ℕ}
    (hregs : ∀ i, (s.threads i).pc ≠ .unborn → (s.threads i).pc ≠ .idle →
      (s.threads i).pc ≠ .exited → i ∈ regs) :
    ({ s with registered := regs } : HandshakeState).Inv :=
  ⟨h.ok, hregs, h.blocking, h.raised, by simp [hidle], by simp [hidle]⟩

/-- Raising one more lock, or starting to read the counters. -/
theorem HandshakeState.Inv.block (h : s.Inv) {k : ℕ} (hk : s.snap = .blocking k) :
    (k < s.objects → ({ s with
      locks := fun o => if o = k then true else s.locks o
      snap := .blocking (k + 1) } : HandshakeState).Inv) ∧
    (¬ k < s.objects → ({ s with snap := .scanning 0 } : HandshakeState).Inv) := by
  have hlocks := h.blocking k hk
  constructor
  · intro _
    refine ⟨h.ok, h.registered, fun k' hk' o ho => ?_, by simp, by simp, by simp⟩
    cases hk'
    dsimp only
    split
    · rfl
    · exact hlocks o (by omega)
  · intro hge
    exact ⟨h.ok, h.registered, by simp, fun _ o (ho : o < s.objects) => hlocks o (by omega),
      by simp, by simp⟩

/-- Reading one counter, or the end of a pass over all of them. -/
theorem HandshakeState.Inv.read (h : s.Inv) {j : ℕ} (hj : s.snap = .scanning j)
    (hcareful : careful s .read = true) :
    (∀ i, s.registered[j]? = some i → ({ s with
      snap := if (s.threads i).txCount ≠ 0 then .scanning 0 else .scanning (j + 1) } :
        HandshakeState).Inv) ∧
    (s.registered[j]? = none → ({ s with snap := .frozen } : HandshakeState).Inv) := by
  have hlocks := h.raised (Or.inl ⟨j, hj⟩)
  have hscanned := h.scanned j hj
  constructor
  · intro i hi
    by_cases hzero : (s.threads i).txCount = 0
    · -- this thread is quiet, as are those read before
      have hquiet := (h.ok i).quiet hzero (by simpa [careful, hj, hi] using hcareful)
      simp only [hzero, ne_eq, not_true_eq_false, if_false]
      refine ⟨h.ok, h.registered, by simp, fun _ => hlocks, fun j' hj' k hk => ?_, by simp⟩
      cases hj'
      rw [List.take_add_one, hi] at hk
      rcases List.mem_append.mp hk with hk | hk
      · exact hscanned k hk
      · simp only [Option.toList_some, List.mem_singleton] at hk
        exact hk ▸ hquiet
    · simp only [ne_eq, hzero, not_false_eq_true, if_true]
      exact ⟨h.ok, h.registered, by simp, fun _ => hlocks, by simp, by simp⟩
  · intro hend
    refine ⟨h.ok, h.registered, by simp, fun _ => hlocks, by simp, fun _ k hk => ?_⟩
    rw [← List.take_of_length_le (List.getElem?_eq_none_iff.mp hend)] at hk
    exact hscanned k hk

/-- **Each careful step keeps the invariant.** -/
theorem HandshakeState.Inv.step {a : HandshakeAction} (h : s.Inv) (hcareful : careful s a = true)
    (hstep : handshakeStep s a = some s') : s'.Inv := by
  cases a with
  | thread i a => exact h.thread hcareful hstep
  | persist i =>
    obtain ⟨-, hstep⟩ := Option.ite_none_right_eq_some.mp hstep
    cases hstep
    exact h.setThread (h.ok i) (fun hq _ => hq) (h.registered i)
  | spawn i =>
    obtain ⟨hpc, hstep⟩ := Option.ite_none_right_eq_some.mp hstep
    cases hstep
    have hok := h.ok i
    simp only [Thread.Ok, hpc] at hok
    exact h.setThread hok (fun _ _ => rfl) fun _ hidle _ => absurd rfl hidle
  | register i =>
    obtain ⟨⟨hidle, -, -⟩, hstep⟩ := Option.ite_none_right_eq_some.mp hstep
    cases hstep
    exact h.register hidle fun j h1 h2 h3 => List.mem_append_left _ (h.registered j h1 h2 h3)
  | exit i =>
    obtain ⟨⟨hidle, hpc, -⟩, hstep⟩ := Option.ite_none_right_eq_some.mp hstep
    cases hstep
    have hok := h.ok i
    simp only [Thread.Ok, hpc] at hok
    have hset : (s.setThread i { s.threads i with pc := .exited }).Inv :=
      h.setThread hok (fun _ _ => rfl) fun _ _ hex => absurd rfl hex
    refine hset.register hidle fun j h1 h2 h3 => ?_
    have hji : j ≠ i := fun hji => h3 (by simp [HandshakeState.setThread, hji])
    exact (List.mem_erase_of_ne hji).mpr (hset.registered j h1 h2 h3)
  | begin =>
    obtain ⟨-, hstep⟩ := Option.ite_none_right_eq_some.mp hstep
    cases hstep
    exact ⟨h.ok, h.registered, fun k hk o ho => (by cases hk; omega), by simp, by simp, by simp⟩
  | block =>
    simp only [handshakeStep] at hstep
    split at hstep
    · rename_i k hk
      split at hstep
      · rename_i hlt
        cases hstep
        exact (h.block hk).1 hlt
      · rename_i hge
        cases hstep
        exact (h.block hk).2 hge
    · cases hstep
  | read =>
    simp only [handshakeStep] at hstep
    split at hstep
    · rename_i j hj
      split at hstep
      · rename_i i hi
        cases hstep
        exact (h.read hj hcareful).1 i hi
      · rename_i hend
        cases hstep
        exact (h.read hj hcareful).2 hend
    · cases hstep
  | unblock =>
    -- from here on nothing is claimed about the locks
    simp only [handshakeStep] at hstep
    split at hstep
    · cases hstep
      exact ⟨h.ok, h.registered, by simp, by simp, by simp, by simp⟩
    · split at hstep
      · cases hstep
        exact ⟨h.ok, h.registered, by simp, by simp, by simp, by simp⟩
      · obtain ⟨-, hstep⟩ := Option.ite_none_right_eq_some.mp hstep
        cases hstep
        refine ⟨fun i => (h.ok i).signal, fun i h1 h2 h3 => ?_, by simp, by simp, by simp, by simp⟩
        obtain ⟨h1, h2, h3⟩ := Thread.signal_registers h1 h2 h3
        exact h.registered i h1 h2 h3
    · cases hstep
  | finish =>
    obtain ⟨-, hstep⟩ := Option.ite_none_right_eq_some.mp hstep
    cases hstep
    exact ⟨h.ok, h.registered, by simp, by simp, by simp, by simp⟩

/-- In the frozen phase a thread in a transaction would be registered and not quiet. -/
theorem HandshakeState.Inv.quiescent (h : s.Inv) : s.Quiescent := by
  intro hf i
  by_contra hin
  rw [Bool.not_eq_false] at hin
  have hreg : i ∈ s.registered := by
    apply h.registered i <;>
    · intro hpc
      rw [hpc] at hin
      cases hin
  have hquiet := h.frozen hf i hreg
  generalize (s.threads i).pc = pc at hin hquiet
  cases pc <;> simp_all [Pc.inTx, Pc.quiet]

end

/-- **Quiescence.** In every run in which threads count themselves in again only under a lowered
lock, open transactions only when registered, and are not read while they commit, no thread is
inside an outer-most transaction in the frozen phase of any snapshot. -/
theorem frozen_quiescent {objects : ℕ} {acts : List HandshakeAction} {s : HandshakeState}
    (hcareful : Guarded handshakeStep (fun s a => careful s a = true) (.init objects) acts)
    (hrun : run handshakeStep (.init objects) acts = some s) : s.Quiescent :=
  (hcareful.invariant (I := HandshakeState.Inv) (fun _ _ _ h hc hs => h.step hc hs)
    (.init objects) hrun).quiescent

/-- One thread runs a transaction, another one is held back by the snapshot. -/
def heldBack : List HandshakeAction :=
  [.spawn 0, .register 0, .spawn 1, .register 1, .thread 0 (.enter 0), .thread 0 .test,
    .thread 0 .tag, .begin, .block, .thread 1 (.enter 0), .thread 1 .test, .block, .read,
    .persist 0, .thread 0 .await, .thread 0 .decrement, .thread 0 .commit, .thread 1 .disarm,
    .read, .read, .read]

theorem frozen_quiescent_two_threads :
    ∃ s, run handshakeStep (.init 1) heldBack = some s ∧ s.snap = .frozen ∧ s.Quiescent := by
  have hcareful : Guarded handshakeStep (fun s a => careful s a = true) (.init 1) heldBack :=
    guarded_of_checkGuard (by decide)
  obtain ⟨s, hrun, hfrozen⟩ : ∃ s, run handshakeStep (.init 1) heldBack = some s ∧
      s.snap = .frozen := ⟨_, rfl, rfl⟩
  exact ⟨s, hrun, hfrozen, frozen_quiescent hcareful hrun⟩

/-! ## The gaps -/

/-- A thread that slept through a first snapshot finds the lock lowered, is delayed, and counts
itself in after the next snapshot has read its counter. -/
theorem woken_thread_runs_frozen :
    ∃ s, run handshakeStep (.init 1)
        [.spawn 0, .register 0, .begin, .block, .thread 0 (.enter 0), .thread 0 .test,
          .thread 0 .disarm, .block, .read, .read, .unblock, .unblock, .thread 0 .park,
          .thread 0 .check, .thread 0 .leave, .unblock, .finish,
          .begin, .block, .block, .read, .read, .thread 0 .rearm, .thread 0 .tag] = some s ∧
      ¬ s.Quiescent := by
  refine ⟨_, rfl, fun hq => ?_⟩
  exact absurd (hq rfl 0) (by decide)

/-- A thread that is not registered yet is not waited for. -/
theorem unregistered_thread_runs_frozen :
    ∃ s, run handshakeStep (.init 1)
        [.spawn 0, .thread 0 (.enter 0), .thread 0 .test, .begin, .block, .block, .read,
          .thread 0 .tag] = some s ∧
      ¬ s.Quiescent := by
  refine ⟨_, rfl, fun hq => ?_⟩
  exact absurd (hq rfl 0) (by decide)

/-- A thread has counted itself out and is still inside its commit. -/
theorem committing_thread_runs_frozen :
    ∃ s, run handshakeStep (.init 1)
        [.spawn 0, .register 0, .thread 0 (.enter 0), .thread 0 .test, .thread 0 .tag, .persist 0,
          .thread 0 .await, .thread 0 .decrement, .begin, .block, .block, .read, .read] = some s ∧
      ¬ s.Quiescent := by
  refine ⟨_, rfl, fun hq => ?_⟩
  exact absurd (hq rfl 0) (by decide)

end Pronto
