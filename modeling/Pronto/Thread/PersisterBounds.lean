import Pronto.Thread.Persister

/-!
# Which slot the persister looks at

While the tag of its slot is zero, `Savitar_persister_worker` follows the number of open calls: it reads
`tx_buffer[0]` three times, to see whether it is zero, to step back when `active_tx_id` is above
`tx_buffer[0] - 1`, and to step forward when it is below. When the last open call ends between the first
and the third read, the subtraction wraps around, and the persister steps forward whatever its slot is.

`tx_buffer[0]` becomes zero when the outer-most call commits and also in `Savitar_thread_notify`, while
the thread waits for a snapshot. The machine of this module adds that wait, and the store of
`snapshot_lock` by the snapshot thread, to the two threads of `asyncStep`.

With at most `d` nested calls the persister can be one slot too far after a commit, and one more after a
wait for a snapshot, before it has to come back to slot 0 (`Bounded`). So `active_tx_id` is a slot of the
buffer in programs that leave one or two levels of nesting unused, and otherwise unless the subtraction
wraps around at the last slot (`persister_in_bounds`). Fifteen nested calls are enough to get out of the
buffer (`persister_leaves_buffer`).
-/

namespace Pronto

open Function Memory Runs

/-! ## The machine with snapshots -/

/-- Where `notify` is in the branch that waits for a snapshot. -/
inductive SnapshotWait
  | no
  /-- `tx_buffer[0]` is 0, and the thread waits. -/
  | blocked
  /-- `tx_buffer[0]` is 1 again. -/
  | released
deriving DecidableEq, Repr

/-- Both threads, and whether the application thread is in that branch. -/
structure BlockingState where
  prog : ProgramState
  wait : SnapshotWait

/-- Who takes a step; the snapshot thread stores the `snapshot_lock` of an object. -/
inductive BlockingActor
  | app
  | persister
  | snapshot (o lock : ℕ)
deriving DecidableEq, Repr

/-- The start of a program, with an idle persister. -/
def BlockingState.start (sh : TxShared) (prog : List Event) : BlockingState := ⟨.start sh prog, .no⟩

variable (env : Objects)

/-- One step of the application thread. -/
def blockingAppStep (s : BlockingState) : Option BlockingState :=
  let sh := s.prog.sh
  match s.wait, s.prog.todo, s.prog.app with
  | .blocked, .notify c :: _, _ =>
    if (sh.logs c.obj).snapshotLock ≠ 0 then some s
    else some ⟨{ s.prog with sh := sh.setTx 0 1 }, .released⟩
  | .no, .notify c :: _, .cleared =>
    if sh.txBuffer 0 = 1 ∧ (sh.logs c.obj).snapshotLock ≠ 0 then
      some ⟨{ s.prog with sh := sh.setTx 0 0 }, .blocked⟩
    else (appStep env false s.prog).map fun p => ⟨p, .no⟩
  | _, _, _ => (appStep env false s.prog).map fun p => ⟨p, .no⟩

/-- One step of the program with the snapshot thread. -/
def blockingStep (s : BlockingState) : BlockingActor → Option BlockingState
  | .app => blockingAppStep env s
  | .persister => (persisterStep env s.prog).map fun p => { s with prog := p }
  | .snapshot o lock =>
    let sh := s.prog.sh
    some { s with
      prog := { s.prog with sh := sh.setLog o { sh.logs o with snapshotLock := lock } } }

/-- A rest of a program with `n` open calls that never has more than `d` of them open and ends no call
that is not open. -/
def NestsWithin (d : ℕ) : ℕ → List Event → Prop
  | _, [] => True
  | n, .notify _ :: todo => n < d ∧ NestsWithin d (n + 1) todo
  | n, .wait _ :: todo => 0 < n ∧ NestsWithin d (n - 1) todo
  | n, .write _ :: todo => NestsWithin d n todo

/-- The method tags of the slots. -/
def TxShared.tags (sh : TxShared) (i : ℕ) : ℕ := (sh.buffer i).methodTag

/-- The buffers as `Savitar_thread_create` leaves them. -/
structure TxShared.Cleared (sh : TxShared) : Prop where
  count : sh.txBuffer 0 = 0
  tags : ∀ i, sh.tags i = 0

/-! ## What a step can do to the count, the tags and the slot -/

/-- Between the first read of `tx_buffer[0]` and the last. -/
def PersisterPc.comparing : PersisterPc → Bool
  | .above | .below => true
  | _ => false

/-- A step of the persister: the slot moves forward only from the last comparison. -/
structure PersisterMove (p p' : ProgramState) : Prop where
  count : p'.sh.txBuffer 0 = p.sh.txBuffer 0
  app : p'.app = p.app
  todo : p'.todo = p.todo
  tags : ∀ i, p'.sh.tags i = p.sh.tags i ∨
    i = p.activeTxId ∧ p'.sh.tags i = 0 ∧ p'.activeTxId = p.activeTxId
  slot : p'.activeTxId ≤ p.activeTxId ∧
      (p'.persister.comparing = true → p.persister.comparing = true ∨ p.sh.txBuffer 0 ≠ 0) ∨
    p.persister = .below ∧ p.activeTxId < predWord (p.sh.txBuffer 0) ∧
      p'.activeTxId = p.activeTxId + 1 ∧ p'.persister = .poll

/-- A step of the application thread on the count `n` and the tags. -/
inductive AppMove (n : ℕ) (tags : ℕ → ℕ) :
    AppPc → List Event → ℕ → (ℕ → ℕ) → AppPc → List Event → Prop
  | enter {c : MethodCall} {t : List Event} :
    AppMove n tags .ready (.notify c :: t) n tags (.setArgs 0) (.notify c :: t)
  | arg {c : MethodCall} {t : List Event} {k : ℕ} :
    AppMove n tags (.setArgs k) (.notify c :: t) n tags (.setArgs (k + 1)) (.notify c :: t)
  | count {c : MethodCall} {t : List Event} {k : ℕ} :
    AppMove n tags (.setArgs k) (.notify c :: t) (n + 1) tags .counted (.notify c :: t)
  | clear {c : MethodCall} {t : List Event} :
    AppMove n tags .counted (.notify c :: t) n tags .cleared (.notify c :: t)
  | announce {c : MethodCall} {t : List Event} :
    AppMove n tags .cleared (.notify c :: t) n (Function.update tags (n - 1) c.tag) .ready t
  | spin {o : ℕ} {t : List Event} : AppMove n tags .ready (.wait o :: t) n tags .ready (.wait o :: t)
  | acknowledge {o : ℕ} {t : List Event} (htag : tags (predWord n) = 0) :
    AppMove n tags .ready (.wait o :: t) n tags .acknowledged (.wait o :: t)
  | pop {o : ℕ} {t : List Event} (hpos : 0 < n) :
    AppMove n tags .acknowledged (.wait o :: t) (n - 1) tags (.popped n) (.wait o :: t)
  | fetch {o i offset : ℕ} {t : List Event} :
    AppMove n tags (.popped i) (.wait o :: t) n tags (.committing offset) (.wait o :: t)
  | take {o offset id : ℕ} {t : List Event} :
    AppMove n tags (.committing offset) (.wait o :: t) n tags (.idTaken offset id) (.wait o :: t)
  | finish {o offset id : ℕ} {t : List Event} :
    AppMove n tags (.idTaken offset id) (.wait o :: t) n tags .ready t
  | write {m : Mem} {t : List Event} : AppMove n tags .ready (.write m :: t) n tags .ready t

section Moves

variable {env : Objects} {p p' : ProgramState}

@[simp] theorem tags_setTx (sh : TxShared) (i v : ℕ) : (sh.setTx i v).tags = sh.tags := rfl

theorem tags_setTag (sh : TxShared) (i tag : ℕ) :
    (sh.setTag i tag).tags = Function.update sh.tags i tag := by
  funext j
  rcases eq_or_ne j i with rfl | hne
  · simp [TxShared.tags]
  · simp [TxShared.tags, hne]

/-- A slot that is replaced without its tag. -/
theorem tags_setSlot {sh : TxShared} {i : ℕ} {c : NvMethodCall}
    (h : c.methodTag = (sh.buffer i).methodTag) : (sh.setSlot i c).tags = sh.tags := by
  funext j
  rcases eq_or_ne j i with rfl | hne
  · simp [TxShared.tags, h]
  · simp [TxShared.tags, hne]

/-- A step that neither moves the slot forward nor starts a comparison. -/
theorem PersisterMove.back (hcount : p'.sh.txBuffer 0 = p.sh.txBuffer 0) (happ : p'.app = p.app)
    (htodo : p'.todo = p.todo) (htags : p'.sh.tags = p.sh.tags)
    (hle : p'.activeTxId ≤ p.activeTxId) (hpc : p'.persister.comparing = false) :
    PersisterMove p p' where
  count := hcount
  app := happ
  todo := htodo
  tags := fun i => .inl (congrFun htags i)
  slot := .inl ⟨hle, fun hc => by simp [hpc] at hc⟩

/-- Every step of the persister is one of the moves. -/
theorem persisterStep_move (h : persisterStep env p = some p') : PersisterMove p p' := by
  obtain ⟨sh, todo, app, pc, id⟩ := p
  cases pc <;> dsimp only [persisterStep] at h
  case poll =>
    cases h
    refine .back rfl rfl rfl rfl le_rfl ?_
    dsimp only
    split <;> rfl
  case idleCheck =>
    split at h
    · cases h
      exact .back rfl rfl rfl rfl (Nat.zero_le _) rfl
    · rename_i hne
      cases h
      exact ⟨rfl, rfl, rfl, fun _ => .inl rfl, .inl ⟨le_rfl, fun _ => .inr hne⟩⟩
  case above =>
    split at h <;> cases h
    · exact .back rfl rfl rfl rfl (Nat.sub_le _ _) rfl
    · exact ⟨rfl, rfl, rfl, fun _ => .inl rfl, .inl ⟨le_rfl, fun _ => .inl rfl⟩⟩
  case below =>
    -- the only instruction that moves to a higher slot
    split at h
    · rename_i hlt
      cases h
      exact ⟨rfl, rfl, rfl, fun _ => .inl rfl, .inr ⟨rfl, hlt, rfl, rfl⟩⟩
    · cases h
      exact .back rfl rfl rfl rfl le_rfl rfl
  case tagged =>
    cases h
    refine .back rfl rfl rfl rfl le_rfl ?_
    dsimp only
    split <;> rfl
  case terminated => cases h
  case loaded obj =>
    split at h
    · split at h <;> cases h
      · exact .back rfl rfl rfl rfl (Nat.sub_le _ _) rfl
      · exact .back rfl rfl rfl rfl le_rfl rfl
    · cases h
      exact .back rfl rfl rfl rfl le_rfl rfl
  case append obj r =>
    split at h
    · cases h
      exact .back rfl rfl rfl rfl le_rfl rfl
    · cases h
  case copy obj r offset dst k =>
    split at h <;> cases h
    · exact .back rfl rfl rfl rfl le_rfl rfl
    · exact .back rfl rfl rfl rfl le_rfl rfl
  case publish offset =>
    cases h
    refine .back ?_ rfl rfl rfl le_rfl rfl
    exact update_of_ne (Nat.succ_ne_zero id).symm offset sh.txBuffer
  case acknowledge =>
    -- the only instruction that clears a tag
    cases h
    refine ⟨rfl, rfl, rfl, fun i => ?_, .inl ⟨le_rfl, fun hc => by cases hc⟩⟩
    dsimp only
    rw [tags_setTag]
    rcases eq_or_ne i id with rfl | hne
    · exact .inr ⟨rfl, update_self _ _ _, rfl⟩
    · exact .inl (update_of_ne hne _ _)
  all_goals
    cases h
    exact .back rfl rfl rfl rfl le_rfl rfl

/-- Every step of the application thread is one of the moves, and leaves the persister alone. -/
theorem appStep_move (h : appStep env false p = some p') :
    AppMove (p.sh.txBuffer 0) p.sh.tags p.app p.todo (p'.sh.txBuffer 0) p'.sh.tags p'.app p'.todo ∧
      p'.activeTxId = p.activeTxId ∧ p'.persister = p.persister := by
  obtain ⟨sh, todo, app, pc, id⟩ := p
  dsimp only [appStep] at h
  split at h
  · -- `notify` begins
    split at h
    · cases h
      exact ⟨by simpa [tags_setSlot] using AppMove.enter, rfl, rfl⟩
    · cases h
  · split at h
    · cases h
      exact ⟨by simpa [tags_setSlot] using AppMove.arg, rfl, rfl⟩
    · cases h
      exact ⟨by simpa using AppMove.count, rfl, rfl⟩
  · cases h
    -- the word that is cleared is word 0 only if that is zero already
    have hcount : (sh.setTx (sh.txBuffer 0) 0).txBuffer 0 = sh.txBuffer 0 := by
      rcases eq_or_ne 0 (sh.txBuffer 0) with h0 | hne
      · rw [TxShared.setTx_txBuffer, ← h0, update_self]
      · exact update_of_ne hne 0 sh.txBuffer
    dsimp only
    rw [hcount]
    exact ⟨.clear, rfl, rfl⟩
  · simp only [Bool.false_eq_true, if_false] at h
    cases h
    dsimp only
    rw [tags_setTag]
    exact ⟨.announce, rfl, rfl⟩
  · simp only [Bool.false_eq_true, false_or] at h
    split at h
    · rename_i htag
      cases h
      exact ⟨.acknowledge htag, rfl, rfl⟩
    · cases h
      exact ⟨.spin, rfl, rfl⟩
  · split at h
    · rename_i hpos
      cases h
      exact ⟨by simpa using AppMove.pop hpos, rfl, rfl⟩
    · cases h
  · cases h
    exact ⟨.fetch, rfl, rfl⟩
  · split at h
    · cases h
      exact ⟨.take, rfl, rfl⟩
    · cases h
  · cases h
    exact ⟨.finish, rfl, rfl⟩
  · cases h
    exact ⟨.write, rfl, rfl⟩
  · cases h

end Moves

/-! ## Nesting -/

/-- In `notify`, with the call counted and not yet announced. -/
def AppPc.notifying : AppPc → Bool
  | .counted | .cleared => true
  | _ => false

/-- The calls that are open for the rest of the program when `tx_buffer[0]` is `n`. -/
def openCount (n : ℕ) : AppPc → ℕ
  | .counted | .cleared => n - 1
  | .popped _ | .committing _ | .idTaken _ _ => n + 1
  | _ => n

/-- The number of open calls. -/
abbrev BlockingState.count (s : BlockingState) : ℕ := s.prog.sh.txBuffer 0

/-- The count agrees with the nesting of the program and the place of the application thread. -/
structure Nesting (d : ℕ) (s : BlockingState) : Prop where
  le : s.count ≤ d
  nests : NestsWithin d (openCount s.count s.prog.app) s.prog.todo
  entered : s.wait = .no → s.prog.app.notifying = true → 0 < s.count
  waiting : s.wait ≠ .no → s.prog.app = .cleared ∧ ∃ c t, s.prog.todo = .notify c :: t
  blocked : s.wait = .blocked → s.count = 0
  released : s.wait = .released → s.count = 1

/-- The step of `notify` that gives up the count to wait for a snapshot. -/
def BlockingState.blocks (s : BlockingState) (a : BlockingActor) : Bool :=
  match a, s.wait, s.prog.todo, s.prog.app with
  | .app, .no, .notify c :: _, .cleared =>
    decide (s.count = 1 ∧ (s.prog.sh.logs c.obj).snapshotLock ≠ 0)
  | _, _, _, _ => false

/-- What a step of the machine is. -/
inductive BlockingMove (s : BlockingState) : BlockingActor → BlockingState → Prop
  | block {c : MethodCall} {t : List Event} (hno : s.wait = .no) (htodo : s.prog.todo = .notify c :: t)
    (happ : s.prog.app = .cleared) (hcount : s.count = 1) (hblocks : s.blocks .app = true) :
    BlockingMove s .app ⟨{ s.prog with sh := s.prog.sh.setTx 0 0 }, .blocked⟩
  | stay : BlockingMove s .app s
  | release (hblocked : s.wait = .blocked) :
    BlockingMove s .app ⟨{ s.prog with sh := s.prog.sh.setTx 0 1 }, .released⟩
  | app {p : ProgramState} (hfree : s.wait = .blocked → ∀ c t, s.prog.todo ≠ .notify c :: t)
    (hmove : AppMove s.count s.prog.sh.tags s.prog.app s.prog.todo (p.sh.txBuffer 0) p.sh.tags p.app
      p.todo) (hid : p.activeTxId = s.prog.activeTxId) (hpc : p.persister = s.prog.persister) :
    BlockingMove s .app ⟨p, .no⟩
  | persister {p : ProgramState} (hmove : PersisterMove s.prog p) :
    BlockingMove s .persister { s with prog := p }
  | snapshot {o lock : ℕ} {log : RedoLog} :
    BlockingMove s (.snapshot o lock) { s with prog := { s.prog with sh := s.prog.sh.setLog o log } }

section Steps

variable {env : Objects} {d b : ℕ} {s s' : BlockingState} {a : BlockingActor}

/-- Every step of the machine is one of the moves. -/
theorem blockingStep_move (h : blockingStep env s a = some s') : BlockingMove s a s' := by
  cases a with
  | app =>
    have happ : ∀ {p}, appStep env false s.prog = some p →
        (s.wait = .blocked → ∀ c t, s.prog.todo ≠ .notify c :: t) → BlockingMove s .app ⟨p, .no⟩ :=
      fun hp hfree =>
        have hmove := appStep_move hp
        .app hfree hmove.1 hmove.2.1 hmove.2.2
    dsimp only [blockingStep, blockingAppStep] at h
    split at h
    · split at h
      · cases h
        exact .stay
      · rename_i hwait _ _
        cases h
        exact .release hwait
    · split at h
      · rename_i hwait htodo hpc hlock
        cases h
        exact .block hwait htodo hpc hlock.1 (by simp [BlockingState.blocks, hwait, htodo, hpc, hlock])
      · rename_i hwait _ _ _
        obtain ⟨p, hp, rfl⟩ := Option.map_eq_some_iff.mp h
        exact happ hp fun hb => by simp [hwait] at hb
    · rename_i hnot _
      obtain ⟨p, hp, rfl⟩ := Option.map_eq_some_iff.mp h
      exact happ hp fun hb c t htodo => hnot c t hb htodo
  | persister =>
    obtain ⟨p, hp, rfl⟩ := Option.map_eq_some_iff.mp h
    exact .persister (persisterStep_move hp)
  | snapshot o lock =>
    cases h
    exact .snapshot

/-- What a step of the application thread does to the nesting. -/
theorem AppMove.nests {n n' : ℕ} {tags tags' : ℕ → ℕ} {app app' : AppPc} {todo todo' : List Event}
    (h : AppMove n tags app todo n' tags' app' todo') (hle : n ≤ d)
    (hnests : NestsWithin d (openCount n app) todo) (hentered : app.notifying = true → 0 < n) :
    n' ≤ d ∧ NestsWithin d (openCount n' app') todo' ∧ (app'.notifying = true → 0 < n') := by
  cases h with
  | count =>
    simp only [openCount, NestsWithin] at hnests ⊢
    exact ⟨hnests.1, hnests, fun _ => Nat.succ_pos n⟩
  | announce =>
    have hpos := hentered rfl
    simp only [openCount, NestsWithin] at hnests ⊢
    rw [Nat.sub_add_cancel hpos] at hnests
    exact ⟨hle, hnests.2, nofun⟩
  | pop hpos =>
    simp only [openCount] at hnests ⊢
    rw [Nat.sub_add_cancel hpos]
    exact ⟨by omega, hnests, nofun⟩
  | finish => exact ⟨hle, by simpa [openCount, NestsWithin] using hnests, nofun⟩
  | write => exact ⟨hle, by simpa [openCount, NestsWithin] using hnests, nofun⟩
  | clear => exact ⟨hle, hnests, fun _ => hentered rfl⟩
  | _ => exact ⟨hle, hnests, nofun⟩

/-- **Each step keeps the count in agreement with the nesting.** -/
theorem Nesting.step (h : Nesting d s) (hmove : BlockingMove s a s') : Nesting d s' := by
  cases hmove with
  | block hno htodo happ hcount hblocks =>
    have hnests := h.nests
    rw [hcount, happ] at hnests
    refine ⟨Nat.zero_le _, ?_, nofun, fun _ => ⟨happ, _, _, htodo⟩,
      fun _ => rfl, nofun⟩
    show NestsWithin d (openCount 0 s.prog.app) s.prog.todo
    rw [happ]
    exact hnests
  | stay => exact h
  | release hblocked =>
    obtain ⟨happ, c, t, htodo⟩ := h.waiting (by simp [hblocked])
    have hnests := h.nests
    rw [h.blocked hblocked, happ] at hnests
    have hpos : 0 < d := by
      rw [htodo] at hnests
      exact hnests.1
    refine ⟨hpos, ?_, nofun, fun _ => ⟨happ, c, t, htodo⟩, nofun,
      fun _ => rfl⟩
    show NestsWithin d (openCount 1 s.prog.app) s.prog.todo
    rw [happ]
    exact hnests
  | app hfree hmove hid hpc =>
    have hentered : s.prog.app.notifying = true → 0 < s.count := by
      intro hent
      cases hwait : s.wait with
      | no => exact h.entered hwait hent
      | blocked =>
        obtain ⟨-, c, t, htodo⟩ := h.waiting (by simp [hwait])
        exact absurd htodo (hfree hwait c t)
      | released => simp [h.released hwait]
    obtain ⟨hle, hnests, hpos⟩ := hmove.nests h.le h.nests hentered
    exact ⟨hle, hnests, fun _ => hpos, fun hc => absurd rfl hc, nofun,
      nofun⟩
  | @persister p hmove =>
    exact
      { le := hmove.count.trans_le h.le
        nests := by
          dsimp only [BlockingState.count]
          rw [hmove.count, hmove.app, hmove.todo]
          exact h.nests
        entered := by
          dsimp only [BlockingState.count]
          rw [hmove.count, hmove.app]
          exact h.entered
        waiting := by
          dsimp only
          rw [hmove.app, hmove.todo]
          exact h.waiting
        blocked := fun hb => hmove.count.trans (h.blocked hb)
        released := fun hr => hmove.count.trans (h.released hr) }
  | snapshot => exact ⟨h.le, h.nests, h.entered, h.waiting, h.blocked, h.released⟩

/-! ## How far the slot gets -/

/-- With at most `d` nested calls, and `b = 1` if calls may wait for a snapshot, the slot is at most
`d + b`. Once the outer-most call is logged the slot is one of an open call. The end of that call lets it
move one further, and a wait for a snapshot in the next outer-most call once more; then slot 0 has a tag
again, and the next call can end only after the persister has been there. -/
structure Bounded (d b : ℕ) (s : BlockingState) : Prop extends Nesting d s where
  acknowledged : s.prog.app = .acknowledged → s.prog.sh.tags (s.count - 1) = 0
  idle : s.wait = .no → s.count = 0 → s.prog.sh.tags 0 = 0 ∧ s.prog.activeTxId ≤ d ∧
    (s.prog.persister.comparing = true → s.prog.activeTxId + 1 ≤ d)
  entering : s.wait = .no → s.count = 1 → s.prog.app.notifying = true →
    s.prog.sh.tags 0 = 0 ∧ s.prog.activeTxId ≤ d
  opened : s.wait = .no → s.count ≠ 0 → (s.count = 1 → s.prog.app.notifying = false) →
    s.prog.activeTxId ≤ d + b ∧ (s.prog.sh.tags 0 = 0 → s.prog.activeTxId + 1 ≤ d)
  inBlock : s.wait = .blocked → s.prog.sh.tags 0 = 0 ∧ s.prog.activeTxId ≤ d + b ∧
    (s.prog.persister.comparing = true → s.prog.activeTxId + 1 ≤ d + b)
  inRelease : s.wait = .released → s.prog.sh.tags 0 = 0 ∧ s.prog.activeTxId ≤ d + b

/-- The bound on the slot. -/
theorem Bounded.slot_le (h : Bounded d b s) : s.prog.activeTxId ≤ d + b := by
  cases hwait : s.wait with
  | blocked => exact (h.inBlock hwait).2.1
  | released => exact (h.inRelease hwait).2
  | no =>
    rcases eq_or_ne s.count 0 with h0 | h0
    · have := (h.idle hwait h0).2.1
      omega
    · by_cases hent : s.count = 1 ∧ s.prog.app.notifying = true
      · have := (h.entering hwait hent.1 hent.2).2
        omega
      · exact (h.opened hwait h0 fun h1 => by simpa [h1] using hent).1

/-- A comparison with `tx_buffer[0] = 1` does not move the slot forward. -/
theorem not_lt_predWord_one {id : ℕ} : ¬ id < predWord 1 := by
  simp [predWord]

/-- With `n > 0` open calls the slot moves forward only to the slot of an open call. -/
theorem lt_of_lt_predWord {id n : ℕ} (hn : n ≠ 0) (h : id < predWord n) : id + 1 < n := by
  rw [predWord, if_neg hn] at h
  omega

theorem PersisterMove.tag_zero {p p' : ProgramState} (h : PersisterMove p p') {i : ℕ}
    (htag : p.sh.tags i = 0) : p'.sh.tags i = 0 := by
  rcases h.tags i with heq | ⟨-, heq, -⟩
  · exact heq.trans htag
  · exact heq

/-- A step of the persister while no call is open, below a bound `x` that leaves room for one move. -/
theorem PersisterMove.idle {p p' : ProgramState} (h : PersisterMove p p') {x : ℕ}
    (h0 : p.sh.txBuffer 0 = 0) (hle : p.activeTxId ≤ x)
    (hcmp : p.persister.comparing = true → p.activeTxId + 1 ≤ x) :
    p'.activeTxId ≤ x ∧ (p'.persister.comparing = true → p'.activeTxId + 1 ≤ x) := by
  rcases h.slot with ⟨hback, hpc⟩ | ⟨hpc, -, hid, hpoll⟩
  · refine ⟨hback.trans hle, fun hc => ?_⟩
    have := hcmp ((hpc hc).resolve_right fun hne => hne h0)
    omega
  · have := hcmp (by rw [hpc]; rfl)
    refine ⟨by omega, fun hc => ?_⟩
    rw [hpoll] at hc
    cases hc

/-- A step of the persister while exactly one call is open. -/
theorem PersisterMove.single {p p' : ProgramState} (h : PersisterMove p p')
    (h1 : p.sh.txBuffer 0 = 1) : p'.activeTxId ≤ p.activeTxId := by
  rcases h.slot with ⟨hback, -⟩ | ⟨-, hlt, -, -⟩
  · exact hback
  · rw [h1] at hlt
    exact absurd hlt not_lt_predWord_one

/-- **A step of the persister keeps the bound**: it moves forward to the slot of an open call, or by
one in a comparison that began before the last call ended. -/
theorem Bounded.persister {p : ProgramState} (h : Bounded d b s) (hmove : PersisterMove s.prog p) :
    Bounded d b { s with prog := p } where
  toNesting := h.toNesting.step (.persister hmove)
  acknowledged := fun happ => by
    rw [BlockingState.count, hmove.count]
    exact hmove.tag_zero (h.acknowledged (hmove.app.symm.trans happ))
  idle := fun hno h0 => by
    have h0' : s.count = 0 := hmove.count.symm.trans h0
    obtain ⟨htag, hle, hcmp⟩ := h.idle hno h0'
    exact ⟨hmove.tag_zero htag, hmove.idle h0' hle hcmp⟩
  entering := fun hno h1 hent => by
    have h1' : s.count = 1 := hmove.count.symm.trans h1
    obtain ⟨htag, hle⟩ := h.entering hno h1' (hmove.app ▸ hent)
    exact ⟨hmove.tag_zero htag, (hmove.single h1').trans hle⟩
  opened := fun hno h0 hent => by
    have h0' : s.count ≠ 0 := fun hz => h0 (hmove.count.trans hz)
    obtain ⟨hle, hlogged⟩ := h.opened hno h0' fun h1 => hmove.app ▸ hent (hmove.count.trans h1)
    have hd := h.le
    rcases hmove.slot with ⟨hback, -⟩ | ⟨-, hlt, hid, -⟩
    · refine ⟨hback.trans hle, fun htag => ?_⟩
      rcases hmove.tags 0 with heq | ⟨hid, -, hsame⟩
      · have := hlogged (heq.symm.trans htag)
        dsimp only
        omega
      · -- the tag of the outer-most call is cleared from slot 0
        dsimp only
        omega
    · have := lt_of_lt_predWord h0' hlt
      dsimp only at hid ⊢
      exact ⟨by omega, fun _ => by omega⟩
  inBlock := fun hb => by
    obtain ⟨htag, hle, hcmp⟩ := h.inBlock hb
    exact ⟨hmove.tag_zero htag, hmove.idle (h.blocked hb) hle hcmp⟩
  inRelease := fun hr => by
    obtain ⟨htag, hle⟩ := h.inRelease hr
    exact ⟨hmove.tag_zero htag, (hmove.single (h.released hr)).trans hle⟩

/-- A step of the application thread outside the entry of a call that keeps the count and the tags. -/
theorem Bounded.keep {p : ProgramState} (h : Bounded d b s) (hno : s.wait = .no)
    (hnesting : Nesting d ⟨p, .no⟩) (hcount : p.sh.txBuffer 0 = s.count)
    (htags : p.sh.tags = s.prog.sh.tags) (hid : p.activeTxId = s.prog.activeTxId)
    (hpc : p.persister = s.prog.persister) (hold : s.prog.app.notifying = false)
    (hnew : p.app.notifying = false) (hack : p.app = .acknowledged → s.prog.sh.tags (s.count - 1) = 0) :
    Bounded d b ⟨p, .no⟩ where
  toNesting := hnesting
  acknowledged := fun happ => by
    rw [BlockingState.count, hcount, htags]
    exact hack happ
  idle := fun _ h0 => by
    dsimp only
    rw [htags, hid, hpc]
    exact h.idle hno (hcount.symm.trans h0)
  entering := fun _ _ hent => by
    dsimp only at hent
    simp [hnew] at hent
  opened := fun _ h0 _ => by
    dsimp only
    rw [htags, hid]
    exact h.opened hno (fun hz => h0 (hcount.trans hz)) fun _ => hold
  inBlock := nofun
  inRelease := nofun

/-- **A step of the application thread keeps the bound.** When the outer-most call ends it has been
logged, so the slot was one of an open call. -/
theorem Bounded.app {p : ProgramState} (h : Bounded d b s)
    (hfree : s.wait = .blocked → ∀ c t, s.prog.todo ≠ .notify c :: t)
    (hmove : AppMove s.count s.prog.sh.tags s.prog.app s.prog.todo (p.sh.txBuffer 0) p.sh.tags p.app
      p.todo) (hid : p.activeTxId = s.prog.activeTxId) (hpc : p.persister = s.prog.persister) :
    Bounded d b ⟨p, .no⟩ := by
  have hnesting : Nesting d ⟨p, .no⟩ := h.toNesting.step (.app hfree hmove hid hpc)
  have hwait : s.prog.app ≠ .cleared → s.wait = .no := fun happ => by
    by_contra hwait
    exact happ (h.waiting hwait).1
  have hslot := h.slot_le
  have hpos : s.prog.app.notifying = true → s.wait = .no → 0 < s.count := fun hent hno =>
    h.entered hno hent
  generalize happ : s.prog.app = app at hmove hwait hpos
  generalize htodo : s.prog.todo = todo at hmove
  generalize hn : p.sh.txBuffer 0 = n' at hmove
  generalize htags : p.sh.tags = tags' at hmove
  generalize happ' : p.app = app' at hmove
  generalize htodo' : p.todo = todo' at hmove
  cases hmove with
  | count =>
    have hno := hwait nofun
    have hold : s.prog.app.notifying = false := by rw [happ]; rfl
    refine ⟨hnesting, fun hc => ?_, fun _ h0 => ?_, fun _ h1 _ => ?_, fun _ _ hent => ?_, nofun, nofun⟩
    · rw [happ'] at hc
      cases hc
    · dsimp only [BlockingState.count] at h0
      omega
    · dsimp only [BlockingState.count] at h1
      obtain ⟨htag, hle, -⟩ := h.idle hno (by omega)
      exact ⟨by rw [htags]; exact htag, by rw [hid]; exact hle⟩
    · dsimp only [BlockingState.count] at hent ⊢
      rw [htags, hid]
      refine h.opened hno (fun h0 => ?_) fun _ => hold
      have := hent (by omega)
      rw [happ'] at this
      cases this
  | clear =>
    have hno := hwait nofun
    have hcount := hpos rfl hno
    refine ⟨hnesting, fun hc => ?_, fun _ h0 => ?_, fun _ h1 _ => ?_, fun _ _ hent => ?_, nofun, nofun⟩
    · rw [happ'] at hc
      cases hc
    · exact absurd (hn.symm.trans h0) hcount.ne'
    · dsimp only
      rw [htags, hid]
      exact h.entering hno (hn.symm.trans h1) (by rw [happ]; rfl)
    · dsimp only [BlockingState.count] at hent ⊢
      rw [htags, hid]
      refine h.opened hno hcount.ne' fun h1 => ?_
      have := hent (hn.trans h1)
      rw [happ'] at this
      cases this
  | @announce c =>
    have hcount : 0 < s.count := by
      cases hw : s.wait with
      | no => exact hpos rfl hw
      | blocked => exact absurd htodo (hfree hw _ _)
      | released => simp [h.released hw]
    refine ⟨hnesting, fun hc => ?_, fun _ h0 => ?_, fun _ _ hent => ?_, fun _ _ _ => ?_, nofun, nofun⟩
    · rw [happ'] at hc
      cases hc
    · exact absurd (hn.symm.trans h0) hcount.ne'
    · dsimp only at hent
      rw [happ'] at hent
      cases hent
    · dsimp only
      rw [htags, hid]
      refine ⟨hslot, fun htag => ?_⟩
      rcases eq_or_ne 0 (s.count - 1) with h1 | h1
      · -- the outer-most call is announced, so its tag is not zero
        rw [← h1, update_self] at htag
        exact absurd htag c.tag_ne_zero
      · rw [update_of_ne h1] at htag
        have hno : s.wait = .no := by
          cases hw : s.wait with
          | no => rfl
          | blocked => exact absurd htodo (hfree hw _ _)
          | released => simp [h.released hw] at h1
        exact (h.opened hno hcount.ne' fun h2 => by omega).2 htag
  | pop hcount =>
    have hno := hwait nofun
    have hold : s.prog.app.notifying = false := by rw [happ]; rfl
    obtain ⟨-, hlogged⟩ := h.opened hno hcount.ne' fun _ => hold
    refine ⟨hnesting, fun hc => ?_, fun _ h0 => ?_, fun _ _ hent => ?_, fun _ _ _ => ?_, nofun, nofun⟩
    · rw [happ'] at hc
      cases hc
    · -- the outer-most call ends, and it has been logged
      dsimp only [BlockingState.count] at h0
      have h1 : s.count - 1 = 0 := hn.symm.trans h0
      have htag := h.acknowledged happ
      rw [h1] at htag
      have := hlogged htag
      dsimp only
      rw [htags, hid]
      exact ⟨htag, by omega, fun _ => this⟩
    · dsimp only at hent
      rw [happ'] at hent
      cases hent
    · dsimp only
      rw [htags, hid]
      exact ⟨hslot, hlogged⟩
  | acknowledge htag =>
    have hno := hwait nofun
    refine h.keep hno hnesting hn htags hid hpc (by rw [happ]; rfl) (by rw [happ']; rfl) fun _ => ?_
    have hpred : predWord s.count = s.count - 1 := by
      have hnests := h.nests
      rw [happ, htodo] at hnests
      exact if_neg hnests.1.ne'
    rwa [hpred] at htag
  | _ =>
    have hno := hwait nofun
    refine h.keep hno hnesting hn htags hid hpc (by rw [happ]; rfl) (by rw [happ']; rfl) fun hc => ?_
    rw [happ'] at hc
    cases hc

theorem Bounded.block {c : MethodCall} {t : List Event} (h : Bounded d b s) (hb : 0 < b)
    (hno : s.wait = .no) (htodo : s.prog.todo = .notify c :: t) (happ : s.prog.app = .cleared)
    (hcount : s.count = 1) (hblocks : s.blocks .app = true) :
    Bounded d b ⟨{ s.prog with sh := s.prog.sh.setTx 0 0 }, .blocked⟩ where
  toNesting := h.toNesting.step (.block hno htodo happ hcount hblocks)
  acknowledged := fun hc => by
    rw [happ] at hc
    cases hc
  idle := nofun
  entering := nofun
  opened := nofun
  inBlock := fun _ => by
    obtain ⟨htag, hle⟩ := h.entering hno hcount (by rw [happ]; rfl)
    exact ⟨htag, by dsimp only; omega, fun _ => by dsimp only; omega⟩
  inRelease := nofun

/-- Taking the count back after the wait. -/
theorem Bounded.release (h : Bounded d b s) (hblocked : s.wait = .blocked) :
    Bounded d b ⟨{ s.prog with sh := s.prog.sh.setTx 0 1 }, .released⟩ where
  toNesting := h.toNesting.step (.release hblocked)
  acknowledged := fun hc => by
    rw [(h.waiting (by simp [hblocked])).1] at hc
    cases hc
  idle := nofun
  entering := nofun
  opened := nofun
  inBlock := nofun
  inRelease := fun _ => ⟨(h.inBlock hblocked).1, (h.inBlock hblocked).2.1⟩

/-- **Each step keeps the bound.** -/
theorem Bounded.step (h : Bounded d b s) (hb : s.blocks a = true → 0 < b)
    (hstep : blockingStep env s a = some s') : Bounded d b s' := by
  cases blockingStep_move hstep with
  | block hno htodo happ hcount hblocks => exact h.block (hb hblocks) hno htodo happ hcount hblocks
  | stay => exact h
  | release hblocked => exact h.release hblocked
  | app hfree hmove hid hpc => exact h.app hfree hmove hid hpc
  | persister hmove => exact h.persister hmove
  | snapshot =>
    have hmove := blockingStep_move hstep
    exact ⟨h.toNesting.step hmove, h.acknowledged, h.idle, h.entering, h.opened, h.inBlock,
      h.inRelease⟩

end Steps

/-! ## Runs -/

section Runs

variable {env : Objects} {d b : ℕ} {sh : TxShared} {prog : List Event} {acts : List BlockingActor}
  {s : BlockingState}

/-- A program starts with no call open. -/
theorem Nesting.start (hclear : sh.Cleared) (hnest : NestsWithin d 0 prog) :
    Nesting d (.start sh prog) where
  le := by
    rw [show (BlockingState.start sh prog).count = 0 from hclear.count]
    exact Nat.zero_le d
  nests := by
    rw [show (BlockingState.start sh prog).count = 0 from hclear.count]
    exact hnest
  entered := fun _ => nofun
  waiting := fun hc => absurd rfl hc
  blocked := nofun
  released := nofun

/-- The persister starts at slot zero. -/
theorem Bounded.start (hclear : sh.Cleared) (hnest : NestsWithin d 0 prog) :
    Bounded d b (.start sh prog) where
  toNesting := .start hclear hnest
  acknowledged := nofun
  idle := fun _ _ => ⟨hclear.tags 0, Nat.zero_le _, nofun⟩
  entering := fun _ _ => nofun
  opened := fun _ hne => absurd hclear.count hne
  inBlock := nofun
  inRelease := nofun

/-- The slot in a run of a program with at most `d` nested calls. -/
theorem slot_le_of_run (hclear : sh.Cleared) (hnest : NestsWithin d 0 prog)
    (hb : Guarded (blockingStep env) (fun s a => s.blocks a = true → 0 < b) (.start sh prog) acts)
    (hrun : run (blockingStep env) (.start sh prog) acts = some s) : s.prog.activeTxId ≤ d + b :=
  (hb.invariant (fun _ _ _ h hb hstep => Bounded.step h hb hstep) (Bounded.start hclear hnest)
    hrun).slot_le

/-- The last comparison of the persister does not find `tx_buffer[0]` zero at the last slot. -/
def NoWrapAtEnd (s : BlockingState) (a : BlockingActor) : Prop :=
  a = .persister → s.prog.persister = .below → s.count = 0 → s.prog.activeTxId + 1 < maxActiveTxs

/-- Without such a comparison a step keeps the slot inside the buffer. -/
theorem Nesting.slot_lt {s' : BlockingState} {a : BlockingActor} (h : Nesting maxActiveTxs s)
    (hlt : s.prog.activeTxId < maxActiveTxs) (hok : NoWrapAtEnd s a)
    (hmove : BlockingMove s a s') : s'.prog.activeTxId < maxActiveTxs := by
  cases hmove with
  | app hfree hmove hid hpc => exact hid.trans_lt hlt
  | persister hmove =>
    rcases hmove.slot with ⟨hback, -⟩ | ⟨hpc, hpred, hid, -⟩
    · exact hback.trans_lt hlt
    · rcases eq_or_ne s.count 0 with h0 | h0
      · exact hid.trans_lt (hok rfl hpc h0)
      · have := lt_of_lt_predWord h0 hpred
        exact hid.trans_lt (this.trans_le h.le)
  | _ => exact hlt

/-- **The persister stays inside the buffer** of `MAX_ACTIVE_TXS` slots, and inside `tx_buffer`, of which
it uses the words 0, `active_tx_id` and `active_tx_id + 1`, in every run of a program that leaves two
levels of nesting unused, or one level if no call waits for a snapshot. A program that uses all levels
stays inside as long as the subtraction in the last comparison does not wrap around at the last slot. -/
theorem persister_in_bounds (hclear : sh.Cleared) (hnest : NestsWithin maxActiveTxs 0 prog)
    (hrun : run (blockingStep env) (.start sh prog) acts = some s)
    (hok : NestsWithin (maxActiveTxs - 2) 0 prog ∨
      NestsWithin (maxActiveTxs - 1) 0 prog ∧
        Guarded (blockingStep env) (fun s a => s.blocks a = false) (.start sh prog) acts ∨
      Guarded (blockingStep env) NoWrapAtEnd (.start sh prog) acts) :
    s.prog.activeTxId < maxActiveTxs := by
  rcases hok with hdeep | ⟨hdeep, hno⟩ | hok
  · -- the slot is at most one behind the deepest call
    have hle : s.prog.activeTxId ≤ maxActiveTxs - 2 + 1 :=
      slot_le_of_run hclear hdeep (guarded_of_forall fun _ _ _ _ => Nat.one_pos) hrun
    exact hle.trans_lt (by decide)
  · have hle : s.prog.activeTxId ≤ maxActiveTxs - 1 + 0 :=
      slot_le_of_run hclear hdeep (hno.imp fun s a h hb => by simp [h] at hb) hrun
    exact hle.trans_lt (by decide)
  · have hinv : Nesting maxActiveTxs s ∧ s.prog.activeTxId < maxActiveTxs :=
      hok.invariant (I := fun s => Nesting maxActiveTxs s ∧ s.prog.activeTxId < maxActiveTxs)
        (fun _ _ _ h hok hstep => ⟨h.1.step (blockingStep_move hstep),
          h.1.slot_lt h.2 hok (blockingStep_move hstep)⟩)
        ⟨.start hclear hnest, Nat.zero_lt_succ _⟩ hrun
    exact hinv.2

end Runs

/-! ### Fifteen nested calls -/

/-- A call without arguments. -/
def plainCall : MethodCall := ⟨0, 1, [], by decide, by decide, by decide⟩

/-- A program that opens `n` calls, each inside the one before, and closes them. -/
def nestedCalls (n : ℕ) : List Event :=
  List.replicate n (.notify plainCall) ++ List.replicate n (.wait 0)

/-- Objects whose calls are logged with their tag. -/
def tagObjects : Objects := ⟨fun _ => 0, fun _ tag _ _ => [bytesLE tag 8]⟩

/-- New buffers and logs. -/
def newBuffers : TxShared :=
  ⟨fun _ => ⟨0, 0, fun _ => 0⟩, fun _ => 0, fun _ => savitarLogCreate 0 logSize, fun _ => 0⟩

theorem newBuffers_cleared : newBuffers.Cleared := ⟨rfl, fun _ => rfl⟩

/-- The outer-most call is announced and logged. -/
def firstCall : List BlockingActor := List.replicate 4 .app ++ List.replicate 10 .persister

/-- A nested call is announced; the persister moves to its slot and logs it. -/
def nestedCall : List BlockingActor := List.replicate 4 .app ++ List.replicate 17 .persister

/-- Fifteen calls are logged. Between the first read of `tx_buffer[0]` and the others they all end. -/
def lateReads : List BlockingActor :=
  firstCall ++ (List.replicate 14 nestedCall).flatten ++ List.replicate 2 .persister ++
    List.replicate 75 .app ++ List.replicate 2 .persister

/-- Two nested calls that end between the reads leave the persister one slot behind theirs. -/
theorem persister_in_bounds_two_calls :
    ∃ s, run (blockingStep tagObjects) (.start newBuffers (nestedCalls 2)) (firstCall ++ nestedCall ++
          List.replicate 2 .persister ++ List.replicate 10 .app ++ List.replicate 2 .persister) =
        some s ∧ s.prog.activeTxId = 2 ∧ s.prog.activeTxId < maxActiveTxs := by
  have hany : (run (blockingStep tagObjects) (.start newBuffers (nestedCalls 2)) (firstCall ++
      nestedCall ++ List.replicate 2 .persister ++ List.replicate 10 .app ++
      List.replicate 2 .persister)).any (fun s => decide (s.prog.activeTxId = 2)) = true := by
    decide +kernel
  obtain ⟨s, hrun, hs⟩ := run_of_any hany
  exact ⟨s, hrun, of_decide_eq_true hs, persister_in_bounds newBuffers_cleared
    (by simp [NestsWithin, nestedCalls, maxActiveTxs]) hrun
    (.inl (by simp [NestsWithin, nestedCalls, maxActiveTxs]))⟩

theorem persister_leaves_buffer :
    NestsWithin maxActiveTxs 0 (nestedCalls 15) ∧
      ∃ s, run (blockingStep tagObjects) (.start newBuffers (nestedCalls 15)) lateReads = some s ∧
        s.prog.activeTxId = maxActiveTxs ∧ s.prog.persister = .poll := by
  have hany : (run (blockingStep tagObjects) (.start newBuffers (nestedCalls 15)) lateReads).any
      (fun s => decide (s.prog.activeTxId = maxActiveTxs ∧ s.prog.persister = .poll)) = true := by
    decide +kernel
  obtain ⟨s, hrun, hs⟩ := run_of_any hany
  exact ⟨by simp [NestsWithin, nestedCalls, maxActiveTxs], s, hrun, of_decide_eq_true hs⟩

end Pronto
