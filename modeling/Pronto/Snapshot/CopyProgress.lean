import Pronto.Lib.Reach
import Pronto.Snapshot.CopyOnWrite

/-!
# The copying ends

While the blocks of a snapshot are copied, an application thread in the fault handler spins until
another thread has saved its block, the thread that takes the snapshot joins the snapshot threads,
and `waitForFaultHandlers` spins while a word says `LockedHugePage`. None of these waits is in vain:
from every state that is reached, the snapshot returns and the writes that have begun are made
(`copying_finishes`). A locked block has a thread that copies it, and a thread that copies a block
waits for nobody; a thread can only fault on a block that is to be saved, and once a block is saved,
its pages are writable.
-/

namespace Pronto

open Function Memory Runs

/-- The steps that complete the snapshot and the writes that have begun. -/
def CowAction.finishes : CowAction → Bool
  | .write _ _ _ => false
  | _ => true

/-- The address of the write that a thread has faulted on. -/
def WriterPc.faultAddr : WriterPc → Option ℕ
  | .faulted addr _ | .waiting addr _ => some addr
  | _ => none

/-! ## What a wait is for -/

section Served

variable {h : SnapshotHeader} {bitmap : ℕ → BitVec 64} {n : ℕ} {frozen : Mem} {s s' : CowShared}
  {t : Copier} {b : ℕ}

/-- The addresses of a block. -/
theorem mem_block {x : ℕ} (hx : baseAddress ≤ x) (hb : blockOf x = b) :
    baseAddress + b * blockSize ≤ x ∧ x < baseAddress + b * blockSize + blockSize := by
  have hdiv := Nat.div_add_mod (x - baseAddress) blockSize
  have hmod := Nat.mod_lt (x - baseAddress) (by decide : 0 < blockSize)
  rw [blockOf] at hb
  rw [hb, Nat.mul_comm] at hdiv
  omega

theorem base_le_aligned {x : ℕ} (hx : baseAddress ≤ x) : baseAddress ≤ x / blockSize * blockSize := by
  simp only [baseAddress, blockSize] at hx ⊢
  omega

/-- Every locked block is being copied, the pages of a saved block are writable, and only pages of
blocks to be saved are not. -/
structure CowShared.Served (bitmap : ℕ → BitVec 64) (n : ℕ) (s : CowShared) : Prop where
  held : ∀ b, s.context b = .locked → ∃ t c, s.copying t = some c ∧ c.block = b
  writable : ∀ x, baseAddress ≤ x → s.context (blockOf x) = .saved → s.readOnly x = false
  marking : ∀ t c, s.copying t = some c → c.pc = .marking → ∀ x, baseAddress ≤ x →
    blockOf x = c.block → s.readOnly x = false
  guarded : ∀ x, s.readOnly x = true → UsedBelow bitmap n x

theorem CowShared.claim_copying_of_ne {t' : Copier} {addr : ℕ} {copies : List Copy} (ht : t' ≠ t) :
    (s.claim t b addr copies).copying t' = s.copying t' :=
  update_of_ne ht ..

/-- An idle thread locks a block. -/
theorem CowShared.Served.claim (hs : s.Served bitmap n) (hidle : s.copying t = none) (addr : ℕ)
    (copies : List Copy) : (s.claim t b addr copies).Served bitmap n where
  held := fun b' hb' => by
    by_cases heq : b' = b
    · exact ⟨t, _, update_self .., heq.symm⟩
    · rw [CowShared.claim_context_of_ne heq] at hb'
      obtain ⟨t', c, hc, hblock⟩ := hs.held b' hb'
      have hne : t' ≠ t := fun ht => by simp [ht, hidle] at hc
      exact ⟨t', c, (CowShared.claim_copying_of_ne hne).trans hc, hblock⟩
  writable := fun x hx hsaved => by
    refine hs.writable x hx ?_
    by_cases heq : blockOf x = b
    · rw [heq, CowShared.claim_context_self] at hsaved
      cases hsaved
    · rwa [CowShared.claim_context_of_ne heq] at hsaved
  marking := fun t' c hc hpc => by
    rcases update_eq_some hc with ⟨-, heq⟩ | ⟨-, hc⟩
    · cases heq
      cases hpc
    · exact hs.marking t' c hc hpc
  guarded := hs.guarded

/-- A thread goes on with its copy and keeps its block. -/
theorem CowShared.Served.held_of_update (hs : s.Served bitmap n) {c c' : Copying}
    (hc : s.copying t = some c) (hblock : c'.block = c.block) (hb : s.context b = .locked) :
    ∃ t' d, Function.update s.copying t (some c') t' = some d ∧ d.block = b := by
  obtain ⟨t', d, hd, hdb⟩ := hs.held b hb
  by_cases ht : t' = t
  · subst ht
    obtain rfl : c = d := Option.some.inj (hc.symm.trans hd)
    exact ⟨t', c', update_self .., hblock.trans hdb⟩
  · exact ⟨t', d, (update_of_ne ht ..).trans hd, hdb⟩

/-- A step of a copying thread. -/
theorem CowShared.Served.copy (hs : s.Served bitmap n) (hinv : CowInv h bitmap n frozen s)
    (hstep : s.copyStep t = some s') : s'.Served bitmap n := by
  obtain ⟨b, addr, c, rest, hc, rfl⟩ | ⟨b, addr, hc, rfl⟩ | ⟨b, addr, hc, -, rfl⟩ :=
    copyStep_cases hstep
  · refine ⟨fun b' hb' => hs.held_of_update hc rfl hb', hs.writable, fun t' d hd hpc => ?_,
      hs.guarded⟩
    rcases update_eq_some hd with ⟨-, heq⟩ | ⟨-, hd⟩
    · cases heq
      cases hpc
    · exact hs.marking t' d hd hpc
  · refine ⟨fun b' hb' => hs.held_of_update hc rfl hb', fun x hx hsaved => ?_,
      fun t' d hd hpc x hx hxb => ?_, fun x hx => hs.guarded x ?_⟩
    · dsimp only
      split
      · rfl
      · exact hs.writable x hx hsaved
    · dsimp only
      rcases update_eq_some hd with ⟨-, heq⟩ | ⟨-, hd⟩
      · cases heq
        have haddr : addr = baseAddress + b * blockSize := (hinv.locked t _ hc).2
        exact if_pos (haddr ▸ mem_block hx hxb)
      · split
        · rfl
        · exact hs.marking t' d hd hpc x hx hxb
    · dsimp only at hx
      split at hx
      · cases hx
      · exact hx
  · refine ⟨fun b' hb' => ?_, fun x hx hsaved => ?_, fun t' d hd hpc => ?_, hs.guarded⟩
    · dsimp only at hb' ⊢
      have hne : b' ≠ b := fun heq => by simp [heq] at hb'
      rw [update_of_ne hne] at hb'
      obtain ⟨t', d, hd, hdb⟩ := hs.held b' hb'
      have ht : t' ≠ t := by
        rintro rfl
        obtain rfl := Option.some.inj (hc.symm.trans hd)
        exact hne hdb.symm
      exact ⟨t', d, (update_of_ne ht ..).trans hd, hdb⟩
    · dsimp only at hsaved ⊢
      by_cases hxb : blockOf x = b
      · exact hs.marking t _ hc rfl x hx hxb
      · rw [update_of_ne hxb] at hsaved
        exact hs.writable x hx hsaved
    · rcases update_eq_some hd with ⟨-, heq⟩ | ⟨-, hd⟩
      · cases heq
      · exact hs.marking t' d hd hpc

end Served

/-! ## Every state -/

section Invariant

variable {h : SnapshotHeader} {bitmap : ℕ → BitVec 64} {n : ℕ} {frozen : Mem} {s s' : CowState}

/-- The invariant of the copying phase: with what holds of the blocks and of the snapshot threads, the
threads fault on blocks that are to be saved only. -/
structure CopyingInv (h : SnapshotHeader) (bitmap : ℕ → BitVec 64) (n : ℕ) (frozen : Mem)
    (s : CowState) : Prop where
  cow : CowInv h bitmap n frozen s.toCowShared
  workers : WorkersInv h n s
  served : s.toCowShared.Served bitmap n
  faults : ∀ j addr, (s.writers j).faultAddr = some addr → UsedBelow bitmap n addr

/-- The thread that takes the snapshot only moves on. -/
theorem mainStep_eq (hstep : s.mainStep n = some s') : ∃ m, s' = { s with main := m } := by
  rw [CowState.mainStep] at hstep
  split at hstep
  · obtain ⟨-, hstep⟩ := Option.ite_none_right_eq_some.mp hstep
    cases hstep
    exact ⟨_, rfl⟩
  · obtain ⟨-, hstep⟩ := Option.ite_none_right_eq_some.mp hstep
    cases hstep
    exact ⟨_, rfl⟩
  · split at hstep
    · split at hstep <;> cases hstep
      · exact ⟨s.main, rfl⟩
      · exact ⟨_, rfl⟩
    · cases hstep
      exact ⟨_, rfl⟩
  · cases hstep

/-- What a step of a snapshot thread is. -/
theorem workerStep_cases {i : ℕ} (hstep : s.workerStep bitmap n i = some s') :
    (s.workers i).sp < shareLength n ∧ s.copying (.worker i) = none ∧
      ((∃ b addr copies, s' = { s with toCowShared := s.claim (.worker i) b addr copies }) ∨
        s' = { s with workers := Function.update s.workers i (s.workers i).next }) := by
  rw [CowState.workerStep] at hstep
  obtain ⟨⟨-, -, hsp, hidle⟩, hstep⟩ := Option.ite_none_right_eq_some.mp hstep
  refine ⟨hsp, Option.isNone_iff_eq_none.mp hidle, ?_⟩
  split at hstep <;> cases hstep
  · exact .inl ⟨_, _, _, rfl⟩
  · exact .inr rfl

/-- What a step of an application thread is: it locks a block, or it changes its place, and maybe
memory. -/
theorem writerStep_cases {j : ℕ} (hstep : s.writerStep h bitmap j = some s') :
    s.writers j ≠ .idle ∧
      ((s.copying (.handler j) = none ∧
          ∃ b addr copies, s' = { s with toCowShared := s.claim (.handler j) b addr copies }) ∨
        ∃ m pc, s' = { s with mem := m, writers := Function.update s.writers j pc } ∧
          ∀ addr, pc.faultAddr = some addr →
            (s.writers j).faultAddr = some addr ∨ s.readOnly addr = true) := by
  rw [CowState.writerStep] at hstep
  split at hstep
  · cases hstep
  · rename_i addr byte hpc
    refine ⟨by simp [hpc], .inr ?_⟩
    split at hstep <;> cases hstep
    · rename_i hro
      exact ⟨s.mem, _, rfl, fun a ha => .inr (by cases ha; exact hro)⟩
    · exact ⟨_, _, rfl, fun a ha => by cases ha⟩
  · rename_i addr byte hpc
    dsimp only at hstep
    obtain ⟨⟨hidle, -⟩, hstep⟩ := Option.ite_none_right_eq_some.mp hstep
    refine ⟨by simp [hpc], ?_⟩
    split at hstep <;> cases hstep
    · exact .inl ⟨Option.isNone_iff_eq_none.mp hidle, _, _, _, rfl⟩
    · exact .inr ⟨s.mem, _, rfl, fun a ha => .inl (by cases ha; rw [hpc]; rfl)⟩
  · rename_i addr byte hpc
    dsimp only at hstep
    refine ⟨by simp [hpc], .inr ?_⟩
    split at hstep <;> cases hstep
    · exact ⟨s.mem, _, rfl, fun a ha => by cases ha⟩
    · exact ⟨s.mem, s.writers j, by rw [update_eq_self], fun a ha => .inl ha⟩

@[simp] theorem CowState.resume_toCowShared (t : Copier) :
    (s.resume t).toCowShared = s.toCowShared := by
  rw [CowState.resume.eq_def]
  split
  · rfl
  · cases t with
    | worker i => rfl
    | handler j =>
      dsimp only
      split <;> rfl

@[simp] theorem CowState.resume_main (t : Copier) : (s.resume t).main = s.main := by
  rw [CowState.resume.eq_def]
  split
  · rfl
  · cases t with
    | worker i => rfl
    | handler j =>
      dsimp only
      split <;> rfl

/-- A thread that resumes moves no worker but itself. -/
theorem CowState.resume_workers {t : Copier} {i : ℕ} (ht : t ≠ .worker i) :
    (s.resume t).workers i = s.workers i := by
  rw [CowState.resume.eq_def]
  split
  · rfl
  · cases t with
    | worker k => exact update_of_ne (fun heq : i = k => ht (by rw [heq])) ..
    | handler j =>
      dsimp only
      split <;> rfl

/-- A thread that resumes returns from its fault, or stays where it is. -/
theorem CowState.resume_writers (t : Copier) (j : ℕ) :
    (s.resume t).writers j = s.writers j ∨
      ∃ addr byte, s.writers j = .faulted addr byte ∧
        (s.resume t).writers j = .writing addr byte := by
  rw [CowState.resume.eq_def]
  split
  · exact .inl rfl
  · cases t with
    | worker i => exact .inl rfl
    | handler k =>
      dsimp only
      split
      · rename_i addr byte hpc
        by_cases hj : j = k
        · subst hj
          exact .inr ⟨addr, byte, hpc, update_self ..⟩
        · exact .inl (update_of_ne hj ..)
      · exact .inl rfl

/-- **Each step keeps the invariant of the copying phase.** -/
theorem CopyingInv.step {a : CowAction} (hI : CopyingInv h bitmap n frozen s)
    (hstep : cowStep h bitmap n s a = some s') : CopyingInv h bitmap n frozen s' := by
  obtain ⟨hmove, hw⟩ := cowStep_move hI.workers hstep
  suffices hrest : s'.toCowShared.Served bitmap n ∧
      ∀ j addr, (s'.writers j).faultAddr = some addr → UsedBelow bitmap n addr from
    ⟨hI.cow.move hmove, hw, hrest.1, hrest.2⟩
  have hupdate {k : ℕ} {pc : WriterPc}
      (hpc : ∀ addr, pc.faultAddr = some addr → UsedBelow bitmap n addr) (j addr : ℕ)
      (haddr : (Function.update s.writers k pc j).faultAddr = some addr) :
      UsedBelow bitmap n addr := by
    by_cases hj : j = k
    · subst hj
      rw [update_self] at haddr
      exact hpc addr haddr
    · rw [update_of_ne hj] at haddr
      exact hI.faults j addr haddr
  cases a with
  | main =>
    obtain ⟨m, rfl⟩ := mainStep_eq hstep
    exact ⟨hI.served, hI.faults⟩
  | worker i =>
    obtain ⟨-, hidle, ⟨b, addr, copies, rfl⟩ | rfl⟩ := workerStep_cases hstep
    · exact ⟨hI.served.claim hidle addr copies, hI.faults⟩
    · exact ⟨hI.served, hI.faults⟩
  | copy t =>
    obtain ⟨sh, hsh, rfl⟩ := Option.map_eq_some_iff.mp hstep
    constructor
    · rw [CowState.resume_toCowShared]
      exact hI.served.copy hI.cow hsh
    · intro j addr haddr
      rcases CowState.resume_writers (s := { s with toCowShared := sh }) t j with
        heq | ⟨_, _, -, heq⟩
      · exact hI.faults j addr (heq ▸ haddr)
      · rw [heq] at haddr
        cases haddr
  | write k addr byte =>
    rw [cowStep] at hstep
    split at hstep
    · cases hstep
      exact ⟨hI.served, hupdate fun a ha => by cases ha⟩
    · cases hstep
  | writer k =>
    obtain ⟨-, ⟨hidle, b, addr, copies, rfl⟩ | ⟨m, pc, rfl, hpc⟩⟩ := writerStep_cases hstep
    · exact ⟨hI.served.claim hidle addr copies, hI.faults⟩
    · refine ⟨⟨hI.served.held, hI.served.writable, hI.served.marking, hI.served.guarded⟩,
        hupdate fun a ha => ?_⟩
      rcases hpc a ha with hold | hro
      · exact hI.faults k a hold
      · exact hI.served.guarded a hro

/-- The invariant holds behind `markPagesReadOnly`. -/
theorem CopyingInv.start (h : SnapshotHeader) (bitmap : ℕ → BitVec 64) (n : ℕ) (mem file : Mem) :
    CopyingInv h bitmap n mem (cowStart h bitmap n mem file) := by
  obtain ⟨first, hmarked⟩ := marked_markBlocks bitmap (fun _ => .blank) n
  have hctx : ∀ b, (cowStart h bitmap n mem file).context b =
      if b < n then if blockUsed bitmap b then .used else .free else .blank := hmarked.words
  have hword : ∀ b, (cowStart h bitmap n mem file).context b ≠ .locked ∧
      (cowStart h bitmap n mem file).context b ≠ .saved := fun b => by
    rw [hctx]
    split
    · split <;> simp
    · simp
  refine ⟨.start h bitmap n mem file, .start h bitmap n mem file,
    ⟨fun b hb => absurd hb (hword b).1, fun x _ hx => absurd hx (hword _).2,
      fun t c hc => (by cases hc), fun x hx => ?_⟩, fun j addr hj => by cases hj⟩
  have hlen : (rangesAt (markPagesReadOnly bitmap (fun _ => .blank) n).protects x).length =
      if UsedBelow bitmap n x then 1 else 0 := hmarked.flush
  by_contra hnot
  rw [if_neg hnot, List.length_eq_zero_iff] at hlen
  simp [cowStart, hlen] at hx

end Invariant

/-! ## Copying a block -/

section Blocks

variable {h : SnapshotHeader} {bitmap : ℕ → BitVec 64} {n : ℕ} {frozen : Mem} {s s' : CowState}
  {t : Copier} {b addr : ℕ}

/-- Completing steps lead from one state to the other. -/
abbrev Completes (h : SnapshotHeader) (bitmap : ℕ → BitVec 64) (n : ℕ) : CowState → CowState → Prop :=
  Reaches (cowStep h bitmap n) CowAction.finishes

theorem CopyingInv.completes (hI : CopyingInv h bitmap n frozen s) (hr : Completes h bitmap n s s') :
    CopyingInv h bitmap n frozen s' :=
  hr.invariant (fun _ _ _ hs _ hstep => hs.step hstep) hI

/-- Thread `t` has completed the copy of block `b` and resumed its own code. -/
structure BlockSaved (t : Copier) (b : ℕ) (s s' : CowState) : Prop where
  idle : s'.copying t = none
  saved : s'.context b = .saved
  main : s'.main = s.main
  worker : ∀ i, t = .worker i → (s'.workers i).sp = (s.workers i).sp + 1
  handler : ∀ j addr byte, t = .handler j → s.writers j = .faulted addr byte →
    s'.writers j = .writing addr byte

/-- The block is writable again; the word is next. -/
theorem CopyingInv.marking_completes (hI : CopyingInv h bitmap n frozen s)
    (hc : s.copying t = some ⟨b, addr, .marking⟩) :
    ∃ s', Completes h bitmap n s s' ∧ BlockSaved t b s s' := by
  have hlocked : s.context b = .locked := (hI.cow.locked t _ hc).1
  have hcopy : s.copyStep t = some { s.toCowShared with
      context := Function.update s.context b .saved
      copying := Function.update s.copying t none } := by
    simp only [CowShared.copyStep, hc, hlocked, if_true]
  refine ⟨_, .single (a := .copy t) (Option.map_eq_some_iff.mpr ⟨_, hcopy, rfl⟩) rfl, ?_⟩
  refine ⟨by simp, by simp, by simp, ?_, ?_⟩
  · rintro i rfl
    simp [CowState.resume, WorkerLocals.next]
  · rintro j a byte rfl hj
    simp [CowState.resume, hj]

/-- A thread that still has its block afterwards does not resume its own code. -/
theorem cowStep_copy (h : SnapshotHeader) (bitmap : ℕ → BitVec 64) (n : ℕ) {sh : CowShared}
    (hcopy : s.copyStep t = some sh) (hbusy : (sh.copying t).isSome = true) :
    cowStep h bitmap n s (.copy t) = some { s with toCowShared := sh } := by
  simp only [cowStep, hcopy, Option.map_some, CowState.resume, hbusy, if_true]

/-- **A thread that copies a block waits for nobody.** -/
theorem CopyingInv.copying_completes {rest : List Copy} (hI : CopyingInv h bitmap n frozen s)
    (hc : s.copying t = some ⟨b, addr, .copying rest⟩) :
    ∃ s', Completes h bitmap n s s' ∧ BlockSaved t b s s' := by
  induction rest generalizing s with
  | nil =>
    have hcopy : s.copyStep t = some { s.toCowShared with
        readOnly := fun x => if addr ≤ x ∧ x < addr + blockSize then false else s.readOnly x
        copying := Function.update s.copying t (some ⟨b, addr, .marking⟩) } := by
      simp only [CowShared.copyStep, hc]
    have hstep := cowStep_copy h bitmap n hcopy (by simp)
    obtain ⟨s', hr, hsaved⟩ := (hI.step hstep).marking_completes (update_self ..)
    exact ⟨s', .trans (.single hstep rfl) hr, hsaved.idle, hsaved.saved, hsaved.main, hsaved.worker,
      hsaved.handler⟩
  | cons c rest ih =>
    have hcopy : s.copyStep t = some { s.toCowShared with
        file := c.apply s.mem s.file
        copied := s.copied ++ [(t, c)]
        copying := Function.update s.copying t (some ⟨b, addr, .copying rest⟩) } := by
      simp only [CowShared.copyStep, hc]
    have hstep := cowStep_copy h bitmap n hcopy (by simp)
    obtain ⟨s', hr, hsaved⟩ := ih (hI.step hstep) (update_self ..)
    exact ⟨s', .trans (.single hstep rfl) hr, hsaved.idle, hsaved.saved, hsaved.main, hsaved.worker,
      hsaved.handler⟩

theorem CopyingInv.copy_completes {c : Copying} (hI : CopyingInv h bitmap n frozen s)
    (hc : s.copying t = some c) : ∃ s', Completes h bitmap n s s' ∧ BlockSaved t c.block s s' := by
  obtain ⟨b, addr, pc⟩ := c
  cases pc with
  | copying rest => exact hI.copying_completes hc
  | marking => exact hI.marking_completes hc

end Blocks

/-! ## The snapshot -/

section Snapshot

variable {h : SnapshotHeader} {bitmap : ℕ → BitVec 64} {n : ℕ} {frozen : Mem} {s s' : CowState}
  {i : ℕ}

/-- A snapshot thread that has not ended gets to its next block. -/
theorem CopyingInv.worker_iteration (hI : CopyingInv h bitmap n frozen s) (hmain : s.main ≠ .starting)
    (hi : i < snapshotThreads) (hnot : ¬ s.workerDone n i = true) :
    ∃ s', Completes h bitmap n s s' ∧ s'.main = s.main ∧ s'.copying (.worker i) = none ∧
      (s'.workers i).sp = (s.workers i).sp + 1 := by
  cases hc : s.copying (.worker i) with
  | some c =>
    obtain ⟨s', hr, hsaved⟩ := hI.copy_completes hc
    exact ⟨s', hr, hsaved.main, hsaved.idle, hsaved.worker i rfl⟩
  | none =>
    have hsp : (s.workers i).sp < shareLength n := by
      simpa [CowState.workerDone, hc] using hnot
    by_cases hused : s.context (i * shareLength n + (s.workers i).sp) = .used
    · obtain ⟨u, c, hstep, hu, humain, huworkers⟩ : ∃ u c,
          cowStep h bitmap n s (.worker i) = some u ∧ u.copying (.worker i) = some c ∧
          u.main = s.main ∧ u.workers = s.workers := by
        simp only [cowStep, CowState.workerStep]
        exact ⟨_, _, (if_pos ⟨hmain, hi, hsp, by simp [hc]⟩).trans (if_pos hused),
          update_self .., rfl, rfl⟩
      obtain ⟨s', hr, hsaved⟩ := (hI.step hstep).copy_completes hu
      exact ⟨s', .trans (.single hstep rfl) hr, hsaved.main.trans humain, hsaved.idle,
        huworkers ▸ hsaved.worker i rfl⟩
    · have hstep : cowStep h bitmap n s (.worker i) =
          some { s with workers := Function.update s.workers i (s.workers i).next } := by
        simp only [cowStep, CowState.workerStep]
        exact (if_pos ⟨hmain, hi, hsp, by simp [hc]⟩).trans (if_neg hused)
      exact ⟨_, .single hstep rfl, rfl, hc, by simp [WorkerLocals.next]⟩

/-- A snapshot thread ends. -/
theorem CopyingInv.worker_completes (hI : CopyingInv h bitmap n frozen s) (hmain : s.main ≠ .starting)
    (hi : i < snapshotThreads) :
    ∃ s', Completes h bitmap n s s' ∧ s'.main = s.main ∧ s'.workerDone n i = true := by
  induction hk : shareLength n - (s.workers i).sp generalizing s with
  | zero =>
    by_cases hdone : s.workerDone n i = true
    · exact ⟨s, .refl s, rfl, hdone⟩
    · obtain ⟨u, hr, humain, hidle, hsp⟩ := hI.worker_iteration hmain hi hdone
      refine ⟨u, hr, humain, ?_⟩
      simp only [CowState.workerDone, hidle, Bool.and_eq_true, decide_eq_true_eq]
      exact ⟨by omega, rfl⟩
  | succ k ih =>
    by_cases hdone : s.workerDone n i = true
    · exact ⟨s, .refl s, rfl, hdone⟩
    · obtain ⟨u, hr, humain, -, hsp⟩ := hI.worker_iteration hmain hi hdone
      obtain ⟨s', hr', hmain', hdone'⟩ := ih (hI.completes hr) (humain ▸ hmain) (by omega)
      exact ⟨s', hr.trans hr', hmain'.trans humain, hdone'⟩

/-- A snapshot thread that has ended is not disturbed. -/
theorem cowStep_workerDone {a : CowAction} (hdone : s.workerDone n i = true)
    (hstep : cowStep h bitmap n s a = some s') : s'.workerDone n i = true := by
  simp only [CowState.workerDone, Bool.and_eq_true, decide_eq_true_eq, Option.isNone_iff_eq_none]
    at hdone ⊢
  obtain ⟨hsp, hidle⟩ := hdone
  cases a with
  | main =>
    obtain ⟨m, rfl⟩ := mainStep_eq hstep
    exact ⟨hsp, hidle⟩
  | worker k =>
    -- a worker that makes a step is not done, so it is another one
    obtain ⟨hlt, -, hcases⟩ := workerStep_cases hstep
    have hne : i ≠ k := fun heq => by subst heq; omega
    obtain ⟨b, addr, copies, rfl⟩ | rfl := hcases
    · exact ⟨hsp, (CowShared.claim_copying_of_ne (by simpa using hne)).trans hidle⟩
    · exact ⟨by simpa [update_of_ne hne] using hsp, hidle⟩
  | copy t =>
    obtain ⟨sh, hsh, rfl⟩ := Option.map_eq_some_iff.mp hstep
    have hne : t ≠ .worker i := by
      rintro rfl
      simp [CowShared.copyStep, hidle] at hsh
    rw [CowState.resume_workers hne, CowState.resume_toCowShared]
    refine ⟨hsp, Option.eq_none_iff_forall_ne_some.mpr fun c hc => ?_⟩
    obtain ⟨c₀, hc₀, -⟩ := copyStep_block hsh hc
    simp [hidle] at hc₀
  | write k addr byte =>
    rw [cowStep] at hstep
    split at hstep
    · cases hstep
      exact ⟨hsp, hidle⟩
    · cases hstep
  | writer k =>
    obtain ⟨-, ⟨-, b, addr, copies, rfl⟩ | ⟨m, pc, rfl, -⟩⟩ := writerStep_cases hstep
    · have hne : Copier.worker i ≠ .handler k := by simp
      exact ⟨hsp, (CowShared.claim_copying_of_ne hne).trans hidle⟩
    · exact ⟨hsp, hidle⟩

/-- `saveModifiedPages` joins the snapshot threads. -/
theorem CopyingInv.joining_completes (hI : CopyingInv h bitmap n frozen s)
    (hmain : s.main = .joining) : ∃ s', Completes h bitmap n s s' ∧ s'.main = .waiting 0 := by
  obtain ⟨u, hr, ⟨-, humain⟩, hdone⟩ := Reaches.forall_mem (l := List.range snapshotThreads)
    (I := fun s => CopyingInv h bitmap n frozen s ∧ s.main = .joining)
    (P := fun i s => s.workerDone n i = true)
    (fun i hi s hs => by
      obtain ⟨t, ht, htmain, hdone⟩ :=
        hs.1.worker_completes (by simp [hs.2]) (List.mem_range.mp hi)
      exact ⟨t, ht, ⟨hs.1.completes ht, htmain.trans hs.2⟩, hdone⟩)
    (fun i s t hs ht => ht.invariant (I := fun s => s.workerDone n i = true)
      (fun _ _ _ hd _ hstep => cowStep_workerDone hd hstep) hs)
    ⟨hI, hmain⟩
  have hstep : cowStep h bitmap n u .main = some { u with main := .waiting 0 } := by
    simp only [cowStep, CowState.mainStep, humain]
    exact if_pos fun i hi => hdone i (List.mem_range.mpr hi)
  exact ⟨_, hr.trans (.single hstep rfl), rfl⟩

/-- `waitForFaultHandlers` gets past every block: one that is locked is being copied. -/
theorem CopyingInv.waiting_completes (hI : CopyingInv h bitmap n frozen s)
    (hmain : s.main = .waiting i) : ∃ s', Completes h bitmap n s s' ∧ s'.main = .returned := by
  induction hk : n - i generalizing s i with
  | zero =>
    have hstep : cowStep h bitmap n s .main = some { s with main := .returned } := by
      simp only [cowStep, CowState.mainStep, hmain]
      exact if_neg (by omega)
    exact ⟨_, .single hstep rfl, rfl⟩
  | succ k ih =>
    obtain ⟨u, hr, humain, hunlocked⟩ : ∃ u, Completes h bitmap n s u ∧ u.main = .waiting i ∧
        u.context i ≠ .locked := by
      by_cases hlocked : s.context i = .locked
      · obtain ⟨t, c, hc, rfl⟩ := hI.served.held i hlocked
        obtain ⟨u, hr, hsaved⟩ := hI.copy_completes hc
        exact ⟨u, hr, hsaved.main.trans hmain, by simp [hsaved.saved]⟩
      · exact ⟨s, .refl s, hmain, hlocked⟩
    have hstep : cowStep h bitmap n u .main = some { u with main := .waiting (i + 1) } := by
      simp only [cowStep, CowState.mainStep, humain]
      exact (if_pos (by omega)).trans (if_neg hunlocked)
    obtain ⟨s', hr', hs'⟩ := ih ((hI.completes hr).step hstep) rfl (by omega)
    exact ⟨s', hr.trans (.trans (.single hstep rfl) hr'), hs'⟩

/-- **The snapshot returns.** -/
theorem CopyingInv.main_completes (hI : CopyingInv h bitmap n frozen s)
    (hmod : n % snapshotThreads = 0) : ∃ s', Completes h bitmap n s s' ∧ s'.main = .returned := by
  have hjoining {s : CowState} (hI : CopyingInv h bitmap n frozen s) (hs : s.main = .joining) :
      ∃ s', Completes h bitmap n s s' ∧ s'.main = .returned := by
    obtain ⟨u, hr, hu⟩ := hI.joining_completes hs
    obtain ⟨s', hr', hs'⟩ := (hI.completes hr).waiting_completes hu
    exact ⟨s', hr.trans hr', hs'⟩
  cases hmain : s.main with
  | starting =>
    have hstep : cowStep h bitmap n s .main = some { s with main := .joining } := by
      simp only [cowStep, CowState.mainStep, hmain]
      exact if_pos hmod
    obtain ⟨s', hr, hs'⟩ := hjoining (hI.step hstep) rfl
    exact ⟨s', .trans (.single hstep rfl) hr, hs'⟩
  | joining => exact hjoining hI hmain
  | waiting i => exact hI.waiting_completes hmain
  | returned => exact ⟨s, .refl s, hmain⟩

end Snapshot

/-! ## The application -/

section Writers

variable {h : SnapshotHeader} {bitmap : ℕ → BitVec 64} {n : ℕ} {frozen : Mem} {s s' : CowState}
  {j addr : ℕ} {byte : UInt8}

/-- The copying phase when the snapshot has returned. -/
structure Returned (h : SnapshotHeader) (bitmap : ℕ → BitVec 64) (n : ℕ) (frozen : Mem)
    (s : CowState) : Prop where
  inv : CopyingInv h bitmap n frozen s
  main : s.main = .returned

theorem Returned.saved (hs : Returned h bitmap n frozen s) {b : ℕ} (hb : b < n)
    (hused : blockUsed bitmap b = true) : s.context b = .saved := by
  have hknows := hs.inv.workers.main
  rw [hs.main] at hknows
  obtain ⟨hnot, hunlocked⟩ := hknows b hb
  rcases hs.inv.cow.words b hb hused with hctx | hctx | hctx
  · exact absurd hctx hnot
  · exact absurd hctx hunlocked
  · exact hctx

/-- No page is protected any more. -/
theorem Returned.writable (hs : Returned h bitmap n frozen s) (x : ℕ) : s.readOnly x = false := by
  by_contra hro
  rw [Bool.not_eq_false] at hro
  obtain ⟨hx, hb, hused⟩ := hs.inv.served.guarded x hro
  rw [hs.inv.served.writable x hx (hs.saved hb hused)] at hro
  cases hro

theorem Returned.writing_completes (hs : Returned h bitmap n frozen s)
    (hj : s.writers j = .writing addr byte) :
    ∃ s', Completes h bitmap n s s' ∧ Returned h bitmap n frozen s' ∧ s'.writers j = .idle := by
  obtain ⟨u, hstep, humain, hu⟩ : ∃ u, cowStep h bitmap n s (.writer j) = some u ∧
      u.main = s.main ∧ u.writers j = .idle := by
    simp only [cowStep, CowState.writerStep, hj, hs.writable addr]
    exact ⟨_, rfl, rfl, update_self ..⟩
  exact ⟨u, .single hstep rfl, ⟨hs.inv.step hstep, humain.trans hs.main⟩, hu⟩

/-- A thread that waits for its block finds it saved. -/
theorem Returned.waiting_completes (hs : Returned h bitmap n frozen s)
    (hj : s.writers j = .waiting addr byte) :
    ∃ s', Completes h bitmap n s s' ∧ Returned h bitmap n frozen s' ∧ s'.writers j = .idle := by
  obtain ⟨hx, hb, hused⟩ := hs.inv.faults j addr (by rw [hj]; rfl)
  have hsaved := hs.saved hb hused
  rw [← (alignedAddr_eq (base_le_aligned hx)).2] at hsaved
  obtain ⟨u, hstep, humain, hu⟩ : ∃ u, cowStep h bitmap n s (.writer j) = some u ∧
      u.main = s.main ∧ u.writers j = .writing addr byte := by
    simp only [cowStep, CowState.writerStep, hj]
    exact ⟨_, if_pos hsaved, rfl, update_self ..⟩
  have hreturned : Returned h bitmap n frozen u := ⟨hs.inv.step hstep, humain.trans hs.main⟩
  obtain ⟨s', hr, hs'⟩ := hreturned.writing_completes hu
  exact ⟨s', .trans (.single hstep rfl) hr, hs'⟩

/-- An application thread makes its write. -/
theorem Returned.writer_completes (hs : Returned h bitmap n frozen s)
    (hn : n * blockSize ≤ maxMemorySize) (j : ℕ) :
    ∃ s', Completes h bitmap n s s' ∧ Returned h bitmap n frozen s' ∧ s'.writers j = .idle := by
  cases hj : s.writers j with
  | idle => exact ⟨s, .refl s, hs, hj⟩
  | writing addr byte => exact hs.writing_completes hj
  | waiting addr byte => exact hs.waiting_completes hj
  | faulted addr byte =>
    cases hc : s.copying (.handler j) with
    | some c =>
      obtain ⟨u, hr, hsaved⟩ := hs.inv.copy_completes hc
      have hreturned : Returned h bitmap n frozen u :=
        ⟨hs.inv.completes hr, hsaved.main.trans hs.main⟩
      obtain ⟨s', hr', hs'⟩ := hreturned.writing_completes (hsaved.handler j addr byte rfl hj)
      exact ⟨s', hr.trans hr', hs'⟩
    | none =>
      -- the block is saved, so the CAS fails and the thread goes to the loop that waits
      obtain ⟨hx, hb, hused⟩ := hs.inv.faults j addr (by rw [hj]; rfl)
      obtain ⟨haligned, hblock⟩ := alignedAddr_eq (base_le_aligned hx)
      have hnot : s.context ((addr / blockSize * blockSize - baseAddress) / blockSize) ≠ .used := by
        rw [hblock, hs.saved hb hused]
        simp
      have hrange : addr / blockSize * blockSize < baseAddress + maxMemorySize := by
        have hlt := Nat.mul_lt_mul_of_pos_right hb (by decide : 0 < blockSize)
        omega
      obtain ⟨u, hstep, humain, hu⟩ : ∃ u, cowStep h bitmap n s (.writer j) = some u ∧
          u.main = s.main ∧ u.writers j = .waiting addr byte := by
        simp only [cowStep, CowState.writerStep, hj]
        exact ⟨_, (if_pos ⟨by simp [hc], base_le_aligned hx, hrange⟩).trans (if_neg hnot), rfl,
          update_self ..⟩
      have hreturned : Returned h bitmap n frozen u := ⟨hs.inv.step hstep, humain.trans hs.main⟩
      obtain ⟨s', hr, hs'⟩ := hreturned.waiting_completes hu
      exact ⟨s', .trans (.single hstep rfl) hr, hs'⟩

/-- Completing steps start no write. -/
theorem cowStep_idle {a : CowAction} (hidle : s.writers j = .idle) (ha : a.finishes = true)
    (hstep : cowStep h bitmap n s a = some s') : s'.writers j = .idle := by
  cases a with
  | main =>
    obtain ⟨m, rfl⟩ := mainStep_eq hstep
    exact hidle
  | worker i =>
    obtain ⟨-, -, ⟨b, addr, copies, rfl⟩ | rfl⟩ := workerStep_cases hstep <;> exact hidle
  | copy t =>
    obtain ⟨sh, hsh, rfl⟩ := Option.map_eq_some_iff.mp hstep
    rcases CowState.resume_writers (s := { s with toCowShared := sh }) t j with
      heq | ⟨_, _, hpc, -⟩
    · exact heq.trans hidle
    · cases hpc.symm.trans hidle
  | write k addr byte => cases ha
  | writer k =>
    obtain ⟨hbusy, hcases⟩ := writerStep_cases hstep
    have hne : j ≠ k := fun heq => hbusy (heq ▸ hidle)
    obtain ⟨-, b, addr, copies, rfl⟩ | ⟨m, pc, rfl, -⟩ := hcases
    · exact hidle
    · exact (update_of_ne hne ..).trans hidle

/-- **The copying ends.** Let the blocks be shared out evenly and lie in the managed range. Whatever
the snapshot threads, the writing threads and the fault handlers have done since `markPagesReadOnly`,
there are steps that start no further write, after which the snapshot has returned, every block in
use is saved, no page is protected, and the given threads have made their writes. -/
theorem copying_finishes {mem file : Mem} {as : List CowAction} (hmod : n % snapshotThreads = 0)
    (hn : n * blockSize ≤ maxMemorySize)
    (hrun : run (cowStep h bitmap n) (cowStart h bitmap n mem file) as = some s)
    (writers : List ℕ) :
    ∃ rest s', (∀ a ∈ rest, CowAction.finishes a = true) ∧
      run (cowStep h bitmap n) s rest = some s' ∧ s'.main = .returned ∧
      (∀ b < n, blockUsed bitmap b = true → s'.context b = .saved) ∧
      (∀ x, s'.readOnly x = false) ∧ ∀ j ∈ writers, s'.writers j = .idle := by
  have hI : CopyingInv h bitmap n mem s :=
    run_invariant (fun _ _ _ hs hstep => hs.step hstep) (CopyingInv.start h bitmap n mem file) hrun
  obtain ⟨t, hst, ht⟩ := hI.main_completes hmod
  obtain ⟨u, htu, hu, hidle⟩ := Reaches.forall_mem (l := writers) (I := Returned h bitmap n mem)
    (P := fun j s => s.writers j = .idle)
    (fun j _ s hs => hs.writer_completes hn j)
    (fun j s t hs ht => ht.invariant (I := fun s => s.writers j = .idle)
      (fun _ _ _ hd ha hstep => cowStep_idle hd ha hstep) hs)
    ⟨hI.completes hst, ht⟩
  obtain ⟨rest, hrest, hlast⟩ := hst.trans htu
  exact ⟨rest, u, hrest, hlast, hu.main, fun _ => hu.saved, hu.writable, hidle⟩

/-- Four blocks, one page of the first one in use, and a thread that has faulted on it. -/
theorem copying_finishes_fault :
    ∃ s, run (cowStep ⟨0, 0, 0, 0, 0, 64⟩ (fun cell => if cell = 0 then 1 else 0) 4)
        (cowStart ⟨0, 0, 0, 0, 0, 64⟩ (fun cell => if cell = 0 then 1 else 0) 4 (fun _ => 0)
          fun _ => 1)
        [.write 0 (baseAddress + 5) 7, .writer 0] = some s ∧
      (s.writers 0).faultAddr = some (baseAddress + 5) ∧
      ∃ rest s', (∀ a ∈ rest, CowAction.finishes a = true) ∧
        run (cowStep ⟨0, 0, 0, 0, 0, 64⟩ (fun cell => if cell = 0 then 1 else 0) 4) s rest = some s' ∧
        s'.main = .returned ∧
        (∀ b < 4, blockUsed (fun cell => if cell = 0 then 1 else 0) b = true →
          s'.context b = .saved) ∧
        (∀ x, s'.readOnly x = false) ∧ ∀ j ∈ [0], s'.writers j = .idle := by
  have hany : (run (cowStep ⟨0, 0, 0, 0, 0, 64⟩ (fun cell => if cell = 0 then 1 else 0) 4)
      (cowStart ⟨0, 0, 0, 0, 0, 64⟩ (fun cell => if cell = 0 then 1 else 0) 4 (fun _ => 0) fun _ => 1)
      [.write 0 (baseAddress + 5) 7, .writer 0]).any
        (fun s => decide ((s.writers 0).faultAddr = some (baseAddress + 5))) = true := by
    decide +kernel
  obtain ⟨s, hrun, hs⟩ := run_of_any hany
  exact ⟨s, hrun, of_decide_eq_true hs, copying_finishes (by decide) (by decide) hrun [0]⟩

end Writers

end Pronto
