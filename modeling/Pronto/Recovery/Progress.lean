import Pronto.Recovery.Runs
import Mathlib.Algebra.Ring.Nat
import Mathlib.Algebra.Order.BigOperators.Group.List
import Mathlib.Algebra.Order.Group.Nat
import Mathlib.Data.Nat.Find

/-!
# Recovery ends

From every state that recovery reaches over a history of chains, some schedule of the threads ends
it. `remaining` measures what is left to do. A thread between the reads of a test can always go on.
When there is none, the first transaction that is not through has a thread that makes progress: the
one that plays it, or the next one that waits in it.
-/

namespace Pronto

open Function Runs

/-! ## What is left to do -/

/-- The part of `notify` that is left; the reads of one round of the test count down. -/
def NotifyPc.left : NotifyPc → ℕ
  | .push => 0
  | .readParent _ => 1
  | .readCommit _ _ => 2
  | .readLast _ => 3
  | .enter => 4

/-- The part of the current record that is left, where no record has more than `m` instructions. -/
def ThreadPc.left (m : ℕ) : ThreadPc → ℕ
  | .ended => 0
  | .advance => 1
  | .check _ _ => 2
  | .assertion _ _ => 3
  | .setCommit _ _ => 4
  | .setParent _ _ => 5
  | .playing code npc => 5 * code.length + npc.left
  | .next => 5 * m + 6

/-- The most instructions that a record can have. -/
def codeBound (chains : List (List (ℕ × ℕ))) : ℕ := 2 * chains.flatten.length

/-- What the thread of `o` has left. -/
def RecoveryState.left (h : History) (chains : List (List (ℕ × ℕ))) (s : RecoveryState) (o : ℕ) : ℕ :=
  ((h.ids o).length - s.lastPlayed o) * (5 * codeBound chains + 7) +
    (s.pc o).left (codeBound chains)

/-- What all threads have left. -/
def remaining (h : History) (chains : List (List (ℕ × ℕ))) (s : RecoveryState) : ℕ :=
  (h.objects.map (s.left h chains)).sum

/-- Some schedule leads to a state in which less is left. -/
def Advances (h : History) (chains : List (List (ℕ × ℕ))) (s : RecoveryState) : Prop :=
  ∃ as s', Guarded (recoveryStep h) (fun s o => atomicTests h s o = true) s as ∧
    run (recoveryStep h) s as = some s' ∧ remaining h chains s' < remaining h chains s

section

variable {h : History} {chains : List (List (ℕ × ℕ))} {s s' : RecoveryState} {pos : ℕ → ℕ}
  {t k o b i j p e : ℕ} {npc : NotifyPc}

theorem two_depth_le (chains : List (List (ℕ × ℕ))) (t : ℕ) :
    2 * depth chains t ≤ codeBound chains := by
  unfold depth chainAt codeBound
  rw [List.getD_eq_getElem?_getD]
  cases hget : chains[t]? with
  | none => simp
  | some cs =>
    exact Nat.mul_le_mul_left 2
      (List.sublist_flatten_of_mem (List.mem_of_getElem? hget)).length_le

theorem remaining_lt (hoff : AgreesOff o s s') (ho : o ∈ h.objects)
    (hlt : s'.left h chains o < s.left h chains o) :
    remaining h chains s' < remaining h chains s := by
  refine List.sum_lt_sum _ _ (fun b _ => ?_) ⟨o, ho, hlt⟩
  by_cases hb : b = o
  · exact hb ▸ hlt.le
  · rw [RecoveryState.left, RecoveryState.left, hoff.lastPlayed hb, hoff.pc hb]

theorem recoveryStep_eq (hrun : s.aborted = false) (ho : o ∈ h.objects) :
    recoveryStep h s o = objectStep h s o (s.pc o) := by
  rw [recoveryStep, if_neg (by simp [hrun, ho])]

/-- One step of a thread. -/
theorem advances_of_step (hrun : s.aborted = false) (ho : o ∈ h.objects)
    (hok : atomicTests h s o = true) (hstep : objectStep h s o (s.pc o) = some s')
    (hoff : AgreesOff o s s') (hlt : s'.left h chains o < s.left h chains o) :
    Advances h chains s := by
  refine ⟨[o], s', ⟨hok, fun _ _ => trivial⟩, ?_, remaining_lt hoff ho hlt⟩
  rw [run_cons]
  exact ⟨s', (recoveryStep_eq hrun ho).trans hstep, rfl⟩

/-- One step of a thread that stays at its record. -/
theorem advances_within (hrun : s.aborted = false) (ho : o ∈ h.objects)
    (hok : atomicTests h s o = true) (hstep : objectStep h s o (s.pc o) = some s')
    (hoff : AgreesOff o s s') (hlast : s'.lastPlayed o = s.lastPlayed o)
    (hlt : (s'.pc o).left (codeBound chains) < (s.pc o).left (codeBound chains)) :
    Advances h chains s := by
  refine advances_of_step hrun ho hok hstep hoff ?_
  rw [RecoveryState.left, RecoveryState.left, hlast]
  exact Nat.add_lt_add_left hlt _

/-- The step to the next record. -/
theorem advances_next (hrun : s.aborted = false) (ho : o ∈ h.objects) (hpc : s.pc o = .advance)
    (hlt : s.lastPlayed o < (h.ids o).length) : Advances h chains s := by
  refine advances_of_step (o := o) hrun ho (by simp [atomicTests, hpc]) (by rw [hpc]; rfl)
    ((AgreesOff.setLastPlayed _).goto _) ?_
  rw [RecoveryState.left, RecoveryState.left, hpc]
  simp only [RecoveryState.goto, update_self, ThreadPc.left]
  obtain ⟨n, hn⟩ : ∃ n, (h.ids o).length = s.lastPlayed o + 1 + n := ⟨_, (Nat.add_sub_of_le hlt).symm⟩
  rw [hn, Nat.add_sub_cancel_left, Nat.add_assoc, Nat.add_sub_cancel_left, Nat.add_mul 1 n]
  omega

/-! ## The threads that can go on -/

/-- A thread that waits goes on, unless it may only look again whether its parent is played. -/
theorem RecInv.advances_waiter (hs : Serialized h chains) (hinv : RecInv h chains s pos)
    (hcall : IsCall chains t (k + 1) o (s.lastPlayed o + 1)) (hp : IsCall chains t k p e)
    (hquiet : ∀ q f, s.pc o = .setParent q f → ∀ b ∈ h.objects, s.testing b o = false)
    (hcheck : ∀ q f, s.pc o = .check q f → e ≤ s.lastPlayed p) : Advances h chains s := by
  have ho := hs.mem hcall
  have hwaiter := hinv.waiter hs hcall hp
  generalize hpc : s.pc o = pc at hwaiter
  have hself : ∀ (s : RecoveryState) (pc : ThreadPc), (s.goto o pc).pc o = pc := fun _ _ =>
    update_self ..
  cases hwaiter with
  | next hn =>
    have hrecord := hs.nested hcall hp
    refine advances_within (o := o) hinv.running ho (by simp [atomicTests, hpc, hrecord])
      (by rw [hpc, objectStep, hrecord]) (AgreesOff.refl.goto _) rfl ?_
    rw [hself, hpc, ThreadPc.left, ThreadPc.left]
    omega
  | setParent hn =>
    refine advances_within (o := o) hinv.running ho
      ((atomicTests_setParent hpc).mpr (hquiet _ _ hpc)) (by rw [hpc, objectStep])
      ((AgreesOff.setWaitParent _).goto _) rfl ?_
    rw [hself, hpc, ThreadPc.left, ThreadPc.left]
    omega
  | setCommit hparent hcommit =>
    refine advances_within (o := o) hinv.running ho (by simp [atomicTests, hpc])
      (by rw [hpc, objectStep]) ((AgreesOff.setWaitCommit _).goto _) rfl ?_
    rw [hself, hpc, ThreadPc.left, ThreadPc.left]
    omega
  | check hparent hcommit =>
    -- the parent's record has been played, so the wait is over
    refine advances_within (o := o) hinv.running ho (by simp [atomicTests, hpc])
      (by rw [hpc, objectStep, if_neg (Nat.not_lt.mpr (hcheck _ _ hpc))]) (AgreesOff.refl.goto _)
      rfl ?_
    rw [hself, hpc, ThreadPc.left, ThreadPc.left]
    omega
  | assertion hparent hcommit hrec =>
    refine advances_within (o := o) hinv.running ho (by simp [atomicTests, hpc])
      (by rw [hpc, objectStep, if_pos hrec]) (AgreesOff.refl.goto _) rfl ?_
    rw [hself, hpc, ThreadPc.left, ThreadPc.left]
    omega
  | advance hpassed => exact advances_next hinv.running ho hpc (hs.ids hcall).2

/-- A thread that plays a transaction goes on, unless it may only look again whether the object that
it calls waits. -/
theorem RecInv.advances_player (hs : Serialized h chains) (hinv : RecInv h chains s pos)
    (hcall : IsCall chains t 0 o (s.lastPlayed o + 1))
    (hread : ∀ k b i p e rest, pos t = k + 1 → IsCall chains t (k + 1) b i → IsCall chains t k p e →
      s.pc o = .playing (.notify b i :: rest) (.readParent p) → Advances h chains s) :
    Advances h chains s := by
  have ho := hs.mem hcall
  have hplayer := hinv.player hs hcall
  generalize hpc : s.pc o = pc at hplayer
  have hself : ∀ (s : RecoveryState) (pc : ThreadPc), (s.goto o pc).pc o = pc := fun _ _ =>
    update_self ..
  cases hplayer with
  | next hn =>
    have hrecord := hs.outer hcall
    refine advances_within (o := o) hinv.running ho (by simp [atomicTests, hpc, hrecord])
      (by rw [hpc, objectStep, hrecord]) (AgreesOff.refl.goto _) rfl ?_
    rw [hself, hpc, ThreadPc.left, ThreadPc.left, length_chainCode, NotifyPc.left]
    have := two_depth_le chains t
    omega
  | @calling j b i npc hn hb hnotify =>
    have hlt := hb.lt
    have hok : atomicTests h s o = true := by simp [atomicTests, hpc]
    -- The called object still has its call ahead.
    have hrec : s.recovering b = true := by
      refine hinv.recovering_of_call hs hb (Nat.lt_of_not_le fun hle => ?_)
      have := hinv.done_of_passed hb hle
      omega
    cases hnotify with
    | enterFirst hpar =>
      refine advances_within (o := o) hinv.running ho hok
        (by rw [hpc, objectStep, playStep, if_pos hrec, hpar]) (AgreesOff.refl.goto _) rfl ?_
      rw [hself, hpc, ThreadPc.left, ThreadPc.left, NotifyPc.left, NotifyPc.left]
      omega
    | enter hp hpar =>
      refine advances_within (o := o) hinv.running ho hok
        (by rw [hpc, objectStep, playStep, if_pos hrec, hpar])
        ((AgreesOff.refl.setParentObject none).goto _) rfl ?_
      rw [hself, hpc, ThreadPc.left, ThreadPc.left, NotifyPc.left, NotifyPc.left]
      omega
    | readParent hp hpar => exact hread _ _ _ _ _ _ hn hb hp hpc
    | readLast hp hpar hwait =>
      refine advances_within (o := o) hinv.running ho hok (by rw [hpc, objectStep, playStep])
        (AgreesOff.refl.goto _) rfl ?_
      rw [hself, hpc, ThreadPc.left, ThreadPc.left, NotifyPc.left, NotifyPc.left]
      omega
    | @readCommit k p e hp hpar hwait =>
      by_cases hcommit : s.lastPlayed p + 1 = s.waitCommit b
      · refine advances_within (o := o) hinv.running ho hok
          (by rw [hpc, objectStep, playStep, if_pos hcommit]) (AgreesOff.refl.goto _) rfl ?_
        rw [hself, hpc, ThreadPc.left, ThreadPc.left, NotifyPc.left, NotifyPc.left]
        omega
      · refine advances_within (o := o) hinv.running ho hok
          (by rw [hpc, objectStep, playStep, if_neg hcommit]) (AgreesOff.refl.goto _) rfl ?_
        rw [hself, hpc, ThreadPc.left, ThreadPc.left, NotifyPc.left, NotifyPc.left]
        omega
    | pushFirst hpar hturn | push hp hpar hturn hready =>
      refine advances_within (o := o) hinv.running ho hok (by rw [hpc, objectStep, playStep])
        (((AgreesOff.refl.setParentObject _).apply _ _).goto _) rfl ?_
      rw [hself, hpc, ThreadPc.left, ThreadPc.left, NotifyPc.left, NotifyPc.left, List.length_cons]
      omega
  | @returning k b i hn hb hpar =>
    have hlt := hb.lt
    have hrec : s.recovering b = true := by
      refine hinv.recovering_of_call hs hb (Nat.lt_of_not_le fun hle => ?_)
      have := hinv.done_of_passed hb hle
      omega
    refine advances_within (o := o) hinv.running ho (by simp [atomicTests, hpc])
      (by rw [hpc, objectStep, playStep, if_pos hrec])
      (((AgreesOff.refl.setParentObject _).apply _ _).goto _) rfl ?_
    rw [hself, hpc, ThreadPc.left, ThreadPc.left, NotifyPc.left, List.length_cons]
    omega
  | returned hn hpar =>
    refine advances_within (o := o) hinv.running ho (by simp [atomicTests, hpc])
      (by rw [hpc, objectStep, playStep]) (AgreesOff.refl.goto _) rfl ?_
    rw [hself, hpc, ThreadPc.left, ThreadPc.left, NotifyPc.left]
    omega
  | advance hn => exact advances_next hinv.running ho hpc (hs.ids hcall).2

/-- The test in `notify` succeeds on an object that waits for the call. -/
theorem RecInv.advances_handshake (hinv : RecInv h chains s pos) (ho : o ∈ h.objects)
    {rest : List Instr} (hpc : s.pc o = .playing (.notify b i :: rest) (.readParent p))
    (hparent : s.waitParent b = some p) (hcommit : s.lastPlayed p + 1 = s.waitCommit b) :
    Advances h chains s := by
  set code : List Instr := .notify b i :: rest with hcode
  have hself : ∀ (s : RecoveryState) (pc : ThreadPc), (s.goto o pc).pc o = pc := fun _ _ =>
    update_self ..
  have hok : ∀ {s : RecoveryState} {npc : NotifyPc}, s.pc o = .playing code npc →
      atomicTests h s o = true := fun hpc => by simp [atomicTests, hpc]
  -- the three reads of `Notify` in a row, with nothing in between
  have h₁ : recoveryStep h s o = some (s.goto o (.playing code (.readLast p))) := by
    rw [recoveryStep_eq hinv.running ho, hpc, objectStep, hcode, playStep, if_pos hparent]
  have h₂ : recoveryStep h (s.goto o (.playing code (.readLast p))) o =
      some ((s.goto o (.playing code (.readLast p))).goto o
        (.playing code (.readCommit p (s.lastPlayed p)))) := by
    rw [recoveryStep_eq (s := s.goto o _) hinv.running ho, hself]
    rfl
  have h₃ : recoveryStep h ((s.goto o (.playing code (.readLast p))).goto o
        (.playing code (.readCommit p (s.lastPlayed p)))) o =
      some (((s.goto o (.playing code (.readLast p))).goto o
        (.playing code (.readCommit p (s.lastPlayed p)))).goto o (.playing code .push)) := by
    rw [recoveryStep_eq (s := (s.goto o _).goto o _) hinv.running ho, hself, objectStep, hcode,
      playStep]
    exact if_pos hcommit
  refine ⟨[o, o, o], _, ⟨hok hpc, fun _ h₁' => ?_⟩, ?_, remaining_lt (o := o)
    (((AgreesOff.refl.goto (.playing code (.readLast p))).goto
      (.playing code (.readCommit p (s.lastPlayed p)))).goto (.playing code .push)) ho ?_⟩
  · obtain rfl := Option.some.inj (h₁.symm.trans h₁')
    refine ⟨hok (hself _ _), fun _ h₂' => ?_⟩
    obtain rfl := Option.some.inj (h₂.symm.trans h₂')
    exact ⟨hok (hself _ _), fun _ _ => trivial⟩
  · rw [run, h₁, Option.bind_some, run, h₂, Option.bind_some, run, h₃]
    rfl
  · rw [RecoveryState.left, RecoveryState.left, hself, hpc, ThreadPc.left, ThreadPc.left,
      NotifyPc.left, NotifyPc.left]
    exact Nat.lt_succ_self _

/-! ## The first transaction that is not through -/

/-- Transaction `t` is the first that is not through. -/
structure FirstOpen (chains : List (List (ℕ × ℕ))) (s : RecoveryState) (t : ℕ) : Prop where
  isOpen : ∃ k o i, IsCall chains t k o i ∧ s.lastPlayed o < i
  first : ∀ {t' k o i}, IsCall chains t' k o i → t' < t → i ≤ s.lastPlayed o

theorem exists_firstOpen (hopen : ∃ t k o i, IsCall chains t k o i ∧ s.lastPlayed o < i) :
    ∃ t, FirstOpen chains s t := by
  classical
  refine ⟨Nat.find hopen, Nat.find_spec hopen, fun {t' k o i} hcall hlt => ?_⟩
  by_contra hnot
  exact Nat.find_min hopen hlt ⟨k, o, i, hcall, Nat.lt_of_not_le hnot⟩

/-- Its objects are at its calls, or through with them. -/
theorem FirstOpen.current (hs : Serialized h chains) (hfirst : FirstOpen chains s t)
    (hcall : IsCall chains t k o i) (hlt : s.lastPlayed o < i) : s.lastPlayed o + 1 = i := by
  by_contra hne
  obtain ⟨t', k', hcall'⟩ := hs.exists_call (o := o) (i := s.lastPlayed o + 1) (by omega)
    (by have := (hs.ids hcall).2; omega)
  rcases Nat.lt_trichotomy t' t with hlt' | rfl | hgt
  · have := hfirst.first hcall' hlt'
    omega
  · obtain rfl := hs.same hcall hcall'
    exact hne (isCall_unique_obj hcall hcall').2.symm
  · have := hs.mono hcall hcall' hgt
    omega

/-- No thread is between the reads of a test. -/
def Quiet (h : History) (s : RecoveryState) : Prop :=
  ∀ b ∈ h.objects, ∀ c, s.testing b c = false ∧ s.asserting b c = false

/-- The first transaction that is not through goes on. -/
theorem FirstOpen.advances (hs : Serialized h chains) (hinv : RecInv h chains s pos)
    (hfirst : FirstOpen chains s t) (hquiet : Quiet h s) : Advances h chains s := by
  obtain ⟨k₀, o₀, i₀, hcall₀, hlt₀⟩ := hfirst.isOpen
  have hdepth := hcall₀.lt
  obtain ⟨o, i, hhead⟩ : ∃ o i, IsCall chains t 0 o i :=
    ⟨_, _, List.getElem?_eq_getElem (show 0 < depth chains t by omega)⟩
  have hquiet' : ∀ c, ∀ b ∈ h.objects, s.testing b c = false := fun c b hb => (hquiet b hb c).1
  by_cases hpassed : i ≤ s.lastPlayed o
  · -- The transaction is played; the outermost call that is not through can see it.
    classical
    have hex : ∃ k o i, IsCall chains t k o i ∧ s.lastPlayed o < i := hfirst.isOpen
    obtain ⟨b, i', hb, hlt⟩ := Nat.find_spec hex
    have hmin : ∀ {k c f}, k < Nat.find hex → IsCall chains t k c f → f ≤ s.lastPlayed c :=
      fun hk hc => Nat.le_of_not_lt fun hlt => Nat.find_min hex hk ⟨_, _, hc, hlt⟩
    obtain rfl := hfirst.current hs hb hlt
    generalize Nat.find hex = k at hb hmin
    cases k with
    | zero =>
      obtain ⟨rfl, rfl⟩ := isCall_unique_obj hhead hb
      omega
    | succ k =>
      obtain ⟨p, e, hp⟩ := hb.parent
      exact hinv.advances_waiter hs hb hp (fun _ _ _ => hquiet' b)
        fun _ _ _ => hmin (Nat.lt_succ_self k) hp
  · obtain rfl := hfirst.current hs hhead (Nat.lt_of_not_le hpassed)
    refine hinv.advances_player hs hhead fun k b i p e rest hpos hb hp hpc => ?_
    -- The called object is at the call, and waits or is about to.
    have hlt := hb.lt
    have hahead : s.lastPlayed b < i := by
      refine Nat.lt_of_not_le fun hle => ?_
      have := hinv.done_of_passed hb hle
      omega
    obtain rfl := hfirst.current hs hb hahead
    have hcur := hinv.current hp (by omega) (by omega)
    by_cases hcheck : ∃ q f, s.pc b = .check q f
    · obtain ⟨q, f, hpcb⟩ := hcheck
      have hwaiter := hinv.waiter hs hb hp
      rw [hpcb] at hwaiter
      cases hwaiter with
      | check hparent hcommit =>
        exact hinv.advances_handshake (hs.mem hhead) hpc hparent (by rw [hcommit, hcur])
    · exact hinv.advances_waiter hs hb hp (fun _ _ _ => hquiet' b)
        fun q f hpcb => absurd ⟨q, f, hpcb⟩ hcheck

/-- A thread between the reads of a test goes on. -/
theorem RecInv.advances_busy (hs : Serialized h chains) (hinv : RecInv h chains s pos)
    (hbusy : ¬ Quiet h s) : Advances h chains s := by
  have hex : ∃ o c, s.testing o c = true ∨ s.asserting o c = true := by
    by_contra hnone
    exact hbusy fun b _ c => ⟨Bool.eq_false_iff.mpr fun htest => hnone ⟨b, c, .inl htest⟩,
      Bool.eq_false_iff.mpr fun hassert => hnone ⟨b, c, .inr hassert⟩⟩
  obtain ⟨o, c, hbusy | hbusy⟩ := hex
  · obtain ⟨i, rest, npc, hpc, hmid⟩ := testing_iff.mp hbusy
    cases hinv.thread o with
    | through _ hnext => rw [hpc] at hnext; cases hnext <;> contradiction
    | player hcall _ =>
      refine hinv.advances_player hs hcall fun k b i p e rest _ _ _ hpc' => ?_
      rw [hpc] at hpc'
      cases hpc'
      cases hmid
    | waiter _ _ hok => rw [hpc] at hok; cases hok
  · obtain ⟨e, hpc⟩ := asserting_iff.mp hbusy
    cases hinv.thread o with
    | through _ hnext => rw [hpc] at hnext; cases hnext <;> contradiction
    | player _ hok => rw [hpc] at hok; cases hok
    | waiter hcall hp _ =>
      refine hinv.advances_waiter hs hcall hp (fun q f hpc' => ?_) fun q f hpc' => ?_ <;>
        rw [hpc] at hpc' <;> cases hpc'

/-- **Something can always go on** until all threads have ended. -/
theorem RecInv.advances (hs : Serialized h chains) (hinv : RecInv h chains s pos)
    (ho : o ∈ h.objects) (hpc : s.pc o ≠ .ended) : Advances h chains s := by
  by_cases hquiet : Quiet h s
  · by_cases hopen : ∃ t k o i, IsCall chains t k o i ∧ s.lastPlayed o < i
    · obtain ⟨t, hfirst⟩ := exists_firstOpen hopen
      exact hfirst.advances hs hinv hquiet
    · -- Every thread is through with its log.
      cases hinv.thread o with
      | through hlast hnext =>
        replace hnext := hnext.resolve_right hpc
        have hnone : h.record o (s.lastPlayed o + 1) = none := by
          rw [← Option.not_isSome_iff_eq_none]
          intro hsome
          obtain ⟨t, k, hcall⟩ := hs.call hsome
          exact hopen ⟨t, k, o, _, hcall, Nat.lt_succ_self _⟩
        refine advances_within (o := o) hinv.running ho
          ((atomicTests_end hnext hnone).mpr fun b hb => (hquiet b hb o).2)
          (by rw [hnext, objectStep, hnone]) ((AgreesOff.setRecovering false).goto .ended) rfl ?_
        rw [hnext, RecoveryState.goto]
        simp [ThreadPc.left]
      | player hcall _ => exact absurd ⟨_, _, o, _, hcall, Nat.lt_succ_self _⟩ hopen
      | waiter hcall _ _ => exact absurd ⟨_, _, o, _, hcall, Nat.lt_succ_self _⟩ hopen
  · exact hinv.advances_busy hs hquiet

/-! ## The end of recovery -/

/-- When all threads have ended, all operations are done. -/
theorem RecInv.complete (hs : Serialized h chains) (hinv : RecInv h chains s pos)
    (hended : ∀ o ∈ h.objects, s.pc o = .ended) : s.Complete h := by
  refine ⟨hended, fun o => ?_⟩
  cases hinv.thread o with
  | through hlast _ => rw [hinv.opsAll hlast, hlast]
  | player hcall hok =>
    rw [hended o (hs.mem hcall)] at hok
    cases hok
  | waiter hcall _ hok =>
    rw [hended o (hs.mem hcall)] at hok
    cases hok

/-- Some schedule ends recovery. -/
theorem RecInv.exists_complete (hs : Serialized h chains) (hinv : RecInv h chains s pos) :
    ∃ as s', Guarded (recoveryStep h) (fun s o => atomicTests h s o = true) s as ∧
      run (recoveryStep h) s as = some s' ∧ s'.Complete h := by
  induction hn : remaining h chains s using Nat.strong_induction_on generalizing s pos with
  | _ n ih =>
    subst hn
    by_cases hended : ∀ o ∈ h.objects, s.pc o = .ended
    · exact ⟨[], s, trivial, rfl, hinv.complete hs hended⟩
    · obtain ⟨o, ho, hpc⟩ : ∃ o ∈ h.objects, s.pc o ≠ .ended := by
        simpa only [not_forall, exists_prop] using hended
      obtain ⟨as, s₁, hok, hrun, hlt⟩ := hinv.advances hs ho hpc
      obtain ⟨pos₁, hinv₁⟩ := hinv.of_run hs hok hrun
      obtain ⟨bs, s₂, hok', hrun', hcomplete⟩ := ih _ hlt hinv₁ rfl
      refine ⟨as ++ bs, s₂, guarded_append.mpr ⟨hok, fun s' hs' => ?_⟩, ?_, hcomplete⟩
      · obtain rfl := Option.some.inj (hrun.symm.trans hs')
        exact hok'
      · rw [run_append, hrun]
        exact hrun'

/-- **Recovery of a history of chains.** All transactions are chains of nested calls on different
objects, and the logs agree with one order of the transactions. In a run in which no thread starts to
wait, and none ends, between the reads of a test on it, every object sees its operations in the order
of their commit ids, each at most once and all of them when the threads have ended; no assertion
fails, and recovery can always be ended. -/
theorem chains_recover_in_order (hcommitted : h.Committed) (hchained : h.Chained chains)
    (hserial : h.Serial) {as : List ℕ}
    (hok : Guarded (recoveryStep h) (fun s o => atomicTests h s o = true) .start as)
    (hrun : run (recoveryStep h) .start as = some s) :
    s.InOrder h ∧ s.aborted = false ∧ ((∀ o ∈ h.objects, s.pc o = .ended) → s.Complete h) ∧
      ∃ bs s', Guarded (recoveryStep h) (fun s o => atomicTests h s o = true) s bs ∧
        run (recoveryStep h) s bs = some s' ∧ s'.Complete h := by
  have hs := hchained.serialized hcommitted hserial
  obtain ⟨pos, hinv⟩ := (RecInv.start hs).of_run hs hok hrun
  exact ⟨hinv.inOrder hs, hinv.running, hinv.complete hs, hinv.exists_complete hs⟩

end

/-- Object 0 calls object 1, which calls object 2; then object 1 calls object 2. -/
def chainHistory : History :=
  ⟨[0, 1, 2], [.node 0 1 [.node 1 1 [.node 2 1 []]], .node 1 2 [.node 2 2 []]]⟩

/-- Objects 1 and 2 wait; object 0 calls object 1, and object 1 waits on. -/
def chainSchedule : List ℕ :=
  [List.replicate 3 1, List.replicate 3 2, List.replicate 8 0, List.replicate 2 1].flatten

/-- Object 1 has started its nested call; from there recovery can be completed. -/
theorem chains_recover_in_order_started :
    ∃ s, run (recoveryStep chainHistory) .start chainSchedule = some s ∧
      s.ops 1 = [.started 1] ∧ s.InOrder chainHistory ∧
      ∃ bs s', run (recoveryStep chainHistory) s bs = some s' ∧ s'.Complete chainHistory := by
  have hany : (run (recoveryStep chainHistory) .start chainSchedule).any
      (fun s => s.ops 1 = [.started 1]) = true := by
    decide +kernel
  obtain ⟨s, hrun, hops⟩ := run_of_any hany
  have hchained : chainHistory.Chained [[(0, 1), (1, 1), (2, 1)], [(1, 2), (2, 2)]] :=
    ⟨.cons (.nest (.nest .leaf)) (.cons (.nest .leaf) .nil), by decide⟩
  have hserial : chainHistory.Serial := by
    intro o
    match o with
    | 0 | 1 | 2 => rfl
    | _ + 3 => rfl
  obtain ⟨horder, -, -, bs, s', -, hrun', hcomplete⟩ := chains_recover_in_order (by decide +kernel)
    hchained hserial (guarded_of_checkGuard (by decide +kernel)) hrun
  exact ⟨s, hrun, of_decide_eq_true hops, horder, bs, s', hrun', hcomplete⟩

end Pronto
