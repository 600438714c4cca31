import Pronto.Recovery.Invariant

/-!
# The steps of recovery

A step of a thread changes only the variables of its own object, apart from the operations that it
does to the objects that it calls. Most steps move neither a commit id nor the position in a
transaction (`RecInv.localStep`); what is left are the calls and returns of a method that is played
(`RecInv.instr`) and the step to the next record (`RecInv.advance`).
-/

namespace Pronto

open Function Runs

section

variable {h : History} {chains : List (List (ℕ × ℕ))} {s s' : RecoveryState} {pos : ℕ → ℕ}
  {t k o b i j p e : ℕ} {npc : NotifyPc}

/-- The two states have the same variables of every object but `o`. -/
structure AgreesOff (o : ℕ) (s s' : RecoveryState) : Prop where
  lastPlayed : ∀ {b}, b ≠ o → s'.lastPlayed b = s.lastPlayed b
  waitParent : ∀ {b}, b ≠ o → s'.waitParent b = s.waitParent b
  waitCommit : ∀ {b}, b ≠ o → s'.waitCommit b = s.waitCommit b
  recovering : ∀ {b}, b ≠ o → s'.recovering b = s.recovering b
  parentObject : ∀ {b}, b ≠ o → s'.parentObject b = s.parentObject b
  pc : ∀ {b}, b ≠ o → s'.pc b = s.pc b

namespace AgreesOff

theorem refl : AgreesOff o s s :=
  ⟨fun _ => rfl, fun _ => rfl, fun _ => rfl, fun _ => rfl, fun _ => rfl, fun _ => rfl⟩

theorem goto (hoff : AgreesOff o s s') (pc : ThreadPc) : AgreesOff o s (s'.goto o pc) :=
  { hoff with pc := fun hb => (update_of_ne hb _ _).trans (hoff.pc hb) }

theorem setParentObject (hoff : AgreesOff o s s') (q : Option ℕ) :
    AgreesOff o s (s'.setParentObject o q) :=
  { hoff with
    parentObject := fun hb => (update_of_ne hb _ _).trans (hoff.parentObject hb) }

theorem setRecovering (r : Bool) :
    AgreesOff o s { s with recovering := Function.update s.recovering o r } :=
  { refl with recovering := fun hb => update_of_ne hb _ _ }

theorem setWaitParent (q : Option ℕ) :
    AgreesOff o s { s with waitParent := Function.update s.waitParent o q } :=
  { refl with waitParent := fun hb => update_of_ne hb _ _ }

theorem setWaitCommit (n : ℕ) :
    AgreesOff o s { s with waitCommit := Function.update s.waitCommit o n } :=
  { refl with waitCommit := fun hb => update_of_ne hb _ _ }

theorem setLastPlayed (n : ℕ) :
    AgreesOff o s { s with lastPlayed := Function.update s.lastPlayed o n } :=
  { refl with lastPlayed := fun hb => update_of_ne hb _ _ }

theorem apply (hoff : AgreesOff o s s') (b : ℕ) (op : Op) : AgreesOff o s (s'.apply b op) :=
  { hoff with }

theorem readyFor (hoff : AgreesOff o s s') (hb : b ≠ o) (hready : ReadyFor s b e) :
    ReadyFor s' b e :=
  ⟨(hoff.waitCommit hb).trans hready.1, (congrArg ThreadPc.waiting (hoff.pc hb)).trans hready.2⟩

end AgreesOff

/-- Between the reads of the test in `notify`. -/
def NotifyPc.midTest : NotifyPc → Bool
  | .readLast _ | .readCommit _ _ => true
  | _ => false

/-- What a thread in `notify` relies on when another thread moves. -/
theorem NotifyOk.frame (hok : NotifyOk chains s t o b i j npc)
    (hpar : s'.parentObject o = s.parentObject o)
    (hwait : npc.midTest = true → s'.waitParent b = s.waitParent b)
    (hlast : ∀ k p e, j = k + 1 → IsCall chains t k p e → s'.lastPlayed p = s.lastPlayed p)
    (hturn : s.lastPlayed b + 1 = i → npc = .push → s'.lastPlayed b = s.lastPlayed b)
    (hready : ∀ k p e, j = k + 1 → IsCall chains t k p e → s.lastPlayed b + 1 = i →
      ReadyFor s b e → ReadyFor s' b e) : NotifyOk chains s' t o b i j npc := by
  cases hok with
  | enterFirst h => exact .enterFirst (hpar.trans h)
  | enter hp h => exact .enter hp (hpar.trans h)
  | readParent hp h => exact .readParent hp (hpar.trans h)
  | readLast hp h hw => exact .readLast hp (hpar.trans h) ((hwait rfl).trans hw)
  | @readCommit k p e hp h hw =>
    rw [← hlast k p e rfl hp]
    exact .readCommit hp (hpar.trans h) ((hwait rfl).trans hw)
  | pushFirst h ht => exact .pushFirst (hpar.trans h) (by rw [hturn ht rfl, ht])
  | @push k p e hp h ht hr =>
    exact .push hp (hpar.trans h) (by rw [hturn ht rfl, ht]) (hready k p e rfl hp ht hr)

/-- The test in terms of the place of the thread. -/
theorem testing_iff : s.testing o b = true ↔
    ∃ i rest npc, s.pc o = .playing (.notify b i :: rest) npc ∧ npc.midTest = true := by
  unfold RecoveryState.testing
  constructor
  · intro htest
    split at htest
    · rename_i hpc
      obtain rfl := of_decide_eq_true htest
      exact ⟨_, _, _, hpc, rfl⟩
    · rename_i hpc
      obtain rfl := of_decide_eq_true htest
      exact ⟨_, _, _, hpc, rfl⟩
    · cases htest
  · rintro ⟨i, rest, npc, hpc, hmid⟩
    rw [hpc]
    cases npc with
    | enter | readParent _ | push => cases hmid
    | readLast _ | readCommit _ _ => exact decide_eq_true rfl

theorem asserting_iff : s.asserting o p = true ↔ ∃ e, s.pc o = .assertion p e := by
  unfold RecoveryState.asserting
  constructor
  · intro hassert
    split at hassert
    · rename_i hpc
      obtain rfl := of_decide_eq_true hassert
      exact ⟨_, hpc⟩
    · cases hassert
  · rintro ⟨e, hpc⟩
    rw [hpc]
    exact decide_eq_true rfl

/-- The thread of another object keeps its place in a step of `o` that leaves the commit ids. -/
theorem ThreadOk.frame (hinv : RecInv h chains s pos) (hoff : AgreesOff o s s')
    (hlast : s'.lastPlayed = s.lastPlayed)
    (htest : ∀ b, s.testing b o = true → s'.waitParent o = s.waitParent o)
    (hassert : ∀ b, s.asserting b o = true → s'.recovering o = s.recovering o)
    (hready : ∀ {t k p e}, IsCall chains t (k + 1) o (s.lastPlayed o + 1) → IsCall chains t k p e →
      s.lastPlayed p < e → ReadyFor s o e → ReadyFor s' o e)
    (hb : b ≠ o) : ThreadOk h chains s' pos b (s'.pc b) := by
  rw [hoff.pc hb]
  cases hinv.thread b with
  | through hl hpc => exact .through (by rw [hlast, hl]) hpc
  | @player t _ hcall hok =>
    refine .player (t := t) (by rwa [hlast]) ?_
    generalize hpc : s.pc b = pc at hok
    cases hok with
    | next hn => exact .next hn
    | @calling j c i npc hn hc hnotify =>
      refine .calling hn hc (hnotify.frame (hoff.parentObject hb) (fun hmid => ?_)
        (fun _ p _ _ _ => congrFun hlast p) (fun _ _ => congrFun hlast c) fun k p e hj hp hturn hr => ?_)
      · by_cases hco : c = o
        · subst hco
          exact htest b (testing_iff.mpr ⟨_, _, _, hpc, hmid⟩)
        · exact hoff.waitParent hco
      · by_cases hco : c = o
        · subst hj hco hturn
          have hcur := hinv.current hp (by omega) (by have := hc.lt; omega)
          exact hready hc hp (by omega) hr
        · exact hoff.readyFor hco hr
    | returning hn hc hpar => exact .returning hn hc fun hk => (hoff.parentObject hb).trans (hpar hk)
    | returned hn hpar => exact .returned hn ((hoff.parentObject hb).trans hpar)
    | advance hn => exact .advance hn
  | @waiter t k p e _ hcall hp hok =>
    refine .waiter (t := t) (k := k) (by rwa [hlast]) hp ?_
    generalize hpc : s.pc b = pc at hok
    cases hok with
    | next hn => exact .next hn
    | setParent hn => exact .setParent hn
    | setCommit hw hc =>
      exact .setCommit ((hoff.waitParent hb).trans hw) fun hn => (hoff.waitCommit hb).trans (hc hn)
    | check hw hc => exact .check ((hoff.waitParent hb).trans hw) ((hoff.waitCommit hb).trans hc)
    | assertion hw hc hrec =>
      refine .assertion ((hoff.waitParent hb).trans hw) ((hoff.waitCommit hb).trans hc) ?_
      by_cases hpo : p = o
      · subst hpo
        exact (hassert b (asserting_iff.mpr ⟨_, hpc⟩)).trans hrec
      · exact (hoff.recovering hpo).trans hrec
    | advance hpassed => exact .advance (by rwa [hlast])

/-- A step of `o` that moves neither a commit id nor the position in a transaction. -/
theorem RecInv.localStep (hinv : RecInv h chains s pos) (hoff : AgreesOff o s s')
    (hlast : s'.lastPlayed = s.lastPlayed) (hops : s'.ops = s.ops)
    (hrun : s'.aborted = s.aborted)
    (htest : ∀ b, s.testing b o = true → s'.waitParent o = s.waitParent o)
    (hassert : ∀ b, s.asserting b o = true → s'.recovering o = s.recovering o)
    (hready : ∀ {t k p e}, IsCall chains t (k + 1) o (s.lastPlayed o + 1) → IsCall chains t k p e →
      s.lastPlayed p < e → ReadyFor s o e → ReadyFor s' o e)
    (hthread : ThreadOk h chains s' pos o (s'.pc o))
    (hrec : s'.recovering o = true ↔ s'.pc o ≠ .ended)
    (hstale : ∀ {p}, (s'.pc o).waiting = false → s'.waitParent o = some p →
      s'.waitCommit o ≤ s.lastPlayed p)
    (hpar : (s'.pc o).inPlay = false → s'.parentObject o = none) : RecInv h chains s' pos where
  running := hrun.trans hinv.running
  thread b := by
    by_cases hb : b = o
    · exact hb ▸ hthread
    · exact ThreadOk.frame hinv hoff hlast htest hassert hready hb
  recovering b := by
    by_cases hb : b = o
    · exact hb ▸ hrec
    · rw [hoff.recovering hb, hoff.pc hb]
      exact hinv.recovering b
  stale {b} p := by
    rw [hlast]
    by_cases hb : b = o
    · exact hb ▸ hstale
    · rw [hoff.pc hb, hoff.waitParent hb, hoff.waitCommit hb]
      exact hinv.stale
  parentObject {b} := by
    by_cases hb : b = o
    · exact hb ▸ hpar
    · rw [hoff.pc hb, hoff.parentObject hb]
      exact hinv.parentObject
  later := by
    rw [hlast]
    exact hinv.later
  played := by
    rw [hlast]
    exact hinv.played
  parent := by
    rw [hlast]
    exact hinv.parent
  ops := by
    rw [hlast, hops]
    exact hinv.ops
  opsAll := by
    rw [hlast, hops]
    exact hinv.opsAll

/-! ## Calls and returns -/

/-- The threads that do not play transaction `t` keep their places when its next instruction is
done. -/
theorem ThreadOk.next_pos {i₀ : ℕ} {pc : ThreadPc} (hok : ThreadOk h chains s pos b pc)
    (hpc : s.pc b = pc) (hhead : IsCall chains t 0 o i₀) (hb : b ≠ o)
    (hready : ∀ {k p e}, pos t = k + 1 → IsCall chains t (k + 1) b (s.lastPlayed b + 1) →
      IsCall chains t k p e → ReadyFor s b e) :
    ThreadOk h chains s (Function.update pos t (pos t + 1)) b pc := by
  cases hok with
  | through hl hpc => exact .through hl hpc
  | @player t' _ hcall hok =>
    have hne : t' ≠ t := by
      rintro rfl
      exact hb (isCall_unique_obj hcall hhead).1
    exact .player hcall (by rwa [update_of_ne hne])
  | @waiter t' k p e _ hcall hp hok =>
    refine .waiter hcall hp ?_
    by_cases hne : t' = t
    · subst hne
      rw [update_self]
      -- A thread that has yet to wait is not the one that is called.
      have hle : pos t' ≤ k + 1 → pc.waiting = false → pos t' + 1 ≤ k + 1 := by
        intro hn hwaiting
        have hne : pos t' ≠ k + 1 := by
          intro heq
          have := (hready heq hcall hp).2
          rw [hpc, hwaiting] at this
          cases this
        omega
      cases hok with
      | next hn => exact .next (hle hn rfl)
      | setParent hn => exact .setParent (hle hn rfl)
      | setCommit hw hc =>
        refine .setCommit hw fun hn => ?_
        by_cases heq : pos t' = k + 1
        · exact (hready heq hcall hp).1
        · exact hc (by omega)
      | check hw hc => exact .check hw hc
      | assertion hw hc hrec => exact .assertion hw hc hrec
      | advance hpassed => exact .advance hpassed
    · rwa [update_of_ne hne]

theorem callOps_succ {n m id : ℕ} (hstart : k ≠ m) (hfinish : m + k + 1 ≠ 2 * n) :
    callOps n k (m + 1) id = callOps n k m id := by
  unfold callOps
  congr 1
  · exact if_congr (by omega) rfl rfl
  · exact if_congr (by omega) rfl rfl

/-- The thread of `o`, which plays transaction `t`, does the instruction that starts or ends the
`k`-th call. -/
theorem RecInv.instr (hs : Serialized h chains) (hinv : RecInv h chains s pos)
    (hhead : IsCall chains t 0 o (s.lastPlayed o + 1)) (hpc : (s.pc o).inPlay = true)
    (hpos : pos t < 2 * depth chains t)
    (hcur : ∀ {c i}, IsCall chains t (pos t) c i → s.lastPlayed c + 1 = i)
    (hready : ∀ {k c i p e}, pos t = k + 1 → IsCall chains t (k + 1) c i → IsCall chains t k p e →
      ReadyFor s c e)
    (hb : IsCall chains t k b (s.lastPlayed b + 1)) (hk : k = pos t ∨ pos t + k + 1 = 2 * depth chains t)
    {op : Op} (hops : callOps (depth chains t) k (pos t + 1) (s.lastPlayed b + 1) =
      callOps (depth chains t) k (pos t) (s.lastPlayed b + 1) ++ [op])
    {q : Option ℕ} {rest : List Instr}
    (hok : PlayerOk chains (((s.setParentObject o q).apply b op).goto o (.playing rest .enter))
      (pos t + 1) t o (.playing rest .enter)) :
    RecInv h chains (((s.setParentObject o q).apply b op).goto o (.playing rest .enter))
      (Function.update pos t (pos t + 1)) := by
  have hnot : (s.pc o).waiting = false := by
    generalize s.pc o = pc at hpc
    cases pc <;> first | rfl | cases hpc
  have hoff : AgreesOff o s (((s.setParentObject o q).apply b op).goto o (.playing rest .enter)) :=
    ((AgreesOff.refl.setParentObject q).apply b op).goto _
  have hselfPc : (((s.setParentObject o q).apply b op).goto o (.playing rest .enter)).pc o =
    .playing rest .enter := update_self ..
  constructor
  case running => exact hinv.running
  case thread =>
    intro c
    by_cases hc : c = o
    · subst hc
      rw [hselfPc]
      refine .player hhead ?_
      rwa [update_self]
    · refine ThreadOk.next_pos (o := o) ?_ rfl hhead hc fun heq hcall hp => ?_
      · -- `o` is playing and not waiting, so nobody has found it ready
        refine ThreadOk.frame hinv hoff rfl (fun _ _ => rfl) (fun _ _ => rfl) (fun _ _ _ hr => ?_) hc
        rw [ReadyFor, hnot] at hr
        cases hr.2
      · exact hoff.readyFor hc (hready heq hcall hp)
  case recovering =>
    intro c
    by_cases hc : c = o
    · subst hc
      rw [hselfPc]
      refine iff_of_true ((hinv.recovering c).mpr fun hended => ?_) nofun
      rw [hended] at hpc
      cases hpc
    · rw [hoff.pc hc]
      exact hinv.recovering c
  case stale =>
    intro c p hw
    by_cases hc : c = o
    · subst hc
      exact hinv.stale hnot
    · rw [hoff.pc hc] at hw
      exact hinv.stale hw
  case parentObject =>
    intro c hplay
    by_cases hc : c = o
    · subst hc
      rw [hselfPc] at hplay
      cases hplay
    · rw [hoff.pc hc] at hplay
      rw [hoff.parentObject hc]
      exact hinv.parentObject hplay
  case later =>
    intro t' k' c i hcall hlt
    have hle := hinv.later hcall hlt
    by_cases ht : t' = t
    · subst ht
      rw [update_self]
      -- the call at this position is the next one of its object, and so not a later one
      have hne : pos t' ≠ k' := by
        rintro rfl
        have := hcur hcall
        exact absurd hlt (by simp only [RecoveryState.goto, RecoveryState.apply,
          RecoveryState.setParentObject]; omega)
      omega
    · rwa [update_of_ne ht]
  case played =>
    intro t' c i hcall hle
    have hdone := hinv.played hcall hle
    have ht : t' ≠ t := by
      rintro rfl
      omega
    rwa [update_of_ne ht]
  case parent => exact hinv.parent
  case ops =>
    intro t' k' c hcall
    show Function.update s.ops b (s.ops b ++ [op]) c = _
    -- only the object of the call gets an operation
    by_cases hcb : c = b
    · subst hcb
      obtain ⟨rfl, rfl⟩ := hs.unique hb hcall
      rw [update_self, update_self, hinv.ops hb, List.append_assoc]
      exact congrArg _ hops.symm
    · rw [update_of_ne hcb, hinv.ops hcall]
      by_cases ht : t' = t
      · subst ht
        rw [update_self]
        have hkk : k' ≠ k := by
          rintro rfl
          exact hcb (isCall_unique_obj hcall hb).1
        have := hcall.lt
        have := hb.lt
        exact congrArg _ (callOps_succ (by omega) (by omega)).symm
      · rw [update_of_ne ht]
        rfl
  case opsAll =>
    intro c hlast
    show Function.update s.ops b (s.ops b ++ [op]) c = _
    have hcb : c ≠ b := by
      rintro rfl
      have := (hs.ids hb).2
      have : s.lastPlayed c = (h.ids c).length := hlast
      omega
    rw [update_of_ne hcb]
    exact hinv.opsAll hlast

/-! ## The next record -/

theorem opsUpTo_succ (n : ℕ) : opsUpTo (n + 1) = opsUpTo n ++ [.started (n + 1), .finished (n + 1)] := by
  rw [opsUpTo, List.range'_1_concat, List.flatMap_append, Nat.add_comm 1 n]
  rfl

theorem callOps_none {n m id : ℕ} (hm : m ≤ k) (hk : k < n) : callOps n k m id = [] := by
  rw [callOps, if_neg (by omega), if_neg (by omega)]
  rfl

theorem callOps_all {n id : ℕ} (hk : k < n) :
    callOps n k (2 * n) id = [.started id, .finished id] := by
  rw [callOps, if_pos (by omega), if_pos (by omega)]
  rfl

/-- A thread at its next record. -/
theorem ThreadOk.next (hs : Serialized h chains) (hle : s.lastPlayed o ≤ (h.ids o).length)
    (hlater : ∀ {t k}, IsCall chains t k o (s.lastPlayed o + 1) → pos t ≤ k) :
    ThreadOk h chains s pos o .next := by
  rcases Nat.lt_or_eq_of_le hle with hlt | heq
  · obtain ⟨t, k, hcall⟩ := hs.exists_call (Nat.succ_pos _) hlt
    have hpos := hlater hcall
    cases k with
    | zero => exact .player hcall (.next (by omega))
    | succ k =>
      obtain ⟨p, e, hp⟩ := hcall.parent
      exact .waiter hcall hp (.next hpos)
  · exact .through heq (.inl rfl)

/-- The threads of the other objects keep their places when `o`, whose transaction is through, goes
to the next record. -/
theorem ThreadOk.frame_advance (hs : Serialized h chains) (hinv : RecInv h chains s pos)
    (hcall : IsCall chains t k o (s.lastPlayed o + 1)) (hdone : pos t = 2 * depth chains t)
    (hoff : AgreesOff o s s') (hlast : ∀ c, s.lastPlayed c ≤ s'.lastPlayed c)
    (hwait : s'.waitParent = s.waitParent) (hrec : s'.recovering = s.recovering)
    (hb : b ≠ o) :
    ThreadOk h chains s' pos b (s'.pc b) := by
  rw [hoff.pc hb]
  have hlastb := hoff.lastPlayed hb
  cases hinv.thread b with
  | through hl hpc => exact .through (by rw [hlastb, hl]) hpc
  | @player t' _ hcall' hok =>
    refine .player (t := t') (by rwa [hlastb]) ?_
    generalize hpc : s.pc b = pc at hok
    cases hok with
    | next hn => exact .next hn
    | @calling j c i npc hn hc hnotify =>
      have hlt := hc.lt
      -- The object of a call that is under way is not through with it.
      have hother : ∀ {k' c' i'}, IsCall chains t' k' c' i' → s.lastPlayed c' + 1 = i' → c' ≠ o := by
        rintro k' c' i' hc' rfl rfl
        obtain ⟨rfl, -⟩ := hs.unique hcall hc'
        omega
      refine .calling hn hc (hnotify.frame (hoff.parentObject hb) (fun _ => congrFun hwait c)
        (fun k p e hj hp => ?_) (fun hturn _ => hoff.lastPlayed (hother hc hturn))
        fun k p e hj hp hturn hr => hoff.readyFor (hother hc hturn) hr)
      exact hoff.lastPlayed (hother hp (hinv.current hp (by omega) (by omega)))
    | returning hn hc hpar => exact .returning hn hc fun hk => (hoff.parentObject hb).trans (hpar hk)
    | returned hn hpar => exact .returned hn ((hoff.parentObject hb).trans hpar)
    | advance hn => exact .advance hn
  | @waiter t' k' p e _ hcall' hp hok =>
    refine .waiter (t := t') (k := k') (by rwa [hlastb]) hp ?_
    generalize hpc : s.pc b = pc at hok
    cases hok with
    | next hn => exact .next hn
    | setParent hn => exact .setParent hn
    | setCommit hw hc =>
      exact .setCommit ((hoff.waitParent hb).trans hw) fun hn => (hoff.waitCommit hb).trans (hc hn)
    | check hw hc => exact .check ((hoff.waitParent hb).trans hw) ((hoff.waitCommit hb).trans hc)
    | assertion hw hc hr =>
      exact .assertion ((hoff.waitParent hb).trans hw) ((hoff.waitCommit hb).trans hc)
        ((congrFun hrec p).trans hr)
    | advance hpassed => exact .advance (hpassed.trans (hlast p))

/-- The thread of `o`, whose transaction is through, goes to the next record. -/
theorem RecInv.advance (hs : Serialized h chains) (hinv : RecInv h chains s pos)
    (hcall : IsCall chains t k o (s.lastPlayed o + 1)) (hdone : pos t = 2 * depth chains t)
    (hparent : ∀ {k' p e}, k = k' + 1 → IsCall chains t k' p e → e ≤ s.lastPlayed p)
    (hpc : s.pc o = .advance) :
    RecInv h chains
      ({ s with lastPlayed := Function.update s.lastPlayed o (s.lastPlayed o + 1) }.goto o .next)
      pos := by
  generalize hs' : RecoveryState.goto { s with
    lastPlayed := Function.update s.lastPlayed o (s.lastPlayed o + 1) } o .next = s'
  have hoff : AgreesOff o s s' := hs' ▸ (AgreesOff.setLastPlayed _).goto _
  have hself : s'.lastPlayed o = s.lastPlayed o + 1 := by
    rw [← hs']
    exact update_self ..
  have hselfPc : s'.pc o = .next := by
    rw [← hs']
    exact update_self ..
  have hmono : ∀ c, s.lastPlayed c ≤ s'.lastPlayed c := by
    intro c
    by_cases hc : c = o
    · subst hc
      omega
    · rw [hoff.lastPlayed hc]
  have hwaitParent : s'.waitParent = s.waitParent := by rw [← hs']; rfl
  have hwaitCommit : s'.waitCommit = s.waitCommit := by rw [← hs']; rfl
  have hrecovering : s'.recovering = s.recovering := by rw [← hs']; rfl
  have hparentObject : s'.parentObject = s.parentObject := by rw [← hs']; rfl
  have hops : s'.ops = s.ops := by rw [← hs']; rfl
  -- A call that the advance reaches has not begun.
  have hreach : ∀ {t' k'}, IsCall chains t' k' o (s'.lastPlayed o + 1) → pos t' ≤ k' :=
    fun hcall' => hinv.later hcall' (by omega)
  have hopsO : s'.ops o = opsUpTo (s'.lastPlayed o) := by
    rw [hops, hinv.ops hcall, hdone, callOps_all hcall.lt, hself, opsUpTo_succ]
  constructor
  case running => exact hs' ▸ hinv.running
  case thread =>
    intro c
    by_cases hc : c = o
    · subst hc
      rw [hselfPc]
      exact .next hs (hself ▸ (hs.ids hcall).2) hreach
    · exact .frame_advance hs hinv hcall hdone hoff hmono hwaitParent hrecovering hc
  case recovering =>
    intro c
    rw [hrecovering, hinv.recovering]
    by_cases hc : c = o
    · subst hc
      rw [hselfPc, hpc]
      exact iff_of_true nofun nofun
    · rw [hoff.pc hc]
  case stale =>
    intro c p hw hp
    have hnot : (s.pc c).waiting = false := by
      by_cases hc : c = o
      · subst hc
        rw [hpc]
        rfl
      · rwa [hoff.pc hc] at hw
    rw [hwaitParent] at hp
    rw [hwaitCommit]
    exact (hinv.stale hnot hp).trans (hmono p)
  case parentObject =>
    intro c hplay
    rw [hparentObject]
    refine hinv.parentObject ?_
    by_cases hc : c = o
    · subst hc
      rw [hpc]
      rfl
    · rwa [hoff.pc hc] at hplay
  case later =>
    intro t' k' c i hcall' hlt
    have := hmono c
    exact hinv.later hcall' (by omega)
  case played =>
    intro t' c i hcall' hle
    by_cases hold : i ≤ s.lastPlayed c
    · exact hinv.played hcall' hold
    · obtain rfl : c = o := by
        by_contra hc
        rw [hoff.lastPlayed hc] at hle
        exact hold hle
      obtain rfl : i = s.lastPlayed c + 1 := by omega
      obtain ⟨rfl, -⟩ := hs.unique hcall hcall'
      exact hdone
  case parent =>
    intro t' k' c i p e hcall' hp hle
    refine le_trans ?_ (hmono p)
    by_cases hold : i ≤ s.lastPlayed c
    · exact hinv.parent hcall' hp hold
    · obtain rfl : c = o := by
        by_contra hc
        rw [hoff.lastPlayed hc] at hle
        exact hold hle
      obtain rfl : i = s.lastPlayed c + 1 := by omega
      obtain ⟨rfl, hk⟩ := hs.unique hcall hcall'
      exact hparent hk hp
  case ops =>
    intro t' k' c hcall'
    by_cases hc : c = o
    · subst hc
      rw [hopsO, callOps_none (hreach hcall') hcall'.lt, List.append_nil]
    · rw [hoff.lastPlayed hc] at hcall' ⊢
      rw [hops]
      exact hinv.ops hcall'
  case opsAll =>
    intro c hlast
    by_cases hc : c = o
    · subst hc
      exact hopsO
    · rw [hoff.lastPlayed hc] at hlast ⊢
      rw [hops]
      exact hinv.opsAll hlast

end

end Pronto
