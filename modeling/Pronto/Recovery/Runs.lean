import Pronto.Recovery.Steps

/-!
# Every step of recovery keeps the invariant

The three kinds of threads in turn: one that is through with its log, one that plays a transaction,
and one that waits in a transaction.
-/

namespace Pronto

open Function Runs

section

variable {h : History} {chains : List (List (ℕ × ℕ))} {s s' : RecoveryState} {pos : ℕ → ℕ}
  {t k o b i j n p e : ℕ} {npc : NotifyPc}

/-! ## The code of a chain -/

theorem length_chainCode : (chainCode (chainAt chains t)).length = 2 * depth chains t := by
  rw [chainCode, List.length_append, List.length_map, List.length_map, List.length_reverse, depth]
  omega

theorem drop_chainCode_notify (hc : IsCall chains t j b i) :
    (chainCode (chainAt chains t)).drop j =
      .notify b i :: (chainCode (chainAt chains t)).drop (j + 1) := by
  have hlt := hc.lt
  have hget : (chainCode (chainAt chains t))[j]? = some (.notify b i) := by
    rw [chainCode, List.getElem?_append_left (by rwa [List.length_map]), List.getElem?_map, hc]
    rfl
  obtain ⟨hj, heq⟩ := List.getElem?_eq_some_iff.mp hget
  rw [List.drop_eq_getElem_cons hj, heq]

/-- The second half: the calls end in the opposite order. -/
theorem drop_chainCode_wait (hc : IsCall chains t k b i) (hn : n + k + 1 = 2 * depth chains t) :
    (chainCode (chainAt chains t)).drop n =
      .wait b i :: (chainCode (chainAt chains t)).drop (n + 1) := by
  have hlt := hc.lt
  have hdepth : (chainAt chains t).length = depth chains t := rfl
  have hget : (chainCode (chainAt chains t))[n]? = some (.wait b i) := by
    rw [chainCode, List.getElem?_append_right (by rw [List.length_map]; omega), List.getElem?_map,
      List.getElem?_reverse (by rw [List.length_map]; omega), List.length_map]
    have hidx : (chainAt chains t).length - 1 - (n - (chainAt chains t).length) = k := by omega
    rw [hidx, hc]
    rfl
  obtain ⟨hj, heq⟩ := List.getElem?_eq_some_iff.mp hget
  rw [List.drop_eq_getElem_cons hj, heq]

/-- A thread between two instructions of its transaction. -/
theorem PlayerOk.enter (hn : n ≤ 2 * depth chains t) (hfirst : n = 0 → s.parentObject o = none)
    (hcall : ∀ {k p e}, n = k + 1 → IsCall chains t k p e → s.parentObject o = some p)
    (hreturn : depth chains t < n → s.parentObject o = none) (hpos : 0 < depth chains t) :
    PlayerOk chains s n t o (.playing ((chainCode (chainAt chains t)).drop n) .enter) := by
  rcases Nat.lt_or_ge n (depth chains t) with hlt | hge
  · obtain ⟨b, i, hb⟩ : ∃ b i, IsCall chains t n b i := ⟨_, _, List.getElem?_eq_getElem hlt⟩
    rw [drop_chainCode_notify hb]
    refine .calling rfl hb ?_
    cases n with
    | zero => exact .enterFirst (hfirst rfl)
    | succ k =>
      obtain ⟨p, e, hp⟩ := hb.parent
      exact .enter hp (hcall rfl hp)
  · rcases Nat.lt_or_eq_of_le hn with hlt | rfl
    · obtain ⟨k, hk⟩ : ∃ k, n + k + 1 = 2 * depth chains t := ⟨2 * depth chains t - n - 1, by omega⟩
      obtain ⟨b, i, hb⟩ : ∃ b i, IsCall chains t k b i :=
        ⟨_, _, List.getElem?_eq_getElem (show k < depth chains t by omega)⟩
      rw [drop_chainCode_wait hb hk]
      exact .returning hk hb fun hlt => hreturn (by omega)
    · rw [List.drop_eq_nil_of_le length_chainCode.le]
      exact .returned rfl (hreturn (by omega))

/-! ## One thread takes a step -/

/-- A thread moves and changes nothing else. -/
theorem RecInv.goto (hinv : RecInv h chains s pos) {pc : ThreadPc}
    (hthread : ThreadOk h chains (s.goto o pc) pos o pc) (hpc : s.pc o ≠ .ended)
    (hpc' : pc ≠ .ended) (hwaiting : pc.waiting = (s.pc o).waiting)
    (hpar : pc.inPlay = false → s.parentObject o = none) : RecInv h chains (s.goto o pc) pos := by
  have hself : (s.goto o pc).pc o = pc := update_self ..
  refine hinv.localStep (AgreesOff.refl.goto pc) rfl rfl rfl (fun _ _ => rfl) (fun _ _ => rfl)
    (fun _ _ _ hready => ⟨hready.1, ?_⟩) ?_ ?_ (fun hw => ?_) fun hplay => ?_
  · rw [hself, hwaiting]
    exact hready.2
  · rwa [hself]
  · rw [hself]
    exact iff_of_true ((hinv.recovering o).mpr hpc) hpc'
  · rw [hself, hwaiting] at hw
    exact hinv.stale hw
  · rw [hself] at hplay
    exact hpar hplay

/-- A thread that is busy belongs to an object of the history. -/
theorem RecInv.mem_objects (hs : Serialized h chains) (hinv : RecInv h chains s pos)
    (hnext : s.pc o ≠ .next) (hended : s.pc o ≠ .ended) : o ∈ h.objects := by
  cases hinv.thread o with
  | through _ hpc => exact (hpc.elim hnext hended).elim
  | player hcall _ => exact hs.mem hcall
  | waiter hcall _ _ => exact hs.mem hcall

theorem atomicTests_setParent (hpc : s.pc o = .setParent p e) :
    atomicTests h s o = true ↔ ∀ b ∈ h.objects, s.testing b o = false := by
  simp [atomicTests, hpc]

theorem atomicTests_end (hpc : s.pc o = .next) (hnone : h.record o (s.lastPlayed o + 1) = none) :
    atomicTests h s o = true ↔ ∀ b ∈ h.objects, s.asserting b o = false := by
  simp [atomicTests, hpc, hnone]

/-- A thread that is through with its log ends. -/
theorem RecInv.step_through (hs : Serialized h chains) (hinv : RecInv h chains s pos)
    (hlast : s.lastPlayed o = (h.ids o).length) (hpc : s.pc o = .next ∨ s.pc o = .ended)
    (hok : atomicTests h s o = true) (hstep : objectStep h s o (s.pc o) = some s') :
    RecInv h chains s' pos := by
  rcases hpc with hpc | hpc
  · -- there is no further record, so the thread ends
    have hnone : h.record o (s.lastPlayed o + 1) = none := by
      rw [← Option.not_isSome_iff_eq_none]
      intro hsome
      obtain ⟨t, k, hcall⟩ := hs.call hsome
      have := (hs.ids hcall).2
      omega
    rw [hpc, objectStep, hnone] at hstep
    obtain rfl := Option.some.inj hstep
    have hquiet : ∀ b, s.asserting b o = true → b ∉ h.objects := fun b hb hmem =>
      Bool.eq_false_iff.mp ((atomicTests_end hpc hnone).mp hok b hmem) hb
    have hself : ({ s with recovering := Function.update s.recovering o false }.goto o
      .ended).pc o = .ended := update_self ..
    refine hinv.localStep ((AgreesOff.setRecovering false).goto .ended) rfl rfl rfl
      (fun _ _ => rfl) (fun b hb => absurd ?_ (hquiet b hb)) (fun _ _ _ hready => ?_) ?_ ?_
      (fun _ => ?_) fun _ => ?_
    · obtain ⟨e, hpcb⟩ := asserting_iff.mp hb
      exact hinv.mem_objects hs (by simp [hpcb]) (by simp [hpcb])
    · rw [ReadyFor, hpc] at hready
      cases hready.2
    · rw [hself]
      exact .through hlast (.inr rfl)
    · rw [hself]
      exact iff_of_false (by simp [RecoveryState.goto]) (by simp)
    · exact hinv.stale (by rw [hpc]; rfl)
    · exact hinv.parentObject (by rw [hpc]; rfl)
  · rw [hpc] at hstep
    cases hstep

/-- A thread that waits in a transaction. -/
theorem RecInv.step_waiter (hs : Serialized h chains) (hinv : RecInv h chains s pos)
    (hcall : IsCall chains t (k + 1) o (s.lastPlayed o + 1)) (hp : IsCall chains t k p e)
    (hwaiter : WaiterOk s (pos t) k p e o (s.pc o)) (hok : atomicTests h s o = true)
    (hstep : objectStep h s o (s.pc o) = some s') : RecInv h chains s' pos := by
  -- The wait of `o` is the only one that another thread can be about to find.
  have honly : ∀ {t' k' p' e'}, IsCall chains t' (k' + 1) o (s.lastPlayed o + 1) →
      IsCall chains t' k' p' e' → p' = p ∧ e' = e := by
    intro t' k' p' e' hcall' hp'
    obtain ⟨rfl, hk⟩ := hs.unique hcall hcall'
    obtain rfl := Nat.succ.inj hk
    exact isCall_unique_obj hp' hp
  generalize hpc : s.pc o = pc at hwaiter hstep
  have hrec : pc ≠ .ended → s.recovering o = true := fun hne => (hinv.recovering o).mpr (hpc ▸ hne)
  have hpar : pc.inPlay = false → s.parentObject o = none := fun hplay =>
    hinv.parentObject (hpc ▸ hplay)
  cases hwaiter with
  | next hn =>
    rw [objectStep, hs.nested hcall hp] at hstep
    obtain rfl := Option.some.inj hstep
    exact hinv.goto (.waiter hcall hp (.setParent hn)) (by simp [hpc]) (by simp) (by rw [hpc]; rfl)
      fun _ => hpar rfl
  | setParent hn =>
    obtain rfl := Option.some.inj hstep
    have hself : ({ s with waitParent := Function.update s.waitParent o (some p) }.goto o
      (.setCommit p e)).pc o = .setCommit p e := update_self ..
    refine hinv.localStep ((AgreesOff.setWaitParent _).goto _) rfl rfl rfl (fun b hb => absurd hb ?_)
      (fun _ _ => rfl) (fun _ _ _ hready => ?_) ?_ ?_ (fun hw => ?_) fun _ => hpar rfl
    · rw [(atomicTests_setParent hpc).mp hok b ?_]
      · simp
      · obtain ⟨i, rest, npc, hpcb, -⟩ := testing_iff.mp hb
        exact hinv.mem_objects hs (by simp [hpcb]) (by simp [hpcb])
    · rw [ReadyFor, hpc] at hready
      cases hready.2
    · rw [hself]
      exact .waiter hcall hp (.setCommit (update_self ..) fun hlt => absurd hlt (by omega))
    · rw [hself]
      exact iff_of_true (hrec (by simp)) (by simp)
    · rw [hself] at hw
      cases hw
  | setCommit hparent hcommit =>
    obtain rfl := Option.some.inj hstep
    have hself : ({ s with waitCommit := Function.update s.waitCommit o e }.goto o
      (.check p e)).pc o = .check p e := update_self ..
    refine hinv.localStep ((AgreesOff.setWaitCommit _).goto _) rfl rfl rfl (fun _ _ => rfl)
      (fun _ _ => rfl) (fun hcall' hp' _ _ => ?_) ?_ ?_ (fun hw => ?_) fun _ => hpar rfl
    · rw [ReadyFor, hself, (honly hcall' hp').2]
      exact ⟨update_self .., rfl⟩
    · rw [hself]
      exact .waiter hcall hp (.check hparent (update_self ..))
    · rw [hself]
      exact iff_of_true (hrec (by simp)) (by simp)
    · rw [hself] at hw
      cases hw
  | check hparent hcommit =>
    rw [objectStep] at hstep
    split at hstep
    · rename_i hlt
      obtain rfl := Option.some.inj hstep
      have hrecp := hinv.recovering_of_call hs hp hlt
      exact hinv.goto (.waiter hcall hp (.assertion hparent hcommit hrecp)) (by simp [hpc]) (by simp)
        (by rw [hpc]; rfl) fun _ => hpar rfl
    · rename_i hge
      obtain rfl := Option.some.inj hstep
      have hself : (s.goto o .advance).pc o = .advance := update_self ..
      refine hinv.localStep (AgreesOff.refl.goto _) rfl rfl rfl (fun _ _ => rfl) (fun _ _ => rfl)
        (fun hcall' hp' hlt _ => ?_) ?_ ?_ (fun {q} _ hq => ?_) fun _ => hpar rfl
      · obtain ⟨rfl, rfl⟩ := honly hcall' hp'
        exact absurd hlt hge
      · rw [hself]
        exact .waiter hcall hp (.advance (Nat.le_of_not_lt hge))
      · rw [hself]
        exact iff_of_true (hrec (by simp)) (by simp)
      · obtain rfl : p = q := Option.some.inj (hparent.symm.trans hq)
        exact hcommit.trans_le (Nat.le_of_not_lt hge)
  | assertion hparent hcommit hrecp =>
    rw [objectStep, if_pos hrecp] at hstep
    obtain rfl := Option.some.inj hstep
    exact hinv.goto (.waiter hcall hp (.check hparent hcommit)) (by simp [hpc]) (by simp)
      (by rw [hpc]; rfl) fun _ => hpar rfl
  | advance hpassed =>
    obtain rfl := Option.some.inj hstep
    refine hinv.advance hs hcall (hinv.done_of_passed hp hpassed) (fun hk hp' => ?_) hpc
    obtain rfl := Nat.succ.inj hk
    obtain ⟨rfl, rfl⟩ := isCall_unique_obj hp hp'
    exact hpassed

/-- A thread in a method that it plays moves and changes nothing else. -/
theorem RecInv.goto_playing (hinv : RecInv h chains s pos)
    (hcall : IsCall chains t 0 o (s.lastPlayed o + 1)) {code code' : List Instr} {npc' : NotifyPc}
    (hpc : s.pc o = .playing code npc)
    (hok : PlayerOk chains (s.goto o (.playing code' npc')) (pos t) t o (.playing code' npc')) :
    RecInv h chains (s.goto o (.playing code' npc')) pos :=
  hinv.goto (.player hcall hok) (by simp [hpc]) nofun (by rw [hpc]; rfl) nofun

/-- A thread starts the next call of its transaction, whose turn it is. -/
theorem RecInv.push (hs : Serialized h chains) (hinv : RecInv h chains s pos)
    (hcall : IsCall chains t 0 o (s.lastPlayed o + 1)) {code : List Instr}
    (hpc : s.pc o = .playing code npc) (hj : pos t = j) (hb : IsCall chains t j b i)
    (hturn : s.lastPlayed b + 1 = i)
    (hready : ∀ {k p e}, j = k + 1 → IsCall chains t k p e → ReadyFor s b e) :
    RecInv h chains (((s.setParentObject o (some b)).apply b (.started i)).goto o
        (.playing ((chainCode (chainAt chains t)).drop (j + 1)) .enter))
      (Function.update pos t (pos t + 1)) := by
  subst hturn hj
  have hlt := hb.lt
  refine hinv.instr hs hcall (by rw [hpc]; rfl) (by omega) (fun hc => ?_) (fun hk hc hp => ?_) hb
    (.inl rfl) ?_ (.enter (by omega) (by omega) (fun hk hp => ?_) (by omega) hcall.lt)
  · obtain ⟨rfl, rfl⟩ := isCall_unique_obj hb hc
    rfl
  · obtain ⟨rfl, -⟩ := isCall_unique_obj (hk ▸ hb) hc
    exact hready hk hp
  · rw [callOps, callOps, if_pos (by omega), if_neg (by omega), if_neg (by omega),
      if_neg (by omega)]
    rfl
  · obtain rfl := Nat.succ.inj hk
    obtain ⟨rfl, -⟩ := isCall_unique_obj hb hp
    exact update_self ..

/-- A thread in the notify of a call. -/
theorem RecInv.step_notify (hs : Serialized h chains) (hinv : RecInv h chains s pos)
    (hcall : IsCall chains t 0 o (s.lastPlayed o + 1)) (hj : pos t = j)
    (hb : IsCall chains t j b i) (hnotify : NotifyOk chains s t o b i j npc)
    (hpc : s.pc o =
      .playing (.notify b i :: (chainCode (chainAt chains t)).drop (j + 1)) npc)
    (hstep : playStep s o (.notify b i :: (chainCode (chainAt chains t)).drop (j + 1)) npc =
      some s') : ∃ pos', RecInv h chains s' pos' := by
  have hlt := hb.lt
  cases hnotify with
  | enterFirst hpar =>
    obtain ⟨rfl, rfl⟩ := isCall_unique_obj hb hcall
    have hrec := hinv.recovering_of_call hs hcall (Nat.lt_succ_self _)
    rw [playStep, if_pos hrec, hpar] at hstep
    obtain rfl := Option.some.inj hstep
    exact ⟨pos, hinv.goto_playing hcall hpc (.calling hj hb (.pushFirst hpar rfl))⟩
  | @enter k p e hp hpar =>
    simp only [playStep, hpar] at hstep
    split at hstep
    · obtain rfl := Option.some.inj hstep
      have hself : ∀ pc, ((s.setParentObject o none).goto o pc).pc o = pc := fun _ =>
        update_self ..
      refine ⟨pos, hinv.localStep ((AgreesOff.refl.setParentObject none).goto _) rfl rfl rfl
        (fun _ _ => rfl) (fun _ _ => rfl) (fun _ _ _ hready => ?_) ?_ ?_ (fun _ => ?_)
        fun hplay => ?_⟩
      · rw [ReadyFor, hpc] at hready
        cases hready.2
      · rw [hself]
        exact .player hcall (.calling hj hb (.readParent hp (update_self ..)))
      · rw [hself]
        exact iff_of_true ((hinv.recovering o).mpr (by simp [hpc])) (by simp)
      · exact hinv.stale (by rw [hpc]; rfl)
      · rw [hself] at hplay
        cases hplay
    · cases hstep
  | @readParent k p e hp hpar =>
    rw [playStep] at hstep
    split at hstep
    · rename_i hwait
      obtain rfl := Option.some.inj hstep
      exact ⟨pos, hinv.goto_playing hcall hpc (.calling hj hb (.readLast hp hpar hwait))⟩
    · obtain rfl := Option.some.inj hstep
      exact ⟨pos, hinv⟩
  | @readLast k p e hp hpar hwait =>
    obtain rfl := Option.some.inj hstep
    exact ⟨pos, hinv.goto_playing hcall hpc (.calling hj hb (.readCommit hp hpar hwait))⟩
  | @readCommit k p e hp hpar hwait =>
    rw [playStep] at hstep
    split at hstep
    · rename_i hcommit
      obtain rfl := Option.some.inj hstep
      -- an object occurs once in a chain, so the callee is another one
      have hne : b ≠ o := by
        rintro rfl
        exact absurd (hs.same hb hcall) (by omega)
      obtain ⟨hturn, hready⟩ := hinv.handshake hs hb hp hj hwait hcommit
      refine ⟨pos, hinv.goto_playing hcall hpc (.calling hj hb (.push hp hpar hturn ?_))⟩
      exact (AgreesOff.refl.goto _).readyFor hne hready
    · obtain rfl := Option.some.inj hstep
      exact ⟨pos, hinv.goto_playing hcall hpc (.calling hj hb (.readParent hp hpar))⟩
  | pushFirst _ hturn =>
    obtain rfl := Option.some.inj hstep
    exact ⟨_, hinv.push hs hcall hpc hj hb hturn (by simp)⟩
  | @push k p e hp _ hturn hready =>
    obtain rfl := Option.some.inj hstep
    refine ⟨_, hinv.push hs hcall hpc hj hb hturn fun hk hp' => ?_⟩
    obtain rfl := Nat.succ.inj hk
    obtain ⟨rfl, rfl⟩ := isCall_unique_obj hp hp'
    exact hready

/-- A thread that plays a transaction. -/
theorem RecInv.step_player (hs : Serialized h chains) (hinv : RecInv h chains s pos)
    (hcall : IsCall chains t 0 o (s.lastPlayed o + 1))
    (hplayer : PlayerOk chains s (pos t) t o (s.pc o))
    (hstep : objectStep h s o (s.pc o) = some s') : ∃ pos', RecInv h chains s' pos' := by
  generalize hpc : s.pc o = pc at hplayer hstep
  cases hplayer with
  | next hn =>
    rw [objectStep, hs.outer hcall] at hstep
    obtain rfl := Option.some.inj hstep
    have hpar : s.parentObject o = none := hinv.parentObject (by rw [hpc]; rfl)
    refine ⟨pos, hinv.goto (.player hcall ?_) (by simp [hpc]) (by simp) (by rw [hpc]; rfl)
      fun hplay => absurd (show true = false from hplay) (by decide)⟩
    rw [hn]
    exact PlayerOk.enter (n := 0) (by omega) (fun _ => hpar) (by simp) (by simp) hcall.lt
  | calling hj hb hnotify => exact hinv.step_notify hs hcall hj hb hnotify hpc hstep
  | @returning k b i hn hb hpar =>
    have hlt := hb.lt
    obtain rfl := hinv.current hb (by omega) (by omega)
    rw [objectStep, playStep] at hstep
    split at hstep
    · obtain rfl := Option.some.inj hstep
      refine ⟨_, hinv.instr hs hcall (by rw [hpc]; rfl) (by omega) (fun hc => ?_)
        (fun hk hc _ => ?_) hb (.inr hn) ?_ (.enter (by omega) (by omega) (fun hk hp => ?_)
        (fun _ => update_self ..) hcall.lt)⟩
      · exact absurd hc.lt (by omega)
      · exact absurd hc.lt (by omega)
      · rw [callOps, callOps, if_pos (by omega), if_pos (by omega), if_pos (by omega),
          if_neg (by omega)]
        rfl
      · exact absurd hp.lt (by omega)
    · cases hstep
  | returned hn hpar =>
    obtain rfl := Option.some.inj hstep
    exact ⟨pos, hinv.goto (.player hcall (.advance hn)) (by simp [hpc]) (by simp) (by rw [hpc]; rfl)
      fun _ => hpar⟩
  | advance hn =>
    obtain rfl := Option.some.inj hstep
    exact ⟨pos, hinv.advance hs hcall hn (by simp) hpc⟩

/-- **Every step keeps the invariant** in which no thread starts to wait, and none ends, between the
reads of a test on it. -/
theorem RecInv.step (hs : Serialized h chains) (hinv : RecInv h chains s pos)
    (hok : atomicTests h s o = true) (hstep : recoveryStep h s o = some s') :
    ∃ pos', RecInv h chains s' pos' := by
  unfold recoveryStep at hstep
  split at hstep
  · cases hstep
  · cases hinv.thread o with
    | through hlast hpc => exact ⟨pos, hinv.step_through hs hlast hpc hok hstep⟩
    | player hcall hplayer => exact hinv.step_player hs hcall hplayer hstep
    | waiter hcall hp hwaiter => exact ⟨pos, hinv.step_waiter hs hcall hp hwaiter hok hstep⟩

/-! ## Runs -/

/-- At the start no instruction is done. -/
theorem RecInv.start (hs : Serialized h chains) : RecInv h chains .start fun _ => 0 where
  running := rfl
  thread _ := .next hs (Nat.zero_le _) fun _ => Nat.zero_le _
  recovering _ := iff_of_true rfl nofun
  stale _ hp := nomatch hp
  parentObject _ := rfl
  later _ _ := Nat.zero_le _
  played hcall hle := absurd (hs.ids hcall).1 (Nat.not_lt.mpr hle)
  parent hcall _ hle := absurd (hs.ids hcall).1 (Nat.not_lt.mpr hle)
  ops hcall := (callOps_none (Nat.zero_le _) hcall.lt).symm
  opsAll _ := rfl

theorem RecInv.of_run (hs : Serialized h chains) (hinv : RecInv h chains s pos) {as : List ℕ}
    (hok : Guarded (recoveryStep h) (fun s o => atomicTests h s o = true) s as)
    (hrun : run (recoveryStep h) s as = some s') : ∃ pos', RecInv h chains s' pos' :=
  hok.invariant (I := fun s => ∃ pos, RecInv h chains s pos)
    (fun _ _ _ ⟨_, hinv⟩ hok hstep => hinv.step hs hok hstep) ⟨pos, hinv⟩ hrun

theorem opsUpTo_mono {m n : ℕ} (hle : m ≤ n) : opsUpTo m <+: opsUpTo n := by
  induction n, hle using Nat.le_induction with
  | base => exact List.prefix_refl _
  | succ n _ ih =>
    rw [opsUpTo_succ]
    exact ih.trans (List.prefix_append _ _)

theorem callOps_initial {n m id : ℕ} (hk : k < n) :
    callOps n k m id <+: [.started id, .finished id] := by
  unfold callOps
  by_cases hstarted : k < m
  · rw [if_pos hstarted]
    split <;> simp
  · rw [if_neg hstarted, if_neg (by omega)]
    exact List.nil_prefix

/-- What an object has seen is what is due, in order. -/
theorem RecInv.inOrder (hs : Serialized h chains) (hinv : RecInv h chains s pos) : s.InOrder h := by
  intro o
  have hcurrent : ∀ {t k}, IsCall chains t k o (s.lastPlayed o + 1) →
      s.ops o <+: opsUpTo (h.ids o).length := by
    intro t k hcall
    rw [hinv.ops hcall]
    refine List.IsPrefix.trans ?_ (opsUpTo_mono (hs.ids hcall).2)
    rw [opsUpTo_succ]
    exact (List.prefix_append_right_inj _).mpr (callOps_initial hcall.lt)
  cases hinv.thread o with
  | through hlast _ =>
    have hall : s.ops o = opsUpTo (h.ids o).length := by rw [hinv.opsAll hlast, hlast]
    exact hall ▸ List.prefix_refl _
  | player hcall _ => exact hcurrent hcall
  | waiter hcall _ _ => exact hcurrent hcall

end

end Pronto
