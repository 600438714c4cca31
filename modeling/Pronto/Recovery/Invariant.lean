import Pronto.Recovery.Chains

/-!
# Where the recovery threads are

The invariant of recovery over a history of chains. A transaction is played by the thread of the
object of its first call; the ghost `pos t` says how many instructions of transaction `t` are done,
so its `k`-th call has begun when `k < pos t`. The threads of the other objects wait, each for the
object of the call that is one further out.

What carries the order is `RecInv.handshake`: when the test in `notify` succeeds on an object, that
object is at the call in question and not at another one for which it waits, or has waited.
-/

namespace Pronto

/-- The number of calls of transaction `t`. -/
def depth (chains : List (List (ℕ × ℕ))) (t : ℕ) : ℕ := (chainAt chains t).length

/-- In `waitForParent`, after `wait_parent` has been set. -/
def ThreadPc.waiting : ThreadPc → Bool
  | .setCommit _ _ | .check _ _ | .assertion _ _ => true
  | _ => false

/-- In `Play`. -/
def ThreadPc.inPlay : ThreadPc → Bool
  | .playing _ _ => true
  | _ => false

/-- The thread of `b` waits for commit id `e` of its parent. -/
def ReadyFor (s : RecoveryState) (b e : ℕ) : Prop :=
  s.waitCommit b = e ∧ (s.pc b).waiting = true

/-- The thread of `o` plays transaction `t` and is in the notify of its `j`-th call, which is on `b`
with commit id `i`. -/
inductive NotifyOk (chains : List (List (ℕ × ℕ))) (s : RecoveryState) (t o b i : ℕ) :
    ℕ → NotifyPc → Prop
  | enterFirst (hpar : s.parentObject o = none) : NotifyOk chains s t o b i 0 .enter
  | enter {k p e : ℕ} (hp : IsCall chains t k p e) (hpar : s.parentObject o = some p) :
    NotifyOk chains s t o b i (k + 1) .enter
  | readParent {k p e : ℕ} (hp : IsCall chains t k p e) (hpar : s.parentObject o = none) :
    NotifyOk chains s t o b i (k + 1) (.readParent p)
  | readLast {k p e : ℕ} (hp : IsCall chains t k p e) (hpar : s.parentObject o = none)
    (hwait : s.waitParent b = some p) : NotifyOk chains s t o b i (k + 1) (.readLast p)
  | readCommit {k p e : ℕ} (hp : IsCall chains t k p e) (hpar : s.parentObject o = none)
    (hwait : s.waitParent b = some p) :
    NotifyOk chains s t o b i (k + 1) (.readCommit p (s.lastPlayed p))
  | pushFirst (hpar : s.parentObject o = none) (hturn : s.lastPlayed b + 1 = i) :
    NotifyOk chains s t o b i 0 .push
  | push {k p e : ℕ} (hp : IsCall chains t k p e) (hpar : s.parentObject o = none)
    (hturn : s.lastPlayed b + 1 = i) (hready : ReadyFor s b e) :
    NotifyOk chains s t o b i (k + 1) .push

/-- The thread of `o` is to play transaction `t`, of which `n` instructions are done. -/
inductive PlayerOk (chains : List (List (ℕ × ℕ))) (s : RecoveryState) (n t o : ℕ) : ThreadPc → Prop
  | next (hn : n = 0) : PlayerOk chains s n t o .next
  | calling {j b i : ℕ} {npc : NotifyPc} (hn : n = j) (hcall : IsCall chains t j b i)
    (hok : NotifyOk chains s t o b i j npc) :
    PlayerOk chains s n t o
      (.playing (.notify b i :: (chainCode (chainAt chains t)).drop (j + 1)) npc)
  | returning {k b i : ℕ} (hn : n + k + 1 = 2 * depth chains t) (hcall : IsCall chains t k b i)
    (hpar : k + 1 < depth chains t → s.parentObject o = none) :
    PlayerOk chains s n t o
      (.playing (.wait b i :: (chainCode (chainAt chains t)).drop (n + 1)) .enter)
  | returned (hn : n = 2 * depth chains t) (hpar : s.parentObject o = none) :
    PlayerOk chains s n t o (.playing [] .enter)
  | advance (hn : n = 2 * depth chains t) : PlayerOk chains s n t o .advance

/-- The thread of `o` is to wait for commit id `e` of `p`, which is the `k`-th call of a transaction
of which `n` instructions are done. -/
inductive WaiterOk (s : RecoveryState) (n k p e o : ℕ) : ThreadPc → Prop
  | next (hn : n ≤ k + 1) : WaiterOk s n k p e o .next
  | setParent (hn : n ≤ k + 1) : WaiterOk s n k p e o (.setParent p e)
  | setCommit (hparent : s.waitParent o = some p) (hcommit : k + 1 < n → s.waitCommit o = e) :
    WaiterOk s n k p e o (.setCommit p e)
  | check (hparent : s.waitParent o = some p) (hcommit : s.waitCommit o = e) :
    WaiterOk s n k p e o (.check p e)
  | assertion (hparent : s.waitParent o = some p) (hcommit : s.waitCommit o = e)
    (hrec : s.recovering p = true) : WaiterOk s n k p e o (.assertion p e)
  | advance (hpassed : e ≤ s.lastPlayed p) : WaiterOk s n k p e o .advance

/-- The thread of `o` is through with its log, plays a transaction, or waits in one. -/
inductive ThreadOk (h : History) (chains : List (List (ℕ × ℕ))) (s : RecoveryState) (pos : ℕ → ℕ)
    (o : ℕ) : ThreadPc → Prop
  | through {pc : ThreadPc} (hlast : s.lastPlayed o = (h.ids o).length)
    (hpc : pc = .next ∨ pc = .ended) : ThreadOk h chains s pos o pc
  | player {t : ℕ} {pc : ThreadPc} (hcall : IsCall chains t 0 o (s.lastPlayed o + 1))
    (hok : PlayerOk chains s (pos t) t o pc) : ThreadOk h chains s pos o pc
  | waiter {t k p e : ℕ} {pc : ThreadPc} (hcall : IsCall chains t (k + 1) o (s.lastPlayed o + 1))
    (hp : IsCall chains t k p e) (hok : WaiterOk s (pos t) k p e o pc) :
    ThreadOk h chains s pos o pc

/-- What the `k`-th call of a chain of length `n` has done to its object after `pos` instructions. -/
def callOps (n k pos id : ℕ) : List Op :=
  (if k < pos then [.started id] else []) ++ if 2 * n ≤ pos + k then [.finished id] else []

/-- The invariant of recovery. -/
structure RecInv (h : History) (chains : List (List (ℕ × ℕ))) (s : RecoveryState) (pos : ℕ → ℕ) :
    Prop where
  running : s.aborted = false
  thread : ∀ o, ThreadOk h chains s pos o (s.pc o)
  recovering : ∀ o, s.recovering o = true ↔ s.pc o ≠ .ended
  /-- The values that an earlier wait has left match no call that is under way. -/
  stale : ∀ {o p}, (s.pc o).waiting = false → s.waitParent o = some p →
    s.waitCommit o ≤ s.lastPlayed p
  parentObject : ∀ {o}, (s.pc o).inPlay = false → s.parentObject o = none
  later : ∀ {t k o i}, IsCall chains t k o i → s.lastPlayed o + 1 < i → pos t ≤ k
  played : ∀ {t o i}, IsCall chains t 0 o i → i ≤ s.lastPlayed o → pos t = 2 * depth chains t
  parent : ∀ {t k o i p e}, IsCall chains t (k + 1) o i → IsCall chains t k p e →
    i ≤ s.lastPlayed o → e ≤ s.lastPlayed p
  ops : ∀ {t k o}, IsCall chains t k o (s.lastPlayed o + 1) →
    s.ops o = opsUpTo (s.lastPlayed o) ++
      callOps (depth chains t) k (pos t) (s.lastPlayed o + 1)
  opsAll : ∀ {o}, s.lastPlayed o = (h.ids o).length → s.ops o = opsUpTo (s.lastPlayed o)

section

variable {h : History} {chains : List (List (ℕ × ℕ))} {s : RecoveryState} {pos : ℕ → ℕ}
  {t k o i p e : ℕ}

theorem IsCall.lt (hc : IsCall chains t k o i) : k < depth chains t :=
  (List.getElem?_eq_some_iff.mp hc).1

theorem IsCall.parent (hc : IsCall chains t (k + 1) o i) : ∃ p e, IsCall chains t k p e :=
  have hlt : k < (chainAt chains t).length := Nat.lt_of_succ_lt hc.lt
  ⟨_, _, List.getElem?_eq_getElem hlt⟩

theorem isCall_unique_obj {o' i' : ℕ} (hc : IsCall chains t k o i) (hc' : IsCall chains t k o' i') :
    o = o' ∧ i = i' := by
  rw [IsCall] at hc hc'
  rw [hc] at hc'
  exact Prod.mk.inj (Option.some.inj hc')

/-- Where a transaction is through, all its instructions are done. -/
theorem RecInv.done_of_passed (hinv : RecInv h chains s pos) (hc : IsCall chains t k o i)
    (hle : i ≤ s.lastPlayed o) : pos t = 2 * depth chains t := by
  induction k generalizing o i with
  | zero => exact hinv.played hc hle
  | succ k ih =>
    obtain ⟨p, e, hp⟩ := hc.parent
    exact ih hp (hinv.parent hc hp hle)

/-- An object is at the call of a transaction that has begun and is not through. -/
theorem RecInv.current (hinv : RecInv h chains s pos) (hc : IsCall chains t k o i)
    (hbegun : k < pos t) (hpos : pos t < 2 * depth chains t) : s.lastPlayed o + 1 = i := by
  rcases Nat.lt_trichotomy (s.lastPlayed o + 1) i with hlt | heq | hgt
  · exact absurd (hinv.later hc hlt) (by omega)
  · exact heq
  · exact absurd (hinv.done_of_passed hc (by omega)) (by omega)

theorem RecInv.player (hs : Serialized h chains) (hinv : RecInv h chains s pos)
    (hc : IsCall chains t 0 o (s.lastPlayed o + 1)) : PlayerOk chains s (pos t) t o (s.pc o) := by
  cases hinv.thread o with
  | through hlast _ =>
    have := (hs.ids hc).2
    omega
  | player hcall hok =>
    obtain ⟨rfl, -⟩ := hs.unique hc hcall
    exact hok
  | waiter hcall _ _ => exact absurd (hs.unique hc hcall).2 (by omega)

theorem RecInv.waiter (hs : Serialized h chains) (hinv : RecInv h chains s pos)
    (hc : IsCall chains t (k + 1) o (s.lastPlayed o + 1)) (hp : IsCall chains t k p e) :
    WaiterOk s (pos t) k p e o (s.pc o) := by
  cases hinv.thread o with
  | through hlast _ =>
    have := (hs.ids hc).2
    omega
  | player hcall _ => exact absurd (hs.unique hc hcall).2 (by omega)
  | waiter hcall hp' hok =>
    obtain ⟨rfl, hk⟩ := hs.unique hc hcall
    obtain rfl := Nat.succ.inj hk
    obtain ⟨rfl, rfl⟩ := isCall_unique_obj hp hp'
    exact hok

/-- An object with a call ahead is recovering. -/
theorem RecInv.recovering_of_call (hs : Serialized h chains) (hinv : RecInv h chains s pos)
    (hc : IsCall chains t k o i) (hlt : s.lastPlayed o < i) : s.recovering o = true := by
  rw [hinv.recovering]
  intro hended
  have hthread := hinv.thread o
  rw [hended] at hthread
  cases hthread with
  | through hlast _ =>
    have := (hs.ids hc).2
    omega
  | player _ hok => cases hok
  | waiter _ _ hok => cases hok

/-- **The handshake.** When the test finds that `b` waits for the call before the next one of `t`,
then `b` is at the next call of `t`. -/
theorem RecInv.handshake (hs : Serialized h chains) (hinv : RecInv h chains s pos) {b : ℕ}
    (hb : IsCall chains t (k + 1) b i) (hp : IsCall chains t k p e) (hpos : pos t = k + 1)
    (hparent : s.waitParent b = some p) (hcommit : s.lastPlayed p + 1 = s.waitCommit b) :
    s.lastPlayed b + 1 = i ∧ ReadyFor s b e := by
  have hlt := hb.lt
  have he : s.lastPlayed p + 1 = e := hinv.current hp (by omega) (by omega)
  -- A value that is left from an earlier wait is too small.
  have hwaiting : (s.pc b).waiting = true := by
    by_contra hnot
    have := hinv.stale (Bool.eq_false_iff.mpr hnot) hparent
    omega
  have hready : ReadyFor s b e := ⟨by omega, hwaiting⟩
  refine ⟨?_, hready⟩
  cases hinv.thread b with
  | through _ hpc =>
    rcases hpc with hpc | hpc <;> rw [hpc] at hwaiting <;> cases hwaiting
  | player _ hok =>
    generalize s.pc b = pc at hok hwaiting
    cases hok <;> cases hwaiting
  | @waiter t' k' p' e' _ hcall hp' hok =>
    -- It is enough that the wait of `b` is the one of transaction `t`.
    suffices heq : e' = e ∧ p' = p by
      obtain ⟨rfl, rfl⟩ := heq
      obtain ⟨rfl, rfl⟩ := hs.unique hp hp'
      exact (isCall_unique_obj hb hcall).2.symm
    generalize hpc : s.pc b = pc at hok hwaiting
    cases hok with
    | next | setParent | advance => cases hwaiting
    | check hparent' hcommit' | assertion hparent' hcommit' _ =>
      exact ⟨by omega, Option.some.inj (hparent'.symm.trans hparent)⟩
    | setCommit hparent' hcommit' =>
      obtain rfl : p' = p := Option.some.inj (hparent'.symm.trans hparent)
      refine ⟨?_, rfl⟩
      rcases Nat.lt_trichotomy e' e with hless | heq | hmore
      · -- The parent of that wait is through, so `b` has been called with the value it has now.
        have hdone := hinv.done_of_passed hp' (by omega)
        have := hcommit' (by have := hcall.lt; omega)
        omega
      · exact heq
      · -- That transaction is later, so the call of `t` on `b` is behind.
        have htt : t < t' := by
          rcases Nat.lt_trichotomy t t' with hlt | rfl | hgt
          · exact hlt
          · obtain rfl := hs.same hp hp'
            have := (isCall_unique_obj hp hp').2
            omega
          · have := hs.mono hp' hp hgt
            omega
        have hi := hs.mono hb hcall htt
        exact absurd (hinv.done_of_passed hb (by omega)) (by omega)

end

end Pronto
