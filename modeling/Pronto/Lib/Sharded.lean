import Mathlib.Data.List.Basic
import Pronto.Lib.Runs

/-!
# Objects in parts, each part under its own lock

An object consists of parts, and an operation changes one of them. A thread that performs an
operation takes the lock of the part, changes the part, takes the next place in a commit order and
releases the lock. Operations on different parts overlap, so their changes and their places in the
order come in different orders.

`State.Inv` says that the lock makes the difference invisible: a part whose lock is free is what the
operations of the order make of it (`Inv.free`), and a part whose lock is taken differs from that by
the change of its holder at most (`Inv.held`). `replay_apply` says what the operations of an order
make of one part.
-/

namespace Sharded

open Function

variable {κ σ Op : Type*} [DecidableEq κ]

/-- Which part an operation belongs to, and what it does to that part. -/
structure Spec (κ σ Op : Type*) where
  shard : Op → κ
  apply : Op → σ → σ

/-- Perform an operation on the whole object. -/
def Spec.perform (spec : Spec κ σ Op) (parts : κ → σ) (op : Op) : κ → σ :=
  Function.update parts (spec.shard op) (spec.apply op (parts (spec.shard op)))

/-- Perform operations one after the other. -/
def Spec.replay (spec : Spec κ σ Op) (parts : κ → σ) (ops : List Op) : κ → σ :=
  ops.foldl spec.perform parts

section Replay

variable {spec : Spec κ σ Op} {parts : κ → σ}

theorem perform_self (op : Op) :
    spec.perform parts op (spec.shard op) = spec.apply op (parts (spec.shard op)) :=
  update_self ..

theorem perform_of_ne {op : Op} {b : κ} (h : spec.shard op ≠ b) : spec.perform parts op b = parts b :=
  update_of_ne h.symm ..

theorem replay_append (as bs : List Op) :
    spec.replay parts (as ++ bs) = spec.replay (spec.replay parts as) bs :=
  List.foldl_append ..

theorem replay_concat (ops : List Op) (op : Op) :
    spec.replay parts (ops ++ [op]) = spec.perform (spec.replay parts ops) op := by
  rw [replay_append]
  rfl

/-- A part depends on the operations of the part only. -/
theorem replay_apply (ops : List Op) (b : κ) :
    spec.replay parts ops b =
      (ops.filter fun op => spec.shard op = b).foldl (fun x op => spec.apply op x) (parts b) := by
  induction ops generalizing parts with
  | nil => rfl
  | cons op ops ih =>
    have hstep : spec.replay parts (op :: ops) b = spec.replay (spec.perform parts op) ops b := rfl
    rw [hstep, ih]
    by_cases h : spec.shard op = b
    · rw [List.filter_cons_of_pos (by simpa using h), List.foldl_cons, ← h, perform_self]
    · rw [List.filter_cons_of_neg (by simpa using h), perform_of_ne h]

/-- The object behind an interface whose operations `f` translates. -/
def Spec.comap {Op' : Type*} (spec : Spec κ σ Op) (f : Op' → Op) : Spec κ σ Op' where
  shard := spec.shard ∘ f
  apply := spec.apply ∘ f

theorem replay_comap {Op' : Type*} (f : Op' → Op) (ops : List Op') :
    (spec.comap f).replay parts ops = spec.replay parts (ops.map f) := by
  rw [Spec.replay, Spec.replay, List.foldl_map]
  rfl

end Replay

/-! ## The threads -/

/-- How far an operation has come. -/
inductive Place
  | called
  /-- The lock is taken. -/
  | locked
  /-- The part is changed. -/
  | changed
  /-- The operation has its place in the order. -/
  | ordered
deriving DecidableEq, Repr

/-- The parts, the holders of their locks, the operation each thread is performing, and the order
so far. -/
structure State (κ σ Op : Type*) where
  parts : κ → σ
  holder : κ → Option ℕ
  calls : ℕ → Option (Op × Place)
  order : List Op

inductive Act (Op : Type*)
  | call (i : ℕ) (op : Op)
  | lock (i : ℕ)
  | change (i : ℕ)
  | commit (i : ℕ)
  | unlock (i : ℕ)
deriving DecidableEq, Repr

/-- No thread performs an operation yet. -/
def State.init (parts : κ → σ) : State κ σ Op := ⟨parts, fun _ => none, fun _ => none, []⟩

/-- Replace what a thread is performing. -/
def State.setCall (s : State κ σ Op) (i : ℕ) (c : Option (Op × Place)) : State κ σ Op :=
  { s with calls := Function.update s.calls i c }

/-- Replace the holder of a lock. -/
def State.setHolder (s : State κ σ Op) (b : κ) (h : Option ℕ) : State κ σ Op :=
  { s with holder := Function.update s.holder b h }

/-- One step of a thread; `none` when it is not enabled. -/
def step (spec : Spec κ σ Op) (s : State κ σ Op) : Act Op → Option (State κ σ Op)
  | .call i op => if s.calls i = none then some (s.setCall i (some (op, .called))) else none
  | .lock i =>
    match s.calls i with
    | some (op, .called) =>
      if s.holder (spec.shard op) = none then
        some ((s.setCall i (some (op, .locked))).setHolder (spec.shard op) (some i))
      else none
    | _ => none
  | .change i =>
    match s.calls i with
    | some (op, .locked) =>
      some { s.setCall i (some (op, .changed)) with parts := spec.perform s.parts op }
    | _ => none
  | .commit i =>
    match s.calls i with
    | some (op, .changed) =>
      some { s.setCall i (some (op, .ordered)) with order := s.order ++ [op] }
    | _ => none
  | .unlock i =>
    match s.calls i with
    | some (op, .ordered) =>
      some ((s.setCall i none).setHolder (spec.shard op) none)
    | _ => none

/-- What a step can do. -/
inductive Step (spec : Spec κ σ Op) : State κ σ Op → Act Op → State κ σ Op → Prop
  | call {s : State κ σ Op} {i : ℕ} {op : Op} (hcall : s.calls i = none) :
    Step spec s (.call i op) (s.setCall i (some (op, .called)))
  | lock {s : State κ σ Op} {i : ℕ} {op : Op} (hcall : s.calls i = some (op, .called))
    (hfree : s.holder (spec.shard op) = none) :
    Step spec s (.lock i) ((s.setCall i (some (op, .locked))).setHolder (spec.shard op) (some i))
  | change {s : State κ σ Op} {i : ℕ} {op : Op} (hcall : s.calls i = some (op, .locked)) :
    Step spec s (.change i)
      { s.setCall i (some (op, .changed)) with parts := spec.perform s.parts op }
  | commit {s : State κ σ Op} {i : ℕ} {op : Op} (hcall : s.calls i = some (op, .changed)) :
    Step spec s (.commit i) { s.setCall i (some (op, .ordered)) with order := s.order ++ [op] }
  | unlock {s : State κ σ Op} {i : ℕ} {op : Op} (hcall : s.calls i = some (op, .ordered)) :
    Step spec s (.unlock i) ((s.setCall i none).setHolder (spec.shard op) none)

section Steps

variable {spec : Spec κ σ Op} {s s' : State κ σ Op} {a : Act Op}

/-- The executable step takes the steps of the relation. -/
theorem step_sound (h : step spec s a = some s') : Step spec s a s' := by
  cases a with
  | call i op =>
    obtain ⟨hcall, h⟩ := Option.ite_none_right_eq_some.mp h
    cases h
    exact .call hcall
  | lock i =>
    rw [step] at h
    split at h
    · rename_i op hcall
      obtain ⟨hfree, h⟩ := Option.ite_none_right_eq_some.mp h
      cases h
      exact .lock hcall hfree
    · cases h
  | change i =>
    rw [step] at h
    split at h
    · rename_i op hcall
      cases h
      exact .change hcall
    · cases h
  | commit i =>
    rw [step] at h
    split at h
    · rename_i op hcall
      cases h
      exact .commit hcall
    · cases h
  | unlock i =>
    rw [step] at h
    split at h
    · rename_i op hcall
      cases h
      exact .unlock hcall
    · cases h

omit [DecidableEq κ] in
@[simp] theorem State.setCall_self (i : ℕ) (c : Option (Op × Place)) :
    (s.setCall i c).calls i = c := update_self ..

omit [DecidableEq κ] in
theorem State.setCall_of_ne {i j : ℕ} (h : j ≠ i) (c : Option (Op × Place)) :
    (s.setCall i c).calls j = s.calls j := update_of_ne h ..

@[simp] theorem State.setHolder_self (b : κ) (h : Option ℕ) : (s.setHolder b h).holder b = h :=
  update_self ..

theorem State.setHolder_of_ne {b b' : κ} (hne : b' ≠ b) (h : Option ℕ) :
    (s.setHolder b h).holder b' = s.holder b' := update_of_ne hne ..

@[simp] theorem State.setHolder_calls (b : κ) (h : Option ℕ) :
    (s.setHolder b h).calls = s.calls := rfl

omit [DecidableEq κ] in
/-- A property of all calls after the call of one thread changed. -/
theorem forall_setCall {P : ℕ → Op → Place → Prop} {i : ℕ} {c : Option (Op × Place)}
    (hself : ∀ op p, c = some (op, p) → P i op p)
    (hother : ∀ j op p, j ≠ i → s.calls j = some (op, p) → P j op p) :
    ∀ j op p, (s.setCall i c).calls j = some (op, p) → P j op p := by
  intro j op p hj
  by_cases hji : j = i
  · subst hji
    exact hself op p (by rwa [State.setCall_self] at hj)
  · exact hother j op p hji (by rwa [State.setCall_of_ne hji] at hj)

/-- A thread keeps its operation, and only `commit` orders it. -/
theorem Step.calls_cases (h : Step spec s a s') :
    ∀ j op p, s'.calls j = some (op, p) → (a = .call j op ∧ p = .called) ∨
      ∃ q, s.calls j = some (op, q) ∧ (p = .ordered → q = .ordered ∨ a = .commit j) := by
  cases h with
  | call =>
    refine forall_setCall (fun op p hc => ?_) fun j op p _ hj => .inr ⟨p, hj, Or.inl⟩
    cases hc
    exact .inl ⟨rfl, rfl⟩
  | lock hcall =>
    refine forall_setCall (fun op p hc => ?_) fun j op p _ hj => .inr ⟨p, hj, Or.inl⟩
    cases hc
    exact .inr ⟨_, hcall, by simp⟩
  | change hcall =>
    refine forall_setCall (fun op p hc => ?_) fun j op p _ hj => .inr ⟨p, hj, Or.inl⟩
    cases hc
    exact .inr ⟨_, hcall, by simp⟩
  | commit hcall =>
    refine forall_setCall (fun op p hc => ?_) fun j op p _ hj => .inr ⟨p, hj, Or.inl⟩
    cases hc
    exact .inr ⟨_, hcall, fun _ => .inr rfl⟩
  | unlock => exact forall_setCall (by simp) fun j op p _ hj => .inr ⟨p, hj, Or.inl⟩

/-- Only `commit` extends the order. -/
theorem Step.order_eq (h : Step spec s a s') (ha : ∀ i, a ≠ .commit i) : s'.order = s.order := by
  cases h with
  | commit => exact absurd rfl (ha _)
  | _ => rfl

/-- What a thread between `lock` and `unlock` has made of its part. -/
def heldPart (spec : Spec κ σ Op) (x : σ) (op : Op) : Place → σ
  | .changed => spec.apply op x
  | _ => x

/-- The holders of the locks, and the parts in terms of the order. -/
structure State.Inv (spec : Spec κ σ Op) (init : κ → σ) (s : State κ σ Op) : Prop where
  holder_iff : ∀ b i, s.holder b = some i ↔
    ∃ op p, s.calls i = some (op, p) ∧ p ≠ .called ∧ spec.shard op = b
  free : ∀ b, s.holder b = none → s.parts b = spec.replay init s.order b
  held : ∀ i op p, s.calls i = some (op, p) → p ≠ .called →
    s.parts (spec.shard op) = heldPart spec (spec.replay init s.order (spec.shard op)) op p

variable {init : κ → σ}

theorem State.Inv.start (parts : κ → σ) : (State.init parts : State κ σ Op).Inv spec parts where
  holder_iff := by simp [State.init]
  free := fun _ _ => rfl
  held := by simp [State.init]

/-- Two threads behind their `lock` work on different parts. -/
theorem State.Inv.apart (h : s.Inv spec init) {i j : ℕ} {op op' : Op} {p p' : Place} (hij : j ≠ i)
    (hi : s.calls i = some (op, p)) (hp : p ≠ .called) (hj : s.calls j = some (op', p'))
    (hp' : p' ≠ .called) : spec.shard op' ≠ spec.shard op := by
  intro heq
  have h1 := (h.holder_iff _ i).mpr ⟨op, p, hi, hp, rfl⟩
  have h2 := (h.holder_iff _ j).mpr ⟨op', p', hj, hp', heq⟩
  exact hij (Option.some.inj (h2.symm.trans h1))

/-- The threads behind their `lock` after thread `i` went to another place: those for part `b`
stay the same if `i` was and is none of them, or was and is one of them. -/
theorem State.Inv.holder_setCall (h : s.Inv spec init) {i : ℕ} {c : Option (Op × Place)} {b : κ}
    (hsame : (∃ op p, c = some (op, p) ∧ p ≠ .called ∧ spec.shard op = b) ↔
      ∃ op p, s.calls i = some (op, p) ∧ p ≠ .called ∧ spec.shard op = b) (j : ℕ) :
    s.holder b = some j ↔ ∃ op p, (s.setCall i c).calls j = some (op, p) ∧ p ≠ .called ∧
      spec.shard op = b := by
  rw [h.holder_iff]
  by_cases hj : j = i
  · subst hj
    rw [State.setCall_self]
    exact hsame.symm
  · rw [State.setCall_of_ne hj]

/-- The part of a thread that has the lock is not free. -/
theorem State.Inv.ne_of_free (h : s.Inv spec init) {i : ℕ} {op : Op} {p : Place} {b : κ}
    (hcall : s.calls i = some (op, p)) (hp : p ≠ .called) (hb : s.holder b = none) :
    spec.shard op ≠ b := by
  rintro rfl
  have hholder := (h.holder_iff _ i).mpr ⟨op, p, hcall, hp, rfl⟩
  exact absurd (hholder.symm.trans hb) (by simp)

/-- Taking a free lock: the order of the operations is not touched. -/
theorem State.Inv.lock (h : s.Inv spec init) {i : ℕ} {op : Op}
    (hcall : s.calls i = some (op, .called)) (hfree : s.holder (spec.shard op) = none) :
    ((s.setCall i (some (op, .locked))).setHolder (spec.shard op) (some i)).Inv spec init where
  holder_iff := fun b j => by
    rw [State.setHolder_calls]
    by_cases hb : b = spec.shard op
    · subst hb
      rw [State.setHolder_self]
      by_cases hj : j = i
      · subst hj
        simp
      · -- nobody held the lock before
        have hnone : ¬ ∃ op' p', s.calls j = some (op', p') ∧ p' ≠ .called ∧
            spec.shard op' = spec.shard op := by
          rw [← h.holder_iff, hfree]
          simp
        simp only [State.setCall_of_ne hj, hnone, iff_false, Option.some.injEq]
        exact Ne.symm hj
    · rw [State.setHolder_of_ne hb]
      exact h.holder_setCall (by simp [hcall, Ne.symm hb]) j
  free := fun b hb => by
    by_cases hbop : b = spec.shard op
    · subst hbop
      simp at hb
    · exact h.free b (by rwa [State.setHolder_of_ne hbop] at hb)
  held := by
    refine forall_setCall (fun op' p hc _ => ?_) fun j op' p _ hj => h.held j op' p hj
    cases hc
    exact h.free _ hfree

/-- Releasing the lock: the call is in the order already, and its shard is up to date. -/
theorem State.Inv.unlock (h : s.Inv spec init) {i : ℕ} {op : Op}
    (hcall : s.calls i = some (op, .ordered)) :
    ((s.setCall i none).setHolder (spec.shard op) none).Inv spec init where
  holder_iff := fun b j => by
    rw [State.setHolder_calls]
    by_cases hb : b = spec.shard op
    · subst hb
      rw [State.setHolder_self]
      refine ⟨by simp, ?_⟩
      rintro ⟨op', p, hj, hp, heq⟩
      by_cases hji : j = i
      · subst hji
        simp at hj
      · rw [State.setCall_of_ne hji] at hj
        exact absurd heq (h.apart hji hcall (by decide) hj hp)
    · rw [State.setHolder_of_ne hb]
      exact h.holder_setCall (by simp [hcall, Ne.symm hb]) j
  free := fun b hb => by
    by_cases hbop : b = spec.shard op
    · subst hbop
      exact h.held i op _ hcall (by decide)
    · exact h.free b (by rwa [State.setHolder_of_ne hbop] at hb)
  held := forall_setCall (by simp) fun j op' p _ hj => h.held j op' p hj

/-- Every step keeps the invariant. -/
theorem State.Inv.step (h : s.Inv spec init) (hstep : Step spec s a s') : s'.Inv spec init := by
  cases hstep with
  | @call i op hcall =>
    refine ⟨fun b => h.holder_setCall (by simp [hcall]), h.free, ?_⟩
    exact forall_setCall (by simp) fun j op' p _ hj => h.held j op' p hj
  | lock hcall hfree => exact h.lock hcall hfree
  | @change i op hcall =>
    refine ⟨fun b => h.holder_setCall (by simp [hcall]), fun b hb => ?_,
      forall_setCall (fun op' p hc _ => ?_) fun j op' p hji hj hp => ?_⟩
    · -- a shard whose lock is free is not the one that changes
      exact (perform_of_ne (h.ne_of_free hcall (by decide) hb)).trans (h.free b hb)
    · cases hc
      exact (perform_self op).trans (congrArg _ (h.held i op _ hcall (by decide)))
    · have hne := h.apart hji hcall (by decide) hj hp
      exact (perform_of_ne hne.symm).trans (h.held j op' p hj hp)
  | @commit i op hcall =>
    refine ⟨fun b => h.holder_setCall (by simp [hcall]), fun b hb => ?_,
      forall_setCall (fun op' p hc _ => ?_) fun j op' p hji hj hp => ?_⟩
    · rw [replay_concat, perform_of_ne (h.ne_of_free hcall (by decide) hb)]
      exact h.free b hb
    · cases hc
      rw [replay_concat]
      exact (h.held i op _ hcall (by decide)).trans (perform_self op).symm
    · have hne := h.apart hji hcall (by decide) hj hp
      rw [replay_concat, perform_of_ne hne.symm]
      exact h.held j op' p hj hp
  | unlock hcall => exact h.unlock hcall

end Steps

end Sharded
