import Mathlib.Logic.Basic

/-!
# Runs of a machine that takes one action at a time

A machine is a partial step function `step : σ → α → Option σ`; an action that is not enabled gives
`none`. `run step s as` takes the actions `as` in order. An invariant that every step keeps holds
at the end of every run (`run_invariant`), and so does one that only the steps meeting a guard keep,
in every run whose steps all meet the guard (`Guarded.invariant`).
-/

namespace Runs

variable {σ α : Type*} {step : σ → α → Option σ}

/-- Take the actions in order. -/
def run (step : σ → α → Option σ) (s : σ) : List α → Option σ
  | [] => some s
  | a :: as => (step s a).bind fun s' => run step s' as

/-- Every step of the run meets the guard `ok`. -/
def Guarded (step : σ → α → Option σ) (ok : σ → α → Prop) (s : σ) : List α → Prop
  | [] => True
  | a :: as => ok s a ∧ ∀ s', step s a = some s' → Guarded step ok s' as

theorem run_append (s : σ) (as bs : List α) :
    run step s (as ++ bs) = (run step s as).bind fun s' => run step s' bs := by
  induction as generalizing s with
  | nil => rfl
  | cons a as ih => simp only [List.cons_append, run, ih, Option.bind_assoc]

theorem run_trans {s t u : σ} {as bs : List α} (h : run step s as = some t)
    (h' : run step t bs = some u) : run step s (as ++ bs) = some u := by
  rw [run_append, h]
  exact h'

theorem run_cons {s s' : σ} {a : α} {as : List α} :
    run step s (a :: as) = some s' ↔ ∃ t, step s a = some t ∧ run step t as = some s' :=
  Option.bind_eq_some_iff

/-- A run whose last state has been checked. -/
theorem run_of_any {s : σ} {as : List α} {p : σ → Bool} (h : (run step s as).any p = true) :
    ∃ s', run step s as = some s' ∧ p s' = true := by
  cases hrun : run step s as with
  | none => simp [hrun] at h
  | some s' => exact ⟨s', rfl, by simpa [hrun] using h⟩

theorem Guarded.invariant {ok : σ → α → Prop} {I : σ → Prop}
    (hstep : ∀ s a s', I s → ok s a → step s a = some s' → I s') {s s' : σ} {as : List α}
    (hok : Guarded step ok s as) (hinit : I s) (hrun : run step s as = some s') : I s' := by
  induction as generalizing s with
  | nil => cases hrun; exact hinit
  | cons a as ih =>
    obtain ⟨t, ht, hrun⟩ := run_cons.mp hrun
    exact ih (hok.2 t ht) (hstep s a t hinit hok.1 ht) hrun

/-- `Guarded` for a guard that can be evaluated. -/
def checkGuard (step : σ → α → Option σ) (ok : σ → α → Bool) (s : σ) : List α → Bool
  | [] => true
  | a :: as => ok s a && (step s a).all fun s' => checkGuard step ok s' as

theorem guarded_of_checkGuard {ok : σ → α → Bool} {s : σ} {as : List α}
    (h : checkGuard step ok s as = true) : Guarded step (fun s a => ok s a = true) s as := by
  induction as generalizing s with
  | nil => trivial
  | cons a as ih =>
    obtain ⟨hok, hrest⟩ := Bool.and_eq_true_iff.mp h
    refine ⟨hok, fun s' hs => ih ?_⟩
    rw [hs] at hrest
    exact hrest

/-- A decidable guard, evaluated along the run. -/
theorem guarded_of_decide {ok : σ → α → Prop} [∀ s a, Decidable (ok s a)] {s : σ} {as : List α}
    (h : checkGuard step (fun s a => decide (ok s a)) s as = true) : Guarded step ok s as := by
  simpa using guarded_of_checkGuard h

/-- A guard that the actions of a run meet in every state. -/
theorem guarded_of_forall {ok : σ → α → Prop} {s : σ} {as : List α} (h : ∀ a ∈ as, ∀ t, ok t a) :
    Guarded step ok s as := by
  induction as generalizing s with
  | nil => trivial
  | cons a as ih => exact ⟨h a (by simp) s, fun _ _ => ih fun b hb => h b (by simp [hb])⟩

/-- A weaker guard. -/
theorem Guarded.imp {ok ok' : σ → α → Prop} {s : σ} {as : List α} (h : Guarded step ok s as)
    (himp : ∀ s a, ok s a → ok' s a) : Guarded step ok' s as := by
  induction as generalizing s with
  | nil => trivial
  | cons a as ih => exact ⟨himp s a h.1, fun t ht => ih (h.2 t ht)⟩

/-- A run without an action meets the guard that its actions differ from it. -/
theorem guarded_of_not_mem {a : α} {s : σ} {as : List α} (h : a ∉ as) :
    Guarded step (fun _ b => b ≠ a) s as :=
  guarded_of_forall fun _ hb _ hba => h (hba ▸ hb)

/-- Two guards at once. -/
theorem Guarded.and {ok ok' : σ → α → Prop} {s : σ} {as : List α} (h : Guarded step ok s as)
    (h' : Guarded step ok' s as) : Guarded step (fun s a => ok s a ∧ ok' s a) s as := by
  induction as generalizing s with
  | nil => trivial
  | cons a as ih => exact ⟨⟨h.1, h'.1⟩, fun t ht => ih (h.2 t ht) (h'.2 t ht)⟩

/-- A guarded run over two lists of actions. -/
theorem guarded_append {ok : σ → α → Prop} {s : σ} {as bs : List α} :
    Guarded step ok s (as ++ bs) ↔
      Guarded step ok s as ∧ ∀ s', run step s as = some s' → Guarded step ok s' bs := by
  induction as generalizing s with
  | nil => simp [Guarded, run]
  | cons a as ih =>
    simp only [List.cons_append, Guarded, ih, run_cons, and_assoc, and_congr_right_iff]
    intro _
    constructor
    · exact fun h => ⟨fun t ht => (h t ht).1, fun s' ⟨t, ht, hs⟩ => (h t ht).2 s' hs⟩
    · exact fun h t ht => ⟨h.1 t ht, fun s' hs => h.2 s' ⟨t, ht, hs⟩⟩

theorem run_invariant {I : σ → Prop} (hstep : ∀ s a s', I s → step s a = some s' → I s') {s s' : σ}
    {as : List α} (hinit : I s) (hrun : run step s as = some s') : I s' :=
  have hok : Guarded step (fun _ _ => True) s as := guarded_of_forall fun _ _ _ => trivial
  hok.invariant (fun s a s' hs _ => hstep s a s' hs) hinit hrun

end Runs
