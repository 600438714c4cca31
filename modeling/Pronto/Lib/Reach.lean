import Pronto.Lib.Runs

/-!
# States that can be reached

For a machine as in `Pronto.Lib.Runs`, `Reaches step ok s t` says that some actions that meet `ok`
lead from `s` to `t`. This is how a machine is shown to be free of deadlocks: from every state,
actions that only complete what has begun reach a state in which nothing is left to do.
`Reaches.forall_mem` brings the parts of a system to rest one after the other, when a part that rests
is not disturbed by the others.
-/

namespace Runs

variable {σ α ι : Type*} {step : σ → α → Option σ} {ok : α → Bool} {s t u : σ}

/-- Some actions that meet `ok` lead from one state to the other. -/
def Reaches (step : σ → α → Option σ) (ok : α → Bool) (s t : σ) : Prop :=
  ∃ acts : List α, (∀ a ∈ acts, ok a = true) ∧ run step s acts = some t

theorem Reaches.refl (s : σ) : Reaches step ok s s := ⟨[], by simp, rfl⟩

/-- Steps after steps. -/
theorem Reaches.trans (h : Reaches step ok s t) (h' : Reaches step ok t u) : Reaches step ok s u := by
  obtain ⟨acts, hacts, hrun⟩ := h
  obtain ⟨acts', hacts', hrun'⟩ := h'
  exact ⟨acts ++ acts', List.forall_mem_append.mpr ⟨hacts, hacts'⟩, run_trans hrun hrun'⟩

/-- One step. -/
theorem Reaches.single {a : α} (h : step s a = some t) (ha : ok a = true) : Reaches step ok s t :=
  ⟨[a], by simpa using ha, run_cons.mpr ⟨t, h, rfl⟩⟩

/-- What every action that meets `ok` keeps. -/
theorem Reaches.invariant {I : σ → Prop}
    (hstep : ∀ s a s', I s → ok a = true → step s a = some s' → I s') (h : Reaches step ok s t)
    (hs : I s) : I t := by
  obtain ⟨acts, hacts, hrun⟩ := h
  have hok : Guarded step (fun _ a => ok a = true) s acts :=
    guarded_of_forall fun a ha _ => hacts a ha
  exact hok.invariant hstep hs hrun

/-- What can be reached for each index, and is kept, can be reached for all of them. -/
theorem Reaches.forall_mem {I : σ → Prop} {P : ι → σ → Prop} {l : List ι}
    (hone : ∀ i ∈ l, ∀ s, I s → ∃ t, Reaches step ok s t ∧ I t ∧ P i t)
    (hkeep : ∀ i s t, P i s → Reaches step ok s t → P i t) (hs : I s) :
    ∃ t, Reaches step ok s t ∧ I t ∧ ∀ i ∈ l, P i t := by
  induction l with
  | nil => exact ⟨s, .refl s, hs, by simp⟩
  | cons i l ih =>
    rw [List.forall_mem_cons] at hone
    obtain ⟨t, hst, ht, hl⟩ := ih hone.2
    obtain ⟨u, htu, hu, hi⟩ := hone.1 t ht
    exact ⟨u, hst.trans htu, hu, List.forall_mem_cons.mpr ⟨hi, fun j hj => hkeep j t u (hl j hj) htu⟩⟩

end Runs
