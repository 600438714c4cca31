import Pronto.Log.Invariants
import Pronto.Log.RoundTrip

/-!
# Commit ids across crashes

`last_commit` lives in the header line, which only becomes durable with the tail of a later append,
and `Savitar_log_open` uses it as it finds it. A session can therefore start with a counter behind
the ids already in its log and hand them out again (`commit_id_repeats`). The ids of the durable log
are distinct in every run in which each opening finds the counter at or ahead of all ids in the
entries, and zero in every hole still to be reserved (`durable_commit_ids_distinct`).
-/

namespace Pronto

open Memory Tiling Runs

/-- An opening finds `last_commit` at or ahead of every id in the entries, and zero in every
cache-line start behind the tail. -/
def OpensAhead (s : LogState) (a : LogAction) : Prop :=
  a = .reopen → (∀ tx ∈ s.txs, load s.log.data tx.offset 8 ≤ s.log.lastCommit) ∧
    ∀ x, s.log.tail ≤ x → x % cacheLineWidth = 0 → load s.log.data x 8 = 0

/-- No id is held twice or is ahead of the counter. -/
structure LogState.UniqueIds (s : LogState) : Prop where
  holes : s.Holes
  nodup : s.claims.Nodup
  le : s.mode ≠ .down → ∀ c ∈ s.claims, c ≤ s.log.lastCommit
  down : s.mode = .down → s.log = s.durable ∧
    ∀ tx ∈ s.txs, tx.phase.claim = load s.log.data tx.offset 8

section

variable {s s' : LogState}

theorem LogState.UniqueIds.create (id : Uuid) (size : ℕ) : (LogState.create id size).UniqueIds where
  holes := .create id size
  nodup := List.nodup_nil
  le := by simp [LogState.create, LogState.claims]
  down := fun h => by cases h

/-- The durable entries carry a part of the ids that were held. -/
theorem LogState.UniqueIds.crash (h : s.UniqueIds) : s.crash.UniqueIds where
  holes := h.holes.crash
  nodup := by
    have hclaims : s.crash.claims = s.durableIds := by
      simp only [LogState.claims, LogState.durableIds, LogState.crash, LogState.survivors,
        List.map_map]
      rfl
    rw [hclaims]
    exact h.holes.durableIds_nodup h.nodup
  le := fun hmode => absurd rfl hmode
  down := fun _ => ⟨rfl, fun tx htx => by
    obtain ⟨tx, -, rfl⟩ := List.mem_map.mp htx
    rfl⟩

/-- **Each step keeps the ids distinct**, when every opening finds the counter at or ahead of the
ids in the entries. -/
theorem LogState.UniqueIds.step {drainPersists : Bool} {a : LogAction} (h : s.UniqueIds)
    (hopen : OpensAhead s a) (hstep : LogStep drainPersists s a s') : s'.UniqueIds := by
  by_cases hcrash : a = .crash
  · subst hcrash
    cases hstep
    exact h.crash
  have hle : ∀ c ∈ s.claims, c ≤ s.log.lastCommit := by
    by_cases hmode : s.mode = .down
    · intro c hc
      obtain ⟨hc, -⟩ := List.mem_filter.mp hc
      obtain ⟨tx, htx, rfl⟩ := List.mem_map.mp hc
      rw [(h.down hmode).2 tx htx]
      exact (hopen (hstep.of_down hmode)).1 tx htx
    · exact h.le hmode
  have hholes : s'.Holes := by
    refine h.holes.step (fun ha x hx hmod => ?_) hstep
    have hzero := (hopen ha).2 x hx hmod
    subst ha
    cases hstep with
    | reopen hmode => exact ⟨hzero, (h.down hmode).1 ▸ hzero⟩
  have hmode' := hstep.mode_ne_down hcrash
  rcases hstep.claims hcrash with ⟨hclaims, hlast⟩ | ⟨hclaims, hlast⟩
  · exact ⟨hholes, hclaims ▸ h.nodup, fun _ => by rwa [hclaims, hlast],
      fun hd => absurd hd hmode'⟩
  · refine ⟨hholes, ?_, fun _ c hc => ?_, fun hd => absurd hd hmode'⟩
    · refine hclaims.nodup_iff.mpr (List.nodup_cons.mpr ⟨fun hmem => ?_, h.nodup⟩)
      exact absurd (hle _ hmem) (by omega)
    · rw [hlast]
      rcases List.mem_cons.mp (hclaims.mem_iff.mp hc) with rfl | hc
      · exact le_rfl
      · exact (hle c hc).trans (Nat.le_succ _)

end

section

variable {play : DryRun} {parentReady : CommitRecord → Bool} {drainPersists : Bool}

/-- **Distinct ids.** In every run of appends, commits, crashes, openings and recoveries whose
openings all find the counter ahead, no two entries of the durable log carry the same id. -/
theorem durable_commit_ids_distinct {id : Uuid} {size : ℕ} {acts : List LogAction} {s : LogState}
    (hopen : Guarded (logStep play parentReady drainPersists) OpensAhead (.create id size) acts)
    (hrun : run (logStep play parentReady drainPersists) (.create id size) acts = some s) :
    s.durableIds.Nodup :=
  have h := hopen.invariant (I := LogState.UniqueIds)
    (fun _ _ _ h ho hs => h.step ho (logStep_sound hs)) (.create id size) hrun
  h.holes.durableIds_nodup h.nodup

end

/-- `push_back("A")`, committed. -/
def pushBackActions (i : ℕ) : List LogAction :=
  appendActions i [bytesLE 1 8, [65, 0]] ++ commitActions i

/-- A second append makes the counter of a first commit durable; the session behind a crash then
hands out the next id. -/
theorem durable_commit_ids_two_sessions :
    ∃ s, run (logStep vectorPlay (fun _ => true) true) (.create 0 1024)
        (pushBackActions 0 ++ appendActions 1 [bytesLE 1 8, [65, 0]] ++
          (.crash :: .reopen :: .recover 0 0 :: pushBackActions 2)) = some s ∧
      s.durableIds = [1, 2] ∧ s.durableIds.Nodup := by
  have hother : ∀ {acts : List LogAction} {s : LogState}, .reopen ∉ acts →
      Guarded (logStep vectorPlay (fun _ => true) true) OpensAhead s acts := fun hno =>
    guarded_of_forall fun a ha t hre => absurd (hre ▸ ha) hno
  have hfirst : .reopen ∉ pushBackActions 0 ++ appendActions 1 [bytesLE 1 8, [65, 0]] := by decide
  have hopen : Guarded (logStep vectorPlay (fun _ => true) true) OpensAhead (.create 0 1024)
      (pushBackActions 0 ++ appendActions 1 [bytesLE 1 8, [65, 0]] ++
        (.crash :: .reopen :: .recover 0 0 :: pushBackActions 2)) := by
    refine guarded_append.mpr ⟨hother hfirst, fun s hs => ?_⟩
    have hids : s.UniqueIds := (hother hfirst).invariant
      (fun _ _ _ h ho hs => h.step ho (logStep_sound hs)) (.create 0 1024) hs
    cases hs
    refine ⟨fun h => (by cases h), fun t ht => ⟨fun _ => ?_, fun u _ => hother (by decide)⟩⟩
    cases ht
    exact ⟨by decide, fun x hx hmod => (hids.holes.fresh (by decide) x hx hmod).2⟩
  obtain ⟨s, hrun, hids⟩ : ∃ s, run (logStep vectorPlay (fun _ => true) true) (.create 0 1024)
      (pushBackActions 0 ++ appendActions 1 [bytesLE 1 8, [65, 0]] ++
        (.crash :: .reopen :: .recover 0 0 :: pushBackActions 2)) = some s ∧
      s.durableIds = [1, 2] := ⟨_, rfl, by decide⟩
  exact ⟨s, hrun, hids, durable_commit_ids_distinct hopen hrun⟩

/-- The id of a committed entry is durable and the counter is not: after a crash the counter starts
over and the next commit gets the same id. -/
theorem commit_id_repeats :
    ∃ s, run (logStep vectorPlay (fun _ => true) true) (.create 0 1024)
        (pushBackActions 0 ++ [.crash, .reopen, .recover 0 0] ++ pushBackActions 1) = some s ∧
      s.durableIds = [1, 1] := by
  refine ⟨_, rfl, ?_⟩
  decide

end Pronto
