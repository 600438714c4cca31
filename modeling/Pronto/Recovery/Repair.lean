import Pronto.Recovery.AbortChains

/-!
# The repair after an unclean shutdown

`NVManager::emulateRecoveryAndFixRedoLogs` starts a builder of abort chains for every object, joins
the builders one after the other, and asserts that none of them has found a chain: the code that
would undo the entries of a chain is commented out. Over logs that consist of complete entries, none
of which fills its last cache line, the scan of a builder visits every entry
(`buildIterations_entries`), and so the repair returns if and only if no nested transaction has
committed below an outer-most one that has not (`repair_returns_iff`).
-/

namespace Pronto

open Memory Tiling

/-- `NVManager::emulateRecoveryAndFixRedoLogs`: its return value, `none` when an assertion stops the
process. The builders only read the logs, so it does not matter how they interleave. -/
def emulateRecoveryAndFixRedoLogs (m : NVManager) (fuel : ℕ) : List ℕ → Option ℕ
  | [] => some 0
  | o :: objects =>
    match buildAbortChains m fuel o with
    | .ok st => if st.abortChains = [] then emulateRecoveryAndFixRedoLogs m fuel objects else none
    | .error _ => none

section Repair

variable {m : NVManager} {entries : ℕ → List LogEntry} {time : ℕ → ℕ → ℕ} {fuel o : ℕ}

theorem emulateRecoveryAndFixRedoLogs_iff {objects : List ℕ} :
    emulateRecoveryAndFixRedoLogs m fuel objects = some 0 ↔
      ∀ o ∈ objects, ∃ st, buildAbortChains m fuel o = .ok st ∧ st.abortChains = [] := by
  induction objects with
  | nil => simp [emulateRecoveryAndFixRedoLogs]
  | cons o objects ih =>
    rw [List.forall_mem_cons, ← ih, emulateRecoveryAndFixRedoLogs]
    cases buildAbortChains m fuel o with
    | error f => simp
    | ok st => by_cases hchains : st.abortChains = [] <;> simp [hchains]

/-! ## One entry -/

/-- What the scan needs of an entry to step to the one behind it: the dry run returns its argument
length, it does not fill its last line, and its tag passes the assertion. -/
structure LogEntry.Steppable (play : DryRun) (log : RedoLog) (e : LogEntry) : Prop where
  processed : bytesProcessed play log log.size e.tag (e.offset + 24) = .ok e.args.length
  line : ¬ e.FillsLine
  tag : isNested e.tag = false → e.tag ≠ 0

variable {e : LogEntry} {st st' : BuildState}

/-- An iteration gets through an entry and adds the chain of its ancestors if it has to. -/
theorem buildStep_entry (h : LogSet m entries time) {c : List (ℕ × LogEntry)}
    (hc : Ancestry m entries o e c) (he : e ∈ entries o)
    (hs : e.Steppable (m.play o) (m.log o)) (hfuel : time o e.offset ≤ fuel)
    (hoff : st.offset = e.offset) :
    ∃ st', buildStep m fuel o st = .ok st' ∧ st'.offset = e.offset + e.size ∧
      st'.abortChains = st.abortChains ++ expectedChains e c := by
  have hcomplete : e.Complete (m.play o) (m.log o) := ⟨h.stored o e he, hs.processed⟩
  have haligned := h.aligned o e he
  by_cases hnested : isNested e.tag = true ∧ e.commitId ≠ 0
  · obtain ⟨st', hstep, hchains⟩ := buildStep_committed h hc hfuel hoff hnested.1 hnested.2
    refine ⟨st', hstep, buildStep_offset hcomplete haligned hs.line hoff hstep, ?_⟩
    simpa [expectedChains, hnested] using hchains
  · -- no chain is added; the iteration still succeeds, as the length of the entry is known
    obtain ⟨st', hstep⟩ : ∃ st', buildStep m fuel o st = .ok st' := by
      have hprocessed := hs.processed
      simp only [buildStep, hoff, haligned, ne_eq, not_true_eq_false, if_false, bind, Except.bind,
        fetch_commitId hcomplete.toStored, fetch_magic hcomplete.toStored,
        fetch_tag hcomplete.toStored]
      cases htag : isNested e.tag with
      | true =>
        rw [if_pos rfl, if_pos (by simpa [htag] using hnested)]
        exact ⟨_, rfl⟩
      | false =>
        rw [bytesProcessed, htag, if_neg (by simp)] at hprocessed
        rw [if_neg (by simp), if_neg (hs.tag htag), hprocessed]
        exact ⟨_, rfl⟩
    refine ⟨st', hstep, buildStep_offset hcomplete haligned hs.line hoff hstep, ?_⟩
    rw [buildStep_adds_none h he hoff hnested hstep, expectedChains, if_neg (by tauto),
      List.append_nil]

/-! ## The scan -/

/-- **A scan visits every entry.** It ends at the tail, and it has added no chain exactly when no
entry asks for one. -/
theorem buildIterations_entries (h : LogSet m entries time) {es : List LogEntry} {n : ℕ}
    (hmem : ∀ e ∈ es, e ∈ entries o) (hs : ∀ e ∈ es, e.Steppable (m.play o) (m.log o))
    (hfuel : ∀ e ∈ es, time o e.offset ≤ fuel) (hn : es.length ≤ n)
    (hcons : Consecutive st.offset es (m.log o).tail) :
    ∃ fin, buildIterations m fuel o n st = .ok fin ∧
      (fin.abortChains = [] ↔ st.abortChains = [] ∧
        ∀ e ∈ es, ∀ c, Ancestry m entries o e c → expectedChains e c = []) := by
  induction es generalizing st n with
  | nil =>
    have hend : st.offset = (m.log o).tail := hcons
    exact ⟨st, buildIterations_done (le_of_eq hend.symm), by simp⟩
  | cons e es ih =>
    obtain ⟨n, rfl⟩ : ∃ k, n = k + 1 := ⟨n - 1, by simp at hn; omega⟩
    rw [List.forall_mem_cons] at hmem hs hfuel
    obtain ⟨hoff, hrest⟩ := hcons
    have hle := Tiles.le hrest
    have hpos := e.size_ge
    obtain ⟨c, hc⟩ := h.exists_ancestry hmem.1
    obtain ⟨st', hstep, hnext, hchains⟩ := buildStep_entry h hc hmem.1 hs.1 hfuel.1 hoff.symm
    -- every ancestry of the entry asks for the same chain
    have hsame : ∀ c', Ancestry m entries o e c' → expectedChains e c' = expectedChains e c := by
      intro c' hc'
      obtain ⟨st'', hstep', -, hchains'⟩ := buildStep_entry h hc' hmem.1 hs.1 hfuel.1 hoff.symm
      obtain rfl : st' = st'' := Except.ok.inj (hstep.symm.trans hstep')
      exact List.append_cancel_left (hchains'.symm.trans hchains)
    have hcons' : Consecutive st'.offset es (m.log o).tail := by rwa [hnext, hoff]
    obtain ⟨fin, hfin, hiff⟩ := ih hmem.2 hs.2 hfuel.2 (by simpa using hn) hcons'
    refine ⟨fin, by rw [buildIterations_succ (by omega) hstep]; exact hfin, ?_⟩
    rw [hiff, hchains, List.append_eq_nil_iff, List.forall_mem_cons, and_assoc]
    refine and_congr_right fun _ => and_congr_left fun _ => ?_
    exact ⟨fun hnil c' hc' => (hsame c' hc').trans hnil, fun hall => hall c hc⟩

/-- **When the repair returns.** Let every log consist of complete entries that do not fill their
last cache line. The repair after an unclean shutdown returns if and only if, in every log, each
committed entry of a nested transaction has a committed outer-most ancestor. -/
theorem repair_returns_iff {objects : List ℕ} (h : LogSet m entries time)
    (hlogs : ∀ o ∈ objects, Consecutive (m.log o).head (entries o) (m.log o).tail)
    (hs : ∀ o ∈ objects, ∀ e ∈ entries o, e.Steppable (m.play o) (m.log o))
    (hfuel : ∀ o ∈ objects, ∀ e ∈ entries o, time o e.offset ≤ fuel) :
    emulateRecoveryAndFixRedoLogs m fuel objects = some 0 ↔
      ∀ o ∈ objects, ∀ e ∈ entries o, isNested e.tag = true → e.commitId ≠ 0 →
        ∀ c, Ancestry m entries o e c → isAborted c = false := by
  rw [emulateRecoveryAndFixRedoLogs_iff]
  refine forall₂_congr fun o ho => ?_
  have hlen := (hlogs o ho).lines_le
  have hcons : Consecutive (buildStart m o).offset (entries o) (m.log o).tail := hlogs o ho
  obtain ⟨fin, hfin, hiff⟩ := buildIterations_entries (n := (m.log o).tail) h (fun _ => id)
    (hs o ho) (hfuel o ho) (by omega) hcons
  have hfin' : buildAbortChains m fuel o = .ok fin := hfin
  have hreturns : (∃ st, buildAbortChains m fuel o = .ok st ∧ st.abortChains = []) ↔
      fin.abortChains = [] := by
    rw [hfin']
    constructor
    · rintro ⟨st, heq, hst⟩
      exact Except.ok.inj heq ▸ hst
    · exact fun hnil => ⟨fin, rfl, hnil⟩
  rw [hreturns, hiff]
  simp only [buildStart, true_and, expectedChains, ite_eq_right_iff, List.cons_ne_nil, imp_false,
    not_and, Bool.not_eq_true]
  exact forall₂_congr fun e he => ⟨fun hall hn hid c hc => hall c hc hn hid,
    fun hall c hc hn hid => hall hn hid c hc⟩

end Repair

/-- The caller of a committed nested call did not commit: its log alone is fine, but with the log of
the callee the repair stops the process. -/
theorem repair_stops_on_callee :
    emulateRecoveryAndFixRedoLogs twoLogs 1 [0] = some 0 ∧
      emulateRecoveryAndFixRedoLogs twoLogs 1 [0, 1] ≠ some 0 := by
  have hs : ∀ o, o = 0 ∨ o = 1 → ∀ e ∈ callerAndCallee o,
      e.Steppable (twoLogs.play o) (twoLogs.log o) := by
    rintro o (rfl | rfl) e he
    · have hcomplete := callerAndCallee_complete 0 e he
      obtain rfl := List.mem_singleton.mp he
      exact ⟨hcomplete.processed, by decide, by decide⟩
    · have hcomplete := callerAndCallee_complete 1 e he
      obtain rfl := List.mem_singleton.mp he
      exact ⟨hcomplete.processed, by decide, by decide⟩
  have hlogs : ∀ o, o = 0 ∨ o = 1 →
      Consecutive (twoLogs.log o).head (callerAndCallee o) (twoLogs.log o).tail := by
    rintro o (rfl | rfl)
    · exact ⟨rfl, rfl⟩
    · exact ⟨rfl, rfl⟩
  have hiff : ∀ objects : List ℕ, (∀ o ∈ objects, o = 0 ∨ o = 1) →
      (emulateRecoveryAndFixRedoLogs twoLogs 1 objects = some 0 ↔
        ∀ o ∈ objects, ∀ e ∈ callerAndCallee o, isNested e.tag = true → e.commitId ≠ 0 →
          ∀ c, Ancestry twoLogs callerAndCallee o e c → isAborted c = false) := fun objects hsub =>
    repair_returns_iff callerAndCallee_logSet (fun o ho => hlogs o (hsub o ho))
      (fun o ho => hs o (hsub o ho)) fun o ho e _ => by
        rcases hsub o ho with rfl | rfl <;> decide
  constructor
  · refine (hiff [0] (by simp)).mpr fun o ho e he hnested => ?_
    obtain rfl := List.mem_singleton.mp ho
    obtain rfl := List.mem_singleton.mp he
    cases hnested
  · intro hreturns
    have hc : Ancestry twoLogs callerAndCallee 1 nestedEntry
        [(0, smallEntry 64 0), (1, nestedEntry)] :=
      .nested (by simp [callerAndCallee]) ⟨rfl, by simp [callerAndCallee], by decide, 7, rfl, rfl⟩
        (.outer (by simp [callerAndCallee]) rfl)
    have hfalse := (hiff [0, 1] (by simp)).mp hreturns 1 (by simp) nestedEntry
      (by simp [callerAndCallee]) rfl (by decide) _ hc
    cases hfalse

end Pronto
