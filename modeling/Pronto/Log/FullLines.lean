import Pronto.Log.RoundTrip

/-!
# The scan behind an entry that fills its last cache line

Behind such an entry the cursor of `Recover` stands one cache line behind the start of the next entry.
What happens then depends on the lengths of the entries that follow:

* a next entry of one line is stepped over, and the scan is back at the start of an entry;
* inside a longer one the scan reads two words of its arguments as a commit id and a magic. If the first
  is zero it takes the place for a partial transaction and searches on, so that the entry behind is read
  under the commit id zero; if it is not, the assertion on the magic fails.

`Place` says where the cursor stands, `scanned` which entries are read under their own commit id, and
`Passes` when the scan gets through. `recoverIterations_scan` and `recoverLoop_scan` connect them with
the loop over the bytes.
-/

namespace Pronto

open Memory

/-! ## Iterations -/

section Iterations

variable {play : DryRun} {parentReady : CommitRecord → Bool} {log : RedoLog}

/-- The state after `n` iterations of the recovery loop, or at its end if it ends before. -/
def recoverIterations (play : DryRun) (parentReady : CommitRecord → Bool) (log : RedoLog) :
    ℕ → RecoverState → Except RecoverFault RecoverState
  | 0, st => .ok st
  | n + 1, st =>
    if st.ptr < log.tail then do
      let st ← recoverStep play parentReady log st
      recoverIterations play parentReady log n st
    else .ok st

/-- An iteration before the end of the log. -/
theorem recoverIterations_succ {n : ℕ} {st st' : RecoverState} (hlt : st.ptr < log.tail)
    (hstep : recoverStep play parentReady log st = .ok st') :
    recoverIterations play parentReady log (n + 1) st =
      recoverIterations play parentReady log n st' := by
  simp [recoverIterations, hlt, hstep, bind, Except.bind]

theorem recoverIterations_done {n : ℕ} {st : RecoverState} (h : log.tail ≤ st.ptr) :
    recoverIterations play parentReady log n st = .ok st := by
  cases n <;> simp [recoverIterations, Nat.not_lt.mpr h]

/-- The loop ends with the iteration after which the cursor is at the tail. -/
theorem recoverLoop_of_iterations {n fuel : ℕ} {st st' : RecoverState}
    (h : recoverIterations play parentReady log n st = .ok st') (hend : log.tail ≤ st'.ptr)
    (hfuel : n ≤ fuel) : recoverLoop play parentReady log fuel st = .ok st' := by
  induction n generalizing st fuel with
  | zero =>
    obtain rfl : st = st' := by simpa [recoverIterations] using h
    exact recoverLoop_done hend
  | succ n ih =>
    by_cases hlt : st.ptr < log.tail
    · obtain ⟨fuel, rfl⟩ : ∃ k, fuel = k + 1 := ⟨fuel - 1, by omega⟩
      simp only [recoverIterations, hlt, if_true, bind, Except.bind] at h
      rw [recoverLoop_succ hlt]
      cases hstep : recoverStep play parentReady log st with
      | error e => simp [hstep] at h
      | ok st₁ =>
        rw [hstep] at h
        exact ih h (by omega)
    · obtain rfl : st = st' := by simpa [recoverIterations, hlt] using h
      exact recoverLoop_done hend

end Iterations

/-! ## Places -/

/-- Where the cursor stands, seen from the entries that are left: at the first of them, one cache line
behind its start, or at the offset `ptr` inside the entry before them. -/
inductive Place
  | atEntry
  | lineBehind
  | inside (ptr : ℕ)

/-- The iterations that are left at a place for no entry. -/
def Place.turns : Place → ℕ
  | .inside _ => 1
  | _ => 0

/-- The place behind an entry that has been read. -/
def LogEntry.after (e : LogEntry) : Place :=
  if e.length % cacheLineWidth = 0 then .lineBehind else .atEntry

/-- The place one cache line behind the start of an entry, seen from the entries behind it. -/
def LogEntry.secondLine (e : LogEntry) : Place :=
  if e.size = cacheLineWidth then .atEntry else .inside (e.offset + cacheLineWidth)

/-- The entries that the scan reads under their own commit id. The lengths of the entries decide. -/
def scanned : Place → List LogEntry → List LogEntry
  | _, [] => []
  | .atEntry, e :: es => e :: scanned e.after es
  | .lineBehind, e :: es => scanned e.secondLine es
  | .inside _, e :: es => scanned e.after es

/-- The scan gets through: an entry that it enters one line behind the start is one line long or has a
zero word there, and a search that no further entry ends is ended by the bytes behind the tail. -/
def Passes (play : DryRun) (log : RedoLog) : Place → List LogEntry → Prop
  | .inside ptr, [] => ∃ mptr n, Resyncs play log ptr mptr n
  | _, [] => True
  | .atEntry, e :: es => Passes play log e.after es
  | .lineBehind, e :: es =>
    (e.size = cacheLineWidth ∨ load log.data (e.offset + cacheLineWidth) 8 = 0) ∧
      Passes play log e.secondLine es
  | .inside _, e :: es => Passes play log e.after es

/-- None of the lines of the entry but its first has the magic where an entry has it. -/
def LogEntry.NoMagicInside (log : RedoLog) (e : LogEntry) : Prop :=
  ∀ j, 0 < j → cacheLineWidth * j < e.size →
    load log.data (e.offset + 8 + cacheLineWidth * j) 8 ≠ redoLogMagic

theorem LogEntry.NoMagicInside.of_line {log : RedoLog} {e : LogEntry} (h : e.size = cacheLineWidth) :
    e.NoMagicInside log := by
  intro j hj hlt
  simp only [h, cacheLineWidth] at hlt
  omega

/-- The cursor stands at the place, where `a` is the offset of the first entry that is left. -/
def Place.At (log : RedoLog) (a ptr : ℕ) : Place → Prop
  | .atEntry => ptr = a
  | .lineBehind => ptr = a + cacheLineWidth
  | .inside q => ptr = q ∧ load log.data ptr 8 = 0 ∧ load log.data (ptr + 8) 8 ≠ redoLogMagic ∧
      ∃ k, 0 < k ∧ a = ptr + cacheLineWidth * k ∧
        ∀ j, 0 < j → j < k → load log.data (ptr + 8 + cacheLineWidth * j) 8 ≠ redoLogMagic

/-- What the scan has before it: the entries from `a` to the tail, complete, and without a magic inside
wherever the cursor can get into one of them. -/
structure Ahead (play : DryRun) (log : RedoLog) (place : Place) (a ptr : ℕ) (es : List LogEntry) :
    Prop where
  consecutive : Consecutive a es log.tail
  complete : ∀ e ∈ es, e.Complete play log
  plain : es.IsChain fun e f => e.FillsLine → f.NoMagicInside log
  first : place = .lineBehind → ∀ e ∈ es.head?, e.NoMagicInside log
  place_at : place.At log a ptr

section Places

variable {play : DryRun} {parentReady : CommitRecord → Bool} {log : RedoLog} {place : Place}
  {a ptr : ℕ} {e : LogEntry} {es : List LogEntry}

/-- The scanned entries are among the entries, in their order. -/
theorem scanned_sublist (place : Place) (es : List LogEntry) : (scanned place es).Sublist es := by
  induction es generalizing place with
  | nil => cases place <;> exact List.Sublist.refl _
  | cons e es ih =>
    cases place with
    | atEntry => exact (ih _).cons_cons e
    | lineBehind => exact (ih _).cons e
    | inside q => exact (ih _).cons e

/-- An entry is not among those behind it. -/
theorem Ahead.notMem (h : Ahead play log place a ptr (e :: es)) : e ∉ es := by
  intro hmem
  have hbound := (h.consecutive.2.mem_bounds hmem).1
  have hoff := h.consecutive.1
  have hge := e.size_ge
  omega

/-- The cursor behind an entry that has been read. -/
theorem Ahead.next (h : Ahead play log place a ptr (e :: es)) :
    Ahead play log e.after (a + e.size) e.next es where
  consecutive := h.consecutive.2
  complete := fun f hf => h.complete f (by simp [hf])
  plain := h.plain.tail
  first := fun hafter f hf => by
    have hfills : e.FillsLine := by
      by_contra hno
      simp [LogEntry.after, show ¬ e.length % cacheLineWidth = 0 from hno] at hafter
    cases es with
    | nil => cases hf
    | cons g es =>
      cases hf
      exact (List.isChain_cons_cons.mp h.plain).1 hfills
  place_at := by
    rw [LogEntry.after, ← h.consecutive.1]
    split
    · rename_i hfills
      exact LogEntry.next_of_fillsLine hfills
    · rename_i hno
      exact LogEntry.next_of_not_fillsLine hno

/-- The scan reads the entry at which it stands. -/
theorem Ahead.scanEntry_atEntry (h : Ahead play log .atEntry a ptr (e :: es)) :
    scanEntry play log ptr = .ok (e.visit, e.next) := by
  have hptr : ptr = e.offset := h.place_at.trans h.consecutive.1.symm
  rw [hptr]
  exact scanEntry_of_complete (h.complete e (by simp))

/-- From inside an entry the scan reads the entry behind it, under the commit id zero. -/
theorem Ahead.scanEntry_inside {q : ℕ} (h : Ahead play log (.inside q) a ptr (e :: es)) :
    scanEntry play log ptr = .ok (⟨ptr, 0, e.tag, e.offset + 24⟩, e.next) := by
  obtain ⟨-, hzero, hno, k, hk, ha, hfirst⟩ := h.place_at
  have he := h.complete e (by simp)
  have hoff := h.consecutive.1
  have hfits := he.fits
  have hmagic : e.offset + 8 = ptr + 8 + cacheLineWidth * k := by omega
  simp only [LogEntry.length] at hfits
  have hresync : Resyncs play log ptr (e.offset + 8) e.args.length :=
    ⟨⟨⟨k, hk, hmagic, hfirst⟩, he.entryAt.magic_eq, by omega⟩, by
      have := he.processed
      rwa [← he.entryAt.tag_eq] at this⟩
  refine (scanEntry_partial_iff hzero hno).mpr ⟨_, _, hresync, ?_⟩
  rw [show e.offset + 8 + 8 = e.offset + 16 by omega, he.entryAt.tag_eq]
  refine Prod.ext rfl ?_
  simp only [LogEntry.next, LogEntry.length]
  omega

/-- A search that no further entry ends leaves the scan behind the tail. -/
theorem Ahead.scanEntry_end {q : ℕ} (h : Ahead play log (.inside q) a ptr []) {r : Visit × ℕ}
    (hscan : scanEntry play log ptr = .ok r) : r.1.commitId = 0 ∧ log.tail ≤ r.2 := by
  obtain ⟨-, hzero, hno, k, -, ha, hfirst⟩ := h.place_at
  obtain ⟨mptr, n, hresync, rfl⟩ := (scanEntry_partial_iff hzero hno).mp hscan
  obtain ⟨j, hj, hmptr, -⟩ := hresync.line
  have htail : a = log.tail := h.consecutive
  refine ⟨rfl, ?_⟩
  -- the magic is not on a line of the entry, so it is behind the tail
  by_contra hlt
  refine hfirst j hj ?_ (hmptr ▸ hresync.magic_eq)
  simp only [cacheLineWidth] at *
  omega

/-- One cache line behind the start of an entry of one line, the scan stands at the next entry. -/
theorem Ahead.of_lineBehind (h : Ahead play log .lineBehind a ptr (e :: es))
    (hpass : e.size = cacheLineWidth ∨ load log.data (e.offset + cacheLineWidth) 8 = 0) :
    Ahead play log e.secondLine (a + e.size) ptr es where
  consecutive := h.consecutive.2
  complete := fun f hf => h.complete f (by simp [hf])
  plain := h.plain.tail
  first := fun hplace => by
    rw [LogEntry.secondLine] at hplace
    split at hplace <;> cases hplace
  place_at := by
    have hptr : ptr = a + cacheLineWidth := h.place_at
    have hoff : e.offset = a := h.consecutive.1
    rw [LogEntry.secondLine]
    split
    · rename_i hsize
      rw [Place.At, hptr, hsize]
    · rename_i hsize
      have hmod := e.size_mod
      have hge := e.size_ge
      have hno := h.first rfl e rfl
      have hshift : ∀ j, ptr + 8 + cacheLineWidth * j = e.offset + 8 + cacheLineWidth * (j + 1) := by
        intro j
        simp only [hptr, hoff, cacheLineWidth]
        omega
      refine ⟨by rw [hptr, hoff], by rw [hptr, ← hoff]; exact hpass.resolve_left hsize, ?_,
        e.size / 64 - 1, ?_, ?_, fun j hj hlt => ?_⟩
      · have := hno 1 (by omega) (by simp only [cacheLineWidth] at hsize ⊢; omega)
        rwa [show ptr + 8 = e.offset + 8 + cacheLineWidth * 1 by
          simp only [hptr, hoff, cacheLineWidth]]
      · simp only [cacheLineWidth] at hsize
        omega
      · simp only [hptr, cacheLineWidth]
        omega
      · rw [hshift]
        exact hno (j + 1) (by omega) (by simp only [cacheLineWidth]; omega)

/-- Inside an entry with a nonzero word at its second line the assertion on the magic fails. -/
theorem Ahead.pass_of_scanEntry (h : Ahead play log .lineBehind a ptr (e :: es)) {r : Visit × ℕ}
    (hscan : scanEntry play log ptr = .ok r) :
    e.size = cacheLineWidth ∨ load log.data (e.offset + cacheLineWidth) 8 = 0 := by
  have hptr : ptr = e.offset + cacheLineWidth := h.consecutive.1 ▸ h.place_at
  by_contra hnot
  push Not at hnot
  obtain ⟨hsize, hid⟩ := hnot
  have hmod := e.size_mod
  have hge := e.size_ge
  have hno := h.first rfl e rfl 1 (by omega) (by simp only [cacheLineWidth] at hsize ⊢; omega)
  rw [show e.offset + 8 + cacheLineWidth * 1 = ptr + 8 by omega] at hno
  rw [← hptr] at hid
  simp only [scanEntry, bind, Except.bind] at hscan
  split at hscan
  · cases hscan
  rename_i id hread
  obtain ⟨-, rfl⟩ := readWord_eq_ok hread
  split at hscan
  · cases hscan
  rename_i magic hread'
  obtain ⟨-, rfl⟩ := readWord_eq_ok hread'
  rw [magicPtr, if_neg (fun hc => hid hc.1)] at hscan
  simp only [hread', if_pos hno] at hscan
  cases hscan

end Places

/-! ## The loop -/

section Loop

variable {play : DryRun} {parentReady : CommitRecord → Bool} {log : RedoLog} {place : Place}
  {a : ℕ} {es : List LogEntry}

/-- The visit is that of an entry, or carries no commit id. -/
def Visit.Of (es : List LogEntry) (v : Visit) : Prop := v.commitId = 0 ∨ ∃ e ∈ es, v = e.visit

/-- Feeding a record without a commit id changes nothing between two iterations. -/
theorem feed_zero {s : OrderedReplay.State CommitRecord}
    (h : OrderedReplay.Settled CommitRecord.commitId s) {r : CommitRecord} (hr : r.commitId = 0) :
    OrderedReplay.feed CommitRecord.commitId s r = s :=
  h.feed_of_le CommitRecord.commitId (by omega)

/-- A scan that has entries before it has not reached the tail. -/
theorem Ahead.lt_tail {ptr : ℕ} {e : LogEntry} (h : Ahead play log place a ptr (e :: es))
    (hplace : place = .lineBehind → e.size ≠ cacheLineWidth) : ptr < log.tail := by
  have hlines := (Consecutive.lines_le h.consecutive.2)
  have hge := e.size_ge
  have hmod := e.size_mod
  cases place with
  | atEntry =>
    have hptr : ptr = a := h.place_at
    omega
  | lineBehind =>
    have hptr : ptr = a + cacheLineWidth := h.place_at
    have hne := hplace rfl
    simp only [cacheLineWidth] at hptr hne
    omega
  | inside q =>
    obtain ⟨-, -, -, k, hk, ha, -⟩ := h.place_at
    simp only [cacheLineWidth] at ha
    omega

/-- What `n` iterations from the state `st` do: they feed a first part `vs` of the scanned entries, with
every scanned one of the first `n` entries in it, and reach the tail in time. -/
structure ScansTo (play : DryRun) (parentReady : CommitRecord → Bool) (log : RedoLog) (place : Place)
    (es : List LogEntry) (n : ℕ) (st st' : RecoverState) (vs : List LogEntry) : Prop where
  iterations : recoverIterations play parentReady log n st = .ok st'
  firstPart : vs <+: scanned place es
  inTime : ∀ e ∈ es.take n, e ∈ scanned place es → e ∈ vs
  replay : st'.replay =
    OrderedReplay.replay CommitRecord.commitId st.replay (vs.map LogEntry.record)
  visited : ∃ new, st'.visited = st.visited ++ new ∧ ∀ v ∈ new, v.Of vs
  ends : es.length + place.turns ≤ n → log.tail ≤ st'.ptr ∧ vs = scanned place es

/-- No iteration has run. -/
theorem ScansTo.zero (st : RecoverState) (h : es.length + place.turns ≠ 0) :
    ScansTo play parentReady log place es 0 st st [] :=
  ⟨rfl, List.nil_prefix, by simp, rfl, ⟨[], by simp, by simp⟩, fun hle => by omega⟩

/-- The loop has ended. -/
theorem ScansTo.done (n : ℕ) {st : RecoverState} (h : log.tail ≤ st.ptr) :
    ScansTo play parentReady log place [] n st st [] := by
  have hnil : scanned place [] = [] := by cases place <;> rfl
  exact ⟨recoverIterations_done h, List.nil_prefix, by simp, rfl, ⟨[], by simp, by simp⟩,
    fun _ => ⟨h, hnil.symm⟩⟩

/-- An iteration that reads something without a commit id. -/
theorem ScansTo.cons_zero {n next : ℕ} {st st' : RecoverState} {v : Visit} {vs : List LogEntry}
    (hsettled : OrderedReplay.Settled CommitRecord.commitId st.replay) (hlt : st.ptr < log.tail)
    (hscan : scanEntry play log st.ptr = .ok (v, next)) (hv : v.commitId = 0)
    (hready : ParentsReady parentReady st.replay.last st.replay.queue)
    (h : ScansTo play parentReady log place es n ⟨next, st.visited ++ [v], st.replay⟩ st' vs) :
    recoverIterations play parentReady log (n + 1) st = .ok st' ∧
      ∃ new, st'.visited = st.visited ++ new ∧ ∀ v ∈ new, v.Of vs := by
  have hstep : recoverStep play parentReady log st = .ok _ :=
    recoverStep_of_scanEntry hscan fun r hr hahead => by
      rcases List.mem_cons.mp hr with rfl | hr
      · simp [Visit.toRecord, hv] at hahead
      · exact hready r hr hahead
  rw [feed_zero hsettled (show v.toRecord.commitId = 0 from hv)] at hstep
  refine ⟨(recoverIterations_succ hlt hstep).trans h.iterations, ?_⟩
  obtain ⟨new, hnew, hof⟩ := h.visited
  refine ⟨v :: new, by rw [hnew, List.append_assoc, List.singleton_append], fun w hw => ?_⟩
  rcases List.mem_cons.mp hw with rfl | hw
  · exact Or.inl hv
  · exact hof w hw

/-- **The first iterations of the loop** over a log that the scan gets through. -/
theorem recoverIterations_scan (n : ℕ) {st : RecoverState}
    (h : Ahead play log place a st.ptr es) (hpass : Passes play log place es)
    (hsettled : OrderedReplay.Settled CommitRecord.commitId st.replay)
    (hready : ParentsReady parentReady st.replay.last
      (st.replay.queue ++ es.map LogEntry.record)) :
    ∃ st' vs, ScansTo play parentReady log place es n st st' vs := by
  -- an iteration takes one entry, except that none is needed for an entry of one line behind a full one
  induction es generalizing place n st a with
  | nil =>
    have htail : a = log.tail := h.consecutive
    cases place with
    | atEntry =>
      have hptr : st.ptr = a := h.place_at
      exact ⟨st, [], .done n (by omega)⟩
    | lineBehind =>
      have hptr : st.ptr = a + cacheLineWidth := h.place_at
      exact ⟨st, [], .done n (by omega)⟩
    | inside q =>
      cases n with
      | zero => exact ⟨st, [], .zero st (by simp [Place.turns])⟩
      | succ n =>
        obtain ⟨hptr, hzero, hno, k, hk, ha, -⟩ := h.place_at
        have hlt : st.ptr < log.tail := by
          simp only [cacheLineWidth] at ha
          omega
        obtain ⟨mptr, m, hresync⟩ := hpass
        rw [← hptr] at hresync
        have hscan : scanEntry play log st.ptr = .ok _ :=
          (scanEntry_partial_iff hzero hno).mpr ⟨mptr, m, hresync, rfl⟩
        obtain ⟨hid, hnext⟩ := h.scanEntry_end hscan
        set st₁ : RecoverState := ⟨_, st.visited ++ [_], st.replay⟩
        have hdone : ScansTo play parentReady log .atEntry [] n st₁ st₁ [] := .done n hnext
        obtain ⟨hiter, hvisited⟩ := hdone.cons_zero hsettled hlt hscan hid (by simpa using hready)
        exact ⟨st₁, [], hiter, List.nil_prefix, by simp, rfl, hvisited, fun _ => ⟨hnext, rfl⟩⟩
  | cons e es ih =>
    cases place with
    | lineBehind =>
      obtain ⟨st', vs, hscans⟩ := ih n (h.of_lineBehind hpass.1) hpass.2 hsettled fun r hr => hready r (by
        rcases List.mem_append.mp hr with hr | hr <;> simp [hr])
      refine ⟨st', vs, hscans.iterations, hscans.firstPart, fun x hx hin => ?_, hscans.replay,
        hscans.visited, fun hn => hscans.ends ?_⟩
      · refine hscans.inTime x ?_ hin
        cases n with
        | zero => cases hx
        | succ n =>
          rcases List.mem_cons.mp hx with rfl | hx
          · exact absurd ((scanned_sublist x.secondLine es).subset hin) h.notMem
          · exact List.take_subset_take_left es (Nat.le_succ n) hx
      · have hturns : e.secondLine.turns ≤ 1 := by
          rw [LogEntry.secondLine]
          split <;> simp [Place.turns]
        simp only [List.length_cons, Place.turns] at hn
        omega
    | atEntry =>
      cases n with
      | zero => exact ⟨st, [], .zero st (by simp)⟩
      | succ n =>
        have hstep : recoverStep play parentReady log st = .ok _ :=
          recoverStep_of_scanEntry h.scanEntry_atEntry fun r hr => hready r (by
            rcases List.mem_cons.mp hr with rfl | hr
            · simp [LogEntry.visit, Visit.toRecord, LogEntry.record]
            · simp [hr])
        set st₁ : RecoverState := ⟨e.next, st.visited ++ [e.visit],
          OrderedReplay.feed CommitRecord.commitId st.replay e.visit.toRecord⟩
        have h₁ : Ahead play log e.after (a + e.size) st₁.ptr es := h.next
        obtain ⟨st', vs, hscans⟩ := ih n h₁ hpass (OrderedReplay.feed_settled _ _ _) hready.feed
        refine ⟨st', e :: vs, (recoverIterations_succ (h.lt_tail (by simp)) hstep).trans
          hscans.iterations, ?_, fun x hx hin => ?_, ?_, ?_, fun hn => ?_⟩
        · exact (List.prefix_cons_inj e).mpr hscans.firstPart
        · rcases List.mem_cons.mp hx with rfl | hx
          · simp
          · rcases List.mem_cons.mp hin with rfl | hin
            · simp
            · exact List.mem_cons_of_mem _ (hscans.inTime x hx hin)
        · rw [hscans.replay]
          rfl
        · obtain ⟨new, hnew, hof⟩ := hscans.visited
          refine ⟨e.visit :: new, by rw [hnew, List.append_assoc, List.singleton_append],
            fun v hv => ?_⟩
          rcases List.mem_cons.mp hv with rfl | hv
          · exact Or.inr ⟨e, by simp, rfl⟩
          · exact (hof v hv).imp_right fun hx => hx.imp fun x hx => ⟨by simp [hx.1], hx.2⟩
        · have hturns : e.after.turns = 0 := by
            rw [LogEntry.after]
            split <;> rfl
          simp only [List.length_cons, Place.turns] at hn
          obtain ⟨htail, rfl⟩ := hscans.ends (by omega)
          exact ⟨htail, rfl⟩
    | inside q =>
      cases n with
      | zero => exact ⟨st, [], .zero st (by simp)⟩
      | succ n =>
        have hrest : ParentsReady parentReady st.replay.last
            (st.replay.queue ++ es.map LogEntry.record) := fun r hr => hready r (by
          rcases List.mem_append.mp hr with hr | hr <;> simp [hr])
        set st₁ : RecoverState :=
          ⟨e.next, st.visited ++ [⟨st.ptr, 0, e.tag, e.offset + 24⟩], st.replay⟩
        have h₁ : Ahead play log e.after (a + e.size) st₁.ptr es := h.next
        obtain ⟨st', vs, hscans⟩ := ih n h₁ hpass hsettled hrest
        obtain ⟨hiter, hvisited⟩ := hscans.cons_zero hsettled (h.lt_tail (by simp))
          h.scanEntry_inside rfl fun r hr => hready r (by simp [hr])
        refine ⟨st', vs, hiter, hscans.firstPart, fun x hx hin => ?_, hscans.replay, hvisited,
          fun hn => hscans.ends ?_⟩
        · rcases List.mem_cons.mp hx with rfl | hx
          · exact absurd ((scanned_sublist x.after es).subset hin) h.notMem
          · exact hscans.inTime x hx hin
        · have hturns : e.after.turns = 0 := by
            rw [LogEntry.after]
            split <;> rfl
          simp only [List.length_cons, Place.turns] at hn
          omega

/-- **A loop that ends** has got through, and has fed the scanned entries. -/
theorem recoverLoop_scan {fuel : ℕ} {st st' : RecoverState} (h : Ahead play log place a st.ptr es)
    (hsettled : OrderedReplay.Settled CommitRecord.commitId st.replay)
    (hok : recoverLoop play parentReady log fuel st = .ok st') :
    Passes play log place es ∧ st'.replay =
      OrderedReplay.replay CommitRecord.commitId st.replay ((scanned place es).map LogEntry.record) := by
  -- by induction on the entries ahead; `place` says where the cursor is relative to the next one
  induction es generalizing place fuel st a with
  | nil =>
    have htail : a = log.tail := h.consecutive
    cases place with
    | atEntry =>
      have hptr : st.ptr = a := h.place_at
      rw [recoverLoop_done (by omega)] at hok
      cases hok
      exact ⟨trivial, rfl⟩
    | lineBehind =>
      have hptr : st.ptr = a + cacheLineWidth := h.place_at
      rw [recoverLoop_done (by omega)] at hok
      cases hok
      exact ⟨trivial, rfl⟩
    | inside q =>
      obtain ⟨hptr, hzero, hno, k, hk, ha, -⟩ := h.place_at
      obtain ⟨fuel', st₁, v, hrest, -, hscan, -, hreplay⟩ := recoverLoop_ok_step hok (by
        simp only [cacheLineWidth] at ha
        omega)
      obtain ⟨hid, hnext⟩ := h.scanEntry_end hscan
      obtain ⟨mptr, n, hresync, -⟩ := (scanEntry_partial_iff hzero hno).mp hscan
      rw [recoverLoop_done hnext] at hrest
      cases hrest
      exact ⟨⟨mptr, n, hptr ▸ hresync⟩, hreplay.trans (feed_zero hsettled hid)⟩
  | cons e es ih =>
    cases place with
    | lineBehind =>
      -- the loop did not fault, so the line was passed
      have hpass : e.size = cacheLineWidth ∨ load log.data (e.offset + cacheLineWidth) 8 = 0 := by
        by_cases hsize : e.size = cacheLineWidth
        · exact Or.inl hsize
        · obtain ⟨_, _, v, _, _, hscan, _, _⟩ := recoverLoop_ok_step hok (h.lt_tail fun _ => hsize)
          exact h.pass_of_scanEntry hscan
      obtain ⟨hrest, hreplay⟩ := ih (h.of_lineBehind hpass) hsettled hok
      exact ⟨⟨hpass, hrest⟩, hreplay⟩
    | atEntry =>
      obtain ⟨fuel', st₁, v, hrest, -, hscan, -, hreplay⟩ :=
        recoverLoop_ok_step hok (h.lt_tail (by simp))
      rw [h.scanEntry_atEntry] at hscan
      obtain ⟨rfl, hptr⟩ := Prod.mk.inj (Except.ok.inj hscan)
      obtain ⟨hpass, hreplay'⟩ := ih (hptr ▸ h.next)
        (hreplay ▸ OrderedReplay.feed_settled _ _ _) hrest
      refine ⟨hpass, ?_⟩
      rw [hreplay', hreplay]
      rfl
    | inside q =>
      obtain ⟨fuel', st₁, v, hrest, -, hscan, -, hreplay⟩ :=
        recoverLoop_ok_step hok (h.lt_tail (by simp))
      rw [h.scanEntry_inside] at hscan
      obtain ⟨rfl, hptr⟩ := Prod.mk.inj (Except.ok.inj hscan)
      rw [feed_zero hsettled rfl] at hreplay
      obtain ⟨hpass, hreplay'⟩ := ih (hptr ▸ h.next) (hreplay ▸ hsettled) hrest
      exact ⟨hpass, hreplay'.trans (by rw [hreplay]; rfl)⟩

end Loop

end Pronto
