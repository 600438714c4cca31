import Pronto.Log.Entries

/-!
# Reading back what was appended

The appender pads an entry of `n` bytes to whole cache lines only when `n` is not a multiple of the
line width; the scanner of `PersistentObject::Recover` always adds `64 - n % 64`. The two agree on
every entry except one whose bytes end exactly at the end of a cache line. `scan_reads_back_iff`
says that the scan visits exactly the appended entries, reads each back, and stops at the tail, if
and only if no appended entry is of that kind.
-/

namespace Pronto

open Memory

/-- One call of `Savitar_log_append`: the argument vector holds a method tag and argument bytes.
For an outer-most transaction the dry run of the method, given these bytes and no more, returns their
number; for a nested one the arguments are the parent's uuid. -/
structure LogCall (play : DryRun) where
  vector : List (List UInt8)
  tag : ℕ
  args : List UInt8
  vector_ne : vector ≠ []
  tag_lt : tag < 256 ^ 8
  flatten_eq : vector.flatten = bytesLE tag 8 ++ args
  args_ok : isNested tag = false → ∀ m : Mem, bytes m 0 args.length = args →
    play.run tag m args.length = .ok args.length
  nested_ok : isNested tag = true → args.length = 16

/-- A sequence of appends; the offsets they return and the resulting log. -/
def appendAll (log : RedoLog) : List (List (List UInt8)) → Option (List ℕ × RedoLog)
  | [] => some ([], log)
  | v :: vs =>
    (savitarLogAppend log v).bind fun r =>
      (appendAll r.2 vs).map fun s => (r.1 :: s.1, s.2)

/-- Commit the entries at the given offsets, in that order. -/
def commitAll (log : RedoLog) : List ℕ → Option RedoLog
  | [] => some log
  | o :: os => (savitarLogCommit log o).bind fun log => commitAll log os

variable {play : DryRun}

/-- The entries a sequence of calls makes from offset `a` on, not yet committed. -/
def callEntries : ℕ → List (LogCall play) → List LogEntry
  | _, [] => []
  | a, c :: cs => ⟨a, 0, c.tag, c.args⟩ :: callEntries (a + entrySize c.vector) cs

/-! ## The appended entries -/

theorem LogCall.entrySize_eq (c : LogCall play) (a id : ℕ) :
    entrySize c.vector = LogEntry.size ⟨a, id, c.tag, c.args⟩ := by
  simp only [entrySize, LogEntry.size, LogEntry.length, c.flatten_eq, List.length_append,
    length_bytesLE]
  congr 1
  omega

/-- The dry run of a call whose bytes are in the log reads no other bytes. -/
theorem LogCall.processed (c : LogCall play) {log : RedoLog} {a limit : ℕ}
    (h : bytes log.data a c.args.length = c.args) (hfit : a + c.args.length ≤ limit) :
    bytesProcessed play log limit c.tag a = .ok c.args.length := by
  rw [bytesProcessed]
  split
  · rename_i hn
    rw [c.nested_ok hn]
  · rename_i hn
    have hown : play.run c.tag (suffix log.data a) c.args.length = .ok c.args.length := by
      refine c.args_ok (by simpa using hn) _ ?_
      conv_rhs => rw [← h]
      refine List.ext_getElem (by simp) fun i h1 h2 => ?_
      rw [getElem_bytes, getElem_bytes, suffix, Nat.zero_add]
    rw [dryRun, play.mono (show c.args.length ≤ limit - a by omega) (by rw [hown]; simp), hown]

/-- Each entry comes from one of the calls. -/
theorem mem_callEntries {a : ℕ} {cs : List (LogCall play)} {e : LogEntry}
    (h : e ∈ callEntries a cs) : ∃ c ∈ cs, e.tag = c.tag ∧ e.args = c.args := by
  induction cs generalizing a with
  | nil => cases h
  | cons c cs ih =>
    rcases List.mem_cons.mp h with rfl | h
    · exact ⟨c, by simp, rfl, rfl⟩
    · obtain ⟨c', hc', h'⟩ := ih h
      exact ⟨c', by simp [hc'], h'⟩

/-- The state after a sequence of appends on a log whose file is zero behind the tail. -/
structure Appended (log log' : RedoLog) (es : List LogEntry) : Prop where
  consecutive : Consecutive log.tail es log'.tail
  entryAt : ∀ e ∈ es, EntryAt log'.data e.offset e.commitId e.tag e.args
  below : ∀ x, x < log.tail → log'.data x = log.data x
  fits : ∀ e ∈ es, e.offset + e.size ≤ log.size
  size_eq : log'.size = log.size
  head_eq : log'.head = log.head
  lastCommit_eq : log'.lastCommit = log.lastCommit

/-- **A sequence of appends** reserves consecutive extents and stores the entries of the calls
there. -/
theorem appendAll_spec {log log' : RedoLog} {cs : List (LogCall play)} {offs : List ℕ}
    (hzero : ∀ x, log.tail ≤ x → log.data x = 0)
    (h : appendAll log (cs.map LogCall.vector) = some (offs, log')) :
    offs = (callEntries log.tail cs).map LogEntry.offset ∧
      Appended log log' (callEntries log.tail cs) := by
  induction cs generalizing log offs with
  | nil =>
    simp only [List.map_nil, appendAll, Option.some.injEq, Prod.mk.injEq] at h
    obtain ⟨rfl, rfl⟩ := h
    exact ⟨rfl, rfl, by simp [callEntries], fun _ _ => rfl, by simp [callEntries], rfl, rfl, rfl⟩
  | cons c cs ih =>
    simp only [List.map_cons, appendAll, savitarLogAppend] at h
    split at h
    case isFalse => cases h
    rename_i hfit
    simp only [Option.bind_some, Option.map_eq_some_iff, Prod.mk.injEq, Prod.exists] at h
    obtain ⟨offs', log'', hrest, hoffs, rfl⟩ := h
    have hsize := c.entrySize_eq log.tail 0
    have hlen := LogEntry.length_le_size ⟨log.tail, 0, c.tag, c.args⟩
    have hflat : 16 + c.vector.flatten.length = LogEntry.length ⟨log.tail, 0, c.tag, c.args⟩ := by
      simp only [c.flatten_eq, List.length_append, length_bytesLE, LogEntry.length]
      omega
    obtain ⟨hoffs', happ⟩ := ih (fun x hx => by
      dsimp only at hx ⊢
      rw [writeEntry_of_outside (by omega)]
      exact hzero x (by omega)) hrest
    -- the entry just written, before the remaining appends
    have hentry : EntryAt (writeEntry log.data log.tail c.vector) log.tail 0 c.tag c.args := by
      refine entryAt_writeEntry c.tag_lt c.flatten_eq ?_
      have hz : load log.data log.tail 8 = load (fun _ => 0) log.tail 8 :=
        load_congr fun x h1 _ => hzero x h1
      rw [hz]
      rfl
    refine ⟨?_, ?_⟩
    · rw [← hoffs, hoffs', callEntries, List.map_cons]
    · refine ⟨⟨rfl, ?_⟩, ?_, ?_, ?_, happ.size_eq, happ.head_eq, happ.lastCommit_eq⟩
      · rw [← hsize]
        exact happ.consecutive
      · intro e he
        rcases List.mem_cons.mp he with rfl | he
        · refine hentry.congr fun x _ h2 => happ.below x ?_
          simp only [LogEntry.length] at hlen
          dsimp only at h2 ⊢
          omega
        · exact happ.entryAt e he
      · intro x hx
        rw [happ.below x (by dsimp only; omega)]
        exact writeEntry_of_outside (by omega)
      · intro e he
        rcases List.mem_cons.mp he with rfl | he
        · rw [← hsize]
          exact hfit.2
        · exact happ.fits e he

/-! ## The committed entries -/

/-- Committing distinct entries gives each the id of its turn and leaves the others alone. -/
theorem commitAll_spec {log log' : RedoLog} {es : List LogEntry} {a b : ℕ} {order : List ℕ}
    (hcons : Consecutive a es b)
    (hentry : ∀ e ∈ es, EntryAt log.data e.offset e.commitId e.tag e.args)
    (hsub : ∀ o ∈ order, ∃ e ∈ es, e.offset = o) (hnd : order.Nodup)
    (h : commitAll log order = some log') :
    (∀ e ∈ es, EntryAt log'.data e.offset
      (if e.offset ∈ order then log.lastCommit + order.idxOf e.offset + 1 else e.commitId)
      e.tag e.args) ∧
      log'.tail = log.tail ∧ log'.size = log.size ∧ log'.head = log.head := by
  induction order generalizing log es with
  | nil =>
    simp only [commitAll, Option.some.injEq] at h
    subst h
    exact ⟨fun e he => by simpa using hentry e he, rfl, rfl, rfl⟩
  | cons o os ih =>
    simp only [commitAll, savitarLogCommit] at h
    split at h
    case isFalse => cases h
    rename_i hid
    simp only [Option.bind_some] at h
    obtain ⟨hnot, hnd'⟩ := List.nodup_cons.mp hnd
    obtain ⟨e₀, he₀, rfl⟩ := hsub o (by simp)
    -- the entries after the first commit
    let f : LogEntry → ℕ := fun e =>
      if e.offset = e₀.offset then log.lastCommit + 1 else e.commitId
    have hentry' : ∀ e ∈ withIds f es,
        EntryAt (store log.data e₀.offset (bytesLE (log.lastCommit + 1) 8))
          e.offset e.commitId e.tag e.args := by
      intro e he
      obtain ⟨e', he', rfl⟩ := List.mem_map.mp he
      by_cases heq : e'.offset = e₀.offset
      · simp only [f, heq, if_true]
        exact (heq ▸ hentry e' he').commit (lt_trans hid (by decide))
      · simp only [f, heq, if_false]
        refine (hentry e' he').congr fun x h1 h2 => store_of_outside ?_
        have hl := e'.length_le_size
        have hl₀ := e₀.length_le_size
        simp only [LogEntry.length] at hl hl₀
        simp only [length_bytesLE]
        rcases hcons.disjoint he' he₀ heq with hd | hd <;> omega
    obtain ⟨hrest, htail, hsize, hhead⟩ := ih hcons.withIds hentry' (fun o' ho' => by
      obtain ⟨e', he', rfl⟩ := hsub o' (by simp [ho'])
      exact ⟨_, List.mem_map_of_mem he', rfl⟩) hnd' h
    refine ⟨fun e he => ?_, htail, hsize, hhead⟩
    have he' := hrest _ (List.mem_map_of_mem he)
    dsimp only at he'
    by_cases heq : e.offset = e₀.offset
    · simp only [heq, hnot, if_false, f, if_true] at he'
      simpa [heq] using he'
    · have hidx : List.idxOf e.offset (e₀.offset :: os) = os.idxOf e.offset + 1 := by
        simp [Ne.symm heq]
      by_cases hmem : e.offset ∈ os
      · simp only [hmem, if_true] at he'
        simp only [List.mem_cons, hmem, or_true, if_true, hidx]
        rw [show log.lastCommit + (os.idxOf e.offset + 1) + 1 =
          log.lastCommit + 1 + os.idxOf e.offset + 1 by omega]
        exact he'
      · simp only [hmem, if_false, f, heq] at he'
        simpa [heq, hmem] using he'

/-! ## The scan -/

/-- The scan of the log visits exactly the appended entries in order, reads back each entry's
commit id, tag and argument pointer, and ends with the cursor at the tail. -/
def ScanReadsBack (play : DryRun) (parentReady : CommitRecord → Bool) (log : RedoLog)
    (lastPlayed : ℕ) (offs order : List ℕ) (calls : List (LogCall play)) : Prop :=
  ∃ st, recoverLoop play parentReady log log.tail ⟨log.head, [], ⟨lastPlayed, [], []⟩⟩ = .ok st ∧
    st.visited = List.zipWith
      (fun off c => ⟨off, order.idxOf off + 1, c.tag, off + 24⟩) offs calls ∧
    st.ptr = log.tail

theorem visits_callEntries (g : ℕ → ℕ) (a : ℕ) (cs : List (LogCall play)) :
    (withIds (fun e => g e.offset) (callEntries a cs)).map LogEntry.visit =
      List.zipWith (fun off c => ⟨off, g off, c.tag, off + 24⟩)
        ((callEntries a cs).map LogEntry.offset) cs := by
  induction cs generalizing a with
  | nil => rfl
  | cons c cs ih =>
    have := ih (a + entrySize c.vector)
    simp only [withIds] at this
    simp [callEntries, withIds, LogEntry.visit, this]

/-- Over complete consecutive entries, the scan visits them all and ends at the tail exactly when
no entry fills its last cache line. -/
theorem recoverLoop_reads_back_iff {parentReady : CommitRecord → Bool} {log : RedoLog}
    {es : List LogEntry} (hcomplete : ∀ e ∈ es, e.Complete play log) {p a : ℕ}
    (hready : ParentsReady parentReady p (es.map LogEntry.record))
    (hcons : Consecutive a es log.tail) :
    (∃ st, recoverLoop play parentReady log log.tail ⟨a, [], ⟨p, [], []⟩⟩ = .ok st ∧
      st.visited = es.map LogEntry.visit ∧ st.ptr = log.tail) ↔ ∀ e ∈ es, ¬ e.FillsLine := by
  have hlen := hcons.lines_le
  constructor
  · -- walk over the entries before the first one that fills its line
    rintro ⟨st, hrun, hvis, hptr⟩
    by_contra hbad
    push Not at hbad
    obtain ⟨l, e, t, rfl, hl, he⟩ : ∃ l e t, es = l ++ e :: t ∧
        (∀ x ∈ l, ¬ x.FillsLine) ∧ e.FillsLine := by
      clear hcons hcomplete hlen hrun hvis hready
      induction es with
      | nil => obtain ⟨x, hx, -⟩ := hbad; cases hx
      | cons x es ih =>
        by_cases hx : x.FillsLine
        · exact ⟨[], x, es, rfl, by simp, hx⟩
        · obtain ⟨y, hy, hyl⟩ := hbad
          have hy' : y ∈ es := (List.mem_cons.mp hy).resolve_left fun h => hx (h ▸ hyl)
          obtain ⟨l, e, t, rfl, hl, he⟩ := ih ⟨y, hy', hyl⟩
          exact ⟨x :: l, e, t, rfl, List.forall_mem_cons.mpr ⟨hx, hl⟩, he⟩
    obtain ⟨m, hconsl, hconse⟩ := Tiling.tiles_append.mp hcons
    have hml : m + 64 ≤ log.tail := by
      have : m + 64 * (e :: t).length ≤ log.tail := Consecutive.lines_le hconse
      simp only [List.length_cons] at this
      omega
    obtain ⟨fuel, hfuel⟩ : ∃ fuel, log.tail = l.length + (fuel + 1) := by
      refine ⟨log.tail - l.length - 1, ?_⟩
      simp only [List.length_append, List.length_cons] at hlen
      omega
    rw [hfuel, recoverLoop_entries (b := m) (by omega) (fun x hx => hcomplete x (by simp [hx])) hl
      (fuel + 1) hconsl (fun x hx => hready x (by
        obtain ⟨y, hy, rfl⟩ := List.mem_map.mp (by simpa using hx)
        simp only [List.map_append, List.mem_append]
        exact Or.inl (List.mem_map_of_mem hy))),
      recoverLoop_succ (by simpa [RecoverState.advance] using by omega)] at hrun
    -- the iteration at the entry leaves the cursor one line too far
    cases hstep : recoverStep play parentReady log
        (RecoverState.advance ⟨a, [], ⟨p, [], []⟩⟩ l m) with
    | error f =>
      rw [hstep] at hrun
      cases hrun
    | ok st₁ =>
    rw [hstep] at hrun
    obtain ⟨v, hscan, hvis₁, -⟩ := recoverStep_ok hstep
    have hoff : (RecoverState.advance ⟨a, [], ⟨p, [], []⟩⟩ l m).ptr = e.offset := by
      simpa [RecoverState.advance] using hconse.1.symm
    rw [hoff, scanEntry_of_complete (hcomplete e (by simp)), LogEntry.next_of_fillsLine he] at hscan
    obtain ⟨rfl, hnextPtr⟩ := Prod.mk.inj (Except.ok.inj hscan)
    simp only [RecoverState.advance, List.nil_append] at hvis₁
    have hnext : e.offset + e.size ≤ log.tail := by
      have := Consecutive.lines_le hconse.2
      have := hconse.1
      omega
    change recoverLoop play parentReady log fuel st₁ = .ok st at hrun
    by_cases hlt : st₁.ptr < log.tail
    · -- the next offset visited is one line behind the next entry
      obtain ⟨v, vs, hv, hvis'⟩ := recoverLoop_ok_head hrun hlt
      rw [hvis', hvis₁] at hvis
      simp only [List.map_append, List.map_cons, List.append_assoc, List.singleton_append,
        List.append_cancel_left_eq, List.cons.injEq, true_and] at hvis
      cases t with
      | nil =>
        have hend : m + e.size = log.tail := hconse.2
        have := hconse.1
        omega
      | cons f t =>
        have hf : f.offset = m + e.size := hconse.2.1
        have hvf : v.offset = f.offset := by
          have := (List.cons.inj hvis).1
          rw [this]
          rfl
        have := hconse.1
        simp only [cacheLineWidth] at hnextPtr
        omega
    · -- the cursor has jumped to or over the tail
      rw [recoverLoop_done (by omega)] at hrun
      cases hrun
      simp only [cacheLineWidth] at hnextPtr
      cases t with
      | nil =>
        have hend : m + e.size = log.tail := hconse.2
        have := hconse.1
        omega
      | cons f t =>
        have := congrArg List.length (hvis₁.symm.trans hvis)
        simp at this
  · intro hline
    have hfuel : log.tail = es.length + (log.tail - es.length) := by omega
    rw [hfuel, recoverLoop_entries le_rfl hcomplete hline _ hcons (by simpa using hready),
      recoverLoop_done (by simp [RecoverState.advance])]
    exact ⟨_, rfl, by simp [RecoverState.advance], by simp [RecoverState.advance, ← hfuel]⟩

/-- An entry fills its last line exactly when it is an outer-most transaction whose argument
length is 40 modulo 64. -/
theorem callEntries_fillsLine_iff {a : ℕ} {cs : List (LogCall play)} {g : LogEntry → ℕ} :
    (∀ e ∈ withIds g (callEntries a cs), ¬ e.FillsLine) ↔
      ∀ c ∈ cs, isNested c.tag = false → c.args.length % 64 ≠ 40 := by
  induction cs generalizing a with
  | nil => simp [callEntries, withIds]
  | cons c cs ih =>
    have hrest := ih (a := a + entrySize c.vector)
    simp only [withIds] at hrest
    simp only [callEntries, withIds, List.map_cons, List.forall_mem_cons, hrest]
    refine and_congr_left fun _ => ?_
    simp only [LogEntry.FillsLine, LogEntry.length, cacheLineWidth]
    cases hn : isNested c.tag with
    | true =>
      have := c.nested_ok hn
      simp [this]
    | false =>
      simp only [forall_const]
      omega

/-- The records of the calls logged at `offs` and committed in the order `order`. -/
def callRecords (offs order : List ℕ) (calls : List (LogCall play)) : List CommitRecord :=
  List.zipWith (fun off c => ⟨off + 24, order.idxOf off + 1, c.tag⟩) offs calls

/-- **Scan and append agree except at full lines.** After any appends that fit a new log and the
commits of all their entries in any order, the scan of `PersistentObject::Recover` from the head
reads back exactly the appended entries and stops at the tail if and only if no outer-most
transaction was logged with an argument length of 40 modulo 64. The waits of the nested entries for
their parents have to return. -/
theorem scan_reads_back_iff (parentReady : CommitRecord → Bool) (id : Uuid) (size lastPlayed : ℕ)
    (calls : List (LogCall play)) (offs order : List ℕ) (log log' : RedoLog)
    (happend : appendAll (savitarLogCreate id size) (calls.map LogCall.vector) = some (offs, log))
    (horder : order.Perm offs) (hcommit : commitAll log order = some log')
    (hready : ParentsReady parentReady lastPlayed (callRecords offs order calls)) :
    ScanReadsBack play parentReady log' lastPlayed offs order calls ↔
      ∀ c ∈ calls, isNested c.tag = false → c.args.length % 64 ≠ 40 := by
  obtain ⟨hoffs, happ⟩ := appendAll_spec (fun _ _ => rfl) happend
  obtain ⟨hentry, htail, hsize, hhead⟩ := commitAll_spec happ.consecutive happ.entryAt
    (fun o ho => List.mem_map.mp (hoffs ▸ horder.mem_iff.mp ho))
    (horder.nodup_iff.mpr (hoffs ▸ happ.consecutive.nodup_starts
      fun e _ => lt_of_lt_of_le (by decide) e.size_ge)) hcommit
  set es := callEntries (savitarLogCreate id size).tail calls with hes
  -- every entry got the id of its turn
  have hids : ∀ e ∈ es, EntryAt log'.data e.offset (order.idxOf e.offset + 1) e.tag e.args := by
    intro e he
    have hmem : e.offset ∈ order := horder.mem_iff.mpr (hoffs ▸ List.mem_map_of_mem he)
    have h := hentry e he
    rw [if_pos hmem, happ.lastCommit_eq] at h
    simpa [savitarLogCreate] using h
  let g : LogEntry → ℕ := fun e => order.idxOf e.offset + 1
  have hcomplete : ∀ e ∈ withIds g es, e.Complete play log' := by
    intro e he
    obtain ⟨e', he', rfl⟩ := List.mem_map.mp he
    obtain ⟨c, -, htag, hargs⟩ := mem_callEntries he'
    have hfits : e'.offset + e'.length ≤ log'.size := by
      rw [hsize, happ.size_eq]
      exact le_trans (Nat.add_le_add_left e'.length_le_size _) (happ.fits e' he')
    refine ⟨⟨hids e' he', hfits⟩, ?_⟩
    have hbytes := (hids e' he').args_eq
    dsimp only
    rw [htag, hargs]
    refine c.processed (hargs ▸ hbytes) ?_
    simp only [LogEntry.length, hargs] at hfits
    omega
  have hcons : Consecutive log'.head (withIds g es) log'.tail := by
    rw [hhead, happ.head_eq, htail]
    exact happ.consecutive.withIds
  have hrecords : (withIds g es).map LogEntry.record = callRecords offs order calls := by
    have hvisits := congrArg (List.map Visit.toRecord) (visits_callEntries
      (fun x => order.idxOf x + 1) (savitarLogCreate id size).tail calls)
    rw [List.map_map, List.map_zipWith, ← hes, ← hoffs] at hvisits
    exact hvisits
  rw [ScanReadsBack, ← callEntries_fillsLine_iff (g := g),
    ← recoverLoop_reads_back_iff hcomplete (hrecords ▸ hready) hcons,
    visits_callEntries (fun x => order.idxOf x + 1), ← hes, hoffs]

/-! ## `PersistentVector::push_back`

The calls of a container of the benchmark suite: the method logs its tag and a C string, and its
dry run returns the length of the string with its terminator.
-/

/-- The dry run of `PersistentVector::Play` (`PushBackTag` is 1; any other tag fails its
assertion). -/
def vectorPlay : DryRun where
  run := fun tag m n =>
    if tag = 1 then
      match strlenWithin m 0 n with
      | some len => .ok (len + 1)
      | none => .error .unmapped
    else .error .assertion
  reads := fun h => by rw [strlenWithin_congr fun i hi => by simpa using h i hi]
  mono := fun hle h => by
    split at h
    · rename_i htag
      split at h
      · rename_i len hlen
        simp only [if_pos htag, strlenWithin_mono hle hlen]
      · exact absurd rfl h
    · rename_i htag
      simp only [if_neg htag]

/-- The append made by `push_back` of a string without embedded zeros. -/
def pushBackCall (s : List UInt8) (hs : 0 ∉ s) : LogCall vectorPlay where
  vector := [bytesLE 1 8, s ++ [0]]
  tag := 1
  args := s ++ [0]
  vector_ne := by simp
  tag_lt := by decide
  flatten_eq := by simp
  args_ok := fun _ m hm => by
    have hlen : strlenWithin m 0 (s ++ [0]).length = some s.length := strlenWithin_eq hs (by simp) hm
    simp only [vectorPlay, hlen]
    simp
  nested_ok := fun h => by cases h

/-- `push_back("A")` twice, committed in reverse order, is read back. -/
theorem scan_reads_back_push_back :
    ∃ offs log log', appendAll (savitarLogCreate 0 1024)
        ([pushBackCall [65] (by decide),
          pushBackCall [65] (by decide)].map LogCall.vector) = some (offs, log) ∧
      commitAll log offs.reverse = some log' ∧
      ScanReadsBack vectorPlay (fun _ => true) log' 0 offs offs.reverse
        [pushBackCall [65] (by decide), pushBackCall [65] (by decide)] := by
  refine ⟨_, _, _, rfl, rfl, ?_⟩
  exact (scan_reads_back_iff (fun _ => true) 0 1024 0 _ _ _ _ _ rfl (List.reverse_perm _) rfl
    (parentsReady_true _ _)).mpr (by decide)

/-- A string of 39 characters makes an entry of exactly one cache line: the scan steps over the
entry behind it and never reads it. -/
theorem scan_skips_behind_full_line :
    ∃ offs log log', appendAll (savitarLogCreate 0 1024)
        ([pushBackCall (List.replicate 39 65) (by decide),
          pushBackCall [65] (by decide)].map LogCall.vector) = some (offs, log) ∧
      commitAll log offs = some log' ∧
      ¬ ScanReadsBack vectorPlay (fun _ => true) log' 0 offs offs
        [pushBackCall (List.replicate 39 65) (by decide),
          pushBackCall [65] (by decide)] := by
  refine ⟨_, _, _, rfl, rfl, ?_⟩
  rintro ⟨st, hrun, hvis, -⟩
  have hlen := congrArg (Except.map fun st => st.visited.length) hrun
  simp only [Except.map, hvis] at hlen
  revert hlen
  decide

end Pronto
