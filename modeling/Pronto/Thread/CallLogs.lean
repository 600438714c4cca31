import Pronto.Thread.Durable

/-!
# The logs of nested calls

What the steps of the two threads do to the logs, apart from the threads. Every call with an entry
has a phase in the sense of `Pronto.Log.Machine`; a log together with the phases of its entries is a
state of that machine, and a step of a thread is one of its steps. The calls that are open or being
committed form a chain in which each is nested in the one before, and only the innermost of them
ever gets a commit id: a call with a commit id has no open descendants.
-/

namespace Pronto

open Function Memory Tiling

/-- The append of the entry has returned. -/
def Phase.isAppended : Phase → Bool
  | .writing _ | .drained | .found _ => false
  | _ => true

/-- What a phase says about the durable log, beyond the bytes of the entry. -/
def LoggedEntry.Durable (e : LoggedEntry) (durable : RedoLog) : Phase → Prop
  | .writing _ | .drained => True
  | .appended => e.offset + entrySize e.vector ≤ durable.tail
  | .taken id | .stored id => e.offset + entrySize e.vector ≤ durable.tail ∧ id ≠ 0
  | .committed id =>
    e.offset + entrySize e.vector ≤ durable.tail ∧ id ≠ 0 ∧ load durable.data e.offset 8 = id
  | .found _ => False

/-- The entry as a transaction in its phase. -/
def LoggedEntry.tx (ph : ℕ → Phase) (e : LoggedEntry) : Tx := ⟨e.offset, e.vector, ph e.call⟩

/-- What the logs held when the thread began: extents from behind the header to their tails. -/
structure OldEntries where
  txs : ℕ → List Tx
  tail : ℕ → ℕ
  tiles : ∀ o, Tiles Tx.offset Tx.size redoLogHeaderSize (txs o) (tail o)

/-- The log of `o` as a state of the machine of a single log. Its file is not opened again. -/
def CallState.logOf (s : CallState) (old : OldEntries) (ph : ℕ → Phase) (o : ℕ) : LogState :=
  ⟨bif s.aborted then .aborted else .running, 0, s.logs o, s.durable o,
    old.txs o ++ (s.entries o).map (LoggedEntry.tx ph)⟩

/-- The logs hold what the phases say, and the calls that are open or, at most one, `leaving` are
nested in each other. -/
structure CallLogs (env : Objects) (old : OldEntries) (s : CallState) (leaving : Option ℕ)
    (ph : ℕ → Phase) : Prop where
  holes : ∀ o, (s.logOf old ph o).Holes
  bytes : ∀ o, (s.logOf old ph o).Bytes true
  old_le : ∀ o, old.tail o ≤ (s.durable o).tail
  durable : ∀ o, ∀ e ∈ s.entries o, e.Durable (s.durable o) (ph e.call)
  nodup : ∀ o, ((s.entries o).map LoggedEntry.call).Nodup
  unique : ∀ o o', ∀ e ∈ s.entries o, ∀ e' ∈ s.entries o', e.call = e'.call → o = o'
  call_lt : ∀ o, ∀ e ∈ s.entries o, e.call < s.announced
  live_lt : ∀ c ∈ s.opened ++ leaving.toList, c < s.announced
  /-- Each live call is nested in the one before it. -/
  chain : ∀ j c, (s.opened ++ leaving.toList)[j]? = some c →
    s.parent c = if j = 0 then none else (s.opened ++ leaving.toList)[j - 1]?
  /-- A call that is not live is committed. -/
  closed : ∀ o, ∀ e ∈ s.entries o, (∃ id, ph e.call = .committed id) ∨
    e.call ∈ s.opened ++ leaving.toList
  /-- Open calls have no commit id. -/
  open_hole : ∀ o, ∀ e ∈ s.entries o, e.call ∈ s.opened → (ph e.call).hole = 0
  /-- A nested entry names the entry of its parent, whose append has returned. -/
  parent_entry : ∀ o, ∀ e ∈ s.entries o, ∀ p, s.parent e.call = some p →
    ∃ o', ∃ e' ∈ s.entries o', e'.call = p ∧ e.vector = parentVector env o' e'.offset ∧
      (ph p).isAppended = true

section

variable {env : Objects} {old : OldEntries} {s : CallState} {leaving leaving' : Option ℕ}
  {ph : ℕ → Phase} {o : ℕ} {e : LoggedEntry}

/-- An entry of the thread is a transaction of the log. -/
theorem CallState.mem_logOf (he : e ∈ s.entries o) : e.tx ph ∈ (s.logOf old ph o).txs :=
  List.mem_append_right _ (List.mem_map_of_mem he)

/-! ## What the invariant says about the durable logs -/

theorem LoggedEntry.Durable.tail_le {durable : RedoLog} {p : Phase} (h : e.Durable durable p)
    (hp : p.isAppended = true) : e.offset + entrySize e.vector ≤ durable.tail := by
  cases p with
  | appended => exact h
  | taken | stored | committed => exact h.1
  | _ => cases hp

theorem Phase.isDrained_of_isAppended {p : Phase} (h : p.isAppended = true) : p.isDrained = true := by
  cases p <;> first | rfl | cases h

namespace CallLogs

variable (h : CallLogs env old s leaving ph)

include h

/-- All bytes of an appended entry are durable. -/
theorem complete (he : e ∈ s.entries o) (hp : (ph e.call).isAppended = true) :
    e.Complete (s.durable o) := by
  refine ⟨(h.durable o e he).tail_le hp, List.ext_getElem (by simp) fun i hi hi' => ?_⟩
  rw [getElem_bytes]
  have hbyte := (h.bytes o).durable rfl (e.tx ph) (CallState.mem_logOf he)
    (Phase.isDrained_of_isAppended hp) i hi'
  exact Option.some.inj (hbyte.symm.trans (List.getElem?_eq_getElem hi'))

/-- A commit id in the durable log has been stored by the commit of the call. -/
theorem hole_ne_zero (he : e ∈ s.entries o) (hid : s.commitId o e ≠ 0) : (ph e.call).hole ≠ 0 := by
  intro hzero
  rcases (h.holes o).durable (e.tx ph) (CallState.mem_logOf he) with hload | hload
  · exact hid (hload.trans hzero)
  · exact hid hload

theorem isAppended_of_hole (he : e ∈ s.entries o) (hhole : (ph e.call).hole ≠ 0) :
    (ph e.call).isAppended = true := by
  have hdurable := h.durable o e he
  cases hp : ph e.call with
  | stored | committed => rfl
  | found => rw [hp] at hdurable; exact hdurable.elim
  | _ => rw [hp] at hhole; exact absurd rfl hhole

theorem commitId_of_committed (he : e ∈ s.entries o) {id : ℕ} (hp : ph e.call = .committed id) :
    s.commitId o e ≠ 0 := by
  have hdurable := h.durable o e he
  rw [hp] at hdurable
  rw [CallState.commitId, hdurable.2.2]
  exact hdurable.2.1

/-- Whatever is live is nested in an open call. -/
theorem parent_opened {c p : ℕ} (hc : c ∈ s.opened ++ leaving.toList) (hp : s.parent c = some p) :
    p ∈ s.opened := by
  obtain ⟨j, hj⟩ := List.mem_iff_getElem?.mp hc
  rw [h.chain j c hj] at hp
  split at hp
  · cases hp
  · -- at most one call comes behind the open ones
    have hlen : leaving.toList.length ≤ 1 := by cases leaving <;> simp
    have hlt := (List.getElem?_eq_some_iff.mp hj).1
    rw [List.length_append] at hlt
    rw [List.getElem?_append_left (by omega)] at hp
    exact List.mem_of_getElem? hp

/-- A call nested in one with a commit id has a commit id. -/
theorem commitId_child (he : e ∈ s.entries o) (hid : s.commitId o e ≠ 0) {o' : ℕ}
    {e' : LoggedEntry} (he' : e' ∈ s.entries o') (hp : s.parent e'.call = some e.call) :
    s.commitId o' e' ≠ 0 := by
  rcases h.closed o' e' he' with ⟨id, hcommitted⟩ | hlive
  · exact h.commitId_of_committed he' hcommitted
  · have hopen := h.parent_opened hlive hp
    exact absurd (h.open_hole o e he hopen) (h.hole_ne_zero he hid)

theorem commitId_descendant (he : e ∈ s.entries o) (hid : s.commitId o e ≠ 0) {c : ℕ}
    (hdesc : s.Descends c e.call) {o' : ℕ} {e' : LoggedEntry} (he' : e' ∈ s.entries o')
    (hc : e'.call = c) : s.commitId o' e' ≠ 0 := by
  -- from the ancestor down: the parent on the way has an entry because its child has one
  induction hdesc using Relation.TransGen.head_induction_on generalizing o' e' with
  | single hp => exact h.commitId_child he hid he' (hc ▸ hp)
  | head hp _ ih =>
    rw [← hc] at hp
    obtain ⟨q, b, hb, hcall, -, -⟩ := h.parent_entry o' e' he' _ hp
    exact h.commitId_child hb (ih hb hcall) he' (hcall ▸ hp)

/-- The durable tail is at a boundary between the entries of the session. -/
theorem durable_tiles (o : ℕ) : ∃ n, Tiles LoggedEntry.offset (fun e => entrySize e.vector)
    (old.tail o) ((s.entries o).take n) (s.durable o).tail := by
  obtain ⟨n, hn⟩ := (h.holes o).layout.durable
  have hn' : Tiles Tx.offset Tx.size redoLogHeaderSize
      ((old.txs o).take n ++ ((s.entries o).map (LoggedEntry.tx ph)).take (n - (old.txs o).length))
      (s.durable o).tail := by
    rw [← List.take_append]
    exact hn
  obtain ⟨m, hold, hnew⟩ := tiles_append.mp hn'
  have hm : m = old.tail o := by
    have htiles := old.tiles o
    rcases Nat.lt_or_ge n (old.txs o).length with hlt | hge
    · -- the tail would be in front of an entry of an earlier session
      rw [Nat.sub_eq_zero_of_le hlt.le, List.take_zero] at hnew
      rw [← List.take_append_drop n (old.txs o)] at htiles
      obtain ⟨m', htake, hdrop⟩ := tiles_append.mp htiles
      obtain rfl := htake.end_unique hold
      exact le_antisymm hdrop.le (hnew ▸ h.old_le o)
    · rw [List.take_of_length_le hge] at hold
      exact hold.end_unique htiles
  refine ⟨n - (old.txs o).length, hm ▸ hnew.congr ?_⟩
  simp only [List.map_take, List.map_map]
  rfl

/-- **What recovery relies on follows from the invariant.** -/
theorem nestedCommits : s.NestedCommits env old.tail where
  logs := h.durable_tiles
  nested := by
    intro o e he hid p hp
    have happended := h.isAppended_of_hole he (h.hole_ne_zero he hid)
    obtain ⟨o', e', he', hcall, hvector, hparent⟩ := h.parent_entry o e he p hp
    exact ⟨h.complete he happended, o', e', he', hcall, hvector,
      h.complete he' (hcall ▸ hparent)⟩
  descendants := by
    intro o e he hid o' e' he' hdesc
    exact h.commitId_descendant he hid hdesc he' rfl

end CallLogs

/-! ## Steps of one log -/

/-- Replace the log of an object. -/
def CallState.setLog (s : CallState) (o : ℕ) (log : RedoLog) : CallState :=
  { s with logs := Function.update s.logs o log }

/-- Write lines of the log of `o` back. -/
def CallState.writeBack (s : CallState) (o : ℕ) (lines : ℕ → Bool) : CallState :=
  { s with
    durable := Function.update s.durable o (Pronto.writeBack lines (s.logs o) (s.durable o)) }

/-- What is known of an entry stays true when lines are written back. -/
theorem LoggedEntry.Durable.writeBack {lines : ℕ → Bool} {log durable : RedoLog} {p : Phase}
    (h : e.Durable durable p) (htail : e.offset + entrySize e.vector ≤ log.tail)
    (hmod : e.offset % 64 = 0) (hhole : load log.data e.offset 8 = p.hole) :
    e.Durable (Pronto.writeBack lines log durable) p := by
  have htail' : e.offset + entrySize e.vector ≤ durable.tail →
      e.offset + entrySize e.vector ≤ (Pronto.writeBack lines log durable).tail := by
    rcases writeBack_tail lines log durable with heq | heq
    · exact fun hle => heq ▸ hle
    · exact fun _ => heq ▸ htail
  cases p with
  | appended => exact htail' h
  | taken | stored => exact ⟨htail' h.1, h.2⟩
  | committed id =>
    refine ⟨htail' h.1, h.2.1, ?_⟩
    rw [load_writeBack hmod]
    split
    · exact hhole
    · exact h.2.2
  | _ => exact h

namespace CallLogs

theorem logOf_writeBack (lines : ℕ → Bool) :
    (s.writeBack o lines).logOf old ph o =
      { s.logOf old ph o with durable := Pronto.writeBack lines (s.logs o) (s.durable o) } := by
  simp only [CallState.logOf, CallState.writeBack, update_self]

/-- The other logs stay. -/
theorem logOf_writeBack_of_ne (lines : ℕ → Bool) {o' : ℕ} (hne : o' ≠ o) :
    (s.writeBack o lines).logOf old ph o' = s.logOf old ph o' := by
  simp only [CallState.logOf, CallState.writeBack, update_of_ne hne]

/-- An entry lies below the tail, at a line of its own. -/
theorem entry_bounds (h : CallLogs env old s leaving ph) (he : e ∈ s.entries o) :
    redoLogHeaderSize ≤ e.offset ∧ e.offset + entrySize e.vector ≤ (s.logs o).tail ∧
      e.offset % 64 = 0 := by
  have hmem : e.tx ph ∈ (s.logOf old ph o).txs := CallState.mem_logOf he
  have hbounds := (h.holes o).layout.tiles.mem_bounds hmem
  exact ⟨hbounds.1, hbounds.2, (h.holes o).layout.aligned.2 _ hmem⟩

/-- The thread only appends. -/
theorem old_le_tail (h : CallLogs env old s leaving ph) : old.tail o ≤ (s.logs o).tail := by
  obtain ⟨m, hold, hnew⟩ := tiles_append.mp (h.holes o).layout.tiles
  obtain rfl := hold.end_unique (old.tiles o)
  exact hnew.le

/-- Lines may be written back at any time. -/
theorem writeBack (h : CallLogs env old s leaving ph) (o : ℕ) (lines : ℕ → Bool) :
    CallLogs env old (s.writeBack o lines) leaving ph where
  holes := by
    intro o'
    rcases eq_or_ne o' o with rfl | hne
    · rw [logOf_writeBack]
      exact (h.holes o').writeBack lines
    · rw [logOf_writeBack_of_ne lines hne]
      exact h.holes o'
  bytes := by
    intro o'
    rcases eq_or_ne o' o with rfl | hne
    · rw [logOf_writeBack]
      exact (h.bytes o').writeBack lines
    · rw [logOf_writeBack_of_ne lines hne]
      exact h.bytes o'
  old_le := by
    intro o'
    rcases eq_or_ne o' o with rfl | hne
    · simp only [CallState.writeBack, update_self]
      rcases writeBack_tail lines (s.logs o') (s.durable o') with heq | heq
      · exact heq ▸ h.old_le o'
      · exact heq ▸ h.old_le_tail
    · simp only [CallState.writeBack, update_of_ne hne]
      exact h.old_le o'
  durable := by
    intro o' e he
    have hold := h.durable o' e he
    rcases eq_or_ne o' o with rfl | hne
    · obtain ⟨-, htail, hmod⟩ := h.entry_bounds he
      simp only [CallState.writeBack, update_self]
      exact hold.writeBack htail hmod ((h.holes o').hole (e.tx ph) (CallState.mem_logOf he))
    · simp only [CallState.writeBack, update_of_ne hne]
      exact hold
  nodup := h.nodup
  unique := h.unique
  call_lt := h.call_lt
  live_lt := h.live_lt
  chain := h.chain
  closed := h.closed
  open_hole := h.open_hole
  parent_entry := h.parent_entry

/-- The transactions of a log, with that of one call split off; the phase of the call does not
matter to the others. -/
theorem txs_split (h : CallLogs env old s leaving ph) (he : e ∈ s.entries o) :
    ∃ l r, ∀ q, old.txs o ++ (s.entries o).map (LoggedEntry.tx (Function.update ph e.call q)) =
      l ++ ⟨e.offset, e.vector, q⟩ :: r := by
  obtain ⟨l, r, hsplit⟩ := List.append_of_mem he
  refine ⟨old.txs o ++ l.map (LoggedEntry.tx ph), r.map (LoggedEntry.tx ph), fun q => ?_⟩
  have hnodup := h.nodup o
  rw [hsplit, List.map_append, List.map_cons, List.nodup_middle, List.nodup_cons] at hnodup
  have hother : ∀ x ∈ l ++ r, LoggedEntry.tx (Function.update ph e.call q) x = x.tx ph := by
    intro x hx
    have hne : x.call ≠ e.call := by
      intro heq
      exact hnodup.1 (by rw [← List.map_append, ← heq]; exact List.mem_map_of_mem hx)
    rw [LoggedEntry.tx, update_of_ne hne]
    rfl
  rw [hsplit, List.map_append, List.map_cons,
    List.map_congr_left fun x hx => hother x (List.mem_append_left r hx),
    List.map_congr_left fun x hx => hother x (List.mem_append_right l hx), LoggedEntry.tx,
    update_self, List.append_assoc]

/-- A step of the call of entry `e`: the call gets the phase `q` and its log the program's view
`log`. The log is in order by the lemmas about a single log. -/
theorem setPhase (h : CallLogs env old s leaving ph) (he : e ∈ s.entries o) (log : RedoLog) {q : Phase}
    (hlog : ∀ l r, (s.logOf old ph o).txs = l ++ ⟨e.offset, e.vector, ph e.call⟩ :: r →
      ({ s.logOf old ph o with log := log, txs := l ++ ⟨e.offset, e.vector, q⟩ :: r } :
        LogState).Holes ∧
      ({ s.logOf old ph o with log := log, txs := l ++ ⟨e.offset, e.vector, q⟩ :: r } :
        LogState).Bytes true)
    (hq : e.Durable (s.durable o) q)
    (happended : (ph e.call).isAppended = true → q.isAppended = true)
    (hopen : e.call ∈ s.opened → q.hole = 0)
    (hclosed : (∃ id, ph e.call = .committed id) → ∃ id, q = .committed id) :
    CallLogs env old (s.setLog o log) leaving (Function.update ph e.call q) := by
  obtain ⟨l, r, hsplit⟩ := h.txs_split he
  have htxs : (s.logOf old ph o).txs = l ++ ⟨e.offset, e.vector, ph e.call⟩ :: r := by
    rw [← hsplit, update_eq_self]
    rfl
  have hself : (s.setLog o log).logOf old (Function.update ph e.call q) o =
      { s.logOf old ph o with log := log, txs := l ++ ⟨e.offset, e.vector, q⟩ :: r } := by
    simp only [CallState.logOf, CallState.setLog, update_self, hsplit]
  -- an entry of another call, or the one whose phase changes
  have hother : ∀ o', ∀ x ∈ s.entries o', x.call ≠ e.call ∨ o' = o ∧ x = e := by
    intro o' x hx
    rcases eq_or_ne x.call e.call with hcall | hne
    · obtain rfl := h.unique o' o x hx e he hcall
      exact Or.inr ⟨rfl, List.inj_on_of_nodup_map (h.nodup o') hx he hcall⟩
    · exact Or.inl hne
  have hframe : ∀ o', o' ≠ o →
      (s.setLog o log).logOf old (Function.update ph e.call q) o' = s.logOf old ph o' := by
    intro o' hne
    have hmap : (s.entries o').map (LoggedEntry.tx (Function.update ph e.call q)) =
        (s.entries o').map (LoggedEntry.tx ph) := by
      refine List.map_congr_left fun x hx => ?_
      rcases hother o' x hx with hcall | ⟨heq, -⟩
      · rw [LoggedEntry.tx, update_of_ne hcall]
        rfl
      · exact absurd heq hne
    simp only [CallState.logOf, CallState.setLog, update_of_ne hne, hmap]
  refine ⟨?_, ?_, h.old_le, ?_, h.nodup, h.unique, h.call_lt, h.live_lt, h.chain, ?_, ?_, ?_⟩
  · intro o'
    rcases eq_or_ne o' o with rfl | hne
    · rw [hself]
      exact (hlog l r htxs).1
    · rw [hframe o' hne]
      exact h.holes o'
  · intro o'
    rcases eq_or_ne o' o with rfl | hne
    · rw [hself]
      exact (hlog l r htxs).2
    · rw [hframe o' hne]
      exact h.bytes o'
  · intro o' x hx
    rcases hother o' x hx with hcall | ⟨rfl, rfl⟩
    · rw [update_of_ne hcall]
      exact h.durable o' x hx
    · rw [update_self]
      exact hq
  · intro o' x hx
    rcases hother o' x hx with hcall | ⟨rfl, rfl⟩
    · rw [update_of_ne hcall]
      exact h.closed o' x hx
    · rw [update_self]
      exact (h.closed o' x hx).imp_left hclosed
  · intro o' x hx hmem
    rcases hother o' x hx with hcall | ⟨rfl, rfl⟩
    · rw [update_of_ne hcall]
      exact h.open_hole o' x hx hmem
    · rw [update_self]
      exact hopen hmem
  · intro o' x hx p hp
    obtain ⟨o'', x', hx', hcall, hvector, hparent⟩ := h.parent_entry o' x hx p hp
    refine ⟨o'', x', hx', hcall, hvector, ?_⟩
    rcases eq_or_ne p e.call with rfl | hne
    · rw [update_self]
      exact happended hparent
    · rw [update_of_ne hne]
      exact hparent

/-- A change of the phase only. -/
theorem setPhase_only (h : CallLogs env old s leaving ph) (he : e ∈ s.entries o) {q : Phase}
    (hlog : ∀ l r, (s.logOf old ph o).txs = l ++ ⟨e.offset, e.vector, ph e.call⟩ :: r →
      ({ s.logOf old ph o with txs := l ++ ⟨e.offset, e.vector, q⟩ :: r } : LogState).Holes ∧
      ({ s.logOf old ph o with txs := l ++ ⟨e.offset, e.vector, q⟩ :: r } : LogState).Bytes true)
    (hq : e.Durable (s.durable o) q)
    (happended : (ph e.call).isAppended = true → q.isAppended = true)
    (hopen : e.call ∈ s.opened → q.hole = 0)
    (hclosed : (∃ id, ph e.call = .committed id) → ∃ id, q = .committed id) :
    CallLogs env old s leaving (Function.update ph e.call q) := by
  have hset := h.setPhase he (s.logs o) hlog hq happended hopen hclosed
  rwa [CallState.setLog, update_eq_self] at hset

theorem logOf_mode (hrun : s.aborted = false) : (s.logOf old ph o).mode = .running := by
  simp only [CallState.logOf, hrun, cond_false]

/-! ### The append -/

/-- A store of the append, behind the bytes `pre`. -/
theorem write (h : CallLogs env old s leaving ph) (hrun : s.aborted = false) (he : e ∈ s.entries o)
    (pre bs post : List UInt8) (hph : ph e.call = .writing pre.length)
    (hsplit : entryBytes e.vector = pre ++ bs ++ post) :
    CallLogs env old
      (s.setLog o
        { s.logs o with data := Memory.store (s.logs o).data (e.offset + 8 + pre.length) bs })
      leaving (Function.update ph e.call (.writing (pre.length + bs.length))) := by
  have hlen : pre.length + bs.length ≤ (entryBytes e.vector).length := by
    rw [hsplit, List.length_append, List.length_append]
    omega
  have hsize : 8 + (entryBytes e.vector).length ≤ entrySize e.vector :=
    Tx.length_le_size ⟨e.offset, e.vector, .drained⟩
  refine h.setPhase he _ (fun l r htxs => ?_) trivial (by simp [hph, Phase.isAppended])
    (fun _ => rfl) (by simp [hph])
  rw [hph] at htxs
  constructor
  · refine (h.holes o).storeBytes htxs (by omega) (by omega) (logOf_mode hrun) (by simp) ?_
      (Or.inl rfl)
    rw [load_store_of_disjoint (by omega)]
    exact (h.holes o).hole ⟨e.offset, e.vector, .writing pre.length⟩ (by simp [htxs])
  · refine (h.bytes o).storeBytes htxs (by omega) (by omega) (fun i hi => ?_) rfl
    rcases Nat.lt_or_ge i pre.length with hlt | hge
    · rw [store_of_lt (by omega)]
      exact (h.bytes o).written ⟨e.offset, e.vector, .writing pre.length⟩ (by simp [htxs]) i hlt
    · obtain ⟨j, rfl⟩ := Nat.exists_eq_add_of_le hge
      have hj : j < bs.length := Nat.lt_of_add_lt_add_left hi
      rw [← Nat.add_assoc, store_add hj, hsplit, List.append_assoc,
        List.getElem?_append_right (Nat.le_add_right _ _), Nat.add_sub_cancel_left,
        List.getElem?_append_left hj, List.getElem?_eq_getElem hj]

/-- `pmem_drain` has returned. -/
theorem drain (h : CallLogs env old s leaving ph) (hrun : s.aborted = false) (he : e ∈ s.entries o)
    (hph : ph e.call = .writing (entryBytes e.vector).length) :
    CallLogs env old (s.writeBack o (covers (e.offset + 8) (entryBytes e.vector).length)) leaving
      (Function.update ph e.call .drained) := by
  refine (h.writeBack o _).setPhase_only he (fun l r htxs => ?_) trivial
    (by simp [hph, Phase.isAppended]) (fun _ => rfl) (by simp [hph])
  rw [hph] at htxs
  have hmode : (CallState.logOf (s.writeBack o
      (covers (e.offset + 8) (entryBytes e.vector).length)) old ph o).mode = .running := logOf_mode hrun
  refine ⟨((h.writeBack o _).holes o).replace (q := .drained) htxs rfl (by simp) hmode rfl rfl rfl
    rfl, ((h.writeBack o _).bytes o).drained hmode htxs fun _ i hi => ?_⟩
  rw [logOf_writeBack]
  exact (h.bytes o).durable_persist htxs hi

/-- The tail is persisted, and with it the append has returned. -/
theorem persistTail (h : CallLogs env old s leaving ph) (hrun : s.aborted = false)
    (he : e ∈ s.entries o) (hph : ph e.call = .drained) :
    CallLogs env old (s.writeBack o (covers tailFieldOffset 8)) leaving
      (Function.update ph e.call .appended) := by
  refine (h.writeBack o _).setPhase_only he (fun l r htxs => ?_) ?_
    (by simp [hph, Phase.isAppended]) (fun _ => rfl) (by simp [hph])
  · rw [hph] at htxs
    exact ⟨((h.writeBack o _).holes o).replace (q := .appended) htxs rfl (by simp)
      (logOf_mode hrun) rfl rfl rfl rfl, ((h.writeBack o _).bytes o).replace (q := .appended) htxs
      (fun _ => rfl) rfl id rfl ⟨rfl, rfl, rfl⟩ rfl rfl⟩
  · -- the tail is in the line of the header
    obtain ⟨-, htail, -⟩ := h.entry_bounds he
    simp only [CallState.writeBack, update_self]
    exact htail

/-! ### The commit -/

/-- The commit takes an id. -/
theorem take (h : CallLogs env old s leaving ph) (hrun : s.aborted = false) (he : e ∈ s.entries o)
    (hph : ph e.call = .appended) (hid : (s.logs o).lastCommit + 1 < uint64Max) :
    CallLogs env old (s.setLog o { s.logs o with lastCommit := (s.logs o).lastCommit + 1 }) leaving
      (Function.update ph e.call (.taken ((s.logs o).lastCommit + 1))) := by
  have hdurable := h.durable o e he
  rw [hph] at hdurable
  refine h.setPhase he _ (fun l r htxs => ?_) ⟨hdurable, Nat.succ_ne_zero _⟩ (fun _ => rfl)
    (fun _ => rfl) (by simp [hph])
  rw [hph] at htxs
  refine ⟨(h.holes o).replace (q := .taken _) htxs rfl (fun _ id hq => ?_) (logOf_mode hrun) rfl
    rfl rfl rfl, (h.bytes o).replace (q := .taken _) htxs (fun _ => rfl) rfl id rfl
    ⟨rfl, rfl, rfl⟩ rfl rfl⟩
  cases hq
  exact hid

/-- The commit stores its id. -/
theorem store (h : CallLogs env old s leaving ph) (hrun : s.aborted = false) (he : e ∈ s.entries o)
    (hclosed : e.call ∉ s.opened) {id : ℕ} (hph : ph e.call = .taken id) :
    CallLogs env old
      (s.setLog o { s.logs o with data := Memory.store (s.logs o).data e.offset (bytesLE id 8) })
      leaving (Function.update ph e.call (.stored id)) := by
  have hdurable := h.durable o e he
  rw [hph] at hdurable
  refine h.setPhase he _ (fun l r htxs => ?_) hdurable (fun _ => rfl)
    (fun hopen => absurd hopen hclosed) (by simp [hph])
  rw [hph] at htxs
  have hlt := (h.holes o).id_lt (by simp [logOf_mode hrun]) ⟨e.offset, e.vector, .taken id⟩
    (by simp [htxs]) id rfl
  have hsize : 64 ≤ entrySize e.vector := Tx.size_ge ⟨e.offset, e.vector, .drained⟩
  constructor
  · exact (h.holes o).storeBytes htxs le_rfl (by simp; omega) (logOf_mode hrun) (by simp)
      (load_store_word (lt_trans hlt (by decide))) (Or.inr rfl)
  · refine (h.bytes o).storeBytes htxs le_rfl (by simp; omega) (fun i hi => ?_) rfl
    rw [store_of_ge (by simp)]
    exact (h.bytes o).written ⟨e.offset, e.vector, .taken id⟩ (by simp [htxs]) i hi

/-- The commit id is persisted. -/
theorem persistId (h : CallLogs env old s leaving ph) (hrun : s.aborted = false)
    (he : e ∈ s.entries o) (hclosed : e.call ∉ s.opened) {id : ℕ} (hph : ph e.call = .stored id) :
    CallLogs env old (s.writeBack o (covers e.offset 8)) leaving
      (Function.update ph e.call (.committed id)) := by
  have hback := h.writeBack o (covers e.offset 8)
  have hdurable := hback.durable o e he
  rw [hph] at hdurable
  refine hback.setPhase_only he (fun l r htxs => ?_) ⟨hdurable.1, hdurable.2, ?_⟩ (fun _ => rfl)
    (fun hopen => absurd hopen hclosed) (fun _ => ⟨id, rfl⟩)
  · rw [hph] at htxs
    exact ⟨(hback.holes o).replace (q := .committed id) htxs rfl (by simp) (logOf_mode hrun) rfl
      rfl rfl rfl, (hback.bytes o).replace (q := .committed id) htxs (fun _ => rfl) rfl (fun hm => hm)
      rfl ⟨rfl, rfl, rfl⟩ rfl rfl⟩
  · obtain ⟨-, -, hmod⟩ := h.entry_bounds he
    have hcovers : covers e.offset 8 (e.offset / cacheLineWidth) = true := by
      rw [covers, decide_eq_true_eq]
      simp only [cacheLineWidth]
      omega
    simp only [CallState.writeBack, update_self]
    rw [load_writeBack hmod, if_pos hcovers]
    have hhole := (h.holes o).hole (e.tx ph) (CallState.mem_logOf he)
    rw [LoggedEntry.tx, hph] at hhole
    exact hhole

/-! ### The open calls -/

/-- The commit of the call that was leaving has returned. -/
theorem settle {c : ℕ} (h : CallLogs env old s (some c) ph) {id : ℕ} (hph : ph c = .committed id) :
    CallLogs env old s none ph := by
  refine ⟨h.holes, h.bytes, h.old_le, h.durable, h.nodup, h.unique, h.call_lt, ?_, ?_, ?_, h.open_hole,
    h.parent_entry⟩
  · intro c' hc'
    exact h.live_lt c' (List.mem_append_left _ (by simpa using hc'))
  · intro j c' hj
    rw [Option.toList_none, List.append_nil] at hj ⊢
    have hlt := (List.getElem?_eq_some_iff.mp hj).1
    have hchain := h.chain j c' (by rwa [List.getElem?_append_left hlt])
    rwa [List.getElem?_append_left (by omega)] at hchain
  · intro o e he
    rcases h.closed o e he with hcommitted | hlive
    · exact Or.inl hcommitted
    · rcases List.mem_append.mp hlive with hopen | hleaving
      · exact Or.inr (List.mem_append_left _ hopen)
      · obtain rfl : e.call = c := by simpa using hleaving
        exact Or.inl ⟨id, hph⟩

/-- The innermost open call is closed. -/
theorem leave {c : ℕ} {rest : List ℕ} (h : CallLogs env old s none ph)
    (hopened : s.opened = rest ++ [c]) :
    CallLogs env old { s with opened := s.opened.dropLast } (some c) ph := by
  rw [show s.opened.dropLast = rest by rw [hopened, List.dropLast_concat]]
  have hlive : s.opened ++ (none : Option ℕ).toList = rest ++ (some c).toList := by
    rw [hopened, Option.toList_none, List.append_nil, Option.toList_some]
  refine ⟨h.holes, h.bytes, h.old_le, h.durable, h.nodup, h.unique, h.call_lt, hlive ▸ h.live_lt,
    hlive ▸ h.chain, hlive ▸ h.closed, fun o e he hopen => ?_, h.parent_entry⟩
  exact h.open_hole o e he (hopened ▸ List.mem_append_left _ hopen)

end CallLogs

/-- A call is announced inside the innermost open one. -/
def CallState.announce (s : CallState) : CallState :=
  { s with
    announced := s.announced + 1
    opened := s.opened ++ [s.announced]
    parent := Function.update s.parent s.announced s.opened.getLast? }

/-- A new call is nested in the innermost open one, and has no entry yet. -/
theorem CallLogs.announce (h : CallLogs env old s none ph) : CallLogs env old s.announce none ph := by
  have hopened : ∀ c ∈ s.opened, c < s.announced := by
    intro c hc
    exact h.live_lt c (List.mem_append_left _ hc)
  have hparent : ∀ c, c < s.announced → s.announce.parent c = s.parent c := by
    intro c hc
    exact update_of_ne (Nat.ne_of_lt hc) _ _
  refine ⟨h.holes, h.bytes, h.old_le, h.durable, h.nodup, h.unique, ?_, ?_, ?_, ?_, ?_, ?_⟩
  · intro o e he
    exact Nat.lt_succ_of_lt (h.call_lt o e he)
  · intro c hc
    rw [Option.toList_none, List.append_nil] at hc
    rcases List.mem_append.mp hc with hc | hc
    · exact Nat.lt_succ_of_lt (hopened c hc)
    · obtain rfl := List.mem_singleton.mp hc
      exact Nat.lt_succ_self _
  · intro j c hj
    rw [Option.toList_none, List.append_nil] at hj ⊢
    dsimp only [CallState.announce] at hj ⊢
    rcases Nat.lt_or_ge j s.opened.length with hlt | hge
    · rw [List.getElem?_append_left hlt] at hj
      rw [List.getElem?_append_left (by omega), update_of_ne
        (Nat.ne_of_lt (hopened c (List.mem_of_getElem? hj)))]
      have hchain := h.chain j c (by rw [List.getElem?_append_left hlt]; exact hj)
      rwa [Option.toList_none, List.append_nil] at hchain
    · obtain ⟨hlt, -⟩ := List.getElem?_eq_some_iff.mp hj
      rw [List.length_append, List.length_singleton] at hlt
      obtain rfl : j = s.opened.length := by omega
      obtain rfl : c = s.announced := by simpa using hj.symm
      rw [update_self, List.getLast?_eq_getElem?]
      split
      · rename_i hzero
        rw [List.length_eq_zero_iff.mp hzero]
        rfl
      · rw [List.getElem?_append_left (by omega)]
  · intro o e he
    refine (h.closed o e he).imp_right fun hlive => ?_
    rw [Option.toList_none, List.append_nil] at hlive ⊢
    exact List.mem_append_left _ hlive
  · intro o e he hopen
    rcases List.mem_append.mp hopen with hopen | hnew
    · exact h.open_hole o e he hopen
    · exact absurd (List.mem_singleton.mp hnew) (Nat.ne_of_lt (h.call_lt o e he))
  · intro o e he p hp
    rw [hparent _ (h.call_lt o e he)] at hp
    exact h.parent_entry o e he p hp

/-- An entry is reserved for the call `c`. -/
def CallState.reserve (s : CallState) (o : ℕ) (v : List (List UInt8)) (c : ℕ) : CallState :=
  { s with
    logs := Function.update s.logs o
      { s.logs o with tail := (s.logs o).tail + entrySize v }
    aborted := !decide ((s.logs o).tail + entrySize v ≤ (s.logs o).size)
    entries := Function.update s.entries o (s.entries o ++ [⟨(s.logs o).tail, v, c⟩]) }

theorem CallState.mem_reserve {v : List (List UInt8)} {c o' : ℕ} {x : LoggedEntry} :
    x ∈ (s.reserve o v c).entries o' ↔
      x ∈ s.entries o' ∨ o' = o ∧ x = ⟨(s.logs o).tail, v, c⟩ := by
  rcases eq_or_ne o' o with rfl | hne
  · simp [CallState.reserve]
  · simp [CallState.reserve, hne]

/-- A running log is in order in any other mode. -/
theorem LogState.Holes.setMode {s : LogState} (h : s.Holes) (hmode : s.mode = .running)
    (mode : Mode) : ({ s with mode := mode } : LogState).Holes :=
  ⟨h.layout.congr rfl rfl (Or.inl rfl), h.hole, h.durable,
    fun _ => h.fresh (by rw [hmode]; decide), fun _ => h.id_lt (by simp [hmode])⟩

theorem LogState.Bytes.setMode {s : LogState} (h : s.Bytes true) (hmode : s.mode = .running)
    (mode : Mode) : ({ s with mode := mode } : LogState).Bytes true :=
  ⟨h.layout.congr rfl rfl (Or.inl rfl), h.written, h.durable, h.fits, fun _ => h.room hmode,
    h.head, h.size⟩

/-- The append of an open call without an entry starts. The parent of the call has been logged. -/
theorem CallLogs.reserve (h : CallLogs env old s leaving ph) (hrun : s.aborted = false)
    {v : List (List UInt8)} {c : ℕ} (hopen : c ∈ s.opened)
    (hnew : ∀ o', ∀ e ∈ s.entries o', e.call ≠ c)
    (hparent : ∀ p, s.parent c = some p → ∃ o', ∃ e ∈ s.entries o', e.call = p ∧
      v = parentVector env o' e.offset ∧ (ph p).isAppended = true) :
    CallLogs env old (s.reserve o v c) leaving (Function.update ph c (.writing 0)) := by
  -- the call had no entry before, so its phase concerns the new entry only
  have hold : ∀ o', ∀ x ∈ s.entries o', Function.update ph c (.writing 0) x.call = ph x.call := by
    intro o' x hx
    exact update_of_ne (hnew o' x hx) _ _
  have hmap : ∀ o', (s.entries o').map (LoggedEntry.tx (Function.update ph c (.writing 0))) =
      (s.entries o').map (LoggedEntry.tx ph) := by
    intro o'
    refine List.map_congr_left fun x hx => ?_
    rw [LoggedEntry.tx, hold o' x hx]
    rfl
  have hself : (s.reserve o v c).logOf old (Function.update ph c (.writing 0)) o =
      (s.logOf old ph o).reserve v := by
    by_cases hfit : (s.logs o).tail + entrySize v ≤ (s.logs o).size <;>
      simp [CallState.logOf, CallState.reserve, LogState.reserve, LoggedEntry.tx, hmap, hfit]
  have hother : ∀ o', o' ≠ o → ∃ mode,
      (s.reserve o v c).logOf old (Function.update ph c (.writing 0)) o' =
        { s.logOf old ph o' with mode := mode } := by
    intro o' hne
    refine ⟨bif (s.reserve o v c).aborted then .aborted else .running, ?_⟩
    simp only [CallState.logOf, CallState.reserve, update_of_ne hne, hmap]
  have hmode : ∀ o', (s.logOf old ph o').mode = .running := fun _ => CallLogs.logOf_mode hrun
  refine ⟨?_, ?_, h.old_le, ?_, ?_, ?_, ?_, h.live_lt, h.chain, ?_, ?_, ?_⟩
  · intro o'
    rcases eq_or_ne o' o with rfl | hne
    · rw [hself]
      exact (h.holes o').reserve (hmode o')
    · obtain ⟨mode, heq⟩ := hother o' hne
      rw [heq]
      exact (h.holes o').setMode (hmode o') mode
  · intro o'
    rcases eq_or_ne o' o with rfl | hne
    · rw [hself]
      exact (h.bytes o').reserve (hmode o')
    · obtain ⟨mode, heq⟩ := hother o' hne
      rw [heq]
      exact (h.bytes o').setMode (hmode o') mode
  · intro o' x hx
    rcases CallState.mem_reserve.mp hx with hx | ⟨rfl, rfl⟩
    · rw [hold o' x hx]
      exact h.durable o' x hx
    · rw [update_self]
      trivial
  · intro o'
    rcases eq_or_ne o' o with rfl | hne
    · simp only [CallState.reserve, update_self, List.map_append]
      refine (h.nodup o').append (by simp) (List.disjoint_right.mpr ?_)
      simp only [List.map_cons, List.map_nil, List.mem_singleton, forall_eq, List.mem_map, not_exists,
        not_and]
      exact hnew o'
    · simp only [CallState.reserve, update_of_ne hne]
      exact h.nodup o'
  · intro o₁ o₂ x hx y hy hcall
    rcases CallState.mem_reserve.mp hx with hx' | ⟨ho₁, rfl⟩ <;>
      rcases CallState.mem_reserve.mp hy with hy' | ⟨ho₂, rfl⟩
    · exact h.unique o₁ o₂ x hx' y hy' hcall
    · exact absurd hcall (hnew o₁ x hx')
    · exact absurd hcall.symm (hnew o₂ y hy')
    · exact ho₁.trans ho₂.symm
  · intro o' x hx
    rcases CallState.mem_reserve.mp hx with hx | ⟨rfl, rfl⟩
    · exact h.call_lt o' x hx
    · exact h.live_lt c (List.mem_append_left _ hopen)
  · intro o' x hx
    rcases CallState.mem_reserve.mp hx with hx | ⟨rfl, rfl⟩
    · rw [hold o' x hx]
      exact h.closed o' x hx
    · exact Or.inr (List.mem_append_left _ hopen)
  · intro o' x hx hmem
    rcases CallState.mem_reserve.mp hx with hx | ⟨rfl, rfl⟩
    · rw [hold o' x hx]
      exact h.open_hole o' x hx hmem
    · rw [update_self]
      rfl
  · -- the parents of all entries have entries in the old state
    intro o' x hx p hp
    obtain ⟨o'', y, hy, hcall, hvector, happended⟩ : ∃ o'', ∃ y ∈ s.entries o'', y.call = p ∧
        x.vector = parentVector env o'' y.offset ∧ (ph p).isAppended = true := by
      rcases CallState.mem_reserve.mp hx with hx | ⟨rfl, rfl⟩
      · exact h.parent_entry o' x hx p hp
      · exact hparent p hp
    refine ⟨o'', y, CallState.mem_reserve.mpr (Or.inl hy), hcall, hvector, ?_⟩
    rw [← hcall, hold o'' y hy, hcall]
    exact happended

end

end Pronto
