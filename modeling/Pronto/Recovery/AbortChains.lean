import Pronto.Log.Drain

/-!
# `NVManager::buildAbortChains`

After an unclean shutdown one builder thread per object scans the object's log (`nvm_manager.cpp`). For
every committed entry of a nested transaction it follows the parents, across the logs of other objects,
to the outer-most transaction. When that one has no commit id, the transaction was aborted, and the
nodes collected on the way, the outer-most first, become an abort chain. On the way the scan keeps the
commit ids ahead of `max_committed_tx` in a heap and drains the heap while its top is the next id.

* `followParents` is the walk over the parents. It has no bound in the source; `fuel` bounds it here,
  and enough fuel is any number above the age of the entry (`followParents_ancestry`).
* `buildStep` is one iteration of the scan, `buildLoop` the loop and `buildAbortChains` the function.
* `CommitHeap` is the heap part of an iteration. The loop evaluates `top()` without asking whether the
  heap is empty. What that gives is not defined; the flag `emptyTop` records that it happened, and the
  model leaves the loop there, which is what happens when the storage of the last popped id is read.
-/

namespace Pronto

open Memory

/-! ## The heap of commit ids -/

/-- The variables of the drain: `max_committed_tx`, `min_heap` (the smallest id first), and whether
`top()` has been evaluated on an empty heap. -/
structure CommitHeap where
  maxCommittedTx : ℕ
  minHeap : List ℕ
  emptyTop : Bool
deriving DecidableEq, Repr

/-- `while (min_heap.top() == max_committed_tx + 1)`. -/
def drainHeap (maxCommittedTx : ℕ) : List ℕ → CommitHeap
  | [] => ⟨maxCommittedTx, [], true⟩
  | top :: rest =>
    if top = maxCommittedTx + 1 then drainHeap (maxCommittedTx + 1) rest
    else ⟨maxCommittedTx, top :: rest, false⟩

/-- What an iteration does with the commit id it has read. -/
def CommitHeap.meet (h : CommitHeap) (commitId : ℕ) : CommitHeap :=
  if commitId ≠ 0 then
    let h' := drainHeap h.maxCommittedTx (h.minHeap.orderedInsert (· ≤ ·) commitId)
    { h' with emptyTop := h.emptyTop || h'.emptyTop }
  else h

/-- The variables before the scan. -/
def CommitHeap.empty : CommitHeap := ⟨0, [], false⟩

/-- The variables after the scan has met the given commit ids in this order. -/
def meetAll (ids : List ℕ) : CommitHeap := ids.foldl CommitHeap.meet .empty

/-! ## The scan -/

/-- `AbortChainNode`; the chain is a list, so the node has no link. -/
structure AbortChainNode where
  object : ℕ
  logOffset : ℕ
  commitId : ℕ
deriving DecidableEq, Repr

/-- What a builder reads of the recovered objects: the table `objects`, their logs, and the dry run of
their `Play`. -/
structure NVManager where
  findObject : Uuid → Option ℕ
  log : ℕ → RedoLog
  play : ℕ → DryRun

/-- The ways the builder can stop the process: a read outside a mapped log, one of its assertions, or
one of `Play`'s. `outOfFuel` marks an exhausted loop bound. -/
inductive BuildFault
  | unmapped
  | misaligned
  | zeroTag
  | badMagic
  | playAssertion
  | unknownParent
  | outOfFuel
deriving DecidableEq, Repr

/-- The fault of a dry run as one of the builder. -/
def BuildFault.ofPlay : PlayFault → BuildFault
  | .unmapped => .unmapped
  | .assertion => .playAssertion

/-- Read `n` bytes of a mapped log as a little-endian number. -/
def fetch (log : RedoLog) (ptr n : ℕ) : Except BuildFault ℕ :=
  if ptr + n ≤ log.size then .ok (load log.data ptr n) else .error .unmapped

/-- `method_tag & (~NESTED_TX_TAG)`: the parent's offset in the tag of a nested entry. -/
def parentOffset (tag : ℕ) : ℕ := tag &&& (uint64Max ^^^ nestedTxTag)

section Scan

variable (m : NVManager)

/-- `objects.find(uuid_str)` for the uuid stored at `ptr`, and the assertion that it is there. -/
def fetchParent (log : RedoLog) (ptr : ℕ) : Except BuildFault ℕ := do
  let uuid ← fetch log ptr 16
  match m.findObject (BitVec.ofNat 128 uuid) with
  | some parent => .ok parent
  | none => .error .unknownParent

/-- `while (parent != NULL)`: the chain to push, if there is one. -/
def followParents : ℕ → ℕ → ℕ → List AbortChainNode →
    Except BuildFault (Option (List AbortChainNode))
  | 0, _, _, _ => .error .outOfFuel
  | fuel + 1, parent, offset, head => do
    let parentCommitId ← fetch (m.log parent) offset 8
    let parentMagic ← fetch (m.log parent) (offset + 8) 8
    if parentMagic ≠ redoLogMagic then .error .badMagic
    else
      let parentMethodTag ← fetch (m.log parent) (offset + 16) 8
      let head := ⟨parent, offset, parentCommitId⟩ :: head
      if isNested parentMethodTag then do
        let grandparent ← fetchParent m (m.log parent) (offset + 24)
        followParents fuel grandparent (parentOffset parentMethodTag) head
      else .ok (if parentCommitId = 0 then some head else none)

/-- The variables of the scan. -/
structure BuildState where
  offset : ℕ
  heap : CommitHeap
  abortChains : List (List AbortChainNode)
deriving DecidableEq, Repr

/-- One iteration of the scan of `object`'s log. -/
def buildStep (fuel object : ℕ) (st : BuildState) : Except BuildFault BuildState :=
  let log := m.log object
  let offset := st.offset
  if offset % cacheLineWidth ≠ 0 then .error .misaligned
  else do
    let commitId ← fetch log offset 8
    let magic ← fetch log (offset + 8) 8
    let methodTag ← fetch log (offset + 16) 8
    -- corrupted log entry
    if magic ≠ redoLogMagic then .ok { st with offset := offset + cacheLineWidth }
    else
      let heap := st.heap.meet commitId
      if isNested methodTag then
        if commitId = 0 then .ok { st with offset := offset + cacheLineWidth, heap := heap }
        else do
          let parent ← fetchParent m log (offset + 24)
          let chain ← followParents m fuel parent (parentOffset methodTag)
            [⟨object, offset, commitId⟩]
          .ok ⟨offset + cacheLineWidth, heap, st.abortChains ++ chain.toList⟩
      else if methodTag = 0 then .error .zeroTag
      else
        let n ← (dryRun (m.play object) log log.size methodTag (offset + 24)).mapError .ofPlay
        let next := offset + 24 + n
        .ok { st with offset := next + (cacheLineWidth - next % cacheLineWidth), heap := heap }

/-- The state after `n` iterations, or at the end of the scan if it ends before. -/
def buildIterations (fuel object : ℕ) : ℕ → BuildState → Except BuildFault BuildState
  | 0, st => .ok st
  | n + 1, st =>
    if st.offset < (m.log object).tail then do
      let st ← buildStep m fuel object st
      buildIterations fuel object n st
    else .ok st

/-- The variables before the scan of an object's log. -/
def buildStart (object : ℕ) : BuildState := ⟨(m.log object).head, .empty, []⟩

/-- The scan of an object's log; every iteration moves the offset forward. -/
def buildAbortChains (fuel object : ℕ) : Except BuildFault BuildState :=
  buildIterations m fuel object (m.log object).tail (buildStart m object)

end Scan

/-! ## What the heap has seen -/

/-- All of `1, …, n` are among the ids. -/
def MetUpTo (ids : List ℕ) (n : ℕ) : Prop := ∀ k, 0 < k → k ≤ n → k ∈ ids

/-- The drain is the one of an ordered replay, and it ends on an empty heap exactly when nothing is
left in the queue. -/
theorem drainHeap_eq (last : ℕ) (played q : List ℕ) :
    drainHeap last q = ⟨(OrderedReplay.drain id last played q).last,
      (OrderedReplay.drain id last played q).queue,
      decide ((OrderedReplay.drain id last played q).queue = [])⟩ := by
  induction q generalizing last played with
  | nil => rfl
  | cons x q ih =>
    simp only [drainHeap, OrderedReplay.drain, id]
    split
    · rename_i htop
      rw [htop]
      exact ih (last + 1) _
    · simp

theorem meetAll_concat (ids : List ℕ) (i : ℕ) : meetAll (ids ++ [i]) = (meetAll ids).meet i := by
  simp [meetAll]

theorem meet_zero (h : CommitHeap) : h.meet 0 = h := by
  simp [CommitHeap.meet]

section Heap

variable {ids : List ℕ}

/-- Distinct ids keep the heap in step with an ordered replay of the ids. -/
theorem meetAll_eq_replay (hnd : (ids.filter (0 < ·)).Nodup) :
    (meetAll ids).maxCommittedTx = (OrderedReplay.replay id ⟨0, [], []⟩ ids).last ∧
      (meetAll ids).minHeap = (OrderedReplay.replay id ⟨0, [], []⟩ ids).queue := by
  -- by induction on the ids from the end, where both sides take the last one
  induction ids using List.reverseRecOn with
  | nil => exact ⟨rfl, rfl⟩
  | append_singleton ids i ih =>
    have hpre : (ids.filter (0 < ·)).Nodup := by
      rw [List.filter_append] at hnd
      exact hnd.of_append_left
    obtain ⟨hlast, hqueue⟩ := ih hpre
    have hinv : OrderedReplay.Inv id 0 ids _ := OrderedReplay.replay_inv id (by simpa using hpre)
    have hreplay : OrderedReplay.replay id ⟨0, [], []⟩ (ids ++ [i]) =
        OrderedReplay.feed id (OrderedReplay.replay id ⟨0, [], []⟩ ids) i := by
      simp [OrderedReplay.replay]
    rw [meetAll_concat, hreplay]
    generalize OrderedReplay.replay id ⟨0, [], []⟩ ids = r at *
    by_cases hi : i = 0
    · subst hi
      have hsettled : OrderedReplay.Settled id r := by
        obtain ⟨last, queue, played⟩ := r
        cases queue with
        | nil => rfl
        | cons x q =>
          have hx := hinv.ahead x (by simp)
          simp only [id] at hx
          simp only [OrderedReplay.Settled, OrderedReplay.drain, id]
          rw [if_neg (by omega)]
      rw [meet_zero, hsettled.feed_of_le id (Nat.zero_le _)]
      exact ⟨hlast, hqueue⟩
    · -- a new id has not been played, so it is ahead
      have hahead : r.last < id i := by
        by_contra hle
        have hmem := (hinv.mem_played id).mpr ⟨Nat.pos_of_ne_zero hi, by simpa using hle⟩
        have hold : i ∈ ids.filter (0 < ·) := by
          simp only [List.map_id] at hmem
          have := (hinv.mem_iff id i).mp (Or.inl hmem)
          simpa using this
        rw [List.filter_append, List.nodup_append] at hnd
        exact hnd.2.2 i hold i (by simp [Nat.pos_of_ne_zero hi]) rfl
      rw [OrderedReplay.feed, if_pos hahead]
      simp only [CommitHeap.meet, ne_eq, hi, not_false_eq_true, if_true]
      rw [drainHeap_eq _ r.played, hlast, hqueue]
      exact ⟨rfl, rfl⟩

/-- The ids ahead are those that have been met, and the next id has not. -/
theorem meetAll_spec (hnd : (ids.filter (0 < ·)).Nodup) :
    MetUpTo ids (meetAll ids).maxCommittedTx ∧ (meetAll ids).maxCommittedTx + 1 ∉ ids ∧
      ((meetAll ids).minHeap = [] ↔ ∀ k ∈ ids, MetUpTo ids k) := by
  obtain ⟨hlast, hqueue⟩ := meetAll_eq_replay hnd
  have hinv : OrderedReplay.Inv id 0 ids _ := OrderedReplay.replay_inv id (by simpa using hnd)
  rw [hlast, hqueue]
  refine ⟨fun k hk hle => ?_, fun hmem => ?_, ?_⟩
  · have hmem := (hinv.mem_played id).mpr ⟨hk, hle⟩
    simp only [List.map_id] at hmem
    exact ((hinv.mem_iff id k).mp (Or.inl hmem)).1
  · rcases (hinv.mem_iff id _).mpr ⟨hmem, Nat.succ_pos _⟩ with hx | hx
    · have := ((hinv.mem_played id).mp (List.mem_map_of_mem hx)).2
      simp only [id] at this
      omega
    · have := hinv.ahead _ hx
      simp only [id] at this
      omega
  · rw [hinv.queue_eq_nil_iff id]
    constructor
    · intro h k hk j hj hle
      obtain ⟨y, hy, rfl⟩ := h k hk (by simp only [id]; omega) j hj hle
      exact hy
    · exact fun h x hx _ k hk hle => ⟨k, h x hx k hk hle, rfl⟩

/-- The flag is raised by the ids after which the heap is empty. -/
theorem emptyTop_meet (h : CommitHeap) {i : ℕ} (hi : i ≠ 0) :
    (h.meet i).emptyTop = (h.emptyTop || decide ((h.meet i).minHeap = [])) := by
  simp only [CommitHeap.meet, ne_eq, hi, not_false_eq_true, if_true]
  rw [drainHeap_eq _ []]

/-- **The drain reads the top of an empty heap exactly when the ids met so far have no gap.** The
number it leaves is always the largest one up to which all ids have been met. -/
theorem meetAll_emptyTop_iff (hnd : (ids.filter (0 < ·)).Nodup) :
    ((meetAll ids).emptyTop = false ↔
      ∀ pre i, pre ++ [i] <+: ids → i ≠ 0 → ∃ k ∈ pre ++ [i], ¬ MetUpTo (pre ++ [i]) k) ∧
    ∀ pre, pre <+: ids → IsGreatest {n | MetUpTo pre n} (meetAll pre).maxCommittedTx := by
  have hsub : ∀ {pre}, pre <+: ids → (pre.filter (0 < ·)).Nodup := fun h =>
    (h.sublist.filter _).nodup hnd
  refine ⟨?_, fun pre hpre => ?_⟩
  · induction ids using List.reverseRecOn with
    | nil =>
      refine iff_of_true rfl fun pre i hpre => ?_
      simp at hpre
    | append_singleton ids i ih =>
      have ih := ih (hsub (List.prefix_append _ _)) fun h =>
        hsub (h.trans (List.prefix_append _ _))
      have hnil := (meetAll_spec hnd).2.2
      constructor
      · intro hflag pre j hpre hj
        rcases List.prefix_concat_iff.mp hpre with heq | hpre
        · obtain ⟨rfl, hij⟩ := List.append_inj' heq rfl
          cases hij
          rw [meetAll_concat, emptyTop_meet _ hj, ← meetAll_concat, Bool.or_eq_false_iff,
            decide_eq_false_iff_not, hnil] at hflag
          simpa only [not_forall, exists_prop] using hflag.2
        · refine ih.mp ?_ pre j hpre hj
          by_cases hi : i = 0
          · rwa [meetAll_concat, hi, meet_zero] at hflag
          · rw [meetAll_concat, emptyTop_meet _ hi, Bool.or_eq_false_iff] at hflag
            exact hflag.1
      · intro hgap
        have hold := ih.mpr fun pre j hpre => hgap pre j (hpre.trans (List.prefix_append _ _))
        rw [meetAll_concat]
        by_cases hi : i = 0
        · rwa [hi, meet_zero]
        · rw [emptyTop_meet _ hi, ← meetAll_concat, hold, Bool.false_or, decide_eq_false_iff_not,
            hnil]
          simpa only [not_forall, exists_prop] using hgap ids i (List.prefix_refl _) hi
  · obtain ⟨hmet, hnext, -⟩ := meetAll_spec (hsub hpre)
    refine ⟨hmet, fun n hn => ?_⟩
    by_contra hlt
    exact hnext (hn _ (Nat.succ_pos _) (by omega))

end Heap

theorem meetAll_with_gap :
    (meetAll [3, 1]).emptyTop = false ∧ IsGreatest {n | MetUpTo [3, 1] n} 1 := by
  have hnd : ([3, 1].filter (0 < ·)).Nodup := by decide
  obtain ⟨hflag, hmax⟩ := meetAll_emptyTop_iff hnd
  refine ⟨hflag.mpr fun pre i hpre _ => ⟨3, ?_, fun h => ?_⟩, hmax [3, 1] (List.prefix_refl _)⟩
  · rcases List.prefix_cons_iff.mp hpre with hnil | ⟨t, ht, -⟩
    · simp at hnil
    · simp [ht]
  · have h2 := hpre.subset (h 2 (by decide) (by decide))
    simp at h2

/-- A log whose only commit id is 1: it is pushed and popped, and the loop asks for the top again. -/
theorem meetAll_one_emptyTop : ([1].filter (0 < ·)).Nodup ∧ (meetAll [1]).emptyTop = true := by
  decide

/-! ## Ancestors -/

/-- Entry `e` of object `o` is nested and names entry `e'` of object `p` as its parent. -/
structure Names (m : NVManager) (entries : ℕ → List LogEntry) (e : LogEntry) (p : ℕ) (e' : LogEntry) :
    Prop where
  nested : isNested e.tag = true
  parent_mem : e' ∈ entries p
  offset_eq : e'.offset = parentOffset e.tag
  uuid : ∃ u, e.args = uuidBytes u ∧ m.findObject u = some p

/-- `entries o` are entries appended to the log of object `o`, and `time` orders them across the logs:
every nested entry names an entry that was appended earlier. -/
structure LogSet (m : NVManager) (entries : ℕ → List LogEntry) (time : ℕ → ℕ → ℕ) : Prop where
  stored : ∀ o, ∀ e ∈ entries o, e.Stored (m.log o)
  aligned : ∀ o, ∀ e ∈ entries o, e.offset % cacheLineWidth = 0
  parent : ∀ o, ∀ e ∈ entries o, isNested e.tag = true →
    ∃ p e', Names m entries e p e' ∧ time p e'.offset < time o e.offset

/-- The ancestors of an entry with the object of each, from the outer-most one down to the entry. -/
inductive Ancestry (m : NVManager) (entries : ℕ → List LogEntry) :
    ℕ → LogEntry → List (ℕ × LogEntry) → Prop
  | outer {o : ℕ} {e : LogEntry} (he : e ∈ entries o) (houter : isNested e.tag = false) :
    Ancestry m entries o e [(o, e)]
  | nested {o p : ℕ} {e e' : LogEntry} {c : List (ℕ × LogEntry)} (he : e ∈ entries o)
    (hparent : Names m entries e p e') (hc : Ancestry m entries p e' c) :
    Ancestry m entries o e (c ++ [(o, e)])

/-- The nodes of an abort chain. -/
def chainNodes (c : List (ℕ × LogEntry)) : List AbortChainNode :=
  c.map fun a => ⟨a.1, a.2.offset, a.2.commitId⟩

/-- Has the outer-most transaction of the chain no commit id? -/
def isAborted (c : List (ℕ × LogEntry)) : Bool := c.head?.any fun a => a.2.commitId = 0

section Walk

variable {m : NVManager} {entries : ℕ → List LogEntry} {time : ℕ → ℕ → ℕ}

theorem fetch_commitId {o : ℕ} {e : LogEntry} (h : e.Stored (m.log o)) :
    fetch (m.log o) e.offset 8 = .ok e.commitId := by
  have := h.fits
  rw [fetch, if_pos (by simp only [LogEntry.length] at this; omega), h.entryAt.commitId_eq]

/-- The magic of a stored entry. -/
theorem fetch_magic {o : ℕ} {e : LogEntry} (h : e.Stored (m.log o)) :
    fetch (m.log o) (e.offset + 8) 8 = .ok redoLogMagic := by
  have := h.fits
  rw [fetch, if_pos (by simp only [LogEntry.length] at this; omega), h.entryAt.magic_eq]

/-- The tag of a stored entry. -/
theorem fetch_tag {o : ℕ} {e : LogEntry} (h : e.Stored (m.log o)) :
    fetch (m.log o) (e.offset + 16) 8 = .ok e.tag := by
  have := h.fits
  rw [fetch, if_pos (by simp only [LogEntry.length] at this; omega), h.entryAt.tag_eq]

/-- The uuid behind a nested entry is the one of its parent. -/
theorem fetchParent_of_names {o p : ℕ} {e e' : LogEntry} (h : e.Stored (m.log o))
    (hnames : Names m entries e p e') : fetchParent m (m.log o) (e.offset + 24) = .ok p := by
  obtain ⟨u, hargs, hfind⟩ := hnames.uuid
  have hlen : e.args.length = 16 := by rw [hargs, uuidBytes, length_bytesLE]
  have hfits := h.fits
  have hbytes := h.entryAt.args_eq
  rw [hlen, hargs, uuidBytes] at hbytes
  have hload : BitVec.ofNat 128 (load (m.log o).data (e.offset + 24) 16) = u := by
    rw [load_eq_of_bytes hbytes, Nat.mod_eq_of_lt (show u.toNat < 256 ^ 16 from u.isLt),
      BitVec.ofNat_toNat, BitVec.setWidth_eq]
  have hread : fetch (m.log o) (e.offset + 24) 16 =
      .ok (load (m.log o).data (e.offset + 24) 16) := by
    rw [fetch, if_pos (by simp only [LogEntry.length] at hfits; omega)]
  simp only [fetchParent, hread, bind, Except.bind, hload, hfind]

theorem Names.unique {o p q : ℕ} {e e' e'' : LogEntry} (h : e.Stored (m.log o))
    (hp : Names m entries e p e') (hq : Names m entries e q e'') : q = p := by
  have := (fetchParent_of_names h hp).symm.trans (fetchParent_of_names h hq)
  exact (Except.ok.inj this).symm

theorem Ancestry.ne_nil {o : ℕ} {e : LogEntry} {c : List (ℕ × LogEntry)}
    (h : Ancestry m entries o e c) : c ≠ [] := by
  cases h <;> simp

theorem isAborted_append {o : ℕ} {e : LogEntry} {c d : List (ℕ × LogEntry)}
    (h : Ancestry m entries o e c) : isAborted (c ++ d) = isAborted c := by
  rw [isAborted, List.head?_append_of_ne_nil _ h.ne_nil, isAborted]

/-- Parents are older, so the ancestors of an entry end with an outer-most one. -/
theorem LogSet.exists_ancestry (h : LogSet m entries time) {o : ℕ} {e : LogEntry}
    (he : e ∈ entries o) : ∃ c, Ancestry m entries o e c := by
  induction hn : time o e.offset using Nat.strong_induction_on generalizing o e with
  | _ n ih =>
    cases htag : isNested e.tag with
    | false => exact ⟨_, .outer he htag⟩
    | true =>
      obtain ⟨p, e', hnames, hlt⟩ := h.parent o e he htag
      obtain ⟨c, hc⟩ := ih _ (hn ▸ hlt) hnames.parent_mem rfl
      exact ⟨_, .nested he hnames hc⟩

/-- An entry has no more ancestors than its age allows. -/
theorem LogSet.length_ancestry (h : LogSet m entries time) {o : ℕ} {e : LogEntry}
    {c : List (ℕ × LogEntry)} (hc : Ancestry m entries o e c) :
    c.length ≤ time o e.offset + 1 := by
  induction hc with
  | outer => simp
  | @nested o p e e' c he hnames hc ih =>
    obtain ⟨q, e'', hnames', hlt⟩ := h.parent o e he hnames.nested
    obtain rfl := hnames.unique (h.stored o e he) hnames'
    rw [hnames'.offset_eq, ← hnames.offset_eq] at hlt
    rw [List.length_append, List.length_singleton]
    omega

/-- **The walk ends at the outer-most ancestor** and returns the chain of all of them when that one has
no commit id. -/
theorem followParents_ancestry (h : LogSet m entries time) {o : ℕ} {e : LogEntry}
    {c : List (ℕ × LogEntry)} (hc : Ancestry m entries o e c) {fuel : ℕ} (hfuel : c.length ≤ fuel)
    (head : List AbortChainNode) :
    followParents m fuel o e.offset head =
      .ok (if isAborted c then some (chainNodes c ++ head) else none) := by
  induction hc generalizing fuel head with
  | @outer o e he houter =>
    obtain ⟨fuel, rfl⟩ : ∃ f, fuel = f + 1 := ⟨fuel - 1, by simp at hfuel; omega⟩
    have hstored := h.stored o e he
    simp only [followParents, bind, Except.bind, fetch_commitId hstored, fetch_magic hstored,
      fetch_tag hstored, ne_eq, not_true_eq_false, if_false, houter, Bool.false_eq_true]
    simp [isAborted, chainNodes]
  | @nested o p e e' c he hnames hc ih =>
    rw [List.length_append, List.length_singleton] at hfuel
    obtain ⟨fuel, rfl⟩ : ∃ f, fuel = f + 1 := ⟨fuel - 1, by omega⟩
    have hstored := h.stored o e he
    simp only [followParents, bind, Except.bind, fetch_commitId hstored, fetch_magic hstored,
      fetch_tag hstored, ne_eq, not_true_eq_false, if_false, hnames.nested, if_true,
      fetchParent_of_names hstored hnames, ← hnames.offset_eq]
    rw [ih (by omega), isAborted_append hc]
    simp [chainNodes]

end Walk

/-! ## Iterations -/

section Iterations

variable {m : NVManager} {fuel o : ℕ}

/-- The nodes collected so far stay at the end of the chain. -/
theorem followParents_suffix {parent offset : ℕ} {head ch : List AbortChainNode}
    (h : followParents m fuel parent offset head = .ok (some ch)) : head <:+ ch := by
  induction fuel generalizing parent offset head with
  | zero => cases h
  | succ fuel ih =>
    simp only [followParents, bind, Except.bind] at h
    split at h
    · cases h
    split at h
    · cases h
    split at h
    · cases h
    split at h
    · cases h
    split at h
    · split at h
      · cases h
      · exact (List.suffix_cons _ _).trans (ih h)
    · split at h
      · cases h
        exact List.suffix_cons _ _
      · cases h

/-- The offset of the entry that a chain was built for. -/
def chainOffset (ch : List AbortChainNode) : Option ℕ := ch.getLast?.map AbortChainNode.logOffset

/-- What an iteration does: it moves on, and it adds at most chains for the entry at its offset. -/
theorem buildStep_ok {st st' : BuildState} (h : buildStep m fuel o st = .ok st') :
    st.offset < st'.offset ∧ ∃ new, st'.abortChains = st.abortChains ++ new ∧
      ∀ ch ∈ new, chainOffset ch = some st.offset := by
  simp only [buildStep, bind, Except.bind] at h
  split at h
  · cases h
  split at h
  · cases h
  split at h
  · cases h
  split at h
  · cases h
  split at h
  · cases h
    exact ⟨by simp [cacheLineWidth], [], by simp, by simp⟩
  split at h
  · -- a nested entry; only a committed one can add a chain
    split at h
    · cases h
      exact ⟨by simp [cacheLineWidth], [], by simp, by simp⟩
    split at h
    · cases h
    split at h
    · cases h
    rename_i chain hchain
    cases h
    refine ⟨by simp [cacheLineWidth], chain.toList, rfl, fun ch hch => ?_⟩
    obtain ⟨pre, hpre⟩ := followParents_suffix (hchain.trans (congrArg _ (Option.mem_toList.mp hch)))
    simp [chainOffset, ← hpre]
  split at h
  · cases h
  split at h
  · cases h
  · cases h
    refine ⟨?_, [], by simp, by simp⟩
    simp only
    omega

/-- An iteration that gets through a complete entry which does not fill its last line stops at the
entry's end. -/
theorem buildStep_offset {e : LogEntry} {st st' : BuildState}
    (h : e.Complete (m.play o) (m.log o)) (haligned : e.offset % cacheLineWidth = 0)
    (hline : ¬ e.FillsLine) (hoff : st.offset = e.offset)
    (hstep : buildStep m fuel o st = .ok st') : st'.offset = e.offset + e.size := by
  have hprocessed := h.processed
  have hnext := LogEntry.next_of_not_fillsLine hline
  simp only [buildStep, hoff, haligned, ne_eq, not_true_eq_false, if_false, bind, Except.bind,
    fetch_commitId h.toStored, fetch_magic h.toStored, fetch_tag h.toStored] at hstep
  simp only [LogEntry.next, LogEntry.length, cacheLineWidth] at hnext haligned
  rw [bytesProcessed] at hprocessed
  split at hstep
  · -- the uuid of the parent leaves the entry on one line
    rename_i hnested
    rw [if_pos hnested] at hprocessed
    have hlen : e.args.length = 16 := (Except.ok.inj hprocessed).symm
    have hstop : st'.offset = e.offset + cacheLineWidth := by
      split at hstep
      · cases hstep
        rfl
      split at hstep
      · cases hstep
      split at hstep
      · cases hstep
      · cases hstep
        rfl
    rw [hlen] at hnext
    simp only [cacheLineWidth] at hstop
    omega
  · rename_i houter
    rw [if_neg houter] at hprocessed
    split at hstep
    · cases hstep
    rw [hprocessed] at hstep
    cases hstep
    simp only [cacheLineWidth]
    omega

theorem buildIterations_succ {n : ℕ} {st st' : BuildState} (hlt : st.offset < (m.log o).tail)
    (hstep : buildStep m fuel o st = .ok st') :
    buildIterations m fuel o (n + 1) st = buildIterations m fuel o n st' := by
  simp [buildIterations, hlt, hstep, bind, Except.bind]

theorem buildIterations_done {n : ℕ} {st : BuildState} (hle : (m.log o).tail ≤ st.offset) :
    buildIterations m fuel o n st = .ok st := by
  cases n <;> simp [buildIterations, Nat.not_lt.mpr hle]

/-- What a number of iterations do: the offset moves on by at least one for each of them, and chains
are added only for the offsets passed. -/
theorem buildIterations_ok {n : ℕ} {st st' : BuildState}
    (h : buildIterations m fuel o n st = .ok st') :
    st.offset ≤ st'.offset ∧ (st'.offset < (m.log o).tail → st.offset + n ≤ st'.offset) ∧
      ∃ new, st'.abortChains = st.abortChains ++ new ∧
        ∀ ch ∈ new, ∃ off, chainOffset ch = some off ∧ st.offset ≤ off ∧ off < st'.offset := by
  -- by induction on the iterations; each moves the cursor forward
  induction n generalizing st with
  | zero =>
    cases h
    exact ⟨le_rfl, fun _ => le_rfl, [], by simp, by simp⟩
  | succ n ih =>
    by_cases hlt : st.offset < (m.log o).tail
    · cases hstep : buildStep m fuel o st with
      | error f => simp [buildIterations, hlt, hstep, bind, Except.bind] at h
      | ok st₁ =>
        rw [buildIterations_succ hlt hstep] at h
        obtain ⟨hmove, new₁, hnew₁, hoff₁⟩ := buildStep_ok hstep
        obtain ⟨hle, hcount, new₂, hnew₂, hoff₂⟩ := ih h
        refine ⟨by omega, fun ht => by have := hcount ht; omega, new₁ ++ new₂, ?_, ?_⟩
        · rw [hnew₂, hnew₁, List.append_assoc]
        · intro ch hch
          rcases List.mem_append.mp hch with hch | hch
          · exact ⟨_, hoff₁ ch hch, le_rfl, by omega⟩
          · obtain ⟨off, heq, hlo, hhi⟩ := hoff₂ ch hch
            exact ⟨off, heq, by omega, hhi⟩
    · rw [buildIterations_done (by omega)] at h
      cases h
      exact ⟨le_rfl, fun ht => absurd ht hlt, [], by simp, by simp⟩

/-- Iterations after iterations. -/
theorem buildIterations_add {n k : ℕ} {st st' : BuildState}
    (h : buildIterations m fuel o n st = .ok st') :
    buildIterations m fuel o (n + k) st = buildIterations m fuel o k st' := by
  induction n generalizing st with
  | zero =>
    cases h
    rw [Nat.zero_add]
  | succ n ih =>
    by_cases hlt : st.offset < (m.log o).tail
    · cases hstep : buildStep m fuel o st with
      | error f => simp [buildIterations, hlt, hstep, bind, Except.bind] at h
      | ok st₁ =>
        rw [buildIterations_succ hlt hstep] at h
        rw [Nat.add_right_comm, buildIterations_succ hlt hstep, ih h]
    · rw [buildIterations_done (by omega)] at h
      cases h
      rw [buildIterations_done (by omega), buildIterations_done (by omega)]

end Iterations

/-! ## The chains of a scan -/

section Chains

variable {m : NVManager} {entries : ℕ → List LogEntry} {time : ℕ → ℕ → ℕ} {fuel o n : ℕ}
  {e : LogEntry} {st : BuildState}

/-- The chain that a scan adds for an entry with the ancestors `c`. -/
def expectedChains (e : LogEntry) (c : List (ℕ × LogEntry)) : List (List AbortChainNode) :=
  if isNested e.tag ∧ e.commitId ≠ 0 ∧ isAborted c then [chainNodes c] else []

/-- The chains that were built for the entry at an offset. -/
def BuildState.chainsFor (st : BuildState) (offset : ℕ) : List (List AbortChainNode) :=
  st.abortChains.filter fun ch => chainOffset ch = some offset

/-- An iteration over an uncommitted or outer-most entry adds no chain. -/
theorem buildStep_adds_none (h : LogSet m entries time) (he : e ∈ entries o)
    (hoff : st.offset = e.offset) (hnot : ¬ (isNested e.tag = true ∧ e.commitId ≠ 0)) {st' : BuildState}
    (hstep : buildStep m fuel o st = .ok st') : st'.abortChains = st.abortChains := by
  have hstored := h.stored o e he
  simp only [buildStep, hoff, h.aligned o e he, ne_eq, not_true_eq_false, if_false, bind, Except.bind,
    fetch_commitId hstored, fetch_magic hstored, fetch_tag hstored] at hstep
  split at hstep
  · rename_i htag
    rw [if_pos (by simpa [htag] using hnot)] at hstep
    cases hstep
    rfl
  · split at hstep
    · cases hstep
    split at hstep
    · cases hstep
    · cases hstep
      rfl

/-- An iteration over a committed nested entry follows its parents. -/
theorem buildStep_committed (h : LogSet m entries time) {c : List (ℕ × LogEntry)}
    (hc : Ancestry m entries o e c) (hfuel : time o e.offset ≤ fuel) (hoff : st.offset = e.offset)
    (htag : isNested e.tag = true) (hid : e.commitId ≠ 0) :
    ∃ st', buildStep m fuel o st = .ok st' ∧
      st'.abortChains = st.abortChains ++ if isAborted c then [chainNodes c] else [] := by
  cases hc with
  | outer he houter => simp [houter] at htag
  | @nested _ p _ e' c he hnames hc =>
    have hstored := h.stored o e he
    have hlen := h.length_ancestry (hc.nested he hnames)
    rw [List.length_append, List.length_singleton] at hlen
    refine ⟨⟨e.offset + cacheLineWidth, st.heap.meet e.commitId, _⟩, ?_, rfl⟩
    simp only [buildStep, hoff, h.aligned o e he, ne_eq, not_true_eq_false, if_false, bind,
      Except.bind, fetch_commitId hstored, fetch_magic hstored, fetch_tag hstored, htag, if_true,
      hid, fetchParent_of_names hstored hnames, ← hnames.offset_eq]
    rw [followParents_ancestry h hc (by omega), isAborted_append hc]
    cases isAborted c <;> simp [chainNodes]

/-- **Abort chains are the ancestries of committed entries below an aborted transaction.** When the scan
reaches an entry, the walk from a committed nested entry ends at the entry's outer-most ancestor, and
what the whole scan collects for the entry is its chain of ancestors if the entry is nested and committed
and that ancestor has no commit id, and nothing otherwise. -/
theorem abort_chains_iff (h : LogSet m entries time) (he : e ∈ entries o)
    (hfuel : time o e.offset ≤ fuel)
    (hreach : buildIterations m fuel o n (buildStart m o) = .ok st) (hoff : st.offset = e.offset)
    (hlt : e.offset < (m.log o).tail) :
    (∃ c, Ancestry m entries o e c) ∧ ∀ c, Ancestry m entries o e c →
      (isNested e.tag = true → e.commitId ≠ 0 → ∃ st', buildStep m fuel o st = .ok st' ∧
        st'.abortChains = st.abortChains ++ expectedChains e c) ∧
      ∀ fin, buildAbortChains m fuel o = .ok fin → fin.chainsFor e.offset = expectedChains e c := by
  refine ⟨h.exists_ancestry he, fun c hc => ⟨fun htag hid => ?_, fun fin hfin => ?_⟩⟩
  · have hstep := buildStep_committed h hc hfuel hoff htag hid
    simpa [expectedChains, htag, hid] using hstep
  · -- up to the entry no chain has its offset, and none behind it has
    obtain ⟨-, hcount, old, hold, holdOff⟩ := buildIterations_ok hreach
    have hn : n ≤ e.offset := by
      have := hcount (by omega)
      omega
    obtain ⟨k, hk⟩ : ∃ k, (m.log o).tail = n + (k + 1) := ⟨(m.log o).tail - n - 1, by omega⟩
    rw [buildAbortChains, hk, buildIterations_add hreach] at hfin
    cases hstep : buildStep m fuel o st with
    | error f => simp [buildIterations, hoff, hlt, hstep, bind, Except.bind] at hfin
    | ok st₁ =>
      rw [buildIterations_succ (by omega) hstep] at hfin
      obtain ⟨hmove, -⟩ := buildStep_ok hstep
      obtain ⟨-, -, new, hnew, hnewOff⟩ := buildIterations_ok hfin
      have hadded : st₁.abortChains = st.abortChains ++ expectedChains e c := by
        by_cases hnot : isNested e.tag = true ∧ e.commitId ≠ 0
        · obtain ⟨st', hst', hchains⟩ := buildStep_committed h hc hfuel hoff hnot.1 hnot.2
          obtain rfl : st₁ = st' := Except.ok.inj (hstep.symm.trans hst')
          simpa [expectedChains, hnot] using hchains
        · rw [buildStep_adds_none h he hoff hnot hstep, expectedChains, if_neg (by tauto),
            List.append_nil]
      have hself : ∀ ch ∈ expectedChains e c, chainOffset ch = some e.offset := by
        intro ch hch
        rw [expectedChains] at hch
        split at hch
        · obtain rfl := List.mem_singleton.mp hch
          cases hc <;> simp [chainOffset, chainNodes]
        · cases hch
      have hbefore : old.filter (fun ch => chainOffset ch = some e.offset) = [] := by
        refine List.filter_eq_nil_iff.mpr fun ch hch => ?_
        obtain ⟨off, heq, -, hhi⟩ := holdOff ch hch
        simp only [heq, Option.some.injEq, decide_eq_true_eq]
        omega
      have hafter : new.filter (fun ch => chainOffset ch = some e.offset) = [] := by
        refine List.filter_eq_nil_iff.mpr fun ch hch => ?_
        obtain ⟨off, heq, hlo, -⟩ := hnewOff ch hch
        simp only [heq, Option.some.injEq, decide_eq_true_eq]
        omega
      rw [BuildState.chainsFor, hnew, hadded, hold]
      simp only [buildStart, List.nil_append, List.filter_append, hbefore, hafter, List.append_nil]
      exact List.filter_eq_self.mpr fun ch hch => by simp [hself ch hch]

end Chains

/-! ### A nested call whose caller did not commit -/

/-- The call in the log of object 1, with the call at offset 64 of object 0 as its parent. -/
def nestedEntry : LogEntry := ⟨64, 1, 64 ||| nestedTxTag, uuidBytes 7⟩

/-- Two logs with one entry each. -/
def callerAndCallee (o : ℕ) : List LogEntry :=
  if o = 0 then [smallEntry 64 0] else if o = 1 then [nestedEntry] else []

/-- The manager of the two objects. -/
def twoLogs : NVManager where
  findObject := fun u => if u = 7 then some 0 else none
  log := fun o => logOf (callerAndCallee o) 128
  play := fun _ => vectorPlay

/-- The entries of the two logs are complete. -/
theorem callerAndCallee_complete (o : ℕ) (e : LogEntry) (he : e ∈ callerAndCallee o) :
    e.Complete vectorPlay (twoLogs.log o) := by
  rw [callerAndCallee] at he
  split at he
  · subst o
    refine complete_of_bytes ?_
    revert e
    decide +kernel
  split at he
  · subst o
    refine complete_of_bytes ?_
    revert e
    decide +kernel
  · cases he

/-- The two logs hold a call and the call nested in it. -/
theorem callerAndCallee_logSet : LogSet twoLogs callerAndCallee fun o _ => o where
  stored := fun o e he => (callerAndCallee_complete o e he).toStored
  aligned := by
    intro o e he
    rw [callerAndCallee] at he
    split at he
    · simp_all [smallEntry, cacheLineWidth]
    split at he
    · simp_all [nestedEntry, cacheLineWidth]
    · cases he
  parent := by
    intro o e he hnested
    rw [callerAndCallee] at he
    split at he
    · obtain rfl := List.mem_singleton.mp he
      cases hnested
    split at he
    · obtain rfl := List.mem_singleton.mp he
      exact ⟨0, smallEntry 64 0, ⟨rfl, by simp [callerAndCallee], by decide, 7, rfl, rfl⟩, by omega⟩
    · cases he

/-- The outer call has no commit id, so the chain of the nested one is aborted: it lists both. -/
theorem abort_chain_of_callee :
    ∃ fin, buildAbortChains twoLogs 1 1 = .ok fin ∧
      fin.chainsFor 64 = [[⟨0, 64, 0⟩, ⟨1, 64, 1⟩]] := by
  have hok : (buildAbortChains twoLogs 1 1).toBool = true := by decide +kernel
  obtain ⟨fin, hfin⟩ : ∃ fin, buildAbortChains twoLogs 1 1 = .ok fin := by
    cases h : buildAbortChains twoLogs 1 1 with
    | error f => simp [h, Except.toBool] at hok
    | ok fin => exact ⟨fin, rfl⟩
  have hc : Ancestry twoLogs callerAndCallee 1 nestedEntry [(0, smallEntry 64 0), (1, nestedEntry)] :=
    .nested (by simp [callerAndCallee]) ⟨rfl, by simp [callerAndCallee], by decide, 7, rfl, rfl⟩
      (.outer (by simp [callerAndCallee]) rfl)
  obtain ⟨-, hall⟩ := abort_chains_iff (n := 0) callerAndCallee_logSet
    (show nestedEntry ∈ callerAndCallee 1 by simp [callerAndCallee]) le_rfl rfl rfl (by decide)
  exact ⟨fin, hfin, (hall _ hc).2 fin hfin⟩

end Pronto
