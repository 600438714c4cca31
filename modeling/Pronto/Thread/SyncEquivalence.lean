import Mathlib.Data.List.Basic
import Pronto.Thread.Persister

/-!
# The persister logs what the synchronous mode logs

The application thread of the asynchronous program and that of the synchronous one take the same
steps. `Follows` relates them: both have announced the same calls, and the synchronous mode has
logged all of them, the persister the outermost `n`. The calls in between, `owed`, wait in their
slots with their tag set. Since a thread commits only after it has read its innermost tag as zero,
no call is owed during a commit, and what is owed was appended by the synchronous mode last.
-/

namespace Pronto

open Function Memory Runs

variable {env : Objects}

/-- A call that the synchronous mode has logged and the persister has not. -/
structure OwedCall where
  call : MethodCall
  vector : List (List UInt8)
  offset : ℕ

/-- Appending the owed calls in order turns `logs` into `final`. -/
def Appends (logs : ℕ → RedoLog) : List OwedCall → (ℕ → RedoLog) → Prop
  | [], final => logs = final
  | w :: ws, final =>
    ∃ log, savitarLogAppend (logs w.call.obj) w.vector = some (w.offset, log) ∧
      Appends (Function.update logs w.call.obj log) ws final

/-- One more call is owed. -/
theorem Appends.snoc {logs final : ℕ → RedoLog} {ws : List OwedCall} {w : OwedCall} {log : RedoLog}
    (h : Appends logs ws final)
    (hw : savitarLogAppend (final w.call.obj) w.vector = some (w.offset, log)) :
    Appends logs (ws ++ [w]) (Function.update final w.call.obj log) := by
  induction ws generalizing logs with
  | nil =>
    obtain rfl : logs = final := h
    exact ⟨log, hw, rfl⟩
  | cons u us ih =>
    obtain ⟨log', hu, hus⟩ := h
    exact ⟨log', hu, ih hus⟩

/-- What an append does when it does not fail. -/
theorem savitarLogAppend_offset {log log' : RedoLog} {v : List (List UInt8)} {offset : ℕ}
    (h : savitarLogAppend log v = some (offset, log')) :
    offset = log.tail ∧ v ≠ [] ∧ log.tail + entrySize v ≤ log.size ∧
      log' = { log with
        tail := log.tail + entrySize v
        data := writeEntry log.data log.tail v } := by
  obtain ⟨⟨hv, hsize⟩, h⟩ := Option.ite_none_right_eq_some.mp h
  cases h
  exact ⟨rfl, hv, hsize, rfl⟩

/-- Appending does not empty a log. -/
theorem tail_pos_update {logs : ℕ → RedoLog} {log : RedoLog} {obj : ℕ}
    (hlogs : ∀ o, 0 < (logs o).tail) (hlog : 0 < log.tail) :
    ∀ o, 0 < (Function.update logs obj log o).tail := by
  intro o
  rcases eq_or_ne o obj with rfl | hne
  · rwa [update_self]
  · rw [update_of_ne hne]
    exact hlogs o

/-! ## The relation -/

/-- The slot `j` holds the object of the call and its first `k` arguments. -/
def Announced (sh : TxShared) (j : ℕ) (c : MethodCall) (k : ℕ) : Prop :=
  (sh.buffer j).objPtr = c.obj ∧
    ∀ i a, i < k → c.args[i]? = some a → (sh.buffer j).argPtrs i = a

/-- How the synchronous mode has logged the call in slot `j`. -/
structure LoggedAt (env : Objects) (sh : TxShared) (j : ℕ) (w : OwedCall) : Prop where
  announced : Announced sh j w.call w.call.args.length
  offset_eq : sh.txBuffer (j + 1) = w.offset
  offset_ne : w.offset ≠ 0
  vector_eq : callVector env sh j w.call.tag = w.vector

/-- The buffers agree up to slot `j`, except for the tags. -/
def SameUpTo (sh sh' : TxShared) (j : ℕ) : Prop :=
  (∀ i ≤ j, (sh'.buffer i).objPtr = (sh.buffer i).objPtr ∧
    (sh'.buffer i).argPtrs = (sh.buffer i).argPtrs) ∧
  ∀ i, 0 < i → i ≤ j + 1 → sh'.txBuffer i = sh.txBuffer i

/-- The vector of a call depends on its slot, its parent's slot, and the parent's offset. -/
theorem callVector_congr {sh sh' : TxShared} {id tag : ℕ}
    (hslot : ∀ i ≤ id, (sh'.buffer i).objPtr = (sh.buffer i).objPtr ∧
      (sh'.buffer i).argPtrs = (sh.buffer i).argPtrs)
    (htx : 0 < id → sh'.txBuffer id = sh.txBuffer id) (hmem : sh'.mem = sh.mem) :
    callVector env sh' id tag = callVector env sh id tag := by
  unfold callVector
  by_cases hid : id > 0
  · rw [if_pos hid, if_pos hid, htx hid, (hslot (id - 1) (by omega)).1]
  · rw [if_neg hid, if_neg hid, (hslot id (le_refl id)).1, (hslot id (le_refl id)).2, hmem]

theorem LoggedAt.frame {sh sh' : TxShared} {j : ℕ} {w : OwedCall} (h : LoggedAt env sh j w)
    (hsame : SameUpTo sh sh' j) (hmem : sh'.mem = sh.mem) : LoggedAt env sh' j w where
  announced := by
    obtain ⟨hobj, hargs⟩ := hsame.1 j (le_refl j)
    exact ⟨hobj.trans h.announced.1, hargs ▸ h.announced.2⟩
  offset_eq := (hsame.2 (j + 1) (by omega) (by omega)).trans h.offset_eq
  offset_ne := h.offset_ne
  vector_eq := (callVector_congr hsame.1 (fun hj => hsame.2 j hj (by omega)) hmem).trans h.vector_eq

/-- The request stands for the owed call `w` in slot `id`. -/
def LogRequest.For (env : Objects) (sh : TxShared) (id : ℕ) (w : OwedCall) (r : LogRequest) : Prop :=
  r.vector env sh id w.call.obj = w.vector ∧ ∀ tag, r = .outer tag → id = 0 ∧ tag = w.call.tag

/-- Looking for a call to log. -/
def PersisterPc.searching : PersisterPc → Bool
  | .poll | .idleCheck | .above | .below => true
  | _ => false

/-- A set tag has been found in slot `id`. -/
inductive Chosen (sh : TxShared) (id n : ℕ) : PersisterPc → Prop
  | tagged : Chosen sh id n .tagged
  | found : Chosen sh id n .found
  | loaded : Chosen sh id n (.loaded (sh.buffer id).objPtr)
  | parentLogged (heq : id = n) (hn : 0 < n) :
    Chosen sh id n (.parentLogged (sh.buffer id).objPtr)
  | tagBuilt (heq : id = n) (hn : 0 < n) :
    Chosen sh id n (.tagBuilt (sh.buffer id).objPtr (sh.txBuffer id ||| nestedTxTag))

/-- The entry of `w` is being appended; once it is complete the logs will be `logs'`. -/
inductive Writing (env : Objects) (sh : TxShared) (id : ℕ) (w : OwedCall) (logs' : ℕ → RedoLog) :
    PersisterPc → Prop
  | append {r : LogRequest} {log : RedoLog} (hr : r.For env sh id w)
    (happend : savitarLogAppend (sh.logs w.call.obj) w.vector = some (w.offset, log))
    (hlogs : Function.update sh.logs w.call.obj log = logs') :
    Writing env sh id w logs' (.append w.call.obj r)
  | magic {r : LogRequest} (hr : r.For env sh id w)
    (hlogs : Function.update sh.logs w.call.obj { sh.logs w.call.obj with
      data := writeEntry (sh.logs w.call.obj).data w.offset w.vector } = logs') :
    Writing env sh id w logs' (.magic w.call.obj r w.offset)
  | copy {r : LogRequest} {dst k : ℕ} (hr : r.For env sh id w)
    (hlogs : Function.update sh.logs w.call.obj { sh.logs w.call.obj with
      data := store (sh.logs w.call.obj).data dst (w.vector.drop k).flatten } = logs') :
    Writing env sh id w logs' (.copy w.call.obj r w.offset dst k)
  | publish (hlogs : sh.logs = logs') : Writing env sh id w logs' (.publish w.offset)
  | acknowledge (hlogs : sh.logs = logs') : Writing env sh id w logs' .acknowledge

/-- What the place of the persister says about the calls that are owed. -/
inductive PersisterAt (env : Objects) (s : ProgramState) (final : ℕ → RedoLog) (n : ℕ)
    (owed : List OwedCall) : Prop
  | searching (hpc : s.persister.searching = true) (hrest : Appends s.sh.logs owed final)
  | chosen (hlo : n ≤ s.activeTxId) (hhi : s.activeTxId < n + owed.length)
    (hpc : Chosen s.sh s.activeTxId n s.persister) (hrest : Appends s.sh.logs owed final)
  | writing {w : OwedCall} {ws : List OwedCall} {logs' : ℕ → RedoLog} (howed : owed = w :: ws)
    (hactive : s.activeTxId = n) (hpc : Writing env s.sh n w logs' s.persister)
    (hrest : Appends logs' ws final)

theorem Chosen.not_searching {sh : TxShared} {id n : ℕ} {pc : PersisterPc}
    (h : Chosen sh id n pc) : pc.searching = false := by
  cases h <;> rfl

theorem Writing.not_searching {sh : TxShared} {id : ℕ} {w : OwedCall} {logs' : ℕ → RedoLog}
    {pc : PersisterPc} (h : Writing env sh id w logs' pc) : pc.searching = false := by
  cases h <;> rfl

/-- A persister that is not writing leaves the appends to be done. -/
theorem PersisterAt.appends {s : ProgramState} {final : ℕ → RedoLog} {n : ℕ} {owed : List OwedCall}
    (h : PersisterAt env s final n owed) (hpc : s.persister.searching = true) :
    Appends s.sh.logs owed final := by
  rcases h with ⟨-, hrest⟩ | ⟨-, -, hchosen, -⟩ | ⟨-, -, hwriting, -⟩
  · exact hrest
  · exact absurd hpc (by simp [hchosen.not_searching])
  · exact absurd hpc (by simp [hwriting.not_searching])

/-- A persister to which nothing is owed searches, and its logs are complete. -/
theorem PersisterAt.nil {s : ProgramState} {final : ℕ → RedoLog} {n : ℕ}
    (h : PersisterAt env s final n []) : s.persister.searching = true ∧ s.sh.logs = final := by
  rcases h with ⟨hpc, hrest⟩ | ⟨hlo, hhi, -, -⟩ | ⟨howed, -, -, -⟩
  · exact ⟨hpc, hrest⟩
  · exact absurd hhi (by simpa using hlo)
  · cases howed

/-- The number of calls that are counted and not announced yet. -/
def AppPc.entering : AppPc → ℕ
  | .counted | .cleared => 1
  | _ => 0

/-- The number of calls that are not counted any more and not committed yet. -/
def AppPc.leaving : AppPc → ℕ
  | .popped _ | .committing _ | .idTaken _ _ => 1
  | _ => 0

/-- What the place of the application thread says. -/
def AppAt (s y : ProgramState) (owed : List OwedCall) : Prop :=
  match y.todo, y.app with
  | .notify c :: _, .setArgs k => Announced y.sh (y.sh.txBuffer 0) c k
  | .notify c :: _, .counted => Announced y.sh (y.sh.txBuffer 0 - 1) c c.args.length
  | .notify c :: _, .cleared =>
    Announced y.sh (y.sh.txBuffer 0 - 1) c c.args.length ∧ s.sh.txBuffer (s.sh.txBuffer 0) = 0
  | _, .acknowledged => owed = []
  | _, .popped i => owed = [] ∧ s.sh.txBuffer i = y.sh.txBuffer i
  | _, .committing _ => owed = []
  | _, .idTaken _ _ => owed = []
  | _, _ => True

theorem appAt_ready {s y : ProgramState} {owed : List OwedCall} (h : y.app = .ready) :
    AppAt s y owed := by
  unfold AppAt
  rw [h]
  split <;> simp_all

/-- The asynchronous program `s` follows the synchronous one `y`, and its persister has logged the
outermost `n` of the open calls. -/
structure Follows (env : Objects) (s y : ProgramState) (n : ℕ) (owed : List OwedCall) : Prop where
  todo_eq : s.todo = y.todo
  app_eq : s.app = y.app
  mem_eq : s.sh.mem = y.sh.mem
  slot_eq : ∀ j, (s.sh.buffer j).objPtr = (y.sh.buffer j).objPtr ∧
    (s.sh.buffer j).argPtrs = (y.sh.buffer j).argPtrs
  count_eq : s.sh.txBuffer 0 = y.sh.txBuffer 0
  depth_eq : y.sh.txBuffer 0 = n + owed.length + y.app.entering
  depth_lt : y.sh.txBuffer 0 < maxActiveTxs
  tag_logged : ∀ j < n, (s.sh.buffer j).methodTag = 0
  tag_owed : ∀ i, (s.sh.buffer (n + i)).methodTag = ((owed[i]?).map fun w => w.call.tag).getD 0
  tx_logged : ∀ j, 0 < j → j ≤ n → s.sh.txBuffer j = y.sh.txBuffer j ∧ y.sh.txBuffer j ≠ 0
  tx_owed : ∀ i < owed.length, s.sh.txBuffer (n + i + 1) =
    if i = 0 ∧ s.persister = .acknowledge then y.sh.txBuffer (n + 1) else 0
  loggedAt : ∀ i w, owed[i]? = some w → LoggedAt env y.sh (n + i) w
  tail_pos : ∀ o, 0 < (s.sh.logs o).tail
  final_pos : ∀ o, 0 < (y.sh.logs o).tail
  /-- The index runs out of the used slots only when `tx_buffer[0]` drops to zero between two reads,
  and then it comes back before anything is logged. -/
  active : s.activeTxId < maxActiveTxs - 1 ∨ (s.activeTxId = maxActiveTxs - 1 ∧ n = 0 ∧
    (s.persister = .poll ∨ s.persister = .idleCheck ∨
      s.persister = .above ∧ 0 < s.sh.txBuffer 0))
  persisterAt : PersisterAt env s y.sh.logs n owed
  appAt : AppAt s y owed

namespace Follows

variable {s y : ProgramState} {n : ℕ} {owed : List OwedCall}

/-- A set tag belongs to a call that is owed. -/
theorem owed_of_tag_ne (h : Follows env s y n owed) {j : ℕ} (htag : (s.sh.buffer j).methodTag ≠ 0) :
    n ≤ j ∧ j < n + owed.length ∧
      ∀ w, owed[j - n]? = some w → (s.sh.buffer j).methodTag = w.call.tag := by
  have hlo : n ≤ j := Nat.le_of_not_lt fun hj => htag (h.tag_logged j hj)
  obtain ⟨i, rfl⟩ := Nat.exists_eq_add_of_le hlo
  have hi := h.tag_owed i
  refine ⟨hlo, Nat.add_lt_add_left (Nat.lt_of_not_le fun hlen => htag ?_) n, fun w hw => ?_⟩
  · rw [hi, List.getElem?_eq_none hlen]
    rfl
  · rw [Nat.add_sub_cancel_left] at hw
    rw [hi, hw]
    rfl

/-- The tag of a call that is owed is set. -/
theorem tag_ne_of_owed (h : Follows env s y n owed) {j : ℕ} (hlo : n ≤ j)
    (hhi : j < n + owed.length) :
    (s.sh.buffer j).methodTag ≠ 0 ∧ (s.sh.buffer j).methodTag ≠ uint64Max := by
  obtain ⟨i, rfl⟩ := Nat.exists_eq_add_of_le hlo
  have hi : i < owed.length := by omega
  rw [h.tag_owed i, List.getElem?_eq_getElem hi]
  exact ⟨(owed[i]).call.tag_ne_zero, (owed[i]).call.tag_ne_max⟩

theorem le_depth (h : Follows env s y n owed) : n + owed.length ≤ maxActiveTxs - 1 := by
  have := h.depth_eq
  have := h.depth_lt
  omega

/-! ## Steps of the persister -/

/-- The persister moves on without touching the buffers. -/
theorem move (h : Follows env s y n owed) {logs : ℕ → RedoLog} {pc : PersisterPc} {a : ℕ}
    (hack : s.persister ≠ .acknowledge) (hpc : pc ≠ .acknowledge)
    (htail : ∀ o, 0 < (logs o).tail)
    (hactive : a < maxActiveTxs - 1 ∨ (a = maxActiveTxs - 1 ∧ n = 0 ∧
      (pc = .poll ∨ pc = .idleCheck ∨ pc = .above ∧ 0 < s.sh.txBuffer 0)))
    (hat : PersisterAt env
      ⟨{ s.sh with logs := logs }, s.todo, s.app, pc, a⟩ y.sh.logs n owed) :
    Follows env ⟨{ s.sh with logs := logs }, s.todo, s.app, pc, a⟩ y n owed where
  todo_eq := h.todo_eq
  app_eq := h.app_eq
  mem_eq := h.mem_eq
  slot_eq := h.slot_eq
  count_eq := h.count_eq
  depth_eq := h.depth_eq
  depth_lt := h.depth_lt
  tag_logged := h.tag_logged
  tag_owed := h.tag_owed
  tx_logged := h.tx_logged
  tx_owed i hi := by
    have := h.tx_owed i hi
    rw [if_neg fun hc => hack hc.2] at this
    rw [if_neg fun hc => hpc hc.2]
    exact this
  loggedAt := h.loggedAt
  tail_pos := htail
  final_pos := h.final_pos
  active := hactive
  persisterAt := hat
  appAt := h.appAt

/-- The search for a set tag. -/
theorem search_step (h : Follows env s y n owed) (hpc : s.persister.searching = true) :
    ∃ s', persisterStep env s = some s' ∧ Follows env s' y n owed := by
  obtain ⟨sh, todo, app, pc, id⟩ := s
  have hrest := h.persisterAt.appends hpc
  have hdepth := h.depth_lt
  rw [← h.count_eq] at hdepth
  have hzero : sh.txBuffer 0 = 0 → n = 0 := fun h0 => by
    have := h.count_eq
    have := h.depth_eq
    dsimp only at *
    omega
  have hactive := h.active
  dsimp only [maxActiveTxs] at hactive hdepth
  cases pc with
  | poll =>
    refine ⟨_, rfl, ?_⟩
    dsimp only
    split
    · refine h.move (by simp) (by simp) h.tail_pos ?_ (.searching rfl hrest)
      rcases hactive with hlt | ⟨heq, hn, -⟩
      · exact .inl hlt
      · exact .inr ⟨heq, hn, .inr (.inl rfl)⟩
    · rename_i htag
      obtain ⟨hlo, hhi, -⟩ := h.owed_of_tag_ne htag
      have := h.le_depth
      exact h.move (by simp) (by simp) h.tail_pos (.inl (by dsimp only at *; omega))
        (.chosen hlo hhi .tagged hrest)
  | idleCheck =>
    dsimp only [persisterStep]
    split
    · exact ⟨_, rfl, h.move (by simp) (by simp) h.tail_pos (.inl (by decide))
        (.searching rfl hrest)⟩
    · rename_i hcount
      refine ⟨_, rfl, h.move (by simp) (by simp) h.tail_pos ?_ (.searching rfl hrest)⟩
      rcases hactive with hlt | ⟨heq, hn, -⟩
      · exact .inl hlt
      · exact .inr ⟨heq, hn, .inr (.inr ⟨rfl, Nat.pos_of_ne_zero hcount⟩)⟩
  | above =>
    dsimp only [persisterStep]
    split
    · exact ⟨_, rfl, h.move (by simp) (by simp) h.tail_pos
        (.inl (by dsimp only [maxActiveTxs]; omega)) (.searching rfl hrest)⟩
    · rename_i hle
      refine ⟨_, rfl, h.move (by simp) (by simp) h.tail_pos (.inl ?_) (.searching rfl hrest)⟩
      rcases hactive with hlt | ⟨heq, -, hcount⟩
      · exact hlt
      · -- with an open call counted, the index behind the last slot is too large
        have hpos : 0 < sh.txBuffer 0 := by simpa using hcount
        simp only [predWord, Nat.ne_of_gt hpos, if_false] at hle
        dsimp only [maxActiveTxs]
        omega
  | below =>
    have hlt : id < 14 := by simpa using hactive
    dsimp only [persisterStep]
    split
    · rename_i hpred
      refine ⟨_, rfl, h.move (by simp) (by simp) h.tail_pos ?_ (.searching rfl hrest)⟩
      -- without an open call the index may run one past the last slot
      by_cases h0 : sh.txBuffer 0 = 0
      · have := hzero h0
        dsimp only [maxActiveTxs]
        rcases Nat.lt_or_eq_of_le hlt with hid | hid
        · exact .inl hid
        · exact .inr ⟨hid, this, .inl rfl⟩
      · simp only [predWord, h0, if_false] at hpred
        exact .inl (by dsimp only [maxActiveTxs]; omega)
    · exact ⟨_, rfl, h.move (by simp) (by simp) h.tail_pos (.inl hlt) (.searching rfl hrest)⟩
  | _ => cases hpc

/-- A set tag has been found: the persister goes to the parent's slot, or gets ready to append. -/
theorem chosen_step (h : Follows env s y n owed) (hlo : n ≤ s.activeTxId)
    (hhi : s.activeTxId < n + owed.length) (hpc : Chosen s.sh s.activeTxId n s.persister)
    (hrest : Appends s.sh.logs owed y.sh.logs) :
    ∃ s', persisterStep env s = some s' ∧ Follows env s' y n owed := by
  have hactive : s.activeTxId < maxActiveTxs - 1 := Nat.lt_of_lt_of_le hhi h.le_depth
  obtain ⟨sh, todo, app, pc, id⟩ := s
  dsimp only at hlo hhi hrest hactive hpc
  -- the call to be appended when the active slot is the first that is owed
  have hfirst : id = n → ∃ w ws, owed = w :: ws ∧ LoggedAt env y.sh id w ∧
      (sh.buffer id).objPtr = w.call.obj ∧ (sh.buffer id).methodTag = w.call.tag := by
    rintro rfl
    obtain ⟨w, ws, rfl⟩ := List.exists_cons_of_length_pos (l := owed) (by omega)
    have hw := h.loggedAt 0 w rfl
    exact ⟨w, ws, rfl, hw, (h.slot_eq id).1.trans hw.announced.1, h.tag_owed 0⟩
  cases hpc with
  | tagged =>
    refine ⟨_, rfl, ?_⟩
    simp only [(h.tag_ne_of_owed hlo hhi).2, if_false]
    exact h.move (by simp) (by simp) h.tail_pos (.inl hactive) (.chosen hlo hhi .found hrest)
  | found =>
    exact ⟨_, rfl, h.move (by simp) (by simp) h.tail_pos (.inl hactive)
      (.chosen hlo hhi .loaded hrest)⟩
  | loaded =>
    dsimp only [persisterStep]
    split
    · rename_i hpos
      split
      · exact ⟨_, rfl, h.move (by simp) (by simp) h.tail_pos (.inl (by omega))
          (.searching rfl hrest)⟩
      · rename_i hparent
        -- the parent is not owed, so the active slot is the first that is
        have heq : id = n := by
          by_contra hne
          obtain ⟨i, rfl⟩ := Nat.exists_eq_add_of_lt (Nat.lt_of_le_of_ne hlo (Ne.symm hne))
          exact hparent ((h.tx_owed i (by omega)).trans (if_neg (by simp)))
        exact ⟨_, rfl, h.move (by simp) (by simp) h.tail_pos (.inl hactive)
          (.chosen hlo hhi (.parentLogged heq (by omega)) hrest)⟩
    · obtain rfl : id = 0 := by omega
      obtain rfl : n = 0 := by omega
      obtain ⟨w, ws, rfl, hw, hobj, htag⟩ := hfirst rfl
      obtain ⟨log, happend, hrest⟩ := hrest
      rw [hobj, htag]
      refine ⟨_, rfl, h.move (by simp) (by simp) h.tail_pos (.inl hactive)
        (.writing rfl rfl (.append ⟨?_, ?_⟩ happend rfl) hrest)⟩
      · have hargs : (sh.buffer 0).argPtrs = (y.sh.buffer 0).argPtrs := (h.slot_eq 0).2
        have hmem : sh.mem = y.sh.mem := h.mem_eq
        rw [← hw.vector_eq]
        simp [LogRequest.vector, callVector, hargs, hmem, hw.announced.1]
      · rintro tag ⟨⟩
        exact ⟨rfl, rfl⟩
  | parentLogged heq hn =>
    exact ⟨_, rfl, h.move (by simp) (by simp) h.tail_pos (.inl hactive)
      (.chosen hlo hhi (.tagBuilt heq hn) hrest)⟩
  | tagBuilt heq hn =>
    obtain ⟨w, ws, rfl, hw, hobj, htag⟩ := hfirst heq
    obtain ⟨log, happend, hrest⟩ := hrest
    rw [hobj]
    refine ⟨_, rfl, h.move (by simp) (by simp) h.tail_pos (.inl hactive)
      (.writing rfl heq (.append ⟨?_, by simp⟩ happend rfl) hrest)⟩
    subst heq
    have hparent : (sh.buffer (id - 1)).objPtr = (y.sh.buffer (id - 1)).objPtr :=
      (h.slot_eq (id - 1)).1
    have htx : sh.txBuffer id = y.sh.txBuffer id := (h.tx_logged id hn (le_refl id)).1
    rw [← hw.vector_eq]
    simp [LogRequest.vector, callVector, hn, hparent, htx]

/-- The complete entry's offset becomes visible. -/
theorem publish (h : Follows env s y s.activeTxId owed) {w : OwedCall} {ws : List OwedCall}
    (howed : owed = w :: ws) (hrest : Appends s.sh.logs ws y.sh.logs) :
    Follows env { s with
      sh := s.sh.setTx (s.activeTxId + 1) w.offset
      persister := .acknowledge } y s.activeTxId owed := by
  have hactive : s.activeTxId < maxActiveTxs - 1 :=
    Nat.lt_of_lt_of_le (by simp [howed]) h.le_depth
  refine { h with
    count_eq := h.count_eq
    tx_logged := fun j hj hle => ?_
    tx_owed := fun i hi => ?_
    active := .inl hactive
    persisterAt := .writing howed rfl (.acknowledge rfl) hrest
    appAt := ?_ }
  · rw [TxShared.setTx_txBuffer, update_of_ne (by omega)]
    exact h.tx_logged j hj hle
  · rcases Nat.eq_zero_or_pos i with rfl | hpos
    · rw [TxShared.setTx_txBuffer, if_pos ⟨rfl, rfl⟩, Nat.add_zero, update_self]
      exact (h.loggedAt 0 w (by simp [howed])).offset_eq.symm
    · have := h.tx_owed i hi
      rw [if_neg (by omega)] at this
      rw [TxShared.setTx_txBuffer, if_neg (by omega), update_of_ne (by omega), this]
  · have happ := h.appAt
    have hcount := h.count_eq
    have hdepth := h.depth_eq
    have hlen : 0 < owed.length := by simp [howed]
    unfold AppAt at happ ⊢
    split at happ <;> simp_all [update_of_ne, AppPc.entering]

/-- The tag of the active slot is cleared: one call less is owed. -/
theorem acknowledge {w : OwedCall} {ws : List OwedCall}
    (h : Follows env s y s.activeTxId (w :: ws)) (hpc : s.persister = .acknowledge)
    (hrest : Appends s.sh.logs ws y.sh.logs) :
    Follows env { s with sh := s.sh.setTag s.activeTxId 0, persister := .poll } y
      (s.activeTxId + 1) ws := by
  have hlt : s.activeTxId < maxActiveTxs - 1 := Nat.lt_of_lt_of_le (by simp) h.le_depth
  have hw := h.loggedAt 0 w rfl
  refine { h with
    slot_eq := fun j => by simpa using h.slot_eq j
    depth_eq := h.depth_eq.trans (by simp only [List.length_cons]; omega)
    tag_logged := fun j hj => ?_
    tag_owed := fun i => ?_
    tx_logged := fun j hj hle => ?_
    tx_owed := fun i hi => ?_
    loggedAt := fun i u hu => ?_
    active := .inl hlt
    persisterAt := .searching rfl hrest
    appAt := ?_ }
  · rw [TxShared.setTag_methodTag]
    split
    · rfl
    · exact h.tag_logged j (by omega)
  · rw [TxShared.setTag_methodTag, if_neg (by omega), Nat.add_assoc, Nat.add_comm 1 i,
      h.tag_owed (i + 1)]
    rfl
  · rcases Nat.lt_or_eq_of_le hle with hlt | rfl
    · exact h.tx_logged j hj (by omega)
    · have htx := h.tx_owed 0 (by simp)
      rw [if_pos ⟨rfl, hpc⟩] at htx
      exact ⟨htx, hw.offset_eq ▸ hw.offset_ne⟩
  · have htx := h.tx_owed (i + 1) (by simpa using hi)
    rw [if_neg (by omega)] at htx
    rw [if_neg (by simp), TxShared.setTag_txBuffer, ← htx]
    congr 1
    omega
  · have hu := h.loggedAt (i + 1) u hu
    rwa [Nat.add_comm i 1, ← Nat.add_assoc] at hu
  · have happ := h.appAt
    unfold AppAt at happ ⊢
    split at happ <;> simp_all

/-- The last step of the persister for a call: it has logged the first call that is owed, and starts
over in the same slot. -/
def Logs (s s' : ProgramState) (n n' : ℕ) (owed owed' : List OwedCall) : Prop :=
  s.persister = .acknowledge ∧ s'.persister = .poll ∧ s'.activeTxId = n ∧ n' = n + 1 ∧
    ∃ w, owed = w :: owed'

/-- An entry is being appended. -/
theorem writing_step (h : Follows env s y n owed) {w : OwedCall} {ws : List OwedCall}
    {logs' : ℕ → RedoLog} (howed : owed = w :: ws) (hactive : s.activeTxId = n)
    (hpc : Writing env s.sh n w logs' s.persister) (hrest : Appends logs' ws y.sh.logs) :
    ∃ s' n' owed', persisterStep env s = some s' ∧ Follows env s' y n' owed' ∧
      (n' = n ∧ owed' = owed ∧ s.persister ≠ .acknowledge ∨ Logs s s' n n' owed owed') := by
  have hlt : s.activeTxId < maxActiveTxs - 1 :=
    Nat.lt_of_lt_of_le (by simp [howed, hactive]) h.le_depth
  obtain ⟨sh, todo, app, pc, id⟩ := s
  dsimp only at hactive hpc hlt
  subst hactive
  cases hpc with
  | @append r log hr happend hlogs =>
    obtain ⟨hoffset, hv, hsize, rfl⟩ := savitarLogAppend_offset happend
    dsimp only [persisterStep]
    rw [hr.1, if_pos ⟨hv, hsize⟩]
    have hmagic : Writing env (sh.setLog w.call.obj { sh.logs w.call.obj with
        tail := (sh.logs w.call.obj).tail + entrySize w.vector }) id w logs'
        (.magic w.call.obj r w.offset) := by
      refine .magic hr ?_
      rw [← hlogs, TxShared.setLog_logs, update_self, update_idem, hoffset]
    rw [hoffset] at hmagic
    exact ⟨_, id, owed, rfl, h.move (by simp) (by simp)
      (tail_pos_update h.tail_pos (Nat.add_pos_left (h.tail_pos _) _)) (.inl hlt)
      (.writing howed rfl hmagic hrest), .inl ⟨rfl, rfl, by simp⟩⟩
  | @magic r hr hlogs =>
    refine ⟨_, id, owed, rfl, h.move (by simp) (by simp)
      (tail_pos_update h.tail_pos (h.tail_pos w.call.obj)) (.inl hlt)
      (.writing howed rfl (.copy hr ?_) hrest), .inl ⟨rfl, rfl, by simp⟩⟩
    dsimp only
    rw [← hlogs, update_self, update_idem]
    rfl
  | @copy r dst k hr hlogs =>
    dsimp only [persisterStep]
    rw [hr.1]
    split
    · rename_i bs hbs
      obtain ⟨hk, rfl⟩ := List.getElem?_eq_some_iff.mp hbs
      refine ⟨_, id, owed, rfl, h.move (by simp) (by simp)
        (tail_pos_update h.tail_pos (h.tail_pos w.call.obj)) (.inl hlt)
        (.writing howed rfl (.copy hr ?_) hrest), .inl ⟨rfl, rfl, by simp⟩⟩
      dsimp only
      rw [← hlogs, update_self, update_idem, List.drop_eq_getElem_cons hk,
        List.flatten_cons, store_append]
    · rename_i hend
      rw [List.drop_eq_nil_of_le (List.getElem?_eq_none_iff.mp hend), List.flatten_nil,
        store_nil, update_eq_self] at hlogs
      exact ⟨_, id, owed, rfl, h.move (by simp) (by simp) h.tail_pos (.inl hlt)
        (.writing howed rfl (.publish hlogs) hrest), .inl ⟨rfl, rfl, by simp⟩⟩
  | publish hlogs =>
    subst hlogs
    exact ⟨_, id, owed, rfl, h.publish howed hrest, .inl ⟨rfl, rfl, by simp⟩⟩
  | acknowledge hlogs =>
    subst hlogs howed
    exact ⟨_, id + 1, ws, rfl, h.acknowledge rfl hrest, .inr ⟨rfl, rfl, rfl, rfl, w, rfl⟩⟩

/-- A step of the persister logs nothing, or the first call that is owed. -/
theorem persister_step (h : Follows env s y n owed) :
    ∃ s' n' owed', persisterStep env s = some s' ∧ Follows env s' y n' owed' ∧
      (n' = n ∧ owed' = owed ∧ s.persister ≠ .acknowledge ∨ Logs s s' n n' owed owed') := by
  cases h.persisterAt with
  | searching hpc hrest =>
    obtain ⟨s', hstep, h'⟩ := h.search_step hpc
    exact ⟨s', n, owed, hstep, h', .inl ⟨rfl, rfl, fun hack => by simp [hack,
      PersisterPc.searching] at hpc⟩⟩
  | chosen hlo hhi hpc hrest =>
    obtain ⟨s', hstep, h'⟩ := h.chosen_step hlo hhi hpc hrest
    exact ⟨s', n, owed, hstep, h', .inl ⟨rfl, rfl, fun hack => by rw [hack] at hpc; cases hpc⟩⟩
  | @writing w ws logs' howed hactive hpc hrest =>
    exact h.writing_step howed hactive hpc hrest

end Follows

/-! ## Steps of the application thread -/

/-- What announcing a call and logging it at once does. -/
theorem savitarPersisterLog_setTag {sh sh' : TxShared} {id tag : ℕ}
    (h : savitarPersisterLog env (sh.setTag id tag) id = some sh') :
    ∃ offset log, savitarLogAppend (sh.logs (sh.buffer id).objPtr) (callVector env sh id tag) =
        some (offset, log) ∧
      sh'.logs = Function.update sh.logs (sh.buffer id).objPtr log ∧
      sh'.txBuffer = Function.update sh.txBuffer (id + 1) offset ∧ sh'.mem = sh.mem ∧
      ∀ j, (sh'.buffer j).objPtr = (sh.buffer j).objPtr ∧
        (sh'.buffer j).argPtrs = (sh.buffer j).argPtrs := by
  obtain ⟨⟨offset, log⟩, happend, rfl⟩ := Option.map_eq_some_iff.mp h
  have hvector : callVector env (sh.setTag id tag) id tag = callVector env sh id tag := by
    simp [callVector]
  rw [TxShared.setTag_methodTag, if_pos rfl, TxShared.setTag_objPtr, hvector] at happend
  exact ⟨offset, log, happend, by simp, by simp, by simp, fun j => by simp⟩

theorem LogRequest.For.congr {sh sh' : TxShared} {id : ℕ} {w : OwedCall} {r : LogRequest}
    (h : r.For env sh id w) (hargs : (sh'.buffer id).argPtrs = (sh.buffer id).argPtrs)
    (hmem : sh'.mem = sh.mem) : r.For env sh' id w := by
  refine ⟨?_, h.2⟩
  rw [← h.1]
  cases r with
  | nested tag parent => rfl
  | outer tag => simp only [LogRequest.vector, hargs, hmem]

/-- The chosen slot, when the others change. -/
theorem Chosen.frame {sh sh' : TxShared} {id n : ℕ} {pc : PersisterPc} (h : Chosen sh id n pc)
    (hobj : (sh'.buffer id).objPtr = (sh.buffer id).objPtr)
    (htx : 0 < id → sh'.txBuffer id = sh.txBuffer id) : Chosen sh' id n pc := by
  cases h with
  | tagged => exact .tagged
  | found => exact .found
  | loaded => exact hobj ▸ .loaded
  | parentLogged heq hn => exact hobj ▸ .parentLogged heq hn
  | tagBuilt heq hn =>
    rw [← hobj, ← htx (heq ▸ hn)]
    exact .tagBuilt heq hn

/-- The append under way, when neither the logs nor the request change. -/
theorem Writing.frame {sh sh' : TxShared} {id : ℕ} {w : OwedCall} {logs' : ℕ → RedoLog}
    {pc : PersisterPc} (h : Writing env sh id w logs' pc) (hlogs : sh'.logs = sh.logs)
    (hreq : ∀ r : LogRequest, r.For env sh id w → r.For env sh' id w) :
    Writing env sh' id w logs' pc := by
  cases h with
  | append hr happend hl => exact .append (hreq _ hr) (hlogs ▸ happend) (hlogs ▸ hl)
  | magic hr hl => exact .magic (hreq _ hr) (hlogs ▸ hl)
  | copy hr hl => exact .copy (hreq _ hr) (hlogs ▸ hl)
  | publish hl => exact .publish (hlogs.trans hl)
  | acknowledge hl => exact .acknowledge (hlogs.trans hl)

/-- The persister does not see what the application thread does behind the calls that are owed. -/
theorem PersisterAt.frame {s : ProgramState} {sh' : TxShared} {todo : List Event} {app : AppPc}
    {final final' : ℕ → RedoLog} {n : ℕ} {owed more : List OwedCall}
    (h : PersisterAt env s final n owed) (hlogs : sh'.logs = s.sh.logs)
    (hobj : ∀ j < n + owed.length, (sh'.buffer j).objPtr = (s.sh.buffer j).objPtr)
    (htx : ∀ j, 0 < j → j ≤ n + owed.length → sh'.txBuffer j = s.sh.txBuffer j)
    (hreq : ∀ w, owed[0]? = some w → ∀ r : LogRequest, r.For env s.sh n w → r.For env sh' n w)
    (hmore : ∀ logs ws, Appends logs ws final → Appends logs (ws ++ more) final') :
    PersisterAt env ⟨sh', todo, app, s.persister, s.activeTxId⟩ final' n (owed ++ more) := by
  cases h with
  | searching hpc hrest => exact .searching hpc (hlogs ▸ hmore _ _ hrest)
  | chosen hlo hhi hpc hrest =>
    refine .chosen hlo ?_ (hpc.frame (hobj _ hhi) fun hpos => htx _ hpos (by omega))
      (hlogs ▸ hmore _ _ hrest)
    rw [List.length_append]
    exact Nat.lt_of_lt_of_le hhi (by omega)
  | @writing w ws logs' howed hactive hpc hrest =>
    subst howed
    exact .writing rfl hactive (hpc.frame hlogs (hreq w rfl)) (hmore _ _ hrest)

namespace Follows

variable {s y : ProgramState} {n : ℕ} {owed : List OwedCall}

/-- Both threads do the same behind the open calls. -/
theorem frame (h : Follows env s y n owed) {sh shy : TxShared} {app : AppPc}
    (hlogs : sh.logs = s.sh.logs ∧ shy.logs = y.sh.logs)
    (hmem : sh.mem = s.sh.mem ∧ shy.mem = y.sh.mem)
    (hslot : ∀ j, (sh.buffer j).objPtr = (shy.buffer j).objPtr ∧
      (sh.buffer j).argPtrs = (shy.buffer j).argPtrs)
    (hsame : ∀ j < n + owed.length, (shy.buffer j).objPtr = (y.sh.buffer j).objPtr ∧
      (shy.buffer j).argPtrs = (y.sh.buffer j).argPtrs)
    (htag : ∀ j, (sh.buffer j).methodTag = (s.sh.buffer j).methodTag)
    (htx : ∀ j, 0 < j → j ≤ n + owed.length →
      sh.txBuffer j = s.sh.txBuffer j ∧ shy.txBuffer j = y.sh.txBuffer j)
    (hcount : sh.txBuffer 0 = shy.txBuffer 0)
    (hdepth : shy.txBuffer 0 = n + owed.length + app.entering)
    (hlt : shy.txBuffer 0 < maxActiveTxs) (hmono : s.sh.txBuffer 0 ≤ sh.txBuffer 0)
    (happ : AppAt { s with sh := sh, app := app } { y with sh := shy, app := app } owed) :
    Follows env { s with sh := sh, app := app } { y with sh := shy, app := app } n owed where
  todo_eq := h.todo_eq
  app_eq := rfl
  mem_eq := by rw [hmem.1, hmem.2, h.mem_eq]
  slot_eq := hslot
  count_eq := hcount
  depth_eq := hdepth
  depth_lt := hlt
  tag_logged j hj := (htag j).trans (h.tag_logged j hj)
  tag_owed i := (htag (n + i)).trans (h.tag_owed i)
  tx_logged j hj hle := by
    obtain ⟨hs, hy⟩ := htx j hj (by omega)
    rw [hs, hy]
    exact h.tx_logged j hj hle
  tx_owed i hi := by
    rw [(htx (n + i + 1) (by omega) (by omega)).1, (htx (n + 1) (by omega) (by omega)).2]
    exact h.tx_owed i hi
  loggedAt i w hw := by
    have hi := (List.getElem?_eq_some_iff.mp hw).1
    exact (h.loggedAt i w hw).frame ⟨fun j hj => hsame j (by omega),
      fun j hj hle => (htx j hj (by omega)).2⟩ hmem.2
  tail_pos := hlogs.1 ▸ h.tail_pos
  final_pos := hlogs.2 ▸ h.final_pos
  active := h.active.imp_right fun hlast => ⟨hlast.1, hlast.2.1,
    hlast.2.2.imp_right (Or.imp_right fun habove => ⟨habove.1, Nat.lt_of_lt_of_le habove.2 hmono⟩)⟩
  persisterAt := by
    have hbelow : ∀ j < n + owed.length, (sh.buffer j).objPtr = (s.sh.buffer j).objPtr ∧
        (sh.buffer j).argPtrs = (s.sh.buffer j).argPtrs := fun j hj => by
      rw [(hslot j).1, (hslot j).2, (hsame j hj).1, (hsame j hj).2]
      exact ⟨(h.slot_eq j).1.symm, (h.slot_eq j).2.symm⟩
    have hat : PersisterAt env ⟨sh, s.todo, app, s.persister, s.activeTxId⟩ shy.logs n
        (owed ++ []) := h.persisterAt.frame hlogs.1 (fun j hj => (hbelow j hj).1)
      (fun j hj hle => (htx j hj hle).1)
      (fun w hw r hr => hr.congr (hbelow n (by
        have := (List.getElem?_eq_some_iff.mp hw).1
        omega)).2 hmem.1) (fun logs ws hws => by rwa [List.append_nil, hlogs.2])
    rwa [List.append_nil] at hat
  appAt := happ

/-- Both threads write the slot behind the open calls, except for its tag. -/
theorem frame_slot (h : Follows env s y n owed) {cs cy : NvMethodCall} {k : ℕ}
    (hcount : y.sh.txBuffer 0 = n + owed.length)
    (hcs : cs.objPtr = cy.objPtr ∧ cs.argPtrs = cy.argPtrs)
    (htag : cs.methodTag = (s.sh.buffer (s.sh.txBuffer 0)).methodTag)
    (happ : AppAt { s with sh := s.sh.setSlot (s.sh.txBuffer 0) cs, app := .setArgs k }
      { y with sh := y.sh.setSlot (y.sh.txBuffer 0) cy, app := .setArgs k } owed) :
    Follows env { s with sh := s.sh.setSlot (s.sh.txBuffer 0) cs, app := .setArgs k }
      { y with sh := y.sh.setSlot (y.sh.txBuffer 0) cy, app := .setArgs k } n owed := by
  have hsy := h.count_eq
  refine h.frame ⟨rfl, rfl⟩ ⟨rfl, rfl⟩ (fun j => ?_) (fun j hj => ?_) (fun j => ?_)
    (fun j _ _ => ⟨rfl, rfl⟩) hsy hcount h.depth_lt (le_refl _) happ
  · rw [TxShared.setSlot_buffer, TxShared.setSlot_buffer, hsy]
    rcases eq_or_ne j (y.sh.txBuffer 0) with rfl | hne
    · rwa [update_self, update_self]
    · rw [update_of_ne hne, update_of_ne hne]
      exact h.slot_eq j
  · rw [TxShared.setSlot_buffer, update_of_ne (by omega)]
    exact ⟨rfl, rfl⟩
  · rw [TxShared.setSlot_buffer]
    rcases eq_or_ne j (s.sh.txBuffer 0) with rfl | hne
    · rwa [update_self]
    · rw [update_of_ne hne]

/-- Both threads write the counter, or an offset behind the open calls. -/
theorem frame_tx (h : Follows env s y n owed) {app : AppPc} {i v : ℕ}
    (hi : i = 0 ∨ n + owed.length < i)
    (hdepth : (y.sh.setTx i v).txBuffer 0 = n + owed.length + app.entering)
    (hlt : (y.sh.setTx i v).txBuffer 0 < maxActiveTxs) (hmono : i = 0 → s.sh.txBuffer 0 ≤ v)
    (happ : AppAt { s with sh := s.sh.setTx i v, app := app }
      { y with sh := y.sh.setTx i v, app := app } owed) :
    Follows env { s with sh := s.sh.setTx i v, app := app }
      { y with sh := y.sh.setTx i v, app := app } n owed := by
  have hzero : (s.sh.setTx i v).txBuffer 0 = (y.sh.setTx i v).txBuffer 0 ∧
      s.sh.txBuffer 0 ≤ (s.sh.setTx i v).txBuffer 0 := by
    rw [TxShared.setTx_txBuffer, TxShared.setTx_txBuffer]
    rcases eq_or_ne i 0 with rfl | hne
    · rw [update_self, update_self]
      exact ⟨rfl, hmono rfl⟩
    · rw [update_of_ne (Ne.symm hne), update_of_ne (Ne.symm hne)]
      exact ⟨h.count_eq, le_refl _⟩
  refine h.frame ⟨rfl, rfl⟩ ⟨rfl, rfl⟩ h.slot_eq (fun j _ => ⟨rfl, rfl⟩) (fun j => rfl)
    (fun j hj hle => ?_) hzero.1 hdepth hlt hzero.2 happ
  rw [TxShared.setTx_txBuffer, TxShared.setTx_txBuffer, update_of_ne (by omega),
    update_of_ne (by omega)]
  exact ⟨rfl, rfl⟩

/-- `notify` sets the tag. The synchronous mode logs the call; here it is owed. -/
theorem announce (h : Follows env s y n owed) {c : MethodCall} {todo : List Event} {shy : TxShared}
    (htodo : y.todo = .notify c :: todo) (happ : y.app = .cleared)
    (hlog : savitarPersisterLog env (y.sh.setTag (y.sh.txBuffer 0 - 1) c.tag)
      (y.sh.txBuffer 0 - 1) = some shy) :
    shy.mem = y.sh.mem ∧ ∃ w : OwedCall, w.call = c ∧ Follows env
      { s with
        sh := s.sh.setTag (s.sh.txBuffer 0 - 1) c.tag
        app := .ready
        todo := todo }
      { y with sh := shy, app := .ready, todo := todo } n (owed ++ [w]) := by
  obtain ⟨hann, hclear⟩ : Announced y.sh (y.sh.txBuffer 0 - 1) c c.args.length ∧
      s.sh.txBuffer (s.sh.txBuffer 0) = 0 := by
    have := h.appAt
    rwa [AppAt, htodo, happ] at this
  have hdepth := h.depth_eq
  rw [happ, AppPc.entering] at hdepth
  have hlast : y.sh.txBuffer 0 - 1 = n + owed.length := by omega
  rw [h.count_eq, hdepth] at hclear
  rw [h.count_eq, hlast]
  rw [hlast] at hann hlog
  obtain ⟨off, log, happend, hlogs, htx, hmem, hslot⟩ := savitarPersisterLog_setTag hlog
  rw [hann.1] at happend hlogs
  obtain ⟨hoff, -, -, hlog⟩ := savitarLogAppend_offset happend
  have hsame : ∀ j < n + owed.length, SameUpTo y.sh shy j := fun j hj =>
    ⟨fun i _ => hslot i, fun i _ hi => by rw [htx, update_of_ne (by omega)]⟩
  refine ⟨hmem, ⟨c, callVector env y.sh (n + owed.length) c.tag, off⟩, rfl, ?_⟩
  refine { h with
    todo_eq := rfl
    app_eq := rfl
    mem_eq := h.mem_eq.trans hmem.symm
    slot_eq := fun j => ?_
    count_eq := ?_
    depth_eq := ?_
    depth_lt := ?_
    tag_logged := fun j hj => ?_
    tag_owed := fun i => ?_
    tx_logged := fun j hj hle => ?_
    tx_owed := fun i hi => ?_
    loggedAt := fun i w hw => ?_
    final_pos := ?_
    persisterAt := ?_
    appAt := ?_ }
  · rw [TxShared.setTag_objPtr, TxShared.setTag_argPtrs, (hslot j).1, (hslot j).2]
    exact h.slot_eq j
  · rw [htx, TxShared.setTag_txBuffer, update_of_ne (by omega), h.count_eq]
  · rw [htx, update_of_ne (by omega), hdepth, List.length_append, List.length_singleton]
    rfl
  · rw [htx, update_of_ne (by omega)]
    exact h.depth_lt
  · rw [TxShared.setTag_methodTag, if_neg (by omega)]
    exact h.tag_logged j hj
  · rw [TxShared.setTag_methodTag]
    rcases Nat.lt_trichotomy i owed.length with hi | rfl | hi
    · rw [if_neg (by omega), List.getElem?_append_left hi]
      exact h.tag_owed i
    · simp
    · rw [if_neg (by omega), h.tag_owed i, List.getElem?_eq_none (by omega),
        List.getElem?_eq_none (by simp; omega)]
  · rw [htx, TxShared.setTag_txBuffer, update_of_ne (by omega)]
    exact h.tx_logged j hj hle
  · rw [TxShared.setTag_txBuffer]
    rw [List.length_append, List.length_singleton] at hi
    rcases Nat.lt_succ_iff_lt_or_eq.mp hi with hi | rfl
    · rw [h.tx_owed i hi, htx, update_of_ne (by omega)]
    · -- the first owed call cannot have been logged before it was announced
      rw [hclear, if_neg]
      rintro ⟨hnil, hack⟩
      obtain rfl := List.eq_nil_of_length_eq_zero hnil
      have hsearch : s.persister.searching = true := h.persisterAt.nil.1
      rw [show s.persister = .acknowledge from hack] at hsearch
      cases hsearch
  · rcases Nat.lt_or_ge i owed.length with hi | hi
    · rw [List.getElem?_append_left hi] at hw
      exact (h.loggedAt i w hw).frame (hsame _ (by omega)) hmem
    · obtain ⟨hlen, rfl⟩ := List.getElem?_eq_some_iff.mp hw
      obtain rfl : i = owed.length := by
        rw [List.length_append, List.length_singleton] at hlen
        omega
      rw [List.getElem_append_right (le_refl _)]
      simp only [Nat.sub_self, List.getElem_cons_zero]
      refine ⟨⟨(hslot _).1.trans hann.1, ?_⟩, ?_, ?_, ?_⟩
      · rw [(hslot _).2]
        exact hann.2
      · rw [htx, update_self]
      · exact hoff ▸ Nat.ne_of_gt (h.final_pos _)
      · exact callVector_congr (fun i _ => hslot i)
          (fun hpos => by rw [htx, update_of_ne (by omega)]) hmem
  · rw [hlogs]
    refine tail_pos_update h.final_pos ?_
    rw [hlog]
    exact Nat.add_pos_left (h.final_pos _) _
  · refine h.persisterAt.frame rfl (fun j _ => TxShared.setTag_objPtr _ _ _ j) (fun j _ _ => rfl)
      (fun w _ r hr => hr.congr (TxShared.setTag_argPtrs _ _ _ n) rfl) fun logs ws hws => ?_
    rw [hlogs]
    exact hws.snoc happend
  · exact appAt_ready rfl

/-- The steps of `notify`. -/
theorem notify_step (h : Follows env s y n owed) {c : MethodCall} {todo : List Event}
    {y' : ProgramState} (htodo : y.todo = .notify c :: todo)
    (hroom : n + owed.length < maxActiveTxs - 1) (hy : appStep env true y = some y') :
    ∃ s', appStep env false s = some s' ∧ y.app.leaving = 0 ∧ y'.app.leaving = 0 ∧
      y'.sh.mem = y.sh.mem ∧ (y'.todo = y.todo ∧ Follows env s' y' n owed ∨
        y'.todo = todo ∧ ∃ w : OwedCall, w.call = c ∧ Follows env s' y' n (owed ++ [w])) := by
  have hcount := h.count_eq
  have hdepth := h.depth_eq
  have hslot := h.slot_eq
  have happ := h.appAt
  obtain ⟨shs, todos, apps, pc, id⟩ := s
  obtain ⟨shy, todoy, appy, pcy, idy⟩ := y
  obtain rfl : todos = todoy := h.todo_eq
  obtain rfl : apps = appy := h.app_eq
  dsimp only at htodo hcount hdepth hslot happ
  subst htodo
  cases apps with
  | ready =>
    obtain ⟨hlt, hy⟩ := Option.ite_none_right_eq_some.mp hy
    cases hy
    refine ⟨_, if_pos (hcount ▸ hlt), rfl, rfl, rfl, .inl ⟨rfl, ?_⟩⟩
    refine h.frame_slot hdepth ⟨rfl, ?_⟩ rfl ⟨?_, fun i a hi => absurd hi (Nat.not_lt_zero i)⟩
    · exact hcount ▸ (hslot _).2
    · simp
  | setArgs k =>
    obtain ⟨hobj, hargs⟩ : Announced shy (shy.txBuffer 0) c k := happ
    dsimp only [appStep] at hy ⊢
    cases hk : c.args[k]? with
    | some a =>
      rw [hk] at hy
      cases hy
      refine ⟨_, rfl, rfl, rfl, rfl, .inl ⟨rfl, ?_⟩⟩
      refine h.frame_slot hdepth ⟨?_, ?_⟩ rfl ⟨?_, fun i b hi hb => ?_⟩
      · exact hcount ▸ (hslot _).1
      · rw [hcount, (hslot _).2]
      · simpa using hobj
      · simp only [TxShared.setSlot_txBuffer, TxShared.setSlot_buffer, update_self]
        rcases Nat.lt_succ_iff_lt_or_eq.mp hi with hlt | rfl
        · rw [update_of_ne (by omega), hargs i b hlt hb]
        · rw [update_self]
          exact Option.some.inj (hk.symm.trans hb)
    | none =>
      rw [hk] at hy
      cases hy
      refine ⟨_, rfl, rfl, rfl, rfl, .inl ⟨rfl, ?_⟩⟩
      rw [hcount]
      refine h.frame_tx (.inl rfl) ?_ ?_ (fun _ => by dsimp only; omega) ⟨?_, fun i a hi ha => ?_⟩
      · simp [hdepth, AppPc.entering]
      · simp [hdepth, AppPc.entering, maxActiveTxs] at hroom ⊢
        omega
      · simpa using hobj
      · have hik : i < k := Nat.lt_of_lt_of_le hi (List.getElem?_eq_none_iff.mp hk)
        simpa using hargs i a hik ha
  | counted =>
    have hann : Announced shy (shy.txBuffer 0 - 1) c c.args.length := happ
    dsimp only [AppPc.entering] at hdepth
    cases hy
    refine ⟨_, rfl, rfl, rfl, rfl, .inl ⟨rfl, ?_⟩⟩
    dsimp only
    rw [hcount]
    have hne : shy.txBuffer 0 ≠ 0 := by omega
    refine h.frame_tx (.inr (by omega)) ?_ ?_ (fun h0 => absurd h0 hne) ⟨?_, ?_⟩
    · rw [TxShared.setTx_txBuffer, update_of_ne (Ne.symm hne)]
      exact hdepth
    · simpa [update_of_ne (Ne.symm hne)] using h.depth_lt
    · rw [TxShared.setTx_txBuffer, update_of_ne (Ne.symm hne)]
      exact hann
    · simp [update_of_ne (Ne.symm hne), hcount]
  | cleared =>
    -- here the synchronous program logs the call, and the other one owes it
    dsimp only [appStep] at hy ⊢
    simp only [if_true] at hy
    obtain ⟨sh', hlog, hy⟩ := Option.map_eq_some_iff.mp hy
    subst hy
    obtain ⟨hmem, w, hw, h'⟩ := h.announce rfl rfl hlog
    exact ⟨_, rfl, rfl, rfl, hmem, .inr ⟨rfl, w, hw, h'⟩⟩
  | _ => cases hy

/-- Nothing is owed when the innermost tag is read as zero. -/
theorem owed_eq_nil (h : Follows env s y n owed) (happ : y.app.entering = 0)
    (htag : (s.sh.buffer (predWord (s.sh.txBuffer 0))).methodTag = 0) : owed = [] := by
  have hdepth := h.depth_eq
  rw [happ] at hdepth
  by_contra howed
  have hlen := List.length_pos_of_ne_nil howed
  rw [h.count_eq, predWord, if_neg (by omega)] at htag
  exact (h.tag_ne_of_owed (by omega) (by omega)).1 htag

/-- While nothing is owed, both threads write the same log. -/
theorem frame_log (h : Follows env s y n []) {o : ℕ} {log : RedoLog} {app : AppPc}
    {todo : List Event} (hlog : log.tail = (y.sh.logs o).tail)
    (hentering : app.entering = y.app.entering)
    (happ : AppAt { s with sh := s.sh.setLog o log, app := app, todo := todo }
      { y with sh := y.sh.setLog o log, app := app, todo := todo } []) :
    Follows env { s with sh := s.sh.setLog o log, app := app, todo := todo }
      { y with sh := y.sh.setLog o log, app := app, todo := todo } n [] := by
  obtain ⟨hpc, hlogs⟩ := h.persisterAt.nil
  exact { h with
    todo_eq := rfl
    app_eq := rfl
    depth_eq := h.depth_eq.trans (by rw [hentering])
    loggedAt := fun i w hw => by simp at hw
    tail_pos := tail_pos_update h.tail_pos (by rw [hlog]; exact h.final_pos o)
    final_pos := tail_pos_update h.final_pos (by rw [hlog]; exact h.final_pos o)
    persisterAt := .searching hpc (by rw [TxShared.setLog_logs, hlogs]; rfl)
    appAt := happ }

/-- The innermost call is counted out. -/
theorem pop (h : Follows env s y n []) (happ : y.app.entering = 0) (hpos : 0 < n) :
    Follows env { s with sh := s.sh.setTx 0 (n - 1), app := .popped n }
      { y with sh := y.sh.setTx 0 (n - 1), app := .popped n } (n - 1) [] := by
  obtain ⟨hpc, hlogs⟩ := h.persisterAt.nil
  have hdepth := h.depth_eq
  rw [happ, List.length_nil] at hdepth
  exact { h with
    app_eq := rfl
    count_eq := by simp
    depth_eq := by simp [AppPc.entering]
    depth_lt := by
      have := h.depth_lt
      simp only [TxShared.setTx_txBuffer, update_self]
      omega
    tag_logged := fun j hj => h.tag_logged j (by omega)
    tag_owed := fun i => by
      rcases Nat.eq_zero_or_pos i with rfl | hi
      · exact h.tag_logged (n - 1) (by omega)
      · have := h.tag_owed (i - 1)
        rwa [show n + (i - 1) = n - 1 + i by omega] at this
    tx_logged := fun j hj hle => by
      simp only [TxShared.setTx_txBuffer, update_of_ne (Nat.ne_of_gt hj)]
      exact h.tx_logged j hj (by omega)
    tx_owed := fun i hi => absurd hi (by simp)
    loggedAt := fun i w hw => by simp at hw
    active := .inl (h.active.resolve_right fun hlast => Nat.ne_of_gt hpos hlast.2.1)
    persisterAt := .searching hpc hlogs
    appAt := by
      have hn := (h.tx_logged n hpos (le_refl n)).1
      unfold AppAt
      simp [update_of_ne (Nat.ne_of_gt hpos), hn] }

/-- The steps of `wait`. -/
theorem wait_step (h : Follows env s y n owed) {o : ℕ} {todo : List Event} {y' : ProgramState}
    (htodo : y.todo = .wait o :: todo) (hy : appStep env true y = some y') :
    ∃ s', appStep env false s = some s' ∧ (s' = s ∧ owed ≠ [] ∧ y.app.entering = 0 ∨
      owed = [] ∧ ∃ n', Follows env s' y' n' [] ∧ y'.sh.mem = y.sh.mem ∧
        (y'.todo = y.todo ∧ n' + y'.app.leaving = n + y.app.leaving ∨
          y'.todo = todo ∧ y'.app = .ready ∧ n' + 1 = n + y.app.leaving)) := by
  have hcount := h.count_eq
  have hdepth := h.depth_eq
  have happ := h.appAt
  obtain ⟨shs, todos, apps, pc, id⟩ := s
  obtain ⟨shy, todoy, appy, pcy, idy⟩ := y
  obtain rfl : todos = todoy := h.todo_eq
  obtain rfl : apps = appy := h.app_eq
  dsimp only at htodo hcount hdepth happ
  subst htodo
  cases apps with
  | ready =>
    cases hy
    by_cases htag : (shs.buffer (predWord (shs.txBuffer 0))).methodTag = 0
    · obtain rfl := h.owed_eq_nil rfl htag
      refine ⟨_, if_pos (.inr htag), .inr ⟨rfl, n, ?_, rfl, .inl ⟨rfl, rfl⟩⟩⟩
      exact h.frame ⟨rfl, rfl⟩ ⟨rfl, rfl⟩ h.slot_eq (fun j _ => ⟨rfl, rfl⟩) (fun j => rfl)
        (fun j _ _ => ⟨rfl, rfl⟩) hcount hdepth h.depth_lt (le_refl _) rfl
    · refine ⟨_, if_neg (by simpa using htag), .inl ⟨rfl, ?_, rfl⟩⟩
      rintro rfl
      have := (h.owed_of_tag_ne htag).2.1
      have := (h.owed_of_tag_ne htag).1
      simp at *
      omega
  | acknowledged =>
    obtain rfl : owed = [] := happ
    obtain ⟨hpos, hy⟩ := Option.ite_none_right_eq_some.mp hy
    cases hy
    obtain rfl : shy.txBuffer 0 = n := hdepth
    have hpop := h.pop rfl hpos
    refine ⟨_, if_pos (hcount ▸ hpos), .inr ⟨rfl, shy.txBuffer 0 - 1, ?_, rfl, .inl ⟨rfl, ?_⟩⟩⟩
    · rw [hcount]
      exact hpop
    · exact Nat.sub_add_cancel hpos
  | popped i =>
    obtain ⟨rfl, htx⟩ : owed = [] ∧ shs.txBuffer i = shy.txBuffer i := happ
    cases hy
    refine ⟨_, rfl, .inr ⟨rfl, n, ?_, rfl, .inl ⟨rfl, rfl⟩⟩⟩
    rw [htx]
    exact h.frame ⟨rfl, rfl⟩ ⟨rfl, rfl⟩ h.slot_eq (fun j _ => ⟨rfl, rfl⟩) (fun j => rfl)
      (fun j _ _ => ⟨rfl, rfl⟩) hcount hdepth h.depth_lt (le_refl _) rfl
  | committing offset =>
    obtain rfl : owed = [] := happ
    have hlogs : shs.logs = shy.logs := h.persisterAt.nil.2
    obtain ⟨hid, hy⟩ := Option.ite_none_right_eq_some.mp hy
    cases hy
    refine ⟨_, if_pos (hlogs ▸ hid), .inr ⟨rfl, n, ?_, rfl, .inl ⟨rfl, rfl⟩⟩⟩
    rw [hlogs]
    exact h.frame_log rfl rfl rfl
  | idTaken offset commitId =>
    obtain rfl : owed = [] := happ
    have hlogs : shs.logs = shy.logs := h.persisterAt.nil.2
    cases hy
    refine ⟨_, rfl, .inr ⟨rfl, n, ?_, rfl, .inr ⟨rfl, rfl, rfl⟩⟩⟩
    rw [hlogs]
    exact h.frame_log rfl rfl (appAt_ready rfl)
  | _ => cases hy

/-- The application thread's own code leaves the arguments of the open calls alone. -/
theorem write_step (h : Follows env s y n owed) {m : Mem} {todo : List Event} {y' : ProgramState}
    (htodo : y.todo = .write m :: todo)
    (hargs : ∀ w ∈ owed, ∀ argPtrs : ℕ → ℕ,
      (∀ i a, w.call.args[i]? = some a → argPtrs i = a) →
        env.logVector w.call.obj w.call.tag argPtrs m =
          env.logVector w.call.obj w.call.tag argPtrs y.sh.mem)
    (hy : appStep env true y = some y') :
    ∃ s', appStep env false s = some s' ∧ Follows env s' y' n owed ∧ y'.todo = todo ∧
      y'.sh.mem = m ∧ y'.app.leaving = y.app.leaving := by
  have hmem := h.mem_eq
  obtain ⟨shs, todos, apps, pc, id⟩ := s
  obtain ⟨shy, todoy, appy, pcy, idy⟩ := y
  obtain rfl : todos = todoy := h.todo_eq
  obtain rfl : apps = appy := h.app_eq
  dsimp only at htodo hargs hmem
  subst htodo
  cases apps with
  | ready =>
    cases hy
    refine ⟨_, rfl, ?_, rfl, rfl, rfl⟩
    refine { h with
      todo_eq := rfl
      mem_eq := rfl
      loggedAt := fun i w hw => ?_
      persisterAt := ?_
      appAt := appAt_ready rfl }
    · have hlogged := h.loggedAt i w hw
      refine ⟨hlogged.announced, hlogged.offset_eq, hlogged.offset_ne, ?_⟩
      rw [← hlogged.vector_eq]
      unfold callVector
      split
      · rfl
      · dsimp only
        rw [hlogged.announced.1]
        exact hargs w (List.mem_of_getElem? hw) _ fun k a hk =>
          hlogged.announced.2 k a (List.getElem?_eq_some_iff.mp hk).1 hk
    · have hat : PersisterAt env ⟨{ shs with mem := m }, todo, .ready, pc, id⟩ shy.logs n
          (owed ++ []) := by
        refine h.persisterAt.frame rfl (fun j _ => rfl) (fun j _ _ => rfl) (fun w hw r hr => ?_)
          fun logs ws hws => by rwa [List.append_nil]
        refine ⟨?_, hr.2⟩
        rw [← hr.1]
        cases r with
        | nested tag parent => rfl
        | outer tag =>
          obtain ⟨rfl, rfl⟩ := hr.2 tag rfl
          have hann := (h.loggedAt 0 w hw).announced
          have hslot : (shs.buffer 0).argPtrs = (shy.buffer 0).argPtrs := (h.slot_eq 0).2
          simp only [LogRequest.vector]
          rw [hslot, hmem]
          exact hargs w (List.mem_of_getElem? hw) _ fun k a hk =>
            hann.2 k a (List.getElem?_eq_some_iff.mp hk).1 hk
      rwa [List.append_nil] at hat
  | _ => cases hy

end Follows

/-! ## Whole runs -/

/-- The asynchronous program is in step with the synchronous one, which ends in `final` after the
steps `rest`. -/
structure InSync (env : Objects) (s y : ProgramState) (n : ℕ) (owed : List OwedCall)
    (rest : List Unit) (final : ProgramState) : Prop where
  follows : Follows env s y n owed
  run_eq : run (syncStep env) y rest = some final
  finished : final.Finished
  /-- The calls that are open, innermost first. -/
  opened : ∃ calls, ProperlyNested env ((owed.map OwedCall.call).reverse ++ calls) y.sh.mem y.todo ∧
    calls.length = n + y.app.leaving

namespace InSync

variable {s y final : ProgramState} {n : ℕ} {owed : List OwedCall} {rest : List Unit}

/-- A step of the persister. -/
theorem persister_step (h : InSync env s y n owed rest final) :
    ∃ s' n' owed', persisterStep env s = some s' ∧ InSync env s' y n' owed' rest final ∧
      (n' = n ∧ owed' = owed ∧ s.persister ≠ .acknowledge ∨ Follows.Logs s s' n n' owed owed') := by
  obtain ⟨s', n', owed', hstep, hfollows, hsame⟩ := h.follows.persister_step
  refine ⟨s', n', owed', hstep, ⟨hfollows, h.run_eq, h.finished, ?_⟩, hsame⟩
  obtain ⟨calls, hnested, hlen⟩ := h.opened
  rcases hsame with ⟨rfl, rfl, -⟩ | ⟨-, -, -, rfl, w, rfl⟩
  · exact ⟨calls, hnested, hlen⟩
  · refine ⟨w.call :: calls, by simpa using hnested, ?_⟩
    rw [List.length_cons, hlen]
    omega

/-- A step of the application thread, unless it spins. -/
theorem app_step {u : Unit} (h : InSync env s y n owed (u :: rest) final) :
    ∃ s', appStep env false s = some s' ∧ (s' = s ∧ owed ≠ [] ∧ y.app.entering = 0 ∨
      ∃ y' n' owed', InSync env s' y' n' owed' rest final) := by
  obtain ⟨y', hy, hrun⟩ := run_cons.mp h.run_eq
  replace hy : appStep env true y = some y' := hy
  obtain ⟨calls, hnested, hlen⟩ := h.opened
  have hfollows := h.follows
  cases htodo : y.todo with
  | nil =>
    rw [appStep, htodo] at hy
    cases hy
  | cons e todo =>
    rw [htodo] at hnested
    cases e with
    | notify c =>
      obtain ⟨hroom, hnext⟩ := hnested
      rw [List.length_append, List.length_reverse, List.length_map] at hroom
      obtain ⟨s', hs, hleave, hleave', hmem, hcase⟩ :=
        hfollows.notify_step htodo (by omega) hy
      refine ⟨s', hs, .inr ?_⟩
      rw [hleave, ← hleave'] at hlen
      rcases hcase with ⟨hsame, hf⟩ | ⟨hdone, w, rfl, hf⟩
      · refine ⟨y', n, owed, hf, hrun, h.finished, calls, ?_, hlen⟩
        rw [hmem, hsame, htodo]
        exact ⟨by simp; omega, hnext⟩
      · refine ⟨y', n, owed ++ [w], hf, hrun, h.finished, calls, ?_, hlen⟩
        rw [hmem, hdone]
        simpa using hnext
    | wait o =>
      obtain ⟨s', hs, hspin | ⟨rfl, n', hf, hmem, hcase⟩⟩ := hfollows.wait_step htodo hy
      · exact ⟨s', hs, .inl hspin⟩
      refine ⟨s', hs, .inr ⟨y', n', [], hf, hrun, h.finished, ?_⟩⟩
      rcases hcase with ⟨hsame, hleave⟩ | ⟨hdone, happ, hleave⟩
      · refine ⟨calls, ?_, hlen.trans hleave.symm⟩
        rw [hmem, hsame, htodo]
        exact hnested
      · obtain ⟨c, calls', hcalls, -, hnext⟩ := hnested
        obtain rfl : calls = c :: calls' := hcalls
        refine ⟨calls', ?_, ?_⟩
        · rw [hmem, hdone]
          exact hnext
        · rw [happ, show AppPc.ready.leaving = 0 from rfl]
          rw [List.length_cons] at hlen
          omega
    | write m =>
      obtain ⟨hkeep, hnext⟩ := hnested
      obtain ⟨s', hs, hf, hdone, hmem, hleave⟩ := hfollows.write_step htodo
        (fun w hw => hkeep w.call (by simpa using .inl ⟨w, hw, rfl⟩)) hy
      refine ⟨s', hs, .inr ⟨y', n, owed, hf, hrun, h.finished, calls, ?_, hlen.trans ?_⟩⟩
      · rw [hmem, hdone]
        exact hnext
      · rw [hleave]

/-- A step of either thread. -/
theorem step (h : InSync env s y n owed rest final) {a : Actor} {s' : ProgramState}
    (hstep : asyncStep env s a = some s') :
    ∃ y' n' owed' rest', InSync env s' y' n' owed' rest' final := by
  cases a with
  | persister =>
    obtain ⟨t, n', owed', ht, h', -⟩ := h.persister_step
    obtain rfl : t = s' := Option.some.inj (ht.symm.trans hstep)
    exact ⟨y, n', owed', rest, h'⟩
  | app =>
    cases rest with
    | nil =>
      -- the synchronous program has ended, so there is nothing left to do
      obtain rfl : y = final := Option.some.inj h.run_eq
      have htodo := h.follows.todo_eq.trans h.finished.1
      simp [asyncStep, appStep, htodo] at hstep
    | cons u rest =>
      obtain ⟨t, ht, hcase⟩ := h.app_step
      obtain rfl : t = s' := Option.some.inj (ht.symm.trans hstep)
      rcases hcase with ⟨rfl, -, -⟩ | ⟨y', n', owed', h'⟩
      · exact ⟨y, n, owed, u :: rest, h⟩
      · exact ⟨y', n', owed', rest, h'⟩

end InSync

/-! ## The persister comes to every call that is owed -/

/-- A bound on the steps until the first owed call is logged, which is in slot `n`, has `len` vector
elements, and is followed by others up to slot `d`. A slot whose tag has been set since it was read
as zero is passed over once. -/
def PersisterPc.effort (n d len id : ℕ) : PersisterPc → ℕ
  | .poll => 10 * ((id - n) + (n - id)) + len + 29
  | .idleCheck => 10 * ((id - n) + (n - id)) + len + 28 + if n ≤ id ∧ id < d then 20 else 0
  | .above => 10 * ((id - n) + (n - id)) + len + 27 + if n ≤ id ∧ id < d then 20 else 0
  | .below => 10 * ((id - n) + (n - id)) + len + 26 + if n ≤ id then 20 else 0
  | .tagged => 10 * ((id - n) + (n - id)) + len + 28
  | .found => 10 * ((id - n) + (n - id)) + len + 27
  | .loaded _ => 10 * ((id - n) + (n - id)) + len + 26
  | .parentLogged _ => len + 10
  | .tagBuilt _ _ => len + 9
  | .append _ _ => len + 8
  | .magic _ _ _ => len + 7
  | .copy _ _ _ _ k => len - k + 3
  | .publish _ => 2
  | .acknowledge => 1
  | .terminated => 0

namespace Follows

variable {s s' y : ProgramState} {n : ℕ} {w : OwedCall} {ws : List OwedCall}

/-- **Looking for a call takes a bounded number of steps**: each comparison leads to the next slot
or back to the first call that is owed. -/
theorem effort_lt_of_searching (h : Follows env s y n (w :: ws)) (happ : y.app.entering = 0)
    (hpc : s.persister.searching = true) (hstep : persisterStep env s = some s') :
    s'.persister.effort n (n + ws.length + 1) w.vector.length s'.activeTxId <
      s.persister.effort n (n + ws.length + 1) w.vector.length s.activeTxId := by
  have hcount : s.sh.txBuffer 0 = n + ws.length + 1 := by
    have := h.depth_eq
    rw [h.count_eq, this, happ]
    rfl
  obtain ⟨sh, todo, app, pc, id⟩ := s
  have htag : (sh.buffer id).methodTag = 0 ↔ ¬ (n ≤ id ∧ id < n + ws.length + 1) := by
    constructor
    · exact fun htag hid => (h.tag_ne_of_owed hid.1 hid.2).1 htag
    · intro hid
      by_contra htag
      obtain ⟨hlo, hhi, -⟩ := h.owed_of_tag_ne htag
      exact hid ⟨hlo, hhi⟩
  dsimp only at hcount hpc
  have hpred : predWord (sh.txBuffer 0) = n + ws.length := by
    rw [hcount, predWord, if_neg (by omega), Nat.add_sub_cancel]
  cases pc with
  | poll =>
    cases hstep
    by_cases hzero : (sh.buffer id).methodTag = 0
    · simp only [hzero, if_true, PersisterPc.effort, if_neg (htag.mp hzero)]
      omega
    · simp only [hzero, if_false, PersisterPc.effort]
      omega
  | idleCheck =>
    simp only [persisterStep] at hstep
    rw [if_neg (by omega)] at hstep
    cases hstep
    simp [PersisterPc.effort]
  | above =>
    simp only [persisterStep, hpred] at hstep
    split at hstep
    all_goals
      cases hstep
      dsimp only [PersisterPc.effort]
      split_ifs <;> omega
  | below =>
    simp only [persisterStep, hpred] at hstep
    split at hstep
    all_goals
      cases hstep
      dsimp only [PersisterPc.effort]
      split_ifs <;> omega
  | _ => cases hpc

/-- Once a call is found each step brings its append closer. -/
theorem effort_lt_of_chosen (h : Follows env s y n (w :: ws)) (hlo : n ≤ s.activeTxId)
    (hhi : s.activeTxId < n + ws.length + 1) (hpc : Chosen s.sh s.activeTxId n s.persister)
    (hstep : persisterStep env s = some s') :
    s'.persister.effort n (n + ws.length + 1) w.vector.length s'.activeTxId <
      s.persister.effort n (n + ws.length + 1) w.vector.length s.activeTxId := by
  obtain ⟨sh, todo, app, pc, id⟩ := s
  have hmax : (sh.buffer id).methodTag ≠ uint64Max := (h.tag_ne_of_owed hlo hhi).2
  dsimp only at hlo hhi hpc
  cases hpc with
  | tagged =>
    cases hstep
    simp [hmax, PersisterPc.effort]
  | found =>
    cases hstep
    simp [PersisterPc.effort]
  | loaded =>
    simp only [persisterStep] at hstep
    split at hstep
    · split at hstep
      · rename_i hpos hparent
        -- a parent that is not logged is owed itself
        have hne : id ≠ n := by
          rintro rfl
          have htx := h.tx_logged id hpos (le_refl id)
          exact htx.2 (htx.1.symm.trans hparent)
        cases hstep
        dsimp only [PersisterPc.effort]
        omega
      · cases hstep
        dsimp only [PersisterPc.effort]
        omega
    · cases hstep
      dsimp only [PersisterPc.effort]
      omega
  | parentLogged heq hn =>
    cases hstep
    simp [PersisterPc.effort]
  | tagBuilt heq hn =>
    cases hstep
    simp [PersisterPc.effort]

/-- Each element of the vector that is copied brings the end closer. -/
theorem effort_lt_of_writing {logs' : ℕ → RedoLog}
    (hpc : Writing env s.sh s.activeTxId w logs' s.persister) (hack : s.persister ≠ .acknowledge)
    (hstep : persisterStep env s = some s') :
    s'.persister.effort n (n + ws.length + 1) w.vector.length s'.activeTxId <
      s.persister.effort n (n + ws.length + 1) w.vector.length s.activeTxId := by
  obtain ⟨sh, todo, app, pc, id⟩ := s
  dsimp only at hpc hack
  cases hpc with
  | append hr happend hlogs =>
    obtain ⟨-, hstep⟩ := Option.ite_none_right_eq_some.mp hstep
    cases hstep
    simp [PersisterPc.effort]
  | magic hr hlogs =>
    cases hstep
    simp [PersisterPc.effort]
  | copy hr hlogs =>
    simp only [persisterStep, hr.1] at hstep
    split at hstep
    · rename_i bs hbs
      have hk := (List.getElem?_eq_some_iff.mp hbs).1
      cases hstep
      dsimp only [PersisterPc.effort]
      omega
    · cases hstep
      dsimp only [PersisterPc.effort]
      omega
  | publish hlogs =>
    cases hstep
    simp [PersisterPc.effort]
  | acknowledge hlogs => exact absurd rfl hack

/-- Every step of the persister that logs nothing brings it nearer to the first owed call. -/
theorem effort_lt (h : Follows env s y n (w :: ws)) (happ : y.app.entering = 0)
    (hack : s.persister ≠ .acknowledge) (hstep : persisterStep env s = some s') :
    s'.persister.effort n (n + ws.length + 1) w.vector.length s'.activeTxId <
      s.persister.effort n (n + ws.length + 1) w.vector.length s.activeTxId := by
  cases h.persisterAt with
  | searching hpc hrest => exact h.effort_lt_of_searching happ hpc hstep
  | chosen hlo hhi hpc hrest => exact h.effort_lt_of_chosen hlo hhi hpc hstep
  | writing howed hactive hpc hrest =>
    cases howed
    exact effort_lt_of_writing (hactive ▸ hpc) hack hstep

end Follows

/-- A bound on the steps until nothing is owed. -/
def ProgramState.effort (s : ProgramState) (n : ℕ) : List OwedCall → ℕ
  | [] => 0
  | w :: ws =>
    s.persister.effort n (n + ws.length + 1) w.vector.length s.activeTxId +
      (ws.map fun u => u.vector.length + 50).sum

namespace InSync

variable {s y final : ProgramState} {n : ℕ} {owed : List OwedCall} {rest : List Unit}

/-- The persister alone logs everything that is owed, once the application thread waits. -/
theorem drain (h : InSync env s y n owed rest final) (happ : y.app.entering = 0) :
    ∃ acts s' n', run (asyncStep env) s acts = some s' ∧ InSync env s' y n' [] rest final := by
  induction hm : s.effort n owed using Nat.strong_induction_on generalizing s n owed with
  | _ m ih =>
    cases owed with
    | nil => exact ⟨[], s, n, rfl, h⟩
    | cons w ws =>
      obtain ⟨s', n', owed', hstep, h', hsame⟩ := h.persister_step
      have hlt : s'.effort n' owed' < m := by
        subst hm
        rcases hsame with ⟨rfl, rfl, hack⟩ | ⟨hack, hpoll, hid, rfl, u, hws⟩
        · exact Nat.add_lt_add_right (h.follows.effort_lt happ hack hstep) _
        · cases hws
          cases ws with
          | nil => simp [ProgramState.effort, hack, PersisterPc.effort]
          | cons v vs =>
            simp only [ProgramState.effort, hack, hpoll, hid, PersisterPc.effort, List.map_cons,
              List.sum_cons]
            omega
      obtain ⟨acts, s'', n'', hrun, hend⟩ := ih _ hlt h' rfl
      exact ⟨.persister :: acts, s'', n'', run_cons.mpr ⟨s', hstep, hrun⟩, hend⟩

/-- Every state can go on to the end of the program. -/
theorem can_finish (h : InSync env s y n owed rest final) :
    ∃ acts s', run (asyncStep env) s acts = some s' ∧ s'.Finished := by
  induction rest generalizing s y n owed with
  | nil =>
    obtain rfl : y = final := Option.some.inj h.run_eq
    exact ⟨[], s, rfl, h.follows.todo_eq.trans h.finished.1, h.follows.app_eq.trans h.finished.2⟩
  | cons u rest ih =>
    obtain ⟨t, ht, hcase⟩ := h.app_step
    rcases hcase with ⟨-, -, happ⟩ | ⟨y', n', owed', h'⟩
    · -- the application thread spins until nothing is owed
      obtain ⟨acts, s₁, n₁, hrun₁, h₁⟩ := h.drain happ
      obtain ⟨s₂, hs₂, ⟨-, hnil, -⟩ | ⟨y', n', owed', h₂⟩⟩ := h₁.app_step
      · exact absurd rfl hnil
      obtain ⟨acts', s', hrun, hend⟩ := ih h₂
      refine ⟨acts ++ .app :: acts', s', ?_, hend⟩
      rw [run_append, hrun₁]
      exact run_cons.mpr ⟨s₂, hs₂, hrun⟩
    · obtain ⟨acts, s', hrun, hend⟩ := ih h'
      exact ⟨.app :: acts, s', run_cons.mpr ⟨t, ht, hrun⟩, hend⟩

/-- At the end nothing is owed. -/
theorem logs_eq (h : InSync env s y n owed rest final) (hs : s.Finished) :
    s.sh.logs = final.sh.logs := by
  have htodo := h.follows.todo_eq.symm.trans hs.1
  have happ := h.follows.app_eq.symm.trans hs.2
  cases rest with
  | nil =>
    obtain rfl : y = final := Option.some.inj h.run_eq
    obtain ⟨calls, hnested, -⟩ := h.opened
    rw [htodo] at hnested
    obtain ⟨hrev, -⟩ := List.append_eq_nil_iff.mp hnested
    obtain rfl : owed = [] := by simpa using hrev
    exact h.follows.persisterAt.nil.2
  | cons u rest =>
    obtain ⟨y', hy, -⟩ := run_cons.mp h.run_eq
    simp [syncStep, appStep, htodo] at hy

end InSync

/-- The buffers of a new thread, and logs whose entries start behind their header. -/
structure TxShared.Fresh (sh : TxShared) : Prop where
  tag_eq : ∀ j, (sh.buffer j).methodTag = 0
  tx_eq : ∀ j, sh.txBuffer j = 0
  header_le : ∀ o, redoLogHeaderSize ≤ (sh.logs o).tail

/-- Both programs start in the same state, with nothing owed. -/
theorem InSync.start {sh : TxShared} (hsh : sh.Fresh) {prog : List Event}
    (hprog : ProperlyNested env [] sh.mem prog) {rest : List Unit} {final : ProgramState}
    (hrun : run (syncStep env) (.start sh prog) rest = some final) (hfinal : final.Finished) :
    InSync env (.start sh prog) (.start sh prog) 0 [] rest final where
  follows :=
    { todo_eq := rfl
      app_eq := rfl
      mem_eq := rfl
      slot_eq := fun _ => ⟨rfl, rfl⟩
      count_eq := rfl
      depth_eq := hsh.tx_eq 0
      depth_lt := (hsh.tx_eq 0).trans_lt (by decide)
      tag_logged := fun _ hj => absurd hj (Nat.not_lt_zero _)
      tag_owed := fun i => hsh.tag_eq (0 + i)
      tx_logged := fun _ hj hle => absurd hj (by omega)
      tx_owed := fun _ hi => absurd hi (Nat.not_lt_zero _)
      loggedAt := fun i w hw => by simp at hw
      tail_pos := fun o => Nat.lt_of_lt_of_le (by decide) (hsh.header_le o)
      final_pos := fun o => Nat.lt_of_lt_of_le (by decide) (hsh.header_le o)
      active := .inl (show 0 < maxActiveTxs - 1 by decide)
      persisterAt := .searching rfl rfl
      appAt := appAt_ready rfl }
  run_eq := hrun
  finished := hfinal
  opened := ⟨[], hprog, rfl⟩

/-- **The persister logs what the synchronous mode logs.** Let a properly nested program of a new
thread run to its end in the synchronous mode. Then in every interleaving of the same program with
the persister, the persister stays inside the buffers, the program can be run to its end, and when
it has ended, the logs of all objects are those of the synchronous mode. -/
theorem async_logs_eq_sync {sh : TxShared} (hsh : sh.Fresh) {prog : List Event}
    (hprog : ProperlyNested env [] sh.mem prog) {steps : List Unit} {y : ProgramState}
    (hsync : run (syncStep env) (.start sh prog) steps = some y) (hy : y.Finished)
    {acts : List Actor} {s : ProgramState}
    (hasync : run (asyncStep env) (.start sh prog) acts = some s) :
    s.activeTxId < maxActiveTxs ∧ (s.Finished → s.sh.logs = y.sh.logs) ∧
      ∃ more s', run (asyncStep env) s more = some s' ∧ s'.Finished := by
  obtain ⟨y', n, owed, rest, h⟩ : ∃ y' n owed rest, InSync env s y' n owed rest y := by
    refine run_invariant (I := fun s => ∃ y' n owed rest, InSync env s y' n owed rest y)
      (fun s a s' hs hstep => ?_) ⟨_, _, _, _, InSync.start hsh hprog hsync hy⟩ hasync
    obtain ⟨y', n, owed, rest, h⟩ := hs
    exact h.step hstep
  refine ⟨?_, h.logs_eq, h.can_finish⟩
  rcases h.follows.active with hlt | ⟨heq, -, -⟩
  · exact Nat.lt_of_lt_of_le hlt (by decide)
  · exact heq ▸ (by decide)

/-- Objects whose `Log` writes the tag and the two bytes that the first argument points to. -/
def pointerObjects : Objects :=
  ⟨fun o => BitVec.ofNat 128 (o + 1), fun _ tag argPtrs m => [bytesLE tag 8, bytes m (argPtrs 0) 2]⟩

/-- A call on object `o` with an argument at address 16. -/
def pointerCall (o : Fin 2) : MethodCall :=
  ⟨o, o + 1, [16], by omega, by dsimp only [uint64Max]; omega, by decide⟩

/-- A call on object 0 that makes a call on object 1, which writes behind the argument. -/
def nestedProgram : List Event :=
  [.notify (pointerCall 0), .notify (pointerCall 1),
    .write (fun a => if a = 16 then 7 else if a = 18 then 9 else 0), .wait 1, .wait 0]

/-- A new thread and two empty logs. -/
def nestedStart : TxShared :=
  ⟨fun _ => ⟨0, 0, fun _ => 0⟩, fun _ => 0, fun o => savitarLogCreate (BitVec.ofNat 128 (o + 1)) 256,
    fun a => if a = 16 then 7 else 0⟩

/-- The write leaves the two bytes behind the argument. -/
theorem nestedProgram_properlyNested :
    ProperlyNested pointerObjects [] nestedStart.mem nestedProgram := by
  refine ⟨by decide, by decide, fun c hc argPtrs hargs => ?_, _, _, rfl, rfl, _, _, rfl, rfl, rfl⟩
  have hptr : argPtrs 0 = 16 := by
    rcases List.mem_pair.mp hc with rfl | rfl <;> exact hargs 0 16 rfl
  dsimp only [pointerObjects]
  rw [hptr]
  rfl

/-- The persister starts to log the outer call while the inner one is announced. -/
def nestedSchedule : List Actor :=
  List.replicate 5 .app ++ List.replicate 3 .persister ++ List.replicate 6 .app ++
    List.replicate 25 .persister ++ List.replicate 10 .app

/-- The nested calls are logged in the same order with the same bytes, though the persister logs
the outer one late. -/
theorem async_logs_eq_sync_nested :
    ∃ y s, run (syncStep pointerObjects) (.start nestedStart nestedProgram)
        (List.replicate 21 ()) = some y ∧
      run (asyncStep pointerObjects) (.start nestedStart nestedProgram) nestedSchedule = some s ∧
      s.Finished ∧ s.sh.logs = y.sh.logs := by
  have hfresh : nestedStart.Fresh := ⟨fun _ => rfl, fun _ => rfl, fun _ => le_refl _⟩
  obtain ⟨y, hy, hyend⟩ : ∃ y, run (syncStep pointerObjects) (.start nestedStart nestedProgram)
      (List.replicate 21 ()) = some y ∧ y.Finished := ⟨_, rfl, rfl, rfl⟩
  obtain ⟨s, hs, hsend⟩ : ∃ s, run (asyncStep pointerObjects) (.start nestedStart nestedProgram)
      nestedSchedule = some s ∧ s.Finished := ⟨_, rfl, rfl, rfl⟩
  exact ⟨y, s, hy, hs, hsend,
    (async_logs_eq_sync hfresh nestedProgram_properlyNested hy hyend hs).2.1 hsend⟩

end Pronto
