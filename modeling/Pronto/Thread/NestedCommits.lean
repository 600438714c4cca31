import Pronto.Log.RoundTrip
import Pronto.Thread.CallLogs
import Pronto.Thread.SyncEquivalence

/-!
# Commits of nested calls survive crashes together

The places of the two threads say how far the open calls are logged: the calls in the first `n`
slots have an entry whose append has returned, the call in slot `n` is the one that the persister
may be working on, and the calls behind it have no entry. The thread commits a call only when
nothing is left to be logged. With this every step of the program is one of the steps of
`Pronto.Thread.CallLogs`, and what recovery assumes about the durable logs holds in every state that
is reached.
-/

namespace Pronto

open Function Memory Runs Tiling

/-- An open call: what was announced, and its number. -/
structure OpenCall where
  call : MethodCall
  number : ℕ

/-- The call `w` has the entry `e`, in phase `p`. -/
structure Entered (entries : ℕ → List LoggedEntry) (ph : ℕ → Phase) (w : OpenCall)
    (e : LoggedEntry) (p : Phase) : Prop where
  mem : e ∈ entries w.call.obj
  call : e.call = w.number
  phase : ph w.number = p

/-! ## The persister -/

/-- The request for the call `w` in slot `n`. -/
def LogRequest.Of (sh : TxShared) (n : ℕ) (w : OpenCall) (r : LogRequest) : Prop :=
  r = if 0 < n then .nested (sh.txBuffer n ||| nestedTxTag) (sh.buffer (n - 1)).objPtr
    else .outer w.call.tag

/-- The persister is in the append of the call `w` in slot `n`, or behind it. -/
inductive Appending (env : Objects) (sh : TxShared) (entries : ℕ → List LoggedEntry)
    (flush : FlushStage) (ph : ℕ → Phase) (n : ℕ) (w : OpenCall) : PersisterPc → Prop
  | append {r : LogRequest} (hr : r.Of sh n w) (hflush : flush = .stored) :
    Appending env sh entries flush ph n w (.append w.call.obj r)
  | magic {r : LogRequest} {e : LoggedEntry} (hr : r.Of sh n w)
    (hv : e.vector = r.vector env sh n w.call.obj) (he : Entered entries ph w e (.writing 0))
    (hflush : flush = .stored) :
    Appending env sh entries flush ph n w (.magic w.call.obj r e.offset)
  | copy {r : LogRequest} {e : LoggedEntry} {k : ℕ} (hr : r.Of sh n w)
    (hv : e.vector = r.vector env sh n w.call.obj)
    (he : Entered entries ph w e (.writing (8 + (e.vector.take k).flatten.length)))
    (hflush : flush = .stored) :
    Appending env sh entries flush ph n w
      (.copy w.call.obj r e.offset (e.offset + 16 + (e.vector.take k).flatten.length) k)
  | drained {r : LogRequest} {e : LoggedEntry} {dst k : ℕ} (hr : r.Of sh n w)
    (hv : e.vector = r.vector env sh n w.call.obj) (hk : e.vector.length ≤ k)
    (he : Entered entries ph w e .drained) (hflush : flush = .drained) :
    Appending env sh entries flush ph n w (.copy w.call.obj r e.offset dst k)
  | persisted {r : LogRequest} {e : LoggedEntry} {dst k : ℕ} (hr : r.Of sh n w)
    (hv : e.vector = r.vector env sh n w.call.obj) (hk : e.vector.length ≤ k)
    (he : Entered entries ph w e .appended) (hflush : flush = .persisted) :
    Appending env sh entries flush ph n w (.copy w.call.obj r e.offset dst k)
  | publish {e : LoggedEntry} (he : Entered entries ph w e .appended) (hflush : flush = .stored) :
    Appending env sh entries flush ph n w (.publish e.offset)
  | acknowledge {e : LoggedEntry} (he : Entered entries ph w e .appended)
    (htx : sh.txBuffer (n + 1) = e.offset) (hflush : flush = .stored) :
    Appending env sh entries flush ph n w .acknowledge

/-- The entry of the call in the active slot has been reserved. -/
def PersisterPc.entered : PersisterPc → Bool
  | .magic .. | .copy .. | .publish _ | .acknowledge => true
  | _ => false

/-- What the place of the persister says about the open calls. -/
inductive LoggerAt (env : Objects) (sh : TxShared) (id : ℕ) (pc : PersisterPc)
    (entries : ℕ → List LoggedEntry) (flush : FlushStage) (ph : ℕ → Phase) (cs : List OpenCall)
    (n : ℕ) : Prop
  | searching (hpc : pc.searching = true) (hflush : flush = .stored)
  | chosen {w : OpenCall} (hlo : n ≤ id) (hw : cs[id]? = some w) (hpc : Chosen sh id n pc)
    (hflush : flush = .stored)
  | appending {w : OpenCall} (hw : cs[n]? = some w) (hid : id = n)
    (hpc : Appending env sh entries flush ph n w pc)

/-! ## The thread -/

/-- The thread is in `notify` of the call `c`, with `m` calls open. -/
inductive Entering (sh : TxShared) (m : ℕ) (c : MethodCall) : AppPc → Prop
  | setArgs {k : ℕ} (hcount : sh.txBuffer 0 = m) (hslot : Announced sh m c k) :
    Entering sh m c (.setArgs k)
  | counted (hcount : sh.txBuffer 0 = m + 1) (hslot : Announced sh m c c.args.length) :
    Entering sh m c .counted
  | cleared (hcount : sh.txBuffer 0 = m + 1) (hslot : Announced sh m c c.args.length)
    (htx : sh.txBuffer (m + 1) = 0) : Entering sh m c .cleared

/-- The thread is committing a call with entry `e`, with `m` calls still open. -/
inductive Leaving (sh : TxShared) (m : ℕ) (e : LoggedEntry) : AppPc → Phase → Prop
  | popped (htx : sh.txBuffer (m + 1) = e.offset) : Leaving sh m e (.popped (m + 1)) .appended
  | committing : Leaving sh m e (.committing e.offset) .appended
  | idTaken {id : ℕ} : Leaving sh m e (.idTaken e.offset id) (.taken id)

/-- What the place of the thread says about the open calls. -/
inductive CallerAt (env : Objects) (sh : TxShared) (todo : List Event) (app : AppPc)
    (unpersisted : Option (ℕ × ℕ)) (entries : ℕ → List LoggedEntry) (ph : ℕ → Phase)
    (cs : List OpenCall) (n : ℕ) (leaving : Option ℕ) : Prop
  | ready (happ : app = .ready) (hun : unpersisted = none) (hleaving : leaving = none)
    (hcount : sh.txBuffer 0 = cs.length)
    (hnest : ProperlyNested env (cs.reverse.map OpenCall.call) sh.mem todo)
  | entering {c : MethodCall} {rest : List Event} (htodo : todo = .notify c :: rest)
    (hun : unpersisted = none) (hleaving : leaving = none)
    (hnest : ProperlyNested env (cs.reverse.map OpenCall.call) sh.mem todo)
    (hpc : Entering sh cs.length c app)
  | acknowledged {o : ℕ} {rest : List Event} (htodo : todo = .wait o :: rest)
    (happ : app = .acknowledged) (hun : unpersisted = none) (hleaving : leaving = none)
    (hcount : sh.txBuffer 0 = cs.length) (hn : n = cs.length)
    (hnest : ProperlyNested env (cs.reverse.map OpenCall.call) sh.mem todo)
  | leaving {w : OpenCall} {e : LoggedEntry} {p : Phase} {rest : List Event}
    (htodo : todo = .wait w.call.obj :: rest) (hun : unpersisted = none)
    (hleaving : leaving = some w.number) (hcount : sh.txBuffer 0 = cs.length)
    (hn : n = cs.length)
    (hnest : ProperlyNested env (cs.reverse.map OpenCall.call) sh.mem rest)
    (he : Entered entries ph w e p) (hpc : Leaving sh cs.length e app p)
  | persisting {w : OpenCall} {e : LoggedEntry} {id : ℕ} (happ : app = .ready)
    (hun : unpersisted = some (w.call.obj, e.offset)) (hleaving : leaving = some w.number)
    (hcount : sh.txBuffer 0 = cs.length) (hn : n = cs.length)
    (hnest : ProperlyNested env (cs.reverse.map OpenCall.call) sh.mem todo)
    (he : Entered entries ph w e (.stored id))

/-- The two threads with the open calls `cs`, the outermost first, of which `n` are logged. -/
structure Running (env : Objects) (d : DurableState) (leaving : Option ℕ) (ph : ℕ → Phase)
    (cs : List OpenCall) (n : ℕ) : Prop where
  opened : d.opened = cs.map OpenCall.number
  nodup : (d.opened ++ leaving.toList).Nodup
  n_le : n ≤ cs.length
  slots : ∀ j w, cs[j]? = some w → Announced d.prog.sh j w.call w.call.args.length
  tags : ∀ j w, cs[j]? = some w →
    (d.prog.sh.buffer j).methodTag = if j < n then 0 else w.call.tag
  tags_zero : ∀ j, cs.length ≤ j → (d.prog.sh.buffer j).methodTag = 0
  logged : ∀ j w, j < n → cs[j]? = some w →
    ∃ e, Entered d.entries ph w e .appended ∧ d.prog.sh.txBuffer (j + 1) = e.offset
  unlogged : ∀ j, n ≤ j → j < cs.length →
    d.prog.sh.txBuffer (j + 1) = 0 ∨ j = n ∧ d.prog.persister = .acknowledge
  /-- Only logged calls and the one that is being logged have an entry. -/
  entry : ∀ o, ∀ e ∈ d.entries o, ∀ j w, cs[j]? = some w → w.number = e.call →
    j < n ∨ j = n ∧ d.prog.persister.entered = true
  logger : LoggerAt env d.prog.sh d.prog.activeTxId d.prog.persister d.entries d.flush ph cs n
  caller : CallerAt env d.prog.sh d.prog.todo d.prog.app d.unpersisted d.entries ph cs n leaving

section Frames

variable {env : Objects} {sh sh' : TxShared} {id n : ℕ} {pc : PersisterPc}
  {entries : ℕ → List LoggedEntry} {flush : FlushStage} {ph ph' : ℕ → Phase}
  {cs cs' : List OpenCall}

/-- The slots and offsets of the first `m` calls agree. -/
def SameSlots (sh sh' : TxShared) (m : ℕ) : Prop :=
  (∀ j < m, sh'.buffer j = sh.buffer j) ∧ ∀ i, 0 < i → i ≤ m → sh'.txBuffer i = sh.txBuffer i

/-- The memory that the object of the outermost call reads for its log agrees. -/
def SameOuter (env : Objects) (sh sh' : TxShared) (cs : List OpenCall) : Prop :=
  ∀ w, cs[0]? = some w → env.logVector w.call.obj w.call.tag (sh.buffer 0).argPtrs sh'.mem =
    env.logVector w.call.obj w.call.tag (sh.buffer 0).argPtrs sh.mem

theorem lt_length_of_getElem? {w : OpenCall} {j : ℕ} (h : cs[j]? = some w) : j < cs.length :=
  (List.getElem?_eq_some_iff.mp h).1

theorem LogRequest.Of.frame {w : OpenCall} {r : LogRequest} (h : r.Of sh n w)
    (hw : cs[n]? = some w) (hsame : SameSlots sh sh' cs.length) (houter : SameOuter env sh sh' cs) :
    r.Of sh' n w ∧ r.vector env sh' n w.call.obj = r.vector env sh n w.call.obj := by
  have hn := lt_length_of_getElem? hw
  unfold LogRequest.Of at h ⊢
  split at h
  · rename_i hpos
    rw [if_pos hpos, hsame.1 (n - 1) (by omega), hsame.2 n hpos (by omega)]
    subst h
    exact ⟨rfl, rfl⟩
  · rename_i hzero
    obtain rfl : n = 0 := by omega
    subst h
    refine ⟨rfl, ?_⟩
    simp only [LogRequest.vector, hsame.1 0 hn]
    exact houter w hw

theorem Entered.frame {w : OpenCall} {e : LoggedEntry} {p : Phase} (h : Entered entries ph w e p)
    (hph : ph' w.number = ph w.number) : Entered entries ph' w e p :=
  ⟨h.mem, h.call, hph.trans h.phase⟩

/-- An append under way, when only slots behind the open calls have changed. -/
theorem Appending.frame {w : OpenCall} (h : Appending env sh entries flush ph n w pc)
    (hw : cs[n]? = some w) (hsame : SameSlots sh sh' cs.length) (houter : SameOuter env sh sh' cs)
    (hph : ph' w.number = ph w.number) : Appending env sh' entries flush ph' n w pc := by
  have hn := lt_length_of_getElem? hw
  cases h with
  | append hr hflush => exact .append (hr.frame hw hsame houter).1 hflush
  | magic hr hv he hflush =>
    obtain ⟨hr', hvec⟩ := hr.frame hw hsame houter
    exact .magic hr' (hv.trans hvec.symm) (he.frame hph) hflush
  | copy hr hv he hflush =>
    obtain ⟨hr', hvec⟩ := hr.frame hw hsame houter
    exact .copy hr' (hv.trans hvec.symm) (he.frame hph) hflush
  | drained hr hv hk he hflush =>
    obtain ⟨hr', hvec⟩ := hr.frame hw hsame houter
    exact .drained hr' (hv.trans hvec.symm) hk (he.frame hph) hflush
  | persisted hr hv hk he hflush =>
    obtain ⟨hr', hvec⟩ := hr.frame hw hsame houter
    exact .persisted hr' (hv.trans hvec.symm) hk (he.frame hph) hflush
  | publish he hflush => exact .publish (he.frame hph) hflush
  | acknowledge he htx hflush =>
    exact .acknowledge (he.frame hph) ((hsame.2 (n + 1) (by omega) (by omega)).trans htx) hflush

/-- The slot that the persister has chosen stays chosen. -/
theorem Chosen.same_slots (h : Chosen sh id n pc) (hid : id < cs.length)
    (hsame : SameSlots sh sh' cs.length) : Chosen sh' id n pc := by
  have hbuffer := hsame.1 id hid
  cases h with
  | tagged => exact .tagged
  | found => exact .found
  | loaded =>
    rw [← hbuffer]
    exact .loaded
  | parentLogged heq hn =>
    rw [← hbuffer]
    exact .parentLogged heq hn
  | tagBuilt heq hn =>
    rw [← hbuffer, ← hsame.2 id (by omega) (by omega)]
    exact .tagBuilt heq hn

/-- The steps of the thread leave the persister where it is. -/
theorem LoggerAt.frame (h : LoggerAt env sh id pc entries flush ph cs n)
    (hsame : SameSlots sh sh' cs.length) (houter : SameOuter env sh sh' cs)
    (hcs : ∀ (j : ℕ) (w : OpenCall), cs[j]? = some w → cs'[j]? = some w)
    (hph : ∀ w ∈ cs, ph' w.number = ph w.number) :
    LoggerAt env sh' id pc entries flush ph' cs' n := by
  cases h with
  | searching hpc hflush => exact .searching hpc hflush
  | chosen hlo hw hpc hflush =>
    exact .chosen hlo (hcs _ _ hw) (hpc.same_slots (lt_length_of_getElem? hw) hsame) hflush
  | appending hw hid hpc =>
    exact .appending (hcs _ _ hw) hid
      (hpc.frame hw hsame houter (hph _ (List.mem_of_getElem? hw)))

/-- A persister with nothing to log searches. -/
theorem LoggerAt.idle (h : LoggerAt env sh id pc entries flush ph cs n) (hn : n = cs.length) :
    pc.searching = true ∧ flush = .stored := by
  cases h with
  | searching hpc hflush => exact ⟨hpc, hflush⟩
  | chosen hlo hw => exact absurd (lt_length_of_getElem? hw) (by omega)
  | appending hw => exact absurd (lt_length_of_getElem? hw) (by omega)

end Frames

section Thread

variable {env : Objects} {old : OldEntries} {d d' : DurableState} {leaving leaving' : Option ℕ}
  {ph ph' : ℕ → Phase} {cs : List OpenCall} {n : ℕ}

/-- The logs are in order, and so are the threads unless an assertion has failed. -/
def DurableState.InOrder (env : Objects) (old : OldEntries) (d : DurableState) : Prop :=
  ∃ leaving ph, CallLogs env old d.calls leaving ph ∧
    (d.aborted = false → ∃ cs n, Running env d leaving ph cs n)

theorem Running.mem_opened (h : Running env d leaving ph cs n) {w : OpenCall} (hw : w ∈ cs) :
    w.number ∈ d.opened := by
  rw [h.opened]
  exact List.mem_map_of_mem hw

/-- A step of the thread that leaves the open calls. -/
theorem Running.app_frame (h : Running env d leaving ph cs n) {sh : TxShared} {todo : List Event}
    {app : AppPc} {unpersisted : Option (ℕ × ℕ)} (hnodup : (d.opened ++ leaving'.toList).Nodup)
    (hsame : SameSlots d.prog.sh sh cs.length)
    (houter : SameOuter env d.prog.sh sh cs)
    (htags : ∀ j, cs.length ≤ j → (sh.buffer j).methodTag = 0)
    (hph : ∀ c ∈ d.opened, ph' c = ph c)
    (hcaller : CallerAt env sh todo app unpersisted d.entries ph' cs n leaving') :
    Running env
      { d with
        prog := { d.prog with sh := sh, todo := todo, app := app }
        unpersisted := unpersisted } leaving' ph' cs n where
  opened := h.opened
  nodup := hnodup
  n_le := h.n_le
  slots := by
    intro j w hw
    have hslot := h.slots j w hw
    unfold Announced at hslot ⊢
    rwa [hsame.1 j (lt_length_of_getElem? hw)]
  tags := by
    intro j w hw
    rw [hsame.1 j (lt_length_of_getElem? hw)]
    exact h.tags j w hw
  tags_zero := htags
  logged := by
    intro j w hj hw
    obtain ⟨e, he, htx⟩ := h.logged j w hj hw
    have hlt := lt_length_of_getElem? hw
    exact ⟨e, he.frame (hph _ (h.mem_opened (List.mem_of_getElem? hw))),
      (hsame.2 (j + 1) (by omega) hlt).trans htx⟩
  unlogged := by
    intro j hn hj
    rw [hsame.2 (j + 1) (by omega) hj]
    exact h.unlogged j hn hj
  entry := h.entry
  logger := h.logger.frame hsame houter (fun _ _ => id) fun w hw => hph _ (h.mem_opened hw)
  caller := hcaller

theorem SameSlots.refl (sh : TxShared) (m : ℕ) : SameSlots sh sh m :=
  ⟨fun _ _ => rfl, fun _ _ _ => rfl⟩

/-- Writing the slot behind the open calls. -/
theorem SameSlots.setSlot (sh : TxShared) (m : ℕ) (c : NvMethodCall) :
    SameSlots sh (sh.setSlot m c) m :=
  ⟨fun _ hj => update_of_ne (Nat.ne_of_lt hj) _ _, fun _ _ _ => rfl⟩

/-- Writing the count, or the offset behind those of the open calls. -/
theorem SameSlots.setTx (sh : TxShared) {i m : ℕ} (v : ℕ) (hi : i = 0 ∨ m < i) :
    SameSlots sh (sh.setTx i v) m := by
  refine ⟨fun _ _ => rfl, fun _ hpos hle => update_of_ne ?_ _ _⟩
  omega

/-- Writing the object or an argument into the slot behind the open calls. -/
theorem Running.tags_setSlot (h : Running env d leaving ph cs n) {c : NvMethodCall}
    (hc : c.methodTag = (d.prog.sh.buffer cs.length).methodTag) :
    ∀ j, cs.length ≤ j → ((d.prog.sh.setSlot cs.length c).buffer j).methodTag = 0 := by
  intro j hj
  rcases eq_or_ne j cs.length with rfl | hne
  · rw [TxShared.setSlot_buffer, update_self, hc]
    exact h.tags_zero _ hj
  · rw [TxShared.setSlot_buffer, update_of_ne hne]
    exact h.tags_zero j hj

/-- If the innermost open call has been acknowledged, all have been. -/
theorem Running.all_logged (h : Running env d leaving ph cs n) (hpos : 0 < cs.length)
    (htag : (d.prog.sh.buffer (cs.length - 1)).methodTag = 0) : n = cs.length := by
  have hlt : cs.length - 1 < cs.length := by omega
  have htag' := h.tags _ _ (List.getElem?_eq_getElem hlt)
  rw [htag] at htag'
  split at htag'
  · have := h.n_le
    omega
  · exact absurd htag'.symm (MethodCall.tag_ne_zero _)

/-- The thread takes up the next event. -/
theorem Running.ready_step (hc : CallLogs env old d.calls none ph) (h : Running env d none ph cs n)
    (happ : d.prog.app = .ready) (hun : d.unpersisted = none)
    (hcount : d.prog.sh.txBuffer 0 = cs.length)
    (hnest : ProperlyNested env (cs.reverse.map OpenCall.call) d.prog.sh.mem d.prog.todo)
    (hstep : durableAppStep env d = some d') : d'.InOrder env old := by
  simp only [durableAppStep, if_pos hun, appStep, happ, hcount] at hstep
  rcases htodo : d.prog.todo with - | ⟨ev, rest⟩
  · simp [htodo] at hstep
  · rw [htodo] at hnest
    cases ev with
    | notify c =>
      simp only [htodo] at hstep
      split at hstep
      · cases hstep
        exact ⟨none, ph, hc, fun _ => ⟨cs, n, h.app_frame h.nodup (.setSlot _ _ _) (fun _ _ => rfl)
          (h.tags_setSlot rfl) (fun _ _ => rfl) (.entering (c := c) rfl hun rfl hnest
          (.setArgs hcount ⟨by simp, by simp⟩))⟩⟩
      · cases hstep
    | wait o =>
      simp only [htodo, Bool.false_eq_true, false_or] at hstep
      split at hstep
      · -- the tag of the inner-most call is cleared, so it has been logged
        rename_i htag
        cases hstep
        have hpos : 0 < cs.length := by
          obtain ⟨c, rest', hopen, -, -⟩ := hnest
          have := congrArg List.length hopen
          simp at this
          omega
        rw [predWord, if_neg (Nat.ne_of_gt hpos)] at htag
        exact ⟨none, ph, hc, fun _ => ⟨cs, n, h.app_frame h.nodup (.refl _ _) (fun _ _ => rfl) h.tags_zero
          (fun _ _ => rfl)
          (.acknowledged rfl rfl hun rfl hcount (h.all_logged hpos htag) hnest)⟩⟩
      · cases hstep
        exact ⟨none, ph, hc, fun _ => ⟨cs, n, h⟩⟩
    | write m =>
      simp only [htodo] at hstep
      cases hstep
      refine ⟨none, ph, hc, fun _ => ⟨cs, n, h.app_frame h.nodup ⟨fun _ _ => rfl, fun _ _ _ => rfl⟩ ?_
        h.tags_zero (fun _ _ => rfl) (.ready rfl hun rfl hcount hnest.2)⟩⟩
      intro w hw
      refine hnest.1 w.call ?_ _ fun i a ha => ?_
      · rw [List.map_reverse, List.mem_reverse]
        exact List.mem_map_of_mem (List.mem_of_getElem? hw)
      · exact (h.slots 0 w hw).2 i a (List.getElem?_eq_some_iff.mp ha).1 ha

/-- The tag announces the call. -/
theorem Running.announce (hc : CallLogs env old d.calls none ph) (h : Running env d none ph cs n)
    {c : MethodCall} {rest : List Event} (hun : d.unpersisted = none)
    (hnest : ProperlyNested env (cs.reverse.map OpenCall.call) d.prog.sh.mem (.notify c :: rest))
    (hcount : d.prog.sh.txBuffer 0 = cs.length + 1)
    (hslot : Announced d.prog.sh cs.length c c.args.length)
    (htx : d.prog.sh.txBuffer (cs.length + 1) = 0) :
    Running env
      { d.announce with
        prog := { d.prog with
          sh := d.prog.sh.setTag cs.length c.tag
          app := .ready
          todo := rest } } none ph (cs ++ [⟨c, d.announced⟩]) n := by
  have hsame : SameSlots d.prog.sh (d.prog.sh.setTag cs.length c.tag) cs.length :=
    SameSlots.setSlot _ _ _
  have hlt : ∀ c' ∈ d.opened, c' < d.announced := by
    intro c' hc'
    exact hc.live_lt c' (List.mem_append_left _ hc')
  -- a call of the longer list is an old one or the new one
  have hcases : ∀ {j : ℕ} {w : OpenCall}, (cs ++ [⟨c, d.announced⟩])[j]? = some w →
      cs[j]? = some w ∧ j < cs.length ∨ j = cs.length ∧ w = ⟨c, d.announced⟩ := by
    intro j w hw
    rcases Nat.lt_or_ge j cs.length with hlt | hge
    · exact Or.inl ⟨by rwa [List.getElem?_append_left hlt] at hw, hlt⟩
    · have hj := lt_length_of_getElem? hw
      rw [List.length_append, List.length_singleton] at hj
      obtain rfl : j = cs.length := by omega
      exact Or.inr ⟨rfl, by simpa using hw.symm⟩
  refine ⟨?_, ?_, ?_, ?_, ?_, ?_, ?_, ?_, ?_, ?_, ?_⟩
  · simp [DurableState.announce, h.opened]
  · rw [Option.toList_none, List.append_nil]
    have hnodup := h.nodup
    rw [Option.toList_none, List.append_nil] at hnodup
    refine hnodup.append (by simp) (List.disjoint_right.mpr ?_)
    simp only [List.mem_singleton, forall_eq]
    exact fun hmem => absurd (hlt _ hmem) (lt_irrefl _)
  · rw [List.length_append]
    exact Nat.le_add_right_of_le h.n_le
  · intro j w hw
    unfold Announced
    simp only [TxShared.setTag_objPtr, TxShared.setTag_argPtrs]
    rcases hcases hw with ⟨hw, -⟩ | ⟨rfl, rfl⟩
    · exact h.slots j w hw
    · exact hslot
  · intro j w hw
    rw [TxShared.setTag_methodTag]
    rcases hcases hw with ⟨hw, hj⟩ | ⟨rfl, rfl⟩
    · rw [if_neg (Nat.ne_of_lt hj)]
      exact h.tags j w hw
    · rw [if_pos rfl, if_neg (Nat.not_lt.mpr h.n_le)]
  · intro j hj
    rw [List.length_append, List.length_singleton] at hj
    rw [TxShared.setTag_methodTag, if_neg (by omega)]
    exact h.tags_zero j (by omega)
  · intro j w hj hw
    rcases hcases hw with ⟨hw, -⟩ | ⟨rfl, -⟩
    · exact h.logged j w hj hw
    · exact absurd hj (Nat.not_lt.mpr h.n_le)
  · intro j hn hj
    rw [List.length_append, List.length_singleton] at hj
    rcases Nat.lt_succ_iff_lt_or_eq.mp hj with hj | rfl
    · exact h.unlogged j hn hj
    · exact Or.inl htx
  · intro o e he j w hw hcall
    rcases hcases hw with ⟨hw, -⟩ | ⟨-, rfl⟩
    · exact h.entry o e he j w hw hcall
    · exact absurd hcall.symm (Nat.ne_of_lt (hc.call_lt o e he))
  · refine h.logger.frame hsame (fun _ _ => rfl) (fun j w hw => ?_) fun _ _ => rfl
    rw [List.getElem?_append_left (lt_length_of_getElem? hw)]
    exact hw
  · refine .ready rfl hun rfl ?_ ?_
    · rw [List.length_append, List.length_singleton]
      exact hcount
    · rw [List.reverse_append, List.map_append]
      exact hnest.2

/-- A step of `notify` behind the first one. -/
theorem Running.entering_step (hc : CallLogs env old d.calls none ph) (h : Running env d none ph cs n)
    {c : MethodCall} {rest : List Event}
    (htodo : d.prog.todo = .notify c :: rest) (hun : d.unpersisted = none)
    (hnest : ProperlyNested env (cs.reverse.map OpenCall.call) d.prog.sh.mem d.prog.todo)
    (hpc : Entering d.prog.sh cs.length c d.prog.app)
    (hstep : durableAppStep env d = some d') : d'.InOrder env old := by
  rw [htodo] at hnest
  simp only [durableAppStep, if_pos hun, appStep, htodo] at hstep
  generalize happ : d.prog.app = app at hstep hpc
  cases hpc with
  | @setArgs k hcount hslot =>
    simp only [hcount] at hstep
    split at hstep
    · rename_i a ha
      cases hstep
      refine ⟨none, ph, hc, fun _ => ⟨cs, n, h.app_frame h.nodup (.setSlot _ _ _) (fun _ _ => rfl)
        (h.tags_setSlot rfl) (fun _ _ => rfl) (.entering (c := c) rfl hun rfl hnest
        (.setArgs hcount ⟨by simp [hslot.1], fun i b hi hb => ?_⟩))⟩⟩
      simp only [TxShared.setSlot_buffer, update_self]
      rcases eq_or_ne i k with rfl | hne
      · rw [update_self]
        exact Option.some.inj (ha.symm.trans hb)
      · rw [update_of_ne hne]
        exact hslot.2 i b (by omega) hb
    · rename_i hnone
      cases hstep
      have hk : c.args.length ≤ k := List.getElem?_eq_none_iff.mp hnone
      exact ⟨none, ph, hc, fun _ => ⟨cs, n, h.app_frame h.nodup (.setTx _ _ (Or.inl rfl)) (fun _ _ => rfl)
        h.tags_zero (fun _ _ => rfl) (.entering (c := c) rfl hun rfl hnest (.counted (by simp)
        ⟨hslot.1, fun i a hi ha => hslot.2 i a (by omega) ha⟩))⟩⟩
  | counted hcount hslot =>
    simp only [hcount] at hstep
    cases hstep
    exact ⟨none, ph, hc, fun _ => ⟨cs, n, h.app_frame h.nodup (.setTx _ _ (Or.inr (Nat.lt_succ_self _)))
      (fun _ _ => rfl) h.tags_zero (fun _ _ => rfl) (.entering (c := c) rfl hun rfl hnest (.cleared
      (by simp [hcount]) hslot (by simp)))⟩⟩
  | cleared hcount hslot htx =>
    -- the tag is set, which announces the call to the logger
    simp only [hcount, Nat.add_sub_cancel] at hstep
    cases hstep
    exact ⟨none, ph, hc.announce, fun _ => ⟨_, n, h.announce hc hun hnest hcount hslot htx⟩⟩

/-- `wait` takes the innermost call off the open ones. -/
theorem Running.leave {w : OpenCall} {rest : List Event}
    (h : Running env d none ph (cs ++ [w]) (cs.length + 1)) (hun : d.unpersisted = none)
    (hnest : ProperlyNested env (cs.reverse.map OpenCall.call) d.prog.sh.mem rest) :
    Running env
      { d with
        prog := { d.prog with
          sh := d.prog.sh.setTx 0 cs.length
          todo := .wait w.call.obj :: rest
          app := .popped (cs.length + 1) }
        opened := d.opened.dropLast } (some w.number) ph cs cs.length := by
  have hlen : (cs ++ [w]).length = cs.length + 1 := by simp
  have hopened : d.opened.dropLast = cs.map OpenCall.number := by
    rw [h.opened, List.map_append, List.map_singleton, List.dropLast_concat]
  have hold : ∀ {j : ℕ} {v : OpenCall}, cs[j]? = some v → (cs ++ [w])[j]? = some v := by
    intro j v hv
    rwa [List.getElem?_append_left (lt_length_of_getElem? hv)]
  have htx : ∀ i, (d.prog.sh.setTx 0 cs.length).txBuffer (i + 1) = d.prog.sh.txBuffer (i + 1) := by
    intro i
    rw [TxShared.setTx_txBuffer, update_of_ne (Nat.succ_ne_zero i)]
  obtain ⟨e, he, hoffset⟩ := h.logged cs.length w (Nat.lt_succ_self _) (by simp)
  refine ⟨hopened, ?_, le_rfl, ?_, ?_, ?_, ?_, ?_, ?_, ?_, ?_⟩
  · have hnodup := h.nodup
    rw [Option.toList_none, List.append_nil, h.opened, List.map_append] at hnodup
    dsimp only
    rwa [hopened]
  · intro j v hv
    exact h.slots j v (hold hv)
  · intro j v hv
    have hj := lt_length_of_getElem? hv
    have htag := h.tags j v (hold hv)
    rw [if_pos (by omega)] at htag
    rw [if_pos hj]
    exact htag
  · intro j hj
    rcases eq_or_ne j cs.length with rfl | hne
    · have htag := h.tags cs.length w (by simp)
      rwa [if_pos (Nat.lt_succ_self _)] at htag
    · exact h.tags_zero j (by omega)
  · intro j v hj hv
    obtain ⟨e', he', hoffset'⟩ := h.logged j v (by omega) (hold hv)
    exact ⟨e', he', (htx j).trans hoffset'⟩
  · intro j hn hj
    omega
  · intro o e' _ j v hv _
    exact Or.inl (lt_length_of_getElem? hv)
  · obtain ⟨hpc, hflush⟩ := h.logger.idle hlen.symm
    exact .searching hpc hflush
  · refine .leaving (w := w) rfl hun rfl ?_ rfl hnest he (.popped ((htx _).trans hoffset))
    rw [TxShared.setTx_txBuffer, update_self]

/-- **`wait` leaves its spin loop**: the call is logged, is not open any more and can be
committed. -/
theorem Running.acknowledged_step (hc : CallLogs env old d.calls none ph)
    (h : Running env d none ph cs n) {o : ℕ} {rest : List Event}
    (htodo : d.prog.todo = .wait o :: rest) (happ : d.prog.app = .acknowledged)
    (hun : d.unpersisted = none) (hcount : d.prog.sh.txBuffer 0 = cs.length) (hn : n = cs.length)
    (hnest : ProperlyNested env (cs.reverse.map OpenCall.call) d.prog.sh.mem d.prog.todo)
    (hstep : durableAppStep env d = some d') : d'.InOrder env old := by
  simp only [durableAppStep, if_pos hun, appStep, htodo, happ, hcount] at hstep
  split at hstep
  · rename_i hpos
    cases hstep
    subst hn
    obtain ⟨cs, w, rfl⟩ : ∃ cs' w, cs = cs' ++ [w] :=
      ⟨_, _, (List.dropLast_concat_getLast (List.ne_nil_of_length_pos hpos)).symm⟩
    rw [htodo, List.reverse_append, List.map_append] at hnest
    obtain ⟨c, rest', hopen, rfl, hnest⟩ := hnest
    obtain ⟨rfl, rfl⟩ := List.cons.inj hopen
    have hlen : (cs ++ [w]).length = cs.length + 1 := by simp
    rw [hlen] at h ⊢
    have hopened : d.calls.opened = cs.map OpenCall.number ++ [w.number] := by
      rw [show d.calls.opened = d.opened from rfl, h.opened, List.map_append, List.map_singleton]
    exact ⟨some w.number, ph, hc.leave hopened, fun _ => ⟨cs, cs.length, h.leave hun hnest⟩⟩
  · cases hstep

/-- A step of the commit. -/
theorem Running.leaving_step {w : OpenCall} {e : LoggedEntry} {p : Phase} {rest : List Event}
    (hc : CallLogs env old d.calls (some w.number) ph) (h : Running env d (some w.number) ph cs n)
    (hrun : d.aborted = false) (htodo : d.prog.todo = .wait w.call.obj :: rest)
    (hun : d.unpersisted = none) (hcount : d.prog.sh.txBuffer 0 = cs.length) (hn : n = cs.length)
    (hnest : ProperlyNested env (cs.reverse.map OpenCall.call) d.prog.sh.mem rest)
    (he : Entered d.entries ph w e p) (hpc : Leaving d.prog.sh cs.length e d.prog.app p)
    (hstep : durableAppStep env d = some d') : d'.InOrder env old := by
  have hclosed : w.number ∉ d.opened := by
    have hnodup := h.nodup
    rw [Option.toList_some] at hnodup
    exact fun hmem => (List.nodup_append'.mp hnodup).2.2 hmem (by simp)
  have hph : ∀ q, ∀ c ∈ d.opened, Function.update ph w.number q c = ph c := by
    intro q c hmem
    exact update_of_ne (ne_of_mem_of_not_mem hmem hclosed) _ _
  have hcall := he.call
  have hphase := he.phase
  simp only [durableAppStep, if_pos hun, appStep, htodo] at hstep
  generalize happ : d.prog.app = app at hstep hpc
  cases hpc with
  | popped htx =>
    simp only [htx] at hstep
    cases hstep
    exact ⟨some w.number, ph, hc, fun _ => ⟨cs, n, h.app_frame h.nodup (.refl _ _) (fun _ _ => rfl)
      h.tags_zero (fun _ _ => rfl) (.leaving rfl hun rfl hcount hn hnest he .committing)⟩⟩
  | committing =>
    simp only at hstep
    split at hstep
    · rename_i hid
      cases hstep
      have htake := hc.take hrun he.mem (hcall ▸ hphase) hid
      rw [hcall] at htake
      exact ⟨some w.number, _, htake, fun _ => ⟨cs, n, h.app_frame h.nodup
        ⟨fun _ _ => rfl, fun _ _ _ => rfl⟩ (fun _ _ => rfl) h.tags_zero (hph _)
        (.leaving rfl hun rfl hcount hn hnest ⟨he.mem, hcall, update_self _ _ _⟩
        .idTaken)⟩⟩
    · cases hstep
  | @idTaken id =>
    simp only at hstep
    cases hstep
    have hstore := hc.store hrun he.mem (hcall ▸ hclosed) (hcall ▸ hphase)
    rw [hcall] at hstore
    exact ⟨some w.number, _, hstore, fun _ => ⟨cs, n, h.app_frame h.nodup
      ⟨fun _ _ => rfl, fun _ _ _ => rfl⟩ (fun _ _ => rfl) h.tags_zero (hph _)
      (.persisting rfl rfl rfl hcount hn hnest ⟨he.mem, hcall, update_self _ _ _⟩)⟩⟩

/-- **A step of the application thread keeps the order.** -/
theorem Running.app_step (hc : CallLogs env old d.calls leaving ph) (h : Running env d leaving ph cs n)
    (hrun : d.aborted = false) (hstep : durableAppStep env d = some d') : d'.InOrder env old := by
  rcases h.caller with ⟨happ, hun, rfl, hcount, hnest⟩ | ⟨htodo, hun, rfl, hnest, hpc⟩ |
    ⟨htodo, happ, hun, rfl, hcount, hn, hnest⟩ | ⟨htodo, hun, rfl, hcount, hn, hnest, he, hpc⟩ |
    ⟨-, hun, -, -, -, -, -⟩
  · exact h.ready_step hc happ hun hcount hnest hstep
  · exact h.entering_step hc htodo hun hnest hpc hstep
  · exact h.acknowledged_step hc htodo happ hun hcount hn hnest hstep
  · exact h.leaving_step hc hrun htodo hun hcount hn hnest he hpc hstep
  · simp [durableAppStep, hun] at hstep

end Thread

section Persister

variable {env : Objects} {old : OldEntries} {d d' : DurableState} {leaving : Option ℕ}
  {ph ph' : ℕ → Phase} {cs : List OpenCall} {n : ℕ}

/-- The persister moves without writing. -/
theorem Running.move (h : Running env d leaving ph cs n) {pc : PersisterPc} {id : ℕ}
    (hold : d.prog.persister.entered = false)
    (hlogger : LoggerAt env d.prog.sh id pc d.entries d.flush ph cs n) :
    Running env { d with prog := { d.prog with persister := pc, activeTxId := id } } leaving ph cs
      n where
  opened := h.opened
  nodup := h.nodup
  n_le := h.n_le
  slots := h.slots
  tags := h.tags
  tags_zero := h.tags_zero
  logged := h.logged
  unlogged := by
    intro j hn hj
    rcases h.unlogged j hn hj with htx | ⟨-, hpc⟩
    · exact Or.inl htx
    · rw [hpc] at hold
      cases hold
  entry := by
    intro o e he j w hw hcall
    rcases h.entry o e he j w hw hcall with hlt | ⟨-, hpc⟩
    · exact Or.inl hlt
    · rw [hold] at hpc
      cases hpc
  logger := hlogger
  caller := h.caller

/-- A set tag belongs to a call that is not logged. -/
theorem Running.tagged (h : Running env d leaving ph cs n) {id : ℕ}
    (htag : (d.prog.sh.buffer id).methodTag ≠ 0) : n ≤ id ∧ ∃ w, cs[id]? = some w := by
  have hlt : id < cs.length := by
    by_contra hge
    exact htag (h.tags_zero id (by omega))
  refine ⟨?_, _, List.getElem?_eq_getElem hlt⟩
  by_contra hn
  have := h.tags id _ (List.getElem?_eq_getElem hlt)
  rw [if_pos (by omega)] at this
  exact htag this

/-- **A step of the persister that looks for a call** writes nothing, and the call it finds is the
first one that is not logged. -/
theorem Running.searching_step (hc : CallLogs env old d.calls leaving ph)
    (h : Running env d leaving ph cs n) (hpc : d.prog.persister.searching = true)
    (hflush : d.flush = .stored) (hstep : durablePersisterStep env d = some d') :
    d'.InOrder env old := by
  have hmove : ∀ {pc : PersisterPc} {id : ℕ}, d.prog.persister.entered = false →
      pc.searching = true → DurableState.InOrder env old
        { d with prog := { d.prog with persister := pc, activeTxId := id } } :=
    fun hold hpc => ⟨leaving, ph, hc, fun _ => ⟨cs, n, h.move hold (.searching hpc hflush)⟩⟩
  cases hold : d.prog.persister with
  | poll =>
    simp only [durablePersisterStep, persisterStep, hold, Option.map_some] at hstep
    cases hstep
    split
    · exact hmove (by rw [hold]; rfl) rfl
    · rename_i htag
      obtain ⟨hlo, w, hw⟩ := h.tagged htag
      exact ⟨leaving, ph, hc, fun _ => ⟨cs, n, h.move (by rw [hold]; rfl)
        (.chosen hlo hw .tagged hflush)⟩⟩
  | idleCheck =>
    simp only [durablePersisterStep, persisterStep, hold] at hstep
    split at hstep <;> cases hstep <;> exact hmove (by rw [hold]; rfl) rfl
  | above =>
    simp only [durablePersisterStep, persisterStep, hold] at hstep
    split at hstep <;> cases hstep <;> exact hmove (by rw [hold]; rfl) rfl
  | below =>
    simp only [durablePersisterStep, persisterStep, hold] at hstep
    split at hstep <;> cases hstep <;> exact hmove (by rw [hold]; rfl) rfl
  | _ => rw [hold] at hpc; cases hpc

/-- **A step of the persister that has found a call** reads its buffer, up to the reservation of
the entry. -/
theorem Running.chosen_step (hc : CallLogs env old d.calls leaving ph)
    (h : Running env d leaving ph cs n) {w : OpenCall} (hlo : n ≤ d.prog.activeTxId)
    (hw : cs[d.prog.activeTxId]? = some w)
    (hpc : Chosen d.prog.sh d.prog.activeTxId n d.prog.persister) (hflush : d.flush = .stored)
    (hstep : durablePersisterStep env d = some d') : d'.InOrder env old := by
  have hlt := lt_length_of_getElem? hw
  have htag := h.tags _ w hw
  rw [if_neg (Nat.not_lt.mpr hlo)] at htag
  obtain ⟨hobj, -⟩ := h.slots _ w hw
  generalize hold : d.prog.persister = pc at hpc
  have hmove : ∀ {pc' : PersisterPc} {id : ℕ}, pc.entered = false →
      LoggerAt env d.prog.sh id pc' d.entries d.flush ph cs n → DurableState.InOrder env old
        { d with prog := { d.prog with persister := pc', activeTxId := id } } :=
    fun hent hat => ⟨leaving, ph, hc, fun _ => ⟨cs, n, h.move (by rw [hold]; exact hent) hat⟩⟩
  cases hpc with
  | tagged =>
    simp only [durablePersisterStep, persisterStep, hold, Option.map_some, htag,
      if_neg w.call.tag_ne_max] at hstep
    cases hstep
    exact hmove rfl (.chosen hlo hw .found hflush)
  | found =>
    simp only [durablePersisterStep, persisterStep, hold, Option.map_some] at hstep
    cases hstep
    exact hmove rfl (.chosen hlo hw .loaded hflush)
  | loaded =>
    simp only [durablePersisterStep, persisterStep, hold] at hstep
    split at hstep
    · rename_i hpos
      split at hstep
      · cases hstep
        exact hmove rfl (.searching rfl hflush)
      · rename_i htx
        cases hstep
        -- the parent has an offset, so it is logged
        have heq : d.prog.activeTxId = n := by
          by_contra hne
          rcases h.unlogged (d.prog.activeTxId - 1) (by omega) (by omega) with hzero | ⟨-, hack⟩
          · rw [Nat.sub_add_cancel hpos] at hzero
            exact htx hzero
          · rw [hold] at hack
            cases hack
        exact hmove rfl (.chosen hlo hw (.parentLogged heq (heq ▸ hpos)) hflush)
    · rename_i hzero
      cases hstep
      obtain heq : d.prog.activeTxId = n := by omega
      rw [htag, hobj]
      refine hmove rfl (.appending (heq ▸ hw) heq (.append ?_ hflush))
      rw [LogRequest.Of, if_neg (by omega)]
  | parentLogged heq hn =>
    simp only [durablePersisterStep, persisterStep, hold, Option.map_some] at hstep
    cases hstep
    exact hmove rfl (.chosen hlo hw (.tagBuilt heq hn) hflush)
  | tagBuilt heq hn =>
    simp only [durablePersisterStep, persisterStep, hold, Option.map_some] at hstep
    cases hstep
    rw [hobj, heq]
    refine hmove rfl (.appending (heq ▸ hw) rfl (.append ?_ hflush))
    rw [LogRequest.Of, if_pos hn]

/-- While a call is to be logged, the thread is not committing, and it sees nothing of the log. -/
theorem CallerAt.pending {sh : TxShared} {todo : List Event} {app : AppPc}
    {unpersisted : Option (ℕ × ℕ)} {entries : ℕ → List LoggedEntry}
    (h : CallerAt env sh todo app unpersisted entries ph cs n leaving) (hlt : n < cs.length)
    (sh' : TxShared) (hcount : sh'.txBuffer 0 = sh.txBuffer 0) (hmem : sh'.mem = sh.mem)
    (hslot : ∀ c k, Announced sh cs.length c k → Announced sh' cs.length c k)
    (htx : sh'.txBuffer (cs.length + 1) = sh.txBuffer (cs.length + 1))
    (entries' : ℕ → List LoggedEntry) (ph' : ℕ → Phase) (n' : ℕ) :
    CallerAt env sh' todo app unpersisted entries' ph' cs n' leaving := by
  rcases h with ⟨happ, hun, hl, hc, hnest⟩ | ⟨htodo, hun, hl, hnest, hpc⟩ |
    ⟨-, -, -, -, -, hn, -⟩ | ⟨-, -, -, -, hn, -, -, -⟩ | ⟨-, -, -, -, hn, -, -⟩
  · exact .ready happ hun hl (hcount.trans hc) (hmem ▸ hnest)
  · refine .entering htodo hun hl (hmem ▸ hnest) ?_
    cases hpc with
    | setArgs hc hs => exact .setArgs (hcount.trans hc) (hslot _ _ hs)
    | counted hc hs => exact .counted (hcount.trans hc) (hslot _ _ hs)
    | cleared hc hs ht => exact .cleared (hcount.trans hc) (hslot _ _ hs) (htx.trans ht)
  all_goals exact absurd hn (Nat.ne_of_lt hlt)

/-- Calls in different slots are different calls. -/
theorem Running.number_ne (h : Running env d leaving ph cs n) {j k : ℕ} {v w : OpenCall}
    (hv : cs[j]? = some v) (hw : cs[k]? = some w) (hne : j ≠ k) : v.number ≠ w.number := by
  have hnodup := (List.nodup_append'.mp h.nodup).1
  rw [h.opened] at hnodup
  intro heq
  have hlt : j < (cs.map OpenCall.number).length := by
    rw [List.length_map]
    exact lt_length_of_getElem? hv
  refine hne ((List.getElem?_inj hlt hnodup).mp ?_)
  rw [List.getElem?_map, List.getElem?_map, hv, hw, Option.map_some, Option.map_some, heq]

/-- A step of the append of the call `w`, which may reserve the entry of `w` and change its
phase. -/
theorem Running.append_frame (h : Running env d leaving ph cs n) {w : OpenCall}
    (hw : cs[n]? = some w) (hold : d.prog.persister ≠ .acknowledge) {logs : ℕ → RedoLog}
    {pc : PersisterPc} {entries : ℕ → List LoggedEntry} {flush : FlushStage}
    (hmono : ∀ o, ∀ e ∈ d.entries o, e ∈ entries o)
    (hnew : ∀ o, ∀ e ∈ entries o, e ∈ d.entries o ∨ e.call = w.number)
    (hph : ∀ c, c ≠ w.number → ph' c = ph c) (hentered : pc.entered = true)
    (hpc : Appending env { d.prog.sh with logs := logs } entries flush ph' n w pc) :
    Running env
      { d with
        prog := { d.prog with
          sh := { d.prog.sh with logs := logs }
          persister := pc
          activeTxId := n }
        entries := entries
        flush := flush } leaving ph' cs n where
  opened := h.opened
  nodup := h.nodup
  n_le := h.n_le
  slots := h.slots
  tags := h.tags
  tags_zero := h.tags_zero
  logged := by
    intro j v hj hv
    obtain ⟨e, he, htx⟩ := h.logged j v hj hv
    refine ⟨e, ⟨hmono _ _ he.mem, he.call, ?_⟩, htx⟩
    rw [hph _ (h.number_ne hv hw (Nat.ne_of_lt hj))]
    exact he.phase
  unlogged := by
    intro j hn hj
    rcases h.unlogged j hn hj with htx | ⟨-, hack⟩
    · exact Or.inl htx
    · exact absurd hack hold
  entry := by
    intro o e he j v hv hcall
    rcases hnew o e he with he | hself
    · exact (h.entry o e he j v hv hcall).imp_right fun heq => ⟨heq.1, hentered⟩
    · refine Or.inr ⟨?_, hentered⟩
      by_contra hne
      exact h.number_ne hv hw hne (hcall.trans hself)
  logger := .appending hw rfl hpc
  caller := h.caller.pending (lt_length_of_getElem? hw) { d.prog.sh with logs := logs } rfl rfl
    (fun _ _ hs => hs) rfl _ _ _

section

variable (hc : CallLogs env old d.calls leaving ph)
include hc

/-- The parent of the call in slot `n` is logged, and the request names its entry. -/
theorem Running.parent_logged
    (h : Running env d leaving ph cs n) {w : OpenCall} {r : LogRequest} (hw : cs[n]? = some w)
    (hr : r.Of d.prog.sh n w) {p : ℕ} (hp : d.parent w.number = some p) :
    ∃ o', ∃ e ∈ d.entries o', e.call = p ∧
      r.vector env d.prog.sh n w.call.obj = parentVector env o' e.offset ∧
      (ph p).isAppended = true := by
  have hn := lt_length_of_getElem? hw
  have hopened : ∀ {j : ℕ}, j < cs.length →
      (d.opened ++ leaving.toList)[j]? = cs[j]?.map OpenCall.number := by
    intro j hj
    rw [h.opened, List.getElem?_append_left (by rwa [List.length_map]), List.getElem?_map]
  have hchain := hc.chain n w.number ((hopened hn).trans (by rw [hw, Option.map_some]))
  rw [show d.calls.parent w.number = some p from hp] at hchain
  split at hchain
  · cases hchain
  · rename_i hpos
    rw [show d.calls.opened = d.opened from rfl, hopened (by omega)] at hchain
    obtain ⟨v, hv, rfl⟩ := Option.map_eq_some_iff.mp hchain.symm
    obtain ⟨e, he, htx⟩ := h.logged (n - 1) v (by omega) hv
    rw [Nat.sub_add_cancel (by omega)] at htx
    rw [LogRequest.Of, if_pos (by omega), htx, (h.slots (n - 1) v hv).1] at hr
    subst hr
    refine ⟨v.call.obj, e, he.mem, he.call, rfl, ?_⟩
    rw [he.phase]
    rfl

/-- The append reserves its entry, and may find that it does not fit. -/
theorem Running.reserve_step
    (h : Running env d leaving ph cs n) (hrun : d.aborted = false) {w : OpenCall}
    {r : LogRequest} (hw : cs[n]? = some w) (hid : d.prog.activeTxId = n) (hr : r.Of d.prog.sh n w)
    (hflush : d.flush = .stored) (hold : d.prog.persister = .append w.call.obj r)
    (hstep : durablePersisterStep env d = some d') : d'.InOrder env old := by
  set v := r.vector env d.prog.sh n w.call.obj with hv
  set log := d.prog.sh.logs w.call.obj with hlog
  have hslot : d.opened.getD n 0 = w.number := by
    rw [List.getD_eq_getElem?_getD, h.opened, List.getElem?_map, hw]
    rfl
  have hopen : w.number ∈ d.opened := h.mem_opened (List.mem_of_getElem? hw)
  have hfresh : ∀ o', ∀ e ∈ d.entries o', e.call ≠ w.number := by
    intro o' e he hcall
    rcases h.entry o' e he n w hw hcall.symm with hlt | ⟨-, hent⟩
    · exact lt_irrefl n hlt
    · rw [hold] at hent
      cases hent
  have hcalls : CallLogs env old (d.calls.reserve w.call.obj v w.number) leaving
      (Function.update ph w.number (.writing 0)) :=
    hc.reserve hrun hopen hfresh fun p hp => h.parent_logged hc hw hr hp
  set entries := Function.update d.entries w.call.obj
    (d.entries w.call.obj ++ [⟨log.tail, v, w.number⟩]) with hentries
  have hmem : ∀ {o' : ℕ} {e : LoggedEntry}, e ∈ entries o' ↔
      e ∈ d.entries o' ∨ o' = w.call.obj ∧ e = ⟨log.tail, v, w.number⟩ :=
    CallState.mem_reserve (s := d.calls)
  simp only [durablePersisterStep, persisterStep, hold, hid, DurableState.reserve, hslot, ← hv,
    ← hlog, ← hentries] at hstep
  split at hstep
  · cases hstep
  · rename_i hne
    by_cases hfit : log.tail + entrySize v ≤ log.size
    · rw [if_pos ⟨hne, hfit⟩] at hstep
      cases hstep
      have hab : (!decide (log.tail + entrySize v ≤ log.size)) = d.aborted := by
        rw [hrun, decide_eq_true hfit, Bool.not_true]
      unfold CallState.reserve at hcalls
      rw [show (!decide ((d.calls.logs w.call.obj).tail + entrySize v ≤
        (d.calls.logs w.call.obj).size)) = d.aborted from hab] at hcalls
      refine ⟨leaving, _, hcalls, fun _ => ⟨cs, n, h.append_frame hw (by simp [hold])
        (fun _ _ he => hmem.mpr (Or.inl he)) (fun _ _ he => (hmem.mp he).imp_right fun heq => ?_)
        (fun c hc => update_of_ne hc _ _) rfl
        (.magic (e := ⟨log.tail, v, w.number⟩) hr rfl
          ⟨hmem.mpr (Or.inr ⟨rfl, rfl⟩), rfl, update_self _ _ _⟩ hflush)⟩⟩
      rw [heq.2]
    · rw [if_neg (fun hand => hfit hand.2)] at hstep
      cases hstep
      have hab : (!decide (log.tail + entrySize v ≤ log.size)) = true := by
        rw [decide_eq_false hfit, Bool.not_false]
      unfold CallState.reserve at hcalls
      rw [show (!decide ((d.calls.logs w.call.obj).tail + entrySize v ≤
        (d.calls.logs w.call.obj).size)) = true from hab] at hcalls
      exact ⟨leaving, _, hcalls, fun habort => by cases habort⟩

/-- The magic is stored. -/
theorem Running.magic_step
    (h : Running env d leaving ph cs n) (hrun : d.aborted = false) {w : OpenCall}
    {r : LogRequest} {e : LoggedEntry} (hw : cs[n]? = some w) (hid : d.prog.activeTxId = n)
    (hr : r.Of d.prog.sh n w) (hv : e.vector = r.vector env d.prog.sh n w.call.obj)
    (he : Entered d.entries ph w e (.writing 0)) (hflush : d.flush = .stored)
    (hold : d.prog.persister = .magic w.call.obj r e.offset)
    (hstep : durablePersisterStep env d = some d') : d'.InOrder env old := by
  subst hid
  simp only [durablePersisterStep, persisterStep, hold, Option.map_some] at hstep
  cases hstep
  have hwrite := hc.write hrun he.mem [] (bytesLE redoLogMagic 8) e.vector.flatten
    (he.call ▸ he.phase) rfl
  rw [he.call] at hwrite
  refine ⟨leaving, _, hwrite, fun _ => ⟨cs, _, h.append_frame hw (by simp [hold])
    (fun _ _ => id) (fun _ _ => Or.inl) (fun c hc => update_of_ne hc _ _) rfl
    (.copy (k := 0) hr hv ⟨he.mem, he.call, ?_⟩ hflush)⟩⟩
  rw [update_self]
  simp

/-- An element of the vector is copied. -/
theorem Running.copy_step
    (h : Running env d leaving ph cs n) (hrun : d.aborted = false) {w : OpenCall}
    {r : LogRequest} {e : LoggedEntry} {k : ℕ} (hw : cs[n]? = some w)
    (hid : d.prog.activeTxId = n) (hr : r.Of d.prog.sh n w)
    (hv : e.vector = r.vector env d.prog.sh n w.call.obj)
    (he : Entered d.entries ph w e (.writing (8 + (e.vector.take k).flatten.length)))
    (hflush : d.flush = .stored)
    (hold : d.prog.persister =
      .copy w.call.obj r e.offset (e.offset + 16 + (e.vector.take k).flatten.length) k)
    (hstep : durablePersisterStep env d = some d') : d'.InOrder env old := by
  subst hid
  simp only [durablePersisterStep, persisterStep, hold, ← hv, hflush, reduceCtorEq,
    if_false] at hstep
  rcases hk : e.vector[k]? with - | bs
  · simp [hk] at hstep
  · simp only [hk, Option.isSome_some, if_true, Option.map_some] at hstep
    cases hstep
    have hlt := (List.getElem?_eq_some_iff.mp hk).1
    have hget := (List.getElem?_eq_some_iff.mp hk).2
    have htake : e.vector.take (k + 1) = e.vector.take k ++ [bs] := by
      rw [List.take_succ_eq_append_getElem hlt, hget]
    have hflat : e.vector.flatten =
        (e.vector.take k).flatten ++ bs ++ (e.vector.drop (k + 1)).flatten := by
      conv_lhs => rw [← List.take_append_drop (k + 1) e.vector, htake]
      simp
    set pre := bytesLE redoLogMagic 8 ++ (e.vector.take k).flatten with hpre
    have hlen : pre.length = 8 + (e.vector.take k).flatten.length := by
      rw [hpre, List.length_append, length_bytesLE]
    have hwrite := hc.write hrun he.mem pre bs (e.vector.drop (k + 1)).flatten
      (by rw [he.call, he.phase, hlen]) (by rw [entryBytes, hflat, hpre]; simp)
    rw [he.call, hlen, ← Nat.add_assoc, Nat.add_assoc e.offset 8 8] at hwrite
    have hlen' : (e.vector.take k).flatten.length + bs.length =
        (e.vector.take (k + 1)).flatten.length := by
      rw [htake]
      simp
    rw [Nat.add_assoc _ _ bs.length, hlen']
    refine ⟨leaving, _, hwrite, fun _ => ⟨cs, _, h.append_frame hw (by simp [hold])
      (fun _ _ => id) (fun _ _ => Or.inl) (fun c hc => update_of_ne hc _ _) rfl
      (.copy hr hv ⟨he.mem, he.call, ?_⟩ rfl)⟩⟩
    rw [update_self, Nat.add_assoc, hlen']

/-- The append returns, and the offset is published. -/
theorem Running.return_step
    (h : Running env d leaving ph cs n) {w : OpenCall} {r : LogRequest} {e : LoggedEntry}
    {dst k : ℕ} (hw : cs[n]? = some w) (hid : d.prog.activeTxId = n)
    (hv : e.vector = r.vector env d.prog.sh n w.call.obj) (hk : e.vector.length ≤ k)
    (he : Entered d.entries ph w e .appended) (hflush : d.flush = .persisted)
    (hold : d.prog.persister = .copy w.call.obj r e.offset dst k)
    (hstep : durablePersisterStep env d = some d') : d'.InOrder env old := by
  subst hid
  have hnone := List.getElem?_eq_none_iff.mpr hk
  simp only [durablePersisterStep, persisterStep, hold, ← hv, hflush, if_true, hnone,
    Option.isSome_none, Bool.false_eq_true, if_false, Option.map_some] at hstep
  cases hstep
  exact ⟨leaving, ph, hc, fun _ => ⟨cs, _, h.append_frame hw (by simp [hold]) (fun _ _ => id)
    (fun _ _ => Or.inl) (fun _ _ => rfl) rfl (.publish he rfl)⟩⟩

/-- **The offset is published**: the call counts as logged, and a nested call may name it as its
parent. -/
theorem Running.publish_step
    (h : Running env d leaving ph cs n) {w : OpenCall} {e : LoggedEntry}
    (hw : cs[n]? = some w) (hid : d.prog.activeTxId = n)
    (he : Entered d.entries ph w e .appended) (hflush : d.flush = .stored)
    (hold : d.prog.persister = .publish e.offset)
    (hstep : durablePersisterStep env d = some d') : d'.InOrder env old := by
  have hlt := lt_length_of_getElem? hw
  simp only [durablePersisterStep, persisterStep, hold, hid, Option.map_some] at hstep
  cases hstep
  have htx : ∀ j, j ≠ n → (d.prog.sh.setTx (n + 1) e.offset).txBuffer (j + 1) =
      d.prog.sh.txBuffer (j + 1) := by
    intro j hne
    rw [TxShared.setTx_txBuffer, update_of_ne (by omega)]
  refine ⟨leaving, ph, hc, fun _ => ⟨cs, n, h.opened, h.nodup, h.n_le, h.slots, h.tags, h.tags_zero,
    ?_, ?_, ?_, ?_, ?_⟩⟩
  · intro j v hj hv
    obtain ⟨e', he', hoffset⟩ := h.logged j v hj hv
    exact ⟨e', he', (htx j (by omega)).trans hoffset⟩
  · intro j hn hj
    rcases eq_or_ne j n with rfl | hne
    · exact Or.inr ⟨rfl, rfl⟩
    · rcases h.unlogged j hn hj with hzero | ⟨heq, -⟩
      · exact Or.inl ((htx j hne).trans hzero)
      · exact absurd heq hne
  · intro o e' he' j v hv hcall
    exact (h.entry o e' he' j v hv hcall).imp_right fun heq => ⟨heq.1, rfl⟩
  · refine .appending hw rfl (.acknowledge he ?_ hflush)
    rw [TxShared.setTx_txBuffer, update_self]
  · exact h.caller.pending hlt (d.prog.sh.setTx (n + 1) e.offset)
      (by rw [TxShared.setTx_txBuffer, update_of_ne (Nat.succ_ne_zero n).symm]) rfl
      (fun _ _ hs => hs) (htx _ (by omega)) _ _ _

/-- The tag is cleared: one more call is logged. -/
theorem Running.acknowledge_step
    (h : Running env d leaving ph cs n) {w : OpenCall} {e : LoggedEntry}
    (hw : cs[n]? = some w) (hid : d.prog.activeTxId = n)
    (he : Entered d.entries ph w e .appended) (htx : d.prog.sh.txBuffer (n + 1) = e.offset)
    (hflush : d.flush = .stored) (hold : d.prog.persister = .acknowledge)
    (hstep : durablePersisterStep env d = some d') : d'.InOrder env old := by
  have hlt := lt_length_of_getElem? hw
  simp only [durablePersisterStep, persisterStep, hold, hid, Option.map_some] at hstep
  cases hstep
  refine ⟨leaving, ph, hc, fun _ => ⟨cs, n + 1, h.opened, h.nodup, hlt, ?_, ?_, ?_, ?_, ?_, ?_,
    .searching rfl hflush, ?_⟩⟩
  · intro j v hv
    unfold Announced
    simp only [TxShared.setTag_objPtr, TxShared.setTag_argPtrs]
    exact h.slots j v hv
  · intro j v hv
    rw [TxShared.setTag_methodTag]
    rcases eq_or_ne j n with rfl | hne
    · rw [if_pos rfl, if_pos (Nat.lt_succ_self j)]
    · rw [if_neg hne, h.tags j v hv]
      exact if_congr (by omega) rfl rfl
  · intro j hj
    rw [TxShared.setTag_methodTag, if_neg (by omega)]
    exact h.tags_zero j hj
  · intro j v hj hv
    rcases Nat.lt_succ_iff_lt_or_eq.mp hj with hj | rfl
    · exact h.logged j v hj hv
    · rw [Option.some.inj (hv.symm.trans hw)]
      exact ⟨e, he, htx⟩
  · intro j hn hj
    rcases h.unlogged j (by omega) hj with hzero | ⟨heq, -⟩
    · exact Or.inl hzero
    · exact absurd heq (by omega)
  · intro o e' he' j v hv hcall
    rcases h.entry o e' he' j v hv hcall with hj | ⟨rfl, -⟩
    · exact Or.inl (Nat.lt_succ_of_lt hj)
    · exact Or.inl (Nat.lt_succ_self j)
  · refine h.caller.pending hlt (d.prog.sh.setTag n 0) rfl rfl (fun c k hs => ?_) rfl _ _ _
    unfold Announced at hs ⊢
    simpa only [TxShared.setTag_objPtr, TxShared.setTag_argPtrs] using hs

/-- **A step of the persister keeps the order**, wherever it is. -/
theorem Running.persister_step
    (h : Running env d leaving ph cs n) (hrun : d.aborted = false)
    (hstep : durablePersisterStep env d = some d') : d'.InOrder env old := by
  rcases h.logger with ⟨hpc, hflush⟩ | ⟨hlo, hw, hpc, hflush⟩ | ⟨hw, hid, hpc⟩
  · exact h.searching_step hc hpc hflush hstep
  · exact h.chosen_step hc hlo hw hpc hflush hstep
  · generalize hold : d.prog.persister = pc at hpc
    cases hpc with
    | append hr hflush => exact h.reserve_step hc hrun hw hid hr hflush hold hstep
    | magic hr hv he hflush => exact h.magic_step hc hrun hw hid hr hv he hflush hold hstep
    | copy hr hv he hflush => exact h.copy_step hc hrun hw hid hr hv he hflush hold hstep
    | @drained r e dst k hr hv hk he hflush =>
      -- the append waits for the tail
      have hnone := List.getElem?_eq_none_iff.mpr hk
      simp [durablePersisterStep, hold, hid, ← hv, hnone, hflush] at hstep
    | persisted hr hv hk he hflush => exact h.return_step hc hw hid hv hk he hflush hold hstep
    | publish he hflush => exact h.publish_step hc hw hid he hflush hold hstep
    | acknowledge he htx hflush => exact h.acknowledge_step hc hw hid he htx hflush hold hstep

end

end Persister

section Durability

variable {env : Objects} {old : OldEntries} {d d' : DurableState} {leaving : Option ℕ}
  {ph ph' : ℕ → Phase} {cs : List OpenCall} {n : ℕ}

/-- The threads see nothing of a write-back. -/
theorem Running.writeBack (h : Running env d leaving ph cs n) (o : ℕ) (lines : ℕ → Bool) :
    Running env (d.writeBack o lines) leaving ph cs n :=
  ⟨h.opened, h.nodup, h.n_le, h.slots, h.tags, h.tags_zero, h.logged, h.unlogged, h.entry, h.logger,
    h.caller⟩

/-- The append has waited for lines of its log. -/
theorem Running.flush_frame (h : Running env d leaving ph cs n) {w : OpenCall} {r : LogRequest}
    {obj offset dst k : ℕ} (hw : cs[n]? = some w) (hid : d.prog.activeTxId = n)
    (hold : d.prog.persister = .copy obj r offset dst k) (o : ℕ) (lines : ℕ → Bool)
    {flush : FlushStage} (hph : ∀ c, c ≠ w.number → ph' c = ph c)
    (hpc : Appending env d.prog.sh d.entries flush ph' n w d.prog.persister) :
    Running env { d.writeBack o lines with flush := flush } leaving ph' cs n := by
  subst hid
  have hne : d.prog.persister ≠ .acknowledge := by simp [hold]
  have hentered : d.prog.persister.entered = true := by
    rw [hold]
    rfl
  exact (h.writeBack o lines).append_frame hw hne (fun _ _ => id) (fun _ _ => Or.inl) hph hentered
    hpc

/-- The drain at the end of an append. -/
theorem Running.drain_step (hc : CallLogs env old d.calls leaving ph)
    (h : Running env d leaving ph cs n) (hrun : d.aborted = false) {w : OpenCall} {r : LogRequest}
    {e : LoggedEntry} {k : ℕ} (hw : cs[n]? = some w) (hid : d.prog.activeTxId = n)
    (hr : r.Of d.prog.sh n w) (hv : e.vector = r.vector env d.prog.sh n w.call.obj)
    (hk : e.vector.length ≤ k)
    (he : Entered d.entries ph w e (.writing (8 + (e.vector.take k).flatten.length)))
    (hold : d.prog.persister =
      .copy w.call.obj r e.offset (e.offset + 16 + (e.vector.take k).flatten.length) k) :
    DurableState.InOrder env old
      { d.writeBack w.call.obj (covers (e.offset + 8)
          (e.offset + 16 + (e.vector.take k).flatten.length - (e.offset + 8))) with
        flush := .drained } := by
  have hlen : 8 + (e.vector.take k).flatten.length = (entryBytes e.vector).length := by
    rw [List.take_of_length_le hk, length_entryBytes]
  have hdrain := hc.drain hrun he.mem (by rw [he.call, he.phase, hlen])
  rw [he.call, ← hlen] at hdrain
  rw [show e.offset + 16 + (e.vector.take k).flatten.length - (e.offset + 8) =
    8 + (e.vector.take k).flatten.length by omega]
  refine ⟨leaving, _, hdrain, fun _ => ⟨cs, n, h.flush_frame hw hid hold _ _
    (fun c hc => update_of_ne hc _ _) ?_⟩⟩
  rw [hold]
  exact .drained hr hv hk ⟨he.mem, he.call, update_self _ _ _⟩ rfl

/-- The tail is persisted before the append returns. -/
theorem Running.persistTail_step (hc : CallLogs env old d.calls leaving ph)
    (h : Running env d leaving ph cs n) (hrun : d.aborted = false) {w : OpenCall} {r : LogRequest}
    {e : LoggedEntry} {dst k : ℕ} (hw : cs[n]? = some w) (hid : d.prog.activeTxId = n)
    (hr : r.Of d.prog.sh n w) (hv : e.vector = r.vector env d.prog.sh n w.call.obj)
    (hk : e.vector.length ≤ k) (he : Entered d.entries ph w e .drained)
    (hold : d.prog.persister = .copy w.call.obj r e.offset dst k) :
    DurableState.InOrder env old
      { d.writeBack w.call.obj (covers tailFieldOffset 8) with flush := .persisted } := by
  have hpersist := hc.persistTail hrun he.mem (he.call ▸ he.phase)
  rw [he.call] at hpersist
  refine ⟨leaving, _, hpersist, fun _ => ⟨cs, n, h.flush_frame hw hid hold _ _
    (fun c hc => update_of_ne hc _ _) ?_⟩⟩
  rw [hold]
  exact .persisted hr hv hk ⟨he.mem, he.call, update_self _ _ _⟩ rfl

/-- **The flush of an append keeps the order.** -/
theorem Running.flush_step (hc : CallLogs env old d.calls leaving ph)
    (h : Running env d leaving ph cs n) (hrun : d.aborted = false) {stage : FlushStage}
    (hstep : flushStep env d stage = some d') : d'.InOrder env old := by
  unfold flushStep at hstep
  generalize hold : d.prog.persister = pc at hstep
  cases pc with
  | copy obj r offset dst k =>
    -- the log is flushed behind the copy loop only
    obtain ⟨⟨hnone, rfl⟩, hstep⟩ := Option.ite_none_right_eq_some.mp hstep
    rcases h.logger with ⟨hpc, -⟩ | ⟨-, -, hpc, -⟩ | ⟨hw, hid, hpc⟩
    · rw [hold] at hpc
      cases hpc
    · rw [hold] at hpc
      cases hpc
    · rw [hold] at hpc
      rw [hid] at hnone
      cases hpc with
      | copy hr hv he hflush =>
        rw [hflush] at hstep
        cases hstep
        exact h.drain_step hc hrun hw hid hr hv
          (List.getElem?_eq_none_iff.mp (by rwa [hv])) he hold
      | drained hr hv hk he hflush =>
        rw [hflush] at hstep
        cases hstep
        exact h.persistTail_step hc hrun hw hid hr hv hk he hold
      | persisted hr hv hk he hflush =>
        rw [hflush] at hstep
        cases hstep
  | _ => cases hstep

/-- The commit returns. -/
theorem Running.persistId_step (hc : CallLogs env old d.calls leaving ph)
    (h : Running env d leaving ph cs n) (hrun : d.aborted = false) {o offset : ℕ}
    (hun : d.unpersisted = some (o, offset)) :
    DurableState.InOrder env old { d.writeBack o (covers offset 8) with unpersisted := none } := by
  rcases h.caller with ⟨-, hnone, -, -, -⟩ | ⟨-, hnone, -, -, -⟩ | ⟨-, -, hnone, -, -, -, -⟩ |
    ⟨-, hnone, -, -, -, -, -, -⟩ | @⟨w, e, id, happ, hsome, rfl, hcount, hn, hnest, he⟩
  on_goal 5 =>
    obtain ⟨rfl, rfl⟩ : o = w.call.obj ∧ offset = e.offset := by
      simpa using hun.symm.trans hsome
    have hdisj := List.nodup_append'.mp h.nodup
    have hclosed : w.number ∉ d.opened := fun hmem => hdisj.2.2 hmem (by simp)
    have hopened : (d.opened ++ (none : Option ℕ).toList).Nodup := by
      rw [Option.toList_none, List.append_nil]
      exact hdisj.1
    have hpersist := hc.persistId hrun he.mem (he.call ▸ hclosed) (he.call ▸ he.phase)
    rw [he.call] at hpersist
    refine ⟨none, _, hpersist.settle (update_self _ _ _), fun _ => ⟨cs, n,
      (h.writeBack w.call.obj (covers e.offset 8)).app_frame hopened (.refl _ _)
      (fun _ _ => rfl) h.tags_zero (fun c hmem => ?_) (.ready happ rfl rfl hcount hnest)⟩⟩
    exact update_of_ne (ne_of_mem_of_not_mem hmem hclosed) _ _
  all_goals
    rw [hnone] at hun
    cases hun

/-! ## Runs -/

/-- Every step keeps the logs and the threads in order. -/
theorem DurableState.InOrder.step (h : d.InOrder env old) {a : DurableAction}
    (hstep : durableStep env d a = some d') : d'.InOrder env old := by
  obtain ⟨leaving, ph, hc, hthreads⟩ := h
  by_cases hevict : ∃ o line, a = .evict o line
  · obtain ⟨o, line, rfl⟩ := hevict
    cases hstep
    refine ⟨leaving, ph, hc.writeBack o _, fun hrun => ?_⟩
    obtain ⟨cs, n, h⟩ := hthreads hrun
    exact ⟨cs, n, h.writeBack o _⟩
  · cases hrun : d.aborted with
    | true => cases a <;> simp [durableStep, hrun] at hstep hevict
    | false =>
      obtain ⟨cs, n, h⟩ := hthreads hrun
      cases a with
      | app => exact h.app_step hc hrun (by simpa [durableStep, hrun] using hstep)
      | persister => exact h.persister_step hc hrun (by simpa [durableStep, hrun] using hstep)
      | drain => exact h.flush_step hc hrun (by simpa [durableStep, hrun] using hstep)
      | persistTail => exact h.flush_step hc hrun (by simpa [durableStep, hrun] using hstep)
      | persistId =>
        simp only [durableStep, hrun, Bool.false_eq_true, if_false] at hstep
        obtain ⟨⟨o, offset⟩, hun, rfl⟩ := Option.map_eq_some_iff.mp hstep
        exact h.persistId_step hc hrun hun
      | evict o line => exact absurd ⟨o, line, rfl⟩ hevict

/-- The log has whole lines below its tail, and every line behind its tail begins with a zero word:
no commit-id hole that an append can reserve holds anything. -/
structure RedoLog.ZeroHoles (log : RedoLog) : Prop where
  head_eq : log.head = redoLogHeaderSize
  aligned : log.tail % 64 = 0
  le_tail : redoLogHeaderSize ≤ log.tail
  tail_le : log.tail ≤ log.size
  hole : ∀ x, log.tail ≤ x → x % 64 = 0 → load log.data x 8 = 0

/-- The file of a new log is zero. -/
theorem RedoLog.ZeroHoles.create (id : Uuid) {size : ℕ} (hsize : redoLogHeaderSize ≤ size) :
    (savitarLogCreate id size).ZeroHoles :=
  ⟨rfl, show redoLogHeaderSize % 64 = 0 by decide, le_rfl, hsize,
    fun x _ _ => by simp [savitarLogCreate, load]⟩

/-- A thread that has not announced a call yet, and logs without words in the holes to come. -/
structure TxShared.Opened (sh : TxShared) : Prop where
  tag_eq : ∀ j, (sh.buffer j).methodTag = 0
  tx_eq : ∀ j, sh.txBuffer j = 0
  zeroHoles : ∀ o, (sh.logs o).ZeroHoles

/-- What a log holds when it is opened, as one extent. Nothing is said about its bytes but the word
in front. -/
def RedoLog.oldTxs (log : RedoLog) : List Tx :=
  if log.tail = redoLogHeaderSize then []
  else
    [⟨redoLogHeaderSize, [List.replicate (log.tail - redoLogHeaderSize - 16) 0],
      .found (load log.data redoLogHeaderSize 8)⟩]

/-- The old extent reaches from behind the header to the tail. -/
theorem RedoLog.ZeroHoles.tiles {log : RedoLog} (h : log.ZeroHoles) :
    Tiles Tx.offset Tx.size redoLogHeaderSize log.oldTxs log.tail := by
  have hle := h.le_tail
  have halign := h.aligned
  unfold RedoLog.oldTxs
  split
  · rename_i heq
    exact heq.symm
  · rename_i hne
    refine ⟨rfl, ?_⟩
    have hlen : 2 * 8 + (log.tail - redoLogHeaderSize - 16) = log.tail - redoLogHeaderSize := by
      simp only [redoLogHeaderSize] at hle hne ⊢
      omega
    have hmod : (log.tail - redoLogHeaderSize) % 64 = 0 := by
      simp only [redoLogHeaderSize] at hle ⊢
      omega
    simp only [Tiles, Tx.size, entrySize, List.flatten_singleton, List.length_replicate, hlen,
      padToLine, cacheLineWidth, hmod]
    simp
    omega

/-- What the logs of a thread hold when it begins. -/
def TxShared.Opened.oldEntries {sh : TxShared} (hsh : sh.Opened) : OldEntries where
  txs := fun o => (sh.logs o).oldTxs
  tail := fun o => (sh.logs o).tail
  tiles := fun o => (hsh.zeroHoles o).tiles

/-- The old extent is found with whatever word is in front of it. -/
theorem RedoLog.oldTxs_phase {log : RedoLog} {tx : Tx} (htx : tx ∈ log.oldTxs) :
    tx.phase = .found (load log.data tx.offset 8) := by
  unfold RedoLog.oldTxs at htx
  split at htx
  · cases htx
  · obtain rfl := List.mem_singleton.mp htx
    rfl

/-- At the start the logs hold the old extents and nothing of the thread. -/
theorem CallLogs.start {sh : TxShared} (hsh : sh.Opened) (prog : List Event) :
    CallLogs env hsh.oldEntries (DurableState.start sh prog).calls none fun _ => .drained := by
  have htxs : ∀ o, ((DurableState.start sh prog).calls.logOf hsh.oldEntries (fun _ => .drained) o).txs =
      (sh.logs o).oldTxs := fun o => List.append_nil _
  have hlayout : ∀ o, ((DurableState.start sh prog).calls.logOf hsh.oldEntries
      (fun _ => .drained) o).Layout := by
    intro o
    refine ⟨htxs o ▸ (hsh.zeroHoles o).tiles, (sh.logs o).oldTxs.length, ?_⟩
    rw [htxs, List.take_length]
    exact (hsh.zeroHoles o).tiles
  refine ⟨fun o => ⟨hlayout o, ?_, ?_, ?_, ?_⟩, fun o => ⟨hlayout o, ?_, ?_, ?_, ?_, ?_, rfl⟩,
    fun o => le_rfl, fun _ _ he => ?_, fun _ => List.nodup_nil, fun _ _ _ he => ?_,
    fun _ _ he => ?_, fun _ hc => ?_, fun _ _ hj => ?_, fun _ _ he => ?_, fun _ _ he => ?_,
    fun _ _ he => ?_⟩
  -- the logs hold the entries of earlier sessions only
  all_goals try rw [htxs]
  · intro tx htx
    rw [RedoLog.oldTxs_phase htx]
    rfl
  · intro tx htx
    rw [RedoLog.oldTxs_phase htx]
    exact Or.inl rfl
  · intro _ x hx hmod
    exact ⟨(hsh.zeroHoles o).hole x hx hmod, (hsh.zeroHoles o).hole x hx hmod⟩
  · intro _ tx htx id hid
    rw [RedoLog.oldTxs_phase htx] at hid
    cases hid
  · intro tx htx i hi
    rw [RedoLog.oldTxs_phase htx] at hi
    cases hi
  · intro _ tx htx hdrained
    rw [RedoLog.oldTxs_phase htx] at hdrained
    cases hdrained
  · intro tx htx hdrained
    rw [RedoLog.oldTxs_phase htx] at hdrained
    cases hdrained
  · intro _ tx htx
    exact ((hsh.zeroHoles o).tiles.mem_bounds htx).2.trans (hsh.zeroHoles o).tail_le
  · exact ⟨(hsh.zeroHoles o).head_eq, (hsh.zeroHoles o).head_eq⟩
  all_goals first | cases he | cases hc | cases hj

/-- At the start no call is open and the persister is idle. -/
theorem DurableState.InOrder.start {sh : TxShared} (hsh : sh.Opened) {prog : List Event}
    (hprog : ProperlyNested env [] sh.mem prog) :
    (DurableState.start sh prog).InOrder env hsh.oldEntries := by
  refine ⟨none, _, .start hsh prog, fun _ => ⟨[], 0, rfl, by simp [DurableState.start], le_rfl,
    by simp, by simp, fun j _ => hsh.tag_eq j, by simp, by simp, ?_, .searching rfl rfl,
    .ready rfl rfl rfl (hsh.tx_eq 0) hprog⟩⟩
  intro o e he
  cases he

/-- **Commits of nested calls survive a crash together.** In every interleaving of a properly nested
program with its persister and with write-backs of the log lines, and at every step: the durable
logs hold what the abort analysis assumes. An append does not clear the hole that it reserves, so
the holes behind the tails are asked to be zero when the logs are opened. -/
theorem nested_commits_durable {sh : TxShared} (hsh : sh.Opened) {prog : List Event}
    (hprog : ProperlyNested env [] sh.mem prog) {acts : List DurableAction}
    (hrun : run (durableStep env) (.start sh prog) acts = some d) :
    d.calls.NestedCommits env fun o => (sh.logs o).tail := by
  have hinv : d.InOrder env hsh.oldEntries :=
    run_invariant (fun _ _ _ h hstep => h.step hstep) (.start hsh hprog) hrun
  obtain ⟨leaving, ph, hc, -⟩ := hinv
  exact hc.nestedCommits

/-- Both calls are logged and the inner one is committed. The line with the id of the outer one is
evicted before its `pmem_persist`. -/
def evictedSchedule : List DurableAction :=
  [List.replicate 5 .app, List.replicate 8 .persister, [.drain, .persistTail],
    List.replicate 3 .persister, List.replicate 5 .app, List.replicate 14 .persister,
    [.drain, .persistTail], List.replicate 3 .persister, List.replicate 6 .app, [.persistId],
    List.replicate 5 .app, [.evict 0 1]].flatten

/-- The outer call has a durable id before its `pmem_persist`; the inner one has one too. -/
theorem nested_commits_durable_evicted :
    ∃ d, run (durableStep pointerObjects) (.start nestedStart nestedProgram) evictedSchedule =
        some d ∧
      (∃ e ∈ d.entries 0, ∃ e' ∈ d.entries 1, d.parent e'.call = some e.call ∧
        d.calls.commitId 0 e ≠ 0) ∧
      d.calls.NestedCommits pointerObjects fun o => (nestedStart.logs o).tail := by
  have hany : (run (durableStep pointerObjects) (.start nestedStart nestedProgram)
      evictedSchedule).any (fun d => (d.entries 0).any fun e => (d.entries 1).any fun e' =>
        d.parent e'.call = some e.call ∧ d.calls.commitId 0 e ≠ 0) = true := by
    decide +kernel
  obtain ⟨d, hrun, hid⟩ := run_of_any hany
  have hopened : nestedStart.Opened := ⟨fun _ => rfl, fun _ => rfl, fun _ => .create _ (by decide)⟩
  simp only [List.any_eq_true, decide_eq_true_eq] at hid
  exact ⟨d, hrun, hid, nested_commits_durable hopened nestedProgram_properlyNested hrun⟩

/-- An earlier session: the second line of an append, which holds payload, is evicted, and the tail
behind it is lost with the crash. -/
def lostTail : List LogAction :=
  [.reserve [bytesLE 1 8, List.replicate 48 7]] ++ List.replicate 64 (.write 0) ++
    [.evict 2, .crash, .reopen, .recover 0 redoLogHeaderSize]

/-- The next session, with the log that the earlier one left for object 0. -/
def reopenedStart (log : RedoLog) : TxShared :=
  { nestedStart with logs := Function.update nestedStart.logs 0 log }

/-- A call on object 0, and then one that makes a call on object 1. -/
def reopenedProgram : List Event := nestedProgram.take 1 ++ .wait 0 :: nestedProgram

/-- The first call is logged and committed, the other two are logged. -/
def reopenedSchedule : List DurableAction :=
  [List.replicate 5 .app, List.replicate 8 .persister, [.drain, .persistTail],
    List.replicate 3 .persister, List.replicate 5 .app, [.persistId], List.replicate 5 .app,
    List.replicate 8 .persister, [.drain, .persistTail], List.replicate 3 .persister,
    List.replicate 5 .app, List.replicate 14 .persister, [.drain, .persistTail]].flatten

/-- The second call of object 0 gets the line with the payload. Its append leaves the hole as it is,
so in the durable log it has a commit id, without a commit, and the call nested in it has none. -/
theorem stale_hole_not_nested_commits :
    ProperlyNested pointerObjects [] nestedStart.mem reopenedProgram ∧
    ∃ s, run (logStep vectorPlay (fun _ => true) true) (.create (BitVec.ofNat 128 1) 256) lostTail =
        some s ∧
      ∃ d, run (durableStep pointerObjects) (.start (reopenedStart s.log) reopenedProgram)
          reopenedSchedule = some d ∧
        ¬ d.calls.NestedCommits pointerObjects fun o => ((reopenedStart s.log).logs o).tail := by
  have hany : (run (logStep vectorPlay (fun _ => true) true) (.create (BitVec.ofNat 128 1) 256)
      lostTail).any (fun s =>
        (run (durableStep pointerObjects) (.start (reopenedStart s.log) reopenedProgram)
          reopenedSchedule).any fun d => (d.entries 0).any fun e => (d.entries 1).any fun e' =>
            d.parent e'.call = some e.call ∧ d.calls.commitId 0 e ≠ 0 ∧
              d.calls.commitId 1 e' = 0) = true := by
    decide +kernel
  obtain ⟨s, hs, hany⟩ := run_of_any hany
  obtain ⟨d, hd, hid⟩ := run_of_any hany
  simp only [List.any_eq_true, decide_eq_true_eq] at hid
  obtain ⟨e, he, e', he', hparent, hne, hzero⟩ := hid
  refine ⟨?_, s, hs, d, hd, fun hcommits => ?_⟩
  · exact ⟨by decide, _, _, rfl, rfl, nestedProgram_properlyNested⟩
  · exact hcommits.descendants 0 e he hne 1 e' he' (.single hparent) hzero

end Durability

end Pronto
