import Pronto.Log.Machine

/-!
# Invariants of the log machine

* `Layout`: the reserved extents tile the file from behind the header to the tail, and the durable
  tail is a boundary of that tiling.
* `Holes`: every commit-id hole holds the word its transaction's phase says, durably either that
  word or zero, and the holes still to be reserved are zero.
* `claims_step`: the only new id a step can bring in is `last_commit + 1`.
* `Bytes`: what an append has stored is in its entry, and durably so once it has drained.

`Layout` survives every step. `Holes` survives a reopening when the holes behind the tail of the
image are zero. `Bytes` is about one session.
-/

namespace Pronto

open Memory Tiling

/-! ## Entries and lines -/

theorem Tx.size_mod (tx : Tx) : tx.size % 64 = 0 := padToLine_mod _

theorem length_entryBytes (v : List (List UInt8)) :
    (entryBytes v).length = 8 + v.flatten.length := by
  simp [entryBytes]

/-- The hole, the magic and the arguments fit into the reserved space. -/
theorem Tx.length_le_size (tx : Tx) : 8 + (entryBytes tx.vector).length ≤ tx.size := by
  rw [length_entryBytes]
  exact le_trans (by omega) (le_padToLine _)

theorem Tx.size_ge (tx : Tx) : 64 ≤ tx.size := by
  have h1 := tx.length_le_size
  have h2 := tx.size_mod
  rw [length_entryBytes] at h1
  omega

theorem load_writeBack {lines : ℕ → Bool} {log durable : RedoLog} {x : ℕ} (hx : x % 64 = 0) :
    load (writeBack lines log durable).data x 8 =
      if lines (x / cacheLineWidth) then load log.data x 8 else load durable.data x 8 := by
  refine load_mergeOn fun y h1 h2 => ?_
  have hline : y / cacheLineWidth = x / cacheLineWidth := by
    simp only [cacheLineWidth]
    omega
  rw [hline]

theorem writeBack_tail (lines : ℕ → Bool) (log durable : RedoLog) :
    (writeBack lines log durable).tail = durable.tail ∨
      (writeBack lines log durable).tail = log.tail := by
  unfold writeBack
  cases lines 0
  · exact Or.inl rfl
  · exact Or.inr rfl

/-- A stopped process can only be started again. -/
theorem LogStep.of_down {drainPersists : Bool} {s s' : LogState} {a : LogAction}
    (hstep : LogStep drainPersists s a s') (hdown : s.mode = .down) : a = .reopen := by
  cases hstep <;> simp_all

/-- Only a crash stops the process. -/
theorem LogStep.mode_ne_down {drainPersists : Bool} {s s' : LogState} {a : LogAction}
    (hstep : LogStep drainPersists s a s') (ha : a ≠ .crash) : s'.mode ≠ .down := by
  cases hstep with
  | crash => exact absurd rfl ha
  | reserve =>
    simp only [LogState.reserve]
    split <;> decide
  | take =>
    simp only [LogState.takeId]
    split <;> decide
  | drain hmode => cases drainPersists <;> simp [LogState.persist, hmode]
  | evict hmode => exact hmode
  | _ => simp_all [LogState.storeBytes, LogState.persist]

/-- A property of all transactions after one of them changed. -/
theorem forall_mem_replace {P Q : Tx → Prop} {l r : List Tx} {x y : Tx}
    (h : ∀ tx ∈ l ++ x :: r, P tx) (hother : ∀ tx, tx ∈ l ∨ tx ∈ r → P tx → Q tx)
    (hself : P x → Q y) : ∀ tx ∈ l ++ y :: r, Q tx := by
  intro tx htx
  rcases List.mem_append.mp htx with hl | hr
  · exact hother tx (Or.inl hl) (h tx (by simp [hl]))
  · rcases List.mem_cons.mp hr with rfl | hr
    · exact hself (h x (by simp))
    · exact hother tx (Or.inr hr) (h tx (by simp [hr]))

/-! ## Layout -/

/-- The reserved extents tile the log, and the durable tail is one of their boundaries. -/
structure LogState.Layout (s : LogState) : Prop where
  tiles : Tiles Tx.offset Tx.size redoLogHeaderSize s.txs s.log.tail
  durable : ∃ n, Tiles Tx.offset Tx.size redoLogHeaderSize (s.txs.take n) s.durable.tail

section LayoutLemmas

variable {s s' : LogState} {l r : List Tx} {off : ℕ} {v : List (List UInt8)} {p q : Phase}

theorem LogState.Layout.aligned (h : s.Layout) :
    s.log.tail % 64 = 0 ∧ ∀ tx ∈ s.txs, tx.offset % 64 = 0 :=
  h.tiles.aligned rfl fun tx _ => tx.size_mod

/-- A step that neither moves nor resizes entries and sets the durable tail to the old or the
current one. -/
theorem LogState.Layout.congr (h : s.Layout)
    (htxs : (s'.txs.map fun tx => (tx.offset, tx.size)) = s.txs.map fun tx => (tx.offset, tx.size))
    (htail : s'.log.tail = s.log.tail)
    (hdurable : s'.durable.tail = s.durable.tail ∨ s'.durable.tail = s.log.tail) :
    s'.Layout where
  tiles := htail ▸ h.tiles.congr htxs
  durable := by
    rcases hdurable with hd | hd
    · obtain ⟨n, hn⟩ := h.durable
      refine ⟨n, hd ▸ hn.congr ?_⟩
      rw [List.map_take, List.map_take, htxs]
    · exact ⟨s'.txs.length, by rw [List.take_length, hd]; exact h.tiles.congr htxs⟩

theorem LogState.Layout.replace (h : s.Layout) (htxs : s.txs = l ++ ⟨off, v, p⟩ :: r)
    (htxs' : s'.txs = l ++ ⟨off, v, q⟩ :: r) (htail : s'.log.tail = s.log.tail)
    (hdurable : s'.durable.tail = s.durable.tail ∨ s'.durable.tail = s.log.tail) :
    s'.Layout :=
  h.congr (by simp [htxs, htxs', Tx.size]) htail hdurable

/-- A reservation goes to the end of the log. -/
theorem LogState.Layout.reserve (h : s.Layout) : (s.reserve v).Layout where
  tiles := h.tiles.append (Tiles.singleton rfl)
  durable := by
    obtain ⟨n, hn⟩ := h.durable
    refine ⟨min n s.txs.length, ?_⟩
    rw [LogState.reserve, List.take_append_of_le_length (min_le_right _ _), ← List.take_take,
      List.take_length]
    exact hn

/-- The survivors of a crash are the entries in front of the durable tail. -/
theorem LogState.Layout.filter_txs (h : s.Layout) :
    ∃ n, (s.txs.filter fun tx => tx.offset < s.durable.tail) = s.txs.take n ∧
      Tiles Tx.offset Tx.size redoLogHeaderSize (s.txs.take n) s.durable.tail := by
  obtain ⟨n, hn⟩ := h.durable
  exact ⟨n, h.tiles.filter_lt hn fun tx _ => lt_of_lt_of_le (by decide) tx.size_ge, hn⟩

theorem LogState.Layout.crash (h : s.Layout) : s.crash.Layout := by
  obtain ⟨n, hn, htiles⟩ := h.filter_txs
  have hsurv : Tiles Tx.offset Tx.size redoLogHeaderSize s.survivors s.durable.tail := by
    rw [LogState.survivors, hn]
    exact htiles.map fun _ _ => ⟨rfl, rfl⟩
  exact ⟨hsurv, s.survivors.length, by rw [LogState.crash, List.take_length]; exact hsurv⟩

/-- **Each step keeps the layout.** -/
theorem LogState.Layout.step {drainPersists : Bool} {a : LogAction} (h : s.Layout)
    (hstep : LogStep drainPersists s a s') : s'.Layout := by
  cases hstep with
  | reserve => exact h.reserve
  | write _ htxs => exact h.replace htxs rfl rfl (Or.inl rfl)
  | drain _ htxs =>
    cases drainPersists
    · exact h.replace htxs rfl rfl (Or.inl rfl)
    · exact h.replace htxs rfl rfl (writeBack_tail _ _ _)
  | persistTail _ htxs => exact h.replace htxs rfl rfl (writeBack_tail _ _ _)
  | take _ htxs => exact h.replace htxs rfl rfl (Or.inl rfl)
  | store _ htxs => exact h.replace htxs rfl rfl (Or.inl rfl)
  | persistId _ htxs => exact h.replace htxs rfl rfl (writeBack_tail _ _ _)
  | evict => exact h.congr rfl rfl (writeBack_tail _ _ _)
  | crash => exact h.crash
  | reopen => exact h.congr rfl rfl (Or.inl rfl)
  | recover => exact h.congr rfl rfl (Or.inl rfl)

/-- A store inside one entry leaves the holes of the others and everything behind the tail. -/
theorem LogState.Layout.load_store (h : s.Layout) (htxs : s.txs = l ++ ⟨off, v, p⟩ :: r) {a : ℕ}
    {bs : List UInt8} (ha : off ≤ a) (hbs : a + bs.length ≤ off + entrySize v) :
    (∀ tx, tx ∈ l ∨ tx ∈ r →
      load (store s.log.data a bs) tx.offset 8 = load s.log.data tx.offset 8) ∧
    ∀ x, s.log.tail ≤ x → load (store s.log.data a bs) x 8 = load s.log.data x 8 := by
  obtain ⟨hl, hr, -, hb⟩ := (htxs ▸ h.tiles).around
  simp only [Tx.size] at hl hr hb
  refine ⟨fun tx htx => load_store_of_disjoint ?_, fun x hx => load_store_of_disjoint (by omega)⟩
  have hsize : 64 ≤ entrySize tx.vector := tx.size_ge
  rcases htx with htx | htx
  · have := hl tx htx
    omega
  · have := hr tx htx
    omega

end LayoutLemmas

/-! ## Commit-id holes -/

/-- The words in the commit-id holes. -/
structure LogState.Holes (s : LogState) : Prop where
  layout : s.Layout
  hole : ∀ tx ∈ s.txs, load s.log.data tx.offset 8 = tx.phase.hole
  durable : ∀ tx ∈ s.txs, load s.durable.data tx.offset 8 = tx.phase.hole ∨
    load s.durable.data tx.offset 8 = 0
  fresh : s.mode ≠ .down → ∀ x, s.log.tail ≤ x → x % 64 = 0 →
    load s.log.data x 8 = 0 ∧ load s.durable.data x 8 = 0
  id_lt : s.mode ≠ .aborted → ∀ tx ∈ s.txs, ∀ id, tx.phase = .taken id → id < uint64Max

section HolesLemmas

variable {s s' : LogState} {l r : List Tx} {off : ℕ} {v : List (List UInt8)} {p q : Phase}

/-- The holes of a new log: there are none. -/
theorem LogState.Holes.create (id : Uuid) (size : ℕ) : (LogState.create id size).Holes where
  layout := ⟨rfl, 0, rfl⟩
  hole := by simp [LogState.create]
  durable := by simp [LogState.create]
  fresh := fun _ x _ _ => by
    have hzero : load (fun _ => 0) x 8 = 0 := by simp [load]
    exact ⟨hzero, hzero⟩
  id_lt := by simp [LogState.create]

/-- Writing back lines makes durable holes current or leaves them. -/
theorem LogState.Holes.writeBack (h : s.Holes) (lines : ℕ → Bool) :
    ({ s with durable := Pronto.writeBack lines s.log s.durable } : LogState).Holes where
  layout := h.layout.congr rfl rfl (writeBack_tail _ _ _)
  hole := h.hole
  durable := fun tx htx => by
    dsimp only
    rw [load_writeBack (h.layout.aligned.2 tx htx)]
    split
    · exact Or.inl (h.hole tx htx)
    · exact h.durable tx htx
  fresh := fun hmode x hx hmod => by
    obtain ⟨h1, h2⟩ := h.fresh hmode x hx hmod
    dsimp only
    rw [load_writeBack hmod, h1, h2, ite_self]
    exact ⟨rfl, rfl⟩
  id_lt := h.id_lt

/-- A phase change that leaves the hole, in a mode that still bounds the ids. -/
theorem LogState.Holes.replace (h : s.Holes) (htxs : s.txs = l ++ ⟨off, v, p⟩ :: r)
    (hhole : q.hole = p.hole) (hid : s'.mode ≠ .aborted → ∀ id, q = .taken id → id < uint64Max)
    (hmode : s.mode = .running) (hdata : s'.log.data = s.log.data) (htail : s'.log.tail = s.log.tail)
    (hdurable : s'.durable = s.durable) (htxs' : s'.txs = l ++ ⟨off, v, q⟩ :: r) : s'.Holes where
  layout := h.layout.replace htxs htxs' htail (Or.inl (by rw [hdurable]))
  hole := by
    rw [htxs', hdata]
    exact forall_mem_replace (x := ⟨off, v, p⟩) (htxs ▸ h.hole) (fun _ _ => id)
      fun hx => hx.trans hhole.symm
  durable := by
    rw [htxs', hdurable]
    exact forall_mem_replace (x := ⟨off, v, p⟩) (htxs ▸ h.durable) (fun _ _ => id) fun hx => by rwa [hhole]
  fresh := fun _ => by
    rw [hdata, htail, hdurable]
    exact h.fresh (by rw [hmode]; decide)
  id_lt := fun hrun => by
    rw [htxs']
    exact forall_mem_replace (x := ⟨off, v, p⟩) (htxs ▸ h.id_lt (by simp [hmode])) (fun _ _ => id)
      fun _ => hid hrun

/-- A store into the entry of one transaction, which leaves its hole or fills it with the id its
phase says. -/
theorem LogState.Holes.storeBytes (h : s.Holes) (htxs : s.txs = l ++ ⟨off, v, p⟩ :: r) {a : ℕ}
    {bs : List UInt8} (ha : off ≤ a) (hbs : a + bs.length ≤ off + entrySize v)
    (hmode : s.mode = .running) (htaken : ∀ id, q ≠ .taken id)
    (hhole : load (store s.log.data a bs) off 8 = q.hole)
    (hdurable : q.hole = p.hole ∨ p.hole = 0) :
    ({ s.storeBytes a bs with txs := l ++ ⟨off, v, q⟩ :: r } : LogState).Holes := by
  obtain ⟨hother, hfresh⟩ := h.layout.load_store htxs ha hbs
  refine ⟨h.layout.replace htxs rfl rfl (Or.inl rfl), ?_, ?_, ?_, ?_⟩
  · exact forall_mem_replace (x := ⟨off, v, p⟩) (htxs ▸ h.hole) (fun tx htx hx => (hother tx htx).trans hx)
      fun _ => hhole
  · refine forall_mem_replace (x := ⟨off, v, p⟩) (htxs ▸ h.durable) (fun _ _ => id) fun hx => ?_
    rcases hdurable with heq | hzero
    · rwa [heq]
    · exact Or.inr (hx.elim (fun h => h.trans hzero) id)
  · intro hm x hx hmod
    obtain ⟨h1, h2⟩ := h.fresh hm x hx hmod
    exact ⟨(hfresh x hx).trans h1, h2⟩
  · exact fun hrun => forall_mem_replace (x := ⟨off, v, p⟩) (htxs ▸ h.id_lt (by simp [hmode])) (fun _ _ => id)
      fun _ id hid => absurd hid (htaken id)

/-- The hole that is reserved is zero, as it was behind the tail. -/
theorem LogState.Holes.reserve (h : s.Holes) (hmode : s.mode = .running) :
    (s.reserve v).Holes where
  layout := h.layout.reserve
  hole := by
    refine List.forall_mem_append.mpr ⟨h.hole, ?_⟩
    simp only [List.mem_singleton, forall_eq]
    exact (h.fresh (by rw [hmode]; decide) _ le_rfl h.layout.aligned.1).1
  durable := by
    refine List.forall_mem_append.mpr ⟨h.durable, ?_⟩
    simp only [List.mem_singleton, forall_eq]
    exact Or.inr (h.fresh (by rw [hmode]; decide) _ le_rfl h.layout.aligned.1).2
  fresh := fun _ x hx hmod =>
    h.fresh (by rw [hmode]; decide) x (le_trans (Nat.le_add_right _ _) hx) hmod
  id_lt := fun _ => List.forall_mem_append.mpr ⟨h.id_lt (by simp [hmode]), by simp⟩

theorem LogState.Holes.crash (h : s.Holes) : s.crash.Holes where
  layout := h.layout.crash
  hole := by
    intro tx htx
    obtain ⟨tx, -, rfl⟩ := List.mem_map.mp htx
    rfl
  durable := by
    intro tx htx
    obtain ⟨tx, -, rfl⟩ := List.mem_map.mp htx
    exact Or.inl rfl
  fresh := fun hmode => absurd rfl hmode
  id_lt := fun _ tx htx => by
    obtain ⟨tx, -, rfl⟩ := List.mem_map.mp htx
    simp

/-- Every step keeps the holes in order, a reopening under the condition that the holes behind the
tail of the image are zero. -/
theorem LogState.Holes.step {drainPersists : Bool} {a : LogAction} (h : s.Holes)
    (hopen : a = .reopen → ∀ x, s.log.tail ≤ x → x % 64 = 0 → load s.log.data x 8 = 0 ∧
      load s.durable.data x 8 = 0)
    (hstep : LogStep drainPersists s a s') : s'.Holes := by
  -- stores go into the extent of their transaction, so the other holes stay
  cases hstep with
  | reserve hmode => exact h.reserve hmode
  | @write i l r off k v b hmode htxs hb =>
    have hk := (List.getElem?_eq_some_iff.mp hb).1
    have hsize : 8 + (entryBytes v).length ≤ entrySize v := Tx.length_le_size ⟨off, v, .drained⟩
    refine h.storeBytes htxs (by omega) (by simp only [List.length_singleton]; omega) hmode
      (by simp) ?_ (Or.inl rfl)
    rw [load_store_of_disjoint (by omega)]
    exact h.hole ⟨off, v, .writing k⟩ (by simp [htxs])
  | drain hmode htxs =>
    cases drainPersists
    · exact h.replace (q := .drained) htxs rfl (by simp) hmode rfl rfl rfl rfl
    · exact (h.writeBack _).replace (q := .drained) htxs rfl (by simp) hmode rfl rfl rfl rfl
  | persistTail hmode htxs =>
    exact (h.writeBack _).replace (q := .appended) htxs rfl (by simp) hmode rfl rfl rfl rfl
  | take hmode htxs =>
    refine h.replace (q := .taken _) htxs rfl (fun hrun id hid => ?_) hmode rfl rfl rfl rfl
    cases hid
    by_contra hge
    exact hrun (if_neg hge)
  | @store i l r off id v hmode htxs =>
    -- the id fits into a word, so it is read back from the hole
    have hlt := h.id_lt (by simp [hmode]) ⟨off, v, .taken id⟩ (by simp [htxs]) id rfl
    have hsize : 64 ≤ entrySize v := Tx.size_ge ⟨off, v, .drained⟩
    exact h.storeBytes htxs le_rfl (by simp; omega) hmode (by simp)
      (load_store_word (lt_trans hlt (by decide))) (Or.inr rfl)
  | persistId hmode htxs =>
    exact (h.writeBack _).replace (q := .committed _) htxs rfl (by simp) hmode rfl rfl rfl rfl
  | evict => exact h.writeBack _
  | crash => exact h.crash
  | reopen =>
    exact ⟨h.layout.congr rfl rfl (Or.inl rfl), h.hole, h.durable, fun _ => hopen rfl,
      fun _ => h.id_lt (by simp [*])⟩
  | recover hmode =>
    exact ⟨h.layout.congr rfl rfl (Or.inl rfl), h.hole, h.durable,
      fun _ => h.fresh (by rw [hmode]; decide), fun _ => h.id_lt (by simp [hmode])⟩

end HolesLemmas

/-! ## Commit ids -/

/-- The commit ids that transactions hold, in the order of their reservations. -/
def LogState.claims (s : LogState) : List ℕ :=
  (s.txs.map fun tx => tx.phase.claim).filter fun c => c ≠ 0

/-- The only new id a step can bring in is the next one, and then it counts it. -/
theorem LogStep.claims {drainPersists : Bool} {s s' : LogState} {a : LogAction}
    (hstep : LogStep drainPersists s a s') (ha : a ≠ .crash) :
    (s'.claims = s.claims ∧ s'.log.lastCommit = s.log.lastCommit) ∨
      (s'.claims.Perm ((s.log.lastCommit + 1) :: s.claims) ∧
        s'.log.lastCommit = s.log.lastCommit + 1) := by
  cases hstep with
  | crash => exact absurd rfl ha
  | take _ htxs =>
    right
    simp only [LogState.claims, htxs, Phase.claim, List.map_append, List.map_cons,
      List.filter_append, LogState.takeId, and_true]
    simp
  | drain _ htxs =>
    left
    cases drainPersists <;> exact ⟨by simp [LogState.claims, htxs, Phase.claim], rfl⟩
  | reserve => exact Or.inl ⟨by simp [LogState.claims, LogState.reserve, Phase.claim], rfl⟩
  | write _ htxs => exact Or.inl ⟨by simp [LogState.claims, htxs, Phase.claim], rfl⟩
  | persistTail _ htxs => exact Or.inl ⟨by simp [LogState.claims, htxs, Phase.claim], rfl⟩
  | store _ htxs => exact Or.inl ⟨by simp [LogState.claims, htxs, Phase.claim], rfl⟩
  | persistId _ htxs => exact Or.inl ⟨by simp [LogState.claims, htxs, Phase.claim], rfl⟩
  | evict => exact Or.inl ⟨rfl, rfl⟩
  | reopen => exact Or.inl ⟨rfl, rfl⟩
  | recover => exact Or.inl ⟨rfl, rfl⟩

/-- What a hole holds is what its transaction claims, or nothing yet. -/
theorem Phase.hole_eq_claim {p : Phase} (h : p.hole ≠ 0) : p.hole = p.claim := by
  cases p <;> first | rfl | exact absurd rfl h

/-- The commit ids in the entries of the durable log. -/
def LogState.durableIds (s : LogState) : List ℕ :=
  ((s.txs.filter fun tx => tx.offset < s.durable.tail).map fun tx =>
    load s.durable.data tx.offset 8).filter fun c => c ≠ 0

/-- A durable id is the id its transaction holds, so durable ids are distinct. -/
theorem LogState.Holes.durableIds_nodup {s : LogState} (h : s.Holes) (hpair : s.claims.Nodup) :
    s.durableIds.Nodup := by
  rw [LogState.claims, List.Nodup, List.pairwise_filter, List.pairwise_map] at hpair
  rw [LogState.durableIds, List.Nodup, List.pairwise_filter, List.pairwise_map]
  have hclaim : ∀ tx ∈ s.txs.filter (fun tx => tx.offset < s.durable.tail),
      load s.durable.data tx.offset 8 ≠ 0 → load s.durable.data tx.offset 8 = tx.phase.claim := by
    intro tx htx hne
    have heq := (h.durable tx (List.mem_of_mem_filter htx)).resolve_right hne
    rw [heq] at hne ⊢
    exact Phase.hole_eq_claim hne
  refine (hpair.sublist List.filter_sublist).imp_of_mem ?_
  intro a b ha hb hab hane hbne
  simp only [ne_eq, decide_not, Bool.not_eq_eq_eq_not, Bool.not_true, decide_eq_false_iff_not]
    at hab hane hbne
  have hca := hclaim a ha hane
  have hcb := hclaim b hb hbne
  rw [hca, hcb]
  exact hab (hca ▸ hane) (hcb ▸ hbne)

/-! ## The bytes of an entry -/

/-- How many bytes behind the hole are known to be stored, of `total`. -/
def Phase.written (total : ℕ) : Phase → ℕ
  | .writing k => k
  | .found _ => 0
  | _ => total

/-- The append of this session's transaction has drained its entry. -/
def Phase.isDrained : Phase → Bool
  | .writing _ => false
  | .found _ => false
  | _ => true

/-- The bytes behind the holes, and the capacity of the file. -/
structure LogState.Bytes (drainPersists : Bool) (s : LogState) : Prop where
  layout : s.Layout
  written : ∀ tx ∈ s.txs, ∀ i < tx.phase.written (entryBytes tx.vector).length,
    (entryBytes tx.vector)[i]? = some (s.log.data (tx.offset + 8 + i))
  durable : drainPersists = true → ∀ tx ∈ s.txs, tx.phase.isDrained = true →
    ∀ i < (entryBytes tx.vector).length,
      (entryBytes tx.vector)[i]? = some (s.durable.data (tx.offset + 8 + i))
  fits : ∀ tx ∈ s.txs, tx.phase.isDrained = true → tx.offset + tx.size ≤ s.log.size
  room : s.mode = .running → ∀ tx ∈ s.txs, tx.offset + tx.size ≤ s.log.size
  head : s.log.head = redoLogHeaderSize ∧ s.durable.head = redoLogHeaderSize
  size : s.durable.size = s.log.size

section BytesLemmas

variable {drainPersists : Bool} {s s' : LogState} {l r : List Tx} {off : ℕ}
  {v : List (List UInt8)} {p q : Phase}

/-- A new log has no bytes to account for. -/
theorem LogState.Bytes.create (id : Uuid) (size : ℕ) :
    (LogState.create id size).Bytes drainPersists where
  layout := (LogState.Holes.create id size).layout
  written := by simp [LogState.create]
  durable := by simp [LogState.create]
  fits := by simp [LogState.create]
  room := by simp [LogState.create]
  head := ⟨rfl, rfl⟩
  size := rfl

theorem Phase.written_of_isDrained {total : ℕ} (h : p.isDrained = true) : p.written total = total := by
  cases p <;> first | rfl | cases h

/-- Writing lines back makes no byte wrong: it can only make bytes durable that are stored
already. -/
theorem LogState.Bytes.writeBack (h : s.Bytes drainPersists) (lines : ℕ → Bool) :
    ({ s with durable := Pronto.writeBack lines s.log s.durable } : LogState).Bytes
      drainPersists where
  layout := h.layout.congr rfl rfl (writeBack_tail _ _ _)
  written := h.written
  durable := fun hp tx htx hd i hi => by
    simp only [Pronto.writeBack, mergeOn]
    split
    · exact h.written tx htx i (by rwa [Phase.written_of_isDrained hd])
    · exact h.durable hp tx htx hd i hi
  fits := h.fits
  room := h.room
  head := by
    refine ⟨h.head.1, ?_⟩
    simp only [Pronto.writeBack]
    split
    · exact h.head.1
    · exact h.head.2
  size := by
    simp only [Pronto.writeBack]
    split
    · rfl
    · exact h.size

/-- A phase change that says the same about the stored bytes. -/
theorem LogState.Bytes.replace (h : s.Bytes drainPersists) (htxs : s.txs = l ++ ⟨off, v, p⟩ :: r)
    (hwritten : ∀ total, q.written total = p.written total) (hdrained : q.isDrained = p.isDrained)
    (hmode : s'.mode = .running → s.mode = .running) (hdata : s'.log.data = s.log.data)
    (hlog : s'.log.tail = s.log.tail ∧ s'.log.size = s.log.size ∧ s'.log.head = s.log.head)
    (hdurable : s'.durable = s.durable) (htxs' : s'.txs = l ++ ⟨off, v, q⟩ :: r) :
    s'.Bytes drainPersists where
  layout := h.layout.replace htxs htxs' hlog.1 (Or.inl (by rw [hdurable]))
  written := by
    rw [htxs', hdata]
    exact forall_mem_replace (x := ⟨off, v, p⟩) (htxs ▸ h.written) (fun _ _ => id)
      fun hx => by rwa [hwritten]
  durable := fun hp => by
    rw [htxs', hdurable]
    exact forall_mem_replace (x := ⟨off, v, p⟩) (htxs ▸ h.durable hp) (fun _ _ => id)
      fun hx => by rwa [hdrained]
  fits := by
    rw [htxs', hlog.2.1]
    exact forall_mem_replace (x := ⟨off, v, p⟩) (htxs ▸ h.fits) (fun _ _ => id)
      fun hx => by rwa [hdrained]
  room := fun hrun => by
    rw [htxs', hlog.2.1]
    exact forall_mem_replace (x := ⟨off, v, p⟩) (htxs ▸ h.room (hmode hrun)) (fun _ _ => id) id
  head := by rw [hlog.2.2, hdurable]; exact h.head
  size := by rw [hdurable, hlog.2.1]; exact h.size

/-- A store into the entry of one transaction that adds to what is known to be stored, if it
touches that at all. -/
theorem LogState.Bytes.storeBytes (h : s.Bytes drainPersists)
    (htxs : s.txs = l ++ ⟨off, v, p⟩ :: r) {a : ℕ} {bs : List UInt8} (ha : off ≤ a)
    (hbs : a + bs.length ≤ off + entrySize v)
    (hself : ∀ i < q.written (entryBytes v).length,
      (entryBytes v)[i]? = some (store s.log.data a bs (off + 8 + i)))
    (hdrained : q.isDrained = p.isDrained) :
    ({ s.storeBytes a bs with txs := l ++ ⟨off, v, q⟩ :: r } : LogState).Bytes drainPersists where
  layout := h.layout.replace htxs rfl rfl (Or.inl rfl)
  written := by
    obtain ⟨hl, hr, -, -⟩ := (htxs ▸ h.layout.tiles).around
    simp only [Tx.size] at hl hr
    refine forall_mem_replace (x := ⟨off, v, p⟩) (htxs ▸ h.written) (fun tx htx hx i hi => ?_)
      fun _ => hself
    have hlen : 8 + (entryBytes tx.vector).length ≤ entrySize tx.vector := tx.length_le_size
    have hi' : i < (entryBytes tx.vector).length :=
      (List.getElem?_eq_some_iff.mp (hx i hi)).1
    rw [hx i hi]
    refine congrArg some (store_of_outside ?_).symm
    rcases htx with htx | htx
    · have := hl tx htx
      omega
    · have := hr tx htx
      omega
  durable := fun hp => forall_mem_replace (x := ⟨off, v, p⟩) (htxs ▸ h.durable hp)
    (fun _ _ => id) fun hx => by rwa [hdrained]
  fits := forall_mem_replace (x := ⟨off, v, p⟩) (htxs ▸ h.fits) (fun _ _ => id)
    fun hx => by rwa [hdrained]
  room := fun hrun =>
    forall_mem_replace (x := ⟨off, v, p⟩) (htxs ▸ h.room hrun) (fun _ _ => id) id
  head := h.head
  size := h.size

/-- The end of a drain that has made the entry durable, if drains do. -/
theorem LogState.Bytes.drained (h : s.Bytes drainPersists) (hmode : s.mode = .running)
    (htxs : s.txs = l ++ ⟨off, v, .writing (entryBytes v).length⟩ :: r)
    (hdurable : drainPersists = true → ∀ i < (entryBytes v).length,
      (entryBytes v)[i]? = some (s.durable.data (off + 8 + i))) :
    ({ s with txs := l ++ ⟨off, v, .drained⟩ :: r } : LogState).Bytes drainPersists where
  layout := h.layout.replace htxs rfl rfl (Or.inl rfl)
  written := forall_mem_replace (x := ⟨off, v, .writing (entryBytes v).length⟩)
    (htxs ▸ h.written) (fun _ _ => id) id
  durable := fun hp => forall_mem_replace (htxs ▸ h.durable hp) (fun _ _ => id)
    fun _ _ => hdurable hp
  fits := forall_mem_replace (htxs ▸ h.fits) (fun _ _ => id)
    fun _ _ => h.room hmode ⟨off, v, .writing (entryBytes v).length⟩ (by simp [htxs])
  room := fun hrun => forall_mem_replace (x := ⟨off, v, .writing (entryBytes v).length⟩)
    (htxs ▸ h.room hrun) (fun _ _ => id) id
  head := h.head
  size := h.size

/-- The write-back of an entry's lines covers every byte of the entry. -/
theorem LogState.Bytes.durable_persist (h : s.Bytes drainPersists)
    (htxs : s.txs = l ++ ⟨off, v, .writing (entryBytes v).length⟩ :: r) {i : ℕ}
    (hi : i < (entryBytes v).length) :
    (entryBytes v)[i]? =
      some ((s.persist (off + 8) (entryBytes v).length).durable.data (off + 8 + i)) := by
  have hline : covers (off + 8) (entryBytes v).length ((off + 8 + i) / cacheLineWidth) = true := by
    rw [covers, decide_eq_true_eq]
    simp only [cacheLineWidth]
    omega
  simp only [LogState.persist, Pronto.writeBack, mergeOn, if_pos hline]
  exact h.written ⟨off, v, .writing (entryBytes v).length⟩ (by simp [htxs]) i hi

/-- A reservation stores nothing. -/
theorem LogState.Bytes.reserve (h : s.Bytes drainPersists) (hmode : s.mode = .running) :
    (s.reserve v).Bytes drainPersists where
  layout := h.layout.reserve
  written := List.forall_mem_append.mpr ⟨h.written, by simp [Phase.written]⟩
  durable := fun hp => List.forall_mem_append.mpr ⟨h.durable hp, by simp [Phase.isDrained]⟩
  fits := List.forall_mem_append.mpr ⟨h.fits, by simp [Phase.isDrained]⟩
  room := fun hrun => by
    refine List.forall_mem_append.mpr ⟨h.room hmode, ?_⟩
    simp only [List.mem_singleton, forall_eq]
    by_contra hgt
    exact absurd ((if_neg hgt).symm.trans hrun) (by decide)
  head := h.head
  size := h.size

/-- Every step within a session keeps the bytes in order. -/
theorem LogState.Bytes.step {a : LogAction} (h : s.Bytes drainPersists)
    (hstep : LogStep drainPersists s a s') (ha : a ≠ .crash) (hup : s.mode ≠ .down)
    (hup' : s.mode ≠ .recovering) : s'.Bytes drainPersists := by
  cases hstep with
  | reserve hmode => exact h.reserve hmode
  | @write i l r off k v b hmode htxs hb =>
    have hk := (List.getElem?_eq_some_iff.mp hb).1
    have hsize : 8 + (entryBytes v).length ≤ entrySize v := Tx.length_le_size ⟨off, v, .drained⟩
    refine h.storeBytes htxs (by omega) (by simp only [List.length_singleton]; omega)
      (fun i hi => ?_) rfl
    rcases Nat.lt_succ_iff_lt_or_eq.mp hi with hlt | rfl
    · rw [store_of_lt (by omega)]
      exact h.written ⟨off, v, .writing k⟩ (by simp [htxs]) i hlt
    · rw [hb]
      have : store s.log.data (off + 8 + i) [b] (off + 8 + i + 0) = b := store_add (by simp)
      exact congrArg some this.symm
  | drain hmode htxs =>
    cases drainPersists
    · exact h.drained hmode htxs (by simp)
    · exact (h.writeBack _).drained hmode htxs fun _ _ hi => h.durable_persist htxs hi
  | persistTail hmode htxs =>
    exact (h.writeBack _).replace (q := .appended) htxs (fun _ => rfl) rfl id rfl
      ⟨rfl, rfl, rfl⟩ rfl rfl
  | take hmode htxs =>
    exact h.replace (q := .taken _) htxs (fun _ => rfl) rfl (fun _ => hmode) rfl
      ⟨rfl, rfl, rfl⟩ rfl rfl
  | @store i l r off id v hmode htxs =>
    have hsize : 64 ≤ entrySize v := Tx.size_ge ⟨off, v, .drained⟩
    refine h.storeBytes htxs le_rfl (by simp; omega) (fun i hi => ?_) rfl
    rw [store_of_ge (by simp)]
    exact h.written ⟨off, v, .taken id⟩ (by simp [htxs]) i hi
  | persistId hmode htxs =>
    exact (h.writeBack _).replace (q := .committed _) htxs (fun _ => rfl) rfl id rfl
      ⟨rfl, rfl, rfl⟩ rfl rfl
  | evict => exact h.writeBack _
  | crash => exact absurd rfl ha
  | reopen hmode => exact absurd hmode hup
  | recover hmode => exact absurd hmode hup'

end BytesLemmas

end Pronto
