import Pronto.Alloc.Owners

/-!
# Which calls of the global allocator lose memory

The free regions and the regions handed out cover the mapped memory as long as every size that is
stored fits into its field of 29 bits (`Regions.covers_iff`). Here this is said of the calls, by what
they find: `alloc` stores the remainder of a new pool when no free region is large enough, and
`release` ends with one region for the whole interval of free bytes around the released one. A run
keeps the memory covered exactly as long as its calls find sizes that fit
(`free_and_live_cover_iff`); once bytes are lost they stay lost.
-/

namespace Pronto

open Linked Runs

/-- The sizes that a call stores fit into the field: a free region is large enough, or the remainder
of the new pool is short; every interval of free bytes around the released region is short. -/
def GlobalRun.Fits (s : GlobalRun) : GlobalAction → Prop
  | .alloc size => (∃ m ∈ s.gs.freeRegions, size ≤ m.size) ∨ poolFor size - size < sizeLimit
  | .release m => ∀ lo hi, lo ≤ m.ptr → m.ptr + m.size ≤ hi →
      (∀ x, lo ≤ x → x < hi → s.gs.FreeByte x ∨ m.Has x) → hi - lo < sizeLimit
  | .write _ _ _ _ => True

/-- Every interval of the bytes `S` is shorter than what a field can hold. -/
def ShortRuns (S : ℕ → Prop) : Prop :=
  ∀ lo hi, (∀ x, lo ≤ x → x < hi → S x) → hi - lo < sizeLimit

/-- Bytes that all lie close together. -/
theorem shortRuns_of_bounds {S : ℕ → Prop} (lo hi : ℕ) (h : ∀ x, S x → lo ≤ x ∧ x < hi)
    (hlt : hi - lo < sizeLimit) : ShortRuns S := by
  intro lo' hi' hall
  by_cases hle : hi' ≤ lo'
  · have : 0 < sizeLimit := by decide
    omega
  · have h₁ := h lo' (hall lo' le_rfl (by omega))
    have h₂ := h (hi' - 1) (hall (hi' - 1) (by omega) (by omega))
    omega

section Regions

variable {s s' : GlobalState} {live : List MemoryRegion} {ps : List Piece} {chain : List ℕ}
  {m : MemoryRegion} {a size ptr x : ℕ}

@[simp] theorem truncated_pushFree (s : GlobalState) (a size : ℕ) :
    (s.pushFree a size).ga.truncated = true ↔ s.ga.truncated = true ∨ sizeLimit ≤ size :=
  GlobalState.truncated_setSize s a size

theorem truncated_takeFrom (s : GlobalState) (a size : ℕ) :
    (s.takeFrom a size).2.ga.truncated = (s.setSize a (s.size a - size)).ga.truncated := by
  simp only [GlobalState.takeFrom]
  split_ifs <;> rfl

/-- The flag stays set. -/
theorem truncated_alloc (heq : s.alloc size = some (ptr, s')) (htrue : s.ga.truncated = true) :
    s'.ga.truncated = true := by
  rw [GlobalState.alloc, GlobalState.allocFrom] at heq
  obtain ⟨a, -, heq⟩ := Option.bind_eq_some_iff.mp heq
  split at heq
  · have htake := truncated_takeFrom s a size
    rw [Option.some.inj heq] at htake
    rw [htake, GlobalState.truncated_setSize]
    exact .inl htrue
  · obtain ⟨n, -, -, -, -, ⟨-, rfl⟩ | ⟨-, rfl⟩⟩ := mapPool_cases heq
    · exact (truncated_pushFree _ _ _).mpr (.inl htrue)
    · exact htrue

theorem truncated_tryMergingRegions {fuel r : ℕ}
    (heq : GlobalState.tryMergingRegions fuel s r = some s') (htrue : s.ga.truncated = true) :
    s'.ga.truncated = true := by
  induction fuel generalizing s r with
  | zero => cases heq
  | succ fuel ih =>
    have hmerge (a b : ℕ) : (s.merge a b).ga.truncated = true :=
      (GlobalState.truncated_setSize s a (s.size a + s.size b)).mpr (.inl htrue)
    obtain ⟨c, -, heq⟩ := Option.bind_eq_some_iff.mp heq
    split at heq
    · cases heq
      exact htrue
    · split at heq
      · exact ih heq (hmerge _ _)
      · exact ih heq (hmerge _ _)

namespace Regions

section

variable (h : Regions s live ps chain)
include h

/-- Nothing was truncated exactly if every mapped byte is free or handed out. -/
theorem truncated_eq_false_iff :
    s.ga.truncated = false ↔
      ∀ x, baseAddress ≤ x → x < s.limit → s.FreeByte x ∨ ∃ m ∈ live, m.Has x := by
  constructor
  · intro hfalse x hlo hhi
    have hcovers := h.covers_iff.mpr hfalse
    rw [h.totalMapped_eq] at hcovers
    obtain ⟨m, hm, hx⟩ := (hcovers.cover x).mpr ⟨hlo, hhi⟩
    exact (List.mem_append.mp hm).imp (fun hm => ⟨m, hm, hx⟩) fun hm => ⟨m, hm, hx⟩
  · intro hall
    rw [Bool.eq_false_iff, ne_eq, h.truncated, Nat.not_lt, Nat.le_zero, missingBytes,
      List.sum_eq_zero_iff]
    simp only [List.mem_map, forall_exists_index, and_imp, forall_apply_eq_imp_iff₂]
    intro p hp
    by_contra hne
    obtain ⟨x, hlo, hhi, hnone⟩ := h.missing_byte hp (Nat.pos_of_ne_zero hne)
    have hbounds := h.tiles.mem_bounds hp
    rcases hall x (by omega) (by omega) with ⟨m, hm, hx⟩ | ⟨m, hm, hx⟩
    · exact hnone ⟨m, List.mem_append_left _ hm, hx⟩
    · exact hnone ⟨m, List.mem_append_right _ hm, hx⟩

/-- As long as nothing was truncated, the free list consists of disjoint regions. -/
theorem toFreeRegions (hfalse : s.ga.truncated = false) :
    FreeRegions s chain where
  isList := h.isList
  nodup := h.nodup
  pos := fun a ha => by
    obtain ⟨l, r, e, rfl, hle, -, -⟩ := h.split ha
    have hpos : 0 < e := h.pos ⟨a, e, .free (s.size a)⟩ (by simp)
    -- the node stores the whole size of its piece, since nothing is missing
    have hmissing : ¬ 0 < missingBytes (l ++ ⟨a, e, .free (s.size a)⟩ :: r) := fun hlt =>
      absurd (h.truncated.mpr hlt) (by simp [hfalse])
    simp only [missingBytes_append, missingBytes_free] at hmissing
    omega
  disjoint := fun a ha b hb hne => by
    obtain ⟨p, hp, rfl, v, hv⟩ := h.mem_chain.mp ha
    obtain ⟨q, hq, rfl, w, hw⟩ := h.mem_chain.mp hb
    obtain ⟨hpsize, hple, -, -⟩ := (h.ok p hp).stored v hv
    obtain ⟨hqsize, hqle, -, -⟩ := (h.ok q hq).stored w hw
    have := h.tiles.disjoint hp hq hne
    omega

/-- A region that is handed out has no byte in common with a free one. -/
theorem apart (hm : m ∈ live) (ha : a ∈ chain) :
    a + s.size a ≤ m.ptr ∨ m.ptr + m.size ≤ a := by
  obtain ⟨p, hp, rfl, v, hv⟩ := h.mem_chain.mp ha
  obtain ⟨hsize, hle, -, -⟩ := (h.ok p hp).stored v hv
  obtain ⟨q, hq, rfl, hkind⟩ := h.live_piece hm
  have hne : p.addr ≠ q.addr := fun heq => by
    rw [List.inj_on_of_nodup_map (h.tiles.nodup_starts h.pos) hp hq heq, hkind] at hv
    cases hv
  have := h.tiles.disjoint hp hq hne
  simp only [Piece.region]
  omega

theorem ptr_ne_zero (hm : m ∈ live) : m.ptr ≠ 0 := by
  have hbounds := h.live_bounds hm
  have : 0 < baseAddress := by decide
  omega

theorem inRegions_inside (hx : s.InRegions chain x) :
    baseAddress ≤ x ∧ x < s.limit := by
  obtain ⟨a, ha, hlo, hhi⟩ := hx
  obtain ⟨p, hp, rfl, v, hv⟩ := h.mem_chain.mp ha
  obtain ⟨hsize, hle, -, -⟩ := (h.ok p hp).stored v hv
  have := h.tiles.mem_bounds hp
  omega

/-- What `release` leaves on the list, as `save` walks over it. -/
theorem freeByte_after_release (hm : m ∈ live)
    (hrelease : s.release m.ptr m.size = some s') {chain' : List ℕ}
    (hlist : IsList s'.mem.links 0 s'.ga.freeList chain') (hnodup : chain'.Nodup)
    (hsub : chain' ⊆ m.ptr :: chain) : s'.FreeByte x ↔ s'.InRegions chain' x := by
  obtain ⟨ps', h'⟩ := h.pushFree hm
  have hlimit : s'.limit = s.limit := limit_congr (mappedRegions_release hrelease)
  have hlen : chain'.length < s'.allocatedBlocks + 1 := by
    rw [GlobalState.allocatedBlocks, hlimit]
    exact Nat.lt_succ_of_le ((hnodup.subperm hsub).length_le.trans h'.length_le)
  rw [GlobalState.FreeByte, GlobalState.freeRegions, walkFree_eq hlist hlen]
  simp [GlobalState.InRegions]

/-- The loops of `release` get as far as they have to. -/
theorem length_lt (hm : m ∈ live) :
    chain.length < s.allocatedBlocks := by
  obtain ⟨ps', h'⟩ := h.pushFree hm
  exact h'.length_le

/-- After `release` the bytes of the region are free and nothing is truncated, if the interval of free
bytes fits. -/
theorem release_fits (hfalse : s.ga.truncated = false) (hm : m ∈ live)
    (hfit : ∀ lo hi, lo ≤ m.ptr → m.ptr + m.size ≤ hi →
      (∀ x, lo ≤ x → x < hi → s.FreeByte x ∨ m.Has x) → hi - lo < sizeLimit)
    (hrelease : s.release m.ptr m.size = some s') :
    s'.ga.truncated = false ∧ ∀ x, s'.FreeByte x ↔ s.FreeByte x ∨ m.Has x := by
  -- one side keeps the tiling, the other one says which bytes are free; both are about the same
  -- `release`
  obtain ⟨s'', ps', chain', hrelease', h'⟩ := h.release hm
  rw [hrelease] at hrelease'
  cases hrelease'
  have hlimit : s'.limit = s.limit := limit_congr (mappedRegions_release hrelease)
  have hbounds := h.live_bounds hm
  have hbound := h.length_lt hm
  obtain ⟨s'', chain'', -, hloop, hfree, hbytes, -, -, -, -, -, hsub⟩ :=
    (h.toFreeRegions hfalse).release (h.ptr_ne_zero hm) hbounds.2.2.1 (fun a ha => h.apart hm ha)
      fun lo hi hlo hhi hall => hfit lo hi hlo hhi fun x h₁ h₂ =>
        (hall x h₁ h₂).imp_left h.nodesOk.freeByte_iff.mpr
  have heq : s' = s'' := by
    have hloop' := (GlobalState.release_eq s m.ptr m.size).symm.trans hrelease
    rw [hloop _ _ (by omega) (by omega)] at hloop'
    exact (Option.some.inj hloop').symm
  subst heq
  have hiff : ∀ x, s'.FreeByte x ↔ s.FreeByte x ∨ m.Has x := fun x => by
    rw [h.freeByte_after_release hm hrelease hfree.isList hfree.nodup hsub, hbytes,
      h.nodesOk.freeByte_iff]
    rfl
  refine ⟨h'.truncated_eq_false_iff.mpr fun x hlo hhi => ?_, hiff⟩
  rw [hiff]
  -- every mapped byte was free or handed out before, so it is one of these now
  rcases h.truncated_eq_false_iff.mp hfalse x hlo (hlimit ▸ hhi) with hx | ⟨n, hn, hx⟩
  · exact .inl (.inl hx)
  · by_cases hnm : n = m
    · exact .inl (.inr (hnm ▸ hx))
    · exact .inr ⟨n, (List.mem_erase_of_ne hnm).mpr hn, hx⟩

/-- If it does not fit, bytes are lost. -/
theorem release_truncates (hfalse : s.ga.truncated = false)
    (hm : m ∈ live) {lo hi : ℕ} (hlo : lo ≤ m.ptr) (hhi : m.ptr + m.size ≤ hi)
    (hall : ∀ x, lo ≤ x → x < hi → s.FreeByte x ∨ m.Has x) (hlong : sizeLimit ≤ hi - lo)
    (hrelease : s.release m.ptr m.size = some s') : s'.ga.truncated ≠ false := by
  intro hfalse'
  obtain ⟨s'', ps', chain', hrelease', h'⟩ := h.release hm
  rw [hrelease] at hrelease'
  cases hrelease'
  have hlimit : s'.limit = s.limit := limit_congr (mappedRegions_release hrelease)
  have hbounds := h.live_bounds hm
  have hbound := h.length_lt hm
  have hfield : ∀ a ∈ chain, s.size a < sizeLimit := fun a ha => by
    obtain ⟨-, -, -, -, -, -, hlt⟩ := h.split ha
    exact hlt
  obtain ⟨chain'', hlist, hnodup, hsub, x, hx, hlost⟩ :=
    (h.toFreeRegions hfalse).release_lossy hfield (h.ptr_ne_zero hm) hbounds.2.2.1
      (fun a ha => h.apart hm ha) hlo hhi
      (fun x h₁ h₂ => (hall x h₁ h₂).imp_left h.nodesOk.freeByte_iff.mp) hlong
      ((GlobalState.release_eq s m.ptr m.size).symm.trans hrelease) (by omega)
  rw [← h.freeByte_after_release hm hrelease hlist hnodup hsub] at hlost
  have hinside : baseAddress ≤ x ∧ x < s.limit :=
    hx.elim (fun hx => h.inRegions_inside hx) fun hx => by omega
  -- the lost byte is in no region in use either
  rcases h'.truncated_eq_false_iff.mp hfalse' x hinside.1 (hlimit ▸ hinside.2) with hfree | ⟨n, hn, hxn⟩
  · exact hlost hfree
  · obtain ⟨hne, hn⟩ := h.live_nodup.mem_erase_iff.mp hn
    rcases hx with hx | hxm
    · exact h.not_free ⟨n, hn, hxn⟩ (h.nodesOk.freeByte_iff.mpr hx)
    · have := h.live_apart hn hm hne
      simp only [MemoryRegion.Has] at hxn
      omega

/-- `release` truncates no size exactly if every interval of free bytes around the region fits. -/
theorem release_truncated_iff (hfalse : s.ga.truncated = false)
    (hm : m ∈ live) (hrelease : s.release m.ptr m.size = some s') :
    s'.ga.truncated = false ↔ ∀ lo hi, lo ≤ m.ptr → m.ptr + m.size ≤ hi →
      (∀ x, lo ≤ x → x < hi → s.FreeByte x ∨ m.Has x) → hi - lo < sizeLimit := by
  refine ⟨fun hfalse' lo hi hlo hhi hall => ?_, fun hfit =>
    (h.release_fits hfalse hm hfit hrelease).1⟩
  by_contra hlong
  exact h.release_truncates hfalse hm hlo hhi hall (Nat.le_of_not_lt hlong) hrelease hfalse'

/-- Taking from a region of the list stores a size that fits. -/
theorem takeFrom_truncated (size : ℕ) (ha : a ∈ chain) :
    (s.takeFrom a size).2.ga.truncated = s.ga.truncated := by
  obtain ⟨-, -, -, -, -, -, hlt⟩ := h.split ha
  rw [truncated_takeFrom, Bool.eq_iff_iff, GlobalState.truncated_setSize]
  exact or_iff_left (by omega)

end

/-- A new pool is put on the list without what is taken off its end. -/
theorem mapPool_truncated_iff (hfalse : s.ga.truncated = false)
    (heq : s.mapPool size = some (ptr, s')) :
    s'.ga.truncated = false ↔ poolFor size - size < sizeLimit := by
  obtain ⟨n, hpool, -, -, -, ⟨-, rfl⟩ | ⟨rfl, rfl⟩⟩ := mapPool_cases heq
  · rw [hpool, Bool.eq_false_iff, ne_eq, truncated_pushFree, not_or, Nat.not_le]
    exact and_iff_right (Bool.eq_false_iff.mp hfalse)
  · have hpos : 0 < sizeLimit := by decide
    exact iff_of_true hfalse (by omega)

/-- `alloc` truncates no size exactly if a free region is large enough or the remainder of the new
pool fits. -/
theorem alloc_truncated_iff (h : Regions s live ps chain) (hfalse : s.ga.truncated = false)
    (heq : s.alloc size = some (ptr, s')) :
    s'.ga.truncated = false ↔
      (∃ m ∈ s.freeRegions, size ≤ m.size) ∨ poolFor size - size < sizeLimit := by
  have hsearch : s.searchFree size (s.allocatedBlocks + 1) s.ga.freeList =
      some ((chain.find? fun a => decide (size ≤ s.size a)).getD 0) :=
    searchFree_eq h.isList (Nat.lt_succ_of_le h.length_le)
  rw [GlobalState.alloc, GlobalState.allocFrom] at heq
  obtain ⟨a, ha, heq⟩ := Option.bind_eq_some_iff.mp heq
  obtain rfl := Option.some.inj (hsearch.symm.trans ha)
  -- without a large enough region a pool is mapped, and only its rest can be too large for the
  -- field
  cases hfind : chain.find? fun a => decide (size ≤ s.size a) with
  | none =>
    rw [hfind, Option.getD_none, if_neg (by simp)] at heq
    have hnone : ¬ ∃ m ∈ s.freeRegions, size ≤ m.size := by
      rw [h.freeRegions_eq]
      simpa using hfind
    rw [mapPool_truncated_iff hfalse heq, or_iff_right hnone]
  | some a =>
    have hmem := List.mem_of_find?_eq_some hfind
    have hle : size ≤ s.size a := by simpa using List.find?_some hfind
    rw [hfind, Option.getD_some, if_pos (h.isList.ne_zero hmem)] at heq
    have hkeep := h.takeFrom_truncated size hmem
    rw [Option.some.inj heq, hfalse] at hkeep
    refine iff_of_true hkeep (.inl ⟨⟨a, s.size a⟩, ?_, hle⟩)
    rw [h.freeRegions_eq]
    exact List.mem_map_of_mem hmem

end Regions

end Regions

/-! ## Runs -/

section Runs

variable {s s' : GlobalRun} {a : GlobalAction} {acts : List GlobalAction}

/-- Once a size was truncated, bytes stay lost. -/
theorem globalStep_truncated (hstep : globalStep s a = some s') (htrue : s.gs.ga.truncated = true) :
    s'.gs.ga.truncated = true := by
  cases a with
  | alloc size =>
    obtain ⟨-, hstep⟩ := Option.ite_none_right_eq_some.mp hstep
    obtain ⟨⟨ptr, gs⟩, halloc, hstep⟩ := Option.bind_eq_some_iff.mp hstep
    obtain ⟨-, hstep⟩ := Option.ite_none_right_eq_some.mp hstep
    cases hstep
    exact truncated_alloc halloc htrue
  | release m =>
    obtain ⟨-, hstep⟩ := Option.ite_none_right_eq_some.mp hstep
    obtain ⟨gs, hrelease, rfl⟩ := Option.map_eq_some_iff.mp hstep
    exact truncated_tryMergingRegions hrelease ((truncated_pushFree _ _ _).mpr (.inl htrue))
  | write a hdr prev next =>
    obtain ⟨-, hstep⟩ := Option.ite_none_right_eq_some.mp hstep
    cases hstep
    exact htrue

/-- One call truncates no size exactly if the sizes that it finds fit. -/
theorem globalStep_fits {ps : List Piece} {chain : List ℕ} (h : Regions s.gs s.live ps chain)
    (hfalse : s.gs.ga.truncated = false) (hstep : globalStep s a = some s') :
    s'.gs.ga.truncated = false ↔ s.Fits a := by
  cases a with
  | alloc size =>
    obtain ⟨-, hstep⟩ := Option.ite_none_right_eq_some.mp hstep
    obtain ⟨⟨ptr, gs⟩, halloc, hstep⟩ := Option.bind_eq_some_iff.mp hstep
    obtain ⟨-, hstep⟩ := Option.ite_none_right_eq_some.mp hstep
    cases hstep
    exact h.alloc_truncated_iff hfalse halloc
  | release m =>
    obtain ⟨hm, hstep⟩ := Option.ite_none_right_eq_some.mp hstep
    obtain ⟨gs, hrelease, rfl⟩ := Option.map_eq_some_iff.mp hstep
    exact h.release_truncated_iff hfalse hm hrelease
  | write a hdr prev next =>
    obtain ⟨-, hstep⟩ := Option.ite_none_right_eq_some.mp hstep
    cases hstep
    exact iff_of_true hfalse trivial

/-- A run truncates no size exactly if the sizes that its calls find fit. -/
theorem globalRun_fits (h : ∃ ps chain, Regions s.gs s.live ps chain)
    (hfalse : s.gs.ga.truncated = false) (hrun : run globalStep s acts = some s') :
    s'.gs.ga.truncated = false ↔ Guarded globalStep GlobalRun.Fits s acts := by
  induction acts generalizing s with
  | nil =>
    cases hrun
    exact iff_of_true hfalse trivial
  | cons a acts ih =>
    obtain ⟨t, hstep, hrest⟩ := run_cons.mp hrun
    obtain ⟨ps, chain, hregions⟩ := h
    have hfits := globalStep_fits hregions hfalse hstep
    cases htrunc : t.gs.ga.truncated with
    | false =>
      have hok : s.Fits a := hfits.mp htrunc
      rw [ih (globalStep_regions ⟨ps, chain, hregions⟩ hstep) htrunc hrest]
      exact ⟨fun hg => ⟨hok, fun u hu => Option.some.inj (hstep.symm.trans hu) ▸ hg⟩,
        fun hg => hg.2 t hstep⟩
    | true =>
      -- the call at hand does not fit, and what it lost stays lost
      have hnot : ¬ s.Fits a := fun hok => by
        rw [hfits.mpr hok] at htrunc
        cases htrunc
      have hlast : s'.gs.ga.truncated = true :=
        run_invariant (I := fun s => s.gs.ga.truncated = true)
          (fun _ _ _ hs hstep => globalStep_truncated hstep hs) htrunc hrest
      exact iff_of_false (by simp [hlast]) fun hg => hnot hg.1

end Runs

/-- **In every state of every run the free regions and the regions handed out are disjoint and cover
the mapped memory if and only if every call of the run found sizes that fit into the field.** -/
theorem free_and_live_cover_iff {mem : HeapMemory} {acts : List GlobalAction} {s : GlobalRun}
    (hrun : run globalStep ⟨.new mem, []⟩ acts = some s) :
    Covers (s.gs.freeRegions ++ s.live) baseAddress (baseAddress + s.gs.totalMapped) ↔
      Guarded globalStep GlobalRun.Fits ⟨.new mem, []⟩ acts := by
  obtain ⟨ps, chain, h⟩ := run_invariant (I := fun s => ∃ ps chain, Regions s.gs s.live ps chain)
    (fun _ _ _ hI hstep => globalStep_regions hI hstep) (Regions.new mem) hrun
  exact h.covers_iff.trans (globalRun_fits (Regions.new mem) rfl hrun)

/-- A sufficient condition that can be evaluated: the released region and all free regions lie
within less than 2^29 bytes. -/
def GlobalRun.fitsBelow (lo hi : ℕ) (s : GlobalRun) : GlobalAction → Bool
  | .alloc size =>
    s.gs.freeRegions.any (fun m => size ≤ m.size) || decide (poolFor size - size < sizeLimit)
  | .release m => decide (hi - lo < sizeLimit) &&
      (m :: s.gs.freeRegions).all fun r => decide (lo ≤ r.ptr ∧ r.ptr + r.size ≤ hi)
  | .write _ _ _ _ => true

/-- The check with fixed bounds, which can be evaluated, implies the condition on all intervals of
free bytes. -/
theorem GlobalRun.fits_of_fitsBelow {s : GlobalRun} {a : GlobalAction} {lo hi : ℕ}
    (h : s.fitsBelow lo hi a = true) : s.Fits a := by
  cases a with
  | alloc size => simpa [GlobalRun.fitsBelow, GlobalRun.Fits] using h
  | release m =>
    simp only [GlobalRun.fitsBelow, Bool.and_eq_true, decide_eq_true_eq, List.all_eq_true] at h
    obtain ⟨hlt, hall⟩ := h
    have hbyte : ∀ x, s.gs.FreeByte x ∨ m.Has x → lo ≤ x ∧ x < hi := by
      rintro x (⟨r, hr, hx⟩ | hx)
      · have := hall r (List.mem_cons_of_mem _ hr)
        omega
      · have := hall m List.mem_cons_self
        simp only [MemoryRegion.Has] at hx
        omega
    exact fun lo' hi' _ _ hbytes => shortRuns_of_bounds lo hi hbyte hlt lo' hi' hbytes
  | write => trivial

/-- Two regions are taken, the second one from a new pool of 512 MB. The first one is given back and
joined with the rest of the first pool and the rest of the second. -/
def returnedActions : List GlobalAction :=
  [.alloc 0x200000, .alloc 0x18000000, .release ⟨0x1000fe00000, 0x200000⟩]

/-- A run that gives the first of two regions back. It is merged with the rest of its pool, and the
other region, which needed a new pool, stays handed out. -/
theorem free_and_live_cover_iff_returned :
    ∃ s, run globalStep ⟨.new .blank, []⟩ returnedActions = some s ∧
      s.gs.freeRegions ++ s.live = [⟨0x10000000000, 0x18000000⟩, ⟨0x10018000000, 0x18000000⟩] ∧
      Covers (s.gs.freeRegions ++ s.live) baseAddress (baseAddress + s.gs.totalMapped) := by
  have hcheck : (run globalStep ⟨.new .blank, []⟩ returnedActions).any (fun s => decide
      (s.gs.freeRegions ++ s.live = [⟨0x10000000000, 0x18000000⟩, ⟨0x10018000000, 0x18000000⟩])) =
      true := by decide +kernel
  obtain ⟨s, hrun, hregions⟩ := run_of_any hcheck
  have hguard : checkGuard globalStep (GlobalRun.fitsBelow 0x10000000000 0x10018000000)
      ⟨.new .blank, []⟩ returnedActions = true := by decide +kernel
  exact ⟨s, hrun, of_decide_eq_true hregions, (free_and_live_cover_iff hrun).mpr
    ((guarded_of_checkGuard hguard).imp fun _ _ hok => GlobalRun.fits_of_fitsBelow hok)⟩

end Pronto
