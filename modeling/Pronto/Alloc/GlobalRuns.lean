import Mathlib.Algebra.Order.BigOperators.Group.List
import Pronto.Alloc.Regions

/-!
# Runs of the global allocator

`alloc` and `release` keep the mapped memory a sequence of free regions, regions handed out and lost
bytes (`Regions.alloc`, `Regions.release`). `Regions.covers_iff`: the regions on the free list and the
regions handed out are disjoint and cover the mapped memory if and only if no size was ever stored
that does not fit into its field of 29 bits; `Pronto.Alloc.Coverage` says which calls store such a
size. `large_pool_loses_bytes` is a single allocation that does.
-/

namespace Pronto

open Linked Tiling Runs

section Loops

variable {s : GlobalState} {b head size fuel r a : ℕ} {xs : List ℕ}

/-- The search ends at the first region that is large enough, or at the end of the list. -/
theorem searchFree_eq (h : IsList s.mem.links b head xs) (hfuel : xs.length < fuel) :
    s.searchFree size fuel head = some ((xs.find? fun a => decide (size ≤ s.size a)).getD 0) := by
  induction xs generalizing b head fuel with
  | nil =>
    obtain rfl : head = 0 := h
    obtain ⟨fuel, rfl⟩ : ∃ n, fuel = n + 1 := ⟨fuel - 1, by simp at hfuel; omega⟩
    simp [GlobalState.searchFree]
  | cons x xs ih =>
    obtain ⟨rfl, hx, -, hrest⟩ := h
    obtain ⟨fuel, rfl⟩ : ∃ n, fuel = n + 1 := ⟨fuel - 1, by simp at hfuel; omega⟩
    rw [List.length_cons] at hfuel
    rw [GlobalState.searchFree, if_neg hx, List.find?_cons]
    by_cases hlt : s.size head < size
    · rw [if_pos hlt, ih hrest (by omega), decide_eq_false (by omega)]
    · rw [if_neg hlt, decide_eq_true (by omega)]
      rfl

theorem searchFree_spec (h : IsList s.mem.links b head xs) (hfuel : xs.length < fuel) :
    ∃ a, s.searchFree size fuel head = some a ∧ (a ≠ 0 → a ∈ xs) := by
  refine ⟨_, searchFree_eq h hfuel, fun hne => ?_⟩
  cases hfind : xs.find? fun a => decide (size ≤ s.size a) with
  | none => simp [hfind] at hne
  | some a => exact List.mem_of_find?_eq_some hfind

theorem searchFree_size (h : s.searchFree size fuel head = some a) (ha : a ≠ 0) :
    size ≤ s.size a := by
  induction fuel generalizing head with
  | zero => cases h
  | succ fuel ih =>
    rw [GlobalState.searchFree] at h
    split at h
    · cases h
      exact absurd rfl ha
    · split at h
      · exact ih h
      · cases h
        omega

/-- The scan ends at a neighbour of `r`, or at the end of the list when there is none. -/
theorem findNeighbour_spec (h : IsList s.mem.links b head xs) :
    ∃ c, (∀ fuel, xs.length < fuel → s.findNeighbour r fuel head = some c) ∧
      (c ≠ 0 → c ∈ xs ∧ c ≠ r ∧ (c = r + s.size r ∨ r = c + s.size c)) ∧
      (c = 0 → ∀ x ∈ xs, x ≠ r → x ≠ r + s.size r ∧ r ≠ x + s.size x) := by
  induction xs generalizing b head with
  | nil =>
    obtain rfl : head = 0 := h
    refine ⟨0, fun fuel hfuel => ?_, by simp, by simp⟩
    obtain ⟨fuel, rfl⟩ := Nat.exists_eq_succ_of_ne_zero hfuel.ne'
    simp [GlobalState.findNeighbour]
  | cons x xs ih =>
    obtain ⟨rfl, hx, -, hrest⟩ := h
    obtain ⟨c, hc, hspec, hnone⟩ := ih hrest
    -- what the scan finds when it passes over the first node
    have hskip : (head = r ∨ head ≠ r + s.size r ∧ r ≠ head + s.size head) → ∀ fuel,
        xs.length < fuel → s.findNeighbour r (fuel + 1) head = some c := fun hpass fuel hfuel => by
      rw [GlobalState.findNeighbour, if_neg hx, ← hc fuel hfuel]
      rcases hpass with hr | hapart
      · rw [if_pos hr]
      · rw [if_pos hapart, ite_self]
    by_cases hpass : head = r ∨ head ≠ r + s.size r ∧ r ≠ head + s.size head
    · refine ⟨c, fun fuel hfuel => ?_, fun h0 => ⟨List.mem_cons_of_mem _ (hspec h0).1, (hspec h0).2⟩,
        fun h0 y hy hne => ?_⟩
      · obtain ⟨fuel, rfl⟩ := Nat.exists_eq_succ_of_ne_zero (Nat.ne_zero_of_lt hfuel)
        exact hskip hpass fuel (Nat.lt_of_succ_lt_succ hfuel)
      · rcases List.mem_cons.mp hy with rfl | hy
        · exact hpass.resolve_left hne
        · exact hnone h0 y hy hne
    · push Not at hpass
      refine ⟨head, fun fuel hfuel => ?_, fun _ => ⟨List.mem_cons_self, hpass.1, ?_⟩,
        fun h0 => absurd h0 hx⟩
      · obtain ⟨fuel, rfl⟩ := Nat.exists_eq_succ_of_ne_zero (Nat.ne_zero_of_lt hfuel)
        rw [GlobalState.findNeighbour, if_neg hx, if_neg hpass.1, if_neg (by tauto)]
      · by_cases hnext : head = r + s.size r
        · exact .inl hnext
        · exact .inr (hpass.2 hnext)

theorem poolSize_ok {allocSize n : ℕ} (hdvd : blockSize ∣ allocSize)
    (h : GlobalState.poolSize size fuel allocSize = some n) : size ≤ n ∧ blockSize ∣ n := by
  induction fuel generalizing allocSize with
  | zero => cases h
  | succ fuel ih =>
    rw [GlobalState.poolSize] at h
    split at h
    · exact ih ((Nat.dvd_mod_iff (by decide)).mpr (Dvd.dvd.mul_right hdvd 2)) h
    · cases h
      exact ⟨by omega, hdvd⟩

/-- Doubling the size of a pool of at least 2^28 bytes reaches every size up to `MaxMemorySize`. -/
theorem poolSize_isSome {k : ℕ} (hsize : size ≤ maxMemorySize) (hk : 40 < 28 + k + fuel)
    (hk' : k ≤ 12) : ∃ n, GlobalState.poolSize size fuel (2 ^ (28 + k)) = some n := by
  induction fuel generalizing k with
  | zero => omega
  | succ fuel ih =>
    rw [GlobalState.poolSize]
    split
    · rename_i hlt
      have hk12 : k < 12 := by
        by_contra hge
        obtain rfl : k = 12 := by omega
        exact absurd (lt_of_lt_of_le hlt hsize) (by decide)
      have hdouble : 2 ^ (28 + k) * 2 % 2 ^ 64 = 2 ^ (28 + (k + 1)) := by
        rw [← pow_succ, Nat.mod_eq_of_lt (Nat.pow_lt_pow_right (by decide) (by omega))]
        rfl
      rw [hdouble]
      exact ih (by omega) (by omega)
    · exact ⟨_, rfl⟩

end Loops

namespace Regions

variable {s s' : GlobalState} {live : List MemoryRegion} {ps : List Piece} {chain : List ℕ}
  {size ptr : ℕ}

/-! ## `alloc` -/

/-- `mapPool` adds a pool behind the mapped memory, hands out its end and files what is left of
it. -/
theorem mapPool (h : Regions s live ps chain) (hpos : 0 < size) (hdvd : blockSize ∣ size)
    (heq : s.mapPool size = some (ptr, s')) :
    ∃ ps' chain', Regions s' (⟨ptr, size⟩ :: live) ps' chain' := by
  obtain ⟨last, hlast, heq⟩ := Option.bind_eq_some_iff.mp heq
  obtain ⟨n, hn, heq⟩ := Option.bind_eq_some_iff.mp heq
  have hlimit : last.ptr + last.size = s.limit := by simp only [GlobalState.limit, hlast]
  obtain ⟨hle, hblocks⟩ := poolSize_ok (by decide) hn
  have hmap := h.map (n := n) (by omega) hblocks
  dsimp only at heq
  rw [hlimit] at heq
  split at heq
  · rename_i hrest
    cases heq
    obtain ⟨ps₁, hcut⟩ := cut (a := s.limit) (m := n - size) (n := size)
      (by rwa [Nat.sub_add_cancel hle]) ⟨hrest, Nat.dvd_sub hblocks hdvd⟩ ⟨hpos, hdvd⟩
    obtain ⟨ps₂, hpush⟩ := hcut.pushFree (m := ⟨s.limit, n - size⟩) (by simp)
    rw [List.erase_cons_head] at hpush
    rw [Nat.add_sub_assoc hle]
    exact ⟨ps₂, _, hpush⟩
  · rename_i hrest
    cases heq
    obtain rfl : n = size := by omega
    rw [Nat.add_sub_cancel]
    exact ⟨_, chain, hmap⟩

/-- The body of `alloc`, when its search ends at a node of the list. -/
theorem allocFrom (h : Regions s live ps chain) (hpos : 0 < size) (hdvd : blockSize ∣ size)
    {fuel head : ℕ}
    (hfound : ∀ a, s.searchFree size fuel head = some a → a ≠ 0 → a ∈ chain)
    (heq : s.allocFrom fuel head size = some (ptr, s')) :
    ∃ ps' chain', Regions s' (⟨ptr, size⟩ :: live) ps' chain' := by
  obtain ⟨a, ha, heq⟩ := Option.bind_eq_some_iff.mp heq
  split at heq
  · rename_i hne
    have htake := h.takeFrom (hfound a ha hne) (searchFree_size ha hne) hpos hdvd
    rw [Option.some.inj heq] at htake
    exact htake
  · exact h.mapPool hpos hdvd heq

theorem alloc (h : Regions s live ps chain) (hpos : 0 < size) (hdvd : blockSize ∣ size)
    (heq : s.alloc size = some (ptr, s')) :
    ∃ ps' chain', Regions s' (⟨ptr, size⟩ :: live) ps' chain' := by
  obtain ⟨a, ha, hmem⟩ := searchFree_spec h.isList (Nat.lt_succ_of_le h.length_le)
  refine h.allocFrom hpos hdvd (fun a' ha' hne => ?_) heq
  rw [ha] at ha'
  cases ha'
  exact hmem hne

/-- `alloc` returns. -/
theorem alloc_isSome (h : Regions s live ps chain) (hsize : size ≤ maxMemorySize) :
    (s.alloc size).isSome = true := by
  obtain ⟨a, ha⟩ : ∃ a, s.searchFree size (s.allocatedBlocks + 1) s.ga.freeList = some a :=
    (searchFree_spec h.isList (Nat.lt_succ_of_le h.length_le)).imp fun _ => And.left
  obtain ⟨n, hn⟩ : ∃ n, GlobalState.poolSize size 64 minPoolSize = some n :=
    poolSize_isSome (k := 0) hsize (by decide) (by decide)
  have hlast := List.getLast?_eq_some_getLast h.mapped
  simp only [GlobalState.alloc, GlobalState.allocFrom, bind, ha, Option.bind_some]
  split
  · rfl
  · simp only [GlobalState.mapPool, bind, hlast, hn, Option.bind_some]
    split <;> rfl

/-! ## `release` -/

/-- **Merging keeps the tiling**, and it ends: each round takes a node off the list. -/
theorem tryMergingRegions (h : Regions s live ps chain) {r fuel : ℕ} (hr : r ∈ chain)
    (hfuel : chain.length ≤ fuel) :
    ∃ s' ps' chain', GlobalState.tryMergingRegions fuel s r = some s' ∧
      Regions s' live ps' chain' := by
  induction fuel generalizing s ps chain r with
  | zero =>
    rw [List.length_eq_zero_iff.mp (Nat.le_zero.mp hfuel)] at hr
    cases hr
  | succ fuel ih =>
    obtain ⟨c, hc, hspec, -⟩ := findNeighbour_spec (r := r) h.isList
    have hc := hc (s.allocatedBlocks + 1) (Nat.lt_succ_of_le h.length_le)
    simp only [GlobalState.tryMergingRegions, hc, bind, Option.bind_some]
    by_cases h0 : c = 0
    · rw [if_pos h0]
      exact ⟨s, ps, chain, rfl, h⟩
    · obtain ⟨hmem, hne, hnext⟩ := hspec h0
      rw [if_neg h0]
      -- the upper of the two regions leaves the list
      have hlen : ∀ x ∈ chain, (chain.erase x).length ≤ fuel := fun x hx => by
        rw [List.length_erase_of_mem hx]
        omega
      split
      · rename_i hlt
        obtain ⟨ps', h'⟩ := h.merge hr hmem hne.symm (by omega)
        exact ih h' ((List.mem_erase_of_ne hne.symm).mpr hr) (hlen c hmem)
      · obtain ⟨ps', h'⟩ := h.merge hmem hr hne (by omega)
        exact ih h' ((List.mem_erase_of_ne hne).mpr hmem) (hlen r hr)

theorem release (h : Regions s live ps chain) {m : MemoryRegion} (hm : m ∈ live) :
    ∃ s' ps' chain', s.release m.ptr m.size = some s' ∧ Regions s' (live.erase m) ps' chain' := by
  obtain ⟨ps₁, h₁⟩ := h.pushFree hm
  exact h₁.tryMergingRegions (by simp) (le_trans h₁.length_le (Nat.le_succ _))

/-! ## The regions that the allocator knows -/

/-- The walk reports the nodes in the order of the list. -/
theorem walkFree_eq {b head fuel : ℕ} {xs : List ℕ} (h : IsList s.mem.links b head xs)
    (hfuel : xs.length < fuel) : s.walkFree fuel head = xs.map fun a => ⟨a, s.size a⟩ := by
  induction xs generalizing b head fuel with
  | nil =>
    obtain rfl : head = 0 := h
    cases fuel <;> simp [GlobalState.walkFree]
  | cons x xs ih =>
    obtain ⟨rfl, hx, -, hrest⟩ := h
    obtain ⟨fuel, rfl⟩ : ∃ n, fuel = n + 1 := ⟨fuel - 1, by simp at hfuel; omega⟩
    rw [List.length_cons] at hfuel
    rw [GlobalState.walkFree, if_neg hx, ih hrest (show xs.length < fuel by omega), List.map_cons]

theorem freeRegions_eq (h : Regions s live ps chain) :
    s.freeRegions = chain.map fun a => ⟨a, s.size a⟩ :=
  walkFree_eq h.isList (Nat.lt_succ_of_le h.length_le)

/-- The pools are one interval from the base address on. -/
theorem totalMapped_eq (h : Regions s live ps chain) : baseAddress + s.totalMapped = s.limit := by
  have hsum : ∀ (ms : List MemoryRegion) (a b : ℕ),
      Tiles MemoryRegion.ptr MemoryRegion.size a ms b →
      a + (ms.map MemoryRegion.size).sum = b := by
    intro ms
    induction ms with
    | nil => exact fun a b hab => hab
    | cons m ms ih =>
      intro a b hab
      have := ih _ _ hab.2
      rw [List.map_cons, List.sum_cons]
      omega
  exact hsum _ _ _ h.pools

/-- A region that the allocator knows is a piece, or the part of a piece that its node stores. -/
theorem mem_regions (h : Regions s live ps chain) {m : MemoryRegion}
    (hm : m ∈ s.freeRegions ++ live) :
    ∃ p ∈ ps, p.addr = m.ptr ∧ m.size ≤ p.size ∧
      (p.kind = .free m.size ∨ (p.kind = .live ∧ m.size = p.size)) := by
  rw [h.freeRegions_eq] at hm
  rcases List.mem_append.mp hm with hm | hm
  · obtain ⟨a, ha, rfl⟩ := List.mem_map.mp hm
    obtain ⟨p, hp, hpa, v, hv⟩ := h.mem_chain.mp ha
    obtain ⟨hsize, hle, -, -⟩ := (h.ok p hp).stored v hv
    rw [hpa] at hsize
    refine ⟨p, hp, hpa, ?_, Or.inl ?_⟩
    · dsimp only
      omega
    · rw [hv, ← hsize]
  · obtain ⟨p, hp, rfl, hkind⟩ := mem_liveRegions.mp (h.live.mem_iff.mp hm)
    exact ⟨p, hp, rfl, le_rfl, Or.inr ⟨hkind, rfl⟩⟩

end Regions

/-- The regions are disjoint and together are the bytes from `a` to `b`. -/
structure Covers (regions : List MemoryRegion) (a b : ℕ) : Prop where
  disjoint : regions.Pairwise fun m n => m.ptr + m.size ≤ n.ptr ∨ n.ptr + n.size ≤ m.ptr
  cover : ∀ x, (∃ m ∈ regions, m.ptr ≤ x ∧ x < m.ptr + m.size) ↔ a ≤ x ∧ x < b

theorem Covers.perm {xs ys : List MemoryRegion} {a b : ℕ} (h : Covers xs a b) (hperm : xs.Perm ys) :
    Covers ys a b where
  disjoint := (hperm.pairwise_iff fun hmn => hmn.symm).mp h.disjoint
  cover x := by simpa only [hperm.mem_iff] using h.cover x

/-- Consecutive pieces cover the interval they tile. -/
theorem covers_of_tiles {ps : List Piece} {a b : ℕ} (h : Tiles Piece.addr Piece.size a ps b) :
    Covers (ps.map Piece.region) a b where
  disjoint := List.pairwise_map.mpr (h.pairwise.imp fun hle => Or.inl hle)
  cover x := by
    constructor
    · rintro ⟨m, hm, hx⟩
      obtain ⟨p, hp, rfl⟩ := List.mem_map.mp hm
      have := h.mem_bounds hp
      simp only [Piece.region] at hx
      omega
    · rintro ⟨hlo, hhi⟩
      obtain ⟨p, hp, hx⟩ := h.exists_mem hlo hhi
      exact ⟨p.region, List.mem_map_of_mem hp, hx⟩

namespace Regions

variable {s : GlobalState} {live : List MemoryRegion} {ps : List Piece} {chain : List ℕ}

/-- As long as nothing is missing, the regions are the pieces. -/
theorem regions_perm (h : Regions s live ps chain) (hmissing : ∀ p ∈ ps, p.missing = 0) :
    (s.freeRegions ++ live).Perm (ps.map Piece.region) := by
  have hfree : s.freeRegions.Perm ((ps.filter Piece.isFree).map Piece.region) := by
    rw [h.freeRegions_eq]
    refine (h.nodes.map _).trans (List.Perm.of_eq ?_)
    rw [freeNodes, List.map_map]
    refine List.map_congr_left fun p hp => ?_
    obtain ⟨hp, hisFree⟩ := List.mem_filter.mp hp
    obtain ⟨addr, size, kind⟩ := p
    cases kind with
    | free v =>
      obtain ⟨hsize, hle, -, -⟩ := (h.ok _ hp).stored v rfl
      -- nothing is missing from the region, so the node stores all of its size
      have hzero : size - v = 0 := hmissing _ hp
      simp only [Function.comp_apply, Piece.region, MemoryRegion.mk.injEq, true_and]
      dsimp only at hsize hle
      omega
    | live => cases hisFree
    | lost => cases hisFree
  have hlive : live.Perm ((ps.filter fun p => !p.isFree).map Piece.region) := by
    refine h.live.trans (List.Perm.of_eq ?_)
    rw [liveRegions]
    refine congrArg (List.map Piece.region) (List.filter_congr fun p hp => ?_)
    obtain ⟨addr, size, kind⟩ := p
    cases kind with
    | free v => rfl
    | live => rfl
    | lost =>
      -- a lost piece would be missing
      have hzero : size = 0 := hmissing _ hp
      have hpos : 0 < size := h.pos _ hp
      omega
  refine (hfree.append hlive).trans ?_
  rw [← List.map_append]
  exact (List.filter_append_perm Piece.isFree ps).map _

/-- A byte that is missing is in no region. -/
theorem missing_byte (h : Regions s live ps chain) {p : Piece} (hp : p ∈ ps)
    (hmissing : 0 < p.missing) :
    ∃ x, p.addr ≤ x ∧ x < p.addr + p.size ∧
      ¬ ∃ m ∈ s.freeRegions ++ live, m.ptr ≤ x ∧ x < m.ptr + m.size := by
  -- the last byte of the piece is not in the region of its node
  have hpos := h.pos p hp
  refine ⟨p.addr + p.size - 1, by omega, by omega, ?_⟩
  rintro ⟨m, hm, hlo, hhi⟩
  obtain ⟨q, hq, hqa, hle, hkind⟩ := h.mem_regions hm
  by_cases heq : q.addr = p.addr
  · obtain rfl : q = p :=
      List.inj_on_of_nodup_map (h.tiles.nodup_starts h.pos) hq hp heq
    obtain ⟨addr, size, kind⟩ := q
    dsimp only at hqa hle hkind hlo hhi
    rcases hkind with rfl | ⟨rfl, hsize⟩
    · have : 0 < size - m.size := hmissing
      omega
    · exact absurd hmissing (lt_irrefl 0)
  · have := h.tiles.disjoint hq hp heq
    omega

/-- **The known regions cover the mapped memory if and only if no size was truncated.** -/
theorem covers_iff (h : Regions s live ps chain) :
    Covers (s.freeRegions ++ live) baseAddress (baseAddress + s.totalMapped) ↔
      s.ga.truncated = false := by
  rw [h.totalMapped_eq, Bool.eq_false_iff, ne_eq, h.truncated, Nat.not_lt, Nat.le_zero, missingBytes,
    List.sum_eq_zero_iff]
  simp only [List.mem_map, forall_exists_index, and_imp, forall_apply_eq_imp_iff₂]
  constructor
  · intro hcovers p hp
    by_contra hne
    obtain ⟨x, hlo, hhi, hnone⟩ := h.missing_byte hp (Nat.pos_of_ne_zero hne)
    have := h.tiles.mem_bounds hp
    exact hnone ((hcovers.cover x).mpr ⟨by omega, by omega⟩)
  · exact fun hmissing => (covers_of_tiles h.tiles).perm (h.regions_perm hmissing).symm

end Regions

/-! ## Runs -/

/-- The allocator and the regions that were handed out and not released. -/
structure GlobalRun where
  gs : GlobalState
  live : List MemoryRegion

/-- The calls, and a write of an owner into its region: whatever is stored there reads as a header
and two links. -/
inductive GlobalAction
  | alloc (size : ℕ)
  | release (m : MemoryRegion)
  | write (a : ℕ) (hdr : ChunkHeader) (prev next : ℕ)

/-- The memory at `a` is overwritten. -/
def GlobalState.overwrite (s : GlobalState) (a : ℕ) (hdr : ChunkHeader) (prev next : ℕ) :
    GlobalState :=
  { s with mem := { s.mem with
      hdr := Function.update s.mem.hdr a hdr
      links := (s.mem.links.setPrev a prev).setNext a next } }

/-- Is `a` in one of the regions handed out? -/
def GlobalRun.owned (s : GlobalRun) (a : ℕ) : Bool :=
  s.live.any fun m => decide (m.ptr ≤ a ∧ a < m.ptr + m.size)

/-- One step; `none` when it is not enabled. Sizes are positive multiples of the block size, and no
more than `MaxMemorySize` is mapped. -/
def globalStep (s : GlobalRun) : GlobalAction → Option GlobalRun
  | .alloc size =>
    if 0 < size ∧ size % blockSize = 0 then
      (s.gs.alloc size).bind fun (ptr, gs) =>
        if gs.totalMapped ≤ maxMemorySize then some ⟨gs, ⟨ptr, size⟩ :: s.live⟩ else none
    else none
  | .release m =>
    if m ∈ s.live then (s.gs.release m.ptr m.size).map fun gs => ⟨gs, s.live.erase m⟩ else none
  | .write a hdr prev next =>
    if s.owned a then some { s with gs := s.gs.overwrite a hdr prev next } else none

/-- The allocator starts with all of its first pool on the free list. -/
theorem Regions.new (mem : HeapMemory) :
    ∃ ps chain, Regions (GlobalState.new mem) [] ps chain := by
  have hempty : Regions ⟨mem, ⟨0, [⟨baseAddress, minPoolSize⟩], false⟩⟩ [⟨baseAddress, minPoolSize⟩]
      [⟨baseAddress, minPoolSize, .live⟩] [] :=
    { tiles := ⟨rfl, rfl⟩
      ok := by simpa using ok_live (by decide) (by decide)
      isList := rfl
      nodes := List.Perm.refl _
      live := List.Perm.refl _
      pools := ⟨rfl, rfl⟩
      mapped := by simp
      truncated := by simp }
  obtain ⟨ps, h⟩ := hempty.pushFree (m := ⟨baseAddress, minPoolSize⟩) (by simp)
  rw [List.erase_cons_head] at h
  exact ⟨ps, _, h⟩

/-- What an owner writes does not concern the allocator. -/
theorem Regions.overwrite {s : GlobalState} {live : List MemoryRegion} {ps : List Piece}
    {chain : List ℕ} (h : Regions s live ps chain) {m : MemoryRegion} (hm : m ∈ live) {a : ℕ}
    (ha : m.ptr ≤ a ∧ a < m.ptr + m.size) (hdr : ChunkHeader) (prev next : ℕ) :
    Regions (s.overwrite a hdr prev next) live ps chain := by
  obtain ⟨q, hq, hqm, hkind⟩ := mem_liveRegions.mp (h.live.mem_iff.mp hm)
  have hne : ∀ p ∈ ps, ∀ v, p.kind = .free v → p.addr ≠ a := by
    rintro p hp v hv rfl
    have hpq : p.addr ≠ q.addr := fun heq => by
      rw [List.inj_on_of_nodup_map (h.tiles.nodup_starts h.pos) hp hq heq, hkind] at hv
      cases hv
    have hdisj := h.tiles.disjoint hp hq hpq
    have hpos := h.pos p hp
    rw [← hqm] at ha
    simp only [Piece.region] at ha
    omega
  have hchain : ∀ b ∈ chain, b ≠ a := fun b hb => by
    obtain ⟨p, hp, rfl, v, hv⟩ := h.mem_chain.mp hb
    exact hne p hp v hv
  exact
    { h with
      ok := fun p hp => ⟨(h.ok p hp).pos, (h.ok p hp).blocks, fun v hv => by
        have hsize : (s.overwrite a hdr prev next).size p.addr = s.size p.addr := by
          simp only [GlobalState.size, GlobalState.overwrite,
            Function.update_of_ne (hne p hp v hv)]
        rw [hsize]
        exact (h.ok p hp).stored v hv⟩
      isList := h.isList.congr fun b hb => by
        simp only [GlobalState.overwrite, Links.setPrev, Links.setNext,
          Function.update_of_ne (hchain b hb), and_self] }

/-- One step keeps the memory a sequence of pieces. -/
theorem globalStep_regions {s s' : GlobalRun} {a : GlobalAction}
    (h : ∃ ps chain, Regions s.gs s.live ps chain) (hstep : globalStep s a = some s') :
    ∃ ps chain, Regions s'.gs s'.live ps chain := by
  obtain ⟨ps, chain, h⟩ := h
  cases a with
  | alloc size =>
    obtain ⟨⟨hpos, hmod⟩, hstep⟩ := Option.ite_none_right_eq_some.mp hstep
    obtain ⟨⟨ptr, gs⟩, halloc, hstep⟩ := Option.bind_eq_some_iff.mp hstep
    obtain ⟨-, hstep⟩ := Option.ite_none_right_eq_some.mp hstep
    cases hstep
    exact h.alloc hpos (Nat.dvd_of_mod_eq_zero hmod) halloc
  | release m =>
    obtain ⟨hm, hstep⟩ := Option.ite_none_right_eq_some.mp hstep
    obtain ⟨gs, hrelease, rfl⟩ := Option.map_eq_some_iff.mp hstep
    obtain ⟨gs', ps', chain', hrelease', h'⟩ := h.release hm
    rw [hrelease] at hrelease'
    cases hrelease'
    exact ⟨ps', chain', h'⟩
  | write a hdr prev next =>
    obtain ⟨howned, hstep⟩ := Option.ite_none_right_eq_some.mp hstep
    cases hstep
    obtain ⟨m, hm, ha⟩ := List.any_eq_true.mp howned
    exact ⟨ps, chain, h.overwrite hm (by simpa using ha) hdr prev next⟩

/-- An allocation of 1280 MB maps a pool of 2 GB, and the node of the remaining 768 MB stores
256 MB. -/
theorem large_pool_loses_bytes :
    ∃ s, run globalStep ⟨.new .blank, []⟩ [.alloc 0x50000000] = some s ∧
      s.gs.freeRegions ++ s.live =
        [⟨0x10010000000, 0x10000000⟩, ⟨0x10000000000, 0x10000000⟩, ⟨0x10040000000, 0x50000000⟩] ∧
      s.gs.totalMapped = 0x90000000 ∧
      ¬ Covers (s.gs.freeRegions ++ s.live) baseAddress (baseAddress + s.gs.totalMapped) := by
  have hcheck : (run globalStep ⟨.new .blank, []⟩ [.alloc 0x50000000]).any (fun s => decide
      (s.gs.freeRegions ++ s.live =
        [⟨0x10010000000, 0x10000000⟩, ⟨0x10000000000, 0x10000000⟩, ⟨0x10040000000, 0x50000000⟩] ∧
      s.gs.totalMapped = 0x90000000)) = true := by decide +kernel
  obtain ⟨s, hrun, hs⟩ := run_of_any hcheck
  obtain ⟨hregions, htotal⟩ := of_decide_eq_true hs
  refine ⟨s, hrun, hregions, htotal, fun hcovers => ?_⟩
  rw [hregions, htotal] at hcovers
  obtain ⟨m, hm, hx⟩ := (hcovers.cover 0x10020000000).mpr (by decide)
  simp only [List.mem_cons, List.not_mem_nil, or_false] at hm
  rcases hm with rfl | rfl | rfl <;> exact absurd hx (by decide)

end Pronto
