import Pronto.Alloc.Merge
import Pronto.Alloc.ObjectAlloc

/-!
# Chunks larger than a block

A chunk that is larger than a block is a region of the global allocator. `big_round_trip_iff` says
when allocating such a chunk and giving it back restores the allocator: when the size of the chunk
fits into the 29 bits of its header, and so does the run of free bytes that the chunk is taken from.

If the size does not fit, the header keeps the rest modulo 2^29, and `dealloc` either files the
chunk as a small one or returns too few blocks. If the run does not fit, merging the returned region
with its neighbours loses bytes.
-/

namespace Pronto

open Linked

/-! ## The global allocator -/

/-- The byte is part of a region on the free list. -/
def GlobalState.FreeByte (s : GlobalState) (x : ℕ) : Prop :=
  ∃ m ∈ s.freeRegions, m.ptr ≤ x ∧ x < m.ptr + m.size

/-- The pools end at a block boundary. -/
structure PoolsOk (s : GlobalState) : Prop where
  mapped : s.ga.mappedRegions ≠ []
  base : baseAddress ≤ s.limit
  aligned : s.limit % blockSize = 0

/-- A consistent list of nodes at block boundaries. -/
structure NodesOk (s : GlobalState) (chain : List ℕ) : Prop extends PoolsOk s where
  isList : IsList s.mem.links 0 s.ga.freeList chain
  nodup : chain.Nodup
  node : ∀ a ∈ chain, a % blockSize = 0 ∧ baseAddress ≤ a ∧ a < s.limit

/-- The free list consists of disjoint regions of whole blocks in the mapped memory. -/
structure GlobalOk (s : GlobalState) (chain : List ℕ) : Prop extends NodesOk s chain where
  pos : ∀ a ∈ chain, 0 < s.size a
  disjoint : ∀ a ∈ chain, ∀ b ∈ chain, a ≠ b → a + s.size a ≤ b ∨ b + s.size b ≤ a
  blocks : ∀ a ∈ chain, s.size a % blockSize = 0
  inside : ∀ a ∈ chain, a + s.size a ≤ s.limit
  field : ∀ a ∈ chain, s.size a < sizeLimit

section Nodes

variable {s s' : GlobalState} {chain : List ℕ} {a size ptr x : ℕ}

/-- There are no more block boundaries than blocks. -/
theorem length_le_of_nodes (hpools : PoolsOk s) (hnodup : chain.Nodup)
    (hnode : ∀ a ∈ chain, a % blockSize = 0 ∧ baseAddress ≤ a ∧ a < s.limit) :
    chain.length ≤ s.allocatedBlocks := by
  have hinj : (chain.map fun a => (a - baseAddress) / blockSize).Nodup := by
    refine List.Nodup.map_on (fun a ha b hb heq => ?_) hnodup
    have h₁ := hnode a ha
    have h₂ := hnode b hb
    simp only [baseAddress, blockSize] at *
    omega
  have hsub : (chain.map fun a => (a - baseAddress) / blockSize) ⊆ List.range s.allocatedBlocks := by
    intro i hi
    obtain ⟨a, ha, rfl⟩ := List.mem_map.mp hi
    have h₁ := hnode a ha
    have h₂ := hpools.aligned
    rw [List.mem_range, GlobalState.allocatedBlocks]
    simp only [baseAddress, blockSize] at *
    omega
  have hlen := (hinj.subperm hsub).length_le
  rwa [List.length_map, List.length_range] at hlen

theorem NodesOk.length_le (h : NodesOk s chain) : chain.length ≤ s.allocatedBlocks :=
  length_le_of_nodes h.toPoolsOk h.nodup h.node

/-- One more block boundary that is not on the list. -/
theorem NodesOk.length_lt (h : NodesOk s chain) (hnot : ptr ∉ chain) (halign : ptr % blockSize = 0)
    (hbase : baseAddress ≤ ptr) (hlt : ptr < s.limit) : chain.length < s.allocatedBlocks := by
  have hlen : (ptr :: chain).length ≤ s.allocatedBlocks :=
    length_le_of_nodes h.toPoolsOk (List.nodup_cons.mpr ⟨hnot, h.nodup⟩)
      (List.forall_mem_cons.mpr ⟨⟨halign, hbase, hlt⟩, h.node⟩)
  exact hlen

theorem NodesOk.freeRegions_eq (h : NodesOk s chain) :
    s.freeRegions = chain.map fun a => ⟨a, s.size a⟩ :=
  Regions.walkFree_eq h.isList (Nat.lt_succ_of_le h.length_le)

theorem NodesOk.freeByte_iff (h : NodesOk s chain) : s.FreeByte x ↔ s.InRegions chain x := by
  rw [GlobalState.FreeByte, h.freeRegions_eq]
  simp [GlobalState.InRegions]

theorem GlobalOk.toFreeRegions (h : GlobalOk s chain) : FreeRegions s chain :=
  ⟨h.isList, h.nodup, h.pos, h.disjoint⟩

end Nodes

/-! ## `alloc` -/

/-- The size of a new pool for a request. -/
def poolFor (size : ℕ) : ℕ := (GlobalState.poolSize size 64 minPoolSize).getD 0

/-- The region that `alloc` takes from: the first one that is large enough, or a new pool. -/
def GlobalState.source (s : GlobalState) (size : ℕ) : MemoryRegion :=
  (s.freeRegions.find? fun m => decide (size ≤ m.size)).getD ⟨s.limit, poolFor size⟩

/-- The byte belongs to the region. -/
def MemoryRegion.Has (m : MemoryRegion) (x : ℕ) : Prop := m.ptr ≤ x ∧ x < m.ptr + m.size

/-- `size` bytes are taken off the end of the region `m`, at `ptr`. What is left of `m` stays on the
list or goes there, unless its size does not fit into the field. -/
structure Taken (s : GlobalState) (chain : List ℕ) (m : MemoryRegion) (size ptr : ℕ) (s' : GlobalState)
    (chain' : List ℕ) : Prop where
  nodes : NodesOk s' chain'
  fresh : ptr ∉ chain'
  start : m.ptr ≤ s.limit
  last : ptr + size = m.ptr + m.size
  le : size ≤ m.size
  aligned : ptr % blockSize = 0
  base : baseAddress ≤ ptr
  inside : ptr + size ≤ s'.limit
  bytes : ∀ x, s'.InRegions chain' x → (s.InRegions chain x ∨ m.Has x) ∧ ¬ (ptr ≤ x ∧ x < ptr + size)
  pool : ∀ x, s.InRegions chain x ∨ m.Has x ↔ s.InRegions chain x ∨ s.limit ≤ x ∧ x < s'.limit
  bitmap : s'.mem.bitmap = s.mem.bitmap
  exact : m.size - size < sizeLimit → GlobalOk s' chain' ∧
    ∀ x, s.InRegions chain x ∨ m.Has x → ¬ (ptr ≤ x ∧ x < ptr + size) → s'.InRegions chain' x

section Alloc

variable {s s' : GlobalState} {chain : List ℕ} {a size ptr x : ℕ}

theorem limit_congr (h : s'.ga.mappedRegions = s.ga.mappedRegions) : s'.limit = s.limit := by
  simp only [GlobalState.limit, h]

/-- Taking a part of a region. -/
theorem GlobalOk.takePart (h : GlobalOk s chain) (ha : a ∈ chain) (hlt : size < s.size a)
    (hpos : 0 < size) (hblocks : size % blockSize = 0) :
    Taken s chain ⟨a, s.size a⟩ size (a + (s.size a - size)) (s.setSize a (s.size a - size)) chain := by
  have hnode := h.node a ha
  have hfield := h.field a ha
  have hinside := h.inside a ha
  have hdvd := h.blocks a ha
  have hself : (s.setSize a (s.size a - size)).size a = s.size a - size := by
    rw [GlobalState.size_setSize_self, Nat.mod_eq_of_lt (by omega)]
  have hother : ∀ b, b ≠ a → (s.setSize a (s.size a - size)).size b = s.size b := fun b hb =>
    GlobalState.size_setSize_of_ne s _ hb
  -- no region has grown, so the conditions on the others stay true
  have hle : ∀ b, (s.setSize a (s.size a - size)).size b ≤ s.size b := fun b => by
    by_cases hb : b = a
    · subst hb
      omega
    · rw [hother b hb]
  have hnodes : NodesOk (s.setSize a (s.size a - size)) chain :=
    ⟨⟨h.mapped, h.base, h.aligned⟩, h.isList, h.nodup, h.node⟩
  refine ⟨hnodes, fun hmem => ?_, hnode.2.2.le, by dsimp only; omega, hlt.le, ?_, by omega, ?_,
    fun x => ?_, fun x => ?_, rfl, fun _ => ⟨⟨hnodes, fun b hb => ?_, fun b hb c hc hne => ?_,
      fun b hb => ?_, fun b hb => ?_,
    fun b hb => (hle b).trans_lt (h.field b hb)⟩, fun x hx hout => ?_⟩⟩
  · -- a node inside the region that is cut would overlap it
    have := h.disjoint a ha _ hmem (by omega)
    have := h.pos _ hmem
    omega
  · simp only [blockSize] at *
    omega
  · show a + (s.size a - size) + size ≤ s.limit
    omega
  · rintro ⟨b, hb, hlo, hhi⟩
    have := hle b
    refine ⟨.inl ⟨b, hb, hlo, by omega⟩, fun hin => ?_⟩
    by_cases hba : b = a
    · subst hba
      omega
    · have := h.disjoint a ha b hb (Ne.symm hba)
      omega
  · have hnew : ¬ (s.limit ≤ x ∧ x < (s.setSize a (s.size a - size)).limit) := fun hin =>
      absurd (hin.1.trans_lt hin.2) (lt_irrefl _)
    simp only [hnew, or_false]
    exact ⟨fun hx => hx.elim id fun hx => ⟨a, ha, hx⟩, .inl⟩
  · by_cases hba : b = a
    · subst hba
      omega
    · rw [hother b hba]
      exact h.pos b hb
  · have h₁ := hle b
    have h₂ := hle c
    have h₃ := h.disjoint b hb c hc hne
    omega
  · by_cases hba : b = a
    · subst hba
      rw [hself]
      simp only [blockSize] at *
      omega
    · rw [hother b hba]
      exact h.blocks b hb
  · have h₁ := hle b
    have h₂ := h.inside b hb
    show b + _ ≤ s.limit
    omega
  · obtain ⟨b, hb, hlo, hhi⟩ : s.InRegions chain x := hx.elim id fun hx => ⟨a, ha, hx⟩
    by_cases hba : b = a
    · subst hba
      exact ⟨b, hb, hlo, by omega⟩
    · exact ⟨b, hb, hlo, by rwa [hother b hba]⟩

/-- Taking a whole region. -/
theorem GlobalOk.takeWhole (h : GlobalOk s chain) (ha : a ∈ chain) :
    (s.takeFrom a (s.size a)).1 = a ∧
      Taken s chain ⟨a, s.size a⟩ (s.size a) a (s.takeFrom a (s.size a)).2 (chain.erase a) := by
  obtain ⟨hprev, hnext⟩ := h.isList.links_ne h.nodup ha
  rw [Regions.takeFrom_whole hprev hnext]
  refine ⟨rfl, ?_⟩
  have hnode := h.node a ha
  have hmem : ∀ {b}, b ∈ chain.erase a → b ∈ chain ∧ b ≠ a := fun hb =>
    ⟨List.mem_of_mem_erase hb, (h.nodup.mem_erase_iff.mp hb).1⟩
  have hother : ∀ b ∈ chain.erase a, (s.setSize a 0).size b = s.size b := fun b hb =>
    GlobalState.size_setSize_of_ne s _ (hmem hb).2
  have hnodes : NodesOk (⟨{ (s.setSize a 0).mem with links := s.mem.links.unlink a },
      { (s.setSize a 0).ga with freeList := s.mem.links.headAfter s.ga.freeList a }⟩ : GlobalState)
      (chain.erase a) :=
    ⟨⟨h.mapped, h.base, h.aligned⟩, h.isList.erase h.nodup ha, h.nodup.erase a,
      fun b hb => h.node b (hmem hb).1⟩
  refine ⟨hnodes, fun hin => (hmem hin).2 rfl, hnode.2.2.le, rfl, le_rfl, hnode.1, hnode.2.1, h.inside a ha,
    fun x => ?_, fun x => ?_, rfl, fun _ => ⟨⟨hnodes, fun b hb => ?_, fun b hb c hc hne => ?_,
    fun b hb => ?_, fun b hb => ?_, fun b hb => ?_⟩, fun x hx hout => ?_⟩⟩
  · rintro ⟨b, hb, hlo, hhi⟩
    have hhi : x < b + s.size b := (hother b hb) ▸ hhi
    refine ⟨.inl ⟨b, (hmem hb).1, hlo, hhi⟩, fun hin => ?_⟩
    have := h.disjoint a ha b (hmem hb).1 (hmem hb).2.symm
    omega
  · have hnew : ¬ (s.limit ≤ x ∧ x < s.limit) := fun hin =>
      absurd (hin.1.trans_lt hin.2) (lt_irrefl _)
    show _ ↔ _ ∨ s.limit ≤ x ∧ x < s.limit
    simp only [hnew, or_false]
    exact ⟨fun hx => hx.elim id fun hx => ⟨a, ha, hx⟩, .inl⟩
  · exact (hother b hb).symm ▸ h.pos b (hmem hb).1
  · have := h.disjoint b (hmem hb).1 c (hmem hc).1 hne
    rwa [← hother b hb, ← hother c hc] at this
  · exact (hother b hb).symm ▸ h.blocks b (hmem hb).1
  · exact (hother b hb).symm ▸ h.inside b (hmem hb).1
  · exact (hother b hb).symm ▸ h.field b (hmem hb).1
  · obtain ⟨b, hb, hlo, hhi⟩ : s.InRegions chain x := hx.elim id fun hx => ⟨a, ha, hx⟩
    have hba : b ≠ a := by
      rintro rfl
      exact hout ⟨hlo, hhi⟩
    have hb' : b ∈ chain.erase a := (List.mem_erase_of_ne hba).mpr hb
    exact ⟨b, hb', hlo, (hother b hb').symm ▸ hhi⟩

/-- The allocator with one more pool. -/
def GlobalState.withPool (s : GlobalState) (n : ℕ) : GlobalState :=
  { s with ga := { s.ga with mappedRegions := s.ga.mappedRegions ++ [⟨s.limit, n⟩] } }

theorem limit_withPool (s : GlobalState) (n : ℕ) : (s.withPool n).limit = s.limit + n := by
  simp [GlobalState.withPool, GlobalState.limit]

/-- A new pool of whole blocks changes nothing about the free list. -/
theorem GlobalOk.withPool (h : GlobalOk s chain) {n : ℕ} (hn : n % blockSize = 0) :
    GlobalOk (s.withPool n) chain where
  mapped := by simp [GlobalState.withPool]
  base := by
    rw [limit_withPool]
    exact h.base.trans (Nat.le_add_right _ _)
  aligned := by
    rw [limit_withPool]
    have := h.aligned
    simp only [blockSize] at *
    omega
  isList := h.isList
  nodup := h.nodup
  node a ha := by
    rw [limit_withPool]
    have := h.node a ha
    omega
  pos := h.pos
  disjoint := h.disjoint
  blocks := h.blocks
  inside a ha := by
    rw [limit_withPool]
    exact (h.inside a ha).trans (Nat.le_add_right _ _)
  field := h.field

/-- What `mapPool` does. -/
theorem mapPool_cases (hmap : s.mapPool size = some (ptr, s')) :
    ∃ n, poolFor size = n ∧ size ≤ n ∧ n % blockSize = 0 ∧ ptr = s.limit + n - size ∧
      (size < n ∧ s' = (s.withPool n).pushFree s.limit (n - size) ∨ n = size ∧ s' = s.withPool n) := by
  obtain ⟨last, hlast, hmap⟩ := Option.bind_eq_some_iff.mp hmap
  obtain ⟨n, hn, hmap⟩ := Option.bind_eq_some_iff.mp hmap
  have hlimit : last.ptr + last.size = s.limit := by simp only [GlobalState.limit, hlast]
  obtain ⟨hle, hdvd⟩ := poolSize_ok (by decide) hn
  dsimp only at hmap
  rw [hlimit] at hmap
  refine ⟨n, by rw [poolFor, hn, Option.getD_some], hle, Nat.mod_eq_zero_of_dvd hdvd, ?_⟩
  split at hmap <;> cases hmap
  · exact ⟨rfl, .inl ⟨by omega, rfl⟩⟩
  · exact ⟨rfl, .inr ⟨by omega, rfl⟩⟩

/-- A new pool, all of which is handed out. -/
theorem GlobalOk.takePool (h : GlobalOk s chain) (hblocks : size % blockSize = 0) :
    Taken s chain ⟨s.limit, size⟩ size s.limit (s.withPool size) chain := by
  have hpool := h.withPool hblocks
  refine ⟨hpool.toNodesOk, fun hmem => absurd (h.node _ hmem).2.2 (lt_irrefl _), le_rfl, rfl, le_rfl,
    h.aligned,
    h.base, (limit_withPool s size).ge, fun x hx => ⟨.inl hx, ?_⟩, fun x => ?_, rfl,
    fun _ => ⟨hpool, fun x hx hout => hx.resolve_right hout⟩⟩
  · obtain ⟨a, ha, -, hhi⟩ := hx
    have hhi : x < a + s.size a := hhi
    have := h.inside a ha
    omega
  · rw [limit_withPool]
    rfl

/-- A new pool whose front becomes a free region. -/
theorem GlobalOk.cutPool (h : GlobalOk s chain) {n : ℕ} (hlt : size < n) (hpos : 0 < size)
    (hblocks : size % blockSize = 0) (hn : n % blockSize = 0) :
    Taken s chain ⟨s.limit, n⟩ size (s.limit + n - size)
      ((s.withPool n).pushFree s.limit (n - size)) (s.limit :: chain) := by
  have hpool := h.withPool hn
  have halign := h.aligned
  have hbase := h.base
  have hnot : s.limit ∉ chain := fun hmem => absurd (h.node _ hmem).2.2 (lt_irrefl _)
  have hne : s.limit ≠ 0 := by
    have : 0 < baseAddress := by decide
    omega
  have hlim : ((s.withPool n).pushFree s.limit (n - size)).limit = s.limit + n := limit_withPool s n
  have hself : ((s.withPool n).pushFree s.limit (n - size)).size s.limit = (n - size) % sizeLimit :=
    GlobalState.size_setSize_self _ _ _
  have hother : ∀ a ∈ chain, ((s.withPool n).pushFree s.limit (n - size)).size a = s.size a :=
    fun a ha => GlobalState.size_setSize_of_ne (s.withPool n) _ (ne_of_mem_of_not_mem ha hnot)
  have hnodes : NodesOk ((s.withPool n).pushFree s.limit (n - size)) (s.limit :: chain) := by
    refine ⟨⟨hpool.mapped, hpool.base, hpool.aligned⟩, (h.isList.push hne hnot h.nodup).1,
      List.nodup_cons.mpr ⟨hnot, h.nodup⟩, List.forall_mem_cons.mpr ⟨⟨halign, hbase, ?_⟩, hpool.node⟩⟩
    rw [hlim]
    omega
  refine ⟨hnodes, fun hmem => ?_, le_rfl, by dsimp only; omega, hlt.le, ?_, by omega, ?_, fun x hx => ?_,
    fun x => ?_, rfl, fun hfit => ?_⟩
  · rcases List.mem_cons.mp hmem with heq | hmem
    · omega
    · have := (h.node _ hmem).2.2
      omega
  · simp only [blockSize] at *
    omega
  · rw [hlim]
    omega
  · -- the node may store less than it has, never more
    obtain ⟨a, ha, hlo, hhi⟩ := hx
    rcases List.mem_cons.mp ha with rfl | ha
    · rw [hself] at hhi
      have := Nat.mod_le (n - size) sizeLimit
      exact ⟨.inr ⟨hlo, by dsimp only; omega⟩, by omega⟩
    · rw [hother a ha] at hhi
      have := h.inside a ha
      exact ⟨.inl ⟨a, ha, hlo, hhi⟩, by omega⟩
  · rw [hlim]
    rfl
  · -- the rest fits into the field, so nothing is lost
    have hself' := hself.trans (Nat.mod_eq_of_lt hfit)
    refine ⟨⟨hnodes, List.forall_mem_cons.mpr ⟨?_, fun a ha => ?_⟩, fun a ha b hb hne => ?_,
      List.forall_mem_cons.mpr ⟨?_, fun a ha => ?_⟩, List.forall_mem_cons.mpr ⟨?_, fun a ha => ?_⟩,
      List.forall_mem_cons.mpr ⟨?_, fun a ha => ?_⟩⟩, fun x hx hout => ?_⟩
    · rw [hself']
      omega
    · rw [hother a ha]
      exact h.pos a ha
    · rcases List.mem_cons.mp ha with rfl | ha' <;> rcases List.mem_cons.mp hb with rfl | hb'
      · exact absurd rfl hne
      · rw [hother b hb']
        exact .inr (h.inside b hb')
      · rw [hother a ha']
        exact .inl (h.inside a ha')
      · rw [hother a ha', hother b hb']
        exact h.disjoint a ha' b hb' hne
    · rw [hself']
      simp only [blockSize] at *
      omega
    · rw [hother a ha]
      exact h.blocks a ha
    · rw [hself', hlim]
      omega
    · rw [hother a ha, hlim]
      exact (h.inside a ha).trans (Nat.le_add_right _ _)
    · rw [hself']
      exact hfit
    · rw [hother a ha]
      exact h.field a ha
    · rcases hx with ⟨a, ha, hlo, hhi⟩ | ⟨hlo, hhi⟩
      · exact ⟨a, List.mem_cons_of_mem _ ha, hlo, by rwa [hother a ha]⟩
      · dsimp only at hlo hhi
        refine ⟨s.limit, List.mem_cons_self, hlo, ?_⟩
        rw [hself']
        omega

/-- Mapping a pool and taking from its end. -/
theorem GlobalOk.mapPool (h : GlobalOk s chain) (hpos : 0 < size) (hblocks : size % blockSize = 0)
    (hmap : s.mapPool size = some (ptr, s')) :
    ∃ chain', Taken s chain ⟨s.limit, poolFor size⟩ size ptr s' chain' := by
  obtain ⟨n, hfor, -, hn, rfl, ⟨hlt, rfl⟩ | ⟨rfl, rfl⟩⟩ := mapPool_cases hmap
  · rw [hfor]
    exact ⟨_, h.cutPool hlt hpos hblocks hn⟩
  · rw [hfor, Nat.add_sub_cancel]
    exact ⟨_, h.takePool hblocks⟩

theorem GlobalOk.source_eq (h : GlobalOk s chain) :
    s.source size = match chain.find? fun a => decide (size ≤ s.size a) with
      | some a => ⟨a, s.size a⟩
      | none => ⟨s.limit, poolFor size⟩ := by
  rw [GlobalState.source, h.freeRegions_eq, List.find?_map]
  show ((chain.find? fun a => decide (size ≤ s.size a)).map _).getD _ = _
  cases chain.find? fun a => decide (size ≤ s.size a) <;> rfl

/-- **`alloc` takes from the end of its source.** -/
theorem GlobalOk.alloc (h : GlobalOk s chain) (hpos : 0 < size) (hblocks : size % blockSize = 0)
    (halloc : s.alloc size = some (ptr, s')) :
    ∃ chain', Taken s chain (s.source size) size ptr s' chain' := by
  obtain ⟨found, hfound, halloc⟩ := Option.bind_eq_some_iff.mp halloc
  rw [searchFree_eq h.isList (Nat.lt_succ_of_le h.length_le)] at hfound
  rw [h.source_eq]
  cases hfind : chain.find? fun a => decide (size ≤ s.size a) with
  | none =>
    rw [hfind] at hfound
    cases hfound
    exact h.mapPool hpos hblocks halloc
  | some a =>
    rw [hfind] at hfound
    cases hfound
    have ha := List.mem_of_find?_eq_some hfind
    have hle := List.find?_some hfind
    rw [decide_eq_true_eq] at hle
    have hne : a ≠ 0 := h.isList.ne_zero ha
    rw [Option.getD_some, if_pos hne] at halloc
    rcases Nat.eq_or_lt_of_le hle with rfl | hlt
    · obtain ⟨hptr, htaken⟩ := h.takeWhole ha
      rw [Option.some.inj halloc] at hptr htaken
      obtain rfl : ptr = a := hptr
      exact ⟨_, htaken⟩
    · have hsize : (s.setSize a (s.size a - size)).size a = s.size a - size := by
        rw [GlobalState.size_setSize_self, Nat.mod_eq_of_lt (by have := h.field a ha; omega)]
      have htake : s.takeFrom a size = (a + (s.size a - size), s.setSize a (s.size a - size)) := by
        simp only [GlobalState.takeFrom, hsize]
        rw [if_neg (by omega)]
      rw [htake] at halloc
      cases halloc
      exact ⟨_, h.takePart ha hlt hpos hblocks⟩

/-- `alloc` returns. -/
theorem GlobalOk.alloc_isSome (h : GlobalOk s chain) (hsize : size ≤ maxMemorySize) :
    ∃ ptr s', s.alloc size = some (ptr, s') := by
  obtain ⟨n, hn⟩ : ∃ n, GlobalState.poolSize size 64 minPoolSize = some n :=
    poolSize_isSome (k := 0) hsize (by decide) (by decide)
  have hlast := List.getLast?_eq_some_getLast h.mapped
  simp only [GlobalState.alloc, GlobalState.allocFrom, bind,
    searchFree_eq h.isList (Nat.lt_succ_of_le h.length_le), Option.bind_some]
  split
  · exact ⟨_, _, rfl⟩
  · simp only [GlobalState.mapPool, bind, hlast, hn, Option.bind_some]
    split <;> exact ⟨_, _, rfl⟩

end Alloc

/-! ## The header -/

section Header

variable {s : GlobalState} {chain : List ℕ} {a x : ℕ} {header : ChunkHeader}

theorem ga_setHeader : (s.setHeader a header).ga = s.ga := rfl

theorem size_setHeader_of_ne {b : ℕ} (hb : b ≠ a) : (s.setHeader a header).size b = s.size b :=
  congrArg ChunkHeader.size (Function.update_of_ne hb _ _)

theorem NodesOk.setHeader (h : NodesOk s chain) : NodesOk (s.setHeader a header) chain :=
  ⟨⟨h.mapped, h.base, h.aligned⟩, h.isList, h.nodup, h.node⟩

theorem GlobalOk.setHeader (h : GlobalOk s chain) (ha : a ∉ chain) :
    GlobalOk (s.setHeader a header) chain := by
  have hsize : ∀ b ∈ chain, (s.setHeader a header).size b = s.size b := fun b hb =>
    size_setHeader_of_ne (ne_of_mem_of_not_mem hb ha)
  refine ⟨h.toNodesOk.setHeader, fun b hb => ?_, fun b hb c hc hne => ?_, fun b hb => ?_, fun b hb => ?_,
    fun b hb => ?_⟩
  · rw [hsize b hb]
    exact h.pos b hb
  · rw [hsize b hb, hsize c hc]
    exact h.disjoint b hb c hc hne
  · rw [hsize b hb]
    exact h.blocks b hb
  · rw [hsize b hb]
    exact h.inside b hb
  · rw [hsize b hb]
    exact h.field b hb

end Header

/-! ## Sizes -/

section Sizes

variable {size : ℕ}

theorem chunkSizeFor_bounds (hsize : size ≤ maxMemorySize) :
    size + 8 ≤ chunkSizeFor size ∧ chunkSizeFor size < size + 72 := by
  have hmod : (size + 8) % 2 ^ 64 = size + 8 := by
    simp only [maxMemorySize] at hsize
    omega
  rw [chunkSizeFor, hmod]
  split
  · simp only [alignment, maxMemorySize] at *
    omega
  · omega

theorem bigBlocks_spec (size : ℕ) :
    size ≤ bigBlocks size * blockSize ∧ bigBlocks size * blockSize < size + blockSize := by
  rw [bigBlocks]
  split <;> simp only [blockSize] at * <;> omega

theorem bigAllocSize_eq (size : ℕ) : bigAllocSize size = bigBlocks size * blockSize := by
  have hblocks := bigBlocks_spec size
  rw [bigAllocSize]
  split <;> simp only [blockSize] at * <;> omega

end Sizes

/-! ## The way of a chunk -/

/-- The state with another bitmap. -/
def GlobalState.withBitmap (s : GlobalState) (bitmap : ℕ → BitVec 64) : GlobalState :=
  { s with mem := { s.mem with bitmap := bitmap } }

/-- The header that `big_alloc` writes. -/
def bigHeader (id size : ℕ) : ChunkHeader := ChunkHeader.withSize ⟨0, id, true, true, true, 0⟩ size

/-- An allocator at work: the free list of the global allocator is in order, no page of free or
unmapped memory has its bit set, and the free lists have the numbers of their places and file only
chunks of memory in use. -/
structure HeapReady (o : ObjectHeap) (chain : List ℕ) : Prop where
  regions : GlobalOk o.gs chain
  max : o.gs.limit ≤ baseAddress + maxMemorySize
  clear : ∀ page, o.gs.FreeByte (pageAddr page) ∨ o.gs.limit ≤ pageAddr page →
    pageSet o.gs.mem.bitmap page = false
  cores : o.freeLists ≠ []
  ids : ∀ (c : ℕ) (fl : FreeList), o.freeLists[c]? = some fl → fl.myId = c
  buckets : ∀ fl ∈ o.freeLists, ∀ i, ¬ o.gs.FreeByte (fl.buckets i) ∧ fl.buckets i < o.gs.limit

/-- `alloc` and then `dealloc` give back what they took: the free bytes are those from before and
those of new pools, exactly the bits that `alloc` has set are cleared, and the free lists are as
before. -/
def RoundTrip (o : ObjectHeap) (threadId : BitVec 64) (size : ℕ) : Prop :=
  ∃ ptr o₁ o₂, o.alloc threadId size = some (ptr, o₁) ∧ o₁.dealloc ptr = some o₂ ∧
    (∀ x, o₂.gs.FreeByte x ↔ o.gs.FreeByte x ∨ o.gs.limit ≤ x ∧ x < o₂.gs.limit) ∧
    (∀ page, pageSet o₂.gs.mem.bitmap page =
      if pageSet o₁.gs.mem.bitmap page && !pageSet o.gs.mem.bitmap page then false
      else pageSet o₁.gs.mem.bitmap page) ∧
    o₂.freeLists = o.freeLists

/-- The size of the chunk fits into its field, and so does every interval of free bytes around the
region that the chunk is taken from. -/
def SizesFit (o : ObjectHeap) (size : ℕ) : Prop :=
  let m := o.gs.source (bigAllocSize (chunkSizeFor size))
  chunkSizeFor size < sizeLimit ∧ ∀ lo hi, lo ≤ m.ptr → m.ptr + m.size ≤ hi →
    (∀ x, lo ≤ x → x < hi → o.gs.FreeByte x ∨ m.Has x) → hi - lo < sizeLimit

section RoundTrip

variable {o o₁ o₂ : ObjectHeap} {chain chain' : List ℕ} {threadId : BitVec 64} {s : GlobalState}
  {size k ptr c : ℕ} {fl : FreeList}

/-- The pages that `alloc` marks. -/
theorem setBitmapForBigAlloc_some (m : HeapMemory) (halign : ptr % blockSize = 0)
    (hbase : baseAddress ≤ ptr) (size : ℕ) :
    ∃ bitmap, m.setBitmapForBigAlloc ptr size = some { m with bitmap := bitmap } ∧
      (ptr + size + cellSize < 2 ^ 64 → ∀ page, pageSet bitmap page =
        if ptr ≤ pageAddr page ∧ pageAddr page < ptr + size then true else pageSet m.bitmap page) := by
  have hsome : ∃ bitmap, m.setBitmapForBigAlloc ptr size = some { m with bitmap := bitmap } := by
    rw [HeapMemory.setBitmapForBigAlloc, if_pos halign]
    dsimp only
    split <;> exact ⟨_, rfl⟩
  obtain ⟨bitmap, hset⟩ := hsome
  refine ⟨bitmap, hset, fun hsmall page => ?_⟩
  have hmod : (ptr + size) % 2 ^ 64 = ptr + size := Nat.mod_eq_of_lt (by omega)
  rw [setBitmapForBigAlloc_eq m halign hbase (by omega) (by omega)] at hset
  have hbitmap : (m.markPages true ptr size).bitmap = bitmap :=
    congrArg HeapMemory.bitmap (Option.some.inj hset)
  have hpage := pageSet_markPages m true size hbase page
  have hstart : ptr / bitmapGranularity * bitmapGranularity = ptr := by
    simp only [bitmapGranularity, blockSize] at *
    omega
  rwa [hbitmap, hmod, hstart] at hpage

/-- The pages that `big_dealloc` clears. -/
theorem unsetBitmapForBigDealloc_some (m : HeapMemory) (halign : ptr % blockSize = 0)
    (hbase : baseAddress ≤ ptr) (blocks : ℕ) :
    ∃ bitmap, m.unsetBitmapForBigDealloc ptr blocks = some { m with bitmap := bitmap } ∧
      (ptr + blocks * blockSize < 2 ^ 64 → ∀ page, pageSet bitmap page =
        if ptr ≤ pageAddr page ∧ pageAddr page < ptr + blocks * blockSize then false
        else pageSet m.bitmap page) := by
  have hsome : ∃ bitmap, m.unsetBitmapForBigDealloc ptr blocks = some { m with bitmap := bitmap } := by
    rw [HeapMemory.unsetBitmapForBigDealloc, if_pos halign]
    exact ⟨_, rfl⟩
  obtain ⟨bitmap, hunset⟩ := hsome
  refine ⟨bitmap, hunset, fun hsmall page => ?_⟩
  rw [unsetBitmapForBigDealloc_eq m halign hbase hsmall] at hunset
  have hbitmap : (m.markPages false ptr (blocks * blockSize)).bitmap = bitmap :=
    congrArg HeapMemory.bitmap (Option.some.inj hunset)
  have hpage := pageSet_markPages m false (blocks * blockSize) hbase page
  have hstart : ptr / bitmapGranularity * bitmapGranularity = ptr := by
    simp only [bitmapGranularity, blockSize] at *
    omega
  rwa [hbitmap, Nat.mod_eq_of_lt hsmall, hstart] at hpage

/-- The thread has a free list. -/
theorem HeapReady.list (h : HeapReady o chain) (threadId : BitVec 64) :
    ∃ fl, o.freeLists[getOffset threadId o.freeLists.length]? = some fl ∧
      fl.myId = getOffset threadId o.freeLists.length := by
  have hlt : getOffset threadId o.freeLists.length < o.freeLists.length :=
    Nat.mod_lt _ (List.length_pos_iff.mpr h.cores)
  exact ⟨_, List.getElem?_eq_getElem hlt, h.ids _ _ (List.getElem?_eq_getElem hlt)⟩

/-- `alloc` of a big chunk. -/
theorem alloc_big (hfl : o.freeLists[getOffset threadId o.freeLists.length]? = some fl)
    (hk : chunkSizeFor size = k) (hbig : blockSize < k) :
    o.alloc threadId size = o.allocBig fl k := by
  rw [ObjectHeap.alloc, hfl, Option.bind_some, hk, if_neg (not_le.mpr hbig)]

/-- What `alloc` does for a big chunk. -/
theorem allocBig_eq {mem : HeapMemory} (hga : o.gs.alloc (bigAllocSize k) = some (ptr, s))
    (hset : (s.setHeader ptr (bigHeader fl.myId k)).mem.setBitmapForBigAlloc ptr k = some mem) :
    o.allocBig fl k = some (ptr + 8, ⟨⟨mem, s.ga⟩, o.freeLists⟩) := by
  rw [bigHeader] at hset
  simp only [ObjectHeap.allocBig, GlobalState.bigAlloc, hga, Option.bind_eq_bind, Option.bind_some,
    Option.pure_def, hset, ga_setHeader]

/-- `dealloc` of a chunk whose header is that of a big one. -/
theorem dealloc_big {lists : List FreeList} (hhdr : s.mem.hdr ptr = bigHeader c k)
    (hfl : lists[c]? = some fl) :
    ObjectHeap.dealloc ⟨s, lists⟩ (ptr + 8) =
      if k % sizeLimit ≤ blockSize then
        (ListState.dealloc ⟨s.mem, fl⟩ ptr).map fun ls => ⟨⟨ls.mem, s.ga⟩, lists.set c ls.fl⟩
      else (s.bigDealloc ptr).map fun s => ⟨s, lists⟩ := by
  have hid : (s.mem.hdr ptr).freeListId = c := by rw [hhdr]; rfl
  have hsize : s.size ptr = k % sizeLimit := by rw [GlobalState.size, hhdr]; rfl
  rw [ObjectHeap.dealloc, if_neg (Nat.succ_ne_zero _), Nat.add_sub_cancel]
  simp only [hid, hfl, Option.bind_some, hsize]

/-- `big_dealloc` clears the header and the bits of the blocks, and releases them. -/
theorem bigDealloc_eq {mem : HeapMemory} (hsize : s.size ptr = k)
    (hunset : (s.setHeader ptr clearedHeader).mem.unsetBitmapForBigDealloc ptr (bigBlocks k) = some mem) :
    s.bigDealloc ptr = GlobalState.release ⟨mem, s.ga⟩ ptr (bigBlocks k * blockSize) := by
  rw [GlobalState.bigDealloc, hsize]
  rw [hunset, Option.bind_some]

/-- The source of a region that is not larger than a field allows is not larger either. -/
theorem GlobalOk.source_size_le (h : GlobalOk s chain) {n : ℕ} (hn : n ≤ sizeLimit) :
    (s.source n).size ≤ sizeLimit := by
  rw [h.source_eq]
  split
  · rename_i a hfind
    exact (h.field a (List.mem_of_find?_eq_some hfind)).le
  · show poolFor n ≤ sizeLimit
    have hsize : sizeLimit = minPoolSize * 2 % 2 ^ 64 := by decide
    rw [poolFor, GlobalState.poolSize, GlobalState.poolSize, ← hsize, if_neg (not_lt.mpr hn)]
    split <;> decide

/-- A chunk at the start of a block whose header says that it is the last one is filed as it is. -/
theorem dealloc_first_last {m : HeapMemory} {ls : ListState} (halign : ptr % blockSize = 0)
    (hlast : (m.hdr ptr).last = true) (hdealloc : ListState.dealloc ⟨m, fl⟩ ptr = some ls) :
    ls.fl.buckets (findBucket (m.hdr ptr).size) = ptr := by
  have hprev : ∀ s : ListState, s.prevChunk ptr = 0 := fun s => by
    simp [ListState.prevChunk, chunkOffset, halign]
  have hnext : ((⟨m, fl⟩ : ListState).touch ptr).nextChunk ptr = 0 := by
    simp [ListState.nextChunk, ListState.hdr, ListState.touch, hlast]
  rw [ListState.dealloc] at hdealloc
  split at hdealloc
  · simp only [ListState.freeAndCoalesce, hprev, hnext, and_self, if_true] at hdealloc
    split at hdealloc
    · cases hdealloc
      simp [ListState.addFreeChunk, ListState.modify, ListState.touch, ListState.hdr]
    · cases hdealloc
  · cases hdealloc

theorem GlobalOk.withBitmap (h : GlobalOk s chain) (bitmap : ℕ → BitVec 64) :
    GlobalOk (s.withBitmap bitmap) chain where
  mapped := h.mapped
  base := h.base
  aligned := h.aligned
  isList := h.isList
  nodup := h.nodup
  node := h.node
  pos := h.pos
  disjoint := h.disjoint
  blocks := h.blocks
  inside := h.inside
  field := h.field

/-- The state in which `big_dealloc` releases a chunk that was just allocated in `s`. -/
def GlobalState.returning (s : GlobalState) (ptr id k : ℕ) (bitmap bitmap' : ℕ → BitVec 64) : GlobalState :=
  (((s.setHeader ptr (bigHeader id k)).withBitmap bitmap).setHeader ptr clearedHeader).withBitmap bitmap'

theorem limit_of_release {s' : GlobalState} {id n : ℕ} {bitmap bitmap' : ℕ → BitVec 64}
    (hrelease : (s.returning ptr id k bitmap bitmap').release ptr n = some s') : s'.limit = s.limit :=
  limit_congr ((mappedRegions_release hrelease).trans rfl)

theorem NodesOk.returning (h : NodesOk s chain) {id : ℕ} {bitmap bitmap' : ℕ → BitVec 64} :
    NodesOk (s.returning ptr id k bitmap bitmap') chain where
  mapped := h.mapped
  base := h.base
  aligned := h.aligned
  isList := h.isList
  nodup := h.nodup
  node := h.node

theorem GlobalOk.returning (h : GlobalOk s chain) (hptr : ptr ∉ chain) {id : ℕ}
    {bitmap bitmap' : ℕ → BitVec 64} : GlobalOk (s.returning ptr id k bitmap bitmap') chain :=
  (((h.setHeader hptr).withBitmap bitmap).setHeader hptr).withBitmap bitmap'

theorem size_returning_of_ne {a id : ℕ} {bitmap bitmap' : ℕ → BitVec 64} (ha : a ≠ ptr) :
    (s.returning ptr id k bitmap bitmap').size a = s.size a :=
  (size_setHeader_of_ne ha).trans (size_setHeader_of_ne ha)

theorem inRegions_returning (hptr : ptr ∉ chain) {id x : ℕ} {bitmap bitmap' : ℕ → BitVec 64} :
    (s.returning ptr id k bitmap bitmap').InRegions chain x ↔ s.InRegions chain x := by
  refine exists_congr fun b => and_congr_right fun hb => ?_
  rw [size_returning_of_ne (ne_of_mem_of_not_mem hb hptr)]

/-- `alloc` asks the global allocator for a region. -/
theorem HeapReady.galloc (h : HeapReady o chain) (hk : chunkSizeFor size = k) (hbig : blockSize < k)
    {p : ℕ} (halloc : o.alloc threadId size = some (p, o₁)) :
    ∃ ptr s, o.gs.alloc (bigAllocSize k) = some (ptr, s) := by
  obtain ⟨fl, hfl, -⟩ := h.list threadId
  rw [alloc_big hfl hk hbig] at halloc
  obtain ⟨_, hbigAlloc, -⟩ := Option.bind_eq_some_iff.mp halloc
  obtain ⟨⟨ptr, s⟩, hga, -⟩ := Option.bind_eq_some_iff.mp hbigAlloc
  exact ⟨ptr, s, hga⟩

/-- What `alloc` does with the region. -/
theorem HeapReady.alloc (h : HeapReady o chain) (threadId : BitVec 64) (hk : chunkSizeFor size = k)
    (hbig : blockSize < k)
    (hga : o.gs.alloc (bigAllocSize k) = some (ptr, s)) :
    ∃ chain' bitmap, Taken o.gs chain (o.gs.source (bigAllocSize k)) (bigAllocSize k) ptr s chain' ∧
      o.alloc threadId size = some (ptr + 8,
        ⟨(s.setHeader ptr (bigHeader (getOffset threadId o.freeLists.length) k)).withBitmap bitmap,
          o.freeLists⟩) ∧
      (ptr + k + cellSize < 2 ^ 64 → ∀ page, pageSet bitmap page =
        if ptr ≤ pageAddr page ∧ pageAddr page < ptr + k then true
        else pageSet o.gs.mem.bitmap page) := by
  obtain ⟨fl, hfl, hid⟩ := h.list threadId
  have hblocks := bigBlocks_spec k
  obtain ⟨chain', htaken⟩ := h.regions.alloc
    (by rw [bigAllocSize_eq]; omega) (by rw [bigAllocSize_eq]; exact Nat.mul_mod_left _ _) hga
  obtain ⟨bitmap, hset, hpages⟩ := setBitmapForBigAlloc_some
    (s.setHeader ptr (bigHeader fl.myId k)).mem htaken.aligned htaken.base k
  refine ⟨chain', bitmap, htaken, ?_, fun hsmall page => ?_⟩
  · rw [alloc_big hfl hk hbig, allocBig_eq hga hset, hid]
    rfl
  · rw [← htaken.bitmap]
    exact hpages hsmall page

/-- `dealloc` of a chunk whose size in the header is that of a big one. -/
theorem dealloc_returning {bitmap : ℕ → BitVec 64} {lists : List FreeList} (halign : ptr % blockSize = 0)
    (hbase : baseAddress ≤ ptr) (hfl : lists[c]? = some fl) (hbig : blockSize < k % sizeLimit) :
    ∃ bitmap', ObjectHeap.dealloc ⟨(s.setHeader ptr (bigHeader c k)).withBitmap bitmap, lists⟩ (ptr + 8) =
        ((s.returning ptr c k bitmap bitmap').release ptr (bigBlocks (k % sizeLimit) * blockSize)).map
          (fun s => ⟨s, lists⟩) ∧
      (ptr + bigBlocks (k % sizeLimit) * blockSize < 2 ^ 64 → ∀ page, pageSet bitmap' page =
        if ptr ≤ pageAddr page ∧ pageAddr page < ptr + bigBlocks (k % sizeLimit) * blockSize then false
        else pageSet bitmap page) := by
  have hhdr : ((s.setHeader ptr (bigHeader c k)).withBitmap bitmap).mem.hdr ptr = bigHeader c k :=
    Function.update_self _ _ _
  have hsize : ((s.setHeader ptr (bigHeader c k)).withBitmap bitmap).size ptr = k % sizeLimit := by
    rw [GlobalState.size, hhdr]
    rfl
  obtain ⟨bitmap', hunset, hpages⟩ := unsetBitmapForBigDealloc_some
    (((s.setHeader ptr (bigHeader c k)).withBitmap bitmap).setHeader ptr clearedHeader).mem halign hbase
    (bigBlocks (k % sizeLimit))
  refine ⟨bitmap', ?_, hpages⟩
  rw [dealloc_big hhdr hfl, if_neg (not_le.mpr hbig), bigDealloc_eq hsize hunset]
  rfl

/-- The free list after `release` is a list of nodes again. -/
theorem NodesOk.release (h : NodesOk s chain) (halign : ptr % blockSize = 0) (hbase : baseAddress ≤ ptr)
    (hlt : ptr < s.limit) {s' : GlobalState} (hrelease : s.release ptr size = some s')
    (hlist : IsList s'.mem.links 0 s'.ga.freeList chain') (hnodup : chain'.Nodup)
    (hsub : chain' ⊆ ptr :: chain) : NodesOk s' chain' := by
  have hmapped := mappedRegions_release hrelease
  have hlimit := limit_congr hmapped
  refine ⟨⟨hmapped ▸ h.mapped, hlimit ▸ h.base, hlimit ▸ h.aligned⟩, hlist, hnodup, fun a ha => ?_⟩
  rw [hlimit]
  rcases List.mem_cons.mp (hsub ha) with rfl | ha
  · exact ⟨halign, hbase, hlt⟩
  · exact h.node a ha

/-- `release` of blocks returns, whatever the sizes are, and writes only nodes. -/
theorem NodesOk.release_isSome (h : NodesOk s chain) (hnot : ptr ∉ chain)
    (halign : ptr % blockSize = 0) (hbase : baseAddress ≤ ptr) (hlt : ptr < s.limit) (size : ℕ) :
    ∃ s' chain', s.release ptr size = some s' ∧ NodesOk s' chain' ∧ chain' ⊆ ptr :: chain ∧
      KeepsOutside (ptr :: chain) s s' := by
  have hptr : ptr ≠ 0 := by
    have : 0 < baseAddress := by decide
    omega
  have hlen : (ptr :: chain).length < s.allocatedBlocks + 1 :=
    Nat.succ_lt_succ (h.length_lt hnot halign hbase hlt)
  obtain ⟨s', hloop⟩ := mergeLoop_isSome (s := s.pushFree ptr size) (h.isList.push hptr hnot h.nodup).1
    (List.nodup_cons.mpr ⟨hnot, h.nodup⟩) List.mem_cons_self hlen hlen.le
  have hrelease : s.release ptr size = some s' := (GlobalState.release_eq s ptr size).trans hloop
  obtain ⟨chain', hlist, hnodup, hsub, hkeep, -⟩ :=
    releaseWith_bytes_subset h.isList h.nodup hptr hnot hloop hlen
  exact ⟨s', chain', hrelease, h.release halign hbase hlt hrelease hlist hnodup hsub, hsub, hkeep⟩

end RoundTrip

/-! ## Giving the region back -/

section Return

variable {s s₁ s₂ : GlobalState} {chain chain' : List ℕ} {m : MemoryRegion}
  {n n' ptr x id k lo hi : ℕ} {bitmap bitmap' : ℕ → BitVec 64}

namespace Taken

theorem has (h : Taken s chain m n ptr s₁ chain') (hlo : ptr ≤ x) (hhi : x < ptr + n) : m.Has x := by
  have h₁ := h.last
  have h₂ := h.le
  exact ⟨by omega, by omega⟩

section

variable (h : Taken s chain m n ptr s₁ chain')
include h

/-- The bytes that are free or taken are those from before and those of the source. -/
theorem source_iff (hfit : m.size - n < sizeLimit) :
    s₁.InRegions chain' x ∨ ptr ≤ x ∧ x < ptr + n ↔ s.InRegions chain x ∨ m.Has x := by
  constructor
  · rintro (hx | ⟨hlo, hhi⟩)
    · exact (h.bytes x hx).1
    · exact .inr (h.has hlo hhi)
  · intro hx
    by_cases hin : ptr ≤ x ∧ x < ptr + n
    · exact .inr hin
    · exact .inl ((h.exact hfit).2 x hx hin)

/-- No free region reaches into the bytes that were taken. -/
theorem apart (hok : GlobalOk s₁ chain') (hn : 0 < n) :
    ∀ a ∈ chain', a + s₁.size a ≤ ptr ∨ ptr + n ≤ a := by
  intro a ha
  by_contra hboth
  have hpos := hok.pos a ha
  have hx : s₁.InRegions chain' (max a ptr) := ⟨a, ha, le_max_left _ _, by omega⟩
  exact (h.bytes _ hx).2 ⟨le_max_right _ _, by omega⟩

theorem returning_apart (hok : GlobalOk s₁ chain') (hn : 0 < n) :
    ∀ a ∈ chain', a + (s₁.returning ptr id k bitmap bitmap').size a ≤ ptr ∨ ptr + n ≤ a := by
  intro a ha
  rw [size_returning_of_ne (ne_of_mem_of_not_mem ha h.fresh)]
  exact h.apart hok hn a ha

theorem ptr_ne : ptr ≠ 0 := by
  have hbase := h.base
  have : 0 < baseAddress := by decide
  omega

/-- The walks of `release` see the whole list. -/
theorem length_lt (hn : 0 < n) :
    chain'.length + 1 < (s₁.returning ptr id k bitmap bitmap').allocatedBlocks + 1 := by
  have hinside := h.inside
  exact Nat.succ_lt_succ (h.nodes.length_lt h.fresh h.aligned h.base (by omega))

/-- If fewer bytes are released than were taken, the last one is not free. -/
theorem release_short (hlt : n' < n)
    (hrelease : (s₁.returning ptr id k bitmap bitmap').release ptr n' = some s₂) :
    ∃ x, m.Has x ∧ ¬ s₂.FreeByte x := by
  have hnodes : NodesOk (s₁.returning ptr id k bitmap bitmap') chain' := h.nodes.returning
  have hinside := h.inside
  have hloop := hrelease
  rw [GlobalState.release_eq] at hloop
  obtain ⟨chain'', hlist, hnodup, hsub, -, hbytes⟩ := releaseWith_bytes_subset hnodes.isList hnodes.nodup
    h.ptr_ne h.fresh hloop (h.length_lt (by omega))
  have hok := hnodes.release h.aligned h.base (show ptr < s₁.limit by omega) hrelease hlist hnodup hsub
  refine ⟨ptr + n - 1, h.has (by omega) (by omega), fun hx => ?_⟩
  rcases hbytes _ (hok.freeByte_iff.mp hx) with hin | hin
  · exact (h.bytes _ ((inRegions_returning h.fresh).mp hin)).2 ⟨by omega, by omega⟩
  · omega

/-- If the run of free bytes does not fit into a field, one of them is not free afterwards. -/
theorem release_long (hn : 0 < n) (hfit : m.size - n < sizeLimit)
    (hlo : lo ≤ m.ptr) (hhi : m.ptr + m.size ≤ hi)
    (hall : ∀ x, lo ≤ x → x < hi → s.InRegions chain x ∨ m.Has x) (hlong : sizeLimit ≤ hi - lo)
    (hrelease : (s₁.returning ptr id k bitmap bitmap').release ptr n = some s₂) :
    ∃ x, (s.InRegions chain x ∨ m.Has x) ∧ ¬ s₂.FreeByte x := by
  have hreg := (h.exact hfit).1
  have hret : GlobalOk (s₁.returning ptr id k bitmap bitmap') chain' := hreg.returning h.fresh
  have hinside := h.inside
  have hlast := h.last
  have hle := h.le
  have hiff : ∀ x, (s₁.returning ptr id k bitmap bitmap').InRegions chain' x ∨ ptr ≤ x ∧ x < ptr + n ↔
      s.InRegions chain x ∨ m.Has x := fun x => by
    rw [inRegions_returning h.fresh]
    exact h.source_iff hfit
  have hloop := hrelease
  rw [GlobalState.release_eq] at hloop
  obtain ⟨chain'', hlist, hnodup, hsub, x, hx, hlost⟩ :=
    hret.toFreeRegions.release_lossy hret.field h.ptr_ne
    hn (h.returning_apart hreg hn) (by omega) (by omega)
    (fun x h₁ h₂ => (hiff x).mpr (hall x h₁ h₂)) hlong hloop
    (h.length_lt hn)
  have hok := hret.toNodesOk.release h.aligned h.base (show ptr < s₁.limit by omega) hrelease hlist
    hnodup hsub
  exact ⟨x, (hiff x).mp hx, fun hfree => hlost (hok.freeByte_iff.mp hfree)⟩

/-- If the run of free bytes fits, every byte is free afterwards. -/
theorem release_fits (hn : 0 < n)
    (hfit : ∀ lo hi, lo ≤ m.ptr → m.ptr + m.size ≤ hi →
      (∀ x, lo ≤ x → x < hi → s.InRegions chain x ∨ m.Has x) → hi - lo < sizeLimit) :
    ∃ s₂, (s₁.returning ptr id k bitmap bitmap').release ptr n = some s₂ ∧ s₂.limit = s₁.limit ∧
      s₂.mem.bitmap = bitmap' ∧ ∀ x, s₂.FreeByte x ↔ s.InRegions chain x ∨ m.Has x := by
  have hlast := h.last
  have hle := h.le
  have hinside := h.inside
  have hsource : m.size - n < sizeLimit := by
    have := hfit m.ptr (m.ptr + m.size) le_rfl le_rfl fun x h₁ h₂ => .inr ⟨h₁, h₂⟩
    omega
  have hreg := (h.exact hsource).1
  have hret : GlobalOk (s₁.returning ptr id k bitmap bitmap') chain' := hreg.returning h.fresh
  have hiff : ∀ x, (s₁.returning ptr id k bitmap bitmap').InRegions chain' x ∨ ptr ≤ x ∧ x < ptr + n ↔
      s.InRegions chain x ∨ m.Has x := fun x => by
    rw [inRegions_returning h.fresh]
    exact h.source_iff hsource
  -- An interval around the region is extended to the start of the source.
  have hrun : ∀ lo hi, lo ≤ ptr → ptr + n ≤ hi →
      (∀ x, lo ≤ x → x < hi → (s₁.returning ptr id k bitmap bitmap').InRegions chain' x ∨
        ptr ≤ x ∧ x < ptr + n) → hi - lo < sizeLimit := fun lo hi hlo hhi hall => by
    have := hfit (min lo m.ptr) hi (min_le_right _ _) (by omega) fun x hxlo hxhi => by
      by_cases hx : lo ≤ x
      · exact (hiff x).mp (hall x hx hxhi)
      · exact .inr ⟨by omega, by omega⟩
    omega
  obtain ⟨s₂, chain'', -, hloop, hfree, hbytes, -, -, -, -, hkeep, hsub⟩ :=
    hret.toFreeRegions.release h.ptr_ne hn (h.returning_apart hreg hn) hrun
  have hrelease : (s₁.returning ptr id k bitmap bitmap').release ptr n = some s₂ :=
    (GlobalState.release_eq _ _ _).trans (hloop _ _ (h.length_lt hn) (h.length_lt hn).le)
  have hok := hret.toNodesOk.release h.aligned h.base (show ptr < s₁.limit by omega) hrelease hfree.isList
    hfree.nodup hsub
  refine ⟨s₂, hrelease, limit_congr hkeep.mapped, hkeep.bitmap, fun x => ?_⟩
  rw [hok.freeByte_iff, hbytes, hiff]

end

end Taken

end Return

/-! ## The round trip -/

section RoundTrip

variable {o : ObjectHeap} {chain chain' : List ℕ} {threadId : BitVec 64} {size k n ptr : ℕ}
  {s : GlobalState}

/-- A chunk that was just taken is in no bucket. -/
theorem HeapReady.bucket_ne (h : HeapReady o chain) {m : MemoryRegion}
    (htaken : Taken o.gs chain m n ptr s chain') (hn : 0 < n) {fl : FreeList} (hfl : fl ∈ o.freeLists)
    (i : ℕ) : fl.buckets i ≠ ptr := by
  rintro rfl
  obtain ⟨hfree, hlimit⟩ := h.buckets fl hfl i
  rcases (htaken.pool _).mp (.inr (htaken.has le_rfl (by omega))) with hx | hx
  · exact hfree (h.regions.freeByte_iff.mpr hx)
  · omega

/-- If a chunk comes back completely, the sizes fit. -/
theorem HeapReady.fits_of_roundTrip (h : HeapReady o chain) (hk : chunkSizeFor size = k)
    (hbig : blockSize < k) (hround : RoundTrip o threadId size) : SizesFit o size := by
  obtain ⟨p, o₁, o₂, halloc, hdealloc, hfree, -, hlists⟩ := hround
  obtain ⟨fl, hfl, hid⟩ := h.list threadId
  obtain ⟨ptr, s, hga⟩ := h.galloc hk hbig halloc
  obtain ⟨chain', bitmap, htaken, heq, -⟩ := h.alloc threadId hk hbig hga
  rw [heq] at halloc
  cases halloc
  generalize getOffset threadId o.freeLists.length = c at *
  have hblocks := bigBlocks_spec k
  have hpos : 0 < bigAllocSize k := by
    rw [bigAllocSize_eq]
    omega
  by_cases hsmall : k % sizeLimit ≤ blockSize
  · -- The chunk is filed in a bucket.
    have hhdr : ((s.setHeader ptr (bigHeader c k)).withBitmap bitmap).mem.hdr ptr = bigHeader c k :=
      Function.update_self _ _ _
    rw [dealloc_big hhdr hfl, if_pos hsmall] at hdealloc
    obtain ⟨ls, hls, rfl⟩ := Option.map_eq_some_iff.mp hdealloc
    have hfiled := dealloc_first_last htaken.aligned (by rw [hhdr]; rfl) hls
    have hmem : ls.fl ∈ o.freeLists := by
      have hset : o.freeLists.set c ls.fl = o.freeLists := hlists
      rw [← hset]
      exact List.mem_set (List.getElem?_eq_some_iff.mp hfl).1 _
    exact absurd hfiled (h.bucket_ne htaken hpos hmem _)
  rw [not_le] at hsmall
  obtain ⟨bitmap', heq, -⟩ := dealloc_returning htaken.aligned htaken.base hfl hsmall
  rw [heq] at hdealloc
  obtain ⟨s₂, hrelease, rfl⟩ := Option.map_eq_some_iff.mp hdealloc
  -- Every byte of the source is free again.
  have hback : ∀ x, o.gs.InRegions chain x ∨ (o.gs.source (bigAllocSize k)).Has x → s₂.FreeByte x :=
    fun x hx => by
      refine (hfree x).mpr ?_
      show _ ∨ _ ∧ x < s₂.limit
      rw [limit_of_release hrelease, h.regions.freeByte_iff]
      exact (htaken.pool x).mp hx
  have hlt : k < sizeLimit := by
    by_contra hge
    have hshort : bigBlocks (k % sizeLimit) * blockSize < bigAllocSize k := by
      have hrest := bigBlocks_spec (k % sizeLimit)
      rw [bigAllocSize_eq]
      simp only [sizeLimit, blockSize] at *
      omega
    obtain ⟨x, hx, hlost⟩ := htaken.release_short hshort hrelease
    exact hlost (hback x (.inr hx))
  rw [Nat.mod_eq_of_lt hlt, ← bigAllocSize_eq] at hrelease
  show chunkSizeFor size < sizeLimit ∧ _
  rw [hk]
  refine ⟨hlt, fun lo hi hlo hhi hall => ?_⟩
  by_contra hlong
  have hle : (o.gs.source (bigAllocSize k)).size ≤ sizeLimit := by
    refine h.regions.source_size_le ?_
    rw [bigAllocSize_eq]
    simp only [sizeLimit, blockSize] at *
    omega
  obtain ⟨x, hx, hlost⟩ := htaken.release_long hpos (by omega) hlo hhi
    (fun x h₁ h₂ => (hall x h₁ h₂).imp_left h.regions.freeByte_iff.mp) (not_lt.mp hlong) hrelease
  exact hlost (hback x hx)

/-- The pages that were marked are clear again, and the others are as they were. -/
theorem page_restored {before after last : Bool} {a : ℕ} (hle : k ≤ n)
    (hclear : ptr ≤ a → a < ptr + n → before = false)
    (hset : after = if ptr ≤ a ∧ a < ptr + k then true else before)
    (hunset : last = if ptr ≤ a ∧ a < ptr + n then false else after) :
    last = if after && !before then false else after := by
  by_cases hin : ptr ≤ a ∧ a < ptr + n
  · rw [hunset, if_pos hin, hclear hin.1 hin.2]
    cases after <;> rfl
  · rw [if_neg hin] at hunset
    rw [if_neg (by omega)] at hset
    rw [hunset, hset]
    cases before <;> rfl

/-- If the sizes fit, a chunk comes back completely. -/
theorem HeapReady.roundTrip_of_fits (h : HeapReady o chain) (hk : chunkSizeFor size = k)
    (hbig : blockSize < k) (hfits : SizesFit o size) : RoundTrip o threadId size := by
  obtain ⟨hlt, hrun⟩ := hfits
  rw [hk] at hlt hrun
  obtain ⟨fl, hfl, hid⟩ := h.list threadId
  have hblocks := bigBlocks_spec k
  have hpos : 0 < bigAllocSize k := by
    rw [bigAllocSize_eq]
    omega
  have hmax : bigAllocSize k ≤ maxMemorySize := by
    rw [bigAllocSize_eq]
    simp only [sizeLimit, blockSize, maxMemorySize] at *
    omega
  obtain ⟨ptr, s, hga⟩ := h.regions.alloc_isSome hmax
  obtain ⟨chain', bitmap, htaken, halloc, hset⟩ := h.alloc threadId hk hbig hga
  have hmod : k % sizeLimit = k := Nat.mod_eq_of_lt hlt
  obtain ⟨bitmap', hdealloc, hunset⟩ := dealloc_returning (s := s) (k := k) htaken.aligned htaken.base hfl
    (by rwa [hmod])
  rw [hmod, ← bigAllocSize_eq] at hdealloc hunset
  obtain ⟨s₂, hrelease, hlimit, hbitmap, hfree⟩ := htaken.release_fits hpos fun lo hi hlo hhi hall =>
    hrun lo hi hlo hhi fun x h₁ h₂ => (hall x h₁ h₂).imp_left h.regions.freeByte_iff.mpr
  rw [hrelease, Option.map_some] at hdealloc
  refine ⟨_, _, _, halloc, hdealloc, fun x => ?_, fun page => ?_, rfl⟩
  · show s₂.FreeByte x ↔ _ ∨ _ ∧ x < s₂.limit
    rw [hlimit, hfree, h.regions.freeByte_iff]
    exact htaken.pool x
  · -- the pages: `alloc` sets those of the chunk, all of which were clear, and `dealloc` clears
    -- those of the region
    have hsmall : ptr + bigAllocSize k + cellSize < 2 ^ 64 := by
      have h₁ := htaken.last
      have h₂ := htaken.start
      have h₃ := h.max
      have h₄ := hrun _ _ le_rfl le_rfl fun x hlo hhi => .inr ⟨hlo, hhi⟩
      simp only [sizeLimit, baseAddress, maxMemorySize, cellSize, bitmapGranularity] at *
      omega
    have hle : k ≤ bigAllocSize k := bigAllocSize_eq k ▸ hblocks.1
    show pageSet s₂.mem.bitmap page = if pageSet bitmap page && _ then false else pageSet bitmap page
    rw [hbitmap]
    refine page_restored hle (fun h₁ h₂ => h.clear page ?_) (hset (by omega) page) (hunset (by omega) page)
    exact ((htaken.pool _).mp (.inr (htaken.has h₁ h₂))).imp h.regions.freeByte_iff.mpr And.left

/-- **A chunk larger than a block comes back completely exactly if the sizes fit.** -/
theorem big_round_trip_iff (h : HeapReady o chain) (hsize : blockSize < size + 8)
    (hmax : size ≤ maxMemorySize) : RoundTrip o threadId size ↔ SizesFit o size :=
  have hbig : blockSize < chunkSizeFor size := hsize.trans_le (chunkSizeFor_bounds hmax).1
  ⟨h.fits_of_roundTrip rfl hbig, h.roundTrip_of_fits rfl hbig⟩

theorem globalOk_new : GlobalOk (GlobalState.new .blank) [baseAddress] where
  mapped := List.cons_ne_nil _ _
  base := by decide
  aligned := by decide
  isList := freeRegions_new.isList
  nodup := freeRegions_new.nodup
  node := by decide
  pos := freeRegions_new.pos
  disjoint := freeRegions_new.disjoint
  blocks := by decide
  inside := by decide
  field := by decide

/-- The free bytes of a new allocator are its first pool. -/
theorem freeByte_new {x : ℕ} :
    (GlobalState.new .blank).FreeByte x ↔ baseAddress ≤ x ∧ x < baseAddress + minPoolSize := by
  rw [globalOk_new.freeByte_iff]
  have hsize : (GlobalState.new .blank).size baseAddress = minPoolSize := by decide
  simp [GlobalState.InRegions, hsize]

/-- A new allocator is at work in this sense: no bit is set and every bucket is empty. -/
theorem heapReady_new {cores : ℕ} (hcores : 0 < cores) :
    HeapReady (.new (.new .blank) cores) [baseAddress] where
  regions := globalOk_new
  max := by
    show (GlobalState.new .blank).limit ≤ _
    decide
  clear page _ := by
    show (0#64).getLsbD _ = false
    exact BitVec.getLsbD_zero
  cores := by
    simp only [ObjectHeap.new, ne_eq, List.map_eq_nil_iff, List.range_eq_nil]
    omega
  ids c fl hfl := by
    simp only [ObjectHeap.new, List.getElem?_map, Option.map_eq_some_iff] at hfl
    obtain ⟨i, hi, rfl⟩ := hfl
    obtain ⟨hlt, rfl⟩ := List.getElem?_eq_some_iff.mp hi
    exact List.getElem_range hlt
  buckets fl hfl i := by
    obtain ⟨c, -, rfl⟩ := List.mem_map.mp hfl
    show ¬ (GlobalState.new .blank).FreeByte 0 ∧ 0 < (GlobalState.new .blank).limit
    rw [freeByte_new]
    decide

/-- Three megabytes from a new allocator. -/
theorem big_round_trip_new : HeapReady (.new (.new .blank) 1) [baseAddress] ∧
    RoundTrip (.new (.new .blank) 1) 0 0x300000 := by
  have hready : HeapReady (.new (.new .blank) 1) [baseAddress] := heapReady_new (by decide)
  refine ⟨hready, (big_round_trip_iff hready (by decide) (by decide)).mpr ⟨by decide, ?_⟩⟩
  have hsource : (GlobalState.new .blank).source (bigAllocSize (chunkSizeFor 0x300000)) =
      ⟨baseAddress, minPoolSize⟩ := by decide +kernel
  show ∀ lo hi, lo ≤ ((GlobalState.new .blank).source _).ptr → _
  rw [hsource]
  intro lo hi hlo hhi hall
  have hin : ∀ x, lo ≤ x → x < hi → baseAddress ≤ x ∧ x < baseAddress + minPoolSize := fun x h₁ h₂ =>
    (hall x h₁ h₂).elim freeByte_new.mp id
  simp only [baseAddress, minPoolSize, sizeLimit] at *
  have h₁ := hin lo
  have h₂ := hin (hi - 1)
  omega

/-- A chunk of 2^29 bytes has the size zero in its header, and a region of 302 MB comes from a pool
of 2^29 bytes. -/
theorem big_round_trip_lost : HeapReady (.new (.new .blank) 1) [baseAddress] ∧
    blockSize < 0x1FFFFFF8 + 8 ∧ 0x1FFFFFF8 ≤ maxMemorySize ∧
    ¬ RoundTrip (.new (.new .blank) 1) 0 0x1FFFFFF8 ∧ ¬ RoundTrip (.new (.new .blank) 1) 0 0x12C00000 := by
  have hready : HeapReady (.new (.new .blank) 1) [baseAddress] := heapReady_new (by decide)
  refine ⟨hready, by decide, by decide, fun hround => ?_, fun hround => ?_⟩
  · have hfits := hready.fits_of_roundTrip rfl (by decide) hround
    exact absurd hfits.1 (by decide)
  · have hfits := hready.fits_of_roundTrip rfl (by decide) hround
    have hlen := hfits.2 _ _ le_rfl le_rfl fun x hlo hhi => .inr ⟨hlo, hhi⟩
    exact absurd hlen (by decide +kernel)

end RoundTrip

end Pronto
