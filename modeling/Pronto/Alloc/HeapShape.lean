import Pronto.Alloc.Heap
import Pronto.Alloc.Owners

/-!
# The free lists of all objects on one global allocator

Every object has a free list for each core, and all of them get their blocks from the one global
allocator; chunks that are larger than a block (`jumbos`) are regions of their own. `HeapShape` says
that the heap is in order as a whole: each free list is (`ListInv`), no block belongs to two of them,
and the regions that the global allocator has handed out are exactly the blocks of the free lists and
the regions of the large chunks.

A call changes one free list, the memory of its own blocks, and perhaps the global allocator.
`HeapShape.replace` is the rule for that.
-/

namespace Pronto

open Linked

/-- The payload of a chunk is unchanged: the words behind its header. -/
def KeepsWords (m m' : HeapMemory) (k : Chunk) : Prop :=
  ∀ x, k.addr ≤ x → x < k.addr + k.size →
    (k.addr < x → m'.hdr x = m.hdr x) ∧ m'.links.prev x = m.links.prev x ∧
      m'.links.next x = m.links.next x

theorem keepsWords_of_same {m m' : HeapMemory} {k : Chunk}
    (h : ∀ x, k.addr ≤ x → x < k.addr + k.size → SameWords m m' x) : KeepsWords m m' k :=
  fun x hlo hhi => ⟨fun _ => (h x hlo hhi).1, (h x hlo hhi).2⟩

/-- Payloads are kept across several calls. -/
theorem KeepsWords.trans {m m' m'' : HeapMemory} {k : Chunk} (h : KeepsWords m m' k)
    (h' : KeepsWords m' m'' k) : KeepsWords m m'' k := by
  intro x hlo hhi
  obtain ⟨hhdr, hprev, hnext⟩ := h x hlo hhi
  obtain ⟨hhdr', hprev', hnext'⟩ := h' x hlo hhi
  exact ⟨fun hlt => (hhdr' hlt).trans (hhdr hlt), hprev'.trans hprev, hnext'.trans hnext⟩

/-- Only the payload of the chunk is written: the words behind its header. -/
structure WritesInto (m m' : HeapMemory) (k : Chunk) : Prop where
  hdr_eq : ∀ x, x ≤ k.addr ∨ k.addr + k.size ≤ x → m'.hdr x = m.hdr x
  links_eq : ∀ x, x < k.addr ∨ k.addr + k.size ≤ x →
    m'.links.prev x = m.links.prev x ∧ m'.links.next x = m.links.next x

theorem WritesInto.keepsWords {m m' : HeapMemory} {k k' : Chunk} (h : WritesInto m m' k)
    (hapart : k.addr + k.size ≤ k'.addr ∨ k'.addr + k'.size ≤ k.addr) : KeepsWords m m' k' :=
  fun x hlo hhi => ⟨fun _ => h.hdr_eq x (by omega), h.links_eq x (by omega)⟩

/-- The region of a block of a free list, or of a chunk that is larger than a block. -/
def IsRegion (lists : ℕ → ℕ → FreeList) (jumbos : List (ℕ × Chunk)) (m : MemoryRegion) : Prop :=
  (∃ o c, ∃ b ∈ (lists o c).blocks, m = ⟨b, blockSize⟩) ∨
    ∃ x ∈ jumbos, m = ⟨x.2.addr, bigAllocSize x.2.size⟩

/-- The header of a chunk that is larger than a block. -/
structure JumboOk (cores : ℕ) (hdr : ℕ → ChunkHeader) (k : Chunk) : Prop where
  large : blockSize < k.size
  field : k.size < sizeLimit
  used : k.used = true
  size_eq : (hdr k.addr).size = k.size
  used_eq : (hdr k.addr).used = true
  id_lt : (hdr k.addr).freeListId < cores

theorem JumboOk.congr {cores : ℕ} {hdr hdr' : ℕ → ChunkHeader} {k : Chunk} (h : JumboOk cores hdr k)
    (heq : hdr' k.addr = hdr k.addr) : JumboOk cores hdr' k :=
  ⟨h.large, h.field, h.used, heq ▸ h.size_eq, heq ▸ h.used_eq, heq ▸ h.id_lt⟩

/-- The heap is in order: the free lists of all objects by object and core, and the large chunks with
their objects. -/
structure HeapShape (cores : ℕ) (gs : GlobalState) (lists : ℕ → ℕ → FreeList)
    (layout : ℕ → List Chunk) (jumbos : List (ℕ × Chunk)) : Prop where
  list : ∀ o c, ∃ chains, ListInv none ⟨gs.mem, lists o c⟩ layout chains
  only : ∀ {o c o' c' b}, b ∈ (lists o c).blocks → b ∈ (lists o' c').blocks → o' = o ∧ c' = c
  myId : ∀ o c, (lists o c).myId = c
  unused : ∀ o c, cores ≤ c → (lists o c).blocks = []
  regions : ∃ live ps chain, Regions gs live ps chain ∧ ∀ m, m ∈ live ↔ IsRegion lists jumbos m
  jumbo : ∀ x ∈ jumbos, JumboOk cores gs.mem.hdr x.2
  jumbo_eq : ∀ x ∈ jumbos, ∀ y ∈ jumbos, x.2.addr = y.2.addr → x = y
  jumbo_nodup : jumbos.Nodup
  ids : ∀ o c k, InUse (lists o c).blocks layout k → (gs.mem.hdr k.addr).freeListId = c

/-- The chunk is in use by the object. -/
def UsedBy (lists : ℕ → ℕ → FreeList) (layout : ℕ → List Chunk) (jumbos : List (ℕ × Chunk))
    (o : ℕ) (k : Chunk) : Prop :=
  (∃ c, InUse (lists o c).blocks layout k) ∨ (o, k) ∈ jumbos

/-- The chunk is in use by object `o'`, but not from the free list `c` of object `o`. -/
def UsedElsewhere (lists : ℕ → ℕ → FreeList) (layout : ℕ → List Chunk) (jumbos : List (ℕ × Chunk))
    (o c o' : ℕ) (k : Chunk) : Prop :=
  (∃ c', (o', c') ≠ (o, c) ∧ InUse (lists o' c').blocks layout k) ∨ (o', k) ∈ jumbos

/-- The chunk is in use by some object. -/
def InHeap (lists : ℕ → ℕ → FreeList) (layout : ℕ → List Chunk) (jumbos : List (ℕ × Chunk))
    (k : Chunk) : Prop := ∃ o, UsedBy lists layout jumbos o k

/-- Replace one free list. -/
def setList (lists : ℕ → ℕ → FreeList) (o c : ℕ) (fl : FreeList) : ℕ → ℕ → FreeList :=
  Function.update lists o (Function.update (lists o) c fl)

/-- The layout `layout'` in the given blocks. -/
def placed (blocks : List ℕ) (layout' layout : ℕ → List Chunk) (b : ℕ) : List Chunk :=
  if b ∈ blocks then layout' b else layout b

theorem placed_self (blocks : List ℕ) (layout : ℕ → List Chunk) : placed blocks layout layout = layout :=
  funext fun _ => ite_self _

section Lists

variable {lists : ℕ → ℕ → FreeList} {layout layout' : ℕ → List Chunk} {jumbos : List (ℕ × Chunk)}
  {o c o' c' : ℕ} {fl : FreeList} {k : Chunk} {m : MemoryRegion}

@[simp] theorem setList_self : setList lists o c fl o c = fl := by
  simp [setList]

/-- The other lists stay. -/
theorem setList_of_ne (hne : (o', c') ≠ (o, c)) : setList lists o c fl o' c' = lists o' c' := by
  by_cases ho : o' = o
  · subst ho
    have hc : c' ≠ c := fun heq => hne (by rw [heq])
    simp [setList, hc]
  · simp [setList, ho]

theorem setList_eq_self : setList lists o c (lists o c) = lists := by
  simp [setList]

theorem setList_setList (fl' : FreeList) :
    setList (setList lists o c fl) o c fl' = setList lists o c fl' := by
  simp [setList]

theorem usedBy_iff : UsedBy lists layout jumbos o' k ↔
    (o' = o ∧ InUse (lists o c).blocks layout k) ∨ UsedElsewhere lists layout jumbos o c o' k := by
  constructor
  · rintro (⟨c', hk⟩ | hk)
    · by_cases heq : (o', c') = (o, c)
      · obtain ⟨rfl, rfl⟩ := Prod.mk.inj heq
        exact .inl ⟨rfl, hk⟩
      · exact .inr (.inl ⟨c', heq, hk⟩)
    · exact .inr (.inr hk)
  · rintro (⟨rfl, hk⟩ | ⟨c', -, hk⟩ | hk)
    · exact .inl ⟨c, hk⟩
    · exact .inl ⟨c', hk⟩
    · exact .inr hk

/-- The regions in use once one list has been replaced: the blocks of the new list, those of the
other lists and those of the large chunks. -/
theorem isRegion_setList : IsRegion (setList lists o c fl) jumbos m ↔
    (∃ b ∈ fl.blocks, m = ⟨b, blockSize⟩) ∨
      (∃ o' c', (o', c') ≠ (o, c) ∧ ∃ b ∈ (lists o' c').blocks, m = ⟨b, blockSize⟩) ∨
      ∃ x ∈ jumbos, m = ⟨x.2.addr, bigAllocSize x.2.size⟩ := by
  rw [IsRegion, ← or_assoc]
  refine or_congr_left ⟨?_, ?_⟩
  · rintro ⟨o', c', b, hb, rfl⟩
    by_cases heq : (o', c') = (o, c)
    · obtain ⟨rfl, rfl⟩ := Prod.mk.inj heq
      rw [setList_self] at hb
      exact .inl ⟨b, hb, rfl⟩
    · rw [setList_of_ne heq] at hb
      exact .inr ⟨o', c', heq, b, hb, rfl⟩
  · rintro (⟨b, hb, rfl⟩ | ⟨o', c', hne, b, hb, rfl⟩)
    · exact ⟨o, c, b, by rwa [setList_self], rfl⟩
    · exact ⟨o', c', b, by rwa [setList_of_ne hne], rfl⟩

/-- The blocks of one list apart from the other regions. -/
theorem isRegion_iff (o c : ℕ) : IsRegion lists jumbos m ↔
    (∃ b ∈ (lists o c).blocks, m = ⟨b, blockSize⟩) ∨
      (∃ o' c', (o', c') ≠ (o, c) ∧ ∃ b ∈ (lists o' c').blocks, m = ⟨b, blockSize⟩) ∨
      ∃ x ∈ jumbos, m = ⟨x.2.addr, bigAllocSize x.2.size⟩ := by
  rw [← isRegion_setList, setList_eq_self]

/-- Which regions there are depends on the blocks only. -/
theorem isRegion_setList_of_blocks (hblocks : fl.blocks = (lists o c).blocks) :
    IsRegion (setList lists o c fl) jumbos m ↔ IsRegion lists jumbos m := by
  rw [isRegion_setList, hblocks, ← isRegion_iff]

/-- A list with one more block. -/
theorem isRegion_setList_of_cons {b : ℕ} (hblocks : fl.blocks = b :: (lists o c).blocks) :
    IsRegion (setList lists o c fl) jumbos m ↔ m = ⟨b, blockSize⟩ ∨ IsRegion lists jumbos m := by
  rw [isRegion_setList, hblocks, List.exists_mem_cons_iff, or_assoc, ← isRegion_iff]

/-- Chunks depend on the layout of the blocks only. -/
theorem inUse_congr {blocks : List ℕ} (heq : ∀ b ∈ blocks, layout' b = layout b) :
    InUse blocks layout' k ↔ InUse blocks layout k := by
  refine and_congr_left' (exists_congr fun b => and_congr_right fun hb => ?_)
  rw [heq b hb]

theorem inUse_placed {blocks : List ℕ} :
    InUse blocks (placed blocks layout' layout) k ↔ InUse blocks layout' k :=
  inUse_congr fun _ hb => if_pos hb

/-- A list depends on the layout of its own blocks. -/
theorem ListInv.layout_congr {flaw : Option ℕ} {s : ListState} {chains : ℕ → List ℕ}
    (h : ListInv flaw s layout chains) (heq : ∀ b ∈ s.fl.blocks, layout' b = layout b) :
    ListInv flaw s layout' chains := by
  refine ⟨h.nodup, h.aligned, fun b hb => ?_, h.family, fun i a => (h.filed i a).trans ?_⟩
  · rw [heq b hb]
    exact h.blockOk b hb
  · refine exists_congr fun k => and_congr_left' (exists_congr fun b => and_congr_right fun hb => ?_)
    rw [heq b hb]

end Lists

namespace HeapShape

variable {cores : ℕ} {gs : GlobalState} {lists : ℕ → ℕ → FreeList} {layout : ℕ → List Chunk}
  {jumbos : List (ℕ × Chunk)} {o c o' c' a : ℕ} {k k' : Chunk}

/-! ## Where the chunks lie -/

/-- The region of a byte of a block. -/
theorem owned_region (jumbos : List (ℕ × Chunk)) (hown : Owned (lists o c).blocks a) :
    ∃ m, IsRegion lists jumbos m ∧ m.Has a := by
  obtain ⟨b, hb, hlo, hhi⟩ := hown
  exact ⟨⟨b, blockSize⟩, .inl ⟨o, c, b, hb, rfl⟩, hlo, hhi⟩

section

variable (h : HeapShape cores gs lists layout jumbos)
include h

/-- The bytes of a chunk in use lie in its block. -/
theorem owned_of_inUse
    (hk : InUse (lists o c).blocks layout k) (hlo : k.addr ≤ a) (hhi : a < k.addr + k.size) :
    Owned (lists o c).blocks a := by
  obtain ⟨chains, hinv⟩ := h.list o c
  exact hinv.owned_inside hk.1 hlo hhi

theorem pos_of_inUse
    (hk : InUse (lists o c).blocks layout k) : 0 < k.size := by
  obtain ⟨chains, hinv⟩ := h.list o c
  obtain ⟨⟨b, hb, hmem⟩, -⟩ := hk
  exact ((hinv.blockOk b hb).sizes k hmem).1

theorem core_lt
    (hk : InUse (lists o c).blocks layout k) : c < cores := by
  by_contra hge
  obtain ⟨⟨b, hb, -⟩, -⟩ := hk
  rw [h.unused o c (not_lt.mp hge)] at hb
  cases hb

/-- The header of a chunk in use has its size. -/
theorem size_eq (hk : UsedBy lists layout jumbos o k) :
    gs.size k.addr = k.size := by
  rcases hk with ⟨c, ⟨b, hb, hmem⟩, -⟩ | hk
  · obtain ⟨chains, hinv⟩ := h.list o c
    exact ((hinv.blockOk b hb).describes k hmem).1
  · exact (h.jumbo _ hk).size_eq

/-- The header of a chunk in use says so, and there is room behind it. -/
theorem header_used
    (hk : UsedBy lists layout jumbos o k) : (gs.mem.hdr k.addr).used = true ∧ 8 < k.size := by
  rcases hk with ⟨c, ⟨b, hb, hmem⟩, hused⟩ | hk
  · obtain ⟨chains, hinv⟩ := h.list o c
    have hsizes := (hinv.blockOk b hb).sizes k hmem
    exact ⟨((hinv.blockOk b hb).describes k hmem).2.trans hused, by omega⟩
  · have hlarge : blockSize < k.size := (h.jumbo _ hk).large
    refine ⟨(h.jumbo _ hk).used_eq, ?_⟩
    simp only [blockSize] at hlarge
    omega

theorem size_le
    (hk : InUse (lists o c).blocks layout k) : k.size ≤ blockSize := by
  obtain ⟨chains, hinv⟩ := h.list o c
  obtain ⟨⟨b, hb, hmem⟩, -⟩ := hk
  have hbounds := (hinv.blockOk b hb).bounds hmem
  omega

/-- The region of a chunk in use elsewhere. -/
theorem region_of_elsewhere
    (hk : UsedElsewhere lists layout jumbos o c o' k) :
    0 < k.size ∧ ∃ m, IsRegion lists jumbos m ∧ (∀ b ∈ (lists o c).blocks, m ≠ ⟨b, blockSize⟩) ∧
      m.ptr ≤ k.addr ∧ k.addr + k.size ≤ m.ptr + m.size := by
  rcases hk with ⟨c', hne, hk⟩ | hk
  · obtain ⟨chains, hinv⟩ := h.list o' c'
    obtain ⟨⟨b, hb, hmem⟩, -⟩ := id hk
    refine ⟨h.pos_of_inUse hk, ⟨b, blockSize⟩, .inl ⟨o', c', b, hb, rfl⟩, fun b' hb' heq => ?_,
      (hinv.blockOk b hb).bounds hmem⟩
    obtain rfl : b = b' := congrArg MemoryRegion.ptr heq
    obtain ⟨rfl, rfl⟩ := h.only hb' hb
    exact hne rfl
  · have hjumbo := h.jumbo _ hk
    have hsize := bigBlocks_spec k.size
    rw [← bigAllocSize_eq] at hsize
    have hlarge : blockSize < k.size := hjumbo.large
    refine ⟨by omega, ⟨k.addr, bigAllocSize k.size⟩, .inr ⟨_, hk, rfl⟩, fun b _ heq => ?_, le_rfl, ?_⟩
    · have hsizes : bigAllocSize k.size = blockSize := congrArg MemoryRegion.size heq
      omega
    · show k.addr + k.size ≤ k.addr + bigAllocSize k.size
      omega

/-- A chunk in use elsewhere has no byte in common with a chunk of the list. -/
theorem elsewhere_apart {o' : ℕ} {k' : Chunk}
    (hk : UsedElsewhere lists layout jumbos o c o' k) (hk' : IsChunk (lists o c).blocks layout k') :
    k.addr + k.size ≤ k'.addr ∨ k'.addr + k'.size ≤ k.addr := by
  obtain ⟨-, m, hm, hown, hlo, hhi⟩ := h.region_of_elsewhere hk
  obtain ⟨live, ps, chain, hreg, hlive⟩ := h.regions
  obtain ⟨chains, hinv⟩ := h.list o c
  obtain ⟨b, hb, hmem⟩ := hk'
  have hbounds := (hinv.blockOk b hb).bounds hmem
  have hapart := hreg.live_apart ((hlive m).mpr hm) ((hlive _).mpr (.inl ⟨o, c, b, hb, rfl⟩))
    (hown b hb)
  dsimp only at hapart
  omega

theorem elsewhere_ne
    (hk : UsedElsewhere lists layout jumbos o c o' k) (hk' : InUse (lists o c).blocks layout k') :
    k ≠ k' := by
  rintro rfl
  have hapart := h.elsewhere_apart hk hk'.1
  have hpos := h.pos_of_inUse hk'
  omega

/-- The region of a chunk in use. -/
theorem region_of_used
    (hk : UsedBy lists layout jumbos o k) :
    0 < k.size ∧ ∃ m, IsRegion lists jumbos m ∧ m.ptr ≤ k.addr ∧
      k.addr + k.size ≤ m.ptr + m.size := by
  -- seen from a list that has no blocks
  have hk' : UsedElsewhere lists layout jumbos o cores o k :=
    (usedBy_iff.mp hk).resolve_left fun ⟨_, ⟨b, hb, _⟩, _⟩ => by
      rw [h.unused o cores le_rfl] at hb
      cases hb
  obtain ⟨hpos, m, hm, -, hin⟩ := h.region_of_elsewhere hk'
  exact ⟨hpos, m, hm, hin⟩

/-- A chunk in use lies in the mapped memory. -/
theorem used_bounds
    (hk : UsedBy lists layout jumbos o k) :
    0 < k.size ∧ baseAddress ≤ k.addr ∧ k.addr + k.size ≤ gs.limit := by
  obtain ⟨hpos, m, hm, hlo, hhi⟩ := h.region_of_used hk
  obtain ⟨live, ps, chain, hreg, hlive⟩ := h.regions
  have hbounds := hreg.live_bounds ((hlive m).mpr hm)
  omega

theorem used_true
    (hk : UsedBy lists layout jumbos o k) : k.used = true := by
  rcases hk with ⟨c, hk⟩ | hk
  · exact hk.2
  · exact (h.jumbo _ hk).used

/-- A chunk of a list has no byte in common with another chunk that is in use. -/
theorem chunk_apart
    (hk : UsedBy lists layout jumbos o' k) (hk' : IsChunk (lists o c).blocks layout k')
    (hne : k' ≠ k) : k.addr + k.size ≤ k'.addr ∨ k'.addr + k'.size ≤ k.addr := by
  rcases (usedBy_iff (o := o) (c := c)).mp hk with ⟨-, hk⟩ | hk
  · obtain ⟨chains, hinv⟩ := h.list o c
    exact hinv.disjoint hk.1 hk' hne.symm
  · exact h.elsewhere_apart hk hk'

/-- Chunks in use have no byte in common. -/
theorem used_apart
    (hk : UsedBy lists layout jumbos o k) (hk' : UsedBy lists layout jumbos o' k')
    (hne : (o, k) ≠ (o', k')) : k.addr + k.size ≤ k'.addr ∨ k'.addr + k'.size ≤ k.addr := by
  rcases hk' with ⟨c', hk'⟩ | hk'
  · rcases (usedBy_iff (o := o') (c := c')).mp hk with ⟨rfl, hk⟩ | hk
    · obtain ⟨chains, hinv⟩ := h.list o c'
      exact hinv.disjoint hk.1 hk'.1 fun heq => hne (by rw [heq])
    · exact h.elsewhere_apart hk hk'.1
  · rcases hk with ⟨c, hk⟩ | hk
    · exact (h.elsewhere_apart (.inr hk') hk.1).symm
    · obtain ⟨live, ps, chain, hreg, hlive⟩ := h.regions
      have hapart := hreg.live_apart ((hlive _).mpr (.inr ⟨_, hk, rfl⟩))
        ((hlive _).mpr (.inr ⟨_, hk', rfl⟩)) fun heq =>
          hne (h.jumbo_eq _ hk _ hk' (congrArg MemoryRegion.ptr heq))
      have hsize := bigBlocks_spec k.size
      have hsize' := bigBlocks_spec k'.size
      rw [← bigAllocSize_eq] at hsize hsize'
      dsimp only at hapart
      omega

/-- A chunk in use belongs to one object. -/
theorem used_eq (hk : UsedBy lists layout jumbos o k)
    (hk' : UsedBy lists layout jumbos o' k') (heq : k.addr = k'.addr) : o = o' ∧ k = k' := by
  by_contra hne
  have hapart := h.used_apart hk hk' fun h => hne (Prod.mk.inj h)
  have hpos := (h.used_bounds hk).1
  have hpos' := (h.used_bounds hk').1
  omega

/-- The global allocator does not hand out the bytes of a chunk in use again. -/
theorem used_not_free
    (hk : UsedBy lists layout jumbos o k) (hlo : k.addr ≤ a) (hhi : a < k.addr + k.size) :
    ¬ gs.FreeByte a := by
  obtain ⟨-, m, hm, hmlo, hmhi⟩ := h.region_of_used hk
  obtain ⟨live, ps, chain, hreg, hlive⟩ := h.regions
  exact hreg.not_free ⟨m, (hlive m).mpr hm, by omega, by omega⟩

end

/-! ## Changing one list -/

/-- Free list number `c` of object `o` is now `fl`. -/
structure Replaced (cores : ℕ) (gs : GlobalState) (lists : ℕ → ℕ → FreeList)
    (layout : ℕ → List Chunk) (jumbos : List (ℕ × Chunk)) (o c : ℕ) (mem : HeapMemory)
    (ga : GlobalAlloc) (fl : FreeList) (layout' : ℕ → List Chunk) : Prop where
  shape : HeapShape cores ⟨mem, ga⟩ (setList lists o c fl) (placed fl.blocks layout' layout) jumbos
  elsewhere : ∀ o' k, UsedElsewhere (setList lists o c fl) (placed fl.blocks layout' layout) jumbos
    o c o' k ↔ UsedElsewhere lists layout jumbos o c o' k
  keeps : ∀ o' k, UsedElsewhere lists layout jumbos o c o' k → ∀ x, k.addr ≤ x →
    x < k.addr + k.size → SameWords gs.mem mem x

namespace Replaced

variable {mem : HeapMemory} {ga : GlobalAlloc} {fl : FreeList} {layout' : ℕ → List Chunk}
  (h : Replaced cores gs lists layout jumbos o c mem ga fl layout')

include h

theorem used : UsedBy (setList lists o c fl) (placed fl.blocks layout' layout) jumbos o' k ↔
    (o' = o ∧ InUse fl.blocks layout' k) ∨ UsedElsewhere lists layout jumbos o c o' k := by
  rw [usedBy_iff (o := o) (c := c), setList_self, inUse_placed, h.elsewhere]

/-- No chunk in use elsewhere starts where a chunk in use of the list does. -/
theorem elsewhere_addr_ne (hk : UsedElsewhere lists layout jumbos o c o' k)
    (hk' : InUse fl.blocks layout' k') : k.addr ≠ k'.addr := by
  have hin : InUse (setList lists o c fl o c).blocks (placed fl.blocks layout' layout) k' := by
    rwa [setList_self, inUse_placed]
  have hapart := h.shape.elsewhere_apart ((h.elsewhere o' k).mpr hk) hin.1
  have hpos := h.shape.pos_of_inUse hin
  have hpos' := (h.shape.region_of_elsewhere ((h.elsewhere o' k).mpr hk)).1
  omega

end Replaced

section Replace

variable {mem : HeapMemory} {ga : GlobalAlloc} {fl : FreeList} {layout' : ℕ → List Chunk}
  {chains : ℕ → List ℕ} (h : HeapShape cores gs lists layout jumbos)
  (hregions : ∃ live ps chain, Regions ⟨mem, ga⟩ live ps chain ∧
    ∀ m, m ∈ live ↔ IsRegion (setList lists o c fl) jumbos m)
  (hnew : ∀ b ∈ fl.blocks, b ∈ (lists o c).blocks ∨ ∀ o' c', b ∉ (lists o' c').blocks)

include h hregions hnew

/-- The other regions lie outside the blocks of the list. -/
theorem other_region_apart {m : MemoryRegion} (hm : IsRegion lists jumbos m)
    (hother : ∀ b ∈ (lists o c).blocks, m ≠ ⟨b, blockSize⟩) (ha : m.Has a) :
    ¬ Owned fl.blocks a := by
  rintro ⟨b, hb, hlo, hhi⟩
  obtain ⟨live, ps, chain, hreg, hlive⟩ := hregions
  have hm' : m ∈ live := by
    rw [hlive, isRegion_setList]
    rcases hm with ⟨o', c', b', hb', rfl⟩ | hm
    · refine .inr (.inl ⟨o', c', fun heq => ?_, b', hb', rfl⟩)
      obtain ⟨rfl, rfl⟩ := Prod.mk.inj heq
      exact hother b' hb' rfl
    · exact .inr (.inr hm)
  have hb' : (⟨b, blockSize⟩ : MemoryRegion) ∈ live := by
    rw [hlive, isRegion_setList]
    exact .inl ⟨b, hb, rfl⟩
  have hne : m ≠ ⟨b, blockSize⟩ := by
    rcases hnew b hb with hold | hfresh
    · exact hother b hold
    · rcases hm with ⟨o', c', b', hmem, rfl⟩ | ⟨x, hx, rfl⟩
      · intro heq
        obtain rfl : b' = b := congrArg MemoryRegion.ptr heq
        exact hfresh o' c' hmem
      · intro heq
        have hsize : bigAllocSize x.2.size = blockSize := congrArg MemoryRegion.size heq
        have hlarge := (h.jumbo x hx).large
        have hblocks := bigBlocks_spec x.2.size
        rw [← bigAllocSize_eq] at hblocks
        omega
  have hapart := hreg.live_apart hm' hb' hne
  obtain ⟨hlo', hhi'⟩ := ha
  dsimp only at hapart
  omega

/-- The blocks of another list are not among the new blocks. -/
theorem other_block_not_mem (hne : (o', c') ≠ (o, c)) {b : ℕ} (hb : b ∈ (lists o' c').blocks) :
    b ∉ fl.blocks := by
  intro hmem
  rcases hnew b hmem with hold | hfresh
  · obtain ⟨rfl, rfl⟩ := h.only hold hb
    exact hne rfl
  · exact hfresh o' c' hb

/-- **A call on one free list.** It leaves the list in order, with blocks that no other list has, and
writes nothing into the other regions. -/
theorem replace (hc : c < cores) (hinv : ListInv none ⟨mem, fl⟩ layout' chains) (hid : fl.myId = c)
    (hkeep : ∀ a m, IsRegion lists jumbos m → (∀ b ∈ (lists o c).blocks, m ≠ ⟨b, blockSize⟩) →
      m.Has a → ¬ Owned fl.blocks a → SameWords gs.mem mem a)
    (hids : ∀ k, InUse fl.blocks layout' k → (mem.hdr k.addr).freeListId = c) :
    Replaced cores gs lists layout jumbos o c mem ga fl layout' := by
  have hplaced : ∀ b ∈ fl.blocks, placed fl.blocks layout' layout b = layout' b := fun b hb =>
    if_pos hb
  have hother : ∀ o' c', (o', c') ≠ (o, c) → ∀ b ∈ (lists o' c').blocks,
      placed fl.blocks layout' layout b = layout b := fun o' c' hne b hb =>
    if_neg (h.other_block_not_mem hregions hnew hne hb)
  -- the other lists keep their words
  have hwords : ∀ o' c', (o', c') ≠ (o, c) → ∀ a, Owned (lists o' c').blocks a →
      SameWords gs.mem mem a := by
    rintro o' c' hne a ⟨b, hb, hlo, hhi⟩
    have hm : IsRegion lists jumbos ⟨b, blockSize⟩ := .inl ⟨o', c', b, hb, rfl⟩
    have hown : ∀ b' ∈ (lists o c).blocks, (⟨b, blockSize⟩ : MemoryRegion) ≠ ⟨b', blockSize⟩ := by
      intro b' hb' heq
      obtain rfl : b = b' := congrArg MemoryRegion.ptr heq
      obtain ⟨rfl, rfl⟩ := h.only hb' hb
      exact hne rfl
    exact hkeep a _ hm hown ⟨hlo, hhi⟩ (h.other_region_apart hregions hnew hm hown ⟨hlo, hhi⟩)
  have helse : ∀ o' k, UsedElsewhere lists layout jumbos o c o' k → ∀ x, k.addr ≤ x →
      x < k.addr + k.size → SameWords gs.mem mem x := by
    intro o' k hk x hlo hhi
    obtain ⟨-, m, hm, hown, hmlo, hmhi⟩ := h.region_of_elsewhere hk
    have hhas : m.Has x := ⟨by omega, by omega⟩
    exact hkeep x m hm hown hhas (h.other_region_apart hregions hnew hm hown hhas)
  refine ⟨⟨fun o' c' => ?_, fun {o₁ c₁ o₂ c₂ b} hb₁ hb₂ => ?_, fun o' c' => ?_, fun o' c' hge => ?_,
    hregions, fun x hx => ?_, h.jumbo_eq, h.jumbo_nodup, fun o' c' k hk => ?_⟩, fun o' k => ?_, helse⟩
  · by_cases heq : (o', c') = (o, c)
    · obtain ⟨rfl, rfl⟩ := Prod.mk.inj heq
      rw [setList_self]
      exact ⟨chains, hinv.layout_congr hplaced⟩
    · rw [setList_of_ne heq]
      obtain ⟨chains', hinv'⟩ := h.list o' c'
      have hcongr : ListInv none ⟨mem, lists o' c'⟩ layout chains' := hinv'.congr
        (fun k ⟨b, hb, hk⟩ => (hwords o' c' heq _ (hinv'.owned hb hk)).1)
        fun i a ha => (hwords o' c' heq _ (hinv'.chain_owned ha)).2
      exact ⟨chains', hcongr.layout_congr (hother o' c' heq)⟩
  · by_cases heq₁ : (o₁, c₁) = (o, c) <;> by_cases heq₂ : (o₂, c₂) = (o, c)
    · obtain ⟨rfl, rfl⟩ := Prod.mk.inj heq₁
      exact Prod.mk.inj heq₂
    · obtain ⟨rfl, rfl⟩ := Prod.mk.inj heq₁
      rw [setList_self] at hb₁
      rw [setList_of_ne heq₂] at hb₂
      exact absurd hb₁ (h.other_block_not_mem hregions hnew heq₂ hb₂)
    · obtain ⟨rfl, rfl⟩ := Prod.mk.inj heq₂
      rw [setList_self] at hb₂
      rw [setList_of_ne heq₁] at hb₁
      exact absurd hb₂ (h.other_block_not_mem hregions hnew heq₁ hb₁)
    · rw [setList_of_ne heq₁] at hb₁
      rw [setList_of_ne heq₂] at hb₂
      exact h.only hb₁ hb₂
  · by_cases heq : (o', c') = (o, c)
    · obtain ⟨rfl, rfl⟩ := Prod.mk.inj heq
      rw [setList_self]
      exact hid
    · rw [setList_of_ne heq]
      exact h.myId o' c'
  · rw [setList_of_ne fun heq => by
      obtain ⟨rfl, rfl⟩ := Prod.mk.inj heq
      omega]
    exact h.unused o' c' hge
  · have hlarge := (h.jumbo x hx).large
    exact (h.jumbo x hx).congr (helse x.1 x.2 (.inr hx) x.2.addr le_rfl (by omega)).1
  · by_cases heq : (o', c') = (o, c)
    · obtain ⟨rfl, rfl⟩ := Prod.mk.inj heq
      rw [setList_self, inUse_congr hplaced] at hk
      exact hids k hk
    · rw [setList_of_ne heq, inUse_congr (hother o' c' heq)] at hk
      rw [(hwords o' c' heq k.addr (h.owned_of_inUse hk le_rfl (by
        have := h.pos_of_inUse hk
        omega))).1]
      exact h.ids o' c' k hk
  · refine or_congr_left (exists_congr fun c' => and_congr_right fun hne => ?_)
    rw [setList_of_ne hne, inUse_congr (hother o' c' hne)]

end Replace

end HeapShape

end Pronto
