import Pronto.Alloc.HeapShape
import Pronto.Alloc.ListRuns
import Pronto.Alloc.Pages

/-!
# Calls on the whole heap

What the operations of a free list do to the heap of which it is a part: they keep it in order
(`HeapShape`), change the chunks in use as they should, and write neither into the other chunks in use
nor at the header of another chunk's pages. The blocks come from `GlobalAlloc::alloc` itself.
-/

namespace Pronto

open Linked

theorem KeepsPayload.keepsWords {s s' : ListState} {k : Chunk} (h : KeepsPayload s s' k) :
    KeepsWords s.mem s'.mem k := fun x hlo hhi =>
  ⟨fun hlt => h.hdr_eq x hlt hhi, h.links_eq x hlo hhi⟩

/-- What a call does not touch is the same. -/
theorem Writes.sameWords {skip : Option ℕ} {s s' : ListState} (h : Writes skip s s')
    (ht : TouchedOwned s') {a : ℕ} (ha : ¬ Owned s'.fl.blocks a) : SameWords s.mem s'.mem a := by
  have hout : a ∉ s'.mem.touched := fun hmem => ha (ht a hmem)
  exact ⟨h.hdr_eq a hout, h.links_eq a hout⟩

namespace HeapShape

variable {cores : ℕ} {gs : GlobalState} {lists : ℕ → ℕ → FreeList} {layout : ℕ → List Chunk}
  {jumbos : List (ℕ × Chunk)} {o c a size : ℕ} {k : Chunk}

/-- The global allocator does not care what a list writes into its own blocks. -/
theorem regions_of_writes (h : HeapShape cores gs lists layout jumbos) {skip : Option ℕ}
    {ls : ListState} (hwrites : Writes skip ⟨gs.mem, lists o c⟩ ls) (ht : TouchedOwned ls)
    (hblocks : ls.fl.blocks = (lists o c).blocks) :
    ∃ live ps chain, Regions ⟨ls.mem, gs.ga⟩ live ps chain ∧
      ∀ m, m ∈ live ↔ IsRegion (setList lists o c ls.fl) jumbos m := by
  obtain ⟨live, ps, chain, hreg, hlive⟩ := h.regions
  refine ⟨live, ps, chain, hreg.congr fun a ha => hwrites.sameWords ht fun hown => ?_, fun m => ?_⟩
  · rw [hblocks] at hown
    obtain ⟨m, hm, hhas⟩ := owned_region jumbos hown
    exact hreg.not_node ⟨m, (hlive m).mpr hm, hhas⟩ ha
  · rw [hlive, isRegion_setList_of_blocks hblocks]

/-- A call that gets no block from the global allocator. -/
theorem replace_own (h : HeapShape cores gs lists layout jumbos) (hc : c < cores) {skip : Option ℕ}
    {ls : ListState} {layout' : ℕ → List Chunk} {chains : ℕ → List ℕ}
    (hwrites : Writes skip ⟨gs.mem, lists o c⟩ ls) (ht : TouchedOwned ls)
    (hblocks : ls.fl.blocks = (lists o c).blocks) (hinv : ListInv none ls layout' chains)
    (hids : ∀ k, InUse ls.fl.blocks layout' k → (ls.mem.hdr k.addr).freeListId = c) :
    Replaced cores gs lists layout jumbos o c ls.mem gs.ga ls.fl layout' :=
  h.replace (h.regions_of_writes hwrites ht hblocks) (fun _ hb => .inl (hblocks ▸ hb)) hc hinv
    (hwrites.myId_eq.trans (h.myId o c)) (fun _ _ _ _ _ hout => hwrites.sameWords ht hout) hids

/-- Free list number `c` of object `o` has given up the chunk `old` in use and got the chunk `new`. -/
structure ListStep (cores : ℕ) (gs : GlobalState) (lists : ℕ → ℕ → FreeList)
    (layout : ℕ → List Chunk) (jumbos : List (ℕ × Chunk)) (o c : ℕ) (old new : Option Chunk)
    (ga : GlobalAlloc) (ls : ListState) (layout' : ℕ → List Chunk) : Prop where
  shape : HeapShape cores ⟨ls.mem, ga⟩ (setList lists o c ls.fl) layout' jumbos
  touched : TouchedOwned ls
  own : ∀ k, InUse ls.fl.blocks layout' k ↔
    (InUse (lists o c).blocks layout k ∧ some k ≠ old) ∨ some k = new
  used : ∀ o' k, UsedBy (setList lists o c ls.fl) layout' jumbos o' k ↔
    (UsedBy lists layout jumbos o' k ∧ some k ≠ old) ∨ (o' = o ∧ some k = new)
  keeps : ∀ o' k, UsedBy lists layout jumbos o' k → some k ≠ old → KeepsWords gs.mem ls.mem k

/-- What a call does to its list is what it does to the heap. -/
theorem Replaced.listStep {ga : GlobalAlloc} {ls : ListState} {layout' : ℕ → List Chunk}
    {old new : Option Chunk} (hr : Replaced cores gs lists layout jumbos o c ls.mem ga ls.fl layout')
    (h : HeapShape cores gs lists layout jumbos) (ht : TouchedOwned ls)
    (hold : ∀ k, old = some k → InUse (lists o c).blocks layout k)
    (hown : ∀ k, InUse ls.fl.blocks layout' k ↔
      (InUse (lists o c).blocks layout k ∧ some k ≠ old) ∨ some k = new)
    (hkeeps : ∀ k, InUse (lists o c).blocks layout k → some k ≠ old → KeepsWords gs.mem ls.mem k) :
    ListStep cores gs lists layout jumbos o c old new ga ls (placed ls.fl.blocks layout' layout) where
  shape := hr.shape
  touched := ht
  own k := inUse_placed.trans (hown k)
  used o' k := by
    have hne : UsedElsewhere lists layout jumbos o c o' k → some k ≠ old := fun hk heq =>
      h.elsewhere_ne hk (hold k heq.symm) rfl
    rw [hr.used, hown, usedBy_iff (o := o) (c := c)]
    tauto
  keeps o' k hk hne := by
    rcases usedBy_iff.mp hk with ⟨-, hk⟩ | hk
    · exact hkeeps k hk hne
    · exact keepsWords_of_same (hr.keeps o' k hk)

/-- The chunks in the buckets start outside of the chunks in use. -/
theorem filed_apart (h : HeapShape cores gs lists layout jumbos) {o' c' i a : ℕ} {chains : ℕ → List ℕ}
    (hk : UsedBy lists layout jumbos o k) (hinv : ListInv none ⟨gs.mem, lists o' c'⟩ layout chains)
    (ha : a ∈ chains i) : a < k.addr ∨ k.addr + k.size ≤ a := by
  obtain ⟨k', hk', rfl, hfree, -⟩ := (hinv.filed i a).mp ha
  obtain ⟨b, hb, hmem⟩ := id hk'
  have hpos := ((hinv.blockOk b hb).sizes k' hmem).1
  have hapart := h.chunk_apart hk hk' fun heq => by
    rw [heq, h.used_true hk] at hfree
    cases hfree
  omega

/-! ## Writing into a chunk -/

/-- **What is stored in a chunk in use does not matter.** -/
theorem writesInto (h : HeapShape cores gs lists layout jumbos) (hk : UsedBy lists layout jumbos o k)
    {mem : HeapMemory} (hw : WritesInto gs.mem mem k) :
    HeapShape cores ⟨mem, gs.ga⟩ lists layout jumbos := by
  have hpos := (h.used_bounds hk).1
  -- no header of a chunk is written
  have hchunk : ∀ {o' c' k'}, IsChunk (lists o' c').blocks layout k' →
      mem.hdr k'.addr = gs.mem.hdr k'.addr := fun {o' c' k'} hk' => hw.hdr_eq _ (by
    by_cases hne : k' = k
    · exact .inl (hne ▸ le_rfl)
    · obtain ⟨chains, hinv⟩ := h.list o' c'
      obtain ⟨b, hb, hmem⟩ := id hk'
      have hpos' := ((hinv.blockOk b hb).sizes k' hmem).1
      have hapart := h.chunk_apart hk hk' hne
      omega)
  refine ⟨fun o' c' => ?_, h.only, h.myId, h.unused, ?_, fun x hx => ?_, h.jumbo_eq, h.jumbo_nodup,
    fun o' c' k' hk' => ?_⟩
  · obtain ⟨chains, hinv⟩ := h.list o' c'
    exact ⟨chains, hinv.congr (fun k' hk' => hchunk hk') fun i a ha =>
      hw.links_eq a (h.filed_apart hk hinv ha)⟩
  · obtain ⟨live, ps, chain, hreg, hlive⟩ := h.regions
    obtain ⟨-, m, hm, hlo, hhi⟩ := h.region_of_used hk
    refine ⟨live, ps, chain, hreg.congr fun a ha => ?_, hlive⟩
    have hout : a < k.addr ∨ k.addr + k.size ≤ a := by
      by_contra hin
      exact hreg.not_node ⟨m, (hlive m).mpr hm, by omega, by omega⟩ ha
    exact ⟨hw.hdr_eq a (by omega), hw.links_eq a hout⟩
  · refine (h.jumbo x hx).congr (hw.hdr_eq _ ?_)
    by_cases heq : k.addr = x.2.addr
    · exact .inl heq.ge
    · have hpos' := (h.used_bounds (.inr hx)).1
      have hapart := h.used_apart hk (.inr hx) fun h => heq (by rw [(Prod.mk.inj h).2])
      omega
  · rw [hchunk hk'.1]
    exact h.ids o' c' k' hk'

/-- Neither the bitmap nor the record of touched headers matters. -/
theorem congr_mem (h : HeapShape cores gs lists layout jumbos) {mem : HeapMemory}
    (hhdr : mem.hdr = gs.mem.hdr) (hlinks : mem.links = gs.mem.links) :
    HeapShape cores ⟨mem, gs.ga⟩ lists layout jumbos where
  list o' c' := by
    obtain ⟨chains, hinv⟩ := h.list o' c'
    exact ⟨chains, hinv.congr (fun k _ => congrFun hhdr _) fun i a _ =>
      ⟨congrFun (congrArg Links.prev hlinks) a, congrFun (congrArg Links.next hlinks) a⟩⟩
  only := h.only
  myId := h.myId
  unused := h.unused
  regions := by
    obtain ⟨live, ps, chain, hreg, hlive⟩ := h.regions
    exact ⟨live, ps, chain, hreg.congr fun a _ => ⟨congrFun hhdr a,
      congrFun (congrArg Links.prev hlinks) a, congrFun (congrArg Links.next hlinks) a⟩, hlive⟩
  jumbo x hx := by
    show JumboOk cores mem.hdr x.2
    rw [hhdr]
    exact h.jumbo x hx
  jumbo_eq := h.jumbo_eq
  jumbo_nodup := h.jumbo_nodup
  ids o' c' k hk := by
    show (mem.hdr k.addr).freeListId = c'
    rw [hhdr]
    exact h.ids o' c' k hk

/-! ## `alloc` -/

section Alloc

variable {ga : GlobalAlloc} {chunk : ℕ} {ls : ListState}

/-- What a new block changes: the global allocator hands it out and leaves the owners alone. -/
theorem gallocBlock_spec (h : HeapShape cores gs lists layout jumbos) {mem mem' : HeapMemory}
    (hhdr : mem.hdr = gs.mem.hdr) (hlinks : mem.links = gs.mem.links)
    (heq : gallocBlock gs.ga mem = some (chunk, ga, mem')) :
    ∃ live ps chain, Regions ⟨mem', ga⟩ (⟨chunk, blockSize⟩ :: live) ps chain ∧
      (∀ m, m ∈ live ↔ IsRegion lists jumbos m) ∧ KeepsLive live ⟨mem, gs.ga⟩ ⟨mem', ga⟩ := by
  obtain ⟨live, ps, chain, hreg, hlive⟩ := h.regions
  have hreg₁ : Regions ⟨mem, gs.ga⟩ live ps chain := hreg.congr fun a _ =>
    ⟨congrFun hhdr a, congrFun (congrArg Links.prev hlinks) a, congrFun (congrArg Links.next hlinks) a⟩
  obtain ⟨⟨ptr, s'⟩, halloc, heq⟩ := Option.map_eq_some_iff.mp heq
  obtain ⟨rfl, rfl, rfl⟩ : ptr = chunk ∧ s'.ga = ga ∧ s'.mem = mem' := by simpa using heq
  obtain ⟨ps', chain', hreg'⟩ := hreg₁.alloc (by decide) (dvd_refl _) halloc
  exact ⟨live, ps', chain', hreg', hlive, hreg₁.alloc_keeps halloc⟩

/-- The ids after a call of `alloc`. -/
theorem ids_allocated (h : HeapShape cores gs lists layout jumbos) {s' : ListState}
    {layout' : ℕ → List Chunk}
    (hresult : ∀ k, InUse s'.fl.blocks layout' k ↔
      InUse (lists o c).blocks layout k ∨ k = ⟨chunk, size, true⟩)
    (hnew : (s'.mem.hdr chunk).freeListId = c)
    (hold : ∀ k, InUse (lists o c).blocks layout k →
      (s'.mem.hdr k.addr).freeListId = (gs.mem.hdr k.addr).freeListId ∨
        (s'.mem.hdr k.addr).freeListId = c) :
    ∀ k, InUse s'.fl.blocks layout' k → (s'.mem.hdr k.addr).freeListId = c := by
  intro k hk
  rcases (hresult k).mp hk with hk | rfl
  · rcases hold k hk with heq | heq
    · rw [heq]
      exact h.ids o c k hk
    · exact heq
  · exact hnew

theorem markUsed_id (s : ListState) (chunk size : ℕ) :
    ((s.markUsed chunk size).mem.hdr chunk).freeListId = (s.markUsed chunk size).fl.myId := by
  show (Function.update s.hdr chunk _ chunk).freeListId = s.fl.myId
  rw [Function.update_self]

/-- A chunk from a block of the list. -/
theorem alloc_reused (h : HeapShape cores gs lists layout jumbos) (hc : c < cores)
    (ht : TouchedOwned ⟨gs.mem, lists o c⟩) {s₁ : ListState} {layout' : ℕ → List Chunk}
    {chains : ℕ → List ℕ}
    (hfind : ListState.findBestMatch ⟨gs.mem, lists o c⟩ size = some (chunk, s₁))
    (hblocks : (s₁.markUsed chunk size).fl.blocks = (lists o c).blocks)
    (hinv : ListInv none (s₁.markUsed chunk size) layout' chains)
    (hresult : Allocated ⟨gs.mem, lists o c⟩ layout size chunk (s₁.markUsed chunk size) layout'
      none) :
    ∃ layout', Replaced cores gs lists layout jumbos o c (s₁.markUsed chunk size).mem gs.ga
      (s₁.markUsed chunk size).fl layout' ∧
      Allocated ⟨gs.mem, lists o c⟩ layout size chunk (s₁.markUsed chunk size) layout' none := by
  have hwrites : Writes none ⟨gs.mem, lists o c⟩ (s₁.markUsed chunk size) :=
    (ListState.writes_findBestMatch hfind).trans (ListState.writes_markUsed s₁ chunk size)
  have ht' := hresult.touched ht rfl
  have hids := h.ids_allocated hresult.inUse
    (by
      rw [markUsed_id]
      exact hwrites.myId_eq.trans (h.myId o c))
    fun k hk => (hwrites.id_eq k.addr (by simp)).imp_right fun heq => heq.trans (h.myId o c)
  exact ⟨layout', h.replace_own hc hwrites ht' hblocks hinv hids, hresult⟩

/-- A new block is not yet part of the heap. -/
theorem block_fresh {block : ℕ} {gs' : GlobalState} {live : List MemoryRegion} {ps : List Piece}
    {chain : List ℕ} (hreg : Regions gs' (⟨block, blockSize⟩ :: live) ps chain)
    (hlive : ∀ m, m ∈ live ↔ IsRegion lists jumbos m) (o' c' : ℕ) : block ∉ (lists o' c').blocks :=
  fun hmem => (List.nodup_cons.mp hreg.live_nodup).1 ((hlive _).mpr (.inl ⟨o', c', block, hmem, rfl⟩))

/-- The regions once a list has the new block. -/
theorem regions_of_addBlock {block : ℕ} {mem' : HeapMemory} {fl : FreeList}
    {live : List MemoryRegion} {ps : List Piece} {chain : List ℕ}
    (hreg : Regions ⟨mem', ga⟩ (⟨block, blockSize⟩ :: live) ps chain)
    (hlive : ∀ m, m ∈ live ↔ IsRegion lists jumbos m) (hwrites : Writes none ⟨mem', fl⟩ ls)
    (ht : TouchedOwned ls) (hblocks : ls.fl.blocks = block :: (lists o c).blocks) :
    ∃ live ps chain, Regions ⟨ls.mem, ga⟩ live ps chain ∧
      ∀ m, m ∈ live ↔ IsRegion (setList lists o c ls.fl) jumbos m := by
  refine ⟨_, ps, chain, hreg.congr fun a ha => hwrites.sameWords ht fun hown => ?_, fun m => ?_⟩
  · obtain ⟨b, hb, hlo, hhi⟩ := hown
    rw [hblocks] at hb
    refine hreg.not_node ⟨⟨b, blockSize⟩, ?_, hlo, hhi⟩ ha
    rcases List.mem_cons.mp hb with rfl | hb
    · exact List.mem_cons_self
    · exact List.mem_cons_of_mem _ ((hlive _).mpr (.inl ⟨o, c, b, hb, rfl⟩))
  · rw [List.mem_cons, hlive, isRegion_setList_of_cons hblocks]

/-- A chunk from a new block. -/
theorem alloc_new (h : HeapShape cores gs lists layout jumbos) (hc : c < cores)
    (hsize : ChunkSize size) (ht : TouchedOwned ⟨gs.mem, lists o c⟩) {s₁ : ListState} {block : ℕ}
    {mem' : HeapMemory} (hread : ReadOnly ⟨gs.mem, lists o c⟩ s₁)
    (hgalloc : gallocBlock gs.ga s₁.mem = some (block, ga, mem')) :
    ∃ layout', Replaced cores gs lists layout jumbos o c
        ((ListState.addBlock ⟨mem', s₁.fl⟩ block size).markUsed block size).mem ga
        ((ListState.addBlock ⟨mem', s₁.fl⟩ block size).markUsed block size).fl layout' ∧
      Allocated ⟨gs.mem, lists o c⟩ layout size block
        ((ListState.addBlock ⟨mem', s₁.fl⟩ block size).markUsed block size) layout' none := by
  obtain ⟨hpos, h64, hle⟩ := hsize
  obtain ⟨live, ps, chain, hreg, hlive, hkeep⟩ := h.gallocBlock_spec hread.hdr_eq hread.links_eq hgalloc
  have hblocks₁ : s₁.fl.blocks = (lists o c).blocks := hread.rest.blocks_eq
  have hinLive : ∀ a, Owned s₁.fl.blocks a → InLive live a := fun a ha => by
    rw [hblocks₁] at ha
    obtain ⟨m, hm, hhas⟩ := owned_region jumbos ha
    exact ⟨m, (hlive m).mpr hm, hhas⟩
  -- neither the search nor the global allocator changes the words of the owners
  have hsame : ∀ a, InLive live a → SameWords gs.mem mem' a := fun a ha =>
    SameWords.trans ⟨congrFun hread.hdr_eq a, congrFun (congrArg Links.prev hread.links_eq) a,
      congrFun (congrArg Links.next hread.links_eq) a⟩ (hkeep.words a ha)
  obtain ⟨chains, hinv⟩ := h.list o c
  have hinv₁ := hread.listInv hinv
  have hinv₂ : ListInv none ⟨mem', s₁.fl⟩ layout chains := hinv₁.congr
    (fun k ⟨b, hb, hk⟩ => (hkeep.words _ (hinLive _ (hinv₁.owned hb hk))).1)
    fun i a ha => (hkeep.words _ (hinLive _ (hinv₁.chain_owned ha))).2
  have ht₂ : TouchedOwned ⟨mem', s₁.fl⟩ := fun a ha => by
    rw [show mem'.touched = s₁.mem.touched from hkeep.touched] at ha
    exact hread.touched ht a ha
  have hbounds := hreg.live_bounds List.mem_cons_self
  have hfresh := block_fresh hreg hlive
  obtain ⟨chains', hinv', hblocks, hresult⟩ := hinv₂.addBlock_allocated hpos h64 hle hbounds.2.2.2
    (by
      have hbase : 0 < baseAddress := by decide
      exact (hbase.trans_le hbounds.1).ne')
    (hblocks₁ ▸ hfresh o c)
  have hwrites : Writes none ⟨mem', s₁.fl⟩
      ((ListState.addBlock ⟨mem', s₁.fl⟩ block size).markUsed block size) :=
    (ListState.writes_addBlock _ block size).trans (ListState.writes_markUsed _ block size)
  have hnewId := markUsed_id (ListState.addBlock ⟨mem', s₁.fl⟩ block size) block size
  generalize (ListState.addBlock ⟨mem', s₁.fl⟩ block size).markUsed block size = s' at *
  have hmyId : s'.fl.myId = c := (hwrites.myId_eq.trans hread.rest.myId_eq).trans (h.myId o c)
  have ht' := hresult.touched ht₂ rfl
  rw [hblocks₁] at hblocks
  have hinUse : ∀ k, InUse s'.fl.blocks _ k ↔ InUse (lists o c).blocks layout k ∨ _ :=
    hblocks₁ ▸ hresult.inUse
  have hids := h.ids_allocated hinUse (hnewId.trans hmyId) fun k hk => by
    have hown := h.owned_of_inUse hk le_rfl (by
      have := h.pos_of_inUse hk
      omega)
    rw [← (hsame k.addr (hinLive _ (hblocks₁ ▸ hown))).1]
    exact (hwrites.id_eq k.addr (by simp)).imp_right fun heq =>
      (heq.trans hread.rest.myId_eq).trans (h.myId o c)
  refine ⟨_, h.replace (regions_of_addBlock hreg hlive hwrites ht' hblocks) (fun b hb => ?_) hc hinv' hmyId
    (fun a m hm _ hhas hout => (hsame a ⟨m, (hlive m).mpr hm, hhas⟩).trans
      (hwrites.sameWords ht' hout)) hids, hinUse, hblocks₁ ▸ hresult.fresh, hresult.flaw,
    fun _ _ => ht', ?_, hwrites.myId_eq.trans hread.rest.myId_eq, ?_, fun k hk => ?_⟩
  · rw [hblocks] at hb
    rcases List.mem_cons.mp hb with rfl | hb
    · exact .inr hfresh
    · exact .inl hb
  · exact (hresult.bitmap_eq.trans hkeep.bitmap).trans hread.rest.bitmap_eq
  · rw [hresult.total_eq]
    exact congrArg (· + size) hread.rest.total_eq
  · have hwords : ∀ x, k.addr ≤ x → x < k.addr + k.size → SameWords gs.mem mem' x :=
      fun x hlo hhi => hsame x (hinLive x (hblocks₁ ▸ h.owned_of_inUse hk hlo hhi))
    have hgranted : KeepsPayload ⟨gs.mem, lists o c⟩ ⟨mem', s₁.fl⟩ k :=
      ⟨fun x hlo hhi => (hwords x hlo.le hhi).1, fun x hlo hhi => (hwords x hlo hhi).2⟩
    exact hgranted.trans (hresult.keeps k (by rwa [← hblocks₁] at hk))

/-- **`alloc` of a free list.** The list gets one more chunk in use, and nothing happens to the chunks
in use of the heap. -/
theorem alloc_list (h : HeapShape cores gs lists layout jumbos) (hc : c < cores)
    (hsize : ChunkSize size) (ht : TouchedOwned ⟨gs.mem, lists o c⟩)
    (hflags : ListState.splitFlagRight ⟨gs.mem, lists o c⟩ size = true)
    (heq : ListState.alloc gallocBlock gs.ga ⟨gs.mem, lists o c⟩ size = some (chunk, ga, ls)) :
    ∃ layout', ListStep cores gs lists layout jumbos o c none (some ⟨chunk, size, true⟩) ga ls layout' ∧
      ls.mem.bitmap = gs.mem.bitmap ∧ ∀ o' k, UsedBy lists layout jumbos o' k → k.addr ≠ chunk := by
  obtain ⟨chains, hinv⟩ := h.list o c
  obtain ⟨layout', hr, hresult⟩ : ∃ layout',
      Replaced cores gs lists layout jumbos o c ls.mem ga ls.fl layout' ∧
        Allocated ⟨gs.mem, lists o c⟩ layout size chunk ls layout' none := by
    rcases ListState.findBestMatch_spec hinv hsize.1 hsize.2.1 with ⟨s₁, hfind, -, hread, -⟩ |
      ⟨chunk', s₁, layout', chains', flaw', hfind, hne, hflaw, hblocks, hinv', hresult, -⟩
    · rw [ListState.alloc, hfind] at heq
      dsimp only at heq
      rw [if_neg (by simp)] at heq
      cases hgalloc : gallocBlock gs.ga s₁.mem with
      | none => simp [hgalloc] at heq
      | some r =>
        obtain ⟨block, ga', mem'⟩ := r
        rw [hgalloc] at heq
        obtain ⟨-, heq⟩ := Option.ite_none_right_eq_some.mp heq
        cases heq
        exact h.alloc_new hc hsize ht hread hgalloc
    · rw [ListState.alloc, hfind] at heq
      dsimp only at heq
      rw [if_pos hne] at heq
      cases heq
      obtain rfl : flaw' = none := hflaw.mpr hflags
      exact h.alloc_reused hc ht hfind hblocks hinv' hresult
  refine ⟨_, hr.listStep h (hresult.touched ht rfl) (by simp) (fun k => ?_)
    (fun k hk _ => (hresult.keeps k hk).keepsWords), hresult.bitmap_eq, fun o' k hk => ?_⟩
  · rw [hresult.inUse]
    simp
  · rcases usedBy_iff.mp hk with ⟨-, hk⟩ | hk
    · exact hresult.fresh k hk
    · exact hr.elsewhere_addr_ne hk ((hresult.inUse _).mpr (.inr rfl))

end Alloc

/-! ## `dealloc` -/

section Dealloc

variable {ls : ListState}

/-- **`dealloc` of a free list.** The bytes of the chunk are now part of the free chunk `fc`. -/
theorem dealloc_list (h : HeapShape cores gs lists layout jumbos) (hc : c < cores)
    (ht : TouchedOwned ⟨gs.mem, lists o c⟩) (hk : InUse (lists o c).blocks layout k)
    (heq : ListState.dealloc ⟨gs.mem, lists o c⟩ k.addr = some ls) :
    ∃ layout' fc, ListStep cores gs lists layout jumbos o c (some k) none gs.ga ls layout' ∧
      ls.mem.bitmap = (ListState.unsetFreed gs.mem k.addr k.size fc.addr fc.size).bitmap ∧
      IsChunk (setList lists o c ls.fl o c).blocks layout' fc ∧ fc.used = false ∧
      fc.addr ≤ k.addr ∧ k.addr + k.size ≤ fc.addr + fc.size := by
  obtain ⟨chains, hinv⟩ := h.list o c
  obtain ⟨s', layout', chains', fc, hdealloc, hinv', hfreed⟩ := ListState.dealloc_spec hinv hk
    (n := ⟨k.addr + 1, k.size, true⟩) (splitFlaw_none _ _ _) rfl fun heq => by
      simpa using congrArg Chunk.addr heq
  rw [heq] at hdealloc
  obtain ⟨-, hlist⟩ := Option.ite_none_right_eq_some.mp hdealloc.symm
  cases hlist
  have hwrites : Writes none ⟨gs.mem, lists o c⟩ ls := ListState.writes_dealloc heq
  have ht' := hfreed.touched ht
  have hids : ∀ k', InUse ls.fl.blocks layout' k' → (ls.mem.hdr k'.addr).freeListId = c := by
    intro k' hk'
    rcases hwrites.id_eq k'.addr (by simp) with hid | hid
    · rw [hid]
      exact h.ids o c k' ((hfreed.inUse k').mp hk').1
    · exact hid.trans (h.myId o c)
  have hr := h.replace_own hc hwrites ht' hfreed.blocks_eq hinv' hids
  refine ⟨_, fc, hr.listStep h ht' (fun k' heq => ?_) (fun k' => ?_) fun k' hk' hne => ?_,
    hfreed.bitmap_eq, ?_, hfreed.free, hfreed.covers⟩
  · cases heq
    exact hk
  · rw [hfreed.inUse]
    simp
  · have hin := (hfreed.inUse k').mpr ⟨hk', by simpa using hne⟩
    have hkfc : k' ≠ fc := fun heq => by
      have := hin.2
      rw [heq, hfreed.free] at this
      cases this
    exact (hfreed.frame.keepsPayload (hinv'.disjoint hin.1 hfreed.isChunk hkfc)
      fun x hlo hhi => hinv.not_filed hk' hlo hhi).keepsWords
  · obtain ⟨b, hb, hmem⟩ := hfreed.isChunk
    rw [setList_self]
    exact ⟨b, hb, by rwa [placed, if_pos hb]⟩

end Dealloc

/-! ## The page bitmap -/

section Bitmap

variable {fc : Chunk} (h : HeapShape cores gs lists layout jumbos)
  (hfc : IsChunk (lists o c).blocks layout fc) (hfree : fc.used = false)

include h hfc

/-- A chunk of a list lies in the mapped memory. -/
theorem chunk_bounds : baseAddress ≤ fc.addr ∧ fc.addr + fc.size ≤ gs.limit := by
  obtain ⟨b, hb, hmem⟩ := hfc
  obtain ⟨chains, hinv⟩ := h.list o c
  have hbounds := (hinv.blockOk b hb).bounds hmem
  obtain ⟨live, ps, chain, hreg, hlive⟩ := h.regions
  have hblock := hreg.live_bounds ((hlive ⟨b, blockSize⟩).mpr (.inl ⟨o, c, b, hb, rfl⟩))
  dsimp only at hblock
  omega

include hfree

/-- A free chunk has no byte in common with a chunk in use. -/
theorem free_apart {o' : ℕ} (hk : UsedBy lists layout jumbos o' k) :
    k.addr + k.size ≤ fc.addr ∨ fc.addr + fc.size ≤ k.addr := by
  refine h.chunk_apart hk hfc ?_
  rintro rfl
  rw [h.used_true hk] at hfree
  cases hfree

/-- A page that a free chunk shares has a byte of a chunk in use. -/
theorem free_shared {page : ℕ} (hpage : fc.Overlaps page) (hshared : ¬ fc.Encloses page) :
    ∃ k, InHeap lists layout jumbos k ∧ k.Overlaps page := by
  obtain ⟨b, hb, hmem⟩ := hfc
  obtain ⟨chains, hinv⟩ := h.list o c
  obtain ⟨k, hk, hused, hover⟩ := (hinv.blockOk b hb).shared_page (hinv.aligned b hb).1 hmem hfree
    hpage hshared
  exact ⟨k, ⟨o, .inl ⟨c, ⟨b, hb, hk⟩, hused⟩⟩, hover⟩

end Bitmap

end HeapShape

end Pronto
