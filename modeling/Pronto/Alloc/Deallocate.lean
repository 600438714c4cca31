import Mathlib.Algebra.Order.BigOperators.Group.List
import Pronto.Alloc.Coalesce
import Pronto.Lib.Runs

/-!
# Well-formed lists and deallocation

A list is `WellFormed` if its blocks are laid out rightly, its buckets hold exactly the free chunks and
the counter `total_allocated` agrees with the chunks in use. `dealloc` of any chunk in use succeeds and
leaves a well-formed list in which only this chunk is no longer in use. A block without chunks in use is
a single free chunk, since no two free chunks are neighbours; so freeing the chunks of a block in any
order ends in that state.
-/

namespace Pronto

open Linked Tiling Runs

variable {s s' : ListState} {layout layout' : ℕ → List Chunk} {chains : ℕ → List ℕ}
  {blocks blocks' : List ℕ} {c : Chunk}

/-! ## Bytes in use and free bytes -/

/-- The chunks that are in use, or those that are free. -/
def chunksWith (used : Bool) (blocks : List ℕ) (layout : ℕ → List Chunk) : List Chunk :=
  (blocks.flatMap layout).filter fun k => k.used == used

/-- The bytes in use, or the free bytes. -/
def chunkBytes (used : Bool) (blocks : List ℕ) (layout : ℕ → List Chunk) : ℕ :=
  ((chunksWith used blocks layout).map Chunk.size).sum

theorem mem_chunksWith {used : Bool} :
    c ∈ chunksWith used blocks layout ↔ IsChunk blocks layout c ∧ c.used = used := by
  simp [chunksWith, IsChunk]

/-- One more chunk. -/
theorem chunkBytes_insert {used : Bool} (hnodup : (chunksWith used blocks layout).Nodup)
    (hnodup' : (chunksWith used blocks' layout').Nodup) (hc : c ∉ chunksWith used blocks layout)
    (hmem : ∀ k, k ∈ chunksWith used blocks' layout' ↔
      k ∈ chunksWith used blocks layout ∨ k = c) :
    chunkBytes used blocks' layout' = chunkBytes used blocks layout + c.size := by
  have hperm : (chunksWith used blocks' layout').Perm (c :: chunksWith used blocks layout) := by
    refine (List.perm_ext_iff_of_nodup hnodup' (List.nodup_cons.mpr ⟨hc, hnodup⟩)).mpr fun k => ?_
    rw [hmem, List.mem_cons, or_comm]
  rw [chunkBytes, (hperm.map Chunk.size).sum_eq, List.map_cons, List.sum_cons, Nat.add_comm]
  rfl

/-- One chunk in the place of another. -/
theorem chunkBytes_swap {used : Bool} (c' : Chunk)
    (hnodup : (chunksWith used blocks layout).Nodup)
    (hnodup' : (chunksWith used blocks' layout').Nodup) (hc : c ∈ chunksWith used blocks layout)
    (hc' : c' ∉ chunksWith used blocks layout)
    (hmem : ∀ k, k ∈ chunksWith used blocks' layout' ↔
      (k ∈ chunksWith used blocks layout ∧ k ≠ c) ∨ k = c') :
    chunkBytes used blocks' layout' + c.size = chunkBytes used blocks layout + c'.size := by
  have hperm := List.perm_cons_erase hc
  have hperm' : (chunksWith used blocks' layout').Perm
      (c' :: (chunksWith used blocks layout).erase c) := by
    refine (List.perm_ext_iff_of_nodup hnodup' (List.nodup_cons.mpr
      ⟨fun hmem => hc' (List.mem_of_mem_erase hmem), hnodup.erase c⟩)).mpr fun k => ?_
    rw [hmem, List.mem_cons, hnodup.mem_erase_iff]
    tauto
  rw [chunkBytes, chunkBytes, (hperm.map Chunk.size).sum_eq, (hperm'.map Chunk.size).sum_eq,
    List.map_cons, List.map_cons, List.sum_cons, List.sum_cons]
  omega

section Layout

variable {flaw : Option ℕ} (h : ListInv flaw s layout chains)

include h

/-- No chunk stands twice in the layout. -/
theorem ListInv.nodup_chunks : (s.fl.blocks.flatMap layout).Nodup := by
  refine List.nodup_flatMap.mpr ⟨fun b hb => ?_, ?_⟩
  · have hok := h.blockOk b hb
    exact (hok.tiles.nodup_starts fun x hx => (hok.sizes x hx).1).of_map
  · refine h.nodup.imp_of_mem fun {b b'} hb hb' hne => ?_
    intro k hk hk'
    exact hne (h.chunk_eq hb hb' hk hk' rfl).1

theorem ListInv.nodup_chunksWith (used : Bool) : (chunksWith used s.fl.blocks layout).Nodup :=
  h.nodup_chunks.filter _

/-- Every byte of the blocks is in use or free. -/
theorem ListInv.chunkBytes_add : chunkBytes true s.fl.blocks layout +
    chunkBytes false s.fl.blocks layout = s.fl.blocks.length * blockSize := by
  have hsplit : ∀ ks : List Chunk, ((ks.filter fun k => k.used == true).map Chunk.size).sum +
      ((ks.filter fun k => k.used == false).map Chunk.size).sum = (ks.map Chunk.size).sum := by
    intro ks
    induction ks with
    | nil => rfl
    | cons k ks ih =>
      cases hused : k.used <;> simp [hused] at ih ⊢ <;> omega
  rw [chunkBytes, chunkBytes, chunksWith, chunksWith, hsplit]
  have hok := h.blockOk
  revert hok
  induction s.fl.blocks with
  | nil => simp
  | cons b bs ih =>
    intro hok
    have hb := (hok b (by simp)).tiles.sum_size
    have hbs := ih fun x hx => hok x (by simp [hx])
    rw [List.flatMap_cons, List.map_append, List.sum_append, hbs, List.length_cons, Nat.succ_mul,
      Nat.add_comm]
    omega

end Layout

/-- The headers of a block determine its chunks. -/
theorem BlockOk.unique {flaw flaw' : Option ℕ} {hdr : ℕ → ChunkHeader} {b : ℕ} {ks ks' : List Chunk}
    (h : BlockOk flaw hdr b ks) (h' : BlockOk flaw' hdr b ks') : ks = ks' := by
  -- the headers determine the walk over the block: at each address they give size and flag of the
  -- next chunk
  have hwalk : ∀ (ks ks' : List Chunk) (a e : ℕ), Tiles Chunk.addr Chunk.size a ks e →
      Tiles Chunk.addr Chunk.size a ks' e →
      (∀ k ∈ ks, 0 < k.size ∧ (hdr k.addr).size = k.size ∧ (hdr k.addr).used = k.used) →
      (∀ k ∈ ks', 0 < k.size ∧ (hdr k.addr).size = k.size ∧ (hdr k.addr).used = k.used) →
      ks = ks' := by
    intro ks
    induction ks with
    | nil =>
      intro ks' a e htiles htiles' _ hks'
      cases ks' with
      | nil => rfl
      | cons k ks' =>
        have hle := htiles'.2.le
        have hpos := (hks' k (by simp)).1
        obtain rfl : a = e := htiles
        omega
    | cons k ks ih =>
      intro ks' a e htiles htiles' hks hks'
      cases ks' with
      | nil =>
        have hle := htiles.2.le
        have hpos := (hks k (by simp)).1
        obtain rfl : a = e := htiles'
        omega
      | cons k' ks' =>
        have haddr : k.addr = k'.addr := htiles.1.trans htiles'.1.symm
        obtain ⟨-, hsize, hused⟩ := hks k (by simp)
        obtain ⟨-, hsize', hused'⟩ := hks' k' (by simp)
        have heq : k = k' := by
          cases k
          cases k'
          simp only [Chunk.mk.injEq] at haddr hsize hused hsize' hused' ⊢
          subst haddr
          exact ⟨rfl, hsize.symm.trans hsize', hused.symm.trans hused'⟩
        subst heq
        rw [ih ks' _ e htiles.2 htiles'.2 (fun x hx => hks x (by simp [hx]))
          fun x hx => hks' x (by simp [hx])]
  exact hwalk ks ks' b _ h.tiles h'.tiles (fun k hk => ⟨(h.sizes k hk).1, h.describes k hk⟩)
    fun k hk => ⟨(h'.sizes k hk).1, h'.describes k hk⟩

/-- So do the headers of a list. -/
theorem ListInv.chunkBytes_eq {flaw flaw' : Option ℕ} {chains' : ℕ → List ℕ}
    (h : ListInv flaw s layout chains) (h' : ListInv flaw' s layout' chains') (used : Bool) :
    chunkBytes used s.fl.blocks layout = chunkBytes used s.fl.blocks layout' := by
  have hsame : ∀ b ∈ s.fl.blocks, layout b = layout' b := fun b hb =>
    (h.blockOk b hb).unique (h'.blockOk b hb)
  rw [chunkBytes, chunkBytes, chunksWith, chunksWith, List.flatMap_congr hsame]

/-! ## Well-formed lists -/

/-- The layout and the buckets are in order, and `total_allocated` counts the bytes in use. -/
structure WellFormed (s : ListState) (layout : ℕ → List Chunk) (chains : ℕ → List ℕ) : Prop extends
    ListInv none s layout chains where
  total : s.fl.totalAllocated = chunkBytes true s.fl.blocks layout

/-- A new list, over memory with any content. -/
theorem wellFormed_new (m : HeapMemory) (id : ℕ) :
    WellFormed ⟨m, .new id⟩ (fun _ => []) fun _ => [] where
  nodup := List.nodup_nil
  aligned := by simp [FreeList.new]
  blockOk := by simp [FreeList.new]
  family := ⟨fun _ => rfl, fun _ => List.nodup_nil, fun _ _ _ ha => nomatch ha⟩
  filed i a := by simp [FreeAt, IsChunk]
  total := rfl

/-- The bytes in use after a chunk has been freed. -/
theorem Freed.chunkBytes_eq {flaw flaw' : Option ℕ} {chains' : ℕ → List ℕ} {fc : Chunk}
    (hfreed : Freed s layout chains c s' layout' fc) (h : ListInv flaw s layout chains)
    (h' : ListInv flaw' s' layout' chains') (hc : InUse s.fl.blocks layout c) :
    chunkBytes true s.fl.blocks layout = chunkBytes true s'.fl.blocks layout' + c.size := by
  refine chunkBytes_insert (h'.nodup_chunksWith true) (h.nodup_chunksWith true)
    (fun hmem => ((hfreed.inUse c).mp (mem_chunksWith.mp hmem)).2 rfl) fun k => ?_
  have hiff := hfreed.inUse k
  rw [mem_chunksWith, mem_chunksWith]
  rw [InUse, InUse] at hiff
  by_cases hk : k = c
  · subst hk
    exact iff_of_true hc (.inr rfl)
  · simp only [hiff, hk, ne_eq, not_false_eq_true, and_true, or_false]

/-- The bytes in use after a chunk has been allocated. -/
theorem Allocated.chunkBytes_eq {flaw flaw' : Option ℕ} {chains' : ℕ → List ℕ} {size chunk : ℕ}
    (hresult : Allocated s layout size chunk s' layout' flaw') (h : ListInv flaw s layout chains)
    (h' : ListInv flaw' s' layout' chains') :
    chunkBytes true s'.fl.blocks layout' = chunkBytes true s.fl.blocks layout + size := by
  refine chunkBytes_insert (c := ⟨chunk, size, true⟩) (h.nodup_chunksWith true)
    (h'.nodup_chunksWith true) (fun hmem => hresult.fresh _ (mem_chunksWith.mp hmem) rfl) fun k => ?_
  rw [mem_chunksWith, mem_chunksWith]
  exact hresult.inUse k

namespace WellFormed

/-- The counter covers every chunk in use. -/
theorem size_le_total (h : WellFormed s layout chains) (hc : InUse s.fl.blocks layout c) :
    c.size ≤ s.fl.totalAllocated := by
  rw [h.total]
  exact List.single_le_sum (by simp) _ (List.mem_map_of_mem (mem_chunksWith.mpr hc))

/-- **`dealloc` of a chunk in use succeeds and leaves a well-formed list.** -/
theorem dealloc (h : WellFormed s layout chains) (hc : InUse s.fl.blocks layout c) :
    ∃ s' layout' chains' fc, s.dealloc c.addr = some s' ∧ WellFormed s' layout' chains' ∧
      Freed s layout chains c s' layout' fc := by
  obtain ⟨s', layout', chains', fc, hdealloc, hinv, hfreed⟩ :=
    ListState.dealloc_spec h.toListInv hc (n := ⟨c.addr + 1, c.size, true⟩)
      (splitFlaw_none _ _ _) rfl fun heq => by simpa using congrArg Chunk.addr heq
  rw [if_pos (h.size_le_total hc)] at hdealloc
  refine ⟨s', layout', chains', fc, hdealloc, ⟨hinv, ?_⟩, hfreed⟩
  rw [hfreed.total_eq, h.total, hfreed.chunkBytes_eq h.toListInv hinv hc, Nat.add_sub_cancel]

/-- Chunks in use are freed one after the other, in any order. -/
theorem deallocs {cs : List Chunk} (h : WellFormed s layout chains) (hnodup : cs.Nodup)
    (hcs : ∀ c ∈ cs, InUse s.fl.blocks layout c) :
    ∃ s' layout' chains', run ListState.dealloc s (cs.map Chunk.addr) = some s' ∧
      WellFormed s' layout' chains' ∧ s'.fl.blocks = s.fl.blocks ∧
      ∀ k, InUse s'.fl.blocks layout' k ↔ InUse s.fl.blocks layout k ∧ k ∉ cs := by
  induction cs generalizing s layout chains with
  | nil => exact ⟨s, layout, chains, rfl, h, rfl, by simp⟩
  | cons c cs ih =>
    obtain ⟨hc, hnodup⟩ := List.nodup_cons.mp hnodup
    obtain ⟨s₁, layout₁, chains₁, fc, hdealloc, h₁, hfreed⟩ := h.dealloc (hcs c (by simp))
    have hcs₁ : ∀ k ∈ cs, InUse s₁.fl.blocks layout₁ k := fun k hk =>
      (hfreed.inUse k).mpr ⟨hcs k (by simp [hk]), ne_of_mem_of_not_mem hk hc⟩
    obtain ⟨s', layout', chains', hrun, h', hblocks, hinUse⟩ := ih h₁ hnodup hcs₁
    refine ⟨s', layout', chains', run_cons.mpr ⟨s₁, hdealloc, hrun⟩, h',
      hblocks.trans hfreed.blocks_eq, fun k => ?_⟩
    rw [hinUse, hfreed.inUse, List.mem_cons, not_or, and_assoc]

end WellFormed

/-- A block without chunks in use is one free chunk. -/
theorem BlockOk.all_free {hdr : ℕ → ChunkHeader} {b : ℕ} {ks : List Chunk}
    (h : BlockOk none hdr b ks) (hfree : ∀ k ∈ ks, k.used = false) :
    ks = [⟨b, blockSize, false⟩] := by
  match ks, h, hfree with
  | [], h, _ =>
    have htiles : b = b + blockSize := h.tiles
    have hpos : 0 < blockSize := by decide
    omega
  | [⟨addr, size, used⟩], h, hfree =>
    obtain ⟨haddr, hsize⟩ : addr = b ∧ b + size = b + blockSize := h.tiles
    obtain rfl : used = false := hfree ⟨addr, size, used⟩ (by simp)
    rw [haddr, Nat.add_left_cancel hsize]
  | k :: k' :: ks, h, hfree =>
    -- two neighbours cannot both be free
    have hpair : Neighbours none hdr k k' := (List.isChain_cons_cons.mp h.pairs).1
    rcases (hpair.resolve_left (by simp)).2 with hused | hused
    · simp [hfree k (by simp)] at hused
    · simp [hfree k' (by simp)] at hused

/-- **Deallocation keeps lists well formed.** `dealloc` of a chunk in use turns its bytes into free
ones and leaves the other chunks in use alone; freeing all chunks of a block, in any order, leaves one
free chunk in the last bucket. -/
theorem dealloc_wellFormed (h : WellFormed s layout chains) :
    (∀ c, InUse s.fl.blocks layout c →
      ∃ s' layout' chains' fc, s.dealloc c.addr = some s' ∧ WellFormed s' layout' chains' ∧
        (IsChunk s'.fl.blocks layout' fc ∧ fc.used = false ∧ fc.addr ≤ c.addr ∧
          c.addr + c.size ≤ fc.addr + fc.size) ∧
        (∀ k, InUse s'.fl.blocks layout' k ↔ InUse s.fl.blocks layout k ∧ k ≠ c) ∧
        s'.fl.blocks = s.fl.blocks ∧
        chunkBytes false s'.fl.blocks layout' = chunkBytes false s.fl.blocks layout + c.size) ∧
    ∀ b ∈ s.fl.blocks, ∀ cs : List Chunk, cs.Nodup →
      (∀ k, k ∈ cs ↔ k ∈ layout b ∧ k.used = true) →
      ∃ s' layout' chains', run ListState.dealloc s (cs.map Chunk.addr) = some s' ∧
        WellFormed s' layout' chains' ∧ layout' b = [⟨b, blockSize, false⟩] ∧
        b ∈ chains' (totalAllocBuckets - 1) := by
  refine ⟨fun c hc => ?_, fun b hb cs hnodup hcs => ?_⟩
  · obtain ⟨s', layout', chains', fc, hdealloc, h', hfreed⟩ := h.dealloc hc
    refine ⟨s', layout', chains', fc, hdealloc, h', ⟨hfreed.isChunk, hfreed.free, hfreed.covers⟩,
      hfreed.inUse, hfreed.blocks_eq, ?_⟩
    have hbytes := h.chunkBytes_add
    have hbytes' := h'.chunkBytes_add
    have htotal := hfreed.total_eq
    have hle := h.size_le_total hc
    rw [h.total] at hle
    rw [h'.total, h.total] at htotal
    rw [hfreed.blocks_eq] at hbytes' htotal ⊢
    omega
  · obtain ⟨s', layout', chains', hrun, h', hblocks, hinUse⟩ :=
      h.deallocs hnodup fun c hc => ⟨⟨b, hb, ((hcs c).mp hc).1⟩, ((hcs c).mp hc).2⟩
    have hb' : b ∈ s'.fl.blocks := hblocks ▸ hb
    have hok' := h'.blockOk b hb'
    have hfree : ∀ k ∈ layout' b, k.used = false := by
      intro k hk
      by_contra hused
      obtain ⟨⟨⟨b₀, hb₀, hk₀⟩, hused⟩, hnot⟩ :=
        (hinUse k).mp ⟨⟨b, hb', hk⟩, by simpa using hused⟩
      have hok₀ := h.blockOk b₀ hb₀
      obtain rfl : b₀ = b := h.block_eq hb₀ hb ⟨(hok₀.bounds hk₀).1, hok₀.addr_lt hk₀⟩
        ⟨(hok'.bounds hk).1, hok'.addr_lt hk⟩
      exact hnot ((hcs k).mpr ⟨hk₀, hused⟩)
    have hlayout := hok'.all_free hfree
    refine ⟨s', layout', chains', hrun, h', hlayout, ?_⟩
    have hbucket : findBucket blockSize = totalAllocBuckets - 1 := by decide
    refine (h'.filed _ b).mpr ⟨⟨b, blockSize, false⟩, ⟨b, hb', ?_⟩, rfl, rfl, hbucket⟩
    rw [hlayout]
    simp

/-- A list with one block, the first 128 bytes of which are in use. -/
def oneChunkList : ListState :=
  (ListState.addBlock ⟨.blank, .new 1⟩ blockSize 0x80).markUsed blockSize 0x80

theorem wellFormed_oneChunkList : ∃ chains, WellFormed oneChunkList
    (Function.update (fun _ => []) blockSize (newLayout blockSize 0x80)) chains := by
  obtain ⟨chains, hinv, -, -⟩ := (wellFormed_new .blank 1).toListInv.addBlock_allocated
    (show 0 < 0x80 by decide) (by decide) (by decide) (show blockSize % blockSize = 0 by decide)
    (by decide) (by simp [FreeList.new])
  exact ⟨chains, hinv, by decide⟩

/-- Its only chunk in use is the first one. -/
theorem inUse_oneChunkList {k : Chunk} : InUse oneChunkList.fl.blocks
    (Function.update (fun _ => []) blockSize (newLayout blockSize 0x80)) k ↔
      k = ⟨blockSize, 0x80, true⟩ := by
  have hlayout : newLayout blockSize 0x80 =
      [⟨blockSize, 0x80, true⟩, ⟨blockSize + 0x80, blockSize - 0x80, false⟩] := if_pos (by decide)
  rw [InUse, IsChunk, show oneChunkList.fl.blocks = [blockSize] from rfl]
  simp only [exists_eq_left, Function.update_self, hlayout, List.mem_cons, List.not_mem_nil, or_false]
  constructor
  · rintro ⟨rfl | rfl, hused⟩
    · rfl
    · cases hused
  · rintro rfl
    exact ⟨.inl rfl, rfl⟩

/-- A second chunk is cut from the free one; then both are freed, the first one first. -/
theorem dealloc_two_chunks :
    ∃ a s, oneChunkList.alloc (fun _ _ => none) () 0x40 = some (a, (), s) ∧
      ∃ s' layout' chains', run ListState.dealloc s [blockSize, a] = some s' ∧
        WellFormed s' layout' chains' ∧ layout' blockSize = [⟨blockSize, blockSize, false⟩] := by
  obtain ⟨chains, h⟩ := wellFormed_oneChunkList
  have hsome : (oneChunkList.alloc (fun _ _ => none) () 0x40).isSome = true := by decide +kernel
  rcases ListState.alloc_spec (fun _ _ => none) () h.toListInv (show 0 < 0x40 by decide) (by decide) with
    ⟨a, s, layout, chains', flaw', halloc, -, hflaw, hblocks, hinv, hresult⟩ | ⟨s₁, -, -, halloc⟩
  · obtain rfl : flaw' = none := hflaw.mpr (by decide +kernel)
    have hblocks : s.fl.blocks = [blockSize] := hblocks
    have hwf : WellFormed s layout chains' :=
      ⟨hinv, by rw [hresult.total_eq, h.total, hresult.chunkBytes_eq h.toListInv hinv]⟩
    have hfresh : blockSize ≠ a := hresult.fresh _ (inUse_oneChunkList.mpr rfl)
    obtain ⟨s', layout', chains'', hrun, h', hlayout, -⟩ := (dealloc_wellFormed hwf).2 blockSize
      (by simp [hblocks]) [⟨blockSize, 0x80, true⟩, ⟨a, 0x40, true⟩] (by simp [hfresh]) (fun k => by
        have hinUse := hresult.inUse k
        rw [inUse_oneChunkList, InUse, IsChunk, hblocks] at hinUse
        simp only [List.mem_cons, List.not_mem_nil, or_false, exists_eq_left] at hinUse ⊢
        exact hinUse.symm)
    exact ⟨a, s, halloc, s', layout', chains'', hrun, h', hlayout⟩
  · rw [halloc] at hsome
    cases hsome

end Pronto
