import Mathlib.Data.List.Chain
import Pronto.Alloc.FreeList
import Pronto.Lib.Tiling

/-!
# The layout of blocks

`BlockOk` says that the headers of a block describe the chunks `ks`: the chunks tile the block, the
flag `last` marks the one that ends it, `prev_offset` leads to the predecessor, and no two neighbours
are free. One chunk, the `flaw`, may be excepted from what its flag implies.

An operation replaces a few neighbouring chunks by others. `BlockOk.replace` is the rule for that: a
block `L ++ W ++ R` becomes `L ++ W' ++ R`, where only the headers of `W'` and the `prev_offset` of
the first chunk of `R` are written. `ListInv` adds that the buckets file exactly the free chunks.
-/

namespace Pronto

open Function Linked Tiling

/-- A chunk of a block. -/
structure Chunk where
  addr : ℕ
  size : ℕ
  used : Bool
deriving DecidableEq, Repr

/-- What the headers say about two neighbours. -/
def Neighbours (flaw : Option ℕ) (hdr : ℕ → ChunkHeader) (k k' : Chunk) : Prop :=
  flaw = some k.addr ∨
    ((hdr k'.addr).prevOffset = chunkOffset k.addr ∧ (k.used = true ∨ k'.used = true))

/-- The headers of the block at `b` describe the chunks `ks`. -/
structure BlockOk (flaw : Option ℕ) (hdr : ℕ → ChunkHeader) (b : ℕ) (ks : List Chunk) : Prop where
  tiles : Tiles Chunk.addr Chunk.size b ks (b + blockSize)
  sizes : ∀ k ∈ ks, 0 < k.size ∧ k.size % 64 = 0
  describes : ∀ k ∈ ks, (hdr k.addr).size = k.size ∧ (hdr k.addr).used = k.used
  last : ∀ k ∈ ks, flaw ≠ some k.addr →
    (hdr k.addr).last = decide (k.addr + k.size = b + blockSize)
  pairs : ks.IsChain (Neighbours flaw hdr)

namespace BlockOk

variable {flaw flaw' : Option ℕ} {hdr hdr' : ℕ → ChunkHeader} {b : ℕ} {ks L W W' R : List Chunk}
  {k p n : Chunk}

theorem bounds (h : BlockOk flaw hdr b ks) (hk : k ∈ ks) :
    b ≤ k.addr ∧ k.addr + k.size ≤ b + blockSize := h.tiles.mem_bounds hk

theorem addr_lt (h : BlockOk flaw hdr b ks) (hk : k ∈ ks) : k.addr < b + blockSize := by
  have hbounds := h.bounds hk
  have hpos := (h.sizes k hk).1
  omega

theorem size_le (h : BlockOk flaw hdr b ks) (hk : k ∈ ks) : k.size ≤ blockSize := by
  have hbounds := h.bounds hk
  omega

theorem addr_mod (h : BlockOk flaw hdr b ks) (hb : b % blockSize = 0) (hk : k ∈ ks) :
    k.addr % 64 = 0 := by
  refine (h.tiles.aligned ?_ fun x hx => (h.sizes x hx).2).2 k hk
  dsimp only [blockSize] at hb
  omega

/-- Chunks of one block that start at the same place are the same. -/
theorem eq_of_addr_eq (h : BlockOk flaw hdr b ks) (hk : k ∈ ks) (hp : p ∈ ks)
    (heq : k.addr = p.addr) : k = p :=
  List.inj_on_of_nodup_map (h.tiles.nodup_starts fun x hx => (h.sizes x hx).1) hk hp heq

/-- A block with fewer exceptions. -/
theorem mono (h : BlockOk flaw hdr b ks) (hflaw : ∀ a, flaw = some a → flaw' = some a) :
    BlockOk flaw' hdr b ks where
  tiles := h.tiles
  sizes := h.sizes
  describes := h.describes
  last k hk hne := h.last k hk fun heq => hne (hflaw _ heq)
  pairs := h.pairs.imp fun _ _ hpair => hpair.imp_left (hflaw _)

/-- A block depends on the headers of its chunks, without the `prev_offset` of the first. -/
theorem congr (h : BlockOk flaw hdr b ks)
    (hkeep : ∀ k ∈ ks, (hdr' k.addr).size = (hdr k.addr).size ∧
      (hdr' k.addr).used = (hdr k.addr).used ∧ (hdr' k.addr).last = (hdr k.addr).last)
    (hprev : ∀ k ∈ ks.tail, (hdr' k.addr).prevOffset = (hdr k.addr).prevOffset) :
    BlockOk flaw hdr' b ks where
  tiles := h.tiles
  sizes := h.sizes
  describes k hk := by
    obtain ⟨hsize, hused, -⟩ := hkeep k hk
    rw [hsize, hused]
    exact h.describes k hk
  last k hk hne := (hkeep k hk).2.2.trans (h.last k hk hne)
  pairs := h.pairs.imp_of_mem_tail_imp fun k k' _ hk' hpair => by
    unfold Neighbours at hpair ⊢
    rwa [hprev k' hk']

/-- Replacing the chunks `W` by `W'`, which fill the same range. -/
theorem replace (h : BlockOk flaw hdr b (L ++ W ++ R)) {a e : ℕ}
    (hW : Tiles Chunk.addr Chunk.size a W e) (hW' : Tiles Chunk.addr Chunk.size a W' e)
    (hne : W ≠ [])
    (hsizes : ∀ k ∈ W', 0 < k.size ∧ k.size % 64 = 0)
    (hdescribes : ∀ k ∈ W', (hdr' k.addr).size = k.size ∧ (hdr' k.addr).used = k.used)
    (hlast : ∀ k ∈ W', flaw' ≠ some k.addr →
      (hdr' k.addr).last = decide (k.addr + k.size = b + blockSize))
    (hkeep : ∀ k ∈ L ++ R, (hdr' k.addr).size = (hdr k.addr).size ∧
      (hdr' k.addr).used = (hdr k.addr).used ∧ (hdr' k.addr).last = (hdr k.addr).last)
    (hprev : ∀ k ∈ L ++ R.tail, (hdr' k.addr).prevOffset = (hdr k.addr).prevOffset)
    (hflaw : ∀ a, flaw = some a → flaw' = some a)
    (hpairs : W'.IsChain (Neighbours flaw' hdr'))
    (hleft : ∀ x ∈ L.getLast?, ∀ y ∈ W'.head?, Neighbours flaw' hdr' x y)
    (hright : ∀ x ∈ W'.getLast?, ∀ y ∈ R.head?, Neighbours flaw' hdr' x y) (hne' : W' ≠ []) :
    BlockOk flaw' hdr' b (L ++ W' ++ R) := by
  have hsplit : ∀ k ∈ L ++ W' ++ R, k ∈ W' ∨ k ∈ L ++ R := by
    intro k hk
    rcases List.mem_append.mp hk with hk | hk
    · rcases List.mem_append.mp hk with hk | hk
      · exact .inr (List.mem_append_left R hk)
      · exact .inl hk
    · exact .inr (List.mem_append_right L hk)
  have hold : ∀ k ∈ L ++ R, k ∈ L ++ W ++ R := by
    intro k hk
    rcases List.mem_append.mp hk with hk | hk <;> simp [hk]
  refine ⟨?_, fun k hk => ?_, fun k hk => ?_, fun k hk hk' => ?_, ?_⟩
  · obtain ⟨e', hLW, hR⟩ := tiles_append.mp h.tiles
    obtain ⟨a', hL, hW₀⟩ := tiles_append.mp hLW
    obtain ⟨w, ws, rfl⟩ := List.exists_cons_of_ne_nil hne
    obtain rfl : a = a' := hW.1.symm.trans hW₀.1
    obtain rfl : e = e' := hW.end_unique hW₀
    exact (hL.append hW').append hR
  · rcases hsplit k hk with hk | hk
    · exact hsizes k hk
    · exact h.sizes k (hold k hk)
  · rcases hsplit k hk with hk | hk
    · exact hdescribes k hk
    · obtain ⟨hsize, hused, -⟩ := hkeep k hk
      rw [hsize, hused]
      exact h.describes k (hold k hk)
  · rcases hsplit k hk with hk | hk
    · exact hlast k hk hk'
    · rw [(hkeep k hk).2.2]
      exact h.last k (hold k hk) fun heq => hk' (hflaw _ heq)
  · obtain ⟨hLWc, hRc, -⟩ := List.isChain_append.mp h.pairs
    have hLc := hLWc.left_of_append
    -- the pairs inside `L` and inside `R` are unchanged
    have hmono : ∀ k k' : Chunk, k' ∈ L ++ R.tail → Neighbours flaw hdr k k' →
        Neighbours flaw' hdr' k k' := by
      intro k k' hk' hpair
      unfold Neighbours at hpair ⊢
      rw [hprev k' hk']
      exact hpair.imp_left (hflaw _)
    refine List.isChain_append.mpr ⟨List.isChain_append.mpr ⟨?_, hpairs, hleft⟩, ?_, ?_⟩
    · exact hLc.imp_of_mem_imp fun k k' _ hk' => hmono k k' (List.mem_append_left _ hk')
    · exact hRc.imp_of_mem_tail_imp fun k k' _ hk' => hmono k k' (List.mem_append_right _ hk')
    · rw [List.getLast?_append_of_ne_nil L hne']
      exact hright

/-- Where the chunks around a segment stand. -/
theorem around (h : BlockOk flaw hdr b (L ++ W ++ R)) {a e : ℕ}
    (hW : Tiles Chunk.addr Chunk.size a W e) (hne : W ≠ []) :
    (b ≤ a ∧ a < e ∧ e ≤ b + blockSize) ∧ (∀ x ∈ L, b ≤ x.addr ∧ x.addr < a) ∧
      (∀ x ∈ R.head?, x.addr = e) ∧ (∀ x ∈ R.tail, e < x.addr) ∧ (R = [] ↔ e = b + blockSize) := by
  obtain ⟨e', hLW, hR⟩ := tiles_append.mp h.tiles
  obtain ⟨a', hL, hW₀⟩ := tiles_append.mp hLW
  obtain ⟨w, ws, rfl⟩ := List.exists_cons_of_ne_nil hne
  obtain rfl : a = a' := hW.1.symm.trans hW₀.1
  obtain rfl : e = e' := hW.end_unique hW₀
  have hwpos := (h.sizes w (by simp)).1
  have hws := hW.2.le
  have hL' := hL.le
  have hR' := hR.le
  refine ⟨⟨hL', by omega, hR'⟩, fun x hx => ?_, ?_⟩
  · have hbounds := hL.mem_bounds hx
    have hpos := (h.sizes x (by simp [hx])).1
    exact ⟨hbounds.1, by omega⟩
  cases R with
  | nil => exact ⟨by simp, by simp, fun _ => hR, fun _ => rfl⟩
  | cons n R =>
    -- chunks are not empty, so only the first one starts at `e`
    have hn : n.addr = e := hR.1
    have hnpos := (h.sizes n (by simp)).1
    have hn' := hR.2.le
    refine ⟨fun x hx => ?_, fun x hx => ?_, ?_⟩
    · obtain rfl : n = x := by simpa using hx
      exact hn
    · have hle := (hR.2.mem_bounds (x := x) hx).1
      omega
    · simp only [reduceCtorEq, false_iff]
      omega

/-- Replacing the chunks `W`, which fill the range from `a` to `e`, by writing headers in this range
and the `prev_offset` of the header at `e`. -/
theorem edit (h : BlockOk flaw hdr b (L ++ W ++ R)) {a e : ℕ}
    (hW : Tiles Chunk.addr Chunk.size a W e) (hW' : Tiles Chunk.addr Chunk.size a W' e)
    (hne : W ≠ []) (hne' : W' ≠ [])
    (hsizes : ∀ k ∈ W', 0 < k.size ∧ k.size % 64 = 0)
    (hdescribes : ∀ k ∈ W', (hdr' k.addr).size = k.size ∧ (hdr' k.addr).used = k.used)
    (hlast : ∀ k ∈ W', flaw' ≠ some k.addr →
      (hdr' k.addr).last = decide (k.addr + k.size = b + blockSize))
    (hout : ∀ x, x < a ∨ e < x → hdr' x = hdr x)
    (hend : (hdr' e).size = (hdr e).size ∧ (hdr' e).used = (hdr e).used ∧
      (hdr' e).last = (hdr e).last)
    (hflaw : ∀ a, flaw = some a → flaw' = some a)
    (hpairs : W'.IsChain (Neighbours flaw' hdr'))
    (hleft : ∀ x ∈ L.getLast?, ∀ y ∈ W'.head?, Neighbours flaw' hdr' x y)
    (hright : ∀ x ∈ W'.getLast?, ∀ y ∈ R.head?, Neighbours flaw' hdr' x y) :
    BlockOk flaw' hdr' b (L ++ W' ++ R) := by
  obtain ⟨-, hLpos, hhead, htail, -⟩ := h.around hW hne
  refine h.replace hW hW' hne hsizes hdescribes hlast (fun k hk => ?_) (fun k hk => ?_) hflaw
    hpairs hleft hright hne'
  · rcases List.mem_append.mp hk with hk | hk
    · rw [hout k.addr (.inl (hLpos k hk).2)]
      exact ⟨rfl, rfl, rfl⟩
    · cases R with
      | nil => cases hk
      | cons n R =>
        rcases List.mem_cons.mp hk with rfl | hk
        · rw [hhead k rfl]
          exact hend
        · rw [hout k.addr (.inr (htail k hk))]
          exact ⟨rfl, rfl, rfl⟩
  · rcases List.mem_append.mp hk with hk | hk
    · rw [hout k.addr (.inl (hLpos k hk).2)]
    · rw [hout k.addr (.inr (htail k hk))]

/-- The pair at the left border of a segment. -/
theorem left_pair (h : BlockOk flaw hdr b (L ++ W ++ R)) {x y : Chunk} (hx : x ∈ L.getLast?)
    (hy : y ∈ W.head?) : Neighbours flaw hdr x y :=
  (List.isChain_append.mp (List.isChain_append.mp h.pairs).1).2.2 x hx y hy

/-- The pair at the right border of a segment. -/
theorem right_pair (h : BlockOk flaw hdr b (L ++ W ++ R)) (hne : W ≠ []) {x y : Chunk}
    (hx : x ∈ W.getLast?) (hy : y ∈ R.head?) : Neighbours flaw hdr x y :=
  (List.isChain_append.mp h.pairs).2.2 x (by rwa [List.getLast?_append_of_ne_nil L hne]) y hy

/-! ### Walking to the neighbours -/

/-- Where a chunk of the block stands relative to the block. -/
theorem mod_addr (h : BlockOk flaw hdr b ks) (hb : b % blockSize = 0) (hk : k ∈ ks) :
    k.addr % blockSize = k.addr - b := by
  have hlo := (h.bounds hk).1
  have hhi := h.addr_lt hk
  dsimp only [blockSize] at *
  omega

variable {s : ListState}

/-- `nextChunk` finds the successor. -/
theorem nextChunk_eq (h : BlockOk flaw s.mem.hdr b (L ++ k :: R)) (hk : flaw ≠ some k.addr) :
    s.nextChunk k.addr = (R.head?.map Chunk.addr).getD 0 := by
  have hmem : k ∈ L ++ k :: R := by simp
  obtain ⟨m, -, hstart, hR⟩ := tiles_append.mp h.tiles
  have hlast := h.last k hmem hk
  have hsize := (h.describes k hmem).1
  rw [ListState.nextChunk, ListState.hdr, hlast, hsize]
  cases R with
  | nil =>
    have hend : k.addr + k.size = b + blockSize := hstart ▸ hR
    simp [hend]
  | cons n R =>
    have haddr : n.addr = k.addr + k.size := hstart ▸ hR.1
    have hlt := h.addr_lt (k := n) (by simp)
    have hne : ¬ k.addr + k.size = b + blockSize := by omega
    simp [hne, haddr]

/-- `prevChunk` goes where `prev_offset` leads. -/
theorem prevChunk_of_offset (h : BlockOk flaw s.mem.hdr b ks) (hb : b % blockSize = 0) (hk : k ∈ ks)
    (hp : p ∈ ks) (hlt : p.addr < k.addr)
    (hprev : (s.hdr k.addr).prevOffset = chunkOffset p.addr) : s.prevChunk k.addr = p.addr := by
  have hmod := h.mod_addr hb hk
  have h64 := h.addr_mod hb hk
  have hpmod := h.mod_addr hb hp
  have hp64 := h.addr_mod hb hp
  have hlo := (h.bounds hp).1
  have hoff : chunkOffset k.addr ≠ 0 := by
    unfold chunkOffset
    rw [hmod]
    dsimp only [blockSize] at hb
    omega
  rw [ListState.prevChunk, if_neg hoff, hprev, chunkOffset, chunkOffset, hmod, hpmod]
  dsimp only [blockSize] at hb
  omega

/-- `prevChunk` finds the predecessor. -/
theorem prevChunk_eq (h : BlockOk flaw s.mem.hdr b (L ++ k :: R)) (hb : b % blockSize = 0)
    (hL : ∀ p ∈ L.getLast?, flaw ≠ some p.addr) :
    s.prevChunk k.addr = (L.getLast?.map Chunk.addr).getD 0 := by
  have hmem : k ∈ L ++ k :: R := by simp
  rcases List.eq_nil_or_concat L with rfl | ⟨L, p, rfl⟩
  · have haddr : k.addr = b := h.tiles.1
    have hoff : chunkOffset k.addr = 0 := by
      unfold chunkOffset
      rw [h.mod_addr hb hmem, haddr, Nat.sub_self, Nat.zero_div]
    unfold ListState.prevChunk
    rw [if_pos hoff]
    rfl
  · rw [List.concat_eq_append] at h hmem hL ⊢
    have hpmem : p ∈ L ++ [p] ++ k :: R := by simp
    have hpair : Neighbours flaw s.mem.hdr p k :=
      (List.isChain_append.mp h.pairs).2.2 p (by simp) k rfl
    have hpos := (h.sizes p hpmem).1
    have hpk : p.addr + p.size ≤ k.addr := h.tiles.around.1 p (by simp)
    rw [h.prevChunk_of_offset hb hmem hpmem (by omega) (hpair.resolve_left (hL p (by simp))).1]
    simp

end BlockOk

/-! ## The blocks and the buckets of a list -/

/-- The address lies in a block of the list. -/
def Owned (blocks : List ℕ) (a : ℕ) : Prop := ∃ b ∈ blocks, b ≤ a ∧ a < b + blockSize

/-- A chunk of one of the blocks. -/
def IsChunk (blocks : List ℕ) (layout : ℕ → List Chunk) (k : Chunk) : Prop :=
  ∃ b ∈ blocks, k ∈ layout b

/-- The address starts a free chunk that belongs into the bucket. -/
def FreeAt (blocks : List ℕ) (layout : ℕ → List Chunk) (bucket a : ℕ) : Prop :=
  ∃ k, IsChunk blocks layout k ∧ k.addr = a ∧ k.used = false ∧ findBucket k.size = bucket

/-- The blocks of a list have the given layout, and the buckets file exactly the free chunks. -/
structure ListInv (flaw : Option ℕ) (s : ListState) (layout : ℕ → List Chunk)
    (chains : ℕ → List ℕ) : Prop where
  nodup : s.fl.blocks.Nodup
  aligned : ∀ b ∈ s.fl.blocks, b % blockSize = 0 ∧ b ≠ 0
  blockOk : ∀ b ∈ s.fl.blocks, BlockOk flaw s.mem.hdr b (layout b)
  family : Family s.mem.links s.fl.buckets chains
  filed : ∀ i a, a ∈ chains i ↔ FreeAt s.fl.blocks layout i a

/-- The headers outside the block at `b` are unchanged, except for the `prev_offset` of the first
chunk of another block. -/
def SameOutside (b : ℕ) (hdr hdr' : ℕ → ChunkHeader) : Prop :=
  ∀ a, ¬ (b ≤ a ∧ a < b + blockSize) → (hdr' a).size = (hdr a).size ∧
    (hdr' a).used = (hdr a).used ∧ (hdr' a).last = (hdr a).last ∧
    (a % blockSize ≠ 0 → (hdr' a).prevOffset = (hdr a).prevOffset)

namespace ListInv

variable {flaw flaw' : Option ℕ} {s s' : ListState} {layout : ℕ → List Chunk}
  {chains chains' : ℕ → List ℕ} {b b' a : ℕ} {k k' : Chunk} {L W W' R : List Chunk}

theorem block_le (h : ListInv flaw s layout chains) (hb : b ∈ s.fl.blocks) : blockSize ≤ b := by
  obtain ⟨hmod, hne⟩ := h.aligned b hb
  dsimp only [blockSize] at *
  omega

theorem addr_ne_zero (h : ListInv flaw s layout chains) (hb : b ∈ s.fl.blocks)
    (hk : k ∈ layout b) : k.addr ≠ 0 := by
  have hle := h.block_le hb
  have hlo := ((h.blockOk b hb).bounds hk).1
  dsimp only [blockSize] at *
  omega

theorem owned (h : ListInv flaw s layout chains) (hb : b ∈ s.fl.blocks) (hk : k ∈ layout b) :
    Owned s.fl.blocks k.addr :=
  ⟨b, hb, ((h.blockOk b hb).bounds hk).1, (h.blockOk b hb).addr_lt hk⟩

/-- Different blocks do not overlap. -/
theorem block_eq (h : ListInv flaw s layout chains) (hb : b ∈ s.fl.blocks) (hb' : b' ∈ s.fl.blocks)
    (ha : b ≤ a ∧ a < b + blockSize) (ha' : b' ≤ a ∧ a < b' + blockSize) : b = b' := by
  have hmod := (h.aligned b hb).1
  have hmod' := (h.aligned b' hb').1
  dsimp only [blockSize] at *
  omega

/-- Chunks that start at the same place are the same. -/
theorem chunk_eq (h : ListInv flaw s layout chains) (hb : b ∈ s.fl.blocks) (hb' : b' ∈ s.fl.blocks)
    (hk : k ∈ layout b) (hk' : k' ∈ layout b') (heq : k.addr = k'.addr) : b = b' ∧ k = k' := by
  have hok := h.blockOk b hb
  have hok' := h.blockOk b' hb'
  obtain rfl : b = b' := by
    refine h.block_eq hb hb' (a := k.addr) ⟨(hok.bounds hk).1, hok.addr_lt hk⟩ ?_
    rw [heq]
    exact ⟨(hok'.bounds hk').1, hok'.addr_lt hk'⟩
  exact ⟨rfl, hok.eq_of_addr_eq hk hk' heq⟩

/-- Different chunks do not overlap. -/
theorem disjoint (h : ListInv flaw s layout chains) (hk : IsChunk s.fl.blocks layout k)
    (hk' : IsChunk s.fl.blocks layout k') (hne : k ≠ k') :
    k.addr + k.size ≤ k'.addr ∨ k'.addr + k'.size ≤ k.addr := by
  obtain ⟨b, hb, hk⟩ := hk
  obtain ⟨b', hb', hk'⟩ := hk'
  have hbounds := (h.blockOk b hb).bounds hk
  have hbounds' := (h.blockOk b' hb').bounds hk'
  rcases eq_or_ne b b' with rfl | hbb
  · refine (h.blockOk b hb).tiles.disjoint hk hk' fun heq => hne ?_
    exact (h.blockOk b hb).eq_of_addr_eq hk hk' heq
  · have hmod := (h.aligned b hb).1
    have hmod' := (h.aligned b' hb').1
    dsimp only [blockSize] at *
    omega

/-- A free chunk stands in the bucket for its size. -/
theorem mem_chain_iff (h : ListInv flaw s layout chains) (hb : b ∈ s.fl.blocks) (hk : k ∈ layout b)
    (hfree : k.used = false) {i : ℕ} : k.addr ∈ chains i ↔ findBucket k.size = i := by
  rw [h.filed]
  constructor
  · rintro ⟨k', ⟨b', hb', hk'⟩, heq, -, hi⟩
    obtain ⟨-, rfl⟩ := h.chunk_eq hb' hb hk' hk heq
    exact hi
  · intro hi
    exact ⟨k, ⟨b, hb, hk⟩, rfl, hfree, hi⟩

/-- The chunks after `W` has been replaced by `W'`. -/
theorem isChunk_replace (h : ListInv flaw s layout chains) (hb : b ∈ s.fl.blocks)
    (hlayout : layout b = L ++ W ++ R) {x : Chunk} :
    IsChunk s.fl.blocks (Function.update layout b (L ++ W' ++ R)) x ↔
      (IsChunk s.fl.blocks layout x ∧ x ∉ W) ∨ x ∈ W' := by
  have hmem : ∀ y, y ∈ layout b ↔ (y ∈ L ∨ y ∈ R) ∨ y ∈ W := by
    intro y
    rw [hlayout]
    simp only [List.mem_append]
    tauto
  constructor
  · rintro ⟨b', hb', hx⟩
    rcases eq_or_ne b' b with rfl | hne
    · rw [update_self] at hx
      simp only [List.mem_append] at hx
      by_cases hxW' : x ∈ W'
      · exact .inr hxW'
      · have hLR : x ∈ L ∨ x ∈ R := by tauto
        refine .inl ⟨⟨b', hb', (hmem x).mpr (.inl hLR)⟩, fun hxW => ?_⟩
        -- no chunk stands twice in the layout
        have hok := h.blockOk b' hb'
        have hnodup := hok.tiles.nodup_starts fun y hy => (hok.sizes y hy).1
        rw [hlayout] at hnodup
        have hnodup := hnodup.of_map
        rcases hLR with hL | hR
        · exact (List.nodup_append'.mp (List.nodup_append'.mp hnodup).1).2.2 hL hxW
        · exact (List.nodup_append'.mp hnodup).2.2 (List.mem_append_right L hxW) hR
    · rw [update_of_ne hne] at hx
      refine .inl ⟨⟨b', hb', hx⟩, fun hxW => hne ?_⟩
      exact (h.chunk_eq hb hb' ((hmem x).mpr (.inr hxW)) hx rfl).1.symm
  · rintro (⟨⟨b', hb', hx⟩, hxW⟩ | hxW')
    · refine ⟨b', hb', ?_⟩
      rcases eq_or_ne b' b with rfl | hne
      · have hLR : x ∈ L ∨ x ∈ R := ((hmem x).mp hx).resolve_right hxW
        rw [update_self]
        simp only [List.mem_append]
        tauto
      · rwa [update_of_ne hne]
    · exact ⟨b, hb, by simp [hxW']⟩

/-- The buckets after `W` has been replaced by `W'`. -/
theorem filed_replace (h : ListInv flaw s layout chains) (hb : b ∈ s.fl.blocks)
    (hlayout : layout b = L ++ W ++ R)
    (hchains : ∀ i a, a ∈ chains' i ↔ (a ∈ chains i ∧ ∀ k ∈ W, k.addr ≠ a) ∨
      ∃ k ∈ W', k.addr = a ∧ k.used = false ∧ findBucket k.size = i) (i a : ℕ) :
    a ∈ chains' i ↔ FreeAt s.fl.blocks (Function.update layout b (L ++ W' ++ R)) i a := by
  rw [hchains, h.filed]
  constructor
  · rintro (⟨⟨k, hk, rfl, hfree, hbucket⟩, hW⟩ | ⟨k, hk, rfl, hfree, hbucket⟩)
    · have hkW : k ∉ W := fun hmem => hW k hmem rfl
      exact ⟨k, (h.isChunk_replace hb hlayout).mpr (.inl ⟨hk, hkW⟩), rfl, hfree, hbucket⟩
    · exact ⟨k, (h.isChunk_replace hb hlayout).mpr (.inr hk), rfl, hfree, hbucket⟩
  · rintro ⟨k, hk, rfl, hfree, hbucket⟩
    rcases (h.isChunk_replace hb hlayout).mp hk with ⟨hk, hkW⟩ | hk
    · refine .inl ⟨⟨k, hk, rfl, hfree, hbucket⟩, fun w hw heq => hkW ?_⟩
      obtain ⟨b', hb', hk⟩ := hk
      have hwmem : w ∈ layout b := by
        rw [hlayout]
        simp [hw]
      exact (h.chunk_eq hb hb' hwmem hk heq).2 ▸ hw
    · exact .inr ⟨k, hk, rfl, hfree, hbucket⟩

/-- Replacing some chunks of one block. -/
theorem replace (h : ListInv flaw s layout chains) (hb : b ∈ s.fl.blocks)
    (hlayout : layout b = L ++ W ++ R) (hblocks : s'.fl.blocks = s.fl.blocks)
    (hout : SameOutside b s.mem.hdr s'.mem.hdr)
    (hok : BlockOk flaw' s'.mem.hdr b (L ++ W' ++ R))
    (hflaw : ∀ a, flaw = some a → flaw' = some a)
    (hfamily : Family s'.mem.links s'.fl.buckets chains')
    (hchains : ∀ i a, a ∈ chains' i ↔ (a ∈ chains i ∧ ∀ k ∈ W, k.addr ≠ a) ∨
      ∃ k ∈ W', k.addr = a ∧ k.used = false ∧ findBucket k.size = i) :
    ListInv flaw' s' (Function.update layout b (L ++ W' ++ R)) chains' where
  nodup := hblocks ▸ h.nodup
  aligned := hblocks ▸ h.aligned
  blockOk b' hb' := by
    rw [hblocks] at hb'
    rcases eq_or_ne b' b with rfl | hne
    · rw [update_self]
      exact hok
    · rw [update_of_ne hne]
      have hok' := h.blockOk b' hb'
      have hmod' := (h.aligned b' hb').1
      have houtside : ∀ k ∈ layout b', ¬ (b ≤ k.addr ∧ k.addr < b + blockSize) := fun k hk hin =>
        hne (h.block_eq hb' hb ⟨(hok'.bounds hk).1, hok'.addr_lt hk⟩ hin)
      refine (hok'.mono hflaw).congr (fun k hk => ?_) fun k hk => ?_
      · obtain ⟨h1, h2, h3, -⟩ := hout k.addr (houtside k hk)
        exact ⟨h1, h2, h3⟩
      · have hmem := List.mem_of_mem_tail hk
        refine (hout k.addr (houtside k hmem)).2.2.2 ?_
        -- only the first chunk of a block starts at the block
        rw [hok'.mod_addr hmod' hmem]
        cases hks : layout b' with
        | nil => simp [hks] at hk
        | cons x xs =>
          rw [hks] at hk hok'
          have hx : x.addr = b' := hok'.tiles.1
          have hpos := (hok'.sizes x (by simp)).1
          have hle := (hok'.tiles.2.mem_bounds hk).1
          omega
  family := hfamily
  filed := hblocks ▸ h.filed_replace hb hlayout hchains

/-- Replacing the chunks `W` of one block, which fill the range from `a` to `e`. -/
theorem edit (h : ListInv flaw s layout chains) (hb : b ∈ s.fl.blocks)
    (hlayout : layout b = L ++ W ++ R) (hblocks : s'.fl.blocks = s.fl.blocks) {a e : ℕ}
    (hW : Tiles Chunk.addr Chunk.size a W e) (hW' : Tiles Chunk.addr Chunk.size a W' e)
    (hne : W ≠ []) (hne' : W' ≠ [])
    (hsizes : ∀ k ∈ W', 0 < k.size ∧ k.size % 64 = 0)
    (hdescribes : ∀ k ∈ W', (s'.hdr k.addr).size = k.size ∧ (s'.hdr k.addr).used = k.used)
    (hlast : ∀ k ∈ W', flaw' ≠ some k.addr →
      (s'.hdr k.addr).last = decide (k.addr + k.size = b + blockSize))
    (hout : ∀ x, x < a ∨ e < x → s'.hdr x = s.hdr x)
    (hend : (s'.hdr e).size = (s.hdr e).size ∧ (s'.hdr e).used = (s.hdr e).used ∧
      (s'.hdr e).last = (s.hdr e).last)
    (hflaw : ∀ a, flaw = some a → flaw' = some a)
    (hpairs : W'.IsChain (Neighbours flaw' s'.hdr))
    (hleft : ∀ x ∈ L.getLast?, ∀ y ∈ W'.head?, Neighbours flaw' s'.hdr x y)
    (hright : ∀ x ∈ W'.getLast?, ∀ y ∈ R.head?, Neighbours flaw' s'.hdr x y)
    (hfamily : Family s'.mem.links s'.fl.buckets chains')
    (hchains : ∀ i a, a ∈ chains' i ↔ (a ∈ chains i ∧ ∀ k ∈ W, k.addr ≠ a) ∨
      ∃ k ∈ W', k.addr = a ∧ k.used = false ∧ findBucket k.size = i) :
    ListInv flaw' s' (Function.update layout b (L ++ W' ++ R)) chains' := by
  have hok := h.blockOk b hb
  rw [hlayout] at hok
  obtain ⟨⟨hba, hae, heb⟩, -⟩ := hok.around hW hne
  refine h.replace hb hlayout hblocks (fun x hx => ?_) ?_ hflaw hfamily hchains
  · -- outside the range nothing is written; at `e` the offset may be, and that only matters inside
    -- the block
    rcases Nat.lt_trichotomy x e with hlt | rfl | hlt
    · have hsame : s'.mem.hdr x = s.mem.hdr x := hout x (.inl (by omega))
      rw [hsame]
      exact ⟨rfl, rfl, rfl, fun _ => rfl⟩
    · -- the header behind the block
      refine ⟨hend.1, hend.2.1, hend.2.2, fun hmod => absurd ?_ hmod⟩
      have hbmod := (h.aligned b hb).1
      dsimp only [blockSize] at *
      omega
    · have hsame : s'.mem.hdr x = s.mem.hdr x := hout x (.inr hlt)
      rw [hsame]
      exact ⟨rfl, rfl, rfl, fun _ => rfl⟩
  · exact hok.edit hW hW' hne hne' hsizes hdescribes hlast hout hend hflaw hpairs hleft hright

/-- The left border of a replaced segment: the first chunk keeps its address and its
`prev_offset`. -/
theorem neighbours_left (h : ListInv flaw s layout chains) (hb : b ∈ s.fl.blocks)
    (hlayout : layout b = L ++ W ++ R) {e : ℕ} (hW : Tiles Chunk.addr Chunk.size a W e)
    (hne : W ≠ []) (hflaw : ∀ a, flaw = some a → flaw' = some a) (hk : k.addr = a)
    (hprev : (s'.hdr a).prevOffset = (s.hdr a).prevOffset)
    (hleft : ∀ p ∈ L.getLast?, flaw = some p.addr ∨ p.used = true ∨ k.used = true) :
    ∀ p ∈ L.getLast?, Neighbours flaw' s'.hdr p k := by
  intro p hp
  have hok := h.blockOk b hb
  rw [hlayout] at hok
  obtain ⟨w, ws, rfl⟩ := List.exists_cons_of_ne_nil hne
  have hw : w.addr = a := hW.1
  rcases hok.left_pair hp (y := w) rfl with hflawed | ⟨hoff, -⟩
  · exact .inl (hflaw _ hflawed)
  · rcases hleft p hp with hflawed | hused
    · exact .inl (hflaw _ hflawed)
    · rw [hw] at hoff
      refine .inr ⟨?_, hused⟩
      rw [hk, hprev]
      exact hoff

/-- Replacing the chunks `W` by a single chunk. -/
theorem single (h : ListInv flaw s layout chains) (hb : b ∈ s.fl.blocks)
    (hlayout : layout b = L ++ W ++ R) (hblocks : s'.fl.blocks = s.fl.blocks) {a e : ℕ}
    (hW : Tiles Chunk.addr Chunk.size a W e) (hne : W ≠ []) (hflaw : flaw ≠ some a)
    (hk : k.addr = a) (hsize : a + k.size = e)
    (hpos : 0 < k.size ∧ k.size % 64 = 0)
    (hdescribes : (s'.hdr a).size = k.size ∧ (s'.hdr a).used = k.used)
    (hlast : (s'.hdr a).last = decide (e = b + blockSize))
    (hprev : (s'.hdr a).prevOffset = (s.hdr a).prevOffset)
    (hout : ∀ x, x < a ∨ e < x → s'.hdr x = s.hdr x)
    (hend : (s'.hdr e).size = (s.hdr e).size ∧ (s'.hdr e).used = (s.hdr e).used ∧
      (s'.hdr e).last = (s.hdr e).last)
    (hleft : ∀ p ∈ L.getLast?, flaw = some p.addr ∨ p.used = true ∨ k.used = true)
    (hright : ∀ n ∈ R.head?, (s'.hdr e).prevOffset = chunkOffset a ∧
      (k.used = true ∨ n.used = true))
    (hfamily : Family s'.mem.links s'.fl.buckets chains')
    (hchains : ∀ i a, a ∈ chains' i ↔ (a ∈ chains i ∧ ∀ k ∈ W, k.addr ≠ a) ∨
      (k.addr = a ∧ k.used = false ∧ findBucket k.size = i)) :
    ListInv flaw s' (Function.update layout b (L ++ [k] ++ R)) chains' := by
  have hok := h.blockOk b hb
  rw [hlayout] at hok
  obtain ⟨-, -, hhead, -, -⟩ := hok.around hW hne
  have hleft' := h.neighbours_left hb hlayout hW hne (fun _ heq => heq) hk hprev hleft
  subst hk
  refine h.edit hb hlayout hblocks hW ⟨rfl, hsize⟩ hne (by simp) ?_ ?_ ?_ hout hend
    (fun _ heq => heq) (List.isChain_singleton k) ?_ ?_ hfamily ?_
  · simpa using hpos
  · simpa using hdescribes
  · simp only [List.mem_singleton, forall_eq]
    intro _
    rw [hlast, hsize]
  · intro p hp y hy
    obtain rfl : k = y := by simpa using hy
    exact hleft' p hp
  · intro x hx n hn
    obtain rfl : k = x := by simpa using hx
    rw [Neighbours, hhead n hn]
    exact .inr (hright n hn)
  · simpa using hchains

/-- Replacing the chunks `W` by two chunks, the second of which may be flawed. -/
theorem pair (h : ListInv flaw s layout chains) (hb : b ∈ s.fl.blocks)
    (hlayout : layout b = L ++ W ++ R) (hblocks : s'.fl.blocks = s.fl.blocks) {a e : ℕ}
    (hW : Tiles Chunk.addr Chunk.size a W e) (hne : W ≠ [])
    (hflaw : ∀ a, flaw = some a → flaw' = some a)
    (hk : k.addr = a) (hk' : a + k.size = k'.addr) (hsize : k'.addr + k'.size = e)
    (hpos : 0 < k.size ∧ k.size % 64 = 0) (hpos' : 0 < k'.size ∧ k'.size % 64 = 0)
    (hdescribes : (s'.hdr a).size = k.size ∧ (s'.hdr a).used = k.used)
    (hdescribes' : (s'.hdr k'.addr).size = k'.size ∧ (s'.hdr k'.addr).used = k'.used)
    (hlast : (s'.hdr a).last = false)
    (hlast' : flaw' ≠ some k'.addr → (s'.hdr k'.addr).last = decide (e = b + blockSize))
    (hprev : (s'.hdr a).prevOffset = (s.hdr a).prevOffset)
    (hprev' : (s'.hdr k'.addr).prevOffset = chunkOffset a) (hused : k.used = true ∨ k'.used = true)
    (hout : ∀ x, x < a ∨ e < x → s'.hdr x = s.hdr x)
    (hend : (s'.hdr e).size = (s.hdr e).size ∧ (s'.hdr e).used = (s.hdr e).used ∧
      (s'.hdr e).last = (s.hdr e).last)
    (hleft : ∀ p ∈ L.getLast?, flaw = some p.addr ∨ p.used = true ∨ k.used = true)
    (hright : ∀ n ∈ R.head?, flaw' = some k'.addr ∨
      ((s'.hdr e).prevOffset = chunkOffset k'.addr ∧ (k'.used = true ∨ n.used = true)))
    (hfamily : Family s'.mem.links s'.fl.buckets chains')
    (hchains : ∀ i a, a ∈ chains' i ↔ (a ∈ chains i ∧ ∀ k ∈ W, k.addr ≠ a) ∨
      (k.addr = a ∧ k.used = false ∧ findBucket k.size = i) ∨
      (k'.addr = a ∧ k'.used = false ∧ findBucket k'.size = i)) :
    ListInv flaw' s' (Function.update layout b (L ++ [k, k'] ++ R)) chains' := by
  have hok := h.blockOk b hb
  rw [hlayout] at hok
  obtain ⟨⟨-, -, heb⟩, -, hhead, -, -⟩ := hok.around hW hne
  have hleft' := h.neighbours_left hb hlayout hW hne hflaw hk hprev hleft
  subst hk
  have hne' : ¬ k.addr + k.size = b + blockSize := by omega
  refine h.edit hb hlayout hblocks hW ⟨rfl, hk'.symm, ?_⟩ hne (by simp) ?_ ?_ ?_
    hout hend hflaw (List.isChain_pair.mpr (.inr ⟨hprev', hused⟩)) ?_ ?_ hfamily ?_
  · show k.addr + k.size + k'.size = e
    rw [hk', hsize]
  · simpa using ⟨hpos, hpos'⟩
  · simpa using ⟨hdescribes, hdescribes'⟩
  · simp only [List.mem_cons, List.not_mem_nil, or_false, forall_eq_or_imp, forall_eq]
    refine ⟨fun _ => ?_, fun hflaw' => ?_⟩
    · rw [hlast, decide_eq_false hne']
    · rw [hlast' hflaw', hsize]
  · intro p hp y hy
    obtain rfl : k = y := by simpa using hy
    exact hleft' p hp
  · intro x hx n hn
    obtain rfl : k' = x := by simpa using hx
    rw [Neighbours, hhead n hn]
    exact hright n hn
  · simpa using hchains

end ListInv

end Pronto
