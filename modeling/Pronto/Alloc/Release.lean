import Pronto.Alloc.Coverage
import Pronto.Alloc.HeapOps

/-!
# Giving back blocks

`releaseFreeBlocks`, which runs at the end of a recovery, walks over the last bucket of a free list and
returns every chunk of the size of a block to the global allocator. The walk changes the list that it
walks on; it has read the next chunk before.

It never fails, and the heap stays in order with the same chunks in use; the blocks that the list
loses are those without a chunk in use (`releaseFreeBlocks_spec`). As long as the regions that they
are joined to fit into their fields, no size is truncated, and then nothing of these blocks is lost.
-/

namespace Pronto

open Linked Tiling

/-- The bucket for the largest chunks. -/
def lastBucket : ℕ := totalAllocBuckets - 1

/-- The free list after its block `b` has been taken out of the last bucket. -/
def FreeList.without (fl : FreeList) (links : Links) (b : ℕ) : FreeList :=
  { fl with
    buckets := Function.update fl.buckets lastBucket (links.headAfter (fl.buckets lastBucket) b)
    blocks := fl.blocks.erase b }

/-- A bound on the number of chunks in the mapped memory. -/
def GlobalState.maxChunks (s : GlobalState) : ℕ := s.allocatedBlocks * (blockSize / 64)

/-- The loop of `FreeList::releaseFreeBlocks` from `chunk` on. -/
def releaseLoop : ℕ → GlobalState → FreeList → ℕ → Option (GlobalState × FreeList)
  | 0, _, _, _ => none
  | fuel + 1, s, fl, chunk =>
    if chunk = 0 then some (s, fl)
    else
      let next := s.mem.links.next chunk
      if s.size chunk = blockSize then
        let mem := { s.mem with links := s.mem.links.unlink chunk }
        (GlobalState.release ⟨mem, s.ga⟩ chunk blockSize).bind fun s' =>
          releaseLoop fuel s' (fl.without s.mem.links chunk) next
      else releaseLoop fuel s fl next

/-- `FreeList::releaseFreeBlocks`. -/
def releaseFreeBlocks (s : GlobalState) (fl : FreeList) : Option (GlobalState × FreeList) :=
  releaseLoop (s.maxChunks + 1) s fl (fl.buckets lastBucket)

/-- `ObjectAlloc::releaseFreeBlocks`. -/
def releaseLists : GlobalState → List FreeList → Option (GlobalState × List FreeList)
  | s, [] => some (s, [])
  | s, fl :: fls => do
    let (s, fl) ← releaseFreeBlocks s fl
    let (s, fls) ← releaseLists s fls
    return (s, fl :: fls)

/-- The block is not one free chunk. -/
def holdsChunk (layout : ℕ → List Chunk) (b : ℕ) : Bool := layout b != [⟨b, blockSize, false⟩]

/-- No size was truncated, and all free bytes are in `S`. -/
structure FreeWithin (S : ℕ → Prop) (gs : GlobalState) : Prop where
  truncated : gs.ga.truncated = false
  free : ∀ x, gs.FreeByte x → S x

/-- Every byte of a block that is one free chunk is in `S`. -/
def BlocksWithin (S : ℕ → Prop) (layout : ℕ → List Chunk) (blocks : List ℕ) : Prop :=
  ∀ b ∈ blocks, layout b = [⟨b, blockSize, false⟩] → ∀ x, b ≤ x → x < b + blockSize → S x

/-- Giving back blocks truncates no size, as long as the free bytes with those of the blocks that are one
free chunk form short intervals only. -/
def GivesBack (layout : ℕ → List Chunk) (blocks : List ℕ) (gs gs' : GlobalState) : Prop :=
  ∀ S, ShortRuns S → BlocksWithin S layout blocks → FreeWithin S gs → FreeWithin S gs'

/-! ## One block -/

/-- A chunk of the size of a block is the only one of its block. -/
theorem BlockOk.whole {hdr : ℕ → ChunkHeader} {b : ℕ} {ks : List Chunk} {k : Chunk}
    (h : BlockOk none hdr b ks) (hk : k ∈ ks) (hsize : k.size = blockSize) : ks = [k] := by
  have hbounds := h.bounds hk
  have hall : ∀ x ∈ ks, x = k := by
    intro x hx
    refine h.eq_of_addr_eq hx hk ?_
    by_contra hne
    have hdisj := h.tiles.disjoint hx hk hne
    have hpos := (h.sizes x hx).1
    have hxbounds := h.bounds hx
    omega
  have hnodup : ks.Nodup := .of_map _ (h.tiles.nodup_starts fun x hx => (h.sizes x hx).1)
  have hrep := List.eq_replicate_of_mem hall
  rw [hrep, List.nodup_replicate] at hnodup
  have hpos := List.length_pos_of_mem hk
  rw [hrep, show ks.length = 1 by omega, List.replicate_one]

/-- A block without a chunk in use is one free chunk. -/
theorem BlockOk.eq_free {hdr : ℕ → ChunkHeader} {b : ℕ} {ks : List Chunk} (h : BlockOk none hdr b ks)
    (hfree : ∀ k ∈ ks, k.used = false) : ks = [⟨b, blockSize, false⟩] := by
  cases ks with
  | nil =>
    have hend := h.tiles
    simp [Tiles, blockSize] at hend
  | cons k rest =>
    have hk : k.used = false := hfree k (by simp)
    cases rest with
    | nil =>
      obtain ⟨a, n, used⟩ := k
      obtain ⟨haddr, hend⟩ := h.tiles
      obtain rfl : a = b := haddr
      obtain rfl : n = blockSize := Nat.add_left_cancel hend
      rw [show used = false from hk]
    | cons k' rest =>
      -- two free neighbours would have been merged
      have hpair := ((List.isChain_cons_cons.mp h.pairs).1.resolve_left (by simp)).2
      rw [hk, hfree k' (by simp)] at hpair
      simp at hpair

section Block

variable {cores : ℕ} {gs : GlobalState} {lists : ℕ → ℕ → FreeList} {layout : ℕ → List Chunk}
  {jumbos : List (ℕ × Chunk)} {o c b : ℕ} {s : ListState} {chains : ℕ → List ℕ}

/-- A free block is in the last bucket. -/
theorem ListInv.block_filed (h : ListInv none s layout chains) (hb : b ∈ s.fl.blocks)
    (hlayout : layout b = [⟨b, blockSize, false⟩]) : b ∈ chains lastBucket :=
  (h.filed _ _).mpr ⟨⟨b, blockSize, false⟩, ⟨b, hb, by simp [hlayout]⟩, rfl, rfl,
    (by decide : findBucket blockSize = lastBucket)⟩

/-- The list without a free block. -/
theorem ListInv.removeBlock {mem : HeapMemory} {fl : FreeList} (h : ListInv none ⟨mem, fl⟩ layout chains)
    (hb : b ∈ fl.blocks) (hlayout : layout b = [⟨b, blockSize, false⟩]) :
    ListInv none ⟨{ mem with links := mem.links.unlink b }, fl.without mem.links b⟩ layout
      (Function.update chains lastBucket ((chains lastBucket).erase b)) := by
  have hmem := h.block_filed hb hlayout
  have hsub : ∀ b' ∈ fl.blocks.erase b, b' ∈ fl.blocks := fun b' hb' => List.mem_of_mem_erase hb'
  refine ⟨h.nodup.erase b, fun b' hb' => h.aligned b' (hsub b' hb'),
    fun b' hb' => h.blockOk b' (hsub b' hb'), h.family.unlink hmem, fun i a => ?_⟩
  -- the chunk of the block is the one that leaves its bucket
  have hchain : a ∈ Function.update chains lastBucket ((chains lastBucket).erase b) i ↔
      a ∈ chains i ∧ a ≠ b := by
    by_cases hi : i = lastBucket
    · rw [hi, Function.update_self, (h.family.nodup _).mem_erase_iff, and_comm]
    · rw [Function.update_of_ne hi]
      refine (and_iff_left_of_imp ?_).symm
      rintro ha rfl
      exact hi (h.family.disjoint _ _ _ ha hmem)
  rw [hchain, h.filed]
  constructor
  · rintro ⟨⟨k, ⟨b', hb', hk⟩, rfl, hfree, hbucket⟩, hne⟩
    refine ⟨k, ⟨b', (List.mem_erase_of_ne ?_).mpr hb', hk⟩, rfl, hfree, hbucket⟩
    rintro rfl
    rw [hlayout, List.mem_singleton] at hk
    exact hne (by rw [hk])
  · rintro ⟨k, ⟨b', hb', hk⟩, rfl, hfree, hbucket⟩
    obtain ⟨hne, hb'⟩ := h.nodup.mem_erase_iff.mp hb'
    refine ⟨⟨k, ⟨b', hb', hk⟩, rfl, hfree, hbucket⟩, fun heq => hne ?_⟩
    exact (h.chunk_eq hb' hb hk (by rw [hlayout]; exact List.mem_singleton_self _) heq).1

/-- A free block does not count for the chunks in use. -/
theorem inUse_erase {blocks : List ℕ} {k : Chunk} (hlayout : layout b = [⟨b, blockSize, false⟩]) :
    InUse (blocks.erase b) layout k ↔ InUse blocks layout k := by
  constructor
  · rintro ⟨⟨b', hb', hk⟩, hused⟩
    exact ⟨⟨b', List.mem_of_mem_erase hb', hk⟩, hused⟩
  · rintro ⟨⟨b', hb', hk⟩, hused⟩
    refine ⟨⟨b', (List.mem_erase_of_ne ?_).mpr hb', hk⟩, hused⟩
    rintro rfl
    rw [hlayout, List.mem_singleton] at hk
    rw [hk] at hused
    cases hused

section Release

variable (h : HeapShape cores gs lists layout jumbos) (hb : b ∈ (lists o c).blocks)
  (hlayout : layout b = [⟨b, blockSize, false⟩]) (hinv : ListInv none ⟨gs.mem, lists o c⟩ layout chains)

include h hb in
/-- The regions without that of the block. -/
theorem isRegion_without {live : List MemoryRegion} {fl : FreeList}
    (hblocks : fl.blocks = (lists o c).blocks.erase b) (hnodup : live.Nodup)
    (hlive : ∀ m, m ∈ live ↔ IsRegion lists jumbos m) (m : MemoryRegion) :
    m ∈ live.erase ⟨b, blockSize⟩ ↔ IsRegion (setList lists o c fl) jumbos m := by
  obtain ⟨chains, hinv⟩ := h.list o c
  have hown : m ≠ ⟨b, blockSize⟩ ∧ (∃ b' ∈ (lists o c).blocks, m = ⟨b', blockSize⟩) ↔
      ∃ b' ∈ (lists o c).blocks.erase b, m = ⟨b', blockSize⟩ := by
    constructor
    · rintro ⟨hne, b', hb', rfl⟩
      exact ⟨b', (List.mem_erase_of_ne fun heq => hne (by rw [heq])).mpr hb', rfl⟩
    · rintro ⟨b', hb', rfl⟩
      obtain ⟨hne, hb'⟩ := hinv.nodup.mem_erase_iff.mp hb'
      exact ⟨fun heq => hne (congrArg MemoryRegion.ptr heq), b', hb', rfl⟩
  have hother : ((∃ o' c', (o', c') ≠ (o, c) ∧ ∃ b' ∈ (lists o' c').blocks, m = ⟨b', blockSize⟩) ∨
      ∃ x ∈ jumbos, m = ⟨x.2.addr, bigAllocSize x.2.size⟩) → m ≠ ⟨b, blockSize⟩ := by
    rintro (⟨o', c', hne, b', hb', rfl⟩ | ⟨x, hx, rfl⟩) heq
    · obtain rfl : b' = b := congrArg MemoryRegion.ptr heq
      obtain ⟨rfl, rfl⟩ := h.only hb hb'
      exact hne rfl
    · have hsize : bigAllocSize x.2.size = blockSize := congrArg MemoryRegion.size heq
      have hlarge := (h.jumbo x hx).large
      have hspec := bigBlocks_spec x.2.size
      rw [← bigAllocSize_eq] at hspec
      omega
  rw [hnodup.mem_erase_iff, hlive, isRegion_iff o c, isRegion_setList, hblocks, and_or_left, hown,
    and_iff_right_of_imp hother]

include h hb hlayout hinv in
/-- **A block goes back to the global allocator.** -/
theorem release_block (hc : c < cores) :
    ∃ gs', GlobalState.release ⟨{ gs.mem with links := gs.mem.links.unlink b }, gs.ga⟩ b blockSize =
        some gs' ∧
      HeapStep cores gs lists layout jumbos o none none gs'
        (setList lists o c ((lists o c).without gs.mem.links b)) layout jumbos ∧
      ListInv none ⟨gs'.mem, (lists o c).without gs.mem.links b⟩ layout
        (Function.update chains lastBucket ((chains lastBucket).erase b)) ∧
      gs'.limit = gs.limit ∧
      GivesBack layout (lists o c).blocks gs gs' := by
  obtain ⟨live, ps, chain, hreg, hlive⟩ := h.regions
  have hm : (⟨b, blockSize⟩ : MemoryRegion) ∈ live := (hlive _).mpr (.inl ⟨o, c, b, hb, rfl⟩)
  have hmem := hinv.block_filed hb hlayout
  set fl := (lists o c).without gs.mem.links b
  have hblocks : fl.blocks = (lists o c).blocks.erase b := rfl
  -- the links of chunks in the bucket are written, and nothing else
  have hsame : ∀ a, a ∉ chains lastBucket →
      SameWords gs.mem { gs.mem with links := gs.mem.links.unlink b } a := fun a ha =>
    ⟨rfl, hinv.family.unlink_frame hmem ha⟩
  have hreg₁ : Regions ⟨{ gs.mem with links := gs.mem.links.unlink b }, gs.ga⟩ live ps chain :=
    hreg.congr fun a ha => hsame a fun hfiled => by
      obtain ⟨m, hm, hhas⟩ := HeapShape.owned_region jumbos (hinv.chain_owned hfiled)
      exact hreg.not_node ⟨m, (hlive m).mpr hm, hhas⟩ ha
  obtain ⟨gs', ps', chain', hrelease, hreg'⟩ := hreg₁.release hm
  have hkeep := hreg₁.release_keeps hm hrelease
  have hlive' := isRegion_without h hb hblocks hreg.live_nodup hlive
  have hinLive : ∀ a, Owned fl.blocks a →
      InLive (live.erase ⟨b, blockSize⟩) a := fun a ⟨b', hb', hlo, hhi⟩ =>
    ⟨⟨b', blockSize⟩, (hlive' _).mpr (isRegion_setList.mpr (.inl ⟨b', hb', rfl⟩)), hlo, hhi⟩
  have hinv₁ := hinv.removeBlock hb hlayout
  have hinv' : ListInv none ⟨gs'.mem, fl⟩ layout
      (Function.update chains lastBucket ((chains lastBucket).erase b)) := hinv₁.congr
    (fun k ⟨b', hb', hk⟩ => (hkeep.words _ (hinLive _ (hinv₁.owned hb' hk))).1)
    fun i a ha => (hkeep.words _ (hinLive _ (hinv₁.chain_owned ha))).2
  have hused : ∀ k, InUse fl.blocks layout k ↔
      InUse (lists o c).blocks layout k := fun k => by rw [hblocks, inUse_erase hlayout]
  have hids : ∀ k, InUse fl.blocks layout k →
      (gs'.mem.hdr k.addr).freeListId = c := by
    intro k hk
    obtain ⟨⟨b', hb', hkmem⟩, -⟩ := id hk
    rw [(hkeep.words _ (hinLive _ (hinv'.owned hb' hkmem))).1]
    exact h.ids o c k ((hused k).mp hk)
  have hwords : ∀ a m, IsRegion lists jumbos m → (∀ b ∈ (lists o c).blocks, m ≠ ⟨b, blockSize⟩) →
      m.Has a → SameWords gs.mem gs'.mem a := by
    intro a m hm' hown hhas
    refine (hsame a fun hfiled => ?_).trans (hkeep.words a
      ⟨m, hreg.live_nodup.mem_erase_iff.mpr ⟨hown b hb, (hlive m).mpr hm'⟩, hhas⟩)
    obtain ⟨b', hb', hlo, hhi⟩ := hinv.chain_owned hfiled
    have hapart := hreg.live_apart ((hlive m).mpr hm')
      ((hlive _).mpr (.inl ⟨o, c, b', hb', rfl⟩)) (hown b' hb')
    obtain ⟨hmlo, hmhi⟩ := hhas
    dsimp only at hapart
    omega
  have hr := h.replace ⟨_, ps', chain', hreg', hlive'⟩ (fun b' hb' => .inl (by
      rw [hblocks] at hb'
      exact List.mem_of_mem_erase hb')) hc hinv' (h.myId o c)
    (fun a m hm' hown hhas _ => hwords a m hm' hown hhas) hids
  have hshape := hr.shape
  have hby : ∀ o' k, UsedBy (setList lists o c fl) (placed fl.blocks layout layout) jumbos o' k ↔
      (o' = o ∧ InUse fl.blocks layout k) ∨ UsedElsewhere lists layout jumbos o c o' k :=
    fun o' k => hr.used
  rw [placed_self] at hshape
  simp only [placed_self, hused, ← usedBy_iff] at hby
  refine ⟨gs', hrelease, ⟨hshape, fun o' k => by simp [hby], by simp, fun o' k hk _ => ?_,
    fun _ hexact => ?_⟩, hinv', ?_, fun S hshort hwithin hfree => ?_⟩
  · rcases (usedBy_iff (o := o) (c := c)).mp hk with ⟨-, hk'⟩ | hk'
    · refine keepsWords_of_same fun x hlo hhi => (hsame x fun hfiled => ?_).trans
        (hkeep.words x (hinLive x ?_))
      · have hapart := h.filed_apart hk hinv hfiled
        omega
      · exact hinv'.owned_inside ((hused k).mpr hk').1 hlo hhi
    · exact keepsWords_of_same (hr.keeps o' k hk')
  · intro page
    simp only [InHeap, hby]
    rw [hkeep.bitmap]
    exact hexact page
  · exact (limit_congr (mappedRegions_release hrelease)).trans rfl
  · -- the links of the bucket are not read by the global allocator
    have hbyte : ∀ x, GlobalState.FreeByte ⟨{ gs.mem with links := gs.mem.links.unlink b }, gs.ga⟩ x ↔
        gs.FreeByte x := fun x => by
      rw [hreg₁.nodesOk.freeByte_iff, hreg.nodesOk.freeByte_iff]
      rfl
    have hS : ∀ x, gs.FreeByte x ∨ MemoryRegion.Has ⟨b, blockSize⟩ x → S x := fun x hx =>
      hx.elim (hfree.free x) fun hx => hwithin b hb hlayout x hx.1 hx.2
    obtain ⟨htruncated, hiff⟩ := hreg₁.release_fits hfree.truncated hm (fun lo hi _ _ hall =>
      hshort lo hi fun x h₁ h₂ => hS x ((hall x h₁ h₂).imp_left (hbyte x).mp)) hrelease
    exact ⟨htruncated, fun x hx => hS x (((hiff x).mp hx).imp_left (hbyte x).mp)⟩

end Release

/-! ## The loop -/

theorem filter_erase {l : List ℕ} {b : ℕ} {p : ℕ → Bool} (hnodup : l.Nodup) (hb : p b = false) :
    (l.erase b).filter p = l.filter p := by
  rw [hnodup.erase_eq_filter, List.filter_filter]
  refine List.filter_congr fun a _ => ?_
  by_cases ha : a = b
  · rw [ha, hb, Bool.false_and]
  · simp [ha]

/-- Steps that leave the chunks in use alone, one after the other. -/
theorem HeapStep.trans_same {gs' gs'' : GlobalState} {lists' lists'' : ℕ → ℕ → FreeList}
    {layout' layout'' : ℕ → List Chunk} {jumbos' jumbos'' : List (ℕ × Chunk)}
    (h : HeapStep cores gs lists layout jumbos o none none gs' lists' layout' jumbos')
    (h' : HeapStep cores gs' lists' layout' jumbos' o none none gs'' lists'' layout'' jumbos'')
    (hlimit : gs'.limit ≤ gs''.limit) :
    HeapStep cores gs lists layout jumbos o none none gs'' lists'' layout'' jumbos'' where
  shape := h'.shape
  used o' k := by
    rw [h'.used, h.used]
    simp
  fresh := by simp
  keeps o' k hk hne := (h.keeps o' k hk hne).trans
    (h'.keeps o' k ((h.used o' k).mpr (.inl ⟨hk, hne⟩)) hne)
  exact hmax hexact := h'.exact hmax (h.exact (hlimit.trans hmax) hexact)

/-- **The loop gives back every block without a chunk in use.** The blocks of this kind are ahead in the
bucket, and the loop has read the link to the next chunk before it takes one out. -/
theorem releaseLoop_spec {todo : List ℕ} : ∀ {gs lists chains} {done : List ℕ} {fuel : ℕ},
    HeapShape cores gs lists layout jumbos → c < cores →
    ListInv none ⟨gs.mem, lists o c⟩ layout chains → chains lastBucket = done ++ todo →
    (∀ b ∈ (lists o c).blocks, layout b = [⟨b, blockSize, false⟩] → b ∈ todo) → todo.length < fuel →
    ∃ gs' fl', releaseLoop fuel gs (lists o c) (todo.head?.getD 0) = some (gs', fl') ∧
      fl'.blocks = (lists o c).blocks.filter (holdsChunk layout) ∧
      HeapStep cores gs lists layout jumbos o none none gs' (setList lists o c fl') layout jumbos ∧
      gs'.limit = gs.limit ∧
      GivesBack layout (lists o c).blocks gs gs' := by
  -- `done` are the chunks of the bucket that were passed over, `todo` those ahead
  induction todo with
  | nil =>
    intro gs lists chains done fuel h hc hinv hchain hahead hfuel
    obtain ⟨fuel, rfl⟩ := Nat.exists_eq_succ_of_ne_zero (Nat.ne_zero_of_lt hfuel)
    have hblocks : (lists o c).blocks.filter (holdsChunk layout) = (lists o c).blocks :=
      List.filter_eq_self.mpr fun b hb => bne_iff_ne.mpr fun heq => by simpa using hahead b hb heq
    refine ⟨gs, lists o c, rfl, hblocks.symm, ?_, rfl, fun _ _ _ hfree => hfree⟩
    rw [setList_eq_self]
    exact h.same_step rfl rfl rfl
  | cons a todo ih =>
    intro gs lists chains done fuel h hc hinv hchain hahead hfuel
    obtain ⟨fuel, rfl⟩ := Nat.exists_eq_succ_of_ne_zero (Nat.ne_zero_of_lt hfuel)
    have hfuel' : todo.length < fuel := Nat.lt_of_succ_lt_succ hfuel
    have hlist := hinv.family.isList lastBucket
    have hnodup := hinv.family.nodup lastBucket
    have ha : a ∈ chains lastBucket := by simp [hchain]
    have ha0 : a ≠ 0 := hlist.ne_zero ha
    rw [hchain] at hlist hnodup
    have hnext : gs.mem.links.next a = todo.head?.getD 0 := hlist.links_eq.2.head_eq
    obtain ⟨k, ⟨b, hb, hk⟩, rfl, hfree, -⟩ := (hinv.filed _ _).mp ha
    have hok := hinv.blockOk b hb
    have hsize : gs.size k.addr = k.size := (hok.describes k hk).1
    simp only [List.head?_cons, Option.getD_some, releaseLoop, if_neg ha0, hnext, hsize]
    by_cases hwhole : k.size = blockSize
    · rw [if_pos hwhole]
      have hlayout := hok.eq_free fun k' hk' => by
        rw [hok.whole hk hwhole, List.mem_singleton] at hk'
        rw [hk', hfree]
      rw [hlayout, List.mem_singleton] at hk
      subst hk
      obtain ⟨gs₁, hrelease, hstep, hinv₁, hlimit, hfree₁⟩ := release_block h hb hlayout hinv hc
      rw [hrelease, Option.bind_some]
      have hb' : b ∉ done := fun hmem =>
        (List.nodup_append.mp hnodup).2.2 b hmem b (List.mem_cons_self ..) rfl
      have hchain' : Function.update chains lastBucket ((chains lastBucket).erase b) lastBucket =
          done ++ todo := by
        rw [Function.update_self, hchain, List.erase_append_right _ hb', List.erase_cons_head]
      have hahead' : ∀ b' ∈ (lists o c).blocks.erase b,
          layout b' = [⟨b', blockSize, false⟩] → b' ∈ todo := by
        intro b' hmem heq
        rw [hinv.nodup.mem_erase_iff] at hmem
        exact (List.mem_cons.mp (hahead b' hmem.2 heq)).resolve_left hmem.1
      obtain ⟨gs', fl', hloop, hblocks, hstep', hlimit', hfree'⟩ := ih hstep.shape hc
        (by rw [setList_self]; exact hinv₁) hchain' (by rw [setList_self]; exact hahead') hfuel'
      rw [setList_self] at hloop hblocks hfree'
      rw [setList_setList] at hstep'
      refine ⟨gs', fl', hloop, hblocks.trans ?_, hstep.trans_same hstep' hlimit'.ge,
        hlimit'.trans hlimit, fun S hshort hwithin hfree => hfree' S hshort (fun b' hb' => ?_)
          (hfree₁ S hshort hwithin hfree)⟩
      · exact filter_erase hinv.nodup (by simp [holdsChunk, hlayout])
      · exact hwithin b' (List.mem_of_mem_erase hb')
    · -- the chunk is not a whole block, so none of the blocks to give back is passed over
      rw [if_neg hwhole]
      have hahead' : ∀ b' ∈ (lists o c).blocks, layout b' = [⟨b', blockSize, false⟩] → b' ∈ todo := by
        intro b' hb' heq
        refine (List.mem_cons.mp (hahead b' hb' heq)).resolve_left fun haddr => hwhole ?_
        have hmem : (⟨b', blockSize, false⟩ : Chunk) ∈ layout b' := by
          rw [heq]
          exact List.mem_singleton_self _
        rw [(hinv.chunk_eq hb hb' hk hmem haddr.symm).2]
      exact ih h hc hinv (by rw [hchain, List.append_cons]) hahead' hfuel'

/-- A free list has no more blocks than are mapped. -/
theorem HeapShape.blocks_length (h : HeapShape cores gs lists layout jumbos) :
    (lists o c).blocks.length ≤ gs.allocatedBlocks := by
  obtain ⟨chains, hinv⟩ := h.list o c
  obtain ⟨live, ps, chain, hreg, hlive⟩ := h.regions
  have hnodup : ((lists o c).blocks.map fun b => (⟨b, blockSize⟩ : MemoryRegion)).Nodup :=
    hinv.nodup.map fun b b' heq => congrArg MemoryRegion.ptr heq
  have hsub : ((lists o c).blocks.map fun b => (⟨b, blockSize⟩ : MemoryRegion)) ⊆ live := by
    intro m hm
    obtain ⟨b, hb, rfl⟩ := List.mem_map.mp hm
    exact (hlive _).mpr (.inl ⟨o, c, b, hb, rfl⟩)
  have hlen := (hnodup.subperm hsub).length_le
  rw [List.length_map] at hlen
  exact hlen.trans hreg.live_length

/-- **`releaseFreeBlocks` of a free list.** -/
theorem releaseFreeBlocks_spec (h : HeapShape cores gs lists layout jumbos) (hc : c < cores) :
    ∃ gs' fl', releaseFreeBlocks gs (lists o c) = some (gs', fl') ∧
      fl'.blocks = (lists o c).blocks.filter (holdsChunk layout) ∧ gs'.limit = gs.limit ∧
      HeapStep cores gs lists layout jumbos o none none gs' (setList lists o c fl') layout jumbos ∧
      GivesBack layout (lists o c).blocks gs gs' := by
  obtain ⟨chains, hinv⟩ := h.list o c
  have hlen : (chains lastBucket).length < gs.maxChunks + 1 :=
    Nat.lt_succ_of_le ((hinv.chain_length lastBucket).trans
      (Nat.mul_le_mul_right _ (h.blocks_length (o := o) (c := c))))
  obtain ⟨gs', fl', hloop, hblocks, hstep, hlimit, hfree⟩ := releaseLoop_spec h hc hinv
    (List.nil_append _).symm (fun _ hb heq => hinv.block_filed hb heq) hlen
  rw [← (hinv.family.isList lastBucket).head_eq] at hloop
  exact ⟨gs', fl', hloop, hblocks, hlimit, hstep, hfree⟩

end Block

end Pronto
