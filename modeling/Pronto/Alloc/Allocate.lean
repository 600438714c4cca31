import Pronto.Alloc.Carve

/-!
# Allocation keeps the layout

`alloc` either cuts a chunk from a free one or takes a chunk from a new block. In both cases one chunk
in use is added and the others stay (`Allocated`); the blocks stay in order (`ListInv`), except that a
remainder may get the wrong flag `last`, exactly if `splitFlagRight` fails. That flaw is described by
`SplitFlaw`.
-/

namespace Pronto

open Function Linked Tiling

variable {s s' : ListState} {layout : ℕ → List Chunk} {chains : ℕ → List ℕ} {size : ℕ}

/-! ## New blocks -/

/-- The chunks of a new block. -/
def newLayout (block size : ℕ) : List Chunk :=
  if size < blockSize then [⟨block, size, true⟩, ⟨block + size, blockSize - size, false⟩]
  else [⟨block, size, true⟩]

section NewBlock

variable {block : ℕ}

/-- The chunks after a block has been added. -/
theorem isChunk_cons {blocks : List ℕ} (hnew : block ∉ blocks) {ks : List Chunk} {x : Chunk} :
    IsChunk (block :: blocks) (Function.update layout block ks) x ↔
      IsChunk blocks layout x ∨ x ∈ ks := by
  constructor
  · rintro ⟨b, hb, hx⟩
    rcases eq_or_ne b block with rfl | hne
    · rw [update_self] at hx
      exact .inr hx
    · rw [update_of_ne hne] at hx
      exact .inl ⟨b, (List.mem_cons.mp hb).resolve_left hne, hx⟩
  · rintro (⟨b, hb, hx⟩ | hx)
    · refine ⟨b, List.mem_cons_of_mem block hb, ?_⟩
      rwa [update_of_ne (ne_of_mem_of_not_mem hb hnew)]
    · exact ⟨block, by simp, by rwa [update_self]⟩

/-- The headers of a new block. -/
theorem newLayout_ok {hdr : ℕ → ChunkHeader} (hpos : 0 < size) (h64 : size % 64 = 0)
    (hle : size ≤ blockSize) (hmod : block % blockSize = 0)
    (hfirst : (hdr block).size = size ∧ (hdr block).used = true ∧
      (hdr block).last = isLastChunkOfBlock block size)
    (hsecond : size < blockSize → (hdr (block + size)).prevOffset = 0 ∧
      (hdr (block + size)).last = true ∧ (hdr (block + size)).used = false ∧
      (hdr (block + size)).size = blockSize - size) :
    BlockOk none hdr block (newLayout block size) := by
  have hflag : (hdr block).last = decide (block + size = block + blockSize) := by
    rw [hfirst.2.2, isLastChunkOfBlock, hmod, Bool.beq_eq_decide_eq]
    exact decide_eq_decide.mpr (by omega)
  have hoff : chunkOffset block = 0 := by rw [chunkOffset, hmod, Nat.zero_div]
  have hb64 : blockSize % 64 = 0 := by decide
  unfold newLayout
  split
  · rename_i hlt
    obtain ⟨hprev, hlast, hused, hsize⟩ := hsecond hlt
    have hend : block + size + (blockSize - size) = block + blockSize := by omega
    refine ⟨⟨rfl, rfl, hend⟩, ?_, ?_, ?_, ?_⟩
    · simp only [List.mem_cons, List.not_mem_nil, or_false, forall_eq_or_imp, forall_eq]
      omega
    · simp [hfirst, hsize, hused]
    · simp only [List.mem_cons, List.not_mem_nil, or_false, forall_eq_or_imp, forall_eq]
      exact ⟨fun _ => hflag, fun _ => hlast.trans (decide_eq_true hend).symm⟩
    · exact List.isChain_pair.mpr (.inr ⟨hprev.trans hoff.symm, .inl rfl⟩)
  · have heq : size = blockSize := by omega
    refine ⟨⟨rfl, congrArg (block + ·) heq⟩, ?_, ?_, ?_, List.isChain_singleton _⟩
    · simpa using ⟨hpos, h64⟩
    · simp [hfirst]
    · simpa using hflag

/-- Ownership only grows with a new block. -/
theorem Owned.cons {blocks : List ℕ} {a : ℕ} (h : Owned blocks a) : Owned (block :: blocks) a := by
  obtain ⟨b, hb, ha⟩ := h
  exact ⟨b, List.mem_cons_of_mem block hb, ha⟩

/-- What adding a block writes. -/
theorem ListState.addBlock_spec (hfamily : Family s.mem.links s.fl.buckets chains)
    (hpos : 0 < size) (hnew : size < blockSize → ∀ i, block + size ∉ chains i) :
    ((s.addBlock block size).hdr block = { s.hdr block with prevOffset := 0, used := false } ∧
      (size < blockSize → (s.addBlock block size).hdr (block + size) =
        ⟨0, s.fl.myId, true, false, (s.hdr (block + size)).jumbo, blockSize - size⟩) ∧
      ∀ x, x < block ∨ block + blockSize ≤ x → (s.addBlock block size).hdr x = s.hdr x) ∧
    (∀ x, (∀ i, x ∉ chains i) → (size < blockSize → x ≠ block + size) →
      SameLinks s (s.addBlock block size) x) ∧
    (∃ chains', Family (s.addBlock block size).mem.links (s.addBlock block size).fl.buckets chains' ∧
      ∀ i a, a ∈ chains' i ↔ a ∈ chains i ∨
        (size < blockSize ∧ a = block + size ∧ i = findBucket (blockSize - size))) ∧
    (TouchedOwned s → (∀ i, ∀ x ∈ chains i, Owned s.fl.blocks x) →
      TouchedOwned (s.addBlock block size)) ∧
    (s.addBlock block size).fl.blocks = block :: s.fl.blocks ∧
    (s.addBlock block size).mem.bitmap = s.mem.bitmap ∧
    (s.addBlock block size).fl.myId = s.fl.myId ∧
    (s.addBlock block size).fl.totalAllocated = s.fl.totalAllocated := by
  have hown : Owned (block :: s.fl.blocks) block :=
    ⟨block, by simp, le_rfl, by dsimp only [blockSize]; omega⟩
  rw [addBlock]
  dsimp only
  set s₁ : ListState := { s with fl := { s.fl with
    blocks := block :: s.fl.blocks
    globalAllocs := s.fl.globalAllocs + 1 } } with hs₁
  set s₂ := s₁.modify block fun h => { h with prevOffset := 0, used := false } with hs₂
  have hfirst : s₂.hdr block = { s.hdr block with prevOffset := 0, used := false } :=
    update_self _ _ _
  have hother : ∀ x, x ≠ block → s₂.hdr x = s.hdr x := fun x hx => update_of_ne hx _ _
  have ht₂ : TouchedOwned s → TouchedOwned s₂ := fun ht =>
    touchedOwned_modify (fun x hx => (ht x hx).cons) hown
  split
  · rename_i hlt
    have hne : block + size ≠ block := by omega
    have hmod : (blockSize - size) % 0x20000000 = blockSize - size :=
      Nat.mod_eq_of_lt (lt_of_le_of_lt (Nat.sub_le _ _) (by decide))
    set s₃ := s₂.modify (block + size) fun h =>
      { h.withSize (blockSize - size) with
        prevOffset := 0
        freeListId := s₂.fl.myId
        last := true
        used := false } with hs₃
    have hsecond : s₃.hdr (block + size) =
        ⟨0, s.fl.myId, true, false, (s.hdr (block + size)).jumbo, blockSize - size⟩ := by
      rw [hs₃, hdr_modify, update_self, hother _ hne]
      simp only [ChunkHeader.withSize, hmod]
      rfl
    have hfirst₃ : s₃.hdr block = s₂.hdr block := update_of_ne (Ne.symm hne) _ _
    rw [hsecond]
    dsimp only
    have hfamily₃ : Family s₃.mem.links s₃.fl.buckets chains := hfamily
    obtain ⟨hhdr₄, hrest₄, hfamily₄, htouch₄⟩ :=
      addFreeChunk_spec _ hfamily₃ (by omega) (hnew hlt)
    refine ⟨⟨?_, fun _ => ?_, fun x hx => ?_⟩, fun x hx hxne => ?_, ⟨_, hfamily₄, fun i a => ?_⟩,
      fun ht hchains => ?_,
      hrest₄.blocks_eq, hrest₄.bitmap_eq, hrest₄.myId_eq, hrest₄.total_eq⟩
    · rw [hhdr₄, hfirst₃, hfirst]
    · rw [hhdr₄, hsecond]
    · have hblock : 0 < blockSize := by decide
      have hthird : s₃.hdr x = s₂.hdr x := update_of_ne (by omega) _ _
      rw [hhdr₄, hthird, hother x (by omega)]
    · exact addFreeChunk_links _ hfamily₃ (by omega) (hnew hlt) (hxne hlt) hx
    · rw [Family.mem_push]
      simp [hlt]
    · have hown' : Owned (block :: s.fl.blocks) (block + size) :=
        ⟨block, by simp, by omega, by omega⟩
      have h₃ : TouchedOwned s₃ := touchedOwned_modify (ht₂ ht) hown'
      exact htouch₄ h₃ hown' fun x hx => (hchains _ x hx).cons
  · rename_i hlt
    have hblock : 0 < blockSize := by decide
    refine ⟨⟨hfirst, fun hlt' => absurd hlt' hlt, fun x hx => hother x (by omega)⟩,
      fun x _ _ => ⟨rfl, rfl⟩, ⟨chains, hfamily, by simp [hlt]⟩, fun ht _ => ht₂ ht, rfl, rfl, rfl, rfl⟩

/-- **Taking a chunk from a new block.** -/
theorem ListInv.addBlock (h : ListInv none s layout chains) (hpos : 0 < size) (h64 : size % 64 = 0)
    (hle : size ≤ blockSize) (hmod : block % blockSize = 0) (hne : block ≠ 0)
    (hnew : block ∉ s.fl.blocks) :
    ∃ chains', ListInv none ((s.addBlock block size).markUsed block size)
        (Function.update layout block (newLayout block size)) chains' ∧
      (TouchedOwned s → TouchedOwned ((s.addBlock block size).markUsed block size)) ∧
      Frame s ((s.addBlock block size).markUsed block size) chains block (block + blockSize) ∧
      ((s.addBlock block size).markUsed block size).fl.blocks = block :: s.fl.blocks ∧
      ((s.addBlock block size).markUsed block size).mem.bitmap = s.mem.bitmap ∧
      ((s.addBlock block size).markUsed block size).fl.myId = s.fl.myId ∧
      ((s.addBlock block size).markUsed block size).fl.totalAllocated =
        s.fl.totalAllocated + size := by
  -- blocks are aligned, so the chunks of the other blocks lie apart from the new one
  have hchunk : ∀ b ∈ s.fl.blocks, ∀ k ∈ layout b,
      k.addr + k.size ≤ block ∨ block + blockSize ≤ k.addr := by
    intro b hb k hk
    have hbounds := (h.blockOk b hb).bounds hk
    have hbmod := (h.aligned b hb).1
    have hbne : b ≠ block := ne_of_mem_of_not_mem hb hnew
    dsimp only [blockSize] at *
    omega
  have hnewchunk : size < blockSize → ∀ i, block + size ∉ chains i := by
    intro hlt i hi
    obtain ⟨k, ⟨b, hb, hk⟩, haddr, -⟩ := (h.filed i _).mp hi
    have hkpos := ((h.blockOk b hb).sizes k hk).1
    have hapart := hchunk b hb k hk
    omega
  obtain ⟨⟨hfirst, hsecond, hother⟩, hlinks, ⟨chains', hfamily, hchains⟩, htouch, hblocks, hbm, hid,
    htotal⟩ :=
    ListState.addBlock_spec (s := s) h.family hpos hnewchunk
  have hsmall : blockSize < 0x20000000 := by decide
  have hhdr := ListState.hdr_markUsed (s.addBlock block size) block
    (show size < 0x20000000 by omega)
  have hown : Owned (s.addBlock block size).fl.blocks block := by
    rw [hblocks]
    exact ⟨block, by simp, le_rfl, by omega⟩
  set s' := (s.addBlock block size).markUsed block size
  have hblocks' : s'.fl.blocks = block :: s.fl.blocks := hblocks
  have hout : ∀ x, x < block ∨ block + blockSize ≤ x → s'.mem.hdr x = s.mem.hdr x := by
    intro x hx
    show s'.hdr x = s.hdr x
    rw [hhdr, update_of_ne (by omega), hother x hx]
  have hframe : Frame s s' chains block (block + blockSize) :=
    ⟨fun x hx => hout x (by omega), fun x hx hrange => hlinks x hx fun hlt => by omega⟩
  refine ⟨chains', ⟨?_, ?_, ?_, hfamily, ?_⟩, fun ht => ?_, hframe, hblocks', hbm, hid,
    congrArg (· + size) htotal⟩
  · rw [hblocks']
    exact List.nodup_cons.mpr ⟨hnew, h.nodup⟩
  · rw [hblocks']
    exact List.forall_mem_cons.mpr ⟨⟨hmod, hne⟩, h.aligned⟩
  · rw [hblocks']
    refine List.forall_mem_cons.mpr ⟨?_, fun b hb => ?_⟩
    · rw [update_self]
      have hdescr : s'.hdr block = _ := congrFun hhdr block
      rw [update_self, hfirst] at hdescr
      refine newLayout_ok hpos h64 hle hmod ?_ fun hlt => ?_
      · exact ⟨congrArg _ hdescr, congrArg _ hdescr, congrArg _ hdescr⟩
      · have hrem : s'.hdr (block + size) = _ := congrFun hhdr (block + size)
        rw [update_of_ne (by omega), hsecond hlt] at hrem
        exact ⟨congrArg _ hrem, congrArg _ hrem, congrArg _ hrem, congrArg _ hrem⟩
    · rw [update_of_ne (ne_of_mem_of_not_mem hb hnew)]
      have hsame : ∀ k ∈ layout b, s'.mem.hdr k.addr = s.mem.hdr k.addr := by
        intro k hk
        have hkpos := ((h.blockOk b hb).sizes k hk).1
        have hapart := hchunk b hb k hk
        exact hout k.addr (by omega)
      refine (h.blockOk b hb).congr (fun k hk => ?_) fun k hk => ?_
      · rw [hsame k hk]
        exact ⟨rfl, rfl, rfl⟩
      · rw [hsame k (List.mem_of_mem_tail hk)]
  · -- the buckets: only the rest of the new block has been filed
    intro i a
    rw [hchains, h.filed, hblocks', FreeAt, FreeAt]
    simp only [isChunk_cons hnew, or_and_right, exists_or]
    refine or_congr_right ?_
    rw [newLayout]
    split
    · rename_i hlt
      simp only [hlt, List.mem_cons, List.not_mem_nil, or_false, exists_eq_or_imp, exists_eq_left,
        Bool.true_eq_false, false_and, and_false, false_or, true_and]
      exact and_congr eq_comm eq_comm
    · rename_i hlt
      simp [hlt]
  · exact ListState.touchedOwned_markUsed (htouch ht fun i x hx => h.chain_owned hx) hown

end NewBlock

/-! ## The result of `alloc` -/

/-- A chunk in use. -/
def InUse (blocks : List ℕ) (layout : ℕ → List Chunk) (k : Chunk) : Prop :=
  IsChunk blocks layout k ∧ k.used = true

/-- The flag `last` of the remainder is right, if `alloc` cuts the chunk from the front of a free
one. -/
def ListState.splitFlagRight (s : ListState) (size : ℕ) : Bool :=
  match s.search size with
  | some (some (bucket, fc), s) =>
    let remainder := (s.hdr fc).size - size
    staysInBucket bucket remainder || remainder == 0 ||
      isLastChunkOfBlock (fc + size) (s.hdr (fc + size)).size ==
        isLastChunkOfBlock (fc + size) remainder
  | _ => true

/-- The flaw is the remainder behind the chunk `n`, with a wrong flag; the chunk behind it still
refers to `n`. -/
def SplitFlaw (s : ListState) (layout : ℕ → List Chunk) (n : Chunk) (flaw : Option ℕ) : Prop :=
  ∀ f, flaw = some f → ∃ b ∈ s.fl.blocks, ∃ L r R, layout b = L ++ [n, r] ++ R ∧ r.addr = f ∧
    r.used = false ∧ (s.hdr f).last ≠ decide (f + r.size = b + blockSize) ∧
    ∀ m ∈ R.head?, (s.hdr m.addr).prevOffset = chunkOffset n.addr

/-- `alloc` has made `chunk` a chunk in use. -/
structure Allocated (s : ListState) (layout : ℕ → List Chunk) (size chunk : ℕ) (s' : ListState)
    (layout' : ℕ → List Chunk) (flaw' : Option ℕ) : Prop where
  inUse : ∀ k, InUse s'.fl.blocks layout' k ↔
    InUse s.fl.blocks layout k ∨ k = ⟨chunk, size, true⟩
  fresh : ∀ k, InUse s.fl.blocks layout k → k.addr ≠ chunk
  flaw : SplitFlaw s' layout' ⟨chunk, size, true⟩ flaw'
  touched : TouchedOwned s → flaw' = none → TouchedOwned s'
  bitmap_eq : s'.mem.bitmap = s.mem.bitmap
  myId_eq : s'.fl.myId = s.fl.myId
  total_eq : s'.fl.totalAllocated = s.fl.totalAllocated + size
  keeps : ∀ k, InUse s.fl.blocks layout k → KeepsPayload s s' k

section Alloc

variable {b : ℕ} {k : Chunk} {L R W' : List Chunk}

/-- Replacing a free chunk by others, one of them in use. -/
theorem ListInv.inUse_carve (h : ListInv none s layout chains) (hb : b ∈ s.fl.blocks)
    (hlayout : layout b = L ++ [k] ++ R) (hfree : k.used = false) {n : Chunk}
    (hW' : ∀ x ∈ W', x.used = true ↔ x = n) (hn : n ∈ W') (x : Chunk) :
    InUse s.fl.blocks (Function.update layout b (L ++ W' ++ R)) x ↔
      InUse s.fl.blocks layout x ∨ x = n := by
  rw [InUse, InUse, h.isChunk_replace hb hlayout]
  constructor
  · rintro ⟨⟨hx, -⟩ | hx, hused⟩
    · exact .inl ⟨hx, hused⟩
    · exact .inr ((hW' x hx).mp hused)
  · rintro (⟨hx, hused⟩ | rfl)
    · refine ⟨.inl ⟨hx, fun hxk => ?_⟩, hused⟩
      obtain rfl : x = k := by simpa using hxk
      simp [hfree] at hused
    · exact ⟨.inr hn, (hW' x hn).mpr rfl⟩

/-- No chunk in use starts inside a free one. -/
theorem ListInv.fresh_of_free (h : ListInv none s layout chains) (hk : IsChunk s.fl.blocks layout k)
    (hfree : k.used = false) {a : ℕ} (hlo : k.addr ≤ a) (hhi : a < k.addr + k.size) {x : Chunk}
    (hx : InUse s.fl.blocks layout x) : x.addr ≠ a := by
  rintro rfl
  have hne : k ≠ x := by
    rintro rfl
    simp [InUse, hfree] at hx
  obtain ⟨b, hb, hmem⟩ := hx.1
  have hpos := ((h.blockOk b hb).sizes x hmem).1
  have hsep := h.disjoint hk hx.1 hne
  omega

/-- No chunk in a bucket starts inside a chunk in use. -/
theorem ListInv.not_filed {flaw : Option ℕ} (h : ListInv flaw s layout chains)
    (hk : InUse s.fl.blocks layout k) {x : ℕ} (hlo : k.addr ≤ x) (hhi : x < k.addr + k.size) (i : ℕ) :
    x ∉ chains i := by
  intro hi
  obtain ⟨k', hk', rfl, hfree, -⟩ := (h.filed i x).mp hi
  have hne : k ≠ k' := by
    rintro rfl
    simp [InUse, hfree] at hk
  obtain ⟨b', hb', hmem⟩ := id hk'
  have hpos := ((h.blockOk b' hb').sizes k' hmem).1
  have hsep := h.disjoint hk.1 hk' hne
  omega

/-- Writing inside a free chunk keeps the payload of the chunks in use. -/
theorem ListInv.keepsPayload (h : ListInv none s layout chains) (hk : IsChunk s.fl.blocks layout k)
    (hfree : k.used = false) (hframe : Frame s s' chains k.addr (k.addr + k.size)) {x : Chunk}
    (hx : InUse s.fl.blocks layout x) : KeepsPayload s s' x := by
  have hne : x ≠ k := by
    rintro rfl
    simp [InUse, hfree] at hx
  exact hframe.keepsPayload (h.disjoint hx.1 hk hne) fun y hlo hhi => h.not_filed hx hlo hhi

/-- Cutting a chunk from a free one adds a chunk in use. -/
theorem ListInv.allocated (h : ListInv none s layout chains) (chunk size : ℕ) (W' : List Chunk)
    (hb : b ∈ s.fl.blocks) (hlayout : layout b = L ++ [k] ++ R) (hfree : k.used = false)
    {s₀ s₁ : ListState} {flaw' : Option ℕ} (hread : ReadOnly s s₀) (hlo : k.addr ≤ chunk)
    (hhi : chunk < k.addr + k.size) (hW' : ∀ x ∈ W', x.used = true ↔ x = ⟨chunk, size, true⟩)
    (hn : ⟨chunk, size, true⟩ ∈ W') (hrest : SameRest s₀ s₁)
    (htouch : TouchedOwned s₀ → flaw' = none → TouchedOwned s₁)
    (hframe : Frame s₀ ((s₁.touch chunk).markUsed chunk size) chains k.addr (k.addr + k.size))
    (hflaw : SplitFlaw ((s₁.touch chunk).markUsed chunk size)
      (Function.update layout b (L ++ W' ++ R)) ⟨chunk, size, true⟩ flaw') :
    ((s₁.touch chunk).markUsed chunk size).fl.blocks = s.fl.blocks ∧
      Allocated s layout size chunk ((s₁.touch chunk).markUsed chunk size)
        (Function.update layout b (L ++ W' ++ R)) flaw' := by
  have hrest' := hread.rest.trans hrest
  have hblocks : ((s₁.touch chunk).markUsed chunk size).fl.blocks = s.fl.blocks :=
    hrest'.blocks_eq
  have hkmem : k ∈ layout b := by rw [hlayout]; simp
  have hbounds := (h.blockOk b hb).bounds hkmem
  have hown : Owned s₁.fl.blocks chunk := by
    rw [hrest'.blocks_eq]
    exact ⟨b, hb, by omega, by omega⟩
  refine ⟨hblocks, ⟨fun x => ?_, fun x hx => ?_, hflaw, fun ht hnone => ?_, hrest'.bitmap_eq,
    hrest'.myId_eq, congrArg (· + size) hrest'.total_eq, fun x hx => ?_⟩⟩
  · rw [hblocks]
    exact h.inUse_carve hb hlayout hfree hW' hn x
  · exact h.fresh_of_free ⟨b, hb, hkmem⟩ hfree hlo hhi hx
  · have h₁ := htouch (hread.touched ht) hnone
    exact ListState.touchedOwned_markUsed (ListState.touchedOwned_touch h₁ hown) hown
  · -- the search before has only read, so the payloads are those at its end
    have h₀ := hread.listInv h
    rw [← hread.rest.blocks_eq] at hb hx
    exact (hread.keepsPayload x).trans (h₀.keepsPayload ⟨b, hb, hkmem⟩ hfree hframe hx)

/-- No flaw. -/
theorem splitFlaw_none (s : ListState) (layout : ℕ → List Chunk) (n : Chunk) :
    SplitFlaw s layout n none := fun _ heq => nomatch heq

/-- **`findBestMatch`, followed by the end of `alloc`.** It finds nothing, or adds a chunk in use. -/
theorem ListState.findBestMatch_spec (h : ListInv none s layout chains) (hpos : 0 < size)
    (h64 : size % 64 = 0) :
    (∃ s₁, s.findBestMatch size = some (0, s₁) ∧ s.search size = some (none, s₁) ∧ ReadOnly s s₁ ∧
      s.splitFlagRight size = true) ∨
    ∃ chunk s₁ layout' chains' flaw', s.findBestMatch size = some (chunk, s₁) ∧ chunk ≠ 0 ∧
      (flaw' = none ↔ s.splitFlagRight size = true) ∧
      (s₁.markUsed chunk size).fl.blocks = s.fl.blocks ∧
      ListInv flaw' (s₁.markUsed chunk size) layout' chains' ∧
      Allocated s layout size chunk (s₁.markUsed chunk size) layout' flaw' ∧
      ∃ k, IsChunk s.fl.blocks layout k ∧ k.used = false ∧ k.addr ≤ chunk ∧
        chunk + size ≤ k.addr + k.size := by
  obtain ⟨r, s₀, hsearch, hread, hfound⟩ := search_spec h
  rcases r with _ | ⟨bucket, fc⟩
  · refine .inl ⟨s₀, ?_, hsearch, hread, ?_⟩
    · rw [findBestMatch, hsearch]
    · rw [splitFlagRight, hsearch]
  obtain ⟨hlt, hmem, hle⟩ := hfound bucket fc rfl
  obtain ⟨k, ⟨b, hb, hkmem⟩, rfl, hfree, hbucket⟩ := (h.filed bucket fc).mp hmem
  obtain ⟨L, R, hsplit⟩ := List.append_of_mem hkmem
  have hlayout : layout b = L ++ [k] ++ R := by simpa using hsplit
  -- the search has only read
  have h₀ := hread.listInv h
  have hb₀ : b ∈ s₀.fl.blocks := by
    rw [hread.rest.blocks_eq]
    exact hb
  have hksize : (s₀.hdr k.addr).size = k.size := (h₀.free_chunk hb₀ hlayout hfree).1.1
  rw [show s.hdr = s₀.hdr from hread.hdr_eq.symm, hksize] at hle
  have haddr := h.addr_ne_zero hb hkmem
  right
  rw [findBestMatch, splitFlagRight, hsearch]
  simp only [hksize]
  by_cases hstays : staysInBucket bucket (k.size - size) = true
  · -- the chunk is cut from the end
    obtain ⟨s₁, hs₁, hused, hrest, htouch, hframe, hinv⟩ :=
      h₀.carveBack hb₀ hlayout hfree hpos h64 hle hbucket hlt hstays
    obtain ⟨hblocks, halloc⟩ := h.allocated (k.addr + (k.size - size)) size
      [⟨k.addr, k.size - size, false⟩, ⟨k.addr + (k.size - size), size, true⟩] hb hlayout hfree hread
      (by omega) (by omega) (by simp) (by simp) hrest (fun ht _ => htouch ht) hframe
      (splitFlaw_none _ _ _)
    refine ⟨_, s₁.touch (k.addr + (k.size - size)), _, _, none, ?_, by omega, ?_, hblocks, hinv,
      halloc, k, ⟨b, hb, hkmem⟩, hfree, by omega, by omega⟩
    · rw [if_pos hstays, hs₁]
      exact if_pos hused
    · simp [hstays]
  · rw [if_neg hstays]
    rcases Nat.eq_zero_or_pos (k.size - size) with hzero | hrem
    · -- the whole chunk
      have heq : size = k.size := by omega
      obtain ⟨chains', hused, hrest, htouch, hframe, hinv⟩ :=
        h₀.carveWhole hb₀ hlayout hfree hpos h64 hbucket heq
      obtain ⟨hblocks, halloc⟩ := h.allocated k.addr size [⟨k.addr, size, true⟩] hb hlayout
        hfree hread le_rfl (by omega) (by simp) (by simp) hrest (fun ht _ => htouch ht) hframe
        (splitFlaw_none _ _ _)
      refine ⟨k.addr, _, _, chains', none, ?_, haddr, ?_, hblocks, hinv, halloc, k, ⟨b, hb, hkmem⟩,
        hfree, le_rfl, by omega⟩
      · rw [hzero, splitFront_whole]
        exact if_pos hused
      · simp [hzero]
    · -- the chunk is cut from the front
      obtain ⟨s₁, chains', hs₁, hused, hrest, htouch, hframe, hinv, hflawed⟩ :=
        h₀.carveFront hb₀ hlayout hfree hpos h64 hbucket (by omega) rfl
      set flaw' : Option ℕ :=
        if isLastChunkOfBlock (k.addr + size) (s₀.hdr (k.addr + size)).size =
          isLastChunkOfBlock (k.addr + size) (k.size - size) then none else some (k.addr + size)
        with hflaw'
      have hsplitFlaw : SplitFlaw ((s₁.touch k.addr).markUsed k.addr size)
          (Function.update layout b
            (L ++ [⟨k.addr, size, true⟩, ⟨k.addr + size, k.size - size, false⟩] ++ R))
          ⟨k.addr, size, true⟩ flaw' := by
        intro f hf
        obtain rfl : k.addr + size = f := by
          rw [hflaw'] at hf
          split at hf
          · cases hf
          · simpa using hf
        obtain ⟨hlast, hprev⟩ := hflawed (by simp [hf])
        have hend : k.addr + size + (k.size - size) = k.addr + k.size := by omega
        refine ⟨b, ?_, L, _, R, update_self _ _ _, rfl, rfl, ?_, hprev⟩
        · show b ∈ s₁.fl.blocks
          rw [hrest.blocks_eq]
          exact hb₀
        · rwa [hend]
      obtain ⟨hblocks, halloc⟩ := h.allocated k.addr size _ hb hlayout hfree hread le_rfl
        (by omega) (by simp) (by simp) hrest htouch hframe hsplitFlaw
      refine ⟨k.addr, _, _, chains', flaw', ?_, haddr, ?_, hblocks, hinv, halloc, k, ⟨b, hb, hkmem⟩,
        hfree, le_rfl, by omega⟩
      · rw [hs₁]
        exact if_pos hused
      · simp [hflaw', hstays, Nat.ne_of_gt hrem]

/-- Reading before the allocation makes no difference. -/
theorem Allocated.of_readOnly {s₁ : ListState} {chunk : ℕ} {layout' : ℕ → List Chunk}
    {flaw' : Option ℕ} (h : Allocated s₁ layout size chunk s' layout' flaw') (hread : ReadOnly s s₁) :
    Allocated s layout size chunk s' layout' flaw' := by
  have hblocks := hread.rest.blocks_eq
  refine ⟨?_, ?_, h.flaw, fun ht hnone => h.touched (hread.touched ht) hnone, ?_, ?_, ?_,
    fun k hk => ?_⟩
  · rw [← hblocks]
    exact h.inUse
  · rw [← hblocks]
    exact h.fresh
  · exact h.bitmap_eq.trans hread.rest.bitmap_eq
  · exact h.myId_eq.trans hread.rest.myId_eq
  · rw [h.total_eq, hread.rest.total_eq]
  · rw [← hblocks] at hk
    exact (hread.keepsPayload k).trans (h.keeps k hk)

/-- A chunk from a new block. -/
theorem ListInv.addBlock_allocated (h : ListInv none s layout chains) {block : ℕ} (hpos : 0 < size)
    (h64 : size % 64 = 0) (hle : size ≤ blockSize) (hmod : block % blockSize = 0) (hne : block ≠ 0)
    (hnew : block ∉ s.fl.blocks) :
    ∃ chains', ListInv none ((s.addBlock block size).markUsed block size)
        (Function.update layout block (newLayout block size)) chains' ∧
      ((s.addBlock block size).markUsed block size).fl.blocks = block :: s.fl.blocks ∧
      Allocated s layout size block ((s.addBlock block size).markUsed block size)
        (Function.update layout block (newLayout block size)) none := by
  obtain ⟨chains', hinv, htouch, hframe, hblocks, hbm, hid, htotal⟩ :=
    h.addBlock hpos h64 hle hmod hne hnew
  refine ⟨chains', hinv, hblocks, ⟨fun k => ?_, fun k hk => ?_, splitFlaw_none _ _ _,
    fun ht _ => htouch ht, hbm, hid, htotal, fun k hk => ?_⟩⟩
  · rw [hblocks, InUse, InUse, isChunk_cons hnew, or_and_right]
    refine or_congr_right ?_
    rw [newLayout]
    split
    · constructor
      · simp only [List.mem_cons, List.not_mem_nil, or_false]
        rintro ⟨rfl | rfl, hused⟩
        · rfl
        · cases hused
      · rintro rfl
        simp
    · constructor
      · simp only [List.mem_singleton]
        exact And.left
      · rintro rfl
        simp
  · -- the block was not one of the list, so no chunk in use starts there
    rintro rfl
    obtain ⟨b, hb, hmem⟩ := hk.1
    have hbounds := (h.blockOk b hb).bounds hmem
    have hlt := (h.blockOk b hb).addr_lt hmem
    have hbmod := (h.aligned b hb).1
    have hbne : b ≠ k.addr := ne_of_mem_of_not_mem hb hnew
    dsimp only [blockSize] at *
    omega
  · obtain ⟨b, hb, hmem⟩ := id hk.1
    have hbounds := (h.blockOk b hb).bounds hmem
    have hbmod := (h.aligned b hb).1
    have hbne : b ≠ block := ne_of_mem_of_not_mem hb hnew
    refine hframe.keepsPayload ?_ fun x hlo hhi => h.not_filed hk hlo hhi
    dsimp only [blockSize] at *
    omega

variable {γ : Type*}

/-- **`alloc` cuts a chunk from a free one, or asks for a new block.** -/
theorem ListState.alloc_spec (galloc : γ → HeapMemory → Option (ℕ × γ × HeapMemory)) (g : γ)
    (h : ListInv none s layout chains) (hpos : 0 < size) (h64 : size % 64 = 0) :
    (∃ chunk s' layout' chains' flaw', s.alloc galloc g size = some (chunk, g, s') ∧ chunk ≠ 0 ∧
      (flaw' = none ↔ s.splitFlagRight size = true) ∧ s'.fl.blocks = s.fl.blocks ∧
      ListInv flaw' s' layout' chains' ∧ Allocated s layout size chunk s' layout' flaw') ∨
    ∃ s₁, ReadOnly s s₁ ∧ s.splitFlagRight size = true ∧
      s.alloc galloc g size =
        match galloc g s₁.mem with
        | none => none
        | some (block, g, mem) =>
          if block ≠ 0 then
            some (block, g, (ListState.addBlock ⟨mem, s₁.fl⟩ block size).markUsed block size)
          else none := by
  rcases findBestMatch_spec h hpos h64 with ⟨s₁, hfind, -, hread, hright⟩ |
    ⟨chunk, s₁, layout', chains', flaw', hfind, hne, hflaw, hblocks, hinv, halloc, -⟩
  · refine .inr ⟨s₁, hread, hright, ?_⟩
    rw [alloc, hfind]
    exact if_neg (by simp)
  · refine .inl ⟨chunk, s₁.markUsed chunk size, layout', chains', flaw', ?_, hne, hflaw, hblocks,
      hinv, halloc⟩
    rw [alloc, hfind]
    exact if_pos hne

end Alloc

end Pronto
