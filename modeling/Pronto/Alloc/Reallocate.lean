import Pronto.Alloc.Extend

/-!
# Reallocation

`realloc` returns a chunk that is already large enough, grows it in place (`ListInv.extend`), or
allocates a new chunk, copies the payload and frees the old one. In every case the result holds the old
payload and the other chunks in use are untouched (`realloc_spec`).

New blocks come from the global allocator. What is assumed of it is `Serves`: at this call it returns an
aligned block that the list does not own yet, and leaves the blocks of the list as they are.
-/

namespace Pronto

open Linked Tiling

variable {γ : Type*} {s : ListState} {layout : ℕ → List Chunk} {chains : ℕ → List ℕ} {size : ℕ}
  {flaw : Option ℕ}

/-! ## Blocks from the global allocator -/

/-- A block that the list does not own, with any content. The call may change any other memory, such as
the headers of the allocator's own free regions. -/
structure Granted (blocks : List ℕ) (m : HeapMemory) (block : ℕ) (m' : HeapMemory) : Prop where
  aligned : block % blockSize = 0
  ne_zero : block ≠ 0
  fresh : block ∉ blocks
  hdr_eq : ∀ x, Owned blocks x → m'.hdr x = m.hdr x
  links_eq : ∀ x, Owned blocks x →
    m'.links.prev x = m.links.prev x ∧ m'.links.next x = m.links.next x
  bitmap_eq : m'.bitmap = m.bitmap
  touched_eq : m'.touched = m.touched

/-- The global allocator returns a block when the list `s` asks for one, after it has searched its
buckets. -/
def Serves (galloc : γ → HeapMemory → Option (ℕ × γ × HeapMemory)) (g : γ) (s : ListState) : Prop :=
  ∀ s₁, ReadOnly s s₁ → ∃ block g' m', galloc g s₁.mem = some (block, g', m') ∧
    Granted s.fl.blocks s₁.mem block m'

/-- A list depends on the headers of its chunks and the links of its buckets. -/
theorem ListInv.congr (h : ListInv flaw s layout chains) {m' : HeapMemory}
    (hhdr : ∀ k, IsChunk s.fl.blocks layout k → m'.hdr k.addr = s.mem.hdr k.addr)
    (hlinks : ∀ i, ∀ a ∈ chains i,
      m'.links.prev a = s.mem.links.prev a ∧ m'.links.next a = s.mem.links.next a) :
    ListInv flaw ⟨m', s.fl⟩ layout chains := by
  refine ⟨h.nodup, h.aligned, fun b hb => ?_, h.family.congr hlinks, h.filed⟩
  refine (h.blockOk b hb).congr (fun k hk => ?_) fun k hk => ?_
  · show (m'.hdr k.addr).size = _ ∧ (m'.hdr k.addr).used = _ ∧ (m'.hdr k.addr).last = _
    rw [hhdr k ⟨b, hb, hk⟩]
    exact ⟨rfl, rfl, rfl⟩
  · show (m'.hdr k.addr).prevOffset = _
    rw [hhdr k ⟨b, hb, List.mem_of_mem_tail hk⟩]

/-- A new block does not disturb the list. -/
theorem ListInv.granted (h : ListInv flaw s layout chains) {block : ℕ} {m' : HeapMemory}
    (hg : Granted s.fl.blocks s.mem block m') : ListInv flaw ⟨m', s.fl⟩ layout chains :=
  h.congr (fun _ ⟨_, hb, hk⟩ => hg.hdr_eq _ (h.owned hb hk))
    fun _ a ha => hg.links_eq a (h.chain_owned ha)

/-- The chunks lie in the blocks. -/
theorem ListInv.owned_inside (h : ListInv flaw s layout chains) {k : Chunk}
    (hk : IsChunk s.fl.blocks layout k) {x : ℕ} (hlo : k.addr ≤ x) (hhi : x < k.addr + k.size) :
    Owned s.fl.blocks x := by
  obtain ⟨b, hb, hmem⟩ := hk
  have hbounds := (h.blockOk b hb).bounds hmem
  exact ⟨b, hb, by omega, by omega⟩

/-- **`alloc` returns a chunk, if the global allocator serves it.** -/
theorem ListState.alloc_served (galloc : γ → HeapMemory → Option (ℕ × γ × HeapMemory)) (g : γ)
    (h : ListInv none s layout chains) (hpos : 0 < size) (h64 : size % 64 = 0) (hle : size ≤ blockSize)
    (hserves : Serves galloc g s) :
    ∃ chunk g' s' layout' chains' flaw', s.alloc galloc g size = some (chunk, g', s') ∧
      (flaw' = none ↔ s.splitFlagRight size = true) ∧ ListInv flaw' s' layout' chains' ∧
      Allocated s layout size chunk s' layout' flaw' := by
  rcases alloc_spec galloc g h hpos h64 with
    ⟨chunk, s', layout', chains', flaw', halloc, -, hflaw, -, hinv, hresult⟩ |
    ⟨s₁, hread, hright, halloc⟩
  · exact ⟨chunk, g, s', layout', chains', flaw', halloc, hflaw, hinv, hresult⟩
  · obtain ⟨block, g', m', hgalloc, hg⟩ := hserves s₁ hread
    rw [← hread.rest.blocks_eq] at hg
    have h₁ := hread.listInv h
    have h₂ := h₁.granted hg
    obtain ⟨chains', hinv, -, hresult⟩ := h₂.addBlock_allocated hpos h64 hle hg.aligned hg.ne_zero
      hg.fresh
    refine ⟨block, g', _, _, chains', none, ?_, by simp [hright], hinv, ?_⟩
    · rw [halloc, hgalloc]
      exact if_pos hg.ne_zero
    · refine Allocated.of_readOnly ?_ hread
      refine ⟨hresult.inUse, hresult.fresh, hresult.flaw, fun ht => hresult.touched ?_, ?_,
        hresult.myId_eq, hresult.total_eq, fun k hk => ?_⟩
      · intro x hx
        rw [show x ∈ m'.touched ↔ x ∈ s₁.mem.touched by rw [hg.touched_eq]] at hx
        exact ht x hx
      · exact hresult.bitmap_eq.trans hg.bitmap_eq
      · have hin := fun x => h₁.owned_inside hk.1 (x := x)
        refine KeepsPayload.trans ⟨fun x hlo hhi => ?_, fun x hlo hhi => ?_⟩ (hresult.keeps k hk)
        · exact hg.hdr_eq x (hin x (by omega) hhi)
        · exact hg.links_eq x (hin x hlo hhi)

/-! ## Copying the payload -/

section Copy

variable {n : Chunk} {src len : ℕ}

/-- The headers of the chunks are not overwritten by a copy into a chunk. -/
theorem ListInv.hdr_copyPayload (h : ListInv flaw s layout chains)
    (hn : IsChunk s.fl.blocks layout n) (hlen : len ≤ n.size) {k : Chunk}
    (hk : IsChunk s.fl.blocks layout k) :
    (s.copyPayload src n.addr len).hdr k.addr = s.hdr k.addr := by
  refine if_neg fun ⟨hlo, hhi⟩ => ?_
  have hne : k ≠ n := by
    rintro rfl
    omega
  have hsep := h.disjoint hk hn hne
  obtain ⟨b, hb, hmem⟩ := hk
  have hpos := ((h.blockOk b hb).sizes k hmem).1
  omega

/-- A copy into a chunk in use keeps the layout. -/
theorem ListInv.copyPayload (h : ListInv flaw s layout chains) (hn : InUse s.fl.blocks layout n)
    (hlen : len ≤ n.size) : ListInv flaw (s.copyPayload src n.addr len) layout chains := by
  refine h.congr (fun k hk => h.hdr_copyPayload hn.1 hlen hk) fun i a ha => ?_
  have hout : ¬ (n.addr ≤ a ∧ a < n.addr + len) := fun ⟨hlo, hhi⟩ =>
    h.not_filed hn hlo (by omega) i ha
  exact ⟨if_neg hout, if_neg hout⟩

/-- The flaw stays where it is. -/
theorem SplitFlaw.congr {s' : ListState} (h : SplitFlaw s layout n flaw)
    (hblocks : s'.fl.blocks = s.fl.blocks)
    (hhdr : ∀ k, IsChunk s.fl.blocks layout k → s'.hdr k.addr = s.hdr k.addr) :
    SplitFlaw s' layout n flaw := by
  intro f hf
  obtain ⟨b, hb, L, r, R, hlayout, rfl, hfree, hlast, hprev⟩ := h f hf
  refine ⟨b, hblocks ▸ hb, L, r, R, hlayout, rfl, hfree, ?_, fun m hm => ?_⟩
  · rw [hhdr r ⟨b, hb, by rw [hlayout]; simp⟩]
    exact hlast
  · rw [hhdr m ⟨b, hb, by rw [hlayout]; simp [List.mem_of_head? hm]⟩]
    exact hprev m hm

/-- A copy keeps the payload of the other chunks. -/
theorem ListInv.keepsPayload_copy (h : ListInv flaw s layout chains)
    (hn : IsChunk s.fl.blocks layout n) (hlen : len ≤ n.size) {k : Chunk}
    (hk : IsChunk s.fl.blocks layout k) (hne : k ≠ n) :
    KeepsPayload s (s.copyPayload src n.addr len) k := by
  have hsep := h.disjoint hk hn hne
  refine ⟨fun x hlo hhi => if_neg ?_, fun x hlo hhi => ⟨if_neg ?_, if_neg ?_⟩⟩ <;> omega

end Copy

/-- The payload of the chunk at `a'` starts with the `size - 8` bytes of payload of the chunk at `a`. -/
def SamePayload (s : ListState) (a : ℕ) (s' : ListState) (a' size : ℕ) : Prop :=
  ∀ x < size, (0 < x → s'.hdr (a' + x) = s.hdr (a + x)) ∧
    s'.mem.links.prev (a' + x) = s.mem.links.prev (a + x) ∧
    s'.mem.links.next (a' + x) = s.mem.links.next (a + x)

theorem KeepsPayload.samePayload {s' : ListState} {k : Chunk} (h : KeepsPayload s s' k) :
    SamePayload s k.addr s' k.addr k.size := fun x hx =>
  ⟨fun hpos => h.hdr_eq _ (by omega) (by omega), h.links_eq _ (by omega) (by omega)⟩

/-- A copy of a chunk has its payload. -/
theorem samePayload_copy (s : ListState) (src dst len : ℕ) :
    SamePayload s src (s.copyPayload src dst len) dst len := by
  intro x hx
  have hsub : dst + x - dst + src = src + x := by omega
  refine ⟨fun hpos => ?_, ?_, ?_⟩
  · show (if dst < dst + x ∧ dst + x < dst + len then s.mem.hdr (dst + x - dst + src) else _) = _
    rw [if_pos ⟨by omega, by omega⟩, hsub]
    rfl
  · show (if dst ≤ dst + x ∧ dst + x < dst + len then s.mem.links.prev (dst + x - dst + src) else _)
      = _
    rw [if_pos ⟨by omega, by omega⟩, hsub]
  · show (if dst ≤ dst + x ∧ dst + x < dst + len then s.mem.links.next (dst + x - dst + src) else _)
      = _
    rw [if_pos ⟨by omega, by omega⟩, hsub]

/-! ## The result of `realloc` -/

/-- The chunk `c` has moved to a new chunk at `n`, and its bytes now belong to the free chunk `fc`. -/
structure Moved (s : ListState) (layout : ℕ → List Chunk) (c : Chunk) (newSize n : ℕ) (fc : Chunk)
    (s' : ListState) (layout' : ℕ → List Chunk) (flaw' : Option ℕ) : Prop where
  inUse : ∀ k, InUse s'.fl.blocks layout' k ↔
    (InUse s.fl.blocks layout k ∧ k ≠ c) ∨ k = ⟨n, newSize, true⟩
  fresh : ∀ k, InUse s.fl.blocks layout k → k.addr ≠ n
  payload : SamePayload s c.addr s' n c.size
  keeps : ∀ k, InUse s.fl.blocks layout k → k ≠ c → KeepsPayload s s' k
  isChunk : IsChunk s'.fl.blocks layout' fc
  free : fc.used = false
  covers : fc.addr ≤ c.addr ∧ c.addr + c.size ≤ fc.addr + fc.size
  total_eq : s'.fl.totalAllocated = s.fl.totalAllocated + newSize - c.size
  myId_eq : s'.fl.myId = s.fl.myId
  bitmap_eq : s'.mem.bitmap =
    ((ListState.unsetFreed s.mem c.addr c.size fc.addr fc.size).setBitmap n newSize).bitmap
  touched : TouchedOwned s → flaw' = none → TouchedOwned s'

section Realloc

variable {c : Chunk} {newSize : ℕ}

/-- **Moving a chunk.** -/
theorem ListState.move_spec (galloc : γ → HeapMemory → Option (ℕ × γ × HeapMemory)) (g : γ)
    (h : ListInv none s layout chains) (hc : InUse s.fl.blocks layout c) (hlt : c.size < newSize)
    (h64 : newSize % 64 = 0) (hle : newSize ≤ blockSize) (hserves : Serves galloc g s) :
    ∃ n fc g' s' layout' chains' flaw',
      (match s.alloc galloc g newSize with
        | none => none
        | some (newChunk, g, s) =>
          match (s.copyPayload c.addr newChunk (s.hdr c.addr).size).dealloc c.addr with
          | none => none
          | some s => some (newChunk, g, { s with mem := s.mem.setBitmap newChunk newSize })) =
        (if c.size ≤ s.fl.totalAllocated + newSize then some (n, g', s') else none) ∧
      (flaw' = none ↔ s.splitFlagRight newSize = true) ∧ ListInv flaw' s' layout' chains' ∧
      Moved s layout c newSize n fc s' layout' flaw' := by
  obtain ⟨n, g', s₁, layout₁, chains₁, flaw', halloc, hflaw, h₁, hresult⟩ :=
    alloc_served galloc g h (by omega) h64 hle hserves
  have hn₁ : InUse s₁.fl.blocks layout₁ ⟨n, newSize, true⟩ := (hresult.inUse _).mpr (.inr rfl)
  have hc₁ : InUse s₁.fl.blocks layout₁ c := (hresult.inUse c).mpr (.inl hc)
  have hnc : (⟨n, newSize, true⟩ : Chunk) ≠ c := fun heq => hresult.fresh c hc (by rw [← heq])
  have hcsize₁ : (s₁.hdr c.addr).size = c.size := by
    obtain ⟨⟨b, hb, hmem⟩, -⟩ := hc₁
    exact ((h₁.blockOk b hb).describes c hmem).1
  have hcopy : ListInv _ (s₁.copyPayload c.addr n c.size) layout₁ _ :=
    h₁.copyPayload hn₁ (by show c.size ≤ newSize; omega)
  have hkeep₁ : ∀ k, InUse s₁.fl.blocks layout₁ k → k ≠ ⟨n, newSize, true⟩ →
      KeepsPayload s₁ (s₁.copyPayload c.addr n c.size) k := fun k hk hne =>
    h₁.keepsPayload_copy hn₁.1 (by show c.size ≤ newSize; omega) hk.1 hne
  have hpayload₁ := samePayload_copy s₁ c.addr n c.size
  have hflaw₁ : SplitFlaw (s₁.copyPayload c.addr n c.size) layout₁ _ _ := hresult.flaw.congr rfl
    fun k hk => h₁.hdr_copyPayload hn₁.1 (by show c.size ≤ newSize; omega) hk
  set s₂ := s₁.copyPayload c.addr n c.size
  obtain ⟨s₃, layout₃, chains₃, fc, hdealloc, h₃, hfreed⟩ :=
    dealloc_spec hcopy (c := c) hc₁ hflaw₁ rfl hnc
  -- the chunks in use after `dealloc` keep their payload
  have hkeep₃ : ∀ k, InUse s₃.fl.blocks layout₃ k → KeepsPayload s₂ s₃ k := by
    intro k hk
    have hne : k ≠ fc := by
      rintro rfl
      simp [InUse, hfreed.free] at hk
    refine hfreed.frame.keepsPayload (h₃.disjoint hk.1 hfreed.isChunk hne) fun x hlo hhi => ?_
    exact hcopy.not_filed ((hfreed.inUse k).mp hk).1 hlo hhi
  have hn₃ : InUse s₃.fl.blocks layout₃ ⟨n, newSize, true⟩ := (hfreed.inUse _).mpr ⟨hn₁, hnc⟩
  refine ⟨n, fc, g', { s₃ with mem := s₃.mem.setBitmap n newSize }, layout₃, chains₃, flaw', ?_, hflaw,
    h₃.congr (fun _ _ => rfl) fun _ _ _ => ⟨rfl, rfl⟩, ?_⟩
  · rw [halloc]
    dsimp only
    rw [hcsize₁, hdealloc]
    have htotal : s₂.fl.totalAllocated = s.fl.totalAllocated + newSize := hresult.total_eq
    rw [htotal]
    by_cases hcovers : c.size ≤ s.fl.totalAllocated + newSize
    · rw [if_pos hcovers, if_pos hcovers]
    · rw [if_neg hcovers, if_neg hcovers]
  · refine ⟨fun k => ?_, hresult.fresh, fun x hx => ?_, fun k hk hkc => ?_, hfreed.isChunk,
      hfreed.free, hfreed.covers, ?_, hfreed.myId_eq.trans hresult.myId_eq, ?_, fun ht hnone => ?_⟩
    · refine (hfreed.inUse k).trans ?_
      refine (and_congr_left' (hresult.inUse k)).trans ?_
      constructor
      · rintro ⟨hk | hk, hkc⟩
        · exact .inl ⟨hk, hkc⟩
        · exact .inr hk
      · rintro (⟨hk, hkc⟩ | rfl)
        · exact ⟨.inl hk, hkc⟩
        · exact ⟨.inr rfl, hnc⟩
    · obtain ⟨hhdr, hprev, hnext⟩ := (hresult.keeps c hc).samePayload x hx
      obtain ⟨hhdr₁, hprev₁, hnext₁⟩ := hpayload₁ x hx
      obtain ⟨hhdr₃, hprev₃, hnext₃⟩ := (hkeep₃ _ hn₃).samePayload x (by
        show x < newSize
        omega)
      exact ⟨fun hpos => ((hhdr₃ hpos).trans (hhdr₁ hpos)).trans (hhdr hpos),
        (hprev₃.trans hprev₁).trans hprev, (hnext₃.trans hnext₁).trans hnext⟩
    · have hk₁ : InUse s₁.fl.blocks layout₁ k := (hresult.inUse k).mpr (.inl hk)
      have hkn : k ≠ ⟨n, newSize, true⟩ := fun heq => hresult.fresh k hk (by rw [heq])
      have hk₃ : InUse s₃.fl.blocks layout₃ k := (hfreed.inUse k).mpr ⟨hk₁, hkc⟩
      have hkeeps := ((hresult.keeps k hk).trans (hkeep₁ k hk₁ hkn)).trans (hkeep₃ k hk₃)
      exact ⟨hkeeps.hdr_eq, hkeeps.links_eq⟩
    · refine hfreed.total_eq.trans ?_
      show s₁.fl.totalAllocated - c.size = _
      rw [hresult.total_eq]
    · refine setBitmap_congr (hfreed.bitmap_eq.trans (unsetFreed_congr ?_ _ _ _ _)) _ _
      exact hresult.bitmap_eq
    · exact hfreed.touched (hresult.touched ht hnone)

/-- Reading before the move makes no difference. -/
theorem Moved.of_readOnly {s₁ s' : ListState} {n : ℕ} {fc : Chunk} {layout' : ℕ → List Chunk}
    {flaw' : Option ℕ} (h : Moved s₁ layout c newSize n fc s' layout' flaw') (hread : ReadOnly s s₁) :
    Moved s layout c newSize n fc s' layout' flaw' := by
  have hblocks := hread.rest.blocks_eq
  refine ⟨?_, ?_, fun x hx => ?_, fun k hk hkc => ?_, h.isChunk, h.free, h.covers, ?_,
    h.myId_eq.trans hread.rest.myId_eq, ?_, fun ht => h.touched (hread.touched ht)⟩
  · rw [← hblocks]
    exact h.inUse
  · rw [← hblocks]
    exact h.fresh
  · obtain ⟨hhdr, hlinks⟩ := h.payload x hx
    rw [show s₁.hdr = s.hdr from hread.hdr_eq] at hhdr
    rw [hread.links_eq] at hlinks
    exact ⟨hhdr, hlinks⟩
  · rw [← hblocks] at hk
    exact (hread.keepsPayload k).trans (h.keeps k hk hkc)
  · rw [h.total_eq, hread.rest.total_eq]
  · exact h.bitmap_eq.trans
      (ListState.setBitmap_congr (unsetFreed_congr hread.rest.bitmap_eq _ _ _ _) _ _)

/-- The state in which `realloc` decides: it has read the chunk and its successor. -/
def ListState.lookAhead (s : ListState) (chunk : ℕ) : ListState :=
  if (s.touch chunk).nextChunk chunk ≠ 0 then
    (s.touch chunk).touch ((s.touch chunk).nextChunk chunk)
  else s.touch chunk

/-- `realloc` grows the chunk in place. -/
def ListState.growsInPlace (s : ListState) (chunk newSize : ℕ) : Bool :=
  let next := s.nextChunk chunk
  decide ((s.hdr chunk).size < newSize) && decide (next ≠ 0) && !(s.hdr next).used &&
    decide (newSize - (s.hdr chunk).size ≤ (s.hdr next).size)

/-- What `realloc` decides for a chunk that is too small. -/
theorem ListState.realloc_eq (galloc : γ → HeapMemory → Option (ℕ × γ × HeapMemory)) (g : γ)
    {chunk : ℕ} (hlt : (s.hdr chunk).size < newSize) :
    s.realloc galloc g chunk newSize =
      if s.growsInPlace chunk newSize = true then
        some (chunk, g, (s.lookAhead chunk).extend chunk (s.nextChunk chunk) newSize)
      else
        match (s.lookAhead chunk).alloc galloc g newSize with
        | none => none
        | some (newChunk, g, s) =>
          match (s.copyPayload chunk newChunk (s.hdr chunk).size).dealloc chunk with
          | none => none
          | some s => some (newChunk, g, { s with mem := s.mem.setBitmap newChunk newSize }) := by
  have hhdr : (s.lookAhead chunk).hdr = s.hdr := by
    rw [lookAhead]
    split <;> rfl
  have hgrow : s.growsInPlace chunk newSize = true ↔ ¬ (s.nextChunk chunk = 0 ∨
      ((s.lookAhead chunk).hdr (s.nextChunk chunk)).used = true ∨
      ((s.lookAhead chunk).hdr (s.nextChunk chunk)).size < newSize - (s.hdr chunk).size) := by
    rw [hhdr]
    simp only [growsInPlace, hlt, decide_true, Bool.true_and, Bool.and_eq_true,
      decide_eq_true_eq, Bool.not_eq_true', not_or, not_lt, Bool.not_eq_true]
    tauto
  rw [realloc, if_neg (by rw [hdr_touch]; omega)]
  by_cases hg : s.growsInPlace chunk newSize = true
  · rw [if_pos hg]
    exact if_neg (hgrow.mp hg)
  · rw [if_neg hg]
    exact if_pos (not_not.mp fun hnot => hg (hgrow.mpr hnot))

/-- The chunk and its successor, if there is one, lie in the block. -/
theorem ListInv.readOnly_lookAhead (h : ListInv none s layout chains)
    (hc : IsChunk s.fl.blocks layout c) : ReadOnly s (s.lookAhead c.addr) := by
  obtain ⟨b, hb, hcmem⟩ := hc
  obtain ⟨L, R, hlayout⟩ := List.append_of_mem hcmem
  have hok := h.blockOk b hb
  rw [hlayout] at hok
  have hnext : s.nextChunk c.addr = (R.head?.map Chunk.addr).getD 0 := hok.nextChunk_eq (by simp)
  refine (ListState.readOnly_touch (h.owned hb hcmem)).trans ?_
  rw [ListState.lookAhead]
  split
  · rename_i hne
    refine ListState.readOnly_touch ?_
    cases R with
    | nil => exact absurd hnext hne
    | cons f R =>
      have hnext' : (s.touch c.addr).nextChunk c.addr = f.addr := hnext
      rw [hnext']
      exact h.owned hb (by rw [hlayout]; simp)
  · exact .refl _

/-- A chunk grows into its free successor. -/
theorem ListInv.growsInPlace_spec (h : ListInv none s layout chains)
    (hc : IsChunk s.fl.blocks layout c) (hgrow : s.growsInPlace c.addr newSize = true) :
    ∃ b ∈ s.fl.blocks, ∃ f L R, layout b = L ++ [c, f] ++ R ∧ s.nextChunk c.addr = f.addr ∧
      f.used = false ∧ c.size < newSize ∧ newSize ≤ c.size + f.size := by
  obtain ⟨b, hb, hcmem⟩ := hc
  obtain ⟨L, R, hlayout⟩ := List.append_of_mem hcmem
  have hok := h.blockOk b hb
  have hcsize : (s.hdr c.addr).size = c.size := (hok.describes c hcmem).1
  rw [hlayout] at hok
  have hnext : s.nextChunk c.addr = (R.head?.map Chunk.addr).getD 0 := hok.nextChunk_eq (by simp)
  simp only [ListState.growsInPlace, Bool.and_eq_true, decide_eq_true_eq,
    Bool.not_eq_true'] at hgrow
  obtain ⟨⟨⟨hlt, hne⟩, hfree⟩, hfits⟩ := hgrow
  cases R with
  | nil => exact absurd hnext hne
  | cons f R =>
    have hnext' : s.nextChunk c.addr = f.addr := hnext
    obtain ⟨hfsize, hfused⟩ := hok.describes f (by simp)
    have hfsize' : (s.hdr f.addr).size = f.size := hfsize
    rw [hnext'] at hfree hfits
    rw [hfsize', hcsize] at hfits
    rw [hcsize] at hlt
    exact ⟨b, hb, f, L, R, by simpa using hlayout, hnext', hfused.symm.trans hfree, hlt, by omega⟩

/-- **`realloc` keeps, grows or moves the chunk.** -/
theorem ListState.realloc_spec (galloc : γ → HeapMemory → Option (ℕ × γ × HeapMemory)) (g : γ)
    (h : ListInv none s layout chains) (hc : InUse s.fl.blocks layout c) (h64 : newSize % 64 = 0)
    (hle : newSize ≤ blockSize) (hserves : Serves galloc g s) :
    (newSize ≤ c.size ∧ s.realloc galloc g c.addr newSize = some (c.addr, g, s.touch c.addr)) ∨
    (c.size < newSize ∧ s.growsInPlace c.addr newSize = true ∧ ∃ s' layout' chains',
      s.realloc galloc g c.addr newSize = some (c.addr, g, s') ∧ ListInv none s' layout' chains' ∧
      Extended s layout c newSize s' layout') ∨
    (c.size < newSize ∧ s.growsInPlace c.addr newSize = false ∧
      ∃ n fc g' s' layout' chains' flaw', s.realloc galloc g c.addr newSize =
        (if c.size ≤ s.fl.totalAllocated + newSize then some (n, g', s') else none) ∧
      (flaw' = none ↔ (s.lookAhead c.addr).splitFlagRight newSize = true) ∧
      ListInv flaw' s' layout' chains' ∧ Moved s layout c newSize n fc s' layout' flaw') := by
  have hcsize : (s.hdr c.addr).size = c.size := by
    obtain ⟨⟨b, hb, hcmem⟩, -⟩ := hc
    exact ((h.blockOk b hb).describes c hcmem).1
  rcases Nat.lt_or_ge c.size newSize with hlt | hge
  swap
  · refine .inl ⟨hge, ?_⟩
    rw [realloc, if_pos (by rw [hdr_touch, hcsize]; exact hge)]
  right
  have hread := h.readOnly_lookAhead hc.1
  have h₁ := hread.listInv h
  have hblocks₁ : (s.lookAhead c.addr).fl.blocks = s.fl.blocks := hread.rest.blocks_eq
  have hc₁ : InUse (s.lookAhead c.addr).fl.blocks layout c := hblocks₁ ▸ hc
  have hserves₁ : Serves galloc g (s.lookAhead c.addr) := by
    intro s₁ hread₁
    rw [hblocks₁]
    exact hserves s₁ (hread.trans hread₁)
  have hrealloc := realloc_eq galloc g (hcsize.trans_lt hlt)
  by_cases hgrow : s.growsInPlace c.addr newSize = true
  · refine .inl ⟨hlt, hgrow, ?_⟩
    rw [hrealloc, if_pos hgrow]
    obtain ⟨b, hb, f, L, R, hlayout, hnext, hfree, -, hle⟩ := h.growsInPlace_spec hc.1 hgrow
    rw [hnext]
    obtain ⟨layout', chains', hinv, hext⟩ := h₁.extend (hblocks₁ ▸ hb) hlayout hc.2 hfree hlt hle h64
    exact ⟨_, layout', chains', rfl, hinv, hext.of_readOnly hread⟩
  · rw [Bool.not_eq_true] at hgrow
    refine .inr ⟨hlt, hgrow, ?_⟩
    rw [hrealloc, hgrow, if_neg Bool.false_ne_true]
    obtain ⟨n, fc, g', s', layout', chains', flaw', hmove, hflaw, hinv, hmoved⟩ :=
      move_spec galloc g h₁ hc₁ hlt h64 hle hserves₁
    rw [hread.rest.total_eq] at hmove
    exact ⟨n, fc, g', s', layout', chains', flaw', hmove, hflaw, hinv, hmoved.of_readOnly hread⟩

end Realloc

/-! ## Reallocation in a well-formed list -/

section WellFormed

variable {s' : ListState} {layout' : ℕ → List Chunk} {chains' : ℕ → List ℕ} {c : Chunk} {newSize : ℕ}

/-- The bytes in use after a chunk has grown. -/
theorem Extended.chunkBytes_eq (h : ListInv none s layout chains)
    (h' : ListInv none s' layout' chains') (hc : InUse s.fl.blocks layout c) (hlt : c.size < newSize)
    (hext : Extended s layout c newSize s' layout') :
    chunkBytes true s'.fl.blocks layout' + c.size =
      chunkBytes true s.fl.blocks layout + newSize := by
  refine chunkBytes_swap ⟨c.addr, newSize, true⟩ (h.nodup_chunksWith true)
    (h'.nodup_chunksWith true) (mem_chunksWith.mpr hc) (fun hmem => ?_) fun k => ?_
  · obtain ⟨⟨b, hb, hk⟩, -⟩ := mem_chunksWith.mp hmem
    obtain ⟨⟨b', hb', hcmem⟩, -⟩ := hc
    have heq := congrArg Chunk.size (h.chunk_eq hb hb' hk hcmem rfl).2
    dsimp only at heq
    omega
  · rw [mem_chunksWith, mem_chunksWith]
    exact hext.inUse k

/-- The bytes in use after a chunk has moved. -/
theorem Moved.chunkBytes_eq {n : ℕ} {fc : Chunk} {flaw' : Option ℕ} (h : ListInv flaw s layout chains)
    (h' : ListInv flaw' s' layout' chains') (hc : InUse s.fl.blocks layout c)
    (hmoved : Moved s layout c newSize n fc s' layout' flaw') :
    chunkBytes true s'.fl.blocks layout' + c.size =
      chunkBytes true s.fl.blocks layout + newSize := by
  refine chunkBytes_swap ⟨n, newSize, true⟩ (h.nodup_chunksWith true)
    (h'.nodup_chunksWith true) (mem_chunksWith.mpr hc)
    (fun hmem => hmoved.fresh _ (mem_chunksWith.mp hmem) rfl) fun k => ?_
  rw [mem_chunksWith, mem_chunksWith]
  exact hmoved.inUse k

/-- **Growing in place leaves the counter behind.** -/
theorem Extended.not_wellFormed (h : WellFormed s layout chains)
    (h' : ListInv none s' layout' chains') (hc : InUse s.fl.blocks layout c) (hlt : c.size < newSize)
    (hext : Extended s layout c newSize s' layout') : ¬ ∃ layout chains, WellFormed s' layout chains := by
  rintro ⟨layout₁, chains₁, h₁⟩
  have hbytes := hext.chunkBytes_eq h.toListInv h' hc hlt
  have htotal := h₁.total
  rw [h₁.toListInv.chunkBytes_eq h' true, hext.total_eq, h.total] at htotal
  omega

/-- **Reallocation keeps the payload.** The result is large enough and starts with the old payload, the
other chunks in use are untouched, and the old chunk is free if the result is another one. A chunk that
stays where it is leaves a well-formed list exactly if it was large enough. -/
theorem realloc_keeps_payload (galloc : γ → HeapMemory → Option (ℕ × γ × HeapMemory)) (g : γ)
    (h : WellFormed s layout chains) (hc : InUse s.fl.blocks layout c) (h64 : newSize % 64 = 0)
    (hle : newSize ≤ blockSize) (hserves : Serves galloc g s) :
    ∃ r g' s' layout' chains' flaw', s.realloc galloc g c.addr newSize = some (r.addr, g', s') ∧
      ListInv flaw' s' layout' chains' ∧ InUse s'.fl.blocks layout' r ∧ max newSize c.size ≤ r.size ∧
      SamePayload s c.addr s' r.addr c.size ∧
      (∀ k, InUse s.fl.blocks layout k → k ≠ c →
        InUse s'.fl.blocks layout' k ∧ SamePayload s k.addr s' k.addr k.size) ∧
      (r.addr ≠ c.addr → ∃ fc, IsChunk s'.fl.blocks layout' fc ∧ fc.used = false ∧
        fc.addr ≤ c.addr ∧ c.addr + c.size ≤ fc.addr + fc.size) ∧
      (r.addr = c.addr → flaw' = none ∧
        ((∃ layout chains, WellFormed s' layout chains) ↔ newSize ≤ c.size)) := by
  rcases ListState.realloc_spec galloc g h.toListInv hc h64 hle hserves with ⟨hge, hrealloc⟩ |
    ⟨hlt, -, s', layout', chains', hrealloc, hinv, hext⟩ |
    ⟨hlt, -, n, fc, g', s', layout', chains', flaw', hrealloc, -, hinv, hmoved⟩
  · obtain ⟨⟨b, hb, hcmem⟩, -⟩ := id hc
    have hread : ReadOnly s (s.touch c.addr) := ListState.readOnly_touch (h.owned hb hcmem)
    refine ⟨c, g, s.touch c.addr, layout, chains, none, hrealloc, hread.listInv h.toListInv, hc,
      by omega, (hread.keepsPayload c).samePayload,
      fun k hk _ => ⟨hk, (hread.keepsPayload k).samePayload⟩, fun hne => absurd rfl hne, fun _ =>
      ⟨rfl, iff_of_true ⟨layout, chains, hread.listInv h.toListInv, h.total⟩ hge⟩⟩
  · refine ⟨⟨c.addr, newSize, true⟩, g, s', layout', chains', none, hrealloc, hinv,
      (hext.inUse _).mpr (.inr rfl), by show max newSize c.size ≤ newSize; omega,
      (hext.keeps c hc).samePayload,
      fun k hk hkc => ⟨(hext.inUse k).mpr (.inl ⟨hk, hkc⟩), (hext.keeps k hk).samePayload⟩,
      fun hne => absurd rfl hne, fun _ => ⟨rfl, iff_of_false ?_ (by omega)⟩⟩
    exact hext.not_wellFormed h hinv hc hlt
  · -- the sum of the sizes is at least the size of the chunk, so the `dealloc` at the end does not
    -- fail
    have hcovers := h.size_le_total hc
    rw [if_pos (by omega)] at hrealloc
    refine ⟨⟨n, newSize, true⟩, g', s', layout', chains', flaw', hrealloc, hinv,
      (hmoved.inUse _).mpr (.inr rfl), by show max newSize c.size ≤ newSize; omega, hmoved.payload,
      fun k hk hkc => ⟨(hmoved.inUse k).mpr (.inl ⟨hk, hkc⟩), (hmoved.keeps k hk hkc).samePayload⟩,
      fun _ => ⟨fc, hmoved.isChunk, hmoved.free, hmoved.covers⟩,
      fun heq => absurd heq.symm (hmoved.fresh c hc)⟩

end WellFormed

/-- A global allocator with one block left. -/
def lastBlock (block : ℕ) (g : Bool) (m : HeapMemory) : Option (ℕ × Bool × HeapMemory) :=
  if g then some (block, false, m) else none

theorem serves_lastBlock {block : ℕ} (hmod : block % blockSize = 0) (hne : block ≠ 0)
    (hnew : block ∉ s.fl.blocks) : Serves (lastBlock block) true s := fun s₁ _ =>
  ⟨block, false, s₁.mem, rfl, hmod, hne, hnew, fun _ _ => rfl, fun _ _ => ⟨rfl, rfl⟩, rfl, rfl⟩

/-- A chunk of 128 bytes that has to move to a new block keeps its payload. -/
theorem realloc_oneChunkList :
    ∃ r g' s', oneChunkList.realloc (lastBlock (2 * blockSize)) true blockSize 0x200000 =
        some (r, g', s') ∧ SamePayload oneChunkList blockSize s' r 0x80 := by
  obtain ⟨chains, h⟩ := wellFormed_oneChunkList
  obtain ⟨r, g', s', layout', chains', flaw', hrealloc, -, -, -, hpayload, -⟩ :=
    realloc_keeps_payload (lastBlock (2 * blockSize)) true h (c := ⟨blockSize, 0x80, true⟩)
      ⟨⟨blockSize, by decide, by decide⟩, rfl⟩ (show 0x200000 % 64 = 0 by decide) (by decide)
      (serves_lastBlock (by decide) (by decide) (by decide))
  exact ⟨r.addr, g', s', hrealloc, hpayload⟩

/-- A chunk of 128 bytes that grows to 256 bytes: the counter still says 128. -/
theorem grown_not_wellFormed :
    (∃ layout chains, WellFormed oneChunkList layout chains) ∧
      ∃ s', oneChunkList.realloc (lastBlock (2 * blockSize)) true blockSize 0x100 =
          some (blockSize, true, s') ∧
        ¬ ∃ layout chains, WellFormed s' layout chains := by
  obtain ⟨chains, h⟩ := wellFormed_oneChunkList
  have hc : InUse oneChunkList.fl.blocks
      (Function.update (fun _ => []) blockSize (newLayout blockSize 0x80)) ⟨blockSize, 0x80, true⟩ :=
    ⟨⟨blockSize, by decide, by decide⟩, rfl⟩
  have hgrows : oneChunkList.growsInPlace blockSize 0x100 = true := by decide
  refine ⟨⟨_, chains, h⟩, ?_⟩
  rcases ListState.realloc_spec (lastBlock (2 * blockSize)) true h.toListInv hc
    (show 0x100 % 64 = 0 by decide) (by decide) (serves_lastBlock (by decide) (by decide) (by decide)) with
    ⟨hge, -⟩ | ⟨hlt, -, s', layout', chains', hrealloc, hinv, hext⟩ | ⟨-, hno, -⟩
  · exact absurd hge (by decide)
  · exact ⟨s', hrealloc, hext.not_wellFormed h hinv hc hlt⟩
  · exact absurd (hgrows.symm.trans hno) (by decide)

end Pronto
