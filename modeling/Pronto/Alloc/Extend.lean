import Pronto.Alloc.Deallocate

/-!
# Growing a chunk in place

`realloc` grows a chunk into its free successor. The successor leaves its bucket; if it is larger than
the increase, its header moves up to the remainder, which is filed again. The layout stays in order in
both cases, but `total_allocated` is not adjusted.
-/

namespace Pronto

open Function Linked Tiling

variable {s : ListState} {layout : ℕ → List Chunk} {chains : ℕ → List ℕ} {newSize : ℕ}

namespace ListState

section Writes

variable {chunk fc e : ℕ}

/-- What `extend` leaves as it is. -/
structure ExtendFrame (s s' : ListState) (chains : ℕ → List ℕ) (chunk fc e newSize : ℕ) : Prop where
  hdr_eq : ∀ x, x ≠ chunk → x < fc ∨ e < x → s'.hdr x = s.hdr x
  links_eq : ∀ x, (∀ i, x ∉ chains i) → (chunk + newSize < e → x ≠ chunk + newSize) →
    SameLinks s s' x
  blocks_eq : s'.fl.blocks = s.fl.blocks
  myId_eq : s'.fl.myId = s.fl.myId
  total_eq : s'.fl.totalAllocated = s.fl.totalAllocated
  bitmap_eq : s'.mem.bitmap = (s.mem.setBitmap fc (newSize - (s.hdr chunk).size)).bitmap
  touched : TouchedOwned s → (∀ i, ∀ x ∈ chains i, Owned s.fl.blocks x) →
    Owned s.fl.blocks chunk → (chunk + newSize < e → Owned s.fl.blocks (chunk + newSize)) →
    ((s.hdr fc).last = false → Owned s.fl.blocks e) → TouchedOwned s'

/-- Setting pages depends on the bitmap only. -/
theorem setBitmap_congr {m m' : HeapMemory} (hbitmap : m'.bitmap = m.bitmap) (ptr size : ℕ) :
    (m'.setBitmap ptr size).bitmap = (m.setBitmap ptr size).bitmap := by
  rw [HeapMemory.setBitmap, HeapMemory.setBitmap, HeapMemory.markPages, HeapMemory.markPages, hbitmap]

variable (hfamily : Family s.mem.links s.fl.buckets chains)
  (hmem : fc ∈ chains (findBucket (s.hdr fc).size)) (hfc : chunk + (s.hdr chunk).size = fc)
  (he : fc + (s.hdr fc).size = e) (hlt : (s.hdr chunk).size < newSize)
  (hpos : 0 < (s.hdr chunk).size) (hsmall : e < chunk + 0x20000000)

include hfamily hmem hfc he hlt hpos hsmall

/-- What `extend` writes if a remainder is left. -/
theorem extend_split (hrem : chunk + newSize < e) (hnew : ∀ i, chunk + newSize ∉ chains i) :
    (s.extend chunk fc newSize).hdr chunk = { s.hdr chunk with size := newSize } ∧
      (s.extend chunk fc newSize).hdr (chunk + newSize) =
        { s.hdr fc with size := e - (chunk + newSize) } ∧
      (s.extend chunk fc newSize).hdr e = (s.hdr e).withPrev
        (if (s.hdr fc).last = false then chunkOffset (chunk + newSize) else (s.hdr e).prevOffset) ∧
      (∃ chains', Family (s.extend chunk fc newSize).mem.links (s.extend chunk fc newSize).fl.buckets
          chains' ∧
        ∀ i a, a ∈ chains' i ↔
          (a ∈ chains i ∧ a ≠ fc) ∨ (a = chunk + newSize ∧ i = findBucket (e - (chunk + newSize)))) ∧
      ExtendFrame s (s.extend chunk fc newSize) chains chunk fc e newSize := by
  obtain ⟨hhdr₁, hrest₁, hfamily₁, htouch₁⟩ := unlinkFrom_spec hfamily hmem
  have hlinks₁ := fun x => unlinkFrom_links hfamily hmem (x := x)
  have hmod : (s.hdr fc).size - (newSize - (s.hdr chunk).size) = e - (chunk + newSize) := by omega
  have hfc' : fc + (newSize - (s.hdr chunk).size) = chunk + newSize := by omega
  rw [extend, removeChunkFromBuckets]
  dsimp only
  set s₁ := s.unlinkFrom (findBucket (s.hdr fc).size) fc
  rw [nextChunk, hhdr₁, if_pos (show (s.hdr fc).size > newSize - (s.hdr chunk).size by omega), hfc', he,
    hmod]
  set s₂ := s₁.modify (chunk + newSize) fun _ => (s.hdr fc).withSize (e - (chunk + newSize)) with hs₂
  have hrem₂ : s₂.hdr (chunk + newSize) = { s.hdr fc with size := e - (chunk + newSize) } := by
    rw [hs₂, hdr_modify, update_self, ChunkHeader.withSize, Nat.mod_eq_of_lt (by omega)]
  have hother₂ : ∀ x, x ≠ chunk + newSize → s₂.hdr x = s.hdr x := fun x hx => by
    rw [hs₂, hdr_modify, update_of_ne hx, hhdr₁]
  -- the successor of the remainder starts at `e`
  have hnext : (if (if (s.hdr fc).last = true then 0 else e) ≠ 0 then
      s₂.modify (if (s.hdr fc).last = true then 0 else e) fun h =>
        h.withPrev (chunkOffset (chunk + newSize)) else s₂) =
      if (s.hdr fc).last = false then
        s₂.modify e fun h => h.withPrev (chunkOffset (chunk + newSize)) else s₂ := by
    have hene : e ≠ 0 := by omega
    cases (s.hdr fc).last <;> simp [hene]
  rw [hnext]
  obtain ⟨hhdr₃, hfl₃, hlinks₃, hbm₃, htouch₃⟩ := modify_if (s := s₂) (a := e)
    (c := (s.hdr fc).last = false) (v := chunkOffset (chunk + newSize))
  set s₃ := if (s.hdr fc).last = false then
    s₂.modify e fun h => h.withPrev (chunkOffset (chunk + newSize)) else s₂
  rw [hother₂ e (by omega)] at hhdr₃
  have hother₃ : ∀ x, x ≠ e → s₃.hdr x = s₂.hdr x := fun x hx => by
    rw [hhdr₃, update_of_ne hx]
  have hsize₃ : (s₃.hdr (chunk + newSize)).size = e - (chunk + newSize) := by
    rw [hother₃ _ (by omega), hrem₂]
  rw [hsize₃]
  have hfamily₃ : Family s₃.mem.links s₃.fl.buckets (Function.update chains
      (findBucket (s.hdr fc).size) ((chains (findBucket (s.hdr fc).size)).erase fc)) := by
    rw [hlinks₃, hfl₃]
    exact hfamily₁
  have hnew₃ : ∀ i, chunk + newSize ∉ Function.update chains (findBucket (s.hdr fc).size)
      ((chains (findBucket (s.hdr fc).size)).erase fc) i :=
    fun i hi => hnew i ((hfamily.mem_unlink hmem).mp hi).1
  have hne0 : chunk + newSize ≠ 0 := by omega
  obtain ⟨hhdr₄, hrest₄, hfamily₄, htouch₄⟩ :=
    addFreeChunk_spec (e - (chunk + newSize)) hfamily₃ hne0 hnew₃
  have hlinks₄ := fun x => addFreeChunk_links (e - (chunk + newSize)) hfamily₃ hne0 hnew₃
    (x := x)
  set s₄ := s₃.addFreeChunk (chunk + newSize) (e - (chunk + newSize))
  have hchunk₄ : s₄.hdr chunk = s.hdr chunk := by
    rw [hhdr₄, hother₃ _ (by omega), hother₂ _ (by omega)]
  rw [hchunk₄, hfc]
  set s₅ : ListState := { s₄ with mem := s₄.mem.setBitmap fc (newSize - (s.hdr chunk).size) }
    with hs₅
  have hhdr₅ : s₅.hdr = s₄.hdr := rfl
  have hrest₃ : SameRest s₁ s₃ := ⟨hbm₃, by rw [hfl₃]; rfl, by rw [hfl₃]; rfl, by rw [hfl₃]; rfl⟩
  have hrest : SameRest s s₄ := (hrest₁.trans hrest₃).trans hrest₄
  have hother : ∀ x, x ≠ chunk → (s₅.modify chunk fun h => h.withSize newSize).hdr x = s₄.hdr x :=
    fun x hx => update_of_ne hx _ _
  refine ⟨?_, ?_, ?_, ⟨_, hfamily₄, fun i a => ?_⟩, ⟨fun x hxc hx => ?_, fun x hx hxne => ?_,
    hrest.blocks_eq, hrest.myId_eq, hrest.total_eq, setBitmap_congr hrest.bitmap_eq _ _,
    fun ht hchains hown hremown heown => ?_⟩⟩
  · rw [hdr_modify, update_self, hhdr₅, hchunk₄, ChunkHeader.withSize,
      Nat.mod_eq_of_lt (by omega)]
  · rw [hother _ (by omega), hhdr₄, hother₃ _ (by omega), hrem₂]
  · rw [hother _ (by omega), hhdr₄, hhdr₃, update_self]
  · rw [Family.mem_push, hfamily.mem_unlink hmem]
  · rw [hother _ hxc, hhdr₄, hother₃ _ (by omega), hother₂ _ (by omega)]
  · have h₃ : SameLinks s s₃ x := by
      rw [SameLinks, hlinks₃]
      exact hlinks₁ x (hx _)
    exact h₃.trans (hlinks₄ x (hxne hrem) fun i hi => hx i ((hfamily.mem_unlink hmem).mp hi).1)
  · have hb₁ := hrest₁.blocks_eq
    have hb₃ := (hrest₁.trans hrest₃).blocks_eq
    have h₁ : TouchedOwned s₁ := htouch₁ ht (hchains _)
    have h₂ : TouchedOwned s₂ := touchedOwned_modify h₁ (by rw [hb₁]; exact hremown hrem)
    have h₃ : TouchedOwned s₃ := htouch₃ h₂ fun hlast => by
      show Owned s₁.fl.blocks e
      rw [hb₁]
      exact heown hlast
    have h₄ : TouchedOwned s₄ := by
      refine htouch₄ h₃ (by rw [hb₃]; exact hremown hrem) fun x hx => ?_
      rw [hb₃]
      exact hchains _ x ((hfamily.mem_unlink hmem).mp hx).1
    refine touchedOwned_modify (s := s₅) h₄ ?_
    show Owned s₄.fl.blocks chunk
    rw [hrest.blocks_eq]
    exact hown

/-- What `extend` writes if the whole successor is used. -/
theorem extend_whole (hrem : chunk + newSize = e) :
    (s.extend chunk fc newSize).hdr chunk =
        { s.hdr chunk with size := newSize, last := (s.hdr fc).last } ∧
      (s.extend chunk fc newSize).hdr e = (s.hdr e).withPrev
        (if (s.hdr fc).last = false then (s.hdr fc).prevOffset else (s.hdr e).prevOffset) ∧
      (∃ chains', Family (s.extend chunk fc newSize).mem.links (s.extend chunk fc newSize).fl.buckets
          chains' ∧ ∀ i a, a ∈ chains' i ↔ a ∈ chains i ∧ a ≠ fc) ∧
      ExtendFrame s (s.extend chunk fc newSize) chains chunk fc e newSize := by
  obtain ⟨hhdr₁, hrest₁, hfamily₁, htouch₁⟩ := unlinkFrom_spec hfamily hmem
  have hlinks₁ := fun x => unlinkFrom_links hfamily hmem (x := x)
  rw [extend, removeChunkFromBuckets]
  dsimp only
  set s₁ := s.unlinkFrom (findBucket (s.hdr fc).size) fc
  rw [nextChunk, hhdr₁, if_neg (show ¬ (s.hdr fc).size > newSize - (s.hdr chunk).size by omega), he]
  have hnext : (if (if (s.hdr fc).last = true then 0 else e) ≠ 0 then
      s₁.modify (if (s.hdr fc).last = true then 0 else e) fun h =>
        h.withPrev (s.hdr fc).prevOffset else s₁) =
      if (s.hdr fc).last = false then
        s₁.modify e fun h => h.withPrev (s.hdr fc).prevOffset else s₁ := by
    have hene : e ≠ 0 := by omega
    cases (s.hdr fc).last <;> simp [hene]
  rw [hnext]
  obtain ⟨hhdr₂, hfl₂, hlinks₂, hbm₂, htouch₂⟩ := modify_if (s := s₁) (a := e)
    (c := (s.hdr fc).last = false) (v := (s.hdr fc).prevOffset)
  set s₂ := if (s.hdr fc).last = false then
    s₁.modify e fun h => h.withPrev (s.hdr fc).prevOffset else s₁
  rw [hhdr₁] at hhdr₂
  have hother₂ : ∀ x, x ≠ e → s₂.hdr x = s.hdr x := fun x hx => by
    rw [hhdr₂, update_of_ne hx]
  rw [hother₂ fc (by omega)]
  set s₃ := s₂.modify chunk fun h => { h with last := (s.hdr fc).last } with hs₃
  have hchunk₃ : s₃.hdr chunk = { s.hdr chunk with last := (s.hdr fc).last } := by
    rw [hs₃, hdr_modify, update_self, hother₂ _ (by omega)]
  have hptr : chunk + (s₃.hdr chunk).size = fc := by
    rw [hchunk₃]
    exact hfc
  rw [hptr]
  set s₄ : ListState := { s₃ with mem := s₃.mem.setBitmap fc (newSize - (s.hdr chunk).size) }
  have hhdr₄ : s₄.hdr = s₃.hdr := rfl
  have hrest₂ : SameRest s₁ s₂ := ⟨hbm₂, by rw [hfl₂], by rw [hfl₂], by rw [hfl₂]⟩
  have hrest : SameRest s s₃ := (hrest₁.trans hrest₂).trans sameRest_modify
  have hother : ∀ x, x ≠ chunk → (s₄.modify chunk fun h => h.withSize newSize).hdr x = s₂.hdr x :=
    fun x hx => (update_of_ne hx _ _).trans (update_of_ne hx _ _)
  refine ⟨?_, ?_, ⟨_, ?_, fun i a => hfamily.mem_unlink hmem⟩, ⟨fun x hxc hx => ?_, fun x hx _ => ?_,
    hrest.blocks_eq, hrest.myId_eq, hrest.total_eq, setBitmap_congr hrest.bitmap_eq _ _,
    fun ht hchains hown _ heown => ?_⟩⟩
  · rw [hdr_modify, update_self, hhdr₄, hchunk₃, ChunkHeader.withSize,
      Nat.mod_eq_of_lt (by omega)]
  · rw [hother _ (by omega), hhdr₂, update_self]
  · show Family s₂.mem.links s₂.fl.buckets _
    rw [hlinks₂, hfl₂]
    exact hfamily₁
  · rw [hother _ hxc, hother₂ _ (by omega)]
  · show SameLinks s s₂ x
    rw [SameLinks, hlinks₂]
    exact hlinks₁ x (hx _)
  · have hb₁ := hrest₁.blocks_eq
    have hb₂ := (hrest₁.trans hrest₂).blocks_eq
    have h₂ : TouchedOwned s₂ := htouch₂ (htouch₁ ht (hchains _)) fun hlast => by
      rw [hb₁]
      exact heown hlast
    have h₃ : TouchedOwned s₃ := touchedOwned_modify h₂ (by rw [hb₂]; exact hown)
    refine touchedOwned_modify (s := s₄) h₃ ?_
    show Owned s₂.fl.blocks chunk
    rw [hb₂]
    exact hown

end Writes

end ListState

/-! ## The layout after the growth -/

/-- The chunk `c` has grown to `newSize` bytes. -/
structure Extended (s : ListState) (layout : ℕ → List Chunk) (c : Chunk) (newSize : ℕ)
    (s' : ListState) (layout' : ℕ → List Chunk) : Prop where
  inUse : ∀ k, InUse s'.fl.blocks layout' k ↔
    (InUse s.fl.blocks layout k ∧ k ≠ c) ∨ k = ⟨c.addr, newSize, true⟩
  blocks_eq : s'.fl.blocks = s.fl.blocks
  myId_eq : s'.fl.myId = s.fl.myId
  total_eq : s'.fl.totalAllocated = s.fl.totalAllocated
  bitmap_eq : s'.mem.bitmap = (s.mem.setBitmap (c.addr + c.size) (newSize - c.size)).bitmap
  keeps : ∀ k, InUse s.fl.blocks layout k → KeepsPayload s s' k
  touched : TouchedOwned s → TouchedOwned s'

/-- Reading before the growth makes no difference. -/
theorem Extended.of_readOnly {s₁ s' : ListState} {c : Chunk} {layout' : ℕ → List Chunk}
    (h : Extended s₁ layout c newSize s' layout') (hread : ReadOnly s s₁) :
    Extended s layout c newSize s' layout' := by
  have hblocks := hread.rest.blocks_eq
  refine ⟨?_, h.blocks_eq.trans hblocks, h.myId_eq.trans hread.rest.myId_eq,
    h.total_eq.trans hread.rest.total_eq, ?_, fun k hk => ?_, fun ht => h.touched (hread.touched ht)⟩
  · rw [← hblocks]
    exact h.inUse
  · exact h.bitmap_eq.trans (ListState.setBitmap_congr hread.rest.bitmap_eq _ _)
  · rw [← hblocks] at hk
    exact (hread.keepsPayload k).trans (h.keeps k hk)

section Extend

variable {b : ℕ} {c f : Chunk} {L R W' : List Chunk} (h : ListInv none s layout chains)
  (hb : b ∈ s.fl.blocks) (hlayout : layout b = L ++ [c, f] ++ R) (hcused : c.used = true)
  (hffree : f.used = false) (hlt : c.size < newSize) (hle : newSize ≤ c.size + f.size)

namespace ListInv

include h hb hlayout hcused hffree hlt hle

omit hcused hffree hlt hle in
/-- The chunk, its successor and what follows stand one behind the other. -/
theorem addr_next : c.addr + c.size = f.addr := by
  have htiles := (h.blockOk b hb).tiles
  rw [hlayout] at htiles
  obtain ⟨_, htiles, -⟩ := tiles_append.mp htiles
  obtain ⟨_, -, htiles⟩ := tiles_append.mp htiles
  exact (htiles.1 ▸ htiles.2.1).symm

/-- What follows from the frame of `extend`. -/
theorem extended (hW' : ∀ x ∈ W', x.used = true ↔ x = ⟨c.addr, newSize, true⟩)
    (hn : ⟨c.addr, newSize, true⟩ ∈ W') {s' : ListState}
    (hframe : ListState.ExtendFrame s s' chains c.addr f.addr (f.addr + f.size) newSize) :
    Extended s layout c newSize s' (Function.update layout b (L ++ W' ++ R)) := by
  have hok := h.blockOk b hb
  have hcmem : c ∈ layout b := by rw [hlayout]; simp
  have hfmem : f ∈ layout b := by rw [hlayout]; simp
  have hcf := h.addr_next hb hlayout
  have hcbounds := hok.bounds hcmem
  have hfbounds := hok.bounds hfmem
  have hcsize : (s.hdr c.addr).size = c.size := (hok.describes c hcmem).1
  have hfsize : (s.hdr f.addr).size = f.size := (hok.describes f hfmem).1
  have hcpos := (hok.sizes c hcmem).1
  have hblocks := hframe.blocks_eq
  refine ⟨fun k => ?_, hblocks, hframe.myId_eq, hframe.total_eq, ?_, fun k hk => ?_, fun ht => ?_⟩
  · rw [hblocks, InUse, InUse, h.isChunk_replace hb hlayout]
    constructor
    · rintro ⟨⟨hk, hkW⟩ | hk, hused⟩
      · exact .inl ⟨⟨hk, hused⟩, fun heq => hkW (by simp [heq])⟩
      · exact .inr ((hW' k hk).mp hused)
    · rintro (⟨⟨hk, hused⟩, hkc⟩ | rfl)
      · refine ⟨.inl ⟨hk, fun hkW => ?_⟩, hused⟩
        have hkf : k = f := by simpa [hkc] using hkW
        rw [hkf, hffree] at hused
        cases hused
      · exact ⟨.inr hn, rfl⟩
  · rw [hframe.bitmap_eq, hcsize, hcf]
  · -- a chunk in use ends at the free chunk, or starts behind it
    have hkf : k ≠ f := by
      rintro rfl
      simp [InUse, hffree] at hk
    have hsep := h.disjoint hk.1 ⟨b, hb, hfmem⟩ hkf
    have hsep' : k ≠ c → k.addr + k.size ≤ c.addr ∨ c.addr + c.size ≤ k.addr :=
      fun hne => h.disjoint hk.1 ⟨b, hb, hcmem⟩ hne
    refine ⟨fun x hlo hhi => ?_, fun x hlo hhi => ?_⟩
    · refine hframe.hdr_eq x ?_ (by omega)
      rcases eq_or_ne k c with rfl | hne
      · omega
      · have hsep' := hsep' hne
        omega
    · exact hframe.links_eq x (h.not_filed hk hlo hhi) fun hin => by omega
  · refine hframe.touched ht (fun i x hx => h.chain_owned hx) (h.owned hb hcmem)
      (fun hlt => ⟨b, hb, by omega, by omega⟩) fun hlast => ?_
    have hflast := hok.last f hfmem (by simp)
    have hflast' : (s.hdr f.addr).last = decide (f.addr + f.size = b + blockSize) := hflast
    have hne := of_decide_eq_false (hflast'.symm.trans hlast)
    exact ⟨b, hb, by omega, by omega⟩

/-- **Growing a chunk in place keeps the layout in order.** -/
theorem extend (h64 : newSize % 64 = 0) :
    ∃ layout' chains', ListInv none (s.extend c.addr f.addr newSize) layout' chains' ∧
      Extended s layout c newSize (s.extend c.addr f.addr newSize) layout' := by
  have hok := h.blockOk b hb
  have hcmem : c ∈ layout b := by rw [hlayout]; simp
  have hfmem : f ∈ layout b := by rw [hlayout]; simp
  have hcf := h.addr_next hb hlayout
  have hcsize : (s.hdr c.addr).size = c.size := (hok.describes c hcmem).1
  have hcused' : (s.hdr c.addr).used = true := (hok.describes c hcmem).2.trans hcused
  have hcpos := (hok.sizes c hcmem).1
  have hc64 := (hok.sizes c hcmem).2
  have hclast : (s.hdr c.addr).last = decide (c.addr + c.size = b + blockSize) :=
    hok.last c hcmem (by simp)
  have hcbounds := hok.bounds hcmem
  have hlayout' : layout b = L ++ [c] ++ [f] ++ R := by simpa using hlayout
  obtain ⟨⟨hfsize, hfused, hflast⟩, ⟨hf64, hfle, -, hfe, hmod⟩, -, hright, hnil⟩ :=
    h.free_chunk hb hlayout' hffree
  have hfpos := (hok.sizes f hfmem).1
  have hfprev : (s.hdr f.addr).prevOffset = chunkOffset c.addr := by
    have hpairs := hok
    rw [show layout b = L ++ [c] ++ f :: R by simpa using hlayout] at hpairs
    exact ((hpairs.right_pair (by simp) (x := c) rfl (y := f) rfl).resolve_left (by simp)).1
  have hsmall : blockSize < 0x20000000 := by decide
  have hfiled : f.addr ∈ chains (findBucket (s.hdr f.addr).size) := by
    rw [hfsize]
    exact (h.mem_chain_iff hb hfmem hffree).mpr rfl
  have hW : Tiles Chunk.addr Chunk.size c.addr [c, f] (f.addr + f.size) :=
    ⟨rfl, hcf.symm, by rw [hcf]; rfl⟩
  have hclast' : (s.hdr c.addr).last = false := hclast.trans (decide_eq_false (by omega))
  have hnext : ∀ n ∈ R.head?, (s.hdr f.addr).last = false := fun n hn =>
    hflast.trans (decide_eq_false fun heq => by simp [hnil.mpr heq] at hn)
  -- no bucket holds an address inside the two chunks but that of `f`
  have hinside : ∀ x, c.addr ≤ x → x < f.addr + f.size → x ≠ f.addr → ∀ i, x ∉ chains i := by
    intro x hlo hhi hne i hi
    rcases Nat.lt_or_ge x f.addr with hlt' | hge
    · exact h.not_filed ⟨⟨b, hb, hcmem⟩, hcused⟩ hlo (by omega) i hi
    · obtain ⟨k, hk, rfl, -⟩ := (h.filed i x).mp hi
      have hkf : f ≠ k := fun heq => hne (by rw [heq])
      have hsep := h.disjoint ⟨b, hb, hfmem⟩ hk hkf
      obtain ⟨b', hb', hmem⟩ := hk
      have hpos := ((h.blockOk b' hb').sizes k hmem).1
      omega
  have hpre : c.addr + (s.hdr c.addr).size = f.addr := by rw [hcsize, hcf]
  have hend : f.addr + (s.hdr f.addr).size = f.addr + f.size := by rw [hfsize]
  rcases Nat.lt_or_ge (c.addr + newSize) (f.addr + f.size) with hrem | hrem
  · -- a remainder is left
    have hnew := hinside (c.addr + newSize) (by omega) hrem (by omega)
    obtain ⟨hc', hr', he', ⟨chains', hfamily', hchains'⟩, hframe⟩ := ListState.extend_split h.family
      hfiled hpre hend (by rw [hcsize]; exact hlt) (by rw [hcsize]; exact hcpos) (by omega) hrem hnew
    set s' := s.extend c.addr f.addr newSize
    set rest := f.addr + f.size - (c.addr + newSize) with hrest
    refine ⟨Function.update layout b
        (L ++ [⟨c.addr, newSize, true⟩, ⟨c.addr + newSize, rest, false⟩] ++ R), chains', ?_,
      h.extended hb hlayout hcused hffree hlt hle (by simp) (by simp) hframe⟩
    refine h.pair hb hlayout hframe.blocks_eq hW (by simp) (by simp) rfl rfl
      (by show c.addr + newSize + rest = _; omega) ⟨by show 0 < newSize; omega, h64⟩
      ⟨by show 0 < rest; omega, by show rest % 64 = 0; omega⟩ ?_ ?_ ?_ (fun _ => ?_) ?_ ?_ (.inl rfl)
      (fun x hx => hframe.hdr_eq x (by omega) (by omega)) ?_ (fun p _ => .inr (.inr rfl))
      (fun n hn => .inr ⟨?_, .inr (hright n hn).2.1⟩) hfamily' fun i a => ?_
    · rw [hc']
      exact ⟨rfl, hcused'⟩
    · rw [hr']
      exact ⟨rfl, hfused⟩
    · rw [hc']
      exact hclast'
    · rw [hr']
      exact hflast
    · rw [hc']
    · rw [hr']
      exact hfprev
    · rw [he']
      exact ⟨rfl, rfl, rfl⟩
    · rw [he', if_pos (hnext n hn)]
      rfl
    · rw [hchains']
      simp only [List.mem_cons, List.not_mem_nil, or_false, forall_eq_or_imp, forall_eq,
        Bool.true_eq_false, false_and, and_false, false_or, true_and]
      refine or_congr (and_congr_right fun ha => ?_) (and_congr eq_comm eq_comm)
      constructor
      · intro hne
        refine ⟨?_, Ne.symm hne⟩
        rintro rfl
        exact hinside c.addr le_rfl (by omega) (by omega) i ha
      · exact fun hboth => Ne.symm hboth.2
  · -- the whole successor is used
    have heq : c.addr + newSize = f.addr + f.size := by omega
    obtain ⟨hc', he', ⟨chains', hfamily', hchains'⟩, hframe⟩ := ListState.extend_whole h.family
      hfiled hpre hend (by rw [hcsize]; exact hlt) (by rw [hcsize]; exact hcpos) (by omega) heq
    set s' := s.extend c.addr f.addr newSize
    refine ⟨Function.update layout b (L ++ [⟨c.addr, newSize, true⟩] ++ R), chains', ?_,
      h.extended hb hlayout hcused hffree hlt hle (by simp) (by simp) hframe⟩
    refine h.single hb hlayout hframe.blocks_eq hW (by simp) (by simp) rfl heq
      ⟨by show 0 < newSize; omega, h64⟩ ?_ ?_ ?_
      (fun x hx => hframe.hdr_eq x (by omega) (by omega)) ?_ (fun p _ => .inr (.inr rfl))
      (fun n hn => ⟨?_, .inl rfl⟩) hfamily' fun i a => ?_
    · rw [hc']
      exact ⟨rfl, hcused'⟩
    · rw [hc']
      exact hflast
    · rw [hc']
    · rw [he']
      exact ⟨rfl, rfl, rfl⟩
    · rw [he', if_pos (hnext n hn)]
      exact hfprev
    · rw [hchains']
      simp only [List.mem_cons, List.not_mem_nil, or_false, forall_eq_or_imp, forall_eq,
        Bool.true_eq_false, false_and, and_false]
      refine and_congr_right fun ha => ?_
      constructor
      · intro hne
        refine ⟨?_, Ne.symm hne⟩
        rintro rfl
        exact hinside c.addr le_rfl (by omega) (by omega) i ha
      · exact fun hboth => Ne.symm hboth.2

end ListInv

end Extend

end Pronto
