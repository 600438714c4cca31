import Pronto.Alloc.Reallocate

/-!
# Runs of a free list

A run takes calls of `alloc`, `dealloc` and `realloc` in any order, the latter two for live chunks: those
that a call has returned and that have not been freed or moved since. Blocks from the global allocator
have any content.

In a run without the wrong flag of `splitFront`, the blocks stay in order and only own headers are
touched (`run_tidy`). If moreover no chunk grows in place, `total_allocated` counts the live chunks and
`dealloc` of a live chunk never fails (`run_total`).
-/

namespace Pronto

open Linked Runs

/-! ## Calls -/

/-- A block that the global allocator hands out, with its content. -/
structure Grant where
  block : ℕ
  hdr : ℕ → ChunkHeader
  links : Links

/-- The list gets the block. -/
def Grant.give (g : Grant) (m : HeapMemory) : Option (ℕ × Grant × HeapMemory) :=
  some (g.block, g, { m with
    hdr := fun a => if g.block ≤ a ∧ a < g.block + blockSize then g.hdr a else m.hdr a
    links :=
      ⟨fun a => if g.block ≤ a ∧ a < g.block + blockSize then g.links.prev a else m.links.prev a,
        fun a => if g.block ≤ a ∧ a < g.block + blockSize then g.links.next a else m.links.next a⟩ })

/-- The block is aligned and new. -/
def Grant.Fits (g : Grant) (blocks : List ℕ) : Prop :=
  g.block % blockSize = 0 ∧ g.block ≠ 0 ∧ g.block ∉ blocks

instance (g : Grant) (blocks : List ℕ) : Decidable (g.Fits blocks) :=
  inferInstanceAs (Decidable (_ ∧ _ ∧ _))

theorem Grant.Fits.serves {g : Grant} {s : ListState} {layout : ℕ → List Chunk}
    {chains : ℕ → List ℕ} {flaw : Option ℕ} (hfits : g.Fits s.fl.blocks)
    (h : ListInv flaw s layout chains) : Serves Grant.give g s := by
  obtain ⟨hmod, hne, hnew⟩ := hfits
  have hout : ∀ x, Owned s.fl.blocks x → ¬ (g.block ≤ x ∧ x < g.block + blockSize) := by
    rintro x ⟨b, hb, hlo, hhi⟩
    have hbmod := (h.aligned b hb).1
    have hbne : b ≠ g.block := ne_of_mem_of_not_mem hb hnew
    dsimp only [blockSize] at *
    omega
  exact fun s₁ _ => ⟨g.block, g, _, rfl, hmod, hne, hnew, fun x hx => if_neg (hout x hx),
    fun x hx => ⟨if_neg (hout x hx), if_neg (hout x hx)⟩, rfl, rfl⟩

/-- Sizes of chunks: positive multiples of 64, no larger than a block. -/
def ChunkSize (size : ℕ) : Prop := 0 < size ∧ size % 64 = 0 ∧ size ≤ blockSize

instance (size : ℕ) : Decidable (ChunkSize size) := inferInstanceAs (Decidable (_ ∧ _ ∧ _))

/-- A list and its live chunks. -/
structure ListRun where
  list : ListState
  live : List ℕ

/-- A call; the grant is used if the list asks for a block. -/
inductive ListAction
  | alloc (size : ℕ) (grant : Grant)
  | dealloc (chunk : ℕ)
  | realloc (chunk newSize : ℕ) (grant : Grant)

/-- One call; `none` when it is not enabled or an assertion fails. -/
def listStep (s : ListRun) : ListAction → Option ListRun
  | .alloc size g =>
    if ChunkSize size ∧ g.Fits s.list.fl.blocks then
      (s.list.alloc Grant.give g size).map fun (chunk, _, list) => ⟨list, chunk :: s.live⟩
    else none
  | .dealloc chunk =>
    if chunk ∈ s.live then (s.list.dealloc chunk).map fun list => ⟨list, s.live.erase chunk⟩
    else none
  | .realloc chunk newSize g =>
    if chunk ∈ s.live ∧ ChunkSize newSize ∧ g.Fits s.list.fl.blocks then
      (s.list.realloc Grant.give g chunk newSize).map fun (newChunk, _, list) =>
        ⟨list, newChunk :: s.live.erase chunk⟩
    else none

/-- No remainder gets a wrong flag `last`. -/
def flagsRight (s : ListRun) : ListAction → Bool
  | .alloc size _ => s.list.splitFlagRight size
  | .dealloc _ => true
  | .realloc chunk newSize _ =>
    decide (newSize ≤ (s.list.hdr chunk).size) || s.list.growsInPlace chunk newSize ||
      (s.list.lookAhead chunk).splitFlagRight newSize

/-- No chunk grows in place. -/
def staysPut (s : ListRun) : ListAction → Bool
  | .realloc chunk newSize _ => !s.list.growsInPlace chunk newSize
  | _ => true

/-! ## What a call keeps -/

/-- The layout is in order, and the live chunks are the chunks in use. -/
structure RunInv (s : ListRun) (layout : ℕ → List Chunk) (chains : ℕ → List ℕ) : Prop where
  inv : ListInv none s.list layout chains
  touched : TouchedOwned s.list
  nodup : s.live.Nodup
  live : ∀ a, a ∈ s.live ↔ ∃ k, InUse s.list.fl.blocks layout k ∧ k.addr = a

namespace RunInv

variable {s s' : ListRun} {layout layout' : ℕ → List Chunk} {chains chains' : ℕ → List ℕ}

/-- The chunk of a live address. -/
theorem chunk (h : RunInv s layout chains) {a : ℕ} (ha : a ∈ s.live) :
    ∃ c, InUse s.list.fl.blocks layout c ∧ c.addr = a ∧ (s.list.hdr a).size = c.size := by
  obtain ⟨c, hc, rfl⟩ := (h.live a).mp ha
  obtain ⟨⟨b, hb, hmem⟩, -⟩ := id hc
  exact ⟨c, hc, rfl, ((h.inv.blockOk b hb).describes c hmem).1⟩

/-- Chunks in use with the same address are the same. -/
theorem inUse_eq (h : RunInv s layout chains) {c k : Chunk} (hc : InUse s.list.fl.blocks layout c)
    (hk : InUse s.list.fl.blocks layout k) (heq : k.addr = c.addr) : k = c := by
  obtain ⟨⟨b, hb, hmem⟩, -⟩ := hc
  obtain ⟨⟨b', hb', hmem'⟩, -⟩ := hk
  exact (h.inv.chunk_eq hb' hb hmem' hmem heq).2

/-- The live chunks after `c` has been freed. -/
theorem live_erase (h : RunInv s layout chains) {c : Chunk} (hc : InUse s.list.fl.blocks layout c)
    (a : ℕ) : a ∈ s.live.erase c.addr ↔
      ∃ k, (InUse s.list.fl.blocks layout k ∧ k ≠ c) ∧ k.addr = a := by
  rw [h.nodup.mem_erase_iff, h.live]
  constructor
  · rintro ⟨hne, k, hk, rfl⟩
    exact ⟨k, ⟨hk, fun heq => hne (by rw [heq])⟩, rfl⟩
  · rintro ⟨k, ⟨hk, hkc⟩, rfl⟩
    exact ⟨fun heq => hkc (h.inUse_eq hc hk heq), k, hk, rfl⟩

/-- A list without blocks. -/
theorem new (m : HeapMemory) (hm : m.touched = []) (id : ℕ) :
    RunInv ⟨⟨m, .new id⟩, []⟩ (fun _ => []) fun _ => [] where
  inv := (wellFormed_new m id).toListInv
  touched a ha := by
    rw [show (⟨m, .new id⟩ : ListState).mem.touched = [] from hm] at ha
    cases ha
  nodup := List.nodup_nil
  live a := by simp [InUse, IsChunk, FreeList.new]

/-- **What a call does.** The live chunks stay the chunks in use, and unless a chunk grows in place
`total_allocated` follows them. -/
theorem step (h : RunInv s layout chains) {a : ListAction} (hstep : listStep s a = some s')
    (hflags : flagsRight s a = true) :
    ∃ layout' chains', RunInv s' layout' chains' ∧ (staysPut s a = true →
      s.list.fl.totalAllocated = chunkBytes true s.list.fl.blocks layout →
      s'.list.fl.totalAllocated = chunkBytes true s'.list.fl.blocks layout') := by
  cases a with
  | alloc size g =>
    obtain ⟨⟨⟨hpos, h64, hle⟩, hfits⟩, hstep⟩ := Option.ite_none_right_eq_some.mp hstep
    obtain ⟨⟨chunk, g', list⟩, halloc, hstep⟩ := Option.map_eq_some_iff.mp hstep
    cases hstep
    obtain ⟨chunk', g'', list', layout', chains', flaw', halloc', hflaw, hinv, hresult⟩ :=
      ListState.alloc_served Grant.give g h.inv hpos h64 hle (hfits.serves h.inv)
    rw [halloc] at halloc'
    cases halloc'
    obtain rfl : flaw' = none := hflaw.mpr hflags
    refine ⟨layout', chains', ⟨hinv, hresult.touched h.touched rfl, ?_, fun a => ?_⟩, fun _ htotal => ?_⟩
    · refine List.nodup_cons.mpr ⟨fun hmem => ?_, h.nodup⟩
      obtain ⟨k, hk, heq⟩ := (h.live chunk).mp hmem
      exact hresult.fresh k hk heq
    · simp only [List.mem_cons, h.live, hresult.inUse, or_and_right, exists_or, exists_eq_left]
      rw [or_comm]
      exact or_congr_right eq_comm
    · rw [hresult.total_eq, htotal, hresult.chunkBytes_eq h.inv hinv]
  | dealloc a =>
    obtain ⟨ha, hstep⟩ := Option.ite_none_right_eq_some.mp hstep
    obtain ⟨list, hdealloc, hstep⟩ := Option.map_eq_some_iff.mp hstep
    cases hstep
    obtain ⟨c, hc, rfl, -⟩ := h.chunk ha
    obtain ⟨list', layout', chains', fc, hdealloc', hinv, hfreed⟩ :=
      ListState.dealloc_spec h.inv hc (n := ⟨c.addr + 1, c.size, true⟩) (splitFlaw_none _ _ _) rfl
        fun heq => by simpa using congrArg Chunk.addr heq
    rw [hdealloc] at hdealloc'
    obtain ⟨hcovers, hlist⟩ := Option.ite_none_right_eq_some.mp hdealloc'.symm
    cases hlist
    refine ⟨layout', chains', ⟨hinv, hfreed.touched h.touched, h.nodup.erase _, fun a => ?_⟩,
      fun _ htotal => ?_⟩
    · rw [h.live_erase hc]
      simp only [hfreed.inUse]
    · have hbytes := hfreed.chunkBytes_eq h.inv hinv hc
      rw [hfreed.total_eq, htotal, hbytes, Nat.add_sub_cancel]
  | realloc a newSize g =>
    obtain ⟨⟨ha, ⟨hpos, h64, hle⟩, hfits⟩, hstep⟩ := Option.ite_none_right_eq_some.mp hstep
    obtain ⟨⟨chunk, g', list⟩, hrealloc, hstep⟩ := Option.map_eq_some_iff.mp hstep
    cases hstep
    obtain ⟨c, hc, rfl, hcsize⟩ := h.chunk ha
    rw [flagsRight, hcsize] at hflags
    -- the live chunks, once the new chunk stands in the place of the old one
    have hlive : ∀ {blocks' layout'} (n : Chunk),
        (∀ k, InUse blocks' layout' k ↔ (InUse s.list.fl.blocks layout k ∧ k ≠ c) ∨ k = n) →
        ∀ a, a ∈ n.addr :: s.live.erase c.addr ↔ ∃ k, InUse blocks' layout' k ∧ k.addr = a := by
      intro blocks' layout' n hinUse a
      simp only [List.mem_cons, h.live_erase hc, hinUse, or_and_right, exists_or, exists_eq_left]
      rw [or_comm]
      exact or_congr_right eq_comm
    rcases ListState.realloc_spec Grant.give g h.inv hc h64 hle (hfits.serves h.inv) with
      ⟨hge, hresult⟩ |
      ⟨hlt, hgrows, list', layout', chains', hresult, hinv, hext⟩ |
      ⟨hlt, hstays, n, fc, g'', list', layout', chains', flaw', hresult, hflaw, hinv, hmoved⟩
    · -- large enough
      rw [hrealloc] at hresult
      cases hresult
      obtain ⟨⟨b, hb, hcmem⟩, -⟩ := id hc
      have hread : ReadOnly s.list (s.list.touch c.addr) :=
        ListState.readOnly_touch (h.inv.owned hb hcmem)
      have hlive' := @hlive s.list.fl.blocks layout c fun k => by
        by_cases hk : k = c
        · subst hk
          simp [hc]
        · simp [hk]
      refine ⟨layout, chains, ⟨hread.listInv h.inv, hread.touched h.touched, ?_, hlive'⟩,
        fun _ htotal => htotal⟩
      exact List.nodup_cons.mpr ⟨fun hmem => (h.nodup.mem_erase_iff.mp hmem).1 rfl, h.nodup.erase _⟩
    · rw [hrealloc] at hresult
      cases hresult
      refine ⟨layout', chains', ⟨hinv, hext.touched h.touched, ?_,
        hlive ⟨c.addr, newSize, true⟩ hext.inUse⟩, fun hput => ?_⟩
      · exact List.nodup_cons.mpr ⟨fun hmem => (h.nodup.mem_erase_iff.mp hmem).1 rfl, h.nodup.erase _⟩
      · simp [staysPut, hgrows] at hput
    · rw [hrealloc] at hresult
      obtain ⟨hcovers, hlist⟩ := Option.ite_none_right_eq_some.mp hresult.symm
      cases hlist
      obtain rfl : flaw' = none := hflaw.mpr (by
        simpa [hstays, Nat.not_le.mpr hlt] using hflags)
      refine ⟨layout', chains', ⟨hinv, hmoved.touched h.touched rfl, ?_,
        hlive ⟨chunk, newSize, true⟩ hmoved.inUse⟩, fun _ htotal => ?_⟩
      · refine List.nodup_cons.mpr ⟨fun hmem => ?_, h.nodup.erase _⟩
        obtain ⟨k, hk, heq⟩ := (h.live chunk).mp (h.nodup.mem_erase_iff.mp hmem).2
        exact hmoved.fresh k hk heq
      · have hbytes := Moved.chunkBytes_eq h.inv hinv hc hmoved
        show list.fl.totalAllocated = chunkBytes true list.fl.blocks layout'
        rw [hmoved.total_eq, htotal]
        omega

/-- The live chunks have the bytes in use. -/
theorem sum_live (h : RunInv s layout chains) :
    (s.live.map fun a => (s.list.hdr a).size).sum = chunkBytes true s.list.fl.blocks layout := by
  have hinj : ∀ x ∈ chunksWith true s.list.fl.blocks layout,
      ∀ y ∈ chunksWith true s.list.fl.blocks layout, x.addr = y.addr → x = y := fun x hx y hy heq =>
    h.inUse_eq (mem_chunksWith.mp hy) (mem_chunksWith.mp hx) heq
  have hperm : s.live.Perm ((chunksWith true s.list.fl.blocks layout).map Chunk.addr) := by
    refine (List.perm_ext_iff_of_nodup h.nodup ?_).mpr fun a => ?_
    · exact (h.inv.nodup_chunksWith true).map_on hinj
    · simp only [h.live, List.mem_map, mem_chunksWith]
      rfl
  rw [(hperm.map _).sum_eq, List.map_map, chunkBytes]
  congr 1
  refine List.map_congr_left fun k hk => ?_
  obtain ⟨⟨b, hb, hmem⟩, -⟩ := mem_chunksWith.mp hk
  exact ((h.inv.blockOk b hb).describes k hmem).1

end RunInv

/-! ## Runs -/

section Run

variable {m : HeapMemory} {id : ℕ} {acts : List ListAction} {s : ListRun}

/-- A new list. -/
def newRun (m : HeapMemory) (id : ℕ) : ListRun := ⟨⟨m, .new id⟩, []⟩

/-- The chunks tile every block, with the right flags and offsets and no two free neighbours, and only
headers in own blocks have been touched. -/
def Tidy (s : ListState) : Prop :=
  (∀ b ∈ s.fl.blocks, ∃ ks, BlockOk none s.mem.hdr b ks) ∧ ∀ a ∈ s.mem.touched, Owned s.fl.blocks a

/-- **The blocks stay in order**, as long as no remainder gets a wrong flag. -/
theorem run_tidy (hm : m.touched = []) (hrun : run listStep (newRun m id) acts = some s)
    (hflags : Guarded listStep (fun s a => flagsRight s a = true) (newRun m id) acts) :
    Tidy s.list := by
  obtain ⟨layout, chains, h⟩ := hflags.invariant
    (I := fun s => ∃ layout chains, RunInv s layout chains)
    (fun s a s' ⟨layout, chains, h⟩ hok hstep => by
      obtain ⟨layout', chains', h', -⟩ := h.step hstep hok
      exact ⟨layout', chains', h'⟩)
    ⟨_, _, RunInv.new m hm id⟩ hrun
  exact ⟨fun b hb => ⟨layout b, h.inv.blockOk b hb⟩, h.touched⟩

/-- **`total_allocated` counts the live chunks**, as long as no chunk grows in place and no remainder
gets a wrong flag; `dealloc` of a live chunk succeeds. The flags matter to the counter: behind a wrong
one `dealloc` merges chunks that are not neighbours (`wrong_flag_miscounts`). -/
theorem run_total (hm : m.touched = []) (hrun : run listStep (newRun m id) acts = some s)
    (hflags : Guarded listStep (fun s a => flagsRight s a = true ∧ staysPut s a = true) (newRun m id)
      acts) :
    s.list.fl.totalAllocated = (s.live.map fun a => (s.list.hdr a).size).sum ∧
      ∀ a ∈ s.live, ∃ list, s.list.dealloc a = some list := by
  obtain ⟨layout, chains, h, htotal⟩ := hflags.invariant
    (I := fun s => ∃ layout chains, RunInv s layout chains ∧
      s.list.fl.totalAllocated = chunkBytes true s.list.fl.blocks layout)
    (fun s a s' ⟨layout, chains, h, htotal⟩ hok hstep => by
      obtain ⟨layout', chains', h', htotal'⟩ := h.step hstep hok.1
      exact ⟨layout', chains', h', htotal' hok.2 htotal⟩)
    ⟨_, _, RunInv.new m hm id, rfl⟩ hrun
  refine ⟨htotal.trans h.sum_live.symm, fun a ha => ?_⟩
  obtain ⟨c, hc, rfl, -⟩ := h.chunk ha
  have hwf : WellFormed s.list layout chains := ⟨h.inv, htotal⟩
  obtain ⟨list, _, _, _, hdealloc, -⟩ := hwf.dealloc hc
  exact ⟨list, hdealloc⟩

end Run

/-- A block of zeros. -/
def zeroBlock (block : ℕ) : Grant := ⟨block, HeapMemory.blank.hdr, HeapMemory.blank.links⟩

/-- Five chunks in a block from `g`. The third is freed, and a smaller one is cut from its front. -/
def frontSplit (g : Grant) : List ListAction :=
  [.alloc 0x40 g, .alloc 0x80 (zeroBlock (2 * blockSize)), .alloc 0x100 (zeroBlock (2 * blockSize)),
    .alloc 0x40 (zeroBlock (2 * blockSize)), .dealloc (2 * blockSize - 0x180),
    .alloc 0xc0 (zeroBlock (2 * blockSize))]

/-- Then the chunk behind the remainder moves, and the chunk in front of it is freed. -/
def smallCalls : List ListAction :=
  frontSplit (zeroBlock blockSize) ++
    [.realloc (2 * blockSize - 0x80) 0x100 (zeroBlock (2 * blockSize)),
      .dealloc (2 * blockSize - 0x180)]

theorem run_tidy_small :
    ∃ s, run listStep (newRun .blank 1) smallCalls = some s ∧ Tidy s.list := by
  have hany : (run listStep (newRun .blank 1) smallCalls).any (fun _ => true) = true := by
    decide +kernel
  obtain ⟨s, hrun, -⟩ := run_of_any hany
  exact ⟨s, hrun, run_tidy rfl hrun (guarded_of_checkGuard (by decide +kernel))⟩

/-- The total of that run is the sum over its live chunks. -/
theorem run_total_small :
    ∃ s, run listStep (newRun .blank 1) smallCalls = some s ∧
      s.list.fl.totalAllocated = (s.live.map fun a => (s.list.hdr a).size).sum := by
  have hany : (run listStep (newRun .blank 1) smallCalls).any (fun _ => true) = true := by
    decide +kernel
  obtain ⟨s, hrun, -⟩ := run_of_any hany
  have hguard : Guarded listStep (fun s a => flagsRight s a = true ∧ staysPut s a = true)
      (newRun .blank 1) smallCalls := guarded_of_decide (by decide +kernel)
  exact ⟨s, hrun, (run_total rfl hrun hguard).1⟩

/-! ## Runs that go wrong -/

/-- A block of zeros, but for a stale header at the place of the remainder. -/
def staleBlock : Grant :=
  { zeroBlock blockSize with
    hdr := fun a =>
      if a = 2 * blockSize - 0xc0 then ⟨0, 0, false, false, false, 0xc0⟩ else HeapMemory.blank.hdr a }

/-- The stale size gives the remainder the flag `last`, so the chunk behind it keeps its old
`prev_offset`. Once the remainder is in use, freeing both chunks around it merges them over it, and the
next split writes its header. -/
theorem wrong_flag_miscounts :
    ∃ acts s, run listStep (newRun .blank 1) acts = some s ∧
      Guarded listStep (fun s a => staysPut s a = true) (newRun .blank 1) acts ∧
      s.list.fl.totalAllocated ≠ (s.live.map fun a => (s.list.hdr a).size).sum := by
  set acts := frontSplit staleBlock ++
    [.alloc 0x40 (zeroBlock (2 * blockSize)), .dealloc (2 * blockSize - 0x180),
      .dealloc (2 * blockSize - 0x80), .alloc 0xc0 (zeroBlock (2 * blockSize))]
  have hany : (run listStep (newRun .blank 1) acts).any (fun s =>
      s.list.fl.totalAllocated ≠ (s.live.map fun a => (s.list.hdr a).size).sum) = true := by
    decide +kernel
  obtain ⟨s, hrun, hne⟩ := run_of_any hany
  exact ⟨acts, s, hrun, guarded_of_decide (by decide +kernel), of_decide_eq_true hne⟩

/-- A flaw is a wrong flag. -/
theorem SplitFlaw.not_tidy {s : ListState} {layout : ℕ → List Chunk} {chains : ℕ → List ℕ} {n : Chunk}
    {f : ℕ} (h : ListInv (some f) s layout chains) (hflaw : SplitFlaw s layout n (some f)) :
    ¬ Tidy s := by
  rintro ⟨hok, -⟩
  obtain ⟨b, hb, L, r, R, hlayout, rfl, -, hlast, -⟩ := hflaw f rfl
  obtain ⟨ks, hks⟩ := hok b hb
  rw [← (h.blockOk b hb).unique hks] at hks
  exact hlast (hks.last r (by rw [hlayout]; simp) (by simp))

/-- The list after the first call of both runs: one chunk at the start of a block of zeros. -/
theorem run_first (size : ℕ) {p : ListRun → Bool}
    (h : (run listStep (newRun .blank 1) [.alloc size (zeroBlock blockSize)]).any p = true)
    (hflags : (newRun .blank 1).list.splitFlagRight size = true) :
    ∃ s layout chains, listStep (newRun .blank 1) (.alloc size (zeroBlock blockSize)) = some s ∧
      p s = true ∧ RunInv s layout chains := by
  obtain ⟨s, hrun, hp⟩ := run_of_any h
  obtain ⟨t, hstep, hrun⟩ := run_cons.mp hrun
  cases hrun
  obtain ⟨layout, chains, hinv, -⟩ := (RunInv.new .blank rfl 1).step hstep hflags
  exact ⟨s, layout, chains, hstep, hp, hinv⟩

/-- `splitFlagRight` for requests of 0x1fff80 bytes, with the one bucket that is searched for them. -/
def lastFlagRight (s : ListState) : Bool :=
  match ListState.searchBuckets 0x1fff80 [13] s with
  | some (some (bucket, fc), s) =>
    let remainder := (s.hdr fc).size - 0x1fff80
    ListState.staysInBucket bucket remainder || remainder == 0 ||
      isLastChunkOfBlock (fc + 0x1fff80) (s.hdr (fc + 0x1fff80)).size ==
        isLastChunkOfBlock (fc + 0x1fff80) remainder
  | _ => true

/-- A chunk of 64 bytes, and one that leaves the last 64 bytes of the block. The header of these held
zeros, so the remainder does not get its flag `last`. -/
theorem remainder_not_last :
    ∃ s, run listStep (newRun .blank 1)
        [.alloc 0x40 (zeroBlock blockSize), .alloc 0x1fff80 (zeroBlock (2 * blockSize))] = some s ∧
      ¬ Tidy s.list := by
  have hsearch : ∀ s : ListState, s.search 0x1fff80 = ListState.searchBuckets 0x1fff80 [13] s := by
    intro s
    rw [ListState.search, show findBucket 0x1fff80 = 13 by decide]
    rfl
  obtain ⟨s, layout, chains, hstep, hcheck, hinv⟩ := run_first 0x40
    (p := fun s => decide (s.list.fl.blocks = [blockSize]) && !lastFlagRight s.list)
    (by decide +kernel) (by decide +kernel)
  rw [Bool.and_eq_true, decide_eq_true_eq, Bool.not_eq_true'] at hcheck
  obtain ⟨hblocks, hwrong⟩ := hcheck
  have hwrong : s.list.splitFlagRight 0x1fff80 = false := by
    rw [ListState.splitFlagRight, hsearch]
    exact hwrong
  have hfits : (zeroBlock (2 * blockSize)).Fits s.list.fl.blocks := by
    rw [hblocks]
    decide
  obtain ⟨chunk, g', list, layout', chains', flaw', halloc, hflaw, hinv', hresult⟩ :=
    ListState.alloc_served Grant.give (zeroBlock (2 * blockSize)) hinv.inv
      (show 0 < 0x1fff80 by decide) (by decide) (by decide) (hfits.serves hinv.inv)
  -- the second call leaves a remainder whose flag says that a chunk follows
  refine ⟨⟨list, chunk :: s.live⟩, run_cons.mpr ⟨s, hstep, run_cons.mpr ⟨_, ?_, rfl⟩⟩, ?_⟩
  · rw [listStep, if_pos ⟨by decide, hfits⟩, halloc]
    rfl
  · cases flaw' with
    | none => simp [hwrong] at hflaw
    | some f => exact SplitFlaw.not_tidy hinv' hresult.flaw

/-- A chunk of 128 bytes grows in place to 256 bytes: `total_allocated` stays behind, and the chunk
cannot be freed. -/
theorem grown_chunk_stays :
    ∃ s, run listStep (newRun .blank 1)
        [.alloc 0x80 (zeroBlock blockSize), .realloc blockSize 0x100 (zeroBlock (2 * blockSize))] =
          some s ∧
      s.list.fl.totalAllocated = 0x80 ∧ s.live = [blockSize] ∧ (s.list.hdr blockSize).size = 0x100 ∧
      s.list.dealloc blockSize = none := by
  obtain ⟨s, layout, chains, hstep, hcheck, hinv⟩ := run_first 0x80
    (p := fun s => decide (s.list.fl.blocks = [blockSize]) && (decide (s.live = [blockSize]) &&
      (decide ((s.list.hdr blockSize).size = 0x80) && (decide (s.list.fl.totalAllocated = 0x80) &&
        s.list.growsInPlace blockSize 0x100)))) (by decide +kernel) (by decide +kernel)
  simp only [Bool.and_eq_true, decide_eq_true_eq] at hcheck
  obtain ⟨hblocks, hlive, hsize, htotal, hgrows⟩ := hcheck
  have hfits : (zeroBlock (2 * blockSize)).Fits s.list.fl.blocks := by
    rw [hblocks]
    decide
  obtain ⟨c, hc, haddr, hcsize⟩ := hinv.chunk (a := blockSize) (by simp [hlive])
  rw [hsize] at hcsize
  rcases ListState.realloc_spec Grant.give (zeroBlock (2 * blockSize)) hinv.inv hc
    (show 0x100 % 64 = 0 by decide) (by decide) (hfits.serves hinv.inv) with ⟨hge, -⟩ |
    ⟨-, -, list, layout', chains', hrealloc, hinv', hext⟩ | ⟨-, hstays, -⟩
  · rw [← hcsize] at hge
    exact absurd hge (by decide)
  · rw [haddr] at hrealloc
    have hc' : InUse list.fl.blocks layout' ⟨c.addr, 0x100, true⟩ := (hext.inUse _).mpr (.inr rfl)
    refine ⟨⟨list, blockSize :: s.live.erase blockSize⟩,
      run_cons.mpr ⟨s, hstep, run_cons.mpr ⟨_, ?_, rfl⟩⟩, hext.total_eq.trans htotal, ?_, ?_, ?_⟩
    · rw [listStep, if_pos ⟨by simp [hlive], by decide, hfits⟩, hrealloc]
      rfl
    · simp [hlive]
    · obtain ⟨⟨b, hb, hmem⟩, -⟩ := id hc'
      have hdescribes := ((hinv'.blockOk b hb).describes _ hmem).1
      rwa [haddr] at hdescribes
    · -- the total is now less than the size of the chunk, so `dealloc` fails its assertion
      obtain ⟨list', _, _, _, hdealloc, -⟩ := ListState.dealloc_spec hinv' hc'
        (n := ⟨c.addr + 1, 0x100, true⟩) (splitFlaw_none _ _ _) rfl (by simp)
      rw [haddr, hext.total_eq, htotal, if_neg (by decide)] at hdealloc
      exact hdealloc
  · rw [haddr, hgrows] at hstays
    cases hstays

end Pronto
