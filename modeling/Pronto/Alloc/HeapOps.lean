import Pronto.Alloc.HeapCalls

/-!
# Operations on the whole heap

Every operation of an object on its free lists, and every write into a chunk in use, is a `HeapStep`: the
heap stays in order, at most one chunk in use goes and at most one comes, the payload of all others is
kept, and a page bitmap that was exact for the chunks in use is exact again. `realloc` moreover takes the
payload along.
-/

namespace Pronto

open Function Linked

/-- Object `o` has given up the chunk `old` and got the chunk `new`. -/
structure HeapStep (cores : ℕ) (gs : GlobalState) (lists : ℕ → ℕ → FreeList)
    (layout : ℕ → List Chunk) (jumbos : List (ℕ × Chunk)) (o : ℕ) (old new : Option Chunk)
    (gs' : GlobalState) (lists' : ℕ → ℕ → FreeList) (layout' : ℕ → List Chunk)
    (jumbos' : List (ℕ × Chunk)) : Prop where
  shape : HeapShape cores gs' lists' layout' jumbos'
  used : ∀ o' k, UsedBy lists' layout' jumbos' o' k ↔
    (UsedBy lists layout jumbos o' k ∧ some k ≠ old) ∨ (o' = o ∧ some k = new)
  fresh : ∀ n, new = some n → ∀ o' k, UsedBy lists layout jumbos o' k → some k ≠ old → k.addr ≠ n.addr
  keeps : ∀ o' k, UsedBy lists layout jumbos o' k → some k ≠ old → KeepsWords gs.mem gs'.mem k
  exact : gs'.limit ≤ baseAddress + maxMemorySize →
    ExactFor gs.mem.bitmap (InHeap lists layout jumbos) →
    ExactFor gs'.mem.bitmap (InHeap lists' layout' jumbos')

/-- Reading before the step makes no difference. -/
theorem HeapStep.of_mem {cores : ℕ} {gs gs' : GlobalState} {lists lists' : ℕ → ℕ → FreeList}
    {layout layout' : ℕ → List Chunk} {jumbos jumbos' : List (ℕ × Chunk)} {o : ℕ}
    {old new : Option Chunk} {mem : HeapMemory}
    (h : HeapStep cores ⟨mem, gs.ga⟩ lists layout jumbos o old new gs' lists' layout' jumbos')
    (hhdr : mem.hdr = gs.mem.hdr) (hlinks : mem.links = gs.mem.links)
    (hbitmap : mem.bitmap = gs.mem.bitmap) :
    HeapStep cores gs lists layout jumbos o old new gs' lists' layout' jumbos' where
  shape := h.shape
  used := h.used
  fresh := h.fresh
  keeps o' k hk hne := by
    have hkeeps := h.keeps o' k hk hne
    rwa [KeepsWords, hhdr, hlinks] at hkeeps
  exact hmax hexact := h.exact hmax (by
    show ExactFor mem.bitmap _
    rwa [hbitmap])

/-- The chunks in use after a step. -/
theorem inHeap_iff {lists lists' : ℕ → ℕ → FreeList} {layout layout' : ℕ → List Chunk}
    {jumbos jumbos' : List (ℕ × Chunk)} {o : ℕ} {old new : Option Chunk}
    (hused : ∀ o' k, UsedBy lists' layout' jumbos' o' k ↔
      (UsedBy lists layout jumbos o' k ∧ some k ≠ old) ∨ (o' = o ∧ some k = new)) (k : Chunk) :
    InHeap lists' layout' jumbos' k ↔ (InHeap lists layout jumbos k ∧ some k ≠ old) ∨ some k = new := by
  simp only [InHeap, hused, exists_or, exists_and_right, exists_eq, true_and]

theorem KeepsWords.samePayload {s s' : ListState} {k : Chunk} (h : KeepsWords s.mem s'.mem k) :
    SamePayload s k.addr s' k.addr k.size := fun x hx =>
  ⟨fun hpos => (h (k.addr + x) (by omega) (by omega)).1 (by omega),
    (h (k.addr + x) (by omega) (by omega)).2⟩

theorem SamePayload.trans {s s' s'' : ListState} {a a' a'' size : ℕ} (h : SamePayload s a s' a' size)
    (h' : SamePayload s' a' s'' a'' size) : SamePayload s a s'' a'' size := by
  intro x hx
  obtain ⟨hhdr, hprev, hnext⟩ := h x hx
  obtain ⟨hhdr', hprev', hnext'⟩ := h' x hx
  exact ⟨fun hpos => (hhdr' hpos).trans (hhdr hpos), hprev'.trans hprev, hnext'.trans hnext⟩

theorem SamePayload.mono {s s' : ListState} {a a' size size' : ℕ} (h : SamePayload s a s' a' size)
    (hle : size' ≤ size) : SamePayload s a s' a' size' := fun x hx => h x (hx.trans_le hle)

namespace HeapShape

variable {cores : ℕ} {gs : GlobalState} {lists : ℕ → ℕ → FreeList} {layout : ℕ → List Chunk}
  {jumbos : List (ℕ × Chunk)} {o c a size : ℕ} {k : Chunk} {ga : GlobalAlloc} {chunk : ℕ}
  {ls : ListState}

/-- The end of a chunk in use, with a page to spare, is an address. -/
theorem end_lt (h : HeapShape cores gs lists layout jumbos)
    (hmax : gs.limit ≤ baseAddress + maxMemorySize) (hk : UsedBy lists layout jumbos o k) :
    k.addr + k.size < 2 ^ 64 := by
  have hbounds := h.used_bounds hk
  simp only [baseAddress, maxMemorySize] at hmax
  omega

/-! ## Chunks of the free lists -/

/-- **`alloc` of a small chunk.** -/
theorem alloc_step (h : HeapShape cores gs lists layout jumbos) (hc : c < cores)
    (hsize : ChunkSize size) (ht : TouchedOwned ⟨gs.mem, lists o c⟩)
    (hflags : ListState.splitFlagRight ⟨gs.mem, lists o c⟩ size = true)
    (heq : ListState.alloc gallocBlock gs.ga ⟨gs.mem, lists o c⟩ size = some (chunk, ga, ls)) :
    ∃ layout', HeapStep cores gs lists layout jumbos o none (some ⟨chunk, size, true⟩)
      ⟨ls.mem.setBitmap chunk size, ga⟩ (setList lists o c ls.fl) layout' jumbos := by
  obtain ⟨layout', hr, hbitmap, hfresh⟩ := h.alloc_list hc hsize ht hflags heq
  have hshape : HeapShape cores ⟨ls.mem.setBitmap chunk size, ga⟩ (setList lists o c ls.fl) layout'
      jumbos := hr.shape.congr_mem rfl rfl
  have hnew : UsedBy (setList lists o c ls.fl) layout' jumbos o ⟨chunk, size, true⟩ :=
    (hr.used o _).mpr (.inr ⟨rfl, rfl⟩)
  refine ⟨layout', hshape, hr.used, fun n heq o' k hk _ => ?_, hr.keeps, fun hmax hexact => ?_⟩
  · cases heq
    exact hfresh o' k hk
  rw [← hbitmap] at hexact
  refine hexact.set (hshape.used_bounds hnew).2.1 (hshape.end_lt hmax hnew) fun k => ?_
  simpa using inHeap_iff hr.used k

/-- **`dealloc` of a small chunk.** -/
theorem dealloc_step (h : HeapShape cores gs lists layout jumbos) (hc : c < cores)
    (ht : TouchedOwned ⟨gs.mem, lists o c⟩) (hk : InUse (lists o c).blocks layout k)
    (heq : ListState.dealloc ⟨gs.mem, lists o c⟩ k.addr = some ls) :
    ∃ layout', HeapStep cores gs lists layout jumbos o (some k) none ⟨ls.mem, gs.ga⟩
      (setList lists o c ls.fl) layout' jumbos := by
  obtain ⟨layout', fc, hr, hbitmap, hfc, hfree, hlo, hhi⟩ := h.dealloc_list hc ht hk heq
  refine ⟨layout', hr.shape, hr.used, nofun, hr.keeps, fun hmax hexact => ?_⟩
  rw [hbitmap]
  have hbounds := hr.shape.chunk_bounds hfc
  refine ExactFor.unset hbounds.1 hlo hhi ?_ (fun k' ⟨o', hk'⟩ => hr.shape.free_apart hfc hfree hk')
    (fun page hpage hshared => hr.shape.free_shared hfc hfree hpage hshared) hexact fun k' => ?_
  · simp only [baseAddress, maxMemorySize, bitmapGranularity] at hmax ⊢
    omega
  · simpa using inHeap_iff hr.used k'

/-! ## `realloc` -/

section Realloc

variable {newSize : ℕ}

/-- Nothing happens. -/
theorem same_step (h : HeapShape cores gs lists layout jumbos) {mem : HeapMemory}
    (hhdr : mem.hdr = gs.mem.hdr) (hlinks : mem.links = gs.mem.links)
    (hbitmap : mem.bitmap = gs.mem.bitmap) :
    HeapStep cores gs lists layout jumbos o none none ⟨mem, gs.ga⟩ lists layout jumbos where
  shape := h.congr_mem hhdr hlinks
  used o' k' := by simp
  fresh := nofun
  keeps o' k' _ _ := keepsWords_of_same fun x _ _ => ⟨congrFun hhdr x,
    congrFun (congrArg Links.prev hlinks) x, congrFun (congrArg Links.next hlinks) x⟩
  exact _ hexact := by
    rw [hbitmap]
    exact hexact

/-- A chunk that is large enough stays where it is. -/
theorem keep_step (h : HeapShape cores gs lists layout jumbos) (hk : UsedBy lists layout jumbos o k)
    {mem : HeapMemory} (hhdr : mem.hdr = gs.mem.hdr) (hlinks : mem.links = gs.mem.links)
    (hbitmap : mem.bitmap = gs.mem.bitmap) :
    HeapStep cores gs lists layout jumbos o (some k) (some k) ⟨mem, gs.ga⟩ lists layout jumbos where
  shape := h.congr_mem hhdr hlinks
  used o' k' := by
    by_cases hne : k' = k
    · subst hne
      have heq : UsedBy lists layout jumbos o' k' ↔ o' = o :=
        ⟨fun hk' => (h.used_eq hk' hk rfl).1, fun heq => heq ▸ hk⟩
      simp [heq]
    · simp [hne]
  fresh n heq o' k' hk' hne heq' := by
    cases heq
    exact hne (congrArg some (h.used_eq hk' hk heq').2)
  keeps o' k' hk' _ := (h.same_step (o := o) hhdr hlinks hbitmap).keeps o' k' hk' (by simp)
  exact := (h.same_step (o := o) hhdr hlinks hbitmap).exact

/-- **A chunk grows in place.** -/
theorem extend_step (h : HeapShape cores gs lists layout jumbos) (hc : c < cores)
    (ht : TouchedOwned ⟨gs.mem, lists o c⟩) (hk : InUse (lists o c).blocks layout k)
    (h64 : newSize % 64 = 0)
    (hgrow : ListState.growsInPlace ⟨gs.mem, lists o c⟩ k.addr newSize = true)
    (heq : (ListState.lookAhead ⟨gs.mem, lists o c⟩ k.addr).extend k.addr
      (ListState.nextChunk ⟨gs.mem, lists o c⟩ k.addr) newSize = ls) :
    ∃ layout', HeapStep cores gs lists layout jumbos o (some k) (some ⟨k.addr, newSize, true⟩)
        ⟨ls.mem, gs.ga⟩ (setList lists o c ls.fl) layout' jumbos ∧
      KeepsWords gs.mem ls.mem k := by
  obtain ⟨chains, hinv⟩ := h.list o c
  obtain ⟨b, hb, f, L, R, hlayout, hnext, hfree, hlt, hle⟩ := hinv.growsInPlace_spec hk.1 hgrow
  have hread := hinv.readOnly_lookAhead hk.1
  have hblocks₀ : (ListState.lookAhead ⟨gs.mem, lists o c⟩ k.addr).fl.blocks = (lists o c).blocks :=
    hread.rest.blocks_eq
  obtain ⟨layout', chains', hinv', hext⟩ := (hread.listInv hinv).extend (hblocks₀ ▸ hb) hlayout hk.2
    hfree hlt hle h64
  replace hext := hext.of_readOnly hread
  have hf : f ∈ layout b := by rw [hlayout]; simp
  have hkmem : k ∈ layout b := by rw [hlayout]; simp
  have hkf := hinv.addr_next hb hlayout
  -- the header that gets a copied id is that of the remainder, inside the free chunk
  have hwrites : Writes (if newSize - k.size < f.size then some (f.addr + (newSize - k.size)) else none)
      ⟨gs.mem, lists o c⟩ ls := by
    rw [← heq, hnext]
    refine (ListState.writes_lookAhead _ _).trans (ListState.writes_extend _ _ _ _ fun hrem => ?_)
    have hksize := ((hinv.blockOk b hb).describes k hkmem).1
    have hfsize := ((hinv.blockOk b hb).describes f hf).1
    have hhdr₀ : (ListState.lookAhead ⟨gs.mem, lists o c⟩ k.addr).hdr = gs.mem.hdr := hread.hdr_eq
    rw [hhdr₀, hksize, hfsize] at hrem
    rw [hhdr₀, hksize, if_pos hrem]
  rw [hnext] at heq
  rw [heq] at hinv' hext
  have hids : ∀ k', InUse ls.fl.blocks layout' k' → (ls.mem.hdr k'.addr).freeListId = c := by
    intro k' hk'
    have hold : (gs.mem.hdr k'.addr).freeListId = c ∧
        (k'.addr < f.addr ∨ f.addr + f.size ≤ k'.addr) := by
      rcases (hext.inUse k').mp hk' with ⟨hk', hne⟩ | rfl
      · have hpos := h.pos_of_inUse hk'
        have hapart := hinv.disjoint hk'.1 ⟨b, hb, hf⟩ fun heq => by
          have := hk'.2
          rw [heq, hfree] at this
          cases this
        exact ⟨h.ids o c k' hk', by omega⟩
      · have hpos := h.pos_of_inUse hk
        exact ⟨h.ids o c k hk, .inl (by show k.addr < f.addr; omega)⟩
    rcases hwrites.id_eq k'.addr (by split <;> simp; omega) with hid | hid
    · exact hid.trans hold.1
    · exact hid.trans (h.myId o c)
  have hr : ListStep cores gs lists layout jumbos o c (some k) (some ⟨k.addr, newSize, true⟩) gs.ga ls
      (placed ls.fl.blocks layout' layout) := by
    refine (h.replace_own hc hwrites (hext.touched ht) hext.blocks_eq hinv' hids).listStep h
      (hext.touched ht) (fun k' heq => ?_) (fun k' => ?_) fun k' hk' _ => (hext.keeps k' hk').keepsWords
    · cases heq
      exact hk
    · rw [hext.inUse]
      simp
  refine ⟨_, ⟨hr.shape, hr.used, fun n heq o' k' hk' hne heq' => ?_, hr.keeps,
    fun hmax hexact => ?_⟩, (hext.keeps k hk).keepsWords⟩
  · cases heq
    exact hne (congrArg some (h.used_eq hk' (.inl ⟨c, hk⟩) heq').2)
  · rw [hext.bitmap_eq]
    have hnew := (hr.used o _).mpr (.inr ⟨rfl, rfl⟩)
    refine hexact.grow ⟨o, .inl ⟨c, hk⟩⟩ (h.used_bounds (.inl ⟨c, hk⟩)).2.1 hlt
      (hr.shape.end_lt hmax hnew) fun k' => ?_
    simpa using inHeap_iff hr.used k'

/-- A copy into a chunk writes its payload only. -/
theorem writesInto_copyPayload (s : ListState) (src : ℕ) {n : Chunk} {len : ℕ} (hle : len ≤ n.size) :
    WritesInto s.mem (s.copyPayload src n.addr len).mem n where
  hdr_eq x hx := if_neg (by omega)
  links_eq x hx := ⟨if_neg (by omega), if_neg (by omega)⟩

/-- **A chunk moves**: `alloc`, a copy of the payload, and `dealloc`. -/
theorem move_step (h : HeapShape cores gs lists layout jumbos) (hc : c < cores)
    (ht : TouchedOwned ⟨gs.mem, lists o c⟩) (hk : InUse (lists o c).blocks layout k)
    (hsize : ChunkSize newSize) (hlt : k.size < newSize)
    (hflags : ListState.splitFlagRight ⟨gs.mem, lists o c⟩ newSize = true) {s₁ s₂ : ListState} {n : ℕ}
    (halloc : ListState.alloc gallocBlock gs.ga ⟨gs.mem, lists o c⟩ newSize = some (n, ga, s₁))
    (hdealloc : (s₁.copyPayload k.addr n (s₁.hdr k.addr).size).dealloc k.addr = some s₂) :
    ∃ layout', HeapStep cores gs lists layout jumbos o (some k) (some ⟨n, newSize, true⟩)
        ⟨s₂.mem.setBitmap n newSize, ga⟩ (setList lists o c s₂.fl) layout' jumbos ∧
      SamePayload ⟨gs.mem, lists o c⟩ k.addr s₂ n k.size := by
  obtain ⟨layout₁, hr, hbitmap, hfresh⟩ := h.alloc_list hc hsize ht hflags halloc
  have hk₁ : InUse s₁.fl.blocks layout₁ k := (hr.own k).mpr (.inl ⟨hk, by simp⟩)
  have hnew : UsedBy (setList lists o c s₁.fl) layout₁ jumbos o ⟨n, newSize, true⟩ :=
    (hr.used o _).mpr (.inr ⟨rfl, rfl⟩)
  have hksize : (s₁.hdr k.addr).size = k.size := by
    obtain ⟨chains, hinv⟩ := hr.shape.list o c
    rw [setList_self] at hinv
    obtain ⟨⟨b, hb, hmem⟩, -⟩ := hk₁
    exact ((hinv.blockOk b hb).describes k hmem).1
  rw [hksize] at hdealloc
  -- the copy
  have hinto : WritesInto s₁.mem (s₁.copyPayload k.addr n k.size).mem ⟨n, newSize, true⟩ :=
    writesInto_copyPayload s₁ k.addr (n := ⟨n, newSize, true⟩) hlt.le
  have hshape₁ := hr.shape.writesInto hnew hinto
  obtain ⟨layout₂, fc, hr', hbitmap', hfc, hfree, hlo, hhi⟩ := hshape₁.dealloc_list (o := o) (k := k)
    (by exact hc)
    (by
      rw [setList_self]
      exact hr.touched)
    (by rwa [setList_self])
    (by
      rw [setList_self]
      exact hdealloc)
  have hshape := hr'.shape
  rw [setList_setList] at hshape hfc
  have hused : ∀ o' k', UsedBy (setList lists o c s₂.fl) layout₂ jumbos o' k' ↔
      (UsedBy lists layout jumbos o' k' ∧ some k' ≠ some k) ∨
        (o' = o ∧ some k' = some ⟨n, newSize, true⟩) := by
    intro o' k'
    have hused' := hr'.used o' k'
    rw [setList_setList, hr.used] at hused'
    rw [hused']
    have hnk : some k' = some ⟨n, newSize, true⟩ → some k' ≠ some k := fun heq heq' => by
      cases heq'
      cases heq
      exact hfresh o _ (.inl ⟨c, hk⟩) rfl
    simp only [ne_eq, reduceCtorEq, not_false_eq_true, and_true, and_false, or_false]
    rw [or_and_right, and_assoc, and_iff_left_of_imp hnk]
  have hnk : (⟨n, newSize, true⟩ : Chunk) ≠ k := fun heq =>
    hfresh o k (.inl ⟨c, hk⟩) (by rw [← heq])
  refine ⟨layout₂, ⟨hshape.congr_mem rfl rfl, hused, fun n' heq o' k' hk' _ => ?_,
    fun o' k' hk' hne => ?_, fun hmax hexact => ?_⟩, ?_⟩
  · cases heq
    exact hfresh o' k' hk'
  · have hk₁' := (hr.used o' k').mpr (.inl ⟨hk', by simp⟩)
    have hapart := hr.shape.used_apart hnew hk₁' fun heq =>
      hfresh o' k' hk' (by rw [← (Prod.mk.inj heq).2])
    exact ((hr.keeps o' k' hk' (by simp)).trans (hinto.keepsWords hapart)).trans
      (hr'.keeps o' k' hk₁' hne)
  · have hbounds := hshape.chunk_bounds hfc
    have hend := (hused o _).mpr (.inr ⟨rfl, rfl⟩)
    have hexact₁ : ExactFor (s₁.copyPayload k.addr n k.size).mem.bitmap (InHeap lists layout jumbos) := by
      show ExactFor s₁.mem.bitmap _
      rw [hbitmap]
      exact hexact
    show ExactFor (s₂.mem.setBitmap n newSize).bitmap _
    rw [ListState.setBitmap_congr hbitmap']
    refine ExactFor.move hbounds.1 hlo hhi ?_ (fun k' ⟨o', hk'⟩ => hshape.free_apart hfc hfree hk')
      (fun page hpage hshared => hshape.free_shared hfc hfree hpage hshared) hexact₁
      (hshape.used_bounds hend).2.1 (hshape.end_lt hmax hend) (fun k' => ?_) hnk.symm
    · have hlimit := hbounds.2.trans hmax
      simp only [baseAddress, maxMemorySize, bitmapGranularity] at hlimit ⊢
      omega
    · have hne : k' = ⟨n, newSize, true⟩ → k' ≠ k := fun heq => heq ▸ hnk
      rw [inHeap_iff hused, ne_eq, Option.some_inj, Option.some_inj, or_and_right,
        and_iff_left_of_imp hne]
  · have hkeep : KeepsWords gs.mem s₁.mem k := hr.keeps o k (.inl ⟨c, hk⟩) (by simp)
    have hkeep' : KeepsWords (s₁.copyPayload k.addr n k.size).mem s₂.mem ⟨n, newSize, true⟩ :=
      hr'.keeps o _ hnew (by simpa using hnk)
    have hold : SamePayload ⟨gs.mem, lists o c⟩ k.addr s₁ k.addr k.size := hkeep.samePayload
    have hcopied : SamePayload (s₁.copyPayload k.addr n k.size) n s₂ n newSize := hkeep'.samePayload
    exact (hold.trans (samePayload_copy s₁ k.addr n k.size)).trans (hcopied.mono hlt.le)

/-- **`realloc` of a small chunk.** The new chunk starts with the payload of the old one. -/
theorem realloc_step (h : HeapShape cores gs lists layout jumbos) (hc : c < cores)
    (ht : TouchedOwned ⟨gs.mem, lists o c⟩) (hk : InUse (lists o c).blocks layout k)
    (hsize : ChunkSize newSize)
    (hflags : newSize ≤ k.size ∨ ListState.growsInPlace ⟨gs.mem, lists o c⟩ k.addr newSize = true ∨
      (ListState.lookAhead ⟨gs.mem, lists o c⟩ k.addr).splitFlagRight newSize = true) {n : ℕ}
    (heq : ListState.realloc gallocBlock gs.ga ⟨gs.mem, lists o c⟩ k.addr newSize = some (n, ga, ls)) :
    ∃ layout' new, HeapStep cores gs lists layout jumbos o (some k) (some new) ⟨ls.mem, ga⟩
        (setList lists o c ls.fl) layout' jumbos ∧ new.addr = n ∧ newSize ≤ new.size ∧
      SamePayload ⟨gs.mem, lists o c⟩ k.addr ls n k.size := by
  obtain ⟨chains, hinv⟩ := h.list o c
  have hksize : (gs.mem.hdr k.addr).size = k.size := by
    obtain ⟨⟨b, hb, hmem⟩, -⟩ := hk
    exact ((hinv.blockOk b hb).describes k hmem).1
  rcases Nat.lt_or_ge k.size newSize with hlt | hge
  · rw [ListState.realloc_eq gallocBlock gs.ga (hksize.trans_lt hlt)] at heq
    by_cases hgrow : ListState.growsInPlace ⟨gs.mem, lists o c⟩ k.addr newSize = true
    · rw [if_pos hgrow] at heq
      cases heq
      obtain ⟨layout', hstep, hkeep⟩ := h.extend_step hc ht hk hsize.2.1 hgrow rfl
      exact ⟨layout', _, hstep, rfl, le_rfl, hkeep.samePayload⟩
    · -- it has read the chunk and its successor, and moves the chunk
      rw [if_neg hgrow] at heq
      have hread := hinv.readOnly_lookAhead hk.1
      have hflags₀ : (ListState.lookAhead ⟨gs.mem, lists o c⟩ k.addr).splitFlagRight newSize = true := by
        simpa [hgrow, Nat.not_le.mpr hlt] using hflags
      have hfl : (ListState.lookAhead ⟨gs.mem, lists o c⟩ k.addr).fl = lists o c := by
        rw [ListState.lookAhead]
        split <;> rfl
      generalize ListState.lookAhead ⟨gs.mem, lists o c⟩ k.addr = s₀ at heq hread hflags₀ hfl
      obtain ⟨mem₀, fl₀⟩ := s₀
      subst hfl
      have h₀ := h.congr_mem hread.hdr_eq hread.links_eq
      cases halloc : ListState.alloc gallocBlock gs.ga ⟨mem₀, lists o c⟩ newSize with
      | none => simp [halloc] at heq
      | some r =>
        obtain ⟨n', ga', s₁⟩ := r
        rw [halloc] at heq
        dsimp only at heq
        cases hdealloc : (s₁.copyPayload k.addr n' (s₁.hdr k.addr).size).dealloc k.addr with
        | none => simp [hdealloc] at heq
        | some s₂ =>
          rw [hdealloc] at heq
          cases heq
          obtain ⟨layout', hstep, hpayload⟩ := h₀.move_step hc (hread.touched ht) hk hsize hlt hflags₀
            halloc hdealloc
          refine ⟨layout', _, hstep.of_mem hread.hdr_eq hread.links_eq hread.rest.bitmap_eq, rfl,
            le_rfl, ?_⟩
          exact (hread.keepsPayload k).samePayload.trans hpayload
  · rw [ListState.realloc, if_pos (by rw [ListState.hdr_touch]; exact hksize.trans_ge hge)] at heq
    cases heq
    refine ⟨layout, k, ?_, rfl, hge, (keepsWords_of_same fun x _ _ => .refl _ _).samePayload⟩
    have hself : setList lists o c (ListState.touch ⟨gs.mem, lists o c⟩ k.addr).fl = lists :=
      setList_eq_self
    rw [hself]
    exact h.keep_step (.inl ⟨c, hk⟩) rfl rfl rfl

end Realloc

/-! ## Chunks larger than a block -/

section Big

variable {s : GlobalState} {mem : HeapMemory}

/-- Changes outside the blocks of the free lists. -/
theorem of_regions (h : HeapShape cores gs lists layout jumbos) {jumbos' : List (ℕ × Chunk)}
    (hregions : ∃ live ps chain, Regions s live ps chain ∧ ∀ m, m ∈ live ↔ IsRegion lists jumbos' m)
    (hsame : ∀ o c a, Owned (lists o c).blocks a → SameWords gs.mem s.mem a)
    (hjumbo : ∀ x ∈ jumbos', JumboOk cores s.mem.hdr x.2)
    (heq : ∀ x ∈ jumbos', ∀ y ∈ jumbos', x.2.addr = y.2.addr → x = y) (hnodup : jumbos'.Nodup) :
    HeapShape cores s lists layout jumbos' where
  list o' c' := by
    obtain ⟨chains, hinv⟩ := h.list o' c'
    exact ⟨chains, hinv.congr (fun k ⟨b, hb, hk⟩ => (hsame o' c' _ (hinv.owned hb hk)).1)
      fun i a ha => (hsame o' c' _ (hinv.chain_owned ha)).2⟩
  only := h.only
  myId := h.myId
  unused := h.unused
  regions := hregions
  jumbo := hjumbo
  jumbo_eq := heq
  jumbo_nodup := hnodup
  ids o' c' k hk := by
    have hpos := h.pos_of_inUse hk
    rw [(hsame o' c' _ (h.owned_of_inUse hk le_rfl (by omega))).1]
    exact h.ids o' c' k hk

/-- The region of a large chunk has no byte in common with another chunk in use. -/
theorem jumbo_apart (h : HeapShape cores gs lists layout jumbos) (hk : (o, k) ∈ jumbos) {o' : ℕ}
    {k' : Chunk} (hk' : UsedBy lists layout jumbos o' k') (hne : (o', k') ≠ (o, k)) :
    k'.addr + k'.size ≤ k.addr ∨ k.addr + bigAllocSize k.size ≤ k'.addr := by
  obtain ⟨live, ps, chain, hreg, hlive⟩ := h.regions
  have hm : (⟨k.addr, bigAllocSize k.size⟩ : MemoryRegion) ∈ live := (hlive _).mpr (.inr ⟨_, hk, rfl⟩)
  have hsize := bigBlocks_spec k.size
  have hlarge : blockSize < k.size := (h.jumbo _ hk).large
  rcases hk' with ⟨c', hk'⟩ | hk'
  · obtain ⟨⟨b, hb, hmem⟩, -⟩ := hk'
    obtain ⟨chains, hinv⟩ := h.list o' c'
    have hbounds := (hinv.blockOk b hb).bounds hmem
    have hapart := hreg.live_apart hm ((hlive ⟨b, blockSize⟩).mpr (.inl ⟨o', c', b, hb, rfl⟩))
      fun heq => by
        have hsizes : bigAllocSize k.size = blockSize := congrArg MemoryRegion.size heq
        rw [bigAllocSize_eq] at hsizes
        omega
    dsimp only at hapart
    omega
  · have hsize' := bigBlocks_spec k'.size
    have hapart := hreg.live_apart hm ((hlive _).mpr (.inr ⟨_, hk', rfl⟩)) fun heq =>
      hne (h.jumbo_eq _ hk' _ hk (congrArg MemoryRegion.ptr heq).symm)
    rw [← bigAllocSize_eq] at hsize'
    dsimp only at hapart
    omega

/-- The region of a large chunk is handed out. -/
theorem jumbo_inLive (h : HeapShape cores gs lists layout jumbos) {live : List MemoryRegion}
    {jumbos' : List (ℕ × Chunk)} (hlive : ∀ m, m ∈ live ↔ IsRegion lists jumbos' m)
    {x : ℕ × Chunk} (hx : x ∈ jumbos) (hx' : x ∈ jumbos') : InLive live x.2.addr := by
  have hlarge := (h.jumbo x hx).large
  have hsize := bigBlocks_spec x.2.size
  rw [← bigAllocSize_eq] at hsize
  exact ⟨_, (hlive _).mpr (.inr ⟨x, hx', rfl⟩), le_rfl, by dsimp only; omega⟩

section Add

variable {live : List MemoryRegion} {ps : List Piece} {chain : List ℕ}
  (hreg : Regions s (⟨chunk, bigAllocSize size⟩ :: live) ps chain)

include hreg

/-- A new region lies outside the old ones. -/
theorem inLive_ne {a : ℕ} (ha : InLive live a) : a ≠ chunk := by
  rintro rfl
  obtain ⟨m, hm, hlo, hhi⟩ := ha
  have hapart := hreg.live_apart (List.mem_cons_of_mem _ hm) List.mem_cons_self
    (ne_of_mem_of_not_mem hm (List.nodup_cons.mp hreg.live_nodup).1)
  have hpos := (hreg.live_bounds List.mem_cons_self).2.2.1
  dsimp only at hapart hpos
  omega

/-- A heap with one more large chunk. -/
theorem add_jumbo (h : HeapShape cores gs lists layout jumbos)
    (hlive : ∀ m, m ∈ live ↔ IsRegion lists jumbos m)
    (hsame : ∀ a, InLive live a → SameWords gs.mem s.mem a)
    (hnew : JumboOk cores s.mem.hdr ⟨chunk, size, true⟩) :
    HeapShape cores s lists layout ((o, ⟨chunk, size, true⟩) :: jumbos) := by
  have hjumbo : ∀ x ∈ jumbos, InLive live x.2.addr := fun x hx => h.jumbo_inLive hlive hx hx
  refine h.of_regions ⟨_, ps, chain, hreg, fun m => ?_⟩ (fun o' c' a ha => hsame a ?_)
    (List.forall_mem_cons.mpr ⟨hnew, fun x hx => (h.jumbo x hx).congr (hsame _ (hjumbo x hx)).1⟩)
    (fun x hx y hy heq => ?_) ?_
  · rw [List.mem_cons, hlive, IsRegion, IsRegion, List.exists_mem_cons_iff]
    exact or_left_comm
  · obtain ⟨m, hm, hhas⟩ := owned_region jumbos ha
    exact ⟨m, (hlive m).mpr hm, hhas⟩
  · rcases List.mem_cons.mp hx with rfl | hx <;> rcases List.mem_cons.mp hy with rfl | hy
    · rfl
    · exact absurd heq.symm (inLive_ne hreg (hjumbo y hy))
    · exact absurd heq (inLive_ne hreg (hjumbo x hx))
    · exact h.jumbo_eq x hx y hy heq
  · exact List.nodup_cons.mpr ⟨fun hmem => inLive_ne hreg (hjumbo _ hmem) rfl, h.jumbo_nodup⟩

end Add

/-- **`alloc` of a chunk that is larger than a block.** -/
theorem bigAlloc_step (h : HeapShape cores gs lists layout jumbos) (hc : c < cores)
    (hlarge : blockSize < size) (hfield : size < sizeLimit)
    (heq : gs.bigAlloc c size = some (chunk, s))
    (hmem : s.mem.setBitmapForBigAlloc chunk size = some mem) :
    HeapStep cores gs lists layout jumbos o none (some ⟨chunk, size, true⟩) ⟨mem, s.ga⟩ lists layout
      ((o, ⟨chunk, size, true⟩) :: jumbos) := by
  obtain ⟨⟨chunk', gs₁⟩, halloc, heq⟩ := Option.bind_eq_some_iff.mp heq
  cases heq
  obtain ⟨live, ps, chain, hreg, hlive⟩ := h.regions
  have hsize := bigBlocks_spec size
  rw [← bigAllocSize_eq] at hsize
  obtain ⟨ps', chain', hreg'⟩ := hreg.alloc (by omega) ⟨bigBlocks size, by
    rw [bigAllocSize_eq, Nat.mul_comm]⟩ halloc
  have hkeep := hreg.alloc_keeps halloc
  have hbounds := hreg'.live_bounds List.mem_cons_self
  dsimp only at hbounds
  obtain ⟨bitmap, hset, -⟩ := setBitmapForBigAlloc_some
    (gs₁.setHeader chunk (bigHeader c size)).mem hbounds.2.2.2 hbounds.1 size
  obtain rfl : _ = mem := Option.some.inj (hset.symm.trans hmem)
  have hhdr : Function.update gs₁.mem.hdr chunk (bigHeader c size) chunk = bigHeader c size :=
    update_self _ _ _
  have hsame : ∀ a, InLive live a →
      SameWords gs.mem { (gs₁.setHeader chunk (bigHeader c size)).mem with bitmap := bitmap } a :=
    fun a ha => (hkeep.words a ha).trans ⟨update_of_ne (inLive_ne hreg' ha) _ _, rfl, rfl⟩
  -- the nodes of the global allocator are not handed out
  have hnode : ∀ a ∈ chain', a ≠ chunk := by
    rintro a ha rfl
    exact hreg'.not_node ⟨_, List.mem_cons_self, le_rfl, Nat.lt_add_of_pos_right hbounds.2.2.1⟩ ha
  have hreg₂ : Regions ⟨{ (gs₁.setHeader chunk (bigHeader c size)).mem with bitmap := bitmap }, gs₁.ga⟩
      (⟨chunk, bigAllocSize size⟩ :: live) ps' chain' := hreg'.congr fun a ha =>
    ⟨update_of_ne (hnode a ha) _ _, rfl, rfl⟩
  have hshape := h.add_jumbo (o := o) hreg₂ hlive hsame ⟨hlarge, hfield, rfl,
    (congrArg ChunkHeader.size hhdr).trans (Nat.mod_eq_of_lt hfield), congrArg ChunkHeader.used hhdr,
    (congrArg ChunkHeader.freeListId hhdr).trans_lt hc⟩
  have hused : ∀ o' k, UsedBy lists layout ((o, ⟨chunk, size, true⟩) :: jumbos) o' k ↔
      (UsedBy lists layout jumbos o' k ∧ some k ≠ none) ∨
        (o' = o ∧ some k = some ⟨chunk, size, true⟩) := by
    intro o' k
    simp only [UsedBy, List.mem_cons, Prod.mk.injEq, ne_eq, reduceCtorEq, not_false_eq_true, and_true,
      Option.some_inj]
    rw [or_comm (a := o' = o ∧ _), or_assoc]
  have hinLive : ∀ o' k, UsedBy lists layout jumbos o' k → ∀ x, k.addr ≤ x → x < k.addr + k.size →
      InLive live x := fun o' k hk x hlo hhi => by
    obtain ⟨-, m, hm, hmlo, hmhi⟩ := h.region_of_used hk
    exact ⟨m, (hlive m).mpr hm, by omega, by omega⟩
  refine ⟨hshape, hused, fun n heq o' k hk _ => ?_,
    fun o' k hk _ => keepsWords_of_same fun x hlo hhi => hsame x (hinLive o' k hk x hlo hhi),
    fun hmax hexact => ?_⟩
  · cases heq
    have hpos := (h.used_bounds hk).1
    exact inLive_ne hreg' (hinLive o' k hk k.addr le_rfl (by omega))
  · have hnew := (hused o _).mpr (.inr ⟨rfl, rfl⟩)
    have hend := (hshape.used_bounds hnew).2.2.trans hmax
    simp only [baseAddress, maxMemorySize] at hend
    rw [setBitmapForBigAlloc_eq _ hbounds.2.2.2 hbounds.1
      (by simp only [cellSize, bitmapGranularity]; omega)
      (by simp only [cellSize, bitmapGranularity]; omega)] at hset
    have hbitmap : _ = bitmap := congrArg HeapMemory.bitmap (Option.some.inj hset)
    show ExactFor bitmap _
    rw [← hbitmap]
    have hexact₁ : ExactFor (gs₁.setHeader chunk (bigHeader c size)).mem.bitmap
        (InHeap lists layout jumbos) := by
      show ExactFor gs₁.mem.bitmap _
      rw [hkeep.bitmap]
      exact hexact
    refine hexact₁.set hbounds.1 (hshape.end_lt hmax hnew) fun k => ?_
    simpa using inHeap_iff hused k

section Remove

variable (h : HeapShape cores gs lists layout jumbos) (hk : (o, k) ∈ jumbos)

include h hk

/-- The regions without that of a large chunk. -/
theorem isRegion_erase {live : List MemoryRegion} (hnodup : live.Nodup)
    (hlive : ∀ m, m ∈ live ↔ IsRegion lists jumbos m) (m : MemoryRegion) :
    m ∈ live.erase ⟨k.addr, bigAllocSize k.size⟩ ↔ IsRegion lists (jumbos.erase (o, k)) m := by
  rw [hnodup.mem_erase_iff, hlive]
  constructor
  · rintro ⟨hne, hblock | ⟨x, hx, rfl⟩⟩
    · exact .inl hblock
    · refine .inr ⟨x, (List.mem_erase_of_ne ?_).mpr hx, rfl⟩
      rintro rfl
      exact hne rfl
  · rintro (hblock | ⟨x, hx, rfl⟩)
    · refine ⟨?_, .inl hblock⟩
      rintro rfl
      obtain ⟨o', c', b, -, heq⟩ := hblock
      have hsize : bigAllocSize k.size = blockSize := congrArg MemoryRegion.size heq
      have hlarge : blockSize < k.size := (h.jumbo _ hk).large
      have hblocks := bigBlocks_spec k.size
      rw [← bigAllocSize_eq] at hblocks
      omega
    · obtain ⟨hne, hx⟩ := h.jumbo_nodup.mem_erase_iff.mp hx
      exact ⟨fun heq => hne (h.jumbo_eq _ hx _ hk (congrArg MemoryRegion.ptr heq)), .inr ⟨x, hx, rfl⟩⟩

omit hk in
/-- A heap with one large chunk less. -/
theorem remove_jumbo {live : List MemoryRegion} {ps : List Piece} {chain : List ℕ}
    (hreg : Regions s live ps chain)
    (hlive : ∀ m, m ∈ live ↔ IsRegion lists (jumbos.erase (o, k)) m)
    (hsame : ∀ a, InLive live a → SameWords gs.mem s.mem a) :
    HeapShape cores s lists layout (jumbos.erase (o, k)) := by
  have hmem : ∀ x ∈ jumbos.erase (o, k), x ∈ jumbos := fun x hx => List.mem_of_mem_erase hx
  refine h.of_regions ⟨live, ps, chain, hreg, hlive⟩ (fun o' c' a ha => hsame a ?_)
    (fun x hx => (h.jumbo x (hmem x hx)).congr (hsame _ (h.jumbo_inLive hlive (hmem x hx) hx)).1)
    (fun x hx y hy heq => h.jumbo_eq x (hmem x hx) y (hmem y hy) heq) (h.jumbo_nodup.erase _)
  obtain ⟨m, hm, hhas⟩ := owned_region (jumbos.erase (o, k)) ha
  exact ⟨m, (hlive m).mpr hm, hhas⟩

/-- The chunks in use without a large one. -/
theorem used_erase (o' : ℕ) (k' : Chunk) : UsedBy lists layout (jumbos.erase (o, k)) o' k' ↔
    UsedBy lists layout jumbos o' k' ∧ k' ≠ k := by
  constructor
  · rintro (hk' | hk')
    · refine ⟨.inl hk', ?_⟩
      rintro rfl
      obtain ⟨c', ⟨b, hb, hmem⟩, -⟩ := hk'
      obtain ⟨chains, hinv⟩ := h.list o' c'
      have hbounds := (hinv.blockOk b hb).bounds hmem
      have hlarge : blockSize < k'.size := (h.jumbo _ hk).large
      omega
    · obtain ⟨hne, hmem⟩ := h.jumbo_nodup.mem_erase_iff.mp hk'
      refine ⟨.inr hmem, ?_⟩
      rintro rfl
      exact hne (h.jumbo_eq _ hmem _ hk rfl)
  · rintro ⟨hk' | hk', hne⟩
    · exact .inl hk'
    · exact .inr ((List.mem_erase_of_ne fun heq => hne (Prod.mk.inj heq).2).mpr hk')

/-- Clearing the pages of the region of a large chunk. -/
theorem exactFor_erase {bitmap bitmap' : ℕ → BitVec 64}
    (hexact : ExactFor bitmap (InHeap lists layout jumbos))
    (hpages : ∀ page, pageSet bitmap' page =
      if k.addr ≤ pageAddr page ∧ pageAddr page < k.addr + bigBlocks k.size * blockSize then false
      else pageSet bitmap page) :
    ExactFor bitmap' (InHeap lists layout (jumbos.erase (o, k))) := by
  have hblocks := bigBlocks_spec k.size
  have halign : k.addr % blockSize = 0 := by
    obtain ⟨live, ps, chain, hreg, hlive⟩ := h.regions
    exact (hreg.live_bounds ((hlive ⟨k.addr, bigAllocSize k.size⟩).mpr (.inr ⟨_, hk, rfl⟩))).2.2.2
  intro page
  simp only [InHeap, h.used_erase hk, exists_and_right]
  rw [hpages]
  split
  · -- the page lies inside the region
    rename_i hin
    simp only [Bool.false_eq_true, false_iff, not_exists, not_and]
    rintro k' ⟨⟨o', hk'⟩, hne⟩ hpage
    have hapart := h.jumbo_apart hk hk' fun heq => hne (Prod.mk.inj heq).2
    rw [bigAllocSize_eq] at hapart
    rw [overlaps_iff] at hpage
    simp only [pageAddr, baseAddress, blockSize, bitmapGranularity] at hin hpage halign hapart
    omega
  · rename_i hout
    rw [hexact page]
    constructor
    · rintro ⟨k', hk', hpage⟩
      refine ⟨k', ⟨hk', ?_⟩, hpage⟩
      rintro rfl
      rw [overlaps_iff] at hpage
      simp only [pageAddr, baseAddress, blockSize, bitmapGranularity] at hout hpage halign hblocks
      omega
    · rintro ⟨k', ⟨hk', -⟩, hpage⟩
      exact ⟨k', hk', hpage⟩

/-- **`dealloc` of a chunk that is larger than a block.** -/
theorem bigDealloc_step (heq : gs.bigDealloc k.addr = some s) :
    HeapStep cores gs lists layout jumbos o (some k) none s lists layout (jumbos.erase (o, k)) := by
  have hsize : gs.size k.addr = k.size := (h.jumbo _ hk).size_eq
  have hlarge : blockSize < k.size := (h.jumbo _ hk).large
  have hblocks := bigBlocks_spec k.size
  obtain ⟨live, ps, chain, hreg, hlive⟩ := h.regions
  have hm : (⟨k.addr, bigAllocSize k.size⟩ : MemoryRegion) ∈ live := (hlive _).mpr (.inr ⟨_, hk, rfl⟩)
  have hbounds := hreg.live_bounds hm
  dsimp only at hbounds
  rw [GlobalState.bigDealloc, hsize] at heq
  obtain ⟨bitmap, hunset, hpages⟩ := unsetBitmapForBigDealloc_some
    (gs.setHeader k.addr clearedHeader).mem hbounds.2.2.2 hbounds.1 (bigBlocks k.size)
  rw [hunset, Option.bind_some, ← bigAllocSize_eq] at heq
  -- the header is not a node of the global allocator
  have hreg₁ : Regions ⟨{ (gs.setHeader k.addr clearedHeader).mem with bitmap := bitmap }, gs.ga⟩ live ps
      chain := hreg.congr fun a ha => ⟨update_of_ne (fun heq => hreg.not_node
    ⟨_, hm, heq.ge, heq ▸ Nat.lt_add_of_pos_right hbounds.2.2.1⟩ ha) _ _, rfl, rfl⟩
  obtain ⟨s', ps', chain', hrelease, hreg'⟩ := hreg₁.release hm
  obtain rfl : s = s' := Option.some.inj (heq.symm.trans hrelease)
  have hkeep := hreg₁.release_keeps hm heq
  have hsame : ∀ a, InLive (live.erase ⟨k.addr, bigAllocSize k.size⟩) a →
      SameWords gs.mem s.mem a := by
    intro a ha
    have hwords := hkeep.words a ha
    obtain ⟨m, hm', hlo, hhi⟩ := ha
    obtain ⟨hne, hm'⟩ := hreg.live_nodup.mem_erase_iff.mp hm'
    have hapart := hreg.live_apart hm' hm hne
    dsimp only at hapart
    exact ⟨hwords.1.trans (update_of_ne (by omega) _ _), hwords.2⟩
  have hlive' := h.isRegion_erase hk hreg.live_nodup hlive
  have hused : ∀ o' k', UsedBy lists layout (jumbos.erase (o, k)) o' k' ↔
      (UsedBy lists layout jumbos o' k' ∧ some k' ≠ some k) ∨ (o' = o ∧ some k' = none) := by
    intro o' k'
    rw [h.used_erase hk]
    simp
  have hshape := h.remove_jumbo hreg' hlive' hsame
  refine ⟨hshape, hused, by simp, fun o' k' hk' hne => keepsWords_of_same fun x hlo hhi => hsame x ?_,
    fun hmax hexact => h.exactFor_erase hk hexact ?_⟩
  · obtain ⟨-, m, hm', hmlo, hmhi⟩ := hshape.region_of_used ((hused o' k').mpr (.inl ⟨hk', hne⟩))
    exact ⟨m, (hlive' m).mpr hm', by omega, by omega⟩
  · rw [hkeep.bitmap]
    have hlimit : s.limit = gs.limit := limit_congr ((mappedRegions_release heq).trans rfl)
    refine hpages ?_
    rw [← bigAllocSize_eq]
    simp only [hlimit, baseAddress, maxMemorySize] at hmax
    omega

end Remove

end Big

end HeapShape

end Pronto
