import Pronto.Alloc.Release

/-!
# Runs of the whole allocator

A run takes calls of `alloc`, `dealloc`, `realloc` and `releaseFreeBlocks` of any number of objects,
one call at a time and in any order, and writes of the objects into their chunks. Different threads
may make the calls, but no two calls overlap in time; `Pronto.Alloc.GlobalRace` is about calls of
the global allocator that do. `dealloc`, `realloc` and writes are for live pointers: those that a
call has returned to the object and that have not been freed or moved since.

In a run without the wrong flag of `splitFront`, and with sizes that fit into their fields, the live
chunks never overlap each other or the free regions of the global allocator (`heap_safe`), the page
bitmap has exactly the bits of their pages (`heap_bitmap_exact`), and nobody but the owner changes
what is stored in a chunk (`heap_keeps_payload`), also when it moves (`heap_realloc_payload`).
`releaseFreeBlocks` gives back all blocks without a live chunk (`heap_releaseFreeBlocks`), and no
mapped byte is ever lost (`heap_accounts_for_memory`).
-/

namespace Pronto

open Function Linked Runs

/-! ## Calls -/

/-- The global allocator with the memory, the free lists of all objects, and the live pointers with the
objects they were returned to. -/
structure HeapState where
  gs : GlobalState
  objects : ℕ → List FreeList
  live : List (ℕ × ℕ)

/-- An empty heap, with a free list for each core in every object. -/
def HeapState.new (mem : HeapMemory) (cores : ℕ) : HeapState :=
  ⟨.new mem, fun _ => (List.range cores).map .new, []⟩

/-- The heap as object `o` sees it at the beginning of a call, with no header touched yet. -/
def HeapState.object (s : HeapState) (o : ℕ) : ObjectHeap :=
  ⟨{ s.gs with mem := { s.gs.mem with touched := [] } }, s.objects o⟩

/-- The heap after a call of object `o`; no more than `MaxMemorySize` is mapped. -/
def HeapState.after (s : HeapState) (o : ℕ) (h : ObjectHeap) (live : List (ℕ × ℕ)) :
    Option HeapState :=
  if h.gs.limit ≤ baseAddress + maxMemorySize then
    some ⟨h.gs, Function.update s.objects o h.freeLists, live⟩
  else none

/-- The words at `a` in the payload of `chunk` are overwritten; at `a = chunk` these are the words behind
the header. -/
def GlobalState.store (s : GlobalState) (chunk a : ℕ) (hdr : ChunkHeader) (prev next : ℕ) :
    GlobalState :=
  { s with mem := { s.mem with
      hdr := if a = chunk then s.mem.hdr else Function.update s.mem.hdr a hdr
      links := (s.mem.links.setPrev a prev).setNext a next } }

/-- The calls of object `o`, and its writes. -/
inductive HeapAction
  | alloc (o : ℕ) (threadId : BitVec 64) (size : ℕ)
  | dealloc (o ptr : ℕ)
  | realloc (o ptr size : ℕ)
  | releaseFreeBlocks (o : ℕ)
  | write (o ptr a : ℕ) (hdr : ChunkHeader) (prev next : ℕ)

/-- One step; `none` when it is not enabled or an assertion fails. -/
def heapStep (s : HeapState) : HeapAction → Option HeapState
  | .alloc o threadId size =>
    ((s.object o).alloc threadId size).bind fun (ptr, h) => s.after o h ((o, ptr) :: s.live)
  | .dealloc o ptr =>
    if (o, ptr) ∈ s.live then
      ((s.object o).dealloc ptr).bind fun h => s.after o h (s.live.erase (o, ptr))
    else none
  | .realloc o ptr size =>
    if (o, ptr) ∈ s.live then
      ((s.object o).realloc ptr size).bind fun (newPtr, h) =>
        -- a null pointer leaves the chunk to its owner
        s.after o h (if newPtr = 0 then s.live else (o, newPtr) :: s.live.erase (o, ptr))
    else none
  | .releaseFreeBlocks o =>
    (releaseLists (s.object o).gs (s.objects o)).bind fun (gs, fls) =>
      s.after o ⟨gs, fls⟩ s.live
  | .write o ptr a hdr prev next =>
    if (o, ptr) ∈ s.live ∧ ptr - 8 ≤ a ∧ a < ptr - 8 + s.gs.size (ptr - 8) then
      some { s with gs := s.gs.store (ptr - 8) a hdr prev next }
    else none

/-- The free list number `c` of object `o` with the memory. -/
def HeapState.listState (s : HeapState) (o c : ℕ) : ListState :=
  ⟨(s.object o).gs.mem, ((s.objects o)[c]?).getD (.new c)⟩

/-- The sizes fit into their fields, and no remainder gets a wrong flag `last`. -/
def soundCall (s : HeapState) : HeapAction → Bool
  | .alloc o threadId size =>
    let c := getOffset threadId (s.objects o).length
    decide (size ≤ maxMemorySize ∧ chunkSizeFor size < sizeLimit) &&
      (decide (blockSize < chunkSizeFor size) ||
        (s.listState o c).splitFlagRight (chunkSizeFor size))
  | .realloc o ptr size =>
    let c := (s.gs.mem.hdr (ptr - 8)).freeListId
    decide (size ≤ maxMemorySize) &&
      (decide (chunkSizeFor size ≤ s.gs.size (ptr - 8)) ||
        (s.listState o c).growsInPlace (ptr - 8) (chunkSizeFor size) ||
        ((s.listState o c).lookAhead (ptr - 8)).splitFlagRight (chunkSizeFor size))
  | _ => true

/-! ## The invariant -/

/-- The free lists by object and core. -/
def listsOf (objects : ℕ → List FreeList) (o c : ℕ) : FreeList := ((objects o)[c]?).getD (.new c)

/-- The heap is in order, the bitmap is exact, and the live pointers are those to the chunks in use. -/
structure HeapInv (cores : ℕ) (s : HeapState) (layout : ℕ → List Chunk) (jumbos : List (ℕ × Chunk)) :
    Prop where
  lengths : ∀ o, (s.objects o).length = cores
  shape : HeapShape cores s.gs (listsOf s.objects) layout jumbos
  exact : ExactFor s.gs.mem.bitmap (InHeap (listsOf s.objects) layout jumbos)
  live : ∀ o ptr, (o, ptr) ∈ s.live ↔
    ∃ k, UsedBy (listsOf s.objects) layout jumbos o k ∧ ptr = k.addr + 8
  nodup : s.live.Nodup
  limit : s.gs.limit ≤ baseAddress + maxMemorySize

/-- The live pointers once object `o` has given up `old` and got `new`. -/
def liveAfter (live : List (ℕ × ℕ)) (o : ℕ) (old new : Option Chunk) : List (ℕ × ℕ) :=
  new.toList.map (fun n => (o, n.addr + 8)) ++
    old.elim live fun k => live.erase (o, k.addr + 8)

theorem mem_listsOf {objects : ℕ → List FreeList} {o : ℕ} {fl : FreeList} (hfl : fl ∈ objects o) :
    ∃ c, listsOf objects o c = fl := by
  obtain ⟨c, hc, rfl⟩ := List.getElem_of_mem hfl
  exact ⟨c, by simp [listsOf, hc]⟩

theorem listsOf_update {objects : ℕ → List FreeList} {o c : ℕ} {fl : FreeList}
    (hc : c < (objects o).length) :
    listsOf (Function.update objects o ((objects o).set c fl)) = setList (listsOf objects) o c fl := by
  funext o' c'
  by_cases ho : o' = o
  · subst ho
    by_cases hcc : c' = c
    · subst hcc
      simp [listsOf, hc]
    · rw [setList_of_ne fun heq => hcc (Prod.mk.inj heq).2]
      simp [listsOf, List.getElem?_set_ne (Ne.symm hcc)]
  · rw [setList_of_ne fun heq => ho (Prod.mk.inj heq).1]
    simp [listsOf, ho]

namespace HeapInv

variable {cores : ℕ} {s s' : HeapState} {layout layout' : ℕ → List Chunk}
  {jumbos jumbos' : List (ℕ × Chunk)} {o : ℕ} {old new : Option Chunk}

/-- After a call the pointers of an object are those to the chunks it had, without the one given
up and with the one it got. -/
theorem mem_liveAfter (h : HeapInv cores s layout jumbos)
    (hold : ∀ k, old = some k → UsedBy (listsOf s.objects) layout jumbos o k) (o' ptr : ℕ) :
    (o', ptr) ∈ liveAfter s.live o old new ↔ (∃ n, new = some n ∧ o' = o ∧ ptr = n.addr + 8) ∨
      ∃ k, (UsedBy (listsOf s.objects) layout jumbos o' k ∧ some k ≠ old) ∧ ptr = k.addr + 8 := by
  rw [liveAfter, List.mem_append]
  refine or_congr ?_ ?_
  · simp only [List.mem_map, Option.mem_toList, Prod.mk.injEq]
    exact exists_congr fun n => and_congr Iff.rfl (and_congr eq_comm eq_comm)
  · cases old with
    | none => simp [h.live]
    | some k =>
      rw [Option.elim_some, h.nodup.mem_erase_iff, h.live]
      constructor
      · rintro ⟨hne, k', hk', rfl⟩
        refine ⟨k', ⟨hk', fun heq => hne ?_⟩, rfl⟩
        cases heq
        rw [(h.shape.used_eq hk' (hold k rfl) rfl).1]
      · rintro ⟨k', ⟨hk', hne⟩, rfl⟩
        refine ⟨fun heq => hne (congrArg some ?_), k', hk', rfl⟩
        obtain ⟨-, haddr⟩ := Prod.mk.inj heq
        exact (h.shape.used_eq hk' (hold k rfl) (by omega)).2

/-- **A step of one object.** -/
theorem of_step (h : HeapInv cores s layout jumbos) {gs' : GlobalState} {objects' : ℕ → List FreeList}
    (hold : ∀ k, old = some k → UsedBy (listsOf s.objects) layout jumbos o k)
    (hlengths : ∀ o, (objects' o).length = cores)
    (hstep : HeapStep cores s.gs (listsOf s.objects) layout jumbos o old new gs' (listsOf objects')
      layout' jumbos')
    (hlimit : gs'.limit ≤ baseAddress + maxMemorySize) :
    HeapInv cores ⟨gs', objects', liveAfter s.live o old new⟩ layout' jumbos' where
  lengths := hlengths
  shape := hstep.shape
  exact := hstep.exact hlimit h.exact
  live o' ptr := by
    rw [h.mem_liveAfter hold]
    simp only [hstep.used, or_and_right, exists_or]
    rw [or_comm]
    refine or_congr_right (exists_congr fun n => ?_)
    rw [eq_comm (b := new)]
    tauto
  nodup := by
    have hrest : (old.elim s.live fun k => s.live.erase (o, k.addr + 8)).Nodup := by
      cases old with
      | none => exact h.nodup
      | some k => exact h.nodup.erase _
    cases new with
    | none => exact hrest
    | some n =>
      refine List.nodup_cons.mpr ⟨fun hmem => ?_, hrest⟩
      -- a pointer that is live already would be one to a chunk in use, and the new chunk is not
      have hmem' : (o, n.addr + 8) ∈ liveAfter s.live o old none := hmem
      rcases (h.mem_liveAfter hold _ _).mp hmem' with ⟨n', heq, -⟩ | ⟨k, ⟨hk, hne⟩, heq⟩
      · cases heq
      · exact hstep.fresh n rfl o k hk hne (by omega)
  limit := hlimit

/-! ## The calls -/

/-- A call of object `o` has led to `s'`. -/
structure CallStep (cores : ℕ) (s : HeapState) (layout : ℕ → List Chunk) (jumbos : List (ℕ × Chunk))
    (o : ℕ) (old new : Option Chunk) (s' : HeapState) (layout' : ℕ → List Chunk)
    (jumbos' : List (ℕ × Chunk)) : Prop where
  old_used : ∀ k, old = some k → UsedBy (listsOf s.objects) layout jumbos o k
  lengths : ∀ o, (s'.objects o).length = cores
  step : HeapStep cores s.gs (listsOf s.objects) layout jumbos o old new s'.gs (listsOf s'.objects)
    layout' jumbos'
  limit : s'.gs.limit ≤ baseAddress + maxMemorySize
  live_eq : s'.live = liveAfter s.live o old new

/-- **A call keeps the invariant.** -/
theorem of_call (h : HeapInv cores s layout jumbos)
    (hcall : CallStep cores s layout jumbos o old new s' layout' jumbos') :
    HeapInv cores s' layout' jumbos' := by
  have hinv := h.of_step hcall.old_used hcall.lengths hcall.step hcall.limit
  rw [← hcall.live_eq] at hinv
  exact hinv

/-- A step on the heap as the object sees it. -/
theorem callStep (h : HeapInv cores s layout jumbos) {gs' : GlobalState} {lists : List FreeList}
    {live : List (ℕ × ℕ)}
    (hold : ∀ k, old = some k → UsedBy (listsOf s.objects) layout jumbos o k)
    (hlength : lists.length = cores)
    (hstep : HeapStep cores (s.object o).gs (listsOf s.objects) layout jumbos o old new gs'
      (listsOf (Function.update s.objects o lists)) layout' jumbos')
    (hlive : live = liveAfter s.live o old new) (heq : s.after o ⟨gs', lists⟩ live = some s') :
    CallStep cores s layout jumbos o old new s' layout' jumbos' := by
  obtain ⟨hlimit, heq⟩ := Option.ite_none_right_eq_some.mp heq
  cases heq
  refine ⟨hold, fun o' => ?_, hstep.of_mem rfl rfl rfl, hlimit, hlive⟩
  by_cases ho : o' = o
  · subst ho
    simpa using hlength
  · simp [ho, h.lengths]

/-- The step changes the free list of core `c`. -/
theorem callStep_set (h : HeapInv cores s layout jumbos) {gs' : GlobalState} {fl : FreeList} {c : ℕ}
    {live : List (ℕ × ℕ)} (hc : c < cores)
    (hold : ∀ k, old = some k → UsedBy (listsOf s.objects) layout jumbos o k)
    (hstep : HeapStep cores (s.object o).gs (listsOf s.objects) layout jumbos o old new gs'
      (setList (listsOf s.objects) o c fl) layout' jumbos')
    (hlive : live = liveAfter s.live o old new)
    (heq : s.after o ⟨gs', (s.objects o).set c fl⟩ live = some s') :
    CallStep cores s layout jumbos o old new s' layout' jumbos' := by
  have hlen := h.lengths o
  rw [← listsOf_update (hc.trans_eq hlen.symm)] at hstep
  exact h.callStep hold (by rw [List.length_set, hlen]) hstep hlive heq

/-- The step changes no free list. -/
theorem callStep_same (h : HeapInv cores s layout jumbos) {gs' : GlobalState} {live : List (ℕ × ℕ)}
    (hold : ∀ k, old = some k → UsedBy (listsOf s.objects) layout jumbos o k)
    (hstep : HeapStep cores (s.object o).gs (listsOf s.objects) layout jumbos o old new gs'
      (listsOf s.objects) layout' jumbos')
    (hlive : live = liveAfter s.live o old new)
    (heq : s.after o ⟨gs', s.objects o⟩ live = some s') :
    CallStep cores s layout jumbos o old new s' layout' jumbos' := by
  refine h.callStep hold (h.lengths o) ?_ hlive heq
  rwa [update_eq_self]

/-- The heap as an object sees it at the beginning of a call is in order. -/
theorem shape_object (h : HeapInv cores s layout jumbos) (o : ℕ) :
    HeapShape cores (s.object o).gs (listsOf s.objects) layout jumbos :=
  h.shape.congr_mem rfl rfl

theorem touched_object (s : HeapState) (o c : ℕ) :
    TouchedOwned ⟨(s.object o).gs.mem, listsOf s.objects o c⟩ := by
  intro a ha
  cases ha

/-- The free list of a core. -/
theorem getElem?_objects (h : HeapInv cores s layout jumbos) {c : ℕ} (hc : c < cores) :
    (s.objects o)[c]? = some (listsOf s.objects o c) := by
  rw [← h.lengths o] at hc
  simp [listsOf, hc]

/-- Chunks of up to a block. -/
theorem chunkSize_chunkSizeFor {size : ℕ} (hmax : size ≤ maxMemorySize)
    (hle : chunkSizeFor size ≤ blockSize) : ChunkSize (chunkSizeFor size) := by
  refine ⟨(Nat.zero_lt_of_lt (chunkSizeFor_bounds hmax).1), ?_, hle⟩
  have hmod : (size + 8) % 2 ^ 64 = size + 8 := by
    simp only [maxMemorySize] at hmax
    omega
  rw [chunkSizeFor, hmod]
  split
  · simp only [alignment, maxMemorySize] at *
    omega
  · rename_i halign
    exact not_not.mp halign

/-- **`alloc` returns a new chunk.** -/
theorem alloc_call (h : HeapInv cores s layout jumbos) (hcores : 0 < cores) {threadId : BitVec 64}
    {size : ℕ} (heq : heapStep s (.alloc o threadId size) = some s')
    (hsound : soundCall s (.alloc o threadId size) = true) :
    ∃ n layout' jumbos', CallStep cores s layout jumbos o none (some n) s' layout' jumbos' ∧
      n.size = chunkSizeFor size := by
  obtain ⟨⟨ptr, oh⟩, halloc, heq⟩ := Option.bind_eq_some_iff.mp heq
  have hlen := h.lengths o
  have hc : getOffset threadId (s.objects o).length < cores := by
    rw [hlen]
    exact Nat.mod_lt _ hcores
  simp only [soundCall, Bool.and_eq_true, decide_eq_true_eq, Bool.or_eq_true] at hsound
  obtain ⟨⟨hmax, hfield⟩, hflags⟩ := hsound
  obtain ⟨fl, hfl, halloc⟩ := Option.bind_eq_some_iff.mp halloc
  obtain rfl : listsOf s.objects o (getOffset threadId (s.objects o).length) = fl :=
    Option.some.inj ((h.getElem?_objects hc).symm.trans hfl)
  rcases Nat.lt_or_ge blockSize (chunkSizeFor size) with hlarge | hle
  · -- a region of the global allocator
    rw [if_neg (by omega)] at halloc
    obtain ⟨⟨chunk, gs₁⟩, hbig, halloc⟩ := Option.bind_eq_some_iff.mp halloc
    obtain ⟨mem, hmem, halloc⟩ := Option.bind_eq_some_iff.mp halloc
    cases halloc
    rw [h.shape.myId] at hbig
    have hstep := (h.shape_object o).bigAlloc_step (o := o) hc hlarge hfield hbig hmem
    exact ⟨⟨chunk, chunkSizeFor size, true⟩, layout, _, h.callStep_same (by simp) hstep rfl heq, rfl⟩
  · rw [if_pos hle] at halloc
    obtain ⟨⟨chunk, ga, ls⟩, hlist, halloc⟩ := Option.map_eq_some_iff.mp halloc
    cases halloc
    obtain ⟨layout', hstep⟩ := (h.shape_object o).alloc_step hc (chunkSize_chunkSizeFor hmax hle)
      (touched_object s o _) (hflags.resolve_left (by omega)) hlist
    exact ⟨⟨chunk, chunkSizeFor size, true⟩, layout', jumbos, h.callStep_set hc (by simp) hstep rfl heq,
      rfl⟩

/-- **`dealloc` gives the chunk back.** -/
theorem dealloc_call (h : HeapInv cores s layout jumbos) {ptr : ℕ}
    (heq : heapStep s (.dealloc o ptr) = some s') :
    ∃ k layout' jumbos', ptr = k.addr + 8 ∧
      CallStep cores s layout jumbos o (some k) none s' layout' jumbos' := by
  obtain ⟨hlive, heq⟩ := Option.ite_none_right_eq_some.mp heq
  obtain ⟨k, hk, rfl⟩ := (h.live o ptr).mp hlive
  obtain ⟨oh, hdealloc, heq⟩ := Option.bind_eq_some_iff.mp heq
  have hold : ∀ k', some k = some k' → UsedBy (listsOf s.objects) layout jumbos o k' := by
    rintro _ ⟨⟩
    exact hk
  rw [ObjectHeap.dealloc, if_neg (by omega)] at hdealloc
  simp only [Nat.add_sub_cancel] at hdealloc
  obtain ⟨fl, hfl, hdealloc⟩ := Option.bind_eq_some_iff.mp hdealloc
  have hsize : (s.object o).gs.size k.addr = k.size := h.shape.size_eq hk
  rw [hsize] at hdealloc
  rcases hk with ⟨c, hk⟩ | hk
  · have hid : ((s.object o).gs.mem.hdr k.addr).freeListId = c := h.shape.ids o c k hk
    have hc := h.shape.core_lt hk
    rw [hid] at hfl hdealloc
    obtain rfl : listsOf s.objects o c = fl := Option.some.inj ((h.getElem?_objects hc).symm.trans hfl)
    rw [if_pos (h.shape.size_le hk)] at hdealloc
    obtain ⟨ls, hls, hdealloc⟩ := Option.map_eq_some_iff.mp hdealloc
    cases hdealloc
    obtain ⟨layout', hstep⟩ := (h.shape_object o).dealloc_step hc (touched_object s o c) hk hls
    exact ⟨k, layout', jumbos, rfl, h.callStep_set hc hold hstep rfl heq⟩
  · rw [if_neg (Nat.not_le.mpr (h.shape.jumbo _ hk).large)] at hdealloc
    obtain ⟨gs', hbig, hdealloc⟩ := Option.map_eq_some_iff.mp hdealloc
    cases hdealloc
    exact ⟨k, layout, _, rfl, h.callStep_same hold ((h.shape_object o).bigDealloc_step hk hbig) rfl heq⟩

/-- **`realloc` returns a null pointer and does nothing, or a chunk with the old payload.** -/
theorem realloc_call (h : HeapInv cores s layout jumbos) {ptr size : ℕ}
    (heq : heapStep s (.realloc o ptr size) = some s')
    (hsound : soundCall s (.realloc o ptr size) = true) :
    (CallStep cores s layout jumbos o none none s' layout jumbos ∧ blockSize < chunkSizeFor size) ∨
      ∃ k new layout' jumbos', ptr = k.addr + 8 ∧
        CallStep cores s layout jumbos o (some k) (some new) s' layout' jumbos' ∧
        chunkSizeFor size ≤ new.size ∧
        ∀ fl, SamePayload ⟨s.gs.mem, fl⟩ k.addr ⟨s'.gs.mem, fl⟩ new.addr k.size := by
  obtain ⟨hlive, heq⟩ := Option.ite_none_right_eq_some.mp heq
  obtain ⟨k, hk, rfl⟩ := (h.live o ptr).mp hlive
  obtain ⟨⟨newPtr, oh⟩, hrealloc, heq⟩ := Option.bind_eq_some_iff.mp heq
  have hold : ∀ k', some k = some k' → UsedBy (listsOf s.objects) layout jumbos o k' := by
    rintro _ ⟨⟩
    exact hk
  rw [ObjectHeap.realloc, if_neg (by omega)] at hrealloc
  simp only [Nat.add_sub_cancel] at hrealloc
  rcases Nat.lt_or_ge blockSize (chunkSizeFor size) with hlarge | hle
  · -- the request is for more than a block
    rw [if_pos hlarge] at hrealloc
    cases hrealloc
    exact .inl ⟨h.callStep_same (by simp) ((h.shape_object o).same_step rfl rfl rfl) rfl heq, hlarge⟩
  right
  rw [if_neg (by omega)] at hrealloc
  obtain ⟨fl, hfl, hrealloc⟩ := Option.bind_eq_some_iff.mp hrealloc
  obtain ⟨⟨n, ga, ls⟩, hls, hrealloc⟩ := Option.map_eq_some_iff.mp hrealloc
  cases hrealloc
  dsimp only at heq
  rw [if_neg (by omega)] at heq
  have hmem : s'.gs.mem = ls.mem := by
    obtain ⟨-, heq⟩ := Option.ite_none_right_eq_some.mp heq
    cases heq
    rfl
  rw [hmem]
  have hsize : s.gs.size k.addr = k.size := h.shape.size_eq hk
  simp only [soundCall, Nat.add_sub_cancel, Bool.and_eq_true, Bool.or_eq_true, decide_eq_true_eq, hsize,
    or_assoc] at hsound
  rcases hk with ⟨c, hk⟩ | hk
  · have hid : (s.gs.mem.hdr k.addr).freeListId = c := h.shape.ids o c k hk
    have hid' : ((s.object o).gs.mem.hdr k.addr).freeListId = c := hid
    have hc := h.shape.core_lt hk
    rw [hid'] at hfl heq
    obtain rfl : listsOf s.objects o c = fl := Option.some.inj ((h.getElem?_objects hc).symm.trans hfl)
    rw [hid] at hsound
    obtain ⟨layout', new, hstep, rfl, hnew, hpayload⟩ := (h.shape_object o).realloc_step hc
      (touched_object s o c) hk (chunkSize_chunkSizeFor hsound.1 hle) hsound.2 hls
    exact ⟨k, new, layout', jumbos, rfl, h.callStep_set hc hold hstep rfl heq, hnew, fun _ => hpayload⟩
  · -- a chunk of more than a block is large enough
    have hlarge : blockSize < k.size := (h.shape.jumbo _ hk).large
    have hc : ((s.object o).gs.mem.hdr k.addr).freeListId < cores := (h.shape.jumbo _ hk).id_lt
    obtain rfl : listsOf s.objects o _ = fl := Option.some.inj ((h.getElem?_objects hc).symm.trans hfl)
    rw [ListState.realloc, if_pos (by
      rw [ListState.hdr_touch]
      exact hle.trans (hlarge.le.trans_eq hsize.symm))] at hls
    cases hls
    refine ⟨k, k, layout, jumbos, rfl, h.callStep_set hc hold ?_ rfl heq, hle.trans hlarge.le, fun _ =>
      (keepsWords_of_same fun x _ _ => .refl _ _).samePayload⟩
    dsimp only [ListState.touch]
    rw [setList_eq_self]
    exact (h.shape_object o).keep_step (.inr hk) rfl rfl rfl

/-- `ObjectAlloc::releaseFreeBlocks` for the free lists `rest`, with those of the lower cores behind
it. -/
theorem releaseLists_spec {objects : ℕ → List FreeList} {o : ℕ} {rest : List FreeList} :
    ∀ {gs : GlobalState} {before : List FreeList}, (before ++ rest).length = cores →
      HeapShape cores gs (listsOf (Function.update objects o (before ++ rest))) layout jumbos →
      ∃ gs' fls, releaseLists gs rest = some (gs', fls) ∧
        fls.map FreeList.blocks = rest.map (fun fl => fl.blocks.filter (holdsChunk layout)) ∧
        gs'.limit = gs.limit ∧
        HeapStep cores gs (listsOf (Function.update objects o (before ++ rest))) layout jumbos o none none
          gs' (listsOf (Function.update objects o (before ++ fls))) layout jumbos ∧
        GivesBack layout (rest.flatMap FreeList.blocks) gs gs' := by
  induction rest with
  | nil =>
    intro gs before hlen h
    exact ⟨gs, [], rfl, rfl, rfl, h.same_step rfl rfl rfl, fun _ _ _ hfree => hfree⟩
  | cons fl rest ih =>
    intro gs before hlen h
    have hcore : before.length < cores := by
      rw [← hlen, List.length_append, List.length_cons]
      omega
    have hfl : listsOf (Function.update objects o (before ++ fl :: rest)) o before.length = fl := by
      simp [listsOf]
    obtain ⟨gs₁, fl₁, hrelease, hblocks, hlimit, hstep, hfree⟩ :=
      releaseFreeBlocks_spec (o := o) h hcore
    rw [hfl] at hrelease hblocks hfree
    -- the other free lists are as they were
    have hset : setList (listsOf (Function.update objects o (before ++ fl :: rest))) o before.length fl₁ =
        listsOf (Function.update objects o (before ++ [fl₁] ++ rest)) := by
      rw [← listsOf_update (by simp), update_self, update_idem]
      simp
    rw [hset] at hstep
    obtain ⟨gs', fls, hrest, hblocks', hlimit', hstep', hfree'⟩ := ih (by simpa using hlen) hstep.shape
    refine ⟨gs', fl₁ :: fls, ?_, by simp [hblocks, hblocks'], hlimit'.trans hlimit, ?_,
      fun S hshort hwithin hgs => ?_⟩
    · simp only [releaseLists, hrelease, hrest, Option.bind_eq_bind, Option.bind_some]
      rfl
    · have htrans := hstep.trans_same hstep' hlimit'.ge
      rwa [← List.append_cons] at htrans
    · exact hfree' S hshort (fun b hb => hwithin b (List.mem_append_right _ hb))
        (hfree S hshort (fun b hb => hwithin b (List.mem_append_left _ hb)) hgs)

theorem freeByte_object (h : HeapInv cores s layout jumbos) {x : ℕ} :
    (s.object o).gs.FreeByte x ↔ s.gs.FreeByte x := by
  obtain ⟨live, ps, chain, hreg, -⟩ := h.shape.regions
  have hreg' : Regions (s.object o).gs live ps chain := hreg.congr fun a _ => ⟨rfl, rfl, rfl⟩
  rw [hreg'.nodesOk.freeByte_iff, hreg.nodesOk.freeByte_iff]
  rfl

/-- **`releaseFreeBlocks` leaves no block without a chunk in use.** The blocks of the object that
are still there are those that hold one. -/
theorem release_call (h : HeapInv cores s layout jumbos) (o : ℕ) :
    ∃ s', heapStep s (.releaseFreeBlocks o) = some s' ∧
      CallStep cores s layout jumbos o none none s' layout jumbos ∧ s'.gs.limit = s.gs.limit ∧
      (∀ o' ≠ o, s'.objects o' = s.objects o') ∧
      (s'.objects o).map FreeList.blocks =
        (s.objects o).map (fun fl => fl.blocks.filter (holdsChunk layout)) ∧
      GivesBack layout ((s.objects o).flatMap FreeList.blocks) s.gs s'.gs := by
  have hself : Function.update s.objects o ([] ++ s.objects o) = s.objects := by
    rw [List.nil_append, update_eq_self]
  obtain ⟨gs', fls, hlists, hblocks, hlimit, hstep, hfree⟩ :=
    releaseLists_spec (h.lengths o) (hself.symm ▸ h.shape_object o)
  rw [hself, List.nil_append] at hstep
  have hlen : fls.length = cores := by
    have hlen := congrArg List.length hblocks
    simpa only [List.length_map, h.lengths] using hlen
  have hafter : s.after o ⟨gs', fls⟩ s.live = some ⟨gs', Function.update s.objects o fls, s.live⟩ :=
    if_pos (hlimit.trans_le h.limit)
  refine ⟨_, ?_, h.callStep (by simp) hlen hstep rfl hafter, hlimit,
    fun o' ho => update_of_ne ho _ _, by simpa using hblocks,
    fun S hshort hwithin hgs => ?_⟩
  · rw [heapStep, hlists, Option.bind_some]
    exact hafter
  · exact hfree S hshort hwithin ⟨hgs.truncated, fun x hx => hgs.free x (h.freeByte_object.mp hx)⟩

/-- **A write of the owner.** -/
theorem write_step (h : HeapInv cores s layout jumbos) {ptr a prev next : ℕ} {hdr : ChunkHeader}
    (heq : heapStep s (.write o ptr a hdr prev next) = some s') :
    ∃ k, UsedBy (listsOf s.objects) layout jumbos o k ∧ ptr = k.addr + 8 ∧
      WritesInto s.gs.mem s'.gs.mem k ∧ HeapInv cores s' layout jumbos ∧ s'.live = s.live := by
  obtain ⟨⟨hlive, hlo, hhi⟩, heq⟩ := Option.ite_none_right_eq_some.mp heq
  obtain ⟨k, hk, rfl⟩ := (h.live o ptr).mp hlive
  cases heq
  rw [Nat.add_sub_cancel] at hlo hhi ⊢
  rw [h.shape.size_eq hk] at hhi
  have hinto : WritesInto s.gs.mem (s.gs.store k.addr a hdr prev next).mem k := by
    refine ⟨fun x hx => ?_, fun x hx => ⟨update_of_ne (by omega) _ _,
      update_of_ne (by omega) _ _⟩⟩
    show (if a = k.addr then s.gs.mem.hdr else Function.update s.gs.mem.hdr a hdr) x = _
    split
    · rfl
    · exact update_of_ne (by omega) _ _
  exact ⟨k, hk, rfl, hinto, ⟨h.lengths, h.shape.writesInto hk hinto, h.exact, h.live, h.nodup, h.limit⟩,
    rfl⟩

/-! ## Runs -/

/-- An empty heap is in order. -/
theorem empty {mem : HeapMemory} (hmem : mem.bitmap = fun _ => 0) (cores : ℕ) :
    HeapInv cores (.new mem cores) (fun _ => []) [] := by
  have hlists : ∀ o c, listsOf (HeapState.new mem cores).objects o c = .new c := by
    intro o c
    show (((List.range cores).map FreeList.new)[c]?).getD (.new c) = .new c
    rw [List.getElem?_map]
    by_cases hc : c < cores
    · rw [List.getElem?_range hc]
      rfl
    · rw [List.getElem?_eq_none (by simpa using hc)]
      rfl
  have hnone : ∀ o k, ¬ UsedBy (listsOf (HeapState.new mem cores).objects) (fun _ => []) [] o k := by
    rintro o k (⟨c, ⟨b, hb, -⟩, -⟩ | hk)
    · rw [hlists] at hb
      cases hb
    · cases hk
  refine ⟨fun o => by simp [HeapState.new], ⟨fun o c => ?_, fun {o c o' c' b} hb => ?_, fun o c => ?_,
    fun o c _ => ?_, ?_, by simp, by simp, List.nodup_nil, fun o c k hk => ?_⟩, fun page => ?_,
    fun o ptr => ?_, List.nodup_nil, ?_⟩
  · rw [hlists]
    exact ⟨_, (wellFormed_new _ c).toListInv⟩
  · rw [hlists] at hb
    cases hb
  · rw [hlists]
    rfl
  · rw [hlists]
    rfl
  · obtain ⟨ps, chain, hreg⟩ := Regions.new mem
    refine ⟨[], ps, chain, hreg, fun m => ⟨nofun, ?_⟩⟩
    rintro (⟨o, c, b, hb, -⟩ | ⟨x, hx, -⟩)
    · rw [hlists] at hb
      cases hb
    · cases hx
  · exact absurd (.inl ⟨c, hk⟩) (hnone o k)
  · have hbitmap : (HeapState.new mem cores).gs.mem.bitmap = fun _ => 0 := hmem
    rw [hbitmap]
    constructor
    · simp [pageSet]
    · rintro ⟨k, ⟨o, hk⟩, -⟩
      exact absurd hk (hnone o k)
  · constructor
    · intro hmem
      cases hmem
    · rintro ⟨k, hk, -⟩
      exact absurd hk (hnone o k)
  · show baseAddress + minPoolSize ≤ baseAddress + maxMemorySize
    decide

/-- **One call of any object keeps the invariant**, whichever call it is. -/
theorem step (h : HeapInv cores s layout jumbos) (hcores : 0 < cores) {a : HeapAction}
    (heq : heapStep s a = some s') (hsound : soundCall s a = true) :
    ∃ layout' jumbos', HeapInv cores s' layout' jumbos' := by
  cases a with
  | alloc o threadId size =>
    obtain ⟨n, layout', jumbos', hcall, -⟩ := h.alloc_call hcores heq hsound
    exact ⟨layout', jumbos', h.of_call hcall⟩
  | dealloc o ptr =>
    obtain ⟨k, layout', jumbos', -, hcall⟩ := h.dealloc_call heq
    exact ⟨layout', jumbos', h.of_call hcall⟩
  | realloc o ptr size =>
    rcases h.realloc_call heq hsound with ⟨hcall, -⟩ | ⟨k, new, layout', jumbos', -, hcall, -⟩
    · exact ⟨layout, jumbos, h.of_call hcall⟩
    · exact ⟨layout', jumbos', h.of_call hcall⟩
  | releaseFreeBlocks o =>
    obtain ⟨t, hrelease, hcall, -⟩ := h.release_call o
    cases heq.symm.trans hrelease
    exact ⟨layout, jumbos, h.of_call hcall⟩
  | write o ptr a hdr prev next =>
    obtain ⟨-, -, -, -, hinv, -⟩ := h.write_step heq
    exact ⟨layout, jumbos, hinv⟩

end HeapInv

/-! ## What holds in every run -/

/-- The chunk of a pointer, with the size from its header. -/
def HeapState.chunk (s : HeapState) (ptr : ℕ) : Chunk := ⟨ptr - 8, s.gs.size (ptr - 8), true⟩

/-- The live chunks lie in the mapped memory, outside the free regions of the global allocator, and
have no byte in common. -/
structure HeapSafe (s : HeapState) : Prop where
  nodup : s.live.Nodup
  mapped : ∀ x ∈ s.live, baseAddress ≤ (s.chunk x.2).addr ∧
    (s.chunk x.2).addr + (s.chunk x.2).size ≤ s.gs.limit
  used : ∀ x ∈ s.live, (s.gs.mem.hdr (x.2 - 8)).used = true ∧ 8 < (s.chunk x.2).size
  notFree : ∀ x ∈ s.live, ∀ a, (s.chunk x.2).addr ≤ a → a < (s.chunk x.2).addr + (s.chunk x.2).size →
    ¬ s.gs.FreeByte a
  apart : ∀ x ∈ s.live, ∀ y ∈ s.live, x ≠ y →
    (s.chunk x.2).addr + (s.chunk x.2).size ≤ (s.chunk y.2).addr ∨
      (s.chunk y.2).addr + (s.chunk y.2).size ≤ (s.chunk x.2).addr

/-- Somebody else than the owner of the chunk, or the owner without using it. -/
def HeapAction.leaves (x : ℕ × ℕ) : HeapAction → Bool
  | .alloc _ _ _ => true
  | .dealloc o ptr => (o, ptr) ≠ x
  | .realloc o ptr _ => (o, ptr) ≠ x
  | .releaseFreeBlocks _ => true
  | .write o ptr _ _ _ _ => (o, ptr) ≠ x

namespace HeapInv

variable {cores : ℕ} {s s' : HeapState} {layout layout' : ℕ → List Chunk}
  {jumbos jumbos' : List (ℕ × Chunk)} {o : ℕ} {k : Chunk} {old new : Option Chunk}

theorem chunk_eq (h : HeapInv cores s layout jumbos) (hk : UsedBy (listsOf s.objects) layout jumbos o k) :
    s.chunk (k.addr + 8) = k := by
  obtain ⟨a, n, used⟩ := k
  obtain rfl : used = true := h.shape.used_true hk
  rw [HeapState.chunk, Nat.add_sub_cancel, h.shape.size_eq hk]

/-- The chunk in use of a live pointer. -/
theorem used_chunk (h : HeapInv cores s layout jumbos) {x : ℕ × ℕ} (hx : x ∈ s.live) :
    UsedBy (listsOf s.objects) layout jumbos x.1 (s.chunk x.2) ∧ x.2 = (s.chunk x.2).addr + 8 := by
  obtain ⟨o, ptr⟩ := x
  obtain ⟨k, hk, rfl⟩ := (h.live o ptr).mp hx
  rw [h.chunk_eq hk]
  exact ⟨hk, rfl⟩

/-- The invariant in terms of live pointers only: what the callers see. -/
theorem safe (h : HeapInv cores s layout jumbos) : HeapSafe s where
  nodup := h.nodup
  mapped x hx := (h.shape.used_bounds (h.used_chunk hx).1).2
  used x hx := h.shape.header_used (h.used_chunk hx).1
  notFree x hx a hlo hhi := h.shape.used_not_free (h.used_chunk hx).1 hlo hhi
  apart x hx y hy hne := by
    obtain ⟨hk, hxaddr⟩ := h.used_chunk hx
    obtain ⟨hk', hyaddr⟩ := h.used_chunk hy
    refine h.shape.used_apart hk hk' fun heq => hne (Prod.ext (Prod.mk.inj heq).1 ?_)
    rw [hxaddr, hyaddr, (Prod.mk.inj heq).2]

/-- The bitmap is exact in terms of live pointers. -/
theorem bitmap (h : HeapInv cores s layout jumbos) (page : ℕ) :
    pageSet s.gs.mem.bitmap page = true ↔ ∃ x ∈ s.live, (s.chunk x.2).Overlaps page := by
  rw [h.exact]
  constructor
  · rintro ⟨k, ⟨o, hk⟩, hpage⟩
    refine ⟨(o, k.addr + 8), (h.live o _).mpr ⟨k, hk, rfl⟩, ?_⟩
    rwa [h.chunk_eq hk]
  · rintro ⟨x, hx, hpage⟩
    exact ⟨_, ⟨x.1, (h.used_chunk hx).1⟩, hpage⟩

/-- A call keeps the chunks that it is not for. -/
theorem keeps_of_call (h : HeapInv cores s layout jumbos)
    (hcall : CallStep cores s layout jumbos o old new s' layout' jumbos') {x : ℕ × ℕ} (hx : x ∈ s.live)
    (hne : ∀ k, old = some k → x ≠ (o, k.addr + 8)) :
    x ∈ s'.live ∧ s'.chunk x.2 = s.chunk x.2 ∧ KeepsWords s.gs.mem s'.gs.mem (s.chunk x.2) := by
  obtain ⟨hk, haddr⟩ := h.used_chunk hx
  have hold : some (s.chunk x.2) ≠ old := fun heq => by
    have hk' := hcall.old_used _ heq.symm
    refine hne _ heq.symm (Prod.ext (h.shape.used_eq hk hk' rfl).1 haddr)
  have hk' := (hcall.step.used x.1 _).mpr (.inl ⟨hk, hold⟩)
  have h' := h.of_call hcall
  refine ⟨(h'.live x.1 x.2).mpr ⟨_, hk', haddr⟩, ?_, hcall.step.keeps _ _ hk hold⟩
  conv_lhs => rw [haddr]
  exact h'.chunk_eq hk'

/-- A step keeps the chunks that it is not for. -/
theorem step_keeps (h : HeapInv cores s layout jumbos) (hcores : 0 < cores) {a : HeapAction}
    (heq : heapStep s a = some s') (hsound : soundCall s a = true) {x : ℕ × ℕ} (hx : x ∈ s.live)
    (hleaves : a.leaves x = true) :
    x ∈ s'.live ∧ s'.chunk x.2 = s.chunk x.2 ∧ KeepsWords s.gs.mem s'.gs.mem (s.chunk x.2) := by
  cases a with
  | alloc o threadId size =>
    obtain ⟨n, layout', jumbos', hcall, -⟩ := h.alloc_call hcores heq hsound
    exact h.keeps_of_call hcall hx (by simp)
  | dealloc o ptr =>
    obtain ⟨k, layout', jumbos', rfl, hcall⟩ := h.dealloc_call heq
    refine h.keeps_of_call hcall hx fun k' hk' heq' => ?_
    cases hk'
    exact of_decide_eq_true hleaves heq'.symm
  | realloc o ptr size =>
    rcases h.realloc_call heq hsound with ⟨hcall, -⟩ | ⟨k, new, layout', jumbos', rfl, hcall, -⟩
    · exact h.keeps_of_call hcall hx (by simp)
    · refine h.keeps_of_call hcall hx fun k' hk' heq' => ?_
      cases hk'
      exact of_decide_eq_true hleaves heq'.symm
  | releaseFreeBlocks o =>
    obtain ⟨t, hrelease, hcall, -⟩ := h.release_call o
    cases heq.symm.trans hrelease
    exact h.keeps_of_call hcall hx (by simp)
  | write o ptr a hdr prev next =>
    obtain ⟨k, hk, rfl, hinto, h', hlive⟩ := h.write_step heq
    obtain ⟨hkx, haddr⟩ := h.used_chunk hx
    have hapart := h.shape.used_apart hk hkx fun heq' => by
      refine of_decide_eq_true hleaves (Prod.ext (Prod.mk.inj heq').1 ?_)
      rw [haddr, ← (Prod.mk.inj heq').2]
    have hpos := (h.shape.used_bounds hkx).1
    have hhdr : s'.gs.mem.hdr (s.chunk x.2).addr = s.gs.mem.hdr (s.chunk x.2).addr :=
      hinto.hdr_eq _ (by omega)
    refine ⟨hlive ▸ hx, ?_, hinto.keepsWords hapart⟩
    exact congrArg (fun n => (⟨x.2 - 8, n, true⟩ : Chunk)) (congrArg ChunkHeader.size hhdr)

end HeapInv

section Run

variable {mem : HeapMemory} {cores : ℕ} {acts : List HeapAction} {s : HeapState}

theorem heapInv_of_run (hcores : 0 < cores) (hmem : mem.bitmap = fun _ => 0)
    (hrun : run heapStep (.new mem cores) acts = some s)
    (hsound : Guarded heapStep (fun s a => soundCall s a = true) (.new mem cores) acts) :
    ∃ layout jumbos, HeapInv cores s layout jumbos :=
  hsound.invariant (I := fun s => ∃ layout jumbos, HeapInv cores s layout jumbos)
    (fun _ _ _ ⟨_, _, h⟩ hok hstep => h.step hcores hstep hok) ⟨_, _, .empty hmem cores⟩ hrun

/-- A small chunk of object 0, with something stored in it, and one of object 1 that is larger than a
block. -/
def twoOwners : List HeapAction :=
  [.alloc 0 5 100, .alloc 1 6 0x300000, .write 0 0x1000fe00008 0x1000fe00010 clearedHeader 3 4]

theorem guarded_twoOwners :
    Guarded heapStep (fun s a => soundCall s a = true) (.new .blank 2) twoOwners :=
  guarded_of_checkGuard (by decide +kernel)

theorem run_twoOwners : ∃ s, run heapStep (.new .blank 2) twoOwners = some s ∧
    s.live = [(1, 0x1000fa00008), (0, 0x1000fe00008)] := by
  have hany : (run heapStep (.new .blank 2) twoOwners).any
      (fun s => decide (s.live = [(1, 0x1000fa00008), (0, 0x1000fe00008)])) = true := by decide +kernel
  obtain ⟨s, hrun, hs⟩ := run_of_any hany
  exact ⟨s, hrun, of_decide_eq_true hs⟩

/-- **Live chunks are safe.** In every run they lie in the mapped memory, have no byte in common, and
no byte of them is on the free list of the global allocator. -/
theorem heap_safe (hcores : 0 < cores) (hmem : mem.bitmap = fun _ => 0)
    (hrun : run heapStep (.new mem cores) acts = some s)
    (hsound : Guarded heapStep (fun s a => soundCall s a = true) (.new mem cores) acts) :
    HeapSafe s := by
  obtain ⟨layout, jumbos, h⟩ := heapInv_of_run hcores hmem hrun hsound
  exact h.safe

theorem heap_safe_twoOwners : ∃ s, run heapStep (.new .blank 2) twoOwners = some s ∧
    s.live = [(1, 0x1000fa00008), (0, 0x1000fe00008)] ∧ HeapSafe s := by
  obtain ⟨s, hrun, hlive⟩ := run_twoOwners
  exact ⟨s, hrun, hlive, heap_safe (by decide) rfl hrun guarded_twoOwners⟩

/-- **The page bitmap is exact.** In every run the bit of a page is set if and only if a live chunk has a
byte on the page. -/
theorem heap_bitmap_exact (hcores : 0 < cores) (hmem : mem.bitmap = fun _ => 0)
    (hrun : run heapStep (.new mem cores) acts = some s)
    (hsound : Guarded heapStep (fun s a => soundCall s a = true) (.new mem cores) acts) (page : ℕ) :
    pageSet s.gs.mem.bitmap page = true ↔ ∃ x ∈ s.live, (s.chunk x.2).Overlaps page := by
  obtain ⟨layout, jumbos, h⟩ := heapInv_of_run hcores hmem hrun hsound
  exact h.bitmap page

/-- The bitmap of the run of two objects. -/
theorem heap_bitmap_exact_twoOwners : ∃ s, run heapStep (.new .blank 2) twoOwners = some s ∧
    s.live = [(1, 0x1000fa00008), (0, 0x1000fe00008)] ∧ ∀ page,
      (pageSet s.gs.mem.bitmap page = true ↔ ∃ x ∈ s.live, (s.chunk x.2).Overlaps page) := by
  obtain ⟨s, hrun, hlive⟩ := run_twoOwners
  exact ⟨s, hrun, hlive, heap_bitmap_exact (by decide) rfl hrun guarded_twoOwners⟩

/-- **What is stored in a live chunk stays there**, whatever the other objects and threads do, until the
owner writes, frees or reallocates it. -/
theorem heap_keeps_payload (hcores : 0 < cores) (hmem : mem.bitmap = fun _ => 0)
    (hrun : run heapStep (.new mem cores) acts = some s)
    (hsound : Guarded heapStep (fun s a => soundCall s a = true) (.new mem cores) acts)
    {more : List HeapAction} {s' : HeapState} (hrun' : run heapStep s more = some s')
    (hsound' : Guarded heapStep (fun s a => soundCall s a = true) s more) {x : ℕ × ℕ}
    (hx : x ∈ s.live) (hleaves : ∀ a ∈ more, a.leaves x = true) :
    x ∈ s'.live ∧ s'.chunk x.2 = s.chunk x.2 ∧ KeepsWords s.gs.mem s'.gs.mem (s.chunk x.2) := by
  have hinit := heapInv_of_run hcores hmem hrun hsound
  -- the invariant of the second part of the run, with the chunk as it was at its beginning
  have hall := (hsound'.and (guarded_of_forall fun a ha _ => hleaves a ha)).invariant
    (I := fun t => (∃ layout jumbos, HeapInv cores t layout jumbos) ∧ x ∈ t.live ∧
      t.chunk x.2 = s.chunk x.2 ∧ KeepsWords s.gs.mem t.gs.mem (s.chunk x.2))
    (fun t a t' ⟨⟨layout, jumbos, h⟩, hx, hchunk, hwords⟩ hok hstep => by
      obtain ⟨hx', hchunk', hwords'⟩ := h.step_keeps hcores hstep hok.1 hx hok.2
      rw [hchunk] at hchunk' hwords'
      exact ⟨h.step hcores hstep hok.1, hx', hchunk', hwords.trans hwords'⟩)
    ⟨hinit, hx, rfl, keepsWords_of_same fun a _ _ => .refl _ a⟩ hrun'
  exact hall.2

/-- Object 1 gets a small chunk and gives back the large one. -/
def otherCalls : List HeapAction := [.alloc 1 6 500, .dealloc 1 0x1000fa00008]

/-- Object 1 allocates and frees again while object 0 keeps its chunk. -/
theorem heap_keeps_payload_twoOwners : ∃ s s', run heapStep (.new .blank 2) twoOwners = some s ∧
    run heapStep s otherCalls = some s' ∧ (0, 0x1000fe00008) ∈ s'.live ∧
    KeepsWords s.gs.mem s'.gs.mem (s.chunk 0x1000fe00008) := by
  obtain ⟨s, hrun, hlive⟩ := run_twoOwners
  have hguard : Guarded heapStep (fun s a => soundCall s a = true) (.new .blank 2)
      (twoOwners ++ otherCalls) := guarded_of_checkGuard (by decide +kernel)
  have hany : (run heapStep (.new .blank 2) (twoOwners ++ otherCalls)).any (fun _ => true) = true := by
    decide +kernel
  obtain ⟨s', hrun', -⟩ := run_of_any hany
  rw [run_append, hrun] at hrun'
  obtain ⟨hmem, -, hwords⟩ := heap_keeps_payload (by decide) rfl hrun guarded_twoOwners hrun'
    ((guarded_append.mp hguard).2 s hrun) (x := (0, 0x1000fe00008)) (by simp [hlive]) (by decide)
  exact ⟨s, s', hrun, hrun', hmem, hwords⟩

/-- **`realloc` takes the payload along.** Unless the request is for more than a block, the object gets a
pointer to a chunk that has room for it and starts with the payload of the old chunk. -/
theorem heap_realloc_payload (hcores : 0 < cores) (hmem : mem.bitmap = fun _ => 0)
    (hrun : run heapStep (.new mem cores) acts = some s)
    (hsound : Guarded heapStep (fun s a => soundCall s a = true) (.new mem cores) acts)
    {o ptr size : ℕ} {s' : HeapState} (hstep : heapStep s (.realloc o ptr size) = some s')
    (hsound' : soundCall s (.realloc o ptr size) = true) (hsize : chunkSizeFor size ≤ blockSize) :
    ∃ newPtr, s'.live = (o, newPtr) :: s.live.erase (o, ptr) ∧ size + 8 ≤ (s'.chunk newPtr).size ∧
      ∀ x < (s.chunk ptr).size,
        (0 < x → s'.gs.mem.hdr (newPtr - 8 + x) = s.gs.mem.hdr (ptr - 8 + x)) ∧
        s'.gs.mem.links.prev (newPtr - 8 + x) = s.gs.mem.links.prev (ptr - 8 + x) ∧
        s'.gs.mem.links.next (newPtr - 8 + x) = s.gs.mem.links.next (ptr - 8 + x) := by
  obtain ⟨layout, jumbos, h⟩ := heapInv_of_run hcores hmem hrun hsound
  rcases h.realloc_call hstep hsound' with ⟨-, hlarge⟩ |
    ⟨k, new, layout', jumbos', rfl, hcall, hnew, hpayload⟩
  · omega
  · -- the new chunk is in use, so its size can be read off its header
    have hused := (hcall.step.used o new).mpr (.inr ⟨rfl, rfl⟩)
    have hchunk := (h.of_call hcall).chunk_eq hused
    have hmax : size ≤ maxMemorySize := by
      simp only [soundCall, Bool.and_eq_true, decide_eq_true_eq] at hsound'
      exact hsound'.1
    have hbounds := chunkSizeFor_bounds hmax
    refine ⟨new.addr + 8, hcall.live_eq, ?_, ?_⟩
    · rw [hchunk]
      omega
    · rw [h.chunk_eq (hcall.old_used k rfl), Nat.add_sub_cancel, Nat.add_sub_cancel]
      exact hpayload (.new 0)

/-- Object 0 asks for more room than its chunk has. -/
theorem heap_realloc_payload_twoOwners : ∃ s s' newPtr, run heapStep (.new .blank 2) twoOwners = some s ∧
    heapStep s (.realloc 0 0x1000fe00008 400) = some s' ∧ (0, newPtr) ∈ s'.live ∧
    408 ≤ (s'.chunk newPtr).size := by
  obtain ⟨s, hrun, -⟩ := run_twoOwners
  have hguard : Guarded heapStep (fun s a => soundCall s a = true) (.new .blank 2)
      (twoOwners ++ [.realloc 0 0x1000fe00008 400]) := guarded_of_checkGuard (by decide +kernel)
  have hany : (run heapStep (.new .blank 2) (twoOwners ++ [.realloc 0 0x1000fe00008 400])).any
      (fun _ => true) = true := by decide +kernel
  obtain ⟨s', hrun', -⟩ := run_of_any hany
  rw [run_append, hrun] at hrun'
  obtain ⟨t, hstep, ht⟩ := run_cons.mp hrun'
  cases ht
  obtain ⟨newPtr, hlive, hroom, -⟩ := heap_realloc_payload (by decide) rfl hrun guarded_twoOwners hstep
    ((guarded_append.mp hguard).2 s hrun).1 (by decide)
  exact ⟨s, s', newPtr, hrun, hstep, by simp [hlive], hroom⟩

/-- No live chunk begins in the block. -/
def HeapState.Vacant (s : HeapState) (b : ℕ) : Prop :=
  ∀ x ∈ s.live, (s.chunk x.2).addr < b ∨ b + blockSize ≤ (s.chunk x.2).addr

/-- The byte is free, or in a block of object `o` that holds no live chunk. -/
def HeapState.Releasable (s : HeapState) (o x : ℕ) : Prop :=
  s.gs.FreeByte x ∨ ∃ fl ∈ s.objects o, ∃ b ∈ fl.blocks, s.Vacant b ∧ b ≤ x ∧ x < b + blockSize

/-- The blocks without a live chunk are those that are one free chunk. -/
theorem HeapInv.vacant_iff {layout : ℕ → List Chunk} {jumbos : List (ℕ × Chunk)}
    (h : HeapInv cores s layout jumbos) {o c b : ℕ} (hb : b ∈ (listsOf s.objects o c).blocks) :
    s.Vacant b ↔ layout b = [⟨b, blockSize, false⟩] := by
  obtain ⟨chains, hinv⟩ := h.shape.list o c
  constructor
  · -- a chunk in use in the block would have a live pointer
    intro hvacant
    refine (hinv.blockOk b hb).eq_free fun k hk => ?_
    by_contra hused
    rw [Bool.not_eq_false] at hused
    have huse : UsedBy (listsOf s.objects) layout jumbos o k := .inl ⟨c, ⟨b, hb, hk⟩, hused⟩
    have hbounds := (hinv.blockOk b hb).bounds hk
    have hsizes := (hinv.blockOk b hb).sizes k hk
    have hout := hvacant _ ((h.live o _).mpr ⟨k, huse, rfl⟩)
    rw [h.chunk_eq huse] at hout
    omega
  · -- a live pointer into the block would be to a chunk that overlaps the free one
    rintro hlayout ⟨o', ptr⟩ hx
    obtain ⟨k, hk, rfl⟩ := (h.live o' ptr).mp hx
    have hchunk : IsChunk (listsOf s.objects o c).blocks layout ⟨b, blockSize, false⟩ :=
      ⟨b, hb, by simp [hlayout]⟩
    have hne : (⟨b, blockSize, false⟩ : Chunk) ≠ k := fun heq => by
      have hused := h.shape.used_true hk
      rw [← heq] at hused
      cases hused
    have hapart := h.shape.chunk_apart hk hchunk hne
    have hsize := h.shape.used_bounds hk
    rw [h.chunk_eq hk]
    dsimp only at hapart
    omega

/-- **`releaseFreeBlocks` always succeeds and gives back all it can.** It leaves the live chunks as
they are, and each block that the object still has holds one of its live chunks. If no size has been
truncated so far and the free bytes with those of the blocks that go back form no interval of 2^29
bytes, every byte of a block without a live chunk is on the free list of the global allocator
afterwards. -/
theorem heap_releaseFreeBlocks (hcores : 0 < cores) (hmem : mem.bitmap = fun _ => 0)
    (hrun : run heapStep (.new mem cores) acts = some s)
    (hsound : Guarded heapStep (fun s a => soundCall s a = true) (.new mem cores) acts) (o : ℕ) :
    ∃ s', heapStep s (.releaseFreeBlocks o) = some s' ∧ s'.live = s.live ∧
      (∀ x ∈ s.live, s'.chunk x.2 = s.chunk x.2 ∧ KeepsWords s.gs.mem s'.gs.mem (s.chunk x.2)) ∧
      (∀ fl ∈ s'.objects o, ∀ b ∈ fl.blocks, ∃ x ∈ s'.live, x.1 = o ∧ b ≤ (s'.chunk x.2).addr ∧
        (s'.chunk x.2).addr + (s'.chunk x.2).size ≤ b + blockSize) ∧
      (s.gs.ga.truncated = false → ShortRuns (s.Releasable o) →
        ∀ fl ∈ s.objects o, ∀ b ∈ fl.blocks, s.Vacant b →
          ∀ a, b ≤ a → a < b + blockSize → s'.gs.FreeByte a) := by
  obtain ⟨layout, jumbos, h⟩ := heapInv_of_run hcores hmem hrun hsound
  obtain ⟨s', hstep, hcall, hlimit, hothers, hblocks, hfree⟩ := h.release_call o
  have h' := h.of_call hcall
  -- what is left of the blocks of the object
  have hleft : ∀ c b, b ∈ (listsOf s'.objects o c).blocks →
      b ∈ (listsOf s.objects o c).blocks ∧ layout b ≠ [⟨b, blockSize, false⟩] := by
    intro c b hb
    have hmap : (listsOf s'.objects o c).blocks =
        (listsOf s.objects o c).blocks.filter (holdsChunk layout) := by
      have hget := congrArg (fun l : List (List ℕ) => l[c]?) hblocks
      simp only [List.getElem?_map] at hget
      simp only [listsOf]
      cases hs : (s.objects o)[c]? <;> cases hs' : (s'.objects o)[c]? <;>
        simp_all [FreeList.new]
    rw [hmap] at hb
    exact ⟨List.mem_of_mem_filter hb, bne_iff_ne.mp (List.mem_filter.mp hb).2⟩
  refine ⟨s', hstep, hcall.live_eq, fun x hx => (h.keeps_of_call hcall hx (by simp)).2,
    fun fl hfl b hb => ?_, fun htruncated hshort fl hfl b hb hvacant a hlo hhi => ?_⟩
  · obtain ⟨c, rfl⟩ := mem_listsOf hfl
    obtain ⟨chains, hinv⟩ := h'.shape.list o c
    -- the block is not one free chunk, so not all of its chunks are free
    obtain ⟨k, hk, hused⟩ : ∃ k ∈ layout b, k.used = true := by
      by_contra hnone
      refine (hleft c b hb).2 ((hinv.blockOk b hb).eq_free fun k hk => ?_)
      simpa using fun hused => hnone ⟨k, hk, hused⟩
    have huse : UsedBy (listsOf s'.objects) layout jumbos o k := .inl ⟨c, ⟨b, hb, hk⟩, hused⟩
    refine ⟨(o, k.addr + 8), (h'.live o _).mpr ⟨k, huse, rfl⟩, rfl, ?_⟩
    rw [h'.chunk_eq huse]
    exact (hinv.blockOk b hb).bounds hk
  · obtain ⟨c, rfl⟩ := mem_listsOf hfl
    have hlayout := (h.vacant_iff hb).mp hvacant
    have hwithin : BlocksWithin (s.Releasable o) layout ((s.objects o).flatMap FreeList.blocks) := by
      intro b' hb' hlayout' x hxlo hxhi
      obtain ⟨fl', hfl', hb'⟩ := List.mem_flatMap.mp hb'
      obtain ⟨c', rfl⟩ := mem_listsOf hfl'
      exact .inr ⟨_, hfl', b', hb', (h.vacant_iff hb').mpr hlayout', hxlo, hxhi⟩
    have htruncated' := (hfree _ hshort hwithin ⟨htruncated, fun x hx => .inl hx⟩).truncated
    obtain ⟨live, ps, chain, hreg, hlive⟩ := h.shape.regions
    obtain ⟨live', ps', chain', hreg', hlive'⟩ := h'.shape.regions
    have hb_live : (⟨b, blockSize⟩ : MemoryRegion) ∈ live := (hlive _).mpr (.inl ⟨o, c, b, hb, rfl⟩)
    have hbounds := hreg.live_bounds hb_live
    dsimp only at hbounds
    refine (hreg'.truncated_eq_false_iff.mp htruncated' a (by omega) (by omega)).resolve_right ?_
    -- a region in use was in use before, and the block is none of them
    rintro ⟨m, hm, hmlo, hmhi⟩
    have hregion := (hlive' m).mp hm
    have hm_live : m ∈ live ∧ m ≠ ⟨b, blockSize⟩ := by
      rcases hregion with ⟨o', c', b', hb', rfl⟩ | ⟨x, hx, rfl⟩
      · by_cases ho : o' = o
        · subst ho
          obtain ⟨hbefore, hholds⟩ := hleft c' b' hb'
          refine ⟨(hlive _).mpr (.inl ⟨o', c', b', hbefore, rfl⟩), fun heq => hholds ?_⟩
          obtain rfl : b' = b := congrArg MemoryRegion.ptr heq
          exact hlayout
        · have hbefore : b' ∈ (listsOf s.objects o' c').blocks := by
            rwa [listsOf, ← hothers o' ho]
          refine ⟨(hlive _).mpr (.inl ⟨o', c', b', hbefore, rfl⟩), fun heq => ho ?_⟩
          obtain rfl : b' = b := congrArg MemoryRegion.ptr heq
          exact (h.shape.only hb hbefore).1
      · refine ⟨(hlive _).mpr (.inr ⟨x, hx, rfl⟩), fun heq => ?_⟩
        have hsize : bigAllocSize x.2.size = blockSize := congrArg MemoryRegion.size heq
        have hlarge := (h.shape.jumbo x hx).large
        have hspec := bigBlocks_spec x.2.size
        rw [← bigAllocSize_eq] at hspec
        omega
    have hapart := hreg.live_apart hm_live.1 hb_live hm_live.2
    dsimp only at hapart
    omega

/-- Object 0 gives back its chunk, and with it the only one of its block. -/
def freedBlock : List HeapAction := [.alloc 1 6 100, .alloc 0 5 0x1fff00, .dealloc 0 0x1000fc00008]

/-- A block whose only chunk was freed goes back to the global allocator. -/
theorem heap_releaseFreeBlocks_freedBlock : ∃ s s', run heapStep (.new .blank 1) freedBlock = some s ∧
    (s.objects 0).map FreeList.blocks = [[0x1000fc00000]] ∧
    heapStep s (.releaseFreeBlocks 0) = some s' ∧ s'.live = [(1, 0x1000fe00008)] ∧
    (∀ fl ∈ s'.objects 0, fl.blocks = []) ∧
    ∀ a, 0x1000fc00000 ≤ a → a < 0x1000fc00000 + blockSize → s'.gs.FreeByte a := by
  have hguard : Guarded heapStep (fun s a => soundCall s a = true) (.new .blank 1) freedBlock :=
    guarded_of_checkGuard (by decide +kernel)
  have hany : (run heapStep (.new .blank 1) freedBlock).any (fun s => decide
      (s.live = [(1, 0x1000fe00008)] ∧ (s.objects 0).map FreeList.blocks = [[0x1000fc00000]] ∧
        s.gs.ga.truncated = false ∧ s.gs.freeRegions = [⟨baseAddress, 0xfc00000⟩])) = true := by
    decide +kernel
  obtain ⟨s, hrun, hs⟩ := run_of_any hany
  obtain ⟨hlive, hblocks, htruncated, hregions⟩ := of_decide_eq_true hs
  obtain ⟨s', hstep, hlive', -, hheld, hreturned⟩ := heap_releaseFreeBlocks (by decide) rfl hrun hguard 0
  refine ⟨s, s', hrun, hblocks, hstep, hlive'.trans hlive, fun fl hfl => ?_, ?_⟩
  · -- only object 1 has a live pointer, so no block of object 0 is kept
    refine List.eq_nil_iff_forall_not_mem.mpr fun b hb => ?_
    obtain ⟨x, hx, howner, -⟩ := hheld fl hfl b hb
    rw [hlive', hlive, List.mem_singleton] at hx
    rw [hx] at howner
    cases howner
  · -- all that could become free is one pool, which is smaller than the field allows
    have hmem : ∀ fl ∈ s.objects 0, fl.blocks = [0x1000fc00000] := fun fl hfl => by
      simpa [hblocks] using List.mem_map_of_mem (f := FreeList.blocks) hfl
    have hshort : ShortRuns (s.Releasable 0) :=
      shortRuns_of_bounds baseAddress (baseAddress + minPoolSize) (by
        rintro x (⟨m, hm, hx⟩ | ⟨fl, hfl, b, hb, -, hx⟩)
        · rw [hregions, List.mem_singleton] at hm
          rw [hm] at hx
          simp only [baseAddress, minPoolSize] at hx ⊢
          omega
        · rw [hmem fl hfl, List.mem_singleton] at hb
          simp only [baseAddress, minPoolSize, blockSize] at hx ⊢
          omega) (by decide)
    have hvacant : s.Vacant 0x1000fc00000 := by
      rw [HeapState.Vacant, hlive, List.forall_mem_singleton]
      exact .inr (by show _ ≤ 0x1000fe00008 - 8; decide)
    obtain ⟨fl, hfl, hfl_blocks⟩ : ∃ fl ∈ s.objects 0, fl.blocks = [0x1000fc00000] :=
      List.mem_map.mp (hblocks ▸ List.mem_singleton_self _)
    exact hreturned htruncated hshort fl hfl _ (by simp [hfl_blocks]) hvacant

/-- **No memory is lost.** As long as no size has been stored that does not fit into its field, every
mapped byte is on the free list of the global allocator, in a block of a free list, or in the region of a
live chunk that is larger than a block. -/
theorem heap_accounts_for_memory (hcores : 0 < cores) (hmem : mem.bitmap = fun _ => 0)
    (hrun : run heapStep (.new mem cores) acts = some s)
    (hsound : Guarded heapStep (fun s a => soundCall s a = true) (.new mem cores) acts)
    (htruncated : s.gs.ga.truncated = false) {a : ℕ} (hlo : baseAddress ≤ a) (hhi : a < s.gs.limit) :
    s.gs.FreeByte a ∨ (∃ o, ∃ fl ∈ s.objects o, ∃ b ∈ fl.blocks, b ≤ a ∧ a < b + blockSize) ∨
      ∃ x ∈ s.live, blockSize < (s.chunk x.2).size ∧ (s.chunk x.2).addr ≤ a ∧
        a < (s.chunk x.2).addr + bigAllocSize (s.chunk x.2).size := by
  obtain ⟨layout, jumbos, h⟩ := heapInv_of_run hcores hmem hrun hsound
  obtain ⟨live, ps, chain, hreg, hlive⟩ := h.shape.regions
  have hcovers := hreg.covers_iff.mpr htruncated
  rw [hreg.totalMapped_eq] at hcovers
  obtain ⟨m, hm, hhas⟩ := (hcovers.cover a).mpr ⟨hlo, hhi⟩
  rcases List.mem_append.mp hm with hfree | hm
  · exact .inl ⟨m, hfree, hhas⟩
  rcases (hlive m).mp hm with ⟨o, c, b, hb, rfl⟩ | ⟨x, hx, rfl⟩
  · -- the lists that are not there have no blocks
    have hc : c < (s.objects o).length := by
      by_contra hge
      rw [listsOf, List.getElem?_eq_none (by omega)] at hb
      cases hb
    have hlist : listsOf s.objects o c = (s.objects o)[c] := by simp [listsOf, hc]
    exact .inr (.inl ⟨o, _, List.getElem_mem hc, b, hlist ▸ hb, hhas⟩)
  · have hused : UsedBy (listsOf s.objects) layout jumbos x.1 x.2 := .inr hx
    refine .inr (.inr ⟨(x.1, x.2.addr + 8), (h.live _ _).mpr ⟨x.2, hused, rfl⟩, ?_⟩)
    rw [h.chunk_eq hused]
    exact ⟨(h.shape.jumbo x hx).large, hhas⟩

/-- The memory of the run of two objects is free, in a block or in a large chunk. -/
theorem heap_accounts_for_memory_twoOwners : ∃ s, run heapStep (.new .blank 2) twoOwners = some s ∧
    ∀ a, baseAddress ≤ a → a < s.gs.limit →
      s.gs.FreeByte a ∨ (∃ o, ∃ fl ∈ s.objects o, ∃ b ∈ fl.blocks, b ≤ a ∧ a < b + blockSize) ∨
        ∃ x ∈ s.live, blockSize < (s.chunk x.2).size ∧ (s.chunk x.2).addr ≤ a ∧
          a < (s.chunk x.2).addr + bigAllocSize (s.chunk x.2).size := by
  have hany : (run heapStep (.new .blank 2) twoOwners).any (fun s => !s.gs.ga.truncated) = true := by
    decide +kernel
  obtain ⟨s, hrun, hs⟩ := run_of_any hany
  exact ⟨s, hrun, fun a hlo hhi => heap_accounts_for_memory (by decide) rfl hrun guarded_twoOwners
    (by simpa using hs) hlo hhi⟩

end Run

end Pronto
