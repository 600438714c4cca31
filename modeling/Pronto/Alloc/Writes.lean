import Pronto.Alloc.Reallocate

/-!
# What the calls of a free list write

Every header and every pair of links that a call writes is one that it records as touched. `Writes`
states this for each function of the free list. Together with the results that only own headers are
touched (`TouchedOwned`), it says that a call leaves everything outside the own blocks as it is.

`Writes` also says that no call writes another id into a header than that of its own list. The one
exception is the header that `realloc` copies for a remainder.
-/

namespace Pronto

open Linked

/-- Headers and links are written where they are touched, and get no id but that of the list, except
at `skip`. -/
structure Writes (skip : Option ℕ) (s s' : ListState) : Prop where
  touched : ∀ a ∈ s.mem.touched, a ∈ s'.mem.touched
  hdr_eq : ∀ a, a ∉ s'.mem.touched → s'.mem.hdr a = s.mem.hdr a
  links_eq : ∀ a, a ∉ s'.mem.touched → SameLinks s s' a
  id_eq : ∀ a, skip ≠ some a → (s'.mem.hdr a).freeListId = (s.mem.hdr a).freeListId ∨
    (s'.mem.hdr a).freeListId = s.fl.myId
  myId_eq : s'.fl.myId = s.fl.myId

namespace Writes

variable {skip : Option ℕ} {s s' s'' : ListState}

theorem refl (s : ListState) : Writes skip s s :=
  ⟨fun _ ha => ha, fun _ _ => rfl, fun _ _ => .refl s _, fun _ _ => .inl rfl, rfl⟩

theorem trans (h : Writes skip s s') (h' : Writes skip s' s'') : Writes skip s s'' where
  touched a ha := h'.touched a (h.touched a ha)
  hdr_eq a ha := (h'.hdr_eq a ha).trans (h.hdr_eq a fun hmem => ha (h'.touched a hmem))
  links_eq a ha := (h.links_eq a fun hmem => ha (h'.touched a hmem)).trans (h'.links_eq a ha)
  id_eq a ha := by
    rcases h'.id_eq a ha with heq | heq
    · rw [heq]
      exact h.id_eq a ha
    · exact .inr (heq.trans h.myId_eq)
  myId_eq := h'.myId_eq.trans h.myId_eq

/-- Neither headers nor links are written. -/
theorem of_eq (hhdr : s'.mem.hdr = s.mem.hdr) (hlinks : s'.mem.links = s.mem.links)
    (htouched : ∀ a ∈ s.mem.touched, a ∈ s'.mem.touched) (hid : s'.fl.myId = s.fl.myId) :
    Writes skip s s' where
  touched := htouched
  hdr_eq a _ := congrFun hhdr a
  links_eq a _ := by
    rw [SameLinks, hlinks]
    exact ⟨rfl, rfl⟩
  id_eq a _ := .inl (by rw [hhdr])
  myId_eq := hid

/-- Links are written at touched addresses, after headers have been read. -/
theorem of_links {s₁ : ListState} (h : Writes skip s s₁)
    (hhdr : s'.mem.hdr = s₁.mem.hdr) (htouched : s'.mem.touched = s₁.mem.touched)
    (hid : s'.fl.myId = s₁.fl.myId)
    (hkeep : ∀ a, a ∉ s₁.mem.touched → SameLinks s s' a) : Writes skip s s' where
  touched a ha := by
    rw [htouched]
    exact h.touched a ha
  hdr_eq a ha := by
    rw [hhdr]
    exact h.hdr_eq a (htouched ▸ ha)
  links_eq a ha := hkeep a (htouched ▸ ha)
  id_eq a ha := by
    rw [hhdr]
    exact h.id_eq a ha
  myId_eq := hid.trans h.myId_eq

/-- A branch. -/
theorem ite {c : Prop} [Decidable c] {t e : ListState} (ht : c → Writes skip s t)
    (he : ¬ c → Writes skip s e) : Writes skip s (if c then t else e) := by
  split
  · exact ht ‹_›
  · exact he ‹_›

/-- A branch that returns a value, too. -/
theorem ite_snd {c : Prop} [Decidable c] {ι : Type*} {t e : ι × ListState}
    (ht : c → Writes skip s t.2) (he : ¬ c → Writes skip s e.2) :
    Writes skip s (if c then t else e).2 := by
  split
  · exact ht ‹_›
  · exact he ‹_›

end Writes

namespace ListState

variable {skip : Option ℕ} {s s' : ListState} {size : ℕ}

/-! ## Headers and buckets -/

theorem writes_touch (s : ListState) (a : ℕ) : Writes skip s (s.touch a) :=
  .of_eq rfl rfl (fun _ hx => List.mem_cons_of_mem _ hx) rfl

/-- A header is written where it is touched. A new id other than that of the list is only written
at `skip`. -/
theorem writes_modify (s : ListState) (a : ℕ) {f : ChunkHeader → ChunkHeader}
    (hid : skip ≠ some a → (f (s.hdr a)).freeListId = (s.hdr a).freeListId ∨
      (f (s.hdr a)).freeListId = s.fl.myId) :
    Writes skip s (s.modify a f) where
  touched _ hx := List.mem_cons_of_mem _ hx
  hdr_eq x hx := by
    have hne : x ≠ a := fun heq => hx (heq ▸ List.mem_cons_self)
    exact Function.update_of_ne hne _ _
  links_eq _ _ := ⟨rfl, rfl⟩
  id_eq x hx := by
    by_cases heq : x = a
    · subst heq
      rw [show (s.modify x f).mem.hdr x = f (s.hdr x) from Function.update_self _ _ _]
      exact hid hx
    · rw [show (s.modify a f).mem.hdr x = s.mem.hdr x from Function.update_of_ne heq _ _]
      exact .inl rfl
  myId_eq := rfl

/-- Unlinking writes to the neighbours in the bucket, and both have been touched. -/
theorem writes_unlinkFrom (s : ListState) (bucket chunk : ℕ) :
    Writes skip s (s.unlinkFrom bucket chunk) := by
  set links := s.mem.links
  -- the headers that are touched
  set s₂ := if links.prev chunk ≠ 0 then (s.touch chunk).touch (links.prev chunk)
    else s.touch chunk with hs₂
  set s₃ := if links.next chunk ≠ 0 then s₂.touch (links.next chunk) else s₂ with hs₃
  have h₂ : Writes skip s s₂ :=
    (writes_touch s chunk).trans (.ite (fun _ => writes_touch _ _) fun _ => .refl _)
  have h₃ : Writes skip s s₃ := h₂.trans (.ite (fun _ => writes_touch _ _) fun _ => .refl _)
  have hprev : links.prev chunk ≠ 0 → links.prev chunk ∈ s₂.mem.touched := fun h0 => by
    rw [hs₂, if_pos h0]
    exact List.mem_cons_self
  have hnext : links.next chunk ≠ 0 → links.next chunk ∈ s₃.mem.touched := fun h0 => by
    rw [hs₃, if_pos h0]
    exact List.mem_cons_self
  have hsub : ∀ a ∈ s₂.mem.touched, a ∈ s₃.mem.touched := fun a ha => by
    have hwrites : Writes none s₂ s₃ := .ite (fun _ => writes_touch _ _) fun _ => .refl _
    exact hwrites.touched a ha
  refine h₃.of_links rfl rfl rfl fun a ha => ?_
  exact Links.unlink_of_ne (fun h0 heq => ha (hsub _ (heq ▸ hprev h0)))
    fun h0 heq => ha (heq ▸ hnext h0)

/-- Filing writes to the chunk and to the old head of its bucket. -/
theorem writes_addFreeChunk (s : ListState) (ptr size : ℕ) :
    Writes skip s (s.addFreeChunk ptr size) := by
  set head := s.fl.buckets (findBucket size)
  set s₂ := if head ≠ 0 then (s.touch ptr).touch head else s.touch ptr with hs₂
  have h₂ : Writes skip s s₂ :=
    (writes_touch s ptr).trans (.ite (fun _ => writes_touch _ _) fun _ => .refl _)
  have hlinks₂ : s₂.mem.links = s.mem.links := touch_if.2.2.1
  have hptr : ptr ∈ s₂.mem.touched := by
    rw [hs₂]
    split <;> simp [touch]
  have hhead : head ≠ 0 → head ∈ s₂.mem.touched := fun h0 => by
    rw [hs₂, if_pos h0]
    exact List.mem_cons_self
  refine h₂.of_links rfl rfl rfl fun a ha => ?_
  have hkeep := Links.push_of_ne (l := s₂.mem.links) (fun heq : a = ptr => ha (heq ▸ hptr))
    fun h0 heq => ha (heq ▸ hhead h0)
  rw [SameLinks, ← hlinks₂]
  exact hkeep

end ListState

namespace Writes

variable {skip : Option ℕ} {s s' : ListState} (h : Writes skip s s')

include h

/-! Each of the following adds one operation to what has been done before. -/

theorem touch (a : ℕ) : Writes skip s (s'.touch a) := h.trans (ListState.writes_touch s' a)

/-- Then a header is written. -/
theorem modify {a : ℕ} {f : ChunkHeader → ChunkHeader}
    (hid : skip ≠ some a → (f (s'.hdr a)).freeListId = (s'.hdr a).freeListId ∨
      (f (s'.hdr a)).freeListId = s'.fl.myId) : Writes skip s (s'.modify a f) :=
  h.trans (ListState.writes_modify s' a hid)

/-- A header keeps its id. -/
theorem modify_keep {a : ℕ} {f : ChunkHeader → ChunkHeader}
    (hid : ∀ x : ChunkHeader, (f x).freeListId = x.freeListId) : Writes skip s (s'.modify a f) :=
  h.modify fun _ => .inl (hid _)

theorem touch_if {c : Prop} [Decidable c] (a : ℕ) :
    Writes skip s (if c then s'.touch a else s') := .ite (fun _ => h.touch a) fun _ => h

theorem withPrev_if {c : Prop} [Decidable c] {a v : ℕ} :
    Writes skip s (if c then s'.modify a fun x => x.withPrev v else s') :=
  .ite (fun _ => h.modify_keep fun _ => rfl) fun _ => h

theorem addFreeChunk (ptr size : ℕ) : Writes skip s (s'.addFreeChunk ptr size) :=
  h.trans (ListState.writes_addFreeChunk s' ptr size)

theorem setBitmap (ptr size : ℕ) : Writes skip s ⟨s'.mem.setBitmap ptr size, s'.fl⟩ :=
  h.trans (.of_eq rfl rfl (fun _ ha => ha) rfl)

end Writes

namespace ListState

variable {skip : Option ℕ} {s s' : ListState} {size : ℕ}

/-! ## Allocation -/

/-- The search of a bucket only reads. -/
theorem writes_searchBucket {fuel fc r : ℕ} (h : searchBucket size fuel s fc = some (r, s')) :
    Writes skip s s' := by
  induction fuel generalizing s fc with
  | zero => cases h
  | succ fuel ih =>
    have hcount : Writes skip s { s with fl :=
        { s.fl with chainLookups := (s.fl.chainLookups + 1) % 2 ^ 64 } } :=
      .of_eq rfl rfl (fun _ ha => ha) rfl
    rw [searchBucket] at h
    dsimp only at h
    split at h
    · split at h
      · cases h
        exact hcount.touch _
      · exact (hcount.touch _).trans (ih h)
    · cases h
      exact hcount

/-- The search over the buckets only reads. -/
theorem writes_searchBuckets {buckets : List ℕ} {r : Option (ℕ × ℕ)}
    (h : searchBuckets size buckets s = some (r, s')) : Writes skip s s' := by
  induction buckets generalizing s with
  | nil =>
    cases h
    exact .refl _
  | cons bucket rest ih =>
    rw [searchBuckets] at h
    split at h
    · cases h
    · rename_i fc s₁ hsearch
      have h₁ : Writes skip s s₁ := writes_searchBucket hsearch
      split at h
      · cases h
        exact h₁
      · exact h₁.trans (ih h)

theorem writes_splitBack (s : ListState) (fc remainder : ℕ) :
    Writes skip s (s.splitBack fc remainder).2 := by
  unfold splitBack
  dsimp only
  refine Writes.modify_keep (Writes.withPrev_if ?_) fun _ => rfl
  exact Writes.modify_keep (.refl s) fun _ => rfl

/-- So does the new chunk in front. -/
theorem writes_splitFront (s : ListState) (bucket fc size remainder : ℕ) :
    Writes skip s (s.splitFront bucket fc size remainder).2 := by
  have hunlink : Writes skip s (s.unlinkFrom bucket fc) := writes_unlinkFrom s bucket fc
  unfold splitFront
  dsimp only
  refine .ite_snd (fun _ => ?_) fun _ => hunlink
  refine Writes.addFreeChunk (Writes.withPrev_if ?_) _ _
  exact hunlink.modify fun _ => .inr rfl

theorem writes_findBestMatch {chunk : ℕ} (h : s.findBestMatch size = some (chunk, s')) :
    Writes skip s s' := by
  rw [findBestMatch] at h
  split at h
  · cases h
  · rename_i hsearch
    cases h
    exact writes_searchBuckets hsearch
  · rename_i bucket fc s₁ hsearch
    have h₁ : Writes skip s s₁ := writes_searchBuckets hsearch
    dsimp only at h
    obtain ⟨-, h⟩ := Option.ite_none_right_eq_some.mp h
    obtain ⟨-, rfl⟩ := Prod.mk.inj (Option.some.inj h)
    refine (h₁.trans ?_).touch _
    exact .ite_snd (fun _ => writes_splitBack _ _ _) fun _ => writes_splitFront _ _ _ _ _

/-- A new block gets two headers. -/
theorem writes_addBlock (s : ListState) (block size : ℕ) :
    Writes skip s (s.addBlock block size) := by
  have hfl : Writes skip s { s with fl := { s.fl with
      blocks := block :: s.fl.blocks
      globalAllocs := s.fl.globalAllocs + 1 } } := .of_eq rfl rfl (fun _ ha => ha) rfl
  unfold addBlock
  dsimp only
  refine .ite (fun _ => ?_) fun _ => hfl.modify_keep fun _ => rfl
  refine Writes.addFreeChunk (Writes.modify ?_ fun _ => .inr rfl) _ _
  exact hfl.modify_keep fun _ => rfl

theorem writes_markUsed (s : ListState) (chunk size : ℕ) : Writes skip s (s.markUsed chunk size) :=
  .trans (writes_modify s chunk fun _ => .inr rfl) (.of_eq rfl rfl (fun _ ha => ha) rfl)

/-! ## Deallocation -/

/-- Merging with the chunk before. -/
theorem writes_coalescePrev (s : ListState) (prev chunk next : ℕ) :
    Writes skip s (s.coalescePrev prev chunk next) := by
  have hunlink : Writes skip s (s.unlinkFrom (findBucket (s.hdr prev).size) prev) :=
    writes_unlinkFrom s _ prev
  have hfirst := hunlink.touch chunk
  unfold coalescePrev removeChunkFromBuckets
  dsimp only
  refine .ite (fun _ => ?_) fun _ => hfirst.modify_keep fun _ => rfl
  refine Writes.withPrev_if (Writes.touch ?_ _)
  exact hfirst.modify_keep fun _ => rfl

/-- Merging with the chunk behind. -/
theorem writes_coalesceNext (s : ListState) (chunk next : ℕ) :
    Writes skip s (s.coalesceNext chunk next) := by
  unfold coalesceNext removeChunkFromBuckets
  dsimp only
  refine Writes.withPrev_if ?_
  exact (writes_unlinkFrom s _ next).modify_keep fun _ => rfl

/-- `dealloc` writes where it touches: in each of its four cases the chunks it merges have been
read. -/
theorem writes_freeAndCoalesce (s : ListState) (chunk : ℕ) :
    Writes skip s (s.freeAndCoalesce chunk).2 := by
  unfold freeAndCoalesce
  dsimp only
  have hfirst : Writes skip s _ :=
    Writes.modify_keep (.refl s) (a := chunk) (f := fun h => { h with used := false }) fun _ => rfl
  refine .ite_snd (fun _ => hfirst) fun _ => ?_
  have hprev := hfirst.touch_if (c := s.prevChunk chunk ≠ 0) (s.prevChunk chunk)
  set s₁ := if s.prevChunk chunk ≠ 0 then _ else _ with hs₁
  refine .ite_snd (fun _ => ?_) fun _ => ?_
  · refine .trans ?_ (writes_coalesceNext _ _ _)
    refine Writes.touch_if ?_ _
    refine .ite_snd (fun _ => ?_) fun _ => hprev
    exact hprev.trans (writes_coalescePrev _ _ _ _)
  · refine Writes.touch_if ?_ _
    refine .ite_snd (fun _ => ?_) fun _ => hprev
    exact hprev.trans (writes_coalescePrev _ _ _ _)

/-- `dealloc` writes headers and links where it touches them. -/
theorem writes_dealloc {chunk : ℕ} (h : s.dealloc chunk = some s') : Writes skip s s' := by
  unfold dealloc at h
  obtain ⟨-, h⟩ := Option.ite_none_right_eq_some.mp h
  dsimp only at h
  obtain ⟨-, h⟩ := Option.ite_none_right_eq_some.mp h
  have hfree : Writes skip s ((s.touch chunk).freeAndCoalesce chunk).2 :=
    (writes_touch s chunk).trans (writes_freeAndCoalesce (s.touch chunk) chunk)
  generalize (s.touch chunk).freeAndCoalesce chunk = freed at h hfree
  obtain ⟨fc, s₁⟩ := freed
  have hadd : Writes skip s (s₁.addFreeChunk fc (s₁.hdr fc).size) := hfree.addFreeChunk _ _
  obtain ⟨hhdr, hlinks, htouched⟩ := unsetFreed_frame (s₁.addFreeChunk fc (s₁.hdr fc).size).mem chunk
    (s.hdr chunk).size fc ((s₁.addFreeChunk fc (s₁.hdr fc).size).hdr fc).size
  rw [← Option.some.inj h]
  exact hadd.trans (.of_eq hhdr hlinks (fun a ha => htouched ▸ ha) rfl)

theorem writes_lookAhead (s : ListState) (chunk : ℕ) : Writes skip s (s.lookAhead chunk) :=
  (writes_touch s chunk).touch_if _

theorem hdr_unlinkFrom (s : ListState) (bucket chunk : ℕ) :
    (s.unlinkFrom bucket chunk).hdr = s.hdr := by
  unfold unlinkFrom
  dsimp only
  split <;> split <;> rfl

/-- `extend` writes headers and links where it touches them; the header of a remainder is a copy. -/
theorem writes_extend (s : ListState) (chunk fc newSize : ℕ)
    (hskip : newSize - (s.hdr chunk).size < (s.hdr fc).size →
      skip = some (fc + (newSize - (s.hdr chunk).size))) :
    Writes skip s (s.extend chunk fc newSize) := by
  have hunlink : Writes skip s (s.unlinkFrom (findBucket (s.hdr fc).size) fc) :=
    writes_unlinkFrom s _ fc
  unfold extend removeChunkFromBuckets
  dsimp only
  refine Writes.modify_keep (Writes.setBitmap (.ite (fun hlt => ?_) fun _ => ?_) _ _) fun _ => rfl
  · refine Writes.addFreeChunk (Writes.withPrev_if ?_) _ _
    rw [hdr_unlinkFrom] at hlt
    exact hunlink.modify fun hne => absurd (hskip hlt) hne
  · exact Writes.modify_keep (Writes.withPrev_if hunlink) fun _ => rfl

end ListState

end Pronto
