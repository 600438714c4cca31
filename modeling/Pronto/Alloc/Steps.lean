import Pronto.Alloc.Layout

/-!
# What the small operations change

Writing a header, filing a chunk into a bucket and taking it out change the headers, the links and
the bucket heads independently. The lemmas say for each what it does to the family of buckets and to
the record of touched headers; everything else is unchanged (`SameRest`).
-/

namespace Pronto

open Linked

/-- Everything but headers, links, bucket heads, touched headers and counters is unchanged. -/
structure SameRest (s s' : ListState) : Prop where
  bitmap_eq : s'.mem.bitmap = s.mem.bitmap
  blocks_eq : s'.fl.blocks = s.fl.blocks
  myId_eq : s'.fl.myId = s.fl.myId
  total_eq : s'.fl.totalAllocated = s.fl.totalAllocated

theorem SameRest.refl (s : ListState) : SameRest s s := ⟨rfl, rfl, rfl, rfl⟩

/-- One step after the other. -/
theorem SameRest.trans {s s' s'' : ListState} (h : SameRest s s') (h' : SameRest s' s'') :
    SameRest s s'' :=
  ⟨h'.bitmap_eq.trans h.bitmap_eq, h'.blocks_eq.trans h.blocks_eq, h'.myId_eq.trans h.myId_eq,
    h'.total_eq.trans h.total_eq⟩

/-- Every header that has been touched lies in a block of the list. -/
def TouchedOwned (s : ListState) : Prop := ∀ a ∈ s.mem.touched, Owned s.fl.blocks a

/-- The links at an address are unchanged. -/
def SameLinks (s s' : ListState) (x : ℕ) : Prop :=
  s'.mem.links.prev x = s.mem.links.prev x ∧ s'.mem.links.next x = s.mem.links.next x

theorem SameLinks.refl (s : ListState) (x : ℕ) : SameLinks s s x := ⟨rfl, rfl⟩

theorem SameLinks.trans {s s' s'' : ListState} {x : ℕ} (h : SameLinks s s' x)
    (h' : SameLinks s' s'' x) : SameLinks s s'' x :=
  ⟨h'.1.trans h.1, h'.2.trans h.2⟩

/-- Only the range from `a` to `e`, the `prev_offset` of the header at `e` and the links of chunks in
the buckets have been written. -/
structure Frame (s s' : ListState) (chains : ℕ → List ℕ) (a e : ℕ) : Prop where
  hdr_eq : ∀ x, x < a ∨ e < x → s'.hdr x = s.hdr x
  links_eq : ∀ x, (∀ i, x ∉ chains i) → x < a ∨ e ≤ x → SameLinks s s' x

/-- The payload of a chunk is unchanged: every word behind its header, whether it is taken for a header
or for links. -/
structure KeepsPayload (s s' : ListState) (k : Chunk) : Prop where
  hdr_eq : ∀ x, k.addr < x → x < k.addr + k.size → s'.hdr x = s.hdr x
  links_eq : ∀ x, k.addr ≤ x → x < k.addr + k.size → SameLinks s s' x

theorem KeepsPayload.trans {s s' s'' : ListState} {k : Chunk} (h : KeepsPayload s s' k)
    (h' : KeepsPayload s' s'' k) : KeepsPayload s s'' k :=
  ⟨fun x hlo hhi => (h'.hdr_eq x hlo hhi).trans (h.hdr_eq x hlo hhi),
    fun x hlo hhi => (h.links_eq x hlo hhi).trans (h'.links_eq x hlo hhi)⟩

/-- A chunk outside the written range keeps its payload. -/
theorem Frame.keepsPayload {s s' : ListState} {chains : ℕ → List ℕ} {a e : ℕ} {k : Chunk}
    (h : Frame s s' chains a e) (hk : k.addr + k.size ≤ a ∨ e ≤ k.addr)
    (hfiled : ∀ x, k.addr ≤ x → x < k.addr + k.size → ∀ i, x ∉ chains i) : KeepsPayload s s' k :=
  ⟨fun x hlo hhi => h.hdr_eq x (by omega),
    fun x hlo hhi => h.links_eq x (hfiled x hlo hhi) (by omega)⟩

/-- Headers, links and bucket heads are read, and only headers of own blocks. -/
structure ReadOnly (s s' : ListState) : Prop where
  hdr_eq : s'.mem.hdr = s.mem.hdr
  links_eq : s'.mem.links = s.mem.links
  buckets_eq : s'.fl.buckets = s.fl.buckets
  rest : SameRest s s'
  touched : TouchedOwned s → TouchedOwned s'

namespace ReadOnly

variable {s s' s'' : ListState}

theorem refl (s : ListState) : ReadOnly s s := ⟨rfl, rfl, rfl, .refl s, id⟩

/-- Reading twice is reading. -/
theorem trans (h : ReadOnly s s') (h' : ReadOnly s' s'') : ReadOnly s s'' :=
  ⟨h'.hdr_eq.trans h.hdr_eq, h'.links_eq.trans h.links_eq, h'.buckets_eq.trans h.buckets_eq,
    h.rest.trans h'.rest, fun ht => h'.touched (h.touched ht)⟩

/-- Reading keeps every payload. -/
theorem keepsPayload (hr : ReadOnly s s') (k : Chunk) : KeepsPayload s s' k := by
  refine ⟨fun x _ _ => congrFun hr.hdr_eq x, fun x _ _ => ?_⟩
  rw [SameLinks, hr.links_eq]
  exact ⟨rfl, rfl⟩

/-- Reading keeps the invariant. -/
theorem listInv {flaw : Option ℕ} {layout : ℕ → List Chunk} {chains : ℕ → List ℕ}
    (hr : ReadOnly s s') (h : ListInv flaw s layout chains) : ListInv flaw s' layout chains := by
  have hblocks := hr.rest.blocks_eq
  refine ⟨?_, ?_, ?_, ?_, ?_⟩
  · rw [hblocks]
    exact h.nodup
  · rw [hblocks]
    exact h.aligned
  · rw [hblocks, hr.hdr_eq]
    exact h.blockOk
  · rw [hr.links_eq, hr.buckets_eq]
    exact h.family
  · rw [hblocks]
    exact h.filed

end ReadOnly

namespace ListState

variable {s : ListState} {a bucket chunk size : ℕ} {f : ChunkHeader → ChunkHeader}
  {chains : ℕ → List ℕ}

@[simp] theorem hdr_touch : (s.touch a).hdr = s.hdr := rfl
@[simp] theorem links_touch : (s.touch a).mem.links = s.mem.links := rfl
@[simp] theorem fl_touch : (s.touch a).fl = s.fl := rfl
@[simp] theorem links_modify : (s.modify a f).mem.links = s.mem.links := rfl
@[simp] theorem fl_modify : (s.modify a f).fl = s.fl := rfl
@[simp] theorem hdr_modify : (s.modify a f).hdr = Function.update s.hdr a (f (s.hdr a)) := rfl

theorem sameRest_touch : SameRest s (s.touch a) := ⟨rfl, rfl, rfl, rfl⟩

theorem sameRest_modify : SameRest s (s.modify a f) := ⟨rfl, rfl, rfl, rfl⟩

theorem touchedOwned_touch (h : TouchedOwned s) (ha : Owned s.fl.blocks a) :
    TouchedOwned (s.touch a) := by
  intro x hx
  rcases List.mem_cons.mp hx with rfl | hx
  · exact ha
  · exact h x hx

theorem touchedOwned_modify (h : TouchedOwned s) (ha : Owned s.fl.blocks a) :
    TouchedOwned (s.modify a f) := by
  intro x hx
  rcases List.mem_cons.mp hx with rfl | hx
  · exact ha
  · exact h x hx

theorem readOnly_touch (ha : Owned s.fl.blocks a) : ReadOnly s (s.touch a) :=
  ⟨rfl, rfl, rfl, sameRest_touch, fun h => touchedOwned_touch h ha⟩

/-- A conditional read of a header. -/
theorem touch_if {c : Prop} [Decidable c] :
    (if c then s.touch a else s).hdr = s.hdr ∧ (if c then s.touch a else s).fl = s.fl ∧
      (if c then s.touch a else s).mem.links = s.mem.links ∧
      (if c then s.touch a else s).mem.bitmap = s.mem.bitmap ∧
      (TouchedOwned s → (c → Owned s.fl.blocks a) → TouchedOwned (if c then s.touch a else s)) := by
  by_cases hc : c
  · rw [if_pos hc]
    exact ⟨rfl, rfl, rfl, rfl, fun h ha => touchedOwned_touch h (ha hc)⟩
  · rw [if_neg hc]
    exact ⟨rfl, rfl, rfl, rfl, fun h _ => h⟩

/-- A conditional write of a `prev_offset`. -/
theorem modify_if {c : Prop} [Decidable c] {v : ℕ} :
    (if c then s.modify a fun h => h.withPrev v else s).hdr =
        Function.update s.hdr a ((s.hdr a).withPrev (if c then v else (s.hdr a).prevOffset)) ∧
      (if c then s.modify a fun h => h.withPrev v else s).fl = s.fl ∧
      (if c then s.modify a fun h => h.withPrev v else s).mem.links = s.mem.links ∧
      (if c then s.modify a fun h => h.withPrev v else s).mem.bitmap = s.mem.bitmap ∧
      (TouchedOwned s → (c → Owned s.fl.blocks a) →
        TouchedOwned (if c then s.modify a fun h => h.withPrev v else s)) := by
  by_cases hc : c
  · rw [if_pos hc, if_pos hc]
    exact ⟨rfl, rfl, rfl, rfl, fun h ha => touchedOwned_modify h (ha hc)⟩
  · rw [if_neg hc, if_neg hc]
    have hsame : (s.hdr a).withPrev (s.hdr a).prevOffset = s.hdr a := rfl
    rw [hsame, Function.update_eq_self]
    exact ⟨rfl, rfl, rfl, rfl, fun h _ => h⟩

/-- Taking a chunk out of its bucket. -/
theorem unlinkFrom_spec (hfamily : Family s.mem.links s.fl.buckets chains)
    (hchunk : chunk ∈ chains bucket) :
    (s.unlinkFrom bucket chunk).hdr = s.hdr ∧ SameRest s (s.unlinkFrom bucket chunk) ∧
      Family (s.unlinkFrom bucket chunk).mem.links (s.unlinkFrom bucket chunk).fl.buckets
        (Function.update chains bucket ((chains bucket).erase chunk)) ∧
      (TouchedOwned s → (∀ x ∈ chains bucket, Owned s.fl.blocks x) →
        TouchedOwned (s.unlinkFrom bucket chunk)) := by
  obtain ⟨hprev, hnext⟩ := hfamily.links_mem hchunk
  have hunlink := hfamily.unlink hchunk
  unfold unlinkFrom
  dsimp only
  set s₁ := s.touch chunk
  set s₂ := if s.mem.links.prev chunk ≠ 0 then s₁.touch (s.mem.links.prev chunk) else s₁ with hs₂
  obtain ⟨hhdr₂, hfl₂, -, hbm₂, htouch₂⟩ := touch_if (s := s₁) (a := s.mem.links.prev chunk)
    (c := s.mem.links.prev chunk ≠ 0)
  obtain ⟨hhdr₃, hfl₃, -, hbm₃, htouch₃⟩ := touch_if (s := s₂) (a := s.mem.links.next chunk)
    (c := s.mem.links.next chunk ≠ 0)
  set s₃ := if s.mem.links.next chunk ≠ 0 then s₂.touch (s.mem.links.next chunk) else s₂
  have hfl : s₃.fl = s.fl := hfl₃.trans hfl₂
  refine ⟨hhdr₃.trans hhdr₂, ⟨hbm₃.trans hbm₂, by rw [hfl], by rw [hfl], by rw [hfl]⟩, ?_,
    fun htouched howned => ?_⟩
  · rw [hfl]
    exact hunlink
  · have h₁ : TouchedOwned s₁ := touchedOwned_touch htouched (howned chunk hchunk)
    have h₂ : TouchedOwned s₂ := htouch₂ h₁ fun hne => howned _ (hprev hne)
    have h₃ : TouchedOwned s₃ := htouch₃ h₂ fun hne => by
      rw [hfl₂]
      exact howned _ (hnext hne)
    exact h₃

/-- Filing a chunk into the bucket for its size. -/
theorem addFreeChunk_spec (size : ℕ) (hfamily : Family s.mem.links s.fl.buckets chains)
    (hchunk : chunk ≠ 0) (hnew : ∀ i, chunk ∉ chains i) :
    (s.addFreeChunk chunk size).hdr = s.hdr ∧ SameRest s (s.addFreeChunk chunk size) ∧
      Family (s.addFreeChunk chunk size).mem.links (s.addFreeChunk chunk size).fl.buckets
        (Function.update chains (findBucket size) (chunk :: chains (findBucket size))) ∧
      (TouchedOwned s → Owned s.fl.blocks chunk →
        (∀ x ∈ chains (findBucket size), Owned s.fl.blocks x) →
        TouchedOwned (s.addFreeChunk chunk size)) := by
  have hpush := hfamily.push (findBucket size) hchunk hnew
  unfold addFreeChunk
  dsimp only
  set s₁ := s.touch chunk
  obtain ⟨hhdr₂, hfl₂, hlinks₂, hbm₂, htouch₂⟩ := touch_if (s := s₁)
    (a := s.fl.buckets (findBucket size)) (c := s.fl.buckets (findBucket size) ≠ 0)
  set s₂ := if s.fl.buckets (findBucket size) ≠ 0 then s₁.touch (s.fl.buckets (findBucket size))
    else s₁
  have hfl : s₂.fl = s.fl := hfl₂
  refine ⟨hhdr₂, ⟨hbm₂, by rw [hfl], by rw [hfl], by rw [hfl]⟩, ?_,
    fun htouched hown howned => ?_⟩
  · rw [hfl, hlinks₂]
    exact hpush
  · have h₁ : TouchedOwned s₁ := touchedOwned_touch htouched hown
    refine htouch₂ h₁ fun hne => howned _ ?_
    have hhead := (hfamily.isList (findBucket size)).head_eq
    rw [hhead] at hne ⊢
    cases hcase : (chains (findBucket size)).head? with
    | none => simp [hcase] at hne
    | some x => exact List.mem_of_head? hcase

/-- Taking a chunk out of its bucket changes the links of chunks of this bucket only. -/
theorem unlinkFrom_links (hfamily : Family s.mem.links s.fl.buckets chains)
    (hchunk : chunk ∈ chains bucket) {x : ℕ} (hx : x ∉ chains bucket) :
    SameLinks s (s.unlinkFrom bucket chunk) x :=
  hfamily.unlink_frame hchunk hx

/-- Filing a chunk changes the links of the chunk and of chunks of its bucket only. -/
theorem addFreeChunk_links (size : ℕ) (hfamily : Family s.mem.links s.fl.buckets chains)
    (hchunk : chunk ≠ 0) (hnew : ∀ i, chunk ∉ chains i) {x : ℕ} (hxc : x ≠ chunk) (hx : ∀ i, x ∉ chains i) :
    SameLinks s (s.addFreeChunk chunk size) x := by
  have hframe := hfamily.push_frame (findBucket size) hchunk (hnew _) hxc (hx _)
  unfold addFreeChunk
  dsimp only
  split <;> exact hframe

end ListState

/-! ## Buckets by size -/

/-- The caps increase. -/
theorem bucketCaps_mono {i j : ℕ} (hij : i ≤ j) (hj : j < totalAllocBuckets) :
    bucketCaps.getD i 0 ≤ bucketCaps.getD j 0 := by
  have hall : ∀ j < totalAllocBuckets, ∀ i ≤ j, bucketCaps.getD i 0 ≤ bucketCaps.getD j 0 := by
    decide
  exact hall j hj i hij

/-- The bucket of a size is the first whose cap is large enough. -/
theorem findBucket_le_iff {i size : ℕ} (hi : i < totalAllocBuckets) :
    findBucket size ≤ i ↔ size ≤ bucketCaps.getD i 0 := by
  have hlen : i < bucketCaps.length := hi
  constructor
  · intro hle
    have hlt : findBucket size < bucketCaps.length := lt_of_le_of_lt hle hlen
    have hcap := List.findIdx_getElem (w := hlt)
    simp only [decide_eq_true_eq] at hcap
    refine le_trans ?_ (bucketCaps_mono hle hi)
    rw [List.getD_eq_getElem _ _ hlt]
    exact hcap
  · intro hcap
    by_contra hlt
    have hno := List.not_of_lt_findIdx (Nat.lt_of_not_le hlt)
    rw [List.getD_eq_getElem _ _ hlen] at hcap
    simp only [decide_eq_false_iff_not] at hno
    exact hno hcap

theorem findBucket_lt {size : ℕ} (hsize : size ≤ blockSize) : findBucket size < totalAllocBuckets := by
  have hle : findBucket size ≤ 13 := by
    rw [findBucket_le_iff (by decide)]
    exact hsize.trans (by decide)
  exact Nat.lt_succ_of_le hle

/-- A remainder that stays in its bucket is filed there rightly. -/
theorem findBucket_of_stays {bucket remainder size : ℕ} (hbucket : findBucket size = bucket)
    (hlt : bucket < totalAllocBuckets) (hle : remainder ≤ size)
    (hstays : ListState.staysInBucket bucket remainder = true) :
    findBucket remainder = bucket := by
  obtain ⟨hpos, hcap⟩ : bucket > 0 ∧ remainder > bucketCaps.getD (bucket - 1) 0 := by
    simpa [ListState.staysInBucket] using hstays
  have hup : findBucket remainder ≤ bucket := by
    rw [findBucket_le_iff hlt]
    have hsize := (findBucket_le_iff hlt).mp (le_of_eq hbucket)
    exact hle.trans hsize
  have hlow : ¬ findBucket remainder ≤ bucket - 1 := by
    rw [findBucket_le_iff (by omega)]
    omega
  omega

end Pronto
