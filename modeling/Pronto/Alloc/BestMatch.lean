import Pronto.Alloc.Reallocate

/-!
# The search for a chunk

`findBestMatch` walks along the buckets, from the one for the requested size upwards, and counts its
lookups in `chain_lookups`. The counter is part of the loop condition: where it wraps to zero, the
walk along the bucket ends and the search goes on with the next one.

`alloc_reuses_iff` says exactly when `alloc` does without a new block from the global allocator:
when the search comes to a free chunk that is large enough. It comes to every such chunk, except for
those that stand behind the place in their bucket at which the counter wraps.
-/

namespace Pronto

open Linked

/-! ## Counting lookups -/

/-- The lookups in the buckets from `first` up to `bucket` when nothing is found: one for every
chunk and one for the end of every chain. -/
def lookupsTo (chains : ℕ → List ℕ) (first bucket : ℕ) : ℕ :=
  ((List.range' first (bucket - first)).map fun i => (chains i).length + 1).sum

/-- The search looks at the chunk at position `i` of `bucket`, if it has found nothing before: the
counter does not wrap in this bucket, or only behind the chunk. -/
def Reached (lookups : ℕ) (chains : ℕ → List ℕ) (first bucket i : ℕ) : Prop :=
  lookups + lookupsTo chains first bucket + i + 1 < 2 ^ 64 ∨
    2 ^ 64 ≤ lookups + lookupsTo chains first bucket

section Lookups

variable (chains : ℕ → List ℕ) {first bucket last : ℕ}

theorem lookupsTo_self : lookupsTo chains first first = 0 := by
  simp [lookupsTo]

theorem lookupsTo_first (h : first < bucket) :
    lookupsTo chains first bucket =
      (chains first).length + 1 + lookupsTo chains (first + 1) bucket := by
  have hrange : List.range' first (bucket - first) =
      first :: List.range' (first + 1) (bucket - (first + 1)) := by
    rw [show bucket - first = bucket - (first + 1) + 1 by omega, List.range'_succ]
  rw [lookupsTo, lookupsTo, hrange, List.map_cons, List.sum_cons]

theorem lookupsTo_succ (h : first ≤ bucket) :
    lookupsTo chains first (bucket + 1) =
      lookupsTo chains first bucket + (chains bucket).length + 1 := by
  have hrange : List.range' first (bucket + 1 - first) =
      List.range' first (bucket - first) ++ [bucket] := by
    rw [show bucket + 1 - first = bucket - first + 1 by omega, List.range'_concat,
      show first + 1 * (bucket - first) = bucket by omega]
  rw [lookupsTo, lookupsTo, hrange, List.map_append, List.sum_append]
  simp [Nat.add_assoc]

/-- The lookups up to the end of a bucket. -/
theorem lookupsTo_lt (h : first ≤ bucket) (hlt : bucket < last) :
    lookupsTo chains first bucket + (chains bucket).length < lookupsTo chains first last := by
  induction last, hlt using Nat.le_induction with
  | base =>
    rw [lookupsTo_succ chains h]
    omega
  | succ last hlt ih =>
    rw [lookupsTo_succ chains (by omega)]
    omega

theorem lookupsTo_eq_length :
    lookupsTo chains first bucket =
      ((List.range' first (bucket - first)).flatMap chains).length + (bucket - first) := by
  rw [lookupsTo, List.length_flatMap]
  induction bucket - first generalizing first with
  | zero => rfl
  | succ n ih =>
    simp only [List.range'_succ, List.map_cons, List.sum_cons, ih]
    omega

end Lookups

/-! ## What the search finds -/

variable {s s' : ListState} {layout : ℕ → List Chunk} {chains : ℕ → List ℕ} {size : ℕ}

namespace ListState

/-- The inner loop finds nothing exactly if the counter wraps before every chunk that is large
enough; and the counter behind it. -/
theorem searchBucket_zero_iff (size : ℕ) {xs : List ℕ} {before fc fuel : ℕ}
    (hlist : IsList s.mem.links before fc xs) (hfuel : xs.length < fuel)
    (hlookups : s.fl.chainLookups < 2 ^ 64) :
    ∃ r s', searchBucket size fuel s fc = some (r, s') ∧
      (r = 0 ↔ ∀ i a, xs[i]? = some a → size ≤ (s.hdr a).size →
        2 ^ 64 ≤ s.fl.chainLookups + i + 1) ∧
      (r = 0 → s'.fl.chainLookups =
        if s.fl.chainLookups + xs.length + 1 < 2 ^ 64 then s.fl.chainLookups + xs.length + 1
        else 0) := by
  -- by induction on the rest of the bucket; the counter goes up by one at each chunk
  induction xs generalizing s before fc fuel with
  | nil =>
    obtain ⟨fuel, rfl⟩ := Nat.exists_eq_add_one_of_ne_zero (Nat.ne_zero_of_lt hfuel)
    obtain rfl : fc = 0 := hlist
    rw [searchBucket]
    refine ⟨0, _, if_neg fun hboth => hboth.2 rfl, by simp, fun _ => ?_⟩
    show (s.fl.chainLookups + 1) % 2 ^ 64 = _
    split <;> simp only [List.length_nil] at * <;> omega
  | cons x xs ih =>
    obtain ⟨fuel, rfl⟩ := Nat.exists_eq_add_one_of_ne_zero (Nat.ne_zero_of_lt hfuel)
    obtain ⟨rfl, hx, -, hrest⟩ := hlist
    rw [searchBucket]
    dsimp only
    rcases Nat.lt_or_ge (s.fl.chainLookups + 1) (2 ^ 64) with hlt | hge
    · -- the counter does not wrap here, so the chunk is looked at
      rw [Nat.mod_eq_of_lt hlt, if_pos ⟨Nat.succ_ne_zero _, hx⟩]
      set s₁ : ListState := ListState.touch
        { s with fl := { s.fl with chainLookups := s.fl.chainLookups + 1 } } fc with hs₁
      have hhdr : s₁.hdr = s.hdr := rfl
      by_cases hfits : size ≤ (s.hdr fc).size
      · refine ⟨fc, s₁, if_pos hfits, ⟨fun h0 => absurd h0 hx, fun hall => ?_⟩,
          fun h0 => absurd h0 hx⟩
        have := hall 0 fc rfl hfits
        omega
      · obtain ⟨r, s', hsearch, hzero, hcount⟩ := ih (s := s₁) hrest
          (by simpa using hfuel) hlt
        have hcount₁ : s₁.fl.chainLookups = s.fl.chainLookups + 1 := rfl
        rw [hcount₁, hhdr] at hzero
        rw [hcount₁] at hcount
        refine ⟨r, s', (if_neg hfits).trans hsearch, hzero.trans ⟨fun hall i a hi ha => ?_,
          fun hall i a hi ha => ?_⟩, fun h0 => ?_⟩
        · cases i with
          | zero =>
            obtain rfl : fc = a := Option.some.inj hi
            exact absurd ha hfits
          | succ i =>
            have := hall i a hi ha
            omega
        · have := hall (i + 1) a hi ha
          omega
        · rw [hcount h0, List.length_cons, Nat.add_assoc _ 1, Nat.add_comm 1]
    · -- the counter wraps to zero, and the loop ends as if the bucket were at its end
      have hwrap : (s.fl.chainLookups + 1) % 2 ^ 64 = 0 := by omega
      rw [hwrap, if_neg fun hboth => hboth.1 rfl]
      refine ⟨0, _, rfl, ⟨fun _ i a _ _ => by omega, fun _ => rfl⟩, fun _ => ?_⟩
      rw [if_neg (by omega)]

/-- The outer loop finds nothing exactly if it looks at no chunk that is large enough. -/
theorem searchBuckets_none_iff (size : ℕ) {flaw : Option ℕ} (h : ListInv flaw s layout chains)
    (first n : ℕ) (hlookups : s.fl.chainLookups < 2 ^ 64)
    (htotal : lookupsTo chains first (first + n) < 2 ^ 64) :
    ∃ r s', searchBuckets size (List.range' first n) s = some (r, s') ∧
      (r = none ↔ ∀ b i a, first ≤ b → b < first + n → (chains b)[i]? = some a →
        size ≤ (s.hdr a).size → ¬ Reached s.fl.chainLookups chains first b i) := by
  induction n generalizing first s with
  | zero => exact ⟨none, s, rfl, iff_of_true rfl fun b i a hle hlt => by omega⟩
  | succ n ih =>
    have hlen := h.chain_length first
    obtain ⟨fc, s₁, hsearch, hread, -⟩ := searchBucket_spec
      (h.family.isList first) (fun x hx => h.chain_owned hx)
      (show (chains first).length < s.maxChunks + 1 by omega)
    obtain ⟨_, _, hsearch', hzero, hcount⟩ := searchBucket_zero_iff size
      (h.family.isList first) (show (chains first).length < s.maxChunks + 1 by omega) hlookups
    obtain ⟨rfl, rfl⟩ := Prod.mk.inj (Option.some.inj (hsearch.symm.trans hsearch'))
    have hhere : ∀ i, ¬ Reached s.fl.chainLookups chains first first i ↔
        2 ^ 64 ≤ s.fl.chainLookups + i + 1 := fun i => by
      rw [Reached, lookupsTo_self]
      omega
    rw [List.range'_succ, searchBuckets, hsearch]
    dsimp only
    by_cases hfc : fc = 0
    · rw [if_neg (not_not.mpr hfc)]
      have hfirst := lookupsTo_first chains (show first < first + (n + 1) by omega)
      have hend : first + 1 + n = first + (n + 1) := by omega
      have hlookups₁ : s₁.fl.chainLookups < 2 ^ 64 := by
        rw [hcount hfc]
        split <;> omega
      obtain ⟨r, s', hr, hnone⟩ := ih (hread.listInv h) (first + 1) hlookups₁ (by rw [hend]; omega)
      refine ⟨r, s', hr, hnone.trans ?_⟩
      -- where the counter has wrapped, all later chunks are reached
      have hiff : ∀ b i a, first + 1 ≤ b → b < first + (n + 1) → (chains b)[i]? = some a →
          (Reached s₁.fl.chainLookups chains (first + 1) b i ↔
            Reached s.fl.chainLookups chains first b i) := fun b i a hle hlt hi => by
        have hb := lookupsTo_first chains (show first < b by omega)
        have hpos := lookupsTo_lt chains hle hlt
        have hi := (List.getElem?_eq_some_iff.mp hi).1
        rw [Reached, Reached, hcount hfc]
        split <;> omega
      have hhdr : s₁.hdr = s.hdr := hread.hdr_eq
      rw [hhdr, hend]
      constructor
      · intro hall b i a hle hlt hi ha
        rcases Nat.eq_or_lt_of_le hle with rfl | hgt
        · exact (hhere i).mpr (hzero.mp hfc i a hi ha)
        · rw [← hiff b i a hgt hlt hi]
          exact hall b i a hgt hlt hi ha
      · intro hall b i a hle hlt hi ha
        rw [hiff b i a hle hlt hi]
        exact hall b i a (by omega) hlt hi ha
    · rw [if_pos hfc]
      refine ⟨_, s₁, rfl, iff_of_false (by simp) fun hall => hfc (hzero.mpr fun i a hi ha => ?_)⟩
      exact (hhere i).mp (hall first i a le_rfl (by omega) hi ha)

end ListState

/-- A free chunk that is large enough. -/
def Fits (s : ListState) (layout : ℕ → List Chunk) (size : ℕ) (k : Chunk) : Prop :=
  IsChunk s.fl.blocks layout k ∧ k.used = false ∧ size ≤ k.size

/-- The search for `size` bytes comes to a free chunk that is large enough. -/
def FitReached (s : ListState) (layout : ℕ → List Chunk) (chains : ℕ → List ℕ) (size : ℕ) : Prop :=
  ∃ k bucket i, Fits s layout size k ∧ (chains bucket)[i]? = some k.addr ∧
    Reached s.fl.chainLookups chains (findBucket size) bucket i

/-- `alloc` returns a chunk without a call of the global allocator. -/
def Reuses (s : ListState) (size : ℕ) : Prop :=
  ∃ chunk s', ∀ (γ : Type) (galloc : γ → HeapMemory → Option (ℕ × γ × HeapMemory)) (g : γ),
    s.alloc galloc g size = some (chunk, g, s')

theorem findBucket_mono {size size' : ℕ} (hle : size ≤ size') (hsize : size' ≤ blockSize) :
    findBucket size ≤ findBucket size' := by
  rw [findBucket_le_iff (findBucket_lt hsize)]
  exact hle.trans ((findBucket_le_iff (findBucket_lt hsize)).mp le_rfl)

namespace ListInv

variable {flaw : Option ℕ}

/-- A free chunk that is large enough stands in one of the buckets that are searched. -/
theorem fits_filed (h : ListInv flaw s layout chains) {k : Chunk} (hk : Fits s layout size k) :
    ∃ bucket i : ℕ, (chains bucket)[i]? = some k.addr ∧ findBucket size ≤ bucket ∧
      bucket < totalAllocBuckets ∧ (s.hdr k.addr).size = k.size := by
  obtain ⟨⟨b, hb, hkmem⟩, hfree, hle⟩ := hk
  have hmem := (h.filed (findBucket k.size) k.addr).mpr ⟨k, ⟨b, hb, hkmem⟩, rfl, hfree, rfl⟩
  obtain ⟨i, hi⟩ := List.getElem?_of_mem hmem
  have hblock := h.blockOk b hb
  exact ⟨_, i, hi, findBucket_mono hle (hblock.size_le hkmem), findBucket_lt (hblock.size_le hkmem),
    (hblock.describes k hkmem).1⟩

/-- A chunk of a bucket that is large enough by its header. -/
theorem fits_of_filed (h : ListInv flaw s layout chains) {bucket a : ℕ} (ha : a ∈ chains bucket)
    (hle : size ≤ (s.hdr a).size) : ∃ k, Fits s layout size k ∧ k.addr = a := by
  obtain ⟨k, ⟨b, hb, hkmem⟩, rfl, hfree, -⟩ := (h.filed bucket a).mp ha
  have hsize : (s.hdr k.addr).size = k.size := ((h.blockOk b hb).describes k hkmem).1
  exact ⟨k, ⟨⟨b, hb, hkmem⟩, hfree, hsize ▸ hle⟩, rfl⟩

/-- In the 64-bit address space all lookups of one search are fewer than the counter can count. -/
theorem lookupsTo_lt (h : ListInv flaw s layout chains)
    (hspace : ∀ b ∈ s.fl.blocks, b + blockSize ≤ 2 ^ 64) (first : ℕ) :
    lookupsTo chains first totalAllocBuckets < 2 ^ 64 := by
  set filed := (List.range' first (totalAllocBuckets - first)).flatMap chains with hfiled
  have hnodup : filed.Nodup := by
    refine List.nodup_flatMap.mpr ⟨fun i _ => h.family.nodup i, ?_⟩
    refine (List.nodup_range' : (List.range' first _).Nodup).imp fun {i j} hne a hi hj => ?_
    exact hne (h.family.disjoint _ _ _ hi hj)
  -- the chunks start at different multiples of 64
  have hplace : ∀ a ∈ filed, a % 64 = 0 ∧ a < 2 ^ 64 := by
    intro a ha
    obtain ⟨i, -, hi⟩ := List.mem_flatMap.mp ha
    obtain ⟨k, ⟨b, hb, hk⟩, rfl, -⟩ := (h.filed i a).mp hi
    have hblock := h.blockOk b hb
    exact ⟨hblock.addr_mod (h.aligned b hb).1 hk, (hblock.addr_lt hk).trans_le (hspace b hb)⟩
  have hindex : (filed.map (· / 64)).Nodup := by
    refine List.Nodup.map_on (fun a ha c hc heq => ?_) hnodup
    have hmod := (hplace a ha).1
    have hmod' := (hplace c hc).1
    omega
  have hsub : filed.map (· / 64) ⊆ List.range (2 ^ 58) := by
    intro i hi
    obtain ⟨a, ha, rfl⟩ := List.mem_map.mp hi
    have hlt := (hplace a ha).2
    exact List.mem_range.mpr (by omega)
  have hlength := (List.subperm_of_subset hindex hsub).length_le
  rw [List.length_map, List.length_range] at hlength
  rw [lookupsTo_eq_length, ← hfiled]
  have hbuckets : totalAllocBuckets - first ≤ 14 := Nat.sub_le _ _
  omega

/-- The search finds nothing exactly if it comes to no free chunk that is large enough. -/
theorem search_none_iff (h : ListInv flaw s layout chains)
    (hlookups : s.fl.chainLookups < 2 ^ 64) (hspace : ∀ b ∈ s.fl.blocks, b + blockSize ≤ 2 ^ 64)
    (hsize : size ≤ blockSize) :
    (∃ s', s.search size = some (none, s')) ↔ ¬ FitReached s layout chains size := by
  have hbucket := findBucket_lt hsize
  have hend : findBucket size + (totalAllocBuckets - findBucket size) = totalAllocBuckets := by
    omega
  obtain ⟨r, s', hr, hnone⟩ := ListState.searchBuckets_none_iff size h (findBucket size)
    (totalAllocBuckets - findBucket size) hlookups (by rw [hend]; exact h.lookupsTo_lt hspace _)
  have hsearch : s.search size = some (r, s') := hr
  rw [hend] at hnone
  have hiff : (∃ s', s.search size = some (none, s')) ↔ r = none := by
    simp [hsearch]
  rw [hiff, hnone]
  constructor
  · rintro hall ⟨k, bucket, i, hk, hi, hreached⟩
    obtain ⟨bucket', j, hj, hle, hlt, hhdr⟩ := h.fits_filed hk
    obtain rfl : bucket = bucket' := h.family.disjoint _ _ _ (List.mem_of_getElem? hi)
      (List.mem_of_getElem? hj)
    exact hall bucket i k.addr hle hlt hi (hhdr ▸ hk.2.2) hreached
  · intro hno bucket i a _ _ hi hle hreached
    obtain ⟨k, hk, rfl⟩ := h.fits_of_filed (List.mem_of_getElem? hi) hle
    exact hno ⟨k, bucket, i, hk, hi, hreached⟩

/-- `alloc` does without a new block exactly if the search finds something. -/
theorem reuses_iff_search (h : ListInv none s layout chains) (hpos : 0 < size)
    (h64 : size % 64 = 0) : Reuses s size ↔ ¬ ∃ s', s.search size = some (none, s') := by
  rcases ListState.findBestMatch_spec h hpos h64 with
    ⟨s₁, hfind, hsearch, -⟩ | ⟨chunk, s₁, -, -, -, hfind, hchunk, -⟩
  · refine iff_of_false ?_ (not_not.mpr ⟨s₁, hsearch⟩)
    -- an allocator that is out of memory
    rintro ⟨chunk, s', hall⟩
    have hnone := hall Unit (fun _ _ => none) ()
    rw [ListState.alloc, hfind] at hnone
    cases hnone
  · refine iff_of_true ⟨chunk, s₁.markUsed chunk size, fun γ galloc g => ?_⟩ ?_
    · rw [ListState.alloc, hfind]
      exact if_pos hchunk
    · rintro ⟨s', hsearch⟩
      rw [ListState.findBestMatch, hsearch] at hfind
      obtain ⟨rfl, -⟩ := Prod.mk.inj (Option.some.inj hfind)
      exact hchunk rfl

end ListInv

/-- **`alloc` reuses free memory.** On a well-formed list `alloc` returns a chunk without a call of
the global allocator exactly if the search comes to a free chunk that is large enough. Unless the
counter of lookups wraps during the search, that is exactly if there is one. -/
theorem alloc_reuses_iff (h : WellFormed s layout chains) (hlookups : s.fl.chainLookups < 2 ^ 64)
    (hspace : ∀ b ∈ s.fl.blocks, b + blockSize ≤ 2 ^ 64) (hpos : 0 < size) (h64 : size % 64 = 0)
    (hsize : size ≤ blockSize) :
    (Reuses s size ↔ FitReached s layout chains size) ∧
      (s.fl.chainLookups + lookupsTo chains (findBucket size) totalAllocBuckets < 2 ^ 64 →
        (Reuses s size ↔ ∃ k, Fits s layout size k)) := by
  have hreuses : Reuses s size ↔ FitReached s layout chains size := by
    rw [h.reuses_iff_search hpos h64, h.search_none_iff hlookups hspace hsize, not_not]
  refine ⟨hreuses, fun hcount => hreuses.trans ⟨fun ⟨k, _, _, hk, _⟩ => ⟨k, hk⟩, fun ⟨k, hk⟩ => ?_⟩⟩
  obtain ⟨bucket, i, hi, hle, hlt, -⟩ := h.fits_filed hk
  refine ⟨k, bucket, i, hk, hi, .inl ?_⟩
  have htotal := lookupsTo_lt chains hle hlt
  have hpos := (List.getElem?_eq_some_iff.mp hi).1
  omega

/-- A request of 64 bytes is served from the rest of the only block. -/
theorem alloc_reuses_oneChunkList : ∃ layout chains, WellFormed oneChunkList layout chains ∧
    oneChunkList.fl.chainLookups < 2 ^ 64 ∧
    (∀ b ∈ oneChunkList.fl.blocks, b + blockSize ≤ 2 ^ 64) ∧ Reuses oneChunkList 0x40 := by
  obtain ⟨chains, h⟩ := wellFormed_oneChunkList
  have hlookups : oneChunkList.fl.chainLookups = 0 := rfl
  have hspace : ∀ b ∈ oneChunkList.fl.blocks, b + blockSize ≤ 2 ^ 64 := by decide
  refine ⟨_, chains, h, by decide, hspace, ?_⟩
  have hiff := (alloc_reuses_iff h (by decide) hspace (show 0 < 0x40 by decide) (by decide)
    (by decide)).2
  rw [hlookups, Nat.zero_add] at hiff
  -- the rest of the block is free
  refine (hiff (h.lookupsTo_lt hspace _)).mpr ⟨⟨blockSize + 0x80, blockSize - 0x80, false⟩,
    ⟨blockSize, List.mem_singleton.mpr rfl, ?_⟩, rfl, by decide⟩
  rw [Function.update_self, newLayout, if_pos (by decide)]
  simp

end Pronto
