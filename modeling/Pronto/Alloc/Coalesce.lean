import Pronto.Alloc.Allocate

/-!
# Deallocation keeps the layout

`dealloc` merges the chunk with the free chunks on either side. It works on the header of the first
of the merged chunks: it takes the neighbour out of its bucket, adds the size to the header and copies
the flag `last`. In between the state is described by `Merging`: the chunks from `a` to `e` have one
header at `a` and are in no bucket. At the end the merged chunk is filed.

The layout may have a flaw. A flawed chunk in front of the freed one is not found, and not merged.
-/

namespace Pronto

open Function Linked Tiling

variable {flaw : Option ℕ} {s s₁ s₂ : ListState} {layout : ℕ → List Chunk}
  {chains chains₁ : ℕ → List ℕ} {a e : ℕ} {last : Bool} {removed : List ℕ}

/-- The range from `a` to `e` has one header at `a`, and the chunks `removed` have left their
buckets. Outside the range only the `prev_offset` of the header at `e` may have been written. -/
structure Merging (s s₁ : ListState) (chains chains₁ : ℕ → List ℕ) (a e : ℕ) (last : Bool)
    (removed : List ℕ) : Prop where
  size_eq : a + (s₁.hdr a).size = e
  used_eq : (s₁.hdr a).used = false
  last_eq : (s₁.hdr a).last = last
  prev_eq : (s₁.hdr a).prevOffset = (s.hdr a).prevOffset
  out : ∀ x, x < a ∨ e < x → s₁.hdr x = s.hdr x
  behind : (s₁.hdr e).size = (s.hdr e).size ∧ (s₁.hdr e).used = (s.hdr e).used ∧
    (s₁.hdr e).last = (s.hdr e).last
  rest : SameRest s s₁
  family : Family s₁.mem.links s₁.fl.buckets chains₁
  mem_iff : ∀ i x, x ∈ chains₁ i ↔ x ∈ chains i ∧ x ∉ removed
  links : ∀ x, (∀ i, x ∉ chains i) → SameLinks s s₁ x
  touched : TouchedOwned s → TouchedOwned s₁

/-- A read does not disturb the merge. -/
theorem Merging.touch_if {c : Prop} [Decidable c] {x : ℕ}
    (h : Merging s s₁ chains chains₁ a e last removed) (hx : c → Owned s.fl.blocks x) :
    Merging s (if c then s₁.touch x else s₁) chains chains₁ a e last removed := by
  by_cases hc : c
  · rw [if_pos hc]
    refine ⟨h.size_eq, h.used_eq, h.last_eq, h.prev_eq, h.out, h.behind,
      h.rest.trans ListState.sameRest_touch, h.family, h.mem_iff, h.links, fun ht => ?_⟩
    refine ListState.touchedOwned_touch (h.touched ht) ?_
    rw [h.rest.blocks_eq]
    exact hx hc
  · rwa [if_neg hc]

/-- The successor gets its `prev_offset`. -/
theorem Merging.link_if {c : Prop} [Decidable c] {v : ℕ}
    (h : Merging s s₁ chains chains₁ a e last removed) (hlt : a < e)
    (hown : c → Owned s.fl.blocks e) :
    Merging s (if c then s₁.modify e fun h => h.withPrev v else s₁) chains chains₁ a e last removed ∧
      (c → ((if c then s₁.modify e fun h => h.withPrev v else s₁).hdr e).prevOffset = v) := by
  obtain ⟨hhdr, hfl, hlinks, hbm, htouch⟩ :=
    ListState.modify_if (s := s₁) (a := e) (c := c) (v := v)
  -- only `prevOffset` of the header at `e` is written, so the merged chunk is as before
  set s₂ := if c then s₁.modify e fun h => h.withPrev v else s₁
  have ha : s₂.hdr a = s₁.hdr a := by rw [hhdr, update_of_ne (by omega)]
  have he : s₂.hdr e =
      (s₁.hdr e).withPrev (if c then v else (s₁.hdr e).prevOffset) := by
    rw [hhdr, update_self]
  refine ⟨⟨?_, ?_, ?_, ?_, fun x hx => ?_, ?_, ?_, ?_, h.mem_iff, fun x hx => ?_, fun ht => ?_⟩,
    fun hc => ?_⟩
  · rw [ha]
    exact h.size_eq
  · rw [ha]
    exact h.used_eq
  · rw [ha]
    exact h.last_eq
  · rw [ha]
    exact h.prev_eq
  · rw [hhdr, update_of_ne (by omega)]
    exact h.out x hx
  · rw [he]
    exact h.behind
  · exact h.rest.trans ⟨hbm, by rw [hfl], by rw [hfl], by rw [hfl]⟩
  · rw [hlinks, hfl]
    exact h.family
  · rw [SameLinks, hlinks]
    exact h.links x hx
  · refine htouch (h.touched ht) fun hc => ?_
    rw [h.rest.blocks_eq]
    exact hown hc
  · rw [he, if_pos hc]
    rfl

/-- Freeing a chunk. -/
theorem merging_free {c : ℕ} (hfamily : Family s.mem.links s.fl.buckets chains)
    (hpos : 0 < (s.hdr c).size) (hown : Owned s.fl.blocks c) :
    Merging s (s.modify c fun h => { h with used := false }) chains chains c
      (c + (s.hdr c).size) (s.hdr c).last [] := by
  have hself : (s.modify c fun h => { h with used := false }).hdr c =
      { s.hdr c with used := false } := update_self _ _ _
  have hother : ∀ x, x ≠ c → (s.modify c fun h => { h with used := false }).hdr x = s.hdr x :=
    fun x hx => update_of_ne hx _ _
  refine ⟨by rw [hself], by rw [hself], by rw [hself], by rw [hself],
    fun x hx => hother x (by omega), ?_, ListState.sameRest_modify, hfamily, by simp,
    fun x _ => ⟨rfl, rfl⟩, fun ht => ListState.touchedOwned_modify ht hown⟩
  rw [hother _ (by omega)]
  exact ⟨rfl, rfl, rfl⟩

namespace ListState

/-- **Merging with a free predecessor.** -/
theorem coalescePrev_spec {p c : ℕ} (next : ℕ) (h : Merging s s₁ chains chains₁ c e last removed)
    (hp : p + (s.hdr p).size = c) (hpused : (s.hdr p).used = false) (hppos : 0 < (s.hdr p).size)
    (hce : c < e) (hsmall : e - p < 0x20000000)
    (hmem : p ∈ chains (findBucket (s.hdr p).size)) (hremoved : p ∉ removed)
    (howned : ∀ i, ∀ x ∈ chains i, Owned s.fl.blocks x) (hcown : Owned s.fl.blocks c)
    (hnext : next ≠ 0 → next = e ∧ Owned s.fl.blocks e) :
    ∃ chains₂, Merging s (s₁.coalescePrev p c next) chains chains₂ p e last (p :: removed) ∧
      ((s.hdr e).used = true → next ≠ 0 →
        ((s₁.coalescePrev p c next).hdr e).prevOffset = chunkOffset p) := by
  have hpc : p < c := by omega
  have hp₁ : s₁.hdr p = s.hdr p := h.out p (.inl hpc)
  have hbucket : findBucket (s₁.hdr p).size = findBucket (s.hdr p).size := by rw [hp₁]
  -- the chunk before is still in its bucket: nothing has been filed since
  have hmem₁ : p ∈ chains₁ (findBucket (s₁.hdr p).size) := by
    rw [hbucket, h.mem_iff]
    exact ⟨hmem, hremoved⟩
  obtain ⟨hhdr₂, hrest₂, hfamily₂, htouch₂⟩ := unlinkFrom_spec h.family hmem₁
  rw [coalescePrev, removeChunkFromBuckets]
  dsimp only
  set s₂ := s₁.unlinkFrom (findBucket (s₁.hdr p).size) p
  have hc₂ : (s₂.touch c).hdr = s₁.hdr := hhdr₂
  rw [hc₂]
  set s₃ := (s₂.touch c).modify p fun h =>
    { h.withSize (h.size + (s₁.hdr c).size) with last := (s₁.hdr c).last } with hs₃
  have hp₃ : s₃.hdr p = ⟨(s.hdr p).prevOffset, (s.hdr p).freeListId, last, false, (s.hdr p).jumbo,
      e - p⟩ := by
    have hsize : (s.hdr p).size + (s₁.hdr c).size = e - p := by
      have hsize := h.size_eq
      omega
    rw [hs₃, hdr_modify, update_self, hdr_touch, hhdr₂, hp₁, h.last_eq]
    simp only [ChunkHeader.withSize, hsize, Nat.mod_eq_of_lt hsmall, hpused]
  have hother₃ : ∀ x, x ≠ p → s₃.hdr x = s₁.hdr x := by
    intro x hx
    rw [hs₃, hdr_modify, update_of_ne hx, hdr_touch, hhdr₂]
  have hblocks₂ : s₂.fl.blocks = s.fl.blocks := hrest₂.blocks_eq.trans h.rest.blocks_eq
  have hmerge₃ : Merging s s₃ chains
      (Function.update chains₁ (findBucket (s₁.hdr p).size)
        ((chains₁ (findBucket (s₁.hdr p).size)).erase p)) p e last (p :: removed) := by
    refine ⟨?_, by rw [hp₃], by rw [hp₃], by rw [hp₃], fun x hx => ?_, ?_, ?_, hfamily₂,
      fun i x => ?_, fun x hx => ?_, fun ht => ?_⟩
    · rw [hp₃]
      show p + (e - p) = e
      omega
    · rw [hother₃ x (by omega), h.out x (by omega)]
    · rw [hother₃ e (by omega)]
      exact h.behind
    · exact (h.rest.trans hrest₂).trans ⟨rfl, rfl, rfl, rfl⟩
    · rw [h.family.mem_unlink hmem₁, h.mem_iff, List.mem_cons, not_or]
      tauto
    · exact (h.links x hx).trans
        (unlinkFrom_links h.family hmem₁ fun hmem => hx _ ((h.mem_iff _ x).mp hmem).1)
    · have ht₁ := h.touched ht
      have ht₂ : TouchedOwned s₂ := htouch₂ ht₁ fun x hx => by
        rw [h.rest.blocks_eq]
        exact howned _ x ((h.mem_iff _ x).mp hx).1
      have ht₃ : TouchedOwned (s₂.touch c) := touchedOwned_touch ht₂ (by rw [hblocks₂]; exact hcown)
      refine touchedOwned_modify ht₃ ?_
      show Owned s₂.fl.blocks p
      rw [hblocks₂]
      exact howned _ p hmem
  by_cases hnext0 : next ≠ 0
  · obtain ⟨rfl, heown⟩ := hnext hnext0
    rw [if_pos hnext0]
    have hmerge₄ := hmerge₃.touch_if (c := next ≠ 0) (x := next) fun _ => heown
    rw [if_pos hnext0] at hmerge₄
    have hused : ((s₃.touch next).hdr next).used = (s.hdr next).used := hmerge₄.behind.2.1
    rw [hused]
    obtain ⟨hmerge₅, hlink⟩ := hmerge₄.link_if (c := (s.hdr next).used = true)
      (v := chunkOffset p) (by omega) fun _ => heown
    exact ⟨_, hmerge₅, fun hu _ => hlink hu⟩
  · rw [if_neg hnext0]
    exact ⟨_, hmerge₃, fun _ hne => absurd hne hnext0⟩

/-- **Merging with a free successor.** -/
theorem coalesceNext_spec {n e' : ℕ} (h : Merging s s₁ chains chains₁ a n last removed)
    (he : n + (s.hdr n).size = e') (hpos : 0 < (s.hdr n).size) (han : a < n)
    (hsmall : e' - a < 0x20000000) (hmem : n ∈ chains (findBucket (s.hdr n).size))
    (hremoved : n ∉ removed) (howned : ∀ i, ∀ x ∈ chains i, Owned s.fl.blocks x)
    (haown : Owned s.fl.blocks a) (heown : (s.hdr n).last = false → Owned s.fl.blocks e') :
    ∃ chains₂, Merging s (s₁.coalesceNext a n) chains chains₂ a e' (s.hdr n).last (n :: removed) ∧
      ((s.hdr n).last = false → ((s₁.coalesceNext a n).hdr e').prevOffset = chunkOffset a) := by
  obtain ⟨hnsize, -, hnlast⟩ := h.behind
  have hmem₁ : n ∈ chains₁ (findBucket (s₁.hdr n).size) := by
    rw [hnsize, h.mem_iff]
    exact ⟨hmem, hremoved⟩
  obtain ⟨hhdr₂, hrest₂, hfamily₂, htouch₂⟩ := unlinkFrom_spec h.family hmem₁
  rw [coalesceNext, removeChunkFromBuckets]
  dsimp only
  set s₂ := s₁.unlinkFrom (findBucket (s₁.hdr n).size) n
  rw [hhdr₂, hnsize, hnlast]
  set s₃ := s₂.modify a fun h =>
    { h.withSize (h.size + (s.hdr n).size) with last := (s.hdr n).last } with hs₃
  have ha₃ : s₃.hdr a = ⟨(s.hdr a).prevOffset, (s₁.hdr a).freeListId, (s.hdr n).last, false,
      (s₁.hdr a).jumbo, e' - a⟩ := by
    have hsize : (s₁.hdr a).size + (s.hdr n).size = e' - a := by
      have hsize := h.size_eq
      omega
    rw [hs₃, hdr_modify, update_self, hhdr₂]
    simp only [ChunkHeader.withSize, hsize, Nat.mod_eq_of_lt hsmall, h.used_eq, h.prev_eq]
  have hother₃ : ∀ x, x ≠ a → s₃.hdr x = s₁.hdr x := by
    intro x hx
    rw [hs₃, hdr_modify, update_of_ne hx, hhdr₂]
  have hmerge₃ : Merging s s₃ chains
      (Function.update chains₁ (findBucket (s.hdr n).size)
        ((chains₁ (findBucket (s.hdr n).size)).erase n)) a e' (s.hdr n).last (n :: removed) := by
    have hlinks₂ : ∀ x, (∀ i, x ∉ chains i) → SameLinks s₁ s₂ x := fun x hx =>
      unlinkFrom_links h.family hmem₁ fun hmem => hx _ ((h.mem_iff _ x).mp hmem).1
    rw [hnsize] at hfamily₂ hmem₁
    refine ⟨?_, by rw [ha₃], by rw [ha₃], by rw [ha₃], fun x hx => ?_, ?_, ?_, hfamily₂,
      fun i x => ?_, fun x hx => ?_, fun ht => ?_⟩
    · rw [ha₃]
      show a + (e' - a) = e'
      omega
    · rw [hother₃ x (by omega), h.out x (by omega)]
    · rw [hother₃ e' (by omega), h.out e' (by omega)]
      exact ⟨rfl, rfl, rfl⟩
    · exact (h.rest.trans hrest₂).trans ⟨rfl, rfl, rfl, rfl⟩
    · rw [h.family.mem_unlink hmem₁, h.mem_iff, List.mem_cons, not_or]
      tauto
    · exact (h.links x hx).trans (hlinks₂ x hx)
    · have ht₂ : TouchedOwned s₂ := htouch₂ (h.touched ht) fun x hx => by
        rw [h.rest.blocks_eq]
        exact howned _ x ((h.mem_iff _ x).mp hx).1
      refine touchedOwned_modify ht₂ ?_
      rw [hrest₂.blocks_eq, h.rest.blocks_eq]
      exact haown
  -- the header at the end of the merged range
  have hnext : (if !(s₃.hdr a).last then
      s₃.modify (s₃.nextChunk a) fun h => h.withPrev (chunkOffset a) else s₃) =
      if (s.hdr n).last = false then s₃.modify e' fun h => h.withPrev (chunkOffset a) else s₃ := by
    rw [nextChunk, hmerge₃.last_eq, hmerge₃.size_eq]
    cases (s.hdr n).last <;> simp
  rw [hnext]
  obtain ⟨hmerge₄, hlink⟩ := hmerge₃.link_if (c := (s.hdr n).last = false) (v := chunkOffset a)
    (by omega) heown
  exact ⟨_, hmerge₄, hlink⟩

/-- The step of `freeAndCoalesce` for the predecessor. -/
def mergePrev (s : ListState) (prev chunk next : ℕ) : ℕ × ListState :=
  let s := if prev ≠ 0 then s.touch prev else s
  if prev ≠ 0 ∧ (s.hdr prev).used = false then (prev, s.coalescePrev prev chunk next) else (chunk, s)

/-- The step of `freeAndCoalesce` for the successor. -/
def mergeNext (s : ListState) (chunk next : ℕ) : ℕ × ListState :=
  let s := if next ≠ 0 then s.touch next else s
  if next ≠ 0 ∧ (s.hdr next).used = false then (chunk, s.coalesceNext chunk next) else (chunk, s)

/-- The early return of `freeAndCoalesce` makes no difference. -/
theorem freeAndCoalesce_eq (s : ListState) (chunk : ℕ) :
    s.freeAndCoalesce chunk =
      let r := (s.modify chunk fun h => { h with used := false }).mergePrev (s.prevChunk chunk) chunk
        (s.nextChunk chunk)
      r.2.mergeNext r.1 (s.nextChunk chunk) := by
  rw [freeAndCoalesce]
  dsimp only
  split
  · rename_i hboth
    simp [hboth.1, hboth.2, mergePrev, mergeNext]
  · rfl

end ListState

/-! ## The neighbours of the freed chunk -/

section Free

variable {b : ℕ} {c : Chunk} {L R : List Chunk}

/-- What `prevChunk` finds in front of the chunk `c`: nothing to merge with, or a free chunk. -/
inductive PrevCase (flaw : Option ℕ) (s : ListState) (c : Chunk) (L : List Chunk) : Prop
  | keep (hprev : s.prevChunk c.addr ≠ 0 → (s.hdr (s.prevChunk c.addr)).used = true ∧
        Owned s.fl.blocks (s.prevChunk c.addr) ∧ s.prevChunk c.addr ≠ c.addr)
      (hleft : ∀ p ∈ L.getLast?, flaw = some p.addr ∨ p.used = true)
  | merge (L' : List Chunk) (p : Chunk) (hL : L = L' ++ [p]) (hfree : p.used = false)
      (hprev : s.prevChunk c.addr = p.addr) (hflaw : flaw ≠ some p.addr)

/-- The chunk found in front of `c` is its predecessor or, if this is flawed, the chunk before. -/
theorem ListInv.prevCase (h : ListInv flaw s layout chains) (hb : b ∈ s.fl.blocks)
    (hlayout : layout b = L ++ [c] ++ R) {n : Chunk} (hflaw : SplitFlaw s layout n flaw)
    (hn : n.used = true) : PrevCase flaw s c L := by
  have hok := h.blockOk b hb
  have hmod := (h.aligned b hb).1
  have hlayout' : layout b = L ++ c :: R := by simpa using hlayout
  rcases List.eq_nil_or_concat L with rfl | ⟨L, p, rfl⟩
  · rw [hlayout'] at hok
    have hprev := hok.prevChunk_eq hmod (by simp)
    exact .keep (fun hne => absurd hprev hne) (by simp)
  rw [List.concat_eq_append] at hlayout hlayout' ⊢
  have hpmem : p ∈ layout b := by rw [hlayout']; simp
  have hcmem : c ∈ layout b := by rw [hlayout']; simp
  by_cases hpflaw : flaw = some p.addr
  · -- behind the flawed remainder `p` the offset still leads to the chunk `n` in front of it
    obtain ⟨b', hb', L₀, r, R₀, hlayout₀, hr, -, -, hstale⟩ := hflaw p.addr hpflaw
    obtain ⟨rfl, rfl⟩ := h.chunk_eq hb' hb (k := r) (by rw [hlayout₀]; simp) hpmem hr
    have hnodup := (hok.tiles.nodup_starts fun x hx => (hok.sizes x hx).1).of_map
    have hsplit : L₀ ++ [n] ++ r :: R₀ = L ++ r :: c :: R := by
      rw [hlayout'] at hlayout₀
      simpa using hlayout₀.symm
    rw [hlayout', List.append_assoc, List.singleton_append] at hnodup
    have hrL : r ∉ L := fun hmem => (List.nodup_append'.mp hnodup).2.2 hmem (by simp)
    have hrR : r ∉ c :: R := (List.nodup_cons.mp (List.nodup_append'.mp hnodup).2.1).1
    obtain ⟨rfl, -, rfl⟩ := (List.append_cons_inj_of_notMem hrL hrR).mp hsplit.symm
    have hnmem : n ∈ layout b' := by rw [hlayout']; simp
    have hnpos := (hok.sizes n hnmem).1
    have hlt : n.addr + n.size ≤ c.addr := by
      have htiles := hok.tiles
      rw [hlayout'] at htiles
      exact htiles.around.1 n (by simp)
    have hprev : s.prevChunk c.addr = n.addr :=
      hok.prevChunk_of_offset hmod hcmem hnmem (by omega) (hstale c rfl)
    refine .keep (fun _ => ?_) fun q hq => ?_
    · rw [hprev]
      exact ⟨(hok.describes n hnmem).2.trans hn, h.owned hb hnmem, by omega⟩
    · obtain rfl : r = q := by simpa using hq
      exact .inl hpflaw
  · rw [hlayout'] at hok
    have hprev := hok.prevChunk_eq hmod (fun q hq => by
      obtain rfl : p = q := by simpa using hq
      exact hpflaw)
    have hprev : s.prevChunk c.addr = p.addr := by simpa using hprev
    cases hpused : p.used with
    | false => exact .merge L p rfl hpused hprev hpflaw
    | true =>
      refine .keep (fun _ => ?_) fun q hq => ?_
      · rw [hprev]
        have hlt : p.addr + p.size ≤ c.addr := hok.tiles.around.1 p (by simp)
        have hpos := (hok.sizes p (by simp)).1
        exact ⟨(hok.describes p (by simp)).2.trans hpused, h.owned hb hpmem, by omega⟩
      · obtain rfl : p = q := by simpa using hq
        exact .inr hpused

/-- The freed chunk is not flawed, and neither is its successor. -/
theorem ListInv.not_flawed (h : ListInv flaw s layout chains) (hb : b ∈ s.fl.blocks)
    (hlayout : layout b = L ++ [c] ++ R) {n : Chunk} (hflaw : SplitFlaw s layout n flaw)
    (hcused : c.used = true) (hnc : n ≠ c) :
    flaw ≠ some c.addr ∧ ∀ k ∈ R.head?, flaw ≠ some k.addr := by
  have hcmem : c ∈ layout b := by rw [hlayout]; simp
  constructor
  · intro hflawed
    obtain ⟨b', hb', L₀, r, R₀, hlayout₀, hr, hrfree, -⟩ := hflaw _ hflawed
    obtain ⟨-, rfl⟩ := h.chunk_eq hb' hb (k := r) (by rw [hlayout₀]; simp) hcmem hr
    rw [hcused] at hrfree
    cases hrfree
  · -- the remainder lies right behind `n`, so `n` would be `c`
    intro k hk hflawed
    obtain ⟨R, rfl⟩ : ∃ R', R = k :: R' := by
      cases R with
      | nil => cases hk
      | cons x R =>
        obtain rfl : x = k := by simpa using hk
        exact ⟨R, rfl⟩
    have hkmem : k ∈ layout b := by rw [hlayout]; simp
    obtain ⟨b', hb', L₀, r, R₀, hlayout₀, hr, -⟩ := hflaw _ hflawed
    obtain ⟨rfl, rfl⟩ := h.chunk_eq hb' hb (k := r) (by rw [hlayout₀]; simp) hkmem hr
    have hok := h.blockOk b' hb'
    have hnodup := (hok.tiles.nodup_starts fun x hx => (hok.sizes x hx).1).of_map
    rw [hlayout] at hnodup
    have hrL : r ∉ L ++ [c] := fun hmem => (List.nodup_append'.mp hnodup).2.2 hmem (by simp)
    have hrR : r ∉ R := (List.nodup_cons.mp (List.nodup_append'.mp hnodup).2.1).1
    have hsplit : L ++ [c] ++ r :: R = L₀ ++ [n] ++ r :: R₀ := by
      rw [← hlayout, hlayout₀]
      simp
    obtain ⟨heq, -⟩ := (List.append_cons_inj_of_notMem hrL hrR).mp hsplit
    exact hnc (by simpa using (List.append_inj' heq rfl).2.symm)

/-- The chunks `W` around the freed chunk `c` have been merged; they fill the range from `a` to `e`. -/
structure Coalesced (flaw : Option ℕ) (s : ListState) (layout : ℕ → List Chunk)
    (chains : ℕ → List ℕ) (b : ℕ) (c : Chunk) (L W R : List Chunk) (a e : ℕ) (s₁ : ListState) :
    Prop where
  layout_eq : layout b = L ++ W ++ R
  tiles : Tiles Chunk.addr Chunk.size a W e
  mem : c ∈ W
  free : ∀ k ∈ W, k ≠ c → k.used = false
  merging : ∃ chains₁ removed,
    Merging s s₁ chains chains₁ a e (decide (e = b + blockSize)) removed ∧
      ∀ x, x ∈ removed ↔ ∃ k ∈ W, k ≠ c ∧ k.addr = x
  not_flawed : flaw ≠ some a
  left : ∀ p ∈ L.getLast?, flaw = some p.addr ∨ p.used = true
  link : ∀ k ∈ R.head?, k.used = true → (s₁.hdr e).prevOffset = chunkOffset a

variable (h : ListInv flaw s layout chains) (hb : b ∈ s.fl.blocks)

include h hb

/-- The first step of `freeAndCoalesce`, with what `prevChunk` finds. -/
theorem ListInv.coalesced_prev (hlayout : layout b = L ++ [c] ++ R) (hcused : c.used = true)
    (hprev : PrevCase flaw s c L) (hcflaw : flaw ≠ some c.addr) {next : ℕ}
    (hnext : next = (R.head?.map Chunk.addr).getD 0) :
    ∃ a L₀ W s₁, (s.modify c.addr fun h => { h with used := false }).mergePrev
        (s.prevChunk c.addr) c.addr next = (a, s₁) ∧
      Coalesced flaw s layout chains b c L₀ W R a (c.addr + c.size) s₁ := by
  have hok := h.blockOk b hb
  have hcmem : c ∈ layout b := by rw [hlayout]; simp
  have hpos := (hok.sizes c hcmem).1
  obtain ⟨hsize, -⟩ := hok.describes c hcmem
  have hlast := hok.last c hcmem hcflaw
  have hfree := merging_free h.family (show 0 < (s.hdr c.addr).size from hsize ▸ hpos)
    (h.owned hb hcmem)
  have hlast' : (s.hdr c.addr).last = decide (c.addr + c.size = b + blockSize) := hlast
  have hsize' : (s.hdr c.addr).size = c.size := hsize
  rw [hsize', hlast'] at hfree
  set s₁ := s.modify c.addr fun h => { h with used := false } with hs₁
  rw [hlayout] at hok
  obtain ⟨-, -, hhead, -, -⟩ := hok.around (W := [c]) (a := c.addr) (e := c.addr + c.size)
    ⟨rfl, rfl⟩ (by simp)
  -- the successor still refers to the freed chunk
  have hlink : ∀ k ∈ R.head?, (s₁.hdr (c.addr + c.size)).prevOffset = chunkOffset c.addr := by
    intro k hk
    obtain ⟨hoff, -⟩ := (hok.right_pair (by simp) (x := c) rfl hk).resolve_left hcflaw
    rw [hhead k hk] at hoff
    have hsame : s₁.hdr (c.addr + c.size) = s.hdr (c.addr + c.size) :=
      update_of_ne (by omega) _ _
    rw [hsame]
    exact hoff
  cases hprev with
  | keep hused hleft =>
    refine ⟨c.addr, L, [c], if s.prevChunk c.addr ≠ 0 then s₁.touch (s.prevChunk c.addr) else s₁, ?_,
      hlayout, ⟨rfl, rfl⟩, by simp, by simp, ⟨chains, [], hfree.touch_if fun hne => (hused hne).2.1,
        by simp⟩, hcflaw, hleft, fun k hk _ => ?_⟩
    · have htouch := (ListState.touch_if (s := s₁) (a := s.prevChunk c.addr)
        (c := s.prevChunk c.addr ≠ 0)).1
      rw [ListState.mergePrev, htouch]
      refine if_neg fun ⟨hne, hunused⟩ => ?_
      have hsame : s₁.hdr (s.prevChunk c.addr) = s.hdr (s.prevChunk c.addr) :=
        update_of_ne (hused hne).2.2 _ _
      rw [hsame, (hused hne).1] at hunused
      cases hunused
    · have htouch := (ListState.touch_if (s := s₁) (a := s.prevChunk c.addr)
        (c := s.prevChunk c.addr ≠ 0)).1
      rw [htouch]
      exact hlink k hk
  | merge L' p hL hpfree hprev hpflaw =>
    subst hL
    have hpmem : p ∈ L' ++ [p] ++ [c] ++ R := by simp
    have hpmem' : p ∈ layout b := hlayout ▸ hpmem
    obtain ⟨hpsize, hpused⟩ := hok.describes p hpmem
    have hppos := (hok.sizes p hpmem).1
    have hbounds := hok.bounds hpmem
    have hcbounds := hok.bounds (k := c) (by simp)
    have hpc : p.addr + p.size = c.addr := by
      obtain ⟨_, hLc, -⟩ := tiles_append.mp hok.tiles
      obtain ⟨_, hL, hc⟩ := tiles_append.mp hLc
      obtain ⟨_, -, hp⟩ := tiles_append.mp hL
      exact (hp.1 ▸ hp.2).trans hc.1.symm
    have hpsize' : (s.hdr p.addr).size = p.size := hpsize
    have hpaddr := h.addr_ne_zero hb hpmem'
    have hbucket : p.addr ∈ chains (findBucket (s.hdr p.addr).size) := by
      rw [hpsize']
      exact (h.mem_chain_iff hb hpmem' hpfree).mpr rfl
    have hsmall : blockSize < 0x20000000 := by decide
    have hnext' : next ≠ 0 → next = c.addr + c.size ∧ Owned s.fl.blocks (c.addr + c.size) := by
      intro hne
      cases R with
      | nil => exact absurd hnext hne
      | cons k R =>
        have hk : k.addr = c.addr + c.size := hhead k rfl
        rw [← hk]
        exact ⟨hnext, h.owned hb (hlayout ▸ by simp)⟩
    have htouched := hfree.touch_if (c := s.prevChunk c.addr ≠ 0) (x := s.prevChunk c.addr) fun _ => by
      rw [hprev]
      exact h.owned hb hpmem'
    obtain ⟨chains₂, hmerge, hlink₂⟩ := ListState.coalescePrev_spec next htouched
      (by rw [hpsize']; exact hpc) (hpused.trans hpfree) (by rw [hpsize']; exact hppos)
      (by omega) (by omega) hbucket (by simp) (fun i x hx => h.chain_owned hx) (h.owned hb hcmem)
      hnext'
    rw [hprev] at hmerge hlink₂
    refine ⟨p.addr, L', [p, c], _, ?_, by simpa using hlayout, ⟨rfl, hpc.symm, by rw [hpc]; rfl⟩,
      by simp, ?_, ⟨chains₂, [p.addr], hmerge, fun x => ?_⟩, hpflaw, fun q hq => ?_,
      fun k hk hkused => ?_⟩
    · rw [ListState.mergePrev, hprev, if_pos hpaddr]
      refine if_pos ⟨hpaddr, ?_⟩
      have hsame : s₁.hdr p.addr = s.hdr p.addr := update_of_ne (by omega) _ _
      rw [ListState.hdr_touch, hsame]
      exact hpused.trans hpfree
    · simp [hpfree]
    · have hne : p ≠ c := by
        rintro rfl
        omega
      rw [List.mem_singleton]
      constructor
      · rintro rfl
        exact ⟨p, by simp, hne, rfl⟩
      · rintro ⟨k, hk, hkc, rfl⟩
        rcases List.mem_cons.mp hk with rfl | hk
        · rfl
        · exact absurd (List.mem_singleton.mp hk) hkc
    · rw [List.append_assoc] at hok
      rcases hok.left_pair hq (y := p) rfl with hflawed | ⟨-, hused⟩
      · exact .inl hflawed
      · exact .inr (hused.resolve_right (by simp [hpfree]))
    · have hkaddr : k.addr = c.addr + c.size := hhead k hk
      have hkmem : k ∈ L' ++ [p] ++ [c] ++ R := by
        simp [List.mem_of_head? hk]
      refine hlink₂ ?_ ?_
      · rw [← hkaddr]
        exact (hok.describes k hkmem).2.trans hkused
      · rw [hnext, Option.mem_def.mp hk]
        exact h.addr_ne_zero hb (hlayout ▸ hkmem)

/-- The second step of `freeAndCoalesce`. Afterwards the successor of the merged chunk is in use. -/
theorem ListInv.coalesced_next {W : List Chunk}
    (hco : Coalesced flaw s layout chains b c L W R a e s₁) {next : ℕ}
    (hnext : next = (R.head?.map Chunk.addr).getD 0) (hflaw : ∀ k ∈ R.head?, flaw ≠ some k.addr) :
    ∃ W' R' e' s₂, s₁.mergeNext a next = (a, s₂) ∧
      Coalesced flaw s layout chains b c L W' R' a e' s₂ ∧ ∀ k ∈ R'.head?, k.used = true := by
  have hok := h.blockOk b hb
  have hmemW : ∀ k ∈ W, k ∈ layout b := fun k hk => by
    rw [hco.layout_eq]
    simp [hk]
  rw [hco.layout_eq] at hok
  have hneW : W ≠ [] := List.ne_nil_of_mem hco.mem
  obtain ⟨⟨hba, hae, heb⟩, -, hhead, -, -⟩ := hok.around hco.tiles hneW
  obtain ⟨chains₁, removed, hmerge, hremoved⟩ := hco.merging
  rcases R with _ | ⟨k, R⟩
  · refine ⟨W, [], e, s₁, ?_, hco, by simp⟩
    rw [ListState.mergeNext, hnext]
    rfl
  obtain rfl : k.addr = e := hhead k rfl
  obtain rfl : next = k.addr := hnext
  have hkmem : k ∈ L ++ W ++ k :: R := by simp
  have hkmem' : k ∈ layout b := hco.layout_eq ▸ hkmem
  have hkaddr := h.addr_ne_zero hb hkmem'
  obtain ⟨hksize, hkused⟩ := hok.describes k hkmem
  have hkpos := (hok.sizes k hkmem).1
  have hkbounds := hok.bounds hkmem
  have hklast := hok.last k hkmem (hflaw k rfl)
  have htouch := hmerge.touch_if (c := k.addr ≠ 0) (x := k.addr) fun _ => h.owned hb hkmem'
  rw [if_pos hkaddr] at htouch
  have hused₁ : ((s₁.touch k.addr).hdr k.addr).used = k.used := htouch.behind.2.1.trans hkused
  rw [ListState.mergeNext, if_pos hkaddr, hused₁]
  cases hfree : k.used with
  | true =>
    refine ⟨W, k :: R, k.addr, s₁.touch k.addr, if_neg (by simp), ?_, by simpa using hfree⟩
    exact { hco with merging := ⟨chains₁, removed, htouch, hremoved⟩ }
  | false =>
    have hksize' : (s.hdr k.addr).size = k.size := hksize
    have hklast' : (s.hdr k.addr).last = decide (k.addr + k.size = b + blockSize) := hklast
    have hbucket : k.addr ∈ chains (findBucket (s.hdr k.addr).size) := by
      rw [hksize']
      exact (h.mem_chain_iff hb hkmem' hfree).mpr rfl
    have hnew : k.addr ∉ removed := by
      rw [hremoved]
      rintro ⟨w, hw, -, heq⟩
      have hwbounds := (hco.tiles.mem_bounds hw).2
      have hwpos := (hok.sizes w (by simp [hw])).1
      omega
    have hsmall : blockSize < 0x20000000 := by decide
    obtain ⟨chains₂, hmerge₂, hlink₂⟩ := ListState.coalesceNext_spec htouch
      (show _ = k.addr + k.size by rw [hksize']) (by rw [hksize']; exact hkpos) hae (by omega) hbucket hnew
      (fun i x hx => h.chain_owned hx) ⟨b, hb, by omega, by omega⟩ (fun hlast => by
        rw [hklast'] at hlast
        have hne := of_decide_eq_false hlast
        exact ⟨b, hb, by omega, by omega⟩)
    rw [hklast'] at hmerge₂ hlink₂
    have hend : ∀ n ∈ R.head?, ¬ k.addr + k.size = b + blockSize := by
      intro n hn heq
      rw [List.append_cons] at hok
      obtain ⟨-, -, -, -, hnil⟩ := hok.around (W := [k]) (Tiles.singleton rfl) (by simp)
      rw [hnil.mpr heq] at hn
      cases hn
    refine ⟨W ++ [k], R, k.addr + k.size, _, if_pos ⟨hkaddr, rfl⟩, ⟨?_, ?_, ?_, fun w hw hwc => ?_,
      ⟨chains₂, _, hmerge₂, fun x => ?_⟩, hco.not_flawed, hco.left, fun n hn _ => ?_⟩, fun n hn => ?_⟩
    · simpa using hco.layout_eq
    · exact hco.tiles.append (Tiles.singleton rfl)
    · simp [hco.mem]
    · rcases List.mem_append.mp hw with hw | hw
      · exact hco.free w hw hwc
      · rwa [List.mem_singleton.mp hw]
    · have hkc : k ≠ c := by
        rintro rfl
        have hcbounds := (hco.tiles.mem_bounds hco.mem).2
        omega
      rw [List.mem_cons, hremoved]
      constructor
      · rintro (rfl | ⟨w, hw, hwc, rfl⟩)
        · exact ⟨k, by simp, hkc, rfl⟩
        · exact ⟨w, by simp [hw], hwc, rfl⟩
      · rintro ⟨w, hw, hwc, rfl⟩
        rcases List.mem_append.mp hw with hw | hw
        · exact .inr ⟨w, hw, hwc, rfl⟩
        · exact .inl (by rw [List.mem_singleton.mp hw])
    · exact hlink₂ (decide_eq_false (hend n hn))
    · -- two free chunks are not neighbours, so what follows is in use
      rw [List.append_cons] at hok
      obtain ⟨-, hused⟩ := (hok.right_pair (W := [k]) (by simp) (x := k) rfl hn).resolve_left
        (hflaw k rfl)
      exact hused.resolve_left (by simp [hfree])

omit h hb in
/-- **`freeAndCoalesce` merges a chunk with its free neighbours.** -/
theorem ListState.freeAndCoalesce_spec (h : ListInv flaw s layout chains) (hb : b ∈ s.fl.blocks)
    (hlayout : layout b = L ++ [c] ++ R) (hcused : c.used = true) {n : Chunk}
    (hflaw : SplitFlaw s layout n flaw) (hn : n.used = true) (hnc : n ≠ c) :
    ∃ a e L₀ W R₀ s₁, s.freeAndCoalesce c.addr = (a, s₁) ∧
      Coalesced flaw s layout chains b c L₀ W R₀ a e s₁ ∧ ∀ k ∈ R₀.head?, k.used = true := by
  obtain ⟨hcflaw, hnflaw⟩ := h.not_flawed hb hlayout hflaw hcused hnc
  have hok := h.blockOk b hb
  rw [hlayout, List.append_assoc, List.singleton_append] at hok
  have hnext := hok.nextChunk_eq hcflaw
  obtain ⟨a, L₀, W, s₁, hprev, hco⟩ := h.coalesced_prev hb hlayout hcused
    (h.prevCase hb hlayout hflaw hn) hcflaw hnext
  obtain ⟨W', R', e', s₂, hnext', hco', hused⟩ := h.coalesced_next hb hco hnext hnflaw
  refine ⟨a, e', L₀, W', R', s₂, ?_, hco', hused⟩
  rw [freeAndCoalesce_eq]
  dsimp only
  rw [hprev]
  exact hnext'

end Free

/-! ## The result of `dealloc` -/

/-- The pages that `dealloc` clears depend on the two chunks only. -/
theorem unsetFreed_eq (chunk chunkSize fc fcSize : ℕ) :
    (∀ m : HeapMemory, ListState.unsetFreed m chunk chunkSize fc fcSize = m) ∨
      ∃ lb size, ∀ m : HeapMemory,
        ListState.unsetFreed m chunk chunkSize fc fcSize = m.unsetBitmap lb size := by
  by_cases hsmall : fcSize < bitmapGranularity
  · exact .inl fun m => if_pos hsmall
  · have hite : ∃ (c : Prop) (_ : Decidable c) (lb size : ℕ), ∀ m : HeapMemory,
        ListState.unsetFreed m chunk chunkSize fc fcSize =
          if c then m.unsetBitmap lb size else m :=
      ⟨_, _, _, _, fun m => if_neg hsmall⟩
    obtain ⟨c, _, lb, size, hite⟩ := hite
    by_cases hc : c
    · exact .inr ⟨lb, size, fun m => (hite m).trans (if_pos hc)⟩
    · exact .inl fun m => (hite m).trans (if_neg hc)

/-- Clearing the pages of a freed chunk changes the bitmap only. -/
theorem unsetFreed_frame (m : HeapMemory) (chunk chunkSize fc fcSize : ℕ) :
    (ListState.unsetFreed m chunk chunkSize fc fcSize).hdr = m.hdr ∧
      (ListState.unsetFreed m chunk chunkSize fc fcSize).links = m.links ∧
      (ListState.unsetFreed m chunk chunkSize fc fcSize).touched = m.touched := by
  rcases unsetFreed_eq chunk chunkSize fc fcSize with hsame | ⟨lb, size, hunset⟩
  · rw [hsame]
    exact ⟨rfl, rfl, rfl⟩
  · rw [hunset]
    exact ⟨rfl, rfl, rfl⟩

/-- What is cleared does not depend on the rest of the memory. -/
theorem unsetFreed_congr {m m' : HeapMemory} (hbitmap : m'.bitmap = m.bitmap)
    (chunk chunkSize fc fcSize : ℕ) :
    (ListState.unsetFreed m' chunk chunkSize fc fcSize).bitmap =
      (ListState.unsetFreed m chunk chunkSize fc fcSize).bitmap := by
  rcases unsetFreed_eq chunk chunkSize fc fcSize with hsame | ⟨lb, size, hunset⟩
  · rw [hsame, hsame, hbitmap]
  · rw [hunset, hunset, HeapMemory.unsetBitmap, HeapMemory.markPages, hbitmap]
    rfl

/-- `dealloc` has freed the chunk `c`, which is now part of the free chunk `fc`. -/
structure Freed (s : ListState) (layout : ℕ → List Chunk) (chains : ℕ → List ℕ) (c : Chunk)
    (s' : ListState) (layout' : ℕ → List Chunk) (fc : Chunk) : Prop where
  isChunk : IsChunk s'.fl.blocks layout' fc
  free : fc.used = false
  covers : fc.addr ≤ c.addr ∧ c.addr + c.size ≤ fc.addr + fc.size
  inUse : ∀ k, InUse s'.fl.blocks layout' k ↔ InUse s.fl.blocks layout k ∧ k ≠ c
  blocks_eq : s'.fl.blocks = s.fl.blocks
  myId_eq : s'.fl.myId = s.fl.myId
  total_eq : s'.fl.totalAllocated = s.fl.totalAllocated - c.size
  bitmap_eq : s'.mem.bitmap =
    (ListState.unsetFreed s.mem c.addr c.size fc.addr fc.size).bitmap
  frame : Frame s s' chains fc.addr (fc.addr + fc.size)
  touched : TouchedOwned s → TouchedOwned s'

section Dealloc

variable {c : Chunk}

/-- **`dealloc` frees a chunk**, if the counter `total_allocated` permits it. -/
theorem ListState.dealloc_spec (h : ListInv flaw s layout chains)
    (hc : InUse s.fl.blocks layout c) {n : Chunk} (hflaw : SplitFlaw s layout n flaw)
    (hn : n.used = true) (hnc : n ≠ c) :
    ∃ s' layout' chains' fc,
      s.dealloc c.addr = (if c.size ≤ s.fl.totalAllocated then some s' else none) ∧
      ListInv flaw s' layout' chains' ∧ Freed s layout chains c s' layout' fc := by
  obtain ⟨⟨b, hb, hcmem⟩, hcused⟩ := hc
  obtain ⟨L, R, hsplit⟩ := List.append_of_mem hcmem
  have hlayout : layout b = L ++ [c] ++ R := by simpa using hsplit
  have hok := h.blockOk b hb
  have hcown := h.owned hb hcmem
  obtain ⟨hcsize, hcused'⟩ := hok.describes c hcmem
  have hread : ReadOnly s (s.touch c.addr) := readOnly_touch hcown
  obtain ⟨a, e, L₀, W, R₀, s₁, hcoalesce, hco, hright⟩ :=
    freeAndCoalesce_spec (hread.listInv h) hb hlayout hcused (s := s.touch c.addr) hflaw hn hnc
  obtain ⟨chains₁, removed, hmerge, hremoved⟩ := hco.merging
  rw [hco.layout_eq] at hok
  have hneW : W ≠ [] := List.ne_nil_of_mem hco.mem
  obtain ⟨⟨hba, hae, heb⟩, -, hhead, -, -⟩ := hok.around hco.tiles hneW
  have hcpos := ((h.blockOk b hb).sizes c hcmem).1
  have hcfiled : ∀ i, c.addr ∉ chains i :=
    h.not_filed ⟨⟨b, hb, hcmem⟩, hcused⟩ le_rfl (by omega)
  -- the merged chunk
  set fc : Chunk := ⟨a, e - a, false⟩ with hfc
  have hmemW : ∀ k ∈ W, k ∈ layout b := fun k hk => by
    rw [hco.layout_eq]
    simp [hk]
  have hfcsize : (s₁.hdr a).size = e - a := by
    have := hmerge.size_eq
    omega
  have hfc64 : (e - a) % 64 = 0 := by
    obtain ⟨w, ws, rfl⟩ := List.exists_cons_of_ne_nil hneW
    have hw : w.addr = a := hco.tiles.1
    have ha64 : a % 64 = 0 := hw ▸ hok.addr_mod (h.aligned b hb).1 (by simp)
    have he64 := (hco.tiles.aligned ha64 fun x hx => (hok.sizes x (List.mem_append_left _
      (List.mem_append_right _ hx))).2).1
    omega
  have hane : a ≠ 0 := by
    have := h.block_le hb
    dsimp only [blockSize] at *
    omega
  have hnew : ∀ i, a ∉ chains₁ i := by
    intro i hi
    obtain ⟨hi, hrem⟩ := (hmerge.mem_iff i a).mp hi
    obtain ⟨w, ws, rfl⟩ := List.exists_cons_of_ne_nil hneW
    have hw : w.addr = a := hco.tiles.1
    by_cases hwc : w = c
    · refine hcfiled i ?_
      rw [← hwc, hw]
      exact hi
    · exact hrem ((hremoved a).mpr ⟨w, by simp, hwc, hw⟩)
  obtain ⟨hhdr₂, hrest₂, hfamily₂, htouch₂⟩ :=
    addFreeChunk_spec (s₁.hdr a).size hmerge.family hane hnew
  have hlinks₂ := fun x => addFreeChunk_links (s₁.hdr a).size hmerge.family hane hnew (x := x)
  set s₂ := s₁.addFreeChunk a (s₁.hdr a).size with hs₂
  have hrest : SameRest s s₂ := hread.rest.trans (hmerge.rest.trans hrest₂)
  obtain ⟨hhdr₃, hlinks₃, htouched₃⟩ := unsetFreed_frame s₂.mem c.addr c.size a (e - a)
  set s₃ : ListState := ⟨unsetFreed s₂.mem c.addr c.size a (e - a),
    { s₂.fl with totalAllocated := s₂.fl.totalAllocated - c.size }⟩ with hs₃
  have hhdr : s₃.hdr = s₁.hdr := hhdr₃.trans hhdr₂
  have hdealloc : s.dealloc c.addr = if c.size ≤ s.fl.totalAllocated then some s₃ else none := by
    rw [dealloc, if_pos (show (s.hdr c.addr).used = true from hcused'.trans hcused)]
    have hcsize' : (s.hdr c.addr).size = c.size := hcsize
    rw [hcoalesce, hcsize']
    have hfcsize₂ : (s₂.hdr a).size = e - a := by rw [hhdr₂, hfcsize]
    dsimp only
    rw [← hs₂, hfcsize₂, ← hrest.total_eq]
  have hinv : ListInv flaw s₃ (Function.update layout b (L₀ ++ [fc] ++ R₀))
      (Function.update chains₁ (findBucket (s₁.hdr a).size)
        (a :: chains₁ (findBucket (s₁.hdr a).size))) := by
    refine h.single hb hco.layout_eq hrest.blocks_eq hco.tiles hneW hco.not_flawed (k := fc) rfl
      (by show a + (e - a) = e; omega) ⟨by show 0 < e - a; omega, ?_⟩ ?_ ?_ ?_ (fun x hx => ?_) ?_
      (fun p hp => ?_) (fun k hk => ?_) ?_ fun i x => ?_
    · exact hfc64
    · rw [hhdr]
      exact ⟨hfcsize, hmerge.used_eq⟩
    · rw [hhdr]
      exact hmerge.last_eq
    · rw [hhdr]
      exact hmerge.prev_eq
    · rw [hhdr]
      exact hmerge.out x hx
    · rw [hhdr]
      exact hmerge.behind
    · exact (hco.left p hp).imp_right .inl
    · rw [hhdr]
      exact ⟨hco.link k hk (hright k hk), .inr (hright k hk)⟩
    · show Family s₃.mem.links s₃.fl.buckets _
      rw [show s₃.mem.links = s₂.mem.links from hlinks₃]
      exact hfamily₂
    · rw [Family.mem_push, hmerge.mem_iff, hremoved, hfcsize]
      refine or_congr (and_congr_right fun hx => ?_) ?_
      · constructor
        · rintro hnot k hk rfl
          refine hnot ⟨k, hk, ?_, rfl⟩
          rintro rfl
          exact hcfiled i hx
        · rintro hall ⟨k, hk, -, heq⟩
          exact hall k hk heq
      · simp only [hfc, true_and]
        exact and_congr eq_comm eq_comm
  have hblocks : s₃.fl.blocks = s.fl.blocks := hrest.blocks_eq
  refine ⟨s₃, _, _, fc, hdealloc, hinv, ?_⟩
  have hend : fc.addr + fc.size = e := by
    show a + (e - a) = e
    omega
  refine ⟨?_, rfl, ?_, fun k => ?_, hblocks, hrest.myId_eq, ?_, ?_, ?_, fun ht => ?_⟩
  · rw [hblocks]
    exact (h.isChunk_replace hb hco.layout_eq).mpr (.inr (by simp))
  · have hbounds := hco.tiles.mem_bounds hco.mem
    rw [hend]
    exact hbounds
  · rw [hblocks, InUse, InUse, h.isChunk_replace hb hco.layout_eq]
    constructor
    · rintro ⟨⟨hk, hkW⟩ | hk, hused⟩
      · exact ⟨⟨hk, hused⟩, fun heq => hkW (heq ▸ hco.mem)⟩
      · rw [List.mem_singleton.mp hk] at hused
        cases hused
    · rintro ⟨⟨hk, hused⟩, hkc⟩
      refine ⟨.inl ⟨hk, fun hkW => ?_⟩, hused⟩
      rw [hco.free k hkW hkc] at hused
      cases hused
  · show s₂.fl.totalAllocated - c.size = _
    rw [hrest.total_eq]
  · exact unsetFreed_congr hrest.bitmap_eq _ _ _ _
  · rw [hend]
    refine ⟨fun x hx => ?_, fun x hx hxa => ?_⟩
    · rw [hhdr]
      exact hmerge.out x hx
    · have hx₁ : ∀ i, x ∉ chains₁ i := fun i hi => hx i ((hmerge.mem_iff i x).mp hi).1
      have hne : x ≠ a := by
        have hxa' : x < a ∨ e ≤ x := hxa
        omega
      have hlinks : SameLinks s s₂ x := (hmerge.links x hx).trans (hlinks₂ x hne hx₁)
      rw [SameLinks, show s₃.mem.links = s₂.mem.links from hlinks₃]
      exact hlinks
  · have hown : ∀ y, Owned s.fl.blocks y → Owned s₁.fl.blocks y := fun y hy => by
      rw [hmerge.rest.blocks_eq]
      exact hy
    have ht₂ : TouchedOwned s₂ := htouch₂ (hmerge.touched (hread.touched ht))
      (hown a ⟨b, hb, by omega, by omega⟩)
      fun y hy => hown y (h.chain_owned ((hmerge.mem_iff _ y).mp hy).1)
    intro y hy
    rw [show s₃.mem.touched = s₂.mem.touched from htouched₃] at hy
    exact ht₂ y hy

end Dealloc

end Pronto
