import Pronto.Alloc.Bitmap
import Pronto.Alloc.Coalesce

/-!
# The pages of the chunks in use

`ExactFor bitmap U` says that the bitmap has the bits of exactly those pages on which a chunk of `U`
has a byte. Setting the bits of a chunk adds it to `U` (`ExactFor.set`). Clearing is the harder
direction: `dealloc` clears the pages that the merged free chunk encloses and that the freed chunk had
a byte on. A page that the free chunk does not enclose has a byte of its neighbour, which is in use
(`BlockOk.shared_page`), so its bit has to stay (`ExactFor.unset`).
-/

namespace Pronto

open Tiling

/-- The bitmap has the bits of the pages on which a chunk of `U` has a byte. -/
def ExactFor (bitmap : ℕ → BitVec 64) (U : Chunk → Prop) : Prop :=
  ∀ page, pageSet bitmap page = true ↔ ∃ k, U k ∧ k.Overlaps page

/-- All bytes of the page belong to the chunk. -/
def Chunk.Encloses (k : Chunk) (page : ℕ) : Prop :=
  k.addr ≤ pageAddr page ∧ pageAddr page + bitmapGranularity ≤ k.addr + k.size

variable {bitmap : ℕ → BitVec 64} {U U' : Chunk → Prop} {c fc k : Chunk} {page ptr size : ℕ}

theorem overlaps_iff : k.Overlaps page ↔
    k.addr < pageAddr page + bitmapGranularity ∧ pageAddr page < k.addr + k.size := by
  simp only [Chunk.Overlaps, pageAddr, Nat.add_mul, Nat.one_mul]
  omega

/-! ## Setting bits -/

/-- `setBitmap` sets the bits of the pages of the range. -/
theorem pageSet_setBitmap (m : HeapMemory) (hbase : baseAddress ≤ ptr)
    (hsmall : ptr + size < 2 ^ 64) :
    pageSet (m.setBitmap ptr size).bitmap page = true ↔
      pageSet m.bitmap page = true ∨ Chunk.Overlaps ⟨ptr, size, true⟩ page := by
  have hrange : ptr / bitmapGranularity * bitmapGranularity ≤ pageAddr page ∧
      pageAddr page < ptr + size ↔ Chunk.Overlaps ⟨ptr, size, true⟩ page := by
    simp only [overlaps_iff, pageAddr, baseAddress, bitmapGranularity] at *
    omega
  rw [HeapMemory.setBitmap, pageSet_markPages m true size hbase page, Nat.mod_eq_of_lt hsmall]
  by_cases hin : Chunk.Overlaps ⟨ptr, size, true⟩ page
  · rw [if_pos (hrange.mpr hin)]
    simp [hin]
  · rw [if_neg fun h => hin (hrange.mp h)]
    simp [hin]

/-- Adding a chunk. -/
theorem ExactFor.set {m : HeapMemory} (h : ExactFor m.bitmap U) (hbase : baseAddress ≤ ptr)
    (hsmall : ptr + size < 2 ^ 64) (hU : ∀ k, U' k ↔ U k ∨ k = ⟨ptr, size, true⟩) :
    ExactFor (m.setBitmap ptr size).bitmap U' := by
  intro page
  rw [pageSet_setBitmap m hbase hsmall, h page]
  simp only [hU, or_and_right, exists_or, exists_eq_left]

/-- A chunk grows. -/
theorem ExactFor.grow {m : HeapMemory} (h : ExactFor m.bitmap U) (hc : U c)
    (hbase : baseAddress ≤ c.addr) (hlt : c.size < size) (hsmall : c.addr + size < 2 ^ 64)
    (hU : ∀ k, U' k ↔ (U k ∧ k ≠ c) ∨ k = ⟨c.addr, size, true⟩) :
    ExactFor (m.setBitmap (c.addr + c.size) (size - c.size)).bitmap U' := by
  intro page
  rw [pageSet_setBitmap m (by omega) (by omega), h page]
  -- the pages of the grown chunk are those of the chunk and of what it has grown by
  have hsplit : Chunk.Overlaps ⟨c.addr, size, true⟩ page ↔ c.Overlaps page ∨
      Chunk.Overlaps ⟨c.addr + c.size, size - c.size, true⟩ page := by
    simp only [overlaps_iff, pageAddr, bitmapGranularity]
    omega
  simp only [hU, or_and_right, exists_or, exists_eq_left, hsplit]
  constructor
  · rintro (⟨k, hk, hpage⟩ | hpage)
    · by_cases hkc : k = c
      · exact .inr (.inl (hkc ▸ hpage))
      · exact .inl ⟨k, ⟨hk, hkc⟩, hpage⟩
    · exact .inr (.inr hpage)
  · rintro (⟨k, ⟨hk, -⟩, hpage⟩ | hpage | hpage)
    · exact .inl ⟨k, hk, hpage⟩
    · exact .inl ⟨c, hc, hpage⟩
    · exact .inr hpage

/-! ## Clearing bits -/

/-- Clearing the pages from `lb` to `ub`; the size of the range is computed in 64 bits. -/
theorem pageSet_unsetRange (m : HeapMemory) {lb ub n : ℕ} (hbase : baseAddress ≤ lb)
    (halign : lb % bitmapGranularity = 0) (hlb : lb < 2 ^ 64) (hub : ub < 2 ^ 64)
    (hn : n = (ub + 2 ^ 64 - lb) % 2 ^ 64) :
    pageSet (if n > 0 then m.unsetBitmap lb n else m).bitmap page =
      if lb ≤ pageAddr page ∧ pageAddr page < ub then false else pageSet m.bitmap page := by
  have hstart : lb / bitmapGranularity * bitmapGranularity = lb := by
    simp only [bitmapGranularity] at *
    omega
  by_cases hpos : n > 0
  · have hend : (lb + n) % 2 ^ 64 = ub := by omega
    rw [if_pos hpos, HeapMemory.unsetBitmap, pageSet_markPages m false n hbase page, hend, hstart]
  · have hempty : ¬ (lb ≤ pageAddr page ∧ pageAddr page < ub) := by omega
    rw [if_neg hpos, if_neg hempty]

/-- The pages that `dealloc` clears, if the free chunk is not smaller than a page. -/
theorem unsetFreed_large (chunk chunkSize a : ℕ) {n : ℕ} (hlarge : ¬ n < bitmapGranularity) :
    ∃ lb ub size,
      (lb = if chunk / bitmapGranularity * bitmapGranularity < a
        then chunk / bitmapGranularity * bitmapGranularity + bitmapGranularity
        else chunk / bitmapGranularity * bitmapGranularity) ∧
      (ub = if (chunk + chunkSize) / bitmapGranularity * bitmapGranularity + bitmapGranularity ≤ a + n
        then (chunk + chunkSize) / bitmapGranularity * bitmapGranularity + bitmapGranularity
        else (chunk + chunkSize) / bitmapGranularity * bitmapGranularity) ∧
      size = (ub + 2 ^ 64 - lb) % 2 ^ 64 ∧
      ∀ m : HeapMemory, ListState.unsetFreed m chunk chunkSize a n =
        if size > 0 then m.unsetBitmap lb size else m :=
  ⟨_, _, _, rfl, rfl, rfl, fun _ => if_neg hlarge⟩

/-- The pages that `dealloc` clears are enclosed by the free chunk, and they include those on which the
freed chunk has a byte. -/
theorem pageSet_unsetFreed (page : ℕ) (hbase : baseAddress ≤ fc.addr)
    (hlo : fc.addr ≤ c.addr) (hhi : c.addr + c.size ≤ fc.addr + fc.size)
    (hsmall : fc.addr + fc.size + bitmapGranularity < 2 ^ 64) :
    ∃ cleared : Prop, (fc.Encloses page → c.Overlaps page → cleared) ∧
      (cleared → fc.Encloses page) ∧ ∀ m : HeapMemory,
        (pageSet (ListState.unsetFreed m c.addr c.size fc.addr fc.size).bitmap page = true ↔
          pageSet m.bitmap page = true ∧ ¬ cleared) := by
  rw [overlaps_iff, Chunk.Encloses]
  by_cases hlarge : fc.size < bitmapGranularity
  · -- the free chunk is smaller than a page
    refine ⟨False, fun h => by omega, False.elim, fun m => ?_⟩
    rw [ListState.unsetFreed, if_pos hlarge]
    simp
  · obtain ⟨lb, ub, n, hlb, hub, hn, hunset⟩ := unsetFreed_large c.addr c.size fc.addr hlarge
    have hrange : baseAddress ≤ lb ∧ lb % bitmapGranularity = 0 ∧ lb < 2 ^ 64 ∧ ub < 2 ^ 64 := by
      split at hlb <;> split at hub <;> simp only [bitmapGranularity, baseAddress] at * <;> omega
    refine ⟨lb ≤ pageAddr page ∧ pageAddr page < ub, fun henc hover => ?_, fun hin => ?_, fun m => ?_⟩
    · split at hlb <;> split at hub <;>
        simp only [pageAddr, bitmapGranularity, baseAddress] at * <;> omega
    · split at hlb <;> split at hub <;>
        simp only [pageAddr, bitmapGranularity, baseAddress] at * <;> omega
    · rw [hunset, pageSet_unsetRange m hrange.1 hrange.2.1 hrange.2.2.1 hrange.2.2.2 hn]
      clear hlb hub
      split <;> simp [*]

/-- Of two neighbours one is in use. -/
theorem BlockOk.used_of_next {hdr : ℕ → ChunkHeader} {b : ℕ} {ks : List Chunk} {k' : Chunk}
    (h : BlockOk none hdr b ks) (hk : k ∈ ks) (hk' : k' ∈ ks) (hnext : k'.addr = k.addr + k.size) :
    k.used = true ∨ k'.used = true := by
  obtain ⟨L, R, rfl⟩ := List.append_of_mem hk
  obtain ⟨R', rfl⟩ := h.tiles.next (fun x hx => (h.sizes x hx).1) hk' hnext
  have hpair := (List.isChain_cons_cons.mp (List.isChain_append.mp h.pairs).2.1).1
  exact (hpair.resolve_left (by simp)).2

/-- A page that a free chunk shares has a byte of a neighbour, which is in use. -/
theorem BlockOk.shared_page {hdr : ℕ → ChunkHeader} {b : ℕ} {ks : List Chunk}
    (h : BlockOk none hdr b ks) (hb : b % blockSize = 0) (hfc : fc ∈ ks) (hfree : fc.used = false)
    (hpage : fc.Overlaps page) (hshared : ¬ fc.Encloses page) :
    ∃ k ∈ ks, k.used = true ∧ k.Overlaps page := by
  obtain ⟨hlo, hhi⟩ := h.bounds hfc
  rw [overlaps_iff] at hpage
  rw [Chunk.Encloses] at hshared
  -- the page lies inside the block
  have hin : b ≤ pageAddr page ∧ pageAddr page + bitmapGranularity ≤ b + blockSize := by
    simp only [pageAddr, baseAddress, blockSize, bitmapGranularity] at *
    omega
  by_cases hleft : pageAddr page < fc.addr
  · -- the last byte before the free chunk
    obtain ⟨k, hk, hklo, hkhi⟩ := h.tiles.exists_mem (p := fc.addr - 1) (by omega) (by omega)
    have hdisj := h.tiles.disjoint hk hfc (by omega)
    have hused := h.used_of_next hk hfc (by omega)
    refine ⟨k, hk, hused.resolve_right (by simp [hfree]), ?_⟩
    rw [overlaps_iff]
    omega
  · -- the first byte behind it
    obtain ⟨k, hk, hklo, hkhi⟩ := h.tiles.exists_mem (p := fc.addr + fc.size) (by omega) (by omega)
    have hpos := (h.sizes fc hfc).1
    have hne : fc.addr ≠ k.addr := fun heq => by
      obtain rfl := h.eq_of_addr_eq hfc hk heq
      omega
    have hdisj := h.tiles.disjoint hfc hk hne
    have hused := h.used_of_next hfc hk (by omega)
    refine ⟨k, hk, hused.resolve_left (by simp [hfree]), ?_⟩
    rw [overlaps_iff]
    omega

section Unset

variable (hbase : baseAddress ≤ fc.addr) (hlo : fc.addr ≤ c.addr)
  (hhi : c.addr + c.size ≤ fc.addr + fc.size)
  (hsmall : fc.addr + fc.size + bitmapGranularity < 2 ^ 64)
  (hapart : ∀ k, U' k → k.addr + k.size ≤ fc.addr ∨ fc.addr + fc.size ≤ k.addr)
  (hshared : ∀ page, fc.Overlaps page → ¬ fc.Encloses page → ∃ k, U' k ∧ k.Overlaps page)

include hbase hlo hhi hsmall hapart hshared

/-- Giving a chunk back: `U'` are the chunks in use besides it, and `fc` is the free chunk that it is
part of now. -/
theorem ExactFor.unset {m : HeapMemory} (h : ExactFor m.bitmap U) (hU : ∀ k, U' k ↔ U k ∧ k ≠ c) :
    ExactFor (ListState.unsetFreed m c.addr c.size fc.addr fc.size).bitmap U' := by
  intro page
  obtain ⟨cleared, hclears, hinside, hset⟩ := pageSet_unsetFreed page hbase hlo hhi hsmall
  rw [hset, h page]
  constructor
  · rintro ⟨⟨k, hk, hpage⟩, hstays⟩
    by_cases hkc : k = c
    · -- a page of the chunk that stays set
      subst hkc
      refine hshared page ?_ fun henc => hstays (hclears henc hpage)
      rw [overlaps_iff] at hpage ⊢
      omega
    · exact ⟨k, (hU k).mpr ⟨hk, hkc⟩, hpage⟩
  · rintro ⟨k, hk, hpage⟩
    refine ⟨⟨k, ((hU k).mp hk).1, hpage⟩, fun hclear => ?_⟩
    have henc := hinside hclear
    have hsep := hapart k hk
    rw [overlaps_iff] at hpage
    rw [Chunk.Encloses] at henc
    omega

/-- Moving a chunk to a new place: its bits are cleared before those of the new place are set. -/
theorem ExactFor.move {m : HeapMemory} (h : ExactFor m.bitmap U) (hptr : baseAddress ≤ ptr)
    (hend : ptr + size < 2 ^ 64) (hU : ∀ k, U' k ↔ (U k ∨ k = ⟨ptr, size, true⟩) ∧ k ≠ c)
    (hnew : c ≠ ⟨ptr, size, true⟩) :
    ExactFor ((ListState.unsetFreed m c.addr c.size fc.addr fc.size).setBitmap ptr size).bitmap
      U' := by
  have hset : ExactFor (m.setBitmap ptr size).bitmap (fun k => U k ∨ k = ⟨ptr, size, true⟩) :=
    h.set hptr hend fun _ => Iff.rfl
  have hunset := hset.unset hbase hlo hhi hsmall hapart hshared hU
  -- the new place has no byte on the pages that are cleared
  intro page
  rw [← hunset page, pageSet_setBitmap _ hptr hend]
  obtain ⟨cleared, -, hinside, hpages⟩ := pageSet_unsetFreed page hbase hlo hhi hsmall
  have hout : Chunk.Overlaps ⟨ptr, size, true⟩ page → ¬ cleared := fun hpage hclear => by
    have henc := hinside hclear
    have hsep := hapart _ ((hU _).mpr ⟨.inr rfl, hnew.symm⟩)
    rw [overlaps_iff] at hpage
    rw [Chunk.Encloses] at henc
    omega
  rw [hpages, hpages, pageSet_setBitmap _ hptr hend]
  tauto

end Unset

end Pronto
