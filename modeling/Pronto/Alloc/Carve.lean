import Mathlib.Data.List.Perm.Subperm
import Pronto.Alloc.Steps

/-!
# Cutting a chunk from a free one

`findBestMatch` looks for a free chunk that is large enough (`search_spec`), and cuts the requested
chunk from its end or from its front. The cut replaces one free chunk of the layout by a used one and,
unless the sizes agree, a free remainder: `carveBack`, `carveFront` and `carveWhole`, each stated for
the state at the end of `alloc`.

A remainder behind the new chunk gets its flag `last` from the size that its header held before. If
this happens to be wrong, the remainder is a flaw of the layout.
-/

namespace Pronto

open Function Linked Tiling

variable {s s' : ListState} {layout : ℕ → List Chunk} {chains : ℕ → List ℕ} {size : ℕ}

/-! ## The search -/

namespace ListInv

variable {flaw : Option ℕ}

/-- The chunks in the buckets lie in the blocks of the list. -/
theorem chain_owned (h : ListInv flaw s layout chains) {i a : ℕ} (ha : a ∈ chains i) :
    Owned s.fl.blocks a := by
  obtain ⟨k, ⟨b, hb, hk⟩, rfl, -⟩ := (h.filed i a).mp ha
  exact h.owned hb hk

/-- No bucket holds more chunks than fit into the blocks. -/
theorem chain_length (h : ListInv flaw s layout chains) (i : ℕ) :
    (chains i).length ≤ s.maxChunks := by
  have hsub : chains i ⊆ s.fl.blocks.flatMap fun b => (layout b).map Chunk.addr := by
    intro a ha
    obtain ⟨k, ⟨b, hb, hk⟩, rfl, -⟩ := (h.filed i a).mp ha
    exact List.mem_flatMap.mpr ⟨b, hb, List.mem_map_of_mem hk⟩
  have hcount : ∀ bs : List ℕ, (∀ b ∈ bs, b ∈ s.fl.blocks) →
      (bs.flatMap fun b => (layout b).map Chunk.addr).length ≤ bs.length * (blockSize / 64) := by
    intro bs hbs
    induction bs with
    | nil => simp
    | cons b bs ih =>
      have hok := h.blockOk b (hbs b (by simp))
      have hlen := hok.tiles.length_mul_le (k := 64) fun x hx => by
        have hsize := hok.sizes x hx
        omega
      have hrest := ih fun x hx => hbs x (by simp [hx])
      simp only [List.flatMap_cons, List.length_append, List.length_map, List.length_cons]
      dsimp only [blockSize] at *
      omega
  exact (List.subperm_of_subset (h.family.nodup i) hsub).length_le.trans (hcount _ fun _ hb => hb)

end ListInv

namespace ListState

/-- The inner loop walks along the bucket and finds a chunk of it. -/
theorem searchBucket_spec {xs : List ℕ} {before fc fuel : ℕ}
    (hlist : IsList s.mem.links before fc xs) (howned : ∀ x ∈ xs, Owned s.fl.blocks x)
    (hfuel : xs.length < fuel) :
    ∃ r s', searchBucket size fuel s fc = some (r, s') ∧ ReadOnly s s' ∧
      (r ≠ 0 → r ∈ xs ∧ size ≤ (s.hdr r).size) := by
  -- by induction on the bucket; every chunk that is looked at is the list's own
  induction xs generalizing s before fc fuel with
  | nil =>
    obtain ⟨fuel, rfl⟩ := Nat.exists_eq_add_one_of_ne_zero (Nat.ne_zero_of_lt hfuel)
    obtain rfl : fc = 0 := hlist
    rw [searchBucket]
    refine ⟨0, _, if_neg fun hboth => hboth.2 rfl, ⟨rfl, rfl, rfl, ⟨rfl, rfl, rfl, rfl⟩, id⟩,
      fun hne => absurd rfl hne⟩
  | cons x xs ih =>
    obtain ⟨fuel, rfl⟩ := Nat.exists_eq_add_one_of_ne_zero (Nat.ne_zero_of_lt hfuel)
    obtain ⟨rfl, hx, -, hrest⟩ := hlist
    rw [searchBucket]
    dsimp only
    set s₁ : ListState :=
      { s with fl := { s.fl with chainLookups := (s.fl.chainLookups + 1) % 2 ^ 64 } } with hs₁
    have hread : ReadOnly s s₁ := ⟨rfl, rfl, rfl, ⟨rfl, rfl, rfl, rfl⟩, id⟩
    split
    · have htouch : ReadOnly s (s₁.touch fc) :=
        hread.trans (readOnly_touch (howned fc (by simp)))
      split
      · rename_i hle
        exact ⟨fc, s₁.touch fc, rfl, htouch, fun _ => ⟨by simp, hle⟩⟩
      · obtain ⟨r, s', hr, hread', hfound⟩ := ih (s := s₁.touch fc) hrest
          (fun y hy => howned y (by simp [hy])) (by simpa using hfuel)
        refine ⟨r, s', hr, htouch.trans hread', fun hne => ?_⟩
        obtain ⟨hmem, hle⟩ := hfound hne
        exact ⟨by simp [hmem], hle⟩
    · exact ⟨0, s₁, rfl, hread, fun hne => absurd rfl hne⟩

/-- The outer loop finds a chunk in one of the buckets. -/
theorem searchBuckets_spec {flaw : Option ℕ} (h : ListInv flaw s layout chains) (buckets : List ℕ) :
    ∃ r s', searchBuckets size buckets s = some (r, s') ∧ ReadOnly s s' ∧
      ∀ i fc, r = some (i, fc) → i ∈ buckets ∧ fc ∈ chains i ∧ size ≤ (s.hdr fc).size := by
  induction buckets generalizing s with
  | nil => exact ⟨none, s, rfl, .refl s, by simp⟩
  | cons i rest ih =>
    have hlen := h.chain_length i
    obtain ⟨fc, s₁, hsearch, hread, hfound⟩ := searchBucket_spec
      (h.family.isList i) (fun x hx => h.chain_owned hx)
      (show (chains i).length < s.maxChunks + 1 by omega)
    rw [searchBuckets, hsearch]
    dsimp only
    split
    · rename_i hne
      obtain ⟨hmem, hle⟩ := hfound hne
      refine ⟨_, s₁, rfl, hread, fun j gc heq => ?_⟩
      obtain ⟨rfl, rfl⟩ : i = j ∧ fc = gc := by simpa using heq
      exact ⟨by simp, hmem, hle⟩
    · obtain ⟨r, s', hr, hread', hfound'⟩ := ih (hread.listInv h)
      refine ⟨r, s', hr, hread.trans hread', fun j gc heq => ?_⟩
      obtain ⟨hj, hmem, hle⟩ := hfound' j gc heq
      have hhdr : s₁.hdr = s.hdr := hread.hdr_eq
      rw [hhdr] at hle
      exact ⟨by simp [hj], hmem, hle⟩

/-- The search finds a chunk of a bucket that is large enough, or nothing. -/
theorem search_spec {flaw : Option ℕ} (h : ListInv flaw s layout chains) :
    ∃ r s', s.search size = some (r, s') ∧ ReadOnly s s' ∧
      ∀ i fc, r = some (i, fc) →
        i < totalAllocBuckets ∧ fc ∈ chains i ∧ size ≤ (s.hdr fc).size := by
  obtain ⟨r, s', hr, hread, hfound⟩ := searchBuckets_spec h
    (List.range' (findBucket size) (totalAllocBuckets - findBucket size))
  refine ⟨r, s', hr, hread, fun i fc heq => ?_⟩
  obtain ⟨hi, hmem, hle⟩ := hfound i fc heq
  rw [List.mem_range'_1] at hi
  exact ⟨by omega, hmem, hle⟩

/-! ## The two ways to split -/

section Split

variable {fc remainder e bucket : ℕ}

/-- What the split at the end of `fc` writes. -/
theorem splitBack_spec (he : e = fc + (s.hdr fc).size) (hpos : 0 < remainder)
    (hlt : remainder < (s.hdr fc).size) :
    ∃ s', s.splitBack fc remainder = (fc + remainder, s') ∧
      s'.hdr fc = { (s.hdr fc).withSize remainder with last := false } ∧
      s'.hdr (fc + remainder) =
        { s.hdr (fc + remainder) with prevOffset := chunkOffset fc, used := false } ∧
      s'.hdr e = (s.hdr e).withPrev
        (if (s.hdr fc).last then (s.hdr e).prevOffset else chunkOffset (fc + remainder)) ∧
      (∀ x, x < fc ∨ e < x → s'.hdr x = s.hdr x) ∧
      s'.mem.links = s.mem.links ∧ s'.mem.bitmap = s.mem.bitmap ∧ s'.fl = s.fl ∧
      (TouchedOwned s → Owned s.fl.blocks fc → Owned s.fl.blocks (fc + remainder) →
        ((s.hdr fc).last = false → Owned s.fl.blocks e) → TouchedOwned s') := by
  have hfc : fc ≠ fc + remainder := by omega
  have hfce : e ≠ fc := by omega
  have hce : e ≠ fc + remainder := by omega
  refine ⟨_, rfl, ?_⟩
  set s₁ := s.modify (fc + remainder) fun h =>
    { h with prevOffset := chunkOffset fc, used := false } with hs₁
  have hfc₁ : s₁.hdr fc = s.hdr fc := update_of_ne hfc _ _
  -- the successor of `fc` starts at `e`
  have hnext : (if !(s₁.hdr fc).last then
      s₁.modify (s₁.nextChunk fc) fun h => h.withPrev (chunkOffset (fc + remainder)) else s₁) =
      if (s.hdr fc).last = false then
        s₁.modify e fun h => h.withPrev (chunkOffset (fc + remainder)) else s₁ := by
    rw [nextChunk, hfc₁]
    cases (s.hdr fc).last <;> simp [he]
  obtain ⟨hhdr₂, hfl₂, hlinks₂, hbm₂, htouch₂⟩ := modify_if (s := s₁) (a := e)
    (c := (s.hdr fc).last = false) (v := chunkOffset (fc + remainder))
  dsimp only
  rw [hnext]
  set s₂ := if (s.hdr fc).last = false then
    s₁.modify e fun h => h.withPrev (chunkOffset (fc + remainder)) else s₁ with hs₂
  have he₁ : s₁.hdr e = s.hdr e := update_of_ne hce _ _
  rw [he₁] at hhdr₂
  simp only [hdr_modify, links_modify, fl_modify, hhdr₂]
  refine ⟨?_, ?_, ?_, fun x hx => ?_, hlinks₂, hbm₂, hfl₂, fun ht hfcown hcown heown => ?_⟩
  · rw [update_self, update_of_ne (Ne.symm hfce), hfc₁]
  · rw [update_of_ne (Ne.symm hfc), update_of_ne (Ne.symm hce)]
    exact update_self _ _ _
  · rw [update_of_ne hfce, update_self]
    cases (s.hdr fc).last <;> simp
  · rw [update_of_ne (by omega), update_of_ne (by omega)]
    exact update_of_ne (by omega) _ _
  · have h₁ : TouchedOwned s₁ := touchedOwned_modify ht hcown
    have h₂ : TouchedOwned s₂ := htouch₂ h₁ heown
    exact touchedOwned_modify h₂ (by rw [hfl₂]; exact hfcown)

/-- Without a remainder, the chunk leaves its bucket. -/
theorem splitFront_whole : s.splitFront bucket fc size 0 = (fc, s.unlinkFrom bucket fc) := rfl

/-- What the split at the front of `fc` writes. The remainder is filed under its new size; its flag
`last` comes from the size that was in its header. -/
theorem splitFront_spec (hfamily : Family s.mem.links s.fl.buckets chains)
    (hmem : fc ∈ chains bucket) (he : e = fc + (s.hdr fc).size) (hsize : 0 < size)
    (hpos : 0 < remainder) (hsum : size + remainder = (s.hdr fc).size)
    (hsmall : remainder < 0x20000000) (hnew : ∀ i, fc + size ∉ chains i) :
    ∃ s', s.splitFront bucket fc size remainder = (fc, s') ∧
      s'.hdr fc = s.hdr fc ∧
      s'.hdr (fc + size) = ⟨chunkOffset fc, s.fl.myId,
        isLastChunkOfBlock (fc + size) (s.hdr (fc + size)).size, false, (s.hdr (fc + size)).jumbo,
        remainder⟩ ∧
      s'.hdr e = (s.hdr e).withPrev
        (if isLastChunkOfBlock (fc + size) (s.hdr (fc + size)).size then (s.hdr e).prevOffset
          else chunkOffset (fc + size)) ∧
      Frame s s' chains fc e ∧ SameRest s s' ∧
      (∃ chains', Family s'.mem.links s'.fl.buckets chains' ∧
        ∀ i a, a ∈ chains' i ↔ (a ∈ chains i ∧ a ≠ fc) ∨ (a = fc + size ∧ i = findBucket remainder)) ∧
      (TouchedOwned s → (∀ i, ∀ x ∈ chains i, Owned s.fl.blocks x) → Owned s.fl.blocks (fc + size) →
        (isLastChunkOfBlock (fc + size) (s.hdr (fc + size)).size = false → Owned s.fl.blocks e) →
        TouchedOwned s') := by
  have hfc : fc ≠ fc + size := by omega
  have hfce : fc ≠ e := by omega
  have hce : e ≠ fc + size := by omega
  have hmod : remainder % 0x20000000 = remainder := Nat.mod_eq_of_lt hsmall
  obtain ⟨hhdr₁, hrest₁, hfamily₁, htouch₁⟩ := unlinkFrom_spec hfamily hmem
  rw [splitFront, if_pos hpos]
  dsimp only
  set s₁ := s.unlinkFrom bucket fc with hs₁
  rw [← hhdr₁]
  set flag := isLastChunkOfBlock (fc + size) (s₁.hdr (fc + size)).size with hflag
  set s₂ := s₁.modify (fc + size) fun h =>
    { h.withSize remainder with
      prevOffset := chunkOffset fc
      freeListId := s₁.fl.myId
      last := isLastChunkOfBlock (fc + size) h.size
      used := false } with hs₂
  have hrem₂ : s₂.hdr (fc + size) = ⟨chunkOffset fc, s.fl.myId, flag, false,
      (s₁.hdr (fc + size)).jumbo, remainder⟩ := by
    rw [hs₂, hdr_modify, update_self, hflag, ← hrest₁.myId_eq]
    simp only [ChunkHeader.withSize, hmod]
  -- the header behind the remainder
  have hend : fc + size + (s₂.hdr (fc + size)).size = e := by
    rw [hrem₂, he, ← hsum, Nat.add_assoc]
  rw [hend, hrem₂]
  dsimp only
  obtain ⟨hhdr₃, hfl₃, hlinks₃, hbm₃, htouch₃⟩ := modify_if (s := s₂) (a := e)
    (c := (!flag) = true) (v := chunkOffset (fc + size))
  set s₃ := if (!flag) = true then s₂.modify e fun h => h.withPrev (chunkOffset (fc + size)) else s₂
    with hs₃
  have he₂ : s₂.hdr e = s₁.hdr e := update_of_ne hce _ _
  rw [he₂] at hhdr₃
  have hrem₃ : s₃.hdr (fc + size) = s₂.hdr (fc + size) := by
    rw [hhdr₃, update_of_ne (Ne.symm hce)]
  rw [hrem₃, hrem₂]
  dsimp only
  have hfamily₃ : Family s₃.mem.links s₃.fl.buckets
      (Function.update chains bucket ((chains bucket).erase fc)) := by
    rw [hlinks₃, hfl₃]
    exact hfamily₁
  have hnew₃ : ∀ i, fc + size ∉ Function.update chains bucket ((chains bucket).erase fc) i := by
    intro i hi
    exact hnew i ((hfamily.mem_unlink hmem).mp hi).1
  have hne0 : fc + size ≠ 0 := by omega
  obtain ⟨hhdr₄, hrest₄, hfamily₄, htouch₄⟩ :=
    addFreeChunk_spec remainder hfamily₃ hne0 hnew₃
  have hlinks₄ : ∀ x, (∀ i, x ∉ chains i) → x < fc ∨ e ≤ x →
      SameLinks s (s₃.addFreeChunk (fc + size) remainder) x := by
    intro x hx hout
    have h₁ : SameLinks s s₃ x := by
      rw [SameLinks, hlinks₃]
      exact unlinkFrom_links hfamily hmem (hx bucket)
    refine h₁.trans (addFreeChunk_links _ hfamily₃ hne0 hnew₃ (by omega) fun i hi => ?_)
    exact hx i ((hfamily.mem_unlink hmem).mp hi).1
  have hrest₃ : SameRest s₁ s₃ := ⟨hbm₃, by rw [hfl₃]; rfl, by rw [hfl₃]; rfl, by rw [hfl₃]; rfl⟩
  refine ⟨_, rfl, ?_, ?_, ?_, ⟨fun x hx => ?_, hlinks₄⟩, (hrest₁.trans hrest₃).trans hrest₄,
    ⟨_, hfamily₄, fun i a => ?_⟩, fun ht hchains hown hend => ?_⟩
  · rw [hhdr₄, hhdr₃, update_of_ne hfce]
    exact update_of_ne hfc _ _
  · rw [hhdr₄, hrem₃, hrem₂]
  · rw [hhdr₄, hhdr₃, update_self]
    cases flag <;> rfl
  · rw [hhdr₄, hhdr₃, update_of_ne (by omega), ← hhdr₁]
    exact update_of_ne (by omega) _ _
  · rw [Family.mem_push, hfamily.mem_unlink hmem]
  · have hb₁ := hrest₁.blocks_eq
    have hb₃ := (hrest₁.trans hrest₃).blocks_eq
    have h₁ : TouchedOwned s₁ := htouch₁ ht (hchains bucket)
    have h₂ : TouchedOwned s₂ := touchedOwned_modify h₁ (by rw [hb₁]; exact hown)
    have h₃ : TouchedOwned s₃ := htouch₃ h₂ fun hflag' => by
      show Owned s₁.fl.blocks e
      rw [hb₁]
      exact hend (by simpa using hflag')
    refine htouch₄ h₃ (by rw [hb₃]; exact hown) fun x hx => ?_
    rw [hb₃]
    exact hchains _ x ((hfamily.mem_unlink hmem).mp hx).1

end Split

/-- The end of `alloc` writes one header. -/
theorem hdr_markUsed (s : ListState) (chunk : ℕ) (hsmall : size < 0x20000000) :
    (s.markUsed chunk size).hdr = Function.update s.hdr chunk
      ⟨(s.hdr chunk).prevOffset, s.fl.myId, isLastChunkOfBlock chunk size, true,
        (s.hdr chunk).jumbo, size⟩ := by
  show Function.update s.hdr chunk _ = _
  simp only [ChunkHeader.withSize, Nat.mod_eq_of_lt hsmall]
  rfl

theorem touchedOwned_markUsed {chunk : ℕ} (h : TouchedOwned s) (hown : Owned s.fl.blocks chunk) :
    TouchedOwned (s.markUsed chunk size) :=
  touchedOwned_modify h hown

end ListState

/-! ## The layout after a split -/

section Carve

variable {b bucket : ℕ} {k : Chunk} {L R : List Chunk} (h : ListInv none s layout chains)
  (hb : b ∈ s.fl.blocks) (hlayout : layout b = L ++ [k] ++ R) (hfree : k.used = false)
  (hpos : 0 < size) (h64 : size % 64 = 0)

namespace ListInv

include h hb hlayout

/-- What the headers say about a free chunk and its neighbours. -/
theorem free_chunk (hfree : k.used = false) :
    ((s.hdr k.addr).size = k.size ∧ (s.hdr k.addr).used = false ∧
      (s.hdr k.addr).last = decide (k.addr + k.size = b + blockSize)) ∧
    (k.size % 64 = 0 ∧ k.size ≤ blockSize ∧ b ≤ k.addr ∧ k.addr + k.size ≤ b + blockSize ∧
      b % blockSize = 0) ∧
    (∀ p ∈ L.getLast?, p.used = true) ∧
    (∀ n ∈ R.head?, n.addr = k.addr + k.size ∧ n.used = true ∧
      (s.hdr n.addr).prevOffset = chunkOffset k.addr) ∧
    (R = [] ↔ k.addr + k.size = b + blockSize) := by
  have hok := h.blockOk b hb
  have hkmem : k ∈ layout b := by rw [hlayout]; simp
  obtain ⟨hksize, hkused⟩ := hok.describes k hkmem
  have hkle := hok.size_le hkmem
  have hklast := hok.last k hkmem (by simp)
  have hk64 := (hok.sizes k hkmem).2
  rw [hlayout] at hok
  obtain ⟨⟨hbk, -, heb⟩, -, hhead, -, hnil⟩ :=
    hok.around (W := [k]) (a := k.addr) (e := k.addr + k.size) ⟨rfl, rfl⟩ (by simp)
  refine ⟨⟨hksize, hkused.trans hfree, hklast⟩, ⟨hk64, hkle, hbk, heb, (h.aligned b hb).1⟩,
    fun p hp => ?_, fun n hn => ?_, hnil⟩
  · obtain ⟨-, hused⟩ := (hok.left_pair hp (y := k) rfl).resolve_left (by simp)
    exact hused.resolve_right (by simp [hfree])
  · obtain ⟨hprev, hused⟩ := (hok.right_pair (by simp) (x := k) rfl hn).resolve_left (by simp)
    exact ⟨hhead n hn, hused.resolve_left (by simp [hfree]), hprev⟩

include hfree hpos h64

/-- **Cutting the chunk from the end.** -/
theorem carveBack (hle : size ≤ k.size) (hbucket : findBucket k.size = bucket)
    (hlt : bucket < totalAllocBuckets)
    (hstays : ListState.staysInBucket bucket (k.size - size) = true) :
    ∃ s₁, s.splitBack k.addr (k.size - size) = (k.addr + (k.size - size), s₁) ∧
      (s₁.hdr (k.addr + (k.size - size))).used = false ∧ SameRest s s₁ ∧
      (TouchedOwned s → TouchedOwned s₁) ∧
      Frame s ((s₁.touch (k.addr + (k.size - size))).markUsed (k.addr + (k.size - size)) size) chains
        k.addr (k.addr + k.size) ∧
      ListInv none ((s₁.touch (k.addr + (k.size - size))).markUsed (k.addr + (k.size - size)) size)
        (Function.update layout b
          (L ++ [⟨k.addr, k.size - size, false⟩, ⟨k.addr + (k.size - size), size, true⟩] ++ R))
        chains := by
  have hkmem : k ∈ layout b := by rw [hlayout]; simp
  obtain ⟨⟨hksize, hkused, hklast⟩, ⟨hk64, hkle, hbk, heb, hmod⟩, hleft, hright, hnil⟩ :=
    h.free_chunk hb hlayout hfree
  have hsmall : blockSize < 0x20000000 := by decide
  have hrem : 0 < k.size - size := by
    simp only [ListState.staysInBucket, Bool.and_eq_true, decide_eq_true_eq] at hstays
    omega
  set remainder := k.size - size with hremainder
  set chunk := k.addr + remainder with hchunk
  obtain ⟨s₁, hsplit, hfc, hc, hend, hout, hlinks, hbm, hfl, htouch⟩ :=
    ListState.splitBack_spec (s := s) (e := k.addr + k.size)
      (congrArg (k.addr + ·) hksize.symm) hrem (by rw [hksize]; omega)
  rw [← hchunk] at hc hend
  have hhdr := ListState.hdr_markUsed (s₁.touch chunk) chunk
    (show size < 0x20000000 by omega)
  rw [ListState.hdr_touch] at hhdr
  set s' := (s₁.touch chunk).markUsed chunk size
  have hfc' : s'.hdr k.addr = { (s.hdr k.addr).withSize remainder with last := false } := by
    rw [hhdr, update_of_ne (by omega), hfc]
  have hc' : s'.hdr chunk = ⟨chunkOffset k.addr, s₁.fl.myId, isLastChunkOfBlock chunk size, true,
      (s₁.hdr chunk).jumbo, size⟩ := by
    rw [hhdr, update_self, hc]
    rfl
  have hend' : s'.hdr (k.addr + k.size) = s₁.hdr (k.addr + k.size) := by
    rw [hhdr, update_of_ne (by omega)]
  have hframe : Frame s s' chains k.addr (k.addr + k.size) := by
    refine ⟨fun x hx => ?_, fun x _ _ => ?_⟩
    · rw [hhdr, update_of_ne (by omega), hout x hx]
    · show SameLinks s s₁ x
      rw [SameLinks, hlinks]
      exact ⟨rfl, rfl⟩
  refine ⟨s₁, hsplit, by rw [hc], ⟨hbm, by rw [hfl], by rw [hfl], by rw [hfl]⟩, fun ht => ?_, hframe,
    ?_⟩
  · -- the header behind the chunk is touched only when the chunk is not the last one
    refine htouch ht (h.owned hb hkmem) ⟨b, hb, by omega, by omega⟩ fun hlast => ?_
    have hne := of_decide_eq_false (hklast.symm.trans hlast)
    exact ⟨b, hb, by omega, by omega⟩
  refine h.pair hb hlayout (by show s₁.fl.blocks = _; rw [hfl]) (W := [k]) (a := k.addr)
    (e := k.addr + k.size) ⟨rfl, rfl⟩ (by simp) (by simp) rfl rfl (by show chunk + size = _; omega)
    ⟨hrem, by show remainder % 64 = 0; omega⟩ ⟨hpos, h64⟩ ⟨?_, ?_⟩ ⟨by rw [hc'], by rw [hc']⟩ ?_
    (fun _ => ?_) ?_ ?_ (.inr rfl) hframe.hdr_eq ?_ (fun p hp => .inr (.inl (hleft p hp)))
    (fun n hn => .inr ⟨?_, .inl rfl⟩) ?_ fun i a => ?_
  · rw [hfc']
    exact Nat.mod_eq_of_lt (by omega)
  · rw [hfc']
    exact hkused
  · rw [hfc']
  · rw [hc']
    show isLastChunkOfBlock chunk size = _
    rw [isLastChunkOfBlock, Bool.beq_eq_decide_eq]
    refine decide_eq_decide.mpr ?_
    dsimp only [blockSize] at *
    omega
  · rw [hfc']
    rfl
  · rw [hc']
  · rw [hend', hend]
    exact ⟨rfl, rfl, rfl⟩
  · -- there is a successor, so the flag of the free chunk is not set
    have hlast : (s.hdr k.addr).last = false :=
      hklast.trans (decide_eq_false fun heq => by simp [hnil.mpr heq] at hn)
    rw [hend', hend, hlast]
    rfl
  · show Family s₁.mem.links s₁.fl.buckets chains
    rw [hlinks, hfl]
    exact h.family
  · -- the rest stays in its bucket, so no list changes
    have hfiled := h.mem_chain_iff hb hkmem hfree (i := i)
    have hsame := findBucket_of_stays hbucket hlt (by omega) hstays
    simp only [List.mem_singleton, forall_eq, hsame, Bool.true_eq_false, false_and, and_false,
      or_false, true_and]
    rcases eq_or_ne k.addr a with rfl | hne
    · simp [hfiled, hbucket]
    · simp [hne]

/-- **Cutting the chunk from the front.** The remainder is flawed if its old size gave it the wrong
flag. -/
theorem carveFront (hbucket : findBucket k.size = bucket) (hlt : size < k.size) {flaw' : Option ℕ}
    (hflaw' : flaw' =
      if isLastChunkOfBlock (k.addr + size) (s.hdr (k.addr + size)).size =
        isLastChunkOfBlock (k.addr + size) (k.size - size) then none else some (k.addr + size)) :
    ∃ s₁ chains', s.splitFront bucket k.addr size (k.size - size) = (k.addr, s₁) ∧
      (s₁.hdr k.addr).used = false ∧ SameRest s s₁ ∧
      (TouchedOwned s → flaw' = none → TouchedOwned s₁) ∧
      Frame s ((s₁.touch k.addr).markUsed k.addr size) chains k.addr (k.addr + k.size) ∧
      ListInv flaw' ((s₁.touch k.addr).markUsed k.addr size)
        (Function.update layout b
          (L ++ [⟨k.addr, size, true⟩, ⟨k.addr + size, k.size - size, false⟩] ++ R)) chains' ∧
      (flaw' ≠ none →
        (((s₁.touch k.addr).markUsed k.addr size).hdr (k.addr + size)).last ≠
          decide (k.addr + k.size = b + blockSize) ∧
        ∀ n ∈ R.head?, (((s₁.touch k.addr).markUsed k.addr size).hdr n.addr).prevOffset =
          chunkOffset k.addr) := by
  have hkmem : k ∈ layout b := by rw [hlayout]; simp
  obtain ⟨⟨hksize, hkused, -⟩, ⟨hk64, hkle, hbk, heb, hmod⟩, -, hright, hnil⟩ :=
    h.free_chunk hb hlayout hfree
  have hsmall : blockSize < 0x20000000 := by decide
  have hmem : k.addr ∈ chains bucket := (h.mem_chain_iff hb hkmem hfree).mpr hbucket
  have hnew : ∀ i, k.addr + size ∉ chains i := by
    intro i hi
    obtain ⟨k', hk', heq, -⟩ := (h.filed i _).mp hi
    have hne : k ≠ k' := by
      rintro rfl
      omega
    have hsep := h.disjoint ⟨b, hb, hkmem⟩ hk' hne
    obtain ⟨b', hb', hk'⟩ := hk'
    have hpos' := ((h.blockOk b' hb').sizes k' hk').1
    omega
  obtain ⟨s₁, hsplit, hfc, hrem, hend, hout, hrest, ⟨chains', hfamily, hchains⟩, htouch⟩ :=
    ListState.splitFront_spec (s := s) (e := k.addr + k.size) h.family hmem
      (congrArg (k.addr + ·) hksize.symm) hpos (Nat.sub_pos_of_lt hlt)
      (by rw [hksize]; omega) (by omega) hnew
  -- the flag as it should be
  have hflag : isLastChunkOfBlock (k.addr + size) (k.size - size) =
      decide (k.addr + k.size = b + blockSize) := by
    rw [isLastChunkOfBlock, Bool.beq_eq_decide_eq]
    refine decide_eq_decide.mpr ?_
    dsimp only [blockSize] at *
    omega
  rw [hflag] at hflaw'
  have hhdr := ListState.hdr_markUsed (s₁.touch k.addr) k.addr
    (show size < 0x20000000 by omega)
  rw [ListState.hdr_touch] at hhdr
  set flag := isLastChunkOfBlock (k.addr + size) (s.hdr (k.addr + size)).size
  set s' := (s₁.touch k.addr).markUsed k.addr size
  have hfc' : s'.hdr k.addr = ⟨(s.hdr k.addr).prevOffset, s₁.fl.myId,
      isLastChunkOfBlock k.addr size, true, (s₁.hdr k.addr).jumbo, size⟩ := by
    rw [hhdr, update_self, hfc]
    rfl
  have hrem' : s'.hdr (k.addr + size) = ⟨chunkOffset k.addr, s.fl.myId, flag, false,
      (s.hdr (k.addr + size)).jumbo, k.size - size⟩ := by
    rw [hhdr, update_of_ne (by omega), hrem]
  have hend' : s'.hdr (k.addr + k.size) = (s.hdr (k.addr + k.size)).withPrev
      (if flag then (s.hdr (k.addr + k.size)).prevOffset else chunkOffset (k.addr + size)) := by
    rw [hhdr, update_of_ne (by omega), hend]
  have hframe : Frame s s' chains k.addr (k.addr + k.size) := by
    refine ⟨fun x hx => ?_, hout.links_eq⟩
    rw [hhdr, update_of_ne (by omega), hout.hdr_eq x hx]
  -- behind the remainder there is a successor, unless the block ends
  have hnext : ∀ n ∈ R.head?, decide (k.addr + k.size = b + blockSize) = false := by
    intro n hn
    exact decide_eq_false fun heq => by simp [hnil.mpr heq] at hn
  refine ⟨s₁, chains', hsplit, by rw [hfc]; exact hkused, hrest, fun ht hnone => ?_, hframe, ?_,
    fun hflawed => ⟨?_, fun n hn => ?_⟩⟩
  · have hright : flag = decide (k.addr + k.size = b + blockSize) := by
      by_contra hne
      simp [hflaw', hne] at hnone
    refine htouch ht (fun i x hx => h.chain_owned hx) ⟨b, hb, by omega, by omega⟩ fun hlast => ?_
    have hne := of_decide_eq_false (hright.symm.trans hlast)
    exact ⟨b, hb, by omega, by omega⟩
  · refine h.pair hb hlayout hrest.blocks_eq (W := [k]) (a := k.addr) (e := k.addr + k.size)
      ⟨rfl, rfl⟩ (by simp) (by simp) rfl rfl (by show k.addr + size + (k.size - size) = _; omega)
      ⟨hpos, h64⟩ ⟨Nat.sub_pos_of_lt hlt, by show (k.size - size) % 64 = 0; omega⟩
      ⟨by rw [hfc'], by rw [hfc']⟩ ⟨by rw [hrem'], by rw [hrem']⟩ ?_ (fun hno => ?_) (by rw [hfc'])
      (by rw [hrem']) (.inl rfl) hframe.hdr_eq ?_ (fun p hp => .inr (.inr rfl)) (fun n hn => ?_)
      hfamily fun i a => ?_
    · rw [hfc']
      show isLastChunkOfBlock k.addr size = false
      rw [isLastChunkOfBlock, Bool.beq_eq_decide_eq]
      refine decide_eq_false ?_
      dsimp only [blockSize] at *
      omega
    · rw [hrem']
      show flag = _
      by_contra hne
      exact hno (by rw [hflaw', if_neg hne])
    · rw [hend']
      exact ⟨rfl, rfl, rfl⟩
    · by_cases heq : flag = decide (k.addr + k.size = b + blockSize)
      · refine .inr ⟨?_, .inr (hright n hn).2.1⟩
        rw [hend', heq, hnext n hn]
        rfl
      · exact .inl (by rw [hflaw', if_neg heq])
    · rw [hchains]
      simp only [List.mem_singleton, forall_eq, Bool.true_eq_false, false_and, and_false,
        false_or, true_and]
      exact or_congr (and_congr_right fun _ => ne_comm) (and_congr eq_comm eq_comm)
  · rw [hrem']
    rintro heq
    exact hflawed (by rw [hflaw', if_pos heq])
  · obtain ⟨haddr, -, hprev⟩ := hright n hn
    have hset : flag = true := by
      by_contra hunset
      have heq : flag = decide (k.addr + k.size = b + blockSize) := by
        rw [hnext n hn]
        simpa using hunset
      exact hflawed (by rw [hflaw', if_pos heq])
    rw [haddr] at hprev ⊢
    rw [hend', hset]
    exact hprev

/-- **Taking the whole chunk.** -/
theorem carveWhole (hbucket : findBucket k.size = bucket) (heq : size = k.size) :
    ∃ chains', ((s.unlinkFrom bucket k.addr).hdr k.addr).used = false ∧
      SameRest s (s.unlinkFrom bucket k.addr) ∧
      (TouchedOwned s → TouchedOwned (s.unlinkFrom bucket k.addr)) ∧
      Frame s (((s.unlinkFrom bucket k.addr).touch k.addr).markUsed k.addr size) chains k.addr
        (k.addr + k.size) ∧
      ListInv none (((s.unlinkFrom bucket k.addr).touch k.addr).markUsed k.addr size)
        (Function.update layout b (L ++ [⟨k.addr, size, true⟩] ++ R)) chains' := by
  have hkmem : k ∈ layout b := by rw [hlayout]; simp
  obtain ⟨⟨hksize, hkused, -⟩, ⟨hk64, hkle, hbk, heb, hmod⟩, -, hright, -⟩ :=
    h.free_chunk hb hlayout hfree
  have hsmall : blockSize < 0x20000000 := by decide
  have hmem : k.addr ∈ chains bucket := (h.mem_chain_iff hb hkmem hfree).mpr hbucket
  obtain ⟨hhdr₁, hrest, hfamily, htouch⟩ := ListState.unlinkFrom_spec h.family hmem
  set s₁ := s.unlinkFrom bucket k.addr
  have hhdr := ListState.hdr_markUsed (s₁.touch k.addr) k.addr
    (show size < 0x20000000 by omega)
  rw [ListState.hdr_touch, hhdr₁] at hhdr
  set s' := (s₁.touch k.addr).markUsed k.addr size
  have hother : ∀ x, x ≠ k.addr → s'.hdr x = s.hdr x := fun x hx => by
    rw [hhdr, update_of_ne hx]
  refine ⟨Function.update chains bucket ((chains bucket).erase k.addr), by rw [hhdr₁]; exact hkused,
    hrest, fun ht => htouch ht fun x hx => h.chain_owned hx, ?_, ?_⟩
  · -- the chunk leaves its bucket, and its header is the only one that is written
    exact ⟨fun x hx => hother x (by omega),
      fun x hx _ => ListState.unlinkFrom_links h.family hmem (hx bucket)⟩
  refine h.single hb hlayout hrest.blocks_eq (W := [k]) (a := k.addr) (e := k.addr + k.size)
    ⟨rfl, rfl⟩ (by simp) (by simp) rfl (by rw [heq]) ⟨hpos, h64⟩ ?_ ?_ ?_
    (fun x hx => hother x (by omega)) ?_ (fun p _ => .inr (.inr rfl))
    (fun n hn => ⟨?_, .inl rfl⟩) hfamily fun i a => ?_
  · rw [hhdr, update_self]
    exact ⟨rfl, rfl⟩
  · rw [hhdr, update_self]
    show isLastChunkOfBlock k.addr size = _
    rw [isLastChunkOfBlock, Bool.beq_eq_decide_eq]
    refine decide_eq_decide.mpr ?_
    dsimp only [blockSize] at *
    omega
  · rw [hhdr, update_self]
  · rw [hother _ (by omega)]
    exact ⟨rfl, rfl, rfl⟩
  · obtain ⟨haddr, -, hprev⟩ := hright n hn
    rw [haddr] at hprev
    rw [hother _ (by omega), hprev]
  · rw [h.family.mem_unlink hmem]
    simp only [List.mem_singleton, forall_eq, Bool.true_eq_false, false_and, and_false, or_false]
    exact and_congr_right fun _ => ne_comm

end ListInv

end Carve

end Pronto
