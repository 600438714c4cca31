import Pronto.Alloc.BigChunks
import Pronto.Alloc.Writes

/-!
# The regions of the global allocator and their owners

What an owner of a region may rely on, whatever the other owners do: its region has no byte in common
with another one or with a node of the free list, and neither `alloc` nor `release` of the global
allocator changes a header or a link in it. In turn, what the owners write into their regions does not
concern the allocator (`Regions.congr`).
-/

namespace Pronto

open Linked Tiling

/-- The byte belongs to a region that is handed out. -/
def InLive (live : List MemoryRegion) (a : ℕ) : Prop := ∃ m ∈ live, m.Has a

/-- Header and links at an address are unchanged. -/
def SameWords (m m' : HeapMemory) (a : ℕ) : Prop :=
  m'.hdr a = m.hdr a ∧ m'.links.prev a = m.links.prev a ∧ m'.links.next a = m.links.next a

theorem SameWords.refl (m : HeapMemory) (a : ℕ) : SameWords m m a := ⟨rfl, rfl, rfl⟩

theorem SameWords.trans {m m' m'' : HeapMemory} {a : ℕ} (h : SameWords m m' a)
    (h' : SameWords m' m'' a) : SameWords m m'' a :=
  ⟨h'.1.trans h.1, h'.2.1.trans h.2.1, h'.2.2.trans h.2.2⟩

/-- What the global allocator keeps for the owners. -/
structure KeepsLive (live : List MemoryRegion) (s s' : GlobalState) : Prop where
  words : ∀ a, InLive live a → SameWords s.mem s'.mem a
  bitmap : s'.mem.bitmap = s.mem.bitmap
  touched : s'.mem.touched = s.mem.touched

namespace Regions

variable {s s' : GlobalState} {live : List MemoryRegion} {ps : List Piece} {chain : List ℕ}
  {m m' : MemoryRegion} {a size ptr : ℕ}

section

variable (h : Regions s live ps chain)
include h

/-- A region that is handed out is a piece. -/
theorem live_piece (hm : m ∈ live) :
    ∃ p ∈ ps, p.region = m ∧ p.kind = .live := mem_liveRegions.mp (h.live.mem_iff.mp hm)

/-- Where a region lies that is handed out. -/
theorem live_bounds (hm : m ∈ live) :
    baseAddress ≤ m.ptr ∧ m.ptr + m.size ≤ s.limit ∧ 0 < m.size ∧ m.ptr % blockSize = 0 := by
  obtain ⟨p, hp, rfl, -⟩ := h.live_piece hm
  have hbounds := h.tiles.mem_bounds hp
  have haligned := (h.tiles.aligned (by decide) fun q hq =>
    Nat.mod_eq_zero_of_dvd (h.ok q hq).blocks).2 p hp
  exact ⟨hbounds.1, hbounds.2, h.pos p hp, haligned⟩

/-- Two regions that are handed out have no byte in common. -/
theorem live_apart (hm : m ∈ live) (hm' : m' ∈ live) (hne : m ≠ m') :
    m.ptr + m.size ≤ m'.ptr ∨ m'.ptr + m'.size ≤ m.ptr := by
  obtain ⟨p, hp, rfl, -⟩ := h.live_piece hm
  obtain ⟨q, hq, rfl, -⟩ := h.live_piece hm'
  refine h.tiles.disjoint hp hq fun heq => hne ?_
  rw [List.inj_on_of_nodup_map (h.tiles.nodup_starts h.pos) hp hq heq]

theorem live_nodup : live.Nodup := by
  refine h.live.nodup_iff.mpr ?_
  refine ((List.Nodup.of_map _ (h.tiles.nodup_starts h.pos)).filter _).map_on fun p hp q hq heq => ?_
  exact List.inj_on_of_nodup_map (h.tiles.nodup_starts h.pos) (List.mem_of_mem_filter hp)
    (List.mem_of_mem_filter hq) (congrArg MemoryRegion.ptr heq)

/-- A region that is handed out lies outside the free pieces. -/
theorem piece_apart (ha : InLive live a) {p : Piece} (hp : p ∈ ps)
    {v : ℕ} (hv : p.kind = .free v) : a < p.addr ∨ p.addr + p.size ≤ a := by
  obtain ⟨m, hm, hlo, hhi⟩ := ha
  obtain ⟨q, hq, rfl, hkind⟩ := h.live_piece hm
  have hne : q.addr ≠ p.addr := fun heq => by
    rw [List.inj_on_of_nodup_map (h.tiles.nodup_starts h.pos) hq hp heq, hv] at hkind
    cases hkind
  have hdisj := h.tiles.disjoint hq hp hne
  simp only [Piece.region] at hlo hhi
  omega

/-- The nodes of the free list are not handed out. -/
theorem not_node (ha : InLive live a) : a ∉ chain := by
  intro hmem
  obtain ⟨p, hp, rfl, v, hv⟩ := h.mem_chain.mp hmem
  have hapart := h.piece_apart ha hp hv
  have hpos := h.pos p hp
  omega

/-- The bytes of a region on the free list are not handed out. -/
theorem not_free (ha : InLive live a) : ¬ s.FreeByte a := by
  rintro ⟨f, hf, hlo, hhi⟩
  rw [h.freeRegions_eq] at hf
  obtain ⟨x, hx, rfl⟩ := List.mem_map.mp hf
  obtain ⟨p, hp, rfl, v, hv⟩ := h.mem_chain.mp hx
  obtain ⟨hsize, hle, -, -⟩ := (h.ok p hp).stored v hv
  have hapart := h.piece_apart ha hp hv
  dsimp only at hlo hhi
  omega

/-- The allocator depends on its nodes only. -/
theorem congr {mem : HeapMemory}
    (hkeep : ∀ a ∈ chain, SameWords s.mem mem a) : Regions ⟨mem, s.ga⟩ live ps chain :=
  { h with
    ok := fun p hp => ⟨(h.ok p hp).pos, (h.ok p hp).blocks, fun v hv => by
      have hmem : p.addr ∈ chain := h.mem_chain.mpr ⟨p, hp, rfl, v, hv⟩
      have hsize : GlobalState.size ⟨mem, s.ga⟩ p.addr = s.size p.addr := by
        rw [GlobalState.size, GlobalState.size, (hkeep _ hmem).1]
      rw [hsize]
      exact (h.ok p hp).stored v hv⟩
    isList := h.isList.congr fun a ha => (hkeep a ha).2 }

/-- The free list of a tiling is a consistent list at block boundaries. -/
theorem nodesOk : NodesOk s chain where
  mapped := h.mapped
  base := h.tiles.le
  aligned := (h.tiles.aligned (by decide) fun q hq => Nat.mod_eq_zero_of_dvd (h.ok q hq).blocks).1
  isList := h.isList
  nodup := h.nodup
  node a ha := by
    obtain ⟨p, hp, rfl, -⟩ := h.mem_chain.mp ha
    have hbounds := h.tiles.mem_bounds hp
    have haligned := (h.tiles.aligned (by decide) fun q hq =>
      Nat.mod_eq_zero_of_dvd (h.ok q hq).blocks).2 p hp
    have hpos := h.pos p hp
    exact ⟨haligned, hbounds.1, by omega⟩

/-- Taking from a free region leaves the regions that are handed out as they are. -/
theorem takeFrom_keeps (ha : a ∈ chain) (hle : size ≤ s.size a) :
    KeepsLive live s (s.takeFrom a size).2 := by
  have hne : ∀ x, InLive live x → x ≠ a := fun x hx => ne_of_mem_of_not_mem ha (h.not_node hx) |>.symm
  rcases Nat.lt_or_eq_of_le hle with hlt | rfl
  · -- the region gets smaller
    obtain ⟨-, -, -, -, -, -, hfield⟩ := h.split ha
    have hrest : (s.setSize a (s.size a - size)).size a ≠ 0 := by
      rw [GlobalState.size_setSize_self, Nat.mod_eq_of_lt (by omega)]
      omega
    rw [GlobalState.takeFrom, if_neg hrest]
    exact ⟨fun x hx => ⟨Function.update_of_ne (hne x hx) _ _, rfl, rfl⟩, rfl, rfl⟩
  · -- the region leaves the list
    obtain ⟨hprev, hnext⟩ := h.isList.links_ne h.nodup ha
    rw [takeFrom_whole hprev hnext]
    refine ⟨fun x hx => ⟨Function.update_of_ne (hne x hx) _ _, ?_⟩, rfl, rfl⟩
    obtain ⟨xs, ys, rfl⟩ := List.append_of_mem ha
    refine (h.isList.unlink h.nodup).2 x fun hmem => h.not_node hx ?_
    rcases List.mem_append.mp hmem with hmem | hmem <;> simp [hmem]

/-- Mapping a pool leaves the regions that are handed out as they are. -/
theorem mapPool_keeps (heq : s.mapPool size = some (ptr, s')) :
    KeepsLive live s s' := by
  obtain ⟨n, -, -, -, -, ⟨-, rfl⟩ | ⟨-, rfl⟩⟩ := mapPool_cases heq
  · refine ⟨fun x hx => ?_, rfl, rfl⟩
    have hlt : x < s.limit := by
      obtain ⟨m, hm, -, hhi⟩ := hx
      have hbounds := h.live_bounds hm
      omega
    have hne : x ≠ s.limit := by omega
    refine ⟨Function.update_of_ne hne _ _, Links.push_of_ne hne fun h0 heq => h.not_node hx ?_⟩
    -- the first node of the list
    rw [heq]
    have hhead := h.isList.head_eq
    cases chain with
    | nil => exact absurd hhead h0
    | cons c rest => exact hhead ▸ List.mem_cons_self
  · exact ⟨fun x _ => .refl _ x, rfl, rfl⟩

/-- `alloc` leaves the regions that are handed out as they are. -/
theorem alloc_keeps (heq : s.alloc size = some (ptr, s')) :
    KeepsLive live s s' := by
  obtain ⟨a, ha, heq⟩ := Option.bind_eq_some_iff.mp heq
  split at heq
  · rename_i hne
    obtain ⟨b, hb, hmem⟩ := searchFree_spec h.isList (Nat.lt_succ_of_le h.length_le)
    rw [ha] at hb
    cases hb
    have hkeeps := h.takeFrom_keeps (hmem hne) (searchFree_size ha hne)
    rw [Option.some.inj heq] at hkeeps
    exact hkeeps
  · exact h.mapPool_keeps heq

/-- No more regions are handed out than there are blocks. -/
theorem live_length : live.length ≤ s.allocatedBlocks := by
  have hlen : live.length ≤ ps.length := by
    rw [h.live.length_eq, liveRegions, List.length_map]
    exact List.length_filter_le _ _
  have htiles := h.tiles.length_mul_le (k := blockSize) fun p hp =>
    Nat.le_of_dvd (h.ok p hp).pos (h.ok p hp).blocks
  refine hlen.trans ((Nat.le_div_iff_mul_le (by decide)).mpr ?_)
  rw [Nat.mul_comm]
  omega

/-- `release` leaves the other regions as they are. -/
theorem release_keeps (hm : m ∈ live)
    (heq : s.release m.ptr m.size = some s') : KeepsLive (live.erase m) s s' := by
  obtain ⟨hbase, hlimit, hpos, haligned⟩ := h.live_bounds hm
  have hnode : m.ptr ∉ chain := h.not_node ⟨m, hm, le_rfl, by omega⟩
  obtain ⟨s'', chain', hrelease, -, -, hkeep⟩ :=
    h.nodesOk.release_isSome hnode haligned hbase (by omega) m.size
  rw [heq] at hrelease
  cases hrelease
  refine ⟨fun a ha => ?_, hkeep.bitmap, hkeep.touched⟩
  have hout : a ∉ m.ptr :: chain := by
    obtain ⟨m', hm', hlo, hhi⟩ := ha
    obtain ⟨hne, hmem⟩ := h.live_nodup.mem_erase_iff.mp hm'
    have hapart := h.live_apart hmem hm hne
    rw [List.mem_cons, not_or]
    exact ⟨by omega, h.not_node ⟨m', hmem, hlo, hhi⟩⟩
  exact ⟨hkeep.hdr a hout, hkeep.prev a hout, hkeep.next a hout⟩

end

end Regions

end Pronto
