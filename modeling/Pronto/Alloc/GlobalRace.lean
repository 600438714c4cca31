import Pronto.Alloc.GlobalRuns

/-!
# Concurrent callers of the global allocator

`GlobalAlloc::alloc` reads `free_list` before it takes the mutex. Between that read and the body
under the mutex other threads may allocate, release, and write into the regions they own, so the node
that was read may no longer be one.

The steps here are the unlocked read, the body, a release and a write of an owner, of any threads in
any order. `concurrent_allocs_safe`: as long as every search ends at a node that is still on the free
list, regions in use never overlap and lie in mapped memory. `stale_head_hands_out_twice` is a run in
which a search ends at the header that another thread has written into its region.
-/

namespace Pronto

open Linked Tiling Runs

/-- The allocator, the regions in use, and for every thread inside `alloc` the requested size and the
value it has read from `free_list`. -/
structure RaceState where
  gs : GlobalState
  live : List MemoryRegion
  calls : ℕ → Option (ℕ × ℕ)

/-- The steps of the threads. -/
inductive RaceAction
  /-- Thread `t` enters `alloc(size)` and reads `free_list`. -/
  | read (t size : ℕ)
  /-- Thread `t` runs the part of `alloc` under the mutex; its search ends within `fuel` nodes. -/
  | body (t fuel : ℕ)
  | release (m : MemoryRegion)
  /-- The owner of the region around `a` writes there. -/
  | write (a : ℕ) (hdr : ChunkHeader) (prev next : ℕ)

/-- One step; `none` when it is not enabled. -/
def raceStep (s : RaceState) : RaceAction → Option RaceState
  | .read t size =>
    if s.calls t = none ∧ 0 < size ∧ size % blockSize = 0 then
      some { s with calls := Function.update s.calls t (some (size, s.gs.ga.freeList)) }
    else none
  | .body t fuel => do
    let (size, head) ← s.calls t
    let (ptr, gs) ← s.gs.allocFrom fuel head size
    some ⟨gs, ⟨ptr, size⟩ :: s.live, Function.update s.calls t none⟩
  | .release m =>
    if m ∈ s.live then
      (s.gs.release m.ptr m.size).map fun gs => { s with gs := gs, live := s.live.erase m }
    else none
  | .write a hdr prev next =>
    if s.live.any fun m => decide (m.ptr ≤ a ∧ a < m.ptr + m.size) then
      some { s with gs := s.gs.overwrite a hdr prev next }
    else none

/-- The search of a thread's `alloc` ends at the end of the list or at a node that is on the free
list now. -/
def searchEndsOnList (s : RaceState) : RaceAction → Bool
  | .body t fuel =>
    match s.calls t with
    | some (size, head) =>
      match s.gs.searchFree size fuel head with
      | some a => a == 0 || (s.gs.freeRegions.map MemoryRegion.ptr).contains a
      | none => true
    | none => true
  | _ => true

/-- The regions in use do not overlap and lie in mapped memory. -/
structure RaceState.Safe (s : RaceState) : Prop where
  disjoint : s.live.Pairwise fun m n => m.ptr + m.size ≤ n.ptr ∨ n.ptr + n.size ≤ m.ptr
  mapped : ∀ m ∈ s.live, baseAddress ≤ m.ptr ∧ m.ptr + m.size ≤ baseAddress + s.gs.totalMapped

/-- The memory is a sequence of pieces, and the requests are for whole blocks. -/
structure RaceState.Inv (s : RaceState) : Prop where
  regions : ∃ ps chain, Regions s.gs s.live ps chain
  calls : ∀ t size head, s.calls t = some (size, head) → 0 < size ∧ blockSize ∣ size

theorem Regions.safe {s : RaceState} {ps : List Piece} {chain : List ℕ}
    (h : Regions s.gs s.live ps chain) : s.Safe where
  disjoint := by
    refine (h.live.pairwise_iff fun hmn => hmn.symm).mpr (List.pairwise_map.mpr ?_)
    exact (h.tiles.pairwise.sublist List.filter_sublist).imp fun hle => Or.inl hle
  mapped := fun m hm => by
    obtain ⟨p, hp, rfl, -⟩ := mem_liveRegions.mp (h.live.mem_iff.mp hm)
    rw [h.totalMapped_eq]
    exact h.tiles.mem_bounds hp

theorem Regions.mem_chain_of_contains {s : GlobalState} {live : List MemoryRegion}
    {ps : List Piece} {chain : List ℕ} (h : Regions s live ps chain) {a : ℕ}
    (ha : (s.freeRegions.map MemoryRegion.ptr).contains a = true) : a ∈ chain := by
  rw [h.freeRegions_eq, List.map_map] at ha
  simpa using ha

/-- **The invariant is kept by every interleaving step**, provided that a search that ends does so
at a node that is still on the list. -/
theorem raceStep_inv {s s' : RaceState} {a : RaceAction} (h : s.Inv)
    (hok : searchEndsOnList s a = true) (hstep : raceStep s a = some s') : s'.Inv := by
  obtain ⟨⟨ps, chain, hregions⟩, hcalls⟩ := h
  cases a with
  | read t size =>
    -- the read of `free_list`: only the local variables of the thread change
    obtain ⟨⟨-, hpos, hmod⟩, hstep⟩ := Option.ite_none_right_eq_some.mp hstep
    cases hstep
    refine ⟨⟨ps, chain, hregions⟩, fun t' size' head' hcall => ?_⟩
    rcases eq_or_ne t' t with rfl | hne
    · simp only [Function.update_self, Option.some.injEq, Prod.mk.injEq] at hcall
      obtain ⟨rfl, -⟩ := hcall
      exact ⟨hpos, Nat.dvd_of_mod_eq_zero hmod⟩
    · simp only [Function.update_of_ne hne] at hcall
      exact hcalls t' size' head' hcall
  | body t fuel =>
    obtain ⟨⟨size, head⟩, hcall, hstep⟩ := Option.bind_eq_some_iff.mp hstep
    obtain ⟨⟨ptr, gs⟩, halloc, hstep⟩ := Option.bind_eq_some_iff.mp hstep
    cases hstep
    obtain ⟨hpos, hdvd⟩ := hcalls t size head hcall
    refine ⟨hregions.allocFrom hpos hdvd (fun a ha hne => ?_) halloc, fun t' size' head' hcall' => ?_⟩
    · -- the node at which the search ended is on the list, so `allocFrom` takes a free region
      simp only [searchEndsOnList, hcall, ha, Bool.or_eq_true, beq_iff_eq, hne, false_or] at hok
      exact hregions.mem_chain_of_contains hok
    · rcases eq_or_ne t' t with rfl | hne
      · simp at hcall'
      · simp only [Function.update_of_ne hne] at hcall'
        exact hcalls t' size' head' hcall'
  | release m =>
    obtain ⟨hm, hstep⟩ := Option.ite_none_right_eq_some.mp hstep
    obtain ⟨gs, hrelease, rfl⟩ := Option.map_eq_some_iff.mp hstep
    obtain ⟨gs', ps', chain', hrelease', h'⟩ := hregions.release hm
    rw [hrelease] at hrelease'
    cases hrelease'
    exact ⟨⟨ps', chain', h'⟩, hcalls⟩
  | write a hdr prev next =>
    obtain ⟨howned, hstep⟩ := Option.ite_none_right_eq_some.mp hstep
    cases hstep
    obtain ⟨m, hm, ha⟩ := List.any_eq_true.mp howned
    exact ⟨⟨ps, chain, hregions.overwrite hm (by simpa using ha) hdr prev next⟩, hcalls⟩

/-- Nobody has called the allocator. -/
def RaceState.start (mem : HeapMemory) : RaceState := ⟨.new mem, [], fun _ => none⟩

/-- **As long as every search ends at a node that is on the free list, the regions in use do not
overlap and lie in mapped memory.** -/
theorem concurrent_allocs_safe {mem : HeapMemory} {acts : List RaceAction} {s : RaceState}
    (hok : Guarded raceStep (fun s a => searchEndsOnList s a = true) (.start mem) acts)
    (hrun : run raceStep (.start mem) acts = some s) : s.Safe := by
  have hstart : (RaceState.start mem).Inv := ⟨Regions.new mem, fun t size head h => by cases h⟩
  obtain ⟨⟨ps, chain, h⟩, -⟩ := hok.invariant (I := RaceState.Inv)
    (fun _ _ _ hI hguard hstep => raceStep_inv hI hguard hstep) hstart hrun
  exact h.safe

/-- Two threads read `free_list` at the same time and both find the node they have read. -/
def racingActions : List RaceAction :=
  [.read 0 0x200000, .read 1 0x400000, .body 1 8, .body 0 8]

theorem concurrent_allocs_safe_racing :
    ∃ s, run raceStep (.start .blank) racingActions = some s ∧ s.live.length = 2 ∧ s.Safe := by
  have hcheck : (run raceStep (.start .blank) racingActions).any
      (fun s => s.live.length == 2) = true := by decide +kernel
  obtain ⟨s, hrun, hlen⟩ := run_of_any hcheck
  have hguard : checkGuard raceStep searchEndsOnList (.start .blank) racingActions = true := by
    decide +kernel
  exact ⟨s, hrun, by simpa using hlen,
    concurrent_allocs_safe (guarded_of_checkGuard hguard) hrun⟩

/-- 254 MB of the first pool are in use and 2 MB are free. Thread 0 reads `free_list`; thread 1 takes
the 2 MB for a chunk of this size and writes the chunk's header; thread 0 goes on. -/
def staleHeadActions : List RaceAction :=
  [.read 0 0xfe00000, .body 0 2, .read 0 0x200000, .read 1 0x200000, .body 1 2,
    .write 0x10000000000 ⟨0, 0, true, true, false, 0x200000⟩ 0 0, .body 0 2]

/-- Thread 0 finds the header of thread 1's chunk and is given the same region. -/
theorem stale_head_hands_out_twice :
    ∃ s, run raceStep (.start .blank) staleHeadActions = some s ∧
      s.live = [⟨0x10000000000, 0x200000⟩, ⟨0x10000000000, 0x200000⟩,
        ⟨0x10000200000, 0xfe00000⟩] ∧ ¬ s.Safe := by
  have hcheck : (run raceStep (.start .blank) staleHeadActions).any (fun s => decide
      (s.live = [⟨0x10000000000, 0x200000⟩, ⟨0x10000000000, 0x200000⟩,
        ⟨0x10000200000, 0xfe00000⟩])) = true := by decide +kernel
  obtain ⟨s, hrun, hs⟩ := run_of_any hcheck
  have hlive := of_decide_eq_true hs
  refine ⟨s, hrun, hlive, fun hsafe => ?_⟩
  have hdisj := hsafe.disjoint
  rw [hlive] at hdisj
  have hfirst := (List.pairwise_cons.mp hdisj).1 ⟨0x10000000000, 0x200000⟩ (by simp)
  exact absurd hfirst (by decide)

end Pronto
