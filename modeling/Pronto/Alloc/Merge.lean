import Mathlib.Algebra.BigOperators.Group.Finset.Basic
import Mathlib.Algebra.Order.BigOperators.Group.Finset
import Mathlib.Order.Interval.Finset.Nat
import Pronto.Alloc.GlobalRuns

/-!
# Merging free regions

`release` puts a region in front of the free list and joins it with its neighbours, wherever they stand
in the list, until it has none. The results here are about any list of disjoint regions, of any sizes:
`release_merges` says what the list is afterwards when the sizes fit into their fields, and
`mergeLoop_bytes_subset` that no byte gets onto the list that was not there, also when they do not.

The loops of `release` end after at most as many rounds as the list has nodes. `mergeLoop` has the
bounds as parameters, and every bound that is large enough gives the same result.
-/

namespace Pronto

open Linked

namespace GlobalState

/-- `tryMergingRegions` with at most `outer` rounds, each over at most `inner` nodes. -/
def mergeLoop (inner : ℕ) : ℕ → GlobalState → ℕ → Option GlobalState
  | 0, _, _ => none
  | outer + 1, s, r => do
    let c ← s.findNeighbour r inner s.ga.freeList
    if c = 0 then some s
    else if r < c then mergeLoop inner outer (s.merge r c) r
    else mergeLoop inner outer (s.merge c r) c

/-- `release` with the bounds of `mergeLoop`. -/
def releaseWith (s : GlobalState) (inner outer ptr size : ℕ) : Option GlobalState :=
  mergeLoop inner outer (s.pushFree ptr size) ptr

theorem tryMergingRegions_eq (fuel : ℕ) (s : GlobalState) (r : ℕ) :
    tryMergingRegions fuel s r = mergeLoop (s.allocatedBlocks + 1) fuel s r := by
  induction fuel generalizing s r with
  | zero => rfl
  | succ fuel ih =>
    rw [tryMergingRegions, mergeLoop]
    simp only [ih]
    rfl

theorem release_eq (s : GlobalState) (ptr size : ℕ) :
    s.release ptr size = s.releaseWith (s.allocatedBlocks + 1) (s.allocatedBlocks + 1) ptr size :=
  tryMergingRegions_eq _ _ _

/-- The byte belongs to one of the regions. -/
def InRegions (s : GlobalState) (chain : List ℕ) (x : ℕ) : Prop :=
  ∃ a ∈ chain, a ≤ x ∧ x < a + s.size a

/-- No region of the list begins or ends where the region at `r` ends or begins. -/
def Alone (s : GlobalState) (chain : List ℕ) (r : ℕ) : Prop :=
  ∀ c ∈ chain, c ≠ r → c ≠ r + s.size r ∧ r ≠ c + s.size c

/-- Every interval of free bytes around the region at `r` is short enough for a field. -/
def RunFits (s : GlobalState) (chain : List ℕ) (r : ℕ) : Prop :=
  ∀ lo hi, lo ≤ r → r + s.size r ≤ hi → (∀ x, lo ≤ x → x < hi → s.InRegions chain x) →
    hi - lo < sizeLimit

end GlobalState

/-- A consistent list of free regions that have no byte in common. -/
structure FreeRegions (s : GlobalState) (chain : List ℕ) : Prop where
  isList : IsList s.mem.links 0 s.ga.freeList chain
  nodup : chain.Nodup
  pos : ∀ a ∈ chain, 0 < s.size a
  disjoint : ∀ a ∈ chain, ∀ b ∈ chain, a ≠ b → a + s.size a ≤ b ∨ b + s.size b ≤ a

/-- What an operation on the free list leaves alone: everything but the nodes. -/
structure KeepsOutside (nodes : List ℕ) (s s' : GlobalState) : Prop where
  hdr : ∀ a ∉ nodes, s'.mem.hdr a = s.mem.hdr a
  prev : ∀ a ∉ nodes, s'.mem.links.prev a = s.mem.links.prev a
  next : ∀ a ∉ nodes, s'.mem.links.next a = s.mem.links.next a
  bitmap : s'.mem.bitmap = s.mem.bitmap
  touched : s'.mem.touched = s.mem.touched
  mapped : s'.ga.mappedRegions = s.ga.mappedRegions

/-- Doing nothing. -/
theorem KeepsOutside.refl (nodes : List ℕ) (s : GlobalState) : KeepsOutside nodes s s :=
  ⟨fun _ _ => rfl, fun _ _ => rfl, fun _ _ => rfl, rfl, rfl, rfl⟩

theorem KeepsOutside.trans {nodes nodes' : List ℕ} {s s' s'' : GlobalState}
    (h : KeepsOutside nodes s s') (h' : KeepsOutside nodes' s' s'') (hsub : nodes' ⊆ nodes) :
    KeepsOutside nodes s s'' where
  hdr a ha := (h'.hdr a fun hmem => ha (hsub hmem)).trans (h.hdr a ha)
  prev a ha := (h'.prev a fun hmem => ha (hsub hmem)).trans (h.prev a ha)
  next a ha := (h'.next a fun hmem => ha (hsub hmem)).trans (h.next a ha)
  bitmap := h'.bitmap.trans h.bitmap
  touched := h'.touched.trans h.touched
  mapped := h'.mapped.trans h.mapped

section Merge

variable {s s' : GlobalState} {chain : List ℕ} {a c r x lo hi inner outer ptr size : ℕ}

theorem size_merge_self : (s.merge c r).size c = (s.size c + s.size r) % sizeLimit :=
  GlobalState.size_setSize_self _ _ _

theorem size_merge_of_ne (ha : a ≠ c) : (s.merge c r).size a = s.size a :=
  GlobalState.size_setSize_of_ne _ _ ha

theorem keepsOutside_merge (hlist : IsList s.mem.links 0 s.ga.freeList chain) (hnodup : chain.Nodup)
    (hc : c ∈ chain) (hr : r ∈ chain) : KeepsOutside chain s (s.merge c r) := by
  obtain ⟨xs, ys, rfl⟩ := List.append_of_mem hr
  have hframe : ∀ a ∉ xs ++ r :: ys, (s.mem.links.unlink r).prev a = s.mem.links.prev a ∧
      (s.mem.links.unlink r).next a = s.mem.links.next a := fun a ha =>
    (hlist.unlink hnodup).2 a fun hmem => ha (by
      rcases List.mem_append.mp hmem with hmem | hmem <;> simp [hmem])
  exact ⟨fun a ha => Function.update_of_ne (ne_of_mem_of_not_mem hc ha).symm _ _,
    fun a ha => (hframe a ha).1, fun a ha => (hframe a ha).2, rfl, rfl, rfl⟩

/-- The bytes of two neighbours after they have been joined were theirs before. -/
theorem inRegions_of_merge (hc : c ∈ chain) (hr : r ∈ chain) (hadj : r = c + s.size c)
    (hx : (s.merge c r).InRegions (chain.erase r) x) : s.InRegions chain x := by
  obtain ⟨a, ha, hlo, hhi⟩ := hx
  have hmem := List.mem_of_mem_erase ha
  by_cases hac : a = c
  · subst hac
    rw [size_merge_self] at hhi
    have hle := Nat.mod_le (s.size a + s.size r) sizeLimit
    by_cases hfirst : x < a + s.size a
    · exact ⟨a, hc, hlo, hfirst⟩
    · exact ⟨r, hr, by omega, by omega⟩
  · rw [size_merge_of_ne hac] at hhi
    exact ⟨a, hmem, hlo, hhi⟩

/-- The loop returns when it may take as many rounds as there are nodes. -/
theorem mergeLoop_isSome (hlist : IsList s.mem.links 0 s.ga.freeList chain) (hnodup : chain.Nodup)
    (hr : r ∈ chain) (hinner : chain.length < inner) (houter : chain.length ≤ outer) :
    ∃ s', GlobalState.mergeLoop inner outer s r = some s' := by
  induction outer generalizing s chain r with
  | zero =>
    rw [List.length_eq_zero_iff.mp (Nat.le_zero.mp houter)] at hr
    cases hr
  | succ outer ih =>
    obtain ⟨c, hfind, hspec, -⟩ := findNeighbour_spec (r := r) hlist
    rw [GlobalState.mergeLoop, hfind inner hinner, Option.bind_eq_bind, Option.bind_some]
    split
    · exact ⟨s, rfl⟩
    · rename_i h0
      obtain ⟨hmem, hne, -⟩ := hspec h0
      have hlen : ∀ y ∈ chain, (chain.erase y).length < chain.length := fun y hy => by
        have := List.length_erase_add_one hy
        omega
      split
      · exact ih (hlist.erase hnodup hmem) (hnodup.erase c) ((List.mem_erase_of_ne hne.symm).mpr hr)
          ((hlen c hmem).trans hinner) (Nat.le_of_lt_succ ((hlen c hmem).trans_le houter))
      · exact ih (hlist.erase hnodup hr) (hnodup.erase r) ((List.mem_erase_of_ne hne).mpr hmem)
          ((hlen r hr).trans hinner) (Nat.le_of_lt_succ ((hlen r hr).trans_le houter))

/-- No byte gets onto the list that was not there, and only the nodes are written. -/
theorem mergeLoop_bytes_subset (hlist : IsList s.mem.links 0 s.ga.freeList chain)
    (hnodup : chain.Nodup) (hr : r ∈ chain) (hmerge : GlobalState.mergeLoop inner outer s r = some s')
    (hinner : chain.length < inner) :
    ∃ chain', IsList s'.mem.links 0 s'.ga.freeList chain' ∧ chain'.Nodup ∧ chain' ⊆ chain ∧
      KeepsOutside chain s s' ∧ ∀ x, s'.InRegions chain' x → s.InRegions chain x := by
  -- by induction on the rounds; each of them takes one node off the list
  induction outer generalizing s chain r with
  | zero => cases hmerge
  | succ outer ih =>
    obtain ⟨c, hfind, hspec, -⟩ := findNeighbour_spec (r := r) hlist
    rw [GlobalState.mergeLoop, hfind inner hinner, Option.bind_eq_bind, Option.bind_some] at hmerge
    split at hmerge
    · cases hmerge
      exact ⟨chain, hlist, hnodup, List.Subset.refl _, .refl _ _, fun _ => id⟩
    · rename_i h0
      obtain ⟨hmem, hne, hadj⟩ := hspec h0
      have hlen : ∀ y ∈ chain, (chain.erase y).length < inner := fun y _ =>
        lt_of_le_of_lt List.length_erase_le hinner
      split at hmerge
      · rename_i hlt
        obtain ⟨chain', hlist', hnodup', hsub, hkeep, hbytes⟩ := ih (hlist.erase hnodup hmem)
          (hnodup.erase c) ((List.mem_erase_of_ne hne.symm).mpr hr) hmerge (hlen c hmem)
        exact ⟨chain', hlist', hnodup', List.Subset.trans hsub List.erase_subset,
          (keepsOutside_merge hlist hnodup hr hmem).trans hkeep List.erase_subset, fun x hx =>
          inRegions_of_merge hr hmem (by omega) (hbytes x hx)⟩
      · rename_i hge
        obtain ⟨chain', hlist', hnodup', hsub, hkeep, hbytes⟩ := ih (hlist.erase hnodup hr)
          (hnodup.erase r) ((List.mem_erase_of_ne hne).mpr hmem) hmerge (hlen r hr)
        exact ⟨chain', hlist', hnodup', List.Subset.trans hsub List.erase_subset,
          (keepsOutside_merge hlist hnodup hmem hr).trans hkeep List.erase_subset, fun x hx =>
          inRegions_of_merge hmem hr (by omega) (hbytes x hx)⟩

/-- Merging maps and unmaps nothing. -/
theorem mappedRegions_mergeLoop (hmerge : GlobalState.mergeLoop inner outer s r = some s') :
    s'.ga.mappedRegions = s.ga.mappedRegions := by
  induction outer generalizing s r with
  | zero => cases hmerge
  | succ outer ih =>
    obtain ⟨c, -, hmerge⟩ := Option.bind_eq_some_iff.mp hmerge
    split at hmerge
    · cases hmerge
      rfl
    · split at hmerge <;> exact (ih hmerge).trans rfl

theorem mappedRegions_release (hrelease : s.release ptr size = some s') :
    s'.ga.mappedRegions = s.ga.mappedRegions := by
  rw [GlobalState.release_eq] at hrelease
  exact (mappedRegions_mergeLoop hrelease).trans rfl

theorem keepsOutside_pushFree (hlist : IsList s.mem.links 0 s.ga.freeList chain) (hnodup : chain.Nodup)
    (hptr : ptr ≠ 0) (hnot : ptr ∉ chain) : KeepsOutside (ptr :: chain) s (s.pushFree ptr size) := by
  obtain ⟨-, hframe⟩ := hlist.push hptr hnot hnodup
  exact ⟨fun a ha => Function.update_of_ne (fun heq => ha (by simp [heq])) _ _,
    fun a ha => (hframe a ha).1, fun a ha => (hframe a ha).2, rfl, rfl, rfl⟩

/-- What is on the list after `release`, and what is written. -/
theorem releaseWith_bytes_subset (hlist : IsList s.mem.links 0 s.ga.freeList chain)
    (hnodup : chain.Nodup) (hptr : ptr ≠ 0) (hnot : ptr ∉ chain)
    (hrelease : s.releaseWith inner outer ptr size = some s') (hinner : chain.length + 1 < inner) :
    ∃ chain', IsList s'.mem.links 0 s'.ga.freeList chain' ∧ chain'.Nodup ∧ chain' ⊆ ptr :: chain ∧
      KeepsOutside (ptr :: chain) s s' ∧
      ∀ x, s'.InRegions chain' x → s.InRegions chain x ∨ ptr ≤ x ∧ x < ptr + size := by
  obtain ⟨chain', hlist', hnodup', hsub, hkeep, hbytes⟩ := mergeLoop_bytes_subset
    (hlist.push hptr hnot hnodup).1 (List.nodup_cons.mpr ⟨hnot, hnodup⟩) List.mem_cons_self hrelease hinner
  refine ⟨chain', hlist', hnodup', hsub,
    (keepsOutside_pushFree hlist hnodup hptr hnot).trans hkeep (List.Subset.refl _), fun x hx => ?_⟩
  obtain ⟨a, ha, hlo, hhi⟩ := hbytes x hx
  rcases List.mem_cons.mp ha with rfl | ha
  · have hself : (s.pushFree a size).size a = size % sizeLimit := GlobalState.size_setSize_self _ _ _
    have := Nat.mod_le size sizeLimit
    exact .inr ⟨hlo, by omega⟩
  · have hother : (s.pushFree ptr size).size a = s.size a :=
      GlobalState.size_setSize_of_ne _ _ (ne_of_mem_of_not_mem ha hnot)
    exact .inl ⟨a, ha, hlo, by omega⟩

namespace FreeRegions

/-- Two neighbours whose sizes fit into one field. -/
theorem merge (h : FreeRegions s chain) (hc : c ∈ chain) (hr : r ∈ chain) (hadj : r = c + s.size c)
    (hfit : s.size c + s.size r < sizeLimit) :
    FreeRegions (s.merge c r) (chain.erase r) ∧ (s.merge c r).size c = s.size c + s.size r ∧
      ∀ x, (s.merge c r).InRegions (chain.erase r) x ↔ s.InRegions chain x := by
  have hposc := h.pos c hc
  have hposr := h.pos r hr
  have hne : c ≠ r := by omega
  have hsize : (s.merge c r).size c = s.size c + s.size r := by
    rw [size_merge_self, Nat.mod_eq_of_lt hfit]
  have hmem : ∀ {a}, a ∈ chain.erase r → a ∈ chain ∧ a ≠ r := fun ha =>
    ⟨List.mem_of_mem_erase ha, fun heq => (h.nodup.mem_erase_iff.mp ha).1 heq⟩
  -- what does not meet the two regions does not meet the joined one
  have hapart : ∀ b ∈ chain.erase r, b ≠ c →
      c + (s.merge c r).size c ≤ b ∨ b + (s.merge c r).size b ≤ c := fun b hb hbc => by
    obtain ⟨hb, hbr⟩ := hmem hb
    rw [hsize, size_merge_of_ne hbc]
    have hposb := h.pos b hb
    have h₁ := h.disjoint c hc b hb hbc.symm
    have h₂ := h.disjoint r hr b hb hbr.symm
    omega
  refine ⟨⟨h.isList.erase h.nodup hr, h.nodup.erase r, fun a ha => ?_, fun a ha b hb hab => ?_⟩,
    hsize, fun x => ⟨inRegions_of_merge hc hr hadj, fun ⟨a, ha, hlo, hhi⟩ => ?_⟩⟩
  · by_cases hac : a = c
    · subst hac
      omega
    · rw [size_merge_of_ne hac]
      exact h.pos a (hmem ha).1
  · by_cases hac : a = c
    · subst hac
      exact hapart b hb (Ne.symm hab)
    · by_cases hbc : b = c
      · subst hbc
        exact (hapart a ha hac).symm
      · rw [size_merge_of_ne hac, size_merge_of_ne hbc]
        exact h.disjoint a (hmem ha).1 b (hmem hb).1 hab
  · by_cases har : a = r
    · subst har
      exact ⟨c, (List.mem_erase_of_ne hne).mpr hc, by omega, by omega⟩
    · by_cases hac : a = c
      · subst hac
        exact ⟨a, (List.mem_erase_of_ne har).mpr ha, hlo, by omega⟩
      · exact ⟨a, (List.mem_erase_of_ne har).mpr ha, hlo, by rwa [size_merge_of_ne hac]⟩

/-- An interval of free bytes that begins in front of the end of a region without neighbours and
ends behind its beginning is part of the region. -/
theorem subset_of_alone (h : FreeRegions s chain) (hr : r ∈ chain) (halone : s.Alone chain r)
    (hlo : lo ≤ r) (hhi : r + s.size r ≤ hi) (hbytes : ∀ x, lo ≤ x → x < hi → s.InRegions chain x) :
    lo = r ∧ hi = r + s.size r := by
  have hpos := h.pos r hr
  constructor
  · by_contra hne
    obtain ⟨a, ha, halo, hahi⟩ := hbytes (r - 1) (by omega) (by omega)
    have hne : a ≠ r := by omega
    have h₁ := h.disjoint r hr a ha hne.symm
    have h₂ := halone a ha hne
    omega
  · by_contra hne
    obtain ⟨a, ha, halo, hahi⟩ := hbytes (r + s.size r) (by omega) (by omega)
    have hne : a ≠ r := by
      rintro rfl
      omega
    have h₁ := h.disjoint r hr a ha hne.symm
    have h₂ := halone a ha hne
    omega

/-- Joining the region at `r` with its neighbours until it has none, when the bytes around it fit into one
field. -/
theorem mergeLoop (h : FreeRegions s chain) (hr : r ∈ chain) (hfit : s.RunFits chain r) :
    ∃ s' chain' r', (∀ inner outer, chain.length < inner → chain.length ≤ outer →
        GlobalState.mergeLoop inner outer s r = some s') ∧
      FreeRegions s' chain' ∧ (∀ x, s'.InRegions chain' x ↔ s.InRegions chain x) ∧ r' ∈ chain' ∧
      r' ≤ r ∧ r + s.size r ≤ r' + s'.size r' ∧ s'.Alone chain' r' ∧ KeepsOutside chain s s' ∧
      chain' ⊆ chain := by
  induction hlen : chain.length generalizing s chain r with
  | zero =>
    rw [List.length_eq_zero_iff.mp hlen] at hr
    cases hr
  | succ k ih =>
    obtain ⟨c, hfind, hspec, hnone⟩ := findNeighbour_spec (r := r) h.isList
    by_cases h0 : c = 0
    · refine ⟨s, chain, r, fun inner outer hinner houter => ?_, h, fun x => Iff.rfl, hr, le_rfl, le_rfl,
        hnone h0, .refl chain s, fun _ => id⟩
      obtain ⟨outer, rfl⟩ := Nat.exists_eq_succ_of_ne_zero (show outer ≠ 0 by omega)
      rw [GlobalState.mergeLoop, hfind inner (hlen ▸ hinner), Option.bind_eq_bind, Option.bind_some,
        if_pos h0]
    · obtain ⟨hc, hne, hadj⟩ := hspec h0
      -- the lower of the two regions grows, and the upper one leaves the list
      obtain ⟨low, up, hlow, hup, hnext, hle, hge, hstep⟩ : ∃ low up, low ∈ chain ∧ up ∈ chain ∧
          up = low + s.size low ∧ low ≤ r ∧ r + s.size r ≤ up + s.size up ∧ ∀ inner outer,
          chain.length < inner → GlobalState.mergeLoop inner (outer + 1) s r =
            GlobalState.mergeLoop inner outer (s.merge low up) low := by
        have hposr := h.pos r hr
        have hposc := h.pos c hc
        by_cases hlt : r < c
        · refine ⟨r, c, hr, hc, by omega, le_rfl, by omega, fun inner outer hinner => ?_⟩
          rw [GlobalState.mergeLoop, hfind inner hinner, Option.bind_eq_bind, Option.bind_some, if_neg h0,
            if_pos hlt]
        · refine ⟨c, r, hc, hr, by omega, by omega, le_rfl, fun inner outer hinner => ?_⟩
          rw [GlobalState.mergeLoop, hfind inner hinner, Option.bind_eq_bind, Option.bind_some, if_neg h0,
            if_neg hlt]
      have hsum : s.size low + s.size up < sizeLimit := by
        have := hfit low (up + s.size up) hle hge fun x hlo hhi => by
          by_cases hx : x < up
          · exact ⟨low, hlow, hlo, by omega⟩
          · exact ⟨up, hup, by omega, hhi⟩
        omega
      obtain ⟨hmerged, hsize, hbytes⟩ := h.merge hlow hup hnext hsum
      have hposlow := h.pos low hlow
      have hfit' : (s.merge low up).RunFits (chain.erase up) low := fun lo hi hlo hhi hall =>
        hfit lo hi (hlo.trans hle) (by omega) fun x hxlo hxhi => (hbytes x).mp (hall x hxlo hxhi)
      have hlen' : (chain.erase up).length = k := by
        rw [List.length_erase_of_mem hup]
        omega
      obtain ⟨s', chain', r', hloop, hfree, hbytes', hr', hle', hge', halone, hkeep, hsub⟩ :=
        ih hmerged ((List.mem_erase_of_ne (by omega)).mpr hlow) hfit' hlen'
      refine ⟨s', chain', r', fun inner outer hinner houter => ?_, hfree,
        fun x => (hbytes' x).trans (hbytes x), hr', hle'.trans hle, by omega, halone,
        (keepsOutside_merge h.isList h.nodup hlow hup).trans hkeep List.erase_subset,
        List.Subset.trans hsub List.erase_subset⟩
      obtain ⟨outer, rfl⟩ := Nat.exists_eq_succ_of_ne_zero (show outer ≠ 0 by omega)
      rw [hstep inner outer (hlen ▸ hinner)]
      exact hloop inner outer (by omega) (by omega)

/-- If the bytes around the region at `r` do not fit into one field, some of them are lost. -/
theorem mergeLoop_lossy (h : FreeRegions s chain) (hfield : ∀ a ∈ chain, s.size a < sizeLimit)
    (hr : r ∈ chain) (hfit : ¬ s.RunFits chain r)
    (hmerge : GlobalState.mergeLoop inner outer s r = some s') (hinner : chain.length < inner) :
    ∃ chain', IsList s'.mem.links 0 s'.ga.freeList chain' ∧ chain'.Nodup ∧ chain' ⊆ chain ∧
      ∃ x, s.InRegions chain x ∧ ¬ s'.InRegions chain' x := by
  induction outer generalizing s chain r with
  | zero => cases hmerge
  | succ outer ih =>
    obtain ⟨c, hfind, hspec, hnone⟩ := findNeighbour_spec (r := r) h.isList
    rw [GlobalState.mergeLoop, hfind inner hinner, Option.bind_eq_bind, Option.bind_some] at hmerge
    by_cases h0 : c = 0
    · -- a region without neighbours is the whole run
      refine absurd (fun lo hi hlo hhi hall => ?_) hfit
      obtain ⟨rfl, rfl⟩ := h.subset_of_alone hr (hnone h0) hlo hhi hall
      rw [Nat.add_sub_cancel_left]
      exact hfield _ hr
    · obtain ⟨hc, hne, hadj⟩ := hspec h0
      rw [if_neg h0] at hmerge
      obtain ⟨low, up, hlow, hup, hnext, hle, hge, hstep⟩ : ∃ low up, low ∈ chain ∧ up ∈ chain ∧
          up = low + s.size low ∧ low ≤ r ∧ r + s.size r ≤ up + s.size up ∧
          GlobalState.mergeLoop inner outer (s.merge low up) low = some s' := by
        have hposr := h.pos r hr
        have hposc := h.pos c hc
        by_cases hlt : r < c
        · rw [if_pos hlt] at hmerge
          exact ⟨r, c, hr, hc, by omega, le_rfl, by omega, hmerge⟩
        · rw [if_neg hlt] at hmerge
          exact ⟨c, r, hc, hr, by omega, by omega, le_rfl, hmerge⟩
      have hposlow := h.pos low hlow
      have hposup := h.pos up hup
      have hlow' : low ∈ chain.erase up := (List.mem_erase_of_ne (by omega)).mpr hlow
      have hlen : (chain.erase up).length < inner := lt_of_le_of_lt List.length_erase_le hinner
      by_cases hsum : s.size low + s.size up < sizeLimit
      · obtain ⟨hmerged, hsize, hbytes⟩ := h.merge hlow hup hnext hsum
        have hfield' : ∀ a ∈ chain.erase up, (s.merge low up).size a < sizeLimit := fun a ha => by
          by_cases heq : a = low
          · subst heq
            omega
          · rw [size_merge_of_ne heq]
            exact hfield a (List.mem_of_mem_erase ha)
        -- a run around `r` can be extended by the two regions
        have hfit' : ¬ (s.merge low up).RunFits (chain.erase up) low := fun hrun => by
          refine hfit fun lo hi hlo hhi hall => ?_
          have hext := hrun (min lo low) (max hi (up + s.size up)) (min_le_right _ _) (by omega)
            fun x hxlo hxhi => (hbytes x).mpr (by
              by_cases hin : lo ≤ x ∧ x < hi
              · exact hall x hin.1 hin.2
              · by_cases hx : x < up
                · exact ⟨low, hlow, by omega, by omega⟩
                · exact ⟨up, hup, by omega, by omega⟩)
          omega
        obtain ⟨chain', hlist, hnodup, hsub, x, hx, hlost⟩ := ih hmerged hfield' hlow' hfit' hstep hlen
        exact ⟨chain', hlist, hnodup, List.Subset.trans hsub List.erase_subset, x, (hbytes x).mp hx, hlost⟩
      · -- the last byte of the two regions is lost
        obtain ⟨chain', hlist, hnodup, hsub, -, hbytes⟩ := mergeLoop_bytes_subset
          (h.isList.erase h.nodup hup) (h.nodup.erase up) hlow' hstep hlen
        refine ⟨chain', hlist, hnodup, List.Subset.trans hsub List.erase_subset, up + s.size up - 1,
          ⟨up, hup, by omega, by omega⟩, fun hx => ?_⟩
        obtain ⟨a, ha, hlo, hhi⟩ := hbytes _ hx
        by_cases heq : a = low
        · subst heq
          rw [size_merge_self] at hhi
          have := Nat.mod_lt (s.size a + s.size up) (show 0 < sizeLimit by decide)
          omega
        · rw [size_merge_of_ne heq] at hhi
          obtain ⟨hau, ha⟩ := h.nodup.mem_erase_iff.mp ha
          have := h.disjoint up hup a ha hau.symm
          omega

/-- A region is put in front of the list. -/
theorem pushFree (h : FreeRegions s chain) (hptr : ptr ≠ 0) (hpos : 0 < size) (hlt : size < sizeLimit)
    (hapart : ∀ a ∈ chain, a + s.size a ≤ ptr ∨ ptr + size ≤ a) :
    FreeRegions (s.pushFree ptr size) (ptr :: chain) ∧ (s.pushFree ptr size).size ptr = size ∧
      (∀ x, (s.pushFree ptr size).InRegions (ptr :: chain) x ↔
        s.InRegions chain x ∨ ptr ≤ x ∧ x < ptr + size) ∧
      KeepsOutside (ptr :: chain) s (s.pushFree ptr size) := by
  have hself : (s.pushFree ptr size).size ptr = size :=
    (GlobalState.size_setSize_self s ptr size).trans (Nat.mod_eq_of_lt hlt)
  have hnot : ptr ∉ chain := fun hmem => by
    have h₁ := hapart ptr hmem
    have h₂ := h.pos ptr hmem
    omega
  have hother : ∀ a ∈ chain, (s.pushFree ptr size).size a = s.size a := fun a ha =>
    GlobalState.size_setSize_of_ne s size (ne_of_mem_of_not_mem ha hnot)
  refine ⟨⟨(h.isList.push hptr hnot h.nodup).1, List.nodup_cons.mpr ⟨hnot, h.nodup⟩, fun a ha => ?_,
    fun a ha b hb hab => ?_⟩, hself, fun x => ?_, keepsOutside_pushFree h.isList h.nodup hptr hnot⟩
  · rcases List.mem_cons.mp ha with rfl | ha
    · rwa [hself]
    · rw [hother a ha]
      exact h.pos a ha
  · rcases List.mem_cons.mp ha with rfl | ha' <;> rcases List.mem_cons.mp hb with rfl | hb'
    · exact absurd rfl hab
    · rw [hself, hother b hb']
      exact (hapart b hb').symm
    · rw [hself, hother a ha']
      exact hapart a ha'
    · rw [hother a ha', hother b hb']
      exact h.disjoint a ha' b hb' hab
  · simp only [GlobalState.InRegions, List.mem_cons, exists_eq_or_imp, hself]
    rw [or_comm]
    refine or_congr_left (exists_congr fun a => and_congr_right fun ha => ?_)
    rw [hother a ha]

/-- `release`, when the free bytes around the region fit into one field. -/
theorem release (h : FreeRegions s chain) (hptr : ptr ≠ 0) (hpos : 0 < size)
    (hapart : ∀ a ∈ chain, a + s.size a ≤ ptr ∨ ptr + size ≤ a)
    (hfit : ∀ lo hi, lo ≤ ptr → ptr + size ≤ hi →
      (∀ x, lo ≤ x → x < hi → s.InRegions chain x ∨ ptr ≤ x ∧ x < ptr + size) → hi - lo < sizeLimit) :
    ∃ s' chain' r, (∀ inner outer, chain.length + 1 < inner → chain.length + 1 ≤ outer →
        s.releaseWith inner outer ptr size = some s') ∧
      FreeRegions s' chain' ∧
      (∀ x, s'.InRegions chain' x ↔ s.InRegions chain x ∨ ptr ≤ x ∧ x < ptr + size) ∧ r ∈ chain' ∧
      r ≤ ptr ∧ ptr + size ≤ r + s'.size r ∧ s'.Alone chain' r ∧ KeepsOutside (ptr :: chain) s s' ∧
      chain' ⊆ ptr :: chain := by
  have hlt : size < sizeLimit := by
    have := hfit ptr (ptr + size) le_rfl le_rfl fun x hlo hhi => .inr ⟨hlo, hhi⟩
    omega
  obtain ⟨hpush, hsize, hbytes, hkeep⟩ := h.pushFree hptr hpos hlt hapart
  have hrun : (s.pushFree ptr size).RunFits (ptr :: chain) ptr := fun lo hi hlo hhi hall =>
    hfit lo hi hlo (hsize ▸ hhi) fun x hxlo hxhi => (hbytes x).mp (hall x hxlo hxhi)
  obtain ⟨s', chain', r, hloop, hfree, hbytes', hr, hle, hge, halone, hkeep', hsub⟩ :=
    hpush.mergeLoop List.mem_cons_self hrun
  exact ⟨s', chain', r, hloop, hfree, fun x => (hbytes' x).trans (hbytes x), hr, hle, hsize ▸ hge, halone,
    hkeep.trans hkeep' (List.Subset.refl _), hsub⟩

/-- If the free bytes around the region do not fit into one field, `release` loses some of them. -/
theorem release_lossy (h : FreeRegions s chain) (hfield : ∀ a ∈ chain, s.size a < sizeLimit)
    (hptr : ptr ≠ 0) (hpos : 0 < size) (hapart : ∀ a ∈ chain, a + s.size a ≤ ptr ∨ ptr + size ≤ a)
    (hlo : lo ≤ ptr) (hhi : ptr + size ≤ hi)
    (hall : ∀ x, lo ≤ x → x < hi → s.InRegions chain x ∨ ptr ≤ x ∧ x < ptr + size)
    (hlong : sizeLimit ≤ hi - lo) (hrelease : s.releaseWith inner outer ptr size = some s')
    (hinner : chain.length + 1 < inner) :
    ∃ chain', IsList s'.mem.links 0 s'.ga.freeList chain' ∧ chain'.Nodup ∧ chain' ⊆ ptr :: chain ∧
      ∃ x, (s.InRegions chain x ∨ ptr ≤ x ∧ x < ptr + size) ∧ ¬ s'.InRegions chain' x := by
  have hnot : ptr ∉ chain := fun hmem => by
    have h₁ := hapart ptr hmem
    have h₂ := h.pos ptr hmem
    omega
  by_cases hlt : size < sizeLimit
  · obtain ⟨hpush, hsize, hbytes, -⟩ := h.pushFree hptr hpos hlt hapart
    have hfield' : ∀ a ∈ ptr :: chain, (s.pushFree ptr size).size a < sizeLimit :=
      List.forall_mem_cons.mpr ⟨by omega, fun a ha => by
        have : (s.pushFree ptr size).size a = s.size a :=
          GlobalState.size_setSize_of_ne _ _ (ne_of_mem_of_not_mem ha hnot)
        have := hfield a ha
        omega⟩
    have hfit : ¬ (s.pushFree ptr size).RunFits (ptr :: chain) ptr := fun hrun => by
      have := hrun lo hi hlo (hsize.symm ▸ hhi) fun x hxlo hxhi => (hbytes x).mpr (hall x hxlo hxhi)
      omega
    obtain ⟨chain', hlist, hnodup, hsub, x, hx, hlost⟩ :=
      hpush.mergeLoop_lossy hfield' List.mem_cons_self hfit hrelease hinner
    exact ⟨chain', hlist, hnodup, hsub, x, (hbytes x).mp hx, hlost⟩
  · -- the size of the region itself does not fit
    obtain ⟨chain', hlist, hnodup, hsub, -, hbytes⟩ := mergeLoop_bytes_subset
      (h.isList.push hptr hnot h.nodup).1 (List.nodup_cons.mpr ⟨hnot, h.nodup⟩) List.mem_cons_self
      hrelease hinner
    refine ⟨chain', hlist, hnodup, hsub, ptr + size - 1, .inr (by omega), fun hx => ?_⟩
    obtain ⟨a, ha, halo, hahi⟩ := hbytes _ hx
    rcases List.mem_cons.mp ha with rfl | ha
    · have hself : (s.pushFree a size).size a = size % sizeLimit := GlobalState.size_setSize_self _ _ _
      have := Nat.mod_lt size (show 0 < sizeLimit by decide)
      omega
    · have hother : (s.pushFree ptr size).size a = s.size a :=
        GlobalState.size_setSize_of_ne _ _ (ne_of_mem_of_not_mem ha hnot)
      have := hapart a ha
      omega

/-- An interval of free bytes is not longer than all regions together. -/
theorem length_le_sum (h : FreeRegions s chain)
    (hbytes : ∀ x, lo ≤ x → x < hi → s.InRegions chain x ∨ ptr ≤ x ∧ x < ptr + size) :
    hi - lo ≤ (chain.map s.size).sum + size := by
  have hsub : Finset.Ico lo hi ⊆
      (chain.toFinset.biUnion fun a => Finset.Ico a (a + s.size a)) ∪ Finset.Ico ptr (ptr + size) := by
    intro x hx
    obtain ⟨hlo, hhi⟩ := Finset.mem_Ico.mp hx
    rcases hbytes x hlo hhi with ⟨a, ha, hmem⟩ | hmem
    · exact Finset.mem_union_left _ (Finset.mem_biUnion.mpr
        ⟨a, List.mem_toFinset.mpr ha, Finset.mem_Ico.mpr hmem⟩)
    · exact Finset.mem_union_right _ (Finset.mem_Ico.mpr hmem)
  have hcard : (chain.toFinset.biUnion fun a => Finset.Ico a (a + s.size a)).card ≤
      (chain.map s.size).sum := by
    rw [← List.sum_toFinset s.size h.nodup]
    exact Finset.card_biUnion_le.trans (le_of_eq (Finset.sum_congr rfl fun a _ => by simp))
  calc hi - lo = (Finset.Ico lo hi).card := (Nat.card_Ico lo hi).symm
    _ ≤ _ := Finset.card_le_card hsub
    _ ≤ _ := Finset.card_union_le _ _
    _ ≤ (chain.map s.size).sum + size := by
      rw [Nat.card_Ico, Nat.add_sub_cancel_left]
      omega

end FreeRegions

/-- **Releasing a region.** For every consistent list of disjoint regions and every region that is
disjoint from them, all sizes together below 2^29, `release` ends, whatever bound is set for its
loops, and leaves a consistent list of disjoint regions with the same bytes and those of the
released region. The region that has the released bytes has no neighbour on the list. -/
theorem release_merges (h : FreeRegions s chain) (hptr : ptr ≠ 0) (hpos : 0 < size)
    (hapart : ∀ a ∈ chain, a + s.size a ≤ ptr ∨ ptr + size ≤ a)
    (htotal : (chain.map s.size).sum + size < sizeLimit) :
    ∃ s' chain' r, (∀ inner outer, chain.length + 1 < inner → chain.length + 1 ≤ outer →
        s.releaseWith inner outer ptr size = some s') ∧
      (chain.length < s.allocatedBlocks → s.release ptr size = some s') ∧ FreeRegions s' chain' ∧
      (∀ x, s'.InRegions chain' x ↔ s.InRegions chain x ∨ ptr ≤ x ∧ x < ptr + size) ∧
      r ∈ chain' ∧ r ≤ ptr ∧ ptr + size ≤ r + s'.size r ∧ s'.Alone chain' r := by
  obtain ⟨s', chain', r, hloop, hfree, hbytes, hr, hle, hge, halone, -, -⟩ :=
    h.release hptr hpos hapart fun lo hi _ _ hall => (h.length_le_sum hall).trans_lt htotal
  exact ⟨s', chain', r, hloop, fun hlt => (s.release_eq ptr size).trans (hloop _ _ (by omega) (by omega)),
    hfree, hbytes, hr, hle, hge, halone⟩

/-- The first pool, when it is free. -/
theorem freeRegions_new : FreeRegions (GlobalState.new .blank) [baseAddress] where
  isList := ⟨rfl, by decide, rfl, rfl⟩
  nodup := List.nodup_singleton _
  pos := by
    intro a ha
    obtain rfl := List.mem_singleton.mp ha
    decide
  disjoint := by
    intro a ha b hb hne
    exact absurd ((List.mem_singleton.mp ha).trans (List.mem_singleton.mp hb).symm) hne

/-- The block behind the first pool is released. -/
theorem release_merges_pool : ∃ s' chain' r, FreeRegions s' chain' ∧ r ∈ chain' ∧
    (GlobalState.new .blank).release (baseAddress + minPoolSize) blockSize = some s' ∧
    r ≤ baseAddress + minPoolSize ∧ s'.Alone chain' r := by
  have hapart : ∀ a ∈ [baseAddress], a + (GlobalState.new .blank).size a ≤ baseAddress + minPoolSize ∨
      baseAddress + minPoolSize + blockSize ≤ a := by decide
  obtain ⟨s', chain', r, -, hrelease, hfree, -, hr, hle, -, halone⟩ :=
    release_merges freeRegions_new (by decide) (by decide) hapart (by decide)
  exact ⟨s', chain', r, hfree, hr, hrelease (by decide), hle, halone⟩

end Merge

end Pronto
