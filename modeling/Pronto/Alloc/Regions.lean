import Mathlib.Data.List.Perm.Basic
import Mathlib.Algebra.BigOperators.Group.List.Basic
import Pronto.Alloc.GlobalAlloc
import Pronto.Lib.Tiling

/-!
# What the memory of the global allocator consists of

At any time the mapped memory is a sequence of pieces: free regions, each with the size that its
node stores, regions that are handed out, and bytes that the allocator has lost track of. Bytes get
lost when a size does not fit into its field; the stored size is then smaller than the region.

`Regions` relates the state of the allocator to such a sequence. Every operation replaces a few
neighbouring pieces by others: taking from a region splits it, releasing one makes it free, merging
joins two, and mapping a pool appends one. `Regions.edit` is the common part of these steps.
-/

namespace Pronto

open Linked Tiling

/-- What a piece of the mapped memory is used for. -/
inductive PieceKind
  /-- A region on the free list whose node stores this size. -/
  | free (stored : ℕ)
  /-- A region that is handed out. -/
  | live
  | lost
deriving DecidableEq

/-- A piece of the mapped memory. -/
structure Piece where
  addr : ℕ
  size : ℕ
  kind : PieceKind

namespace Piece

def isFree (p : Piece) : Bool :=
  match p.kind with
  | .free _ => true
  | _ => false

def isLive (p : Piece) : Bool :=
  match p.kind with
  | .live => true
  | _ => false

/-- The number of bytes that are neither handed out nor part of a region on the free list. -/
def missing (p : Piece) : ℕ :=
  match p.kind with
  | .free stored => p.size - stored
  | .live => 0
  | .lost => p.size

def region (p : Piece) : MemoryRegion := ⟨p.addr, p.size⟩

/-- A piece consists of whole blocks, and a node stores no more than its region has. -/
structure Ok (s : GlobalState) (p : Piece) : Prop where
  pos : 0 < p.size
  blocks : blockSize ∣ p.size
  stored : ∀ v, p.kind = .free v → s.size p.addr = v ∧ v ≤ p.size ∧ blockSize ∣ v ∧ v < sizeLimit

end Piece

/-- A size that does not fit into the field gets smaller. -/
theorem mod_sizeLimit_lt_iff {n : ℕ} : n % sizeLimit < n ↔ sizeLimit ≤ n := by
  constructor
  · intro hlt
    by_contra hgt
    rw [Nat.mod_eq_of_lt (by omega)] at hlt
    omega
  · exact fun hle => lt_of_lt_of_le (Nat.mod_lt n (by decide)) hle

/-- The nodes of the free regions. -/
def freeNodes (ps : List Piece) : List ℕ := (ps.filter Piece.isFree).map Piece.addr

/-- The regions that are handed out. -/
def liveRegions (ps : List Piece) : List MemoryRegion := (ps.filter Piece.isLive).map Piece.region

/-- The number of bytes that are missing from the given pieces. -/
def missingBytes (ps : List Piece) : ℕ := (ps.map Piece.missing).sum

@[simp] theorem freeNodes_append (ps qs : List Piece) :
    freeNodes (ps ++ qs) = freeNodes ps ++ freeNodes qs := by
  simp [freeNodes]

@[simp] theorem liveRegions_append (ps qs : List Piece) :
    liveRegions (ps ++ qs) = liveRegions ps ++ liveRegions qs := by
  simp [liveRegions]

@[simp] theorem missingBytes_append (ps qs : List Piece) :
    missingBytes (ps ++ qs) = missingBytes ps + missingBytes qs := by
  simp [missingBytes]

section Cons

variable (a n v : ℕ) (ps : List Piece)

@[simp] theorem freeNodes_nil : freeNodes [] = [] := rfl
@[simp] theorem freeNodes_free : freeNodes (⟨a, n, .free v⟩ :: ps) = a :: freeNodes ps := rfl
@[simp] theorem freeNodes_live : freeNodes (⟨a, n, .live⟩ :: ps) = freeNodes ps := rfl
@[simp] theorem freeNodes_lost : freeNodes (⟨a, n, .lost⟩ :: ps) = freeNodes ps := rfl

@[simp] theorem liveRegions_nil : liveRegions [] = [] := rfl
@[simp] theorem liveRegions_free : liveRegions (⟨a, n, .free v⟩ :: ps) = liveRegions ps := rfl
@[simp] theorem liveRegions_live :
    liveRegions (⟨a, n, .live⟩ :: ps) = ⟨a, n⟩ :: liveRegions ps := rfl
@[simp] theorem liveRegions_lost : liveRegions (⟨a, n, .lost⟩ :: ps) = liveRegions ps := rfl

@[simp] theorem missingBytes_nil : missingBytes [] = 0 := rfl
@[simp] theorem missingBytes_free :
    missingBytes (⟨a, n, .free v⟩ :: ps) = n - v + missingBytes ps := List.sum_cons
@[simp] theorem missingBytes_live : missingBytes (⟨a, n, .live⟩ :: ps) = missingBytes ps :=
  List.sum_cons.trans (Nat.zero_add _)
@[simp] theorem missingBytes_lost : missingBytes (⟨a, n, .lost⟩ :: ps) = n + missingBytes ps :=
  List.sum_cons

end Cons

/-- The nodes are the addresses of the free pieces. -/
theorem mem_freeNodes {ps : List Piece} {a : ℕ} :
    a ∈ freeNodes ps ↔ ∃ p ∈ ps, p.addr = a ∧ ∃ v, p.kind = .free v := by
  simp only [freeNodes, List.mem_map, List.mem_filter, and_assoc]
  refine exists_congr fun p => and_congr_right fun _ => ?_
  rw [and_comm]
  refine and_congr_right fun _ => ?_
  obtain ⟨addr, size, kind⟩ := p
  cases kind <;> simp [Piece.isFree]

/-- The live regions are those of the live pieces. -/
theorem mem_liveRegions {ps : List Piece} {m : MemoryRegion} :
    m ∈ liveRegions ps ↔ ∃ p ∈ ps, p.region = m ∧ p.kind = .live := by
  simp only [liveRegions, List.mem_map, List.mem_filter, and_assoc]
  refine exists_congr fun p => and_congr_right fun _ => ?_
  rw [and_comm]
  refine and_congr_right fun _ => ?_
  obtain ⟨addr, size, kind⟩ := p
  cases kind <;> simp [Piece.isLive]

/-- The mapped memory consists of the pieces `ps`; `chain` is the free list and `live` are the
regions handed out. -/
structure Regions (s : GlobalState) (live : List MemoryRegion) (ps : List Piece) (chain : List ℕ) :
    Prop where
  tiles : Tiles Piece.addr Piece.size baseAddress ps s.limit
  ok : ∀ p ∈ ps, p.Ok s
  isList : IsList s.mem.links 0 s.ga.freeList chain
  nodes : chain.Perm (freeNodes ps)
  live : live.Perm (liveRegions ps)
  pools : Tiles MemoryRegion.ptr MemoryRegion.size baseAddress s.ga.mappedRegions s.limit
  mapped : s.ga.mappedRegions ≠ []
  truncated : s.ga.truncated = true ↔ 0 < missingBytes ps

namespace Regions

variable {s s' : GlobalState} {live live' : List MemoryRegion} {ps l r W W' : List Piece}
  {p : Piece} {chain chain' : List ℕ} {a m n : ℕ}

theorem pos (h : Regions s live ps chain) : ∀ p ∈ ps, 0 < p.size := fun p hp => (h.ok p hp).pos

theorem nodup (h : Regions s live ps chain) : chain.Nodup := by
  refine h.nodes.nodup_iff.mpr ?_
  exact (h.tiles.nodup_starts h.pos).sublist (List.filter_sublist.map _)

theorem mem_chain (h : Regions s live ps chain) {a : ℕ} :
    a ∈ chain ↔ ∃ p ∈ ps, p.addr = a ∧ ∃ v, p.kind = .free v :=
  h.nodes.mem_iff.trans mem_freeNodes

/-- The piece of a node. -/
theorem split (h : Regions s live ps chain) {a : ℕ} (ha : a ∈ chain) :
    ∃ l r e, ps = l ++ ⟨a, e, .free (s.size a)⟩ :: r ∧ s.size a ≤ e ∧ blockSize ∣ s.size a ∧
      s.size a < sizeLimit := by
  obtain ⟨⟨addr, e, kind⟩, hp, rfl, v, hv⟩ := h.mem_chain.mp ha
  obtain ⟨hsize, hle, hdvd, hlt⟩ := (h.ok _ hp).stored v hv
  dsimp only at hv hsize hle
  subst hv hsize
  obtain ⟨l, r, hsplit⟩ := List.append_of_mem hp
  exact ⟨l, r, e, hsplit, hle, hdvd, hlt⟩

/-- The piece of a region that is handed out. -/
theorem split_live (h : Regions s live ps chain) {m : MemoryRegion} (hm : m ∈ live) :
    ∃ l r, ps = l ++ ⟨m.ptr, m.size, .live⟩ :: r := by
  obtain ⟨⟨addr, size, kind⟩, hp, rfl, hkind⟩ := mem_liveRegions.mp (h.live.mem_iff.mp hm)
  dsimp only at hkind
  subst hkind
  exact List.append_of_mem hp

/-- The free list has no more nodes than there are blocks. -/
theorem length_le (h : Regions s live ps chain) : chain.length ≤ s.allocatedBlocks := by
  have hlen : chain.length ≤ ps.length := by
    rw [h.nodes.length_eq, freeNodes, List.length_map]
    exact List.length_filter_le _ _
  have htiles := h.tiles.length_mul_le (k := blockSize) fun p hp =>
    Nat.le_of_dvd (h.ok p hp).pos (h.ok p hp).blocks
  refine le_trans hlen ((Nat.le_div_iff_mul_le (by decide)).mpr ?_)
  rw [Nat.mul_comm]
  omega

/-- Nodes stand in mapped memory. -/
theorem addr_ne_zero (h : Regions s live ps chain) {p : Piece} (hp : p ∈ ps) : p.addr ≠ 0 := by
  have := (h.tiles.mem_bounds hp).1
  have : 0 < baseAddress := by decide
  omega

/-- Replace neighbouring pieces by others that fill the same range. -/
theorem edit (h : Regions s live ps chain) (hps : ps = l ++ W ++ r)
    (htiles : ∀ a b, Tiles Piece.addr Piece.size a W b → Tiles Piece.addr Piece.size a W' b)
    (hok : ∀ p ∈ W', p.Ok s')
    (hsize : ∀ p ∈ l ++ r, s'.size p.addr = s.size p.addr)
    (hlist : IsList s'.mem.links 0 s'.ga.freeList chain')
    (hnodes : chain'.Perm (freeNodes l ++ freeNodes W' ++ freeNodes r))
    (hlive : live'.Perm (liveRegions l ++ liveRegions W' ++ liveRegions r))
    (hmapped : s'.ga.mappedRegions = s.ga.mappedRegions)
    (hle : missingBytes W ≤ missingBytes W')
    (htrunc : s'.ga.truncated = true ↔
      s.ga.truncated = true ∨ missingBytes W < missingBytes W') :
    Regions s' live' (l ++ W' ++ r) chain' := by
  subst hps
  have hlimit : s'.limit = s.limit := by simp only [GlobalState.limit, hmapped]
  -- the other pieces are as before, since their sizes are
  have hother : ∀ p ∈ l ++ r, p.Ok s' := fun p hp => by
    have hp' : p ∈ l ++ W ++ r := by
      simp only [List.mem_append] at hp ⊢
      tauto
    obtain ⟨hpos, hblocks, hstored⟩ := h.ok p hp'
    exact ⟨hpos, hblocks, fun v hv => by rw [hsize p hp]; exact hstored v hv⟩
  refine ⟨?_, ?_, hlist, ?_, ?_, ?_, ?_, ?_⟩
  · obtain ⟨b, hlW, hr⟩ := tiles_append.mp h.tiles
    obtain ⟨a, hl, hW⟩ := tiles_append.mp hlW
    rw [hlimit]
    exact (hl.append (htiles a b hW)).append hr
  · intro p hp
    simp only [List.mem_append] at hp hother
    rcases hp with (hp | hp) | hp
    · exact hother p (.inl hp)
    · exact hok p hp
    · exact hother p (.inr hp)
  · simpa using hnodes
  · simpa using hlive
  · rw [hmapped, hlimit]
    exact h.pools
  · rw [hmapped]
    exact h.mapped
  · have hbefore := h.truncated
    simp only [missingBytes_append] at hbefore ⊢
    rw [htrunc, hbefore]
    omega

/-- The other pieces start elsewhere. -/
theorem addr_ne (h : Regions s live (l ++ p :: r) chain) {q : Piece} (hq : q ∈ l ++ r) :
    q.addr ≠ p.addr := by
  have hnodup := h.tiles.nodup_starts h.pos
  rw [List.map_append, List.map_cons, List.nodup_middle, ← List.map_append] at hnodup
  exact fun heq => (List.nodup_cons.mp hnodup).1 (List.mem_map.mpr ⟨q, hq, heq⟩)

/-! ## Releasing a region -/

/-- A region in use becomes a node. -/
theorem pushFree (h : Regions s live ps chain) {m : MemoryRegion} (hm : m ∈ live) :
    ∃ ps', Regions (s.pushFree m.ptr m.size) (live.erase m) ps' (m.ptr :: chain) := by
  obtain ⟨l, r, rfl⟩ := h.split_live hm
  have hok := h.ok ⟨m.ptr, m.size, .live⟩ (by simp)
  have hne := h.addr_ne_zero (p := ⟨m.ptr, m.size, .live⟩) (by simp)
  have hother : ∀ p ∈ l ++ r, p.addr ≠ m.ptr := fun p hp => h.addr_ne hp
  have hnodes := h.nodes
  have hlive := h.live
  simp only [freeNodes_append, freeNodes_live, liveRegions_append, liveRegions_live] at hnodes hlive
  have hnew : m.ptr ∉ chain := fun hmem => by
    rw [hnodes.mem_iff, ← freeNodes_append, mem_freeNodes] at hmem
    obtain ⟨p, hp, hpa, -⟩ := hmem
    exact hother p hp hpa
  refine ⟨l ++ [⟨m.ptr, m.size, .free (m.size % sizeLimit)⟩] ++ r,
    h.edit (List.append_cons l _ r) (fun a b => id) ?_ ?_ ?_ ?_ ?_ rfl ?_ ?_⟩
  · simp only [List.mem_singleton, forall_eq]
    refine ⟨hok.pos, hok.blocks, fun v hv => ?_⟩
    cases hv
    refine ⟨GlobalState.size_setSize_self _ _ _, Nat.mod_le _ _, ?_, Nat.mod_lt _ (by decide)⟩
    exact (Nat.dvd_mod_iff (by decide)).mpr hok.blocks
  · exact fun p hp => GlobalState.size_setSize_of_ne _ _ (hother p hp)
  · exact (h.isList.push hne hnew h.nodup).1
  · simp only [freeNodes_free, freeNodes_nil, List.append_assoc, List.singleton_append]
    exact (hnodes.cons m.ptr).trans List.perm_middle.symm
  · simp only [liveRegions_free, liveRegions_nil, List.append_nil]
    have := (hlive.trans List.perm_middle).erase m
    rwa [List.erase_cons_head] at this
  · simp
  · -- bytes are lost exactly when the size does not fit
    refine (GlobalState.truncated_setSize s m.ptr m.size).trans (or_congr_right ?_)
    simp only [missingBytes_live, missingBytes_nil, missingBytes_free, Nat.add_zero]
    have := mod_sizeLimit_lt_iff (n := m.size)
    omega

/-- A node and the node right behind its region, as the stored size has it, are neighbours, and
nothing of the first one is missing. -/
theorem split_pair (h : Regions s live ps chain) {a b : ℕ} (ha : a ∈ chain) (hb : b ∈ chain)
    (hne : a ≠ b) (hab : b = a + s.size a) :
    ∃ l r e, ps = l ++ ⟨a, s.size a, .free (s.size a)⟩ :: ⟨b, e, .free (s.size b)⟩ :: r := by
  obtain ⟨l, r, e, rfl, hle, -, -⟩ := h.split ha
  obtain ⟨l', r', e', hsplit, -, -, -⟩ := h.split hb
  have hb' : ⟨b, e', .free (s.size b)⟩ ∈ l ++ ⟨a, e, .free (s.size a)⟩ :: r := by
    rw [hsplit]
    simp
  have he : s.size a = e := by
    obtain ⟨hl, hr, -, -⟩ := h.tiles.around
    have hpos := h.pos _ hb'
    rcases List.mem_append.mp hb' with hmem | hmem
    · have := hl _ hmem
      dsimp only at this hpos
      omega
    · rcases List.mem_cons.mp hmem with heq | hmem
      · cases heq
        exact absurd rfl hne
      · have := hr _ hmem
        dsimp only at this
        omega
  obtain ⟨r, rfl⟩ := h.tiles.next h.pos hb' (show b = a + e by omega)
  exact ⟨l, r, e', by rw [he]⟩

/-- A free region is extended to include the next one. -/
theorem merge (h : Regions s live ps chain) {a b : ℕ} (ha : a ∈ chain) (hb : b ∈ chain)
    (hne : a ≠ b) (hab : b = a + s.size a) :
    ∃ ps', Regions (s.merge a b) live ps' (chain.erase b) := by
  obtain ⟨l, r, e, rfl⟩ := h.split_pair ha hb hne hab
  have hoka := h.ok ⟨a, s.size a, .free (s.size a)⟩ (by simp)
  have hokb := h.ok ⟨b, e, .free (s.size b)⟩ (by simp)
  obtain ⟨-, hleb, hdvdb, -⟩ := hokb.stored _ rfl
  have hother : ∀ p ∈ l ++ r, p.addr ≠ a := fun p hp =>
    h.addr_ne (p := ⟨a, s.size a, .free (s.size a)⟩) (by simp only [List.mem_append] at hp ⊢; tauto)
  have hlist := h.isList.erase h.nodup hb
  have hnodes := h.nodes
  have hlive := h.live
  simp only [freeNodes_append, freeNodes_free, liveRegions_append, liveRegions_free] at hnodes hlive
  refine ⟨l ++ [⟨a, s.size a + e, .free ((s.size a + s.size b) % sizeLimit)⟩] ++ r,
    h.edit (W := [⟨a, s.size a, .free (s.size a)⟩, ⟨b, e, .free (s.size b)⟩]) (by simp)
      ?_ ?_ ?_ hlist ?_ ?_ rfl ?_ ?_⟩
  · -- the two regions are adjacent, so one piece takes their place
    rintro x y ⟨hx, -, hy⟩
    refine ⟨hx, ?_⟩
    show x + (s.size a + e) = y
    have : x + s.size a + e = y := hy
    omega
  · simp only [List.mem_singleton, forall_eq]
    have hpos := hoka.pos
    dsimp only at hpos
    refine ⟨?_, Nat.dvd_add hoka.blocks hokb.blocks, fun v hv => ?_⟩
    · show 0 < s.size a + e
      omega
    · cases hv
      refine ⟨GlobalState.size_setSize_self _ _ _, ?_, ?_, Nat.mod_lt _ (by decide)⟩
      · exact le_trans (Nat.mod_le _ _) (Nat.add_le_add_left hleb _)
      · exact (Nat.dvd_mod_iff (by decide)).mpr (Nat.dvd_add hoka.blocks hdvdb)
  · exact fun p hp => GlobalState.size_setSize_of_ne _ _ (hother p hp)
  · simp only [freeNodes_free, freeNodes_nil, List.append_assoc, List.singleton_append]
    have hswap : (freeNodes l ++ a :: b :: freeNodes r).Perm
        (b :: (freeNodes l ++ a :: freeNodes r)) :=
      (List.Perm.append_left _ (List.Perm.swap b a _)).trans List.perm_middle
    have := (hnodes.trans hswap).erase b
    rwa [List.erase_cons_head] at this
  · simpa using hlive
  · simp only [missingBytes_free, missingBytes_nil]
    have := Nat.mod_le (s.size a + s.size b) sizeLimit
    dsimp only at hleb
    omega
  · refine (GlobalState.truncated_setSize s a _).trans (or_congr_right ?_)
    simp only [missingBytes_nil, missingBytes_free, Nat.add_zero]
    have := mod_sizeLimit_lt_iff (n := s.size a + s.size b)
    dsimp only at hleb
    omega

/-! ## Taking from a free region -/

/-- What is missing from a region stays behind when the region is used up. -/
def lostTail (a n : ℕ) : List Piece := if n = 0 then [] else [⟨a, n, .lost⟩]

theorem tiles_lostTail (a n : ℕ) : Tiles Piece.addr Piece.size a (lostTail a n) (a + n) := by
  unfold lostTail
  split
  · rename_i hn
    simp [Tiles, hn]
  · exact ⟨rfl, rfl⟩

theorem freeNodes_lostTail (a n : ℕ) : freeNodes (lostTail a n) = [] := by
  unfold lostTail
  split <;> rfl

theorem liveRegions_lostTail (a n : ℕ) : liveRegions (lostTail a n) = [] := by
  unfold lostTail
  split <;> rfl

theorem missingBytes_lostTail (a n : ℕ) : missingBytes (lostTail a n) = n := by
  unfold lostTail
  split
  · rename_i hn
    simp [hn]
  · simp

/-- Whole blocks are lost. -/
theorem ok_lostTail {a n : ℕ} (hn : blockSize ∣ n) : ∀ p ∈ lostTail a n, p.Ok s := by
  unfold lostTail
  split
  · simp
  · rename_i hpos
    simp only [List.mem_singleton, forall_eq]
    exact ⟨Nat.pos_of_ne_zero hpos, hn, fun v hv => by cases hv⟩

theorem ok_live {a n : ℕ} (hpos : 0 < n) (hn : blockSize ∣ n) : Piece.Ok s ⟨a, n, .live⟩ :=
  ⟨hpos, hn, fun v hv => by cases hv⟩

/-- A part of a free region is handed out. -/
theorem takePart (h : Regions s live ps chain) {a size : ℕ} (ha : a ∈ chain)
    (hlt : size < s.size a) (hpos : 0 < size) (hdvd : blockSize ∣ size) :
    ∃ ps', Regions (s.setSize a (s.size a - size)) (⟨a + (s.size a - size), size⟩ :: live) ps'
      chain := by
  obtain ⟨l, r, e, rfl, hle, hblocks, hlim⟩ := h.split ha
  have hok := h.ok ⟨a, e, .free (s.size a)⟩ (by simp)
  have hother : ∀ p ∈ l ++ r, p.addr ≠ a := fun p hp => h.addr_ne hp
  have hnodes := h.nodes
  have hlive := h.live
  have hlist := h.isList
  simp only [freeNodes_append, freeNodes_free, liveRegions_append, liveRegions_free] at hnodes hlive
  have hmod : (s.size a - size) % sizeLimit = s.size a - size := Nat.mod_eq_of_lt (by omega)
  have hrest : blockSize ∣ s.size a - size := Nat.dvd_sub hblocks hdvd
  -- the piece is cut in three: the rest, the region handed out, and what the node had lost already
  refine ⟨l ++ (⟨a, s.size a - size, .free (s.size a - size)⟩ ::
    ⟨a + (s.size a - size), size, .live⟩ :: lostTail (a + s.size a) (e - s.size a)) ++ r,
    h.edit (List.append_cons l _ r) ?_ ?_ ?_ hlist ?_ ?_ rfl ?_ ?_⟩
  · rintro x y ⟨rfl, hy⟩
    refine ⟨rfl, rfl, ?_⟩
    have htail := tiles_lostTail (a + s.size a) (e - s.size a)
    have hx : a + (s.size a - size) + size = a + s.size a := by omega
    have hy' : y = a + s.size a + (e - s.size a) := by
      have : a + e = y := hy
      omega
    rw [hy']
    dsimp only
    rw [hx]
    exact htail
  · simp only [List.forall_mem_cons]
    refine ⟨⟨?_, hrest, fun v hv => ?_⟩, ok_live hpos hdvd, ok_lostTail (Nat.dvd_sub hok.blocks hblocks)⟩
    · dsimp only
      omega
    · cases hv
      refine ⟨(GlobalState.size_setSize_self _ _ _).trans hmod, le_rfl, hrest, ?_⟩
      omega
  · exact fun p hp => GlobalState.size_setSize_of_ne _ _ (hother p hp)
  · simpa [freeNodes_lostTail] using hnodes
  · simp only [liveRegions_free, liveRegions_live, liveRegions_lostTail, List.append_assoc,
      List.singleton_append]
    exact (hlive.cons _).trans List.perm_middle.symm
  · simp only [missingBytes_free, missingBytes_live, missingBytes_lostTail, missingBytes_nil]
    omega
  · refine (GlobalState.truncated_setSize s a _).trans (or_congr_right ?_)
    simp only [missingBytes_free, missingBytes_live, missingBytes_lostTail, missingBytes_nil]
    omega

/-- Taking a node out as `alloc` does it, forward link first, is taking it out. -/
theorem takeFrom_whole {a : ℕ} (hprev : s.mem.links.prev a ≠ a) (hnext : s.mem.links.next a ≠ a) :
    s.takeFrom a (s.size a) =
      (a, ⟨{ (s.setSize a 0).mem with links := s.mem.links.unlink a },
        { (s.setSize a 0).ga with
          freeList := s.mem.links.headAfter s.ga.freeList a }⟩) := by
  have hzero : (s.setSize a 0).size a = 0 := by simp
  simp only [GlobalState.takeFrom, Nat.sub_self, hzero, if_true, Nat.add_zero,
    GlobalState.links_setSize, Links.unlink, Links.headAfter]
  by_cases hn : s.mem.links.next a = 0 <;> by_cases hp : s.mem.links.prev a = 0 <;>
    simp [hn, hp, Links.setPrev, Links.setNext, Function.update_of_ne (Ne.symm hnext),
      Function.update_of_ne (Ne.symm hprev), GlobalState.setSize]

/-- A whole free region is handed out. -/
theorem takeWhole (h : Regions s live ps chain) {a : ℕ} (ha : a ∈ chain) (hpos : 0 < s.size a) :
    ∃ ps', Regions (s.takeFrom a (s.size a)).2 (⟨(s.takeFrom a (s.size a)).1, s.size a⟩ :: live) ps'
      (chain.erase a) := by
  obtain ⟨hprev, hnext⟩ := h.isList.links_ne h.nodup ha
  obtain ⟨l, r, e, rfl, hle, hblocks, hlim⟩ := h.split ha
  have hok := h.ok ⟨a, e, .free (s.size a)⟩ (by simp)
  have hother : ∀ p ∈ l ++ r, p.addr ≠ a := fun p hp => h.addr_ne hp
  have hnodes := h.nodes
  have hlive := h.live
  have hlist := h.isList.erase h.nodup ha
  simp only [freeNodes_append, freeNodes_free, liveRegions_append, liveRegions_free] at hnodes hlive
  rw [takeFrom_whole hprev hnext]
  refine ⟨l ++ (⟨a, s.size a, .live⟩ :: lostTail (a + s.size a) (e - s.size a)) ++ r,
    h.edit (List.append_cons l _ r) ?_ ?_ ?_ hlist ?_ ?_ rfl ?_ ?_⟩
  · rintro x y ⟨rfl, hy⟩
    refine ⟨rfl, ?_⟩
    have hy' : y = a + s.size a + (e - s.size a) := by
      have : a + e = y := hy
      omega
    rw [hy']
    exact tiles_lostTail _ _
  · simp only [List.forall_mem_cons]
    exact ⟨ok_live hpos hblocks, ok_lostTail (Nat.dvd_sub hok.blocks hblocks)⟩
  · exact fun p hp => GlobalState.size_setSize_of_ne _ _ (hother p hp)
  · have := (hnodes.trans List.perm_middle).erase a
    rw [List.erase_cons_head] at this
    simpa [freeNodes_lostTail] using this
  · simp only [liveRegions_live, liveRegions_lostTail, List.append_assoc, List.singleton_append]
    exact (hlive.cons _).trans List.perm_middle.symm
  · simp only [missingBytes_free, missingBytes_live, missingBytes_lostTail, missingBytes_nil]
    omega
  · refine (GlobalState.truncated_setSize s a _).trans (or_congr_right ?_)
    simp only [missingBytes_free, missingBytes_live, missingBytes_lostTail, missingBytes_nil]
    have : 0 < sizeLimit := by decide
    omega

/-- **Taking from a region.** Its end is handed out. The rest keeps its node, is taken off the
list when nothing is left, and loses bytes when its size does not fit into the field. -/
theorem takeFrom (h : Regions s live ps chain) {a size : ℕ} (ha : a ∈ chain)
    (hle : size ≤ s.size a) (hpos : 0 < size) (hdvd : blockSize ∣ size) :
    ∃ ps' chain', Regions (s.takeFrom a size).2 (⟨(s.takeFrom a size).1, size⟩ :: live) ps'
      chain' := by
  rcases Nat.eq_or_lt_of_le hle with rfl | hlt
  · obtain ⟨ps', h'⟩ := h.takeWhole ha hpos
    exact ⟨ps', _, h'⟩
  · obtain ⟨-, -, -, -, -, -, hlim⟩ := h.split ha
    obtain ⟨ps', h'⟩ := h.takePart ha hlt hpos hdvd
    have hsize : (s.setSize a (s.size a - size)).size a = s.size a - size := by
      rw [GlobalState.size_setSize_self, Nat.mod_eq_of_lt (by omega)]
    have htake : s.takeFrom a size =
        (a + (s.size a - size), s.setSize a (s.size a - size)) := by
      simp only [GlobalState.takeFrom, hsize]
      rw [if_neg (by omega)]
    rw [htake]
    exact ⟨ps', chain, h'⟩

/-! ## Mapping a pool -/

/-- A new pool, all of it in use. -/
theorem map (h : Regions s live ps chain) {n : ℕ} (hpos : 0 < n) (hdvd : blockSize ∣ n) :
    Regions { s with ga := { s.ga with mappedRegions := s.ga.mappedRegions ++ [⟨s.limit, n⟩] } }
      (⟨s.limit, n⟩ :: live) (ps ++ [⟨s.limit, n, .live⟩]) chain where
  tiles := by
    simp only [GlobalState.limit, List.getLast?_concat]
    exact h.tiles.append (Tiles.singleton rfl)
  ok := List.forall_mem_append.mpr ⟨fun p hp => ⟨(h.ok p hp).pos, (h.ok p hp).blocks,
    (h.ok p hp).stored⟩, by simpa using ok_live hpos hdvd⟩
  isList := h.isList
  nodes := by simpa using h.nodes
  live := by
    simp only [liveRegions_append, liveRegions_live, liveRegions_nil]
    exact (h.live.cons _).trans (List.perm_append_singleton _ _).symm
  pools := by
    simp only [GlobalState.limit, List.getLast?_concat]
    exact h.pools.append (Tiles.singleton rfl)
  mapped := by simp
  truncated := by simpa using h.truncated

/-- A region in use may be seen as two. -/
theorem cut (h : Regions s (⟨a, m + n⟩ :: live) ps chain) (hm : 0 < m ∧ blockSize ∣ m)
    (hn : 0 < n ∧ blockSize ∣ n) : ∃ ps', Regions s (⟨a, m⟩ :: ⟨a + m, n⟩ :: live) ps' chain := by
  obtain ⟨l, r, rfl⟩ := h.split_live (m := ⟨a, m + n⟩) (by simp)
  have hnodes := h.nodes
  have hlive := h.live
  have hlist := h.isList
  simp only [freeNodes_append, freeNodes_live, liveRegions_append, liveRegions_live] at hnodes hlive
  refine ⟨l ++ [⟨a, m, .live⟩, ⟨a + m, n, .live⟩] ++ r,
    h.edit (List.append_cons l _ r) ?_ ?_ (fun _ _ => rfl) hlist ?_ ?_ rfl ?_ ?_⟩
  · rintro x y ⟨rfl, hy⟩
    refine ⟨rfl, rfl, ?_⟩
    show a + m + n = y
    have : a + (m + n) = y := hy
    omega
  · simp only [List.forall_mem_cons]
    exact ⟨ok_live hm.1 hm.2, ok_live hn.1 hn.2, by simp⟩
  · simpa using hnodes
  · have hrest : live.Perm (liveRegions l ++ liveRegions r) :=
      (List.perm_cons _).mp (hlive.trans List.perm_middle)
    simp only [liveRegions_live, liveRegions_nil, List.append_assoc, List.cons_append,
      List.nil_append]
    refine ((hrest.cons _).cons _).trans ?_
    exact (List.perm_middle.symm.cons _).trans List.perm_middle.symm
  · simp
  · simp

end Regions

end Pronto
