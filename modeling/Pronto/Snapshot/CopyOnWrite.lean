import Pronto.Lib.Runs
import Pronto.Snapshot.Restore

/-!
# Copy on write

While threads are stopped, `markPagesReadOnly` takes the write permission from every block that has
a page to save and notes the block in `context`. Afterwards the blocks are copied by the snapshot
threads and, for the blocks that are written to meanwhile, by the fault handler: whoever moves the
word of a block from `UsedHugePage` to `LockedHugePage` copies the block, makes it writable again
and moves the word to `SavedHugePage`.
-/

namespace Pronto

open Function Memory Runs

/-- The values of `context[b]`; `blank` is what `prepareSnapshot` fills the array with. -/
inductive HugePage where
  | blank
  | used
  | free
  | locked
  | saved
deriving DecidableEq, Repr

/-! ## Taking the write permission -/

/-- The local variables of `markPagesReadOnly`, the words of `context` and the ranges that have been given
to `mprotect`. -/
structure MarkState where
  bitmapOffset : ℕ
  regionSize : ℕ
  addr : ℕ
  context : ℕ → HugePage
  protects : List (ℕ × ℕ)

/-- The `mprotect` of the current region, if there is one. -/
def MarkState.flush (s : MarkState) : List (ℕ × ℕ) :=
  if 0 < s.regionSize then s.protects ++ [(s.addr, s.regionSize)] else s.protects

/-- The loop body of `markPagesReadOnly` for block `b`. -/
def markBlock (bitmap : ℕ → BitVec 64) (s : MarkState) (b : ℕ) : MarkState :=
  let isAllocated := (List.range 8).any fun i => bitmap (s.bitmapOffset + i) != 0
  if isAllocated then
    { s with
      bitmapOffset := s.bitmapOffset + 8
      context := Function.update s.context b .used
      regionSize := s.regionSize + blockSize }
  else
    { bitmapOffset := s.bitmapOffset + 8
      context := Function.update s.context b .free
      protects := s.flush
      regionSize := 0
      addr := baseAddress + (b + 1) * blockSize }

/-- The loop of `markPagesReadOnly` over the first `n` blocks. -/
def markBlocks (bitmap : ℕ → BitVec 64) (context : ℕ → HugePage) (n : ℕ) : MarkState :=
  (List.range n).foldl (markBlock bitmap) ⟨0, 0, baseAddress, context, []⟩

/-- `Snapshot::markPagesReadOnly`. -/
def markPagesReadOnly (bitmap : ℕ → BitVec 64) (context : ℕ → HugePage) (allocatedBlocks : ℕ) :
    MarkState :=
  let s := markBlocks bitmap context allocatedBlocks
  { s with protects := s.flush }

/-- The ranges that an address is in. -/
def rangesAt (ranges : List (ℕ × ℕ)) (x : ℕ) : List (ℕ × ℕ) :=
  ranges.filter fun r => r.1 ≤ x ∧ x < r.1 + r.2

/-- The number of the block of an address. -/
def blockOf (x : ℕ) : ℕ := (x - baseAddress) / blockSize

section Marking

variable {bitmap : ℕ → BitVec 64} {context : ℕ → HugePage} {n first b x : ℕ} {s : MarkState}

/-- A block is in use when one of its pages has its bit set. -/
theorem blockUsed_iff_pageSet :
    blockUsed bitmap b = true ↔ ∃ page, page / 512 = b ∧ pageSet bitmap page = true := by
  refine ⟨fun hused => ?_, fun ⟨page, hpage, hset⟩ => hpage ▸ blockUsed_of_pageSet hset⟩
  obtain ⟨i, hi, hcell⟩ := blockUsed_iff.mp hused
  obtain ⟨j, hj, hbit⟩ : ∃ j < 64, (bitmap (b * 8 + i)).getLsbD j = true := by
    by_contra hnone
    push Not at hnone
    exact hcell (BitVec.eq_of_getLsbD_eq fun j hj => by simpa using hnone j hj)
  have hdiv : ((b * 8 + i) * 64 + j) / 64 = b * 8 + i := by omega
  have hmod : ((b * 8 + i) * 64 + j) % 64 = j := by omega
  exact ⟨(b * 8 + i) * 64 + j, by omega, by rwa [pageSet, hdiv, hmod]⟩

/-- The address is in one of the first `n` blocks, and the block is in use. -/
def UsedBelow (bitmap : ℕ → BitVec 64) (n x : ℕ) : Prop :=
  baseAddress ≤ x ∧ blockOf x < n ∧ blockUsed bitmap (blockOf x) = true

instance : Decidable (UsedBelow bitmap n x) :=
  inferInstanceAs (Decidable (_ ∧ _ ∧ _))

/-- What the loop of `markPagesReadOnly` has done when it has been over the first `n` blocks. The
region that is not protected yet starts at block `first` and reaches to the block in front of `n`. -/
structure Marked (bitmap : ℕ → BitVec 64) (context : ℕ → HugePage) (n first : ℕ) (s : MarkState) :
    Prop where
  offset : s.bitmapOffset = n * 8
  le : first ≤ n
  addr : s.addr = baseAddress + first * blockSize
  size : s.regionSize = (n - first) * blockSize
  region : ∀ b, first ≤ b → b < n → blockUsed bitmap b = true
  words : ∀ b, s.context b =
    if b < n then if blockUsed bitmap b then .used else .free else context b
  ranges : ∀ x, (rangesAt s.protects x).length = if UsedBelow bitmap first x then 1 else 0

theorem rangesAt_append {l l' : List (ℕ × ℕ)} :
    rangesAt (l ++ l') x = rangesAt l x ++ rangesAt l' x := List.filter_append ..

/-- Protecting the current region completes the ranges of the first `n` blocks. -/
theorem Marked.flush (h : Marked bitmap context n first s) :
    (rangesAt s.flush x).length = if UsedBelow bitmap n x then 1 else 0 := by
  have hpos : 0 < blockSize := by decide
  have hx := h.ranges x
  rw [MarkState.flush]
  split
  · rw [rangesAt_append, List.length_append, hx]
    by_cases hin : s.addr ≤ x ∧ x < s.addr + s.regionSize
    · -- the address is in the region, so it is in none of the earlier blocks
      have hlo : first ≤ blockOf x := (Nat.le_div_iff_mul_le hpos).mpr (by have := h.addr; omega)
      have hhi : blockOf x < n := by
        refine (Nat.div_lt_iff_lt_mul hpos).mpr ?_
        have hsum : first * blockSize + (n - first) * blockSize = n * blockSize := by
          rw [← Nat.add_mul, Nat.add_sub_cancel' h.le]
        have haddr := h.addr
        have hsize := h.size
        omega
      have hnot : ¬ UsedBelow bitmap first x := fun hu => by have := hu.2.1; omega
      have hyes : UsedBelow bitmap n x :=
        ⟨by have := h.addr; omega, hhi, h.region _ hlo hhi⟩
      simp [rangesAt, hin, hnot, hyes]
    · -- outside the region, which holds all blocks from `first` on
      have hiff : UsedBelow bitmap n x ↔ UsedBelow bitmap first x := by
        refine ⟨fun hu => ⟨hu.1, ?_, hu.2.2⟩, fun hu => ⟨hu.1, hu.2.1.trans_le h.le, hu.2.2⟩⟩
        by_contra hge
        have hlo := (Nat.le_div_iff_mul_le hpos).mp (not_lt.mp hge)
        have hhi := (Nat.div_lt_iff_lt_mul hpos).mp hu.2.1
        have hsum : first * blockSize + (n - first) * blockSize = n * blockSize := by
          rw [← Nat.add_mul, Nat.add_sub_cancel' h.le]
        have haddr := h.addr
        have hsize := h.size
        have hbase := hu.1
        omega
      simp [rangesAt, hin, hiff]
  · have heq : first = n := by
      have hle := h.le
      have hsize := h.size
      by_contra hne
      exact absurd (Nat.mul_pos (by omega : 0 < n - first) hpos) (by omega)
    rw [hx, heq]

/-- An iteration of the loop. -/
theorem Marked.step (h : Marked bitmap context n first s) :
    ∃ first', Marked bitmap context (n + 1) first' (markBlock bitmap s n) := by
  have hused : ((List.range 8).any fun i => bitmap (s.bitmapOffset + i) != 0) = blockUsed bitmap n := by
    rw [h.offset, blockUsed]
  have hoffset : s.bitmapOffset + 8 = (n + 1) * 8 := by have := h.offset; omega
  have hwords : ∀ b, Function.update s.context n (if blockUsed bitmap n then .used else .free) b =
      if b < n + 1 then if blockUsed bitmap b then .used else .free else context b := by
    intro b
    by_cases hb : b = n
    · subst hb
      simp
    · have hlt : b < n + 1 ↔ b < n := by omega
      rw [update_of_ne hb, h.words, if_congr hlt rfl rfl]
  rw [markBlock, hused]
  by_cases hn : blockUsed bitmap n = true
  · simp only [hn, ↓reduceIte] at hwords ⊢
    refine ⟨first, hoffset, Nat.le_succ_of_le h.le, h.addr, ?_, fun b hlo hhi => ?_, hwords, h.ranges⟩
    · rw [h.size, Nat.succ_sub h.le, Nat.succ_mul]
    · rcases Nat.lt_succ_iff_lt_or_eq.mp hhi with hlt | rfl
      · exact h.region b hlo hlt
      · exact hn
  · simp only [hn, Bool.false_eq_true, ↓reduceIte] at hwords ⊢
    refine ⟨n + 1, hoffset, le_rfl, rfl, by simp, fun b hlo hhi => by omega, hwords, fun x => ?_⟩
    have hiff : UsedBelow bitmap (n + 1) x ↔ UsedBelow bitmap n x := by
      refine ⟨fun hu => ⟨hu.1, ?_, hu.2.2⟩, fun hu => ⟨hu.1, Nat.lt_succ_of_lt hu.2.1, hu.2.2⟩⟩
      exact lt_of_le_of_ne (Nat.le_of_lt_succ hu.2.1) fun heq => hn (heq ▸ hu.2.2)
    rw [h.flush, if_congr hiff rfl rfl]

/-- The loop. -/
theorem marked_markBlocks (bitmap : ℕ → BitVec 64) (context : ℕ → HugePage) (n : ℕ) :
    ∃ first, Marked bitmap context n first (markBlocks bitmap context n) := by
  induction n with
  | zero =>
    exact ⟨0, by simp [markBlocks], le_rfl, by simp [markBlocks], by simp [markBlocks],
      fun b _ hb => absurd hb (Nat.not_lt_zero b), by simp [markBlocks],
      by simp [markBlocks, rangesAt, UsedBelow]⟩
  | succ n ih =>
    obtain ⟨first, hmarked⟩ := ih
    rw [markBlocks, List.range_succ, List.foldl_append]
    exact hmarked.step

/-- A block that the loop has protected is marked as used. -/
theorem Marked.used (h : Marked bitmap context n first s) (hx : rangesAt s.protects x ≠ []) :
    s.context (blockOf x) = .used := by
  have hlen := h.ranges x
  split at hlen
  case isTrue hu => rw [h.words, if_pos (hu.2.1.trans_le h.le), if_pos hu.2.2]
  case isFalse => exact absurd (List.length_eq_zero_iff.mp hlen) hx

/-- **`markPagesReadOnly` protects the blocks with a page to save, and marks them as used.** Every
address of a block that has a set bit is in exactly one of the ranges, every other address in none. The
words of the allocated blocks say which ones these are, and no other word changes. When an address is
protected, also before the loop has ended, the word of its block says `UsedHugePage`, so that the fault
handler finds a block that it can copy and not one that it would wait for in vain. -/
theorem markPagesReadOnly_spec (bitmap : ℕ → BitVec 64) (context : ℕ → HugePage)
    (allocatedBlocks : ℕ) :
    (∀ b, blockUsed bitmap b = true ↔ ∃ page, page / 512 = b ∧ pageSet bitmap page = true) ∧
      (∀ x, (rangesAt (markPagesReadOnly bitmap context allocatedBlocks).protects x).length =
        if UsedBelow bitmap allocatedBlocks x then 1 else 0) ∧
      (∀ b, (markPagesReadOnly bitmap context allocatedBlocks).context b =
        if b < allocatedBlocks then if blockUsed bitmap b then .used else .free else context b) ∧
      (∀ n ≤ allocatedBlocks, ∀ x, rangesAt (markBlocks bitmap context n).protects x ≠ [] →
        (markBlocks bitmap context n).context (blockOf x) = .used) ∧
      ∀ x, rangesAt (markPagesReadOnly bitmap context allocatedBlocks).protects x ≠ [] →
        blockOf x < allocatedBlocks ∧
          (markPagesReadOnly bitmap context allocatedBlocks).context (blockOf x) = .used := by
  obtain ⟨first, hmarked⟩ := marked_markBlocks bitmap context allocatedBlocks
  refine ⟨fun _ => blockUsed_iff_pageSet, fun _ => hmarked.flush, hmarked.words, ?_, fun x hx => ?_⟩
  · intro n _ x hx
    obtain ⟨first', hn⟩ := marked_markBlocks bitmap context n
    exact hn.used hx
  · have hlen := hmarked.flush (x := x)
    split at hlen
    case isTrue hu => exact ⟨hu.2.1, by rw [markPagesReadOnly, hmarked.words, if_pos hu.2.1, if_pos hu.2.2]⟩
    case isFalse => exact absurd (List.length_eq_zero_iff.mp hlen) hx

end Marking

/-! ## The threads -/

/-- A thread that copies blocks: a snapshot thread, or an application thread in the fault handler. -/
inductive Copier where
  | worker (i : ℕ)
  | handler (j : ℕ)
deriving DecidableEq, Repr

/-- Where a thread is that has moved a word to `LockedHugePage`: the pages that it has still to copy, and,
when the block is writable again, the CAS to `SavedHugePage`. -/
inductive CopyPc where
  | copying (rest : List Copy)
  | marking

/-- The block that a thread copies, by its number and its address. -/
structure Copying where
  block : ℕ
  addr : ℕ
  pc : CopyPc

/-- What the copying threads and the application share. `copied` is the history of the copies. -/
structure CowShared where
  mem : Mem
  file : Mem
  readOnly : ℕ → Bool
  context : ℕ → HugePage
  copying : Copier → Option Copying
  copied : List (Copier × Copy)

/-- The local variables of `snapshotWorker`; `bitmap` is the number of a word. -/
structure WorkerLocals where
  sp : ℕ
  src : ℕ
  dst : ℕ
  bitmap : ℕ

/-- An application thread: the write of a byte, the fault handler for it up to the CAS, and the loop that
waits for another thread. -/
inductive WriterPc where
  | idle
  | writing (addr : ℕ) (byte : UInt8)
  | faulted (addr : ℕ) (byte : UInt8)
  | waiting (addr : ℕ) (byte : UInt8)

/-- The thread that takes the snapshot: `saveModifiedPages`, and the loop of `waitForFaultHandlers`. -/
inductive SnapshotPc where
  | starting
  | joining
  | waiting (i : ℕ)
  | returned
deriving DecidableEq, Repr

structure CowState extends CowShared where
  workers : ℕ → WorkerLocals
  writers : ℕ → WriterPc
  main : SnapshotPc

inductive CowAction where
  | main
  | worker (i : ℕ)
  | copy (t : Copier)
  | write (j : ℕ) (addr : ℕ) (byte : UInt8)
  | writer (j : ℕ)

/-- The CAS from `UsedHugePage` to `LockedHugePage` by thread `t`, when it succeeds. -/
def CowShared.claim (s : CowShared) (t : Copier) (block addr : ℕ) (copies : List Copy) : CowShared :=
  { s with
    context := Function.update s.context block .locked
    copying := Function.update s.copying t (some ⟨block, addr, .copying copies⟩) }

/-- The next step of a thread that copies a block. -/
def CowShared.copyStep (s : CowShared) (t : Copier) : Option CowShared :=
  match s.copying t with
  | none => none
  | some ⟨block, addr, .copying (c :: rest)⟩ =>
    some { s with
      file := c.apply s.mem s.file
      copied := s.copied ++ [(t, c)]
      copying := Function.update s.copying t (some ⟨block, addr, .copying rest⟩) }
  | some ⟨block, addr, .copying []⟩ =>
    some { s with
      readOnly := fun x => if addr ≤ x ∧ x < addr + blockSize then false else s.readOnly x
      copying := Function.update s.copying t (some ⟨block, addr, .marking⟩) }
  | some ⟨block, _, .marking⟩ =>
    if s.context block = .locked then
      some { s with
        context := Function.update s.context block .saved
        copying := Function.update s.copying t none }
    else none

/-- The pointers of `snapshotWorker` at the next block. -/
def WorkerLocals.next (w : WorkerLocals) : WorkerLocals :=
  ⟨w.sp + 1, w.src + blockSize, w.dst + blockSize, w.bitmap + 8⟩

/-- Thread `t` has done a step of copying. Behind the last one the snapshot thread goes on to the next
block, and the application thread returns from the handler to its write. -/
def CowState.resume (s : CowState) (t : Copier) : CowState :=
  if (s.copying t).isSome then s
  else match t with
    | .worker i => { s with workers := Function.update s.workers i (s.workers i).next }
    | .handler j =>
      match s.writers j with
      | .faulted addr byte => { s with writers := Function.update s.writers j (.writing addr byte) }
      | _ => s

section Machine

variable (h : SnapshotHeader) (bitmap : ℕ → BitVec 64) (allocatedBlocks : ℕ)

/-- `shareLength`. -/
def shareLength : ℕ := allocatedBlocks / snapshotThreads

/-- `snapshotWorker` has left its loop. -/
def CowState.workerDone (s : CowState) (i : ℕ) : Bool :=
  decide (shareLength allocatedBlocks ≤ (s.workers i).sp) && (s.copying (.worker i)).isNone

/-- An iteration of `snapshotWorker` up to the CAS. -/
def CowState.workerStep (s : CowState) (i : ℕ) : Option CowState :=
  let w := s.workers i
  let b := i * shareLength allocatedBlocks + w.sp
  if s.main ≠ .starting ∧ i < snapshotThreads ∧ w.sp < shareLength allocatedBlocks ∧
      (s.copying (.worker i)).isNone then
    if s.context b = .used then
      some { s with
        toCowShared := s.claim (.worker i) b w.src (copyCells bitmap 8 w.bitmap w.src w.dst) }
    else some { s with workers := Function.update s.workers i w.next }
  else none

/-- An application thread at its write or in `pageFaultHandler`, up to the CAS; `none` is a failed
assertion, or a thread that has nothing to write or copies a block. -/
def CowState.writerStep (s : CowState) (j : ℕ) : Option CowState :=
  match s.writers j with
  | .idle => none
  | .writing addr byte =>
    if s.readOnly addr then some { s with writers := Function.update s.writers j (.faulted addr byte) }
    else some { s with
      mem := Function.update s.mem addr byte
      writers := Function.update s.writers j .idle }
  | .faulted addr byte =>
    let alignedAddr := addr / blockSize * blockSize
    let offset := (alignedAddr - baseAddress) / blockSize
    if (s.copying (.handler j)).isNone ∧ baseAddress ≤ alignedAddr ∧
        alignedAddr < baseAddress + maxMemorySize then
      if s.context offset = .used then
        some { s with
          toCowShared := s.claim (.handler j) offset alignedAddr (pageFaultHandler h bitmap addr) }
      else some { s with writers := Function.update s.writers j (.waiting addr byte) }
    else none
  | .waiting addr byte =>
    let offset := (addr / blockSize * blockSize - baseAddress) / blockSize
    if s.context offset = .saved then
      some { s with writers := Function.update s.writers j (.writing addr byte) }
    else some s

/-- `saveModifiedPages` and `waitForFaultHandlers`. -/
def CowState.mainStep (s : CowState) : Option CowState :=
  match s.main with
  | .starting => if allocatedBlocks % snapshotThreads = 0 then some { s with main := .joining } else none
  | .joining =>
    if ∀ i < snapshotThreads, s.workerDone allocatedBlocks i = true then
      some { s with main := .waiting 0 }
    else none
  | .waiting i =>
    if i < allocatedBlocks then
      if s.context i = .locked then some s else some { s with main := .waiting (i + 1) }
    else some { s with main := .returned }
  | .returned => none

def cowStep (s : CowState) : CowAction → Option CowState
  | .main => s.mainStep allocatedBlocks
  | .worker i => s.workerStep bitmap allocatedBlocks i
  | .copy t => (s.copyStep t).map fun sh => CowState.resume { s with toCowShared := sh } t
  | .write j addr byte =>
    match s.writers j with
    | .idle => some { s with writers := Function.update s.writers j (.writing addr byte) }
    | _ => none
  | .writer j => s.writerStep h bitmap j

/-- The state behind `markPagesReadOnly`. -/
def cowStart (mem file : Mem) : CowState where
  mem := mem
  file := file
  readOnly x := !(rangesAt (markPagesReadOnly bitmap (fun _ => .blank) allocatedBlocks).protects x).isEmpty
  context := (markPagesReadOnly bitmap (fun _ => .blank) allocatedBlocks).context
  copying _ := none
  copied := []
  workers i :=
    let offset := i * shareLength allocatedBlocks
    ⟨0, baseAddress + offset * blockSize, h.dataOffset + offset * blockSize, offset * 8⟩
  writers _ := .idle
  main := .starting

end Machine

/-! ## What a step does to the blocks -/

section Moves

variable {h : SnapshotHeader} {bitmap : ℕ → BitVec 64} {n : ℕ}

/-- What a step of any thread can do to memory, file and `context`. -/
inductive CowMove (h : SnapshotHeader) (bitmap : ℕ → BitVec 64) (s : CowShared) : CowShared → Prop
  | stay : CowMove h bitmap s s
  | write (x : ℕ) (v : UInt8) (hx : s.readOnly x = false) :
    CowMove h bitmap s { s with mem := Function.update s.mem x v }
  | claim (t : Copier) (b addr : ℕ) (copies : List Copy) (hused : s.context b = .used)
    (haddr : addr = baseAddress + b * blockSize) (hcopies : copies = blockCopies h bitmap b) :
    CowMove h bitmap s (s.claim t b addr copies)
  | copy (t : Copier) {s' : CowShared} (hstep : s.copyStep t = some s') : CowMove h bitmap s s'

/-- No copy is empty. -/
theorem len_pos_of_mem_copyCell {k : ℕ} {bit : BitVec 64} {src dst : ℕ} {c : Copy}
    (hc : c ∈ copyCell k bit src dst) : 0 < c.len := by
  induction k generalizing bit src dst with
  | zero => cases hc
  | succ k ih =>
    rcases List.mem_cons.mp hc with rfl | hc
    · dsimp only
      split <;> decide
    · exact ih hc

/-- No copy of a block is empty. -/
theorem len_pos_of_mem_copyCells {k cell src dst : ℕ} {c : Copy}
    (hc : c ∈ copyCells bitmap k cell src dst) : 0 < c.len := by
  induction k generalizing cell src dst with
  | zero => cases hc
  | succ k ih =>
    rcases List.mem_append.mp hc with hc | hc
    · exact len_pos_of_mem_copyCell hc
    · exact ih hc

/-- The bytes of a copy of block `b` belong to block `b`. -/
theorem blockOf_of_mem {b : ℕ} {c : Copy} (hc : c ∈ blockCopies h bitmap b) {i : ℕ} (hi : i < c.len) :
    baseAddress ≤ c.src + i ∧ blockOf (c.src + i) = b := by
  have hbounds := blockCopies_bounds hc
  obtain ⟨hdst, heq⟩ := aligned_block c hc
  refine ⟨by omega, Nat.div_eq_of_lt_le ?_ ?_⟩ <;> omega

theorem blockOf_src {b : ℕ} {c : Copy} (hc : c ∈ blockCopies h bitmap b) : blockOf c.src = b :=
  (blockOf_of_mem hc (len_pos_of_mem_copyCells hc)).2

/-- The copies of block `b` in a history. -/
def copiesOf (b : ℕ) (copied : List (Copier × Copy)) : List (Copier × Copy) :=
  copied.filter fun p => blockOf p.2.src = b

/-- The pages that are left to copy. -/
def CopyPc.rest : CopyPc → List Copy
  | .copying rest => rest
  | .marking => []

/-- The block is still to be copied, or being copied. -/
def CowShared.Pending (s : CowShared) (b : ℕ) : Prop :=
  s.context b = .used ∨ ∃ t addr rest, s.copying t = some ⟨b, addr, .copying rest⟩

/-- Thread `t` has copied the pages `done` of block `b`, and the pages `rest` are left. No other thread
copies pages of the block. -/
structure CopiedBy (h : SnapshotHeader) (bitmap : ℕ → BitVec 64) (s : CowShared) (b : ℕ) (t : Copier)
    (done rest : List Copy) : Prop where
  copies : done ++ rest = blockCopies h bitmap b
  history : copiesOf b s.copied = done.map fun c => (t, c)
  used : s.context b = .used → done = []
  saved : s.context b = .saved → rest = []
  holder : ∀ t' c, s.copying t' = some c → c.block = b → t' = t ∧ c.pc.rest = rest

/-- The invariant: `frozen` is the memory at the freeze, and `n` the number of blocks. -/
structure CowInv (h : SnapshotHeader) (bitmap : ℕ → BitVec 64) (n : ℕ) (frozen : Mem) (s : CowShared) :
    Prop where
  readOnly : ∀ x, s.readOnly x = true → s.mem x = frozen x
  pending : ∀ x, baseAddress ≤ x → s.Pending (blockOf x) → s.readOnly x = true
  locked : ∀ t c, s.copying t = some c →
    s.context c.block = .locked ∧ c.addr = baseAddress + c.block * blockSize
  words : ∀ b < n, blockUsed bitmap b = true →
    s.context b = .used ∨ s.context b = .locked ∨ s.context b = .saved
  copied : ∀ b, ∃ t done rest, CopiedBy h bitmap s b t done rest
  file : ∀ p ∈ s.copied, p.2 ∈ blockCopies h bitmap (blockOf p.2.src) ∧
    ∀ i < p.2.len, s.file (p.2.dst + i) = frozen (p.2.src + i)

variable {frozen : Mem} {s s' : CowShared}

theorem CowInv.write (hinv : CowInv h bitmap n frozen s) {x : ℕ} (hx : s.readOnly x = false)
    (v : UInt8) : CowInv h bitmap n frozen { s with mem := Function.update s.mem x v } := by
  refine ⟨fun y hy => ?_, hinv.pending, hinv.locked, hinv.words, fun b => ?_, hinv.file⟩
  · have hne : y ≠ x := fun heq => by simp [heq, hx] at hy
    exact (update_of_ne hne v s.mem).trans (hinv.readOnly y hy)
  · obtain ⟨t, done, rest, hb⟩ := hinv.copied b
    exact ⟨t, done, rest, hb.copies, hb.history, hb.used, hb.saved, hb.holder⟩

/-- One thread has changed its state. -/
theorem update_eq_some {f : Copier → Option Copying} {t t' : Copier} {o : Option Copying} {c : Copying}
    (hc : Function.update f t o t' = some c) : t' = t ∧ o = some c ∨ t' ≠ t ∧ f t' = some c := by
  by_cases ht : t' = t
  · subst ht
    exact .inl ⟨rfl, by rwa [update_self] at hc⟩
  · exact .inr ⟨ht, by rwa [update_of_ne ht] at hc⟩

/-- The history of a block does not change when the block is not touched. -/
theorem CopiedBy.frame {b : ℕ} {t : Copier} {done rest : List Copy}
    (hby : CopiedBy h bitmap s b t done rest) (hcopied : copiesOf b s'.copied = copiesOf b s.copied)
    (hctx : s'.context b = s.context b)
    (hcopying : ∀ t' c, s'.copying t' = some c → c.block = b → s.copying t' = some c) :
    CopiedBy h bitmap s' b t done rest where
  copies := hby.copies
  history := hcopied.trans hby.history
  used hused := hby.used (hctx ▸ hused)
  saved hsaved := hby.saved (hctx ▸ hsaved)
  holder t' c hc hblock := hby.holder t' c (hcopying t' c hc hblock) hblock

theorem CowShared.claim_context_self {t : Copier} {b addr : ℕ} {copies : List Copy} :
    (s.claim t b addr copies).context b = .locked := update_self ..

theorem CowShared.claim_context_of_ne {t : Copier} {b b' addr : ℕ} {copies : List Copy} (hb : b' ≠ b) :
    (s.claim t b addr copies).context b' = s.context b' := update_of_ne hb ..

/-- **Claiming a block**: from now on this thread alone copies it, all of its pages. -/
theorem CowInv.claim (hinv : CowInv h bitmap n frozen s) {t : Copier} {b addr : ℕ} {copies : List Copy}
    (hused : s.context b = .used) (haddr : addr = baseAddress + b * blockSize)
    (hcopies : copies = blockCopies h bitmap b) :
    CowInv h bitmap n frozen (s.claim t b addr copies) := by
  -- nobody copies the block yet
  have hfree : ∀ t' c, s.copying t' = some c → c.block ≠ b := fun t' c hc heq => by
    have := (hinv.locked t' c hc).1
    rw [heq, hused] at this
    cases this
  refine ⟨hinv.readOnly, fun x hx hpend => hinv.pending x hx ?_, fun t' c hc => ?_,
    fun b' hb' hub' => ?_, fun b' => ?_, hinv.file⟩
  · by_cases hb : blockOf x = b
    · exact .inl (hb ▸ hused)
    · rcases hpend with hctx | ⟨t', addr', rest, hc⟩
      · exact .inl ((CowShared.claim_context_of_ne hb).symm.trans hctx)
      · rcases update_eq_some hc with ⟨-, heq⟩ | ⟨-, hc⟩
        · cases heq
          exact absurd rfl hb
        · exact .inr ⟨t', addr', rest, hc⟩
  · rcases update_eq_some hc with ⟨-, heq⟩ | ⟨-, hc⟩
    · cases heq
      exact ⟨update_self .., haddr⟩
    · rw [CowShared.claim_context_of_ne (hfree t' c hc)]
      exact hinv.locked t' c hc
  · by_cases hb : b' = b
    · subst hb
      exact .inr (.inl (update_self ..))
    · rw [CowShared.claim_context_of_ne hb]
      exact hinv.words b' hb' hub'
  · obtain ⟨t', done, rest, hby⟩ := hinv.copied b'
    by_cases hb : b' = b
    · subst hb
      obtain rfl := hby.used hused
      refine ⟨t, [], copies, hcopies, hby.history, fun _ => rfl, fun hctx => ?_,
        fun t'' c hc hblock => ?_⟩
      · exact absurd (CowShared.claim_context_self.symm.trans hctx) (by simp)
      · rcases update_eq_some hc with ⟨ht, heq⟩ | ⟨-, hc⟩
        · cases heq
          exact ⟨ht, rfl⟩
        · exact absurd hblock (hfree t'' c hc)
    · refine ⟨t', done, rest, hby.frame rfl (update_of_ne hb ..) fun t'' c hc hblock => ?_⟩
      rcases update_eq_some hc with ⟨-, heq⟩ | ⟨-, hc⟩
      · cases heq
        exact absurd hblock.symm hb
      · exact hc

/-- A page of a block is copied. -/
theorem CowInv.copyPage (hinv : CowInv h bitmap n frozen s) {t : Copier} {b addr : ℕ} {c : Copy}
    {rest : List Copy} (hcopying : s.copying t = some ⟨b, addr, .copying (c :: rest)⟩) :
    CowInv h bitmap n frozen { s with
      file := c.apply s.mem s.file
      copied := s.copied ++ [(t, c)]
      copying := Function.update s.copying t (some ⟨b, addr, .copying rest⟩) } := by
  obtain ⟨t₀, done, rest₀, hby⟩ := hinv.copied b
  obtain ⟨rfl, hrest⟩ := hby.holder t _ hcopying rfl
  obtain rfl : c :: rest = rest₀ := hrest
  have hmem : c ∈ blockCopies h bitmap b := hby.copies ▸ by simp
  -- the block is read-only, so that its bytes are the frozen ones
  have hbytes : ∀ i < c.len, s.mem (c.src + i) = frozen (c.src + i) := fun i hi => by
    obtain ⟨hbase, hblock⟩ := blockOf_of_mem hmem hi
    exact hinv.readOnly _ (hinv.pending _ hbase (hblock ▸ .inr ⟨t, addr, c :: rest, hcopying⟩))
  refine ⟨hinv.readOnly, fun x hx hpend => hinv.pending x hx ?_, fun t' c' hc => ?_, hinv.words,
    fun b' => ?_, fun p hp => ?_⟩
  · refine hpend.imp_right fun ⟨t', addr', rest', hc⟩ => ?_
    rcases update_eq_some hc with ⟨-, heq⟩ | ⟨-, hc⟩
    · cases heq
      exact ⟨t, addr, _, hcopying⟩
    · exact ⟨t', addr', rest', hc⟩
  · rcases update_eq_some hc with ⟨-, heq⟩ | ⟨-, hc⟩
    · cases heq
      exact ⟨(hinv.locked t _ hcopying).1, (hinv.locked t _ hcopying).2⟩
    · exact hinv.locked t' c' hc
  · by_cases hb : b' = b
    · subst hb
      refine ⟨t, done ++ [c], rest, by simpa using hby.copies, ?_, fun hctx => ?_, fun hctx => ?_,
        fun t' c' hc hblock => ?_⟩
      · rw [copiesOf, List.filter_append, ← copiesOf, hby.history]
        simp [blockOf_src hmem]
      · exact absurd ((hinv.locked t _ hcopying).1.symm.trans hctx) (by simp)
      · exact absurd ((hinv.locked t _ hcopying).1.symm.trans hctx) (by simp)
      · rcases update_eq_some hc with ⟨ht, heq⟩ | ⟨ht, hc⟩
        · cases heq
          exact ⟨ht, rfl⟩
        · exact absurd (hby.holder t' c' hc hblock).1 ht
    · obtain ⟨t', done', rest', hby'⟩ := hinv.copied b'
      refine ⟨t', done', rest', hby'.frame ?_ rfl fun t'' c' hc hblock => ?_⟩
      · have hsrc : blockOf c.src ≠ b' := fun heq => hb (heq.symm.trans (blockOf_src hmem))
        simp [copiesOf, hsrc]
      · rcases update_eq_some hc with ⟨-, heq⟩ | ⟨-, hc⟩
        · cases heq
          exact absurd hblock.symm hb
        · exact hc
  · -- a copy that overlaps an earlier one writes the same bytes
    rcases List.mem_append.mp hp with hp | hp
    · obtain ⟨hpmem, hpbytes⟩ := hinv.file p hp
      refine ⟨hpmem, fun i hi => ?_⟩
      dsimp only [Copy.apply]
      split
      case isTrue hin =>
        obtain ⟨hdst, heq⟩ := aligned_block c hmem
        obtain ⟨hdst', heq'⟩ := aligned_block p.2 hpmem
        have hsrc : p.2.src + i = c.src + (p.2.dst + i - c.dst) := by omega
        rw [hsrc]
        exact hbytes _ (by omega)
      case isFalse => exact hpbytes i hi
    · obtain rfl := List.mem_singleton.mp hp
      refine ⟨(blockOf_src hmem).symm ▸ hmem, fun i hi => ?_⟩
      dsimp only [Copy.apply] at hi ⊢
      rw [if_pos ⟨by omega, by omega⟩, Nat.add_sub_cancel_left]
      exact hbytes i hi

/-- A block is made writable. -/
theorem CowInv.unprotect (hinv : CowInv h bitmap n frozen s) {t : Copier} {b addr : ℕ}
    (hcopying : s.copying t = some ⟨b, addr, .copying []⟩) :
    CowInv h bitmap n frozen { s with
      readOnly := fun x => if addr ≤ x ∧ x < addr + blockSize then false else s.readOnly x
      copying := Function.update s.copying t (some ⟨b, addr, .marking⟩) } := by
  obtain ⟨t₀, done, rest₀, hby⟩ := hinv.copied b
  obtain ⟨rfl, hrest⟩ := hby.holder t _ hcopying rfl
  obtain ⟨hlocked, haddr⟩ := hinv.locked t _ hcopying
  refine ⟨fun x hx => ?_, fun x hx hpend => ?_, fun t' c' hc => ?_, hinv.words, fun b' => ?_, hinv.file⟩
  · dsimp only at hx
    split at hx
    · cases hx
    · exact hinv.readOnly x hx
  · -- the block itself is no longer pending
    have hne : blockOf x ≠ b := by
      intro heq
      rcases hpend with hctx | ⟨t', addr', rest', hc⟩
      · rw [heq] at hctx
        exact absurd (hlocked.symm.trans hctx) (by simp)
      · rcases update_eq_some hc with ⟨-, hmark⟩ | ⟨ht, hc⟩
        · cases hmark
        · exact ht (hby.holder t' _ hc heq).1
    have hout : ¬ (addr ≤ x ∧ x < addr + blockSize) := by
      rintro ⟨hlo, hhi⟩
      dsimp only at haddr
      exact hne (Nat.div_eq_of_lt_le (by omega) (by rw [Nat.succ_mul]; omega))
    dsimp only
    rw [if_neg hout]
    refine hinv.pending x hx (hpend.imp_right fun ⟨t', addr', rest', hc⟩ => ?_)
    rcases update_eq_some hc with ⟨-, hmark⟩ | ⟨ht, hc⟩
    · cases hmark
    · exact ⟨t', addr', rest', hc⟩
  · rcases update_eq_some hc with ⟨-, heq⟩ | ⟨-, hc⟩
    · cases heq
      exact ⟨hlocked, haddr⟩
    · exact hinv.locked t' c' hc
  · by_cases hb : b' = b
    · subst hb
      refine ⟨t, done, rest₀, hby.copies, hby.history, hby.used, hby.saved, fun t' c' hc hblock => ?_⟩
      rcases update_eq_some hc with ⟨ht, heq⟩ | ⟨-, hc⟩
      · cases heq
        exact ⟨ht, hrest⟩
      · exact hby.holder t' c' hc hblock
    · obtain ⟨t', done', rest', hby'⟩ := hinv.copied b'
      refine ⟨t', done', rest', hby'.frame rfl rfl fun t'' c' hc hblock => ?_⟩
      rcases update_eq_some hc with ⟨-, heq⟩ | ⟨-, hc⟩
      · cases heq
        exact absurd hblock.symm hb
      · exact hc

/-- A block is marked as saved. -/
theorem CowInv.mark (hinv : CowInv h bitmap n frozen s) {t : Copier} {b addr : ℕ}
    (hcopying : s.copying t = some ⟨b, addr, .marking⟩) :
    CowInv h bitmap n frozen { s with
      context := Function.update s.context b .saved
      copying := Function.update s.copying t none } := by
  obtain ⟨t₀, done, rest₀, hby⟩ := hinv.copied b
  obtain ⟨rfl, hrest⟩ := hby.holder t _ hcopying rfl
  have hother : ∀ {t' : Copier} {c : Copying}, Function.update s.copying t none t' = some c →
      c.block ≠ b ∧ s.copying t' = some c := fun hc => by
    rcases update_eq_some hc with ⟨-, heq⟩ | ⟨ht, hc⟩
    · cases heq
    · exact ⟨fun heq => ht (hby.holder _ _ hc heq).1, hc⟩
  refine ⟨hinv.readOnly, fun x hx hpend => hinv.pending x hx ?_, fun t' c' hc => ?_,
    fun b' hb' hub' => ?_, fun b' => ?_, hinv.file⟩
  · rcases hpend with hctx | ⟨t', addr', rest', hc⟩
    · by_cases hb : blockOf x = b
      · simp [hb] at hctx
      · exact .inl ((update_of_ne hb ..).symm.trans hctx)
    · exact .inr ⟨t', addr', rest', (hother hc).2⟩
  · obtain ⟨hne, hc⟩ := hother hc
    dsimp only
    rw [update_of_ne hne]
    exact hinv.locked t' c' hc
  · by_cases hb : b' = b
    · subst hb
      exact .inr (.inr (update_self ..))
    · dsimp only
      rw [update_of_ne hb]
      exact hinv.words b' hb' hub'
  · by_cases hb : b' = b
    · subst hb
      refine ⟨t, done, rest₀, hby.copies, hby.history, fun hctx => ?_, fun _ => hrest.symm,
        fun t' c' hc hblock => absurd hblock (hother hc).1⟩
      simp at hctx
    · obtain ⟨t', done', rest', hby'⟩ := hinv.copied b'
      exact ⟨t', done', rest', hby'.frame rfl (update_of_ne hb ..) fun t'' c' hc _ =>
        (hother hc).2⟩

/-- What a step of a copying thread is. -/
theorem copyStep_cases {t : Copier} (hstep : s.copyStep t = some s') :
    (∃ b addr c rest, s.copying t = some ⟨b, addr, .copying (c :: rest)⟩ ∧
      s' = { s with
        file := c.apply s.mem s.file
        copied := s.copied ++ [(t, c)]
        copying := Function.update s.copying t (some ⟨b, addr, .copying rest⟩) }) ∨
    (∃ b addr, s.copying t = some ⟨b, addr, .copying []⟩ ∧
      s' = { s with
        readOnly := fun x => if addr ≤ x ∧ x < addr + blockSize then false else s.readOnly x
        copying := Function.update s.copying t (some ⟨b, addr, .marking⟩) }) ∨
    ∃ b addr, s.copying t = some ⟨b, addr, .marking⟩ ∧ s.context b = .locked ∧
      s' = { s with
        context := Function.update s.context b .saved
        copying := Function.update s.copying t none } := by
  rw [CowShared.copyStep] at hstep
  split at hstep
  · cases hstep
  · rename_i b addr c rest hc
    cases hstep
    exact .inl ⟨b, addr, c, rest, hc, rfl⟩
  · rename_i b addr hc
    cases hstep
    exact .inr (.inl ⟨b, addr, hc, rfl⟩)
  · rename_i b addr hc
    split at hstep
    case isTrue hlocked =>
      cases hstep
      exact .inr (.inr ⟨b, addr, hc, hlocked, rfl⟩)
    case isFalse => cases hstep

/-- **Every move keeps the invariant.** -/
theorem CowInv.move (hinv : CowInv h bitmap n frozen s) (hmove : CowMove h bitmap s s') :
    CowInv h bitmap n frozen s' := by
  cases hmove with
  | stay => exact hinv
  | write x v hx => exact hinv.write hx v
  | claim t b addr copies hused haddr hcopies => exact hinv.claim hused haddr hcopies
  | copy t hstep =>
    obtain ⟨b, addr, c, rest, hc, rfl⟩ | ⟨b, addr, hc, rfl⟩ | ⟨b, addr, hc, -, rfl⟩ :=
      copyStep_cases hstep
    · exact hinv.copyPage hc
    · exact hinv.unprotect hc
    · exact hinv.mark hc

/-- A word that is not `UsedHugePage` does not become it again. -/
theorem CowMove.not_used (hmove : CowMove h bitmap s s') {b : ℕ} (hb : s.context b ≠ .used) :
    s'.context b ≠ .used := by
  cases hmove with
  | stay => exact hb
  | write => exact hb
  | claim t b' =>
    by_cases heq : b = b'
    · subst heq
      exact CowShared.claim_context_self ▸ nofun
    · rwa [CowShared.claim_context_of_ne heq]
  | copy t hstep =>
    obtain ⟨_, _, _, _, -, rfl⟩ | ⟨_, _, -, rfl⟩ | ⟨b', addr, -, -, rfl⟩ := copyStep_cases hstep
    · exact hb
    · exact hb
    · by_cases heq : b = b'
      · subst heq
        simp
      · dsimp only
        rwa [update_of_ne heq]

/-- A word that is neither `UsedHugePage` nor `LockedHugePage` does not change. -/
theorem CowMove.settled (hmove : CowMove h bitmap s s') {b : ℕ} (hused : s.context b ≠ .used)
    (hlocked : s.context b ≠ .locked) : s'.context b = s.context b := by
  cases hmove with
  | stay => rfl
  | write => rfl
  | claim t b' addr copies hb' => exact CowShared.claim_context_of_ne fun heq => hused (heq ▸ hb')
  | copy t hstep =>
    obtain ⟨_, _, _, _, -, rfl⟩ | ⟨_, _, -, rfl⟩ | ⟨b', addr, -, hb', rfl⟩ := copyStep_cases hstep
    · rfl
    · rfl
    · exact update_of_ne (fun heq : b = b' => hlocked (heq ▸ hb')) ..

/-- A thread goes on with the block that it copies. -/
theorem copyStep_block {t t' : Copier} {c' : Copying} (hstep : s.copyStep t = some s')
    (hc' : s'.copying t' = some c') : ∃ c, s.copying t' = some c ∧ c.block = c'.block := by
  obtain ⟨b, addr, c, rest, hc, rfl⟩ | ⟨b, addr, hc, rfl⟩ | ⟨b, addr, hc, -, rfl⟩ :=
    copyStep_cases hstep <;> rcases update_eq_some hc' with ⟨rfl, heq⟩ | ⟨-, hc'⟩
  · cases heq
    exact ⟨_, hc, rfl⟩
  · exact ⟨c', hc', rfl⟩
  · cases heq
    exact ⟨_, hc, rfl⟩
  · exact ⟨c', hc', rfl⟩
  · cases heq
  · exact ⟨c', hc', rfl⟩

/-- A thread that has finished a block has marked it as saved. -/
theorem copyStep_finished {t : Copier} (hstep : s.copyStep t = some s') (hnone : s'.copying t = none) :
    ∃ c, s.copying t = some c ∧ s'.context c.block = .saved := by
  obtain ⟨b, addr, c, rest, hc, rfl⟩ | ⟨b, addr, hc, rfl⟩ | ⟨b, addr, hc, -, rfl⟩ :=
    copyStep_cases hstep
  · simp at hnone
  · simp at hnone
  · exact ⟨_, hc, update_self ..⟩

end Moves

/-! ## Runs -/

section Runs

variable {h : SnapshotHeader} {bitmap : ℕ → BitVec 64} {n : ℕ} {s s' : CowState} {a : CowAction}

/-- What the snapshot thread knows: when the workers have ended no block waits to be copied, and none of
the blocks that the last loop is past is being copied. -/
def SnapshotPc.Knows (n : ℕ) (context : ℕ → HugePage) : SnapshotPc → Prop
  | .starting => True
  | .joining => n % snapshotThreads = 0
  | .waiting i => (∀ b < n, context b ≠ .used) ∧ ∀ b < i, b < n → context b ≠ .locked
  | .returned => ∀ b < n, context b ≠ .used ∧ context b ≠ .locked

/-- The snapshot threads: their pointers belong to the block that they are at, and the blocks that
they are past are not waiting to be copied. -/
structure WorkersInv (h : SnapshotHeader) (n : ℕ) (s : CowState) : Prop where
  src : ∀ i, (s.workers i).src = baseAddress + (i * shareLength n + (s.workers i).sp) * blockSize
  dst : ∀ i, (s.workers i).dst = h.dataOffset + (i * shareLength n + (s.workers i).sp) * blockSize
  word : ∀ i, (s.workers i).bitmap = (i * shareLength n + (s.workers i).sp) * 8
  block : ∀ i c, s.copying (.worker i) = some c → c.block = i * shareLength n + (s.workers i).sp
  passed : ∀ i, ∀ k < (s.workers i).sp, s.context (i * shareLength n + k) ≠ .used
  main : s.main.Knows n s.context

/-- The state of a step that leaves the snapshot threads where they are. -/
theorem WorkersInv.frame (hw : WorkersInv h n s) (hmove : CowMove h bitmap s.toCowShared s'.toCowShared)
    (hworkers : s'.workers = s.workers) (hmain : s'.main = s.main)
    (hblock : ∀ i c, s'.copying (.worker i) = some c → c.block = i * shareLength n + (s.workers i).sp) :
    WorkersInv h n s' := by
  refine ⟨hworkers ▸ hw.src, hworkers ▸ hw.dst, hworkers ▸ hw.word, hworkers ▸ hblock, ?_, ?_⟩
  · rw [hworkers]
    exact fun i k hk => hmove.not_used (hw.passed i k hk)
  · have hmain' := hw.main
    rw [hmain]
    cases hpc : s.main with
    | starting => trivial
    | joining =>
      rw [hpc] at hmain'
      exact hmain'
    | waiting i =>
      rw [hpc] at hmain'
      refine ⟨fun b hb => hmove.not_used (hmain'.1 b hb), fun b hbi hb => ?_⟩
      rw [hmove.settled (hmain'.1 b hb) (hmain'.2 b hbi hb)]
      exact hmain'.2 b hbi hb
    | returned =>
      rw [hpc] at hmain'
      intro b hb
      rw [hmove.settled (hmain' b hb).1 (hmain' b hb).2]
      exact hmain' b hb

theorem WorkersInv.same (hw : WorkersInv h n s) (hshared : s'.toCowShared = s.toCowShared)
    (hworkers : s'.workers = s.workers) (hmain : s'.main = s.main) : WorkersInv h n s' := by
  refine ⟨hworkers ▸ hw.src, hworkers ▸ hw.dst, hworkers ▸ hw.word, ?_, ?_, ?_⟩
  · rw [hshared, hworkers]
    exact hw.block
  · rw [hshared, hworkers]
    exact hw.passed
  · rw [hshared, hmain]
    exact hw.main

/-- A snapshot thread goes on to the next block. -/
theorem WorkersInv.next (hw : WorkersInv h n s) {i : ℕ} (hidle : s.copying (.worker i) = none)
    (hpast : s.context (i * shareLength n + (s.workers i).sp) ≠ .used) :
    WorkersInv h n { s with workers := Function.update s.workers i (s.workers i).next } := by
  have hself : ∀ j, Function.update s.workers i (s.workers i).next j =
      if j = i then (s.workers j).next else s.workers j := fun j => by
    by_cases hj : j = i
    · subst hj
      simp
    · rw [update_of_ne hj, if_neg hj]
  refine ⟨fun j => ?_, fun j => ?_, fun j => ?_, fun j c hc => ?_, fun j k hk => ?_, hw.main⟩
  · dsimp only
    rw [hself]
    split
    · have := hw.src j
      rw [WorkerLocals.next, this, ← Nat.add_assoc, Nat.succ_mul, Nat.add_assoc]
    · exact hw.src j
  · dsimp only
    rw [hself]
    split
    · have := hw.dst j
      rw [WorkerLocals.next, this, ← Nat.add_assoc, Nat.succ_mul, Nat.add_assoc]
    · exact hw.dst j
  · dsimp only
    rw [hself]
    split
    · have := hw.word j
      dsimp only [WorkerLocals.next]
      omega
    · exact hw.word j
  · -- worker `i` copies nothing, so this is another one
    dsimp only at hc ⊢
    have hne : j ≠ i := fun heq => by simp [heq, hidle] at hc
    rw [update_of_ne hne]
    exact hw.block j c hc
  · dsimp only at hk ⊢
    rw [hself] at hk
    split at hk
    case isTrue heq =>
      subst heq
      rcases Nat.lt_succ_iff_lt_or_eq.mp hk with hlt | rfl
      · exact hw.passed j k hlt
      · exact hpast
    case isFalse => exact hw.passed j k hk

/-- The address and the number of the block that the fault handler computes. -/
theorem alignedAddr_eq {x : ℕ} (hx : baseAddress ≤ x / blockSize * blockSize) :
    x / blockSize * blockSize = baseAddress + blockOf x * blockSize ∧
      (x / blockSize * blockSize - baseAddress) / blockSize = blockOf x := by
  have hbase : baseAddress = 0x80000 * blockSize := rfl
  have hpos : 0 < blockSize := by decide
  have hq : 0x80000 ≤ x / blockSize := by
    rw [hbase] at hx
    exact Nat.le_of_mul_le_mul_right hx hpos
  have hblock : blockOf x = x / blockSize - 0x80000 := by
    rw [blockOf, hbase, Nat.mul_comm, Nat.sub_mul_div]
  rw [hblock, hbase, ← Nat.add_mul, Nat.add_sub_cancel' hq, ← Nat.sub_mul, Nat.mul_div_cancel _ hpos]
  exact ⟨rfl, rfl⟩

/-- The copies of the fault handler. -/
theorem pageFaultHandler_eq_blockCopies {x : ℕ} (hx : baseAddress ≤ x / blockSize * blockSize) :
    pageFaultHandler h bitmap x = blockCopies h bitmap (blockOf x) := by
  obtain ⟨haddr, hblock⟩ := alignedAddr_eq hx
  have hcell : blockOf x * 512 / 64 = blockOf x * 8 := by omega
  rw [pageFaultHandler]
  simp only [hblock, hcell]
  rw [haddr, blockCopies]

/-- A step of an application thread is one of the moves. -/
theorem writerStep_move {j : ℕ} (hw : WorkersInv h n s) (hstep : s.writerStep h bitmap j = some s') :
    CowMove h bitmap s.toCowShared s'.toCowShared ∧ WorkersInv h n s' := by
  rw [CowState.writerStep] at hstep
  split at hstep
  · cases hstep
  · split at hstep
    · cases hstep
      exact ⟨.stay, hw.same rfl rfl rfl⟩
    · rename_i addr byte _ hro
      cases hstep
      have hmove : CowMove h bitmap s.toCowShared
          { s.toCowShared with mem := Function.update s.mem addr byte } :=
        .write addr byte (Bool.eq_false_of_not_eq_true hro)
      exact ⟨hmove, hw.frame hmove rfl rfl hw.block⟩
  · rename_i addr byte _
    dsimp only at hstep
    split at hstep
    case isTrue hok =>
      obtain ⟨haddr, hblock⟩ := alignedAddr_eq hok.2.1
      rw [hblock] at hstep
      split at hstep
      case isTrue hused =>
        cases hstep
        have hmove : CowMove h bitmap s.toCowShared (s.claim (.handler j) (blockOf addr)
            (addr / blockSize * blockSize) (pageFaultHandler h bitmap addr)) :=
          .claim _ _ _ _ hused haddr (pageFaultHandler_eq_blockCopies hok.2.1)
        refine ⟨hmove, hw.frame hmove rfl rfl fun i c hc => hw.block i c ?_⟩
        dsimp only [CowShared.claim] at hc
        rcases update_eq_some hc with ⟨heq, -⟩ | ⟨-, hc⟩
        · cases heq
        · exact hc
      case isFalse =>
        cases hstep
        exact ⟨.stay, hw.same rfl rfl rfl⟩
    case isFalse => cases hstep
  · dsimp only at hstep
    split at hstep <;> cases hstep
    · exact ⟨.stay, hw.same rfl rfl rfl⟩
    · exact ⟨.stay, hw⟩

/-- A step of a snapshot thread is one of the moves, and a block it passes is not waiting to be
copied. -/
theorem workerStep_move {i : ℕ} (hw : WorkersInv h n s) (hstep : s.workerStep bitmap n i = some s') :
    CowMove h bitmap s.toCowShared s'.toCowShared ∧ WorkersInv h n s' := by
  rw [CowState.workerStep] at hstep
  split at hstep
  case isTrue hok =>
    split at hstep
    case isTrue hused =>
      cases hstep
      have hcopies : copyCells bitmap 8 (s.workers i).bitmap (s.workers i).src (s.workers i).dst =
          blockCopies h bitmap (i * shareLength n + (s.workers i).sp) := by
        rw [hw.src, hw.dst, hw.word, blockCopies]
      have hmove : CowMove h bitmap s.toCowShared _ :=
        .claim (.worker i) _ _ _ hused (hw.src i) hcopies
      refine ⟨hmove, hw.frame hmove rfl rfl fun i' c hc => ?_⟩
      dsimp only [CowShared.claim] at hc
      rcases update_eq_some hc with ⟨heq, hnew⟩ | ⟨-, hc⟩
      · cases heq
        cases hnew
        rfl
      · exact hw.block i' c hc
    case isFalse hused =>
      cases hstep
      exact ⟨.stay, hw.next (Option.isNone_iff_eq_none.mp hok.2.2.2) hused⟩
  case isFalse => cases hstep

/-- A step of copying is one of the moves. -/
theorem copyAction_move {t : Copier} {sh : CowShared} (hw : WorkersInv h n s)
    (hstep : s.copyStep t = some sh) :
    CowMove h bitmap s.toCowShared (CowState.resume { s with toCowShared := sh } t).toCowShared ∧
      WorkersInv h n (CowState.resume { s with toCowShared := sh } t) := by
  have hmove : CowMove h bitmap s.toCowShared sh := .copy t hstep
  -- the state before the thread resumes its own code
  have hw' : WorkersInv h n { s with toCowShared := sh } :=
    hw.frame hmove rfl rfl fun i c hc => by
      obtain ⟨c₀, hc₀, hblock⟩ := copyStep_block hstep hc
      exact hblock ▸ hw.block i c₀ hc₀
  rw [CowState.resume.eq_def]
  split
  · exact ⟨hmove, hw'⟩
  · rename_i hnone
    have hnone : sh.copying t = none := by simpa using hnone
    obtain ⟨c, hc, hsaved⟩ := copyStep_finished hstep hnone
    cases t with
    | worker i =>
      refine ⟨hmove, hw'.next hnone ?_⟩
      dsimp only
      rw [← hw.block i c hc, hsaved]
      exact nofun
    | handler j =>
      dsimp only
      split
      · exact ⟨hmove, hw'.same rfl rfl rfl⟩
      · exact ⟨hmove, hw'⟩

/-- When the workers have ended, every block has been looked at. -/
theorem WorkersInv.joined (hw : WorkersInv h n s) (hmod : n % snapshotThreads = 0)
    (hdone : ∀ i < snapshotThreads, s.workerDone n i = true) : ∀ b < n, s.context b ≠ .used := by
  intro b hb
  have hn : n = snapshotThreads * shareLength n :=
    (Nat.mul_div_cancel' (Nat.dvd_of_mod_eq_zero hmod)).symm
  have hpos : 0 < shareLength n := by
    by_contra hzero
    rw [Nat.eq_zero_of_not_pos hzero, Nat.mul_zero] at hn
    omega
  have hi : b / shareLength n < snapshotThreads := (Nat.div_lt_iff_lt_mul hpos).mpr (hn ▸ hb)
  have hsp := hdone _ hi
  rw [CowState.workerDone, Bool.and_eq_true, decide_eq_true_eq] at hsp
  have hlt : b % shareLength n < (s.workers (b / shareLength n)).sp :=
    (Nat.mod_lt b hpos).trans_le hsp.1
  have hctx := hw.passed _ _ hlt
  rwa [Nat.mul_comm, Nat.div_add_mod] at hctx

/-- A step of the thread that takes the snapshot moves no memory. -/
theorem mainStep_move (hw : WorkersInv h n s) (hstep : s.mainStep n = some s') :
    s'.toCowShared = s.toCowShared ∧ WorkersInv h n s' := by
  have hmain := hw.main
  rw [CowState.mainStep] at hstep
  split at hstep
  · split at hstep
    case isTrue hmod =>
      cases hstep
      exact ⟨rfl, hw.src, hw.dst, hw.word, hw.block, hw.passed, hmod⟩
    case isFalse => cases hstep
  · rename_i hpc
    rw [hpc] at hmain
    split at hstep
    case isTrue hdone =>
      -- all workers have been through their shares, so no block is left to copy
      cases hstep
      exact ⟨rfl, hw.src, hw.dst, hw.word, hw.block, hw.passed, hw.joined hmain hdone,
        fun b hb => absurd hb (Nat.not_lt_zero b)⟩
    case isFalse => cases hstep
  · rename_i i hpc
    rw [hpc] at hmain
    split at hstep
    · split at hstep
      · cases hstep
        exact ⟨rfl, hw⟩
      · rename_i hlocked
        cases hstep
        refine ⟨rfl, hw.src, hw.dst, hw.word, hw.block, hw.passed, hmain.1, fun b hbi hb => ?_⟩
        rcases Nat.lt_succ_iff_lt_or_eq.mp hbi with hlt | rfl
        · exact hmain.2 b hlt hb
        · exact hlocked
    · rename_i hend
      cases hstep
      exact ⟨rfl, hw.src, hw.dst, hw.word, hw.block, hw.passed, fun b hb =>
        ⟨hmain.1 b hb, hmain.2 b (by omega) hb⟩⟩
  · cases hstep

/-- **What a step does.** -/
theorem cowStep_move (hw : WorkersInv h n s) (hstep : cowStep h bitmap n s a = some s') :
    CowMove h bitmap s.toCowShared s'.toCowShared ∧ WorkersInv h n s' := by
  cases a with
  | main =>
    obtain ⟨heq, hw'⟩ := mainStep_move hw hstep
    exact ⟨heq ▸ .stay, hw'⟩
  | worker i => exact workerStep_move hw hstep
  | copy t =>
    obtain ⟨sh, hsh, rfl⟩ := Option.map_eq_some_iff.mp hstep
    exact copyAction_move hw hsh
  | write j addr byte =>
    rw [cowStep] at hstep
    split at hstep
    · cases hstep
      exact ⟨.stay, hw.same rfl rfl rfl⟩
    · cases hstep
  | writer j => exact writerStep_move hw hstep

/-- The invariant behind `markPagesReadOnly`. -/
theorem CowInv.start (h : SnapshotHeader) (bitmap : ℕ → BitVec 64) (n : ℕ) (mem file : Mem) :
    CowInv h bitmap n mem (cowStart h bitmap n mem file).toCowShared := by
  obtain ⟨first, hmarked⟩ := marked_markBlocks bitmap (fun _ => .blank) n
  have hctx : ∀ b, (cowStart h bitmap n mem file).context b =
      if b < n then if blockUsed bitmap b then .used else .free else .blank := hmarked.words
  have hused : ∀ b, (cowStart h bitmap n mem file).context b = .used →
      b < n ∧ blockUsed bitmap b = true := fun b hb => by
    rw [hctx] at hb
    split at hb
    · split at hb
      · exact ⟨‹_›, ‹_›⟩
      · cases hb
    · cases hb
  refine ⟨fun x _ => rfl, fun x hx hpend => ?_, nofun, fun b hb hub => ?_, fun b => ?_, nofun⟩
  · rcases hpend with hb | ⟨t, addr, rest, hc⟩
    · obtain ⟨hlt, hub⟩ := hused _ hb
      have hlen : (rangesAt (markPagesReadOnly bitmap (fun _ => .blank) n).protects x).length = 1 :=
        hmarked.flush.trans (if_pos ⟨hx, hlt, hub⟩)
      simp only [cowStart, Bool.not_eq_true', List.isEmpty_eq_false_iff]
      exact List.ne_nil_of_length_eq_add_one hlen
    · cases hc
  · exact .inl (by rw [hctx, if_pos hb, if_pos hub])
  · refine ⟨.worker 0, [], blockCopies h bitmap b, List.nil_append _, rfl, fun _ => rfl, fun hb => ?_,
      nofun⟩
    rw [hctx] at hb
    split at hb
    · split at hb <;> cases hb
    · cases hb

theorem WorkersInv.start (h : SnapshotHeader) (bitmap : ℕ → BitVec 64) (n : ℕ) (mem file : Mem) :
    WorkersInv h n (cowStart h bitmap n mem file) where
  src _ := rfl
  dst _ := rfl
  word _ := rfl
  block _ _ := nofun
  passed _ _ hk := absurd hk (Nat.not_lt_zero _)
  main := trivial

/-- **The copies of a snapshot are the frozen pages.** In every run of the snapshot threads, of any
number of writing threads that fault on protected blocks, and of the thread that takes the snapshot,
from the state behind `markPagesReadOnly` on: a block that is marked as saved has, for each of its
pages whose bit is set, the bytes of the freeze in the data section; the copies of a block in use
are made by one thread, one after the other, and are complete when the block is marked as saved; and
when `waitForFaultHandlers` has returned, all blocks in use are marked as saved. -/
theorem copy_on_write_frozen {mem file : Mem} {as : List CowAction}
    (hrun : run (cowStep h bitmap n) (cowStart h bitmap n mem file) as = some s) :
    (∀ b, s.context b = .saved → ∀ page, page / 512 = b → pageSet bitmap page = true →
      ∀ o < bitmapGranularity, s.file (h.dataOffset + page * bitmapGranularity + o) =
        mem (baseAddress + page * bitmapGranularity + o)) ∧
    (∀ b < n, blockUsed bitmap b = true → ∃ t done rest, done ++ rest = blockCopies h bitmap b ∧
      copiesOf b s.copied = (done.map fun c => (t, c)) ∧ (s.context b = .saved → rest = [])) ∧
    (s.main = .returned → ∀ b < n, blockUsed bitmap b = true → s.context b = .saved) := by
  obtain ⟨hinv, hw⟩ : CowInv h bitmap n mem s.toCowShared ∧ WorkersInv h n s :=
    run_invariant (I := fun s => CowInv h bitmap n mem s.toCowShared ∧ WorkersInv h n s)
      (fun s a s' hI hstep =>
        have hmove := cowStep_move hI.2 hstep
        ⟨hI.1.move hmove.1, hmove.2⟩)
      ⟨.start h bitmap n mem file, .start h bitmap n mem file⟩ hrun
  refine ⟨fun b hb page hpage hset o ho => ?_, fun b hb hub => ?_, fun hmain b hb hub => ?_⟩
  · obtain ⟨t, done, rest, hby⟩ := hinv.copied b
    -- the page is covered by one of the copies of its block
    have hcov : Covered (blockCopies h bitmap b) (h.dataOffset + page * bitmapGranularity + o) := by
      refine (covered_block (by omega)).mpr ⟨?_, ?_, .inl ?_⟩
      · dsimp only [bitmapGranularity, blockSize] at ho ⊢
        omega
      · dsimp only [bitmapGranularity, blockSize] at ho ⊢
        omega
      · have hsub : h.dataOffset + page * bitmapGranularity + o - h.dataOffset =
            bitmapGranularity * page + o := by
          rw [Nat.mul_comm]
          omega
        rwa [hsub, Nat.mul_add_div (by decide), Nat.div_eq_of_lt ho, Nat.add_zero]
    obtain ⟨c, hc, hlo, hhi⟩ := hcov
    have hmem : (t, c) ∈ s.copied := by
      have hcopies := hby.copies
      rw [hby.saved hb, List.append_nil] at hcopies
      have hin : (t, c) ∈ copiesOf b s.copied := by
        rw [hby.history, hcopies]
        exact List.mem_map_of_mem hc
      exact List.mem_of_mem_filter hin
    obtain ⟨-, hbytes⟩ := hinv.file _ hmem
    obtain ⟨hdst, heq⟩ := aligned_block c hc
    have hbyte := hbytes (h.dataOffset + page * bitmapGranularity + o - c.dst) (by dsimp only; omega)
    dsimp only at hbyte
    rw [Nat.add_sub_cancel' hlo] at hbyte
    rw [hbyte]
    congr 1
    omega
  · obtain ⟨t, done, rest, hby⟩ := hinv.copied b
    exact ⟨t, done, rest, hby.copies, hby.history, hby.saved⟩
  · have hknows := hw.main
    rw [hmain] at hknows
    obtain ⟨hused, hlocked⟩ := hknows b hb
    rcases hinv.words b hb hub with hctx | hctx | hctx
    · exact absurd hctx hused
    · exact absurd hctx hlocked
    · exact hctx

/-- Four blocks, one page of the first one in use. An application thread writes to the page, copies
the block in the fault handler and goes on with its write; the snapshot threads find nothing to do. -/
def faultRun : List CowAction :=
  [.write 0 (baseAddress + 5) 7, .writer 0, .writer 0] ++ List.replicate 514 (.copy (.handler 0)) ++
    [.writer 0, .main, .worker 0, .worker 1, .worker 2, .worker 3] ++ List.replicate 6 .main

/-- The block is saved as it was, and the application has written to it. -/
theorem copy_on_write_fault : ∃ s,
    run (cowStep ⟨0, 0, 0, 0, 0, 64⟩ (fun cell => if cell = 0 then 1 else 0) 4)
      (cowStart ⟨0, 0, 0, 0, 0, 64⟩ (fun cell => if cell = 0 then 1 else 0) 4 (fun _ => 0) fun _ => 1)
      faultRun = some s ∧
    s.context 0 = .saved ∧ s.file (64 + 5) = 0 ∧ s.mem (baseAddress + 5) = 7 := by
  have hany : (run (cowStep ⟨0, 0, 0, 0, 0, 64⟩ (fun cell => if cell = 0 then 1 else 0) 4)
      (cowStart ⟨0, 0, 0, 0, 0, 64⟩ (fun cell => if cell = 0 then 1 else 0) 4 (fun _ => 0) fun _ => 1)
      faultRun).any (fun s => decide (s.main = .returned ∧ s.mem (baseAddress + 5) = 7)) = true := by
    decide +kernel
  obtain ⟨s, hrun, hs⟩ := run_of_any hany
  obtain ⟨hmain, hmem⟩ := of_decide_eq_true hs
  obtain ⟨hfrozen, -, hall⟩ := copy_on_write_frozen hrun
  have hsaved := hall hmain 0 (by decide) (by decide)
  exact ⟨s, hrun, hsaved, hfrozen 0 hsaved 0 rfl (by decide) 5 (by decide), hmem⟩

end Runs

end Pronto
