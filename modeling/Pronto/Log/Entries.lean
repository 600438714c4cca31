import Pronto.Log.Recover
import Pronto.Lib.Tiling

/-!
# Scanning a log that holds a sequence of entries

`LogEntry` is an entry as its appender made it. `Consecutive a es b` says that the entries `es` fill
the file from `a` to `b`, each taking the space the appender reserved for it. Over complete
consecutive entries none of which fills its last cache line the recovery loop visits exactly these
entries (`recoverLoop_entries`). At an entry that does fill its last cache line the cursor lands one
cache line behind the start of the next entry (`LogEntry.next_of_fillsLine`).
-/

namespace Pronto

open Memory

/-- An entry as its appender made it. -/
structure LogEntry where
  offset : ℕ
  commitId : ℕ
  tag : ℕ
  args : List UInt8

/-- The bytes of an entry before padding. -/
def LogEntry.length (e : LogEntry) : ℕ := 24 + e.args.length

/-- The space reserved for an entry. -/
def LogEntry.size (e : LogEntry) : ℕ := padToLine e.length

/-- The unpadded entry ends exactly at the end of a cache line. -/
def LogEntry.FillsLine (e : LogEntry) : Prop := e.length % cacheLineWidth = 0

instance (e : LogEntry) : Decidable e.FillsLine := inferInstanceAs (Decidable (_ = _))

/-- Where the scan leaves the cursor behind an entry. -/
def LogEntry.next (e : LogEntry) : ℕ :=
  e.offset + (e.length + (cacheLineWidth - e.length % cacheLineWidth))

/-- What the scan should read at an entry. -/
def LogEntry.visit (e : LogEntry) : Visit := ⟨e.offset, e.commitId, e.tag, e.offset + 24⟩

/-- The record of an entry. -/
def LogEntry.record (e : LogEntry) : CommitRecord := ⟨e.offset + 24, e.commitId, e.tag⟩

/-- The entries `es` fill the file from `a` to `b`. -/
abbrev Consecutive (a : ℕ) (es : List LogEntry) (b : ℕ) : Prop :=
  Tiling.Tiles LogEntry.offset LogEntry.size a es b

/-- The bytes of the entry are all in the log image, inside the mapped file. -/
structure LogEntry.Stored (log : RedoLog) (e : LogEntry) : Prop where
  entryAt : EntryAt log.data e.offset e.commitId e.tag e.args
  fits : e.offset + e.length ≤ log.size

/-- The entry is complete: it is stored, and its argument length is what the dry run of its method
returns. -/
structure LogEntry.Complete (play : DryRun) (log : RedoLog) (e : LogEntry) : Prop extends
    e.Stored log where
  processed : bytesProcessed play log log.size e.tag (e.offset + 24) = .ok e.args.length

/-! ## Consecutive entries -/

theorem LogEntry.length_le_size (e : LogEntry) : e.length ≤ e.size := le_padToLine _

theorem LogEntry.size_mod (e : LogEntry) : e.size % 64 = 0 := padToLine_mod _

theorem LogEntry.size_ge (e : LogEntry) : 64 ≤ e.size := by
  have h1 := e.length_le_size
  have h2 := e.size_mod
  simp only [LogEntry.length] at h1
  omega

/-- An entry takes at least one cache line. -/
theorem Consecutive.lines_le {a b : ℕ} {es : List LogEntry} (h : Consecutive a es b) :
    a + 64 * es.length ≤ b :=
  h.length_mul_le fun e _ => e.size_ge

/-- Behind an entry that does not fill its last line the cursor is at the entry's end. -/
theorem LogEntry.next_of_not_fillsLine {e : LogEntry} (h : ¬ e.FillsLine) :
    e.next = e.offset + e.size := by
  rw [LogEntry.next, add_sub_mod_eq, if_neg (show ¬ e.length % cacheLineWidth = 0 from h),
    LogEntry.size]

/-- Behind an entry that fills its last line the cursor is one cache line too far. -/
theorem LogEntry.next_of_fillsLine {e : LogEntry} (h : e.FillsLine) :
    e.next = e.offset + e.size + cacheLineWidth := by
  rw [LogEntry.next, add_sub_mod_eq, if_pos (show e.length % cacheLineWidth = 0 from h),
    LogEntry.size, Nat.add_assoc]

/-- Entries with new commit ids. -/
def withIds (f : LogEntry → ℕ) (es : List LogEntry) : List LogEntry :=
  es.map fun e => { e with commitId := f e }

theorem Consecutive.withIds {f : LogEntry → ℕ} {a b : ℕ} {es : List LogEntry}
    (h : Consecutive a es b) : Consecutive a (withIds f es) b :=
  h.map fun _ _ => ⟨rfl, rfl⟩

/-! ## The loop over complete entries -/

section Loop

variable {play : DryRun} {parentReady : CommitRecord → Bool} {log : RedoLog}

/-- The scan state behind the entries `es`. -/
def RecoverState.advance (st : RecoverState) (es : List LogEntry) (ptr : ℕ) : RecoverState :=
  ⟨ptr, st.visited ++ es.map LogEntry.visit,
    OrderedReplay.replay CommitRecord.commitId st.replay (es.map LogEntry.record)⟩

theorem scanEntry_of_complete {e : LogEntry} (h : e.Complete play log) :
    scanEntry play log e.offset = .ok (e.visit, e.next) :=
  scanEntry_of_entryAt h.entryAt
    (by have := h.fits; simp only [LogEntry.length] at this; omega) h.processed

/-- An iteration over a complete entry feeds its record. -/
theorem recoverStep_of_complete {e : LogEntry} (h : e.Complete play log) {st : RecoverState}
    (hptr : st.ptr = e.offset)
    (hready : ParentsReady parentReady st.replay.last (e.record :: st.replay.queue)) :
    recoverStep play parentReady log st = .ok (st.advance [e] e.next) :=
  recoverStep_of_scanEntry (hptr ▸ scanEntry_of_complete h) hready

/-- The loop walks over complete entries none of which fills its last line. -/
theorem recoverLoop_entries {es : List LogEntry} {b : ℕ} (hb : b ≤ log.tail)
    (hcomplete : ∀ e ∈ es, e.Complete play log) (hline : ∀ e ∈ es, ¬ e.FillsLine) (fuel : ℕ)
    {st : RecoverState} (hcons : Consecutive st.ptr es b)
    (hready : ParentsReady parentReady st.replay.last
      (st.replay.queue ++ es.map LogEntry.record)) :
    recoverLoop play parentReady log (es.length + fuel) st =
      recoverLoop play parentReady log fuel (st.advance es b) := by
  -- by induction on the entries; each takes one iteration
  induction es generalizing st with
  | nil =>
    obtain rfl : st.ptr = b := hcons
    simp [RecoverState.advance, OrderedReplay.replay]
  | cons e es ih =>
    have hlt : st.ptr < log.tail := by
      have := hcons.lines_le
      simp only [List.length_cons] at this
      omega
    have hstep : recoverStep play parentReady log st = .ok _ :=
      recoverStep_of_complete (hcomplete e (by simp)) hcons.1.symm fun r hr => hready r (by
        rcases List.mem_cons.mp hr with rfl | hr
        · simp
        · simp [hr])
    rw [LogEntry.next_of_not_fillsLine (hline e (by simp))] at hstep
    rw [List.length_cons, Nat.add_right_comm, recoverLoop_succ hlt, hstep]
    have hih : recoverLoop play parentReady log (es.length + fuel)
        (st.advance [e] (e.offset + e.size)) = _ := ih
      (fun f hf => hcomplete f (by simp [hf])) (fun f hf => hline f (by simp [hf]))
      (by simpa [RecoverState.advance, hcons.1] using hcons.2) hready.feed
    simp only [bind, Except.bind, hih]
    simp [RecoverState.advance, OrderedReplay.replay]

end Loop

end Pronto
