import Pronto.Lib.Memory

/-!
# The semantic redo log

Every persistent object owns one log file (`nv_log.cpp`). Its first cache line is the header
`RedoLog`; entries follow, each starting on a cache line: an 8-byte commit id (zero until the
transaction commits), the 8-byte magic, and the payload, padded to whole cache lines. The payload of
an outer-most transaction is a method tag and the method's arguments, that of a nested one a tag
with the `NESTED_TX_TAG` bit (carrying the parent entry's offset) and the parent's uuid.

The header is kept as a record and the bytes behind it as a byte memory indexed by file offset.
-/

namespace Pronto

open Memory

/-- `CACHE_LINE_WIDTH`. -/
def cacheLineWidth : ℕ := 64

/-- `NESTED_TX_TAG`. -/
def nestedTxTag : ℕ := 0x8000000000000000

/-- `REDO_LOG_MAGIC`. -/
def redoLogMagic : ℕ := 0x5265646F4C6F6745

/-- `UINT64_MAX`. -/
def uint64Max : ℕ := 0xFFFFFFFFFFFFFFFF

/-- `LOG_SIZE`. -/
def logSize : ℕ := 0x40000000

/-- `sizeof(struct RedoLog)`: the header fills one cache line. -/
def redoLogHeaderSize : ℕ := 64

/-- A `uuid_t`: sixteen bytes. -/
abbrev Uuid := BitVec 128

/-- The bytes of a uuid in memory. -/
def uuidBytes (id : Uuid) : List UInt8 := bytesLE id.toNat 16

/-- `SavitarLog`: the header fields and the bytes of the mapped file behind them. -/
structure RedoLog where
  checksum : ℕ
  objectId : Uuid
  size : ℕ
  head : ℕ
  tail : ℕ
  lastCommit : ℕ
  snapshotLock : ℕ
  data : Mem

/-- `CHECKSUM(log)`: the three words after the checksum, xor-ed. -/
def logChecksum (objectId : Uuid) (size : ℕ) : ℕ :=
  objectId.toNat % 2 ^ 64 ^^^ objectId.toNat / 2 ^ 64 ^^^ size

/-- `Savitar_log_create`: a new file is zero filled; head and tail are right behind the header. -/
def savitarLogCreate (id : Uuid) (size : ℕ) : RedoLog where
  checksum := logChecksum id size
  objectId := id
  size := size
  head := redoLogHeaderSize
  tail := redoLogHeaderSize
  lastCommit := 0
  snapshotLock := 0
  data := fun _ => 0

/-- `Savitar_log_open` on the image of an existing file of length `mappedLen`: both assertions,
then the temporary snapshot lock is cleared. Every other field is used as it was found. -/
def savitarLogOpen (image : RedoLog) (mappedLen : ℕ) : Option RedoLog :=
  if image.size = mappedLen ∧ image.checksum = logChecksum image.objectId image.size then
    some { image with snapshotLock := 0 }
  else none

/-- Round up to whole cache lines, the way the appender does it. -/
def padToLine (n : ℕ) : ℕ :=
  if n % cacheLineWidth ≠ 0 then n + (cacheLineWidth - n % cacheLineWidth) else n

/-- The space an entry takes: hole for the commit id, magic, and the argument vector, padded. -/
def entrySize (v : List (List UInt8)) : ℕ := padToLine (2 * 8 + v.flatten.length)

/-- The bytes `Savitar_log_append` stores behind the commit-id hole of an entry at `offset`. -/
def writeEntry (data : Mem) (offset : ℕ) (v : List (List UInt8)) : Mem :=
  store (store data (offset + 8) (bytesLE redoLogMagic 8)) (offset + 16) v.flatten

/-- `Savitar_log_append` run without interruption; `none` is a failed assertion. -/
def savitarLogAppend (log : RedoLog) (v : List (List UInt8)) : Option (ℕ × RedoLog) :=
  let offset := log.tail
  if v ≠ [] ∧ offset + entrySize v ≤ log.size then
    some (offset, { log with
      tail := log.tail + entrySize v
      data := writeEntry log.data offset v })
  else none

/-- `Savitar_log_commit` run without interruption; `none` is a failed assertion. -/
def savitarLogCommit (log : RedoLog) (entryOffset : ℕ) : Option RedoLog :=
  let commitId := log.lastCommit + 1
  if commitId < uint64Max then
    some { log with
      lastCommit := commitId
      data := store log.data entryOffset (bytesLE commitId 8) }
  else none

/-! ## Padding -/

theorem padToLine_mod (n : ℕ) : padToLine n % 64 = 0 := by
  by_cases h : n % 64 = 0
  · simp [padToLine, cacheLineWidth, h]
  · simp only [padToLine, cacheLineWidth, ne_eq, h, not_false_eq_true, if_true]
    omega

theorem le_padToLine (n : ℕ) : n ≤ padToLine n := by
  by_cases h : n % 64 = 0
  · simp [padToLine, cacheLineWidth, h]
  · simp [padToLine, cacheLineWidth, h]

/-- The scanner skips `64 - n % 64` bytes behind an entry of `n` bytes. That is the appender's
padding unless `n` fills its last cache line, and one cache line too many if it does. -/
theorem add_sub_mod_eq (n : ℕ) :
    n + (cacheLineWidth - n % cacheLineWidth) =
      if n % cacheLineWidth = 0 then padToLine n + cacheLineWidth else padToLine n := by
  by_cases h : n % 64 = 0
  · simp [padToLine, cacheLineWidth, h]
  · simp [padToLine, cacheLineWidth, h]

/-! ## Entries in a log image -/

/-- A complete entry at `offset` with the given commit id, tag and argument bytes. -/
structure EntryAt (data : Mem) (offset commitId tag : ℕ) (args : List UInt8) : Prop where
  commitId_eq : load data offset 8 = commitId
  magic_eq : load data (offset + 8) 8 = redoLogMagic
  tag_eq : load data (offset + 16) 8 = tag
  args_eq : bytes data (offset + 24) args.length = args

/-- An entry depends only on the bytes from its offset to the end of its arguments. -/
theorem EntryAt.congr {data data' : Mem} {offset commitId tag : ℕ} {args : List UInt8}
    (h : EntryAt data offset commitId tag args)
    (heq : ∀ x, offset ≤ x → x < offset + 24 + args.length → data' x = data x) :
    EntryAt data' offset commitId tag args where
  commitId_eq := (load_congr fun x h1 h2 => heq x h1 (by omega)).trans h.commitId_eq
  magic_eq := (load_congr fun x h1 h2 => heq x (by omega) (by omega)).trans h.magic_eq
  tag_eq := (load_congr fun x h1 h2 => heq x (by omega) (by omega)).trans h.tag_eq
  args_eq := (bytes_congr fun x h1 h2 => heq x (by omega) (by omega)).trans h.args_eq

/-- Storing a commit id into the hole of a complete entry only replaces its id. -/
theorem EntryAt.commit {data : Mem} {offset commitId tag : ℕ} {args : List UInt8}
    (h : EntryAt data offset commitId tag args) {id : ℕ} (hid : id < 256 ^ 8) :
    EntryAt (store data offset (bytesLE id 8)) offset id tag args where
  commitId_eq := load_store_word hid
  magic_eq := (load_store_of_disjoint (by simp)).trans h.magic_eq
  tag_eq := (load_store_of_disjoint (by simp)).trans h.tag_eq
  args_eq :=
    (bytes_congr fun x h1 _ => store_of_ge (by simp; omega)).trans h.args_eq

theorem writeEntry_of_outside {data : Mem} {offset x : ℕ} {v : List (List UInt8)}
    (h : x < offset + 8 ∨ offset + 16 + v.flatten.length ≤ x) :
    writeEntry data offset v x = data x := by
  rw [writeEntry, store_of_outside (by omega), store_of_outside (by simp; omega)]

/-- What the appender writes behind the hole is a complete entry that keeps the hole's word. -/
theorem entryAt_writeEntry {data : Mem} {offset commitId tag : ℕ} {args : List UInt8}
    {v : List (List UInt8)} (htag : tag < 256 ^ 8) (hv : v.flatten = bytesLE tag 8 ++ args)
    (hhole : load data offset 8 = commitId) :
    EntryAt (writeEntry data offset v) offset commitId tag args := by
  have hmagic : redoLogMagic < 256 ^ 8 := by decide
  refine ⟨?_, ?_, ?_, ?_⟩
  · rw [← hhole]
    exact load_congr fun x _ h2 => writeEntry_of_outside (by omega)
  · rw [writeEntry, load_store_of_disjoint (by omega), load_store_word hmagic]
  · rw [writeEntry, hv, load_store_append htag]
  · rw [writeEntry, hv, store_append, length_bytesLE]
    exact bytes_store_self _ _ _

end Pronto
