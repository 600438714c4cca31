import Pronto.Log.RedoLog

/-!
# Logging and replaying `PDB::Put`

`PDB` wraps a RocksDB instance in a persistent object (`pdb.h`). `PDB::Log` appends the bytes of the key
and of the value, as long as the two slices are. `PDB::Play` takes the logged bytes for C strings: the
key is what stands before the first zero byte, and the value starts at that zero byte. So every replayed
`Put` has an empty value, and the byte count includes two terminators that were never logged
(`pdbPlay_some`); no key and value survive the log (`pdb_put_never_replayed`).
-/

namespace Pronto

open Memory

/-- `PDB::MethodTags`. -/
inductive PdbTag
  | putDefaultColumnFamily
  | putColumnFamilyHandle
  | deleteDefaultColumnFamily
  | deleteColumnFamilyHandle
  | singleDeleteDefaultColumnFamily
  | singleDeleteColumnFamilyHandle
  | deleteRangeColumnFamilyHandle
  | mergeDefaultColumnFamily
  | mergeColumnFamilyHandle
  | writeBatch
deriving DecidableEq, Repr

/-- The number of a tag: the enumeration starts at 1. -/
def PdbTag.toNat (tag : PdbTag) : ℕ := tag.ctorIdx + 1

/-- A `Slice`: the bytes it refers to. -/
abbrev Slice := List UInt8

/-- `PDB::Log`: the offset of the entry and the log behind it; `none` is a failed assertion. Only
`PutDefaultColumnFamily` is supported. -/
def pdbLog (log : RedoLog) (tag : PdbTag) (key value : Slice) : Option (ℕ × RedoLog) :=
  match tag with
  | .putDefaultColumnFamily => savitarLogAppend log [bytesLE tag.toNat 8, key, value]
  | _ => none

/-- What a call of `Play` does: the calls of `db->Put` and the number of bytes it returns. -/
structure PlayResult where
  puts : List (Slice × Slice)
  bytesProcessed : ℕ
deriving DecidableEq, Repr

/-- `PDB::Play` on the arguments at `args`; `none` is a failed assertion or a read behind the log. -/
def pdbPlay (log : RedoLog) (tag : PdbTag) (args : ℕ) (dry : Bool) : Option PlayResult :=
  match tag with
  | .putDefaultColumnFamily => do
    let keyLen ← strlenWithin log.data args (log.size - args)
    let value := args + keyLen
    let valueLen ← strlenWithin log.data value (log.size - value)
    -- the slices that `db->Put` receives are made from C strings
    let put := (bytes log.data args keyLen, bytes log.data value valueLen)
    return ⟨if dry then [] else [put], keyLen + valueLen + 2⟩
  | _ => none

/-- The value starts at the zero byte behind the key, so it is empty. -/
theorem pdbPlay_some {log : RedoLog} {tag : PdbTag} {args : ℕ} {dry : Bool} {r : PlayResult}
    (h : pdbPlay log tag args dry = some r) :
    ∃ keyLen, r.puts = (if dry then [] else [(bytes log.data args keyLen, [])]) ∧
      r.bytesProcessed = keyLen + 2 := by
  cases tag with
  | putDefaultColumnFamily =>
    obtain ⟨keyLen, hkey, h⟩ := Option.bind_eq_some_iff.mp h
    obtain ⟨valueLen, hvalue, h⟩ := Option.bind_eq_some_iff.mp h
    cases h
    have hzero := strlenWithin_some hkey
    obtain rfl : valueLen = 0 := by
      cases hn : log.size - (args + keyLen) with
      | zero => simp [hn, strlenWithin] at hvalue
      | succ n => simpa [hn, strlenWithin, hzero] using hvalue.symm
    exact ⟨keyLen, rfl, rfl⟩
  | _ => cases h

/-- **No `Put` is replayed as it was logged.** Whatever the log holds and whatever follows the entry:
`Play` on the arguments appended for a key and a value does not both issue the `Put` of that key and
value and return the number of bytes logged. -/
theorem pdb_put_never_replayed {log log' : RedoLog} {key value : Slice} {offset : ℕ}
    (h : pdbLog log .putDefaultColumnFamily key value = some (offset, log')) :
    bytes log'.data (offset + 24) (key ++ value).length = key ++ value ∧
    ¬ (pdbPlay log' .putDefaultColumnFamily (offset + 24) false =
          some ⟨[(key, value)], (key ++ value).length⟩ ∧
        pdbPlay log' .putDefaultColumnFamily (offset + 24) true =
          some ⟨[], (key ++ value).length⟩) := by
  refine ⟨?_, fun ⟨hplay, _⟩ => ?_⟩
  · obtain ⟨-, hlog⟩ := Option.ite_none_right_eq_some.mp h
    cases hlog
    have htag : PdbTag.putDefaultColumnFamily.toNat < 256 ^ 8 := by decide
    exact (entryAt_writeEntry htag (by simp) rfl).args_eq
  · obtain ⟨keyLen, hputs, hcount⟩ := pdbPlay_some hplay
    simp only [Bool.false_eq_true, if_false, List.cons.injEq, and_true, Prod.mk.injEq] at hputs
    obtain ⟨hkey, rfl⟩ := hputs
    have hlen : key.length = keyLen := by rw [hkey, length_bytes]
    simp only [List.append_nil, hlen] at hcount
    omega

/-- A `Put` of `a` with the value `b` comes back as one of `ab` with an empty value, and `Play` counts
four bytes instead of two. -/
theorem pdb_put_changed :
    ∃ offset log, pdbLog (savitarLogCreate 0 1024) .putDefaultColumnFamily [97] [98] =
        some (offset, log) ∧
      pdbPlay log .putDefaultColumnFamily (offset + 24) false = some ⟨[([97, 98], [])], 4⟩ ∧
      pdbPlay log .putDefaultColumnFamily (offset + 24) true = some ⟨[], 4⟩ :=
  ⟨_, _, rfl, by decide +kernel, by decide +kernel⟩

/-- The `Put` of `a` with the value `b` is not played as such. -/
theorem pdb_put_a_b_never_replayed :
    ∃ offset log, pdbLog (savitarLogCreate 0 1024) .putDefaultColumnFamily [97] [98] =
        some (offset, log) ∧
      ¬ (pdbPlay log .putDefaultColumnFamily (offset + 24) false = some ⟨[([97], [98])], 2⟩ ∧
        pdbPlay log .putDefaultColumnFamily (offset + 24) true = some ⟨[], 2⟩) :=
  have h : pdbLog (savitarLogCreate 0 1024) .putDefaultColumnFamily [97] [98] = some _ := rfl
  ⟨_, _, h, (pdb_put_never_replayed h).2⟩

end Pronto
