import Pronto.Objects.Calls

/-!
# The durable hash map

`PersistentHashMap` keeps 32 `unordered_map`s, each under a mutex; the contents of a key select the
map, but inside a map keys are compared as pointers. `insert` logs both strings, so recovery inserts
pointers into the log instead of the pointers that were inserted.

* `hashMap_recovers`: at whatever point a run of concurrent inserts is cut off by a crash, a
  recovery that finishes leaves in every bucket the strings of an initial part of the commit order,
  among them those of every insert that had returned.
* `hashMap_restored_iff`: between commits recovery does finish, and then a bucket whose mutex was
  free is restored if and only if no key pointer had been inserted into it twice.
-/

namespace Pronto

open Memory Runs

/-! ## The map -/

/-- `PersistentHashMap::Buckets`. -/
def hashMapBuckets : ℕ := 32

/-- `PersistentHashMap::InsertTag`. -/
def insertTag : ℕ := 1

/-- A pair in a map: two pointers, and the strings they point to without their last byte. -/
structure MapEntry where
  keyPtr : ℕ
  valuePtr : ℕ
  key : List UInt8
  value : List UInt8
deriving DecidableEq, Repr

/-- The strings of a pair. -/
def MapEntry.strings (e : MapEntry) : List UInt8 × List UInt8 := (e.key, e.value)

/-- The arguments of a call of `insert`: two strings that end at their first zero. -/
structure InsertCall extends MapEntry where
  key_noNul : 0 ∉ key
  value_noNul : 0 ∉ value
  key_lt : key.length < logSize
  value_lt : value.length < logSize

/-- `unordered_map::insert`: a key that is present, compared as a pointer, is left alone. -/
def bucketInsert (e : MapEntry) (bucket : List MapEntry) : List MapEntry :=
  if bucket.any fun x => x.keyPtr == e.keyPtr then bucket else bucket ++ [e]

/-- `PersistentHashMap::insert` without its logging; `hash` is `std::hash` of a string. -/
def hashMap (hash : List UInt8 → ℕ) : Sharded.Spec ℕ (List MapEntry) MapEntry where
  shard := fun e => hash e.key % hashMapBuckets
  apply := bucketInsert

/-- The map as its callers use it. -/
def hashMapCalls (hash : List UInt8 → ℕ) : Sharded.Spec ℕ (List MapEntry) InsertCall :=
  (hashMap hash).comap InsertCall.toMapEntry

/-- What `PersistentHashMap::Log` appends. -/
def insertVector (c : InsertCall) : List (List UInt8) :=
  [bytesLE insertTag 8, c.key ++ [0], c.value ++ [0]]

/-- The two lengths that `PersistentHashMap::Play` takes at `m`, of which `n` bytes are mapped. -/
def insertLengths (m : Mem) (n : ℕ) : Option (ℕ × ℕ) := do
  let key ← strlenWithin m 0 n
  let value ← strlenWithin m (key + 1) (n - (key + 1))
  return (key, value)

/-- The lengths depend on the mapped bytes only. -/
theorem insertLengths_congr {m m' : Mem} {n : ℕ} (h : ∀ i < n, m i = m' i) :
    insertLengths m n = insertLengths m' n := by
  have hkey : strlenWithin m 0 n = strlenWithin m' 0 n :=
    strlenWithin_congr fun i hi => by simpa using h i hi
  have hvalue : ∀ k, strlenWithin m (k + 1) (n - (k + 1)) = strlenWithin m' (k + 1) (n - (k + 1)) :=
    fun k => strlenWithin_congr fun i hi => h _ (by omega)
  simp only [insertLengths, hkey, hvalue]

/-- More mapped bytes do not change lengths that were found. -/
theorem insertLengths_mono {m : Mem} {n n' : ℕ} {r : ℕ × ℕ} (hle : n ≤ n')
    (h : insertLengths m n = some r) : insertLengths m n' = some r := by
  obtain ⟨key, hkey, h⟩ := Option.bind_eq_some_iff.mp h
  obtain ⟨value, hvalue, h⟩ := Option.bind_eq_some_iff.mp h
  refine Option.bind_eq_some_iff.mpr ⟨key, strlenWithin_mono hle hkey, ?_⟩
  exact Option.bind_eq_some_iff.mpr ⟨value, strlenWithin_mono (by omega) hvalue, h⟩

/-- The dry run of `PersistentHashMap::Play`; any other tag fails its assertion. -/
def hashMapPlay : DryRun where
  run := fun tag m n =>
    if tag = insertTag then
      match insertLengths m n with
      | some (key, value) => .ok (key + value + 2)
      | none => .error .unmapped
    else .error .assertion
  reads := fun h => by rw [insertLengths_congr h]
  mono := fun hle h => by
    split at h
    · rename_i htag
      split at h
      · rename_i key value hlen
        simp only [if_pos htag, insertLengths_mono hle hlen]
      · exact absurd rfl h
    · rename_i htag
      simp only [if_neg htag]

/-- The length of the string at `a` in a log. -/
def stringLength (m : Mem) (a : ℕ) : ℕ := (strlenWithin m a logSize).getD 0

/-- The pair that `PersistentHashMap::Play` inserts for a record of the log. -/
def playInsert (log : RedoLog) (r : CommitRecord) : MapEntry :=
  let value := r.ptr + stringLength log.data r.ptr + 1
  { keyPtr := r.ptr
    valuePtr := value
    key := bytes log.data r.ptr (stringLength log.data r.ptr)
    value := bytes log.data value (stringLength log.data value) }

/-- The map that `Play` builds from the records recovery plays. -/
def recoveredMap (hash : List UInt8 → ℕ) (log : RedoLog) (played : List CommitRecord) :
    ℕ → List MapEntry :=
  (hashMap hash).replay (fun _ => []) (played.map (playInsert log))

/-! ## Reading the strings back -/

/-- A sequence of bytes, read in two parts. -/
theorem bytes_of_append {m : Mem} {a : ℕ} {xs ys : List UInt8}
    (h : bytes m a (xs ++ ys).length = xs ++ ys) :
    bytes m a xs.length = xs ∧ bytes m (a + xs.length) ys.length = ys := by
  have hsplit : bytes m a (xs ++ ys).length =
      bytes m a xs.length ++ bytes m (a + xs.length) ys.length := by
    rw [List.length_append, bytes, List.range_add, List.map_append, List.map_map]
    simp only [bytes, Function.comp_def, Nat.add_assoc]
  rw [hsplit] at h
  exact List.append_inj h (by simp)

/-- Two strings one behind the other, as `Play` reads them. -/
theorem strlen_strings {m : Mem} {a n : ℕ} (c : InsertCall)
    (h : bytes m a ((c.key ++ [0]) ++ (c.value ++ [0])).length = (c.key ++ [0]) ++ (c.value ++ [0]))
    (hkey : c.key.length < n) {k : ℕ} (hvalue : c.value.length < k) :
    strlenWithin m a n = some c.key.length ∧ bytes m a c.key.length = c.key ∧
      strlenWithin m (a + c.key.length + 1) k = some c.value.length ∧
      bytes m (a + c.key.length + 1) c.value.length = c.value := by
  obtain ⟨hkeyb, hvalueb⟩ := bytes_of_append h
  rw [List.length_append, List.length_singleton, ← Nat.add_assoc] at hvalueb
  exact ⟨strlenWithin_eq c.key_noNul hkey hkeyb, (bytes_of_append hkeyb).1,
    strlenWithin_eq c.value_noNul hvalue hvalueb, (bytes_of_append hvalueb).1⟩

/-- The append made by `insert`. -/
def insertLogCall (c : InsertCall) : LogCall hashMapPlay where
  vector := insertVector c
  tag := insertTag
  args := (c.key ++ [0]) ++ (c.value ++ [0])
  vector_ne := by simp [insertVector]
  tag_lt := by decide
  flatten_eq := by simp [insertVector]
  args_ok := fun _ m hm => by
    set n := ((c.key ++ [0]) ++ (c.value ++ [0])).length with hn
    have hlen : n = c.key.length + c.value.length + 2 := by
      simp only [hn, List.length_append, List.length_singleton]
      omega
    obtain ⟨hkey, -, hvalue, -⟩ := strlen_strings c hm (show c.key.length < n by omega)
      (show c.value.length < n - (c.key.length + 1) by omega)
    rw [Nat.zero_add] at hvalue
    have hboth : insertLengths m n = some (c.key.length, c.value.length) := by
      simp only [insertLengths, hkey, hvalue, Option.bind_eq_bind, Option.bind_some]
      rfl
    simp only [hashMapPlay, if_true, hboth]
    rw [hlen]
  nested_ok := fun h => by cases h

/-- `Play` inserts the strings of the call, at their place in the log. -/
theorem playInsert_eq {log : RedoLog} {c : InsertCall} {r : CommitRecord}
    (h : r.Encodes insertVector log c) :
    playInsert log r = ⟨r.ptr, r.ptr + c.key.length + 1, c.key, c.value⟩ := by
  obtain ⟨tx, hv, hin, rfl⟩ := h
  have hargs := (hin.entryAt (insertLogCall c) hv.symm).args_eq
  obtain ⟨hkey, hkeyb, hvalue, hvalueb⟩ := strlen_strings c hargs c.key_lt c.value_lt
  simp only [playInsert, recordAt, stringLength, hkey, Option.getD_some, hkeyb, hvalue, hvalueb]

/-! ## Buckets -/

section Buckets

variable {acc es : List MapEntry} {e : MapEntry}

/-- Inserts into one bucket. -/
def bucketInserts (acc es : List MapEntry) : List MapEntry :=
  es.foldl (fun bucket e => bucketInsert e bucket) acc

/-- A new key is appended. -/
theorem bucketInsert_of_fresh (h : e.keyPtr ∉ acc.map MapEntry.keyPtr) :
    bucketInsert e acc = acc ++ [e] := by
  refine if_neg fun hany => h ?_
  obtain ⟨x, hx, heq⟩ := List.any_eq_true.mp hany
  exact List.mem_map.mpr ⟨x, hx, by simpa using heq⟩

theorem bucketInsert_of_mem (h : e.keyPtr ∈ acc.map MapEntry.keyPtr) : bucketInsert e acc = acc := by
  obtain ⟨x, hx, heq⟩ := List.mem_map.mp h
  exact if_pos (List.any_eq_true.mpr ⟨x, hx, by simpa using heq⟩)

/-- Distinct pointers are all inserted. -/
theorem bucketInserts_of_nodup (h : ((acc ++ es).map MapEntry.keyPtr).Nodup) :
    bucketInserts acc es = acc ++ es := by
  induction es generalizing acc with
  | nil => simp [bucketInserts]
  | cons e es ih =>
    have hfresh : e.keyPtr ∉ acc.map MapEntry.keyPtr := by
      rw [List.map_append, List.nodup_append] at h
      exact fun hmem => h.2.2 _ hmem _ (by simp) rfl
    have hrest : bucketInserts (acc ++ [e]) es = (acc ++ [e]) ++ es := ih (by simpa using h)
    rw [bucketInserts] at hrest
    rw [bucketInserts, List.foldl_cons, bucketInsert_of_fresh hfresh]
    simpa using hrest

/-- A bucket never holds more than was inserted, and as much only if all pointers differ. -/
theorem bucketInserts_length (hacc : (acc.map MapEntry.keyPtr).Nodup) :
    (bucketInserts acc es).length ≤ acc.length + es.length ∧
      ((bucketInserts acc es).length = acc.length + es.length →
        ((acc ++ es).map MapEntry.keyPtr).Nodup) := by
  induction es generalizing acc with
  | nil => simpa [bucketInserts] using hacc
  | cons e es ih =>
    rw [bucketInserts, List.foldl_cons]
    by_cases hmem : e.keyPtr ∈ acc.map MapEntry.keyPtr
    · rw [bucketInsert_of_mem hmem]
      have hle : (bucketInserts acc es).length ≤ acc.length + es.length := (ih hacc).1
      rw [bucketInserts] at hle
      simp only [List.length_cons]
      exact ⟨by omega, fun heq => by omega⟩
    · rw [bucketInsert_of_fresh hmem]
      have hnd : ((acc ++ [e]).map MapEntry.keyPtr).Nodup := by
        rw [List.map_append, List.nodup_append]
        refine ⟨hacc, by simp, ?_⟩
        rintro x hx y hy rfl
        simp only [List.map_cons, List.map_nil, List.mem_singleton] at hy
        exact hmem (hy ▸ hx)
      have hrest := ih hnd
      rw [bucketInserts] at hrest
      simp only [List.length_append, List.length_cons, List.length_nil] at hrest ⊢
      refine ⟨by omega, fun heq => ?_⟩
      simpa using hrest.2 (by omega)

/-- A bucket filled from empty holds everything that was inserted exactly when no key pointer came
twice. -/
theorem strings_bucketInserts_iff (es : List MapEntry) :
    (bucketInserts [] es).map MapEntry.strings = es.map MapEntry.strings ↔
      (es.map MapEntry.keyPtr).Nodup := by
  constructor
  · intro h
    have hlen := congrArg List.length h
    simp only [List.length_map] at hlen
    have hnil : (([] : List MapEntry).map MapEntry.keyPtr).Nodup := List.nodup_nil
    simpa using (bucketInserts_length hnil).2 (by simpa using hlen : (bucketInserts [] es).length = _)
  · intro h
    rw [bucketInserts_of_nodup (by simpa using h), List.nil_append]

end Buckets

/-! ## Two threads

The inserts that the examples below are about. -/

/-- `std::hash`, for short strings. -/
def firstByte (key : List UInt8) : ℕ := (key.headD 0).toNat

def insertA : InsertCall where
  keyPtr := 0x1000
  valuePtr := 0x1010
  key := [65]
  value := [49]
  key_noNul := by decide
  value_noNul := by decide
  key_lt := by decide
  value_lt := by decide

def insertB : InsertCall where
  keyPtr := 0x2000
  valuePtr := 0x2010
  key := [66]
  value := [50]
  key_noNul := by decide
  value_noNul := by decide
  key_lt := by decide
  value_lt := by decide

/-- The persister of thread `i` logs the call `c`. -/
def logInsert (i : ℕ) (c : InsertCall) : List (MethodAction InsertCall) :=
  .reserve i :: (List.replicate (entryBytes (insertVector c)).length (.append i .write) ++
    [.append i .drain, .append i .persistTail])

/-- Two threads change their buckets; the second commits and returns, the first is still open. -/
def overlappingInserts : List (MethodAction InsertCall) :=
  [.call 0 insertA, .call 1 insertB, .lock 1, .modify 1, .lock 0, .modify 0] ++
    logInsert 0 insertA ++ logInsert 1 insertB ++
    [.take 1, .commit 1 .store, .commit 1 .persistId, .unlock 1]

/-! ## Recovery -/

section Recovery

variable {hash : List UInt8 → ℕ}

/-- The pairs inserted into a bucket, in the order of the inserts. -/
def insertedInto (hash : List UInt8 → ℕ) (b : ℕ) (es : List MapEntry) : List MapEntry :=
  es.filter fun e => (hashMap hash).shard e = b

theorem hashMap_replay_apply (es : List MapEntry) (b : ℕ) :
    (hashMap hash).replay (fun _ => []) es b = bucketInserts [] (insertedInto hash b es) :=
  Sharded.replay_apply es b

/-- Selecting the pairs of a bucket looks at their strings only. -/
theorem strings_insertedInto (b : ℕ) (es : List MapEntry) :
    (insertedInto hash b es).map MapEntry.strings =
      (es.map MapEntry.strings).filter fun p => hash p.1 % hashMapBuckets = b := by
  rw [List.filter_map]
  rfl

/-- What `Play` inserts for the records of calls: their strings, under pointers that all differ. -/
theorem playInsert_played {log : RedoLog} {calls : List InsertCall} {played : List CommitRecord}
    (h : List.Forall₂ (CommitRecord.Encodes insertVector log) calls played)
    (hids : (played.map CommitRecord.commitId).Nodup) :
    (played.map (playInsert log)).map MapEntry.strings =
        calls.map (fun c => c.toMapEntry.strings) ∧
      ((played.map (playInsert log)).map MapEntry.keyPtr).Nodup := by
  constructor
  · induction h with
    | nil => rfl
    | cons hr _ ih =>
      simp only [List.map_cons, playInsert_eq hr, MapEntry.strings]
      rw [ih (List.nodup_cons.mp hids).2]
      rfl
  · -- two records at one address would have one commit id
    have hrec : ∀ r ∈ played, ∃ o, r = recordAt log o := by
      clear hids
      induction h with
      | nil => simp
      | cons hr _ ih =>
        obtain ⟨tx, -, -, heq⟩ := hr
        exact List.forall_mem_cons.mpr ⟨⟨tx.offset, heq⟩, ih⟩
    have hptr : (played.map (playInsert log)).map MapEntry.keyPtr = played.map CommitRecord.ptr := by
      rw [List.map_map]
      rfl
    rw [hptr]
    refine List.Nodup.map_on (fun r hr r' hr' heq => ?_) (List.Nodup.of_map _ hids)
    obtain ⟨o, rfl⟩ := hrec r hr
    obtain ⟨o', rfl⟩ := hrec r' hr'
    simp only [recordAt, Nat.add_right_cancel_iff] at heq
    rw [heq]

/-- A bucket of the recovered map holds the strings of the played calls of that bucket. -/
theorem strings_recoveredMap {log : RedoLog} {calls : List InsertCall} {played : List CommitRecord}
    (h : List.Forall₂ (CommitRecord.Encodes insertVector log) calls played)
    (hids : (played.map CommitRecord.commitId).Nodup) (b : ℕ) :
    (recoveredMap hash log played b).map MapEntry.strings =
      (insertedInto hash b (calls.map InsertCall.toMapEntry)).map MapEntry.strings := by
  obtain ⟨hstrings, hnd⟩ := playInsert_played h hids
  have hsub : ((insertedInto hash b (played.map (playInsert log))).map MapEntry.keyPtr).Nodup :=
    hnd.sublist (List.filter_sublist.map _)
  rw [recoveredMap, hashMap_replay_apply, (strings_bucketInserts_iff _).mpr hsub,
    strings_insertedInto, strings_insertedInto, hstrings, List.map_map]
  rfl

/-- The entries of inserts can be scanned when they are drained and none fills its last line. -/
theorem ObjectState.Reached.scannable {s : ObjectState ℕ (List MapEntry) InsertCall}
    {parts : ℕ → List MapEntry} (h : s.Reached (hashMapCalls hash) insertVector parts)
    (hdrained : ∀ tx ∈ s.log.txs, tx.offset < s.log.durable.tail → tx.phase.isDrained = true)
    (hline : ∀ tx ∈ s.log.txs, tx.offset < s.log.durable.tail →
      (16 + tx.vector.flatten.length) % cacheLineWidth ≠ 0) : s.log.Scannable hashMapPlay where
  calls := fun tx htx => by
    have hmem := List.mem_map_of_mem (f := Tx.vector) htx
    rw [h.linked.vectors] at hmem
    obtain ⟨c, -, hc⟩ := List.mem_map.mp hmem
    exact ⟨insertLogCall c, hc⟩
  drained := hdrained
  line := hline

variable {id : Uuid} {size : ℕ} {acts : List (MethodAction InsertCall)}
  {s : ObjectState ℕ (List MapEntry) InsertCall} {s' : LogState}

/-- **Inserts survive crashes.** Threads insert concurrently, and a crash cuts them off at a point at
which every entry below the durable tail is drained and none fills its last cache line. If recovery
finishes, every bucket holds the strings of the inserts into it among the first `n` of the commit
order, for some `n`, and the inserts that had returned are among these `n`. -/
theorem hashMap_recovers {st : RecoverState}
    (hrun : run (methodStep (hashMapCalls hash) insertVector) (.create id size fun _ => []) acts =
      some s)
    (hdrained : ∀ tx ∈ s.log.txs, tx.offset < s.log.durable.tail → tx.phase.isDrained = true)
    (hline : ∀ tx ∈ s.log.txs, tx.offset < s.log.durable.tail →
      (16 + tx.vector.flatten.length) % cacheLineWidth ≠ 0)
    (hcrash : run (logStep hashMapPlay (fun _ => true) true) s.log [.crash, .reopen] = some s')
    (hok : recover hashMapPlay (fun _ => true) s'.log 0 0 = .ok st) :
    ∃ n ≤ s.order.length, (∀ m ∈ s.returned, m ∈ s.order.take n) ∧
      ∀ b, (recoveredMap hash s'.log st.replay.played b).map MapEntry.strings =
        (insertedInto hash b ((s.object.order.take n).map InsertCall.toMapEntry)).map
          MapEntry.strings := by
  have h := ObjectState.Reached.of_run hrun
  obtain ⟨hcalls, hids, hreturned⟩ :=
    recover_calls h (h.scannable hdrained hline) (run_crash_reopen hcrash).1 hok
  refine ⟨st.replay.played.length, ?_, hreturned,
    strings_recoveredMap hcalls (hids ▸ List.nodup_range')⟩
  have hlen := hcalls.length_eq
  rw [List.length_take, h.object_order_length, ← h.order_length] at hlen
  omega

/-- A crash after the first thread has taken its id, and not stored it. -/
theorem hashMap_recovers_interrupted :
    ∃ s s' st, run (methodStep (hashMapCalls firstByte) insertVector) (.create 0 1024 fun _ => [])
        (overlappingInserts ++ [.take 0]) = some s ∧
      run (logStep hashMapPlay (fun _ => true) true) s.log [.crash, .reopen] = some s' ∧
      recover hashMapPlay (fun _ => true) s'.log 0 0 = .ok st ∧ s.returned = [1] ∧
      ∃ n ≤ s.order.length, (∀ m ∈ s.returned, m ∈ s.order.take n) ∧
        ∀ b, (recoveredMap firstByte s'.log st.replay.played b).map MapEntry.strings =
          (insertedInto firstByte b ((s.object.order.take n).map InsertCall.toMapEntry)).map
            MapEntry.strings := by
  obtain ⟨s, hrun, hdrained, hline, hreturned, s', hcrash, st, hok⟩ :
      ∃ s, run (methodStep (hashMapCalls firstByte) insertVector) (.create 0 1024 fun _ => [])
          (overlappingInserts ++ [.take 0]) = some s ∧
        (∀ tx ∈ s.log.txs, tx.offset < s.log.durable.tail → tx.phase.isDrained = true) ∧
        (∀ tx ∈ s.log.txs, tx.offset < s.log.durable.tail →
          (16 + tx.vector.flatten.length) % cacheLineWidth ≠ 0) ∧ s.returned = [1] ∧
        ∃ s', run (logStep hashMapPlay (fun _ => true) true) s.log [.crash, .reopen] = some s' ∧
          ∃ st, recover hashMapPlay (fun _ => true) s'.log 0 0 = .ok st :=
    ⟨_, rfl, by decide, by decide, rfl, _, rfl, _, rfl⟩
  exact ⟨s, s', st, hrun, hcrash, hok, hreturned,
    hashMap_recovers hrun hdrained hline hcrash hok⟩

/-- **When a bucket is restored.** If no thread was inside `Savitar_log_commit` at the crash, recovery
finishes, and a bucket whose mutex was free holds the strings it held before if and only if no key
pointer had been inserted into it twice. -/
theorem hashMap_restored_iff
    (hrun : run (methodStep (hashMapCalls hash) insertVector) (.create id size fun _ => []) acts =
      some s)
    (hdrained : ∀ tx ∈ s.log.txs, tx.offset < s.log.durable.tail → tx.phase.isDrained = true)
    (hline : ∀ tx ∈ s.log.txs, tx.offset < s.log.durable.tail →
      (16 + tx.vector.flatten.length) % cacheLineWidth ≠ 0)
    (hcrash : run (logStep hashMapPlay (fun _ => true) true) s.log [.crash, .reopen] = some s')
    (hbetween : s.log.BetweenCommits) :
    ∃ st, recover hashMapPlay (fun _ => true) s'.log 0 0 = .ok st ∧
      ∀ b, s.object.holder b = none →
        ((recoveredMap hash s'.log st.replay.played b).map MapEntry.strings =
            (s.object.parts b).map MapEntry.strings ↔
          ((insertedInto hash b (s.object.order.map InsertCall.toMapEntry)).map
            MapEntry.keyPtr).Nodup) := by
  have h := ObjectState.Reached.of_run hrun
  obtain ⟨st, hok, hcalls, hids⟩ :=
    recover_calls_between h (h.scannable hdrained hline) (run_crash_reopen hcrash).1 hbetween
  refine ⟨st, hok, fun b hb => ?_⟩
  have hpart : s.object.parts b =
      bucketInserts [] (insertedInto hash b (s.object.order.map InsertCall.toMapEntry)) := by
    rw [h.object.free b hb, hashMapCalls, Sharded.replay_comap, hashMap_replay_apply]
  rw [strings_recoveredMap hcalls hids, hpart, eq_comm]
  exact strings_bucketInserts_iff _

/-- A crash while the first thread waits for its commit: the bucket of the second is restored. -/
theorem hashMap_restored_overlapping :
    ∃ s s' st, run (methodStep (hashMapCalls firstByte) insertVector) (.create 0 1024 fun _ => [])
        overlappingInserts = some s ∧
      run (logStep hashMapPlay (fun _ => true) true) s.log [.crash, .reopen] = some s' ∧
      recover hashMapPlay (fun _ => true) s'.log 0 0 = .ok st ∧
      (recoveredMap firstByte s'.log st.replay.played 2).map MapEntry.strings =
        (s.object.parts 2).map MapEntry.strings ∧
      (s.object.parts 2).map MapEntry.strings = [([66], [50])] := by
  obtain ⟨s, hrun, hdrained, hline, hbetween, hfree, hnodup, hparts, s', hcrash⟩ :
      ∃ s, run (methodStep (hashMapCalls firstByte) insertVector) (.create 0 1024 fun _ => [])
          overlappingInserts = some s ∧
        (∀ tx ∈ s.log.txs, tx.offset < s.log.durable.tail → tx.phase.isDrained = true) ∧
        (∀ tx ∈ s.log.txs, tx.offset < s.log.durable.tail →
          (16 + tx.vector.flatten.length) % cacheLineWidth ≠ 0) ∧ s.log.BetweenCommits ∧
        s.object.holder 2 = none ∧
        ((insertedInto firstByte 2 (s.object.order.map InsertCall.toMapEntry)).map
          MapEntry.keyPtr).Nodup ∧
        (s.object.parts 2).map MapEntry.strings = [([66], [50])] ∧
        ∃ s', run (logStep hashMapPlay (fun _ => true) true) s.log [.crash, .reopen] = some s' :=
    ⟨_, rfl, by decide, by decide, by decide, rfl, by decide, rfl, _, rfl⟩
  obtain ⟨st, hok, hiff⟩ := hashMap_restored_iff hrun hdrained hline hcrash hbetween
  exact ⟨s, s', st, hrun, hcrash, hok, (hiff 2 hfree).mpr hnodup, hparts⟩

end Recovery

end Pronto
