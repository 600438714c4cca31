import Pronto.Recovery.Threads
import Mathlib.Data.List.Nodup

/-!
# Histories of chains of nested calls

A transaction in which every call makes at most one nested call is a chain of calls, from the
outside in. When the logs agree with one order of the transactions, the commit id of a call counts
the transactions up to its own that contain its object. `Serialized` collects what recovery needs to
know about such a history: where a record comes from, and how the commit ids of one object relate to
the order of the transactions.
-/

namespace Pronto

/-- Every call of the tree makes at most one nested call; its calls from the outside in. -/
inductive CallTree.IsChain : CallTree → List (ℕ × ℕ) → Prop
  | leaf {obj id : ℕ} : IsChain (.node obj id []) [(obj, id)]
  | nest {obj id : ℕ} {c : CallTree} {cs : List (ℕ × ℕ)} (h : IsChain c cs) :
    IsChain (.node obj id [c]) ((obj, id) :: cs)

/-- The transactions are chains of calls on different objects. -/
structure History.Chained (h : History) (chains : List (List (ℕ × ℕ))) : Prop where
  trees : List.Forall₂ CallTree.IsChain h.txs chains
  distinct : ∀ cs ∈ chains, (cs.map Prod.fst).Nodup

/-- The commit ids of every log follow the order of the transactions. -/
def History.Serial (h : History) : Prop :=
  ∀ o, h.ids o = List.range' 1 (h.ids o).length

/-- The code of a chain. -/
def chainCode (cs : List (ℕ × ℕ)) : List Instr :=
  (cs.map fun c => .notify c.1 c.2) ++ cs.reverse.map fun c => .wait c.1 c.2

/-- The records of a chain whose first call is logged as `record`. -/
def chainRecords : Record → List (ℕ × ℕ) → List LogRecord
  | _, [] => []
  | record, c :: cs => ⟨c.1, c.2, record⟩ :: chainRecords (.nested c.1 c.2) cs

theorem CallTree.IsChain.code_eq {c : CallTree} {cs : List (ℕ × ℕ)} (h : c.IsChain cs) :
    c.code = chainCode cs := by
  induction h with
  | leaf => simp [CallTree.code, codeOf, chainCode]
  | nest _ ih => simp [CallTree.code, codeOf, chainCode, ih]

theorem CallTree.IsChain.records_eq {c : CallTree} {cs : List (ℕ × ℕ)} (h : c.IsChain cs)
    (record : Record) : c.records record = chainRecords record cs := by
  induction h generalizing record with
  | leaf => simp [CallTree.records, recordsOf, chainRecords]
  | nest _ ih => simp [CallTree.records, recordsOf, chainRecords, ih]

/-- The record of the `k`-th call of a chain whose first call is logged as `record`. -/
def recordOf (record : Record) (cs : List (ℕ × ℕ)) (k : ℕ) : Record :=
  if k = 0 then record else cs[k - 1]?.elim record fun c => .nested c.1 c.2

/-- The records of a chain are those of its calls. -/
theorem mem_chainRecords {record : Record} {cs : List (ℕ × ℕ)} {r : LogRecord} :
    r ∈ chainRecords record cs ↔
      ∃ k, cs[k]? = some (r.obj, r.id) ∧ r.record = recordOf record cs k := by
  -- by induction on the chain, whose first call is logged as `record`
  induction cs generalizing record with
  | nil => simp [chainRecords]
  | cons c cs ih =>
    rw [chainRecords, List.mem_cons, ih]
    constructor
    · rintro (rfl | ⟨k, hk, hr⟩)
      · exact ⟨0, rfl, rfl⟩
      · refine ⟨k + 1, hk, hr.trans ?_⟩
        rcases k with - | k
        · rfl
        · have hlt : k < cs.length := by
            have := (List.getElem?_eq_some_iff.mp hk).1
            omega
          simp [recordOf, List.getElem?_eq_getElem hlt]
    · rintro ⟨k, hk, hr⟩
      rcases k with - | k
      · left
        obtain rfl : c = (r.obj, r.id) := Option.some.inj hk
        cases r
        simpa [recordOf] using hr
      · refine Or.inr ⟨k, hk, hr.trans ?_⟩
        rcases k with - | k
        · rfl
        · have hlt : k < cs.length := by
            have := (List.getElem?_eq_some_iff.mp hk).1
            simp at this
            omega
          simp [recordOf, List.getElem?_eq_getElem hlt]

/-! ## The calls of a chained history -/

/-- The calls of transaction `t`. -/
def chainAt (chains : List (List (ℕ × ℕ))) (t : ℕ) : List (ℕ × ℕ) := chains.getD t []

/-- The `k`-th call of transaction `t` is on `o`, with commit id `i`. -/
def IsCall (chains : List (List (ℕ × ℕ))) (t k o i : ℕ) : Prop :=
  (chainAt chains t)[k]? = some (o, i)

/-- What recovery needs to know about a history of chains. -/
structure Serialized (h : History) (chains : List (List (ℕ × ℕ))) : Prop where
  outer : ∀ {t o i}, IsCall chains t 0 o i →
    h.record o i = some (.outer (chainCode (chainAt chains t)))
  nested : ∀ {t k o i p e}, IsCall chains t (k + 1) o i → IsCall chains t k p e →
    h.record o i = some (.nested p e)
  call : ∀ {o i}, (h.record o i).isSome = true → ∃ t k, IsCall chains t k o i
  same : ∀ {t k k' o i i'}, IsCall chains t k o i → IsCall chains t k' o i' → k = k'
  mono : ∀ {t t' k k' o i i'}, IsCall chains t k o i → IsCall chains t' k' o i' → t < t' → i < i'
  ids : ∀ {t k o i}, IsCall chains t k o i → 0 < i ∧ i ≤ (h.ids o).length
  exists_call : ∀ {o i}, 0 < i → i ≤ (h.ids o).length → ∃ t k, IsCall chains t k o i
  mem : ∀ {t k o i}, IsCall chains t k o i → o ∈ h.objects

section

variable {h : History} {chains : List (List (ℕ × ℕ))} {t k o i : ℕ}

theorem IsCall.mem_chains (hc : IsCall chains t k o i) :
    ∃ cs, chains[t]? = some cs ∧ cs[k]? = some (o, i) := by
  unfold IsCall chainAt at hc
  rw [List.getD_eq_getElem?_getD] at hc
  cases ht : chains[t]? with
  | none => simp [ht] at hc
  | some cs => exact ⟨cs, rfl, by simpa [ht] using hc⟩

theorem isCall_of_getElem? {cs : List (ℕ × ℕ)} (ht : chains[t]? = some cs)
    (hk : cs[k]? = some (o, i)) : IsCall chains t k o i := by
  unfold IsCall chainAt
  rw [List.getD_eq_getElem?_getD, ht]
  exact hk

theorem Serialized.unique (hs : Serialized h chains) {t' k' : ℕ} (hc : IsCall chains t k o i)
    (hc' : IsCall chains t' k' o i) : t = t' ∧ k = k' := by
  rcases Nat.lt_trichotomy t t' with hlt | rfl | hlt
  · exact absurd (hs.mono hc hc' hlt) (lt_irrefl i)
  · exact ⟨rfl, hs.same hc hc'⟩
  · exact absurd (hs.mono hc' hc hlt) (lt_irrefl i)

namespace History

/-- The commit ids of the calls on `o` in a chain. -/
def idsIn (o : ℕ) (cs : List (ℕ × ℕ)) : List ℕ := (cs.filter fun c => c.1 = o).map Prod.snd

/-- The commit ids that a chain takes in one log. -/
theorem filter_chainRecords (record : Record) (cs : List (ℕ × ℕ)) (o : ℕ) :
    ((chainRecords record cs).filter fun r => r.obj = o).map LogRecord.id = idsIn o cs := by
  induction cs generalizing record with
  | nil => rfl
  | cons c cs ih =>
    have htail := ih (.nested c.1 c.2)
    unfold idsIn at htail ⊢
    rw [chainRecords, List.filter_cons, List.filter_cons]
    by_cases hobj : c.1 = o
    · rw [if_pos (decide_eq_true hobj), if_pos (decide_eq_true hobj), List.map_cons, List.map_cons,
        htail]
    · rw [if_neg (by simpa using hobj), if_neg (by simpa using hobj), htail]

/-- The records of all transactions, chain by chain. -/
theorem flatMap_records {txs : List CallTree} (htrees : List.Forall₂ CallTree.IsChain txs chains) :
    txs.flatMap (fun c => c.records (.outer c.code)) =
      chains.flatMap fun cs => chainRecords (.outer (chainCode cs)) cs := by
  induction htrees with
  | nil => rfl
  | cons hchain _ ih =>
    rw [List.flatMap_cons, List.flatMap_cons, ih, hchain.records_eq, hchain.code_eq]

theorem Chained.ids_eq (hc : h.Chained chains) (o : ℕ) : h.ids o = chains.flatMap (idsIn o) := by
  rw [History.ids, History.records, flatMap_records hc.trees, List.filter_flatMap, List.map_flatMap]
  simp only [filter_chainRecords]

theorem mem_idsIn {cs : List (ℕ × ℕ)} : i ∈ idsIn o cs ↔ (o, i) ∈ cs := by
  simp [idsIn]

/-- A commit id is in the log when some call took it. -/
theorem Chained.mem_ids (hc : h.Chained chains) :
    i ∈ h.ids o ↔ ∃ t k, IsCall chains t k o i := by
  rw [hc.ids_eq, List.mem_flatMap]
  constructor
  · rintro ⟨cs, hcs, hi⟩
    obtain ⟨t, ht⟩ := List.mem_iff_getElem?.mp hcs
    obtain ⟨k, hk⟩ := List.mem_iff_getElem?.mp (mem_idsIn.mp hi)
    exact ⟨t, k, isCall_of_getElem? ht hk⟩
  · rintro ⟨t, k, hcall⟩
    obtain ⟨cs, ht, hk⟩ := hcall.mem_chains
    exact ⟨cs, List.mem_of_getElem? ht, mem_idsIn.mpr (List.mem_of_getElem? hk)⟩

/-- The records of the logs in terms of calls. -/
theorem Chained.mem_records (hc : h.Chained chains) {r : LogRecord} :
    r ∈ h.records ↔ ∃ t k, IsCall chains t k r.obj r.id ∧
      r.record = recordOf (.outer (chainCode (chainAt chains t))) (chainAt chains t) k := by
  rw [History.records, flatMap_records hc.trees, List.mem_flatMap]
  constructor
  · rintro ⟨cs, hcs, hr⟩
    obtain ⟨t, ht⟩ := List.mem_iff_getElem?.mp hcs
    obtain rfl : chainAt chains t = cs := by
      rw [chainAt, List.getD_eq_getElem?_getD, ht, Option.getD_some]
    obtain ⟨k, hk, hrecord⟩ := mem_chainRecords.mp hr
    exact ⟨t, k, hk, hrecord⟩
  · rintro ⟨t, k, hcall, hrecord⟩
    obtain ⟨cs, ht, -⟩ := hcall.mem_chains
    obtain rfl : chainAt chains t = cs := by
      rw [chainAt, List.getD_eq_getElem?_getD, ht, Option.getD_some]
    exact ⟨_, List.mem_of_getElem? ht, mem_chainRecords.mpr ⟨k, hcall, hrecord⟩⟩

/-- A chain calls an object once, so the object tells the position. -/
theorem Chained.same (hc : h.Chained chains) {k' i' : ℕ} (h₁ : IsCall chains t k o i)
    (h₂ : IsCall chains t k' o i') : k = k' := by
  obtain ⟨cs, ht, hk⟩ := h₁.mem_chains
  have hk' : cs[k']? = some (o, i') := by
    rw [IsCall, chainAt, List.getD_eq_getElem?_getD, ht] at h₂
    exact h₂
  -- the objects of a chain are distinct, so `o` has one position among them
  have hlt : k < (cs.map Prod.fst).length := by
    rw [List.length_map]
    exact (List.getElem?_eq_some_iff.mp hk).1
  refine (List.getElem?_inj hlt (hc.distinct cs (List.mem_of_getElem? ht))).mp ?_
  rw [List.getElem?_map, List.getElem?_map, hk, hk']
  rfl

/-- The commit ids of an object grow with the transactions. -/
theorem Chained.mono (hc : h.Chained chains) (hserial : h.Serial) {t' k' i' : ℕ}
    (h₁ : IsCall chains t k o i) (h₂ : IsCall chains t' k' o i') (hlt : t < t') : i < i' := by
  have hsorted : (chains.flatMap (idsIn o)).Pairwise (· < ·) := by
    rw [← hc.ids_eq, hserial o]
    exact List.pairwise_lt_range'
  obtain ⟨cs, ht, hk⟩ := h₁.mem_chains
  obtain ⟨cs', ht', hk'⟩ := h₂.mem_chains
  obtain ⟨htlt, hget⟩ := List.getElem?_eq_some_iff.mp ht
  obtain ⟨htlt', hget'⟩ := List.getElem?_eq_some_iff.mp ht'
  have hpair := List.pairwise_iff_getElem.mp (List.pairwise_flatMap.mp hsorted).2 t t' htlt htlt' hlt
  rw [hget, hget'] at hpair
  exact hpair i (mem_idsIn.mpr (List.mem_of_getElem? hk)) i'
    (mem_idsIn.mpr (List.mem_of_getElem? hk'))

theorem Chained.unique (hc : h.Chained chains) (hserial : h.Serial) {t' k' : ℕ}
    (h₁ : IsCall chains t k o i) (h₂ : IsCall chains t' k' o i) : t = t' ∧ k = k' := by
  rcases Nat.lt_trichotomy t t' with hlt | rfl | hlt
  · exact absurd (hc.mono hserial h₁ h₂ hlt) (lt_irrefl i)
  · exact ⟨rfl, hc.same h₁ h₂⟩
  · exact absurd (hc.mono hserial h₂ h₁ hlt) (lt_irrefl i)

/-- A record that is found is in the log. -/
theorem record_eq_some {record : Record} (hrecord : h.record o i = some record) :
    (⟨o, i, record⟩ : LogRecord) ∈ h.records := by
  obtain ⟨r, hfind, rfl⟩ := Option.map_eq_some_iff.mp hrecord
  obtain ⟨rfl, rfl⟩ : r.obj = o ∧ r.id = i := by simpa using List.find?_some hfind
  exact List.mem_of_find?_eq_some hfind

/-- The record of a call is the one that its transaction has logged. -/
theorem Chained.record_eq (hc : h.Chained chains) (hserial : h.Serial)
    (hcall : IsCall chains t k o i) :
    h.record o i =
      some (recordOf (.outer (chainCode (chainAt chains t))) (chainAt chains t) k) := by
  have hmem : (⟨o, i, recordOf (.outer (chainCode (chainAt chains t))) (chainAt chains t) k⟩ :
      LogRecord) ∈ h.records := hc.mem_records.mpr ⟨t, k, hcall, rfl⟩
  have hsome : (h.record o i).isSome = true := by
    rw [History.record, Option.isSome_map, List.find?_isSome]
    exact ⟨_, hmem, by simp⟩
  obtain ⟨record, hrecord⟩ := Option.isSome_iff_exists.mp hsome
  -- the record that is found is that of some call, and the id tells which one
  obtain ⟨t', k', hcall', heq⟩ := hc.mem_records.mp (record_eq_some hrecord)
  obtain ⟨rfl, rfl⟩ := hc.unique hserial hcall hcall'
  rw [hrecord, ← heq]

/-- **A history of committed chains has what recovery needs**: the record of each call names its
parent, and commit ids follow the transactions. -/
theorem Chained.serialized (hc : h.Chained chains) (hcommitted : h.Committed)
    (hserial : h.Serial) : Serialized h chains where
  outer hcall := hc.record_eq hserial hcall
  nested hcall hparent := by
    rw [hc.record_eq hserial hcall, recordOf, if_neg (Nat.succ_ne_zero _), Nat.add_sub_cancel]
    rw [IsCall] at hparent
    rw [hparent]
    rfl
  call hsome := by
    obtain ⟨record, hrecord⟩ := Option.isSome_iff_exists.mp hsome
    obtain ⟨t, k, hcall, -⟩ := hc.mem_records.mp (record_eq_some hrecord)
    exact ⟨t, k, hcall⟩
  same := hc.same
  mono := hc.mono hserial
  ids hcall := by
    have hmem := hc.mem_ids.mpr ⟨_, _, hcall⟩
    rw [hserial, List.mem_range'_1] at hmem
    omega
  exists_call hpos hle := by
    refine hc.mem_ids.mp ?_
    rw [hserial, List.mem_range'_1]
    omega
  mem hcall := hcommitted.1 _ (record_eq_some (hc.record_eq hserial hcall))

end History

end

end Pronto
