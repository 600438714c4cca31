import Pronto.Lib.Memory

/-!
# Programs of stores and persists

Stores to persistent memory go to the processor's caches first. `PMem` has the bytes that a program
sees and the bytes that are durable; `persist` makes a range durable, and a cache line may be written
back at any time (`evict`). `Executes ops m m'` says that the instructions `ops` lead from `m` to `m'`,
with write-backs anywhere between them.

The rules say what is durable in the middle of a program: bytes that no instruction stores to
(`Executes.durable_of_untouched`), bytes that were persisted after the last store to them
(`Executes.durable_of_persist`), and words of which only one store may have reached the memory
(`Executes.word`). At the end of a program that persists all its stores everything is durable
(`Executes.durable_eq_view`).
-/

namespace Persist

open Memory

/-- Persistent memory behind a cache. -/
structure PMem where
  view : Mem
  durable : Mem

/-- An instruction. -/
inductive Op
  | store (a : ℕ) (bs : List UInt8)
  | persist (a n : ℕ)
deriving DecidableEq, Repr

/-- The instruction stores to the address. -/
def Op.Touches (x : ℕ) : Op → Prop
  | .store a bs => a ≤ x ∧ x < a + bs.length
  | .persist _ _ => False

/-- The effect of an instruction on the bytes that the program sees. -/
def Op.view (m : Mem) : Op → Mem
  | .store a bs => Memory.store m a bs
  | .persist _ _ => m

/-- Run a program without looking at what is durable. -/
def runOps (m : Mem) (ops : List Op) : Mem := ops.foldl Op.view m

/-- Execute an instruction. -/
def Op.apply (m : PMem) : Op → PMem
  | .store a bs => ⟨Memory.store m.view a bs, m.durable⟩
  | .persist a n => ⟨m.view, mergeOn (fun x => a ≤ x ∧ x < a + n) m.view m.durable⟩

/-- Write a cache line back. -/
def PMem.evict (m : PMem) (line : ℕ) : PMem :=
  ⟨m.view, mergeOn (fun x => x / 64 = line) m.view m.durable⟩

/-- The memory after a power failure. -/
def PMem.crash (m : PMem) : PMem := ⟨m.durable, m.durable⟩

/-- The instructions lead from `m` to `m'`. -/
inductive Executes (m : PMem) : List Op → PMem → Prop
  | refl : Executes m [] m
  | op {ops : List Op} {m' : PMem} (o : Op) : Executes m ops m' → Executes m (ops ++ [o]) (o.apply m')
  | evict {ops : List Op} {m' : PMem} (line : ℕ) : Executes m ops m' → Executes m ops (m'.evict line)

/-- The bytes of a string, stored one by one. -/
def byteStores : ℕ → List UInt8 → List Op
  | _, [] => []
  | a, b :: bs => .store a [b] :: byteStores (a + 1) bs

variable {m m' : PMem} {ops pre post : List Op} {o : Op} {x a n : ℕ} {bs : List UInt8}

/-! ## Programs as functions -/

@[simp] theorem runOps_append (m : Mem) (ops post : List Op) :
    runOps m (ops ++ post) = runOps (runOps m ops) post := List.foldl_append

@[simp] theorem runOps_cons (m : Mem) (o : Op) (ops : List Op) :
    runOps m (o :: ops) = runOps (o.view m) ops := rfl

@[simp] theorem runOps_nil (m : Mem) : runOps m [] = m := rfl

theorem runOps_byteStores (m : Mem) (a : ℕ) (bs : List UInt8) :
    runOps m (byteStores a bs) = Memory.store m a bs := by
  induction bs generalizing m a with
  | nil => simp [byteStores]
  | cons b bs ih =>
    rw [byteStores, runOps_cons, ih, ← List.singleton_append (l := bs), store_append]
    rfl

/-- Byte-wise stores stay in their range. -/
theorem not_touches_byteStores (h : x < a ∨ a + bs.length ≤ x) :
    ∀ o ∈ byteStores a bs, ¬ o.Touches x := by
  induction bs generalizing a with
  | nil => exact fun o ho => nomatch ho
  | cons b bs ih =>
    rw [List.length_cons] at h
    intro o ho
    rcases List.mem_cons.mp ho with rfl | ho
    · rintro ⟨hlo, hhi⟩
      rw [List.length_singleton] at hhi
      omega
    · exact ih (by omega) o ho

theorem view_of_not_touches {m : Mem} (h : ¬ o.Touches x) : o.view m x = m x := by
  cases o with
  | store a bs =>
    refine store_of_outside ?_
    simp only [Op.Touches] at h
    omega
  | persist a n => rfl

theorem runOps_of_not_touches {m : Mem} (h : ∀ o ∈ ops, ¬ o.Touches x) : runOps m ops x = m x := by
  induction ops generalizing m with
  | nil => rfl
  | cons o ops ih =>
    rw [runOps_cons, ih fun o' ho' => h o' (by simp [ho']), view_of_not_touches (h o (by simp))]

/-! ## Executions -/

theorem apply_view (m : PMem) (o : Op) : (o.apply m).view = o.view m.view := by
  cases o <;> rfl

theorem Executes.view_eq (h : Executes m ops m') : m'.view = runOps m.view ops := by
  induction h with
  | refl => rfl
  | op o _ ih => rw [apply_view, ih, runOps_append]; rfl
  | evict line _ ih => exact ih

theorem Executes.cons (h : Executes (o.apply m) ops m') : Executes m (o :: ops) m' := by
  induction h with
  | refl => exact .op o .refl
  | op o' _ ih => exact .op o' ih
  | evict line _ ih => exact .evict line ih

/-- An execution up to an instruction and behind it. -/
theorem Executes.split (h : Executes m (pre ++ o :: post) m') :
    ∃ m₁, Executes m pre m₁ ∧ Executes (o.apply m₁) post m' := by
  generalize hops : pre ++ o :: post = ops at h
  induction h generalizing post with
  | refl => simp at hops
  | @op ops m' o' h ih =>
    rcases List.eq_nil_or_concat post with rfl | ⟨post, o'', rfl⟩
    · obtain ⟨rfl, ho⟩ := List.append_inj' hops rfl
      obtain rfl : o = o' := by simpa using ho
      exact ⟨m', h, .refl⟩
    · rw [List.concat_eq_append, ← List.cons_append, ← List.append_assoc] at hops
      obtain ⟨hrest, ho⟩ := List.append_inj' hops rfl
      obtain rfl : o'' = o' := by simpa using ho
      obtain ⟨m₁, hpre, hpost⟩ := ih hrest
      exact ⟨m₁, hpre, by rw [List.concat_eq_append]; exact hpost.op o''⟩
  | evict line _ ih =>
    obtain ⟨m₁, hpre, hpost⟩ := ih hops
    exact ⟨m₁, hpre, hpost.evict line⟩

theorem evict_durable (m : PMem) (line x : ℕ) :
    (m.evict line).durable x = m.view x ∨ (m.evict line).durable x = m.durable x := by
  simp only [PMem.evict, mergeOn]
  split
  · exact .inl rfl
  · exact .inr rfl

/-- A byte that no instruction stores to stays durable. -/
theorem Executes.durable_of_untouched (h : Executes m ops m') (hx : ∀ o ∈ ops, ¬ o.Touches x)
    (heq : m.durable x = m.view x) : m'.durable x = m.view x := by
  induction h with
  | refl => exact heq
  | @op ops m' o h ih =>
    have hview : m'.view x = m.view x := by
      rw [h.view_eq]
      exact runOps_of_not_touches fun o' ho' => hx o' (by simp [ho'])
    have hdur := ih fun o' ho' => hx o' (by simp [ho'])
    cases o with
    | store a bs => exact hdur
    | persist a n =>
      simp only [Op.apply, mergeOn]
      split
      · exact hview
      · exact hdur
  | @evict ops m' line h ih =>
    have hview : m'.view x = m.view x := by
      rw [h.view_eq]
      exact runOps_of_not_touches hx
    rcases evict_durable m' line x with heq' | heq'
    · rw [heq', hview]
    · rw [heq', ih hx]

/-- A byte is durable once it has been persisted after the last store to it. -/
theorem Executes.durable_of_persist (h : Executes m (pre ++ .persist a n :: post) m')
    (hlo : a ≤ x) (hhi : x < a + n) (hpost : ∀ o ∈ post, ¬ o.Touches x) :
    m'.durable x = m'.view x := by
  obtain ⟨m₁, -, hrest⟩ := h.split
  have hclean : ((Op.persist a n).apply m₁).durable x = ((Op.persist a n).apply m₁).view x :=
    if_pos ⟨hlo, hhi⟩
  rw [hrest.durable_of_untouched hpost hclean, hrest.view_eq, runOps_of_not_touches hpost]

/-! ## Programs that persist all their stores -/

/-- A persist of the program covers the address. -/
def Covered (x : ℕ) (ops : List Op) : Prop := ∃ a n, .persist a n ∈ ops ∧ a ≤ x ∧ x < a + n

/-- All that is stored is persisted later. -/
def Flushes : List Op → Prop
  | [] => True
  | o :: ops => (∀ x, o.Touches x → Covered x ops) ∧ Flushes ops

theorem Flushes.append (h : Flushes ops) (hpost : Flushes post) : Flushes (ops ++ post) := by
  induction ops with
  | nil => exact hpost
  | cons o ops ih =>
    refine ⟨fun x hx => ?_, ih h.2⟩
    obtain ⟨a, n, hmem, hx⟩ := h.1 x hx
    exact ⟨a, n, List.mem_append_left _ hmem, hx⟩

/-- Stores to a range, followed by a persist of the range. -/
theorem flushes_block (h : ∀ o ∈ ops, ∀ x, o.Touches x → a ≤ x ∧ x < a + n) :
    Flushes (ops ++ [.persist a n]) := by
  induction ops with
  | nil => exact ⟨fun x hx => hx.elim, trivial⟩
  | cons o ops ih =>
    exact ⟨fun x hx => ⟨a, n, by simp, h o (by simp) x hx⟩, ih fun o' ho' => h o' (by simp [ho'])⟩

/-- **A sequence that flushes what it stores leaves no dirty byte** among those that were clean
before or are stored by it. -/
theorem Executes.clean_of_flushes (h : Executes m ops m') (hops : Flushes ops)
    (hx : m.durable x = m.view x ∨ Covered x ops) : m'.durable x = m'.view x := by
  induction ops generalizing m with
  | nil =>
    have hclean : m.durable x = m.view x := hx.resolve_right fun ⟨_, _, hmem, _⟩ => nomatch hmem
    rw [h.durable_of_untouched (fun o ho => nomatch ho) hclean, h.view_eq, runOps_nil]
  | cons o ops ih =>
    rw [← List.nil_append (o :: ops)] at h
    obtain ⟨m₁, h₁, hrest⟩ := h.split
    have hclean : m.durable x = m.view x → m₁.durable x = m₁.view x := fun hclean => by
      rw [h₁.durable_of_untouched (fun o ho => nomatch ho) hclean, h₁.view_eq, runOps_nil]
    refine ih hrest hops.2 ?_
    cases o with
    | store a bs =>
      by_cases htouch : (Op.store a bs).Touches x
      · exact .inr (hops.1 x htouch)
      · rcases hx with hx | ⟨a', n, hmem, hx⟩
        · refine .inl ((hclean hx).trans (view_of_not_touches htouch).symm)
        · exact .inr ⟨a', n, by simpa using hmem, hx⟩
    | persist a n =>
      by_cases hcover : a ≤ x ∧ x < a + n
      · exact .inl (if_pos hcover)
      · rcases hx with hx | ⟨a', n', hmem, hx⟩
        · exact .inl ((if_neg hcover).trans (hclean hx))
        · rcases List.mem_cons.mp hmem with heq | hmem
          · cases heq
            exact absurd hx hcover
          · exact .inr ⟨a', n', hmem, hx⟩

/-- At the end of a program that persists all its stores everything is durable. -/
theorem Executes.durable_eq_view (h : Executes m ops m') (hops : Flushes ops)
    (hclean : m.durable = m.view) : m'.durable = m'.view :=
  funext fun x => h.clean_of_flushes hops (.inl (congrFun hclean x))

/-! ## Words -/

/-- The instruction does not store to the word at `a`, and persists all of it or nothing. -/
def Op.Spares (a : ℕ) : Op → Prop
  | .store b bs => b + bs.length ≤ a ∨ a + 8 ≤ b
  | .persist b n => b + n ≤ a ∨ a + 8 ≤ b ∨ (b ≤ a ∧ a + 8 ≤ b + n)

theorem Op.Spares.not_touches (h : o.Spares a) (hlo : a ≤ x) (hhi : x < a + 8) : ¬ o.Touches x := by
  cases o with
  | store b bs =>
    rintro ⟨h1, h2⟩
    simp only [Op.Spares] at h
    omega
  | persist b n => exact id

/-- Stores behind the word spare it. -/
theorem spares_byteStores {b : ℕ} (h : a + 8 ≤ b) : ∀ o ∈ byteStores b bs, o.Spares a := by
  induction bs generalizing b with
  | nil => exact fun o ho => nomatch ho
  | cons c bs ih =>
    intro o ho
    rcases List.mem_cons.mp ho with rfl | ho
    · exact .inr h
    · exact ih (by omega) o ho

theorem load_view_of_spares (h : Executes m ops m') (hops : ∀ o ∈ ops, o.Spares a) :
    load m'.view a 8 = load m.view a 8 := by
  rw [h.view_eq]
  exact load_congr fun x hlo hhi =>
    runOps_of_not_touches fun o ho => (hops o ho).not_touches hlo hhi

/-- Persisting a range copies all of a word or nothing. -/
theorem load_apply_durable (h : o.Spares a) :
    load (o.apply m).durable a 8 = load m.view a 8 ∨
      load (o.apply m).durable a 8 = load m.durable a 8 := by
  cases o with
  | store b bs => exact .inr rfl
  | persist b n =>
    rcases h with h | h | h
    · exact .inr (load_congr fun x _ _ => if_neg (by omega))
    · exact .inr (load_congr fun x _ _ => if_neg (by omega))
    · exact .inl (load_congr fun x _ _ => if_pos (by omega))

/-- A cache line holds all of a word or nothing. -/
theorem load_evict_durable (ha : a % 8 = 0) (line : ℕ) :
    load (m.evict line).durable a 8 = load m.view a 8 ∨
      load (m.evict line).durable a 8 = load m.durable a 8 := by
  by_cases hline : a / 64 = line
  · exact .inl (load_congr fun x _ _ => if_pos (by omega))
  · exact .inr (load_congr fun x _ _ => if_neg (by omega))

theorem load_view_apply (h : o.Spares a) : load (o.apply m).view a 8 = load m.view a 8 := by
  rw [apply_view]
  exact load_congr fun x hlo hhi => view_of_not_touches (h.not_touches hlo hhi)

/-- A durable word stays durable when it is not stored to. -/
theorem load_apply_clean (h : o.Spares a) (hclean : load m.durable a 8 = load m.view a 8) :
    load (o.apply m).durable a 8 = load (o.apply m).view a 8 := by
  rw [load_view_apply h]
  rcases load_apply_durable (m := m) h with heq | heq
  · exact heq
  · exact heq.trans hclean

theorem load_evict_clean (ha : a % 8 = 0) (line : ℕ) (hclean : load m.durable a 8 = load m.view a 8) :
    load (m.evict line).durable a 8 = load (m.evict line).view a 8 := by
  rcases load_evict_durable (m := m) ha line with heq | heq
  · exact heq
  · exact heq.trans hclean

/-- A word that no instruction stores to is durable as it is seen, or as it was durable before. -/
theorem Executes.word (h : Executes m ops m') (ha : a % 8 = 0) (hops : ∀ o ∈ ops, o.Spares a) :
    load m'.durable a 8 = load m.view a 8 ∨ load m'.durable a 8 = load m.durable a 8 := by
  induction h with
  | refl => exact .inr rfl
  | @op ops m' o h ih =>
    have hrest : ∀ o' ∈ ops, o'.Spares a := fun o' ho' => hops o' (by simp [ho'])
    rcases load_apply_durable (m := m') (hops o (by simp)) with heq | heq
    · exact .inl (heq.trans (load_view_of_spares h hrest))
    · rw [heq]
      exact ih hrest
  | @evict ops m' line h ih =>
    rcases load_evict_durable (m := m') ha line with heq | heq
    · exact .inl (heq.trans (load_view_of_spares h hops))
    · rw [heq]
      exact ih hops

/-- The instruction keeps the word at `a`, or stores a value with the property there. -/
def Op.Respects (a : ℕ) (P : ℕ → Prop) (o : Op) : Prop :=
  o.Spares a ∨ ∃ v, o = .store a (bytesLE v 8) ∧ P v ∧ v < 2 ^ 64

/-- A property of a word, in both views. -/
def WordHolds (m : PMem) (a : ℕ) (P : ℕ → Prop) : Prop :=
  P (load m.view a 8) ∧ P (load m.durable a 8)

section Respects

variable {P Q : ℕ → Prop}

theorem Op.Respects.mono (h : o.Respects a P) (hPQ : ∀ v, P v → Q v) : o.Respects a Q := by
  rcases h with h | ⟨v, rfl, hv, hlt⟩
  · exact .inl h
  · exact .inr ⟨v, rfl, hPQ v hv, hlt⟩

theorem WordHolds.apply (hm : WordHolds m a P) (h : o.Respects a P) : WordHolds (o.apply m) a P := by
  rcases h with h | ⟨v, rfl, hv, hlt⟩
  · refine ⟨(load_view_apply (m := m) h).symm ▸ hm.1, ?_⟩
    rcases load_apply_durable (m := m) h with heq | heq
    · exact heq.symm ▸ hm.1
    · exact heq.symm ▸ hm.2
  · have hview : load (Memory.store m.view a (bytesLE v 8)) a 8 = v := load_store_word (by omega)
    exact ⟨hview.symm ▸ hv, hm.2⟩

theorem WordHolds.evict (hm : WordHolds m a P) (ha : a % 8 = 0) (line : ℕ) :
    WordHolds (m.evict line) a P := by
  refine ⟨hm.1, ?_⟩
  rcases load_evict_durable (m := m) ha line with heq | heq
  · exact heq.symm ▸ hm.1
  · exact heq.symm ▸ hm.2

/-- All values that are stored to a word have a property: so has the word, durable or not. -/
theorem Executes.wordHolds (h : Executes m ops m') (ha : a % 8 = 0) (hm : WordHolds m a P)
    (hops : ∀ o ∈ ops, o.Respects a P) : WordHolds m' a P := by
  induction h with
  | refl => exact hm
  | op o _ ih => exact (ih fun o' ho' => hops o' (by simp [ho'])).apply (hops o (by simp))
  | evict line _ ih => exact (ih hops).evict ha line

end Respects

/-- After one store to a word its old or its new value is durable. -/
theorem Executes.word_of_store {v : ℕ} (h : Executes m (pre ++ .store a (bytesLE v 8) :: post) m')
    (ha : a % 8 = 0) (hpre : ∀ o ∈ pre, o.Spares a) (hpost : ∀ o ∈ post, o.Spares a)
    (hclean : load m.durable a 8 = load m.view a 8) (hv : v < 2 ^ 64) :
    load m'.durable a 8 = v ∨ load m'.durable a 8 = load m.view a 8 := by
  obtain ⟨m₁, h₁, hrest⟩ := h.split
  have hold : load m₁.durable a 8 = load m.view a 8 := by
    rcases h₁.word ha hpre with heq | heq
    · exact heq
    · exact heq.trans hclean
  rcases hrest.word ha hpost with heq | heq
  · exact .inl (heq.trans (load_store_word (by omega)))
  · exact .inr (heq.trans hold)

end Persist
