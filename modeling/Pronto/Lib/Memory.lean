import Mathlib.Data.List.GetD
import Mathlib.Tactic.Ring
import Mathlib.Tactic.IntervalCases

/-!
# Byte memory with little-endian words

A memory is a total map from addresses to bytes. `store` writes a run of bytes, `load` reads a
little-endian word, `bytesLE` is the byte string of a word. The rules a client uses are the two
read-over-write lemmas `load_store_self` and `load_store_of_disjoint`, and `load_congr`, which says
that a load depends only on the bytes it covers. `strlenWithin` is the length of a C string of which
only so many bytes are mapped.

The last section is the write-back view used for persistent memory: `mergeOn` replaces the bytes of
one image by those of another on a set of addresses.
-/

namespace Memory

/-- A byte-addressed memory. -/
abbrev Mem := ℕ → UInt8

/-- The little-endian word of `n` bytes at address `a`. -/
def load (m : Mem) (a : ℕ) : ℕ → ℕ
  | 0 => 0
  | n + 1 => (m a).toNat + 256 * load m (a + 1) n

/-- The `n` low bytes of `v`, least significant first. -/
def bytesLE (v : ℕ) : ℕ → List UInt8
  | 0 => []
  | n + 1 => UInt8.ofNat (v % 256) :: bytesLE (v / 256) n

/-- Write the bytes `bs` from address `a` on. -/
def store (m : Mem) (a : ℕ) (bs : List UInt8) : Mem :=
  fun x => if a ≤ x then (bs[x - a]?).getD (m x) else m x

/-- Read `n` bytes from address `a` on. -/
def bytes (m : Mem) (a n : ℕ) : List UInt8 :=
  (List.range n).map fun i => m (a + i)

/-- The view of a memory from address `a` on. -/
def suffix (m : Mem) (a : ℕ) : Mem := fun i => m (a + i)

/-! ## Reads over writes -/

@[simp] theorem length_bytesLE (v n : ℕ) : (bytesLE v n).length = n := by
  induction n generalizing v with
  | zero => rfl
  | succ n ih => simp [bytesLE, ih]

@[simp] theorem length_bytes (m : Mem) (a n : ℕ) : (bytes m a n).length = n := by
  simp [bytes]

theorem getElem_bytes (m : Mem) (a n i : ℕ) (h : i < (bytes m a n).length) :
    (bytes m a n)[i] = m (a + i) := by
  simp [bytes]

theorem store_of_lt {m : Mem} {a x : ℕ} {bs : List UInt8} (h : x < a) : store m a bs x = m x := by
  simp [store, Nat.not_le.mpr h]

theorem store_of_ge {m : Mem} {a x : ℕ} {bs : List UInt8} (h : a + bs.length ≤ x) :
    store m a bs x = m x := by
  have hle : bs.length ≤ x - a := by omega
  simp [store, List.getElem?_eq_none hle]

/-- Outside the written range the memory is unchanged. -/
theorem store_of_outside {m : Mem} {a x : ℕ} {bs : List UInt8}
    (h : x < a ∨ a + bs.length ≤ x) : store m a bs x = m x :=
  h.elim store_of_lt store_of_ge

theorem store_add {m : Mem} {a i : ℕ} {bs : List UInt8} (h : i < bs.length) :
    store m a bs (a + i) = bs[i] := by
  simp [store, h]

@[simp] theorem store_nil (m : Mem) (a : ℕ) : store m a [] = m := by
  funext x
  simp [store]

/-- Writing `bs ++ cs` is writing `bs` and then `cs` right behind it. -/
theorem store_append (m : Mem) (a : ℕ) (bs cs : List UInt8) :
    store m a (bs ++ cs) = store (store m a bs) (a + bs.length) cs := by
  funext x
  by_cases hlo : x < a
  · rw [store_of_lt hlo, store_of_lt (by omega), store_of_lt hlo]
  by_cases hmid : x < a + bs.length
  · obtain ⟨i, rfl⟩ : ∃ i, x = a + i := ⟨x - a, by omega⟩
    have hi : i < bs.length := by omega
    rw [store_of_lt hmid, store_add hi, store_add (by simp; omega), List.getElem_append_left hi]
  by_cases hhi : x < a + bs.length + cs.length
  · obtain ⟨i, rfl⟩ : ∃ i, x = a + bs.length + i := ⟨x - (a + bs.length), by omega⟩
    have hi : i < cs.length := by omega
    rw [store_add hi, Nat.add_assoc, store_add (by simp; omega),
      List.getElem_append_right (by omega)]
    simp
  · rw [store_of_ge (by simp; omega), store_of_ge (by omega), store_of_ge (by omega)]

/-- A load reads only the bytes it covers. -/
theorem load_congr {m m' : Mem} {a n : ℕ} (h : ∀ x, a ≤ x → x < a + n → m x = m' x) :
    load m a n = load m' a n := by
  induction n generalizing a with
  | zero => rfl
  | succ n ih =>
    rw [load, load, h a (by omega) (by omega), ih fun x h1 h2 => h x (by omega) (by omega)]

theorem load_store_of_disjoint {m : Mem} {a b n : ℕ} {bs : List UInt8}
    (h : a + n ≤ b ∨ b + bs.length ≤ a) : load (store m b bs) a n = load m a n :=
  load_congr fun _ h1 h2 => store_of_outside (by omega)

/-- A number is read back modulo its width. -/
theorem load_store_self (m : Mem) (a v n : ℕ) :
    load (store m a (bytesLE v n)) a n = v % 256 ^ n := by
  induction n generalizing m a v with
  | zero => simp [load, Nat.mod_one]
  | succ n ih =>
    have hcons : bytesLE v (n + 1) = [UInt8.ofNat (v % 256)] ++ bytesLE (v / 256) n := rfl
    have hhead : store m a (bytesLE v (n + 1)) a = UInt8.ofNat (v % 256) := by
      have : store m a (bytesLE v (n + 1)) (a + 0) = (bytesLE v (n + 1))[0] := store_add (by simp)
      simpa [bytesLE] using this
    rw [load, hhead, hcons, store_append]
    simp only [List.length_singleton, ih, UInt8.toNat_ofNat']
    rw [Nat.mod_eq_of_lt (Nat.mod_lt v (by decide)), pow_succ, Nat.mul_comm (256 ^ n) 256,
      Nat.mod_mul]

/-- The word whose bytes are known. -/
theorem load_of_bytes {m : Mem} {a v n : ℕ} (h : ∀ i < n, m (a + i) = UInt8.ofNat (v / 256 ^ i)) :
    load m a n = v % 256 ^ n := by
  induction n generalizing a v with
  | zero => simp [load, Nat.mod_one]
  | succ n ih =>
    have hhead : m a = UInt8.ofNat v := by simpa using h 0 (by omega)
    have htail : ∀ i < n, m (a + 1 + i) = UInt8.ofNat (v / 256 / 256 ^ i) := by
      intro i hi
      have := h (i + 1) (by omega)
      rwa [pow_succ', ← Nat.div_div_eq_div_mul, ← Nat.add_assoc, Nat.add_right_comm] at this
    have hpow : 256 ^ (n + 1) = 256 * 256 ^ n := pow_succ' 256 n
    rw [load, hhead, ih htail, UInt8.toNat_ofNat', hpow, Nat.mod_mul]

/-- A stored word that fits its width is read back unchanged. -/
theorem load_store_word {m : Mem} {a v n : ℕ} (h : v < 256 ^ n) :
    load (store m a (bytesLE v n)) a n = v := by
  rw [load_store_self, Nat.mod_eq_of_lt h]

/-- Reading a word of a written byte string gives the word the string starts with. -/
theorem load_store_append {m : Mem} {a v n : ℕ} {bs : List UInt8} (h : v < 256 ^ n) :
    load (store m a (bytesLE v n ++ bs)) a n = v := by
  rw [store_append, load_store_of_disjoint (by simp), load_store_word h]

theorem bytes_congr {m m' : Mem} {a n : ℕ} (h : ∀ x, a ≤ x → x < a + n → m x = m' x) :
    bytes m a n = bytes m' a n := by
  refine List.ext_getElem (by simp) fun i h1 h2 => ?_
  rw [getElem_bytes, getElem_bytes]
  exact h _ (by omega) (by simp at h1; omega)

theorem bytes_store_self (m : Mem) (a : ℕ) (bs : List UInt8) :
    bytes (store m a bs) a bs.length = bs := by
  refine List.ext_getElem (by simp) fun i h1 h2 => ?_
  rw [getElem_bytes, store_add h2]

/-- Bytes that are those of a word are read as the word. -/
theorem load_eq_of_bytes {m : Mem} {a v n : ℕ} (h : bytes m a n = bytesLE v n) :
    load m a n = v % 256 ^ n := by
  rw [← load_store_self m a v n]
  refine load_congr fun x h1 h2 => ?_
  obtain ⟨i, rfl⟩ := Nat.exists_eq_add_of_le h1
  have hi : i < (bytesLE v n).length := by simpa using h2
  have hbyte := getElem_bytes m a n i (by simpa using h2)
  simp only [h] at hbyte
  rw [store_add hi, hbyte]

/-! ## C strings -/

/-- `strlen` of the string at `a`, of which `n` bytes are mapped; `none` when it reads behind them. -/
def strlenWithin (m : Mem) (a : ℕ) : ℕ → Option ℕ
  | 0 => none
  | n + 1 => if m a = 0 then some 0 else (strlenWithin m (a + 1) n).map (· + 1)

/-- A string ends with a zero byte. -/
theorem strlenWithin_some {m : Mem} {a n k : ℕ} (h : strlenWithin m a n = some k) : m (a + k) = 0 := by
  induction n generalizing a k with
  | zero => cases h
  | succ n ih =>
    rw [strlenWithin] at h
    split at h
    · rename_i hzero
      cases h
      exact hzero
    · obtain ⟨k, hk, rfl⟩ := Option.map_eq_some_iff.mp h
      rw [show a + (k + 1) = a + 1 + k by omega]
      exact ih hk

/-- Only the mapped bytes are read. -/
theorem strlenWithin_congr {m m' : Mem} {a n : ℕ} (h : ∀ i < n, m (a + i) = m' (a + i)) :
    strlenWithin m a n = strlenWithin m' a n := by
  induction n generalizing a with
  | zero => rfl
  | succ n ih =>
    have hfirst : m a = m' a := by simpa using h 0 (by omega)
    have hrest : strlenWithin m (a + 1) n = strlenWithin m' (a + 1) n := ih fun i hi => by
      simpa only [Nat.add_right_comm, Nat.add_assoc] using h (i + 1) (by omega)
    rw [strlenWithin, strlenWithin, hfirst, hrest]

/-- A string that ends within the mapped bytes is not changed by mapping more. -/
theorem strlenWithin_mono {m : Mem} {a n n' k : ℕ} (hle : n ≤ n') (h : strlenWithin m a n = some k) :
    strlenWithin m a n' = some k := by
  induction n generalizing a n' k with
  | zero => cases h
  | succ n ih =>
    obtain ⟨n', rfl⟩ : ∃ j, n' = j + 1 := ⟨n' - 1, by omega⟩
    rw [strlenWithin] at h ⊢
    split at h
    · rename_i hzero
      rw [if_pos hzero, h]
    · rename_i hne
      obtain ⟨k, hk, rfl⟩ := Option.map_eq_some_iff.mp h
      rw [if_neg hne, ih (Nat.le_of_succ_le_succ hle) hk]
      rfl

/-- The length of a string without zeros whose terminator is mapped. -/
theorem strlenWithin_eq {m : Mem} {a n : ℕ} {s : List UInt8} (hs : 0 ∉ s) (hn : s.length < n)
    (h : bytes m a (s ++ [0]).length = s ++ [0]) : strlenWithin m a n = some s.length := by
  have hbyte : ∀ i, (hi : i < (s ++ [0]).length) → m (a + i) = (s ++ [0])[i] := by
    intro i hi
    have hb := getElem_bytes m a (s ++ [0]).length i (by rwa [length_bytes])
    simp only [h] at hb
    exact hb.symm
  clear h
  -- by induction on the string; its first byte is not zero, so the search goes on behind it
  induction s generalizing a n with
  | nil =>
    obtain ⟨n, rfl⟩ := Nat.exists_eq_add_of_lt hn
    have h0 := hbyte 0 (by simp)
    simp only [Nat.add_zero, List.nil_append, List.getElem_cons_zero] at h0
    simp [strlenWithin, h0]
  | cons b s ih =>
    obtain ⟨n, rfl⟩ : ∃ f, n = f + 1 := ⟨n - 1, by omega⟩
    have h0 := hbyte 0 (by simp)
    simp only [Nat.add_zero, List.cons_append, List.getElem_cons_zero] at h0
    have hrest : strlenWithin m (a + 1) n = some s.length := by
      refine ih (fun hc => hs (by simp [hc])) (by simpa using hn) fun i hi => ?_
      have := hbyte (i + 1) (by simpa using hi)
      rw [show a + 1 + i = a + (i + 1) by omega, this]
      simp
    rw [strlenWithin, h0, if_neg fun hb => hs (by simp [hb]), hrest]
    rfl

/-! ## Write-back -/

/-- The image that has the bytes of `m` on `p` and those of `d` elsewhere. -/
def mergeOn (p : ℕ → Prop) [DecidablePred p] (m d : Mem) : Mem :=
  fun x => if p x then m x else d x

/-- A word that lies wholly on one side of the selection is read from that side. -/
theorem load_mergeOn {p : ℕ → Prop} [DecidablePred p] {m d : Mem} {a n : ℕ}
    (h : ∀ x, a ≤ x → x < a + n → (p x ↔ p a)) :
    load (mergeOn p m d) a n = if p a then load m a n else load d a n := by
  by_cases hp : p a
  · rw [if_pos hp]
    exact load_congr fun x h1 h2 => if_pos ((h x h1 h2).mpr hp)
  · rw [if_neg hp]
    exact load_congr fun x h1 h2 => if_neg fun hx => hp ((h x h1 h2).mp hx)

end Memory
