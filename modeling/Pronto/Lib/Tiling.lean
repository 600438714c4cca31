import Mathlib.Algebra.Ring.Nat
import Mathlib.Data.List.Nodup

/-!
# Sequences of extents that tile a range

`Tiles start size a xs b` says that the extents `xs`, in this order, fill the range from `a` to `b`:
the first starts at `a`, every next one where its predecessor ends, and the last ends at `b`.
-/

namespace Tiling

variable {α : Type*} {start size : α → ℕ}

/-- The extents `xs` fill the range from `a` to `b`. -/
def Tiles (start size : α → ℕ) : ℕ → List α → ℕ → Prop
  | a, [], b => a = b
  | a, x :: xs, b => start x = a ∧ Tiles start size (a + size x) xs b

/-- Two tilings that meet. -/
theorem tiles_append {a c : ℕ} {xs ys : List α} :
    Tiles start size a (xs ++ ys) c ↔
      ∃ b, Tiles start size a xs b ∧ Tiles start size b ys c := by
  induction xs generalizing a with
  | nil => simp [Tiles]
  | cons x xs ih => simp [Tiles, ih, and_assoc]

theorem Tiles.append {a b c : ℕ} {xs ys : List α} (h : Tiles start size a xs b)
    (h' : Tiles start size b ys c) : Tiles start size a (xs ++ ys) c :=
  tiles_append.mpr ⟨b, h, h'⟩

/-- One piece. -/
theorem Tiles.singleton {a : ℕ} {x : α} (h : start x = a) :
    Tiles start size a [x] (a + size x) := ⟨h, rfl⟩

/-- Extents of at least `k` bytes each. -/
theorem Tiles.length_mul_le {a b k : ℕ} {xs : List α} (h : Tiles start size a xs b)
    (hk : ∀ x ∈ xs, k ≤ size x) : a + k * xs.length ≤ b := by
  induction xs generalizing a with
  | nil => simp [Tiles] at h; simp [h]
  | cons x xs ih =>
    have h1 := ih h.2 fun y hy => hk y (by simp [hy])
    have h2 := hk x (by simp)
    rw [List.length_cons, Nat.mul_succ]
    omega

theorem Tiles.le {a b : ℕ} {xs : List α} (h : Tiles start size a xs b) : a ≤ b := by
  simpa using h.length_mul_le (k := 0) (by simp)

/-- The pieces fill the range. -/
theorem Tiles.sum_size {a b : ℕ} {xs : List α} (h : Tiles start size a xs b) :
    a + (xs.map size).sum = b := by
  induction xs generalizing a with
  | nil => exact h
  | cons x xs ih =>
    have hrest := ih h.2
    rw [List.map_cons, List.sum_cons]
    omega

/-- The end of a tiling is the end of its last piece. -/
theorem Tiles.end_eq {a b : ℕ} {xs : List α} (h : Tiles start size a xs b) :
    b = xs.getLast?.elim a fun x => start x + size x := by
  induction xs generalizing a with
  | nil => exact h.symm
  | cons x xs ih =>
    rw [ih h.2, List.getLast?_cons]
    cases xs.getLast? with
    | none => simp [h.1]
    | some y => simp

theorem Tiles.end_unique {a b c : ℕ} {xs : List α} (h : Tiles start size a xs b)
    (h' : Tiles start size a xs c) : b = c := by
  induction xs generalizing a with
  | nil => exact h.symm.trans h'
  | cons x xs ih => exact ih h.2 h'.2

/-- Every extent lies inside the tiled range. -/
theorem Tiles.mem_bounds {a b : ℕ} {xs : List α} (h : Tiles start size a xs b) {x : α}
    (hx : x ∈ xs) : a ≤ start x ∧ start x + size x ≤ b := by
  obtain ⟨l, r, rfl⟩ := List.append_of_mem hx
  obtain ⟨m, hl, hm, hr⟩ := tiles_append.mp h
  have h1 := hl.le
  have h2 := hr.le
  omega

/-- Around one extent: what comes before ends before it, what comes behind starts behind it. -/
theorem Tiles.around {a b : ℕ} {l r : List α} {x : α} (h : Tiles start size a (l ++ x :: r) b) :
    (∀ y ∈ l, start y + size y ≤ start x) ∧ (∀ y ∈ r, start x + size x ≤ start y) ∧
      a ≤ start x ∧ start x + size x ≤ b := by
  have hx := h.mem_bounds (x := x) (by simp)
  obtain ⟨m, hl, hm, hr⟩ := tiles_append.mp h
  exact ⟨fun y hy => hm ▸ (hl.mem_bounds hy).2, fun y hy => hm ▸ (hr.mem_bounds hy).1, hx⟩

/-- Starts are aligned when the range starts aligned and all sizes are. -/
theorem Tiles.aligned {a b k : ℕ} {xs : List α} (h : Tiles start size a xs b) (ha : a % k = 0)
    (hsize : ∀ x ∈ xs, size x % k = 0) : b % k = 0 ∧ ∀ x ∈ xs, start x % k = 0 := by
  induction xs generalizing a with
  | nil => exact ⟨h ▸ ha, by simp⟩
  | cons x xs ih =>
    have hnext : (a + size x) % k = 0 := by
      rw [Nat.add_mod, ha, hsize x (by simp), Nat.add_zero, Nat.zero_mod]
    obtain ⟨hb, hxs⟩ := ih h.2 hnext fun y hy => hsize y (by simp [hy])
    exact ⟨hb, List.forall_mem_cons.mpr ⟨h.1 ▸ ha, hxs⟩⟩

/-- Extents that start at different places do not overlap. -/
theorem Tiles.disjoint {a b : ℕ} {xs : List α} (h : Tiles start size a xs b) {x y : α}
    (hx : x ∈ xs) (hy : y ∈ xs) (hne : start x ≠ start y) :
    start x + size x ≤ start y ∨ start y + size y ≤ start x := by
  induction xs generalizing a with
  | nil => cases hx
  | cons z xs ih =>
    rcases List.mem_cons.mp hx with rfl | hx' <;> rcases List.mem_cons.mp hy with rfl | hy'
    · exact absurd rfl hne
    · left
      have := (h.2.mem_bounds hy').1
      have := h.1
      omega
    · right
      have := (h.2.mem_bounds hx').1
      have := h.1
      omega
    · exact ih h.2 hx' hy'

/-- Extents that are not empty start at different places. -/
theorem Tiles.nodup_starts {a b : ℕ} {xs : List α} (h : Tiles start size a xs b)
    (hpos : ∀ x ∈ xs, 0 < size x) : (xs.map start).Nodup := by
  induction xs generalizing a with
  | nil => exact List.nodup_nil
  | cons x xs ih =>
    refine List.nodup_cons.mpr ⟨fun hmem => ?_, ih h.2 fun y hy => hpos y (by simp [hy])⟩
    obtain ⟨y, hy, hyx⟩ := List.mem_map.mp hmem
    have h1 := (h.2.mem_bounds hy).1
    have h2 := h.1
    have h3 := hpos x (by simp)
    omega

/-- The extents stand one behind the other. -/
theorem Tiles.pairwise {a b : ℕ} {xs : List α} (h : Tiles start size a xs b) :
    xs.Pairwise fun x y => start x + size x ≤ start y := by
  induction xs generalizing a with
  | nil => exact List.Pairwise.nil
  | cons x xs ih =>
    refine List.pairwise_cons.mpr ⟨fun y hy => ?_, ih h.2⟩
    have h1 := (h.2.mem_bounds hy).1
    have h2 := h.1
    omega

/-- Every place of the range lies in one of the extents. -/
theorem Tiles.exists_mem {a b p : ℕ} {xs : List α} (h : Tiles start size a xs b) (hlo : a ≤ p)
    (hhi : p < b) : ∃ x ∈ xs, start x ≤ p ∧ p < start x + size x := by
  induction xs generalizing a with
  | nil =>
    obtain rfl : a = b := h
    omega
  | cons x xs ih =>
    obtain ⟨rfl, hrest⟩ := h
    by_cases hp : p < start x + size x
    · exact ⟨x, by simp, hlo, hp⟩
    · obtain ⟨y, hy, hbounds⟩ := ih hrest (by omega)
      exact ⟨y, by simp [hy], hbounds⟩

/-- The extent that starts where `x` ends is the one behind `x`. -/
theorem Tiles.next {a b : ℕ} {l r : List α} {x y : α} (h : Tiles start size a (l ++ x :: r) b)
    (hpos : ∀ z ∈ l ++ x :: r, 0 < size z) (hy : y ∈ l ++ x :: r)
    (hstart : start y = start x + size x) : ∃ r', r = y :: r' := by
  obtain ⟨hl, -, -, -⟩ := h.around
  obtain ⟨-, -, rfl, hr⟩ := tiles_append.mp h
  have hx := hpos x (by simp)
  have hyr : y ∈ r := by
    rcases List.mem_append.mp hy with hmem | hmem
    · have := hl y hmem
      omega
    · rcases List.mem_cons.mp hmem with rfl | hmem
      · omega
      · exact hmem
  cases r with
  | nil => cases hyr
  | cons z r =>
    refine ⟨r, ?_⟩
    rcases List.mem_cons.mp hyr with rfl | hmem
    · rfl
    · have h1 := (hr.2.mem_bounds hmem).1
      have h2 := hpos z (by simp)
      omega

/-- A tiling depends only on where the extents start and how long they are. -/
theorem Tiles.congr {β : Type*} {start' size' : β → ℕ} {a b : ℕ} {xs : List α} {ys : List β}
    (h : Tiles start size a xs b)
    (heq : (ys.map fun y => (start' y, size' y)) = xs.map fun x => (start x, size x)) :
    Tiles start' size' a ys b := by
  induction xs generalizing a ys with
  | nil =>
    obtain rfl : ys = [] := by simpa using heq
    exact h
  | cons x xs ih =>
    cases ys with
    | nil => simp at heq
    | cons y ys =>
      simp only [List.map_cons, List.cons.injEq, Prod.mk.injEq] at heq
      refine ⟨heq.1.1.trans h.1, ?_⟩
      rw [heq.1.2]
      exact ih h.2 heq.2

/-- Changing the extents without moving or resizing them keeps the tiling. -/
theorem Tiles.map {β : Type*} {start' size' : β → ℕ} {f : α → β} {a b : ℕ} {xs : List α}
    (h : Tiles start size a xs b) (hf : ∀ x ∈ xs, start' (f x) = start x ∧ size' (f x) = size x) :
    Tiles start' size' a (xs.map f) b :=
  h.congr (by
    rw [List.map_map]
    exact List.map_congr_left fun x hx => by simp [hf x hx])

/-- The extents of a tiling that start below one of its boundaries are those in front of it. -/
theorem Tiles.filter_lt {a b m : ℕ} {xs : List α} {n : ℕ} (h : Tiles start size a xs b)
    (hm : Tiles start size a (xs.take n) m) (hpos : ∀ x ∈ xs, 0 < size x) :
    (xs.filter fun x => start x < m) = xs.take n := by
  obtain ⟨m', h1, h2⟩ := tiles_append.mp ((List.take_append_drop n xs).symm ▸ h)
  obtain rfl : m' = m := h1.end_unique hm
  have hpre : ∀ x ∈ xs.take n, decide (start x < m') = true := fun x hx => by
    have := (hm.mem_bounds hx).2
    have := hpos x (List.mem_of_mem_take hx)
    simp only [decide_eq_true_eq]
    omega
  have hpost : ∀ x ∈ xs.drop n, ¬ decide (start x < m') = true := fun x hx => by
    have := (h2.mem_bounds hx).1
    simp only [decide_eq_true_eq]
    omega
  conv_lhs => rw [← List.take_append_drop n xs]
  rw [List.filter_append, List.filter_eq_self.mpr hpre, List.filter_eq_nil_iff.mpr hpost,
    List.append_nil]

end Tiling
