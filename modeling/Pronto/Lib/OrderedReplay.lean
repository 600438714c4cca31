import Mathlib.Data.List.Sort
import Mathlib.Data.List.Range

/-!
# Replaying numbered records in number order

Records carry a number `key` and arrive in any order. A replayer keeps the last number it has
played and a priority queue of the records still ahead of it. Feeding a record files it when its
number is ahead, and then plays from the top of the queue while the top is the next number.

`Inv p xs s` is what holds after feeding `xs` to a replayer that starts behind number `p`: played
and queued records together are exactly the records of `xs` ahead of `p`, the played numbers are
`p + 1, p + 2, …`, and the queue holds no record that could be played. `replay_inv` proves it for
records with distinct numbers; `Inv.queue_eq_nil_iff` and `replay_complete` read off when the queue
ends empty, and `replay_append_complete` where a replay may start later instead.
-/

namespace OrderedReplay

variable {α : Type*} (key : α → ℕ)

/-- A replayer: the last number played, the queue (smallest number on top), and what it has
played so far, oldest first. -/
structure State (α : Type*) where
  last : ℕ
  queue : List α
  played : List α

/-- Insert into the priority queue. -/
def push (q : List α) (x : α) : List α := q.orderedInsert (fun a b => key a ≤ key b) x

/-- Play from the top of the queue while the top is the next number. -/
def drain (last : ℕ) (played : List α) : List α → State α
  | [] => ⟨last, [], played⟩
  | x :: q => if key x = last + 1 then drain (key x) (played ++ [x]) q else ⟨last, x :: q, played⟩

/-- Feed one record: file it when it is ahead, then drain. -/
def feed (s : State α) (x : α) : State α :=
  drain key s.last s.played (if s.last < key x then push key s.queue x else s.queue)

/-- Feed a sequence of records. -/
def replay (s : State α) (xs : List α) : State α := xs.foldl (feed key) s

/-- What holds after feeding `xs` to a replayer that starts behind number `p`. -/
structure Inv (p : ℕ) (xs : List α) (s : State α) : Prop where
  perm : (s.played ++ s.queue).Perm (xs.filter fun x => p < key x)
  le : p ≤ s.last
  played_keys : s.played.map key = List.range' (p + 1) (s.last - p)
  sorted : s.queue.Pairwise fun a b => key a ≤ key b
  ahead : ∀ x ∈ s.queue, s.last + 1 < key x

/-! ## One drain -/

/-- Draining only moves records from the front of the queue to the end of the played list. -/
theorem drain_append (last : ℕ) (played q : List α) :
    (drain key last played q).played ++ (drain key last played q).queue = played ++ q := by
  induction q generalizing last played with
  | nil => rfl
  | cons x q ih =>
    rw [drain]
    split
    · rw [ih, List.append_assoc, List.singleton_append]
    · rfl

/-- The records already played do not influence a drain. -/
theorem drain_played (last : ℕ) (played q : List α) :
    drain key last played q =
      { drain key last [] q with played := played ++ (drain key last [] q).played } := by
  induction q generalizing last played with
  | nil => simp [drain]
  | cons x q ih =>
    simp only [drain]
    split
    · rw [ih, ih _ ([] ++ [x])]
      simp
    · simp

/-- What a drain plays anew was ahead and on the queue. -/
theorem mem_drain_played {last : ℕ} {q : List α} {x : α} (h : x ∈ (drain key last [] q).played) :
    last < key x ∧ x ∈ q := by
  induction q generalizing last with
  | nil => cases h
  | cons y q ih =>
    rw [drain] at h
    split at h
    · rename_i htop
      rw [drain_played, List.nil_append, List.singleton_append] at h
      rcases List.mem_cons.mp h with rfl | h
      · exact ⟨by omega, by simp⟩
      · obtain ⟨hlt, hmem⟩ := ih h
        exact ⟨by omega, by simp [hmem]⟩
    · cases h

/-- The last number played never decreases. -/
theorem le_drain_last (last : ℕ) (played q : List α) : last ≤ (drain key last played q).last := by
  induction q generalizing last played with
  | nil => exact le_rfl
  | cons x q ih =>
    rw [drain]
    split
    · exact le_trans (by omega) (ih (key x) _)
    · exact le_rfl

/-- A drain of a queue with strictly increasing numbers ahead of `last` plays consecutive numbers
and stops at a gap. -/
theorem drain_spec {p last : ℕ} {played q : List α} (hle : p ≤ last)
    (hkeys : played.map key = List.range' (p + 1) (last - p))
    (hsorted : q.Pairwise fun a b => key a < key b) (hahead : ∀ x ∈ q, last < key x) :
    p ≤ (drain key last played q).last ∧
      (drain key last played q).played.map key =
        List.range' (p + 1) ((drain key last played q).last - p) ∧
      (drain key last played q).queue.Pairwise (fun a b => key a < key b) ∧
      ∀ x ∈ (drain key last played q).queue, (drain key last played q).last + 1 < key x := by
  induction q generalizing last played with
  | nil => exact ⟨hle, hkeys, List.Pairwise.nil, by simp [drain]⟩
  | cons x q ih =>
    obtain ⟨hx, hq⟩ := List.pairwise_cons.mp hsorted
    rw [drain]
    split
    · rename_i htop
      refine ih (by omega) ?_ hq hx
      rw [List.map_append, hkeys, htop]
      have hlen : last + 1 - p = (last - p) + 1 := by omega
      rw [hlen, List.range'_concat]
      simp
      omega
    · rename_i htop
      have hgap : last + 1 < key x := by
        have := hahead x (by simp)
        omega
      refine ⟨hle, hkeys, hsorted, fun y hy => ?_⟩
      rcases List.mem_cons.mp hy with rfl | hy
      · exact hgap
      · exact hgap.trans (hx y hy)

/-- A replayer whose queue holds nothing that could be played. -/
def Settled (s : State α) : Prop := drain key s.last s.played s.queue = s

theorem drain_settled (last : ℕ) (played q : List α) : Settled key (drain key last played q) := by
  induction q generalizing last played with
  | nil => rfl
  | cons x q ih =>
    rw [drain]
    split
    · exact ih (key x) (played ++ [x])
    · rename_i htop
      rw [Settled, drain, if_neg htop]

theorem feed_settled (s : State α) (x : α) : Settled key (feed key s x) :=
  drain_settled key _ _ _

theorem le_feed_last (s : State α) (x : α) : s.last ≤ (feed key s x).last := le_drain_last key _ _ _

/-- The records filed when `x` is fed are `x`, if it is ahead, and those on the queue. -/
theorem mem_filed {s : State α} {x y : α}
    (h : y ∈ if s.last < key x then push key s.queue x else s.queue) : y = x ∨ y ∈ s.queue := by
  split at h
  · simpa [push, List.mem_orderedInsert] using h
  · exact Or.inr h

/-- What is played when `x` is fed is ahead, and is `x` or was on the queue. -/
theorem mem_feed_played {s : State α} {x y : α}
    (h : y ∈ (feed key s x).played.drop s.played.length) :
    s.last < key y ∧ (y = x ∨ y ∈ s.queue) := by
  rw [feed, drain_played, List.drop_left] at h
  obtain ⟨hlt, hmem⟩ := mem_drain_played key h
  exact ⟨hlt, mem_filed key hmem⟩

/-- What is on the queue after `x` has been fed is `x` or was there before. -/
theorem mem_feed_queue {s : State α} {x y : α} (h : y ∈ (feed key s x).queue) :
    y = x ∨ y ∈ s.queue := by
  refine mem_filed key ?_
  have happend := drain_append key s.last [] (if s.last < key x then push key s.queue x else s.queue)
  rw [feed, drain_played] at h
  rw [← List.nil_append (if s.last < key x then push key s.queue x else s.queue), ← happend]
  exact List.mem_append_right _ h

/-- A record that is not ahead changes nothing. -/
theorem Settled.feed_of_le {s : State α} (h : Settled key s) {x : α} (hx : key x ≤ s.last) :
    feed key s x = s := by
  rw [feed, if_neg (by omega)]
  exact h

/-- A record that is ahead is filed or played. -/
theorem feed_length {s : State α} {x : α} (hx : s.last < key x) :
    (feed key s x).played.length + (feed key s x).queue.length =
      s.played.length + s.queue.length + 1 := by
  rw [feed, if_pos hx, ← List.length_append, drain_append, List.length_append, push,
    List.orderedInsert_length]
  omega

/-! ## Feeding a sequence -/

theorem Inv.init (p : ℕ) : Inv key p [] (⟨p, [], []⟩ : State α) where
  perm := by simp
  le := le_rfl
  played_keys := by simp
  sorted := List.Pairwise.nil
  ahead := by simp

/-- The numbers played and queued are the numbers of `xs` ahead of `p`. -/
theorem Inv.mem_iff {p : ℕ} {xs : List α} {s : State α} (h : Inv key p xs s) (x : α) :
    (x ∈ s.played ∨ x ∈ s.queue) ↔ x ∈ xs ∧ p < key x := by
  rw [← List.mem_append, h.perm.mem_iff, List.mem_filter]
  simp

theorem Inv.mem_played {p : ℕ} {xs : List α} {s : State α} (h : Inv key p xs s) {k : ℕ} :
    k ∈ s.played.map key ↔ p < k ∧ k ≤ s.last := by
  rw [h.played_keys, List.mem_range'_1]
  have := h.le
  omega

/-- A number is played once the numbers up to it have all been fed. -/
theorem Inv.mem_played_of_fed {p c : ℕ} {xs : List α} {s : State α} (h : Inv key p xs s) (hpc : p < c)
    (hfed : ∀ k, p < k → k ≤ c → ∃ x ∈ xs, key x = k) : c ∈ s.played.map key := by
  refine (h.mem_played key).mpr ⟨hpc, ?_⟩
  by_contra hlt
  have hle := h.le
  -- the next number has been fed, but it is neither played nor queued
  obtain ⟨x, hx, hkey⟩ := hfed (s.last + 1) (by omega) (by omega)
  rcases (h.mem_iff key x).mpr ⟨hx, by omega⟩ with hx | hx
  · have := ((h.mem_played key).mp (List.mem_map_of_mem hx)).2
    omega
  · have := h.ahead x hx
    omega

/-- One feed preserves the invariant as long as numbers ahead of `p` do not repeat. -/
theorem Inv.feed {p : ℕ} {xs : List α} {s : State α} (h : Inv key p xs s) {x : α}
    (hnd : (((xs ++ [x]).filter fun y => p < key y).map key).Nodup) :
    Inv key p (xs ++ [x]) (feed key s x) := by
  set q := if s.last < key x then push key s.queue x else s.queue with hq
  -- the records of `xs` ahead of `p` have numbers other than `key x`
  have hfresh : p < key x → ∀ y, (y ∈ s.played ∨ y ∈ s.queue) → key y ≠ key x := by
    intro hx y hy heq
    obtain ⟨hyx, hyp⟩ := (h.mem_iff key y).mp hy
    rw [List.filter_append, List.map_append, List.nodup_append] at hnd
    exact hnd.2.2 (key y) (List.mem_map_of_mem (List.mem_filter.mpr ⟨hyx, by simpa using hyp⟩))
      (key x) (by simp [hx]) heq
  have hperm : (s.played ++ q).Perm ((xs ++ [x]).filter fun y => p < key y) := by
    rw [List.filter_append]
    by_cases hx : p < key x
    · have hlast : s.last < key x := by
        by_contra hle
        obtain ⟨y, hy, hyk⟩ := List.mem_map.mp ((h.mem_played key).mpr ⟨hx, by omega⟩)
        exact hfresh hx y (Or.inl hy) hyk
      rw [hq, if_pos hlast]
      have hins : (push key s.queue x).Perm (x :: s.queue) := List.perm_orderedInsert _ x s.queue
      calc (s.played ++ push key s.queue x).Perm (s.played ++ (s.queue ++ [x])) :=
            (hins.trans (List.perm_append_singleton x s.queue).symm).append_left _
        _ = (s.played ++ s.queue) ++ [x] := (List.append_assoc ..).symm
        _ |>.Perm _ := h.perm.append (by simp [hx])
    · have hlast : ¬ s.last < key x := fun hlt => hx (h.le.trans_lt hlt)
      rw [hq, if_neg hlast]
      simpa [hx] using h.perm
  have hsorted : q.Pairwise fun a b => key a ≤ key b := by
    rw [hq]
    split
    · have : Std.Total fun a b : α => key a ≤ key b := ⟨fun a b => le_total _ _⟩
      have : IsTrans α fun a b => key a ≤ key b := ⟨fun a b c => le_trans⟩
      exact h.sorted.orderedInsert x s.queue
    · exact h.sorted
  have hnodup : (q.map key).Nodup := by
    have := (hperm.map key).nodup_iff.mpr hnd
    rw [List.map_append, List.nodup_append] at this
    exact this.2.1
  have hstrict : q.Pairwise fun a b => key a < key b := by
    have hne : q.Pairwise fun a b => key a ≠ key b := List.pairwise_map.mp hnodup
    exact (hsorted.and hne).imp fun hab => lt_of_le_of_ne hab.1 hab.2
  have hahead : ∀ y ∈ q, s.last < key y := by
    intro y hy
    rw [hq] at hy
    split at hy
    · rename_i hlt
      rcases List.mem_orderedInsert _ |>.mp hy with rfl | hy
      · exact hlt
      · exact Nat.lt_of_succ_lt (h.ahead y hy)
    · exact Nat.lt_of_succ_lt (h.ahead y hy)
  obtain ⟨hle, hkeys, hsort, hgap⟩ := drain_spec key h.le h.played_keys hstrict hahead
  exact
    { perm := by rw [OrderedReplay.feed, ← hq, drain_append]; exact hperm
      le := hle
      played_keys := hkeys
      sorted := hsort.imp le_of_lt
      ahead := hgap }

/-- The invariant after feeding records whose numbers ahead of `p` are distinct. -/
theorem replay_inv {p : ℕ} {xs : List α}
    (hnd : ((xs.filter fun x => p < key x).map key).Nodup) :
    Inv key p xs (replay key ⟨p, [], []⟩ xs) := by
  induction xs using List.reverseRecOn with
  | nil => exact Inv.init key p
  | append_singleton xs x ih =>
    have hpre : ((xs.filter fun y => p < key y).map key).Nodup := by
      rw [List.filter_append, List.map_append, List.nodup_append] at hnd
      exact hnd.1
    rw [replay, List.foldl_append]
    exact (ih hpre).feed key hnd

/-- What was played before only stands in front of what is played later. -/
theorem replay_played (last : ℕ) (queue played xs : List α) :
    replay key ⟨last, queue, played⟩ xs =
      { replay key ⟨last, queue, []⟩ xs with
        played := played ++ (replay key ⟨last, queue, []⟩ xs).played } := by
  induction xs generalizing last queue played with
  | nil => simp [replay]
  | cons x xs ih =>
    simp only [replay, List.foldl_cons]
    have hfeed : feed key ⟨last, queue, played⟩ x =
        { feed key ⟨last, queue, []⟩ x with
          played := played ++ (feed key ⟨last, queue, []⟩ x).played } := drain_played ..
    rw [hfeed]
    generalize feed key ⟨last, queue, []⟩ x = s
    have h1 := ih s.last s.queue (played ++ s.played)
    have h2 := ih s.last s.queue s.played
    simp only [replay] at h1 h2
    rw [h1, h2]
    simp

/-! ## When the queue ends empty -/

/-- The queue ends empty exactly when the numbers ahead of `p` have no gap. -/
theorem Inv.queue_eq_nil_iff {p : ℕ} {xs : List α} {s : State α} (h : Inv key p xs s) :
    s.queue = [] ↔ ∀ x ∈ xs, p < key x → ∀ k, p < k → k ≤ key x → ∃ y ∈ xs, key y = k := by
  constructor
  · intro hq x hx hpx k hpk hkx
    have hplayed : ∀ z, z ∈ s.played ↔ z ∈ xs ∧ p < key z := fun z => by
      simpa [hq] using h.mem_iff key z
    have hxl : key x ≤ s.last :=
      ((h.mem_played key).mp (List.mem_map_of_mem ((hplayed x).mpr ⟨hx, hpx⟩))).2
    obtain ⟨y, hy, hyk⟩ := List.mem_map.mp ((h.mem_played key).mpr ⟨hpk, hkx.trans hxl⟩)
    exact ⟨y, ((hplayed y).mp hy).1, hyk⟩
  · intro hgap
    by_contra hne
    obtain ⟨x, hx⟩ := List.exists_mem_of_ne_nil _ hne
    obtain ⟨hxs, hpx⟩ := (h.mem_iff key x).mp (Or.inr hx)
    have hpl := h.le
    obtain ⟨y, hy, hyk⟩ :=
      hgap x hxs hpx (s.last + 1) (by omega) (le_of_lt (h.ahead x hx))
    rcases (h.mem_iff key y).mpr ⟨hy, by omega⟩ with hy | hy
    · have := ((h.mem_played key).mp (List.mem_map_of_mem hy)).2
      omega
    · have := h.ahead y hy
      omega

/-- Records numbered `p + 1, …, n` ahead of `p`, each once, are all played and leave `n` as the
last number. -/
theorem replay_complete {p n : ℕ} {xs : List α} (hpn : p ≤ n)
    (hkeys : ((xs.filter fun x => p < key x).map key).Perm (List.range' (p + 1) (n - p))) :
    (replay key ⟨p, [], []⟩ xs).last = n ∧ (replay key ⟨p, [], []⟩ xs).queue = [] ∧
      (replay key ⟨p, [], []⟩ xs).played.length = n - p := by
  have h : Inv key p xs _ := replay_inv key (hkeys.nodup_iff.mpr List.nodup_range')
  have hmem : ∀ k, (∃ y ∈ xs, key y = k ∧ p < k) ↔ p < k ∧ k ≤ n := by
    intro k
    have := hkeys.mem_iff (a := k)
    rw [List.mem_range'_1] at this
    simp only [List.mem_map, List.mem_filter, decide_eq_true_eq] at this
    constructor
    · rintro ⟨y, hy, rfl, hp⟩
      have := this.mp ⟨y, ⟨hy, hp⟩, rfl⟩
      omega
    · intro hk
      obtain ⟨y, ⟨hy, hp⟩, rfl⟩ := this.mpr (by omega)
      exact ⟨y, hy, rfl, hp⟩
  -- no key is missing, so nothing stays in the queue
  have hq : (replay key ⟨p, [], []⟩ xs).queue = [] := by
    rw [h.queue_eq_nil_iff key]
    intro x hx hpx k hpk hkx
    obtain ⟨y, hy, hyk, -⟩ := (hmem k).mpr ⟨hpk, hkx.trans ((hmem (key x)).mp ⟨x, hx, rfl, hpx⟩).2⟩
    exact ⟨y, hy, hyk⟩
  have hlen : (replay key ⟨p, [], []⟩ xs).played.length = n - p := by
    have h1 := h.perm.length_eq
    have h2 := hkeys.length_eq
    simp only [hq, List.append_nil, List.length_map, List.length_range'] at h1 h2
    rw [h1, h2]
  have hkl := congrArg List.length h.played_keys
  have hle := h.le
  simp only [List.length_map, List.length_range'] at hkl
  exact ⟨by omega, hq, hlen⟩

/-- When the records in front are numbered `p + 1, …, c`, what is played behind them is what a
replayer that starts behind `c` plays. -/
theorem replay_append_complete {p c : ℕ} {xs : List α} (ys : List α) (hpc : p ≤ c)
    (hkeys : ((xs.filter fun x => p < key x).map key).Perm (List.range' (p + 1) (c - p))) :
    (replay key ⟨p, [], []⟩ (xs ++ ys)).queue = (replay key ⟨c, [], []⟩ ys).queue ∧
      (replay key ⟨p, [], []⟩ (xs ++ ys)).played.drop (c - p) =
        (replay key ⟨c, [], []⟩ ys).played := by
  obtain ⟨hlast, hqueue, hlen⟩ := replay_complete key hpc hkeys
  have hfront : replay key ⟨p, [], []⟩ xs = ⟨c, [], (replay key ⟨p, [], []⟩ xs).played⟩ := by
    generalize replay key ⟨p, [], []⟩ xs = s at hlast hqueue
    cases s
    simp_all
  have hsplit : replay key ⟨p, [], []⟩ (xs ++ ys) =
      replay key ⟨c, [], (replay key ⟨p, [], []⟩ xs).played⟩ ys := by
    rw [← hfront]
    exact List.foldl_append
  rw [hsplit, replay_played]
  exact ⟨rfl, List.drop_left' hlen⟩

end OrderedReplay
