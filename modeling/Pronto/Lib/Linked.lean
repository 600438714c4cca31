import Mathlib.Data.List.Nodup
import Mathlib.Logic.Function.Basic

/-!
# Doubly linked lists in memory

Nodes are nonzero addresses; `Links` holds the two link words of every address. `IsList l before
head xs` says that from `head` on the forward links run through `xs` and end in zero, and that the
backward links point to the predecessor, the first one to `before`.

A client removes a node with `unlink` and inserts one in front with `push`. The rules are
`IsList.unlink`, `IsList.push`, and `IsList.congr`, which says that a list depends only on the links
of its own nodes. `Family` is an array of such lists without common nodes, with the same two rules.
-/

namespace Linked

open Function

/-- The link words of every address. -/
structure Links where
  prev : ℕ → ℕ
  next : ℕ → ℕ

namespace Links

variable (l : Links) (a v : ℕ)

def setPrev : Links := { l with prev := Function.update l.prev a v }

def setNext : Links := { l with next := Function.update l.next a v }

@[simp] theorem setPrev_next : (l.setPrev a v).next = l.next := rfl
@[simp] theorem setNext_prev : (l.setNext a v).prev = l.prev := rfl
@[simp] theorem setPrev_prev : (l.setPrev a v).prev = Function.update l.prev a v := rfl
@[simp] theorem setNext_next : (l.setNext a v).next = Function.update l.next a v := rfl

/-- Insert `x` in front of the node `head`. -/
def push (head x : ℕ) : Links :=
  let l := (l.setPrev x 0).setNext x head
  if l.next x ≠ 0 then l.setPrev (l.next x) x else l

/-- Take the node `x` out. -/
def unlink (x : ℕ) : Links :=
  let l := if l.prev x ≠ 0 then l.setNext (l.prev x) (l.next x) else l
  if l.next x ≠ 0 then l.setPrev (l.next x) (l.prev x) else l

/-- The first node of the list with first node `head` once `x` is taken out. -/
def headAfter (head x : ℕ) : ℕ := if l.prev x ≠ 0 then head else l.next x

end Links

/-- Taking a node out changes the links of its two neighbours. -/
theorem Links.unlink_of_ne {l : Links} {x a : ℕ} (hprev : l.prev x ≠ 0 → a ≠ l.prev x)
    (hnext : l.next x ≠ 0 → a ≠ l.next x) :
    (l.unlink x).prev a = l.prev a ∧ (l.unlink x).next a = l.next a := by
  have hsame : (if l.prev x ≠ 0 then l.setNext (l.prev x) (l.next x) else l).next x = l.next x := by
    split
    · by_cases heq : x = l.prev x
      · rw [setNext_next, ← heq, update_self]
      · exact update_of_ne heq _ _
    · rfl
  have hfirst : (if l.prev x ≠ 0 then l.setNext (l.prev x) (l.next x) else l).prev a = l.prev a ∧
      (if l.prev x ≠ 0 then l.setNext (l.prev x) (l.next x) else l).next a = l.next a := by
    split
    · exact ⟨rfl, update_of_ne (hprev ‹_›) _ _⟩
    · exact ⟨rfl, rfl⟩
  rw [unlink, hsame]
  by_cases h0 : l.next x ≠ 0
  · rw [if_pos h0]
    exact ⟨(update_of_ne (hnext h0) _ _).trans hfirst.1, hfirst.2⟩
  · rw [if_neg h0]
    exact hfirst

/-- Inserting a node changes its links and those of the node behind it. -/
theorem Links.push_of_ne {l : Links} {head x a : ℕ} (hx : a ≠ x) (hhead : head ≠ 0 → a ≠ head) :
    (l.push head x).prev a = l.prev a ∧ (l.push head x).next a = l.next a := by
  have hnext : ((l.setPrev x 0).setNext x head).next x = head := update_self _ _ _
  have hfirst : ((l.setPrev x 0).setNext x head).prev a = l.prev a ∧
      ((l.setPrev x 0).setNext x head).next a = l.next a :=
    ⟨update_of_ne hx _ _, update_of_ne hx _ _⟩
  rw [push, hnext]
  by_cases h0 : head ≠ 0
  · rw [if_pos h0]
    exact ⟨(update_of_ne (hhead h0) _ _).trans hfirst.1, hfirst.2⟩
  · rw [if_neg h0]
    exact hfirst

/-- The nodes `xs` are linked in this order. -/
def IsList (l : Links) : ℕ → ℕ → List ℕ → Prop
  | _, head, [] => head = 0
  | before, head, x :: xs => head = x ∧ x ≠ 0 ∧ l.prev x = before ∧ IsList l x (l.next x) xs

variable {l l' : Links} {before head x : ℕ} {xs ys : List ℕ}

/-- A list depends on the links of its nodes only. -/
theorem IsList.congr (h : IsList l before head xs)
    (heq : ∀ a ∈ xs, l'.prev a = l.prev a ∧ l'.next a = l.next a) : IsList l' before head xs := by
  induction xs generalizing before head with
  | nil => exact h
  | cons x xs ih =>
    obtain ⟨hhead, hx, hprev, hrest⟩ := h
    obtain ⟨heqp, heqn⟩ := heq x (by simp)
    refine ⟨hhead, hx, heqp.trans hprev, ?_⟩
    rw [heqn]
    exact ih hrest fun a ha => heq a (by simp [ha])

theorem IsList.head_eq (h : IsList l before head xs) : head = xs.head?.getD 0 := by
  cases xs with
  | nil => exact h
  | cons x xs => exact h.1

theorem IsList.ne_zero (h : IsList l before head xs) {a : ℕ} (ha : a ∈ xs) : a ≠ 0 := by
  induction xs generalizing before head with
  | nil => cases ha
  | cons x xs ih =>
    rcases List.mem_cons.mp ha with rfl | ha
    · exact h.2.1
    · exact ih h.2.2.2 ha

/-- What the links of a node in the middle point to. -/
theorem IsList.links_eq (h : IsList l before head (xs ++ x :: ys)) :
    l.prev x = xs.getLast?.getD before ∧ IsList l x (l.next x) ys := by
  induction xs generalizing before head with
  | nil => exact ⟨h.2.2.1, h.2.2.2⟩
  | cons a xs ih =>
    obtain ⟨hprev, hrest⟩ := ih h.2.2.2
    refine ⟨hprev.trans ?_, hrest⟩
    cases xs with
    | nil => rfl
    | cons b xs => simp [List.getLast?_cons]

/-- The same nodes behind another node. -/
theorem IsList.relink (h : IsList l before head xs) {before' : ℕ}
    (hnext : ∀ a ∈ xs, l'.next a = l.next a) (hprev : ∀ a ∈ xs.tail, l'.prev a = l.prev a)
    (hfirst : ∀ a ∈ xs.head?, l'.prev a = before') : IsList l' before' head xs := by
  cases xs with
  | nil => exact h
  | cons x xs =>
    obtain ⟨hhead, hx, -, hrest⟩ := h
    refine ⟨hhead, hx, hfirst x rfl, ?_⟩
    rw [hnext x (by simp)]
    exact hrest.congr fun a ha => ⟨hprev a ha, hnext a (by simp [ha])⟩

/-- Other nodes behind the node `x`. -/
theorem IsList.splice (h : IsList l before head (xs ++ x :: ys)) {zs : List ℕ}
    (hnext : ∀ a ∈ xs, l'.next a = l.next a) (hprev : ∀ a ∈ xs ++ [x], l'.prev a = l.prev a)
    (hzs : IsList l' x (l'.next x) zs) : IsList l' before head (xs ++ x :: zs) := by
  induction xs generalizing before head with
  | nil =>
    obtain ⟨hhead, hx, hbefore, -⟩ := h
    exact ⟨hhead, hx, (hprev x (by simp)).trans hbefore, hzs⟩
  | cons a xs ih =>
    obtain ⟨hhead, ha, hbefore, hrest⟩ := h
    refine ⟨hhead, ha, (hprev a (by simp)).trans hbefore, ?_⟩
    rw [hnext a (by simp)]
    exact ih hrest (fun b hb => hnext b (by simp [hb])) fun b hb =>
      hprev b (List.mem_cons_of_mem a hb)

/-- Taking a node out of a list. -/
theorem IsList.unlink (h : IsList l 0 head (xs ++ x :: ys)) (hnodup : (xs ++ x :: ys).Nodup) :
    IsList (l.unlink x) 0 (l.headAfter head x) (xs ++ ys) ∧
      ∀ a, a ∉ xs ++ ys → (l.unlink x).prev a = l.prev a ∧ (l.unlink x).next a = l.next a := by
  obtain ⟨hprev, hrest⟩ := h.links_eq
  have hnext := hrest.head_eq
  obtain ⟨-, hys, hdisj⟩ := List.nodup_append'.mp hnodup
  obtain ⟨hxys, hysnd⟩ := List.nodup_cons.mp hys
  have hxxs : x ∉ xs := fun hmem => hdisj hmem (by simp)
  rcases List.eq_nil_or_concat xs with rfl | ⟨xs, p, rfl⟩
  · -- the first node
    have hp0 : l.prev x = 0 := hprev
    have hhead : l.headAfter head x = l.next x := by simp [Links.headAfter, hp0]
    rw [hhead]
    cases ys with
    | nil =>
      have hn0 : l.next x = 0 := hnext
      have hl : l.unlink x = l := by simp [Links.unlink, hp0, hn0]
      rw [hl]
      exact ⟨hrest, fun a _ => ⟨rfl, rfl⟩⟩
    | cons y ys =>
      have hny : l.next x = y := hnext
      have hy0 : y ≠ 0 := hrest.ne_zero (by simp)
      have hl : l.unlink x = l.setPrev y 0 := by simp [Links.unlink, hp0, hny, hy0]
      rw [hl]
      refine ⟨hrest.relink (fun a _ => rfl) (fun a ha => ?_) fun a ha => ?_, fun a ha => ⟨?_, rfl⟩⟩
      · exact update_of_ne (ne_of_mem_of_not_mem ha (List.nodup_cons.mp hysnd).1) _ _
      · obtain rfl : y = a := by simpa using ha
        exact update_self _ _ _
      · exact update_of_ne (fun hay => ha (by simp [hay])) _ _
  · -- behind the node `p`
    rw [List.concat_eq_append] at *
    have hpp : l.prev x = p := by rw [hprev]; simp
    have hp0 : p ≠ 0 := h.ne_zero (by simp)
    have hpx : p ≠ x := fun hpx => hxxs (by simp [hpx])
    have hhead : l.headAfter head x = head := by simp [Links.headAfter, hpp, hp0]
    have hpxs : p ∉ xs := by
      have := List.nodup_append'.mp (List.nodup_append'.mp hnodup).1
      exact fun hmem => this.2.2 hmem (by simp)
    rw [hhead]
    simp only [List.append_assoc, List.singleton_append] at h ⊢
    cases ys with
    | nil =>
      have hn0 : l.next x = 0 := hnext
      have hl : l.unlink x = l.setNext p 0 := by
        simp [Links.unlink, hpp, hp0, hn0, update_of_ne (Ne.symm hpx)]
      rw [hl]
      refine ⟨h.splice (fun a ha => ?_) (fun a _ => rfl) ?_, fun a ha => ⟨rfl, ?_⟩⟩
      · exact update_of_ne (ne_of_mem_of_not_mem ha hpxs) _ _
      · exact update_self _ _ _
      · exact update_of_ne (fun hap => ha (by simp [hap])) _ _
    | cons y ys =>
      have hny : l.next x = y := hnext
      have hy0 : y ≠ 0 := hrest.ne_zero (by simp)
      have hl : l.unlink x = (l.setNext p y).setPrev y p := by
        simp [Links.unlink, hpp, hp0, hny, hy0, update_of_ne (Ne.symm hpx)]
      rw [hl]
      have hyxs : y ∉ xs ∧ y ≠ p := by
        constructor
        · exact fun hmem => hdisj (List.mem_append_left _ hmem) (by simp)
        · exact fun hyp => hdisj (List.mem_append_right xs (by simp : p ∈ [p])) (by simp [hyp])
      have hpys : p ∉ y :: ys := fun hmem =>
        hdisj (List.mem_append_right xs (by simp : p ∈ [p])) (List.mem_cons_of_mem x hmem)
      refine ⟨h.splice (fun a ha => ?_) (fun a ha => ?_) ?_, fun a ha => ⟨?_, ?_⟩⟩
      · exact update_of_ne (ne_of_mem_of_not_mem ha hpxs) _ _
      · refine update_of_ne (fun hay => ?_) _ _
        rcases List.mem_append.mp ha with hmem | hmem
        · exact hyxs.1 (hay ▸ hmem)
        · exact hyxs.2 (hay.symm.trans (by simpa using hmem))
      · rw [Links.setPrev_next, Links.setNext_next, update_self]
        rw [hny] at hrest
        refine hrest.relink (fun a ha => ?_) (fun a ha => ?_) fun a ha => ?_
        · exact update_of_ne (ne_of_mem_of_not_mem ha hpys) _ _
        · exact update_of_ne (ne_of_mem_of_not_mem ha (List.nodup_cons.mp hysnd).1) _ _
        · obtain rfl : y = a := by simpa using ha
          exact update_self _ _ _
      · exact update_of_ne (fun hay => ha (by simp [hay])) _ _
      · exact update_of_ne (fun hap => ha (by simp [hap])) _ _

theorem IsList.erase (h : IsList l 0 head xs) (hnodup : xs.Nodup) (hx : x ∈ xs) :
    IsList (l.unlink x) 0 (l.headAfter head x) (xs.erase x) := by
  obtain ⟨ys, zs, rfl⟩ := List.append_of_mem hx
  have hys : x ∉ ys := fun hmem => (List.nodup_append'.mp hnodup).2.2 hmem (by simp)
  rw [List.erase_append_right _ hys, List.erase_cons_head]
  exact (h.unlink hnodup).1

/-- The links of a node do not point to the node itself. -/
theorem IsList.links_ne (h : IsList l 0 head xs) (hnodup : xs.Nodup) (hx : x ∈ xs) :
    l.prev x ≠ x ∧ l.next x ≠ x := by
  obtain ⟨xs, ys, rfl⟩ := List.append_of_mem hx
  obtain ⟨hprev, hrest⟩ := h.links_eq
  have hx0 : x ≠ 0 := h.ne_zero (by simp)
  obtain ⟨-, hys, hdisj⟩ := List.nodup_append'.mp hnodup
  constructor
  · rw [hprev]
    cases hlast : xs.getLast? with
    | none => exact Ne.symm hx0
    | some p =>
      rintro rfl
      exact hdisj (List.mem_of_getLast? hlast) (by simp)
  · rw [hrest.head_eq]
    cases hhead : ys.head? with
    | none => exact Ne.symm hx0
    | some n =>
      rintro rfl
      exact (List.nodup_cons.mp hys).1 (List.mem_of_head? hhead)

/-- Inserting a node in front. -/
theorem IsList.push (h : IsList l 0 head xs) (hx : x ≠ 0) (hmem : x ∉ xs) (hnodup : xs.Nodup) :
    IsList (l.push head x) 0 x (x :: xs) ∧
      ∀ a, a ∉ x :: xs → (l.push head x).prev a = l.prev a ∧ (l.push head x).next a = l.next a := by
  cases xs with
  | nil =>
    obtain rfl : head = 0 := h
    have hl : l.push 0 x = (l.setPrev x 0).setNext x 0 := by simp [Links.push]
    rw [hl]
    refine ⟨⟨rfl, hx, update_self _ _ _, update_self _ _ _⟩, fun a ha => ?_⟩
    have hax : a ≠ x := fun hax => ha (by simp [hax])
    exact ⟨update_of_ne hax _ _, update_of_ne hax _ _⟩
  | cons y ys =>
    obtain rfl : head = y := h.1
    have hy0 : head ≠ 0 := h.2.1
    have hne : head ≠ x := fun hyx => hmem (by simp [hyx])
    have hl : l.push head x = ((l.setPrev x 0).setNext x head).setPrev head x := by
      simp [Links.push, hy0]
    rw [hl]
    have hnext : ((l.setPrev x 0).setNext x head).next x = head := update_self _ _ _
    refine ⟨⟨rfl, hx, ?_, ?_⟩, fun a ha => ?_⟩
    · rw [Links.setPrev_prev, update_of_ne (Ne.symm hne)]
      exact update_self _ _ _
    · rw [Links.setPrev_next, hnext]
      refine h.relink (fun a ha => ?_) (fun a ha => ?_) fun a ha => ?_
      · exact update_of_ne (ne_of_mem_of_not_mem ha hmem) _ _
      · rw [Links.setPrev_prev,
          update_of_ne (ne_of_mem_of_not_mem ha (List.nodup_cons.mp hnodup).1)]
        exact update_of_ne (ne_of_mem_of_not_mem (List.mem_cons_of_mem head ha) hmem) _ _
      · obtain rfl : head = a := by simpa using ha
        exact update_self _ _ _
    · have hax : a ≠ x := fun hax => ha (by simp [hax])
      have hay : a ≠ head := fun hay => ha (by simp [hay])
      refine ⟨?_, update_of_ne hax _ _⟩
      rw [Links.setPrev_prev, update_of_ne hay]
      exact update_of_ne hax _ _

/-! ## Arrays of lists -/

/-- Lists with the first nodes `heads` that have no node in common. -/
structure Family {ι : Type*} (l : Links) (heads : ι → ℕ) (chains : ι → List ℕ) : Prop where
  isList : ∀ i, IsList l 0 (heads i) (chains i)
  nodup : ∀ i, (chains i).Nodup
  disjoint : ∀ i j a, a ∈ chains i → a ∈ chains j → i = j

namespace Family

variable {ι : Type*} [DecidableEq ι] {heads : ι → ℕ} {chains : ι → List ℕ} {i : ι}

omit [DecidableEq ι] in
/-- A family depends only on the links of its nodes. -/
theorem congr (h : Family l heads chains)
    (heq : ∀ i, ∀ a ∈ chains i, l'.prev a = l.prev a ∧ l'.next a = l.next a) :
    Family l' heads chains where
  isList j := (h.isList j).congr (heq j)
  nodup := h.nodup
  disjoint := h.disjoint

omit [DecidableEq ι] in
/-- The links of a node point to nodes of its own list. -/
theorem links_mem (h : Family l heads chains) (hx : x ∈ chains i) :
    (l.prev x ≠ 0 → l.prev x ∈ chains i) ∧ (l.next x ≠ 0 → l.next x ∈ chains i) := by
  obtain ⟨xs, ys, hsplit⟩ := List.append_of_mem hx
  have hlist := h.isList i
  rw [hsplit] at hlist ⊢
  obtain ⟨hprev, hrest⟩ := hlist.links_eq
  constructor
  · intro hne
    rw [hprev] at hne ⊢
    cases hlast : xs.getLast? with
    | none => simp [hlast] at hne
    | some p => exact List.mem_append_left _ (List.mem_of_getLast? hlast)
  · intro hne
    rw [hrest.head_eq] at hne ⊢
    cases hhead : ys.head? with
    | none => simp [hhead] at hne
    | some p => exact List.mem_append_right _ (List.mem_cons_of_mem x (List.mem_of_head? hhead))

/-- **Unlinking a node of one list leaves the others**: they have no node in common. -/
theorem unlink (h : Family l heads chains) (hx : x ∈ chains i) :
    Family (l.unlink x) (Function.update heads i (l.headAfter (heads i) x))
      (Function.update chains i ((chains i).erase x)) := by
  obtain ⟨xs, ys, hsplit⟩ := List.append_of_mem hx
  have hnodup := h.nodup i
  have hlist := h.isList i
  rw [hsplit] at hnodup hlist
  obtain ⟨hrest, hframe⟩ := hlist.unlink hnodup
  have hxs : x ∉ xs := fun hmem => (List.nodup_append'.mp hnodup).2.2 hmem (by simp)
  have herase : (chains i).erase x = xs ++ ys := by
    rw [hsplit, List.erase_append_right _ hxs, List.erase_cons_head]
  have hsub : ∀ j a, a ∈ Function.update chains i ((chains i).erase x) j → a ∈ chains j := by
    intro j a ha
    rcases eq_or_ne j i with rfl | hne
    · rw [update_self] at ha
      exact List.mem_of_mem_erase ha
    · rwa [update_of_ne hne] at ha
  refine ⟨fun j => ?_, fun j => ?_, fun j k a hj hk => h.disjoint j k a (hsub j a hj) (hsub k a hk)⟩
  · rcases eq_or_ne j i with rfl | hne
    · rw [update_self, update_self, herase]
      exact hrest
    · rw [update_of_ne hne, update_of_ne hne]
      refine (h.isList j).congr fun a ha => hframe a fun hmem => hne ?_
      exact h.disjoint j i a ha (List.mem_of_mem_erase (herase ▸ hmem))
  · rcases eq_or_ne j i with rfl | hne
    · rw [update_self]
      exact (h.nodup j).erase x
    · rw [update_of_ne hne]
      exact h.nodup j

/-- **Pushing a new node** onto one list leaves the others. -/
theorem push (h : Family l heads chains) (i : ι) (hx : x ≠ 0) (hmem : ∀ j, x ∉ chains j) :
    Family (l.push (heads i) x) (Function.update heads i x)
      (Function.update chains i (x :: chains i)) := by
  obtain ⟨hrest, hframe⟩ := (h.isList i).push hx (hmem i) (h.nodup i)
  have hsub : ∀ j a, a ∈ Function.update chains i (x :: chains i) j →
      a ∈ chains j ∨ (a = x ∧ j = i) := by
    intro j a ha
    rcases eq_or_ne j i with rfl | hne
    · rw [update_self] at ha
      rcases List.mem_cons.mp ha with rfl | ha
      · exact .inr ⟨rfl, rfl⟩
      · exact .inl ha
    · rw [update_of_ne hne] at ha
      exact .inl ha
  refine ⟨fun j => ?_, fun j => ?_, fun j k a hj hk => ?_⟩
  · rcases eq_or_ne j i with rfl | hne
    · rw [update_self, update_self]
      exact hrest
    · rw [update_of_ne hne, update_of_ne hne]
      refine (h.isList j).congr fun a ha => hframe a fun hcons => ?_
      rcases List.mem_cons.mp hcons with rfl | ha'
      · exact hmem j ha
      · exact hne (h.disjoint j i a ha ha')
  · rcases eq_or_ne j i with rfl | hne
    · rw [update_self]
      exact List.nodup_cons.mpr ⟨hmem j, h.nodup j⟩
    · rw [update_of_ne hne]
      exact h.nodup j
  · rcases hsub j a hj with hj' | ⟨rfl, rfl⟩ <;> rcases hsub k a hk with hk' | ⟨hak, rfl⟩
    · exact h.disjoint j k a hj' hk'
    · exact absurd (hak ▸ hj') (hmem j)
    · exact absurd hk' (hmem k)
    · rfl

omit [DecidableEq ι] in
/-- Taking a node out changes the links of its own list only. -/
theorem unlink_frame (h : Family l heads chains) (hx : x ∈ chains i) {a : ℕ} (ha : a ∉ chains i) :
    (l.unlink x).prev a = l.prev a ∧ (l.unlink x).next a = l.next a := by
  obtain ⟨xs, ys, hsplit⟩ := List.append_of_mem hx
  have hnodup := h.nodup i
  have hlist := h.isList i
  rw [hsplit] at hnodup hlist ha
  refine (hlist.unlink hnodup).2 a fun hmem => ha ?_
  rcases List.mem_append.mp hmem with hmem | hmem <;> simp [hmem]

omit [DecidableEq ι] in
/-- Inserting a node changes its links and those of the list only. -/
theorem push_frame (h : Family l heads chains) (i : ι) (hx : x ≠ 0) (hmem : x ∉ chains i) {a : ℕ}
    (hax : a ≠ x) (ha : a ∉ chains i) :
    (l.push (heads i) x).prev a = l.prev a ∧ (l.push (heads i) x).next a = l.next a :=
  ((h.isList i).push hx hmem (h.nodup i)).2 a (by simp [hax, ha])

/-- The nodes after a node has been taken out. -/
theorem mem_unlink (h : Family l heads chains) (hx : x ∈ chains i) {j : ι} {a : ℕ} :
    a ∈ Function.update chains i ((chains i).erase x) j ↔ a ∈ chains j ∧ a ≠ x := by
  rcases eq_or_ne j i with rfl | hne
  · rw [update_self, (h.nodup j).mem_erase_iff, and_comm]
  · rw [update_of_ne hne]
    refine ⟨fun ha => ⟨ha, ?_⟩, And.left⟩
    rintro rfl
    exact hne (h.disjoint j i a ha hx)

/-- The nodes after a node has been inserted. -/
theorem mem_push {j : ι} {a : ℕ} :
    a ∈ Function.update chains i (x :: chains i) j ↔ a ∈ chains j ∨ (a = x ∧ j = i) := by
  rcases eq_or_ne j i with rfl | hne
  · rw [update_self, List.mem_cons]
    tauto
  · rw [update_of_ne hne]
    tauto

end Family

end Linked
