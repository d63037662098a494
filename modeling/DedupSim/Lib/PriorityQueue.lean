import Mathlib.Data.List.Sort
import Mathlib.Order.Basic

/-!
# Priority queues

`std::priority_queue` and the elements a bounded queue keeps.

* `PriorityQueue`: any heap. Its container is a list with the greatest key in front;
  the order of the others is its own.
* `PriorityQueue.coarsen`: a queue for a finer key, which breaks the ties of this one.
* `Least`: a heap that holds the `n` least of the elements seen, with the rules for
  one more element: `Least.push`, `Least.replace` and `Least.skip`.
-/

namespace DedupSim

open scoped List

variable {α β : Type*} [LinearOrder β]

/-- A heap for the order of the keys. -/
structure PriorityQueue (key : α → β) where
  push : List α → α → List α
  pop : List α → List α
  IsHeap : List α → Prop
  isHeap_nil : IsHeap []
  isHeap_push : ∀ {c : List α} (x : α), IsHeap c → IsHeap (push c x)
  isHeap_pop : ∀ {x : α} {c : List α}, IsHeap (x :: c) → IsHeap (pop (x :: c))
  push_perm : ∀ {c : List α} (x : α), IsHeap c → (push c x).Perm (x :: c)
  pop_perm : ∀ {x : α} {c : List α}, IsHeap (x :: c) → (pop (x :: c)).Perm c
  top_max : ∀ {x : α} {c : List α}, IsHeap (x :: c) → ∀ y ∈ c, key y ≤ key x

variable {key : α → β} {n : ℕ} {heap seen c : List α} {x top : α}

/-- A list kept in descending order is one. -/
def PriorityQueue.descending (key : α → β) : PriorityQueue key where
  push c x := c.orderedInsert (fun a b => key b ≤ key a) x
  pop c := c.tail
  IsHeap c := c.Pairwise fun a b => key b ≤ key a
  isHeap_nil := List.Pairwise.nil
  isHeap_push := by
    intro c x h
    have : Std.Total fun a b => key b ≤ key a := ⟨fun a b => le_total _ _⟩
    have : IsTrans α fun a b => key b ≤ key a := ⟨fun a b c h h' => h'.trans h⟩
    exact h.orderedInsert x c
  isHeap_pop h := h.of_cons
  push_perm x _ := List.perm_orderedInsert _ x _
  pop_perm _ := List.Perm.refl _
  top_max h _ hy := List.rel_of_pairwise_cons h hy

/-- A heap for a finer key is one for this key. -/
def PriorityQueue.coarsen {γ : Type*} [LinearOrder γ] {fine : α → γ} (pq : PriorityQueue fine)
    (hfine : ∀ a b, fine a ≤ fine b → key a ≤ key b) : PriorityQueue key where
  push := pq.push
  pop := pq.pop
  IsHeap := pq.IsHeap
  isHeap_nil := pq.isHeap_nil
  isHeap_push := pq.isHeap_push
  isHeap_pop := pq.isHeap_pop
  push_perm := pq.push_perm
  pop_perm := pq.pop_perm
  top_max h y hy := hfine _ _ (pq.top_max h y hy)

/-- The heap holds the `n` least of the elements seen, or all of them. -/
def Least (key : α → β) (n : ℕ) (heap seen : List α) : Prop :=
  ∃ out, (heap ++ out).Perm seen ∧ heap.length = min n seen.length ∧
    ∀ x ∈ heap, ∀ y ∈ out, key x ≤ key y

theorem least_nil (key : α → β) (n : ℕ) : Least key n [] [] :=
  ⟨[], List.Perm.refl _, by simp, fun x hx => by cases hx⟩

namespace Least

variable (pq : PriorityQueue key)

theorem length (h : Least key n heap seen) : heap.length = min n seen.length := by
  obtain ⟨-, -, hlen, -⟩ := h
  exact hlen

theorem subset (h : Least key n heap seen) : heap ⊆ seen := by
  obtain ⟨out, hperm, -⟩ := h
  exact fun y hy => hperm.subset (List.mem_append_left _ hy)

/-- Nothing was left out yet. -/
theorem perm (h : Least key n heap seen) (hle : seen.length ≤ n) : heap.Perm seen := by
  obtain ⟨out, hperm, hlen, -⟩ := h
  have hout : out = [] := by
    have := hperm.length_eq
    rw [List.length_append] at this
    exact List.length_eq_zero_iff.1 (by omega)
  rwa [hout, List.append_nil] at hperm

/-- An element of the heap has fewer than `n` below it. -/
theorem countP_lt (h : Least key n heap seen) (hx : x ∈ heap) :
    seen.countP (fun y => decide (key y < key x)) < n := by
  obtain ⟨out, hperm, hlen, hle⟩ := h
  have hout : out.countP (fun y => decide (key y < key x)) = 0 := by
    apply List.countP_eq_zero.2
    intro y hy
    rw [decide_eq_true_eq]
    exact not_lt.2 (hle x hx y hy)
  have hheap : heap.countP (fun y => decide (key y < key x)) < heap.length := by
    apply lt_of_le_of_ne List.countP_le_length
    intro hall
    exact lt_irrefl _ (of_decide_eq_true (List.countP_eq_length.1 hall x hx))
  rw [← hperm.countP_eq, List.countP_append, hout]
  omega

/-- The heap is not full, so nothing was left out. -/
theorem push (h : Least key n heap seen) (hheap : pq.IsHeap heap) (hlt : heap.length < n) (x : α) :
    Least key n (pq.push heap x) (seen ++ [x]) := by
  have hperm := h.perm (by have := h.length; omega)
  have hpush := pq.push_perm x hheap
  refine ⟨[], ?_, ?_, fun a _ b hb => by cases hb⟩
  · rw [List.append_nil]
    exact hpush.trans ((hperm.cons x).trans (List.perm_append_singleton x seen).symm)
  · have hlen := hperm.length_eq
    rw [hpush.length_eq, List.length_cons, List.length_append, List.length_singleton]
    omega

/-- The heap is full and the element is below its top, which is left out now. -/
theorem replace (h : Least key n (top :: c) seen) (hheap : pq.IsHeap (top :: c))
    (hfull : (top :: c).length = n) (hx : key x < key top) :
    Least key n (pq.push (pq.pop (top :: c)) x) (seen ++ [x]) := by
  obtain ⟨out, hperm, hlen, hle⟩ := h
  have hpush : (pq.push (pq.pop (top :: c)) x).Perm (x :: c) :=
    (pq.push_perm x (pq.isHeap_pop hheap)).trans ((pq.pop_perm hheap).cons x)
  have hmax := pq.top_max hheap
  have hseen := hperm.length_eq
  rw [List.length_append] at hseen
  refine ⟨top :: out, ?_, ?_, ?_⟩
  · calc pq.push (pq.pop (top :: c)) x ++ top :: out ~ x :: c ++ top :: out := hpush.append_right _
      _ ~ x :: (top :: c ++ out) := List.perm_middle.cons x
      _ ~ x :: seen := hperm.cons x
      _ ~ seen ++ [x] := (List.perm_append_singleton x seen).symm
  · rw [hpush.length_eq, List.length_append, List.length_singleton]
    simp only [List.length_cons] at hfull hlen hseen ⊢
    omega
  · intro a ha b hb
    have hatop : key a ≤ key top := by
      rcases List.mem_cons.1 (hpush.subset ha) with rfl | ha
      · exact hx.le
      · exact hmax a ha
    rcases List.mem_cons.1 hb with rfl | hb
    · exact hatop
    · exact hatop.trans (hle top (.head _) b hb)

/-- The heap is full and the element is not below its top. -/
theorem skip (h : Least key n (top :: c) seen) (hheap : pq.IsHeap (top :: c))
    (hfull : (top :: c).length = n) (hx : ¬ key x < key top) :
    Least key n (top :: c) (seen ++ [x]) := by
  obtain ⟨out, hperm, hlen, hle⟩ := h
  have hmax := pq.top_max hheap
  refine ⟨out ++ [x], ?_, ?_, ?_⟩
  · rw [← List.append_assoc]
    exact hperm.append_right [x]
  · rw [List.length_append, List.length_singleton]
    omega
  · intro a ha b hb
    rcases List.mem_append.1 hb with hb | hb
    · exact hle a ha b hb
    · rw [List.mem_singleton] at hb
      subst hb
      rcases List.mem_cons.1 ha with rfl | ha
      · exact not_lt.1 hx
      · exact (hmax a ha).trans (not_lt.1 hx)

end Least

end DedupSim
