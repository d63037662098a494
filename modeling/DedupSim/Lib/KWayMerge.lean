import Mathlib.Algebra.Order.Group.Nat
import Mathlib.Data.List.Sort
import Mathlib.Logic.Function.Basic

/-!
# Merging `k` sorted streams

* `Merges`: the runs of a `k`-way merge, which takes the head of a stream whose head
  has a least key until all streams are empty.
* `Merges.perm`, `Merges.sorted`: **a run lists the elements of all streams, sorted.**
-/

namespace KWayMerge

variable {α β : Type*} [LinearOrder β] {key : α → β} {k i : ℕ} {S : ℕ → List α} {out rest : List α}
  {a : α}

/-- The runs over the streams `S 0, ..., S (k - 1)`. -/
inductive Merges (key : α → β) (k : ℕ) : (ℕ → List α) → List α → Prop
  | done {S : ℕ → List α} (h : ∀ i < k, S i = []) : Merges key k S []
  | take {S : ℕ → List α} {i : ℕ} {a : α} {rest out : List α} (hi : i < k) (hS : S i = a :: rest)
      (hle : ∀ j < k, ∀ b ∈ (S j).head?, key a ≤ key b)
      (h : Merges key k (Function.update S i rest) out) : Merges key k S (a :: out)

/-- All elements. -/
def union (k : ℕ) (S : ℕ → List α) : List α := (List.range k).flatMap S

theorem mem_union : a ∈ union k S ↔ ∃ i < k, a ∈ S i := by
  simp [union]

/-- Taking an element off one stream takes it off the union. -/
theorem union_update (hi : i < k) (hS : S i = a :: rest) :
    (a :: union k (Function.update S i rest)).Perm (union k S) := by
  induction k with
  | zero => omega
  | succ k ih =>
    have hsucc : ∀ T : ℕ → List α, union (k + 1) T = union k T ++ T k := by
      intro T
      simp [union, List.range_succ]
    rw [hsucc, hsucc]
    rcases Nat.lt_succ_iff_lt_or_eq.1 hi with hlt | rfl
    · rw [Function.update_of_ne (by omega), ← List.cons_append]
      exact (ih hlt).append_right _
    · have hother : union i (Function.update S i rest) = union i S := by
        apply List.flatMap_congr
        intro j hj
        rw [Function.update_of_ne (List.mem_range.1 hj).ne]
      rw [hother, Function.update_self, hS]
      exact List.perm_middle.symm

/-- **Nothing is lost and nothing is repeated.** -/
theorem Merges.perm (h : Merges key k S out) : out.Perm (union k S) := by
  induction h with
  | done h =>
    unfold union
    rw [List.flatMap_eq_nil_iff.2 fun i hi => h i (List.mem_range.1 hi)]
  | take hi hS _ _ ih => exact (ih.cons _).trans (union_update hi hS)

/-- **The run is sorted** when the streams are. -/
theorem Merges.sorted (h : Merges key k S out)
    (hS : ∀ i < k, (S i).Pairwise fun a b => key a ≤ key b) :
    out.Pairwise fun a b => key a ≤ key b := by
  induction h with
  | done _ => exact .nil
  | @take S i a rest out hi hSi hle h ih =>
    have hrest : ∀ j < k, (Function.update S i rest j).Pairwise fun a b => key a ≤ key b := by
      intro j hj
      by_cases hji : j = i
      · subst hji
        rw [Function.update_self]
        have := hS j hj
        rw [hSi] at this
        exact this.of_cons
      · rw [Function.update_of_ne hji]
        exact hS j hj
    refine List.pairwise_cons.2 ⟨?_, ih hrest⟩
    intro b hb
    -- what is taken later was behind some head
    have hmem : b ∈ union k S :=
      (union_update hi hSi).subset (.tail _ (h.perm.subset hb))
    obtain ⟨j, hj, hbj⟩ := mem_union.1 hmem
    rcases hSj : S j with - | ⟨c, cs⟩
    · rw [hSj] at hbj
      cases hbj
    · have hac : key a ≤ key c := hle j hj c (by rw [hSj]; rfl)
      have hsort := hS j hj
      rw [hSj] at hbj hsort
      rcases List.mem_cons.1 hbj with rfl | hbj
      · exact hac
      · exact hac.trans ((List.pairwise_cons.1 hsort).1 b hbj)

end KWayMerge
