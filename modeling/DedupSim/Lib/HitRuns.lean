import Mathlib.Algebra.BigOperators.Group.List.Basic
import Mathlib.Algebra.GroupWithZero.Nat
import Mathlib.Data.List.Count

/-!
# Lengths of maximal runs

The maximal runs of consecutive elements with a property, as the pieces that are left
when a list is split at the elements without it.

* `runLengths`: their lengths, in order; `runLengthsFrom` goes on with a run that has begun.
* `openRun`: the length of the run that the list ends with.
* `sum_runLengths`: **together they are as long as there are elements with the property.**
-/

namespace DedupSim

variable {α : Type*} {p : α → Bool} {x : α} {l : List α} {n : ℕ}

/-- The lengths of those pieces that are not empty. -/
def pieceLengths (pieces : List (List α)) : List ℕ := (pieces.map List.length).filter (· ≠ 0)

/-- The lengths of the maximal runs of elements with `p`. -/
def runLengths (p : α → Bool) (l : List α) : List ℕ := pieceLengths (l.splitOnP fun a => !p a)

/-- The lengths of the maximal runs when `n` elements with `p` come before the list. -/
def runLengthsFrom (p : α → Bool) (n : ℕ) : List α → List ℕ
  | [] => [n].filter (· ≠ 0)
  | x :: l => if p x then runLengthsFrom p (n + 1) l else [n].filter (· ≠ 0) ++ runLengthsFrom p 0 l

theorem pieceLengths_cons (s : List α) (pieces : List (List α)) :
    pieceLengths (s :: pieces) = [s.length].filter (· ≠ 0) ++ pieceLengths pieces := by
  unfold pieceLengths
  rw [← List.filter_append, List.map_cons, List.singleton_append]

theorem pieceLengths_splitOnP (l : List α) : ∀ acc : List α,
    pieceLengths (List.splitOnPPrepend (fun a => !p a) l acc) = runLengthsFrom p acc.length l := by
  induction l with
  | nil =>
    intro acc
    rw [List.splitOnPPrepend_nil, pieceLengths_cons, List.length_reverse]
    exact List.append_nil _
  | cons x l ih =>
    intro acc
    unfold runLengthsFrom
    by_cases hx : p x = true
    · rw [if_pos hx, List.splitOnPPrepend_cons_neg (by rw [hx]; rfl), ih]
      rfl
    · rw [Bool.not_eq_true] at hx
      rw [hx, List.splitOnPPrepend_cons_pos (by rw [hx]; rfl), pieceLengths_cons,
        List.length_reverse, ← List.splitOnPPrepend_nil_right, ih]
      rfl

theorem runLengths_eq (l : List α) : runLengths p l = runLengthsFrom p 0 l :=
  pieceLengths_splitOnP l []

theorem sum_runLengthsFrom (l : List α) : ∀ n, (runLengthsFrom p n l).sum = n + l.countP p := by
  have hpiece : ∀ n : ℕ, ([n].filter (· ≠ 0)).sum = n := by
    intro n
    rcases n with - | n
    · rfl
    · exact List.sum_singleton
  induction l with
  | nil => exact hpiece
  | cons x l ih =>
    intro n
    unfold runLengthsFrom
    by_cases hx : p x = true
    · rw [if_pos hx, ih, List.countP_cons_of_pos hx]
      omega
    · rw [if_neg hx, List.sum_append, hpiece, ih, List.countP_cons_of_neg hx, Nat.zero_add]

theorem exists_le_runLengthsFrom (l : List α) : ∀ n, 0 < n → ∃ m ∈ runLengthsFrom p n l, n ≤ m := by
  have hpiece : ∀ n : ℕ, 0 < n → n ∈ [n].filter (· ≠ 0) := fun n hn =>
    List.mem_filter.2 ⟨List.mem_singleton_self n, decide_eq_true (Nat.ne_of_gt hn)⟩
  induction l with
  | nil => exact fun n hn => ⟨n, hpiece n hn, Nat.le_refl n⟩
  | cons x l ih =>
    intro n hn
    unfold runLengthsFrom
    by_cases hx : p x = true
    · rw [if_pos hx]
      obtain ⟨m, hm, hle⟩ := ih (n + 1) n.succ_pos
      exact ⟨m, hm, by omega⟩
    · rw [if_neg hx]
      exact ⟨n, List.mem_append_left _ (hpiece n hn), Nat.le_refl n⟩

/-- The length of the run that the list ends with, when `n` elements with `p` come before it. -/
def openRun (p : α → Bool) (n : ℕ) : List α → ℕ
  | [] => n
  | x :: l => if p x then openRun p (n + 1) l else openRun p 0 l

theorem openRun_snoc (l : List α) : ∀ n,
    openRun p n (l ++ [x]) = if p x then openRun p n l + 1 else 0 := by
  induction l with
  | nil => exact fun n => rfl
  | cons y l ih =>
    intro n
    rw [List.cons_append, openRun, openRun, ih, ih]
    by_cases hy : p y = true
    · simp only [hy, if_true]
    · simp only [hy, if_false, Bool.false_eq_true]

/-- The last element has no property, or there is none. -/
theorem openRun_eq_zero : openRun p 0 l = 0 ↔ ∀ x, l.getLast? = some x → p x = false := by
  rcases List.eq_nil_or_concat' l with rfl | ⟨l, y, rfl⟩
  · exact iff_of_true rfl fun x hx => by cases hx
  · rw [openRun_snoc, List.getLast?_concat]
    constructor
    · intro h x hx
      cases hx
      by_contra hp
      rw [Bool.not_eq_false] at hp
      rw [if_pos hp] at h
      cases h
    · intro h
      rw [h y rfl]
      rfl

/-- Runs depend on the answers only. -/
theorem runLengthsFrom_congr {q : α → Bool} (h : ∀ x ∈ l, p x = q x) : ∀ n,
    runLengthsFrom p n l = runLengthsFrom q n l ∧ openRun p n l = openRun q n l := by
  induction l with
  | nil => exact fun n => ⟨rfl, rfl⟩
  | cons x l ih =>
    have hrest := ih fun y hy => h y (.tail _ hy)
    intro n
    unfold runLengthsFrom openRun
    rw [h x (.head _), (hrest 0).1, (hrest (n + 1)).1, (hrest 0).2, (hrest (n + 1)).2]
    exact ⟨rfl, rfl⟩

/-- **Together they are as long as there are elements with the property.** -/
theorem sum_runLengths (p : α → Bool) (l : List α) : (runLengths p l).sum = l.countP p := by
  rw [runLengths_eq, sum_runLengthsFrom, Nat.zero_add]

end DedupSim
