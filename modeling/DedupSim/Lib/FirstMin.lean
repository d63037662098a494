import Mathlib.Data.List.Basic
import Mathlib.Order.Bounds.Basic

/-!
# The first minimum of a growing list

An index that is moved to an element just appended when that is less than the one
it is at.

* `IsFirstMin`: no element is less than the one at the index, those before it are greater.
* `IsFirstMin.snoc_lt`, `IsFirstMin.snoc_le`: **one more element**.
* `IsFirstMin.isLeast`: it is the least index of a minimum.
-/

namespace DedupSim

variable {α β : Type*} [LinearOrder β] {key : α → β} {l : List α} {i : ℕ} {a x : α}

/-- The element `a` at `i` is minimal, and no earlier one is. -/
structure IsFirstMin (key : α → β) (l : List α) (i : ℕ) (a : α) : Prop where
  getElem? : l[i]? = some a
  le : ∀ b ∈ l, key a ≤ key b
  lt : ∀ j < i, ∀ b, l[j]? = some b → key a < key b

theorem isFirstMin_singleton (key : α → β) (a : α) : IsFirstMin key [a] 0 a := by
  refine ⟨rfl, ?_, fun j hj => absurd hj (Nat.not_lt_zero j)⟩
  intro b hb
  rw [List.mem_singleton.1 hb]

namespace IsFirstMin

theorem lt_length (h : IsFirstMin key l i a) : i < l.length := by
  by_contra hge
  have hget := h.getElem?
  rw [List.getElem?_eq_none (not_lt.1 hge)] at hget
  cases hget

/-- The new element is less: the index moves to it. -/
theorem snoc_lt (h : IsFirstMin key l i a) (hx : key x < key a) :
    IsFirstMin key (l ++ [x]) l.length x := by
  have hall : ∀ b ∈ l, key x < key b := fun b hb => hx.trans_le (h.le b hb)
  refine ⟨List.getElem?_concat_length, ?_, ?_⟩
  · intro b hb
    rcases List.mem_append.1 hb with hb | hb
    · exact (hall b hb).le
    · rw [List.mem_singleton.1 hb]
  · intro j hj b hb
    rw [List.getElem?_append_left hj] at hb
    exact hall b (List.mem_of_getElem? hb)

/-- It is not: the index stays. -/
theorem snoc_le (h : IsFirstMin key l i a) (hx : key a ≤ key x) :
    IsFirstMin key (l ++ [x]) i a := by
  have hi := h.lt_length
  refine ⟨?_, ?_, ?_⟩
  · rw [List.getElem?_append_left hi]
    exact h.getElem?
  · intro b hb
    rcases List.mem_append.1 hb with hb | hb
    · exact h.le b hb
    · rw [List.mem_singleton.1 hb]
      exact hx
  · intro j hj b hb
    rw [List.getElem?_append_left (hj.trans hi)] at hb
    exact h.lt j hj b hb

/-- The least key. -/
theorem isLeast_key (h : IsFirstMin key l i a) : IsLeast {k | k ∈ l.map key} (key a) := by
  refine ⟨List.mem_map_of_mem (List.mem_of_getElem? h.getElem?), ?_⟩
  intro k hk
  obtain ⟨b, hb, rfl⟩ := List.mem_map.1 hk
  exact h.le b hb

/-- The least index of a minimum. -/
theorem isLeast (h : IsFirstMin key l i a) :
    IsLeast {j | ∃ b, l[j]? = some b ∧ ∀ b' ∈ l, key b ≤ key b'} i := by
  refine ⟨⟨a, h.getElem?, h.le⟩, ?_⟩
  rintro j ⟨b, hb, hmin⟩
  by_contra hlt
  have hkey := h.lt j (not_le.1 hlt) b hb
  exact hkey.not_ge (hmin a (List.mem_of_getElem? h.getElem?))

end IsFirstMin

end DedupSim
