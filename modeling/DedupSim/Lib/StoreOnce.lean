import Mathlib.Algebra.Order.BigOperators.Group.Finset
import Mathlib.Data.List.Induction
import Mathlib.Data.List.Nodup

/-!
# Storing each key once

A store that takes an element only if its key is new.

* `firsts`: the elements that it takes; `nodup_firsts`, `mem_firsts_keys`: **one for each
  key.**
* `exists_fetch`: where a key tells what is stored, **every element is found again.**
* `le_sum_stores`, `sum_stores_eq_iff`: several stores hold no less than one would, and **as
  much if and only if no element is in two of them.**
-/

namespace DedupSim

variable {α κ β : Type*} [DecidableEq κ] (key : α → κ)

/-- The store after one more element. -/
def storeOnce (store : List α) (a : α) : List α :=
  if key a ∈ store.map key then store else store ++ [a]

/-- The elements whose key is that of no element before them. -/
def firsts (l : List α) : List α := l.foldl (storeOnce key) []

variable {key} {l store : List α} {a : α}

theorem firsts_snoc (l : List α) (a : α) :
    firsts key (l ++ [a]) = storeOnce key (firsts key l) a := by
  unfold firsts
  rw [List.foldl_append]
  rfl

theorem mem_storeOnce_keys (k : κ) :
    k ∈ (storeOnce key store a).map key ↔ k ∈ store.map key ∨ k = key a := by
  unfold storeOnce
  split
  · rename_i hmem
    constructor
    · exact .inl
    · rintro (h | rfl)
      · exact h
      · exact hmem
  · rw [List.map_append, List.mem_append]
    exact or_congr_right List.mem_singleton

/-- The keys are those of the elements. -/
theorem mem_firsts_keys (l : List α) (k : κ) : k ∈ (firsts key l).map key ↔ k ∈ l.map key := by
  induction l using List.reverseRecOn with
  | nil => exact Iff.rfl
  | append_singleton l a ih =>
    rw [firsts_snoc, mem_storeOnce_keys, ih, List.map_append, List.mem_append]
    exact or_congr_right List.mem_singleton.symm

/-- **Each key is stored once.** -/
theorem nodup_firsts (l : List α) : ((firsts key l).map key).Nodup := by
  induction l using List.reverseRecOn with
  | nil => exact List.nodup_nil
  | append_singleton l a ih =>
    rw [firsts_snoc]
    unfold storeOnce
    split
    · exact ih
    · rename_i hnew
      rw [List.map_append, List.map_singleton, List.nodup_append]
      refine ⟨ih, List.nodup_singleton _, ?_⟩
      intro k hk k' hk' heq
      rw [List.mem_singleton] at hk'
      exact hnew (hk' ▸ heq ▸ hk)

theorem firsts_subset (l : List α) : firsts key l ⊆ l := by
  induction l using List.reverseRecOn with
  | nil => exact List.Subset.refl []
  | append_singleton l a ih =>
    rw [firsts_snoc]
    unfold storeOnce
    split
    · exact fun b hb => List.mem_append_left _ (ih hb)
    · intro b hb
      rcases List.mem_append.1 hb with hb | hb
      · exact List.mem_append_left _ (ih hb)
      · exact List.mem_append_right _ hb

/-- **Every element is found again** under its key, where equal keys mean equal content. -/
theorem exists_fetch {content : α → β}
    (hkey : ∀ a ∈ l, ∀ b ∈ l, key a = key b → content a = content b) (ha : a ∈ l) :
    ∃ b, (firsts key l).find? (fun b => decide (key b = key a)) = some b ∧
      content b = content a := by
  rcases hfind : (firsts key l).find? (fun b => decide (key b = key a)) with - | b
  · exfalso
    obtain ⟨b, hb, hk⟩ := List.mem_map.1 ((mem_firsts_keys l (key a)).2 (List.mem_map_of_mem ha))
    exact List.find?_eq_none.1 hfind b hb (decide_eq_true hk)
  · have hb := firsts_subset l (List.mem_of_find?_eq_some hfind)
    have hk := List.find?_some (p := fun b => decide (key b = key a)) hfind
    exact ⟨b, rfl, hkey b hb a ha (of_decide_eq_true hk)⟩

/-! ## Several stores -/

section Stores

variable {ι : Type*} [DecidableEq α] {I : Finset ι} {T : ι → Finset α} {w : α → ℕ}

/-- An element is counted once for each store that has it. -/
theorem sum_stores (I : Finset ι) (T : ι → Finset α) (w : α → ℕ) :
    ∑ i ∈ I, ∑ a ∈ T i, w a = ∑ a ∈ I.biUnion T, {i ∈ I | a ∈ T i}.card * w a := by
  have hmem : ∀ i a, i ∈ I ∧ a ∈ T i ↔ i ∈ {i ∈ I | a ∈ T i} ∧ a ∈ I.biUnion T := by
    intro i a
    rw [Finset.mem_filter, Finset.mem_biUnion]
    exact ⟨fun h => ⟨h, i, h⟩, fun h => h.1⟩
  rw [Finset.sum_comm' hmem]
  exact Finset.sum_congr rfl fun a _ => by rw [Finset.sum_const, Nat.nsmul_eq_mul]

theorem card_stores_pos (ha : a ∈ I.biUnion T) : 1 ≤ {i ∈ I | a ∈ T i}.card := by
  obtain ⟨i, hi⟩ := Finset.mem_biUnion.1 ha
  exact Finset.card_pos.2 ⟨i, Finset.mem_filter.2 hi⟩

/-- **Several stores hold no less than one would.** -/
theorem le_sum_stores (I : Finset ι) (T : ι → Finset α) (w : α → ℕ) :
    ∑ a ∈ I.biUnion T, w a ≤ ∑ i ∈ I, ∑ a ∈ T i, w a := by
  rw [sum_stores]
  exact Finset.sum_le_sum fun a ha => Nat.le_mul_of_pos_left _ (card_stores_pos ha)

/-- **They hold as much if and only if no element is in two of them.** -/
theorem sum_stores_eq_iff (hw : ∀ a ∈ I.biUnion T, 0 < w a) :
    ∑ i ∈ I, ∑ a ∈ T i, w a = ∑ a ∈ I.biUnion T, w a ↔
      ∀ i ∈ I, ∀ j ∈ I, ∀ a, a ∈ T i → a ∈ T j → i = j := by
  have hle : ∀ a ∈ I.biUnion T, w a ≤ {i ∈ I | a ∈ T i}.card * w a :=
    fun a ha => Nat.le_mul_of_pos_left _ (card_stores_pos ha)
  have hone : ∀ a ∈ I.biUnion T,
      (w a = {i ∈ I | a ∈ T i}.card * w a ↔ {i ∈ I | a ∈ T i}.card = 1) := by
    intro a ha
    rw [eq_comm, Nat.mul_eq_right (hw a ha).ne']
  rw [sum_stores, eq_comm, Finset.sum_eq_sum_iff_of_le hle]
  constructor
  · intro h i hi j hj a hai haj
    have ha := Finset.mem_biUnion.2 ⟨i, hi, hai⟩
    exact Finset.card_le_one.1 ((hone a ha).1 (h a ha)).le i (Finset.mem_filter.2 ⟨hi, hai⟩) j
      (Finset.mem_filter.2 ⟨hj, haj⟩)
  · intro h a ha
    refine (hone a ha).2 (le_antisymm (Finset.card_le_one.2 ?_) (card_stores_pos ha))
    intro i hi j hj
    obtain ⟨hi, hai⟩ := Finset.mem_filter.1 hi
    obtain ⟨hj, haj⟩ := Finset.mem_filter.1 hj
    exact h i hi j hj a hai haj

end Stores

end DedupSim
