import DedupSim.Lib.OrderedMap
import Mathlib.Data.List.Count
import Mathlib.Algebra.BigOperators.Group.List.Basic
import Mathlib.Algebra.GroupWithZero.Nat

/-!
# Grouping

The elements of a list grouped by a key.

* `group_perm`: **groups lose and duplicate nothing**, for any list of keys in which each
  key that occurs stands once; `flatMap_ite_key`: a key that one element has picks it.
* `OrderedMap.group`: the map that a loop `m[key(a)].add(a)` builds; `find?_group` says that
  **each of its values is built from the group of its key.**
-/

namespace DedupSim

variable {α κ ν : Type*}

theorem count_group [DecidableEq α] [DecidableEq κ] (key : α → κ) (l : List α) (k : κ) (a : α) :
    (l.filter fun b => decide (key b = k)).count a = if key a = k then l.count a else 0 := by
  split
  · rename_i hk
    exact List.count_filter (decide_eq_true hk)
  · rename_i hk
    apply List.count_eq_zero.2
    intro ha
    exact hk (of_decide_eq_true (List.mem_filter.1 ha).2)

theorem sum_map_ite [DecidableEq κ] {ks : List κ} (hks : ks.Nodup) {k : κ} (hk : k ∈ ks) (n : ℕ) :
    (ks.map fun j => if k = j then n else 0).sum = n := by
  induction ks with
  | nil => cases hk
  | cons j ks ih =>
    obtain ⟨hj, hks⟩ := List.nodup_cons.1 hks
    rw [List.map_cons, List.sum_cons]
    rcases List.mem_cons.1 hk with rfl | hk
    · -- no later key is this one
      have hzero : (ks.map fun j => if k = j then n else 0).sum = 0 := by
        apply List.sum_eq_zero
        intro x hx
        obtain ⟨i, hi, rfl⟩ := List.mem_map.1 hx
        apply if_neg
        rintro rfl
        exact hj hi
      rw [if_pos rfl, hzero, Nat.add_zero]
    · have hne : k ≠ j := fun h => hj (h.symm ▸ hk)
      rw [if_neg hne, Nat.zero_add]
      exact ih hks hk

/-- **The groups of a list**, together, are the list. -/
theorem group_perm [DecidableEq κ] (key : α → κ) {ks : List κ} {l : List α} (hks : ks.Nodup)
    (h : ∀ a ∈ l, key a ∈ ks) :
    (ks.flatMap fun k => l.filter fun a => decide (key a = k)).Perm l := by
  classical
  rw [List.perm_iff_count]
  intro a
  rw [List.count_flatMap]
  have hmap : ks.map (List.count a ∘ fun k => l.filter fun b => decide (key b = k)) =
      ks.map fun k => if key a = k then l.count a else 0 :=
    List.map_congr_left fun k _ => count_group key l k a
  rw [hmap]
  by_cases ha : a ∈ l
  · exact sum_map_ite hks (h a ha) _
  · rw [List.count_eq_zero.2 ha]
    apply List.sum_eq_zero
    intro x hx
    obtain ⟨k, -, rfl⟩ := List.mem_map.1 hx
    exact ite_self 0

/-- Where no two elements have one key, a key picks one element. -/
theorem flatMap_ite_key [DecidableEq κ] {β : Type*} {key : α → κ} {l : List α}
    (hnodup : (l.map key).Nodup) {a : α} (ha : a ∈ l) (f : α → List β) :
    (l.flatMap fun b => if key a = key b then f b else []) = f a := by
  induction l with
  | nil => cases ha
  | cons b l ih =>
    obtain ⟨hb, hl⟩ := List.nodup_cons.1 hnodup
    rw [List.flatMap_cons]
    rcases List.mem_cons.1 ha with rfl | ha
    · -- no later element has this key
      have hnil : (l.flatMap fun b => if key a = key b then f b else []) = [] := by
        rw [List.flatMap_eq_nil_iff]
        intro c hc
        apply if_neg
        intro heq
        exact hb (heq ▸ List.mem_map_of_mem hc)
      rw [if_pos rfl, hnil, List.append_nil]
    · have hne : key a ≠ key b := fun h => hb (h ▸ List.mem_map_of_mem ha)
      rw [if_neg hne, List.nil_append]
      exact ih hl ha

/-- A key then stands for one element. -/
theorem filter_key_eq_singleton [DecidableEq κ] {key : α → κ} {l : List α} (hnodup : (l.map key).Nodup)
    {a : α} (ha : a ∈ l) : (l.filter fun b => decide (key b = key a)) = [a] := by
  induction l with
  | nil => cases ha
  | cons b l ih =>
    obtain ⟨hb, hl⟩ := List.nodup_cons.1 hnodup
    rcases List.mem_cons.1 ha with rfl | ha
    · rw [List.filter_cons, if_pos (decide_eq_true rfl), List.filter_eq_nil_iff.2]
      intro c hc heq
      exact hb (of_decide_eq_true heq ▸ List.mem_map_of_mem hc)
    · have hne : ¬ decide (key b = key a) = true := by
        rw [decide_eq_true_iff]
        exact fun h => hb (h ▸ List.mem_map_of_mem ha)
      rw [List.filter_cons, if_neg hne]
      exact ih hl ha

namespace OrderedMap

variable [LinearOrder κ] (key : α → κ) (new : ν) (add : ν → α → ν)

/-- The loop `m[key(a)].add(a)`, where `new` is the value of a new key. -/
def group (m : OrderedMap κ ν) (l : List α) : OrderedMap κ ν :=
  l.foldl (fun m a => m.alter (key a) fun old => add (old.getD new) a) m

theorem find?_group_of (m : OrderedMap κ ν) (l : List α) (k : κ) :
    (m.group key new add l).find? k =
      if l.filter (fun a => decide (key a = k)) = [] then m.find? k
      else some ((l.filter fun a => decide (key a = k)).foldl add ((m.find? k).getD new)) := by
  induction l generalizing m with
  | nil => rfl
  | cons a l ih =>
    unfold group
    rw [List.foldl_cons, ← group, ih]
    by_cases hk : key a = k
    · rw [List.filter_cons_of_pos (by simpa using hk)]
      subst hk
      simp only [find?_alter_self, Option.getD_some, reduceCtorEq, if_false, List.foldl_cons]
      split
      · rename_i hnil
        rw [hnil]
        rfl
      · rfl
    · rw [List.filter_cons_of_neg (by simpa using hk), find?_alter_of_ne (Ne.symm hk)]

/-- **The value of a key** is built from the elements of its group. -/
theorem find?_group (l : List α) (k : κ) :
    ((empty : OrderedMap κ ν).group key new add l).find? k =
      if l.filter (fun a => decide (key a = k)) = [] then none
      else some ((l.filter fun a => decide (key a = k)).foldl add new) :=
  find?_group_of key new add empty l k

/-- The keys are those that occur. -/
theorem mem_keys_group (l : List α) (k : κ) :
    k ∈ ((empty : OrderedMap κ ν).group key new add l).entries.map Prod.fst ↔
      ∃ a ∈ l, key a = k := by
  have hsome : k ∈ ((empty : OrderedMap κ ν).group key new add l).entries.map Prod.fst ↔
      ((empty : OrderedMap κ ν).group key new add l).find? k ≠ none := by
    rw [← Option.isSome_iff_ne_none, find?_isSome, List.mem_map]
  rw [hsome, find?_group]
  constructor
  · intro h
    split at h
    · exact absurd rfl h
    · rename_i hne
      obtain ⟨a, ha⟩ := List.exists_mem_of_ne_nil _ hne
      obtain ⟨hal, hk⟩ := List.mem_filter.1 ha
      exact ⟨a, hal, of_decide_eq_true hk⟩
  · rintro ⟨a, ha, hk⟩
    have hmem : a ∈ l.filter fun a => decide (key a = k) :=
      List.mem_filter.2 ⟨ha, decide_eq_true hk⟩
    rw [if_neg (List.ne_nil_of_mem hmem)]
    exact Option.some_ne_none _

end OrderedMap

end DedupSim
