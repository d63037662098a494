import Mathlib.Data.List.Sort
import Mathlib.Order.Basic

/-!
# Ordered maps

`std::map`: entries in strict order of their keys, each key once.

* `alter`: `m[k] = f(m[k])`, where `f` is given `none` for a key that is new.
* `filter`: `erase` of several entries.
* `alter_perm`: **what an update leaves**; `find?_alter_self` and
  `find?_alter_of_ne`, what lookups see of it.
-/

namespace DedupSim

variable {κ ν : Type*} [LinearOrder κ]

/-- Entries in strict order of their keys. -/
structure OrderedMap (κ ν : Type*) [LinearOrder κ] where
  entries : List (κ × ν)
  sorted : entries.Pairwise fun a b => a.1 < b.1

/-- The list of entries after `m[k] = f(m[k])`. -/
def alterEntries (k : κ) (f : Option ν → ν) : List (κ × ν) → List (κ × ν)
  | [] => [(k, f none)]
  | e :: es =>
    if k < e.1 then (k, f none) :: e :: es
    else if k = e.1 then (k, f (some e.2)) :: es
    else e :: alterEntries k f es

theorem mem_alterEntries {k : κ} {f : Option ν → ν} {es : List (κ × ν)} {a : κ × ν}
    (h : a ∈ alterEntries k f es) : a.1 = k ∨ a ∈ es := by
  induction es with
  | nil =>
    unfold alterEntries at h
    rw [List.mem_singleton] at h
    exact .inl (congrArg Prod.fst h)
  | cons e es ih =>
    unfold alterEntries at h
    split at h
    · rcases List.mem_cons.1 h with rfl | h
      · exact .inl rfl
      · exact .inr h
    · split at h
      · rcases List.mem_cons.1 h with rfl | h
        · exact .inl rfl
        · exact .inr (.tail _ h)
      · rcases List.mem_cons.1 h with rfl | h
        · exact .inr (.head _)
        · exact (ih h).imp_right (.tail _)

theorem sorted_alterEntries (k : κ) (f : Option ν → ν) {es : List (κ × ν)}
    (h : es.Pairwise fun a b => a.1 < b.1) :
    (alterEntries k f es).Pairwise fun a b => a.1 < b.1 := by
  induction es with
  | nil => exact List.pairwise_singleton _ _
  | cons e es ih =>
    obtain ⟨hall, hes⟩ := List.pairwise_cons.1 h
    unfold alterEntries
    split
    · rename_i hk
      refine List.pairwise_cons.2 ⟨?_, h⟩
      intro a ha
      rcases List.mem_cons.1 ha with rfl | ha
      · exact hk
      · exact hk.trans (hall a ha)
    · split
      · rename_i hk
        subst hk
        exact List.pairwise_cons.2 ⟨hall, hes⟩
      · rename_i hlt hne
        refine List.pairwise_cons.2 ⟨?_, ih hes⟩
        intro a ha
        rcases mem_alterEntries ha with rfl | ha
        · exact lt_of_le_of_ne (not_lt.1 hlt) (Ne.symm hne)
        · exact hall a ha

namespace OrderedMap

/-- The map without entries. -/
def empty : OrderedMap κ ν := ⟨[], List.Pairwise.nil⟩

instance : Inhabited (OrderedMap κ ν) := ⟨empty⟩

/-- `size()`. -/
def size (m : OrderedMap κ ν) : ℕ := m.entries.length

/-- `find(k)`. -/
def find? (m : OrderedMap κ ν) (k : κ) : Option ν :=
  (m.entries.find? fun e => decide (e.1 = k)).map Prod.snd

/-- `m[k] = f(m[k])`. -/
def alter (m : OrderedMap κ ν) (k : κ) (f : Option ν → ν) : OrderedMap κ ν :=
  ⟨alterEntries k f m.entries, sorted_alterEntries k f m.sorted⟩

/-- `erase` of the entries where `p` does not hold. -/
def filter (m : OrderedMap κ ν) (p : κ × ν → Bool) : OrderedMap κ ν :=
  ⟨m.entries.filter p, m.sorted.sublist List.filter_sublist⟩

variable {m : OrderedMap κ ν} {k k' : κ} {v : ν} {f : Option ν → ν}

theorem find?_eq_some : m.find? k = some v ↔ (k, v) ∈ m.entries := by
  unfold find?
  obtain ⟨es, hs⟩ := m
  induction es with
  | nil => simp
  | cons e es ih =>
    obtain ⟨hall, hes⟩ := List.pairwise_cons.1 hs
    rw [List.find?_cons, List.mem_cons]
    by_cases hk : e.1 = k
    · simp only [hk, decide_true, Option.map_some, Option.some.injEq]
      constructor
      · intro hv
        exact .inl (Prod.ext hk.symm hv.symm)
      · rintro (h | h)
        · rw [← h]
        · -- a later entry has a greater key
          exact absurd hk (hall _ h).ne
    · have hne : (k, v) ≠ e := fun h => hk (h ▸ rfl)
      simp only [hk, decide_false, hne, false_or]
      exact ih hes

theorem find?_eq_none : m.find? k = none ↔ ∀ e ∈ m.entries, e.1 ≠ k := by
  simp [find?]

theorem find?_isSome : (m.find? k).isSome ↔ ∃ e ∈ m.entries, e.1 = k := by
  simp [find?, List.find?_isSome]

theorem nodup_keys (m : OrderedMap κ ν) : (m.entries.map Prod.fst).Nodup :=
  List.pairwise_map.2 (m.sorted.imp fun h => h.ne)

theorem filter_cons_others {e : κ × ν} {es : List (κ × ν)} (hall : ∀ a ∈ es, e.1 < a.1) :
    (e :: es).filter (fun a => decide (a.1 ≠ e.1)) = es := by
  rw [List.filter_cons_of_neg (by simp)]
  exact List.filter_eq_self.2 fun a ha => decide_eq_true (hall a ha).ne'

theorem filter_self (h : m.find? k = none) :
    m.entries.filter (fun e => decide (e.1 ≠ k)) = m.entries :=
  List.filter_eq_self.2 fun a ha => decide_eq_true (find?_eq_none.1 h a ha)

/-- **What an update leaves**: the new entry and those of the other keys. -/
theorem alter_perm (m : OrderedMap κ ν) (k : κ) (f : Option ν → ν) :
    (m.alter k f).entries.Perm
      ((k, f (m.find? k)) :: m.entries.filter fun e => decide (e.1 ≠ k)) := by
  obtain ⟨es, hs⟩ := m
  change (alterEntries k f es).Perm
    ((k, f (OrderedMap.find? ⟨es, hs⟩ k)) :: es.filter fun e => decide (e.1 ≠ k))
  induction es with
  | nil => exact List.Perm.refl _
  | cons e es ih =>
    obtain ⟨hall, hes⟩ := List.pairwise_cons.1 hs
    unfold alterEntries
    split
    · rename_i hk
      have hnone : (⟨e :: es, hs⟩ : OrderedMap κ ν).find? k = none := by
        refine find?_eq_none.2 ?_
        intro a ha
        rcases List.mem_cons.1 ha with rfl | ha
        · exact hk.ne'
        · exact (hk.trans (hall a ha)).ne'
      have hself : (e :: es).filter (fun a => decide (a.1 ≠ k)) = e :: es := filter_self hnone
      rw [hnone, hself]
    · split
      · rename_i hk
        subst hk
        have hsome : (⟨e :: es, hs⟩ : OrderedMap κ ν).find? e.1 = some e.2 :=
          find?_eq_some.2 (.head _)
        rw [hsome, filter_cons_others hall]
      · rename_i hne
        have hfind : (⟨e :: es, hs⟩ : OrderedMap κ ν).find? k =
            (⟨es, hes⟩ : OrderedMap κ ν).find? k := by
          simp [find?, Ne.symm hne]
        rw [hfind, List.filter_cons_of_pos (by simpa using Ne.symm hne)]
        exact ((ih hes).cons e).trans (List.Perm.swap _ _ _)

theorem mem_alter {e : κ × ν} :
    e ∈ (m.alter k f).entries ↔ e = (k, f (m.find? k)) ∨ e ∈ m.entries ∧ e.1 ≠ k := by
  rw [(alter_perm m k f).mem_iff, List.mem_cons, List.mem_filter, decide_eq_true_eq]

@[simp] theorem find?_alter_self : (m.alter k f).find? k = some (f (m.find? k)) :=
  find?_eq_some.2 (mem_alter.2 (.inl rfl))

theorem find?_alter_of_ne (h : k' ≠ k) : (m.alter k f).find? k' = m.find? k' := by
  apply Option.ext
  intro v
  rw [find?_eq_some, find?_eq_some, mem_alter]
  constructor
  · rintro (he | ⟨he, -⟩)
    · exact absurd (congrArg Prod.fst he) h
    · exact he
  · exact fun he => .inr ⟨he, h⟩

/-- An entry has the lesser keys before it and the greater ones behind it. -/
theorem exists_split {e : κ × ν} (h : e ∈ m.entries) :
    ∃ pre post, m.entries = pre ++ e :: post ∧
      pre.length = m.entries.countP (fun a => decide (a.1 < e.1)) := by
  obtain ⟨pre, post, hsplit⟩ := List.append_of_mem h
  refine ⟨pre, post, hsplit, ?_⟩
  have hsorted := m.sorted
  rw [hsplit, List.pairwise_append] at hsorted
  obtain ⟨-, hpost, hpre⟩ := hsorted
  have hall : pre.countP (fun a => decide (a.1 < e.1)) = pre.length :=
    List.countP_eq_length.2 fun a ha => decide_eq_true (hpre a ha e (.head _))
  have hnone : (e :: post).countP (fun a => decide (a.1 < e.1)) = 0 := by
    apply List.countP_eq_zero.2
    intro a ha
    rw [decide_eq_true_eq]
    rcases List.mem_cons.1 ha with rfl | ha
    · exact lt_irrefl _
    · exact (List.rel_of_pairwise_cons hpost ha).not_gt
  rw [hsplit, List.countP_append, hall, hnone]
  rfl

end OrderedMap

end DedupSim
