import Mathlib.Algebra.BigOperators.Group.List.Basic
import Mathlib.Algebra.GroupWithZero.Nat
import Mathlib.Data.List.Count
import Mathlib.Order.Basic

/-!
# Runs of equal keys

* `runs`: the last element and the length of each run of a list; `runsFrom` goes on with a
  run that has begun.
* `Contiguous`: equal keys are next to each other, as in a sorted list.
* `runs_spec`: **then there is one run for each key, and it is as long as the key occurs.**
* `sum_runs`: what the elements weigh together.
-/

namespace DedupSim

variable {α κ ν : Type*} (key : α → κ)

/-- Equal keys have no other key between them. -/
def Contiguous (l : List α) : Prop :=
  ∀ s a t b u, l = s ++ a :: (t ++ b :: u) → key a = key b → ∀ c ∈ t, key c = key a

variable {key} {a b : α} {l : List α} {n : ℕ}

theorem Contiguous.tail (h : Contiguous key (a :: l)) : Contiguous key l :=
  fun s x t y u hl => h (a :: s) x t y u (by rw [hl, List.cons_append])

/-- A key whose run ends does not occur again. -/
theorem Contiguous.notMem (h : Contiguous key (a :: b :: l)) (hab : key a ≠ key b) :
    key a ∉ (b :: l).map key := by
  intro hmem
  rw [List.map_cons, List.mem_cons] at hmem
  obtain ⟨c, hc, heq⟩ := List.mem_map.1 (hmem.resolve_left hab)
  obtain ⟨t, u, rfl⟩ := List.append_of_mem hc
  exact hab (h [] a (b :: t) c u rfl heq.symm b (.head _)).symm

theorem Contiguous.of_sorted [PartialOrder κ] (h : l.Pairwise fun a b => key a ≤ key b) :
    Contiguous key l := by
  rintro s a t b u rfl hab c hc
  have hs := (List.pairwise_append.1 h).2.1
  obtain ⟨ha, htail⟩ := List.pairwise_cons.1 hs
  have hcb := (List.pairwise_append.1 htail).2.2 c hc b (.head _)
  exact le_antisymm (hcb.trans_eq hab.symm) (ha c (List.mem_append_left _ hc))

variable [DecidableEq κ] (key)

/-- The runs of a list that comes after `n` elements of one key, of which `a` is the last. -/
def runsFrom (n : ℕ) (a : α) : List α → List (α × ℕ)
  | [] => [(a, n)]
  | b :: l => if key a = key b then runsFrom (n + 1) b l else (a, n) :: runsFrom 1 b l

/-- The runs of a list. -/
def runs : List α → List (α × ℕ)
  | [] => []
  | a :: l => runsFrom key 1 a l

variable {key}

/-- Runs that stand for a list, in which `n` elements with the key of `a` come first. -/
structure RunsOf (key : α → κ) (n : ℕ) (a : α) (l : List α) (rs : List (α × ℕ)) : Prop where
  sublist : (rs.map Prod.fst).Sublist (a :: l)
  nodup : (rs.map fun r => key r.1).Nodup
  mem : ∀ k, k ∈ (rs.map fun r => key r.1) ↔ k ∈ (a :: l).map key
  length : ∀ r ∈ rs, r.2 = (l.map key).count (key r.1) + if key r.1 = key a then n else 0

theorem runsFrom_spec (l : List α) : ∀ (n : ℕ) (a : α), Contiguous key (a :: l) →
    RunsOf key n a l (runsFrom key n a l) := by
  induction l with
  | nil =>
    intro n a _
    refine ⟨.refl _, List.pairwise_singleton _ _, fun k => Iff.rfl, ?_⟩
    intro r hr
    rw [List.mem_singleton.1 hr]
    simp
  | cons b l ih =>
    intro n a h
    unfold runsFrom
    by_cases hab : key a = key b
    · -- the run goes on
      rw [if_pos hab]
      obtain ⟨hsub, hnodup, hmem, hlen⟩ := ih (n + 1) b h.tail
      refine ⟨hsub.cons a, hnodup, ?_, ?_⟩
      · intro k
        rw [hmem, List.map_cons, List.map_cons, List.map_cons, hab, List.mem_cons, List.mem_cons,
          List.mem_cons, ← or_assoc, or_self]
      · intro r hr
        rw [hlen r hr, List.map_cons, List.count_cons, hab]
        by_cases hrb : key r.1 = key b
        · simp only [hrb, if_true, beq_self_eq_true]
          omega
        · simp only [hrb, Ne.symm hrb, if_false, beq_iff_eq]
    · -- the next run begins
      rw [if_neg hab]
      obtain ⟨hsub, hnodup, hmem, hlen⟩ := ih 1 b h.tail
      have hnot := h.notMem hab
      refine ⟨hsub.cons_cons a, ?_, ?_, ?_⟩
      · rw [List.map_cons, List.nodup_cons]
        exact ⟨fun hk => hnot ((hmem _).1 hk), hnodup⟩
      · intro k
        rw [List.map_cons, List.mem_cons, hmem, List.map_cons (l := b :: l), List.mem_cons]
      · intro r hr
        rcases List.mem_cons.1 hr with rfl | hr
        · rw [List.count_eq_zero.2 hnot, if_pos rfl, Nat.zero_add]
        · have hne : key r.1 ≠ key a := by
            rintro heq
            exact hnot (heq ▸ (hmem _).1 (List.mem_map.2 ⟨r, hr, rfl⟩))
          rw [hlen r hr, if_neg hne, List.map_cons, List.count_cons]
          simp only [beq_iff_eq, eq_comm (a := key b), Nat.add_zero]

theorem runsFrom_ne_nil (l : List α) : ∀ (n : ℕ) (a : α), runsFrom key n a l ≠ [] := by
  induction l with
  | nil => exact fun n a => List.cons_ne_nil _ _
  | cons b l ih =>
    intro n a
    unfold runsFrom
    split
    · exact ih (n + 1) b
    · exact List.cons_ne_nil _ _

/-- **One run for each key**, in the order of the list, as long as the key occurs. -/
theorem runs_spec (h : Contiguous key l) :
    ((runs key l).map Prod.fst).Sublist l ∧ ((runs key l).map fun r => key r.1).Nodup ∧
      (∀ k, k ∈ ((runs key l).map fun r => key r.1) ↔ k ∈ l.map key) ∧
      ∀ r ∈ runs key l, r.2 = (l.map key).count (key r.1) := by
  cases l with
  | nil =>
    exact ⟨.refl _, List.nodup_nil, fun k => Iff.rfl, fun r hr => absurd hr List.not_mem_nil⟩
  | cons a l =>
    obtain ⟨hsub, hnodup, hmem, hlen⟩ := runsFrom_spec l 1 a h
    refine ⟨hsub, hnodup, hmem, ?_⟩
    intro r hr
    rw [hlen r hr, List.map_cons, List.count_cons]
    simp only [beq_iff_eq, eq_comm (a := key a)]

/-- The keys of a sorted list, in order. -/
theorem runs_sorted [PartialOrder κ] (h : l.Pairwise fun a b => key a ≤ key b) :
    ((runs key l).map fun r => key r.1).Pairwise (· < ·) := by
  obtain ⟨hsub, hnodup, -⟩ := runs_spec (.of_sorted h)
  have hle : ((runs key l).map Prod.fst).Pairwise fun a b => key a ≤ key b := h.sublist hsub
  rw [List.Nodup, List.pairwise_map] at hnodup
  rw [List.pairwise_map] at hle ⊢
  exact (hle.and hnodup).imp fun hab => lt_of_le_of_ne hab.1 hab.2

/-- The element of a run is one of the list. -/
theorem mem_of_mem_runs (h : Contiguous key l) {r : α × ℕ} (hr : r ∈ runs key l) : r.1 ∈ l :=
  (runs_spec h).1.subset (List.mem_map_of_mem hr)

/-- A last element of another key is a run of its own. -/
theorem runsFrom_concat {z : α} (l : List α) : ∀ (n : ℕ) (a : α), (∀ x ∈ a :: l, key x ≠ key z) →
    runsFrom key n a (l ++ [z]) = runsFrom key n a l ++ [(z, 1)] := by
  induction l with
  | nil =>
    intro n a h
    rw [List.nil_append, runsFrom]
    exact if_neg (h a (.head _))
  | cons b l ih =>
    intro n a h
    have htail : ∀ x ∈ b :: l, key x ≠ key z := fun x hx => h x (.tail _ hx)
    rw [List.cons_append, runsFrom, runsFrom, ih (n + 1) b htail, ih 1 b htail]
    split <;> rfl

/-- Runs depend on which keys are equal only. -/
theorem runsFrom_congr [DecidableEq ν] {key' : α → ν} (l : List α) : ∀ (n : ℕ) (a : α),
    (∀ x ∈ a :: l, ∀ y ∈ a :: l, key x = key y ↔ key' x = key' y) →
      runsFrom key n a l = runsFrom key' n a l := by
  induction l with
  | nil => exact fun n a _ => rfl
  | cons b l ih =>
    intro n a h
    have htail : ∀ x ∈ b :: l, ∀ y ∈ b :: l, key x = key y ↔ key' x = key' y :=
      fun x hx y hy => h x (.tail _ hx) y (.tail _ hy)
    simp only [runsFrom, ih _ b htail, h a (.head _) b (.tail _ (.head _))]

/-- The weight of the elements, when the elements of a run weigh the same. -/
theorem sum_runsFrom (w : α → ℕ) (l : List α) : ∀ (n : ℕ) (a : α),
    (∀ x ∈ a :: l, ∀ y ∈ a :: l, key x = key y → w x = w y) →
      ((runsFrom key n a l).map fun r => r.2 * w r.1).sum = n * w a + (l.map w).sum := by
  induction l with
  | nil => exact fun n a _ => rfl
  | cons b l ih =>
    intro n a h
    have htail : ∀ x ∈ b :: l, ∀ y ∈ b :: l, key x = key y → w x = w y :=
      fun x hx y hy => h x (.tail _ hx) y (.tail _ hy)
    unfold runsFrom
    rw [List.map_cons, List.sum_cons]
    split
    · rename_i hab
      rw [ih (n + 1) b htail, h a (.head _) b (.tail _ (.head _)) hab, Nat.succ_mul, Nat.add_assoc]
    · rw [List.map_cons, List.sum_cons, ih 1 b htail, Nat.one_mul]

theorem sum_runs (w : α → ℕ) (h : ∀ x ∈ l, ∀ y ∈ l, key x = key y → w x = w y) :
    ((runs key l).map fun r => r.2 * w r.1).sum = (l.map w).sum := by
  cases l with
  | nil => rfl
  | cons a l =>
    unfold runs
    rw [sum_runsFrom w l 1 a h, Nat.one_mul, List.map_cons, List.sum_cons]

end DedupSim
