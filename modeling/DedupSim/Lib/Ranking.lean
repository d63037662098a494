import DedupSim.Lib.SortedRange
import Mathlib.Algebra.Order.BigOperators.Group.Finset
import Mathlib.Data.Finset.Max

/-!
# The highest ranked

Elements with different keys are ranked by a number, from high to low, those of one
number in any order. When are the first `k` in the order of their keys, however the
ranking breaks its ties?

* `ahead`: the elements that stand before `a` in a ranking with `b` before `a`.
* `take_sorted_iff`: **two elements that a ranking may have in the wrong order must not
  both be among the first `k`.**
* `sum_le_of_ranked`: **the first `k` have the highest sum.**
-/

namespace DedupSim

variable {α β : Type*} [LinearOrder β] {key : α → β} {rank : α → ℕ} {l D : List α} {a b : α}

/-- The elements that stand before `a` in any ranking, and `b`. -/
def ahead (key : α → β) (rank : α → ℕ) (a b d : α) : Prop := key d = key b ∨ rank a < rank d

instance (key : α → β) (rank : α → ℕ) (a b : α) : DecidablePred (ahead key rank a b) := by
  unfold ahead
  infer_instance

/-- A ranking. -/
def Ranked (rank : α → ℕ) (l : List α) : Prop := l.Pairwise fun a b => rank b ≤ rank a

/-- Where `b` stands before `a`, all that are ahead do. -/
theorem ahead_le (hnodup : (l.map key).Nodup) (hl : Ranked rank l) {i j : ℕ} (hij : i < j)
    (ha : l[j]? = some a) (hb : l[i]? = some b) :
    (l.filter fun d => ahead key rank a b d).length ≤ j := by
  obtain ⟨hj, haj⟩ := List.getElem?_eq_some_iff.1 ha
  obtain ⟨hi, hbi⟩ := List.getElem?_eq_some_iff.1 hb
  have hdrop : (l.drop j).filter (fun d => ahead key rank a b d) = [] := by
    apply List.filter_eq_nil_iff.2
    intro d hd hahead
    obtain ⟨m, hm⟩ := List.getElem?_of_mem hd
    rw [List.getElem?_drop] at hm
    obtain ⟨hjm, hdm⟩ := List.getElem?_eq_some_iff.1 hm
    rcases of_decide_eq_true hahead with hkey | hrank
    · have hi' : i < (l.map key).length := by rwa [List.length_map]
      have heq : i = j + m := by
        refine (List.getElem?_inj hi' hnodup).1 ?_
        rw [List.getElem?_map, List.getElem?_map, hb, hm, Option.map_some, Option.map_some, hkey]
      omega
    · rcases Nat.eq_zero_or_pos m with rfl | hpos
      · rw [Nat.add_zero, ha] at hm
        cases hm
        exact lt_irrefl _ hrank
      · have hle := List.pairwise_iff_getElem.1 hl j (j + m) hj hjm (by omega)
        rw [haj, hdm] at hle
        omega
  have hsplit : l.filter (fun d => ahead key rank a b d) =
      (l.take j).filter fun d => ahead key rank a b d := by
    conv_lhs => rw [← List.take_append_drop j l]
    rw [List.filter_append, hdrop, List.append_nil]
  rw [hsplit]
  exact (List.length_filter_le _ _).trans (List.length_take_le j l)

/-- There is a ranking in which only those that are ahead stand before `a`. -/
theorem exists_ranked_ahead (ha : a ∈ D) (hne : key a ≠ key b) (hrank : rank a ≤ rank b)
    (hnodup : (D.map key).Nodup) (hb : b ∈ D) :
    ∃ s t, (s ++ a :: t).Perm D ∧ Ranked rank (s ++ a :: t) ∧ b ∈ s ∧
      s.length = (D.filter fun d => ahead key rank a b d).length := by
  classical
  let so : Sorter fun d => OrderDual.toDual (rank d) := .merge _
  set front := D.filter fun d => ahead key rank a b d with hfront
  set back := D.filter fun d => !decide (ahead key rank a b d) with hback
  have hback_mem : a ∈ back := by
    refine List.mem_filter.2 ⟨ha, ?_⟩
    simp only [ahead, hne, lt_irrefl, or_self, decide_false, Bool.not_false]
  -- `a` separates the two by its rank
  have hfront_le : ∀ d ∈ so.sort front, rank a ≤ rank d := by
    intro d hd
    obtain ⟨hdD, hahead⟩ := List.mem_filter.1 ((so.perm front).mem_iff.1 hd)
    rcases of_decide_eq_true hahead with hkey | hlt
    · rwa [List.inj_on_of_nodup_map hnodup hdD hb hkey]
    · exact hlt.le
  have hback_le : ∀ d ∈ so.sort (back.erase a), rank d ≤ rank a := by
    intro d hd
    obtain ⟨-, hahead⟩ := List.mem_filter.1 (List.mem_of_mem_erase ((so.perm _).mem_iff.1 hd))
    rw [Bool.not_eq_true', decide_eq_false_iff_not] at hahead
    exact not_lt.1 fun hlt => hahead (.inr hlt)
  refine ⟨so.sort front, so.sort (back.erase a), ?_, ?_, ?_, ?_⟩
  · have hperm := (so.perm front).append ((so.perm (back.erase a)).cons a)
    apply (hperm.trans ((List.perm_cons_erase hback_mem).symm.append_left front)).trans
    exact List.filter_append_perm _ D
  · refine List.pairwise_append.2 ⟨so.sorted front, List.pairwise_cons.2 ⟨hback_le, so.sorted _⟩, ?_⟩
    intro c hc d hd
    rcases List.mem_cons.1 hd with rfl | hd
    · exact hfront_le c hc
    · exact (hback_le d hd).trans (hfront_le c hc)
  · exact (so.perm front).mem_iff.2 (List.mem_filter.2 ⟨hb, decide_eq_true (.inl rfl)⟩)
  · exact (so.perm front).length_eq

/-- **When the first `k` of any ranking are in the order of their keys**: of two elements
that a ranking may have in the wrong order, the last comes after `k` others. -/
theorem take_sorted_iff (rank : α → ℕ) (hnodup : (D.map key).Nodup) (k : ℕ) :
    (∀ l, l.Perm D → Ranked rank l → (l.take k).Pairwise fun a b => key a < key b) ↔
      ∀ a ∈ D, ∀ b ∈ D, key a < key b → rank a ≤ rank b →
        k ≤ (D.filter fun d => ahead key rank a b d).length := by
  constructor
  · intro h a ha b hb hlt hrank
    by_contra hk
    obtain ⟨s, t, hperm, hranked, hbs, hs⟩ := exists_ranked_ahead ha hlt.ne hrank hnodup hb
    have htake : (s ++ a :: t).take k = s ++ a :: t.take (k - s.length - 1) := by
      rw [List.take_append, List.take_of_length_le (by omega)]
      obtain ⟨n, hn⟩ : ∃ n, k - s.length = n + 1 := ⟨k - s.length - 1, by omega⟩
      rw [hn, List.take_succ_cons, Nat.add_sub_cancel]
    have hsorted := h _ hperm hranked
    rw [htake] at hsorted
    exact lt_asymm hlt ((List.pairwise_append.1 hsorted).2.2 b hbs a (.head _))
  · intro h l hperm hranked
    rw [List.pairwise_iff_getElem]
    intro i j hi hj hij
    rw [List.length_take] at hi hj
    rw [List.getElem_take, List.getElem_take]
    have hil : i < l.length := by omega
    have hjl : j < l.length := by omega
    have hnodup' : (l.map key).Nodup := (hperm.map key).nodup_iff.2 hnodup
    by_contra hge
    -- the two stand in the wrong order, and the second before `k`
    have hlt : key l[j] < key l[i] := by
      apply lt_of_le_of_ne (not_lt.1 hge)
      intro hkey
      have heq := List.inj_on_of_nodup_map hnodup' (List.getElem_mem hjl) (List.getElem_mem hil) hkey
      have hij' := (List.Nodup.of_map key hnodup').getElem_inj_iff.1 heq
      omega
    have hk := h _ (hperm.mem_iff.1 (List.getElem_mem hjl)) _ (hperm.mem_iff.1 (List.getElem_mem hil))
      hlt (List.pairwise_iff_getElem.1 hranked i j hil hjl hij)
    have hle := ahead_le hnodup' hranked hij (List.getElem?_eq_getElem hjl)
      (List.getElem?_eq_getElem hil)
    rw [(hperm.filter _).length_eq] at hle
    omega

/-- **No other choice of as many has a higher sum**: `A` has the highest ranked. -/
theorem sum_le_of_ranked [DecidableEq α] {A T : Finset α}
    (hA : ∀ a ∈ A, ∀ t, t ∉ A → rank t ≤ rank a) (hcard : T.card ≤ A.card) :
    ∑ t ∈ T, rank t ≤ ∑ a ∈ A, rank a := by
  rw [← Finset.sum_sdiff_le_sum_sdiff]
  have hdiff := Finset.card_sdiff_le_card_sdiff_iff.2 hcard
  rcases (A \ T).eq_empty_or_nonempty with hnone | hsome
  · rw [hnone, Finset.card_empty, Nat.le_zero, Finset.card_eq_zero] at hdiff
    rw [hdiff, Finset.sum_empty]
    exact Nat.zero_le _
  · -- the lowest of `A` stands between the two
    obtain ⟨m, hm, hmin⟩ := Finset.exists_min_image (A \ T) rank hsome
    calc ∑ t ∈ T \ A, rank t ≤ (T \ A).card • rank m :=
          Finset.sum_le_card_nsmul _ _ _ fun t ht =>
            hA m (Finset.mem_sdiff.1 hm).1 t (Finset.mem_sdiff.1 ht).2
      _ ≤ (A \ T).card • rank m := Nat.mul_le_mul_right _ hdiff
      _ ≤ ∑ a ∈ A \ T, rank a := Finset.card_nsmul_le_sum _ _ _ hmin

end DedupSim
