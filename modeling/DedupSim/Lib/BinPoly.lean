import Mathlib.Algebra.Polynomial.Div
import Mathlib.Algebra.CharP.Two
import Mathlib.Algebra.Field.ZMod
import Mathlib.RingTheory.AdjoinRoot

/-!
# Words as polynomials over GF(2)

Bit `i` of a word is the coefficient of `X ^ i`, so exclusive or is addition and
a left shift that loses no set bit is a product with a power of `X`.

* `toPoly`: the polynomial of a word; `toPoly_xor`, `toPoly_shiftLeft`,
  `toPoly_injective`.
* `toPoly_monic`: a word with its top bit set is a monic modulus.
* `residue_step`: shifting once and subtracting the modulus if the top bit comes
  up is a product with `X` modulo it; `residue_iterate` is the shift-and-reduce
  loop.
* `toPoly_eq_mod`: a word below the modulus is the remainder of whatever it is
  congruent to.
-/

namespace DedupSim.BinPoly

open Polynomial

variable {w : ℕ}

/-- The polynomial of a word. -/
noncomputable def toPoly (v : BitVec w) : (ZMod 2)[X] :=
  ∑ i ∈ Finset.range w, if v.getLsbD i then X ^ i else 0

theorem coeff_toPoly (v : BitVec w) (i : ℕ) :
    (toPoly v).coeff i = if v.getLsbD i then 1 else 0 := by
  unfold toPoly
  rw [finsetSum_coeff]
  by_cases hi : i < w
  · rw [Finset.sum_eq_single_of_mem i (Finset.mem_range.2 hi)]
    · split <;> simp
    · intro j _ hji
      split
      · rw [coeff_X_pow, if_neg (Ne.symm hji)]
      · simp
  · rw [BitVec.getLsbD_of_ge v i (by omega), Finset.sum_eq_zero]
    · simp
    · intro j hj
      have : j < w := Finset.mem_range.1 hj
      split
      · rw [coeff_X_pow, if_neg (by omega)]
      · simp

theorem toPoly_injective : Function.Injective (toPoly (w := w)) := by
  intro a b h
  apply BitVec.eq_of_getLsbD_eq
  intro i _
  have hc := congrArg (fun p => p.coeff i) h
  simp only [coeff_toPoly] at hc
  cases ha : a.getLsbD i <;> cases hb : b.getLsbD i <;> simp [ha, hb] at hc ⊢

@[simp] theorem toPoly_zero : toPoly (0#w) = 0 := by
  ext i; simp [coeff_toPoly]

/-- Exclusive or is addition. -/
theorem toPoly_xor (a b : BitVec w) : toPoly (a ^^^ b) = toPoly a + toPoly b := by
  ext i
  simp only [coeff_add, coeff_toPoly, BitVec.getLsbD_xor]
  cases a.getLsbD i <;> cases b.getLsbD i
  · simp
  · simp
  · simp
  · exact (CharTwo.add_self_eq_zero (1 : ZMod 2)).symm

/-- A left shift that loses no set bit is a product with a power of `X`. -/
theorem toPoly_shiftLeft (v : BitVec w) (n : ℕ)
    (h : ∀ i, i < w → w ≤ i + n → v.getLsbD i = false) : toPoly (v <<< n) = X ^ n * toPoly v := by
  ext i
  rw [coeff_X_pow_mul', coeff_toPoly, coeff_toPoly]
  by_cases hn : n ≤ i
  · rw [if_pos hn, BitVec.getLsbD_shiftLeft]
    by_cases hi : i < w
    · simp only [hi, decide_true, Bool.true_and, show ¬ i < n by omega, decide_false, Bool.not_false]
    · have hv : v.getLsbD (i - n) = false := by
        by_cases hiw : i - n < w
        · exact h _ hiw (by omega)
        · exact BitVec.getLsbD_of_ge v _ (by omega)
      simp [hi, hv]
  · simp [BitVec.getLsbD_shiftLeft, hn, show i < n by omega]

/-- Widening a word does not change its polynomial. -/
theorem toPoly_setWidth {u : ℕ} (v : BitVec u) (h : u ≤ w) : toPoly (v.setWidth w) = toPoly v := by
  ext i
  simp only [coeff_toPoly, BitVec.getLsbD_setWidth]
  by_cases hi : i < w
  · simp [hi]
  · simp [hi, BitVec.getLsbD_of_ge v i (by omega)]

theorem degree_toPoly_lt (v : BitVec w) {k : ℕ} (h : ∀ i, k ≤ i → v.getLsbD i = false) :
    (toPoly v).degree < k := by
  rw [degree_lt_iff_coeff_zero]
  intro i hi
  rw [coeff_toPoly, h i hi]; simp

/-- Twice anything is zero. -/
theorem add_self (p : (ZMod 2)[X]) : p + p = 0 := by
  ext i; rw [coeff_add, coeff_zero]; exact CharTwo.add_self_eq_zero _

/-! ## Residues modulo a word with its top bit set -/

section Modulus

variable {n : ℕ} {P : BitVec (n + 1)}

theorem natDegree_toPoly (hP : P.getLsbD n = true) : (toPoly P).natDegree = n := by
  apply natDegree_eq_of_le_of_coeff_ne_zero
  · rw [natDegree_le_iff_coeff_eq_zero]
    intro i hi
    rw [coeff_toPoly, BitVec.getLsbD_of_ge P i (by omega)]; simp
  · rw [coeff_toPoly, hP]; simp

theorem toPoly_monic (hP : P.getLsbD n = true) : (toPoly P).Monic := by
  rw [Monic, leadingCoeff, natDegree_toPoly hP, coeff_toPoly, hP]; rfl

/-- The residue class modulo `P`. -/
noncomputable abbrev residue (P : BitVec (n + 1)) : (ZMod 2)[X] →+* AdjoinRoot (toPoly P) :=
  AdjoinRoot.mk (toPoly P)

theorem residue_self : residue P (toPoly P) = 0 := AdjoinRoot.mk_self

/-- A word below the modulus is the remainder of whatever it is congruent to. -/
theorem toPoly_eq_mod (hP : P.getLsbD n = true) {v : BitVec (n + 1)} (hv : v.getLsbD n = false)
    {p : (ZMod 2)[X]} (h : residue P (toPoly v) = residue P p) : toPoly v = p %ₘ toPoly P := by
  have hm := toPoly_monic hP
  have hdeg : (toPoly v).degree < (toPoly P).degree := by
    rw [degree_eq_natDegree hm.ne_zero, natDegree_toPoly hP]
    apply degree_toPoly_lt
    intro i hi
    rcases Nat.eq_or_lt_of_le hi with rfl | hi
    · exact hv
    · exact BitVec.getLsbD_of_ge v i (by omega)
  rw [← (modByMonic_eq_self_iff hm).2 hdeg]
  exact modByMonic_eq_of_dvd_sub hm (AdjoinRoot.mk_eq_mk.1 h)

/-- Shift once, and subtract the modulus if the top bit comes up. -/
def step (P f : BitVec (n + 1)) : BitVec (n + 1) :=
  if (f <<< 1).getLsbD n then (f <<< 1) ^^^ P else f <<< 1

theorem step_top (hP : P.getLsbD n = true) (f : BitVec (n + 1)) : (step P f).getLsbD n = false := by
  unfold step
  split
  · rename_i h; rw [BitVec.getLsbD_xor, h, hP]; rfl
  · rename_i h; simpa using h

/-- **One step is a product with `X`.** -/
theorem residue_step {f : BitVec (n + 1)} (hf : f.getLsbD n = false) :
    residue P (toPoly (step P f)) = residue P (X * toPoly f) := by
  have hs : toPoly (f <<< 1) = X * toPoly f := by
    rw [toPoly_shiftLeft, pow_one]
    intro i hi hin
    obtain rfl : i = n := by omega
    exact hf
  unfold step
  split
  · rw [toPoly_xor, map_add, residue_self, add_zero, hs]
  · rw [hs]

/-- **The shift-and-reduce loop.** -/
theorem residue_iterate (hP : P.getLsbD n = true) {f : BitVec (n + 1)} (hf : f.getLsbD n = false)
    (k : ℕ) : ((step P)^[k] f).getLsbD n = false ∧
      residue P (toPoly ((step P)^[k] f)) = residue P (X ^ k * toPoly f) := by
  induction k with
  | zero => exact ⟨hf, by simp⟩
  | succ k ih =>
    rw [Function.iterate_succ_apply']
    refine ⟨step_top hP _, ?_⟩
    rw [residue_step ih.1, map_mul, ih.2, ← map_mul, pow_succ']
    ring_nf

end Modulus

end DedupSim.BinPoly
