import Mathlib.Data.Int.Log
import Mathlib.Data.Rat.Floor
import Mathlib.Tactic.FieldSimp
import Mathlib.Tactic.Linarith
import Mathlib.Tactic.NormNum

/-!
# Binary64 numbers

The finite numbers of the format `double`, as the rationals they stand for. A result is
rounded to the nearest one, and to the even one of two; nothing here reaches the largest.

* `roundEven`, `round`: rounding to an integer, and to a number of the format.
* `round_le`: **rounding does not pass a number of the format**, `round_eq`: and leaves it;
  `round_mono`: **it keeps the order.**
* `Binary64.mul`, `Binary64.ofNat`, `Binary64.truncate`: the product, and the conversions
  from and to an integer type.
-/

namespace DedupSim

/-- To the nearest integer, the even one of two. -/
def roundEven (x : ℚ) : ℤ :=
  if x - ⌊x⌋ < 1 / 2 then ⌊x⌋
  else if 1 / 2 < x - ⌊x⌋ then ⌊x⌋ + 1
  else ⌊x⌋ + ⌊x⌋ % 2

theorem floor_le_roundEven (x : ℚ) : ⌊x⌋ ≤ roundEven x := by
  unfold roundEven
  split
  · exact le_rfl
  · split <;> omega

theorem roundEven_le_ceil (x : ℚ) : roundEven x ≤ ⌈x⌉ := by
  unfold roundEven
  split
  · exact Int.floor_le_ceil x
  · -- there is a fraction
    have hlt : ⌊x⌋ < ⌈x⌉ := by
      rw [Int.lt_ceil]
      linarith
    split <;> omega

/-- An integer is not passed. -/
theorem roundEven_le {x : ℚ} {n : ℤ} (h : x ≤ n) : roundEven x ≤ n :=
  (roundEven_le_ceil x).trans (Int.ceil_le.2 h)

theorem le_roundEven {x : ℚ} {n : ℤ} (h : (n : ℚ) ≤ x) : n ≤ roundEven x :=
  (Int.le_floor.2 h).trans (floor_le_roundEven x)

theorem roundEven_mono {x y : ℚ} (h : x ≤ y) : roundEven x ≤ roundEven y := by
  rcases (Int.floor_le_floor h).lt_or_eq with hlt | heq
  · -- an integer is between them
    have hx : roundEven x ≤ ⌊x⌋ + 1 := by
      unfold roundEven
      split
      · omega
      · split <;> omega
    exact hx.trans ((Int.add_one_le_of_lt hlt).trans (floor_le_roundEven y))
  · unfold roundEven
    rw [heq]
    have hfrac : x - ⌊y⌋ ≤ y - ⌊y⌋ := by linarith
    split
    · split
      · exact le_rfl
      · split <;> omega
    · rename_i hx
      rw [if_neg (by linarith : ¬ y - ⌊y⌋ < 1 / 2)]
      split
      · rename_i hx'
        rw [if_pos (hx'.trans_le hfrac)]
      · split <;> omega

theorem roundEven_intCast (n : ℤ) : roundEven n = n :=
  le_antisymm (roundEven_le le_rfl) (le_roundEven le_rfl)

namespace Binary64

/-- A number of the format: 53 bits, and a multiple of `2 ^ (-1074)`. -/
def Representable (x : ℚ) : Prop :=
  ∃ m e : ℤ, |m| < 2 ^ 53 ∧ -1074 ≤ e ∧ x = m * 2 ^ e

/-- The exponent of the last bit of `x`. -/
def lastBit (x : ℚ) : ℤ := max (Int.log 2 |x| - 52) (-1074)

/-- To the nearest number of the format. -/
def round (x : ℚ) : ℚ := roundEven (x / 2 ^ lastBit x) * 2 ^ lastBit x

theorem abs_lt_zpow (x : ℚ) : |x| < 2 ^ (lastBit x + 53) := by
  have h := Int.lt_zpow_succ_log_self (R := ℚ) Nat.one_lt_two |x|
  apply lt_of_lt_of_le h
  apply zpow_le_zpow_right₀ (by norm_num)
  have := le_max_left (Int.log 2 |x| - 52) (-1074)
  unfold lastBit
  omega

theorem round_zero : round 0 = 0 := by
  unfold round
  rw [zero_div, ← Int.cast_zero, roundEven_intCast, Int.cast_zero, zero_mul]

/-- The rounded number is one of the format. -/
theorem representable_round (x : ℚ) : Representable (round x) := by
  set e := lastBit x with he
  have hpos : (0 : ℚ) < 2 ^ e := zpow_pos (by norm_num) e
  have hlt := abs_lt_zpow x
  rw [← he, zpow_add₀ (by norm_num : (2 : ℚ) ≠ 0), mul_comm, ← div_lt_iff₀ hpos,
    ← abs_of_pos hpos, ← abs_div, abs_lt] at hlt
  have hup : roundEven (x / 2 ^ e) ≤ 2 ^ 53 := roundEven_le (by push_cast; exact hlt.2.le)
  have hlow : -2 ^ 53 ≤ roundEven (x / 2 ^ e) := le_roundEven (by push_cast; exact hlt.1.le)
  have hmin : -1074 ≤ e := le_max_right _ _
  rcases lt_or_eq_of_le (abs_le.2 ⟨hlow, hup⟩) with habs | habs
  · exact ⟨_, e, habs, hmin, rfl⟩
  · -- a carry: the last bit moves up
    refine ⟨roundEven (x / 2 ^ e) / 2, e + 1, ?_, by omega, ?_⟩
    · rcases abs_eq (by norm_num) |>.1 habs with h | h <;> rw [h] <;> decide
    · unfold round
      rw [← he, zpow_add_one₀ (by norm_num)]
      rcases abs_eq (by norm_num) |>.1 habs with h | h <;> rw [h] <;> norm_num <;> ring

/-- What is not below `x` is a multiple of the last bit of `x`. -/
theorem exists_multiple {x y : ℚ} (hx : x ≠ 0) (h : |x| ≤ |y|) (hy : Representable y) :
    ∃ n : ℤ, y = n * 2 ^ lastBit x := by
  obtain ⟨m, e, hm, he, rfl⟩ := hy
  have hxpos : 0 < |x| := abs_pos.2 hx
  have hle : lastBit x ≤ e := by
    refine max_le ?_ he
    have hlt : |x| < 2 ^ (e + 53) := by
      apply lt_of_le_of_lt h
      rw [abs_mul, abs_of_pos (zpow_pos (by norm_num : (0 : ℚ) < 2) e), zpow_add₀ (by norm_num), mul_comm]
      refine mul_lt_mul_of_pos_left ?_ (zpow_pos (by norm_num) e)
      exact_mod_cast hm
    have hlog := (Int.lt_zpow_iff_log_lt (R := ℚ) Nat.one_lt_two hxpos).1 (by exact_mod_cast hlt)
    omega
  obtain ⟨k, hk⟩ := Int.le.dest hle
  refine ⟨m * 2 ^ k, ?_⟩
  rw [← hk, zpow_add₀ (by norm_num), zpow_natCast]
  push_cast
  ring

/-- **Rounding does not pass a number of the format.** -/
theorem round_le {x y : ℚ} (hx : 0 ≤ x) (h : x ≤ y) (hy : Representable y) : round x ≤ y := by
  rcases hx.eq_or_lt with rfl | hpos
  · rwa [round_zero]
  have habs : |x| ≤ |y| := by rwa [abs_of_pos hpos, abs_of_pos (hpos.trans_le h)]
  obtain ⟨n, hn⟩ := exists_multiple hpos.ne' habs hy
  have hbit : (0 : ℚ) < 2 ^ lastBit x := zpow_pos (by norm_num) _
  unfold round
  rw [hn]
  refine mul_le_mul_of_nonneg_right ?_ hbit.le
  have hle : roundEven (x / 2 ^ lastBit x) ≤ n := roundEven_le (by rwa [div_le_iff₀ hbit, ← hn])
  exact_mod_cast hle

/-- **A number of the format is left as it is.** -/
theorem round_eq {x : ℚ} (hx : Representable x) : round x = x := by
  rcases eq_or_ne x 0 with rfl | hne
  · exact round_zero
  obtain ⟨n, hn⟩ := exists_multiple hne le_rfl hx
  have hbit : (0 : ℚ) < 2 ^ lastBit x := zpow_pos (by norm_num) _
  have hdiv : x / 2 ^ lastBit x = n := by
    rw [div_eq_iff hbit.ne']
    exact hn
  unfold round
  rw [hdiv, roundEven_intCast, ← hn]

theorem round_nonneg {x : ℚ} (hx : 0 ≤ x) : 0 ≤ round x := by
  have hbit : (0 : ℚ) < 2 ^ lastBit x := zpow_pos (by norm_num) _
  have h : 0 ≤ roundEven (x / 2 ^ lastBit x) :=
    le_roundEven (by rw [Int.cast_zero]; exact div_nonneg hx hbit.le)
  exact mul_nonneg (by exact_mod_cast h) hbit.le

/-- **Rounding keeps the order.** -/
theorem round_mono {x y : ℚ} (hx : 0 ≤ x) (h : x ≤ y) : round x ≤ round y := by
  rcases hx.eq_or_lt with rfl | hpos
  · rw [round_zero]
    exact round_nonneg h
  have hy : 0 < y := hpos.trans_le h
  have hbit : ∀ z : ℚ, (0 : ℚ) < 2 ^ lastBit z := fun z => zpow_pos (by norm_num) _
  have hlog : Int.log 2 |x| ≤ Int.log 2 |y| := by
    rw [abs_of_pos hpos, abs_of_pos hy]
    exact Int.log_mono_right hpos h
  rcases (show lastBit x ≤ lastBit y by unfold lastBit; omega).lt_or_eq with hlt | heq
  · -- a power of two is between them
    have hlast : lastBit y = Int.log 2 |y| - 52 := by
      unfold lastBit at hlt ⊢
      omega
    have hless : Int.log 2 |x| < Int.log 2 |y| := by
      unfold lastBit at hlt
      omega
    have hpow : (2 : ℚ) ^ Int.log 2 |y| = ((2 ^ 52 : ℤ) : ℚ) * 2 ^ lastBit y := by
      rw [hlast, zpow_sub₀ (by norm_num)]
      norm_num
      ring
    have hbelow : x ≤ 2 ^ Int.log 2 |y| := by
      have hz := (Int.lt_zpow_iff_log_lt (R := ℚ) Nat.one_lt_two (abs_pos.2 hpos.ne')).2 hless
      rw [abs_of_pos hpos] at hz
      exact_mod_cast hz.le
    have habove : (2 : ℚ) ^ Int.log 2 |y| ≤ y := by
      have hz := Int.zpow_log_le_self (R := ℚ) Nat.one_lt_two (abs_pos.2 hy.ne')
      rw [abs_of_pos hy] at hz ⊢
      exact_mod_cast hz
    calc round x ≤ 2 ^ Int.log 2 |y| := by
          refine round_le hx hbelow ⟨2 ^ 52, lastBit y, by norm_num, le_max_right _ _, hpow⟩
      _ = ((2 ^ 52 : ℤ) : ℚ) * 2 ^ lastBit y := hpow
      _ ≤ round y := by
          refine mul_le_mul_of_nonneg_right ?_ (hbit y).le
          have hdiv : ((2 ^ 52 : ℤ) : ℚ) ≤ y / 2 ^ lastBit y := by
            rwa [le_div_iff₀ (hbit y), ← hpow]
          exact_mod_cast le_roundEven hdiv
  · unfold round
    rw [heq]
    refine mul_le_mul_of_nonneg_right ?_ (hbit y).le
    exact_mod_cast roundEven_mono (div_le_div_of_nonneg_right h (hbit y).le)

theorem representable_natCast {n : ℕ} (h : n < 2 ^ 53) : Representable n := by
  refine ⟨n, 0, ?_, by norm_num, by rw [zpow_zero, mul_one, Int.cast_natCast]⟩
  rw [Nat.abs_cast]
  exact_mod_cast h

end Binary64

/-- A finite `double`. -/
structure Binary64 where
  val : ℚ
  representable : Binary64.Representable val

namespace Binary64

/-- The product. -/
def mul (a b : Binary64) : Binary64 := ⟨round (a.val * b.val), representable_round _⟩

/-- From an unsigned integer. -/
def ofNat (n : ℕ) : Binary64 := ⟨round n, representable_round _⟩

/-- To a signed integer, which drops the fraction. -/
def truncate (a : Binary64) : ℤ := if 0 ≤ a.val then ⌊a.val⌋ else ⌈a.val⌉

theorem ofNat_val {n : ℕ} (h : n < 2 ^ 53) : (ofNat n).val = n := round_eq (representable_natCast h)

/-- **A fraction of `n`, as it is computed, is none or more of `n`.** -/
theorem truncate_mul_ofNat {a : Binary64} (h0 : 0 ≤ a.val) (h1 : a.val ≤ 1) {n : ℕ} (hn : n < 2 ^ 53) :
    0 ≤ (a.mul (.ofNat n)).truncate ∧ (a.mul (.ofNat n)).truncate ≤ n := by
  have hprod : 0 ≤ a.val * (ofNat n).val := by
    rw [ofNat_val hn]
    exact mul_nonneg h0 (Nat.cast_nonneg n)
  have hle : (a.mul (.ofNat n)).val ≤ n := by
    refine round_le hprod ?_ (representable_natCast hn)
    rw [ofNat_val hn]
    exact mul_le_of_le_one_left (Nat.cast_nonneg n) h1
  unfold truncate
  rw [if_pos (show 0 ≤ (a.mul (.ofNat n)).val from round_nonneg hprod)]
  refine ⟨Int.floor_nonneg.2 (round_nonneg hprod), ?_⟩
  exact_mod_cast (Int.floor_le _).trans hle

/-- **A larger fraction of `n` is not less of `n`.** -/
theorem truncate_mul_mono {a b : Binary64} (h0 : 0 ≤ a.val) (hab : a.val ≤ b.val) (n : ℕ) :
    (a.mul (.ofNat n)).truncate ≤ (b.mul (.ofNat n)).truncate := by
  have hn : 0 ≤ (ofNat n).val := round_nonneg (Nat.cast_nonneg n)
  have hle : (a.mul (.ofNat n)).val ≤ (b.mul (.ofNat n)).val :=
    round_mono (mul_nonneg h0 hn) (mul_le_mul_of_nonneg_right hab hn)
  have hpos : 0 ≤ (a.mul (.ofNat n)).val := round_nonneg (mul_nonneg h0 hn)
  unfold truncate
  rw [if_pos hpos, if_pos (hpos.trans hle)]
  exact Int.floor_le_floor hle

end Binary64

end DedupSim
