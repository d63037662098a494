import DedupSim.Lib.BinPoly
import DedupSim.Spec.Rabin
import Mathlib.Data.List.GetD
import Mathlib.Tactic.LinearCombination

/-!
# The rolling fingerprint is the residue of the window

* `windowPoly`: the polynomial of the last `W` bytes.
* `RabinOK`: what holds between two calls of `rabin_slide8`: the tables are
  complete, the fingerprint is the residue of the window, and the circular
  buffer holds the window, its newest byte just after `bufptr`.
* `RabinOK.slide8`: one call keeps it; `RabinOK.slides` is a run of calls.
* `RabinOK.eq_mod`: the fingerprint is the remainder; `RabinOK.congr`: it
  depends on nothing but the last `W` bytes.
* `rabin_window_iff`: all of this holds after `rabin_init` exactly for the
  window sizes whose length in bits is an `int`.
-/

namespace DedupSim

open Polynomial BinPoly

variable {P : BitVec 64} {W : ℕ} {s : RabinState} {ms : List UInt8}

/-- The byte `j` places before the last one, zero before the first. -/
def lastByte (ms : List UInt8) (j : ℕ) : UInt8 := ms.reverse.getD j 0

@[simp] theorem lastByte_nil (j : ℕ) : lastByte [] j = 0 := by simp [lastByte]

@[simp] theorem lastByte_concat_zero (ms : List UInt8) (m : UInt8) : lastByte (ms ++ [m]) 0 = m := by
  simp [lastByte]

@[simp] theorem lastByte_concat_succ (ms : List UInt8) (m : UInt8) (j : ℕ) :
    lastByte (ms ++ [m]) (j + 1) = lastByte ms j := by
  simp [lastByte]

/-- The polynomial of a byte. -/
noncomputable def bytePoly (m : UInt8) : (ZMod 2)[X] := toPoly m.toBitVec

/-- The polynomial of the last `W` bytes. -/
noncomputable def windowPoly (W : ℕ) (ms : List UInt8) : (ZMod 2)[X] :=
  ∑ j ∈ Finset.range W, bytePoly (lastByte ms j) * X ^ (8 * j)

/-- Shifting a byte in shifts the byte `W` places back out. -/
theorem windowPoly_concat (hW : 1 ≤ W) (ms : List UInt8) (m : UInt8) :
    windowPoly W (ms ++ [m]) + X ^ (8 * W) * bytePoly (lastByte ms (W - 1)) =
      X ^ 8 * windowPoly W ms + bytePoly m := by
  obtain ⟨V, rfl⟩ : ∃ V, W = V + 1 := ⟨W - 1, by omega⟩
  unfold windowPoly
  rw [Finset.sum_range_succ', Finset.sum_range_succ (n := V), mul_add (X ^ 8), Finset.mul_sum]
  simp only [lastByte_concat_succ, lastByte_concat_zero, Nat.add_sub_cancel, mul_zero, pow_zero,
    mul_one]
  have h : ∀ j, bytePoly (lastByte ms j) * X ^ (8 * (j + 1)) =
      X ^ 8 * (bytePoly (lastByte ms j) * X ^ (8 * j)) := by
    intro j; ring
  simp only [h]
  ring

/-! ## The words of one step -/

theorem msb64_eq_twoPow : msb64 = BitVec.twoPow 64 63 := by decide

theorem and_msb64 (f : BitVec 64) : (f &&& msb64 ≠ 0) ↔ f.getLsbD 63 = true := by
  have h : f &&& msb64 = if f.getLsbD 63 then msb64 else 0 := by
    apply BitVec.eq_of_getLsbD_eq
    intro i hi
    have hm : msb64.getLsbD i = decide (i = 63) := by
      rw [msb64_eq_twoPow, BitVec.getLsbD_twoPow]
      simp only [Nat.lt_succ_self, decide_true, Bool.true_and]
      exact decide_eq_decide.2 eq_comm
    rw [BitVec.getLsbD_and, hm]
    by_cases h63 : i = 63
    · subst h63
      cases f.getLsbD 63 <;> simp [msb64]
    · cases f.getLsbD 63 <;> simp [h63, hm]
  rw [h]
  cases f.getLsbD 63 <;> simp [msb64]

theorem ringStep_eq (P : BitVec 64) : ringStep P = step (n := 63) P := by
  funext f
  unfold ringStep step
  simp only [and_msb64]

theorem toPoly_byte (m : UInt8) : toPoly (BitVec.ofNat 64 m.toNat) = bytePoly m := by
  have h : BitVec.ofNat 64 m.toNat = m.toBitVec.setWidth 64 := by
    apply BitVec.eq_of_toNat_eq
    simp
  rw [h, toPoly_setWidth _ (by omega), bytePoly]

theorem byte_top (m : UInt8) {i : ℕ} (hi : 8 ≤ i) : (BitVec.ofNat 64 m.toNat).getLsbD i = false := by
  have hlt : m.toNat < 2 ^ i := lt_of_lt_of_le m.toNat_lt (Nat.pow_le_pow_right (by omega) hi)
  rw [BitVec.getLsbD_ofNat, Nat.testBit_lt_two_pow hlt, Bool.and_false]

/-- An entry of the first table. -/
theorem oldRinging_ok (hP : P.getLsbD 63 = true) (bits : ℕ) (m : UInt8) :
    ((oldRingingTable P bits).getD m.toNat 0).getLsbD 63 = false ∧
      residue P (toPoly ((oldRingingTable P bits).getD m.toNat 0)) =
        residue P (X ^ bits * bytePoly m) := by
  have hm : m.toNat < 256 := m.toNat_lt
  have he : (oldRingingTable P bits).getD m.toNat 0 = (step P)^[bits] (BitVec.ofNat 64 m.toNat) := by
    unfold oldRingingTable
    rw [List.getD_eq_getElem _ _ (by simpa using hm), List.getElem_map, List.getElem_range,
      ringStep_eq]
  rw [he, ← toPoly_byte]
  exact residue_iterate hP (byte_top m (by omega)) bits

/-- An entry of the second table. -/
theorem newRinging_ok (hP : P.getLsbD 63 = true) {i : ℕ} (hi : i < 256) :
    ((newRingingTable P).getD i 0).getLsbD 63 = false ∧
      residue P (toPoly ((newRingingTable P).getD i 0)) =
        residue P (X ^ 8 * toPoly (BitVec.ofNat 64 i <<< 55)) := by
  have he : (newRingingTable P).getD i 0 = (step P)^[8] (BitVec.ofNat 64 i <<< 55) := by
    unfold newRingingTable
    rw [List.getD_eq_getElem _ _ (by simpa using hi), List.getElem_map, List.getElem_range,
      ringStep_eq]
  rw [he]
  apply residue_iterate hP
  have hlt : i.testBit 8 = false := Nat.testBit_lt_two_pow (by omega)
  rw [BitVec.getLsbD_shiftLeft, BitVec.getLsbD_ofNat, show 63 - 55 = 8 from rfl, hlt]
  simp

/-- The second table's index: the top bit of the fingerprint is clear. -/
theorem shift55_lt {f : BitVec 64} (hf : f.getLsbD 63 = false) : (f >>> 55).toNat < 256 := by
  have h : f.toNat < 2 ^ 63 := by
    have := f.isLt
    by_contra hge
    have : f.toNat.testBit 63 = true := Nat.testBit_of_two_pow_le_and_two_pow_add_one_gt
      (by omega) (by omega)
    rw [BitVec.getLsbD, this] at hf
    cases hf
  rw [BitVec.toNat_ushiftRight, Nat.shiftRight_eq_div_pow]
  omega

/-- A word is its low 55 bits plus the rest. -/
theorem split55 (f : BitVec 64) :
    toPoly f = toPoly ((f.setWidth 55).setWidth 64) +
      toPoly (BitVec.ofNat 64 (f >>> 55).toNat <<< 55) := by
  rw [← toPoly_xor]
  congr 1
  apply BitVec.eq_of_getLsbD_eq
  intro i hi
  simp only [BitVec.getLsbD_xor, BitVec.getLsbD_setWidth, BitVec.getLsbD_shiftLeft, hi,
    BitVec.ofNat_toNat, BitVec.getLsbD_ushiftRight, decide_true, Bool.true_and]
  by_cases h : i < 55
  · simp [h]
  · have hi' : 55 + (i - 55) = i := by omega
    simp [h, hi', show i - 55 < 64 by omega]

/-- The fingerprint of one step, as a sum of words with a clear top bit. -/
theorem slide_word (f r : BitVec 64) (m : UInt8) (hr : r.getLsbD 63 = false) :
    (((f <<< 8) ||| BitVec.ofNat 64 m.toNat) ^^^ r) &&& ~~~msb64 =
      (((f.setWidth 55).setWidth 64 <<< 8) ^^^ BitVec.ofNat 64 m.toNat) ^^^ r := by
  have hm : ∀ i, i < 64 → (~~~msb64).getLsbD i = !decide (i = 63) := by
    intro i hi
    rw [BitVec.getLsbD_not, msb64_eq_twoPow, BitVec.getLsbD_twoPow]
    simp only [hi, Nat.lt_succ_self, decide_true, Bool.true_and]
    rw [decide_eq_decide.2 (eq_comm (a := 63))]
  apply BitVec.eq_of_getLsbD_eq
  intro i hi
  rw [BitVec.getLsbD_and, hm i hi]
  simp only [BitVec.getLsbD_xor, BitVec.getLsbD_or, BitVec.getLsbD_shiftLeft, BitVec.getLsbD_setWidth,
    hi, decide_true, Bool.true_and]
  by_cases h63 : i = 63
  · subst h63
    rw [hr, byte_top m (by omega)]
    simp
  by_cases h8 : i < 8
  · simp [h8, h63]
  · simp [h8, h63, byte_top m (show 8 ≤ i by omega), show i - 8 < 64 by omega, show i - 8 < 55 by omega]

/-! ## The invariant -/

/-- The slot of the byte `j` places back in a window whose next slot is `b`. -/
def slot (W b j : ℕ) : ℕ := if b + 1 + j < W then b + 1 + j else b + 1 + j - W

/-- What holds after the bytes `ms`. -/
structure RabinOK (P : BitVec 64) (W : ℕ) (ms : List UInt8) (s : RabinState) : Prop where
  size : s.size = W
  oldRinging : s.oldRinging = oldRingingTable P (8 * W)
  newRinging : s.newRinging = newRingingTable P
  top : s.fingerprint.getLsbD 63 = false
  residue : residue P (toPoly s.fingerprint) = residue P (windowPoly W ms)
  buf_length : s.buf.length = W
  bufptr_lt : s.bufptr < W
  window : ∀ j, j < W → s.buf.getD (slot W s.bufptr j) 0 = lastByte ms j

/-- The byte that slides out is the oldest of the window. -/
theorem RabinOK.om (h : RabinOK P W ms s) : s.buf.getD s.bufptr 0 = lastByte ms (W - 1) := by
  have hb := h.bufptr_lt
  rw [← h.window (W - 1) (by omega), slot, if_neg (by omega)]
  congr 1; omega

/-- The fingerprint after one call: the low 55 bits move up, and the two tables supply
the remainders of the bits and of the byte that leave. -/
theorem RabinOK.slide8_residue (hP : P.getLsbD 63 = true) (h : RabinOK P W ms s) (m : UInt8) :
    (rabinSlide8 s m).2.fingerprint.getLsbD 63 = false ∧
      BinPoly.residue P (toPoly (rabinSlide8 s m).2.fingerprint) =
        BinPoly.residue P (windowPoly W (ms ++ [m])) := by
  have hb := h.bufptr_lt
  have hidx := shift55_lt h.top
  obtain ⟨ho1, ho2⟩ := oldRinging_ok hP (8 * W) (s.buf.getD s.bufptr 0)
  obtain ⟨hn1, hn2⟩ := newRinging_ok hP hidx
  set r := s.oldRinging.getD (s.buf.getD s.bufptr 0).toNat 0 ^^^
    s.newRinging.getD (s.fingerprint >>> 55).toNat 0 with hr
  have hrt : r.getLsbD 63 = false := by
    rw [hr, h.oldRinging, h.newRinging, BitVec.getLsbD_xor, ho1, hn1]
    rfl
  have hfp : (rabinSlide8 s m).2.fingerprint =
      (((s.fingerprint.setWidth 55).setWidth 64 <<< 8) ^^^ BitVec.ofNat 64 m.toNat) ^^^ r :=
    slide_word _ _ _ hrt
  have hlo : ∀ i, 55 ≤ i → ((s.fingerprint.setWidth 55).setWidth 64).getLsbD i = false := by
    intro i hi
    simp [BitVec.getLsbD_setWidth, show ¬ i < 55 by omega]
  constructor
  · rw [hfp, BitVec.getLsbD_xor, BitVec.getLsbD_xor, hrt, byte_top m (by omega),
      BitVec.getLsbD_shiftLeft, hlo _ (by omega)]
    simp
  · have hl8 := toPoly_shiftLeft ((s.fingerprint.setWidth 55).setWidth 64) 8
      (fun i _ hi => hlo i (by omega))
    have hw := congrArg (BinPoly.residue P) (windowPoly_concat (show 1 ≤ W by omega) ms m)
    have hf := congrArg (BinPoly.residue P) (split55 s.fingerprint)
    rw [h.residue] at hf
    rw [hfp, toPoly_xor, toPoly_xor, hl8, hr, toPoly_xor, h.oldRinging, h.newRinging, toPoly_byte]
    simp only [map_add, map_mul, map_pow] at hw hf ho2 hn2 ⊢
    rw [h.om] at ho2
    rw [h.om, ho2, hn2]
    -- the old byte enters twice, once in the window and once in its ringing
    have h2 : BinPoly.residue P (X ^ (8 * W) * bytePoly (lastByte ms (W - 1))) +
        BinPoly.residue P (X ^ (8 * W) * bytePoly (lastByte ms (W - 1))) = 0 := by
      rw [← map_add, add_self, map_zero]
    simp only [map_mul, map_pow] at h2
    linear_combination h2 - hw - BinPoly.residue P X ^ 8 * hf

/-- The circular buffer after one call, whose pointer runs backwards. -/
theorem RabinOK.slide8_window (h : RabinOK P W ms s) (m : UInt8) {j : ℕ} (hj : j < W) :
    (rabinSlide8 s m).2.buf.getD (slot W (rabinSlide8 s m).2.bufptr j) 0 = lastByte (ms ++ [m]) j := by
  have hb := h.bufptr_lt
  have hlen := h.buf_length
  simp only [rabinSlide8, h.size]
  cases j with
  | zero =>
    have hs : slot W (if s.bufptr < 1 then s.bufptr + W - 1 else s.bufptr - 1) 0 = s.bufptr := by
      unfold slot
      split <;> split <;> omega
    rw [hs, lastByte_concat_zero, List.getD_eq_getElem _ _ (by simpa [hlen] using hb)]
    simp
  | succ j =>
    have hs : slot W (if s.bufptr < 1 then s.bufptr + W - 1 else s.bufptr - 1) (j + 1) =
        slot W s.bufptr j := by
      unfold slot
      split <;> split <;> split <;> omega
    have hne : s.bufptr ≠ slot W s.bufptr j := by
      unfold slot
      split <;> omega
    rw [hs, lastByte_concat_succ, ← h.window j (by omega)]
    simp only [List.getD_eq_getElem?_getD, List.getElem?_set_ne hne]

/-- **One call of `rabin_slide8`.** -/
theorem RabinOK.slide8 (hP : P.getLsbD 63 = true) (h : RabinOK P W ms s) (m : UInt8) :
    RabinOK P W (ms ++ [m]) (rabinSlide8 s m).2 := by
  have hb := h.bufptr_lt
  obtain ⟨htop, hres⟩ := h.slide8_residue hP m
  refine ⟨h.size, h.oldRinging, h.newRinging, htop, hres, ?_, ?_, fun j hj => h.slide8_window m hj⟩
  · simp [rabinSlide8, h.buf_length]
  · simp only [rabinSlide8, h.size]
    split <;> omega

/-- **A run of calls.** -/
theorem RabinOK.slides (hP : P.getLsbD 63 = true) {ms₀ : List UInt8} (h : RabinOK P W ms₀ s)
    (ms : List UInt8) : RabinOK P W (ms₀ ++ ms) (rabinSlides s ms) := by
  induction ms using List.reverseRecOn with
  | nil => simpa using h
  | append_singleton ms m ih =>
    rw [rabinSlides_concat, ← List.append_assoc]
    exact ih.slide8 hP m

theorem RabinOK.eq_mod (hP : P.getLsbD 63 = true) (h : RabinOK P W ms s) :
    toPoly s.fingerprint = windowPoly W ms %ₘ toPoly P :=
  toPoly_eq_mod hP h.top h.residue

/-- **Two runs with the same last `W` bytes have the same fingerprint.** -/
theorem RabinOK.congr (hP : P.getLsbD 63 = true) {s' : RabinState} {ms' : List UInt8}
    (h : RabinOK P W ms s) (h' : RabinOK P W ms' s')
    (hb : ∀ j, j < W → lastByte ms j = lastByte ms' j) : s.fingerprint = s'.fingerprint := by
  have hw : windowPoly W ms = windowPoly W ms' :=
    Finset.sum_congr rfl fun j hj => by rw [hb j (Finset.mem_range.1 hj)]
  apply toPoly_injective
  rw [h.eq_mod hP, h'.eq_mod hP, hw]

/-! ## From `rabin_init` -/

/-- `size * 8` is an `int` below `2 ^ 28`, and the fresh state is that of no byte. -/
theorem rabinInit_ok (hP : P.getLsbD 63 = true) (hW : 1 ≤ W) (h28 : W < 2 ^ 28) :
    ∃ s, rabinInit P W = .ok s ∧ RabinOK P W [] s := by
  have hmul : intMul W 8 = some ((8 * W : ℕ) : ℤ) := by
    unfold intMul
    rw [if_pos (by omega)]
    push_cast
    rw [mul_comm]
  unfold rabinInit
  rw [if_neg ((and_msb64 P).2 hP), if_neg (by omega), hmul]
  refine ⟨_, rfl, rfl, rfl, rfl, by simp [rabinReset], ?_, by simp [rabinReset], ?_, ?_⟩
  · simp [rabinReset, windowPoly, bytePoly]
  · simp only [rabinReset, Int.toNat_natCast]; omega
  · intro j hj
    simp only [rabinReset, Int.toNat_natCast, lastByte_nil, List.getD_eq_getElem?_getD,
      List.getElem?_replicate]
    split <;> rfl

/-- From `2 ^ 28` on the product overflows, whatever the polynomial. -/
theorem rabinInit_overflow (hP : P.getLsbD 63 = true) (h28 : 2 ^ 28 ≤ W) :
    rabinInit P W = .error .overflow := by
  have hmul : intMul W 8 = none := by
    unfold intMul
    rw [if_neg (by omega)]
  unfold rabinInit
  rw [if_neg ((and_msb64 P).2 hP), if_neg (by omega), hmul]

/-- The call of `rabin_slide8` with `m` after the bytes `ms` is inside both tables
and the buffer, and returns the remainder of the window, which depends on nothing
but the last `W` bytes. -/
def RollsResidue (poly : BitVec 64) (W : ℕ) (ms : List UInt8) (m : UInt8) : Prop :=
  ∃ s₀, rabinInit poly W = .ok s₀ ∧
    (rabinSlides s₀ ms).bufptr < (rabinSlides s₀ ms).buf.length ∧
    ((rabinSlides s₀ ms).buf.getD (rabinSlides s₀ ms).bufptr 0).toNat < 256 ∧
    ((rabinSlides s₀ ms).fingerprint >>> 55).toNat < 256 ∧
    toPoly (rabinSlide8 (rabinSlides s₀ ms) m).1 = windowPoly W (ms ++ [m]) %ₘ toPoly poly ∧
    (rabinSlide8 (rabinSlides s₀ ms) m).1.getLsbD 63 = false ∧
    ∀ ms' m', (∀ j, j < W → lastByte (ms' ++ [m']) j = lastByte (ms ++ [m]) j) →
      (rabinSlide8 (rabinSlides s₀ ms') m').1 = (rabinSlide8 (rabinSlides s₀ ms) m).1

/-- **The rolling fingerprint is the residue of the window exactly when the
window's length in bits is an `int`.** -/
theorem rabin_window_iff (poly : BitVec 64) (hpoly : poly.getLsbD 63 = true) (W : ℕ) (hW : 1 ≤ W)
    (ms : List UInt8) (m : UInt8) : RollsResidue poly W ms m ↔ W < 2 ^ 28 := by
  constructor
  · rintro ⟨s₀, h0, -⟩
    by_contra hge
    rw [rabinInit_overflow hpoly (not_lt.1 hge)] at h0
    cases h0
  · intro h28
    obtain ⟨s₀, h0, hok⟩ := rabinInit_ok hpoly hW h28
    have hs : ∀ ms, RabinOK poly W ms (rabinSlides s₀ ms) := fun ms => hok.slides hpoly ms
    have hms := hs ms
    have hm := hms.slide8 hpoly m
    refine ⟨s₀, h0, ?_, UInt8.toNat_lt _, shift55_lt hms.top, ?_, ?_, ?_⟩
    · rw [hms.buf_length]; exact hms.bufptr_lt
    · rw [rabinSlide8_fst]; exact hm.eq_mod hpoly
    · rw [rabinSlide8_fst]; exact hm.top
    · intro ms' m' hb
      rw [rabinSlide8_fst, rabinSlide8_fst]
      exact ((hs ms').slide8 hpoly m').congr hpoly hm hb

/-- The scanner's polynomial and window. -/
theorem rabin_window_scanner : RollsResidue rabinPoly 48 [0x64, 0x65] 0x66 ↔ 48 < 2 ^ 28 :=
  rabin_window_iff rabinPoly (by decide) 48 (by omega) [0x64, 0x65] 0x66

/-- A window of `2 ^ 28` bytes, `2 ^ 31` bits. -/
theorem rabin_window_overflow : ¬ RollsResidue rabinPoly (2 ^ 28) [] 0 := by
  rintro ⟨s₀, h0, -⟩
  rw [rabinInit_overflow (by decide) le_rfl] at h0
  cases h0

end DedupSim
