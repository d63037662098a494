import Mathlib.Data.List.Basic
import Mathlib.Algebra.Order.Ring.Nat
import Mathlib.Tactic.Ring

/-!
# Little-endian words in byte strings

* `leBytes w n`: the `w` bytes of `n`, least significant first; `leNat`: back.
* `leNat_leBytes`, `leBytes_leNat`: the two are inverse below `256 ^ w`.
-/

namespace DedupSim.LittleEndian

/-- The `w` low bytes of `n`, least significant first. -/
def leBytes : ℕ → ℕ → List UInt8
  | 0, _ => []
  | w + 1, n => UInt8.ofNat n :: leBytes w (n / 256)

/-- The value of a byte string, least significant byte first. -/
def leNat : List UInt8 → ℕ
  | [] => 0
  | b :: bs => b.toNat + 256 * leNat bs

@[simp] theorem length_leBytes (w n : ℕ) : (leBytes w n).length = w := by
  induction w generalizing n with
  | zero => rfl
  | succ w ih => simp [leBytes, ih]

/-- Reading back what was written keeps the low `w` bytes. -/
theorem leNat_leBytes_mod (w n : ℕ) : leNat (leBytes w n) = n % 256 ^ w := by
  induction w generalizing n with
  | zero => simp [leBytes, leNat, Nat.mod_one]
  | succ w ih =>
    have hb : (UInt8.ofNat n).toNat = n % 256 := by simp [UInt8.toNat_ofNat']
    unfold leBytes
    unfold leNat
    rw [ih, hb, pow_succ', Nat.mod_mul]

theorem leNat_leBytes {w n : ℕ} (hn : n < 256 ^ w) : leNat (leBytes w n) = n := by
  rw [leNat_leBytes_mod, Nat.mod_eq_of_lt hn]

theorem leNat_lt (l : List UInt8) : leNat l < 256 ^ l.length := by
  induction l with
  | nil => simp [leNat]
  | cons b bs ih =>
    have := b.toNat_lt
    unfold leNat
    rw [List.length_cons, pow_succ]
    omega

theorem leBytes_leNat (l : List UInt8) : leBytes l.length (leNat l) = l := by
  induction l with
  | nil => rfl
  | cons b bs ih =>
    have hb := b.toNat_lt
    rw [List.length_cons, leBytes, leNat]
    congr 1
    · apply UInt8.toNat_inj.1
      rw [UInt8.toNat_ofNat']
      omega
    · rw [show (b.toNat + 256 * leNat bs) / 256 = leNat bs by omega, ih]

/-! ## Words one after another -/

theorem leNat_append (l l' : List UInt8) :
    leNat (l ++ l') = leNat l + 256 ^ l.length * leNat l' := by
  induction l with
  | nil => rw [List.nil_append, List.length_nil, pow_zero, one_mul, leNat, zero_add]
  | cons b l ih =>
    rw [List.cons_append, leNat, leNat, ih, List.length_cons, pow_succ']
    ring

theorem leBytes_add (m w n : ℕ) : leBytes (m + w) n = leBytes m n ++ leBytes w (n / 256 ^ m) := by
  induction m generalizing n with
  | zero => rw [Nat.zero_add, pow_zero, Nat.div_one, leBytes, List.nil_append]
  | succ m ih =>
    rw [Nat.succ_add, leBytes, leBytes, ih, List.cons_append, pow_succ', Nat.div_div_eq_div_mul]

theorem leBytes_mod (w n : ℕ) : leBytes w (n % 256 ^ w) = leBytes w n := by
  rw [← leNat_leBytes_mod]
  have h := leBytes_leNat (leBytes w n)
  rwa [length_leBytes] at h

end DedupSim.LittleEndian
