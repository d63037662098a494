import DedupSim.Lib.LittleEndian
import Mathlib.Data.List.GetD

/-!
# Byte memory

* `read`, `write`: bytes in a row; `load`, `store`: little-endian words.
* `load_store`, `load_write_apart`: **a word is read back, and a write elsewhere leaves it.**
* `load_append`, `store_append`: a word of two halves.
-/

namespace DedupSim

open LittleEndian

/-- A memory: the byte at each address. -/
abbrev Memory : Type := ℕ → UInt8

namespace Memory

variable {M M' : Memory} {a b n v : ℕ} {bs : List UInt8}

/-- The `n` bytes from `a` on. -/
def read (M : Memory) (a n : ℕ) : List UInt8 := (List.range n).map fun i => M (a + i)

/-- `bs` from `a` on. -/
def write (M : Memory) (a : ℕ) (bs : List UInt8) : Memory := fun x =>
  if a ≤ x then bs.getD (x - a) (M x) else M x

/-- The word of `v` bits at `a`. -/
def load (M : Memory) (v a : ℕ) : BitVec v := BitVec.ofNat v (leNat (M.read a (v / 8)))

/-- The word `x` at `a`. -/
def store (M : Memory) (a : ℕ) (x : BitVec v) : Memory := M.write a (leBytes (v / 8) x.toNat)

/-! ## Bytes -/

@[simp] theorem length_read (M : Memory) (a n : ℕ) : (M.read a n).length = n := by
  unfold read
  rw [List.length_map, List.length_range]

theorem getElem?_read (M : Memory) (a : ℕ) {i : ℕ} (h : i < n) :
    (M.read a n)[i]? = some (M (a + i)) := by
  unfold read
  rw [List.getElem?_map, List.getElem?_range h]
  rfl

theorem read_congr (h : ∀ x, a ≤ x → x < a + n → M x = M' x) : M.read a n = M'.read a n := by
  apply List.map_congr_left
  intro i hi
  exact h (a + i) (by omega) (by have := List.mem_range.1 hi; omega)

theorem read_add (M : Memory) (a m n : ℕ) :
    M.read a (m + n) = M.read a m ++ M.read (a + m) n := by
  unfold read
  rw [List.range_add, List.map_append, List.map_map]
  congr 1
  apply List.map_congr_left
  intro i _
  change M (a + (m + i)) = M (a + m + i)
  rw [Nat.add_assoc]

/-- What is outside is as before. -/
theorem write_apart {x : ℕ} (h : x < a ∨ a + bs.length ≤ x) : M.write a bs x = M x := by
  unfold write
  split
  · exact List.getD_eq_default _ _ (by omega)
  · rfl

theorem write_inside {i : ℕ} (h : i < bs.length) : M.write a bs (a + i) = bs[i] := by
  unfold write
  rw [if_pos (by omega), Nat.add_sub_cancel_left, List.getD_eq_getElem]

theorem read_write (M : Memory) (a : ℕ) (bs : List UInt8) :
    (M.write a bs).read a bs.length = bs := by
  apply List.ext_getElem?
  intro i
  rcases Nat.lt_or_ge i bs.length with hi | hi
  · rw [getElem?_read _ _ hi, write_inside hi, List.getElem?_eq_getElem]
  · rw [List.getElem?_eq_none (by rwa [length_read]), List.getElem?_eq_none hi]

/-- **A write elsewhere leaves the bytes.** -/
theorem read_write_apart (h : a + n ≤ b ∨ b + bs.length ≤ a) :
    (M.write b bs).read a n = M.read a n :=
  read_congr fun _ _ _ => write_apart (by omega)

theorem write_append (M : Memory) (a : ℕ) (bs bs' : List UInt8) :
    (M.write a bs).write (a + bs.length) bs' = M.write a (bs ++ bs') := by
  funext x
  rcases Nat.lt_or_ge x (a + bs.length) with h | h
  · rw [write_apart (.inl h)]
    rcases Nat.lt_or_ge x a with ha | ha
    · rw [write_apart (.inl ha), write_apart (.inl ha)]
    · obtain ⟨i, rfl⟩ := Nat.exists_eq_add_of_le ha
      have hi : i < bs.length := by omega
      rw [write_inside hi, write_inside (by rw [List.length_append]; omega),
        List.getElem_append_left hi]
  · obtain ⟨i, rfl⟩ := Nat.exists_eq_add_of_le h
    rcases Nat.lt_or_ge i bs'.length with hi | hi
    · rw [write_inside hi, Nat.add_assoc, write_inside (by rw [List.length_append]; omega),
        List.getElem_append_right (by omega)]
      simp only [Nat.add_sub_cancel_left]
    · rw [write_apart (by omega), write_apart (by omega),
        write_apart (by rw [List.length_append]; omega)]

/-- One byte of a row. -/
theorem read_write_one {i : ℕ} (c : UInt8) (h : i < n) :
    (M.write (a + i) [c]).read a n = (M.read a n).set i c := by
  apply List.ext_getElem?
  intro j
  rcases Nat.lt_or_ge j n with hj | hj
  · rw [getElem?_read _ _ hj, List.getElem?_set, length_read, getElem?_read _ _ hj, if_pos h]
    split
    · rename_i heq
      subst heq
      have hone : 0 < [c].length := Nat.one_pos
      exact congrArg some (write_inside hone)
    · rw [write_apart]
      rw [List.length_singleton]
      omega
  · rw [List.getElem?_eq_none (by rwa [length_read]),
      List.getElem?_eq_none (by rwa [List.length_set, length_read])]

/-! ## Words -/

theorem load_congr (h : ∀ x, a ≤ x → x < a + v / 8 → M x = M' x) : M.load v a = M'.load v a := by
  unfold load
  rw [read_congr h]

theorem pow_bytes (hv : v / 8 * 8 = v) : 256 ^ (v / 8) = 2 ^ v := by
  rw [show 256 = 2 ^ 8 from rfl, ← pow_mul, Nat.mul_comm, hv]

theorem toNat_load (M : Memory) (a : ℕ) (hv : v / 8 * 8 = v) :
    (M.load v a).toNat = leNat (M.read a (v / 8)) := by
  have hlt := leNat_lt (M.read a (v / 8))
  rw [length_read, pow_bytes hv] at hlt
  unfold load
  rw [BitVec.toNat_ofNat, Nat.mod_eq_of_lt hlt]

/-- **A word is read back.** -/
theorem load_store (M : Memory) (a : ℕ) {x : BitVec v} (hv : v / 8 * 8 = v) :
    (M.store a x).load v a = x := by
  have hread := read_write M a (leBytes (v / 8) x.toNat)
  rw [length_leBytes] at hread
  unfold load store
  rw [hread, leNat_leBytes (by rw [pow_bytes hv]; exact x.isLt), BitVec.ofNat_toNat,
    BitVec.setWidth_eq]

theorem load_write_apart (h : a + v / 8 ≤ b ∨ b + bs.length ≤ a) :
    (M.write b bs).load v a = M.load v a := by
  unfold load
  rw [read_write_apart h]

/-- **A word elsewhere is as before.** -/
theorem load_store_apart {u : ℕ} {x : BitVec u} (h : a + v / 8 ≤ b ∨ b + u / 8 ≤ a) :
    (M.store b x).load v a = M.load v a :=
  load_write_apart (by rwa [length_leBytes])

theorem store_apart {u x : ℕ} {y : BitVec u} (h : x < a ∨ a + u / 8 ≤ x) : M.store a y x = M x :=
  write_apart (by rwa [length_leBytes])

/-- The second write stays. -/
theorem store_store (M : Memory) (a : ℕ) (x y : BitVec v) :
    (M.store a x).store a y = M.store a y := by
  funext p
  rcases Nat.lt_or_ge p a with h | h
  · rw [store_apart (.inl h), store_apart (.inl h), store_apart (.inl h)]
  rcases Nat.lt_or_ge p (a + v / 8) with h' | h'
  · obtain ⟨i, rfl⟩ := Nat.exists_eq_add_of_le h
    have hi : ∀ z : BitVec v, i < (leBytes (v / 8) z.toNat).length := by
      intro z
      rw [length_leBytes]
      omega
    unfold store
    rw [write_inside (hi y), write_inside (hi y)]
  · rw [store_apart (.inr h'), store_apart (.inr h'), store_apart (.inr h')]

/-! ## Halves -/

section Halves

variable {u : ℕ} (x : BitVec v) (y : BitVec u)

theorem toNat_append : (x ++ y).toNat = y.toNat + 2 ^ u * x.toNat := by
  rw [BitVec.toNat_append, ← Nat.shiftLeft_add_eq_or_of_lt y.isLt, Nat.shiftLeft_eq]
  ring

/-- **A word is its two halves**, the low one first. -/
theorem load_append (M : Memory) (a : ℕ) (hu : u / 8 * 8 = u) (hv : v / 8 * 8 = v) :
    M.load v (a + u / 8) ++ M.load u a = M.load (v + u) a := by
  have hsum : (v + u) / 8 = u / 8 + v / 8 := by omega
  apply BitVec.eq_of_toNat_eq
  rw [toNat_append, toNat_load _ _ hu, toNat_load _ _ hv, toNat_load _ _ (by omega), hsum,
    read_add, leNat_append, length_read, pow_bytes hu]

theorem store_append (M : Memory) (a : ℕ) (hu : u / 8 * 8 = u) :
    (M.store a y).store (a + u / 8) x = M.store a (x ++ y) := by
  have hsum : (v + u) / 8 = u / 8 + v / 8 := by omega
  have hlow : leBytes (u / 8) (x ++ y).toNat = leBytes (u / 8) y.toNat := by
    rw [← leBytes_mod, toNat_append, pow_bytes hu, Nat.add_mul_mod_self_left,
      Nat.mod_eq_of_lt y.isLt]
  have hhigh : (x ++ y).toNat / 256 ^ (u / 8) = x.toNat := by
    rw [toNat_append, pow_bytes hu, Nat.add_mul_div_left _ _ (Nat.two_pow_pos u),
      Nat.div_eq_of_lt y.isLt, Nat.zero_add]
  have happend := write_append M a (leBytes (u / 8) y.toNat) (leBytes (v / 8) x.toNat)
  rw [length_leBytes] at happend
  unfold store
  rw [hsum, leBytes_add, hlow, hhigh, happend]

end Halves

end Memory

end DedupSim
