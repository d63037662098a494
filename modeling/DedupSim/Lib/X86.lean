import DedupSim.Lib.Memory

/-!
# A part of the x86 instruction set

Registers of `w` bits, which is 32 or 64; of the flags only the carry, which is all that
`jae` reads. Operands stand in the order of the AT&T syntax, the source first, and jumps
go forward.

* `Instr.step`, `run`: one instruction, and a routine up to its `ret`.
* `toNat_disp`, `toNat_index`: addresses that do not wrap around.
* `shr_append`, `shld_append`: **shifts of a word that two registers hold.**
-/

namespace DedupSim.X86

inductive Reg where
  | ax | bx | cx | dx | si | di | bp | sp
deriving DecidableEq

/-- `disp(base)` or `disp(base,index,scale)`. -/
structure Mem where
  disp : ℕ
  base : Reg
  index : Option (Reg × ℕ) := none
deriving DecidableEq

inductive Operand (w : ℕ) where
  | imm (v : BitVec w)
  | reg (r : Reg)
  | mem (a : Mem)
deriving DecidableEq

inductive Op where
  | add | sub | and | or | xor
deriving DecidableEq

inductive Instr (w : ℕ) where
  | mov (src : Operand w) (dst : Reg)
  /-- `mov` to memory. -/
  | movm (src : Reg) (dst : Mem)
  /-- `movb` to memory, from the low byte. -/
  | movb (src : Reg) (dst : Mem)
  /-- `movzb` from memory. -/
  | movzbm (src : Mem) (dst : Reg)
  /-- `movzb` from the low byte of a register. -/
  | movzbr (src dst : Reg)
  /-- `movsl` from memory. -/
  | movsl (src : Mem) (dst : Reg)
  | dec (dst : Reg)
  | alu (op : Op) (src : Operand w) (dst : Reg)
  | cmp (src : Operand w) (dst : Reg)
  | shr (n : ℕ) (dst : Reg)
  /-- `sal`. -/
  | shl (n : ℕ) (dst : Reg)
  | shld (n : ℕ) (src dst : Reg)
  | jae (l : ℕ)
  | label (l : ℕ)
  | ret
deriving DecidableEq

structure Machine (w : ℕ) where
  reg : Reg → BitVec w
  cf : Bool
  mem : Memory

variable {w : ℕ}

namespace Machine

def setReg (m : Machine w) (r : Reg) (v : BitVec w) : Machine w :=
  { m with reg := fun r' => if r' = r then v else m.reg r' }

def setCf (m : Machine w) (c : Bool) : Machine w := { m with cf := c }

def setMem (m : Machine w) (M : Memory) : Machine w := { m with mem := M }

/-- The address of a memory operand. -/
def ea (m : Machine w) (a : Mem) : ℕ :=
  let base := m.reg a.base + BitVec.ofNat w a.disp
  match a.index with
  | none => base.toNat
  | some (r, scale) => (base + m.reg r * BitVec.ofNat w scale).toNat

def get (m : Machine w) : Operand w → BitVec w
  | .imm v => v
  | .reg r => m.reg r
  | .mem a => m.mem.load w (m.ea a)

section Simp

variable (m : Machine w) (r r' : Reg) (v : BitVec w) (c : Bool) (M : Memory) (a : Mem)

@[simp] theorem reg_setReg : (m.setReg r v).reg r' = if r' = r then v else m.reg r' := rfl
@[simp] theorem reg_setCf : (m.setCf c).reg = m.reg := rfl
@[simp] theorem reg_setMem : (m.setMem M).reg = m.reg := rfl
@[simp] theorem mem_setReg : (m.setReg r v).mem = m.mem := rfl
@[simp] theorem mem_setCf : (m.setCf c).mem = m.mem := rfl
@[simp] theorem mem_setMem : (m.setMem M).mem = M := rfl
@[simp] theorem cf_setCf : (m.setCf c).cf = c := rfl

@[simp] theorem get_imm : m.get (.imm v) = v := rfl
@[simp] theorem get_reg : m.get (.reg r) = m.reg r := rfl
@[simp] theorem get_mem : m.get (.mem a) = m.mem.load w (m.ea a) := rfl

end Simp

end Machine

/-! ## Execution -/

/-- The result and the carry. -/
def Op.eval (op : Op) (src dst : BitVec w) : BitVec w × Bool :=
  match op with
  | .add => (dst + src, decide (2 ^ w ≤ dst.toNat + src.toNat))
  | .sub => (dst - src, decide (dst.toNat < src.toNat))
  | .and => (dst &&& src, false)
  | .or => (dst ||| src, false)
  | .xor => (dst ^^^ src, false)

/-- An instruction that is not a jump. -/
def Instr.step (i : Instr w) (m : Machine w) : Machine w :=
  match i with
  | .mov src dst => m.setReg dst (m.get src)
  | .movm src dst => m.setMem (m.mem.store (m.ea dst) (m.reg src))
  | .movb src dst => m.setMem (m.mem.write (m.ea dst) [UInt8.ofBitVec ((m.reg src).setWidth 8)])
  | .movzbm src dst => m.setReg dst (BitVec.ofNat w (m.mem (m.ea src)).toNat)
  | .movzbr src dst => m.setReg dst (((m.reg src).setWidth 8).setWidth w)
  | .movsl src dst => m.setReg dst ((m.mem.load 32 (m.ea src)).signExtend w)
  | .dec dst => m.setReg dst (m.reg dst - 1)  -- the carry stays
  | .alu op src dst =>
    let r := op.eval (m.get src) (m.reg dst)
    (m.setReg dst r.1).setCf r.2
  | .cmp src dst => m.setCf (Op.sub.eval (m.get src) (m.reg dst)).2
  | .shr n dst => (m.setReg dst (m.reg dst >>> n)).setCf ((m.reg dst).getLsbD (n - 1))
  | .shl n dst => (m.setReg dst (m.reg dst <<< n)).setCf ((m.reg dst).getLsbD (w - n))
  | .shld n src dst =>
    (m.setReg dst ((m.reg dst <<< n) ||| (m.reg src >>> (w - n)))).setCf
      ((m.reg dst).getLsbD (w - n))
  | .jae _ => m
  | .label _ => m
  | .ret => m

/-- A routine up to its `ret`; after a jump, what stands before the label is passed over. -/
def run : List (Instr w) → Option ℕ → Machine w → Option (Machine w)
  | [], _, _ => none
  | i :: code, some l, m => run code (if i = .label l then none else some l) m
  | .ret :: _, none, m => some m
  | .jae l :: code, none, m => run code (if m.cf then none else some l) m
  | i :: code, none, m => run code none (i.step m)

/-! ## Addresses -/

theorem toNat_ofNat_lt {n : ℕ} (h : n < 2 ^ w) : (BitVec.ofNat w n).toNat = n := by
  rw [BitVec.toNat_ofNat, Nat.mod_eq_of_lt h]

/-- `disp(base)`, if it does not wrap around. -/
theorem toNat_disp {s d : ℕ} (h : s + d < 2 ^ w) :
    (BitVec.ofNat w s + BitVec.ofNat w d).toNat = s + d := by
  rw [← BitVec.ofNat_add, toNat_ofNat_lt h]

/-- `disp(base,index,scale)`. -/
theorem toNat_index {s d scale : ℕ} {x : BitVec w} (h : s + d + scale * x.toNat < 2 ^ w) :
    (BitVec.ofNat w s + BitVec.ofNat w d + x * BitVec.ofNat w scale).toNat =
      s + d + scale * x.toNat := by
  have hx : x * BitVec.ofNat w scale = BitVec.ofNat w (scale * x.toNat) := by
    rw [Nat.mul_comm, BitVec.ofNat_mul, BitVec.ofNat_toNat, BitVec.setWidth_eq]
  rw [hx, ← BitVec.ofNat_add, toNat_disp h]

theorem ofNat_sub {n k : ℕ} (h : k ≤ n) :
    BitVec.ofNat w n - BitVec.ofNat w k = BitVec.ofNat w (n - k) := by
  obtain ⟨d, rfl⟩ := Nat.exists_eq_add_of_le' h
  rw [BitVec.ofNat_add, Nat.add_sub_cancel]
  exact BitVec.add_sub_cancel _ _

/-- The sign extension of an `int` that is not negative. -/
theorem signExtend_ofNat {n : ℕ} (h : n < 2 ^ 31) :
    (BitVec.ofNat 32 n).signExtend w = BitVec.ofNat w n := by
  have h32 : (BitVec.ofNat 32 n).toNat = n := toNat_ofNat_lt (by omega)
  have hmsb : (BitVec.ofNat 32 n).msb = false := by
    rw [BitVec.msb_eq_false_iff_two_mul_lt, h32]
    omega
  rw [BitVec.signExtend_eq_setWidth_of_msb_false hmsb]
  apply BitVec.eq_of_toNat_eq
  rw [BitVec.toNat_setWidth, h32, BitVec.toNat_ofNat]

/-! ## Two registers for one word -/

section Pair

variable (high lo : BitVec w) {n : ℕ}

/-- `shr` of the high register. -/
theorem shr_append : (high >>> n).toNat = ((high ++ lo) >>> (w + n)).toNat := by
  rw [BitVec.toNat_ushiftRight, BitVec.toNat_ushiftRight, Memory.toNat_append,
    Nat.shiftRight_eq_div_pow, Nat.shiftRight_eq_div_pow, pow_add, ← Nat.div_div_eq_div_mul,
    Nat.add_mul_div_left _ _ (Nat.two_pow_pos w), Nat.div_eq_of_lt lo.isLt, Nat.zero_add]

/-- **`shld` and `sal` shift the word.** -/
theorem shld_append (h : n ≤ w) :
    ((high <<< n) ||| (lo >>> (w - n))) ++ (lo <<< n) = (high ++ lo) <<< n := by
  apply BitVec.eq_of_getLsbD_eq
  intro i hi
  simp only [BitVec.getLsbD_append, BitVec.getLsbD_shiftLeft, BitVec.getLsbD_or,
    BitVec.getLsbD_ushiftRight]
  rcases Nat.lt_or_ge i w with hlow | hhigh
  · -- a bit of the low register
    have hsub : i - n < w := by omega
    simp only [hlow, hsub, hi, if_true]
  · obtain ⟨k, rfl⟩ := Nat.exists_eq_add_of_le hhigh
    have hk : k < w := by omega
    rcases Nat.lt_or_ge k n with hn | hn
    · -- a bit that moved over
      have hmoved : w + k - n < w := by omega
      have hsum : w - n + k = w + k - n := by omega
      have hge : ¬ w + k < n := by omega
      simp [hn, hmoved, hsum, hge, hi]
    · have hmoved : ¬ w + k - n < w := by omega
      have hout : w ≤ w - n + k := by omega
      have hsum : w + k - n - w = k - n := by omega
      have hge : ¬ w + k < n := by omega
      simp [Nat.not_lt.2 hn, hmoved, hsum, hge, hi, hk, BitVec.getLsbD_of_ge _ _ hout]

end Pair

end DedupSim.X86
