import DedupSim.Spec.RabinAsm

/-!
# The assembly fingerprint step is the one in C

* `slideMem`, `InMemory.slide`: the step on a memory that holds the state.
* `X64.run_rabinSlide8Asm`, `I386.run_rabinSlide8Asm`: the routines, from one part of the
  code to the next.
* `X64.calls_slides`, `I386.calls_slides`: calls for the bytes of a file.
* `rabinSlide8Asm_exact`: **both return the value of the step, leave its state and write
  nothing else.**
-/

namespace DedupSim

open X86

variable {w s b : ℕ} {M M' : Memory} {st : RabinState} {c : UInt8}

/-! ## The state in memory -/

/-- The fields one after another. -/
structure Layout.Ordered (w : ℕ) : Prop where
  bytes : w / 8 * 8 = w
  oldRinging : Layout.oldRinging = 0
  newRinging : Layout.newRinging = 2048
  fingerprint : Layout.fingerprint = 4096
  size : Layout.size = 4104
  bufptr : 4108 ≤ Layout.bufptr w
  buf : Layout.bufptr w + w / 8 = Layout.buf w
  poly : Layout.buf w + w / 8 ≤ Layout.poly w
  sizeof : Layout.poly w + 8 = Layout.sizeof w

theorem Layout.ordered (hw : w = 32 ∨ w = 64) : Layout.Ordered w := by
  rcases hw with rfl | rfl <;> constructor <;> decide

namespace InMemory

/-- A write to neither the structure nor the buffer. -/
theorem frame (hw : Layout.Ordered w) (h : InMemory w M s b st)
    (hs : ∀ x, s ≤ x → x < s + Layout.sizeof w → M' x = M x)
    (hb : ∀ x, b ≤ x → x < b + st.size → M' x = M x) : InMemory w M' s b st := by
  obtain ⟨-, h0, h1, h2, h3, h4, h5, h6, h7⟩ := hw
  have hload : ∀ v a, s ≤ a → a + v / 8 ≤ s + Layout.sizeof w → M'.load v a = M.load v a := by
    intro v a _ _
    exact Memory.load_congr fun x _ _ => hs x (by omega) (by omega)
  exact { h with
    oldRinging := fun i hi => (hload _ _ (by omega) (by omega)).trans (h.oldRinging i hi)
    newRinging := fun i hi => (hload _ _ (by omega) (by omega)).trans (h.newRinging i hi)
    fingerprint := (hload _ _ (by omega) (by omega)).trans h.fingerprint
    size := (hload _ _ (by omega) (by omega)).trans h.size
    bufptr := (hload _ _ (by omega) (by omega)).trans h.bufptr
    buf := (hload _ _ (by omega) (by omega)).trans h.buf
    poly := (hload _ _ (by omega) (by omega)).trans h.poly
    bytes := (Memory.read_congr hb).trans h.bytes }

end InMemory

/-- The memory after the step of `Rabin.lean`. -/
def slideMem (w : ℕ) (M : Memory) (s b : ℕ) (st : RabinState) (c : UInt8) : Memory :=
  ((M.write (b + st.bufptr) [c]).store (s + Layout.bufptr w)
    (BitVec.ofNat w (b + (rabinSlide8 st c).2.bufptr))).store (s + Layout.fingerprint)
      (rabinSlide8 st c).1

/-- **Only the fingerprint, `bufptr` and the byte at `bufptr` change.** -/
theorem slideMem_apart (M : Memory) {x : ℕ} (hbyte : x ≠ b + st.bufptr)
    (hptr : x < s + Layout.bufptr w ∨ s + Layout.bufptr w + w / 8 ≤ x)
    (hfp : x < s + Layout.fingerprint ∨ s + Layout.fingerprint + 8 ≤ x) :
    slideMem w M s b st c x = M x := by
  unfold slideMem
  rw [Memory.store_apart hfp, Memory.store_apart hptr, Memory.write_apart]
  rw [List.length_singleton]
  omega

/-- **The state after the step.** -/
theorem InMemory.slide (hw : Layout.Ordered w) (h : InMemory w M s b st)
    (hptr : st.bufptr < st.size) (c : UInt8) :
    InMemory w (slideMem w M s b st c) s b (rabinSlide8 st c).2 := by
  obtain ⟨hbytes, h0, h1, h2, h3, h4, h5, h6, h7⟩ := hw
  have hapart := h.apart
  have hload : ∀ v a, s ≤ a → a + v / 8 ≤ s + Layout.sizeof w →
      (a + v / 8 ≤ s + Layout.fingerprint ∨ s + Layout.size ≤ a) →
      (a + v / 8 ≤ s + Layout.bufptr w ∨ s + Layout.buf w ≤ a) →
      (slideMem w M s b st c).load v a = M.load v a := by
    intro v a _ _ _ _
    apply Memory.load_congr
    intro x _ _
    exact slideMem_apart M (by omega) (by omega) (by omega)
  exact { h with
    oldRinging := fun i hi =>
      (hload _ _ (by omega) (by omega) (by omega) (by omega)).trans (h.oldRinging i hi)
    newRinging := fun i hi =>
      (hload _ _ (by omega) (by omega) (by omega) (by omega)).trans (h.newRinging i hi)
    fingerprint := Memory.load_store _ _ rfl
    size := (hload _ _ (by omega) (by omega) (by omega) (by omega)).trans h.size
    bufptr := (Memory.load_store_apart (by omega)).trans (Memory.load_store _ _ hbytes)
    buf := (hload _ _ (by omega) (by omega) (by omega) (by omega)).trans h.buf
    poly := (hload _ _ (by omega) (by omega) (by omega) (by omega)).trans h.poly
    bytes := by
      change (slideMem w M s b st c).read b st.size = st.buf.set st.bufptr c
      rw [← h.bytes, ← Memory.read_write_one c hptr]
      apply Memory.read_congr
      intro x _ _
      unfold slideMem
      rw [Memory.store_apart (by omega), Memory.store_apart (by omega)] }

/-- The byte that slides out. -/
theorem InMemory.oldByte (h : InMemory w M s b st) (hptr : st.bufptr < st.size) :
    M (b + st.bufptr) = st.buf.getD st.bufptr 0 := by
  rw [← h.bytes, List.getD_eq_getElem?_getD, Memory.getElem?_read _ _ hptr]
  rfl

/-- The structure stays where the buffer is written. -/
theorem InMemory.load_byte (h : InMemory w M s b st) (hptr : st.bufptr < st.size) {v d : ℕ}
    (hd : d + v / 8 ≤ Layout.sizeof w) :
    (M.write (b + st.bufptr) [c]).load v (s + d) = M.load v (s + d) := by
  have hapart := h.apart
  apply Memory.load_write_apart
  rw [List.length_singleton]
  omega

/-- At the start of the window `bufptr` falls below the buffer, and comes back to its end. -/
theorem bufptr_wrap (hz : st.bufptr = 0) (hb : 0 < b) (hsize : 0 < st.size) :
    b + st.bufptr - 1 < b ∧ BitVec.ofNat w (b + st.bufptr - 1) + BitVec.ofNat w st.size =
      BitVec.ofNat w (b + (rabinSlide8 st c).2.bufptr) := by
  have hnew : (rabinSlide8 st c).2.bufptr = st.bufptr + st.size - 1 := if_pos (by omega)
  have hsum : b + st.bufptr - 1 + st.size = b + (st.bufptr + st.size - 1) := by omega
  refine ⟨by omega, ?_⟩
  rw [hnew, ← BitVec.ofNat_add, hsum]

theorem bufptr_dec (hz : 0 < st.bufptr) :
    ¬ b + st.bufptr - 1 < b ∧ b + st.bufptr - 1 = b + (rabinSlide8 st c).2.bufptr := by
  have hnew : (rabinSlide8 st c).2.bufptr = st.bufptr - 1 := if_neg (by omega)
  rw [hnew]
  omega

/-! ## x86_64 -/

namespace X64

variable {m : Machine 64}

/-- Up to `L2`, `bufptr` is moved in `rdx`. -/
theorem run_slideBuffer (h : Call m s b st c) (hptr : st.bufptr < st.size)
    (code : List (Instr 64)) :
    ∃ m', run (slideBuffer ++ .jae 2 :: wrap ++ .label 2 :: code) none m = run code none m' ∧
      m'.reg .ax = BitVec.ofNat 64 (st.buf.getD st.bufptr 0).toNat ∧
      m'.reg .dx = BitVec.ofNat 64 (b + (rabinSlide8 st c).2.bufptr) ∧
      m'.mem = m.mem.write (b + st.bufptr) [c] ∧
      ∀ r, r ≠ .ax → r ≠ .cx → r ≠ .dx → m'.reg r = m.reg r := by
  have hroom : s + 4136 ≤ 2 ^ 64 := h.state.room
  have hend := h.state.bufRoom
  have hpos := h.state.pos
  have hsize : m.mem.load 32 (s + 4104) = BitVec.ofNat 32 st.size := h.state.size
  have hbufptr : m.mem.load 64 (s + 4112) = BitVec.ofNat 64 (b + st.bufptr) := h.state.bufptr
  have hbuf : m.mem.load 64 (s + 4120) = BitVec.ofNat 64 b := h.state.buf
  have hbyte : UInt8.ofBitVec ((m.reg .si).setWidth 8) = c := by
    rw [h.si, BitVec.setWidth_ofNat_of_le (by decide)]
    exact congrArg UInt8.ofBitVec ((BitVec.ofNat_toNat 8 _).trans (BitVec.setWidth_eq _))
  have hdec : BitVec.ofNat 64 (b + st.bufptr) - 1 = BitVec.ofNat 64 (b + st.bufptr - 1) :=
    ofNat_sub (k := 1) (by omega)
  have hload : ∀ v d, d + v / 8 ≤ 4136 →
      (m.mem.write (b + st.bufptr) [c]).load v (s + d) = m.mem.load v (s + d) :=
    fun v d hd => h.state.load_byte hptr hd
  simp (disch := omega) only [slideBuffer, List.cons_append, List.nil_append, run, Instr.step,
    Machine.get_mem, Machine.ea, Machine.reg_setReg, Machine.reg_setMem, Machine.mem_setReg,
    Machine.mem_setMem, Machine.cf_setCf, if_true, if_false, h.di, bufptr, buf, toNat_disp,
    toNat_ofNat_lt, hbufptr, hbyte, hdec, hload, hbuf, h.state.oldByte hptr, BitVec.add_zero,
    Op.eval, reduceCtorEq]
  rcases Nat.eq_zero_or_pos st.bufptr with hz | hz
  · obtain ⟨hlt, hsum⟩ := bufptr_wrap (w := 64) (c := c) hz hpos (by omega)
    simp (disch := omega) only [wrap, List.cons_append, List.nil_append, run, Instr.step,
      Machine.ea, Machine.get_reg, Machine.reg_setReg, Machine.reg_setMem, Machine.reg_setCf,
      Machine.mem_setReg, Machine.mem_setCf, Machine.mem_setMem, hlt, decide_true, if_true,
      if_false, h.di, size, toNat_disp, hsize, hload, hsum, signExtend_ofNat h.state.int, Op.eval,
      reduceCtorEq]
    refine ⟨_, rfl, rfl, rfl, rfl, ?_⟩
    intro r hax hcx hdx
    simp only [Machine.reg_setReg, Machine.reg_setMem, Machine.reg_setCf, if_neg hax, if_neg hcx,
      if_neg hdx]
  · obtain ⟨hge, hnew⟩ := bufptr_dec (c := c) (b := b) hz
    simp only [wrap, List.cons_append, List.nil_append, run, hge, decide_false, if_true, if_false,
      Bool.false_eq_true, reduceCtorEq]
    rw [hnew]
    refine ⟨_, rfl, rfl, rfl, rfl, ?_⟩
    intro r hax hcx hdx
    simp only [Machine.reg_setReg, Machine.reg_setMem, Machine.reg_setCf, if_neg hax, if_neg hdx]

/-- The residual in `rdx`. -/
theorem run_slideResidual {M : Memory} (h : InMemory 64 M s b st)
    (hfp : st.fingerprint.toNat < 2 ^ 63) (hdi : m.reg .di = BitVec.ofNat 64 s)
    (hax : m.reg .ax = BitVec.ofNat 64 (st.buf.getD st.bufptr 0).toNat)
    (hdx : m.reg .dx = BitVec.ofNat 64 (b + (rabinSlide8 st c).2.bufptr))
    (hptr : st.bufptr < st.size) (hmem : m.mem = M.write (b + st.bufptr) [c])
    (code : List (Instr 64)) :
    ∃ m', run (slideResidual ++ code) none m = run code none m' ∧
      m'.reg .ax = st.fingerprint ∧
      m'.reg .dx = st.oldRinging.getD (st.buf.getD st.bufptr 0).toNat 0 ^^^
        st.newRinging.getD (st.fingerprint >>> 55).toNat 0 ∧
      m'.mem = (M.write (b + st.bufptr) [c]).store (s + 4112)
        (BitVec.ofNat 64 (b + (rabinSlide8 st c).2.bufptr)) ∧
      ∀ r, r ≠ .ax → r ≠ .cx → r ≠ .dx → m'.reg r = m.reg r := by
  have hroom : s + 4136 ≤ 2 ^ 64 := h.room
  have hbyte : ∀ v d, d + v / 8 ≤ 4136 →
      (M.write (b + st.bufptr) [c]).load v (s + d) = M.load v (s + d) :=
    fun v d hd => h.load_byte hptr hd
  have hload : (M.write (b + st.bufptr) [c]).load 64 (s + 4096) = st.fingerprint :=
    (hbyte 64 4096 (by decide)).trans h.fingerprint
  have hold : ∀ x : BitVec 64, x.toNat < 256 →
      ((M.write (b + st.bufptr) [c]).store (s + 4112)
        (BitVec.ofNat 64 (b + (rabinSlide8 st c).2.bufptr))).load 64
          (BitVec.ofNat 64 s + 0#64 + x * 8#64).toNat = st.oldRinging.getD x.toNat 0 := by
    intro x hx
    rw [toNat_index (by omega), Nat.add_assoc, Memory.load_store_apart (.inl (by omega)),
      hbyte _ _ (by omega), ← Nat.add_assoc]
    exact h.oldRinging _ hx
  have hnew : ∀ x : BitVec 64, x.toNat < 256 →
      ((M.write (b + st.bufptr) [c]).store (s + 4112)
        (BitVec.ofNat 64 (b + (rabinSlide8 st c).2.bufptr))).load 64
          (BitVec.ofNat 64 s + 2048#64 + x * 8#64).toNat = st.newRinging.getD x.toNat 0 := by
    intro x hx
    rw [toNat_index (by omega), Nat.add_assoc, Memory.load_store_apart (.inl (by omega)),
      hbyte _ _ (by omega), ← Nat.add_assoc]
    exact h.newRinging _ hx
  have hom : (BitVec.ofNat 64 (st.buf.getD st.bufptr 0).toNat).toNat =
      (st.buf.getD st.bufptr 0).toNat :=
    toNat_ofNat_lt (by have := (st.buf.getD st.bufptr 0).toNat_lt; omega)
  have holdByte := (st.buf.getD st.bufptr 0).toNat_lt
  have hshift : (st.fingerprint >>> 55).toNat < 256 := by
    rw [BitVec.toNat_ushiftRight, Nat.shiftRight_eq_div_pow]
    omega
  simp (disch := omega) only [slideResidual, List.cons_append, List.nil_append, run, Instr.step,
    Machine.ea, Machine.get_reg, Machine.get_mem, Machine.reg_setReg, Machine.reg_setMem,
    Machine.reg_setCf, Machine.mem_setReg, Machine.mem_setCf, Machine.mem_setMem, if_true, if_false,
    hdi, hax, hdx, hmem, fingerprint, bufptr, oldRinging, newRinging, toNat_disp, hload, hold, hnew,
    hom, Op.eval, reduceCtorEq]
  refine ⟨_, rfl, rfl, rfl, rfl, ?_⟩
  intro r hax hcx hdx
  simp only [Machine.reg_setReg, Machine.reg_setMem, Machine.reg_setCf, if_neg hax, if_neg hcx,
    if_neg hdx]

/-- The fingerprint in `rax`. -/
theorem run_slideFingerprint (hroom : s + 4136 ≤ 2 ^ 64) (hdi : m.reg .di = BitVec.ofNat 64 s)
    (hsi : m.reg .si = BitVec.ofNat 64 c.toNat) :
    ∃ m', run (slideFingerprint ++ [.ret]) none m = some m' ∧
      m'.reg .ax =
        (((m.reg .ax <<< 8) ||| BitVec.ofNat 64 c.toNat) ^^^ m.reg .dx) &&& ~~~msb64 ∧
      m'.mem = m.mem.store (s + 4096) (m'.reg .ax) ∧
      ∀ r, r ≠ .ax → r ≠ .cx → r ≠ .dx → m'.reg r = m.reg r := by
  have hmask : (9223372036854775807 : BitVec 64) = ~~~msb64 := by decide
  simp (disch := omega) only [slideFingerprint, List.cons_append, List.nil_append, run, Instr.step,
    Machine.ea, Machine.get_reg, Machine.get_imm, Machine.reg_setReg, Machine.reg_setCf,
    Machine.mem_setReg, Machine.mem_setCf, if_true, if_false, hdi, hsi, fingerprint, toNat_disp,
    hmask, Op.eval, reduceCtorEq]
  refine ⟨_, rfl, rfl, rfl, ?_⟩
  intro r hax _ hdx
  simp only [Machine.reg_setReg, Machine.reg_setMem, Machine.reg_setCf, if_neg hax, if_neg hdx]

/-- **The routine for x86_64 is the step of `Rabin.lean`.** -/
theorem run_rabinSlide8Asm (h : Call m s b st c) (hptr : st.bufptr < st.size)
    (hfp : st.fingerprint.toNat < 2 ^ 63) :
    ∃ m', run rabinSlide8Asm none m = some m' ∧ m'.reg .ax = (rabinSlide8 st c).1 ∧
      m'.mem = slideMem 64 m.mem s b st c ∧
      ∀ r, r ≠ .ax → r ≠ .cx → r ≠ .dx → m'.reg r = m.reg r := by
  obtain ⟨m1, hrun1, hax1, hdx1, hmem1, hkeep1⟩ :=
    run_slideBuffer h hptr (slideResidual ++ (slideFingerprint ++ [.ret]))
  have hdi1 : m1.reg .di = BitVec.ofNat 64 s := (hkeep1 .di nofun nofun nofun).trans h.di
  have hsi1 : m1.reg .si = BitVec.ofNat 64 c.toNat := (hkeep1 .si nofun nofun nofun).trans h.si
  obtain ⟨m2, hrun2, hax2, hdx2, hmem2, hkeep2⟩ :=
    run_slideResidual h.state hfp hdi1 hax1 hdx1 hptr hmem1 (slideFingerprint ++ [.ret])
  obtain ⟨m3, hrun3, hax3, hmem3, hkeep3⟩ :=
    run_slideFingerprint (c := c) h.state.room ((hkeep2 .di nofun nofun nofun).trans hdi1)
      ((hkeep2 .si nofun nofun nofun).trans hsi1)
  have hvalue : m3.reg .ax = (rabinSlide8 st c).1 := by
    rw [hax3, hax2, hdx2]
    rfl
  refine ⟨m3, ?_, hvalue, ?_, ?_⟩
  · unfold rabinSlide8Asm
    rw [hrun1, hrun2, hrun3]
  · rw [hmem3, hmem2, hvalue]
    rfl
  · intro r hax hcx hdx
    rw [hkeep3 r hax hcx hdx, hkeep2 r hax hcx hdx, hkeep1 r hax hcx hdx]

end X64

/-! ## i386 -/

namespace I386

variable {m : Machine 32} {p : ℕ}

/-- The registers of the caller on the stack. -/
def saved (m : Machine 32) (p : ℕ) : Memory :=
  (((m.mem.store (p - 16) (m.reg .bx)).store (p - 12) (m.reg .si)).store (p - 8)
    (m.reg .di)).store (p - 4) (m.reg .bp)

/-- What is not on the stack is not changed. -/
theorem saved_apart (m : Machine 32) (hp : 20 ≤ p) {x : ℕ} (h : x < p - 20 ∨ p ≤ x) :
    saved m p x = m.mem x := by
  unfold saved
  rw [Memory.store_apart (by omega), Memory.store_apart (by omega), Memory.store_apart (by omega),
    Memory.store_apart (by omega)]

/-- The stack is neither in the structure nor in the buffer. -/
theorem Call.saved_state (h : Call m s b p st c) : InMemory 32 (saved m p) s b st := by
  have hapart := h.apart
  have hbufApart := h.bufApart
  refine h.state.frame (Layout.ordered (.inl rfl)) ?_ ?_
  · intro x _ _
    exact saved_apart m h.low (by omega)
  · intro x _ _
    exact saved_apart m h.low (by omega)

/-- Up to the body, `ebp` is the state and `ebx` the argument. -/
theorem run_enter (h : Call m s b p st c) (code : List (Instr 32)) :
    ∃ m', run (enter ++ code) none m = run code none m' ∧ m'.reg .bp = BitVec.ofNat 32 s ∧
      (m'.reg .bx).setWidth 8 = c.toBitVec ∧ m'.reg .sp = BitVec.ofNat 32 (p - 20) ∧
      m'.mem = saved m p := by
  have hlow := h.low
  have hhigh := h.high
  have hsub : BitVec.ofNat 32 p - 20 = BitVec.ofNat 32 (p - 20) := ofNat_sub (k := 20) hlow
  have hload : ∀ a, p ≤ a → (saved m p).load 32 a = m.mem.load 32 a := by
    intro a _
    exact Memory.load_congr fun x _ _ => saved_apart m hlow (by omega)
  have h4 : p - 20 + 4 = p - 16 := by omega
  have h8 : p - 20 + 8 = p - 12 := by omega
  have h12 : p - 20 + 12 = p - 8 := by omega
  have h16 : p - 20 + 16 = p - 4 := by omega
  have h24 : p - 20 + 24 = p + 4 := by omega
  have h28 : p - 20 + 28 = p + 8 := by omega
  simp (disch := omega) only [enter, List.cons_append, List.nil_append, run, Instr.step, Machine.ea,
    Machine.get_imm, Machine.get_mem, Machine.reg_setReg, Machine.reg_setCf, Machine.reg_setMem,
    Machine.mem_setReg, Machine.mem_setCf, Machine.mem_setMem, if_true, if_false, h.sp, hsub,
    toNat_disp, h4, h8, h12, h16, h24, h28, Op.eval, reduceCtorEq]
  exact ⟨_, rfl, (hload (p + 4) (by omega)).trans h.arg,
    (congrArg (BitVec.setWidth 8) (hload (p + 8) (by omega))).trans h.byte, rfl, rfl⟩

/-- Up to `L2`, `bufptr` is moved in memory. -/
theorem run_slideBuffer (h : InMemory 32 m.mem s b st) (hptr : st.bufptr < st.size)
    (hbp : m.reg .bp = BitVec.ofNat 32 s) (hbx : (m.reg .bx).setWidth 8 = c.toBitVec)
    (code : List (Instr 32)) :
    ∃ m', run (slideBuffer ++ .jae 2 :: wrap ++ .label 2 :: code) none m = run code none m' ∧
      m'.reg .cx = BitVec.ofNat 32 (st.buf.getD st.bufptr 0).toNat ∧
      m'.mem = (m.mem.write (b + st.bufptr) [c]).store (s + 4108)
        (BitVec.ofNat 32 (b + (rabinSlide8 st c).2.bufptr)) ∧
      ∀ r, r ≠ .ax → r ≠ .cx → m'.reg r = m.reg r := by
  have hroom : s + 4124 ≤ 2 ^ 32 := h.room
  have hend := h.bufRoom
  have hpos := h.pos
  have hsize : m.mem.load 32 (s + 4104) = BitVec.ofNat 32 st.size := h.size
  have hbufptr : m.mem.load 32 (s + 4108) = BitVec.ofNat 32 (b + st.bufptr) := h.bufptr
  have hbuf : m.mem.load 32 (s + 4112) = BitVec.ofNat 32 b := h.buf
  have hbyte : UInt8.ofBitVec ((m.reg .bx).setWidth 8) = c := by rw [hbx]
  have hdec : BitVec.ofNat 32 (b + st.bufptr) - 1 = BitVec.ofNat 32 (b + st.bufptr - 1) :=
    ofNat_sub (k := 1) (by omega)
  have hload : ∀ d (x : BitVec 32), d + 4 ≤ 4108 ∨ 4112 ≤ d → d + 4 ≤ 4124 →
      ((m.mem.write (b + st.bufptr) [c]).store (s + 4108) x).load 32 (s + d) =
        m.mem.load 32 (s + d) := by
    intro d x _ hd
    rw [Memory.load_store_apart (by omega)]
    exact h.load_byte hptr hd
  simp (disch := omega) only [slideBuffer, List.cons_append, List.nil_append, run, Instr.step,
    Machine.get_mem, Machine.ea, Machine.reg_setReg, Machine.reg_setMem, Machine.mem_setReg,
    Machine.mem_setMem, Machine.cf_setCf, if_true, if_false, hbp, bufptr, buf, toNat_disp,
    toNat_ofNat_lt, hbufptr, hbyte, hdec, hload, hbuf, h.oldByte hptr, BitVec.add_zero, Op.eval,
    reduceCtorEq]
  rcases Nat.eq_zero_or_pos st.bufptr with hz | hz
  · obtain ⟨hlt, hsum⟩ := bufptr_wrap (w := 32) (c := c) hz hpos (by omega)
    simp (disch := omega) only [wrap, List.cons_append, List.nil_append, run, Instr.step,
      Machine.ea, Machine.get_mem, Machine.reg_setReg, Machine.reg_setMem, Machine.reg_setCf,
      Machine.mem_setReg, Machine.mem_setCf, Machine.mem_setMem, hlt, decide_true, if_true,
      if_false, hbp, size, bufptr, toNat_disp, hsize, hload, hsum, Memory.store_store, Op.eval,
      reduceCtorEq]
    refine ⟨_, rfl, rfl, rfl, ?_⟩
    intro r hax hcx
    simp only [Machine.reg_setReg, Machine.reg_setMem, Machine.reg_setCf, if_neg hax, if_neg hcx]
  · obtain ⟨hge, hnew⟩ := bufptr_dec (c := c) (b := b) hz
    simp only [wrap, List.cons_append, List.nil_append, run, hge, decide_false, if_true, if_false,
      Bool.false_eq_true, reduceCtorEq]
    rw [hnew]
    refine ⟨_, rfl, rfl, rfl, ?_⟩
    intro r hax hcx
    simp only [Machine.reg_setReg, Machine.reg_setMem, Machine.reg_setCf, if_neg hax, if_neg hcx]

/-- The entry of a table in two words. -/
theorem load_table (N : Memory) {d : ℕ} {x : BitVec 32} (h : s + d + 8 * x.toNat + 8 ≤ 2 ^ 32) :
    N.load 32 (BitVec.ofNat 32 s + BitVec.ofNat 32 (d + 4) + x * BitVec.ofNat 32 8).toNat ++
      N.load 32 (BitVec.ofNat 32 s + BitVec.ofNat 32 d + x * BitVec.ofNat 32 8).toNat =
        N.load 64 (s + d + 8 * x.toNat) := by
  have hhigh : s + (d + 4) + 8 * x.toNat = s + d + 8 * x.toNat + 32 / 8 := by omega
  rw [toNat_index (by omega), toNat_index (by omega), hhigh]
  exact Memory.load_append N _ rfl rfl

/-- The residual in `edx.eax`, and the low word of the fingerprint in `ecx`. -/
theorem run_slideResidual {M : Memory} (h : InMemory 32 M s b st)
    (hfp : st.fingerprint.toNat < 2 ^ 63) (hbp : m.reg .bp = BitVec.ofNat 32 s)
    (hcx : m.reg .cx = BitVec.ofNat 32 (st.buf.getD st.bufptr 0).toNat)
    (hptr : st.bufptr < st.size)
    (hmem : m.mem = (M.write (b + st.bufptr) [c]).store (s + 4108)
        (BitVec.ofNat 32 (b + (rabinSlide8 st c).2.bufptr)))
    (code : List (Instr 32)) :
    ∃ m', run (slideResidual ++ code) none m = run code none m' ∧
      m'.reg .dx ++ m'.reg .ax = st.oldRinging.getD (st.buf.getD st.bufptr 0).toNat 0 ^^^
        st.newRinging.getD (st.fingerprint >>> 55).toNat 0 ∧
      m'.reg .cx = m.mem.load 32 (s + 4096) ∧
      m.mem.load 64 (s + 4096) = st.fingerprint ∧
      m'.mem = m.mem ∧
      ∀ r, r ≠ .ax → r ≠ .cx → r ≠ .dx → r ≠ .si → r ≠ .di → m'.reg r = m.reg r := by
  have hroom : s + 4124 ≤ 2 ^ 32 := h.room
  have hload : ∀ d, d + 8 ≤ 4108 → m.mem.load 64 (s + d) = M.load 64 (s + d) := by
    intro d hd
    rw [hmem, Memory.load_store_apart (by omega)]
    exact h.load_byte hptr (hd.trans (by decide))
  have hfingerprint : m.mem.load 64 (s + 4096) = st.fingerprint :=
    (hload 4096 (by decide)).trans h.fingerprint
  -- the fingerprint and the table entries in two words
  have hpair : m.mem.load 32 (s + 4100) ++ m.mem.load 32 (s + 4096) = st.fingerprint :=
    (Memory.load_append m.mem (s + 4096) rfl rfl).trans hfingerprint
  have hshift : (m.mem.load 32 (s + 4100) >>> 23).toNat = (st.fingerprint >>> 55).toNat := by
    rw [shr_append _ (m.mem.load 32 (s + 4096)), hpair]
  have hshiftLt : (st.fingerprint >>> 55).toNat < 256 := by
    rw [BitVec.toNat_ushiftRight, Nat.shiftRight_eq_div_pow]
    omega
  have hbyte := (st.buf.getD st.bufptr 0).toNat_lt
  have hom : (BitVec.ofNat 32 (st.buf.getD st.bufptr 0).toNat).toNat =
      (st.buf.getD st.bufptr 0).toNat := toNat_ofNat_lt (by omega)
  have hold : m.mem.load 32 (BitVec.ofNat 32 s + 4#32 +
        BitVec.ofNat 32 (st.buf.getD st.bufptr 0).toNat * 8#32).toNat ++
      m.mem.load 32 (BitVec.ofNat 32 s + 0#32 +
        BitVec.ofNat 32 (st.buf.getD st.bufptr 0).toNat * 8#32).toNat =
        st.oldRinging.getD (st.buf.getD st.bufptr 0).toNat 0 := by
    apply (load_table (d := 0) m.mem (by omega)).trans
    rw [hom, Nat.add_assoc, hload _ (by omega), ← Nat.add_assoc]
    exact h.oldRinging _ hbyte
  have hnew : m.mem.load 32 (BitVec.ofNat 32 s + BitVec.ofNat 32 (2048 + 4) +
        m.mem.load 32 (s + 4100) >>> 23 * 8#32).toNat ++
      m.mem.load 32 (BitVec.ofNat 32 s + 2048#32 +
        m.mem.load 32 (s + 4100) >>> 23 * 8#32).toNat =
        st.newRinging.getD (st.fingerprint >>> 55).toNat 0 := by
    apply (load_table (d := 2048) m.mem (by omega)).trans
    rw [hshift, Nat.add_assoc, hload _ (by omega), ← Nat.add_assoc]
    exact h.newRinging _ hshiftLt
  have hlow : ((BitVec.ofNat 32 (st.buf.getD st.bufptr 0).toNat).setWidth 8).setWidth 32 =
      BitVec.ofNat 32 (st.buf.getD st.bufptr 0).toNat := by
    apply BitVec.eq_of_toNat_eq
    rw [BitVec.toNat_setWidth, BitVec.toNat_setWidth, hom]
    omega
  simp (disch := omega) only [slideResidual, List.cons_append, List.nil_append, run, Instr.step,
    Machine.ea, Machine.get_reg, Machine.get_mem, Machine.reg_setReg, Machine.reg_setCf,
    Machine.mem_setReg, Machine.mem_setCf, if_true, if_false, hbp, hcx, hlow, fingerprint,
    newRinging, toNat_disp, Op.eval, reduceCtorEq]
  refine ⟨_, rfl, ?_, rfl, hfingerprint, rfl, ?_⟩
  · rw [← hold, ← hnew, BitVec.xor_append]
    rfl
  intro r hax hcx hdx hsi hdi
  simp only [Machine.reg_setReg, Machine.reg_setCf, if_neg hax, if_neg hcx, if_neg hdx,
    if_neg hsi, if_neg hdi]

/-- **The step in two words.** -/
theorem slide_pair (high lo edx eax : BitVec 32) (c : UInt8) :
    ((edx ^^^ ((high <<< 8) ||| (lo >>> (32 - 8)))) &&& (2147483647 : BitVec 32)) ++
        (eax ^^^ (BitVec.ofNat 32 c.toNat ||| (lo <<< 8))) =
      ((((high ++ lo) <<< 8) ||| BitVec.ofNat 64 c.toNat) ^^^ (edx ++ eax)) &&& ~~~msb64 := by
  have hmask : ~~~msb64 = (2147483647 : BitVec 32) ++ BitVec.allOnes 32 := by decide
  have hbyte : BitVec.ofNat 64 c.toNat = 0#32 ++ BitVec.ofNat 32 c.toNat := by
    have hc := c.toNat_lt
    apply BitVec.eq_of_toNat_eq
    rw [Memory.toNat_append, toNat_ofNat_lt (by omega), toNat_ofNat_lt (by omega)]
    rfl
  have hshift : ((high <<< 8) ||| (lo >>> (32 - 8))) ++ (lo <<< 8) = (high ++ lo) <<< 8 :=
    shld_append high lo (by decide)
  rw [hmask, hbyte, ← hshift, BitVec.or_append, BitVec.xor_append, BitVec.and_append,
    BitVec.and_allOnes, BitVec.or_zero, BitVec.xor_comm edx, BitVec.xor_comm eax,
    BitVec.or_comm (BitVec.ofNat 32 c.toNat)]

/-- The fingerprint in `edx.eax`. -/
theorem run_slideFingerprint (hroom : s + 4124 ≤ 2 ^ 32) (hbp : m.reg .bp = BitVec.ofNat 32 s)
    (hbx : (m.reg .bx).setWidth 8 = c.toBitVec) (hcx : m.reg .cx = m.mem.load 32 (s + 4096))
    (code : List (Instr 32)) :
    ∃ m', run (slideFingerprint ++ code) none m = run code none m' ∧
      m'.reg .dx ++ m'.reg .ax =
        (((m.mem.load 64 (s + 4096) <<< 8) ||| BitVec.ofNat 64 c.toNat) ^^^
          (m.reg .dx ++ m.reg .ax)) &&& ~~~msb64 ∧
      m'.mem = m.mem.store (s + 4096) (m'.reg .dx ++ m'.reg .ax) ∧
      m'.reg .sp = m.reg .sp := by
  have hbyte : ((m.reg .bx).setWidth 8).setWidth 32 = BitVec.ofNat 32 c.toNat := by
    rw [hbx]
    apply BitVec.eq_of_toNat_eq
    rw [BitVec.toNat_setWidth, BitVec.toNat_ofNat]
    rfl
  simp (disch := omega) only [slideFingerprint, List.cons_append, List.nil_append, run, Instr.step,
    Machine.ea, Machine.get_reg, Machine.get_mem, Machine.get_imm, Machine.reg_setReg,
    Machine.reg_setCf, Machine.reg_setMem, Machine.mem_setReg, Machine.mem_setCf,
    Machine.mem_setMem, if_true, if_false, hbp, hcx, hbyte, fingerprint, toNat_disp, Op.eval,
    reduceCtorEq]
  have hfp : m.mem.load 32 (s + 4100) ++ m.mem.load 32 (s + 4096) = m.mem.load 64 (s + 4096) :=
    Memory.load_append m.mem (s + 4096) rfl rfl
  have hvalue := slide_pair (m.mem.load 32 (s + 4100)) (m.mem.load 32 (s + 4096)) (m.reg .dx)
    (m.reg .ax) c
  rw [hfp] at hvalue
  have hstore : ∀ x y : BitVec 32, (m.mem.store (s + 4096) y).store (s + 4100) x =
      m.mem.store (s + 4096) (x ++ y) := fun x y => Memory.store_append x y m.mem (s + 4096) rfl
  exact ⟨_, rfl, hvalue, hstore _ _, rfl⟩

/-- The registers of the caller are restored. -/
theorem run_leave {m₀ : Machine 32} (hlow : 20 ≤ p) (hp : p ≤ 2 ^ 32)
    (hsp : m.reg .sp = BitVec.ofNat 32 (p - 20)) (hsp₀ : m₀.reg .sp = BitVec.ofNat 32 p)
    (hmem : ∀ x, p - 20 ≤ x → x < p → m.mem x = saved m₀ p x) :
    ∃ m', run (leave ++ [.ret]) none m = some m' ∧ m'.reg .ax = m.reg .ax ∧
      m'.reg .dx = m.reg .dx ∧ m'.mem = m.mem ∧
      ∀ r, r ≠ .ax → r ≠ .cx → r ≠ .dx → m'.reg r = m₀.reg r := by
  have h4 : p - 20 + 4 = p - 16 := by omega
  have h8 : p - 20 + 8 = p - 12 := by omega
  have h12 : p - 20 + 12 = p - 8 := by omega
  have h16 : p - 20 + 16 = p - 4 := by omega
  have hadd : BitVec.ofNat 32 (p - 20) + 20 = BitVec.ofNat 32 p :=
    (BitVec.ofNat_add _ 20).symm.trans (congrArg _ (by omega))
  have hload : ∀ a, p - 20 ≤ a → a + 4 ≤ p → m.mem.load 32 a = (saved m₀ p).load 32 a := by
    intro a _ _
    exact Memory.load_congr fun x _ _ => hmem x (by omega) (by omega)
  have hbx : m.mem.load 32 (p - 16) = m₀.reg .bx := by
    rw [hload _ (by omega) (by omega)]
    unfold saved
    rw [Memory.load_store_apart (by omega), Memory.load_store_apart (by omega),
      Memory.load_store_apart (by omega), Memory.load_store _ _ rfl]
  have hsi : m.mem.load 32 (p - 12) = m₀.reg .si := by
    rw [hload _ (by omega) (by omega)]
    unfold saved
    rw [Memory.load_store_apart (by omega), Memory.load_store_apart (by omega),
      Memory.load_store _ _ rfl]
  have hdi : m.mem.load 32 (p - 8) = m₀.reg .di := by
    rw [hload _ (by omega) (by omega)]
    unfold saved
    rw [Memory.load_store_apart (by omega), Memory.load_store _ _ rfl]
  have hbp : m.mem.load 32 (p - 4) = m₀.reg .bp := by
    rw [hload _ (by omega) (by omega)]
    unfold saved
    rw [Memory.load_store _ _ rfl]
  simp (disch := omega) only [leave, List.cons_append, List.nil_append, run, Instr.step, Machine.ea,
    Machine.get_imm, Machine.get_mem, Machine.reg_setReg, Machine.mem_setReg, if_false, hsp, hadd,
    toNat_disp, h4, h8, h12, h16, hbx, hsi, hdi, hbp, Op.eval, reduceCtorEq]
  refine ⟨_, rfl, rfl, rfl, rfl, ?_⟩
  intro r hax hcx hdx
  cases r with
  | ax => exact absurd rfl hax
  | cx => exact absurd rfl hcx
  | dx => exact absurd rfl hdx
  | sp => exact hsp₀.symm
  | bx => rfl
  | si => rfl
  | di => rfl
  | bp => rfl

/-- **The routine for i386 is the step of `Rabin.lean`.** -/
theorem run_rabinSlide8Asm (h : Call m s b p st c) (hptr : st.bufptr < st.size)
    (hfp : st.fingerprint.toNat < 2 ^ 63) :
    ∃ m', run rabinSlide8Asm none m = some m' ∧
      m'.reg .dx ++ m'.reg .ax = (rabinSlide8 st c).1 ∧
      m'.mem = slideMem 32 (saved m p) s b st c ∧
      ∀ r, r ≠ .ax → r ≠ .cx → r ≠ .dx → m'.reg r = m.reg r := by
  have hlow := h.low
  have hhigh := h.high
  have hroom : s + 4124 ≤ 2 ^ 32 := h.state.room
  have hapart : s + 4124 ≤ p - 20 ∨ p + 12 ≤ s := h.apart
  have hbufApart := h.bufApart
  obtain ⟨m1, hrun1, hbp1, hbx1, hsp1, hmem1⟩ :=
    run_enter h (slideBuffer ++ .jae 2 :: wrap ++ .label 2 ::
      (slideResidual ++ (slideFingerprint ++ (leave ++ [.ret]))))
  have hstate := h.saved_state
  obtain ⟨m2, hrun2, hcx2, hmem2, hkeep2⟩ :=
    run_slideBuffer (by rwa [hmem1]) hptr hbp1 hbx1
      (slideResidual ++ (slideFingerprint ++ (leave ++ [.ret])))
  rw [hmem1] at hmem2
  have hbp2 := (hkeep2 .bp nofun nofun).trans hbp1
  obtain ⟨m3, hrun3, hvalue3, hcx3, hfp3, hmem3, hkeep3⟩ :=
    run_slideResidual hstate hfp hbp2 hcx2 hptr hmem2 (slideFingerprint ++ (leave ++ [.ret]))
  have hbp3 := (hkeep3 .bp nofun nofun nofun nofun nofun).trans hbp2
  have hbx3 := (hkeep3 .bx nofun nofun nofun nofun nofun).trans (hkeep2 .bx nofun nofun)
  have hsp3 := (hkeep3 .sp nofun nofun nofun nofun nofun).trans (hkeep2 .sp nofun nofun)
  obtain ⟨m4, hrun4, hvalue4, hmem4, hsp4⟩ :=
    run_slideFingerprint (c := c) hroom hbp3 (by rw [hbx3, hbx1]) (by rw [hcx3, hmem3])
      (leave ++ [.ret])
  have hvalue : m4.reg .dx ++ m4.reg .ax = (rabinSlide8 st c).1 := by
    rw [hvalue4, hvalue3, hmem3, hfp3]
    rfl
  have hslide : m4.mem = slideMem 32 (saved m p) s b st c := by
    rw [hmem4, hmem3, hmem2, hvalue]
    rfl
  have hstack : ∀ x, p - 20 ≤ x → x < p → m4.mem x = saved m p x := by
    intro x _ _
    rw [hslide]
    exact slideMem_apart (w := 32) _ (by omega) (show x < s + 4108 ∨ s + 4112 ≤ x by omega)
      (show x < s + 4096 ∨ s + 4104 ≤ x by omega)
  obtain ⟨m5, hrun5, hax5, hdx5, hmem5, hkeep5⟩ :=
    run_leave hlow (by omega) (by rw [hsp4, hsp3, hsp1]) h.sp hstack
  refine ⟨m5, ?_, ?_, ?_, hkeep5⟩
  · unfold rabinSlide8Asm
    rw [hrun1, hrun2, hrun3, hrun4, hrun5]
  · rw [hax5, hdx5, hvalue]
  · rw [hmem5, hslide]

end I386

/-! ## Calls in a row -/

/-- The memory goes through a call of `code` for each byte, with the arguments of `args`. -/
inductive Calls (code : List (Instr w)) (args : Machine w → UInt8 → Prop) :
    Memory → List UInt8 → Memory → Prop where
  | nil (M : Memory) : Calls code args M [] M
  | cons {m m' : Machine w} {c : UInt8} {cs : List UInt8} {M : Memory} (hargs : args m c)
      (hrun : run code none m = some m') (hrest : Calls code args m'.mem cs M) :
      Calls code args m.mem (c :: cs) M

/-- The step keeps `bufptr` in the window and the fingerprint below `2 ^ 63`. -/
theorem rabinSlide8_bounds (hptr : st.bufptr < st.size) (c : UInt8) :
    (rabinSlide8 st c).2.bufptr < (rabinSlide8 st c).2.size ∧
      (rabinSlide8 st c).2.fingerprint.toNat < 2 ^ 63 := by
  constructor
  · change (if st.bufptr < 1 then st.bufptr + st.size - 1 else st.bufptr - 1) < st.size
    split <;> omega
  · change (_ &&& ~~~msb64).toNat < 2 ^ 63
    rw [BitVec.toNat_and]
    exact Nat.and_lt_two_pow _ (by decide)

/-- A routine that makes one step makes all. -/
theorem calls_slides {code : List (Instr w)} {args : Machine w → UInt8 → Prop} {n : ℕ}
    (hstep : ∀ m c st, InMemory w m.mem s b st → args m c → st.size = n → st.bufptr < st.size →
      st.fingerprint.toNat < 2 ^ 63 →
        ∃ m', run code none m = some m' ∧ InMemory w m'.mem s b (rabinSlide8 st c).2)
    {cs : List UInt8} (h : Calls code args M cs M') {st : RabinState}
    (hM : InMemory w M s b st) (hsize : st.size = n) (hptr : st.bufptr < st.size)
    (hfp : st.fingerprint.toNat < 2 ^ 63) : InMemory w M' s b (rabinSlides st cs) := by
  induction h generalizing st with
  | nil M => exact hM
  | @cons m m' c cs M hargs hrun hrest ih =>
    obtain ⟨m'', hrun', hM'⟩ := hstep m c st hM hargs hsize hptr hfp
    rw [hrun] at hrun'
    cases hrun'
    obtain ⟨hptr', hfp'⟩ := rabinSlide8_bounds hptr c
    exact ih hM' hsize hptr' hfp'

/-- **The routine for x86_64 takes the state through a file.** -/
theorem X64.calls_slides {cs : List UInt8} {n : ℕ}
    (h : Calls rabinSlide8Asm
      (fun m c => ∀ st, InMemory 64 m.mem s b st → st.size = n → Call m s b st c) M cs M')
    (hM : InMemory 64 M s b st) (hsize : st.size = n) (hptr : st.bufptr < st.size)
    (hfp : st.fingerprint.toNat < 2 ^ 63) : InMemory 64 M' s b (rabinSlides st cs) := by
  refine DedupSim.calls_slides ?_ h hM hsize hptr hfp
  intro m c st hM hargs hsize hptr hfp
  obtain ⟨m', hrun, -, hmem, -⟩ := run_rabinSlide8Asm (hargs st hM hsize) hptr hfp
  refine ⟨m', hrun, ?_⟩
  rw [hmem]
  exact hM.slide (Layout.ordered (.inr rfl)) hptr c

/-- **The routine for i386 takes the state through a file**, wherever its stack is. -/
theorem I386.calls_slides {cs : List UInt8} {n : ℕ}
    (h : Calls rabinSlide8Asm
      (fun m c => ∃ p, ∀ st, InMemory 32 m.mem s b st → st.size = n → Call m s b p st c) M cs M')
    (hM : InMemory 32 M s b st) (hsize : st.size = n) (hptr : st.bufptr < st.size)
    (hfp : st.fingerprint.toNat < 2 ^ 63) : InMemory 32 M' s b (rabinSlides st cs) := by
  refine DedupSim.calls_slides ?_ h hM hsize hptr hfp
  intro m c st hM hargs hsize hptr hfp
  obtain ⟨p, hcall⟩ := hargs
  have hc := hcall st hM hsize
  obtain ⟨m', hrun, -, hmem, -⟩ := run_rabinSlide8Asm hc hptr hfp
  refine ⟨m', hrun, ?_⟩
  rw [hmem]
  exact hc.saved_state.slide (Layout.ordered (.inl rfl)) hptr c

/-! ## Agreement -/

/-- **Assembly and C fingerprint steps agree.** Each routine returns the value of the step of
`Rabin.lean`, leaves its state, writes nothing but the fingerprint, `bufptr` and the byte at
`bufptr` (and, on i386, its part of the stack), and keeps the registers of the caller. -/
theorem rabinSlide8Asm_exact (st : RabinState) (c : UInt8) (hptr : st.bufptr < st.size)
    (hfp : st.fingerprint.toNat < 2 ^ 63) :
    (∀ m s b, X64.Call m s b st c →
      ∃ m', run X64.rabinSlide8Asm none m = some m' ∧ m'.reg .ax = (rabinSlide8 st c).1 ∧
        InMemory 64 m'.mem s b (rabinSlide8 st c).2 ∧
        (∀ x, x ≠ b + st.bufptr → (x < s + 4112 ∨ s + 4120 ≤ x) →
          (x < s + 4096 ∨ s + 4104 ≤ x) → m'.mem x = m.mem x) ∧
        ∀ r, r ≠ .ax → r ≠ .cx → r ≠ .dx → m'.reg r = m.reg r) ∧
      ∀ m s b p, I386.Call m s b p st c →
        ∃ m', run I386.rabinSlide8Asm none m = some m' ∧
          m'.reg .dx ++ m'.reg .ax = (rabinSlide8 st c).1 ∧
          InMemory 32 m'.mem s b (rabinSlide8 st c).2 ∧
          (∀ x, x ≠ b + st.bufptr → (x < s + 4108 ∨ s + 4112 ≤ x) →
            (x < s + 4096 ∨ s + 4104 ≤ x) → (x < p - 20 ∨ p ≤ x) → m'.mem x = m.mem x) ∧
          ∀ r, r ≠ .ax → r ≠ .cx → r ≠ .dx → m'.reg r = m.reg r := by
  constructor
  · intro m s b h
    obtain ⟨m', hrun, hvalue, hmem, hkeep⟩ := X64.run_rabinSlide8Asm h hptr hfp
    refine ⟨m', hrun, hvalue, ?_, ?_, hkeep⟩
    · rw [hmem]
      exact h.state.slide (Layout.ordered (.inr rfl)) hptr c
    · intro x hbyte hx hx'
      rw [hmem]
      exact slideMem_apart (w := 64) m.mem hbyte hx hx'
  · intro m s b p h
    obtain ⟨m', hrun, hvalue, hmem, hkeep⟩ := I386.run_rabinSlide8Asm h hptr hfp
    refine ⟨m', hrun, hvalue, ?_, ?_, hkeep⟩
    · rw [hmem]
      exact h.saved_state.slide (Layout.ordered (.inl rfl)) hptr c
    · intro x hbyte hx hx' hp
      rw [hmem, slideMem_apart (w := 32) _ hbyte hx hx', I386.saved_apart m h.low hp]

/-! A state with one byte in its window, and a memory that holds it. -/

def oneByteState : RabinState :=
  { oldRinging := List.replicate 256 0
    newRinging := List.replicate 256 0
    fingerprint := 0
    size := 1
    bufptr := 0
    buf := [0]
    poly := 0 }

def zeroMem : Memory := fun _ => 0

def oneByteMem (w : ℕ) : Memory :=
  ((zeroMem.store (4096 + Layout.size) 1#32).store (4096 + Layout.bufptr w)
    (BitVec.ofNat w 16)).store (4096 + Layout.buf w) (BitVec.ofNat w 16)

theorem zeroMem_load (v a : ℕ) : zeroMem.load v a = 0 := by
  have hzero : ∀ l : List ℕ, LittleEndian.leNat (l.map fun i => zeroMem (a + i)) = 0 := by
    intro l
    induction l with
    | nil => rfl
    | cons i l ih => rw [List.map_cons, LittleEndian.leNat, ih, zeroMem]; rfl
  unfold Memory.load Memory.read
  rw [hzero]
  rfl

theorem oneByteMem_state (hw : w = 32 ∨ w = 64) :
    InMemory w (oneByteMem w) 4096 16 oneByteState := by
  have hroom : 4096 + Layout.sizeof w ≤ 2 ^ w := by
    rcases hw with rfl | rfl <;> decide
  obtain ⟨hbytes, h0, h1, h2, h3, h4, h5, h6, h7⟩ := Layout.ordered hw
  have hload : ∀ v a, (a + v / 8 ≤ 4096 + Layout.size ∨ 4096 + Layout.size + 4 ≤ a) →
      (a + v / 8 ≤ 4096 + Layout.bufptr w ∨ 4096 + Layout.poly w ≤ a) →
      (oneByteMem w).load v a = 0 := by
    intro v a _ _
    unfold oneByteMem
    rw [Memory.load_store_apart (by omega), Memory.load_store_apart (by omega),
      Memory.load_store_apart (by omega), zeroMem_load]
  have htable : ∀ i < 256, (List.replicate 256 (0 : BitVec 64)).getD i 0 = 0 := by
    intro i hi
    rw [List.getD_eq_getElem?_getD, List.getElem?_replicate_of_lt hi]
    rfl
  exact
    { oldRinging := fun i hi => (hload _ _ (by omega) (by omega)).trans (htable i hi).symm
      newRinging := fun i hi => (hload _ _ (by omega) (by omega)).trans (htable i hi).symm
      fingerprint := hload _ _ (by omega) (by omega)
      size := by
        unfold oneByteMem
        rw [Memory.load_store_apart (by omega), Memory.load_store_apart (by omega)]
        exact Memory.load_store _ _ rfl
      bufptr := by
        unfold oneByteMem
        rw [Memory.load_store_apart (by omega)]
        exact Memory.load_store _ _ hbytes
      buf := Memory.load_store _ _ hbytes
      poly := hload _ _ (by omega) (by omega)
      bytes := by
        have hbyte : oneByteMem w 16 = 0 := by
          unfold oneByteMem
          rw [Memory.store_apart (by omega), Memory.store_apart (by omega),
            Memory.store_apart (by omega)]
          rfl
        exact congrArg (fun x => [x]) hbyte
      int := by decide
      pos := by decide
      room := hroom
      bufRoom := (show 16 + 1 ≤ 4096 + Layout.sizeof w by omega).trans hroom
      apart := .inr (by decide) }

/-- A call on x86_64 with the byte `7`. -/
def callX64 : Machine 64 :=
  { reg := fun r => if r = .di then 4096 else if r = .si then 7 else 0
    cf := false
    mem := oneByteMem 64 }

/-- A call on i386 with the byte `7`, in a word that holds more. -/
def callI386 : Machine 32 :=
  { reg := fun r => if r = .sp then 20000 else 0
    cf := false
    mem := ((oneByteMem 32).store 20004 4096#32).store 20008 0xabcdef07#32 }

theorem callI386_call : I386.Call callI386 4096 16 20000 oneByteState 7 := by
  have hmem : ∀ x, x < 20004 → callI386.mem x = oneByteMem 32 x := by
    intro x _
    exact (Memory.store_apart (by omega)).trans (Memory.store_apart (by omega))
  have hsizeof : Layout.sizeof 32 = 4124 := rfl
  have hword : callI386.mem.load 32 20008 = 0xabcdef07#32 := Memory.load_store _ _ rfl
  exact
    { state := (oneByteMem_state (.inl rfl)).frame (Layout.ordered (.inl rfl))
        (fun x _ _ => hmem x (by omega))
        (fun x _ hx => hmem x (by change x < 16 + 1 at hx; omega))
      sp := rfl
      arg := (Memory.load_store_apart (by omega)).trans (Memory.load_store _ _ rfl)
      byte := (congrArg (BitVec.setWidth 8) hword).trans (by decide)
      low := by decide
      high := by decide
      apart := .inl (by decide)
      bufApart := .inl (by decide) }

theorem rabinSlide8Asm_exact_one :
    (∃ m', run X64.rabinSlide8Asm none callX64 = some m' ∧ m'.reg .ax = 7) ∧
      ∃ m', run I386.rabinSlide8Asm none callI386 = some m' ∧
        m'.reg .dx ++ m'.reg .ax = (7 : BitVec 64) := by
  have hvalue : (rabinSlide8 oneByteState 7).1 = 7 := by decide
  obtain ⟨h64, h32⟩ := rabinSlide8Asm_exact oneByteState 7 (by decide) (by decide)
  obtain ⟨m', hrun, hax, -⟩ := h64 callX64 4096 16 ⟨oneByteMem_state (.inr rfl), rfl, rfl⟩
  obtain ⟨m'', hrun', hpair, -⟩ := h32 callI386 4096 16 20000 callI386_call
  exact ⟨⟨m', hrun, hax.trans hvalue⟩, m'', hrun', hpair.trans hvalue⟩

end DedupSim
