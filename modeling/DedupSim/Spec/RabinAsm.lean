import DedupSim.Lib.X86
import DedupSim.Spec.Rabin

/-!
# The assembly fingerprint step (`rabin_asm.S`)

* `Layout`: where a compiler puts the fields of `struct rabin_state`.
* `InMemory`: a state of `Rabin.lean` in memory.
* `X64.rabinSlide8Asm`, `I386.rabinSlide8Asm`: the two routines, with the constants of the
  source for the fields.
-/

namespace DedupSim

open X86

/-! ## The state in memory -/

/-- `n` up to the next multiple of `a`. -/
def alignUp (n a : ℕ) : ℕ := (n + a - 1) / a * a

/-! Offsets in `struct rabin_state` where a pointer has `w` bits; `u_int64_t` is aligned
as a pointer is, to 4 bytes on i386 and to 8 on x86_64. -/
namespace Layout

def oldRinging : ℕ := 0
def newRinging : ℕ := oldRinging + 256 * 8
def fingerprint : ℕ := newRinging + 256 * 8
def size : ℕ := fingerprint + 8
def bufptr (w : ℕ) : ℕ := alignUp (size + 4) (w / 8)
def buf (w : ℕ) : ℕ := bufptr w + w / 8
def poly (w : ℕ) : ℕ := alignUp (buf w + w / 8) (w / 8)
def sizeof (w : ℕ) : ℕ := poly w + 8

end Layout

/-- The structure is at `s` and its buffer at `b`, where `malloc` put them: not at the null
pointer, not across the end of the memory and not one in the other. -/
structure InMemory (w : ℕ) (M : Memory) (s b : ℕ) (st : RabinState) : Prop where
  oldRinging : ∀ i < 256, M.load 64 (s + Layout.oldRinging + 8 * i) = st.oldRinging.getD i 0
  newRinging : ∀ i < 256, M.load 64 (s + Layout.newRinging + 8 * i) = st.newRinging.getD i 0
  fingerprint : M.load 64 (s + Layout.fingerprint) = st.fingerprint
  size : M.load 32 (s + Layout.size) = BitVec.ofNat 32 st.size
  bufptr : M.load w (s + Layout.bufptr w) = BitVec.ofNat w (b + st.bufptr)
  buf : M.load w (s + Layout.buf w) = BitVec.ofNat w b
  poly : M.load 64 (s + Layout.poly w) = st.poly
  bytes : M.read b st.size = st.buf
  int : st.size < 2 ^ 31
  pos : 0 < b
  room : s + Layout.sizeof w ≤ 2 ^ w
  bufRoom : b + st.size ≤ 2 ^ w
  apart : s + Layout.sizeof w ≤ b ∨ b + st.size ≤ s

/-! ## x86_64 -/

namespace X64

def oldRinging : ℕ := 0
def newRinging : ℕ := 2048
def fingerprint : ℕ := 4096
def size : ℕ := 4104
def bufptr : ℕ := 4112
def buf : ℕ := 4120

/-- Up to the branch. -/
def slideBuffer : List (Instr 64) :=
  [ .mov (.mem ⟨bufptr, .di, none⟩) .dx,
    .movzbm ⟨0, .dx, none⟩ .ax,
    .movb .si ⟨0, .dx, none⟩,
    .dec .dx,
    .cmp (.mem ⟨buf, .di, none⟩) .dx ]

/-- What the branch jumps over. -/
def wrap : List (Instr 64) :=
  [ .movsl ⟨size, .di, none⟩ .cx,
    .alu .add (.reg .cx) .dx ]

/-- From `L2` on: `rdx` is the residual. -/
def slideResidual : List (Instr 64) :=
  [ .mov (.mem ⟨fingerprint, .di, none⟩) .cx,
    .movm .dx ⟨bufptr, .di, none⟩,
    .mov (.mem ⟨oldRinging, .di, some (.ax, 8)⟩) .dx,
    .mov (.reg .cx) .ax,
    .shr 55 .cx,
    .alu .xor (.mem ⟨newRinging, .di, some (.cx, 8)⟩) .dx ]

/-- `rax` is the new fingerprint. -/
def slideFingerprint : List (Instr 64) :=
  [ .shl 8 .ax,
    .alu .or (.reg .si) .ax,
    .alu .xor (.reg .dx) .ax,
    .mov (.imm 9223372036854775807) .dx,
    .alu .and (.reg .dx) .ax,
    .movm .ax ⟨fingerprint, .di, none⟩ ]

/-- `_rabin_slide8`. -/
def rabinSlide8Asm : List (Instr 64) :=
  slideBuffer ++ .jae 2 :: wrap ++ .label 2 ::
    (slideResidual ++ (slideFingerprint ++ [.ret]))

/-- A call with the state at `s` and the byte `c`. -/
structure Call (m : Machine 64) (s b : ℕ) (st : RabinState) (c : UInt8) : Prop where
  state : InMemory 64 m.mem s b st
  di : m.reg .di = BitVec.ofNat 64 s
  si : m.reg .si = BitVec.ofNat 64 c.toNat

end X64

/-! ## i386 -/

namespace I386

def newRinging : ℕ := 2048
def fingerprint : ℕ := 4096
def size : ℕ := 4104
def bufptr : ℕ := 4108
def buf : ℕ := 4112

/-- Saves the registers of the caller and takes the arguments. -/
def enter : List (Instr 32) :=
  [ .alu .sub (.imm 20) .sp,
    .movm .bx ⟨4, .sp, none⟩,
    .movm .si ⟨8, .sp, none⟩,
    .movm .di ⟨12, .sp, none⟩,
    .movm .bp ⟨16, .sp, none⟩,
    .mov (.mem ⟨24, .sp, none⟩) .bp,
    .mov (.mem ⟨28, .sp, none⟩) .bx ]

/-- Up to the branch. -/
def slideBuffer : List (Instr 32) :=
  [ .mov (.mem ⟨bufptr, .bp, none⟩) .ax,
    .movzbm ⟨0, .ax, none⟩ .cx,
    .movb .bx ⟨0, .ax, none⟩,
    .dec .ax,
    .movm .ax ⟨bufptr, .bp, none⟩,
    .cmp (.mem ⟨buf, .bp, none⟩) .ax ]

/-- What the branch jumps over. -/
def wrap : List (Instr 32) :=
  [ .alu .add (.mem ⟨size, .bp, none⟩) .ax,
    .movm .ax ⟨bufptr, .bp, none⟩ ]

/-- From `L2` on: `edx.eax` is the residual. -/
def slideResidual : List (Instr 32) :=
  [ .movzbr .cx .ax,
    .mov (.mem ⟨4, .bp, some (.ax, 8)⟩) .dx,
    .mov (.mem ⟨0, .bp, some (.ax, 8)⟩) .ax,
    .mov (.mem ⟨fingerprint + 4, .bp, none⟩) .di,
    .mov (.reg .di) .si,
    .shr 23 .si,
    .mov (.mem ⟨fingerprint, .bp, none⟩) .cx,
    .alu .xor (.mem ⟨newRinging, .bp, some (.si, 8)⟩) .ax,
    .alu .xor (.mem ⟨newRinging + 4, .bp, some (.si, 8)⟩) .dx ]

/-- `edx.eax` is the new fingerprint. -/
def slideFingerprint : List (Instr 32) :=
  [ .movzbr .bx .si,
    .mov (.mem ⟨fingerprint + 4, .bp, none⟩) .bx,
    .shld 8 .cx .bx,
    .shl 8 .cx,
    .alu .or (.reg .cx) .si,
    .alu .xor (.reg .bx) .dx,
    .alu .xor (.reg .si) .ax,
    .alu .and (.imm 2147483647) .dx,
    .movm .ax ⟨fingerprint, .bp, none⟩,
    .movm .dx ⟨fingerprint + 4, .bp, none⟩ ]

/-- Restores the registers of the caller. -/
def leave : List (Instr 32) :=
  [ .mov (.mem ⟨4, .sp, none⟩) .bx,
    .mov (.mem ⟨8, .sp, none⟩) .si,
    .mov (.mem ⟨12, .sp, none⟩) .di,
    .mov (.mem ⟨16, .sp, none⟩) .bp,
    .alu .add (.imm 20) .sp ]

/-- `_rabin_slide8`. -/
def rabinSlide8Asm : List (Instr 32) :=
  enter ++ (slideBuffer ++ .jae 2 :: wrap ++ .label 2 ::
    (slideResidual ++ (slideFingerprint ++ (leave ++ [.ret]))))

/-- A call with the state at `s` and a word whose low byte is `c`. The stack, with what the
routine takes of it below `p`, is neither in the structure nor in its buffer. -/
structure Call (m : Machine 32) (s b p : ℕ) (st : RabinState) (c : UInt8) : Prop where
  state : InMemory 32 m.mem s b st
  sp : m.reg .sp = BitVec.ofNat 32 p
  arg : m.mem.load 32 (p + 4) = BitVec.ofNat 32 s
  byte : (m.mem.load 32 (p + 8)).setWidth 8 = c.toBitVec
  low : 20 ≤ p
  high : p + 12 ≤ 2 ^ 32
  apart : s + Layout.sizeof 32 ≤ p - 20 ∨ p + 12 ≤ s
  bufApart : b + st.size ≤ p - 20 ∨ p + 12 ≤ b

end I386

/-- The constants of the source are the offsets of the compiler. -/
example : X64.bufptr = Layout.bufptr 64 ∧ X64.buf = Layout.buf 64 ∧
    I386.bufptr = Layout.bufptr 32 ∧ I386.buf = Layout.buf 32 := by decide

end DedupSim
