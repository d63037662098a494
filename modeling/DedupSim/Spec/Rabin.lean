import DedupSim.Spec.Types
import Mathlib.Logic.Function.Iterate

/-!
# Rabin fingerprints (`rabin.c`)

`rabinInit` builds the two tables and the empty window, `rabinSlide8` shifts one
byte in. `int` arithmetic that overflows is undefined, so `rabinInit` has two
failures: `null`, the `NULL` the source returns, and `overflow`.
-/

namespace DedupSim

/-- `int` multiplication: undefined outside the 32-bit range. -/
def intMul (a b : ℤ) : Option ℤ :=
  if -2 ^ 31 ≤ a * b ∧ a * b < 2 ^ 31 then some (a * b) else none

/-- `MSB64`. -/
def msb64 : BitVec 64 := 0x8000000000000000#64

/-- `POLY`. -/
def rabinPoly : BitVec 64 := 0xb15e234bd3792f63#64

/-- `RABIN_WINDOW_SIZE`. -/
def rabinWindowSize : ℕ := 48

/-- `struct rabin_state`; `bufptr` is the index into `buf`. -/
structure RabinState where
  oldRinging : List (BitVec 64)
  newRinging : List (BitVec 64)
  fingerprint : BitVec 64
  size : ℕ
  bufptr : ℕ
  buf : List UInt8
  poly : BitVec 64
deriving DecidableEq

inductive RabinError where
  | null
  | overflow
deriving DecidableEq

/-- `rabin_reset`. -/
def rabinReset (s : RabinState) : RabinState :=
  { s with fingerprint := 0, bufptr := 0, buf := List.replicate s.size 0 }

/-- The body of the two table loops. -/
def ringStep (poly fingerprint : BitVec 64) : BitVec 64 :=
  let fingerprint := fingerprint <<< 1
  if fingerprint &&& msb64 ≠ 0 then fingerprint ^^^ poly else fingerprint

/-- The remainder of a byte that just slid out of a window of `bits` bits. -/
def oldRingingTable (poly : BitVec 64) (bits : ℕ) : List (BitVec 64) :=
  (List.range 256).map fun i => (ringStep poly)^[bits] (BitVec.ofNat 64 i)

/-- The remainder of the bits a shift by eight moves out. -/
def newRingingTable (poly : BitVec 64) : List (BitVec 64) :=
  (List.range 256).map fun i => (ringStep poly)^[8] (BitVec.ofNat 64 i <<< 55)

/-- `rabin_init`, with `malloc` succeeding on every size that is not negative. -/
def rabinInit (poly : BitVec 64) (size : ℤ) : Except RabinError RabinState :=
  if poly &&& msb64 = 0 then .error .null
  else if size < 0 then .error .null
  else
    match intMul size 8 with
    | none => .error .overflow
    | some bits =>
      .ok (rabinReset
        { oldRinging := oldRingingTable poly bits.toNat
          newRinging := newRingingTable poly
          fingerprint := 0
          size := size.toNat
          bufptr := 0
          buf := []
          poly := poly })

/-- `rabin_slide8`: the fingerprint returned and the state left behind. -/
def rabinSlide8 (s : RabinState) (m : UInt8) : BitVec 64 × RabinState :=
  let om := s.buf.getD s.bufptr 0
  let buf := s.buf.set s.bufptr m
  -- `bufptr--`, and back to the end of the buffer from before its start
  let bufptr := if s.bufptr < 1 then s.bufptr + s.size - 1 else s.bufptr - 1
  let residual := s.oldRinging.getD om.toNat 0
  let residual := residual ^^^ s.newRinging.getD (s.fingerprint >>> 55).toNat 0
  let fingerprint := ((s.fingerprint <<< 8) ||| BitVec.ofNat 64 m.toNat) ^^^ residual
  let fingerprint := fingerprint &&& ~~~msb64
  (fingerprint, { s with fingerprint := fingerprint, bufptr := bufptr, buf := buf })

/-- The state after the bytes `ms`, first byte first. -/
def rabinSlides (s : RabinState) (ms : List UInt8) : RabinState :=
  ms.foldl (fun s m => (rabinSlide8 s m).2) s

@[simp] theorem rabinSlides_nil (s : RabinState) : rabinSlides s [] = s := rfl

theorem rabinSlides_concat (s : RabinState) (ms : List UInt8) (m : UInt8) :
    rabinSlides s (ms ++ [m]) = (rabinSlide8 (rabinSlides s ms) m).2 := by
  simp [rabinSlides]

@[simp] theorem rabinSlide8_fst (s : RabinState) (m : UInt8) :
    (rabinSlide8 s m).1 = (rabinSlide8 s m).2.fingerprint := rfl

end DedupSim
