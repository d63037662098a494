import DedupSim.Lib.LittleEndian
import Mathlib.Order.Basic
import Mathlib.Tactic.Linarith

/-!
# Trace types (`trace_types.cpp`, `dedup_types.hpp`)

* `Checksum`: a 20-byte SHA-1 digest, ordered by `memcmp` (`lt_iff_memcmp`,
  `eq_iff_memcmp`).
* `Block`: a record of a scan log, `toStream` its 36 bytes, `fromStream` and `load`
  its readers; `RecordReader.readAll` is their loop `while (blk.FromStream(is))`.
* A stream is the list of bytes not yet read. A read that falls short leaves it
  empty, so every later read fails as well.
-/

namespace DedupSim

open LittleEndian

/-- `CKSUM_LEN`. -/
def cksumLen : ℕ := 20

/-- `RECORD_SIZE`. -/
def recordSize : ℕ := 36

/-- `READ_BUFFER_SIZE`, 8 MB. -/
def readBufferSize : ℕ := 0x800000

/-- `FIX_SEGMENT_SIZE`, 2 MB. -/
def fixSegmentSize : ℕ := 2 * 1024 * 1024

/-- `memcmp` of two strings of one length: the first difference, as unsigned bytes. -/
def memcmp : List UInt8 → List UInt8 → ℤ
  | a :: as, b :: bs => if a = b then memcmp as bs else (a.toNat : ℤ) - b.toNat
  | _, _ => 0

/-- The `n` bytes from index `i` on. -/
def slice (l : List UInt8) (i n : ℕ) : List UInt8 := (l.drop i).take n

theorem slice_take {l : List UInt8} {i n m : ℕ} (h : i + n ≤ m) :
    slice (l.take m) i n = slice l i n := by
  unfold slice
  rw [List.drop_take, List.take_take, min_eq_left (by omega)]

theorem slice_slice {l : List UInt8} {o i n m : ℕ} (h : i + n ≤ m) :
    slice (slice l o m) i n = slice l (o + i) n := by
  have hd : slice (l.drop o) i n = slice l (o + i) n := by rw [slice, slice, List.drop_drop]
  rw [← hd]
  exact slice_take h

theorem slice_append (l : List UInt8) (i n m : ℕ) :
    slice l i n ++ slice l (i + n) m = slice l i (n + m) := by
  unfold slice
  rw [← List.drop_drop, List.take_add]

theorem length_slice (l : List UInt8) (i n : ℕ) : (slice l i n).length = min n (l.length - i) := by
  simp [slice]

/-! ## Checksums -/

structure Checksum where
  data : List UInt8
  len : data.length = cksumLen
deriving DecidableEq

/-- The value of a byte string, most significant byte first. -/
def beNat (l : List UInt8) : ℕ := l.foldl (fun n b => 256 * n + b.toNat) 0

theorem foldl_be (l : List UInt8) (n : ℕ) :
    l.foldl (fun n b => 256 * n + b.toNat) n = 256 ^ l.length * n + beNat l := by
  induction l generalizing n with
  | nil => simp [beNat]
  | cons b bs ih =>
    simp only [List.foldl_cons, beNat, List.length_cons, pow_succ]
    rw [ih, ih (256 * 0 + b.toNat)]
    ring

theorem beNat_cons (b : UInt8) (l : List UInt8) :
    beNat (b :: l) = 256 ^ l.length * b.toNat + beNat l := by
  rw [beNat, List.foldl_cons, foldl_be]
  simp

theorem beNat_lt (l : List UInt8) : beNat l < 256 ^ l.length := by
  induction l with
  | nil => simp [beNat]
  | cons b bs ih =>
    have hb := b.toNat_lt
    rw [beNat_cons, List.length_cons, pow_succ]
    nlinarith

/-- `memcmp` of strings of one length is the order of their values. -/
theorem memcmp_sign {a b : List UInt8} (h : a.length = b.length) :
    (memcmp a b < 0 ↔ beNat a < beNat b) ∧ (memcmp a b = 0 ↔ a = b) := by
  induction a generalizing b with
  | nil =>
    obtain rfl : b = [] := List.length_eq_zero_iff.1 h.symm
    simp [memcmp]
  | cons x xs ih =>
    cases b with
    | nil => simp at h
    | cons y ys =>
      have hl : xs.length = ys.length := by simpa using h
      have hx := beNat_lt xs
      have hy := beNat_lt ys
      unfold memcmp
      rw [beNat_cons, beNat_cons, hl]
      rw [hl] at hx
      by_cases hxy : x = y
      · subst hxy
        simpa using ih hl
      · have hne : x.toNat ≠ y.toNat := fun e => hxy (UInt8.toNat_inj.1 e)
        rw [if_neg hxy]
        refine ⟨⟨?_, ?_⟩, ?_⟩
        · intro hlt
          have : x.toNat + 1 ≤ y.toNat := by omega
          nlinarith
        · intro hlt
          by_contra hge
          have : y.toNat + 1 ≤ x.toNat := by omega
          nlinarith
        · simp only [List.cons.injEq, hxy, false_and, iff_false]
          omega

instance : Inhabited Checksum := ⟨⟨List.replicate cksumLen 0, by simp⟩⟩

namespace Checksum

/-- The checksum as a number, most significant byte first. -/
def toNat (c : Checksum) : ℕ := beNat c.data

theorem ext_data {a b : Checksum} (h : a.data = b.data) : a = b := by
  cases a; cases b; simpa using h

theorem toNat_injective : Function.Injective toNat := by
  intro a b h
  have hl : a.data.length = b.data.length := a.len.trans b.len.symm
  have h1 := memcmp_sign hl
  have h2 := memcmp_sign hl.symm
  by_contra hne
  have h0 : memcmp a.data b.data ≠ 0 := fun e => hne (ext_data (h1.2.1 e))
  unfold toNat at h
  have hz : ∀ {a b : List UInt8}, a.length = b.length → memcmp a b = -memcmp b a := by
    intro a
    induction a with
    | nil => intro b hb; obtain rfl : b = [] := List.length_eq_zero_iff.1 hb.symm; rfl
    | cons x xs ih =>
      intro b hb
      cases b with
      | nil => simp at hb
      | cons y ys =>
        by_cases hxy : x = y
        · subst hxy; simpa [memcmp] using ih (by simpa using hb)
        · simp [memcmp, hxy, Ne.symm hxy]
  have := hz hl
  omega

/-- Checksums are ordered as `Checksum::operator<` has it, by `memcmp`. -/
instance : LinearOrder Checksum := LinearOrder.lift' toNat toNat_injective

/-- `Checksum::operator<`. -/
theorem lt_iff_memcmp {a b : Checksum} : a < b ↔ memcmp a.data b.data < 0 :=
  (memcmp_sign (a.len.trans b.len.symm)).1.symm

/-- `Checksum::operator==`. -/
theorem eq_iff_memcmp {a b : Checksum} : a = b ↔ memcmp a.data b.data = 0 := by
  rw [(memcmp_sign (a.len.trans b.len.symm)).2]
  exact ⟨fun h => h ▸ rfl, ext_data⟩

/-- `Checksum::ToStream`. -/
def toStream (c : Checksum) : List UInt8 := c.data

/-- `Checksum::FromStream`: the checksum, unless fewer than 20 bytes are left. -/
def fromStream (is : List UInt8) : Option Checksum × List UInt8 :=
  (if h : (is.take cksumLen).length = cksumLen then some ⟨is.take cksumLen, h⟩ else none,
    is.drop cksumLen)

theorem fromStream_long {is : List UInt8} (h : cksumLen ≤ is.length) :
    ∃ c, fromStream is = (some c, is.drop cksumLen) ∧ c.data = is.take cksumLen :=
  ⟨⟨is.take cksumLen, by simpa using h⟩, by simp [fromStream, h], rfl⟩

end Checksum

/-! ## Blocks -/

structure Block where
  size : UInt32
  fileId : UInt32
  offset : UInt64
  cksum : Checksum
deriving DecidableEq, Inhabited

namespace Block

/-- `Block::ToStream`. -/
def toStream (b : Block) : List UInt8 :=
  b.cksum.toStream ++ leBytes 4 b.fileId.toNat ++ leBytes 4 b.size.toNat ++ leBytes 8 b.offset.toNat

/-- `Block::FromStream`: the record read, or nothing if fewer bytes were left,
and the stream after it. -/
def fromStream (is : List UInt8) : Option Block × List UInt8 :=
  match Checksum.fromStream is with
  | (none, is) => (none, is)
  | (some ck, is) =>
    let nbytes := recordSize - cksumLen
    let buf := is.take nbytes
    if buf.length ≠ nbytes then (none, is.drop nbytes)
    else
      (some
        { cksum := ck
          fileId := UInt32.ofNat (leNat (buf.take 4))
          size := UInt32.ofNat (leNat ((buf.drop 4).take 4))
          offset := UInt64.ofNat (leNat ((buf.drop 8).take 8)) },
        is.drop nbytes)

@[simp] theorem length_toStream (b : Block) : b.toStream.length = recordSize := by
  simp [toStream, Checksum.toStream, b.cksum.len, cksumLen, recordSize]

theorem toStream_injective : Function.Injective toStream := by
  intro a b h
  obtain ⟨as, af, ao, ac⟩ := a
  obtain ⟨bs, bf, bo, bc⟩ := b
  simp only [toStream, Checksum.toStream, List.append_assoc] at h
  obtain ⟨hc, h⟩ := List.append_inj h (by rw [ac.len, bc.len])
  obtain ⟨hf, h⟩ := List.append_inj h (by simp)
  obtain ⟨hs, ho⟩ := List.append_inj h (by simp)
  have hf' := congrArg leNat hf
  have hs' := congrArg leNat hs
  have ho' := congrArg leNat ho
  rw [leNat_leBytes (by have := UInt32.toNat_lt af; omega),
    leNat_leBytes (by have := UInt32.toNat_lt bf; omega)] at hf'
  rw [leNat_leBytes (by have := UInt32.toNat_lt as; omega),
    leNat_leBytes (by have := UInt32.toNat_lt bs; omega)] at hs'
  rw [leNat_leBytes (by have := UInt64.toNat_lt ao; omega),
    leNat_leBytes (by have := UInt64.toNat_lt bo; omega)] at ho'
  simp only [mk.injEq]
  exact ⟨UInt32.toNat_inj.1 hs', UInt32.toNat_inj.1 hf', UInt64.toNat_inj.1 ho',
    Checksum.ext_data hc⟩

/-- Fewer than 36 bytes hold no record. -/
theorem fromStream_short {is : List UInt8} (h : is.length < recordSize) :
    fromStream is = (none, []) := by
  unfold recordSize at h
  by_cases hc : cksumLen ≤ is.length
  · obtain ⟨ck, hck, -⟩ := Checksum.fromStream_long hc
    unfold cksumLen at hc
    have hb : min (36 - 20) (is.length - 20) ≠ 36 - 20 := by omega
    simp only [fromStream, hck, recordSize, cksumLen, List.length_take, List.length_drop, hb, ne_eq,
      not_false_eq_true, if_true, List.drop_drop, Prod.mk.injEq, true_and, List.drop_eq_nil_iff]
    omega
  · unfold cksumLen at hc
    simp [fromStream, Checksum.fromStream, cksumLen, hc]
    omega

/-- A record is read off 36 bytes or more, and is what `ToStream` writes as those bytes. -/
theorem fromStream_long {is : List UInt8} (h : recordSize ≤ is.length) :
    ∃ b : Block, fromStream is = (some b, is.drop recordSize) ∧ b.toStream = is.take recordSize := by
  unfold recordSize at h ⊢
  have h1 : 20 ≤ is.length := by omega
  have h2 : 16 ≤ is.length - 20 := by omega
  obtain ⟨ck, hck, hdata⟩ := Checksum.fromStream_long h1
  simp only [fromStream, hck, recordSize, cksumLen, List.length_take, List.length_drop,
    show min (36 - 20) (is.length - 20) = 36 - 20 by omega, ne_eq, not_true_eq_false, if_false,
    List.drop_drop]
  refine ⟨_, rfl, ?_⟩
  simp only [show 36 - 20 = 16 from rfl]
  set buf := (is.drop 20).take 16
  have hbuf : buf.length = 16 := by simp [buf]; omega
  have hlen : ∀ i n, i + n ≤ 16 → ((buf.drop i).take n).length = n := by
    intro i n hin; simp [hbuf]; omega
  have hle : ∀ i n, i + n ≤ 16 → leBytes n (leNat ((buf.drop i).take n)) = (buf.drop i).take n := by
    intro i n hin
    have := leBytes_leNat ((buf.drop i).take n)
    rwa [hlen i n hin] at this
  have hlt : ∀ i n, i + n ≤ 16 → leNat ((buf.drop i).take n) < 256 ^ n := by
    intro i n hin
    have := leNat_lt ((buf.drop i).take n)
    rwa [hlen i n hin] at this
  have e1 := hle 0 4 (by omega)
  have e2 := hle 4 4 (by omega)
  have e3 := hle 8 8 (by omega)
  have l1 := hlt 0 4 (by omega)
  have l2 := hlt 4 4 (by omega)
  have l3 := hlt 8 8 (by omega)
  simp only [List.drop_zero] at e1 l1
  have n1 : (UInt32.ofNat (leNat (buf.take 4))).toNat = leNat (buf.take 4) := by
    rw [UInt32.toNat_ofNat']; omega
  have n2 : (UInt32.ofNat (leNat ((buf.drop 4).take 4))).toNat = leNat ((buf.drop 4).take 4) := by
    rw [UInt32.toNat_ofNat']; omega
  have n3 : (UInt64.ofNat (leNat ((buf.drop 8).take 8))).toNat = leNat ((buf.drop 8).take 8) := by
    rw [UInt64.toNat_ofNat']; omega
  have hsplit : buf.take 4 ++ (buf.drop 4).take 4 ++ (buf.drop 8).take 8 = buf := by
    rw [← List.take_add, List.take_of_length_le (l := buf.drop 8) (by simp [hbuf])]
    exact List.take_append_drop 8 buf
  simp only [toStream, Checksum.toStream, n1, n2, n3, e1, e2, e3, hdata]
  rw [List.append_assoc, List.append_assoc, ← List.append_assoc (buf.take 4), hsplit]
  exact List.take_add.symm

/-- What `ToStream` wrote is read back. -/
@[simp] theorem fromStream_toStream (b : Block) (rest : List UInt8) :
    fromStream (b.toStream ++ rest) = (some b, rest) := by
  have hl : recordSize ≤ (b.toStream ++ rest).length := by simp
  obtain ⟨b', h1, h2⟩ := fromStream_long hl
  rw [List.drop_left' (length_toStream b)] at h1
  rw [List.take_left' (length_toStream b)] at h2
  rw [h1, toStream_injective h2]

theorem fromStream_some {is rest : List UInt8} {b : Block} (h : fromStream is = (some b, rest)) :
    is = b.toStream ++ rest := by
  by_cases hl : is.length < recordSize
  · rw [fromStream_short hl] at h; cases h
  · obtain ⟨b', h1, h2⟩ := fromStream_long (not_lt.1 hl)
    rw [h1] at h
    obtain ⟨hb, hr⟩ := Prod.mk.inj h
    rw [← Option.some.inj hb, ← hr, h2, List.take_append_drop]

theorem fromStream_none {is rest : List UInt8} (h : fromStream is = (none, rest)) :
    is.length < recordSize ∧ rest = [] := by
  by_cases hl : is.length < recordSize
  · rw [fromStream_short hl] at h; exact ⟨hl, (Prod.mk.inj h).2.symm⟩
  · obtain ⟨b', h1, -⟩ := fromStream_long (not_lt.1 hl)
    rw [h1] at h; cases h

/-- `Block::Load` of the older readers: the four members one after another. -/
def load (is : List UInt8) : Option Block × List UInt8 :=
  let cksum := is.take cksumLen
  let is := is.drop cksumLen
  if h : cksum.length ≠ cksumLen then (none, is)
  else
    let fileId := is.take 4
    let is := is.drop 4
    if fileId.length ≠ 4 then (none, is)
    else
      let size := is.take 4
      let is := is.drop 4
      if size.length ≠ 4 then (none, is)
      else
        let offset := is.take 8
        let is := is.drop 8
        if offset.length ≠ 8 then (none, is)
        else
          (some
            { cksum := ⟨cksum, not_not.1 h⟩
              fileId := UInt32.ofNat (leNat fileId)
              size := UInt32.ofNat (leNat size)
              offset := UInt64.ofNat (leNat offset) }, is)

/-- **Both readers read the same records.** -/
theorem load_eq_fromStream : load = fromStream := by
  funext is
  by_cases hl : is.length < recordSize
  · rw [fromStream_short hl]
    unfold recordSize at hl
    unfold load cksumLen
    simp only [List.length_take, List.length_drop, List.drop_drop]
    have hd : ∀ n, is.length ≤ n → is.drop n = [] := fun n h => List.drop_eq_nil_iff.2 h
    -- the first read that falls short leaves nothing behind
    split
    · rw [hd _ (by omega)]
    · split
      · rw [hd _ (by omega)]
      · split
        · rw [hd _ (by omega)]
        · rw [if_pos (by omega), hd _ (by omega)]
  · unfold recordSize at hl
    have h20 : cksumLen ≤ is.length := by
      unfold cksumLen
      omega
    obtain ⟨ck, hck, hdata⟩ := Checksum.fromStream_long h20
    obtain rfl : ck = ⟨is.take cksumLen, by simp [cksumLen]; omega⟩ := Checksum.ext_data hdata
    have hb : ((is.drop cksumLen).take (recordSize - cksumLen)).length = recordSize - cksumLen := by
      simp [recordSize, cksumLen]; omega
    unfold load fromStream
    rw [dif_neg (by simp [cksumLen]; omega), if_neg (by simp [cksumLen]; omega),
      if_neg (by simp [cksumLen]; omega), if_neg (by simp [cksumLen]; omega)]
    simp only [hck, hb, ne_eq, not_true_eq_false, if_false, List.take_take, List.drop_take,
      List.drop_drop]
    rfl

end Block

/-! ## Readers -/

/-- A reader of records, which uses up what it reads and fails for good. -/
structure RecordReader where
  read : List UInt8 → Option Block × List UInt8
  lt : ∀ {is rest b}, read is = (some b, rest) → rest.length < is.length
  le : ∀ is, (read is).2.length ≤ is.length
  fail : ∀ {is rest}, read is = (none, rest) → (read rest).1 = none

theorem Block.fromStream_lt {is rest : List UInt8} {b : Block}
    (h : Block.fromStream is = (some b, rest)) : rest.length < is.length := by
  rw [Block.fromStream_some h, List.length_append, Block.length_toStream, recordSize]
  omega

theorem Block.fromStream_le (is : List UInt8) : (Block.fromStream is).2.length ≤ is.length := by
  rcases h : Block.fromStream is with ⟨_ | b, rest⟩
  · rw [(Block.fromStream_none h).2]
    exact Nat.zero_le _
  · exact (Block.fromStream_lt h).le

theorem Block.fromStream_fail {is rest : List UInt8} (h : Block.fromStream is = (none, rest)) :
    (Block.fromStream rest).1 = none := by
  rw [(Block.fromStream_none h).2]
  rfl

/-- `Block::FromStream` as a reader. -/
def Block.reader : RecordReader :=
  ⟨Block.fromStream, Block.fromStream_lt, Block.fromStream_le, Block.fromStream_fail⟩

/-- `Block::Load` as a reader. -/
def Block.loader : RecordReader :=
  ⟨Block.load, fun h => Block.fromStream_lt (by rw [← Block.load_eq_fromStream, h]),
    fun is => by rw [Block.load_eq_fromStream]; exact Block.fromStream_le is,
    fun h => by rw [Block.load_eq_fromStream] at h ⊢; exact Block.fromStream_fail h⟩

theorem Block.loader_eq : Block.loader = Block.reader := by
  simp only [Block.loader, Block.reader, Block.load_eq_fromStream]

namespace RecordReader

variable (rd : RecordReader)

/-- The loop `while (blk.FromStream(is)) ...push_back(blk)`. -/
def readAll (is : List UInt8) : List Block :=
  match _h : rd.read is with
  | (none, _) => []
  | (some b, rest) => b :: readAll rest
termination_by is.length
decreasing_by exact rd.lt _h

theorem readAll_none {is rest : List UInt8} (h : rd.read is = (none, rest)) : rd.readAll is = [] := by
  unfold readAll
  split
  · rfl
  · rename_i b rest' hb
    rw [h] at hb
    cases hb

theorem readAll_some {is rest : List UInt8} {b : Block} (h : rd.read is = (some b, rest)) :
    rd.readAll is = b :: rd.readAll rest := by
  rw [readAll]
  split
  · rename_i hb
    rw [h] at hb
    cases hb
  · rename_i b' rest' hb
    rw [h] at hb
    cases hb
    rfl

end RecordReader

/-- A file of whole records reads back as those records. -/
theorem readAll_flatMap (bs : List Block) {tail : List UInt8} (h : tail.length < recordSize) :
    Block.reader.readAll (bs.flatMap Block.toStream ++ tail) = bs := by
  induction bs with
  | nil => exact RecordReader.readAll_none _ (Block.fromStream_short h)
  | cons b bs ih =>
    rw [List.flatMap_cons, List.append_assoc,
      RecordReader.readAll_some _ (Block.fromStream_toStream b _), ih]

/-- Either reader reads back a file of records. -/
theorem readAll_records (bs : List Block) :
    Block.reader.readAll (bs.flatMap Block.toStream) = bs ∧
      Block.loader.readAll (bs.flatMap Block.toStream) = bs := by
  have h : Block.reader.readAll (bs.flatMap Block.toStream) = bs := by
    have hnil := readAll_flatMap bs (show [].length < recordSize by decide)
    rwa [List.append_nil] at hnil
  exact ⟨h, by rw [Block.loader_eq, h]⟩

/-- A block whose checksum ends with `n` after zeros. -/
def blockEnding (n : UInt8) : Block where
  size := 4096
  fileId := 0
  offset := 0
  cksum := ⟨List.replicate 19 0 ++ [n], rfl⟩

end DedupSim
