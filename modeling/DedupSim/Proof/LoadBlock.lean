import DedupSim.Proof.MergeRead

/-!
# `load_block` and `Block::FromStream` on one file

`load_block` copies a whole record where fewer bytes are left, and takes the others from what
the buffer held before.

* `padded`: the bytes that it reads, a file and the 36 bytes behind it in the buffer.
* `loadBlock_step`: **one call** reads the next record of these bytes, or marks the end.
* `readersAgree_iff`: **when both readers give the same blocks**: the file has whole records
  only, or the record that is cut off gets the size zero.
-/

namespace DedupSim

open LittleEndian

namespace Merge

variable {mem s : Stream} {file is : List UInt8} {n o : ℕ}

/-! ## Calls one after another -/

/-- The call with number `n`, from 0 on, of `FromStream` on one stream. -/
def nthRead (is : List UInt8) : ℕ → Option Block × List UInt8
  | 0 => Block.fromStream is
  | n + 1 => Block.fromStream (nthRead is n).2

/-- The stream of a file after the call with number `n` of `load_block`. -/
def nthLoad (s : Stream) : ℕ → Except Fault Stream
  | 0 => Stream.loadFirst copyMembers s
  | n + 1 => do
    let s ← nthLoad s n
    Stream.loadBlockWith copyMembers s

/-- **The readers agree** on a file, with `mem` as what the arrays hold before: where
`FromStream` reads a block `load_block` loads it, and from the call where the one returns false
on, the block of the other is zero-sized. -/
def ReadersAgree (mem : Stream) (file : List UInt8) : Prop :=
  ∀ n, ∃ s, nthLoad { mem with is := file } n = .ok s ∧
    (∀ b, (nthRead file n).1 = some b → s.bl = b) ∧ ((nthRead file n).1 = none → s.bl.size = 0)

theorem fromStream_rest (is : List UInt8) : (Block.fromStream is).2 = is.drop recordSize := by
  by_cases h : is.length < recordSize
  · rw [Block.fromStream_short h, List.drop_of_length_le h.le]
  · obtain ⟨b, hb, -⟩ := Block.fromStream_long (not_lt.1 h)
    rw [hb]

/-- A call of `FromStream` reads at a multiple of 36, also after the end. -/
theorem nthRead_eq (is : List UInt8) (n : ℕ) :
    nthRead is n = Block.fromStream (is.drop (recordSize * n)) := by
  induction n with
  | zero => rfl
  | succ n ih => rw [nthRead, ih, fromStream_rest, List.drop_drop, Nat.mul_succ]

/-! ## What the buffer holds -/

/-- What was in the buffer before a file, and the file. -/
def window (mem : Stream) (file : List UInt8) : List UInt8 := mem.buf.data ++ file

theorem slice_window (mem : Stream) (file : List UInt8) (i n : ℕ) :
    slice (window mem file) (mergeBufferSize + i) n = slice file i n := by
  unfold window slice
  rw [← List.drop_drop, List.drop_left' mem.buf.len]

/-- The buffer, when the last fill began at the offset `o` of the file: what it read, and then
the bytes that were there before, which are those of the fill before. -/
structure FilledAt (mem : Stream) (file : List UInt8) (o : ℕ) (s : Stream) : Prop where
  size : s.bufSize = min mergeBufferSize (file.length - o)
  is : s.is = file.drop (o + mergeBufferSize)
  data : s.buf.data = slice file o s.bufSize ++
    slice (window mem file) (o + s.bufSize) (mergeBufferSize - s.bufSize)

/-- A buffer that was full is refilled. -/
theorem FilledAt.refill (hbuf : s.buf.data = slice (window mem file) o mergeBufferSize)
    (his : s.is = file.drop o) (pos : ℕ) :
    FilledAt mem file o { s.loadBuffer.1 with bufSize := s.loadBuffer.2, bufPos := pos } := by
  have htake : s.is.take mergeBufferSize = slice file o mergeBufferSize := by rw [his]; rfl
  have hlen : s.loadBuffer.2 = min mergeBufferSize (file.length - o) := by
    change (s.is.take mergeBufferSize).length = _
    rw [htake, length_slice]
  refine ⟨hlen, ?_, ?_⟩
  · change s.is.drop mergeBufferSize = _
    rw [his, List.drop_drop]
  · have hread : slice file o mergeBufferSize = slice file o s.loadBuffer.2 := by
      rw [hlen, slice, slice, List.take_eq_take_iff, List.length_drop]
      omega
    change s.is.take mergeBufferSize ++ s.buf.data.drop s.loadBuffer.2 = _
    rw [htake, hread, hbuf, ← slice_back]

/-- The bytes that `load_block` reads: those of the file, and the ones behind them. -/
def padded (mem : Stream) (file : List UInt8) : List UInt8 :=
  file ++ slice (window mem file) file.length recordSize

theorem length_window (mem : Stream) (file : List UInt8) :
    (window mem file).length = mergeBufferSize + file.length := by
  unfold window
  rw [List.length_append, mem.buf.len]

theorem length_padded (mem : Stream) (file : List UInt8) :
    (padded mem file).length = file.length + recordSize := by
  unfold padded
  rw [List.length_append, length_slice, length_window]
  have : recordSize ≤ mergeBufferSize := by decide
  omega

/-- **A record of the buffer**, from a position that is still in it. -/
theorem FilledAt.record {p : ℕ} (h : FilledAt mem file o s) (hp : p < s.bufSize)
    (hle : p + recordSize ≤ mergeBufferSize) :
    slice s.buf.data p recordSize = slice (padded mem file) (o + p) recordSize := by
  have hsize := h.size
  rw [h.data]
  by_cases hfull : s.bufSize = mergeBufferSize
  · -- the record is one of the file
    rw [hfull, Nat.sub_self]
    have hnil : slice (window mem file) (o + mergeBufferSize) 0 = [] := List.take_zero
    have hfile : slice (padded mem file) (o + p) recordSize = slice file (o + p) recordSize := by
      unfold padded slice
      rw [List.drop_append_of_le_length (by omega), List.take_append_of_le_length]
      rw [List.length_drop]
      omega
    rw [hnil, List.append_nil, slice_slice hle, hfile]
  · -- the fill was the last one
    have hend : o + s.bufSize = file.length := by omega
    have htail : (slice file o s.bufSize).drop p = file.drop (o + p) := by
      rw [← slice_back]
      apply List.take_of_length_le
      rw [List.length_drop]
      omega
    -- `l` are the bytes behind the file
    have hcut : ∀ (l : List UInt8) (x : List UInt8) (i : ℕ), i ≤ x.length →
        slice (x ++ l) i recordSize =
          (x.drop i).take recordSize ++ l.take (recordSize - (x.length - i)) := by
      intro l x i hi
      unfold slice
      rw [List.drop_append_of_le_length hi, List.take_append, List.length_drop]
    have hlen : (slice file o s.bufSize).length = s.bufSize := by
      rw [length_slice]
      omega
    rw [hend, padded, hcut _ _ _ (by omega), hcut _ _ _ (by omega), htail, hlen, slice, slice,
      List.take_take, List.take_take]
    congr 2
    omega

/-- The block of a record that `load_block` reads. -/
def blockAt (mem : Stream) (file : List UInt8) (n : ℕ) : Block :=
  (Block.fromStream ((padded mem file).drop (recordSize * n))).1.getD default

theorem blockAt_toStream (mem : Stream) (hn : recordSize * n < file.length) :
    (blockAt mem file n).toStream = slice (padded mem file) (recordSize * n) recordSize := by
  have hlong : recordSize ≤ ((padded mem file).drop (recordSize * n)).length := by
    rw [List.length_drop, length_padded]
    omega
  obtain ⟨b, hb, hbytes⟩ := Block.fromStream_long hlong
  unfold blockAt
  rw [hb]
  exact hbytes

/-! ## One call -/

/-- Before the call with number `n`: it goes on in the buffer or refills it, or the file was
used up. -/
inductive Next (mem : Stream) (file : List UInt8) (n : ℕ) (s : Stream) : Prop
  | more (o : ℕ) (h : FilledAt mem file o s) (hpos : o + s.bufPos = recordSize * n)
      (halign : recordSize ∣ s.bufPos) (hle : s.bufPos ≤ mergeBufferSize)
  | ended (hpos : s.bufSize ≤ s.bufPos) (hsize : s.bufSize ≠ mergeBufferSize)
      (hend : file.length ≤ recordSize * n)

/-- What the call with number `n` leaves. -/
structure Loads (mem : Stream) (file : List UInt8) (n : ℕ) (s : Stream) : Prop where
  next : Next mem file (n + 1) s
  block : recordSize * n < file.length → s.bl = blockAt mem file n
  zero : file.length ≤ recordSize * n → s.bl.size = 0

/-- The end of `load_block`. -/
theorem FilledAt.copyBlock (h : FilledAt mem file o s) (hpos : o + s.bufPos = recordSize * n)
    (halign : recordSize ∣ s.bufPos) (hlt : s.bufPos < s.bufSize) :
    ∃ s', Stream.copyBlock copyMembers s = .ok s' ∧ Loads mem file n s' := by
  have hsize := h.size
  have hle : s.bufPos + recordSize ≤ mergeBufferSize := by
    obtain ⟨q, hq⟩ := halign
    rw [mergeBufferSize_eq] at hsize ⊢
    unfold recordSize at hq hsize ⊢
    omega
  have hfile : recordSize * n < file.length := by omega
  have hrec := h.record hlt hle
  rw [hpos, ← blockAt_toStream mem hfile] at hrec
  refine ⟨{ s with bl := blockAt mem file n, bufPos := s.bufPos + recordSize }, ?_, ?_, ?_, ?_⟩
  · unfold Stream.copyBlock
    rw [copyMembers_ok s.buf s.bl hle hrec]
    rfl
  · refine .more o ⟨h.size, h.is, h.data⟩ ?_ (Nat.dvd_add halign (Nat.dvd_refl _)) hle
    change o + (s.bufPos + recordSize) = _
    rw [← Nat.add_assoc, hpos, Nat.mul_succ]
  · exact fun _ => rfl
  · intro hge
    omega

/-- The zero-sized block of a file that is used up. -/
theorem loads_exhaust (hpos : s.bufSize ≤ s.bufPos) (hsize : s.bufSize ≠ mergeBufferSize)
    (hend : file.length ≤ recordSize * n) : Loads mem file n s.exhaust := by
  refine ⟨.ended hpos hsize ?_, fun hlt => absurd hlt hend.not_gt, fun _ => rfl⟩
  rw [Nat.mul_succ]
  exact hend.trans (Nat.le_add_right _ _)

/-- **One call of `load_block`.** -/
theorem loadBlock_step (h : Next mem file n s) :
    ∃ s', Stream.loadBlockWith copyMembers s = .ok s' ∧ Loads mem file n s' := by
  unfold Stream.loadBlockWith
  cases h with
  | ended hpos hsize hend =>
    rw [if_pos hpos, if_pos hsize]
    exact ⟨_, rfl, loads_exhaust hpos hsize hend⟩
  | more o h hpos halign hle =>
    have hsize := h.size
    by_cases hused : s.bufSize ≤ s.bufPos
    · rw [if_pos hused]
      by_cases hfull : s.bufSize = mergeBufferSize
      · -- a full buffer is refilled, also when the file ended with it
        rw [if_neg (not_not.2 hfull)]
        have hbufPos : s.bufPos = mergeBufferSize := by omega
        rw [hbufPos] at hpos
        have hbuf : s.buf.data = slice (window mem file) (o + mergeBufferSize) mergeBufferSize := by
          have hnil : slice (window mem file) (o + mergeBufferSize) 0 = [] := List.take_zero
          rw [h.data, hfull, Nat.sub_self, hnil, List.append_nil, Nat.add_comm, slice_window]
        have hnext := FilledAt.refill hbuf h.is
        by_cases hzero : s.loadBuffer.2 = 0
        · have hlen := (hnext s.bufPos).size
          change s.loadBuffer.2 = _ at hlen
          have hM : 0 < mergeBufferSize := by decide
          refine ⟨_, if_pos hzero, loads_exhaust ?_ ?_ (by omega)⟩
          · exact hzero.trans_le (Nat.zero_le _)
          · exact fun heq => hM.ne (hzero.symm.trans heq)
        · obtain ⟨s', hok, hloads⟩ := (hnext 0).copyBlock hpos (Nat.dvd_zero _)
            (Nat.pos_of_ne_zero hzero)
          exact ⟨s', (if_neg hzero).trans hok, hloads⟩
      · rw [if_pos hfull]
        exact ⟨_, rfl, loads_exhaust hused hfull (by omega)⟩
    · rw [if_neg hused]
      exact h.copyBlock hpos halign (not_le.1 hused)

/-- **Any number of calls.** -/
theorem nthLoad_loads (mem : Stream) (file : List UInt8) (n : ℕ) :
    ∃ s, nthLoad { mem with is := file } n = .ok s ∧ Loads mem file n s := by
  induction n with
  | zero =>
    have hbuf : mem.buf.data = slice (window mem file) 0 mergeBufferSize :=
      (List.take_left' mem.buf.len).symm
    have hnext := FilledAt.refill (s := { mem with is := file }) hbuf rfl 0
    exact loadBlock_step (.more 0 hnext rfl (Nat.dvd_zero _) (Nat.zero_le _))
  | succ n ih =>
    obtain ⟨s, hs, hloads⟩ := ih
    obtain ⟨s', hs', hloads'⟩ := loadBlock_step hloads.next
    refine ⟨s', ?_, hloads'⟩
    unfold nthLoad
    rw [hs]
    exact hs'

/-! ## Agreement -/

/-- The size that `load_block` reads of the record that the end of a file cuts off. -/
def cutSize (mem : Stream) (file : List UInt8) : ℕ :=
  leNat (slice (padded mem file) (recordSize * (file.length / recordSize) + cksumLen + 4) 4)

theorem blockAt_size (mem : Stream) (hn : recordSize * n < file.length) :
    leNat (slice (padded mem file) (recordSize * n + cksumLen + 4) 4) =
      (blockAt mem file n).size.toNat := by
  obtain ⟨-, -, hsize, -⟩ := slice_record (blockAt_toStream mem hn).symm
  rw [hsize]
  exact leNat_leBytes (blockAt mem file n).size.toNat_lt

/-- A whole record of the file is the one that `load_block` reads. -/
theorem blockAt_eq (mem : Stream) {b : Block} {rest : List UInt8}
    (h : Block.fromStream (file.drop (recordSize * n)) = (some b, rest)) :
    recordSize * n < file.length ∧ blockAt mem file n = b := by
  have hbytes := Block.fromStream_some h
  have hlen := congrArg List.length hbytes
  rw [List.length_append, Block.length_toStream, List.length_drop] at hlen
  have hpos : 0 < recordSize := by decide
  have hn : recordSize * n < file.length := by omega
  refine ⟨hn, Block.toStream_injective ?_⟩
  rw [blockAt_toStream mem hn, padded, slice, List.drop_append_of_le_length hn.le, hbytes,
    List.append_assoc]
  exact List.take_left' b.length_toStream

/-- `FromStream` first returns false where fewer than 36 bytes are left. -/
theorem nthRead_none (h : (nthRead file n).1 = none) : file.length < recordSize * (n + 1) := by
  rcases hr : nthRead file n with ⟨_ | b, rest⟩
  · rw [nthRead_eq] at hr
    have hlen := (Block.fromStream_none hr).1
    rw [List.length_drop] at hlen
    rw [Nat.mul_succ]
    omega
  · rw [hr] at h
    cases h

theorem nthRead_cut (h : ¬ recordSize ∣ file.length) :
    (nthRead file (file.length / recordSize)).1 = none ∧
      recordSize * (file.length / recordSize) < file.length := by
  unfold recordSize at h
  have hshort : (file.drop (recordSize * (file.length / recordSize))).length < recordSize := by
    rw [List.length_drop]
    unfold recordSize
    omega
  rw [nthRead_eq, Block.fromStream_short hshort]
  refine ⟨rfl, ?_⟩
  unfold recordSize
  omega

/-- A record that is cut off, and gets a size, is a block that `FromStream` does not read. -/
theorem ReadersAgree.cut (h : ReadersAgree mem file) :
    recordSize ∣ file.length ∨ cutSize mem file = 0 := by
  by_contra hcut
  rw [not_or] at hcut
  obtain ⟨hnone, hlt⟩ := nthRead_cut hcut.1
  obtain ⟨s, hs, -, hzero⟩ := h (file.length / recordSize)
  obtain ⟨s', hs', hloads⟩ := nthLoad_loads mem file (file.length / recordSize)
  cases hs.symm.trans hs'
  apply hcut.2
  unfold cutSize
  rw [blockAt_size mem hlt, ← hloads.block hlt, hzero hnone]
  rfl

/-- **When the readers agree on a file**: it has whole records only, or the record that is cut
off gets the size zero from the bytes behind it in the buffer. -/
theorem readersAgree_iff (mem : Stream) (file : List UInt8) :
    ReadersAgree mem file ↔ recordSize ∣ file.length ∨ cutSize mem file = 0 := by
  refine ⟨ReadersAgree.cut, fun hcut n => ?_⟩
  obtain ⟨s, hs, hloads⟩ := nthLoad_loads mem file n
  refine ⟨s, hs, ?_, ?_⟩
  · intro b hb
    rcases hr : nthRead file n with ⟨b', rest⟩
    rw [hr] at hb
    obtain rfl : b' = some b := hb
    rw [nthRead_eq] at hr
    obtain ⟨hlt, heq⟩ := blockAt_eq mem hr
    rw [hloads.block hlt, heq]
  · intro hnone
    have hlen := nthRead_none hnone
    by_cases hlt : recordSize * n < file.length
    · -- the call that reads what is cut off
      have hn : file.length / recordSize = n := by
        unfold recordSize at hlen hlt ⊢
        omega
      have hndvd : ¬ recordSize ∣ file.length := by
        unfold recordSize at hlen hlt ⊢
        omega
      have hzero := hcut.resolve_left hndvd
      unfold cutSize at hzero
      rw [hn, blockAt_size mem hlt] at hzero
      rw [hloads.block hlt]
      exact UInt32.toNat_inj.1 hzero
    · exact hloads.zero (not_lt.1 hlt)

/-- A file of 28 bytes, which end with the size of a record. -/
def cutFile : List UInt8 := List.replicate 24 0 ++ [1, 0, 0, 0]

/-- `FromStream` returns false at once, and `load_block` loads a block of one byte. -/
theorem not_readersAgree_cut : ¬ ReadersAgree default cutFile := by
  intro h
  have hsize : slice (padded default cutFile) 24 4 = [1, 0, 0, 0] := by
    unfold padded
    unfold slice
    rw [List.drop_append_of_le_length (by decide)]
    rfl
  rcases h.cut with hdvd | hzero
  · revert hdvd
    decide
  · have hN : recordSize * (cutFile.length / recordSize) + cksumLen + 4 = 24 := by decide
    unfold cutSize at hzero
    rw [hN, hsize] at hzero
    revert hzero
    decide

end Merge

end DedupSim
