import DedupSim.Spec.Merge

/-!
# The buffered readers of the merge

* `Unread`: the blocks a stream still has in its buffer and in its file.
* `Delivers`: the block it has loaded, and those after it.
* `loadFirst_ok`, `loadBlock_ok`: **each load delivers the next block**, also where the
  buffer ends with it, and a zero-sized one after the last.
-/

namespace DedupSim

open LittleEndian

variable {copy : Copy} {s : Stream} {b : Block} {bs later : List Block} {l : List UInt8} {i n m pos : ℕ}

/-! ## Slices -/

theorem slice_front (l : List UInt8) (i : ℕ) (h : m ≤ n) : slice l i m = (slice l i n).take m := by
  rw [slice, slice, List.take_take, min_eq_left h]

theorem slice_back (l : List UInt8) (i m n : ℕ) : slice l (i + m) (n - m) = (slice l i n).drop m := by
  rw [slice, slice, List.drop_take, List.drop_drop]

/-- The bytes of a list of records. -/
theorem length_records (bs : List Block) :
    (bs.flatMap Block.toStream).length = recordSize * bs.length := by
  induction bs with
  | nil => rfl
  | cons b bs ih =>
    rw [List.flatMap_cons, List.length_append, ih, Block.length_toStream, List.length_cons]
    ring

/-- Whole records are cut off. -/
theorem take_drop_records (bs : List Block) (n : ℕ) :
    (bs.flatMap Block.toStream).take (recordSize * n) = (bs.take n).flatMap Block.toStream ∧
      (bs.flatMap Block.toStream).drop (recordSize * n) = (bs.drop n).flatMap Block.toStream := by
  have hsplit : bs.flatMap Block.toStream =
      (bs.take n).flatMap Block.toStream ++ (bs.drop n).flatMap Block.toStream := by
    rw [← List.flatMap_append, List.take_append_drop]
  by_cases hn : n ≤ bs.length
  · have hlen : ((bs.take n).flatMap Block.toStream).length = recordSize * n := by
      rw [length_records, List.length_take, min_eq_left hn]
    rw [hsplit]
    exact ⟨List.take_left' hlen, List.drop_left' hlen⟩
  · have hn' : bs.length ≤ n := (not_le.1 hn).le
    have hlen : (bs.flatMap Block.toStream).length ≤ recordSize * n := by
      rw [length_records]
      exact Nat.mul_le_mul_left _ hn'
    rw [List.take_of_length_le hlen, List.drop_of_length_le hlen, List.take_of_length_le hn',
      List.drop_of_length_le hn']
    exact ⟨rfl, rfl⟩

/-- A buffer holds 40960 records. -/
theorem mergeBufferSize_eq : mergeBufferSize = recordSize * 40960 := rfl

/-! ## Copying -/

/-- What the merge takes of a block. -/
def Block.content (b : Block) : Checksum × UInt32 := (b.cksum, b.size)

/-- A copy that takes a record's checksum and size, and moves past it. -/
def Copy.Copies (copy : Copy) : Prop :=
  ∀ (buf : Buffer) (pos : ℕ) (b bl : Block), pos + recordSize ≤ mergeBufferSize →
    slice buf.data pos recordSize = b.toStream →
      ∃ bl', copy buf pos bl = .ok (bl', pos + recordSize) ∧ bl'.content = b.content

theorem Buffer.memcpy_ok (buf : Buffer) (h : pos + n ≤ mergeBufferSize) :
    buf.memcpy pos n = .ok ⟨slice buf.data pos n, by rw [length_slice, buf.len]; omega⟩ := dif_pos h

/-- Where the members lie in a record. -/
theorem slice_record (h : slice l pos recordSize = b.toStream) :
    slice l pos cksumLen = b.cksum.data ∧
      slice l (pos + cksumLen) 4 = leBytes 4 b.fileId.toNat ∧
      slice l (pos + cksumLen + 4) 4 = leBytes 4 b.size.toNat ∧
      slice l (pos + cksumLen + 4 + 4) 8 = leBytes 8 b.offset.toNat := by
  have hc : b.cksum.toStream.length = cksumLen := b.cksum.len
  have hmember : ∀ o m x y z, o + m ≤ recordSize → b.toStream = x ++ y ++ z → x.length = o →
      y.length = m → slice l (pos + o) m = y := by
    intro o m x y z hle hb hx hy
    rw [← slice_slice hle, h, hb, slice, List.append_assoc, List.drop_left' hx, List.take_left' hy]
  unfold Block.toStream at hmember
  refine ⟨?_, ?_, ?_, ?_⟩
  · exact hmember 0 cksumLen [] _ (leBytes 4 b.fileId.toNat ++ leBytes 4 b.size.toNat ++
      leBytes 8 b.offset.toNat) (by decide) (by simp [Checksum.toStream]) rfl hc
  · exact hmember cksumLen 4 b.cksum.toStream _ (leBytes 4 b.size.toNat ++ leBytes 8 b.offset.toNat)
      (by decide) (by simp) hc (by simp)
  · rw [Nat.add_assoc]
    exact hmember (cksumLen + 4) 4 (b.cksum.toStream ++ leBytes 4 b.fileId.toNat) _
      (leBytes 8 b.offset.toNat) (by decide) (by simp) (by simp [hc]) (by simp)
  · rw [Nat.add_assoc, Nat.add_assoc]
    exact hmember (cksumLen + (4 + 4)) 8 (b.cksum.toStream ++ leBytes 4 b.fileId.toNat ++
      leBytes 4 b.size.toNat) _ [] (by decide) (by simp) (by simp [hc]) (by simp)

theorem ofNat_leNat_leBytes (u : UInt32) : UInt32.ofNat (leNat (leBytes 4 u.toNat)) = u := by
  rw [leNat_leBytes (by have := u.toNat_lt; omega), UInt32.ofNat_toNat]

theorem MergeOld.copies : Copy.Copies MergeOld.copyMembers := by
  intro buf pos b bl hpos hrec
  obtain ⟨hcksum, -, hsize, -⟩ := slice_record hrec
  unfold recordSize at hpos ⊢
  have hend : pos + cksumLen + 4 + 4 + 8 ≤ mergeBufferSize := hpos
  have h1 : pos + cksumLen ≤ mergeBufferSize := by omega
  have h2 : pos + cksumLen + 4 + 4 ≤ mergeBufferSize := by omega
  simp only [MergeOld.copyMembers, bind, Except.bind, pure, Except.pure, buf.memcpy_ok h1,
    buf.memcpy_ok h2]
  refine ⟨_, rfl, ?_⟩
  simp only [Block.content, hsize, ofNat_leNat_leBytes, Prod.mk.injEq, and_true]
  exact Checksum.ext_data hcksum

/-- **The copy of all members** is the record. -/
theorem Merge.copyMembers_ok (buf : Buffer) (bl : Block) (hpos : pos + recordSize ≤ mergeBufferSize)
    (hrec : slice buf.data pos recordSize = b.toStream) :
    Merge.copyMembers buf pos bl = .ok (b, pos + recordSize) := by
  obtain ⟨hcksum, hfile, hsize, hoffset⟩ := slice_record hrec
  unfold recordSize at hpos ⊢
  have hend : pos + cksumLen + 4 + 4 + 8 ≤ mergeBufferSize := hpos
  have h1 : pos + cksumLen ≤ mergeBufferSize := by omega
  have h2 : pos + cksumLen + 4 ≤ mergeBufferSize := by omega
  have h3 : pos + cksumLen + 4 + 4 ≤ mergeBufferSize := by omega
  have h8 : UInt64.ofNat (leNat (leBytes 8 b.offset.toNat)) = b.offset := by
    rw [leNat_leBytes (by have := b.offset.toNat_lt; omega), UInt64.ofNat_toNat]
  simp only [Merge.copyMembers, bind, Except.bind, pure, Except.pure, buf.memcpy_ok h1,
    buf.memcpy_ok h2, buf.memcpy_ok h3, buf.memcpy_ok hend, hfile, hsize, hoffset,
    ofNat_leNat_leBytes, h8]
  have hck : (⟨slice buf.data pos cksumLen, by rw [hcksum]; exact b.cksum.len⟩ : Checksum) = b.cksum :=
    Checksum.ext_data hcksum
  rw [hck]
  rfl

theorem Merge.copies : Copy.Copies Merge.copyMembers :=
  fun buf _ b bl hpos hrec => ⟨b, Merge.copyMembers_ok buf bl hpos hrec, rfl⟩

/-! ## Loading -/

/-- The blocks that are still to be loaded: `now` from the buffer, and `later` once it
is used up. A buffer that is not full was the last. -/
structure UnreadSplit (s : Stream) (now later : List Block) : Prop where
  pos_le : s.bufPos ≤ s.bufSize
  size_le : s.bufSize ≤ mergeBufferSize
  buffered : slice s.buf.data s.bufPos (s.bufSize - s.bufPos) = now.flatMap Block.toStream
  file : s.is = later.flatMap Block.toStream
  last : s.bufSize ≠ mergeBufferSize → later = []

/-- The blocks that are still to be loaded. -/
def Unread (s : Stream) (bs : List Block) : Prop :=
  ∃ now later, bs = now ++ later ∧ UnreadSplit s now later

/-- The block that is loaded, and the blocks after it. -/
def Delivers (s : Stream) : List Block → Prop
  | [] => s.bl.size = 0
  | b :: bs => s.bl.content = b.content ∧ Unread s bs

theorem UnreadSplit.length {now : List Block} (h : UnreadSplit s now later) :
    s.bufSize - s.bufPos = recordSize * now.length := by
  have hl := congrArg List.length h.buffered
  rw [length_slice, s.buf.len, length_records] at hl
  have := h.pos_le
  have := h.size_le
  omega

/-- A block is copied off the buffer. -/
theorem UnreadSplit.copyBlock (hc : copy.Copies) (h : UnreadSplit s (b :: bs) later) :
    ∃ s', Stream.copyBlock copy s = .ok s' ∧ s'.bl.content = b.content ∧ Unread s' (bs ++ later) := by
  have hlen := h.length
  rw [List.length_cons, Nat.mul_add, Nat.mul_one] at hlen
  have hpos := h.pos_le
  have hsize := h.size_le
  have hbuf := h.buffered
  have hle : recordSize ≤ s.bufSize - s.bufPos := by omega
  rw [List.flatMap_cons] at hbuf
  have hrec : slice s.buf.data s.bufPos recordSize = b.toStream := by
    rw [slice_front _ _ hle, hbuf]
    exact List.take_left' b.length_toStream
  obtain ⟨bl, hcopy, hcontent⟩ := hc s.buf s.bufPos b s.bl (by omega) hrec
  refine ⟨{ s with bl := bl, bufPos := s.bufPos + recordSize }, ?_, hcontent, bs, later, rfl, ?_⟩
  · rw [Stream.copyBlock, hcopy]
    rfl
  · refine ⟨?_, hsize, ?_, h.file, h.last⟩
    · change s.bufPos + recordSize ≤ s.bufSize
      omega
    · change slice s.buf.data (s.bufPos + recordSize) (s.bufSize - (s.bufPos + recordSize)) = _
      rw [Nat.sub_add_eq, slice_back, hbuf]
      exact List.drop_left' b.length_toStream

/-- **A refill** splits the file's blocks at the end of the buffer. -/
theorem loadBuffer_split (h : s.is = later.flatMap Block.toStream) :
    UnreadSplit { s.loadBuffer.1 with bufSize := s.loadBuffer.2, bufPos := 0 } (later.take 40960)
        (later.drop 40960) ∧ (s.loadBuffer.2 = 0 ↔ later = []) := by
  obtain ⟨htake, hdrop⟩ := take_drop_records later 40960
  rw [← mergeBufferSize_eq] at htake hdrop
  have hlen := length_records later
  refine ⟨⟨Nat.zero_le _, ?_, ?_, ?_, ?_⟩, ?_⟩
  · exact List.length_take_le _ _
  · change slice (s.is.take mergeBufferSize ++ _) 0 ((s.is.take mergeBufferSize).length - 0) = _
    rw [h, htake]
    exact List.take_left' rfl
  · change s.is.drop mergeBufferSize = _
    rw [h, hdrop]
  · intro hne
    change (s.is.take mergeBufferSize).length ≠ mergeBufferSize at hne
    rw [List.length_take, h, hlen, mergeBufferSize_eq] at hne
    unfold recordSize at hne
    exact List.drop_of_length_le (by omega)
  · change (s.is.take mergeBufferSize).length = 0 ↔ _
    rw [List.length_take, h, hlen, mergeBufferSize_eq, ← List.length_eq_zero_iff]
    unfold recordSize
    omega

/-- **`load_block`.** -/
theorem loadBlock_ok (hc : copy.Copies) (h : Unread s bs) :
    ∃ s', Stream.loadBlockWith copy s = .ok s' ∧ Delivers s' bs := by
  obtain ⟨now, later, rfl, hsplit⟩ := h
  have hlen := hsplit.length
  unfold Stream.loadBlockWith
  rcases now with - | ⟨b, now⟩
  · -- the buffer is used up
    have hpos : s.bufSize ≤ s.bufPos := by
      rw [List.length_nil, Nat.mul_zero] at hlen
      omega
    rw [if_pos hpos]
    by_cases hfull : s.bufSize = mergeBufferSize
    · -- a full buffer is refilled, also when the file ended with it
      obtain ⟨hnext, hzero⟩ := loadBuffer_split hsplit.file
      rw [if_neg (not_not.2 hfull)]
      rcases later with - | ⟨b, later⟩
      · refine ⟨_, if_pos (hzero.2 rfl), ?_⟩
        rfl
      · obtain ⟨s', hok, hcontent, hrest⟩ := hnext.copyBlock hc
        refine ⟨s', ?_, hcontent, ?_⟩
        · exact (if_neg fun h0 => by cases hzero.1 h0).trans hok
        · change Unread s' (later.take 40959 ++ later.drop 40959) at hrest
          rwa [List.take_append_drop] at hrest
    · -- a buffer that was not full was the last
      rw [if_pos hfull, hsplit.last hfull]
      exact ⟨_, rfl, rfl⟩
  · have hpos : ¬ s.bufSize ≤ s.bufPos := by
      rw [List.length_cons, recordSize] at hlen
      omega
    rw [if_neg hpos]
    obtain ⟨s', hok, hcontent, hrest⟩ := hsplit.copyBlock hc
    exact ⟨s', hok, hcontent, hrest⟩

/-- **The first block of a file.** -/
theorem loadFirst_ok (hc : copy.Copies) (h : s.is = bs.flatMap Block.toStream) :
    ∃ s', Stream.loadFirst copy s = .ok s' ∧ Delivers s' bs :=
  loadBlock_ok hc ⟨_, _, (List.take_append_drop 40960 bs).symm, (loadBuffer_split h).1⟩

end DedupSim
