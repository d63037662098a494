import DedupSim.Spec.Types

/-!
# Segments (`trace_types.cpp`)

A segment is a run of a log's blocks of about 2 MB. `ctx` holds the bytes given to
`SHA1_Update` since `Init`. `loadBlocks` is the loading loop, shared by
`LoadFixSize` and by `load_segment` of the simulators. `toStream` and `fromStream` are
the encoding of segments with their number of blocks in front, `saveRaw` without it.
-/

namespace DedupSim

open LittleEndian

structure Segment where
  blocklist : List Block
  minIdx : UInt32
  size : UInt32
  ctx : List UInt8
  cksum : Checksum
deriving DecidableEq, Inhabited

namespace Segment

/-- `Segment::Init`; the old checksum stays. -/
def init (seg : Segment) : Segment := { seg with blocklist := [], minIdx := 0, size := 0, ctx := [] }

/-- `Segment::AddBlock`. -/
def addBlock (seg : Segment) (blk : Block) : Segment :=
  let blocklist := seg.blocklist ++ [blk]
  { seg with
    blocklist := blocklist
    size := seg.size + blk.size
    ctx := seg.ctx ++ blk.cksum.data
    minIdx := if blk.cksum < (blocklist.getD seg.minIdx.toNat blk).cksum then
        UInt32.ofNat (blocklist.length - 1)
      else seg.minIdx }

/-- `Segment::Final`. -/
def final (sha1 : List UInt8 → Checksum) (seg : Segment) : Segment := { seg with cksum := sha1 seg.ctx }

/-- The loop of `LoadFixSize`. -/
def loadBlocks (rd : RecordReader) (seg : Segment) (is : List UInt8) : Segment × List UInt8 :=
  match _h : rd.read is with
  | (none, rest) => (seg, rest)
  | (some blk, rest) =>
    if blk.size = 0 then loadBlocks rd seg rest
    else
      let seg := seg.addBlock blk
      if fixSegmentSize ≤ seg.size.toNat then (seg, rest) else loadBlocks rd seg rest
termination_by is.length
decreasing_by
  · exact rd.lt _h
  · exact rd.lt _h

/-- `load_segment`, and `LoadFixSize`, with one reader or the other. -/
def loadWith (rd : RecordReader) (sha1 : List UInt8 → Checksum) (seg : Segment) (is : List UInt8) :
    Bool × Segment × List UInt8 :=
  let (seg, rest) := loadBlocks rd seg.init is
  let seg := seg.final sha1
  (if seg.size = 0 then false else true, seg, rest)

/-- `Segment::LoadFixSize`. -/
def loadFixSize : (List UInt8 → Checksum) → Segment → List UInt8 → Bool × Segment × List UInt8 :=
  loadWith Block.reader

/-- `load_segment` of the simulators. -/
def loadSegment : (List UInt8 → Checksum) → Segment → List UInt8 → Bool × Segment × List UInt8 :=
  loadWith Block.loader

variable {rd : RecordReader} {sha1 : List UInt8 → Checksum} {seg : Segment} {is : List UInt8}

theorem loadBlocks_none {rest : List UInt8} (h : rd.read is = (none, rest)) :
    loadBlocks rd seg is = (seg, rest) := by
  unfold loadBlocks
  split
  · rename_i rest' hr
    rw [h] at hr
    cases hr
    rfl
  · rename_i b rest' hr
    rw [h] at hr
    cases hr

theorem loadBlocks_some {rest : List UInt8} {blk : Block} (h : rd.read is = (some blk, rest)) :
    loadBlocks rd seg is =
      if blk.size = 0 then loadBlocks rd seg rest
      else if fixSegmentSize ≤ (seg.addBlock blk).size.toNat then (seg.addBlock blk, rest)
      else loadBlocks rd (seg.addBlock blk) rest := by
  rw [loadBlocks]
  split
  · rename_i rest' hr
    rw [h] at hr
    cases hr
  · rename_i b rest' hr
    rw [h] at hr
    cases hr
    rfl

theorem loadBlocks_le (rd : RecordReader) (is : List UInt8) :
    ∀ seg, (loadBlocks rd seg is).2.length ≤ is.length := by
  induction h : is.length using Nat.strong_induction_on generalizing is with
  | _ n ih =>
    subst h
    intro seg
    rcases hr : rd.read is with ⟨_ | blk, rest⟩
    · rw [loadBlocks_none hr]
      have := rd.le is
      rwa [hr] at this
    · have hlt := rd.lt hr
      have hrest := ih _ hlt rest rfl
      rw [loadBlocks_some hr]
      split
      · exact (hrest seg).trans hlt.le
      · split
        · exact hlt.le
        · exact (hrest _).trans hlt.le

/-- A load that succeeds takes a record at least. -/
theorem loadWith_lt {seg' : Segment} {rest : List UInt8}
    (h : loadWith rd sha1 seg is = (true, seg', rest)) : rest.length < is.length := by
  simp only [loadWith, Prod.mk.injEq] at h
  obtain ⟨hok, -, rfl⟩ := h
  rcases hr : rd.read is with ⟨_ | blk, rest⟩
  · rw [loadBlocks_none hr] at hok
    simp [final, init] at hok
  · have hlt := rd.lt hr
    have hrest := loadBlocks_le rd rest
    rw [loadBlocks_some hr]
    split
    · exact lt_of_le_of_lt (hrest _) hlt
    · split
      · exact hlt
      · exact lt_of_le_of_lt (hrest _) hlt

/-- The loop `while (seg.LoadFixSize(is))`. -/
def loadAll (sha1 : List UInt8 → Checksum) (seg : Segment) (is : List UInt8) : List Segment :=
  match _h : loadFixSize sha1 seg is with
  | (false, _, _) => []
  | (true, seg, rest) => seg :: loadAll sha1 seg rest
termination_by is.length
decreasing_by exact loadWith_lt _h

theorem loadAll_true {seg' : Segment} {rest : List UInt8}
    (h : loadFixSize sha1 seg is = (true, seg', rest)) :
    loadAll sha1 seg is = seg' :: loadAll sha1 seg' rest := by
  rw [loadAll]
  split
  · rename_i hr
    rw [h] at hr
    cases hr
  · rename_i seg'' rest' hr
    rw [h] at hr
    cases hr
    rfl

theorem loadAll_false (h : (loadFixSize sha1 seg is).1 = false) : loadAll sha1 seg is = [] := by
  unfold loadAll
  split
  · rfl
  · rename_i seg'' rest' hr
    rw [hr] at h
    cases h

/-! ## Segments in a stream -/

/-- `Segment::GetMinHash`; `none` where it reads outside the vector, as of an empty segment. -/
def minHash? (seg : Segment) : Option Checksum := (seg.blocklist[seg.minIdx.toNat]?).map Block.cksum

/-- The min-hash of a segment that is not empty. -/
def getMinHash (seg : Segment) : Checksum := seg.minHash?.getD default

/-- `Segment::ToStream`; the number of blocks is a `uint32_t`. -/
def toStream (seg : Segment) : List UInt8 :=
  let numBlocks := UInt32.ofNat seg.blocklist.length
  leBytes 4 numBlocks.toNat ++ (seg.blocklist.take numBlocks.toNat).flatMap Block.toStream

/-- `Segment::SaveRaw`: the blocks without their number. -/
def saveRaw (seg : Segment) : List UInt8 :=
  let numBlocks := UInt32.ofNat seg.blocklist.length
  (seg.blocklist.take numBlocks.toNat).flatMap Block.toStream

/-- The loop of `FromStream`: whether `numBlocks` blocks were read. -/
def addFromStream : ℕ → Segment → List UInt8 → Bool × Segment × List UInt8
  | 0, seg, is => (true, seg, is)
  | n + 1, seg, is =>
    match Block.fromStream is with
    | (some blk, is) => addFromStream n (seg.addBlock blk) is
    | (none, is) => (false, seg, is)

/-- `Segment::FromStream`. -/
def fromStream (sha1 : List UInt8 → Checksum) (seg : Segment) (is : List UInt8) :
    Bool × Segment × List UInt8 :=
  let seg := seg.init
  let buf := is.take 4
  if buf.length ≠ 4 then (false, seg, is.drop 4)
  else
    match addFromStream (leNat buf) seg (is.drop 4) with
    | (true, seg, is) => (true, seg.final sha1, is)
    | (false, seg, is) => (false, seg, is)

theorem addFromStream_le (n : ℕ) (seg : Segment) (is : List UInt8) :
    (addFromStream n seg is).2.2.length ≤ is.length := by
  induction n generalizing seg is with
  | zero => exact le_rfl
  | succ n ih =>
    have hle := Block.fromStream_le is
    unfold addFromStream
    split
    · rename_i hr
      rw [hr] at hle
      exact (ih _ _).trans hle
    · rename_i hr
      rwa [hr] at hle

theorem fromStream_lt {seg' : Segment} {rest : List UInt8}
    (h : fromStream sha1 seg is = (true, seg', rest)) : rest.length < is.length := by
  have hle := addFromStream_le (leNat (is.take 4)) seg.init (is.drop 4)
  simp only [fromStream] at h
  split at h
  · cases h
  · rename_i hlen
    rw [not_not, List.length_take] at hlen
    rw [List.length_drop] at hle
    split at h
    · rename_i hadd
      cases h
      rw [hadd] at hle
      simp only at hle
      omega
    · cases h

/-- The loop `while (seg.FromStream(is))`: the segments, and what is left when a call
fails. -/
def fromStreamAll (sha1 : List UInt8 → Checksum) (seg : Segment) (is : List UInt8) :
    List Segment × List UInt8 :=
  match _h : fromStream sha1 seg is with
  | (false, _, _) => ([], is)
  | (true, seg, rest) => (seg :: (fromStreamAll sha1 seg rest).1, (fromStreamAll sha1 seg rest).2)
termination_by is.length
decreasing_by all_goals exact fromStream_lt _h

theorem fromStreamAll_true {seg' : Segment} {rest : List UInt8}
    (h : fromStream sha1 seg is = (true, seg', rest)) :
    fromStreamAll sha1 seg is =
      (seg' :: (fromStreamAll sha1 seg' rest).1, (fromStreamAll sha1 seg' rest).2) := by
  rw [fromStreamAll]
  split
  · rename_i hr
    rw [h] at hr
    cases hr
  · rename_i seg'' rest' hr
    rw [h] at hr
    cases hr
    rfl

theorem fromStreamAll_false (h : (fromStream sha1 seg is).1 = false) :
    fromStreamAll sha1 seg is = ([], is) := by
  unfold fromStreamAll
  split
  · rfl
  · rename_i seg'' rest' hr
    rw [hr] at h
    cases h

end Segment

end DedupSim
