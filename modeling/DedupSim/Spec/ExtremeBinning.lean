import DedupSim.Lib.OrderedMap
import DedupSim.Spec.Simulator
import Mathlib.Data.String.Basic

/-!
# Extreme binning (`eb_segment.cpp`, `eb_dedup.cpp`, `Bin` of `dedup_types.hpp`)

* `ebSegment`: the segments of a log, each appended to one of the 256 files of a directory.
* `ebBins`: the segments of such a file, grouped into bins by their min-hash.
* `ebDedup`: the bins, each deduplicated.

The lines that are printed are left out, but for the numbers that they show. A file that
does not open ends `eb_dedup` and is left out.
-/

namespace DedupSim

open LittleEndian

/-! ## Keys -/

/-- `Checksum::ToString`: the bytes as `%02x`. -/
def Checksum.toString (c : Checksum) : String :=
  .ofList (c.data.flatMap fun b => [(b.toNat / 16).digitChar, (b.toNat % 16).digitChar])

/-- `Checksum::Middle4Bytes`. -/
def Checksum.middle4Bytes (c : Checksum) : UInt32 :=
  UInt32.ofNat (leNat (slice c.data (cksumLen - 12) 4))

/-! ## `eb_segment.cpp` -/

/-- The totals of a summary line. -/
structure Summary where
  blocks : UInt64
  bytes : UInt64
deriving DecidableEq, Inhabited

/-- `blocks += seg.blocklist_.size(); bytes += seg.size_;`. -/
def Summary.add (s : Summary) (seg : Segment) : Summary where
  blocks := s.blocks + UInt64.ofNat seg.blocklist.length
  bytes := s.bytes + seg.size.toUInt64

/-- The number of the file that a segment is written to. -/
def Segment.partition (seg : Segment) : ℕ := (seg.getMinHash.middle4Bytes % 256).toNat

/-- The files of the output directory, by their numbers. -/
abbrev OutputDir := ℕ → List UInt8

variable (sha1 : List UInt8 → Checksum)

/-- `main` of `eb_segment`: the directory and the trace summary. The files are opened to be
appended to. -/
def ebSegment (seg : Segment) (os : OutputDir) (is : List UInt8) : OutputDir × Summary :=
  (Segment.loadAll sha1 seg is).foldl
    (fun (os, summary) seg =>
      (Function.update os seg.partition (os seg.partition ++ seg.toStream), summary.add seg))
    (os, ⟨0, 0⟩)

/-- Logs one after another: the directory and the trace summaries. -/
def ebSegments (seg : Segment) : OutputDir → List (List UInt8) → OutputDir × List Summary
  | os, [] => (os, [])
  | os, is :: logs =>
    let (os, summary) := ebSegment sha1 seg os is
    let (os, summaries) := ebSegments seg os logs
    (os, summary :: summaries)

/-! ## Bins -/

/-- `Bin`; `minHash` is `none` after an empty segment, of which it is read outside a vector. -/
structure Bin where
  blocklist : List Block
  numSegments : UInt32
  minHash : Option String
  numBlocks : UInt32
  numBlocks1 : UInt32
  numDedupBlocks : UInt32
  size : UInt32
  size1 : UInt32
  dedupSize : UInt32
deriving DecidableEq

namespace Bin

/-- `Bin::Bin`. -/
def new : Bin where
  blocklist := []
  numSegments := 0
  minHash := some ""
  numBlocks := 0
  numBlocks1 := 0
  numDedupBlocks := 0
  size := 0
  size1 := 0
  dedupSize := 0

/-- `Bin::AddSegment`. -/
def addSegment (bin : Bin) (seg : Segment) : Bin :=
  let bin := { bin with blocklist := bin.blocklist ++ seg.blocklist }
  let bin := seg.blocklist.foldl
    (fun bin blk => { bin with size1 := bin.size1 + blk.size, numBlocks1 := bin.numBlocks1 + 1 }) bin
  { bin with
    numSegments := bin.numSegments + 1
    minHash := seg.minHash?.map Checksum.toString }

/-- The `while` loop of `Deduplication`, with the index `i`. -/
def skipEqual : ℕ → UInt32 → Bin → Option (UInt32 × Bin)
  | 0, _, _ => none
  | fuel + 1, i, bin =>
    match bin.blocklist[i.toNat]?, bin.blocklist[(i + 1).toNat]? with
    | some a, some b =>
      if i.toNat < bin.blocklist.length - 1 ∧ b.cksum = a.cksum then
        skipEqual fuel (i + 1)
          { bin with numBlocks := bin.numBlocks + 1, size := bin.size + b.size }
      else some (i, bin)
    | _, _ => some (i, bin)

/-- The `for` loop of `Deduplication`, with the index `i`. -/
def dedupLoop : ℕ → UInt32 → Bin → Option Bin
  | 0, _, _ => none
  | fuel + 1, i, bin =>
    match bin.blocklist[i.toNat]? with
    | none => some bin
    | some b => do
      let bin :=
        { bin with
          numBlocks := bin.numBlocks + 1
          size := bin.size + b.size
          dedupSize := bin.dedupSize + b.size
          numDedupBlocks := bin.numDedupBlocks + 1 }
      let (i, bin) ← skipEqual (fuel + 1) i bin
      dedupLoop fuel (i + 1) bin

/-- `Bin::Deduplication`, with the `std::sort` that it calls. `none` stands for a call that
does not return: the indices are `uint32_t`, and there may be more blocks. -/
def deduplication (so : Sorter Block.cksum) (bin : Bin) : Option Bin :=
  let bin := { bin with numBlocks := 0, size := 0, dedupSize := 0, numDedupBlocks := 0 }
  let bin := { bin with blocklist := so.sort bin.blocklist }
  dedupLoop (bin.blocklist.length + 1) 0 bin

end Bin

/-! ## `eb_dedup.cpp` -/

/-- Step 1 of `main` of `eb_dedup`: the bins by the strings of their min-hashes, and the
partition summary. -/
def ebBins (seg : Segment) (is : List UInt8) : OrderedMap String Bin × Summary :=
  (Segment.fromStreamAll sha1 seg is).1.foldl
    (fun (binmap, summary) seg =>
      (binmap.alter seg.getMinHash.toString fun bin => (bin.getD Bin.new).addSegment seg,
        summary.add seg))
    (.empty, ⟨0, 0⟩)

/-- Step 2: the loop over the map. -/
def dedupBins (so : Sorter Block.cksum) : List (String × Bin) → Option (List (String × Bin))
  | [] => some []
  | it :: its => do
    let bin ← it.2.deduplication so
    let its ← dedupBins so its
    return (it.1, bin) :: its

/-- `main` of `eb_dedup`: the partition summary, and the bins after step 2. -/
def ebDedup (so : Sorter Block.cksum) (seg : Segment) (is : List UInt8) :
    Option (Summary × List (String × Bin)) := do
  let (binmap, summary) := ebBins sha1 seg is
  let bins ← dedupBins so binmap.entries
  return (summary, bins)

end DedupSim
