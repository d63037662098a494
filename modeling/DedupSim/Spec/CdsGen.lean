import DedupSim.Lib.Binary64
import DedupSim.Spec.Simulator
import Mathlib.Logic.Function.Basic

/-!
# The CDS generator (`dedup_cds_gen.cpp`)

* `splitFiles`: the new blocks of the traces, in 256 files by the first byte of their
  checksums.
* `processFile`: such a file sorted, the blocks of one checksum merged into one with their
  count, and these sorted by it.
* `cdsGen`: the first blocks of each file are the CDS, a fraction of them.

The traces are those that are named on the standard input, up to a line `end`. `none` stands
for a run that the source does not define: an `int` overflows, an index is outside, or a
block is saved that was not loaded. A file that does not open ends the program and is left
out.
-/

namespace DedupSim

/-- `cksum_[0]`. -/
def Checksum.first (c : Checksum) : ℕ := (c.data.get ⟨0, by rw [c.len]; decide⟩).toNat

/-- `sort_by_count`. -/
def sortByCount (left right : Block) : Bool := left.fileId > right.fileId

/-- What it compares, from high to low. -/
def Block.byCount (b : Block) : ℕᵒᵈ := .toDual b.fileId.toNat

theorem sortByCount_iff {left right : Block} :
    sortByCount left right = true ↔ left.byCount < right.byCount := by
  unfold sortByCount Block.byCount
  rw [decide_eq_true_eq, OrderDual.toDual_lt_toDual, gt_iff_lt, UInt32.lt_iff_toNat_lt]

/-- What is after `int num = threshold * size`: the loops run up to it. -/
def numRecords (threshold : Binary64) (size : ℕ) : Option ℕ :=
  let num := (threshold.mul (.ofNat size)).truncate
  if -2 ^ 31 ≤ num ∧ num < 2 ^ 31 then some num.toNat else none

/-- The files of the temporary directory, by their numbers. -/
abbrev TmpFiles := ℕ → List UInt8

/-- The `while` loop over the blocks of an input file. -/
def splitFile (tmp : TmpFiles) (is : List UInt8) : TmpFiles :=
  (Block.loader.readAll is).foldl
    (fun tmp blk =>
      -- only allow new data
      if blk.fileId ≠ 0 then tmp
      else Function.update tmp blk.cksum.first (tmp blk.cksum.first ++ blk.save))
    tmp

/-- The loop over the input files. -/
def splitFiles (traces : List (List UInt8)) : TmpFiles := traces.foldl splitFile fun _ => []

/-- The inner loop, from a block and its `count`, on the blocks behind it; then the outer
loop goes on. -/
def mergeRun (count : ℕ) : Block → List Block → List Block
  | blk, [] => [{ blk with fileId := UInt32.ofNat count }]
  | blk, next :: raw =>
    if blk.cksum = next.cksum then mergeRun (count + 1) next raw
    else { blk with fileId := UInt32.ofNat count } :: mergeRun 1 next raw

/-- The loop that fills `merged`. -/
def mergeRuns : List Block → List Block
  | [] => []
  | blk :: raw => mergeRun 1 blk raw

variable (so : Sorter Block.cksum) (byCount : Sorter Block.byCount)

/-- The blocks of a temporary file, merged and sorted by count. -/
def sortMerged (is : List UInt8) : List Block :=
  byCount.sort (mergeRuns (so.sort (Block.loader.readAll is)))

/-- A temporary file: the merged results, and the records for the CDS. The index of the loop
over `raw` is an `int`. -/
def processFile (threshold : Binary64) (is : List UInt8) : Option (List UInt8 × List UInt8) :=
  if 2 ^ 31 ≤ (Block.loader.readAll is).length then none
  else do
    let merged := sortMerged so byCount is
    let num ← numRecords threshold merged.length
    if merged.length < num then none
    else some (merged.flatMap Block.save, (merged.take num).flatMap Block.save)

/-- The loop `blk.Load(fs_array[i]); blk.Save(cds_output)`. -/
def copyRecords : ℕ → List UInt8 → Option (List UInt8)
  | 0, _ => some []
  | num + 1, is =>
    match Block.load is with
    | (none, _) => none
    | (some blk, is) => do
      let os ← copyRecords num is
      return blk.save ++ os

/-- The records that a file of merged results has for the CDS. -/
def extractFile (threshold : Binary64) (is : List UInt8) : Option (List UInt8) := do
  let num ← numRecords threshold (is.length / recordSize)
  copyRecords num is

/-- `main`: the files of merged results, and the CDS file. If there are such files from
another run, they are used. -/
def cdsGen (threshold : Binary64) (tmpDir : Option (List (List UInt8))) (traces : List (List UInt8)) :
    Option (List (List UInt8) × List UInt8) :=
  match tmpDir with
  | some merged => do
    let cds ← merged.mapM (extractFile threshold)
    return (merged, cds.flatten)
  | none => do
    let tmp := splitFiles traces
    let files ← (List.range 256).mapM fun i => processFile so byCount threshold (tmp i)
    return (files.map Prod.fst, files.flatMap Prod.snd)

end DedupSim
