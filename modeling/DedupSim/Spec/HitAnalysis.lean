import DedupSim.Spec.Simulator

/-!
# The analysis of CDS hits (`cds_hit_analysis.cpp`)

The program writes the lengths of runs of consecutive CDS hits in a snapshot, one to a
line, to the file `.cdshit` and to the terminal. A file that does not open ends the
program and is left out.
-/

namespace DedupSim

variable (sha1 : List UInt8 → Checksum)

/-- The body of the loop over the blocks of a segment: `hit_len`, and what is written. -/
def searchCds (cds : List Block) (st : Int32 × List Int32) (blk : Block) : Int32 × List Int32 :=
  if binarySearch Block.cksum cds blk then
    -- hit
    (st.1 + 1, st.2)
  else if st.1 ≠ 0 then (0, st.2 ++ [st.1])
  else st

/-- The loop of `main` over the segments: what is written. -/
def hitLoop (cds : List Block) (currentSeg : Segment) (st : Int32 × List Int32)
    (currentInput : List UInt8) : List Int32 :=
  match _h : Segment.loadSegment sha1 currentSeg currentInput with
  | (false, _, _) => st.2
  | (true, currentSeg, currentInput) =>
    hitLoop cds currentSeg (currentSeg.blocklist.foldl (searchCds cds) st) currentInput
termination_by currentInput.length
decreasing_by exact Segment.loadWith_lt _h

/-- `main` on the contents of its files. -/
def cdsHitAnalysis (seg : Segment) (snapshot cds : List UInt8) : List Int32 :=
  hitLoop sha1 (Block.loader.readAll cds) seg (0, []) snapshot

end DedupSim
