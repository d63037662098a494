import DedupSim.Spec.LruSimulators

/-!
# The analysis of a simulator's output (`dedup_analysis.cpp`)

The program reads the blocks of a file and counts them, and their bytes, by the flags of
the levels. What it prints of single blocks, and the counters `l3_cache` and
`l3_cache_blocks`, which it never changes, are left out.
-/

namespace DedupSim

/-- The two counters of a category, such as `l1_blocks` and `l1_data`. -/
structure Tally where
  blocks : UInt64
  data : UInt64
deriving DecidableEq

/-- `l1_data += bl.size_; l1_blocks += 1`. -/
def Tally.add (t : Tally) (bl : Block) : Tally where
  blocks := t.blocks + 1
  data := t.data + bl.size.toUInt64

/-- The counters of `main`; `total` are `nblocks` and `size`. -/
structure Analysis where
  total : Tally
  new : Tally
  l1 : Tally
  l2 : Tally
  l3 : Tally
  other : Tally
deriving DecidableEq

namespace Analysis

/-- The counters at the start. -/
def zero : Analysis := ⟨⟨0, 0⟩, ⟨0, 0⟩, ⟨0, 0⟩, ⟨0, 0⟩, ⟨0, 0⟩, ⟨0, 0⟩⟩

/-- The body of the loop. -/
def load (a : Analysis) (bl : Block) : Analysis :=
  let a := { a with total := a.total.add bl }
  -- `switch (bl.file_id_)`
  if bl.fileId = 0 then { a with new := a.new.add bl }
  else if bl.fileId = inParent then { a with l1 := a.l1.add bl }
  else if bl.fileId = inCds then { a with l3 := a.l3.add bl }
  else if bl.fileId = inDirtySeg then { a with l2 := a.l2.add bl }
  else if bl.fileId = inParent ||| inCds then { a with l1 := a.l1.add bl }
  else if bl.fileId = inDirtySeg ||| inCds then { a with l2 := a.l2.add bl }
  -- the case of `IN_CDS_CACHE` is a comment in the source
  else { a with other := a.other.add bl }

end Analysis

/-- `main` on the contents of its file. -/
def dedupAnalysis (is : List UInt8) : Analysis :=
  (Block.loader.readAll is).foldl Analysis.load .zero

end DedupSim
