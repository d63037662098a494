import DedupSim.Lib.SortedRange
import DedupSim.Spec.Segment

/-!
# The dedup simulator (`dedup_sim.cpp`, `dedup_cds_sim.cpp`)

Both files are the same program: a snapshot log is deduplicated against its parent
snapshot, segment by segment, and against the CDS. Of the members of `Segment` and
`Block` it calls, `Load`, `Save`, `SortByHash` and `SearchBlock` are those that
`dedup_types.hpp` keeps as comments. `so` is the `std::sort` they call. A file that
does not open ends the program and is left out.
-/

namespace DedupSim

/-- `IN_PARENT`. -/
def inParent : UInt32 := 0x01

/-- `IN_CDS`. -/
def inCds : UInt32 := 0x02

/-- `IN_DIRTY_SEG`. -/
def inDirtySeg : UInt32 := 0x05

/-- `Block::Save`. -/
def Block.save (b : Block) : List UInt8 := b.toStream

variable (so : Sorter Block.cksum)

/-- `Segment::SortByHash`. -/
def Segment.sortByHash (seg : Segment) : Segment := { seg with blocklist := so.sort seg.blocklist }

/-- `Segment::SearchBlock`. -/
def Segment.searchBlock (seg : Segment) (blk : Block) : Bool :=
  binarySearch Block.cksum seg.blocklist blk

/-- The loops `for (i = 0; ...) current_seg.blocklist_[i] = ...`. -/
def Segment.mapBlocks (seg : Segment) (f : Block → Block) : Segment :=
  { seg with blocklist := seg.blocklist.map f }

/-- What the three levels do to the current segment. -/
def simSegment (cds : List Block) (hasParent : Bool) (current parent : Segment) : Segment :=
  -- prepare current segment, 0 means non-dup
  let current := current.mapBlocks fun b => { b with fileId := 0 }
  let current :=
    if hasParent ∧ current.cksum = parent.cksum then
      current.mapBlocks fun b => { b with fileId := b.fileId ||| inParent }
    else if hasParent then
      current.mapBlocks fun b =>
        if parent.searchBlock b then { b with fileId := b.fileId ||| inDirtySeg } else b
    else current
  current.mapBlocks fun b =>
    if binarySearch Block.cksum cds b then { b with fileId := b.fileId ||| inCds } else b

variable (sha1 : List UInt8 → Checksum)

/-- `if (has_parent && load_segment(parent_seg, parent_input)) parent_seg.SortByHash()`. -/
def loadParent (hasParent : Bool) (parent : Segment) (parentInput : List UInt8) :
    Segment × List UInt8 :=
  if hasParent then
    match Segment.loadSegment sha1 parent parentInput with
    | (true, parent, parentInput) => (parent.sortByHash so, parentInput)
    | (false, parent, parentInput) => (parent, parentInput)
  else (parent, parentInput)

/-- The loop of `main`, from the states of its variables: what it writes. -/
def simLoop (cds : List Block) (hasParent : Bool) (current parent : Segment)
    (currentInput parentInput : List UInt8) : List UInt8 :=
  match _h : Segment.loadSegment sha1 current currentInput with
  | (false, _, _) => []
  | (true, current, currentInput) =>
    let (parent, parentInput) := loadParent so sha1 hasParent parent parentInput
    let current := simSegment cds hasParent current parent
    current.blocklist.flatMap Block.save ++
      simLoop cds hasParent current parent currentInput parentInput
termination_by currentInput.length
decreasing_by exact Segment.loadWith_lt _h

/-- `main` on the contents of its files; `seg` and `seg'` are the two segments as the
constructor leaves them. -/
def dedupSim (seg seg' : Segment) (snapshot cds : List UInt8) (parent : Option (List UInt8)) :
    List UInt8 :=
  simLoop so sha1 (Block.loader.readAll cds) parent.isSome seg seg' snapshot (parent.getD [])

end DedupSim
