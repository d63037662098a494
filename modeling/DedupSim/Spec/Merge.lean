import DedupSim.Spec.Types
import Mathlib.Logic.Function.Basic

/-!
# Merging sorted logs (`dedup_merge.cpp`, `dedup_merge.cpp.old`)

The two programs share the readers, the loser tree and the loop: `loadBlockWith`,
`initTreeWith` and `mergeLoop` are what they share, `Merge` and `MergeOld` what each
makes of it.

* Arrays have `num_files` elements. An access outside, or outside a buffer, is a
  `Fault`; what `new` leaves in them is anything.
* The tree's functions compute their indices as `int`s: `fitsInt` is the fault of a value
  that is none. `anyInt` is for the merges, where `2 * num_files` does not overflow, as each
  file takes a buffer of 1.4 MB.
* A file that does not open ends the program and is left out, and so is `buf_total`,
  which nothing reads.
-/

namespace DedupSim

open LittleEndian

/-- `MERGE_BUFFER_SIZE`. -/
def mergeBufferSize : ℕ := 1440 * 1024

/-- An index outside an array of `num_files` elements, or outside a buffer, or a value that
an `int` cannot hold. -/
inductive Fault
  | array (index : ℕ)
  | buffer (index : ℕ)
  | int (value : ℕ)
deriving DecidableEq

/-- `block_compare`: the difference of two `uint32_t`, as an `int`, or `memcmp`. -/
def blockCompare (b1 b2 : Block) : ℤ :=
  -- one stream has reached the end, so its size is zero
  if b1.size = 0 ∨ b2.size = 0 then (b2.size - b1.size).toInt32.toInt
  else memcmp b1.cksum.data b2.cksum.data

/-! ## Arrays -/

section Arrays

variable {α : Type*}

/-- `a[i]`, of an array of `n` elements. -/
def readAt (n : ℕ) (a : ℕ → α) (i : ℕ) : Except Fault α :=
  if i < n then .ok (a i) else .error (.array i)

/-- `a[i] = x`. -/
def writeAt (n : ℕ) (a : ℕ → α) (i : ℕ) (x : α) : Except Fault (ℕ → α) :=
  if i < n then .ok (Function.update a i x) else .error (.array i)

variable {n i : ℕ} {a : ℕ → α}

@[simp] theorem readAt_ok (h : i < n) : readAt n a i = .ok (a i) := if_pos h

@[simp] theorem writeAt_ok (h : i < n) (x : α) : writeAt n a i x = .ok (Function.update a i x) :=
  if_pos h

theorem readAt_fault (h : n ≤ i) : readAt n a i = .error (.array i) := if_neg h.not_gt

end Arrays

/-- An element of `bufs`. -/
structure Buffer where
  data : List UInt8
  len : data.length = mergeBufferSize

instance : Inhabited Buffer := ⟨⟨List.replicate mergeBufferSize 0, List.length_replicate⟩⟩

namespace Buffer

variable (buf : Buffer)

/-- `memcpy` of `n` bytes out of a buffer. -/
def memcpy (pos n : ℕ) : Except Fault { l : List UInt8 // l.length = n } :=
  if h : pos + n ≤ mergeBufferSize then
    .ok ⟨slice buf.data pos n, by rw [length_slice, buf.len]; omega⟩
  else .error (.buffer (pos + n))

/-- `read` into a buffer: what is read takes the place of its first bytes. -/
def read (is : List UInt8) : Buffer where
  data := is.take mergeBufferSize ++ buf.data.drop (is.take mergeBufferSize).length
  len := by
    have := buf.len
    simp only [List.length_append, List.length_drop, List.length_take]
    omega

end Buffer

/-! ## Streams -/

/-- What `iss`, `bufs`, `buf_pos`, `buf_size` and `bls` hold of one file. -/
structure Stream where
  is : List UInt8
  buf : Buffer
  bufPos : ℕ
  bufSize : ℕ
  bl : Block
deriving Inhabited

/-- What a `load_block` copies off a buffer into a block, and the position after it. -/
abbrev Copy := Buffer → ℕ → Block → Except Fault (Block × ℕ)

namespace Stream

/-- `load_buffer`. -/
def loadBuffer (s : Stream) : Stream × ℕ :=
  ({ s with is := s.is.drop mergeBufferSize, buf := s.buf.read s.is },
    (s.is.take mergeBufferSize).length)

/-- The zero-sized block of a stream that has no more data. -/
def exhaust (s : Stream) : Stream := { s with bl := { s.bl with size := 0 } }

/-- The end of `load_block`. -/
def copyBlock (copy : Copy) (s : Stream) : Except Fault Stream := do
  let (bl, pos) ← copy s.buf s.bufPos s.bl
  return { s with bl := bl, bufPos := pos }

/-- `load_block`. -/
def loadBlockWith (copy : Copy) (s : Stream) : Except Fault Stream :=
  if s.bufSize ≤ s.bufPos then
    if s.bufSize ≠ mergeBufferSize then .ok s.exhaust
    else
      let (s, n) := s.loadBuffer
      let s := { s with bufSize := n }
      if s.bufSize = 0 then .ok s.exhaust
      else copyBlock copy { s with bufPos := 0 }
  else copyBlock copy s

/-- The first block: the body of the loop that loads them. -/
def loadFirst (copy : Copy) (s : Stream) : Except Fault Stream :=
  let (s, n) := s.loadBuffer
  loadBlockWith copy { s with bufSize := n, bufPos := 0 }

end Stream

/-! ## The loser tree -/

/-- An `int` that is to get a value: it overflows from `2 ^ 31` on. -/
def fitsInt (n : ℕ) : Except Fault Unit := if n < 2 ^ 31 then .ok () else .error (.int n)

/-- An `int` that never gets a value as large. -/
def anyInt (_ : ℕ) : Except Fault Unit := .ok ()

@[simp] theorem fitsInt_ok {n : ℕ} (h : n < 2 ^ 31) : fitsInt n = .ok () := if_pos h

theorem fitsInt_fault {n : ℕ} (h : 2 ^ 31 ≤ n) : fitsInt n = .error (.int n) := if_neg h.not_gt

@[simp] theorem anyInt_ok (n : ℕ) : anyInt n = .ok () := rfl

section Tree

variable (int : ℕ → Except Fault Unit) (numFiles : ℕ) (bls : ℕ → Block)

/-- The loop of `adjust_tree`. -/
def adjustLoop (tree : ℕ → ℕ) (small parent : ℕ) : Except Fault (ℕ → ℕ) :=
  if parent = 0 then writeAt numFiles tree 0 small
  else do
    -- compare with loser
    let other ← readAt numFiles tree parent
    let b1 ← readAt numFiles bls small
    let b2 ← readAt numFiles bls other
    if 0 ≤ blockCompare b1 b2 then
      let tree ← writeAt numFiles tree parent small
      adjustLoop tree other (parent / 2)
    else adjustLoop tree small (parent / 2)
termination_by parent

/-- `adjust_tree`. -/
def adjustTree (tree : ℕ → ℕ) (newItem : ℕ) : Except Fault (ℕ → ℕ) := do
  int (newItem + numFiles)
  adjustLoop numFiles bls tree newItem ((newItem + numFiles) / 2)

/-- `init_tree`, from the tree as it is: what it leaves and what it returns. With `one`,
a single file has a tree too. -/
def initTreeWith (one : Bool) (tree : ℕ → ℕ) (root : ℕ) : Except Fault ((ℕ → ℕ) × ℕ) :=
  if root = 0 then
    if one ∧ numFiles = 1 then do
      -- need at least 2 files
      let tree ← writeAt numFiles tree 0 0
      return (tree, ← readAt numFiles tree 0)
    else do
      let (tree, winner) ← initTreeWith one tree 1
      let tree ← writeAt numFiles tree 0 winner
      return (tree, ← readAt numFiles tree 0)
  else do
    let left := 2 * root
    int left
    let right := left + 1
    int right
    let (tree, left) ←
      (if numFiles ≤ left then .ok (tree, left - numFiles) else initTreeWith one tree left)
    let (tree, right) ←
      (if numFiles ≤ right then .ok (tree, right - numFiles) else initTreeWith one tree right)
    let b1 ← readAt numFiles bls left
    let b2 ← readAt numFiles bls right
    if 0 < blockCompare b1 b2 then
      let tree ← writeAt numFiles tree root left
      return (tree, right)
    else
      let tree ← writeAt numFiles tree root right
      return (tree, left)
termination_by if root = 0 then numFiles + 1 else numFiles - root
decreasing_by
  · simp only [if_false, if_pos ‹root = 0›]
    omega
  · rw [if_neg (show ¬ 2 * root = 0 by omega), if_neg ‹¬ root = 0›]
    omega
  · simp only [if_false, if_neg ‹¬ root = 0›]
    omega

end Tree

/-! ## The loop -/

/-- The arrays, and `num_files`. -/
structure MergeState where
  numFiles : ℕ
  files : ℕ → Stream
  tree : ℕ → ℕ

namespace MergeState

/-- `bls`. -/
def bls (st : MergeState) (i : ℕ) : Block := (st.files i).bl

/-- A function that works on one file. -/
def modify (st : MergeState) (which : ℕ) (f : Stream → Except Fault Stream) :
    Except Fault MergeState := do
  let s ← f (← readAt st.numFiles st.files which)
  return { st with files := ← writeAt st.numFiles st.files which s }

/-- The arrays and the streams of the files of these contents, before anything is read. -/
def opened (mem : ℕ → Stream) (tree : ℕ → ℕ) (contents : List (List UInt8)) : MergeState where
  numFiles := contents.length
  files i := { mem i with is := contents[i]?.getD [] }
  tree := tree

/-- `for (i = 0; i < num_files; i++)`: load the first block. -/
def loadFirsts (copy : Copy) (st : MergeState) : Except Fault MergeState :=
  (List.range st.numFiles).foldlM (fun st i => st.modify i (Stream.loadFirst copy)) st

/-- `init_tree(0)`. -/
def initTree (one : Bool) (st : MergeState) : Except Fault MergeState := do
  let (tree, _) ← initTreeWith anyInt st.numFiles st.bls one st.tree 0
  return { st with tree := tree }

end MergeState

/-- The loop `do { ... } while (true)`: `which` is the file whose next block it loads,
`count` what it does to the counters. It runs `fuel` rounds at most. -/
def mergeLoop {γ : Type} (copy : Copy) (which : MergeState → Except Fault ℕ)
    (count : γ → Block → γ) : ℕ → MergeState → γ → Except Fault (Option γ)
  | 0, _, _ => .ok none
  | fuel + 1, st, c => do
    let bl ← readAt st.numFiles st.bls (← readAt st.numFiles st.tree 0)
    let c := count c bl
    if bl.size = 0 then return some c
    else
      let st ← st.modify (← which st) (Stream.loadBlockWith copy)
      let tree ← adjustTree anyInt st.numFiles st.bls st.tree (← readAt st.numFiles st.tree 0)
      mergeLoop copy which count fuel { st with tree := tree } c

/-! ## `dedup_merge.cpp.old` -/

namespace MergeOld

/-- `load_block` copies the checksum and the size. -/
def copyMembers : Copy := fun buf pos bl => do
  let cksum ← buf.memcpy pos cksumLen
  let pos := pos + cksumLen
  let pos := pos + 4
  let size ← buf.memcpy pos 4
  let pos := pos + 4
  let pos := pos + 8
  return ({ bl with cksum := ⟨cksum.1, cksum.2⟩, size := UInt32.ofNat (leNat size.1) }, pos)

/-- `main` up to the end of the loop, with what `count` has made of the blocks. -/
def run {γ : Type} (count : γ → Block → γ) (mem : ℕ → Stream) (tree : ℕ → ℕ)
    (contents : List (List UInt8)) (fuel : ℕ) (c : γ) : Except Fault (Option γ) := do
  let st ← (MergeState.opened mem tree contents).loadFirsts copyMembers
  let st ← st.initTree false
  mergeLoop copyMembers (fun st => readAt st.numFiles st.tree 0) count fuel st c

/-- `FREQ_COUNT`. -/
def freqCount : ℕ := 10000

/-- The counters, of which the last three are arrays of `FREQ_COUNT` elements. -/
structure Counters where
  lastBlk : Block
  dupCount : UInt64
  totalSize : UInt64
  dedupSize : UInt64
  totalBlocks : UInt64
  uniBlocks : UInt64
  blkCount : ℕ → UInt64
  sizeCount : ℕ → UInt64
  dedupCount : ℕ → UInt64

/-- The counters at the start; of `last_blk` only the size is set. -/
def Counters.start (lastBlk : Block) : Counters where
  lastBlk := { lastBlk with size := 0 }
  dupCount := 1
  totalSize := 0
  dedupSize := 0
  totalBlocks := 0
  uniBlocks := 0
  blkCount := fun _ => 0
  sizeCount := fun _ => 0
  dedupCount := fun _ => 0

/-- `a[i] += v`, of an array of `FREQ_COUNT` elements. -/
def addAt (a : ℕ → UInt64) (i : ℕ) (v : UInt64) : Except Fault (ℕ → UInt64) := do
  writeAt freqCount a i ((← readAt freqCount a i) + v)

/-- `blk_count[i]++; size_count[i] += ...; dedup_count[i] += ...`. -/
def Counters.writeDown (c : Counters) (i : ℕ) : Except Fault Counters := do
  let blkCount ← addAt c.blkCount i 1
  let sizeCount ← addAt c.sizeCount i (c.lastBlk.size.toUInt64 * c.dupCount)
  let dedupCount ← addAt c.dedupCount i c.lastBlk.size.toUInt64
  return { c with blkCount := blkCount, sizeCount := sizeCount, dedupCount := dedupCount }

/-- `count`. -/
def count (c : Counters) (bl : Block) : Except Fault Counters := do
  let c := { c with totalSize := c.totalSize + bl.size.toUInt64, totalBlocks := c.totalBlocks + 1 }
  let c ←
    if blockCompare c.lastBlk bl ≠ 0 then do
      let c := { c with
        dedupSize := c.dedupSize + bl.size.toUInt64, uniBlocks := c.uniBlocks + 1 }
      -- write down the counter of last block
      let c ←
        if freqCount ≤ c.dupCount.toNat then c.writeDown (freqCount - 1)
        else c.writeDown (c.dupCount - 1).toNat
      -- start counting a new block
      pure { c with dupCount := 1 }
    else pure { c with dupCount := c.dupCount + 1 }
  return { c with lastBlk := bl }

/-- A line that `main` prints: the blocks of a multiplicity, the multiplicity, their bytes
with and without duplicates. -/
structure Line where
  blocks : UInt64
  multiplicity : ℕ
  bytes : UInt64
  unique : UInt64
deriving DecidableEq

/-- The loop that prints the arrays. -/
def Counters.lines (c : Counters) : List Line :=
  (List.range freqCount).map fun i => ⟨c.blkCount i, i + 1, c.sizeCount i, c.dedupCount i⟩

/-- `main`: what it prints. -/
def main (mem : ℕ → Stream) (tree : ℕ → ℕ) (lastBlk : Block) (contents : List (List UInt8))
    (fuel : ℕ) : Except Fault (Option (List Line)) := do
  let start : Except Fault Counters := .ok (.start lastBlk)
  match ← run (fun c bl => c >>= fun c => count c bl) mem tree contents fuel start with
  | none => return none
  | some c => do
    let c ← c
    -- a zero-sized block is added at the beginning of merge, remove it
    let blkCount ← addAt c.blkCount 0 (-1)
    return some { c with blkCount := blkCount }.lines

end MergeOld

/-! ## `dedup_merge.cpp` -/

namespace Merge

/-- `load_block` copies all members. -/
def copyMembers : Copy := fun buf pos _ => do
  let cksum ← buf.memcpy pos cksumLen
  let pos := pos + cksumLen
  let fileId ← buf.memcpy pos 4
  let pos := pos + 4
  let size ← buf.memcpy pos 4
  let pos := pos + 4
  let offset ← buf.memcpy pos 8
  let pos := pos + 8
  let bl : Block :=
    { cksum := ⟨cksum.1, cksum.2⟩
      fileId := UInt32.ofNat (leNat fileId.1)
      size := UInt32.ofNat (leNat size.1)
      offset := UInt64.ofNat (leNat offset.1) }
  return (bl, pos)

/-- A `std::map` whose `operator[]` starts at zero. -/
abbrev Counts := Std.TreeMap UInt64 UInt64

/-- `m[i] += v`. -/
def Counts.add (m : Counts) (i v : UInt64) : Counts := m.insert i (m.getD i 0 + v)

/-- The counters, and what was written to `os`. -/
structure Counters where
  lastBlk : Block
  dupCount : UInt64
  totalSize : UInt64
  dedupSize : UInt64
  totalBlocks : UInt64
  uniBlocks : UInt64
  blkCount : Counts
  sizeCount : Counts
  dedupCount : Counts
  os : List UInt8

/-- The counters at the start; of `last_blk` only the size is set. -/
def Counters.start (lastBlk : Block) : Counters where
  lastBlk := { lastBlk with size := 0 }
  dupCount := 1
  totalSize := 0
  dedupSize := 0
  totalBlocks := 0
  uniBlocks := 0
  blkCount := ∅
  sizeCount := ∅
  dedupCount := ∅
  os := []

/-- `count`; `threshold` is given when `write_cds` is set. -/
def count (threshold : Option UInt64) (c : Counters) (bl : Block) : Counters :=
  let c := { c with totalSize := c.totalSize + bl.size.toUInt64, totalBlocks := c.totalBlocks + 1 }
  let c :=
    -- not a new block
    if blockCompare bl c.lastBlk = 0 then { c with dupCount := c.dupCount + 1 }
    else
      -- write down the counter of last block
      let c :=
        { c with
          dedupSize := c.dedupSize + bl.size.toUInt64
          uniBlocks := c.uniBlocks + 1
          blkCount := c.blkCount.add c.dupCount 1
          sizeCount := c.sizeCount.add c.dupCount (c.lastBlk.size.toUInt64 * c.dupCount)
          dedupCount := c.dedupCount.add c.dupCount c.lastBlk.size.toUInt64 }
      let c :=
        if threshold.any fun t => t ≤ c.dupCount then
          let lastBlk := { c.lastBlk with offset := c.dupCount }
          { c with lastBlk := lastBlk, os := c.os ++ lastBlk.toStream }
        else c
      { c with dupCount := 1 }
  { c with lastBlk := bl }

/-- A line that `main` prints: a multiplicity, its blocks, their bytes with and without
duplicates. -/
structure Line where
  multiplicity : UInt64
  blocks : UInt64
  bytes : UInt64
  unique : UInt64
deriving DecidableEq

/-- What `main` prints after the loop. -/
def Counters.lines (c : Counters) : List Line :=
  -- a zero-sized block is added at the beginning of merge, remove it
  let blkCount := c.blkCount.add 1 (-1)
  (blkCount.toList.filter fun it => it.2 ≠ 0).map fun it =>
    ⟨it.1, it.2, c.sizeCount.getD it.1 0, c.dedupCount.getD it.1 0⟩

/-- `main`: what it prints, and what it writes to `os`. -/
def main (threshold : Option UInt64) (mem : ℕ → Stream) (tree : ℕ → ℕ) (lastBlk : Block)
    (contents : List (List UInt8)) (fuel : ℕ) : Except Fault (Option (List Line × List UInt8)) := do
  let st ← (MergeState.opened mem tree contents).loadFirsts copyMembers
  -- the loop leaves `i` at `num_files`
  let i := st.numFiles
  let st ← st.initTree true
  let c ← mergeLoop copyMembers (fun _ => .ok i) (count threshold) fuel st (.start lastBlk)
  return c.map fun c => (c.lines, c.os)

end Merge

end DedupSim
