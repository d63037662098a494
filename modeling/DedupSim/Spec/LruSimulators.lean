import DedupSim.Spec.LruCache

/-!
# The simulators with a cache (`dedup_cds_lru.cpp`, `dedup_sim_lru.cpp`)

* `cdsLru`: a cache of CDS blocks in front of level 3, saved to a file at the end of a
  run and loaded at the start of the next; `cdsLruRuns` is a chain of such runs.
* `simLru`: level 2 searches a cache of the blocks of the parent's segments.

The rest is the program of `dedup_sim.cpp`: `parentLevels` are its levels 1 and 2. A file
that does not open ends the program and is left out.
-/

namespace DedupSim

variable (so : Sorter Block.cksum) (sha1 : List UInt8 → Checksum)

/-! ## `dedup_cds_lru.cpp` -/

/-- `IN_CDS_CACHE`. -/
def inCdsCache : UInt32 := 0x0a

/-- Levels 1 and 2, on the current segment. -/
def parentLevels (hasParent : Bool) (current parent : Segment) : Segment :=
  -- prepare current segment, 0 means non-dup
  let current := current.mapBlocks fun b => { b with fileId := 0 }
  if hasParent ∧ current.cksum = parent.cksum then
    current.mapBlocks fun b => { b with fileId := b.fileId ||| inParent }
  else if hasParent then
    current.mapBlocks fun b =>
      if parent.searchBlock b then { b with fileId := b.fileId ||| inDirtySeg } else b
  else current

section CdsLru

variable (pq : PriorityQueue CacheItem.time) (clock : Clock) (cds : List Block)

/-- Level 3, on one block. -/
def cacheLevel (st : CdsLruCache.State) (b : Block) :
    Except CacheFault (CdsLruCache.State × Block) :=
  match st.1.searchItem (clock st.2) b with
  | (true, cache) => .ok ((cache, st.2 + 1), { b with fileId := b.fileId ||| inCdsCache })
  | (false, cache) =>
    if binarySearch Block.cksum cds b then do
      let b := { b with fileId := b.fileId ||| inCds }
      let cache ← cache.addItem pq (clock st.2) b
      return ((cache, st.2 + 1), b)
    else .ok ((cache, st.2), b)

/-- Level 3: the loop over the blocks of a segment. -/
def cacheLevels (st : CdsLruCache.State) :
    List Block → Except CacheFault (CdsLruCache.State × List Block)
  | [] => .ok (st, [])
  | b :: bs => do
    let (st, b) ← cacheLevel pq clock cds st b
    let (st, bs) ← cacheLevels st bs
    return (st, b :: bs)

/-- The loop of `main`: the cache it leaves, and what it writes. -/
def cdsLruLoop (hasParent : Bool) (current parent : Segment) (st : CdsLruCache.State)
    (currentInput parentInput : List UInt8) :
    Except CacheFault (CdsLruCache.State × List UInt8) :=
  match _h : Segment.loadSegment sha1 current currentInput with
  | (false, _, _) => .ok (st, [])
  | (true, current, currentInput) => do
    let (parent, parentInput) := loadParent so sha1 hasParent parent parentInput
    let current := parentLevels hasParent current parent
    let (st, blocklist) ← cacheLevels pq clock cds st current.blocklist
    let current := { current with blocklist := blocklist }
    let (st, output) ← cdsLruLoop hasParent current parent st currentInput parentInput
    return (st, current.blocklist.flatMap Block.save ++ output)
termination_by currentInput.length
decreasing_by exact Segment.loadWith_lt _h

end CdsLru

/-- `main` on the contents of its files, of which the old cache may be absent: the new
cache file, and what it writes. `size` is the cache size of the command line. -/
def cdsLru (pq : PriorityQueue CacheItem.time) (clock : Clock) (size : Int32) (seg seg' : Segment)
    (oldCache : Option (List UInt8)) (snapshot cds : List UInt8) (parent : Option (List UInt8)) :
    Except CacheFault (List UInt8 × List UInt8) := do
  let cdsCache := CdsLruCache.new size
  let st :=
    match oldCache with
    | none => (cdsCache, 0)
    | some is => (cdsCache.load (clock 0) is, 1)
  let (st, output) ← cdsLruLoop so sha1 pq clock (Block.loader.readAll cds) parent.isSome seg seg' st
    snapshot (parent.getD [])
  return (st.1.save, output)

/-- A run of the program: its cache size, its files but for the CDS and the caches, and the
readings of its clock. -/
structure LruRun where
  size : Int32
  snapshot : List UInt8
  parent : Option (List UInt8)
  clock : Clock

/-- Runs one after another, with a cache file for each cache size: what each writes. -/
def cdsLruRuns (pq : PriorityQueue CacheItem.time) (seg seg' : Segment) (cds : List UInt8) :
    (Int32 → Option (List UInt8)) → List LruRun → Except CacheFault (List (List UInt8))
  | _, [] => .ok []
  | cacheFile, r :: runs => do
    let (newCache, output) ←
      cdsLru so sha1 pq r.clock r.size seg seg' (cacheFile r.size) r.snapshot cds r.parent
    let outputs ← cdsLruRuns pq seg seg' cds (Function.update cacheFile r.size (some newCache)) runs
    return output :: outputs

/-! ## `dedup_sim_lru.cpp` -/

/-- `load_segment`. -/
def Segment.loadSegmentLru (seg : Segment) (is : List UInt8) : Bool × Segment × List UInt8 :=
  let (seg, rest) := loadBlocks Block.loader seg.init is
  let seg := seg.final sha1
  (if seg.size = 0 ∨ seg.blocklist.length = 0 then false else true, seg, rest)

variable {sha1} in
theorem Segment.loadSegmentLru_true {seg seg' : Segment} {is rest : List UInt8}
    (h : loadSegmentLru sha1 seg is = (true, seg', rest)) :
    loadSegment sha1 seg is = (true, seg', rest) := by
  simp only [loadSegmentLru, Prod.mk.injEq] at h
  obtain ⟨hok, hseg, hrest⟩ := h
  split at hok
  · cases hok
  · rename_i hne
    simp only [loadSegment, loadWith, Prod.mk.injEq]
    exact ⟨if_neg fun h => hne (.inl h), hseg, hrest⟩

/-- `if (has_parent && load_segment(parent_seg, parent_input)) ... else ...`. -/
def loadParentLru (hasParent : Bool) (parent : Segment) (parentInput : List UInt8) :
    Bool × Segment × List UInt8 :=
  if hasParent then
    match Segment.loadSegmentLru sha1 parent parentInput with
    | (true, parent, parentInput) => (true, parent.sortByHash so, parentInput)
    -- parent may be shorter than current
    | (false, parent, parentInput) => (false, parent, parentInput)
  else (false, parent, parentInput)

section SimLru

variable (entSo : Sorter LruCacheEntry.key) (timeSo : Sorter LruCacheEntry.age) (clock : Clock)
  (cds : List Block)

/-- Level 2: the loop over the blocks of a segment. -/
def searchBlocks (st : LruCache.State) : List Block → LruCache.State × List Block
  | [] => (st, [])
  | b :: bs =>
    let (found, cache) := st.1.searchItem (clock st.2) b
    let b := if found then { b with fileId := b.fileId ||| inDirtySeg } else b
    let (st, bs) := searchBlocks (cache, st.2 + 1) bs
    (st, b :: bs)

/-- Levels 1 and 2, on the current segment. -/
def parentLevelsLru (st : LruCache.State) (hasParent : Bool) (current parent : Segment) :
    Except CacheFault (LruCache.State × Segment) :=
  -- prepare current segment, 0 means non-dup
  let current := current.mapBlocks fun b => { b with fileId := 0 }
  if hasParent ∧ current.cksum = parent.cksum then
    .ok (st, current.mapBlocks fun b => { b with fileId := b.fileId ||| inParent })
  else if hasParent then do
    let cache ← LruCache.addItems entSo timeSo st.1 (clock st.2) parent
    let (st, blocklist) := searchBlocks clock (cache, st.2 + 1) current.blocklist
    return (st, { current with blocklist := blocklist })
  else .ok (st, current)

/-- The loop of `main`: what it writes. -/
def simLruLoop (hasParent : Bool) (current parent : Segment) (st : LruCache.State)
    (currentInput parentInput : List UInt8) : Except CacheFault (List UInt8) :=
  match _h : Segment.loadSegmentLru sha1 current currentInput with
  | (false, _, _) => .ok []
  | (true, current, currentInput) => do
    let (hasParent, parent, parentInput) := loadParentLru so sha1 hasParent parent parentInput
    let (st, current) ← parentLevelsLru entSo timeSo clock st hasParent current parent
    let current := current.mapBlocks fun b =>
      if !cds.isEmpty && binarySearch Block.cksum cds b then { b with fileId := b.fileId ||| inCds }
      else b
    let output ← simLruLoop hasParent current parent st currentInput parentInput
    return current.blocklist.flatMap Block.save ++ output
termination_by currentInput.length
decreasing_by exact Segment.loadWith_lt (Segment.loadSegmentLru_true _h)

end SimLru

/-- `main` on the contents of its files: what it writes. -/
def simLru (entSo : Sorter LruCacheEntry.key) (timeSo : Sorter LruCacheEntry.age) (clock : Clock)
    (size : Int32) (seg seg' : Segment) (snapshot cds : List UInt8)
    (parent : Option (List UInt8)) : Except CacheFault (List UInt8) :=
  simLruLoop so sha1 entSo timeSo clock (Block.loader.readAll cds) parent.isSome seg seg'
    (.new size, 0) snapshot (parent.getD [])

end DedupSim
