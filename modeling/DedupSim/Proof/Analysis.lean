import DedupSim.Proof.CacheWindow
import DedupSim.Proof.CdsGen
import DedupSim.Spec.Analysis

/-!
# The analysis of both simulators' outputs

`dedup_analysis` on what `dedup_cds_lru` and `dedup_cds_sim` write for the same files.

* `readAlike_iff`: the totals agree, and none is in `Other`, if and only if no block was
  found in the cache: its flag `IN_CDS_CACHE` has no category.
* `analysesAgree_iff`: **so they agree if and only if no checksum of the CDS comes again
  while it is cached.**
-/

namespace DedupSim

variable {so : Sorter Block.cksum} {sha1 : List UInt8 → Checksum}
  {pq : PriorityQueue CacheItem.time} {clock : Clock} {cds bs bs' : List Block} {b b' : Block}
  {st st' : CdsLruCache.State} {size : Int32} {cdsInput : List UInt8}

open CdsLruCache

/-! ## Other -/

/-- The flags that have a category. -/
def categories : List UInt32 :=
  [0, inParent, inCds, inDirtySeg, inParent ||| inCds, inDirtySeg ||| inCds]

/-- A block without a category. -/
abbrev Block.Other (b : Block) : Prop := b.fileId ∉ categories

theorem Analysis.load_other (a : Analysis) (b : Block) :
    (a.load b).other = if b.Other then a.other.add b else a.other := by
  unfold load Block.Other categories
  simp only [List.mem_cons, List.not_mem_nil, or_false, not_or]
  split_ifs <;> simp_all

theorem Analysis.loads_other (bs : List Block) (a : Analysis) :
    (bs.foldl load a).other = (bs.filter fun b => decide b.Other).foldl Tally.add a.other := by
  induction bs generalizing a with
  | nil => rfl
  | cons b bs ih =>
    rw [List.foldl_cons, ih, load_other]
    by_cases hb : b.Other
    · rw [if_pos hb, List.filter_cons_of_pos (by exact decide_eq_true hb), List.foldl_cons]
    · rw [if_neg hb, List.filter_cons_of_neg (by exact fun h => hb (of_decide_eq_true h))]

theorem Tally.adds_blocks (bs : List Block) (t : Tally) :
    (bs.foldl add t).blocks = t.blocks + UInt64.ofNat bs.length := by
  induction bs generalizing t with
  | nil =>
    change t.blocks = t.blocks + 0
    rw [UInt64.add_zero]
  | cons b bs ih =>
    rw [List.foldl_cons, ih]
    change t.blocks + 1 + UInt64.ofNat bs.length = t.blocks + UInt64.ofNat (bs.length + 1)
    rw [UInt64.ofNat_add, UInt64.add_assoc, UInt64.add_comm 1]
    rfl

/-- **`Other` counts the blocks without a category**, as far as 64 bits go. -/
theorem other_eq_zero (hlt : bs.length < 2 ^ 64) :
    (dedupAnalysis (bs.flatMap Block.save)).other = ⟨0, 0⟩ ↔ ∀ b ∈ bs, ¬ b.Other := by
  unfold dedupAnalysis
  rw [loader_readAll_save, Analysis.loads_other]
  constructor
  · intro h
    have hblocks := congrArg Tally.blocks h
    rw [Tally.adds_blocks] at hblocks
    change 0 + UInt64.ofNat _ = 0 at hblocks
    rw [UInt64.zero_add] at hblocks
    have hle := List.length_filter_le (fun b : Block => decide b.Other) bs
    have hzero := congrArg UInt64.toNat hblocks
    rw [UInt64.toNat_ofNat', Nat.mod_eq_of_lt (by omega)] at hzero
    have hnil := List.filter_eq_nil_iff.1 (List.length_eq_zero_iff.1 hzero)
    exact fun b hb hother => hnil b hb (decide_eq_true hother)
  · intro h
    rw [List.filter_eq_nil_iff.2 fun b hb hother => h b hb (of_decide_eq_true hother)]
    rfl

/-! ## Two outputs -/

/-- What level 3 writes with a cache. -/
def Cached (cds : List Block) (b b' : Block) : Prop :=
  b' = { b with fileId := b.fileId ||| inCdsCache } ∨ b' = cdsLevel cds b

theorem cacheLevels_cached (hcds : cds.Pairwise fun a b => a.cksum ≤ b.cksum) (bs : List Block) :
    ∀ (st st' : CdsLruCache.State) (bs' : List Block),
      cacheLevels pq clock cds st bs = .ok (st', bs') → List.Forall₂ (Cached cds) bs bs' := by
  induction bs with
  | nil =>
    intro st st' bs' h
    cases h
    exact .nil
  | cons b bs ih =>
    intro st st' bs' h
    obtain ⟨st1, b1, bs1, hlevel, hlevels, rfl⟩ := cacheLevels_cons h
    refine .cons ?_ (ih st1 st' bs1 hlevels)
    rcases cacheLevel_cases hcds hlevel with ⟨-, -, rfl⟩ | ⟨-, hb, -, -, rfl⟩ | ⟨-, hb, -, rfl⟩
    · exact .inl rfl
    · right
      unfold cdsLevel
      rw [if_pos ((mem_cds hcds b).2 hb)]
    · right
      unfold cdsLevel
      rw [if_neg fun h => hb ((mem_cds hcds _).1 h)]

/-- The flag of a block that was found in the cache has no category; the others have one. -/
theorem Block.Marked.other_iff (h : b.Marked) (hc : Cached cds b b') :
    (b'.Other ↔ b'.InCache) ∧ ¬ (cdsLevel cds b).Other ∧ (¬ b'.InCache → b' = cdsLevel cds b) := by
  obtain ⟨hhit, hmiss, hout⟩ := h.inCache
  have hbits : ∀ f : UInt32, f = 0 ∨ f = inParent ∨ f = inDirtySeg →
      f ||| inCdsCache ∉ categories ∧ f ||| inCds ∈ categories ∧ f ∈ categories := by
    rintro f (rfl | rfl | rfl) <;> decide
  obtain ⟨hhit', hmiss', hout'⟩ := hbits b.fileId h
  have hlevel : ¬ (cdsLevel cds b).Other ∧ ¬ (cdsLevel cds b).InCache := by
    unfold cdsLevel
    split
    · exact ⟨not_not.2 hmiss', hmiss⟩
    · exact ⟨not_not.2 hout', hout⟩
  rcases hc with rfl | rfl
  · exact ⟨iff_of_true hhit' hhit, hlevel.1, fun h => absurd hhit h⟩
  · exact ⟨iff_of_false hlevel.1 hlevel.2, hlevel.1, fun _ => rfl⟩

theorem cached_other (hmarked : ∀ b ∈ bs, b.Marked) (h : List.Forall₂ (Cached cds) bs bs') :
    (∀ b' ∈ bs', b'.Other ↔ b'.InCache) ∧ (∀ b ∈ bs, ¬ (cdsLevel cds b).Other) ∧
      ((∀ b' ∈ bs', ¬ b'.InCache) → bs' = bs.map (cdsLevel cds)) := by
  induction h with
  | nil => simp
  | cons hc _ ih =>
    obtain ⟨hother, hlevel, heq⟩ := (hmarked _ (.head _)).other_iff hc
    obtain ⟨hothers, hlevels, heqs⟩ := ih fun b hb => hmarked b (.tail _ hb)
    refine ⟨List.forall_mem_cons.2 ⟨hother, hothers⟩, List.forall_mem_cons.2 ⟨hlevel, hlevels⟩, ?_⟩
    intro hnone
    obtain ⟨h1, h2⟩ := List.forall_mem_cons.1 hnone
    rw [List.map_cons, heq h1, heqs h2]

/-- The totals agree, and none is in `Other`. -/
structure ReadAlike (lru sim : Analysis) : Prop where
  new : lru.new = sim.new
  l1 : lru.l1 = sim.l1
  l2 : lru.l2 = sim.l2
  l3 : lru.l3 = sim.l3
  lru_other : lru.other = ⟨0, 0⟩
  sim_other : sim.other = ⟨0, 0⟩

/-- **Two outputs are read alike** if and only if no block was found in the cache. -/
theorem readAlike_iff (hmarked : ∀ b ∈ bs, b.Marked) (hlt : bs.length < 2 ^ 64)
    (h : List.Forall₂ (Cached cds) bs bs') :
    ReadAlike (dedupAnalysis (bs'.flatMap Block.save))
        (dedupAnalysis ((bs.map (cdsLevel cds)).flatMap Block.save)) ↔
      ∀ b' ∈ bs', ¬ b'.InCache := by
  have hlen := h.length_eq
  obtain ⟨hother, hlevel, heq⟩ := cached_other hmarked h
  constructor
  · intro halike b' hb' hin
    exact (other_eq_zero (by omega)).1 halike.lru_other b' hb' ((hother b' hb').2 hin)
  · intro hnone
    have hzero : (dedupAnalysis ((bs.map (cdsLevel cds)).flatMap Block.save)).other = ⟨0, 0⟩ := by
      rw [other_eq_zero (by rwa [List.length_map]), List.forall_mem_map]
      exact hlevel
    rw [heq hnone]
    exact ⟨rfl, rfl, rfl, rfl, hzero, hzero⟩

/-! ## Two runs -/

/-- The checksums of the CDS among the blocks that the simulators load, in order. -/
def cdsAccesses (sha1 : List UInt8 → Checksum) (seg : Segment) (snapshot cds : List UInt8) :
    List Checksum :=
  accesses (Block.loader.readAll cds) ((Segment.loadAll sha1 seg snapshot).flatMap Segment.blocklist)

/-- **The analysis reads both simulators alike**: `dedup_cds_lru`, without an old cache file,
and `dedup_cds_sim`. -/
def AnalysesAgree (so : Sorter Block.cksum) (sha1 : List UInt8 → Checksum)
    (pq : PriorityQueue CacheItem.time) (clock : Clock) (size : Int32) (seg seg' : Segment)
    (snapshot cds : List UInt8) (parent : Option (List UInt8)) : Prop :=
  ∃ newCache output,
    cdsLru so sha1 pq clock size seg seg' none snapshot cds parent = .ok (newCache, output) ∧
      ReadAlike (dedupAnalysis output)
        (dedupAnalysis (dedupSim so sha1 seg seg' snapshot cds parent))

theorem accesses_runBlocks (so : Sorter Block.cksum) (sha1 : List UInt8 → Checksum)
    (seg seg' : Segment) (snapshot cds : List UInt8) (parent : Option (List UInt8)) :
    accesses (Block.loader.readAll cds) (runBlocks so sha1 seg seg' snapshot parent) =
      cdsAccesses sha1 seg snapshot cds := by
  unfold cdsAccesses accesses
  rw [runBlocks_cksum]

/-- **A run hits nothing**: then, and only then, the outputs are read alike. -/
theorem analysesAgree_hits (so : Sorter Block.cksum) (sha1 : List UInt8 → Checksum)
    (pq : PriorityQueue CacheItem.time) (clock : Clock) (hsize : 10 ≤ size) (seg seg' : Segment)
    (snapshot : List UInt8)
    (hcds : (Block.loader.readAll cdsInput).Pairwise fun a b => a.cksum ≤ b.cksum)
    (parent : Option (List UInt8))
    (hlt : ((Segment.loadAll sha1 seg snapshot).flatMap Segment.blocklist).length < 2 ^ 64) :
    ∃ st bs', cacheLevels pq clock (Block.loader.readAll cdsInput) (CdsLruCache.new size, 0)
        (runBlocks so sha1 seg seg' snapshot parent) = .ok (st, bs') ∧
      (AnalysesAgree so sha1 pq clock size seg seg' snapshot cdsInput parent ↔
        ∀ b' ∈ bs', ¬ b'.InCache) := by
  have hmarked := runBlocks_marked so sha1 seg seg' snapshot parent
  obtain ⟨st, bs', hok, -, -⟩ := cacheLevels_ok pq clock hcds _ (CdsLruCache.new size, 0)
    (ten_le_capacity hsize) (inCds_new _ size) hmarked
  have hlen : (runBlocks so sha1 seg seg' snapshot parent).length < 2 ^ 64 := by
    rw [← List.length_map (f := Block.cksum), runBlocks_cksum, List.length_map]
    exact hlt
  have hrun : cdsLru so sha1 pq clock size seg seg' none snapshot cdsInput parent =
      .ok (st.1.save, bs'.flatMap Block.save) := by
    rw [cdsLru_eq]
    exact congrArg (Except.map _) hok
  have hsim : dedupSim so sha1 seg seg' snapshot cdsInput parent =
      ((runBlocks so sha1 seg seg' snapshot parent).map
        (cdsLevel (Block.loader.readAll cdsInput))).flatMap Block.save :=
    simLoop_marked so sha1 _ _ _ _ _ _
  refine ⟨st, bs', hok, ?_⟩
  rw [← readAlike_iff hmarked hlen (cacheLevels_cached hcds _ _ _ _ hok)]
  unfold AnalysesAgree
  rw [hrun, hsim]
  constructor
  · rintro ⟨_, _, heq, halike⟩
    cases heq
    exact halike
  · exact fun halike => ⟨_, _, rfl, halike⟩

/-- **With a clock that advances.** -/
theorem analysesAgree_apart (so : Sorter Block.cksum) (sha1 : List UInt8 → Checksum)
    (pq : PriorityQueue CacheItem.time) (hclock : StrictMono clock) (hsize : 10 ≤ size)
    (seg seg' : Segment) (snapshot : List UInt8)
    (hcds : (Block.loader.readAll cdsInput).Pairwise fun a b => a.cksum ≤ b.cksum)
    (parent : Option (List UInt8))
    (hlt : ((Segment.loadAll sha1 seg snapshot).flatMap Segment.blocklist).length < 2 ^ 64) :
    AnalysesAgree so sha1 pq clock size seg seg' snapshot cdsInput parent ↔
      Apart size.toInt.toNat (cdsAccesses sha1 seg snapshot cdsInput) := by
  obtain ⟨st, bs', hok, hiff⟩ := analysesAgree_hits so sha1 pq clock hsize seg seg' snapshot hcds
    parent hlt
  have h10 : (10 : ℤ) ≤ size.toInt := Int32.le_iff_toInt_le.1 hsize
  rw [hiff, ← accesses_runBlocks so sha1 seg seg' snapshot cdsInput parent]
  exact cacheLevels_apart hclock (by omega) hcds _ [] _ st bs'
    (missed_new clock (Int32.le_trans (by decide) hsize) _)
    (runBlocks_marked so sha1 seg seg' snapshot parent) hok

/-- **When the analysis reads both simulators alike.** The one with a cache marks the blocks that it
finds there, and the analysis has no counter for that mark: so both are read alike if and only if
nothing is found in the cache. Whatever the clock reads, that is to say that no checksum of the CDS
comes twice in the snapshot, since two readings may be equal or go back. With a given clock that
advances, it is to say that none comes again while it is cached: a full cache drops its oldest
tenth, which `Apart` counts. The cache is for 10 blocks or more, as a smaller one has no tenth to
drop; the CDS is sorted, and the blocks are fewer than the 64-bit counters hold. -/
theorem analysesAgree_iff (so : Sorter Block.cksum) (sha1 : List UInt8 → Checksum) (size : Int32)
    (hsize : 10 ≤ size) (seg seg' : Segment) (snapshot cds : List UInt8)
    (hcds : (Block.loader.readAll cds).Pairwise fun a b => a.cksum ≤ b.cksum)
    (parent : Option (List UInt8))
    (hlt : ((Segment.loadAll sha1 seg snapshot).flatMap Segment.blocklist).length < 2 ^ 64) :
    ((∀ pq clock, AnalysesAgree so sha1 pq clock size seg seg' snapshot cds parent) ↔
        (cdsAccesses sha1 seg snapshot cds).Nodup) ∧
      ∀ pq clock, StrictMono clock →
        (AnalysesAgree so sha1 pq clock size seg seg' snapshot cds parent ↔
          Apart size.toInt.toNat (cdsAccesses sha1 seg snapshot cds)) := by
  have hmarked := runBlocks_marked so sha1 seg seg' snapshot parent
  have hcap := ten_le_capacity hsize
  have hhits := fun pq clock =>
    analysesAgree_hits so sha1 pq clock hsize seg seg' snapshot hcds parent hlt
  refine ⟨?_, fun pq clock hclock =>
    analysesAgree_apart so sha1 pq hclock hsize seg seg' snapshot hcds parent hlt⟩
  rw [← accesses_runBlocks so sha1 seg seg' snapshot cds parent]
  constructor
  · intro hagree
    by_contra hdup
    -- the clock reads late when the checksum that comes again first comes
    obtain ⟨n, hn⟩ := exists_hit (.descending CacheItem.time)
      (show (⟨0, 0⟩ : Timeval) < ⟨1, 0⟩ by decide) hcds _ hmarked hdup
    obtain ⟨st, bs', hok, hiff⟩ := hhits (.descending CacheItem.time) (onceLate ⟨0, 0⟩ ⟨1, 0⟩ (0 + n))
    obtain ⟨b', hb', hin⟩ := hn (CdsLruCache.new size, 0) st bs'
      ⟨hcap, inCds_new _ size, fun it hit => absurd hit List.not_mem_nil⟩ hok
    exact hiff.1 (hagree _ _) b' hb' hin
  · intro hnodup pq clock
    obtain ⟨st, bs', hok, hiff⟩ := hhits pq clock
    exact hiff.2 (cacheLevels_fresh hcds _ (CdsLruCache.new size, 0) st bs' hcap (inCds_new _ size)
      hmarked hnodup (fun x _ => Finset.notMem_empty x) hok)

/-- One block of the CDS. -/
theorem analysesAgree_three :
    ((∀ pq clock, AnalysesAgree (.merge Block.cksum) segmentDigest pq clock 10 default default
          ([threeBlock].flatMap Block.save) ([threeBlock].flatMap Block.save) none) ↔
        (cdsAccesses segmentDigest default ([threeBlock].flatMap Block.save)
          ([threeBlock].flatMap Block.save)).Nodup) ∧
      ∀ pq clock, StrictMono clock →
        (AnalysesAgree (.merge Block.cksum) segmentDigest pq clock 10 default default
            ([threeBlock].flatMap Block.save) ([threeBlock].flatMap Block.save) none ↔
          Apart (10 : Int32).toInt.toNat (cdsAccesses segmentDigest default
            ([threeBlock].flatMap Block.save) ([threeBlock].flatMap Block.save))) := by
  refine analysesAgree_iff (.merge Block.cksum) segmentDigest 10 (by decide) default default
    ([threeBlock].flatMap Block.save) ([threeBlock].flatMap Block.save) ?_ none ?_
  · rw [loader_readAll_save]
    exact List.pairwise_singleton _ _
  · have hload : (Segment.loadAll segmentDigest default ([threeBlock].flatMap Block.save)).flatMap
        Segment.blocklist = [threeBlock] :=
      Segment.loadAll_records segmentDigest default (by simp [threeBlock]) (by simp [threeBlock])
    exact (congrArg List.length hload).trans_lt (by decide)

/-- The block comes twice: the second time it is found in the cache. -/
theorem not_analysesAgree_twice :
    ¬ AnalysesAgree (.merge Block.cksum) segmentDigest (.descending CacheItem.time) tickClock 10
      default default ([threeBlock, threeBlock].flatMap Block.save)
      ([threeBlock].flatMap Block.save) none := by
  have hload : (Segment.loadAll segmentDigest default
      ([threeBlock, threeBlock].flatMap Block.save)).flatMap Segment.blocklist =
        [threeBlock, threeBlock] :=
    Segment.loadAll_records segmentDigest default (by simp [threeBlock]) (by simp [threeBlock])
  have hread : Block.loader.readAll ([threeBlock].flatMap Block.save) = [threeBlock] :=
    loader_readAll_save _
  have hcds : (Block.loader.readAll ([threeBlock].flatMap Block.save)).Pairwise
      fun a b => a.cksum ≤ b.cksum := by
    rw [hread]
    exact List.pairwise_singleton _ _
  rw [analysesAgree_apart (.merge Block.cksum) segmentDigest (.descending CacheItem.time)
    tickClock_strictMono (by decide) default default _ hcds none
    ((congrArg List.length hload).trans_lt (by decide))]
  unfold cdsAccesses
  rw [hload, hread]
  intro hapart
  exact hapart.2.1 (by decide)

end DedupSim
