import DedupSim.Proof.CdsLruCache
import DedupSim.Proof.Rounds

/-!
# The simulator with a cache of CDS blocks

* `cacheLevel_hit`, `cacheLevel_miss`, `cacheLevel_out`: level 3 on one block, and
  `cacheLevel_cases`: these are all cases.
* `cdsLruRuns_transparent`: **but for the bit of the cache a chain of runs writes what
  `dedup_cds_sim` writes.**
-/

namespace DedupSim

variable {so : Sorter Block.cksum} {sha1 : List UInt8 → Checksum}
  {pq : PriorityQueue CacheItem.time} {clock : Clock} {cds : List Block} {b : Block}
  {st st' : CdsLruCache.State} {b' : Block}

open CdsLruCache

theorem mem_cds (hcds : cds.Pairwise fun a b => a.cksum ≤ b.cksum) (b : Block) :
    binarySearch Block.cksum cds b = true ↔ b.cksum ∈ cds.map Block.cksum := by
  rw [binarySearch_iff hcds, mem_cksums]

/-! ## Level 3 on one block -/

/-- The block is cached. -/
theorem cacheLevel_hit (hk : b.cksum ∈ st.1.keySet) :
    cacheLevel pq clock cds st b =
      .ok ((st.1.setTime (clock st.2) b, st.2 + 1), { b with fileId := b.fileId ||| inCdsCache }) := by
  rcases hfind : st.1.cache.find? b.cksum with - | old
  · exact absurd hk (find?_eq_none.1 hfind)
  · simp only [cacheLevel, searchItem, hfind]

/-- It is not, but is in the CDS. -/
theorem cacheLevel_miss (hcds : cds.Pairwise fun a b => a.cksum ≤ b.cksum)
    (hk : b.cksum ∉ st.1.keySet) (hb : b.cksum ∈ cds.map Block.cksum) :
    cacheLevel pq clock cds st b =
      (st.1.addItem pq (clock st.2) { b with fileId := b.fileId ||| inCds }).map fun c =>
        ((c, st.2 + 1), { b with fileId := b.fileId ||| inCds }) := by
  simp only [cacheLevel, searchItem, find?_eq_none.2 hk, (mem_cds hcds b).2 hb, if_true]
  rcases st.1.addItem pq (clock st.2) { b with fileId := b.fileId ||| inCds } with e | c <;> rfl

/-- It is in neither. -/
theorem cacheLevel_out (hcds : cds.Pairwise fun a b => a.cksum ≤ b.cksum)
    (hk : b.cksum ∉ st.1.keySet) (hb : b.cksum ∉ cds.map Block.cksum) :
    cacheLevel pq clock cds st b = .ok (st, b) := by
  have hsearch : ¬ binarySearch Block.cksum cds b = true := fun h => hb ((mem_cds hcds b).1 h)
  simp only [cacheLevel, searchItem, find?_eq_none.2 hk, hsearch]
  rfl

/-- What level 3 does with one block. -/
theorem cacheLevel_cases (hcds : cds.Pairwise fun a b => a.cksum ≤ b.cksum)
    (h : cacheLevel pq clock cds st b = .ok (st', b')) :
    b.cksum ∈ st.1.keySet ∧ st' = (st.1.setTime (clock st.2) b, st.2 + 1) ∧
        b' = { b with fileId := b.fileId ||| inCdsCache } ∨
      b.cksum ∉ st.1.keySet ∧ b.cksum ∈ cds.map Block.cksum ∧
        st.1.addItem pq (clock st.2) { b with fileId := b.fileId ||| inCds } = .ok st'.1 ∧
        st'.2 = st.2 + 1 ∧ b' = { b with fileId := b.fileId ||| inCds } ∨
      b.cksum ∉ st.1.keySet ∧ b.cksum ∉ cds.map Block.cksum ∧ st' = st ∧ b' = b := by
  by_cases hk : b.cksum ∈ st.1.keySet
  · rw [cacheLevel_hit hk] at h
    cases h
    exact .inl ⟨hk, rfl, rfl⟩
  by_cases hb : b.cksum ∈ cds.map Block.cksum
  · rw [cacheLevel_miss hcds hk hb] at h
    rcases hadd : st.1.addItem pq (clock st.2) { b with fileId := b.fileId ||| inCds } with e | c
    · rw [hadd] at h
      cases h
    · rw [hadd] at h
      cases h
      exact .inr (.inl ⟨hk, hb, rfl, rfl, rfl⟩)
  · rw [cacheLevel_out hcds hk hb] at h
    cases h
    exact .inr (.inr ⟨hk, hb, rfl, rfl⟩)

/-! ## The cache is transparent -/

/-- The bit `0x08` cleared. -/
def Block.clearCache (b : Block) : Block := { b with fileId := b.fileId &&& ~~~0x08 }

/-- Every cached block is one of the CDS. -/
def InCds (cds : List Block) (c : CdsLruCache) : Prop :=
  ∀ k ∈ c.keySet, k ∈ cds.map Block.cksum

theorem inCds_setTime {c : CdsLruCache} (h : InCds cds c) (tv : Timeval) (b : Block)
    (hb : b.cksum ∈ cds.map Block.cksum) : InCds cds (c.setTime tv b) := by
  intro k hk
  rw [keySet_setTime, Finset.mem_insert] at hk
  rcases hk with rfl | hk
  · exact hb
  · exact h k hk

/-- **One block**: the cache stays within the CDS, and the flag is that of the CDS. -/
theorem cacheLevel_ok (pq : PriorityQueue CacheItem.time) (clock : Clock)
    (hcds : cds.Pairwise fun a b => a.cksum ≤ b.cksum) (hcap : 10 ≤ st.1.capacity.toNat)
    (hin : InCds cds st.1) (hb : b.Marked) :
    ∃ st' b', cacheLevel pq clock cds st b = .ok (st', b') ∧ st'.1.capacity = st.1.capacity ∧
      InCds cds st'.1 ∧ b'.clearCache = cdsLevel cds b := by
  have hclear : ∀ f : UInt32, f = 0 ∨ f = inParent ∨ f = inDirtySeg →
      (f ||| inCdsCache) &&& ~~~0x08 = f ||| inCds ∧ (f ||| inCds) &&& ~~~0x08 = f ||| inCds ∧
        f &&& ~~~0x08 = f := by
    rintro f (rfl | rfl | rfl) <;> decide
  obtain ⟨hhit, hmiss, hout⟩ := hclear b.fileId hb
  unfold cdsLevel
  by_cases hk : b.cksum ∈ st.1.keySet
  · have hbc := hin _ hk
    rw [if_pos ((mem_cds hcds b).2 hbc)]
    refine ⟨_, _, cacheLevel_hit hk, rfl, inCds_setTime hin _ b hbc, ?_⟩
    simp only [Block.clearCache, hhit]
  by_cases hbc : b.cksum ∈ cds.map Block.cksum
  · rw [if_pos ((mem_cds hcds b).2 hbc)]
    rw [cacheLevel_miss hcds hk hbc]
    set b1 : Block := { b with fileId := b.fileId ||| inCds } with hb1
    obtain ⟨c', hok, hcap', hkeys, -⟩ := addItem_ok pq st.1 (clock st.2) b1 hcap
    have hin1 := inCds_setTime hin (clock st.2) b1 hbc
    refine ⟨(c', st.2 + 1), b1, ?_, hcap', fun k hk' => hin1 k (hkeys hk'), ?_⟩
    · rw [hok]
      rfl
    · rw [hb1]
      simp only [Block.clearCache, hmiss]
  · rw [if_neg (fun h => hbc ((mem_cds hcds b).1 h))]
    refine ⟨st, b, cacheLevel_out hcds hk hbc, rfl, hin, ?_⟩
    simp only [Block.clearCache, hout]

/-- **The blocks of a run.** -/
theorem cacheLevels_ok (pq : PriorityQueue CacheItem.time) (clock : Clock)
    (hcds : cds.Pairwise fun a b => a.cksum ≤ b.cksum) (bs : List Block) :
    ∀ st : CdsLruCache.State, 10 ≤ st.1.capacity.toNat → InCds cds st.1 → (∀ b ∈ bs, b.Marked) →
      ∃ st' bs', cacheLevels pq clock cds st bs = .ok (st', bs') ∧ InCds cds st'.1 ∧
        bs'.map Block.clearCache = bs.map (cdsLevel cds) := by
  induction bs with
  | nil => exact fun st _ hin _ => ⟨st, [], rfl, hin, rfl⟩
  | cons b bs ih =>
    intro st hcap hin hmarked
    obtain ⟨st1, b', h1, hcap1, hin1, hb'⟩ := cacheLevel_ok pq clock hcds hcap hin
      (hmarked b (.head _))
    obtain ⟨st', bs', h2, hin', hbs'⟩ := ih st1 (by rwa [hcap1]) hin1
      fun b hb => hmarked b (.tail _ hb)
    refine ⟨st', b' :: bs', ?_, hin', ?_⟩
    · unfold cacheLevels
      rw [h1]
      change (cacheLevels pq clock cds st1 bs >>= _) = _
      rw [h2]
      rfl
    · rw [List.map_cons, List.map_cons, hb', hbs']

/-- A saved cache: records of blocks of the CDS. -/
def SavedCache (cds : List Block) (is : List UInt8) : Prop :=
  ∃ bs : List Block, is = bs.flatMap Block.toStream ∧ ∀ b ∈ bs, b.cksum ∈ cds.map Block.cksum

theorem savedCache_save {c : CdsLruCache} (h : InCds cds c) : SavedCache cds c.save := by
  refine ⟨c.cache.entries.map fun it => it.2.1, ?_, ?_⟩
  · rw [List.flatMap_map]
    rfl
  · intro b hb
    obtain ⟨it, hit, rfl⟩ := List.mem_map.1 hb
    rw [c.keys it hit]
    exact h it.1 (mem_keySet.2 ⟨it, hit, rfl⟩)

theorem inCds_load {c : CdsLruCache} {is : List UInt8} (hin : InCds cds c) (tv : Timeval)
    (h : SavedCache cds is) : InCds cds (c.load tv is) := by
  obtain ⟨bs, rfl, hbs⟩ := h
  unfold load
  rw [(readAll_records bs).2]
  induction bs generalizing c with
  | nil => exact hin
  | cons b bs ih =>
    exact ih (inCds_setTime hin tv b (hbs b (.head _))) fun b hb => hbs b (.tail _ hb)

theorem capacity_load (c : CdsLruCache) (tv : Timeval) (is : List UInt8) :
    (c.load tv is).capacity = c.capacity := capacity_setTimes c tv _

theorem inCds_new (cds : List Block) (size : Int32) : InCds cds (CdsLruCache.new size) :=
  fun _ hk => absurd hk (Finset.notMem_empty _)

/-- The cache that a run starts with. -/
def firstState (clock : Clock) (size : Int32) (oldCache : Option (List UInt8)) :
    CdsLruCache.State :=
  match oldCache with
  | none => (CdsLruCache.new size, 0)
  | some is => ((CdsLruCache.new size).load (clock 0) is, 1)

theorem inCds_firstState (clock : Clock) (size : Int32) {oldCache : Option (List UInt8)}
    (hold : ∀ is, oldCache = some is → SavedCache cds is) :
    InCds cds (firstState clock size oldCache).1 := by
  rcases oldCache with - | is
  · exact inCds_new _ size
  · exact inCds_load (inCds_new _ size) (clock 0) (hold is rfl)

theorem cdsLru_eq {size : Int32} {seg seg' : Segment} {oldCache : Option (List UInt8)}
    {snapshot cds : List UInt8} {parent : Option (List UInt8)} :
    cdsLru so sha1 pq clock size seg seg' oldCache snapshot cds parent =
      (cacheLevels pq clock (Block.loader.readAll cds) (firstState clock size oldCache)
        (marked so sha1 parent.isSome seg' (parent.getD []) (Segment.loadAll sha1 seg snapshot))).map
          fun r => (r.1.1.save, r.2.flatMap Block.save) := by
  rcases oldCache with - | is
  · simp only [cdsLru, cdsLruLoop_marked, firstState]
    rcases cacheLevels pq clock (Block.loader.readAll cds) _ _ with e | r <;> rfl
  · simp only [cdsLru, cdsLruLoop_marked, firstState]
    rcases cacheLevels pq clock (Block.loader.readAll cds) _ _ with e | r <;> rfl

/-- **One run** on a cache that an earlier run has saved, or on none. -/
theorem cdsLru_ok (so : Sorter Block.cksum) (sha1 : List UInt8 → Checksum)
    (pq : PriorityQueue CacheItem.time) (clock : Clock) {size : Int32} (hsize : 10 ≤ size)
    (seg seg' : Segment) {oldCache : Option (List UInt8)} (snapshot : List UInt8)
    {cds : List UInt8} (parent : Option (List UInt8))
    (hcds : (Block.loader.readAll cds).Pairwise fun a b => a.cksum ≤ b.cksum)
    (hold : ∀ is, oldCache = some is → SavedCache (Block.loader.readAll cds) is) :
    ∃ (newCache : List UInt8) (out : List Block),
      cdsLru so sha1 pq clock size seg seg' oldCache snapshot cds parent =
          .ok (newCache, out.flatMap Block.toStream) ∧
        SavedCache (Block.loader.readAll cds) newCache ∧
        dedupSim so sha1 seg seg' snapshot cds parent =
          (out.map Block.clearCache).flatMap Block.toStream := by
  have hcap := ten_le_capacity hsize
  have hfirst : (firstState clock size oldCache).1.capacity = (CdsLruCache.new size).capacity := by
    rcases oldCache with - | is
    · rfl
    · exact capacity_load _ _ _
  obtain ⟨st, out, hok, hin, hout⟩ := cacheLevels_ok pq clock hcds
    (marked so sha1 parent.isSome seg' (parent.getD []) (Segment.loadAll sha1 seg snapshot))
    (firstState clock size oldCache) (by rwa [hfirst]) (inCds_firstState clock size hold)
    (marked_marked so sha1 _ _ _ _).1
  refine ⟨st.1.save, out, ?_, savedCache_save hin, ?_⟩
  · rw [cdsLru_eq, hok]
    rfl
  · unfold dedupSim
    rw [simLoop_marked, hout]
    rfl

/-- **A chain of runs** that starts with such files. -/
theorem cdsLruRuns_ok (so : Sorter Block.cksum) (sha1 : List UInt8 → Checksum)
    (pq : PriorityQueue CacheItem.time) (seg seg' : Segment) {cds : List UInt8}
    (hcds : (Block.loader.readAll cds).Pairwise fun a b => a.cksum ≤ b.cksum)
    (runs : List LruRun) :
    ∀ cacheFile : Int32 → Option (List UInt8),
      (∀ size is, cacheFile size = some is → SavedCache (Block.loader.readAll cds) is) →
      (∀ r ∈ runs, 10 ≤ r.size) →
      ∃ outs : List (List Block),
        cdsLruRuns so sha1 pq seg seg' cds cacheFile runs =
            .ok (outs.map fun out => out.flatMap Block.toStream) ∧
          runs.map (fun r => dedupSim so sha1 seg seg' r.snapshot cds r.parent) =
            outs.map fun out => (out.map Block.clearCache).flatMap Block.toStream := by
  induction runs with
  | nil => exact fun _ _ _ => ⟨[], rfl, rfl⟩
  | cons r runs ih =>
    intro cacheFile hfiles hsize
    obtain ⟨newCache, out, hok, hsaved, hout⟩ := cdsLru_ok so sha1 pq r.clock
      (hsize r (.head _)) seg seg' r.snapshot r.parent hcds (hfiles r.size)
    have hfiles' : ∀ size is, Function.update cacheFile r.size (some newCache) size = some is →
        SavedCache (Block.loader.readAll cds) is := by
      intro size is h
      by_cases hs : size = r.size
      · subst hs
        rw [Function.update_self] at h
        cases h
        exact hsaved
      · rw [Function.update_of_ne hs] at h
        exact hfiles size is h
    obtain ⟨outs, hoks, houts⟩ := ih _ hfiles' fun r hr => hsize r (.tail _ hr)
    refine ⟨out :: outs, ?_, ?_⟩
    · unfold cdsLruRuns
      rw [hok]
      change (cdsLruRuns so sha1 pq seg seg' cds _ runs >>= _) = _
      rw [hoks]
      rfl
    · rw [List.map_cons, List.map_cons, hout, houts]

/-- **The cache is transparent.** In a chain of runs of which the first of each cache size
finds no cache file, every run writes what `dedup_cds_sim` writes on its snapshot, parent
and CDS, once the bit `0x08` is cleared. -/
theorem cdsLruRuns_transparent (so : Sorter Block.cksum) (sha1 : List UInt8 → Checksum)
    (pq : PriorityQueue CacheItem.time) (seg seg' : Segment) (cds : List UInt8)
    (hcds : (Block.loader.readAll cds).Pairwise fun a b => a.cksum ≤ b.cksum)
    (runs : List LruRun) (hsize : ∀ r ∈ runs, 10 ≤ r.size) :
    ∃ outs : List (List Block),
      cdsLruRuns so sha1 pq seg seg' cds (fun _ => none) runs =
          .ok (outs.map fun out => out.flatMap Block.toStream) ∧
        runs.map (fun r => dedupSim so sha1 seg seg' r.snapshot cds r.parent) =
          outs.map fun out => (out.map Block.clearCache).flatMap Block.toStream :=
  cdsLruRuns_ok so sha1 pq seg seg' hcds runs (fun _ => none) (fun _ _ h => by cases h) hsize

/-- Two runs on one block, which the second finds in the cache of the first. -/
theorem cdsLruRuns_transparent_three :
    ∃ outs : List (List Block),
      cdsLruRuns (Sorter.merge Block.cksum) segmentDigest (.descending CacheItem.time) default
          default ([threeBlock].flatMap Block.toStream) (fun _ => none)
          (List.replicate 2 ⟨10, [threeBlock].flatMap Block.toStream, none, tickClock⟩) =
          .ok (outs.map fun out => out.flatMap Block.toStream) ∧
        (List.replicate 2 (LruRun.mk 10 ([threeBlock].flatMap Block.toStream) none tickClock)).map
            (fun r => dedupSim (Sorter.merge Block.cksum) segmentDigest default default r.snapshot
              ([threeBlock].flatMap Block.toStream) r.parent) =
          outs.map fun out => (out.map Block.clearCache).flatMap Block.toStream := by
  refine cdsLruRuns_transparent (Sorter.merge Block.cksum) segmentDigest
    (.descending CacheItem.time) default default ([threeBlock].flatMap Block.toStream) ?_
    (List.replicate 2 ⟨10, [threeBlock].flatMap Block.toStream, none, tickClock⟩) ?_
  · rw [(readAll_records [threeBlock]).2]
    exact List.pairwise_singleton _ _
  · intro r hr
    rw [List.eq_of_mem_replicate hr]
    decide

end DedupSim
