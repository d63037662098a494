import DedupSim.Proof.Simulator
import DedupSim.Spec.LruSimulators

/-!
# The rounds of the simulators

The loops of the simulators load a segment a round, and what they load depends on the
snapshot only. `marked` are the segments of a snapshot after levels 1 and 2;
`simLoop_marked` and `cdsLruLoop_marked`: **level 3 is all that the loops add to them.**
-/

namespace DedupSim

variable {so : Sorter Block.cksum} {sha1 : List UInt8 → Checksum} {rd : RecordReader}
  {is rest : List UInt8} {parent : Segment} {b : Block}

namespace Segment

/-! ## Loading does not depend on the old segment -/

theorem addBlock_final {s t : Segment} (h : s.final sha1 = t.final sha1) (b : Block) :
    (s.addBlock b).final sha1 = (t.addBlock b).final sha1 ∧
      (s.addBlock b).size = (t.addBlock b).size := by
  obtain ⟨_, _, _, _, _⟩ := s
  obtain ⟨_, _, _, _, _⟩ := t
  simp only [final, Segment.mk.injEq] at h
  obtain ⟨rfl, rfl, rfl, rfl, -⟩ := h
  exact ⟨rfl, rfl⟩

theorem loadBlocks_final (rd : RecordReader) (sha1 : List UInt8 → Checksum) (is : List UInt8) :
    ∀ s t : Segment, s.final sha1 = t.final sha1 →
      (loadBlocks rd s is).1.final sha1 = (loadBlocks rd t is).1.final sha1 ∧
        (loadBlocks rd s is).2 = (loadBlocks rd t is).2 := by
  induction h : is.length using Nat.strong_induction_on generalizing is with
  | _ n ih =>
    subst h
    intro s t hst
    rcases hr : rd.read is with ⟨_ | b, rest⟩
    · rw [loadBlocks_none hr, loadBlocks_none hr]
      exact ⟨hst, rfl⟩
    · have hrest := ih _ (rd.lt hr) rest rfl
      obtain ⟨hadd, hsize⟩ := addBlock_final hst b
      rw [loadBlocks_some hr, loadBlocks_some hr, hsize]
      split
      · exact hrest s t hst
      · split
        · exact ⟨hadd, rfl⟩
        · exact hrest _ _ hadd

theorem loadWith_old (rd : RecordReader) (sha1 : List UInt8 → Checksum) (s t : Segment)
    (is : List UInt8) : loadWith rd sha1 s is = loadWith rd sha1 t is := by
  obtain ⟨hseg, hrest⟩ := loadBlocks_final rd sha1 is s.init t.init rfl
  have hsize := congrArg Segment.size hseg
  change (loadBlocks rd s.init is).1.size = (loadBlocks rd t.init is).1.size at hsize
  simp only [loadWith, hseg, hrest]

theorem loadSegment_eq : loadSegment = loadFixSize := by
  unfold loadSegment
  unfold loadFixSize
  rw [Block.loader_eq]

theorem loadAll_old (s t : Segment) (is : List UInt8) : loadAll sha1 s is = loadAll sha1 t is := by
  rcases hl : loadFixSize sha1 s is with ⟨- | -, seg, rest⟩
  · have hl' : loadFixSize sha1 t is = (false, seg, rest) := (loadWith_old _ _ t s is).trans hl
    rw [loadAll_false (congrArg Prod.fst hl), loadAll_false (congrArg Prod.fst hl')]
  · have hl' : loadFixSize sha1 t is = (true, seg, rest) := (loadWith_old _ _ t s is).trans hl
    rw [loadAll_true hl, loadAll_true hl']

end Segment

/-! ## Levels 1 and 2 -/

/-- Level 3 of the simulators without a cache. -/
def cdsLevel (cds : List Block) (b : Block) : Block :=
  if binarySearch Block.cksum cds b then { b with fileId := b.fileId ||| inCds } else b

theorem cdsLevel_eq (cds : List Block) (b : Block) :
    cdsLevel cds b =
      { b with fileId := b.fileId ||| if binarySearch Block.cksum cds b then inCds else 0 } := by
  unfold cdsLevel
  split
  · rfl
  · rw [UInt32.or_zero]

@[simp] theorem cdsLevel_cksum (cds : List Block) (b : Block) : (cdsLevel cds b).cksum = b.cksum := by
  rw [cdsLevel_eq]

theorem simSegment_levels (cds : List Block) (hasParent : Bool) (current parent : Segment) :
    simSegment cds hasParent current parent =
      (parentLevels hasParent current parent).mapBlocks (cdsLevel cds) := rfl

/-- The blocks of segments after levels 1 and 2, one segment after another. -/
def marked (so : Sorter Block.cksum) (sha1 : List UInt8 → Checksum) (hasParent : Bool) :
    Segment → List UInt8 → List Segment → List Block
  | _, _, [] => []
  | parent, parentInput, current :: segs =>
    (parentLevels hasParent current (loadParent so sha1 hasParent parent parentInput).1).blocklist ++
      marked so sha1 hasParent (loadParent so sha1 hasParent parent parentInput).1
        (loadParent so sha1 hasParent parent parentInput).2 segs

/-- The flags of levels 1 and 2. -/
def Block.Marked (b : Block) : Prop :=
  b.fileId = 0 ∨ b.fileId = inParent ∨ b.fileId = inDirtySeg

theorem map_marked {f : Block → Block} (hf : ∀ b, (f b).Marked ∧ (f b).cksum = b.cksum)
    (bs : List Block) :
    (∀ b ∈ bs.map f, b.Marked) ∧ (bs.map f).map Block.cksum = bs.map Block.cksum := by
  refine ⟨?_, ?_⟩
  · intro b hb
    obtain ⟨a, -, rfl⟩ := List.mem_map.1 hb
    exact (hf a).1
  · rw [List.map_map]
    apply List.map_congr_left
    exact fun a _ => (hf a).2

theorem parentLevels_marked (hasParent : Bool) (current parent : Segment) :
    (∀ b ∈ (parentLevels hasParent current parent).blocklist, b.Marked) ∧
      (parentLevels hasParent current parent).blocklist.map Block.cksum =
        current.blocklist.map Block.cksum := by
  unfold parentLevels Segment.mapBlocks
  simp only
  split
  · rw [List.map_map]
    apply map_marked
    exact fun b => ⟨.inr (.inl UInt32.zero_or), rfl⟩
  · split
    · rw [List.map_map]
      apply map_marked
      intro b
      simp only [Function.comp_apply]
      split
      · exact ⟨.inr (.inr UInt32.zero_or), rfl⟩
      · exact ⟨.inl rfl, rfl⟩
    · apply map_marked
      exact fun b => ⟨.inl rfl, rfl⟩

theorem marked_marked (so : Sorter Block.cksum) (sha1 : List UInt8 → Checksum) (hasParent : Bool)
    (segs : List Segment) : ∀ (parent : Segment) (is : List UInt8),
      (∀ b ∈ marked so sha1 hasParent parent is segs, b.Marked) ∧
        (marked so sha1 hasParent parent is segs).map Block.cksum =
          (segs.flatMap Segment.blocklist).map Block.cksum := by
  induction segs with
  | nil => exact fun parent is => ⟨fun b hb => absurd hb List.not_mem_nil, rfl⟩
  | cons current segs ih =>
    intro parent is
    obtain ⟨h1, h2⟩ := parentLevels_marked hasParent current
      (loadParent so sha1 hasParent parent is).1
    obtain ⟨h3, h4⟩ := ih (loadParent so sha1 hasParent parent is).1
      (loadParent so sha1 hasParent parent is).2
    unfold marked
    refine ⟨?_, ?_⟩
    · intro b hb
      rcases List.mem_append.1 hb with hb | hb
      · exact h1 b hb
      · exact h3 b hb
    · rw [List.map_append, h2, h4, List.flatMap_cons, List.map_append]

/-- **The loop without a cache.** -/
theorem simLoop_marked (so : Sorter Block.cksum) (sha1 : List UInt8 → Checksum) (cds : List Block)
    (hasParent : Bool) (is : List UInt8) :
    ∀ (current parent : Segment) (is' : List UInt8),
      simLoop so sha1 cds hasParent current parent is is' =
        ((marked so sha1 hasParent parent is' (Segment.loadAll sha1 current is)).map
          (cdsLevel cds)).flatMap Block.save := by
  induction h : is.length using Nat.strong_induction_on generalizing is with
  | _ n ih =>
    subst h
    intro current parent is'
    rcases hl : Segment.loadSegment sha1 current is with ⟨- | -, seg, rest⟩
    · have hnil : Segment.loadAll sha1 current is = [] :=
        Segment.loadAll_false (by rw [← Segment.loadSegment_eq, hl])
      rw [simLoop_unfold, hl, hnil]
      rfl
    · have hcons : Segment.loadAll sha1 current is = seg :: Segment.loadAll sha1 seg rest :=
        Segment.loadAll_true (by rw [← Segment.loadSegment_eq, hl])
      rw [simLoop_unfold, hl, if_pos rfl, ih _ (Segment.loadWith_lt hl) rest rfl, hcons, marked, List.map_append,
        List.flatMap_append, Segment.loadAll_old _ seg, simSegment_levels]
      rfl

section CdsLru

variable {pq : PriorityQueue CacheItem.time} {clock : Clock} {cds : List Block}

theorem cacheLevels_append (as bs : List Block) (st : CdsLruCache.State) :
    cacheLevels pq clock cds st (as ++ bs) = do
      let (st, as) ← cacheLevels pq clock cds st as
      let (st, bs) ← cacheLevels pq clock cds st bs
      return (st, as ++ bs) := by
  induction as generalizing st with
  | nil =>
    simp only [List.nil_append, cacheLevels, bind, Except.bind]
    rcases cacheLevels pq clock cds st bs with e | ⟨st', bs'⟩ <;> rfl
  | cons a as ih =>
    simp only [List.cons_append, cacheLevels, bind, Except.bind]
    rcases cacheLevel pq clock cds st a with e | ⟨st1, a'⟩
    · rfl
    simp only [ih, bind, Except.bind]
    rcases cacheLevels pq clock cds st1 as with e | ⟨st2, as'⟩
    · rfl
    simp only [pure, Except.pure]
    rcases cacheLevels pq clock cds st2 bs with e | ⟨st3, bs'⟩ <;> rfl

theorem cacheLevels_cons {st st' : CdsLruCache.State} {bs bs' : List Block}
    (h : cacheLevels pq clock cds st (b :: bs) = .ok (st', bs')) :
    ∃ st1 b1 bs1, cacheLevel pq clock cds st b = .ok (st1, b1) ∧
      cacheLevels pq clock cds st1 bs = .ok (st', bs1) ∧ bs' = b1 :: bs1 := by
  unfold cacheLevels at h
  rcases hb : cacheLevel pq clock cds st b with e | ⟨st1, b1⟩
  · rw [hb] at h
    cases h
  rw [hb] at h
  change (cacheLevels pq clock cds st1 bs >>= _) = _ at h
  rcases hbs : cacheLevels pq clock cds st1 bs with e | ⟨st2, bs1⟩
  · rw [hbs] at h
    cases h
  · rw [hbs] at h
    cases h
    exact ⟨st1, b1, bs1, rfl, hbs, rfl⟩

theorem cdsLruLoop_unfold {hasParent : Bool} {is is' : List UInt8} {seg : Segment}
    {st : CdsLruCache.State} :
    cdsLruLoop so sha1 pq clock cds hasParent seg parent st is is' =
      if (Segment.loadSegment sha1 seg is).1 then do
        let parent' := loadParent so sha1 hasParent parent is'
        let current := parentLevels hasParent (Segment.loadSegment sha1 seg is).2.1 parent'.1
        let (st, blocklist) ← cacheLevels pq clock cds st current.blocklist
        let (st, output) ← cdsLruLoop so sha1 pq clock cds hasParent
          { current with blocklist := blocklist } parent'.1 st (Segment.loadSegment sha1 seg is).2.2
          parent'.2
        return (st, blocklist.flatMap Block.save ++ output)
      else .ok (st, []) := by
  rw [cdsLruLoop]
  split
  · rename_i hl
    rw [hl]
    rfl
  · rename_i hl
    rw [hl]
    rfl

/-- **The loop with a cache.** -/
theorem cdsLruLoop_marked (so : Sorter Block.cksum) (sha1 : List UInt8 → Checksum)
    (pq : PriorityQueue CacheItem.time) (clock : Clock) (cds : List Block) (hasParent : Bool)
    (is : List UInt8) :
    ∀ (current parent : Segment) (st : CdsLruCache.State) (is' : List UInt8),
      cdsLruLoop so sha1 pq clock cds hasParent current parent st is is' =
        (cacheLevels pq clock cds st
          (marked so sha1 hasParent parent is' (Segment.loadAll sha1 current is))).map
            fun r => (r.1, r.2.flatMap Block.save) := by
  induction h : is.length using Nat.strong_induction_on generalizing is with
  | _ n ih =>
    subst h
    intro current parent st is'
    rcases hl : Segment.loadSegment sha1 current is with ⟨- | -, seg, rest⟩
    · have hnil : Segment.loadAll sha1 current is = [] :=
        Segment.loadAll_false (by rw [← Segment.loadSegment_eq, hl])
      rw [cdsLruLoop_unfold, hl, hnil]
      rfl
    · have hcons : Segment.loadAll sha1 current is = seg :: Segment.loadAll sha1 seg rest :=
        Segment.loadAll_true (by rw [← Segment.loadSegment_eq, hl])
      rw [cdsLruLoop_unfold, hl, if_pos rfl, hcons, marked, cacheLevels_append]
      simp only
      rcases cacheLevels pq clock cds st
        (parentLevels hasParent seg (loadParent so sha1 hasParent parent is').1).blocklist with
        e | ⟨st1, bs⟩
      · rfl
      · simp only [bind, Except.bind]
        rw [ih _ (Segment.loadWith_lt hl) rest rfl, Segment.loadAll_old _ seg]
        rcases cacheLevels pq clock cds st1 _ with e | ⟨st2, bs'⟩
        · rfl
        · simp only [Except.map, pure, Except.pure, List.flatMap_append]

end CdsLru

end DedupSim
