import DedupSim.Proof.LruCache
import DedupSim.Proof.Rounds

/-!
# The simulator with a cache of the parent's blocks

`dedup_sim_lru` beside `dedup_sim` on the same files, segment by segment.

* `searchBlocks_ok`, `addItems_keys`: level 2 in terms of the checksums in the cache.
* `Leveled`: the two programs agree on levels 1 and 2, but for a flag on a block that was
  inserted; `round_ok`: **so in every round.**
* `simLru_dominates`: **`dedup_sim_lru` flags what `dedup_sim` flags.**
-/

namespace DedupSim

variable {so : Sorter Block.cksum} {sha1 : List UInt8 → Checksum} {entSo : Sorter LruCacheEntry.key}
  {timeSo : Sorter LruCacheEntry.age} {clock : Clock} {cds s p : List Block} {b b' : Block}
  {st : LruCache.State} {cap : ℕ} {ins ins' : Checksum → Prop}

open LruCache

/-! ## Loading -/

/-- The second condition of `load_segment` adds nothing to the first. -/
theorem Segment.loadSegmentLru_eq (sha1 : List UInt8 → Checksum) (seg : Segment) {is : List UInt8}
    (h31 : ∀ b ∈ Block.loader.readAll is, b.size.toNat < 2 ^ 31) :
    loadSegmentLru sha1 seg is = loadSegment sha1 seg is := by
  obtain ⟨-, hseg, -⟩ := loadWith_eq Block.loader sha1 seg is h31
  have hempty : ((loadBlocks Block.loader seg.init is).1.final sha1).blocklist.length = 0 →
      ((loadBlocks Block.loader seg.init is).1.final sha1).size = 0 := by
    intro h0
    change (loadBlocks Block.loader seg.init is).1.final sha1 = _ at hseg
    rw [hseg, ofBlocks_blocklist, List.length_eq_zero_iff] at h0
    rw [hseg, h0]
    rfl
  simp only [loadSegmentLru, loadSegment, loadWith, or_iff_left_of_imp hempty]

/-! ## Level 2 -/

/-- **The searches of a segment's blocks.** -/
theorem searchBlocks_ok (clock : Clock) (bs : List Block) :
    ∀ st : LruCache.State, (st.1.cache.Pairwise fun a b => a.key ≤ b.key) →
      ∃ st', searchBlocks clock st bs =
          (st', bs.map fun b =>
            if b.cksum ∈ st.1.cache.map LruCacheEntry.key then
              { b with fileId := b.fileId ||| inDirtySeg }
            else b) ∧
        st'.1.cache.map LruCacheEntry.key = st.1.cache.map LruCacheEntry.key ∧
        st'.1.capacity = st.1.capacity := by
  induction bs with
  | nil => exact fun st _ => ⟨st, rfl, rfl, rfl⟩
  | cons b bs ih =>
    intro st hs
    obtain ⟨hfound, hkeys, hcap⟩ := searchItem_ok hs (clock st.2) b
    rw [← List.mem_map] at hfound
    have hs' : (st.1.searchItem (clock st.2) b).2.cache.Pairwise fun a b => a.key ≤ b.key := by
      rw [← List.pairwise_map] at hs ⊢
      rwa [hkeys]
    obtain ⟨st', hok, hkeys', hcap'⟩ := ih ((st.1.searchItem (clock st.2) b).2, st.2 + 1) hs'
    simp only [hkeys] at hok hkeys'
    refine ⟨st', ?_, hkeys', hcap'.trans hcap⟩
    simp only [searchBlocks, hok, List.map_cons, hfound]

/-- The cache of a run: it keeps to its capacity, and holds blocks that were inserted. -/
structure Inserts (cap : ℕ) (ins : Checksum → Prop) (st : LruCache.State) : Prop where
  capacity : st.1.capacity.toNat = cap
  length : st.1.cache.length ≤ cap
  inserted : ∀ k ∈ st.1.cache.map LruCacheEntry.key, ins k

/-- **A parent's segment is inserted**: its blocks are in the cache, and nothing else that
was not there before. -/
theorem addItems_keys (entSo : Sorter LruCacheEntry.key) (timeSo : Sorter LruCacheEntry.age)
    (tv : Timeval) {seg : Segment} (hcap : cap < 2 ^ 31) (h : Inserts cap ins st)
    (hfits : seg.blocklist.length ≤ cap) :
    ∃ c, LruCache.addItems entSo timeSo st.1 tv seg = .ok c ∧
      Inserts cap (fun k => ins k ∨ k ∈ seg.blocklist.map Block.cksum) (c, st.2 + 1) ∧
      (c.cache.Pairwise fun a b => a.key ≤ b.key) ∧
      ∀ k ∈ seg.blocklist.map Block.cksum, k ∈ c.cache.map LruCacheEntry.key := by
  have hcapacity := h.capacity
  have hlen := h.length
  obtain ⟨c, hok, hholds⟩ := addItems_ok entSo timeSo tv (c := st.1) seg (by omega) (by omega)
    (by omega)
  refine ⟨c, hok, ⟨?_, ?_, ?_⟩, hholds.sorted, ?_⟩
  · rw [hholds.capacity, hcapacity]
  · rw [← hcapacity]
    exact hholds.length
  · intro k hk
    obtain ⟨ent, hent, rfl⟩ := List.mem_map.1 hk
    rcases hholds.mem ent hent with hold | ⟨blk, hblk, rfl⟩
    · exact .inl (h.inserted _ (List.mem_map_of_mem hold))
    · exact .inr (List.mem_map_of_mem hblk)
  · intro k hk
    obtain ⟨blk, hblk, rfl⟩ := List.mem_map.1 hk
    exact List.mem_map.2 ⟨_, hholds.added blk hblk, rfl⟩

/-! ## Levels 1 and 2 -/

/-- Levels 1 and 2 agree on a block, but for a flag of level 2 if it was inserted. -/
def Leveled (ins : Checksum → Prop) (b b' : Block) : Prop :=
  b.Marked ∧ (b' = b ∨ b.fileId = 0 ∧ b' = { b with fileId := inDirtySeg } ∧ ins b.cksum)

theorem Leveled.mono (h : Leveled ins b b') (hins : ∀ k, ins k → ins' k) : Leveled ins' b b' :=
  ⟨h.1, h.2.imp_right fun ⟨h0, hb, hk⟩ => ⟨h0, hb, hins _ hk⟩⟩

/-- Neither program finds a parent's segment that equals the current one, or holds its
blocks. -/
theorem leveled_alone (ins : Checksum → Prop) (s : List Block) :
    List.Forall₂ (Leveled ins) (s.map fun b => { b with fileId := 0 })
      (s.map fun b => { b with fileId := 0 }) := by
  rw [List.forall₂_same]
  intro b hb
  obtain ⟨a, -, rfl⟩ := List.mem_map.1 hb
  exact ⟨.inl rfl, .inl rfl⟩

theorem parentLevels_false (s : List Block) (parent : Segment) :
    (parentLevels false (Segment.ofBlocks sha1 s) parent).blocklist =
      s.map fun b => { b with fileId := 0 } := by
  simp only [parentLevels, Segment.mapBlocks, Bool.false_eq_true, false_and, if_false,
    Segment.ofBlocks_blocklist]

/-- The parent has no more segments. -/
theorem parentLevels_nil (hne : sha1 (cksumBytes s) ≠ sha1 []) :
    (parentLevels true (Segment.ofBlocks sha1 s) (Segment.ofBlocks sha1 [])).blocklist =
      s.map fun b => { b with fileId := 0 } := by
  have hdiff : ¬ (Segment.ofBlocks sha1 s).cksum = (Segment.ofBlocks sha1 []).cksum := by
    rw [Segment.ofBlocks_cksum, Segment.ofBlocks_cksum]
    exact hne
  have hsearch : ∀ b, ¬ (Segment.ofBlocks sha1 []).searchBlock b = true := by
    intro b hb
    exact List.not_mem_nil (((parentOK_nil sha1).search b).1 hb)
  simp only [parentLevels, Segment.mapBlocks, hdiff, and_false, if_false, if_true,
    Segment.ofBlocks_blocklist, hsearch]
  simp only [Bool.false_eq_true, if_false, List.map_map]
  rfl

/-- **The parent's segment `p` is there.** -/
theorem parentLevelsLru_ok (so : Sorter Block.cksum) (sha1 : List UInt8 → Checksum)
    (entSo : Sorter LruCacheEntry.key) (timeSo : Sorter LruCacheEntry.age) (clock : Clock)
    (s p : List Block) (hcap : cap < 2 ^ 31) (h : Inserts cap ins st) (hfits : p.length ≤ cap) :
    ∃ st' current,
      parentLevelsLru entSo timeSo clock st true (Segment.ofBlocks sha1 s)
          ((Segment.ofBlocks sha1 p).sortByHash so) = .ok (st', current) ∧
        Inserts cap (fun k => ins k ∨
          sha1 (cksumBytes s) ≠ sha1 (cksumBytes p) ∧ k ∈ p.map Block.cksum) st' ∧
        List.Forall₂
          (Leveled fun k => ins k ∨
            sha1 (cksumBytes s) ≠ sha1 (cksumBytes p) ∧ k ∈ p.map Block.cksum)
          (parentLevels true (Segment.ofBlocks sha1 s)
            ((Segment.ofBlocks sha1 p).sortByHash so)).blocklist current.blocklist := by
  have hp := parentOK_sorted so sha1 p
  have hperm : ((Segment.ofBlocks sha1 p).sortByHash so).blocklist.Perm p := by
    change (so.sort (Segment.ofBlocks sha1 p).blocklist).Perm p
    rw [Segment.ofBlocks_blocklist]
    exact so.perm p
  set parent := (Segment.ofBlocks sha1 p).sortByHash so
  have heq : (Segment.ofBlocks sha1 s).cksum = parent.cksum ↔
      sha1 (cksumBytes s) = sha1 (cksumBytes p) := by
    rw [hp.cksum, Segment.ofBlocks_cksum]
    rfl
  simp only [parentLevelsLru, parentLevels, Segment.mapBlocks, true_and, if_true, heq,
    Segment.ofBlocks_blocklist]
  by_cases hsame : sha1 (cksumBytes s) = sha1 (cksumBytes p)
  · -- level 1
    simp only [hsame, if_true]
    refine ⟨st, _, rfl, ⟨h.capacity, h.length, fun k hk => .inl (h.inserted k hk)⟩, ?_⟩
    rw [List.forall₂_same]
    intro b hb
    simp only [List.map_map, List.mem_map] at hb
    obtain ⟨a, -, rfl⟩ := hb
    exact ⟨.inr (.inl UInt32.zero_or), .inl rfl⟩
  · simp only [hsame, if_false, ne_eq, not_false_eq_true, true_and]
    obtain ⟨c, hok, hinserts, hsorted, hadded⟩ := addItems_keys entSo timeSo (clock st.2) hcap h
      (by rwa [hperm.length_eq])
    obtain ⟨st', hsearch, hkeys, hcapacity⟩ := searchBlocks_ok clock
      (s.map fun b => { b with fileId := 0 }) (c, st.2 + 1) hsorted
    have hmem : ∀ k, k ∈ parent.blocklist.map Block.cksum ↔ k ∈ p.map Block.cksum :=
      fun k => (hperm.map Block.cksum).mem_iff
    simp only [hmem] at hinserts hadded
    rw [hok]
    refine ⟨st', _, by simp only [bind, Except.bind, hsearch]; rfl, ⟨?_, ?_, ?_⟩, ?_⟩
    · rw [hcapacity]
      exact hinserts.capacity
    · have hlen := congrArg List.length hkeys
      rw [List.length_map, List.length_map] at hlen
      exact hlen.trans_le hinserts.length
    · rw [hkeys]
      exact hinserts.inserted
    · simp only [List.map_map, List.forall₂_map_left_iff, List.forall₂_map_right_iff]
      rw [List.forall₂_same]
      intro b _
      have hb := hp.search { b with fileId := 0 }
      simp only [Function.comp_apply]
      by_cases hin : b.cksum ∈ p.map Block.cksum
      · -- both programs find the block
        rw [if_pos (hb.2 hin), if_pos (hadded _ hin)]
        exact ⟨.inr (.inr UInt32.zero_or), .inl rfl⟩
      · rw [if_neg (fun h => hin (hb.1 h))]
        by_cases hc : b.cksum ∈ c.cache.map LruCacheEntry.key
        · rw [if_pos hc]
          exact ⟨.inl rfl, .inr ⟨rfl, by rw [UInt32.zero_or], hinserts.inserted _ hc⟩⟩
        · rw [if_neg hc]
          exact ⟨.inl rfl, .inl rfl⟩

/-! ## One round -/

/-- Both programs load the same segment of the parent. -/
theorem loadParents_some (so : Sorter Block.cksum) (sha1 : List UInt8 → Checksum) {is : List UInt8}
    (h31 : ∀ b ∈ Block.loader.readAll is, b.size.toNat < 2 ^ 31)
    (hne : (takeSegment 0 (Block.loader.readAll is)).1 ≠ []) :
    ∃ rest, Block.loader.readAll rest = (takeSegment 0 (Block.loader.readAll is)).2 ∧
      (∀ parent, loadParent so sha1 true parent is =
        ((Segment.ofBlocks sha1 (takeSegment 0 (Block.loader.readAll is)).1).sortByHash so, rest)) ∧
      ∀ parent, loadParentLru so sha1 true parent is =
        (true, (Segment.ofBlocks sha1 (takeSegment 0 (Block.loader.readAll is)).1).sortByHash so,
          rest) := by
  obtain ⟨hok, hseg, hrest⟩ := Segment.loadWith_eq Block.loader sha1 default is h31
  have hload : ∀ parent, Segment.loadSegment sha1 parent is =
      (true, Segment.ofBlocks sha1 (takeSegment 0 (Block.loader.readAll is)).1,
        (Segment.loadSegment sha1 default is).2.2) := by
    intro parent
    rw [Segment.loadSegment, Segment.loadWith_old Block.loader sha1 parent default, ← hseg,
      ← hok.2 hne]
  refine ⟨_, hrest, ?_, ?_⟩
  · intro parent
    unfold loadParent
    rw [if_pos rfl, hload]
    rfl
  · intro parent
    unfold loadParentLru
    rw [if_pos rfl, Segment.loadSegmentLru_eq sha1 parent h31, hload]
    rfl

/-- Neither does. -/
theorem loadParents_none (so : Sorter Block.cksum) (sha1 : List UInt8 → Checksum) {is : List UInt8}
    (h31 : ∀ b ∈ Block.loader.readAll is, b.size.toNat < 2 ^ 31)
    (hnil : (takeSegment 0 (Block.loader.readAll is)).1 = []) :
    ∃ rest, Block.loader.readAll rest = [] ∧
      (∀ parent, loadParent so sha1 true parent is = (Segment.ofBlocks sha1 [], rest)) ∧
      ∀ parent, loadParentLru so sha1 true parent is =
        (false, Segment.ofBlocks sha1 [], rest) := by
  obtain ⟨hok, hseg, hrest⟩ := Segment.loadWith_eq Block.loader sha1 default is h31
  rw [hnil] at hseg
  rw [takeSegment_nil 0 _ hnil] at hrest
  have hfalse : (Segment.loadWith Block.loader sha1 default is).1 = false := by
    rw [Bool.eq_false_iff]
    exact fun h => hok.1 h hnil
  have hload : ∀ parent, Segment.loadSegment sha1 parent is =
      (false, Segment.ofBlocks sha1 [], (Segment.loadSegment sha1 default is).2.2) := by
    intro parent
    rw [Segment.loadSegment, Segment.loadWith_old Block.loader sha1 parent default, ← hseg, ← hfalse]
  refine ⟨_, hrest, ?_, ?_⟩
  · intro parent
    unfold loadParent
    rw [if_pos rfl, hload]
    rfl
  · intro parent
    unfold loadParentLru
    rw [if_pos rfl, Segment.loadSegmentLru_eq sha1 parent h31, hload]
    rfl

/-- The parent in the two programs: the same in both, or at its end, where
`dedup_sim_lru` gives it up. -/
def SameParent (has has' : Bool) (is is' : List UInt8) : Prop :=
  has' = has ∧ is' = is ∨ has = true ∧ has' = false ∧ Block.loader.readAll is = []

/-- What is in the cache after a round: of the parent's segments that are left, the first
is inserted unless it equals the current one. -/
def InsertedNow (sha1 : List UInt8 → Checksum) (s : List Block) (parents : List (List Block))
    (ins : Checksum → Prop) (k : Checksum) : Prop :=
  ins k ∨ ∃ p, parents[0]? = some p ∧ sha1 (cksumBytes s) ≠ sha1 (cksumBytes p) ∧
    k ∈ p.map Block.cksum

/-- **One round**, of both programs. -/
theorem round_ok (so : Sorter Block.cksum) (sha1 : List UInt8 → Checksum)
    (entSo : Sorter LruCacheEntry.key) (timeSo : Sorter LruCacheEntry.age) (clock : Clock)
    (hcap : cap < 2 ^ 31) (h : Inserts cap ins st) (s : List Block) (parent parent' : Segment)
    {has has' : Bool} {is is' : List UInt8}
    (h31 : ∀ b ∈ Block.loader.readAll is, b.size.toNat < 2 ^ 31)
    (hsame : SameParent has has' is is')
    (hfits : ∀ p, (parentSegments has' is')[0]? = some p → p.length ≤ cap)
    (hhash : has = true → (parentSegments has' is')[0]? = none → sha1 (cksumBytes s) ≠ sha1 []) :
    ∃ has1 parent1 is1 st' current, loadParentLru so sha1 has' parent' is' = (has1, parent1, is1) ∧
      parentLevelsLru entSo timeSo clock st has1 (Segment.ofBlocks sha1 s) parent1 =
        .ok (st', current) ∧
      SameParent has has1 (loadParent so sha1 has parent is).2 is1 ∧
      (∀ i, (parentSegments has' is')[i + 1]? = (parentSegments has1 is1)[i]?) ∧
      Inserts cap (InsertedNow sha1 s (parentSegments has' is') ins) st' ∧
      List.Forall₂ (Leveled (InsertedNow sha1 s (parentSegments has' is') ins))
        (parentLevels has (Segment.ofBlocks sha1 s)
          (loadParent so sha1 has parent is).1).blocklist current.blocklist := by
  have hold : Inserts cap (InsertedNow sha1 s (parentSegments has' is') ins) st :=
    ⟨h.capacity, h.length, fun k hk => .inl (h.inserted k hk)⟩
  rcases hsame with ⟨rfl, rfl⟩ | ⟨rfl, rfl, hend⟩
  · rcases has' with - | -
    · -- there is no parent
      refine ⟨false, parent', is', st, _, rfl, rfl, .inl ⟨rfl, rfl⟩, fun i => rfl, hold, ?_⟩
      rw [parentLevels_false, Segment.mapBlocks, Segment.ofBlocks_blocklist]
      exact leveled_alone _ s
    · have h0 : (parentSegments true is')[0]? =
          if (takeSegment 0 (Block.loader.readAll is')).1 = [] then none
          else some (takeSegment 0 (Block.loader.readAll is')).1 := segmentsOf_head _
      have htail : ∀ i, (parentSegments true is')[i + 1]? =
          (segmentsOf (takeSegment 0 (Block.loader.readAll is')).2)[i]? := segmentsOf_tail _
      by_cases hnil : (takeSegment 0 (Block.loader.readAll is')).1 = []
      · -- it ends here
        rw [if_pos hnil] at h0
        obtain ⟨rest, hrest, hsim, hlru⟩ := loadParents_none so sha1 h31 hnil
        refine ⟨false, Segment.ofBlocks sha1 [], rest, st, _, hlru parent', rfl,
          .inr ⟨rfl, rfl, ?_⟩, ?_, hold, ?_⟩
        · rw [hsim]
          exact hrest
        · intro i
          rw [htail, takeSegment_nil 0 _ hnil, segmentsOf]
          rfl
        · rw [hsim, parentLevels_nil (hhash rfl h0), Segment.mapBlocks, Segment.ofBlocks_blocklist]
          exact leveled_alone _ s
      · rw [if_neg hnil] at h0
        obtain ⟨rest, hrest, hsim, hlru⟩ := loadParents_some so sha1 h31 hnil
        obtain ⟨st', current, hok, hins, hleveled⟩ := parentLevelsLru_ok so sha1 entSo timeSo clock s
          _ hcap h (hfits _ h0)
        have hnow : ∀ k, (ins k ∨
            sha1 (cksumBytes s) ≠
                sha1 (cksumBytes (takeSegment 0 (Block.loader.readAll is')).1) ∧
              k ∈ (takeSegment 0 (Block.loader.readAll is')).1.map Block.cksum) →
            InsertedNow sha1 s (parentSegments true is') ins k :=
          fun k hk => hk.imp_right fun hk => ⟨_, h0, hk⟩
        refine ⟨true, _, rest, st', current, hlru parent', hok, .inl ⟨rfl, ?_⟩, ?_,
          ⟨hins.capacity, hins.length, fun k hk => hnow k (hins.inserted k hk)⟩, ?_⟩
        · rw [hsim]
        · intro i
          rw [htail, parentSegments, if_pos rfl, hrest]
        · rw [hsim]
          exact hleveled.imp fun _ _ hb => hb.mono hnow
  · -- it has ended before
    have hnil : (takeSegment 0 (Block.loader.readAll is)).1 = [] := by
      rw [hend]
      rfl
    obtain ⟨rest, hrest, hsim, -⟩ := loadParents_none so sha1 h31 hnil
    refine ⟨false, parent', is', st, _, rfl, rfl, .inr ⟨rfl, rfl, ?_⟩, fun i => rfl, hold, ?_⟩
    · rw [hsim]
      exact hrest
    · rw [hsim, parentLevels_nil (hhash rfl rfl), Segment.mapBlocks, Segment.ofBlocks_blocklist]
      exact leveled_alone _ s

/-! ## The output -/

/-- What the two programs write of one record: `inserted` are the checksums of the parent's
segments that were inserted into the cache. -/
structure Dominated (inserted : Checksum → Prop) (b b' : Block) : Prop where
  copied : b'.copied = b.copied
  level1 : b'.fileId &&& inDirtySeg = inParent ↔ b.fileId &&& inDirtySeg = inParent
  level2 : b.fileId &&& inDirtySeg = inDirtySeg → b'.fileId &&& inDirtySeg = inDirtySeg
  level3 : b'.fileId &&& inCds = b.fileId &&& inCds
  extra : b'.fileId &&& inDirtySeg = inDirtySeg → b.fileId &&& inDirtySeg ≠ inDirtySeg →
    inserted b.cksum

theorem Dominated.mono {inserted inserted' : Checksum → Prop} (h : Dominated inserted b b')
    (himp : ∀ k, inserted k → inserted' k) : Dominated inserted' b b' :=
  { h with extra := fun h1 h2 => himp _ (h.extra h1 h2) }

/-- **Level 3 keeps the relation.** -/
theorem Leveled.dominated (cds : List Block) (h : Leveled ins b b') :
    Dominated ins (cdsLevel cds b) (cdsLevel cds b') := by
  obtain ⟨-, rfl | ⟨h0, rfl, hk⟩⟩ := h
  · exact ⟨rfl, Iff.rfl, fun h => h, rfl, fun h1 h2 => absurd h1 h2⟩
  · have hbits : ∀ c : UInt32, c = inCds ∨ c = 0 →
        (¬ (inDirtySeg ||| c) &&& inDirtySeg = inParent) ∧
          (¬ (0 ||| c) &&& inDirtySeg = inParent) ∧
          (inDirtySeg ||| c) &&& inCds = (0 ||| c) &&& inCds ∧
          ¬ (0 ||| c) &&& inDirtySeg = inDirtySeg := by
      rintro c (rfl | rfl) <;> decide
    have hc : (if binarySearch Block.cksum cds b then inCds else 0) = inCds ∨
        (if binarySearch Block.cksum cds b then inCds else 0) = 0 := by
      split
      · exact .inl rfl
      · exact .inr rfl
    obtain ⟨h1, h2, h3, h4⟩ := hbits _ hc
    rw [cdsLevel_eq, cdsLevel_eq, h0]
    exact ⟨rfl, iff_of_false h1 h2, fun h => absurd h h4, h3, fun _ _ => hk⟩

/-- The guard against an empty CDS changes nothing. -/
theorem cdsLevel_guard (cds : List Block) :
    (fun b : Block =>
      if !cds.isEmpty && binarySearch Block.cksum cds b then { b with fileId := b.fileId ||| inCds }
      else b) = cdsLevel cds := by
  funext b
  unfold cdsLevel
  rcases cds with - | ⟨c, cds⟩
  · unfold binarySearch
    rfl
  · rfl

theorem simLruLoop_unfold {has : Bool} {parent seg : Segment} {is is' : List UInt8} :
    simLruLoop so sha1 entSo timeSo clock cds has seg parent st is is' =
      if (Segment.loadSegmentLru sha1 seg is).1 then do
        let next := loadParentLru so sha1 has parent is'
        let (st, current) ← parentLevelsLru entSo timeSo clock st next.1
          (Segment.loadSegmentLru sha1 seg is).2.1 next.2.1
        let output ← simLruLoop so sha1 entSo timeSo clock cds next.1
          (current.mapBlocks (cdsLevel cds)) next.2.1 st (Segment.loadSegmentLru sha1 seg is).2.2
          next.2.2
        return (current.mapBlocks (cdsLevel cds)).blocklist.flatMap Block.save ++ output
      else .ok [] := by
  rw [simLruLoop]
  split
  · rename_i hl
    rw [hl]
    rfl
  · rename_i hl
    rw [hl, ← cdsLevel_guard]
    rfl

/-- The checksums of the parent's segments that are inserted into the cache up to round
`i`: those of segments that do not equal the snapshot's of the same number. -/
def Inserted (sha1 : List UInt8 → Checksum) (segs parents : List (List Block)) (i : ℕ)
    (k : Checksum) : Prop :=
  ∃ j ≤ i, ∃ s p, segs[j]? = some s ∧ parents[j]? = some p ∧
    sha1 (cksumBytes s) ≠ sha1 (cksumBytes p) ∧ k ∈ p.map Block.cksum

theorem insertedNow_zero {s : List Block} {segs parents : List (List Block)} {k : Checksum}
    (h : InsertedNow sha1 s parents ins k) : ins k ∨ Inserted sha1 (s :: segs) parents 0 k :=
  h.imp_right fun ⟨p, hp, hne, hk⟩ => ⟨0, le_rfl, s, p, rfl, hp, hne, hk⟩

theorem insertedNow_succ {s : List Block} {segs parents parents' : List (List Block)} {i : ℕ}
    {k : Checksum} (hnext : ∀ j : ℕ, parents[j + 1]? = parents'[j]?)
    (h : InsertedNow sha1 s parents ins k ∨ Inserted sha1 segs parents' i k) :
    ins k ∨ Inserted sha1 (s :: segs) parents (i + 1) k := by
  rcases h with (h | ⟨p, hp, hne, hk⟩) | ⟨j, hj, t, p, ht, hp, hne, hk⟩
  · exact .inl h
  · exact .inr ⟨0, Nat.zero_le _, s, p, rfl, hp, hne, hk⟩
  · rw [← hnext] at hp
    exact .inr ⟨j + 1, Nat.succ_le_succ hj, t, p, ht, hp, hne, hk⟩

/-- The outputs of the two programs, segment by segment. -/
structure Outputs (inserted : ℕ → Checksum → Prop) (segs outs outs' : List (List Block)) :
    Prop where
  length : outs.length = segs.length
  length' : outs'.length = segs.length
  records : ∀ (i : ℕ) (s o o' : List Block), segs[i]? = some s → outs[i]? = some o →
    outs'[i]? = some o' →
      o.map Block.copied = s.map Block.copied ∧ List.Forall₂ (Dominated (inserted i)) o o'

theorem Outputs.cons {inserted : ℕ → Checksum → Prop} {segs outs outs' : List (List Block)}
    {o o' : List Block} (hcopied : o.map Block.copied = s.map Block.copied)
    (h0 : List.Forall₂ (Dominated (inserted 0)) o o')
    (h : Outputs (fun i => inserted (i + 1)) segs outs outs') :
    Outputs inserted (s :: segs) (o :: outs) (o' :: outs') := by
  refine ⟨congrArg (· + 1) h.length, congrArg (· + 1) h.length', ?_⟩
  intro i
  rcases i with - | i
  · intro t a a' hs ha ha'
    cases hs
    cases ha
    cases ha'
    exact ⟨hcopied, h0⟩
  · exact h.records i

theorem Outputs.mono {inserted inserted' : ℕ → Checksum → Prop}
    {segs outs outs' : List (List Block)} (h : Outputs inserted segs outs outs')
    (himp : ∀ i k, inserted i k → inserted' i k) : Outputs inserted' segs outs outs' := by
  refine ⟨h.length, h.length', ?_⟩
  intro i s o o' hs ho ho'
  obtain ⟨hcopied, hall⟩ := h.records i s o o' hs ho ho'
  exact ⟨hcopied, hall.imp fun _ _ hb => hb.mono (himp i)⟩

theorem parentLevels_copied (hasParent : Bool) (current parent : Segment) :
    (parentLevels hasParent current parent).blocklist.map Block.copied =
      current.blocklist.map Block.copied := by
  unfold parentLevels Segment.mapBlocks
  simp only
  split
  · simp only [List.map_map]
    rfl
  · split
    · simp only [List.map_map]
      apply List.map_congr_left
      intro a _
      simp only [Function.comp_apply]
      split <;> rfl
    · simp only [List.map_map]
      rfl

theorem cdsLevel_copied (cds : List Block) (b : Block) : (cdsLevel cds b).copied = b.copied := by
  unfold cdsLevel
  split <;> rfl

/-- What is left of the parent after a round was in it before. -/
theorem mem_of_next {α : Type} {l l' : List α} (h : ∀ i : ℕ, l[i + 1]? = l'[i]?) {p : α}
    (hp : p ∈ l') : p ∈ l := by
  obtain ⟨i, hi⟩ := List.getElem?_of_mem hp
  rw [← h] at hi
  exact List.mem_of_getElem? hi

theorem loadParent_sizes (so : Sorter Block.cksum) (has : Bool) (parent : Segment) {is : List UInt8}
    (h31 : ∀ b ∈ Block.loader.readAll is, b.size.toNat < 2 ^ 31) :
    ∀ b ∈ Block.loader.readAll (loadParent so sha1 has parent is).2, b.size.toNat < 2 ^ 31 := by
  rcases has with - | -
  · exact h31
  · rw [(loadParent_ok so sha1 parent is h31).2]
    exact fun b hb => h31 b ((takeSegment_mem 0 (Block.loader.readAll is)).2 b hb)

/-- **A run of both programs**, from a round on. -/
theorem simLruLoop_ok (so : Sorter Block.cksum) (sha1 : List UInt8 → Checksum)
    (entSo : Sorter LruCacheEntry.key) (timeSo : Sorter LruCacheEntry.age) (clock : Clock)
    (cds : List Block) (hcap : cap < 2 ^ 31) (is : List UInt8) :
    ∀ (seg seg' parent parent' : Segment) (st : LruCache.State) (has has' : Bool)
      (is1 is2 : List UInt8) (ins : Checksum → Prop),
      (∀ b ∈ Block.loader.readAll is, b.size.toNat < 2 ^ 31) →
      (∀ b ∈ Block.loader.readAll is1, b.size.toNat < 2 ^ 31) → SameParent has has' is1 is2 →
      (∀ p ∈ parentSegments has' is2, p.length ≤ cap) →
      (has = true → ∀ (i : ℕ) (s : List Block), (segmentsOf (Block.loader.readAll is))[i]? = some s →
        (parentSegments has' is2)[i]? = none → sha1 (cksumBytes s) ≠ sha1 []) →
      Inserts cap ins st →
      ∃ outs outs' : List (List Block),
        simLoop so sha1 cds has seg parent is is1 = outs.flatten.flatMap Block.save ∧
        simLruLoop so sha1 entSo timeSo clock cds has' seg' parent' st is is2 =
          .ok (outs'.flatten.flatMap Block.save) ∧
        Outputs (fun i k => ins k ∨ Inserted sha1 (segmentsOf (Block.loader.readAll is))
          (parentSegments has' is2) i k) (segmentsOf (Block.loader.readAll is)) outs outs' := by
  induction h : is.length using Nat.strong_induction_on generalizing is with
  | _ n ih =>
    subst h
    intro seg seg' parent parent' st has has' is1 is2 ins h31 h31' hsame hfits hhash hins
    have hold : Segment.loadSegmentLru sha1 seg' is = Segment.loadSegment sha1 seg is :=
      (Segment.loadSegmentLru_eq sha1 seg' h31).trans (Segment.loadWith_old _ _ _ _ _)
    rcases Segment.loadWith_cases Block.loader sha1 seg h31 with
      ⟨hend, hnil⟩ | ⟨s, rest, hl, hne, hsegs, h31r⟩
    · -- the snapshot is at its end
      have hend' : ¬ (Segment.loadSegment sha1 seg is).1 = true := (Bool.not_eq_true _).mpr hend
      rw [simLoop_unfold, simLruLoop_unfold, hold, if_neg hend', if_neg hend', hnil]
      exact ⟨[], [], rfl, rfl, rfl, rfl, fun i s o o' hs => by cases hs⟩
    · replace hl : Segment.loadSegment sha1 seg is = _ := hl
      replace hold := hold.trans hl
      rw [hsegs] at hhash ⊢
      obtain ⟨has1, parent1, is3, st1, current1, hparent, hlevels, hsame1, hnext, hins1, hall⟩ :=
        round_ok so sha1 entSo timeSo clock hcap hins s parent parent' h31' hsame
          (fun p hp => hfits p (List.mem_of_getElem? hp)) (fun h1 h2 => hhash h1 0 s rfl h2)
      have hfits1 : ∀ p ∈ parentSegments has1 is3, p.length ≤ cap :=
        fun p hp => hfits p (mem_of_next hnext hp)
      have hhash1 : has = true → ∀ (i : ℕ) (t : List Block),
          (segmentsOf (Block.loader.readAll rest))[i]? = some t →
          (parentSegments has1 is3)[i]? = none → sha1 (cksumBytes t) ≠ sha1 [] := by
        intro h1 i t ht hp
        rw [← hnext] at hp
        exact hhash h1 (i + 1) t ht hp
      obtain ⟨outs, outs', hsim, hlru, houts⟩ := ih _ (Segment.loadWith_lt hl) rest rfl
        ((parentLevels has (Segment.ofBlocks sha1 s)
          (loadParent so sha1 has parent is1).1).mapBlocks (cdsLevel cds))
        (current1.mapBlocks (cdsLevel cds)) (loadParent so sha1 has parent is1).1 parent1 st1 has has1
        _ is3 _ h31r (loadParent_sizes so has parent h31') hsame1 hfits1 hhash1 hins1
      refine ⟨((parentLevels has (Segment.ofBlocks sha1 s)
        (loadParent so sha1 has parent is1).1).mapBlocks (cdsLevel cds)).blocklist :: outs,
        (current1.mapBlocks (cdsLevel cds)).blocklist :: outs', ?_, ?_,
        Outputs.cons ?_ ?_ (houts.mono fun i k => insertedNow_succ hnext)⟩
      · rw [simLoop_unfold, hl, if_pos rfl, simSegment_levels, hsim, List.flatten_cons, List.flatMap_append]
      · rw [simLruLoop_unfold, hold, if_pos rfl, hparent]
        simp only [hlevels, bind, Except.bind]
        rw [hlru, List.flatten_cons, List.flatMap_append]
        rfl
      · have hmap : Block.copied ∘ cdsLevel cds = Block.copied := funext (cdsLevel_copied cds)
        unfold Segment.mapBlocks
        rw [List.map_map, hmap, parentLevels_copied, Segment.ofBlocks_blocklist]
      · simp only [Segment.mapBlocks, List.forall₂_map_left_iff, List.forall₂_map_right_iff]
        exact hall.imp fun _ _ hb => (hb.dominated cds).mono fun k => insertedNow_zero

/-- **`dedup_sim_lru` dominates `dedup_sim`**, when the cache has room for every segment of
the parent and the snapshot's segments after the parent's last do not have the SHA-1 of
nothing: the outputs have the same records and differ in flags of level 2 only, which are
on blocks of the parent's segments that were inserted into the cache. -/
theorem simLru_dominates (so : Sorter Block.cksum) (sha1 : List UInt8 → Checksum)
    (entSo : Sorter LruCacheEntry.key) (timeSo : Sorter LruCacheEntry.age) (clock : Clock)
    (size : Int32) (hsize : 0 ≤ size) (seg seg' : Segment) (snapshot cds : List Block)
    (parent : Option (List Block)) (h31 : ∀ b ∈ snapshot, b.size.toNat < 2 ^ 31)
    (hp31 : ∀ p, parent = some p → ∀ b ∈ p, b.size.toNat < 2 ^ 31)
    (hfits : ∀ p, parent = some p → ∀ s ∈ segmentsOf p, (s.length : ℤ) ≤ size.toInt)
    (hhash : ∀ p, parent = some p → ∀ (i : ℕ) (s : List Block), (segmentsOf snapshot)[i]? = some s →
      (segmentsOf p).length ≤ i → sha1 (cksumBytes s) = sha1 [] → cksumBytes s = []) :
    ∃ outs outs' : List (List Block),
      dedupSim so sha1 seg seg' (snapshot.flatMap Block.toStream) (cds.flatMap Block.toStream)
          (parent.map fun p => p.flatMap Block.toStream) = outs.flatten.flatMap Block.toStream ∧
        simLru so sha1 entSo timeSo clock size seg seg' (snapshot.flatMap Block.toStream)
          (cds.flatMap Block.toStream) (parent.map fun p => p.flatMap Block.toStream) =
          .ok (outs'.flatten.flatMap Block.toStream) ∧
        Outputs (Inserted sha1 (segmentsOf snapshot) ((parent.map segmentsOf).getD []))
          (segmentsOf snapshot) outs outs' := by
  obtain ⟨hcap, hcap31⟩ := LruCache.capacity_toNat hsize
  have hsnap := (readAll_records snapshot).2
  have hinput : Block.loader.readAll ((parent.map fun p => p.flatMap Block.toStream).getD []) =
      parent.getD [] := by
    rcases parent with - | p
    · exact (readAll_records []).2
    · exact (readAll_records p).2
  have hparents : parentSegments (parent.map fun p => p.flatMap Block.toStream).isSome
      ((parent.map fun p => p.flatMap Block.toStream).getD []) =
        (parent.map segmentsOf).getD [] := by
    unfold parentSegments
    rw [hinput]
    rcases parent with - | p <;> rfl
  have hp31' : ∀ b ∈ parent.getD [], b.size.toNat < 2 ^ 31 := by
    rcases parent with - | p
    · exact fun b hb => absurd hb List.not_mem_nil
    · exact hp31 p rfl
  have hfits' : ∀ s ∈ (parent.map segmentsOf).getD [],
      s.length ≤ (LruCache.new size).capacity.toNat := by
    rcases parent with - | p
    · exact fun s hs => absurd hs List.not_mem_nil
    · intro s hs
      have := hfits p rfl s hs
      omega
  have hhash' : (parent.map fun p => p.flatMap Block.toStream).isSome = true →
      ∀ (i : ℕ) (s : List Block), (segmentsOf snapshot)[i]? = some s →
        ((parent.map segmentsOf).getD [])[i]? = none → sha1 (cksumBytes s) ≠ sha1 [] := by
    rcases parent with - | p
    · exact fun h => absurd h Bool.false_ne_true
    · intro _ i s hs hnone heq
      have hnil := hhash p rfl i s hs (List.getElem?_eq_none_iff.1 hnone) heq
      have hmap : s.map Block.cksum = [].map Block.cksum := cksumBytes_eq_iff.1 hnil
      exact segmentsOf_ne_nil snapshot s (List.mem_of_getElem? hs) (List.map_eq_nil_iff.1 hmap)
  obtain ⟨outs, outs', hsim, hlru, houts⟩ := simLruLoop_ok so sha1 entSo timeSo clock
    (Block.loader.readAll (cds.flatMap Block.toStream)) hcap31 (snapshot.flatMap Block.toStream) seg
    seg seg' seg' (LruCache.new size, 0) _ _ _ _ (fun _ => False) (by rwa [hsnap])
    (by rwa [hinput]) (.inl ⟨rfl, rfl⟩) (by rwa [hparents]) (by rwa [hparents, hsnap])
    ⟨rfl, Nat.zero_le _, fun _ h => absurd h List.not_mem_nil⟩
  rw [hparents, hsnap] at houts
  exact ⟨outs, outs', hsim, hlru, houts.mono fun i k h => h.resolve_left id⟩

/-- The newer version against the older. -/
theorem simLru_dominates_pairs :
    ∃ outs outs' : List (List Block),
      dedupSim (.merge Block.cksum) pairsDigest default default
          (newerLog.flatMap Block.toStream) ([⟨2, 0, 0, pairsDigest [8, 8]⟩].flatMap Block.toStream)
          ((some olderLog).map fun p => p.flatMap Block.toStream) =
          outs.flatten.flatMap Block.toStream ∧
        simLru (.merge Block.cksum) pairsDigest (.merge LruCacheEntry.key)
          (.merge LruCacheEntry.age) (fun n => ⟨n, 0⟩) 3 default default
          (newerLog.flatMap Block.toStream) ([⟨2, 0, 0, pairsDigest [8, 8]⟩].flatMap Block.toStream)
          ((some olderLog).map fun p => p.flatMap Block.toStream) =
          .ok (outs'.flatten.flatMap Block.toStream) ∧
        Outputs (Inserted pairsDigest (segmentsOf newerLog)
          (((some olderLog).map segmentsOf).getD [])) (segmentsOf newerLog) outs outs' := by
  refine simLru_dominates (.merge Block.cksum) pairsDigest (.merge LruCacheEntry.key)
    (.merge LruCacheEntry.age) (fun n => ⟨n, 0⟩) 3 (by decide) default default newerLog
    [⟨2, 0, 0, pairsDigest [8, 8]⟩] (some olderLog) (by decide) ?_ ?_ ?_
  · rintro p ⟨⟩
    decide
  · rintro p ⟨⟩
    rw [pairs_segments.1]
    decide
  · rintro p ⟨⟩ i s hs hle
    rw [pairs_segments.1] at hle
    rw [pairs_segments.2, List.getElem?_eq_none (show [newerLog].length ≤ i from hle)] at hs
    cases hs

end DedupSim
