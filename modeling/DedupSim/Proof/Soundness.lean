import DedupSim.Proof.CdsLru
import DedupSim.Proof.SimLru
import DedupSim.Proof.Versions

/-!
# What the simulators flag

* `Flags`: a level copies a block, and flags only blocks that are stored; `cacheLevels_flags`,
  `parentLevelsLru_flags`: the levels that have a cache do, whatever its capacity is.
* `Sound`: what a run flags is in the CDS or in its parent; `dedupSim_sound`, `cdsLru_sound`,
  `simLru_sound`: **every simulator's run is sound.**
-/

namespace DedupSim

variable {so : Sorter Block.cksum} {sha1 : List UInt8 → Checksum}
  {pq : PriorityQueue CacheItem.time} {entSo : Sorter LruCacheEntry.key}
  {timeSo : Sorter LruCacheEntry.age} {clock : Clock} {size : Int32} {seg old : Segment}
  {snapshot cds output is is' : List UInt8} {parent : Option (List UInt8)}
  {bs bs' : List Block} {b b' : Block} {k : Checksum} {K : Checksum → Prop}

/-! ## Levels -/

/-- What a level writes for a block: it copies the block, and flags only one that has been
flagged or of which `K`. -/
structure Flags (K : Checksum → Prop) (b b' : Block) : Prop where
  copied : b'.copied = b.copied
  found : b'.fileId ≠ 0 → b.fileId ≠ 0 ∨ K b.cksum

theorem Flags.refl (K : Checksum → Prop) (b : Block) : Flags K b b := ⟨rfl, .inl⟩

theorem Flags.trans {b'' : Block} (h : Flags K b b') (h' : Flags K b' b'') : Flags K b b'' := by
  have hk : b'.cksum = b.cksum := congrArg Prod.fst h.copied
  refine ⟨h'.copied.trans h.copied, fun hflag => ?_⟩
  rcases h'.found hflag with hb | hb
  · exact h.found hb
  · exact .inr (hk ▸ hb)

/-- The blocks are copied. -/
theorem Flags.map_copied (h : List.Forall₂ (Flags K) bs bs') :
    bs'.map Block.copied = bs.map Block.copied := by
  rw [eq_comm, ← List.forall₂_eq_eq_eq, List.forall₂_map_left_iff, List.forall₂_map_right_iff]
  exact h.imp fun _ _ hb => hb.copied.symm

/-- Level 3 without a cache. -/
theorem cdsLevel_flags {cds : List Block} (hcds : cds.Pairwise fun a b => a.cksum ≤ b.cksum)
    (hK : ∀ k ∈ cds.map Block.cksum, K k) (b : Block) : Flags K b (cdsLevel cds b) := by
  refine ⟨cdsLevel_copied cds b, fun hflag => ?_⟩
  unfold cdsLevel at hflag
  split at hflag
  · rename_i hmem
    exact .inr (hK _ ((mem_cds hcds b).1 hmem))
  · exact .inl hflag

/-- It takes no flag away. -/
theorem cdsLevel_ne_zero (cds : List Block) (h : b.Marked) (hflag : b.fileId ≠ 0) :
    (cdsLevel cds b).fileId ≠ 0 := by
  have hbits : ∀ f : UInt32, f = 0 ∨ f = inParent ∨ f = inDirtySeg → f ≠ 0 → f ||| inCds ≠ 0 := by
    rintro f (rfl | rfl | rfl) <;> decide
  unfold cdsLevel
  split
  · exact hbits b.fileId h hflag
  · exact hflag

section CdsCache

variable {cds : List Block} {st st' : CdsLruCache.State}

/-- **Level 3 with a cache** of blocks of the CDS, on one block. -/
theorem cacheLevel_flags (hcds : cds.Pairwise fun a b => a.cksum ≤ b.cksum) (hin : InCds cds st.1)
    (h : cacheLevel pq clock cds st b = .ok (st', b')) :
    InCds cds st'.1 ∧ Flags (· ∈ cds.map Block.cksum) b b' := by
  rcases cacheLevel_cases hcds h with ⟨hk, rfl, rfl⟩ | ⟨-, hb, hadd, -, rfl⟩ | ⟨-, -, rfl, rfl⟩
  · exact ⟨inCds_setTime hin _ b (hin _ hk), rfl, fun _ => .inr (hin _ hk)⟩
  · have hset := inCds_setTime hin (clock st.2) { b with fileId := b.fileId ||| inCds } hb
    exact ⟨fun k hk => hset k (CdsLruCache.addItem_keySet hadd hk), rfl, fun _ => .inr hb⟩
  · exact ⟨hin, .refl _ _⟩

/-- **The blocks of a run.** -/
theorem cacheLevels_flags (hcds : cds.Pairwise fun a b => a.cksum ≤ b.cksum) (bs : List Block) :
    ∀ {st : CdsLruCache.State} {bs' : List Block}, InCds cds st.1 →
      cacheLevels pq clock cds st bs = .ok (st', bs') →
      InCds cds st'.1 ∧ List.Forall₂ (Flags (· ∈ cds.map Block.cksum)) bs bs' := by
  induction bs with
  | nil =>
    intro st bs' hin h
    cases h
    exact ⟨hin, .nil⟩
  | cons b bs ih =>
    intro st bs' hin h
    obtain ⟨st1, b1, bs1, hlevel, hlevels, rfl⟩ := cacheLevels_cons h
    obtain ⟨hin1, hb⟩ := cacheLevel_flags hcds hin hlevel
    obtain ⟨hin', hbs⟩ := ih hin1 hlevels
    exact ⟨hin', .cons hb hbs⟩

end CdsCache

section ParentCache

variable {st st' : LruCache.State}

/-- A cache that holds blocks of which `K`. -/
def Caches (K : Checksum → Prop) (st : LruCache.State) : Prop :=
  ∀ k ∈ st.1.cache.map LruCacheEntry.key, K k

/-- **The searches of level 2.** -/
theorem searchBlocks_flags (clock : Clock) (bs : List Block) : ∀ {st : LruCache.State}, Caches K st →
    Caches K (searchBlocks clock st bs).1 ∧
      List.Forall₂ (Flags K) bs (searchBlocks clock st bs).2 := by
  induction bs with
  | nil => exact fun h => ⟨h, .nil⟩
  | cons b bs ih =>
    intro st h
    obtain ⟨hkeys, -, hfound⟩ := LruCache.searchItem_keys st.1 (clock st.2) b
    have hnext : Caches K ((st.1.searchItem (clock st.2) b).2, st.2 + 1) := by
      unfold Caches
      rwa [hkeys]
    obtain ⟨hcaches, hbs⟩ := ih hnext
    refine ⟨hcaches, .cons (b := if (st.1.searchItem (clock st.2) b).1 then
      { b with fileId := b.fileId ||| inDirtySeg } else b) ?_ hbs⟩
    rcases hit : (st.1.searchItem (clock st.2) b).1 with - | -
    · exact .refl K b
    · exact ⟨rfl, fun _ => .inr (h _ (hfound hit))⟩

/-- **Levels 1 and 2 with a cache**, on a segment: they flag blocks of a parent's segment that
equals it, or of the cache, into which only the parent's blocks come. -/
theorem parentLevelsLru_flags {has : Bool} {current current' p : Segment} (h : Caches K st)
    (hsame : has = true → current.cksum = p.cksum → ∀ b ∈ current.blocklist, K b.cksum)
    (hparent : has = true → ∀ b ∈ p.blocklist, K b.cksum)
    (hlevels : parentLevelsLru entSo timeSo clock st has current p = .ok (st', current')) :
    Caches K st' ∧ List.Forall₂ (Flags K) (current.blocklist.map fun b => { b with fileId := 0 })
      current'.blocklist := by
  unfold parentLevelsLru at hlevels
  simp only at hlevels
  split at hlevels
  · rename_i heq
    cases hlevels
    refine ⟨h, ?_⟩
    simp only [Segment.mapBlocks, List.map_map, List.forall₂_map_left_iff,
      List.forall₂_map_right_iff]
    rw [List.forall₂_same]
    exact fun b hb => ⟨rfl, fun _ => .inr (hsame heq.1 heq.2 b hb)⟩
  · split at hlevels
    · rename_i hhas
      obtain ⟨c, hadd, hok⟩ := bind_eq_ok.1 hlevels
      cases hok
      refine searchBlocks_flags clock _ ?_
      intro k hk
      obtain ⟨ent, hent, rfl⟩ := List.mem_map.1 hk
      rcases LruCache.addItems_mem hadd ent hent with hmem | ⟨blk, hblk, rfl⟩
      · exact h _ (List.mem_map_of_mem hmem)
      · exact hparent hhas blk hblk
    · cases hlevels
      refine ⟨h, ?_⟩
      rw [Segment.mapBlocks, List.forall₂_same]
      exact fun b _ => .refl K b

end ParentCache

/-! ## Sound runs -/

/-- The checksums of a log's blocks. -/
def checksums (is : List UInt8) : List Checksum :=
  ((Block.loader.readAll is).filter fun b => b.size ≠ 0).map Block.cksum

/-- The checksums that are stored when a run starts. -/
def Known (cds : List UInt8) (parent : Option (List UInt8)) (k : Checksum) : Prop :=
  k ∈ (Block.loader.readAll cds).map Block.cksum ∨ ∃ p, parent = some p ∧ k ∈ checksums p

/-- A run copies the log, and flags only what is stored. -/
structure Sound (cds : List UInt8) (parent : Option (List UInt8)) (snapshot output : List UInt8) :
    Prop where
  same : SameLog output snapshot
  found : ∀ b ∈ Block.loader.readAll output, b.fileId ≠ 0 → Known cds parent b.cksum

theorem SameLog.checksums (h : SameLog is is') : checksums is = checksums is' := by
  have hmap := congrArg (List.map Block.cksum) h.alike
  unfold plainBlocks at hmap
  rwa [List.map_map, List.map_map] at hmap

theorem mem_checksums_segment {hasParent : Bool} {i : ℕ} {p : List Block}
    (h : (parentSegments hasParent is)[i]? = some p) (hk : k ∈ p.map Block.cksum) :
    hasParent = true ∧ k ∈ checksums is := by
  unfold parentSegments at h
  rcases hasParent with - | -
  · cases h
  · refine ⟨rfl, ?_⟩
    obtain ⟨b, hb, rfl⟩ := List.mem_map.1 hk
    rw [if_pos rfl] at h
    have hmem := List.mem_flatten.2 ⟨p, List.mem_of_getElem? h, hb⟩
    rw [segmentsOf_flatten] at hmem
    exact List.mem_map_of_mem hmem

theorem known_of_segment {i : ℕ} {p : List Block}
    (h : (parentSegments parent.isSome (parent.getD []))[i]? = some p)
    (hk : k ∈ p.map Block.cksum) : Known cds parent k := by
  obtain ⟨hsome, hmem⟩ := mem_checksums_segment h hk
  rcases parent with - | p
  · cases hsome
  · exact .inr ⟨p, rfl, hmem⟩

/-- SHA-1 tells the segments of a snapshot and its parent apart. -/
def Injective (sha1 : List UInt8 → Checksum) (parent : Option (List UInt8))
    (snapshot : List UInt8) : Prop :=
  ∀ p, parent = some p → SegmentsInjective sha1 (segmentsOf (Block.loader.readAll p))
    (segmentsOf (Block.loader.readAll snapshot))

theorem Injective.segments (h : Injective sha1 parent snapshot) (hsome : parent.isSome = true) :
    SegmentsInjective sha1 (parentSegments parent.isSome (parent.getD []))
      (segmentsOf (Block.loader.readAll snapshot)) := by
  rcases parent with - | p
  · cases hsome
  · exact h p rfl

theorem sized_getD (hp : ∀ p, parent = some p → Sized p) : Sized (parent.getD []) := by
  rcases parent with - | p
  · have hnil : Block.loader.readAll [] = [] := loader_readAll_save []
    change ∀ b ∈ Block.loader.readAll [], _
    rw [hnil]
    exact fun b hb => absurd hb List.not_mem_nil
  · exact hp p rfl

theorem dedupSim_found (so : Sorter Block.cksum) (seg old : Segment) (hs : Sized snapshot)
    (hp : ∀ p, parent = some p → Sized p)
    (hcds : (Block.loader.readAll cds).Pairwise fun a b => a.cksum ≤ b.cksum)
    (hinj : Injective sha1 parent snapshot) :
    ∀ b ∈ Block.loader.readAll (dedupSim so sha1 seg old snapshot cds parent),
      b.fileId ≠ 0 → Known cds parent b.cksum := by
  unfold dedupSim
  rw [simLoop_eq so sha1 hcds parent.isSome snapshot seg old (parent.getD []) hs (sized_getD hp)
    hinj.segments, loader_readAll_save]
  intro b hb hflag
  obtain ⟨t, ht, hbt⟩ := List.mem_flatten.1 hb
  unfold markSegments at ht
  obtain ⟨i, hi, rfl⟩ := List.mem_mapIdx.1 ht
  obtain ⟨a, ha, rfl⟩ := List.mem_map.1 hbt
  simp only at hflag ⊢
  by_cases hmem : a.cksum ∈ (Block.loader.readAll cds).map Block.cksum
  · exact .inl hmem
  rw [flagOf, if_neg hmem, UInt32.or_zero] at hflag
  -- it is not in the CDS, so level 1 or 2 has found it in the parent's segment
  rcases hpar : (parentSegments parent.isSome (parent.getD []))[i]? with - | p
  · rw [hpar] at hflag
    exact absurd rfl hflag
  refine known_of_segment hpar ?_
  rw [hpar] at hflag
  simp only [parentFlag] at hflag
  split at hflag
  · rename_i heq
    rw [heq]
    exact List.mem_map_of_mem ha
  · split at hflag
    · assumption
    · exact absurd rfl hflag

/-- **`dedup_sim` and `dedup_cds_sim`.** -/
theorem dedupSim_sound (so : Sorter Block.cksum) (seg old : Segment) (hs : Sized snapshot)
    (hp : ∀ p, parent = some p → Sized p)
    (hcds : (Block.loader.readAll cds).Pairwise fun a b => a.cksum ≤ b.cksum)
    (hinj : Injective sha1 parent snapshot) :
    Sound cds parent snapshot (dedupSim so sha1 seg old snapshot cds parent) where
  same := dedupSim_alike so sha1 seg old cds parent hs
  found := dedupSim_found so seg old hs hp hcds hinj

/-! ## Runs with a cache of CDS blocks -/

theorem exists_of_forall₂ {α β : Type*} {R : α → β → Prop} {l : List α} {l' : List β}
    (h : List.Forall₂ R l l') : ∀ y ∈ l', ∃ x ∈ l, R x y := by
  induction h with
  | nil => exact fun y hy => absurd hy List.not_mem_nil
  | cons hxy _ ih =>
    intro y hy
    rcases List.mem_cons.1 hy with rfl | hy
    · exact ⟨_, .head _, hxy⟩
    · obtain ⟨x, hx, hR⟩ := ih y hy
      exact ⟨x, .tail _ hx, hR⟩

/-- What the first two levels flag is stored. -/
theorem marked_found (so : Sorter Block.cksum) (seg old : Segment) (hs : Sized snapshot)
    (hp : ∀ p, parent = some p → Sized p)
    (hcds : (Block.loader.readAll cds).Pairwise fun a b => a.cksum ≤ b.cksum)
    (hinj : Injective sha1 parent snapshot) :
    ∀ b ∈ marked so sha1 parent.isSome old (parent.getD []) (Segment.loadAll sha1 seg snapshot),
      b.fileId ≠ 0 → Known cds parent b.cksum := by
  intro b hb hflag
  have hmem : cdsLevel (Block.loader.readAll cds) b ∈
      Block.loader.readAll (dedupSim so sha1 seg old snapshot cds parent) := by
    rw [dedupSim_readAll]
    exact List.mem_map_of_mem hb
  have hfound := dedupSim_found so seg old hs hp hcds hinj _ hmem
    (cdsLevel_ne_zero _ ((marked_marked so sha1 _ _ _ _).1 b hb) hflag)
  rwa [cdsLevel_cksum] at hfound

/-- **`dedup_cds_lru`**, with a cache of any size, that an earlier run has saved or none. -/
theorem cdsLru_sound {oldCache : Option (List UInt8)} {newCache : List UInt8}
    (hold : ∀ is, oldCache = some is → SavedCache (Block.loader.readAll cds) is)
    (hs : Sized snapshot) (hp : ∀ p, parent = some p → Sized p)
    (hcds : (Block.loader.readAll cds).Pairwise fun a b => a.cksum ≤ b.cksum)
    (hinj : Injective sha1 parent snapshot)
    (h : cdsLru so sha1 pq clock size seg old oldCache snapshot cds parent =
      .ok (newCache, output)) :
    SavedCache (Block.loader.readAll cds) newCache ∧ Sound cds parent snapshot output := by
  rw [cdsLru_eq] at h
  set blocks := marked so sha1 parent.isSome old (parent.getD []) (Segment.loadAll sha1 seg snapshot)
    with hblocks
  rcases hlevels : cacheLevels pq clock (Block.loader.readAll cds) (firstState clock size oldCache)
      blocks with e | ⟨st, out⟩
  · rw [hlevels] at h
    cases h
  rw [hlevels] at h
  cases h
  obtain ⟨hin, hflags⟩ := cacheLevels_flags hcds blocks (inCds_firstState clock size hold) hlevels
  have hread : Block.loader.readAll (out.flatMap Block.save) = out := loader_readAll_save out
  have hcopied : (Block.loader.readAll (out.flatMap Block.save)).map Block.copied =
      ((Block.loader.readAll snapshot).filter fun b => b.size ≠ 0).map Block.copied := by
    have hlevel : Block.copied ∘ cdsLevel (Block.loader.readAll cds) = Block.copied :=
      funext (cdsLevel_copied _)
    rw [hread, Flags.map_copied hflags, ← dedupSim_copied so sha1 seg old cds parent hs,
      dedupSim_readAll, List.map_map, hlevel]
  refine ⟨savedCache_save hin, ⟨sized_of_copied hcopied hs, hs, alike_of_copied hcopied⟩, ?_⟩
  rw [hread]
  intro b' hb' hflag
  obtain ⟨b, hb, hbb'⟩ := exists_of_forall₂ hflags b' hb'
  have hk : b'.cksum = b.cksum := congrArg Prod.fst hbb'.copied
  rw [hk]
  rcases hbb'.found hflag with hb0 | hmem
  · exact marked_found so seg old hs hp hcds hinj b hb hb0
  · exact .inl hmem

/-! ## Runs with a cache of the parent's blocks -/

/-- The parent's segments that a run has not loaded yet. -/
theorem loadParentLru_cases (so : Sorter Block.cksum) (sha1 : List UInt8 → Checksum) (has : Bool)
    (parent : Segment) (hs : Sized is) :
    ∃ has1 parent1 rest, loadParentLru so sha1 has parent is = (has1, parent1, rest) ∧ Sized rest ∧
      (∀ i, (parentSegments has is)[i + 1]? = (parentSegments has1 rest)[i]?) ∧
      (has1 = true → ∃ p, (parentSegments has is)[0]? = some p ∧
        parent1 = (Segment.ofBlocks sha1 p).sortByHash so ∧ has = true) := by
  rcases has with - | -
  · exact ⟨false, parent, is, rfl, hs, fun i => rfl, fun h => absurd h Bool.false_ne_true⟩
  have h0 : (parentSegments true is)[0]? =
      if (takeSegment 0 (Block.loader.readAll is)).1 = [] then none
      else some (takeSegment 0 (Block.loader.readAll is)).1 := segmentsOf_head _
  have htail : ∀ i, (parentSegments true is)[i + 1]? =
      (segmentsOf (takeSegment 0 (Block.loader.readAll is)).2)[i]? := segmentsOf_tail _
  by_cases hnil : (takeSegment 0 (Block.loader.readAll is)).1 = []
  · obtain ⟨rest, hrest, -, hload⟩ := loadParents_none so sha1 hs hnil
    refine ⟨false, _, rest, hload parent, ?_, fun i => ?_, fun h => absurd h Bool.false_ne_true⟩
    · unfold Sized
      rw [hrest]
      exact fun b hb => absurd hb List.not_mem_nil
    · rw [htail, takeSegment_nil 0 _ hnil, segmentsOf]
      rfl
  · rw [if_neg hnil] at h0
    obtain ⟨rest, hrest, -, hload⟩ := loadParents_some so sha1 hs hnil
    refine ⟨true, _, rest, hload parent, ?_, fun i => ?_, fun _ => ⟨_, h0, rfl, rfl⟩⟩
    · unfold Sized
      rw [hrest]
      exact fun b hb => hs b ((takeSegment_mem 0 (Block.loader.readAll is)).2 b hb)
    · rw [htail, parentSegments, if_pos rfl, hrest]

/-- **A round**, against the parent's segment of the same number: its blocks come into the
cache. -/
theorem round_flags (so : Sorter Block.cksum) {has : Bool} {parents : List (List Block)}
    {s : List Block} {parent : Segment} {current : Segment} (hcaches : Caches K st)
    (hparents : ∀ p ∈ parents, ∀ k ∈ p.map Block.cksum, K k)
    (hloaded : has = true → ∃ p, parents[0]? = some p ∧
      parent = (Segment.ofBlocks sha1 p).sortByHash so ∧
      (sha1 (cksumBytes s) = sha1 (cksumBytes p) → cksumBytes s = cksumBytes p))
    (hlevels : parentLevelsLru entSo timeSo clock st has (Segment.ofBlocks sha1 s) parent =
      .ok (st', current)) :
    Caches K st' ∧
      List.Forall₂ (Flags K) (s.map fun b => { b with fileId := 0 }) current.blocklist := by
  have hflags := parentLevelsLru_flags (K := K) hcaches ?_ ?_ hlevels
  · rwa [Segment.ofBlocks_blocklist] at hflags
  · intro hhas heq b hb
    obtain ⟨p, hp, rfl, hbytes⟩ := hloaded hhas
    rw [(parentOK_sorted so sha1 p).cksum, Segment.ofBlocks_cksum] at heq
    rw [Segment.ofBlocks_blocklist] at hb
    have hmap := cksumBytes_eq_iff.1 (hbytes heq)
    exact hparents p (List.mem_of_getElem? hp) _ (hmap ▸ List.mem_map_of_mem hb)
  · intro hhas b hb
    obtain ⟨p, hp, rfl, -⟩ := hloaded hhas
    have hperm : ((Segment.ofBlocks sha1 p).sortByHash so).blocklist.Perm p := by
      change (so.sort (Segment.ofBlocks sha1 p).blocklist).Perm p
      rw [Segment.ofBlocks_blocklist]
      exact so.perm p
    exact hparents p (List.mem_of_getElem? hp) _ (List.mem_map_of_mem (hperm.subset hb))

/-- **A run of `dedup_sim_lru`**, from a round on, with a parent and a cache of blocks of
which `K`. -/
theorem simLruLoop_flags (so : Sorter Block.cksum) (sha1 : List UInt8 → Checksum) {cds : List Block}
    (hcds : cds.Pairwise fun a b => a.cksum ≤ b.cksum) (hcdsK : ∀ k ∈ cds.map Block.cksum, K k)
    (is : List UInt8) : ∀ {has : Bool} {seg parent : Segment} {st : LruCache.State}
      {is' out : List UInt8}, Sized is → Sized is' → Caches K st →
      (∀ p ∈ parentSegments has is', ∀ k ∈ p.map Block.cksum, K k) →
      (has = true → SegmentsInjective sha1 (parentSegments has is')
        (segmentsOf (Block.loader.readAll is))) →
      simLruLoop so sha1 entSo timeSo clock cds has seg parent st is is' = .ok out →
      ∃ bs : List Block, out = bs.flatMap Block.save ∧
        List.Forall₂ (Flags K) ((segmentsOf (Block.loader.readAll is)).flatten.map fun b =>
          { b with fileId := 0 }) bs := by
  induction h : is.length using Nat.strong_induction_on generalizing is with
  | _ n ih =>
    subst h
    intro has seg parent st is' out hs hs' hcaches hparents hinj hout
    rw [simLruLoop_unfold, Segment.loadSegmentLru_eq sha1 seg hs] at hout
    rcases Segment.loadWith_cases Block.loader sha1 seg hs with
      ⟨hend, hnil⟩ | ⟨s, rest, hl, -, hsegs, hsr⟩
    · -- the snapshot is at its end
      have hend' : ¬ (Segment.loadSegment sha1 seg is).1 = true := (Bool.not_eq_true _).mpr hend
      rw [if_neg hend'] at hout
      cases hout
      rw [hnil]
      exact ⟨[], rfl, .nil⟩
    replace hl : Segment.loadSegment sha1 seg is = _ := hl
    obtain ⟨has1, parent1, is1, hload, hs1, hnext, hhead⟩ := loadParentLru_cases so sha1 has parent hs'
    rw [hl, if_pos rfl, hload] at hout
    obtain ⟨⟨st1, current⟩, hlevels, hout⟩ := bind_eq_ok.1 hout
    obtain ⟨output, hrest, hout⟩ := bind_eq_ok.1 hout
    cases hout
    rw [hsegs] at hinj ⊢
    obtain ⟨hcaches1, hflags⟩ := round_flags so hcaches hparents
      (by
        intro hhas
        obtain ⟨p, hp, hparent1, hhas'⟩ := hhead hhas
        have hbytes := hinj hhas' 0 s rfl
        rw [hp, Option.getD_some] at hbytes
        exact ⟨p, hp, hparent1, hbytes⟩)
      hlevels
    obtain ⟨bs, rfl, hbs⟩ := ih _ (Segment.loadWith_lt hl) rest rfl hsr hs1 hcaches1
      (fun p hp => hparents p (mem_of_next hnext hp))
      (by
        intro hhas i t ht
        obtain ⟨-, -, -, hhas'⟩ := hhead hhas
        rw [← hnext]
        exact hinj hhas' (i + 1) t ht)
      hrest
    refine ⟨current.blocklist.map (cdsLevel cds) ++ bs, List.flatMap_append.symm, ?_⟩
    rw [List.flatten_cons, List.map_append]
    refine List.rel_append ?_ hbs
    rw [List.forall₂_map_right_iff]
    exact hflags.imp fun _ b' hb => hb.trans (cdsLevel_flags hcds hcdsK b')

/-- **`dedup_sim_lru`**, with a cache of any size. -/
theorem simLru_sound (hs : Sized snapshot) (hp : ∀ p, parent = some p → Sized p)
    (hcds : (Block.loader.readAll cds).Pairwise fun a b => a.cksum ≤ b.cksum)
    (hinj : Injective sha1 parent snapshot)
    (h : simLru so sha1 entSo timeSo clock size seg old snapshot cds parent = .ok output) :
    Sound cds parent snapshot output := by
  obtain ⟨bs, rfl, hflags⟩ := simLruLoop_flags (K := Known cds parent) so sha1 hcds
    (fun k hk => .inl hk) snapshot hs (sized_getD hp) (fun k hk => absurd hk List.not_mem_nil)
    (by
      intro p hmem k hk
      obtain ⟨i, hi⟩ := List.getElem?_of_mem hmem
      exact known_of_segment hi hk)
    hinj.segments h
  have hread : Block.loader.readAll (bs.flatMap Block.save) = bs := loader_readAll_save bs
  have hcopied : (Block.loader.readAll (bs.flatMap Block.save)).map Block.copied =
      ((Block.loader.readAll snapshot).filter fun b => b.size ≠ 0).map Block.copied := by
    rw [hread, Flags.map_copied hflags, segmentsOf_flatten, List.map_map]
    rfl
  refine ⟨⟨sized_of_copied hcopied hs, hs, alike_of_copied hcopied⟩, ?_⟩
  rw [hread]
  intro b' hb' hflag
  obtain ⟨b, hb, hbb'⟩ := exists_of_forall₂ hflags b' hb'
  obtain ⟨a, -, rfl⟩ := List.mem_map.1 hb
  have hk : b'.cksum = a.cksum := congrArg Prod.fst hbb'.copied
  rw [hk]
  exact (hbb'.found hflag).resolve_left (not_not.2 rfl)

end DedupSim
