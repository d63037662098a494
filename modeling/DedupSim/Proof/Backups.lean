import DedupSim.Proof.Soundness

/-!
# Backups over the versions of snapshots

Runs of the simulators, each on a new version and against one that was backed up before, or
against none, with one CDS.

* `Reachable.stored`: **no order of runs loses a block**: every block of every version is in the
  CDS, or some run has written it as new.
-/

namespace DedupSim

variable {sha1 : List UInt8 → Checksum} {snapshot cds output : List UInt8}
  {parent : Option (List UInt8)}

/-! ## Backups -/

/-- What is on the disk: of each version the log and what was written for it, and the cache
files. -/
structure Disk where
  versions : List (List UInt8 × List UInt8)
  cacheFile : Int32 → Option (List UInt8)

/-- Nothing is backed up. -/
def Disk.empty : Disk := ⟨[], fun _ => none⟩

/-- The parent of a run is a version that is backed up, as its log or as what was written for
it. -/
def Disk.Holds (d : Disk) (parent : Option (List UInt8)) : Prop :=
  ∀ p, parent = some p → ∃ v ∈ d.versions, p = v.1 ∨ p = v.2

/-- A run of a simulator that returns. The sizes of the blocks fit an `int`, and SHA-1 tells the
segments apart that are compared. -/
inductive Backup (sha1 : List UInt8 → Checksum) (cds : List UInt8) : Disk → Disk → Prop
  | sim {d : Disk} (so : Sorter Block.cksum) (seg old : Segment) {snapshot : List UInt8}
      {parent : Option (List UInt8)} (hs : Sized snapshot) (hparent : d.Holds parent)
      (hinj : Injective sha1 parent snapshot) :
      Backup sha1 cds d { d with
        versions := d.versions ++ [(snapshot, dedupSim so sha1 seg old snapshot cds parent)] }
  | cdsLru {d : Disk} {so : Sorter Block.cksum} {pq : PriorityQueue CacheItem.time} {clock : Clock}
      {size : Int32} {seg old : Segment} {snapshot newCache output : List UInt8}
      {parent : Option (List UInt8)} (hs : Sized snapshot) (hparent : d.Holds parent)
      (hinj : Injective sha1 parent snapshot)
      (hrun : DedupSim.cdsLru so sha1 pq clock size seg old (d.cacheFile size) snapshot cds parent =
        .ok (newCache, output)) :
      Backup sha1 cds d
        ⟨d.versions ++ [(snapshot, output)], Function.update d.cacheFile size (some newCache)⟩
  | simLru {d : Disk} {so : Sorter Block.cksum} {entSo : Sorter LruCacheEntry.key}
      {timeSo : Sorter LruCacheEntry.age} {clock : Clock} {size : Int32} {seg old : Segment}
      {snapshot output : List UInt8} {parent : Option (List UInt8)} (hs : Sized snapshot)
      (hparent : d.Holds parent) (hinj : Injective sha1 parent snapshot)
      (hrun : DedupSim.simLru so sha1 entSo timeSo clock size seg old snapshot cds parent =
        .ok output) :
      Backup sha1 cds d { d with versions := d.versions ++ [(snapshot, output)] }

/-- What runs lead to, in any order. -/
inductive Reachable (sha1 : List UInt8 → Checksum) (cds : List UInt8) : Disk → Prop
  | empty : Reachable sha1 cds .empty
  | backup {d d' : Disk} : Reachable sha1 cds d → Backup sha1 cds d d' → Reachable sha1 cds d'

/-- A checksum is stored: it is in the CDS, or a run has written a block of it as new. -/
def Disk.Stores (d : Disk) (cds : List UInt8) (k : Checksum) : Prop :=
  k ∈ (Block.loader.readAll cds).map Block.cksum ∨
    ∃ v ∈ d.versions, ∃ b ∈ Block.loader.readAll v.2, b.fileId = 0 ∧ b.cksum = k

/-- The invariant of the disk. -/
structure Disk.Complete (d : Disk) (cds : List UInt8) : Prop where
  same : ∀ v ∈ d.versions, SameLog v.2 v.1
  stores : ∀ v ∈ d.versions, ∀ k ∈ checksums v.1, d.Stores cds k
  cached : ∀ size is, d.cacheFile size = some is → SavedCache (Block.loader.readAll cds) is

variable {d d' : Disk}

theorem Disk.Complete.holds (h : d.Complete cds) (hparent : d.Holds parent) :
    ∀ p, parent = some p → Sized p ∧ ∀ k ∈ checksums p, d.Stores cds k := by
  intro p hp
  obtain ⟨v, hv, rfl | rfl⟩ := hparent p hp
  · exact ⟨(h.same v hv).sized', h.stores v hv⟩
  · refine ⟨(h.same v hv).sized, ?_⟩
    rw [(h.same v hv).checksums]
    exact h.stores v hv

/-- **A sound run keeps the invariant.** -/
theorem Disk.Complete.snoc (h : d.Complete cds) (hparent : d.Holds parent)
    (hsound : Sound cds parent snapshot output) {cacheFile : Int32 → Option (List UInt8)}
    (hcached : ∀ size is, cacheFile size = some is → SavedCache (Block.loader.readAll cds) is) :
    Disk.Complete ⟨d.versions ++ [(snapshot, output)], cacheFile⟩ cds := by
  have hmono : ∀ {k}, d.Stores cds k →
      Disk.Stores ⟨d.versions ++ [(snapshot, output)], cacheFile⟩ cds k := by
    rintro k (hk | ⟨v, hv, hb⟩)
    · exact .inl hk
    · exact .inr ⟨v, List.mem_append_left _ hv, hb⟩
  refine ⟨?_, ?_, hcached⟩
  · intro v hv
    rcases List.mem_append.1 hv with hv | hv
    · exact h.same v hv
    · rw [List.mem_singleton.1 hv]
      exact hsound.same
  · intro v hv k hk
    rcases List.mem_append.1 hv with hv | hv
    · exact hmono (h.stores v hv k hk)
    · rw [List.mem_singleton.1 hv, ← hsound.same.checksums] at hk
      obtain ⟨b, hb, rfl⟩ := List.mem_map.1 hk
      have hmem := (List.mem_filter.1 hb).1
      -- what is not new is in the CDS or in the parent, which is complete
      by_cases hnew : b.fileId = 0
      · exact .inr ⟨_, List.mem_append_right _ (.head _), b, hmem, hnew, rfl⟩
      · rcases hsound.found b hmem hnew with hcds | ⟨p, hp, hin⟩
        · exact .inl hcds
        · exact hmono ((h.holds hparent p hp).2 _ hin)

/-- **A run of any simulator keeps the invariant.** -/
theorem Disk.Complete.backup
    (hcds : (Block.loader.readAll cds).Pairwise fun a b => a.cksum ≤ b.cksum)
    (h : d.Complete cds) (hstep : Backup sha1 cds d d') : d'.Complete cds := by
  cases hstep with
  | sim so seg old hs hparent hinj =>
    have hp := fun p hp => (h.holds hparent p hp).1
    exact h.snoc hparent (dedupSim_sound so seg old hs hp hcds hinj) h.cached
  | @cdsLru _ _ _ size _ _ _ newCache _ _ hs hparent hinj hrun =>
    have hp := fun p hp => (h.holds hparent p hp).1
    obtain ⟨hsaved, hsound⟩ := cdsLru_sound (h.cached size) hs hp hcds hinj hrun
    refine h.snoc hparent hsound fun size' is hfile => ?_
    by_cases heq : size' = size
    · subst heq
      rw [Function.update_self] at hfile
      cases hfile
      exact hsaved
    · rw [Function.update_of_ne heq] at hfile
      exact h.cached size' is hfile
  | simLru hs hparent hinj hrun =>
    have hp := fun p hp => (h.holds hparent p hp).1
    exact h.snoc hparent (simLru_sound hs hp hcds hinj hrun) h.cached

/-- **No order of runs loses a block**: with a sorted CDS, every block of every version that is
backed up is in the CDS, or some run has written it as new. -/
theorem Reachable.stored (hcds : (Block.loader.readAll cds).Pairwise fun a b => a.cksum ≤ b.cksum)
    (h : Reachable sha1 cds d) :
    ∀ v ∈ d.versions, SameLog v.2 v.1 ∧ ∀ b ∈ Block.loader.readAll v.1, b.size ≠ 0 →
      d.Stores cds b.cksum := by
  have hcomplete : d.Complete cds := by
    induction h with
    | empty =>
      exact ⟨fun v hv => absurd hv List.not_mem_nil, fun v hv => absurd hv List.not_mem_nil, nofun⟩
    | backup _ hstep ih => exact ih.backup hcds hstep
  intro v hv
  refine ⟨hcomplete.same v hv, fun b hb hne => hcomplete.stores v hv _ ?_⟩
  exact List.mem_map_of_mem (List.mem_filter.2 ⟨hb, decide_eq_true hne⟩)

/-- Two versions, the second against the first, and with a cache. -/
theorem Reachable.stored_pairs :
    ∃ d : Disk, d.versions.map Prod.fst = [olderLog.flatMap Block.save, newerLog.flatMap Block.save] ∧
      ∀ v ∈ d.versions, SameLog v.2 v.1 ∧ ∀ b ∈ Block.loader.readAll v.1, b.size ≠ 0 →
        d.Stores ([⟨2, 0, 0, pairsDigest [8, 8]⟩].flatMap Block.save) b.cksum := by
  have hsized : ∀ log : List Block, (∀ b ∈ log, b.size.toNat < 2 ^ 31) →
      Sized (log.flatMap Block.save) := by
    intro log h
    unfold Sized
    rwa [loader_readAll_save]
  set cds : List UInt8 := [⟨2, 0, 0, pairsDigest [8, 8]⟩].flatMap Block.save
  have hcds : (Block.loader.readAll cds).Pairwise fun a b => a.cksum ≤ b.cksum := by
    rw [loader_readAll_save]
    exact List.pairwise_singleton _ _
  have h1 : Reachable pairsDigest cds
      ⟨[(olderLog.flatMap Block.save, dedupSim (.merge Block.cksum) pairsDigest default default
        (olderLog.flatMap Block.save) cds none)], fun _ => none⟩ :=
    .backup .empty (.sim (.merge Block.cksum) default default (hsized olderLog (by decide))
      (fun p hp => absurd hp (Option.some_ne_none p).symm)
      fun p hp => absurd hp (Option.some_ne_none p).symm)
  have hinj : Injective pairsDigest (some (olderLog.flatMap Block.save))
      (newerLog.flatMap Block.save) := by
    rintro p ⟨⟩
    rw [loader_readAll_save, loader_readAll_save]
    exact pairs_injective
  -- the second run has a cache of ten blocks, which is empty at first
  have hnone : ∀ is, (none : Option (List UInt8)) = some is →
      SavedCache (Block.loader.readAll cds) is := nofun
  obtain ⟨newCache, out, hrun, -⟩ := cdsLru_ok (.merge Block.cksum) pairsDigest
    (.descending CacheItem.time) CdsLruCache.tickClock (show (10 : Int32) ≤ 10 by decide) default
    default (newerLog.flatMap Block.save) (some (olderLog.flatMap Block.save)) hcds hnone
  have h2 := h1.backup (.cdsLru (hsized newerLog (by decide))
    (fun p hp => ⟨_, .head _, .inl (Option.some.inj hp).symm⟩) hinj hrun)
  exact ⟨_, rfl, Reachable.stored hcds h2⟩

end DedupSim
