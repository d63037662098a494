import DedupSim.Proof.CdsAgree
import DedupSim.Proof.HitAnalysis
import DedupSim.Proof.Versions

/-!
# Two programs find the hits

The hits that `cds_hit_analysis` counts in a snapshot, and the flags that the simulator sets on
its blocks.

* `cdsHits_congr`: the analysis reads what the simulator reads.
* `cdsHits_flagged`: **its runs are those of the blocks with `IN_CDS`**, whether or not the CDS is
  sorted.
-/

namespace DedupSim

variable {sha1 : List UInt8 → Checksum} {snapshot snapshot' : List UInt8}

/-- The analysis searches for the blocks that are not empty. -/
theorem hits_plain (sha1 : List UInt8 → Checksum) (seg : Segment) (cds : List UInt8)
    (hs : Sized snapshot) :
    cdsHitAnalysis sha1 seg snapshot cds =
      ((plainBlocks (Block.loader.readAll snapshot)).foldl
        (searchCds (Block.loader.readAll cds)) (0, [])).2 := by
  have hblocks : (Segment.loadAll sha1 seg snapshot).flatMap Segment.blocklist =
      (Block.loader.readAll snapshot).filter fun b => b.size ≠ 0 := by
    rw [hs.loadAll, ← segmentsOf_flatten, List.flatMap_map]
    simp only [Segment.ofBlocks_blocklist, List.flatMap_id']
  unfold cdsHitAnalysis plainBlocks
  rw [hitLoop_eq, hblocks, List.foldl_map]
  rfl

theorem cdsHits_congr (sha1 : List UInt8 → Checksum) (seg seg' : Segment) (cds : List UInt8)
    (h : SameLog snapshot snapshot') :
    cdsHitAnalysis sha1 seg snapshot cds = cdsHitAnalysis sha1 seg' snapshot' cds := by
  rw [hits_plain sha1 seg cds h.sized, hits_plain sha1 seg' cds h.sized', h.alike]

/-- **The hits are the flags.** What the simulator writes of a snapshot, against any parent, has
`IN_CDS` on the blocks that the analysis of the snapshot counts: the numbers that it writes are
the lengths of the runs of these blocks, but for a run at the end. The analysis of what the
simulator writes is the same. -/
theorem cdsHits_flagged (so : Sorter Block.cksum) (sha1 : List UInt8 → Checksum)
    (seg seg' old : Segment) (cds : List UInt8) (parent : Option (List UInt8))
    (hs : Sized snapshot) :
    let output := dedupSim so sha1 seg old snapshot cds parent
    let blocks := Block.loader.readAll output
    let flagged := fun b : Block => decide (b.fileId &&& inCds ≠ 0)
    cdsHitAnalysis sha1 seg' output cds = cdsHitAnalysis sha1 seg' snapshot cds ∧
      ((∀ m ∈ runLengths flagged blocks, m < 2 ^ 31) →
        (cdsHitAnalysis sha1 seg' snapshot cds).map Int32.toInt ++
            ([openRun flagged 0 blocks].filter (· ≠ 0)).map (fun m : ℕ => (m : ℤ)) =
          (runLengths flagged blocks).map (fun m : ℕ => (m : ℤ))) := by
  intro output blocks flagged
  have hlog : SameLog output snapshot := dedupSim_alike so sha1 seg old cds parent hs
  have hsame := cdsHits_congr sha1 seg' seg' cds hlog
  refine ⟨hsame, ?_⟩
  intro hshort
  -- a block of the output is flagged if the search finds it
  have hflag : ∀ b ∈ blocks, binarySearch Block.cksum (Block.loader.readAll cds) b = flagged b := by
    intro b hb
    rw [Bool.eq_iff_iff, decide_eq_true_iff]
    exact ((dedupSim_inCds so sha1 seg old snapshot cds parent hs).2 b hb).symm
  obtain ⟨hruns, hopen⟩ := runLengthsFrom_congr hflag 0
  have hne : blocks.filter (fun b => b.size ≠ 0) = blocks :=
    List.filter_eq_self.2 fun b hb =>
      decide_eq_true (ne_zero_of_copied (dedupSim_copied so sha1 seg old cds parent hs) b hb)
  have hfold : cdsHitAnalysis sha1 seg' output cds =
      (blocks.foldl (searchCds (Block.loader.readAll cds)) (0, [])).2 := by
    rw [hits_plain sha1 seg' cds hlog.sized]
    unfold plainBlocks
    rw [hne, List.foldl_map]
    rfl
  rw [runLengths_eq, ← hruns] at hshort ⊢
  have h := searchCds_runs (Block.loader.readAll cds) blocks (0, []) 0 rfl hshort
  rw [← hsame, hfold, ← hopen]
  exact h

/-- A snapshot of one hit: the output has one flag, and neither analysis writes a number. -/
theorem cdsHits_flagged_three :
    let snapshot := [threeBlock].flatMap Block.save
    let output := dedupSim (.merge Block.cksum) zerosDigest default default snapshot snapshot none
    let blocks := Block.loader.readAll output
    let flagged := fun b : Block => decide (b.fileId &&& inCds ≠ 0)
    cdsHitAnalysis zerosDigest default output snapshot =
        cdsHitAnalysis zerosDigest default snapshot snapshot ∧
      ((∀ m ∈ runLengths flagged blocks, m < 2 ^ 31) →
        (cdsHitAnalysis zerosDigest default snapshot snapshot).map Int32.toInt ++
            ([openRun flagged 0 blocks].filter (· ≠ 0)).map (fun m : ℕ => (m : ℤ)) =
          (runLengths flagged blocks).map (fun m : ℕ => (m : ℤ))) := by
  apply cdsHits_flagged (.merge Block.cksum) zerosDigest default default default
    ([threeBlock].flatMap Block.save) none
  unfold Sized
  rw [loader_readAll_save]
  decide

end DedupSim
