import DedupSim.Proof.CdsAgree

/-!
# The ranking of the CDS generator

* `RankedCounts`: a file of merged results, as the records of its temporary file have it.
* `cdsRanks_iff`: **the generator ranks checksums by their counts and cuts the ranking, if
  and only if its loop indices fit.**
* `cdsGen_cached`: **a run on the files of another one writes what a fresh run would.**
-/

namespace DedupSim

variable {so : Sorter Block.cksum} {byCount : Sorter Block.byCount} {threshold : Binary64}
  {traces : List (List UInt8)} {records merged : List Block}

/-! ## Merged results -/

/-- A record for each checksum of a file, with its count as file id, from the highest count
on. -/
structure RankedCounts (records merged : List Block) : Prop where
  nodup : (merged.map Block.cksum).Nodup
  mem : ∀ c, c ∈ merged.map Block.cksum ↔ c ∈ records.map Block.cksum
  record : ∀ b ∈ merged, ∃ r ∈ records, b = { r with fileId := b.fileId }
  count : ∀ b ∈ merged, b.fileId.toNat = countOf records b.cksum
  ranked : Ranked (fun b : Block => b.fileId.toNat) merged

/-- **What the generator merges a temporary file into.** -/
theorem mergedOf_counts (so : Sorter Block.cksum) (byCount : Sorter Block.byCount)
    (hlen : records.length < 2 ^ 32) : RankedCounts records (mergedOf so byCount records) := by
  have hperm : (mergedOf so byCount records).Perm (mergeRuns (so.sort records)) := byCount.perm _
  refine ⟨?_, ?_, ?_, ?_, ?_⟩
  · exact (hperm.map Block.cksum).nodup_iff.2 (mergeRuns_nodup so records)
  · intro c
    rw [(hperm.map Block.cksum).mem_iff, (mergeRuns_spec (so.sorted records)).2.1,
      ((so.perm records).map Block.cksum).mem_iff]
  · intro b hb
    obtain ⟨r, hr, heq⟩ := (mergeRuns_spec (so.sorted records)).2.2.2 b (hperm.mem_iff.1 hb)
    exact ⟨r, (so.perm records).mem_iff.1 hr, heq⟩
  · exact fun b hb => mergeRuns_count so hlen b (hperm.mem_iff.1 hb)
  · exact (byCount.sorted _).imp fun h => h

/-- What is left out of the first `k` is not more frequent than what is in. -/
theorem RankedCounts.le_of_take (h : RankedCounts records merged) {k : ℕ} {c c' : Checksum}
    (hc : c ∈ (merged.take k).map Block.cksum) (hc' : c' ∈ records.map Block.cksum)
    (hout : c' ∉ (merged.take k).map Block.cksum) : countOf records c' ≤ countOf records c := by
  obtain ⟨a, ha, rfl⟩ := List.mem_map.1 hc
  obtain ⟨b, hb, rfl⟩ := List.mem_map.1 ((h.mem c').2 hc')
  rw [← h.count a (List.mem_of_mem_take ha), ← h.count b hb]
  have hdrop : b ∈ merged.drop k := by
    rw [← List.take_append_drop k merged] at hb
    exact (List.mem_append.1 hb).resolve_left fun htake => hout (List.mem_map_of_mem htake)
  have hranked := h.ranked
  unfold Ranked at hranked
  rw [← List.take_append_drop k merged, List.pairwise_append] at hranked
  exact hranked.2.2 a ha b hdrop

/-! ## The CDS -/

/-- **The generator ranks checksums by popularity**, whatever `std::sort` does with equal
elements. Each file of merged results has the counts of its bucket in their order; the CDS is
the part of each that the cut selects, one after another; no checksum is in it twice, and what
a bucket leaves out is not more frequent than what it selects. -/
def CdsRanks (threshold : Binary64) (traces : List (List UInt8)) : Prop :=
  ∀ (so : Sorter Block.cksum) (byCount : Sorter Block.byCount), ∃ merged : ℕ → List Block,
    let selected := fun i => (merged i).take (cutOf threshold (merged i).length).toNat
    let cds := (List.range 256).flatMap selected
    cdsGen so byCount threshold none traces =
        some ((List.range 256).map fun i => (merged i).flatMap Block.save, cds.flatMap Block.save) ∧
      (∀ i < 256, RankedCounts (newRecords traces i) (merged i)) ∧
      (cds.map Block.cksum).Nodup ∧
      ∀ i < 256, ∀ c ∈ (selected i).map Block.cksum, ∀ c' ∈ (newRecords traces i).map Block.cksum,
        c' ∉ (selected i).map Block.cksum →
          countOf (newRecords traces i) c' ≤ countOf (newRecords traces i) c

/-- **When the generator ranks checksums by popularity**: its loop indices fit. -/
theorem cdsRanks_iff (threshold : Binary64) (traces : List (List UInt8))
    (hcut : CutsFit threshold traces) : CdsRanks threshold traces ↔ FilesFit traces := by
  constructor
  · intro h
    obtain ⟨merged, hrun, -⟩ := h (.merge _) (.merge _)
    exact cdsGen_fit hrun
  · intro hfit so byCount
    have hselected : ∀ i ∈ List.range 256,
        (mergedOf so byCount (newRecords traces i)).take
            (cutOf threshold (mergedOf so byCount (newRecords traces i)).length).toNat =
          cdsRecords so byCount threshold (newRecords traces i) := by
      intro i hi
      rw [List.mem_range] at hi
      have hlen := (length_mergedOf_le so byCount (newRecords traces i)).trans_lt (hfit i hi)
      unfold cdsRecords
      rw [numRecords_eq (hcut.mergedOf so byCount hi) hlen, Option.getD_some]
    have hcds : ((List.range 256).flatMap fun i => (mergedOf so byCount (newRecords traces i)).take
        (cutOf threshold (mergedOf so byCount (newRecords traces i)).length).toNat) =
          cdsOf so byCount threshold traces := by
      unfold cdsOf
      rw [List.flatMap_def, List.flatMap_def, List.map_congr_left hselected]
    have hcounts : ∀ i < 256,
        RankedCounts (newRecords traces i) (mergedOf so byCount (newRecords traces i)) :=
      fun i hi => mergedOf_counts so byCount ((hfit i hi).trans (by decide))
    refine ⟨fun i => mergedOf so byCount (newRecords traces i), ?_, hcounts, ?_, ?_⟩
    · rw [cdsGen_eq so byCount hcut hfit, ← hcds]
      rfl
    · rw [hcds]
      exact cdsOf_nodup
    · exact fun i hi c hc c' hc' hout => (hcounts i hi).le_of_take hc hc' hout

/-- A file of three blocks fits. -/
theorem filesFit_three : FilesFit [([1, 2, 2].map blockEnding).flatMap Block.save] := by
  intro i _
  rw [newRecords_ending]
  split <;> decide

/-- Half of the checksums of a file with one block of the first and two of the second. -/
theorem cdsRanks_half :
    CdsRanks halfFraction [([1, 2, 2].map blockEnding).flatMap Block.save] := by
  have hfit := filesFit_three
  refine (cdsRanks_iff halfFraction _ ?_).2 hfit
  exact hfit.cutsFit (by norm_num [halfFraction]) (by norm_num [halfFraction])

/-- A file of `2 ^ 31` blocks with one checksum: the index of the loop over it overflows,
though the cut fits. -/
theorem not_cdsRanks_half :
    CutsFit halfFraction [((List.replicate (2 ^ 31) 1).map blockEnding).flatMap Block.save] ∧
      ¬ CdsRanks halfFraction [((List.replicate (2 ^ 31) 1).map blockEnding).flatMap Block.save] := by
  generalize hn : 2 ^ 31 = n
  constructor
  · intro i _
    apply cutFits_of_fraction (by norm_num [halfFraction]) (by norm_num [halfFraction])
    rw [newRecords_ending]
    have hcard : (((List.replicate n 1).map blockEnding).map Block.cksum).toFinset.card ≤ 1 := by
      apply Finset.card_le_one.2
      simp
    split
    · omega
    · simp
  · intro h
    obtain ⟨merged, hrun, -⟩ := h (.merge _) (.merge _)
    have hlen := cdsGen_fit hrun 0 (by decide)
    rw [newRecords_ending, if_pos rfl, List.length_map, List.length_replicate, hn] at hlen
    exact lt_irrefl _ hlen

/-! ## A later run -/

/-- **Cached and fresh generation agree**: after a run with one fraction, a run with another one
that finds the files of the first writes the CDS that it would write from the traces. -/
theorem cdsGen_cached (so : Sorter Block.cksum) (byCount : Sorter Block.byCount) (t1 t2 : Binary64)
    (h1 : 0 ≤ t1.val ∧ t1.val ≤ 1) (h2 : 0 ≤ t2.val ∧ t2.val ≤ 1)
    (traces traces' : List (List UInt8)) (merged : List (List UInt8)) (cds : List UInt8)
    (hrun : cdsGen so byCount t1 none traces = some (merged, cds)) :
    ∃ cds', cdsGen so byCount t2 none traces = some (merged, cds') ∧
      cdsGen so byCount t2 (some merged) traces' = some (merged, cds') := by
  have hfit := cdsGen_fit hrun
  rw [cdsGen_eq so byCount (hfit.cutsFit h1.1 h1.2) hfit] at hrun
  cases hrun
  have hcut := hfit.cutsFit h2.1 h2.2
  rw [cdsGen_again hcut hfit, cdsGen_eq so byCount hcut hfit]
  exact ⟨_, rfl, rfl⟩

/-- All of the checksums. -/
def wholeFraction : Binary64 := ⟨1, 1, 0, by norm_num, by norm_num, by norm_num⟩

/-- A run with one half, then one that takes all of its files. -/
theorem cdsGen_cached_half :
    ∃ merged cds', cdsGen (.merge _) (.merge _) wholeFraction none
          [([1, 2, 2].map blockEnding).flatMap Block.save] = some (merged, cds') ∧
      cdsGen (.merge _) (.merge _) wholeFraction (some merged) [] = some (merged, cds') := by
  have hhalf : 0 ≤ halfFraction.val ∧ halfFraction.val ≤ 1 := by norm_num [halfFraction]
  have hfit := filesFit_three
  have hrun := cdsGen_eq (.merge Block.cksum) (.merge Block.byCount) (hfit.cutsFit hhalf.1 hhalf.2) hfit
  exact ⟨_, cdsGen_cached (.merge _) (.merge _) halfFraction wholeFraction hhalf
    (by norm_num [wholeFraction]) _ [] _ _ hrun⟩

end DedupSim
