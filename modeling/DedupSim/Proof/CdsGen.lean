import DedupSim.Lib.Ranking
import DedupSim.Lib.Run
import DedupSim.Lib.RunLength
import DedupSim.Proof.Segment
import DedupSim.Spec.CdsGen
import Mathlib.Data.Finset.Card
import Mathlib.Data.List.Dedup

/-!
# What the CDS generator writes

* `newRecords`: the blocks of a temporary file; `splitFiles_eq`: that is what it holds.
* `mergeRuns_spec`: **a block for each checksum, with its count.**
* `cdsRecords`: the blocks that a file has for the CDS; `cdsGen_eq`: **when the generator
  is defined, and what it writes.**
* `cdsGen_again`: **a later run on the merged files writes what a first run would.**
-/

namespace DedupSim

variable {so : Sorter Block.cksum} {byCount : Sorter Block.byCount} {threshold : Binary64}
  {traces : List (List UInt8)} {records raw bs : List Block} {is : List UInt8}

theorem loader_readAll_save (bs : List Block) : Block.loader.readAll (bs.flatMap Block.save) = bs :=
  (readAll_records bs).2

/-! ## Temporary files -/

/-- The new blocks of the traces whose checksums begin with `i`. -/
def newRecords (traces : List (List UInt8)) (i : ℕ) : List Block :=
  (traces.flatMap Block.loader.readAll).filter fun b => b.fileId = 0 ∧ b.cksum.first = i

theorem splitFile_eq (tmp : TmpFiles) (is : List UInt8) (i : ℕ) :
    splitFile tmp is i = tmp i ++ (newRecords [is] i).flatMap Block.save := by
  unfold splitFile
  unfold newRecords
  rw [List.flatMap_cons, List.flatMap_nil, List.append_nil]
  generalize Block.loader.readAll is = bs
  induction bs generalizing tmp with
  | nil => rw [List.foldl_nil, List.filter_nil, List.flatMap_nil, List.append_nil]
  | cons b bs ih =>
    rw [List.foldl_cons, ih, List.filter_cons]
    by_cases hnew : b.fileId = 0
    · by_cases hi : b.cksum.first = i
      · subst hi
        simp [hnew]
      · simp [hnew, hi, Function.update_of_ne (Ne.symm hi)]
    · simp [hnew]

theorem newRecords_append (ts ts' : List (List UInt8)) (i : ℕ) :
    newRecords (ts ++ ts') i = newRecords ts i ++ newRecords ts' i := by
  rw [newRecords, List.flatMap_append, List.filter_append]
  rfl

/-- **What a temporary file holds.** -/
theorem splitFiles_eq (traces : List (List UInt8)) (i : ℕ) :
    splitFiles traces i = (newRecords traces i).flatMap Block.save := by
  have h : ∀ tmp : TmpFiles, traces.foldl splitFile tmp i =
      tmp i ++ (newRecords traces i).flatMap Block.save := by
    induction traces with
    | nil => exact fun tmp => (List.append_nil _).symm
    | cons is traces ih =>
      intro tmp
      rw [List.foldl_cons, ih, splitFile_eq, List.append_assoc, ← List.flatMap_append,
        ← newRecords_append, List.singleton_append]
  exact (h _).trans (List.nil_append _)

/-! ## Merged blocks -/

theorem mergeRun_eq (raw : List Block) : ∀ (n : ℕ) (blk : Block), mergeRun n blk raw =
    (runsFrom Block.cksum n blk raw).map fun r => { r.1 with fileId := UInt32.ofNat r.2 } := by
  induction raw with
  | nil => exact fun n blk => rfl
  | cons next raw ih =>
    intro n blk
    unfold mergeRun runsFrom
    split
    · exact ih (n + 1) next
    · rw [ih 1 next, List.map_cons]

/-- **The runs of a file**, with their lengths as file ids. -/
theorem mergeRuns_eq (raw : List Block) :
    mergeRuns raw = (runs Block.cksum raw).map fun r => { r.1 with fileId := UInt32.ofNat r.2 } := by
  cases raw with
  | nil => rfl
  | cons blk raw => exact mergeRun_eq raw 1 blk

/-- **A block for each checksum, with its count.** -/
theorem mergeRuns_spec (hraw : raw.Pairwise fun a b => a.cksum ≤ b.cksum) :
    ((mergeRuns raw).map Block.cksum).Pairwise (· < ·) ∧
      (∀ c, c ∈ (mergeRuns raw).map Block.cksum ↔ c ∈ raw.map Block.cksum) ∧
      (∀ b ∈ mergeRuns raw, b.fileId = UInt32.ofNat (countOf raw b.cksum)) ∧
      ∀ b ∈ mergeRuns raw, ∃ r ∈ raw, b = { r with fileId := b.fileId } := by
  have hadj := Contiguous.of_sorted hraw
  obtain ⟨-, -, hmem, hlen⟩ := runs_spec hadj
  rw [mergeRuns_eq, List.map_map]
  refine ⟨runs_sorted hraw, hmem, ?_, ?_⟩
  · intro b hb
    obtain ⟨r, hr, rfl⟩ := List.mem_map.1 hb
    exact congrArg UInt32.ofNat (hlen r hr)
  · intro b hb
    obtain ⟨r, hr, rfl⟩ := List.mem_map.1 hb
    exact ⟨r.1, mem_of_mem_runs hadj hr, rfl⟩

/-! ## The CDS -/

/-- The merged blocks of a file, from the highest count on. -/
def mergedOf (so : Sorter Block.cksum) (byCount : Sorter Block.byCount) (records : List Block) :
    List Block :=
  byCount.sort (mergeRuns (so.sort records))

/-- The blocks that a file has for the CDS. -/
def cdsRecords (so : Sorter Block.cksum) (byCount : Sorter Block.byCount) (threshold : Binary64)
    (records : List Block) : List Block :=
  (mergedOf so byCount records).take
    ((numRecords threshold (mergedOf so byCount records).length).getD 0)

theorem mergeRuns_nodup (so : Sorter Block.cksum) (records : List Block) :
    ((mergeRuns (so.sort records)).map Block.cksum).Nodup :=
  (mergeRuns_spec (so.sorted records)).1.imp fun h => h.ne

/-- The file id of a merged block is its count. -/
theorem mergeRuns_count (so : Sorter Block.cksum) (hlen : records.length < 2 ^ 32) :
    ∀ b ∈ mergeRuns (so.sort records), b.fileId.toNat = countOf records b.cksum := by
  intro b hb
  have hlt := (countOf_le records b.cksum).trans_lt hlen
  rw [(mergeRuns_spec (so.sorted records)).2.2.1 b hb, UInt32.toNat_ofNat', countOf,
    ((so.perm records).map Block.cksum).count_eq]
  exact Nat.mod_eq_of_lt hlt

/-- The checksums of the merged blocks are those of the file, each once. -/
theorem mergeRuns_toFinset (so : Sorter Block.cksum) (records : List Block) :
    ((mergeRuns (so.sort records)).map Block.cksum).toFinset = (records.map Block.cksum).toFinset := by
  ext c
  rw [List.mem_toFinset, List.mem_toFinset, (mergeRuns_spec (so.sorted records)).2.1,
    ((so.perm records).map Block.cksum).mem_iff]

theorem length_mergeRuns (so : Sorter Block.cksum) (records : List Block) :
    (mergeRuns (so.sort records)).length = (records.map Block.cksum).toFinset.card := by
  rw [← mergeRuns_toFinset so, List.toFinset_card_of_nodup (mergeRuns_nodup so records),
    List.length_map]

theorem length_mergedOf (so : Sorter Block.cksum) (byCount : Sorter Block.byCount)
    (records : List Block) :
    (mergedOf so byCount records).length = (records.map Block.cksum).toFinset.card := by
  rw [← length_mergeRuns so, mergedOf, (byCount.perm _).length_eq]

theorem length_mergedOf_le (so : Sorter Block.cksum) (byCount : Sorter Block.byCount)
    (records : List Block) : (mergedOf so byCount records).length ≤ records.length := by
  have hle := List.toFinset_card_le (records.map Block.cksum)
  rwa [List.length_map, ← length_mergedOf so byCount] at hle

/-- `int(threshold * n)`. -/
def cutOf (threshold : Binary64) (n : ℕ) : ℤ := (threshold.mul (.ofNat n)).truncate

/-- The cut of `n` merged blocks is a part of them. -/
def CutFits (threshold : Binary64) (n : ℕ) : Prop := 0 ≤ cutOf threshold n ∧ cutOf threshold n ≤ n

/-- A fraction of the blocks is a part of them. -/
theorem cutFits_of_fraction (h0 : 0 ≤ threshold.val) (h1 : threshold.val ≤ 1) {n : ℕ}
    (hn : n < 2 ^ 31) : CutFits threshold n :=
  Binary64.truncate_mul_ofNat h0 h1 (hn.trans (by decide))

theorem numRecords_eq {n : ℕ} (hcut : CutFits threshold n) (hn : n < 2 ^ 31) :
    numRecords threshold n = some (cutOf threshold n).toNat := by
  obtain ⟨hpos, hle⟩ := hcut
  unfold cutOf at hpos hle
  simp only [numRecords]
  exact if_pos (by omega)

theorem CutFits.toNat_le {n : ℕ} (hcut : CutFits threshold n) : (cutOf threshold n).toNat ≤ n := by
  have := hcut.2
  omega

/-- An index overflows. -/
theorem processFile_none (so : Sorter Block.cksum) (byCount : Sorter Block.byCount)
    (hlen : 2 ^ 31 ≤ records.length) :
    processFile so byCount threshold (records.flatMap Block.save) = none := by
  unfold processFile
  rw [loader_readAll_save, if_pos hlen]

theorem processFile_eq (so : Sorter Block.cksum) (byCount : Sorter Block.byCount)
    (hlen : records.length < 2 ^ 31)
    (hcut : CutFits threshold (mergedOf so byCount records).length) :
    processFile so byCount threshold (records.flatMap Block.save) =
      some ((mergedOf so byCount records).flatMap Block.save,
        (cdsRecords so byCount threshold records).flatMap Block.save) := by
  have hmerged : sortMerged so byCount (records.flatMap Block.save) = mergedOf so byCount records := by
    unfold sortMerged
    rw [loader_readAll_save, mergedOf]
  have hnum := numRecords_eq hcut ((length_mergedOf_le so byCount records).trans_lt hlen)
  simp only [processFile, hmerged, loader_readAll_save]
  rw [if_neg hlen.not_ge]
  simp only [hnum, cdsRecords, Option.getD_some]
  exact if_neg hcut.toNat_le.not_gt

/-- The merged files of a run. -/
def mergedFiles (so : Sorter Block.cksum) (byCount : Sorter Block.byCount)
    (traces : List (List UInt8)) : List (List UInt8) :=
  (List.range 256).map fun i => (mergedOf so byCount (newRecords traces i)).flatMap Block.save

/-- The records of the CDS. -/
def cdsOf (so : Sorter Block.cksum) (byCount : Sorter Block.byCount) (threshold : Binary64)
    (traces : List (List UInt8)) : List Block :=
  (List.range 256).flatMap fun i => cdsRecords so byCount threshold (newRecords traces i)

/-- The loop indices fit: no temporary file has `2 ^ 31` blocks. -/
def FilesFit (traces : List (List UInt8)) : Prop := ∀ i < 256, (newRecords traces i).length < 2 ^ 31

/-- The cut of each file is a part of its merged blocks. -/
def CutsFit (threshold : Binary64) (traces : List (List UInt8)) : Prop :=
  ∀ i < 256, CutFits threshold ((newRecords traces i).map Block.cksum).toFinset.card

theorem CutsFit.mergedOf (hcut : CutsFit threshold traces) (so : Sorter Block.cksum)
    (byCount : Sorter Block.byCount) {i : ℕ} (hi : i < 256) :
    CutFits threshold (mergedOf so byCount (newRecords traces i)).length := by
  rw [length_mergedOf]
  exact hcut i hi

/-- A fraction cuts off a part of each file. -/
theorem FilesFit.cutsFit (hfit : FilesFit traces) (h0 : 0 ≤ threshold.val) (h1 : threshold.val ≤ 1) :
    CutsFit threshold traces := by
  intro i hi
  rw [← length_mergedOf (.merge _) (.merge _)]
  exact cutFits_of_fraction h0 h1 ((length_mergedOf_le _ _ _).trans_lt (hfit i hi))

/-- **What the generator writes**, unless a loop index overflows. -/
theorem cdsGen_eq (so : Sorter Block.cksum) (byCount : Sorter Block.byCount)
    (hcut : CutsFit threshold traces) (hfit : FilesFit traces) :
    cdsGen so byCount threshold none traces =
      some (mergedFiles so byCount traces,
        (cdsOf so byCount threshold traces).flatMap Block.save) := by
  have hfiles : ∀ i ∈ List.range 256, processFile so byCount threshold (splitFiles traces i) =
      some ((mergedOf so byCount (newRecords traces i)).flatMap Block.save,
        (cdsRecords so byCount threshold (newRecords traces i)).flatMap Block.save) := by
    intro i hi
    rw [List.mem_range] at hi
    rw [splitFiles_eq, processFile_eq so byCount (hfit i hi) (hcut.mergedOf so byCount hi)]
  simp only [cdsGen, mapM_eq_pure hfiles]
  change some _ = some _
  rw [List.map_map, List.flatMap_map, cdsOf, List.flatMap_assoc]
  rfl

/-- A run that is defined has no such file. -/
theorem cdsGen_fit {r : List (List UInt8) × List UInt8}
    (h : cdsGen so byCount threshold none traces = some r) : FilesFit traces := by
  intro i hi
  by_contra hlen
  have hnone : processFile so byCount threshold (splitFiles traces i) = none := by
    rw [splitFiles_eq, processFile_none so byCount (not_lt.1 hlen)]
  have hfiles := mapM_eq_none (f := fun i => processFile so byCount threshold (splitFiles traces i))
    (List.mem_range.2 hi) hnone
  simp only [cdsGen, hfiles] at h
  cases h

/-! ## Runs on merged files -/

theorem copyRecords_eq (bs : List Block) : ∀ num ≤ bs.length,
    copyRecords num (bs.flatMap Block.save) = some ((bs.take num).flatMap Block.save) := by
  induction bs with
  | nil =>
    intro num hnum
    rw [Nat.le_zero.1 hnum]
    rfl
  | cons b bs ih =>
    intro num hnum
    cases num with
    | zero => rfl
    | succ num =>
      have hload : Block.load ((b :: bs).flatMap Block.save) = (some b, bs.flatMap Block.save) := by
        rw [Block.load_eq_fromStream]
        exact Block.fromStream_toStream b _
      unfold copyRecords
      rw [hload]
      simp only [ih num (Nat.le_of_succ_le_succ hnum)]
      rfl

theorem length_save (bs : List Block) : (bs.flatMap Block.save).length / recordSize = bs.length := by
  have h : (bs.flatMap Block.save).length = bs.length * recordSize := by
    induction bs with
    | nil => rfl
    | cons b bs ih =>
      rw [List.flatMap_cons, List.length_append, ih, Block.save, Block.length_toStream,
        List.length_cons, Nat.succ_mul, Nat.add_comm]
  rw [h, Nat.mul_div_cancel _ (by decide)]

/-- **A later run on the merged files** writes what a first run with its cut would, whatever
traces it is given. -/
theorem cdsGen_again (hcut : CutsFit threshold traces) (hfit : FilesFit traces)
    (traces' : List (List UInt8)) :
    cdsGen so byCount threshold (some (mergedFiles so byCount traces)) traces' =
      cdsGen so byCount threshold none traces := by
  have hextract : ∀ i ∈ List.range 256,
      extractFile threshold ((mergedOf so byCount (newRecords traces i)).flatMap Block.save) =
        some ((cdsRecords so byCount threshold (newRecords traces i)).flatMap Block.save) := by
    intro i hi
    rw [List.mem_range] at hi
    have hlen := (length_mergedOf_le so byCount (newRecords traces i)).trans_lt (hfit i hi)
    have hfits := hcut.mergedOf so byCount hi
    unfold extractFile
    rw [length_save, numRecords_eq hfits hlen, cdsRecords, numRecords_eq hfits hlen, Option.getD_some]
    exact copyRecords_eq _ _ hfits.toNat_le
  rw [cdsGen_eq so byCount hcut hfit]
  simp only [cdsGen, mergedFiles, List.mapM_map, Function.comp_def,
    mapM_eq_pure hextract]
  change some _ = some _
  unfold cdsOf
  rw [List.flatMap_assoc, List.flatMap_def]

end DedupSim
