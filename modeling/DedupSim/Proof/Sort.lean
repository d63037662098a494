import DedupSim.Proof.CdsAgree
import DedupSim.Proof.FixScan
import DedupSim.Proof.OldHistogram
import DedupSim.Spec.Sort

/-!
# What sorting a log is good for

* `restores_iff`: **sorting by offset undoes sorting by checksum** if and only if no two
  records that differ have one offset.
* `scanLog_covers`: how far the log of a scan reaches, in either mode; `scan_restores`: **the
  log of a scanned file is restored.**
* `dedupSim_sorted`: **once it is sorted, the simulator reads the CDS of the generator right.**
* `histogram_iff`: **the histogram of logs that were sorted**; `scans_histogram`: **and of
  files that were scanned.**
-/

namespace DedupSim

open Tttd

variable {so : Sorter Block.cksum} {byOffset : Sorter Block.byOffset} {bs log : List Block}
  {s t : ℕ} {is : List UInt8} {sha1 : List UInt8 → Checksum}

/-! ## The sorted log -/

theorem readAll_dedupSort (so : Sorter Block.cksum) (byOffset : Sorter Block.byOffset) (r : Bool)
    (is : List UInt8) :
    Block.loader.readAll (dedupSort so byOffset r is) =
      if r then byOffset.sort (Block.loader.readAll is) else so.sort (Block.loader.readAll is) := by
  unfold dedupSort
  rw [loader_readAll_save]

/-- A file of records is given by its records. -/
theorem save_inj {log' : List Block} :
    log.flatMap Block.save = log'.flatMap Block.save ↔ log = log' := by
  refine ⟨fun h => ?_, fun h => by rw [h]⟩
  have hread := congrArg Block.loader.readAll h
  rwa [loader_readAll_save, loader_readAll_save] at hread

theorem sort_restores_iff :
    dedupSort so byOffset true (dedupSort so byOffset false (log.flatMap Block.save)) =
      log.flatMap Block.save ↔ byOffset.sort (so.sort log) = log := by
  rw [← save_inj, dedupSort, readAll_dedupSort, loader_readAll_save]
  exact Iff.rfl

/-- The order by offset is all there is to restore. -/
theorem forall_restores_iff (so : Sorter Block.cksum) :
    (∀ byOffset : Sorter Block.byOffset, byOffset.sort (so.sort log) = log) ↔
      log.Pairwise fun a b => a.byOffset < b.byOffset ∨ a = b := by
  rw [Sorter.forall_sort_eq_iff]
  exact ⟨fun h => h.2, fun h => ⟨(so.perm log).symm, h⟩⟩

/-- **When sorting by offset undoes sorting by checksum**, whatever `std::sort` does with
equal elements: the offsets ascend, and records of one offset are equal. -/
theorem restores_iff (log : List Block) :
    (∀ (so : Sorter Block.cksum) (byOffset : Sorter Block.byOffset),
      dedupSort so byOffset true (dedupSort so byOffset false (log.flatMap Block.save)) =
        log.flatMap Block.save) ↔
      log.Pairwise fun a b => a.byOffset < b.byOffset ∨ a = b := by
  constructor
  · intro h
    refine (forall_restores_iff (.merge _)).1 fun byOffset => ?_
    exact sort_restores_iff.1 (h (.merge _) byOffset)
  · intro h so byOffset
    exact sort_restores_iff.2 ((forall_restores_iff so).2 h byOffset)

/-! ## The log of a scan -/

/-- Records that lie end to end are in the order of their offsets. -/
theorem Covers.byOffset_lt (h : Covers s bs t) (ht : t ≤ 2 ^ 64) :
    (∀ b ∈ bs, s ≤ b.byOffset) ∧ bs.Pairwise fun a b => a.byOffset < b.byOffset := by
  induction h with
  | nil s => exact ⟨nofun, .nil⟩
  | @cons s t b bs hoff hpos h ih =>
    obtain ⟨hle, hlt⟩ := ih ht
    have hend := h.sizeOf_eq
    have hb : b.byOffset = s := by
      unfold Block.byOffset
      rw [hoff, UInt64.toNat_ofNat_of_lt' (by omega : s < 2 ^ 64)]
    refine ⟨?_, .cons ?_ hlt⟩
    · intro a ha
      rcases List.mem_cons.1 ha with rfl | ha
      · exact hb.ge
      · exact (Nat.le_add_right s _).trans (hle a ha)
    · intro a ha
      have := hle a ha
      omega

/-- The log of a file that one scanner has scanned. -/
def scanLog (sha1 : List UInt8 → Checksum) (sc : Scanner) (p1 p2 X : List UInt8) : List Block :=
  (scanData sha1 0 [sc] (LocalFSReader.open X true) p1 p2).scanners.flatMap Scanner.ofs

/-- The log is what the scanner writes when it is fed with the file. -/
theorem scanLog_feeds (sha1 : List UInt8 → Checksum) (sc : Scanner) (p1 p2 X : List UInt8) :
    ∃ calls, Feeds X (decide (X.length % readBufferSize ≠ 0)) 0 p1 calls ∧
      scanLog sha1 sc p1 p2 X = (sc.feed sha1 0 calls).ofs := by
  obtain ⟨calls, hf, hs⟩ := scanData_feeds sha1 0 [sc] X p1 p2
  refine ⟨calls, hf, ?_⟩
  unfold scanLog
  rw [hs, List.map_singleton, List.flatMap_singleton]

/-- In fixed mode every buffer is cut up to its end. -/
theorem scanLog_fixed (sha1 : List UInt8 → Checksum) (mem : Uninit) {kb : ℤ} (h1 : 1 ≤ kb)
    (h2 : kb ≤ 2048) (F : ℕ) (dataout : Bool) (p1 p2 X : List UInt8) :
    Covers 0 (scanLog sha1 (Scanner.new mem false kb F dataout) p1 p2 X) X.length ∧
      ∀ b ∈ scanLog sha1 (Scanner.new mem false kb F dataout) p1 p2 X, b.size.toNat < 2 ^ 31 := by
  obtain ⟨calls, hf, hlog⟩ := scanLog_feeds sha1 (Scanner.new mem false kb F dataout) p1 p2 X
  obtain ⟨havg, -⟩ := new_params mem F dataout false h1 h2
  rw [hlog]
  refine ⟨feed_fixed_covers sha1 0 hf (Scanner.new mem false kb F dataout) rfl (by omega) rfl
    (.nil 0), ?_⟩
  have hofs : ((Scanner.new mem false kb F dataout).feed sha1 0 calls).ofs = [] ++ _ :=
    feed_fixed_grid sha1 0 hf (Scanner.new mem false kb F dataout) rfl (by omega) rfl
  rw [hofs, List.nil_append]
  intro b hb
  obtain ⟨p, hp, rfl⟩ := List.mem_map.1 hb
  obtain ⟨-, hle, -⟩ := bufferGrid_bounds hp
  have hsize : (UInt32.ofNat p.2).toNat = p.2 := UInt32.toNat_ofNat_of_lt' (by omega : p.2 < 2 ^ 32)
  exact hsize.trans_lt (by omega)

/-- In variable mode the rest is flushed if the scanner sees the end. -/
theorem scanLog_variable (sha1 : List UInt8 → Checksum) (mem : Uninit) {kb : ℤ} (h1 : 1 ≤ kb)
    (h2 : kb ≤ 2048) (F : ℕ) (dataout : Bool) (p1 p2 X : List UInt8) :
    ∃ t ≤ X.length, Covers 0 (scanLog sha1 (Scanner.new mem true kb F dataout) p1 p2 X) t ∧
      (t = X.length ↔ Whole (Scanner.new mem true kb F dataout) X) ∧ (0 < t ↔ X ≠ []) ∧
      ∀ b ∈ scanLog sha1 (Scanner.new mem true kb F dataout) p1 p2 X, b.size.toNat < 2 ^ 31 := by
  obtain ⟨calls, hf, hlog⟩ := scanLog_feeds sha1 (Scanner.new mem true kb F dataout) p1 p2 X
  obtain ⟨s₀, hfresh⟩ := fresh_new mem F dataout h1 h2
  have ht1 := hfresh.tmin_pos X
  have ht2 := hfresh.tmin_le
  have hmax := (new_params mem F dataout true h1 h2).2.2.1
  have h32 : ((Scanner.new mem true kb F dataout).marks X).tmax < 2 ^ 32 :=
    UInt32.toNat_lt (Scanner.new mem true kb F dataout).tmax
  obtain ⟨t, hle, hchain, hiff, hlast⟩ :=
    hfresh.chain_end X (decide (X.length % readBufferSize ≠ 0))
  have hpos : 0 < t ↔ X ≠ [] := by
    rw [← List.length_pos_iff]
    refine ⟨fun h => h.trans_le hle, fun h => ?_⟩
    by_cases hmod : X.length % readBufferSize = 0
    · -- a full buffer has room for a block
      have hfull := Nat.le_of_dvd h (Nat.dvd_of_mod_eq_zero hmod)
      rw [Scanner.marks_tmax] at hlast
      unfold readBufferSize at hfull
      omega
    · exact (hiff.2 (.inl (decide_eq_true hmod))).symm ▸ h
  rw [hlog, (feed_scan hfresh sha1 0 hf).ofs_eq]
  refine ⟨t, hle, chain_covers sha1 0 X ht1 ht2 h32 hchain, hiff.trans (whole_iff rfl X).symm,
    hpos, ?_⟩
  intro b hb
  obtain ⟨r, hr, rfl⟩ := List.mem_map.1 hb
  have hbound := (hchain.mem_bounds ht1 ht2 hr).2.2.2.2.1
  rw [Scanner.marks_tmax] at hbound
  rw [spanRecord_size sha1 0 X (by omega)]
  omega

/-- **The log of a scan**: records of a few megabytes at most, end to end from 0 on; when they
reach the end, and that there are some. -/
theorem scanLog_covers (sha1 : List UInt8 → Checksum) (mem : Uninit) (var : Bool) {kb : ℤ}
    (h1 : 1 ≤ kb) (h2 : kb ≤ 2048) (F : ℕ) (dataout : Bool) (p1 p2 X : List UInt8) :
    ∃ t ≤ X.length, Covers 0 (scanLog sha1 (Scanner.new mem var kb F dataout) p1 p2 X) t ∧
      (t = X.length ↔ Whole (Scanner.new mem var kb F dataout) X) ∧ (0 < t ↔ X ≠ []) ∧
      ∀ b ∈ scanLog sha1 (Scanner.new mem var kb F dataout) p1 p2 X, b.size.toNat < 2 ^ 31 := by
  rcases var with - | -
  · obtain ⟨hcov, hsize⟩ := scanLog_fixed sha1 mem h1 h2 F dataout p1 p2 X
    exact ⟨X.length, le_rfl, hcov, iff_of_true rfl (.inl rfl), List.length_pos_iff, hsize⟩
  · exact scanLog_variable sha1 mem h1 h2 F dataout p1 p2 X

/-- **The log of a scanned file is restored** by the option `-r`, after it was sorted by
checksum. -/
theorem scan_restores (sha1 : List UInt8 → Checksum) (mem : Uninit) (var : Bool) {kb : ℤ}
    (h1 : 1 ≤ kb) (h2 : kb ≤ 2048) (F : ℕ) (dataout : Bool) (p1 p2 X : List UInt8)
    (hX : X.length ≤ 2 ^ 64) (so : Sorter Block.cksum) (byOffset : Sorter Block.byOffset) :
    let log := scanLog sha1 (Scanner.new mem var kb F dataout) p1 p2 X
    dedupSort so byOffset true (dedupSort so byOffset false (log.flatMap Block.save)) =
      log.flatMap Block.save := by
  intro log
  obtain ⟨t, hle, hcov, -⟩ := scanLog_covers sha1 mem var h1 h2 F dataout p1 p2 X
  have hlt := (hcov.byOffset_lt (hle.trans hX)).2
  exact sort_restores_iff.2 ((forall_restores_iff so).2 (hlt.imp .inl) byOffset)

/-- A file of three blocks. -/
theorem scan_restores_pairs :
    let log := scanLog pairsDigest (Scanner.new default true 4 2 false) [] [] pairsFile
    dedupSort (.merge _) (.merge _) true (dedupSort (.merge _) (.merge _) false
      (log.flatMap Block.save)) = log.flatMap Block.save :=
  scan_restores pairsDigest default true (by decide) (by decide) 2 false [] [] pairsFile (by decide)
    (.merge _) (.merge _)

theorem scanLog_pairs (sha1 : List UInt8 → Checksum) (p1 p2 : List UInt8) (dataout : Bool) :
    scanLog sha1 (Scanner.new default true 4 2 dataout) p1 p2 pairsFile =
      [(0, 1), (2, 3), (4, 5)].map (spanRecord sha1 0 pairsFile) := by
  obtain ⟨calls, hf, hlog⟩ := scanLog_feeds sha1 (Scanner.new default true 4 2 dataout) p1 p2 pairsFile
  obtain ⟨s₀, hfresh⟩ := fresh_new default 2 dataout (show (1 : ℤ) ≤ 4 by decide) (by decide)
  rw [hlog, (feed_scan hfresh sha1 0 hf).ofs_eq]
  exact congrArg _ (pairs_spans default dataout)

theorem scanLog_pairs_size {p1 p2 : List UInt8} {dataout : Bool} :
    ∀ b ∈ scanLog sha1 (Scanner.new default true 4 2 dataout) p1 p2 pairsFile, b.size = 2 := by
  rw [scanLog_pairs]
  simp only [List.map_cons, List.map_nil, List.forall_mem_cons]
  exact ⟨rfl, rfl, rfl, nofun⟩

/-! ## The CDS -/

/-- **Once a CDS file is sorted, the simulator reads it right**: whatever the order of its
records was, `IN_CDS` is on the blocks whose checksums occur in it. -/
theorem dedupSim_sorted (so so' : Sorter Block.cksum) (byOffset : Sorter Block.byOffset)
    (sha1 : List UInt8 → Checksum) (seg seg' : Segment) (snapshot cds : List UInt8)
    (parent : Option (List UInt8))
    (h31 : ∀ b ∈ Block.loader.readAll snapshot, b.size.toNat < 2 ^ 31) :
    FlagsRight snapshot cds
      (dedupSim so sha1 seg seg' snapshot (dedupSort so' byOffset false cds) parent) := by
  obtain ⟨hblocks, hsearch⟩ := dedupSim_inCds so sha1 seg seg' snapshot
    (dedupSort so' byOffset false cds) parent h31
  refine ⟨hblocks, fun b hb => ?_⟩
  have hread : Block.loader.readAll (dedupSort so' byOffset false cds) =
      so'.sort (Block.loader.readAll cds) := readAll_dedupSort so' byOffset false cds
  rw [hsearch b hb, hread, binarySearch_iff (so'.sorted _), ← mem_cksums]
  exact ((so'.perm _).map Block.cksum).mem_iff

/-- A CDS of two checksums in descending order. -/
theorem dedupSim_sorted_two :
    FlagsRight ([blockEnding 1].flatMap Block.save) ([blockEnding 2, blockEnding 1].flatMap Block.save)
      (dedupSim (.merge _) (fun _ => default) default default ([blockEnding 1].flatMap Block.save)
        (dedupSort (.merge _) (.merge _) false
          ([blockEnding 2, blockEnding 1].flatMap Block.save)) none) := by
  refine dedupSim_sorted (.merge _) (.merge _) (.merge _) (fun _ => default) default default _ _ none ?_
  rw [loader_readAll_save]
  intro b hb
  rw [List.mem_singleton.1 hb]
  decide

/-! ## The histogram -/

/-- Logs that are sorted one by one. -/
theorem sorted_logs (so : Sorter Block.cksum) (byOffset : Sorter Block.byOffset)
    (raw : List (List UInt8)) :
    let logs := raw.map fun is => so.sort (Block.loader.readAll is)
    raw.map (dedupSort so byOffset false) = contentsOf logs ∧
      (∀ log ∈ logs, log.Pairwise fun a b => a.cksum ≤ b.cksum) ∧
      logs.flatten.Perm (raw.flatMap Block.loader.readAll) := by
  refine ⟨?_, ?_, ?_⟩
  · rw [contentsOf, List.map_map]
    rfl
  · intro log hlog
    obtain ⟨is, -, rfl⟩ := List.mem_map.1 hlog
    exact so.sorted _
  · induction raw with
    | nil => exact .nil
    | cons is raw ih =>
      rw [List.map_cons, List.flatten_cons, List.flatMap_cons]
      exact (so.perm _).append ih

/-- What is printed of logs that were sorted. -/
theorem main_sorted (so : Sorter Block.cksum) (byOffset : Sorter Block.byOffset)
    (mem : ℕ → Stream) (tree : ℕ → ℕ) (lastBlk : Block) {raw : List (List UInt8)}
    (h2 : 2 ≤ raw.length) (hproper : ∀ b ∈ raw.flatMap Block.loader.readAll, b.Proper)
    (hsame : SizesAgree (raw.flatMap Block.loader.readAll))
    (hlen : (raw.flatMap Block.loader.readAll).length + 2 < 2 ^ 64) {n : ℕ}
    (hn : (raw.flatMap Block.loader.readAll).length < n) :
    MergeOld.main mem tree lastBlk (raw.map (dedupSort so byOffset false)) n =
      .ok (some (if raw.flatMap Block.loader.readAll = [] then MergeOld.emptyLines
        else MergeOld.histogram (raw.map Block.loader.readAll))) := by
  obtain ⟨hcontents, hsorted, hperm⟩ := sorted_logs so byOffset raw
  set logs := raw.map fun is => so.sort (Block.loader.readAll is) with hlogs
  have hflat : (logs.flatten.map Block.content).Perm
      ((raw.map Block.loader.readAll).flatten.map Block.content) := hperm.map _
  have hp : ∀ log ∈ logs, ∀ b ∈ log, b.Proper := fun log hlog b hb =>
    hproper b (hperm.subset (List.mem_flatten.2 ⟨log, hlog, hb⟩))
  have hnil : logs.flatten = [] ↔ raw.flatMap Block.loader.readAll = [] := by
    rw [← List.length_eq_zero_iff, hperm.length_eq, List.length_eq_zero_iff]
  have hcount : 2 ≤ logs.length := by rwa [hlogs, List.length_map]
  have hsizes : SizesAgree logs.flatten := MergeOld.sizesAgree_of_content hsame (hperm.map _)
  rw [← hperm.length_eq] at hlen hn
  rw [hcontents, MergeOld.main_eq mem tree lastBlk logs hcount hp hsorted hsizes hlen hn,
    MergeOld.histogram_perm hflat]
  simp only [hnil]

/-- **`dedup_merge.cpp.old` on logs that `dedup_sort` has sorted** prints the histogram of
their records, if and only if there is one. -/
theorem histogram_iff (so : Sorter Block.cksum) (byOffset : Sorter Block.byOffset)
    (mem : ℕ → Stream) (tree : ℕ → ℕ) (lastBlk : Block) (raw : List (List UInt8))
    (h2 : 2 ≤ raw.length) (hproper : ∀ b ∈ raw.flatMap Block.loader.readAll, b.Proper)
    (hsame : SizesAgree (raw.flatMap Block.loader.readAll))
    (hlen : (raw.flatMap Block.loader.readAll).length + 2 < 2 ^ 64) {fuel : ℕ}
    (hfuel : (raw.flatMap Block.loader.readAll).length < fuel) :
    MergeOld.main mem tree lastBlk (raw.map (dedupSort so byOffset false)) fuel =
        .ok (some (MergeOld.histogram (raw.map Block.loader.readAll))) ↔
      raw.flatMap Block.loader.readAll ≠ [] := by
  rw [main_sorted so byOffset mem tree lastBlk h2 hproper hsame hlen hfuel]
  by_cases h : raw.flatMap Block.loader.readAll = []
  · rw [if_pos h]
    refine iff_of_false ?_ (not_not.2 h)
    intro heq
    have hflatten : (raw.map Block.loader.readAll).flatten = [] := h
    exact MergeOld.emptyLines_ne _ hflatten (Option.some.inj (Except.ok.inj heq))
  · rw [if_neg h]
    exact iff_of_true rfl h

/-- Three unsorted logs, one of them empty. -/
def unsortedLogs : List (List UInt8) :=
  [[2, 1, 4], [], [3, 2]].map fun ns => (ns.map blockEnding).flatMap Block.save

theorem unsortedLogs_read :
    unsortedLogs.flatMap Block.loader.readAll = [2, 1, 4, 3, 2].map blockEnding := by
  unfold unsortedLogs
  rw [List.flatMap_map]
  simp only [loader_readAll_save]
  rfl

theorem histogram_iff_three :
    MergeOld.main default id default (unsortedLogs.map (dedupSort (.merge _) (.merge _) false)) 6 =
        .ok (some (MergeOld.histogram (unsortedLogs.map Block.loader.readAll))) ↔
      unsortedLogs.flatMap Block.loader.readAll ≠ [] := by
  refine histogram_iff (.merge _) (.merge _) default id default unsortedLogs (by decide) ?_ ?_ ?_ ?_
  · rw [unsortedLogs_read]
    exact proper_ending _
  · rw [unsortedLogs_read]
    unfold SizesAgree
    decide
  · rw [unsortedLogs_read]
    decide
  · rw [unsortedLogs_read]
    decide

/-- The logs of files that are scanned one by one. -/
theorem scans_sizeOf (sha1 : List UInt8 → Checksum) (mem : Uninit) (var : Bool) {kb : ℤ}
    (h1 : 1 ≤ kb) (h2 : kb ≤ 2048) (F : ℕ) (dataout : Bool) (p1 p2 : List UInt8)
    (Xs : List (List UInt8)) :
    let logs := Xs.map (scanLog sha1 (Scanner.new mem var kb F dataout) p1 p2)
    (∀ b ∈ logs.flatten, b.Proper) ∧ sizeOf logs.flatten ≤ (Xs.map List.length).sum ∧
      (sizeOf logs.flatten = (Xs.map List.length).sum ↔
        ∀ X ∈ Xs, Whole (Scanner.new mem var kb F dataout) X) ∧
      (0 < sizeOf logs.flatten ↔ ∃ X ∈ Xs, X ≠ []) := by
  intro logs
  induction Xs with
  | nil => exact ⟨nofun, le_rfl, iff_of_true rfl nofun, iff_of_false (lt_irrefl 0) nofun⟩
  | cons X Xs ih =>
    obtain ⟨hproper, hle, hall, hpos⟩ := ih
    obtain ⟨t, htle, hcov, hwhole, hne, hlt⟩ :=
      scanLog_covers sha1 mem var h1 h2 F dataout p1 p2 X
    have hX := hcov.sizeOf_eq
    rw [Nat.zero_add] at hX
    have hsum : sizeOf logs.flatten =
        t + sizeOf (Xs.map (scanLog sha1 (Scanner.new mem var kb F dataout) p1 p2)).flatten := by
      rw [← hX, ← sizeOf_append]
      rfl
    refine ⟨?_, ?_, ?_, ?_⟩
    · intro b hb
      rcases List.mem_append.1 (List.flatten_cons ▸ hb) with hb | hb
      · exact ⟨hcov.size_ne_zero b hb, hlt b hb⟩
      · exact hproper b hb
    · rw [hsum, List.map_cons, List.sum_cons]
      exact Nat.add_le_add htle hle
    · rw [List.forall_mem_cons, ← hwhole, ← hall, hsum, List.map_cons, List.sum_cons]
      omega
    · rw [List.exists_mem_cons_iff, ← hne, ← hpos, hsum]
      omega

/-- **From the files to the histogram**: two files or more are scanned, each into a log of its
own, and the logs sorted and merged. The histogram of their blocks is printed if and only if a
file is not empty, and its column of bytes adds up to the lengths of the files if and only if
each file's last block was recorded. Blocks of one checksum are of one size, as they are if
SHA-1 tells the blocks apart; the counters have 64 bits. -/
theorem scans_histogram (sha1 : List UInt8 → Checksum) (mem : Uninit) (var : Bool) {kb : ℤ}
    (h1 : 1 ≤ kb) (h2 : kb ≤ 2048) (F : ℕ) (dataout : Bool) (p1 p2 : List UInt8)
    (so : Sorter Block.cksum) (byOffset : Sorter Block.byOffset) (streams : ℕ → Stream)
    (tree : ℕ → ℕ) (lastBlk : Block) (Xs : List (List UInt8)) (htwo : 2 ≤ Xs.length)
    (htotal : (Xs.map List.length).sum + 2 < 2 ^ 64) {fuel : ℕ}
    (hfuel : (Xs.map List.length).sum < fuel)
    (hsame : SizesAgree (Xs.flatMap (scanLog sha1 (Scanner.new mem var kb F dataout) p1 p2))) :
    let logs := Xs.map (scanLog sha1 (Scanner.new mem var kb F dataout) p1 p2)
    (MergeOld.main streams tree lastBlk
        (logs.map fun log => dedupSort so byOffset false (log.flatMap Block.save)) fuel =
          .ok (some (MergeOld.histogram logs)) ↔ ∃ X ∈ Xs, X ≠ []) ∧
      (((MergeOld.histogram logs).map fun l => l.bytes.toNat).sum = (Xs.map List.length).sum ↔
        ∀ X ∈ Xs, Whole (Scanner.new mem var kb F dataout) X) := by
  intro logs
  change SizesAgree logs.flatten at hsame
  obtain ⟨hproper, hle, hall, hpos⟩ := scans_sizeOf sha1 mem var h1 h2 F dataout p1 p2 Xs
  change sizeOf logs.flatten ≤ _ at hle
  change sizeOf logs.flatten = _ ↔ _ at hall
  change 0 < sizeOf logs.flatten ↔ _ at hpos
  have hlen : logs.flatten.length ≤ sizeOf logs.flatten :=
    length_le_sizeOf fun b hb => (hproper b hb).ne_zero
  -- the files of the logs read back
  have hread : (logs.map fun log => log.flatMap Block.save).map Block.loader.readAll = logs := by
    rw [List.map_map]
    exact (List.map_congr_left fun log _ => loader_readAll_save log).trans (List.map_id _)
  have hflat : (logs.map fun log => log.flatMap Block.save).flatMap Block.loader.readAll =
      logs.flatten := by rw [List.flatMap_def, hread]
  have hrec : logs.flatten ≠ [] ↔ ∃ X ∈ Xs, X ≠ [] := by
    rw [← hpos]
    constructor
    · intro hne
      exact (List.length_pos_iff.2 hne).trans_le hlen
    · intro h hnil
      rw [hnil, sizeOf_nil] at h
      exact lt_irrefl 0 h
  have hcount : 2 ≤ (logs.map fun log => log.flatMap Block.save).length := by
    rwa [List.length_map, List.length_map]
  have hbound : logs.flatten.length + 2 < 2 ^ 64 := by omega
  have hn : logs.flatten.length < fuel := (hlen.trans hle).trans_lt hfuel
  have hbytes := MergeOld.histogram_bytes hsame (by omega)
  refine ⟨?_, ?_⟩
  · rw [← hflat] at hproper hsame hbound hn hrec
    have hrun := histogram_iff so byOffset streams tree lastBlk _ hcount hproper hsame hbound hn
    rwa [hread, List.map_map, hrec] at hrun
  · rw [hbytes]
    exact hall

/-- Two files of three blocks, of which two are equal. -/
theorem scans_histogram_pairs :
    let logs := [pairsFile, pairsFile].map
      (scanLog pairsDigest (Scanner.new default true 4 2 false) [] [])
    (MergeOld.main default id default
        (logs.map fun log => dedupSort (.merge _) (.merge _) false (log.flatMap Block.save)) 13 =
          .ok (some (MergeOld.histogram logs)) ↔ ∃ X ∈ [pairsFile, pairsFile], X ≠ []) ∧
      (((MergeOld.histogram logs).map fun l => l.bytes.toNat).sum =
          ([pairsFile, pairsFile].map List.length).sum ↔
        ∀ X ∈ [pairsFile, pairsFile], Whole (Scanner.new default true 4 2 false) X) := by
  refine scans_histogram pairsDigest default true (by decide) (by decide) 2 false [] [] (.merge _)
    (.merge _) default id default [pairsFile, pairsFile] le_rfl (by decide) (by decide) ?_
  have htwo : ∀ b ∈ [pairsFile, pairsFile].flatMap
      (scanLog pairsDigest (Scanner.new default true 4 2 false) [] []), b.size = 2 := by
    intro b hb
    obtain ⟨X, hX, hb⟩ := List.mem_flatMap.1 hb
    obtain rfl : X = pairsFile := by simpa using hX
    exact scanLog_pairs_size b hb
  intro a ha b hb _
  rw [htwo a ha, htwo b hb]

end DedupSim
