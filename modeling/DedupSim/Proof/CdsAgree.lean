import DedupSim.Proof.CdsGen
import DedupSim.Proof.Rounds

/-!
# The CDS generator and the simulator

The generator sorts each of its 256 files by count; the simulator searches the CDS as if
it were sorted by checksum.

* `dedupSim_inCds`: a block is flagged if the search finds its checksum.
* `flagged_iff_sorted`: **every flag is right if and only if the CDS is sorted.**
* `cdsAgrees_iff`: **when the CDS of the generator is**: no two checksums that the first
  byte puts into one file, and that can both be selected, are in the wrong order of counts.
-/

namespace DedupSim

variable {so : Sorter Block.cksum} {byCount : Sorter Block.byCount} {threshold : Binary64}
  {sha1 : List UInt8 → Checksum} {traces : List (List UInt8)} {records cds : List Block}

/-! ## The flag -/

/-- The blocks that the simulator writes are those of the snapshot, and `IN_CDS` is on those
whose checksums occur in the CDS file. -/
structure FlagsRight (snapshot cds output : List UInt8) : Prop where
  blocks : (Block.loader.readAll output).map Block.cksum =
    ((Block.loader.readAll snapshot).filter fun b => b.size ≠ 0).map Block.cksum
  flag : ∀ b ∈ Block.loader.readAll output, b.fileId &&& inCds ≠ 0 ↔
    b.cksum ∈ (Block.loader.readAll cds).map Block.cksum

theorem Block.Marked.flagged_iff {b : Block} (h : b.Marked) (cds : List Block) :
    (cdsLevel cds b).fileId &&& inCds ≠ 0 ↔ binarySearch Block.cksum cds b = true := by
  rw [cdsLevel_eq]
  cases binarySearch Block.cksum cds b <;> rcases h with h | h | h <;> simp [h] <;> decide

/-- **A block is flagged if the search finds its checksum.** -/
theorem dedupSim_inCds (so : Sorter Block.cksum) (sha1 : List UInt8 → Checksum) (seg seg' : Segment)
    (snapshot cds : List UInt8) (parent : Option (List UInt8))
    (h31 : ∀ b ∈ Block.loader.readAll snapshot, b.size.toNat < 2 ^ 31) :
    (Block.loader.readAll (dedupSim so sha1 seg seg' snapshot cds parent)).map Block.cksum =
        ((Block.loader.readAll snapshot).filter fun b => b.size ≠ 0).map Block.cksum ∧
      ∀ b ∈ Block.loader.readAll (dedupSim so sha1 seg seg' snapshot cds parent),
        b.fileId &&& inCds ≠ 0 ↔
          binarySearch Block.cksum (Block.loader.readAll cds) b = true := by
  obtain ⟨hmarked, hcksum⟩ := marked_marked so sha1 parent.isSome (Segment.loadAll sha1 seg snapshot)
    seg' (parent.getD [])
  unfold dedupSim
  rw [simLoop_marked, loader_readAll_save]
  rw [Block.loader_eq] at h31 ⊢
  refine ⟨?_, ?_⟩
  · have hlevel : Block.cksum ∘ cdsLevel (Block.reader.readAll cds) = Block.cksum :=
      funext (cdsLevel_cksum _)
    rw [List.map_map, hlevel, hcksum, Segment.loadAll_blocks sha1 seg h31]
  · intro b hb
    obtain ⟨a, ha, rfl⟩ := List.mem_map.1 hb
    rw [(hmarked a ha).flagged_iff, binarySearch_congr (cdsLevel_cksum _ a)]

/-- **Every flag is right if and only if the CDS is sorted**, when its checksums differ. -/
theorem flagged_iff_sorted (so : Sorter Block.cksum) (sha1 : List UInt8 → Checksum)
    (hnodup : (cds.map Block.cksum).Nodup) :
    (∀ (seg seg' : Segment) (snapshot : List UInt8) (parent : Option (List UInt8)),
      (∀ b ∈ Block.loader.readAll snapshot, b.size.toNat < 2 ^ 31) →
        FlagsRight snapshot (cds.flatMap Block.save)
          (dedupSim so sha1 seg seg' snapshot (cds.flatMap Block.save) parent)) ↔
      cds.Pairwise fun a b => a.cksum < b.cksum := by
  constructor
  · intro h
    apply sorted_of_binarySearch hnodup
    intro x hx
    -- a snapshot of one block
    set probe : Block := { x with size := 1 } with hprobe
    have hread : Block.loader.readAll probe.save = [probe] := by
      have h1 := loader_readAll_save [probe]
      rwa [List.flatMap_singleton] at h1
    have h31 : ∀ b ∈ Block.loader.readAll probe.save, b.size.toNat < 2 ^ 31 := by
      rw [hread]
      intro b hb
      rw [List.mem_singleton.1 hb]
      exact Nat.one_lt_two_pow (by decide)
    obtain ⟨hblocks, hflag⟩ := h default default probe.save none h31
    obtain ⟨-, hsearch⟩ := dedupSim_inCds so sha1 default default probe.save
      (cds.flatMap Block.save) none h31
    obtain ⟨b, hout, hb⟩ : ∃ b, Block.loader.readAll (dedupSim so sha1 default default probe.save
        (cds.flatMap Block.save) none) = [b] ∧ b.cksum = x.cksum := by
      have hone : [probe].filter (fun b => b.size ≠ 0) = [probe] := rfl
      rw [hread, hone, List.map_singleton] at hblocks
      exact List.map_eq_singleton_iff.1 hblocks
    have hmem : b ∈ Block.loader.readAll (dedupSim so sha1 default default probe.save
        (cds.flatMap Block.save) none) := by rw [hout]; exact .head _
    rw [loader_readAll_save] at hflag hsearch
    rw [← binarySearch_congr hb, ← hsearch b hmem, hflag b hmem, hb]
    exact List.mem_map_of_mem hx
  · intro hsorted seg seg' snapshot parent h31
    obtain ⟨hblocks, hsearch⟩ := dedupSim_inCds so sha1 seg seg' snapshot (cds.flatMap Block.save)
      parent h31
    refine ⟨hblocks, ?_⟩
    intro b hb
    rw [hsearch b hb, loader_readAll_save, binarySearch_iff (hsorted.imp fun h => h.le), mem_cksums]

/-! ## The order of the CDS -/

/-- The first byte is the most significant. -/
theorem Checksum.lt_of_first {a b : Checksum} (h : a.first < b.first) : a < b := by
  rw [lt_iff_memcmp]
  obtain ⟨- | ⟨x, xs⟩, ha⟩ := a
  · cases ha
  obtain ⟨- | ⟨y, ys⟩, hb⟩ := b
  · cases hb
  change x.toNat < y.toNat at h
  unfold memcmp
  rw [if_neg (by rintro rfl; exact lt_irrefl _ h)]
  omega

theorem mem_newRecords {i : ℕ} {b : Block} (h : b ∈ newRecords traces i) : b.cksum.first = i :=
  (of_decide_eq_true (List.mem_filter.1 h).2).2

theorem cdsRecords_cksum {b : Block} (h : b ∈ cdsRecords so byCount threshold records) :
    b.cksum ∈ records.map Block.cksum := by
  have hmem := (byCount.perm _).mem_iff.1 (List.mem_of_mem_take h)
  rw [← ((so.perm records).map Block.cksum).mem_iff, ← (mergeRuns_spec (so.sorted records)).2.1]
  exact List.mem_map_of_mem hmem

/-- What holds of blocks of different files holds of the CDS if it holds within each file. -/
theorem cdsOf_pairwise {R : Block → Block → Prop}
    (hR : ∀ a b : Block, a.cksum.first < b.cksum.first → R a b) :
    (cdsOf so byCount threshold traces).Pairwise R ↔
      ∀ i < 256, (cdsRecords so byCount threshold (newRecords traces i)).Pairwise R := by
  have hfirst : ∀ i, ∀ b ∈ cdsRecords so byCount threshold (newRecords traces i), b.cksum.first = i := by
    intro i b hb
    obtain ⟨a, ha, heq⟩ := List.mem_map.1 (cdsRecords_cksum hb)
    rw [← heq, mem_newRecords ha]
  unfold cdsOf
  rw [List.pairwise_flatMap]
  constructor
  · exact fun h i hi => h.1 i (List.mem_range.2 hi)
  · intro h
    refine ⟨fun i hi => h i (List.mem_range.1 hi), List.pairwise_lt_range.imp ?_⟩
    intro i j hij a ha b hb
    apply hR a b
    rw [hfirst i a ha, hfirst j b hb]
    exact hij

/-- A checksum is in the CDS once. -/
theorem cdsOf_nodup : ((cdsOf so byCount threshold traces).map Block.cksum).Nodup := by
  rw [List.Nodup, List.pairwise_map]
  refine (cdsOf_pairwise (fun a b h => ?_)).2 ?_
  · exact fun heq => h.ne (congrArg Checksum.first heq)
  · intro i _
    rw [← List.pairwise_map (f := Block.cksum) (R := fun a b => a ≠ b)]
    have hnodup := ((byCount.perm _).map Block.cksum).nodup_iff.2
      (mergeRuns_nodup so (newRecords traces i))
    exact hnodup.sublist ((List.take_sublist _ _).map _)

/-- **The order of counts may not contradict that of the checksums**: of two checksums of a
file that `sort_by_count` may put in the wrong order, the last does not come into the CDS. -/
def InOrder (threshold : Binary64) (records : List Block) : Prop :=
  let cksums := (records.map Block.cksum).toFinset
  ∀ c ∈ cksums, ∀ c' ∈ cksums, c < c' → countOf records c ≤ countOf records c' →
    (numRecords threshold cksums.card).getD 0 ≤
      {d ∈ cksums | d = c' ∨ countOf records c < countOf records d}.card

/-- **The part of a file in the CDS is sorted**, however the ties of counts are broken. -/
theorem cdsRecords_sorted_iff (so : Sorter Block.cksum) (hlen : records.length < 2 ^ 31) :
    (∀ byCount : Sorter Block.byCount,
      (cdsRecords so byCount threshold records).Pairwise fun a b => a.cksum < b.cksum) ↔
      InOrder threshold records := by
  set cksums := (records.map Block.cksum).toFinset with hcksums
  set k := (numRecords threshold cksums.card).getD 0 with hk
  set D := mergeRuns (so.sort records) with hD
  have hnodup : (D.map Block.cksum).Nodup := mergeRuns_nodup so records
  have hfin : (D.map Block.cksum).toFinset = cksums := mergeRuns_toFinset so records
  have hcount : ∀ b ∈ D, b.fileId.toNat = countOf records b.cksum :=
    mergeRuns_count so (hlen.trans (by decide))
  have hahead : ∀ a ∈ D, ∀ b,
      (D.filter fun d => ahead Block.cksum (fun b => b.fileId.toNat) a b d).length =
        {d ∈ cksums | d = b.cksum ∨ countOf records a.cksum < countOf records d}.card := by
    intro a ha b
    have hfilter : D.filter (fun d => ahead Block.cksum (fun b => b.fileId.toNat) a b d) =
        D.filter ((fun d => d = b.cksum ∨ countOf records a.cksum < countOf records d) ∘ Block.cksum) := by
      apply List.filter_congr
      intro d hd
      simp only [ahead, hcount a ha, hcount d hd, Function.comp_apply]
    rw [hfilter, ← List.length_map (f := Block.cksum), ← List.filter_map, ← hfin,
      ← List.toFinset_card_of_nodup (hnodup.filter _), List.toFinset_filter]
    simp only [decide_eq_true_eq]
  have htake : ∀ byCount : Sorter Block.byCount,
      cdsRecords so byCount threshold records = (byCount.sort D).take k := by
    intro byCount
    unfold cdsRecords
    rw [length_mergedOf, mergedOf]
  simp only [htake]
  refine (Sorter.forall_sort_iff Block.byCount D
    fun l => (l.take k).Pairwise fun a b => a.cksum < b.cksum).trans ?_
  refine (take_sorted_iff (fun b : Block => b.fileId.toNat) hnodup k).trans ?_
  constructor
  · intro h c hc c' hc' hlt hle
    rw [← hcksums, ← hfin, List.mem_toFinset, List.mem_map] at hc hc'
    obtain ⟨a, ha, rfl⟩ := hc
    obtain ⟨b, hb, rfl⟩ := hc'
    rw [← hcount a ha, ← hcount b hb] at hle
    exact (h a ha b hb hlt hle).trans_eq (hahead a ha b)
  · intro h a ha b hb hlt hle
    rw [hahead a ha b]
    rw [hcount a ha, hcount b hb] at hle
    refine h a.cksum ?_ b.cksum ?_ hlt hle
    · rw [← hcksums, ← hfin]
      exact List.mem_toFinset.2 (List.mem_map_of_mem ha)
    · rw [← hcksums, ← hfin]
      exact List.mem_toFinset.2 (List.mem_map_of_mem hb)

/-! ## Agreement -/

/-- **The generator and the simulator agree**, whatever `std::sort` does with equal elements:
a CDS file is written, and with it the flags of every snapshot are right. -/
def CdsAgrees (sha1 : List UInt8 → Checksum) (threshold : Binary64) (traces : List (List UInt8)) :
    Prop :=
  ∀ (so : Sorter Block.cksum) (byCount : Sorter Block.byCount),
    ∃ merged cds, cdsGen so byCount threshold none traces = some (merged, cds) ∧
      ∀ (seg seg' : Segment) (snapshot : List UInt8) (parent : Option (List UInt8)),
        (∀ b ∈ Block.loader.readAll snapshot, b.size.toNat < 2 ^ 31) →
          FlagsRight snapshot cds (dedupSim so sha1 seg seg' snapshot cds parent)

theorem cdsAgrees_sorted (h0 : 0 ≤ threshold.val) (h1 : threshold.val ≤ 1) (hfit : FilesFit traces) :
    CdsAgrees sha1 threshold traces ↔
      ∀ (so : Sorter Block.cksum) (byCount : Sorter Block.byCount),
        (cdsOf so byCount threshold traces).Pairwise fun a b => a.cksum < b.cksum := by
  refine forall_congr' fun so => forall_congr' fun byCount => ?_
  rw [← flagged_iff_sorted so sha1 cdsOf_nodup, cdsGen_eq so byCount (hfit.cutsFit h0 h1) hfit]
  constructor
  · rintro ⟨merged, cds, heq, h⟩
    cases heq
    exact h
  · exact fun h => ⟨_, _, rfl, h⟩

/-- The CDS of every file is sorted, if the generator and the simulator agree. -/
theorem CdsAgrees.inOrder (h : CdsAgrees sha1 threshold traces) (h0 : 0 ≤ threshold.val)
    (h1 : threshold.val ≤ 1) : FilesFit traces ∧ ∀ i < 256, InOrder threshold (newRecords traces i) := by
  obtain ⟨merged, cds, hrun, -⟩ := h (.merge _) (.merge _)
  have hfit := cdsGen_fit hrun
  refine ⟨hfit, ?_⟩
  intro i hi
  refine (cdsRecords_sorted_iff (.merge _) (hfit i hi)).1 fun byCount => ?_
  have hsorted := (cdsAgrees_sorted h0 h1 hfit).1 h (.merge _) byCount
  exact (cdsOf_pairwise fun a b => Checksum.lt_of_first).1 hsorted i hi

/-- **When the generator and the simulator agree.** `FilesFit`: the new blocks of a first byte of
the checksum are fewer than `2 ^ 31`, as the `int` that counts them overflows there and the
generator has no defined run. `InOrder`: the generator writes the blocks of a file by their counts
and the simulator searches them by checksum, so of two checksums that come into the CDS the lower
one must have the higher count. Nothing is assumed of the hash, of what `std::sort` does with
equal counts or of the traces. -/
theorem cdsAgrees_iff (sha1 : List UInt8 → Checksum) (threshold : Binary64)
    (traces : List (List UInt8)) (h0 : 0 ≤ threshold.val) (h1 : threshold.val ≤ 1) :
    CdsAgrees sha1 threshold traces ↔
      FilesFit traces ∧ ∀ i < 256, InOrder threshold (newRecords traces i) := by
  refine ⟨fun h => h.inOrder h0 h1, ?_⟩
  rintro ⟨hfit, horder⟩
  refine (cdsAgrees_sorted h0 h1 hfit).2 fun so byCount => ?_
  refine (cdsOf_pairwise fun a b => Checksum.lt_of_first).2 fun i hi => ?_
  exact (cdsRecords_sorted_iff so (hfit i hi)).2 (horder i hi) byCount

/-- One half. -/
def halfFraction : Binary64 := ⟨1 / 2, 1, -1, by norm_num, by norm_num, by norm_num⟩

theorem newRecords_ending (ns : List UInt8) (i : ℕ) :
    newRecords [(ns.map blockEnding).flatMap Block.save] i = if i = 0 then ns.map blockEnding else [] := by
  unfold newRecords
  rw [List.flatMap_cons, List.flatMap_nil, List.append_nil, loader_readAll_save]
  have hmem : ∀ b ∈ ns.map blockEnding, b.fileId = 0 ∧ b.cksum.first = 0 := by
    intro b hb
    obtain ⟨n, -, rfl⟩ := List.mem_map.1 hb
    exact ⟨rfl, rfl⟩
  split
  · rename_i hi
    refine List.filter_eq_self.2 fun b hb => ?_
    rw [hi]
    exact decide_eq_true (hmem b hb)
  · rename_i hi
    refine List.filter_eq_nil_iff.2 fun b hb h => ?_
    exact hi ((of_decide_eq_true h).2.symm.trans (hmem b hb).2)

/-- Two checksums, of which the first comes twice: half of them is the first. -/
theorem cdsAgrees_half : CdsAgrees (fun _ => default) halfFraction
    [([1, 1, 2].map blockEnding).flatMap Block.save] := by
  refine (cdsAgrees_iff _ halfFraction _ (by norm_num [halfFraction]) (by norm_num [halfFraction])).2
    ⟨?_, ?_⟩
  · intro i _
    rw [newRecords_ending]
    split <;> decide
  · intro i _
    rw [newRecords_ending]
    split
    · unfold InOrder
      decide +kernel
    · intro c hc
      cases hc

/-- Four checksums: the second comes three times and the first twice, so the half that is
selected is in the wrong order. -/
theorem not_cdsAgrees_half : ¬ CdsAgrees (fun _ => default) halfFraction
    [([2, 1, 2, 3, 1, 4, 2].map blockEnding).flatMap Block.save] := by
  intro h
  obtain ⟨-, horder⟩ := h.inOrder (by norm_num [halfFraction]) (by norm_num [halfFraction])
  have h0 := horder 0 (by decide)
  rw [newRecords_ending, if_pos rfl] at h0
  have hle := h0 (blockEnding 1).cksum (by decide) (blockEnding 2).cksum (by decide) (by decide) (by decide)
  revert hle
  decide +kernel

end DedupSim
