import DedupSim.Proof.Accounting
import DedupSim.Proof.CdsRank

/-!
# The choice of the CDS

What the simulator finds in the CDS of the generator, once its records are sorted.

* `larger_accounted`: a larger CDS moves blocks from `New` to `L3`; `fraction_accounted`: **so does
  a larger fraction.**
* `chosen_best`: **no CDS with as many checksums of each bucket finds more of the traces' new
  blocks.**
-/

namespace DedupSim

variable {so so' : Sorter Block.cksum} {byCount : Sorter Block.byCount}
  {byOffset : Sorter Block.byOffset} {sha1 : List UInt8 → Checksum} {seg old : Segment}
  {snapshot cds cds' : List UInt8} {parent : Option (List UInt8)} {bs : List Block} {b : Block}
  {t t' : Binary64} {traces : List (List UInt8)}

/-! ## A larger CDS -/

/-- The category of a block after level 3. -/
theorem Block.Marked.category (h : b.Marked) (cds : List Block) :
    (cdsLevel cds b).category =
      if b.fileId = inParent then .l1 else if b.fileId = inDirtySeg then .l2
      else if binarySearch Block.cksum cds b then .l3 else .new := by
  have hbits : ∀ f : UInt32, f = 0 ∨ f = inParent ∨ f = inDirtySeg → ∀ hit : Bool,
      categoryOf (f ||| if hit then inCds else 0) =
        if f = inParent then .l1 else if f = inDirtySeg then .l2
        else if hit then .l3 else .new := by
    rintro f (rfl | rfl | rfl) (- | -) <;> decide
  rw [← hbits b.fileId h, cdsLevel_eq]
  rfl

/-- The blocks that level 3 is given. -/
def givenBlocks (so : Sorter Block.cksum) (sha1 : List UInt8 → Checksum) (seg old : Segment)
    (snapshot : List UInt8) (parent : Option (List UInt8)) : List Block :=
  marked so sha1 parent.isSome old (parent.getD []) (Segment.loadAll sha1 seg snapshot)

theorem givenBlocks_marked : ∀ b ∈ givenBlocks so sha1 seg old snapshot parent, b.Marked :=
  (marked_marked so sha1 _ _ _ _).1

theorem givenBlocks_copied (hs : Sized snapshot) :
    (givenBlocks so sha1 seg old snapshot parent).map Block.copied =
      ((Block.loader.readAll snapshot).filter fun b => b.size ≠ 0).map Block.copied := by
  have hcopied := dedupSim_copied so sha1 seg old [] parent hs
  have hlevel : Block.copied ∘ cdsLevel (Block.loader.readAll []) = Block.copied :=
    funext (cdsLevel_copied _)
  rwa [dedupSim_readAll, List.map_map, hlevel] at hcopied

theorem tallyOf_map_cdsLevel (cds bs : List Block) :
    tallyOf (bs.map (cdsLevel cds)) = tallyOf bs := by
  apply tallyOf_copied
  rw [List.map_map]
  exact List.map_congr_left fun b _ => cdsLevel_copied cds b

/-- A counter of the report counts what the simulator was given. -/
theorem dedupSim_get (so : Sorter Block.cksum) (sha1 : List UInt8 → Checksum) (seg old : Segment)
    (snapshot cds : List UInt8) (parent : Option (List UInt8)) (c : Category) :
    (dedupAnalysis (dedupSim so sha1 seg old snapshot cds parent)).get c =
      tallyOf ((givenBlocks so sha1 seg old snapshot parent).filter fun b =>
        decide ((cdsLevel (Block.loader.readAll cds) b).category = c)) := by
  rw [dedupAnalysis_get, dedupSim_readAll]
  refine tallyOf_congr (List.forall₂_map_left_iff.2 (List.forall₂_same.2 fun b _ => ⟨rfl, ?_⟩))
  exact congrArg (fun x => x.2.1) (cdsLevel_copied _ b)

theorem sizeOf_sublist {bs bs' : List Block} (h : bs.Sublist bs') : sizeOf bs ≤ sizeOf bs' := by
  induction h with
  | slnil => exact le_rfl
  | cons b _ ih => exact ih.trans (Nat.le_add_left _ _)
  | cons_cons b _ ih => exact Nat.add_le_add_left ih _

theorem tallyOf_le {bs bs' : List Block} (h : bs.Sublist bs') (hne : ∀ b ∈ bs', b.size ≠ 0)
    (hlt : sizeOf bs' < 2 ^ 64) :
    (tallyOf bs).blocks ≤ (tallyOf bs').blocks ∧ (tallyOf bs).data ≤ (tallyOf bs').data := by
  have hlen := h.length_le
  have hsize := sizeOf_sublist h
  have hle := length_le_sizeOf hne
  have hmod : ∀ n, n < 2 ^ 64 → (UInt64.ofNat n).toNat = n :=
    fun n hn => UInt64.toNat_ofNat_of_lt' hn
  rw [UInt64.le_iff_toNat_le, UInt64.le_iff_toNat_le]
  unfold tallyOf
  rw [hmod _ (by omega), hmod _ (by omega), hmod _ (by omega), hmod _ (by omega)]
  exact ⟨hlen, hsize⟩

/-- Levels 1 and 2 do not read the CDS. -/
theorem dedupSim_get_parent (so : Sorter Block.cksum) (sha1 : List UInt8 → Checksum)
    (seg old : Segment) (snapshot cds cds' : List UInt8) (parent : Option (List UInt8))
    {c : Category} (hc : c = .l1 ∨ c = .l2) :
    (dedupAnalysis (dedupSim so sha1 seg old snapshot cds' parent)).get c =
      (dedupAnalysis (dedupSim so sha1 seg old snapshot cds parent)).get c := by
  rw [dedupSim_get, dedupSim_get]
  refine congrArg tallyOf (List.filter_congr fun b hb => ?_)
  have hmarked := givenBlocks_marked b hb
  rw [hmarked.category, hmarked.category]
  rcases hc with rfl | rfl <;> split_ifs <;> rfl

/-- What is left for `New`: blocks that no level finds. -/
def unfoundBlocks (cds : List Block) (bs : List Block) : List Block :=
  bs.filter fun b => b.fileId ≠ inParent ∧ b.fileId ≠ inDirtySeg ∧
    ¬ binarySearch Block.cksum cds b = true

theorem dedupSim_get_new (so : Sorter Block.cksum) (sha1 : List UInt8 → Checksum)
    (seg old : Segment) (snapshot cds : List UInt8) (parent : Option (List UInt8)) :
    (dedupAnalysis (dedupSim so sha1 seg old snapshot cds parent)).new =
      tallyOf (unfoundBlocks (Block.loader.readAll cds)
        (givenBlocks so sha1 seg old snapshot parent)) := by
  refine (dedupSim_get so sha1 seg old snapshot cds parent .new).trans ?_
  refine congrArg tallyOf (List.filter_congr fun b hb => ?_)
  rw [(givenBlocks_marked b hb).category]
  split_ifs <;> simp_all

/-- The total is that of the snapshot. -/
theorem dedupSim_sum (so : Sorter Block.cksum) (sha1 : List UInt8 → Checksum) (seg old : Segment)
    (snapshot cds : List UInt8) (parent : Option (List UInt8)) :
    (dedupAnalysis (dedupSim so sha1 seg old snapshot cds parent)).sum =
      tallyOf (givenBlocks so sha1 seg old snapshot parent) := by
  rw [dedupAnalysis_add, dedupAnalysis_total, dedupSim_readAll]
  exact tallyOf_map_cdsLevel _ _

/-- What a larger CDS changes in the report: blocks that were in `New` are in `L3`. -/
structure Larger (a a' : Analysis) : Prop where
  total : a'.total = a.total
  l1 : a'.l1 = a.l1
  l2 : a'.l2 = a.l2
  other : a'.other = a.other
  new_blocks : a'.new.blocks ≤ a.new.blocks
  new_data : a'.new.data ≤ a.new.data
  sum_blocks : a'.l3.blocks + a'.new.blocks = a.l3.blocks + a.new.blocks
  sum_data : a'.l3.data + a'.new.data = a.l3.data + a.new.data

/-- **A larger CDS moves blocks from `New` to `L3`**, and no others. -/
theorem larger_accounted (so : Sorter Block.cksum) (sha1 : List UInt8 → Checksum)
    (seg old : Segment) (parent : Option (List UInt8)) (hs : Sized snapshot)
    (hlt : sizeOf (Block.loader.readAll snapshot) < 2 ^ 64)
    (hsub : ∀ b, binarySearch Block.cksum (Block.loader.readAll cds) b = true →
      binarySearch Block.cksum (Block.loader.readAll cds') b = true) :
    Larger (dedupAnalysis (dedupSim so sha1 seg old snapshot cds parent))
      (dedupAnalysis (dedupSim so sha1 seg old snapshot cds' parent)) := by
  set given := givenBlocks so sha1 seg old snapshot parent with hgiven
  have hcopied : given.map Block.copied = _ := givenBlocks_copied hs
  have hbytes : sizeOf given < 2 ^ 64 := by
    rw [sizeOf_copied hcopied]
    exact (sizeOf_sublist List.filter_sublist).trans_lt hlt
  -- what the larger CDS does not find, the other does not find either
  have hfewer : (unfoundBlocks (Block.loader.readAll cds') given).Sublist
      (unfoundBlocks (Block.loader.readAll cds) given) := by
    refine List.monotone_filter_right given fun b hb => ?_
    simp only [decide_eq_true_eq] at hb ⊢
    exact ⟨hb.1, hb.2.1, fun h => hb.2.2 (hsub b h)⟩
  have hless := tallyOf_le hfewer
    (fun b hb => ne_zero_of_copied hcopied b (List.mem_filter.1 hb).1)
    ((sizeOf_sublist List.filter_sublist).trans_lt hbytes)
  rw [hgiven, ← dedupSim_get_new, ← dedupSim_get_new] at hless
  have h1 := dedupSim_get_parent so sha1 seg old snapshot cds cds' parent (c := .l1) (.inl rfl)
  have h2 := dedupSim_get_parent so sha1 seg old snapshot cds cds' parent (c := .l2) (.inr rfl)
  -- the totals are the same, so `L3` has what `New` has lost
  have htotal := (dedupSim_sum so sha1 seg old snapshot cds' parent).trans
    (dedupSim_sum so sha1 seg old snapshot cds parent).symm
  have hblocks := congrArg Tally.blocks htotal
  have hdata := congrArg Tally.data htotal
  simp only [Analysis.get] at h1 h2
  simp only [Analysis.sum, h1, h2, dedupAnalysis_other] at hblocks hdata
  rw [dedupAnalysis_add, dedupAnalysis_add] at htotal
  refine ⟨htotal, h1, h2, ?_, hless.1, hless.2, by grind, by grind⟩
  rw [dedupAnalysis_other, dedupAnalysis_other]

/-! ## A larger fraction -/

/-- A larger fraction cuts off more of each file. -/
theorem cdsRecords_sublist (so : Sorter Block.cksum) (byCount : Sorter Block.byCount)
    (h0 : 0 ≤ t.val) (ht : t.val ≤ t'.val) (h1 : t'.val ≤ 1) {records : List Block}
    (hlen : records.length < 2 ^ 31) :
    (cdsRecords so byCount t records).Sublist (cdsRecords so byCount t' records) := by
  have hmerged := (length_mergedOf_le so byCount records).trans_lt hlen
  have hfit := cutFits_of_fraction h0 (ht.trans h1) hmerged
  have hfit' := cutFits_of_fraction (h0.trans ht) h1 hmerged
  unfold cdsRecords
  rw [numRecords_eq hfit hmerged, numRecords_eq hfit' hmerged]
  exact List.take_sublist_take_left (Int.toNat_le_toNat (Binary64.truncate_mul_mono h0 ht _))

/-- **So the CDS of a smaller fraction is part of that of a larger.** -/
theorem cdsOf_subset (so : Sorter Block.cksum) (byCount : Sorter Block.byCount) (h0 : 0 ≤ t.val)
    (ht : t.val ≤ t'.val) (h1 : t'.val ≤ 1) (hfit : FilesFit traces) :
    cdsOf so byCount t traces ⊆ cdsOf so byCount t' traces := by
  intro b hb
  obtain ⟨i, hi, hmem⟩ := List.mem_flatMap.1 hb
  have hlen := hfit i (List.mem_range.1 hi)
  exact List.mem_flatMap.2 ⟨i, hi, (cdsRecords_sublist so byCount h0 ht h1 hlen).subset hmem⟩

/-- The simulator finds what is in a CDS that was sorted. -/
theorem search_sorted (so : Sorter Block.cksum) (byOffset : Sorter Block.byOffset)
    (cds : List Block) (b : Block) :
    binarySearch Block.cksum
        (Block.loader.readAll (dedupSort so byOffset false (cds.flatMap Block.save))) b = true ↔
      b.cksum ∈ cds.map Block.cksum := by
  have hread : Block.loader.readAll (dedupSort so byOffset false (cds.flatMap Block.save)) =
      so.sort cds := by
    rw [readAll_dedupSort, loader_readAll_save]
    rfl
  rw [hread, binarySearch_iff (so.sorted cds), ← mem_cksums]
  exact ((so.perm cds).map Block.cksum).mem_iff

/-- **A larger fraction moves blocks from `New` to `L3`**, and no others, once the records of
the CDS are sorted. No bucket of the generator may have more records than its `int` counts, and the
snapshot's bytes are counted in 64 bits. -/
theorem fraction_accounted (so : Sorter Block.cksum) (byCount : Sorter Block.byCount)
    (byOffset : Sorter Block.byOffset) (sha1 : List UInt8 → Checksum) (seg old : Segment)
    (traces : List (List UInt8)) (parent : Option (List UInt8)) (h0 : 0 ≤ t.val)
    (ht : t.val ≤ t'.val) (h1 : t'.val ≤ 1) (hfit : FilesFit traces) (hs : Sized snapshot)
    (hlt : sizeOf (Block.loader.readAll snapshot) < 2 ^ 64) :
    ∃ merged cds merged' cds', cdsGen so byCount t none traces = some (merged, cds) ∧
      cdsGen so byCount t' none traces = some (merged', cds') ∧
      Larger
        (dedupAnalysis
          (dedupSim so sha1 seg old snapshot (dedupSort so byOffset false cds) parent))
        (dedupAnalysis
          (dedupSim so sha1 seg old snapshot (dedupSort so byOffset false cds') parent)) := by
  refine ⟨_, _, _, _, cdsGen_eq so byCount (hfit.cutsFit h0 (ht.trans h1)) hfit,
    cdsGen_eq so byCount (hfit.cutsFit (h0.trans ht) h1) hfit,
    larger_accounted so sha1 seg old parent hs hlt fun b => ?_⟩
  rw [search_sorted, search_sorted]
  exact fun hb => List.map_subset _ (cdsOf_subset so byCount h0 ht h1 hfit) hb

/-- The trace of three blocks, of which two are alike. -/
def threeTrace : List UInt8 := ([1, 2, 2].map blockEnding).flatMap Block.save

theorem readAll_threeTrace : Block.loader.readAll threeTrace = [1, 2, 2].map blockEnding :=
  loader_readAll_save _

theorem sized_threeTrace : Sized threeTrace := by
  unfold Sized
  rw [readAll_threeTrace]
  decide

/-- One half of the checksums, and all of them. -/
theorem fraction_accounted_three :
    ∃ merged cds merged' cds',
      cdsGen (.merge Block.cksum) (.merge Block.byCount) halfFraction none [threeTrace] =
        some (merged, cds) ∧
      cdsGen (.merge Block.cksum) (.merge Block.byCount) wholeFraction none [threeTrace] =
        some (merged', cds') ∧
      Larger
        (dedupAnalysis (dedupSim (.merge Block.cksum) segmentDigest default default threeTrace
          (dedupSort (.merge Block.cksum) (.merge Block.byOffset) false cds) none))
        (dedupAnalysis (dedupSim (.merge Block.cksum) segmentDigest default default threeTrace
          (dedupSort (.merge Block.cksum) (.merge Block.byOffset) false cds') none)) :=
  fraction_accounted (.merge Block.cksum) (.merge Block.byCount) (.merge Block.byOffset)
    segmentDigest default default [threeTrace] none (by norm_num [halfFraction])
    (by norm_num [halfFraction, wholeFraction]) (by norm_num [wholeFraction]) filesFit_three
    sized_threeTrace (by rw [readAll_threeTrace]; decide)

/-! ## The best CDS -/

/-- The new blocks of the traces. -/
def newBlocks (traces : List (List UInt8)) : List Block :=
  (traces.flatMap Block.loader.readAll).filter fun b => b.fileId = 0

theorem length_filter_mem (S : Finset Checksum) (records : List Block) :
    (records.filter fun b => decide (b.cksum ∈ S)).length = ∑ c ∈ S, countOf records c := by
  induction records with
  | nil => simp [countOf]
  | cons b records ih =>
    have hcount : ∀ c, countOf (b :: records) c =
        countOf records c + if b.cksum = c then 1 else 0 := by
      intro c
      unfold countOf
      rw [List.map_cons, List.count_cons]
      simp only [beq_iff_eq]
    simp only [hcount, Finset.sum_add_distrib, Finset.sum_ite_eq, ← ih]
    by_cases hb : b.cksum ∈ S
    · rw [List.filter_cons_of_pos (by exact decide_eq_true hb), if_pos hb, List.length_cons]
    · rw [List.filter_cons_of_neg (by exact fun h => hb (of_decide_eq_true h)), if_neg hb,
        Nat.add_zero]

/-- The checksums of `S` that begin with `i`. -/
def bucket (S : Finset Checksum) (i : ℕ) : Finset Checksum := S.filter fun c => c.first = i

theorem Checksum.first_lt (c : Checksum) : c.first < 256 := UInt8.toNat_lt _

/-- Blocks in the order of their buckets. -/
theorem buckets_perm (bs : List Block) :
    ((List.range 256).flatMap fun i => bs.filter fun b => decide (b.cksum.first = i)).Perm bs :=
  group_perm _ List.nodup_range fun b _ => List.mem_range.2 b.cksum.first_lt

/-- **What a CDS finds of the new blocks**, bucket by bucket. -/
theorem length_found (S : Finset Checksum) (traces : List (List UInt8)) :
    ((newBlocks traces).filter fun b => decide (b.cksum ∈ S)).length =
      ((List.range 256).map fun i => ∑ c ∈ bucket S i, countOf (newRecords traces i) c).sum := by
  have hperm := buckets_perm ((newBlocks traces).filter fun b => decide (b.cksum ∈ S))
  rw [← hperm.length_eq, List.length_flatMap]
  refine congrArg List.sum (List.map_congr_left fun i _ => ?_)
  rw [← length_filter_mem]
  unfold newBlocks newRecords
  simp only [List.filter_filter]
  refine congrArg List.length (List.filter_congr fun b _ => ?_)
  unfold bucket
  simp only [Finset.mem_filter]
  grind

/-- The new blocks of traces whose files fit can be counted. -/
theorem newBlocks_lt (hfit : FilesFit traces) : (newBlocks traces).length < 2 ^ 64 := by
  have hperm := buckets_perm (newBlocks traces)
  have hle : ∀ i ∈ List.range 256,
      ((newBlocks traces).filter fun b => decide (b.cksum.first = i)).length ≤ 2 ^ 31 := by
    intro i hi
    have hrecords : ((newBlocks traces).filter fun b => decide (b.cksum.first = i)) =
        newRecords traces i := by
      unfold newBlocks newRecords
      rw [List.filter_filter]
      exact List.filter_congr fun b _ => by grind
    rw [hrecords]
    exact (hfit i (List.mem_range.1 hi)).le
  have hsum := List.sum_le_card_nsmul ((List.range 256).map fun i =>
    ((newBlocks traces).filter fun b => decide (b.cksum.first = i)).length) (2 ^ 31)
    (List.forall_mem_map.2 hle)
  rw [← hperm.length_eq, List.length_flatMap]
  rw [List.length_map, List.length_range] at hsum
  exact hsum.trans_lt (by decide)

/-- **The generator's choice in a bucket finds most.** -/
theorem cdsRecords_best (so : Sorter Block.cksum) (byCount : Sorter Block.byCount) (t : Binary64)
    {records : List Block} (hlen : records.length < 2 ^ 32) {T : Finset Checksum}
    (hT : T.card ≤ (cdsRecords so byCount t records).length) :
    ∑ c ∈ T, countOf records c ≤
      ∑ c ∈ ((cdsRecords so byCount t records).map Block.cksum).toFinset, countOf records c := by
  have hcounts := mergedOf_counts so byCount hlen
  have hnodup : ((cdsRecords so byCount t records).map Block.cksum).Nodup :=
    hcounts.nodup.sublist ((List.take_sublist _ _).map _)
  refine sum_le_of_ranked (fun a ha c hc => ?_) ?_
  · rw [List.mem_toFinset] at ha hc
    by_cases hin : c ∈ records.map Block.cksum
    · exact hcounts.le_of_take ha hin hc
    · rw [countOf, List.count_eq_zero.2 hin]
      exact Nat.zero_le _
  · rwa [List.toFinset_card_of_nodup hnodup, List.length_map]

/-- The records of the CDS that begin with `i`. -/
theorem cdsOf_bucket (so : Sorter Block.cksum) (byCount : Sorter Block.byCount) (t : Binary64)
    (traces : List (List UInt8)) {i : ℕ} (hi : i < 256) :
    ((cdsOf so byCount t traces).filter fun b => decide (b.cksum.first = i)) =
      cdsRecords so byCount t (newRecords traces i) := by
  have hfirst : ∀ j, ∀ b ∈ cdsRecords so byCount t (newRecords traces j), b.cksum.first = j := by
    intro j b hb
    obtain ⟨a, ha, heq⟩ := List.mem_map.1 (cdsRecords_cksum hb)
    rw [← heq, mem_newRecords ha]
  have hnodup : ((List.range 256).map id).Nodup := by
    rw [List.map_id]
    exact List.nodup_range
  rw [← flatMap_ite_key hnodup (List.mem_range.2 hi) fun j =>
    cdsRecords so byCount t (newRecords traces j), cdsOf, List.filter_flatMap, List.flatMap_def,
    List.flatMap_def]
  refine congrArg List.flatten (List.map_congr_left fun j _ => ?_)
  simp only [id_eq]
  split
  · rename_i hij
    subst hij
    exact List.filter_eq_self.2 fun b hb => decide_eq_true (hfirst i b hb)
  · rename_i hij
    refine List.filter_eq_nil_iff.2 fun b hb h => ?_
    exact hij ((of_decide_eq_true h).symm.trans (hfirst j b hb))

/-- Without a parent, level 3 is given blocks without flags. -/
theorem marked_alone (so : Sorter Block.cksum) (sha1 : List UInt8 → Checksum)
    (segs : List Segment) : ∀ (p : Segment) (is : List UInt8),
      ∀ b ∈ marked so sha1 false p is segs, b.fileId = 0 := by
  induction segs with
  | nil => exact fun _ _ b hb => absurd hb List.not_mem_nil
  | cons current segs ih =>
    intro p is b hb
    unfold marked at hb
    rcases List.mem_append.1 hb with hb | hb
    · simp only [parentLevels, Segment.mapBlocks, Bool.false_eq_true, false_and, if_false] at hb
      obtain ⟨a, -, rfl⟩ := List.mem_map.1 hb
      rfl
    · exact ih _ _ b hb

/-- **The blocks of `L3` without a parent** are those that the search finds. -/
theorem l3_alone (so : Sorter Block.cksum) (sha1 : List UInt8 → Checksum) (seg old : Segment)
    (hs : Sized snapshot) {S : Finset Checksum}
    (hS : ∀ b, binarySearch Block.cksum (Block.loader.readAll cds) b = true ↔ b.cksum ∈ S)
    (hsnap : (checksums snapshot).Perm ((newBlocks traces).map Block.cksum)) :
    (dedupAnalysis (dedupSim so sha1 seg old snapshot cds none)).l3.blocks =
      .ofNat ((newBlocks traces).filter fun b => decide (b.cksum ∈ S)).length := by
  have hget := congrArg Tally.blocks (dedupSim_get so sha1 seg old snapshot cds none .l3)
  refine hget.trans (congrArg UInt64.ofNat ?_)
  set given := givenBlocks so sha1 seg old snapshot none
  have hfilter : (given.filter fun b =>
      decide ((cdsLevel (Block.loader.readAll cds) b).category = .l3)) =
        given.filter ((fun c => decide (c ∈ S)) ∘ Block.cksum) := by
    refine List.filter_congr fun b hb => decide_eq_decide.2 ?_
    have h0 : b.fileId = 0 := marked_alone so sha1 _ _ _ b hb
    rw [(givenBlocks_marked b hb).category, h0, if_neg (by decide), if_neg (by decide), ← hS]
    split <;> simp_all
  have hcksum : given.map Block.cksum = checksums snapshot := by
    have hcopied : given.map Block.copied = _ := givenBlocks_copied hs
    have h := congrArg (List.map Prod.fst) hcopied
    rwa [List.map_map, List.map_map] at h
  rw [hfilter, ← List.length_map (f := Block.cksum), ← List.filter_map, hcksum,
    (hsnap.filter _).length_eq, List.filter_map, List.length_map]
  rfl

end DedupSim
