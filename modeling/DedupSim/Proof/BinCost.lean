import DedupSim.Lib.StoreOnce
import DedupSim.Proof.BinStats
import DedupSim.Proof.CdsAgree

/-!
# What extreme binning stores

The bytes that the bins of all files keep of logs, beside those of the distinct blocks.

* `ebStored_eq`: they are a sum over the min-hashes, and over the checksums of each.
* `ebStored_exact`: **never less than the distinct blocks have, and as much if and only if no
  checksum is in segments of two min-hashes.**
* `ebStored_again`: **logs that were binned before add nothing.**
-/

namespace DedupSim

variable {sha1 : List UInt8 → Checksum} {so : Sorter Block.cksum} {bs reps records : List Block}
  {b : Block} {c : Checksum} {segs segs' : List Segment} {seg seg' : Segment}
  {logs : List (List Block)} {parts : ℕ → OrderedMap String Bin × Summary}
  {summaries : List Summary}

/-! ## Distinct bytes -/

/-- The size of the blocks of a checksum. -/
def sizeOfCksum (records : List Block) (c : Checksum) : ℕ :=
  match records.find? fun b => decide (b.cksum = c) with
  | none => 0
  | some b => b.size.toNat

theorem sizeOfCksum_eq (hsame : SizesAgree records) (hb : b ∈ records) :
    sizeOfCksum records b.cksum = b.size.toNat := by
  unfold sizeOfCksum
  split
  · rename_i hnone
    exact absurd (decide_eq_true rfl) (List.find?_eq_none.1 hnone b hb)
  · rename_i a hsome
    have ha := List.mem_of_find?_eq_some hsome
    have hcksum := List.find?_some (p := fun a : Block => decide (a.cksum = b.cksum)) hsome
    exact congrArg UInt32.toNat (hsame a ha b hb (of_decide_eq_true hcksum))

/-- The checksums of blocks. -/
def cksumsOf (bs : List Block) : Finset Checksum := (bs.map Block.cksum).toFinset

theorem mem_cksumsOf : c ∈ cksumsOf bs ↔ ∃ b ∈ bs, b.cksum = c := by
  unfold cksumsOf
  rw [List.mem_toFinset, List.mem_map]

/-- The bytes of blocks of which one stands for each checksum. -/
theorem Representatives.sizeOf_sum (h : Representatives reps bs) (hsub : bs ⊆ records)
    (hsame : SizesAgree records) : sizeOf reps = ∑ c ∈ cksumsOf bs, sizeOfCksum records c := by
  have hset : cksumsOf bs = (reps.map Block.cksum).toFinset := by
    ext c
    rw [mem_cksumsOf, List.mem_toFinset]
    constructor
    · rintro ⟨b, hb, rfl⟩
      exact h.all b hb
    · intro hc
      obtain ⟨b, hb, rfl⟩ := List.mem_map.1 hc
      exact ⟨b, h.mem b hb, rfl⟩
  rw [hset, List.sum_toFinset _ h.nodup, List.map_map]
  exact congrArg List.sum (List.map_congr_left fun b hb =>
    (sizeOfCksum_eq hsame (hsub (h.mem b hb))).symm)

/-! ## The bins -/

/-- The keys of segments. -/
def keysOf (segs : List Segment) : Finset String :=
  (segs.map fun s => s.getMinHash.toString).toFinset

/-- The blocks of the segments of a key. -/
def binBlocks (segs : List Segment) (key : String) : List Block :=
  (membersOf segs key).flatMap Segment.blocklist

/-- The bins of all files. -/
def allBins (parts : ℕ → OrderedMap String Bin × Summary) : List (String × Bin) :=
  (List.range 256).flatMap fun i => (parts i).1.entries

theorem mem_keysOf {key : String} : key ∈ keysOf segs ↔ membersOf segs key ≠ [] := by
  unfold keysOf membersOf
  rw [List.mem_toFinset, List.mem_map, Ne, List.filter_eq_nil_iff]
  push Not
  exact exists_congr fun s => and_congr_right fun _ => decide_eq_true_iff.symm

theorem mem_binBlocks {key : String} :
    b ∈ binBlocks segs key ↔ ∃ s ∈ segs, s.getMinHash.toString = key ∧ b ∈ s.blocklist := by
  unfold binBlocks membersOf
  rw [List.mem_flatMap]
  constructor
  · rintro ⟨s, hs, hb⟩
    obtain ⟨hs, hkey⟩ := List.mem_filter.1 hs
    exact ⟨s, hs, of_decide_eq_true hkey, hb⟩
  · rintro ⟨s, hs, hkey, hb⟩
    exact ⟨s, List.mem_filter.2 ⟨hs, decide_eq_true hkey⟩, hb⟩

theorem BinsExact.mem_allBins (h : BinsExact segs records parts summaries) {it : String × Bin} :
    it ∈ allBins parts ↔ it ∈ (binsOf segs).entries := by
  unfold allBins
  rw [List.mem_flatMap, h.grouped]
  exact exists_congr fun i => and_congr_left fun _ => List.mem_range

/-- The blocks of a bin are those of its key. -/
theorem BinsExact.blocklist (h : BinsExact segs records parts summaries) {it : String × Bin}
    (hit : it ∈ allBins parts) : it.2.blocklist = binBlocks segs it.1 := by
  rw [(mem_binsOf.1 (h.mem_allBins.1 hit)).2, addSegments_blocklist]
  rfl

/-- **No key is in two files, or in one twice.** -/
theorem BinsExact.nodup_keys (h : BinsExact segs records parts summaries) :
    ((allBins parts).map Prod.fst).Nodup := by
  unfold allBins
  rw [List.map_flatMap, List.nodup_flatMap]
  refine ⟨fun i _ => (parts i).1.nodup_keys, ?_⟩
  refine List.nodup_range.imp_of_mem ?_
  intro i j hi hj hij key hki hkj
  obtain ⟨it, hit, rfl⟩ := List.mem_map.1 hki
  obtain ⟨jt, hjt, hkey⟩ := List.mem_map.1 hkj
  exact hij (h.keys i (List.mem_range.1 hi) j (List.mem_range.1 hj) it hit jt hjt hkey.symm)

theorem BinsExact.keys_eq (h : BinsExact segs records parts summaries) :
    ((allBins parts).map Prod.fst).toFinset = keysOf segs := by
  ext key
  rw [List.mem_toFinset, List.mem_map, mem_keysOf]
  constructor
  · rintro ⟨it, hit, rfl⟩
    exact (mem_binsOf.1 (h.mem_allBins.1 hit)).1
  · intro hne
    have hbin : (key, (membersOf segs key).foldl Bin.addSegment Bin.new) ∈ (binsOf segs).entries :=
      mem_binsOf.2 ⟨hne, rfl⟩
    exact ⟨_, h.mem_allBins.2 hbin, rfl⟩

/-- The checksums of all keys are those of the records. -/
theorem BinsExact.cksums (h : BinsExact segs records parts summaries) :
    ((keysOf segs).biUnion fun key => cksumsOf (binBlocks segs key)) = cksumsOf records := by
  have hblocks : ∀ b, b ∈ records ↔ ∃ it ∈ allBins parts, b ∈ binBlocks segs it.1 := by
    intro b
    rw [← h.blocks.mem_iff, ← List.flatMap_assoc, List.mem_flatMap]
    constructor
    · rintro ⟨it, hit, hb⟩
      exact ⟨it, hit, h.blocklist hit ▸ hb⟩
    · rintro ⟨it, hit, hb⟩
      exact ⟨it, hit, (h.blocklist hit).symm ▸ hb⟩
  ext c
  rw [Finset.mem_biUnion, mem_cksumsOf, ← h.keys_eq]
  constructor
  · rintro ⟨key, hkey, hc⟩
    obtain ⟨it, hit, rfl⟩ := List.mem_map.1 (List.mem_toFinset.1 hkey)
    obtain ⟨b, hb, rfl⟩ := mem_cksumsOf.1 hc
    exact ⟨b, (hblocks b).2 ⟨it, hit, hb⟩, rfl⟩
  · rintro ⟨b, hb, rfl⟩
    obtain ⟨it, hit, hb⟩ := (hblocks b).1 hb
    exact ⟨it.1, List.mem_toFinset.2 (List.mem_map_of_mem hit), mem_cksumsOf.2 ⟨b, hb, rfl⟩⟩

/-! ## What they keep -/

/-- The bytes that are left in the bins of all files. `none` stands for a run that does not
return. -/
def ebStored (sha1 : List UInt8 → Checksum) (so : Sorter Block.cksum) (seg : Segment)
    (dir : OutputDir) : Option ℕ := do
  let runs ← (List.range 256).mapM fun i => ebDedup sha1 so seg (dir i)
  return (runs.flatMap fun run => run.2.map fun it => it.2.dedupSize.toNat).sum

/-- The bytes that a bin keeps. -/
def binBytes (records bs : List Block) : ℕ := ∑ c ∈ cksumsOf bs, sizeOfCksum records c

theorem deduplication_bytes (so : Sorter Block.cksum) (hsame : SizesAgree records) {bin : Bin}
    (hsub : bin.blocklist ⊆ records) (hzero : ∀ b ∈ records, b.size ≠ 0)
    (hfit : sizeOf bin.blocklist < 2 ^ 32) :
    ∃ bin', bin.deduplication so = some bin' ∧
      bin'.dedupSize.toNat = binBytes records bin.blocklist := by
  have hlen := length_le_sizeOf fun b hb => hzero b (hsub hb)
  obtain ⟨bin', reps, hok, hreps, hle, -, hdedup⟩ := deduplication_ok so bin (hlen.trans_lt hfit)
  refine ⟨bin', hok, ?_⟩
  rw [hdedup, Nat.mod_eq_of_lt (hle.trans_lt hfit)]
  exact hreps.sizeOf_sum hsub hsame

/-- The bins of a file, each deduplicated. -/
theorem dedupBins_bytes (so : Sorter Block.cksum) (hsame : SizesAgree records)
    (hzero : ∀ b ∈ records, b.size ≠ 0) {its : List (String × Bin)}
    (hits : ∀ it ∈ its, it.2.blocklist ⊆ records ∧ sizeOf it.2.blocklist < 2 ^ 32) :
    ∃ outs, dedupBins so its = some outs ∧
      outs.map (fun it => it.2.dedupSize.toNat) =
        its.map fun it => binBytes records it.2.blocklist := by
  induction its with
  | nil => exact ⟨[], rfl, rfl⟩
  | cons it its ih =>
    obtain ⟨hsub, hfit⟩ := hits it (.head _)
    obtain ⟨bin', hbin, hbytes⟩ := deduplication_bytes so hsame hsub hzero hfit
    obtain ⟨outs, houts, hmap⟩ := ih fun jt hjt => hits jt (.tail _ hjt)
    refine ⟨(it.1, bin') :: outs, ?_, ?_⟩
    · simp only [dedupBins, hbin, houts]
      rfl
    · rw [List.map_cons, List.map_cons, hmap, hbytes]

/-- **What the bins keep** is a sum over the min-hashes, and over the checksums of each. -/
theorem ebStored_eq {dir : OutputDir} (so : Sorter Block.cksum)
    (h : BinsExact segs records (fun i => ebBins sha1 seg (dir i)) summaries)
    (hsame : SizesAgree records) (hzero : ∀ b ∈ records, b.size ≠ 0)
    (hfit : ∀ key, sizeOf (binBlocks segs key) < 2 ^ 32) :
    ebStored sha1 so seg dir =
      some (∑ key ∈ keysOf segs, binBytes records (binBlocks segs key)) := by
  have hbins : ∀ it ∈ allBins fun i => ebBins sha1 seg (dir i),
      it.2.blocklist ⊆ records ∧ sizeOf it.2.blocklist < 2 ^ 32 := by
    intro it hit
    refine ⟨?_, ?_⟩
    · intro b hb
      rw [← h.blocks.mem_iff, ← List.flatMap_assoc]
      exact List.mem_flatMap.2 ⟨it, hit, hb⟩
    · rw [h.blocklist hit]
      exact hfit it.1
  have hfile : ∀ i ∈ List.range 256, ∃ outs, ebDedup sha1 so seg (dir i) =
        some ((ebBins sha1 seg (dir i)).2, outs) ∧
      outs.map (fun it => it.2.dedupSize.toNat) =
        (ebBins sha1 seg (dir i)).1.entries.map fun it => binBytes records it.2.blocklist := by
    intro i hi
    obtain ⟨outs, houts, hmap⟩ := dedupBins_bytes so hsame hzero
      fun it hit => hbins it (List.mem_flatMap.2 ⟨i, hi, hit⟩)
    exact ⟨outs, by simp only [ebDedup, houts]; rfl, hmap⟩
  -- the files do not share a bin, so their sums are one over the min-hashes
  choose! outs houts hmap using hfile
  have hsum : ((allBins fun i => ebBins sha1 seg (dir i)).map fun it =>
        binBytes records it.2.blocklist).sum =
      ∑ key ∈ keysOf segs, binBytes records (binBlocks segs key) := by
    rw [← h.keys_eq, List.sum_toFinset _ h.nodup_keys, List.map_map]
    refine congrArg List.sum (List.map_congr_left ?_)
    intro it hit
    rw [h.blocklist hit]
    rfl
  simp only [ebStored, mapM_eq_pure houts]
  rw [← hsum, allBins, List.map_flatMap, List.flatMap_congr fun i hi => (hmap i hi).symm]
  change some _ = some _
  rw [List.flatMap_map]

/-- A bin keeps no more than it was given. -/
theorem binBytes_le (hsame : SizesAgree records) (hsub : bs ⊆ records) :
    binBytes records bs ≤ sizeOf bs := by
  have hreps := representatives_sort (.merge Block.cksum) bs
  have hle := distinctBlocks_le ((Sorter.merge Block.cksum).sort bs)
  rw [sizeOf_perm ((Sorter.merge Block.cksum).perm bs), hreps.sizeOf_sum hsub hsame] at hle
  exact hle

theorem binBlocks_subset (h : BinsExact segs records parts summaries) (key : String) :
    binBlocks segs key ⊆ records := by
  intro b hb
  obtain ⟨s, hs, rfl, hbs⟩ := mem_binBlocks.1 hb
  have hkey : s.getMinHash.toString ∈ keysOf segs :=
    List.mem_toFinset.2 (List.mem_map_of_mem (f := fun s => s.getMinHash.toString) hs)
  rw [← h.keys_eq] at hkey
  obtain ⟨it, hit, heq⟩ := List.mem_map.1 (List.mem_toFinset.1 hkey)
  rw [← h.blocks.mem_iff, ← List.flatMap_assoc]
  refine List.mem_flatMap.2 ⟨it, hit, ?_⟩
  rw [h.blocklist hit, heq]
  exact hb

theorem binBlocks_sum (h : BinsExact segs records parts summaries) :
    ∑ key ∈ keysOf segs, sizeOf (binBlocks segs key) = sizeOf records := by
  have hblocks := h.blocks
  rw [← List.flatMap_assoc] at hblocks
  change ((allBins parts).flatMap fun it => it.2.blocklist).Perm records at hblocks
  rw [← h.keys_eq, List.sum_toFinset _ h.nodup_keys, List.map_map, ← sizeOf_perm hblocks,
    List.flatMap_congr fun it hit => h.blocklist hit]
  generalize allBins parts = its
  induction its with
  | nil => rfl
  | cons it its ih =>
    rw [List.map_cons, List.sum_cons, List.flatMap_cons, sizeOf_append, ih]
    rfl

/-- Bins share no checksum if and only if segments of two min-hashes do not. -/
theorem disjoint_keys_iff (segs : List Segment) :
    (∀ key ∈ keysOf segs, ∀ key' ∈ keysOf segs, ∀ c, c ∈ cksumsOf (binBlocks segs key) →
        c ∈ cksumsOf (binBlocks segs key') → key = key') ↔
      ∀ s ∈ segs, ∀ t ∈ segs, ∀ c, c ∈ cksumsOf s.blocklist → c ∈ cksumsOf t.blocklist →
        s.getMinHash = t.getMinHash := by
  constructor
  · intro hkeys s hs t ht c hcs hct
    have hkey : ∀ u ∈ segs, u.getMinHash.toString ∈ keysOf segs := fun u hu =>
      List.mem_toFinset.2 (List.mem_map_of_mem (f := fun s => s.getMinHash.toString) hu)
    have hmem : ∀ u ∈ segs, c ∈ cksumsOf u.blocklist →
        c ∈ cksumsOf (binBlocks segs u.getMinHash.toString) := by
      intro u hu hc
      obtain ⟨b, hb, rfl⟩ := mem_cksumsOf.1 hc
      exact mem_cksumsOf.2 ⟨b, mem_binBlocks.2 ⟨u, hu, rfl, hb⟩, rfl⟩
    -- a key tells its min-hash
    exact Checksum.toString_injective
      (hkeys _ (hkey s hs) _ (hkey t ht) c (hmem s hs hcs) (hmem t ht hct))
  · intro hmin key _ key' _ c hc hc'
    obtain ⟨b, hb, hcksum⟩ := mem_cksumsOf.1 hc
    obtain ⟨b', hb', hcksum'⟩ := mem_cksumsOf.1 hc'
    obtain ⟨s, hs, hkey, hbs⟩ := mem_binBlocks.1 hb
    obtain ⟨t, ht, hkey', hbt⟩ := mem_binBlocks.1 hb'
    rw [← hkey, ← hkey', hmin s hs t ht c (mem_cksumsOf.2 ⟨b, hbs, hcksum⟩)
      (mem_cksumsOf.2 ⟨b', hbt, hcksum'⟩)]

/-! ## Logs -/

/-- The segments of logs of whole records. -/
def logSegments (sha1 : List UInt8 → Checksum) (seg : Segment) (logs : List (List Block)) :
    List Segment :=
  logs.flatMap fun log => Segment.loadAll sha1 seg (log.flatMap Block.toStream)

/-- The files after `eb_segment` of the logs, one after another. -/
def binDir (sha1 : List UInt8 → Checksum) (seg : Segment) (logs : List (List Block)) : OutputDir :=
  (ebSegments sha1 seg (fun _ => []) (logs.map fun log => log.flatMap Block.toStream)).1

/-- The records that are not empty. -/
def recordsOf (logs : List (List Block)) : List Block := logs.flatten.filter fun b => b.size ≠ 0

theorem recordsOf_sizesAgree (hsame : SizesAgree logs.flatten) : SizesAgree (recordsOf logs) :=
  fun a ha b hb => hsame a (List.mem_filter.1 ha).1 b (List.mem_filter.1 hb).1

theorem recordsOf_ne_zero : ∀ b ∈ recordsOf logs, b.size ≠ 0 :=
  fun _ hb => of_decide_eq_true (List.mem_filter.1 hb).2

theorem logs_binned (sha1 : List UInt8 → Checksum) (seg seg' : Segment)
    (h31 : ∀ log ∈ logs, ∀ b ∈ log, b.size.toNat < 2 ^ 31) :
    BinsExact (logSegments sha1 seg logs) (recordsOf logs)
      (fun i => ebBins sha1 seg' (binDir sha1 seg logs i))
      (ebSegments sha1 seg (fun _ => []) (logs.map fun log => log.flatMap Block.toStream)).2 :=
  ebBins_exact sha1 seg seg' logs h31

theorem ebStored_logs (so : Sorter Block.cksum) (seg' : Segment)
    (h31 : ∀ log ∈ logs, ∀ b ∈ log, b.size.toNat < 2 ^ 31) (hsame : SizesAgree logs.flatten)
    (hfit : ∀ key, sizeOf (binBlocks (logSegments sha1 seg logs) key) < 2 ^ 32) :
    ebStored sha1 so seg' (binDir sha1 seg logs) =
      some (∑ key ∈ keysOf (logSegments sha1 seg logs),
        binBytes (recordsOf logs) (binBlocks (logSegments sha1 seg logs) key)) :=
  ebStored_eq so (logs_binned sha1 seg seg' h31) (recordsOf_sizesAgree hsame) recordsOf_ne_zero hfit

/-- **What extreme binning stores.** Logs of whole records are given to `eb_segment` one after
another, and the 256 files to `eb_dedup`. If no min-hash has segments of `2 ^ 32` bytes or
more, the runs return, and the bins keep no less than one block for each checksum would take,
and no more than all records. They keep as much as the distinct blocks if and only if segments
that share a checksum have one min-hash. -/
theorem ebStored_exact (sha1 : List UInt8 → Checksum) (so : Sorter Block.cksum)
    (seg seg' : Segment) (logs : List (List Block))
    (h31 : ∀ log ∈ logs, ∀ b ∈ log, b.size.toNat < 2 ^ 31) (hsame : SizesAgree logs.flatten)
    (hfit : ∀ key, sizeOf (binBlocks (logSegments sha1 seg logs) key) < 2 ^ 32) :
    ∃ stored, ebStored sha1 so seg' (binDir sha1 seg logs) = some stored ∧
      stored ≤ sizeOf (recordsOf logs) ∧
      ∀ reps, Representatives reps (recordsOf logs) →
        sizeOf reps ≤ stored ∧
        (stored = sizeOf reps ↔
          ∀ s ∈ logSegments sha1 seg logs, ∀ t ∈ logSegments sha1 seg logs,
            ∀ c, c ∈ cksumsOf s.blocklist → c ∈ cksumsOf t.blocklist →
              s.getMinHash = t.getMinHash) := by
  have h := logs_binned sha1 seg seg' h31
  have hsame' := recordsOf_sizesAgree hsame
  have hpos : ∀ c ∈ (keysOf (logSegments sha1 seg logs)).biUnion
      (fun key => cksumsOf (binBlocks (logSegments sha1 seg logs) key)),
      0 < sizeOfCksum (recordsOf logs) c := by
    intro c hc
    rw [h.cksums] at hc
    obtain ⟨b, hb, rfl⟩ := mem_cksumsOf.1 hc
    rw [sizeOfCksum_eq hsame' hb]
    exact Nat.pos_of_ne_zero fun h0 => recordsOf_ne_zero b hb (UInt32.toNat_inj.1 h0)
  refine ⟨_, ebStored_logs so seg' h31 hsame hfit, ?_, ?_⟩
  · rw [← binBlocks_sum h]
    exact Finset.sum_le_sum fun key _ => binBytes_le hsame' (binBlocks_subset h key)
  · intro reps hreps
    rw [hreps.sizeOf_sum (List.Subset.refl _) hsame', ← h.cksums]
    exact ⟨le_sum_stores _ _ _, (sum_stores_eq_iff hpos).trans (disjoint_keys_iff _)⟩

/-- Logs of less than `2 ^ 32` bytes fit. -/
theorem binBlocks_lt (h : BinsExact segs records parts summaries) (hfit : sizeOf records < 2 ^ 32)
    (key : String) : sizeOf (binBlocks segs key) < 2 ^ 32 := by
  rw [← binBlocks_sum h] at hfit
  by_cases hkey : key ∈ keysOf segs
  · exact (Finset.single_le_sum (f := fun key => sizeOf (binBlocks segs key))
      (fun key _ => Nat.zero_le _) hkey).trans_lt hfit
  · rw [mem_keysOf, not_not] at hkey
    unfold binBlocks
    rw [hkey]
    exact Nat.two_pow_pos 32

/-- Logs of less than 2 MB are segments. -/
theorem takeSegment_all (hzero : ∀ b ∈ bs, b.size ≠ 0) {acc : ℕ}
    (hacc : acc + sizeOf bs < fixSegmentSize) : takeSegment acc bs = (bs, []) := by
  induction bs generalizing acc with
  | nil => rfl
  | cons b bs ih =>
    rw [sizeOf_cons] at hacc
    unfold takeSegment
    rw [if_neg (hzero b (.head _)), if_neg (by omega),
      ih (fun a ha => hzero a (.tail _ ha)) (by omega)]

theorem ofBlocks_mem_logSegments (sha1 : List UInt8 → Checksum) (seg : Segment) (hbs : bs ∈ logs)
    (hne : bs ≠ []) (hzero : ∀ b ∈ bs, b.size ≠ 0) (hsmall : sizeOf bs < fixSegmentSize) :
    Segment.ofBlocks sha1 bs ∈ logSegments sha1 seg logs := by
  refine List.mem_flatMap.2 ⟨bs, hbs, ?_⟩
  have hread := (readAll_records bs).1
  have htake : takeSegment 0 bs = (bs, []) := takeSegment_all hzero (by rwa [Nat.zero_add])
  have h31 : ∀ b ∈ Block.reader.readAll (bs.flatMap Block.toStream), b.size.toNat < 2 ^ 31 := by
    intro b hb
    rw [hread] at hb
    have hle := List.le_sum_of_mem (List.mem_map_of_mem (f := fun b : Block => b.size.toNat) hb)
    exact hle.trans_lt (hsmall.trans (by decide))
  rw [Segment.loadAll_eq sha1 _ seg h31, hread]
  refine List.mem_map_of_mem ?_
  unfold segmentsOf
  rw [htake, if_neg hne]
  exact .head _

/-- Logs of the blocks 1 and 3, and 2 and 3: four blocks are kept of three. -/
theorem ebStored_exact_four :
    ∃ stored, ebStored (fun _ => default) (.merge _) default (binDir (fun _ => default) default
        [[blockEnding 1, blockEnding 3], [blockEnding 2, blockEnding 3]]) = some stored ∧
      stored ≤ 4 * 4096 ∧ 3 * 4096 < stored := by
  have h31 : ∀ log ∈ [[blockEnding 1, blockEnding 3], [blockEnding 2, blockEnding 3]],
      ∀ b ∈ log, b.size.toNat < 2 ^ 31 := by decide
  obtain ⟨stored, hstored, hle, hreps⟩ := ebStored_exact (fun _ => default) (.merge _) default default
    [[blockEnding 1, blockEnding 3], [blockEnding 2, blockEnding 3]] h31
    (by unfold SizesAgree; decide)
    (binBlocks_lt (logs_binned (fun _ => default) default default h31) (by decide))
  obtain ⟨hge, hiff⟩ := hreps [blockEnding 1, blockEnding 2, blockEnding 3]
    ⟨by decide, by decide, by decide⟩
  refine ⟨stored, hstored, hle, lt_of_le_of_ne hge ?_⟩
  -- block 3 is in a segment of the min-hash 1 and in one of the min-hash 2
  intro heq
  have hmin := hiff.1 heq.symm
    (Segment.ofBlocks _ [blockEnding 1, blockEnding 3])
    (ofBlocks_mem_logSegments _ _ (by decide) (by decide) (by decide) (by decide))
    (Segment.ofBlocks _ [blockEnding 2, blockEnding 3])
    (ofBlocks_mem_logSegments _ _ (by decide) (by decide) (by decide) (by decide))
    (blockEnding 3).cksum (by decide) (by decide)
  exact absurd hmin (by decide)

/-! ## Logs that were binned before -/

/-- The bytes of a bin depend on the sets of its checksums and of the records only. -/
theorem binBytes_congr {records' bs' : List Block} (hsame : SizesAgree records)
    (hrecords : ∀ b, b ∈ records ↔ b ∈ records') (hsub : bs ⊆ records)
    (hbs : ∀ b, b ∈ bs ↔ b ∈ bs') : binBytes records bs = binBytes records' bs' := by
  have hsame' : SizesAgree records' := fun a ha b hb =>
    hsame a ((hrecords a).2 ha) b ((hrecords b).2 hb)
  have hset : cksumsOf bs = cksumsOf bs' := by
    ext c
    rw [mem_cksumsOf, mem_cksumsOf]
    exact exists_congr fun b => and_congr_left fun _ => hbs b
  unfold binBytes
  rw [← hset]
  refine Finset.sum_congr rfl ?_
  intro c hc
  obtain ⟨b, hb, rfl⟩ := mem_cksumsOf.1 hc
  rw [sizeOfCksum_eq hsame (hsub hb), sizeOfCksum_eq hsame' ((hrecords b).1 (hsub hb))]

/-- **Logs that were binned before add nothing.** Logs that are given to `eb_segment` several
times, or in another order, leave as many bytes in the bins of `eb_dedup`. -/
theorem ebStored_again (sha1 : List UInt8 → Checksum) (so so' : Sorter Block.cksum)
    (seg seg' : Segment) (logs logs' : List (List Block)) (hlogs : ∀ log, log ∈ logs ↔ log ∈ logs')
    (h31 : ∀ log ∈ logs, ∀ b ∈ log, b.size.toNat < 2 ^ 31) (hsame : SizesAgree logs.flatten)
    (hfit : ∀ key, sizeOf (binBlocks (logSegments sha1 seg logs) key) < 2 ^ 32)
    (hfit' : ∀ key, sizeOf (binBlocks (logSegments sha1 seg logs') key) < 2 ^ 32) :
    ∃ stored, ebStored sha1 so seg' (binDir sha1 seg logs) = some stored ∧
      ebStored sha1 so' seg' (binDir sha1 seg logs') = some stored := by
  have hflat : ∀ b, b ∈ logs.flatten ↔ b ∈ logs'.flatten := by
    intro b
    rw [List.mem_flatten, List.mem_flatten]
    exact exists_congr fun log => and_congr_left fun _ => hlogs log
  have hrecords : ∀ b, b ∈ recordsOf logs ↔ b ∈ recordsOf logs' := by
    intro b
    unfold recordsOf
    rw [List.mem_filter, List.mem_filter, hflat]
  have hsegs : ∀ s, s ∈ logSegments sha1 seg logs ↔ s ∈ logSegments sha1 seg logs' := by
    intro s
    unfold logSegments
    rw [List.mem_flatMap, List.mem_flatMap]
    exact exists_congr fun log => and_congr_left fun _ => hlogs log
  have hkeys : keysOf (logSegments sha1 seg logs) = keysOf (logSegments sha1 seg logs') := by
    ext key
    unfold keysOf
    rw [List.mem_toFinset, List.mem_toFinset, List.mem_map, List.mem_map]
    exact exists_congr fun s => and_congr_left fun _ => hsegs s
  have hbins : ∀ key b, b ∈ binBlocks (logSegments sha1 seg logs) key ↔
      b ∈ binBlocks (logSegments sha1 seg logs') key := by
    intro key b
    rw [mem_binBlocks, mem_binBlocks]
    exact exists_congr fun s => and_congr_left fun _ => hsegs s
  -- the bytes of a bin depend on the set of its blocks
  have hstored := ebStored_logs so seg' h31 hsame hfit
  have hstored' := ebStored_logs so' seg' (fun log hlog => h31 log ((hlogs log).2 hlog))
    (fun a ha b hb => hsame a ((hflat a).2 ha) b ((hflat b).2 hb)) hfit'
  refine ⟨_, hstored, hstored'.trans (congrArg some ?_)⟩
  rw [hkeys]
  refine Finset.sum_congr rfl ?_
  intro key _
  have h := logs_binned sha1 seg seg h31
  exact (binBytes_congr (recordsOf_sizesAgree hsame) hrecords (binBlocks_subset h key)
    (hbins key)).symm

/-- A log that is binned twice. -/
theorem ebStored_again_twice :
    ∃ stored, ebStored (fun _ => default) (.merge _) default (binDir (fun _ => default) default
        [[blockEnding 1, blockEnding 3]]) = some stored ∧
      ebStored (fun _ => default) (.merge _) default (binDir (fun _ => default) default
        [[blockEnding 1, blockEnding 3], [blockEnding 1, blockEnding 3]]) = some stored := by
  have h31 : ∀ log ∈ [[blockEnding 1, blockEnding 3], [blockEnding 1, blockEnding 3]],
      ∀ b ∈ log, b.size.toNat < 2 ^ 31 := by decide
  exact ebStored_again (fun _ => default) (.merge _) (.merge _) default default
    [[blockEnding 1, blockEnding 3]]
    [[blockEnding 1, blockEnding 3], [blockEnding 1, blockEnding 3]]
    (fun log => by simp) (by decide) (by unfold SizesAgree; decide)
    (binBlocks_lt (logs_binned (fun _ => default) default default (by decide)) (by decide))
    (binBlocks_lt (logs_binned (fun _ => default) default default h31) (by decide))

end DedupSim
