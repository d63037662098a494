import DedupSim.Lib.Grouping
import DedupSim.Proof.SegmentCode
import DedupSim.Spec.ExtremeBinning
import Mathlib.Data.UInt

/-!
# Extreme binning loses nothing

* `Checksum.toString_injective`: different min-hashes have different keys.
* `ebSegments_dir`, `ebBins_eq`: what the files hold, and what is read of them.
* `ebBins_exact`: **every segment is put into one bin, whatever the logs are.**
-/

namespace DedupSim

open LittleEndian

variable {sha1 : List UInt8 → Checksum} {segs : List Segment}

/-! ## Keys -/

theorem digitChar_inj : ∀ a < 16, ∀ b < 16, Nat.digitChar a = Nat.digitChar b → a = b := by decide

theorem hexBytes_injective {as bs : List UInt8}
    (h : (as.flatMap fun b => [(b.toNat / 16).digitChar, (b.toNat % 16).digitChar]) =
      bs.flatMap fun b => [(b.toNat / 16).digitChar, (b.toNat % 16).digitChar]) : as = bs := by
  induction as generalizing bs with
  | nil =>
    rcases bs with - | ⟨b, bs⟩
    · rfl
    · cases h
  | cons a as ih =>
    rcases bs with - | ⟨b, bs⟩
    · cases h
    · simp only [List.flatMap_cons, List.cons_append, List.nil_append, List.cons.injEq] at h
      obtain ⟨hhigh, hlow, htail⟩ := h
      have ha := a.toNat_lt
      have hb := b.toNat_lt
      have h1 := digitChar_inj _ (by omega) _ (by omega) hhigh
      have h2 := digitChar_inj _ (by omega) _ (by omega) hlow
      have heq : a = b := UInt8.toNat_inj.1 (by omega)
      rw [heq, ih htail]

/-- **The key of a bin tells its min-hash.** -/
theorem Checksum.toString_injective : Function.Injective Checksum.toString := by
  intro a b h
  exact Checksum.ext_data (hexBytes_injective (String.ofList_injective h))

theorem Segment.partition_lt (seg : Segment) : seg.partition < 256 := by
  unfold partition
  rw [UInt32.toNat_mod]
  exact Nat.mod_lt _ (by decide)

/-- Segments of one key go to one file. -/
theorem Segment.partition_eq {s t : Segment} (h : s.getMinHash.toString = t.getMinHash.toString) :
    s.partition = t.partition := by
  rw [partition, partition, Checksum.toString_injective h]

/-! ## Summaries -/

theorem foldl_add (segs : List Segment) (s : Summary) :
    segs.foldl Summary.add s =
      ⟨s.blocks + (segs.map fun seg => UInt64.ofNat seg.blocklist.length).sum,
        s.bytes + (segs.map fun seg => seg.size.toUInt64).sum⟩ := by
  induction segs generalizing s with
  | nil => simp
  | cons seg segs ih =>
    rw [List.foldl_cons, ih]
    simp only [Summary.add, List.map_cons, List.sum_cons, add_assoc]

/-- The summary of segments. -/
def summaryOf (segs : List Segment) : Summary := segs.foldl Summary.add ⟨0, 0⟩

theorem summaryOf_blocks (segs : List Segment) :
    (summaryOf segs).blocks = (segs.map fun seg => UInt64.ofNat seg.blocklist.length).sum := by
  unfold summaryOf
  rw [foldl_add, zero_add]

theorem summaryOf_bytes (segs : List Segment) :
    (summaryOf segs).bytes = (segs.map fun seg => seg.size.toUInt64).sum := by
  simp only [summaryOf, foldl_add, zero_add]

theorem toNat_sum (l : List UInt64) : l.sum.toNat = (l.map UInt64.toNat).sum % 2 ^ 64 := by
  induction l with
  | nil => rfl
  | cons x l ih => rw [List.sum_cons, UInt64.toNat_add, ih, List.map_cons, List.sum_cons, Nat.add_mod_mod]

/-- Totals of groups add up to the total of all, as 64-bit numbers. -/
theorem sum_groups {ι : Type} (is : List ι) (g : ι → List Segment) (f : Segment → UInt64) :
    (is.map fun i => ((g i).map f).sum).sum = ((is.flatMap g).map f).sum := by
  induction is with
  | nil => rfl
  | cons i is ih => rw [List.map_cons, List.sum_cons, ih, List.flatMap_cons, List.map_append, List.sum_append]

/-- As integers, if the total of all is one of 64 bits. -/
theorem sum_groups_toNat {ι : Type} (is : List ι) (g : ι → List Segment) (f : Segment → UInt64)
    (h : ((is.flatMap g).map fun seg => (f seg).toNat).sum < 2 ^ 64) :
    (is.map fun i => ((g i).map f).sum.toNat).sum =
      ((is.flatMap g).map fun seg => (f seg).toNat).sum := by
  induction is with
  | nil => rfl
  | cons i is ih =>
    rw [List.flatMap_cons, List.map_append, List.sum_append] at h ⊢
    rw [List.map_cons, List.sum_cons, ih (by omega), toNat_sum, List.map_map]
    exact congrArg (· + _) (Nat.mod_eq_of_lt (by
      change ((g i).map fun seg => (f seg).toNat).sum < 2 ^ 64
      omega))

/-! ## The files -/

/-- The segments that go to one file. -/
def partitionOf (segs : List Segment) (i : ℕ) : List Segment :=
  segs.filter fun seg => decide (seg.partition = i)

theorem partitionOf_append (segs segs' : List Segment) (i : ℕ) :
    partitionOf (segs ++ segs') i = partitionOf segs i ++ partitionOf segs' i := List.filter_append ..

theorem foldl_write (segs : List Segment) (os : OutputDir) (s : Summary) :
    segs.foldl
        (fun (os, summary) seg =>
          (Function.update os seg.partition (os seg.partition ++ seg.toStream), summary.add seg))
        (os, s) =
      (fun i => os i ++ (partitionOf segs i).flatMap Segment.toStream,
        segs.foldl Summary.add s) := by
  induction segs generalizing os s with
  | nil => simp [partitionOf]
  | cons seg segs ih =>
    rw [List.foldl_cons, ih]
    refine Prod.ext (funext ?_) rfl
    intro i
    simp only
    by_cases hi : seg.partition = i
    · subst hi
      rw [Function.update_self, partitionOf, partitionOf, List.filter_cons_of_pos (by simp),
        List.flatMap_cons, List.append_assoc]
    · rw [Function.update_of_ne (Ne.symm hi), partitionOf, partitionOf,
        List.filter_cons_of_neg (by simpa using hi)]

/-- **What the files hold** after the logs, and the trace summaries. -/
theorem ebSegments_dir (sha1 : List UInt8 → Checksum) (seg : Segment) (logs : List (List UInt8)) :
    ∀ os : OutputDir, ebSegments sha1 seg os logs =
      (fun i => os i ++
          (partitionOf (logs.flatMap (Segment.loadAll sha1 seg)) i).flatMap Segment.toStream,
        logs.map fun log => summaryOf (Segment.loadAll sha1 seg log)) := by
  induction logs with
  | nil => exact fun os => Prod.ext (funext fun i => (List.append_nil _).symm) rfl
  | cons log logs ih =>
    intro os
    simp only [ebSegments, ebSegment, foldl_write, ih]
    refine Prod.ext (funext ?_) rfl
    intro i
    simp only [List.flatMap_cons, partitionOf_append, List.flatMap_append, List.append_assoc]

/-- The bins of a list of segments. -/
def binsOf (segs : List Segment) : OrderedMap String Bin :=
  OrderedMap.empty.group (fun seg => seg.getMinHash.toString) Bin.new Bin.addSegment segs

theorem foldl_bins (segs : List Segment) (binmap : OrderedMap String Bin) (s : Summary) :
    segs.foldl
        (fun (binmap, summary) seg =>
          (binmap.alter seg.getMinHash.toString fun bin => (bin.getD Bin.new).addSegment seg,
            summary.add seg))
        (binmap, s) =
      (binmap.group (fun seg => seg.getMinHash.toString) Bin.new Bin.addSegment segs,
        segs.foldl Summary.add s) := by
  induction segs generalizing binmap s with
  | nil => rfl
  | cons seg segs ih =>
    rw [List.foldl_cons, ih]
    rfl

/-- **What is read of a file** of segments. -/
theorem ebBins_eq (seg : Segment) (hsegs : ∀ s ∈ segs, s.blocklist.length < 2 ^ 32 ∧
      Segment.ofBlocks sha1 s.blocklist = s) :
    ebBins sha1 seg (segs.flatMap Segment.toStream) = (binsOf segs, summaryOf segs) := by
  have hmap : (segs.map Segment.blocklist).map (Segment.ofBlocks sha1) = segs := by
    rw [List.map_map]
    exact (List.map_congr_left fun s hs => (hsegs s hs).2).trans (List.map_id segs)
  have hread := Segment.fromStreamAll_ofBlocks sha1 seg (segs.map Segment.blocklist) (by
    intro bs hbs
    obtain ⟨s, hs, rfl⟩ := List.mem_map.1 hbs
    exact (hsegs s hs).1)
  rw [hmap] at hread
  unfold ebBins
  rw [hread, foldl_bins]
  rfl

/-! ## The bins -/

/-- The segments of one key. -/
def membersOf (segs : List Segment) (key : String) : List Segment :=
  segs.filter fun seg => decide (seg.getMinHash.toString = key)

theorem foldl_size1 (bs : List Block) (bin : Bin) :
    (bs.foldl (fun bin blk =>
      { bin with size1 := bin.size1 + blk.size, numBlocks1 := bin.numBlocks1 + 1 }) bin).blocklist =
      bin.blocklist := by
  induction bs generalizing bin with
  | nil => rfl
  | cons b bs ih => exact ih _

theorem addSegments_blocklist (segs : List Segment) (bin : Bin) :
    (segs.foldl Bin.addSegment bin).blocklist = bin.blocklist ++ segs.flatMap Segment.blocklist := by
  induction segs generalizing bin with
  | nil => exact (List.append_nil _).symm
  | cons seg segs ih =>
    rw [List.foldl_cons, ih, List.flatMap_cons, ← List.append_assoc]
    exact congrArg (· ++ _) (foldl_size1 seg.blocklist _)

/-- **Every segment is a member of one bin.** -/
theorem members_perm (segs : List Segment) :
    ((binsOf segs).entries.flatMap fun it => membersOf segs it.1).Perm segs := by
  have hperm := group_perm (fun seg : Segment => seg.getMinHash.toString) (binsOf segs).nodup_keys
    fun seg hseg => (OrderedMap.mem_keys_group _ _ _ segs _).2 ⟨seg, hseg, rfl⟩
  rwa [List.flatMap_map] at hperm

/-- The bin of a key. -/
theorem mem_binsOf {segs : List Segment} {it : String × Bin} :
    it ∈ (binsOf segs).entries ↔ membersOf segs it.1 ≠ [] ∧
      it.2 = (membersOf segs it.1).foldl Bin.addSegment Bin.new := by
  obtain ⟨key, bin⟩ := it
  rw [← OrderedMap.find?_eq_some, binsOf, OrderedMap.find?_group]
  change (if membersOf segs key = [] then none else some ((membersOf segs key).foldl Bin.addSegment
    Bin.new)) = some bin ↔ _
  split
  · rename_i hnil
    exact iff_of_false (fun h => by cases h) fun h => h.1 hnil
  · rename_i hne
    rw [Option.some.injEq]
    exact ⟨fun h => ⟨hne, h.symm⟩, fun h => h.2.symm⟩

/-- The members of a bin are all in one file. -/
theorem membersOf_partitionOf (segs : List Segment) (i : ℕ) (key : String)
    (h : membersOf (partitionOf segs i) key ≠ []) :
    membersOf (partitionOf segs i) key = membersOf segs key := by
  obtain ⟨s, hs⟩ := List.exists_mem_of_ne_nil _ h
  obtain ⟨hs, hkey⟩ := List.mem_filter.1 hs
  have hi := of_decide_eq_true (List.mem_filter.1 hs).2
  rw [decide_eq_true_eq] at hkey
  rw [membersOf, partitionOf, List.filter_filter, membersOf]
  apply List.filter_congr
  intro t _
  by_cases ht : t.getMinHash.toString = key
  · -- the key tells the file
    have hpart : t.partition = i := (Segment.partition_eq (ht.trans hkey.symm)).trans hi
    simp [ht, hpart]
  · simp [ht]

/-- **No bin is split.** A bin of all segments is the bin of a file. -/
theorem mem_binsOf_partitionOf (segs : List Segment) (it : String × Bin) :
    it ∈ (binsOf segs).entries ↔ ∃ i < 256, it ∈ (binsOf (partitionOf segs i)).entries := by
  constructor
  · intro hit
    obtain ⟨hne, hbin⟩ := mem_binsOf.1 hit
    obtain ⟨s, hs⟩ := List.exists_mem_of_ne_nil _ hne
    obtain ⟨hsegs, hkey⟩ := List.mem_filter.1 hs
    refine ⟨s.partition, s.partition_lt, mem_binsOf.2 ?_⟩
    have hmem : s ∈ membersOf (partitionOf segs s.partition) it.1 :=
      List.mem_filter.2 ⟨List.mem_filter.2 ⟨hsegs, decide_eq_true rfl⟩, hkey⟩
    rw [membersOf_partitionOf segs _ _ (List.ne_nil_of_mem hmem)]
    exact ⟨hne, hbin⟩
  · rintro ⟨i, -, hit⟩
    obtain ⟨hne, hbin⟩ := mem_binsOf.1 hit
    have heq := membersOf_partitionOf segs i it.1 hne
    rw [heq] at hne hbin
    exact mem_binsOf.2 ⟨hne, hbin⟩

theorem partition_perm (segs : List Segment) :
    ((List.range 256).flatMap fun i => partitionOf segs i).Perm segs :=
  group_perm Segment.partition List.nodup_range fun seg _ => List.mem_range.2 seg.partition_lt

/-- The blocks of the bins are those of the segments. -/
theorem binsOf_blocks (segs : List Segment) :
    ((binsOf segs).entries.flatMap fun it => it.2.blocklist).Perm
      (segs.flatMap Segment.blocklist) := by
  have heq : ∀ it ∈ (binsOf segs).entries, it.2.blocklist =
      (membersOf segs it.1).flatMap Segment.blocklist := by
    intro it hit
    rw [(mem_binsOf.1 hit).2, addSegments_blocklist]
    rfl
  rw [List.flatMap_congr heq, ← List.flatMap_assoc]
  exact (members_perm segs).flatMap_right _

/-! ## The pipeline -/

/-- What the bins and the summaries of the partition files have to do with the segments,
the records and the trace summaries. -/
structure BinsExact (segs : List Segment) (records : List Block)
    (parts : ℕ → OrderedMap String Bin × Summary) (summaries : List Summary) : Prop where
  /-- Every segment is a member of one bin, which is that of its min-hash. -/
  members : ∃ members : ℕ → String → List Segment,
    (∀ i < 256, ∀ it ∈ (parts i).1.entries, members i it.1 ≠ [] ∧
      (∀ seg ∈ members i it.1, seg.getMinHash.toString = it.1) ∧
      it.2 = (members i it.1).foldl Bin.addSegment Bin.new) ∧
    ((List.range 256).flatMap fun i => (parts i).1.entries.flatMap fun it => members i it.1).Perm segs
  /-- The blocks of the bins are the records. -/
  blocks : ((List.range 256).flatMap fun i =>
    (parts i).1.entries.flatMap fun it => it.2.blocklist).Perm records
  /-- No key is in two files. -/
  keys : ∀ i < 256, ∀ j < 256, ∀ it ∈ (parts i).1.entries, ∀ jt ∈ (parts j).1.entries,
    it.1 = jt.1 → i = j
  /-- The bins are those of grouping all segments at once. -/
  grouped : ∀ it, it ∈ (binsOf segs).entries ↔ ∃ i < 256, it ∈ (parts i).1.entries
  /-- The totals agree, as 64-bit numbers; -/
  totals : (summaries.map Summary.blocks).sum = ((List.range 256).map fun i => (parts i).2.blocks).sum ∧
    (summaries.map Summary.bytes).sum = ((List.range 256).map fun i => (parts i).2.bytes).sum
  /-- and as integers, if there are less than `2 ^ 64` bytes. -/
  integers : sizeOf records < 2 ^ 64 →
    (summaries.map fun s => s.blocks.toNat).sum = records.length ∧
      ((List.range 256).map fun i => (parts i).2.blocks.toNat).sum = records.length ∧
      (summaries.map fun s => s.bytes.toNat).sum = sizeOf records ∧
      ((List.range 256).map fun i => (parts i).2.bytes.toNat).sum = sizeOf records

/-- Segments of which a block or more is left in each, and less than `2 ^ 32` bytes. -/
def FromLogs (sha1 : List UInt8 → Checksum) (segs : List Segment) : Prop :=
  ∀ t ∈ segs, t.blocklist ≠ [] ∧ Segment.ofBlocks sha1 t.blocklist = t ∧
    sizeOf t.blocklist < 2 ^ 32 ∧ ∀ b ∈ t.blocklist, b.size ≠ 0

theorem FromLogs.blocks (h : FromLogs sha1 segs) :
    (segs.map fun t => (UInt64.ofNat t.blocklist.length).toNat).sum =
      (segs.flatMap Segment.blocklist).length := by
  rw [List.length_flatMap]
  refine congrArg List.sum (List.map_congr_left ?_)
  intro t ht
  obtain ⟨-, -, hlt, hne⟩ := h t ht
  have := length_le_sizeOf hne
  rw [UInt64.toNat_ofNat']
  omega

theorem ofBlocks_size (sha1 : List UInt8 → Checksum) {bs : List Block} (h : sizeOf bs < 2 ^ 32) :
    (Segment.ofBlocks sha1 bs).size.toNat = sizeOf bs := by
  have hsize := Segment.addBlocks_size (default : Segment).init bs (by
    change 0 + sizeOf bs < 2 ^ 32
    omega)
  change ((default : Segment).init.addBlocks bs).size.toNat = _
  rw [hsize]
  exact Nat.zero_add _

theorem sizeOf_flatMap (segs : List Segment) :
    sizeOf (segs.flatMap Segment.blocklist) = (segs.map fun t => sizeOf t.blocklist).sum := by
  induction segs with
  | nil => rfl
  | cons t segs ih => rw [List.flatMap_cons, sizeOf_append, ih, List.map_cons, List.sum_cons]

theorem FromLogs.bytes (h : FromLogs sha1 segs) :
    (segs.map fun t => t.size.toUInt64.toNat).sum = sizeOf (segs.flatMap Segment.blocklist) := by
  rw [sizeOf_flatMap]
  refine congrArg List.sum (List.map_congr_left ?_)
  intro t ht
  obtain ⟨-, heq, hlt, -⟩ := h t ht
  rw [UInt32.toNat_toUInt64, ← ofBlocks_size sha1 hlt, heq]

/-- **What is put into files and bins**, for segments of any kind. -/
theorem binsExact_of (h : FromLogs sha1 segs) {ι : Type} (logs : List ι) (g : ι → List Segment)
    (hsegs : logs.flatMap g = segs) :
    BinsExact segs (segs.flatMap Segment.blocklist)
      (fun i => (binsOf (partitionOf segs i), summaryOf (partitionOf segs i)))
      (logs.map fun log => summaryOf (g log)) := by
  have hperm := partition_perm segs
  refine ⟨⟨fun i key => membersOf (partitionOf segs i) key, ?_, ?_⟩, ?_, ?_,
    mem_binsOf_partitionOf segs, ⟨?_, ?_⟩, ?_⟩
  · intro i _ it hit
    obtain ⟨hne, hbin⟩ := mem_binsOf.1 hit
    exact ⟨hne, fun t ht => of_decide_eq_true (List.mem_filter.1 ht).2, hbin⟩
  · exact (List.Perm.flatMap_left _ fun i _ => members_perm _).trans hperm
  · refine (List.Perm.flatMap_left _ fun i _ => binsOf_blocks _).trans ?_
    rw [← List.flatMap_assoc]
    exact hperm.flatMap_right _
  · intro i _ j _ it hit jt hjt hkey
    obtain ⟨s, hs⟩ := List.exists_mem_of_ne_nil _ (mem_binsOf.1 hit).1
    obtain ⟨t, ht⟩ := List.exists_mem_of_ne_nil _ (mem_binsOf.1 hjt).1
    obtain ⟨hs, hskey⟩ := List.mem_filter.1 hs
    obtain ⟨ht, htkey⟩ := List.mem_filter.1 ht
    have hst : s.getMinHash.toString = t.getMinHash.toString :=
      (of_decide_eq_true hskey).trans (hkey.trans (of_decide_eq_true htkey).symm)
    exact (of_decide_eq_true (List.mem_filter.1 hs).2).symm.trans
      ((Segment.partition_eq hst).trans (of_decide_eq_true (List.mem_filter.1 ht).2))
  · simp only [List.map_map, Function.comp_def, summaryOf_blocks]
    rw [sum_groups, sum_groups, hsegs, (hperm.map _).sum_eq]
  · simp only [List.map_map, Function.comp_def, summaryOf_bytes]
    rw [sum_groups, sum_groups, hsegs, (hperm.map _).sum_eq]
  · intro hlt
    have hlen : (segs.flatMap Segment.blocklist).length < 2 ^ 64 := by
      refine lt_of_le_of_lt (length_le_sizeOf ?_) hlt
      intro b hb
      obtain ⟨t, ht, hb⟩ := List.mem_flatMap.1 hb
      exact (h t ht).2.2.2 b hb
    have hblocks := h.blocks
    have hbytes := h.bytes
    have hblocks' := ((hperm.map fun t => (UInt64.ofNat t.blocklist.length).toNat).sum_eq).trans
      hblocks
    have hbytes' := ((hperm.map fun t => t.size.toUInt64.toNat).sum_eq).trans hbytes
    simp only [List.map_map, Function.comp_def, summaryOf_blocks, summaryOf_bytes]
    refine ⟨?_, ?_, ?_, ?_⟩
    · rw [sum_groups_toNat _ _ _ (by rw [hsegs, hblocks]; exact hlen), hsegs, hblocks]
    · rw [sum_groups_toNat _ _ _ (by rw [hblocks']; exact hlen), hblocks']
    · rw [sum_groups_toNat _ _ _ (by rw [hsegs, hbytes]; exact hlt), hsegs, hbytes]
    · rw [sum_groups_toNat _ _ _ (by rw [hbytes']; exact hlt), hbytes']

/-- **The bins of step 1.** Logs of whole records, with sizes below `2 ^ 31`, are given to
`eb_segment` one after another, and the 256 files to `eb_dedup`. -/
theorem ebBins_exact (sha1 : List UInt8 → Checksum) (seg seg' : Segment) (logs : List (List Block))
    (h31 : ∀ log ∈ logs, ∀ b ∈ log, b.size.toNat < 2 ^ 31) :
    BinsExact (logs.flatMap fun log => Segment.loadAll sha1 seg (log.flatMap Block.toStream))
      (logs.flatten.filter fun b => b.size ≠ 0)
      (fun i => ebBins sha1 seg' ((ebSegments sha1 seg (fun _ => [])
        (logs.map fun log => log.flatMap Block.toStream)).1 i))
      (ebSegments sha1 seg (fun _ => []) (logs.map fun log => log.flatMap Block.toStream)).2 := by
  set g : List Block → List Segment := fun log => Segment.loadAll sha1 seg (log.flatMap Block.toStream)
    with hg
  have hread : ∀ log ∈ logs, ∀ b ∈ Block.reader.readAll (log.flatMap Block.toStream),
      b.size.toNat < 2 ^ 31 := by
    intro log hlog
    rw [(readAll_records log).1]
    exact h31 log hlog
  have hlogs : FromLogs sha1 (logs.flatMap g) := by
    intro t ht
    obtain ⟨log, hlog, ht⟩ := List.mem_flatMap.1 ht
    exact Segment.loadAll_mem sha1 seg (hread log hlog) t ht
  have hrecords : (logs.flatMap g).flatMap Segment.blocklist =
      logs.flatten.filter fun b => b.size ≠ 0 := by
    rw [List.flatMap_assoc, List.filter_flatten, ← List.flatMap_def]
    apply List.flatMap_congr
    intro log hlog
    rw [hg]
    exact (Segment.loadAll_blocks sha1 seg (hread log hlog)).trans
      (by rw [(readAll_records log).1])
  have hparts : ∀ i, ebBins sha1 seg' ((partitionOf (logs.flatMap g) i).flatMap Segment.toStream) =
      (binsOf (partitionOf (logs.flatMap g) i), summaryOf (partitionOf (logs.flatMap g) i)) := by
    intro i
    apply ebBins_eq seg'
    intro t ht
    obtain ⟨-, heq, hlt, hne⟩ := hlogs t (List.mem_filter.1 ht).1
    have := length_le_sizeOf hne
    exact ⟨by omega, heq⟩
  rw [ebSegments_dir]
  simp only [List.nil_append, List.flatMap_map, List.map_map, ← hrecords]
  change BinsExact _ _ (fun i => ebBins sha1 seg'
    ((partitionOf (logs.flatMap g) i).flatMap Segment.toStream)) (logs.map fun log => summaryOf (g log))
  rw [funext hparts]
  exact binsExact_of hlogs logs g rfl

end DedupSim
