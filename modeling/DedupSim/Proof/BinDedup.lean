import DedupSim.Proof.ExtremeBinning
import Mathlib.Algebra.Order.BigOperators.Group.List
import Mathlib.Data.List.TakeWhile

/-!
# What `eb_dedup` makes of the bins

* `distinctBlocks`: the first block of each checksum, in a sorted list.
* `deduplication_ok`: **what `Deduplication` counts**, as 32-bit numbers.
* `ebPipeline`: **extreme binning loses and duplicates nothing**, step 2 included.
* `bytesExact_iff`: **when the totals are exact**: no min-hash has segments of `2 ^ 32`
  bytes or more.
-/

namespace DedupSim

variable {sha1 : List UInt8 → Checksum} {so : Sorter Block.cksum} {bs rest : List Block} {b : Block}
  {bin : Bin} {i : UInt32} {fuel : ℕ}

/-! ## Distinct blocks -/

/-- The first block of each run of blocks of one checksum. -/
def distinctBlocks : List Block → List Block
  | [] => []
  | b :: rest => b :: distinctBlocks (rest.dropWhile fun a => decide (a.cksum = b.cksum))
termination_by l => l.length
decreasing_by exact Nat.lt_succ_of_le (List.dropWhile_sublist _).length_le

theorem distinctBlocks_nil : distinctBlocks [] = [] := by rw [distinctBlocks]

theorem distinctBlocks_cons (b : Block) (rest : List Block) :
    distinctBlocks (b :: rest) =
      b :: distinctBlocks (rest.dropWhile fun a => decide (a.cksum = b.cksum)) := by
  rw [distinctBlocks]

/-- One block of `bs` for each of its checksums. -/
structure Representatives (reps bs : List Block) : Prop where
  mem : ∀ b ∈ reps, b ∈ bs
  nodup : (reps.map Block.cksum).Nodup
  all : ∀ b ∈ bs, b.cksum ∈ reps.map Block.cksum

theorem Representatives.perm {reps bs' : List Block} (h : Representatives reps bs)
    (hperm : bs.Perm bs') : Representatives reps bs' :=
  ⟨fun b hb => hperm.subset (h.mem b hb), h.nodup, fun b hb => h.all b (hperm.symm.subset hb)⟩

/-- After the run of a block come greater checksums. -/
theorem lt_of_mem_dropWhile (hs : (b :: rest).Pairwise fun a b => a.cksum ≤ b.cksum) :
    ∀ a ∈ rest.dropWhile fun a => decide (a.cksum = b.cksum), b.cksum < a.cksum := by
  induction rest with
  | nil => exact fun a ha => absurd ha List.not_mem_nil
  | cons c rest ih =>
    obtain ⟨hall, hrest⟩ := List.pairwise_cons.1 hs
    by_cases hc : c.cksum = b.cksum
    · rw [List.dropWhile_cons_of_pos (by simpa using hc)]
      exact ih (hs.sublist ((List.sublist_cons_self c rest).cons_cons b))
    · rw [List.dropWhile_cons_of_neg (by simpa using hc)]
      have hlt := lt_of_le_of_ne (hall c (.head _)) (Ne.symm hc)
      intro a ha
      rcases List.mem_cons.1 ha with rfl | ha
      · exact hlt
      · exact hlt.trans_le ((List.pairwise_cons.1 hrest).1 a ha)

/-- **In a sorted list they stand for all.** -/
theorem distinctBlocks_representatives (hs : bs.Pairwise fun a b => a.cksum ≤ b.cksum) :
    Representatives (distinctBlocks bs) bs := by
  induction bs using distinctBlocks.induct with
  | case1 =>
    rw [distinctBlocks_nil]
    exact ⟨fun b hb => hb, List.nodup_nil, fun b hb => absurd hb List.not_mem_nil⟩
  | case2 b rest ih =>
    have hsub := List.dropWhile_sublist (l := rest) fun a => decide (a.cksum = b.cksum)
    have hlt := lt_of_mem_dropWhile hs
    obtain ⟨hmem, hnodup, hall⟩ := ih ((List.pairwise_cons.1 hs).2.sublist hsub)
    rw [distinctBlocks_cons]
    refine ⟨?_, ?_, ?_⟩
    · intro a ha
      rcases List.mem_cons.1 ha with rfl | ha
      · exact .head _
      · exact .tail _ (hsub.subset (hmem a ha))
    · refine List.nodup_cons.2 ⟨?_, hnodup⟩
      intro hb
      obtain ⟨a, ha, heq⟩ := List.mem_map.1 hb
      exact absurd heq (hlt a (hmem a ha)).ne'
    · intro a ha
      rw [List.map_cons, List.mem_cons]
      rcases List.mem_cons.1 ha with rfl | ha
      · exact .inl rfl
      · by_cases heq : a.cksum = b.cksum
        · exact .inl heq
        · refine .inr (hall a ?_)
          have happend := List.takeWhile_append_dropWhile (l := rest)
            (p := fun a => decide (a.cksum = b.cksum))
          rw [← happend, List.mem_append] at ha
          apply ha.resolve_left
          intro hin
          exact heq (of_decide_eq_true (List.mem_takeWhile_imp
              (p := fun a : Block => decide (a.cksum = b.cksum)) hin))

/-- A run of blocks and what is after it. -/
theorem sizeOf_run (p : Block → Bool) (bs : List Block) :
    sizeOf (bs.takeWhile p) + sizeOf (bs.dropWhile p) = sizeOf bs := by
  rw [← sizeOf_append, List.takeWhile_append_dropWhile]

theorem distinctBlocks_le (bs : List Block) : sizeOf (distinctBlocks bs) ≤ sizeOf bs := by
  induction bs using distinctBlocks.induct with
  | case1 => rw [distinctBlocks_nil]
  | case2 b rest ih =>
    have hrun := sizeOf_run (fun a => decide (a.cksum = b.cksum)) rest
    rw [distinctBlocks_cons, sizeOf_cons, sizeOf_cons]
    omega

/-! ## The loops -/

/-- The index and the blocks that are left. -/
theorem drop_succ {l : List Block} {n : ℕ} (h : l.drop n = b :: rest) :
    n < l.length ∧ l[n]? = some b ∧ l.drop (n + 1) = rest := by
  have hlen := congrArg List.length h
  rw [List.length_drop, List.length_cons] at hlen
  refine ⟨by omega, ?_, ?_⟩
  · rw [← Nat.add_zero n, ← List.getElem?_drop, h]
    rfl
  · rw [← List.drop_drop, h]
    rfl

theorem toNat_succ {n : ℕ} (hi : i.toNat < n) (hn : n < 2 ^ 32) : (i + 1).toNat = i.toNat + 1 := by
  rw [UInt32.toNat_add]
  exact Nat.mod_eq_of_lt (by change i.toNat + 1 < 2 ^ 32; omega)

/-- The blocks `bs` counted, `reps` of them as distinct. -/
def Bin.count (bin : Bin) (bs reps : List Block) : Bin :=
  { bin with
    numBlocks := bin.numBlocks + UInt32.ofNat bs.length
    size := bin.size + UInt32.ofNat (sizeOf bs)
    dedupSize := bin.dedupSize + UInt32.ofNat (sizeOf reps)
    numDedupBlocks := bin.numDedupBlocks + UInt32.ofNat reps.length }

@[simp] theorem Bin.count_nil (bin : Bin) : bin.count [] [] = bin := by
  simp [Bin.count]

theorem Bin.count_count (bin : Bin) (bs reps bs' reps' : List Block) :
    (bin.count bs reps).count bs' reps' = bin.count (bs ++ bs') (reps ++ reps') := by
  simp [Bin.count, UInt32.ofNat_add, UInt32.add_assoc]

/-- **The `while` loop** passes the blocks that equal the current one. -/
theorem skipEqual_ok (rest : List Block) : ∀ (fuel : ℕ) (i : UInt32) (b : Block) (bin : Bin),
    bin.blocklist.length < 2 ^ 32 → bin.blocklist.drop i.toNat = b :: rest → rest.length < fuel →
    ∃ i', Bin.skipEqual fuel i bin =
        some (i', bin.count (rest.takeWhile fun a => decide (a.cksum = b.cksum)) []) ∧
      i'.toNat < bin.blocklist.length ∧
      bin.blocklist.drop (i'.toNat + 1) = rest.dropWhile fun a => decide (a.cksum = b.cksum) := by
  induction rest with
  | nil =>
    intro fuel i b bin hlen hdrop hfuel
    obtain ⟨hlt, hget, hnext⟩ := drop_succ hdrop
    obtain ⟨fuel, rfl⟩ := Nat.exists_eq_succ_of_ne_zero (Nat.ne_of_gt hfuel)
    have hend : bin.blocklist.length ≤ i.toNat + 1 := List.drop_eq_nil_iff.1 hnext
    have hnone : bin.blocklist[(i + 1).toNat]? = none := by
      rw [toNat_succ hlt hlen]
      exact List.getElem?_eq_none hend
    refine ⟨i, ?_, hlt, hnext⟩
    rw [List.takeWhile_nil, Bin.count_nil]
    simp only [Bin.skipEqual, hget, hnone]
  | cons c rest ih =>
    intro fuel i b bin hlen hdrop hfuel
    obtain ⟨hlt, hget, hnext⟩ := drop_succ hdrop
    obtain ⟨hlt', hget', -⟩ := drop_succ hnext
    obtain ⟨fuel, rfl⟩ := Nat.exists_eq_succ_of_ne_zero (Nat.ne_of_gt (Nat.zero_lt_of_lt hfuel))
    have hsucc := toNat_succ hlt hlen
    rw [← hsucc] at hget' hnext
    have hin : i.toNat < bin.blocklist.length - 1 := by omega
    by_cases hc : c.cksum = b.cksum
    · -- one block further
      have hone : { bin with numBlocks := bin.numBlocks + 1, size := bin.size + c.size } =
          bin.count [c] [] := by
        simp [Bin.count]
      obtain ⟨i', hok, hi', hrest⟩ := ih fuel (i + 1) c (bin.count [c] []) hlen hnext
        (Nat.lt_of_succ_lt_succ hfuel)
      rw [hc] at hok hrest
      rw [List.takeWhile_cons_of_pos (by simpa using hc),
        List.dropWhile_cons_of_pos (by simpa using hc)]
      refine ⟨i', ?_, hi', hrest⟩
      simp only [Bin.skipEqual, hget, hget', hin, hc, and_self, if_true]
      rw [hone, hok, Bin.count_count]
      rfl
    · rw [List.takeWhile_cons_of_neg (by simpa using hc),
        List.dropWhile_cons_of_neg (by simpa using hc), Bin.count_nil]
      refine ⟨i, ?_, hlt, ?_⟩
      · simp only [Bin.skipEqual, hget, hget', hc, and_false, if_false]
      · rw [← hsucc]
        exact hnext

/-- **The `for` loop** counts every block, and the first of each run as distinct. -/
theorem dedupLoop_ok (fuel : ℕ) : ∀ (bs : List Block) (i : UInt32) (bin : Bin),
    bin.blocklist.length < 2 ^ 32 → i.toNat ≤ bin.blocklist.length →
    bin.blocklist.drop i.toNat = bs → bs.length < fuel →
    Bin.dedupLoop fuel i bin = some (bin.count bs (distinctBlocks bs)) := by
  induction fuel with
  | zero => exact fun bs i bin _ _ _ h => absurd h (Nat.not_lt_zero _)
  | succ fuel ih =>
    intro bs i bin hlen hle hdrop hfuel
    rcases bs with - | ⟨b, rest⟩
    · have hnone : bin.blocklist[i.toNat]? = none :=
        List.getElem?_eq_none (List.drop_eq_nil_iff.1 hdrop)
      rw [distinctBlocks_nil, Bin.count_nil]
      simp only [Bin.dedupLoop, hnone]
    · obtain ⟨hlt, hget, -⟩ := drop_succ hdrop
      rw [List.length_cons] at hfuel
      have hone : { bin with
          numBlocks := bin.numBlocks + 1
          size := bin.size + b.size
          dedupSize := bin.dedupSize + b.size
          numDedupBlocks := bin.numDedupBlocks + 1 } = bin.count [b] [b] := by
        simp [Bin.count]
      obtain ⟨i', hskip, hi', hrest⟩ := skipEqual_ok rest (fuel + 1) i b (bin.count [b] [b]) hlen
        hdrop (Nat.lt_of_succ_lt hfuel)
      have hi'' := toNat_succ hi' hlen
      have hdropped := (List.dropWhile_sublist (l := rest)
        fun a => decide (a.cksum = b.cksum)).length_le
      rw [Bin.count_count] at hskip
      have hok := ih (rest.dropWhile fun a => decide (a.cksum = b.cksum)) (i' + 1)
        (bin.count ([b] ++ rest.takeWhile fun a => decide (a.cksum = b.cksum)) ([b] ++ []))
        hlen (by rw [hi'']; exact hi') (by rw [hi'']; exact hrest) (by omega)
      simp only [Bin.dedupLoop, hget]
      rw [hone, hskip]
      apply hok.trans
      rw [Bin.count_count, distinctBlocks_cons, List.append_assoc,
        List.takeWhile_append_dropWhile]
      rfl

/-- **`Deduplication`**, of fewer than `2 ^ 32` blocks. -/
theorem deduplication_eq (so : Sorter Block.cksum) (bin : Bin)
    (hlen : bin.blocklist.length < 2 ^ 32) :
    bin.deduplication so =
      some (Bin.count
        { bin with
          numBlocks := 0, size := 0, dedupSize := 0, numDedupBlocks := 0
          blocklist := so.sort bin.blocklist }
        (so.sort bin.blocklist) (distinctBlocks (so.sort bin.blocklist))) := by
  apply dedupLoop_ok _ _ _ _ _ (Nat.zero_le _) rfl (Nat.lt_succ_self _)
  rw [(so.perm bin.blocklist).length_eq]
  exact hlen

theorem sizeOf_perm {bs' : List Block} (h : bs.Perm bs') : sizeOf bs = sizeOf bs' :=
  (h.map fun b : Block => b.size.toNat).sum_eq

/-- The first blocks of the sorted list stand for the bin. -/
theorem representatives_sort (so : Sorter Block.cksum) (bs : List Block) :
    Representatives (distinctBlocks (so.sort bs)) bs :=
  (distinctBlocks_representatives (so.sorted bs)).perm (so.perm bs)

/-- The bytes that it counts. -/
theorem deduplication_ok (so : Sorter Block.cksum) (bin : Bin)
    (hlen : bin.blocklist.length < 2 ^ 32) :
    ∃ bin' reps, bin.deduplication so = some bin' ∧ Representatives reps bin.blocklist ∧
      sizeOf reps ≤ sizeOf bin.blocklist ∧ bin'.size.toNat = sizeOf bin.blocklist % 2 ^ 32 ∧
      bin'.dedupSize.toNat = sizeOf reps % 2 ^ 32 := by
  have hsize := sizeOf_perm (so.perm bin.blocklist)
  refine ⟨_, distinctBlocks (so.sort bin.blocklist), deduplication_eq so bin hlen,
    representatives_sort so bin.blocklist, ?_, ?_, ?_⟩
  · rw [← hsize]
    exact distinctBlocks_le _
  · simp [Bin.count, hsize]
  · simp [Bin.count]

theorem skipEqual_blocklist {i' : UInt32} {bin' : Bin}
    (h : Bin.skipEqual fuel i bin = some (i', bin')) : bin'.blocklist = bin.blocklist := by
  induction fuel generalizing i bin with
  | zero => cases h
  | succ fuel ih =>
    rw [Bin.skipEqual] at h
    split at h
    · split at h
      · have hblocks := ih h
        exact hblocks
      · cases h
        rfl
    · cases h
      rfl

theorem dedupLoop_blocklist {bin' : Bin} (h : Bin.dedupLoop fuel i bin = some bin') :
    bin'.blocklist = bin.blocklist := by
  induction fuel generalizing i bin with
  | zero => cases h
  | succ fuel ih =>
    rw [Bin.dedupLoop] at h
    split at h
    · cases h
      rfl
    · obtain ⟨⟨i', bin1⟩, hskip, hloop⟩ := Option.bind_eq_some_iff.1 h
      have hblocks := skipEqual_blocklist hskip
      exact (ih hloop).trans hblocks

/-- **`Deduplication` only sorts the blocks.** -/
theorem deduplication_blocklist {bin' : Bin} (h : bin.deduplication so = some bin') :
    bin'.blocklist = so.sort bin.blocklist :=
  dedupLoop_blocklist h

/-! ## The bins of a file -/

theorem dedupBins_some {its outs : List (String × Bin)} (h : dedupBins so its = some outs) :
    List.Forall₂ (fun it out => it.1 = out.1 ∧ it.2.deduplication so = some out.2) its outs := by
  induction its generalizing outs with
  | nil =>
    cases h
    exact .nil
  | cons it its ih =>
    rcases hbin : it.2.deduplication so with - | bin
    · simp only [dedupBins, hbin] at h
      cases h
    · rcases hits : dedupBins so its with - | outs'
      · simp only [dedupBins, hbin, hits] at h
        cases h
      · simp only [dedupBins, hbin, hits] at h
        cases h
        exact .cons ⟨rfl, hbin⟩ (ih hits)

theorem dedupBins_ok (so : Sorter Block.cksum) {its : List (String × Bin)}
    (h : ∀ it ∈ its, it.2.blocklist.length < 2 ^ 32) : ∃ outs, dedupBins so its = some outs := by
  induction its with
  | nil => exact ⟨[], rfl⟩
  | cons it its ih =>
    obtain ⟨bin, -, hbin, -⟩ := deduplication_ok so it.2 (h it (.head _))
    obtain ⟨outs, houts⟩ := ih fun it hit => h it (.tail _ hit)
    exact ⟨(it.1, bin) :: outs, by simp only [dedupBins, hbin, houts]; rfl⟩

/-- Step 2 reorders the blocks of a bin and keeps the summary; it returns unless a bin has
`2 ^ 32` blocks. -/
structure Deduplicated (part : OrderedMap String Bin × Summary)
    (run : Option (Summary × List (String × Bin))) : Prop where
  bins : ∀ summary outs, run = some (summary, outs) → summary = part.2 ∧
    List.Forall₂ (fun it out => it.1 = out.1 ∧ out.2.blocklist.Perm it.2.blocklist)
      part.1.entries outs
  returns : (∀ it ∈ part.1.entries, it.2.blocklist.length < 2 ^ 32) → run.isSome

theorem ebDedup_deduplicated (sha1 : List UInt8 → Checksum) (so : Sorter Block.cksum) (seg : Segment)
    (is : List UInt8) : Deduplicated (ebBins sha1 seg is) (ebDedup sha1 so seg is) := by
  rcases hpart : ebBins sha1 seg is with ⟨binmap, summary⟩
  refine ⟨?_, ?_⟩
  · intro summary' outs hrun
    rcases houts : dedupBins so binmap.entries with - | outs'
    · simp only [ebDedup, hpart, houts] at hrun
      cases hrun
    · simp only [ebDedup, hpart, houts] at hrun
      cases hrun
      refine ⟨rfl, (dedupBins_some houts).imp ?_⟩
      rintro it out ⟨hkey, hbin⟩
      rw [deduplication_blocklist hbin]
      exact ⟨hkey, so.perm _⟩
  · intro hlen
    obtain ⟨outs, houts⟩ := dedupBins_ok so hlen
    simp only [ebDedup, hpart, houts]
    rfl

/-- **Extreme binning loses and duplicates nothing, and splits no bin.** Logs of whole
records, with sizes below `2 ^ 31`, are given to `eb_segment` one after another, and the 256
files to `eb_dedup`. -/
theorem ebPipeline (sha1 : List UInt8 → Checksum) (seg seg' : Segment) (logs : List (List Block))
    (h31 : ∀ log ∈ logs, ∀ b ∈ log, b.size.toNat < 2 ^ 31) :
    let dir := ebSegments sha1 seg (fun _ => []) (logs.map fun log => log.flatMap Block.toStream)
    BinsExact (logs.flatMap fun log => Segment.loadAll sha1 seg (log.flatMap Block.toStream))
        (logs.flatten.filter fun b => b.size ≠ 0) (fun i => ebBins sha1 seg' (dir.1 i)) dir.2 ∧
      ∀ so i, Deduplicated (ebBins sha1 seg' (dir.1 i)) (ebDedup sha1 so seg' (dir.1 i)) :=
  ⟨ebBins_exact sha1 seg seg' logs h31, fun so _ => ebDedup_deduplicated sha1 so seg' _⟩

/-- The logs of two versions. -/
theorem ebPipeline_pairs :
    let dir := ebSegments pairsDigest default (fun _ => [])
      ([newerLog, olderLog].map fun log => log.flatMap Block.toStream)
    BinsExact ([newerLog, olderLog].flatMap fun log =>
          Segment.loadAll pairsDigest default (log.flatMap Block.toStream))
        ([newerLog, olderLog].flatten.filter fun b => b.size ≠ 0)
        (fun i => ebBins pairsDigest default (dir.1 i)) dir.2 ∧
      ∀ so i, Deduplicated (ebBins pairsDigest default (dir.1 i))
        (ebDedup pairsDigest so default (dir.1 i)) :=
  ebPipeline pairsDigest default default [newerLog, olderLog] (by decide)

/-- The blocks of the segments of a key. -/
def keyBlocks (sha1 : List UInt8 → Checksum) (bss : List (List Block)) (key : String) : List Block :=
  (membersOf (bss.map (Segment.ofBlocks sha1)) key).flatMap Segment.blocklist

/-- The totals of a file of the segments `bss` are exact: those of the bins add up to that
of the summary, and each is the number of bytes of the blocks, or of the distinct ones. -/
def BytesExact (so : Sorter Block.cksum) (sha1 : List UInt8 → Checksum) (seg : Segment)
    (bss : List (List Block)) : Prop :=
  ∃ summary bins,
    ebDedup sha1 so seg ((bss.map (Segment.ofBlocks sha1)).flatMap Segment.toStream) =
        some (summary, bins) ∧
      (bins.map fun it => it.2.size.toNat).sum = summary.bytes.toNat ∧
      ∀ it ∈ bins, it.2.size.toNat = sizeOf (keyBlocks sha1 bss it.1) ∧
        it.2.dedupSize ≤ it.2.size ∧
        ∃ reps, Representatives reps (keyBlocks sha1 bss it.1) ∧ it.2.dedupSize.toNat = sizeOf reps

/-- The segments of a partition file: no one is empty or has an empty block. -/
def Partitioned (bss : List (List Block)) : Prop :=
  ∀ bs ∈ bss, bs ≠ [] ∧ bs.length < 2 ^ 32 ∧ ∀ b ∈ bs, b.size ≠ 0

variable {bss : List (List Block)} {seg : Segment}

theorem Partitioned.bins (h : Partitioned bss) (sha1 : List UInt8 → Checksum) (seg : Segment) :
    ebBins sha1 seg ((bss.map (Segment.ofBlocks sha1)).flatMap Segment.toStream) =
      (binsOf (bss.map (Segment.ofBlocks sha1)), summaryOf (bss.map (Segment.ofBlocks sha1))) := by
  apply ebBins_eq seg
  intro t ht
  obtain ⟨bs, hbs, rfl⟩ := List.mem_map.1 ht
  rw [Segment.ofBlocks_blocklist]
  exact ⟨(h bs hbs).2.1, rfl⟩

theorem ofBlocks_flatMap (sha1 : List UInt8 → Checksum) (bss : List (List Block)) :
    (bss.map (Segment.ofBlocks sha1)).flatMap Segment.blocklist = bss.flatten := by
  rw [List.flatMap_map]
  simp only [Segment.ofBlocks_blocklist, List.flatMap_id']

theorem Partitioned.keyBlocks (h : Partitioned bss) (sha1 : List UInt8 → Checksum) (key : String) :
    ∀ b ∈ keyBlocks sha1 bss key, b.size ≠ 0 := by
  intro b hb
  obtain ⟨t, ht, hb⟩ := List.mem_flatMap.1 hb
  obtain ⟨bs, hbs, rfl⟩ := List.mem_map.1 (List.mem_filter.1 ht).1
  rw [Segment.ofBlocks_blocklist] at hb
  exact (h bs hbs).2.2 b hb

/-- The bytes of all keys are those of the file. -/
theorem keyBlocks_sum (sha1 : List UInt8 → Checksum) (bss : List (List Block)) :
    ((binsOf (bss.map (Segment.ofBlocks sha1))).entries.map fun it =>
      sizeOf (keyBlocks sha1 bss it.1)).sum = sizeOf bss.flatten := by
  have hperm := (members_perm (bss.map (Segment.ofBlocks sha1))).flatMap_right Segment.blocklist
  rw [List.flatMap_assoc, ofBlocks_flatMap] at hperm
  have hsum := (hperm.map fun b : Block => b.size.toNat).sum_eq
  change sizeOf _ = sizeOf bss.flatten at hsum
  rw [← hsum]
  generalize (binsOf (bss.map (Segment.ofBlocks sha1))).entries = its
  induction its with
  | nil => rfl
  | cons it its ih =>
    rw [List.map_cons, List.sum_cons, List.flatMap_cons, sizeOf_append, ih]
    rfl

/-- A bin's blocks are those of its key. -/
theorem binsOf_keyBlocks {it : String × Bin}
    (hit : it ∈ (binsOf (bss.map (Segment.ofBlocks sha1))).entries) :
    it.2.blocklist = keyBlocks sha1 bss it.1 := by
  rw [(mem_binsOf.1 hit).2, addSegments_blocklist]
  rfl

theorem dedupBins_mem {its outs : List (String × Bin)} (h : dedupBins so its = some outs) :
    ∀ out ∈ outs, ∃ it ∈ its, it.1 = out.1 ∧ it.2.deduplication so = some out.2 := by
  have hall := dedupBins_some h
  clear h
  induction hall with
  | nil => exact fun out h => absurd h List.not_mem_nil
  | cons hit _ ih =>
    intro out hout
    rcases List.mem_cons.1 hout with rfl | hout
    · exact ⟨_, .head _, hit⟩
    · obtain ⟨it, hit, hout⟩ := ih out hout
      exact ⟨it, .tail _ hit, hout⟩

/-- The keys of the bins are those of the map. -/
theorem dedupBins_keys {its outs : List (String × Bin)} (h : dedupBins so its = some outs) :
    outs.map Prod.fst = its.map Prod.fst := by
  have hall := dedupBins_some h
  clear h
  induction hall with
  | nil => rfl
  | cons hit _ ih => rw [List.map_cons, List.map_cons, ih, hit.1]

/-- Totals of the bins that are those of their keys add up to the bytes of the file. -/
theorem bins_sum {outs : List (String × Bin)}
    (h : dedupBins so (binsOf (bss.map (Segment.ofBlocks sha1))).entries = some outs)
    (hsize : ∀ out ∈ outs, out.2.size.toNat = sizeOf (keyBlocks sha1 bss out.1)) :
    (outs.map fun it => it.2.size.toNat).sum = sizeOf bss.flatten := by
  have hmap : outs.map (fun it => it.2.size.toNat) =
      (outs.map Prod.fst).map fun key => sizeOf (keyBlocks sha1 bss key) := by
    rw [List.map_map]
    exact List.map_congr_left hsize
  rw [hmap, dedupBins_keys h, List.map_map]
  exact keyBlocks_sum sha1 bss

/-- **Exact totals fit their counters.** -/
theorem BytesExact.fits (hbss : Partitioned bss) (h : BytesExact so sha1 seg bss) :
    (∀ key, sizeOf (keyBlocks sha1 bss key) < 2 ^ 32) ∧ sizeOf bss.flatten < 2 ^ 64 := by
  obtain ⟨summary, bins, hrun, hsum, hbins⟩ := h
  simp only [ebDedup, hbss.bins] at hrun
  rcases hdedup : dedupBins so (binsOf (bss.map (Segment.ofBlocks sha1))).entries with - | outs
  · rw [hdedup] at hrun
    cases hrun
  rw [hdedup] at hrun
  cases hrun
  refine ⟨?_, ?_⟩
  · intro key
    by_cases hkey : key ∈ bins.map Prod.fst
    · obtain ⟨it, hit, rfl⟩ := List.mem_map.1 hkey
      rw [← (hbins it hit).1]
      exact it.2.size.toNat_lt
    · -- no segment has the key
      rw [dedupBins_keys hdedup] at hkey
      have hnil : membersOf (bss.map (Segment.ofBlocks sha1)) key = [] := by
        by_contra hne
        exact hkey (List.mem_map.2 ⟨(key, (membersOf (bss.map (Segment.ofBlocks sha1)) key).foldl
          Bin.addSegment Bin.new), mem_binsOf.2 ⟨hne, rfl⟩, rfl⟩)
      unfold keyBlocks
      rw [hnil]
      exact Nat.two_pow_pos 32
  · rw [← bins_sum hdedup fun it hit => (hbins it hit).1, hsum]
    exact UInt64.toNat_lt _

theorem sizeOf_le_keyBlocks (sha1 : List UInt8 → Checksum) (hbs : bs ∈ bss) :
    sizeOf bs ≤ sizeOf (keyBlocks sha1 bss (Segment.ofBlocks sha1 bs).getMinHash.toString) := by
  have hmem : Segment.ofBlocks sha1 bs ∈ membersOf (bss.map (Segment.ofBlocks sha1))
      (Segment.ofBlocks sha1 bs).getMinHash.toString :=
    List.mem_filter.2 ⟨List.mem_map_of_mem hbs, decide_eq_true rfl⟩
  have hsub := List.sublist_flatten_of_mem (List.mem_map_of_mem (f := Segment.blocklist) hmem)
  rw [Segment.ofBlocks_blocklist, ← List.flatMap_def] at hsub
  exact (hsub.map fun b : Block => b.size.toNat).sum_le_sum fun _ _ => Nat.zero_le _

/-- **When the byte totals are exact**: no min-hash has segments of `2 ^ 32` bytes or more,
and the file has less than `2 ^ 64`. -/
theorem bytesExact_iff (so : Sorter Block.cksum) (sha1 : List UInt8 → Checksum) (seg : Segment)
    (bss : List (List Block)) (hbss : Partitioned bss) :
    BytesExact so sha1 seg bss ↔
      (∀ key, sizeOf (keyBlocks sha1 bss key) < 2 ^ 32) ∧ sizeOf bss.flatten < 2 ^ 64 := by
  refine ⟨fun h => h.fits hbss, ?_⟩
  rintro ⟨hkeys, htotal⟩
  have hlen : ∀ it ∈ (binsOf (bss.map (Segment.ofBlocks sha1))).entries,
      it.2.blocklist.length < 2 ^ 32 := by
    intro it hit
    rw [binsOf_keyBlocks hit]
    exact (length_le_sizeOf (hbss.keyBlocks sha1 it.1)).trans_lt (hkeys it.1)
  obtain ⟨outs, houts⟩ := dedupBins_ok so hlen
  have hbins : ∀ out ∈ outs, out.2.size.toNat = sizeOf (keyBlocks sha1 bss out.1) ∧
      out.2.dedupSize ≤ out.2.size ∧
      ∃ reps, Representatives reps (keyBlocks sha1 bss out.1) ∧
        out.2.dedupSize.toNat = sizeOf reps := by
    intro out hout
    obtain ⟨it, hit, hkey, hdedup⟩ := dedupBins_mem houts out hout
    obtain ⟨bin', reps, hok, hreps, hle, hsize, hdedupSize⟩ := deduplication_ok so it.2 (hlen it hit)
    rw [hdedup] at hok
    cases hok
    rw [binsOf_keyBlocks hit, hkey] at hreps hle hsize
    have hlt := hkeys out.1
    rw [Nat.mod_eq_of_lt hlt] at hsize
    rw [Nat.mod_eq_of_lt (hle.trans_lt hlt)] at hdedupSize
    refine ⟨hsize, ?_, reps, hreps, hdedupSize⟩
    rw [UInt32.le_iff_toNat_le, hsize, hdedupSize]
    exact hle
  have hlogs : FromLogs sha1 (bss.map (Segment.ofBlocks sha1)) := by
    intro t ht
    obtain ⟨bs, hbs, rfl⟩ := List.mem_map.1 ht
    obtain ⟨hne, -, hsizes⟩ := hbss bs hbs
    rw [Segment.ofBlocks_blocklist]
    exact ⟨hne, rfl, (sizeOf_le_keyBlocks sha1 hbs).trans_lt (hkeys _), hsizes⟩
  have hbytes := hlogs.bytes
  rw [ofBlocks_flatMap] at hbytes
  refine ⟨_, outs, by simp only [ebDedup, hbss.bins, houts]; rfl, ?_, hbins⟩
  rw [bins_sum houts fun it hit => (hbins it hit).1, summaryOf_bytes, toNat_sum, List.map_map]
  exact ((Nat.mod_eq_of_lt (hbytes.trans_lt htotal)).trans hbytes).symm

/-- A block of 4 KB. -/
def pageBlock : Block := { (default : Block) with size := 4096 }

/-- A file of one segment. -/
theorem bytesExact_page :
    BytesExact (.merge Block.cksum) (fun _ => default) default [[pageBlock]] ↔
      (∀ key, sizeOf (keyBlocks (fun _ => default) [[pageBlock]] key) < 2 ^ 32) ∧
        sizeOf [[pageBlock]].flatten < 2 ^ 64 := by
  refine bytesExact_iff (.merge Block.cksum) (fun _ => default) default [[pageBlock]] ?_
  intro bs hbs
  rw [List.mem_singleton.1 hbs]
  refine ⟨List.cons_ne_nil _ _, by decide, ?_⟩
  intro b hb
  rw [List.mem_singleton.1 hb]
  decide

theorem sizeOf_replicate (n : ℕ) (b : Block) : sizeOf (List.replicate n b) = n * b.size.toNat := by
  unfold sizeOf
  rw [List.map_replicate, List.sum_replicate, Nat.nsmul_eq_mul]

theorem sizeOf_flatten_replicate (n : ℕ) (bs : List Block) :
    sizeOf (List.replicate n bs).flatten = n * sizeOf bs := by
  induction n with
  | zero => rw [List.replicate_zero, List.flatten_nil, sizeOf_nil, Nat.zero_mul]
  | succ n ih =>
    rw [List.replicate_succ, List.flatten_cons, sizeOf_append, ih, Nat.succ_mul, Nat.add_comm]

/-- 2048 equal segments of 2 MB. -/
theorem not_bytesExact_page :
    ¬ BytesExact (.merge Block.cksum) (fun _ => default) default
      (List.replicate 2048 (List.replicate 512 pageBlock)) := by
  set page := List.replicate 512 pageBlock with hpage
  have hne : page ≠ [] := List.ne_nil_of_length_pos (by rw [hpage, List.length_replicate]; decide)
  have hbss : Partitioned (List.replicate 2048 page) := by
    intro bs hbs
    rw [List.eq_of_mem_replicate hbs]
    refine ⟨hne, by rw [hpage, List.length_replicate]; decide, ?_⟩
    intro b hb
    rw [List.eq_of_mem_replicate hb]
    decide
  intro h
  have hlt := (h.fits hbss).1 (Segment.ofBlocks (fun _ => default) page).getMinHash.toString
  -- all segments have the key
  have hall : membersOf ((List.replicate 2048 page).map (Segment.ofBlocks fun _ => default))
      (Segment.ofBlocks (fun _ => default) page).getMinHash.toString =
        (List.replicate 2048 page).map (Segment.ofBlocks fun _ => default) := by
    apply List.filter_eq_self.2
    intro t ht
    obtain ⟨bs, hbs, rfl⟩ := List.mem_map.1 ht
    rw [List.eq_of_mem_replicate hbs]
    exact decide_eq_true rfl
  have hsize : pageBlock.size.toNat = 4096 := rfl
  unfold keyBlocks at hlt
  rw [hall, ofBlocks_flatMap, sizeOf_flatten_replicate, hpage, sizeOf_replicate, hsize] at hlt
  omega

end DedupSim
