import DedupSim.Proof.BinDedup

/-!
# The statistics of a bin

* `Bin.run`: calls of `AddSegment` and `Deduplication`, in any order.
* `run_inserted`: a bin holds the blocks that were added, in some order, and counts them.
* `statistics_exact`: **a bin that was deduplicated last has the numbers of its blocks**, and
  they depend on the blocks only.
-/

namespace DedupSim

namespace Bin

variable {bs bs' : List Block} {bin : Bin}

/-! ## Calls -/

/-- A call on a bin. Each `Deduplication` has a `std::sort` of its own. -/
inductive Call where
  | addSegment (seg : Segment)
  | deduplication (so : Sorter Block.cksum)

/-- A call; `none` stands for one that does not return. -/
def call (bin : Bin) : Call → Option Bin
  | .addSegment seg => some (bin.addSegment seg)
  | .deduplication so => bin.deduplication so

/-- The calls one after another. -/
def run (bin : Bin) (calls : List Call) : Option Bin := calls.foldlM call bin

/-- The blocks of the segments that are added. -/
def added (calls : List Call) : List Block :=
  calls.flatMap fun
    | .addSegment seg => seg.blocklist
    | .deduplication _ => []

/-- The blocks of a bin in any order, and what `AddSegment` counts of them. -/
structure Inserted (bs : List Block) (bin : Bin) : Prop where
  blocks : bin.blocklist.Perm bs
  numBlocks1 : bin.numBlocks1 = UInt32.ofNat bs.length
  size1 : bin.size1 = UInt32.ofNat (sizeOf bs)

theorem new_inserted : Inserted [] new := ⟨.refl _, rfl, rfl⟩

/-- The loop of `AddSegment`. -/
theorem foldl_addSegment (bs : List Block) (bin : Bin) :
    bs.foldl (fun bin blk =>
        { bin with size1 := bin.size1 + blk.size, numBlocks1 := bin.numBlocks1 + 1 }) bin =
      { bin with
        size1 := bin.size1 + UInt32.ofNat (sizeOf bs)
        numBlocks1 := bin.numBlocks1 + UInt32.ofNat bs.length } := by
  induction bs generalizing bin with
  | nil => simp
  | cons b bs ih =>
    rw [List.foldl_cons, ih]
    simp [UInt32.ofNat_add, UInt32.add_assoc, UInt32.add_comm 1]

theorem Inserted.addSegment (h : Inserted bs bin) (seg : Segment) :
    Inserted (bs ++ seg.blocklist) (bin.addSegment seg) := by
  unfold Bin.addSegment
  simp only [foldl_addSegment]
  refine ⟨h.blocks.append_right _, ?_, ?_⟩
  · simp only [h.numBlocks1, List.length_append, UInt32.ofNat_add]
  · simp only [h.size1, sizeOf_append, UInt32.ofNat_add]

theorem Inserted.deduplication (h : Inserted bs bin) (so : Sorter Block.cksum)
    (hlen : bs.length < 2 ^ 32) :
    ∃ bin', bin.deduplication so = some bin' ∧ Inserted bs bin' :=
  ⟨_, deduplication_eq so bin (by rwa [h.blocks.length_eq]), (so.perm _).trans h.blocks,
    h.numBlocks1, h.size1⟩

/-- **A bin holds the blocks that were added**, whatever calls it had. -/
theorem run_inserted (calls : List Call) : ∀ {bs : List Block} {bin : Bin}, Inserted bs bin →
    (bs ++ added calls).length < 2 ^ 32 →
      ∃ bin', bin.run calls = some bin' ∧ Inserted (bs ++ added calls) bin' := by
  induction calls with
  | nil =>
    intro bs bin h _
    unfold added
    rw [List.flatMap_nil, List.append_nil]
    exact ⟨bin, rfl, h⟩
  | cons c calls ih =>
    intro bs bin h hlen
    cases c with
    | addSegment seg =>
      have hadded : bs ++ added (.addSegment seg :: calls) = bs ++ seg.blocklist ++ added calls :=
        (List.append_assoc _ _ _).symm
      rw [hadded] at hlen ⊢
      exact ih (h.addSegment seg) hlen
    | deduplication so =>
      change (bs ++ added calls).length < 2 ^ 32 at hlen
      obtain ⟨bin1, hdedup, h1⟩ := h.deduplication so (by
        rw [List.length_append] at hlen
        omega)
      obtain ⟨bin', hrun, h'⟩ := ih h1 hlen
      refine ⟨bin', ?_, h'⟩
      change (bin.deduplication so).bind (fun bin => bin.run calls) = some bin'
      rw [hdedup]
      exact hrun

/-! ## Numbers -/

/-- All blocks, and one for each checksum. -/
structure Counted (bs : List Block) (bin : Bin) : Prop where
  numBlocks : bin.numBlocks.toNat = bs.length
  size : bin.size.toNat = sizeOf bs
  numBlocks1 : bin.numBlocks1 = bin.numBlocks
  size1 : bin.size1 = bin.size
  numDedupBlocks : bin.numDedupBlocks.toNat = (bs.map Block.cksum).toFinset.card
  dedupSize : ∀ reps, Representatives reps bs → bin.dedupSize.toNat = sizeOf reps

/-- What the counters say. -/
def statistics (bin : Bin) : List UInt32 :=
  [bin.numBlocks, bin.numBlocks1, bin.numDedupBlocks, bin.size, bin.size1, bin.dedupSize]

end Bin

variable {bs reps reps' : List Block} {bin bin' : Bin}

/-- A block for each checksum: as many as there are checksums. -/
theorem Representatives.length (h : Representatives reps bs) :
    reps.length = (bs.map Block.cksum).toFinset.card := by
  rw [← List.length_map (f := Block.cksum), ← List.toFinset_card_of_nodup h.nodup]
  congr 1
  ext c
  rw [List.mem_toFinset, List.mem_toFinset]
  constructor
  · intro hc
    obtain ⟨b, hb, rfl⟩ := List.mem_map.1 hc
    exact List.mem_map_of_mem (h.mem b hb)
  · intro hc
    obtain ⟨b, hb, rfl⟩ := List.mem_map.1 hc
    exact h.all b hb

/-- **It does not matter which block stands for a checksum**, when their sizes agree. -/
theorem Representatives.sizeOf_eq (h : Representatives reps bs) (h' : Representatives reps' bs)
    (hsame : SizesAgree bs) : sizeOf reps = sizeOf reps' := by
  have hsub : ∀ {r r' : List Block}, Representatives r bs → Representatives r' bs →
      ∀ p ∈ r.map fun b => (b.cksum, b.size), p ∈ r'.map fun b => (b.cksum, b.size) := by
    intro r r' hr hr' p hp
    obtain ⟨b, hb, rfl⟩ := List.mem_map.1 hp
    obtain ⟨b', hb', heq⟩ := List.mem_map.1 (hr'.all b (hr.mem b hb))
    refine List.mem_map.2 ⟨b', hb', Prod.ext heq ?_⟩
    exact hsame b' (hr'.mem b' hb') b (hr.mem b hb) heq
  have hnodup : ∀ {r : List Block}, Representatives r bs →
      (r.map fun b => (b.cksum, b.size)).Nodup := by
    intro r hr
    apply List.Nodup.of_map Prod.fst
    rw [List.map_map]
    exact hr.nodup
  have hperm : (reps.map fun b => (b.cksum, b.size)).Perm (reps'.map fun b => (b.cksum, b.size)) :=
    (List.perm_ext_iff_of_nodup (hnodup h) (hnodup h')).2 fun p => ⟨hsub h h' p, hsub h' h p⟩
  have hsum := (hperm.map fun p => p.2.toNat).sum_eq
  rw [List.map_map, List.map_map] at hsum
  exact hsum

namespace Bin

/-- **What `Deduplication` leaves**, of blocks that are counted so far. -/
theorem Inserted.counted (h : Inserted bs bin) (so : Sorter Block.cksum)
    (hlen : bs.length < 2 ^ 32) (hbytes : sizeOf bs < 2 ^ 32) (hsame : SizesAgree bs) :
    ∃ bin', bin.deduplication so = some bin' ∧ Counted bs bin' := by
  have hreps := (representatives_sort so bin.blocklist).perm h.blocks
  have hperm := (so.perm bin.blocklist).trans h.blocks
  have hsize : sizeOf (distinctBlocks (so.sort bin.blocklist)) ≤ sizeOf bs := by
    rw [← sizeOf_perm hperm]
    exact distinctBlocks_le _
  have hcard : (distinctBlocks (so.sort bin.blocklist)).length ≤ bs.length := by
    rw [hreps.length]
    exact (List.toFinset_card_le _).trans_eq (List.length_map _)
  refine ⟨_, deduplication_eq so bin (by rwa [h.blocks.length_eq]), ?_, ?_, ?_, ?_, ?_, ?_⟩
  · simpa [count, hperm.length_eq] using hlen
  · simpa [count, sizeOf_perm hperm] using hbytes
  · simp [count, hperm.length_eq, h.numBlocks1]
  · simp [count, sizeOf_perm hperm, h.size1]
  · rw [← hreps.length]
    simpa [count] using hcard.trans_lt hlen
  · intro reps hr
    rw [hr.sizeOf_eq hreps hsame]
    simpa [count] using hsize.trans_lt hbytes

/-- Counters that are right are those of the blocks in any order. -/
theorem Counted.statistics_eq (h : Counted bs bin) (h' : Counted bs' bin') (hperm : bs'.Perm bs) :
    bin'.statistics = bin.statistics := by
  have hreps := representatives_sort (.merge Block.cksum) bs
  have h1 : bin'.numBlocks = bin.numBlocks :=
    UInt32.toNat_inj.1 (by rw [h'.numBlocks, h.numBlocks, hperm.length_eq])
  have h2 : bin'.size = bin.size :=
    UInt32.toNat_inj.1 (by rw [h'.size, h.size, sizeOf_perm hperm])
  have h3 : bin'.numDedupBlocks = bin.numDedupBlocks := by
    apply UInt32.toNat_inj.1
    rw [h'.numDedupBlocks, h.numDedupBlocks, List.toFinset_eq_of_perm _ _ (hperm.map Block.cksum)]
  have h4 : bin'.dedupSize = bin.dedupSize :=
    UInt32.toNat_inj.1 (by rw [h'.dedupSize _ (hreps.perm hperm.symm), h.dedupSize _ hreps])
  unfold statistics
  rw [h'.numBlocks1, h'.size1, h.numBlocks1, h.size1, h1, h2, h3, h4]

/-- A run that ends with `Deduplication`. -/
theorem run_counted (calls : List Call) (so : Sorter Block.cksum)
    (hlen : (added calls).length < 2 ^ 32) (hbytes : sizeOf (added calls) < 2 ^ 32)
    (hsame : SizesAgree (added calls)) :
    ∃ bin, new.run (calls ++ [.deduplication so]) = some bin ∧ Counted (added calls) bin := by
  obtain ⟨bin, hrun, h⟩ := run_inserted calls new_inserted hlen
  obtain ⟨bin', hdedup, h'⟩ := h.counted so hlen hbytes hsame
  refine ⟨bin', ?_, h'⟩
  unfold run
  rw [List.foldlM_append]
  change (new.run calls).bind (fun bin => [Call.deduplication so].foldlM call bin) = some bin'
  rw [hrun]
  change (bin.deduplication so).bind some = some bin'
  rw [hdedup]
  rfl

/-- **The statistics of a bin** that was deduplicated last: all blocks that were ever added and
their bytes, counted in two ways, and one block for each checksum. They are the same for any
calls that add the same blocks, whatever the sort does with equal elements. -/
theorem statistics_exact (calls : List Call) (so : Sorter Block.cksum)
    (hlen : (added calls).length < 2 ^ 32) (hbytes : sizeOf (added calls) < 2 ^ 32)
    (hsame : SizesAgree (added calls)) :
    ∃ bin, new.run (calls ++ [.deduplication so]) = some bin ∧ Counted (added calls) bin ∧
      (∃ reps, Representatives reps (added calls)) ∧
      ∀ calls' so', (added calls').Perm (added calls) →
        ∃ bin', new.run (calls' ++ [.deduplication so']) = some bin' ∧
          bin'.statistics = bin.statistics := by
  obtain ⟨bin, hrun, h⟩ := run_counted calls so hlen hbytes hsame
  refine ⟨bin, hrun, h, ⟨_, representatives_sort (.merge Block.cksum) _⟩, ?_⟩
  intro calls' so' hperm
  obtain ⟨bin', hrun', h'⟩ := run_counted calls' so' (by rwa [hperm.length_eq])
    (by rwa [sizeOf_perm hperm])
    (fun a ha b hb => hsame a (hperm.mem_iff.1 ha) b (hperm.mem_iff.1 hb))
  exact ⟨bin', hrun', h.statistics_eq h' hperm⟩

/-- A segment of one block, added twice and deduplicated after each time. -/
theorem statistics_exact_two :
    ∃ bin, new.run ([.addSegment ((default : Segment).addBlock { (default : Block) with size := 1 }),
          .deduplication (.merge _),
          .addSegment ((default : Segment).addBlock { (default : Block) with size := 1 })] ++
        [.deduplication (.merge _)]) = some bin ∧
      bin.numBlocks.toNat = 2 ∧ bin.numDedupBlocks.toNat = 1 := by
  obtain ⟨bin, hrun, hcounted, -⟩ := statistics_exact
    [.addSegment ((default : Segment).addBlock { (default : Block) with size := 1 }),
      .deduplication (.merge _),
      .addSegment ((default : Segment).addBlock { (default : Block) with size := 1 })]
    (.merge _) (by decide) (by decide) (by unfold SizesAgree; decide)
  exact ⟨bin, hrun, hcounted.numBlocks, hcounted.numDedupBlocks⟩

end Bin

end DedupSim
