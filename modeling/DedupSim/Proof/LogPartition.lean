import DedupSim.Proof.Segment

/-!
# A log cut into segments

* `loadCalls`: the calls of `LoadFixSize` on one stream, also those after the end.
* `segmentsOf_full`: every segment but the last reaches 2 MB.
* `loadCalls_eq`: the calls return the segments of `loadAll` one after another, then
  false for good.
* `loadFixSize_partition`: **the loop cuts any log into its records**, none of them lost.
-/

namespace DedupSim

variable {bs : List Block} {acc : ℕ}

/-- A file is its records, and fewer than 36 bytes after them. -/
theorem readAll_split (is : List UInt8) :
    ∃ tail, is = (Block.reader.readAll is).flatMap Block.toStream ++ tail ∧
      tail.length < recordSize := by
  induction h : is.length using Nat.strong_induction_on generalizing is with
  | _ n ih =>
    subst h
    rcases hr : Block.fromStream is with ⟨_ | b, rest⟩
    · rw [Block.reader.readAll_none hr]
      exact ⟨is, rfl, (Block.fromStream_none hr).1⟩
    · obtain ⟨tail, hrest, htail⟩ := ih _ (Block.fromStream_lt hr) rest rfl
      refine ⟨tail, ?_, htail⟩
      rw [Block.reader.readAll_some hr, List.flatMap_cons, List.append_assoc, ← hrest]
      exact Block.fromStream_some hr

/-- A segment reaches 2 MB unless the blocks run out. -/
theorem takeSegment_full (acc : ℕ) (bs : List Block) :
    fixSegmentSize ≤ acc + sizeOf (takeSegment acc bs).1 ∨ (takeSegment acc bs).2 = [] := by
  induction bs generalizing acc with
  | nil => exact .inr rfl
  | cons b bs ih =>
    unfold takeSegment
    split
    · exact ih acc
    · split
      · left
        simpa using ‹_›
      · simp only [sizeOf_cons, ← Nat.add_assoc]
        exact ih _

/-- The block before the last does not reach 2 MB. -/
theorem takeSegment_dropLast (bs : List Block) (hacc : acc < fixSegmentSize) :
    acc + sizeOf (takeSegment acc bs).1.dropLast < fixSegmentSize := by
  induction bs generalizing acc with
  | nil => exact hacc
  | cons b bs ih =>
    unfold takeSegment
    split
    · exact ih hacc
    · split
      · exact hacc
      · have hlt := ih (not_le.1 ‹_›)
        rcases hs : (takeSegment (acc + b.size.toNat) bs).1 with _ | ⟨b', s⟩
        · exact hacc
        · rw [hs] at hlt
          rw [List.dropLast_cons_cons, sizeOf_cons]
          omega

theorem segmentsOf_dropLast (bs : List Block) :
    ∀ s ∈ segmentsOf bs, sizeOf s.dropLast < fixSegmentSize := by
  intro s hs
  obtain ⟨bs', -, rfl, -⟩ := mem_segmentsOf hs
  have hlt := takeSegment_dropLast bs' (show 0 < fixSegmentSize by decide)
  rwa [Nat.zero_add] at hlt

/-- **Every segment but the last reaches 2 MB.** -/
theorem segmentsOf_full (bs : List Block) :
    ∀ s ∈ (segmentsOf bs).dropLast, fixSegmentSize ≤ sizeOf s := by
  induction bs using segmentsOf.induct with
  | case1 bs h0 =>
    unfold segmentsOf
    rw [if_pos h0]
    exact fun s hs => absurd hs List.not_mem_nil
  | case2 bs h0 ih =>
    unfold segmentsOf
    rw [if_neg h0]
    rcases hsegs : segmentsOf (takeSegment 0 bs).2 with _ | ⟨t, ts⟩
    · exact fun s hs => absurd hs List.not_mem_nil
    · rw [hsegs] at ih
      rw [List.dropLast_cons_cons]
      intro s hs
      rcases List.mem_cons.1 hs with rfl | hs
      · rcases takeSegment_full 0 bs with hfull | hnil
        · rwa [Nat.zero_add] at hfull
        · -- there is a segment after it, so blocks are left
          rw [hnil, segmentsOf, if_pos (by rfl)] at hsegs
          cases hsegs
      · exact ih s hs

/-! ## One call after another -/

namespace Segment

variable {sha1 : List UInt8 → Checksum} {seg : Segment} {is : List UInt8}

/-- The call with number `n`, from 0 on, of `LoadFixSize` for one segment object and one
stream. -/
def loadCalls (sha1 : List UInt8 → Checksum) (seg : Segment) (is : List UInt8) :
    ℕ → Bool × Segment × List UInt8
  | 0 => loadFixSize sha1 seg is
  | n + 1 =>
    let (_, seg, is) := loadCalls sha1 seg is n
    loadFixSize sha1 seg is

/-- The calls after the first one are those on what it leaves. -/
theorem loadCalls_succ (n : ℕ) :
    loadCalls sha1 seg is (n + 1) =
      loadCalls sha1 (loadFixSize sha1 seg is).2.1 (loadFixSize sha1 seg is).2.2 n := by
  induction n with
  | zero => rfl
  | succ n ih =>
    rw [loadCalls, ih]
    rfl

/-- **What a call does to the segments that are left**: it fails, and every later call will
find no record, or it takes the first of them. -/
theorem loadFixSize_cases (sha1 : List UInt8 → Checksum) (seg : Segment)
    (h31 : ∀ b ∈ Block.reader.readAll is, b.size.toNat < 2 ^ 31) :
    ((loadFixSize sha1 seg is).1 = false ∧ loadAll sha1 seg is = [] ∧
        Block.reader.readAll (loadFixSize sha1 seg is).2.2 = []) ∨
      ∃ t rest, loadFixSize sha1 seg is = (true, t, rest) ∧
        loadAll sha1 seg is = t :: loadAll sha1 t rest ∧
        ∀ b ∈ Block.reader.readAll rest, b.size.toNat < 2 ^ 31 := by
  rcases loadWith_cases Block.reader sha1 seg h31 with ⟨hend, -⟩ | ⟨s, rest, hl, -, -, h31r⟩
  · refine .inl ⟨hend, loadAll_false hend, ?_⟩
    obtain ⟨hok, -, hrest⟩ := loadWith_eq Block.reader sha1 seg is h31
    have hnil : (takeSegment 0 (Block.reader.readAll is)).1 = [] := by
      by_contra hne
      rw [hok.2 hne] at hend
      cases hend
    exact hrest.trans (takeSegment_nil 0 _ hnil)
  · exact .inr ⟨_, rest, hl, loadAll_true hl, h31r⟩

/-- **The calls return the segments in order, then false.** -/
theorem loadCalls_eq (n : ℕ) : ∀ seg is, (∀ b ∈ Block.reader.readAll is, b.size.toNat < 2 ^ 31) →
    ((loadCalls sha1 seg is n).1 = true ↔ n < (loadAll sha1 seg is).length) ∧
      ∀ h : n < (loadAll sha1 seg is).length,
        (loadCalls sha1 seg is n).2.1 = (loadAll sha1 seg is)[n] := by
  induction n with
  | zero =>
    intro seg is h31
    unfold loadCalls
    rcases loadFixSize_cases sha1 seg h31 with ⟨hend, hnil, -⟩ | ⟨t, rest, hl, hall, -⟩
    · simp [hend, hnil]
    · simp [hl, hall]
  | succ n ih =>
    intro seg is h31
    rw [loadCalls_succ]
    rcases loadFixSize_cases sha1 seg h31 with ⟨-, hnil, hrest⟩ | ⟨t, rest, hl, hall, h31r⟩
    · -- a call that fails leaves no record for the next one
      have h31r : ∀ b ∈ Block.reader.readAll (loadFixSize sha1 seg is).2.2, b.size.toNat < 2 ^ 31 := by
        simp [hrest]
      have hnext : loadAll sha1 (loadFixSize sha1 seg is).2.1 (loadFixSize sha1 seg is).2.2 = [] := by
        rw [loadAll_eq _ _ _ h31r, hrest, segmentsOf, if_pos (by rfl), List.map_nil]
      have hfalse := (ih (loadFixSize sha1 seg is).2.1 _ h31r).1
      rw [hnext] at hfalse
      simp [hfalse, hnil]
    · have := ih t rest h31r
      simpa [hl, hall] using this

/-- A log's segments hold their bytes, and reach 2 MB with their last block or not at all. -/
theorem loadAll_sizes (sha1 : List UInt8 → Checksum) (seg : Segment)
    (h31 : ∀ b ∈ Block.reader.readAll is, b.size.toNat < 2 ^ 31) :
    (∀ t ∈ loadAll sha1 seg is, t.blocklist ≠ [] ∧ t.size.toNat = sizeOf t.blocklist ∧
        sizeOf t.blocklist.dropLast < fixSegmentSize) ∧
      ∀ t ∈ (loadAll sha1 seg is).dropLast, fixSegmentSize ≤ t.size.toNat := by
  have hsize : ∀ s ∈ segmentsOf (Block.reader.readAll is),
      (ofBlocks sha1 s).size.toNat = sizeOf s := by
    intro s hs
    have hlt := segmentsOf_lt h31 s hs
    unfold fixSegmentSize at hlt
    change ((default : Segment).init.addBlocks s).size.toNat = _
    rw [addBlocks_size]
    · exact Nat.zero_add _
    · change 0 + _ < _
      omega
  rw [loadAll_eq sha1 is seg h31, ← List.map_dropLast]
  constructor
  · intro t ht
    obtain ⟨s, hs, rfl⟩ := List.mem_map.1 ht
    rw [ofBlocks_blocklist]
    exact ⟨segmentsOf_ne_nil _ s hs, hsize s hs, segmentsOf_dropLast _ s hs⟩
  · intro t ht
    obtain ⟨s, hs, rfl⟩ := List.mem_map.1 ht
    rw [hsize s (List.dropLast_subset _ hs)]
    exact segmentsOf_full _ s hs

/-- **`LoadFixSize` partitions any log.** Called until it returns false, it yields segments
that hold, in order, exactly the log's whole records that are not empty. None of them is
empty, each is below 2 MB before its last block, every one but the last reaches 2 MB, and
after the first false there is no other answer. -/
theorem loadFixSize_partition (sha1 : List UInt8 → Checksum) (seg : Segment) (is : List UInt8)
    (h31 : ∀ b ∈ Block.reader.readAll is, b.size.toNat < 2 ^ 31) :
    (∃ tail, is = (Block.reader.readAll is).flatMap Block.toStream ++ tail ∧
        tail.length < recordSize) ∧
      let segs := loadAll sha1 seg is
      (∀ n, (loadCalls sha1 seg is n).1 = true ↔ n < segs.length) ∧
        (∀ n, ∀ h : n < segs.length, (loadCalls sha1 seg is n).2.1 = segs[n]) ∧
        segs.flatMap blocklist = (Block.reader.readAll is).filter (fun b => b.size ≠ 0) ∧
        (∀ t ∈ segs, t.blocklist ≠ []) ∧
        (∀ t ∈ segs, t.size.toNat = sizeOf t.blocklist) ∧
        (∀ t ∈ segs.dropLast, fixSegmentSize ≤ t.size.toNat) ∧
        ∀ t ∈ segs, sizeOf t.blocklist.dropLast < fixSegmentSize := by
  obtain ⟨hsizes, hfull⟩ := loadAll_sizes sha1 seg h31
  refine ⟨readAll_split is, ?_, ?_, loadAll_blocks sha1 seg h31, ?_, ?_, hfull, ?_⟩
  · exact fun n => (loadCalls_eq n seg is h31).1
  · exact fun n => (loadCalls_eq n seg is h31).2
  · exact fun t ht => (hsizes t ht).1
  · exact fun t ht => (hsizes t ht).2.1
  · exact fun t ht => (hsizes t ht).2.2

/-- A block of one byte, an empty one, and a record that is cut off. -/
theorem loadFixSize_partition_two :
    let is := [{ (default : Block) with size := 1 }, default].flatMap Block.toStream ++ [0, 0, 0]
    let segs := loadAll (fun _ => default) default is
    (∀ n, (loadCalls (fun _ => default) default is n).1 = true ↔ n < segs.length) ∧
      segs.flatMap blocklist = [{ (default : Block) with size := 1 }] := by
  have hall := readAll_flatMap [{ (default : Block) with size := 1 }, default]
    (show [(0 : UInt8), 0, 0].length < recordSize by decide)
  obtain ⟨-, hcalls, -, hblocks, -⟩ := loadFixSize_partition (fun _ => default) default
    ([{ (default : Block) with size := 1 }, default].flatMap Block.toStream ++ [0, 0, 0]) (by
      rw [hall]
      decide)
  refine ⟨hcalls, ?_⟩
  rw [hblocks, hall]
  rfl

end Segment

end DedupSim
