import DedupSim.Proof.LogPartition
import DedupSim.Proof.SegmentCode

/-!
# Segments without their numbers of blocks

`SaveRaw` writes the blocks of a segment and not how many they are, so the borders of the segments
are where `LoadFixSize` puts them.

* `CutSegments`: lists of blocks that are cut at 2 MB; `segmentsOf_cut`: a log is cut so.
* `segmentsOf_flatten_eq`: these are cut again as they were.
* `saveRaw_iff`: **when segments survive the raw format.**
-/

namespace DedupSim

variable {bs rest s : List Block} {ss : List (List Block)} {acc : ℕ}

/-! ## The borders -/

/-- Lists of blocks with the borders that the loader makes: each holds no empty block and is below
2 MB without its last block, and only the last list may be below 2 MB with it. -/
structure CutSegments (ss : List (List Block)) : Prop where
  ne_nil : ∀ s ∈ ss, s ≠ []
  ne_zero : ∀ s ∈ ss, ∀ b ∈ s, b.size ≠ 0
  minimal : ∀ s ∈ ss, sizeOf s.dropLast < fixSegmentSize
  full : ∀ s ∈ ss.dropLast, fixSegmentSize ≤ sizeOf s

theorem segmentsOf_nil : segmentsOf [] = [] := by
  unfold segmentsOf
  exact if_pos rfl

/-- **A log is cut so.** -/
theorem segmentsOf_cut (bs : List Block) : CutSegments (segmentsOf bs) where
  ne_nil := segmentsOf_ne_nil bs
  ne_zero s hs := by
    obtain ⟨bs', -, rfl, -⟩ := mem_segmentsOf hs
    exact takeSegment_ne_zero 0 bs'
  minimal := segmentsOf_dropLast bs
  full := segmentsOf_full bs

/-- Blocks that are cut are taken as they are. -/
theorem takeSegment_append (hs : s ≠ []) (hne : ∀ b ∈ s, b.size ≠ 0)
    (hmin : acc + sizeOf s.dropLast < fixSegmentSize)
    (hend : acc + sizeOf s < fixSegmentSize → rest = []) :
    takeSegment acc (s ++ rest) = (s, rest) := by
  induction s generalizing acc with
  | nil => exact absurd rfl hs
  | cons b s ih =>
    rw [List.cons_append, takeSegment, if_neg (hne b (.head _))]
    rcases s with - | ⟨b', s⟩
    · by_cases hfull : fixSegmentSize ≤ acc + b.size.toNat
      · rw [if_pos hfull]
        rfl
      · rw [sizeOf_cons, sizeOf_nil] at hend
        rw [if_neg hfull, hend (by omega)]
        rfl
    · -- the next block is in the same segment, so this one does not fill it
      change acc + sizeOf (b :: (b' :: s).dropLast) < fixSegmentSize at hmin
      rw [sizeOf_cons] at hmin hend
      have hrest : takeSegment (acc + b.size.toNat) (b' :: s ++ rest) = (b' :: s, rest) := by
        apply ih (List.cons_ne_nil _ _) (fun x hx => hne x (.tail _ hx))
        · omega
        · exact fun h => hend (by omega)
      rw [if_neg (by omega), hrest]

/-- **These are cut again as they were.** -/
theorem segmentsOf_flatten_eq (h : CutSegments ss) : segmentsOf ss.flatten = ss := by
  induction ss with
  | nil => exact segmentsOf_nil
  | cons s ss ih =>
    have hs := h.ne_nil s (.head _)
    have htake : takeSegment 0 (s ++ ss.flatten) = (s, ss.flatten) := by
      apply takeSegment_append hs (h.ne_zero s (.head _))
      · rw [Nat.zero_add]
        exact h.minimal s (.head _)
      · intro hlt
        rcases ss with - | ⟨s', ss⟩
        · rfl
        · have := h.full s (.head _)
          omega
    have hss : CutSegments ss := by
      refine ⟨fun t ht => h.ne_nil t (.tail _ ht), fun t ht => h.ne_zero t (.tail _ ht),
        fun t ht => h.minimal t (.tail _ ht), fun t ht => h.full t ?_⟩
      rw [List.dropLast_cons_of_ne_nil (List.ne_nil_of_mem (List.dropLast_subset _ ht))]
      exact .tail _ ht
    rw [List.flatten_cons, segmentsOf, htake, if_neg hs, ih hss]

/-! ## The files -/

namespace Segment

theorem saveRaw_ofBlocks (sha1 : List UInt8 → Checksum) (h : s.length < 2 ^ 32) :
    (ofBlocks sha1 s).saveRaw = s.flatMap Block.toStream := by
  have hlen : (UInt32.ofNat s.length).toNat = s.length := by
    rw [UInt32.toNat_ofNat']
    exact Nat.mod_eq_of_lt h
  simp only [saveRaw, ofBlocks_blocklist, hlen, List.take_length]

end Segment

/-- A segment has at most one block for each of its bytes, but for the last block. -/
theorem CutSegments.length_lt (h : CutSegments ss) (hs : s ∈ ss) : s.length < 2 ^ 32 := by
  have hlen := length_le_sizeOf fun b hb => h.ne_zero s hs b (List.dropLast_subset s hb)
  have hmin := h.minimal s hs
  rw [List.length_dropLast] at hlen
  unfold fixSegmentSize at hmin
  omega

/-- The file holds the blocks, with no border between segments. -/
theorem CutSegments.saveRaw (h : CutSegments ss) (sha1 : List UInt8 → Checksum) :
    (ss.map (Segment.ofBlocks sha1)).flatMap Segment.saveRaw = ss.flatten.flatMap Block.toStream := by
  rw [List.flatMap_map, List.flatten_eq_flatMap, List.flatMap_assoc]
  exact List.flatMap_congr fun s hs => Segment.saveRaw_ofBlocks sha1 (h.length_lt hs)

theorem CutSegments.loadAll (h : CutSegments ss) (sha1 : List UInt8 → Checksum) (seg : Segment)
    (h31 : ∀ b ∈ ss.flatten, b.size.toNat < 2 ^ 31) :
    Segment.loadAll sha1 seg ((ss.map (Segment.ofBlocks sha1)).flatMap Segment.saveRaw) =
      ss.map (Segment.ofBlocks sha1) := by
  have hread := (readAll_records ss.flatten).1
  rw [h.saveRaw, Segment.loadAll_eq sha1 _ seg (by rwa [hread]), hread, segmentsOf_flatten_eq h]

/-- **When segments survive the raw format.** `LoadFixSize` finds again the segments that `SaveRaw`
has written if and only if they are cut at 2 MB. -/
theorem saveRaw_iff (sha1 : List UInt8 → Checksum) (seg : Segment)
    (h31 : ∀ b ∈ ss.flatten, b.size.toNat < 2 ^ 31) :
    Segment.loadAll sha1 seg ((ss.map (Segment.ofBlocks sha1)).flatMap Segment.saveRaw) =
        ss.map (Segment.ofBlocks sha1) ↔ CutSegments ss := by
  constructor
  · intro h
    set file := (ss.map (Segment.ofBlocks sha1)).flatMap Segment.saveRaw with hfile
    have hsub : ∀ b ∈ Block.reader.readAll file, b.size.toNat < 2 ^ 31 := by
      have hread : file = (ss.flatMap fun s =>
          s.take (UInt32.ofNat s.length).toNat).flatMap Block.toStream := by
        rw [hfile, List.flatMap_map, List.flatMap_assoc]
        refine List.flatMap_congr fun s hs => ?_
        simp only [Segment.saveRaw, Segment.ofBlocks_blocklist]
      rw [hread, (readAll_records _).1]
      intro b hb
      obtain ⟨s, hs, hb⟩ := List.mem_flatMap.1 hb
      exact h31 b (List.mem_flatten.2 ⟨s, hs, List.mem_of_mem_take hb⟩)
    rw [Segment.loadAll_eq sha1 file seg hsub] at h
    -- a segment has the blocks that it was built from
    have hblocks : segmentsOf (Block.reader.readAll file) = ss := by
      have hmap := congrArg (List.map Segment.blocklist) h
      have hid : Segment.blocklist ∘ Segment.ofBlocks sha1 = id :=
        funext (Segment.ofBlocks_blocklist sha1)
      rwa [List.map_map, List.map_map, hid, List.map_id, List.map_id] at hmap
    rw [← hblocks]
    exact segmentsOf_cut _
  · exact fun h => h.loadAll sha1 seg h31

/-- Two segments of 3 bytes are loaded as one. -/
theorem saveRaw_iff_two :
    let segs := [[(⟨3, 0, 0, default⟩ : Block)], [⟨3, 0, 3, default⟩]].map
      (Segment.ofBlocks fun _ => default)
    Segment.loadAll (fun _ => default) default (segs.flatMap Segment.saveRaw) ≠ segs := by
  intro segs hsame
  have h31 : ∀ b ∈ [[(⟨3, 0, 0, default⟩ : Block)], [⟨3, 0, 3, default⟩]].flatten,
      b.size.toNat < 2 ^ 31 := by decide
  have hfull := ((saveRaw_iff (fun _ => default) default h31).1 hsame).full _ (.head _)
  revert hfull
  decide

end DedupSim
