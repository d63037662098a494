import DedupSim.Proof.SegmentLocal
import DedupSim.Spec.Simulator
import Mathlib.Data.List.Basic

/-!
# What the dedup simulator computes

* `flagOf`: the flags of a block of a segment, from the parent's segment of the same
  number and the CDS.
* `simSegment_blocklist`: **one segment**, `simLoop_eq` the rest of the run.
* `dedupSim_eq`: **the output of a run.**
-/

namespace DedupSim

variable {so : Sorter Block.cksum} {sha1 : List UInt8 → Checksum} {cds s p bs bs' : List Block}
  {b : Block} {parent seg : Segment}

/-- The bytes a segment checksum is taken of. -/
def cksumBytes (bs : List Block) : List UInt8 := bs.flatMap fun b => b.cksum.data

/-- These are the bytes of one list of checksums. -/
theorem cksumBytes_eq_iff :
    cksumBytes bs = cksumBytes bs' ↔ bs.map Block.cksum = bs'.map Block.cksum := by
  constructor
  · -- twenty bytes a block
    intro h
    induction bs generalizing bs' with
    | nil =>
      rcases bs' with - | ⟨b', bs'⟩
      · rfl
      · have hl := congrArg List.length h
        simp [cksumBytes, b'.cksum.len, cksumLen] at hl
        omega
    | cons b bs ih =>
      rcases bs' with - | ⟨b', bs'⟩
      · have hl := congrArg List.length h
        simp [cksumBytes, b.cksum.len, cksumLen] at hl
      · simp only [cksumBytes, List.flatMap_cons] at h
        obtain ⟨hd, ht⟩ := List.append_inj h (by rw [b.cksum.len, b'.cksum.len])
        rw [List.map_cons, List.map_cons, Checksum.ext_data hd, ih ht]
  · intro h
    have hf := congrArg (List.flatMap Checksum.data) h
    rwa [List.flatMap_map, List.flatMap_map] at hf

/-! ## One segment -/

/-- The level 1 and 2 flag: `p` is the parent's segment of the same number. -/
def parentFlag (p : Option (List Block)) (s : List Block) (b : Block) : UInt32 :=
  match p with
  | none => 0
  | some p =>
    if p.map Block.cksum = s.map Block.cksum then inParent
    else if b.cksum ∈ p.map Block.cksum then inDirtySeg
    else 0

/-- **The flags of a block** of the segment `s`. -/
def flagOf (cds : List Block) (p : Option (List Block)) (s : List Block) (b : Block) : UInt32 :=
  parentFlag p s b ||| if b.cksum ∈ cds.map Block.cksum then inCds else 0

/-- `parent` as it is compared and searched when its blocks are `p`. -/
structure ParentOK (sha1 : List UInt8 → Checksum) (p : List Block) (parent : Segment) : Prop where
  cksum : parent.cksum = sha1 (cksumBytes p)
  search : ∀ b, parent.searchBlock b = true ↔ b.cksum ∈ p.map Block.cksum

theorem mem_cksums : b.cksum ∈ p.map Block.cksum ↔ ∃ a ∈ p, a.cksum = b.cksum := by
  rw [List.mem_map]

/-- A segment that was loaded and sorted. -/
theorem parentOK_sorted (so : Sorter Block.cksum) (sha1 : List UInt8 → Checksum) (p : List Block) :
    ParentOK sha1 p ((Segment.ofBlocks sha1 p).sortByHash so) := by
  refine ⟨Segment.ofBlocks_cksum sha1 p, ?_⟩
  intro b
  have hb : ((Segment.ofBlocks sha1 p).sortByHash so).blocklist = so.sort p := by
    change so.sort (Segment.ofBlocks sha1 p).blocklist = so.sort p
    rw [Segment.ofBlocks_blocklist]
  unfold Segment.searchBlock
  rw [hb, binarySearch_iff (so.sorted p), mem_cksums]
  simp only [(so.perm p).mem_iff]

/-- The segment that is left when the parent has no more blocks. -/
theorem parentOK_nil (sha1 : List UInt8 → Checksum) : ParentOK sha1 [] (Segment.ofBlocks sha1 []) := by
  refine ⟨Segment.ofBlocks_cksum sha1 [], ?_⟩
  intro b
  unfold Segment.searchBlock
  rw [Segment.ofBlocks_blocklist, binarySearch_iff List.Pairwise.nil]
  simp

/-- The flag of level 3, on top of the others. -/
theorem cds_level (hcds : cds.Pairwise fun a b => a.cksum ≤ b.cksum) (b : Block) :
    (if binarySearch Block.cksum cds b then { b with fileId := b.fileId ||| inCds } else b) =
      { b with fileId := b.fileId ||| if b.cksum ∈ cds.map Block.cksum then inCds else 0 } := by
  have h : binarySearch Block.cksum cds b = true ↔ b.cksum ∈ cds.map Block.cksum := by
    rw [binarySearch_iff hcds, mem_cksums]
  by_cases hb : b.cksum ∈ cds.map Block.cksum
  · rw [if_pos (h.2 hb), if_pos hb]
  · rw [if_neg (fun hs => hb (h.1 hs)), if_neg hb, UInt32.or_zero]

/-- **One segment without a parent.** -/
theorem simSegment_alone (hcds : cds.Pairwise fun a b => a.cksum ≤ b.cksum) (parent : Segment) :
    (simSegment cds false (Segment.ofBlocks sha1 s) parent).blocklist =
      s.map fun b => { b with fileId := flagOf cds none s b } := by
  simp only [simSegment, Segment.mapBlocks, Bool.false_eq_true, false_and, if_false,
    Segment.ofBlocks_blocklist, List.map_map]
  apply List.map_congr_left
  intro b _
  simp only [Function.comp_apply, cds_level hcds, flagOf, parentFlag]

/-- **One segment against the parent's blocks `p`**, of which there may be none. -/
theorem simSegment_blocklist (hcds : cds.Pairwise fun a b => a.cksum ≤ b.cksum)
    (hp : ParentOK sha1 p parent) (hs : s ≠ [])
    (hinj : sha1 (cksumBytes s) = sha1 (cksumBytes p) → cksumBytes s = cksumBytes p) :
    (simSegment cds true (Segment.ofBlocks sha1 s) parent).blocklist =
      s.map fun b => { b with fileId := flagOf cds (if p = [] then none else some p) s b } := by
  have heq : (Segment.ofBlocks sha1 s).cksum = parent.cksum ↔ p.map Block.cksum = s.map Block.cksum := by
    rw [Segment.ofBlocks_cksum, hp.cksum, eq_comm (a := p.map Block.cksum), ← cksumBytes_eq_iff]
    exact ⟨hinj, fun h => congrArg sha1 h⟩
  have hflag : ∀ b, parentFlag (if p = [] then none else some p) s b =
      if p.map Block.cksum = s.map Block.cksum then inParent
      else if b.cksum ∈ p.map Block.cksum then inDirtySeg else 0 := by
    intro b
    split
    · -- nothing equals a segment, or lies in nothing
      rename_i h0
      subst h0
      have hne : ¬ [] = s.map Block.cksum := fun h => hs (List.map_eq_nil_iff.1 h.symm)
      simp only [List.map_nil, hne, if_false, List.not_mem_nil, parentFlag]
    · rfl
  simp only [simSegment, Segment.mapBlocks, true_and, if_true, heq]
  by_cases hsame : p.map Block.cksum = s.map Block.cksum
  · -- level 1, and level 2 is not reached
    simp only [hsame, if_true, Segment.ofBlocks_blocklist, List.map_map]
    apply List.map_congr_left
    intro b _
    simp only [Function.comp_apply, cds_level hcds, flagOf, hflag, hsame, if_true, UInt32.zero_or]
  · simp only [hsame, if_false, Segment.ofBlocks_blocklist, List.map_map]
    apply List.map_congr_left
    intro b _
    have hsearch := hp.search { b with fileId := 0 }
    simp only [Function.comp_apply, cds_level hcds, flagOf, hflag, hsame, if_false]
    by_cases hb : b.cksum ∈ p.map Block.cksum
    · rw [if_pos (hsearch.2 hb), if_pos hb]
      simp only [UInt32.zero_or]
    · rw [if_neg (fun h => hb (hsearch.1 h)), if_neg hb]

/-! ## A run -/

theorem segmentsOf_head (bs : List Block) :
    (segmentsOf bs)[0]? = if (takeSegment 0 bs).1 = [] then none else some (takeSegment 0 bs).1 := by
  unfold segmentsOf
  split <;> rfl

theorem segmentsOf_tail (bs : List Block) (i : ℕ) :
    (segmentsOf bs)[i + 1]? = (segmentsOf (takeSegment 0 bs).2)[i]? := by
  rw [segmentsOf]
  split
  · rename_i h
    rw [takeSegment_nil 0 bs h, segmentsOf]
    rfl
  · rw [List.getElem?_cons_succ]

/-- The parent's part of a round: the segment to compare with, and the blocks left. -/
theorem loadParent_ok (so : Sorter Block.cksum) (sha1 : List UInt8 → Checksum) (parent : Segment)
    (is : List UInt8) (h31 : ∀ b ∈ Block.loader.readAll is, b.size.toNat < 2 ^ 31) :
    ParentOK sha1 (takeSegment 0 (Block.loader.readAll is)).1 (loadParent so sha1 true parent is).1 ∧
      Block.loader.readAll (loadParent so sha1 true parent is).2 =
        (takeSegment 0 (Block.loader.readAll is)).2 := by
  obtain ⟨hok, hseg, hrest⟩ := Segment.loadWith_eq Block.loader sha1 parent is h31
  unfold loadParent Segment.loadSegment
  rw [if_pos rfl]
  rcases hl : Segment.loadWith Block.loader sha1 parent is with ⟨ok, seg, rest⟩
  rw [hl] at hok hseg hrest
  simp only at hok hseg hrest
  rw [hseg]
  rcases ok with - | -
  · have h0 : (takeSegment 0 (Block.loader.readAll is)).1 = [] := by
      by_contra hne
      exact Bool.false_ne_true (hok.2 hne)
    rw [h0]
    exact ⟨parentOK_nil sha1, hrest⟩
  · exact ⟨parentOK_sorted so sha1 _, hrest⟩

/-- The blocks of the output, segment by segment. -/
def markSegments (cds : List Block) (parents segs : List (List Block)) : List (List Block) :=
  segs.mapIdx fun i s => s.map fun b => { b with fileId := flagOf cds parents[i]? s b }

/-- SHA-1 tells the checksum lists apart that are compared: those of segments of one
number, or of a segment and of nothing. -/
def SegmentsInjective (sha1 : List UInt8 → Checksum) (parents segs : List (List Block)) : Prop :=
  ∀ (i : ℕ) (s : List Block), segs[i]? = some s →
    sha1 (cksumBytes s) = sha1 (cksumBytes (parents[i]?.getD [])) →
      cksumBytes s = cksumBytes (parents[i]?.getD [])

theorem simLoop_unfold {cds : List Block} {hasParent : Bool} {is is' : List UInt8} :
    simLoop so sha1 cds hasParent seg parent is is' =
      if (Segment.loadSegment sha1 seg is).1 then
        (simSegment cds hasParent (Segment.loadSegment sha1 seg is).2.1
            (loadParent so sha1 hasParent parent is').1).blocklist.flatMap Block.save ++
          simLoop so sha1 cds hasParent
            (simSegment cds hasParent (Segment.loadSegment sha1 seg is).2.1
              (loadParent so sha1 hasParent parent is').1)
            (loadParent so sha1 hasParent parent is').1 (Segment.loadSegment sha1 seg is).2.2
            (loadParent so sha1 hasParent parent is').2
      else [] := by
  rw [simLoop]
  split
  · rename_i hl
    rw [hl]
    rfl
  · rename_i hl
    rw [hl]
    rfl

/-- The parent's segments that are left, and none when there is no parent. -/
def parentSegments (hasParent : Bool) (is : List UInt8) : List (List Block) :=
  if hasParent then segmentsOf (Block.loader.readAll is) else []

/-- **One round**: the current segment is compared with the next of the parent's segments,
which is then used up. -/
theorem simRound_eq (so : Sorter Block.cksum) (hcds : cds.Pairwise fun a b => a.cksum ≤ b.cksum)
    (hasParent : Bool) (parent : Segment) (is' : List UInt8)
    (h31 : ∀ b ∈ Block.loader.readAll is', b.size.toNat < 2 ^ 31) (hs : s ≠ [])
    (hinj : hasParent = true →
      sha1 (cksumBytes s) = sha1 (cksumBytes ((parentSegments hasParent is')[0]?.getD [])) →
        cksumBytes s = cksumBytes ((parentSegments hasParent is')[0]?.getD [])) :
    (simSegment cds hasParent (Segment.ofBlocks sha1 s)
        (loadParent so sha1 hasParent parent is').1).blocklist =
      s.map (fun b => { b with fileId := flagOf cds (parentSegments hasParent is')[0]? s b }) ∧
    (∀ b ∈ Block.loader.readAll (loadParent so sha1 hasParent parent is').2, b.size.toNat < 2 ^ 31) ∧
    ∀ i : ℕ, (parentSegments hasParent is')[i + 1]? =
      (parentSegments hasParent (loadParent so sha1 hasParent parent is').2)[i]? := by
  rcases hasParent with - | -
  · -- the parent plays no part
    exact ⟨simSegment_alone hcds _, h31, fun i => rfl⟩
  · obtain ⟨hpok, hrest⟩ := loadParent_ok so sha1 parent is' h31
    have h0 : (parentSegments true is')[0]? =
        if (takeSegment 0 (Block.loader.readAll is')).1 = [] then none
        else some (takeSegment 0 (Block.loader.readAll is')).1 := segmentsOf_head _
    -- a parent that has ended compares as the empty segment
    have hget : (parentSegments true is')[0]?.getD [] =
        (takeSegment 0 (Block.loader.readAll is')).1 := by
      rw [h0]
      split
      · exact Eq.symm ‹_›
      · rfl
    rw [hget] at hinj
    refine ⟨?_, ?_, ?_⟩
    · rw [h0]
      exact simSegment_blocklist hcds hpok hs (hinj rfl)
    · rw [hrest]
      exact fun b hb => h31 b ((takeSegment_mem 0 (Block.loader.readAll is')).2 b hb)
    · intro i
      simp only [parentSegments, if_true, hrest]
      exact segmentsOf_tail _ i

/-- **A run**, round by round, on a snapshot of which `is` is left. -/
theorem simLoop_eq (so : Sorter Block.cksum) (sha1 : List UInt8 → Checksum)
    (hcds : cds.Pairwise fun a b => a.cksum ≤ b.cksum) (hasParent : Bool) (is : List UInt8) :
    ∀ (seg parent : Segment) (is' : List UInt8),
      (∀ b ∈ Block.loader.readAll is, b.size.toNat < 2 ^ 31) →
      (∀ b ∈ Block.loader.readAll is', b.size.toNat < 2 ^ 31) →
      (hasParent = true → SegmentsInjective sha1 (parentSegments hasParent is')
        (segmentsOf (Block.loader.readAll is))) →
      simLoop so sha1 cds hasParent seg parent is is' =
        (markSegments cds (parentSegments hasParent is')
          (segmentsOf (Block.loader.readAll is))).flatten.flatMap Block.save := by
  induction h : is.length using Nat.strong_induction_on generalizing is with
  | _ n ih =>
    subst h
    intro seg parent is' h31 h31' hinj
    rcases Segment.loadWith_cases Block.loader sha1 seg h31 with
      ⟨hend, hnil⟩ | ⟨s, rest, hl, hne, hsegs, h31r⟩
    · -- the snapshot is at its end
      rw [simLoop_unfold, hnil]
      exact if_neg ((Bool.not_eq_true _).mpr hend)
    · rw [hsegs] at hinj
      replace hl : Segment.loadSegment sha1 seg is = _ := hl
      obtain ⟨hblocks, h31p, hnext⟩ := simRound_eq so hcds hasParent parent is' h31' hne
        fun hp => hinj hp 0 _ rfl
      rw [simLoop_unfold, hl, if_pos rfl, hsegs, markSegments, List.mapIdx_cons, List.flatten_cons,
        List.flatMap_append, hblocks, ih _ (Segment.loadWith_lt hl) rest rfl _ _ _ h31r h31p]
      · simp only [markSegments, hnext]
      · intro hp i t ht
        rw [← hnext]
        exact hinj hp (i + 1) t ht

/-- The members that are copied from the snapshot. -/
def Block.copied (b : Block) : Checksum × UInt32 × UInt64 := (b.cksum, b.size, b.offset)

theorem markSegments_copied (cds : List Block) (parents segs : List (List Block)) :
    (markSegments cds parents segs).flatten.map Block.copied = segs.flatten.map Block.copied := by
  rw [List.map_flatten, List.map_flatten, markSegments]
  refine congrArg List.flatten (List.ext_getElem? ?_)
  intro i
  rw [List.getElem?_map, List.getElem?_mapIdx, List.getElem?_map, Option.map_map]
  refine congrArg (Option.map · segs[i]?) (funext ?_)
  intro s
  rw [Function.comp_apply, List.map_map]
  rfl

/-- **The output of a run**: the snapshot's blocks that are not empty, in order, with the
flags of the segment each is in. -/
theorem dedupSim_eq (so : Sorter Block.cksum) (sha1 : List UInt8 → Checksum) (seg seg' : Segment)
    (snapshot cds : List Block) (parent : Option (List Block))
    (h31 : ∀ b ∈ snapshot, b.size.toNat < 2 ^ 31)
    (hp31 : ∀ p, parent = some p → ∀ b ∈ p, b.size.toNat < 2 ^ 31)
    (hcds : cds.Pairwise fun a b => a.cksum ≤ b.cksum)
    (hinj : ∀ p, parent = some p → SegmentsInjective sha1 (segmentsOf p) (segmentsOf snapshot)) :
    ∃ out : List Block,
      dedupSim so sha1 seg seg' (snapshot.flatMap Block.toStream) (cds.flatMap Block.toStream)
          (parent.map fun p => p.flatMap Block.toStream) = out.flatMap Block.toStream ∧
        out.map Block.copied = (snapshot.filter fun b => b.size ≠ 0).map Block.copied ∧
        out = ((segmentsOf snapshot).mapIdx fun i s => s.map fun b =>
          { b with fileId := flagOf cds (parent.bind fun p => (segmentsOf p)[i]?) s b }).flatten := by
  have hparents : ∀ i : ℕ, (parent.bind fun p => (segmentsOf p)[i]?) =
      ((parent.map segmentsOf).getD [])[i]? := by
    intro i
    rcases parent with - | p <;> rfl
  simp only [hparents]
  refine ⟨_, ?_, ?_, rfl⟩
  · have hsnap := (readAll_records snapshot).2
    unfold dedupSim
    rw [(readAll_records cds).2, Option.isSome_map]
    rcases parent with - | p
    · have hnil : ∀ b ∈ Block.loader.readAll [], b.size.toNat < 2 ^ 31 := by
        rw [show Block.loader.readAll [] = [] from (readAll_records []).2]
        exact fun b hb => by cases hb
      have hrun := simLoop_eq so sha1 hcds false (snapshot.flatMap Block.toStream) seg seg' []
        (by rwa [hsnap]) hnil (fun h => by cases h)
      rwa [hsnap] at hrun
    · have hparent : parentSegments true (p.flatMap Block.toStream) = segmentsOf p := by
        unfold parentSegments
        rw [if_pos rfl, (readAll_records p).2]
      have hrun := simLoop_eq so sha1 hcds true (snapshot.flatMap Block.toStream) seg seg'
        (p.flatMap Block.toStream) (by rwa [hsnap]) (by rw [(readAll_records p).2]; exact hp31 p rfl)
        (fun _ => by rw [hparent, hsnap]; exact hinj p rfl)
      rwa [hsnap, hparent] at hrun
  · exact (markSegments_copied cds _ _).trans (by rw [segmentsOf_flatten])

/-- The block of three bytes. -/
def threeBlock : Block := ⟨3, 0, 0, threeDigest⟩

/-- Their segments have different digests. -/
theorem pairs_injective : SegmentsInjective pairsDigest (segmentsOf olderLog) (segmentsOf newerLog) := by
  rw [pairs_segments.1, pairs_segments.2]
  intro i s hs h
  rcases i with - | i
  · cases hs
    exact absurd h (by decide)
  · cases hs

/-- The newer version against the older, with a CDS of one of its blocks. -/
theorem dedupSim_eq_pairs :
    ∃ out : List Block,
      dedupSim (Sorter.merge Block.cksum) pairsDigest default default
          (newerLog.flatMap Block.toStream)
          ([⟨2, 0, 0, pairsDigest [8, 8]⟩].flatMap Block.toStream)
          ((some olderLog).map fun p => p.flatMap Block.toStream) = out.flatMap Block.toStream ∧
        out.map Block.copied = (newerLog.filter fun b => b.size ≠ 0).map Block.copied ∧
        out = ((segmentsOf newerLog).mapIdx fun i s => s.map fun b =>
          { b with
            fileId := flagOf [⟨2, 0, 0, pairsDigest [8, 8]⟩]
              ((some olderLog).bind fun p => (segmentsOf p)[i]?) s b }).flatten := by
  refine dedupSim_eq (Sorter.merge Block.cksum) pairsDigest default default newerLog
    [⟨2, 0, 0, pairsDigest [8, 8]⟩] (some olderLog) (by decide) ?_ (List.pairwise_singleton _ _) ?_
  · rintro p ⟨⟩
    decide
  · rintro p ⟨⟩
    exact pairs_injective

end DedupSim
