import DedupSim.Proof.CdsGen
import DedupSim.Proof.SimLru

/-!
# Versions of a snapshot

What the simulator makes of a log that the simulator has written, as the snapshot or as the
parent.

* `marked_congr`, `dedupSim_congr`: **the simulator reads checksums, sizes and offsets only**,
  and does not depend on `std::sort`.
* `dedupSim_alike`: it copies these, so what it writes is read like the log.
* `simVersions_eq`: **a chain of versions may take the output of each run as the parent of the
  next.**
* `dedupSim_unchanged`: a version that is read like its parent is in the parent.
-/

namespace DedupSim

variable {so so' : Sorter Block.cksum} {sha1 : List UInt8 → Checksum} {bs bs' : List Block}
  {is is' snapshot snapshot' cds : List UInt8}

/-! ## Blocks without their flags -/

/-- A block as the simulator reads it. -/
def Block.plain (b : Block) : Block := { b with fileId := 0 }

/-- A list of blocks as the simulator reads it. -/
def plainBlocks (bs : List Block) : List Block :=
  (bs.filter fun b => b.size ≠ 0).map Block.plain

theorem takeSegment_plain (acc : ℕ) (bs : List Block) :
    takeSegment acc (plainBlocks bs) =
      ((takeSegment acc bs).1.map Block.plain, plainBlocks (takeSegment acc bs).2) := by
  induction bs generalizing acc with
  | nil => rfl
  | cons b bs ih =>
    by_cases hb : b.size = 0
    · have hplain : plainBlocks (b :: bs) = plainBlocks bs := by
        unfold plainBlocks
        rw [List.filter_cons_of_neg (by simpa using hb)]
      rw [hplain, ih, takeSegment, if_pos hb]
    · have hplain : plainBlocks (b :: bs) = b.plain :: plainBlocks bs := by
        unfold plainBlocks
        rw [List.filter_cons_of_pos (by simpa using hb), List.map_cons]
      rw [hplain, takeSegment, takeSegment, if_neg hb, if_neg (show b.plain.size ≠ 0 from hb)]
      change (if fixSegmentSize ≤ acc + b.size.toNat then _ else _) = _
      split
      · rfl
      · have hsize : b.plain.size = b.size := rfl
        rw [hsize, ih]
        rfl

/-- The segments are cut by the sizes. -/
theorem segmentsOf_plain (bs : List Block) :
    segmentsOf (plainBlocks bs) = (segmentsOf bs).map fun s => s.map Block.plain := by
  induction bs using segmentsOf.induct with
  | case1 bs h0 =>
    unfold segmentsOf
    rw [takeSegment_plain, h0]
    rfl
  | case2 bs h0 ih =>
    have hne : (takeSegment 0 (plainBlocks bs)).1 ≠ [] := by
      rw [takeSegment_plain]
      simpa using h0
    have hcons : segmentsOf bs = (takeSegment 0 bs).1 :: segmentsOf (takeSegment 0 bs).2 := by
      rw [segmentsOf, if_neg h0]
    rw [segmentsOf, if_neg hne, hcons, takeSegment_plain, ih, List.map_cons]

/-- Two lists of blocks that the simulator reads alike. -/
def Alike (bs bs' : List Block) : Prop := plainBlocks bs = plainBlocks bs'

theorem Alike.segmentsOf (h : Alike bs bs') :
    (DedupSim.segmentsOf bs).map (fun s => s.map Block.plain) =
      (DedupSim.segmentsOf bs').map fun s => s.map Block.plain := by
  rw [← segmentsOf_plain, ← segmentsOf_plain, h]

theorem map_cksum_plain (h : bs.map Block.plain = bs'.map Block.plain) :
    bs.map Block.cksum = bs'.map Block.cksum := by
  have := congrArg (List.map Block.cksum) h
  rwa [List.map_map, List.map_map] at this

/-- They are compared by checksum, size and offset. -/
theorem alike_iff : Alike bs bs' ↔
    (bs.filter fun b => b.size ≠ 0).map Block.copied =
      (bs'.filter fun b => b.size ≠ 0).map Block.copied := by
  have hcopied : Block.copied ∘ Block.plain = Block.copied := rfl
  have hplain : Block.plain = (fun c : Checksum × UInt32 × UInt64 =>
    (⟨c.2.1, 0, c.2.2, c.1⟩ : Block)) ∘ Block.copied := rfl
  unfold Alike plainBlocks
  constructor
  · intro h
    have := congrArg (List.map Block.copied) h
    rwa [List.map_map, List.map_map, hcopied] at this
  · intro h
    rw [hplain, ← List.map_map, h, List.map_map]

/-! ## The flags -/

/-- Two segments that the current one is compared with alike. -/
structure ParentAlike (p p' : Segment) : Prop where
  cksum : p.cksum = p'.cksum
  search : ∀ b, p.searchBlock b = p'.searchBlock b

theorem parentLevels_congr {s s' : List Block} (h : s.map Block.plain = s'.map Block.plain)
    (hasParent : Bool) {p p' : Segment} (hp : hasParent = true → ParentAlike p p') :
    (parentLevels hasParent (Segment.ofBlocks sha1 s) p).blocklist =
      (parentLevels hasParent (Segment.ofBlocks sha1 s') p').blocklist := by
  have hcksum : (Segment.ofBlocks sha1 s).cksum = (Segment.ofBlocks sha1 s').cksum := by
    rw [Segment.ofBlocks_cksum, Segment.ofBlocks_cksum]
    exact congrArg sha1 (cksumBytes_eq_iff.2 (map_cksum_plain h))
  have hmap : ∀ f : Block → Block,
      (s.map fun b => { b with fileId := 0 }).map f = (s'.map fun b => { b with fileId := 0 }).map f :=
    fun f => congrArg (List.map f) h
  unfold parentLevels
  simp only [Segment.mapBlocks, Segment.ofBlocks_blocklist, hcksum]
  rcases hasParent with - | -
  · simp only [Bool.false_eq_true, false_and, if_false]
    exact h
  · obtain ⟨hck, hsearch⟩ := hp rfl
    simp only [true_and, if_true, hck, hsearch]
    split
    · exact hmap _
    · exact hmap _

/-- The first segments of logs that are read alike, and what is left of them. -/
theorem Alike.takeSegment (h : Alike bs bs') :
    (DedupSim.takeSegment 0 bs).1.map Block.plain = (DedupSim.takeSegment 0 bs').1.map Block.plain ∧
      Alike (DedupSim.takeSegment 0 bs).2 (DedupSim.takeSegment 0 bs').2 := by
  have heq := congrArg (DedupSim.takeSegment 0) h
  rw [takeSegment_plain, takeSegment_plain] at heq
  exact ⟨congrArg Prod.fst heq, congrArg Prod.snd heq⟩

theorem ParentOK.alike {s s' : List Block} {p p' : Segment} (h : ParentOK sha1 s p)
    (h' : ParentOK sha1 s' p') (hs : s.map Block.plain = s'.map Block.plain) :
    ParentAlike p p' where
  cksum := by
    rw [h.cksum, h'.cksum]
    exact congrArg sha1 (cksumBytes_eq_iff.2 (map_cksum_plain hs))
  search b := by
    rw [Bool.eq_iff_iff, h.search, h'.search, map_cksum_plain hs]

/-- **Levels 1 and 2 do not depend on the flags.** -/
theorem marked_congr (so so' : Sorter Block.cksum) (sha1 : List UInt8 → Checksum) (hasParent : Bool)
    {ss : List (List Block)} : ∀ {ss' : List (List Block)} (p p' : Segment) (is is' : List UInt8),
      (ss.map fun s => s.map Block.plain) = (ss'.map fun s => s.map Block.plain) →
      (hasParent = true → Alike (Block.loader.readAll is) (Block.loader.readAll is') ∧
        (∀ b ∈ Block.loader.readAll is, b.size.toNat < 2 ^ 31) ∧
        ∀ b ∈ Block.loader.readAll is', b.size.toNat < 2 ^ 31) →
      marked so sha1 hasParent p is (ss.map (Segment.ofBlocks sha1)) =
        marked so' sha1 hasParent p' is' (ss'.map (Segment.ofBlocks sha1)) := by
  induction ss with
  | nil =>
    intro ss' p p' is is' h _
    rw [List.map_nil, eq_comm, List.map_eq_nil_iff] at h
    rw [h]
    rfl
  | cons s ss ih =>
    intro ss' p p' is is' h hpar
    obtain ⟨s', ss', rfl⟩ : ∃ s' ss'', ss' = s' :: ss'' := by
      rcases ss' with - | ⟨s', ss'⟩
      · cases h
      · exact ⟨s', ss', rfl⟩
    obtain ⟨hs, hss⟩ := List.cons.inj h
    rw [List.map_cons, List.map_cons, marked, marked]
    rcases hasParent with - | -
    · rw [parentLevels_congr hs false fun h => absurd h Bool.false_ne_true]
      exact congrArg _ (ih _ _ _ _ hss fun h => absurd h Bool.false_ne_true)
    · obtain ⟨halike, h31, h31'⟩ := hpar rfl
      -- the segments that are loaded of the parents are alike, and so is what is left of them
      obtain ⟨hok, hrest⟩ := loadParent_ok so sha1 p is h31
      obtain ⟨hok', hrest'⟩ := loadParent_ok so' sha1 p' is' h31'
      obtain ⟨htake, hleft⟩ := halike.takeSegment
      rw [parentLevels_congr hs true fun _ => hok.alike hok' htake]
      refine congrArg _ (ih _ _ _ _ hss fun _ => ⟨?_, ?_, ?_⟩)
      · rwa [hrest, hrest']
      · rw [hrest]
        exact fun b hb => h31 b ((takeSegment_mem 0 _).2 b hb)
      · rw [hrest']
        exact fun b hb => h31' b ((takeSegment_mem 0 _).2 b hb)

/-! ## The simulator -/

/-- The sizes of a log are those of a scan. -/
def Sized (is : List UInt8) : Prop := ∀ b ∈ Block.loader.readAll is, b.size.toNat < 2 ^ 31

/-- Two logs that the simulator reads alike. -/
structure SameLog (is is' : List UInt8) : Prop where
  sized : Sized is
  sized' : Sized is'
  alike : Alike (Block.loader.readAll is) (Block.loader.readAll is')

theorem SameLog.refl (h : Sized is) : SameLog is is := ⟨h, h, rfl⟩

theorem SameLog.symm (h : SameLog is is') : SameLog is' is := ⟨h.sized', h.sized, h.alike.symm⟩

theorem Sized.loadAll (h : Sized is) (sha1 : List UInt8 → Checksum) (seg : Segment) :
    Segment.loadAll sha1 seg is =
      (segmentsOf (Block.loader.readAll is)).map (Segment.ofBlocks sha1) := by
  unfold Sized at h
  rw [Block.loader_eq] at h ⊢
  exact Segment.loadAll_eq sha1 is seg h

/-- **The simulator reads checksums, sizes and offsets only**: it does not depend on the flags
of the snapshot and the parent, on their empty records, or on `std::sort`. -/
theorem dedupSim_congr (so so' : Sorter Block.cksum) (sha1 : List UInt8 → Checksum)
    (seg seg' old old' : Segment) (cds : List UInt8) {parent parent' : Option (List UInt8)}
    (h : SameLog snapshot snapshot') (hpar : Option.Rel SameLog parent parent') :
    dedupSim so sha1 seg old snapshot cds parent =
      dedupSim so' sha1 seg' old' snapshot' cds parent' := by
  unfold dedupSim
  rw [simLoop_marked, simLoop_marked, h.sized.loadAll, h.sized'.loadAll]
  have hmarked : marked so sha1 parent.isSome old (parent.getD [])
      ((segmentsOf (Block.loader.readAll snapshot)).map (Segment.ofBlocks sha1)) =
        marked so' sha1 parent'.isSome old' (parent'.getD [])
          ((segmentsOf (Block.loader.readAll snapshot')).map (Segment.ofBlocks sha1)) := by
    cases hpar with
    | none =>
      exact marked_congr so so' sha1 false old old' _ _ h.alike.segmentsOf fun h =>
        absurd h Bool.false_ne_true
    | some hp =>
      exact marked_congr so so' sha1 true old old' _ _ h.alike.segmentsOf
        fun _ => ⟨hp.alike, hp.sized, hp.sized'⟩
  rw [hmarked]

/-- What is written is a copy of the segments but for the flags. -/
theorem marked_copied (so : Sorter Block.cksum) (sha1 : List UInt8 → Checksum) (hasParent : Bool)
    (segs : List Segment) : ∀ (parent : Segment) (is : List UInt8),
      (marked so sha1 hasParent parent is segs).map Block.copied =
        (segs.flatMap Segment.blocklist).map Block.copied := by
  induction segs with
  | nil => exact fun _ _ => rfl
  | cons current segs ih =>
    intro parent is
    rw [marked, List.map_append, parentLevels_copied, ih, List.flatMap_cons, List.map_append]

/-- The blocks that a run writes. -/
theorem dedupSim_readAll (so : Sorter Block.cksum) (sha1 : List UInt8 → Checksum)
    (seg old : Segment) (snapshot cds : List UInt8) (parent : Option (List UInt8)) :
    Block.loader.readAll (dedupSim so sha1 seg old snapshot cds parent) =
      (marked so sha1 parent.isSome old (parent.getD []) (Segment.loadAll sha1 seg snapshot)).map
        (cdsLevel (Block.loader.readAll cds)) := by
  unfold dedupSim
  rw [simLoop_marked, loader_readAll_save]

theorem dedupSim_copied (so : Sorter Block.cksum) (sha1 : List UInt8 → Checksum)
    (seg old : Segment) (cds : List UInt8) (parent : Option (List UInt8)) (hs : Sized snapshot) :
    (Block.loader.readAll (dedupSim so sha1 seg old snapshot cds parent)).map Block.copied =
      ((Block.loader.readAll snapshot).filter fun b => b.size ≠ 0).map Block.copied := by
  have hlevel : Block.copied ∘ cdsLevel (Block.loader.readAll cds) = Block.copied :=
    funext (cdsLevel_copied _)
  rw [dedupSim_readAll, List.map_map, hlevel, marked_copied]
  unfold Sized at hs
  rw [Block.loader_eq] at hs ⊢
  rw [Segment.loadAll_blocks sha1 seg hs]

/-- Copies of blocks that are not empty are read like the blocks. -/
theorem ne_zero_of_copied
    (h : bs.map Block.copied = (bs'.filter fun b => b.size ≠ 0).map Block.copied) :
    ∀ b ∈ bs, b.size ≠ 0 := by
  intro b hb
  have hmem := List.mem_map_of_mem (f := Block.copied) hb
  rw [h] at hmem
  obtain ⟨a, ha, heq⟩ := List.mem_map.1 hmem
  have hsize : a.size = b.size := congrArg (fun c => c.2.1) heq
  rw [← hsize]
  exact of_decide_eq_true (List.mem_filter.1 ha).2

theorem alike_of_copied
    (h : bs.map Block.copied = (bs'.filter fun b => b.size ≠ 0).map Block.copied) :
    Alike bs bs' := by
  rw [alike_iff, ← h, List.filter_eq_self.2 fun b hb => decide_eq_true (ne_zero_of_copied h b hb)]

theorem sized_of_copied
    (h : (Block.loader.readAll is).map Block.copied =
      ((Block.loader.readAll snapshot).filter fun b => b.size ≠ 0).map Block.copied)
    (hs : Sized snapshot) : Sized is := by
  intro b hb
  have hmem := List.mem_map_of_mem (f := Block.copied) hb
  rw [h] at hmem
  obtain ⟨a, ha, heq⟩ := List.mem_map.1 hmem
  have hsize : a.size = b.size := congrArg (fun c => c.2.1) heq
  rw [← hsize]
  exact hs a (List.mem_filter.1 ha).1

/-- **What the simulator writes is read like the log.** -/
theorem dedupSim_alike (so : Sorter Block.cksum) (sha1 : List UInt8 → Checksum)
    (seg old : Segment) (cds : List UInt8) (parent : Option (List UInt8)) (hs : Sized snapshot) :
    SameLog (dedupSim so sha1 seg old snapshot cds parent) snapshot :=
  have hcopied := dedupSim_copied so sha1 seg old cds parent hs
  ⟨sized_of_copied hcopied hs, hs, alike_of_copied hcopied⟩

/-! ## Versions -/

section Versions

variable (so : Sorter Block.cksum) (sha1 : List UInt8 → Checksum) (seg old : Segment)
  (cds : List UInt8)

/-- Versions one after another: each run's parent is what the run before it has written. -/
def simVersions : Option (List UInt8) → List (List UInt8) → List (List UInt8)
  | _, [] => []
  | parent, v :: versions =>
    dedupSim so sha1 seg old v cds parent ::
      simVersions (some (dedupSim so sha1 seg old v cds parent)) versions

/-- Each run's parent is the log of the version before. -/
def simLogs : Option (List UInt8) → List (List UInt8) → List (List UInt8)
  | _, [] => []
  | parent, v :: versions => dedupSim so sha1 seg old v cds parent :: simLogs (some v) versions

end Versions

theorem simVersions_congr (so : Sorter Block.cksum) (sha1 : List UInt8 → Checksum)
    (seg old : Segment) (cds : List UInt8) {versions versions' : List (List UInt8)}
    (h : List.Forall₂ SameLog versions versions') : ∀ parent parent' : Option (List UInt8),
      Option.Rel SameLog parent parent' →
      simVersions so sha1 seg old cds parent versions =
          simLogs so sha1 seg old cds parent' versions' ∧
        List.Forall₂ SameLog (simVersions so sha1 seg old cds parent versions) versions' := by
  induction h with
  | nil => exact fun _ _ _ => ⟨rfl, .nil⟩
  | @cons v v' versions versions' hv _ ih =>
    intro parent parent' hpar
    -- what is written is read like the version, so it does for the next run
    have hrun := dedupSim_congr so so sha1 seg seg old old cds hv hpar
    have hout : SameLog (dedupSim so sha1 seg old v cds parent) v' := by
      rw [hrun]
      exact dedupSim_alike so sha1 seg old cds parent' hv.sized'
    obtain ⟨heq, hall⟩ := ih (some (dedupSim so sha1 seg old v cds parent)) (some v') (.some hout)
    rw [simVersions, simLogs, heq, ← hrun]
    rw [heq] at hall
    exact ⟨rfl, .cons hout hall⟩

/-- **A chain of versions** may take the output of each run as the parent of the next, and the
outputs may be run again. -/
theorem simVersions_eq (so : Sorter Block.cksum) (sha1 : List UInt8 → Checksum)
    (seg old : Segment) (cds : List UInt8) (parent : Option (List UInt8))
    (versions : List (List UInt8)) (hp : ∀ p ∈ parent, Sized p) (hs : ∀ v ∈ versions, Sized v) :
    simVersions so sha1 seg old cds parent versions = simLogs so sha1 seg old cds parent versions ∧
      simVersions so sha1 seg old cds parent (simVersions so sha1 seg old cds parent versions) =
        simVersions so sha1 seg old cds parent versions := by
  have hpar : Option.Rel SameLog parent parent := by
    rcases parent with - | p
    · exact .none
    · exact .some (.refl (hp p rfl))
  obtain ⟨hlogs, hall⟩ := simVersions_congr so sha1 seg old cds
    (List.forall₂_same.2 fun v hv => .refl (hs v hv)) parent parent hpar
  obtain ⟨hagain, -⟩ := simVersions_congr so sha1 seg old cds hall parent parent hpar
  exact ⟨hlogs, hagain.trans hlogs.symm⟩

/-- Two versions of one block. -/
theorem simVersions_eq_three :
    simVersions (.merge Block.cksum) segmentDigest default default [] none
        (List.replicate 2 ([threeBlock].flatMap Block.save)) =
      simLogs (.merge Block.cksum) segmentDigest default default [] none
        (List.replicate 2 ([threeBlock].flatMap Block.save)) ∧
      simVersions (.merge Block.cksum) segmentDigest default default [] none
          (simVersions (.merge Block.cksum) segmentDigest default default [] none
            (List.replicate 2 ([threeBlock].flatMap Block.save))) =
        simVersions (.merge Block.cksum) segmentDigest default default [] none
          (List.replicate 2 ([threeBlock].flatMap Block.save)) := by
  refine simVersions_eq (.merge Block.cksum) segmentDigest default default [] none
    (List.replicate 2 ([threeBlock].flatMap Block.save)) nofun ?_
  intro v hv
  rw [List.eq_of_mem_replicate hv]
  unfold Sized
  rw [loader_readAll_save]
  simp [threeBlock]

/-! ## An unchanged version -/

/-- A log against itself: every segment is found at level 1. -/
theorem marked_self (so : Sorter Block.cksum) (sha1 : List UInt8 → Checksum)
    {ss : List (List Block)} : ∀ (parent : Segment) (is : List UInt8), Sized is →
      segmentsOf (Block.loader.readAll is) = ss →
      marked so sha1 true parent is (ss.map (Segment.ofBlocks sha1)) =
        ss.flatten.map fun b => { b with fileId := inParent } := by
  induction ss with
  | nil => exact fun _ _ _ _ => rfl
  | cons s ss ih =>
    intro parent is hsized hss
    obtain ⟨hok, hrest⟩ := loadParent_ok so sha1 parent is hsized
    have hne : (takeSegment 0 (Block.loader.readAll is)).1 ≠ [] := by
      intro h0
      rw [segmentsOf, if_pos h0] at hss
      cases hss
    rw [segmentsOf, if_neg hne, List.cons.injEq] at hss
    obtain ⟨rfl, hss⟩ := hss
    -- the segment of the parent has the same digest
    have hlevel : (parentLevels true
        (Segment.ofBlocks sha1 (takeSegment 0 (Block.loader.readAll is)).1)
        (loadParent so sha1 true parent is).1).blocklist =
          (takeSegment 0 (Block.loader.readAll is)).1.map fun b => { b with fileId := inParent } := by
      have hcksum : (Segment.ofBlocks sha1 (takeSegment 0 (Block.loader.readAll is)).1).cksum =
          (loadParent so sha1 true parent is).1.cksum := by
        rw [Segment.ofBlocks_cksum, hok.cksum]
        rfl
      simp only [parentLevels, Segment.mapBlocks, hcksum, and_self, if_true,
        Segment.ofBlocks_blocklist, List.map_map]
      apply List.map_congr_left
      intro b _
      simp only [Function.comp_apply, UInt32.zero_or]
    rw [List.map_cons, marked, hlevel, List.flatten_cons, List.map_append]
    refine congrArg _ (ih _ _ ?_ (by rw [hrest, hss]))
    unfold Sized
    rw [hrest]
    exact fun b hb => hsized b ((takeSegment_mem 0 _).2 b hb)

/-- **A version that is read like its parent is in the parent**, every block of it. -/
theorem dedupSim_unchanged (so : Sorter Block.cksum) (sha1 : List UInt8 → Checksum)
    (seg old : Segment) (cds : List UInt8) {parent : List UInt8} (h : SameLog snapshot parent) :
    Block.loader.readAll (dedupSim so sha1 seg old snapshot cds (some parent)) =
      ((Block.loader.readAll snapshot).filter fun b => b.size ≠ 0).map fun b =>
        cdsLevel (Block.loader.readAll cds) { b with fileId := inParent } := by
  rw [dedupSim_congr so so sha1 seg seg old old cds (.refl h.sized) (.some h.symm),
    dedupSim_readAll, h.sized.loadAll]
  change (marked so sha1 true old snapshot _).map _ = _
  rw [marked_self so sha1 old snapshot h.sized rfl, segmentsOf_flatten, List.map_map]
  rfl

end DedupSim
