import DedupSim.Lib.HitRuns
import DedupSim.Proof.CdsLru
import DedupSim.Spec.HitAnalysis

/-!
# The runs of CDS hits

* `searchCds_runs`: the loop writes the lengths of the runs that a miss ends.
* `cdsHitAnalysis_iff`: **when these are all runs**: the last block is no hit, since
  nothing is written after the loop, and every length is an `int`.
-/

namespace DedupSim

variable {sha1 : List UInt8 → Checksum} {cds : List Block} {blk : Block} {bs : List Block}
  {st : Int32 × List Int32}

/-- The loop over the segments is one over the blocks of all of them. -/
theorem hitLoop_eq (sha1 : List UInt8 → Checksum) (cds : List Block) (is : List UInt8) :
    ∀ (seg : Segment) (st : Int32 × List Int32), hitLoop sha1 cds seg st is =
      (((Segment.loadAll sha1 seg is).flatMap Segment.blocklist).foldl (searchCds cds) st).2 := by
  induction h : is.length using Nat.strong_induction_on generalizing is with
  | _ n ih =>
    subst h
    intro seg st
    unfold hitLoop
    split
    · rename_i hl
      rw [Segment.loadSegment_eq] at hl
      rw [Segment.loadAll_false (congrArg Prod.fst hl)]
      rfl
    · rename_i seg' rest hl
      have hlt := Segment.loadWith_lt hl
      rw [Segment.loadSegment_eq] at hl
      rw [Segment.loadAll_true hl, List.flatMap_cons, List.foldl_append, ih _ hlt rest rfl]

/-! ## The counter -/

theorem searchCds_hit (h : binarySearch Block.cksum cds blk = true) :
    searchCds cds st blk = (st.1 + 1, st.2) := if_pos h

/-- A miss writes the counter if it is not zero, and resets it. -/
theorem searchCds_miss (h : binarySearch Block.cksum cds blk = false) :
    searchCds cds st blk = (0, st.2 ++ [st.1].filter (· ≠ 0)) := by
  unfold searchCds
  rw [h, if_neg Bool.false_ne_true]
  by_cases hst : st.1 = 0
  · rw [if_neg (not_not.2 hst), List.filter_cons_of_neg (by simpa using hst), List.filter_nil,
      List.append_nil, ← hst]
  · rw [if_pos hst, List.filter_cons_of_pos (by simpa using hst), List.filter_nil]

/-- The counter is a number below `2 ^ 31`. -/
theorem toInt_succ {i : Int32} {n : ℕ} (hi : i.toInt = n) (hn : n + 1 < 2 ^ 31) :
    (i + 1).toInt = (n + 1 : ℕ) := by
  have hone : (1 : Int32).toInt = 1 := rfl
  rw [Int32.toInt_add, hi, hone]
  apply Int.bmod_eq_of_le
  · omega
  · omega

theorem map_toInt_counter {i : Int32} {n : ℕ} (hi : i.toInt = n) :
    ([i].filter (· ≠ 0)).map Int32.toInt = ([n].filter (· ≠ 0)).map (fun m : ℕ => (m : ℤ)) := by
  have hzero : i = 0 ↔ n = 0 := by
    rw [← Int32.toInt_inj, hi, Int32.toInt_zero, Int.natCast_eq_zero]
  by_cases hn : n = 0
  · rw [hzero.2 hn, hn]
    rfl
  · rw [List.filter_cons_of_pos (by simpa using hzero.not.2 hn),
      List.filter_cons_of_pos (by simpa using hn)]
    exact congrArg (fun m : ℤ => [m]) hi

/-- **The loop writes the runs**, but for the one that is open at the end, if no run is
too long for an `int`. -/
theorem searchCds_runs (cds bs : List Block) : ∀ (st : Int32 × List Int32) (n : ℕ), st.1.toInt = n →
    (∀ m ∈ runLengthsFrom (binarySearch Block.cksum cds) n bs, m < 2 ^ 31) →
    (bs.foldl (searchCds cds) st).2.map Int32.toInt ++
        ([openRun (binarySearch Block.cksum cds) n bs].filter (· ≠ 0)).map (fun m : ℕ => (m : ℤ)) =
      st.2.map Int32.toInt ++
        (runLengthsFrom (binarySearch Block.cksum cds) n bs).map (fun m : ℕ => (m : ℤ)) := by
  induction bs with
  | nil => exact fun st n hn hshort => rfl
  | cons blk bs ih =>
    intro st n hn hshort
    rw [List.foldl_cons]
    unfold runLengthsFrom at hshort ⊢
    unfold openRun
    by_cases hhit : binarySearch Block.cksum cds blk = true
    · rw [if_pos hhit] at hshort ⊢
      rw [if_pos hhit, searchCds_hit hhit]
      -- the run that is open is as long as a later one, so it is short
      obtain ⟨m, hm, hle⟩ := exists_le_runLengthsFrom (p := binarySearch Block.cksum cds) bs (n + 1)
        n.succ_pos
      have hlt := hshort m hm
      exact ih (st.1 + 1, st.2) (n + 1) (toInt_succ hn (by omega)) hshort
    · rw [if_neg hhit] at hshort ⊢
      rw [Bool.not_eq_true] at hhit
      rw [if_neg (by rw [hhit]; exact Bool.false_ne_true), searchCds_miss hhit]
      have hrest : ∀ m ∈ runLengthsFrom (binarySearch Block.cksum cds) 0 bs, m < 2 ^ 31 :=
        fun m hm => hshort m (List.mem_append_right _ hm)
      rw [ih (0, st.2 ++ [st.1].filter (· ≠ 0)) 0 rfl hrest, List.map_append, List.map_append,
        map_toInt_counter hn, List.append_assoc]

/-! ## The program -/

/-- **When the numbers are the lengths of all maximal runs of hits**: the last block is no
hit, and no run has `2 ^ 31` hits or more. -/
theorem cdsHitAnalysis_iff (sha1 : List UInt8 → Checksum) (seg : Segment)
    (snapshot cds : List UInt8)
    (h31 : ∀ b ∈ Block.loader.readAll snapshot, b.size.toNat < 2 ^ 31)
    (hcds : (Block.loader.readAll cds).Pairwise fun a b => a.cksum ≤ b.cksum) :
    let blocks := (Block.loader.readAll snapshot).filter fun b => b.size ≠ 0
    let hit := fun b : Block => decide (b.cksum ∈ (Block.loader.readAll cds).map Block.cksum)
    let output := (cdsHitAnalysis sha1 seg snapshot cds).map Int32.toInt
    (output = (runLengths hit blocks).map (fun m : ℕ => (m : ℤ)) ∧
        output.sum = blocks.countP hit) ↔
      (∀ b, blocks.getLast? = some b → hit b = false) ∧ ∀ m ∈ runLengths hit blocks, m < 2 ^ 31 := by
  intro blocks hit output
  have hsearch : binarySearch Block.cksum (Block.loader.readAll cds) = hit := by
    funext b
    rw [Bool.eq_iff_iff, mem_cds hcds b]
    exact decide_eq_true_iff.symm
  have hblocks : (Segment.loadAll sha1 seg snapshot).flatMap Segment.blocklist = blocks := by
    rw [Block.loader_eq] at h31
    rw [Segment.loadAll_blocks sha1 seg h31, ← Block.loader_eq]
  have hloop : output = ((blocks.foldl (searchCds (Block.loader.readAll cds)) (0, [])).2).map
      Int32.toInt := by
    change (cdsHitAnalysis sha1 seg snapshot cds).map Int32.toInt = _
    unfold cdsHitAnalysis
    rw [hitLoop_eq, hblocks]
  have hruns := searchCds_runs (Block.loader.readAll cds) blocks (0, []) 0 rfl
  rw [hsearch, ← hloop, ← runLengths_eq, List.map_nil, List.nil_append] at hruns
  constructor
  · rintro ⟨hout, -⟩
    have hshort : ∀ m ∈ runLengths hit blocks, m < 2 ^ 31 := by
      intro m hm
      have hmem : (m : ℤ) ∈ output := by
        rw [hout]
        exact List.mem_map_of_mem hm
      obtain ⟨i, -, hi⟩ := List.mem_map.1 hmem
      have hlt := i.toInt_lt
      omega
    -- no run is open at the end
    have hopen := hruns hshort
    rw [← hout] at hopen
    have hnil := List.append_cancel_left (hopen.trans (List.append_nil output).symm)
    rw [List.map_eq_nil_iff, List.filter_eq_nil_iff] at hnil
    have hzero := hnil _ (List.mem_singleton_self _)
    rw [decide_eq_true_eq, not_not] at hzero
    exact ⟨openRun_eq_zero.1 hzero, hshort⟩
  · rintro ⟨hlast, hshort⟩
    have hout := hruns hshort
    rw [openRun_eq_zero.2 hlast] at hout
    change output ++ [] = _ at hout
    rw [List.append_nil] at hout
    refine ⟨hout, ?_⟩
    rw [hout, ← sum_runLengths hit blocks, Nat.cast_list_sum]

/-- A snapshot of a hit and a miss. -/
theorem cdsHitAnalysis_two :
    let snapshot := [Block.mk 1 0 0 default, blockEnding 1].flatMap Block.toStream
    let cds := (Block.mk 1 0 0 default).toStream
    let blocks := (Block.loader.readAll snapshot).filter fun b => b.size ≠ 0
    let hit := fun b : Block => decide (b.cksum ∈ (Block.loader.readAll cds).map Block.cksum)
    let output := (cdsHitAnalysis zerosDigest default snapshot cds).map Int32.toInt
    (output = (runLengths hit blocks).map (fun m : ℕ => (m : ℤ)) ∧
        output.sum = blocks.countP hit) ↔
      (∀ b, blocks.getLast? = some b → hit b = false) ∧ ∀ m ∈ runLengths hit blocks, m < 2 ^ 31 := by
  have h1 := (readAll_records [Block.mk 1 0 0 default, blockEnding 1]).2
  have h2 := (readAll_records [Block.mk 1 0 0 default]).2
  apply cdsHitAnalysis_iff zerosDigest default
  · rw [h1]
    decide
  · rw [List.flatMap_singleton] at h2
    rw [h2]
    exact List.pairwise_singleton _ _

/-- A snapshot of one hit: nothing is written. -/
theorem cdsHitAnalysis_one :
    let file := (Block.mk 1 0 0 default).toStream
    cdsHitAnalysis zerosDigest default file file = [] ∧
      runLengths (fun b : Block => decide (b.cksum ∈ (Block.loader.readAll file).map Block.cksum))
        ((Block.loader.readAll file).filter fun b => b.size ≠ 0) = [1] := by
  have h2 := (readAll_records [Block.mk 1 0 0 default]).2
  rw [List.flatMap_singleton] at h2
  intro file
  have hfile : Block.loader.readAll file = [Block.mk 1 0 0 default] := h2
  have h31 : ∀ b ∈ Block.reader.readAll file, b.size.toNat < 2 ^ 31 := by
    rw [← Block.loader_eq, hfile]
    decide
  refine ⟨?_, ?_⟩
  · have hhit : binarySearch Block.cksum [Block.mk 1 0 0 default] (Block.mk 1 0 0 default) = true :=
      (mem_cds (List.pairwise_singleton _ _) _).2 (List.mem_singleton_self _)
    unfold cdsHitAnalysis
    rw [hitLoop_eq, Segment.loadAll_blocks _ _ h31, ← Block.loader_eq, hfile]
    exact congrArg Prod.snd (searchCds_hit hhit)
  · rw [hfile]
    rfl

end DedupSim
