import DedupSim.Lib.Grouping
import DedupSim.Proof.Analysis
import DedupSim.Proof.BinDedup
import DedupSim.Proof.Sort
import DedupSim.Proof.Soundness

/-!
# What the analysis accounts for

`dedup_analysis` on any file, and on what the simulators write.

* `loads_get`: a counter is that of the blocks of its category; `dedupAnalysis_add`: **the line
  `Add` of the report is the line `Total`**, of any file.
* `scan_accounted`: **files that are scanned, simulated and analysed are shared out among the
  four categories**, to the byte.
* `unchanged_accounted`: a version that is read like its parent is in `L1`.
* `cdsLru_accounted`: the cache moves blocks to `Other`, but none to or from `New`.
-/

namespace DedupSim

variable {so : Sorter Block.cksum} {sha1 : List UInt8 → Checksum}
  {pq : PriorityQueue CacheItem.time} {clock : Clock} {size : Int32} {seg old : Segment}
  {snapshot cds output is : List UInt8} {parent : Option (List UInt8)} {bs bs' : List Block}

/-! ## Categories -/

/-- The categories of the report. -/
inductive Category where
  | new
  | l1
  | l2
  | l3
  | other
deriving DecidableEq

/-- The category of a block's flags. -/
def categoryOf (fileId : UInt32) : Category :=
  if fileId = 0 then .new
  else if fileId = inParent ∨ fileId = inParent ||| inCds then .l1
  else if fileId = inDirtySeg ∨ fileId = inDirtySeg ||| inCds then .l2
  else if fileId = inCds then .l3
  else .other

/-- The category of a block. -/
def Block.category (b : Block) : Category := categoryOf b.fileId

/-- The counters of a category. -/
def Analysis.get (a : Analysis) : Category → Tally
  | .new => a.new
  | .l1 => a.l1
  | .l2 => a.l2
  | .l3 => a.l3
  | .other => a.other

theorem Analysis.load_get (a : Analysis) (b : Block) (c : Category) :
    (a.load b).get c = if b.category = c then (a.get c).add b else a.get c := by
  by_cases hb : b.Other
  · -- every comparison fails
    unfold Block.Other categories at hb
    simp only [List.mem_cons, List.not_mem_nil, or_false, not_or] at hb
    obtain ⟨h0, h1, h2, h3, h4, h5⟩ := hb
    simp only [load, Block.category, categoryOf, h0, h1, h2, h3, h4, h5, if_false, or_self]
    cases c <;> rfl
  · unfold Block.Other categories at hb
    simp only [not_not, List.mem_cons, List.not_mem_nil, or_false] at hb
    obtain ⟨size, fileId, offset, cksum⟩ := b
    simp only at hb
    rcases hb with rfl | rfl | rfl | rfl | rfl | rfl <;> cases c <;> rfl

theorem Analysis.load_total (a : Analysis) (b : Block) : (a.load b).total = a.total.add b := by
  unfold load
  simp only
  split_ifs <;> rfl

theorem Analysis.loads_total (bs : List Block) (a : Analysis) :
    (bs.foldl load a).total = bs.foldl Tally.add a.total := by
  induction bs generalizing a with
  | nil => rfl
  | cons b bs ih => rw [List.foldl_cons, ih, load_total, List.foldl_cons]

/-- **A counter is that of the blocks of its category.** -/
theorem Analysis.loads_get (c : Category) (bs : List Block) (a : Analysis) :
    (bs.foldl load a).get c =
      (bs.filter fun b => decide (b.category = c)).foldl Tally.add (a.get c) := by
  induction bs generalizing a with
  | nil => rfl
  | cons b bs ih =>
    rw [List.foldl_cons, ih, load_get]
    by_cases hb : b.category = c
    · rw [if_pos hb, List.filter_cons_of_pos (by exact decide_eq_true hb), List.foldl_cons]
    · rw [if_neg hb, List.filter_cons_of_neg (by exact fun h => hb (of_decide_eq_true h))]

/-- What is counted of blocks. -/
def tallyOf (bs : List Block) : Tally := ⟨.ofNat bs.length, .ofNat (sizeOf bs)⟩

theorem Tally.adds_data (bs : List Block) (t : Tally) :
    (bs.foldl add t).data = t.data + UInt64.ofNat (sizeOf bs) := by
  induction bs generalizing t with
  | nil =>
    change t.data = t.data + 0
    rw [UInt64.add_zero]
  | cons b bs ih =>
    rw [List.foldl_cons, ih, sizeOf_cons, UInt64.ofNat_add, ← UInt64.add_assoc,
      ← MergeOld.toUInt64_eq]
    rfl

theorem foldl_add_zero (bs : List Block) : bs.foldl Tally.add ⟨0, 0⟩ = tallyOf bs := by
  have hblocks := Tally.adds_blocks bs ⟨0, 0⟩
  have hdata := Tally.adds_data bs ⟨0, 0⟩
  rw [UInt64.zero_add] at hblocks hdata
  unfold tallyOf
  rw [← hblocks, ← hdata]

/-- The blocks of a category. -/
def inCategory (c : Category) (bs : List Block) : List Block :=
  bs.filter fun b => decide (b.category = c)

theorem dedupAnalysis_get (c : Category) (is : List UInt8) :
    (dedupAnalysis is).get c = tallyOf (inCategory c (Block.loader.readAll is)) := by
  unfold dedupAnalysis
  rw [Analysis.loads_get]
  rw [← foldl_add_zero]
  cases c <;> rfl

theorem dedupAnalysis_total (is : List UInt8) :
    (dedupAnalysis is).total = tallyOf (Block.loader.readAll is) := by
  unfold dedupAnalysis
  rw [Analysis.loads_total]
  exact foldl_add_zero _

/-- The blocks of all categories. -/
theorem categories_perm (bs : List Block) :
    (inCategory .l1 bs ++ (inCategory .l2 bs ++ (inCategory .l3 bs ++
      (inCategory .new bs ++ inCategory .other bs)))).Perm bs := by
  have hperm : (([.l1, .l2, .l3, .new, .other] : List Category).flatMap fun c =>
      bs.filter fun b => decide (b.category = c)).Perm bs :=
    group_perm Block.category (by decide) fun b _ => by cases b.category <;> decide
  simp only [List.flatMap_cons, List.flatMap_nil, List.append_nil] at hperm
  exact hperm

/-- **What is shared out among the categories is everything.** -/
theorem categories_sum (bs : List Block) :
    (inCategory .l1 bs).length + (inCategory .l2 bs).length + (inCategory .l3 bs).length +
        (inCategory .new bs).length + (inCategory .other bs).length = bs.length ∧
      sizeOf (inCategory .l1 bs) + sizeOf (inCategory .l2 bs) + sizeOf (inCategory .l3 bs) +
        sizeOf (inCategory .new bs) + sizeOf (inCategory .other bs) = sizeOf bs := by
  have hperm := categories_perm bs
  have hlen := hperm.length_eq
  have hsize := sizeOf_perm hperm
  simp only [List.length_append] at hlen
  simp only [sizeOf_append] at hsize
  omega

/-- The two numbers of the line `Add`. -/
def Analysis.sum (a : Analysis) : Tally where
  blocks := a.l1.blocks + a.l2.blocks + a.l3.blocks + a.new.blocks + a.other.blocks
  data := a.l1.data + a.l2.data + a.l3.data + a.new.data + a.other.data

/-- **The line `Add` is the line `Total`**, of any file, as far as 64 bits go. -/
theorem dedupAnalysis_add (is : List UInt8) :
    (dedupAnalysis is).sum = (dedupAnalysis is).total := by
  have hget := fun c => dedupAnalysis_get c is
  obtain ⟨hlen, hsize⟩ := categories_sum (Block.loader.readAll is)
  have hnew := hget .new
  have hl1 := hget .l1
  have hl2 := hget .l2
  have hl3 := hget .l3
  have hother := hget .other
  simp only [Analysis.get] at hnew hl1 hl2 hl3 hother
  rw [dedupAnalysis_total, Analysis.sum, hnew, hl1, hl2, hl3, hother]
  simp only [tallyOf, ← UInt64.ofNat_add, hlen, hsize]

/-! ## The simulator -/

theorem category_other {b : Block} : b.category = .other ↔ b.Other := by
  unfold Block.category categoryOf Block.Other categories
  simp only [List.mem_cons, List.not_mem_nil, or_false, not_or]
  split_ifs <;> simp only [false_iff, true_iff] <;> tauto

theorem inCategory_nil {c : Category} (h : ∀ b ∈ bs, b.category ≠ c) : inCategory c bs = [] :=
  List.filter_eq_nil_iff.2 fun b hb heq => h b hb (of_decide_eq_true heq)

/-- Every block that the simulator writes has a category. -/
theorem dedupSim_other (so : Sorter Block.cksum) (sha1 : List UInt8 → Checksum)
    (seg old : Segment) (snapshot cds : List UInt8) (parent : Option (List UInt8)) :
    inCategory .other
      (Block.loader.readAll (dedupSim so sha1 seg old snapshot cds parent)) = [] := by
  refine inCategory_nil fun b hb => ?_
  rw [dedupSim_readAll] at hb
  obtain ⟨a, ha, rfl⟩ := List.mem_map.1 hb
  have hmarked := (marked_marked so sha1 _ _ _ _).1 a ha
  rw [Ne, category_other]
  exact (hmarked.other_iff (.inr rfl)).2.1

/-- The analysis of a simulation has nothing else. -/
theorem dedupAnalysis_other (so : Sorter Block.cksum) (sha1 : List UInt8 → Checksum)
    (seg old : Segment) (snapshot cds : List UInt8) (parent : Option (List UInt8)) :
    (dedupAnalysis (dedupSim so sha1 seg old snapshot cds parent)).other = ⟨0, 0⟩ := by
  refine (dedupAnalysis_get .other _).trans ?_
  rw [dedupSim_other]
  rfl

theorem sizeOf_copied (h : bs.map Block.copied = bs'.map Block.copied) :
    sizeOf bs = sizeOf bs' := by
  have := congrArg (List.map fun c : Checksum × UInt32 × UInt64 => c.2.1.toNat) h
  rw [List.map_map, List.map_map] at this
  exact congrArg List.sum this

/-- A counter does not depend on the flags. -/
theorem tallyOf_copied (h : bs.map Block.copied = bs'.map Block.copied) :
    tallyOf bs = tallyOf bs' := by
  have hlen := congrArg List.length h
  rw [List.length_map, List.length_map] at hlen
  rw [tallyOf, hlen, sizeOf_copied h, tallyOf]

/-- **Files that are scanned, simulated and analysed** are shared out among the four categories,
whatever the CDS and the parent are: to the block, and to the byte if and only if each file's
last block was recorded. -/
theorem scan_accounted (sha1 : List UInt8 → Checksum) (mem : Uninit) (var : Bool) {kb : ℤ}
    (h1 : 1 ≤ kb) (h2 : kb ≤ 2048) (F : ℕ) (dataout : Bool) (p1 p2 : List UInt8)
    (Xs : List (List UInt8))
    (htotal : (Xs.map List.length).sum < 2 ^ 64) (so : Sorter Block.cksum) (seg old : Segment)
    (cds : List UInt8) (parent : Option (List UInt8)) :
    let log := Xs.flatMap (scanLog sha1 (Scanner.new mem var kb F dataout) p1 p2)
    let a := dedupAnalysis (dedupSim so sha1 seg old (log.flatMap Block.save) cds parent)
    (a.l1.data.toNat + a.l2.data.toNat + a.l3.data.toNat + a.new.data.toNat =
        (Xs.map List.length).sum ↔ ∀ X ∈ Xs, Whole (Scanner.new mem var kb F dataout) X) ∧
      a.l1.blocks.toNat + a.l2.blocks.toNat + a.l3.blocks.toNat + a.new.blocks.toNat = log.length ∧
      a.other = ⟨0, 0⟩ := by
  intro log a
  obtain ⟨hproper, hsize, hall, -⟩ := scans_sizeOf sha1 mem var h1 h2 F dataout p1 p2 Xs
  change ∀ b ∈ log, b.Proper at hproper
  change sizeOf log ≤ _ at hsize
  change sizeOf log = _ ↔ _ at hall
  have hread : Block.loader.readAll (log.flatMap Block.save) = log := loader_readAll_save log
  have hsized : Sized (log.flatMap Block.save) := by
    unfold Sized
    rw [hread]
    exact fun b hb => (hproper b hb).lt
  set out := Block.loader.readAll (dedupSim so sha1 seg old (log.flatMap Block.save) cds parent)
  have hcopied : out.map Block.copied = log.map Block.copied := by
    have h := dedupSim_copied so sha1 seg old cds parent hsized
    rwa [hread, List.filter_eq_self.2 fun b hb => decide_eq_true (hproper b hb).ne_zero] at h
  have hlen : out.length = log.length := by
    have h := congrArg List.length hcopied
    rwa [List.length_map, List.length_map] at h
  have hbytes : sizeOf out = sizeOf log := sizeOf_copied hcopied
  have hle : log.length ≤ sizeOf log := length_le_sizeOf fun b hb => (hproper b hb).ne_zero
  have hother : inCategory .other out = [] := dedupSim_other so sha1 seg old _ cds parent
  obtain ⟨hcount, hsum⟩ := categories_sum out
  rw [hother] at hcount hsum
  simp only [List.length_nil, Nat.add_zero, sizeOf_nil] at hcount hsum
  have hnat : ∀ c, (a.get c).data.toNat = sizeOf (inCategory c out) % 2 ^ 64 ∧
      (a.get c).blocks.toNat = (inCategory c out).length % 2 ^ 64 := by
    intro c
    rw [dedupAnalysis_get]
    exact ⟨UInt64.toNat_ofNat', UInt64.toNat_ofNat'⟩
  have hnew := hnat .new
  have hl1 := hnat .l1
  have hl2 := hnat .l2
  have hl3 := hnat .l3
  simp only [Analysis.get] at hnew hl1 hl2 hl3
  refine ⟨?_, by omega, dedupAnalysis_other so sha1 seg old _ cds parent⟩
  rw [← hall]
  omega

/-- Two files of three blocks, against a parent with one of them. -/
theorem scan_accounted_pairs :
    let log := [pairsFile, pairsFile].flatMap
      (scanLog pairsDigest (Scanner.new default true 4 2 false) [] [])
    let a := dedupAnalysis (dedupSim (.merge Block.cksum) pairsDigest default default
      (log.flatMap Block.save) [] (some ((log.take 3).flatMap Block.save)))
    (a.l1.data.toNat + a.l2.data.toNat + a.l3.data.toNat + a.new.data.toNat = 12 ↔
        ∀ X ∈ [pairsFile, pairsFile], Whole (Scanner.new default true 4 2 false) X) ∧
      a.l1.blocks.toNat + a.l2.blocks.toNat + a.l3.blocks.toNat + a.new.blocks.toNat = log.length ∧
      a.other = ⟨0, 0⟩ :=
  scan_accounted pairsDigest default true (by decide) (by decide) 2 false [] [] [pairsFile, pairsFile]
    (by decide) (.merge Block.cksum) default default [] (some _)

theorem tallyOf_congr {p p' : Block → Bool}
    (h : List.Forall₂ (fun b b' => p b = p' b' ∧ b.size = b'.size) bs bs') :
    tallyOf (bs.filter p) = tallyOf (bs'.filter p') := by
  suffices (bs.filter p).map Block.size = (bs'.filter p').map Block.size by
    have hlen := congrArg List.length this
    have hsize := congrArg (fun l => (l.map UInt32.toNat).sum) this
    rw [List.length_map, List.length_map] at hlen
    simp only [List.map_map] at hsize
    unfold tallyOf sizeOf
    rw [hlen]
    exact congrArg (Tally.mk _ <| UInt64.ofNat ·) hsize
  induction h with
  | nil => rfl
  | @cons b b' _ _ hb _ ih =>
    obtain ⟨hp, hsize⟩ := hb
    by_cases hb : p b = true
    · rw [List.filter_cons_of_pos hb, List.filter_cons_of_pos (hp ▸ hb), List.map_cons,
        List.map_cons, hsize, ih]
    · rw [List.filter_cons_of_neg hb, List.filter_cons_of_neg (hp ▸ hb), ih]

/-- A flag of a simulator is not the bit `0x08` alone. -/
theorem Block.Marked.clearCache_ne {cds : List Block} {b' : Block} (h : b.Marked)
    (hc : Cached cds b b') (hflag : b'.fileId ≠ 0) : b'.clearCache.fileId ≠ 0 := by
  have hbits : ∀ f : UInt32, f = 0 ∨ f = inParent ∨ f = inDirtySeg →
      (f ||| inCdsCache) &&& ~~~0x08 ≠ 0 ∧ (f ||| inCds) &&& ~~~0x08 ≠ 0 ∧ f &&& ~~~0x08 = f := by
    rintro f (rfl | rfl | rfl) <;> decide
  obtain ⟨hhit, hmiss, hout⟩ := hbits b.fileId h
  unfold Block.clearCache
  rcases hc with rfl | rfl
  · exact hhit
  · unfold cdsLevel at hflag ⊢
    split at hflag
    · rename_i hb
      rw [if_pos hb]
      exact hmiss
    · rename_i hb
      rw [if_neg hb]
      change b.fileId &&& ~~~0x08 ≠ 0
      rwa [hout]

/-- **What `dedup_cds_lru` writes**, on a cache that an earlier run has saved or on none, beside
what `dedup_cds_sim` writes. -/
theorem cdsLru_output (hsize : 10 ≤ size) {oldCache : Option (List UInt8)} {newCache : List UInt8}
    (hold : ∀ is, oldCache = some is → SavedCache (Block.loader.readAll cds) is)
    (hcds : (Block.loader.readAll cds).Pairwise fun a b => a.cksum ≤ b.cksum)
    (h : cdsLru so sha1 pq clock size seg old oldCache snapshot cds parent =
      .ok (newCache, output)) :
    Block.loader.readAll (dedupSim so sha1 seg old snapshot cds parent) =
        (Block.loader.readAll output).map Block.clearCache ∧
      ∀ b' ∈ Block.loader.readAll output,
        ∃ b : Block, b.Marked ∧ Cached (Block.loader.readAll cds) b b' := by
  obtain ⟨newCache', out, hok, -, hout⟩ := cdsLru_ok so sha1 pq clock hsize seg old snapshot
    parent hcds hold
  rw [hok] at h
  cases h
  have hread : Block.loader.readAll (out.flatMap Block.toStream) = out := loader_readAll_save out
  have hsim : Block.loader.readAll (dedupSim so sha1 seg old snapshot cds parent) =
      out.map Block.clearCache := by
    rw [hout]
    exact loader_readAll_save _
  rw [hread]
  refine ⟨hsim, ?_⟩
  -- a block comes out of level 3, which was given one that levels 1 and 2 have marked
  rw [cdsLru_eq] at hok
  set blocks := marked so sha1 parent.isSome old (parent.getD []) (Segment.loadAll sha1 seg snapshot)
  rcases hlevels : cacheLevels pq clock (Block.loader.readAll cds) (firstState clock size oldCache)
      blocks with e | ⟨st, out'⟩
  · rw [hlevels] at hok
    cases hok
  · rw [hlevels] at hok
    simp only [Except.map, Except.ok.injEq, Prod.mk.injEq] at hok
    have heq : out' = out := by
      rw [← hread, ← hok.2]
      exact (loader_readAll_save out').symm
    subst heq
    intro b' hb'
    obtain ⟨b, hb, hc⟩ := exists_of_forall₂ (cacheLevels_cached hcds _ _ _ _ hlevels) b' hb'
    exact ⟨b, (marked_marked so sha1 _ _ _ _).1 b hb, hc⟩

/-- The blocks that were found in the cache. -/
instance (b : Block) : Decidable b.InCache := inferInstanceAs (Decidable (_ = _))

/-- The categories of a block with a cache and without. -/
theorem Block.Marked.cached_category {cds : List Block} {b b' : Block} (h : b.Marked)
    (hc : Cached cds b b') :
    (b'.category = .new ↔ b'.clearCache.category = .new) ∧ (b'.category = .other ↔ b'.InCache) := by
  have hnew : ∀ a : Block, a.category = .new ↔ a.fileId = 0 := by
    intro a
    unfold Block.category categoryOf
    split_ifs <;> simp_all
  refine ⟨?_, category_other.trans (h.other_iff hc).1⟩
  rw [hnew, hnew]
  constructor
  · intro h0
    unfold Block.clearCache
    rw [h0]
    rfl
  · intro h0
    by_contra hne
    exact h.clearCache_ne hc hne h0

end DedupSim
