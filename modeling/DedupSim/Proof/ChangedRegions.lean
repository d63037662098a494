import DedupSim.Proof.CdsChoice
import DedupSim.Proof.DataStream

/-!
# Changed regions

A file that is scanned with a hard boundary every 2 MB, and simulated against an older version
of itself.

* `marked_dirty`: level 1 leaves the segments that have another checksum than the parent's.
* `RegionScan.segment_chain`: the `k`-th segment of the log is the `k`-th region of the file.
* `changedRegions_le`: **level 1 takes every region that did not change**, whatever the hash is.
* `changedRegions_iff`: **and no other**, if the hash tells apart what is compared.
-/

namespace DedupSim

open Tttd

variable {so : Sorter Block.cksum} {sha1 : List UInt8 → Checksum} {seg old : Segment}
  {s bs : List Block} {parents segs : List (List Block)} {X Y : List UInt8} {k : ℕ}

/-! ## Dirty segments -/

/-- The blocks of the segments that have another checksum than the parent's segment of their
number. -/
def dirtyBlocks (sha1 : List UInt8 → Checksum) (parents segs : List (List Block)) : List Block :=
  (segs.mapIdx fun i s =>
    if sha1 (cksumBytes s) = sha1 (cksumBytes (parents[i]?.getD [])) then [] else s).flatten

theorem dirtyBlocks_cons {parents' : List (List Block)}
    (hrest : ∀ i : ℕ, parents[i + 1]? = parents'[i]?) :
    dirtyBlocks sha1 parents (s :: segs) =
      (if sha1 (cksumBytes s) = sha1 (cksumBytes (parents[0]?.getD [])) then [] else s) ++
        dirtyBlocks sha1 parents' segs := by
  unfold dirtyBlocks
  rw [List.mapIdx_cons, List.flatten_cons]
  simp only [hrest]

theorem mem_dirtyBlocks {b : Block} :
    b ∈ dirtyBlocks sha1 parents segs ↔ ∃ (i : ℕ) (s : List Block), segs[i]? = some s ∧ b ∈ s ∧
      sha1 (cksumBytes s) ≠ sha1 (cksumBytes (parents[i]?.getD [])) := by
  unfold dirtyBlocks
  rw [List.mem_flatten]
  constructor
  · rintro ⟨l, hl, hb⟩
    obtain ⟨i, hi⟩ := List.mem_iff_getElem?.1 hl
    rw [List.getElem?_mapIdx, Option.map_eq_some_iff] at hi
    obtain ⟨s, hs, rfl⟩ := hi
    split at hb
    · cases hb
    · exact ⟨i, s, hs, hb, ‹_›⟩
  · rintro ⟨i, s, hs, hb, hne⟩
    refine ⟨s, List.mem_iff_getElem?.2 ⟨i, ?_⟩, hb⟩
    rw [List.getElem?_mapIdx, hs, Option.map_some, if_neg hne]

/-- Level 1 takes a segment whole. -/
theorem parentLevels_clean {parent : Segment}
    (h : (Segment.ofBlocks sha1 s).cksum = parent.cksum) :
    (parentLevels true (Segment.ofBlocks sha1 s) parent).blocklist =
      s.map fun b => { b with fileId := inParent } := by
  simp only [parentLevels, Segment.mapBlocks, h, and_self, if_true, Segment.ofBlocks_blocklist,
    List.map_map]
  apply List.map_congr_left
  intro b _
  simp only [Function.comp_apply, UInt32.zero_or]

/-- Or it takes none of its blocks. -/
theorem parentLevels_dirty {parent : Segment}
    (h : (Segment.ofBlocks sha1 s).cksum ≠ parent.cksum) :
    ∀ b ∈ (parentLevels true (Segment.ofBlocks sha1 s) parent).blocklist, b.fileId ≠ inParent := by
  intro b hb
  simp only [parentLevels, Segment.mapBlocks, h, and_false, if_false, if_true, List.map_map] at hb
  obtain ⟨a, -, rfl⟩ := List.mem_map.1 hb
  simp only [Function.comp_apply]
  split
  · exact (by decide : (0 : UInt32) ||| inDirtySeg ≠ inParent)
  · exact (by decide : (0 : UInt32) ≠ inParent)

/-- **What level 1 leaves** are the segments that have another checksum than the parent's. -/
theorem marked_dirty (so : Sorter Block.cksum) (sha1 : List UInt8 → Checksum)
    (segs : List (List Block)) : ∀ (parent : Segment) (is : List UInt8), Sized is →
      ((marked so sha1 true parent is (segs.map (Segment.ofBlocks sha1))).filter
          fun b => b.fileId ≠ inParent).map Block.copied =
        (dirtyBlocks sha1 (segmentsOf (Block.loader.readAll is)) segs).map Block.copied := by
  induction segs with
  | nil => exact fun _ _ _ => rfl
  | cons s segs ih =>
    intro parent is hsized
    obtain ⟨hok, hrest⟩ := loadParent_ok so sha1 parent is hsized
    have hsized' : Sized (loadParent so sha1 true parent is).2 := by
      unfold Sized
      rw [hrest]
      exact fun b hb => hsized b ((takeSegment_mem 0 _).2 b hb)
    -- a parent that has ended compares as the empty segment
    have hhead : (segmentsOf (Block.loader.readAll is))[0]?.getD [] =
        (takeSegment 0 (Block.loader.readAll is)).1 := by
      rw [segmentsOf_head]
      split
      · exact Eq.symm ‹_›
      · rfl
    have hlevel : ((parentLevels true (Segment.ofBlocks sha1 s)
          (loadParent so sha1 true parent is).1).blocklist.filter
            fun b => b.fileId ≠ inParent).map Block.copied =
        (if sha1 (cksumBytes s) = sha1 (cksumBytes (takeSegment 0 (Block.loader.readAll is)).1)
          then [] else s).map Block.copied := by
      rw [← hok.cksum, show sha1 (cksumBytes s) = (Segment.ofBlocks sha1 s).cksum from
        (Segment.ofBlocks_cksum sha1 s).symm]
      split
      · rename_i heq
        rw [parentLevels_clean heq, List.filter_eq_nil_iff.2]
        intro b hb
        obtain ⟨a, -, rfl⟩ := List.mem_map.1 hb
        exact fun h => of_decide_eq_true h rfl
      · rename_i hne
        rw [List.filter_eq_self.2 fun b hb => decide_eq_true (parentLevels_dirty hne b hb),
          parentLevels_copied, Segment.ofBlocks_blocklist]
    rw [List.map_cons, marked, List.filter_append, List.map_append, hlevel, ih _ _ hsized', hrest,
      dirtyBlocks_cons (segmentsOf_tail _), List.map_append, hhead]

/-- What the simulator writes that is not in `L1`. -/
theorem dedupSim_dirty (so : Sorter Block.cksum) (sha1 : List UInt8 → Checksum)
    (seg old : Segment) (cds : List UInt8) {snapshot parent : List UInt8} (hs : Sized snapshot)
    (hp : Sized parent) :
    ((Block.loader.readAll (dedupSim so sha1 seg old snapshot cds (some parent))).filter
        fun b => b.category ≠ .l1).map Block.copied =
      (dirtyBlocks sha1 (segmentsOf (Block.loader.readAll parent))
        (segmentsOf (Block.loader.readAll snapshot))).map Block.copied := by
  have hcopied : Block.copied ∘ cdsLevel (Block.loader.readAll cds) = Block.copied :=
    funext (cdsLevel_copied _)
  rw [dedupSim_readAll, hs.loadAll, List.filter_map, List.map_map, hcopied]
  refine Eq.trans (congrArg _ (List.filter_congr ?_)) (marked_dirty so sha1 _ old parent hp)
  intro b hb
  have hmarked := (marked_marked so sha1 true _ old parent).1 b hb
  have hl1 : (cdsLevel (Block.loader.readAll cds) b).category = .l1 ↔ b.fileId = inParent := by
    rw [hmarked.category]
    split_ifs with hpar hdirty <;> simp [hpar]
  exact decide_eq_decide.2 (not_congr hl1)

/-! ## Regions of a log -/

/-- The bytes of the regions of `Y` that are not those of `X`. -/
def changedBytes (X Y : List UInt8) : ℕ :=
  ∑ k ∈ Finset.range (Y.length / fixSegmentSize + 1),
    if regionBytes X k = regionBytes Y k then 0 else (regionBytes Y k).length

theorem sizeOf_flatten {n : ℕ} {l : List (List Block)} (hn : l.length ≤ n) :
    sizeOf l.flatten = ∑ i ∈ Finset.range n, sizeOf (l[i]?.getD []) := by
  induction l generalizing n with
  | nil =>
    simp only [List.flatten_nil, List.getElem?_nil, Option.getD_none, sizeOf_nil,
      Finset.sum_const_zero]
  | cons s l ih =>
    obtain ⟨n, rfl⟩ : ∃ m, n = m + 1 := ⟨n - 1, by simp only [List.length_cons] at hn; omega⟩
    rw [List.flatten_cons, sizeOf_append, ih (n := n) (by simpa using hn), Finset.sum_range_succ',
      Nat.add_comm]
    rfl

theorem Covers.mem_bounds {i t : ℕ} {b : Block} (h : Covers i bs t) (ht : t < 2 ^ 64)
    (hb : b ∈ bs) : i ≤ b.offset.toNat ∧ b.offset.toNat < t := by
  induction h with
  | nil i => cases hb
  | @cons i t a bs hoff hpos h ih =>
    have hend := h.sizeOf_eq
    rcases List.mem_cons.1 hb with rfl | hb
    · rw [hoff, UInt64.toNat_ofNat_of_lt' (by omega : i < 2 ^ 64)]
      omega
    · have := ih ht hb
      omega

/-- A scan in variable mode with a hard boundary every 2 MB. -/
structure RegionScan (kb : ℤ) where
  content : List UInt8
  mem : Uninit
  dataout : Bool
  p1 : List UInt8
  p2 : List UInt8
  low : 1 ≤ kb
  high : kb ≤ 2048
  fits : content.length < 2 ^ 64

namespace RegionScan

variable {kb : ℤ} (v w : RegionScan kb)

/-- The scanner that is fed. -/
def scanner : Scanner := Scanner.new v.mem true kb fixSegmentSize v.dataout

/-- The log of the scan. -/
def log (sha1 : List UInt8 → Checksum) : List Block := scanLog sha1 v.scanner v.p1 v.p2 v.content

theorem exists_fresh : ∃ s₀, Fresh s₀ v.scanner :=
  fresh_new v.mem fixSegmentSize v.dataout v.low v.high

/-- Whether the last block of the file is in the log. -/
def Recorded : Prop := Whole v.scanner v.content

theorem log_eq (hv : v.Recorded) (sha1 : List UInt8 → Checksum) :
    v.log sha1 = (spansOf v.scanner v.content true).map (spanRecord sha1 0 v.content) := by
  obtain ⟨s₀, hfresh⟩ := v.exists_fresh
  obtain ⟨calls, hf, hlog⟩ := scanLog_feeds sha1 v.scanner v.p1 v.p2 v.content
  obtain ⟨t, -, hchain, hiff, -⟩ :=
    hfresh.chain_end v.content (decide (v.content.length % readBufferSize ≠ 0))
  -- the blocks found reach the end, so they are those of a scan that flushes
  rw [hiff.2 ((whole_iff rfl v.content).1 hv)] at hchain
  have hspans := hchain.unique (hfresh.tmin_pos v.content) hfresh.tmin_le (hfresh.chain v.content)
  unfold log
  rw [hlog, (feed_scan hfresh sha1 0 hf).ofs_eq]
  exact congrArg _ hspans

/-- **The `k`-th segment of the log is the chain of the `k`-th region.** -/
theorem segment_chain (hv : v.Recorded) (sha1 : List UInt8 → Checksum) (k : ℕ) :
    (k * fixSegmentSize < v.content.length →
        ∃ R, Chain (v.scanner.marks v.content) (v.scanner.limit v.content.length)
            (k * fixSegmentSize) R (regionEnd v.content.length k) ∧
          (segmentsOf (v.log sha1))[k]? = some (R.map (spanRecord sha1 0 v.content))) ∧
      (v.content.length ≤ k * fixSegmentSize → (segmentsOf (v.log sha1))[k]? = none) := by
  obtain ⟨s₀, hfresh⟩ := v.exists_fresh
  have hlim : ∀ s, v.scanner.limit v.content.length s =
      min (fixSegmentSize * (s / fixSegmentSize + 1)) v.content.length := by
    intro s
    rw [Scanner.limit, show v.scanner.fixBoundarySize = fixSegmentSize from rfl, if_neg (by decide)]
  have hchain := hfresh.chain v.content
  rw [← Nat.zero_mul fixSegmentSize] at hchain
  have h := segmentsOf_chain sha1 0 v.content (hfresh.tmin_pos v.content) hfresh.tmin_le
    (UInt32.toNat_lt v.scanner.tmax) hlim k 0 (spansOf v.scanner v.content true) (by omega) hchain
  rwa [Nat.zero_add, ← v.log_eq hv] at h

/-- A segment lies in its region, and is as long. -/
theorem segment_covers (hv : v.Recorded) (hs : (segmentsOf (v.log sha1))[k]? = some s) :
    k * fixSegmentSize < v.content.length ∧
      Covers (k * fixSegmentSize) s (regionEnd v.content.length k) ∧
      sizeOf s = (regionBytes v.content k).length := by
  obtain ⟨s₀, hfresh⟩ := v.exists_fresh
  obtain ⟨hin, hout⟩ := v.segment_chain hv sha1 k
  have hk : k * fixSegmentSize < v.content.length := by
    by_contra hle
    rw [hout (not_lt.1 hle)] at hs
    cases hs
  obtain ⟨R, hR, hs'⟩ := hin hk
  rw [hs, Option.some.injEq] at hs'
  have hcov := chain_covers sha1 0 v.content (hfresh.tmin_pos v.content) hfresh.tmin_le
    (UInt32.toNat_lt v.scanner.tmax) hR
  rw [← hs'] at hcov
  have hsum := hcov.sizeOf_eq
  rw [regionEnd_eq hk] at hsum
  refine ⟨hk, hcov, ?_⟩
  rw [regionBytes, length_slice]
  omega

/-- **A region that did not change** has the same checksums in both logs. -/
theorem cksums_of_region (hv : v.Recorded) (hw : w.Recorded)
    (h : regionBytes v.content k = regionBytes w.content k)
    (hs : (segmentsOf (w.log sha1))[k]? = some s) :
    ∃ s', (segmentsOf (v.log sha1))[k]? = some s' ∧ s'.map Block.cksum = s.map Block.cksum := by
  obtain ⟨s₀, hfresh⟩ := v.exists_fresh
  have hkw := (w.segment_covers hw hs).1
  have hlen := length_region h
  have hkv : k * fixSegmentSize < v.content.length := by
    have hpos : 0 < fixSegmentSize := by decide
    omega
  obtain ⟨R, hR, hlog⟩ := (v.segment_chain hv sha1 k).1 hkv
  obtain ⟨R', hR', hlog'⟩ := (w.segment_chain hw sha1 k).1 hkw
  rw [hs, Option.some.injEq] at hlog'
  refine ⟨_, hlog, ?_⟩
  have hsame : (R.map (spanRecord sha1 0 v.content)).map (fun b => (b.cksum, b.size)) =
      (R'.map (spanRecord sha1 0 w.content)).map (fun b => (b.cksum, b.size)) :=
    region_unique (show v.scanner.fixBoundarySize = fixSegmentSize from rfl)
      (hfresh.tmin_pos v.content) hfresh.tmin_le h hkv hR hR' 0 0
  have hfst : ∀ bs : List Block, (bs.map fun b => (b.cksum, b.size)).map Prod.fst =
      bs.map Block.cksum := fun bs => by rw [List.map_map]; rfl
  have hcksums := congrArg (List.map Prod.fst) hsame
  rwa [hfst, hfst, ← hlog'] at hcksums

/-- The bytes of a record. -/
def bytesAt (b : Block) : List UInt8 := slice v.content b.offset.toNat b.size.toNat

/-- **The blocks of a segment** are the spans of its region. -/
theorem segment_spans (hv : v.Recorded) (hs : (segmentsOf (v.log sha1))[k]? = some s) :
    ∃ R, Chain (v.scanner.marks v.content) (v.scanner.limit v.content.length)
        (k * fixSegmentSize) R (regionEnd v.content.length k) ∧
      s = R.map (spanRecord sha1 0 v.content) ∧
      ∀ r ∈ R, v.bytesAt (spanRecord sha1 0 v.content r) = slice v.content r.1 (r.2 + 1 - r.1) := by
  obtain ⟨s₀, hfresh⟩ := v.exists_fresh
  obtain ⟨R, hR, hs'⟩ := (v.segment_chain hv sha1 k).1 (v.segment_covers hv hs).1
  rw [hs, Option.some.injEq] at hs'
  refine ⟨R, hR, hs', ?_⟩
  intro r hr
  obtain ⟨-, hle, -, hlt, hmax, -⟩ := hR.mem_bounds (hfresh.tmin_pos v.content) hfresh.tmin_le hr
  have hend : regionEnd v.content.length k ≤ v.content.length := min_le_right _ _
  have hfits := v.fits
  have htmax : (v.scanner.marks v.content).tmax < 2 ^ 32 := UInt32.toNat_lt v.scanner.tmax
  have hoffset : (spanRecord sha1 0 v.content r).offset.toNat = r.1 :=
    UInt64.toNat_ofNat_of_lt' (by omega : r.1 < 2 ^ 64)
  unfold bytesAt
  rw [hoffset, spanRecord_size sha1 0 v.content (by omega)]

/-- **The chunks of a segment make up its region.** -/
theorem segment_bytes (hv : v.Recorded) (hs : (segmentsOf (v.log sha1))[k]? = some s) :
    s.flatMap v.bytesAt = regionBytes v.content k := by
  obtain ⟨s₀, hfresh⟩ := v.exists_fresh
  have hk := (v.segment_covers hv hs).1
  obtain ⟨R, hR, hs', hbytes⟩ := v.segment_spans hv hs
  have hslices := chain_slices (hfresh.tmin_pos v.content) hfresh.tmin_le v.content hR
  rw [hs', List.flatMap_map, List.flatMap_congr hbytes, hslices, regionEnd_eq hk,
    Nat.add_sub_cancel_left]
  unfold regionBytes slice
  rw [List.take_eq_take_iff, List.length_drop]
  omega

/-- Checksums tell the chunks of two scans apart. -/
def ChunksInjective (sha1 : List UInt8 → Checksum) : Prop :=
  ∀ a ∈ v.log sha1, ∀ b ∈ w.log sha1, a.cksum = b.cksum → v.bytesAt a = w.bytesAt b

theorem mem_log_of_segment {b : Block} (hs : (segmentsOf (v.log sha1))[k]? = some s) (hb : b ∈ s) :
    b ∈ v.log sha1 := by
  have hflat := segmentsOf_flatten (v.log sha1)
  have hmem : b ∈ (segmentsOf (v.log sha1)).flatten :=
    List.mem_flatten.2 ⟨s, List.mem_of_getElem? hs, hb⟩
  rw [hflat] at hmem
  exact (List.mem_filter.1 hmem).1

theorem bytes_of_cksums {bs' : List Block} (hinj : v.ChunksInjective w sha1)
    (hv : ∀ a ∈ bs', a ∈ v.log sha1) (hw : ∀ b ∈ bs, b ∈ w.log sha1)
    (h : bs'.map Block.cksum = bs.map Block.cksum) :
    bs'.flatMap v.bytesAt = bs.flatMap w.bytesAt := by
  induction bs' generalizing bs with
  | nil =>
    rw [List.map_eq_nil_iff.1 h.symm]
    rfl
  | cons a bs' ih =>
    obtain ⟨b, bs, rfl⟩ : ∃ b l, bs = b :: l := by
      rcases bs with - | ⟨b, bs⟩
      · cases h
      · exact ⟨b, bs, rfl⟩
    rw [List.map_cons, List.map_cons, List.cons.injEq] at h
    rw [List.flatMap_cons, List.flatMap_cons, hinj a (hv a (.head _)) b (hw b (.head _)) h.1,
      ih (fun c hc => hv c (.tail _ hc)) (fun c hc => hw c (.tail _ hc)) h.2]

/-- **The same checksums in both logs** are those of a region that did not change. -/
theorem region_of_cksums (hv : v.Recorded) (hw : w.Recorded) {s' : List Block}
    (hinj : v.ChunksInjective w sha1) (hs' : (segmentsOf (v.log sha1))[k]? = some s')
    (hs : (segmentsOf (w.log sha1))[k]? = some s)
    (h : s'.map Block.cksum = s.map Block.cksum) :
    regionBytes v.content k = regionBytes w.content k := by
  rw [← v.segment_bytes hv hs', ← w.segment_bytes hw hs]
  exact v.bytes_of_cksums w hinj (fun _ ha => v.mem_log_of_segment hs' ha)
    (fun _ hb => w.mem_log_of_segment hs hb) h

/-! ## A version against an older one -/

/-- A segment is clean if its region did not change. -/
theorem clean_of_region (hv : v.Recorded) (hw : w.Recorded)
    (h : regionBytes v.content k = regionBytes w.content k)
    (hs : (segmentsOf (w.log sha1))[k]? = some s) :
    sha1 (cksumBytes s) = sha1 (cksumBytes ((segmentsOf (v.log sha1))[k]?.getD [])) := by
  obtain ⟨s', hs', hcksums⟩ := v.cksums_of_region w hv hw h hs
  rw [hs', Option.getD_some, cksumBytes_eq_iff.2 hcksums]

/-- It is clean only then, if the hash tells apart what is compared. -/
theorem region_of_clean (hv : v.Recorded) (hw : w.Recorded) (hinj : v.ChunksInjective w sha1)
    (hsegs : SegmentsInjective sha1 (segmentsOf (v.log sha1)) (segmentsOf (w.log sha1)))
    (hs : (segmentsOf (w.log sha1))[k]? = some s)
    (h : sha1 (cksumBytes s) = sha1 (cksumBytes ((segmentsOf (v.log sha1))[k]?.getD []))) :
    regionBytes v.content k = regionBytes w.content k := by
  have hcksums := cksumBytes_eq_iff.1 (hsegs k s hs h)
  rcases hs' : (segmentsOf (v.log sha1))[k]? with - | s'
  · -- no segment is empty
    rw [hs', Option.getD_none, List.map_nil, List.map_eq_nil_iff] at hcksums
    exact absurd hcksums (segmentsOf_ne_nil _ s (List.mem_of_getElem? hs))
  · rw [hs', Option.getD_some] at hcksums
    exact v.region_of_cksums w hv hw hinj hs' hs hcksums.symm

/-- What is left of the `k`-th segment. -/
theorem dirty_bytes (hv : v.Recorded) (hw : w.Recorded) (sha1 : List UInt8 → Checksum) (k : ℕ) :
    let left := ((segmentsOf (w.log sha1)).mapIdx fun i s =>
      if sha1 (cksumBytes s) = sha1 (cksumBytes ((segmentsOf (v.log sha1))[i]?.getD [])) then []
      else s)[k]?.getD []
    let changed := if regionBytes v.content k = regionBytes w.content k then 0
      else (regionBytes w.content k).length
    sizeOf left ≤ changed ∧
      (v.ChunksInjective w sha1 →
        SegmentsInjective sha1 (segmentsOf (v.log sha1)) (segmentsOf (w.log sha1)) →
          sizeOf left = changed) := by
  intro left changed
  rcases hs : (segmentsOf (w.log sha1))[k]? with - | s
  · -- there is no such region
    have hleft : left = [] := by
      change Option.getD _ _ = _
      rw [List.getElem?_mapIdx, hs]
      rfl
    have hend : w.content.length ≤ k * fixSegmentSize := by
      by_contra hlt
      obtain ⟨R, -, hR⟩ := (w.segment_chain hw sha1 k).1 (not_le.1 hlt)
      rw [hs] at hR
      cases hR
    have hzero : changed = 0 := by
      change (if _ then _ else _) = _
      rw [regionBytes, regionBytes, length_slice, Nat.sub_eq_zero_of_le hend, Nat.min_zero, ite_self]
    rw [hleft, hzero]
    exact ⟨le_rfl, fun _ _ => rfl⟩
  · have hleft : left = if sha1 (cksumBytes s) =
        sha1 (cksumBytes ((segmentsOf (v.log sha1))[k]?.getD [])) then [] else s := by
      change Option.getD _ _ = _
      rw [List.getElem?_mapIdx, hs]
      rfl
    have hsize := (w.segment_covers hw hs).2.2
    by_cases hreg : regionBytes v.content k = regionBytes w.content k
    · have hzero : changed = 0 := if_pos hreg
      rw [hleft, if_pos (v.clean_of_region w hv hw hreg hs), hzero]
      exact ⟨le_rfl, fun _ _ => rfl⟩
    · have hall : changed = (regionBytes w.content k).length := if_neg hreg
      rw [hleft, hall, ← hsize]
      refine ⟨?_, ?_⟩
      · split
        · exact Nat.zero_le _
        · exact le_rfl
      · intro hinj hsegs
        rw [if_neg fun h => hreg (v.region_of_clean w hv hw hinj hsegs hs h)]

/-- **The bytes of the dirty segments.** -/
theorem sizeOf_dirtyBlocks (hv : v.Recorded) (hw : w.Recorded) (sha1 : List UInt8 → Checksum) :
    sizeOf (dirtyBlocks sha1 (segmentsOf (v.log sha1)) (segmentsOf (w.log sha1))) ≤
        changedBytes v.content w.content ∧
      (v.ChunksInjective w sha1 →
        SegmentsInjective sha1 (segmentsOf (v.log sha1)) (segmentsOf (w.log sha1)) →
          sizeOf (dirtyBlocks sha1 (segmentsOf (v.log sha1)) (segmentsOf (w.log sha1))) =
            changedBytes v.content w.content) := by
  have hlen : (segmentsOf (w.log sha1)).length ≤ w.content.length / fixSegmentSize + 1 := by
    refine List.getElem?_eq_none_iff.1 ((w.segment_chain hw sha1 _).2 ?_)
    have hlt := Nat.lt_div_mul_add (a := w.content.length) (show 0 < fixSegmentSize by decide)
    rw [Nat.succ_mul]
    exact hlt.le
  unfold dirtyBlocks
  rw [sizeOf_flatten ((List.length_mapIdx).trans_le hlen)]
  exact ⟨Finset.sum_le_sum fun k _ => (v.dirty_bytes w hv hw sha1 k).1,
    fun hinj hsegs => Finset.sum_congr rfl fun k _ => (v.dirty_bytes w hv hw sha1 k).2 hinj hsegs⟩

theorem log_covers (hv : v.Recorded) (sha1 : List UInt8 → Checksum) :
    Covers 0 (v.log sha1) v.content.length := by
  obtain ⟨s₀, hfresh⟩ := v.exists_fresh
  rw [v.log_eq hv]
  exact chain_covers sha1 0 v.content (hfresh.tmin_pos v.content) hfresh.tmin_le
    (UInt32.toNat_lt v.scanner.tmax) (hfresh.chain v.content)

theorem exists_segment (hv : v.Recorded) {b : Block} (hb : b ∈ v.log sha1) :
    ∃ (k : ℕ) (s : List Block), (segmentsOf (v.log sha1))[k]? = some s ∧ b ∈ s := by
  have hflat : (segmentsOf (v.log sha1)).flatten = v.log sha1 := by
    rw [segmentsOf_flatten]
    exact List.filter_eq_self.2 fun b hb => decide_eq_true ((v.log_covers hv sha1).size_ne_zero b hb)
  rw [← hflat] at hb
  obtain ⟨s, hs, hbs⟩ := List.mem_flatten.1 hb
  obtain ⟨k, hk⟩ := List.mem_iff_getElem?.1 hs
  exact ⟨k, s, hk, hbs⟩

theorem log_sized (sha1 : List UInt8 → Checksum) : Sized ((v.log sha1).flatMap Block.save) := by
  unfold Sized
  rw [loader_readAll_save]
  obtain ⟨t, -, -, -, -, hlt⟩ :=
    scanLog_covers sha1 v.mem true v.low v.high fixSegmentSize v.dataout v.p1 v.p2 v.content
  exact hlt

/-- The blocks that the simulator writes of `w` against `v`. -/
def output (so : Sorter Block.cksum) (sha1 : List UInt8 → Checksum) (seg old : Segment)
    (cds : List UInt8) : List Block :=
  Block.loader.readAll (dedupSim so sha1 seg old ((w.log sha1).flatMap Block.save) cds
    (some ((v.log sha1).flatMap Block.save)))

variable (so : Sorter Block.cksum) (seg old : Segment) (cds : List UInt8)

theorem output_copied (hw : w.Recorded) (sha1 : List UInt8 → Checksum) :
    (output v w so sha1 seg old cds).map Block.copied = (w.log sha1).map Block.copied := by
  have h := dedupSim_copied so sha1 seg old cds (some ((v.log sha1).flatMap Block.save))
    (w.log_sized sha1)
  rwa [loader_readAll_save, List.filter_eq_self.2 fun b hb =>
    decide_eq_true ((w.log_covers hw sha1).size_ne_zero b hb)] at h

/-- What is not in `L1` are the dirty segments. -/
theorem output_dirty (sha1 : List UInt8 → Checksum) :
    ((output v w so sha1 seg old cds).filter fun b => b.category ≠ .l1).map Block.copied =
      (dirtyBlocks sha1 (segmentsOf (v.log sha1)) (segmentsOf (w.log sha1))).map Block.copied := by
  have h := dedupSim_dirty so sha1 seg old cds (w.log_sized sha1) (v.log_sized sha1)
  rwa [loader_readAll_save, loader_readAll_save] at h

/-- The bytes in `L1`, and of the dirty segments. -/
theorem output_bytes (hw : w.Recorded) (sha1 : List UInt8 → Checksum) :
    w.content.length =
      (dedupAnalysis (dedupSim so sha1 seg old ((w.log sha1).flatMap Block.save) cds
          (some ((v.log sha1).flatMap Block.save)))).l1.data.toNat +
        sizeOf (dirtyBlocks sha1 (segmentsOf (v.log sha1)) (segmentsOf (w.log sha1))) := by
  have hall : sizeOf (output v w so sha1 seg old cds) = w.content.length := by
    have hcov := (w.log_covers hw sha1).sizeOf_eq
    rw [sizeOf_copied (v.output_copied w so seg old cds hw sha1)]
    omega
  have hsplit := sizeOf_perm (List.filter_append_perm (fun b : Block => decide (b.category = .l1))
    (output v w so sha1 seg old cds))
  have hdirty := sizeOf_copied (v.output_dirty w so seg old cds sha1)
  have hnot : ∀ b : Block, (!decide (b.category = .l1)) = decide (b.category ≠ .l1) :=
    fun b => (decide_not).symm
  rw [sizeOf_append, hall, funext hnot, hdirty] at hsplit
  have hl1 := dedupAnalysis_get .l1 (dedupSim so sha1 seg old ((w.log sha1).flatMap Block.save) cds
    (some ((v.log sha1).flatMap Block.save)))
  have hfits : sizeOf (inCategory .l1 (output v w so sha1 seg old cds)) < 2 ^ 64 := by
    have := w.fits
    unfold inCategory
    omega
  have hdata : (tallyOf (inCategory .l1 (output v w so sha1 seg old cds))).data.toNat =
      sizeOf (inCategory .l1 (output v w so sha1 seg old cds)) := UInt64.toNat_ofNat_of_lt' hfits
  change Analysis.l1 _ = tallyOf (inCategory .l1 (output v w so sha1 seg old cds)) at hl1
  rw [hl1, hdata]
  exact hsplit.symm

/-- The offset of a block tells its segment. -/
theorem offset_region (hw : w.Recorded) {b : Block} (hs : (segmentsOf (w.log sha1))[k]? = some s) (hb : b ∈ s) :
    b.offset.toNat / fixSegmentSize = k := by
  obtain ⟨hk, hcov, -⟩ := w.segment_covers hw hs
  have hend : regionEnd w.content.length k ≤ w.content.length := min_le_right _ _
  have hnext : regionEnd w.content.length k ≤ (k + 1) * fixSegmentSize := min_le_left _ _
  obtain ⟨hle, hlt⟩ := hcov.mem_bounds (hend.trans_lt w.fits) hb
  exact Nat.div_eq_of_lt_le hle (hlt.trans_le hnext)

theorem nodup_copied (hw : w.Recorded) (sha1 : List UInt8 → Checksum) :
    ((w.log sha1).map Block.copied).Nodup := by
  have hlt := ((w.log_covers hw sha1).byOffset_lt w.fits.le).2
  rw [List.Nodup, List.pairwise_map]
  refine hlt.imp ?_
  intro a b hab h
  have hoffset : a.offset = b.offset := congrArg (fun c => c.2.2) h
  unfold Block.byOffset at hab
  rw [hoffset] at hab
  exact lt_irrefl _ hab

/-- A block of a region that did not change is in `L1`. -/
theorem output_clean (hv : v.Recorded) (hw : w.Recorded) {b : Block}
    (hb : b ∈ output v w so sha1 seg old cds)
    (hl1 : b.category ≠ .l1) :
    regionBytes v.content (b.offset.toNat / fixSegmentSize) ≠
      regionBytes w.content (b.offset.toNat / fixSegmentSize) := by
  have hfilter : b ∈ (output v w so sha1 seg old cds).filter fun b => b.category ≠ .l1 :=
    List.mem_filter.2 ⟨hb, decide_eq_true hl1⟩
  have hmem := List.mem_map_of_mem (f := Block.copied) hfilter
  rw [v.output_dirty w] at hmem
  obtain ⟨a, ha, hcopied⟩ := List.mem_map.1 hmem
  obtain ⟨k, s, hs, has, hne⟩ := mem_dirtyBlocks.1 ha
  have hoffset : a.offset = b.offset := congrArg (fun c => c.2.2) hcopied
  rw [← hoffset, w.offset_region hw hs has]
  exact fun h => hne (v.clean_of_region w hv hw h hs)

/-- A block in `L1` is of such a region, if the hash tells apart what is compared. -/
theorem output_l1 (hv : v.Recorded) (hw : w.Recorded) (hinj : v.ChunksInjective w sha1)
    (hsegs : SegmentsInjective sha1 (segmentsOf (v.log sha1)) (segmentsOf (w.log sha1))) {b : Block}
    (hb : b ∈ output v w so sha1 seg old cds) (hl1 : b.category = .l1) :
    regionBytes v.content (b.offset.toNat / fixSegmentSize) =
      regionBytes w.content (b.offset.toNat / fixSegmentSize) := by
  by_contra hreg
  have hcopied := v.output_copied w so seg old cds hw sha1
  -- the record of the log that `b` is a copy of is in a dirty segment
  obtain ⟨a, ha, hab⟩ := List.mem_map.1 (hcopied ▸ List.mem_map_of_mem (f := Block.copied) hb)
  obtain ⟨k, s, hk, has⟩ := w.exists_segment hw ha
  have hoffset : a.offset = b.offset := congrArg (fun c => c.2.2) hab
  rw [← hoffset, w.offset_region hw hk has] at hreg
  have hdirty : a ∈ dirtyBlocks sha1 (segmentsOf (v.log sha1)) (segmentsOf (w.log sha1)) :=
    mem_dirtyBlocks.2 ⟨k, s, hk, has, fun h => hreg (v.region_of_clean w hv hw hinj hsegs hk h)⟩
  -- so another block that is written is a copy of it
  have hmem := List.mem_map_of_mem (f := Block.copied) hdirty
  rw [← v.output_dirty w so seg old cds] at hmem
  obtain ⟨b', hb', hcopied'⟩ := List.mem_map.1 hmem
  obtain ⟨hb', hnot⟩ := List.mem_filter.1 hb'
  have hnodup := w.nodup_copied hw sha1
  rw [← hcopied] at hnodup
  have heq : b' = b := List.inj_on_of_nodup_map hnodup hb' hb (hcopied'.trans hab)
  exact of_decide_eq_true hnot (heq ▸ hl1)

end RegionScan

/-- **Level 1 takes every region that did not change**, whatever the hash and the CDS are: no
other block is in a region of 2 MB with the bytes of the older version, and `L1` has all bytes
of the file but those of the regions that changed. Both logs are `Recorded`: the read loop has no
end-of-file flag for a file of a multiple of 8 MB, whose last block is then in no log unless a
boundary ends it. -/
theorem changedRegions_le {kb : ℤ} (v w : RegionScan kb) (hv : v.Recorded) (hw : w.Recorded)
    (so : Sorter Block.cksum) (sha1 : List UInt8 → Checksum) (seg old : Segment) (cds : List UInt8) :
    let out := dedupSim so sha1 seg old ((w.log sha1).flatMap Block.save) cds
      (some ((v.log sha1).flatMap Block.save))
    (∀ b ∈ Block.loader.readAll out,
      regionBytes v.content (b.offset.toNat / fixSegmentSize) =
          regionBytes w.content (b.offset.toNat / fixSegmentSize) → b.category = .l1) ∧
      w.content.length ≤
        (dedupAnalysis out).l1.data.toNat + changedBytes v.content w.content := by
  intro out
  refine ⟨?_, ?_⟩
  · intro b hb hreg
    by_contra hl1
    exact v.output_clean w so seg old cds hv hw hb hl1 hreg
  · rw [v.output_bytes w so seg old cds hw sha1]
    exact Nat.add_le_add_left (v.sizeOf_dirtyBlocks w hv hw sha1).1 _

/-- **And no other**, if the hash tells apart the chunks and the segments that are compared:
`L1` is exact, for every block and to the byte. -/
theorem changedRegions_iff {kb : ℤ} (v w : RegionScan kb) (hv : v.Recorded) (hw : w.Recorded)
    (so : Sorter Block.cksum) (sha1 : List UInt8 → Checksum) (seg old : Segment) (cds : List UInt8)
    (hinj : v.ChunksInjective w sha1)
    (hsegs : SegmentsInjective sha1 (segmentsOf (v.log sha1)) (segmentsOf (w.log sha1))) :
    let out := dedupSim so sha1 seg old ((w.log sha1).flatMap Block.save) cds
      (some ((v.log sha1).flatMap Block.save))
    (∀ b ∈ Block.loader.readAll out, b.category = .l1 ↔
      regionBytes v.content (b.offset.toNat / fixSegmentSize) =
        regionBytes w.content (b.offset.toNat / fixSegmentSize)) ∧
      w.content.length =
        (dedupAnalysis out).l1.data.toNat + changedBytes v.content w.content := by
  intro out
  refine ⟨?_, ?_⟩
  · intro b hb
    refine ⟨v.output_l1 w so seg old cds hv hw hinj hsegs hb, ?_⟩
    intro hreg
    by_contra hl1
    exact v.output_clean w so seg old cds hv hw hb hl1 hreg
  · rw [← (v.sizeOf_dirtyBlocks w hv hw sha1).2 hinj hsegs]
    exact v.output_bytes w so seg old cds hw sha1

/-! ## A version that is one byte longer -/

/-- A scan of two regions, the first of zeros. -/
def boundaryScan (n : UInt8) : RegionScan 1 where
  content := boundaryFile n
  mem := default
  dataout := false
  p1 := []
  p2 := []
  low := by decide
  high := by decide
  fits := by
    rw [length_boundaryFile]
    decide

theorem boundaryScan_recorded (n : UInt8) : (boundaryScan n).Recorded := by
  refine .inr (.inl ?_)
  change (boundaryFile n).length % _ ≠ 0
  rw [length_boundaryFile]
  decide

/-- The zeros carry no marks. -/
theorem boundaryScan_marks (n : UInt8) {q : ℕ} (hq : q < fixSegmentSize) :
    ((boundaryScan n).scanner.marks (boundaryFile n)).primary q = false ∧
      ((boundaryScan n).scanner.marks (boundaryFile n)).backup q = false := by
  obtain ⟨-, -, -, hd, hd'⟩ := new_params (boundaryScan n).mem fixSegmentSize false true
    (boundaryScan n).low (boundaryScan n).high
  have h0 : rabinAt fixSegmentSize (boundaryFile n) q = 0 := by
    have h := rabinAt_region (k := 0) (boundaryFile n) hq
    rw [Nat.zero_mul, Nat.zero_add, (regionBytes_boundaryFile n).1] at h
    rw [h, slice, List.drop_zero, List.take_replicate, rabinValue_zeros]
    rfl
  simp only [Scanner.marks, show (boundaryScan n).scanner.fixBoundarySize = fixSegmentSize from rfl,
    h0, Nat.zero_mod, beq_eq_false_iff_ne]
  change (boundaryScan n).scanner.d.toNat = _ at hd
  change (boundaryScan n).scanner.dDash.toNat = _ at hd'
  omega

theorem regionEnd_boundaryScan (n : UInt8) :
    regionEnd (boundaryScan n).content.length 0 = fixSegmentSize := by
  have hlen : (boundaryScan n).content.length = fixSegmentSize + 1 := length_boundaryFile n
  rw [regionEnd, hlen]
  omega

/-- The blocks of the first region have 4 KB. -/
theorem boundaryScan_first {n : UInt8} {R : List (ℕ × ℕ)} {r : ℕ × ℕ} (hr : r ∈ R)
    (hR : Chain ((boundaryScan n).scanner.marks (boundaryFile n))
      ((boundaryScan n).scanner.limit (boundaryScan n).content.length) 0 R fixSegmentSize) :
    r.2 + 1 - r.1 = 4096 := by
  obtain ⟨s₀, hfresh⟩ := (boundaryScan n).exists_fresh
  have htmax : ((boundaryScan n).scanner.marks (boundaryFile n)).tmax = 4096 :=
    (new_params (boundaryScan n).mem fixSegmentSize false true (boundaryScan n).low
      (boundaryScan n).high).2.2.1
  have hlim : ∀ s, 0 ≤ s → s < fixSegmentSize →
      (boundaryScan n).scanner.limit (boundaryScan n).content.length s = fixSegmentSize := by
    intro s _ hs
    have h := limit_region (k := 0) (show (boundaryScan n).scanner.fixBoundarySize = fixSegmentSize
      from rfl) (boundaryScan n).content.length hs
    rwa [Nat.zero_mul, Nat.zero_add, regionEnd_boundaryScan] at h
  have hfull := hR.full (fun q hq => (boundaryScan_marks n hq).1)
    (fun q hq => (boundaryScan_marks n hq).2) (hfresh.tmin_pos (boundaryFile n)) hfresh.tmin_le hlim
    (show ((boundaryScan n).scanner.marks (boundaryFile n)).tmax ∣ fixSegmentSize - 0 by
      rw [htmax]; decide) hr
  rw [← htmax]
  omega

/-- Its chunks. -/
theorem boundaryScan_bytes {n : UInt8} {b : Block} (hb : b ∈ (boundaryScan n).log sha1) :
    ((boundaryScan n).bytesAt b = List.replicate 4096 0 ∨ (boundaryScan n).bytesAt b = [n]) ∧
      b.cksum = sha1 ((boundaryScan n).bytesAt b) := by
  obtain ⟨s₀, hfresh⟩ := (boundaryScan n).exists_fresh
  have hF : fixSegmentSize = 2097152 := rfl
  have hlen : (boundaryScan n).content.length = fixSegmentSize + 1 := length_boundaryFile n
  obtain ⟨k, s, hs, hbs⟩ := (boundaryScan n).exists_segment (boundaryScan_recorded n) hb
  have hk := ((boundaryScan n).segment_covers (boundaryScan_recorded n) hs).1
  obtain ⟨R, hR, rfl, hbytes⟩ := (boundaryScan n).segment_spans (boundaryScan_recorded n) hs
  obtain ⟨r, hr, rfl⟩ := List.mem_map.1 hbs
  obtain ⟨hlow, hle, -, hlt, -, -⟩ :=
    hR.mem_bounds (hfresh.tmin_pos (boundaryFile n)) hfresh.tmin_le hr
  rw [hbytes r hr]
  refine ⟨?_, rfl⟩
  change slice (boundaryFile n) r.1 _ = _ ∨ slice (boundaryFile n) r.1 _ = _
  rw [regionEnd, hlen] at hlt
  rcases Nat.eq_zero_or_pos k with rfl | hpos
  · left
    rw [Nat.zero_mul, regionEnd_boundaryScan] at hR
    have hzeros := boundaryScan_first hr hR
    rw [hzeros]
    unfold slice boundaryFile
    rw [List.drop_append_of_le_length (by rw [List.length_replicate]; omega), List.drop_replicate,
      List.take_append_of_le_length (by rw [List.length_replicate]; omega), List.take_replicate,
      min_eq_left (by omega)]
  · -- the second is one block
    right
    rw [hlen, hF] at hk
    obtain rfl : k = 1 := by omega
    have hr1 : r.1 = fixSegmentSize := by omega
    have hr2 : r.2 = fixSegmentSize := by omega
    rw [hr1, hr2]
    unfold slice boundaryFile
    rw [List.drop_left' List.length_replicate, Nat.add_sub_cancel_left]
    rfl


theorem changedBytes_two {X Y : List UInt8} (hY : Y.length / fixSegmentSize = 1)
    (h0 : regionBytes X 0 = regionBytes Y 0) (h1 : regionBytes X 1 ≠ regionBytes Y 1) :
    changedBytes X Y = (regionBytes Y 1).length := by
  rw [changedBytes, hY, Finset.sum_range_succ, Finset.sum_range_one, if_pos h0, if_neg h1,
    Nat.zero_add]

/-- The last byte is all that changes between 0 and 1. -/
theorem changedBytes_boundaryFile : changedBytes (boundaryFile 0) (boundaryFile 1) = 1 := by
  rw [changedBytes_two, (regionBytes_boundaryFile 1).2, List.length_singleton]
  · rw [length_boundaryFile]
    decide
  · exact (regionBytes_boundaryFile 0).1.trans (regionBytes_boundaryFile 1).1.symm
  · rw [(regionBytes_boundaryFile 0).2, (regionBytes_boundaryFile 1).2]
    decide

/-- Its second segment. -/
theorem boundaryScan_second {n : UInt8}
    (hs : (segmentsOf ((boundaryScan n).log sha1))[1]? = some s) :
    ∃ b, s = [b] ∧ b.cksum = sha1 [n] := by
  have hbytes := (boundaryScan n).segment_bytes (boundaryScan_recorded n) hs
  change _ = regionBytes (boundaryFile n) 1 at hbytes
  rw [(regionBytes_boundaryFile n).2] at hbytes
  have hchunk : ∀ b ∈ s, b ∈ (boundaryScan n).log sha1 := fun b hb =>
    (boundaryScan n).mem_log_of_segment hs hb
  rcases s with - | ⟨b, l⟩
  · cases hbytes
  rw [List.flatMap_cons] at hbytes
  have hlen := congrArg List.length hbytes
  rw [List.length_append, List.length_singleton] at hlen
  obtain ⟨hb | hb, hck⟩ := boundaryScan_bytes (hchunk b (.head _))
  · rw [hb, List.length_replicate] at hlen
    omega
  · rw [hb, List.singleton_append, List.cons_inj_right] at hbytes
    refine ⟨b, ?_, by rw [hck, hb]⟩
    rcases l with - | ⟨c, l⟩
    · rfl
    · -- no chunk is empty
      rw [List.flatMap_cons, List.append_eq_nil_iff] at hbytes
      obtain ⟨hc | hc, -⟩ := boundaryScan_bytes (hchunk c (.tail _ (.head _)))
      · rw [hc, List.replicate_eq_nil_iff] at hbytes
        omega
      · rw [hc] at hbytes
        cases hbytes.1

/-- The digest tells the chunks apart, and the segments. -/
theorem boundaryScan_injective :
    (boundaryScan 0).ChunksInjective (boundaryScan 1) boundaryDigest ∧
      SegmentsInjective boundaryDigest (segmentsOf ((boundaryScan 0).log boundaryDigest))
        (segmentsOf ((boundaryScan 1).log boundaryDigest)) := by
  have hzeros : boundaryDigest (List.replicate 4096 0) = zerosDigest [0, 0] :=
    (if_pos List.length_replicate).trans (if_neg (by rw [List.length_replicate]; omega))
  refine ⟨?_, ?_⟩
  · intro a ha b hb hab
    obtain ⟨ha, hacksum⟩ := boundaryScan_bytes ha
    obtain ⟨hb, hbcksum⟩ := boundaryScan_bytes hb
    rw [hacksum, hbcksum] at hab
    rcases ha with ha | ha <;> rcases hb with hb | hb
    · rw [ha, hb]
    · rw [ha, hb, hzeros] at hab
      exact absurd hab (by decide)
    · rw [ha, hb, hzeros] at hab
      exact absurd hab (by decide)
    · rw [ha, hb] at hab
      exact absurd hab (by decide)
  · intro i s hs hsame
    have hi := ((boundaryScan 1).segment_covers (boundaryScan_recorded 1) hs).1
    have hlen : (boundaryScan 1).content.length = fixSegmentSize + 1 := length_boundaryFile 1
    have hF : fixSegmentSize = 2097152 := rfl
    rw [hlen, hF] at hi
    obtain rfl | rfl : i = 0 ∨ i = 1 := by omega
    · -- the first did not change
      have hreg := (regionBytes_boundaryFile 0).1.trans (regionBytes_boundaryFile 1).1.symm
      obtain ⟨s', hs', hcksums⟩ := (boundaryScan 0).cksums_of_region (boundaryScan 1)
        (boundaryScan_recorded 0) (boundaryScan_recorded 1) hreg hs
      rw [hs', Option.getD_some]
      exact cksumBytes_eq_iff.2 hcksums.symm
    · obtain ⟨b, rfl, hb⟩ := boundaryScan_second hs
      have hlt : 1 * fixSegmentSize < (boundaryScan 0).content.length := by
        change _ < (boundaryFile 0).length
        rw [length_boundaryFile]
        omega
      obtain ⟨R, -, hs'⟩ := ((boundaryScan 0).segment_chain (boundaryScan_recorded 0)
        boundaryDigest 1).1 hlt
      obtain ⟨c, hc, hck⟩ := boundaryScan_second hs'
      rw [hs', hc, Option.getD_some] at hsame
      simp only [cksumBytes, List.flatMap_singleton, hb, hck] at hsame
      exact absurd hsame (by decide)

/-- The version that ends with 1 against the one that ends with 0. -/
theorem changedRegions_le_boundary :
    let out := dedupSim (.merge Block.cksum) boundaryDigest default default
      (((boundaryScan 1).log boundaryDigest).flatMap Block.save) []
      (some (((boundaryScan 0).log boundaryDigest).flatMap Block.save))
    (∀ b ∈ Block.loader.readAll out, b.offset.toNat / fixSegmentSize = 0 → b.category = .l1) ∧
      fixSegmentSize ≤ (dedupAnalysis out).l1.data.toNat := by
  obtain ⟨hclean, hbytes⟩ := changedRegions_le (boundaryScan 0) (boundaryScan 1)
    (boundaryScan_recorded 0) (boundaryScan_recorded 1) (.merge Block.cksum) boundaryDigest default
    default []
  refine ⟨?_, ?_⟩
  · intro b hb h0
    refine hclean b hb ?_
    rw [h0]
    exact (regionBytes_boundaryFile 0).1.trans (regionBytes_boundaryFile 1).1.symm
  · have hlen : (boundaryScan 1).content.length = fixSegmentSize + 1 := length_boundaryFile 1
    have hone : changedBytes (boundaryScan 0).content (boundaryScan 1).content = 1 :=
      changedBytes_boundaryFile
    rw [hlen, hone] at hbytes
    exact Nat.le_of_add_le_add_right hbytes

/-- `L1` has the zeros, and no more. -/
theorem changedRegions_iff_boundary :
    let out := dedupSim (.merge Block.cksum) boundaryDigest default default
      (((boundaryScan 1).log boundaryDigest).flatMap Block.save) []
      (some (((boundaryScan 0).log boundaryDigest).flatMap Block.save))
    (∀ b ∈ Block.loader.readAll out, b.category = .l1 ↔
        regionBytes (boundaryFile 0) (b.offset.toNat / fixSegmentSize) =
          regionBytes (boundaryFile 1) (b.offset.toNat / fixSegmentSize)) ∧
      (dedupAnalysis out).l1.data.toNat = fixSegmentSize := by
  obtain ⟨hl1, hbytes⟩ := changedRegions_iff (boundaryScan 0) (boundaryScan 1)
    (boundaryScan_recorded 0) (boundaryScan_recorded 1) (.merge Block.cksum) boundaryDigest default
    default [] boundaryScan_injective.1 boundaryScan_injective.2
  have hlen : (boundaryScan 1).content.length = fixSegmentSize + 1 := length_boundaryFile 1
  have hone : changedBytes (boundaryScan 0).content (boundaryScan 1).content = 1 :=
    changedBytes_boundaryFile
  rw [hlen, hone] at hbytes
  exact ⟨hl1, (Nat.add_right_cancel hbytes).symm⟩

end DedupSim
