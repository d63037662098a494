import DedupSim.Proof.Chunking
import DedupSim.Proof.Segment

/-!
# Segments of a fix boundary scan

* `Covers`: records that lie end to end.
* `segmentsOf_chain`: with a hard boundary every 2 MB the `k`-th segment is the
  chain of the `k`-th region.
* `sameFrom_region`, `region_unique`: the chain of a region depends on its bytes.
* `fixBoundary_segments`: **segments are local to their region.**
-/

namespace DedupSim

open Tttd

variable {M : Marks} {limit : ℕ → ℕ} {sha1 : List UInt8 → Checksum} {fileId : UInt32}
  {X Y : List UInt8} {L : List (ℕ × ℕ)} {s t n k : ℕ}

/-- Records that lie end to end from `s` to `t`, none of them empty. -/
inductive Covers : ℕ → List Block → ℕ → Prop where
  | nil (s : ℕ) : Covers s [] s
  | cons {s t : ℕ} {b : Block} {bs : List Block} (hoff : b.offset = UInt64.ofNat s)
      (hpos : 0 < b.size.toNat) (h : Covers (s + b.size.toNat) bs t) : Covers s (b :: bs) t

theorem Covers.append {r : ℕ} {bs bs' : List Block} (h : Covers s bs t) (h' : Covers t bs' r) :
    Covers s (bs ++ bs') r := by
  induction h with
  | nil s => exact h'
  | cons hoff hpos _ ih => exact .cons hoff hpos (ih h')

/-- **The records of a chain lie end to end.** -/
theorem chain_covers (sha1 : List UInt8 → Checksum) (fileId : UInt32) (X : List UInt8)
    (h1 : 1 ≤ M.tmin) (h2 : M.tmin ≤ M.tmax) (h32 : M.tmax < 2 ^ 32) (h : Chain M limit s L t) :
    Covers s (L.map (spanRecord sha1 fileId X)) t := by
  induction h with
  | nil s => exact .nil s
  | @cons s e t L hs he h ih =>
    obtain ⟨hle, -, hmax, -⟩ := he.bounds h1 h2 hs
    have hsize : (spanRecord sha1 fileId X (s, e)).size.toNat = e + 1 - s :=
      spanRecord_size sha1 fileId X (by simp only; omega)
    refine .cons rfl (by omega) ?_
    rw [hsize, show s + (e + 1 - s) = e + 1 by omega]
    exact ih

theorem Covers.size_ne_zero {bs : List Block} (h : Covers s bs t) : ∀ b ∈ bs, b.size ≠ 0 := by
  induction h with
  | nil s => intro b hb; cases hb
  | cons hoff hpos h ih =>
    intro b hb
    rcases List.mem_cons.1 hb with rfl | hb
    · rintro h0
      rw [h0] at hpos
      exact absurd hpos (lt_irrefl 0)
    · exact ih b hb

theorem Covers.sizeOf_eq {bs : List Block} (h : Covers s bs t) : s + sizeOf bs = t := by
  induction h with
  | nil s => rfl
  | cons hoff hpos h ih =>
    rw [sizeOf_cons]
    omega

/-! ## Regions of 2 MB -/

/-- The end of the `k`-th region of a file of `n` bytes. -/
def regionEnd (n k : ℕ) : ℕ := min ((k + 1) * fixSegmentSize) n

theorem regionEnd_eq (h : k * fixSegmentSize < n) :
    regionEnd n k = k * fixSegmentSize + min fixSegmentSize (n - k * fixSegmentSize) := by
  unfold regionEnd
  rw [Nat.succ_mul]
  generalize k * fixSegmentSize = a at *
  generalize fixSegmentSize = F
  omega

section Regions

variable (sha1 : List UInt8 → Checksum) (fileId : UInt32) (X : List UInt8)
  (h1 : 1 ≤ M.tmin) (h2 : M.tmin ≤ M.tmax) (h32 : M.tmax < 2 ^ 32)
  (hlim : ∀ s, limit s = min (fixSegmentSize * (s / fixSegmentSize + 1)) n)
include h1 h2 h32 hlim

/-- No block crosses the end of a region, so the first segment is the first region. -/
theorem segmentsOf_region (hk : k * fixSegmentSize < n)
    (hc : Chain M limit (k * fixSegmentSize) L n) :
    ∃ R L', Chain M limit (k * fixSegmentSize) R (regionEnd n k) ∧
      Chain M limit (regionEnd n k) L' n ∧
      segmentsOf (L.map (spanRecord sha1 fileId X)) =
        R.map (spanRecord sha1 fileId X) :: segmentsOf (L'.map (spanRecord sha1 fileId X)) := by
  have hpos : 0 < fixSegmentSize := by decide
  have hmul : (k + 1) * fixSegmentSize = k * fixSegmentSize + fixSegmentSize := Nat.succ_mul k _
  have hstop : ∀ r, r < regionEnd n k → limit r ≤ regionEnd n k := by
    intro r hr
    unfold regionEnd at hr ⊢
    have hdiv : r / fixSegmentSize < k + 1 := (Nat.div_lt_iff_lt_mul hpos).2 (by omega)
    have hm : fixSegmentSize * (r / fixSegmentSize + 1) ≤ (k + 1) * fixSegmentSize := by
      rw [Nat.mul_comm]
      exact Nat.mul_le_mul_right _ hdiv
    rw [hlim]
    exact min_le_min_right n hm
  obtain ⟨R, L', rfl, hR, hL'⟩ := hc.split h1 h2 (t := regionEnd n k)
    (by unfold regionEnd; omega) (by unfold regionEnd; omega) hstop
  refine ⟨R, L', hR, hL', ?_⟩
  have hcov := chain_covers sha1 fileId X h1 h2 h32 hR
  have hsum := hcov.sizeOf_eq
  have htake : takeSegment 0 ((R ++ L').map (spanRecord sha1 fileId X)) =
      (R.map (spanRecord sha1 fileId X), L'.map (spanRecord sha1 fileId X)) := by
    rw [List.map_append]
    refine takeSegment_exact hcov.size_ne_zero hpos (by unfold regionEnd at hsum; omega) ?_
    intro hlt
    -- a region cut short is the last
    have hend : regionEnd n k = n := by unfold regionEnd at hsum ⊢; omega
    rw [hend] at hL'
    rw [hL'.unique h1 h2 (.nil n)]
    rfl
  have hne : R.map (spanRecord sha1 fileId X) ≠ [] := by
    intro h0
    rw [h0] at hsum
    unfold regionEnd at hsum
    simp only [sizeOf_nil] at hsum
    omega
  rw [segmentsOf, htake, if_neg hne]

/-- **The `k + i`-th segment is the chain of its region.** -/
theorem segmentsOf_chain (i : ℕ) :
    ∀ k L, k * fixSegmentSize ≤ n → Chain M limit (k * fixSegmentSize) L n →
      ((k + i) * fixSegmentSize < n →
        ∃ R, Chain M limit ((k + i) * fixSegmentSize) R (regionEnd n (k + i)) ∧
          (segmentsOf (L.map (spanRecord sha1 fileId X)))[i]? =
            some (R.map (spanRecord sha1 fileId X))) ∧
      (n ≤ (k + i) * fixSegmentSize →
        (segmentsOf (L.map (spanRecord sha1 fileId X)))[i]? = none) := by
  -- past the end nothing is left
  have hnil : ∀ {L : List (ℕ × ℕ)}, Chain M limit n L n →
      segmentsOf (L.map (spanRecord sha1 fileId X)) = [] := by
    intro L hc
    rw [hc.unique h1 h2 (.nil n), List.map_nil, segmentsOf]
    rfl
  induction i with
  | zero =>
    intro k L hk hc
    rcases Nat.eq_or_lt_of_le hk with he | hlt
    · rw [Nat.add_zero]
      refine ⟨fun h => by omega, ?_⟩
      intro _
      rw [he] at hc
      rw [hnil hc]
      rfl
    · obtain ⟨R, L', hR, -, hs⟩ := segmentsOf_region sha1 fileId X h1 h2 h32 hlim hlt hc
      rw [Nat.add_zero, hs]
      exact ⟨fun _ => ⟨R, hR, rfl⟩, fun h => by omega⟩
  | succ i ih =>
    intro k L hk hc
    rcases Nat.eq_or_lt_of_le hk with he | hlt
    · have hge : n ≤ (k + (i + 1)) * fixSegmentSize := by
        rw [← he]
        exact Nat.mul_le_mul_right _ (by omega)
      refine ⟨fun h => by omega, ?_⟩
      intro _
      rw [he] at hc
      rw [hnil hc]
      rfl
    · -- one region is the head, the rest starts at the next
      obtain ⟨R, L', -, hL', hs⟩ := segmentsOf_region sha1 fileId X h1 h2 h32 hlim hlt hc
      rw [hs, List.getElem?_cons_succ, show k + (i + 1) = k + 1 + i by omega]
      rcases Nat.lt_or_ge n ((k + 1) * fixSegmentSize) with hn | hn
      · have hge : (k + 1) * fixSegmentSize ≤ (k + 1 + i) * fixSegmentSize :=
          Nat.mul_le_mul_right _ (by omega)
        rw [regionEnd, min_eq_right hn.le] at hL'
        rw [hnil hL']
        exact ⟨fun h => by omega, fun _ => rfl⟩
      · rw [regionEnd, min_eq_left hn] at hL'
        exact ih (k + 1) L' hn hL'

end Regions

/-! ## A region depends on its bytes -/

/-- The bytes of a region. -/
def regionBytes (X : List UInt8) (k : ℕ) : List UInt8 := slice X (k * fixSegmentSize) fixSegmentSize

theorem div_region {j : ℕ} (hj : j < fixSegmentSize) :
    (k * fixSegmentSize + j) / fixSegmentSize = k := by
  rw [Nat.mul_comm, Nat.mul_add_div (by decide), Nat.div_eq_of_lt hj, Nat.add_zero]

/-- Hashing starts afresh in a region. -/
theorem rabinAt_region (X : List UInt8) {j : ℕ} (hj : j < fixSegmentSize) :
    rabinAt fixSegmentSize X (k * fixSegmentSize + j) =
      (rabinValue (slice (regionBytes X k) 0 (j + 1))).toNat := by
  have hl : lastMultiple fixSegmentSize (k * fixSegmentSize + j) = k * fixSegmentSize := by
    rw [lastMultiple, div_region hj, Nat.mul_comm]
  have hs : slice (regionBytes X k) 0 (j + 1) = slice X (k * fixSegmentSize) (j + 1) := by
    rw [regionBytes, slice_slice (by omega), Nat.add_zero]
  rw [rabinAt, hl, hs, show k * fixSegmentSize + j + 1 - k * fixSegmentSize = j + 1 by omega]

theorem length_region (hXY : regionBytes X k = regionBytes Y k) :
    min fixSegmentSize (X.length - k * fixSegmentSize) =
      min fixSegmentSize (Y.length - k * fixSegmentSize) := by
  have h := congrArg List.length hXY
  rwa [regionBytes, regionBytes, length_slice, length_slice] at h

variable {sc : Scanner}

theorem limit_region (hF : sc.fixBoundarySize = fixSegmentSize) (n : ℕ) {j : ℕ}
    (hj : j < fixSegmentSize) : sc.limit n (k * fixSegmentSize + j) = regionEnd n k := by
  rw [Scanner.limit, hF, if_neg (by decide), div_region hj, regionEnd, Nat.mul_comm]

/-- **Equal bytes give equal marks** throughout a region. -/
theorem sameFrom_region (hF : sc.fixBoundarySize = fixSegmentSize)
    (hXY : regionBytes X k = regionBytes Y k) (hX : k * fixSegmentSize < X.length) :
    SameFrom (sc.marks X) (sc.marks Y) (sc.limit X.length) (sc.limit Y.length)
      (k * fixSegmentSize) (k * fixSegmentSize)
      (min fixSegmentSize (X.length - k * fixSegmentSize)) := by
  have hlen := length_region hXY
  have hmul : (k + 1) * fixSegmentSize = k * fixSegmentSize + fixSegmentSize := Nat.succ_mul k _
  refine ⟨rfl, rfl, ?_, ?_, ?_, ?_⟩
  · intro j _ hj
    simp only [Scanner.marks, hF]
    rw [rabinAt_region X (by omega), rabinAt_region Y (by omega), hXY]
  · intro j _ hj
    simp only [Scanner.marks, hF]
    rw [rabinAt_region X (by omega), rabinAt_region Y (by omega), hXY]
  · intro j hj
    rw [limit_region hF _ (by omega), regionEnd]
    omega
  · intro j hj
    rw [limit_region hF _ (by omega), limit_region hF _ (by omega), regionEnd, regionEnd]
    omega

/-- **Equal bytes give equal blocks**, with the same sizes and checksums. -/
theorem region_unique (hF : sc.fixBoundarySize = fixSegmentSize) (h1 : 1 ≤ sc.tmin.toNat)
    (h2 : sc.tmin.toNat ≤ sc.tmax.toNat) (hXY : regionBytes X k = regionBytes Y k)
    (hX : k * fixSegmentSize < X.length) {R R' : List (ℕ × ℕ)}
    (hR : Chain (sc.marks X) (sc.limit X.length) (k * fixSegmentSize) R (regionEnd X.length k))
    (hR' : Chain (sc.marks Y) (sc.limit Y.length) (k * fixSegmentSize) R' (regionEnd Y.length k))
    (fileId fileId' : UInt32) :
    (R.map (spanRecord sha1 fileId X)).map (fun b => (b.cksum, b.size)) =
      (R'.map (spanRecord sha1 fileId' Y)).map (fun b => (b.cksum, b.size)) := by
  have hlen := length_region hXY
  have hY : k * fixSegmentSize < Y.length := by
    have : 0 < fixSegmentSize := by decide
    omega
  obtain ⟨S, rfl, hS⟩ := hR.shift h1 h2 (sameFrom_region hF hXY hX) 0 _
    (Nat.add_zero _).symm (regionEnd_eq hX) le_rfl
  rw [Nat.add_zero, hlen, ← regionEnd_eq hY] at hS
  rw [hR'.unique h1 h2 hS, List.map_map, List.map_map]
  apply List.map_congr_left
  intro r hr
  obtain ⟨hr1, hr2, -, hr3, -⟩ := hR.mem_bounds h1 h2 hr
  rw [regionEnd_eq hX] at hr3
  -- the block's bytes lie in the region
  have hbytes : ∀ Z : List UInt8, slice Z r.1 (r.2 + 1 - r.1) =
      slice (regionBytes Z k) (r.1 - k * fixSegmentSize) (r.2 + 1 - r.1) := by
    intro Z
    rw [regionBytes, slice_slice (by omega),
      show k * fixSegmentSize + (r.1 - k * fixSegmentSize) = r.1 by omega]
  simp only [Function.comp_apply, spanRecord, hbytes X, hbytes Y, hXY]

/-! ## The log read back -/

/-- The checksums and sizes of a segment's blocks, and its own checksum, which
`Segment::operator==` compares. -/
def Segment.content (seg : Segment) : List (Checksum × UInt32) × Checksum :=
  (seg.blocklist.map (fun b => (b.cksum, b.size)), seg.cksum)

theorem content_ofBlocks {bs bs' : List Block}
    (h : bs.map (fun b => (b.cksum, b.size)) = bs'.map (fun b => (b.cksum, b.size))) :
    (Segment.ofBlocks sha1 bs).content = (Segment.ofBlocks sha1 bs').content := by
  have hck : bs.flatMap (fun b => b.cksum.data) = bs'.flatMap (fun b => b.cksum.data) := by
    have := congrArg (List.flatMap fun p : Checksum × UInt32 => p.1.data) h
    rwa [List.flatMap_map, List.flatMap_map] at this
  simp only [Segment.content, Segment.ofBlocks_blocklist, Segment.ofBlocks_cksum, h, hck]

/-- The segments of the log that `sc` wrote. -/
def segmentsOfLog (sha1 : List UInt8 → Checksum) (seg : Segment) (sc : Scanner) : List Segment :=
  Segment.loadAll sha1 seg (sc.ofs.flatMap Block.toStream)

variable {s₀ : RabinState} {calls : List Call} {prev : List UInt8}

/-- The log of a scan is cut into segments: no size in it is `2 ^ 31` or more. -/
theorem segmentsOfLog_eq (sha1 : List UInt8 → Checksum) (fileId : UInt32) (hfresh : Fresh s₀ sc)
    (hf : Feeds X true 0 prev calls) (seg : Segment) :
    segmentsOfLog sha1 seg (sc.feed sha1 fileId calls) =
      (segmentsOf (sc.feed sha1 fileId calls).ofs).map (Segment.ofBlocks sha1) := by
  have hmax := hfresh.tmax_le
  have h32 := UInt32.toNat_lt sc.tmax
  have hread := (readAll_records (sc.feed sha1 fileId calls).ofs).1
  have h31 : ∀ b ∈ (sc.feed sha1 fileId calls).ofs, b.size.toNat < 2 ^ 31 := by
    intro b hb
    rw [(feed_scan hfresh sha1 fileId hf).ofs_eq] at hb
    obtain ⟨r, hr, rfl⟩ := List.mem_map.1 hb
    obtain ⟨-, -, -, -, hle, -⟩ := (hfresh.chain X).mem_bounds (hfresh.tmin_pos X) hfresh.tmin_le hr
    rw [Scanner.marks_tmax] at hle
    unfold readBufferSize at hmax
    have hs := spanRecord_size sha1 fileId X (r := r) (by omega)
    omega
  rw [segmentsOfLog, Segment.loadAll_eq _ _ _ (by rwa [hread]), hread]

/-- **A fix boundary scan, segment by segment.** -/
theorem segmentsOfLog_region (sha1 : List UInt8 → Checksum) (fileId : UInt32) (hfresh : Fresh s₀ sc)
    (hF : sc.fixBoundarySize = fixSegmentSize) (hf : Feeds X true 0 prev calls) (seg : Segment) :
    (segmentsOfLog sha1 seg (sc.feed sha1 fileId calls)).flatMap (·.blocklist) =
        (sc.feed sha1 fileId calls).ofs ∧
      ∀ k, (k * fixSegmentSize < X.length →
          ∃ R, Chain (sc.marks X) (sc.limit X.length) (k * fixSegmentSize) R (regionEnd X.length k) ∧
            (segmentsOfLog sha1 seg (sc.feed sha1 fileId calls))[k]? =
              some (Segment.ofBlocks sha1 (R.map (spanRecord sha1 fileId X)))) ∧
        (X.length ≤ k * fixSegmentSize →
          (segmentsOfLog sha1 seg (sc.feed sha1 fileId calls))[k]? = none) := by
  have h1 := hfresh.tmin_pos X
  have h2 : (sc.marks X).tmin ≤ (sc.marks X).tmax := hfresh.tmin_le
  have h32 : (sc.marks X).tmax < 2 ^ 32 := UInt32.toNat_lt sc.tmax
  have hlog := (feed_scan hfresh sha1 fileId hf).ofs_eq
  have hcov := chain_covers sha1 fileId X h1 h2 h32 (hfresh.chain X)
  rw [← hlog] at hcov
  rw [segmentsOfLog_eq sha1 fileId hfresh hf seg]
  refine ⟨?_, ?_⟩
  · rw [List.flatMap_map]
    simp only [Segment.ofBlocks_blocklist, List.flatMap_id']
    rw [segmentsOf_flatten, List.filter_eq_self]
    intro b hb
    simpa using hcov.size_ne_zero b hb
  · intro k
    have hlim : ∀ s, sc.limit X.length s =
        min (fixSegmentSize * (s / fixSegmentSize + 1)) X.length := by
      intro s
      rw [Scanner.limit, hF, if_neg (by decide)]
    have h0 : Chain (sc.marks X) (sc.limit X.length) (0 * fixSegmentSize) (spansOf sc X true)
        X.length := by
      rw [Nat.zero_mul]
      exact hfresh.chain X
    obtain ⟨hin, hout⟩ := segmentsOf_chain sha1 fileId X h1 h2 h32 hlim k 0
      (spansOf sc X true) (by omega) h0
    rw [Nat.zero_add, ← hlog] at hin hout
    rw [List.getElem?_map]
    refine ⟨?_, ?_⟩
    · intro hk
      obtain ⟨R, hR, hs⟩ := hin hk
      exact ⟨R, hR, by rw [hs]; rfl⟩
    · intro hk
      rw [hout hk]
      rfl

/-- **Segments are local to their region.** The segments of the log of `X` hold the
log's blocks in order; the `k`-th holds those from `2 MB * k` to the end of that
region, and there is no other. Where `Y` has the same bytes in that region, its
`k`-th segment has the same checksums and sizes and so the same checksum. -/
theorem fixBoundary_segments (sha1 : List UInt8 → Checksum) (fileId fileId' : UInt32)
    (mem mem' : Uninit) {kb : ℤ} (h1 : 1 ≤ kb) (h2 : kb ≤ 2048) (dataout dataout' : Bool)
    (X Y : List UInt8) {prev prev' : List UInt8} {calls calls' : List Call}
    (hf : Feeds X true 0 prev calls) (hf' : Feeds Y true 0 prev' calls') (seg seg' : Segment) :
    (segmentsOfLog sha1 seg ((Scanner.new mem true kb fixSegmentSize dataout).feed sha1 fileId
        calls)).flatMap (·.blocklist) =
        ((Scanner.new mem true kb fixSegmentSize dataout).feed sha1 fileId calls).ofs ∧
      (∀ k, (k * fixSegmentSize < X.length →
          ∃ s, (segmentsOfLog sha1 seg ((Scanner.new mem true kb fixSegmentSize dataout).feed sha1
              fileId calls))[k]? = some s ∧
            Covers (k * fixSegmentSize) s.blocklist (min ((k + 1) * fixSegmentSize) X.length)) ∧
        (X.length ≤ k * fixSegmentSize →
          (segmentsOfLog sha1 seg ((Scanner.new mem true kb fixSegmentSize dataout).feed sha1 fileId
            calls))[k]? = none)) ∧
      ∀ k, slice X (k * fixSegmentSize) fixSegmentSize = slice Y (k * fixSegmentSize) fixSegmentSize →
        ((segmentsOfLog sha1 seg ((Scanner.new mem true kb fixSegmentSize dataout).feed sha1 fileId
            calls))[k]?).map Segment.content =
          ((segmentsOfLog sha1 seg' ((Scanner.new mem' true kb fixSegmentSize dataout').feed sha1
            fileId' calls'))[k]?).map Segment.content := by
  obtain ⟨s₀, hfresh⟩ := fresh_new mem fixSegmentSize dataout h1 h2
  obtain ⟨s₀', hfresh'⟩ := fresh_new mem' fixSegmentSize dataout' h1 h2
  obtain ⟨hflat, hX⟩ := segmentsOfLog_region sha1 fileId hfresh rfl hf seg
  obtain ⟨-, hY⟩ := segmentsOfLog_region sha1 fileId' hfresh' rfl hf' seg'
  set sc := Scanner.new mem true kb fixSegmentSize dataout with hsc
  have hF : sc.fixBoundarySize = fixSegmentSize := rfl
  refine ⟨hflat, fun k => ⟨?_, (hX k).2⟩, ?_⟩
  · intro hk
    obtain ⟨R, hR, hs⟩ := (hX k).1 hk
    refine ⟨_, hs, ?_⟩
    rw [Segment.ofBlocks_blocklist]
    exact chain_covers sha1 fileId X (hfresh.tmin_pos X) hfresh.tmin_le (UInt32.toNat_lt sc.tmax) hR
  · intro k hXY
    have hlen := length_region (k := k) hXY
    rcases Nat.lt_or_ge (k * fixSegmentSize) X.length with hk | hk
    · have hk' : k * fixSegmentSize < Y.length := by
        have hpos : 0 < fixSegmentSize := by decide
        generalize k * fixSegmentSize = a at *
        generalize fixSegmentSize = F at *
        omega
      obtain ⟨R, hR, hs⟩ := (hX k).1 hk
      obtain ⟨R', hR', hs'⟩ := (hY k).1 hk'
      rw [hs, hs', Option.map_some, Option.map_some]
      exact congrArg some (content_ofBlocks
        (region_unique hF (hfresh.tmin_pos X) hfresh.tmin_le hXY hk hR hR' fileId fileId'))
    · have hk' : Y.length ≤ k * fixSegmentSize := by
        have hpos : 0 < fixSegmentSize := by decide
        omega
      rw [(hX k).2 hk, (hY k).2 hk']

/-- The digests of three bytes, of the segments of one or two of that block, of the blocks that end
with 1, 2 and 2, and of those that end with 0 to 9, and of nothing. -/
def segmentDigest (m : List UInt8) : Checksum :=
  if m = [1, 2, 3] then threeDigest
  else if m.length = 20 then
    ⟨[0x3b, 0xe2, 0x2d, 0x31, 0xa6, 0x43, 0xa2, 0x78, 0x4a, 0xe7, 0x8c, 0x53, 0x7d, 0xe1, 0x58, 0x76,
      0xc3, 0xd3, 0xe2, 0x97], rfl⟩
  else if m.length = 40 then
    ⟨[0x76, 0xf2, 0xb5, 0x0a, 0x59, 0x1b, 0xdd, 0x4d, 0x30, 0x8c, 0x72, 0x22, 0x4f, 0x47, 0x1a, 0xdc,
      0x94, 0xfb, 0xda, 0x92], rfl⟩
  else if m.length = 60 then
    ⟨[0x58, 0x64, 0xcb, 0x64, 0x23, 0xcb, 0x4e, 0xc2, 0xdd, 0x92, 0x41, 0x59, 0xb9, 0x6b, 0x59, 0x53,
      0x97, 0xc6, 0x65, 0x9e], rfl⟩
  else if m.length = 200 then
    ⟨[0xb1, 0xc7, 0xa4, 0x27, 0xb1, 0xfa, 0xd3, 0x91, 0x46, 0xcf, 0x13, 0xb8, 0x97, 0xec, 0x6e, 0x7a,
      0x3e, 0xd3, 0xa3, 0x3b], rfl⟩
  else emptyDigest

/-! ## Two regions -/

/-- A region of zeros, and one byte. -/
def boundaryFile (n : UInt8) : List UInt8 := List.replicate fixSegmentSize 0 ++ [n]

theorem length_boundaryFile (n : UInt8) : (boundaryFile n).length = fixSegmentSize + 1 := by
  rw [boundaryFile, List.length_append, List.length_replicate, List.length_singleton]

theorem regionBytes_boundaryFile (n : UInt8) :
    regionBytes (boundaryFile n) 0 = List.replicate fixSegmentSize 0 ∧
      regionBytes (boundaryFile n) 1 = [n] := by
  unfold regionBytes slice boundaryFile
  rw [Nat.zero_mul, List.drop_zero, Nat.one_mul]
  exact ⟨List.take_left' List.length_replicate, by
    rw [List.drop_left' List.length_replicate]
    rfl⟩

theorem boundaryFile_feeds (n : UInt8) :
    Feeds (boundaryFile n) true 0 [] [⟨boundaryFile n, [], (boundaryFile n).length, true⟩] := by
  refine .single (by simp [boundaryFile]) ?_
  rw [length_boundaryFile]
  decide

/-- The digests of its chunks in blocks of 4 KB, and of its segments when it ends with 0 or 1. -/
def boundaryDigest (m : List UInt8) : Checksum :=
  if m.length = 4096 then zerosDigest m
  else if m = [0] then zerosDigest m
  else if m = [1] then
    ⟨[0xbf, 0x8b, 0x45, 0x30, 0xd8, 0xd2, 0x46, 0xdd, 0x74, 0xac, 0x53, 0xa1, 0x34, 0x71, 0xbb, 0xa1,
      0x79, 0x41, 0xdf, 0xf7], rfl⟩
  else if m = (zerosDigest [0]).data then
    ⟨[0x7a, 0xb8, 0xdc, 0x84, 0x56, 0xc2, 0x5f, 0x13, 0x25, 0x51, 0xf1, 0x57, 0xc7, 0x7a, 0x18, 0x88,
      0xef, 0x91, 0x8f, 0xac], rfl⟩
  else if m.length = 20 then
    ⟨[0x0a, 0x2b, 0x2a, 0x82, 0x51, 0x65, 0xae, 0x97, 0x42, 0xc6, 0x3b, 0x0c, 0x6d, 0xda, 0xfc, 0x22,
      0xf0, 0xbd, 0x3b, 0x1e], rfl⟩
  else
    ⟨[0xf9, 0x3b, 0x33, 0xc6, 0x67, 0x6f, 0x58, 0x46, 0xd2, 0xf1, 0x32, 0x5f, 0xfc, 0xce, 0xe7, 0x9a,
      0x89, 0x59, 0xec, 0xc3], rfl⟩

/-- Two files that differ in their second region only. -/
theorem fixBoundary_segments_two :
    let sc := fun n fileId => (Scanner.new default true 1 fixSegmentSize false).feed boundaryDigest
      fileId [⟨boundaryFile n, [], (boundaryFile n).length, true⟩]
    let segs := fun n fileId => segmentsOfLog boundaryDigest default (sc n fileId)
    (segs 0 0).flatMap (·.blocklist) = (sc 0 0).ofs ∧
      (∃ s, (segs 0 0)[1]? = some s ∧ Covers fixSegmentSize s.blocklist (fixSegmentSize + 1)) ∧
      (segs 0 0)[2]? = none ∧
      ((segs 0 0)[0]?).map Segment.content = ((segs 1 1)[0]?).map Segment.content := by
  obtain ⟨hflat, hregions, hlocal⟩ := fixBoundary_segments boundaryDigest 0 1 default default
    (show (1 : ℤ) ≤ 1 by decide) (by decide) false false (boundaryFile 0) (boundaryFile 1)
    (boundaryFile_feeds 0) (boundaryFile_feeds 1) default default
  have hlen := length_boundaryFile 0
  have hF : fixSegmentSize = 2097152 := rfl
  refine ⟨hflat, ?_, (hregions 2).2 (by omega), hlocal 0 ?_⟩
  · obtain ⟨s, hs, hcov⟩ := (hregions 1).1 (by omega)
    refine ⟨s, hs, ?_⟩
    rwa [hlen, Nat.one_mul, min_eq_right (by omega)] at hcov
  · exact (regionBytes_boundaryFile 0).1.trans (regionBytes_boundaryFile 1).1.symm

end DedupSim
