import DedupSim.Proof.ReadLoop

/-!
# The blocks of a fixed-mode scan

`fixScan` cuts each buffer for itself, so a block never crosses the end of a buffer.

* `gridFrom`: blocks of one length, end to end. `bufferGrid`: so in each buffer.
* `bufferGrid_eq_iff`: **the blocks are those of a grid if their length divides that of a
  buffer, or if there is only one buffer.**
* `fixScan_exact`: **the log of a fixed-mode scan.**
-/

namespace DedupSim

variable {a o m n t : ℕ} {X prev : List UInt8} {e : Bool} {calls : List Call}

/-! ## Grids -/

/-- The blocks of `a` bytes from `o` up to `t`, as positions and lengths; the last may be
shorter. -/
def gridFrom (a o t : ℕ) : List (ℕ × ℕ) :=
  if _h : o < t ∧ 0 < a then (o, min a (t - o)) :: gridFrom a (o + a) t else []
termination_by t - o
decreasing_by omega

/-- Such blocks in each buffer from `o` on, of `n` bytes. -/
def bufferGrid (a o n : ℕ) : List (ℕ × ℕ) :=
  if _h : o < n then
    gridFrom a o (o + min readBufferSize (n - o)) ++ bufferGrid a (o + readBufferSize) n
  else []
termination_by n - o
decreasing_by
  unfold readBufferSize
  omega

theorem gridFrom_cons (ha : 0 < a) (h : o < t) :
    gridFrom a o t = (o, min a (t - o)) :: gridFrom a (o + a) t := by
  rw [gridFrom, dif_pos ⟨h, ha⟩]

theorem gridFrom_nil (h : t ≤ o) : gridFrom a o t = [] := by
  rw [gridFrom, dif_neg fun h' => absurd h'.1 (not_lt.2 h)]

theorem bufferGrid_cons (h : o < n) :
    bufferGrid a o n =
      gridFrom a o (o + min readBufferSize (n - o)) ++ bufferGrid a (o + readBufferSize) n := by
  rw [bufferGrid, dif_pos h]

theorem bufferGrid_nil (h : n ≤ o) : bufferGrid a o n = [] := by
  rw [bufferGrid, dif_neg (not_lt.2 h)]

/-- A grid goes on where a whole number of blocks ends. -/
theorem gridFrom_append (ha : 0 < a) (hom : o ≤ m) (hmt : m ≤ t) (hdvd : a ∣ m - o) :
    gridFrom a o m ++ gridFrom a m t = gridFrom a o t := by
  obtain ⟨k, hk⟩ := hdvd
  induction k generalizing o with
  | zero =>
    obtain rfl : o = m := by omega
    rw [gridFrom_nil le_rfl, List.nil_append]
  | succ k ih =>
    have hstep : m - (o + a) = a * k := by rw [Nat.mul_succ] at hk; omega
    have hle : o + a ≤ m := by rw [Nat.mul_succ] at hk; omega
    rw [gridFrom_cons ha (by omega : o < m), gridFrom_cons ha (by omega : o < t), List.cons_append,
      ih hle hstep, min_eq_left (by omega : a ≤ m - o), min_eq_left (by omega : a ≤ t - o)]

/-- Blocks of a grid are a whole number of lengths from its start. -/
theorem dvd_of_mem_gridFrom {p : ℕ × ℕ} (h : p ∈ gridFrom a o t) : o ≤ p.1 ∧ a ∣ p.1 - o := by
  induction hd : t - o using Nat.strong_induction_on generalizing o with
  | _ d ih =>
    subst hd
    by_cases hcond : o < t ∧ 0 < a
    · rw [gridFrom_cons hcond.2 hcond.1, List.mem_cons] at h
      rcases h with rfl | h
      · exact ⟨le_rfl, by simp⟩
      · obtain ⟨hle, k, hk⟩ := ih (t - (o + a)) (by omega) h rfl
        refine ⟨by omega, k + 1, ?_⟩
        rw [Nat.mul_succ]
        omega
    · rw [gridFrom, dif_neg hcond] at h
      cases h

theorem bufferGrid_dvd (ha : 0 < a) (hdvd : a ∣ readBufferSize) (o n : ℕ) :
    bufferGrid a o n = gridFrom a o n := by
  induction hd : n - o using Nat.strong_induction_on generalizing o with
  | _ d ih =>
    subst hd
    have hB : 0 < readBufferSize := by decide
    by_cases h : o < n
    · rw [bufferGrid_cons h, ih (n - (o + readBufferSize)) (by omega) _ rfl]
      by_cases hfull : readBufferSize ≤ n - o
      · rw [min_eq_left hfull]
        exact gridFrom_append ha (by omega) (by omega) (by rwa [Nat.add_sub_cancel_left])
      · -- the last buffer
        rw [min_eq_right (by omega : n - o ≤ readBufferSize), gridFrom_nil (by omega : n ≤ o + readBufferSize),
          List.append_nil, Nat.add_sub_cancel' h.le]
    · rw [bufferGrid_nil (not_lt.1 h), gridFrom_nil (not_lt.1 h)]

/-- **When the buffers do not show**: a whole number of blocks fills a buffer, or the bytes
fit one. -/
theorem bufferGrid_eq_iff (ha : 0 < a) :
    bufferGrid a 0 n = gridFrom a 0 n ↔ a ∣ readBufferSize ∨ n ≤ readBufferSize := by
  constructor
  · intro h
    by_contra hno
    rw [not_or, not_le] at hno
    have hB : 0 < readBufferSize := by decide
    -- a block begins where the second buffer does
    set r := min readBufferSize (n - readBufferSize) with hr
    have hmem : (readBufferSize, min a r) ∈ bufferGrid a 0 n := by
      have hsecond : (readBufferSize, min a r) ∈ bufferGrid a readBufferSize n := by
        rw [bufferGrid_cons hno.2, List.mem_append, ← hr, gridFrom_cons ha (by omega),
          Nat.add_sub_cancel_left]
        exact .inl (.head _)
      rw [bufferGrid_cons (by omega), Nat.zero_add, Nat.zero_add]
      exact List.mem_append_right _ hsecond
    rw [h] at hmem
    exact hno.1 (dvd_of_mem_gridFrom hmem).2
  · rintro (hdvd | hle)
    · exact bufferGrid_dvd ha hdvd 0 n
    · by_cases h0 : 0 < n
      · rw [bufferGrid_cons h0, Nat.sub_zero, min_eq_right hle, Nat.zero_add, Nat.zero_add,
          bufferGrid_nil hle, List.append_nil]
      · rw [bufferGrid_nil (not_lt.1 h0), gridFrom_nil (not_lt.1 h0)]

/-! ## The scanner -/

/-- The record of the `p.2` bytes at `p.1`. -/
def fixRecord (sha1 : List UInt8 → Checksum) (fileId : UInt32) (X : List UInt8) (p : ℕ × ℕ) : Block where
  size := UInt32.ofNat p.2
  fileId := fileId
  offset := UInt64.ofNat p.1
  cksum := sha1 (slice X p.1 p.2)

/-- **What one call of `fixScan` records**, from `start` on: the blocks of its buffer. -/
theorem fixScanFrom_grid (sha1 : List UInt8 → Checksum) (fileId : UInt32) {b1 : List UInt8} {size : ℕ}
    (hsize : size < 2 ^ 32) (hb1 : b1.take size = slice X o size) (start : ℕ) (sc : Scanner)
    (ha : 0 < sc.avgSize.toNat) (ho : sc.b1Offset = o) :
    (sc.fixScanFrom sha1 fileId b1 size start).ofs =
        sc.ofs ++ (gridFrom sc.avgSize.toNat (o + start) (o + size)).map (fixRecord sha1 fileId X) ∧
      (sc.fixScanFrom sha1 fileId b1 size start).avgSize = sc.avgSize ∧
      (sc.fixScanFrom sha1 fileId b1 size start).isVar = sc.isVar ∧
      (sc.fixScanFrom sha1 fileId b1 size start).b1Offset = o := by
  induction hd : size - start using Nat.strong_induction_on generalizing start sc with
  | _ d ih =>
    subst hd
    by_cases hlt : start < size
    · rw [Scanner.fixScanFrom, dif_pos ⟨hlt, ha⟩, gridFrom_cons ha (by omega), List.map_cons]
      -- the last block of a buffer is cut off at its end
      have hlen : (if start + sc.avgSize.toNat > size then UInt32.ofNat (size - start)
          else sc.avgSize).toNat = min sc.avgSize.toNat (o + size - (o + start)) := by
        split
        · rw [UInt32.toNat_ofNat_of_lt' (by omega : size - start < 2 ^ 32)]
          omega
        · omega
      have hrecord : ({ sc.bl with
          offset := UInt64.ofNat (start + sc.b1Offset)
          size := if start + sc.avgSize.toNat > size then UInt32.ofNat (size - start) else sc.avgSize
          cksum := sha1 (slice b1 start (if start + sc.avgSize.toNat > size then
            UInt32.ofNat (size - start) else sc.avgSize).toNat)
          fileId := fileId } : Block) =
          fixRecord sha1 fileId X (o + start, min sc.avgSize.toNat (o + size - (o + start))) := by
        have hbytes : slice b1 start (min sc.avgSize.toNat (o + size - (o + start))) =
            slice X (o + start) (min sc.avgSize.toNat (o + size - (o + start))) := by
          rw [← slice_take (m := size) (by omega), hb1, slice_slice (by omega)]
        unfold fixRecord
        rw [hlen, hbytes, ho, Nat.add_comm start o]
        simp only [← hlen, UInt32.ofNat_toNat]
      obtain ⟨hofs, havg, hvar, hb⟩ := ih (size - (start + sc.avgSize.toNat)) (by omega)
        (start + sc.avgSize.toNat) (({ sc with bl := _ }).addBlock fileId) ha ho rfl
      refine ⟨?_, havg, hvar, hb⟩
      rw [hofs]
      simp only [Scanner.addBlock, List.append_assoc, List.cons_append, List.nil_append, hrecord,
        Nat.add_assoc]
    · rw [Scanner.fixScanFrom, dif_neg fun h => hlt h.1, gridFrom_nil (by omega), List.map_nil,
        List.append_nil]
      exact ⟨rfl, rfl, rfl, ho⟩

/-- **A file fed to a fixed-mode scanner**, buffer by buffer. -/
theorem feed_fixed_grid (sha1 : List UInt8 → Checksum) (fileId : UInt32)
    (hf : Feeds X e o prev calls) :
    ∀ sc : Scanner, sc.isVar = false → 0 < sc.avgSize.toNat → sc.b1Offset = o →
      (sc.feed sha1 fileId calls).ofs =
        sc.ofs ++ (bufferGrid sc.avgSize.toNat o X.length).map (fixRecord sha1 fileId X) := by
  induction hf with
  | nil prev =>
    intro sc _ _ _
    rw [bufferGrid_nil le_rfl, List.map_nil, List.append_nil]
    rfl
  | @cons o prev c calls hlt hsize hb1 hb2 heof hrest ih =>
    intro sc hv ha ho
    have hs : c.size < 2 ^ 32 := by
      unfold readBufferSize at hsize
      omega
    obtain ⟨hofs, havg, hvar, hb⟩ := fixScanFrom_grid sha1 fileId hs hb1 0 sc ha ho
    have hdata : sc.addData sha1 fileId c.b1 c.b2 c.size c.eof =
        sc.fixScan sha1 fileId c.b1 c.size := if_neg (by rw [hv]; exact Bool.false_ne_true)
    have hnext := ih (sc.fixScan sha1 fileId c.b1 c.size) (hvar.trans hv)
      (show 0 < UInt32.toNat _ from havg ▸ ha) (congrArg (· + c.size) hb)
    unfold Scanner.feed at hnext ⊢
    rw [List.foldl_cons, hdata, hnext, bufferGrid_cons hlt, List.map_append, ← hsize]
    have hofs' : (sc.fixScan sha1 fileId c.b1 c.size).ofs = sc.ofs ++ _ := hofs
    have havg' : (sc.fixScan sha1 fileId c.b1 c.size).avgSize = sc.avgSize := havg
    rw [hofs', havg', Nat.add_zero, List.append_assoc]
    -- after the last buffer there is nothing, whatever length is added
    have hrest : bufferGrid sc.avgSize.toNat (o + c.size) X.length =
        bufferGrid sc.avgSize.toNat (o + readBufferSize) X.length := by
      by_cases hfull : readBufferSize ≤ X.length - o
      · rw [hsize, min_eq_left hfull]
      · rw [bufferGrid_nil (by omega), bufferGrid_nil (by omega)]
    rw [hrest]

/-! ## The log -/

/-- The position and the length that a record has. -/
def Block.span (b : Block) : ℕ × ℕ := (b.offset.toNat, b.size.toNat)

theorem gridFrom_bounds {p : ℕ × ℕ} (h : p ∈ gridFrom a o t) :
    0 < p.2 ∧ p.2 ≤ a ∧ p.1 + p.2 ≤ t := by
  induction hd : t - o using Nat.strong_induction_on generalizing o with
  | _ d ih =>
    subst hd
    by_cases hcond : o < t ∧ 0 < a
    · rw [gridFrom_cons hcond.2 hcond.1, List.mem_cons] at h
      rcases h with rfl | h
      · simp only
        omega
      · exact ih (t - (o + a)) (by omega) h rfl
    · rw [gridFrom, dif_neg hcond] at h
      cases h

theorem bufferGrid_bounds {p : ℕ × ℕ} (h : p ∈ bufferGrid a o n) :
    0 < p.2 ∧ p.2 ≤ a ∧ p.1 + p.2 ≤ n := by
  induction hd : n - o using Nat.strong_induction_on generalizing o with
  | _ d ih =>
    subst hd
    by_cases hlt : o < n
    · have hB : 0 < readBufferSize := by decide
      rw [bufferGrid_cons hlt, List.mem_append] at h
      rcases h with h | h
      · obtain ⟨h0, ha, ht⟩ := gridFrom_bounds h
        exact ⟨h0, ha, by omega⟩
      · exact ih (n - (o + readBufferSize)) (by omega) h rfl
    · rw [bufferGrid_nil (not_lt.1 hlt)] at h
      cases h

/-- A record holds its position and its length. -/
theorem fixRecord_span (sha1 : List UInt8 → Checksum) (fileId : UInt32) {p : ℕ × ℕ}
    (h1 : p.1 < 2 ^ 64) (h2 : p.2 < 2 ^ 32) : (fixRecord sha1 fileId X p).span = p := by
  unfold Block.span fixRecord
  rw [UInt64.toNat_ofNat_of_lt' h1, UInt32.toNat_ofNat_of_lt' h2]

/-- **The log of a fixed-mode scan.** It holds the blocks of the buffers, with the digests of
their bytes; they are those of a grid if and only if the length of a block divides that of a
buffer, or the file fits one. -/
theorem fixScan_exact (sha1 : List UInt8 → Checksum) (fileId : UInt32) (scanners : List Scanner)
    (X p1 p2 : List UInt8) (mem : Uninit) {kb : ℤ} (h1 : 1 ≤ kb) (h2 : kb ≤ 2048) (F : ℕ)
    (dataout : Bool) (hX : X.length ≤ 2 ^ 64) {i : ℕ}
    (hi : scanners[i]? = some (Scanner.new mem false kb F dataout)) :
    ∃ sc, (scanData sha1 fileId scanners (LocalFSReader.open X true) p1 p2).scanners[i]? = some sc ∧
      sc.ofs = (bufferGrid (1024 * kb.toNat) 0 X.length).map (fixRecord sha1 fileId X) ∧
      (sc.ofs.map Block.span = gridFrom (1024 * kb.toNat) 0 X.length ↔
        1024 * kb.toNat ∣ readBufferSize ∨ X.length ≤ readBufferSize) := by
  obtain ⟨calls, hf, hs⟩ := scanData_feeds sha1 fileId scanners X p1 p2
  obtain ⟨havg, -⟩ := new_params mem F dataout false h1 h2
  have ha : 0 < 1024 * kb.toNat := by omega
  have hofs := feed_fixed_grid sha1 fileId hf (Scanner.new mem false kb F dataout) rfl (by omega) rfl
  rw [havg] at hofs
  refine ⟨_, by rw [hs, List.getElem?_map, hi]; rfl, hofs, ?_⟩
  rw [hofs, ← bufferGrid_eq_iff ha]
  have hspan : ((bufferGrid (1024 * kb.toNat) 0 X.length).map (fixRecord sha1 fileId X)).map Block.span =
      bufferGrid (1024 * kb.toNat) 0 X.length := by
    rw [List.map_map]
    refine (List.map_congr_left fun p hp => ?_).trans (List.map_id _)
    obtain ⟨h0, hle, hend⟩ := bufferGrid_bounds hp
    exact fixRecord_span sha1 fileId (by omega) (by omega)
  change (List.map Block.span (List.map _ _)) = _ ↔ _
  rw [hspan]

/-- A file of three bytes, in blocks of 3 KB. -/
theorem fixScan_exact_three :
    ∃ sc, (scanData (fun _ => threeDigest) 0 [Scanner.new default false 3 0 false]
        (LocalFSReader.open [1, 2, 3] true) [] []).scanners[0]? = some sc ∧
      sc.ofs = (bufferGrid (1024 * (3 : ℤ).toNat) 0 3).map
        (fixRecord (fun _ => threeDigest) 0 [1, 2, 3]) ∧
      (sc.ofs.map Block.span = gridFrom (1024 * (3 : ℤ).toNat) 0 3 ↔
        1024 * (3 : ℤ).toNat ∣ readBufferSize ∨ 3 ≤ readBufferSize) :=
  fixScan_exact (fun _ => threeDigest) 0 [Scanner.new default false 3 0 false] [1, 2, 3] [] []
    default (by decide) (by decide) 0 false (by decide) rfl

end DedupSim
