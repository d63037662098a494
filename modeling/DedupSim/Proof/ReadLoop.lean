import DedupSim.Proof.SegmentLocal
import DedupSim.Spec.Driver

/-!
# What a scan leaves in a log

* `scanData_feeds`: the read loop feeds every scanner the file, and announces the
  end unless the file is a whole number of buffers; `scanData_ctx`: the digest of the
  file is taken of its bytes.
* `scanData_exact`: **the bytes hashed and stored are the bytes of the block.**
* `feed_covers_iff`, `scan_covers_iff`: **when the log covers the file**; `Whole` is that
  condition.
-/

namespace DedupSim

open Tttd

variable {sha1 : List UInt8 → Checksum} {fileId : UInt32} {X : List UInt8} {st : LoopState}
  {o : ℕ}

/-! ## The read loop -/

/-- The state of the loop when `p1` holds the piece of `X` at `o`. -/
structure Loaded (X : List UInt8) (o : ℕ) (st : LoopState) : Prop where
  le : o ≤ X.length
  dvd : readBufferSize ∣ o
  nbytes : st.nbytes = min readBufferSize (X.length - o)
  p1 : st.p1.take st.nbytes = slice X o st.nbytes
  rest : st.fr.rest = X.drop (o + st.nbytes)
  fail : st.fr.fail = decide (st.nbytes < readBufferSize)

/-- The next buffer, after a full one. -/
theorem Loaded.loadData (h : Loaded X o st) (hfull : st.nbytes = readBufferSize) :
    Loaded X (o + st.nbytes) st.loadData := by
  have hn := h.nbytes
  have hpos : 0 < readBufferSize := by decide
  have hfail : st.fr.fail = false := by simp [h.fail, hfull]
  have hlen : (X.drop (o + st.nbytes)).length = X.length - (o + st.nbytes) := List.length_drop
  unfold LoopState.loadData LocalFSReader.readData
  simp only [hfail, Bool.false_eq_true, if_false, h.rest]
  have htake : ((X.drop (o + st.nbytes)).take readBufferSize).length =
      min readBufferSize (X.length - (o + st.nbytes)) := by
    rw [List.length_take, hlen]
  refine ⟨by omega, ?_, htake, ?_, ?_, rfl⟩
  · rw [hfull]
    exact Nat.dvd_add h.dvd dvd_rfl
  · simp only [htake]
    rw [List.take_left' htake, slice, List.take_eq_take_iff, hlen]
    omega
  · simp only [htake]
    rw [List.drop_drop, List.drop_eq_drop_iff]
    omega

/-- The first buffer. -/
theorem Loaded.first (scanners : List Scanner) (X p1 p2 ctx : List UInt8) :
    Loaded X 0 (LoopState.loadData
      { scanners := scanners, fr := LocalFSReader.open X true, p1 := p1, p2 := p2, ctx := ctx,
        nbytes := 0 }) := by
  unfold LoopState.loadData LocalFSReader.readData LocalFSReader.open
  simp only [if_true, Bool.false_eq_true, if_false]
  have htake : (X.take readBufferSize).length = min readBufferSize (X.length - 0) := by
    rw [List.length_take, Nat.sub_zero]
  refine ⟨Nat.zero_le _, Nat.dvd_zero _, htake, ?_, ?_, rfl⟩
  · simp only [htake]
    rw [List.take_left' htake, slice, List.drop_zero, List.take_eq_take_iff]
    omega
  · simp only [htake]
    rw [List.drop_eq_drop_iff]
    omega

/-- **The rest of the loop** feeds the rest of the file to every scanner. -/
theorem readLoop_feeds (sha1 : List UInt8 → Checksum) (fileId : UInt32) (st : LoopState) :
    ∀ o, Loaded X o st →
      ∃ calls, Feeds X (decide (X.length % readBufferSize ≠ 0)) o st.p2 calls ∧
        (readLoop sha1 fileId st).scanners = st.scanners.map fun sc => sc.feed sha1 fileId calls := by
  induction h : st.fr.rest.length + st.nbytes using Nat.strong_induction_on generalizing st with
  | _ n ih =>
    subst h
    intro o h
    have hn := h.nbytes
    have hle := h.le
    have hpos : 0 < readBufferSize := by decide
    unfold readLoop
    by_cases h0 : st.nbytes = 0
    · obtain rfl : o = X.length := by omega
      rw [dif_neg (by simpa using h0)]
      exact ⟨[], .nil _, by simp [Scanner.feed]⟩
    rw [dif_pos h0]
    by_cases hfull : st.nbytes = readBufferSize
    · -- a full buffer is fed without the end, and the next is read
      have hnext := h.loadData hfull
      obtain ⟨calls, hf, hs⟩ := ih _ (st.loadData_lt h0) (st.addData sha1 fileId false).loadData rfl
        (o + st.nbytes) ⟨hnext.1, hnext.2, hnext.3, hnext.4, hnext.5, hnext.6⟩
      refine ⟨⟨st.p1, st.p2, st.nbytes, false⟩ :: calls, .cons ?_ hn h.p1 rfl ?_ hf, ?_⟩
      · omega
      · -- a full buffer at the end makes the length a multiple
        have hmod : o + st.nbytes = X.length → X.length % readBufferSize = 0 := by
          intro he
          rw [← he, hfull]
          exact Nat.mod_eq_zero_of_dvd (Nat.dvd_add h.dvd dvd_rfl)
        by_cases he : o + st.nbytes = X.length
        · simp [he, hmod he]
        · simp [he]
      · simp only [hfull, ne_eq, not_true_eq_false, decide_false, Bool.false_eq_true, if_false]
        rw [hs]
        change (st.scanners.map _).map _ = _
        rw [List.map_map, hfull]
        rfl
    · -- a short read is the last piece, and announces the end
      have hlast : o + st.nbytes = X.length := by omega
      have hmod : X.length % readBufferSize ≠ 0 := by
        rw [← hlast, Nat.add_mod, Nat.mod_eq_zero_of_dvd h.dvd, Nat.zero_add, Nat.mod_mod,
          Nat.mod_eq_of_lt (by omega)]
        exact h0
      have hnil : Feeds X (decide (X.length % readBufferSize ≠ 0)) (o + st.nbytes) st.p1 [] := by
        rw [hlast]
        exact .nil _
      refine ⟨[⟨st.p1, st.p2, st.nbytes, true⟩], .cons (by omega) hn h.p1 rfl ?_ hnil, ?_⟩
      · simp only [hlast, hmod, decide_true, ne_eq, not_false_eq_true, Bool.and_true]
      · simp only [hfull, ne_eq, not_false_eq_true, decide_true, if_true]
        rfl

/-- **A scanned file is fed to every scanner.** -/
theorem scanData_feeds (sha1 : List UInt8 → Checksum) (fileId : UInt32) (scanners : List Scanner)
    (X p1 p2 : List UInt8) :
    ∃ calls, Feeds X (decide (X.length % readBufferSize ≠ 0)) 0 p1 calls ∧
      (scanData sha1 fileId scanners (LocalFSReader.open X true) p1 p2).scanners =
        scanners.map fun sc => sc.feed sha1 fileId calls :=
  readLoop_feeds sha1 fileId _ 0 (Loaded.first scanners X p1 p2 [])

/-- The digest of the file is taken of its bytes. -/
theorem readLoop_ctx (sha1 : List UInt8 → Checksum) (fileId : UInt32) (st : LoopState) :
    ∀ o, Loaded X o st → st.ctx = X.take (o + st.nbytes) → (readLoop sha1 fileId st).ctx = X := by
  induction h : st.fr.rest.length + st.nbytes using Nat.strong_induction_on generalizing st with
  | _ n ih =>
    subst h
    intro o h hctx
    have hn := h.nbytes
    have hle := h.le
    have hpos : 0 < readBufferSize := by decide
    unfold readLoop
    by_cases h0 : st.nbytes = 0
    · rw [dif_neg (by simpa using h0), hctx]
      exact List.take_of_length_le (by omega)
    rw [dif_pos h0]
    by_cases hfull : st.nbytes = readBufferSize
    · have hnext := h.loadData hfull
      simp only [hfull, ne_eq, not_true_eq_false, decide_false, Bool.false_eq_true, if_false]
      refine ih _ (st.loadData_lt h0) (st.addData sha1 fileId false).loadData rfl
        (o + st.nbytes) ⟨hnext.1, hnext.2, hnext.3, hnext.4, hnext.5, hnext.6⟩ ?_
      change st.ctx ++ st.loadData.p1.take st.loadData.nbytes = _
      rw [hnext.p1, hctx]
      exact (List.take_add).symm
    · simp only [hfull, ne_eq, not_false_eq_true, decide_true, if_true]
      exact hctx.trans (List.take_of_length_le (by omega))

/-- **The digest that is saved** is that of the file. -/
theorem scanData_ctx (sha1 : List UInt8 → Checksum) (fileId : UInt32) (scanners : List Scanner)
    (X p1 p2 : List UInt8) :
    (scanData sha1 fileId scanners (LocalFSReader.open X true) p1 p2).ctx = X := by
  have h := Loaded.first scanners X p1 p2 []
  refine readLoop_ctx sha1 fileId _ 0 h ?_
  rw [Nat.zero_add]
  exact h.p1

/-! ## The bytes of a block -/

/-- **The bytes hashed and stored are the bytes of the block.** Whatever the two
buffers held before, every call of `addBreakpoint` of a variable-mode scanner reads
data of this file only, and reads its block; the log and the data stream hold what
these calls leave. -/
theorem scanData_exact (sha1 : List UInt8 → Checksum) (fileId : UInt32) (scanners : List Scanner)
    (X p1 p2 : List UInt8) (mem : Uninit) {kb : ℤ} (h1 : 1 ≤ kb) (h2 : kb ≤ 2048) (F : ℕ)
    (dataout : Bool) {i : ℕ} (hi : scanners[i]? = some (Scanner.new mem true kb F dataout)) :
    ∃ sc, (scanData sha1 fileId scanners (LocalFSReader.open X true) p1 p2).scanners[i]? = some sc ∧
      (∀ bp ∈ sc.breaks, bp.Exact X) ∧
      sc.ofs = sc.breaks.map (fun bp =>
        { size := UInt32.ofNat (bp.offset + 1 - bp.newStart)
          fileId := fileId
          offset := UInt64.ofNat bp.newStart
          cksum := sha1 (slice X bp.newStart (bp.offset + 1 - bp.newStart)) }) ∧
      (sc.ofsdata, sc.datamap) =
        sc.breaks.foldl (storeBreak sha1) (if dataout then some [] else none, []) := by
  obtain ⟨calls, hf, hs⟩ := scanData_feeds sha1 fileId scanners X p1 p2
  obtain ⟨s₀, hfresh⟩ := fresh_new mem F dataout h1 h2
  have hlog := feed_scan hfresh sha1 fileId hf
  refine ⟨_, by rw [hs, List.getElem?_map, hi]; rfl, hlog.good, ?_, hlog.data⟩
  rw [hlog.log]
  apply List.map_congr_left
  intro bp hbp
  unfold Breakpoint.record
  rw [(hlog.good bp hbp).bytes]

/-- A fixed-mode scanner, and one in variable mode with a data stream. -/
def twoScanners : List Scanner :=
  [Scanner.new default false 4 0 false, Scanner.new default true 1 0 true]

/-- A full buffer of zeros and one more, in buffers that held other data. -/
theorem scanData_exact_zeros :
    ∃ sc, (scanData zerosDigest 1 twoScanners (LocalFSReader.open zerosFile true) [9, 9]
        [8]).scanners[1]? = some sc ∧
      (∀ bp ∈ sc.breaks, bp.Exact zerosFile) ∧
      sc.ofs = sc.breaks.map (fun bp =>
        { size := UInt32.ofNat (bp.offset + 1 - bp.newStart)
          fileId := 1
          offset := UInt64.ofNat bp.newStart
          cksum := zerosDigest (slice zerosFile bp.newStart (bp.offset + 1 - bp.newStart)) }) ∧
      (sc.ofsdata, sc.datamap) = sc.breaks.foldl (storeBreak zerosDigest) (some [], []) :=
  scanData_exact zerosDigest 1 twoScanners zerosFile [9, 9] [8] default (by decide) (by decide) 0 true
    rfl

/-! ## Fixed mode -/

variable {sc : Scanner} {b1 prev : List UInt8} {size start : ℕ} {e : Bool} {calls : List Call}

/-- One block of `fixScan`. -/
theorem fixScanFrom_step (sha1 : List UInt8 → Checksum) (fileId : UInt32) (b1 : List UInt8)
    (hsize : size < 2 ^ 32) (hlt : start < size) (havg : 0 < sc.avgSize.toNat) :
    ∃ (b : Block) (sc' : Scanner), b.offset = UInt64.ofNat (sc.b1Offset + start) ∧
      b.size.toNat = min sc.avgSize.toNat (size - start) ∧ sc'.conf = sc.conf ∧
      sc'.b1Offset = sc.b1Offset ∧ sc'.ofs = sc.ofs ++ [b] ∧
      sc.fixScanFrom sha1 fileId b1 size start =
        sc'.fixScanFrom sha1 fileId b1 size (start + sc.avgSize.toNat) := by
  rw [Scanner.fixScanFrom, dif_pos ⟨hlt, havg⟩]
  refine ⟨_, _, ?_, ?_, ?_, ?_, rfl, rfl⟩
  · simp only [Nat.add_comm]
  · simp only
    split
    · rw [UInt32.toNat_ofNat', Nat.mod_eq_of_lt (by omega)]
      omega
    · omega
  · rfl
  · rfl

/-- What one call of `fixScan` adds, from `start` on. -/
theorem fixScanFrom_covers (sha1 : List UInt8 → Checksum) (fileId : UInt32) (b1 : List UInt8)
    (hsize : size < 2 ^ 32) (start : ℕ) (sc : Scanner) (havg : 0 < sc.avgSize.toNat) :
    (sc.fixScanFrom sha1 fileId b1 size start).conf = sc.conf ∧
      (sc.fixScanFrom sha1 fileId b1 size start).b1Offset = sc.b1Offset ∧
      ∃ new, (sc.fixScanFrom sha1 fileId b1 size start).ofs = sc.ofs ++ new ∧
        Covers (sc.b1Offset + min start size) new (sc.b1Offset + size) := by
  induction h : size - start using Nat.strong_induction_on generalizing start sc with
  | _ n ih =>
    subst h
    by_cases hlt : start < size
    · -- a block, and the rest of the buffer
      obtain ⟨b, sc', hoff, hlen, hconf, ho', hofs', hstep⟩ :=
        fixScanFrom_step sha1 fileId b1 hsize hlt havg
      have havg' : sc'.avgSize = sc.avgSize := congrArg Scanner.Conf.avgSize hconf
      obtain ⟨hc, ho, new, hofs, hcov⟩ := ih (size - (start + sc.avgSize.toNat)) (by omega)
        (start + sc.avgSize.toNat) sc' (by rwa [havg']) rfl
      rw [hstep]
      refine ⟨hc.trans hconf, ho.trans ho', b :: new, ?_, ?_⟩
      · rw [hofs, hofs', List.append_assoc]
        rfl
      · rw [ho'] at hcov
        rw [min_eq_left hlt.le]
        refine .cons hoff (by omega) ?_
        rwa [hlen, show sc.b1Offset + start + min sc.avgSize.toNat (size - start) =
          sc.b1Offset + min (start + sc.avgSize.toNat) size by omega]
    · rw [Scanner.fixScanFrom, dif_neg (fun h => hlt h.1), min_eq_right (by omega)]
      exact ⟨rfl, rfl, [], (List.append_nil _).symm, .nil _⟩

/-- **Fixed mode covers every file**, whether or not the end is announced. -/
theorem feed_fixed_covers (sha1 : List UInt8 → Checksum) (fileId : UInt32)
    (hf : Feeds X e o prev calls) :
    ∀ sc : Scanner, sc.isVar = false → 0 < sc.avgSize.toNat → sc.b1Offset = o →
      Covers 0 sc.ofs o → Covers 0 (sc.feed sha1 fileId calls).ofs X.length := by
  induction hf with
  | nil prev => intro sc _ _ _ h; exact h
  | @cons o prev c calls hlt hsize hb1 hb2 heof hrest ih =>
    intro sc hv havg ho h
    have hs : c.size < 2 ^ 32 := by
      unfold readBufferSize at hsize
      omega
    obtain ⟨hc, hoff, new, hofs, hcov⟩ := fixScanFrom_covers sha1 fileId c.b1 hs 0 sc havg
    rw [ho, Nat.zero_min, Nat.add_zero] at hcov
    unfold Scanner.feed
    rw [List.foldl_cons, Scanner.addData, hv]
    refine ih _ ((congrArg Scanner.Conf.isVar hc).trans hv) ?_ ?_ ?_
    · have := congrArg Scanner.Conf.avgSize hc
      change (Scanner.fixScanFrom sha1 fileId c.b1 c.size 0 sc).avgSize = sc.avgSize at this
      change 0 < (Scanner.fixScanFrom sha1 fileId c.b1 c.size 0 sc).avgSize.toNat
      rwa [this]
    · change (Scanner.fixScanFrom sha1 fileId c.b1 c.size 0 sc).b1Offset + c.size = _
      rw [hoff, ho]
    · change Covers 0 (Scanner.fixScanFrom sha1 fileId c.b1 c.size 0 sc).ofs _
      rw [hofs]
      exact h.append hcov

/-! ## Variable mode -/

/-- The blocks found, flushed or not, lie end to end, up to less than a block before the end;
**when they reach it.** -/
theorem Fresh.chain_end {s₀ : RabinState} (hfresh : Fresh s₀ sc) (X : List UInt8) (e : Bool) :
    ∃ t ≤ X.length, Chain (sc.marks X) (sc.limit X.length) 0 (spansOf sc X e) t ∧
      (t = X.length ↔
        e = true ∨ X = [] ∨ LastClosed (sc.marks X) (sc.limit X.length) X.length) ∧
      X.length < t + (sc.marks X).tmax := by
  have h1 := hfresh.tmin_pos X
  have h2 : (sc.marks X).tmin ≤ (sc.marks X).tmax := hfresh.tmin_le
  have hl := sc.limitOK X.length
  have hok := scanOK_run h1 h2 hl X.length le_rfl
  rcases e with - | -
  · refine ⟨_, hok.start_le, hok.chain, ?_, hok.lt_tmax⟩
    simp only [Bool.false_eq_true, false_or]
    rcases List.eq_nil_or_concat' X with rfl | ⟨Y, b, rfl⟩
    · simp [Scan.run]
    · rw [or_iff_right (by simp)]
      exact run_start_iff h1 h2 hl (by simp)
  · exact ⟨X.length, le_rfl, hfresh.chain X, by simp only [true_or], by omega⟩

/-- **Variable mode covers a file** when its end is announced, when it is empty, or
when the last block needs no flush. -/
theorem feed_covers_iff {s₀ : RabinState} (hfresh : Fresh s₀ sc) (sha1 : List UInt8 → Checksum)
    (fileId : UInt32) (hf : Feeds X e 0 prev calls) :
    Covers 0 (sc.feed sha1 fileId calls).ofs X.length ↔
      e = true ∨ X = [] ∨ LastClosed (sc.marks X) (sc.limit X.length) X.length := by
  have h1 := hfresh.tmin_pos X
  have h2 : (sc.marks X).tmin ≤ (sc.marks X).tmax := hfresh.tmin_le
  have h32 : (sc.marks X).tmax < 2 ^ 32 := UInt32.toNat_lt sc.tmax
  have hl := sc.limitOK X.length
  have hok := scanOK_run h1 h2 hl X.length le_rfl
  rw [(feed_scan hfresh sha1 fileId hf).ofs_eq]
  rcases e with - | -
  · -- nothing is flushed, so the blocks found have to reach the end
    have hout : spansOf sc X false = (Scan.run (sc.marks X) sc.boundary X.length).out := rfl
    have hcov := chain_covers sha1 fileId X h1 h2 h32 hok.chain
    rw [hout]
    have hstart : Covers 0 ((Scan.run (sc.marks X) sc.boundary X.length).out.map
        (spanRecord sha1 fileId X)) X.length ↔
        (Scan.run (sc.marks X) sc.boundary X.length).start = X.length := by
      constructor
      · intro h
        rw [← hcov.sizeOf_eq]
        exact h.sizeOf_eq
      · intro h
        rwa [h] at hcov
    rw [hstart]
    rcases List.eq_nil_or_concat' X with rfl | ⟨Y, b, rfl⟩
    · simp [Scan.run]
    · have hpos : 0 < (Y ++ [b]).length := by simp
      have hne : Y ++ [b] ≠ [] := by simp
      simp only [Bool.false_eq_true, hne, false_or]
      exact run_start_iff h1 h2 hl hpos
  · simp only [true_or, iff_true]
    exact chain_covers sha1 fileId X h1 h2 h32 (hfresh.chain X)

/-- **When the log of a scan covers the file.** In fixed mode it always does. In
variable mode it does unless the file is a positive number of full buffers, so
that no read falls short, and its last block is cut short by the end. -/
theorem scan_covers_iff (sha1 : List UInt8 → Checksum) (fileId : UInt32) (scanners : List Scanner)
    (X p1 p2 : List UInt8) (mem : Uninit) (var : Bool) {kb : ℤ} (h1 : 1 ≤ kb) (h2 : kb ≤ 2048)
    (F : ℕ) (dataout : Bool) {i : ℕ}
    (hi : scanners[i]? = some (Scanner.new mem var kb F dataout)) :
    ∃ sc, (scanData sha1 fileId scanners (LocalFSReader.open X true) p1 p2).scanners[i]? = some sc ∧
      (Covers 0 sc.ofs X.length ↔
        var = false ∨ X.length % readBufferSize ≠ 0 ∨ X = [] ∨
          LastClosed ((Scanner.new mem var kb F dataout).marks X)
            ((Scanner.new mem var kb F dataout).limit X.length) X.length) := by
  obtain ⟨calls, hf, hs⟩ := scanData_feeds sha1 fileId scanners X p1 p2
  refine ⟨_, by rw [hs, List.getElem?_map, hi]; rfl, ?_⟩
  rcases var with - | -
  · simp only [true_or, iff_true]
    obtain ⟨havg, -⟩ := new_params mem F dataout false h1 h2
    exact feed_fixed_covers sha1 fileId hf _ rfl (by omega) rfl (.nil 0)
  · obtain ⟨s₀, hfresh⟩ := fresh_new mem F dataout h1 h2
    rw [feed_covers_iff hfresh sha1 fileId hf]
    simp only [decide_eq_true_eq, Bool.true_eq_false, false_or]

/-- A full buffer of zeros, at an average size of 1 KB. -/
theorem scan_covers_iff_zeros :
    ∃ sc, (scanData zerosDigest 1 twoScanners
        (LocalFSReader.open (List.replicate readBufferSize 0) true) [9, 9] [8]).scanners[1]? = some sc ∧
      (Covers 0 sc.ofs (List.replicate readBufferSize (0 : UInt8)).length ↔
        true = false ∨ (List.replicate readBufferSize (0 : UInt8)).length % readBufferSize ≠ 0 ∨
          List.replicate readBufferSize (0 : UInt8) = [] ∨
          LastClosed ((Scanner.new default true 1 0 true).marks (List.replicate readBufferSize 0))
            ((Scanner.new default true 1 0 true).limit
              (List.replicate readBufferSize (0 : UInt8)).length)
            (List.replicate readBufferSize (0 : UInt8)).length) :=
  scan_covers_iff zerosDigest 1 twoScanners (List.replicate readBufferSize 0) [9, 9] [8] default true
    (by decide) (by decide) 0 true rfl

/-- The end of zeros closes a block only at a multiple of `Tmax`. -/
theorem zeros_not_lastClosed {n : ℕ} (hn : 0 < n) (h : ¬ sc.tmax.toNat ∣ n)
    (hF : sc.fixBoundarySize = 0) (hx : 1 ≤ sc.tmax.toNat) (hd : 2 ≤ sc.d.toNat)
    (hd' : 2 ≤ sc.dDash.toNat) :
    ¬ LastClosed (sc.marks (List.replicate n 0)) (sc.limit n) n := by
  rintro ⟨L, s, hc, hcl⟩
  have hm := marks_zeros sc hd hd' n
  have hl : ∀ s, sc.limit n s = n := fun s => by rw [Scanner.limit, if_pos hF]
  -- without marks every block has length `Tmax`
  have hs := hc.start_dvd (fun q _ => (hm q).1) (fun q _ => (hm q).2) hx hl (Nat.dvd_zero _)
    (List.mem_append_right L (List.mem_singleton_self (s, n - 1)))
  rcases hcl with ⟨-, hp⟩ | hfull
  · rw [(hm (n - 1)).1] at hp
    cases hp
  · rw [Scanner.marks_tmax] at hs hfull
    apply h
    rw [show n = s + sc.tmax.toNat by omega]
    exact Nat.dvd_add hs dvd_rfl

/-- **A full buffer of zeros** at an average size of 3 KB: the bytes after the last
block of 12 KB are not in the log. -/
theorem scan_misses_zeros :
    ∃ sc, (scanData (fun _ => default) 0 [Scanner.new default true 3 0 false]
        (LocalFSReader.open (List.replicate readBufferSize 0) true) [] []).scanners = [sc] ∧
      ¬ Covers 0 sc.ofs readBufferSize := by
  obtain ⟨calls, hf, hs⟩ := scanData_feeds (fun _ => default) 0 [Scanner.new default true 3 0 false]
    (List.replicate readBufferSize 0) [] []
  obtain ⟨s₀, hfresh⟩ := fresh_new default 0 false (show (1 : ℤ) ≤ 3 by decide) (by decide)
  obtain ⟨-, -, htmax, hd, hd'⟩ :=
    new_params default 0 false true (show (1 : ℤ) ≤ 3 by decide) (by decide)
  refine ⟨_, hs, ?_⟩
  intro hcov
  have hiff := feed_covers_iff hfresh (fun _ => default) 0 hf
  rw [List.length_replicate] at hiff
  have hpos : 0 < readBufferSize := by decide
  rcases hiff.1 hcov with he | h0 | hlast
  · simp at he
  · rw [List.replicate_eq_nil_iff] at h0
    omega
  · refine zeros_not_lastClosed hpos ?_ rfl (by omega) (by omega) (by omega) hlast
    rw [htmax]
    decide

/-- Whether the last block of a file is recorded by a new scanner: it is in fixed mode, the last
read falls short, or the block needs no flush. -/
def Whole (sc : Scanner) (X : List UInt8) : Prop :=
  sc.isVar = false ∨ X.length % readBufferSize ≠ 0 ∨ X = [] ∨
    LastClosed (sc.marks X) (sc.limit X.length) X.length

/-- In variable mode, by the end-of-file flag that the last call has. -/
theorem whole_iff {sc : Scanner} (hvar : sc.isVar = true) (X : List UInt8) :
    Whole sc X ↔ decide (X.length % readBufferSize ≠ 0) = true ∨ X = [] ∨
      LastClosed (sc.marks X) (sc.limit X.length) X.length := by
  rw [decide_eq_true_eq]
  exact or_iff_right (by rw [hvar]; exact Bool.noConfusion)

end DedupSim
