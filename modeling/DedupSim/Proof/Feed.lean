import DedupSim.Proof.Output
import DedupSim.Proof.Rabin
import DedupSim.Proof.VarScan

/-!
# Feeding a file to a scanner

* `Feeds`: the calls of `addData` that feed a file, piece by piece.
* `Breakpoint.Exact`: a breakpoint reads loaded data only, and reads its block.
* `feed_scan`: **what a variable-mode scanner has recorded after a file** is what
  the one-pass search finds in it, flushed if the end was announced.
* `feed_not_faulty`: **a scanner of 1 to 2048 KB has a defined run**, and in fixed mode every
  scanner has whose average size is not zero (`feed_fixed_faulty`).
-/

namespace DedupSim

open Tttd

variable {sha1 : List UInt8 → Checksum} {fileId : UInt32} {sc sc₀ : Scanner}
  {b1 b2 prev X : List UInt8} {o size : ℕ} {e : Bool} {calls : List Call}

/-- The calls that feed `X` from `o` on, when `b1` was `prev` before: full buffers
except for the last, each with the buffer before it. `e` says whether the last
call announces the end. -/
inductive Feeds (X : List UInt8) (e : Bool) : ℕ → List UInt8 → List Call → Prop where
  | nil (prev : List UInt8) : Feeds X e X.length prev []
  | cons {o : ℕ} {prev : List UInt8} {c : Call} {calls : List Call} (hlt : o < X.length)
      (hsize : c.size = min readBufferSize (X.length - o))
      (hb1 : c.b1.take c.size = slice X o c.size) (hb2 : c.b2 = prev)
      (heof : c.eof = (e && decide (o + c.size = X.length)))
      (h : Feeds X e (o + c.size) c.b1 calls) : Feeds X e o prev (c :: calls)

theorem Feeds.nil_of_le (h : Feeds X e o prev calls) (ho : X.length ≤ o) : calls = [] := by
  cases h with
  | nil => rfl
  | cons hlt => omega

/-- `prev` holds the buffer's worth of `X` before `o`, unless `o` is its start. -/
def Linked (X : List UInt8) (o : ℕ) (prev : List UInt8) : Prop :=
  o = 0 ∨ readBufferSize ≤ o ∧ prev.take readBufferSize = slice X (o - readBufferSize) readBufferSize

/-- What a breakpoint reads of either buffer was loaded from `X`, and is its block. -/
structure Breakpoint.Exact (X : List UInt8) (bp : Breakpoint) : Prop where
  b2_nonneg : 0 ≤ bp.b2.start
  b2_le : bp.b2.start + bp.b2.len ≤ readBufferSize
  b2_loaded : bp.b2.len ≠ 0 → readBufferSize ≤ bp.b1Offset
  b1_nonneg : 0 ≤ bp.b1.start
  b1_le : bp.b1.start + bp.b1.len ≤ min readBufferSize (X.length - bp.b1Offset)
  bytes : bp.bytes = slice X bp.newStart (bp.offset + 1 - bp.newStart)

/-- Data of the new buffer. -/
theorem slice_new (hb1 : b1.take size = slice X o size) {i n : ℕ} (h : i + n ≤ size) :
    slice b1 i n = slice X (o + i) n := by
  rw [← slice_take h, hb1, slice_slice h]

/-- Data of the old buffer. -/
theorem slice_old (hl : Linked X o prev) (ho : o ≠ 0) {i n : ℕ} (h : i + n ≤ readBufferSize) :
    slice prev i n = slice X (o - readBufferSize + i) n := by
  obtain h0 | ⟨-, hp⟩ := hl
  · exact absurd h0 ho
  · rw [← slice_take h, hp, slice_slice h]

/-- **Every break reads exactly its block**, in each of the three cases, since no
block starts a whole buffer before the new data. -/
theorem breakAt_exact (hl : Linked X o prev) (hsize : size = min readBufferSize (X.length - o))
    (hb1 : b1.take size = slice X o size) {tmax : ℕ} (hmax : tmax ≤ readBufferSize) :
    GoodFor (Breakpoint.Exact X) b1 prev o size tmax := by
  intro start e hle hlt hlag
  unfold breakAt Scanner.ranges
  rcases Nat.lt_or_ge start o with hold | hnew
  · -- the block starts in the old buffer, less than a buffer before the new data
    have ho : o ≠ 0 := by omega
    have hlo : readBufferSize ≤ o := by
      obtain h0 | ⟨h, -⟩ := hl
      · exact absurd h0 ho
      · exact h
    have hz : ((start : ℤ) + readBufferSize - o).toNat = start + readBufferSize - o := by omega
    rw [if_neg (by omega)]
    by_cases heo : e < o
    · rw [if_pos heo]
      refine ⟨?_, ?_, fun _ => hlo, le_rfl, ?_, ?_⟩
      · simp only; omega
      · simp only; omega
      · simp only; omega
      · have hpos : o - readBufferSize + (start + readBufferSize - o) = start := by omega
        simp only [Range.read, hz]
        rw [slice_old hl ho (by omega), hpos]
        simp [slice]
    · rw [if_neg heo]
      refine ⟨?_, ?_, fun _ => hlo, le_rfl, ?_, ?_⟩
      · simp only; omega
      · simp only; omega
      · simp only; omega
      · -- the two halves meet at the first new byte
        have hpos : o - readBufferSize + (start + readBufferSize - o) = start := by omega
        have hmeet : o + 0 = start + (o - start) := by omega
        have hsize : o - start + (e - o + 1) = e + 1 - start := by omega
        simp only [Range.read, hz, Int.toNat_zero]
        rw [slice_old hl ho (by omega), slice_new hb1 (by omega), hpos, hmeet, slice_append, hsize]
  · rw [if_pos hnew]
    refine ⟨le_rfl, ?_, fun h => absurd rfl h, ?_, ?_, ?_⟩
    · simp only; omega
    · simp only; omega
    · simp only; omega
    · have hz : ((start : ℤ) - o).toNat = start - o := by omega
      simp only [Range.read, hz]
      rw [slice_new hb1 (by omega), show o + (start - o) = start by omega]
      simp [slice]

/-! ## A call of `varScan` -/

variable {s₀ : RabinState} {G : Breakpoint → Prop}

/-- **A call that does not announce the end.** -/
theorem Refines.varScan (hinit : rabinInit rabinPoly rabinWindowSize = .ok s₀)
    (hG : GoodFor G b1 b2 o size sc₀.tmax.toNat) (h2 : 2 ≤ sc₀.tmin.toNat)
    (hmm : sc₀.tmin.toNat ≤ sc₀.tmax.toNat)
    (h : Refines sha1 fileId s₀ G sc₀ X o (hashFrom sc₀.fixBoundarySize o) o sc
      (Scan.run (sc₀.marks X) sc₀.boundary o))
    (hX : o + size ≤ X.length) (hb : ∀ p, p < size → b1.getD p 0 = X.getD (o + p) 0) :
    Refines sha1 fileId s₀ G sc₀ X (o + size) (hashFrom sc₀.fixBoundarySize (o + size)) (o + size)
      (sc.varScan sha1 fileId b1 b2 size false) (Scan.run (sc₀.marks X) sc₀.boundary (o + size)) := by
  have hr := h.varScanLoop hinit hG h2 hmm hX hb size le_rfl
  unfold Scanner.varScan
  rw [if_neg (by rw [h.hash]; simp)]
  exact ⟨hr.conf, by simp only [Bool.false_eq_true, false_and, if_false]; rw [hr.b1Offset], hr.start,
    hr.backup, hr.backup_pos, hr.hash, ⟨hr.logged.out, hr.logged.log, hr.logged.data, hr.logged.good⟩⟩

/-- **The call that announces the end** flushes the open block. -/
theorem Refines.varScan_eof (hinit : rabinInit rabinPoly rabinWindowSize = .ok s₀)
    (hG : GoodFor G b1 b2 o size sc₀.tmax.toNat) (h2 : 2 ≤ sc₀.tmin.toNat)
    (hmm : sc₀.tmin.toNat ≤ sc₀.tmax.toNat)
    (h : Refines sha1 fileId s₀ G sc₀ X o (hashFrom sc₀.fixBoundarySize o) o sc
      (Scan.run (sc₀.marks X) sc₀.boundary o))
    (hX : o + size = X.length) (hb : ∀ p, p < size → b1.getD p 0 = X.getD (o + p) 0) :
    Logged sha1 fileId G sc₀ ((Scan.run (sc₀.marks X) sc₀.boundary X.length).finish X.length)
      (sc.varScan sha1 fileId b1 b2 size true) := by
  have hr := h.varScanLoop hinit hG h2 hmm hX.le hb size le_rfl
  have hok := scanOK_run (M := sc₀.marks X) (by rw [Scanner.marks_tmin]; omega) hmm
    (sc₀.limitOK X.length) X.length le_rfl
  have htm := hok.lt_tmax
  have h32 := UInt32.toNat_lt sc₀.tmax
  rw [Scanner.marks_tmax] at htm
  rw [hX] at hr
  unfold Scanner.varScan
  rw [if_neg (by rw [h.hash]; simp)]
  simp only [true_and, hr.start, hr.b1Offset, show size + o = X.length by omega, Scan.finish]
  split
  · -- what is left is a block, shorter than `Tmax`
    rename_i hlt
    have hl := hr.logged.addBreakpoint b1 b2 (e := X.length - 1)
      (by rw [hr.start]; omega) (by rw [hr.start]; omega)
      (by rw [hr.start, hr.b1Offset]; exact hG _ _ (by omega) (by omega) (by omega))
    rw [hr.start] at hl
    exact ⟨hl.out, hl.log, hl.data, hl.good⟩
  · exact ⟨hr.logged.out, hr.logged.log, hr.logged.data, hr.logged.good⟩

/-! ## A whole file -/

/-- The blocks the search finds in `X`, flushed if the end is announced. -/
def spansOf (sc₀ : Scanner) (X : List UInt8) (e : Bool) : List (ℕ × ℕ) :=
  if e then (Scan.run (sc₀.marks X) sc₀.boundary X.length).finish X.length
  else (Scan.run (sc₀.marks X) sc₀.boundary X.length).out

theorem getD_new (hb1 : b1.take size = slice X o size) {p : ℕ}
    (hp : p < size) : b1.getD p 0 = X.getD (o + p) 0 := by
  have h := congrArg (fun l => l.getD p 0) hb1
  simp only [slice, List.getD_eq_getElem?_getD, List.getElem?_take_of_lt hp,
    List.getElem?_drop] at h ⊢
  exact h

/-- The rest of a file, from a scanner that has read up to `o`. -/
theorem feed_refines (hinit : rabinInit rabinPoly rabinWindowSize = .ok s₀)
    (hvar : sc₀.isVar = true) (h2 : 2 ≤ sc₀.tmin.toNat) (hmm : sc₀.tmin.toNat ≤ sc₀.tmax.toNat)
    (hmax : sc₀.tmax.toNat ≤ readBufferSize) (hf : Feeds X e o prev calls) :
    ∀ sc, o < X.length → Linked X o prev →
      Refines sha1 fileId s₀ (Breakpoint.Exact X) sc₀ X o (hashFrom sc₀.fixBoundarySize o) o sc
        (Scan.run (sc₀.marks X) sc₀.boundary o) →
      Logged sha1 fileId (Breakpoint.Exact X) sc₀ (spansOf sc₀ X e) (sc.feed sha1 fileId calls) := by
  induction hf with
  | nil prev => intro sc hlt; omega
  | @cons o prev c calls hlt hsize hb1 hb2 heof hrest ih =>
    intro sc _ hlink h
    have hX : o + c.size ≤ X.length := by omega
    have hG := breakAt_exact hlink hsize hb1 hmax
    have hb : ∀ p, p < c.size → c.b1.getD p 0 = X.getD (o + p) 0 := fun p hp => getD_new hb1 hp
    have hv : sc.isVar = true := (congrArg Scanner.Conf.isVar h.conf).trans hvar
    unfold Scanner.feed
    rw [List.foldl_cons, Scanner.addData, if_pos hv, hb2]
    by_cases hend : o + c.size = X.length
    · -- the last piece: nothing is left to feed
      obtain rfl := hrest.nil_of_le hend.ge
      rw [List.foldl_nil, heof]
      cases e with
      | true =>
        simpa [spansOf, hend] using h.varScan_eof hinit hG h2 hmm hend hb
      | false =>
        have hr := (h.varScan hinit hG h2 hmm hX hb).logged
        rw [hend] at hr
        simpa [spansOf] using hr
    · -- a full piece: it is the old buffer of the next call
      have he : c.eof = false := by rw [heof]; simp [hend]
      have hr := h.varScan hinit hG h2 hmm hX hb
      rw [he]
      refine ih _ (by omega) (.inr ⟨by omega, ?_⟩) hr
      rw [show readBufferSize = c.size by omega, hb1, Nat.add_sub_cancel]

/-! ## A new scanner -/

/-- What the constructor leaves in variable mode, for an average size of at most 2 MB. -/
structure Fresh (s₀ : RabinState) (sc₀ : Scanner) : Prop where
  isVar : sc₀.isVar = true
  tmin : 512 ≤ sc₀.tmin.toNat
  tmin_le : sc₀.tmin.toNat ≤ sc₀.tmax.toNat
  tmax_le : sc₀.tmax.toNat ≤ readBufferSize
  init : rabinInit rabinPoly rabinWindowSize = .ok s₀
  s : sc₀.s = some s₀
  newStart : sc₀.newStart = 0
  backupBreak : sc₀.backupBreak = 0
  b1Offset : sc₀.b1Offset = 0
  ofs : sc₀.ofs = []
  breaks : sc₀.breaks = []

theorem rabinInit_scanner :
    ∃ s₀, rabinInit rabinPoly rabinWindowSize = .ok s₀ ∧ RabinOK rabinPoly rabinWindowSize [] s₀ :=
  rabinInit_ok (by decide) (by decide) (by decide)

section New

variable (mem : Uninit) {kb : ℤ} (F : ℕ) (dataout : Bool)

/-- The average size is the one asked for, if it is less than 4 GB. -/
theorem new_avgSize (var : Bool) (h1 : 1 ≤ kb) (h2 : kb < 2 ^ 22) :
    (Scanner.new mem var kb F dataout).avgSize.toNat = 1024 * kb.toNat := by
  obtain ⟨k, rfl⟩ : ∃ k : ℕ, kb = k := ⟨kb.toNat, by omega⟩
  rw [Int.toNat_natCast]
  have hk : (UInt32.ofInt (k : ℤ)).toNat = k := by
    simp [UInt32.ofInt]; omega
  change ((0x400 : UInt32) * UInt32.ofInt (k : ℤ)).toNat = 1024 * k
  rw [UInt32.toNat_mul, hk]
  simp; omega

/-- The parameters the constructor computes, where nothing overflows. -/
theorem new_params (var : Bool) (h1 : 1 ≤ kb) (h2 : kb ≤ 2048) :
    (Scanner.new mem var kb F dataout).avgSize.toNat = 1024 * kb.toNat ∧
      (Scanner.new mem var kb F dataout).tmin.toNat = 512 * kb.toNat ∧
      (Scanner.new mem var kb F dataout).tmax.toNat = 4096 * kb.toNat ∧
      (Scanner.new mem var kb F dataout).d.toNat = 512 * kb.toNat ∧
      (Scanner.new mem var kb F dataout).dDash.toNat = 256 * kb.toNat := by
  have ha := new_avgSize mem F dataout var h1 (h2.trans_lt (by decide))
  obtain ⟨k, rfl⟩ : ∃ k : ℕ, kb = k := ⟨kb.toNat, by omega⟩
  rw [Int.toNat_natCast] at ha ⊢
  change ((0x400 : UInt32) * UInt32.ofInt (k : ℤ)).toNat = 1024 * k at ha
  have ht : (((0x400 : UInt32) * UInt32.ofInt (k : ℤ)) >>> 1).toNat = 512 * k := by
    rw [UInt32.toNat_shiftRight, ha]
    simp [Nat.shiftRight_eq_div_pow]; omega
  have hd : ((0x400 : UInt32) * UInt32.ofInt (k : ℤ) -
      ((0x400 : UInt32) * UInt32.ofInt (k : ℤ)) >>> 1).toNat = 512 * k := by
    rw [UInt32.toNat_sub_of_le _ _ (UInt32.le_iff_toNat_le.2 (by omega)), ha, ht]
    omega
  refine ⟨ha, ht, ?_, hd, ?_⟩
  · change (((0x400 : UInt32) * UInt32.ofInt (k : ℤ)) <<< 2).toNat = 4096 * k
    rw [UInt32.toNat_shiftLeft, ha]
    simp [Nat.shiftLeft_eq]; omega
  · change (((0x400 : UInt32) * UInt32.ofInt (k : ℤ) -
      ((0x400 : UInt32) * UInt32.ofInt (k : ℤ)) >>> 1) >>> 1).toNat = 256 * k
    rw [UInt32.toNat_shiftRight, hd]
    simp [Nat.shiftRight_eq_div_pow]; omega

theorem fresh_new (h1 : 1 ≤ kb) (h2 : kb ≤ 2048) :
    ∃ s₀, Fresh s₀ (Scanner.new mem true kb F dataout) := by
  obtain ⟨s₀, h0, -⟩ := rabinInit_scanner
  obtain ⟨-, ht, hx, -, -⟩ := new_params mem F dataout true h1 h2
  refine ⟨s₀, rfl, by omega, by omega, ?_, h0, ?_, rfl, rfl, rfl, rfl, rfl⟩
  · unfold readBufferSize; omega
  · simp [Scanner.new, h0, Except.toOption]

end New

/-- A fresh scanner is at the start of the search. -/
theorem Fresh.refines (h : Fresh s₀ sc₀) (sha1 : List UInt8 → Checksum) (fileId : UInt32)
    (X : List UInt8) :
    Refines sha1 fileId s₀ (Breakpoint.Exact X) sc₀ X 0 (hashFrom sc₀.fixBoundarySize 0) 0 sc₀
      (Scan.run (sc₀.marks X) sc₀.boundary 0) := by
  refine ⟨rfl, h.b1Offset, h.newStart, h.backupBreak, by simp [Scan.run], ?_, ?_, ?_, ?_, ?_⟩
  · simp [h.s, slice]
  · rw [h.breaks]; rfl
  · rw [h.breaks, h.ofs]; rfl
  · rw [h.breaks]; rfl
  · simp [h.breaks]

/-- **What a variable-mode scanner has recorded after a file.** -/
theorem feed_scan (h : Fresh s₀ sc₀) (sha1 : List UInt8 → Checksum) (fileId : UInt32)
    (hf : Feeds X e 0 prev calls) :
    Logged sha1 fileId (Breakpoint.Exact X) sc₀ (spansOf sc₀ X e)
      (sc₀.feed sha1 fileId calls) := by
  have h2 := h.tmin
  rcases Nat.eq_zero_or_pos X.length with hX | hX
  · -- an empty file is not fed
    obtain rfl := hf.nil_of_le hX.le
    have hl := (h.refines sha1 fileId X).logged
    have hs : spansOf sc₀ X e = (Scan.run (sc₀.marks X) sc₀.boundary 0).out := by
      simp [spansOf, hX, Scan.run, Scan.finish]
    rwa [hs]
  · exact feed_refines h.init h.isVar (by omega) h.tmin_le h.tmax_le hf sc₀ hX (.inl rfl)
      (h.refines sha1 fileId X)

/-- The record of the block at `r` of `X`. -/
def spanRecord (sha1 : List UInt8 → Checksum) (fileId : UInt32) (X : List UInt8) (r : ℕ × ℕ) :
    Block :=
  { size := UInt32.ofNat (r.2 + 1 - r.1)
    fileId := fileId
    offset := UInt64.ofNat r.1
    cksum := sha1 (slice X r.1 (r.2 + 1 - r.1)) }

/-- The log, from the blocks alone. -/
theorem Logged.ofs_eq {L : List (ℕ × ℕ)} (h : Logged sha1 fileId (Breakpoint.Exact X) sc₀ L sc) :
    sc.ofs = L.map (spanRecord sha1 fileId X) := by
  rw [h.log, ← h.out, List.map_map]
  apply List.map_congr_left
  intro bp hbp
  simp only [Breakpoint.record, (h.good bp hbp).bytes]
  rfl

theorem Fresh.tmin_pos (h : Fresh s₀ sc₀) (X : List UInt8) : 1 ≤ (sc₀.marks X).tmin := by
  have := h.tmin
  rw [Scanner.marks_tmin]
  omega

/-- The blocks of the rule. -/
theorem Fresh.chain (h : Fresh s₀ sc₀) (X : List UInt8) :
    Chain (sc₀.marks X) (sc₀.limit X.length) 0 (spansOf sc₀ X true) X.length := by
  exact run_chain (h.tmin_pos X) h.tmin_le (sc₀.limitOK X.length)

/-! ## Faults -/

theorem fixScanFrom_breaks (sha1 : List UInt8 → Checksum) (fileId : UInt32) (b1 : List UInt8)
    (size start : ℕ) (sc : Scanner) :
    (sc.fixScanFrom sha1 fileId b1 size start).breaks = sc.breaks ∧
      (sc.fixScanFrom sha1 fileId b1 size start).b1Offset = sc.b1Offset ∧
      (sc.fixScanFrom sha1 fileId b1 size start).isVar = sc.isVar := by
  induction hn : size - start using Nat.strong_induction_on generalizing start sc with
  | _ n ih =>
    subst hn
    unfold Scanner.fixScanFrom
    split
    · exact ih _ (by omega) _ _ rfl
    · exact ⟨rfl, rfl, rfl⟩

/-- Fixed mode makes no breakpoint, and goes on to the end of the file. -/
theorem feed_fixed_breaks (sha1 : List UInt8 → Checksum) (fileId : UInt32)
    (hf : Feeds X e o prev calls) : ∀ sc : Scanner, sc.isVar = false → sc.b1Offset = o →
      (sc.feed sha1 fileId calls).breaks = sc.breaks ∧
        (sc.feed sha1 fileId calls).b1Offset = X.length := by
  induction hf with
  | nil prev => exact fun sc _ ho => ⟨rfl, ho⟩
  | @cons o prev c calls hlt hsize hb1 hb2 heof hrest ih =>
    intro sc hv ho
    obtain ⟨hbreaks, hoff, hvar⟩ := fixScanFrom_breaks sha1 fileId c.b1 c.size 0 sc
    obtain ⟨hbreaks', hoff'⟩ := ih (sc.fixScan sha1 fileId c.b1 c.size) (hvar.trans hv)
      (by rw [← ho, ← hoff]; rfl)
    unfold Scanner.feed at hbreaks' hoff' ⊢
    rw [List.foldl_cons, Scanner.addData, hv, if_neg Bool.false_ne_true]
    exact ⟨hbreaks'.trans hbreaks, hoff'⟩

/-- **In fixed mode** a scanner comes to no end on a file if its average size is zero. -/
theorem feed_fixed_faulty (sha1 : List UInt8 → Checksum) (fileId : UInt32) (mem : Uninit) (kb : ℤ)
    (F : ℕ) (dataout : Bool) (hf : Feeds X e 0 prev calls) :
    ((Scanner.new mem false kb F dataout).feed sha1 fileId calls).faulty = true ↔
      (Scanner.new mem false kb F dataout).avgSize = 0 ∧ X ≠ [] := by
  obtain ⟨hbreaks, hoff⟩ := feed_fixed_breaks sha1 fileId hf (Scanner.new mem false kb F dataout)
    rfl rfl
  obtain ⟨-, havg⟩ := Scanner.feed_settings sha1 fileId calls (Scanner.new mem false kb F dataout)
  have hnil : (Scanner.new mem false kb F dataout).breaks = [] := rfl
  unfold Scanner.faulty
  rw [hbreaks, havg, hoff, hnil, List.any_nil, Bool.false_or, Bool.and_eq_true,
    decide_eq_true_iff, decide_eq_true_iff, List.length_pos_iff]

/-- **A scanner of 1 to 2048 KB has a defined run.** -/
theorem feed_not_faulty (sha1 : List UInt8 → Checksum) (fileId : UInt32) (mem : Uninit) (var : Bool)
    {kb : ℤ} (h1 : 1 ≤ kb) (h2 : kb ≤ 2048) (F : ℕ) (dataout : Bool)
    (hf : Feeds X e 0 prev calls) :
    ((Scanner.new mem var kb F dataout).feed sha1 fileId calls).faulty = false := by
  obtain ⟨havg, -⟩ := new_params mem F dataout var h1 h2
  have hne : (Scanner.new mem var kb F dataout).avgSize ≠ 0 := by
    intro h
    rw [h, UInt32.toNat_zero] at havg
    omega
  rcases var with - | -
  · rw [← Bool.not_eq_true, feed_fixed_faulty sha1 fileId mem kb F dataout hf]
    exact fun h => hne h.1
  · obtain ⟨s₀, hfresh⟩ := fresh_new mem F dataout h1 h2
    have hlog := feed_scan hfresh sha1 fileId hf
    obtain ⟨-, havg'⟩ :=
      Scanner.feed_settings sha1 fileId calls (Scanner.new mem true kb F dataout)
    have hinside : ((Scanner.new mem true kb F dataout).feed sha1 fileId calls).breaks.any
        (fun bp => bp.b2.start < 0) = false := by
      rw [List.any_eq_false]
      intro bp hbp
      rw [decide_eq_true_iff]
      exact not_lt.2 (hlog.good bp hbp).b2_nonneg
    unfold Scanner.faulty
    rw [hinside, havg', decide_eq_false hne, Bool.false_and, Bool.false_or]

end DedupSim
