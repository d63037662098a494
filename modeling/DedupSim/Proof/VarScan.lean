import DedupSim.Lib.TttdScan
import DedupSim.Spec.Scanner
import Mathlib.Data.List.GetD

/-!
# The scanner refines the one-pass search

* `addBreakpoint_*`: a call of `addBreakpoint` appends one breakpoint and its
  record, and touches nothing the search depends on.
* `rabinAt`: the fingerprint at a position of the file, from the last boundary on.
* `Refines`: what ties a scanner that has read `q` bytes to a state of the
  one-pass search; `Refines.varScanByte` is the simulation step.
* `Feeds`: the calls that feed a file, piece by piece; `feed_refines` is the
  whole run.
-/

namespace DedupSim

open Tttd

variable {sha1 : List UInt8 → Checksum} {fileId : UInt32} {sc sc₀ : Scanner}
  {b1 b2 X : List UInt8} {offset p q : ℕ} {c : Scan}

/-! ## `addBreakpoint` -/

namespace Scanner

/-- The members that the constructor sets and nothing changes. -/
structure Conf where
  isVar : Bool
  avgSize : UInt32
  tmin : UInt32
  tmax : UInt32
  d : UInt32
  dDash : UInt32
  fixBoundarySize : ℕ

def conf (sc : Scanner) : Conf :=
  ⟨sc.isVar, sc.avgSize, sc.tmin, sc.tmax, sc.d, sc.dDash, sc.fixBoundarySize⟩

end Scanner

/-- The breakpoint a call of `addBreakpoint` makes. -/
def breakAt (newStart b1Offset : ℕ) (b1 b2 : List UInt8) (offset : ℕ) : Breakpoint :=
  let r := Scanner.ranges newStart b1Offset offset (offset + 1 - newStart)
  ⟨newStart, offset, b1Offset, r.1, r.2, r.1.read b2 ++ r.2.read b1⟩

/-- The log record of a breakpoint. -/
def Breakpoint.record (sha1 : List UInt8 → Checksum) (fileId : UInt32) (bp : Breakpoint) : Block :=
  { size := UInt32.ofNat (bp.offset + 1 - bp.newStart)
    fileId := fileId
    offset := UInt64.ofNat bp.newStart
    cksum := sha1 bp.bytes }

/-- A data stream entry: checksum, size, bytes. -/
def Breakpoint.entry (sha1 : List UInt8 → Checksum) (bp : Breakpoint) : List UInt8 :=
  (sha1 bp.bytes).toStream ++ LittleEndian.leBytes 4 (bp.offset + 1 - bp.newStart) ++ bp.bytes

/-- The data stream, if there is one, and the checksums in it, after a breakpoint. -/
def storeBreak (sha1 : List UInt8 → Checksum) (st : Option (List UInt8) × List Checksum)
    (bp : Breakpoint) : Option (List UInt8) × List Checksum :=
  match st.1 with
  | none => st
  | some out =>
    if sha1 bp.bytes ∈ st.2 then st else (some (out ++ bp.entry sha1), sha1 bp.bytes :: st.2)

namespace Scanner

/-- `addBreakpoint` leaves the state of the search as it is. -/
theorem addBreakpoint_frame (sha1 : List UInt8 → Checksum) (fileId : UInt32) (sc : Scanner)
    (b1 b2 : List UInt8) (offset : ℕ) :
    (sc.addBreakpoint sha1 fileId b1 b2 offset).conf = sc.conf ∧
      (sc.addBreakpoint sha1 fileId b1 b2 offset).newStart = sc.newStart ∧
      (sc.addBreakpoint sha1 fileId b1 b2 offset).backupBreak = sc.backupBreak ∧
      (sc.addBreakpoint sha1 fileId b1 b2 offset).b1Offset = sc.b1Offset ∧
      (sc.addBreakpoint sha1 fileId b1 b2 offset).s = sc.s := by
  unfold addBreakpoint saveData addBlock
  simp only
  split
  · exact ⟨rfl, rfl, rfl, rfl, rfl⟩
  · split
    · exact ⟨rfl, rfl, rfl, rfl, rfl⟩
    · split <;> exact ⟨rfl, rfl, rfl, rfl, rfl⟩

/-- **A call of `addBreakpoint`** on a block that is not empty and whose length
fits its field: one breakpoint, one record, and the data stream's entry. -/
theorem addBreakpoint_spec (sha1 : List UInt8 → Checksum) (fileId : UInt32) (b1 b2 : List UInt8)
    (h0 : sc.newStart ≤ offset) (h32 : offset + 1 - sc.newStart < 2 ^ 32) :
    (sc.addBreakpoint sha1 fileId b1 b2 offset).breaks =
        sc.breaks ++ [breakAt sc.newStart sc.b1Offset b1 b2 offset] ∧
      (sc.addBreakpoint sha1 fileId b1 b2 offset).ofs =
        sc.ofs ++ [(breakAt sc.newStart sc.b1Offset b1 b2 offset).record sha1 fileId] ∧
      ((sc.addBreakpoint sha1 fileId b1 b2 offset).ofsdata,
        (sc.addBreakpoint sha1 fileId b1 b2 offset).datamap) =
        storeBreak sha1 (sc.ofsdata, sc.datamap)
          (breakAt sc.newStart sc.b1Offset b1 b2 offset) := by
  have hn : (UInt32.ofNat (offset + 1 - sc.newStart)).toNat = offset + 1 - sc.newStart := by
    rw [UInt32.toNat_ofNat', Nat.mod_eq_of_lt h32]
  have hne : UInt32.ofNat (offset + 1 - sc.newStart) ≠ 0 := by
    intro h
    rw [h, UInt32.toNat_zero] at hn
    omega
  unfold addBreakpoint
  simp only [if_neg hne, hn]
  have hout : ∀ bytes (sc : Scanner), (sc.saveData bytes).breaks = sc.breaks ∧
      (sc.saveData bytes).ofs = sc.ofs ∧ (sc.saveData bytes).bl = sc.bl := by
    intro bytes sc
    unfold saveData
    split
    · exact ⟨rfl, rfl, rfl⟩
    · split <;> exact ⟨rfl, rfl, rfl⟩
  simp only [addBlock]
  refine ⟨?_, ?_, ?_⟩
  · rw [(hout _ _).1]; rfl
  · rw [(hout _ _).2.1, (hout _ _).2.2]; rfl
  · unfold saveData storeBreak
    cases hd : sc.ofsdata with
    | none => rfl
    | some out =>
      simp only [hn]
      split
      · rename_i hmem
        have hmem' : sha1 (breakAt sc.newStart sc.b1Offset b1 b2 offset).bytes ∈ sc.datamap := hmem
        rw [if_pos hmem']
      · rename_i hmem
        have hmem' : sha1 (breakAt sc.newStart sc.b1Offset b1 b2 offset).bytes ∉ sc.datamap := hmem
        rw [if_neg hmem']
        rfl

end Scanner

/-! ## The marks of a file -/

/-- The fingerprint after `bytes`, from a fresh state. -/
def rabinValue (bytes : List UInt8) : BitVec 64 :=
  match rabinInit rabinPoly rabinWindowSize with
  | .ok s => (rabinSlides s bytes).fingerprint
  | .error _ => 0

/-- The last multiple of `F` at or before `q`, and `0` if `F` is. -/
def lastMultiple (F q : ℕ) : ℕ := F * (q / F)

/-- The fingerprint at byte `q` of `X`, when hashing starts at the last multiple
of `F` up to `q`. -/
def rabinAt (F : ℕ) (X : List UInt8) (q : ℕ) : ℕ :=
  (rabinValue (slice X (lastMultiple F q) (q + 1 - lastMultiple F q))).toNat

namespace Scanner

/-- The thresholds of a scanner and the marks its two divisors set on a file. -/
def marks (sc : Scanner) (X : List UInt8) : Marks where
  tmin := sc.tmin.toNat
  tmax := sc.tmax.toNat
  primary q := rabinAt sc.fixBoundarySize X q % sc.d.toNat == sc.d.toNat - 1
  backup q := rabinAt sc.fixBoundarySize X q % sc.dDash.toNat == sc.dDash.toNat - 1

@[simp] theorem marks_tmin (sc : Scanner) (X : List UInt8) : (sc.marks X).tmin = sc.tmin.toNat := rfl

@[simp] theorem marks_tmax (sc : Scanner) (X : List UInt8) : (sc.marks X).tmax = sc.tmax.toNat := rfl

/-- The positions with a hard break before them. -/
def boundary (sc : Scanner) (q : ℕ) : Bool :=
  decide (sc.fixBoundarySize ≠ 0 ∧ q ≠ 0 ∧ q % sc.fixBoundarySize = 0)

/-- Where a block from `s` of a file of `n` bytes ends at the latest, however long:
at the least multiple of the boundary size after `s`, or at the end. -/
def limit (sc : Scanner) (n s : ℕ) : ℕ :=
  if sc.fixBoundarySize = 0 then n
  else min (sc.fixBoundarySize * (s / sc.fixBoundarySize + 1)) n

theorem limitOK (sc : Scanner) (n : ℕ) : LimitOK sc.boundary (sc.limit n) n := by
  unfold boundary limit
  by_cases hF : sc.fixBoundarySize = 0
  · simp only [hF, if_true]
    exact ⟨fun s h => h, fun s => le_rfl, fun s h => absurd h (lt_irrefl n), by simp⟩
  have hpos : 0 < sc.fixBoundarySize := Nat.pos_of_ne_zero hF
  simp only [if_neg hF]
  set F := sc.fixBoundarySize
  have hnext : ∀ s, s < F * (s / F + 1) := by
    intro s
    have := Nat.lt_mul_div_succ s hpos
    simpa using this
  refine ⟨fun s h => lt_min (hnext s) h, fun s => min_le_right _ _, ?_, ?_⟩
  · intro s h
    have he : min (F * (s / F + 1)) n = F * (s / F + 1) := min_eq_left (by
      rcases min_lt_iff.1 h with h | h
      · exact le_of_lt h
      · exact absurd h (lt_irrefl n))
    rw [he]
    have := hnext s
    simp only [ne_eq, Nat.mul_mod_right, and_true, decide_eq_true_eq]
    exact ⟨hF, by omega⟩
  · intro s r h1 h2
    simp only [decide_eq_false_iff_not]
    rintro ⟨-, -, hr⟩
    have hr2 : r < F * (s / F + 1) := lt_of_lt_of_le h2 (min_le_left _ _)
    obtain ⟨k, rfl⟩ := Nat.dvd_of_mod_eq_zero hr
    have h3 : k < s / F + 1 := lt_of_mul_lt_mul_left hr2 (Nat.zero_le F)
    have h4 := Nat.mul_div_le s F
    have h5 : F * k ≤ F * (s / F) := Nat.mul_le_mul_left F (by omega)
    omega

end Scanner

/-- Hashing goes on from the last multiple except at a multiple. -/
theorem lastMultiple_pred {F : ℕ} (hq : ¬ (F ≠ 0 ∧ q + 1 ≠ 0 ∧ (q + 1) % F = 0)) :
    lastMultiple F (q + 1) = lastMultiple F q := by
  unfold lastMultiple
  by_cases hF : F = 0
  · simp [hF]
  have hm : (q + 1) % F ≠ 0 := fun h => hq ⟨hF, by omega, h⟩
  rw [Nat.succ_div, if_neg (fun hd => hm (Nat.mod_eq_zero_of_dvd hd)), Nat.add_zero]

theorem lastMultiple_self {F : ℕ} (hq : q % F = 0) : lastMultiple F q = q := by
  unfold lastMultiple
  exact Nat.mul_div_cancel' (Nat.dvd_of_mod_eq_zero hq)

theorem lastMultiple_le (F q : ℕ) : lastMultiple F q ≤ q := Nat.mul_div_le q F

theorem slice_concat {a : ℕ} (ha : a ≤ q) (hq : q < X.length) :
    slice X a (q + 1 - a) = slice X a (q - a) ++ [X.getD q 0] := by
  unfold slice
  have hlt : q - a < (X.drop a).length := by simp; omega
  rw [show q + 1 - a = (q - a) + 1 by omega, List.take_add_one, List.getElem?_eq_getElem hlt,
    List.getElem_drop, List.getD_eq_getElem _ _ hq]
  simp [show a + (q - a) = q by omega]

/-! ## The simulation -/

/-- The first and last position of a breakpoint's block. -/
def Breakpoint.span (bp : Breakpoint) : ℕ × ℕ := (bp.newStart, bp.offset)

/-- The breakpoints of `sc` have the spans `L` and satisfy `G`, and its log and data
stream are what they leave, from the start as `sc₀`. -/
structure Logged (sha1 : List UInt8 → Checksum) (fileId : UInt32) (G : Breakpoint → Prop)
    (sc₀ : Scanner) (L : List (ℕ × ℕ)) (sc : Scanner) : Prop where
  out : sc.breaks.map Breakpoint.span = L
  log : sc.ofs = sc.breaks.map (Breakpoint.record sha1 fileId)
  data : (sc.ofsdata, sc.datamap) =
    sc.breaks.foldl (storeBreak sha1) (sc₀.ofsdata, sc₀.datamap)
  good : ∀ bp ∈ sc.breaks, G bp

/-- The scanner `sc`, started as `sc₀` and with `b1` at `o` in the file, against the
search `c`: the sentinel `0` stands for no backup mark, and the fingerprint has seen
the bytes from `a` up to `q`. -/
structure Refines (sha1 : List UInt8 → Checksum) (fileId : UInt32) (s₀ : RabinState)
    (G : Breakpoint → Prop) (sc₀ : Scanner) (X : List UInt8) (o a q : ℕ) (sc : Scanner) (c : Scan) :
    Prop where
  conf : sc.conf = sc₀.conf
  b1Offset : sc.b1Offset = o
  start : sc.newStart = c.start
  backup : sc.backupBreak = c.backup.getD 0
  backup_pos : c.backup ≠ some 0
  hash : sc.s = some (rabinSlides s₀ (slice X a (q - a)))
  logged : Logged sha1 fileId G sc₀ c.out sc

variable {s₀ : RabinState} {G : Breakpoint → Prop} {o a : ℕ}

section Conf

variable (h : Refines sha1 fileId s₀ G sc₀ X o a q sc c)
include h

theorem Refines.tmin : sc.tmin = sc₀.tmin := congrArg Scanner.Conf.tmin h.conf

theorem Refines.tmax : sc.tmax = sc₀.tmax := congrArg Scanner.Conf.tmax h.conf

theorem Refines.d : sc.d = sc₀.d := congrArg Scanner.Conf.d h.conf

theorem Refines.dDash : sc.dDash = sc₀.dDash := congrArg Scanner.Conf.dDash h.conf

theorem Refines.fixBoundarySize : sc.fixBoundarySize = sc₀.fixBoundarySize :=
  congrArg Scanner.Conf.fixBoundarySize h.conf

end Conf

/-- One more breakpoint. -/
theorem Logged.addBreakpoint {L : List (ℕ × ℕ)} (h : Logged sha1 fileId G sc₀ L sc)
    (b1 b2 : List UInt8) {e : ℕ} (h0 : sc.newStart ≤ e) (h32 : e + 1 - sc.newStart < 2 ^ 32)
    (hG : G (breakAt sc.newStart sc.b1Offset b1 b2 e)) :
    Logged sha1 fileId G sc₀ (L ++ [(sc.newStart, e)]) (sc.addBreakpoint sha1 fileId b1 b2 e) := by
  obtain ⟨hb, hofs, hdata⟩ := Scanner.addBreakpoint_spec sha1 fileId b1 b2 h0 h32
  refine ⟨?_, ?_, ?_, ?_⟩
  · rw [hb, List.map_append, h.out]
    rfl
  · rw [hofs, hb, h.log, List.map_append]
    rfl
  · rw [hdata, hb, h.data, List.foldl_append]
    rfl
  · intro bp hbp
    rw [hb, List.mem_append, List.mem_singleton] at hbp
    rcases hbp with hbp | rfl
    · exact h.good bp hbp
    · exact hG

/-- A break at `e`, after which the search starts again at `r`. -/
theorem Refines.addBreak (h : Refines sha1 fileId s₀ G sc₀ X o a q sc c) {e r : ℕ}
    (h0 : c.start ≤ e) (h32 : e + 1 - c.start < 2 ^ 32) (hG : G (breakAt c.start o b1 b2 e)) :
    Refines sha1 fileId s₀ G sc₀ X o a q
      { sc.addBreakpoint sha1 fileId b1 b2 e with newStart := r, backupBreak := 0 }
      { start := r, backup := none, out := c.out ++ [(c.start, e)] } := by
  rw [← h.start] at h0 h32
  rw [← h.start, ← h.b1Offset] at hG
  have hl := h.logged.addBreakpoint b1 b2 h0 h32 hG
  rw [h.start] at hl
  obtain ⟨hconf, -, -, hoff, hs⟩ := Scanner.addBreakpoint_frame sha1 fileId sc b1 b2 e
  exact ⟨hconf.trans h.conf, hoff.trans h.b1Offset, rfl, rfl, by simp, hs.trans h.hash,
    ⟨hl.out, hl.log, hl.data, hl.good⟩⟩

/-- Where the fingerprint's bytes start before the byte at `q` is read. -/
def hashFrom (F q : ℕ) : ℕ := if q = 0 then 0 else lastMultiple F (q - 1)

/-- What the calls of `addBreakpoint` during one call of `addData` satisfy: the
block ends in the data loaded, and is no longer than `tmax` at the first new byte. -/
def GoodFor (G : Breakpoint → Prop) (b1 b2 : List UInt8) (o size tmax : ℕ) : Prop :=
  ∀ start e, start ≤ e → e < o + size → o < start + tmax → G (breakAt start o b1 b2 e)

variable {size : ℕ}

/-- **The hard break.** -/
theorem Refines.fixBoundary (hinit : rabinInit rabinPoly rabinWindowSize = .ok s₀)
    (hG : GoodFor G b1 b2 o size sc₀.tmax.toNat)
    (h : Refines sha1 fileId s₀ G sc₀ X o (hashFrom sc₀.fixBoundarySize q) q sc c) {limit : ℕ → ℕ}
    (hok : ScanOK (sc₀.marks X) limit q c) (ho : o ≤ q) (hq : q < o + size) :
    Refines sha1 fileId s₀ G sc₀ X o (lastMultiple sc₀.fixBoundarySize q) q
      (sc.fixBoundary sha1 fileId b1 b2 q) (if sc₀.boundary q then c.cut q else c) := by
  have htm := hok.lt_tmax
  have hst := hok.start_le
  have h32 := UInt32.toNat_lt sc₀.tmax
  rw [Scanner.marks_tmax] at htm
  unfold Scanner.fixBoundary Scanner.boundary
  rw [h.fixBoundarySize]
  by_cases hb : sc₀.fixBoundarySize ≠ 0 ∧ q ≠ 0 ∧ q % sc₀.fixBoundarySize = 0
  · -- the open block ends before the boundary, and the hash starts afresh at it
    have hd : decide (sc₀.fixBoundarySize ≠ 0 ∧ q ≠ 0 ∧ q % sc₀.fixBoundarySize = 0) = true := by
      simpa using hb
    rw [if_pos hb, if_pos hd, lastMultiple_self hb.2.2, h.start]
    have hfresh : (rabinInit rabinPoly rabinWindowSize).toOption =
        some (rabinSlides s₀ (slice X q (q - q))) := by
      rw [hinit, Nat.sub_self]; simp [slice, Except.toOption]
    unfold Scan.cut
    by_cases hlt : c.start < q
    · have hr := h.addBreak (r := q) (show c.start ≤ q - 1 by omega) (by omega)
        (hG _ _ (by omega) (by omega) (by omega))
      rw [if_pos hlt, if_pos hlt]
      exact ⟨hr.conf, hr.b1Offset, rfl, rfl, hr.backup_pos, hfresh,
        ⟨hr.logged.out, hr.logged.log, hr.logged.data, hr.logged.good⟩⟩
    · rw [if_neg hlt, if_neg hlt]
      exact ⟨h.conf, h.b1Offset, rfl, rfl, by simp, hfresh,
        ⟨h.logged.out, h.logged.log, h.logged.data, h.logged.good⟩⟩
  · -- the hash goes on from the last multiple
    have hd : ¬ decide (sc₀.fixBoundarySize ≠ 0 ∧ q ≠ 0 ∧ q % sc₀.fixBoundarySize = 0) = true := by
      simpa using hb
    rw [if_neg hb, if_neg hd]
    have he : hashFrom sc₀.fixBoundarySize q = lastMultiple sc₀.fixBoundarySize q := by
      unfold hashFrom
      split
      · rename_i h0; simp [h0, lastMultiple]
      · obtain ⟨r, rfl⟩ : ∃ r, q = r + 1 := ⟨q - 1, by omega⟩
        exact (lastMultiple_pred hb).symm
    rwa [← he]

/-- The break rule, once a possible backup break is noted. -/
theorem Refines.takeBreak (hG : GoodFor G b1 b2 o size sc₀.tmax.toNat)
    (h : Refines sha1 fileId s₀ G sc₀ X o a (q + 1) sc c) (ho : o ≤ q) (hq : q < o + size)
    (hst : c.start ≤ q) (htm : q < c.start + sc₀.tmax.toNat)
    (hback : ∀ b, c.backup = some b → c.start ≤ b ∧ b ≤ q) :
    Refines sha1 fileId s₀ G sc₀ X o a (q + 1)
      (sc.takeBreak sha1 fileId b1 b2 q (rabinAt sc₀.fixBoundarySize X q))
      (c.close (sc₀.marks X) q) := by
  have h32 := UInt32.toNat_lt sc₀.tmax
  have hbb := h.backup
  have hb0 := h.backup_pos
  have hpe : (sc₀.marks X).primary q = true ↔
      rabinAt sc₀.fixBoundarySize X q % sc₀.d.toNat = sc₀.d.toNat - 1 := by
    simp only [Scanner.marks, beq_iff_eq]
  have hte := sc₀.marks_tmax X
  unfold Scanner.takeBreak Scan.close
  rw [h.start, h.tmax, h.d]
  by_cases hp : (sc₀.marks X).primary q = true
  · rw [if_pos hp, if_pos (hpe.1 hp)]
    exact h.addBreak hst (by omega) (hG _ _ hst hq (by omega))
  rw [if_neg hp, if_neg (fun hr => hp (hpe.2 hr))]
  by_cases hmax : q + 1 < c.start + (sc₀.marks X).tmax
  · rw [if_pos hmax, if_pos (by omega)]
    exact h
  rw [if_neg hmax, if_neg (by omega)]
  cases hb : c.backup with
  | some e =>
    -- the position of a backup mark is not the sentinel
    obtain ⟨he1, he2⟩ := hback e hb
    have hne : sc.backupBreak = e := by rw [hbb, hb]; rfl
    have he0 : e ≠ 0 := by
      rintro rfl
      exact hb0 hb
    rw [hne, if_pos he0]
    exact h.addBreak he1 (by omega) (hG _ _ he1 (by omega) (by omega))
  | none =>
    have hne : sc.backupBreak = 0 := by rw [hbb, hb]; rfl
    rw [hne, if_neg (by simp)]
    exact h.addBreak hst (by omega) (hG _ _ hst hq (by omega))

/-- **The break rule.** -/
theorem Refines.findBreak (hG : GoodFor G b1 b2 o size sc₀.tmax.toNat) (h2 : 2 ≤ sc₀.tmin.toNat)
    (h : Refines sha1 fileId s₀ G sc₀ X o a (q + 1) sc c) {limit : ℕ → ℕ}
    (hok : ScanOK (sc₀.marks X) limit q c) (ho : o ≤ q) (hq : q < o + size) :
    Refines sha1 fileId s₀ G sc₀ X o a (q + 1)
      (sc.findBreak sha1 fileId b1 b2 q (rabinAt sc₀.fixBoundarySize X q)) (c.step (sc₀.marks X) q) := by
  have htm := hok.lt_tmax
  have hst := hok.start_le
  unfold Scanner.findBreak Scan.step
  rw [h.start, h.tmin]
  by_cases hmin : q + 1 < c.start + (sc₀.marks X).tmin
  · have hmin' : q + 1 - c.start < sc₀.tmin.toNat := by rw [Scanner.marks_tmin] at hmin; omega
    rw [if_pos hmin, if_pos hmin']; exact h
  have hmin' : ¬ q + 1 - c.start < sc₀.tmin.toNat := by rw [Scanner.marks_tmin] at hmin; omega
  rw [if_neg hmin, if_neg hmin']
  have hback := hok.backup.note (not_lt.1 hmin)
  have hs := c.note_start (M := sc₀.marks X) q
  have hn : Refines sha1 fileId s₀ G sc₀ X o a (q + 1)
      (sc.noteBackup q (rabinAt sc₀.fixBoundarySize X q)) (c.note (sc₀.marks X) q) := by
    have hbe : (sc₀.marks X).backup q = true ↔
        rabinAt sc₀.fixBoundarySize X q % sc.dDash.toNat = sc.dDash.toNat - 1 := by
      simp only [Scanner.marks, beq_iff_eq, h.dDash]
    unfold Scanner.noteBackup Scan.note
    by_cases hb : (sc₀.marks X).backup q = true
    · rw [if_pos hb, if_pos (hbe.1 hb)]
      have hq0 : some q ≠ some 0 := by simp only [ne_eq, Option.some.injEq]; omega
      exact ⟨h.conf, h.b1Offset, h.start, rfl, hq0, h.hash,
        ⟨h.logged.out, h.logged.log, h.logged.data, h.logged.good⟩⟩
    · rw [if_neg hb, if_neg (fun hr => hb (hbe.2 hr))]
      exact h
  apply hn.takeBreak hG ho hq (by rw [hs]; exact hst) (by rw [hs]; exact htm)
  -- a backup mark lies in the open block
  intro b hb
  rw [hs]
  rw [hb] at hback
  have h1 := hback.1.1
  have h3 := hback.1.2.1
  rw [Scanner.marks_tmin] at h1
  omega

/-- **One byte.** The fingerprint the scanner sees is that of the file. -/
theorem Refines.varScanByte (hinit : rabinInit rabinPoly rabinWindowSize = .ok s₀)
    (hG : GoodFor G b1 b2 o size sc₀.tmax.toNat) (h2 : 2 ≤ sc₀.tmin.toNat)
    (hmm : sc₀.tmin.toNat ≤ sc₀.tmax.toNat)
    (h : Refines sha1 fileId s₀ G sc₀ X o (hashFrom sc₀.fixBoundarySize q) q sc c)
    (hok : ScanOK (sc₀.marks X) (sc₀.limit X.length) q c) (hp : q = o + p) (hps : p < size)
    (hq : q < X.length) (hb : b1.getD p 0 = X.getD q 0) :
    Refines sha1 fileId s₀ G sc₀ X o (hashFrom sc₀.fixBoundarySize (q + 1)) (q + 1)
      (sc.varScanByte sha1 fileId b1 b2 p) (c.next (sc₀.marks X) sc₀.boundary q) := by
  have ho : o ≤ q := by omega
  have hqs : q < o + size := by omega
  have hb1 := h.b1Offset
  have h1 := h.fixBoundary hinit hG hok ho hqs
  have hok1 : ScanOK (sc₀.marks X) (sc₀.limit X.length) q
      (if sc₀.boundary q then c.cut q else c) := by
    split
    · rename_i hbd
      exact hok.cut (by rw [Scanner.marks_tmin]; omega) hmm (sc₀.limitOK X.length) hbd
    · exact hok
  have ha : hashFrom sc₀.fixBoundarySize (q + 1) = lastMultiple sc₀.fixBoundarySize q := by
    simp [hashFrom]
  have hle := lastMultiple_le sc₀.fixBoundarySize q
  -- the new byte joins those hashed since the last multiple
  have hslide : (rabinSlide8 (rabinSlides s₀ (slice X (lastMultiple sc₀.fixBoundarySize q)
      (q - lastMultiple sc₀.fixBoundarySize q))) (X.getD q 0)).2 =
      rabinSlides s₀ (slice X (lastMultiple sc₀.fixBoundarySize q)
        (q + 1 - lastMultiple sc₀.fixBoundarySize q)) := by
    rw [slice_concat hle hq, rabinSlides_concat]
  have hval : rabinAt sc₀.fixBoundarySize X q =
      (rabinSlides s₀ (slice X (lastMultiple sc₀.fixBoundarySize q)
        (q + 1 - lastMultiple sc₀.fixBoundarySize q))).fingerprint.toNat := by
    unfold rabinAt
    unfold rabinValue
    rw [hinit]
  unfold Scanner.varScanByte Scan.next
  rw [hb1, ← hp, hb, ha]
  simp only [h1.hash, rabinSlide8_fst, hslide]
  rw [← hval]
  have hr : Refines sha1 fileId s₀ G sc₀ X o (lastMultiple sc₀.fixBoundarySize q) (q + 1)
      { sc.fixBoundary sha1 fileId b1 b2 q with
        s := some (rabinSlides s₀ (slice X (lastMultiple sc₀.fixBoundarySize q)
          (q + 1 - lastMultiple sc₀.fixBoundarySize q))) }
      (if sc₀.boundary q then c.cut q else c) :=
    ⟨h1.conf, h1.b1Offset, h1.start, h1.backup, h1.backup_pos, rfl,
      ⟨h1.logged.out, h1.logged.log, h1.logged.data, h1.logged.good⟩⟩
  exact hr.findBreak hG h2 hok1 ho hqs

/-- The loop of `varScan` over the first `k` of `size` new bytes. -/
theorem Refines.varScanLoop (hinit : rabinInit rabinPoly rabinWindowSize = .ok s₀)
    (hG : GoodFor G b1 b2 o size sc₀.tmax.toNat) (h2 : 2 ≤ sc₀.tmin.toNat)
    (hmm : sc₀.tmin.toNat ≤ sc₀.tmax.toNat)
    (h : Refines sha1 fileId s₀ G sc₀ X o (hashFrom sc₀.fixBoundarySize o) o sc
      (Scan.run (sc₀.marks X) sc₀.boundary o))
    (hX : o + size ≤ X.length) (hb : ∀ p, p < size → b1.getD p 0 = X.getD (o + p) 0) :
    ∀ k, k ≤ size →
      Refines sha1 fileId s₀ G sc₀ X o (hashFrom sc₀.fixBoundarySize (o + k)) (o + k)
        ((List.range k).foldl (Scanner.varScanByte sha1 fileId b1 b2) sc)
        (Scan.run (sc₀.marks X) sc₀.boundary (o + k)) := by
  intro k
  induction k with
  | zero => intro _; exact h
  | succ k ih =>
    intro hk
    have hok := scanOK_run (M := sc₀.marks X) (by rw [Scanner.marks_tmin]; omega) hmm
      (sc₀.limitOK X.length) (o + k) (by omega)
    rw [List.range_succ, List.foldl_append, List.foldl_cons, List.foldl_nil, ← Nat.add_assoc,
      Scan.run_succ]
    exact (ih (by omega)).varScanByte hinit hG h2 hmm hok rfl hk (by omega) (hb k hk)

end DedupSim
