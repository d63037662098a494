import DedupSim.Proof.Output
import DedupSim.Proof.ReadLoop

/-!
# Scans that record nothing

* `Grows`: a scanner only appends to its log, under the file id it is given.
* `Scanner.BreaksAt`: the positions at which the first block may end.
* `Scanner.Silent`, `feed_nil_iff`: **when a scanner records nothing of a file**,
  whatever its average size is.
-/

namespace DedupSim

variable {sha1 : List UInt8 → Checksum} {fileId : UInt32} {sc sc' sc'' sc₀ : Scanner}
  {b1 b2 prev X : List UInt8} {o p q size offset rabinf : ℕ} {e : Bool} {calls : List Call}
  {s₀ : RabinState}

/-! ## A log only grows -/

/-- `sc'` is `sc` with more records, all with the id `fileId`. -/
def Grows (fileId : UInt32) (sc sc' : Scanner) : Prop :=
  ∃ new, sc'.ofs = sc.ofs ++ new ∧ ∀ b ∈ new, b.fileId = fileId

theorem Grows.refl (fileId : UInt32) (sc : Scanner) : Grows fileId sc sc :=
  ⟨[], (List.append_nil _).symm, by simp⟩

theorem Grows.trans (h : Grows fileId sc sc') (h' : Grows fileId sc' sc'') : Grows fileId sc sc'' := by
  obtain ⟨new, hn, hid⟩ := h
  obtain ⟨new', hn', hid'⟩ := h'
  refine ⟨new ++ new', by rw [hn', hn, List.append_assoc], ?_⟩
  intro b hb
  rcases List.mem_append.1 hb with hb | hb
  · exact hid b hb
  · exact hid' b hb

theorem Grows.ne_nil (h : Grows fileId sc sc') (hne : sc.ofs ≠ []) : sc'.ofs ≠ [] := by
  obtain ⟨new, hn, -⟩ := h
  rw [hn]
  exact List.append_ne_nil_of_left_ne_nil hne new

theorem Grows.ids (h : Grows fileId sc sc') (hn : sc.ofs = []) : ∀ b ∈ sc'.ofs, b.fileId = fileId := by
  obtain ⟨new, hs, hid⟩ := h
  rw [hs, hn]
  exact hid

namespace Scanner

/-- `addBlock`, in a state with the same log. -/
theorem addBlock_grows (fileId : UInt32) (h : sc'.ofs = sc.ofs) :
    Grows fileId sc (sc'.addBlock fileId) := by
  refine ⟨[{ sc'.bl with fileId := fileId }], ?_, ?_⟩
  · rw [← h]
    rfl
  · intro b hb
    rw [List.mem_singleton.1 hb]

theorem addBreakpoint_grows (sha1 : List UInt8 → Checksum) (fileId : UInt32) (sc : Scanner)
    (b1 b2 : List UInt8) (offset : ℕ) : Grows fileId sc (sc.addBreakpoint sha1 fileId b1 b2 offset) := by
  rcases addBreakpoint_output sha1 fileId sc b1 b2 offset with hsame | ⟨b, bytes, hid, hsave⟩
  · exact ⟨[], (congrArg Output.ofs hsame).trans (List.append_nil _).symm, by simp⟩
  · refine ⟨[b], (congrArg Output.ofs hsave).trans ?_, ?_⟩
    · unfold Output.save
      split
      · rfl
      · split <;> rfl
    · intro b' hb'
      rwa [List.mem_singleton.1 hb']

/-- What was written since `sc₀`. -/
def GrewFrom (fileId : UInt32) (sc₀ : Scanner) (out : Output) : Prop :=
  ∃ new, out.ofs = sc₀.ofs ++ new ∧ ∀ b ∈ new, b.fileId = fileId

theorem addBreakpoint_grew (sha1 : List UInt8 → Checksum) (sc : Scanner) (b1 b2 : List UInt8)
    (offset : ℕ) (h : GrewFrom fileId sc₀ sc.output) :
    GrewFrom fileId sc₀ (sc.addBreakpoint sha1 fileId b1 b2 offset).output := by
  have hgrows : Grows fileId sc₀ sc := h
  exact hgrows.trans (addBreakpoint_grows sha1 fileId sc b1 b2 offset)

theorem findBreak_grows (sha1 : List UInt8 → Checksum) (fileId : UInt32) (sc : Scanner)
    (b1 b2 : List UInt8) (offset rabinf : ℕ) :
    Grows fileId sc (sc.findBreak sha1 fileId b1 b2 offset rabinf) :=
  findBreak_keeps (P := GrewFrom fileId sc) (addBreakpoint_grew sha1) b1 b2 offset rabinf
    (Grows.refl fileId sc)

theorem varScanByte_grows (sha1 : List UInt8 → Checksum) (fileId : UInt32) (b1 b2 : List UInt8)
    (sc : Scanner) (p : ℕ) : Grows fileId sc (sc.varScanByte sha1 fileId b1 b2 p) :=
  varScanByte_keeps (P := GrewFrom fileId sc) (addBreakpoint_grew sha1) b1 b2 p
    (Grows.refl fileId sc)

theorem addData_grows (sha1 : List UInt8 → Checksum) (fileId : UInt32) (sc : Scanner)
    (b1 b2 : List UInt8) (size : ℕ) (eof : Bool) :
    Grows fileId sc (sc.addData sha1 fileId b1 b2 size eof) := by
  refine addData_keeps (P := GrewFrom fileId sc) (addBreakpoint_grew sha1) ?_ b1 b2 size eof
    (Grows.refl fileId sc)
  intro sc' h
  have hgrows : Grows fileId sc sc' := h
  exact hgrows.trans (addBlock_grows fileId rfl)

theorem feed_grows (sha1 : List UInt8 → Checksum) (fileId : UInt32) (calls : List Call) :
    ∀ sc : Scanner, Grows fileId sc (sc.feed sha1 fileId calls) := by
  induction calls with
  | nil => exact Grows.refl fileId
  | cons c calls ih =>
    intro sc
    exact (addData_grows sha1 fileId sc c.b1 c.b2 c.size c.eof).trans (ih _)

end Scanner

/-! ## The first block -/

/-- The first block of `X` may end at `q`, or just before it at a boundary. -/
def Scanner.BreaksAt (sc : Scanner) (X : List UInt8) (q : ℕ) : Prop :=
  (sc.fixBoundarySize ≠ 0 ∧ q ≠ 0 ∧ q % sc.fixBoundarySize = 0) ∨
    sc.tmin.toNat ≤ q + 1 ∧
      ((rabinValue (X.take (q + 1))).toNat % sc.d.toNat = sc.d.toNat - 1 ∨ sc.tmax.toNat ≤ q + 1)

/-- The scanner, started as `sc₀` and with `b1` at `o`, has read `q` bytes without a
break, so the first block is still open. -/
structure Quiet (s₀ : RabinState) (sc₀ : Scanner) (X : List UInt8) (o q : ℕ) (sc : Scanner) : Prop where
  conf : sc.conf = sc₀.conf
  b1Offset : sc.b1Offset = o
  newStart : sc.newStart = 0
  backup : sc.backupBreak ≤ q
  hash : sc.s = some (rabinSlides s₀ (X.take q))
  ofs : sc.ofs = []
  short : q + 1 < 2 ^ 32

theorem addBreakpoint_ne_nil (sha1 : List UInt8 → Checksum) (fileId : UInt32) (b1 b2 : List UInt8)
    (h0 : sc.newStart ≤ offset) (h32 : offset + 1 - sc.newStart < 2 ^ 32) :
    (sc.addBreakpoint sha1 fileId b1 b2 offset).ofs ≠ [] := by
  rw [(Scanner.addBreakpoint_spec sha1 fileId b1 b2 h0 h32).2.1]
  exact List.append_ne_nil_of_right_ne_nil _ (List.cons_ne_nil _ _)

theorem Quiet.fixBoundary_ne_nil (h : Quiet s₀ sc₀ X o q sc) (sha1 : List UInt8 → Checksum)
    (fileId : UInt32) (b1 b2 : List UInt8)
    (hb : sc₀.fixBoundarySize ≠ 0 ∧ q ≠ 0 ∧ q % sc₀.fixBoundarySize = 0) :
    (sc.fixBoundary sha1 fileId b1 b2 q).ofs ≠ [] := by
  have hF : sc.fixBoundarySize = sc₀.fixBoundarySize :=
    congrArg Scanner.Conf.fixBoundarySize h.conf
  have hs := h.newStart
  have h32 := h.short
  unfold Scanner.fixBoundary
  rw [hF, if_pos hb, if_pos (by omega)]
  exact addBreakpoint_ne_nil sha1 fileId b1 b2 (by omega) (by omega)

/-- The rule for the first block: it ends, or at most a backup break is noted. -/
theorem findBreak_first (sc : Scanner) (sha1 : List UInt8 → Checksum) (fileId : UInt32)
    (b1 b2 : List UInt8) (hconf : sc.conf = sc₀.conf) (hnew : sc.newStart = 0)
    (hback : sc.backupBreak ≤ q)
    (h32 : q + 1 < 2 ^ 32) (rabinf : ℕ) :
    (sc₀.tmin.toNat ≤ q + 1 ∧ (rabinf % sc₀.d.toNat = sc₀.d.toNat - 1 ∨ sc₀.tmax.toNat ≤ q + 1) ∧
      (sc.findBreak sha1 fileId b1 b2 q rabinf).ofs ≠ []) ∨
    (¬ (sc₀.tmin.toNat ≤ q + 1 ∧
        (rabinf % sc₀.d.toNat = sc₀.d.toNat - 1 ∨ sc₀.tmax.toNat ≤ q + 1)) ∧
      ∃ b, b ≤ q ∧ sc.findBreak sha1 fileId b1 b2 q rabinf = { sc with backupBreak := b }) := by
  have htmin : sc.tmin = sc₀.tmin := congrArg Scanner.Conf.tmin hconf
  have htmax : sc.tmax = sc₀.tmax := congrArg Scanner.Conf.tmax hconf
  have hd : sc.d = sc₀.d := congrArg Scanner.Conf.d hconf
  -- noting a backup break changes nothing else
  obtain ⟨b, hb, hnote⟩ : ∃ b, b ≤ q ∧ sc.noteBackup q rabinf = { sc with backupBreak := b } := by
    unfold Scanner.noteBackup
    split
    · exact ⟨q, le_rfl, rfl⟩
    · exact ⟨sc.backupBreak, hback, rfl⟩
  -- the first block starts at 0, so its length is the position
  have hlen : q + 1 - sc.newStart = q + 1 := by rw [hnew, Nat.sub_zero]
  have hne : ∀ {sc' : Scanner} {r : ℕ}, sc'.newStart = 0 → r ≤ q →
      (sc'.addBreakpoint sha1 fileId b1 b2 r).ofs ≠ [] := by
    intro sc' r hs hr
    exact addBreakpoint_ne_nil sha1 fileId b1 b2 (by omega) (by omega)
  unfold Scanner.findBreak
  by_cases hmin : q + 1 - sc.newStart < sc.tmin.toNat
  · rw [if_pos hmin]
    rw [hlen, htmin] at hmin
    exact .inr ⟨by omega, sc.backupBreak, hback, rfl⟩
  rw [if_neg hmin, hnote]
  rw [hlen, htmin] at hmin
  unfold Scanner.takeBreak
  by_cases hp : rabinf % sc.d.toNat = sc.d.toNat - 1
  · rw [if_pos hp]
    rw [hd] at hp
    exact .inl ⟨by omega, .inl hp, hne hnew le_rfl⟩
  rw [if_neg hp]
  rw [hd] at hp
  by_cases hmax : q + 1 - sc.newStart < sc.tmax.toNat
  · rw [if_pos hmax]
    rw [hlen, htmax] at hmax
    exact .inr ⟨by omega, b, hb, rfl⟩
  rw [if_neg hmax]
  rw [hlen, htmax] at hmax
  refine .inl ⟨by omega, .inr (by omega), ?_⟩
  split
  · exact hne hnew hb
  · exact hne hnew le_rfl

/-- **One byte**: either the first block ends, or the scanner stays quiet. -/
theorem Quiet.varScanByte (hinit : rabinInit rabinPoly rabinWindowSize = .ok s₀)
    (h : Quiet s₀ sc₀ X o q sc) (sha1 : List UInt8 → Checksum) (fileId : UInt32) (b1 b2 : List UInt8)
    (hp : q = o + p) (hq : q < X.length) (hb : b1.getD p 0 = X.getD q 0) :
    (sc₀.BreaksAt X q ∧ (sc.varScanByte sha1 fileId b1 b2 p).ofs ≠ []) ∨
      (¬ sc₀.BreaksAt X q ∧ Quiet s₀ sc₀ X o (q + 1) (sc.varScanByte sha1 fileId b1 b2 p)) := by
  have hF : sc.fixBoundarySize = sc₀.fixBoundarySize :=
    congrArg Scanner.Conf.fixBoundarySize h.conf
  have htmin32 := UInt32.toNat_lt sc₀.tmin
  have htmax32 := UInt32.toNat_lt sc₀.tmax
  have hx : sc.b1Offset + p = q := by rw [h.b1Offset, hp]
  unfold Scanner.varScanByte
  rw [hx, hb]
  by_cases hbd : sc₀.fixBoundarySize ≠ 0 ∧ q ≠ 0 ∧ q % sc₀.fixBoundarySize = 0
  · -- the boundary ends the block, and the rest of the byte keeps the record
    refine .inl ⟨.inl hbd, ?_⟩
    have hne := h.fixBoundary_ne_nil sha1 fileId b1 b2 hbd
    simp only
    split
    · exact hne
    · exact (Scanner.findBreak_grows sha1 fileId { sc.fixBoundary sha1 fileId b1 b2 q with s := _ }
        b1 b2 q _).ne_nil hne
  have hfix : sc.fixBoundary sha1 fileId b1 b2 q = sc := by
    unfold Scanner.fixBoundary
    rw [hF, if_neg hbd]
  have htake : X.take (q + 1) = X.take q ++ [X.getD q 0] := by
    rw [List.take_add_one, List.getElem?_eq_getElem hq, List.getD_eq_getElem _ _ hq]
    rfl
  have hslide : (rabinSlide8 (rabinSlides s₀ (X.take q)) (X.getD q 0)).2 =
      rabinSlides s₀ (X.take (q + 1)) := by
    rw [htake, rabinSlides_concat]
  have hval : (rabinValue (X.take (q + 1))).toNat =
      (rabinSlides s₀ (X.take (q + 1))).fingerprint.toNat := by
    unfold rabinValue
    rw [hinit]
  simp only [hfix, h.hash, rabinSlide8_fst, hslide, ← hval]
  rcases findBreak_first { sc with s := some (rabinSlides s₀ (X.take (q + 1))) } sha1 fileId b1 b2
      h.conf h.newStart h.backup h.short (rabinValue (X.take (q + 1))).toNat with
    ⟨h1, h2, hne⟩ | ⟨hno, b, hbq, heq⟩
  · exact .inl ⟨.inr ⟨h1, h2⟩, hne⟩
  · refine .inr ⟨?_, ?_⟩
    · intro hbr
      rcases hbr with hbr | hbr
      · exact hbd hbr
      · exact hno hbr
    · rw [heq]
      exact ⟨h.conf, h.b1Offset, h.newStart, by simp only; omega, rfl, h.ofs, by omega⟩

/-- The loop over the first `k` of `size` new bytes. -/
theorem Quiet.varScanLoop (hinit : rabinInit rabinPoly rabinWindowSize = .ok s₀)
    (h : Quiet s₀ sc₀ X o o sc) (sha1 : List UInt8 → Checksum) (fileId : UInt32) (b1 b2 : List UInt8)
    (hX : o + size ≤ X.length) (hb : ∀ p, p < size → b1.getD p 0 = X.getD (o + p) 0) :
    ∀ k, k ≤ size →
      ((∃ q, o ≤ q ∧ q < o + k ∧ sc₀.BreaksAt X q) ∧
        ((List.range k).foldl (Scanner.varScanByte sha1 fileId b1 b2) sc).ofs ≠ []) ∨
      ((∀ q, o ≤ q → q < o + k → ¬ sc₀.BreaksAt X q) ∧
        Quiet s₀ sc₀ X o (o + k) ((List.range k).foldl (Scanner.varScanByte sha1 fileId b1 b2) sc)) := by
  intro k
  induction k with
  | zero => intro _; exact .inr ⟨fun q h1 h2 => by omega, h⟩
  | succ k ih =>
    intro hk
    rw [List.range_succ, List.foldl_append, List.foldl_cons, List.foldl_nil]
    rcases ih (by omega) with ⟨⟨q, h1, h2, hbr⟩, hne⟩ | ⟨hno, hquiet⟩
    · exact .inl ⟨⟨q, h1, by omega, hbr⟩,
        (Scanner.varScanByte_grows sha1 fileId b1 b2 _ k).ne_nil hne⟩
    · rcases hquiet.varScanByte hinit sha1 fileId b1 b2 rfl (by omega) (hb k hk) with
        ⟨hbr, hne⟩ | ⟨hnb, hnext⟩
      · exact .inl ⟨⟨o + k, by omega, by omega, hbr⟩, hne⟩
      · refine .inr ⟨?_, hnext⟩
        intro q h1 h2
        rcases Nat.lt_or_ge q (o + k) with hlt | hge
        · exact hno q h1 hlt
        · rwa [show q = o + k by omega]

/-- **One call**: either the first block ends, by itself or with the file, or the scanner
stays quiet. -/
theorem Quiet.addData (hinit : rabinInit rabinPoly rabinWindowSize = .ok s₀) (hvar : sc₀.isVar = true)
    (h : Quiet s₀ sc₀ X o o sc) (sha1 : List UInt8 → Checksum) (fileId : UInt32) (c : Call)
    (hpos : 0 < c.size) (hX : o + c.size ≤ X.length)
    (hb : ∀ p, p < c.size → c.b1.getD p 0 = X.getD (o + p) 0) :
    (((∃ q, o ≤ q ∧ q < o + c.size ∧ sc₀.BreaksAt X q) ∨ c.eof = true) ∧
      (sc.addData sha1 fileId c.b1 c.b2 c.size c.eof).ofs ≠ []) ∨
    ((∀ q, o ≤ q → q < o + c.size → ¬ sc₀.BreaksAt X q) ∧ c.eof = false ∧
      Quiet s₀ sc₀ X (o + c.size) (o + c.size) (sc.addData sha1 fileId c.b1 c.b2 c.size c.eof)) := by
  have hv : sc.isVar = true := (congrArg Scanner.Conf.isVar h.conf).trans hvar
  have hs : sc.s ≠ none := by
    rw [h.hash]
    exact Option.some_ne_none _
  rw [Scanner.addData, if_pos hv, Scanner.varScan, if_neg hs]
  simp only
  rcases h.varScanLoop hinit sha1 fileId c.b1 c.b2 hX hb c.size le_rfl with ⟨hbr, hne⟩ | ⟨hno, hquiet⟩
  · -- a block has ended, and its record stays
    refine .inl ⟨.inl hbr, ?_⟩
    split
    · exact (Scanner.addBreakpoint_grows sha1 fileId _ c.b1 c.b2 _).ne_nil hne
    · exact hne
  · have hnew := hquiet.newStart
    have hoff := hquiet.b1Offset
    have h32 := hquiet.short
    rcases he : c.eof with - | -
    · -- the block stays open
      refine .inr ⟨hno, rfl, ?_⟩
      rw [if_neg (fun h => Bool.false_ne_true h.1)]
      refine ⟨hquiet.conf, ?_, hnew, hquiet.backup, hquiet.hash, hquiet.ofs, h32⟩
      simp only [hoff]
    · -- the end of the file flushes the block
      refine .inl ⟨.inr rfl, ?_⟩
      rw [if_pos ⟨rfl, by omega⟩]
      exact addBreakpoint_ne_nil sha1 fileId c.b1 c.b2 (by omega) (by omega)

/-- **The rest of a file**, from a quiet scanner. -/
theorem Quiet.feed_nil_iff (hinit : rabinInit rabinPoly rabinWindowSize = .ok s₀)
    (hvar : sc₀.isVar = true) (sha1 : List UInt8 → Checksum) (fileId : UInt32)
    (hf : Feeds X e o prev calls) :
    ∀ sc, Quiet s₀ sc₀ X o o sc →
      ((sc.feed sha1 fileId calls).ofs = [] ↔
        (o = X.length ∨ e = false) ∧ ∀ q, o ≤ q → q < X.length → ¬ sc₀.BreaksAt X q) := by
  induction hf with
  | nil prev =>
    intro sc h
    exact iff_of_true h.ofs ⟨.inl rfl, fun q h1 h2 => by omega⟩
  | @cons o prev c calls hlt hsize hb1 hb2 heof hrest ih =>
    intro sc h
    have hX : o + c.size ≤ X.length := by omega
    have hpos : 0 < c.size := by
      have : 0 < readBufferSize := by decide
      omega
    have hgrow := Scanner.feed_grows sha1 fileId calls
      (sc.addData sha1 fileId c.b1 c.b2 c.size c.eof)
    unfold Scanner.feed
    rw [List.foldl_cons]
    change (Scanner.feed sha1 fileId (sc.addData sha1 fileId c.b1 c.b2 c.size c.eof) calls).ofs = [] ↔ _
    rcases h.addData hinit hvar sha1 fileId c hpos hX (fun p hp => getD_new hb1 hp) with
      ⟨hend, hne⟩ | ⟨hno, he, hquiet⟩
    · apply iff_of_false (hgrow.ne_nil hne)
      rintro ⟨hlast, hnone⟩
      rcases hend with ⟨q, h1, h2, hbr⟩ | he
      · exact hnone q h1 (by omega) hbr
      · rw [heof, Bool.and_eq_true] at he
        rcases hlast with hlast | hlast
        · omega
        · rw [he.1] at hlast
          cases hlast
    · rw [ih _ hquiet]
      constructor
      · rintro ⟨hlast, hnone⟩
        refine ⟨.inr ?_, ?_⟩
        · -- a last call that does not announce the end
          rcases hlast with hlast | hlast
          · rwa [heof, hlast, decide_eq_true rfl, Bool.and_true] at he
          · exact hlast
        · intro q h1 h2
          rcases Nat.lt_or_ge q (o + c.size) with hq | hq
          · exact hno q h1 hq
          · exact hnone q hq h2
      · rintro ⟨hlast, hnone⟩
        refine ⟨.inr (hlast.resolve_left hlt.ne), ?_⟩
        intro q h1 h2
        exact hnone q (by omega) h2

/-- A scanner that records nothing of `X`: there is nothing, or in variable mode the
end is not announced and the first block does not end by itself. -/
def Scanner.Silent (sc : Scanner) (X : List UInt8) : Prop :=
  X = [] ∨ sc.isVar = true ∧ X.length % readBufferSize = 0 ∧ ∀ q, q < X.length → ¬ sc.BreaksAt X q

/-- **When a new scanner records nothing of a file.** -/
theorem feed_nil_iff (mem : Uninit) (var : Bool) (kb : ℤ) (F : ℕ) (dataout : Bool)
    (havg : (Scanner.new mem var kb F dataout).avgSize ≠ 0) (sha1 : List UInt8 → Checksum)
    (fileId : UInt32)
    (hf : Feeds X (decide (X.length % readBufferSize ≠ 0)) 0 prev calls) :
    ((Scanner.new mem var kb F dataout).feed sha1 fileId calls).ofs = [] ↔
      (Scanner.new mem var kb F dataout).Silent X := by
  rcases var with - | -
  · have hpos : 0 < (Scanner.new mem false kb F dataout).avgSize.toNat := by
      rw [Nat.pos_iff_ne_zero]
      exact fun h => havg (UInt32.toNat_inj.1 h)
    have hcov := feed_fixed_covers sha1 fileId hf (Scanner.new mem false kb F dataout) rfl hpos rfl
      (.nil 0)
    have hsum := hcov.sizeOf_eq
    constructor
    · intro h
      rw [h, sizeOf_nil] at hsum
      exact .inl (List.length_eq_zero_iff.1 hsum.symm)
    · rintro (rfl | ⟨hvar, -⟩)
      · obtain rfl := hf.nil_of_le (Nat.zero_le _)
        rfl
      · cases hvar
  · obtain ⟨s₀, h0, -⟩ := rabinInit_scanner
    have hq : Quiet s₀ (Scanner.new mem true kb F dataout) X 0 0 (Scanner.new mem true kb F dataout) :=
      ⟨rfl, rfl, rfl, le_rfl, by simp [Scanner.new, h0, Except.toOption], rfl, by decide⟩
    rw [hq.feed_nil_iff h0 rfl sha1 fileId hf]
    have hvar : (Scanner.new mem true kb F dataout).isVar = true := rfl
    simp only [Scanner.Silent, hvar, true_and, decide_eq_false_iff_not, ne_eq, not_not, Nat.zero_le,
      forall_true_left]
    constructor
    · rintro ⟨h | h, hno⟩
      · exact .inl (List.length_eq_zero_iff.1 h.symm)
      · exact .inr ⟨h, hno⟩
    · rintro (rfl | ⟨h, hno⟩)
      · exact ⟨.inl rfl, fun q hq => absurd hq (Nat.not_lt_zero q)⟩
      · exact ⟨.inr h, hno⟩

end DedupSim
