import DedupSim.Proof.Chunking
import DedupSim.Proof.Output

/-!
# The statistics that a scanner prints

The constructor does not set `tot_blocks` and `tot_dup_blocks`, and fixed mode does not
count.

* `Counted`: what the counters have to do with the log and with the data stream in
  variable mode; `Counted.save` is the step.
* `fixedBlocks`: the number of blocks of a file in fixed mode.
* `StatsRight`, `stats_iff`: **when the statistics are right.**
-/

namespace DedupSim

open LittleEndian Scanner

variable {sha1 : List UInt8 → Checksum} {fileId : UInt32} {sc : Scanner} {mem : Uninit}
  {dataout : Bool} {out : Output} {X prev b1 : List UInt8} {o size start : ℕ} {e : Bool}
  {calls : List Call}

/-- An entry of the data stream. -/
structure DataEntry where
  cksum : Checksum
  size : UInt32
  bytes : List UInt8

def DataEntry.toStream (en : DataEntry) : List UInt8 :=
  en.cksum.toStream ++ leBytes 4 en.size.toNat ++ en.bytes

/-- The data stream holds the entries, and the map their checksums. -/
structure Holds (out : Output) (entries : List DataEntry) : Prop where
  stream : out.ofsdata = some (entries.flatMap DataEntry.toStream)
  map : out.datamap = (entries.map DataEntry.cksum).reverse

/-! ## Variable mode -/

/-- The data stream holds `entries`, and each other record was counted as a duplicate. -/
structure Stored (mem : Uninit) (out : Output) (entries : List DataEntry) : Prop
    extends Holds out entries where
  le : entries.length ≤ out.ofs.length
  dups : out.totDupBlocks = mem.totDupBlocks + UInt32.ofNat (out.ofs.length - entries.length)

/-- The counters of a scanner in variable mode, from the values `mem` on. -/
structure Counted (mem : Uninit) (dataout : Bool) (out : Output) : Prop where
  isVar : out.isVar = true
  blocks : out.totBlocks = mem.totBlocks + UInt32.ofNat out.ofs.length
  none : dataout = false → out.ofsdata = none
  stored : dataout = true → ∃ entries, Stored mem out entries

/-- A counter that started at `m` and counted to `n`. -/
theorem counter_iff {m : UInt32} {n : ℕ} :
    (m + UInt32.ofNat n).toNat = n ↔ m = 0 ∧ n < 2 ^ 32 := by
  have hm := m.toNat_lt
  rw [← UInt32.toNat_inj, UInt32.toNat_add, UInt32.toNat_ofNat', UInt32.toNat_zero]
  omega

theorem ofNat_succ (n : ℕ) : UInt32.ofNat (n + 1) = UInt32.ofNat n + 1 := by
  rw [UInt32.ofNat_add]
  rfl

/-- **A block is counted and saved.** -/
theorem Counted.save (h : Counted mem dataout out) (b : Block) (bytes : List UInt8) :
    Counted mem dataout ({ out with totBlocks := out.totBlocks + 1 }.save b bytes) := by
  have hblocks : out.totBlocks + 1 = mem.totBlocks + UInt32.ofNat (out.ofs ++ [b]).length := by
    rw [h.blocks, List.length_append, List.length_singleton, ofNat_succ, UInt32.add_assoc]
  rcases hd : dataout with - | -
  · have hnone := h.none hd
    unfold Output.save
    simp only [hnone]
    exact ⟨h.isVar, hblocks, fun _ => rfl, nofun⟩
  obtain ⟨entries, hst⟩ := h.stored hd
  have hle := hst.le
  unfold Output.save
  simp only [hst.stream]
  split
  · -- the block is in the stream: it is counted as a duplicate
    refine ⟨h.isVar, hblocks, nofun, fun _ => ⟨entries, ⟨rfl, hst.map⟩, ?_, ?_⟩⟩
    · rw [List.length_append]
      exact hle.trans (Nat.le_add_right _ _)
    · have hsub : (out.ofs ++ [b]).length - entries.length =
          out.ofs.length - entries.length + 1 := by
        rw [List.length_append, List.length_singleton]
        omega
      rw [hsub, ofNat_succ, ← UInt32.add_assoc, ← hst.dups]
  · refine ⟨h.isVar, hblocks, nofun,
      fun _ => ⟨entries ++ [⟨b.cksum, b.size, bytes⟩], ⟨?_, ?_⟩, ?_, ?_⟩⟩
    · rw [List.flatMap_append, List.flatMap_singleton]
      rfl
    · change b.cksum :: out.datamap = _
      rw [hst.map, List.map_append, List.reverse_append]
      rfl
    · rw [List.length_append, List.length_append]
      exact Nat.add_le_add_right hle 1
    · have hsub : (out.ofs ++ [b]).length - (entries ++ [DataEntry.mk b.cksum b.size bytes]).length =
          out.ofs.length - entries.length := by
        rw [List.length_append, List.length_append, List.length_singleton, List.length_singleton]
        omega
      rw [hsub, ← hst.dups]

theorem counted_feed (sha1 : List UInt8 → Checksum) (fileId : UInt32) (calls : List Call) :
    ∀ sc : Scanner, Counted mem dataout sc.output →
      Counted mem dataout (sc.feed sha1 fileId calls).output := by
  induction calls with
  | nil => exact fun sc h => h
  | cons c calls ih =>
    intro sc h
    apply ih
    have hvar : sc.isVar = true := h.isVar
    have hdata : sc.addData sha1 fileId c.b1 c.b2 c.size c.eof =
        sc.varScan sha1 fileId c.b1 c.b2 c.size c.eof := if_pos hvar
    change Counted mem dataout (sc.addData sha1 fileId c.b1 c.b2 c.size c.eof).output
    rw [hdata]
    apply varScan_keeps _ _ _ _ _ h
    intro sc b1 b2 offset hsc
    rcases addBreakpoint_output sha1 fileId sc b1 b2 offset with hsame | ⟨b, bytes, -, hsave⟩
    · rwa [hsame]
    · rw [hsave]
      exact hsc.save b bytes

theorem counted_new (mem : Uninit) (kb : ℤ) (F : ℕ) (dataout : Bool) :
    Counted mem dataout (Scanner.new mem true kb F dataout).output := by
  refine ⟨rfl, (UInt32.add_zero _).symm, ?_, ?_⟩
  · rintro rfl
    rfl
  · rintro rfl
    exact ⟨[], ⟨rfl, rfl⟩, le_rfl, (UInt32.add_zero _).symm⟩

/-! ## Fixed mode -/

/-- `n` bytes in blocks of `a`. -/
def blocksOf (a n : ℕ) : ℕ := (n + a - 1) / a

/-- The blocks of a file of `n` bytes in fixed mode: full buffers, and the rest. -/
def fixedBlocks (a n : ℕ) : ℕ :=
  n / readBufferSize * blocksOf a readBufferSize + blocksOf a (n % readBufferSize)

theorem blocksOf_zero {a : ℕ} (ha : 0 < a) : blocksOf a 0 = 0 :=
  Nat.div_eq_of_lt (by omega)

theorem blocksOf_succ {a n : ℕ} (ha : 0 < a) (hn : 0 < n) :
    blocksOf a n = blocksOf a (n - a) + 1 := by
  have hpred : (n - a + a - 1) / a = (n - 1) / a := by
    rcases Nat.lt_or_ge n a with hlt | hge
    · rw [Nat.div_eq_of_lt (show n - a + a - 1 < a by omega),
        Nat.div_eq_of_lt (show n - 1 < a by omega)]
    · rw [Nat.sub_add_cancel hge]
  have hsucc : n + a - 1 = n - 1 + a := by omega
  unfold blocksOf
  rw [hpred, hsucc, Nat.add_div_right _ ha]

/-- A piece of a file, and the rest of it. -/
theorem fixedBlocks_piece {a : ℕ} (ha : 0 < a) (n : ℕ) :
    fixedBlocks a n =
      blocksOf a (min readBufferSize n) + fixedBlocks a (n - min readBufferSize n) := by
  have hpos : 0 < readBufferSize := by decide
  unfold fixedBlocks
  rcases Nat.lt_or_ge n readBufferSize with hlt | hge
  · rw [min_eq_right hlt.le, Nat.sub_self, Nat.zero_div, Nat.zero_mod, Nat.div_eq_of_lt hlt,
      Nat.mod_eq_of_lt hlt, blocksOf_zero ha]
    omega
  · have hdiv : n / readBufferSize = (n - readBufferSize) / readBufferSize + 1 :=
      Nat.div_eq_sub_div hpos hge
    rw [min_eq_left hge, hdiv, Nat.mod_eq_sub_mod hge, Nat.succ_mul]
    omega

theorem fixScanFrom_next (sha1 : List UInt8 → Checksum) (fileId : UInt32) (b1 : List UInt8)
    (hlt : start < size) (ha : 0 < sc.avgSize.toNat) :
    ∃ b, sc.fixScanFrom sha1 fileId b1 size start =
      (addBlock fileId { sc with bl := b }).fixScanFrom sha1 fileId b1 size
        (start + sc.avgSize.toNat) := by
  rw [fixScanFrom, dif_pos ⟨hlt, ha⟩]
  exact ⟨_, rfl⟩

/-- A call of `fixScan` writes a record for each block, and counts none. -/
theorem fixScanFrom_blocks (sha1 : List UInt8 → Checksum) (fileId : UInt32) (b1 : List UInt8)
    (size start : ℕ) (sc : Scanner) (ha : 0 < sc.avgSize.toNat) :
    (sc.fixScanFrom sha1 fileId b1 size start).ofs.length =
        sc.ofs.length + blocksOf sc.avgSize.toNat (size - start) ∧
      (sc.fixScanFrom sha1 fileId b1 size start).totBlocks = sc.totBlocks ∧
      (sc.fixScanFrom sha1 fileId b1 size start).avgSize = sc.avgSize ∧
      (sc.fixScanFrom sha1 fileId b1 size start).isVar = sc.isVar := by
  induction hn : size - start using Nat.strong_induction_on generalizing start sc with
  | _ n ih =>
    subst hn
    by_cases hlt : start < size
    · obtain ⟨b, hnext⟩ := fixScanFrom_next sha1 fileId b1 hlt ha
      obtain ⟨hlen, htot, havg, hvar⟩ := ih (size - (start + sc.avgSize.toNat)) (by omega)
        (start + sc.avgSize.toNat) (addBlock fileId { sc with bl := b }) ha rfl
      have hone : (addBlock fileId { sc with bl := b }).ofs.length = sc.ofs.length + 1 :=
        List.length_append
      have hrest : size - start - sc.avgSize.toNat = size - (start + sc.avgSize.toNat) := by omega
      rw [hnext]
      refine ⟨?_, htot, havg, hvar⟩
      rw [hlen, hone, blocksOf_succ ha (show 0 < size - start by omega), hrest]
      exact Nat.add_right_comm _ _ _
    · have hzero : size - start = 0 := by omega
      unfold fixScanFrom
      rw [dif_neg (fun h => hlt h.1), hzero, blocksOf_zero ha]
      exact ⟨rfl, rfl, rfl, rfl⟩

/-- **The records of a file in fixed mode**, none of which is counted. -/
theorem feed_fixed (sha1 : List UInt8 → Checksum) (fileId : UInt32) (hf : Feeds X e o prev calls) :
    ∀ sc : Scanner, sc.isVar = false → 0 < sc.avgSize.toNat →
      (sc.feed sha1 fileId calls).ofs.length =
          sc.ofs.length + fixedBlocks sc.avgSize.toNat (X.length - o) ∧
        (sc.feed sha1 fileId calls).totBlocks = sc.totBlocks := by
  induction hf with
  | nil prev =>
    intro sc _ ha
    have hzero : fixedBlocks sc.avgSize.toNat 0 = 0 := by
      unfold fixedBlocks
      rw [Nat.zero_div, Nat.zero_mul, Nat.zero_mod, blocksOf_zero ha]
    rw [Nat.sub_self, hzero]
    exact ⟨rfl, rfl⟩
  | @cons o prev c calls hlt hsize hb1 hb2 heof hrest ih =>
    intro sc hv ha
    obtain ⟨hlen, htot, havg, hvar⟩ := fixScanFrom_blocks sha1 fileId c.b1 c.size 0 sc ha
    have hdata : sc.addData sha1 fileId c.b1 c.b2 c.size c.eof =
        sc.fixScan sha1 fileId c.b1 c.size := if_neg (by rw [hv]; exact Bool.false_ne_true)
    have havg' : (sc.fixScan sha1 fileId c.b1 c.size).avgSize = sc.avgSize := havg
    obtain ⟨hlen', htot'⟩ := ih (sc.fixScan sha1 fileId c.b1 c.size) (hvar.trans hv)
      (by rwa [havg'])
    unfold feed at hlen' htot' ⊢
    rw [List.foldl_cons, hdata]
    refine ⟨?_, htot'.trans htot⟩
    have hfix : (sc.fixScan sha1 fileId c.b1 c.size).ofs.length =
        sc.ofs.length + blocksOf sc.avgSize.toNat (c.size - 0) := hlen
    rw [hlen', hfix, havg', fixedBlocks_piece ha (X.length - o), ← hsize, Nat.sub_zero,
      Nat.sub_add_eq, Nat.add_assoc]

/-! ## The statistics -/

/-- **The statistics are right**: the run is defined, `tot_blocks` is the number of records, and
with a data stream in variable mode the difference is the number of its entries. -/
structure StatsRight (dataout : Bool) (sc : Scanner) : Prop where
  defined : sc.faulty = false
  blocks : sc.totBlocks.toNat = sc.ofs.length
  entries : sc.isVar = true → dataout = true → ∃ entries, Holds sc.output entries ∧
    (sc.totBlocks.toNat : ℤ) - sc.totDupBlocks.toNat = entries.length

/-- The number of entries is that of the checksums in the map. -/
theorem Holds.length_eq {entries entries' : List DataEntry} (h : Holds out entries)
    (h' : Holds out entries') : entries.length = entries'.length := by
  have heq := congrArg List.length (h.map.symm.trans h'.map)
  rwa [List.length_reverse, List.length_reverse, List.length_map, List.length_map] at heq

/-- **The second counter**, where the first is right. -/
theorem Counted.entries_iff (h : Counted mem true out) (htot : out.totBlocks.toNat = out.ofs.length)
    (h32 : out.ofs.length < 2 ^ 32) :
    (∃ entries, Holds out entries ∧
        (out.totBlocks.toNat : ℤ) - out.totDupBlocks.toNat = entries.length) ↔
      mem.totDupBlocks = 0 := by
  obtain ⟨entries, hst⟩ := h.stored rfl
  have hle := hst.le
  have hcount := counter_iff (m := mem.totDupBlocks) (n := out.ofs.length - entries.length)
  rw [← hst.dups] at hcount
  constructor
  · rintro ⟨entries', hholds, heq⟩
    rw [hholds.length_eq hst.toHolds, htot] at heq
    exact (hcount.1 (by omega)).1
  · intro hzero
    refine ⟨entries, hst.toHolds, ?_⟩
    rw [hcount.2 ⟨hzero, by omega⟩, htot]
    omega

/-- In fixed mode. -/
theorem stats_fixed_iff (mem : Uninit) (kb : ℤ) (F : ℕ) (dataout : Bool)
    (sha1 : List UInt8 → Checksum) (fileId : UInt32) (hf : Feeds X e 0 prev calls) :
    StatsRight dataout ((Scanner.new mem false kb F dataout).feed sha1 fileId calls) ↔
      ((Scanner.new mem false kb F dataout).avgSize = 0 → X = []) ∧
        mem.totBlocks.toNat =
          fixedBlocks (Scanner.new mem false kb F dataout).avgSize.toNat X.length := by
  set sc₀ := Scanner.new mem false kb F dataout with hsc₀
  have hfault := feed_fixed_faulty sha1 fileId mem kb F dataout hf
  rw [← hsc₀] at hfault
  have hdefined : (sc₀.feed sha1 fileId calls).faulty = false ↔ (sc₀.avgSize = 0 → X = []) := by
    rw [← Bool.not_eq_true, hfault, not_and, ne_eq, not_not]
  have hvar := (feed_settings sha1 fileId calls sc₀).1
  have hblocks : (sc₀.avgSize = 0 → X = []) → ((sc₀.feed sha1 fileId calls).totBlocks.toNat =
      (sc₀.feed sha1 fileId calls).ofs.length ↔
        mem.totBlocks.toNat = fixedBlocks sc₀.avgSize.toNat X.length) := by
    intro hX
    by_cases hzero : sc₀.avgSize = 0
    · -- there is nothing to read
      have hnil := hX hzero
      subst hnil
      obtain rfl := hf.nil_of_le le_rfl
      rw [hzero]
      rfl
    · have ha : 0 < sc₀.avgSize.toNat := by
        rw [Nat.pos_iff_ne_zero, ne_eq, ← UInt32.toNat_zero, UInt32.toNat_inj]
        exact hzero
      obtain ⟨hlen, htot⟩ := feed_fixed sha1 fileId hf sc₀ rfl ha
      have hnil : sc₀.ofs.length = 0 := rfl
      rw [htot, hlen, hnil, Nat.zero_add, Nat.sub_zero]
      rfl
  constructor
  · exact fun h => ⟨hdefined.1 h.defined, (hblocks (hdefined.1 h.defined)).1 h.blocks⟩
  · rintro ⟨hX, hmem⟩
    refine ⟨hdefined.2 hX, (hblocks hX).2 hmem, fun h => ?_⟩
    rw [hvar] at h
    cases h

/-- In variable mode. -/
theorem stats_var_iff (mem : Uninit) {kb : ℤ} (h1 : 1 ≤ kb) (h2 : kb ≤ 2048) (F : ℕ)
    (dataout : Bool) (sha1 : List UInt8 → Checksum) (fileId : UInt32)
    (hf : Feeds X e 0 prev calls) :
    StatsRight dataout ((Scanner.new mem true kb F dataout).feed sha1 fileId calls) ↔
      mem.totBlocks = 0 ∧ (dataout = true → mem.totDupBlocks = 0) ∧
        (spansOf (Scanner.new mem true kb F dataout) X e).length < 2 ^ 32 := by
  set sc₀ := Scanner.new mem true kb F dataout
  set sc := sc₀.feed sha1 fileId calls
  obtain ⟨s₀, hfresh⟩ := fresh_new mem F dataout h1 h2
  have hlen : sc.ofs.length = (spansOf sc₀ X e).length := by
    rw [(feed_scan hfresh sha1 fileId hf).ofs_eq, List.length_map]
  have hc : Counted mem dataout sc.output :=
    counted_feed sha1 fileId calls _ (counted_new mem kb F dataout)
  have hblocks : sc.totBlocks = mem.totBlocks + UInt32.ofNat sc.ofs.length := hc.blocks
  have hfirst : sc.totBlocks.toNat = sc.ofs.length ↔
      mem.totBlocks = 0 ∧ sc.ofs.length < 2 ^ 32 := by
    rw [hblocks]
    exact counter_iff
  rw [← hlen]
  constructor
  · rintro ⟨-, htot, hentries⟩
    obtain ⟨hmem, h32⟩ := hfirst.1 htot
    refine ⟨hmem, ?_, h32⟩
    rintro rfl
    exact (hc.entries_iff htot h32).1 (hentries hc.isVar rfl)
  · rintro ⟨hmem, hdup, h32⟩
    have htot := hfirst.2 ⟨hmem, h32⟩
    refine ⟨feed_not_faulty sha1 fileId mem true h1 h2 F dataout hf, htot, fun _ hd => ?_⟩
    subst hd
    exact (hc.entries_iff htot h32).2 (hdup rfl)

end DedupSim
