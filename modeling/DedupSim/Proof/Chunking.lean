import DedupSim.Proof.Feed
import DedupSim.Proof.Segment

/-!
# The blocks of a variable-mode scan

* `varScan_greedy`: the log is the memoryless rule's blocks of the file.
* `startOf`: where a record's block starts, by the sizes of the records before it.
* `varScan_resync`: two scans with a block that starts where a common rest does agree from
  there on. `sameFrom_append` is the reason: a block is at least a window long
  before its marks count, so they depend on the rest alone.
-/

namespace DedupSim

open Tttd

variable {sc : Scanner} {X A B S ms ms' : List UInt8} {e : Bool} {prev : List UInt8}
  {calls : List Call}

/-! ## The fingerprint of a window -/

theorem rabinValue_ok (ms : List UInt8) :
    ∃ s, RabinOK rabinPoly rabinWindowSize ms s ∧ rabinValue ms = s.fingerprint := by
  obtain ⟨s₀, h0, hok⟩ := rabinInit_scanner
  refine ⟨rabinSlides s₀ ms, ?_, ?_⟩
  · simpa using hok.slides (by decide) ms
  · unfold rabinValue
    rw [h0]

/-- The fingerprint depends on the last 48 bytes only. -/
theorem rabinValue_congr (h : ∀ j, j < rabinWindowSize → lastByte ms j = lastByte ms' j) :
    rabinValue ms = rabinValue ms' := by
  obtain ⟨s, hs, hv⟩ := rabinValue_ok ms
  obtain ⟨s', hs', hv'⟩ := rabinValue_ok ms'
  rw [hv, hv']
  exact hs.congr (by decide) hs' h

theorem lastByte_append (A : List UInt8) {j : ℕ} (hj : j < S.length) :
    lastByte (A ++ S) j = lastByte S j := by
  rw [lastByte, List.reverse_append, lastByte, List.getD_append _ _ _ _ (by simpa using hj)]

/-- Without fix boundary, the fingerprint a window or more into `S` is that of `S`. -/
theorem rabinAt_append (A : List UInt8) {j : ℕ} (hw : rabinWindowSize ≤ j + 1) (hj : j < S.length) :
    rabinAt 0 (A ++ S) (A.length + j) = rabinAt 0 S j := by
  have hs : ∀ B : List UInt8, slice (B ++ S) 0 (B.length + j + 1) = B ++ S.take (j + 1) := by
    intro B
    unfold slice
    rw [List.drop_zero, Nat.add_assoc, List.take_length_add_append]
  have h0 := hs []
  rw [List.nil_append, List.nil_append, List.length_nil, Nat.zero_add] at h0
  have hl : ∀ q, lastMultiple 0 q = 0 := fun q => Nat.zero_mul _
  simp only [rabinAt, hl, Nat.sub_zero, hs A, h0]
  congr 1
  refine rabinValue_congr fun i hi => lastByte_append A ?_
  rw [List.length_take]
  omega

/-! ## Zeros -/

theorem rabinValue_zeros (n : ℕ) : rabinValue (List.replicate n 0) = 0 := by
  have hz : ∀ j, lastByte (List.replicate n 0) j = lastByte [] j := by
    intro j
    rw [lastByte_nil, lastByte, List.reverse_replicate, List.getD_eq_getElem?_getD,
      List.getElem?_replicate]
    split <;> rfl
  rw [rabinValue_congr fun j _ => hz j]
  obtain ⟨s, hs, hv⟩ := rabinValue_ok []
  rw [hv]
  apply BinPoly.toPoly_injective
  rw [hs.eq_mod (by decide)]
  have hw : windowPoly rabinWindowSize [] = 0 := by simp [windowPoly, bytePoly]
  rw [hw, Polynomial.zero_modByMonic]
  exact BinPoly.toPoly_zero.symm

/-- Zeros carry no marks. -/
theorem marks_zeros (sc : Scanner) (h : 2 ≤ sc.d.toNat) (h' : 2 ≤ sc.dDash.toNat) (n q : ℕ) :
    (sc.marks (List.replicate n 0)).primary q = false ∧
      (sc.marks (List.replicate n 0)).backup q = false := by
  have h0 : rabinAt sc.fixBoundarySize (List.replicate n 0) q = 0 := by
    unfold rabinAt
    unfold slice
    rw [List.drop_replicate, List.take_replicate, rabinValue_zeros]
    rfl
  simp only [Scanner.marks, h0, Nat.zero_mod, beq_eq_false_iff_ne]
  omega

/-! ## The greedy rule -/

/-- A limit is the end or a boundary. -/
theorem Scanner.limit_cases (sc : Scanner) (n s : ℕ) :
    sc.limit n s = n ∨ sc.fixBoundarySize ≠ 0 ∧ sc.limit n s % sc.fixBoundarySize = 0 := by
  unfold Scanner.limit
  split
  · exact .inl rfl
  · rename_i hF
    rcases min_choice (sc.fixBoundarySize * (s / sc.fixBoundarySize + 1)) n with h | h
    · exact .inr ⟨hF, by rw [h, Nat.mul_mod_right]⟩
    · exact .inl h

/-- **The log of a scan is the memoryless rule's**: the rule has one list of blocks,
and the log holds their offsets and sizes. No block is empty or longer than
`Tmax`, and one shorter than `Tmin` ends at a boundary or at the end. -/
theorem varScan_greedy (sha1 : List UInt8 → Checksum) (fileId : UInt32) (mem : Uninit) {kb : ℤ}
    (h1 : 1 ≤ kb) (h2 : kb ≤ 2048) (F : ℕ) (dataout : Bool) (X : List UInt8)
    (hf : Feeds X true 0 prev calls) :
    ∃ L, (∀ L', Chain ((Scanner.new mem true kb F dataout).marks X)
        ((Scanner.new mem true kb F dataout).limit X.length) 0 L' X.length ↔ L' = L) ∧
      ((Scanner.new mem true kb F dataout).feed sha1 fileId calls).ofs.map
          (fun b => (b.offset, b.size)) =
        L.map (fun r => (UInt64.ofNat r.1, UInt32.ofNat (r.2 + 1 - r.1))) ∧
      ∀ r ∈ L, r.1 ≤ r.2 ∧ r.2 + 1 - r.1 ≤ 4096 * kb.toNat ∧
        (r.2 + 1 - r.1 < 512 * kb.toNat → r.2 + 1 = X.length ∨ F ≠ 0 ∧ (r.2 + 1) % F = 0) := by
  obtain ⟨s₀, hfresh⟩ := fresh_new mem F dataout h1 h2
  obtain ⟨-, htmin, htmax, -, -⟩ := new_params mem F dataout true h1 h2
  set sc₀ := Scanner.new mem true kb F dataout with hsc
  have hF : sc₀.fixBoundarySize = F := rfl
  have hchain := hfresh.chain X
  have hlog := (feed_scan hfresh sha1 fileId hf).ofs_eq
  refine ⟨spansOf sc₀ X true, fun L' => ⟨?_, ?_⟩, ?_, ?_⟩
  · intro h
    exact h.unique (hfresh.tmin_pos X) hfresh.tmin_le hchain
  · rintro rfl
    exact hchain
  · rw [hlog, List.map_map]
    rfl
  · intro r hr
    obtain ⟨-, hle, -, -, hmax, hmin⟩ := hchain.mem_bounds (hfresh.tmin_pos X) hfresh.tmin_le hr
    rw [Scanner.marks_tmax] at hmax
    rw [Scanner.marks_tmin] at hmin
    refine ⟨hle, by omega, ?_⟩
    intro hshort
    rw [hmin (by omega), ← hF]
    exact sc₀.limit_cases X.length r.1

theorem Feeds.single (hX : X ≠ []) (hlen : X.length ≤ readBufferSize) :
    Feeds X e 0 prev [⟨X, prev, X.length, e⟩] := by
  have h0 : 0 < X.length := List.length_pos_iff.2 hX
  have hn : Feeds X e (0 + X.length) X [] := by
    rw [Nat.zero_add]
    exact .nil X
  refine .cons h0 ?_ ?_ rfl ?_ hn
  · simp only; omega
  · simp [slice]
  · simp

/-- The pieces of a file of more than one buffer, and no more than two. -/
def twoCalls (X prev : List UInt8) (e : Bool) : List Call :=
  [⟨X.take readBufferSize, prev, readBufferSize, false⟩,
    ⟨X.drop readBufferSize, X.take readBufferSize, X.length - readBufferSize, e⟩]

theorem Feeds.double (h1 : readBufferSize < X.length) (h2 : X.length ≤ 2 * readBufferSize) :
    Feeds X e 0 prev (twoCalls X prev e) := by
  have hlen : readBufferSize + (X.length - readBufferSize) = X.length := by omega
  have hnil : Feeds X e (readBufferSize + (X.length - readBufferSize)) (X.drop readBufferSize) [] := by
    rw [hlen]
    exact .nil _
  have hsecond : Feeds X e (0 + readBufferSize) (X.take readBufferSize)
      [⟨X.drop readBufferSize, X.take readBufferSize, X.length - readBufferSize, e⟩] := by
    rw [Nat.zero_add]
    refine .cons h1 ?_ rfl rfl ?_ hnil
    · simp only; omega
    · simp only [hlen, decide_true, Bool.and_true]
  refine .cons (by omega) ?_ ?_ rfl ?_ hsecond
  · simp only; omega
  · simp only [List.take_take, min_self, slice, List.drop_zero]
  · have hne : ¬ 0 + readBufferSize = X.length := by omega
    simp only [hne, decide_false, Bool.and_false]

/-- A buffer of zeros and one more. -/
def zerosFile : List UInt8 := List.replicate (readBufferSize + 1) 0

theorem zerosFile_feeds (e : Bool) : Feeds zerosFile e 0 [] (twoCalls zerosFile [] e) := by
  have hlen : zerosFile.length = readBufferSize + 1 := List.length_replicate
  refine .double ?_ ?_
  · omega
  · rw [hlen]
    decide

/-- The digest of the bytes 1, 2, 3. -/
def threeDigest : Checksum :=
  ⟨[0x70, 0x37, 0x80, 0x71, 0x98, 0xc2, 0x2a, 0x7d, 0x2b, 0x08, 0x07, 0x37, 0x1d, 0x76, 0x37, 0x79,
    0xa8, 0x4f, 0xdf, 0xcf], rfl⟩

/-- The digests of one zero byte and of 4096. -/
def zerosDigest (m : List UInt8) : Checksum :=
  if m.length = 1 then
    ⟨[0x5b, 0xa9, 0x3c, 0x9d, 0xb0, 0xcf, 0xf9, 0x3f, 0x52, 0xb5, 0x21, 0xd7, 0x42, 0x0e, 0x43, 0xf6,
      0xed, 0xa2, 0x78, 0x4f], rfl⟩
  else
    ⟨[0x1c, 0xea, 0xf7, 0x3d, 0xf4, 0x0e, 0x53, 0x1d, 0xf3, 0xbf, 0xb2, 0x6b, 0x4f, 0xb7, 0xcd, 0x95,
      0xfb, 0x7b, 0xff, 0x1d], rfl⟩

/-- The zeros in two pieces. -/
theorem varScan_greedy_zeros :
    ∃ L, (∀ L', Chain ((Scanner.new default true 1 0 false).marks zerosFile)
        ((Scanner.new default true 1 0 false).limit zerosFile.length) 0 L' zerosFile.length ↔ L' = L) ∧
      ((Scanner.new default true 1 0 false).feed zerosDigest 0 (twoCalls zerosFile [] true)).ofs.map
          (fun b => (b.offset, b.size)) =
        L.map (fun r => (UInt64.ofNat r.1, UInt32.ofNat (r.2 + 1 - r.1))) ∧
      ∀ r ∈ L, r.1 ≤ r.2 ∧ r.2 + 1 - r.1 ≤ 4096 * 1 ∧
        (r.2 + 1 - r.1 < 512 * 1 → r.2 + 1 = zerosFile.length ∨ 0 ≠ 0 ∧ (r.2 + 1) % 0 = 0) :=
  varScan_greedy zerosDigest 0 default (by decide) (by decide) 0 false zerosFile (zerosFile_feeds true)

/-! ## Short blocks -/

/-- A file of three chunks of two bytes, when every second byte has a boundary before it. -/
def pairsFile : List UInt8 := [7, 7, 8, 8, 7, 7]

theorem pairs_spans (mem : Uninit) (dataout : Bool) :
    spansOf (Scanner.new mem true 4 2 dataout) pairsFile true = [(0, 1), (2, 3), (4, 5)] := by
  obtain ⟨s₀, hfresh⟩ := fresh_new mem 2 dataout (show (1 : ℤ) ≤ 4 by decide) (by decide)
  have ht := hfresh.tmin
  set sc := Scanner.new mem true 4 2 dataout
  have hlim : ∀ s, sc.limit pairsFile.length s = min (2 * (s / 2 + 1)) 6 :=
    fun s => if_neg (show ¬ 2 = 0 by decide)
  -- a block from an even position
  have hcons : ∀ (s : ℕ) (L : List (ℕ × ℕ)), s % 2 = 0 → s < 6 →
      Chain (sc.marks pairsFile) (sc.limit pairsFile.length) (s + 1 + 1) L 6 →
        Chain (sc.marks pairsFile) (sc.limit pairsFile.length) s ((s, s + 1) :: L) 6 := by
    intro s L heven hs hc
    have hs2 : sc.limit pairsFile.length s = s + 2 := by
      rw [hlim]
      omega
    refine .cons (by omega) ?_ hc
    rw [hs2]
    exact isEnd_short hfresh.tmin_le (by omega) (by rw [Scanner.marks_tmin]; omega)
  refine (hfresh.chain pairsFile).unique (hfresh.tmin_pos _) hfresh.tmin_le ?_
  exact hcons 0 _ rfl (by decide) (hcons 2 _ rfl (by decide) (hcons 4 _ rfl (by decide) (.nil 6)))

/-! ## Resynchronisation -/

/-- Marks and limits on a common rest are the same. -/
theorem sameFrom_append (sc : Scanner) (hF : sc.fixBoundarySize = 0) (ht : 512 ≤ sc.tmin.toNat)
    (A B S : List UInt8) :
    SameFrom (sc.marks (A ++ S)) (sc.marks (B ++ S)) (sc.limit (A ++ S).length)
      (sc.limit (B ++ S).length) A.length B.length S.length := by
  have hl : ∀ n s, sc.limit n s = n := fun n s => by rw [Scanner.limit, if_pos hF]
  have hrabin : ∀ j, (sc.marks (A ++ S)).tmin ≤ j + 1 → j < S.length →
      rabinAt 0 (A ++ S) (A.length + j) = rabinAt 0 (B ++ S) (B.length + j) := by
    intro j hj hjS
    rw [Scanner.marks_tmin] at hj
    have hw : rabinWindowSize ≤ j + 1 := by
      unfold rabinWindowSize
      omega
    rw [rabinAt_append A hw hjS, rabinAt_append B hw hjS]
  refine ⟨rfl, rfl, ?_, ?_, ?_, ?_⟩
  · intro j hj hjS
    simp only [Scanner.marks, hF, hrabin j hj hjS]
  · intro j hj hjS
    simp only [Scanner.marks, hF, hrabin j hj hjS]
  · intro j hj
    rw [hl, List.length_append]
  · intro j hj
    rw [hl, hl, List.length_append, List.length_append]
    omega

/-- The bytes of a block of the rest. -/
theorem slice_append_left (A S : List UInt8) (i n : ℕ) :
    slice (A ++ S) (A.length + i) n = slice S i n := by
  rw [slice, List.drop_length_add_append, slice]

/-- The record of a block of a chain. -/
theorem spanRecord_size (sha1 : List UInt8 → Checksum) (fileId : UInt32) (X : List UInt8)
    {r : ℕ × ℕ} (h : r.2 + 1 - r.1 < 2 ^ 32) :
    (spanRecord sha1 fileId X r).size.toNat = r.2 + 1 - r.1 := by
  change (UInt32.ofNat (r.2 + 1 - r.1)).toNat = _
  rw [UInt32.toNat_ofNat', Nat.mod_eq_of_lt h]

/-- Where the block of the `i`-th record of a log starts: after the blocks of the records before
it. The record has this position, as a `uint64_t`, in its field `offset`. -/
def startOf (log : List Block) (i : ℕ) : Option ℕ := (log[i]?).map fun _ => sizeOf (log.take i)

/-- In the log of a chain it is the start of the `i`-th block. -/
theorem startOf_chain (sha1 : List UInt8 → Checksum) (fileId : UInt32) (X : List UInt8) {M : Marks}
    {limit : ℕ → ℕ} {s n : ℕ} {L : List (ℕ × ℕ)} (h1 : 1 ≤ M.tmin) (h2 : M.tmin ≤ M.tmax)
    (h32 : M.tmax < 2 ^ 32) (h : Chain M limit s L n) (i : ℕ) :
    (startOf (L.map (spanRecord sha1 fileId X)) i).map (s + ·) = (L[i]?).map Prod.fst := by
  induction h generalizing i with
  | nil s => rfl
  | @cons s e n L hs he h ih =>
    rcases i with - | i
    · rfl
    · obtain ⟨hle, -, hmax, -⟩ := he.bounds h1 h2 hs
      have hsize : (spanRecord sha1 fileId X (s, e)).size.toNat = e + 1 - s :=
        spanRecord_size sha1 fileId X (by simp only; omega)
      have hnext : ∀ m, s + (e + 1 - s + m) = e + 1 + m := by omega
      rw [List.getElem?_cons_succ, ← ih i]
      unfold startOf
      rw [List.map_cons, List.getElem?_cons_succ, List.take_succ_cons, sizeOf_cons, hsize,
        Option.map_map, Option.map_map]
      simp only [Function.comp_def, hnext]

/-- In the log of a scan the `i`-th record starts where the `i`-th block of the file does. -/
theorem startOf_feed {sc₀ : Scanner} {s₀ : RabinState} (hfresh : Fresh s₀ sc₀)
    (sha1 : List UInt8 → Checksum) (fileId : UInt32) (hf : Feeds X true 0 prev calls) (i : ℕ) :
    startOf (sc₀.feed sha1 fileId calls).ofs i = ((spansOf sc₀ X true)[i]?).map Prod.fst := by
  rw [(feed_scan hfresh sha1 fileId hf).ofs_eq, ← startOf_chain sha1 fileId X (hfresh.tmin_pos X)
    hfresh.tmin_le (UInt32.toNat_lt sc₀.tmax) (hfresh.chain X) i]
  simp only [Nat.zero_add, Option.map_id']

/-- **Content-defined resynchronisation.** When one block of each scan starts at the
first byte of `S`, the two logs have the same sizes and checksums from there on. -/
theorem varScan_resync (sha1 : List UInt8 → Checksum) (fileId fileId' : UInt32) (mem mem' : Uninit)
    {kb : ℤ} (h1 : 1 ≤ kb) (h2 : kb ≤ 2048) (dataout dataout' : Bool) (A B S : List UInt8)
    {prev prev' : List UInt8} {calls calls' : List Call}
    (hf : Feeds (A ++ S) true 0 prev calls) (hf' : Feeds (B ++ S) true 0 prev' calls') {i j : ℕ}
    (hi : startOf ((Scanner.new mem true kb 0 dataout).feed sha1 fileId calls).ofs i =
      some A.length)
    (hj : startOf ((Scanner.new mem' true kb 0 dataout').feed sha1 fileId' calls').ofs j =
      some B.length) :
    (((Scanner.new mem true kb 0 dataout).feed sha1 fileId calls).ofs.drop i).map
        (fun b => (b.size, b.cksum)) =
      (((Scanner.new mem' true kb 0 dataout').feed sha1 fileId' calls').ofs.drop j).map
        (fun b => (b.size, b.cksum)) := by
  obtain ⟨s₀, hfresh⟩ := fresh_new mem 0 dataout h1 h2
  obtain ⟨s₀', hfresh'⟩ := fresh_new mem' 0 dataout' h1 h2
  have hlog := (feed_scan hfresh sha1 fileId hf).ofs_eq
  have hlog' := (feed_scan hfresh' sha1 fileId' hf').ofs_eq
  have hchain := hfresh.chain (A ++ S)
  have hchain' := hfresh'.chain (B ++ S)
  set sc₀ := Scanner.new mem true kb 0 dataout
  set sc₀' := Scanner.new mem' true kb 0 dataout'
  -- the chains from the blocks that start at the rest
  rw [startOf_feed hfresh sha1 fileId hf] at hi
  rw [startOf_feed hfresh' sha1 fileId' hf'] at hj
  obtain ⟨r, hr, hrA⟩ := Option.map_eq_some_iff.1 hi
  obtain ⟨r', hr', hrB⟩ := Option.map_eq_some_iff.1 hj
  have hc := hchain.drop hr
  have hc' := hchain'.drop hr'
  rw [hrA] at hc
  rw [hrB] at hc'
  obtain ⟨R, hR, hshift⟩ := hc.shift (hfresh.tmin_pos _) hfresh.tmin_le
    (sameFrom_append sc₀ rfl hfresh.tmin A B S) 0
    S.length (by simp) (by simp) le_rfl
  rw [Nat.add_zero, ← List.length_append] at hshift
  have hR' := hc'.unique (hfresh'.tmin_pos _) hfresh'.tmin_le hshift
  rw [hlog, hlog', ← List.map_drop, ← List.map_drop, hR, hR']
  simp only [Tttd.shift, List.map_map]
  apply List.map_congr_left
  intro r _
  have hlen : ∀ d : ℕ, d + r.2 + 1 - (d + r.1) = r.2 + 1 - r.1 := by omega
  simp only [Function.comp_apply, spanRecord, hlen, slice_append_left]

theorem feeds_zeros {n : ℕ} (hn : 0 < n) (hle : n ≤ readBufferSize) :
    Feeds (List.replicate n 0) true 0 [] [⟨List.replicate n 0, [], n, true⟩] := by
  have hs : Feeds (List.replicate n 0) true 0 []
      [⟨List.replicate n 0, [], (List.replicate n (0 : UInt8)).length, true⟩] :=
    Feeds.single (by rw [ne_eq, List.replicate_eq_nil_iff]; omega)
      (by rw [List.length_replicate]; exact hle)
  rwa [List.length_replicate] at hs

/-- Zeros are cut every 4 KB. -/
theorem spansOf_zeros {n : ℕ} {L : List (ℕ × ℕ)}
    (h : ∀ {M : Marks}, (∀ s < n, IsEnd M s n (min (s + 4096) n - 1)) → Chain M (fun _ => n) 0 L n) :
    spansOf (Scanner.new default true 1 0 false) (List.replicate n 0) true = L := by
  obtain ⟨s₀, hfresh⟩ := fresh_new default 0 false (show (1 : ℤ) ≤ 1 by decide) (by decide)
  obtain ⟨-, -, htmax, hd, hd'⟩ :=
    new_params default 0 false true (show (1 : ℤ) ≤ 1 by decide) (by decide)
  have hchain := hfresh.chain (List.replicate n 0)
  rw [List.length_replicate] at hchain
  refine hchain.unique (hfresh.tmin_pos _) hfresh.tmin_le (h fun s hs => ?_)
  have hm := fun q => marks_zeros (Scanner.new default true 1 0 false) (by omega) (by omega) n q
  have hend := isEnd_no_marks (fun q _ => (hm q).1) (fun q _ => (hm q).2)
    (by rw [Scanner.marks_tmax]; omega) hs
  rwa [Scanner.marks_tmax, htmax] at hend

/-- A hard break at 4096 zeros, and the start of a file. -/
theorem varScan_resync_zeros :
    (((Scanner.new default true 1 0 false).feed zerosDigest 0
        [⟨List.replicate 4097 0, [], 4097, true⟩]).ofs.drop 1).map (fun b => (b.size, b.cksum)) =
      (((Scanner.new default true 1 0 false).feed zerosDigest 0
        [⟨[0], [], 1, true⟩]).ofs.drop 0).map (fun b => (b.size, b.cksum)) := by
  obtain ⟨s₀, hfresh⟩ := fresh_new default 0 false (show (1 : ℤ) ≤ 1 by decide) (by decide)
  have hf := feeds_zeros (show 0 < 4097 by decide) (by decide)
  have hf' := feeds_zeros (show 0 < 1 by decide) (by decide)
  have hspans := spansOf_zeros (n := 4097) fun hend =>
    .cons (by decide) (hend 0 (by decide)) (.cons (by decide) (hend 4096 (by decide)) (.nil _))
  have hspans' := spansOf_zeros (n := 1) fun hend =>
    .cons (by decide) (hend 0 (by decide)) (.nil _)
  have hjoin : Feeds (List.replicate 4096 0 ++ [0]) true 0 []
      [⟨List.replicate 4097 0, [], 4097, true⟩] := by
    rwa [← List.replicate_succ']
  refine varScan_resync zerosDigest 0 0 default default (by decide) (by decide) false false
    (List.replicate 4096 0) [] [0] (i := 1) (j := 0) hjoin hf' ?_ ?_
  · rw [startOf_feed hfresh zerosDigest 0 hf, hspans, List.length_replicate]
    rfl
  · have hstart := startOf_feed hfresh zerosDigest 0 hf' 0
    rw [hspans'] at hstart
    exact hstart

end DedupSim
