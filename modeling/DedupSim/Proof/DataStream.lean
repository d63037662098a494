import DedupSim.Lib.PrefixCode
import DedupSim.Lib.StoreOnce
import DedupSim.Proof.ScannerStats
import DedupSim.Proof.SegmentLocal

/-!
# The chunk data file

* `ChunkEntry.code`: the entries of the data stream as a prefix code.
* `storeBreaks_firsts`: the data stream holds the first breakpoint of each checksum.
* `dataStream_exact`: **the data stream parses as one entry for each checksum of the log,
  and from the log and these entries the file is rebuilt.**
-/

namespace DedupSim

open LittleEndian Tttd

variable {sha1 : List UInt8 → Checksum} {fileId : UInt32} {sc sc₀ : Scanner} {X prev : List UInt8}
  {calls : List Call} {s₀ : RabinState} {L : List (ℕ × ℕ)}

/-! ## Entries -/

/-- An entry whose payload has the size that is written. -/
structure ChunkEntry extends DataEntry where
  len : bytes.length = size.toNat

namespace Checksum

theorem fromStream_toStream (k : Checksum) (rest : List UInt8) :
    fromStream (k.toStream ++ rest) = (some k, rest) := by
  have htake : (k.toStream ++ rest).take cksumLen = k.data := List.take_left' k.len
  have hlen : ((k.toStream ++ rest).take cksumLen).length = cksumLen := by
    rw [htake]
    exact k.len
  unfold fromStream
  rw [dif_pos hlen, List.drop_left' (show k.toStream.length = cksumLen from k.len)]
  exact congrArg (fun k => (some k, rest)) (ext_data htake)

theorem fromStream_some {is rest : List UInt8} {k : Checksum} (h : fromStream is = (some k, rest)) :
    is = k.toStream ++ rest := by
  unfold fromStream at h
  split at h
  · cases h
    exact (List.take_append_drop cksumLen is).symm
  · cases h

end Checksum

namespace ChunkEntry

/-- Checksum, size and payload, one after another. -/
def decode (is : List UInt8) : Option (ChunkEntry × List UInt8) :=
  match Checksum.fromStream is with
  | (none, _) => none
  | (some k, is) =>
    match PrefixCode.count 4 is with
    | none => none
    | some (n, is) =>
      if h : (is.take n).length = (UInt32.ofNat n).toNat then
        some (⟨⟨k, UInt32.ofNat n, is.take n⟩, h⟩, is.drop n)
      else none

theorem decode_toStream (en : ChunkEntry) (rest : List UInt8) :
    decode (en.toStream ++ rest) = some (en, rest) := by
  obtain ⟨⟨k, size, bytes⟩, hlen⟩ := en
  have hsize : size.toNat < 256 ^ 4 := size.toNat_lt
  have hcount := PrefixCode.count_append 4 hsize (bytes ++ rest)
  have htake : (bytes ++ rest).take size.toNat = bytes := List.take_left' hlen
  have hdrop : (bytes ++ rest).drop size.toNat = rest := List.drop_left' hlen
  unfold decode DataEntry.toStream
  rw [List.append_assoc, List.append_assoc, Checksum.fromStream_toStream]
  simp only [hcount, htake, hdrop, UInt32.ofNat_toNat]
  exact dif_pos hlen

theorem toStream_decode {is rest : List UInt8} {en : ChunkEntry} (h : decode is = some (en, rest)) :
    is = en.toStream ++ rest := by
  unfold decode at h
  rcases hk : Checksum.fromStream is with ⟨- | k, is1⟩
  · simp only [hk] at h
    cases h
  rcases hn : PrefixCode.count 4 is1 with - | ⟨n, is2⟩
  · simp only [hk, hn] at h
    cases h
  simp only [hk, hn] at h
  split at h
  · cases h
    obtain ⟨hlt, rfl⟩ := PrefixCode.count_eq_some 4 hn
    have hsize : (UInt32.ofNat n).toNat = n := UInt32.toNat_ofNat_of_lt' hlt
    unfold DataEntry.toStream
    simp only [hsize, List.append_assoc, List.take_append_drop]
    exact Checksum.fromStream_some hk
  · cases h

/-- The entries of the data stream as a prefix code. -/
def code : PrefixCode ChunkEntry UInt8 where
  encode en := en.toStream
  decode := decode
  pos en := by
    unfold DataEntry.toStream
    rw [List.length_append, List.length_append, length_leBytes]
    omega
  decode_encode := decode_toStream
  encode_decode := toStream_decode

end ChunkEntry

/-! ## The data stream -/

/-- **The data stream holds the first breakpoint of each checksum.** -/
theorem storeBreaks_firsts (sha1 : List UInt8 → Checksum) (breaks : List Breakpoint) :
    breaks.foldl (storeBreak sha1) (some [], []) =
      (some ((firsts (fun bp => sha1 bp.bytes) breaks).flatMap (Breakpoint.entry sha1)),
        ((firsts (fun bp => sha1 bp.bytes) breaks).map fun bp => sha1 bp.bytes).reverse) := by
  induction breaks using List.reverseRecOn with
  | nil => rfl
  | append_singleton breaks bp ih =>
    rw [List.foldl_append, ih, firsts_snoc]
    unfold storeOnce
    rw [List.foldl_cons, List.foldl_nil, storeBreak]
    simp only [List.mem_reverse]
    split
    · rfl
    · rw [List.flatMap_append, List.map_append, List.reverse_append, List.flatMap_singleton]
      rfl

/-- The bytes of the chunks of a file. -/
def chunksOf (sc₀ : Scanner) (X : List UInt8) : List (List UInt8) :=
  (spansOf sc₀ X true).map fun r => slice X r.1 (r.2 + 1 - r.1)

/-- **The chunks make up the file.** -/
theorem chain_slices {M : Marks} {limit : ℕ → ℕ} {s t : ℕ} (h1 : 1 ≤ M.tmin) (h2 : M.tmin ≤ M.tmax)
    (X : List UInt8) (h : Chain M limit s L t) :
    L.flatMap (fun r => slice X r.1 (r.2 + 1 - r.1)) = slice X s (t - s) := by
  induction h with
  | nil s =>
    rw [Nat.sub_self]
    unfold slice
    rw [List.take_zero]
    rfl
  | @cons s e t L hs he h ih =>
    have hle := (he.bounds h1 h2 hs).1
    have hrest := h.le h1 h2
    have hnext : s + (e + 1 - s) = e + 1 := by omega
    have hsum : e + 1 - s + (t - (e + 1)) = t - s := by omega
    have hjoin := slice_append X s (e + 1 - s) (t - (e + 1))
    rw [hnext, hsum] at hjoin
    rw [List.flatMap_cons, ih, hjoin]

instance : Inhabited ChunkEntry := ⟨⟨⟨default, 0, []⟩, rfl⟩⟩

/-- The entry of a breakpoint. -/
theorem exists_entry (sha1 : List UInt8 → Checksum) {bp : Breakpoint} (hbp : bp.Exact X)
    (hle : bp.offset < X.length) (h32 : bp.offset + 1 - bp.newStart < 2 ^ 32) :
    ∃ en : ChunkEntry, en.cksum = sha1 bp.bytes ∧ en.bytes = bp.bytes ∧
      en.toStream = bp.entry sha1 := by
  have hsize : (UInt32.ofNat (bp.offset + 1 - bp.newStart)).toNat = bp.offset + 1 - bp.newStart :=
    UInt32.toNat_ofNat_of_lt' h32
  have hlen : bp.bytes.length = (UInt32.ofNat (bp.offset + 1 - bp.newStart)).toNat := by
    rw [hbp.bytes, length_slice, hsize]
    omega
  refine ⟨⟨⟨sha1 bp.bytes, UInt32.ofNat (bp.offset + 1 - bp.newStart), bp.bytes⟩, hlen⟩, rfl,
    rfl, ?_⟩
  change _ ++ leBytes 4 (UInt32.ofNat _).toNat ++ _ = _
  rw [hsize]
  rfl

/-- What is stored under a checksum. -/
def payload (entries : List ChunkEntry) (k : Checksum) : List UInt8 :=
  ((entries.find? fun en => decide (en.cksum = k)).map fun en => en.bytes).getD []

theorem payload_map {entryOf : Breakpoint → ChunkEntry} {l : List Breakpoint}
    {bp bp' : Breakpoint} (hcksum : ∀ b ∈ l, (entryOf b).cksum = sha1 b.bytes)
    (hfind : l.find? (fun b => decide (sha1 b.bytes = sha1 bp.bytes)) = some bp') :
    payload (l.map entryOf) (sha1 bp.bytes) = (entryOf bp').bytes := by
  have hsame : l.find? ((fun en => decide (en.cksum = sha1 bp.bytes)) ∘ entryOf) = some bp' := by
    rw [← hfind]
    apply List.find?_congr
    intro b hb
    change decide ((entryOf b).cksum = _) = _
    rw [hcksum b hb]
  unfold payload
  rw [List.find?_map, hsame]
  rfl

/-- **Every chunk is fetched by its checksum**, where the digest tells the chunks apart. -/
theorem payload_firsts {entryOf : Breakpoint → ChunkEntry} {breaks : List Breakpoint}
    (hcksum : ∀ b ∈ breaks, (entryOf b).cksum = sha1 b.bytes)
    (hbytes : ∀ b ∈ breaks, (entryOf b).bytes = b.bytes)
    (hkey : ∀ b ∈ breaks, ∀ b' ∈ breaks, sha1 b.bytes = sha1 b'.bytes → b.bytes = b'.bytes)
    {bp : Breakpoint} (hbp : bp ∈ breaks) :
    payload ((firsts (fun bp => sha1 bp.bytes) breaks).map entryOf) (sha1 bp.bytes) =
      bp.bytes := by
  have hfirsts : firsts (fun bp => sha1 bp.bytes) breaks ⊆ breaks := firsts_subset breaks
  obtain ⟨bp', hfind, heq⟩ := exists_fetch hkey hbp
  have hmem' := hfirsts (List.mem_of_find?_eq_some hfind)
  calc payload _ (sha1 bp.bytes)
    _ = (entryOf bp').bytes := payload_map (fun b hb => hcksum b (hfirsts hb)) hfind
    _ = bp'.bytes := hbytes bp' hmem'
    _ = bp.bytes := heq

/-- **The chunk data file.** Where the digest tells the chunks of the file apart, the data
stream parses as entries, and in one way only; there is one entry for each checksum of the
log, and the payloads of the records in order are the file. -/
theorem dataStream_exact (mem : Uninit) {kb : ℤ} (h1 : 1 ≤ kb) (h2 : kb ≤ 2048) (F : ℕ)
    (sha1 : List UInt8 → Checksum) (fileId : UInt32) (hf : Feeds X true 0 prev calls)
    (hsha : ∀ a ∈ chunksOf (Scanner.new mem true kb F true) X,
      ∀ b ∈ chunksOf (Scanner.new mem true kb F true) X, sha1 a = sha1 b → a = b) :
    let sc := (Scanner.new mem true kb F true).feed sha1 fileId calls
    ∃ out, ∃ entries : List ChunkEntry, sc.ofsdata = some out ∧
      ChunkEntry.code.decodeAll out = (entries, []) ∧
      (∀ entries', out = entries'.flatMap ChunkEntry.code.encode ↔ entries' = entries) ∧
      (entries.map fun en => en.cksum).Nodup ∧
      (∀ k, k ∈ entries.map (fun en => en.cksum) ↔ k ∈ sc.ofs.map Block.cksum) ∧
      (sc.ofs.flatMap fun b => payload entries b.cksum) = X := by
  intro sc
  obtain ⟨s₀, hfresh⟩ := fresh_new mem F true h1 h2
  have hlog := feed_scan hfresh sha1 fileId hf
  have hchain := hfresh.chain X
  have ht1 := hfresh.tmin_pos X
  have ht2 := hfresh.tmin_le
  have hmax := UInt32.toNat_lt (Scanner.new mem true kb F true).tmax
  have hspan : ∀ bp ∈ sc.breaks, bp.span ∈ spansOf (Scanner.new mem true kb F true) X true := by
    intro bp hbp
    rw [← hlog.out]
    exact List.mem_map_of_mem hbp
  -- every breakpoint has an entry
  have hentry : ∀ bp ∈ sc.breaks, ∃ en : ChunkEntry, en.cksum = sha1 bp.bytes ∧
      en.bytes = bp.bytes ∧ en.toStream = bp.entry sha1 := by
    intro bp hbp
    have hb := hchain.mem_bounds ht1 ht2 (hspan bp hbp)
    rw [Scanner.marks_tmax] at hb
    simp only [Breakpoint.span] at hb
    exact exists_entry sha1 (hlog.good bp hbp) hb.2.2.2.1 (by omega)
  have hchunk : ∀ bp ∈ sc.breaks, bp.bytes ∈ chunksOf (Scanner.new mem true kb F true) X := by
    intro bp hbp
    rw [(hlog.good bp hbp).bytes]
    exact List.mem_map_of_mem (f := fun r : ℕ × ℕ => slice X r.1 (r.2 + 1 - r.1)) (hspan bp hbp)
  -- the checksums tell the chunks apart
  have hkey : ∀ bp ∈ sc.breaks, ∀ bp' ∈ sc.breaks, sha1 bp.bytes = sha1 bp'.bytes →
      bp.bytes = bp'.bytes := by
    intro bp hbp bp' hbp'
    exact hsha _ (hchunk bp hbp) _ (hchunk bp' hbp')
  choose! entryOf hcksum hbytes hstream using hentry
  have hfirsts : firsts (fun bp => sha1 bp.bytes) sc.breaks ⊆ sc.breaks := firsts_subset sc.breaks
  have hdata : sc.ofsdata = some ((firsts (fun bp => sha1 bp.bytes) sc.breaks).flatMap
      (Breakpoint.entry sha1)) := by
    have h : (sc.ofsdata, sc.datamap) = sc.breaks.foldl (storeBreak sha1) (some [], []) := hlog.data
    rw [storeBreaks_firsts] at h
    exact congrArg Prod.fst h
  refine ⟨_, (firsts (fun bp => sha1 bp.bytes) sc.breaks).map entryOf, hdata, ?_⟩
  have hcksums : ((firsts (fun bp => sha1 bp.bytes) sc.breaks).map entryOf).map
      (fun en => en.cksum) =
        (firsts (fun bp => sha1 bp.bytes) sc.breaks).map fun bp => sha1 bp.bytes := by
    rw [List.map_map]
    exact List.map_congr_left fun bp hbp => hcksum bp (hfirsts hbp)
  have hout : (firsts (fun bp => sha1 bp.bytes) sc.breaks).flatMap (Breakpoint.entry sha1) =
      ((firsts (fun bp => sha1 bp.bytes) sc.breaks).map entryOf).flatMap
        ChunkEntry.code.encode := by
    rw [List.flatMap_map]
    exact List.flatMap_congr fun bp hbp => (hstream bp (hfirsts hbp)).symm
  refine ⟨?_, ?_, ?_, ?_, ?_⟩
  · rw [hout]
    exact ChunkEntry.code.decodeAll_encode _
  · intro entries'
    rw [hout]
    exact ⟨fun h => (ChunkEntry.code.encode_inj h).symm, fun h => by rw [h]⟩
  · rw [hcksums]
    exact nodup_firsts sc.breaks
  · intro k
    rw [hcksums, mem_firsts_keys, hlog.log, List.map_map]
    rfl
  · -- each record is replaced by the bytes of its breakpoint, and these make up the file
    have hjoin := chain_slices ht1 ht2 X hchain
    rw [Nat.sub_zero, slice, List.drop_zero, List.take_length] at hjoin
    rw [hlog.log, List.flatMap_map, ← hjoin, ← hlog.out, List.flatMap_map]
    apply List.flatMap_congr
    intro bp hbp
    exact (payload_firsts hcksum hbytes hkey hbp).trans (hlog.good bp hbp).bytes

/-- A file of three chunks, of which two are equal; the digest tells the others apart. -/
theorem dataStream_exact_pairs :
    let sc := (Scanner.new default true 4 2 true).feed pairsDigest 0 [⟨pairsFile, [], 6, true⟩]
    ∃ out, ∃ entries : List ChunkEntry, sc.ofsdata = some out ∧
      ChunkEntry.code.decodeAll out = (entries, []) ∧
      (∀ entries', out = entries'.flatMap ChunkEntry.code.encode ↔ entries' = entries) ∧
      (entries.map fun en => en.cksum).Nodup ∧
      (∀ k, k ∈ entries.map (fun en => en.cksum) ↔ k ∈ sc.ofs.map Block.cksum) ∧
      (sc.ofs.flatMap fun b => payload entries b.cksum) = pairsFile := by
  refine dataStream_exact (X := pairsFile) default (by decide) (by decide) 2 pairsDigest 0
    (.single (by decide) (by decide)) ?_
  unfold chunksOf
  rw [pairs_spans]
  decide

end DedupSim
