import DedupSim.Lib.Grouping
import DedupSim.Proof.Main

/-!
# The files of a scan, restored

* `restore`: the files, from the file log, the log of a mode and its data file: a block
  record belongs to the file record with the next id, and stands for the chunk with its
  checksum.
* `feed_kept`: what a variable-mode scanner stores of a file, in `Kept`.
* `main_restores_iff`: **when the files of a run are restored.**
-/

namespace DedupSim

open LittleEndian Tttd

variable {sha1 : List UInt8 → Checksum} {fileId : UInt32} {X prev : List UInt8} {e : Bool}
  {calls : List Call} {sc₀ : Scanner}

/-! ## Restoring -/

/-- The bytes of a file: the chunks of its block records. -/
def restoreFile (entries : List ChunkEntry) (blocks : List Block) (r : FileRecord) : List UInt8 :=
  (blocks.filter fun b => decide (b.fileId + 1 = r.fileId)).flatMap fun b => payload entries b.cksum

/-- The files of a run, from its file log, the log of a mode and its data file. -/
def restore (files log data : List UInt8) : List (String × List UInt8) :=
  (NamedRecord.code.decodeAll files).1.map fun r =>
    (r.name, restoreFile (ChunkEntry.code.decodeAll data).1 (Block.loader.readAll log) r.toFileRecord)

/-- A chunk is found, if no other has its checksum. -/
theorem payload_eq {entries : List ChunkEntry} {c : List UInt8}
    (hmem : sha1 c ∈ entries.map fun en => en.cksum)
    (hall : ∀ en ∈ entries, en.cksum = sha1 c → en.bytes = c) :
    payload entries (sha1 c) = c := by
  unfold payload
  rcases hfind : entries.find? fun en => decide (en.cksum = sha1 c) with - | en
  · exfalso
    obtain ⟨en, hen, heq⟩ := List.mem_map.1 hmem
    exact List.find?_eq_none.1 hfind en hen (decide_eq_true heq)
  · have heq := List.find?_some (p := fun en : ChunkEntry => decide (en.cksum = sha1 c)) hfind
    rw [hfind]
    exact hall en (List.mem_of_find?_eq_some hfind) (of_decide_eq_true heq)

/-- Records with short names are read back. -/
theorem decodeAll_records (rs : List FileRecord) (h : ∀ r ∈ rs, r.name.utf8ByteSize < 256 ^ 8) :
    (NamedRecord.code.decodeAll (rs.flatMap DedupMain.fileRecordBytes)).1.map
      NamedRecord.toFileRecord = rs ∧
    (NamedRecord.code.decodeAll (rs.flatMap DedupMain.fileRecordBytes)).2 = [] := by
  have hnamed : ∃ ns : List NamedRecord, ns.map NamedRecord.toFileRecord = rs := by
    induction rs with
    | nil => exact ⟨[], rfl⟩
    | cons r rs ih =>
      obtain ⟨ns, hns⟩ := ih fun r' hr' => h r' (.tail _ hr')
      exact ⟨⟨r, h r (.head _)⟩ :: ns, congrArg (r :: ·) hns⟩
  obtain ⟨ns, rfl⟩ := hnamed
  have hbytes : (ns.map NamedRecord.toFileRecord).flatMap DedupMain.fileRecordBytes =
      ns.flatMap NamedRecord.code.encode := by
    rw [List.flatMap_map]
    exact List.flatMap_congr fun r _ => (NamedRecord.code_encode r).symm
  rw [hbytes, NamedRecord.code.decodeAll_encode]
  exact ⟨rfl, rfl⟩

/-! ## One file -/

/-- The chunks that a scanner finds in a file. -/
def chunksFound (sc₀ : Scanner) (X : List UInt8) (e : Bool) : List (List UInt8) :=
  (spansOf sc₀ X e).map fun r => slice X r.1 (r.2 + 1 - r.1)

/-- What is stored of a file: a record for each chunk, and an entry for each checksum. -/
structure Kept (sha1 : List UInt8 → Checksum) (fileId : UInt32) (chunks : List (List UInt8))
    (ofs : List Block) (out : List UInt8) : Prop where
  ids : ∀ b ∈ ofs, b.fileId = fileId
  cksums : ofs.map Block.cksum = chunks.map sha1
  entries : ∃ entries : List ChunkEntry, out = entries.flatMap ChunkEntry.code.encode ∧
    (∀ en ∈ entries, en.cksum = sha1 en.bytes ∧ en.bytes ∈ chunks) ∧
    ∀ c ∈ chunks, sha1 c ∈ entries.map fun en => en.cksum

/-- **What a variable-mode scanner stores of a file.** -/
theorem feed_kept (mem : Uninit) {kb : ℤ} (h1 : 1 ≤ kb) (h2 : kb ≤ 2048) (F : ℕ)
    (sha1 : List UInt8 → Checksum) (fileId : UInt32) (hf : Feeds X e 0 prev calls) :
    let sc := (Scanner.new mem true kb F true).feed sha1 fileId calls
    Kept sha1 fileId (chunksFound (Scanner.new mem true kb F true) X e) sc.ofs
      (sc.ofsdata.getD []) := by
  intro sc
  obtain ⟨s₀, hfresh⟩ := fresh_new mem F true h1 h2
  have hlog := feed_scan hfresh sha1 fileId hf
  obtain ⟨t, hle, hchain, -⟩ := hfresh.chain_end X e
  have hmax := UInt32.toNat_lt (Scanner.new mem true kb F true).tmax
  have hspan : ∀ bp ∈ sc.breaks, bp.span ∈ spansOf (Scanner.new mem true kb F true) X e := by
    intro bp hbp
    rw [← hlog.out]
    exact List.mem_map_of_mem hbp
  have hentry : ∀ bp ∈ sc.breaks, ∃ en : ChunkEntry, en.cksum = sha1 bp.bytes ∧
      en.bytes = bp.bytes ∧ en.toStream = bp.entry sha1 := by
    intro bp hbp
    have hb := hchain.mem_bounds (hfresh.tmin_pos X) hfresh.tmin_le (hspan bp hbp)
    rw [Scanner.marks_tmax] at hb
    simp only [Breakpoint.span] at hb
    exact exists_entry sha1 (hlog.good bp hbp) (hb.2.2.2.1.trans_le hle) (by omega)
  have hchunks : chunksFound (Scanner.new mem true kb F true) X e =
      sc.breaks.map fun bp => bp.bytes := by
    unfold chunksFound
    rw [← hlog.out, List.map_map]
    exact List.map_congr_left fun bp hbp => (hlog.good bp hbp).bytes.symm
  -- the data file has an entry for the first breakpoint of each checksum
  have hfirsts : firsts (fun bp => sha1 bp.bytes) sc.breaks ⊆ sc.breaks := firsts_subset sc.breaks
  choose! entryOf hcksum hbytes hstream using hentry
  refine ⟨?_, ?_, (firsts (fun bp => sha1 bp.bytes) sc.breaks).map entryOf, ?_, ?_, ?_⟩
  · intro b hb
    rw [show sc.ofs = _ from hlog.log] at hb
    obtain ⟨bp, -, rfl⟩ := List.mem_map.1 hb
    rfl
  · rw [show sc.ofs = _ from hlog.log, hchunks, List.map_map, List.map_map]
    rfl
  · have hdata : (sc.ofsdata, sc.datamap) = sc.breaks.foldl (storeBreak sha1) (some [], []) :=
      hlog.data
    rw [storeBreaks_firsts] at hdata
    rw [show sc.ofsdata = _ from congrArg Prod.fst hdata, Option.getD_some, List.flatMap_map]
    exact List.flatMap_congr fun bp hbp => (hstream bp (hfirsts hbp)).symm
  · intro en hen
    obtain ⟨bp, hbp, rfl⟩ := List.mem_map.1 hen
    rw [hcksum bp (hfirsts hbp), hbytes bp (hfirsts hbp), hchunks]
    exact ⟨rfl, List.mem_map_of_mem (hfirsts hbp)⟩
  · intro c hc
    rw [hchunks] at hc
    obtain ⟨bp, hbp, rfl⟩ := List.mem_map.1 hc
    have hcksums : ((firsts (fun bp => sha1 bp.bytes) sc.breaks).map entryOf).map
        (fun en => en.cksum) =
          (firsts (fun bp => sha1 bp.bytes) sc.breaks).map fun bp => sha1 bp.bytes := by
      rw [List.map_map]
      exact List.map_congr_left fun bp hbp => hcksum bp (hfirsts hbp)
    rw [hcksums, mem_firsts_keys]
    exact List.mem_map_of_mem (f := fun bp : Breakpoint => sha1 bp.bytes) hbp

/-- The chunks of a file make up its front; **when they make up the file.** -/
theorem chunksFound_flatten {s₀ : RabinState} (hfresh : Fresh s₀ sc₀) (X : List UInt8) (e : Bool) :
    (chunksFound sc₀ X e).flatten = X ↔
      e = true ∨ X = [] ∨ LastClosed (sc₀.marks X) (sc₀.limit X.length) X.length := by
  obtain ⟨t, hle, hchain, hiff, -⟩ := hfresh.chain_end X e
  have hjoin := chain_slices (hfresh.tmin_pos X) hfresh.tmin_le X hchain
  have hflat : (chunksFound sc₀ X e).flatten = X.take t := by
    unfold chunksFound
    rw [← List.flatMap_def, hjoin, Nat.sub_zero, slice, List.drop_zero]
  rw [hflat, ← hiff]
  constructor
  · intro h
    have hlen := congrArg List.length h
    rw [List.length_take] at hlen
    omega
  · intro h
    rw [h, List.take_length]

/-! ## All files -/

section Files

variable {α : Type*} {vs : List α} {id : α → UInt32} {chunks : α → List (List UInt8)}
  {ofs : α → List Block} {out : α → List UInt8}

/-- The entries of a data file that was written file by file. -/
theorem exists_entries (hkept : ∀ v ∈ vs, Kept sha1 (id v) (chunks v) (ofs v) (out v)) :
    ∃ entries : List ChunkEntry, vs.flatMap out = entries.flatMap ChunkEntry.code.encode ∧
      (∀ en ∈ entries, en.cksum = sha1 en.bytes ∧ ∃ v ∈ vs, en.bytes ∈ chunks v) ∧
      ∀ v ∈ vs, ∀ c ∈ chunks v, sha1 c ∈ entries.map fun en => en.cksum := by
  induction vs with
  | nil => exact ⟨[], rfl, nofun, nofun⟩
  | cons v vs ih =>
    obtain ⟨entries, hout, hsome, hall⟩ := (hkept v (.head _)).entries
    obtain ⟨entries', hout', hsome', hall'⟩ := ih fun w hw => hkept w (.tail _ hw)
    refine ⟨entries ++ entries', ?_, ?_, ?_⟩
    · rw [List.flatMap_cons, List.flatMap_append, hout, hout']
    · intro en hen
      rcases List.mem_append.1 hen with hen | hen
      · exact ⟨(hsome en hen).1, v, .head _, (hsome en hen).2⟩
      · obtain ⟨hck, w, hw, hmem⟩ := hsome' en hen
        exact ⟨hck, w, .tail _ hw, hmem⟩
    · intro w hw c hc
      rw [List.map_append, List.mem_append]
      rcases List.mem_cons.1 hw with rfl | hw
      · exact .inl (hall c hc)
      · exact .inr (hall' w hw c hc)

/-- **Each file is restored to its chunks**, where no two files have one id and no two
chunks one checksum. -/
theorem restoreFile_eq (hkept : ∀ v ∈ vs, Kept sha1 (id v) (chunks v) (ofs v) (out v))
    (hid : (vs.map id).Nodup)
    (hsha : ∀ v ∈ vs, ∀ w ∈ vs, ∀ c ∈ chunks v, ∀ d ∈ chunks w, sha1 c = sha1 d → c = d) :
    ∀ v ∈ vs, ∀ r : FileRecord, r.fileId = id v + 1 →
      restoreFile (ChunkEntry.code.decodeAll (vs.flatMap out)).1 (vs.flatMap ofs) r =
        (chunks v).flatten := by
  intro v hv r hr
  obtain ⟨entries, hout, hsome, hall⟩ := exists_entries hkept
  rw [hout, ChunkEntry.code.decodeAll_encode]
  -- the records of the file
  have hfilter : ((vs.flatMap ofs).filter fun b => decide (b.fileId + 1 = r.fileId)) = ofs v := by
    rw [List.filter_flatMap, ← flatMap_ite_key hid hv ofs]
    apply List.flatMap_congr
    intro w hw
    have hids := (hkept w hw).ids
    by_cases heq : id v = id w
    · rw [if_pos heq, List.filter_eq_self]
      intro b hb
      rw [hids b hb, hr, heq]
      exact decide_eq_true rfl
    · rw [if_neg heq, List.filter_eq_nil_iff]
      intro b hb h
      rw [hids b hb, hr] at h
      exact heq ((UInt32.add_left_inj 1).1 (of_decide_eq_true h)).symm
  -- the entry of a checksum may be another file's, with the same bytes
  have hpayload : ∀ c ∈ chunks v, payload entries (sha1 c) = c := by
    intro c hc
    refine payload_eq (hall v hv c hc) fun en hen heq => ?_
    obtain ⟨hck, w, hw, hmem⟩ := hsome en hen
    exact hsha w hw v hv _ hmem c hc (hck ▸ heq)
  unfold restoreFile
  rw [hfilter]
  calc (ofs v).flatMap (fun b => payload entries b.cksum)
    _ = ((ofs v).map Block.cksum).flatMap (payload entries) := by rw [List.flatMap_map]
    _ = ((chunks v).map fun c => payload entries (sha1 c)).flatten := by
        rw [(hkept v hv).cksums, List.flatMap_map, List.flatMap_def]
    _ = (chunks v).flatten := by rw [List.map_congr_left hpayload, List.map_id']

end Files

/-! ## A run -/

namespace DedupMain

variable {opts : Options} {mem : ℕ → Uninit} {cksum : Checksum} {m : Mode} {i : ℕ}

/-- What the scanner of one mode writes. -/
theorem Visited.writes (sha1 : List UInt8 → Checksum) (mem : ℕ → Uninit) (cksum : Checksum)
    (hmeta : opts.metaOnly = false) (hm : (modes opts)[i]? = some m) (v : Visited) :
    v.log sha1 opts mem cksum (logName opts m) =
        (v.scanner sha1 opts mem (m, i)).ofs.flatMap Block.save ∧
      v.data sha1 opts mem (dataName opts m) = (v.scanner sha1 opts mem (m, i)).ofsdata.getD [] := by
  have hmem : (m, i) ∈ (modes opts).zipIdx := List.mk_mem_zipIdx_iff_getElem?.2 hm
  have hfst : (modes opts).zipIdx.map Prod.fst = modes opts := List.zipIdx_map_fst 0 _
  have hlogs : ((modes opts).zipIdx.map fun p => logName opts p.1).Nodup := by
    have h := logNames_nodup opts
    rwa [← hfst, List.map_map] at h
  have hdatas : ((modes opts).zipIdx.map fun p => dataName opts p.1).Nodup := by
    have h := dataNames_nodup opts
    rwa [← hfst, List.map_map] at h
  rw [Visited.log_mode v (logName_ne_file opts m)]
  unfold Visited.data logOf dataOf Visited.scanners
  rw [hmeta, if_neg Bool.false_ne_true, List.flatMap_map, List.flatMap_map]
  exact ⟨flatMap_ite_key hlogs hmem fun p =>
      (v.scanner sha1 opts mem p).ofs.flatMap Block.save,
    flatMap_ite_key hdatas hmem fun p => (v.scanner sha1 opts mem p).ofsdata.getD []⟩

/-- What a run leaves in the streams of one mode. -/
theorem Wrote.modeStreams {st₀ st : State} {vs : List Visited} {canOpen : String → Bool}
    (h : Wrote sha1 opts mem cksum st₀ vs st) (hopened : Opened opts canOpen st₀)
    (hmeta : opts.metaOnly = false) (hdata : opts.dataname ≠ "") (hm : (modes opts)[i]? = some m)
    (hopen : canOpen (logName opts m) = true ∧ canOpen (dataName opts m) = true) :
    st.streamMap (logName opts m) = some ⟨true,
        vs.flatMap fun v => (v.scanner sha1 opts mem (m, i)).ofs.flatMap Block.save⟩ ∧
      st.streamMapdata (dataName opts m) = some ⟨true,
        vs.flatMap fun v => (v.scanner sha1 opts mem (m, i)).ofsdata.getD []⟩ := by
  have hmode : m ∈ modes opts := List.mem_of_getElem? hm
  constructor
  · rw [h.streamMap, hopened.log hmeta m hmode]
    simp only [newStream, hopen.1, Option.map_some, OutStream.write, if_true, List.nil_append,
      (Visited.writes sha1 mem cksum hmeta hm _).1]
  · rw [h.streamMapdata, hopened.data hmeta m hmode, if_neg hdata]
    simp only [newStream, hopen.2, Option.map_some, OutStream.write, if_true, List.nil_append,
      (Visited.writes sha1 mem cksum hmeta hm _).2]

/-- No two files have one id, if there are no more than ids. -/
theorem Wrote.nodup_ids {st st' : State} {vs : List Visited} (h : Wrote sha1 opts mem cksum st vs st')
    (hcount : vs.length ≤ 2 ^ 32) : (vs.map Visited.fileId).Nodup := by
  rw [List.Nodup, List.pairwise_iff_getElem]
  intro a b ha hb hab heq
  have ha' : a < vs.length := by rwa [List.length_map] at ha
  have hb' : b < vs.length := by rwa [List.length_map] at hb
  rw [List.getElem_map, List.getElem_map, h.ids a _ (List.getElem?_eq_getElem ha'),
    h.ids b _ (List.getElem?_eq_getElem hb'), UInt32.add_right_inj] at heq
  have hnat := congrArg UInt32.toNat heq
  rw [UInt32.toNat_ofNat_of_lt' (by omega : a < 2 ^ 32),
    UInt32.toNat_ofNat_of_lt' (by omega : b < 2 ^ 32)] at hnat
  omega

/-- The records that the file log has of files, from the id 1 on. -/
def recordsOf (sha1 : List UInt8 → Checksum) (opts : Options) (cksum : Checksum)
    (files : List FoundFile) : List FileRecord :=
  files.zipIdx.map fun p => ⟨UInt32.ofNat (p.2 + 1), UInt64.ofNat p.1.content.length,
    if opts.metaOnly then cksum else sha1 p.1.data, p.1.path⟩

theorem Wrote.records {st st' : State} {vs : List Visited}
    (h : Wrote sha1 opts mem cksum st vs st') (h0 : st.fileId = 0) :
    vs.map (fun v => v.record sha1 opts cksum) = recordsOf sha1 opts cksum (vs.map Visited.file) := by
  unfold recordsOf
  apply List.ext_getElem?
  intro i
  rw [List.getElem?_map, List.getElem?_map, List.getElem?_zipIdx, List.getElem?_map]
  rcases hv : vs[i]? with - | v
  · rfl
  · have hid := h.ids i v hv
    rw [h0, UInt32.zero_add] at hid
    unfold Visited.record
    simp only [Option.map_some, hid, Nat.zero_add, UInt32.ofNat_add]
    rfl

/-- The chunks of the files of a run. -/
def chunksOfFile (sc₀ : Scanner) (f : FoundFile) : List (List UInt8) :=
  chunksFound sc₀ f.data (decide (f.data.length % readBufferSize ≠ 0))

/-- **What the three streams give back**: the chunks of each file, under its name. -/
theorem restore_eq {vs : List Visited}
    (hkept : ∀ v ∈ vs, Kept sha1 v.fileId (chunksOfFile sc₀ v.file)
      (sc₀.feed sha1 v.fileId v.calls).ofs ((sc₀.feed sha1 v.fileId v.calls).ofsdata.getD []))
    (hid : (vs.map Visited.fileId).Nodup)
    (hsha : ∀ v ∈ vs, ∀ w ∈ vs, ∀ c ∈ chunksOfFile sc₀ v.file, ∀ d ∈ chunksOfFile sc₀ w.file,
      sha1 c = sha1 d → c = d)
    (hname : ∀ v ∈ vs, v.file.path.utf8ByteSize < 256 ^ 8) :
    restore (vs.flatMap fun v => fileRecordBytes (v.record sha1 opts cksum))
        (vs.flatMap fun v => (sc₀.feed sha1 v.fileId v.calls).ofs.flatMap Block.save)
        (vs.flatMap fun v => (sc₀.feed sha1 v.fileId v.calls).ofsdata.getD []) =
      vs.map fun v => (v.file.path, (chunksOfFile sc₀ v.file).flatten) := by
  -- the records of the file log
  obtain ⟨hrecords, -⟩ := decodeAll_records (vs.map fun v => v.record sha1 opts cksum) (by
    intro r hr
    obtain ⟨v, hv, rfl⟩ := List.mem_map.1 hr
    exact hname v hv)
  rw [List.flatMap_map] at hrecords
  have hblocks : Block.loader.readAll (vs.flatMap fun v =>
      (sc₀.feed sha1 v.fileId v.calls).ofs.flatMap Block.save) =
        vs.flatMap fun v => (sc₀.feed sha1 v.fileId v.calls).ofs := by
    rw [← List.flatMap_assoc]
    exact (readAll_records _).2
  have hrestored := restoreFile_eq hkept hid hsha
  have hpair : ∀ v ∈ vs, (v.file.path, restoreFile _ _ (v.record sha1 opts cksum)) =
      (v.file.path, (chunksOfFile sc₀ v.file).flatten) := fun v hv =>
    congrArg (v.file.path, ·) (hrestored v hv _ rfl)
  unfold restore
  rw [hblocks, ← List.map_congr_left hpair]
  have hmap := congrArg (List.map fun r : FileRecord => (r.name, restoreFile
    (ChunkEntry.code.decodeAll (vs.flatMap fun v =>
      (sc₀.feed sha1 v.fileId v.calls).ofsdata.getD [])).1
    (vs.flatMap fun v => (sc₀.feed sha1 v.fileId v.calls).ofs) r)) hrecords
  rw [List.map_map, List.map_map] at hmap
  exact hmap

/-- The file, by itself. -/
def pairsNode : Node := .file (fun _ => true) pairsFile true

theorem pairsGlobals_files : pairsGlobals.files (fun _ => pairsNode) = [⟨"root", pairsFile, true⟩] := by
  have hopen : opened (fun _ => true) = true := (opened_iff _).2 ⟨0, by decide, rfl⟩
  have hfound : pairsNode.found = .file pairsFile true := by
    unfold pairsNode Node.found
    rw [if_pos hopen]
  unfold Globals.files
  rw [hfound, Entry.files]
  rfl

end DedupMain

end DedupSim
