import DedupSim.Proof.Silent
import Mathlib.Data.List.Forall2

/-!
# The files of a scan and their ids

* `Entry.files`, `scan_eq_foldl`: the traversal visits the files of the tree in
  order.
* `Options.selected`, `foldl_scanFile`: **the files that are not skipped**, and
  what each leaves in the logs.
* `blockIds_resolve_iff`: a block record carries the id of its file's record only
  where there is no block record.
-/

namespace DedupSim

variable {sha1 : List UInt8 → Checksum} {opts : Options} {mem : ℕ → Uninit} {cksum : Checksum}
  {st : DriverState}

/-- A regular file of the tree. -/
structure FoundFile where
  path : String
  content : List UInt8
  readable : Bool

/-- What can be read of the file. -/
def FoundFile.data (f : FoundFile) : List UInt8 := if f.readable then f.content else []

mutual

/-- The files found at `path`, in the order of the traversal. -/
def Entry.files (path : String) : Entry → List FoundFile
  | .file content readable => [⟨path, content, readable⟩]
  | .dir entries => entries.files path
  | .other => []

def Entries.files (path : String) : Entries → List FoundFile
  | .nil => []
  | .cons name entry rest =>
    if name = "" then [] else entry.files (path ++ "/" ++ name) ++ rest.files path

end

section Scan

variable (sha1 : List UInt8 → Checksum) (opts : Options) (mem : ℕ → Uninit) (cksum : Checksum)

/-- `scan` on a file of the tree. -/
def visitFile (st : DriverState) (f : FoundFile) : DriverState :=
  scanFile sha1 opts mem cksum st f.path f.content f.readable

mutual

/-- **The traversal** scans the files one after another. -/
theorem scan_eq_foldl : ∀ (entry : Entry) (st : DriverState) (path : String),
    scan sha1 opts mem cksum st path entry =
      (entry.files path).foldl (visitFile sha1 opts mem cksum) st
  | .file content readable, st, path => by rw [scan, Entry.files]; rfl
  | .dir entries, st, path => by rw [scan, Entry.files, scanEntries_eq_foldl entries]
  | .other, st, path => by rw [scan, Entry.files]; rfl

theorem scanEntries_eq_foldl : ∀ (entries : Entries) (st : DriverState) (path : String),
    scanEntries sha1 opts mem cksum st path entries =
      (entries.files path).foldl (visitFile sha1 opts mem cksum) st
  | .nil, st, path => by rw [scanEntries, Entries.files]; rfl
  | .cons name entry rest, st, path => by
    unfold scanEntries
    unfold Entries.files
    split
    · rfl
    · rw [scan_eq_foldl entry, scanEntries_eq_foldl rest, List.foldl_append]

end

end Scan

/-! ## One file -/

/-- The scanners' records of a file, and the state of the loop, whatever `readable` is. -/
theorem scanData_records (sha1 : List UInt8 → Checksum) (fileId : UInt32) (scanners : List Scanner)
    (f : FoundFile) (p1 p2 : List UInt8) :
    ∃ calls, Feeds f.data (decide (f.data.length % readBufferSize ≠ 0)) 0 p1 calls ∧
      (scanData sha1 fileId scanners (LocalFSReader.open f.content f.readable) p1 p2).scanners =
        scanners.map fun sc => sc.feed sha1 fileId calls := by
  unfold FoundFile.data
  rcases f.readable with - | -
  · refine ⟨[], .nil p1, ?_⟩
    simp [scanData, LocalFSReader.open, LoopState.loadData, LocalFSReader.readData, readLoop,
      Scanner.feed]
  · exact scanData_feeds sha1 fileId scanners f.content p1 p2

/-- Each average size is such that the source neither divides by zero nor loops. -/
def Options.Runs (opts : Options) : Prop :=
  opts.scanAll = true ∨ 0x400 * UInt32.ofInt opts.blockSize ≠ 0

/-- No scanner of the file records anything. -/
def Options.Silent (opts : Options) (mem : ℕ → Uninit) (f : FoundFile) : Prop :=
  opts.metaOnly = true ∨ ∀ p ∈ opts.scanners mem, p.2.Silent f.data

/-- What a file that is not skipped leaves in the logs: its record, and block records
with the id before its own. -/
structure VisitOf (opts : Options) (mem : ℕ → Uninit) (f : FoundFile) (v : Visit) : Prop where
  name : v.record.name = f.path
  size : v.record.size = UInt64.ofNat f.content.length
  fileId : ∀ p ∈ v.blocks, p.2.fileId + 1 = v.record.fileId
  blocks : v.blocks = [] ↔ opts.Silent mem f

/-- The scanners of a file are new, with an average size that is not zero. -/
theorem Options.scanners_new (hruns : opts.Runs) {p : String × Scanner}
    (hp : p ∈ opts.scanners mem) :
    ∃ m var kb F dataout, p.2 = Scanner.new m var kb F dataout ∧
      (Scanner.new m var kb F dataout).avgSize ≠ 0 := by
  unfold Options.scanners at hp
  simp only at hp
  split at hp
  · simp only [List.mem_cons, List.not_mem_nil, or_false] at hp
    rcases hp with rfl | rfl | rfl
    · exact ⟨_, _, _, _, _, rfl, show (0x400 : UInt32) * UInt32.ofInt 2048 ≠ 0 by decide⟩
    · exact ⟨_, _, _, _, _, rfl, show (0x400 : UInt32) * UInt32.ofInt 4 ≠ 0 by decide⟩
    · exact ⟨_, _, _, _, _, rfl, show (0x400 : UInt32) * UInt32.ofInt 4 ≠ 0 by decide⟩
  · rename_i hall
    rw [List.mem_singleton] at hp
    subst hp
    rcases hruns with h | h
    · exact absurd h hall
    · exact ⟨_, _, _, _, _, rfl, h⟩

/-- The records of the scanners `ps` of a file that is fed with `calls`. -/
theorem modeRecords_feed (sha1 : List UInt8 → Checksum) (fileId : UInt32)
    (ps : List (String × Scanner)) (calls : List Call) :
    modeRecords (ps.map Prod.fst) ((ps.map Prod.snd).map fun sc => sc.feed sha1 fileId calls) =
      ps.flatMap fun p => (p.2.feed sha1 fileId calls).ofs.map fun b => (p.1, b) := by
  unfold modeRecords
  rw [List.map_map, List.zip_map', List.flatMap_map]
  rfl

/-- Whether `scan` skips a file of this length. -/
def DriverState.Skips (st : DriverState) (opts : Options) (f : FoundFile) : Prop :=
  f.content.length < opts.minSize ∨ 0 < st.scanSkip ∨
    0 < opts.scanCount ∧ opts.scanCount ≤ st.totalFiles

theorem DriverState.not_skips {f : FoundFile} (h : ¬ st.Skips opts f) :
    opts.minSize ≤ f.content.length ∧ st.scanSkip ≤ 0 ∧
      ¬ (0 < opts.scanCount ∧ opts.scanCount ≤ st.totalFiles) := by
  unfold DriverState.Skips at h
  rw [not_or, not_or, not_lt, not_lt] at h
  exact h

theorem DriverState.Skips.enough {f : FoundFile} (h : st.Skips opts f)
    (h1 : ¬ f.content.length < opts.minSize) (h2 : ¬ 0 < st.scanSkip) :
    0 < opts.scanCount ∧ opts.scanCount ≤ st.totalFiles :=
  (h.resolve_left h1).resolve_left h2

/-- **A file that is not skipped.** -/
theorem visitFile_visits (sha1 : List UInt8 → Checksum) (mem : ℕ → Uninit) (cksum : Checksum)
    (hruns : opts.Runs) {f : FoundFile} (h : ¬ st.Skips opts f) :
    ∃ v, VisitOf opts mem f v ∧
      (visitFile sha1 opts mem cksum st f).visits = st.visits ++ [v] ∧
      (visitFile sha1 opts mem cksum st f).scanSkip = st.scanSkip - 1 ∧
      (visitFile sha1 opts mem cksum st f).totalFiles = st.totalFiles + 1 := by
  obtain ⟨h1, h2, h3⟩ := DriverState.not_skips h
  unfold visitFile scanFile
  simp only [not_lt.2 h1, not_lt.2 h2, if_false, h3]
  rcases hm : opts.metaOnly with - | -
  · obtain ⟨calls, hf, hs⟩ := scanData_records sha1 st.fileId ((opts.scanners mem).map Prod.snd) f
      st.p1 st.p2
    simp only [Bool.false_eq_true, if_false, hs, modeRecords_feed]
    refine ⟨_, ⟨rfl, rfl, ?_, ?_⟩, rfl, rfl, rfl⟩
    · -- the records are new, so they were written with the id the file started with
      intro p hp
      obtain ⟨q, hq, hp⟩ := List.mem_flatMap.1 hp
      obtain ⟨b, hb, rfl⟩ := List.mem_map.1 hp
      obtain ⟨m, var, kb, F, dataout, hnew, -⟩ := Options.scanners_new hruns hq
      have hid := (Scanner.feed_grows sha1 st.fileId calls q.2).ids (by rw [hnew]; rfl) b hb
      simp only [hid]
    · -- silence, scanner by scanner
      simp only [Options.Silent, hm, Bool.false_eq_true, false_or, List.flatMap_eq_nil_iff,
        List.map_eq_nil_iff]
      refine forall_congr' fun q => forall_congr' ?_
      intro hq
      obtain ⟨m, var, kb, F, dataout, hnew, havg⟩ := Options.scanners_new hruns hq
      rw [hnew]
      exact feed_nil_iff m var kb F dataout havg sha1 st.fileId hf
  · -- only the file record is written
    simp only [if_true]
    refine ⟨_, ⟨rfl, rfl, by simp, ?_⟩, rfl, rfl, rfl⟩
    simp [Options.Silent, hm]

/-- A file that is skipped leaves the logs as they are. -/
theorem visitFile_skip (sha1 : List UInt8 → Checksum) (mem : ℕ → Uninit) (cksum : Checksum)
    {f : FoundFile} (h : st.Skips opts f) :
    (visitFile sha1 opts mem cksum st f).visits = st.visits ∧
      (visitFile sha1 opts mem cksum st f).totalFiles = st.totalFiles ∧
      (visitFile sha1 opts mem cksum st f).scanSkip =
        if f.content.length < opts.minSize then st.scanSkip else st.scanSkip - 1 := by
  unfold visitFile scanFile
  by_cases h1 : f.content.length < opts.minSize
  · simp only [h1, if_true, and_self]
  simp only [h1, if_false]
  by_cases h2 : 0 < st.scanSkip
  · simp only [h2, if_true, and_self]
  · simp only [h2, if_false, h.enough h1 h2, and_self, if_true]

/-! ## The files that are not skipped -/

/-- **The files that are not skipped**, with `skip` files left to skip and `total`
scanned before. -/
def Options.selected (opts : Options) (skip : ℤ) (total : ℕ) (files : List FoundFile) :
    List FoundFile :=
  let rest := (files.filter fun f => opts.minSize ≤ f.content.length).drop skip.toNat
  if opts.scanCount = 0 then rest else rest.take (opts.scanCount - total)

theorem selected_skip {f : FoundFile} {files : List FoundFile} (h : st.Skips opts f) :
    opts.selected st.scanSkip st.totalFiles (f :: files) =
      opts.selected (if f.content.length < opts.minSize then st.scanSkip else st.scanSkip - 1)
        st.totalFiles files := by
  unfold Options.selected
  by_cases h1 : f.content.length < opts.minSize
  · rw [if_pos h1, List.filter_cons_of_neg (by simpa using h1)]
  rw [if_neg h1, List.filter_cons_of_pos (by simpa using h1)]
  by_cases h2 : 0 < st.scanSkip
  · obtain ⟨n, hn⟩ : ∃ n, st.scanSkip.toNat = n + 1 := ⟨st.scanSkip.toNat - 1, by omega⟩
    have hpred : (st.scanSkip - 1).toNat = n := by omega
    rw [hn, hpred, List.drop_succ_cons]
  · -- enough files are scanned, so none is taken
    have h3 := h.enough h1 h2
    have hcount : opts.scanCount ≠ 0 := by omega
    have hleft : opts.scanCount - st.totalFiles = 0 := by omega
    simp only [hcount, if_false, hleft, List.take_zero]

theorem selected_cons {f : FoundFile} {files : List FoundFile} (h : ¬ st.Skips opts f) :
    opts.selected st.scanSkip st.totalFiles (f :: files) =
      f :: opts.selected (st.scanSkip - 1) (st.totalFiles + 1) files := by
  obtain ⟨h1, h2, h3⟩ := DriverState.not_skips h
  have hskip : st.scanSkip.toNat = 0 := by omega
  have hpred : (st.scanSkip - 1).toNat = 0 := by omega
  unfold Options.selected
  rw [List.filter_cons_of_pos (by simpa using h1), hskip, hpred, List.drop_zero, List.drop_zero]
  by_cases hc : opts.scanCount = 0
  · simp only [hc, if_true]
  · have hleft : opts.scanCount - st.totalFiles = opts.scanCount - (st.totalFiles + 1) + 1 := by
      omega
    simp only [hc, if_false]
    rw [hleft, List.take_succ_cons]

/-- Each file that is not skipped leaves one visit. -/
theorem foldl_scanFile (sha1 : List UInt8 → Checksum) (mem : ℕ → Uninit) (cksum : Checksum)
    (hruns : opts.Runs) (files : List FoundFile) : ∀ st : DriverState,
    ∃ new, (files.foldl (visitFile sha1 opts mem cksum) st).visits = st.visits ++ new ∧
      List.Forall₂ (VisitOf opts mem) (opts.selected st.scanSkip st.totalFiles files) new := by
  induction files with
  | nil =>
    intro st
    refine ⟨[], (List.append_nil _).symm, ?_⟩
    simp [Options.selected]
  | cons f files ih =>
    intro st
    rw [List.foldl_cons]
    by_cases hskip : st.Skips opts f
    · obtain ⟨hv, ht, hs⟩ := visitFile_skip sha1 mem cksum hskip
      obtain ⟨new, hn, hall⟩ := ih (visitFile sha1 opts mem cksum st f)
      refine ⟨new, by rw [hn, hv], ?_⟩
      rwa [selected_skip hskip, ← hs, ← ht]
    · obtain ⟨v, hv, hvis, hs, ht⟩ := visitFile_visits sha1 mem cksum hruns hskip
      obtain ⟨new, hn, hall⟩ := ih (visitFile sha1 opts mem cksum st f)
      refine ⟨v :: new, by rw [hn, hvis, List.append_assoc]; rfl, ?_⟩
      rw [selected_cons hskip, ← hs, ← ht]
      exact .cons hv hall

theorem silent_iff {files : List FoundFile} {visits : List Visit}
    (h : List.Forall₂ (VisitOf opts mem) files visits) :
    (∀ f ∈ files, opts.Silent mem f) ↔ ∀ v ∈ visits, v.blocks = [] := by
  induction h with
  | nil => simp
  | cons hv _ ih => rw [List.forall_mem_cons, List.forall_mem_cons, ih, hv.blocks]

/-- A block record's id is one less than that of its file's record. -/
theorem ids_ne {files : List FoundFile} {visits : List Visit}
    (h : List.Forall₂ (VisitOf opts mem) files visits) :
    ∀ v ∈ visits, ∀ p ∈ v.blocks, p.2.fileId ≠ v.record.fileId := by
  induction h with
  | nil => simp
  | cons hv _ ih =>
    rw [List.forall_mem_cons]
    refine ⟨?_, ih⟩
    intro p hp he
    -- no 32-bit number is its own successor
    have h1 := congrArg UInt32.toNat (hv.fileId p hp)
    have h2 := UInt32.toNat_lt p.2.fileId
    rw [← he, UInt32.toNat_add] at h1
    simp only [UInt32.reduceToNat] at h1
    omega

/-! ## The ids -/

/-- **Block records map to their file record**: they carry its id, those of different
files carry different ids, and the id is that of no other file record. -/
structure BlockIdsResolve (visits : List Visit) : Prop where
  agree : ∀ v ∈ visits, ∀ p ∈ v.blocks, p.2.fileId = v.record.fileId
  distinct : visits.Pairwise fun v w => ∀ p ∈ v.blocks, ∀ q ∈ w.blocks, p.2.fileId ≠ q.2.fileId
  resolve : ∀ v ∈ visits, ∀ p ∈ v.blocks, ∀ w ∈ visits, w.record.fileId = p.2.fileId → w = v

/-- Where they do, there is no block record. -/
theorem BlockIdsResolve.blocks_nil {files : List FoundFile} {visits : List Visit}
    (h : BlockIdsResolve visits) (hall : List.Forall₂ (VisitOf opts mem) files visits) :
    ∀ v ∈ visits, v.blocks = [] := by
  intro v hv
  rw [List.eq_nil_iff_forall_not_mem]
  intro p hp
  exact ids_ne hall v hv p hp (h.agree v hv p hp)

/-- **Block records never carry the id of their file's record**: they are written
before `save_file` counts the file, so they resolve only where there is none. -/
theorem blockIds_resolve_iff (sha1 : List UInt8 → Checksum) (opts : Options) (mem : ℕ → Uninit)
    (cksum : Checksum) (skip : ℤ) (p1 p2 : List UInt8) (path : String) (root : Entry)
    (hruns : opts.Runs) :
    BlockIdsResolve (scan sha1 opts mem cksum (DriverState.start skip p1 p2) path root).visits ↔
      ∀ f ∈ opts.selected skip 0 (root.files path), opts.Silent mem f := by
  obtain ⟨new, hn, hall⟩ := foldl_scanFile sha1 mem cksum hruns (root.files path)
    (DriverState.start skip p1 p2)
  rw [scan_eq_foldl, hn]
  change BlockIdsResolve new ↔ _
  change List.Forall₂ _ (opts.selected skip 0 (root.files path)) new at hall
  rw [silent_iff hall]
  constructor
  · intro h
    exact h.blocks_nil hall
  · -- without block records there is nothing to resolve
    intro h
    refine ⟨?_, ?_, ?_⟩
    · intro v hv p hp
      rw [h v hv] at hp
      cases hp
    · apply List.pairwise_of_forall_mem_list
      intro v hv w _ p hp
      rw [h v hv] at hp
      cases hp
    · intro v hv p hp
      rw [h v hv] at hp
      cases hp

/-- A tree of one file of one byte, in blocks of 4 KB. -/
def oneByteOptions : Options :=
  { scanAll := false, isVar := false, blockSize := 4, useFixBoundary := false, fixBoundarySize := 0,
    metaOnly := false, minSize := 0, scanCount := 0, logname := "log", dataname := "" }

theorem blockIds_resolve_iff_one :
    BlockIdsResolve (scan zerosDigest oneByteOptions default default
        (DriverState.start 0 [] []) "root" (.file [0] true)).visits ↔
      ∀ f ∈ oneByteOptions.selected 0 0 (Entry.files "root" (.file [0] true)),
        oneByteOptions.Silent default f :=
  blockIds_resolve_iff zerosDigest oneByteOptions default default 0 [] [] "root"
    (.file [0] true) (.inr (by decide))

/-- Its block record has the id 0, its file record the id 1. -/
theorem blockIds_differ_one :
    ¬ BlockIdsResolve (scan zerosDigest oneByteOptions default default
        (DriverState.start 0 [] []) "root" (.file [0] true)).visits := by
  intro h
  have hruns : oneByteOptions.Runs := .inr (by decide)
  obtain ⟨new, hn, hall⟩ := foldl_scanFile zerosDigest default default hruns
    [⟨"root", [0], true⟩] (DriverState.start 0 [] [])
  rw [scan_eq_foldl, Entry.files, hn] at h
  change List.Forall₂ _ [(⟨"root", [0], true⟩ : FoundFile)] new at hall
  change BlockIdsResolve new at h
  -- a fixed-mode scanner records the byte
  have hloud : ¬ ∀ f ∈ [(⟨"root", [0], true⟩ : FoundFile)], oneByteOptions.Silent default f := by
    intro hs
    rcases hs _ (List.mem_singleton_self _) with hm | hs
    · cases hm
    · rcases hs _ (List.mem_singleton_self _) with h0 | ⟨hv, -⟩
      · cases h0
      · cases hv
  exact hloud ((silent_iff hall).2 (h.blocks_nil hall))

end DedupSim
