import DedupSim.Lib.Run
import DedupSim.Proof.Streams

/-!
# The files that the scan program visits

* `Visited`: what a file that was opened leaves in the log and in the data of each mode.
* `Options.ModesRun`: the modes whose scanners have a defined run.
* `visit_ready`: a visit fails only on a scanner of another mode.
* `foldlM_visit`: **a run writes what its visits leave, in order**, and counts them as the
  driver does.
-/

namespace DedupSim

open LittleEndian

namespace DedupMain

variable {sha1 : List UInt8 → Checksum} {opts : Options} {mem : ℕ → Uninit} {cksum : Checksum}
  {st : State}

/-! ## One file -/

/-- The streams that `scan` writes to are there, and no name is too long. -/
structure Ready (opts : Options) (st : State) : Prop where
  file : (st.streamMap "file").isSome
  fits : opts.metaOnly = false → ∀ m ∈ modes opts, SizeFits m.size
  log : opts.metaOnly = false → ∀ m ∈ modes opts, (st.streamMap (logName opts m)).isSome
  data : opts.metaOnly = false → ∀ m ∈ modes opts,
    (st.streamMapdata (dataName opts m)).isSome = decide (opts.dataname ≠ "")

/-- They are there whatever is written. -/
theorem Ready.of_isSome {st' : State} (h : Ready opts st)
    (hlog : ∀ n, (st'.streamMap n).isSome = (st.streamMap n).isSome)
    (hdata : ∀ n, (st'.streamMapdata n).isSome = (st.streamMapdata n).isSome) : Ready opts st' where
  file := by rw [hlog]; exact h.file
  fits := h.fits
  log hm m hmem := by rw [hlog]; exact h.log hm m hmem
  data hm m hmem := by rw [hdata]; exact h.data hm m hmem

/-- A file that was not skipped: the id before its own, and how its scanners were fed. -/
structure Visited where
  file : FoundFile
  fileId : UInt32
  calls : List Call

namespace Visited

variable (sha1 opts mem cksum) (v : Visited)

/-- The scanner of a mode, at the end of the file. -/
def scanner (m : Mode × ℕ) : Scanner :=
  (Scanner.new (mem m.2) m.1.isVar m.1.size m.1.boundarySize (decide (opts.dataname ≠ ""))).feed
    sha1 v.fileId v.calls

/-- The scanners of the file. -/
def scanners : List ScannerOf :=
  if opts.metaOnly then []
  else (modes opts).zipIdx.map fun m =>
    ⟨logName opts m.1, dataName opts m.1, v.scanner sha1 opts mem m⟩

/-- The record of the file. -/
def record : FileRecord :=
  ⟨v.fileId + 1, UInt64.ofNat v.file.content.length,
    if opts.metaOnly then cksum else sha1 v.file.data, v.file.path⟩

/-- What is written to the stream of a name for the file. -/
def log (n : String) : List UInt8 :=
  logOf (v.scanners sha1 opts mem) n ++
    if n = "file" then fileRecordBytes (v.record sha1 opts cksum) else []

def data (n : String) : List UInt8 := dataOf (v.scanners sha1 opts mem) n

/-- The visit that the traversal lists. -/
def toVisit : Visit :=
  ⟨(v.scanners sha1 opts mem).flatMap fun s => s.scanner.ofs.map fun b => (s.log, b),
    v.record sha1 opts cksum⟩

end Visited

/-- The scanners of the traversal are those of the modes. -/
theorem scanners_eq_modes (opts : Options) (mem : ℕ → Uninit) :
    opts.scanners mem = (modes opts).zipIdx.map fun m => (logName opts m.1,
      Scanner.new (mem m.2) m.1.isVar m.1.size m.1.boundarySize (decide (opts.dataname ≠ ""))) := by
  unfold Options.scanners modes
  rcases opts.scanAll with - | -
  · simp only [Bool.false_eq_true, if_false, List.zipIdx_cons, List.zipIdx_nil, List.map_cons,
      List.map_nil, logName_eq]
  · simp only [if_true, List.zipIdx_cons, List.zipIdx_nil, List.map_cons, List.map_nil, logName_eq]

/-- The scanners that `scan` builds for a file. -/
def newScanners (opts : Options) (mem : ℕ → Uninit) : List ScannerOf :=
  (modes opts).zipIdx.map fun m => ⟨logName opts m.1, dataName opts m.1,
    Scanner.new (mem m.2) m.1.isVar m.1.size m.1.boundarySize (decide (opts.dataname ≠ ""))⟩

theorem newScanners_ok (mem : ℕ → Uninit) (h : Ready opts st) (hm : opts.metaOnly = false) :
    ((modes opts).zipIdx.mapM fun m => st.newScanner opts (mem m.2) m.1) =
      .ok (newScanners opts mem) := by
  refine mapM_eq_pure fun m hmem => ?_
  have hmode : m.1 ∈ modes opts := List.fst_mem_of_mem_zipIdx hmem
  have hfits := h.fits hm m.1 hmode
  unfold State.newScanner
  rw [getLogfileName_ok hfits, getDatafileName_ok hfits, ← h.data hm m.1 hmode]
  rfl

theorem newScanners_scanner (opts : Options) (mem : ℕ → Uninit) :
    (newScanners opts mem).map ScannerOf.scanner = (opts.scanners mem).map Prod.snd := by
  rw [scanners_eq_modes, newScanners, List.map_map, List.map_map]
  rfl

/-- The scanners of a file at its end. -/
theorem newScanners_fed (sha1 : List UInt8 → Checksum) (mem : ℕ → Uninit)
    (hm : opts.metaOnly = false) (v : Visited) :
    ((newScanners opts mem).zip (((newScanners opts mem).map ScannerOf.scanner).map
      fun sc => sc.feed sha1 v.fileId v.calls)).map (fun p => { p.1 with scanner := p.2 }) =
        v.scanners sha1 opts mem := by
  unfold Visited.scanners newScanners
  rw [hm, if_neg Bool.false_ne_true, List.map_map, List.map_map, List.zip_map', List.map_map]
  rfl

/-- The sizes of blocks, in KB, of which a scanner of the mode has a defined run. -/
def Mode.Runs (m : Mode) : Prop := 1 ≤ m.size ∧ m.size ≤ if m.isVar then 2048 else 999999

instance (m : Mode) : Decidable m.Runs := inferInstanceAs (Decidable (_ ∧ _))

theorem Mode.Runs.fits {m : Mode} (h : m.Runs) : SizeFits m.size := by
  obtain ⟨h1, h2⟩ := h
  refine ⟨by omega, h2.trans ?_⟩
  split
  · decide
  · exact le_rfl

/-- It does not fail on any file. -/
theorem Mode.Runs.not_faulty {m : Mode} (h : m.Runs) (sha1 : List UInt8 → Checksum) (fileId : UInt32)
    (mem : Uninit) (dataout : Bool) {X prev : List UInt8} {e : Bool} {calls : List Call}
    (hf : Feeds X e 0 prev calls) :
    ((Scanner.new mem m.isVar m.size m.boundarySize dataout).feed sha1 fileId calls).faulty = false := by
  obtain ⟨h1, h2⟩ := h
  rcases hvar : m.isVar with - | -
  · rw [hvar, if_neg Bool.false_ne_true] at h2
    rw [← Bool.not_eq_true, feed_fixed_faulty sha1 fileId mem m.size m.boundarySize dataout hf]
    rintro ⟨havg, -⟩
    have hsize := new_avgSize mem m.boundarySize dataout false h1 (h2.trans_lt (by decide))
    rw [havg, UInt32.toNat_zero] at hsize
    omega
  · rw [hvar, if_pos rfl] at h2
    exact feed_not_faulty sha1 fileId mem true h1 h2 m.boundarySize dataout hf

/-- Every mode that files are scanned in has such a size. -/
def Options.ModesRun (opts : Options) : Prop := opts.metaOnly = false → ∀ m ∈ modes opts, m.Runs

instance (opts : Options) : Decidable (Options.ModesRun opts) :=
  inferInstanceAs (Decidable (_ → _))

/-- **No scanner of a file fails** then. -/
theorem scanners_not_faulty (h : Options.ModesRun opts) (hm : opts.metaOnly = false)
    (sha1 : List UInt8 → Checksum) (fileId : UInt32) (mem : ℕ → Uninit) {X prev : List UInt8} {e : Bool}
    {calls : List Call} (hf : Feeds X e 0 prev calls) :
    ¬ (((opts.scanners mem).map Prod.snd).map fun sc => sc.feed sha1 fileId calls).any
      Scanner.faulty = true := by
  rw [Bool.not_eq_true, List.any_eq_false, scanners_eq_modes, List.map_map, List.map_map]
  intro sc hsc
  obtain ⟨m, hmem, rfl⟩ := List.mem_map.1 hsc
  rw [Bool.not_eq_true]
  exact (h hm m.1 (List.fst_mem_of_mem_zipIdx hmem)).not_faulty sha1 fileId _ _ hf

/-- The state and the state of the traversal have the same counters and buffers. -/
structure Agree (st : State) (ds : DriverState) : Prop where
  fileId : st.fileId = ds.fileId
  totalFiles : st.totalFiles = ds.totalFiles
  totalSize : st.totalSize = ds.totalSize
  scanSkip : st.scanSkip = ds.scanSkip
  p1 : st.p1 = ds.p1
  p2 : st.p2 = ds.p2

/-- Whether the file log is open. -/
def State.fileOpen (st : State) : Bool := (st.streamMap "file").any OutStream.isOpen

/-- The counters after a file of `n` bytes that was not skipped. -/
def State.counted (st : State) (n : ℕ) (p1 p2 : List UInt8) : State :=
  { st with
    fileId := if st.fileOpen then st.fileId + 1 else st.fileId
    totalFiles := st.totalFiles + 1
    totalSize := st.totalSize + n
    scanSkip := st.scanSkip - 1
    p1 := p1
    p2 := p2 }

/-- The bytes that the digest of a file is taken of. -/
theorem scanData_data (sha1 : List UInt8 → Checksum) (fileId : UInt32) (scanners : List Scanner)
    (f : FoundFile) (p1 p2 : List UInt8) :
    (scanData sha1 fileId scanners (LocalFSReader.open f.content f.readable) p1 p2).ctx = f.data := by
  unfold FoundFile.data
  rcases f.readable with - | -
  · simp [scanData, LocalFSReader.open, LoopState.loadData, LocalFSReader.readData, readLoop]
  · exact scanData_ctx sha1 fileId scanners f.content p1 p2

/-- Each of these scanners has a log. -/
theorem scanners_ready (h : Ready opts st) (hm : opts.metaOnly = false) (v : Visited) :
    ∀ s ∈ v.scanners sha1 opts mem, (st.streamMap s.log).isSome := by
  intro s hs
  unfold Visited.scanners at hs
  rw [hm, if_neg Bool.false_ne_true] at hs
  obtain ⟨m, hmem, rfl⟩ := List.mem_map.1 hs
  exact h.log hm m.1 (List.fst_mem_of_mem_zipIdx hmem)

/-- What a file leaves behind that is read. -/
theorem visit_read (sha1 : List UInt8 → Checksum) (mem : ℕ → Uninit) (cksum : Checksum)
    (h : Ready opts st) (hm : opts.metaOnly = false) {f : FoundFile} {calls : List Call}
    (hmin : ¬ f.content.length < opts.minSize) (hskip : ¬ 0 < st.scanSkip)
    (hcount : ¬ (0 < opts.scanCount ∧ opts.scanCount ≤ st.totalFiles))
    (lp : LoopState) (hlp : scanData sha1 st.fileId ((opts.scanners mem).map Prod.snd)
      (LocalFSReader.open f.content f.readable) st.p1 st.p2 = lp)
    (hok : ¬ lp.scanners.any Scanner.faulty = true)
    (hs : lp.scanners = ((opts.scanners mem).map Prod.snd).map fun sc =>
      sc.feed sha1 st.fileId calls) :
    visit sha1 opts mem cksum st f = .ok (State.give (st.counted f.content.length lp.p1 lp.p2)
      (Visited.log sha1 opts mem cksum ⟨f, st.fileId, calls⟩)
      (Visited.data sha1 opts mem ⟨f, st.fileId, calls⟩)) := by
  have hready : Ready opts { st with scanSkip := st.scanSkip - 1 } :=
    h.of_isSome (fun _ => rfl) fun _ => rfl
  obtain ⟨os, hos⟩ := Option.isSome_iff_exists.1 h.file
  have hctx : lp.ctx = f.data := by
    rw [← hlp]
    exact scanData_data sha1 st.fileId _ f st.p1 st.p2
  -- the scanners are new, are fed the file, and write to their own streams
  have hnew := newScanners_ok mem hready hm
  have hfed := newScanners_fed sha1 mem hm ⟨f, st.fileId, calls⟩
  rw [newScanners_scanner, ← hs] at hfed
  unfold visit scanFile
  simp only [hmin, hskip, hcount, hm, if_false, Bool.false_eq_true]
  rw [hnew]
  simp only [bind, Except.bind, newScanners_scanner, hlp]
  rw [if_neg hok]
  simp only [hfed]
  have hwrite := foldlM_writeScanner (Visited.scanners sha1 opts mem ⟨f, st.fileId, calls⟩)
    { st with scanSkip := st.scanSkip - 1, p1 := lp.p1, p2 := lp.p2 }
    (scanners_ready (h.of_isSome (fun _ => rfl) fun _ => rfl) hm _)
  simp only [hwrite]
  rw [State.saveFile_ok (show State.streamMap _ "file" = some (os.write (logOf (Visited.scanners
    sha1 opts mem ⟨f, st.fileId, calls⟩) "file")) by simp only [State.give, hos, Option.map_some])]
  rw [OutStream.isOpen_write, hctx]
  unfold State.counted State.fileOpen
  rw [hos]
  have hrecord : Visited.record sha1 opts cksum ⟨f, st.fileId, calls⟩ =
      ⟨st.fileId + 1, UInt64.ofNat f.content.length, sha1 f.data, f.path⟩ := by
    unfold Visited.record
    rw [hm]
    rfl
  unfold State.give Visited.log Visited.data
  simp only [hrecord, Option.map_map, Function.comp_def, OutStream.write_write, List.append_nil,
    Option.any_some]

/-- What a file leaves behind of which only the metadata are looked at. -/
theorem visit_meta (sha1 : List UInt8 → Checksum) (mem : ℕ → Uninit) (cksum : Checksum)
    (h : Ready opts st) (hm : opts.metaOnly = true) {f : FoundFile} (calls : List Call)
    (hmin : ¬ f.content.length < opts.minSize) (hskip : ¬ 0 < st.scanSkip)
    (hcount : ¬ (0 < opts.scanCount ∧ opts.scanCount ≤ st.totalFiles)) :
    visit sha1 opts mem cksum st f = .ok (State.give (st.counted f.content.length st.p1 st.p2)
      (Visited.log sha1 opts mem cksum ⟨f, st.fileId, calls⟩)
      (Visited.data sha1 opts mem ⟨f, st.fileId, calls⟩)) := by
  obtain ⟨os, hos⟩ := Option.isSome_iff_exists.1 h.file
  have hos' : State.streamMap { st with scanSkip := st.scanSkip - 1 } "file" = some os := hos
  unfold visit scanFile
  simp only [hmin, hskip, hcount, hm, if_false, if_true]
  rw [State.saveFile_ok hos']
  unfold State.counted State.fileOpen State.give Visited.log Visited.data Visited.scanners
    Visited.record
  simp only [hm, if_true, hos, Option.any_some]
  rfl

/-- What the traversal lists of a file that is read. -/
theorem toVisit_read (sha1 : List UInt8 → Checksum) (mem : ℕ → Uninit) (cksum : Checksum)
    (hm : opts.metaOnly = false) (f : FoundFile) (fileId : UInt32) (calls : List Call) :
    Visited.toVisit sha1 opts mem cksum ⟨f, fileId, calls⟩ =
      ⟨(opts.scanners mem).flatMap fun p =>
          (p.2.feed sha1 fileId calls).ofs.map fun b => (p.1, b),
        ⟨fileId + 1, UInt64.ofNat f.content.length, sha1 f.data, f.path⟩⟩ := by
  rw [scanners_eq_modes, List.flatMap_map]
  unfold Visited.toVisit Visited.scanners Visited.record
  simp only [hm, Bool.false_eq_true, if_false, List.flatMap_map]
  rfl

/-- **A file that is not skipped**: the program writes to its streams what the traversal lists,
and both count it. -/
theorem visit_visits (sha1 : List UInt8 → Checksum) (mem : ℕ → Uninit) (cksum : Checksum)
    {ds : DriverState} (h : Ready opts st) (hruns : Options.ModesRun opts) (ha : Agree st ds)
    {f : FoundFile} (hskip : ¬ ds.Skips opts f) :
    ∃ (v : Visited) (p1 p2 : List UInt8), v.file = f ∧ v.fileId = st.fileId ∧
      (∃ prev, Feeds f.data (decide (f.data.length % readBufferSize ≠ 0)) 0 prev v.calls) ∧
      visit sha1 opts mem cksum st f = .ok (State.give (st.counted f.content.length p1 p2)
        (v.log sha1 opts mem cksum) (v.data sha1 opts mem)) ∧
      visitFile sha1 opts mem cksum ds f =
        { ds with
          fileId := ds.fileId + 1
          totalFiles := ds.totalFiles + 1
          totalSize := ds.totalSize + f.content.length
          scanSkip := ds.scanSkip - 1
          p1 := p1
          p2 := p2
          visits := ds.visits ++ [v.toVisit sha1 opts mem cksum] } := by
  obtain ⟨h1, h2, h3⟩ := DriverState.not_skips hskip
  obtain ⟨calls, hfeeds, hs⟩ := scanData_records sha1 ds.fileId ((opts.scanners mem).map Prod.snd) f
    ds.p1 ds.p2
  have hmin : ¬ f.content.length < opts.minSize := not_lt.2 h1
  have hskip' : ¬ 0 < st.scanSkip := by
    rw [ha.scanSkip]
    exact not_lt.2 h2
  have hcount : ¬ (0 < opts.scanCount ∧ opts.scanCount ≤ st.totalFiles) := by
    rwa [ha.totalFiles]
  rcases hm : opts.metaOnly with - | -
  · refine ⟨⟨f, st.fileId, calls⟩, _, _, rfl, rfl, ⟨_, hfeeds⟩, visit_read sha1 mem cksum h hm hmin
      hskip' hcount _ rfl ?_ ?_, ?_⟩
    · rw [ha.fileId, ha.p1, ha.p2, hs]
      exact scanners_not_faulty hruns hm sha1 ds.fileId mem hfeeds
    · rw [ha.fileId, ha.p1, ha.p2]
      exact hs
    · unfold visitFile DedupSim.scanFile
      simp only [hmin, not_lt.2 h2, if_false, h3, hm, Bool.false_eq_true, hs, modeRecords_feed,
        scanData_data, DriverState.saveFile, ha.fileId, ha.p1, ha.p2]
      rw [toVisit_read sha1 mem cksum hm]
  · refine ⟨⟨f, st.fileId, calls⟩, _, _, rfl, rfl, ⟨_, hfeeds⟩, visit_meta sha1 mem cksum h hm calls
      hmin hskip' hcount, ?_⟩
    unfold visitFile DedupSim.scanFile
    simp only [hmin, not_lt.2 h2, if_false, h3, hm, if_true, DriverState.saveFile, ha.fileId, ha.p1,
      ha.p2]
    unfold Visited.toVisit Visited.scanners Visited.record
    simp only [hm, if_true]
    rfl

/-- A file that is skipped. -/
theorem visit_skips (sha1 : List UInt8 → Checksum) (mem : ℕ → Uninit) (cksum : Checksum)
    {ds : DriverState} (ha : Agree st ds) {f : FoundFile} (hskip : ds.Skips opts f) :
    let skip := if f.content.length < opts.minSize then st.scanSkip else st.scanSkip - 1
    visit sha1 opts mem cksum st f = .ok { st with scanSkip := skip } ∧
      visitFile sha1 opts mem cksum ds f = { ds with scanSkip := skip } := by
  unfold visit scanFile visitFile DedupSim.scanFile
  by_cases h1 : f.content.length < opts.minSize
  · simp only [h1, if_true, true_and]
    rw [ha.scanSkip]
  simp only [h1, if_false, ha.scanSkip, ha.totalFiles]
  by_cases h2 : 0 < ds.scanSkip
  · simp only [h2, if_true, and_self]
  · simp only [h2, if_false, hskip.enough h1 h2, and_self, if_true]

/-! ## A run -/

/-- A file is scanned, and the streams are still there; or one of its scanners fails, which it
does in no mode that runs. -/
theorem visit_ready (sha1 : List UInt8 → Checksum) (mem : ℕ → Uninit) (cksum : Checksum)
    (h : Ready opts st) (f : FoundFile) :
    (∃ st', visit sha1 opts mem cksum st f = .ok st' ∧ Ready opts st') ∨
      visit sha1 opts mem cksum st f = .error .scanner ∧ ¬ Options.ModesRun opts := by
  -- a traversal in the same state
  let ds : DriverState := ⟨st.fileId, st.totalFiles, st.totalSize, st.scanSkip, st.p1, st.p2, []⟩
  by_cases hskip : ds.Skips opts f
  · exact .inl ⟨_, (visit_skips sha1 mem cksum ⟨rfl, rfl, rfl, rfl, rfl, rfl⟩ hskip).1,
      h.of_isSome (fun _ => rfl) fun _ => rfl⟩
  obtain ⟨h1, h2, h3⟩ : opts.minSize ≤ f.content.length ∧ st.scanSkip ≤ 0 ∧
      ¬ (0 < opts.scanCount ∧ opts.scanCount ≤ st.totalFiles) := DriverState.not_skips hskip
  have hkept : ∀ n p1 p2 log data, Ready opts ((st.counted n p1 p2).give log data) :=
    fun n p1 p2 log data => h.of_isSome (fun _ => Option.isSome_map) fun _ => Option.isSome_map
  rcases hm : opts.metaOnly with - | -
  · obtain ⟨calls, hfeeds, hs⟩ := scanData_records sha1 st.fileId ((opts.scanners mem).map Prod.snd) f
      st.p1 st.p2
    by_cases hok : (scanData sha1 st.fileId ((opts.scanners mem).map Prod.snd)
        (LocalFSReader.open f.content f.readable) st.p1 st.p2).scanners.any Scanner.faulty = true
    · refine .inr ⟨?_, fun hruns => ?_⟩
      · have hready : Ready opts { st with scanSkip := st.scanSkip - 1 } :=
          h.of_isSome (fun _ => rfl) fun _ => rfl
        have hnew := newScanners_ok mem hready hm
        unfold visit scanFile
        simp only [not_lt.2 h1, not_lt.2 h2, h3, hm, if_false, Bool.false_eq_true]
        rw [hnew]
        simp only [bind, Except.bind, newScanners_scanner]
        exact if_pos hok
      · rw [hs] at hok
        exact scanners_not_faulty hruns hm sha1 st.fileId mem hfeeds hok
    · exact .inl ⟨_, visit_read sha1 mem cksum h hm (not_lt.2 h1) (not_lt.2 h2) h3 _ rfl hok hs,
        hkept _ _ _ _ _⟩
  · exact .inl ⟨_, visit_meta sha1 mem cksum h hm [] (not_lt.2 h1) (not_lt.2 h2) h3,
      hkept _ _ _ _ _⟩

/-- **Nothing but a scanner stops the traversal.** -/
theorem foldlM_ready (sha1 : List UInt8 → Checksum) (mem : ℕ → Uninit) (cksum : Checksum)
    (files : List FoundFile) : ∀ st : State, Ready opts st →
      (∃ st', files.foldlM (visit sha1 opts mem cksum) st = .ok st') ∨
        files.foldlM (visit sha1 opts mem cksum) st = .error .scanner ∧ ¬ Options.ModesRun opts := by
  induction files with
  | nil =>
    intro st _
    exact .inl ⟨st, rfl⟩
  | cons f files ih =>
    intro st h
    rw [List.foldlM_cons]
    rcases visit_ready sha1 mem cksum h f with ⟨st', hvisit, hready⟩ | ⟨hvisit, hruns⟩
    · rw [hvisit]
      exact ih st' hready
    · rw [hvisit]
      exact .inr ⟨rfl, hruns⟩

/-- What a run has written, from `st` on. -/
structure Wrote (sha1 : List UInt8 → Checksum) (opts : Options) (mem : ℕ → Uninit)
    (cksum : Checksum) (st : State) (vs : List Visited) (st' : State) : Prop where
  streamMap : ∀ n, st'.streamMap n = (st.streamMap n).map fun os =>
    os.write (vs.flatMap fun v => v.log sha1 opts mem cksum n)
  streamMapdata : ∀ n, st'.streamMapdata n = (st.streamMapdata n).map fun os =>
    os.write (vs.flatMap fun v => v.data sha1 opts mem n)
  ids : ∀ (i : ℕ) (v : Visited), vs[i]? = some v → v.fileId = st.fileId + UInt32.ofNat i
  fed : ∀ v ∈ vs, ∃ prev, Feeds v.file.data (decide (v.file.data.length % readBufferSize ≠ 0)) 0 prev
    v.calls

theorem Wrote.cons {v : Visited} {vs : List Visited} {st₁ st₂ : State}
    (hlog : ∀ n, st₁.streamMap n = (st.streamMap n).map fun os =>
      os.write (v.log sha1 opts mem cksum n))
    (hdata : ∀ n, st₁.streamMapdata n = (st.streamMapdata n).map fun os =>
      os.write (v.data sha1 opts mem n))
    (hid : v.fileId = st.fileId) (hnext : st₁.fileId = st.fileId + 1)
    (hfed : ∃ prev, Feeds v.file.data (decide (v.file.data.length % readBufferSize ≠ 0)) 0 prev
      v.calls)
    (h : Wrote sha1 opts mem cksum st₁ vs st₂) : Wrote sha1 opts mem cksum st (v :: vs) st₂ where
  streamMap n := by
    rw [h.streamMap, hlog, Option.map_map]
    simp only [Function.comp_def, OutStream.write_write, List.flatMap_cons]
  streamMapdata n := by
    rw [h.streamMapdata, hdata, Option.map_map]
    simp only [Function.comp_def, OutStream.write_write, List.flatMap_cons]
  ids i w hw := by
    rcases i with - | i
    · rw [List.getElem?_cons_zero] at hw
      cases hw
      rw [hid]
      exact (UInt32.add_zero _).symm
    · rw [List.getElem?_cons_succ] at hw
      rw [h.ids i w hw, hnext, UInt32.ofNat_add, UInt32.add_assoc, UInt32.add_comm 1]
      rfl
  fed := List.forall_mem_cons.2 ⟨hfed, h.fed⟩

/-- What is written to a stream leaves it open. -/
theorem State.fileOpen_give (st : State) (log data : String → List UInt8) :
    (st.give log data).fileOpen = st.fileOpen := by
  unfold State.fileOpen State.give
  simp only [Option.any_map, OutStream.isOpen_write]

/-- **The program does what the traversal lists**: it scans the files that are not skipped,
writes what they leave to the streams, and counts them. -/
theorem foldlM_visit (sha1 : List UInt8 → Checksum) (mem : ℕ → Uninit) (cksum : Checksum)
    (hruns : Options.ModesRun opts) (files : List FoundFile) : ∀ (st : State) (ds : DriverState),
      Ready opts st → Agree st ds → st.fileOpen = true →
      ∃ st' vs, files.foldlM (visit sha1 opts mem cksum) st = .ok st' ∧
        Agree st' (files.foldl (visitFile sha1 opts mem cksum) ds) ∧
        Wrote sha1 opts mem cksum st vs st' ∧
        (files.foldl (visitFile sha1 opts mem cksum) ds).visits =
          ds.visits ++ vs.map (Visited.toVisit sha1 opts mem cksum) ∧
        vs.map Visited.file = opts.selected ds.scanSkip ds.totalFiles files := by
  induction files with
  | nil =>
    intro st ds _ ha _
    refine ⟨st, [], rfl, ha, ⟨?_, ?_, ?_, nofun⟩, (List.append_nil _).symm, ?_⟩
    · simp only [List.flatMap_nil, OutStream.write_nil, Option.map_id', implies_true]
    · simp only [List.flatMap_nil, OutStream.write_nil, Option.map_id', implies_true]
    · intro i v h
      rw [List.getElem?_nil] at h
      cases h
    · simp [Options.selected]
  | cons f files ih =>
    intro st ds h ha hopen
    rw [List.foldlM_cons, List.foldl_cons]
    by_cases hskip : ds.Skips opts f
    · obtain ⟨hvisit, hfile⟩ := visit_skips sha1 mem cksum ha hskip
      rw [hvisit, hfile, selected_skip hskip, ← ha.scanSkip]
      -- a file that is too small does not count as skipped
      set skip := if f.content.length < opts.minSize then st.scanSkip else st.scanSkip - 1
      obtain ⟨st', vs, hrun, ha', hwrote, hvisits, hsel⟩ := ih { st with scanSkip := skip }
        { ds with scanSkip := skip } (h.of_isSome (fun _ => rfl) fun _ => rfl)
        ⟨ha.1, ha.2, ha.3, rfl, ha.5, ha.6⟩ hopen
      exact ⟨st', vs, hrun, ha', ⟨hwrote.1, hwrote.2, hwrote.3, hwrote.4⟩, hvisits, hsel⟩
    · obtain ⟨v, p1, p2, hv, hid, hfed, hvisit, hfile⟩ := visit_visits sha1 mem cksum h hruns ha hskip
      have hnext : Ready opts ((st.counted f.content.length p1 p2).give
          (v.log sha1 opts mem cksum) (v.data sha1 opts mem)) :=
        h.of_isSome (fun _ => Option.isSome_map) fun _ => Option.isSome_map
      have hid' : ((st.counted f.content.length p1 p2).give (v.log sha1 opts mem cksum)
          (v.data sha1 opts mem)).fileId = st.fileId + 1 := if_pos hopen
      have hopen' := (State.fileOpen_give (st.counted f.content.length p1 p2)
        (v.log sha1 opts mem cksum) (v.data sha1 opts mem)).trans hopen
      rw [hvisit, hfile, selected_cons hskip]
      obtain ⟨st', vs, hrun, ha', hwrote, hvisits, hsel⟩ := ih _
        { ds with
          fileId := ds.fileId + 1
          totalFiles := ds.totalFiles + 1
          totalSize := ds.totalSize + f.content.length
          scanSkip := ds.scanSkip - 1
          p1 := p1
          p2 := p2
          visits := ds.visits ++ [v.toVisit sha1 opts mem cksum] } hnext
        ⟨hid'.trans (congrArg (· + 1) ha.1), congrArg (· + 1) ha.2,
          congrArg (· + f.content.length) ha.3, congrArg (· - 1) ha.4, rfl, rfl⟩ hopen'
      refine ⟨st', v :: vs, hrun, ha', ?_, ?_, ?_⟩
      · exact .cons (fun _ => rfl) (fun _ => rfl) hid hid' (hv ▸ hfed) hwrote
      · rw [hvisits, List.append_assoc]
        rfl
      · rw [List.map_cons, hv, hsel]

end DedupMain

end DedupSim
