import DedupSim.Lib.Grouping
import DedupSim.Proof.Visits

/-!
# Runs of the scan program

* `main_stops_iff`: **when the program stops**, and on what.
* `State.Leaves`: what a run leaves in the file behind a stream; `Globals.Scans`: the command
  lines whose streams lead to files of their own.
* `main_refines`: **the program runs the driver on the files that it finds.**
-/

namespace DedupSim

open LittleEndian

namespace DedupMain

variable {sha1 : List UInt8 → Checksum} {opts : Options} {mem : ℕ → Uninit} {cksum : Checksum}
  {st : State}

/-! ## The program -/

variable {canOpen : String → Bool}

/-- Whether `main` has room for the modes. -/
def Options.ModesFit (opts : Options) : Prop :=
  opts.metaOnly = true ∨ opts.scanAll = true ∨ SizeFits opts.blockSize

theorem modes_fit (h : opts.scanAll = true ∨ SizeFits opts.blockSize) :
    ∀ m ∈ modes opts, SizeFits m.size := by
  unfold modes
  rcases hall : opts.scanAll with - | -
  · rw [if_neg Bool.false_ne_true]
    intro m hm
    rw [List.mem_singleton.1 hm]
    rw [hall] at h
    exact h.resolve_left Bool.false_ne_true
  · rw [if_pos rfl]
    decide

theorem State.openMode_ok (canOpen : String → Bool) {m : Mode} (h : SizeFits m.size) :
    State.openMode opts canOpen st m = .ok
      { st with
        streamMap := Function.update st.streamMap (logName opts m) (newStream canOpen (logName opts m))
        streamMapdata := Function.update st.streamMapdata (dataName opts m)
          (if opts.dataname = "" then none else newStream canOpen (dataName opts m)) } := by
  unfold State.openMode
  rw [getLogfileName_ok h, getDatafileName_ok h]
  rfl

/-- One more name. -/
theorem update_names {α : Type} (f g : String → α) (name : String) (names : List String) :
    (fun n => if n ∈ names then f n else Function.update g name (f name) n) =
      fun n => if n ∈ name :: names then f n else g n := by
  funext n
  by_cases hn : n ∈ names
  · rw [if_pos hn, if_pos (.tail _ hn)]
  by_cases heq : n = name
  · rw [if_neg hn, heq, Function.update_self, if_pos (.head _)]
  · rw [if_neg hn, Function.update_of_ne heq, if_neg]
    rw [List.mem_cons]
    exact not_or.2 ⟨heq, hn⟩

/-- The streams of the scanners `ms`. -/
theorem openModes_ok (canOpen : String → Bool) (ms : List Mode) : ∀ st : State,
    (∀ m ∈ ms, SizeFits m.size) →
      ms.foldlM (State.openMode opts canOpen) st = .ok
        { st with
          streamMap := fun n =>
            if n ∈ ms.map (logName opts) then newStream canOpen n else st.streamMap n
          streamMapdata := fun n =>
            if n ∈ ms.map (dataName opts) then if opts.dataname = "" then none else newStream canOpen n
            else st.streamMapdata n } := by
  induction ms with
  | nil =>
    intro st _
    simp only [List.map_nil, List.not_mem_nil, if_false]
    rfl
  | cons m ms ih =>
    intro st h
    rw [List.foldlM_cons, State.openMode_ok canOpen (h m (.head _))]
    refine (ih _ fun m' hm' => h m' (.tail _ hm')).trans ?_
    rw [List.map_cons, List.map_cons, ← update_names (newStream canOpen),
      ← update_names fun n => if opts.dataname = "" then none else newStream canOpen n]

/-- The streams of a run when `main` has opened them. -/
structure Opened (opts : Options) (canOpen : String → Bool) (st : State) : Prop where
  file : st.streamMap "file" = newStream canOpen opts.logname
  fits : opts.metaOnly = false → ∀ m ∈ modes opts, SizeFits m.size
  log : opts.metaOnly = false → ∀ m ∈ modes opts,
    st.streamMap (logName opts m) = newStream canOpen (logName opts m)
  data : opts.metaOnly = false → ∀ m ∈ modes opts, st.streamMapdata (dataName opts m) =
    if opts.dataname = "" then none else newStream canOpen (dataName opts m)

theorem Opened.ready (h : Opened opts canOpen st) : Ready opts st where
  file := by
    rw [h.file]
    rfl
  fits := h.fits
  log hm m hmem := by
    rw [h.log hm m hmem]
    rfl
  data hm m hmem := by
    rw [h.data hm m hmem]
    by_cases hname : opts.dataname = ""
    · simp [hname]
    · simp [hname, newStream]

/-- **The streams that `main` opens**, if it has room for the names. -/
theorem openStreams_ok (canOpen : String → Bool) (skip : ℤ) (p1 p2 : List UInt8)
    (h : Options.ModesFit opts) :
    ∃ st, State.openStreams opts canOpen (.start skip p1 p2) = .ok st ∧ Opened opts canOpen st ∧
      Agree st (DriverState.start skip p1 p2) := by
  unfold State.openStreams
  rcases hm : opts.metaOnly with - | -
  · have hfit := modes_fit (h.resolve_left (by rw [hm]; exact Bool.false_ne_true))
    have hfile : "file" ∉ (modes opts).map (logName opts) := by
      rw [List.mem_map]
      rintro ⟨m, -, heq⟩
      exact logName_ne_file opts m heq
    simp only [Bool.false_eq_true, if_false]
    rw [openModes_ok canOpen (modes opts) _ hfit]
    refine ⟨_, rfl, ⟨?_, fun _ => hfit, fun _ m hmem => ?_, fun _ m hmem => ?_⟩,
      ⟨rfl, rfl, rfl, rfl, rfl, rfl⟩⟩
    · simp only [hfile, if_false, Function.update_self]
    · exact if_pos (List.mem_map_of_mem hmem)
    · exact if_pos (List.mem_map_of_mem hmem)
  · simp only [if_true]
    have hno : ∀ {P : Prop}, opts.metaOnly = false → P := by
      intro P h
      rw [hm] at h
      cases h
    refine ⟨_, rfl, ⟨?_, hno, hno, hno⟩, ⟨rfl, rfl, rfl, rfl, rfl, rfl⟩⟩
    simp only [Function.update_self]

/-- What stops the program before a file is scanned. -/
theorem openStreams_overflow (canOpen : String → Bool) (st : State)
    (h : ¬ Options.ModesFit opts) :
    State.openStreams opts canOpen st =
      .error (.overflow (modeName opts.isVar opts.blockSize)) := by
  unfold Options.ModesFit at h
  obtain ⟨hmeta, hall, hsize⟩ : opts.metaOnly = false ∧ opts.scanAll = false ∧
      ¬ SizeFits opts.blockSize := by
    simpa only [not_or, Bool.not_eq_true] using h
  unfold State.openStreams modes
  simp only [hmeta, hall, Bool.false_eq_true, if_false, List.foldlM_cons]
  unfold State.openMode getLogfileName
  rw [getMode_eq, if_neg hsize]
  rfl

/-- A single mode that does not run. -/
theorem not_modesRun (hfit : Options.ModesFit opts) (h : ¬ Options.ModesRun opts) :
    opts.metaOnly = false ∧ opts.scanAll = false ∧ SizeFits opts.blockSize ∧
      (opts.blockSize < 1 ∨ opts.isVar = true ∧ 2048 < opts.blockSize) := by
  unfold Options.ModesRun modes at h
  rcases hm : opts.metaOnly with - | -
  · rcases hall : opts.scanAll with - | -
    · have hsize : SizeFits opts.blockSize := by
        simpa only [Options.ModesFit, hm, hall, Bool.false_eq_true, false_or] using hfit
      refine ⟨rfl, rfl, hsize, ?_⟩
      by_contra hno
      refine h fun _ => ?_
      rw [hall, if_neg Bool.false_ne_true, List.forall_mem_singleton]
      obtain ⟨h1, h2⟩ := not_or.1 hno
      refine ⟨not_lt.1 h1, ?_⟩
      split
      · rename_i hvar
        exact not_lt.1 fun hlt => h2 ⟨hvar, hlt⟩
      · exact hsize.2
    · refine absurd (fun _ => ?_) h
      rw [hall, if_pos rfl]
      decide
  · exact absurd (fun hno => absurd (hm.symm.trans hno) Bool.noConfusion) h

/-- A mode that runs has a name that is not too long. -/
theorem Options.ModesRun.fit (h : Options.ModesRun opts) : Options.ModesFit opts := by
  unfold Options.ModesRun modes at h
  rcases hm : opts.metaOnly with - | -
  · rcases hall : opts.scanAll with - | -
    · have hruns := h hm
      rw [hall, if_neg Bool.false_ne_true, List.forall_mem_singleton] at hruns
      exact .inr (.inr hruns.fits)
    · exact .inr (.inl hall)
  · exact .inl hm

/-- How a run of the program ends. -/
theorem main_cases (sha1 : List UInt8 → Checksum) (mem : ℕ → Uninit) (cksum : Checksum)
    (canOpen : String → Bool) (fs : String → Node) (argc : ℕ) (args : List Opt) :
    (∃ st, main sha1 mem cksum canOpen fs argc args = .ok st ∧
      ∀ g, 1 < argc → parse args = some g → Options.ModesFit g.opts) ∨
    ∃ g, 1 < argc ∧ parse args = some g ∧
      (¬ Options.ModesFit g.opts ∧ main sha1 mem cksum canOpen fs argc args =
          .error (.overflow (modeName g.opts.isVar g.opts.blockSize)) ∨
        Options.ModesFit g.opts ∧ ¬ Options.ModesRun g.opts ∧
          main sha1 mem cksum canOpen fs argc args = .error .scanner) := by
  unfold main
  by_cases hargc : argc ≤ 1
  · rw [if_pos hargc]
    exact .inl ⟨none, rfl, fun g h => absurd h (not_lt.2 hargc)⟩
  rw [if_neg hargc]
  rcases hparse : parse args with - | g
  · exact .inl ⟨none, rfl, nofun⟩
  simp only [bind, Except.bind]
  by_cases hfit : Options.ModesFit g.opts
  · obtain ⟨st, hopen, hopened, -⟩ := openStreams_ok canOpen g.scanSkip
      (List.replicate readBufferSize 0) (List.replicate readBufferSize 0) hfit
    rw [hopen]
    have hall : ∀ g', 1 < argc → some g = some g' → Options.ModesFit g'.opts := by
      intro g' _ heq
      cases heq
      exact hfit
    simp only
    unfold scan
    by_cases hft : g.ft = .localFs
    · rw [if_pos hft, scanNode_eq_foldlM]
      rcases foldlM_ready sha1 mem cksum ((fs g.path).found.files g.path) st hopened.ready with
        ⟨st', hrun⟩ | ⟨hrun, hruns⟩
      · rw [hrun]
        exact .inl ⟨_, rfl, hall⟩
      · rw [hrun]
        exact .inr ⟨g, not_le.1 hargc, rfl, .inr ⟨hfit, hruns, rfl⟩⟩
    · rw [if_neg hft]
      exact .inl ⟨_, rfl, hall⟩
  · rw [openStreams_overflow canOpen _ hfit]
    exact .inr ⟨g, not_le.1 hargc, rfl, .inl ⟨hfit, rfl⟩⟩

/-- The traversal that a command line asks for. -/
def Globals.traversal (g : Globals) (sha1 : List UInt8 → Checksum) (mem : ℕ → Uninit)
    (cksum : Checksum) (fs : String → Node) : DriverState :=
  DedupSim.scan sha1 g.opts mem cksum (DriverState.start g.scanSkip
    (List.replicate readBufferSize 0) (List.replicate readBufferSize 0)) g.path (fs g.path).found

/-- The files that it does not skip. -/
def Globals.files (g : Globals) (fs : String → Node) : List FoundFile :=
  g.opts.selected g.scanSkip 0 ((fs g.path).found.files g.path)

/-- The streams that `main` opens, with their names. -/
def State.streams (opts : Options) (st : State) : List (String × Option OutStream) :=
  (opts.logname, st.streamMap "file") ::
    if opts.metaOnly then []
    else ((modes opts).map fun m => (logName opts m, st.streamMap (logName opts m))) ++
      if opts.dataname = "" then []
      else (modes opts).map fun m => (dataName opts m, st.streamMapdata (dataName opts m))

/-- Their names. -/
def Options.outputs (opts : Options) : List String :=
  opts.logname ::
    if opts.metaOnly then []
    else (modes opts).map (logName opts) ++
      if opts.dataname = "" then [] else (modes opts).map (dataName opts)

theorem streams_names (opts : Options) (st : State) :
    (st.streams opts).map Prod.fst = Options.outputs opts := by
  unfold State.streams Options.outputs
  rcases opts.metaOnly with - | -
  · simp only [Bool.false_eq_true, if_false, List.map_cons, List.map_append, List.map_map]
    congr 2
    split
    · rfl
    · rw [List.map_map]
      rfl
  · rfl

variable {fileOf : String → String}

/-- What is in the file of a name at the end, where `fileOf` says to which file a name leads: the
bytes of the only stream to it. -/
def State.Leaves (opts : Options) (fileOf : String → String) (st : State) (name : String)
    (bytes : List UInt8) : Prop :=
  ((st.streams opts).filter fun s => decide (fileOf s.1 = fileOf name)) = [(name, some ⟨true, bytes⟩)]

/-- A command line that the program carries out, on a local path. Each mode runs, the file log can
be written, and no two streams lead to one file. -/
structure Globals.Scans (g : Globals) (fileOf : String → String) (canOpen : String → Bool) (argc : ℕ)
    (args : List Opt) : Prop where
  argc : 1 < argc
  parse : parse args = some g
  ft : g.ft = .localFs
  modes : Options.ModesRun g.opts
  opens : canOpen g.opts.logname = true
  distinct : ((Options.outputs g.opts).map fileOf).Nodup

/-- A stream leaves what it was given. -/
theorem Globals.Scans.leaves {g : Globals} {argc : ℕ} {args : List Opt}
    (h : g.Scans fileOf canOpen argc args) {st : State} {name : String} {bytes : List UInt8}
    (hmem : (name, some ⟨true, bytes⟩) ∈ st.streams g.opts) :
    st.Leaves g.opts fileOf name bytes := by
  refine filter_key_eq_singleton ?_ hmem
  have hnames := h.distinct
  rwa [← streams_names g.opts st, List.map_map] at hnames

theorem file_mem_streams (opts : Options) (st : State) :
    (opts.logname, st.streamMap "file") ∈ st.streams opts := .head _

theorem log_mem_streams (st : State) (hmeta : opts.metaOnly = false) {m : Mode} (hm : m ∈ modes opts) :
    (logName opts m, st.streamMap (logName opts m)) ∈ st.streams opts := by
  unfold State.streams
  rw [hmeta, if_neg Bool.false_ne_true]
  exact .tail _ (List.mem_append_left _ (List.mem_map_of_mem hm))

theorem data_mem_streams (st : State) (hmeta : opts.metaOnly = false) (hdata : opts.dataname ≠ "")
    {m : Mode} (hm : m ∈ modes opts) :
    (dataName opts m, st.streamMapdata (dataName opts m)) ∈ st.streams opts := by
  unfold State.streams
  rw [hmeta, if_neg Bool.false_ne_true, if_neg hdata]
  exact .tail _ (List.mem_append_right _ (List.mem_map_of_mem hm))

/-- **A run of the program**, with what it has written. -/
theorem main_wrote (sha1 : List UInt8 → Checksum) (mem : ℕ → Uninit) (cksum : Checksum)
    (fs : String → Node) {argc : ℕ} {args : List Opt} {g : Globals}
    (h : g.Scans fileOf canOpen argc args) :
    ∃ st₀ st vs, main sha1 mem cksum canOpen fs argc args = .ok (some st) ∧
      Opened g.opts canOpen st₀ ∧ st₀.fileId = 0 ∧ Wrote sha1 g.opts mem cksum st₀ vs st ∧
      Agree st (g.traversal sha1 mem cksum fs) ∧
      (g.traversal sha1 mem cksum fs).visits = vs.map (Visited.toVisit sha1 g.opts mem cksum) ∧
      vs.map Visited.file = g.files fs := by
  obtain ⟨st₀, hopen, hopened, ha⟩ := openStreams_ok canOpen g.scanSkip
    (List.replicate readBufferSize 0) (List.replicate readBufferSize 0) h.modes.fit
  have hfile : st₀.fileOpen = true := by
    unfold State.fileOpen
    rw [hopened.file]
    exact h.opens
  obtain ⟨st, vs, hrun, ha', hwrote, hvisits, hsel⟩ := foldlM_visit sha1 mem cksum h.modes
    ((fs g.path).found.files g.path) st₀ _ hopened.ready ha hfile
  refine ⟨st₀, st, vs, ?_, hopened, ha.fileId, hwrote, ?_, ?_, hsel⟩
  · unfold main
    rw [if_neg (not_le.2 h.argc), h.parse]
    simp only [bind, Except.bind, hopen]
    unfold scan
    rw [if_pos h.ft, scanNode_eq_foldlM, hrun]
    rfl
  · unfold Globals.traversal
    rw [scan_eq_foldl]
    exact ha'
  · unfold Globals.traversal
    rw [scan_eq_foldl, hvisits]
    rfl

/-- The records of a log. -/
theorem logOf_eq (ss : List ScannerOf) (n : String) :
    logOf ss n = ((ss.flatMap fun s => s.scanner.ofs.map fun b => (s.log, b)).filter
      fun p => decide (p.1 = n)).flatMap fun p => p.2.save := by
  unfold logOf
  rw [List.filter_flatMap, List.flatMap_assoc]
  apply List.flatMap_congr
  intro s _
  rw [List.filter_map, List.flatMap_map]
  by_cases hn : n = s.log
  · rw [if_pos hn, List.filter_eq_self.2]
    · rfl
    · intro b _
      exact decide_eq_true hn.symm
  · rw [if_neg hn, List.filter_eq_nil_iff.2]
    · rfl
    · intro b _ h
      exact hn (of_decide_eq_true h).symm

theorem Visited.log_file (v : Visited) :
    v.log sha1 opts mem cksum "file" = fileRecordBytes (v.record sha1 opts cksum) := by
  have hnil : logOf (v.scanners sha1 opts mem) "file" = [] := by
    unfold logOf
    rw [List.flatMap_eq_nil_iff]
    intro s hs
    unfold Visited.scanners at hs
    split at hs
    · cases hs
    · obtain ⟨m, -, rfl⟩ := List.mem_map.1 hs
      exact if_neg (logName_ne_file opts m.1).symm
  unfold Visited.log
  rw [hnil, if_pos rfl, List.nil_append]

theorem Visited.log_mode (v : Visited) {n : String} (hn : n ≠ "file") :
    v.log sha1 opts mem cksum n = logOf (v.scanners sha1 opts mem) n := by
  unfold Visited.log
  rw [if_neg hn, List.append_nil]

/-- The file log of a run. -/
theorem Wrote.fileLog {st₀ st : State} {vs : List Visited} {canOpen : String → Bool}
    (h : Wrote sha1 opts mem cksum st₀ vs st) (hopened : Opened opts canOpen st₀)
    (hopen : canOpen opts.logname = true) :
    st.streamMap "file" =
      some ⟨true, vs.flatMap fun v => fileRecordBytes (v.record sha1 opts cksum)⟩ := by
  rw [h.streamMap, hopened.file]
  simp only [newStream, hopen, Option.map_some, OutStream.write, if_true, List.nil_append,
    Visited.log_file]

/-- The digests of a scan of that file, of its pairs of bytes too. -/
def scanDigest (m : List UInt8) : Checksum :=
  if m = pairsFile then
    ⟨[0xc3, 0xc7, 0x47, 0xbd, 0xfb, 0x47, 0x4b, 0xfb, 0xea, 0xae, 0x8e, 0xc9, 0x8b, 0xca, 0x09, 0x33,
      0xff, 0x83, 0xcb, 0x22], rfl⟩
  else pairsDigest m

/-- The options `-v`, `-b`, `-d` and `-l`. -/
def pairsArgs : List Opt := [.v "4", .b "2", .d "d", .l "root"]

def pairsGlobals : Globals :=
  { Globals.start with
    opts := { Globals.start.opts with
      scanAll := false, useFixBoundary := true, fixBoundarySize := 2, dataname := "d" }
    path := "root" }

theorem pairsGlobals_scans : pairsGlobals.Scans id (fun _ => true) 9 pairsArgs :=
  ⟨by decide, rfl, rfl, by decide, rfl, by decide⟩

/-- A directory with a file that opens the second time. -/
def lateFile : Node :=
  .dir (fun _ => true) (.cons "a" (.file (fun i => decide (i = 1)) pairsFile true) .nil)

end DedupMain

end DedupSim
