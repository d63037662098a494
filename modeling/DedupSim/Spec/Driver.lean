import DedupSim.Spec.Scanner

/-!
# The scan driver (`dedup_main.cpp`, `fs_reader.cpp`)

* `LocalFSReader`, `LoopState.loadData`, `readLoop`: one file is read into two
  swapped buffers and fed to every scanner.
* `Entry`: what `open` finds at a path. Retries, the access rights of a directory
  and the other file systems are left out: an entry that does not open is `other`.
* `scan`: the recursive traversal. The streams are open, and no scanner fails: its
  average size is not zero, and it reads nothing before its buffers. `visits` lists
  what each file that was not skipped wrote to the mode logs and to the file log.
-/

namespace DedupSim

/-! ## Reading one file -/

/-- `LocalFSReader` on a regular file: the bytes not read yet, and `is.fail()`. -/
structure LocalFSReader where
  rest : List UInt8
  fail : Bool

/-- `LocalFSReader::open` on a regular file, which may not be readable. -/
def LocalFSReader.open (content : List UInt8) (readable : Bool) : LocalFSReader :=
  if readable then { rest := content, fail := false } else { rest := [], fail := true }

/-- `LocalFSReader::readData`: the number of bytes read, the buffer, the reader. -/
def LocalFSReader.readData (fr : LocalFSReader) (buffer : List UInt8) (length : ℕ) :
    ℕ × List UInt8 × LocalFSReader :=
  if fr.fail then (0, buffer, fr)
  else
    let data := fr.rest.take length
    (data.length, data ++ buffer.drop data.length,
      { rest := fr.rest.drop length, fail := decide (data.length < length) })

/-- The variables of `scan`'s read loop; `ctx` holds the bytes given to `SHA1_Update`. -/
structure LoopState where
  scanners : List Scanner
  fr : LocalFSReader
  p1 : List UInt8
  p2 : List UInt8
  ctx : List UInt8
  nbytes : ℕ

/-- `load_data`. -/
def LoopState.loadData (st : LoopState) : LoopState :=
  let temp := st.p2
  let p2 := st.p1
  let (nbytes, p1, fr) := st.fr.readData temp readBufferSize
  { st with fr := fr, p1 := p1, p2 := p2, ctx := st.ctx ++ p1.take nbytes, nbytes := nbytes }

theorem LoopState.loadData_lt (st : LoopState) (h : st.nbytes ≠ 0) :
    st.loadData.fr.rest.length + st.loadData.nbytes < st.fr.rest.length + st.nbytes := by
  unfold loadData LocalFSReader.readData
  split
  · simp only; omega
  · simp only [List.length_drop, List.length_take]; omega

variable (sha1 : List UInt8 → Checksum) (fileId : UInt32)

/-- `for (it = scanners.begin(); ...) (*it)->addData(p1, p2, nbytes, eof)`. -/
def LoopState.addData (st : LoopState) (eof : Bool) : LoopState :=
  { st with scanners := st.scanners.map fun sc => sc.addData sha1 fileId st.p1 st.p2 st.nbytes eof }

/-- The loop `while (nbytes)`. -/
def readLoop (st : LoopState) : LoopState :=
  if _h : st.nbytes ≠ 0 then
    let eof := decide (st.nbytes ≠ readBufferSize)
    let st' := st.addData sha1 fileId eof
    if eof then st' else readLoop st'.loadData
  else st
termination_by st.fr.rest.length + st.nbytes
decreasing_by exact (st.addData sha1 fileId _).loadData_lt _h

/-- The scanners are fed the file of `fr`, from the first `load_data` on. -/
def scanData (scanners : List Scanner) (fr : LocalFSReader) (p1 p2 : List UInt8) : LoopState :=
  readLoop sha1 fileId
    (LoopState.loadData { scanners := scanners, fr := fr, p1 := p1, p2 := p2, ctx := [], nbytes := 0 })

/-! ## The traversal -/

mutual

/-- What is found at a path. -/
inductive Entry where
  | file (content : List UInt8) (readable : Bool)
  | dir (entries : Entries)
  | other

/-- The entries of a directory, as they are listed. -/
inductive Entries where
  | nil
  | cons (name : String) (entry : Entry) (rest : Entries)

end

/-- The options that `scan` reads. -/
structure Options where
  scanAll : Bool
  isVar : Bool
  blockSize : ℤ
  useFixBoundary : Bool
  fixBoundarySize : ℕ
  metaOnly : Bool
  minSize : ℕ
  scanCount : ℕ
  logname : String
  dataname : String

/-- A record of the file log; the length of the name is written with it. -/
structure FileRecord where
  fileId : UInt32
  size : UInt64
  cksum : Checksum
  name : String

/-- A file that was not skipped: the records its scanners wrote, each with the name
of its log, and the record `save_file` wrote. -/
structure Visit where
  blocks : List (String × Block)
  record : FileRecord

/-- The globals of `dedup_main.cpp` that change. -/
structure DriverState where
  fileId : UInt32
  totalFiles : ℕ
  totalSize : ℕ
  scanSkip : ℤ
  p1 : List UInt8
  p2 : List UInt8
  visits : List Visit

/-- The globals when `main` calls `scan`; `skip` is the option `-k`. -/
def DriverState.start (skip : ℤ) (p1 p2 : List UInt8) : DriverState :=
  { fileId := 0, totalFiles := 0, totalSize := 0, scanSkip := skip, p1 := p1, p2 := p2, visits := [] }

/-- `get_logfile_name`. -/
def Options.getLogfileName (opts : Options) (isVar : Bool) (size : ℤ) (fixBoundary : Bool) : String :=
  opts.logname ++ (if fixBoundary then ".b" else ".") ++ (if isVar then "v" else "f") ++ toString size

/-- The scanners of a file, with their logs. `mem` is what memory their uninitialised
members have. -/
def Options.scanners (opts : Options) (mem : ℕ → Uninit) : List (String × Scanner) :=
  let dataout := opts.dataname ≠ ""
  if opts.scanAll then
    [(opts.getLogfileName false 2048 false, Scanner.new (mem 0) false 2048 0 dataout),
      (opts.getLogfileName true 4 false, Scanner.new (mem 1) true 4 0 dataout),
      (opts.getLogfileName true 4 true, Scanner.new (mem 2) true 4 (0x1 <<< 21) dataout)]
  else
    [(opts.getLogfileName opts.isVar opts.blockSize opts.useFixBoundary,
      Scanner.new (mem 0) opts.isVar opts.blockSize opts.fixBoundarySize dataout)]

/-- `save_file`, for a file whose scanners wrote `blocks`. -/
def DriverState.saveFile (st : DriverState) (name : String) (size : ℕ) (cksum : Checksum)
    (blocks : List (String × Block)) : DriverState :=
  let fileId := st.fileId + 1
  { st with
    totalFiles := st.totalFiles + 1
    totalSize := st.totalSize + size
    fileId := fileId
    visits := st.visits ++ [⟨blocks, ⟨fileId, UInt64.ofNat size, cksum, name⟩⟩] }

section Scan

variable (opts : Options) (mem : ℕ → Uninit) (cksum : Checksum)

/-- The records that the scanners of a file have written. -/
def modeRecords (names : List String) (scanners : List Scanner) : List (String × Block) :=
  (names.zip scanners).flatMap fun p => p.2.ofs.map fun b => (p.1, b)

/-- `scan` on a regular file; `cksum` is what memory an unset `fr->cksum` has. -/
def scanFile (st : DriverState) (path : String) (content : List UInt8) (readable : Bool) :
    DriverState :=
  if content.length < opts.minSize then st
  else
    let skip := st.scanSkip
    let st := { st with scanSkip := skip - 1 }
    if 0 < skip then st
    else if 0 < opts.scanCount ∧ opts.scanCount ≤ st.totalFiles then st
    else if opts.metaOnly then st.saveFile path content.length cksum []
    else
      let scanners := opts.scanners mem
      let lp := scanData sha1 st.fileId (scanners.map Prod.snd) (LocalFSReader.open content readable)
        st.p1 st.p2
      DriverState.saveFile { st with p1 := lp.p1, p2 := lp.p2 } path content.length (sha1 lp.ctx)
        (modeRecords (scanners.map Prod.fst) lp.scanners)

mutual

/-- `scan`. -/
def scan (st : DriverState) (path : String) : Entry → DriverState
  | .file content readable => scanFile sha1 opts mem cksum st path content readable
  | .dir entries => scanEntries st path entries
  | .other => st

/-- The loop over the entries of a directory; an empty name ends it. -/
def scanEntries (st : DriverState) (path : String) : Entries → DriverState
  | .nil => st
  | .cons name entry rest =>
    if name = "" then st else scanEntries (scan st (path ++ "/" ++ name) entry) path rest

end

end Scan

end DedupSim
