import DedupSim.Spec.Driver
import DedupSim.Spec.Simulator
import Mathlib.Logic.Function.Basic

/-!
# The scan program (`dedup_main.cpp`)

* `Opt`, `parse`: the options, one after another as `getopt` returns them, and `atoi`.
* `Node`, `openLoop`: what is found at a path, whether it opens the first time, the second
  and so on, and the loop that tries again.
* `OutStream`, `State`: `stream_map` and `stream_mapdata`, and what each stream was given.
  A name that is not in the map is a `NULL`. Each stream has its own bytes: what is in a file
  when two streams lead to it is not said.
* `scan`, `main`: the traversal and the program.

What the program prints is left out, and so is Pangu, which a plain build has not: there
`scan` returns at once. A name is a UTF-8 string.
-/

namespace DedupSim

open LittleEndian

namespace DedupMain

/-- What stops the program, or has no defined behaviour: a mode that `char mode[8]` does not
hold, a scanner that has failed, or a `NULL` stream. -/
inductive Abort
  | overflow (mode : String)
  | scanner
  | null (name : String)
deriving DecidableEq

/-! ## The options -/

/-- `isspace`. -/
def isspace (c : Char) : Bool := c = ' ' || ('\t' ≤ c && c ≤ '\r')

/-- `atoi`: a number of type `long`, or the bound of this type that it is beyond, cut to
an `int`. -/
def atoi (s : String) : ℤ :=
  let number : List Char → ℤ := fun s =>
    (s.takeWhile Char.isDigit).foldl (fun n c => 10 * n + (c.toNat - '0'.toNat)) 0
  let n := match s.toList.dropWhile isspace with
    | '-' :: s => -number s
    | '+' :: s => number s
    | s => number s
  (BitVec.ofInt 32 (max (-2 ^ 63) (min (2 ^ 63 - 1) n))).toInt

/-- `FileSystemType`. -/
inductive FileSystemType
  | localFs
  | pangu
  | kvFile
deriving DecidableEq

/-- An option of the command line with its argument; `unknown` is every other one. -/
inductive Opt
  | a (optarg : String)
  | x (optarg : String)
  | m
  | k (optarg : String)
  | n (optarg : String)
  | s (optarg : String)
  | b (optarg : String)
  | f (optarg : String)
  | v (optarg : String)
  | p (optarg : String)
  | l (optarg : String)
  | o (optarg : String)
  | d (optarg : String)
  | t
  | h
  | unknown

/-- What the options set. -/
structure Globals where
  opts : Options
  ft : FileSystemType
  path : String
  scanSkip : ℤ

/-- The defaults. -/
def Globals.start : Globals where
  opts :=
    { scanAll := true
      isVar := true
      blockSize := 4
      useFixBoundary := false
      fixBoundarySize := 0
      metaOnly := false
      minSize := 0
      scanCount := 0
      logname := "dedup_result"
      dataname := "" }
  ft := .localFs
  path := "."
  scanSkip := 0

/-- `switch (option)`; `none` where it prints the usage. What `-x` sets nothing reads. -/
def Globals.setOption (g : Globals) : Opt → Option Globals
  | .a optarg => some { g with path := optarg, ft := .kvFile }
  | .x _ => some g
  | .m => some { g with opts := { g.opts with metaOnly := true } }
  | .k optarg => some { g with scanSkip := atoi optarg }
  | .n optarg => some { g with opts := { g.opts with scanCount := (UInt64.ofInt (atoi optarg)).toNat } }
  | .s optarg => some { g with opts := { g.opts with minSize := (UInt64.ofInt (atoi optarg)).toNat } }
  | .b optarg => some { g with opts := { g.opts with
      scanAll := false
      useFixBoundary := true
      fixBoundarySize := (UInt64.ofInt (atoi optarg)).toNat } }
  | .f optarg => some { g with opts := { g.opts with
      scanAll := false, isVar := false, blockSize := atoi optarg } }
  | .v optarg => some { g with opts := { g.opts with
      scanAll := false, isVar := true, blockSize := atoi optarg } }
  | .p optarg => some { g with path := optarg, ft := .pangu }
  | .l optarg => some { g with path := optarg, ft := .localFs }
  | .o optarg => some { g with opts := { g.opts with logname := optarg } }
  | .d optarg => some { g with opts := { g.opts with dataname := optarg } }
  | .t => some g
  | .h => none
  | .unknown => none

/-- The loop `while ((option = getopt(...)) != -1)`. -/
def parse (args : List Opt) : Option Globals := args.foldlM Globals.setOption .start

/-! ## Names -/

/-- `get_mode`, in an array of eight `char`. -/
def getMode (var : Bool) (size : ℤ) : Except Abort String :=
  let mode := (if var then "v" else "f") ++ toString size
  if mode.length < 8 then .ok mode else .error (.overflow mode)

variable (opts : Options)

/-- `get_logfile_name`. -/
def getLogfileName (isVar : Bool) (size : ℤ) (fixBoundary : Bool) : Except Abort String := do
  let mode ← getMode isVar size
  return opts.logname ++ (if fixBoundary then ".b" else ".") ++ mode

/-- `get_datafile_name`. -/
def getDatafileName (isVar : Bool) (size : ℤ) (fixBoundary : Bool) : Except Abort String := do
  let mode ← getMode isVar size
  return opts.dataname ++ (if fixBoundary then ".data.b" else ".data.") ++ mode

/-- The arguments of a `Scanner`, and whether its names have a `b`. -/
structure Mode where
  isVar : Bool
  size : ℤ
  fixBoundary : Bool
  boundarySize : ℕ

/-- The scanners that `main` opens streams for, and `scan` builds. -/
def modes : List Mode :=
  if opts.scanAll then [⟨false, 2048, false, 0⟩, ⟨true, 4, false, 0⟩, ⟨true, 4, true, 0x1 <<< 21⟩]
  else [⟨opts.isVar, opts.blockSize, opts.useFixBoundary, opts.fixBoundarySize⟩]

/-! ## The streams -/

/-- An `ofstream`, with what was written to it. -/
structure OutStream where
  isOpen : Bool
  written : List UInt8

/-- `ofstream::write`. -/
def OutStream.write (os : OutStream) (bytes : List UInt8) : OutStream :=
  if os.isOpen then { os with written := os.written ++ bytes } else os

/-- The globals that change. -/
structure State where
  fileId : UInt32
  totalFiles : ℕ
  totalSize : ℕ
  scanSkip : ℤ
  p1 : List UInt8
  p2 : List UInt8
  streamMap : String → Option OutStream
  streamMapdata : String → Option OutStream

/-- The globals before a stream is opened. -/
def State.start (scanSkip : ℤ) (p1 p2 : List UInt8) : State where
  fileId := 0
  totalFiles := 0
  totalSize := 0
  scanSkip := scanSkip
  p1 := p1
  p2 := p2
  streamMap := fun _ => none
  streamMapdata := fun _ => none

/-- `stream_map[name]->write`. -/
def State.writeLog (st : State) (name : String) (bytes : List UInt8) : Except Abort State :=
  match st.streamMap name with
  | none => .error (.null name)
  | some os => .ok { st with streamMap := Function.update st.streamMap name (some (os.write bytes)) }

/-- `ofsdata->write`, if there is a data stream. -/
def State.writeData (st : State) (name : String) (bytes : List UInt8) : State :=
  match st.streamMapdata name with
  | none => st
  | some os =>
    { st with streamMapdata := Function.update st.streamMapdata name (some (os.write bytes)) }

/-- The bytes of a record of the file log. -/
def fileRecordBytes (r : FileRecord) : List UInt8 :=
  leBytes 4 r.fileId.toNat ++ leBytes 8 r.size.toNat ++ r.cksum.toStream ++
    leBytes 8 r.name.utf8ByteSize ++ r.name.toByteArray.data.toList

/-- `save_file`. -/
def State.saveFile (st : State) (name : String) (size : ℕ) (cksum : Checksum) :
    Except Abort State :=
  let st := { st with totalFiles := st.totalFiles + 1, totalSize := st.totalSize + size }
  match st.streamMap "file" with
  | none => .error (.null "file")
  | some os =>
    if ! os.isOpen then .ok st
    else
      let fileId := st.fileId + 1
      State.writeLog { st with fileId := fileId } "file"
        (fileRecordBytes ⟨fileId, UInt64.ofNat size, cksum, name⟩)

/-! ## Opening -/

mutual

/-- What is found at a path, and which attempts to open it succeed; `other` never opens. -/
inductive Node where
  | file (opens : ℕ → Bool) (content : List UInt8) (readable : Bool)
  | dir (opens : ℕ → Bool) (nodes : Nodes)
  | other

/-- The entries of a directory, as they are listed. -/
inductive Nodes where
  | nil
  | cons (name : String) (node : Node) (rest : Nodes)

end

/-- `MAX_RETRY`. -/
def maxRetry : ℕ := 6

/-- The loop `while (!fr->open(path))`, from an attempt on: whether it ends with an open
file, and the arguments of `sleep`. -/
def openLoop (opens : ℕ → Bool) : (attempt nretry waitsec : ℕ) → Bool × List ℕ
  | attempt, nretry, waitsec =>
    if opens attempt then (true, [])
    else match nretry with
      | 0 => (false, [])
      | nretry + 1 =>
        let (ok, waits) := openLoop opens (attempt + 1) nretry (2 * waitsec)
        (ok, waitsec :: waits)

/-- Whether `scan` opens it. -/
def opened (opens : ℕ → Bool) : Bool := (openLoop opens 0 maxRetry 1).1

/-! ## The traversal -/

section Scan

variable (sha1 : List UInt8 → Checksum) (mem : ℕ → Uninit) (cksum : Checksum)

/-- A new scanner, and the names of its log and its data stream. -/
structure ScannerOf where
  log : String
  data : String
  scanner : Scanner

/-- `new Scanner(..., stream_map[...], stream_mapdata[...])`. -/
def State.newScanner (st : State) (mem : Uninit) (m : Mode) : Except Abort ScannerOf := do
  let log ← getLogfileName opts m.isVar m.size m.fixBoundary
  let data ← getDatafileName opts m.isVar m.size m.fixBoundary
  return ⟨log, data, Scanner.new mem m.isVar m.size m.boundarySize (st.streamMapdata data).isSome⟩

/-- What a scanner has written to its streams, which are its own. -/
def State.writeScanner (st : State) (s : ScannerOf) : Except Abort State := do
  let st ← st.writeLog s.log (s.scanner.ofs.flatMap Block.save)
  return st.writeData s.data (s.scanner.ofsdata.getD [])

/-- `scan` on a regular file that is open; `cksum` is what memory an unset `fr->cksum` has. A
scanner that fails does so in the read loop. -/
def scanFile (st : State) (path : String) (content : List UInt8) (readable : Bool) :
    Except Abort State :=
  if content.length < opts.minSize then .ok st
  else
    let skip := st.scanSkip
    let st := { st with scanSkip := skip - 1 }
    if 0 < skip then .ok st
    else if 0 < opts.scanCount ∧ opts.scanCount ≤ st.totalFiles then .ok st
    else if opts.metaOnly then st.saveFile path content.length cksum
    else do
      let scanners ← (modes opts).zipIdx.mapM fun m => st.newScanner opts (mem m.2) m.1
      let lp := scanData sha1 st.fileId (scanners.map ScannerOf.scanner)
        (LocalFSReader.open content readable) st.p1 st.p2
      if lp.scanners.any Scanner.faulty then .error .scanner
      else do
        let scanners := (scanners.zip lp.scanners).map fun p => { p.1 with scanner := p.2 }
        let st ← scanners.foldlM State.writeScanner { st with p1 := lp.p1, p2 := lp.p2 }
        st.saveFile path content.length (sha1 lp.ctx)

mutual

/-- `scan`, of a local path. -/
def scanNode (st : State) (path : String) : Node → Except Abort State
  | .file opens content readable =>
    if opened opens then scanFile opts sha1 mem cksum st path content readable else .ok st
  | .dir opens nodes => if opened opens then scanNodes st path nodes else .ok st
  | .other => .ok st

/-- The loop over the entries of a directory; an empty name ends it. -/
def scanNodes (st : State) (path : String) : Nodes → Except Abort State
  | .nil => .ok st
  | .cons name node rest =>
    if name = "" then .ok st
    else do
      let st ← scanNode st (path ++ "/" ++ name) node
      scanNodes st path rest

end

/-- `scan`: without Pangu, nothing but a local path is scanned. -/
def scan (ft : FileSystemType) (st : State) (path : String) (node : Node) : Except Abort State :=
  if ft = .localFs then scanNode opts sha1 mem cksum st path node else .ok st

end Scan

/-! ## The program -/

/-- `new ofstream(name, ...)`, which empties the file. -/
def newStream (canOpen : String → Bool) (name : String) : Option OutStream :=
  some { isOpen := canOpen name, written := [] }

/-- The streams of a scanner. -/
def State.openMode (canOpen : String → Bool) (st : State) (m : Mode) : Except Abort State := do
  let log ← getLogfileName opts m.isVar m.size m.fixBoundary
  let data ← getDatafileName opts m.isVar m.size m.fixBoundary
  return { st with
    streamMap := Function.update st.streamMap log (newStream canOpen log)
    streamMapdata := Function.update st.streamMapdata data
      (if opts.dataname = "" then none else newStream canOpen data) }

/-- The output streams. -/
def State.openStreams (canOpen : String → Bool) (st : State) : Except Abort State :=
  let st := { st with
    streamMap := Function.update st.streamMap "file" (newStream canOpen opts.logname) }
  if opts.metaOnly then .ok st else (modes opts).foldlM (State.openMode opts canOpen) st

/-- `main`, with the options `args` of a command line of `argc` words; `canOpen` says which
files can be written, and `fs` what is found at a path. `none` where the usage is printed. -/
def main (sha1 : List UInt8 → Checksum) (mem : ℕ → Uninit) (cksum : Checksum)
    (canOpen : String → Bool) (fs : String → Node) (argc : ℕ) (args : List Opt) :
    Except Abort (Option State) :=
  if argc ≤ 1 then .ok none
  else match parse args with
    | none => .ok none
    | some g => do
      let zeros := List.replicate readBufferSize 0
      let st ← State.openStreams g.opts canOpen (.start g.scanSkip zeros zeros)
      let st ← scan g.opts sha1 mem cksum g.ft st g.path (fs g.path)
      return some st

end DedupMain

end DedupSim
