import DedupSim.Spec.Rabin

/-!
# The chunk scanner (`scanner.hpp`, `scanner.cpp`)

`sha1` is the digest function, `fileId` the global `file_id` that `addBlock`
reads. Positions in the file are numbers; a record holds them in its fields'
types. `b1` is the buffer with the new data, `b2` the one before it.

The steps go on where the source has no defined behaviour: an index before `b2`, which a
block longer than a buffer can have, and bytes for an average size of zero, where `fixScan`
does not end and `varScan` divides by zero. `Scanner.faulty` says that this has happened.
-/

namespace DedupSim

open LittleEndian

/-- Bytes read of a buffer: the index of the first, which may be out of range,
and their number. -/
structure Range where
  start : ℤ
  len : ℕ
deriving DecidableEq

def Range.read (r : Range) (b : List UInt8) : List UInt8 := slice b r.start.toNat r.len

/-- One call of `addBreakpoint`: the block's first and last position, where `b1`
lay in the file, and what was read of each buffer. Kept to state what was read;
the source has no such list. -/
structure Breakpoint where
  newStart : ℕ
  offset : ℕ
  b1Offset : ℕ
  b2 : Range
  b1 : Range
  bytes : List UInt8
deriving DecidableEq

/-- Members that the constructor leaves as the memory has them. -/
structure Uninit where
  bl : Block
  totBlocks : UInt32
  totDupBlocks : UInt32
deriving Inhabited

/-- `class Scanner`. `ofs` is what this scanner appended to its log, record by
record; `ofsdata` what it appended to its data stream, if it has one. -/
structure Scanner where
  isVar : Bool
  sizeInKb : UInt32
  avgSize : UInt32
  tmin : UInt32
  tmax : UInt32
  d : UInt32
  dDash : UInt32
  newStart : ℕ
  backupBreak : ℕ
  b1Offset : ℕ
  s : Option RabinState
  bl : Block
  fixBoundarySize : ℕ
  ofs : List Block
  ofsdata : Option (List UInt8)
  datamap : List Checksum
  totBlocks : UInt32
  totDupBlocks : UInt32
  breaks : List Breakpoint

namespace Scanner

/-- `Scanner::Scanner`; `dataout` says whether a data stream is given. -/
def new (mem : Uninit) (var : Bool) (kb : ℤ) (boundarySize : ℕ) (dataout : Bool) : Scanner :=
  let sizeInKb := UInt32.ofInt kb
  let avgSize := 0x400 * sizeInKb
  let tmin := avgSize >>> 1
  let d := avgSize - tmin
  { isVar := var
    sizeInKb := sizeInKb
    avgSize := avgSize
    tmin := tmin
    tmax := avgSize <<< 2
    d := d
    dDash := d >>> 1
    newStart := 0
    backupBreak := 0
    b1Offset := 0
    s := if var then (rabinInit rabinPoly rabinWindowSize).toOption else none
    bl := mem.bl
    fixBoundarySize := boundarySize
    ofs := []
    ofsdata := if dataout then some [] else none
    datamap := []
    totBlocks := mem.totBlocks
    totDupBlocks := mem.totDupBlocks
    breaks := [] }

variable (sha1 : List UInt8 → Checksum) (fileId : UInt32)

/-- `Scanner::addBlock`. -/
def addBlock (sc : Scanner) : Scanner := { sc with ofs := sc.ofs ++ [{ sc.bl with fileId := fileId }] }

/-- The data stream's part of `addBreakpoint`, the same in all three cases: the
checksum, size and bytes of a block not seen before. -/
def saveData (sc : Scanner) (bytes : List UInt8) : Scanner :=
  match sc.ofsdata with
  | none => sc
  | some out =>
    if sc.bl.cksum ∈ sc.datamap then { sc with totDupBlocks := sc.totDupBlocks + 1 }
    else
      { sc with
        datamap := sc.bl.cksum :: sc.datamap
        ofsdata := some (out ++ (sc.bl.cksum.toStream ++ leBytes 4 sc.bl.size.toNat ++ bytes)) }

/-- What `addBreakpoint` reads of `b2` and of `b1`: all data in `b1`, all in `b2`,
or half and half. -/
def ranges (newStart b1Offset offset size : ℕ) : Range × Range :=
  let old : ℤ := newStart + readBufferSize - b1Offset
  if b1Offset ≤ newStart then
    ({ start := 0, len := 0 }, { start := newStart - b1Offset, len := size })
  else if offset < b1Offset then
    ({ start := old, len := size }, { start := 0, len := 0 })
  else
    ({ start := old, len := b1Offset - newStart }, { start := 0, len := offset - b1Offset + 1 })

/-- `Scanner::addBreakpoint`: the block from `newStart` up to `offset`. -/
def addBreakpoint (sc : Scanner) (b1 b2 : List UInt8) (offset : ℕ) : Scanner :=
  let bl := { sc.bl with
    offset := UInt64.ofNat sc.newStart, size := UInt32.ofNat (offset + 1 - sc.newStart) }
  if bl.size = 0 then { sc with bl := bl }
  else
    let r := ranges sc.newStart sc.b1Offset offset bl.size.toNat
    let bytes := r.1.read b2 ++ r.2.read b1
    let bp : Breakpoint := ⟨sc.newStart, offset, sc.b1Offset, r.1, r.2, bytes⟩
    let sc := { sc with
      bl := { bl with cksum := sha1 bytes }
      totBlocks := sc.totBlocks + 1
      breaks := sc.breaks ++ [bp] }
    (sc.saveData bytes).addBlock fileId

/-- The hard break of the fix boundary mode, before the byte at `offset`. -/
def fixBoundary (sc : Scanner) (b1 b2 : List UInt8) (offset : ℕ) : Scanner :=
  if sc.fixBoundarySize ≠ 0 ∧ offset ≠ 0 ∧ offset % sc.fixBoundarySize = 0 then
    { (if sc.newStart < offset then sc.addBreakpoint sha1 fileId b1 b2 (offset - 1) else sc) with
      newStart := offset
      backupBreak := 0
      s := (rabinInit rabinPoly rabinWindowSize).toOption }
  else sc

/-- A possible backup break at `offset`. -/
def noteBackup (sc : Scanner) (offset rabinf : ℕ) : Scanner :=
  if rabinf % sc.dDash.toNat = sc.dDash.toNat - 1 then { sc with backupBreak := offset } else sc

/-- The break at `offset`, if there is one: a primary break, or at the maximum
size the backup break, or a hard break. -/
def takeBreak (sc : Scanner) (b1 b2 : List UInt8) (offset rabinf : ℕ) : Scanner :=
  if rabinf % sc.d.toNat = sc.d.toNat - 1 then
    { sc.addBreakpoint sha1 fileId b1 b2 offset with backupBreak := 0, newStart := offset + 1 }
  else if offset + 1 - sc.newStart < sc.tmax.toNat then sc
  else if sc.backupBreak ≠ 0 then
    { sc.addBreakpoint sha1 fileId b1 b2 sc.backupBreak with
      newStart := sc.backupBreak + 1, backupBreak := 0 }
  else
    { sc.addBreakpoint sha1 fileId b1 b2 offset with newStart := offset + 1, backupBreak := 0 }

/-- What `varScan` does with the fingerprint of the byte at `offset`. -/
def findBreak (sc : Scanner) (b1 b2 : List UInt8) (offset rabinf : ℕ) : Scanner :=
  if offset + 1 - sc.newStart < sc.tmin.toNat then sc
  else (sc.noteBackup offset rabinf).takeBreak sha1 fileId b1 b2 offset rabinf

/-- The body of `varScan`'s loop. -/
def varScanByte (b1 b2 : List UInt8) (sc : Scanner) (p : ℕ) : Scanner :=
  let offset := sc.b1Offset + p
  let sc := sc.fixBoundary sha1 fileId b1 b2 offset
  match sc.s with
  | none => sc
  | some s =>
    let (rabinf, s) := rabinSlide8 s (b1.getD p 0)
    ({ sc with s := some s }).findBreak sha1 fileId b1 b2 offset rabinf.toNat

/-- `Scanner::varScan`. -/
def varScan (sc : Scanner) (b1 b2 : List UInt8) (size : ℕ) (eof : Bool) : Scanner :=
  if sc.s = none then sc
  else
    let sc := (List.range size).foldl (varScanByte sha1 fileId b1 b2) sc
    let sc := if eof ∧ sc.newStart < size + sc.b1Offset then
        sc.addBreakpoint sha1 fileId b1 b2 (size + sc.b1Offset - 1)
      else sc
    { sc with b1Offset := sc.b1Offset + size }

/-- `fixScan`'s loop, from `start` on. -/
def fixScanFrom (b1 : List UInt8) (size start : ℕ) (sc : Scanner) : Scanner :=
  if _h : start < size ∧ 0 < sc.avgSize.toNat then
    let len := if start + sc.avgSize.toNat > size then UInt32.ofNat (size - start) else sc.avgSize
    let bl := { sc.bl with
      offset := UInt64.ofNat (start + sc.b1Offset)
      size := len
      cksum := sha1 (slice b1 start len.toNat) }
    fixScanFrom b1 size (start + sc.avgSize.toNat) (({ sc with bl := bl }).addBlock fileId)
  else sc
termination_by size - start
decreasing_by omega

/-- `Scanner::fixScan`. -/
def fixScan (sc : Scanner) (b1 : List UInt8) (size : ℕ) : Scanner :=
  let sc := fixScanFrom sha1 fileId b1 size 0 sc
  { sc with b1Offset := sc.b1Offset + size }

/-- `Scanner::addData`. -/
def addData (sc : Scanner) (b1 b2 : List UInt8) (size : ℕ) (eof : Bool) : Scanner :=
  if sc.isVar then sc.varScan sha1 fileId b1 b2 size eof else sc.fixScan sha1 fileId b1 size

end Scanner

/-- The arguments of one call of `addData`. -/
structure Call where
  b1 : List UInt8
  b2 : List UInt8
  size : ℕ
  eof : Bool

/-- The source has no defined run to the state of `sc`: an index was before `b2`, or the average
size is zero and there were bytes. -/
def Scanner.faulty (sc : Scanner) : Bool :=
  sc.breaks.any (fun bp => bp.b2.start < 0) || (sc.avgSize = 0 && 0 < sc.b1Offset)

/-- A scanner fed with the calls in order. -/
def Scanner.feed (sha1 : List UInt8 → Checksum) (fileId : UInt32) (sc : Scanner) (calls : List Call) :
    Scanner :=
  calls.foldl (fun sc c => sc.addData sha1 fileId c.b1 c.b2 c.size c.eof) sc

end DedupSim
