import DedupSim.Spec.Scanner

/-!
# What a scanner writes and counts

* `Scanner.Output`: the members that only `addBreakpoint` and `addBlock` change.
* `addBreakpoint_output`: **one call of `addBreakpoint`** adds nothing, or one record.
* `addData_keeps`: **what a break keeps, or a block of fixed mode, a call of `addData` keeps**;
  `feed_settings`: such as the mode and the average size.
-/

namespace DedupSim

namespace Scanner

open LittleEndian

variable {sha1 : List UInt8 → Checksum} {fileId : UInt32} {sc : Scanner} {b1 b2 : List UInt8}

/-- What a scanner has written and counted, and what it is set to. -/
structure Output where
  isVar : Bool
  avgSize : UInt32
  ofs : List Block
  ofsdata : Option (List UInt8)
  datamap : List Checksum
  totBlocks : UInt32
  totDupBlocks : UInt32

def output (sc : Scanner) : Output :=
  ⟨sc.isVar, sc.avgSize, sc.ofs, sc.ofsdata, sc.datamap, sc.totBlocks, sc.totDupBlocks⟩

/-- A record, and the bytes of its block if they are new. -/
def Output.save (out : Output) (b : Block) (bytes : List UInt8) : Output :=
  match out.ofsdata with
  | none => { out with ofs := out.ofs ++ [b] }
  | some data =>
    if b.cksum ∈ out.datamap then
      { out with ofs := out.ofs ++ [b], totDupBlocks := out.totDupBlocks + 1 }
    else
      { out with
        ofs := out.ofs ++ [b]
        datamap := b.cksum :: out.datamap
        ofsdata := some (data ++ (b.cksum.toStream ++ leBytes 4 b.size.toNat ++ bytes)) }

theorem saveData_output (fileId : UInt32) (sc : Scanner) (bytes : List UInt8) :
    ((sc.saveData bytes).addBlock fileId).output =
      sc.output.save { sc.bl with fileId := fileId } bytes := by
  unfold saveData Output.save output
  rcases hdata : sc.ofsdata with - | data
  · simp only [addBlock, hdata]
  · simp only
    split
    · simp only [addBlock]
    · rfl

/-- **One call of `addBreakpoint`**: nothing, or a block is counted and saved. -/
theorem addBreakpoint_output (sha1 : List UInt8 → Checksum) (fileId : UInt32) (sc : Scanner)
    (b1 b2 : List UInt8) (offset : ℕ) :
    (sc.addBreakpoint sha1 fileId b1 b2 offset).output = sc.output ∨
      ∃ b bytes, b.fileId = fileId ∧ (sc.addBreakpoint sha1 fileId b1 b2 offset).output =
        { sc.output with totBlocks := sc.totBlocks + 1 }.save b bytes := by
  unfold addBreakpoint
  simp only
  split
  · exact .inl rfl
  · rw [saveData_output]
    exact .inr ⟨_, _, rfl, rfl⟩

/-! ## Invariants -/

section Keeps

variable {P : Output → Prop}
  (hbreak : ∀ (sc : Scanner) (b1 b2 : List UInt8) (offset : ℕ), P sc.output →
    P (sc.addBreakpoint sha1 fileId b1 b2 offset).output)
include hbreak

theorem fixBoundary_keeps (b1 b2 : List UInt8) (offset : ℕ) (h : P sc.output) :
    P (sc.fixBoundary sha1 fileId b1 b2 offset).output := by
  unfold fixBoundary
  split
  · split
    · exact hbreak sc b1 b2 (offset - 1) h
    · exact h
  · exact h

theorem findBreak_keeps (b1 b2 : List UInt8) (offset rabinf : ℕ) (h : P sc.output) :
    P (sc.findBreak sha1 fileId b1 b2 offset rabinf).output := by
  unfold findBreak
  split
  · exact h
  · have hnote : P (sc.noteBackup offset rabinf).output := by
      unfold noteBackup
      split <;> exact h
    unfold takeBreak
    split
    · exact hbreak _ b1 b2 offset hnote
    · split
      · exact hnote
      · split
        · exact hbreak _ b1 b2 _ hnote
        · exact hbreak _ b1 b2 offset hnote

theorem varScanByte_keeps (b1 b2 : List UInt8) (p : ℕ) (h : P sc.output) :
    P (sc.varScanByte sha1 fileId b1 b2 p).output := by
  have hfix := fixBoundary_keeps hbreak b1 b2 (sc.b1Offset + p) h
  unfold varScanByte
  simp only
  split
  · exact hfix
  · apply findBreak_keeps hbreak
    exact hfix

theorem varScanLoop_keeps (b1 b2 : List UInt8) (ps : List ℕ) : ∀ sc : Scanner, P sc.output →
    P (ps.foldl (varScanByte sha1 fileId b1 b2) sc).output := by
  induction ps with
  | nil => exact fun sc h => h
  | cons p ps ih => exact fun sc h => ih _ (varScanByte_keeps hbreak b1 b2 p h)

theorem varScan_keeps (b1 b2 : List UInt8) (size : ℕ) (eof : Bool) (h : P sc.output) :
    P (sc.varScan sha1 fileId b1 b2 size eof).output := by
  unfold varScan
  split
  · exact h
  · have hloop := varScanLoop_keeps hbreak b1 b2 (List.range size) sc h
    simp only
    split
    · exact hbreak _ b1 b2 _ hloop
    · exact hloop

end Keeps

theorem fixScanFrom_keeps {P : Output → Prop}
    (hblock : ∀ sc : Scanner, P sc.output → P (sc.addBlock fileId).output) (b1 : List UInt8)
    (size start : ℕ) (h : P sc.output) : P (sc.fixScanFrom sha1 fileId b1 size start).output := by
  induction hn : size - start using Nat.strong_induction_on generalizing start sc with
  | _ n ih =>
    subst hn
    unfold fixScanFrom
    split
    · refine ih _ ?_ (start + sc.avgSize.toNat) ?_ rfl
      · omega
      · exact hblock _ h
    · exact h

/-- **What a break keeps, or a block of fixed mode, a call of `addData` keeps.** -/
theorem addData_keeps {P : Output → Prop}
    (hbreak : ∀ (sc : Scanner) (b1 b2 : List UInt8) (offset : ℕ), P sc.output →
      P (sc.addBreakpoint sha1 fileId b1 b2 offset).output)
    (hblock : ∀ sc : Scanner, P sc.output → P (sc.addBlock fileId).output) (b1 b2 : List UInt8)
    (size : ℕ) (eof : Bool) (h : P sc.output) :
    P (sc.addData sha1 fileId b1 b2 size eof).output := by
  unfold addData
  split
  · exact varScan_keeps hbreak b1 b2 size eof h
  · exact fixScanFrom_keeps hblock b1 size 0 h

theorem Output.save_settings (out : Output) (b : Block) (bytes : List UInt8) :
    (out.save b bytes).isVar = out.isVar ∧ (out.save b bytes).avgSize = out.avgSize := by
  unfold save
  split
  · exact ⟨rfl, rfl⟩
  · split <;> exact ⟨rfl, rfl⟩

/-- **The mode and the average size stay.** -/
theorem feed_settings (sha1 : List UInt8 → Checksum) (fileId : UInt32) (calls : List Call) :
    ∀ sc : Scanner, (sc.feed sha1 fileId calls).isVar = sc.isVar ∧
      (sc.feed sha1 fileId calls).avgSize = sc.avgSize := by
  induction calls with
  | nil => exact fun sc => ⟨rfl, rfl⟩
  | cons c calls ih =>
    intro sc
    have hkeep : (sc.addData sha1 fileId c.b1 c.b2 c.size c.eof).output.isVar = sc.isVar ∧
        (sc.addData sha1 fileId c.b1 c.b2 c.size c.eof).output.avgSize = sc.avgSize := by
      refine addData_keeps (P := fun out => out.isVar = sc.isVar ∧ out.avgSize = sc.avgSize)
        ?_ (fun _ h => h) c.b1 c.b2 c.size c.eof ⟨rfl, rfl⟩
      intro sc' b1 b2 offset h
      rcases addBreakpoint_output sha1 fileId sc' b1 b2 offset with hsame | ⟨b, bytes, -, hsave⟩
      · rwa [hsame]
      · obtain ⟨hvar, havg⟩ := Output.save_settings
          { sc'.output with totBlocks := sc'.totBlocks + 1 } b bytes
        rw [hsave]
        exact ⟨hvar.trans h.1, havg.trans h.2⟩
    obtain ⟨hvar, havg⟩ := ih (sc.addData sha1 fileId c.b1 c.b2 c.size c.eof)
    exact ⟨hvar.trans hkeep.1, havg.trans hkeep.2⟩

end Scanner

end DedupSim
