import DedupSim.Proof.FileIds
import DedupSim.Proof.FileLog

/-!
# The streams of the scan program

* `getMode_eq`: the modes that `get_mode` has room for.
* `openLoop_spec`: `scan` opens what opens within seven attempts, and gives up after 63
  seconds.
* `scanNode_eq_foldlM`: the traversal of a tree visits what it finds, in order.
* `foldlM_writeScanner`, `State.saveFile_ok`: what is written to the stream of each name.
-/

namespace DedupSim

open LittleEndian

namespace DedupMain

variable {sha1 : List UInt8 → Checksum} {opts : Options} {mem : ℕ → Uninit} {cksum : Checksum}
  {st : State}

/-! ## Names -/

/-- The mode of a scanner. -/
def modeName (var : Bool) (size : ℤ) : String := (if var then "v" else "f") ++ toString size

/-- The sizes that `char mode[8]` has room for. -/
def SizeFits (size : ℤ) : Prop := -99999 ≤ size ∧ size ≤ 999999

instance (size : ℤ) : Decidable (SizeFits size) := inferInstanceAs (Decidable (_ ∧ _))

theorem length_modeName (var : Bool) (size : ℤ) :
    (modeName var size).length < 8 ↔ SizeFits size := by
  have hlen : (modeName var size).length = (toString size).length + 1 := by
    unfold modeName
    rw [String.length_append]
    rcases var with - | -
    · exact Nat.add_comm 1 _
    · exact Nat.add_comm 1 _
  have h6 : ∀ n : ℕ, n.repr.length ≤ 6 ↔ n < 10 ^ 6 := fun n => Nat.length_repr_le_iff (by decide)
  have h5 : ∀ n : ℕ, n.repr.length ≤ 5 ↔ n < 10 ^ 5 := fun n => Nat.length_repr_le_iff (by decide)
  rw [hlen, Int.toString_eq_repr, Int.repr_eq_if]
  unfold SizeFits
  split
  · have := h6 size.toNat
    omega
  · rw [String.length_append, show "-".length = 1 from rfl]
    have := h5 (-size).toNat
    omega

theorem getMode_eq (var : Bool) (size : ℤ) :
    getMode var size =
      if SizeFits size then .ok (modeName var size) else .error (.overflow (modeName var size)) := by
  unfold getMode
  simp only [← length_modeName var size]
  rfl

/-- The names of a scanner's streams. -/
def logName (opts : Options) (m : Mode) : String :=
  opts.logname ++ (if m.fixBoundary then ".b" else ".") ++ modeName m.isVar m.size

def dataName (opts : Options) (m : Mode) : String :=
  opts.dataname ++ (if m.fixBoundary then ".data.b" else ".data.") ++ modeName m.isVar m.size

theorem getLogfileName_ok {m : Mode} (h : SizeFits m.size) :
    getLogfileName opts m.isVar m.size m.fixBoundary = .ok (logName opts m) := by
  unfold getLogfileName
  rw [getMode_eq, if_pos h]
  rfl

theorem getDatafileName_ok {m : Mode} (h : SizeFits m.size) :
    getDatafileName opts m.isVar m.size m.fixBoundary = .ok (dataName opts m) := by
  unfold getDatafileName
  rw [getMode_eq, if_pos h]
  rfl

/-- It is the name that the traversal gives its records. -/
theorem logName_eq (opts : Options) (m : Mode) :
    logName opts m = opts.getLogfileName m.isVar m.size m.fixBoundary := by
  unfold logName modeName Options.getLogfileName
  rw [← String.append_assoc]

/-- No log is called as the file log is. -/
theorem logName_ne_file (opts : Options) (m : Mode) : logName opts m ≠ "file" := by
  intro h
  have hdot : '.' ∈ (logName opts m).toList := by
    unfold logName
    rw [String.toList_append, String.toList_append, List.mem_append, List.mem_append]
    refine .inl (.inr ?_)
    rcases m.fixBoundary with - | -
    · decide
    · decide
  rw [h] at hdot
  exact absurd hdot (by decide)

/-- Names are different if those of the three scanners are. -/
theorem modes_nodup (opts : Options) {name : Mode → String} (base : String) (suffixes : List String)
    (hmap : [⟨false, 2048, false, 0⟩, ⟨true, 4, false, 0⟩, ⟨true, 4, true, 0x1 <<< 21⟩].map name =
      suffixes.map (base ++ ·)) (hnodup : suffixes.Nodup) : ((modes opts).map name).Nodup := by
  unfold modes
  split
  · rw [hmap]
    exact hnodup.map fun s t h => (String.append_right_inj _).1 h
  · exact List.nodup_singleton _

/-- The scanners of a file have different names. -/
theorem logNames_nodup (opts : Options) : ((modes opts).map (logName opts)).Nodup := by
  refine modes_nodup opts opts.logname [".f2048", ".v4", ".bv4"] ?_ (by decide)
  simp only [List.map_cons, List.map_nil, logName, String.append_assoc]
  rfl

theorem dataNames_nodup (opts : Options) : ((modes opts).map (dataName opts)).Nodup := by
  refine modes_nodup opts opts.dataname [".data.f2048", ".data.v4", ".data.bv4"] ?_ (by decide)
  simp only [List.map_cons, List.map_nil, dataName, String.append_assoc]
  rfl

/-! ## Opening -/

/-- **The loop opens what opens within `nretry + 1` attempts**, and sleeps twice as long
before each. -/
theorem openLoop_spec (opens : ℕ → Bool) (attempt nretry waitsec : ℕ) :
    ((openLoop opens attempt nretry waitsec).1 = true ↔
      ∃ i ≤ nretry, opens (attempt + i) = true) ∧
    (openLoop opens attempt nretry waitsec).2.sum ≤ waitsec * (2 ^ nretry - 1) := by
  induction nretry generalizing attempt waitsec with
  | zero =>
    unfold openLoop
    rcases h : opens attempt with - | -
    · simp [h]
    · simp only [if_true, true_iff]
      exact ⟨⟨0, le_rfl, h⟩, Nat.zero_le _⟩
  | succ nretry ih =>
    obtain ⟨hopen, hwait⟩ := ih (attempt + 1) (2 * waitsec)
    unfold openLoop
    rcases h : opens attempt with - | -
    · simp only [Bool.false_eq_true, if_false, hopen]
      refine ⟨⟨?_, ?_⟩, ?_⟩
      · rintro ⟨i, hi, hopens⟩
        exact ⟨i + 1, by omega, by rwa [← Nat.add_assoc, Nat.add_right_comm]⟩
      · rintro ⟨i, hi, hopens⟩
        rcases i with - | i
        · rw [Nat.add_zero, h] at hopens
          cases hopens
        · exact ⟨i, by omega, by rwa [Nat.add_right_comm, Nat.add_assoc]⟩
      · rw [List.sum_cons]
        have hpos : 1 ≤ 2 ^ nretry := Nat.one_le_two_pow
        have hsum : waitsec + 2 * waitsec * (2 ^ nretry - 1) = waitsec * (2 ^ (nretry + 1) - 1) := by
          obtain ⟨m, hm⟩ : ∃ m, 2 ^ nretry = m + 1 := ⟨2 ^ nretry - 1, by omega⟩
          have hm' : 2 ^ (nretry + 1) - 1 = 2 * m + 1 := by
            rw [pow_succ]
            omega
          rw [hm', hm, Nat.add_sub_cancel]
          ring
        omega
    · simp only [if_true, true_iff]
      exact ⟨⟨0, Nat.zero_le _, h⟩, Nat.zero_le _⟩

theorem opened_iff (opens : ℕ → Bool) : opened opens = true ↔ ∃ i ≤ 6, opens i = true := by
  have h := (openLoop_spec opens 0 maxRetry 1).1
  simp only [Nat.zero_add] at h
  exact h

mutual

/-- What `scan` finds of it. -/
def Node.found : Node → Entry
  | .file opens content readable => if opened opens then .file content readable else .other
  | .dir opens nodes => if opened opens then .dir nodes.found else .other
  | .other => .other

def Nodes.found : Nodes → Entries
  | .nil => .nil
  | .cons name node rest => .cons name node.found rest.found

end

section Scan

variable (opts sha1 mem cksum)

/-- `scan` on a file that was found. -/
def visit (st : State) (f : FoundFile) : Except Abort State :=
  scanFile opts sha1 mem cksum st f.path f.content f.readable

mutual

/-- **The traversal** scans the files that open, one after another. -/
theorem scanNode_eq_foldlM : ∀ (node : Node) (st : State) (path : String),
    scanNode opts sha1 mem cksum st path node =
      (node.found.files path).foldlM (visit sha1 opts mem cksum) st
  | .file opens content readable, st, path => by
    unfold scanNode Node.found
    split
    · rw [Entry.files, List.foldlM_cons]
      exact (bind_pure _).symm
    · rw [Entry.files]
      rfl
  | .dir opens nodes, st, path => by
    unfold scanNode Node.found
    split
    · rw [Entry.files, scanNodes_eq_foldlM nodes]
    · rw [Entry.files]
      rfl
  | .other, st, path => by
    unfold scanNode Node.found
    rw [Entry.files]
    rfl

theorem scanNodes_eq_foldlM : ∀ (nodes : Nodes) (st : State) (path : String),
    scanNodes opts sha1 mem cksum st path nodes =
      (nodes.found.files path).foldlM (visit sha1 opts mem cksum) st
  | .nil, st, path => by
    unfold scanNodes Nodes.found
    rw [Entries.files]
    rfl
  | .cons name node rest, st, path => by
    unfold scanNodes Nodes.found
    rw [Entries.files]
    split
    · rfl
    · rw [List.foldlM_append, scanNode_eq_foldlM node]
      refine bind_congr fun st' => ?_
      exact scanNodes_eq_foldlM rest st' path

end

end Scan

/-! ## What is written -/

theorem OutStream.write_nil (os : OutStream) : os.write [] = os := by
  unfold OutStream.write
  split
  · rw [List.append_nil]
  · rfl

theorem OutStream.write_write (os : OutStream) (a b : List UInt8) :
    (os.write a).write b = os.write (a ++ b) := by
  obtain ⟨isOpen, written⟩ := os
  rcases isOpen with - | -
  · rfl
  · unfold OutStream.write
    simp only [if_true, List.append_assoc]

theorem OutStream.isOpen_write (os : OutStream) (a : List UInt8) :
    (os.write a).isOpen = os.isOpen := by
  unfold OutStream.write
  split
  · rfl
  · rfl

/-- The state after each stream is given its bytes, `log n` to the one in `stream_map` of
the name `n`, and `data n` to the one in `stream_mapdata`. -/
def State.give (st : State) (log data : String → List UInt8) : State :=
  { st with
    streamMap := fun n => (st.streamMap n).map fun os => os.write (log n)
    streamMapdata := fun n => (st.streamMapdata n).map fun os => os.write (data n) }

theorem State.give_nil (st : State) : st.give (fun _ => []) (fun _ => []) = st := by
  unfold State.give
  simp only [OutStream.write_nil, Option.map_id']

theorem State.give_give (st : State) (l l' d d' : String → List UInt8) :
    (st.give l d).give l' d' = st.give (fun n => l n ++ l' n) (fun n => d n ++ d' n) := by
  unfold State.give
  simp only [Option.map_map, Function.comp_def, OutStream.write_write]

/-- One stream is given some bytes. -/
theorem update_write (map : String → Option OutStream) {name : String} {os : OutStream}
    (h : map name = some os) (bytes : List UInt8) :
    Function.update map name (some (os.write bytes)) =
      fun n => (map n).map fun os => os.write (if n = name then bytes else []) := by
  funext n
  by_cases hn : n = name
  · subst hn
    rw [Function.update_self, h, if_pos rfl]
    rfl
  · rw [Function.update_of_ne hn, if_neg hn]
    simp only [OutStream.write_nil, Option.map_id']

theorem State.writeLog_ok {name : String} (h : (st.streamMap name).isSome) (bytes : List UInt8) :
    st.writeLog name bytes =
      .ok (st.give (fun n => if n = name then bytes else []) fun _ => []) := by
  obtain ⟨os, hos⟩ := Option.isSome_iff_exists.1 h
  unfold State.writeLog State.give
  rw [hos]
  simp only [update_write st.streamMap hos, OutStream.write_nil, Option.map_id']

theorem State.writeData_eq (st : State) (name : String) (bytes : List UInt8) :
    st.writeData name bytes =
      st.give (fun _ => []) fun n => if n = name then bytes else [] := by
  unfold State.writeData State.give
  rcases h : st.streamMapdata name with - | os
  · -- there is no such stream
    have hsame : (fun n => (st.streamMapdata n).map fun os =>
        os.write (if n = name then bytes else [])) = st.streamMapdata := by
      funext n
      by_cases hn : n = name
      · rw [hn, h]
        rfl
      · rw [if_neg hn]
        simp only [OutStream.write_nil, Option.map_id']
    simp only [hsame, OutStream.write_nil, Option.map_id']
  · simp only [update_write st.streamMapdata h, OutStream.write_nil, Option.map_id']

/-- What a scanner writes to its log and to its data stream. -/
def ScannerOf.logBytes (s : ScannerOf) : List UInt8 := s.scanner.ofs.flatMap Block.save

def ScannerOf.dataBytes (s : ScannerOf) : List UInt8 := s.scanner.ofsdata.getD []

/-- What scanners write to the log, and to the data stream, of a name. -/
def logOf (ss : List ScannerOf) (n : String) : List UInt8 :=
  ss.flatMap fun s => if n = s.log then s.logBytes else []

def dataOf (ss : List ScannerOf) (n : String) : List UInt8 :=
  ss.flatMap fun s => if n = s.data then s.dataBytes else []

theorem State.writeScanner_ok {s : ScannerOf} (h : (st.streamMap s.log).isSome) :
    st.writeScanner s = .ok (st.give (logOf [s]) (dataOf [s])) := by
  unfold State.writeScanner
  rw [State.writeLog_ok h]
  simp only [bind, Except.bind, pure, Except.pure, State.writeData_eq, State.give_give,
    List.append_nil, List.nil_append]
  unfold logOf dataOf ScannerOf.logBytes ScannerOf.dataBytes
  simp only [List.flatMap_singleton]

/-- **The scanners write to their streams**, if these are there. -/
theorem foldlM_writeScanner (ss : List ScannerOf) : ∀ st : State,
    (∀ s ∈ ss, (st.streamMap s.log).isSome) →
      ss.foldlM State.writeScanner st = .ok (st.give (logOf ss) (dataOf ss)) := by
  induction ss with
  | nil =>
    intro st _
    exact congrArg Except.ok st.give_nil.symm
  | cons s ss ih =>
    intro st h
    rw [List.foldlM_cons, State.writeScanner_ok (h s (.head _))]
    change ss.foldlM State.writeScanner (st.give (logOf [s]) (dataOf [s])) = _
    rw [ih]
    · rw [State.give_give]
      unfold logOf dataOf
      simp only [List.flatMap_cons, List.flatMap_nil, List.append_nil]
    · intro s' hs'
      have := h s' (.tail _ hs')
      simpa [State.give] using this

/-- What `save_file` leaves, if there is a file log: where it is not open, the id stays. -/
theorem State.saveFile_ok {os : OutStream} (h : st.streamMap "file" = some os) (name : String)
    (size : ℕ) (cksum : Checksum) :
    st.saveFile name size cksum =
      .ok (State.give
        { st with
          totalFiles := st.totalFiles + 1
          totalSize := st.totalSize + size
          fileId := if os.isOpen then st.fileId + 1 else st.fileId }
        (fun n => if n = "file" then
          fileRecordBytes ⟨st.fileId + 1, UInt64.ofNat size, cksum, name⟩ else [])
        fun _ => []) := by
  unfold State.saveFile
  simp only [h]
  rcases hopen : os.isOpen with - | -
  · -- nothing is written to a stream that is not open
    have hsame : (fun n => (st.streamMap n).map fun os => os.write (if n = "file" then
        fileRecordBytes ⟨st.fileId + 1, UInt64.ofNat size, cksum, name⟩ else [])) =
          st.streamMap := by
      funext n
      by_cases hn : n = "file"
      · rw [hn, h, if_pos rfl, Option.map_some]
        unfold OutStream.write
        rw [hopen, if_neg Bool.false_ne_true]
      · rw [if_neg hn]
        simp only [OutStream.write_nil, Option.map_id']
    unfold State.give
    simp only [Bool.not_false, if_true, hsame, OutStream.write_nil, Option.map_id',
      Bool.false_eq_true, if_false]
  · simp only [Bool.not_true, Bool.false_eq_true, if_false, if_true]
    exact State.writeLog_ok (by simp only [h, Option.isSome_some]) _

end DedupMain

end DedupSim
