import DedupSim.Proof.FileIds
import DedupSim.Proof.Segment
import DedupSim.Spec.Main

/-!
# A scan in shards

The runs of `dedup_main` with the options `-k` and `-n`.

* `atoi_toString`: the numbers that these options can be given, those of an `int`.
* `Entry.regular`, `Entry.Named`: the regular files of a tree, and the names that a
  directory lists.
* `nodup_paths`: in such a tree a path is the path of one file.
* `mem_shards`, `disjoint_shards`: a list is parted into its shards.
* `shards_partition`: **the runs with `-k i*N -n N` part the files that are large enough**, as
  long as both are an `int`.
-/

namespace DedupSim

variable {sha1 : List UInt8 → Checksum} {opts : Options} {mem : ℕ → Uninit} {cksum : Checksum}
  {st : DriverState} {f : FoundFile}

/-! ## Numbers of the command line -/

namespace DedupMain

/-- A digit is no blank and no sign. -/
theorem digit_ne {c : Char} (h : c.isDigit = true) : isspace c = false ∧ c ≠ '-' ∧ c ≠ '+' := by
  have hnat := (Char.isDigit_iff_toNat.1 h).1
  refine ⟨?_, ?_, ?_⟩
  · unfold isspace
    rw [Bool.or_eq_false_iff, Bool.and_eq_false_iff, decide_eq_false_iff_not, decide_eq_false_iff_not,
      decide_eq_false_iff_not]
    refine ⟨?_, .inr ?_⟩
    · rintro rfl
      exact absurd hnat (by decide)
    · intro hle
      exact absurd (hnat.trans (UInt32.le_iff_toNat_le.1 hle)) (by decide)
  · rintro rfl
    exact absurd hnat (by decide)
  · rintro rfl
    exact absurd hnat (by decide)

/-- Digits are added up without a sign. -/
theorem foldl_digits (cs : List Char) : ∀ m : ℕ, (∀ c ∈ cs, c.isDigit = true) →
    cs.foldl (fun n c => 10 * n + ((c.toNat : ℤ) - '0'.toNat)) m = Nat.ofDigitChars 10 cs m := by
  induction cs with
  | nil => exact fun m _ => congrArg Nat.cast Nat.ofDigitChars_nil.symm
  | cons c cs ih =>
    intro m h
    have hc := (Char.isDigit_iff_toNat.1 (h c (.head _))).1
    rw [List.foldl_cons, Nat.ofDigitChars_cons, ← ih _ fun c' hc' => h c' (.tail _ hc'),
      Nat.cast_add, Nat.cast_mul, Nat.cast_sub hc]
    rfl

/-- **A number that is an `int` is read back.** -/
theorem atoi_toString {n : ℕ} (h : n < 2 ^ 31) : atoi (toString n) = n := by
  have hdigits : ∀ c ∈ Nat.toDigits 10 n, c.isDigit = true := fun c hc =>
    Nat.isDigit_of_mem_toDigits (by decide) (by decide) hc
  have hnumber : ((Nat.toDigits 10 n).takeWhile Char.isDigit).foldl
      (fun n c => 10 * n + ((c.toNat : ℤ) - '0'.toNat)) 0 = n := by
    rw [← List.append_nil (Nat.toDigits 10 n), List.takeWhile_append_of_pos hdigits,
      List.takeWhile_nil, List.append_nil]
    refine (foldl_digits _ 0 hdigits).trans ?_
    rw [Nat.ofDigitChars_ten_toDigits]
  have hint : (BitVec.ofInt 32 (max (-2 ^ 63) (min (2 ^ 63 - 1) (n : ℤ)))).toInt = n := by
    rw [min_eq_right (by omega), max_eq_right (by omega), BitVec.toInt_ofInt]
    exact Int.bmod_eq_of_le (by omega) (by omega)
  unfold atoi
  rw [show (toString n).toList = Nat.toDigits 10 n from Nat.toList_repr]
  -- the first character is a digit
  rcases hlist : Nat.toDigits 10 n with - | ⟨c, cs⟩
  · exact absurd hlist Nat.toDigits_ne_nil
  obtain ⟨hspace, hminus, hplus⟩ := digit_ne (hdigits c (hlist ▸ .head _))
  rw [hlist] at hnumber
  rw [List.dropWhile_cons_of_neg (by rw [hspace]; exact Bool.false_ne_true)]
  simp only
  split
  · rename_i heq
    exact absurd (List.cons.inj heq).1 hminus
  · rename_i heq
    exact absurd (List.cons.inj heq).1 hplus
  · rw [hnumber]
    exact hint
end DedupMain

/-! ## Shards of a list -/

section Shard

variable {α : Type*} {l : List α} {N i j : ℕ} {x : α}

/-- The `i`-th shard of `N` elements. -/
def shard (N i : ℕ) (l : List α) : List α := (l.drop (i * N)).take N

theorem mem_shard : x ∈ shard N i l ↔ ∃ k < N, l[i * N + k]? = some x := by
  unfold shard
  rw [List.mem_iff_getElem?]
  constructor
  · rintro ⟨k, hk⟩
    have hlt : k < N := by
      by_contra hge
      rw [List.getElem?_eq_none] at hk
      · cases hk
      · rw [List.length_take]
        omega
    rw [List.getElem?_take_of_lt hlt, List.getElem?_drop] at hk
    exact ⟨k, hlt, hk⟩
  · rintro ⟨k, hlt, hk⟩
    refine ⟨k, ?_⟩
    rw [List.getElem?_take_of_lt hlt, List.getElem?_drop]
    exact hk

/-- Every element is in a shard that begins within the list. -/
theorem mem_shards (hN : 0 < N) : x ∈ l ↔ ∃ i, i * N < l.length ∧ x ∈ shard N i l := by
  constructor
  · intro hx
    obtain ⟨m, hm⟩ := List.mem_iff_getElem?.1 hx
    have hlt : m < l.length := (List.getElem?_eq_some_iff.1 hm).1
    refine ⟨m / N, (Nat.div_mul_le_self m N).trans_lt hlt,
      mem_shard.2 ⟨m % N, Nat.mod_lt _ hN, ?_⟩⟩
    rwa [Nat.mul_comm, Nat.div_add_mod]
  · rintro ⟨i, -, hi⟩
    obtain ⟨k, -, hk⟩ := mem_shard.1 hi
    exact List.mem_of_getElem? hk

/-- **Different shards have no element in common.** -/
theorem disjoint_shards (hnodup : l.Nodup) (hij : i ≠ j) :
    List.Disjoint (shard N i l) (shard N j l) := by
  intro x hi hj
  obtain ⟨k, hk, hx⟩ := mem_shard.1 hi
  obtain ⟨m, hm, hy⟩ := mem_shard.1 hj
  have hlt : i * N + k < l.length := (List.getElem?_eq_some_iff.1 hx).1
  have heq : i * N + k = j * N + m := (List.getElem?_inj hlt hnodup).1 (hx.trans hy.symm)
  apply hij
  -- the quotients of one position
  have hdiv : ∀ a b, b < N → (a * N + b) / N = a := by
    intro a b hb
    rw [Nat.mul_comm, Nat.mul_add_div (by omega), Nat.div_eq_of_lt hb, Nat.add_zero]
  rw [← hdiv i k hk, ← hdiv j m hm, heq]

end Shard

/-! ## The regular files of a tree -/

mutual

/-- All regular files at `path` and below. -/
def Entry.regular (path : String) : Entry → List FoundFile
  | .file content readable => [⟨path, content, readable⟩]
  | .dir entries => entries.regular path
  | .other => []

def Entries.regular (path : String) : Entries → List FoundFile
  | .nil => []
  | .cons name entry rest => entry.regular (path ++ "/" ++ name) ++ rest.regular path

end

/-- The names of a directory. -/
def Entries.names : Entries → List String
  | .nil => []
  | .cons name _ rest => name :: rest.names

mutual

/-- The names in a directory are not empty, have no slash, and are different. -/
def Entry.Named : Entry → Prop
  | .file _ _ => True
  | .dir entries => entries.Named
  | .other => True

def Entries.Named : Entries → Prop
  | .nil => True
  | .cons name entry rest =>
    name ≠ "" ∧ '/' ∉ name.toList ∧ name ∉ rest.names ∧ entry.Named ∧ rest.Named

end

mutual

/-- The traversal finds all of them. -/
theorem files_eq_regular : ∀ (entry : Entry) (path : String), entry.Named →
    entry.files path = entry.regular path
  | .file content readable, path, _ => by rw [Entry.files, Entry.regular]
  | .dir entries, path, h => by
    unfold Entry.Named at h
    unfold Entry.files
    rw [Entry.regular, entries_files_eq_regular entries path h]
  | .other, path, _ => by rw [Entry.files, Entry.regular]

theorem entries_files_eq_regular : ∀ (entries : Entries) (path : String), entries.Named →
    entries.files path = entries.regular path
  | .nil, path, _ => by rw [Entries.files, Entries.regular]
  | .cons name entry rest, path, h => by
    unfold Entries.Named at h
    obtain ⟨hname, -, -, hentry, hrest⟩ := h
    rw [Entries.files, Entries.regular, if_neg hname, files_eq_regular entry _ hentry,
      entries_files_eq_regular rest path hrest]

end

/-! ## Paths -/

/-- What follows the name of an entry in a path: nothing, or a slash and more. -/
def IsTail (s : List Char) : Prop := s = [] ∨ ∃ s', s = '/' :: s'

/-- A name ends where its path's tail begins. -/
theorem name_unique {a b s t : List Char} (ha : '/' ∉ a) (hb : '/' ∉ b) (hs : IsTail s)
    (ht : IsTail t) (h : a ++ s = b ++ t) : a = b := by
  have htake : ∀ {a s : List Char}, '/' ∉ a → IsTail s →
      (a ++ s).takeWhile (fun c => decide (c ≠ '/')) = a := by
    intro a s ha hs
    have hall : ∀ c ∈ a, decide (c ≠ '/') = true := by
      intro c hc
      apply decide_eq_true
      rintro rfl
      exact ha hc
    rw [List.takeWhile_append_of_pos hall]
    rcases hs with rfl | ⟨s', rfl⟩
    · exact List.append_nil a
    · rw [List.takeWhile_cons_of_neg (by decide), List.append_nil]
  rw [← htake ha hs, h, htake hb ht]

mutual

theorem path_of_mem : ∀ (entry : Entry) (path : String), ∀ f ∈ entry.regular path,
    ∃ s, IsTail s ∧ f.path.toList = path.toList ++ s
  | .file content readable, path, f, hf => by
    unfold Entry.regular at hf
    rw [List.mem_singleton] at hf
    subst hf
    exact ⟨[], .inl rfl, (List.append_nil _).symm⟩
  | .dir entries, path, f, hf => by
    unfold Entry.regular at hf
    obtain ⟨name, -, s, hs, hpath⟩ := path_of_mem_entries entries path f hf
    exact ⟨_, .inr ⟨_, rfl⟩, hpath⟩
  | .other, path, f, hf => by
    unfold Entry.regular at hf
    cases hf

theorem path_of_mem_entries : ∀ (entries : Entries) (path : String), ∀ f ∈ entries.regular path,
    ∃ name ∈ entries.names, ∃ s, IsTail s ∧
      f.path.toList = path.toList ++ '/' :: (name.toList ++ s)
  | .nil, path, f, hf => by
    unfold Entries.regular at hf
    cases hf
  | .cons name entry rest, path, f, hf => by
    unfold Entries.regular at hf
    rw [List.mem_append] at hf
    unfold Entries.names
    rcases hf with hf | hf
    · obtain ⟨s, hs, hpath⟩ := path_of_mem entry _ f hf
      refine ⟨name, .head _, s, hs, ?_⟩
      rw [hpath, String.toList_append, String.toList_append, List.append_assoc, List.append_assoc]
      rfl
    · obtain ⟨name', hname', h⟩ := path_of_mem_entries rest path f hf
      exact ⟨name', .tail _ hname', h⟩

end

theorem no_slash_of_mem {name : String} : ∀ entries : Entries, entries.Named →
    name ∈ entries.names → '/' ∉ name.toList
  | .nil, _, hmem => by cases hmem
  | .cons name' entry rest, h, hmem => by
    unfold Entries.Named at h
    obtain ⟨-, hslash, -, -, hrest⟩ := h
    unfold Entries.names at hmem
    rcases List.mem_cons.1 hmem with rfl | hmem
    · exact hslash
    · exact no_slash_of_mem rest hrest hmem

mutual

/-- **A path is the path of one file.** -/
theorem nodup_paths : ∀ (entry : Entry) (path : String), entry.Named →
    ((entry.regular path).map FoundFile.path).Nodup
  | .file content readable, path, _ => by
    unfold Entry.regular
    exact List.nodup_singleton _
  | .dir entries, path, h => by
    unfold Entry.Named at h
    unfold Entry.regular
    exact nodup_paths_entries entries path h
  | .other, path, _ => by
    unfold Entry.regular
    exact List.nodup_nil

theorem nodup_paths_entries : ∀ (entries : Entries) (path : String), entries.Named →
    ((entries.regular path).map FoundFile.path).Nodup
  | .nil, path, _ => by
    unfold Entries.regular
    exact List.nodup_nil
  | .cons name entry rest, path, h => by
    unfold Entries.Named at h
    obtain ⟨-, hslash, hnew, hentry, hrest⟩ := h
    unfold Entries.regular
    rw [List.map_append, List.nodup_append]
    refine ⟨nodup_paths entry _ hentry, nodup_paths_entries rest path hrest, ?_⟩
    intro p hp q hq heq
    obtain ⟨f, hf, rfl⟩ := List.mem_map.1 hp
    obtain ⟨g, hg, rfl⟩ := List.mem_map.1 hq
    obtain ⟨s, hs, hfpath⟩ := path_of_mem entry _ f hf
    obtain ⟨name', hname', t, ht, hgpath⟩ := path_of_mem_entries rest path g hg
    -- behind the slash there are two different names
    have hslash' := no_slash_of_mem rest hrest hname'
    rw [String.toList_append, String.toList_append, List.append_assoc, List.append_assoc] at hfpath
    rw [heq, hgpath] at hfpath
    have htails := (List.cons.inj (List.append_cancel_left hfpath)).2
    have hnames := name_unique hslash hslash' hs ht htails.symm
    rw [String.toList_inj] at hnames
    exact hnew (hnames ▸ hname')

end

/-! ## The file log -/

/-- The file log: the path and the size of each record. -/
def DriverState.fileLog (st : DriverState) : List (String × UInt64) :=
  st.visits.map fun v => (v.record.name, v.record.size)

/-- What the file log has of a file. -/
def FoundFile.logged (f : FoundFile) : String × UInt64 := (f.path, UInt64.ofNat f.content.length)

/-- A file that is not skipped is counted and logged. -/
theorem visitFile_logged (sha1 : List UInt8 → Checksum) (mem : ℕ → Uninit) (cksum : Checksum)
    (h : ¬ st.Skips opts f) :
    (visitFile sha1 opts mem cksum st f).fileLog = st.fileLog ++ [f.logged] ∧
      (visitFile sha1 opts mem cksum st f).totalSize = st.totalSize + f.content.length ∧
      (visitFile sha1 opts mem cksum st f).totalFiles = st.totalFiles + 1 ∧
      (visitFile sha1 opts mem cksum st f).scanSkip = st.scanSkip - 1 := by
  obtain ⟨h1, h2, h3⟩ := DriverState.not_skips h
  unfold visitFile scanFile DriverState.fileLog
  simp only [not_lt.2 h1, not_lt.2 h2, if_false, h3]
  split
  · exact ⟨List.map_append, rfl, rfl, rfl⟩
  · exact ⟨List.map_append, rfl, rfl, rfl⟩

/-- One that is skipped is not. -/
theorem visitFile_skipped (h : st.Skips opts f) :
    (visitFile sha1 opts mem cksum st f).totalSize = st.totalSize := by
  unfold visitFile scanFile
  by_cases h1 : f.content.length < opts.minSize
  · rw [if_pos h1]
  simp only [h1, if_false]
  by_cases h2 : 0 < st.scanSkip
  · rw [if_pos h2]
  · rw [if_neg h2, if_pos (h.enough h1 h2)]

/-- **A run logs the files that it does not skip**, and adds up their sizes; each file takes
one from `scan_skip` at most. -/
theorem foldl_logged (sha1 : List UInt8 → Checksum) (opts : Options) (mem : ℕ → Uninit)
    (cksum : Checksum) (files : List FoundFile) : ∀ st : DriverState,
    (files.foldl (visitFile sha1 opts mem cksum) st).fileLog = st.fileLog ++
        (opts.selected st.scanSkip st.totalFiles files).map FoundFile.logged ∧
      (files.foldl (visitFile sha1 opts mem cksum) st).totalSize = st.totalSize +
        ((opts.selected st.scanSkip st.totalFiles files).map fun f => f.content.length).sum ∧
      (files.foldl (visitFile sha1 opts mem cksum) st).totalFiles = st.totalFiles +
        (opts.selected st.scanSkip st.totalFiles files).length ∧
      st.scanSkip - files.length ≤ (files.foldl (visitFile sha1 opts mem cksum) st).scanSkip := by
  induction files with
  | nil =>
    intro st
    simp [Options.selected]
  | cons f files ih =>
    intro st
    obtain ⟨hlog, hsize, htotal, hskip⟩ := ih (visitFile sha1 opts mem cksum st f)
    rw [List.foldl_cons, List.length_cons]
    by_cases h : st.Skips opts f
    · obtain ⟨hv, ht, hs⟩ := visitFile_skip sha1 mem cksum h
      have hfileLog : (visitFile sha1 opts mem cksum st f).fileLog = st.fileLog := by
        unfold DriverState.fileLog
        rw [hv]
      rw [hfileLog, ht, hs, ← selected_skip h] at hlog
      rw [visitFile_skipped h, ht, hs, ← selected_skip h] at hsize
      rw [ht, hs, ← selected_skip h] at htotal
      refine ⟨hlog, hsize, htotal, le_trans ?_ hskip⟩
      rw [hs]
      split <;> omega
    · obtain ⟨hl, hsz, ht, hs⟩ := visitFile_logged sha1 mem cksum h
      rw [hl, ht, hs, List.append_assoc] at hlog
      rw [hsz, ht, hs] at hsize
      rw [ht, hs] at htotal
      rw [hs] at hskip
      rw [selected_cons h, List.map_cons, List.map_cons, List.sum_cons, List.length_cons]
      refine ⟨hlog, ?_, ?_, ?_⟩
      · rw [hsize]
        omega
      · rw [htotal]
        omega
      · omega

/-! ## The shards -/

/-- The files that are large enough. -/
def Options.eligible (opts : Options) (files : List FoundFile) : List FoundFile :=
  files.filter fun f => opts.minSize ≤ f.content.length

/-- A run of `dedup_main` with the options `-k i*N -n N`: `atoi` reads both, and cuts them to
an `int`. -/
def shardRun (sha1 : List UInt8 → Checksum) (opts : Options) (mem : ℕ → Uninit) (cksum : Checksum)
    (p1 p2 : List UInt8) (path : String) (root : Entry) (N i : ℕ) : DriverState :=
  scan sha1 { opts with scanCount := (UInt64.ofInt (DedupMain.atoi (toString N))).toNat } mem cksum
    (DriverState.start (DedupMain.atoi (toString (i * N))) p1 p2) path root

/-- **One run**: the files that its options select. -/
theorem scan_logged (sha1 : List UInt8 → Checksum) (opts : Options) (mem : ℕ → Uninit)
    (cksum : Checksum) (skip : ℤ) (p1 p2 : List UInt8) (path : String) {root : Entry}
    (hnamed : root.Named) :
    let selected := opts.selected skip 0 (root.regular path)
    let run := scan sha1 opts mem cksum (DriverState.start skip p1 p2) path root
    run.fileLog = selected.map FoundFile.logged ∧
      run.totalSize = (selected.map fun f => f.content.length).sum ∧
      skip - ((root.regular path).length : ℤ) ≤ run.scanSkip := by
  intro selected run
  obtain ⟨hlog, hsize, -, hskip⟩ := foldl_logged sha1 opts mem cksum (root.regular path)
    (DriverState.start skip p1 p2)
  rw [← files_eq_regular root path hnamed, ← scan_eq_foldl] at hlog hsize hskip
  rw [files_eq_regular root path hnamed] at hlog hsize hskip
  exact ⟨hlog, hsize.trans (Nat.zero_add _), hskip⟩

/-- A run with these options selects its shard, if both numbers are an `int`. -/
theorem selected_shard {files : List FoundFile} {N i : ℕ} (hN : 1 ≤ N) (hint : N < 2 ^ 31)
    (hi : i * N < 2 ^ 31) :
    Options.selected { opts with scanCount := (UInt64.ofInt (DedupMain.atoi (toString N))).toNat }
      (DedupMain.atoi (toString (i * N))) 0 files = shard N i (opts.eligible files) := by
  have hcount : (UInt64.ofInt (DedupMain.atoi (toString N))).toNat = N := by
    rw [DedupMain.atoi_toString hint]
    change (UInt64.ofNat (((N : ℤ) % 2 ^ 64).toNat)).toNat = N
    rw [UInt64.toNat_ofNat']
    omega
  rw [hcount, DedupMain.atoi_toString hi]
  unfold Options.selected shard Options.eligible
  simp only [Int.toNat_natCast, Nat.sub_zero]
  exact if_neg (by omega)

/-- The runs `runs` part the files: run `i` logs the `i`-th shard of `N` of them and adds up its
sizes, no path is logged in two runs, and each is logged in one. -/
structure Parted (N : ℕ) (files : List FoundFile) (runs : Set ℕ) (run : ℕ → DriverState) : Prop where
  fileLog : ∀ i ∈ runs, (run i).fileLog = (shard N i files).map FoundFile.logged
  totalSize : ∀ i ∈ runs,
    (run i).totalSize = ((shard N i files).map fun f => f.content.length).sum
  disjoint : ∀ i ∈ runs, ∀ j ∈ runs, i ≠ j →
    List.Disjoint ((run i).fileLog.map Prod.fst) ((run j).fileLog.map Prod.fst)
  all : ∀ p, p ∈ files.map FoundFile.path ↔ ∃ i ∈ runs, p ∈ (run i).fileLog.map Prod.fst

/-- **The runs with `-k i*N -n N` part the files that are large enough**, where both numbers are
an `int`: `atoi` cuts a larger one to another number. The names in a directory are those of a file
system, so no two files have one path, and with fewer than `2 ^ 31` files the `int` that counts
the files to skip does not underflow. -/
theorem shards_partition (sha1 : List UInt8 → Checksum) (opts : Options) (mem : ℕ → ℕ → Uninit)
    (cksum : ℕ → Checksum) (p1 p2 : ℕ → List UInt8) (path : String) (root : Entry) (N : ℕ)
    (hN : 1 ≤ N) (hint : N < 2 ^ 31) (hnamed : root.Named)
    (hcount : (root.regular path).length < 2 ^ 31) :
    let run := fun i => shardRun sha1 opts (mem i) (cksum i) (p1 i) (p2 i) path root N i
    Parted N (opts.eligible (root.regular path)) {i | i * N < 2 ^ 31} run ∧
      ∀ i, i * N < 2 ^ 31 → -2 ^ 31 ≤ (run i).scanSkip := by
  intro run
  set files := opts.eligible (root.regular path) with hfiles
  have hlen : (files.map FoundFile.path).length ≤ (root.regular path).length := by
    rw [List.length_map]
    exact List.length_filter_le _ _
  have hrun : ∀ i, i * N < 2 ^ 31 → (run i).fileLog = (shard N i files).map FoundFile.logged ∧
      (run i).totalSize = ((shard N i files).map fun f => f.content.length).sum ∧
      -2 ^ 31 ≤ (run i).scanSkip := by
    intro i hi
    obtain ⟨hlog, hsize, hskip⟩ := scan_logged sha1 _ (mem i) (cksum i)
      (DedupMain.atoi (toString (i * N))) (p1 i) (p2 i) path hnamed
    rw [selected_shard hN hint hi] at hlog hsize
    refine ⟨hlog, hsize, le_trans ?_ hskip⟩
    rw [DedupMain.atoi_toString hi]
    omega
  have hpaths : ∀ i, i * N < 2 ^ 31 →
      (run i).fileLog.map Prod.fst = shard N i (files.map FoundFile.path) := by
    intro i hi
    obtain ⟨hlog, -⟩ := hrun i hi
    unfold shard at hlog ⊢
    rw [hlog, List.map_map, ← List.map_drop, ← List.map_take]
    rfl
  refine ⟨⟨fun i hi => (hrun i hi).1, fun i hi => (hrun i hi).2.1, ?_, ?_⟩,
    fun i hi => (hrun i hi).2.2⟩
  · intro i hi j hj hij
    rw [hpaths i hi, hpaths j hj]
    apply disjoint_shards _ hij
    exact (nodup_paths root path hnamed).sublist (List.Sublist.map _ List.filter_sublist)
  · intro p
    rw [mem_shards hN]
    constructor
    · rintro ⟨i, hi, hp⟩
      have hi' : i * N < 2 ^ 31 := by omega
      exact ⟨i, hi', (hpaths i hi').symm ▸ hp⟩
    · rintro ⟨i, hi, hp⟩
      rw [hpaths i hi] at hp
      obtain ⟨k, -, hk⟩ := mem_shard.1 hp
      have hlt := (List.getElem?_eq_some_iff.1 hk).1
      exact ⟨i, by omega, hp⟩

/-- Three files that are large enough, the second in a directory with one that is not. -/
def someFiles : Entry :=
  .dir (.cons "a" (.file [7, 7] true) (.cons "b" (.dir (.cons "c" (.file [] true)
    (.cons "d" (.file [8, 8] true) .nil))) (.cons "e" (.file [7, 7] true) .nil)))

/-- The option `-s 1`. -/
def someOptions : Options := { oneByteOptions with minSize := 1 }

theorem someFiles_named : someFiles.Named := by
  simp [someFiles, Entry.Named, Entries.Named, Entries.names]

/-- Two files a run. -/
theorem shards_partition_three :
    let run := fun i => shardRun pairsDigest someOptions default default [] [] "root" someFiles 2 i
    Parted 2 (someOptions.eligible (someFiles.regular "root")) {i | i * 2 < 2 ^ 31} run ∧
      ∀ i, i * 2 < 2 ^ 31 → -2 ^ 31 ≤ (run i).scanSkip :=
  shards_partition pairsDigest someOptions (fun _ => default) (fun _ => default) (fun _ => [])
    (fun _ => []) "root" someFiles 2 (by decide) (by decide) someFiles_named (by decide)

/-- 2^32 + 1 files a run: `-n` is 1, and only one is logged. -/
theorem not_parted_three :
    ¬ Parted 4294967297 (someOptions.eligible (someFiles.regular "root")) Set.univ
      (shardRun pairsDigest someOptions default default [] [] "root" someFiles 4294967297) := by
  intro h
  obtain ⟨hlog, -⟩ := scan_logged pairsDigest
    { someOptions with scanCount := (UInt64.ofInt (DedupMain.atoi (toString 4294967297))).toNat }
    default default (DedupMain.atoi (toString (0 * 4294967297))) [] [] "root" someFiles_named
  have hlen := congrArg List.length (hlog.symm.trans (h.fileLog 0 (Set.mem_univ 0)))
  rw [List.length_map, List.length_map] at hlen
  revert hlen
  decide

end DedupSim
