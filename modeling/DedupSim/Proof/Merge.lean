import DedupSim.Lib.KWayMerge
import DedupSim.Proof.MergeRead
import DedupSim.Proof.MergeTree
import Mathlib.Data.List.Dedup

/-!
# What the merge passes to `count`

* `Ready`: the arrays between two rounds; `S i` are the blocks of file `i` that were not
  passed on.
* `Ready.round`: **one round** passes on a least block. `mergeLoop_merges`: **the loop** is
  a run of the `k`-way merge, and one zero-sized block after it.
* `MergeOld.run_merges`: **the whole of `dedup_merge.cpp.old`.**
* `Merge.main_never`: **`dedup_merge.cpp` leaves its arrays in the first round**, as it
  loads the next block of file `num_files`.
-/

namespace DedupSim

open Tournament KWayMerge

variable {copy : Copy} {k w : ℕ} {S : ℕ → List Block} {st : MergeState} {s : Stream} {b : Block}
  {bs : List Block} {logs : List (List Block)} {f : Stream → Except Fault Stream}

/-- A record of a log: its size is positive, and an `int`. -/
structure Block.Proper (b : Block) : Prop where
  ne_zero : b.size ≠ 0
  lt : b.size.toNat < 2 ^ 31

/-- The key of the block a stream has loaded. -/
theorem Delivers.key (h : Delivers s bs) (hbs : ∀ b ∈ bs, b.Proper) :
    s.bl.size.toNat < 2 ^ 31 ∧
      blockKey s.bl = (bs.head?.map fun b => (b.cksum : WithTop Checksum)).getD ⊤ := by
  rcases bs with - | ⟨b, bs⟩
  · have h0 : s.bl.size = 0 := h
    rw [h0]
    exact ⟨by decide, blockKey_eq_top.2 h0⟩
  · obtain ⟨hcksum, hsize⟩ := Prod.mk.inj h.1
    have hb := hbs b (.head _)
    rw [hsize]
    refine ⟨hb.lt, ?_⟩
    unfold blockKey
    rw [if_neg (hsize ▸ hb.ne_zero), hcksum]
    rfl

/-! ## The loop -/

/-- **Between two rounds**: each stream delivers what is left of its file, and the tree
is decided. -/
structure Ready (k : ℕ) (S : ℕ → List Block) (st : MergeState) : Prop where
  files : st.numFiles = k
  pos : 0 < k
  proper : ∀ i < k, ∀ b ∈ S i, b.Proper
  delivers : ∀ i < k, Delivers (st.files i) (S i)
  tree : ∃ W, Decided k (keys st.bls) st.tree W ∧ st.tree 0 = W 1

theorem Ready.small (h : Ready k S st) : ∀ i < k, (st.bls i).size.toNat < 2 ^ 31 :=
  fun i hi => ((h.delivers i hi).key (h.proper i hi)).1

theorem Ready.champion_lt (h : Ready k S st) : st.tree 0 < k := by
  obtain ⟨W, hdec, h0⟩ := h.tree
  rw [h0]
  exact hdec.lt Nat.one_pos (by have := h.pos; omega)

/-- The champion's block is zero-sized only when nothing is left. -/
theorem Ready.done (h : Ready k S st) (hz : (st.bls (st.tree 0)).size = 0) : ∀ i < k, S i = [] := by
  intro i hi
  obtain ⟨W, hdec, h0⟩ := h.tree
  have hle := hdec.champion_le hi
  rw [← h0, keys, blockKey_eq_top.2 hz, top_le_iff, keys, MergeState.bls,
    ((h.delivers i hi).key (h.proper i hi)).2] at hle
  rcases hS : S i with - | ⟨b, bs⟩
  · rfl
  · rw [hS] at hle
    exact absurd hle (WithTop.coe_ne_top)

/-- Otherwise it is the next block of its file, and least. -/
theorem Ready.least (h : Ready k S st) (hz : (st.bls (st.tree 0)).size ≠ 0) :
    ∃ b rest, S (st.tree 0) = b :: rest ∧ (st.bls (st.tree 0)).content = b.content ∧
      Unread (st.files (st.tree 0)) rest ∧ ∀ j < k, ∀ a ∈ (S j).head?, b.cksum ≤ a.cksum := by
  obtain ⟨W, hdec, h0⟩ := h.tree
  have hw := h.champion_lt
  have hd := h.delivers _ hw
  have hkey := (hd.key (h.proper _ hw)).2
  rcases hS : S (st.tree 0) with - | ⟨b, rest⟩
  · rw [hS] at hd
    exact absurd hd hz
  · rw [hS] at hd hkey
    refine ⟨b, rest, rfl, hd.1, hd.2, ?_⟩
    intro j hj a ha
    have hle := hdec.champion_le hj
    rw [← h0, keys, keys, MergeState.bls, MergeState.bls, hkey,
      ((h.delivers j hj).key (h.proper j hj)).2, Option.mem_def.1 ha] at hle
    exact WithTop.coe_le_coe.1 hle

theorem MergeState.modify_ok {s' : Stream} (hw : w < st.numFiles) (hf : f (st.files w) = .ok s') :
    st.modify w f = .ok { st with files := Function.update st.files w s' } := by
  simp only [MergeState.modify, readAt_ok hw, writeAt_ok hw, hf, bind, Except.bind, pure, Except.pure]

/-- **One round**: the champion's next block is loaded, and the tree adjusted. -/
theorem Ready.round (hc : copy.Copies) (h : Ready k S st) {rest : List Block}
    (hS : S (st.tree 0) = b :: rest) (hu : Unread (st.files (st.tree 0)) rest) :
    ∃ st' tree', st.modify (st.tree 0) (Stream.loadBlockWith copy) = .ok st' ∧
      st'.numFiles = k ∧ st'.tree = st.tree ∧
      adjustTree anyInt k st'.bls st.tree (st.tree 0) = .ok tree' ∧
      Ready k (Function.update S (st.tree 0) rest) { st' with tree := tree' } := by
  obtain ⟨W, hdec, h0⟩ := h.tree
  have hw := h.champion_lt
  obtain ⟨s', hload, hd⟩ := loadBlock_ok hc hu
  have hproper : ∀ i < k, ∀ b ∈ Function.update S (st.tree 0) rest i, b.Proper := by
    intro i hi b' hb'
    by_cases hiw : i = st.tree 0
    · subst hiw
      rw [Function.update_self] at hb'
      exact h.proper _ hw b' (hS ▸ .tail _ hb')
    · rw [Function.update_of_ne hiw] at hb'
      exact h.proper i hi b' hb'
  have hdelivers : ∀ i < k, Delivers (Function.update st.files (st.tree 0) s' i)
      (Function.update S (st.tree 0) rest i) := by
    intro i hi
    by_cases hiw : i = st.tree 0
    · subst hiw
      rw [Function.update_self, Function.update_self]
      exact hd
    · rw [Function.update_of_ne hiw, Function.update_of_ne hiw]
      exact h.delivers i hi
  set st' : MergeState := { st with files := Function.update st.files (st.tree 0) s' }
  obtain ⟨tree', W', hadjust, hdec', h0'⟩ := adjustTree_ok (fun n _ => anyInt_ok n) hdec st'.bls h.pos
    (fun i hi => ((hdelivers i hi).key (hproper i hi)).1) (fun i hi hne => by
      have hne' : i ≠ st.tree 0 := fun e => hne (e.trans h0)
      simp only [MergeState.bls, st', Function.update_of_ne hne'])
  refine ⟨st', tree', MergeState.modify_ok (h.files ▸ hw) hload, h.files, rfl, ?_, ?_⟩
  · rw [h0]
    exact hadjust
  · exact ⟨h.files, h.pos, hproper, hdelivers, W', hdec', h0'⟩

/-- **The loop**, when it loads the next block of the file it took one from. -/
theorem mergeLoop_merges (hc : copy.Copies) :
    ∀ (n : ℕ) (S : ℕ → List Block) (st : MergeState), Ready k S st → (union k S).length = n →
      ∃ recs z out, Merges Block.cksum k S out ∧ recs.map Block.content = out.map Block.content ∧
        z.size = 0 ∧ ∀ (γ : Type) (count : γ → Block → γ) (c : γ) (fuel : ℕ), n < fuel →
          mergeLoop copy (fun st => readAt st.numFiles st.tree 0) count fuel st c =
            .ok (some ((recs ++ [z]).foldl count c)) := by
  intro n
  induction n with
  | zero =>
    -- nothing is left: the champion is a zero-sized block, and the loop breaks on it
    intro S st h hn
    have hw := h.champion_lt
    have hnil : ∀ i < k, S i = [] := by
      intro i hi
      rcases hS : S i with - | ⟨b, bs⟩
      · rfl
      · have hmem : b ∈ union k S := mem_union.2 ⟨i, hi, hS ▸ .head _⟩
        rw [List.length_eq_zero_iff.1 hn] at hmem
        cases hmem
    have hz : (st.bls (st.tree 0)).size = 0 := by
      have := h.delivers _ hw
      rwa [hnil _ hw] at this
    refine ⟨[], st.bls (st.tree 0), [], .done hnil, rfl, hz, ?_⟩
    intro γ count c fuel hfuel
    obtain ⟨fuel, rfl⟩ := Nat.exists_eq_add_of_lt hfuel
    rw [Nat.zero_add, mergeLoop, readAt_ok (h.files ▸ h.pos)]
    simp only [bind, Except.bind, readAt_ok (h.files ▸ hw : st.tree 0 < st.numFiles), if_pos hz]
    rfl
  | succ n ih =>
    -- the champion's block is passed on, and its file gets one shorter
    intro S st h hn
    have hw := h.champion_lt
    have hz : (st.bls (st.tree 0)).size ≠ 0 := by
      intro hz
      have hnil : union k S = [] :=
        List.flatMap_eq_nil_iff.2 fun i hi => h.done hz i (List.mem_range.1 hi)
      rw [hnil] at hn
      cases hn
    obtain ⟨b, rest, hS, hcontent, hu, hle⟩ := h.least hz
    obtain ⟨st', tree', hmod, hfiles, htree, hadjust, hready⟩ := h.round hc hS hu
    have hlen := (union_update hw hS).length_eq
    rw [List.length_cons, hn] at hlen
    obtain ⟨recs, z, out, hm, hmap, hz', hrun⟩ := ih _ _ hready (Nat.succ.inj hlen)
    refine ⟨st.bls (st.tree 0) :: recs, z, b :: out, .take hw hS hle hm, ?_, hz', ?_⟩
    · rw [List.map_cons, List.map_cons, hcontent, hmap]
    · intro γ count c fuel hfuel
      obtain ⟨fuel, rfl⟩ := Nat.exists_eq_add_of_lt hfuel
      unfold mergeLoop
      rw [readAt_ok (h.files ▸ h.pos)]
      simp only [bind, Except.bind, readAt_ok (h.files ▸ hw : st.tree 0 < st.numFiles), if_neg hz, hmod,
        hfiles, htree, readAt_ok h.pos, hadjust]
      have hnext := hrun γ count (count c (st.bls (st.tree 0))) (n + 1 + fuel) (by omega)
      rw [hfiles] at hnext
      exact hnext

/-! ## The start -/

/-- The blocks of each file. -/
def logOf (logs : List (List Block)) (i : ℕ) : List Block := logs[i]?.getD []

/-- The contents of the files. -/
def contentsOf (logs : List (List Block)) : List (List UInt8) :=
  logs.map fun log => log.flatMap Block.toStream

theorem union_logOf (logs : List (List Block)) : union logs.length (logOf logs) = logs.flatten := by
  unfold union
  induction logs with
  | nil => rfl
  | cons log logs ih =>
    rw [List.length_cons, List.range_succ_eq_map, List.flatMap_cons, List.flatMap_map,
      List.flatten_cons, ← ih]
    rfl

theorem logOf_mem {i : ℕ} (hi : i < logs.length) : logOf logs i ∈ logs := by
  unfold logOf
  rw [List.getElem?_eq_getElem hi]
  exact List.getElem_mem hi

/-- The loop that loads the first blocks, for the first `n` files. -/
theorem loadFirsts_until (hc : copy.Copies) (S : ℕ → List Block) (st : MergeState) (n : ℕ)
    (hn : n ≤ st.numFiles)
    (his : ∀ i < n, (st.files i).is = (S i).flatMap Block.toStream) :
    ∃ st', (List.range n).foldlM (fun st i => st.modify i (Stream.loadFirst copy)) st = .ok st' ∧
      st'.numFiles = st.numFiles ∧ st'.tree = st.tree ∧ (∀ i < n, Delivers (st'.files i) (S i)) ∧
      ∀ i, n ≤ i → st'.files i = st.files i := by
  induction n with
  | zero => exact ⟨st, rfl, rfl, rfl, fun i hi => by omega, fun _ _ => rfl⟩
  | succ n ih =>
    obtain ⟨st1, hok, hfiles, htree, hd, hrest⟩ := ih (by omega) fun i hi => his i (by omega)
    obtain ⟨s', hload, hs'⟩ := loadFirst_ok (s := st1.files n) hc (by
      rw [hrest n le_rfl]
      exact his n (by omega))
    refine ⟨{ st1 with files := Function.update st1.files n s' }, ?_, hfiles, htree, ?_, ?_⟩
    · -- the file after the first `n` is read for the first time
      rw [List.range_succ, List.foldlM_append, hok]
      simp only [bind, Except.bind, List.foldlM_cons, List.foldlM_nil,
        MergeState.modify_ok (show n < st1.numFiles by omega) hload]
      rfl
    · intro i hi
      by_cases hin : i = n
      · subst hin
        simp only [Function.update_self]
        exact hs'
      · simp only [Function.update_of_ne hin]
        exact hd i (by omega)
    · intro i hi
      simp only [Function.update_of_ne (show i ≠ n by omega)]
      exact hrest i (by omega)

/-- **The state in which the loop starts.** -/
theorem start_ready (hc : copy.Copies) (one : Bool) (mem : ℕ → Stream) (tree : ℕ → ℕ)
    (h0 : logs ≠ []) (hone : one = true ∨ 2 ≤ logs.length)
    (hproper : ∀ log ∈ logs, ∀ b ∈ log, b.Proper) :
    ∃ st st', (MergeState.opened mem tree (contentsOf logs)).loadFirsts copy = .ok st ∧
      st.numFiles = logs.length ∧ st.initTree one = .ok st' ∧ Ready logs.length (logOf logs) st' := by
  have hpos := List.length_pos_iff.2 h0
  have hnum : (MergeState.opened mem tree (contentsOf logs)).numFiles = logs.length := List.length_map _
  obtain ⟨st, hok, hfiles, -, hd, -⟩ := loadFirsts_until hc (logOf logs)
    (MergeState.opened mem tree (contentsOf logs)) _ le_rfl (fun i _ => by
      simp only [MergeState.opened, contentsOf, logOf, List.getElem?_map]
      rcases logs[i]? with - | log <;> rfl)
  rw [hnum] at hfiles hd
  have hp : ∀ i < logs.length, ∀ b ∈ logOf logs i, b.Proper := fun i hi => hproper _ (logOf_mem hi)
  obtain ⟨tree', W, w, hinit, hdec, h0'⟩ := initTree_ok (fun n _ => anyInt_ok n) st.bls
    (fun i hi => ((hd i hi).key (hp i hi)).1) hpos hone st.tree
  refine ⟨st, { st with tree := tree' }, hok, hfiles, ?_, hfiles, hpos, hp, hd, W, hdec, h0'⟩
  rw [MergeState.initTree, hfiles, hinit]
  rfl

/-! ## `dedup_merge.cpp.old` -/

/-- **The merge loop passes on all records, sorted, and one zero-sized block after them**,
whatever `count` does with them. -/
theorem MergeOld.run_merges (mem : ℕ → Stream) (tree : ℕ → ℕ) (logs : List (List Block))
    (h2 : 2 ≤ logs.length) (hproper : ∀ log ∈ logs, ∀ b ∈ log, b.Proper)
    (hsorted : ∀ log ∈ logs, log.Pairwise fun a b => a.cksum ≤ b.cksum) :
    ∃ recs z, (∀ (γ : Type) (count : γ → Block → γ) (c : γ) (fuel : ℕ), logs.flatten.length < fuel →
          run count mem tree (contentsOf logs) fuel c = .ok (some ((recs ++ [z]).foldl count c))) ∧
      recs.Pairwise (fun a b => a.cksum ≤ b.cksum) ∧
      (recs.map Block.content).Perm (logs.flatten.map Block.content) ∧
      (∀ b ∈ recs, b.size ≠ 0) ∧ z.size = 0 := by
  have h0 : logs ≠ [] := by
    rintro rfl
    exact absurd h2 (by decide)
  obtain ⟨st, st', hload, -, hinit, hready⟩ :=
    start_ready MergeOld.copies false mem tree h0 (.inr h2) hproper
  obtain ⟨recs, z, out, hm, hmap, hz, hrun⟩ := mergeLoop_merges MergeOld.copies _ _ st' hready rfl
  have hperm : (recs.map Block.content).Perm (logs.flatten.map Block.content) := by
    rw [hmap, ← union_logOf]
    exact hm.perm.map _
  refine ⟨recs, z, ?_, ?_, hperm, ?_, hz⟩
  · intro γ count c fuel hfuel
    simp only [run, hload, hinit, bind, Except.bind]
    exact hrun γ count c fuel (by rwa [union_logOf])
  · -- sorting sees the checksums only
    have hsort := hm.sorted fun i hi => hsorted _ (logOf_mem hi)
    have hcksum : recs.map Block.cksum = out.map Block.cksum := by
      have := congrArg (List.map Prod.fst) hmap
      rwa [List.map_map, List.map_map] at this
    rw [← List.pairwise_map, hcksum, List.pairwise_map]
    exact hsort
  · intro b hb h0
    obtain ⟨b', hb', heq⟩ := List.mem_map.1 (hperm.subset (List.mem_map_of_mem hb))
    obtain ⟨log, hlog, hmem⟩ := List.mem_flatten.1 hb'
    exact (hproper log hlog b' hmem).ne_zero ((Prod.mk.inj heq).2.trans h0)

theorem proper_ending (ns : List UInt8) : ∀ b ∈ ns.map blockEnding, b.Proper := by
  intro b hb
  obtain ⟨n, -, rfl⟩ := List.mem_map.1 hb
  exact ⟨show (4096 : UInt32) ≠ 0 by decide, show (4096 : UInt32).toNat < 2 ^ 31 by decide⟩

/-- Two files with a record in common, and an empty one. -/
def threeLogs : List (List Block) := [[1, 2, 4], [], [2, 3]].map (List.map blockEnding)

theorem threeLogs_proper : ∀ log ∈ threeLogs, ∀ b ∈ log, b.Proper := by
  intro log hlog
  obtain ⟨ns, -, rfl⟩ := List.mem_map.1 hlog
  exact proper_ending ns

theorem MergeOld.run_merges_three :
    ∃ recs z, (∀ (γ : Type) (count : γ → Block → γ) (c : γ) (fuel : ℕ),
          threeLogs.flatten.length < fuel →
          run count default id (contentsOf threeLogs) fuel c =
            .ok (some ((recs ++ [z]).foldl count c))) ∧
      recs.Pairwise (fun a b => a.cksum ≤ b.cksum) ∧
      (recs.map Block.content).Perm (threeLogs.flatten.map Block.content) ∧
      (∀ b ∈ recs, b.size ≠ 0) ∧ z.size = 0 :=
  MergeOld.run_merges default id threeLogs (by decide) threeLogs_proper (by decide)

/-! ## `dedup_merge.cpp` -/

namespace Merge

/-- Files that the merge is meant for. -/
structure Mergeable (logs : List (List Block)) : Prop where
  files : logs ≠ []
  proper : ∀ log ∈ logs, ∀ b ∈ log, b.Proper
  sorted : ∀ log ∈ logs, log.Pairwise fun a b => a.cksum ≤ b.cksum
  sizes : ∀ a ∈ logs.flatten, ∀ b ∈ logs.flatten, a.cksum = b.cksum → a.size = b.size
  records : logs.flatten ≠ []

/-- How often a checksum occurs. -/
def multiplicity (logs : List (List Block)) (ck : Checksum) : ℕ :=
  (logs.flatten.map Block.cksum).count ck

/-- One block of each checksum that occurs `d` times, of the given size. -/
def distinct (logs : List (List Block)) (d : ℕ) : List (Checksum × UInt32) :=
  (logs.flatten.map Block.content).dedup.filter fun c => multiplicity logs c.1 = d

/-- The line of the multiplicity `d`. -/
def histogramLine (logs : List (List Block)) (d : ℕ) : Line where
  multiplicity := .ofNat d
  blocks := .ofNat (distinct logs d).length
  bytes := .ofNat ((distinct logs d).map fun c => d * c.2.toNat).sum
  unique := .ofNat ((distinct logs d).map fun c => c.2.toNat).sum

/-- The lines of **the duplication histogram**: one for each multiplicity that occurs. -/
def IsHistogram (logs : List (List Block)) (lines : List Line) : Prop :=
  lines.Nodup ∧ ∀ l, l ∈ lines ↔ ∃ ck ∈ logs.flatten.map Block.cksum,
    l = histogramLine logs (multiplicity logs ck)

/-- `main` ends, with no access outside an array, and prints the histogram. -/
def PrintsHistogram (threshold : Option UInt64) (mem : ℕ → Stream) (tree : ℕ → ℕ) (lastBlk : Block)
    (logs : List (List Block)) : Prop :=
  ∃ fuel lines os, main threshold mem tree lastBlk (contentsOf logs) fuel = .ok (some (lines, os)) ∧
    IsHistogram logs lines

/-- **A round that loads a block of file `num_files`** leaves the arrays. -/
theorem mergeLoop_fault {γ : Type} (h : Ready k S st) (hS : ∃ i < k, S i ≠ []) (count : γ → Block → γ)
    (fuel : ℕ) (c : γ) :
    mergeLoop copy (fun _ => .ok k) count (fuel + 1) st c = .error (.array k) := by
  have hw := h.champion_lt
  obtain ⟨i, hi, hne⟩ := hS
  have hz : (st.bls (st.tree 0)).size ≠ 0 := fun hz => hne (h.done hz i hi)
  unfold mergeLoop
  rw [readAt_ok (h.files ▸ h.pos)]
  simp only [bind, Except.bind, h.files, readAt_ok hw, if_neg hz, MergeState.modify,
    readAt_fault (le_refl k)]

theorem main_fault (threshold : Option UInt64) (mem : ℕ → Stream) (tree : ℕ → ℕ) (lastBlk : Block)
    (h0 : logs ≠ []) (hproper : ∀ log ∈ logs, ∀ b ∈ log, b.Proper) (hrec : logs.flatten ≠ [])
    (fuel : ℕ) :
    main threshold mem tree lastBlk (contentsOf logs) (fuel + 1) = .error (.array logs.length) := by
  obtain ⟨st, st', hload, hfiles, hinit, hready⟩ :=
    start_ready Merge.copies true mem tree h0 (.inl rfl) hproper
  have hS : ∃ i < logs.length, logOf logs i ≠ [] := by
    by_contra hno
    rw [← union_logOf] at hrec
    refine hrec (List.flatMap_eq_nil_iff.2 ?_)
    intro i hi
    by_contra hne
    exact hno ⟨i, List.mem_range.1 hi, hne⟩
  simp only [main, hload, hinit, hfiles, bind, Except.bind, mergeLoop_fault hready hS]

theorem main_zero (threshold : Option UInt64) (mem : ℕ → Stream) (tree : ℕ → ℕ) (lastBlk : Block)
    (h0 : logs ≠ []) (hproper : ∀ log ∈ logs, ∀ b ∈ log, b.Proper) :
    main threshold mem tree lastBlk (contentsOf logs) 0 = .ok none := by
  obtain ⟨st, st', hload, hfiles, hinit, hready⟩ :=
    start_ready Merge.copies true mem tree h0 (.inl rfl) hproper
  simp only [main, hload, hinit, bind, Except.bind, mergeLoop]
  rfl

/-- No histogram is printed. -/
theorem no_histogram (threshold : Option UInt64) (mem : ℕ → Stream) (tree : ℕ → ℕ) (lastBlk : Block)
    (h0 : logs ≠ []) (hproper : ∀ log ∈ logs, ∀ b ∈ log, b.Proper) (hrec : logs.flatten ≠ []) :
    ¬ PrintsHistogram threshold mem tree lastBlk logs := by
  rintro ⟨fuel, lines, os, hmain, -⟩
  rcases fuel with - | fuel
  · rw [main_zero threshold mem tree lastBlk h0 hproper] at hmain
    cases hmain
  · rw [main_fault threshold mem tree lastBlk h0 hproper hrec] at hmain
    cases hmain

/-- **`dedup_merge.cpp` never prints the histogram**: the first round that has counted a
record loads a block of file `num_files`, which is outside the arrays. -/
theorem main_never (threshold : Option UInt64) (mem : ℕ → Stream) (tree : ℕ → ℕ) (lastBlk : Block)
    (h : Mergeable logs) :
    ¬ PrintsHistogram threshold mem tree lastBlk logs ∧
      ∀ fuel, 0 < fuel →
        main threshold mem tree lastBlk (contentsOf logs) fuel = .error (.array logs.length) := by
  refine ⟨no_histogram threshold mem tree lastBlk h.files h.proper h.records, ?_⟩
  intro fuel hfuel
  obtain ⟨fuel, rfl⟩ := Nat.exists_eq_add_of_lt hfuel
  exact main_fault threshold mem tree lastBlk h.files h.proper h.records _

theorem threeLogs_mergeable : Mergeable threeLogs where
  files := by decide
  proper := threeLogs_proper
  sorted := by decide
  sizes := by decide
  records := by decide

/-- These files. -/
theorem main_never_three :
    ¬ PrintsHistogram none default id default threeLogs ∧
      ∀ fuel, 0 < fuel →
        main none default id default (contentsOf threeLogs) fuel = .error (.array 3) :=
  main_never none default id default threeLogs_mergeable

/-- **Their histogram is not printed.** -/
theorem histogram_missing_three :
    ¬ (Mergeable threeLogs → PrintsHistogram none default id default threeLogs) :=
  fun h => no_histogram none default id default threeLogs_mergeable.files
    threeLogs_mergeable.proper threeLogs_mergeable.records (h threeLogs_mergeable)

end Merge

end DedupSim
