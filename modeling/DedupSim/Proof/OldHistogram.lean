import DedupSim.Proof.Count
import Mathlib.Algebra.BigOperators.Group.Finset.Basic
import Mathlib.Algebra.BigOperators.Group.Finset.Piecewise

/-!
# The histogram of `dedup_merge.cpp.old`

The program counts into arrays of `FREQ_COUNT` elements: the last one takes all
multiplicities from `FREQ_COUNT` on.

* `slot`: the element of a multiplicity. `foldl_count_ok`: **`count` leaves no array, and
  writes down the runs but the last.**
* `slotLine`: the line of an element; `counters_lines`: what is printed after a sorted
  sequence.
-/

namespace DedupSim

namespace MergeOld

variable {c : Counters} {b z : Block} {bs : List Block} {n i : ℕ} {a : ℕ → UInt64}

/-! ## One block -/

/-- The element that counts the multiplicity `n`. -/
def slot (n : ℕ) : ℕ := if freqCount ≤ n then freqCount - 1 else n - 1

theorem slot_lt (n : ℕ) : slot n < freqCount := by
  unfold slot freqCount
  split <;> omega

/-- What `count` has written down. -/
structure Written where
  blkCount : ℕ → UInt64
  sizeCount : ℕ → UInt64
  dedupCount : ℕ → UInt64

def Counters.written (c : Counters) : Written := ⟨c.blkCount, c.sizeCount, c.dedupCount⟩

/-- `a[i] += v`, inside the array. -/
def bump (a : ℕ → UInt64) (i : ℕ) (v : UInt64) : ℕ → UInt64 := Function.update a i (a i + v)

/-- A run is written down. -/
def Written.add (w : Written) (r : Block × ℕ) : Written where
  blkCount := bump w.blkCount (slot r.2) 1
  sizeCount := bump w.sizeCount (slot r.2) (r.1.size.toUInt64 * .ofNat r.2)
  dedupCount := bump w.dedupCount (slot r.2) r.1.size.toUInt64

theorem addAt_ok (h : i < freqCount) (v : UInt64) : addAt a i v = .ok (bump a i v) := by
  simp only [addAt, readAt_ok h, writeAt_ok h, bind, Except.bind]
  rfl

theorem writeDown_ok (h : i < freqCount) :
    c.writeDown i = .ok { c with
      blkCount := bump c.blkCount i 1
      sizeCount := bump c.sizeCount i (c.lastBlk.size.toUInt64 * c.dupCount)
      dedupCount := bump c.dedupCount i c.lastBlk.size.toUInt64 } := by
  simp only [Counters.writeDown, addAt_ok h, bind, Except.bind, pure, Except.pure]

/-- A block that goes on with the run. -/
theorem count_same (hb : b.size.toNat < 2 ^ 31) (hlast : c.lastBlk.size.toNat < 2 ^ 31)
    (h : blockKey c.lastBlk = blockKey b) :
    ∃ c', count c b = .ok c' ∧ c'.lastBlk = b ∧ c'.dupCount = c.dupCount + 1 ∧
      c'.written = c.written := by
  have h0 : ¬ blockCompare c.lastBlk b ≠ 0 := not_not.2 ((blockCompare_cmp hlast hb).2.2 h)
  simp only [count, h0, if_false]
  exact ⟨_, rfl, rfl, rfl, rfl⟩

/-- A block that begins the next run: the last run is written down in its element. -/
theorem count_next (hb : b.size.toNat < 2 ^ 31) (hlast : c.lastBlk.size.toNat < 2 ^ 31)
    (h1 : 1 ≤ n) (hn : c.dupCount.toNat = n) (h : blockKey c.lastBlk ≠ blockKey b) :
    ∃ c', count c b = .ok c' ∧ c'.lastBlk = b ∧ c'.dupCount = 1 ∧
      c'.written = c.written.add (c.lastBlk, n) := by
  have h0 : blockCompare c.lastBlk b ≠ 0 := fun h0 => h ((blockCompare_cmp hlast hb).2.1 h0)
  have hdup : c.dupCount = UInt64.ofNat n := by rw [← hn, UInt64.ofNat_toNat]
  have hone : (1 : UInt64).toNat = 1 := rfl
  have hpred : (c.dupCount - 1).toNat = n - 1 := by
    rw [UInt64.toNat_sub_of_le _ _ (UInt64.le_iff_toNat_le.2 (by omega)), hn, hone]
  set c1 : Counters := { c with
    totalSize := c.totalSize + b.size.toUInt64
    totalBlocks := c.totalBlocks + 1
    dedupSize := c.dedupSize + b.size.toUInt64
    uniBlocks := c.uniBlocks + 1 } with hc1
  have hwrite : c1.writeDown (slot n) = .ok _ := writeDown_ok (slot_lt n)
  refine ⟨{ c1 with
    blkCount := bump c1.blkCount (slot n) 1
    sizeCount := bump c1.sizeCount (slot n) (c1.lastBlk.size.toUInt64 * c1.dupCount)
    dedupCount := bump c1.dedupCount (slot n) c1.lastBlk.size.toUInt64
    dupCount := 1
    lastBlk := b }, ?_, rfl, rfl, ?_⟩
  · simp only [count, h0, if_true, ← hc1, ne_eq, not_false_eq_true, hpred, hn]
    by_cases hge : freqCount ≤ n
    · rw [slot, if_pos hge] at hwrite
      simp only [hge, if_true, hwrite, bind, Except.bind, pure, Except.pure, slot]
    · rw [slot, if_neg hge] at hwrite
      simp only [hge, if_false, hwrite, bind, Except.bind, pure, Except.pure, slot]
  · unfold Counters.written Written.add
    rw [hdup]

/-- **`count` writes down the runs but the last**, and stays inside its arrays. -/
theorem foldl_count_ok (l : List Block) : ∀ (c : Counters) (n : ℕ), 1 ≤ n → n + l.length < 2 ^ 64 →
    (∀ b ∈ c.lastBlk :: l, b.size.toNat < 2 ^ 31) → c.dupCount.toNat = n →
      ∃ c', l.foldl (fun c bl => c >>= fun c => count c bl) (.ok c) = .ok c' ∧
        c'.written = (runsFrom blockKey n c.lastBlk l).dropLast.foldl Written.add c.written := by
  induction l with
  | nil => exact fun c n _ _ _ _ => ⟨c, rfl, rfl⟩
  | cons b l ih =>
    intro c n h1 hlen hsize hn
    have hlast := hsize _ (.head _)
    have hb := hsize b (.tail _ (.head _))
    rw [List.length_cons] at hlen
    have hrest : ∀ x ∈ b :: l, x.size.toNat < 2 ^ 31 := fun x hx => hsize x (.tail _ hx)
    by_cases heq : blockKey c.lastBlk = blockKey b
    · obtain ⟨c1, hok, hl, hdup, hw⟩ := count_same hb hlast heq
      have hn1 : c1.dupCount.toNat = n + 1 := by
        rw [hdup, UInt64.toNat_add, hn]
        exact Nat.mod_eq_of_lt (by simpa using by omega)
      obtain ⟨c2, hfold, hw2⟩ := ih c1 (n + 1) (by omega) (by omega) (by rwa [hl]) hn1
      refine ⟨c2, ?_, ?_⟩
      · rw [List.foldl_cons]
        change l.foldl _ (count c b) = _
        rw [hok, hfold]
      · rw [hw2, hl, hw, runsFrom, if_pos heq]
    · obtain ⟨c1, hok, hl, hdup, hw⟩ := count_next hb hlast h1 hn heq
      obtain ⟨c2, hfold, hw2⟩ := ih c1 1 le_rfl (by omega) (by rwa [hl]) (by rw [hdup]; rfl)
      refine ⟨c2, ?_, ?_⟩
      · rw [List.foldl_cons]
        change l.foldl _ (count c b) = _
        rw [hok, hfold]
      · rw [hw2, hl, hw, runsFrom, if_neg heq, List.dropLast_cons_of_ne_nil (runsFrom_ne_nil l 1 b),
          List.foldl_cons]

/-- The block before the first is a run of its own, and so is the zero-sized one at the end. -/
theorem runsFrom_start (x : Block) (hx : x.size = 0) (hne : bs ≠ []) (hbs : ∀ b ∈ bs, b.Proper)
    (hz : z.size = 0) :
    (runsFrom blockKey 1 x (bs ++ [z])).dropLast = (x, 1) :: runs Block.cksum bs := by
  rcases bs with - | ⟨b, bs⟩
  · exact absurd rfl hne
  have hkey : ∀ y ∈ b :: bs, blockKey y = (y.cksum : WithTop Checksum) :=
    fun y hy => if_neg (hbs y hy).ne_zero
  have htop : ∀ y ∈ b :: bs, blockKey y ≠ blockKey z := by
    intro y hy
    rw [hkey y hy, blockKey_eq_top.2 hz]
    exact WithTop.coe_ne_top
  have hcksum : runsFrom blockKey 1 b bs = runs Block.cksum (b :: bs) := by
    apply runsFrom_congr
    intro x hx y hy
    rw [hkey x hx, hkey y hy, WithTop.coe_eq_coe]
  have hstart : blockKey x ≠ blockKey b := by
    rw [blockKey_eq_top.2 hx, ← blockKey_eq_top.2 hz]
    exact (htop b (.head _)).symm
  rw [List.cons_append, runsFrom, if_neg hstart, runsFrom_concat bs 1 b htop, hcksum,
    ← List.cons_append, List.dropLast_concat]

/-- **From the start to a zero-sized block.** -/
theorem foldl_count_start (lastBlk : Block) (hne : bs ≠ []) (hbs : ∀ b ∈ bs, b.Proper)
    (hlen : bs.length + 2 < 2 ^ 64) (hz : z.size = 0) :
    ∃ c, (bs ++ [z]).foldl (fun c bl => c >>= fun c => count c bl) (.ok (.start lastBlk)) = .ok c ∧
      c.written = (({ lastBlk with size := 0 }, 1) :: runs Block.cksum bs).foldl Written.add
        ⟨fun _ => 0, fun _ => 0, fun _ => 0⟩ := by
  set x : Block := { lastBlk with size := 0 }
  have hsize : ∀ b ∈ x :: (bs ++ [z]), b.size.toNat < 2 ^ 31 := by
    intro b hb
    rcases List.mem_cons.1 hb with rfl | hb
    · exact Nat.two_pow_pos 31
    · rcases List.mem_append.1 hb with hb | hb
      · exact (hbs b hb).lt
      · rw [List.mem_singleton.1 hb, hz]
        exact Nat.two_pow_pos 31
  obtain ⟨c, hok, hw⟩ := foldl_count_ok (bs ++ [z]) (.start lastBlk) 1 le_rfl
    (by rw [List.length_append, List.length_singleton]; omega) hsize rfl
  refine ⟨c, hok, ?_⟩
  rw [hw, ← runsFrom_start x rfl hne hbs hz]
  rfl

/-! ## The arrays -/

/-- An element after a loop that adds to one for each run. -/
theorem foldl_bump {α : Type*} (f w : α → ℕ) (i : ℕ) (rs : List α) : ∀ a : ℕ → UInt64,
    rs.foldl (fun a r => bump a (f r) (.ofNat (w r))) a i =
      a i + .ofNat ((rs.filter fun r => f r = i).map w).sum := by
  induction rs with
  | nil => exact fun a => (UInt64.add_zero _).symm
  | cons r rs ih =>
    intro a
    rw [List.foldl_cons, ih]
    by_cases h : f r = i
    · rw [List.filter_cons_of_pos (by simpa using h), List.map_cons, List.sum_cons, UInt64.ofNat_add,
        ← UInt64.add_assoc, bump, h, Function.update_self]
    · rw [List.filter_cons_of_neg (by simpa using h), bump, Function.update_of_ne (Ne.symm h)]

theorem toUInt64_eq (u : UInt32) : u.toUInt64 = UInt64.ofNat u.toNat := by
  rw [← UInt64.toNat_inj, UInt32.toNat_toUInt64,
    UInt64.toNat_ofNat_of_lt' (u.toNat_lt.trans (by decide))]

theorem Written.foldl_add (rs : List (Block × ℕ)) (w : Written) :
    rs.foldl Written.add w =
      ⟨rs.foldl (fun a r => bump a (slot r.2) (.ofNat 1)) w.blkCount,
        rs.foldl (fun a r => bump a (slot r.2) (.ofNat (r.1.size.toNat * r.2))) w.sizeCount,
        rs.foldl (fun a r => bump a (slot r.2) (.ofNat r.1.size.toNat)) w.dedupCount⟩ := by
  induction rs generalizing w with
  | nil => rfl
  | cons r rs ih =>
    rw [List.foldl_cons, ih]
    simp only [Written.add, List.foldl_cons, UInt64.ofNat_mul, toUInt64_eq]
    rfl

/-! ## The histogram -/

/-- Whether the line of element `i` is that of the multiplicity `m`. -/
def InLine (i m : ℕ) : Prop := if i + 1 < freqCount then m = i + 1 else freqCount ≤ m

instance (i m : ℕ) : Decidable (InLine i m) := by unfold InLine; infer_instance

theorem slot_eq_iff {m : ℕ} (hm : 1 ≤ m) (hi : i < freqCount) : slot m = i ↔ InLine i m := by
  unfold slot InLine
  split <;> split <;> omega

/-- One block of each checksum whose multiplicity is counted in element `i`, of the given
size. -/
def distinctIn (logs : List (List Block)) (i : ℕ) : List (Checksum × UInt32) :=
  (logs.flatten.map Block.content).dedup.filter fun c => InLine i (Merge.multiplicity logs c.1)

/-- The line of element `i`. -/
def slotLine (logs : List (List Block)) (i : ℕ) : Line where
  blocks := .ofNat (distinctIn logs i).length
  multiplicity := i + 1
  bytes := .ofNat ((distinctIn logs i).map fun c => Merge.multiplicity logs c.1 * c.2.toNat).sum
  unique := .ofNat ((distinctIn logs i).map fun c => c.2.toNat).sum

/-- **The histogram**: a line for each multiplicity below `FREQ_COUNT`, and one for all the
others. -/
def histogram (logs : List (List Block)) : List Line := (List.range freqCount).map (slotLine logs)

/-- It does not depend on how the records are distributed, or on their order. -/
theorem histogram_perm {logs logs' : List (List Block)}
    (h : (logs.flatten.map Block.content).Perm (logs'.flatten.map Block.content)) :
    histogram logs = histogram logs' := by
  have hmult : Merge.multiplicity logs = Merge.multiplicity logs' := by
    funext ck
    have hck := h.map Prod.fst
    rw [List.map_map, List.map_map] at hck
    exact hck.count_eq ck
  refine List.map_congr_left fun i _ => ?_
  have hperm : (distinctIn logs i).Perm (distinctIn logs' i) := by
    unfold distinctIn
    rw [hmult]
    exact h.dedup.filter _
  simp only [slotLine, hmult, hperm.length_eq, (hperm.map _).sum_eq]

/-- The runs counted in element `i` are the checksums of its line. -/
theorem runs_distinctIn (hadj : Contiguous Block.cksum bs) (hsame : SizesAgree bs)
    (hi : i < freqCount) :
    (((runs Block.cksum bs).filter fun r => slot r.2 = i).map fun r => r.1.content).Perm
      (distinctIn [bs] i) := by
  obtain ⟨-, hnodup, hmem, hlen⟩ := runs_spec hadj
  have hslot : ∀ r ∈ runs Block.cksum bs,
      slot r.2 = i ↔ InLine i (Merge.multiplicity [bs] r.1.cksum) := by
    intro r hr
    have hpos : 1 ≤ r.2 := by
      rw [hlen r hr, Nat.one_le_iff_ne_zero, ← Nat.pos_iff_ne_zero, List.count_pos_iff]
      exact List.mem_map_of_mem (mem_of_mem_runs hadj hr)
    rw [slot_eq_iff hpos hi, hlen r hr, Merge.multiplicity, List.flatten_singleton]
  unfold distinctIn
  rw [List.flatten_singleton]
  refine (List.perm_ext_iff_of_nodup ?_ ((List.nodup_dedup _).filter _)).2 fun p => ?_
  · apply List.Nodup.of_map Prod.fst
    rw [List.map_map]
    exact hnodup.sublist (List.filter_sublist.map _)
  · rw [List.mem_filter, List.mem_dedup, decide_eq_true_eq]
    constructor
    · intro hp
      obtain ⟨r, hr, rfl⟩ := List.mem_map.1 hp
      obtain ⟨hr, hs⟩ := List.mem_filter.1 hr
      exact ⟨List.mem_map_of_mem (mem_of_mem_runs hadj hr), (hslot r hr).1 (of_decide_eq_true hs)⟩
    · rintro ⟨hp, hs⟩
      obtain ⟨b, hb, rfl⟩ := List.mem_map.1 hp
      -- the run of its checksum has the same size
      obtain ⟨r, hr, heq⟩ := List.mem_map.1 ((hmem b.cksum).2 (List.mem_map_of_mem hb))
      have hcontent : r.1.content = b.content :=
        Prod.ext heq (hsame r.1 (mem_of_mem_runs hadj hr) b hb heq)
      refine List.mem_map.2 ⟨r, List.mem_filter.2 ⟨hr, decide_eq_true ?_⟩, hcontent⟩
      rw [hslot r hr, heq]
      exact hs

/-- What the runs of element `i` weigh. -/
theorem sum_runs_distinctIn (hadj : Contiguous Block.cksum bs) (hsame : SizesAgree bs)
    (hi : i < freqCount) (w : Block × ℕ → ℕ) (v : Checksum × UInt32 → ℕ)
    (hw : ∀ r ∈ runs Block.cksum bs, w r = v r.1.content) :
    (((runs Block.cksum bs).filter fun r => slot r.2 = i).map w).sum =
      ((distinctIn [bs] i).map v).sum := by
  have hperm := (runs_distinctIn hadj hsame hi).map v
  rw [List.map_map] at hperm
  rw [← hperm.sum_eq]
  refine congrArg List.sum (List.map_congr_left fun r hr => ?_)
  exact hw r (List.mem_of_mem_filter hr)

/-- **What is printed after a sorted sequence**, once the block before the first is taken off
again. -/
theorem counters_lines {c : Counters} {x : Block} (hx : x.size = 0)
    (hadj : Contiguous Block.cksum bs) (hsame : SizesAgree bs)
    (hw : c.written = ((x, 1) :: runs Block.cksum bs).foldl Written.add
      ⟨fun _ => 0, fun _ => 0, fun _ => 0⟩) :
    { c with blkCount := bump c.blkCount 0 (-1) }.lines = histogram [bs] := by
  rw [Written.foldl_add] at hw
  have hlen := (runs_spec hadj).2.2.2
  have hzero : x.size.toNat = 0 := by rw [hx]; rfl
  have hone : slot 1 = 0 := rfl
  refine List.map_congr_left fun i hi => ?_
  have hi := List.mem_range.1 hi
  have hblk := congrFun (congrArg Written.blkCount hw) i
  have hsize := congrFun (congrArg Written.sizeCount hw) i
  have hdedup := congrFun (congrArg Written.dedupCount hw) i
  simp only [Counters.written, List.foldl_cons, hone, hzero, Nat.zero_mul] at hblk hsize hdedup
  rw [foldl_bump] at hblk hsize hdedup
  -- the block before the first adds one to element 0, and no bytes
  have hnone : ∀ a : ℕ → UInt64, bump a 0 (.ofNat 0) = a := by
    intro a
    have h0 : a 0 + UInt64.ofNat 0 = a 0 := UInt64.add_zero _
    rw [bump, h0, Function.update_eq_self]
  rw [hnone, UInt64.zero_add] at hsize hdedup
  rw [sum_runs_distinctIn hadj hsame hi _ (fun _ => 1) fun r _ => rfl] at hblk
  rw [sum_runs_distinctIn hadj hsame hi _ (fun p => Merge.multiplicity [bs] p.1 * p.2.toNat)
    fun r hr => ?_] at hsize
  rotate_left
  · rw [hlen r hr, Nat.mul_comm, Merge.multiplicity, List.flatten_singleton]
    rfl
  rw [sum_runs_distinctIn hadj hsame hi (fun r => r.1.size.toNat) (fun p => p.2.toNat)
    fun r _ => rfl] at hdedup
  -- `main` takes that one away again
  have hcount : bump c.blkCount 0 (-1) i = .ofNat (distinctIn [bs] i).length := by
    rw [List.map_const', List.sum_replicate_nat, Nat.mul_one] at hblk
    unfold bump at hblk ⊢
    by_cases h0 : i = 0
    · subst h0
      rw [Function.update_self] at hblk ⊢
      rw [hblk]
      have hcancel : (0 + UInt64.ofNat 1 : UInt64) + -1 = 0 := rfl
      rw [UInt64.add_assoc, UInt64.add_comm (.ofNat _), ← UInt64.add_assoc, hcancel, UInt64.zero_add]
    · rw [Function.update_of_ne h0] at hblk ⊢
      rw [hblk, UInt64.zero_add]
  simp only [slotLine, hcount, hsize, hdedup]

/-! ## The sum of the lines -/

/-- A sum parted into `N` slots. -/
theorem sum_slots {α : Type*} (f s : α → ℕ) (N : ℕ) (l : List α) (h : ∀ c ∈ l, s c < N) :
    ((List.range N).map fun i => ((l.filter fun c => s c = i).map f).sum).sum = (l.map f).sum := by
  induction l with
  | nil =>
    simp only [List.filter_nil, List.map_nil, List.sum_nil, List.map_const', List.sum_replicate_nat,
      Nat.mul_zero]
  | cons c l ih =>
    have hcons : ∀ i, (((c :: l).filter fun c => s c = i).map f).sum =
        (if s c = i then f c else 0) + ((l.filter fun c => s c = i).map f).sum := by
      intro i
      by_cases hc : s c = i
      · rw [List.filter_cons_of_pos (by simpa using hc), List.map_cons, List.sum_cons, if_pos hc]
      · rw [List.filter_cons_of_neg (by simpa using hc), if_neg hc, Nat.zero_add]
    have hone : ((List.range N).map fun i => if s c = i then f c else 0).sum = f c := by
      change ∑ i ∈ Finset.range N, (if s c = i then f c else 0) = f c
      rw [Finset.sum_ite_eq, if_pos (Finset.mem_range.2 (h c (.head _)))]
    rw [List.map_cons, List.sum_cons, ← ih fun c hc => h c (.tail _ hc), ← hone, ← List.sum_map_add]
    exact congrArg List.sum (List.map_congr_left fun i _ => hcons i)

/-- Where sizes agree, a checksum occurs as often as with its size. -/
theorem multiplicity_content {logs : List (List Block)} (hsame : SizesAgree logs.flatten)
    {p : Checksum × UInt32} (hp : p ∈ logs.flatten.map Block.content) :
    Merge.multiplicity logs p.1 =
      (logs.flatten.map Block.content).countP fun c => decide (c = p) := by
  obtain ⟨b, hb, rfl⟩ := List.mem_map.1 hp
  unfold Merge.multiplicity
  rw [List.count, List.countP_map, List.countP_map]
  refine List.countP_congr fun a ha => ?_
  simp only [Function.comp_apply, beq_iff_eq, decide_eq_true_eq, Block.content, Prod.mk.injEq]
  exact ⟨fun h => ⟨h, hsame a ha b hb h⟩, fun h => h.1⟩

/-- **The bytes of the lines add up to those of all records.** -/
theorem histogram_bytes {logs : List (List Block)} (hsame : SizesAgree logs.flatten)
    (htotal : sizeOf logs.flatten < 2 ^ 64) :
    ((histogram logs).map fun l => l.bytes.toNat).sum = sizeOf logs.flatten := by
  set f : Checksum × UInt32 → ℕ := fun c => Merge.multiplicity logs c.1 * c.2.toNat with hf
  set all := (logs.flatten.map Block.content).dedup with hall
  have hmem : ∀ c ∈ all, c ∈ logs.flatten.map Block.content := fun c hc => List.mem_dedup.1 hc
  have hpos : ∀ c ∈ all, 1 ≤ Merge.multiplicity logs c.1 := by
    intro c hc
    rw [multiplicity_content hsame (hmem c hc)]
    exact List.countP_pos_iff.2 ⟨c, hmem c hc, decide_eq_true rfl⟩
  have hslots : ∀ i < freqCount,
      distinctIn logs i = all.filter fun c => slot (Merge.multiplicity logs c.1) = i := by
    intro i hi
    refine List.filter_congr fun c hc => ?_
    rw [decide_eq_decide, slot_eq_iff (hpos c hc) hi]
  have hsum : (all.map f).sum = sizeOf logs.flatten := by
    have hcount := Finset.sum_list_map_count (logs.flatten.map Block.content) fun c => c.2.toNat
    rw [List.map_map] at hcount
    refine Eq.trans ?_ hcount.symm
    change (all.map f).sum = (all.map _).sum
    refine congrArg List.sum (List.map_congr_left fun c hc => ?_)
    exact congrArg (· * c.2.toNat) (multiplicity_content hsame (hmem c hc))
  have hparts := sum_slots f (fun c => slot (Merge.multiplicity logs c.1)) freqCount all
    fun c _ => slot_lt _
  rw [hsum] at hparts
  rw [← hparts]
  unfold histogram
  rw [List.map_map]
  refine congrArg List.sum (List.map_congr_left fun i hi => ?_)
  have hi := List.mem_range.1 hi
  change (UInt64.ofNat ((distinctIn logs i).map f).sum).toNat = _
  rw [hslots i hi]
  refine UInt64.toNat_ofNat_of_lt' (lt_of_le_of_lt ?_ htotal)
  rw [← hsum]
  exact (List.filter_sublist.map f).sum_le_sum fun _ _ => Nat.zero_le _

/-! ## The whole program -/

/-- Sizes agree, whatever the order of the blocks is. -/
theorem sizesAgree_of_content {bs bs' : List Block} (h : SizesAgree bs)
    (hperm : (bs'.map Block.content).Perm (bs.map Block.content)) : SizesAgree bs' := by
  intro a ha b hb heq
  obtain ⟨a', ha', hac⟩ := List.mem_map.1 (hperm.subset (List.mem_map_of_mem ha))
  obtain ⟨b', hb', hbc⟩ := List.mem_map.1 (hperm.subset (List.mem_map_of_mem hb))
  obtain ⟨ha1, ha2⟩ := Prod.mk.inj hac
  obtain ⟨hb1, hb2⟩ := Prod.mk.inj hbc
  rw [← ha2, ← hb2]
  exact h a' ha' b' hb' (by rw [ha1, hb1, heq])

/-- What is printed when there is no record: the zero-sized block before the first goes on
with the run of that at the end, and element 0 is below zero. -/
def emptyLines : List Line :=
  (List.range freqCount).map fun i => ⟨if i = 0 then -1 else 0, i + 1, 0, 0⟩

theorem emptyLines_ne (logs : List (List Block)) (h : logs.flatten = []) :
    emptyLines ≠ histogram logs := by
  intro heq
  have h0 := congrArg (fun ls : List Line => (ls[0]?).map Line.blocks) heq
  have hnone : distinctIn logs 0 = [] := by
    unfold distinctIn
    rw [h]
    rfl
  have hrange : (List.range freqCount)[0]? = some 0 :=
    List.getElem?_range (show 0 < freqCount by decide)
  simp only [emptyLines, histogram, List.getElem?_map, hrange, Option.map_some, slotLine, hnone,
    if_true, Option.some.injEq] at h0
  exact absurd h0 (by decide)

/-- The end of `main`, after a loop without a fault. -/
theorem main_of_run {mem : ℕ → Stream} {tree : ℕ → ℕ} {lastBlk : Block}
    {contents : List (List UInt8)} {fuel : ℕ}
    (h : run (fun c bl => c >>= fun c => count c bl) mem tree contents fuel
      (.ok (.start lastBlk)) = .ok (some (.ok c))) :
    main mem tree lastBlk contents fuel =
      .ok (some { c with blkCount := bump c.blkCount 0 (-1) }.lines) := by
  have hpos : 0 < freqCount := by decide
  simp only [main, h]
  simp only [bind, Except.bind, addAt_ok hpos, pure, Except.pure]

/-- Where only the zero-sized block is counted, there is no histogram. -/
theorem count_zero (lastBlk : Block) {z : Block} (hz : z.size = 0) :
    ∃ c, count (.start lastBlk) z = .ok c ∧
      { c with blkCount := bump c.blkCount 0 (-1) }.lines = emptyLines := by
  have h0 : blockKey (Counters.start lastBlk).lastBlk = blockKey z := by
    rw [blockKey_eq_top.2 hz]
    exact blockKey_eq_top.2 rfl
  have hzlt : z.size.toNat < 2 ^ 31 := by
    rw [hz]
    exact Nat.two_pow_pos 31
  have hxlt : (Counters.start lastBlk).lastBlk.size.toNat < 2 ^ 31 := Nat.two_pow_pos 31
  -- it has the key of the block before the first, so nothing is written down
  obtain ⟨c, hok, -, -, hw⟩ := count_same hzlt hxlt h0
  refine ⟨c, hok, List.map_congr_left fun i _ => ?_⟩
  have hblk : c.blkCount = fun _ => 0 := congrArg Written.blkCount hw
  have hsize : c.sizeCount = fun _ => 0 := congrArg Written.sizeCount hw
  have hdedup : c.dedupCount = fun _ => 0 := congrArg Written.dedupCount hw
  simp only [hblk, hsize, hdedup, bump, Function.update_apply, UInt64.zero_add]

/-- **`main` on sorted logs.** -/
theorem main_eq (mem : ℕ → Stream) (tree : ℕ → ℕ) (lastBlk : Block) (logs : List (List Block))
    (h2 : 2 ≤ logs.length) (hproper : ∀ log ∈ logs, ∀ b ∈ log, b.Proper)
    (hsorted : ∀ log ∈ logs, log.Pairwise fun a b => a.cksum ≤ b.cksum)
    (hsame : SizesAgree logs.flatten) (hlen : logs.flatten.length + 2 < 2 ^ 64) {fuel : ℕ}
    (hfuel : logs.flatten.length < fuel) :
    main mem tree lastBlk (contentsOf logs) fuel =
      .ok (some (if logs.flatten = [] then emptyLines else histogram logs)) := by
  obtain ⟨recs, z, hrun, hsort, hperm, hne, hz⟩ := run_merges mem tree logs h2 hproper hsorted
  have hloop := hrun _ (fun c bl => c >>= fun c => count c bl) (.ok (.start lastBlk)) fuel hfuel
  by_cases hnil : logs.flatten = []
  · rw [if_pos hnil]
    rw [hnil, List.map_nil, List.perm_nil, List.map_eq_nil_iff] at hperm
    subst hperm
    obtain ⟨c, hok, hlines⟩ := count_zero lastBlk hz
    have hfold : ([] ++ [z]).foldl (fun c bl => c >>= fun c => count c bl)
        (.ok (Counters.start lastBlk)) = .ok c := hok
    rw [hfold] at hloop
    rw [main_of_run hloop, hlines]
  · rw [if_neg hnil]
    have hlen' : recs.length = logs.flatten.length := by
      have := hperm.length_eq
      rwa [List.length_map, List.length_map] at this
    have hrecs : recs ≠ [] := by
      rintro rfl
      exact hnil (List.length_eq_zero_iff.1 hlen'.symm)
    have hprop : ∀ b ∈ recs, b.Proper := by
      intro b hb
      obtain ⟨b', hb', heq⟩ := List.mem_map.1 (hperm.subset (List.mem_map_of_mem hb))
      obtain ⟨log, hlog, hmem⟩ := List.mem_flatten.1 hb'
      obtain ⟨-, hsize⟩ := Prod.mk.inj heq
      have hp := hproper log hlog b' hmem
      exact ⟨hsize ▸ hp.ne_zero, hsize ▸ hp.lt⟩
    -- the zero-sized block at the end writes down the last run
    obtain ⟨c, hok, hw⟩ := foldl_count_start lastBlk hrecs hprop (by rwa [hlen']) hz
    rw [hok] at hloop
    have hrecs' := sizesAgree_of_content hsame hperm
    rw [main_of_run hloop, counters_lines rfl (.of_sorted hsort) hrecs' hw]
    have hflat : ([recs].flatten.map Block.content).Perm (logs.flatten.map Block.content) := by
      rwa [List.flatten_singleton]
    rw [histogram_perm hflat]

end MergeOld

end DedupSim
