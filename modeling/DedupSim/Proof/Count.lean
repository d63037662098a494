import DedupSim.Lib.RunLength
import DedupSim.Proof.Merge
import DedupSim.Proof.Segment
import Mathlib.Algebra.Order.BigOperators.Group.List

/-!
# What `count` makes of a sequence of blocks

A run of blocks is written down when the next one begins, so the zero-sized block before the
first one is written as well, and a zero-sized block has to follow the last one.

* `foldl_count`: **`count` writes down the runs but the last**, of any sequence.
* `count_histogram`: **the histogram**, once the block before the first is taken off again.
* `cdsWritten_iff`: **when the output is the blocks that reach the threshold**: it is not one,
  so that the block before the first is left out.
-/

namespace DedupSim

namespace Merge

variable {threshold : Option UInt64} {c : Counters} {b z : Block} {bs : List Block} {n : ℕ}

/-! ## One block -/

/-- What `count` has written down. -/
structure Written where
  blkCount : Counts
  sizeCount : Counts
  dedupCount : Counts
  os : List UInt8

def Counters.written (c : Counters) : Written := ⟨c.blkCount, c.sizeCount, c.dedupCount, c.os⟩

/-- The record of a run, if it reaches the threshold. -/
def runRecord (threshold : Option UInt64) (r : Block × ℕ) : List UInt8 :=
  if threshold.any fun t => t ≤ UInt64.ofNat r.2 then
    { r.1 with offset := UInt64.ofNat r.2 }.toStream
  else []

/-- A run is written down. -/
def Written.add (threshold : Option UInt64) (w : Written) (r : Block × ℕ) : Written where
  blkCount := w.blkCount.add (.ofNat r.2) 1
  sizeCount := w.sizeCount.add (.ofNat r.2) (r.1.size.toUInt64 * .ofNat r.2)
  dedupCount := w.dedupCount.add (.ofNat r.2) r.1.size.toUInt64
  os := w.os ++ runRecord threshold r

/-- A block that goes on with the run. -/
theorem count_same (threshold : Option UInt64) (hb : b.size.toNat < 2 ^ 31)
    (hlast : c.lastBlk.size.toNat < 2 ^ 31) (h : blockKey c.lastBlk = blockKey b) :
    (count threshold c b).lastBlk = b ∧ (count threshold c b).dupCount = c.dupCount + 1 ∧
      (count threshold c b).written = c.written := by
  have h0 := (blockCompare_cmp hb hlast).2.2 h.symm
  simp only [count, h0, if_true, true_and]
  rfl

/-- A block that begins the next run. -/
theorem count_next (threshold : Option UInt64) (hb : b.size.toNat < 2 ^ 31)
    (hlast : c.lastBlk.size.toNat < 2 ^ 31) (hn : c.dupCount = UInt64.ofNat n)
    (h : blockKey c.lastBlk ≠ blockKey b) :
    (count threshold c b).lastBlk = b ∧ (count threshold c b).dupCount = 1 ∧
      (count threshold c b).written = c.written.add threshold (c.lastBlk, n) := by
  have h0 : ¬ blockCompare b c.lastBlk = 0 := fun h0 => h ((blockCompare_cmp hb hlast).2.1 h0).symm
  simp only [count, h0, if_false]
  refine ⟨trivial, trivial, ?_⟩
  · simp only [Written.add, Counters.written, runRecord, hn]
    split
    · rfl
    · rw [List.append_nil]

/-- **`count` writes down the runs but the last.** -/
theorem foldl_count (threshold : Option UInt64) (l : List Block) : ∀ (c : Counters) (n : ℕ),
    (∀ b ∈ c.lastBlk :: l, b.size.toNat < 2 ^ 31) → c.dupCount = UInt64.ofNat n →
      (l.foldl (count threshold) c).written =
        (runsFrom blockKey n c.lastBlk l).dropLast.foldl (Written.add threshold) c.written := by
  induction l with
  | nil => exact fun c n _ _ => rfl
  | cons b l ih =>
    intro c n hsize hn
    have hlast := hsize _ (.head _)
    have hb := hsize b (.tail _ (.head _))
    rw [List.foldl_cons, runsFrom]
    split
    · rename_i heq
      obtain ⟨hl, hdup, hw⟩ := count_same threshold hb hlast heq
      rw [ih (count threshold c b) (n + 1) ?_ ?_, hl, hw]
      · rw [hl]
        exact fun x hx => hsize x (.tail _ hx)
      · rw [hdup, hn, UInt64.ofNat_add]
        rfl
    · rename_i hne
      obtain ⟨hl, hdup, hw⟩ := count_next threshold hb hlast hn hne
      rw [ih (count threshold c b) 1 ?_ hdup, hl, hw,
        List.dropLast_cons_of_ne_nil (runsFrom_ne_nil l 1 b), List.foldl_cons]
      rw [hl]
      exact fun x hx => hsize x (.tail _ hx)

/-- **From the start to a zero-sized block**: the block before the first, and the runs. -/
theorem foldl_count_start (threshold : Option UInt64) (lastBlk : Block) (hne : bs ≠ [])
    (hbs : ∀ b ∈ bs, b.Proper) (hz : z.size = 0) :
    ((bs ++ [z]).foldl (count threshold) (.start lastBlk)).written =
      (({ lastBlk with size := 0 }, 1) :: runs Block.cksum bs).foldl (Written.add threshold)
        ⟨∅, ∅, ∅, []⟩ := by
  rcases bs with - | ⟨b, bs⟩
  · exact absurd rfl hne
  have hkey : ∀ x ∈ b :: bs, blockKey x = (x.cksum : WithTop Checksum) :=
    fun x hx => if_neg (hbs x hx).ne_zero
  have htop : ∀ x ∈ b :: bs, blockKey x ≠ blockKey z := by
    intro x hx
    rw [hkey x hx, blockKey_eq_top.2 hz]
    exact WithTop.coe_ne_top
  have hcksum : runsFrom blockKey 1 b bs = runs Block.cksum (b :: bs) := by
    apply runsFrom_congr
    intro x hx y hy
    rw [hkey x hx, hkey y hy, WithTop.coe_eq_coe]
  have hstart : blockKey { lastBlk with size := 0 } ≠ blockKey b := by
    have h0 : blockKey { lastBlk with size := 0 } = blockKey z := by
      rw [blockKey_eq_top.2 hz]
      exact blockKey_eq_top.2 rfl
    rw [h0]
    exact (htop b (.head _)).symm
  have hruns : runsFrom blockKey 1 { lastBlk with size := 0 } (b :: bs ++ [z]) =
      ({ lastBlk with size := 0 }, 1) :: (runs Block.cksum (b :: bs) ++ [(z, 1)]) := by
    rw [List.cons_append, runsFrom, if_neg hstart, runsFrom_concat bs 1 b htop, hcksum]
  rw [foldl_count threshold (b :: bs ++ [z]) (.start lastBlk) 1 ?_ rfl]
  · have hlast : (Counters.start lastBlk).lastBlk = { lastBlk with size := 0 } := rfl
    rw [hlast, hruns, ← List.cons_append, List.dropLast_concat]
    rfl
  · intro x hx
    rcases List.mem_cons.1 hx with rfl | hx
    · exact Nat.two_pow_pos 31
    · rcases List.mem_append.1 hx with hx | hx
      · exact (hbs x hx).lt
      · rw [List.mem_singleton.1 hx, hz]
        exact Nat.two_pow_pos 31

/-! ## The histogram -/

theorem Counts.getD_add (m : Counts) (i v d : UInt64) :
    (m.add i v).getD d 0 = if i = d then m.getD d 0 + v else m.getD d 0 := by
  unfold Counts.add
  simp only [Std.TreeMap.getD_insert, Std.LawfulEqCmp.compare_eq_iff_eq]
  split
  · rename_i h
    rw [h]
  · rfl

/-- A counter after a loop that adds to one for each run. -/
theorem Counts.getD_foldl {α : Type*} (f v : α → UInt64) (d : UInt64) (rs : List α) (m : Counts) :
    ((rs.foldl (fun m r => m.add (f r) (v r)) m).getD d 0).toNat =
      ((m.getD d 0).toNat + ((rs.filter fun r => f r = d).map fun r => (v r).toNat).sum) % 2 ^ 64 := by
  induction rs generalizing m with
  | nil =>
    rw [List.foldl_nil, List.filter_nil, List.map_nil, List.sum_nil, Nat.add_zero]
    exact (Nat.mod_eq_of_lt (UInt64.toNat_lt _)).symm
  | cons r rs ih =>
    rw [List.foldl_cons, ih, Counts.getD_add]
    split
    · rename_i h
      rw [List.filter_cons_of_pos (by simpa using h), List.map_cons, List.sum_cons, UInt64.toNat_add,
        Nat.mod_add_mod, Nat.add_assoc]
    · rename_i h
      rw [List.filter_cons_of_neg (by simpa using h)]

theorem Written.foldl_add (threshold : Option UInt64) (rs : List (Block × ℕ)) (w : Written) :
    rs.foldl (Written.add threshold) w =
      ⟨rs.foldl (fun m r => m.add (.ofNat r.2) 1) w.blkCount,
        rs.foldl (fun m r => m.add (.ofNat r.2) (r.1.size.toUInt64 * .ofNat r.2)) w.sizeCount,
        rs.foldl (fun m r => m.add (.ofNat r.2) r.1.size.toUInt64) w.dedupCount,
        w.os ++ rs.flatMap (runRecord threshold)⟩ := by
  induction rs generalizing w with
  | nil => rw [List.flatMap_nil, List.append_nil]; rfl
  | cons r rs ih =>
    rw [List.foldl_cons, ih, List.flatMap_cons, ← List.append_assoc]
    rfl

/-- The runs that are `d` long are the checksums that occur `d` times. -/
theorem runs_distinct (hadj : Contiguous Block.cksum bs) (hsame : SizesAgree bs) (d : ℕ) :
    (((runs Block.cksum bs).filter fun r => r.2 = d).map fun r => r.1.content).Perm
      (distinct [bs] d) := by
  obtain ⟨-, hnodup, hmem, hlen⟩ := runs_spec hadj
  unfold distinct multiplicity
  rw [List.flatten_singleton]
  refine (List.perm_ext_iff_of_nodup ?_ ((List.nodup_dedup _).filter _)).2 fun p => ?_
  · apply List.Nodup.of_map Prod.fst
    rw [List.map_map]
    exact hnodup.sublist (List.filter_sublist.map _)
  · rw [List.mem_filter, List.mem_dedup, decide_eq_true_eq]
    constructor
    · intro hp
      obtain ⟨r, hr, rfl⟩ := List.mem_map.1 hp
      obtain ⟨hr, hd⟩ := List.mem_filter.1 hr
      rw [← of_decide_eq_true hd, hlen r hr]
      exact ⟨List.mem_map_of_mem (mem_of_mem_runs hadj hr), rfl⟩
    · rintro ⟨hp, hd⟩
      obtain ⟨b, hb, rfl⟩ := List.mem_map.1 hp
      -- the run of its checksum has the same size
      obtain ⟨r, hr, heq⟩ := List.mem_map.1 ((hmem b.cksum).2 (List.mem_map_of_mem hb))
      refine List.mem_map.2 ⟨r, List.mem_filter.2 ⟨hr, decide_eq_true ?_⟩, Prod.ext heq ?_⟩
      · rw [hlen r hr, heq]
        exact hd
      · exact hsame r.1 (mem_of_mem_runs hadj hr) b hb heq

/-- No run has `2 ^ 64` blocks. -/
theorem runs_lt (hadj : Contiguous Block.cksum bs) (hlen : ∀ c, countOf bs c < 2 ^ 64) :
    ∀ r ∈ runs Block.cksum bs, r.2 < 2 ^ 64 := by
  intro r hr
  rw [(runs_spec hadj).2.2.2 r hr]
  exact hlen r.1.cksum

/-- A counter of `d`, when the block `x` before the first and the runs are added. -/
theorem getD_runs (hadj : Contiguous Block.cksum bs) (hlen : ∀ c, countOf bs c < 2 ^ 64) (x : Block)
    (v : Block × ℕ → UInt64) (d : UInt64) :
    ((((x, 1) :: runs Block.cksum bs).foldl (fun m r => m.add (.ofNat r.2) (v r))
        (∅ : Counts)).getD d 0).toNat =
      ((if 1 = d then (v (x, 1)).toNat else 0) +
        (((runs Block.cksum bs).filter fun r => r.2 = d.toNat).map fun r => (v r).toNat).sum) %
          2 ^ 64 := by
  have hfilter : ((runs Block.cksum bs).filter fun r => UInt64.ofNat r.2 = d) =
      (runs Block.cksum bs).filter fun r => r.2 = d.toNat := by
    apply List.filter_congr
    intro r hr
    rw [decide_eq_decide, ← UInt64.toNat_inj, UInt64.toNat_ofNat_of_lt' (runs_lt hadj hlen r hr)]
  have hfirst : (((∅ : Counts).add (.ofNat 1) (v (x, 1))).getD d 0).toNat =
      if 1 = d then (v (x, 1)).toNat else 0 := by
    have h1 : UInt64.ofNat 1 = 1 := rfl
    rw [Counts.getD_add, h1]
    split
    · rw [Std.TreeMap.getD_emptyc, UInt64.zero_add]
    · rw [Std.TreeMap.getD_emptyc]
      rfl
  rw [List.foldl_cons, Counts.getD_foldl, hfirst, hfilter]

theorem runs_sublist (hadj : Contiguous Block.cksum bs) (d : ℕ) :
    (((runs Block.cksum bs).filter fun r => r.2 = d).map Prod.fst).Sublist bs :=
  (List.filter_sublist.map _).trans (runs_spec hadj).1

/-- The bytes of the checksums that occur `d` times, once each. -/
theorem sum_distinct (hadj : Contiguous Block.cksum bs) (hsame : SizesAgree bs) (d : ℕ) :
    (((runs Block.cksum bs).filter fun r => r.2 = d).map fun r => r.1.size.toNat).sum =
        ((distinct [bs] d).map fun p => p.2.toNat).sum ∧
      ((distinct [bs] d).map fun p => p.2.toNat).sum ≤ sizeOf bs := by
  have hperm := (runs_distinct hadj hsame d).map fun p => p.2.toNat
  rw [List.map_map] at hperm
  refine ⟨hperm.sum_eq, hperm.sum_eq.symm.trans_le ?_⟩
  have hle := ((runs_sublist hadj d).map fun b : Block => b.size.toNat).sum_le_sum
    fun _ _ => Nat.zero_le _
  rw [List.map_map] at hle
  exact hle

/-- And as often as they occur. -/
theorem sum_multiple (hadj : Contiguous Block.cksum bs) (hsame : SizesAgree bs) (d : ℕ) :
    (((runs Block.cksum bs).filter fun r => r.2 = d).map fun r => r.1.size.toNat * r.2).sum =
        ((distinct [bs] d).map fun p => d * p.2.toNat).sum ∧
      ((distinct [bs] d).map fun p => d * p.2.toNat).sum ≤ sizeOf bs := by
  have hperm := (runs_distinct hadj hsame d).map fun p => d * p.2.toNat
  have hd : ((runs Block.cksum bs).filter fun r => r.2 = d).map (fun r => r.1.size.toNat * r.2) =
      ((runs Block.cksum bs).filter fun r => r.2 = d).map fun r => d * r.1.size.toNat := by
    apply List.map_congr_left
    intro r hr
    rw [of_decide_eq_true (List.mem_filter.1 hr).2, Nat.mul_comm]
  have hsum : ((runs Block.cksum bs).map fun r => r.2 * r.1.size.toNat).sum = sizeOf bs :=
    sum_runs (fun b : Block => b.size.toNat)
      fun x hx y hy h => congrArg UInt32.toNat (hsame x hx y hy h)
  rw [List.map_map] at hperm
  have heq := (congrArg List.sum hd).trans hperm.sum_eq
  refine ⟨heq, ?_⟩
  calc ((distinct [bs] d).map fun p => d * p.2.toNat).sum
      = (((runs Block.cksum bs).filter fun r => r.2 = d).map fun r => r.1.size.toNat * r.2).sum :=
        heq.symm
    _ ≤ ((runs Block.cksum bs).map fun r => r.1.size.toNat * r.2).sum :=
        (List.filter_sublist.map _).sum_le_sum fun _ _ => Nat.zero_le _
    _ = sizeOf bs := by
        simp only [Nat.mul_comm _ (Prod.snd _)]
        exact hsum

/-- The counter of checksums, once the block before the first is taken off again. -/
theorem blkCount_runs (hadj : Contiguous Block.cksum bs) (hsame : SizesAgree bs)
    (hlen : bs.length < 2 ^ 64) (x : Block) (d : UInt64) :
    (((((x, 1) :: runs Block.cksum bs).foldl (fun m r => m.add (.ofNat r.2) 1)
        (∅ : Counts)).add 1 (-1)).getD d 0).toNat = (distinct [bs] d.toNat).length := by
  have hperm := runs_distinct hadj hsame d.toNat
  have hle : (distinct [bs] d.toNat).length ≤ bs.length := by
    rw [← hperm.length_eq, List.length_map, ← List.length_map (f := Prod.fst)]
    exact (runs_sublist hadj d.toNat).length_le
  have hget := getD_runs hadj (fun ck => (countOf_le bs ck).trans_lt hlen) x (fun _ => 1) d
  have hone : (1 : UInt64).toNat = 1 := rfl
  rw [List.map_const', List.sum_replicate_nat, ← List.length_map (f := fun r => r.1.content),
    hperm.length_eq, hone, Nat.mul_one] at hget
  rw [Counts.getD_add]
  split
  · -- the block before the first was counted with `d = 1`
    rename_i h1
    rw [if_pos h1] at hget
    have hneg : (-1 : UInt64).toNat = 2 ^ 64 - 1 := rfl
    rw [UInt64.toNat_add, hget, hneg]
    omega
  · rename_i h1
    rw [if_neg h1, Nat.zero_add, Nat.mod_eq_of_lt (hle.trans_lt hlen)] at hget
    exact hget

/-- The counter of their bytes with duplicates; the block before the first has none. -/
theorem sizeCount_runs (hadj : Contiguous Block.cksum bs) (hsame : SizesAgree bs)
    (hlen : bs.length < 2 ^ 64) (htotal : sizeOf bs < 2 ^ 64) {x : Block} (hx : x.size = 0)
    (d : UInt64) :
    ((((x, 1) :: runs Block.cksum bs).foldl
        (fun m r => m.add (.ofNat r.2) (r.1.size.toUInt64 * .ofNat r.2)) (∅ : Counts)).getD d 0).toNat =
      ((distinct [bs] d.toNat).map fun p => d.toNat * p.2.toNat).sum := by
  obtain ⟨heq, hle⟩ := sum_multiple hadj hsame d.toNat
  have hget := getD_runs hadj (fun ck => (countOf_le bs ck).trans_lt hlen) x
    (fun r => r.1.size.toUInt64 * .ofNat r.2) d
  have hzero : (x.size.toUInt64 * UInt64.ofNat 1).toNat = 0 := by
    rw [hx]
    rfl
  -- no product overflows, as their sum does not
  have hprod : ((runs Block.cksum bs).filter fun r => r.2 = d.toNat).map
        (fun r => (r.1.size.toUInt64 * UInt64.ofNat r.2).toNat) =
      ((runs Block.cksum bs).filter fun r => r.2 = d.toNat).map fun r => r.1.size.toNat * r.2 := by
    apply List.map_congr_left
    intro r hr
    have hmem := List.le_sum_of_mem (List.mem_map_of_mem (f := fun r => r.1.size.toNat * r.2) hr)
    have hr2 := UInt64.toNat_ofNat_of_lt'
      (runs_lt hadj (fun ck => (countOf_le bs ck).trans_lt hlen) r (List.mem_of_mem_filter hr))
    rw [heq] at hmem
    rw [UInt64.toNat_mul, UInt32.toNat_toUInt64, hr2]
    exact Nat.mod_eq_of_lt ((hmem.trans hle).trans_lt htotal)
  rw [hzero, ite_self, Nat.zero_add, hprod, heq] at hget
  rw [hget]
  exact Nat.mod_eq_of_lt (hle.trans_lt htotal)

/-- And without. -/
theorem dedupCount_runs (hadj : Contiguous Block.cksum bs) (hsame : SizesAgree bs)
    (hlen : bs.length < 2 ^ 64) (htotal : sizeOf bs < 2 ^ 64) {x : Block} (hx : x.size = 0)
    (d : UInt64) :
    ((((x, 1) :: runs Block.cksum bs).foldl (fun m r => m.add (.ofNat r.2) r.1.size.toUInt64)
        (∅ : Counts)).getD d 0).toNat = ((distinct [bs] d.toNat).map fun p => p.2.toNat).sum := by
  obtain ⟨heq, hle⟩ := sum_distinct hadj hsame d.toNat
  have hget := getD_runs hadj (fun ck => (countOf_le bs ck).trans_lt hlen) x
    (fun r => r.1.size.toUInt64) d
  have hzero : x.size.toUInt64.toNat = 0 := by
    rw [hx]
    rfl
  rw [hzero, ite_self, Nat.zero_add] at hget
  simp only [UInt32.toNat_toUInt64, heq] at hget
  rw [hget]
  exact Nat.mod_eq_of_lt (hle.trans_lt htotal)

/-- **`count` computes the histogram**: after the blocks and a zero-sized one, and once the
zero-sized block before the first is taken off again, the counters hold for each `d` the
number of checksums that occur `d` times, and their bytes with and without duplicates. -/
theorem count_histogram (threshold : Option UInt64) (lastBlk z : Block) (bs : List Block)
    (hne : bs ≠ []) (hbs : ∀ b ∈ bs, b.Proper) (hadj : Contiguous Block.cksum bs)
    (hsame : SizesAgree bs) (htotal : sizeOf bs < 2 ^ 64) (hz : z.size = 0) (d : UInt64) :
    let c := (bs ++ [z]).foldl (count threshold) (.start lastBlk)
    ((c.blkCount.add 1 (-1)).getD d 0).toNat = (distinct [bs] d.toNat).length ∧
      (c.sizeCount.getD d 0).toNat = ((distinct [bs] d.toNat).map fun p => d.toNat * p.2.toNat).sum ∧
      (c.dedupCount.getD d 0).toNat = ((distinct [bs] d.toNat).map fun p => p.2.toNat).sum := by
  intro c
  have hlen : bs.length < 2 ^ 64 := (length_le_sizeOf fun b hb => (hbs b hb).ne_zero).trans_lt htotal
  -- what is written down, counter by counter
  have hw := foldl_count_start threshold lastBlk hne hbs hz
  rw [Written.foldl_add] at hw
  set x : Block := { lastBlk with size := 0 }
  have hblk : c.blkCount = ((x, 1) :: runs Block.cksum bs).foldl
      (fun m r => m.add (.ofNat r.2) 1) ∅ := congrArg Written.blkCount hw
  have hsize : c.sizeCount = ((x, 1) :: runs Block.cksum bs).foldl
      (fun m r => m.add (.ofNat r.2) (r.1.size.toUInt64 * .ofNat r.2)) ∅ :=
    congrArg Written.sizeCount hw
  have hdedup : c.dedupCount = ((x, 1) :: runs Block.cksum bs).foldl
      (fun m r => m.add (.ofNat r.2) r.1.size.toUInt64) ∅ := congrArg Written.dedupCount hw
  rw [hblk, hsize, hdedup]
  exact ⟨blkCount_runs hadj hsame hlen x d, sizeCount_runs hadj hsame hlen htotal rfl d,
    dedupCount_runs hadj hsame hlen htotal rfl d⟩

/-- Two checksums that come twice, and one that comes once. -/
theorem count_histogram_five :
    let c := ([1, 1, 2, 3, 3].map blockEnding ++ [default]).foldl (count none) (.start default)
    ((c.blkCount.add 1 (-1)).getD 2 0).toNat = 2 ∧ (c.sizeCount.getD 2 0).toNat = 16384 ∧
      (c.dedupCount.getD 2 0).toNat = 8192 := by
  refine count_histogram none default default ([1, 1, 2, 3, 3].map blockEnding) (by decide)
    (proper_ending _) (.of_sorted ?_) ?_ (by decide) rfl 2
  · decide
  · unfold SizesAgree
    decide

/-! ## The output -/

/-- **The output is the blocks that reach the threshold**: one record for each of their
checksums, in order, which is a block of the checksum with the number of its blocks as the
offset. -/
def CdsWritten (t : UInt64) (bs : List Block) (os : List UInt8) : Prop :=
  ∃ recs : List Block, os = recs.flatMap Block.toStream ∧
    (recs.map Block.cksum).Pairwise (· < ·) ∧
    (∀ ck, ck ∈ recs.map Block.cksum ↔ ck ∈ bs.map Block.cksum ∧ t.toNat ≤ countOf bs ck) ∧
    ∀ r ∈ recs, r.offset.toNat = countOf bs r.cksum ∧ ∃ b ∈ bs, r = { b with offset := r.offset }

/-- What is written: a record of the block before the first, then those of the runs. -/
theorem foldl_count_os (threshold : Option UInt64) (lastBlk : Block) (hne : bs ≠ [])
    (hbs : ∀ b ∈ bs, b.Proper) (hz : z.size = 0) :
    ((bs ++ [z]).foldl (count threshold) (.start lastBlk)).os =
      runRecord threshold ({ lastBlk with size := 0 }, 1) ++
        (runs Block.cksum bs).flatMap (runRecord threshold) := by
  have hw := foldl_count_start threshold lastBlk hne hbs hz
  rw [Written.foldl_add] at hw
  exact congrArg Written.os hw

theorem flatMap_runRecord (t : UInt64) (rs : List (Block × ℕ)) :
    rs.flatMap (runRecord (some t)) = (rs.filter fun r => t ≤ UInt64.ofNat r.2).flatMap
      fun r => { r.1 with offset := UInt64.ofNat r.2 }.toStream := by
  induction rs with
  | nil => rfl
  | cons r rs ih =>
    rw [List.flatMap_cons, ih, runRecord, Option.any_some]
    by_cases ht : t ≤ UInt64.ofNat r.2
    · rw [if_pos (decide_eq_true ht), List.filter_cons_of_pos (by simpa using ht), List.flatMap_cons]
    · rw [if_neg (by simpa using ht), List.filter_cons_of_neg (by simpa using ht), List.nil_append]

/-- The runs that reach the threshold. -/
theorem runs_written (t : UInt64) (hsorted : bs.Pairwise fun a b => a.cksum ≤ b.cksum)
    (hcount : ∀ ck, countOf bs ck < 2 ^ 64) :
    CdsWritten t bs ((runs Block.cksum bs).flatMap (runRecord (some t))) := by
  have hadj := Contiguous.of_sorted hsorted
  obtain ⟨-, -, hmem, hlen⟩ := runs_spec hadj
  have hlt := runs_lt hadj hcount
  -- `dup_count` is the length of the run
  have hle : ∀ r ∈ runs Block.cksum bs, t ≤ UInt64.ofNat r.2 ↔ t.toNat ≤ countOf bs r.1.cksum := by
    intro r hr
    rw [UInt64.le_iff_toNat_le, UInt64.toNat_ofNat_of_lt' (hlt r hr), hlen r hr]
    rfl
  refine ⟨((runs Block.cksum bs).filter fun r => t ≤ UInt64.ofNat r.2).map
    fun r => { r.1 with offset := UInt64.ofNat r.2 }, ?_, ?_, ?_, ?_⟩
  · rw [List.flatMap_map]
    exact flatMap_runRecord t _
  · rw [List.map_map]
    exact (runs_sorted hsorted).sublist (List.filter_sublist.map _)
  · intro ck
    rw [List.map_map, List.mem_map]
    constructor
    · rintro ⟨r, hr, rfl⟩
      obtain ⟨hr, ht⟩ := List.mem_filter.1 hr
      exact ⟨(hmem _).1 (List.mem_map_of_mem hr), (hle r hr).1 (of_decide_eq_true ht)⟩
    · rintro ⟨hck, ht⟩
      obtain ⟨r, hr, rfl⟩ := List.mem_map.1 ((hmem ck).2 hck)
      exact ⟨r, List.mem_filter.2 ⟨hr, decide_eq_true ((hle r hr).2 ht)⟩, rfl⟩
  · intro b hb
    obtain ⟨r, hin, rfl⟩ := List.mem_map.1 hb
    have hr := List.mem_of_mem_filter hin
    refine ⟨?_, r.1, mem_of_mem_runs hadj hr, rfl⟩
    exact (UInt64.toNat_ofNat_of_lt' (hlt r hr)).trans (hlen r hr)

/-- No record is zero-sized. -/
theorem CdsWritten.ne_zero {t : UInt64} {os : List UInt8} (h : CdsWritten t bs os)
    (hbs : ∀ b ∈ bs, b.Proper) {x : Block} {rest : List UInt8} (hx : os = x.toStream ++ rest) :
    x.size ≠ 0 := by
  obtain ⟨recs, hos, -, -, hrecs⟩ := h
  rcases recs with - | ⟨r, recs⟩
  · have hlen := congrArg List.length (hx.symm.trans hos)
    rw [List.length_append, Block.length_toStream] at hlen
    simp [recordSize] at hlen
  · rw [hx, List.flatMap_cons] at hos
    have hr := Block.toStream_injective (List.append_inj_left hos (by simp))
    obtain ⟨-, b, hb, heq⟩ := hrecs r (.head _)
    rw [hr, heq]
    exact (hbs b hb).ne_zero

/-- With the threshold one, the zero-sized block before the first is written. -/
theorem not_cdsWritten_start (t : UInt64) (ht : ¬ 2 ≤ t) (lastBlk : Block) (hne : bs ≠ [])
    (hbs : ∀ b ∈ bs, b.Proper) (hz : z.size = 0) :
    ¬ CdsWritten t bs ((bs ++ [z]).foldl (count (some t)) (.start lastBlk)).os := by
  intro h
  have h1 : runRecord (some t) ({ lastBlk with size := 0 }, 1) =
      Block.toStream { lastBlk with size := 0, offset := 1 } := by
    apply if_pos
    rw [Option.any_some, decide_eq_true_eq]
    rw [UInt64.le_iff_toNat_le] at ht ⊢
    exact Nat.le_of_lt_succ (not_le.1 ht)
  rw [foldl_count_os (some t) lastBlk hne hbs hz] at h
  exact h.ne_zero hbs (congrArg (· ++ _) h1) rfl

/-- A number of blocks that is written is a `uint64_t`. -/
theorem CdsWritten.countOf_lt {t : UInt64} {os : List UInt8} (h : CdsWritten t bs os)
    (ck : Checksum) : countOf bs ck < 2 ^ 64 := by
  obtain ⟨recs, -, -, hmem, hrecs⟩ := h
  by_contra hlt
  have hin : ck ∈ bs.map Block.cksum := by
    by_contra hnot
    exact hlt ((List.count_eq_zero.2 hnot).trans_lt (Nat.two_pow_pos 64))
  have hge := t.toNat_lt.le.trans (not_lt.1 hlt)
  obtain ⟨r, hr, rfl⟩ := List.mem_map.1 ((hmem ck).2 ⟨hin, hge⟩)
  rw [← (hrecs r hr).1] at hlt
  exact hlt (UInt64.toNat_lt _)

/-- **When the output is the blocks that reach the threshold**: the threshold is not one, and
no checksum occurs `2 ^ 64` times. -/
theorem cdsWritten_iff (t : UInt64) (lastBlk z : Block) (bs : List Block) (hne : bs ≠ [])
    (hbs : ∀ b ∈ bs, b.Proper) (hsorted : bs.Pairwise fun a b => a.cksum ≤ b.cksum)
    (hz : z.size = 0) :
    CdsWritten t bs ((bs ++ [z]).foldl (count (some t)) (.start lastBlk)).os ↔
      2 ≤ t ∧ ∀ ck, countOf bs ck < 2 ^ 64 := by
  constructor
  · intro h
    refine ⟨?_, h.countOf_lt⟩
    by_contra h2
    exact not_cdsWritten_start t h2 lastBlk hne hbs hz h
  · rintro ⟨h2, hcount⟩
    have h0 : runRecord (some t) ({ lastBlk with size := 0 }, 1) = [] := by
      apply if_neg
      rw [Option.any_some, decide_eq_true_eq]
      rw [UInt64.le_iff_toNat_le] at h2 ⊢
      exact Nat.not_le_of_lt h2
    rw [foldl_count_os (some t) lastBlk hne hbs hz, h0, List.nil_append]
    exact runs_written t hsorted hcount

/-- The same blocks, with the threshold two. -/
theorem cdsWritten_five :
    CdsWritten 2 ([1, 1, 2, 3, 3].map blockEnding)
      (([1, 1, 2, 3, 3].map blockEnding ++ [default]).foldl (count (some 2)) (.start default)).os := by
  refine (cdsWritten_iff 2 default default ([1, 1, 2, 3, 3].map blockEnding) (by decide)
    (proper_ending _) (by decide) rfl).2 ⟨by decide, ?_⟩
  intro ck
  exact (countOf_le _ ck).trans_lt (by decide)

/-- One block, with the threshold one. -/
theorem not_cdsWritten_one :
    ¬ CdsWritten 1 ([1].map blockEnding)
      (([1].map blockEnding ++ [default]).foldl (count (some 1)) (.start default)).os :=
  not_cdsWritten_start 1 (by decide) default (by decide) (proper_ending [1]) rfl

end Merge

end DedupSim
