import DedupSim.Lib.FirstMin
import DedupSim.Proof.ExtremeBinning

/-!
# The min-hash of a segment

* `addBlocks_isFirstMin`: `AddBlock` keeps the index of the first least checksum.
* `minHash_addBlocks`: **the index, and what segments are routed and grouped by.**
-/

namespace DedupSim

namespace Segment

variable {seg : Segment} {bs : List Block} {b x : Block}

/-- **One block more.** -/
theorem addBlock_isFirstMin
    (h : IsFirstMin Block.cksum seg.blocklist seg.minIdx.toNat b)
    (hlen : seg.blocklist.length < 2 ^ 32) (x : Block) :
    ∃ b', IsFirstMin Block.cksum (seg.addBlock x).blocklist (seg.addBlock x).minIdx.toNat b' := by
  have hget : (seg.blocklist ++ [x]).getD seg.minIdx.toNat x = b := by
    rw [List.getD_eq_getElem?_getD, List.getElem?_append_left h.lt_length, h.getElem?,
      Option.getD_some]
  simp only [addBlock, hget, List.length_append, List.length_singleton, Nat.add_sub_cancel]
  by_cases hx : x.cksum < b.cksum
  · rw [if_pos hx, UInt32.toNat_ofNat_of_lt' hlen]
    exact ⟨x, h.snoc_lt hx⟩
  · rw [if_neg hx]
    exact ⟨b, h.snoc_le (not_lt.1 hx)⟩

theorem addBlocks_keeps_isFirstMin (bs : List Block)
    (h : IsFirstMin Block.cksum seg.blocklist seg.minIdx.toNat b)
    (hlen : seg.blocklist.length + bs.length ≤ 2 ^ 32) :
    ∃ b', IsFirstMin Block.cksum (seg.addBlocks bs).blocklist
      (seg.addBlocks bs).minIdx.toNat b' := by
  induction bs generalizing seg b with
  | nil => exact ⟨b, h⟩
  | cons x bs ih =>
    rw [List.length_cons] at hlen
    obtain ⟨b1, h1⟩ := addBlock_isFirstMin h (by omega) x
    apply ih h1
    have hlist : (seg.addBlock x).blocklist.length = seg.blocklist.length + 1 :=
      List.length_append
    omega

/-- The first block is the minimum of a segment that was reset. -/
theorem init_addBlock_isFirstMin (seg : Segment) (x : Block) :
    IsFirstMin Block.cksum (seg.init.addBlock x).blocklist (seg.init.addBlock x).minIdx.toNat x := by
  have hidx : (seg.init.addBlock x).minIdx = 0 := if_neg (lt_irrefl x.cksum)
  rw [hidx]
  exact isFirstMin_singleton Block.cksum x

/-- `AddBlock` keeps the index of the first least checksum. -/
theorem addBlocks_isFirstMin (seg : Segment) (hne : bs ≠ []) (hlen : bs.length < 2 ^ 32) :
    ∃ b, IsFirstMin Block.cksum bs (seg.init.addBlocks bs).minIdx.toNat b ∧
      (seg.init.addBlocks bs).minHash? = some b.cksum := by
  have hlist : (seg.init.addBlocks bs).blocklist = bs := addBlocks_blocklist seg.init bs
  obtain ⟨b, hb⟩ : ∃ b, IsFirstMin Block.cksum (seg.init.addBlocks bs).blocklist
      (seg.init.addBlocks bs).minIdx.toNat b := by
    rcases bs with - | ⟨x, bs⟩
    · exact absurd rfl hne
    · apply addBlocks_keeps_isFirstMin bs (init_addBlock_isFirstMin seg x)
      rw [List.length_cons] at hlen
      change 1 + bs.length ≤ 2 ^ 32
      omega
  have hmin : (seg.init.addBlocks bs).minHash? = some b.cksum := by
    unfold minHash?
    rw [hb.getElem?, Option.map_some]
  rw [hlist] at hb
  exact ⟨b, hb, hmin⟩

theorem getMinHash_eq {k : Checksum} (h : seg.minHash? = some k) : seg.getMinHash = k := by
  unfold getMinHash
  rw [h, Option.getD_some]

/-- **`eb_segment` and `eb_dedup` read no min-hash outside a vector.** -/
theorem FromLogs.minHash? {sha1 : List UInt8 → Checksum} {segs : List Segment}
    (h : FromLogs sha1 segs) : ∀ t ∈ segs, t.minHash? = some t.getMinHash := by
  intro t ht
  obtain ⟨hne, heq, hlt, hsize⟩ := h t ht
  obtain ⟨b, -, hmin⟩ := addBlocks_isFirstMin (default : Segment) hne
    ((length_le_sizeOf hsize).trans_lt hlt)
  have hread : t.minHash? = some b.cksum := by
    rw [← heq]
    exact hmin
  rw [getMinHash_eq hread, hread]

/-- **The min-hash.** Whatever the segment object held before, the index is that of the
first least checksum; segments of the same checksums have one min-hash, partition and
key; and segments have one key exactly if their least checksums are equal. -/
theorem minHash_addBlocks (seg seg' : Segment) (bs bs' : List Block) (hne : bs ≠ [])
    (hne' : bs' ≠ []) (hlen : bs.length < 2 ^ 32) (hlen' : bs'.length < 2 ^ 32) :
    IsLeast {i | ∃ b, bs[i]? = some b ∧ ∀ b' ∈ bs, b.cksum ≤ b'.cksum}
        (seg.init.addBlocks bs).minIdx.toNat ∧
      IsLeast {k | k ∈ bs.map Block.cksum} (seg.init.addBlocks bs).getMinHash ∧
      ((∀ k, k ∈ bs.map Block.cksum ↔ k ∈ bs'.map Block.cksum) →
        (seg.init.addBlocks bs).getMinHash = (seg'.init.addBlocks bs').getMinHash ∧
        (seg.init.addBlocks bs).partition = (seg'.init.addBlocks bs').partition ∧
        (seg.init.addBlocks bs).getMinHash.toString =
          (seg'.init.addBlocks bs').getMinHash.toString) ∧
      ∀ least least', IsLeast {k | k ∈ bs.map Block.cksum} least →
        IsLeast {k | k ∈ bs'.map Block.cksum} least' →
        ((seg.init.addBlocks bs).getMinHash.toString =
          (seg'.init.addBlocks bs').getMinHash.toString ↔ least = least') := by
  obtain ⟨b, hb, hread⟩ := addBlocks_isFirstMin seg hne hlen
  obtain ⟨b', hb', hread'⟩ := addBlocks_isFirstMin seg' hne' hlen'
  have hmin := getMinHash_eq hread
  have hmin' := getMinHash_eq hread'
  refine ⟨hb.isLeast, hmin ▸ hb.isLeast_key, ?_, ?_⟩
  · intro hset
    have hsets : {k | k ∈ bs.map Block.cksum} = {k | k ∈ bs'.map Block.cksum} :=
      Set.ext hset
    have hleast := hb.isLeast_key
    rw [hsets] at hleast
    have heq : (seg.init.addBlocks bs).getMinHash = (seg'.init.addBlocks bs').getMinHash := by
      rw [hmin, hmin']
      exact hleast.unique hb'.isLeast_key
    refine ⟨heq, ?_, congrArg Checksum.toString heq⟩
    exact partition_eq (congrArg Checksum.toString heq)
  · intro least least' hleast hleast'
    rw [Checksum.toString_injective.eq_iff, hmin, hmin', hb.isLeast_key.unique hleast,
      hb'.isLeast_key.unique hleast']

/-- A block twice, and once, added to a segment that holds two blocks. -/
theorem minHash_twice :
    let seg := (default : Segment).addBlocks [default, default]
    IsLeast {i | ∃ b, [default, default][i]? = some b ∧
          ∀ b' ∈ [default, default], Block.cksum b ≤ Block.cksum b'}
        (seg.init.addBlocks [default, default]).minIdx.toNat ∧
      (seg.init.addBlocks [default, default]).getMinHash.toString =
        (seg.init.addBlocks [default]).getMinHash.toString := by
  intro seg
  have h := minHash_addBlocks seg seg [default, default] [default] (List.cons_ne_nil _ _)
    (List.cons_ne_nil _ _) (by decide) (by decide)
  exact ⟨h.1, (h.2.2.1 fun k => by simp).2.2⟩

end Segment

end DedupSim
