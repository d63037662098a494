import DedupSim.Spec.Segment
import Mathlib.Algebra.BigOperators.Group.List.Basic

/-!
# Loading segments

* `segmentsOf`: a log's blocks cut into segments, each the shortest run of blocks
  that reaches 2 MB; empty blocks are dropped. `mem_segmentsOf`: what each is.
* `Segment.loadAll_eq`: **the loading loop cuts any log so**, while sizes are below
  `2 ^ 31`.
-/

namespace DedupSim

variable {rd : RecordReader} {sha1 : List UInt8 → Checksum} {seg : Segment} {is : List UInt8}
  {bs rest : List Block} {b : Block} {acc : ℕ}

/-- The bytes of a list of blocks. -/
def sizeOf (bs : List Block) : ℕ := (bs.map fun b => b.size.toNat).sum

@[simp] theorem sizeOf_nil : sizeOf [] = 0 := rfl

@[simp] theorem sizeOf_cons (b : Block) (bs : List Block) :
    sizeOf (b :: bs) = b.size.toNat + sizeOf bs := by
  simp [sizeOf]

@[simp] theorem sizeOf_append (bs bs' : List Block) : sizeOf (bs ++ bs') = sizeOf bs + sizeOf bs' := by
  simp [sizeOf]

/-- The number of blocks of a checksum. -/
def countOf (records : List Block) (c : Checksum) : ℕ := (records.map Block.cksum).count c

theorem countOf_le (bs : List Block) (c : Checksum) : countOf bs c ≤ bs.length :=
  List.count_le_length.trans_eq (List.length_map _)

/-- Equal checksums have equal sizes. -/
def SizesAgree (bs : List Block) : Prop := ∀ a ∈ bs, ∀ b ∈ bs, a.cksum = b.cksum → a.size = b.size

/-- The blocks that fill a segment of `acc` bytes, and the blocks after them. -/
def takeSegment (acc : ℕ) : List Block → List Block × List Block
  | [] => ([], [])
  | b :: bs =>
    if b.size = 0 then takeSegment acc bs
    else if fixSegmentSize ≤ acc + b.size.toNat then ([b], bs)
    else (b :: (takeSegment (acc + b.size.toNat) bs).1, (takeSegment (acc + b.size.toNat) bs).2)

theorem takeSegment_length (acc : ℕ) (bs : List Block) :
    (takeSegment acc bs).1.length + (takeSegment acc bs).2.length ≤ bs.length := by
  induction bs generalizing acc with
  | nil => simp [takeSegment]
  | cons b bs ih =>
    unfold takeSegment
    rw [List.length_cons]
    split
    · have := ih acc
      omega
    · split
      · simp; omega
      · have := ih (acc + b.size.toNat)
        simp only [List.length_cons]
        omega

/-- The segments of a list of blocks. -/
def segmentsOf (bs : List Block) : List (List Block) :=
  if (takeSegment 0 bs).1 = [] then []
  else (takeSegment 0 bs).1 :: segmentsOf (takeSegment 0 bs).2
termination_by bs.length
decreasing_by
  rename_i h
  have := takeSegment_length 0 bs
  have := List.length_pos_iff.2 h
  omega

theorem takeSegment_ne_zero (acc : ℕ) (bs : List Block) : ∀ b ∈ (takeSegment acc bs).1, b.size ≠ 0 := by
  induction bs generalizing acc with
  | nil => simp [takeSegment]
  | cons b bs ih =>
    unfold takeSegment
    split
    · exact ih acc
    · rename_i hb
      split
      · simpa using hb
      · simp only [List.mem_cons, forall_eq_or_imp]
        exact ⟨hb, ih _⟩

theorem takeSegment_lt (h31 : ∀ b ∈ bs, b.size.toNat < 2 ^ 31) (hacc : acc < fixSegmentSize) :
    acc + sizeOf (takeSegment acc bs).1 < fixSegmentSize + 2 ^ 31 := by
  induction bs generalizing acc with
  | nil => exact Nat.lt_add_right _ hacc
  | cons b bs ih =>
    have hb := h31 b (by simp)
    have hbs : ∀ b ∈ bs, b.size.toNat < 2 ^ 31 := fun b h => h31 b (by simp [h])
    unfold takeSegment
    split
    · exact ih hbs hacc
    · split
      · rw [sizeOf_cons, sizeOf_nil]
        omega
      · have := ih hbs (not_le.1 ‹_›)
        simp only [sizeOf_cons]
        omega

theorem takeSegment_mem (acc : ℕ) (bs : List Block) :
    (∀ b ∈ (takeSegment acc bs).1, b ∈ bs) ∧ ∀ b ∈ (takeSegment acc bs).2, b ∈ bs := by
  induction bs generalizing acc with
  | nil => simp [takeSegment]
  | cons b bs ih =>
    unfold takeSegment
    split
    · exact ⟨fun x hx => .tail _ ((ih acc).1 x hx), fun x hx => .tail _ ((ih acc).2 x hx)⟩
    · split
      · simp +contextual
      · refine ⟨?_, fun x hx => .tail _ ((ih _).2 x hx)⟩
        intro x hx
        rcases List.mem_cons.1 hx with rfl | hx
        · exact .head _
        · exact .tail _ ((ih _).1 x hx)

/-- A segment is what `takeSegment` takes off some of the blocks. -/
theorem mem_segmentsOf {s : List Block} (h : s ∈ segmentsOf bs) :
    ∃ bs', (∀ b ∈ bs', b ∈ bs) ∧ s = (takeSegment 0 bs').1 ∧ s ≠ [] := by
  induction bs using segmentsOf.induct with
  | case1 bs h0 =>
    unfold segmentsOf at h
    rw [if_pos h0] at h
    cases h
  | case2 bs h0 ih =>
    unfold segmentsOf at h
    rw [if_neg h0] at h
    rcases List.mem_cons.1 h with rfl | h
    · exact ⟨bs, fun _ hb => hb, rfl, h0⟩
    · obtain ⟨bs', hsub, hs, hne⟩ := ih h
      exact ⟨bs', fun b hb => (takeSegment_mem 0 bs).2 b (hsub b hb), hs, hne⟩

/-- No segment is empty. -/
theorem segmentsOf_ne_nil (bs : List Block) : ∀ s ∈ segmentsOf bs, s ≠ [] := by
  intro s hs
  obtain ⟨-, -, -, hne⟩ := mem_segmentsOf hs
  exact hne

/-- A segment takes its blocks off the front, up to empty ones. -/
theorem takeSegment_filter (acc : ℕ) (bs : List Block) :
    (takeSegment acc bs).1 ++ (takeSegment acc bs).2.filter (fun b => b.size ≠ 0) =
      bs.filter fun b => b.size ≠ 0 := by
  induction bs generalizing acc with
  | nil => rfl
  | cons b bs ih =>
    unfold takeSegment
    split
    · rename_i hb
      rw [List.filter_cons_of_neg (by simpa using hb)]
      exact ih acc
    · rename_i hb
      rw [List.filter_cons_of_pos (by simpa using hb)]
      split
      · rfl
      · rw [List.cons_append, ih]

/-- No block is taken only when none is left. -/
theorem takeSegment_nil (acc : ℕ) (bs : List Block) (h : (takeSegment acc bs).1 = []) :
    (takeSegment acc bs).2 = [] := by
  induction bs generalizing acc with
  | nil => rfl
  | cons b bs ih =>
    rw [takeSegment] at h ⊢
    split at h
    · rw [if_pos ‹_›]
      exact ih acc h
    · split at h <;> cases h

/-- **The segments hold the blocks that are not empty, in order.** -/
theorem segmentsOf_flatten (bs : List Block) :
    (segmentsOf bs).flatten = bs.filter fun b => b.size ≠ 0 := by
  induction bs using segmentsOf.induct with
  | case1 bs h0 =>
    have hf := takeSegment_filter 0 bs
    rw [h0, takeSegment_nil 0 bs h0] at hf
    unfold segmentsOf
    rw [if_pos h0]
    exact hf
  | case2 bs h0 ih =>
    unfold segmentsOf
    rw [if_neg h0, List.flatten_cons, ih, takeSegment_filter 0 bs]

/-- Blocks that are not empty are no more than their bytes. -/
theorem length_le_sizeOf (hne : ∀ b ∈ bs, b.size ≠ 0) : bs.length ≤ sizeOf bs := by
  induction bs with
  | nil => exact le_rfl
  | cons b bs ih =>
    have hb : b.size.toNat ≠ 0 := fun h => hne b (.head _) (UInt32.toNat_inj.1 h)
    have := ih fun b hb => hne b (.tail _ hb)
    rw [List.length_cons, sizeOf_cons]
    omega

theorem segmentsOf_lt (h31 : ∀ b ∈ bs, b.size.toNat < 2 ^ 31) :
    ∀ s ∈ segmentsOf bs, sizeOf s < fixSegmentSize + 2 ^ 31 := by
  intro s hs
  obtain ⟨bs', hsub, rfl, -⟩ := mem_segmentsOf hs
  have hlt := takeSegment_lt (fun b hb => h31 b (hsub b hb)) (show 0 < fixSegmentSize by decide)
  rwa [Nat.zero_add] at hlt

/-- Blocks that fill a segment exactly, or are the last, are its blocks. -/
theorem takeSegment_exact (hne : ∀ b ∈ bs, b.size ≠ 0) (hacc : acc < fixSegmentSize)
    (hle : acc + sizeOf bs ≤ fixSegmentSize) (hend : acc + sizeOf bs < fixSegmentSize → rest = []) :
    takeSegment acc (bs ++ rest) = (bs, rest) := by
  induction bs generalizing acc with
  | nil =>
    rw [hend hacc]
    rfl
  | cons b bs ih =>
    have hb := hne b (by simp)
    have hbs : ∀ b ∈ bs, b.size ≠ 0 := fun b h => hne b (by simp [h])
    rw [sizeOf_cons] at hle hend
    rw [List.cons_append, takeSegment, if_neg hb]
    by_cases hfull : fixSegmentSize ≤ acc + b.size.toNat
    · rw [if_pos hfull]
      rcases bs with - | ⟨b', bs⟩
      · rfl
      · -- one more block would pass 2 MB
        have hb' : b'.size.toNat ≠ 0 := fun h => hbs b' (by simp) (UInt32.toNat_inj.1 h)
        rw [sizeOf_cons] at hle
        omega
    · rw [if_neg hfull, ih hbs (by omega) (by omega) (fun h => hend (by omega))]

/-- Fewer bytes than 2 MB are one segment. -/
theorem segmentsOf_single (hnil : bs ≠ []) (hne : ∀ b ∈ bs, b.size ≠ 0)
    (hlt : sizeOf bs < fixSegmentSize) : segmentsOf bs = [bs] := by
  have htake : takeSegment 0 (bs ++ []) = (bs, []) :=
    takeSegment_exact hne (show 0 < fixSegmentSize by decide) (by omega) fun _ => rfl
  rw [List.append_nil] at htake
  unfold segmentsOf
  rw [htake, if_neg hnil]
  unfold segmentsOf
  rw [takeSegment, if_pos rfl]

/-! ## The logs of two versions -/

/-- The digest of nothing. -/
def emptyDigest : Checksum :=
  ⟨[0xda, 0x39, 0xa3, 0xee, 0x5e, 0x6b, 0x4b, 0x0d, 0x32, 0x55, 0xbf, 0xef, 0x95, 0x60, 0x18, 0x90,
    0xaf, 0xd8, 0x07, 0x09], rfl⟩

/-- The digests of the bytes 7, 7 and of 8, 8, of the digests in the two logs below, joined, and
of nothing. -/
def pairsDigest (m : List UInt8) : Checksum :=
  if m = [7, 7] then
    ⟨[0x7f, 0x76, 0x1f, 0x6a, 0xf1, 0xc7, 0x44, 0x9e, 0xa6, 0x67, 0x86, 0xfa, 0x42, 0x07, 0x99, 0x07,
      0x98, 0xde, 0xa3, 0x09], rfl⟩
  else if m = [8, 8] then
    ⟨[0x1d, 0xb5, 0xbb, 0x39, 0x1c, 0x3b, 0x0b, 0xfa, 0x54, 0xfc, 0x1a, 0x69, 0x4c, 0x3e, 0x8e, 0xbb,
      0x22, 0x40, 0x37, 0xa6], rfl⟩
  else if m.length = 60 then
    ⟨[0xeb, 0x85, 0x2b, 0x98, 0x0a, 0x3c, 0xf9, 0xfb, 0xcb, 0xbe, 0x4c, 0x7d, 0xb6, 0xf6, 0x55, 0x66,
      0xbb, 0xcb, 0x1f, 0xcf], rfl⟩
  else if m.length = 40 then
    ⟨[0x5f, 0x9f, 0xde, 0x60, 0x15, 0xbc, 0x9f, 0xd9, 0x6e, 0xbf, 0x80, 0x09, 0xc7, 0x3e, 0xf3, 0x2e,
      0x18, 0x84, 0xe8, 0x68], rfl⟩
  else emptyDigest

/-- The log of 7, 7, 7, 7 when it is cut every two bytes. -/
def olderLog : List Block := [⟨2, 0, 0, pairsDigest [7, 7]⟩, ⟨2, 0, 2, pairsDigest [7, 7]⟩]

/-- The log of a newer version, 7, 7, 8, 8, 7, 7. -/
def newerLog : List Block :=
  [⟨2, 0, 0, pairsDigest [7, 7]⟩, ⟨2, 0, 2, pairsDigest [8, 8]⟩, ⟨2, 0, 4, pairsDigest [7, 7]⟩]

theorem pairs_segments : segmentsOf olderLog = [olderLog] ∧ segmentsOf newerLog = [newerLog] :=
  ⟨segmentsOf_single (by decide) (by decide) (by decide),
    segmentsOf_single (by decide) (by decide) (by decide)⟩

/-! ## The loader -/

namespace Segment

/-- `AddBlock` for each block. -/
def addBlocks (seg : Segment) (bs : List Block) : Segment := bs.foldl addBlock seg

theorem addBlocks_blocklist (seg : Segment) (bs : List Block) :
    (seg.addBlocks bs).blocklist = seg.blocklist ++ bs := by
  induction bs generalizing seg with
  | nil => simp [addBlocks]
  | cons b bs ih =>
    have := ih (seg.addBlock b)
    simpa [addBlocks, addBlock] using this

theorem addBlocks_ctx (seg : Segment) (bs : List Block) :
    (seg.addBlocks bs).ctx = seg.ctx ++ bs.flatMap fun b => b.cksum.data := by
  induction bs generalizing seg with
  | nil => simp [addBlocks]
  | cons b bs ih =>
    have := ih (seg.addBlock b)
    simpa [addBlocks, addBlock] using this

theorem addBlocks_size (seg : Segment) (bs : List Block) (h : seg.size.toNat + sizeOf bs < 2 ^ 32) :
    (seg.addBlocks bs).size.toNat = seg.size.toNat + sizeOf bs := by
  induction bs generalizing seg with
  | nil => simp [addBlocks]
  | cons b bs ih =>
    rw [sizeOf_cons] at h ⊢
    have hs : (seg.addBlock b).size.toNat = seg.size.toNat + b.size.toNat := by
      unfold addBlock
      rw [UInt32.toNat_add]
      omega
    have := ih (seg.addBlock b) (by omega)
    unfold addBlocks
    rw [List.foldl_cons, ← addBlocks, this, hs]
    omega

/-- The segment of a list of blocks. -/
def ofBlocks (sha1 : List UInt8 → Checksum) (bs : List Block) : Segment :=
  ((default : Segment).init.addBlocks bs).final sha1

@[simp] theorem ofBlocks_blocklist (sha1 : List UInt8 → Checksum) (bs : List Block) :
    (ofBlocks sha1 bs).blocklist = bs := by
  change ((default : Segment).init.addBlocks bs).blocklist = bs
  rw [addBlocks_blocklist]
  rfl

@[simp] theorem ofBlocks_cksum (sha1 : List UInt8 → Checksum) (bs : List Block) :
    (ofBlocks sha1 bs).cksum = sha1 (bs.flatMap fun b => b.cksum.data) := by
  change sha1 ((default : Segment).init.addBlocks bs).ctx = _
  rw [addBlocks_ctx]
  rfl

/-- A new segment depends on its blocks only. -/
theorem final_addBlocks (sha1 : List UInt8 → Checksum) (seg : Segment) (bs : List Block) :
    (seg.init.addBlocks bs).final sha1 = ofBlocks sha1 bs := by
  have h : ∀ s t : Segment, s.final sha1 = t.final sha1 →
      (s.addBlocks bs).final sha1 = (t.addBlocks bs).final sha1 := by
    induction bs with
    | nil => exact fun s t h => h
    | cons b bs ih =>
      rintro ⟨_, _, _, _, _⟩ ⟨_, _, _, _, _⟩ h
      simp only [final, Segment.mk.injEq] at h
      obtain ⟨rfl, rfl, rfl, rfl, -⟩ := h
      exact ih _ _ rfl
  exact h _ _ rfl

/-- **The loading loop**, from a segment below 2 MB: it takes the blocks that fill it. -/
theorem loadBlocks_eq (rd : RecordReader) (is : List UInt8) :
    ∀ seg : Segment, seg.size.toNat < fixSegmentSize →
      (∀ b ∈ rd.readAll is, b.size.toNat < 2 ^ 31) →
      (loadBlocks rd seg is).1 = seg.addBlocks (takeSegment seg.size.toNat (rd.readAll is)).1 ∧
        rd.readAll (loadBlocks rd seg is).2 = (takeSegment seg.size.toNat (rd.readAll is)).2 := by
  induction h : is.length using Nat.strong_induction_on generalizing is with
  | _ n ih =>
    subst h
    intro seg hseg h31
    rcases hr : rd.read is with ⟨_ | b, rest⟩
    · rw [loadBlocks_none hr, rd.readAll_none hr]
      exact ⟨rfl, rd.readAll_none (Prod.ext (rd.fail hr) rfl)⟩
    · have hall := rd.readAll_some hr
      rw [hall] at h31 ⊢
      have hb := h31 b (by simp)
      have hrest : ∀ b ∈ rd.readAll rest, b.size.toNat < 2 ^ 31 := fun b h => h31 b (by simp [h])
      have hs : (seg.addBlock b).size.toNat = seg.size.toNat + b.size.toNat := by
        unfold fixSegmentSize at hseg
        unfold addBlock
        rw [UInt32.toNat_add]
        omega
      rw [loadBlocks_some hr, takeSegment]
      by_cases h0 : b.size = 0
      · -- the loop drops the block
        rw [if_pos h0, if_pos h0]
        exact ih _ (rd.lt hr) rest rfl seg hseg hrest
      rw [if_neg h0, if_neg h0, hs]
      by_cases hfull : fixSegmentSize ≤ seg.size.toNat + b.size.toNat
      · -- the block fills the segment
        rw [if_pos hfull, if_pos hfull]
        exact ⟨rfl, rfl⟩
      · rw [if_neg hfull, if_neg hfull]
        have := ih _ (rd.lt hr) rest rfl (seg.addBlock b) (by omega) hrest
        rw [hs] at this
        exact this

/-- **One load**: whether it succeeds, its segment, and the blocks it leaves. -/
theorem loadWith_eq (rd : RecordReader) (sha1 : List UInt8 → Checksum) (seg : Segment)
    (is : List UInt8) (h31 : ∀ b ∈ rd.readAll is, b.size.toNat < 2 ^ 31) :
    ((loadWith rd sha1 seg is).1 = true ↔ (takeSegment 0 (rd.readAll is)).1 ≠ []) ∧
      (loadWith rd sha1 seg is).2.1 = ofBlocks sha1 (takeSegment 0 (rd.readAll is)).1 ∧
      rd.readAll (loadWith rd sha1 seg is).2.2 = (takeSegment 0 (rd.readAll is)).2 := by
  obtain ⟨h1, h2⟩ := loadBlocks_eq rd is seg.init (show 0 < fixSegmentSize by decide) h31
  change _ = seg.init.addBlocks (takeSegment 0 (rd.readAll is)).1 at h1
  -- the last block may pass 2 MB, but the size does not wrap around
  have hlt := takeSegment_lt h31 (show 0 < fixSegmentSize by decide)
  have hsize : (loadBlocks rd seg.init is).1.size.toNat = sizeOf (takeSegment 0 (rd.readAll is)).1 := by
    rw [h1, addBlocks_size]
    · exact Nat.zero_add _
    · unfold fixSegmentSize at hlt
      change 0 + _ < _
      omega
  refine ⟨?_, ?_, h2⟩
  · have hz : (loadBlocks rd seg.init is).1.size = 0 ↔ (takeSegment 0 (rd.readAll is)).1 = [] := by
      rw [← UInt32.toNat_inj, hsize]
      have hne := takeSegment_ne_zero 0 (rd.readAll is)
      rcases hl : (takeSegment 0 (rd.readAll is)).1 with _ | ⟨b, bs⟩
      · simp
      · rw [hl] at hne
        have hb : b.size.toNat ≠ 0 := fun h => hne b (by simp) (UInt32.toNat_inj.1 h)
        simp [hb]
    change (if (loadBlocks rd seg.init is).1.size = 0 then false else true) = true ↔ _
    rw [ne_eq, ← hz]
    split <;> simp_all
  · rw [← final_addBlocks sha1 seg, ← h1]
    rfl

/-- **What a load does to the segments that are left**: it takes the first one, unless there
is none. -/
theorem loadWith_cases (rd : RecordReader) (sha1 : List UInt8 → Checksum) (seg : Segment)
    {is : List UInt8} (h31 : ∀ b ∈ rd.readAll is, b.size.toNat < 2 ^ 31) :
    ((loadWith rd sha1 seg is).1 = false ∧ segmentsOf (rd.readAll is) = []) ∨
      ∃ s rest, loadWith rd sha1 seg is = (true, ofBlocks sha1 s, rest) ∧ s ≠ [] ∧
        segmentsOf (rd.readAll is) = s :: segmentsOf (rd.readAll rest) ∧
        ∀ b ∈ rd.readAll rest, b.size.toNat < 2 ^ 31 := by
  obtain ⟨hok, hseg, hrest⟩ := loadWith_eq rd sha1 seg is h31
  rcases hl : loadWith rd sha1 seg is with ⟨ok, seg', rest⟩
  rw [hl] at hok hseg hrest
  by_cases hnil : (takeSegment 0 (rd.readAll is)).1 = []
  · refine .inl ⟨?_, by rw [segmentsOf, if_pos hnil]⟩
    exact Bool.eq_false_iff.2 fun h => hok.1 h hnil
  · refine .inr ⟨_, rest, Prod.ext (hok.2 hnil) (Prod.ext hseg rfl), hnil, ?_, ?_⟩
    · rw [segmentsOf, if_neg hnil, hrest]
    · rw [hrest]
      exact fun b hb => h31 b ((takeSegment_mem 0 (rd.readAll is)).2 b hb)

/-- **Loading a whole log.** -/
theorem loadAll_eq (sha1 : List UInt8 → Checksum) (is : List UInt8) :
    ∀ seg, (∀ b ∈ Block.reader.readAll is, b.size.toNat < 2 ^ 31) →
      loadAll sha1 seg is = (segmentsOf (Block.reader.readAll is)).map (ofBlocks sha1) := by
  induction h : is.length using Nat.strong_induction_on generalizing is with
  | _ n ih =>
    subst h
    intro seg h31
    rcases loadWith_cases Block.reader sha1 seg h31 with ⟨hend, hnil⟩ | ⟨s, rest, hl, -, hsegs, h31r⟩
    · rw [loadAll_false hend, hnil]
      rfl
    · rw [loadAll_true hl, hsegs, List.map_cons, ih _ (loadWith_lt hl) rest rfl _ h31r]

/-- Together the segments hold the records that are not empty. -/
theorem loadAll_blocks (sha1 : List UInt8 → Checksum) (seg : Segment) {is : List UInt8}
    (h31 : ∀ b ∈ Block.reader.readAll is, b.size.toNat < 2 ^ 31) :
    (loadAll sha1 seg is).flatMap blocklist =
      (Block.reader.readAll is).filter fun b => b.size ≠ 0 := by
  rw [loadAll_eq sha1 is seg h31, ← segmentsOf_flatten, List.flatMap_map]
  simp only [ofBlocks_blocklist, List.flatMap_id']

/-- The segments of a log without empty blocks. -/
theorem loadAll_records (sha1 : List UInt8 → Checksum) (seg : Segment) {bs : List Block}
    (h31 : ∀ b ∈ bs, b.size.toNat < 2 ^ 31) (hne : ∀ b ∈ bs, b.size ≠ 0) :
    (loadAll sha1 seg (bs.flatMap Block.toStream)).flatMap blocklist = bs := by
  have hread := (readAll_records bs).1
  rw [loadAll_blocks sha1 seg (by rwa [hread]), hread, List.filter_eq_self]
  exact fun b hb => decide_eq_true (hne b hb)

/-- The segments of a log have a block or more, and less than `2 ^ 32` bytes. -/
theorem loadAll_mem (sha1 : List UInt8 → Checksum) (seg : Segment) {is : List UInt8}
    (h31 : ∀ b ∈ Block.reader.readAll is, b.size.toNat < 2 ^ 31) :
    ∀ t ∈ loadAll sha1 seg is, t.blocklist ≠ [] ∧ ofBlocks sha1 t.blocklist = t ∧
      sizeOf t.blocklist < 2 ^ 32 ∧ ∀ b ∈ t.blocklist, b.size ≠ 0 := by
  intro t ht
  rw [loadAll_eq sha1 is seg h31] at ht
  obtain ⟨s, hs, rfl⟩ := List.mem_map.1 ht
  rw [ofBlocks_blocklist]
  have hlt := segmentsOf_lt h31 s hs
  refine ⟨segmentsOf_ne_nil _ s hs, rfl, ?_, ?_⟩
  · unfold fixSegmentSize at hlt
    omega
  · intro b hb
    have hmem := List.mem_flatten.2 ⟨s, hs, hb⟩
    rw [segmentsOf_flatten] at hmem
    exact of_decide_eq_true (List.mem_filter.1 hmem).2

end Segment

end DedupSim
