import DedupSim.Lib.PrefixCode
import DedupSim.Proof.Segment

/-!
# The encoding of segments

* `Block.code`, `Segment.code`: the records and the lists of records as prefix codes.
* `fromStream_some`, `fromStream_none`, `fromStreamAll_eq`: `FromStream` reads the lists of
  that code and builds the segments of them.
* `toStream_fromStream`: **what was written is read back, and what is accepted was
  written**, up to the first segment that is cut off.
-/

namespace DedupSim

open LittleEndian

variable {sha1 : List UInt8 → Checksum} {seg : Segment} {is rest : List UInt8} {bs : List Block}
  {n : ℕ}

/-- The code of records. -/
def Block.code : PrefixCode Block UInt8 where
  encode := Block.toStream
  decode is :=
    match Block.fromStream is with
    | (none, _) => none
    | (some b, rest) => some (b, rest)
  pos b := by
    rw [Block.length_toStream]
    exact Nat.succ_pos _
  decode_encode b rest := by simp only [Block.fromStream_toStream]
  encode_decode := by
    intro is b rest h
    rcases hr : Block.fromStream is with ⟨_ | b', rest'⟩
    · simp only [hr] at h
      cases h
    · simp only [hr] at h
      cases h
      exact Block.fromStream_some hr

theorem Block.code_some {b : Block} (h : Block.code.decode is = some (b, rest)) :
    Block.fromStream is = (some b, rest) := by
  rw [Block.code.encode_decode h]
  exact Block.fromStream_toStream b rest

theorem Block.code_none (h : Block.code.decode is = none) : ∃ rest, Block.fromStream is = (none, rest) := by
  rcases hr : Block.fromStream is with ⟨_ | b, rest⟩
  · exact ⟨rest, rfl⟩
  · simp only [Block.code, hr] at h
    cases h

theorem Block.code_fixedWidth : Block.code.FixedWidth recordSize := by
  refine ⟨Block.length_toStream, ?_⟩
  intro is hle hnone
  obtain ⟨rest, hr⟩ := Block.code_none hnone
  exact absurd (Block.fromStream_none hr).1 (not_lt.2 hle)

namespace Segment

/-- The code of the lists of blocks of segments. -/
def code : PrefixCode {bs : List Block // bs.length < 256 ^ 4} UInt8 :=
  Block.code.counted 4 (by decide)

/-- What `ToStream` writes. -/
theorem toStream_ofBlocks (sha1 : List UInt8 → Checksum) (bs : {bs : List Block // bs.length < 256 ^ 4}) :
    (ofBlocks sha1 bs.1).toStream = code.encode bs := by
  have hlen : (UInt32.ofNat bs.1.length).toNat = bs.1.length := by
    rw [UInt32.toNat_ofNat']
    exact Nat.mod_eq_of_lt bs.2
  simp only [toStream, ofBlocks_blocklist, hlen, List.take_length]
  rfl

/-- The loop of `FromStream` adds the blocks that it reads. -/
theorem addFromStream_some (h : Block.code.decodeN n is = some (bs, rest)) :
    addFromStream n seg is = (true, seg.addBlocks bs, rest) := by
  induction n generalizing seg is bs with
  | zero =>
    cases h
    rfl
  | succ n ih =>
    rcases hd : Block.code.decode is with - | ⟨b, is'⟩
    · rw [Block.code.decodeN_succ_none hd] at h
      cases h
    · rw [Block.code.decodeN_succ hd] at h
      obtain ⟨⟨bs', rest'⟩, hn, heq⟩ := Option.map_eq_some_iff.1 h
      cases heq
      simp only [addFromStream, Block.code_some hd]
      exact ih hn

theorem addFromStream_none (h : Block.code.decodeN n is = none) :
    (addFromStream n seg is).1 = false := by
  induction n generalizing seg is with
  | zero => cases h
  | succ n ih =>
    rcases hd : Block.code.decode is with - | ⟨b, is'⟩
    · obtain ⟨rest, hr⟩ := Block.code_none hd
      simp only [addFromStream, hr]
    · rw [Block.code.decodeN_succ hd, Option.map_eq_none_iff] at h
      simp only [addFromStream, Block.code_some hd]
      exact ih h

/-- **`FromStream` builds the segment of the blocks that it reads**, whatever the old
segment was. -/
theorem fromStream_some {bs : {bs : List Block // bs.length < 256 ^ 4}}
    (h : code.decode is = some (bs, rest)) (seg : Segment) :
    fromStream sha1 seg is = (true, ofBlocks sha1 bs.1, rest) := by
  have his := code.encode_decode h
  change is = (leBytes 4 bs.1.length ++ bs.1.flatMap Block.toStream) ++ rest at his
  rw [List.append_assoc] at his
  have htake : is.take 4 = leBytes 4 bs.1.length := by
    rw [his]
    exact List.take_left' (length_leBytes _ _)
  have hdrop : is.drop 4 = bs.1.flatMap Block.toStream ++ rest := by
    rw [his]
    exact List.drop_left' (length_leBytes _ _)
  have hadd : addFromStream bs.1.length seg.init (bs.1.flatMap Block.toStream ++ rest) =
      (true, seg.init.addBlocks bs.1, rest) :=
    addFromStream_some (Block.code.decodeN_encode bs.1 rest)
  simp only [fromStream, htake, hdrop, length_leBytes, ne_eq, not_true_eq_false, if_false,
    leNat_leBytes bs.2, hadd, final_addBlocks]

theorem fromStream_none (h : code.decode is = none) (seg : Segment) :
    (fromStream sha1 seg is).1 = false := by
  simp only [fromStream]
  split
  · rfl
  · rename_i hlen
    rw [not_not] at hlen
    have hshort := (Block.code_fixedWidth.counted_eq_none 4 (by decide)).1 h
    have hnone : Block.code.decodeN (leNat (is.take 4)) (is.drop 4) = none := by
      rw [Block.code_fixedWidth.decodeN_eq_none, List.length_drop]
      rw [List.length_take] at hlen
      omega
    have hfalse : (addFromStream (leNat (is.take 4)) seg.init (is.drop 4)).1 = false :=
      addFromStream_none hnone
    split
    · rename_i hadd
      rw [hadd] at hfalse
      cases hfalse
    · rfl

/-- **The loop** reads the lists of the code. -/
theorem fromStreamAll_eq (sha1 : List UInt8 → Checksum) (is : List UInt8) :
    ∀ seg, fromStreamAll sha1 seg is =
      ((code.decodeAll is).1.map fun bs => ofBlocks sha1 bs.1, (code.decodeAll is).2) := by
  induction h : is.length using Nat.strong_induction_on generalizing is with
  | _ n ih =>
    subst h
    intro seg
    rcases hd : code.decode is with - | ⟨bs, rest⟩
    · rw [fromStreamAll_false (fromStream_none hd seg), code.decodeAll_none hd]
      rfl
    · rw [fromStreamAll_true (fromStream_some hd seg), code.decodeAll_some hd,
        ih _ (code.lt_of_decode hd) rest rfl]
      rfl

/-- **What is read back.** Segments of lists of blocks are read back as they were. -/
theorem fromStreamAll_ofBlocks (sha1 : List UInt8 → Checksum) (seg : Segment)
    (bss : List (List Block)) (hlen : ∀ bs ∈ bss, bs.length < 2 ^ 32) :
    fromStreamAll sha1 seg ((bss.map (ofBlocks sha1)).flatMap toStream) =
      (bss.map (ofBlocks sha1), []) := by
  obtain ⟨codes, rfl⟩ : ∃ codes : List {bs : List Block // bs.length < 256 ^ 4},
      codes.map Subtype.val = bss :=
    ⟨bss.attachWith _ hlen, List.attachWith_map_subtype_val hlen⟩
  have henc : (fun bs => ((ofBlocks sha1 ∘ Subtype.val) bs).toStream) = code.encode :=
    funext (toStream_ofBlocks sha1)
  have hall := code.decodeAll_flatMap codes code.decode_nil
  rw [List.append_nil] at hall
  rw [List.map_map, List.flatMap_map, henc, fromStreamAll_eq, hall]
  rfl

/-- What is read is what was written: the segments that are accepted, and a rest that no
call accepts. -/
theorem toStream_fromStreamAll (sha1 : List UInt8 → Checksum) (seg : Segment) (is : List UInt8) :
    (fromStreamAll sha1 seg is).1.flatMap toStream ++ (fromStreamAll sha1 seg is).2 = is ∧
      code.decode (fromStreamAll sha1 seg is).2 = none := by
  have henc : (fun bs => (ofBlocks sha1 bs.1).toStream) = code.encode :=
    funext (toStream_ofBlocks sha1)
  obtain ⟨hall, hnone⟩ := code.encode_decodeAll is
  rw [fromStreamAll_eq]
  refine ⟨?_, hnone⟩
  rw [List.flatMap_map, henc]
  exact hall

/-- **Round trip and acceptance.** A list of segments that `Init`, `AddBlock` and `Final`
have built is read back as it was; and what is read of any bytes are the segments at their
front, up to the first that is cut off. -/
theorem toStream_fromStream (sha1 : List UInt8 → Checksum) (seg : Segment) :
    (∀ segs : List Segment,
        (∀ s ∈ segs, ∃ (s₀ : Segment) (bs : List Block), bs.length < 2 ^ 32 ∧
          s = (bs.foldl addBlock s₀.init).final sha1) →
        fromStreamAll sha1 seg (segs.flatMap toStream) = (segs, [])) ∧
      ∀ is : List UInt8,
        (fromStreamAll sha1 seg is).1.flatMap toStream ++ (fromStreamAll sha1 seg is).2 = is ∧
          (fromStreamAll sha1 seg is).2.length <
            4 + recordSize * leNat ((fromStreamAll sha1 seg is).2.take 4) ∧
          ∀ seg', (fromStream sha1 seg' (fromStreamAll sha1 seg is).2).1 = false := by
  refine ⟨?_, ?_⟩
  · intro segs hsegs
    -- the segments are those of their blocks
    have hblocks : ∀ s ∈ segs, s.blocklist.length < 2 ^ 32 ∧ ofBlocks sha1 s.blocklist = s := by
      intro s hs
      obtain ⟨s₀, bs, hlen, rfl⟩ := hsegs s hs
      have heq : (bs.foldl addBlock s₀.init).final sha1 = ofBlocks sha1 bs :=
        final_addBlocks sha1 s₀ bs
      rw [heq, ofBlocks_blocklist]
      exact ⟨hlen, rfl⟩
    have hmap : (segs.map blocklist).map (ofBlocks sha1) = segs := by
      rw [List.map_map]
      exact (List.map_congr_left fun s hs => (hblocks s hs).2).trans (List.map_id segs)
    have hread := fromStreamAll_ofBlocks sha1 seg (segs.map blocklist) (by
      intro bs hbs
      obtain ⟨s, hs, rfl⟩ := List.mem_map.1 hbs
      exact (hblocks s hs).1)
    rwa [hmap] at hread
  · intro is
    obtain ⟨hall, hnone⟩ := toStream_fromStreamAll sha1 seg is
    exact ⟨hall, (Block.code_fixedWidth.counted_eq_none 4 (by decide)).1 hnone,
      fromStream_none hnone⟩

/-- A segment of two blocks, twice. -/
theorem toStream_fromStream_two :
    fromStreamAll (fun _ => default) default
        ((List.replicate 2 (([default, default].foldl addBlock (default : Segment).init).final
          fun _ => default)).flatMap toStream) =
      (List.replicate 2 (([default, default].foldl addBlock (default : Segment).init).final
        fun _ => default), []) := by
  refine (toStream_fromStream (fun _ => default) default).1 _ ?_
  intro s hs
  exact ⟨default, [default, default], by decide, List.eq_of_mem_replicate hs⟩

end Segment

end DedupSim
