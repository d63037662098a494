import DedupSim.Proof.CdsLru

/-!
# Two caches of CDS blocks

Two runs of `dedup_cds_lru` on the same files, with caches of two sizes, that start with
empty caches.

* `Accesses`: the accesses to blocks of the CDS, which are the same in both runs.
* `Follows`: what a cache is after them: a part of what was accessed last, and all of it
  or nearly its capacity.
* `cachesInclude_iff`: **when the larger cache holds the smaller one** after every block.
-/

namespace DedupSim

variable {so : Sorter Block.cksum} {sha1 : List UInt8 → Checksum}
  {pq : PriorityQueue CacheItem.time} {clock clock' : Clock} {cds : List Block} {b : Block}
  {st st' : CdsLruCache.State} {cap cap' : ℕ} {K : Finset Checksum}

open CdsLruCache

/-! ## Accesses -/

/-- The number of the last access to each block, and that of the next. -/
structure Accesses where
  last : Checksum → WithBot ℕ
  next : ℕ
  lt : ∀ k, last k < next
  inj : ∀ k j, last k = last j → last k ≠ ⊥ → k = j

namespace Accesses

/-- No access. -/
def none : Accesses where
  last := fun _ => ⊥
  next := 0
  lt := fun _ => WithBot.bot_lt_coe 0
  inj := fun _ _ _ h => absurd rfl h

variable {a : Accesses} {k x : Checksum}

theorem accessed_lt (h : ∀ k, a.last k < a.next) (k : Checksum) :
    accessed a.last x a.next k < (a.next + 1 : ℕ) := by
  refine lt_of_le_of_lt (accessed_le (fun k => (h k).le) k) ?_
  exact WithBot.coe_lt_coe.2 (Nat.lt_succ_self _)

theorem accessed_inj (h : ∀ k j, a.last k = a.last j → a.last k ≠ ⊥ → k = j) (k j : Checksum)
    (hkj : accessed a.last x a.next k = accessed a.last x a.next j)
    (hne : accessed a.last x a.next k ≠ ⊥) : k = j := by
  -- no access before this one has its number
  have hold : ∀ i, a.last i ≠ (a.next : WithBot ℕ) := fun i => (a.lt i).ne
  by_cases hk : k = x <;> by_cases hj : j = x
  · rw [hk, hj]
  · rw [hk, accessed_self, accessed_of_ne hj] at hkj
    exact absurd hkj.symm (hold j)
  · rw [hj, accessed_self, accessed_of_ne hk] at hkj
    exact absurd hkj (hold k)
  · rw [accessed_of_ne hk, accessed_of_ne hj] at hkj
    rw [accessed_of_ne hk] at hne
    exact h k j hkj hne

/-- An access to `x`. -/
def push (a : Accesses) (x : Checksum) : Accesses where
  last := accessed a.last x a.next
  next := a.next + 1
  lt := accessed_lt a.lt
  inj := accessed_inj a.inj

@[simp] theorem push_self (a : Accesses) (x : Checksum) : (a.push x).last x = a.next :=
  accessed_self

@[simp] theorem push_of_ne (a : Accesses) (h : k ≠ x) : (a.push x).last k = a.last k :=
  accessed_of_ne h

/-- Only blocks of `K` were accessed. -/
def Within (K : Finset Checksum) (a : Accesses) : Prop := ∀ k, a.last k ≠ ⊥ → k ∈ K

theorem Within.push (h : a.Within K) (x : Checksum) : (a.push x).Within (insert x K) := by
  intro k hk
  by_cases hkx : k = x
  · exact hkx ▸ Finset.mem_insert_self ..
  · rw [push_of_ne a hkx] at hk
    exact Finset.mem_insert_of_mem (h k hk)

/-- The times of the accesses by a clock that is read once for each. -/
theorem push_times (a : Accesses) (x : Checksum) (clock : Clock) :
    accessed (fun k => (a.last k).map clock) x (clock a.next) =
      fun k => ((a.push x).last k).map clock := by
  funext k
  by_cases hk : k = x
  · rw [hk, accessed_self, push_self]
    rfl
  · rw [accessed_of_ne hk, push_of_ne a hk]

end Accesses

/-! ## The cache of one run -/

/-- A block found in the cache. -/
def Block.InCache (b : Block) : Prop := b.fileId &&& inCdsCache = inCdsCache

/-- The cache after the accesses: it holds what was accessed last, and all that was
accessed unless it holds nearly its capacity. -/
structure Follows (clock : Clock) (cap : ℕ) (a : Accesses) (st : CdsLruCache.State) : Prop where
  ticks : st.2 = a.next
  recent : Recent st.1 (fun k => (a.last k).map clock) (clock a.next)
  capacity : st.1.capacity.toNat = cap
  le : st.1.cache.size ≤ cap
  kept : a.Within st.1.keySet ∨ cap + 1 - cap / 10 ≤ st.1.cache.size

namespace Follows

variable {a : Accesses}

theorem accessed_of_mem (h : Follows clock cap a st) {k : Checksum} (hk : k ∈ st.1.keySet) :
    a.last k ≠ ⊥ := by
  obtain ⟨it, hit, rfl⟩ := mem_keySet.1 hk
  have ht := h.recent.times it hit
  intro hbot
  rw [hbot] at ht
  cases ht

theorem isRecent (hclock : StrictMono clock) (h : Follows clock cap a st) :
    IsRecent st.1.keySet a.last := by
  intro k hk g hg
  have hle := h.recent.recent k hk g hg
  exact (WithBot.map_le_iff clock hclock.le_iff_le).1 hle

/-- **The larger cache holds the smaller one.** -/
theorem subset (hclock : StrictMono clock) (hclock' : StrictMono clock')
    (h : Follows clock cap a st) (h' : Follows clock' cap' a st')
    (hcap : cap ≤ cap' + 1 - cap' / 10) : st.1.keySet ⊆ st'.1.keySet := by
  rcases h'.kept with hall | hmany
  · exact fun k hk => hall k (h.accessed_of_mem hk)
  · refine (h.isRecent hclock).subset (h'.isRecent hclock') ?_ ?_
    · rw [card_keySet, card_keySet]
      exact h.le.trans (hcap.trans hmany)
    · exact fun k hk j _ hkj => a.inj k j hkj (h.accessed_of_mem hk)

/-- The time of the cached block is renewed. -/
theorem hit (hclock : Monotone clock) (h : Follows clock cap a st) (hk : b.cksum ∈ st.1.keySet) :
    Follows clock cap (a.push b.cksum) (st.1.setTime (clock st.2) b, st.2 + 1) := by
  have hnext : clock a.next ≤ clock (a.next + 1) := hclock (Nat.le_succ _)
  have hrec := h.recent.setTime b
  rw [Accesses.push_times] at hrec
  have hsize : (st.1.setTime (clock st.2) b).cache.size = st.1.cache.size :=
    size_setTime_of_mem hk
  refine ⟨by rw [h.ticks]; rfl, ?_, h.capacity, hsize.trans_le h.le, ?_⟩
  · rw [h.ticks]
    exact hrec.mono hnext
  · rw [keySet_setTime, hsize]
    exact h.kept.imp_left fun hall => hall.push b.cksum

/-- A block is added, and a tenth evicted if the cache was full. -/
theorem miss (pq : PriorityQueue CacheItem.time) (hclock : Monotone clock)
    (h : Follows clock cap a st) (hk : b.cksum ∉ st.1.keySet)
    (hroom : 10 ≤ cap ∨ st.1.cache.size < cap) :
    ∃ c, st.1.addItem pq (clock st.2) b = .ok c ∧
      Follows clock cap (a.push b.cksum) (c, st.2 + 1) := by
  have hnext : clock a.next ≤ clock (a.next + 1) := hclock (Nat.le_succ _)
  have hsize := size_setTime_of_notMem (clock st.2) hk
  have hcapacity := h.capacity
  have hle := h.le
  have hrec := h.recent.setTime b
  rw [Accesses.push_times] at hrec
  by_cases hlt : st.1.cache.size < cap
  · -- the block fits in
    have hok : st.1.addItem pq (clock st.2) b = .ok (st.1.setTime (clock st.2) b) := by
      rw [addItem, capacity_setTime, if_neg (by omega)]
    refine ⟨_, hok, by rw [h.ticks]; rfl, ?_, hcapacity, ?_, ?_⟩
    · rw [h.ticks]
      exact hrec.mono hnext
    · change (st.1.setTime (clock st.2) b).cache.size ≤ cap
      omega
    · change _ ∨ _ ≤ (st.1.setTime (clock st.2) b).cache.size
      rw [keySet_setTime]
      exact h.kept.imp (fun hall => hall.push b.cksum) (by omega)
  · have hcap10 : 10 ≤ cap := hroom.resolve_right hlt
    obtain ⟨c, hok, hcap', -, hsize', hrec'⟩ := addItem_ok pq st.1 (clock st.2) b (by omega)
    have hevict : c.cache.size = cap + 1 - cap / 10 := by omega
    have hrecent := hrec' _ (h.ticks ▸ h.recent)
    refine ⟨c, hok, by rw [h.ticks]; rfl, ?_, by rw [hcap', hcapacity], ?_, .inr hevict.ge⟩
    · rw [h.ticks, Accesses.push_times] at hrecent
      exact hrecent.mono hnext
    · change c.cache.size ≤ cap
      omega

end Follows

/-! ## Both runs -/

theorem Block.Marked.inCache (h : b.Marked) :
    { b with fileId := b.fileId ||| inCdsCache }.InCache ∧
      ¬ { b with fileId := b.fileId ||| inCds }.InCache ∧ ¬ b.InCache := by
  have hbits : ∀ f : UInt32, f = 0 ∨ f = inParent ∨ f = inDirtySeg →
      (f ||| inCdsCache) &&& inCdsCache = inCdsCache ∧ ¬ (f ||| inCds) &&& inCdsCache = inCdsCache ∧
        ¬ f &&& inCdsCache = inCdsCache := by
    rintro f (rfl | rfl | rfl) <;> decide
  exact hbits b.fileId h

/-- The accesses after level 3 on a block, when `K` are the checksums of the CDS. -/
def Accesses.level (K : Finset Checksum) (a : Accesses) (b : Block) : Accesses :=
  if b.cksum ∈ K then a.push b.cksum else a

theorem Accesses.Within.level {a : Accesses} (h : a.Within K) (b : Block) :
    (a.level K b).Within K := by
  unfold Accesses.level
  split
  · rename_i hb
    have := h.push b.cksum
    rwa [Finset.insert_eq_of_mem hb] at this
  · exact h

/-- **One block in one run.** -/
theorem Follows.level (pq : PriorityQueue CacheItem.time) (hclock : Monotone clock)
    (hcds : cds.Pairwise fun a b => a.cksum ≤ b.cksum) {a : Accesses}
    (h : Follows clock cap a st) (ha : a.Within K) (hroom : 10 ≤ cap ∨ K.card ≤ cap)
    (hb : b.Marked) (hbK : b.cksum ∈ K ↔ b.cksum ∈ cds.map Block.cksum) :
    ∃ st' b', cacheLevel pq clock cds st b = .ok (st', b') ∧ Follows clock cap (a.level K b) st' ∧
      (b'.InCache ↔ b.cksum ∈ st.1.keySet) := by
  obtain ⟨hhit, hmiss, hout⟩ := hb.inCache
  unfold Accesses.level
  by_cases hk : b.cksum ∈ st.1.keySet
  · rw [if_pos (ha _ (h.accessed_of_mem hk))]
    exact ⟨_, _, cacheLevel_hit hk, h.hit hclock hk, iff_of_true hhit hk⟩
  by_cases hbc : b.cksum ∈ K
  · rw [if_pos hbc]
    set b1 : Block := { b with fileId := b.fileId ||| inCds } with hb1
    -- the cache and the new block are a part of `K`
    have hroom' : 10 ≤ cap ∨ st.1.cache.size < cap := by
      apply hroom.imp_right
      intro hcard
      have hsub : insert b.cksum st.1.keySet ⊆ K := by
        apply Finset.insert_subset hbc
        exact fun k hk => ha k (h.accessed_of_mem hk)
      have hle := Finset.card_le_card hsub
      rw [Finset.card_insert_of_notMem hk, card_keySet] at hle
      omega
    obtain ⟨c, hok, hfollows⟩ := h.miss (b := b1) pq hclock hk hroom'
    refine ⟨(c, st.2 + 1), b1, ?_, hfollows, iff_of_false hmiss hk⟩
    rw [cacheLevel_miss hcds hk (hbK.1 hbc), hok]
    rfl
  · rw [if_neg hbc]
    exact ⟨st, b, cacheLevel_out hcds hk (fun h => hbc (hbK.2 h)), h, iff_of_false hout hk⟩

/-- **The blocks of both runs.** -/
theorem cacheLevels_include (pq : PriorityQueue CacheItem.time) (hclock : StrictMono clock)
    (hclock' : StrictMono clock') (hcds : cds.Pairwise fun a b => a.cksum ≤ b.cksum)
    (hcap : cap ≤ cap' + 1 - cap' / 10) (hroom : 10 ≤ cap ∨ K.card ≤ cap)
    (hroom' : 10 ≤ cap' ∨ K.card ≤ cap') (bs : List Block) :
    ∀ (a : Accesses) (st st' : CdsLruCache.State), Follows clock cap a st →
      Follows clock' cap' a st' → a.Within K → (∀ b ∈ bs, b.Marked) →
      (∀ b ∈ bs, b.cksum ∈ K ↔ b.cksum ∈ cds.map Block.cksum) →
      ∃ st1 bs1 st2 bs2, cacheLevels pq clock cds st bs = .ok (st1, bs1) ∧
        cacheLevels pq clock' cds st' bs = .ok (st2, bs2) ∧
        List.Forall₂ (fun b1 b2 => b1.InCache → b2.InCache) bs1 bs2 ∧
        st1.1.keySet ⊆ st2.1.keySet := by
  induction bs with
  | nil =>
    intro a st st' h h' _ _ _
    exact ⟨st, [], st', [], rfl, rfl, .nil, h.subset hclock hclock' h' hcap⟩
  | cons b bs ih =>
    intro a st st' h h' ha hmarked hK
    have hsub := h.subset hclock hclock' h' hcap
    obtain ⟨st1, b1, hok, hf, hin⟩ := h.level pq hclock.monotone hcds ha hroom
      (hmarked b (.head _)) (hK b (.head _))
    obtain ⟨st2, b2, hok', hf', hin'⟩ := h'.level pq hclock'.monotone hcds ha hroom'
      (hmarked b (.head _)) (hK b (.head _))
    obtain ⟨st3, bs3, st4, bs4, hoks, hoks', hall, hsub'⟩ := ih (a.level K b) st1 st2 hf hf'
      (ha.level b) (fun b hb => hmarked b (.tail _ hb)) fun b hb => hK b (.tail _ hb)
    refine ⟨st3, b1 :: bs3, st4, b2 :: bs4, ?_, ?_, ?_, hsub'⟩
    · unfold cacheLevels
      rw [hok]
      change (cacheLevels pq clock cds st1 bs >>= _) = _
      rw [hoks]
      rfl
    · unfold cacheLevels
      rw [hok']
      change (cacheLevels pq clock' cds st2 bs >>= _) = _
      rw [hoks']
      rfl
    · exact .cons (fun hb1 => hin'.2 (hsub (hin.1 hb1))) hall

/-! ## A capacity below ten -/

/-- A new block that does not fit in is a fault. -/
theorem addItem_small {c c' : CdsLruCache} {tv : Timeval} (hcap : c.capacity.toNat < 10)
    (h : c.addItem pq tv b = .ok c') :
    c' = c.setTime tv b ∧ (c.setTime tv b).cache.size ≤ c.capacity.toNat := by
  have hzero : (c.capacity / 10).toNat = 0 := by
    rw [div_ten]
    omega
  simp only [addItem, capacity_setTime, hzero] at h
  split at h
  · rw [removeItems_zero pq (by omega)] at h
    cases h
  · cases h
    exact ⟨rfl, not_lt.1 ‹_›⟩

/-- What was seen of the CDS is cached. -/
theorem cacheLevel_small (hcds : cds.Pairwise fun a b => a.cksum ≤ b.cksum) {b' : Block}
    (hcap : st.1.capacity.toNat < 10) (hle : st.1.cache.size ≤ st.1.capacity.toNat)
    (h : cacheLevel pq clock cds st b = .ok (st', b')) :
    st'.1.capacity = st.1.capacity ∧ st'.1.cache.size ≤ st.1.capacity.toNat ∧
      st.1.keySet ⊆ st'.1.keySet ∧ (b.cksum ∈ cds.map Block.cksum → b.cksum ∈ st'.1.keySet) := by
  rcases cacheLevel_cases hcds h with ⟨hk, rfl, rfl⟩ | ⟨hk, hb, hadd, -, -⟩ | ⟨hk, hb, rfl, -⟩
  · refine ⟨rfl, ?_, subset_setTime _ _ b, fun _ => mem_keySet_setTime _ _ b⟩
    rwa [size_setTime_of_mem hk]
  · obtain ⟨heq, hsize⟩ := addItem_small hcap hadd
    rw [heq]
    exact ⟨rfl, hsize, subset_setTime _ _ _, fun _ => mem_keySet_setTime _ _ _⟩
  · exact ⟨rfl, hle, subset_rfl, fun h => absurd h hb⟩

theorem cacheLevels_small (hcds : cds.Pairwise fun a b => a.cksum ≤ b.cksum) (bs : List Block) :
    ∀ (st st' : CdsLruCache.State) (bs' : List Block), st.1.capacity.toNat < 10 →
      st.1.cache.size ≤ st.1.capacity.toNat →
      cacheLevels pq clock cds st bs = .ok (st', bs') →
      st'.1.cache.size ≤ st.1.capacity.toNat ∧ st.1.keySet ⊆ st'.1.keySet ∧
        ∀ b ∈ bs, b.cksum ∈ cds.map Block.cksum → b.cksum ∈ st'.1.keySet := by
  induction bs with
  | nil =>
    intro st st' bs' _ hle h
    cases h
    exact ⟨hle, subset_rfl, fun b hb => absurd hb List.not_mem_nil⟩
  | cons b bs ih =>
    intro st st' bs' hcap hle h
    obtain ⟨st1, b1, bs1, hb, hbs, rfl⟩ := cacheLevels_cons h
    obtain ⟨hcap1, hle1, hsub1, hin1⟩ := cacheLevel_small hcds hcap hle hb
    obtain ⟨hle2, hsub2, hin2⟩ := ih st1 st' bs1 (by rwa [hcap1]) (by rwa [hcap1]) hbs
    rw [hcap1] at hle2
    refine ⟨hle2, hsub1.trans hsub2, ?_⟩
    intro b' hb' hbc
    rcases List.mem_cons.1 hb' with rfl | hb'
    · exact hsub2 (hin1 hbc)
    · exact hin2 b' hb' hbc

/-! ## Inclusion -/

/-- The checksums of the CDS that occur in the snapshot's segments. -/
def cdsKeys (sha1 : List UInt8 → Checksum) (seg : Segment) (snapshot cds : List UInt8) :
    Finset Checksum :=
  (((Segment.loadAll sha1 seg snapshot).flatMap Segment.blocklist).map Block.cksum).toFinset.filter
    (· ∈ (Block.loader.readAll cds).map Block.cksum)

theorem mem_cdsKeys {seg : Segment} {snapshot cds : List UInt8} {k : Checksum} :
    k ∈ cdsKeys sha1 seg snapshot cds ↔
      k ∈ ((Segment.loadAll sha1 seg snapshot).flatMap Segment.blocklist).map Block.cksum ∧
        k ∈ (Block.loader.readAll cds).map Block.cksum := by
  unfold cdsKeys
  rw [Finset.mem_filter, List.mem_toFinset]

section Inclusion

variable (so : Sorter Block.cksum) (sha1 : List UInt8 → Checksum)
  (pq : PriorityQueue CacheItem.time) (clock clock' : Clock) (size size' : Int32)
  (seg seg' : Segment) (snapshot cds : List UInt8) (parent : Option (List UInt8))

/-- The blocks of a run after levels 1 and 2. -/
def runBlocks : List Block :=
  marked so sha1 parent.isSome seg' (parent.getD []) (Segment.loadAll sha1 seg snapshot)

/-- After every block the first run's cache is a part of the second's, and what is flagged
in the first is flagged in the second. -/
structure CachesInclude : Prop where
  flags : ∃ (c c' : List UInt8) (out out' : List Block),
    cdsLru so sha1 pq clock size seg seg' none snapshot cds parent =
        .ok (c, out.flatMap Block.toStream) ∧
      cdsLru so sha1 pq clock' size' seg seg' none snapshot cds parent =
        .ok (c', out'.flatMap Block.toStream) ∧
      List.Forall₂ (fun b b' => b.InCache → b'.InCache) out out'
  caches : ∀ n, ∃ st bs st' bs',
    cacheLevels pq clock (Block.loader.readAll cds) (CdsLruCache.new size, 0)
        ((runBlocks so sha1 seg seg' snapshot parent).take n) = .ok (st, bs) ∧
      cacheLevels pq clock' (Block.loader.readAll cds) (CdsLruCache.new size', 0)
        ((runBlocks so sha1 seg seg' snapshot parent).take n) = .ok (st', bs') ∧
      st.1.keySet ⊆ st'.1.keySet

end Inclusion

theorem follows_new (clock : Clock) {size : Int32} (hsize : 0 ≤ size) :
    Follows clock size.toInt.toNat Accesses.none (CdsLruCache.new size, 0) :=
  ⟨rfl, recent_new size _, capacity_toNat hsize, Nat.zero_le _, .inl fun _ h => absurd rfl h⟩

theorem runBlocks_cksum (so : Sorter Block.cksum) {seg : Segment} (seg' : Segment)
    {snapshot : List UInt8} (parent : Option (List UInt8)) :
    (runBlocks so sha1 seg seg' snapshot parent).map Block.cksum =
      ((Segment.loadAll sha1 seg snapshot).flatMap Segment.blocklist).map Block.cksum :=
  (marked_marked so sha1 _ _ _ _).2

theorem runBlocks_marked (so : Sorter Block.cksum) (sha1 : List UInt8 → Checksum) (seg seg' : Segment)
    (snapshot : List UInt8) (parent : Option (List UInt8)) :
    ∀ b ∈ runBlocks so sha1 seg seg' snapshot parent, b.Marked :=
  (marked_marked so sha1 _ _ _ _).1

/-- A cache for less than ten blocks has to hold all that occur. -/
theorem CachesInclude.card_le {size size' : Int32} {seg seg' : Segment} {snapshot cds : List UInt8}
    {parent : Option (List UInt8)}
    (hcds : (Block.loader.readAll cds).Pairwise fun a b => a.cksum ≤ b.cksum)
    (h : CachesInclude so sha1 pq clock clock' size size' seg seg' snapshot cds parent)
    (h0 : 0 ≤ size') (h10 : size'.toInt < 10) :
    ((cdsKeys sha1 seg snapshot cds).card : ℤ) ≤ size'.toInt := by
  obtain ⟨-, -, st, bs, -, hok, -⟩ := h.caches (runBlocks so sha1 seg seg' snapshot parent).length
  rw [List.take_length] at hok
  have hnat : (CdsLruCache.new size').capacity.toNat = size'.toInt.toNat := capacity_toNat h0
  have hle0 : (0 : ℤ) ≤ size'.toInt := Int32.le_iff_toInt_le.1 h0
  obtain ⟨hle, -, hin⟩ := cacheLevels_small hcds _ _ _ _ (by rw [hnat]; omega) (Nat.zero_le _) hok
  have hsub : cdsKeys sha1 seg snapshot cds ⊆ st.1.keySet := by
    intro k hk
    obtain ⟨hk1, hk2⟩ := mem_cdsKeys.1 hk
    rw [← runBlocks_cksum so seg' parent] at hk1
    obtain ⟨b, hb, rfl⟩ := List.mem_map.1 hk1
    exact hin b hb hk2
  have hcard := Finset.card_le_card hsub
  rw [card_keySet] at hcard
  have hle' : st.1.cache.size ≤ (CdsLruCache.new size').capacity.toNat := hle
  omega

/-- **When the larger cache holds the smaller one**: it is for ten blocks or more, or at
most nine of the CDS occur in the snapshot. -/
theorem cachesInclude_iff (so : Sorter Block.cksum) (sha1 : List UInt8 → Checksum)
    (pq : PriorityQueue CacheItem.time) (clock clock' : Clock) (hclock : StrictMono clock)
    (hclock' : StrictMono clock') (size size' : Int32) (hsize : 10 ≤ size)
    (hle : size.toInt ≤ size'.toInt + 1 - size'.toInt / 10) (seg seg' : Segment)
    (snapshot cds : List UInt8)
    (hcds : (Block.loader.readAll cds).Pairwise fun a b => a.cksum ≤ b.cksum)
    (parent : Option (List UInt8)) :
    CachesInclude so sha1 pq clock clock' size size' seg seg' snapshot cds parent ↔
      10 ≤ size' ∨ (cdsKeys sha1 seg snapshot cds).card ≤ 9 := by
  have h10 : (10 : ℤ) ≤ size.toInt := Int32.le_iff_toInt_le.1 hsize
  have h0' : (0 : Int32) ≤ size' := Int32.le_iff_toInt_le.2 (show (0 : ℤ) ≤ size'.toInt by omega)
  constructor
  · intro h
    rw [or_iff_not_imp_left, Int32.le_iff_toInt_le, not_le]
    intro hlt
    have hlt' : size'.toInt < 10 := hlt
    have := h.card_le hcds h0' hlt'
    omega
  · intro h
    have hroom : 10 ≤ size'.toInt.toNat ∨
        (cdsKeys sha1 seg snapshot cds).card ≤ size'.toInt.toNat := by
      refine h.imp ?_ (by omega)
      intro h
      have : (10 : ℤ) ≤ size'.toInt := Int32.le_iff_toInt_le.1 h
      omega
    have hmarked := runBlocks_marked so sha1 seg seg' snapshot parent
    have hK : ∀ b ∈ runBlocks so sha1 seg seg' snapshot parent,
        b.cksum ∈ cdsKeys sha1 seg snapshot cds ↔
          b.cksum ∈ (Block.loader.readAll cds).map Block.cksum := by
      intro b hb
      rw [mem_cdsKeys, ← runBlocks_cksum so seg' parent]
      exact and_iff_right (List.mem_map_of_mem hb)
    have hrun : ∀ bs : List Block, (∀ b ∈ bs, b ∈ runBlocks so sha1 seg seg' snapshot parent) →
        ∃ st1 bs1 st2 bs2,
          cacheLevels pq clock (Block.loader.readAll cds) (CdsLruCache.new size, 0) bs =
              .ok (st1, bs1) ∧
            cacheLevels pq clock' (Block.loader.readAll cds) (CdsLruCache.new size', 0) bs =
              .ok (st2, bs2) ∧
            List.Forall₂ (fun b1 b2 => b1.InCache → b2.InCache) bs1 bs2 ∧
            st1.1.keySet ⊆ st2.1.keySet := fun bs hbs =>
      cacheLevels_include pq hclock hclock' hcds (by omega) (.inl (by omega)) hroom bs Accesses.none
        _ _ (follows_new clock (Int32.le_trans (by decide) hsize)) (follows_new clock' h0')
        (fun _ h => absurd rfl h) (fun b hb => hmarked b (hbs b hb)) fun b hb => hK b (hbs b hb)
    refine ⟨?_, ?_⟩
    · obtain ⟨st1, bs1, st2, bs2, hok, hok', hall, -⟩ := hrun _ fun b hb => hb
      refine ⟨st1.1.save, st2.1.save, bs1, bs2, ?_, ?_, hall⟩
      · rw [cdsLru_eq]
        exact congrArg (Except.map _) hok
      · rw [cdsLru_eq]
        exact congrArg (Except.map _) hok'
    · intro n
      obtain ⟨st1, bs1, st2, bs2, hok, hok', -, hsub⟩ := hrun _ fun b hb => List.mem_of_mem_take hb
      exact ⟨st1, bs1, st2, bs2, hok, hok', hsub⟩

/-- Ten blocks in the order of their checksums. -/
def tenBlocks : List Block := (List.range 10).map fun i => blockEnding (UInt8.ofNat i)

theorem tenBlocks_sorted : tenBlocks.Pairwise fun a b => a.cksum ≤ b.cksum := by decide

/-- They in caches for ten and twenty. -/
theorem cachesInclude_twenty :
    CachesInclude (Sorter.merge Block.cksum) segmentDigest (.descending CacheItem.time) tickClock
        tickClock 10 20 default default (tenBlocks.flatMap Block.toStream)
        (tenBlocks.flatMap Block.toStream) none ↔
      10 ≤ (20 : Int32) ∨ (cdsKeys segmentDigest default (tenBlocks.flatMap Block.toStream)
        (tenBlocks.flatMap Block.toStream)).card ≤ 9 := by
  refine cachesInclude_iff (Sorter.merge Block.cksum) segmentDigest (.descending CacheItem.time)
    tickClock tickClock tickClock_strictMono tickClock_strictMono 10 20 (by decide) (by decide)
    default default _ _ ?_ none
  rw [(readAll_records tenBlocks).2]
  exact tenBlocks_sorted

/-- And in caches for ten and nine. -/
theorem not_cachesInclude_nine :
    ¬ CachesInclude (Sorter.merge Block.cksum) segmentDigest (.descending CacheItem.time) tickClock
      tickClock 10 9 default default (tenBlocks.flatMap Block.toStream)
      (tenBlocks.flatMap Block.toStream) none := by
  have hread := (readAll_records tenBlocks).2
  intro h
  have hle := h.card_le (by rw [hread]; exact tenBlocks_sorted) (by decide) (by decide)
  have hsub : (tenBlocks.map Block.cksum).toFinset ⊆
      cdsKeys segmentDigest default (tenBlocks.flatMap Block.toStream)
        (tenBlocks.flatMap Block.toStream) := by
    intro k hk
    rw [List.mem_toFinset] at hk
    refine mem_cdsKeys.2 ⟨?_, by rwa [hread]⟩
    rw [Segment.loadAll_records segmentDigest default (by decide) (by decide)]
    exact hk
  have hcard := Finset.card_le_card hsub
  have hnodup : (tenBlocks.map Block.cksum).Nodup := by decide
  rw [List.toFinset_card_of_nodup hnodup] at hcard
  change 10 ≤ _ at hcard
  change _ ≤ (9 : ℤ) at hle
  omega

end DedupSim
