import DedupSim.Lib.Run
import DedupSim.Spec.LruCache

/-!
# The cache of a parent's blocks

* `overwrites_eq`, `overwrites_fault`: the loop that replaces the oldest entries.
* `Added`, `Searched`: what `AddItems` and `SearchItem` are for, and `addItems_added`,
  `searchItem_searched`: **that they do it**, for a segment that fits in.
* `run_serves`: **so does every call of a run**, and the cache is `Tidy` between calls.
* `withinBounds_iff`: **when a run keeps to the bounds**: no segment has more blocks
  than fit in.
-/

namespace DedupSim

namespace LruCache

variable {so : Sorter LruCacheEntry.key} {timeSo : Sorter LruCacheEntry.age} {c c' : LruCache}
  {tv : Timeval} {seg : Segment} {cache : List LruCacheEntry} {k n : ℕ}

/-! ## The loop that overwrites -/

/-- The index of the entry that is `i` from the end. -/
theorem index_toNat (hlt : cache.length < 2 ^ 32) (hk : k ≤ cache.length) :
    (UInt64.ofNat cache.length - UInt64.ofNat k - 1).toNat =
      if k < cache.length then cache.length - k - 1 else 2 ^ 64 - 1 := by
  rw [UInt64.toNat_sub, UInt64.toNat_sub, UInt64.toNat_ofNat', UInt64.toNat_ofNat']
  change (2 ^ 64 - 1 + (2 ^ 64 - k % 2 ^ 64 + cache.length % 2 ^ 64) % 2 ^ 64) % 2 ^ 64 = _
  have hk' : k % 2 ^ 64 = k := Nat.mod_eq_of_lt (by omega)
  have hlen : cache.length % 2 ^ 64 = cache.length := Nat.mod_eq_of_lt (by omega)
  rw [hk', hlen]
  split
  · omega
  · omega

theorem overwrite_ok (hlt : cache.length < 2 ^ 32) (hk : k < cache.length) (blk : Block) :
    overwrite tv cache (blk, k) =
      .ok (cache.set (cache.length - k - 1) (.setValue blk tv)) := by
  simp only [overwrite]
  rw [index_toNat hlt hk.le, if_pos hk, if_pos (by omega)]

/-- One block too many. -/
theorem overwrite_fault (hlt : cache.length < 2 ^ 32) (blk : Block) :
    overwrite tv cache (blk, cache.length) = .error (.index (2 ^ 64 - 1)) := by
  simp only [overwrite]
  rw [index_toNat hlt le_rfl, if_neg (lt_irrefl _), if_neg (by omega)]

/-- **The loop**, from its round `k` on: it replaces the entries before the last `k`. -/
theorem overwrites_eq (tv : Timeval) (blks : List Block) :
    ∀ (k : ℕ) (cache : List LruCacheEntry), cache.length < 2 ^ 32 →
      k + blks.length ≤ cache.length →
      (blks.zipIdx k).foldlM (overwrite tv) cache =
        .ok (cache.take (cache.length - k - blks.length) ++
          ((blks.map fun blk => .setValue blk tv).reverse ++ cache.drop (cache.length - k))) := by
  induction blks with
  | nil =>
    intro k cache _ _
    rw [List.map_nil, List.reverse_nil, List.nil_append, List.length_nil, Nat.sub_zero,
      List.take_append_drop]
    rfl
  | cons blk blks ih =>
    intro k cache hlt hle
    rw [List.length_cons] at hle
    set i := cache.length - k - 1 with hi
    set ent := LruCacheEntry.setValue blk tv
    have htake : (cache.set i ent).take (cache.length - (k + 1) - blks.length) =
        cache.take (cache.length - (k + 1) - blks.length) := List.take_set_of_le (by omega)
    have hdrop : (cache.set i ent).drop (cache.length - (k + 1)) =
        ent :: cache.drop (cache.length - k) := by
      have hk : cache.length - k = i + 1 := by omega
      rw [← Nat.sub_sub, ← hi, List.drop_set, if_neg (lt_irrefl _), Nat.sub_self,
        List.drop_eq_getElem_cons (by omega), List.set_cons_zero, hk]
    have hsub : cache.length - (k + 1) - blks.length = cache.length - k - (blks.length + 1) := by
      omega
    rw [List.zipIdx_cons, List.foldlM_cons, overwrite_ok hlt (by omega)]
    change (blks.zipIdx (k + 1)).foldlM (overwrite tv) (cache.set i ent) = _
    rw [ih (k + 1) _ (by rwa [List.length_set]) (by rw [List.length_set]; omega), List.length_set,
      htake, hdrop, hsub, List.length_cons, List.map_cons, List.reverse_cons, List.append_assoc]
    rfl

theorem overwrites_fault (tv : Timeval) (blks : List Block) :
    ∀ (k : ℕ) (cache : List LruCacheEntry), cache.length < 2 ^ 32 → k ≤ cache.length →
      cache.length < k + blks.length →
      (blks.zipIdx k).foldlM (overwrite tv) cache = .error (.index (2 ^ 64 - 1)) := by
  induction blks with
  | nil =>
    intro k cache _ hk hlt
    simp only [List.length_nil] at hlt
    omega
  | cons blk blks ih =>
    intro k cache hlt hk hmore
    rw [List.length_cons] at hmore
    rw [List.zipIdx_cons, List.foldlM_cons]
    rcases Nat.eq_or_lt_of_le hk with rfl | hk
    · rw [overwrite_fault hlt]
      rfl
    · rw [overwrite_ok hlt hk]
      exact ih (k + 1) _ (by rwa [List.length_set]) (by rw [List.length_set]; omega)
        (by rw [List.length_set]; omega)

/-! ## `AddItems` -/

/-- **What `AddItems` is for**: the oldest entries go, as many as there is no room for, the
others stay as they are, with their times, and the blocks of the segment come with the time
`tv` of the call. -/
structure Added (c : LruCache) (tv : Timeval) (seg : Segment) (c' : LruCache) : Prop where
  capacity : c'.capacity = c.capacity
  sorted : c'.cache.Pairwise fun a b => a.cksum ≤ b.cksum
  content : ∃ kept removed added : List LruCacheEntry, (kept ++ removed).Perm c.cache ∧
    removed.length = seg.blocklist.length + c.cache.length - c.capacity.toNat ∧
    (∀ x ∈ removed, ∀ y ∈ kept, x.latime ≤ y.latime) ∧ c'.cache.Perm (kept ++ added) ∧
    added.map LruCacheEntry.toBlock = seg.blocklist ∧ ∀ ent ∈ added, ent.latime = tv

/-- Entries of the segment's blocks. -/
theorem map_setValue (tv : Timeval) (blks : List Block) :
    ((blks.map fun blk => LruCacheEntry.setValue blk tv).map LruCacheEntry.toBlock = blks) ∧
      ∀ ent ∈ blks.map fun blk => LruCacheEntry.setValue blk tv, ent.latime = tv := by
  refine ⟨?_, ?_⟩
  · rw [List.map_map]
    exact List.map_id _
  · intro ent hent
    obtain ⟨blk, -, rfl⟩ := List.mem_map.1 hent
    rfl

/-- In a list from new to old the last entries are the oldest. -/
theorem oldest (timeSo : Sorter LruCacheEntry.age) (cache : List LruCacheEntry) (n : ℕ) :
    ∀ x ∈ (timeSo.sort cache).drop n, ∀ y ∈ (timeSo.sort cache).take n, x.latime ≤ y.latime := by
  intro x hx y hy
  have hs := timeSo.sorted cache
  rw [← List.take_append_drop n (timeSo.sort cache), List.pairwise_append] at hs
  exact hs.2.2 y hy x hx

/-- The room that is made for the new data. -/
def roomFor (timeSo : Sorter LruCacheEntry.age) (c : LruCache) (seg : Segment) : LruCache :=
  if c.capacity.toNat < seg.blocklist.length + c.cache.length then
    removeItems timeSo c (Int32.ofNat (seg.blocklist.length + c.cache.length - c.capacity.toNat))
  else c

/-- The entries that are removed to make room. -/
theorem roomFor_split (timeSo : Sorter LruCacheEntry.age) (hcap : c.capacity.toNat < 2 ^ 31)
    (hroom : c.cache.length < c.capacity.toNat)
    (hfits : seg.blocklist.length ≤ c.capacity.toNat) :
    ∃ removed, ((roomFor timeSo c seg).cache ++ removed).Perm c.cache ∧
      removed.length = seg.blocklist.length + c.cache.length - c.capacity.toNat ∧
      ∀ x ∈ removed, ∀ y ∈ (roomFor timeSo c seg).cache, x.latime ≤ y.latime := by
  unfold roomFor
  split
  · have hn := Int32.toInt_ofNat_of_lt
      (show seg.blocklist.length + c.cache.length - c.capacity.toNat < 2 ^ 31 by omega)
    have hlen := (timeSo.perm c.cache).length_eq
    simp only [removeItems]
    rw [hn, Int.toNat_natCast]
    refine ⟨_, ?_, ?_, oldest timeSo c.cache _⟩
    · rw [List.take_append_drop]
      exact timeSo.perm c.cache
    · rw [List.length_drop]
      omega
  · refine ⟨[], ?_, ?_, fun x hx => absurd hx List.not_mem_nil⟩
    · rw [List.append_nil]
    · rw [List.length_nil]
      omega

/-- `AddItems` when the cache is full. -/
theorem addItems_full (hfull : c.capacity.toNat ≤ c.cache.length) :
    addItems so timeSo c tv seg =
      (seg.blocklist.zipIdx.foldlM (overwrite tv) (timeSo.sort c.cache)).map fun cache =>
        { c with cache := so.sort cache } := by
  unfold addItems
  rw [if_pos hfull]
  rcases seg.blocklist.zipIdx.foldlM (overwrite tv) (timeSo.sort c.cache) with e | cache <;> rfl

/-- `AddItems` when it is not. -/
theorem addItems_room (hroom : c.cache.length < c.capacity.toNat) :
    addItems so timeSo c tv seg =
      .ok { roomFor timeSo c seg with
        cache := so.sort ((roomFor timeSo c seg).cache ++
          seg.blocklist.map fun blk => .setValue blk tv) } := by
  unfold addItems
  rw [if_neg hroom.not_ge]
  rfl

theorem roomFor_capacity : (roomFor timeSo c seg).capacity = c.capacity := by
  unfold roomFor
  split <;> rfl

theorem overwrites_mem (tv : Timeval) (blks : List (Block × ℕ)) :
    ∀ {cache cache' : List LruCacheEntry}, blks.foldlM (overwrite tv) cache = .ok cache' →
      ∀ ent ∈ cache', ent ∈ cache ∨ ∃ p ∈ blks, ent = .setValue p.1 tv := by
  induction blks with
  | nil =>
    intro cache cache' h ent hent
    cases h
    exact .inl hent
  | cons p blks ih =>
    intro cache cache' h ent hent
    rw [List.foldlM_cons] at h
    obtain ⟨cache1, h1, h2⟩ := bind_eq_ok.1 h
    rcases ih h2 ent hent with hmem | ⟨q, hq, rfl⟩
    · unfold overwrite at h1
      simp only at h1
      split at h1
      · cases h1
        rcases List.mem_or_eq_of_mem_set hmem with hmem | rfl
        · exact .inl hmem
        · exact .inr ⟨p, .head _, rfl⟩
      · cases h1
    · exact .inr ⟨q, .tail _ hq, rfl⟩

/-- **Whether a segment fits in or not**, nothing else comes into the cache. -/
theorem addItems_mem {c' : LruCache} (h : addItems so timeSo c tv seg = .ok c') :
    ∀ ent ∈ c'.cache, ent ∈ c.cache ∨ ∃ blk ∈ seg.blocklist, ent = .setValue blk tv := by
  intro ent hent
  by_cases hfull : c.capacity.toNat ≤ c.cache.length
  · rw [addItems_full hfull] at h
    rcases hloop : seg.blocklist.zipIdx.foldlM (overwrite tv) (timeSo.sort c.cache) with e | cache
    · rw [hloop] at h
      cases h
    · rw [hloop] at h
      cases h
      rcases overwrites_mem tv _ hloop ent ((so.perm cache).subset hent) with hmem | ⟨p, hp, rfl⟩
      · exact .inl ((timeSo.perm c.cache).subset hmem)
      · exact .inr ⟨p.1, List.fst_mem_of_mem_zipIdx hp, rfl⟩
  · rw [addItems_room (not_le.1 hfull)] at h
    cases h
    rcases List.mem_append.1 ((so.perm _).subset hent) with hmem | hmem
    · refine .inl ?_
      unfold roomFor at hmem
      split at hmem
      · exact (timeSo.perm c.cache).subset (List.mem_of_mem_take hmem)
      · exact hmem
    · obtain ⟨blk, hblk, rfl⟩ := List.mem_map.1 hmem
      exact .inr ⟨blk, hblk, rfl⟩

/-- **Either branch inserts a segment that fits in.** -/
theorem addItems_added (so : Sorter LruCacheEntry.key) (timeSo : Sorter LruCacheEntry.age)
    (tv : Timeval) (seg : Segment) (hcap : c.capacity.toNat < 2 ^ 31)
    (hle : c.cache.length ≤ c.capacity.toNat) (hfits : seg.blocklist.length ≤ c.capacity.toNat) :
    ∃ c', addItems so timeSo c tv seg = .ok c' ∧ Added c tv seg c' := by
  by_cases hfull : c.capacity.toNat ≤ c.cache.length
  · have hlen := (timeSo.perm c.cache).length_eq
    -- the loop writes over the end of the list, from the last entry on
    have hloop := overwrites_eq tv seg.blocklist 0 (timeSo.sort c.cache) (by omega) (by omega)
    set n := (timeSo.sort c.cache).length - 0 - seg.blocklist.length with hn
    rw [Nat.sub_zero (timeSo.sort c.cache).length, List.drop_length, List.append_nil] at hloop
    refine ⟨_, (addItems_full hfull).trans (congrArg _ hloop), rfl, so.sorted _,
      (timeSo.sort c.cache).take n, (timeSo.sort c.cache).drop n, _, ?_, ?_, oldest timeSo c.cache n,
      (so.perm _).trans ((List.reverse_perm _).append_left _), map_setValue tv seg.blocklist⟩
    · rw [List.take_append_drop]
      exact timeSo.perm c.cache
    · rw [List.length_drop]
      omega
  · obtain ⟨removed, hperm, hlen, hold⟩ := roomFor_split timeSo hcap (not_le.1 hfull) hfits
    exact ⟨_, addItems_room (not_le.1 hfull), roomFor_capacity, so.sorted _,
      (roomFor timeSo c seg).cache, removed, _, hperm, hlen, hold, so.perm _,
      map_setValue tv seg.blocklist⟩

/-- What `AddItems` leaves: the blocks of the segment with the time, and nothing that was
not there before. -/
structure Holds (c : LruCache) (tv : Timeval) (seg : Segment) (c' : LruCache) : Prop where
  capacity : c'.capacity = c.capacity
  length : c'.cache.length ≤ c.capacity.toNat
  sorted : c'.cache.Pairwise fun a b => a.key ≤ b.key
  added : ∀ blk ∈ seg.blocklist, .setValue blk tv ∈ c'.cache
  mem : ∀ ent ∈ c'.cache, ent ∈ c.cache ∨ ∃ blk ∈ seg.blocklist, ent = .setValue blk tv

theorem Added.holds (h : Added c tv seg c') : Holds c tv seg c' := by
  obtain ⟨kept, removed, added, hperm, hlen, -, hperm', hblocks, htime⟩ := h.content
  have hnew : ∀ ent ∈ added, ent = .setValue ent.toBlock tv := by
    intro ent hent
    rw [← htime ent hent]
    rfl
  refine ⟨h.capacity, ?_, h.sorted, ?_, ?_⟩
  · have hlen1 := hperm.length_eq
    have hlen2 := hperm'.length_eq
    have hlen3 := congrArg List.length hblocks
    rw [List.length_map] at hlen3
    rw [List.length_append] at hlen1 hlen2
    omega
  · intro blk hblk
    rw [← hblocks] at hblk
    obtain ⟨ent, hent, rfl⟩ := List.mem_map.1 hblk
    rw [← hnew ent hent]
    exact hperm'.symm.subset (List.mem_append_right _ hent)
  · intro ent hent
    rcases List.mem_append.1 (hperm'.subset hent) with hkept | hadded
    · exact .inl (hperm.subset (List.mem_append_left _ hkept))
    · exact .inr ⟨ent.toBlock, hblocks ▸ List.mem_map_of_mem hadded, hnew ent hadded⟩

/-- **A segment that fits in.** -/
theorem addItems_ok (so : Sorter LruCacheEntry.key) (timeSo : Sorter LruCacheEntry.age)
    (tv : Timeval) (seg : Segment) (hcap : c.capacity.toNat < 2 ^ 31)
    (hle : c.cache.length ≤ c.capacity.toNat) (hfits : seg.blocklist.length ≤ c.capacity.toNat) :
    ∃ c', addItems so timeSo c tv seg = .ok c' ∧ Holds c tv seg c' := by
  obtain ⟨c', hok, hadded⟩ := addItems_added so timeSo tv seg hcap hle hfits
  exact ⟨c', hok, hadded.holds⟩

/-- **A segment that does not**: an index below the first entry, or too many entries. -/
theorem addItems_exceeds (so : Sorter LruCacheEntry.key) (timeSo : Sorter LruCacheEntry.age)
    (tv : Timeval) (seg : Segment) (hle : c.cache.length ≤ c.capacity.toNat)
    (hmore : c.capacity.toNat < seg.blocklist.length) :
    (∃ i, addItems so timeSo c tv seg = .error (.index i)) ∨
      ∃ c', addItems so timeSo c tv seg = .ok c' ∧ c.capacity.toNat < c'.cache.length := by
  have hcap := c.capacity.toNat_lt
  by_cases hfull : c.capacity.toNat ≤ c.cache.length
  · have hlen := (timeSo.perm c.cache).length_eq
    refine .inl ⟨2 ^ 64 - 1, ?_⟩
    rw [addItems_full hfull, overwrites_fault tv seg.blocklist 0 _ (by omega) (Nat.zero_le _)
      (by omega)]
    rfl
  · refine .inr ⟨_, addItems_room (not_le.1 hfull), ?_⟩
    have hperm := so.perm ((roomFor timeSo c seg).cache ++
      seg.blocklist.map fun blk => .setValue blk tv)
    rw [hperm.length_eq, List.length_append, List.length_map]
    omega

/-! ## `SearchItem` -/

/-- What `SearchItem` can do. -/
theorem searchItem_cases (c : LruCache) (tv : Timeval) (blk : Block) :
    c.searchItem tv blk = (false, c) ∨ ∃ i ent, c.cache[i]? = some ent ∧ ent.key = blk.cksum ∧
      c.searchItem tv blk = (true, { c with cache := c.cache.set i (ent.setAccessTime tv) }) := by
  simp only [searchItem]
  split
  · rename_i ent hent
    split
    · rename_i hkey
      exact .inr ⟨_, ent, hent, hkey, rfl⟩
    · exact .inl rfl
  · exact .inl rfl

/-- It changes times only, and finds no block that is not there. -/
theorem searchItem_keys (c : LruCache) (tv : Timeval) (blk : Block) :
    (c.searchItem tv blk).2.cache.map LruCacheEntry.key = c.cache.map LruCacheEntry.key ∧
      (c.searchItem tv blk).2.capacity = c.capacity ∧
      ((c.searchItem tv blk).1 = true → blk.cksum ∈ c.cache.map LruCacheEntry.key) := by
  rcases searchItem_cases c tv blk with h | ⟨i, ent, hent, hkey, h⟩
  · rw [h]
    exact ⟨rfl, rfl, fun hno => absurd hno Bool.false_ne_true⟩
  · rw [h]
    obtain ⟨hlt, rfl⟩ := List.getElem?_eq_some_iff.1 hent
    have hlt' : i < (c.cache.map LruCacheEntry.key).length := by rwa [List.length_map]
    have hsame : (c.cache[i].setAccessTime tv).key = (c.cache.map LruCacheEntry.key)[i] := by
      rw [List.getElem_map]
      rfl
    refine ⟨?_, rfl, fun _ => hkey ▸ List.mem_map_of_mem (List.getElem_mem hlt)⟩
    rw [List.map_set, hsame, List.set_getElem_self]

/-- **`SearchItem` finds the blocks that are there**, and changes times only. -/
theorem searchItem_ok (hs : c.cache.Pairwise fun a b => a.key ≤ b.key) (tv : Timeval) (blk : Block) :
    ((c.searchItem tv blk).1 = true ↔ ∃ ent ∈ c.cache, ent.key = blk.cksum) ∧
      (c.searchItem tv blk).2.cache.map LruCacheEntry.key = c.cache.map LruCacheEntry.key ∧
      (c.searchItem tv blk).2.capacity = c.capacity := by
  obtain ⟨hkeys, hcap, -⟩ := searchItem_keys c tv blk
  refine ⟨?_, hkeys, hcap⟩
  have hkey : (LruCacheEntry.setValue blk tv).key = blk.cksum := rfl
  rw [← hkey, ← lowerBound_finds hs (LruCacheEntry.setValue blk tv)]
  simp only [searchItem]
  set it := lowerBound (fun i => (c.cache[i]?).any fun a =>
    a.key < (LruCacheEntry.setValue blk tv).key) 0 c.cache.length
  rcases hit : c.cache[it]? with - | a
  · simp
  · simp only [Option.some.injEq, exists_eq_left']
    by_cases ha : a.key = (LruCacheEntry.setValue blk tv).key
    · simp only [ha, if_true]
    · simp [ha]

/-- **What `SearchItem` is for**: the entry that is found gets the time `tv` of the call and
keeps its block, and nothing else changes. -/
structure Searched (c : LruCache) (tv : Timeval) (blk : Block) (found : Bool) (c' : LruCache) :
    Prop where
  found_iff : found = true ↔ ∃ ent ∈ c.cache, ent.cksum = blk.cksum
  hit : found = true → ∃ i ent ent', c.cache[i]? = some ent ∧ ent.cksum = blk.cksum ∧
    ent'.toBlock = ent.toBlock ∧ ent'.latime = tv ∧ c'.cache = c.cache.set i ent' ∧
    c'.capacity = c.capacity
  miss : found = false → c' = c

theorem searchItem_searched (hs : c.cache.Pairwise fun a b => a.key ≤ b.key) (tv : Timeval)
    (blk : Block) : Searched c tv blk (c.searchItem tv blk).1 (c.searchItem tv blk).2 := by
  refine ⟨(searchItem_ok hs tv blk).1, ?_, ?_⟩
  · rcases searchItem_cases c tv blk with h | ⟨i, ent, hent, hkey, h⟩
    · rw [h]
      exact fun hno => absurd hno Bool.false_ne_true
    · rw [h]
      exact fun _ => ⟨i, ent, ent.setAccessTime tv, hent, hkey, rfl, rfl, rfl, rfl⟩
  · rcases searchItem_cases c tv blk with h | ⟨i, ent, hent, hkey, h⟩
    · rw [h]
      exact fun _ => rfl
    · rw [h]
      exact fun hno => absurd hno.symm Bool.false_ne_true

/-- The hashes stay, so the order does. -/
theorem searchItem_sorted (hs : c.cache.Pairwise fun a b => a.key ≤ b.key) (tv : Timeval)
    (blk : Block) : (c.searchItem tv blk).2.cache.Pairwise fun a b => a.key ≤ b.key := by
  have hkeys := (searchItem_ok hs tv blk).2.1
  rw [← List.pairwise_map] at hs ⊢
  rwa [hkeys]

/-! ## Bounds -/

/-- After every call of the run the cache is within its capacity, and no index was outside
it. -/
def WithinBounds (so : Sorter LruCacheEntry.key) (timeSo : Sorter LruCacheEntry.age)
    (clock : Clock) (size : Int32) (calls : List Call) : Prop :=
  ∀ n, ∃ st, run so timeSo clock size (calls.take n) = .ok st ∧
    (st.1.cache.length : ℤ) ≤ size.toInt

theorem capacity_toNat {size : Int32} (h : 0 ≤ size) :
    ((new size).capacity.toNat : ℤ) = size.toInt ∧ (new size).capacity.toNat < 2 ^ 31 := by
  have h0 : (0 : ℤ) ≤ size.toInt := Int32.le_iff_toInt_le.1 h
  have hnat : (new size).capacity.toNat = size.toInt.toNat := Int32.toNat_toUInt32_of_le h
  have hlt := size.toInt_lt
  omega

theorem call_capacity {clock : Clock} {st st' : State} {x : Call}
    (h : call so timeSo clock st x = .ok st') : st'.1.capacity = st.1.capacity := by
  rcases x with seg | blk
  · rw [call] at h
    rcases hadd : addItems so timeSo st.1 (clock st.2) seg with e | c'
    · rw [hadd] at h
      cases h
    · rw [hadd] at h
      cases h
      by_cases hfull : st.1.capacity.toNat ≤ st.1.cache.length
      · rw [addItems_full hfull] at hadd
        rcases hw : seg.blocklist.zipIdx.foldlM (overwrite (clock st.2)) (timeSo.sort st.1.cache) with
          e | cache
        · rw [hw] at hadd
          cases hadd
        · rw [hw] at hadd
          cases hadd
          rfl
      · rw [addItems_room (not_le.1 hfull)] at hadd
        cases hadd
        exact roomFor_capacity
  · cases h
    change (st.1.searchItem (clock st.2) blk).2.capacity = _
    simp only [searchItem]
    split
    · split <;> rfl
    · rfl

theorem run_capacity {clock : Clock} {size : Int32} {calls : List Call} {st : State}
    (h : run so timeSo clock size calls = .ok st) : st.1.capacity = (new size).capacity :=
  run_keeps (P := fun st : State => st.1.capacity = (new size).capacity)
    (fun _ _ _ hx hs => (call_capacity hx).trans hs) h rfl

/-- The number of entries does not change in a search. -/
theorem searchItem_length (c : LruCache) (tv : Timeval) (blk : Block) :
    (c.searchItem tv blk).2.cache.length = c.cache.length := by
  have hlen := congrArg List.length (searchItem_keys c tv blk).1
  rwa [List.length_map, List.length_map] at hlen

/-- What holds between calls. -/
structure Tidy (size : Int32) (c : LruCache) : Prop where
  capacity : (c.capacity.toNat : ℤ) = size.toInt
  length : (c.cache.length : ℤ) ≤ size.toInt
  sorted : c.cache.Pairwise fun a b => a.cksum ≤ b.cksum

/-- A call does what its method is for. -/
def Serves (so : Sorter LruCacheEntry.key) (timeSo : Sorter LruCacheEntry.age) (c : LruCache)
    (tv : Timeval) : Call → Prop
  | .addItems seg => ∃ c', addItems so timeSo c tv seg = .ok c' ∧ Added c tv seg c'
  | .searchItem blk => Searched c tv blk (c.searchItem tv blk).1 (c.searchItem tv blk).2

namespace Tidy

variable {size : Int32} {blk : Block}

theorem new (hsize : 1 ≤ size) : Tidy size (.new size) where
  capacity := (capacity_toNat (Int32.le_trans (by decide) hsize)).1
  length := Int32.le_iff_toInt_le.1 (Int32.le_trans (by decide : (0 : Int32) ≤ 1) hsize)
  sorted := List.Pairwise.nil

theorem added (h : Tidy size c) (hadded : Added c tv seg c') : Tidy size c' := by
  have hle := hadded.holds.length
  have hcap := h.capacity
  refine ⟨?_, ?_, hadded.sorted⟩
  · rw [hadded.capacity, hcap]
  · omega

theorem searched (h : Tidy size c) (tv : Timeval) (blk : Block) :
    Tidy size (c.searchItem tv blk).2 := by
  refine ⟨?_, ?_, searchItem_sorted h.sorted tv blk⟩
  · rw [(searchItem_ok h.sorted tv blk).2.2, h.capacity]
  · rw [searchItem_length]
    exact h.length

theorem serves_add (h : Tidy size c) (so : Sorter LruCacheEntry.key)
    (timeSo : Sorter LruCacheEntry.age) (tv : Timeval)
    (hfits : (seg.blocklist.length : ℤ) ≤ size.toInt) : Serves so timeSo c tv (.addItems seg) := by
  have hcap := h.capacity
  have hlen := h.length
  have hlt := size.toInt_lt
  exact addItems_added so timeSo tv seg (by omega) (by omega) (by omega)

theorem serves_search (h : Tidy size c) : Serves so timeSo c tv (.searchItem blk) :=
  searchItem_searched h.sorted tv blk

end Tidy

/-- The cache is tidy after every call of a run whose segments fit in, and every call has read
the clock once. -/
theorem run_tidy (so : Sorter LruCacheEntry.key) (timeSo : Sorter LruCacheEntry.age)
    (clock : Clock) {size : Int32} (hsize : 1 ≤ size) {calls : List Call}
    (hfits : ∀ seg, .addItems seg ∈ calls → (seg.blocklist.length : ℤ) ≤ size.toInt) (n : ℕ) :
    ∃ st, run so timeSo clock size (calls.take n) = .ok st ∧ Tidy size st.1 ∧
      st.2 = (calls.take n).length := by
  refine run_invariant (I := fun done (st : State) => Tidy size st.1 ∧ st.2 = done.length)
    ⟨Tidy.new hsize, rfl⟩ ?_ n
  rintro m x st hx - ⟨htidy, hread⟩
  have hread' : st.2 + 1 = (calls.take (m + 1)).length := by
    rw [hread, List.take_add_one, hx, Option.toList_some, List.length_append,
      List.length_singleton]
  rcases x with seg | blk
  · obtain ⟨c', hok, hadded⟩ := htidy.serves_add so timeSo (clock st.2)
      (hfits seg (List.mem_of_getElem? hx))
    refine ⟨(c', st.2 + 1), ?_, htidy.added hadded, hread'⟩
    rw [call, hok]
    rfl
  · exact ⟨_, rfl, htidy.searched _ blk, hread'⟩

/-- **A run of calls whose segments fit in** never fails; between calls the cache is tidy, and
the next call does what it is for, at the time that the clock shows for it. -/
theorem run_serves (so : Sorter LruCacheEntry.key) (timeSo : Sorter LruCacheEntry.age)
    (clock : Clock) (size : Int32) (hsize : 1 ≤ size) (calls : List Call)
    (hfits : ∀ seg, .addItems seg ∈ calls → (seg.blocklist.length : ℤ) ≤ size.toInt) (n : ℕ) :
    ∃ st, run so timeSo clock size (calls.take n) = .ok st ∧ Tidy size st.1 ∧
      ∀ x, calls[n]? = some x → Serves so timeSo st.1 (clock n) x := by
  obtain ⟨st, hst, htidy, hread⟩ := run_tidy so timeSo clock hsize hfits n
  refine ⟨st, hst, htidy, ?_⟩
  intro x hx
  rcases x with seg | blk
  · exact htidy.serves_add so timeSo _ (hfits seg (List.mem_of_getElem? hx))
  · exact htidy.serves_search

/-- A segment of the blocks with these numbers. -/
def segmentEnding (ns : List UInt8) : Segment :=
  { (default : Segment) with blocklist := ns.map blockEnding }

/-- Two segments go into a cache for three, so that one block is evicted; a third finds it
full. -/
def evictingCalls : List Call :=
  [.addItems (segmentEnding [2, 1]), .addItems (segmentEnding [3, 1]), .searchItem (blockEnding 3),
    .addItems (segmentEnding [5, 4])]

theorem evictingCalls_fit (seg : Segment) (h : .addItems seg ∈ evictingCalls) :
    (seg.blocklist.length : ℤ) ≤ (3 : Int32).toInt := by
  simp only [evictingCalls, List.mem_cons, Call.addItems.injEq, reduceCtorEq, false_or,
    List.not_mem_nil, or_false] at h
  rcases h with rfl | rfl | rfl <;> decide

theorem run_serves_evicting :
    ∃ st, run (.merge LruCacheEntry.key) (.merge LruCacheEntry.age) (fun n => ⟨n, 0⟩) 3
        (evictingCalls.take 3) = .ok st ∧ Tidy 3 st.1 ∧
      ∀ x, evictingCalls[3]? = some x →
        Serves (.merge LruCacheEntry.key) (.merge LruCacheEntry.age) st.1 ⟨3, 0⟩ x :=
  run_serves (.merge LruCacheEntry.key) (.merge LruCacheEntry.age) (fun n => ⟨n, 0⟩) 3 (by decide)
    evictingCalls evictingCalls_fit 3

/-- **When a run keeps to the bounds**: every segment fits into the cache. -/
theorem withinBounds_iff (so : Sorter LruCacheEntry.key) (timeSo : Sorter LruCacheEntry.age)
    (clock : Clock) (size : Int32) (hsize : 1 ≤ size) (calls : List Call) :
    WithinBounds so timeSo clock size calls ↔
      ∀ seg, .addItems seg ∈ calls → (seg.blocklist.length : ℤ) ≤ size.toInt := by
  obtain ⟨hcap, hcap31⟩ := capacity_toNat (Int32.le_trans (by decide) hsize)
  constructor
  · intro h seg hseg
    by_contra hmore
    obtain ⟨n, hn⟩ := List.getElem?_of_mem hseg
    obtain ⟨st, hst, hle⟩ := h n
    obtain ⟨st', hst', hle'⟩ := h (n + 1)
    have hst1 := run_capacity hst
    unfold run at hst'
    rw [run_take_succ hn, ← run, hst] at hst'
    change call so timeSo clock st (.addItems seg) = .ok st' at hst'
    rw [call] at hst'
    -- the call that adds the segment fails, or leaves too many entries
    rcases addItems_exceeds so timeSo (clock st.2) (c := st.1) seg (by rw [hst1]; omega)
      (by rw [hst1]; omega) with ⟨i, herr⟩ | ⟨c', hok, hlt⟩
    · rw [herr] at hst'
      cases hst'
    · rw [hok] at hst'
      cases hst'
      rw [hst1] at hlt
      simp only at hle'
      omega
  · intro h n
    obtain ⟨st, hst, htidy, -⟩ := run_tidy so timeSo clock hsize h n
    exact ⟨st, hst, htidy.length⟩

theorem withinBounds_three :
    WithinBounds (.merge LruCacheEntry.key) (.merge LruCacheEntry.age) (fun n => ⟨n, 0⟩) 3
        evictingCalls ↔
      ∀ seg, Call.addItems seg ∈ evictingCalls → (seg.blocklist.length : ℤ) ≤ (3 : Int32).toInt :=
  withinBounds_iff (.merge LruCacheEntry.key) (.merge LruCacheEntry.age) (fun n => ⟨n, 0⟩) 3
    (by decide) evictingCalls

/-- A segment of two blocks in a cache for one. -/
theorem exceedsBounds_one :
    ¬ WithinBounds (.merge LruCacheEntry.key) (.merge LruCacheEntry.age) (fun n => ⟨n, 0⟩) 1
      [.addItems (segmentEnding [2, 1])] := by
  intro h
  obtain ⟨st, hst, hle⟩ := h 1
  rw [List.take_of_length_le (by simp), run, List.foldlM_cons, call, addItems_room (by decide)] at hst
  cases hst
  simp only [(Sorter.perm _ _).length_eq, List.length_append, List.length_map] at hle
  change ((_ + 2 : ℕ) : ℤ) ≤ 1 at hle
  omega

end LruCache

end DedupSim
