import DedupSim.Lib.Recency
import DedupSim.Lib.Run
import DedupSim.Spec.LruCache

/-!
# The cache of CDS blocks

* `setTime` and `RemoveItems` in terms of the set of cached checksums.
* `Recent`: what the cache holds was accessed no earlier than what it has given up.
* `recency`: **so in every state that is reached**, for capacities of ten and more.
* `withinCapacity_iff`: **when a run keeps to the capacity**: `AddItem` evicts a
  tenth, which is nothing for a capacity below ten.
-/

namespace DedupSim

namespace CdsLruCache

variable {pq : PriorityQueue CacheItem.time} {c c' : CdsLruCache} {blk : Block} {tv now : Timeval}
  {n : ℕ} {k : Checksum} {heap : List CacheItem} {last : Checksum → WithBot Timeval}

/-- The checksums of the cached blocks. -/
def keySet (c : CdsLruCache) : Finset Checksum := (c.cache.entries.map Prod.fst).toFinset

theorem mem_keySet : k ∈ c.keySet ↔ ∃ it ∈ c.cache.entries, it.1 = k := by
  unfold keySet
  rw [List.mem_toFinset, List.mem_map]

theorem card_keySet (c : CdsLruCache) : c.keySet.card = c.cache.size := by
  unfold keySet
  rw [List.toFinset_card_of_nodup c.cache.nodup_keys, List.length_map, OrderedMap.size]

theorem find?_eq_none : c.cache.find? k = none ↔ k ∉ c.keySet := by
  rw [OrderedMap.find?_eq_none, mem_keySet]
  push Not
  rfl

/-! ## `cache_[blk] = tv` -/

theorem mem_setTime {it : CacheItem} (h : it ∈ (c.setTime tv blk).cache.entries) :
    it.1 = blk.cksum ∧ it.time = tv ∨ it ∈ c.cache.entries ∧ it.1 ≠ blk.cksum := by
  rcases OrderedMap.mem_alter.1 h with rfl | h
  · exact .inl ⟨rfl, rfl⟩
  · exact .inr h

@[simp] theorem keySet_setTime (c : CdsLruCache) (tv : Timeval) (blk : Block) :
    (c.setTime tv blk).keySet = insert blk.cksum c.keySet := by
  ext k
  rw [Finset.mem_insert, mem_keySet, mem_keySet]
  constructor
  · rintro ⟨it, hit, rfl⟩
    rcases mem_setTime hit with ⟨h, -⟩ | ⟨h, -⟩
    · exact .inl h
    · exact .inr ⟨it, h, rfl⟩
  · intro h
    by_cases hk : k = blk.cksum
    · exact ⟨_, OrderedMap.mem_alter.2 (.inl rfl), hk.symm⟩
    · obtain ⟨it, hit, rfl⟩ := h.resolve_left hk
      exact ⟨it, OrderedMap.mem_alter.2 (.inr ⟨hit, hk⟩), rfl⟩

@[simp] theorem capacity_setTime : (c.setTime tv blk).capacity = c.capacity := rfl

theorem subset_setTime (c : CdsLruCache) (tv : Timeval) (blk : Block) :
    c.keySet ⊆ (c.setTime tv blk).keySet := by
  rw [keySet_setTime]
  exact Finset.subset_insert _ _

theorem mem_keySet_setTime (c : CdsLruCache) (tv : Timeval) (blk : Block) :
    blk.cksum ∈ (c.setTime tv blk).keySet := by
  rw [keySet_setTime]
  exact Finset.mem_insert_self _ _

/-! ## `RemoveItems` -/

theorem keySet_erase_subset (c : CdsLruCache) (heap : List CacheItem) :
    (c.erase heap).keySet ⊆ c.keySet := by
  intro k hk
  obtain ⟨it, hit, rfl⟩ := mem_keySet.1 hk
  exact mem_keySet.2 ⟨it, (List.mem_filter.1 hit).1, rfl⟩

/-! ## Recency -/

/-- The items have the times of the last accesses, none of which is after `now`; what is
not cached was accessed no later than what is. -/
structure Recent (c : CdsLruCache) (last : Checksum → WithBot Timeval) (now : Timeval) : Prop where
  times : ∀ it ∈ c.cache.entries, last it.1 = CacheItem.time it
  recent : IsRecent c.keySet last
  le_now : ∀ k, last k ≤ now

namespace Recent

theorem mono (h : Recent c last now) {now' : Timeval} (hle : now ≤ now') : Recent c last now' :=
  ⟨h.times, h.recent, fun k => (h.le_now k).trans (WithBot.coe_le_coe.2 hle)⟩

theorem setTime (h : Recent c last tv) (blk : Block) :
    Recent (c.setTime tv blk) (accessed last blk.cksum tv) tv := by
  refine ⟨?_, ?_, accessed_le h.le_now⟩
  · intro it hit
    rcases mem_setTime hit with ⟨hk, ht⟩ | ⟨hit, hk⟩
    · rw [hk, ht, accessed_self]
    · rw [accessed_of_ne hk]
      exact h.times it hit
  · rw [keySet_setTime]
    exact h.recent.access h.le_now blk.cksum

/-- The items erased are the oldest. -/
theorem removeItems (h : Recent c last now) (hn : 0 < n) (hok : c.removeItems pq n = .ok c') :
    Recent c' last now := by
  obtain ⟨heap, hok', out, hperm, -, hle⟩ := removeItems_ok pq c hn
  rw [hok] at hok'
  cases hok'
  have hout := erase_perm hperm
  refine ⟨?_, ?_, h.le_now⟩
  · intro it hit
    exact h.times it (hperm.subset (List.mem_append_right _ (hout.subset hit)))
  · apply h.recent.shrink (keySet_erase_subset c heap)
    intro k hk g hg hgout
    obtain ⟨it, hit, rfl⟩ := mem_keySet.1 hk
    obtain ⟨jt, hjt, rfl⟩ := mem_keySet.1 hg
    have hjheap : jt ∈ heap := by
      rcases List.mem_append.1 (hperm.symm.subset hjt) with hj | hj
      · exact hj
      · exact absurd (mem_keySet.2 ⟨jt, hout.symm.subset hj, rfl⟩) hgout
    rw [h.times it (hperm.subset (List.mem_append_right _ (hout.subset hit))), h.times jt hjt]
    exact WithBot.coe_le_coe.2 (hle jt hjheap it (hout.subset hit))

/-- Blocks that are added together. -/
theorem setTimes (h : Recent c last tv) (blks : List Block) :
    Recent (blks.foldl (fun c blk => c.setTime tv blk) c)
      ((blks.map Block.cksum).foldl (fun last k => accessed last k tv) last) tv := by
  induction blks generalizing c last with
  | nil => exact h
  | cons blk blks ih => exact ih (h.setTime blk)

theorem removeExcess (pq : PriorityQueue CacheItem.time) (c : CdsLruCache) :
    ∃ c', c.removeExcess pq = .ok c' ∧ c'.capacity = c.capacity ∧
      c'.cache.size ≤ c.capacity.toNat ∧ ∀ last now, Recent c last now → Recent c' last now := by
  induction hs : c.cache.size using Nat.strong_induction_on generalizing c with
  | _ size ih =>
    subst hs
    rw [CdsLruCache.removeExcess]
    split
    · rename_i hlt
      have hn : 0 < c.cache.size - c.capacity.toNat + (c.capacity / 10).toNat := by omega
      obtain ⟨heap, hok, -⟩ := removeItems_ok pq c hn
      have hsize := removeItems_size hn hok
      obtain ⟨c', hok', hcap, hle, hrec⟩ := ih _ (by omega) (c.erase heap) rfl
      refine ⟨c', ?_, hcap, hle, fun last now h => hrec last now (h.removeItems hn hok)⟩
      split
      · rename_i herr
        rw [hok] at herr
        cases herr
      · rename_i c'' hc
        rw [hok] at hc
        cases hc
        exact hok'
    · rename_i hle
      exact ⟨c, rfl, rfl, not_lt.1 hle, fun _ _ h => h⟩

end Recent

/-! ## `AddItem` -/

theorem div_ten (m : UInt32) : (m / 10).toNat = m.toNat / 10 := UInt32.toNat_div m 10

/-- **`AddItem`**, for a capacity of ten and more. -/
theorem addItem_ok (pq : PriorityQueue CacheItem.time) (c : CdsLruCache) (tv : Timeval)
    (blk : Block) (hcap : 10 ≤ c.capacity.toNat) :
    ∃ c', c.addItem pq tv blk = .ok c' ∧ c'.capacity = c.capacity ∧
      c'.keySet ⊆ (c.setTime tv blk).keySet ∧
      (c' = c.setTime tv blk ∧ (c.setTime tv blk).cache.size ≤ c.capacity.toNat ∨
        c.capacity.toNat < (c.setTime tv blk).cache.size ∧
          c'.cache.size = (c.setTime tv blk).cache.size - c.capacity.toNat / 10) ∧
      ∀ last, Recent c last tv → Recent c' (accessed last blk.cksum tv) tv := by
  simp only [addItem, capacity_setTime, div_ten]
  by_cases hlt : c.capacity.toNat < (c.setTime tv blk).cache.size
  · rw [if_pos hlt]
    have hn : 0 < c.capacity.toNat / 10 := by omega
    obtain ⟨heap, hok, -⟩ := removeItems_ok pq (c.setTime tv blk) hn
    exact ⟨_, hok, rfl, keySet_erase_subset _ heap, .inr ⟨hlt, removeItems_size hn hok⟩,
      fun last h => (h.setTime blk).removeItems hn hok⟩
  · rw [if_neg hlt]
    exact ⟨_, rfl, rfl, subset_rfl, .inl ⟨rfl, not_lt.1 hlt⟩, fun last h => h.setTime blk⟩

/-- Whatever the capacity is, nothing else comes into the cache. -/
theorem addItem_keySet {c c' : CdsLruCache} {tv : Timeval} {blk : Block}
    (h : c.addItem pq tv blk = .ok c') : c'.keySet ⊆ (c.setTime tv blk).keySet := by
  unfold addItem at h
  simp only at h
  split at h
  · obtain ⟨heap, -, hc⟩ := bind_eq_ok.1 h
    cases hc
    exact keySet_erase_subset _ heap
  · cases h
    exact subset_rfl

theorem capacity_setTimes (c : CdsLruCache) (tv : Timeval) (blks : List Block) :
    (blks.foldl (fun c blk => c.setTime tv blk) c).capacity = c.capacity := by
  induction blks generalizing c with
  | nil => rfl
  | cons blk blks ih => exact ih (c.setTime tv blk)

theorem size_setTime_of_mem (h : blk.cksum ∈ c.keySet) :
    (c.setTime tv blk).cache.size = c.cache.size := by
  rw [← card_keySet, ← card_keySet, keySet_setTime, Finset.insert_eq_of_mem h]

theorem size_setTime_of_notMem (tv : Timeval) (h : blk.cksum ∉ c.keySet) :
    (c.setTime tv blk).cache.size = c.cache.size + 1 := by
  rw [← card_keySet, ← card_keySet, keySet_setTime, Finset.card_insert_of_notMem h]

/-! ## Runs -/

/-- The blocks that a call adds, or finds. -/
def Call.accesses (c : CdsLruCache) : Call → List Checksum
  | .addItem blk => [blk.cksum]
  | .batchAddItem blklist => blklist.map Block.cksum
  | .searchItem blk => if blk.cksum ∈ c.keySet then [blk.cksum] else []

/-- The time of the last add or successful search of each block, from those of `last` on. -/
def lastAccess (pq : PriorityQueue CacheItem.time) (clock : Clock) :
    State → (Checksum → WithBot Timeval) → List Call → Checksum → WithBot Timeval
  | _, last, [] => last
  | st, last, x :: calls =>
    let last := (x.accesses st.1).foldl (fun last k => accessed last k (clock st.2)) last
    match call pq clock st x with
    | .ok st => lastAccess pq clock st last calls
    | .error _ => last

/-- **One call.** -/
theorem call_recent (pq : PriorityQueue CacheItem.time) {clock : Clock} (hclock : Monotone clock)
    {st : State} (hcap : 10 ≤ st.1.capacity.toNat) (h : Recent st.1 last (clock st.2)) (x : Call) :
    ∃ st', call pq clock st x = .ok st' ∧ st'.1.capacity = st.1.capacity ∧
      Recent st'.1 ((x.accesses st.1).foldl (fun last k => accessed last k (clock st.2)) last)
        (clock st'.2) := by
  have hnext : clock st.2 ≤ clock (st.2 + 1) := hclock (Nat.le_succ _)
  rcases x with blk | blklist | blk
  · obtain ⟨c', hok, hcap', -, -, hrec⟩ := addItem_ok pq st.1 (clock st.2) blk hcap
    refine ⟨(c', st.2 + 1), ?_, hcap', (hrec last h).mono hnext⟩
    rw [call, hok]
    rfl
  · obtain ⟨c', hok, hcap', -, hrec⟩ := Recent.removeExcess pq
      (blklist.foldl (fun c blk => c.setTime (clock st.2) blk) st.1)
    rw [capacity_setTimes] at hcap'
    refine ⟨(c', st.2 + 1), ?_, hcap', (hrec _ _ (h.setTimes blklist)).mono hnext⟩
    rw [call, batchAddItem, hok]
    rfl
  · by_cases hk : blk.cksum ∈ st.1.keySet
    · obtain ⟨old, hold⟩ : ∃ old, st.1.cache.find? blk.cksum = some old := by
        by_contra hnone
        push Not at hnone
        exact find?_eq_none.1 (Option.eq_none_iff_forall_ne_some.2 hnone) hk
      refine ⟨(st.1.setTime (clock st.2) blk, st.2 + 1), ?_, rfl, ?_⟩
      · simp only [call, searchItem, hold, if_true]
      · simp only [Call.accesses, hk, if_true, List.foldl_cons, List.foldl_nil]
        exact (h.setTime blk).mono hnext
    · refine ⟨st, ?_, rfl, ?_⟩
      · simp only [call, searchItem, find?_eq_none.2 hk, Bool.false_eq_true, if_false]
      · simp only [Call.accesses, hk, if_false, List.foldl_nil]
        exact h

theorem run_recent (pq : PriorityQueue CacheItem.time) {clock : Clock} (hclock : Monotone clock)
    (calls : List Call) :
    ∀ (st : State) (last : Checksum → WithBot Timeval), 10 ≤ st.1.capacity.toNat →
      Recent st.1 last (clock st.2) →
      ∃ st', calls.foldlM (call pq clock) st = .ok st' ∧
        Recent st'.1 (lastAccess pq clock st last calls) (clock st'.2) := by
  induction calls with
  | nil => exact fun st last _ h => ⟨st, rfl, h⟩
  | cons x calls ih =>
    intro st last hcap h
    obtain ⟨st1, hok, hcap1, hrec⟩ := call_recent pq hclock hcap h x
    obtain ⟨st', hok', hrec'⟩ := ih st1 _ (by rwa [hcap1]) hrec
    refine ⟨st', ?_, ?_⟩
    · rw [List.foldlM_cons, hok]
      exact hok'
    · unfold lastAccess
      rw [hok]
      exact hrec'

theorem capacity_toNat {size : Int32} (h : 0 ≤ size) : size.toUInt32.toNat = size.toInt.toNat :=
  Int32.toNat_toUInt32_of_le h

theorem ten_le_capacity {size : Int32} (h : 10 ≤ size) : 10 ≤ (new size).capacity.toNat := by
  have h10 : (10 : ℤ) ≤ size.toInt := Int32.le_iff_toInt_le.1 h
  have heq := capacity_toNat (Int32.le_trans (by decide) h)
  change 10 ≤ size.toUInt32.toNat
  omega

theorem recent_new (size : Int32) (now : Timeval) : Recent (new size) (fun _ => ⊥) now :=
  ⟨fun _ hit => absurd hit List.not_mem_nil, fun _ _ _ _ => le_rfl, fun _ => bot_le⟩

/-- **Recency.** Whatever calls are made, with whatever readings of a clock that does not
go back: an item has the time of the last access of its block, and no block that is not
cached was accessed later. -/
theorem recency (pq : PriorityQueue CacheItem.time) (clock : Clock) (hclock : Monotone clock)
    (size : Int32) (hsize : 10 ≤ size) (calls : List Call) :
    ∃ st, run pq clock size calls = .ok st ∧ ∀ it ∈ st.1.cache.entries,
      lastAccess pq clock (new size, 0) (fun _ => ⊥) calls it.1 = CacheItem.time it ∧
        ∀ g, (∀ jt ∈ st.1.cache.entries, jt.1 ≠ g) →
          lastAccess pq clock (new size, 0) (fun _ => ⊥) calls g ≤ CacheItem.time it := by
  obtain ⟨st, hok, hrec⟩ := run_recent pq hclock calls (new size, 0) (fun _ => ⊥)
    (ten_le_capacity hsize)
    (recent_new size _)
  refine ⟨st, hok, ?_⟩
  intro it hit
  have ht := hrec.times it hit
  refine ⟨ht, ?_⟩
  intro g hg
  rw [← ht]
  apply hrec.recent _ (mem_keySet.2 ⟨it, hit, rfl⟩) g
  intro hgk
  obtain ⟨jt, hjt, hj⟩ := mem_keySet.1 hgk
  exact hg jt hjt hj

/-- Seconds that pass. -/
def tickClock : Clock := fun n => ⟨n, 0⟩

theorem tickClock_strictMono : StrictMono tickClock := by
  intro m n h
  refine Prod.Lex.lt_iff.2 (.inl ?_)
  change (m : ℤ) < n
  omega

/-- Ten blocks, in descending order. -/
def tenCalls : List Call := [10, 9, 8, 7, 6, 5, 4, 3, 2, 1].map fun n => .addItem (blockEnding n)

/-- Then the oldest is found, three others come, and one that was evicted returns. -/
def moreCalls : List Call :=
  tenCalls ++ [.searchItem (blockEnding 10), .addItem (blockEnding 11),
    .batchAddItem [blockEnding 12, blockEnding 13], .addItem (blockEnding 9)]

theorem recency_more :
    ∃ st, run (.descending CacheItem.time) tickClock 10 moreCalls = .ok st ∧
      ∀ it ∈ st.1.cache.entries,
        lastAccess (.descending CacheItem.time) tickClock (new 10, 0) (fun _ => ⊥) moreCalls it.1 =
            CacheItem.time it ∧
          ∀ g, (∀ jt ∈ st.1.cache.entries, jt.1 ≠ g) →
            lastAccess (.descending CacheItem.time) tickClock (new 10, 0) (fun _ => ⊥) moreCalls g ≤
              CacheItem.time it :=
  recency (.descending CacheItem.time) tickClock tickClock_strictMono.monotone 10 (by decide)
    moreCalls

/-! ## Capacity -/

/-- After every call of the run the cache is within its capacity, and no empty heap was
read. -/
def WithinCapacity (pq : PriorityQueue CacheItem.time) (clock : Clock) (size : Int32)
    (calls : List Call) : Prop :=
  ∀ n, ∃ st, run pq clock size (calls.take n) = .ok st ∧ (st.1.cache.size : ℤ) ≤ size.toInt

/-- A call that does not add a new block to a full cache, unless ten or more fit in. -/
def Call.Fits (c : CdsLruCache) (x : Call) : Prop :=
  10 ≤ c.capacity.toNat ∨
    ∀ blk, x = .addItem blk → blk.cksum ∈ c.keySet ∨ c.cache.size < c.capacity.toNat

/-- **One call that fits.** -/
theorem call_fits (pq : PriorityQueue CacheItem.time) (clock : Clock) {st : State}
    (hle : st.1.cache.size ≤ st.1.capacity.toNat)
    {x : Call} (hfits : x.Fits st.1) :
    ∃ st', call pq clock st x = .ok st' ∧ st'.1.capacity = st.1.capacity ∧
      st'.1.cache.size ≤ st.1.capacity.toNat := by
  rcases x with blk | blklist | blk
  · have hnew : (st.1.setTime (clock st.2) blk).cache.size ≤ st.1.capacity.toNat + 1 := by
      by_cases hk : blk.cksum ∈ st.1.keySet
      · rw [size_setTime_of_mem hk]
        omega
      · rw [size_setTime_of_notMem _ hk]
        omega
    by_cases hlt : st.1.capacity.toNat < (st.1.setTime (clock st.2) blk).cache.size
    · -- the block is new and the cache is full
      have hcap : 10 ≤ st.1.capacity.toNat := by
        rcases hfits with h | h
        · exact h
        · rcases h blk rfl with hk | hroom
          · rw [size_setTime_of_mem hk] at hlt
            omega
          · have := (st.1.setTime (clock st.2) blk).card_keySet
            rw [keySet_setTime] at this
            have := Finset.card_insert_le blk.cksum st.1.keySet
            rw [card_keySet] at this
            omega
      obtain ⟨c', hok, hcap', -, hsize, -⟩ := addItem_ok pq st.1 (clock st.2) blk hcap
      refine ⟨(c', st.2 + 1), ?_, hcap', ?_⟩
      · rw [call, hok]
        rfl
      · change c'.cache.size ≤ _
        omega
    · refine ⟨(st.1.setTime (clock st.2) blk, st.2 + 1), ?_, rfl, not_lt.1 hlt⟩
      rw [call, addItem, capacity_setTime, if_neg hlt]
      rfl
  · obtain ⟨c', hok, hcap', hle', -⟩ := Recent.removeExcess pq
      (blklist.foldl (fun c blk => c.setTime (clock st.2) blk) st.1)
    rw [capacity_setTimes] at hcap' hle'
    refine ⟨(c', st.2 + 1), ?_, hcap', hle'⟩
    rw [call, batchAddItem, hok]
    rfl
  · rcases hfind : st.1.cache.find? blk.cksum with - | old
    · refine ⟨st, ?_, rfl, hle⟩
      simp only [call, searchItem, hfind, Bool.false_eq_true, if_false]
    · have hk : blk.cksum ∈ st.1.keySet := by
        by_contra hk
        rw [find?_eq_none.2 hk] at hfind
        cases hfind
      refine ⟨(st.1.setTime (clock st.2) blk, st.2 + 1), ?_, rfl, ?_⟩
      · simp only [call, searchItem, hfind, if_true]
      · rwa [size_setTime_of_mem hk]

/-- **One that does not**: nothing is removed, and the top of no heap is read. -/
theorem call_fault {clock : Clock} {st : State} (hle : st.1.cache.size ≤ st.1.capacity.toNat)
    {x : Call} (hfits : ¬ x.Fits st.1) : call pq clock st x = .error .emptyHeap := by
  unfold Call.Fits at hfits
  push Not at hfits
  obtain ⟨hcap, blk, rfl, hk, hfull⟩ := hfits
  have hsize := size_setTime_of_notMem (clock st.2) hk
  have hzero : (st.1.capacity / 10).toNat = 0 := by
    rw [div_ten]
    omega
  rw [call, addItem, capacity_setTime, if_pos (by omega), hzero, removeItems_zero pq (by omega)]
  rfl

theorem removeItems_capacity (h : c.removeItems pq n = .ok c') : c'.capacity = c.capacity := by
  unfold removeItems at h
  rcases hfold : c.cache.entries.foldlM (fillHeap pq n) [] with e | heap
  · rw [hfold] at h
    cases h
  · rw [hfold] at h
    cases h
    rfl

theorem addItem_capacity (h : c.addItem pq tv blk = .ok c') : c'.capacity = c.capacity := by
  rw [addItem] at h
  split at h
  · exact (removeItems_capacity h).trans capacity_setTime
  · cases h
    rfl

theorem call_capacity {clock : Clock} {st st' : State} {x : Call}
    (h : call pq clock st x = .ok st') : st'.1.capacity = st.1.capacity := by
  rcases x with blk | blklist | blk
  · rw [call] at h
    rcases hadd : st.1.addItem pq (clock st.2) blk with e | c'
    · rw [hadd] at h
      cases h
    · rw [hadd] at h
      cases h
      exact addItem_capacity hadd
  · obtain ⟨c', hok, hcap, -⟩ := Recent.removeExcess pq
      (blklist.foldl (fun c blk => c.setTime (clock st.2) blk) st.1)
    rw [call, batchAddItem, hok] at h
    cases h
    rwa [capacity_setTimes] at hcap
  · cases h
    change (st.1.searchItem (clock st.2) blk).2.capacity = _
    unfold searchItem
    split <;> rfl

theorem run_capacity {clock : Clock} {size : Int32} {calls : List Call} {st : State}
    (h : run pq clock size calls = .ok st) : st.1.capacity = (new size).capacity :=
  run_keeps (P := fun st : State => st.1.capacity = (new size).capacity)
    (fun _ _ _ hx hs => (call_capacity hx).trans hs) h rfl

/-- **When a run keeps to the capacity**: ten or more blocks fit in, or no call of
`AddItem` finds the cache full and its block not there. -/
theorem withinCapacity_iff (pq : PriorityQueue CacheItem.time) (clock : Clock) (size : Int32)
    (hsize : 1 ≤ size) (calls : List Call) :
    WithinCapacity pq clock size calls ↔
      10 ≤ size ∨ ∀ n st blk, run pq clock size (calls.take n) = .ok st →
        calls[n]? = some (.addItem blk) →
        (∃ it ∈ st.1.cache.entries, it.1 = blk.cksum) ∨ (st.1.cache.size : ℤ) < size.toInt := by
  have h1 : (1 : ℤ) ≤ size.toInt := Int32.le_iff_toInt_le.1 hsize
  have h10 : 10 ≤ size ↔ (10 : ℤ) ≤ size.toInt := Int32.le_iff_toInt_le
  have hcap : (new size).capacity.toNat = size.toInt.toNat :=
    capacity_toNat (Int32.le_trans (by decide) hsize)
  rw [h10]
  constructor
  · intro h
    rw [or_iff_not_imp_left]
    intro hsmall n st blk hst hx
    obtain ⟨st', hst', hle⟩ := h n
    rw [hst] at hst'
    cases hst'
    have hst1 := run_capacity hst
    by_contra hnot
    rw [← mem_keySet, not_or] at hnot
    obtain ⟨st2, hst2, -⟩ := h (n + 1)
    -- the next call reads the empty heap
    have hfits : ¬ (Call.addItem blk).Fits st.1 := by
      unfold Call.Fits
      rw [hst1, hcap, not_or]
      refine ⟨by omega, ?_⟩
      intro h
      rcases h blk rfl with hk | hroom
      · exact hnot.1 hk
      · omega
    unfold run at hst2
    rw [run_take_succ hx, ← run, hst] at hst2
    change call pq clock st (.addItem blk) = .ok st2 at hst2
    rw [call_fault (by rw [hst1, hcap]; omega) hfits] at hst2
    cases hst2
  · intro h n
    suffices hrun : ∃ st, run pq clock size (calls.take n) = .ok st ∧
        st.1.cache.size ≤ size.toInt.toNat by
      obtain ⟨st, hst, hle⟩ := hrun
      exact ⟨st, hst, by omega⟩
    refine run_invariant (I := fun _ (st : State) => st.1.cache.size ≤ size.toInt.toNat)
       (Nat.zero_le _) ?_ n
    intro m x st hx hst hle
    have hst1 := run_capacity hst
    have hfits : x.Fits st.1 := by
      unfold Call.Fits
      rw [hst1, hcap]
      rcases h with h | h
      · exact .inl (by omega)
      · refine .inr ?_
        rintro blk rfl
        rcases h m st blk hst hx with hk | hroom
        · exact .inl (mem_keySet.2 hk)
        · exact .inr (by omega)
    obtain ⟨st', hok, hcap', hle'⟩ := call_fits pq clock
      (by rw [hst1, hcap]; exact hle) hfits
    rw [hst1, hcap] at hle'
    exact ⟨st', hok, hle'⟩

/-- These calls in a cache for eleven. -/
theorem withinCapacity_more :
    WithinCapacity (.descending CacheItem.time) tickClock 11 moreCalls ↔
      10 ≤ (11 : Int32) ∨ ∀ n st blk,
        run (.descending CacheItem.time) tickClock 11 (moreCalls.take n) = .ok st →
        moreCalls[n]? = some (.addItem blk) →
        (∃ it ∈ st.1.cache.entries, it.1 = blk.cksum) ∨
          (st.1.cache.size : ℤ) < (11 : Int32).toInt :=
  withinCapacity_iff (.descending CacheItem.time) tickClock 11 (by decide) moreCalls

/-- Two blocks in a cache for one. -/
theorem exceedsCapacity_one :
    ¬ WithinCapacity (.descending CacheItem.time) tickClock 1
      [.addItem (blockEnding 0), .addItem (blockEnding 1)] := by
  intro h
  obtain ⟨st, hst, -⟩ := h 2
  have hfault : run (.descending CacheItem.time) tickClock 1
      ([Call.addItem (blockEnding 0), .addItem (blockEnding 1)].take 2) = .error .emptyHeap := rfl
  rw [hfault] at hst
  cases hst

end CdsLruCache

end DedupSim
