import DedupSim.Proof.CdsLruCache

/-!
# What `CdsLruCache` evicts

* `removeItems_oldest`: **`RemoveItems` evicts the `n` oldest items.**
* `searchItem_addItem_iff`: **when a block just added is found.** The reading of the
  clock is the latest of all times, but not the only one if the clock stands still;
  among items of one time `RemoveItems` begins with the first in the order of the map,
  and the new item may be that.
-/

namespace DedupSim

namespace CdsLruCache

variable {pq : PriorityQueue CacheItem.time} {c c' : CdsLruCache} {blk : Block} {tv : Timeval}
  {n : ℕ} {it x : CacheItem} {heap seen pre post its : List CacheItem}

/-! ## `RemoveItems` -/

/-- **`RemoveItems` evicts the `n` oldest items**, and leaves the others as they are. -/
theorem removeItems_oldest (pq : PriorityQueue CacheItem.time) (c : CdsLruCache) (n : ℕ)
    (hn : 1 ≤ n) :
    ∃ c' removed, c.removeItems pq n = .ok c' ∧
      (removed ++ c'.cache.entries).Perm c.cache.entries ∧
      c'.cache.entries.Sublist c.cache.entries ∧
      removed.length = min n c.cache.size ∧
      (∀ old ∈ removed, ∀ it ∈ c'.cache.entries, CacheItem.time old ≤ CacheItem.time it) ∧
      c'.capacity = c.capacity := by
  obtain ⟨heap, hok, out, hperm, hlen, hle⟩ := removeItems_ok pq c hn
  have hkept := erase_perm hperm
  refine ⟨c.erase heap, heap, hok, (hkept.append_left heap).trans hperm, List.filter_sublist,
    hlen, ?_, rfl⟩
  intro old hold it hit
  exact hle old hold it (hkept.subset hit)

/-- Two items of one time, of which one is removed. -/
theorem removeItems_oldest_two :
    ∃ c' removed,
      (((new 10).setTime ⟨5, 0⟩ default).setTime ⟨5, 0⟩ (blockEnding 1)).removeItems
          (.descending CacheItem.time) 1 = .ok c' ∧
        (removed ++ c'.cache.entries).Perm
          (((new 10).setTime ⟨5, 0⟩ default).setTime ⟨5, 0⟩ (blockEnding 1)).cache.entries ∧
        c'.cache.entries.Sublist
          (((new 10).setTime ⟨5, 0⟩ default).setTime ⟨5, 0⟩ (blockEnding 1)).cache.entries ∧
        removed.length =
          min 1 (((new 10).setTime ⟨5, 0⟩ default).setTime ⟨5, 0⟩ (blockEnding 1)).cache.size ∧
        (∀ old ∈ removed, ∀ it ∈ c'.cache.entries, CacheItem.time old ≤ CacheItem.time it) ∧
        c'.capacity = (((new 10).setTime ⟨5, 0⟩ default).setTime ⟨5, 0⟩ (blockEnding 1)).capacity :=
  removeItems_oldest (.descending CacheItem.time)
    (((new 10).setTime ⟨5, 0⟩ default).setTime ⟨5, 0⟩ (blockEnding 1)) 1 le_rfl

/-! ## An item that no other is newer than -/

/-- The heap is full when it comes, so it is left out. -/
theorem fillHeaps_skips (pq : PriorityQueue CacheItem.time) (hn : 0 < n) (hpre : n ≤ pre.length)
    (hmax : ∀ y ∈ pre, CacheItem.time y ≤ x.time) (post : List CacheItem) :
    ∃ heap, (pre ++ x :: post).foldlM (fillHeap pq n) [] = .ok heap ∧
      Least CacheItem.time n heap (pre ++ post) := by
  obtain ⟨heap, hfold, hheap, hleast⟩ := fillHeaps_ok pq hn pre pq.isHeap_nil
    (least_nil CacheItem.time n)
  rw [List.nil_append] at hleast
  have hfull : heap.length = n := by
    rw [hleast.length]
    omega
  have hskip : fillHeap pq n heap x = .ok heap := by
    unfold fillHeap
    rw [if_neg (by omega)]
    rcases heap with - | ⟨top, heap⟩
    · exact absurd hfull hn.ne
    simp only
    rw [if_neg]
    intro hlt
    exact (hmax top (hleast.subset (.head _))).not_gt (Timeval.timercmp_lt.1 hlt)
  obtain ⟨heap', hfold', -, hleast'⟩ := fillHeaps_ok pq hn post hheap hleast
  refine ⟨heap', ?_, hleast'⟩
  rw [List.foldlM_append, hfold]
  change (x :: post).foldlM (fillHeap pq n) heap = _
  rw [List.foldlM_cons, hskip]
  exact hfold'

/-- A heap that gives up the item of `k` after all others of its time. -/
def sparing (k : Checksum) : PriorityQueue CacheItem.time :=
  (PriorityQueue.descending fun it => toLex (CacheItem.time it, decide (it.1 ≠ k))).coarsen
    fun a b h => by
      rcases Prod.Lex.le_iff.1 h with hlt | ⟨heq, -⟩
      · exact le_of_lt hlt
      · exact le_of_eq heq

/-- On top of the heap there is the item of `k` only if all others are older. -/
theorem sparing_top {k : Checksum} {top : CacheItem} (h : (sparing k).IsHeap (top :: heap))
    (hk : top.1 = k) : ∀ y ∈ heap, y.1 ≠ k → CacheItem.time y < top.time := by
  intro y hy hne
  have hle := List.rel_of_pairwise_cons h hy
  rcases Prod.Lex.le_iff.1 hle with hlt | ⟨-, hle⟩
  · exact hlt
  · exfalso
    have htrue : decide (y.1 ≠ k) = true := decide_eq_true hne
    have hfalse : decide (top.1 ≠ k) = false := decide_eq_false (not_not.2 hk)
    change decide (y.1 ≠ k) ≤ decide (top.1 ≠ k) at hle
    rw [htrue, hfalse] at hle
    exact absurd hle (by decide)

/-- **One round spares the item** if fewer than `n` of those seen are older. -/
theorem fillHeap_spares {k : Checksum} (hn : 0 < n) (hheap : (sparing k).IsHeap heap)
    (h : Least CacheItem.time n heap seen) (hx : x ∈ heap) (hk : x.1 = k)
    (hkeys : (seen.map Prod.fst).Nodup)
    (hold : (seen ++ [it]).countP (fun y => decide (CacheItem.time y < x.time)) < n) :
    ∃ heap', fillHeap (sparing k) n heap it = .ok heap' ∧ (sparing k).IsHeap heap' ∧
      Least CacheItem.time n heap' (seen ++ [it]) ∧ x ∈ heap' := by
  obtain ⟨heap', hok, hheap', hleast'⟩ := fillHeap_ok (sparing k) hn hheap h it
  refine ⟨heap', hok, hheap', hleast', ?_⟩
  unfold fillHeap at hok
  split at hok
  · cases hok
    exact ((sparing k).push_perm it hheap).symm.subset (.tail _ hx)
  rename_i hfull
  rcases heap with - | ⟨top, heap⟩
  · cases hx
  simp only at hok
  split at hok
  · rename_i hlt
    cases hok
    have hpush := ((sparing k).push_perm it ((sparing k).isHeap_pop hheap)).trans
      (((sparing k).pop_perm hheap).cons it)
    rcases List.mem_cons.1 hx with rfl | hx
    · -- all others are older, and so is the new one
      exfalso
      obtain ⟨out, hperm, -, -⟩ := h
      have hnodup := (hperm.map Prod.fst).nodup_iff.2 hkeys
      have hothers : heap.countP (fun y => decide (CacheItem.time y < x.time)) = heap.length := by
        apply List.countP_eq_length.2
        intro y hy
        apply decide_eq_true
        apply sparing_top hheap hk y hy
        rw [List.map_append, List.map_cons, List.cons_append, List.nodup_cons] at hnodup
        intro hyk
        apply hnodup.1
        rw [hk, ← hyk]
        exact List.mem_append_left _ (List.mem_map_of_mem hy)
      rw [List.countP_append, ← hperm.countP_eq, List.countP_append, List.countP_cons, hothers,
        List.countP_singleton, decide_eq_true (Timeval.timercmp_lt.1 hlt)] at hold
      simp only [List.length_cons, if_true] at hfull hold
      omega
    · exact hpush.symm.subset (.tail _ hx)
  · cases hok
    exact hx

theorem fillHeaps_spares {k : Checksum} (hn : 0 < n) (its : List CacheItem)
    (hheap : (sparing k).IsHeap heap) (h : Least CacheItem.time n heap seen) (hx : x ∈ heap)
    (hk : x.1 = k) (hkeys : ((seen ++ its).map Prod.fst).Nodup)
    (hold : (seen ++ its).countP (fun y => decide (CacheItem.time y < x.time)) < n) :
    ∃ heap', its.foldlM (fillHeap (sparing k) n) heap = .ok heap' ∧ x ∈ heap' := by
  induction its generalizing heap seen with
  | nil => exact ⟨heap, rfl, hx⟩
  | cons it its ih =>
    rw [← List.singleton_append, ← List.append_assoc] at hkeys hold
    have hseen : (seen.map Prod.fst).Nodup := by
      rw [List.map_append, List.map_append] at hkeys
      exact hkeys.of_append_left.of_append_left
    have hold1 : (seen ++ [it]).countP (fun y => decide (CacheItem.time y < x.time)) < n := by
      rw [List.countP_append] at hold
      omega
    obtain ⟨heap1, h1, hheap1, hleast1, hx1⟩ := fillHeap_spares hn hheap h hx hk hseen hold1
    obtain ⟨heap2, h2, hx2⟩ := ih hheap1 hleast1 hx1 hkeys hold
    refine ⟨heap2, ?_, hx2⟩
    rw [List.foldlM_cons, h1]
    exact h2

/-- The item comes before the heap is full, and too few are older: it is taken. -/
theorem fillHeaps_takes {k : Checksum} (hn : 0 < n) (hpre : pre.length < n) (hk : x.1 = k)
    (hkeys : ((pre ++ x :: post).map Prod.fst).Nodup)
    (hold : (pre ++ x :: post).countP (fun y => decide (CacheItem.time y < x.time)) < n) :
    ∃ heap, (pre ++ x :: post).foldlM (fillHeap (sparing k) n) [] = .ok heap ∧ x ∈ heap := by
  obtain ⟨heap, hfold, hheap, hleast⟩ := fillHeaps_ok (sparing k) hn (pre ++ [x])
    (sparing k).isHeap_nil (least_nil CacheItem.time n)
  rw [List.nil_append] at hleast
  have hx : x ∈ heap := by
    apply (hleast.perm _).symm.subset
    · exact List.mem_append_right _ (List.mem_singleton_self x)
    · rw [List.length_append, List.length_singleton]
      omega
  have hsplit : pre ++ x :: post = pre ++ [x] ++ post := by
    rw [List.append_assoc, List.singleton_append]
  rw [hsplit] at hkeys hold ⊢
  obtain ⟨heap', hfold', hx'⟩ := fillHeaps_spares hn post hheap hleast hx hk hkeys hold
  refine ⟨heap', ?_, hx'⟩
  rw [List.foldlM_append, hfold]
  exact hfold'

theorem mem_keySet_erase {k : Checksum} :
    k ∈ (c.erase heap).keySet ↔ k ∈ c.keySet ∧ k ∉ heap.map Prod.fst := by
  rw [mem_keySet, mem_keySet]
  constructor
  · rintro ⟨it, hit, rfl⟩
    obtain ⟨hit, hout⟩ := List.mem_filter.1 hit
    exact ⟨⟨it, hit, rfl⟩, of_decide_eq_true hout⟩
  · rintro ⟨⟨it, hit, rfl⟩, hout⟩
    exact ⟨it, List.mem_filter.2 ⟨hit, decide_eq_true hout⟩, rfl⟩

/-- **When `RemoveItems` leaves an item that no other is newer than**, with any heap:
there are `n` older ones, or `n` that come before it. -/
theorem removeItems_leaves_iff (hn : 0 < n) (hx : x ∈ c.cache.entries)
    (hmax : ∀ y ∈ c.cache.entries, CacheItem.time y ≤ x.time) :
    (∀ pq : PriorityQueue CacheItem.time, ∃ c', c.removeItems pq n = .ok c' ∧ x.1 ∈ c'.keySet) ↔
      n ≤ c.cache.entries.countP (fun y => decide (CacheItem.time y < x.time)) ∨
        n ≤ c.cache.entries.countP (fun y => decide (y.1 < x.1)) := by
  obtain ⟨pre, post, hsplit, hpre⟩ := OrderedMap.exists_split hx
  have hkeys := c.cache.nodup_keys
  have hxkey : x.1 ∈ c.keySet := mem_keySet.2 ⟨x, hx, rfl⟩
  constructor
  · intro h
    by_contra hfew
    rw [not_or, not_le, not_le, ← hpre] at hfew
    rw [hsplit] at hkeys hfew
    obtain ⟨heap, hfold, hmem⟩ := fillHeaps_takes hn hfew.2 rfl hkeys hfew.1
    obtain ⟨c', hok, hc'⟩ := h (sparing x.1)
    unfold removeItems at hok
    rw [hsplit, hfold] at hok
    cases hok
    exact (mem_keySet_erase.1 hc').2 (List.mem_map_of_mem hmem)
  · intro h pq
    rcases h with hold | hbefore
    · -- the heap holds older ones only
      obtain ⟨heap, hok, hleast⟩ := removeItems_ok pq c hn
      refine ⟨c.erase heap, hok, mem_keySet_erase.2 ⟨hxkey, ?_⟩⟩
      intro hmem
      obtain ⟨it, hit, hk⟩ := List.mem_map.1 hmem
      obtain rfl : it = x := List.inj_on_of_nodup_map hkeys (hleast.subset hit) hx hk
      exact (hleast.countP_lt hit).not_ge hold
    · -- the heap is full when the item comes
      rw [← hpre] at hbefore
      have hpremax : ∀ y ∈ pre, CacheItem.time y ≤ x.time := by
        intro y hy
        apply hmax
        rw [hsplit]
        exact List.mem_append_left _ hy
      obtain ⟨heap, hfold, hleast⟩ := fillHeaps_skips pq hn hbefore hpremax post
      refine ⟨c.erase heap, ?_, mem_keySet_erase.2 ⟨hxkey, ?_⟩⟩
      · unfold removeItems
        rw [hsplit, hfold]
        rfl
      · intro hmem
        rw [hsplit, List.map_append, List.map_cons] at hkeys
        have hout := (List.nodup_cons.1 (List.nodup_middle.1 hkeys)).1
        rw [← List.map_append] at hout
        exact hout (List.map_subset Prod.fst hleast.subset hmem)

/-! ## A block just added -/

theorem searchItem_eq_true : (c.searchItem tv blk).1 = true ↔ blk.cksum ∈ c.keySet := by
  rw [← not_iff_not, ← find?_eq_none]
  unfold searchItem
  rcases c.cache.find? blk.cksum with - | old
  · exact iff_of_true Bool.false_ne_true rfl
  · exact iff_of_false (not_not.2 rfl) (Option.some_ne_none old)

/-- A state that is reached has room for ten and no more than fits in. -/
theorem run_size {clock : Clock} {size : Int32} (hsize : 10 ≤ size) {calls : List Call}
    {st : State} (h : run pq clock size calls = .ok st) :
    10 ≤ st.1.capacity.toNat ∧ st.1.cache.size ≤ st.1.capacity.toNat := by
  refine run_keeps
    (P := fun st : State => 10 ≤ st.1.capacity.toNat ∧ st.1.cache.size ≤ st.1.capacity.toNat)
    ?_ h ⟨ten_le_capacity hsize, Nat.zero_le _⟩
  intro st x st' hx hst
  obtain ⟨st1, hok, hcap, hle⟩ := call_fits pq clock hst.2 (x := x) (.inl hst.1)
  rw [hx] at hok
  cases hok
  rw [hcap]
  exact ⟨hst.1, hle⟩

/-- No item is newer than the next reading of the clock. -/
theorem run_time_le {clock : Clock} (hclock : Monotone clock) {size : Int32} (hsize : 10 ≤ size)
    {calls : List Call} {st : State} (h : run pq clock size calls = .ok st) :
    ∀ it ∈ st.1.cache.entries, CacheItem.time it ≤ clock st.2 := by
  obtain ⟨st', hok, hrec⟩ := run_recent pq hclock calls (new size, 0) (fun _ => ⊥)
    (ten_le_capacity hsize) (recent_new size _)
  unfold run at h
  rw [hok] at h
  cases h
  intro it hit
  have hle := hrec.le_now it.1
  rw [hrec.times it hit] at hle
  exact WithBot.coe_le_coe.1 hle

/-- The items of a new block and of the others. -/
theorem setTime_perm (tv : Timeval) (hk : blk.cksum ∉ c.keySet) :
    (c.setTime tv blk).cache.entries.Perm ((blk.cksum, blk, tv) :: c.cache.entries) := by
  have hnone := find?_eq_none.2 hk
  have hperm := c.cache.alter_perm blk.cksum fun old => ((old.map Prod.fst).getD blk, tv)
  rwa [hnone, OrderedMap.filter_self hnone] at hperm

/-- A block that is not new, or for which there is room, stays. -/
theorem addItem_room (pq : PriorityQueue CacheItem.time) (tv : Timeval)
    (hle : c.cache.size ≤ c.capacity.toNat)
    (hroom : blk.cksum ∈ c.keySet ∨ c.cache.size < c.capacity.toNat) :
    c.addItem pq tv blk = .ok (c.setTime tv blk) := by
  unfold addItem
  simp only
  apply if_neg
  rw [capacity_setTime, not_lt]
  by_cases hk : blk.cksum ∈ c.keySet
  · rwa [size_setTime_of_mem hk]
  · rw [size_setTime_of_notMem tv hk]
    exact hroom.resolve_left hk

/-- **`AddItem` of a new block, with a full cache.** -/
theorem addItem_full_iff (hcap : 10 ≤ c.capacity.toNat) (hfull : c.cache.size = c.capacity.toNat)
    (hk : blk.cksum ∉ c.keySet) (hmax : ∀ it ∈ c.cache.entries, CacheItem.time it ≤ tv) :
    (∀ pq : PriorityQueue CacheItem.time,
        ∃ c', c.addItem pq tv blk = .ok c' ∧ blk.cksum ∈ c'.keySet) ↔
      c.capacity.toNat / 10 ≤ c.cache.entries.countP (fun it => decide (CacheItem.time it < tv)) ∨
        c.capacity.toNat / 10 ≤ c.cache.entries.countP (fun it => decide (it.1 < blk.cksum)) := by
  have hperm := setTime_perm tv hk
  have hmem : (blk.cksum, blk, tv) ∈ (c.setTime tv blk).cache.entries :=
    hperm.symm.subset (.head _)
  have hleaves := removeItems_leaves_iff (n := c.capacity.toNat / 10) (by omega) hmem fun it hit => by
    rcases List.mem_cons.1 (hperm.subset hit) with rfl | hit
    · exact le_rfl
    · exact hmax it hit
  have hadd : ∀ pq, c.addItem pq tv blk =
      (c.setTime tv blk).removeItems pq (c.capacity.toNat / 10) := by
    intro pq
    unfold addItem
    simp only [capacity_setTime, div_ten]
    apply if_pos
    rw [size_setTime_of_notMem tv hk]
    omega
  simp only [hadd]
  apply hleaves.trans
  rw [hperm.countP_eq, hperm.countP_eq, List.countP_cons_of_neg, List.countP_cons_of_neg]
  · rfl
  · rw [decide_eq_true_eq]
    exact lt_irrefl _
  · rw [decide_eq_true_eq]
    exact lt_irrefl _

/-- **When a block just added is found**, in every state of a run, and whatever heap
`RemoveItems` has: the block was there, or the cache was not full, or a tenth of the
capacity is older than the reading of the clock or comes before the block in the map. -/
theorem searchItem_addItem_iff (pq : PriorityQueue CacheItem.time) (clock : Clock)
    (hclock : Monotone clock) (size : Int32) (hsize : 10 ≤ size) (calls : List Call) (st : State)
    (hst : run pq clock size calls = .ok st) (blk : Block) :
    (∀ pq' : PriorityQueue CacheItem.time, ∃ c', st.1.addItem pq' (clock st.2) blk = .ok c' ∧
        (c'.searchItem (clock (st.2 + 1)) blk).1 = true) ↔
      (∃ it ∈ st.1.cache.entries, it.1 = blk.cksum) ∨
      (st.1.cache.size : ℤ) < size.toInt ∨
      size.toInt / 10 ≤
        st.1.cache.entries.countP (fun it => decide (CacheItem.time it < clock st.2)) ∨
      size.toInt / 10 ≤ st.1.cache.entries.countP (fun it => decide (it.1 < blk.cksum)) := by
  obtain ⟨hcap, hle⟩ := run_size hsize hst
  have hmax := run_time_le hclock hsize hst
  have h10 : (10 : ℤ) ≤ size.toInt := Int32.le_iff_toInt_le.1 hsize
  have hsizecap : (st.1.capacity.toNat : ℤ) = size.toInt := by
    rw [run_capacity hst]
    have := capacity_toNat (Int32.le_trans (by decide) hsize : (0 : Int32) ≤ size)
    change ((size.toUInt32.toNat : ℕ) : ℤ) = _
    omega
  simp only [searchItem_eq_true]
  rw [← mem_keySet, ← hsizecap]
  by_cases hroom : blk.cksum ∈ st.1.keySet ∨ st.1.cache.size < st.1.capacity.toNat
  · apply iff_of_true
    · intro pq
      exact ⟨_, addItem_room pq _ hle hroom, mem_keySet_setTime _ _ _⟩
    · rcases hroom with hk | hlt
      · exact .inl hk
      · exact .inr (.inl (by omega))
  · rw [not_or, not_lt] at hroom
    rw [addItem_full_iff hcap (le_antisymm hle hroom.2) hroom.1 hmax]
    constructor
    · intro h
      rcases h with h | h
      · exact .inr (.inr (.inl (by omega)))
      · exact .inr (.inr (.inr (by omega)))
    · intro h
      rcases h with h | h | h | h
      · exact absurd h hroom.1
      · exact absurd h (by omega)
      · exact .inl (by omega)
      · exact .inr (by omega)

/-- An eleventh block, while the clock ticks. -/
theorem searchItem_addItem_eleventh :
    ∃ st, run (.descending CacheItem.time) tickClock 10 tenCalls = .ok st ∧
      ((∀ pq' : PriorityQueue CacheItem.time,
          ∃ c', st.1.addItem pq' (tickClock st.2) (blockEnding 0) = .ok c' ∧
            (c'.searchItem (tickClock (st.2 + 1)) (blockEnding 0)).1 = true) ↔
        (∃ it ∈ st.1.cache.entries, it.1 = (blockEnding 0).cksum) ∨
        (st.1.cache.size : ℤ) < (10 : Int32).toInt ∨
        (10 : Int32).toInt / 10 ≤
          st.1.cache.entries.countP (fun it => decide (CacheItem.time it < tickClock st.2)) ∨
        (10 : Int32).toInt / 10 ≤
          st.1.cache.entries.countP (fun it => decide (it.1 < (blockEnding 0).cksum))) :=
  ⟨_, rfl, searchItem_addItem_iff (.descending CacheItem.time) tickClock
    tickClock_strictMono.monotone 10 (by decide) tenCalls _ rfl (blockEnding 0)⟩

/-- The eleventh while the clock stands still: its checksum is below the others', and it is
evicted by its own `AddItem`. -/
theorem searchItem_addItem_last :
    ∃ st c', run (.descending CacheItem.time) (fun _ => ⟨5, 0⟩) 10 tenCalls = .ok st ∧
        st.1.addItem (.descending CacheItem.time) ⟨5, 0⟩ (blockEnding 0) = .ok c' ∧
        (c'.searchItem ⟨5, 0⟩ (blockEnding 0)).1 = false :=
  ⟨_, _, rfl, rfl, rfl⟩

end CdsLruCache

end DedupSim
