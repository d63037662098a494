import DedupSim.Proof.CacheInclusion

/-!
# The hits of a run

When a run of `dedup_cds_lru` finds a block of the CDS in its cache.

* `held`, `window`: the accesses that a cache holds that has missed each of them;
  `Follows.keySet_eq`: **while it misses, the cache is the window.**
* `cacheLevels_apart`: **with a clock that advances, a run never hits if and only if no
  access is in the window before it.**
* `cacheLevels_fresh`, `exists_hit`: **with any clock, if and only if no checksum comes twice.**
-/

namespace DedupSim

variable {pq : PriorityQueue CacheItem.time} {clock : Clock} {cds : List Block} {b b' : Block}
  {st st' : CdsLruCache.State} {cap n : ℕ} {x : Checksum} {seen : List Checksum}
  {bs bs' : List Block} {c c' : CdsLruCache} {tv early late : Timeval}

open CdsLruCache

/-! ## One block -/

/-- The checksums of the CDS among the blocks, in order. -/
def accesses (cds bs : List Block) : List Checksum :=
  (bs.map Block.cksum).filter (· ∈ cds.map Block.cksum)

theorem accesses_cons_of_mem (hb : b.cksum ∈ cds.map Block.cksum) :
    accesses cds (b :: bs) = b.cksum :: accesses cds bs := by
  unfold accesses
  rw [List.map_cons, List.filter_cons_of_pos]
  exact decide_eq_true hb

theorem accesses_cons_of_notMem (hb : b.cksum ∉ cds.map Block.cksum) :
    accesses cds (b :: bs) = accesses cds bs := by
  unfold accesses
  rw [List.map_cons, List.filter_cons_of_neg]
  exact fun h => hb (of_decide_eq_true h)

theorem inCds_addItem (hin : InCds cds c) (hcap : 10 ≤ c.capacity.toNat)
    (hb : b.cksum ∈ cds.map Block.cksum) (h : c.addItem pq tv b = .ok c') : InCds cds c' := by
  obtain ⟨c'', hok, -, hkeys, -⟩ := addItem_ok pq c tv b hcap
  rw [h] at hok
  cases hok
  exact fun k hk => inCds_setTime hin tv b hb k (hkeys hk)

/-- Level 3 keeps the capacity, and the cache within the CDS. -/
theorem cacheLevel_keeps (hcds : cds.Pairwise fun a b => a.cksum ≤ b.cksum)
    (hcap : 10 ≤ st.1.capacity.toNat) (hin : InCds cds st.1)
    (h : cacheLevel pq clock cds st b = .ok (st', b')) :
    st'.1.capacity = st.1.capacity ∧ InCds cds st'.1 := by
  rcases cacheLevel_cases hcds h with ⟨hk, rfl, -⟩ | ⟨-, hb, hadd, -, -⟩ | ⟨-, -, rfl, -⟩
  · exact ⟨rfl, inCds_setTime hin _ b (hin _ hk)⟩
  · exact ⟨addItem_capacity hadd,
      inCds_addItem (b := { b with fileId := b.fileId ||| inCds }) hin hcap hb hadd⟩
  · exact ⟨rfl, hin⟩

/-- The number of items after a block that was not there. -/
theorem addItem_size (hcap : 10 ≤ c.capacity.toNat) (hle : c.cache.size ≤ c.capacity.toNat)
    (hk : b.cksum ∉ c.keySet) (h : c.addItem pq tv b = .ok c') :
    c'.cache.size =
      if c.cache.size < c.capacity.toNat then c.cache.size + 1
      else c.capacity.toNat + 1 - c.capacity.toNat / 10 := by
  obtain ⟨c'', hok, -, -, hsize, -⟩ := addItem_ok pq c tv b hcap
  rw [h] at hok
  cases hok
  have hset := size_setTime_of_notMem tv hk
  split
  · rcases hsize with ⟨rfl, -⟩ | ⟨hlt, -⟩
    · exact hset
    · omega
  · rcases hsize with ⟨-, hle'⟩ | ⟨-, hsize⟩
    · omega
    · omega

/-! ## The window -/

/-- The number of items after `n` accesses that missed: a miss of a full cache evicts a
tenth. -/
def held (cap : ℕ) : ℕ → ℕ
  | 0 => 0
  | n + 1 => if held cap n < cap then held cap n + 1 else cap + 1 - cap / 10

/-- The accesses that the cache holds, if all of them missed. -/
def window (cap : ℕ) (seen : List Checksum) : List Checksum :=
  seen.drop (seen.length - held cap seen.length)

/-- No access of the list is in the window before it. -/
def ApartFrom (cap : ℕ) : List Checksum → List Checksum → Prop
  | _, [] => True
  | seen, x :: xs => x ∉ window cap seen ∧ ApartFrom cap (seen ++ [x]) xs

/-- **No checksum comes again while a cache for `cap` blocks holds it.** -/
def Apart (cap : ℕ) (xs : List Checksum) : Prop := ApartFrom cap [] xs

theorem held_le (n : ℕ) (hcap : 10 ≤ cap) : held cap n ≤ n ∧ held cap n ≤ cap := by
  induction n with
  | zero => exact ⟨le_rfl, Nat.zero_le _⟩
  | succ n ih =>
    unfold held
    split <;> omega

theorem length_window (hcap : 10 ≤ cap) (seen : List Checksum) :
    (window cap seen).length = held cap seen.length := by
  have hle := (held_le seen.length hcap).1
  unfold window
  rw [List.length_drop]
  omega

/-- The window moves on. -/
theorem window_snoc (hcap : 10 ≤ cap) (seen : List Checksum) (x : Checksum) :
    (window cap (seen ++ [x])).Sublist (window cap seen ++ [x]) := by
  have hle := held_le seen.length hcap
  have hstep : held cap (seen.length + 1) ≤ held cap seen.length + 1 := by
    rw [held]
    split <;> omega
  unfold window
  rw [List.length_append, List.length_singleton, ← List.drop_append_of_le_length (by omega)]
  apply List.drop_sublist_drop_left
  omega

/-- The accesses of a list. -/
def Accesses.ofList (seen : List Checksum) : Accesses := seen.foldl Accesses.push .none

theorem Accesses.ofList_snoc (seen : List Checksum) (x : Checksum) :
    ofList (seen ++ [x]) = (ofList seen).push x := by
  unfold ofList
  rw [List.foldl_append]
  rfl

theorem Accesses.ofList_next (seen : List Checksum) : (ofList seen).next = seen.length := by
  induction seen using List.reverseRecOn with
  | nil => rfl
  | append_singleton seen x ih =>
    rw [ofList_snoc, List.length_append, List.length_singleton, ← ih]
    rfl

/-- What is accessed from the `m`-th access on. -/
theorem Accesses.mem_drop (m : ℕ) (x : Checksum) (seen : List Checksum) :
    x ∈ seen.drop m ↔ (m : WithBot ℕ) ≤ (ofList seen).last x := by
  induction seen using List.reverseRecOn with
  | nil =>
    rw [List.drop_nil]
    exact iff_of_false List.not_mem_nil (WithBot.bot_lt_coe m).not_ge
  | append_singleton seen y ih =>
    rw [ofList_snoc]
    rcases le_or_gt m seen.length with hm | hm
    · rw [List.drop_append_of_le_length hm, List.mem_append, List.mem_singleton, ih]
      by_cases hxy : x = y
      · subst hxy
        rw [push_self, ofList_next]
        exact iff_of_true (.inr rfl) (WithBot.coe_le_coe.2 hm)
      · rw [push_of_ne _ hxy]
        exact or_iff_left hxy
    · rw [List.drop_of_length_le (by rw [List.length_append, List.length_singleton]; exact hm)]
      refine iff_of_false List.not_mem_nil (lt_of_lt_of_le (Accesses.lt _ x) ?_).not_ge
      change ((ofList seen).next + 1 : ℕ) ≤ (m : WithBot ℕ)
      rw [ofList_next]
      exact WithBot.coe_le_coe.2 hm

/-- What was accessed last. -/
theorem isRecent_drop (m : ℕ) (seen : List Checksum) :
    IsRecent (seen.drop m).toFinset (Accesses.ofList seen).last := by
  intro k hk g hg
  rw [List.mem_toFinset, Accesses.mem_drop] at hk hg
  exact (not_le.1 hg).le.trans hk

/-- **The cache is the window.** -/
theorem Follows.keySet_eq (hclock : StrictMono clock) (hcap : 10 ≤ cap)
    (h : Follows clock cap (.ofList seen) st) (hsize : st.1.cache.size = held cap seen.length)
    (hnodup : (window cap seen).Nodup) : st.1.keySet = (window cap seen).toFinset := by
  have hcard : (window cap seen).toFinset.card = st.1.keySet.card := by
    rw [List.toFinset_card_of_nodup hnodup, length_window hcap, card_keySet, hsize]
  refine Finset.eq_of_subset_of_card_le ?_ hcard.le
  apply (h.isRecent hclock).subset (isRecent_drop _ seen) hcard.ge
  exact fun k hk j _ hkj => Accesses.inj _ k j hkj (h.accessed_of_mem hk)

/-- A run so far without a hit. -/
structure Missed (clock : Clock) (cap : ℕ) (cds : List Block) (seen : List Checksum)
    (st : CdsLruCache.State) : Prop where
  follows : Follows clock cap (.ofList seen) st
  size : st.1.cache.size = held cap seen.length
  nodup : (window cap seen).Nodup
  inCds : InCds cds st.1

theorem missed_new (clock : Clock) {size : Int32} (hsize : 0 ≤ size) (cds : List Block) :
    Missed clock size.toInt.toNat cds [] (CdsLruCache.new size, 0) :=
  ⟨follows_new clock hsize, rfl, List.nodup_nil, inCds_new cds size⟩

/-- **One more miss.** -/
theorem Missed.miss (hclock : Monotone clock) (hcap : 10 ≤ cap) (h : Missed clock cap cds seen st)
    (hk : b.cksum ∉ st.1.keySet) (hb : b.cksum ∈ cds.map Block.cksum)
    (hx : b.cksum ∉ window cap seen) {c : CdsLruCache}
    (hok : st.1.addItem pq (clock st.2) b = .ok c) :
    Missed clock cap cds (seen ++ [b.cksum]) (c, st.2 + 1) := by
  have hcapacity := h.follows.capacity
  obtain ⟨c', hok', hfollows⟩ := h.follows.miss pq hclock hk (.inl hcap)
  rw [hok] at hok'
  cases hok'
  refine ⟨?_, ?_, ?_, inCds_addItem h.inCds (by rwa [hcapacity]) hb hok⟩
  · rwa [Accesses.ofList_snoc]
  · have hsize := addItem_size (by rwa [hcapacity]) (by rw [hcapacity]; exact h.follows.le) hk hok
    rw [hcapacity, h.size] at hsize
    rw [List.length_append, List.length_singleton, held]
    exact hsize
  · apply (window_snoc hcap seen b.cksum).nodup
    rw [List.nodup_append]
    refine ⟨h.nodup, List.nodup_singleton _, ?_⟩
    rintro k hkw j hj rfl
    rw [List.mem_singleton] at hj
    exact hx (hj ▸ hkw)

/-- **With a clock that advances** a run never hits if and only if no access is in the window
before it. -/
theorem cacheLevels_apart (hclock : StrictMono clock) (hcap : 10 ≤ cap)
    (hcds : cds.Pairwise fun a b => a.cksum ≤ b.cksum) (bs : List Block) :
    ∀ (seen : List Checksum) (st st' : CdsLruCache.State) (bs' : List Block),
      Missed clock cap cds seen st → (∀ b ∈ bs, b.Marked) →
      cacheLevels pq clock cds st bs = .ok (st', bs') →
      ((∀ b' ∈ bs', ¬ b'.InCache) ↔ ApartFrom cap seen (accesses cds bs)) := by
  induction bs with
  | nil =>
    intro seen st st' bs' _ _ h
    cases h
    exact iff_of_true (fun b hb => absurd hb List.not_mem_nil) trivial
  | cons b bs ih =>
    intro seen st st' bs' hmissed hmarked h
    obtain ⟨st1, b1, bs1, hlevel, hlevels, rfl⟩ := cacheLevels_cons h
    obtain ⟨hhit, hmiss, hout⟩ := (hmarked b (.head _)).inCache
    have hkeys := hmissed.follows.keySet_eq hclock hcap hmissed.size hmissed.nodup
    have hwindow : b.cksum ∈ st.1.keySet ↔ b.cksum ∈ window cap seen := by
      rw [hkeys, List.mem_toFinset]
    have hrest := fun seen st hm => ih seen st st' bs1 hm fun b hb => hmarked b (.tail _ hb)
    rcases cacheLevel_cases hcds hlevel with
      ⟨hk, -, rfl⟩ | ⟨hk, hb, hadd, htick, rfl⟩ | ⟨hk, hb, rfl, rfl⟩
    · rw [accesses_cons_of_mem (hmissed.inCds _ hk)]
      exact iff_of_false (fun hall => hall _ (.head _) hhit) fun hapart => hapart.1 (hwindow.1 hk)
    · have hst1 : (st1.1, st.2 + 1) = st1 := Prod.ext rfl htick.symm
      have hmissed1 := hmissed.miss (b := { b with fileId := b.fileId ||| inCds }) hclock.monotone
        hcap hk hb (fun hw => hk (hwindow.2 hw)) hadd
      rw [hst1] at hmissed1
      rw [accesses_cons_of_mem hb, List.forall_mem_cons, hrest _ _ hmissed1 hlevels]
      exact ⟨fun hall => ⟨fun hw => hk (hwindow.2 hw), hall.2⟩, fun hapart => ⟨hmiss, hapart.2⟩⟩
    · rw [accesses_cons_of_notMem hb, List.forall_mem_cons, hrest _ _ hmissed hlevels]
      exact and_iff_right hout

/-! ## Any clock -/

/-- **Checksums that come once are never hit**, whatever the clock reads. -/
theorem cacheLevels_fresh (hcds : cds.Pairwise fun a b => a.cksum ≤ b.cksum) (bs : List Block) :
    ∀ (st st' : CdsLruCache.State) (bs' : List Block), 10 ≤ st.1.capacity.toNat →
      InCds cds st.1 → (∀ b ∈ bs, b.Marked) → (accesses cds bs).Nodup →
      (∀ x ∈ accesses cds bs, x ∉ st.1.keySet) →
      cacheLevels pq clock cds st bs = .ok (st', bs') → ∀ b' ∈ bs', ¬ b'.InCache := by
  induction bs with
  | nil =>
    intro st st' bs' _ _ _ _ _ h
    cases h
    exact fun b hb => absurd hb List.not_mem_nil
  | cons b bs ih =>
    intro st st' bs' hcap hin hmarked hnodup hnew h
    obtain ⟨st1, b1, bs1, hlevel, hlevels, rfl⟩ := cacheLevels_cons h
    obtain ⟨-, hmiss, hout⟩ := (hmarked b (.head _)).inCache
    have hmarked' : ∀ b ∈ bs, b.Marked := fun b hb => hmarked b (.tail _ hb)
    obtain ⟨hcap1, hin1⟩ := cacheLevel_keeps hcds hcap hin hlevel
    rw [List.forall_mem_cons]
    rcases cacheLevel_cases hcds hlevel with
      ⟨hk, -, -⟩ | ⟨hk, hb, hadd, -, rfl⟩ | ⟨hk, hb, rfl, rfl⟩
    · rw [accesses_cons_of_mem (hin _ hk)] at hnew
      exact absurd hk (hnew _ (.head _))
    · rw [accesses_cons_of_mem hb] at hnodup hnew
      obtain ⟨hnot, hnodup'⟩ := List.nodup_cons.1 hnodup
      refine ⟨hmiss, ih st1 st' bs1 (by rwa [hcap1]) hin1 hmarked' hnodup' ?_ hlevels⟩
      intro x hx hxk
      obtain ⟨c, hok, -, hkeys, -⟩ := addItem_ok pq st.1 (clock st.2)
        { b with fileId := b.fileId ||| inCds } hcap
      rw [hadd] at hok
      cases hok
      rcases Finset.mem_insert.1 ((keySet_setTime _ _ _).subset (hkeys hxk)) with rfl | hxk
      · exact hnot hx
      · exact hnew x (.tail _ hx) hxk
    · rw [accesses_cons_of_notMem hb] at hnodup hnew
      exact ⟨hout, ih _ st' bs1 hcap hin hmarked' hnodup hnew hlevels⟩

/-- Every item has the time `early`. -/
def Plain (early : Timeval) (c : CdsLruCache) : Prop :=
  ∀ it ∈ c.cache.entries, CacheItem.time it = early

/-- The item of `x`, which has the time `late`, is newer than all others. -/
structure Prized (early late : Timeval) (x : Checksum) (c : CdsLruCache) : Prop where
  mem : x ∈ c.keySet
  times : ∀ it ∈ c.cache.entries, CacheItem.time it = if it.1 = x then late else early

theorem Plain.setTime (h : Plain early c) (b : Block) : Plain early (c.setTime early b) := by
  intro it hit
  rcases mem_setTime hit with ⟨-, ht⟩ | ⟨hit, -⟩
  · exact ht
  · exact h it hit

theorem Plain.prize (h : Plain early c) (b : Block) :
    Prized early late b.cksum (c.setTime late b) := by
  refine ⟨mem_keySet_setTime c late b, ?_⟩
  intro it hit
  rcases mem_setTime hit with ⟨hk, ht⟩ | ⟨hit, hk⟩
  · rw [if_pos hk, ht]
  · rw [if_neg hk, h it hit]

theorem Prized.setTime (h : Prized early late x c) (hb : b.cksum ≠ x) :
    Prized early late x (c.setTime early b) := by
  refine ⟨subset_setTime c early b h.mem, ?_⟩
  intro it hit
  rcases mem_setTime hit with ⟨hk, ht⟩ | ⟨hit, -⟩
  · rw [hk, if_neg hb, ht]
  · exact h.times it hit

/-- What `AddItem` evicts is among the oldest, and not all there is. -/
theorem addItem_evicts (hcap : 10 ≤ c.capacity.toNat) (h : c.addItem pq tv b = .ok c') :
    c' = c.setTime tv b ∨ ∃ heap, c' = (c.setTime tv b).erase heap ∧
      Least CacheItem.time (c.capacity.toNat / 10) heap (c.setTime tv b).cache.entries ∧
      c.capacity.toNat / 10 < (c.setTime tv b).cache.size := by
  simp only [addItem, capacity_setTime, div_ten] at h
  split at h
  · rename_i hlt
    obtain ⟨heap, hok, hleast⟩ := removeItems_ok pq (c.setTime tv b)
      (show 0 < c.capacity.toNat / 10 by omega)
    rw [h] at hok
    cases hok
    exact .inr ⟨heap, rfl, hleast, by omega⟩
  · cases h
    exact .inl rfl

theorem addItem_plain (hcap : 10 ≤ c.capacity.toNat) (h : Plain early c)
    (hok : c.addItem pq early b = .ok c') : Plain early c' := by
  have hset := h.setTime b
  rcases addItem_evicts hcap hok with rfl | ⟨heap, rfl, -, -⟩
  · exact hset
  · exact fun it hit => hset it (List.mem_filter.1 hit).1

/-- The newest item stays. -/
theorem addItem_prized (hlt : early < late) (hcap : 10 ≤ c.capacity.toNat)
    (h : Prized early late x (c.setTime tv b)) (hok : c.addItem pq tv b = .ok c') :
    Prized early late x c' := by
  rcases addItem_evicts hcap hok with rfl | ⟨heap, rfl, ⟨out, hperm, hlen, hle⟩, hmore⟩
  · exact h
  refine ⟨?_, fun it hit => h.times it (List.mem_filter.1 hit).1⟩
  obtain ⟨it, hit, rfl⟩ := mem_keySet.1 h.mem
  rcases List.mem_append.1 (hperm.symm.subset hit) with hheap | hout
  · -- something is not evicted, and that is older
    exfalso
    have hkeys := hperm.map Prod.fst |>.nodup_iff.2 (c.setTime tv b).cache.nodup_keys
    rw [List.map_append, List.nodup_append] at hkeys
    have hsize := hperm.length_eq
    rw [List.length_append] at hsize
    unfold OrderedMap.size at hmore
    obtain ⟨jt, hjt⟩ := List.exists_mem_of_length_pos (show 0 < out.length by omega)
    have hne : jt.1 ≠ it.1 :=
      (hkeys.2.2 _ (List.mem_map_of_mem hheap) _ (List.mem_map_of_mem hjt)).symm
    have hage := hle it hheap jt hjt
    rw [h.times it hit, if_pos rfl, h.times jt (hperm.subset (List.mem_append_right _ hjt)),
      if_neg hne] at hage
    exact hage.not_gt hlt
  · exact mem_keySet.2 ⟨it, (erase_perm hperm).symm.subset hout, rfl⟩

/-- The clock that reads `late` once. -/
def onceLate (early late : Timeval) (n : ℕ) : Clock := fun m => if m = n then late else early

/-- A block that comes again while its item is the newest is hit. -/
theorem prized_hit (hlt : early < late) (hcds : cds.Pairwise fun a b => a.cksum ≤ b.cksum)
    (bs : List Block) :
    ∀ (st st' : CdsLruCache.State) (bs' : List Block), 10 ≤ st.1.capacity.toNat → n < st.2 →
      Prized early late x st.1 → x ∈ accesses cds bs → (∀ b ∈ bs, b.Marked) →
      cacheLevels pq (onceLate early late n) cds st bs = .ok (st', bs') →
      ∃ b' ∈ bs', b'.InCache := by
  induction bs with
  | nil => exact fun _ _ _ _ _ _ hx => absurd hx List.not_mem_nil
  | cons b bs ih =>
    intro st st' bs' hcap hn hprized hx hmarked h
    obtain ⟨st1, b1, bs1, hlevel, hlevels, rfl⟩ := cacheLevels_cons h
    obtain ⟨hhit, -, -⟩ := (hmarked b (.head _)).inCache
    have hclock : onceLate early late n st.2 = early := if_neg hn.ne'
    have hrest : ∀ st1 : CdsLruCache.State, 10 ≤ st1.1.capacity.toNat → n < st1.2 →
        Prized early late x st1.1 → x ∈ accesses cds bs →
        cacheLevels pq (onceLate early late n) cds st1 bs = .ok (st', bs1) →
        ∃ b' ∈ b1 :: bs1, b'.InCache := by
      intro st1 hcap1 hn1 hprized1 hx1 hlevels1
      obtain ⟨b', hb', hin⟩ := ih st1 st' bs1 hcap1 hn1 hprized1 hx1
        (fun b hb => hmarked b (.tail _ hb)) hlevels1
      exact ⟨b', .tail _ hb', hin⟩
    rcases cacheLevel_cases hcds hlevel with
      ⟨hk, rfl, rfl⟩ | ⟨hk, hb, hadd, htick, rfl⟩ | ⟨hk, hb, rfl, rfl⟩
    · exact ⟨_, .head _, hhit⟩
    · have hbx : b.cksum ≠ x := fun h => hk (h ▸ hprized.mem)
      rw [accesses_cons_of_mem hb] at hx
      rw [hclock] at hadd
      have hcap' := addItem_capacity hadd
      exact hrest st1 (by rwa [hcap']) (by omega)
        (addItem_prized hlt hcap
          (hprized.setTime (b := { b with fileId := b.fileId ||| inCds }) hbx) hadd)
        ((List.mem_cons.1 hx).resolve_left hbx.symm) hlevels
    · rw [accesses_cons_of_notMem hb] at hx
      exact hrest _ hcap hn hprized hx hlevels

/-- The run before the clock reads `late`. -/
structure Prior (early : Timeval) (cds : List Block) (st : CdsLruCache.State) : Prop where
  capacity : 10 ≤ st.1.capacity.toNat
  inCds : InCds cds st.1
  plain : Plain early st.1

/-- One block before the clock reads `late`. -/
theorem Prior.level (h : Prior early cds st) (hcds : cds.Pairwise fun a b => a.cksum ≤ b.cksum)
    (hclock : b.cksum ∈ cds.map Block.cksum → clock st.2 = early)
    (hlevel : cacheLevel pq clock cds st b = .ok (st', b')) :
    Prior early cds st' ∧ st'.2 = st.2 + if b.cksum ∈ cds.map Block.cksum then 1 else 0 := by
  obtain ⟨hcap', hin'⟩ := cacheLevel_keeps hcds h.capacity h.inCds hlevel
  rcases cacheLevel_cases hcds hlevel with
    ⟨hk, rfl, -⟩ | ⟨-, hb, hadd, htick, -⟩ | ⟨-, hb, rfl, -⟩
  · have hb := h.inCds _ hk
    rw [hclock hb] at hin' ⊢
    rw [if_pos hb]
    exact ⟨⟨h.capacity, hin', h.plain.setTime b⟩, rfl⟩
  · rw [hclock hb] at hadd
    rw [if_pos hb]
    exact ⟨⟨by rw [hcap']; exact h.capacity, hin', addItem_plain h.capacity h.plain hadd⟩, htick⟩
  · rw [if_neg hb]
    exact ⟨h, rfl⟩

/-- **A checksum that comes twice is hit**, with a clock that reads `late` when it first
comes. -/
theorem exists_hit (pq : PriorityQueue CacheItem.time) (hlt : early < late)
    (hcds : cds.Pairwise fun a b => a.cksum ≤ b.cksum) (bs : List Block) :
    (∀ b ∈ bs, b.Marked) → ¬ (accesses cds bs).Nodup →
      ∃ n, ∀ (st st' : CdsLruCache.State) (bs' : List Block), Prior early cds st →
        cacheLevels pq (onceLate early late (st.2 + n)) cds st bs = .ok (st', bs') →
        ∃ b' ∈ bs', b'.InCache := by
  induction bs with
  | nil => exact fun _ hdup => absurd List.nodup_nil hdup
  | cons b bs ih =>
    intro hmarked hdup
    obtain ⟨hhit, -, -⟩ := (hmarked b (.head _)).inCache
    have hmarked' : ∀ b ∈ bs, b.Marked := fun b hb => hmarked b (.tail _ hb)
    by_cases hmem : b.cksum ∈ accesses cds bs
    · -- it is this one that comes again
      have hb : b.cksum ∈ cds.map Block.cksum := of_decide_eq_true (List.mem_filter.1 hmem).2
      refine ⟨0, ?_⟩
      intro st st' bs' h hlevels
      obtain ⟨st1, b1, bs1, hlevel, hrest, rfl⟩ := cacheLevels_cons hlevels
      have hclock : onceLate early late (st.2 + 0) st.2 = late := if_pos rfl
      rcases cacheLevel_cases hcds hlevel with
        ⟨-, -, rfl⟩ | ⟨-, -, hadd, htick, -⟩ | ⟨-, hb', -, -⟩
      · exact ⟨_, .head _, hhit⟩
      · rw [hclock] at hadd
        have hcap := addItem_capacity hadd
        obtain ⟨b', hb', hin⟩ := prized_hit hlt hcds bs st1 st' bs1
          (by rw [hcap]; exact h.capacity) (by omega)
          (addItem_prized hlt h.capacity (h.plain.prize _) hadd) hmem hmarked' hrest
        exact ⟨b', .tail _ hb', hin⟩
      · exact absurd hb hb'
    · have hdup' : ¬ (accesses cds bs).Nodup := by
        intro hnodup
        by_cases hb : b.cksum ∈ cds.map Block.cksum
        · rw [accesses_cons_of_mem hb] at hdup
          exact hdup (List.nodup_cons.2 ⟨hmem, hnodup⟩)
        · rw [accesses_cons_of_notMem hb] at hdup
          exact hdup hnodup
      obtain ⟨n, hn⟩ := ih hmarked' hdup'
      refine ⟨n + if b.cksum ∈ cds.map Block.cksum then 1 else 0, ?_⟩
      intro st st' bs' h hlevels
      obtain ⟨st1, b1, bs1, hlevel, hrest, rfl⟩ := cacheLevels_cons hlevels
      obtain ⟨h1, htick⟩ := h.level hcds (fun hb => if_neg (by rw [if_pos hb]; omega)) hlevel
      have htick' : st.2 + (n + if b.cksum ∈ cds.map Block.cksum then 1 else 0) = st1.2 + n := by
        omega
      rw [htick'] at hrest
      obtain ⟨b', hb', hin⟩ := hn st1 st' bs1 h1 hrest
      exact ⟨b', .tail _ hb', hin⟩

end DedupSim
