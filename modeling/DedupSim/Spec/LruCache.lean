import DedupSim.Lib.OrderedMap
import DedupSim.Lib.PriorityQueue
import DedupSim.Spec.Simulator
import Mathlib.Data.Prod.Lex

/-!
# The LRU caches (`lru_cache.cpp`)

* `LruCache`: a vector of blocks with access times, sorted by time or by hash.
* `CdsLruCache`: a map from blocks to access times, whose oldest items a bounded
  heap selects.

`so` and `timeSo` are the `std::sort` by hash and by time, `pq` the
`std::priority_queue`. A method that calls `gettimeofday` is given the reading `tv`.
What is undefined in the source is a `CacheFault`.
-/

namespace DedupSim

/-- `struct timeval`. -/
structure Timeval where
  tvSec : ℤ
  tvUsec : ℤ
deriving DecidableEq, Inhabited

namespace Timeval

/-- `timercmp`. -/
def timercmp (a b : Timeval) (cmp : ℤ → ℤ → Bool) : Bool :=
  if a.tvSec = b.tvSec then cmp a.tvUsec b.tvUsec else cmp a.tvSec b.tvSec

/-- The seconds, then the microseconds. -/
def lexKey (t : Timeval) : ℤ ×ₗ ℤ := toLex (t.tvSec, t.tvUsec)

theorem lexKey_injective : Function.Injective lexKey := by
  rintro ⟨s, u⟩ ⟨s', u'⟩ h
  cases h
  rfl

instance : LinearOrder Timeval := LinearOrder.lift' lexKey lexKey_injective

theorem timercmp_lt {a b : Timeval} : a.timercmp b (· < ·) = true ↔ a < b := by
  have h : a < b ↔ a.tvSec < b.tvSec ∨ a.tvSec = b.tvSec ∧ a.tvUsec < b.tvUsec := Prod.Lex.lt_iff
  rw [h, timercmp]
  split
  · rename_i heq
    simp [heq]
  · rename_i hne
    simp [hne]

/-- `TimerNewer`: newer in the strict sense. -/
theorem timercmp_le_eq_zero {a b : Timeval} : a.timercmp b (· ≤ ·) = false ↔ b < a := by
  have h : b < a ↔ b.tvSec < a.tvSec ∨ b.tvSec = a.tvSec ∧ b.tvUsec < a.tvUsec := Prod.Lex.lt_iff
  rw [h, timercmp]
  split
  · rename_i heq
    simp [heq]
  · rename_i hne
    simp only [decide_eq_false_iff_not, not_le, Ne.symm hne, false_and, or_false]

end Timeval

/-- The readings of the clock, in the order in which `gettimeofday` is called. -/
abbrev Clock := ℕ → Timeval

/-- What is undefined: the top of an empty heap, an index outside a vector. -/
inductive CacheFault
  | emptyHeap
  | index (i : ℕ)
deriving DecidableEq

/-! ## `LruCache` -/

structure LruCacheEntry extends Block where
  latime : Timeval
deriving DecidableEq, Inhabited

/-- `LruCacheEntry::SetValue`. -/
def LruCacheEntry.setValue (blk : Block) (tv : Timeval) : LruCacheEntry := { blk with latime := tv }

/-- `LruCacheEntry::SetAccessTime`. -/
def LruCacheEntry.setAccessTime (ent : LruCacheEntry) (tv : Timeval) : LruCacheEntry :=
  { ent with latime := tv }

/-- The order of `std::sort` with `TimerNewer`, from new to old. -/
def LruCacheEntry.age (ent : LruCacheEntry) : Timevalᵒᵈ := OrderDual.toDual ent.latime

/-- The order of `std::sort` without it, by hash. -/
def LruCacheEntry.key (ent : LruCacheEntry) : Checksum := ent.cksum

structure LruCache where
  cache : List LruCacheEntry
  capacity : UInt32

namespace LruCache

/-- `LruCache::LruCache`. -/
def new (size : Int32) : LruCache where
  cache := []
  capacity := size.toUInt32

variable (so : Sorter LruCacheEntry.key) (timeSo : Sorter LruCacheEntry.age)

/-- `LruCache::RemoveItems`: the loop calls `pop_back` while `i < n` and there is an item. -/
def removeItems (c : LruCache) (n : Int32) : LruCache :=
  let cache := timeSo.sort c.cache
  { c with cache := cache.take (cache.length - n.toInt.toNat) }

/-- `cache_[cache_.size() - i - 1].SetValue(...)`, with `size_t` indices. -/
def overwrite (tv : Timeval) (cache : List LruCacheEntry) (p : Block × ℕ) :
    Except CacheFault (List LruCacheEntry) :=
  let i := (UInt64.ofNat cache.length - UInt64.ofNat p.2 - 1).toNat
  if i < cache.length then .ok (cache.set i (.setValue p.1 tv)) else .error (.index i)

/-- `LruCache::AddItems`. -/
def addItems (c : LruCache) (tv : Timeval) (seg : Segment) : Except CacheFault LruCache := do
  let c ←
    if c.capacity.toNat ≤ c.cache.length then do
      -- just replace elements
      let cache ← seg.blocklist.zipIdx.foldlM (overwrite tv) (timeSo.sort c.cache)
      pure { c with cache := cache }
    else
      -- make some room for the new data
      let c :=
        if c.capacity.toNat < seg.blocklist.length + c.cache.length then
          removeItems timeSo c
            (Int32.ofNat (seg.blocklist.length + c.cache.length - c.capacity.toNat))
        else c
      pure { c with cache := c.cache ++ seg.blocklist.map fun blk => .setValue blk tv }
  -- sort by hash
  return { c with cache := so.sort c.cache }

/-- `LruCache::SearchItem`. -/
def searchItem (c : LruCache) (tv : Timeval) (blk : Block) : Bool × LruCache :=
  let ent := LruCacheEntry.setValue blk tv
  let it := lowerBound (fun i => (c.cache[i]?).any fun a => a.key < ent.key) 0 c.cache.length
  match c.cache[it]? with
  | some a =>
    if a.key = ent.key then (true, { c with cache := c.cache.set it (a.setAccessTime tv) })
    else (false, c)
  | none => (false, c)

/-- A call of a method. -/
inductive Call
  | addItems (seg : Segment)
  | searchItem (blk : Block)

/-- A cache, and how often the clock was read. -/
abbrev State := LruCache × ℕ

/-- One call: either method reads the clock once. -/
def call (clock : Clock) (st : State) : Call → Except CacheFault State
  | .addItems seg => do
    let c ← addItems so timeSo st.1 (clock st.2) seg
    return (c, st.2 + 1)
  | .searchItem blk => .ok ((st.1.searchItem (clock st.2) blk).2, st.2 + 1)

/-- Calls on an empty cache. -/
def run (clock : Clock) (size : Int32) (calls : List Call) : Except CacheFault State :=
  calls.foldlM (call so timeSo clock) (new size, 0)

end LruCache

/-! ## `CdsLruCache` -/

/-- The items of the map, in the order of their blocks' checksums. -/
abbrev CacheItem := Checksum × Block × Timeval

/-- The access time of an item. -/
def CacheItem.time (it : CacheItem) : Timeval := it.2.2

structure CdsLruCache where
  cache : OrderedMap Checksum (Block × Timeval)
  capacity : UInt32
  keys : ∀ it ∈ cache.entries, it.2.1.cksum = it.1

namespace CdsLruCache

/-- `CdsLruCache::CdsLruCache`. -/
def new (size : Int32) : CdsLruCache where
  cache := .empty
  capacity := size.toUInt32
  keys := fun _ h => by cases h

/-- `cache_[blk] = tv`; a block that is in the map already stays as it is. -/
def setTime (c : CdsLruCache) (tv : Timeval) (blk : Block) : CdsLruCache where
  cache := c.cache.alter blk.cksum fun old => ((old.map Prod.fst).getD blk, tv)
  capacity := c.capacity
  keys := by
    intro it hit
    rcases OrderedMap.mem_alter.1 hit with rfl | ⟨hit, -⟩
    · rcases hold : c.cache.find? blk.cksum with - | old
      · rfl
      · have hkey := c.keys _ (OrderedMap.find?_eq_some.1 hold)
        exact hkey
    · exact c.keys it hit

/-- `cache_.erase` of several iterators. -/
def erase (c : CdsLruCache) (its : List CacheItem) : CdsLruCache where
  cache := c.cache.filter fun it => decide (it.1 ∉ its.map Prod.fst)
  capacity := c.capacity
  keys := fun it hit => c.keys it (List.mem_filter.1 hit).1

variable (pq : PriorityQueue CacheItem.time)

/-- The body of the first loop of `RemoveItems`. -/
def fillHeap (n : ℕ) (myheap : List CacheItem) (it : CacheItem) :
    Except CacheFault (List CacheItem) :=
  -- heap not full, just insert
  if myheap.length < n then .ok (pq.push myheap it)
  else
    -- heap full, remove the top if necessary
    match myheap with
    | [] => .error .emptyHeap
    | top :: _ =>
      if it.time.timercmp top.time (· < ·) then .ok (pq.push (pq.pop myheap) it) else .ok myheap

/-- `CdsLruCache::RemoveItems`. -/
def removeItems (c : CdsLruCache) (n : ℕ) : Except CacheFault CdsLruCache := do
  let myheap ← c.cache.entries.foldlM (fillHeap pq n) []
  return c.erase myheap

/-- `CdsLruCache::SearchItem`; the clock is read if the block is found. -/
def searchItem (c : CdsLruCache) (tv : Timeval) (blk : Block) : Bool × CdsLruCache :=
  match c.cache.find? blk.cksum with
  | none => (false, c)
  | some _ => (true, c.setTime tv blk)

/-- `CdsLruCache::AddItem`. -/
def addItem (c : CdsLruCache) (tv : Timeval) (blk : Block) : Except CacheFault CdsLruCache :=
  let c := c.setTime tv blk
  if c.capacity.toNat < c.cache.size then c.removeItems pq (c.capacity / 10).toNat else .ok c

variable {pq} {c : CdsLruCache} {n : ℕ} {heap out seen : List CacheItem}

/-- One round selects among the items seen so far. -/
theorem fillHeap_ok (pq : PriorityQueue CacheItem.time) (hn : 0 < n) (hheap : pq.IsHeap heap)
    (h : Least CacheItem.time n heap seen) (it : CacheItem) :
    ∃ heap', fillHeap pq n heap it = .ok heap' ∧ pq.IsHeap heap' ∧
      Least CacheItem.time n heap' (seen ++ [it]) := by
  unfold fillHeap
  by_cases hlt : heap.length < n
  · rw [if_pos hlt]
    exact ⟨_, rfl, pq.isHeap_push it hheap, h.push pq hheap hlt it⟩
  rw [if_neg hlt]
  have hfull : heap.length = n := by
    have := h.length
    omega
  rcases heap with - | ⟨top, heap⟩
  · exact absurd hfull hn.ne
  simp only
  by_cases ht : it.time < top.time
  · rw [if_pos (Timeval.timercmp_lt.2 ht)]
    exact ⟨_, rfl, pq.isHeap_push it (pq.isHeap_pop hheap), h.replace pq hheap hfull ht⟩
  · rw [if_neg (fun h => ht (Timeval.timercmp_lt.1 h))]
    exact ⟨_, rfl, hheap, h.skip pq hheap hfull ht⟩

theorem fillHeaps_ok (pq : PriorityQueue CacheItem.time) (hn : 0 < n) (its : List CacheItem)
    (hheap : pq.IsHeap heap) (h : Least CacheItem.time n heap seen) :
    ∃ heap', its.foldlM (fillHeap pq n) heap = .ok heap' ∧ pq.IsHeap heap' ∧
      Least CacheItem.time n heap' (seen ++ its) := by
  induction its generalizing heap seen with
  | nil => exact ⟨heap, rfl, hheap, by rwa [List.append_nil]⟩
  | cons it its ih =>
    obtain ⟨heap1, h1, hheap1, hleast1⟩ := fillHeap_ok pq hn hheap h it
    obtain ⟨heap2, h2, hheap2, hleast2⟩ := ih hheap1 hleast1
    refine ⟨heap2, ?_, hheap2, by rwa [List.append_assoc] at hleast2⟩
    rw [List.foldlM_cons, h1]
    exact h2

/-- **`RemoveItems`** erases the `n` oldest items. -/
theorem removeItems_ok (pq : PriorityQueue CacheItem.time) (c : CdsLruCache) (hn : 0 < n) :
    ∃ heap, c.removeItems pq n = .ok (c.erase heap) ∧
      Least CacheItem.time n heap c.cache.entries := by
  obtain ⟨heap, hfold, -, hleast⟩ := fillHeaps_ok pq hn c.cache.entries pq.isHeap_nil
    (least_nil CacheItem.time n)
  refine ⟨heap, ?_, hleast⟩
  unfold removeItems
  rw [hfold]
  rfl

/-- Without an item to remove the top is read of a heap that is empty. -/
theorem removeItems_zero (pq : PriorityQueue CacheItem.time) (h : 0 < c.cache.size) :
    c.removeItems pq 0 = .error .emptyHeap := by
  unfold OrderedMap.size at h
  obtain ⟨it, its, hits⟩ := List.exists_cons_of_length_pos h
  unfold removeItems
  rw [hits]
  rfl

theorem erase_perm (h : (heap ++ out).Perm c.cache.entries) :
    (c.erase heap).cache.entries.Perm out := by
  have hnodup := (h.map Prod.fst).nodup_iff.2 c.cache.nodup_keys
  rw [List.map_append, List.nodup_append] at hnodup
  have hfilter := (h.filter fun it => decide (it.1 ∉ heap.map Prod.fst)).symm
  have hheap : heap.filter (fun it => decide (it.1 ∉ heap.map Prod.fst)) = [] := by
    apply List.filter_eq_nil_iff.2
    intro it hit hnot
    exact of_decide_eq_true hnot (List.mem_map_of_mem hit)
  have hout : out.filter (fun it => decide (it.1 ∉ heap.map Prod.fst)) = out := by
    apply List.filter_eq_self.2
    intro it hit
    apply decide_eq_true
    intro hmem
    exact hnodup.2.2 _ hmem _ (List.mem_map_of_mem hit) rfl
  rwa [List.filter_append, hheap, hout, List.nil_append] at hfilter

theorem removeItems_size {c' : CdsLruCache} (hn : 0 < n) (h : c.removeItems pq n = .ok c') :
    c'.cache.size = c.cache.size - n := by
  obtain ⟨heap, hok, out, hperm, hlen, -⟩ := removeItems_ok pq c hn
  rw [h] at hok
  cases hok
  have h1 := (erase_perm hperm).length_eq
  have h2 := hperm.length_eq
  rw [List.length_append] at h2
  unfold OrderedMap.size
  omega

/-- The second loop of `BatchAddItem`. -/
def removeExcess (pq : PriorityQueue CacheItem.time) (c : CdsLruCache) :
    Except CacheFault CdsLruCache :=
  if _h : c.capacity.toNat < c.cache.size then
    match _hr : c.removeItems pq
        (c.cache.size - c.capacity.toNat + (c.capacity / 10).toNat) with
    | .error e => .error e
    | .ok c => removeExcess pq c
  else .ok c
termination_by c.cache.size
decreasing_by
  rename_i c'
  have := removeItems_size (by omega) _hr
  omega

/-- `CdsLruCache::BatchAddItem`. -/
def batchAddItem (pq : PriorityQueue CacheItem.time) (c : CdsLruCache) (tv : Timeval)
    (blklist : List Block) : Except CacheFault CdsLruCache :=
  removeExcess pq (blklist.foldl (fun c blk => c.setTime tv blk) c)

/-- `CdsLruCache::Save`. -/
def save (c : CdsLruCache) : List UInt8 := c.cache.entries.flatMap fun it => it.2.1.save

/-- `CdsLruCache::Load`. -/
def load (c : CdsLruCache) (tv : Timeval) (is : List UInt8) : CdsLruCache :=
  (Block.loader.readAll is).foldl (fun c blk => c.setTime tv blk) c

/-- A call of a method. -/
inductive Call
  | addItem (blk : Block)
  | batchAddItem (blklist : List Block)
  | searchItem (blk : Block)

/-- A cache, and how often the clock was read. -/
abbrev State := CdsLruCache × ℕ

/-- One call. -/
def call (pq : PriorityQueue CacheItem.time) (clock : Clock) (st : State) :
    Call → Except CacheFault State
  | .addItem blk => do
    let c ← st.1.addItem pq (clock st.2) blk
    return (c, st.2 + 1)
  | .batchAddItem blklist => do
    let c ← st.1.batchAddItem pq (clock st.2) blklist
    return (c, st.2 + 1)
  | .searchItem blk =>
    let (found, c) := st.1.searchItem (clock st.2) blk
    .ok (c, if found then st.2 + 1 else st.2)

/-- Calls on an empty cache. -/
def run (pq : PriorityQueue CacheItem.time) (clock : Clock) (size : Int32) (calls : List Call) :
    Except CacheFault State :=
  calls.foldlM (call pq clock) (new size, 0)

end CdsLruCache

end DedupSim
