import Mathlib.Data.List.Sort
import Mathlib.Tactic.Linarith

/-!
# Sorted ranges

The standard library's algorithms on a range whose elements are compared by a key.

* `Sorter`: any `std::sort`. It permutes and sorts; the order of elements with
  equal keys is its own.
* `lowerBound`, `binarySearch`: the halving loops of `std::lower_bound` and
  `std::binary_search`; `binarySearch_iff`: **on a sorted range the search finds
  exactly the keys that occur**; `sorted_of_binarySearch`: **and on no other range of
  different keys does it find them all.**
-/

namespace DedupSim

variable {α β : Type*} [LinearOrder β] {key : α → β} {l : List α} {x : α}

/-- A sorting function for the order of the keys. -/
structure Sorter (key : α → β) where
  sort : List α → List α
  perm : ∀ l, (sort l).Perm l
  sorted : ∀ l, (sort l).Pairwise fun a b => key a ≤ key b

/-- Merge sort is one. -/
def Sorter.merge (key : α → β) : Sorter key where
  sort l := l.mergeSort fun a b => decide (key a ≤ key b)
  perm l := List.mergeSort_perm l _
  sorted l := by
    have h : (l.mergeSort fun a b => decide (key a ≤ key b)).Pairwise
        fun a b => decide (key a ≤ key b) = true := by
      refine List.pairwise_mergeSort (?_) (?_) l
      · intro a b c h1 h2
        simp only [decide_eq_true_eq] at h1 h2 ⊢
        exact h1.trans h2
      · intro a b
        simp only [Bool.or_eq_true, decide_eq_true_eq]
        exact le_total (key a) (key b)
    exact h.imp fun h => of_decide_eq_true h

/-- Another leaves some range in any order that is sorted. -/
def Sorter.withRange [DecidableEq α] (so : Sorter key) (l : List α)
    (hl : l.Pairwise fun a b => key a ≤ key b) : Sorter key where
  sort m := if m.Perm l then l else so.sort m
  perm m := by
    split
    · exact List.Perm.symm (by assumption)
    · exact so.perm m
  sorted m := by
    split
    · exact hl
    · exact so.sorted m

/-- **What holds of any sorting function holds of any sorted order.** -/
theorem Sorter.forall_sort_iff [DecidableEq α] (key : α → β) (m : List α) (P : List α → Prop) :
    (∀ so : Sorter key, P (so.sort m)) ↔
      ∀ l, l.Perm m → (l.Pairwise fun a b => key a ≤ key b) → P l := by
  constructor
  · intro h l hperm hl
    have hP := h ((Sorter.merge key).withRange l hl)
    rwa [show ((Sorter.merge key).withRange l hl).sort m = l from if_pos hperm.symm] at hP
  · exact fun h so => h _ (so.perm m) (so.sorted m)

/-- Sorted, and two elements with one key are equal. -/
theorem pairwise_lt_or_eq (h : l.Pairwise fun a b => key a < key b ∨ a = b) :
    (l.Pairwise fun a b => key a ≤ key b) ∧ ∀ a ∈ l, ∀ b ∈ l, key a = key b → a = b := by
  refine ⟨h.imp fun hab => ?_, ?_⟩
  · rcases hab with hlt | rfl
    · exact hlt.le
    · exact le_rfl
  · have hkey : l.Pairwise fun a b => key a = key b → a = b :=
      h.imp fun hab heq => hab.resolve_left heq.not_lt
    have hsymm : l.Pairwise (flip fun a b => key a = key b → a = b) :=
      hkey.imp fun hab heq => (hab heq.symm).symm
    exact hkey.forall_of_forall_of_flip (fun a _ _ => rfl) hsymm

/-- A sorted list that no other order of its elements could be. -/
theorem pairwise_of_unique (hsorted : l.Pairwise fun a b => key a ≤ key b)
    (h : ∀ l', l'.Perm l → (l'.Pairwise fun a b => key a ≤ key b) → l' = l) :
    l.Pairwise fun a b => key a < key b ∨ a = b := by
  induction l with
  | nil => exact .nil
  | cons a l ih =>
    obtain ⟨ha, hl⟩ := List.pairwise_cons.1 hsorted
    refine .cons ?_ (ih hl ?_)
    · intro b hb
      rcases (ha b hb).lt_or_eq with hlt | heq
      · exact .inl hlt
      · -- `a` and `b` could change places
        obtain ⟨t, u, rfl⟩ := List.append_of_mem hb
        have hperm : (b :: (t ++ a :: u)).Perm (a :: (t ++ b :: u)) :=
          (List.perm_middle.cons b).trans ((List.Perm.swap a b _).trans (List.perm_middle.symm.cons a))
        have hkeys : (b :: (t ++ a :: u)).map key = (a :: (t ++ b :: u)).map key := by simp [heq]
        have hswap := h _ hperm (by rwa [← List.pairwise_map, hkeys, List.pairwise_map])
        exact .inr (List.cons.inj hswap).1.symm
    · intro l' hperm hl'
      have hcons := h (a :: l') (hperm.cons a)
        (List.pairwise_cons.2 ⟨fun b hb => ha b (hperm.subset hb), hl'⟩)
      exact (List.cons.inj hcons).2

/-- **When every sorting function gives one list**: it is sorted, and no two elements that
differ have one key. -/
theorem Sorter.forall_sort_eq_iff [DecidableEq α] {m : List α} :
    (∀ so : Sorter key, so.sort m = l) ↔
      l.Perm m ∧ l.Pairwise fun a b => key a < key b ∨ a = b := by
  rw [Sorter.forall_sort_iff key m (· = l)]
  constructor
  · intro h
    obtain ⟨hperm, hsorted⟩ : l.Perm m ∧ l.Pairwise fun a b => key a ≤ key b := by
      have hso := h _ ((Sorter.merge key).perm m) ((Sorter.merge key).sorted m)
      rw [← hso]
      exact ⟨(Sorter.merge key).perm m, (Sorter.merge key).sorted m⟩
    exact ⟨hperm, pairwise_of_unique hsorted fun l' hl' => h l' (hl'.trans hperm)⟩
  · rintro ⟨hperm, hstrict⟩ l' hperm' hl'
    obtain ⟨hsorted, huniq⟩ := pairwise_lt_or_eq hstrict
    refine (hperm'.trans hperm.symm).eq_of_pairwise (fun a b ha hb h1 h2 => ?_) hl' hsorted
    exact huniq a ((hperm'.trans hperm.symm).subset ha) b hb (le_antisymm h1 h2)

/-- `std::lower_bound` on the `len` positions from `first` on; `below i` says that the
element at `i` comes before the one sought. -/
def lowerBound (below : ℕ → Bool) (first len : ℕ) : ℕ :=
  if len = 0 then first
  else if below (first + len / 2) then
    lowerBound below (first + len / 2 + 1) (len - len / 2 - 1)
  else lowerBound below first (len / 2)
termination_by len
decreasing_by
  · omega
  · omega

/-- `std::binary_search`. -/
def binarySearch (key : α → β) (l : List α) (x : α) : Bool :=
  let below i := (l[i]?).any fun a => key a < key x
  (l[lowerBound below 0 l.length]?).any fun a => !decide (key x < key a)

/-- The search sees the key only. -/
theorem binarySearch_congr {y : α} (h : key x = key y) :
    binarySearch key l x = binarySearch key l y := by
  rw [binarySearch, binarySearch, h]

/-- The bound separates the positions below from the others. -/
theorem lowerBound_spec {below : ℕ → Bool} (hmono : ∀ i j, i ≤ j → below j = true → below i = true)
    (len : ℕ) : ∀ first, (∀ i, i < first → below i = true) → below (first + len) = false →
      (∀ i, i < lowerBound below first len → below i = true) ∧
        below (lowerBound below first len) = false := by
  induction len using Nat.strong_induction_on with
  | _ len ih =>
    intro first hlo hhi
    unfold lowerBound
    by_cases h0 : len = 0
    · rw [if_pos h0]
      subst h0
      exact ⟨hlo, hhi⟩
    rw [if_neg h0]
    cases hm : below (first + len / 2) with
    | true =>
      rw [if_pos rfl]
      refine ih _ (by omega) _ (fun i hi => hmono i _ (by omega) hm) ?_
      rwa [show first + len / 2 + 1 + (len - len / 2 - 1) = first + len by omega]
    | false =>
      rw [if_neg Bool.false_ne_true]
      exact ih _ (by omega) first hlo hm

section Sorted

variable (hs : l.Pairwise fun a b => key a ≤ key b)

include hs

theorem key_le_of_le {i j : ℕ} {a b : α} (hij : i ≤ j) (ha : l[i]? = some a) (hb : l[j]? = some b) :
    key a ≤ key b := by
  obtain ⟨hi, rfl⟩ := List.getElem?_eq_some_iff.1 ha
  obtain ⟨hj, rfl⟩ := List.getElem?_eq_some_iff.1 hb
  rcases Nat.eq_or_lt_of_le hij with rfl | hlt
  · exact le_rfl
  · exact List.pairwise_iff_getElem.1 hs i j hi hj hlt

/-- On a sorted range the bound is the first key that is not below the one sought. -/
theorem lowerBound_sorted (x : α) :
    (∀ i, i < lowerBound (fun i => (l[i]?).any fun a => key a < key x) 0 l.length →
      ∃ a, l[i]? = some a ∧ key a < key x) ∧
    ∀ a, l[lowerBound (fun i => (l[i]?).any fun a => key a < key x) 0 l.length]? = some a →
      key x ≤ key a := by
  set below : ℕ → Bool := fun i => (l[i]?).any fun a => key a < key x with hbelow
  have hb : ∀ i, below i = true ↔ ∃ a, l[i]? = some a ∧ key a < key x := by
    intro i
    rw [hbelow]
    simp only [Option.any_eq_true, decide_eq_true_eq]
  have hmono : ∀ i j, i ≤ j → below j = true → below i = true := by
    intro i j hij hj
    obtain ⟨b, hbj, hlt⟩ := (hb j).1 hj
    obtain ⟨hlen, -⟩ := List.getElem?_eq_some_iff.1 hbj
    have hi := List.getElem?_eq_getElem (lt_of_le_of_lt hij hlen)
    exact (hb i).2 ⟨_, hi, lt_of_le_of_lt (key_le_of_le hs hij hi hbj) hlt⟩
  have hend : below (0 + l.length) = false := by
    rw [Nat.zero_add, Bool.eq_false_iff]
    intro h
    obtain ⟨a, ha, -⟩ := (hb _).1 h
    rw [List.getElem?_eq_none le_rfl] at ha
    cases ha
  obtain ⟨hlo, hhi⟩ := lowerBound_spec hmono l.length 0 (fun i hi => absurd hi (Nat.not_lt_zero i)) hend
  refine ⟨fun i hi => (hb i).1 (hlo i hi), ?_⟩
  intro a ha
  by_contra hlt
  rw [(hb _).2 ⟨a, ha, not_le.1 hlt⟩] at hhi
  cases hhi

/-- **On a sorted range the bound stands on the key sought, if it occurs.** -/
theorem lowerBound_finds (x : α) :
    (∃ a, l[lowerBound (fun i => (l[i]?).any fun a => key a < key x) 0 l.length]? = some a ∧
      key a = key x) ↔ ∃ a ∈ l, key a = key x := by
  obtain ⟨hlo, hle⟩ := lowerBound_sorted hs x
  set k := lowerBound (fun i => (l[i]?).any fun a => key a < key x) 0 l.length
  constructor
  · rintro ⟨a, ha, hax⟩
    exact ⟨a, List.mem_of_getElem? ha, hax⟩
  · rintro ⟨a, ha, hax⟩
    obtain ⟨i, hi⟩ := List.getElem?_of_mem ha
    -- the key occurs at or after the bound, which then lies in the range
    have hki : k ≤ i := by
      by_contra hlt
      obtain ⟨b, hbi, hlt'⟩ := hlo i (not_le.1 hlt)
      rw [hi] at hbi
      cases hbi
      exact absurd hax hlt'.ne
    obtain ⟨hlen, -⟩ := List.getElem?_eq_some_iff.1 hi
    have hkl := List.getElem?_eq_getElem (lt_of_le_of_lt hki hlen)
    exact ⟨_, hkl, le_antisymm ((key_le_of_le hs hki hkl hi).trans hax.le) (hle _ hkl)⟩

/-- **On a sorted range the search finds exactly the keys that occur.** -/
theorem binarySearch_iff : binarySearch key l x = true ↔ ∃ a ∈ l, key a = key x := by
  rw [← lowerBound_finds hs x]
  obtain ⟨-, hle⟩ := lowerBound_sorted hs x
  simp only [binarySearch, Option.any_eq_true, Bool.not_eq_true', decide_eq_false_iff_not, not_lt]
  constructor
  · rintro ⟨a, ha, hax⟩
    exact ⟨a, ha, le_antisymm hax (hle a ha)⟩
  · rintro ⟨a, ha, hax⟩
    exact ⟨a, ha, hax.le⟩

end Sorted

section AnyRange

/-! ## Ranges that need not be sorted -/

theorem lowerBound_mem (below : ℕ → Bool) (len : ℕ) :
    ∀ first, first ≤ lowerBound below first len ∧ lowerBound below first len ≤ first + len := by
  induction len using Nat.strong_induction_on with
  | _ len ih =>
    intro first
    unfold lowerBound
    split
    · omega
    · split
      · have h := ih (len - len / 2 - 1) (by omega) (first + len / 2 + 1)
        omega
      · have h := ih (len / 2) (by omega) first
        omega

/-- The bound is the end of the range, or was compared. -/
theorem lowerBound_end (below : ℕ → Bool) (len : ℕ) :
    ∀ first, lowerBound below first len = first + len ∨ below (lowerBound below first len) = false := by
  induction len using Nat.strong_induction_on with
  | _ len ih =>
    intro first
    unfold lowerBound
    by_cases h0 : len = 0
    · rw [if_pos h0, h0]
      exact .inl rfl
    rw [if_neg h0]
    cases hm : below (first + len / 2) with
    | true =>
      rw [if_pos rfl]
      rcases ih (len - len / 2 - 1) (by omega) (first + len / 2 + 1) with h | h
      · exact .inl (by omega)
      · exact .inr h
    | false =>
      rw [if_neg Bool.false_ne_true]
      rcases ih (len / 2) (by omega) first with h | h
      · rw [h]
        exact .inr hm
      · exact .inr h

/-- What the search finds is there, whatever the range. -/
theorem binarySearch_sound (h : binarySearch key l x = true) :
    ∃ a, l[lowerBound (fun i => (l[i]?).any fun a => key a < key x) 0 l.length]? = some a ∧
      key a = key x := by
  simp only [binarySearch, Option.any_eq_true, Bool.not_eq_true', decide_eq_false_iff_not, not_lt] at h
  obtain ⟨a, ha, hle⟩ := h
  refine ⟨a, ha, le_antisymm hle ?_⟩
  rcases lowerBound_end (fun i => (l[i]?).any fun a => key a < key x) l.length 0 with hend | hcmp
  · rw [hend, Nat.zero_add, List.getElem?_eq_none le_rfl] at ha
    cases ha
  · simpa only [ha, Option.any_some, decide_eq_false_iff_not, not_lt] using hcmp

/-- The search for `a` in the `len` positions from `first` on stops at `i`. -/
def StopsAt (key : α → β) (l : List α) (first len : ℕ) (a : α) (i : ℕ) : Prop :=
  lowerBound (fun j => (l[j]?).any fun b => key b < key a) first len = i

/-- Where the search goes from the element in the middle. -/
theorem StopsAt.half {first len i : ℕ} {a m : α} (h : StopsAt key l first len a i) (hpos : 0 < len)
    (hm : l[first + len / 2]? = some m) :
    (key m < key a ∧ first + len / 2 < i ∧
        StopsAt key l (first + len / 2 + 1) (len - len / 2 - 1) a i) ∨
      (key a ≤ key m ∧ i ≤ first + len / 2 ∧ StopsAt key l first (len / 2) a i) := by
  unfold StopsAt lowerBound at h
  rw [if_neg hpos.ne'] at h
  simp only [hm, Option.any_some, decide_eq_true_eq] at h
  split at h
  · rename_i hlt
    have hmem := lowerBound_mem (fun j => (l[j]?).any fun b => key b < key a)
      (len - len / 2 - 1) (first + len / 2 + 1)
    exact .inl ⟨hlt, by omega, h⟩
  · rename_i hge
    have hmem := lowerBound_mem (fun j => (l[j]?).any fun b => key b < key a) (len / 2) first
    exact .inr ⟨not_lt.1 hge, by omega, h⟩

/-- A search that always stops at the element sought stands on a sorted range: the one in
the middle separates those to its left from those to its right. -/
theorem lowerBound_increasing (len : ℕ) : ∀ first, first + len ≤ l.length →
    (∀ i a, first ≤ i → i < first + len → l[i]? = some a → StopsAt key l first len a i) →
    ∀ i j a b, first ≤ i → i < j → j < first + len → l[i]? = some a → l[j]? = some b →
      key a < key b := by
  induction len using Nat.strong_induction_on with
  | _ len ih =>
    intro first hlen hfind
    rcases Nat.eq_zero_or_pos len with rfl | hpos
    · intro i j a b hi hij hj
      omega
    obtain ⟨m, hm⟩ : ∃ m, l[first + len / 2]? = some m :=
      ⟨_, List.getElem?_eq_getElem (by omega)⟩
    have hleft : ∀ i a, first ≤ i → i < first + len / 2 → l[i]? = some a →
        key a < key m ∧ StopsAt key l first (len / 2) a i := by
      intro i a hi hilt ha
      have hstop := hfind i a hi (by omega) ha
      rcases hstop.half hpos hm with ⟨-, hgt, -⟩ | ⟨hle, -, h⟩
      · omega
      · refine ⟨lt_of_le_of_ne hle ?_, h⟩
        -- equal keys are found at one place
        intro heq
        have hmid := hfind _ m (by omega) (by omega) hm
        unfold StopsAt at hstop hmid
        rw [heq, hmid] at hstop
        omega
    have hright : ∀ j b, first + len / 2 < j → j < first + len → l[j]? = some b →
        key m < key b ∧ StopsAt key l (first + len / 2 + 1) (len - len / 2 - 1) b j := by
      intro j b hj hjlen hb
      rcases (hfind j b (by omega) hjlen hb).half hpos hm with ⟨hlt, -, h⟩ | ⟨-, hle, -⟩
      · exact ⟨hlt, h⟩
      · omega
    have ihl := ih (len / 2) (by omega) first (by omega) fun i a hi hilt ha => (hleft i a hi hilt ha).2
    have ihr := ih (len - len / 2 - 1) (by omega) (first + len / 2 + 1) (by omega)
      fun j b hj hjlen hb => (hright j b hj (by omega) hb).2
    intro i j a b hi hij hj ha hb
    rcases lt_trichotomy i (first + len / 2) with hlt | heq | hgt
    · have ham := (hleft i a hi hlt ha).1
      rcases lt_trichotomy j (first + len / 2) with hlt' | heq' | hgt'
      · exact ihl i j a b hi hij hlt' ha hb
      · rw [heq', hm] at hb
        cases hb
        exact ham
      · exact ham.trans (hright j b hgt' hj hb).1
    · rw [heq, hm] at ha
      cases ha
      exact (hright j b (by omega) hj hb).1
    · exact ihr i j a b hgt hij (by omega) ha hb

/-- **A range of different keys is sorted if the search finds them all.** -/
theorem sorted_of_binarySearch (hnodup : (l.map key).Nodup)
    (hfind : ∀ x ∈ l, binarySearch key l x = true) : l.Pairwise fun a b => key a < key b := by
  have hat : ∀ i a, 0 ≤ i → i < 0 + l.length → l[i]? = some a → StopsAt key l 0 l.length a i := by
    intro i a _ hi ha
    obtain ⟨b, hb, hba⟩ := binarySearch_sound (hfind a (List.mem_of_getElem? ha))
    have hk : i < (l.map key).length := by
      rw [List.length_map]
      omega
    apply ((List.getElem?_inj hk hnodup).1 _).symm
    rw [List.getElem?_map, List.getElem?_map, ha, hb, Option.map_some, Option.map_some, hba]
  rw [List.pairwise_iff_getElem]
  intro i j hi hj hij
  refine lowerBound_increasing l.length 0 (by omega) hat i j _ _ (Nat.zero_le i) hij (by omega) ?_ ?_
  · exact List.getElem?_eq_getElem hi
  · exact List.getElem?_eq_getElem hj

end AnyRange

end DedupSim
