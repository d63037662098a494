import Mathlib.Logic.Function.Basic
import Mathlib.Order.Defs.LinearOrder
import Mathlib.Tactic.Linarith

/-!
# Loser trees

A tree of `k` players in an array: node `n` has the children `2 * n` and `2 * n + 1`,
node `k + i` is the leaf of player `i`, and the nodes `1, ..., k - 1` keep the losers
of their matches. `k` need not be a power of two.

* `Decided`: the invariant, for some winners `W`; `Decided.champion_le`: **the winner at
  the root has a least key**; `Decided.perm`: each player is in the array once.
* `winner`, `loser`: the tree as it is first played.
* `adjust`: the path of the champion is played again after its key changed;
  `Decided.adjust`: **the tree is decided again.**
-/

namespace Tournament

variable {β : Type*} [LinearOrder β] {k : ℕ} {key key' : ℕ → β} {tree W : ℕ → ℕ} {m n c i : ℕ}

/-! ## Nodes -/

/-- `m` is `n` or an ancestor of `n`. -/
def Above (m n : ℕ) : Prop := ∃ j, n / 2 ^ j = m

theorem Above.refl (n : ℕ) : Above n n := ⟨0, Nat.div_one n⟩

theorem Above.parent (h : Above m n) : Above (m / 2) n := by
  obtain ⟨j, rfl⟩ := h
  exact ⟨j + 1, by rw [pow_succ, Nat.div_div_eq_div_mul]⟩

theorem above_iff : Above m n ↔ m = n ∨ Above m (n / 2) := by
  constructor
  · rintro ⟨j, rfl⟩
    rcases j with - | j
    · exact .inl (Nat.div_one n)
    · exact .inr ⟨j, by rw [pow_succ', Nat.div_div_eq_div_mul]⟩
  · rintro (rfl | ⟨j, rfl⟩)
    · exact .refl m
    · exact ⟨j + 1, by rw [pow_succ', Nat.div_div_eq_div_mul]⟩

theorem Above.le (h : Above m n) : m ≤ n := by
  obtain ⟨j, rfl⟩ := h
  exact Nat.div_le_self n _

/-- The nodes above one node have different depths. -/
theorem Above.eq_of_parent {c d : ℕ} (hc : Above c n) (hd : Above d n) (hp : c / 2 = d / 2)
    (h : c / 2 ≠ 0) : c = d := by
  obtain ⟨i, rfl⟩ := hc
  obtain ⟨j, rfl⟩ := hd
  -- a node strictly above another is at most half of it
  have key : ∀ i j, i < j → n / 2 ^ i / 2 ≠ 0 → n / 2 ^ i / 2 ≠ n / 2 ^ j / 2 := by
    intro i j hij h0 heq
    have hle : n / 2 ^ j ≤ n / 2 ^ i / 2 := by
      rw [Nat.div_div_eq_div_mul, ← pow_succ]
      exact Nat.div_le_div_left (Nat.pow_le_pow_right (by decide) hij) (by positivity)
    generalize n / 2 ^ i = a at h0 heq hle
    generalize n / 2 ^ j = b at heq hle
    omega
  rcases Nat.lt_trichotomy i j with hij | rfl | hij
  · exact absurd hp (key i j hij h)
  · rfl
  · exact absurd hp.symm (key j i hij (hp ▸ h))

/-- Every node is below the root. -/
theorem above_one (h : 0 < n) : Above 1 n := by
  induction n using Nat.strong_induction_on with
  | _ n ih =>
    by_cases h1 : n = 1
    · rw [h1]
      exact .refl 1
    · exact above_iff.2 (.inr (ih (n / 2) (by omega) (by omega)))

/-- The other child of the parent. -/
def sibling (n : ℕ) : ℕ := if n % 2 = 0 then n + 1 else n - 1

theorem sibling_even (m : ℕ) : sibling (2 * m) = 2 * m + 1 := by
  rw [sibling, if_pos (by omega)]

theorem sibling_odd (m : ℕ) : sibling (2 * m + 1) = 2 * m := by
  rw [sibling, if_neg (by omega)]
  omega

theorem sibling_ne (h : 2 ≤ c) (hn : 0 < n) (hc : Above c n) : sibling c ≠ n := by
  rcases above_iff.1 hc with rfl | h'
  · unfold sibling
    split <;> omega
  · have := h'.le
    unfold sibling
    split <;> omega

/-! ## The invariant -/

/-- The match at node `n`: one child's winner wins, the other's stays. -/
structure Match (key : ℕ → β) (tree W : ℕ → ℕ) (n : ℕ) : Prop where
  players : W n = W (2 * n) ∧ tree n = W (2 * n + 1) ∨ W n = W (2 * n + 1) ∧ tree n = W (2 * n)
  le : key (W n) ≤ key (tree n)

/-- **Every match is decided**: `W n` is the winner at node `n`. -/
structure Decided (k : ℕ) (key : ℕ → β) (tree W : ℕ → ℕ) : Prop where
  leaf : ∀ i < k, W (k + i) = i
  node : ∀ n, 0 < n → n < k → Match key tree W n

/-- The winner comes from one child. -/
theorem Match.child (h : Match key tree W n) :
    ∃ c, c / 2 = n ∧ (c = 2 * n ∨ c = 2 * n + 1) ∧ W n = W c := by
  rcases h.players with ⟨hw, -⟩ | ⟨hw, -⟩
  · exact ⟨2 * n, by omega, .inl rfl, hw⟩
  · exact ⟨2 * n + 1, by omega, .inr rfl, hw⟩

/-- And the loser from the other. -/
theorem Match.sibling (h : Match key tree W (c / 2)) (hw : W (c / 2) = W c) :
    tree (c / 2) = W (Tournament.sibling c) := by
  rcases Nat.even_or_odd' c with ⟨m, rfl | rfl⟩
  · have hm : 2 * m / 2 = m := by omega
    rw [hm] at h hw ⊢
    rw [sibling_even]
    rcases h.players with ⟨-, ht⟩ | ⟨hw', ht⟩
    · exact ht
    · rw [ht, ← hw, hw']
  · have hm : (2 * m + 1) / 2 = m := by omega
    rw [hm] at h hw ⊢
    rw [sibling_odd]
    rcases h.players with ⟨hw', ht⟩ | ⟨-, ht⟩
    · rw [ht, ← hw, hw']
    · exact ht

/-- **A winner's leaf is below it.** -/
theorem Decided.above (h : Decided k key tree W) (h0 : 0 < n) (hn : n < 2 * k) :
    W n < k ∧ Above n (k + W n) := by
  induction hd : 2 * k - n using Nat.strong_induction_on generalizing n with
  | _ d ih =>
    subst hd
    by_cases hleaf : k ≤ n
    · obtain ⟨i, rfl⟩ := Nat.exists_eq_add_of_le hleaf
      have hi : i < k := by omega
      rw [h.leaf i hi]
      exact ⟨hi, .refl _⟩
    · obtain ⟨c, hc, hc', hw⟩ := (h.node n h0 (by omega)).child
      obtain ⟨hlt, habove⟩ := ih (2 * k - c) (by omega) (by omega) (by omega) rfl
      rw [hw]
      exact ⟨hlt, hc ▸ habove.parent⟩

theorem Decided.lt (h : Decided k key tree W) (h0 : 0 < n) (hn : n < 2 * k) : W n < k :=
  (h.above h0 hn).1

theorem Decided.tree_lt (h : Decided k key tree W) (h0 : 0 < n) (hn : n < k) : tree n < k := by
  rcases (h.node n h0 hn).players with ⟨-, ht⟩ | ⟨-, ht⟩
  · rw [ht]
    exact h.lt (by omega) (by omega)
  · rw [ht]
    exact h.lt (by omega) (by omega)

/-- The champion beats every winner, by induction down the tree. -/
theorem Decided.le_winner (h : Decided k key tree W) (h0 : 0 < n) (hn : n < 2 * k) :
    key (W 1) ≤ key (W n) := by
  induction n using Nat.strong_induction_on with
  | _ n ih =>
    by_cases h1 : n = 1
    · rw [h1]
    · have hp := ih (n / 2) (by omega) (by omega) (by omega)
      have hm := h.node (n / 2) (by omega) (by omega)
      have hn' : W n = W (n / 2) ∨ W n = tree (n / 2) := by
        rcases Nat.mod_two_eq_zero_or_one n with he | ho
        · have : 2 * (n / 2) = n := by omega
          rcases hm.players with ⟨hw, -⟩ | ⟨-, ht⟩
          · exact .inl (by rw [hw, this])
          · exact .inr (by rw [ht, this])
        · have : 2 * (n / 2) + 1 = n := by omega
          rcases hm.players with ⟨-, ht⟩ | ⟨hw, -⟩
          · exact .inr (by rw [ht, this])
          · exact .inl (by rw [hw, this])
      rcases hn' with hw | hw
      · rw [hw]
        exact hp
      · rw [hw]
        exact hp.trans hm.le

/-- **The champion's key is least.** -/
theorem Decided.champion_le (h : Decided k key tree W) (hi : i < k) : key (W 1) ≤ key i := by
  have := h.le_winner (n := k + i) (by omega) (by omega)
  rwa [h.leaf i hi] at this

/-- The champion won all matches on the way from its leaf. -/
theorem Decided.champion_path (h : Decided k key tree W) (h0 : 0 < n) (hk : 0 < k)
    (hn : Above n (k + W 1)) : W n = W 1 := by
  have hlt := h.lt Nat.one_pos (by omega)
  induction n using Nat.strong_induction_on with
  | _ n ih =>
    by_cases h1 : n = 1
    · rw [h1]
    · have hle := hn.le
      have hp := ih (n / 2) (by omega) (by omega) hn.parent
      obtain ⟨c, hc, hc', hw⟩ := (h.node (n / 2) (by omega) (by omega)).child
      -- the child that won has the champion's leaf below it, so it is on the way too
      have hac := (h.above (n := c) (by omega) (by omega)).2
      rw [← hw, hp] at hac
      rw [hn.eq_of_parent hac hc.symm (by omega), ← hw, hp]

/-- The winners on the nodes `n, ..., 2 * n - 1` and the losers from `n` on, by going up from
the leaves: a match keeps both of its players. -/
theorem Decided.perm_from (h : Decided k key tree W) (h0 : 0 < n) (hn : n ≤ k) :
    ((List.range' n n).map W ++ (List.range' n (k - n)).map tree).Perm (List.range k) := by
  induction hd : k - n generalizing n with
  | zero =>
    obtain rfl : n = k := by omega
    have hleaves : (List.range' n n).map W = List.range n := by
      rw [List.range'_eq_map_range, List.map_map, ← List.map_id (List.range n), List.map_map]
      exact List.map_congr_left fun i hi => h.leaf i (List.mem_range.1 hi)
    rw [hleaves]
    exact (List.append_nil _).symm ▸ .refl _
  | succ d ih =>
    have hmatch := h.node n h0 (by omega)
    have hnext := ih (n := n + 1) (by omega) (by omega) (by omega)
    obtain ⟨m, rfl⟩ := Nat.exists_eq_succ_of_ne_zero h0.ne'
    have hW : List.range' (m + 1 + 1) (m + 1 + 1) =
        List.range' (m + 2) m ++ [2 * (m + 1), 2 * (m + 1) + 1] := by
      have hleft : m + 1 + 1 + 1 * m = 2 * (m + 1) := by omega
      have hright : m + 1 + 1 + 1 * (m + 1) = 2 * (m + 1) + 1 := by omega
      rw [List.range'_concat, List.range'_concat, List.append_assoc, hleft, hright]
      rfl
    rw [hW, List.map_append, List.append_assoc] at hnext
    rw [List.range'_succ, List.range'_succ, List.map_cons, List.map_cons, List.cons_append]
    have hplayers : [W (m + 1), tree (m + 1)].Perm [W (2 * (m + 1)), W (2 * (m + 1) + 1)] := by
      rcases hmatch.players with ⟨hw, ht⟩ | ⟨hw, ht⟩
      · rw [hw, ht]
      · rw [hw, ht]
        exact .swap _ _ _
    refine (List.Perm.cons _ List.perm_middle).trans ?_
    refine ((hplayers.append_right _).trans ?_).trans hnext
    exact List.perm_append_comm_assoc _ _ _

/-- **The champion and the losers are the players**, each once. -/
theorem Decided.perm (h : Decided k key tree W) (hk : 0 < k) (h0 : tree 0 = W 1) :
    ((List.range k).map tree).Perm (List.range k) := by
  obtain ⟨m, rfl⟩ := Nat.exists_eq_succ_of_ne_zero hk.ne'
  have hperm := h.perm_from Nat.one_pos hk
  rw [List.range_eq_range'] at hperm ⊢
  rw [List.range'_succ, List.map_cons, h0]
  exact hperm

/-! ## The first round -/

/-- The winner at a node. -/
def winner (k : ℕ) (key : ℕ → β) (n : ℕ) : ℕ :=
  if n = 0 then 0
  else if k ≤ n then n - k
  else if key (winner k key (2 * n + 1)) < key (winner k key (2 * n)) then winner k key (2 * n + 1)
  else winner k key (2 * n)
termination_by k - n

/-- The loser at a node. -/
def loser (k : ℕ) (key : ℕ → β) (n : ℕ) : ℕ :=
  if key (winner k key (2 * n + 1)) < key (winner k key (2 * n)) then winner k key (2 * n)
  else winner k key (2 * n + 1)

theorem winner_leaf (h0 : 0 < n) (h : k ≤ n) : winner k key n = n - k := by
  rw [winner, if_neg (by omega), if_pos h]

theorem winner_node (key : ℕ → β) (h0 : 0 < n) (h : n < k) :
    winner k key n = if key (winner k key (2 * n + 1)) < key (winner k key (2 * n))
      then winner k key (2 * n + 1) else winner k key (2 * n) := by
  rw [winner, if_neg (by omega), if_neg (by omega)]

/-- **A tree that stores these losers is decided.** -/
theorem decided_winner (htree : ∀ n, 0 < n → n < k → tree n = loser k key n) :
    Decided k key tree (winner k key) := by
  refine ⟨?_, ?_⟩
  · intro i hi
    rw [winner_leaf (by omega) (by omega)]
    omega
  · intro n h0 hn
    have hw := winner_node key h0 hn
    have ht := htree n h0 hn
    unfold loser at ht
    by_cases hlt : key (winner k key (2 * n + 1)) < key (winner k key (2 * n))
    · rw [if_pos hlt] at hw ht
      exact ⟨.inr ⟨hw, ht⟩, by rw [hw, ht]; exact hlt.le⟩
    · rw [if_neg hlt] at hw ht
      exact ⟨.inl ⟨hw, ht⟩, by rw [hw, ht]; exact not_lt.1 hlt⟩

/-! ## The next rounds -/

/-- The matches from node `n` up to the root, against `small`. -/
def adjust (key : ℕ → β) (tree : ℕ → ℕ) (small n : ℕ) : ℕ → ℕ :=
  if n = 0 then Function.update tree 0 small
  else if key (tree n) ≤ key small then adjust key (Function.update tree n small) (tree n) (n / 2)
  else adjust key tree small (n / 2)
termination_by n

/-- What is left to play above node `n`: the matches elsewhere are decided, and a node on
the way still keeps the winner of its other child. -/
structure Pending (k : ℕ) (key : ℕ → β) (tree W : ℕ → ℕ) (n : ℕ) : Prop where
  leaf : ∀ i < k, W (k + i) = i
  node : ∀ m, 0 < m → m < k → ¬ Above m (n / 2) → Match key tree W m
  other : ∀ c, Above c n → 2 ≤ c → tree (c / 2) = W (sibling c)

/-- A match away from node `n` does not see the winner and the loser there. -/
theorem Match.update {x y : ℕ} (h : Match key tree W m) (hmn : m ≠ n) (hm : m ≠ n / 2) :
    Match key (Function.update tree n x) (Function.update W n y) m := by
  have h1 : 2 * m ≠ n := by omega
  have h2 : 2 * m + 1 ≠ n := by omega
  refine ⟨?_, ?_⟩
  · rw [Function.update_of_ne hmn, Function.update_of_ne hmn, Function.update_of_ne h1,
      Function.update_of_ne h2]
    exact h.players
  · rw [Function.update_of_ne hmn, Function.update_of_ne hmn]
    exact h.le

/-- One match on the way: `x` wins and `y` stays. -/
theorem Pending.play {x y : ℕ} (h : Pending k key tree W n) (h2 : 2 ≤ n) (hn : n < 2 * k)
    (hxy : x = W n ∧ y = tree (n / 2) ∨ x = tree (n / 2) ∧ y = W n) (hle : key x ≤ key y) :
    Pending k key (Function.update tree (n / 2) y) (Function.update W (n / 2) x) (n / 2) := by
  have hs := h.other n (.refl n) h2
  refine ⟨?_, ?_, ?_⟩
  · intro i hi
    rw [Function.update_of_ne (by omega)]
    exact h.leaf i hi
  · intro m h0 hm habove
    by_cases hmn : m = n / 2
    · subst hmn
      have hc1 : 2 * (n / 2) ≠ n / 2 := by omega
      have hc2 : 2 * (n / 2) + 1 ≠ n / 2 := by omega
      refine ⟨?_, ?_⟩
      · rw [Function.update_self, Function.update_self, Function.update_of_ne hc1,
          Function.update_of_ne hc2]
        rcases Nat.even_or_odd' n with ⟨q, rfl | rfl⟩
        · have hq : 2 * q / 2 = q := by omega
          rw [hq] at hs hxy ⊢
          rw [sibling_even] at hs
          rcases hxy with ⟨rfl, rfl⟩ | ⟨rfl, rfl⟩
          · exact .inl ⟨rfl, hs⟩
          · exact .inr ⟨hs, rfl⟩
        · have hq : (2 * q + 1) / 2 = q := by omega
          rw [hq] at hs hxy ⊢
          rw [sibling_odd] at hs
          rcases hxy with ⟨rfl, rfl⟩ | ⟨rfl, rfl⟩
          · exact .inr ⟨rfl, hs⟩
          · exact .inl ⟨hs, rfl⟩
      · rw [Function.update_self, Function.update_self]
        exact hle
    · have hne : m ≠ n / 2 / 2 := fun e => habove (e ▸ .refl _)
      refine (h.node m h0 hm ?_).update hmn hne
      intro ha
      rcases above_iff.1 ha with e | ha
      · exact hmn e
      · exact habove ha
  · intro c hc hc2
    have hcle := hc.le
    rw [Function.update_of_ne (by omega), Function.update_of_ne (sibling_ne hc2 (by omega) hc)]
    exact h.other c (above_iff.2 (.inr hc)) hc2

/-- The loop, from any node on. -/
theorem Pending.adjust (h : Pending k key tree W n) (h0 : 0 < n) (hn : n < 2 * k) :
    ∃ W', Decided k key (adjust key tree (W n) (n / 2)) W' ∧
      adjust key tree (W n) (n / 2) 0 = W' 1 := by
  induction n using Nat.strong_induction_on generalizing tree W with
  | _ n ih =>
    rw [Tournament.adjust]
    by_cases h1 : n / 2 = 0
    · rw [if_pos h1]
      obtain rfl : n = 1 := by omega
      refine ⟨W, ⟨h.leaf, ?_⟩, Function.update_self ..⟩
      intro m hm0 hm
      have hmatch := h.node m hm0 hm fun ha => by have := ha.le; omega
      refine ⟨?_, ?_⟩
      · rw [Function.update_of_ne (by omega)]
        exact hmatch.players
      · rw [Function.update_of_ne (by omega)]
        exact hmatch.le
    · rw [if_neg h1]
      by_cases hle : key (tree (n / 2)) ≤ key (W n)
      · rw [if_pos hle]
        have := ih (n / 2) (by omega) (h.play (by omega) hn (.inr ⟨rfl, rfl⟩) hle) (by omega) (by omega)
        rwa [Function.update_self] at this
      · rw [if_neg hle]
        have hplay := h.play (by omega) hn (.inl ⟨rfl, rfl⟩) (le_of_not_ge hle)
        have := ih (n / 2) (by omega) hplay (by omega) (by omega)
        rwa [Function.update_self, Function.update_eq_self] at this

/-- **The champion's path is played again** after its key, and no other, changed. -/
theorem Decided.adjust (h : Decided k key tree W) (key' : ℕ → β) (hk : 0 < k)
    (hkey : ∀ i < k, i ≠ W 1 → key' i = key i) :
    ∃ W', Decided k key' (adjust key' tree (W 1) ((k + W 1) / 2)) W' ∧
      adjust key' tree (W 1) ((k + W 1) / 2) 0 = W' 1 := by
  have hlt := h.lt Nat.one_pos (by omega)
  have hp : Pending k key' tree W (k + W 1) := by
    refine ⟨h.leaf, ?_, ?_⟩
    · -- the champion does not play here
      intro m h0 hm habove
      have hm' := h.node m h0 hm
      have hne : ∀ c, 0 < c → c < 2 * k → c / 2 = m → W c ≠ W 1 := by
        intro c hc0 hc hcm hw
        have ha := (h.above hc0 hc).2
        rw [hw] at ha
        rcases above_iff.1 ha with rfl | ha
        · exact habove (hcm ▸ .refl _)
        · exact habove (hcm ▸ ha.parent)
      have hl := hne (2 * m) (by omega) (by omega) (by omega)
      have hr := hne (2 * m + 1) (by omega) (by omega) (by omega)
      have hwl := h.lt (n := 2 * m) (by omega) (by omega)
      have hwr := h.lt (n := 2 * m + 1) (by omega) (by omega)
      refine ⟨hm'.players, ?_⟩
      have hle := hm'.le
      rcases hm'.players with ⟨hw, ht⟩ | ⟨hw, ht⟩
      · rw [hw, ht] at hle ⊢
        rwa [hkey _ hwl hl, hkey _ hwr hr]
      · rw [hw, ht] at hle ⊢
        rwa [hkey _ hwl hl, hkey _ hwr hr]
    · intro c hc hc2
      have hle := hc.le
      apply (h.node (c / 2) (by omega) (by omega)).sibling
      rw [h.champion_path (by omega) hk hc.parent, h.champion_path (by omega) hk hc]
  have := hp.adjust (by omega) (by omega)
  rwa [h.leaf _ hlt] at this

end Tournament
