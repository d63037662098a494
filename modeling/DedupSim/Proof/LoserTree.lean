import DedupSim.Proof.MergeTree

/-!
# The loser tree over a whole run

* `LoserTree`: what holds of `tree` and `bls`, in terms of `block_compare`.
* `treeSteps`: steps that give the champion's stream its next block and repair the tree.
* `KeepsLoserTree`: the invariant holds after `init_tree(0)` and after any steps, no index
  leaves the arrays, and none overflows.
* `loserTree_run_iff`: **it does for `2 ^ 30` streams at most.**
-/

namespace DedupSim

open Tournament

variable {k n : ℕ} {bls : ℕ → Block} {tree W : ℕ → ℕ}

/-- The match of node `n`, between the winners at its children: the node stores the one that
`block_compare` has last. -/
structure BlockMatch (bls : ℕ → Block) (tree W : ℕ → ℕ) (n : ℕ) : Prop where
  players : W n = W (2 * n) ∧ tree n = W (2 * n + 1) ∨ W n = W (2 * n + 1) ∧ tree n = W (2 * n)
  le : blockCompare (bls (W n)) (bls (tree n)) ≤ 0

/-- **The loser tree of `k` streams**: `tree[0]` has a least block, the other nodes keep the
losers of their matches, and each stream is in the tree once. -/
structure LoserTree (k : ℕ) (bls : ℕ → Block) (tree : ℕ → ℕ) : Prop where
  champion : tree 0 < k
  least : ∀ i < k, blockCompare (bls (tree 0)) (bls i) ≤ 0
  ended : (bls (tree 0)).size = 0 → ∀ i < k, (bls i).size = 0
  perm : ((List.range k).map tree).Perm (List.range k)
  losers : ∃ W, (∀ i < k, W (k + i) = i) ∧ W 1 = tree 0 ∧ ∀ n, 0 < n → n < k → BlockMatch bls tree W n

theorem blockCompare_nonpos {b1 b2 : Block} (h1 : b1.size.toNat < 2 ^ 31)
    (h2 : b2.size.toNat < 2 ^ 31) :
    blockCompare b1 b2 ≤ 0 ↔ blockKey b1 ≤ blockKey b2 := by
  rw [← not_lt, blockCompare_pos h1 h2, not_lt]

/-- A decided tree, in terms of `block_compare`. -/
theorem loserTree_of_decided (h : Decided k (keys bls) tree W) (hk : 0 < k) (h0 : tree 0 = W 1)
    (hs : ∀ i < k, (bls i).size.toNat < 2 ^ 31) : LoserTree k bls tree := by
  have hw : W 1 < k := h.lt Nat.one_pos (by omega)
  refine ⟨h0 ▸ hw, ?_, ?_, h.perm hk h0, W, h.leaf, h0.symm, ?_⟩
  · intro i hi
    rw [h0, blockCompare_nonpos (hs _ hw) (hs i hi)]
    exact h.champion_le hi
  · intro hz i hi
    have hle := h.champion_le hi
    unfold keys at hle
    rw [← h0, blockKey_eq_top.2 hz, top_le_iff] at hle
    exact blockKey_eq_top.1 hle
  · intro n hn0 hn
    have hmatch := h.node n hn0 hn
    refine ⟨hmatch.players, ?_⟩
    rw [blockCompare_nonpos (hs _ (h.lt hn0 (by omega))) (hs _ (h.tree_lt hn0 hn))]
    exact hmatch.le

/-- Steps: each overwrites `bls[tree[0]]` and calls `adjust_tree(tree[0])`. -/
def treeSteps (numFiles : ℕ) (bls : ℕ → Block) (tree : ℕ → ℕ) :
    List Block → Except Fault ((ℕ → Block) × (ℕ → ℕ))
  | [] => .ok (bls, tree)
  | b :: bs => do
    let bls ← writeAt numFiles bls (← readAt numFiles tree 0) b
    let tree ← adjustTree fitsInt numFiles bls tree (← readAt numFiles tree 0)
    treeSteps numFiles bls tree bs

/-- While there are no more than `2 ^ 30` streams, the indices fit an `int`. -/
theorem fitsInt_index (hk : k ≤ 2 ^ 30) : ∀ n < 2 * k, fitsInt n = .ok () :=
  fun _ hn => fitsInt_ok (by omega)

/-- **Any steps** from a decided tree. -/
theorem treeSteps_ok (hk : 0 < k) (h30 : k ≤ 2 ^ 30) (bs : List Block) :
    ∀ (bls : ℕ → Block) (tree W : ℕ → ℕ), Decided k (keys bls) tree W → tree 0 = W 1 →
      (∀ i < k, (bls i).size.toNat < 2 ^ 31) → (∀ b ∈ bs, b.size.toNat < 2 ^ 31) →
        ∃ bls' tree', treeSteps k bls tree bs = .ok (bls', tree') ∧ LoserTree k bls' tree' := by
  induction bs with
  | nil => exact fun bls tree W h h0 hs _ => ⟨bls, tree, rfl, loserTree_of_decided h hk h0 hs⟩
  | cons b bs ih =>
    intro bls tree W h h0 hs hbs
    have hw : W 1 < k := h.lt Nat.one_pos (by omega)
    set bls' := Function.update bls (W 1) b with hbls'
    have hs' : ∀ i < k, (bls' i).size.toNat < 2 ^ 31 := by
      intro i hi
      by_cases hiw : i = W 1
      · rw [hbls', hiw, Function.update_self]
        exact hbs b (.head _)
      · rw [hbls', Function.update_of_ne hiw]
        exact hs i hi
    obtain ⟨tree', W', hadjust, h', h0'⟩ := adjustTree_ok (fitsInt_index h30) h bls' hk hs'
      fun i _ hne => Function.update_of_ne hne _ _
    obtain ⟨bls'', tree'', hsteps, hinv⟩ := ih bls' tree' W' h' h0' hs'
      fun x hx => hbs x (.tail _ hx)
    refine ⟨bls'', tree'', ?_, hinv⟩
    simp only [treeSteps, readAt_ok hk, h0, bind, Except.bind, writeAt_ok hw, ← hbls', hadjust, hsteps]

/-- **`k` streams keep a loser tree**: whatever their blocks and the memory of `tree`,
`init_tree(0)` and any steps after it return, which no index outside the arrays and no overflow
does, and leave a loser tree. -/
def KeepsLoserTree (k : ℕ) : Prop :=
  ∀ (bls : ℕ → Block) (tree : ℕ → ℕ), (∀ i < k, (bls i).size.toNat < 2 ^ 31) →
    ∀ bs : List Block, (∀ b ∈ bs, b.size.toNat < 2 ^ 31) →
      ∃ tree1 w bls' tree', initTreeWith fitsInt k bls true tree 0 = .ok (tree1, w) ∧
        treeSteps k bls tree1 bs = .ok (bls', tree') ∧ LoserTree k bls' tree'

theorem keepsLoserTree_of_le (hk : 1 ≤ k) (h30 : k ≤ 2 ^ 30) : KeepsLoserTree k := by
  intro bls tree hs bs hbs
  obtain ⟨tree1, W, w, hinit, h, h0⟩ :=
    initTree_ok (fitsInt_index h30) bls hs hk (.inl rfl) tree
  obtain ⟨bls', tree', hsteps, hinv⟩ := treeSteps_ok hk h30 bs bls tree1 W h h0 hs hbs
  exact ⟨tree1, w, bls', tree', hinit, hsteps, hinv⟩

/-- With more streams the last inner node has a child whose index is no `int`. -/
theorem not_keepsLoserTree_of_gt (h30 : 2 ^ 30 < k) : ¬ KeepsLoserTree k := by
  intro h
  obtain ⟨tree1, w, -, -, hinit, -⟩ := h (fun _ => default) id (fun _ _ => by decide) [] nofun
  have hfits := initTree_fits (by omega) hinit
  rw [fitsInt_fault (by omega)] at hfits
  cases hfits

/-- **The loser tree invariant**: it holds after `init_tree(0)` and after any number of steps, if
and only if there are no more than `2 ^ 30` streams. -/
theorem loserTree_run_iff (k : ℕ) (hk : 1 ≤ k) : KeepsLoserTree k ↔ k ≤ 2 ^ 30 :=
  ⟨fun h => not_lt.1 fun hgt => not_keepsLoserTree_of_gt hgt h, keepsLoserTree_of_le hk⟩

/-- A block of a size. -/
def sized (n : UInt32) : Block := { (default : Block) with size := n }

/-- Seven streams, of which one has ended, and three steps, one of which ends a stream. -/
theorem loserTree_run_seven :
    ∃ tree1 w bls' tree',
      initTreeWith fitsInt 7 (fun i => sized (UInt32.ofNat i)) true id 0 = .ok (tree1, w) ∧
      treeSteps 7 (fun i => sized (UInt32.ofNat i)) tree1 [sized 9, sized 0, sized 8] =
        .ok (bls', tree') ∧ LoserTree 7 bls' tree' :=
  (loserTree_run_iff 7 (by decide)).2 (by decide) (fun i => sized (UInt32.ofNat i)) id (by decide)
    [sized 9, sized 0, sized 8] (by decide)

/-- One stream more than the bound: `2 * root` overflows at the root `2 ^ 30`. -/
theorem not_keepsLoserTree : ¬ KeepsLoserTree (2 ^ 30 + 1) :=
  not_keepsLoserTree_of_gt (Nat.lt_succ_self _)

end DedupSim
