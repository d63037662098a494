import DedupSim.Lib.Run
import DedupSim.Lib.Tournament
import DedupSim.Spec.Merge
import Mathlib.Order.WithBot

/-!
# The loser tree of the merge

* `blockKey`: the order behind `block_compare`, in which a zero-sized block is larger
  than every other (`blockCompare_nonneg`, `blockCompare_pos`).
* `adjustTree_ok`, `initTree_ok`: **`adjust_tree` and `init_tree` stay within the arrays
  and decide the tree**, while the `int`s below `2 * num_files` do not overflow.
* `initTree_fits`: where `init_tree` returns, none of them has.
-/

namespace DedupSim

open Tournament

variable {b1 b2 : Block} {k small parent root : ℕ} {bls bls' : ℕ → Block} {tree W : ℕ → ℕ} {one : Bool}
  {int : ℕ → Except Fault Unit}

/-! ## `block_compare` -/

/-- The key of a block: its checksum, or the top for a stream that has ended. -/
def blockKey (b : Block) : WithTop Checksum := if b.size = 0 then ⊤ else b.cksum

theorem blockKey_eq_top {b : Block} : blockKey b = ⊤ ↔ b.size = 0 := by
  unfold blockKey
  split <;> simp_all

/-- A `uint32_t` as an `int`. -/
theorem toInt32_toInt (u : UInt32) :
    u.toInt32.toInt = if u.toNat < 2 ^ 31 then (u.toNat : ℤ) else u.toNat - 2 ^ 32 := by
  have h := BitVec.toInt_eq_toNat_cond u.toBitVec
  change u.toBitVec.toInt = _
  rw [h]
  change (if 2 * u.toNat < 2 ^ 32 then _ else _) = _
  have hbound : 2 * u.toNat < 2 ^ 32 ↔ u.toNat < 2 ^ 31 := by omega
  simp only [hbound]
  rfl

theorem size_ne_zero {b : Block} : b.size ≠ 0 ↔ 0 < b.size.toNat := by
  rw [Nat.pos_iff_ne_zero, ne_eq, ne_eq, ← UInt32.toNat_inj]
  rfl

/-- **`block_compare` compares the keys**, while sizes are below `2 ^ 31`. -/
theorem blockCompare_cmp (h1 : b1.size.toNat < 2 ^ 31) (h2 : b2.size.toNat < 2 ^ 31) :
    (blockCompare b1 b2 < 0 ↔ blockKey b1 < blockKey b2) ∧
      (blockCompare b1 b2 = 0 ↔ blockKey b1 = blockKey b2) := by
  by_cases hz1 : b1.size = 0
  · -- the difference is a size below `2 ^ 31`, so not negative as an `int`
    have hd : (b2.size - b1.size).toNat = b2.size.toNat := by rw [hz1, UInt32.sub_zero]
    have hk1 : blockKey b1 = ⊤ := blockKey_eq_top.2 hz1
    unfold blockCompare
    rw [if_pos (.inl hz1), toInt32_toInt, hd, if_pos h2, hk1]
    refine ⟨⟨fun h => by omega, fun h => absurd h not_top_lt⟩, ?_⟩
    rw [eq_comm (a := (⊤ : WithTop Checksum)), blockKey_eq_top, ← UInt32.toNat_inj]
    exact Int.natCast_eq_zero
  by_cases hz2 : b2.size = 0
  · -- and here it wraps around to a negative one
    have hp := size_ne_zero.1 hz1
    have hd : (b2.size - b1.size).toNat = 2 ^ 32 - b1.size.toNat := by
      rw [hz2, UInt32.toNat_sub]
      change (2 ^ 32 - b1.size.toNat + 0) % 2 ^ 32 = _
      omega
    have hk2 : blockKey b2 = ⊤ := blockKey_eq_top.2 hz2
    have hk1 : blockKey b1 ≠ ⊤ := fun h => hz1 (blockKey_eq_top.1 h)
    unfold blockCompare
    rw [if_pos (.inr hz2), toInt32_toInt, hd, if_neg (by omega), hk2]
    refine ⟨⟨fun _ => lt_top_iff_ne_top.2 hk1, fun _ => by omega⟩,
      ⟨fun h => by omega, fun h => absurd h hk1⟩⟩
  · rw [blockCompare, if_neg (by simp [hz1, hz2]), blockKey, blockKey, if_neg hz1, if_neg hz2,
      WithTop.coe_lt_coe, WithTop.coe_eq_coe]
    exact ⟨Checksum.lt_iff_memcmp.symm, Checksum.eq_iff_memcmp.symm⟩

theorem blockCompare_nonneg (h1 : b1.size.toNat < 2 ^ 31) (h2 : b2.size.toNat < 2 ^ 31) :
    0 ≤ blockCompare b1 b2 ↔ blockKey b2 ≤ blockKey b1 := by
  rw [← not_lt, (blockCompare_cmp h1 h2).1, not_lt]

theorem blockCompare_pos (h1 : b1.size.toNat < 2 ^ 31) (h2 : b2.size.toNat < 2 ^ 31) :
    0 < blockCompare b1 b2 ↔ blockKey b2 < blockKey b1 := by
  rw [lt_iff_le_and_ne, lt_iff_le_and_ne, blockCompare_nonneg h1 h2, ne_comm, ne_eq,
    (blockCompare_cmp h1 h2).2, ne_comm (a := blockKey b2)]

/-! ## The tree -/

/-- The keys of the players. -/
def keys (bls : ℕ → Block) (i : ℕ) : WithTop Checksum := blockKey (bls i)

/-- The loop stays within the arrays and plays the matches up to the root. -/
theorem adjustLoop_ok (hs : ∀ i < k, (bls i).size.toNat < 2 ^ 31) (hk : 0 < k) :
    ∀ (parent : ℕ) (tree : ℕ → ℕ) (small : ℕ), (∀ n, 0 < n → n < k → tree n < k) → small < k →
      parent < k → adjustLoop k bls tree small parent = .ok (adjust (keys bls) tree small parent) := by
  intro parent
  induction parent using Nat.strong_induction_on with
  | _ parent ih =>
    intro tree small ht hsmall hparent
    unfold adjustLoop
    unfold adjust
    by_cases h0 : parent = 0
    · rw [if_pos h0, if_pos h0, writeAt_ok hk]
    · have hother := ht parent (by omega) hparent
      rw [if_neg h0, if_neg h0, readAt_ok hparent]
      simp only [Except.bind, bind, readAt_ok hsmall, readAt_ok hother, writeAt_ok hparent,
        blockCompare_nonneg (hs _ hsmall) (hs _ hother)]
      split
      · -- the loser stays, which is a player like the one before it
        rename_i hle
        have hkeys : keys bls (tree parent) ≤ keys bls small := hle
        rw [if_pos hkeys]
        refine ih (parent / 2) (by omega) _ _ ?_ hother (by omega)
        intro n hn0 hn
        by_cases hnp : n = parent
        · rw [hnp, Function.update_self]
          exact hsmall
        · rw [Function.update_of_ne hnp]
          exact ht n hn0 hn
      · rename_i hle
        have hkeys : ¬ keys bls (tree parent) ≤ keys bls small := hle
        rw [if_neg hkeys]
        exact ih (parent / 2) (by omega) _ _ ht hsmall (by omega)

/-- **`adjust_tree` of the champion**, whose block alone has changed. -/
theorem adjustTree_ok (hint : ∀ n < 2 * k, int n = .ok ()) (h : Decided k (keys bls) tree W)
    (bls' : ℕ → Block) (hk : 0 < k)
    (hs : ∀ i < k, (bls' i).size.toNat < 2 ^ 31) (hbls : ∀ i < k, i ≠ W 1 → bls' i = bls i) :
    ∃ tree' W', adjustTree int k bls' tree (W 1) = .ok tree' ∧ Decided k (keys bls') tree' W' ∧
      tree' 0 = W' 1 := by
  have hw := h.lt Nat.one_pos (by omega)
  obtain ⟨W', hdec, h0⟩ := h.adjust (keys bls') hk fun i hi hne => by
    rw [keys, keys, hbls i hi hne]
  refine ⟨_, W', ?_, hdec, h0⟩
  unfold adjustTree
  rw [hint (W 1 + k) (by omega), Nat.add_comm (W 1) k]
  exact adjustLoop_ok hs hk _ tree (W 1) (fun n h0 hn => h.tree_lt h0 hn) hw (by omega)

/-- The nodes below `root`. -/
theorem above_children (h : 0 < root) {m : ℕ} :
    Above root m ↔ m = root ∨ Above (2 * root) m ∨ Above (2 * root + 1) m := by
  constructor
  · rintro ⟨j, hj⟩
    rcases j with - | j
    · rw [pow_zero, Nat.div_one] at hj
      exact .inl hj
    · rw [pow_succ, ← Nat.div_div_eq_div_mul] at hj
      have hc : m / 2 ^ j = 2 * root ∨ m / 2 ^ j = 2 * root + 1 := by
        generalize m / 2 ^ j = a at hj
        omega
      exact .inr (hc.imp (fun e => ⟨j, e⟩) fun e => ⟨j, e⟩)
  · rintro (rfl | h' | h')
    · exact .refl m
    · have := h'.parent
      rwa [show 2 * root / 2 = root by omega] at this
    · have := h'.parent
      rwa [show (2 * root + 1) / 2 = root by omega] at this

/-- What `init_tree` leaves: the losers below its root, and the rest as it was. -/
structure Played (k : ℕ) (bls : ℕ → Block) (root : ℕ) (tree tree' : ℕ → ℕ) : Prop where
  below : ∀ m < k, Above root m → tree' m = loser k (keys bls) m
  off : ∀ m, ¬ Above root m → tree' m = tree m

/-- The winners are players. -/
theorem winner_lt (bls : ℕ → Block) (h0 : 0 < root) (h : root < 2 * k) : winner k (keys bls) root < k :=
  (decided_winner fun _ _ _ => rfl).lt h0 h

/-- The loser of a match at the root is stored, after both subtrees have been played. -/
theorem Played.join {tree1 tree2 : ℕ → ℕ} (h0 : 0 < root) (h1 : Played k bls (2 * root) tree tree1)
    (h2 : Played k bls (2 * root + 1) tree1 tree2) :
    Played k bls root tree (Function.update tree2 root (loser k (keys bls) root)) := by
  have hsides : ∀ m, Above (2 * root) m → ¬ Above (2 * root + 1) m := by
    intro m hl hr
    have := hl.eq_of_parent hr (by omega) (by omega)
    omega
  refine ⟨?_, ?_⟩
  · intro m hm ha
    by_cases hmr : m = root
    · rw [hmr, Function.update_self]
    · rw [Function.update_of_ne hmr]
      rcases (above_children h0).1 ha with rfl | ha | ha
      · exact absurd rfl hmr
      · rw [h2.off m (hsides m ha), h1.below m hm ha]
      · exact h2.below m hm ha
  · intro m ha
    rw [above_children h0, not_or, not_or] at ha
    rw [Function.update_of_ne ha.1, h2.off m ha.2.2, h1.off m ha.2.1]

/-- **`init_tree` of an inner node.** -/
theorem initTreeWith_ok (hint : ∀ n < 2 * k, int n = .ok ())
    (hs : ∀ i < k, (bls i).size.toNat < 2 ^ 31) (one : Bool) :
    ∀ (root : ℕ) (tree : ℕ → ℕ), 0 < root → root < k →
      ∃ tree', initTreeWith int k bls one tree root = .ok (tree', winner k (keys bls) root) ∧
        Played k bls root tree tree' := by
  intro root
  induction hd : k - root using Nat.strong_induction_on generalizing root with
  | _ d ih =>
    subst hd
    intro tree h0 hroot
    -- a child is a leaf, or its tree is played
    have hchild : ∀ c tree, c = 2 * root ∨ c = 2 * root + 1 →
        ∃ tree', (if k ≤ c then .ok (tree, c - k) else initTreeWith int k bls one tree c) =
            .ok (tree', winner k (keys bls) c) ∧ Played k bls c tree tree' := by
      intro c tree hc
      by_cases hleaf : k ≤ c
      · rw [if_pos hleaf, winner_leaf (by omega) hleaf]
        refine ⟨tree, rfl, ?_, fun _ _ => rfl⟩
        intro m hm ha
        have := ha.le
        omega
      · rw [if_neg hleaf]
        exact ih (k - c) (by omega) c rfl tree (by omega) (by omega)
    obtain ⟨tree1, hl, hp1⟩ := hchild (2 * root) tree (.inl rfl)
    obtain ⟨tree2, hr, hp2⟩ := hchild (2 * root + 1) tree1 (.inr rfl)
    have hwl := winner_lt bls (show 0 < 2 * root by omega) (show 2 * root < 2 * k by omega)
    have hwr := winner_lt bls (show 0 < 2 * root + 1 by omega)
      (show 2 * root + 1 < 2 * k by omega)
    refine ⟨_, ?_, .join h0 hp1 hp2⟩
    unfold initTreeWith
    rw [if_neg h0.ne', winner_node _ h0 hroot, loser]
    simp only [hint (2 * root) (by omega), hint (2 * root + 1) (by omega), hl, hr, Except.bind, bind,
      readAt_ok hwl, readAt_ok hwr, writeAt_ok hroot, blockCompare_pos (hs _ hwl) (hs _ hwr), pure,
      Except.pure]
    change (if keys bls _ < keys bls _ then _ else _) = _
    by_cases hlt : keys bls (winner k (keys bls) (2 * root + 1)) <
        keys bls (winner k (keys bls) (2 * root))
    · rw [if_pos hlt, if_pos hlt, if_pos hlt]
    · rw [if_neg hlt, if_neg hlt, if_neg hlt]

/-- **`init_tree(0)`.** -/
theorem initTree_ok (hint : ∀ n < 2 * k, int n = .ok ()) (bls : ℕ → Block)
    (hs : ∀ i < k, (bls i).size.toNat < 2 ^ 31) (hk : 0 < k) (hone : one = true ∨ 2 ≤ k)
    (tree : ℕ → ℕ) :
    ∃ tree' W w, initTreeWith int k bls one tree 0 = .ok (tree', w) ∧ Decided k (keys bls) tree' W ∧
      tree' 0 = W 1 := by
  unfold initTreeWith
  rw [if_pos rfl]
  by_cases h1 : k = 1
  · subst h1
    obtain rfl : one = true := hone.resolve_right (by omega)
    rw [if_pos ⟨rfl, rfl⟩]
    refine ⟨Function.update tree 0 0, winner 1 (keys bls), 0, ?_,
      decided_winner fun n h0 hn => by omega, ?_⟩
    · simp [bind, Except.bind, pure, Except.pure]
    · rw [winner_leaf Nat.one_pos le_rfl]
      rfl
  · rw [if_neg fun h => h1 h.2]
    obtain ⟨tree1, hok, hp⟩ := initTreeWith_ok hint hs one 1 tree Nat.one_pos (by omega)
    refine ⟨Function.update tree1 0 (winner k (keys bls) 1), winner k (keys bls),
      winner k (keys bls) 1, ?_,
      decided_winner ?_, Function.update_self ..⟩
    · simp [hok, bind, Except.bind, pure, Except.pure, hk]
    · intro n h0 hn
      rw [Function.update_of_ne h0.ne']
      exact hp.below n hn (above_one h0)

/-- Where `init_tree` of an inner node returns, the inner nodes below it have children whose
indices did not overflow. -/
theorem initTreeWith_fits (k : ℕ) (bls : ℕ → Block) (one : Bool) :
    ∀ (root : ℕ) (tree : ℕ → ℕ) (r : (ℕ → ℕ) × ℕ), 0 < root →
      initTreeWith int k bls one tree root = .ok r →
        ∀ m < k, Above root m → int (2 * m + 1) = .ok () := by
  intro root
  induction hd : k - root using Nat.strong_induction_on generalizing root with
  | _ d ih =>
    subst hd
    intro tree r h0 hok m hm ha
    have hroot : root < k := ha.le.trans_lt hm
    -- a child that is an inner node is a call that returned
    have hchild : ∀ (c : ℕ) (tree : ℕ → ℕ) (r : (ℕ → ℕ) × ℕ), c = 2 * root ∨ c = 2 * root + 1 →
        (if k ≤ c then .ok (tree, c - k) else initTreeWith int k bls one tree c) = .ok r →
          Above c m → int (2 * m + 1) = .ok () := by
      intro c tree r hc hr hac
      have hck : c < k := hac.le.trans_lt hm
      rw [if_neg (not_le.2 hck)] at hr
      exact ih (k - c) (by omega) c rfl tree r (by omega) hr m hm hac
    unfold initTreeWith at hok
    rw [if_neg h0.ne'] at hok
    obtain ⟨⟨⟩, -, hok⟩ := bind_eq_ok.1 hok
    obtain ⟨⟨⟩, hright, hok⟩ := bind_eq_ok.1 hok
    obtain ⟨⟨tree1, w1⟩, hr1, hok⟩ := bind_eq_ok.1 hok
    obtain ⟨⟨tree2, w2⟩, hr2, -⟩ := bind_eq_ok.1 hok
    rcases (above_children h0).1 ha with rfl | ha | ha
    · exact hright
    · exact hchild _ _ _ (.inl rfl) hr1 ha
    · exact hchild _ _ _ (.inr rfl) hr2 ha

/-- **Where `init_tree(0)` returns, no index has overflowed.** -/
theorem initTree_fits (hk : 2 ≤ k) {r : (ℕ → ℕ) × ℕ} (h : initTreeWith int k bls one tree 0 = .ok r) :
    int (2 * (k - 1) + 1) = .ok () := by
  unfold initTreeWith at h
  rw [if_pos rfl, if_neg fun h => by omega] at h
  obtain ⟨r', hr', -⟩ := bind_eq_ok.1 h
  exact initTreeWith_fits k bls one 1 tree r' Nat.one_pos hr' (k - 1) (by omega) (above_one (by omega))

end DedupSim
