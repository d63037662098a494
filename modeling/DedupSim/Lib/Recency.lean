import Mathlib.Data.Finset.Card
import Mathlib.Order.WithBot

/-!
# Recency

What a cache keeps that evicts the least recently used: with `last` the time of the
last access of each key, `⊥` if there was none, `IsRecent s last` says that no key
outside `s` was accessed after one in `s`.

* `IsRecent.access`, `IsRecent.shrink`: an access and an eviction keep it.
* `IsRecent.subset`: **of two caches with one history the smaller lies in the larger.**
-/

namespace DedupSim

variable {κ τ : Type*} [DecidableEq κ] [LinearOrder τ] {s t : Finset κ} {last : κ → WithBot τ}
  {now : τ} {x : κ}

/-- No key outside `s` was accessed after one in `s`. -/
def IsRecent (s : Finset κ) (last : κ → WithBot τ) : Prop := ∀ k ∈ s, ∀ g ∉ s, last g ≤ last k

/-- The last accesses after one more. -/
def accessed (last : κ → WithBot τ) (x : κ) (now : τ) : κ → WithBot τ := Function.update last x now

omit [LinearOrder τ] in
@[simp] theorem accessed_self : accessed last x now x = now := Function.update_self ..

omit [LinearOrder τ] in
@[simp] theorem accessed_of_ne {k : κ} (h : k ≠ x) : accessed last x now k = last k :=
  Function.update_of_ne h ..

theorem accessed_le (h : ∀ k, last k ≤ now) (k : κ) : accessed last x now k ≤ now := by
  by_cases hk : k = x
  · rw [hk, accessed_self]
  · rw [accessed_of_ne hk]
    exact h k

namespace IsRecent

/-- What was accessed just now is in the cache. -/
theorem access (h : IsRecent s last) (hnow : ∀ k, last k ≤ now) (x : κ) :
    IsRecent (insert x s) (accessed last x now) := by
  intro k hk g hg
  rw [Finset.mem_insert, not_or] at hg
  rw [accessed_of_ne hg.1]
  by_cases hkx : k = x
  · rw [hkx, accessed_self]
    exact hnow g
  · rw [accessed_of_ne hkx]
    exact h k (Finset.mem_of_mem_insert_of_ne hk hkx) g hg.2

/-- What is evicted was accessed no later than what stays. -/
theorem shrink (h : IsRecent s last) (hts : t ⊆ s)
    (hout : ∀ k ∈ t, ∀ g ∈ s, g ∉ t → last g ≤ last k) : IsRecent t last := by
  intro k hk g hg
  by_cases hgs : g ∈ s
  · exact hout k hk g hgs hg
  · exact h k (hts hk) g hgs

/-- **Of two caches with one history the smaller lies in the larger**, when no two keys
were accessed at one time. -/
theorem subset (hs : IsRecent s last) (ht : IsRecent t last) (hcard : s.card ≤ t.card)
    (hinj : ∀ a ∈ s, ∀ b ∈ t, last a = last b → a = b) : s ⊆ t := by
  intro k hk
  by_contra hkt
  have hsub : t ⊆ s := by
    intro j hj
    by_contra hjs
    -- neither is later than the other
    have hjk := le_antisymm (ht j hj k hkt) (hs k hk j hjs)
    exact hkt (hinj k hk j hj hjk ▸ hj)
  have hlt : t.card < s.card := Finset.card_lt_card ⟨hsub, fun h => hkt (h hk)⟩
  omega

end IsRecent

end DedupSim
