import Mathlib.Data.List.Basic

/-!
# Runs

A step that may fail, folded over a list of inputs. `run_take_succ` is one step more of
a run and `run_keeps` what a run keeps; `run_invariant` says that **what every step keeps,
every prefix of a run has**, and that none fails. `bind_eq_ok` inverts one step, `mapM_eq_pure`
and `mapM_eq_none` are for steps that do not depend on each other.
-/

namespace DedupSim

variable {σ α ε : Type*} {f : σ → α → Except ε σ} {s₀ : σ} {l : List α} {n : ℕ}

theorem bind_eq_ok {α β : Type} {x : Except ε α} {g : α → Except ε β} {b : β} :
    (x >>= g) = .ok b ↔ ∃ a, x = .ok a ∧ g a = .ok b := by
  rcases x with e | a
  · exact iff_of_false nofun fun ⟨a, h, _⟩ => nomatch h
  · exact ⟨fun h => ⟨a, rfl, h⟩, fun ⟨_, h, hb⟩ => Except.ok.inj h ▸ hb⟩

theorem mapM_eq_pure {α β : Type} {m : Type → Type} [Monad m] [LawfulMonad m] {f : α → m β}
    {g : α → β} {l : List α} (h : ∀ a ∈ l, f a = pure (g a)) : l.mapM f = pure (l.map g) := by
  induction l with
  | nil => rfl
  | cons a l ih =>
    rw [List.mapM_cons, h a (.head _), ih fun b hb => h b (.tail _ hb), pure_bind, pure_bind,
      List.map_cons]

theorem mapM_eq_none {α β : Type} {f : α → Option β} {l : List α} {a : α} (ha : a ∈ l)
    (h : f a = none) : l.mapM f = none := by
  induction ha with
  | head l =>
    rw [List.mapM_cons, h]
    rfl
  | @tail b l _ ih =>
    rw [List.mapM_cons, ih]
    cases f b <;> rfl

theorem run_take_succ {x : α} (h : l[n]? = some x) :
    (l.take (n + 1)).foldlM f s₀ = (l.take n).foldlM f s₀ >>= fun s => f s x := by
  rw [List.take_add_one, h, Option.toList_some, List.foldlM_append]
  refine congrArg _ (funext ?_)
  intro s
  rw [List.foldlM_cons]
  simp only [List.foldlM_nil, bind_pure]

/-- What every step keeps, a run that does not fail keeps. -/
theorem run_keeps {P : σ → Prop} (hstep : ∀ s x s', f s x = .ok s' → P s → P s') {s s' : σ}
    (h : l.foldlM f s = .ok s') (hs : P s) : P s' := by
  induction l generalizing s with
  | nil =>
    cases h
    exact hs
  | cons x l ih =>
    rw [List.foldlM_cons] at h
    rcases hx : f s x with e | t
    · rw [hx] at h
      cases h
    · rw [hx] at h
      exact ih h (hstep s x t hx hs)

/-- **Every prefix of a run has what every step keeps.** -/
theorem run_invariant {I : List α → σ → Prop} (h0 : I [] s₀)
    (hstep : ∀ (n : ℕ) (x : α) (s : σ), l[n]? = some x → (l.take n).foldlM f s₀ = .ok s →
      I (l.take n) s → ∃ s', f s x = .ok s' ∧ I (l.take (n + 1)) s') (n : ℕ) :
    ∃ s, (l.take n).foldlM f s₀ = .ok s ∧ I (l.take n) s := by
  induction n with
  | zero => exact ⟨s₀, rfl, h0⟩
  | succ n ih =>
    obtain ⟨s, hs, hinv⟩ := ih
    rcases hx : l[n]? with - | x
    · -- the run is at its end
      have hlen := List.getElem?_eq_none_iff.1 hx
      rw [List.take_of_length_le hlen] at hs hinv
      rw [List.take_of_length_le (by omega)]
      exact ⟨s, hs, hinv⟩
    · obtain ⟨s', hs', hinv'⟩ := hstep n x s hx hs hinv
      refine ⟨s', ?_, hinv'⟩
      rw [run_take_succ hx, hs]
      exact hs'

end DedupSim
