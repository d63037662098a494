import Mathlib.Order.Bounds.Basic
import Mathlib.Data.List.Basic
import Mathlib.Tactic.Linarith

/-!
# Two-threshold two-divisor chunking

Positions carry a primary and a backup mark. A block ends at its first primary
mark between the two thresholds, else at its last backup mark, else at the upper
threshold; a limit (the next hard boundary, or the end) cuts it short.

* `IsEnd`, `Chain`: the memoryless rule, block by block; `IsEnd.unique`,
  `Chain.unique`.
* `Chain.split`: no block crosses a position where every earlier limit stops.
* `Chain.shift`: the rule sees marks only, so equal marks give equal blocks.
-/

namespace DedupSim.Tttd

/-- Thresholds on the length of a block, and the marks. -/
structure Marks where
  tmin : ℕ
  tmax : ℕ
  primary : ℕ → Bool
  backup : ℕ → Bool

variable {M : Marks} {limit : ℕ → ℕ} {s m e n t : ℕ} {L : List (ℕ × ℕ)}

/-- The primary marks a block from `s` may end at, below `m`. -/
def Marks.primaries (M : Marks) (s m : ℕ) : Set ℕ :=
  {q | s + M.tmin ≤ q + 1 ∧ q + 1 ≤ s + M.tmax ∧ q < m ∧ M.primary q = true}

/-- The backup marks a block from `s` may end at. -/
def Marks.backups (M : Marks) (s : ℕ) : Set ℕ :=
  {q | s + M.tmin ≤ q + 1 ∧ q + 1 ≤ s + M.tmax ∧ M.backup q = true}

/-- **The rule.** A block from `s` with limit `m` ends at `e`. -/
inductive IsEnd (M : Marks) (s m e : ℕ) : Prop where
  | primary (h : IsLeast (M.primaries s m) e)
  | backup (hp : M.primaries s m = ∅) (hm : s + M.tmax ≤ m) (h : IsGreatest (M.backups s) e)
  | hard (hp : M.primaries s m = ∅) (hm : s + M.tmax ≤ m) (hb : M.backups s = ∅)
      (he : e + 1 = s + M.tmax)
  | limit (hp : M.primaries s m = ∅) (hm : m < s + M.tmax) (he : e + 1 = m)

/-- The rule's blocks `(start, end)` from one position to another. -/
inductive Chain (M : Marks) (limit : ℕ → ℕ) : ℕ → List (ℕ × ℕ) → ℕ → Prop where
  | nil (s : ℕ) : Chain M limit s [] s
  | cons {s e t : ℕ} {L : List (ℕ × ℕ)} (hs : s < limit s) (he : IsEnd M s (limit s) e)
      (h : Chain M limit (e + 1) L t) : Chain M limit s ((s, e) :: L) t

/-- **A block has one end.** -/
theorem IsEnd.unique {e' : ℕ} (h : IsEnd M s m e) (h' : IsEnd M s m e') : e = e' := by
  cases h with
  | primary h =>
    cases h' with
    | primary h' => exact h.unique h'
    | backup hp' _ _ => exact absurd h.1 (hp' ▸ Set.notMem_empty e)
    | hard hp' _ _ _ => exact absurd h.1 (hp' ▸ Set.notMem_empty e)
    | limit hp' _ _ => exact absurd h.1 (hp' ▸ Set.notMem_empty e)
  | backup hp hm h =>
    cases h' with
    | primary h' => exact absurd h'.1 (hp ▸ Set.notMem_empty e')
    | backup _ _ h' => exact h.unique h'
    | hard _ _ hb' _ => exact absurd h.1 (hb' ▸ Set.notMem_empty e)
    | limit _ hm' _ => omega
  | hard hp hm hb he =>
    cases h' with
    | primary h' => exact absurd h'.1 (hp ▸ Set.notMem_empty e')
    | backup _ _ h' => exact absurd h'.1 (hb ▸ Set.notMem_empty e')
    | hard _ _ _ he' => omega
    | limit _ hm' _ => omega
  | limit hp hm he =>
    cases h' with
    | primary h' => exact absurd h'.1 (hp ▸ Set.notMem_empty e')
    | backup _ hm' _ => omega
    | hard _ hm' _ _ => omega
    | limit _ _ he' => omega

/-- A block is not empty, ends below its limit, is no longer than `tmax`, and is
shorter than `tmin` only where the limit ends it. -/
theorem IsEnd.bounds (h1 : 1 ≤ M.tmin) (h2 : M.tmin ≤ M.tmax) (hs : s < m) (h : IsEnd M s m e) :
    s ≤ e ∧ e < m ∧ e + 1 ≤ s + M.tmax ∧ (e + 1 < s + M.tmin → e + 1 = m) := by
  cases h with
  | primary h => obtain ⟨⟨ha, hb, hc, -⟩, -⟩ := h; omega
  | backup hp hm h => obtain ⟨⟨ha, hb, -⟩, -⟩ := h; omega
  | hard hp hm hb he => omega
  | limit hp hm he => omega

/-- A limit before the lower threshold ends the block, whatever the marks. -/
theorem isEnd_short (h2 : M.tmin ≤ M.tmax) (hs : s < m) (hm : m < s + M.tmin) :
    IsEnd M s m (m - 1) := by
  refine .limit ?_ (by omega) (by omega)
  rw [Set.eq_empty_iff_forall_notMem]
  rintro q ⟨hlow, -, hq, -⟩
  omega

/-! ## Chains -/

theorem Chain.le (h1 : 1 ≤ M.tmin) (h2 : M.tmin ≤ M.tmax) (h : Chain M limit s L t) : s ≤ t := by
  induction h with
  | nil s => exact le_rfl
  | cons hs he _ ih => have := (he.bounds h1 h2 hs).1; omega

theorem Chain.append {r : ℕ} {L' : List (ℕ × ℕ)} (h : Chain M limit s L t)
    (h' : Chain M limit t L' r) : Chain M limit s (L ++ L') r := by
  induction h with
  | nil s => exact h'
  | cons hs he _ ih => exact .cons hs he (ih h')

theorem Chain.concat (h : Chain M limit s L t) (ht : t < limit t) (he : IsEnd M t (limit t) e) :
    Chain M limit s (L ++ [(t, e)]) (e + 1) :=
  h.append (.cons ht he (.nil _))

/-- **The rule has one list of blocks** between two positions. -/
theorem Chain.unique {L' : List (ℕ × ℕ)} (h1 : 1 ≤ M.tmin) (h2 : M.tmin ≤ M.tmax)
    (h : Chain M limit s L n) (h' : Chain M limit s L' n) : L = L' := by
  induction h generalizing L' with
  | nil s =>
    cases h' with
    | nil => rfl
    | cons hs he h' =>
      have := (he.bounds h1 h2 hs).1
      have := h'.le h1 h2
      omega
  | cons hs he h ih =>
    cases h' with
    | nil =>
      have := (he.bounds h1 h2 hs).1
      have := h.le h1 h2
      omega
    | cons hs' he' h' =>
      obtain rfl := he.unique he'
      rw [ih h']

/-- A chain passes through every position that no block may cross. -/
theorem Chain.split (h1 : 1 ≤ M.tmin) (h2 : M.tmin ≤ M.tmax) (h : Chain M limit s L n) (hst : s ≤ t)
    (htn : t ≤ n) (ht : ∀ r, r < t → limit r ≤ t) :
    ∃ L₁ L₂, L = L₁ ++ L₂ ∧ Chain M limit s L₁ t ∧ Chain M limit t L₂ n := by
  induction h with
  | nil s =>
    obtain rfl : s = t := by omega
    exact ⟨[], [], rfl, .nil _, .nil _⟩
  | @cons s e n L hs he h ih =>
    rcases Nat.eq_or_lt_of_le hst with rfl | hlt
    · exact ⟨[], _, rfl, .nil _, .cons hs he h⟩
    · have hb := he.bounds h1 h2 hs
      have hr := ht s hlt
      obtain ⟨L₁, L₂, rfl, c1, c2⟩ := ih (by omega) htn
      exact ⟨(s, e) :: L₁, L₂, rfl, .cons hs he c1, c2⟩

/-- A chain goes on from the start of each of its blocks. -/
theorem Chain.drop (h : Chain M limit s L n) {i : ℕ} {b : ℕ × ℕ} (hb : L[i]? = some b) :
    Chain M limit b.1 (L.drop i) n := by
  induction h generalizing i with
  | nil s => simp at hb
  | @cons s e n L hs he h ih =>
    rcases i with - | i
    · simp only [List.getElem?_cons_zero, Option.some.injEq] at hb
      rw [← hb]
      exact .cons hs he h
    · exact ih (by simpa using hb)

/-- What `IsEnd.bounds` says, of every block of a chain. -/
theorem Chain.mem_bounds (h1 : 1 ≤ M.tmin) (h2 : M.tmin ≤ M.tmax) (h : Chain M limit s L n)
    {b : ℕ × ℕ} (hb : b ∈ L) : s ≤ b.1 ∧ b.1 ≤ b.2 ∧ b.2 < limit b.1 ∧ b.2 < n ∧
      b.2 + 1 ≤ b.1 + M.tmax ∧ (b.2 + 1 < b.1 + M.tmin → b.2 + 1 = limit b.1) := by
  induction h with
  | nil s => cases hb
  | @cons s e n L hs he h ih =>
    have hbd := he.bounds h1 h2 hs
    have hle := h.le h1 h2
    rcases List.mem_cons.1 hb with rfl | hb
    · exact ⟨le_rfl, hbd.1, hbd.2.1, Nat.lt_of_succ_le hle, hbd.2.2.1, hbd.2.2.2⟩
    · have := ih hb
      exact ⟨by omega, this.2⟩

/-! ## Equal marks give equal blocks -/

/-- Blocks relative to a base. -/
def shift (d : ℕ) (R : List (ℕ × ℕ)) : List (ℕ × ℕ) := R.map fun r => (d + r.1, d + r.2)

/-- The marks and limits of `N` positions from `d` and from `d'` are the same. -/
structure SameFrom (M M' : Marks) (limit limit' : ℕ → ℕ) (d d' N : ℕ) : Prop where
  tmin : M.tmin = M'.tmin
  tmax : M.tmax = M'.tmax
  primary : ∀ j, M.tmin ≤ j + 1 → j < N → M.primary (d + j) = M'.primary (d' + j)
  backup : ∀ j, M.tmin ≤ j + 1 → j < N → M.backup (d + j) = M'.backup (d' + j)
  limit_le : ∀ j, j < N → limit (d + j) ≤ d + N
  limit : ∀ j, j < N → d' + limit (d + j) = d + limit' (d' + j)

variable {M' : Marks} {limit' : ℕ → ℕ} {d d' N : ℕ}

theorem SameFrom.primaries (h : SameFrom M M' limit limit' d d' N) {j q : ℕ} (hj : j < N) :
    d + q ∈ M.primaries (d + j) (limit (d + j)) ↔
      d' + q ∈ M'.primaries (d' + j) (limit' (d' + j)) := by
  have h1 := h.limit_le j hj
  have h2 := h.limit j hj
  have h3 := h.tmin
  have h4 := h.tmax
  simp only [Marks.primaries, Set.mem_ofPred_eq]
  constructor
  · rintro ⟨a, b, c, p⟩
    exact ⟨by omega, by omega, by omega, by rw [← h.primary q (by omega) (by omega)]; exact p⟩
  · rintro ⟨a, b, c, p⟩
    exact ⟨by omega, by omega, by omega, by rw [h.primary q (by omega) (by omega)]; exact p⟩

theorem SameFrom.backups (h : SameFrom M M' limit limit' d d' N) {j q : ℕ} (hj : j < N)
    (hm : d + j + M.tmax ≤ limit (d + j)) :
    d + q ∈ M.backups (d + j) ↔ d' + q ∈ M'.backups (d' + j) := by
  have h1 := h.limit_le j hj
  have h3 := h.tmin
  have h4 := h.tmax
  simp only [Marks.backups, Set.mem_ofPred_eq]
  constructor
  · rintro ⟨a, b, p⟩
    exact ⟨by omega, by omega, by rw [← h.backup q (by omega) (by omega)]; exact p⟩
  · rintro ⟨a, b, p⟩
    exact ⟨by omega, by omega, by rw [h.backup q (by omega) (by omega)]; exact p⟩

/-- The end of a block, moved with the marks. -/
theorem IsEnd.shift (h1 : 1 ≤ M.tmin) (hS : SameFrom M M' limit limit' d d' N) {j k : ℕ}
    (hj : j < N) (h : IsEnd M (d + j) (limit (d + j)) (d + k)) :
    IsEnd M' (d' + j) (limit' (d' + j)) (d' + k) := by
  have hl := hS.limit j hj
  have h3 := hS.tmin
  have h4 := hS.tmax
  -- a mark of either side lies at or after the start of the block
  have hp : M.primaries (d + j) (limit (d + j)) = ∅ →
      M'.primaries (d' + j) (limit' (d' + j)) = ∅ := by
    intro h0
    rw [Set.eq_empty_iff_forall_notMem] at h0 ⊢
    intro q hq
    have hq1 := hq.1
    obtain ⟨i, rfl⟩ : ∃ i, q = d' + i := ⟨q - d', by omega⟩
    exact h0 (d + i) ((hS.primaries hj).2 hq)
  cases h with
  | primary h =>
    refine .primary ⟨(hS.primaries hj).1 h.1, ?_⟩
    intro q hq
    have hq1 := hq.1
    obtain ⟨i, rfl⟩ : ∃ i, q = d' + i := ⟨q - d', by omega⟩
    have := h.2 ((hS.primaries hj).2 hq)
    omega
  | backup h0 hm h =>
    refine .backup (hp h0) (by omega) ⟨(hS.backups hj hm).1 h.1, ?_⟩
    intro q hq
    have hq1 := hq.1
    obtain ⟨i, rfl⟩ : ∃ i, q = d' + i := ⟨q - d', by omega⟩
    have := h.2 ((hS.backups hj hm).2 hq)
    omega
  | hard h0 hm hb he =>
    refine .hard (hp h0) (by omega) ?_ (by omega)
    rw [Set.eq_empty_iff_forall_notMem] at hb ⊢
    intro q hq
    have hq1 := hq.1
    obtain ⟨i, rfl⟩ : ∃ i, q = d' + i := ⟨q - d', by omega⟩
    exact hb (d + i) ((hS.backups hj hm).2 hq)
  | limit h0 hm he => exact .limit (hp h0) (by omega) (by omega)

/-- **The blocks move with the marks.** -/
theorem Chain.shift (h1 : 1 ≤ M.tmin) (h2 : M.tmin ≤ M.tmax)
    (hS : SameFrom M M' limit limit' d d' N) (h : Chain M limit s L t) :
    ∀ j k, s = d + j → t = d + k → k ≤ N →
      ∃ R, L = Tttd.shift d R ∧ Chain M' limit' (d' + j) (Tttd.shift d' R) (d' + k) := by
  induction h with
  | nil s =>
    intro j k hj hk _
    obtain rfl : j = k := by omega
    exact ⟨[], rfl, .nil _⟩
  | @cons s e t L hs he h ih =>
    intro j k hj hk hN
    subst hj
    have hb := he.bounds h1 h2 hs
    have hle := h.le h1 h2
    obtain ⟨i, rfl⟩ : ∃ i, e = d + i := ⟨e - d, by omega⟩
    obtain ⟨R, rfl, hR⟩ := ih (i + 1) k (by omega) hk hN
    have hl := hS.limit j (by omega)
    exact ⟨(j, i) :: R, rfl, .cons (by omega) (he.shift h1 hS (by omega)) hR⟩

/-! ## Without marks -/

section NoMarks

variable (hp : ∀ q < m, M.primary q = false) (hb : ∀ q < m, M.backup q = false)
include hp hb

/-- Without marks a block ends where the upper threshold or the limit has it. -/
theorem isEnd_no_marks (h1 : 1 ≤ M.tmax) (hs : s < m) : IsEnd M s m (min (s + M.tmax) m - 1) := by
  have hp0 : M.primaries s m = ∅ := by
    rw [Set.eq_empty_iff_forall_notMem]
    rintro r ⟨-, -, hlt, hr⟩
    rw [hp r hlt] at hr
    cases hr
  rcases Nat.lt_or_ge m (s + M.tmax) with hlt | hge
  · exact .limit hp0 hlt (by omega)
  · refine .hard hp0 hge ?_ (by omega)
    rw [Set.eq_empty_iff_forall_notMem]
    rintro r ⟨-, hle, hr⟩
    rw [hb r (by omega)] at hr
    cases hr

/-- Without marks a stretch of whole blocks is cut into blocks of the upper threshold. -/
theorem Chain.full (h1 : 1 ≤ M.tmin) (h2 : M.tmin ≤ M.tmax)
    (hl : ∀ r, s ≤ r → r < m → limit r = m) (h : Chain M limit s L m)
    (hdvd : M.tmax ∣ m - s) {r : ℕ × ℕ} (hr : r ∈ L) :
    r.2 + 1 = r.1 + M.tmax := by
  generalize ht : m = t at h
  induction h with
  | nil s => cases hr
  | @cons s e t L hlt he hrest ih =>
    subst ht
    have hse := (he.bounds h1 h2 hlt).1
    have hem := hrest.le h1 h2
    have hsm : s < m := by omega
    rw [hl s le_rfl hsm] at hlt he
    have hend := he.unique (isEnd_no_marks hp hb (h1.trans h2) hlt)
    have hle := Nat.le_of_dvd (by omega) hdvd
    have hnext : e + 1 = s + M.tmax := by omega
    rcases List.mem_cons.1 hr with rfl | hr
    · exact hnext
    · refine ih (fun r hr => hl r (by omega)) ?_ hr rfl
      rw [hnext, show m - (s + M.tmax) = m - s - M.tmax by omega]
      exact Nat.dvd_sub hdvd dvd_rfl

/-- Without marks and boundaries every block starts at a multiple of the upper threshold. -/
theorem Chain.start_dvd (h1 : 1 ≤ M.tmax) (hl : ∀ s, limit s = m) (h : Chain M limit s L t)
    (hs : M.tmax ∣ s) {r : ℕ × ℕ} (hr : r ∈ L) : M.tmax ∣ r.1 := by
  induction h with
  | nil s => cases hr
  | @cons s e t L hlt he hrest ih =>
    rcases List.mem_cons.1 hr with rfl | hr
    · exact hs
    rw [hl] at hlt he
    have hee := he.unique (isEnd_no_marks hp hb h1 hlt)
    rcases Nat.lt_or_ge m (s + M.tmax) with hn | hn
    · -- the block ends at the limit, so it is the last
      cases hrest with
      | nil => cases hr
      | cons hlt' => rw [hl] at hlt'; omega
    · refine ih ?_ hr
      rw [hee, show min (s + M.tmax) m - 1 + 1 = s + M.tmax by omega]
      exact Nat.dvd_add hs dvd_rfl

end NoMarks

end DedupSim.Tttd
