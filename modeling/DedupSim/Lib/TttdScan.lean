import DedupSim.Lib.Tttd

/-!
# The one-pass search for two-threshold blocks

`Scan` reads the marks once, front to back, and keeps the last backup mark. A
block closed late at that mark leaves positions behind that are not read again.

* `ScanOK`: what holds before a position is read; `ScanOK.next` is one step.
* `run_chain`: **the one-pass search finds the blocks of the rule.**
* `run_start_iff`: before the end is flushed, the search has closed every block
  exactly when the rule's last block ends at a primary mark or has full length.
-/

namespace DedupSim.Tttd

/-- The search: where the open block starts, its last backup mark, the blocks closed. -/
structure Scan where
  start : ℕ
  backup : Option ℕ
  out : List (ℕ × ℕ)

variable (M : Marks) (boundary : ℕ → Bool)

/-- A hard boundary before position `q`. -/
def Scan.cut (c : Scan) (q : ℕ) : Scan :=
  { start := q
    backup := none
    out := if c.start < q then c.out ++ [(c.start, q - 1)] else c.out }

/-- A backup mark at `q` is the last one so far. -/
def Scan.note (c : Scan) (q : ℕ) : Scan := if M.backup q then { c with backup := some q } else c

/-- Whether the open block ends now that `q` is read, and where. -/
def Scan.close (c : Scan) (q : ℕ) : Scan :=
  if M.primary q then { start := q + 1, backup := none, out := c.out ++ [(c.start, q)] }
  else if q + 1 < c.start + M.tmax then c
  else
    match c.backup with
    | some b => { start := b + 1, backup := none, out := c.out ++ [(c.start, b)] }
    | none => { start := q + 1, backup := none, out := c.out ++ [(c.start, q)] }

/-- Position `q`. -/
def Scan.step (c : Scan) (q : ℕ) : Scan :=
  if q + 1 < c.start + M.tmin then c else (c.note M q).close M q

def Scan.next (c : Scan) (q : ℕ) : Scan := (if boundary q then c.cut q else c).step M q

/-- The search over the positions below `n`. -/
def Scan.run (n : ℕ) : Scan :=
  (List.range n).foldl (Scan.next M boundary) { start := 0, backup := none, out := [] }

/-- The blocks once the end `n` is flushed. -/
def Scan.finish (c : Scan) (n : ℕ) : List (ℕ × ℕ) :=
  if c.start < n then c.out ++ [(c.start, n - 1)] else c.out

theorem Scan.run_succ (n : ℕ) :
    Scan.run M boundary (n + 1) = (Scan.run M boundary n).next M boundary n := by
  simp [Scan.run, List.range_succ]

variable {M boundary} {limit : ℕ → ℕ} {n q s e : ℕ} {c : Scan}

/-- `limit s` is the first boundary after `s`, or the end `n`. -/
structure LimitOK (boundary : ℕ → Bool) (limit : ℕ → ℕ) (n : ℕ) : Prop where
  lt_limit : ∀ s, s < n → s < limit s
  limit_le : ∀ s, limit s ≤ n
  at_limit : ∀ s, limit s < n → boundary (limit s) = true
  first : ∀ s r, s < r → r < limit s → boundary r = false

/-- A later start below the same limit has at least that limit. -/
theorem LimitOK.mono (hl : LimitOK boundary limit n) {r : ℕ} (hs : s ≤ r) (hr : r < limit s) :
    limit s ≤ limit r := by
  have hle := hl.limit_le s
  by_contra hlt
  push Not at hlt
  have hb := hl.at_limit r (by omega)
  rw [hl.first s (limit r) (by have := hl.lt_limit r (by omega); omega) hlt] at hb
  cases hb

/-- The backup mark kept is the last one the open block may end at. -/
def BackupOK (M : Marks) (s q : ℕ) : Option ℕ → Prop
  | none => ∀ r, s + M.tmin ≤ r + 1 → r < q → M.backup r = false
  | some b => IsGreatest {r | s + M.tmin ≤ r + 1 ∧ r < q ∧ M.backup r = true} b

theorem BackupOK.short {b : Option ℕ} (h : BackupOK M s q b) (hq : q + 1 < s + M.tmin) :
    BackupOK M s (q + 1) b := by
  cases b with
  | none => intro r h1 h2; exact h r h1 (by omega)
  | some b => have := h.1.1; have := h.1.2.1; omega

/-- With all its positions read, the mark kept is the rule's. -/
theorem BackupOK.greatest (h : BackupOK M s q (some e)) (hq : q = s + M.tmax) :
    IsGreatest (M.backups s) e := by
  obtain ⟨⟨ha, hb, hm⟩, hub⟩ := h
  refine ⟨⟨ha, by omega, hm⟩, ?_⟩
  rintro r ⟨hra, hrb, hrm⟩
  exact hub ⟨hra, by omega, hrm⟩

theorem BackupOK.empty (h : BackupOK M s q none) (hq : q = s + M.tmax) : M.backups s = ∅ := by
  rw [Set.eq_empty_iff_forall_notMem]
  rintro r ⟨ha, hb, hm⟩
  rw [h r ha (by omega)] at hm
  cases hm

theorem BackupOK.note (h : BackupOK M c.start q c.backup) (hq : c.start + M.tmin ≤ q + 1) :
    BackupOK M c.start (q + 1) (c.note M q).backup := by
  unfold Scan.note
  cases hb : M.backup q with
  | true => exact ⟨⟨hq, by omega, hb⟩, fun r hr => by have := hr.2.1; omega⟩
  | false =>
    rw [if_neg (by simp)]
    have hlt : ∀ r, r < q + 1 → M.backup r = true → r < q := by
      intro r hr hbr
      rcases Nat.lt_succ_iff_lt_or_eq.1 hr with h | rfl
      · exact h
      · rw [hb] at hbr; cases hbr
    cases hc : c.backup with
    | none =>
      rw [hc] at h
      intro r h1 h2
      by_contra hbr
      rw [Bool.not_eq_false] at hbr
      rw [h r h1 (hlt r h2 hbr)] at hbr
      cases hbr
    | some b =>
      rw [hc] at h
      exact ⟨⟨h.1.1, by have := h.1.2.1; omega, h.1.2.2⟩,
        fun r hr => h.2 ⟨hr.1, hlt r hr.2.1 hr.2.2, hr.2.2⟩⟩

/-- What holds when the positions below `q` have been read. -/
structure ScanOK (M : Marks) (limit : ℕ → ℕ) (q : ℕ) (c : Scan) : Prop where
  chain : Chain M limit 0 c.out c.start
  start_le : c.start ≤ q
  lt_tmax : q < c.start + M.tmax
  le_limit : c.start < q → q ≤ limit c.start
  no_primary : ∀ r, c.start + M.tmin ≤ r + 1 → r < q → M.primary r = false
  backup : BackupOK M c.start q c.backup

theorem scanOK_zero (h1 : 1 ≤ M.tmin) (h2 : M.tmin ≤ M.tmax) :
    ScanOK M limit 0 { start := 0, backup := none, out := [] } where
  chain := .nil 0
  start_le := le_rfl
  lt_tmax := by simp only; omega
  le_limit := by simp
  no_primary := by intro r _ hr; omega
  backup := by intro r _ hr; omega

/-- No primary mark was passed, so none is left for the rule. -/
theorem primaries_empty {m : ℕ} (h : ∀ r, s + M.tmin ≤ r + 1 → r < q → M.primary r = false)
    (hm : m ≤ q ∨ s + M.tmax ≤ q) : M.primaries s m = ∅ := by
  rw [Set.eq_empty_iff_forall_notMem]
  rintro r ⟨ha, hb, hr, hp⟩
  rw [h r ha (by omega)] at hp
  cases hp

/-- An open block that reaches its limit ends there. -/
theorem ScanOK.isEnd_limit (h : ScanOK M limit q c) (hlt : c.start < q) (hl : limit c.start = q) :
    IsEnd M c.start (limit c.start) (q - 1) := by
  have := h.lt_tmax
  exact .limit (primaries_empty h.no_primary (.inl hl.le)) (by omega) (by omega)

/-- **A hard boundary.** -/
theorem ScanOK.cut (h1 : 1 ≤ M.tmin) (h2 : M.tmin ≤ M.tmax) (hl : LimitOK boundary limit n)
    (h : ScanOK M limit q c) (hb : boundary q = true) :
    ScanOK M limit q (c.cut q) where
  chain := by
    have hle := h.start_le
    unfold Scan.cut
    split
    · rename_i hlt
      have hq := h.le_limit hlt
      have he : limit c.start = q := by
        by_contra hne
        rw [hl.first c.start q hlt (by omega)] at hb
        cases hb
      have hc := h.chain.concat (by omega) (h.isEnd_limit hlt he)
      rwa [show q - 1 + 1 = q by omega] at hc
    · rw [show q = c.start by omega]; exact h.chain
  start_le := le_rfl
  lt_tmax := by simp only [Scan.cut]; omega
  le_limit := by simp [Scan.cut]
  no_primary := by intro r hr hrq; simp only [Scan.cut] at hr; omega
  backup := by intro r hr hrq; simp only [Scan.cut] at hr; omega

/-- A state that starts afresh after `e`, with nothing left behind to read again. -/
theorem scanOK_fresh {L : List (ℕ × ℕ)} (hc : Chain M limit 0 L (e + 1))
    (he : e ≤ q) (hlt : q < e + M.tmax) (hl : e < q → q + 1 ≤ limit (e + 1))
    (hp : ∀ r, e + 1 + M.tmin ≤ r + 1 → r < q + 1 → M.primary r = false)
    (hb : ∀ r, e + 1 + M.tmin ≤ r + 1 → r < q + 1 → M.backup r = false) :
    ScanOK M limit (q + 1) { start := e + 1, backup := none, out := L } where
  chain := hc
  start_le := by simp only; omega
  lt_tmax := by simp only; omega
  le_limit := by simp only; intro h; exact hl (by omega)
  no_primary := hp
  backup := hb

theorem Scan.note_start (c : Scan) (q : ℕ) : (c.note M q).start = c.start := by
  unfold Scan.note; split <;> rfl

theorem Scan.note_out (c : Scan) (q : ℕ) : (c.note M q).out = c.out := by
  unfold Scan.note; split <;> rfl

/-- A primary mark ends the block. -/
theorem ScanOK.close_primary (h1 : 1 ≤ M.tmin) (hchain : Chain M limit 0 c.out c.start)
    (hlt : q < c.start + M.tmax)
    (hpre : ∀ r, c.start + M.tmin ≤ r + 1 → r < q → M.primary r = false)
    (hmin : c.start + M.tmin ≤ q + 1) (hle : c.start ≤ q) (hq : q < limit c.start)
    (hp : M.primary q = true) :
    ScanOK M limit (q + 1) { start := q + 1, backup := none, out := c.out ++ [(c.start, q)] } := by
  have hend : IsEnd M c.start (limit c.start) q := by
    refine .primary ⟨⟨hmin, by omega, hq, hp⟩, ?_⟩
    intro r hr
    by_contra hrq
    have hpr := hr.2.2.2
    rw [hpre r hr.1 (by omega)] at hpr
    cases hpr
  exact scanOK_fresh (hchain.concat (by omega) hend) le_rfl (by omega)
    (fun h => by omega) (fun r _ _ => by omega) (fun r _ _ => by omega)

/-- A block of full length ends at its backup mark, and the positions behind that mark
need not be read again. -/
theorem ScanOK.close_backup (hl : LimitOK boundary limit n) (h1 : 1 ≤ M.tmin)
    (hchain : Chain M limit 0 c.out c.start) (hfull : q + 1 = c.start + M.tmax)
    (hnp : ∀ r, c.start + M.tmin ≤ r + 1 → r < q + 1 → M.primary r = false)
    (hback : BackupOK M c.start (q + 1) (some e)) (hle : c.start ≤ q) (hq : q < limit c.start) :
    ScanOK M limit (q + 1) { start := e + 1, backup := none, out := c.out ++ [(c.start, e)] } := by
  have he1 := hback.1.1
  have he2 := hback.1.2.1
  have hnone := primaries_empty (m := limit c.start) hnp (.inr hfull.ge)
  have hc := hchain.concat (by omega) (.backup hnone (by omega) (hback.greatest hfull))
  refine scanOK_fresh hc (by omega) (by omega) (?_)
    (fun r hr hrq => hnp r (by omega) hrq) (?_)
  · intro hlt
    have := hl.mono (s := c.start) (r := e + 1) (by omega) (by omega)
    omega
  · intro r hr hrq
    by_contra hbr
    rw [Bool.not_eq_false] at hbr
    have := hback.2 (show r ∈ _ from ⟨by omega, hrq, hbr⟩)
    omega

/-- **The end of a block**, once the backup mark at `q` is noted. -/
theorem ScanOK.close (h1 : 1 ≤ M.tmin) (hl : LimitOK boundary limit n)
    (hchain : Chain M limit 0 c.out c.start) (hle : c.start ≤ q) (hlt : q < c.start + M.tmax)
    (hpre : ∀ r, c.start + M.tmin ≤ r + 1 → r < q → M.primary r = false)
    (hback : BackupOK M c.start (q + 1) c.backup) (hmin : c.start + M.tmin ≤ q + 1)
    (hq : q < limit c.start) : ScanOK M limit (q + 1) (c.close M q) := by
  unfold Scan.close
  by_cases hp : M.primary q = true
  · rw [if_pos hp]
    exact .close_primary h1 hchain hlt hpre hmin hle hq hp
  rw [if_neg hp]
  rw [Bool.not_eq_true] at hp
  have hnp : ∀ r, c.start + M.tmin ≤ r + 1 → r < q + 1 → M.primary r = false := by
    intro r hr hrq
    rcases Nat.lt_succ_iff_lt_or_eq.1 hrq with h' | rfl
    · exact hpre r hr h'
    · exact hp
  by_cases hmax : q + 1 < c.start + M.tmax
  · rw [if_pos hmax]
    exact ⟨hchain, by omega, hmax, fun _ => hq, hnp, hback⟩
  rw [if_neg hmax]
  -- the block has full length: the marks read are all it may end at
  have hfull : q + 1 = c.start + M.tmax := by omega
  cases hbk : c.backup with
  | some e =>
    rw [hbk] at hback
    exact .close_backup hl h1 hchain hfull hnp hback hle hq
  | none =>
    rw [hbk] at hback
    have hnone := primaries_empty (m := limit c.start) hnp (.inr hfull.ge)
    have hc := hchain.concat (by omega) (.hard hnone (by omega) (hback.empty hfull) hfull)
    exact scanOK_fresh hc le_rfl (by omega) (fun h => by omega) (fun r _ _ => by omega)
      (fun r _ _ => by omega)

/-- **One position.** -/
theorem ScanOK.step (h1 : 1 ≤ M.tmin) (h2 : M.tmin ≤ M.tmax) (hl : LimitOK boundary limit n)
    (h : ScanOK M limit q c) (hq : q < limit c.start) : ScanOK M limit (q + 1) (c.step M q) := by
  have hle := h.start_le
  have hlt := h.lt_tmax
  unfold Scan.step
  by_cases hmin : q + 1 < c.start + M.tmin
  · rw [if_pos hmin]
    exact ⟨h.chain, by omega, by omega, fun _ => hq,
      fun r hr hrq => h.no_primary r hr (by omega), h.backup.short hmin⟩
  rw [if_neg hmin]
  have hs := c.note_start (M := M) q
  have hback := h.backup.note (not_lt.1 hmin)
  rw [← hs] at hback hmin hle hlt hq
  refine ScanOK.close h1 hl ?_ hle hlt ?_ hback (not_lt.1 hmin) hq
  · rw [hs, Scan.note_out]; exact h.chain
  · rw [hs]; exact h.no_primary

/-- A boundary, if there is one, and the position after it. -/
theorem ScanOK.next (h1 : 1 ≤ M.tmin) (h2 : M.tmin ≤ M.tmax) (hl : LimitOK boundary limit n)
    (h : ScanOK M limit q c) (hq : q < n) : ScanOK M limit (q + 1) (c.next M boundary q) := by
  unfold Scan.next
  have hlim := hl.lt_limit q hq
  cases hb : boundary q with
  | true => exact (h.cut h1 h2 hl hb).step h1 h2 hl hlim
  | false =>
    rw [if_neg (by simp)]
    apply h.step h1 h2 hl
    rcases Nat.eq_or_lt_of_le h.start_le with he | hlt
    · rw [he]; exact hlim
    · have hle := h.le_limit hlt
      by_contra hge
      have := hl.at_limit c.start (by omega)
      rw [show limit c.start = q by omega, hb] at this
      cases this

theorem scanOK_run (h1 : 1 ≤ M.tmin) (h2 : M.tmin ≤ M.tmax) (hl : LimitOK boundary limit n) :
    ∀ q, q ≤ n → ScanOK M limit q (Scan.run M boundary q) := by
  intro q
  induction q with
  | zero => intro _; exact scanOK_zero h1 h2
  | succ q ih =>
    intro hq
    rw [Scan.run_succ]
    exact (ih (by omega)).next h1 h2 hl (by omega)

/-- Flushing the end closes the last block as the rule does. -/
theorem ScanOK.finish (hl : LimitOK boundary limit n) (h : ScanOK M limit n c) :
    Chain M limit 0 (c.finish n) n := by
  have hle := h.start_le
  unfold Scan.finish
  split
  · rename_i hlt
    have he : limit c.start = n := le_antisymm (hl.limit_le _) (h.le_limit hlt)
    have hc := h.chain.concat (by omega) (h.isEnd_limit hlt he)
    rwa [show n - 1 + 1 = n by omega] at hc
  · rw [show n = c.start by omega]; exact h.chain

/-- **The one-pass search finds the blocks of the rule.** -/
theorem run_chain (h1 : 1 ≤ M.tmin) (h2 : M.tmin ≤ M.tmax) (hl : LimitOK boundary limit n) :
    Chain M limit 0 ((Scan.run M boundary n).finish n) n :=
  (scanOK_run h1 h2 hl n le_rfl).finish hl

/-! ## The last block -/

/-- The block has one of the rule's own ends: it is not cut short. -/
def Closed (M : Marks) (s e : ℕ) : Prop :=
  (s + M.tmin ≤ e + 1 ∧ M.primary e = true) ∨ e + 1 = s + M.tmax

/-- A step that leaves no open block behind closed one at its own position. -/
theorem Scan.step_closed (hle : c.start ≤ q) (hlt : q < c.start + M.tmax)
    (h : (c.step M q).start = q + 1) :
    ∃ L s, (c.step M q).out = L ++ [(s, q)] ∧ Closed M s q := by
  unfold Scan.step at h ⊢
  by_cases hmin : q + 1 < c.start + M.tmin
  · rw [if_pos hmin] at h; omega
  rw [if_neg hmin] at h ⊢
  have hs := c.note_start (M := M) q
  rw [← hs] at hmin hle hlt
  set c' := c.note M q
  unfold Scan.close at h ⊢
  by_cases hp : M.primary q = true
  · rw [if_pos hp]
    exact ⟨c'.out, c'.start, rfl, .inl ⟨by omega, hp⟩⟩
  rw [if_neg hp] at h ⊢
  by_cases hmax : q + 1 < c'.start + M.tmax
  · rw [if_pos hmax] at h; omega
  rw [if_neg hmax] at h ⊢
  have hfull : q + 1 = c'.start + M.tmax := by omega
  cases hb : c'.backup with
  | some b =>
    simp only [hb] at h ⊢
    obtain rfl : b = q := by omega
    exact ⟨c'.out, c'.start, rfl, .inr hfull⟩
  | none => exact ⟨c'.out, c'.start, rfl, .inr hfull⟩

/-- The rule's last block is not cut short. -/
def LastClosed (M : Marks) (limit : ℕ → ℕ) (n : ℕ) : Prop :=
  ∃ L s, Chain M limit 0 (L ++ [(s, n - 1)]) n ∧ Closed M s (n - 1)

/-- **The search has closed its last block by itself exactly when the rule's last
block is not cut short.** -/
theorem run_start_iff (h1 : 1 ≤ M.tmin) (h2 : M.tmin ≤ M.tmax) (hl : LimitOK boundary limit n)
    (hn : 0 < n) : (Scan.run M boundary n).start = n ↔ LastClosed M limit n := by
  have hok := scanOK_run h1 h2 hl n le_rfl
  constructor
  · intro hs
    obtain ⟨q, rfl⟩ : ∃ q, n = q + 1 := ⟨n - 1, by omega⟩
    have hq := scanOK_run h1 h2 hl q (by omega)
    have hchain := hok.chain
    rw [hs] at hchain
    rw [Scan.run_succ] at hs hchain
    -- the boundary, if any, only moves the start up to `q`
    have hle : ((if boundary q then (Scan.run M boundary q).cut q else Scan.run M boundary q)).start
        ≤ q ∧ q < ((if boundary q then (Scan.run M boundary q).cut q
          else Scan.run M boundary q)).start + M.tmax := by
      split
      · simp only [Scan.cut]; omega
      · exact ⟨hq.start_le, hq.lt_tmax⟩
    obtain ⟨L, s, hout, hcl⟩ := Scan.step_closed hle.1 hle.2 hs
    refine ⟨L, s, ?_, by simpa using hcl⟩
    have : (Scan.next M boundary (Scan.run M boundary q) q).out = L ++ [(s, q)] := hout
    rw [this] at hchain
    simpa using hchain
  · rintro ⟨L, s, hc, hcl⟩
    have hu := hc.unique h1 h2 (hok.finish hl)
    by_contra hne
    have hlt : (Scan.run M boundary n).start < n := lt_of_le_of_ne hok.start_le hne
    unfold Scan.finish at hu
    rw [if_pos hlt] at hu
    obtain ⟨-, hs⟩ := List.append_inj' hu rfl
    obtain rfl : s = (Scan.run M boundary n).start := by simpa using hs
    rcases hcl with ⟨ha, hp⟩ | hfull
    · rw [hok.no_primary (n - 1) ha (by omega)] at hp
      cases hp
    · have := hok.lt_tmax
      omega

end DedupSim.Tttd
