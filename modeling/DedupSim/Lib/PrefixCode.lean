import DedupSim.Lib.LittleEndian

/-!
# Prefix codes

A `PrefixCode` writes values so that they are read back from the front of any list, and
reads nothing but what it writes.

* `decodeN`: a number of values in a row; `counted`: with their number in front.
* `FixedWidth`: codes of one width, which fail on lists that are too short, and only there.
* `decodeAll`: values as long as there is one. `decodeAll_flatMap`, `encode_decodeAll`:
  **what was written is read, and what was read is the front of the list.**
* `number`, `symbol`, `seq`, `map`: codes to make others of.
-/

namespace DedupSim

open LittleEndian

variable {α β : Type*}

structure PrefixCode (α β : Type*) where
  encode : α → List β
  decode : List β → Option (α × List β)
  pos : ∀ a, 0 < (encode a).length
  decode_encode : ∀ a rest, decode (encode a ++ rest) = some (a, rest)
  encode_decode : ∀ {l a rest}, decode l = some (a, rest) → l = encode a ++ rest

namespace PrefixCode

variable (c : PrefixCode α β) {l rest : List β} {a : α} {as : List α} {n w : ℕ}

theorem lt_of_decode (h : c.decode l = some (a, rest)) : rest.length < l.length := by
  have := c.pos a
  rw [c.encode_decode h, List.length_append]
  omega

theorem decode_nil : c.decode [] = none := by
  rcases h : c.decode [] with - | ⟨a, rest⟩
  · rfl
  · exact absurd (c.lt_of_decode h) (Nat.not_lt_zero _)

/-! ## A number of values -/

/-- `n` values in a row. -/
def decodeN : ℕ → List β → Option (List α × List β)
  | 0, l => some ([], l)
  | n + 1, l => do
    let (a, l) ← c.decode l
    let (as, l) ← decodeN n l
    return (a :: as, l)

theorem decodeN_succ (h : c.decode l = some (a, rest)) :
    c.decodeN (n + 1) l = (c.decodeN n rest).map fun r => (a :: r.1, r.2) := by
  simp only [decodeN, h]
  rcases hn : c.decodeN n rest with - | r <;> simp [hn]

theorem decodeN_succ_none (h : c.decode l = none) : c.decodeN (n + 1) l = none := by
  simp only [decodeN, h]
  rfl

theorem decodeN_encode (as : List α) (rest : List β) :
    c.decodeN as.length (as.flatMap c.encode ++ rest) = some (as, rest) := by
  induction as with
  | nil => rfl
  | cons a as ih =>
    rw [List.flatMap_cons, List.append_assoc, List.length_cons, c.decodeN_succ (c.decode_encode a _),
      ih]
    rfl

theorem encode_decodeN (h : c.decodeN n l = some (as, rest)) :
    as.length = n ∧ l = as.flatMap c.encode ++ rest := by
  induction n generalizing l as with
  | zero =>
    cases h
    exact ⟨rfl, rfl⟩
  | succ n ih =>
    rcases hd : c.decode l with - | ⟨a, l'⟩
    · rw [c.decodeN_succ_none hd] at h
      cases h
    · rw [c.decodeN_succ hd] at h
      obtain ⟨⟨as', rest'⟩, hn, heq⟩ := Option.map_eq_some_iff.1 h
      cases heq
      obtain ⟨hlen, rfl⟩ := ih hn
      refine ⟨congrArg (· + 1) hlen, ?_⟩
      rw [c.encode_decode hd, List.flatMap_cons, List.append_assoc]

/-- Every value is written as `w` symbols, and `w` symbols are read as a value. -/
structure FixedWidth (w : ℕ) : Prop where
  length : ∀ a, (c.encode a).length = w
  decode : ∀ l : List β, w ≤ l.length → c.decode l ≠ none

theorem FixedWidth.decode_eq_none (h : c.FixedWidth w) : c.decode l = none ↔ l.length < w := by
  constructor
  · intro hnone
    by_contra hle
    exact h.decode l (not_lt.1 hle) hnone
  · intro hlt
    rcases hd : c.decode l with - | ⟨a, rest⟩
    · rfl
    · have := congrArg List.length (c.encode_decode hd)
      rw [List.length_append, h.length a] at this
      omega

/-- Reading `n` values fails if there are too few symbols. -/
theorem FixedWidth.decodeN_eq_none (h : c.FixedWidth w) :
    c.decodeN n l = none ↔ l.length < w * n := by
  induction n generalizing l with
  | zero => simp [decodeN]
  | succ n ih =>
    rcases hd : c.decode l with - | ⟨a, rest⟩
    · have hlt := (h.decode_eq_none c).1 hd
      rw [c.decodeN_succ_none hd]
      apply iff_of_true rfl
      rw [Nat.mul_succ]
      omega
    · have := congrArg List.length (c.encode_decode hd)
      rw [List.length_append, h.length a] at this
      rw [c.decodeN_succ hd, Option.map_eq_none_iff, ih, Nat.mul_succ]
      omega

/-! ## As many values as there are -/

/-- The values read until there is none, and what is left. -/
def decodeAll (l : List β) : List α × List β :=
  match _h : c.decode l with
  | none => ([], l)
  | some (a, rest) => (a :: (decodeAll rest).1, (decodeAll rest).2)
termination_by l.length
decreasing_by all_goals exact c.lt_of_decode _h

theorem decodeAll_none (h : c.decode l = none) : c.decodeAll l = ([], l) := by
  unfold decodeAll
  split
  · rfl
  · rename_i hd
    rw [h] at hd
    cases hd

theorem decodeAll_some (h : c.decode l = some (a, rest)) :
    c.decodeAll l = (a :: (c.decodeAll rest).1, (c.decodeAll rest).2) := by
  rw [decodeAll]
  split
  · rename_i hd
    rw [h] at hd
    cases hd
  · rename_i hd
    rw [h] at hd
    cases hd
    rfl

/-- **What was written is read back.** -/
theorem decodeAll_flatMap (as : List α) (h : c.decode rest = none) :
    c.decodeAll (as.flatMap c.encode ++ rest) = (as, rest) := by
  induction as with
  | nil => exact c.decodeAll_none h
  | cons a as ih =>
    rw [List.flatMap_cons, List.append_assoc, c.decodeAll_some (c.decode_encode a _), ih]

theorem decodeAll_encode (as : List α) : c.decodeAll (as.flatMap c.encode) = (as, []) := by
  have h := c.decodeAll_flatMap as c.decode_nil
  rwa [List.append_nil] at h

/-- **Values in a row can be told apart.** -/
theorem encode_inj {as bs : List α} (h : as.flatMap c.encode = bs.flatMap c.encode) : as = bs := by
  have has := c.decodeAll_encode as
  rw [h, c.decodeAll_encode] at has
  exact (congrArg Prod.fst has).symm

/-- **What is read is the front of the list**, and nothing can be read of the rest. -/
theorem encode_decodeAll (l : List β) :
    (c.decodeAll l).1.flatMap c.encode ++ (c.decodeAll l).2 = l ∧
      c.decode (c.decodeAll l).2 = none := by
  induction h : l.length using Nat.strong_induction_on generalizing l with
  | _ n ih =>
    subst h
    rcases hd : c.decode l with - | ⟨a, rest⟩
    · rw [c.decodeAll_none hd]
      exact ⟨rfl, hd⟩
    · obtain ⟨hl, hnone⟩ := ih _ (c.lt_of_decode hd) rest rfl
      rw [c.decodeAll_some hd]
      refine ⟨?_, hnone⟩
      rw [List.flatMap_cons, List.append_assoc, hl, ← c.encode_decode hd]

/-! ## Lists with their length in front -/

section Counted

variable (c : PrefixCode α UInt8) (k : ℕ)

/-- The number of values that is written in front, in `k` bytes. -/
def count (l : List UInt8) : Option (ℕ × List UInt8) :=
  if (l.take k).length = k then some (leNat (l.take k), l.drop k) else none

theorem count_append {n : ℕ} (hn : n < 256 ^ k) (rest : List UInt8) :
    count k (leBytes k n ++ rest) = some (n, rest) := by
  have htake : (leBytes k n ++ rest).take k = leBytes k n := List.take_left' (length_leBytes k n)
  rw [count, htake, if_pos (length_leBytes k n), leNat_leBytes hn,
    List.drop_left' (length_leBytes k n)]

theorem count_eq_some {l rest : List UInt8} {n : ℕ} (h : count k l = some (n, rest)) :
    n < 256 ^ k ∧ l = leBytes k n ++ rest := by
  unfold count at h
  split at h
  · rename_i hlen
    cases h
    have hlt := leNat_lt (l.take k)
    have hbytes := leBytes_leNat (l.take k)
    rw [hlen] at hlt hbytes
    exact ⟨hlt, by rw [hbytes, List.take_append_drop]⟩
  · cases h

/-- The code of lists of values, their number in front. -/
def counted (hk : 0 < k) : PrefixCode {as : List α // as.length < 256 ^ k} UInt8 where
  encode as := leBytes k as.1.length ++ as.1.flatMap c.encode
  decode l :=
    match count k l with
    | none => none
    | some (n, l) =>
      match c.decodeN n l with
      | none => none
      | some (as, l) => if h : as.length < 256 ^ k then some (⟨as, h⟩, l) else none
  pos as := by
    rw [List.length_append, length_leBytes]
    omega
  decode_encode := by
    rintro ⟨as, has⟩ rest
    simp only [List.append_assoc, count_append k has, c.decodeN_encode, has, dif_pos]
  encode_decode := by
    rintro l ⟨as, has⟩ rest h
    rcases hcount : count k l with - | ⟨n, l'⟩
    · rw [hcount] at h
      cases h
    rcases hn : c.decodeN n l' with - | ⟨as', rest'⟩
    · simp only [hcount, hn] at h
      cases h
    simp only [hcount, hn] at h
    split at h
    · cases h
      obtain ⟨hlen, rfl⟩ := c.encode_decodeN hn
      rw [(count_eq_some k hcount).2, hlen, List.append_assoc]
    · cases h

variable {c} in
/-- Reading such a list fails if it is cut off. -/
theorem FixedWidth.counted_eq_none (h : c.FixedWidth w) (hk : 0 < k) {l : List UInt8} :
    (c.counted k hk).decode l = none ↔ l.length < k + w * leNat (l.take k) := by
  rcases hcount : count k l with - | ⟨n, l'⟩
  · simp only [counted, hcount, true_iff]
    unfold count at hcount
    split at hcount
    · cases hcount
    · rename_i hlen
      rw [List.length_take] at hlen
      omega
  · obtain ⟨hlt, rfl⟩ := count_eq_some k hcount
    have hnone := h.decodeN_eq_none c (n := n) (l := l')
    rw [List.take_left' (length_leBytes k n), leNat_leBytes hlt, List.length_append, length_leBytes,
      Nat.add_lt_add_iff_left, ← hnone]
    rcases hn : c.decodeN n l' with - | ⟨as, rest⟩
    · simp only [counted, hcount, hn]
    · have has : as.length < 256 ^ k := by rwa [(c.encode_decodeN hn).1]
      simp only [counted, hcount, hn, has, dif_pos, reduceCtorEq]

end Counted

/-! ## Codes made of codes -/

section Combinators

variable {γ : Type*}

/-- A number in `k` bytes. -/
def number (k : ℕ) (hk : 0 < k) : PrefixCode {n : ℕ // n < 256 ^ k} UInt8 where
  encode n := leBytes k n.1
  decode l :=
    match count k l with
    | none => none
    | some (n, l) => if h : n < 256 ^ k then some (⟨n, h⟩, l) else none
  pos n := by rwa [length_leBytes]
  decode_encode := by
    rintro ⟨n, hn⟩ rest
    simp only [count_append k hn, hn, dif_pos]
  encode_decode := by
    rintro l ⟨n, hn⟩ rest h
    rcases hcount : count k l with - | ⟨n', l'⟩
    · simp only [hcount] at h
      cases h
    · simp only [hcount] at h
      split at h
      · cases h
        exact (count_eq_some k hcount).2
      · cases h

/-- A symbol stands for itself. -/
def symbol (β : Type*) : PrefixCode β β where
  encode b := [b]
  decode
    | [] => none
    | b :: rest => some (b, rest)
  pos _ := Nat.one_pos
  decode_encode _ _ := rfl
  encode_decode := by
    intro l b rest h
    cases l with
    | nil => cases h
    | cons => cases h; rfl

/-- One value after another. -/
def seq (c : PrefixCode α β) (d : PrefixCode γ β) : PrefixCode (α × γ) β where
  encode x := c.encode x.1 ++ d.encode x.2
  decode l := (c.decode l).bind fun r => (d.decode r.2).map fun q => ((r.1, q.1), q.2)
  pos x := by
    rw [List.length_append]
    exact Nat.add_pos_left (c.pos x.1) _
  decode_encode := by
    rintro ⟨a, b⟩ rest
    rw [List.append_assoc, c.decode_encode, Option.bind_some, d.decode_encode, Option.map_some]
  encode_decode := by
    rintro l ⟨a, b⟩ rest h
    obtain ⟨⟨a', l'⟩, ha, h⟩ := Option.bind_eq_some_iff.1 h
    obtain ⟨⟨b', l''⟩, hb, heq⟩ := Option.map_eq_some_iff.1 h
    cases heq
    have hl' : l' = d.encode b' ++ l'' := d.encode_decode hb
    rw [c.encode_decode ha, hl', List.append_assoc]

/-- Values that are written as others; not all of those need to stand for one. -/
def map (c : PrefixCode α β) (f : γ → α) (g : α → Option γ) (hgf : ∀ x, g (f x) = some x)
    (hfg : ∀ a x, g a = some x → a = f x) : PrefixCode γ β where
  encode x := c.encode (f x)
  decode l := (c.decode l).bind fun r => (g r.1).map fun x => (x, r.2)
  pos x := c.pos (f x)
  decode_encode := by
    intro x rest
    rw [c.decode_encode, Option.bind_some, hgf, Option.map_some]
  encode_decode := by
    intro l x rest h
    obtain ⟨⟨a, l'⟩, ha, h⟩ := Option.bind_eq_some_iff.1 h
    obtain ⟨x', hx, heq⟩ := Option.map_eq_some_iff.1 h
    cases heq
    rw [c.encode_decode ha, hfg a x hx]

end Combinators

end PrefixCode

end DedupSim
