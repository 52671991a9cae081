import Mathlib.Tactic
import LibHpack.General.First

/-!
# LibHpack.General.Replace — replacing the occurrences of a list in another one

`replaceAll x y k s` goes through `s` once, and `k` elements of it still belong to the occurrence before it;
`occurrences x k s` counts in the same way.  Both can be followed from one first occurrence to the next
(`replaceAll_of_some`, `occurrences_of_some`), which is how a search like `strstr` meets them.
-/

namespace LibHpack

section Occurrences

variable {α : Type}

theorem drop_length_cons {x : List α} (hx : x ≠ []) (c : α) (s : List α) :
    (c :: s).drop x.length = s.drop (x.length - 1) := by
  obtain ⟨n, hn⟩ := Nat.exists_eq_succ_of_ne_zero (List.length_pos_iff.2 hx).ne'
  rw [hn, List.drop_succ_cons, Nat.succ_sub_one]

variable [DecidableEq α]

/-- The first position where `x` stands. -/
def occurrence (x : List α) : List α → Option ℕ
  | [] => if x <+: [] then some 0 else none
  | c :: s => if x <+: c :: s then some 0 else (occurrence x s).map (· + 1)

/-- The list with `y` for every occurrence of `x`, from the left, that does not overlap the one before it. -/
def replaceAll (x y : List α) : ℕ → List α → List α
  | _, [] => []
  | k + 1, _ :: s => replaceAll x y k s
  | 0, c :: s => if x <+: c :: s then y ++ replaceAll x y (x.length - 1) s else c :: replaceAll x y 0 s

/-- How many these are. -/
def occurrences (x : List α) : ℕ → List α → ℕ
  | _, [] => 0
  | k + 1, _ :: s => occurrences x k s
  | 0, c :: s => if x <+: c :: s then occurrences x (x.length - 1) s + 1 else occurrences x 0 s

variable {x y s : List α} {q : ℕ}

theorem occurrence_isFirst (hx : x ≠ []) (s : List α) : IsFirst (fun p => x <+: s.drop p) (occurrence x s) := by
  induction s with
  | nil =>
    have hnone : ¬x <+: [] := fun h => hx (List.prefix_nil.1 h)
    rw [occurrence, if_neg hnone]
    intro p hp
    exact hnone (by rwa [List.drop_nil] at hp)
  | cons c s ih =>
    rw [occurrence]
    split_ifs with hhere
    · exact .here hhere
    · exact ih.next hhere

theorem occurrence_eq_none_iff (hx : x ≠ []) : occurrence x s = none ↔ ¬x <:+: s := by
  induction s with
  | nil =>
    rw [occurrence, List.infix_nil, if_neg fun h => hx (List.prefix_nil.1 h)]
    exact iff_of_true rfl hx
  | cons c s ih =>
    rw [occurrence, List.infix_cons_iff, not_or]
    by_cases hhere : x <+: c :: s
    · rw [if_pos hhere]
      exact iff_of_false (Option.some_ne_none 0) fun h => h.1 hhere
    · rw [if_neg hhere, Option.map_eq_none_iff, ih, and_iff_right hhere]

theorem occurrence_stands (hx : x ≠ []) (h : occurrence x s = some q) : x <+: s.drop q := by
  have hfirst := occurrence_isFirst hx s
  rw [h] at hfirst
  exact hfirst.1

theorem occurrence_le (hx : x ≠ []) (h : occurrence x s = some q) : q + x.length ≤ s.length := by
  have hle := (occurrence_stands hx h).length_le
  have hpos := List.length_pos_iff.2 hx
  rw [List.length_drop] at hle
  omega

theorem replaceAll_skip (x y : List α) (k : ℕ) (s : List α) : replaceAll x y k s = replaceAll x y 0 (s.drop k) := by
  induction s generalizing k with
  | nil => rw [List.drop_nil, replaceAll, replaceAll]
  | cons c s ih =>
    cases k with
    | zero => rfl
    | succ k => rw [replaceAll, ih, List.drop_succ_cons]

theorem occurrences_skip (x : List α) (k : ℕ) (s : List α) : occurrences x k s = occurrences x 0 (s.drop k) := by
  induction s generalizing k with
  | nil => rw [List.drop_nil, occurrences, occurrences]
  | cons c s ih =>
    cases k with
    | zero => rfl
    | succ k => rw [occurrences, ih, List.drop_succ_cons]

theorem replaceAll_of_some (hx : x ≠ []) (h : occurrence x s = some q) :
    replaceAll x y 0 s = s.take q ++ (y ++ replaceAll x y 0 (s.drop (q + x.length))) := by
  induction s generalizing q with
  | nil =>
    rw [occurrence, if_neg fun h => hx (List.prefix_nil.1 h)] at h
    cases h
  | cons c s ih =>
    rw [occurrence] at h
    rw [replaceAll]
    split_ifs at h ⊢
    · cases h
      rw [Nat.zero_add, drop_length_cons hx, replaceAll_skip, List.take_zero, List.nil_append]
    · obtain ⟨p, hp, rfl⟩ := Option.map_eq_some_iff.1 h
      rw [ih hp, Nat.add_right_comm, List.drop_succ_cons, List.take_succ_cons, List.cons_append]

theorem replaceAll_of_none (h : occurrence x s = none) : replaceAll x y 0 s = s := by
  induction s with
  | nil => rfl
  | cons c s ih =>
    rw [occurrence] at h
    rw [replaceAll]
    split_ifs at h ⊢
    rw [ih (Option.map_eq_none_iff.1 h)]

theorem occurrences_of_some (hx : x ≠ []) (h : occurrence x s = some q) :
    occurrences x 0 s = occurrences x 0 (s.drop (q + x.length)) + 1 := by
  induction s generalizing q with
  | nil =>
    rw [occurrence, if_neg fun h => hx (List.prefix_nil.1 h)] at h
    cases h
  | cons c s ih =>
    rw [occurrence] at h
    rw [occurrences]
    split_ifs at h ⊢
    · cases h
      rw [Nat.zero_add, drop_length_cons hx, occurrences_skip]
    · obtain ⟨p, hp, rfl⟩ := Option.map_eq_some_iff.1 h
      rw [ih hp, Nat.add_right_comm, List.drop_succ_cons]

theorem occurrences_of_none (h : occurrence x s = none) : occurrences x 0 s = 0 := by
  induction s with
  | nil => rfl
  | cons c s ih =>
    rw [occurrence] at h
    rw [occurrences]
    split_ifs at h ⊢
    exact ih (Option.map_eq_none_iff.1 h)

/-- **From one occurrence to the next**: what holds where there is none, and in front of an occurrence when it holds behind
it, holds of every list. -/
theorem occurrence_induction (hx : x ≠ []) {P : List α → Prop} (none : ∀ s, occurrence x s = none → P s)
    (some : ∀ s q, occurrence x s = some q → P (s.drop (q + x.length)) → P s) (s : List α) : P s := by
  induction hn : s.length using Nat.strong_induction_on generalizing s with
  | _ n ih =>
    cases h : occurrence x s with
    | none => exact none s h
    | some q =>
      have hle := occurrence_le hx h
      have hpos := List.length_pos_iff.2 hx
      exact some s q h (ih _ (by rw [List.length_drop]; omega) _ rfl)

/-- What is left out and what is put in. -/
theorem replaceAll_length (hx : x ≠ []) (y s : List α) :
    (replaceAll x y 0 s).length + occurrences x 0 s * x.length = s.length + occurrences x 0 s * y.length := by
  induction s using occurrence_induction hx with
  | none s h => rw [replaceAll_of_none h, occurrences_of_none h, Nat.zero_mul, Nat.zero_mul]
  | some s q h ih =>
    have hle := occurrence_le hx h
    rw [List.length_drop] at ih
    rw [replaceAll_of_some hx h, occurrences_of_some hx h, List.length_append, List.length_append, List.length_take,
      Nat.add_one_mul, Nat.add_one_mul]
    omega

theorem occurrences_singleton (c : α) (s : List α) : occurrences [c] 0 s = s.count c := by
  induction s with
  | nil => rfl
  | cons d s ih =>
    rw [occurrences, List.length_singleton, Nat.sub_self, ih, List.count_cons]
    have hiff : [c] <+: d :: s ↔ (d == c) = true := by
      rw [List.cons_prefix_cons, and_iff_left (List.nil_prefix ..), beq_iff_eq, eq_comm]
    simp only [hiff]
    split_ifs <;> rfl

end Occurrences

end LibHpack
