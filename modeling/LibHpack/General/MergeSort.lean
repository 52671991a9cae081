import Mathlib.Data.List.Basic
import Mathlib.Data.List.Nodup

/-!
# LibHpack.General.MergeSort — merge sort from the bottom up

A pass merges the runs of length `w` of a list pairwise (`mergeRuns`).  What all passes keep is a `Pass`: the list is a
permutation of the first one, its runs are sorted, and elements that are equivalent are where they were among
themselves.  The next pass doubles the length of the runs (`Pass.next`), and a list that is one run is a stable sort
(`Pass.done`).
-/

namespace LibHpack.MergeSort

open List

variable {α : Type*} (le : α → α → Bool)

/-- Merge the runs of length `w` pairwise; the last ones may be shorter. -/
def mergeRuns (w : ℕ) (l : List α) : List α :=
  if w = 0 ∨ l = [] then l
  else merge (l.take w) ((l.drop w).take w) le ++ mergeRuns w (l.drop (2 * w))
termination_by l.length
decreasing_by
  rename_i h
  rw [not_or] at h
  have := length_pos_iff.mpr h.2
  rw [length_drop]
  omega

/-- Every run of length `w` is sorted. -/
def RunsSorted (w : ℕ) (l : List α) : Prop := ∀ k, ((l.drop (k * w)).take w).Pairwise (le · ·)

/-- Whether two elements are as large as each other. -/
def equivalent (a b : α) : Bool := le a b && le b a

/-- `l'` is `l` sorted, with equivalent elements in the order they had. -/
structure StableSort (l l' : List α) : Prop where
  perm : l' ~ l
  sorted : l'.Pairwise (le · ·)
  stable : ∀ a, l'.filter (equivalent le a) = l.filter (equivalent le a)

/-- Where a sort is that has merged the runs of length below `w`. -/
structure Pass (l l' : List α) (w : ℕ) : Prop where
  perm : l' ~ l
  runs : RunsSorted le w l'
  stable : ∀ a, l'.filter (equivalent le a) = l.filter (equivalent le a)

variable {le} {w : ℕ} {l l' xs ys : List α} {a b : α}

@[simp] theorem mergeRuns_nil : mergeRuns le w [] = [] := by
  rw [mergeRuns, if_pos (.inr rfl)]

theorem mergeRuns_of_ne_nil (hw : w ≠ 0) (hl : l ≠ []) :
    mergeRuns le w l = merge (l.take w) ((l.drop w).take w) le ++ mergeRuns le w (l.drop (2 * w)) := by
  rw [mergeRuns, if_neg (not_or.mpr ⟨hw, hl⟩)]

/-- The two runs in front, and what is behind them. -/
theorem take_append_take_append_drop (w : ℕ) (l : List α) :
    l.take w ++ (l.drop w).take w ++ l.drop (2 * w) = l := by
  rw [append_assoc, show 2 * w = w + w by omega, ← drop_drop, take_append_drop, take_append_drop]

theorem mergeRuns_perm (w : ℕ) (l : List α) : mergeRuns le w l ~ l := by
  induction l using mergeRuns.induct w with
  | case1 l h => rw [mergeRuns, if_pos h]
  | case2 l h ih =>
    rw [mergeRuns, if_neg h]
    have hmerge : merge (l.take w) ((l.drop w).take w) le ~ l.take w ++ (l.drop w).take w := merge_perm_append le
    have := hmerge.append ih
    rwa [take_append_take_append_drop] at this

/-! ### Runs -/

namespace RunsSorted

theorem take (h : RunsSorted le w l) : (l.take w).Pairwise (le · ·) := by
  have := h 0
  rwa [Nat.zero_mul, drop_zero] at this

theorem drop (h : RunsSorted le w l) (k : ℕ) : RunsSorted le w (l.drop (k * w)) := by
  intro j
  rw [drop_drop, ← Nat.add_mul]
  exact h (k + j)

/-- The first run, and those behind it. -/
theorem of_take (h1 : (l.take w).Pairwise (le · ·)) (h2 : RunsSorted le w (l.drop w)) : RunsSorted le w l := by
  intro k
  cases k with
  | zero => rwa [Nat.zero_mul, drop_zero]
  | succ k =>
    have := h2 k
    rwa [drop_drop, Nat.add_comm w, ← Nat.succ_mul] at this

theorem nil : RunsSorted le w ([] : List α) := by
  intro k
  rw [drop_nil, take_nil]
  exact .nil

/-- A list is sorted in runs of one element. -/
theorem one (l : List α) : RunsSorted le 1 l := by
  intro k
  cases l.drop (k * 1) with
  | nil => exact .nil
  | cons a l => exact pairwise_singleton ..

/-- A list of at most one run. -/
theorem sorted (h : RunsSorted le w l) (hw : l.length ≤ w) : l.Pairwise (le · ·) := by
  have := h.take
  rwa [take_of_length_le hw] at this

end RunsSorted

section Preorder

variable (trans : ∀ a b c, le a b → le b c → le a c) (total : ∀ a b, le a b || le b a)
include trans total

/-- **A pass** doubles the length of the sorted runs. -/
theorem runsSorted_mergeRuns (hw : w ≠ 0) (h : RunsSorted le w l) : RunsSorted le (2 * w) (mergeRuns le w l) := by
  induction l using mergeRuns.induct w with
  | case1 l h' =>
    rw [h'.resolve_left hw, mergeRuns_nil]
    exact .nil
  | case2 l h' ih =>
    have h1 : ((l.drop w).take w).Pairwise (le · ·) := by
      have := (h.drop 1).take
      rwa [Nat.one_mul] at this
    have hsorted := pairwise_merge trans total _ _ h.take h1
    have hlen : (merge (l.take w) ((l.drop w).take w) le).length = min (2 * w) l.length := by
      rw [length_merge, length_take, length_take, length_drop]
      omega
    rw [mergeRuns, if_neg h']
    by_cases hshort : l.length ≤ 2 * w
    · rw [drop_eq_nil_of_le hshort, mergeRuns_nil, append_nil]
      refine .of_take (by rwa [take_of_length_le (by omega)]) ?_
      rw [drop_eq_nil_of_le (by omega)]
      exact .nil
    · have htwo : (merge (l.take w) ((l.drop w).take w) le).length = 2 * w := by omega
      refine .of_take ?_ ?_
      · rwa [take_left' htwo]
      · rw [drop_left' htwo]
        exact ih (h.drop 2)

omit total in
/-- **Merging is stable**: of equivalent elements, those of the first list come first. -/
theorem filter_merge (a : α) (hx : xs.Pairwise (le · ·)) (hy : ys.Pairwise (le · ·)) :
    (merge xs ys le).filter (equivalent le a) = xs.filter (equivalent le a) ++ ys.filter (equivalent le a) := by
  induction xs generalizing ys with
  | nil => rw [nil_merge, filter_nil, nil_append]
  | cons x xs ihx =>
    induction ys with
    | nil => rw [merge_right, filter_nil, append_nil]
    | cons y ys ihy =>
      obtain ⟨hx1, hx2⟩ := pairwise_cons.mp hx
      obtain ⟨hy1, hy2⟩ := pairwise_cons.mp hy
      by_cases hle : le x y
      · rw [cons_merge_cons_pos _ _ _ hle, filter_cons, filter_cons, ihx hx2 hy]
        split <;> rfl
      · rw [cons_merge_cons_neg _ _ _ hle, filter_cons, ihy hy2, filter_cons (x := y)]
        split_ifs with hy0
        · -- the elements of `x :: xs` are larger than `y`, so they are not equivalent to it
          have hnone : (x :: xs).filter (equivalent le a) = [] := by
            rw [filter_eq_nil_iff]
            intro z hz heq
            rw [equivalent, Bool.and_eq_true] at heq hy0
            have hzy : le z y := trans z a y heq.2 hy0.1
            rcases mem_cons.mp hz with rfl | hz
            · exact hle hzy
            · exact hle (trans x z y (hx1 z hz) hzy)
          rw [hnone, nil_append, nil_append]
        · rfl

omit total in
theorem filter_mergeRuns (a : α) (h : RunsSorted le w l) :
    (mergeRuns le w l).filter (equivalent le a) = l.filter (equivalent le a) := by
  induction l using mergeRuns.induct w with
  | case1 l h' => rw [mergeRuns, if_pos h']
  | case2 l h' ih =>
    have h1 : ((l.drop w).take w).Pairwise (le · ·) := by
      have := (h.drop 1).take
      rwa [Nat.one_mul] at this
    rw [mergeRuns, if_neg h', filter_append, filter_merge trans a h.take h1, ih (h.drop 2), ← filter_append,
      ← filter_append, take_append_take_append_drop]

/-- **The next pass.** -/
theorem Pass.next (hw : w ≠ 0) (h : Pass le l l' w) : Pass le l (mergeRuns le w l') (2 * w) where
  perm := (mergeRuns_perm w l').trans h.perm
  runs := runsSorted_mergeRuns trans total hw h.runs
  stable a := by rw [filter_mergeRuns trans a h.runs, h.stable]

end Preorder

theorem Pass.init (l : List α) : Pass le l l 1 := ⟨.refl l, .one l, fun _ => rfl⟩

/-- **The last pass** leaves one run. -/
theorem Pass.done (h : Pass le l l' w) (hw : l'.length ≤ w) : StableSort le l l' :=
  ⟨h.perm, h.runs.sorted hw, h.stable⟩

/-- Of two elements of a list without duplicates, one comes first. -/
theorem pair_sublist_or (hl : l.Nodup) (ha : a ∈ l) (hb : b ∈ l) (hab : a ≠ b) : [a, b] <+ l ∨ [b, a] <+ l := by
  obtain ⟨l1, l2, rfl⟩ := append_of_mem ha
  rcases mem_append.mp hb with hb | hb
  · exact .inr ((singleton_sublist.mpr hb).append (singleton_sublist.mpr mem_cons_self))
  · have hb := (mem_cons.mp hb).resolve_left hab.symm
    exact .inl (((singleton_sublist.mpr hb).cons_cons a).trans (sublist_append_right l1 _))

/-- **Stability, as it is seen from two elements**: what is in order stays so. -/
theorem StableSort.pair (trans : ∀ a b c, le a b → le b c → le a c) (h : StableSort le l l') (hl : l.Nodup)
    (hab : [a, b] <+ l) (hle : le a b) : [a, b] <+ l' := by
  have hne : a ≠ b := by
    have := hab.nodup hl
    simpa using this
  have hmem : ∀ c ∈ [a, b], c ∈ l' := fun c hc => h.perm.symm.subset (hab.subset hc)
  rcases pair_sublist_or (h.perm.symm.nodup hl) (hmem a (by simp)) (hmem b (by simp)) hne with hab' | hba
  · exact hab'
  -- when `b` comes first after sorting, the two are equivalent, so they are where they were
  have hle' : le b a := by
    have := h.sorted.sublist hba
    simpa using this
  have hself : [a, b].filter (equivalent le b) = [a, b] := by
    rw [filter_eq_self]
    intro c hc
    rcases mem_cons.mp hc with rfl | hc
    · rw [equivalent, hle, hle', Bool.true_and]
    · rw [mem_singleton.mp hc, equivalent, trans b a b hle' hle, Bool.true_and]
  have hfilter := hab.filter (equivalent le b)
  rw [hself, ← h.stable b] at hfilter
  exact hfilter.trans filter_sublist

end LibHpack.MergeSort
