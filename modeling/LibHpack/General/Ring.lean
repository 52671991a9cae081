import Mathlib.Data.Nat.ModEq
import Mathlib.Data.List.GetD

/-!
# LibHpack.General.Ring — reading and writing a circular memory

A memory is a function `m : ℕ → α` of which the cells below a capacity `N` form a ring.  `gather m N p n` reads `n`
cells from `p` on, `scatter m N p xs` writes `xs` from `p` on, both modulo `N`; positions are plain naturals and need
not be reduced.  `blit` is a straight (non-circular) copy; two of them make a `scatter` (`blit_blit_eq_scatter`).
-/

namespace LibHpack.Ring

variable {α : Type*}

/-- The `n` cells from `p` on, modulo `N`. -/
def gather (m : ℕ → α) (N p n : ℕ) : List α :=
  (List.range n).map fun i => m ((p + i) % N)

/-- Write `xs` from `p` on, modulo `N`. -/
def scatter (m : ℕ → α) (N p : ℕ) (xs : List α) : ℕ → α := fun i =>
  if i < N then (xs[(i + (N - p % N)) % N]?).getD (m i) else m i

/-- Write `xs` straight from cell `p` on. -/
def blit (m : ℕ → α) (p : ℕ) (xs : List α) : ℕ → α := fun i =>
  if p ≤ i then (xs[i - p]?).getD (m i) else m i

/-! ### Reading -/

section Gather

variable {m m' : ℕ → α} {N p n : ℕ}

@[simp] theorem gather_length : (gather m N p n).length = n := by simp [gather]

@[simp] theorem gather_zero : gather m N p 0 = [] := rfl

theorem gather_getElem? {i : ℕ} (h : i < n) : (gather m N p n)[i]? = some (m ((p + i) % N)) := by
  simp [gather, h]

theorem gather_mod : gather m N (p % N) n = gather m N p n := by
  simp [gather]

theorem gather_add (k : ℕ) : gather m N p (n + k) = gather m N p n ++ gather m N (p + n) k := by
  simp [gather, List.range_add, Nat.add_assoc, Function.comp_def]

theorem gather_congr (h : ∀ i < n, m ((p + i) % N) = m' ((p + i) % N)) :
    gather m N p n = gather m' N p n := by
  simp only [gather]
  exact List.map_congr_left fun i hi => h i (List.mem_range.mp hi)

/-- A read that does not cross the end of the ring is a straight read. -/
theorem gather_of_le (h : p + n ≤ N) : gather m N p n = (List.range n).map fun i => m (p + i) := by
  refine List.map_congr_left fun i hi => ?_
  rw [Nat.mod_eq_of_lt (by have := List.mem_range.mp hi; omega)]

/-- A read of two pieces whose concatenation is known. -/
theorem gather_eq_append {xs ys : List α} {k : ℕ} (h : gather m N p (n + k) = xs ++ ys)
    (hx : xs.length = n) : gather m N p n = xs ∧ gather m N (p + n) k = ys := by
  rw [gather_add] at h
  exact List.append_inj h (by simp [hx])

end Gather

/-! ### Writing -/

section Scatter

variable {m : ℕ → α} {N p : ℕ} {xs : List α}

/-- The distance from `p` to `a` on the ring. -/
theorem dist_eq {a d : ℕ} (h : (p + d) % N = a % N) (hd : d < N) : (a % N + (N - p % N)) % N = d := by
  have hN : 0 < N := by omega
  have hp : p % N ≤ N := (Nat.mod_lt p hN).le
  calc (a % N + (N - p % N)) % N = ((p + d) % N + (N - p % N)) % N := by rw [h]
    _ = (p % N + d + (N - p % N)) % N := by simp [Nat.add_mod]
    _ = (d + N) % N := by congr 1; omega
    _ = d := by rw [Nat.add_mod_right, Nat.mod_eq_of_lt hd]

theorem scatter_at {a d : ℕ} (h : (p + d) % N = a % N) (hd : d < N) :
    scatter m N p xs (a % N) = (xs[d]?).getD (m (a % N)) := by
  have ha : a % N < N := Nat.mod_lt a (by omega)
  simp only [scatter, if_pos ha]
  rw [dist_eq h hd]

theorem scatter_mod : scatter m N (p % N) xs = scatter m N p xs := by
  funext i
  simp [scatter]

/-- What was written is read back. -/
theorem gather_scatter (h : xs.length ≤ N) : gather (scatter m N p xs) N p xs.length = xs := by
  refine List.ext_getElem? fun i => ?_
  by_cases hi : i < xs.length
  · rw [gather_getElem? hi, scatter_at rfl (by omega)]
    simp [hi]
  · rw [List.getElem?_eq_none (by simpa using hi), List.getElem?_eq_none (by omega)]

/-- A read outside of the written stretch sees the old memory. -/
theorem gather_scatter_of_disjoint {q n : ℕ} (h1 : q + n ≤ p) (h2 : p + xs.length ≤ q + N) :
    gather (scatter m N p xs) N q n = gather m N q n := by
  refine gather_congr fun i hi => ?_
  have hd : (p + (q + i + N - p)) % N = (q + i) % N := by
    rw [show p + (q + i + N - p) = q + i + N by omega, Nat.add_mod_right]
  rw [scatter_at hd (by omega), List.getElem?_eq_none (by omega), Option.getD_none]

/-- Writing a concatenation is writing its parts one after the other. -/
theorem scatter_append {ys : List α} (h : xs.length + ys.length ≤ N) :
    scatter (scatter m N p xs) N (p + xs.length) ys = scatter m N p (xs ++ ys) := by
  funext i
  by_cases hi : i < N
  swap
  · simp [scatter, hi]
  obtain ⟨d, hd, hpd⟩ : ∃ d < N, (p + d) % N = i % N := by
    refine ⟨(i + (N - p % N)) % N, Nat.mod_lt _ (by omega), ?_⟩
    have hp : p % N ≤ N := (Nat.mod_lt p (by omega)).le
    calc (p + (i + (N - p % N)) % N) % N = (p % N + (i + (N - p % N))) % N := by simp [Nat.add_mod]
      _ = (i + N) % N := by congr 1; omega
      _ = i % N := Nat.add_mod_right i N
  have hxy : scatter m N p (xs ++ ys) (i % N) = ((xs ++ ys)[d]?).getD (m (i % N)) := scatter_at hpd hd
  have hx : scatter m N p xs (i % N) = (xs[d]?).getD (m (i % N)) := scatter_at hpd hd
  rw [Nat.mod_eq_of_lt hi] at hxy hx
  rw [hxy]
  by_cases hlt : d < xs.length
  · have hd' : (p + xs.length + (d + N - xs.length)) % N = i % N := by
      rw [← hpd, show p + xs.length + (d + N - xs.length) = p + d + N by omega, Nat.add_mod_right]
    have hy : scatter (scatter m N p xs) N (p + xs.length) ys (i % N) = (ys[d + N - xs.length]?).getD _ :=
      scatter_at hd' (by omega)
    rw [Nat.mod_eq_of_lt hi, List.getElem?_eq_none (l := ys) (by omega), Option.getD_none, hx] at hy
    rw [hy, List.getElem?_append_left hlt]
  · have hd' : (p + xs.length + (d - xs.length)) % N = i % N := by
      rw [← hpd, show p + xs.length + (d - xs.length) = p + d by omega]
    have hy : scatter (scatter m N p xs) N (p + xs.length) ys (i % N) = (ys[d - xs.length]?).getD _ :=
      scatter_at hd' (by omega)
    rw [Nat.mod_eq_of_lt hi, hx, List.getElem?_eq_none (l := xs) (by omega), Option.getD_none] at hy
    rw [hy, List.getElem?_append_right (by omega)]

/-- A circular write as the two copies that make it: up to the end of the ring, and the rest from its start. -/
theorem blit_blit_eq_scatter (hp : p < N) (h : xs.length ≤ N) :
    blit (blit m p (xs.take (N - p))) 0 (xs.drop (N - p)) = scatter m N p xs := by
  funext i
  have hpm : p % N = p := Nat.mod_eq_of_lt hp
  simp only [blit, scatter, hpm, Nat.zero_le, if_true, Nat.sub_zero, List.getElem?_drop, List.getElem?_take]
  by_cases hi : i < N
  · rw [if_pos hi]
    by_cases hpi : p ≤ i
    · have hmod : (i + (N - p)) % N = i - p := by
        rw [show i + (N - p) = (i - p) + N by omega, Nat.add_mod_right, Nat.mod_eq_of_lt (by omega)]
      rw [hmod, if_pos hpi, if_pos (by omega), List.getElem?_eq_none (l := xs) (i := N - p + i) (by omega)]
      rfl
    · rw [Nat.mod_eq_of_lt (by omega), if_neg hpi, Nat.add_comm]
  · rw [if_neg hi, List.getElem?_eq_none (l := xs) (i := N - p + i) (by omega)]
    simp only [Option.getD_none]
    split_ifs with h1 h2
    · omega
    · rfl
    · rfl

end Scatter

end LibHpack.Ring
