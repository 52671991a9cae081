import Mathlib.Tactic

/-!
# LibHpack.General.Vlq — variable-length quantities in base 128

The least significant digit comes first; every octet but the last has its top bit set.  `Vlq mem i v n` says that `mem`
holds from cell `i` on the quantity `v` in `n` octets, in the shortest form or with leading zero digits at its end.
-/

namespace LibHpack

inductive Vlq (mem : ℕ → UInt8) : ℕ → ℕ → ℕ → Prop
  | last {i : ℕ} (h : (mem i).toNat < 128) : Vlq mem i (mem i).toNat 1
  | more {i v n : ℕ} (h : 128 ≤ (mem i).toNat) (ht : Vlq mem (i + 1) v n) :
      Vlq mem i ((mem i).toNat - 128 + 128 * v) (n + 1)

namespace Vlq

variable {mem mem' : ℕ → UInt8} {i v w m n : ℕ}

theorem pos (h : Vlq mem i v n) : 1 ≤ n := by
  cases h <;> omega

/-- The octets determine the quantity and its length. -/
theorem unique (h : Vlq mem i v n) (h' : Vlq mem i w m) : v = w ∧ n = m := by
  induction h generalizing w m with
  | last hlt =>
    cases h' with
    | last _ => exact ⟨rfl, rfl⟩
    | more hge _ => omega
  | more hge _ ih =>
    cases h' with
    | last hlt => omega
    | more _ ht =>
      obtain ⟨rfl, rfl⟩ := ih ht
      exact ⟨rfl, rfl⟩

/-- Only the octets of the quantity matter. -/
theorem congr (h : Vlq mem i v n) (heq : ∀ j < n, mem' (i + j) = mem (i + j)) : Vlq mem' i v n := by
  induction h with
  | @last i hlt =>
    have h0 := heq 0 (by omega)
    rw [Nat.add_zero] at h0
    rw [← h0] at hlt ⊢
    exact .last hlt
  | @more i v n hge _ ih =>
    have h0 := heq 0 (by omega)
    rw [Nat.add_zero] at h0
    rw [← h0] at hge ⊢
    refine .more hge (ih fun j hj => ?_)
    rw [show i + 1 + j = i + (j + 1) by omega]
    exact heq (j + 1) (by omega)

/-- The quantity as a sum: its last octet is the first one with a clear top bit. -/
theorem iff_sum :
    Vlq mem i v (n + 1) ↔ (mem (i + n)).toNat < 128 ∧ (∀ j < n, 128 ≤ (mem (i + j)).toNat) ∧
      v = ∑ j ∈ Finset.range (n + 1), (mem (i + j)).toNat % 128 * 128 ^ j := by
  induction n generalizing i v with
  | zero =>
    rw [Finset.sum_range_one, Nat.add_zero, pow_zero, Nat.mul_one]
    constructor
    · intro h
      cases h with
      | last hlt => exact ⟨hlt, fun j hj => absurd hj (by omega), (Nat.mod_eq_of_lt hlt).symm⟩
      | more _ ht => exact absurd ht.pos (by omega)
    · rintro ⟨hlt, -, rfl⟩
      rw [Nat.mod_eq_of_lt hlt]
      exact .last hlt
  | succ n ih =>
    have hshift : ∀ j, i + (j + 1) = i + 1 + j := fun j => by omega
    have hb := (mem i).toNat_lt
    have htail : ∑ j ∈ Finset.range (n + 1), (mem (i + (j + 1))).toNat % 128 * 128 ^ (j + 1) =
        128 * ∑ j ∈ Finset.range (n + 1), (mem (i + 1 + j)).toNat % 128 * 128 ^ j := by
      rw [Finset.mul_sum]
      apply Finset.sum_congr rfl
      intro j _
      rw [hshift, pow_succ]
      ring
    rw [Finset.sum_range_succ', htail, Nat.add_zero i, pow_zero, Nat.mul_one, hshift n]
    constructor
    · intro h
      cases h with
      | @more _ w _ hge ht =>
        obtain ⟨hlt, hrun, rfl⟩ := ih.mp ht
        refine ⟨hlt, fun j hj => ?_, by omega⟩
        cases j with
        | zero => exact hge
        | succ j =>
          rw [hshift]
          exact hrun j (by omega)
    · rintro ⟨hlt, hrun, rfl⟩
      have hge := hrun 0 (by omega)
      rw [Nat.add_zero] at hge
      have hmore := Vlq.more hge (ih.mpr ⟨hlt, fun j hj => by
        have := hrun (j + 1) (by omega)
        rwa [hshift] at this, rfl⟩)
      rwa [show (mem i).toNat - 128 = (mem i).toNat % 128 by omega, Nat.add_comm] at hmore

end Vlq

end LibHpack
