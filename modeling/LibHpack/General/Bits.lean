import Mathlib.Tactic

/-!
# LibHpack.General.Bits — numbers as lists of bits, most significant first

`natBits n v` is the list of the low `n` bits of `v`, and `bitsToNat` reads a list back.
-/

namespace LibHpack

def natBits : ℕ → ℕ → List Bool
  | 0, _ => []
  | n + 1, v => v.testBit n :: natBits n v

/-- The number that the bits stand for. -/
def bitsToNat (w : List Bool) : ℕ := w.foldl (fun n b => 2 * n + b.toNat) 0

@[simp] theorem natBits_length (n v : ℕ) : (natBits n v).length = n := by
  induction n with
  | zero => rfl
  | succ n ih => rw [natBits, List.length_cons, ih]

/-- The high bits and the low ones. -/
theorem natBits_add (m n v : ℕ) : natBits (m + n) v = natBits m (v >>> n) ++ natBits n v := by
  induction m with
  | zero => rw [Nat.zero_add]; rfl
  | succ m ih =>
    rw [show m + 1 + n = m + n + 1 by omega, natBits, ih, natBits, List.cons_append, Nat.testBit_shiftRight,
      Nat.add_comm n m]

theorem natBits_congr {n u v : ℕ} (h : ∀ j < n, u.testBit j = v.testBit j) : natBits n u = natBits n v := by
  induction n with
  | zero => rfl
  | succ n ih => rw [natBits, natBits, h n (Nat.lt_succ_self n), ih fun j hj => h j (Nat.lt_succ_of_lt hj)]

theorem natBits_take {m n : ℕ} (h : n ≤ m) (v : ℕ) : (natBits m v).take n = natBits n (v >>> (m - n)) := by
  conv_lhs => rw [show m = n + (m - n) by omega, natBits_add]
  exact List.take_left' (natBits_length _ _)

theorem bitsToNat_concat (w : List Bool) (b : Bool) : bitsToNat (w ++ [b]) = 2 * bitsToNat w + b.toNat := by
  rw [bitsToNat, List.foldl_append]
  rfl

/-- **Reading the bits of a word back.** -/
theorem natBits_bitsToNat (w : List Bool) : natBits w.length (bitsToNat w) = w := by
  induction w using List.reverseRecOn with
  | nil => rfl
  | append_singleton w b ih =>
    have hb := b.toNat_lt
    have hshift : (2 * bitsToNat w + b.toNat) >>> 1 = bitsToNat w := by
      rw [Nat.shiftRight_eq_div_pow]
      omega
    have hlow : (2 * bitsToNat w + b.toNat).testBit 0 = b := by
      cases b <;> simp [Nat.testBit_zero]
    rw [List.length_append, List.length_singleton, bitsToNat_concat, natBits_add, hshift, ih]
    simp [natBits, hlow]

/-- The low bits are the number modulo a power of two. -/
theorem bitsToNat_natBits (n v : ℕ) : bitsToNat (natBits n v) = v % 2 ^ n := by
  induction n generalizing v with
  | zero =>
    rw [pow_zero, Nat.mod_one]
    rfl
  | succ n ih =>
    have hsplit : natBits (n + 1) v = natBits n (v >>> 1) ++ [v.testBit 0] := natBits_add n 1 v
    have hbit : (v.testBit 0).toNat = v % 2 := by
      rw [Nat.testBit_zero]
      rcases Nat.mod_two_eq_zero_or_one v with h | h <;> simp [h]
    rw [hsplit, bitsToNat_concat, ih, Nat.shiftRight_eq_div_pow, hbit, pow_one, show 2 ^ (n + 1) = 2 * 2 ^ n from pow_succ' 2 n,
      Nat.mod_mul]
    omega

theorem bitsToNat_lt (w : List Bool) : bitsToNat w < 2 ^ w.length := by
  induction w using List.reverseRecOn with
  | nil => decide
  | append_singleton w b ih =>
    have hb := b.toNat_lt
    rw [List.length_append, List.length_singleton, bitsToNat_concat, pow_succ]
    omega

end LibHpack
