import Mathlib.Tactic

/-!
# LibHpack.General.Octets — numbers as octets, least or most significant first

`leOctets n v` is the number `v` in `n` octets, as a little-endian machine stores it, and `leValue` reads octets back;
`beOctets` and `beValue` are the same in the order of the network.
-/

namespace LibHpack

/-- The low `n` octets of a number, least significant first. -/
def leOctets : ℕ → ℕ → List UInt8
  | 0, _ => []
  | n + 1, v => UInt8.ofNat v :: leOctets n (v / 256)

/-- The number that the octets stand for. -/
def leValue : List UInt8 → ℕ
  | [] => 0
  | c :: l => c.toNat + 256 * leValue l

/-- The low `n` octets of a number, most significant first. -/
def beOctets (n v : ℕ) : List UInt8 := (leOctets n v).reverse

def beValue (l : List UInt8) : ℕ := leValue l.reverse

@[simp] theorem leOctets_length (n v : ℕ) : (leOctets n v).length = n := by
  induction n generalizing v with
  | zero => rfl
  | succ n ih => rw [leOctets, List.length_cons, ih]

@[simp] theorem beOctets_length (n v : ℕ) : (beOctets n v).length = n := by
  rw [beOctets, List.length_reverse, leOctets_length]

/-- The low octets and the high ones. -/
theorem leOctets_add (m n v : ℕ) : leOctets (m + n) v = leOctets m v ++ leOctets n (v / 256 ^ m) := by
  induction m generalizing v with
  | zero => rw [Nat.zero_add, pow_zero, Nat.div_one, leOctets, List.nil_append]
  | succ m ih =>
    rw [show m + 1 + n = m + n + 1 by omega, leOctets, ih, leOctets, List.cons_append, Nat.div_div_eq_div_mul,
      ← pow_succ']

theorem beOctets_add (m n v : ℕ) : beOctets (m + n) v = beOctets m (v / 256 ^ n) ++ beOctets n v := by
  rw [beOctets, Nat.add_comm m n, leOctets_add, List.reverse_append, beOctets, beOctets]

/-- What does not fit is dropped. -/
theorem leOctets_mod (n v : ℕ) : leOctets n (v % 256 ^ n) = leOctets n v := by
  induction n generalizing v with
  | zero => rfl
  | succ n ih =>
    have hlow : v % 256 ^ (n + 1) % 256 = v % 256 := Nat.mod_mod_of_dvd v (Dvd.intro_left (256 ^ n) rfl)
    have hhigh : v % 256 ^ (n + 1) / 256 = v / 256 % 256 ^ n := by
      rw [pow_succ', Nat.mod_mul_right_div_self]
    have hoctet : UInt8.ofNat (v % 256 ^ (n + 1)) = UInt8.ofNat v := by
      apply UInt8.toNat_inj.1
      rw [UInt8.toNat_ofNat', UInt8.toNat_ofNat']
      exact hlow
    rw [leOctets, leOctets, hoctet, hhigh, ih]

theorem leOctets_congr {n u v : ℕ} (h : u % 256 ^ n = v % 256 ^ n) : leOctets n u = leOctets n v := by
  rw [← leOctets_mod, h, leOctets_mod]

theorem beOctets_congr {n u v : ℕ} (h : u % 256 ^ n = v % 256 ^ n) : beOctets n u = beOctets n v := by
  rw [beOctets, leOctets_congr h, beOctets]

theorem leValue_lt (l : List UInt8) : leValue l < 256 ^ l.length := by
  induction l with
  | nil => decide
  | cons c l ih =>
    have hc := c.toNat_lt
    rw [leValue, List.length_cons, pow_succ']
    omega

/-! ### Bitwise operations act octet by octet -/

theorem leValue_append (l r : List UInt8) : leValue (l ++ r) = leValue l + 256 ^ l.length * leValue r := by
  induction l with
  | nil => rw [List.nil_append, leValue, List.length_nil, pow_zero, Nat.zero_add, Nat.one_mul]
  | cons c l ih =>
    rw [List.cons_append, leValue, ih, leValue, List.length_cons, pow_succ']
    ring

@[simp] theorem leValue_replicate (n : ℕ) : leValue (List.replicate n 0) = 0 := by
  induction n with
  | zero => rfl
  | succ n ih =>
    rw [List.replicate_succ, leValue, ih]
    rfl

theorem and_low {a c : ℕ} (ha : a < 256) (hc : c < 256) (x y : ℕ) :
    (a + 256 * x) &&& (c + 256 * y) = (a &&& c) + 256 * (x &&& y) := by
  have hac : a &&& c < 2 ^ 8 := lt_of_le_of_lt Nat.and_le_left ha
  rw [Nat.add_comm a, Nat.add_comm c, Nat.add_comm (a &&& c), show 256 = 2 ^ 8 from rfl, Nat.two_pow_add_eq_or_of_lt ha,
    Nat.two_pow_add_eq_or_of_lt hc, Nat.two_pow_add_eq_or_of_lt hac]
  apply Nat.eq_of_testBit_eq
  intro j
  rw [Nat.testBit_and, Nat.testBit_or, Nat.testBit_or, Nat.testBit_or, Nat.testBit_and, Nat.testBit_two_pow_mul,
    Nat.testBit_two_pow_mul, Nat.testBit_two_pow_mul, Nat.testBit_and]
  by_cases hj : 8 ≤ j
  · have hpow : 2 ^ 8 ≤ 2 ^ j := Nat.pow_le_pow_right (by decide) hj
    rw [Nat.testBit_lt_two_pow (lt_of_lt_of_le ha hpow), Nat.testBit_lt_two_pow (lt_of_lt_of_le hc hpow)]
    simp [hj]
  · simp [hj]

theorem or_low {a c : ℕ} (ha : a < 256) (hc : c < 256) (x y : ℕ) :
    (a + 256 * x) ||| (c + 256 * y) = (a ||| c) + 256 * (x ||| y) := by
  have hac : a ||| c < 2 ^ 8 := Nat.or_lt_two_pow ha hc
  rw [Nat.add_comm a, Nat.add_comm c, Nat.add_comm (a ||| c), show 256 = 2 ^ 8 from rfl, Nat.two_pow_add_eq_or_of_lt ha,
    Nat.two_pow_add_eq_or_of_lt hc, Nat.two_pow_add_eq_or_of_lt hac]
  apply Nat.eq_of_testBit_eq
  intro j
  rw [Nat.testBit_or, Nat.testBit_or, Nat.testBit_or, Nat.testBit_or, Nat.testBit_or, Nat.testBit_two_pow_mul,
    Nat.testBit_two_pow_mul, Nat.testBit_two_pow_mul, Nat.testBit_or]
  cases decide (8 ≤ j) <;> cases a.testBit j <;> cases c.testBit j <;> simp

theorem leValue_and : ∀ l m : List UInt8, l.length = m.length →
    leValue l &&& leValue m = leValue (List.zipWith (· &&& ·) l m)
  | [], [], _ => rfl
  | a :: l, c :: m, h => by
    rw [leValue, leValue, and_low a.toNat_lt c.toNat_lt, leValue_and l m (Nat.succ.inj h), List.zipWith_cons_cons, leValue,
      UInt8.toNat_and]

theorem leValue_or : ∀ l m : List UInt8, l.length = m.length →
    leValue l ||| leValue m = leValue (List.zipWith (· ||| ·) l m)
  | [], [], _ => rfl
  | a :: l, c :: m, h => by
    rw [leValue, leValue, or_low a.toNat_lt c.toNat_lt, leValue_or l m (Nat.succ.inj h), List.zipWith_cons_cons, leValue,
      UInt8.toNat_or]

/-- A word of 64 bits, as a little-endian machine loads it. -/
def word64 (l : List UInt8) : UInt64 := UInt64.ofNat (leValue l)

section Word

variable {l m : List UInt8}

theorem word64_toNat (h : l.length = 8) : (word64 l).toNat = leValue l := by
  have hlt := leValue_lt l
  rw [h] at hlt
  exact UInt64.toNat_ofNat_of_lt' hlt

theorem word64_and (hl : l.length = 8) (hm : m.length = 8) :
    word64 l &&& word64 m = word64 (List.zipWith (· &&& ·) l m) := by
  apply UInt64.toNat_inj.1
  rw [UInt64.toNat_and, word64_toNat hl, word64_toNat hm, leValue_and l m (hl.trans hm.symm),
    word64_toNat (by rw [List.length_zipWith, hl, hm, Nat.min_self])]

theorem word64_or (hl : l.length = 8) (hm : m.length = 8) :
    word64 l ||| word64 m = word64 (List.zipWith (· ||| ·) l m) := by
  apply UInt64.toNat_inj.1
  rw [UInt64.toNat_or, word64_toNat hl, word64_toNat hm, leValue_or l m (hl.trans hm.symm),
    word64_toNat (by rw [List.length_zipWith, hl, hm, Nat.min_self])]

/-- Shifting by whole octets drops the low ones. -/
theorem word64_shiftRight {n : ℕ} {k : UInt64} (hl : l.length = 8) (hn : n < 8) (hk : k.toNat = 8 * n) :
    word64 l >>> k = word64 (l.drop n ++ List.replicate n 0) := by
  have hlen : (l.take n).length = n := by
    rw [List.length_take]
    omega
  have hpow : 2 ^ (8 * n) = 256 ^ n := by
    rw [pow_mul]
    rfl
  have hsplit := leValue_append (l.take n) (l.drop n)
  have hlt := leValue_lt (l.take n)
  rw [List.take_append_drop, hlen] at hsplit
  rw [hlen] at hlt
  apply UInt64.toNat_inj.1
  rw [UInt64.toNat_shiftRight, word64_toNat hl, hk, Nat.mod_eq_of_lt (by omega), Nat.shiftRight_eq_div_pow, hpow,
    word64_toNat (by rw [List.length_append, List.length_drop, List.length_replicate]; omega), leValue_append,
    leValue_replicate, Nat.mul_zero, Nat.add_zero, hsplit, Nat.add_mul_div_left _ _ (by positivity), Nat.div_eq_of_lt hlt,
    Nat.zero_add]

/-- Shifting the other way drops the high ones. -/
theorem word64_shiftLeft {n : ℕ} {k : UInt64} (hl : l.length = 8) (hn : n < 8) (hk : k.toNat = 8 * n) :
    word64 l <<< k = word64 (List.replicate n 0 ++ l.take (8 - n)) := by
  have hlen : (l.take (8 - n)).length = 8 - n := by
    rw [List.length_take]
    omega
  have hpow : 2 ^ (8 * n) = 256 ^ n := by
    rw [pow_mul]
    rfl
  have hsplit := leValue_append (l.take (8 - n)) (l.drop (8 - n))
  have hlt := leValue_lt (l.take (8 - n))
  rw [List.take_append_drop, hlen] at hsplit
  rw [hlen] at hlt
  have h64 : (2 : ℕ) ^ 64 = 256 ^ n * 256 ^ (8 - n) := by
    rw [← pow_add, Nat.add_sub_cancel' hn.le]
    rfl
  apply UInt64.toNat_inj.1
  rw [UInt64.toNat_shiftLeft, word64_toNat hl, hk, Nat.mod_eq_of_lt (b := 64) (by omega), Nat.shiftLeft_eq, hpow,
    word64_toNat (by rw [List.length_append, List.length_take, List.length_replicate]; omega), leValue_append,
    leValue_replicate, List.length_replicate, Nat.zero_add, hsplit, Nat.mul_comm, h64, Nat.mul_mod_mul_left,
    Nat.add_mul_mod_self_left, Nat.mod_eq_of_lt hlt]

/-- The low octet of a number that has been shifted. -/
theorem toUInt8_eq (x : UInt64) (n : ℕ) {k : UInt64} (hk : k.toNat = 8 * n) (hn : n < 8) :
    ((x >>> k) &&& 0xff).toUInt8 = UInt8.ofNat (x.toNat / 256 ^ n) := by
  have hpow : 2 ^ (8 * n) = 256 ^ n := by
    rw [pow_mul]
    rfl
  have h64 : 8 * n % 64 = 8 * n := Nat.mod_eq_of_lt (by omega)
  apply UInt8.toNat_inj.1
  rw [UInt64.toNat_toUInt8, UInt64.toNat_and, UInt64.toNat_shiftRight, hk, h64,
    Nat.shiftRight_eq_div_pow, hpow, UInt8.toNat_ofNat']
  change (x.toNat / 256 ^ n &&& (2 ^ 8 - 1)) % 2 ^ 8 = _
  rw [Nat.and_two_pow_sub_one_eq_mod, Nat.mod_mod]

end Word

/-! ### A counter in two words -/

/-- Adding to the low word, with the carry: the counter counts modulo the square of what a word holds. -/
theorem count_carry {W lo hi n k : ℕ} (hk : k < W) (hlo : lo < W) (hhi : hi < W) (h : hi * W + lo = n % (W * W)) :
    (if (lo + k) % W < lo then (hi + 1) % W else hi) * W + (lo + k) % W = (n + k) % (W * W) := by
  rw [← Nat.mod_add_mod n, ← h]
  have hhigh : hi * W + W ≤ W * W := by
    calc hi * W + W = (hi + 1) * W := by ring
      _ ≤ W * W := Nat.mul_le_mul_right _ hhi
  by_cases hcarry : W ≤ lo + k
  · have hwrap : (lo + k) % W = lo + k - W := by
      rw [Nat.mod_eq_sub_mod hcarry, Nat.mod_eq_of_lt (by omega)]
    rw [hwrap, if_pos (by omega)]
    rcases Nat.lt_or_ge (hi + 1) W with hfits | hfull
    · have hhigh' : hi * W + W + W ≤ W * W := by
        calc hi * W + W + W = (hi + 2) * W := by ring
          _ ≤ W * W := Nat.mul_le_mul_right _ hfits
      rw [Nat.mod_eq_of_lt hfits, Nat.mod_eq_of_lt (by omega), Nat.add_mul, Nat.one_mul]
      omega
    · -- both words overflow, and so does the count
      have hone : hi + 1 = W := by omega
      have hover : hi * W + lo + k = lo + k - W + W * W := by
        have hmul : hi * W + W = W * W := by
          calc hi * W + W = (hi + 1) * W := by ring
            _ = W * W := by rw [hone]
        omega
      rw [hone, Nat.mod_self, Nat.zero_mul, Nat.zero_add, hover, Nat.add_mod_right, Nat.mod_eq_of_lt (by omega)]
  · rw [Nat.mod_eq_of_lt (show lo + k < W by omega), if_neg (by omega), Nat.mod_eq_of_lt (by omega), Nat.add_assoc]

end LibHpack
