import LibHpack.Digest.Sha512

/-!
# LibHpack.Digest.Sha512Rounds — `calc` is the SHA-512 compression

The plain algorithm: its constants are the first 64 bits of the fractions of the cube roots of the first 80 primes, its
initial words those of the square roots of the first eight, and its functions choose between two words, take the majority of
three, and rotate.  The code has the constants as a table, and puts the functions together from shifts and `^`.
-/

namespace LibHpack

namespace Sha512

/-! ### The plain algorithm -/

/-- The largest number whose `k`-th power is at most `n`, from the bits above `b` on. -/
def root (k n : ℕ) : ℕ → ℕ → ℕ
  | 0, r => r
  | b + 1, r => root k n b (if (r + 2 ^ b) ^ k ≤ n then r + 2 ^ b else r)

def primes (n : ℕ) : List ℕ := (List.range n).filter fun p => 2 ≤ p && (List.range p).all fun d => d < 2 || p % d != 0

/-- The first 64 bits of the fraction of the `k`-th root of `p`. -/
def fraction (k p : ℕ) : UInt64 := UInt64.ofNat (root k (p * 2 ^ (64 * k)) 69 0)

def sha512Constants : List UInt64 := (primes 410).map (fraction 3)

def word (l : List UInt64) (i : ℕ) : UInt64 := l.getD i 0

def sha512Iv : Words :=
  let roots := (primes 20).map (fraction 2)
  ⟨word roots 0, word roots 1, word roots 2, word roots 3, word roots 4, word roots 5, word roots 6, word roots 7⟩

def rotr (x : UInt64) (n : ℕ) : UInt64 := UInt64.ofBitVec (x.toBitVec.rotateRight n)

def shr (x : UInt64) (n : ℕ) : UInt64 := UInt64.ofBitVec (x.toBitVec >>> n)

/-- The bits of `y` where `x` has ones, and those of `z` where it has zeros. -/
def choose (x y z : UInt64) : UInt64 := (x &&& y) ||| (~~~x &&& z)

def majority (x y z : UInt64) : UInt64 := (x &&& y) ||| (x &&& z) ||| (y &&& z)

/-- The next word of the schedule. -/
def sha512Next (w : List UInt64) (i : ℕ) : List UInt64 :=
  let x := word w (i - 15)
  let y := word w (i - 2)
  w ++ [word w (i - 16) + (rotr x 1 ^^^ rotr x 8 ^^^ shr x 7) + word w (i - 7) + (rotr y 19 ^^^ rotr y 61 ^^^ shr y 6)]

def sha512Schedule (octets : List UInt8) : List UInt64 :=
  (List.range' 16 64).foldl sha512Next ((List.range 16).map fun i => UInt64.ofNat (beValue ((octets.drop (8 * i)).take 8)))

/-- A turn, with its constant and its word of the schedule. -/
def sha512Round (v : Words) (p : UInt64 × UInt64) : Words :=
  let t := v.h + (rotr v.e 14 ^^^ rotr v.e 18 ^^^ rotr v.e 41) + choose v.e v.f v.g + p.1 + p.2
  let s := (rotr v.a 28 ^^^ rotr v.a 34 ^^^ rotr v.a 39) + majority v.a v.b v.c
  { a := t + s, b := v.a, c := v.b, d := v.c, e := v.d + t, f := v.e, g := v.f, h := v.g }

/-- A chunk of 128 octets. -/
def sha512Rounds (v : Words) (octets : List UInt8) : Words :=
  v.add ((sha512Constants.zip (sha512Schedule octets)).foldl sha512Round v)

/-! ### The code -/

theorem constant512_eq : constant512 = sha512Constants := by
  decide +kernel

theorem iv_eq : iv = sha512Iv := by
  decide +kernel

/-- A shift by fewer places than a word has. -/
theorem toNat_mod_64 {n : UInt64} {k : ℕ} (hn : n.toNat = k) (hlt : k < 64) : (n.toBitVec % 64).toNat = k := by
  rw [BitVec.toNat_umod]
  change n.toNat % 64 = k
  rw [hn, Nat.mod_eq_of_lt hlt]

theorem ROTR_eq (x : UInt64) {n : UInt64} {k : ℕ} (hn : n.toNat = k) (hk : 0 < k) (hlt : k < 64) :
    ROTR x n = rotr x k := by
  have h64 : (64 - n).toNat = 64 - k := by
    rw [UInt64.toNat_sub_of_le _ _ (UInt64.le_iff_toNat_le.2 (by rw [hn]; exact hlt.le)), hn]
    rfl
  apply UInt64.toBitVec_inj.1
  rw [ROTR, rotr, UInt64.toBitVec_or, UInt64.toBitVec_shiftRight, UInt64.toBitVec_shiftLeft, BitVec.rotateRight_def,
    Nat.mod_eq_of_lt hlt]
  congr 1
  · change x.toBitVec >>> (n.toBitVec % 64).toNat = _
    rw [toNat_mod_64 hn hlt]
  · change x.toBitVec <<< ((64 - n).toBitVec % 64).toNat = _
    rw [toNat_mod_64 h64 (by omega)]

theorem shiftRight_eq (x : UInt64) {n : UInt64} {k : ℕ} (hn : n.toNat = k) (hlt : k < 64) : x >>> n = shr x k := by
  apply UInt64.toBitVec_inj.1
  rw [shr, UInt64.toBitVec_shiftRight]
  change x.toBitVec >>> (n.toBitVec % 64).toNat = _
  rw [toNat_mod_64 hn hlt]

theorem Ch_eq (x y z : UInt64) : Ch x y z = choose x y z := by
  have hbits : ∀ b c d : Bool, ((b && c) ^^ (!b && d)) = (b && c || !b && d) := by decide
  apply UInt64.toBitVec_inj.1
  apply BitVec.eq_of_getElem_eq
  intro j hj
  simpa [Ch, choose] using hbits _ _ _

theorem Maj_eq (x y z : UInt64) : Maj x y z = majority x y z := by
  have hbits : ∀ b c d : Bool, ((b && c) ^^ (b && d) ^^ (c && d)) = (b && c || b && d || c && d) := by decide
  apply UInt64.toBitVec_inj.1
  apply BitVec.eq_of_getElem_eq
  intro j hj
  simpa [Maj, majority] using hbits _ _ _

theorem Sigma0_eq (x : UInt64) : Sigma0 x = rotr x 28 ^^^ rotr x 34 ^^^ rotr x 39 := by
  rw [Sigma0, ROTR_eq x (k := 28) rfl (by decide) (by decide), ROTR_eq x (k := 34) rfl (by decide) (by decide),
    ROTR_eq x (k := 39) rfl (by decide) (by decide)]

theorem Sigma1_eq (x : UInt64) : Sigma1 x = rotr x 14 ^^^ rotr x 18 ^^^ rotr x 41 := by
  rw [Sigma1, ROTR_eq x (k := 14) rfl (by decide) (by decide), ROTR_eq x (k := 18) rfl (by decide) (by decide),
    ROTR_eq x (k := 41) rfl (by decide) (by decide)]

theorem sigma0_eq (x : UInt64) : sigma0 x = rotr x 1 ^^^ rotr x 8 ^^^ shr x 7 := by
  rw [sigma0, ROTR_eq x (k := 1) rfl (by decide) (by decide), ROTR_eq x (k := 8) rfl (by decide) (by decide),
    shiftRight_eq x (k := 7) rfl (by decide)]

theorem sigma1_eq (x : UInt64) : sigma1 x = rotr x 19 ^^^ rotr x 61 ^^^ shr x 6 := by
  rw [sigma1, ROTR_eq x (k := 19) rfl (by decide) (by decide), ROTR_eq x (k := 61) rfl (by decide) (by decide),
    shiftRight_eq x (k := 6) rfl (by decide)]

/-- **One turn.** -/
theorem turn_eq (v : Words) (p : UInt64 × UInt64) : turn v p = sha512Round v p := by
  rw [turn, sha512Round, Sigma1_eq, Ch_eq, Sigma0_eq, Maj_eq]

/-- One word of the schedule: the sum is the same in any order. -/
theorem expand_eq (w : List UInt64) (i : ℕ) : expand w i = sha512Next w i := by
  have hsum : ∀ a b c d : UInt64, a + b + c + d = d + c + b + a := fun a b c d => by
    rw [UInt64.add_comm _ d, UInt64.add_comm _ c, UInt64.add_comm a b, UInt64.add_assoc d, UInt64.add_assoc d,
      UInt64.add_assoc c]
  rw [expand, sha512Next, sigma1_eq, sigma0_eq, hsum]
  rfl

/-- **`calc`**, on the words of a chunk. -/
theorem calculate_eq (v : Words) (octets : List UInt8) :
    calculate v ((List.range 16).map fun i => UInt64.ofNat (beValue ((octets.drop (8 * i)).take 8))) =
      sha512Rounds v octets := by
  have hturn : turn = sha512Round := funext fun v => funext fun p => turn_eq v p
  have hexpand : expand = sha512Next := funext fun w => funext fun i => expand_eq w i
  rw [calculate, sha512Rounds, sha512Schedule, constant512_eq, hturn, hexpand]

end Sha512

end LibHpack
