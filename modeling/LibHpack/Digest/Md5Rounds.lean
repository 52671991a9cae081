import LibHpack.Digest.Md5

/-!
# LibHpack.Digest.Md5Rounds — the unrolled MD5 transform is the loop over four registers

`md5Round i` is turn `i` of the plain algorithm: the function, the word, the constant and the shift are functions of `i`, and
the registers move on by one place.  The code moves the names instead: before turn `i`, the registers are `md5View i`.
`Regular` says that a list of invocations is what the loop unrolls to.
-/

namespace LibHpack

/-- The functions of the four rounds, as the algorithm states them. -/
def md5Function (i : ℕ) (x y z : UInt32) : UInt32 :=
  match i / 16 with
  | 0 => (x &&& y) ||| (~~~x &&& z)
  | 1 => (x &&& z) ||| (y &&& ~~~z)
  | 2 => x ^^^ y ^^^ z
  | _ => y ^^^ (x ||| ~~~z)

/-- Which word turn `i` takes. -/
def md5WordIndex (i : ℕ) : ℕ :=
  match i / 16 with
  | 0 => i
  | 1 => (5 * i + 1) % 16
  | 2 => (3 * i + 5) % 16
  | _ => 7 * i % 16

/-- By how much turn `i` rotates. -/
def md5Shift (i : ℕ) : UInt32 :=
  match i / 16, i % 4 with
  | 0, 0 => 7 | 0, 1 => 12 | 0, 2 => 17 | 0, _ => 22
  | 1, 0 => 5 | 1, 1 => 9 | 1, 2 => 14 | 1, _ => 20
  | 2, 0 => 4 | 2, 1 => 11 | 2, 2 => 16 | 2, _ => 23
  | _, 0 => 6 | _, 1 => 10 | _, 2 => 15 | _, _ => 21

/-- The sines of 1 to 64, without their signs, as fractions of 2^32. -/
def md5Sines : List UInt32 :=
  [ 0xd76aa478, 0xe8c7b756, 0x242070db, 0xc1bdceee, 0xf57c0faf, 0x4787c62a, 0xa8304613, 0xfd469501,
    0x698098d8, 0x8b44f7af, 0xffff5bb1, 0x895cd7be, 0x6b901122, 0xfd987193, 0xa679438e, 0x49b40821,
    0xf61e2562, 0xc040b340, 0x265e5a51, 0xe9b6c7aa, 0xd62f105d, 0x02441453, 0xd8a1e681, 0xe7d3fbc8,
    0x21e1cde6, 0xc33707d6, 0xf4d50d87, 0x455a14ed, 0xa9e3e905, 0xfcefa3f8, 0x676f02d9, 0x8d2a4c8a,
    0xfffa3942, 0x8771f681, 0x6d9d6122, 0xfde5380c, 0xa4beea44, 0x4bdecfa9, 0xf6bb4b60, 0xbebfbc70,
    0x289b7ec6, 0xeaa127fa, 0xd4ef3085, 0x04881d05, 0xd9d4d039, 0xe6db99e5, 0x1fa27cf8, 0xc4ac5665,
    0xf4292244, 0x432aff97, 0xab9423a7, 0xfc93a039, 0x655b59c3, 0x8f0ccc92, 0xffeff47d, 0x85845dd1,
    0x6fa87e4f, 0xfe2ce6e0, 0xa3014314, 0x4e0811a1, 0xf7537e82, 0xbd3af235, 0x2ad7d2bb, 0xeb86d391]

/-- The constant of turn `i`. -/
def md5Constant (i : ℕ) : UInt32 := md5Sines.getD i 0

/-- The registers in front of the first chunk: the digits up and down, as octets. -/
def md5Registers : Md5Words :=
  let octets := [0x01, 0x23, 0x45, 0x67, 0x89, 0xab, 0xcd, 0xef, 0xfe, 0xdc, 0xba, 0x98, 0x76, 0x54, 0x32, 0x10]
  ⟨md5Word octets 0, md5Word octets 1, md5Word octets 2, md5Word octets 3⟩

theorem md5Iv_eq : md5Iv = md5Registers := by
  decide

def rotateLeft (x s : UInt32) : UInt32 := (x <<< s) ||| (x >>> (32 - s))

/-- Turn `i`. -/
def md5Round (inp : ℕ → UInt32) (v : Md5Words) (i : ℕ) : Md5Words :=
  let w := v.a + md5Function i v.b v.c v.d + inp (md5WordIndex i) + md5Constant i
  ⟨v.d, v.b + rotateLeft w (md5Shift i), v.b, v.c⟩

/-- The plain algorithm, on the sixteen words of a chunk. -/
def md5Rounds (buf : Md5Words) (octets : List UInt8) : Md5Words :=
  buf.add ((List.range 64).foldl (md5Round (md5Word octets)) buf)

/-! ### The names of the registers -/

namespace Md5Words

variable (v : Md5Words) (r s : Md5Reg) (x : UInt32)

@[simp] theorem get_set_self : (v.set r x).get r = x := by
  cases r <;> rfl

theorem get_set_ne (h : s ≠ r) : (v.set r x).get s = v.get s := by
  cases r <;> cases s <;> first | rfl | exact absurd rfl h

end Md5Words

/-- The names that turn `i` uses for the four registers. -/
def md5Names (i : ℕ) : Md5Reg × Md5Reg × Md5Reg × Md5Reg :=
  match i % 4 with
  | 0 => (.a, .b, .c, .d)
  | 1 => (.d, .a, .b, .c)
  | 2 => (.c, .d, .a, .b)
  | _ => (.b, .c, .d, .a)

/-- The registers in the order of the plain algorithm, before turn `i`. -/
def md5View (i : ℕ) (v : Md5Words) : Md5Words :=
  let (w, x, y, z) := md5Names i
  ⟨v.get w, v.get x, v.get y, v.get z⟩

/-- The function that is meant in turn `i`. -/
def md5RoundF (i : ℕ) : Md5F :=
  match i / 16 with
  | 0 => .f1
  | 1 => .f2
  | 2 => .f3
  | _ => .f4

/-- What turn `i` is unrolled to. -/
def Md5Step.Regular (st : Md5Step) (i : ℕ) : Prop :=
  st.f = md5RoundF i ∧ (st.w, st.x, st.y, st.z) = md5Names i ∧ st.i = md5WordIndex i ∧ st.k = md5Constant i ∧
    st.s = md5Shift i

instance (st : Md5Step) (i : ℕ) : Decidable (st.Regular i) := by
  unfold Md5Step.Regular
  infer_instance

theorem md5Steps_regular : ∀ p ∈ md5Steps.zipIdx, p.1.Regular p.2 := by
  decide +kernel

/-- The functions as they are computed are those that are meant. -/
theorem md5RoundF_eval (i : ℕ) (x y z : UInt32) : (md5RoundF i).eval x y z = md5Function i x y z := by
  have hbits : ∀ b c d : Bool, (d ^^ (b && (c ^^ d))) = (b && c || !b && d) := by decide
  have hbits' : ∀ b c d : Bool, (c ^^ (d && (b ^^ c))) = (b && d || c && !d) := by decide
  rw [md5RoundF, md5Function]
  split
  · apply UInt32.toBitVec_inj.1
    apply BitVec.eq_of_getElem_eq
    intro j hj
    simpa [Md5F.eval] using hbits _ _ _
  · apply UInt32.toBitVec_inj.1
    apply BitVec.eq_of_getElem_eq
    intro j hj
    simpa [Md5F.eval] using hbits' _ _ _
  · rfl
  · rfl

/-- **One turn**: the names move on instead of the registers. -/
theorem md5Step_view {st : Md5Step} {i : ℕ} (h : st.Regular i) (inp : ℕ → UInt32) (v : Md5Words) :
    md5View (i + 1) (st.exec inp v) = md5Round inp (md5View i v) i := by
  obtain ⟨hf, hnames, hi, hk, hs⟩ := h
  have hsum : ∀ a b c d : UInt32, a + (b + (c + d)) = a + b + c + d := fun a b c d => by
    rw [UInt32.add_assoc, UInt32.add_assoc]
  have hw : st.exec inp v = v.set st.w (v.get st.x + rotateLeft (v.get st.w +
      md5Function i (v.get st.x) (v.get st.y) (v.get st.z) + inp (md5WordIndex i) + md5Constant i) (md5Shift i)) := by
    rw [Md5Step.exec, hf, hi, hk, hs, md5RoundF_eval, hsum, rotateLeft, UInt32.add_comm (v.get st.x)]
  obtain ⟨w, x, y, z, hwxyz⟩ : ∃ w x y z, md5Names i = (w, x, y, z) := ⟨_, _, _, _, rfl⟩
  have hnext : md5Names (i + 1) = (z, w, x, y) ∧ z ≠ w ∧ x ≠ w ∧ y ≠ w := by
    have hmod : i % 4 = 0 ∨ i % 4 = 1 ∨ i % 4 = 2 ∨ i % 4 = 3 := by omega
    rcases hmod with h | h | h | h <;>
      (rw [md5Names, h] at hwxyz
       obtain ⟨rfl, rfl, rfl, rfl⟩ := by simpa using hwxyz
       rw [md5Names, Nat.add_mod, h]
       exact ⟨rfl, by decide, by decide, by decide⟩)
  obtain ⟨hnext, hzw, hxw, hyw⟩ := hnext
  rw [hwxyz] at hnames
  obtain ⟨rfl, rfl, rfl, rfl⟩ := by simpa using hnames
  rw [hw, md5View, hnext, md5View, hwxyz, md5Round]
  simp only [Md5Words.get_set_self, Md5Words.get_set_ne _ _ _ _ hzw, Md5Words.get_set_ne _ _ _ _ hxw,
    Md5Words.get_set_ne _ _ _ _ hyw]

/-- **Unrolling**, from turn `i` on. -/
theorem md5Steps_view (inp : ℕ → UInt32) : ∀ (steps : List Md5Step) (i : ℕ) (v : Md5Words),
    (∀ p ∈ steps.zipIdx i, p.1.Regular p.2) →
      md5View (i + steps.length) (steps.foldl (Md5Step.exec inp) v) =
        (List.range' i steps.length).foldl (md5Round inp) (md5View i v)
  | [], _, _, _ => rfl
  | st :: steps, i, v, h => by
    rw [List.zipIdx_cons, List.forall_mem_cons] at h
    have ih := md5Steps_view inp steps (i + 1) (st.exec inp v) h.2
    rw [List.foldl_cons, List.length_cons, List.range'_succ, List.foldl_cons, ← md5Step_view h.1, ← ih,
      Nat.add_assoc, Nat.add_comm 1]

/-- The unrolled transform is the plain loop of 64 turns, on every chunk. -/
theorem md5Transform_eq_rounds (buf : Md5Words) (octets : List UInt8) : md5Transform buf octets = md5Rounds buf octets := by
  have hview := md5Steps_view (md5Word octets) md5Steps 0 buf md5Steps_regular
  have h0 : ∀ v : Md5Words, md5View 0 v = v := fun _ => rfl
  have h64 : ∀ v : Md5Words, md5View (0 + md5Steps.length) v = v := fun _ => rfl
  rw [h0, h64] at hview
  rw [md5Transform, hview, md5Rounds, List.range_eq_range']
  rfl

end LibHpack
