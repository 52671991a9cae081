import LibHpack.General.Vlq
import LibHpack.Chula

/-!
# LibHpack.Integer — prefix integers (integer.c)

An integer starts in the `N` low bits of an octet; when these are all ones it goes on in a quantity of base 128.
`IntegerAt N mem v con` is that format, without any limit on the length.  The decoder accepts a part of it
(`hpackIntegerDecode_ok_iff`): values below 2^32, in at most `VLQ_MAX_LEN_INTEGER` = 6 octets (`SIZEOF_INT` is 4) and in
the octets said to be available, of which it only looks at the low eight bits of the number.
-/

namespace LibHpack

/-- `limits`. -/
def limits : List ℕ := [0, 1, 3, 7, 15, 31, 63, 127, 255]

/-- `limits[N]`. -/
def prefixLimit (N : ℕ) : ℕ := limits.getD N 0

/-- The loop of `hpack_integer_encode`; the fuel is the value, which it divides by 128 each time. -/
def integerEncodeLoop : ℕ → ℕ → List UInt8
  | 0, value => [UInt8.ofNat value]
  | fuel + 1, value =>
    if 128 ≤ value then UInt8.ofNat (128 + value % 128) :: integerEncodeLoop fuel (value / 128)
    else [UInt8.ofNat value]

/-- `hpack_integer_encode`: the octets it writes, given what the first one held.  `*mem_len` is their number. -/
def hpackIntegerEncode (N value : ℕ) (mem0 : UInt8) : List UInt8 :=
  let limit := prefixLimit N
  if value < limit then [(mem0 &&& ~~~UInt8.ofNat limit) ||| UInt8.ofNat value]
  else ((mem0 &&& ~~~UInt8.ofNat limit) ||| UInt8.ofNat limit) :: integerEncodeLoop (value - limit) (value - limit)

/-- The loop of `hpack_integer_decode`, with the number of octets it may still read as fuel. -/
def integerDecodeLoop (mem : ℕ → UInt8) : ℕ → ℕ → ℕ → ℕ → Option (ℕ × ℕ)
  | 0, _, _, _ => none
  | fuel + 1, i, M, decoded =>
    let decoded := (decoded + (mem i &&& 127).toNat * 2 ^ M) % 2 ^ 64
    if mem i &&& 128 ≠ 128 then
      if 2 ^ 32 - 1 < decoded then none else some (decoded, i + 1)
    else integerDecodeLoop mem fuel (i + 1) (M + 7) decoded

/-- `hpack_integer_decode`: the result, `*ret` and `*consumed`.  The available length is an `unsigned char`. -/
def hpackIntegerDecode (N : ℕ) (mem : ℕ → UInt8) (memLen consumed : ℕ) : Ret × ℕ × ℕ :=
  let memLen := memLen % 256
  let limit := prefixLimit N
  let ret := (mem 0).toNat &&& limit
  if ret < limit then (.ok, ret, 1)
  else
    match integerDecodeLoop mem (min memLen 6 - 1) 1 0 ret with
    | some (value, con) => (.ok, value, con)
    | none => (.error, ret, consumed)

/-- What each pass of the loop adds up in `decoded`, before it is cut to the 64 bits of an `unsigned long`. -/
def integerDecodeSums (mem : ℕ → UInt8) : ℕ → ℕ → ℕ → ℕ → List ℕ
  | 0, _, _, _ => []
  | fuel + 1, i, M, decoded =>
    let sum := decoded + (mem i &&& 127).toNat * 2 ^ M
    sum :: if mem i &&& 128 ≠ 128 then [] else integerDecodeSums mem fuel (i + 1) (M + 7) (sum % 2 ^ 64)

instance decidableDecoded (x : Ret × ℕ × ℕ) (P : ℕ → ℕ → Prop) [∀ v con, Decidable (P v con)] :
    Decidable (∀ v con, x = (.ok, v, con) → P v con) :=
  decidable_of_iff (x.1 = .ok → P x.2.1 x.2.2)
    ⟨fun h v con heq => by subst heq; exact h rfl, fun h hret => h _ _ (hret ▸ rfl)⟩

/-! ### The format -/

/-- `mem` holds the complete integer `v` with an `N`-bit prefix in its first `con` octets. -/
inductive IntegerAt (N : ℕ) (mem : ℕ → UInt8) : ℕ → ℕ → Prop
  | short (h : (mem 0).toNat &&& prefixLimit N < prefixLimit N) : IntegerAt N mem ((mem 0).toNat &&& prefixLimit N) 1
  | long {w n : ℕ} (h : ¬ (mem 0).toNat &&& prefixLimit N < prefixLimit N) (hw : Vlq mem 1 w n) :
      IntegerAt N mem (((mem 0).toNat &&& prefixLimit N) + w) (n + 1)

/-- The decoder gets as far as the end of an integer of `con` octets. -/
def Readable (memLen con : ℕ) : Prop := con = 1 ∨ con ≤ min (memLen % 256) 6

instance (memLen con : ℕ) : Decidable (Readable memLen con) := by unfold Readable; infer_instance

section Decode

variable {N : ℕ} {mem : ℕ → UInt8} {memLen con c v : ℕ}

theorem IntegerAt.pos (h : IntegerAt N mem v con) : 1 ≤ con := by
  cases h <;> omega

theorem IntegerAt.unique {w con' : ℕ} (h : IntegerAt N mem v con) (h' : IntegerAt N mem w con') :
    v = w ∧ con = con' := by
  cases h with
  | short hlt =>
    cases h' with
    | short _ => exact ⟨rfl, rfl⟩
    | long hge _ => exact absurd hlt hge
  | long hge hw =>
    cases h' with
    | short hlt => exact absurd hlt hge
    | long _ hw' =>
      obtain ⟨rfl, rfl⟩ := hw.unique hw'
      exact ⟨rfl, rfl⟩

/-- Only the octets of the integer matter. -/
theorem IntegerAt.congr {mem' : ℕ → UInt8} (h : IntegerAt N mem v con) (heq : ∀ j < con, mem' j = mem j) :
    IntegerAt N mem' v con := by
  cases h with
  | short hlt =>
    rw [← heq 0 (by omega)] at hlt ⊢
    exact .short hlt
  | @long w n hge hw =>
    rw [← heq 0 (by omega)] at hge ⊢
    exact .long hge (hw.congr fun j hj => heq (1 + j) (by omega))

theorem and_127 (b : UInt8) : (b &&& 127).toNat = b.toNat % 128 := by
  rw [UInt8.toNat_and]
  exact Nat.and_two_pow_sub_one_eq_mod b.toNat 7

theorem and_128_ne : ∀ b : UInt8, b &&& 128 ≠ 128 ↔ b.toNat < 128 := forall_octet (by decide +kernel)

/-- What the loop finds: the end of a quantity within its reach. -/
theorem integerDecodeLoop_eq_some {fuel i M d r e : ℕ} (hd : d < 2 ^ (M + 8)) (hM : M + 7 * fuel ≤ 50) :
    integerDecodeLoop mem fuel i M d = some (r, e) ↔
      ∃ w n, Vlq mem i w n ∧ n ≤ fuel ∧ r = d + w * 2 ^ M ∧ r < 2 ^ 32 ∧ e = i + n := by
  induction fuel generalizing i M d with
  | zero =>
    simp only [integerDecodeLoop, reduceCtorEq, false_iff]
    rintro ⟨w, n, hw, hn, -⟩
    have := hw.pos
    omega
  | succ fuel ih =>
    have hb := (mem i).toNat_lt
    have hpow : 2 ^ (M + 8) = 256 * 2 ^ M := by rw [pow_add]; omega
    have hpow' : 2 ^ (M + 7 + 8) = 32768 * 2 ^ M := by rw [pow_add, pow_add]; omega
    have hM50 : 2 ^ M ≤ 2 ^ 50 := Nat.pow_le_pow_right (by decide) (by omega)
    -- the accumulator does not wrap
    have hdigit : (mem i).toNat % 128 * 2 ^ M ≤ 127 * 2 ^ M := Nat.mul_le_mul_right _ (by omega)
    have hacc : (d + (mem i &&& 127).toNat * 2 ^ M) % 2 ^ 64 = d + (mem i).toNat % 128 * 2 ^ M := by
      rw [and_127]
      exact Nat.mod_eq_of_lt (by omega)
    simp only [integerDecodeLoop, hacc, and_128_ne]
    by_cases hlt : (mem i).toNat < 128
    · rw [if_pos hlt, Nat.mod_eq_of_lt hlt]
      constructor
      · intro h
        split_ifs at h with hbig
        cases h
        exact ⟨_, 1, .last hlt, by omega, rfl, by omega, rfl⟩
      · rintro ⟨w, n, hw, hn, rfl, hr, rfl⟩
        obtain ⟨rfl, rfl⟩ := hw.unique (.last hlt)
        rw [if_neg (by omega)]
    · rw [if_neg hlt, ih (by omega) (by omega)]
      have hmod : (mem i).toNat % 128 = (mem i).toNat - 128 := by omega
      have hval : ∀ w, d + (mem i).toNat % 128 * 2 ^ M + w * 2 ^ (M + 7) =
          d + ((mem i).toNat - 128 + 128 * w) * 2 ^ M := fun w => by rw [hmod, pow_add]; ring
      constructor
      · rintro ⟨w, n, hw, hn, rfl, hr, rfl⟩
        exact ⟨_, n + 1, .more (by omega) hw, by omega, hval w, hr, by omega⟩
      · rintro ⟨w, n, hw, hn, rfl, hr, rfl⟩
        cases hw with
        | last h => omega
        | @more _ w n _ hw => exact ⟨w, n, hw, by omega, (hval w).symm, hr, by omega⟩

theorem prefix_le (N : ℕ) (b : UInt8) : b.toNat &&& prefixLimit N ≤ b.toNat := Nat.and_le_left

/-- **The decoder**: it accepts the integers below 2^32 that it can read to their end. -/
theorem hpackIntegerDecode_ok_iff :
    hpackIntegerDecode N mem memLen c = (.ok, v, con) ↔
      IntegerAt N mem v con ∧ v < 2 ^ 32 ∧ Readable memLen con := by
  have hb := (mem 0).toNat_lt
  have hp := prefix_le N (mem 0)
  simp only [hpackIntegerDecode]
  by_cases hlt : (mem 0).toNat &&& prefixLimit N < prefixLimit N
  · rw [if_pos hlt]
    constructor
    · intro h
      cases h
      exact ⟨.short hlt, by omega, .inl rfl⟩
    · rintro ⟨h, -, -⟩
      obtain ⟨rfl, rfl⟩ := h.unique (.short hlt)
      rfl
  · rw [if_neg hlt]
    have hloop : ∀ r e, integerDecodeLoop mem (min (memLen % 256) 6 - 1) 1 0 ((mem 0).toNat &&& prefixLimit N) =
        some (r, e) ↔ _ := fun r e => integerDecodeLoop_eq_some
      (show (mem 0).toNat &&& prefixLimit N < 2 ^ (0 + 8) by omega)
      (show 0 + 7 * (min (memLen % 256) 6 - 1) ≤ 50 by omega)
    constructor
    · intro h
      cases hl : integerDecodeLoop mem (min (memLen % 256) 6 - 1) 1 0 ((mem 0).toNat &&& prefixLimit N) with
      | none => rw [hl] at h; cases h
      | some p =>
        obtain ⟨r, e⟩ := p
        rw [hl] at h
        cases h
        obtain ⟨w, n, hw, hn, rfl, hr, rfl⟩ := (hloop v con).mp hl
        have := hw.pos
        rw [Nat.add_comm 1 n, pow_zero, Nat.mul_one] at *
        exact ⟨.long hlt hw, hr, .inr (by omega)⟩
    · rintro ⟨h, hv, hread⟩
      cases h with
      | short h => exact absurd h hlt
      | @long w n _ hw =>
        have hpos := hw.pos
        rw [(hloop _ (n + 1)).mpr ⟨w, n, hw, by rcases hread with h | h <;> omega, by simp, hv, by omega⟩]

/-- Otherwise it fails, and `*consumed` is not touched. -/
theorem hpackIntegerDecode_error (h : ∀ v con, hpackIntegerDecode N mem memLen c ≠ (.ok, v, con)) :
    ∃ v, hpackIntegerDecode N mem memLen c = (.error, v, c) := by
  simp only [hpackIntegerDecode] at h ⊢
  split_ifs at h ⊢ with hlt
  · exact absurd rfl (h _ _)
  · cases hl : integerDecodeLoop mem (min (memLen % 256) 6 - 1) 1 0 ((mem 0).toNat &&& prefixLimit N) with
    | none => exact ⟨_, rfl⟩
    | some p => rw [hl] at h; exact absurd rfl (h p.1 p.2)

/-- The sums of the loop stay far below 2^64. -/
theorem integerDecodeSums_lt {fuel i M d : ℕ} (hd : d < 2 ^ (M + 8)) (hM : M + 7 * fuel ≤ 50) :
    ∀ s ∈ integerDecodeSums mem fuel i M d, s < 2 ^ 64 := by
  induction fuel generalizing i M d with
  | zero =>
    intro s hs
    exact absurd hs List.not_mem_nil
  | succ fuel ih =>
    have hb := (mem i).toNat_lt
    have hpow : 2 ^ (M + 8) = 256 * 2 ^ M := by rw [pow_add]; omega
    have hpow' : 2 ^ (M + 7 + 8) = 32768 * 2 ^ M := by rw [pow_add, pow_add]; omega
    have hM50 : 2 ^ M ≤ 2 ^ 50 := Nat.pow_le_pow_right (by decide) (by omega)
    have hdigit : (mem i &&& 127).toNat * 2 ^ M ≤ 127 * 2 ^ M := Nat.mul_le_mul_right _ (by rw [and_127]; omega)
    intro s hs
    rw [integerDecodeSums] at hs
    rcases List.mem_cons.mp hs with rfl | hs
    · omega
    · split_ifs at hs
      · exact absurd hs List.not_mem_nil
      · rw [Nat.mod_eq_of_lt (show d + (mem i &&& 127).toNat * 2 ^ M < 2 ^ 64 by omega)] at hs
        exact ih (by omega) (by omega) s hs

/-- Octet `i` is the first one behind the prefix with a clear top bit, within reach of the decoder. -/
def LastOctet (mem : ℕ → UInt8) (memLen i : ℕ) : Prop :=
  1 ≤ i ∧ i < min memLen 6 ∧ (mem i).toNat < 128 ∧ ∀ j, 1 ≤ j → j < i → 128 ≤ (mem j).toNat

/-- The prefix and the digits up to octet `i`. -/
def exactSum (N : ℕ) (mem : ℕ → UInt8) (i : ℕ) : ℕ :=
  (mem 0).toNat % 2 ^ N + ∑ j ∈ Finset.Icc 1 i, (mem j).toNat % 128 * 128 ^ (j - 1)

theorem prefixLimit_eq (hN : N ≤ 8) : prefixLimit N = 2 ^ N - 1 := by
  interval_cases N <;> decide

theorem and_prefixLimit (hN : N ≤ 8) (b : UInt8) : b.toNat &&& prefixLimit N = b.toNat % 2 ^ N := by
  rw [prefixLimit_eq hN, Nat.and_two_pow_sub_one_eq_mod]

/-- The integers the decoder can read to their end, octet by octet. -/
theorem integerAt_iff (hN : N ≤ 8) (hlen : memLen < 256) :
    IntegerAt N mem v con ∧ Readable memLen con ↔
      ((mem 0).toNat % 2 ^ N < 2 ^ N - 1 ∧ v = (mem 0).toNat % 2 ^ N ∧ con = 1) ∨
      (¬ (mem 0).toNat % 2 ^ N < 2 ^ N - 1 ∧ ∃ i, LastOctet mem memLen i ∧ v = exactSum N mem i ∧ con = i + 1) := by
  -- the digits, numbered from the first one or from the prefix
  have hsum : ∀ n, ∑ j ∈ Finset.range (n + 1), (mem (1 + j)).toNat % 128 * 128 ^ j =
      ∑ j ∈ Finset.Icc 1 (n + 1), (mem j).toNat % 128 * 128 ^ (j - 1) := by
    intro n
    induction n with
    | zero => rw [Finset.sum_range_one, Finset.Icc_self, Finset.sum_singleton]
    | succ n ih =>
      rw [Finset.sum_range_succ, ih, Finset.sum_Icc_succ_top (show 1 ≤ n + 1 + 1 by omega), Nat.add_comm 1 (n + 1),
        Nat.add_sub_cancel]
  constructor
  · rintro ⟨h, hread⟩
    cases h with
    | short hlt =>
      rw [and_prefixLimit hN, prefixLimit_eq hN] at hlt
      rw [and_prefixLimit hN]
      exact .inl ⟨hlt, rfl, rfl⟩
    | @long w n hge hw =>
      rw [and_prefixLimit hN, prefixLimit_eq hN] at hge
      obtain ⟨m, rfl⟩ : ∃ m, n = m + 1 := ⟨n - 1, by have := hw.pos; omega⟩
      obtain ⟨hlt, hrun, rfl⟩ := Vlq.iff_sum.mp hw
      refine .inr ⟨hge, m + 1, ⟨by omega, ?_, by rwa [Nat.add_comm m 1], fun j hj hjm => ?_⟩, ?_, rfl⟩
      · rcases hread with h | h <;> omega
      · have := hrun (j - 1) (by omega)
        rwa [show 1 + (j - 1) = j by omega] at this
      · rw [and_prefixLimit hN, hsum, exactSum]
  · rintro (⟨hlt, rfl, rfl⟩ | ⟨hge, i, ⟨hi, hmax, hlt, hrun⟩, rfl, rfl⟩)
    · rw [← and_prefixLimit hN, ← prefixLimit_eq hN] at *
      exact ⟨.short hlt, .inl rfl⟩
    · obtain ⟨m, rfl⟩ : ∃ m, i = m + 1 := ⟨i - 1, by omega⟩
      have hw : Vlq mem 1 _ (m + 1) := Vlq.iff_sum.mpr ⟨by rwa [Nat.add_comm 1 m],
        fun j hj => hrun (1 + j) (by omega) (by omega), rfl⟩
      rw [hsum] at hw
      rw [← and_prefixLimit hN, ← prefixLimit_eq hN] at hge
      rw [exactSum, ← and_prefixLimit hN]
      exact ⟨.long hge hw, .inr (by omega)⟩

theorem integerDecodeLoop_congr {mem' : ℕ → UInt8} {fuel i M d : ℕ}
    (heq : ∀ j, i ≤ j → j < i + fuel → mem' j = mem j) :
    integerDecodeLoop mem' fuel i M d = integerDecodeLoop mem fuel i M d := by
  induction fuel generalizing i M d with
  | zero => rfl
  | succ fuel ih =>
    rw [integerDecodeLoop, integerDecodeLoop, heq i le_rfl (by omega),
      ih fun j hj hlt => heq j (by omega) (by omega)]

/-- Nothing behind the available octets matters. -/
theorem hpackIntegerDecode_congr {mem' : ℕ → UInt8} (h0 : mem' 0 = mem 0)
    (heq : ∀ j < memLen % 256, mem' j = mem j) :
    hpackIntegerDecode N mem' memLen c = hpackIntegerDecode N mem memLen c := by
  simp only [hpackIntegerDecode, h0]
  rw [integerDecodeLoop_congr fun j _ hlt => heq j (by omega)]

/-- **The decoder, octet by octet.** -/
theorem integer_decode_exact (N memLen c : ℕ) (mem : ℕ → UInt8) (hN : 1 ≤ N ∧ N ≤ 8)
    (hlen : 1 ≤ memLen ∧ memLen ≤ 255) :
    ((hpackIntegerDecode N mem memLen c).1 = .ok ↔ (mem 0).toNat % 2 ^ N < 2 ^ N - 1 ∨
      ∃ i, LastOctet mem memLen i ∧ exactSum N mem i ≤ 2 ^ 32 - 1) ∧
    (∀ v con, hpackIntegerDecode N mem memLen c = (.ok, v, con) →
      ((mem 0).toNat % 2 ^ N < 2 ^ N - 1 ∧ v = (mem 0).toNat % 2 ^ N ∧ con = 1) ∨
      (¬ (mem 0).toNat % 2 ^ N < 2 ^ N - 1 ∧ ∃ i, LastOctet mem memLen i ∧ v = exactSum N mem i ∧ con = i + 1)) ∧
    ((hpackIntegerDecode N mem memLen c).1 ≠ .ok →
      (hpackIntegerDecode N mem memLen c).1 = .error ∧ (hpackIntegerDecode N mem memLen c).2.2 = c) ∧
    (∀ s ∈ integerDecodeSums mem (min (memLen % 256) 6 - 1) 1 0 ((mem 0).toNat &&& prefixLimit N), s < 2 ^ 64) ∧
    ∀ mem', (∀ j < memLen, mem' j = mem j) → hpackIntegerDecode N mem' memLen c = hpackIntegerDecode N mem memLen c := by
  have h256 : memLen < 256 := by omega
  have hpow : (mem 0).toNat % 2 ^ N < 2 ^ 32 := by
    have := Nat.mod_le (mem 0).toNat (2 ^ N)
    have := (mem 0).toNat_lt
    omega
  have hok : ∀ v con, hpackIntegerDecode N mem memLen c = (.ok, v, con) ↔ _ := fun v con => hpackIntegerDecode_ok_iff
  refine ⟨⟨?_, ?_⟩, ?_, ?_, ?_, ?_⟩
  · intro hret
    obtain ⟨hat, hv, hread⟩ := (hok _ _).mp (Prod.ext hret rfl)
    rcases (integerAt_iff hN.2 h256).mp ⟨hat, hread⟩ with ⟨hlt, -⟩ | ⟨-, i, hi, heq, -⟩
    · exact .inl hlt
    · exact .inr ⟨i, hi, by omega⟩
  · intro h
    by_cases hlt : (mem 0).toNat % 2 ^ N < 2 ^ N - 1
    · obtain ⟨hat, hread⟩ := (integerAt_iff hN.2 h256).mpr (.inl ⟨hlt, rfl, rfl⟩)
      rw [(hok _ _).mpr ⟨hat, hpow, hread⟩]
    · obtain ⟨i, hi, hle⟩ := h.resolve_left hlt
      obtain ⟨hat, hread⟩ := (integerAt_iff hN.2 h256).mpr (.inr ⟨hlt, i, hi, rfl, rfl⟩)
      rw [(hok _ _).mpr ⟨hat, by omega, hread⟩]
  · intro v con h
    obtain ⟨hat, -, hread⟩ := (hok v con).mp h
    exact (integerAt_iff hN.2 h256).mp ⟨hat, hread⟩
  · intro hret
    obtain ⟨v, h⟩ : ∃ v, hpackIntegerDecode N mem memLen c = (.error, v, c) := by
      apply hpackIntegerDecode_error
      intro v con h
      rw [h] at hret
      exact hret rfl
    rw [h]
    exact ⟨rfl, rfl⟩
  · have := prefix_le N (mem 0)
    have := (mem 0).toNat_lt
    exact integerDecodeSums_lt (show _ < 2 ^ (0 + 8) by omega) (by omega)
  · intro mem' heq
    exact hpackIntegerDecode_congr (heq 0 (by omega)) fun j hj => heq j (by omega)

theorem integer_decode_exact_1337 :
    (hpackIntegerDecode 5 (fun i => [31, 154, 10, 255].getD i 0) 3 0).1 = .ok :=
  (integer_decode_exact 5 3 0 (fun i => [31, 154, 10, 255].getD i 0) (by decide) (by decide)).1.mpr
    (.inr ⟨2, ⟨by decide, by decide, by decide, fun j hj hlt => by
      obtain rfl : j = 1 := by omega
      decide⟩, by decide⟩)

end Decode

/-! ### Encoding -/

section Encode

variable {mem : ℕ → UInt8}

/-- The quantity written by the loop. -/
theorem integerEncodeLoop_vlq {fuel value i : ℕ} (hfuel : value ≤ fuel)
    (h : ∀ j < (integerEncodeLoop fuel value).length, some (mem (i + j)) = (integerEncodeLoop fuel value)[j]?) :
    Vlq mem i value (integerEncodeLoop fuel value).length := by
  induction fuel generalizing value i with
  | zero =>
    obtain rfl := Nat.le_zero.mp hfuel
    have h0 := h 0 (by simp [integerEncodeLoop])
    have hm : mem i = 0 := by simpa [integerEncodeLoop] using h0
    have := Vlq.last (show (mem i).toNat < 128 by rw [hm]; decide)
    rwa [hm] at this
  | succ fuel ih =>
    by_cases hge : 128 ≤ value
    · simp only [integerEncodeLoop, if_pos hge, List.length_cons] at h ⊢
      have h0 : mem i = UInt8.ofNat (128 + value % 128) := by simpa using h 0 (by omega)
      have htail := ih (i := i + 1) (show value / 128 ≤ fuel by omega) fun j hj => by
        have := h (j + 1) (by omega)
        rwa [show i + (j + 1) = i + 1 + j by omega, List.getElem?_cons_succ] at this
      have hnat : (mem i).toNat = 128 + value % 128 := by
        rw [h0, UInt8.toNat_ofNat']
        omega
      have hmore := Vlq.more (by omega) htail
      rwa [hnat, show 128 + value % 128 - 128 + 128 * (value / 128) = value by omega] at hmore
    · simp only [integerEncodeLoop, if_neg hge, List.length_singleton] at h ⊢
      have h0 : mem i = UInt8.ofNat value := by simpa using h 0 (by omega)
      have hnat : (mem i).toNat = value := by
        rw [h0, UInt8.toNat_ofNat']
        omega
      have hlast := Vlq.last (show (mem i).toNat < 128 by omega)
      rwa [hnat] at hlast

theorem integerEncodeLoop_length {fuel value : ℕ} (h : value ≤ fuel) :
    (integerEncodeLoop fuel value).length = Nat.log 128 value + 1 := by
  induction fuel generalizing value with
  | zero =>
    obtain rfl := Nat.le_zero.mp h
    rw [Nat.log_zero_right]
    rfl
  | succ fuel ih =>
    by_cases hge : 128 ≤ value
    · simp only [integerEncodeLoop, if_pos hge, List.length_cons]
      rw [ih (by omega), Nat.log_of_one_lt_of_le (by decide) hge]
    · simp only [integerEncodeLoop, if_neg hge, List.length_singleton]
      rw [Nat.log_of_lt (not_le.mp hge)]

/-- The first octet keeps its high bits and gets `v` as its prefix. -/
theorem prefix_octet {N v : ℕ} (b : UInt8) (hN : N ≤ 8) (hv : v ≤ prefixLimit N) :
    ((b &&& ~~~UInt8.ofNat (prefixLimit N)) ||| UInt8.ofNat v).toNat &&& prefixLimit N = v := by
  have hlim : prefixLimit N = 2 ^ N - 1 ∧ 2 ^ N ≤ 256 := by
    interval_cases N <;> decide
  have hlt : prefixLimit N < 256 := by omega
  have hself : (UInt8.ofNat (prefixLimit N)).toNat = prefixLimit N := by
    rw [UInt8.toNat_ofNat']
    omega
  have hpos := Nat.two_pow_pos N
  -- the high bits and the prefix do not meet
  have hzero : (b &&& ~~~UInt8.ofNat (prefixLimit N)).toNat &&& prefixLimit N = 0 := by
    have := congrArg UInt8.toNat (show (b &&& ~~~UInt8.ofNat (prefixLimit N)) &&& UInt8.ofNat (prefixLimit N) = 0 by
      rw [UInt8.and_assoc, UInt8.not_and_self, UInt8.and_zero])
    rwa [UInt8.toNat_and, hself] at this
  rw [UInt8.toNat_or, Nat.and_or_distrib_right, hzero, Nat.zero_or, UInt8.toNat_ofNat', hlim.1,
    Nat.and_two_pow_sub_one_eq_mod, Nat.mod_eq_of_lt (a := v) (by omega), Nat.mod_eq_of_lt (by omega)]

/-- **What the encoder writes is the integer**, whatever follows it. -/
theorem hpackIntegerEncode_integerAt {N value : ℕ} {mem0 : UInt8} (hN : N ≤ 8)
    (h : ∀ j < (hpackIntegerEncode N value mem0).length, some (mem j) = (hpackIntegerEncode N value mem0)[j]?) :
    IntegerAt N mem value (hpackIntegerEncode N value mem0).length := by
  by_cases hlt : value < prefixLimit N
  · simp only [hpackIntegerEncode, if_pos hlt, List.length_singleton] at h ⊢
    have h0 := Option.some.inj (h 0 (by decide))
    have hpre := prefix_octet mem0 hN hlt.le
    rw [← h0] at hpre
    have hshort := IntegerAt.short (show (mem 0).toNat &&& prefixLimit N < prefixLimit N by omega)
    rwa [hpre] at hshort
  · simp only [hpackIntegerEncode, if_neg hlt, List.length_cons] at h ⊢
    have h0 := Option.some.inj (h 0 (by omega))
    have hpre := prefix_octet mem0 hN (le_refl (prefixLimit N))
    rw [← h0] at hpre
    have hw : Vlq mem 1 _ _ := integerEncodeLoop_vlq (le_refl (value - prefixLimit N)) fun j hj => by
      have := h (j + 1) (by omega)
      rwa [Nat.add_comm j 1, Nat.add_comm 1 j, List.getElem?_cons_succ, Nat.add_comm j 1] at this
    have hlong := IntegerAt.long (N := N) (by omega) hw
    rwa [hpre, Nat.add_sub_cancel' (by omega)] at hlong

/-- How many octets an integer takes. -/
def integerLength (N value : ℕ) : ℕ := if value < prefixLimit N then 1 else Nat.log 128 (value - prefixLimit N) + 2

theorem hpackIntegerEncode_length (N value : ℕ) (mem0 : UInt8) :
    (hpackIntegerEncode N value mem0).length = integerLength N value := by
  by_cases hlt : value < prefixLimit N
  · simp only [hpackIntegerEncode, integerLength, if_pos hlt, List.length_singleton]
  · simp only [hpackIntegerEncode, integerLength, if_neg hlt, List.length_cons, integerEncodeLoop_length le_rfl]

/-- `VLQ_MAX_LEN_INTEGER` octets are enough. -/
theorem integerLength_le {value : ℕ} (N : ℕ) (h : value < 2 ^ 32) : integerLength N value ≤ 6 := by
  have hlog : Nat.log 128 (value - prefixLimit N) ≤ Nat.log 128 (2 ^ 32) := Nat.log_mono_right (by omega)
  have hmax : Nat.log 128 (2 ^ 32) < 5 := Nat.log_lt_of_lt_pow (by decide) (by norm_num)
  rw [integerLength]
  split_ifs
  · decide
  · omega

/-- The bits of an octet outside of the prefix. -/
theorem high_octet {N v : ℕ} (b : UInt8) (hN : N ≤ 8) (hv : v ≤ prefixLimit N) :
    ((b &&& ~~~UInt8.ofNat (prefixLimit N)) ||| UInt8.ofNat v) &&& ~~~UInt8.ofNat (prefixLimit N) =
      b &&& ~~~UInt8.ofNat (prefixLimit N) := by
  have hlow : UInt8.ofNat v &&& UInt8.ofNat (prefixLimit N) = UInt8.ofNat v := by
    have hlim : prefixLimit N = 2 ^ N - 1 ∧ 2 ^ N ≤ 256 := by
      interval_cases N <;> decide
    have hpos := Nat.two_pow_pos N
    rw [hlim.1] at hv ⊢
    rw [← UInt8.ofNat_and, Nat.and_two_pow_sub_one_eq_mod, Nat.mod_eq_of_lt (by omega)]
  have hzero : UInt8.ofNat v &&& ~~~UInt8.ofNat (prefixLimit N) = 0 := by
    rw [← hlow, UInt8.and_assoc, UInt8.and_not_self, UInt8.and_zero]
  apply UInt8.toNat_inj.mp
  rw [UInt8.toNat_and, UInt8.toNat_or, Nat.and_or_distrib_right, ← UInt8.toNat_and, ← UInt8.toNat_and, hzero,
    UInt8.and_assoc, UInt8.and_self]
  exact Nat.or_zero _

/-- The encoder leaves them as they are. -/
theorem hpackIntegerEncode_high {N : ℕ} (value : ℕ) (mem0 : UInt8) (hN : N ≤ 8) :
    ∃ b, (hpackIntegerEncode N value mem0)[0]? = some b ∧
      b &&& ~~~UInt8.ofNat (prefixLimit N) = mem0 &&& ~~~UInt8.ofNat (prefixLimit N) := by
  by_cases hlt : value < prefixLimit N
  · simp only [hpackIntegerEncode, if_pos hlt]
    exact ⟨_, rfl, high_octet mem0 hN hlt.le⟩
  · simp only [hpackIntegerEncode, if_neg hlt]
    exact ⟨_, rfl, high_octet mem0 hN le_rfl⟩

/-- **An integer that is encoded is decoded again**, whatever the first octet held and whatever follows. -/
theorem integer_round_trip (N value : ℕ) (hN : 1 ≤ N ∧ N ≤ 8) (hvalue : value < 2 ^ 32) (mem0 : UInt8) :
    (hpackIntegerEncode N value mem0).length ≤ 6 ∧
    (∃ b, (hpackIntegerEncode N value mem0)[0]? = some b ∧ b &&& ~~~UInt8.ofNat (2 ^ N - 1) =
      mem0 &&& ~~~UInt8.ofNat (2 ^ N - 1)) ∧
    ∀ (after : ℕ → UInt8) (memLen consumed : ℕ), (hpackIntegerEncode N value mem0).length ≤ memLen → memLen ≤ 255 →
      hpackIntegerDecode N (fun i => (hpackIntegerEncode N value mem0).getD i (after i)) memLen consumed =
        (.ok, value, (hpackIntegerEncode N value mem0).length) := by
  have hlimit : prefixLimit N = 2 ^ N - 1 := by
    obtain ⟨-, h8⟩ := hN
    interval_cases N <;> decide
  have hlen : (hpackIntegerEncode N value mem0).length ≤ 6 := by
    rw [hpackIntegerEncode_length]
    exact integerLength_le N hvalue
  refine ⟨hlen, ?_, fun after memLen consumed hle h255 => ?_⟩
  · rw [← hlimit]
    exact hpackIntegerEncode_high value mem0 hN.2
  · apply hpackIntegerDecode_ok_iff.mpr
    refine ⟨hpackIntegerEncode_integerAt hN.2 fun j hj => ?_, hvalue, .inr ?_⟩
    · rw [List.getD_eq_getElem?_getD, List.getElem?_eq_getElem hj, Option.getD_some]
    · rw [Nat.mod_eq_of_lt (by omega)]
      exact le_min hle hlen

theorem integer_round_trip_max :
    hpackIntegerDecode 1 (fun i => (hpackIntegerEncode 1 4294967295 0xAA).getD i 0xFF) 6 0 = (.ok, 4294967295, 6) := by
  obtain ⟨-, -, hdec⟩ := integer_round_trip 1 4294967295 (by decide) (by decide) 0xAA
  have hlen : (hpackIntegerEncode 1 4294967295 0xAA).length = 6 := by decide
  rw [hlen] at hdec
  exact hdec (fun _ => 0xFF) 6 0 le_rfl (by decide)

end Encode

end LibHpack
