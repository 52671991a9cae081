import Mathlib.Data.List.TakeWhile
import Mathlib.Data.Nat.Digits.Lemmas
import LibHpack.General.Writes
import LibHpack.Format.Standard
import LibHpack.Buffer.Contents

/-!
# LibHpack.Format.Estimate — the estimate and the text

`spare` is by how much the estimate of a list of directives exceeds their text, in terms of the arguments: a width is added
where it should be compared, one octet too many is counted for a number, and "%%" counts three.  A number that the estimate
takes for another one makes it negative: the low half of a `long`, and an `int` with its sign where the conversion is of an
`unsigned int`.
-/

namespace LibHpack

open Memory Run RawBuffer

/-! ### The length of a number -/

/-- The digits of a number. -/
def numLen (base n : ℕ) : ℕ := Nat.log base n + 1

/-- The digits of a number and its sign. -/
def intLen (base : ℕ) (v : ℤ) : ℕ := if v < 0 then numLen base v.natAbs + 1 else numLen base v.natAbs

section Numbers

variable {b k v width : ℕ} {z : ℤ} {sign body : List UInt8} {zero : Bool}

theorem lenLoop_eq (hb : 1 < b) (hv : v < b ^ k) (hk : 0 < k) : lenLoop b k v = numLen b v := by
  induction k generalizing v with
  | zero => omega
  | succ k ih =>
    rw [lenLoop, numLen]
    split_ifs with hdiv
    · have hle : b ≤ v := by
        by_contra hlt
        rw [Nat.div_eq_of_lt (Nat.lt_of_not_le hlt)] at hdiv
        exact absurd hdiv (lt_irrefl 0)
      have hv' : v / b < b ^ k := by
        rw [Nat.pow_succ'] at hv
        exact Nat.div_lt_of_lt_mul hv
      have hk' : 0 < k := by
        rcases Nat.eq_zero_or_pos k with rfl | hpos
        · rw [Nat.pow_zero] at hv'
          omega
        · exact hpos
      rw [ih hv' hk', numLen, Nat.log_of_one_lt_of_le hb hle]
    · have hlt : v < b := by
        by_contra hle
        exact hdiv (Nat.div_pos (Nat.le_of_not_lt hle) (by omega))
      rw [Nat.log_of_lt hlt]

theorem lenNum_eq (hb : 2 ≤ b) (hv : v < 2 ^ 64) : lenNum v b = numLen b v + 1 := by
  rw [lenNum, lenLoop_eq hb (hv.trans_le (Nat.pow_le_pow_left hb 64)) (by decide)]

theorem lenInt_eq (hb : 2 ≤ b) (x : ℤ) : lenInt (toInt x) b = intLen b (toInt x) + 1 := by
  obtain ⟨hlo, hhi⟩ := toInt_bounds x
  have habs : (toInt x).natAbs < 2 ^ 64 := by omega
  rw [lenInt, intLen, lenNum_eq hb habs]
  split_ifs <;> rfl

theorem digitsOf_length (hb : 2 ≤ b) (n : ℕ) : (digitsOf b n).length = numLen b n := by
  rw [digitsOf]
  split_ifs with hn
  · rw [hn, numLen, Nat.log_zero_right]
    rfl
  · rw [List.length_map, List.length_reverse, Nat.length_digits b n hb hn, numLen]

theorem padded_length : (padded zero width sign body).length = max width (sign ++ body).length := by
  rw [padded]
  cases zero <;> simp only [List.length_append, List.length_replicate, if_true, Bool.false_eq_true, if_false] <;> omega

end Numbers

/-! ### By how much the estimate is wrong -/

/-- The length of a number as it is taken by the estimate: an `int`, but for the `long` values of "%u". -/
def takenLen (k : NumberConversion) (m : Modifier) (x : ℤ) : ℕ :=
  if k = .u then numLen 10 (if m = .none then toSizeT (toInt x) else toSizeT x) else intLen k.base (toInt x)

/-- The length of its value. -/
def valueLen (k : NumberConversion) (m : Modifier) (x : ℤ) : ℕ :=
  if k = .d then intLen 10 (signedValue m x) else numLen k.base (unsignedValue m x)

section Spare

variable (wcrtomb : UInt32 → List UInt8)

/-- By how much the estimate exceeds a conversion that is not padded. -/
def Conversion.excess : Conversion → ℤ
  | str _ => 0
  | wideStr _ none => 0
  | wideStr _ (some s) => ((s.flatMap wideOctets).takeWhile (· ≠ 0)).length - ((s.takeWhile (· ≠ 0)).flatMap wcrtomb).length
  | char _ => 0
  | wideChar _ c => 1 - (wcrtomb c).length
  | number k m x => takenLen k m x + 1 - valueLen k m x
  | percent _ => 2

/-- With the padding: what is printed with a width of its own has counted twice. -/
def Directive.spare : Directive → ℤ
  | octet _ _ => 0
  | convert _ width c => min width (c.text wcrtomb).length + c.excess wcrtomb

/-- By how much the estimate exceeds the text, or else falls short of it. -/
def spare (ds : List Directive) : ℤ := (ds.map (Directive.spare wcrtomb)).sum

end Spare

/-! ### Reading the format -/

section Scan

variable (wcrtomb : UInt32 → List UInt8) {ap : List VaArg} {len w : UInt32} {lflag llflag : Bool} {c : UInt8}

theorem run_one {st st' : EstimateState} (h : estimateStep st c = .ok st') : run estimateStep st [c] = .ok st' := by
  rw [run_cons h, run_nil]

theorem run_modifier (m : Modifier) (ap : List VaArg) (len : UInt32) (cs : List UInt8) :
    run estimateStep ⟨.reswitch false false, ap, len⟩ (m.octets ++ cs) =
      run estimateStep ⟨.reswitch (decide (m ≠ .none)) (decide (m = .ll)), ap, len⟩ cs := by
  cases m <;> rfl

theorem numberText_length (k : NumberConversion) (m : Modifier) (x : ℤ) :
    ((numberText k m x).1 ++ (numberText k m x).2).length = valueLen k m x := by
  have hbase : 2 ≤ k.base := by cases k <;> decide
  rw [numberText, valueLen, intLen]
  split_ifs
  · rw [List.length_append, digitsOf_length (by decide), List.length_singleton, Nat.add_comm]
  · rw [List.nil_append, digitsOf_length (by decide)]
  · rw [List.nil_append, digitsOf_length hbase]

/-- What is counted for a number. -/
theorem run_number (k : NumberConversion) (m : Modifier) (x : ℤ) (ap : List VaArg) (len : UInt32) :
    estimateStep ⟨.reswitch (decide (m ≠ .none)) (decide (m = .ll)), .num x :: ap, len⟩ k.octet =
      .ok ⟨.literal, ap, len + .ofNat (takenLen k m x + 1)⟩ := by
  have hint : ∀ base, 2 ≤ base → estimateInt base (.num x :: ap) len =
      .ok ⟨.literal, ap, len + .ofNat (intLen base (toInt x) + 1)⟩ := by
    intro base hbase
    rw [← lenInt_eq hbase]
    rfl
  cases k with
  | d => exact hint 10 (by decide)
  | x => exact hint 16 (by decide)
  | o => exact hint 8 (by decide)
  | u =>
    have hul : ∀ y, lenNum (toSizeT y) 10 = numLen 10 (toSizeT y) + 1 := by
      intro y
      refine lenNum_eq (by decide) ?_
      rw [toSizeT]
      omega
    have hlong : toSizeT (toLong x) = toSizeT x := by
      rw [toSizeT, toSizeT, toLong, Int.bmod_def]
      split <;> omega
    cases m with
    | none =>
      change (.ok ⟨.literal, ap, len + .ofNat (lenNum (toSizeT (toInt x)) 10)⟩ : Except FormatFault EstimateState) = _
      rw [hul]
      rfl
    | l =>
      change (.ok ⟨.literal, ap, len + .ofNat (lenNum (toSizeT (toLong x)) 10)⟩ : Except FormatFault EstimateState) = _
      rw [hul, hlong]
      rfl
    | ll =>
      change (.ok ⟨.literal, ap, len + .ofNat (lenNum (toSizeT x) 10)⟩ : Except FormatFault EstimateState) = _
      rw [hul]
      rfl

/-- **A conversion** without a width. -/
theorem run_conversion (c : Conversion) (ap : List VaArg) (len : UInt32) :
    ∃ n : ℕ, (n : ℤ) = (c.text wcrtomb).length + c.excess wcrtomb ∧
      run estimateStep ⟨.reswitch false false, c.args ++ ap, len⟩ c.octets = .ok ⟨.literal, ap, len + .ofNat n⟩ := by
  cases c with
  | str p =>
    refine ⟨(pointed p).length, ?_, rfl⟩
    rw [Conversion.text, Conversion.excess, add_zero]
  | wideStr ll p =>
    refine ⟨(pointed (p.map (List.flatMap wideOctets))).length, ?_, ?_⟩
    · cases p with
      | none => rfl
      | some s =>
        rw [Conversion.text, Conversion.excess, add_sub_cancel]
        rfl
    · rw [Conversion.octets, run_modifier]
      rfl
  | char x => exact ⟨1, rfl, rfl⟩
  | wideChar ll c =>
    refine ⟨1, ?_, ?_⟩
    · rw [Conversion.text, Conversion.excess, add_sub_cancel]
      rfl
    · rw [Conversion.octets, run_modifier]
      rfl
  | number k m x =>
    refine ⟨takenLen k m x + 1, ?_, ?_⟩
    · rw [Conversion.text, Conversion.excess, numberText_length, add_sub_cancel]
      push_cast
      rfl
    · rw [Conversion.octets, run_modifier]
      exact run_one (run_number k m x ap len)
  | percent m =>
    refine ⟨3, rfl, ?_⟩
    rw [Conversion.octets, run_modifier]
    refine run_one ?_
    change (.ok ⟨.literal, ap, len + 1 + 2⟩ : Except FormatFault EstimateState) = _
    rw [UInt32.add_assoc]
    rfl

/-! ### The width -/

/-- A digit, where a width begins. -/
theorem run_first_digit : ∀ d < 10, d ≠ 0 → ∀ (ap : List VaArg) (len : UInt32),
    estimateStep ⟨.reswitch false false, ap, len⟩ (digitOctet d) = .ok ⟨.width (.ofNat d) false false, ap, len⟩ := by
  intro d hd h0 ap len
  interval_cases d
  · exact absurd rfl h0
  all_goals rfl

/-- A digit, where it goes on. -/
theorem run_next_digit : ∀ d < 10, ∀ (ap : List VaArg) (len : UInt32),
    estimateStep ⟨.width w false false, ap, len⟩ (digitOctet d) = .ok ⟨.width (w * 10 + .ofNat d) false false, ap, len⟩ := by
  intro d hd ap len
  have hsub : w * 10 + (digitOctet d).toUInt32 - 48 = w * 10 + .ofNat d := by
    have hcancel : (digitOctet d).toUInt32 - 48 = .ofNat d := by interval_cases d <;> rfl
    rw [← hcancel, UInt32.sub_eq_add_neg, UInt32.sub_eq_add_neg, UInt32.add_assoc]
  rw [← hsub]
  interval_cases d <;> rfl

/-- **A width** is read as what it says, modulo 2^32. -/
theorem run_width {n : ℕ} (hn : n ≠ 0) (ap : List VaArg) (len : UInt32) :
    run estimateStep ⟨.reswitch false false, ap, len⟩ (((Nat.digits 10 n).reverse).map digitOctet) =
      .ok ⟨.width (.ofNat n) false false, ap, len⟩ := by
  induction n using Nat.strong_induction_on with
  | _ n ih =>
    have hmod : n % 10 < 10 := Nat.mod_lt _ (by decide)
    rw [Nat.digits_def' (by decide) (Nat.pos_of_ne_zero hn), List.reverse_cons, List.map_append, List.map_singleton]
    by_cases hdiv : n / 10 = 0
    · have hlt : n < 10 := by omega
      rw [hdiv, Nat.digits_zero, Nat.mod_eq_of_lt hlt]
      exact run_one (run_first_digit n hlt hn ap len)
    · have hstep := run_next_digit (w := .ofNat (n / 10)) (n % 10) hmod ap len
      have hwidth : (UInt32.ofNat (n / 10)) * 10 + UInt32.ofNat (n % 10) = UInt32.ofNat n := by
        conv_rhs => rw [← Nat.div_add_mod' n 10]
        rw [UInt32.ofNat_add, UInt32.ofNat_mul]
        rfl
      rw [hwidth] at hstep
      rw [run_concat (ih (n / 10) (by omega) hdiv), hstep]

/-- What comes behind a width. -/
theorem step_behind_width (hc : ¬(48 ≤ c ∧ c ≤ 57)) :
    estimateStep ⟨.width w false false, ap, len⟩ c = estimateStep ⟨.reswitch false false, ap, len + w⟩ c := by
  rw [estimateStep, estimateStep]
  exact if_neg hc

theorem conversion_head (c : Conversion) : ∃ a cs, c.octets = a :: cs ∧ ¬(48 ≤ a ∧ a ≤ 57) := by
  cases c with
  | str p => exact ⟨_, _, rfl, by decide⟩
  | wideStr ll p => cases ll <;> exact ⟨_, _, rfl, by decide⟩
  | char x => exact ⟨_, _, rfl, by decide⟩
  | wideChar ll c => cases ll <;> exact ⟨_, _, rfl, by decide⟩
  | number k m x =>
    cases m with
    | none => exact ⟨k.octet, [], rfl, by cases k <;> decide⟩
    | l => exact ⟨_, _, rfl, by decide⟩
    | ll => exact ⟨_, _, rfl, by decide⟩
  | percent m => cases m <;> exact ⟨_, _, rfl, by decide⟩

theorem formatted_length (zero : Bool) (width : ℕ) (c : Conversion) :
    (c.formatted wcrtomb zero width).length = max width (c.text wcrtomb).length := by
  cases c <;> exact padded_length

/-- **A directive.** -/
theorem run_directive (d : Directive) (ap : List VaArg) (len : UInt32) :
    ∃ n : ℕ, (n : ℤ) = (d.formatted wcrtomb).length + d.spare wcrtomb ∧
      run estimateStep ⟨.literal, d.args ++ ap, len⟩ d.octets = .ok ⟨.literal, ap, len + .ofNat n⟩ := by
  cases d with
  | octet c hc =>
    refine ⟨1, rfl, run_one ?_⟩
    rw [estimateStep]
    exact if_neg hc.1
  | convert zero width c =>
    obtain ⟨n, hn, hrun⟩ := run_conversion wcrtomb c ap (len + .ofNat width)
    refine ⟨width + n, ?_, ?_⟩
    · rw [Directive.formatted, Directive.spare, formatted_length]
      push_cast
      omega
    · have hflag : run estimateStep ⟨.literal, c.args ++ ap, len⟩ (37 :: if zero then [48] else []) =
          .ok ⟨.reswitch false false, c.args ++ ap, len⟩ := by cases zero <;> rfl
      have hsum : len + UInt32.ofNat (width + n) = len + .ofNat width + .ofNat n := by
        rw [UInt32.ofNat_add, UInt32.add_assoc]
      rw [Directive.octets, Directive.args, ← List.cons_append, run_append hflag, hsum]
      by_cases hw : width = 0
      · rw [hw] at hrun ⊢
        rw [Nat.digits_zero]
        have h0 : len + UInt32.ofNat 0 = len := UInt32.add_zero len
        rw [h0] at hrun ⊢
        exact hrun
      · obtain ⟨a, cs, hcs, ha⟩ := conversion_head c
        rw [run_append (run_width hw _ _)]
        rw [hcs, run] at hrun ⊢
        rw [step_behind_width ha]
        exact hrun

/-- **The format**, from its beginning to its end. -/
theorem run_formatOf (ds : List Directive) (len : UInt32) :
    ∃ n : ℕ, (n : ℤ) = (formatted wcrtomb ds).length + spare wcrtomb ds ∧
      run estimateStep ⟨.literal, argsOf ds, len⟩ (formatOf ds) = .ok ⟨.literal, [], len + .ofNat n⟩ := by
  induction ds generalizing len with
  | nil => exact ⟨0, rfl, congrArg (fun n => Except.ok (EstimateState.mk .literal [] n)) (UInt32.add_zero len).symm⟩
  | cons d ds ih =>
    obtain ⟨n, hn, hd⟩ := run_directive wcrtomb d (argsOf ds) len
    obtain ⟨k, hk, hds⟩ := ih (len + .ofNat n)
    refine ⟨n + k, ?_, ?_⟩
    · rw [formatted, List.flatMap_cons, List.length_append, spare, List.map_cons, List.sum_cons, ← formatted, ← spare]
      push_cast
      omega
    · rw [formatOf, argsOf, List.flatMap_cons, List.flatMap_cons, ← formatOf, ← argsOf, run_append hd, UInt32.ofNat_add,
        ← UInt32.add_assoc]
      exact hds

theorem modifier_noNul (m : Modifier) : 0 ∉ m.octets := by cases m <;> decide

theorem conversion_noNul (c : Conversion) : 0 ∉ c.octets := by
  have hletter : ∀ (m : Modifier) (a : UInt8), a ≠ 0 → 0 ∉ m.octets ++ [a] := by
    intro m a ha
    rw [List.mem_append, List.mem_singleton, not_or]
    exact ⟨modifier_noNul m, ha.symm⟩
  cases c with
  | str p => exact hletter .none 115 (by decide)
  | wideStr ll p => exact hletter _ 115 (by decide)
  | char x => exact hletter .none 99 (by decide)
  | wideChar ll c => exact hletter _ 99 (by decide)
  | number k m x => exact hletter m k.octet (by cases k <;> decide)
  | percent m => exact hletter m 37 (by decide)

theorem digitOctet_ne_zero {d : ℕ} (hd : d < 10) : digitOctet d ≠ 0 := by
  interval_cases d <;> decide

theorem directive_noNul (d : Directive) : 0 ∉ d.octets := by
  cases d with
  | octet c hc => simpa [Directive.octets] using hc.2.symm
  | convert zero width c =>
    have hwidth : 0 ∉ ((Nat.digits 10 width).reverse).map digitOctet := by
      intro h0
      obtain ⟨d, hd, hzero⟩ := List.mem_map.1 h0
      exact digitOctet_ne_zero (Nat.digits_lt_base (by decide) (List.mem_reverse.1 hd)) hzero
    have hflag : 0 ∉ if zero then [(48 : UInt8)] else [] := by cases zero <;> decide
    rw [Directive.octets, List.mem_cons, List.mem_append, List.mem_append, not_or, not_or, not_or]
    exact ⟨by decide, hflag, hwidth, conversion_noNul c⟩

theorem toInt_emod (x : ℤ) : toInt (x % 2 ^ 32) = toInt x := Int.emod_bmod ..

/-- **The estimate**: the length of the text and what is to spare, with one octet more, as an `int`. -/
theorem estimate_eq (ds : List Directive) : chulaEstimateVaLength (formatOf ds) (argsOf ds) =
    .ok (toInt ((formatted wcrtomb ds).length + spare wcrtomb ds + 1)) := by
  have hnul : (formatOf ds).takeWhile (· ≠ 0) = formatOf ds := by
    rw [List.takeWhile_eq_self_iff]
    intro c hc
    obtain ⟨d, -, hd⟩ := List.mem_flatMap.1 hc
    rw [decide_eq_true_iff]
    rintro rfl
    exact directive_noNul d hd
  obtain ⟨n, hn, hrun⟩ := run_formatOf wcrtomb ds 0
  have hlen : ((0 + UInt32.ofNat n + 1).toNat : ℤ) = (n + 1) % 2 ^ 32 := by
    rw [UInt32.zero_add, ← UInt32.ofNat_one, ← UInt32.ofNat_add, UInt32.toNat_ofNat']
    push_cast
    rfl
  rw [chulaEstimateVaLength, hnul, ok_then hrun]
  dsimp only
  rw [if_pos rfl, hlen, toInt_emod, hn]

end Scan

/-! ### The call -/

section Call

variable {wcrtomb : UInt32 → List UInt8} {b : RawBuffer} {d : List UInt8} {ds : List Directive} {n : ℕ}

theorem ensureSize_size (b : RawBuffer) (hn : n < 2 ^ 32) : (b.chulaBufferEnsureSize n).size = max b.size n := by
  rw [RawBuffer.chulaBufferEnsureSize]
  split_ifs with hfit
  · exact (max_eq_left hfit).symm
  · rw [max_eq_right (by omega)]
    exact toUint32_cast hn

theorem toInt_le {x : ℤ} (hlo : 0 ≤ x) : toInt x ≤ x := by
  rw [toInt, Int.bmod_def]
  split <;> omega

/-- **Formatting** into a buffer: the text is appended where it is shorter than the free space is as an `int`. -/
theorem formatInto_iff (text : List UInt8) (h : b.Filled d) : (∃ b', formatInto b text = .ok (.ok, b') ∧ b'.Reads (d ++ text)) ↔
    (text.length : ℤ) < toInt (b.size - d.length) := by
  have hle := h.len_le
  have hlt := h.size_lt
  have hroom := toInt_le (x := b.size - d.length) (by omega)
  obtain ⟨-, hmax⟩ := toInt_bounds (b.size - d.length)
  rw [← h.reads.1] at hroom hmax ⊢
  constructor
  · rintro ⟨b', hok, -⟩
    rw [formatInto] at hok
    dsimp only at hok
    split_ifs at hok with hsize hneg hover
    · cases hok
    · obtain ⟨m, -, hok⟩ := ok_of_then hok
      cases hok
    · obtain ⟨m, -, hok⟩ := ok_of_then hok
      cases hok
    · rw [vsnprintfLen] at hneg hover
      split_ifs at hneg hover <;> omega
  · intro hfits
    have hlen := h.reads.1
    have hstore := @store_written _ b.cells b.len (text ++ [0])
      (by rw [List.length_append, List.length_singleton, h.size_eq]; omega)
    have htake : text.take ((toInt (b.size - b.len)).toNat - 1) = text := List.take_of_length_le (by omega)
    have hstored : (store b.cells b.len ((text.take ((toInt (b.size - b.len)).toNat - 1)).map some ++ [some 0])).mapError
        FormatFault.access = .ok (written b.cells b.len (text ++ [0])) := by
      rw [htake, ← List.map_singleton (f := some), ← List.map_append, hstore]
      rfl
    have hprint : vsnprintfLen text = text.length := if_pos (by omega)
    have hsum : toUint32 (b.len + text.length) = (d ++ text).length := by
      rw [List.length_append, ← hlen]
      exact toUint32_cast (n := b.len + text.length) (by omega)
    rw [formatInto]
    dsimp only
    rw [if_neg (by omega), ok_then hstored, hprint, if_neg (by omega), if_neg (by omega)]
    refine ⟨_, rfl, reads_of_cells ([some 0] ++ b.cells.drop (b.len + (text ++ [0]).length)) hsum ?_⟩
    rw [cells, Option.getD_some, written, h.reads.2, List.map_append, List.map_append, List.append_assoc, List.append_assoc,
      List.append_assoc]
    rfl

variable (wcrtomb b d ds) in
/-- What the call is to do: the estimate is at least the length of the text, and the text is appended by the first
`vsnprintf`. -/
def Estimated : Prop :=
  (∃ e, chulaEstimateVaLength (formatOf ds) (argsOf ds) = .ok e ∧ (formatted wcrtomb ds).length ≤ e) ∧
    ∃ b', chulaBufferAddVaList b (formatOf ds) (argsOf ds) (formatted wcrtomb ds) = .ok (.ok, b') ∧
      b'.Reads (d ++ formatted wcrtomb ds)

/-- **The estimate** is enough exactly where there is at least -1 to spare, as long as the lengths are values of `int`; and the
call needs the space. -/
theorem estimated_iff (h : b.Filled d) : Estimated wcrtomb b d ds ↔
    (formatted wcrtomb ds).length ≤ toInt ((formatted wcrtomb ds).length + spare wcrtomb ds + 1) ∧
    (formatted wcrtomb ds).length <
      toInt (max b.size (toUint32 (d.length + (formatted wcrtomb ds).length + spare wcrtomb ds + 3)) - d.length) := by
  have hestimate := estimate_eq wcrtomb ds
  set e := toInt ((formatted wcrtomb ds).length + spare wcrtomb ds + 1) with he
  have hwrap : toUint32 (b.len + e + 2) = toUint32 (d.length + (formatted wcrtomb ds).length + spare wcrtomb ds + 3) := by
    rw [he, h.reads.1, toUint32, toUint32, toInt, Int.bmod_def]
    split <;> omega
  have hlt : toUint32 (b.len + e + 2) < 2 ^ 32 := by
    rw [toUint32]
    omega
  have hcall : ¬e < 0 → ((∃ b', chulaBufferAddVaList b (formatOf ds) (argsOf ds) (formatted wcrtomb ds) = .ok (.ok, b') ∧
      b'.Reads (d ++ formatted wcrtomb ds)) ↔ (formatted wcrtomb ds).length <
      toInt (max b.size (toUint32 (d.length + (formatted wcrtomb ds).length + spare wcrtomb ds + 3)) - d.length)) := by
    intro hpos
    have hinto := formatInto_iff (formatted wcrtomb ds) (h.ensureSize hlt).1
    rw [ensureSize_size b hlt, hwrap] at hinto
    rw [chulaBufferAddVaList, ok_then hestimate, if_neg hpos, hwrap]
    exact hinto
  rw [Estimated, hestimate]
  constructor
  · rintro ⟨⟨e', he', hle⟩, hadd⟩
    cases he'
    exact ⟨hle, (hcall (by omega)).1 hadd⟩
  · rintro ⟨hle, hroom⟩
    exact ⟨⟨e, rfl, hle⟩, (hcall (by omega)).2 hroom⟩

/-- "%03d" of 7. -/
theorem estimated_iff_seven : Estimated (fun c => [c.toUInt8]) chulaBufInit [] [.convert true 3 (.number .d .none 7)] := by
  have hlog : numLen 10 7 = 1 := congrArg (· + 1) (Nat.log_of_lt (by decide))
  have hvalue : valueLen .d .none 7 = 1 := hlog
  have htaken : takenLen .d .none 7 = 1 := hlog
  have hlen : (formatted (fun c => [c.toUInt8]) [.convert true 3 (.number .d .none 7)]).length = 3 := by
    rw [formatted, List.flatMap_singleton, Directive.formatted, formatted_length, Conversion.text, numberText_length, hvalue]
    rfl
  have hspare : spare (fun c => [c.toUInt8]) [.convert true 3 (.number .d .none 7)] = 2 := by
    rw [spare, List.map_singleton, List.sum_singleton, Directive.spare, Conversion.text, Conversion.excess, numberText_length,
      htaken, hvalue]
    rfl
  refine (estimated_iff filled_null).2 ?_
  rw [hlen, hspare]
  decide

/-- "%x" of 0xffffffff: the estimate is 4. -/
theorem not_estimated_hex : ¬Estimated (fun c => [c.toUInt8]) chulaBufInit []
    [.convert false 0 (.number .x .none 4294967295)] := by
  rintro ⟨⟨e, hestimate, hle⟩, -⟩
  have hfour : chulaEstimateVaLength (formatOf [.convert false 0 (.number .x .none 4294967295)])
      (argsOf [.convert false 0 (.number .x .none 4294967295)]) = .ok 4 := by
    rw [formatOf, List.flatMap_singleton, Directive.octets, Nat.digits_zero]
    decide
  cases hfour.symm.trans hestimate
  have hvalue : valueLen .x .none 4294967295 = 8 := by
    have hx : unsignedValue .none 4294967295 = 4294967295 := by decide
    rw [valueLen, if_neg (by decide), hx, numLen, NumberConversion.base]
    norm_num
  rw [formatted, List.flatMap_singleton, Directive.formatted, formatted_length, Conversion.text, numberText_length, hvalue] at hle
  exact absurd hle (by decide)

end Call

end LibHpack
