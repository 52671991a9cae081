import LibHpack.Format.Estimate
import LibHpack.Buffer.Hex

/-!
# LibHpack.Buffer.Numbers — numbers in a buffer (libchula buffer.c)

The six functions fill the array `szOutBuf` from its end to the front and copy what is in it as a string.  They differ in the
type of the number, in the digits and in the sign; what they append is what `printf` makes of the number.
-/

namespace LibHpack

open Memory Run RawBuffer

/-- "Convert number to string": one digit a turn, from the end to the front.  `--i` of 0 is the largest `size_t`. -/
def digitsLoop (digit : ℕ → UInt8) (rest : ℕ → ℕ) : ℕ → ℕ → Block UInt8 → Except Escape (ℕ × Block UInt8)
  | 0, _, m => .error ⟨2 ^ 64, m.length⟩
  | i + 1, ulNum, m => do
    let m ← store m i [some (digit ulNum)]
    if rest ulNum ≠ 0 then digitsLoop digit rest i (rest ulNum) m else .ok (i, m)

/-- "Set sign in any case", and step behind it again when the number is not negative. -/
def setSign (flgNeg : Bool) : ℕ × Block UInt8 → Except Escape (ℕ × Block UInt8)
  | (0, m) => .error ⟨2 ^ 64, m.length⟩
  | (i + 1, m) => do
    let m ← store m i [some 45]
    .ok (if flgNeg then i else i + 1, m)

/-- What `strcpy` reads: the octets before the NUL. -/
def cString : Block UInt8 → Except Escape (List UInt8)
  | some c :: m => if c = 0 then .ok [] else (cString m).map (c :: ·)
  | _ => .error ⟨1, 0⟩

/-- `realloc_new_bufsize`; `REALLOC_EXTRA_SIZE` is 16. -/
def RawBuffer.reallocNewBufsize (b : RawBuffer) (newsize : ℕ) : RawBuffer :=
  let newsize := toSizeT (newsize + (16 + 1))
  b.realloc newsize (toInt newsize)

/-- "Verify free space in buffer", and "copy including '\0'". -/
def addDigits (buf : RawBuffer) (i : ℕ) (szOutBuf : Block UInt8) : Except Escape RawBuffer := do
  let newlen := toInt (buf.len + toInt (toSizeT (63 - i)))
  let buf := if buf.size ≤ toUint32 newlen then buf.reallocNewBufsize (toSizeT newlen) else buf
  let txt ← cString (szOutBuf.drop i)
  let buf ← buf.copyIn buf.len ((txt ++ [0]).map some)
  return { buf with len := toUint32 newlen }

/-- What the six functions have in common; `IOS_NUMBUF` is 64. -/
def addNumber (digit : ℕ → UInt8) (rest : ℕ → ℕ) (sign : Option Bool) (buf : RawBuffer) (ulNum : ℕ) :
    Except Escape RawBuffer := do
  let m ← store (List.replicate 64 none) 63 [some 0]
  let (i, m) ← digitsLoop digit rest 63 ulNum m
  let (i, m) ← match sign with
    | some flgNeg => setSign flgNeg (i, m)
    | none => .ok (i, m)
  addDigits buf i m

/-- `(ulNum % 10) + '0'`. -/
def decimalDigit (ulNum : ℕ) : UInt8 := .ofNat (ulNum % 10 + 48)

/-- `TO_HEX (ulNum & 0xF)`. -/
def hexDigit (ulNum : ℕ) : UInt8 := toHex (.ofNat (ulNum &&& 0xf))

/-- `chula_buffer_add_long10`. -/
def chulaBufferAddLong10 (buf : RawBuffer) (lNum : Int32) : Except Escape RawBuffer :=
  let ulNum := toUint32 lNum.toInt
  if lNum.toInt < 0 then addNumber decimalDigit (· / 10) (some true) buf (toUint32 (-ulNum))
  else addNumber decimalDigit (· / 10) (some false) buf ulNum

/-- `chula_buffer_add_llong10`. -/
def chulaBufferAddLlong10 (buf : RawBuffer) (lNum : Int64) : Except Escape RawBuffer :=
  let ulNum := toSizeT lNum.toInt
  if lNum.toInt < 0 then addNumber decimalDigit (· / 10) (some true) buf (toSizeT (-ulNum))
  else addNumber decimalDigit (· / 10) (some false) buf ulNum

/-- `chula_buffer_add_ulong10`. -/
def chulaBufferAddUlong10 (buf : RawBuffer) (ulNum : UInt32) : Except Escape RawBuffer :=
  addNumber decimalDigit (· / 10) none buf ulNum.toNat

/-- `chula_buffer_add_ullong10`. -/
def chulaBufferAddUllong10 (buf : RawBuffer) (ulNum : UInt64) : Except Escape RawBuffer :=
  addNumber decimalDigit (· / 10) none buf ulNum.toNat

/-- `chula_buffer_add_ulong16`. -/
def chulaBufferAddUlong16 (buf : RawBuffer) (ulNum : UInt32) : Except Escape RawBuffer :=
  addNumber hexDigit (· >>> 4) none buf ulNum.toNat

/-- `chula_buffer_add_ullong16`. -/
def chulaBufferAddUllong16 (buf : RawBuffer) (ulNum : UInt64) : Except Escape RawBuffer :=
  addNumber hexDigit (· >>> 4) none buf ulNum.toNat

/-! ### Digits -/

section Digits

variable {base n i : ℕ} {digit : ℕ → UInt8} {rest : ℕ → ℕ}

theorem digitsOf_small (hb : 2 ≤ base) (hn : n / base = 0) : digitsOf base n = [digitOctet (n % base)] := by
  have hlt : n < base := by
    by_contra hle
    exact absurd hn (Nat.div_pos (Nat.le_of_not_lt hle) (by omega)).ne'
  rw [Nat.mod_eq_of_lt hlt, digitsOf]
  split_ifs with h0
  · rw [h0]
    rfl
  · rw [Nat.digits_of_lt base n h0 hlt]
    rfl

/-- The last digit, and those before it. -/
theorem digitsOf_div (hb : 2 ≤ base) (hn : n / base ≠ 0) :
    digitsOf base n = digitsOf base (n / base) ++ [digitOctet (n % base)] := by
  have hpos : 0 < n := by
    rcases Nat.eq_zero_or_pos n with rfl | h
    · simp at hn
    · exact h
  rw [digitsOf, if_neg hpos.ne', digitsOf, if_neg hn, Nat.digits_def' hb hpos, List.reverse_cons, List.map_append]
  rfl

theorem digitsOf_noNul (hb : 2 ≤ base) (h16 : base ≤ 16) (n : ℕ) : 0 ∉ digitsOf base n := by
  have hoctet : ∀ d < 16, digitOctet d ≠ 0 := by decide
  rw [digitsOf]
  split_ifs with h0
  · decide
  · intro h
    obtain ⟨d, hd, hzero⟩ := List.mem_map.1 h
    exact hoctet d ((Nat.digits_lt_base hb (List.mem_reverse.1 hd)).trans_le h16) hzero

/-- The digits of a base, as a function makes them. -/
structure MakesDigits (base : ℕ) (digit : ℕ → UInt8) (rest : ℕ → ℕ) : Prop where
  base_ge : 10 ≤ base
  base_le : base ≤ 16
  digit : ∀ n, digit n = digitOctet (n % base)
  rest : ∀ n, rest n = n / base

theorem makesDigits_decimal : MakesDigits 10 decimalDigit (· / 10) where
  base_ge := le_rfl
  base_le := by decide
  digit n := by
    have h : ∀ d < 10, UInt8.ofNat (d + 48) = digitOctet d := by decide
    exact h _ (Nat.mod_lt n (by decide))
  rest _ := rfl

theorem makesDigits_hex : MakesDigits 16 hexDigit (· >>> 4) where
  base_ge := by decide
  base_le := le_rfl
  digit n := by
    have h : ∀ d < 16, toHex (.ofNat d) = digitOctet d := by decide
    rw [hexDigit, Nat.and_two_pow_sub_one_eq_mod n 4]
    exact h _ (Nat.mod_lt n (by decide))
  rest n := Nat.shiftRight_eq_div_pow n 4

theorem MakesDigits.two_le (hd : MakesDigits base digit rest) : 2 ≤ base := le_trans (by decide) hd.base_ge

/-- A number of 64 bits has at most 20 digits. -/
theorem MakesDigits.length_le (hd : MakesDigits base digit rest) (hn : n < 2 ^ 64) : (digitsOf base n).length ≤ 20 := by
  have hpow : 2 ^ 64 ≤ base ^ 20 := le_trans (by norm_num) (Nat.pow_le_pow_left hd.base_ge 20)
  rw [digitsOf_length hd.two_le, numLen]
  exact Nat.log_lt_of_lt_pow' (by decide) (hn.trans_le hpow)

/-- **The loop** leaves the digits of the number at the end of what was free. -/
theorem digitsLoop_eq (hd : MakesDigits base digit rest) :
    ∀ (n : ℕ) (p q : Block UInt8), (digitsOf base n).length ≤ p.length →
      ∃ p' r, p = p' ++ r ∧ r.length = (digitsOf base n).length ∧ digitsLoop digit rest p.length n (p ++ q) =
        .ok (p'.length, p' ++ (digitsOf base n).map some ++ q) := by
  intro n
  induction n using Nat.strong_induction_on with
  | _ n ih =>
    intro p q hlen
    have hstore : ∀ (p : Block UInt8) (t : Option UInt8),
        store (p ++ [t] ++ q) p.length [some (digit n)] = .ok (p ++ [some (digit n)] ++ q) :=
      fun p t => store_append (m := [t]) q rfl
    by_cases hzero : n / base = 0
    · rw [digitsOf_small hd.two_le hzero] at hlen ⊢
      obtain ⟨p', t, rfl⟩ : ∃ p' t, p = p' ++ [t] := by
        rcases List.eq_nil_or_concat' p with rfl | ⟨p', t, rfl⟩
        · simp at hlen
        · exact ⟨p', t, rfl⟩
      refine ⟨p', [t], rfl, rfl, ?_⟩
      rw [List.length_append, List.length_singleton, digitsLoop, ok_then (hstore p' t), hd.rest, hzero, if_neg (by simp),
        hd.digit]
      rfl
    · have hlt : n / base < n := Nat.div_lt_self (Nat.pos_of_ne_zero fun h => hzero (by rw [h, Nat.zero_div])) hd.two_le
      rw [digitsOf_div hd.two_le hzero] at hlen ⊢
      rw [List.length_append, List.length_singleton] at hlen
      obtain ⟨p₁, t, rfl⟩ : ∃ p₁ t, p = p₁ ++ [t] := by
        rcases List.eq_nil_or_concat' p with rfl | ⟨p₁, t, rfl⟩
        · simp at hlen
        · exact ⟨p₁, t, rfl⟩
      rw [List.length_append, List.length_singleton] at hlen
      obtain ⟨p', r, rfl, hr, hloop⟩ := ih (n / base) hlt p₁ ([some (digit n)] ++ q) (by omega)
      refine ⟨p', r ++ [t], by rw [List.append_assoc], by simp [hr], ?_⟩
      rw [List.length_append, List.length_singleton, digitsLoop, ok_then (hstore (p' ++ r) t), hd.rest, if_pos hzero, List.append_assoc _ _ q, hloop, hd.digit,
        List.map_append, List.map_singleton, ← List.append_assoc, ← List.append_assoc]

end Digits

/-! ### Appending -/

section Append

variable {base n : ℕ} {digit : ℕ → UInt8} {rest : ℕ → ℕ} {b : RawBuffer} {s txt : List UInt8}

/-- The call has appended a text, with a NUL behind it. -/
def Appends (x : Except Escape RawBuffer) (s txt : List UInt8) : Prop :=
  ∃ b', x = .ok b' ∧ b'.Filled (s ++ txt) ∧ b'.Terminated

theorem cString_text {txt : List UInt8} (h : 0 ∉ txt) (m : Block UInt8) : cString (txt.map some ++ some 0 :: m) = .ok txt := by
  induction txt with
  | nil => rfl
  | cons c txt ih =>
    obtain ⟨hc, htxt⟩ := not_or.1 (mt List.mem_cons.2 h)
    rw [List.map_cons, List.cons_append, cString, if_neg (Ne.symm hc), ih htxt]
    rfl

/-- A text with a NUL, written behind the string. -/
theorem RawBuffer.Filled.string (h : b.Filled s) (hfits : s.length + txt.length < b.size) :
    ∃ m, store b.cells b.len ((txt ++ [0]).map some) = .ok m ∧
      (⟨some m, b.size, (s ++ txt).length⟩ : RawBuffer).Filled (s ++ txt) ∧
      (⟨some m, b.size, (s ++ txt).length⟩ : RawBuffer).Terminated := by
  refine ⟨written b.cells b.len (txt ++ [0]), store_written ?_, ?_⟩
  · rw [h.reads.1, h.size_eq, List.length_append, List.length_singleton]
    omega
  have hcells : written b.cells b.len (txt ++ [0]) =
      (s ++ txt).map some ++ some 0 :: b.cells.drop (b.len + (txt ++ [0]).length) := by
    rw [written, h.reads.2, List.map_append, List.map_append, List.append_assoc, List.append_assoc, List.append_assoc]
    rfl
  rw [hcells]
  refine filled_text ?_ h.size_lt
  rw [List.length_drop, h.size_eq, h.reads.1, List.length_append, List.length_append, List.length_singleton]
  omega

theorem addDigits_appends (h : b.Filled s) (hlt : s.length + 21 < 2 ^ 31) (htxt : txt.length ≤ 21) (hnul : 0 ∉ txt)
    {p : Block UInt8} (hp : p.length + txt.length = 63) :
    Appends (addDigits b p.length (p ++ txt.map some ++ [some 0])) s txt := by
  have hlen := h.reads.1
  have hnewlen : toInt (b.len + toInt (toSizeT (63 - p.length))) = s.length + txt.length := by
    have hsub : toSizeT (63 - p.length) = txt.length := by
      rw [toSizeT]
      omega
    rw [hsub, toInt_of (x := txt.length) (by omega) (by omega), toInt_of (by omega) (by omega), hlen]
  have hstring : cString ((p ++ txt.map some ++ [some 0]).drop p.length) = .ok txt := by
    rw [List.append_assoc, List.drop_left]
    exact cString_text hnul []
  have hle := h.len_le
  have hsize := h.size_lt
  -- the buffer with room for the text and the NUL
  have hroom : ∃ b₁, (if b.size ≤ toUint32 (s.length + txt.length) then
      b.reallocNewBufsize (toSizeT (s.length + txt.length)) else b) = b₁ ∧ b₁.Filled s ∧
        s.length + txt.length < b₁.size := by
    have h32 : toUint32 (s.length + txt.length) = s.length + txt.length := toUint32_cast (n := s.length + txt.length) (by omega)
    have h64 : toSizeT (s.length + txt.length) = s.length + txt.length := toSizeT_cast (n := s.length + txt.length) (by omega)
    rw [h32, h64]
    split_ifs with hgrow
    · refine ⟨_, rfl, ?_⟩
      have hnew : toSizeT ((s.length + txt.length : ℕ) + (16 + 1)) = s.length + txt.length + 17 := by
        rw [toSizeT]
        omega
      rw [RawBuffer.reallocNewBufsize, hnew]
      have hint : toUint32 (toInt (s.length + txt.length + 17 : ℕ)) = s.length + txt.length + 17 := by
        rw [toUint32, toInt, Int.bmod_def]
        split <;> omega
      obtain ⟨hreads, hcells⟩ := h.reads.realloc (s.length + txt.length + 17) (by omega) (toInt (s.length + txt.length + 17 : ℕ))
      refine ⟨⟨hreads, ?_, ?_, fun _ => ?_⟩, ?_⟩
      · rw [hcells]
        simp only [RawBuffer.realloc, hint]
      all_goals
        simp only [RawBuffer.realloc, hint]
        omega
    · exact ⟨b, rfl, h, by omega⟩
  obtain ⟨b₁, hb₁, h₁, hfits⟩ := hroom
  obtain ⟨m, hstore, hf, ht⟩ := h₁.string hfits
  have hcopy : b₁.copyIn b₁.len ((txt ++ [0]).map some) = .ok { b₁ with buf := some m } := by
    rw [copyIn, ok_then hstore]
    rfl
  have hsum : toUint32 (s.length + txt.length) = (s ++ txt).length := by
    rw [List.length_append]
    exact toUint32_cast (n := s.length + txt.length) (by omega)
  refine ⟨_, ?_, hf, ht⟩
  rw [addDigits, hnewlen, hb₁, ok_then hstring, ok_then hcopy, hsum]
  rfl

/-- **A number**, behind any string: its sign, if there is one, and its digits. -/
theorem addNumber_appends (hd : MakesDigits base digit rest) (h : b.Filled s) (hlt : s.length + 21 < 2 ^ 31)
    (hn : n < 2 ^ 64) (sign : Option Bool) :
    Appends (addNumber digit rest sign b n) s ((if sign = some true then [45] else []) ++ digitsOf base n) := by
  have hdigits := hd.length_le hn
  have hnul := digitsOf_noNul hd.two_le hd.base_le n
  obtain ⟨p', r, hp, hr, hloop⟩ := digitsLoop_eq hd n (List.replicate 63 none) [some 0]
    (by rw [List.length_replicate]; omega)
  have hlen := congrArg List.length hp
  rw [List.length_replicate, List.length_append, hr] at hlen
  rw [List.length_replicate] at hloop
  have hstore : store (List.replicate 64 none) 63 [some (0 : UInt8)] = .ok (List.replicate 63 none ++ [some 0]) := rfl
  rw [addNumber, ok_then hstore, ok_then hloop]
  cases sign with
  | none =>
    rw [if_neg (by simp), List.nil_append]
    exact addDigits_appends h hlt (by omega) hnul (by omega)
  | some flgNeg =>
    -- the sign is written in any case
    obtain ⟨p₁, t, rfl⟩ : ∃ p₁ t, p' = p₁ ++ [t] := by
      rcases List.eq_nil_or_concat' p' with rfl | ⟨p₁, t, rfl⟩
      · simp at hlen
        omega
      · exact ⟨p₁, t, rfl⟩
    rw [List.length_append, List.length_singleton] at hlen ⊢
    have hsign : store (p₁ ++ [t] ++ (digitsOf base n).map some ++ [some 0]) p₁.length [some (45 : UInt8)] =
        .ok (p₁ ++ [some 45] ++ ((digitsOf base n).map some ++ [some 0])) := by
      rw [List.append_assoc (p₁ ++ [t])]
      exact store_append (m := [t]) _ rfl
    have hset : setSign flgNeg (p₁.length + 1, p₁ ++ [t] ++ (digitsOf base n).map some ++ [some 0]) = .ok
        (if flgNeg then p₁.length else p₁.length + 1, p₁ ++ [some 45] ++ ((digitsOf base n).map some ++ [some 0])) := by
      rw [setSign, ok_then hsign]
    dsimp only
    rw [ok_then hset]
    cases flgNeg with
    | true =>
      have hadd : Appends (addDigits b p₁.length (p₁ ++ (45 :: digitsOf base n).map some ++ [some 0])) s _ :=
        addDigits_appends h hlt (by rw [List.length_cons]; omega) (by simpa using hnul) (by rw [List.length_cons]; omega)
      simpa using hadd
    | false =>
      have hadd := addDigits_appends h hlt (by omega) hnul (p := p₁ ++ [some 45]) (by simp; omega)
      simpa using hadd

end Append

/-! ### What `printf` makes of a number -/

section Printf

variable {b : RawBuffer} {s : List UInt8}

/-- The text of a conversion with a modifier, no flag and no width. -/
def printfNumber (k : NumberConversion) (m : Modifier) (x : ℤ) : List UInt8 := (numberText k m x).1 ++ (numberText k m x).2

theorem formatted_number (wcrtomb : UInt32 → List UInt8) (k : NumberConversion) (m : Modifier) (x : ℤ) :
    formatted wcrtomb [.convert false 0 (.number k m x)] = printfNumber k m x := by
  rw [formatted, List.flatMap_singleton, Directive.formatted, Conversion.formatted, padded, if_neg (by simp), Nat.zero_sub]
  rfl

/-- "%d" and "%lld". -/
theorem printfNumber_d {m : Modifier} {x : ℤ} (hx : signedValue m x = x) :
    printfNumber .d m x = (if x < 0 then [45] else []) ++ digitsOf 10 x.natAbs := by
  rw [printfNumber, numberText, if_pos rfl, hx]

/-- "%u" and "%x". -/
theorem printfNumber_unsigned {k : NumberConversion} {m : Modifier} {n : ℕ} (hk : k ≠ .d) (hn : unsignedValue m n = n) :
    printfNumber k m n = digitsOf k.base n := by
  rw [printfNumber, numberText, if_neg hk, hn, List.nil_append]

/-- A signed number, by its two's complement. -/
theorem addSigned_appends (h : b.Filled s) (hlt : s.length + 21 < 2 ^ 31) {x : ℤ} {m : Modifier} {wrap : ℤ → ℕ}
    (hx : signedValue m x = x) (hpos : 0 ≤ x → wrap x = x.natAbs) (hneg : x < 0 → wrap (-wrap x) = x.natAbs)
    (habs : x.natAbs < 2 ^ 64) :
    Appends (if x < 0 then addNumber decimalDigit (· / 10) (some true) b (wrap (-wrap x))
      else addNumber decimalDigit (· / 10) (some false) b (wrap x)) s (printfNumber .d m x) := by
  rw [printfNumber_d hx]
  split_ifs with hsign
  · rw [hneg hsign]
    exact addNumber_appends makesDigits_decimal h hlt habs (some true)
  · rw [hpos (by omega)]
    exact addNumber_appends makesDigits_decimal h hlt habs (some false)

theorem addLlong10_appends (h : b.Filled s) (hlt : s.length + 21 < 2 ^ 31) (l : Int64) :
    Appends (chulaBufferAddLlong10 b l) s ((if l.toInt < 0 then [45] else []) ++ digitsOf 10 l.toInt.natAbs) := by
  have hlo := l.le_toInt
  have hhi := l.toInt_lt
  have hx : signedValue .ll l.toInt = l.toInt := Int.bmod_eq_of_le (by omega) (by omega)
  rw [← printfNumber_d hx]
  refine addSigned_appends h hlt hx ?_ ?_ (by omega) <;> intro _ <;> simp only [toSizeT] <;> omega

/-- **Numbers.**  What each of the six functions appends, to any string, is what `printf` makes of the number with "%d", "%lld",
"%u", "%llu", "%x" and "%llx". -/
theorem numbers_formatted (wcrtomb : UInt32 → List UInt8) (h : b.Filled s) (hlt : s.length + 21 < 2 ^ 31) :
    (∀ l : Int32, Appends (chulaBufferAddLong10 b l) s (formatted wcrtomb [.convert false 0 (.number .d .none l.toInt)])) ∧
    (∀ l : Int64, Appends (chulaBufferAddLlong10 b l) s (formatted wcrtomb [.convert false 0 (.number .d .ll l.toInt)])) ∧
    (∀ u : UInt32, Appends (chulaBufferAddUlong10 b u) s (formatted wcrtomb [.convert false 0 (.number .u .none u.toNat)])) ∧
    (∀ u : UInt64, Appends (chulaBufferAddUllong10 b u) s (formatted wcrtomb [.convert false 0 (.number .u .ll u.toNat)])) ∧
    (∀ u : UInt32, Appends (chulaBufferAddUlong16 b u) s (formatted wcrtomb [.convert false 0 (.number .x .none u.toNat)])) ∧
    ∀ u : UInt64, Appends (chulaBufferAddUllong16 b u) s (formatted wcrtomb [.convert false 0 (.number .x .ll u.toNat)]) := by
  simp only [formatted_number]
  refine ⟨fun l => ?_, fun l => ?_, fun u => ?_, fun u => ?_, fun u => ?_, fun u => ?_⟩
  · have hlo := l.le_toInt
    have hhi := l.toInt_lt
    refine addSigned_appends h hlt (toInt_of hlo hhi) ?_ ?_ (by omega) <;> intro _ <;> simp only [toUint32] <;> omega
  · have hlo := l.le_toInt
    have hhi := l.toInt_lt
    have hx : signedValue .ll l.toInt = l.toInt := Int.bmod_eq_of_le (by omega) (by omega)
    rw [printfNumber_d hx]
    exact addLlong10_appends h hlt l
  · have hu := u.toNat_lt
    rw [printfNumber_unsigned (k := .u) (m := .none) (by decide) (toUint32_cast hu)]
    exact addNumber_appends makesDigits_decimal h hlt (by omega) none
  · rw [printfNumber_unsigned (k := .u) (m := .ll) (by decide) (toSizeT_cast u.toNat_lt)]
    exact addNumber_appends makesDigits_decimal h hlt u.toNat_lt none
  · have hu := u.toNat_lt
    rw [printfNumber_unsigned (k := .x) (m := .none) (by decide) (toUint32_cast hu)]
    exact addNumber_appends makesDigits_hex h hlt (by omega) none
  · rw [printfNumber_unsigned (k := .x) (m := .ll) (by decide) (toSizeT_cast u.toNat_lt)]
    exact addNumber_appends makesDigits_hex h hlt u.toNat_lt none

/-- The least `int32_t`. -/
theorem numbers_formatted_least : Appends (chulaBufferAddLong10 chulaBufInit Int32.minValue) []
    (formatted (fun c => [c.toUInt8]) [.convert false 0 (.number .d .none Int32.minValue.toInt)]) :=
  (numbers_formatted (fun c => [c.toUInt8]) filled_null (by decide)).1 Int32.minValue

end Printf

end LibHpack
