import LibHpack.Buffer.Numbers

/-!
# LibHpack.Buffer.Parsing — numbers and times from text (libchula util.c)

`chula_atol` and the calls over it take what `strtol` makes of the beginning of a string.  What the number functions of a
buffer have written comes back, also with a unit of time behind it.  `chula_atoi` stores a `long` in an `int` and does not look
whether it fits.
-/

namespace LibHpack

open Memory Run RawBuffer

/-- `isspace`, of the C locale. -/
def isspace (c : UInt8) : Bool := c = 32 ∨ (9 ≤ c ∧ c ≤ 13)

def isdigit (c : UInt8) : Bool := 48 ≤ c ∧ c ≤ 57

/-- The number of some decimal digits. -/
def decimalValue (ds : List UInt8) : ℕ := ds.foldl (fun n c => 10 * n + (c.toNat - 48)) 0

/-- What `strtol` reports: the value, whether `errno` is `ERANGE`, and how far `endptr` is behind the string. -/
structure Strtol where
  value : ℤ
  erange : Bool
  endptr : ℕ
  deriving DecidableEq, Repr

/-- `strtol (str, &endptr, 10)`. -/
def strtol (str : List UInt8) : Strtol :=
  let spaces := (str.takeWhile isspace).length
  let sign := ((str.drop spaces).take 1).takeWhile fun c => c = 43 ∨ c = 45
  let digits := (str.drop (spaces + sign.length)).takeWhile isdigit
  if digits = [] then ⟨0, false, 0⟩
  else
    let value : ℤ := if sign = [45] then -decimalValue digits else decimalValue digits
    if value < -2 ^ 63 then ⟨-2 ^ 63, true, spaces + sign.length + digits.length⟩
    else if 2 ^ 63 ≤ value then ⟨2 ^ 63 - 1, true, spaces + sign.length + digits.length⟩
    else ⟨value, false, spaces + sign.length + digits.length⟩

/-- `chula_atol`: the code and what is stored at `ret_value`. -/
def chulaAtol (str : Option (List UInt8)) : Ret × Option ℤ :=
  match str with
  | none => (.error, none)
  | some str =>
    let tmp := strtol str
    if tmp.erange then (.error, none)
    else if tmp.endptr = 0 then (.error, none)
    else (.ok, some tmp.value)

/-- `chula_atoi`, where `tmp` is an `int`. -/
def chulaAtoi (str : Option (List UInt8)) : Ret × Option ℤ :=
  match str with
  | none => (.error, none)
  | some str =>
    let tmp := strtol str
    if tmp.erange then (.error, none)
    else if tmp.endptr = 0 then (.error, none)
    else (.ok, some (toInt tmp.value))

/-- `chula_atob`. -/
def chulaAtob (str : Option (List UInt8)) : Ret × Option Bool :=
  match str with
  | none => (.error, none)
  | some str =>
    match chulaAtoi (some str) with
    | (.ok, some tmp) => (.ok, some (tmp ≠ 0))
    | (ret, _) => (ret, none)

/-- The unit of a time. -/
def timeUnit (c : UInt8) : ℤ :=
  if c = 115 then 1
  else if c = 109 then 60
  else if c = 104 then 60 * 60
  else if c = 100 then 60 * 60 * 24
  else if c = 119 then 60 * 60 * 24 * 7
  else 1

/-- `chula_eval_formated_time`, of a buffer with the octets `buf`: it returns a `ret_t`, which is an `int`. -/
def chulaEvalFormatedTime (buf : List UInt8) : ℤ :=
  match buf.getLast? with
  | none => 0
  | some c =>
    match chulaAtol (some (buf.takeWhile (· ≠ 0))) with
    | (.ok, some val) => toInt (toLong (val * timeUnit c))
    | (ret, _) => ret.code

/-! ### What was written -/

section ReadBack

variable {n : ℕ} {x : ℤ} {rest : List UInt8}

theorem isdigit_digitOctet : ∀ d < 10, isdigit (digitOctet d) = true := by decide

theorem toNat_digitOctet : ∀ d < 10, (digitOctet d).toNat - 48 = d := by decide

/-- The digits of a number are digits, at least one, and their number is that number. -/
theorem digitsOf_read (n : ℕ) : digitsOf 10 n ≠ [] ∧ (∀ c ∈ digitsOf 10 n, isdigit c = true) ∧
    decimalValue (digitsOf 10 n) = n := by
  induction n using Nat.strong_induction_on with
  | _ n ih =>
    have hmod : n % 10 < 10 := Nat.mod_lt n (by decide)
    by_cases hzero : n / 10 = 0
    · rw [digitsOf_small (by decide) hzero]
      refine ⟨List.cons_ne_nil _ _, fun c hc => ?_, ?_⟩
      · rw [List.mem_singleton.1 hc]
        exact isdigit_digitOctet _ hmod
      · rw [decimalValue, List.foldl_cons, List.foldl_nil, toNat_digitOctet _ hmod]
        omega
    · obtain ⟨-, hdigit, hvalue⟩ := ih (n / 10) (by omega)
      rw [digitsOf_div (by decide) hzero]
      refine ⟨by simp, fun c hc => ?_, ?_⟩
      · obtain hc | hc := List.mem_append.1 hc
        · exact hdigit c hc
        · rw [List.mem_singleton.1 hc]
          exact isdigit_digitOctet _ hmod
      · rw [decimalValue, List.foldl_append, ← decimalValue, hvalue, List.foldl_cons, List.foldl_nil,
          toNat_digitOctet _ hmod]
        omega

/-- The digits end where there is no further one. -/
theorem takeWhile_digits (hrest : ∀ c ∈ rest.head?, isdigit c = false) :
    (digitsOf 10 n ++ rest).takeWhile isdigit = digitsOf 10 n := by
  rw [List.takeWhile_append_of_pos (digitsOf_read n).2.1]
  cases rest with
  | nil => rw [List.takeWhile_nil, List.append_nil]
  | cons c rest =>
    rw [List.takeWhile_cons_of_neg (by rw [hrest c rfl]; exact Bool.false_ne_true), List.append_nil]

/-- The first octet of a number is its sign or a digit. -/
theorem digit_noSpace : ∀ c : UInt8, isdigit c = true → isspace c = false ∧ c ≠ 43 ∧ c ≠ 45 :=
  forall_octet (by decide +kernel)

/-- **A number**, and text behind it that does not go on with a digit. -/
theorem strtol_number (hlo : -2 ^ 63 ≤ x) (hhi : x < 2 ^ 63) (hrest : ∀ c ∈ rest.head?, isdigit c = false) :
    (strtol ((if x < 0 then [45] else []) ++ digitsOf 10 x.natAbs ++ rest)).value = x ∧
      (strtol ((if x < 0 then [45] else []) ++ digitsOf 10 x.natAbs ++ rest)).erange = false ∧
      (strtol ((if x < 0 then [45] else []) ++ digitsOf 10 x.natAbs ++ rest)).endptr ≠ 0 := by
  obtain ⟨hne, hdigit, hvalue⟩ := digitsOf_read x.natAbs
  have htake := takeWhile_digits (n := x.natAbs) hrest
  obtain ⟨d, ds, hds⟩ := List.exists_cons_of_ne_nil hne
  obtain ⟨hspace, hplus, hminus⟩ := digit_noSpace d (hdigit d (by rw [hds]; exact List.mem_cons_self))
  have hlen : (digitsOf 10 x.natAbs).length ≠ 0 := by
    rw [hds]
    exact Nat.succ_ne_zero _
  split_ifs with hsign
  · have hs : ([45] ++ digitsOf 10 x.natAbs ++ rest).takeWhile isspace = [] := rfl
    have hsg : ((([45] ++ digitsOf 10 x.natAbs ++ rest).drop 0).take 1).takeWhile (fun c => c = 43 ∨ c = 45) = [45] := rfl
    have hdg : (([45] ++ digitsOf 10 x.natAbs ++ rest).drop 1).takeWhile isdigit = digitsOf 10 x.natAbs := htake
    rw [strtol]
    simp only [hs, List.length_nil, hsg, List.length_singleton, Nat.zero_add, hdg, if_neg hne, if_true, hvalue]
    rw [if_neg (by omega), if_neg (by omega)]
    exact ⟨by simp only; omega, rfl, by simp only; omega⟩
  · have hs : ([] ++ digitsOf 10 x.natAbs ++ rest).takeWhile isspace = [] := by
      rw [hds, List.nil_append, List.cons_append, List.takeWhile_cons_of_neg (by rw [hspace]; exact Bool.false_ne_true)]
    have hsg : ((([] ++ digitsOf 10 x.natAbs ++ rest).drop 0).take 1).takeWhile (fun c => c = 43 ∨ c = 45) = [] := by
      rw [hds, List.nil_append, List.drop_zero, List.cons_append, List.take_succ_cons, List.take_zero]
      exact List.takeWhile_cons_of_neg (by simp [hplus, hminus])
    have hdg : (([] ++ digitsOf 10 x.natAbs ++ rest).drop 0).takeWhile isdigit = digitsOf 10 x.natAbs := htake
    rw [strtol]
    simp only [hs, List.length_nil, hsg, Nat.zero_add, hdg, if_neg hne, hvalue]
    rw [if_neg (show ¬([] : List UInt8) = [45] by simp), if_neg (by omega), if_neg (by omega)]
    exact ⟨by simp only; omega, rfl, by simp only; omega⟩

theorem chulaAtol_number (rest : List UInt8) (hlo : -2 ^ 63 ≤ x) (hhi : x < 2 ^ 63) (hrest : ∀ c ∈ rest.head?, isdigit c = false) :
    chulaAtol (some ((if x < 0 then [45] else []) ++ digitsOf 10 x.natAbs ++ rest)) = (.ok, some x) ∧
      chulaAtoi (some ((if x < 0 then [45] else []) ++ digitsOf 10 x.natAbs ++ rest)) = (.ok, some (toInt x)) := by
  obtain ⟨hvalue, herange, hend⟩ := strtol_number hlo hhi hrest
  refine ⟨?_, ?_⟩
  · rw [chulaAtol]
    simp only [herange, Bool.false_eq_true, if_false, if_neg hend, hvalue]
  · rw [chulaAtoi]
    simp only [herange, Bool.false_eq_true, if_false, if_neg hend, hvalue]

/-- A number with a unit of time behind it. -/
theorem evalFormatedTime_number {c : UInt8} (hc : c ∈ ([115, 109, 104, 100, 119] : List UInt8)) (hlo : -2 ^ 63 ≤ x) (hhi : x < 2 ^ 63)
    (hfit : -2 ^ 31 ≤ x * timeUnit c ∧ x * timeUnit c < 2 ^ 31) :
    chulaEvalFormatedTime ((if x < 0 then [45] else []) ++ digitsOf 10 x.natAbs ++ [c]) = x * timeUnit c := by
  obtain ⟨hnul, hdigit⟩ : c ≠ 0 ∧ isdigit c = false := by
    simp only [List.mem_cons, List.not_mem_nil, or_false] at hc
    obtain rfl | rfl | rfl | rfl | rfl := hc <;> decide
  have hstring : 0 ∉ (if x < 0 then [(45 : UInt8)] else []) ++ digitsOf 10 x.natAbs ++ [c] := by
    have hsign : 0 ∉ if x < 0 then [(45 : UInt8)] else [] := by split_ifs <;> decide
    have hdigits : 0 ∉ digitsOf 10 x.natAbs := digitsOf_noNul (by decide) (by decide) _
    rw [List.mem_append, List.mem_append, List.mem_singleton, not_or, not_or]
    exact ⟨⟨hsign, hdigits⟩, Ne.symm hnul⟩
  have hwhole := (List.takeWhile_eq_self_iff (p := fun c : UInt8 => decide (c ≠ 0))).2 fun d hd =>
    decide_eq_true (fun h0 : d = 0 => hstring (h0 ▸ hd))
  have hnumber := (chulaAtol_number [c] hlo hhi (by simpa using hdigit)).1
  have hlong : toLong (x * timeUnit c) = x * timeUnit c := Int.bmod_eq_of_le (by omega) (by omega)
  rw [chulaEvalFormatedTime, List.getLast?_concat]
  dsimp only
  rw [hwhole, hnumber]
  dsimp only
  rw [hlong, toInt_of hfit.1 hfit.2]

/-- **Round trip.**  Behind any string, what `chula_buffer_add_llong10` appends is read as the number again: by `chula_atol`
always, by `chula_atoi` and `chula_atob` modulo 2^32, and, with a unit of time behind it, by `chula_eval_formated_time` as long as
the seconds are an `int`. -/
theorem numbers_read_back {b : RawBuffer} {s : List UInt8} (h : b.Filled s) (hlt : s.length + 21 < 2 ^ 31) (l : Int64) :
    ∃ b' t, chulaBufferAddLlong10 b l = .ok b' ∧ b'.Filled (s ++ t) ∧ b'.Terminated ∧
      chulaAtol (some t) = (.ok, some l.toInt) ∧ chulaAtoi (some t) = (.ok, some (toInt l.toInt)) ∧
      chulaAtob (some t) = (.ok, some (decide (toInt l.toInt ≠ 0))) ∧
      ∀ c ∈ ([115, 109, 104, 100, 119] : List UInt8), -2 ^ 31 ≤ l.toInt * timeUnit c ∧ l.toInt * timeUnit c < 2 ^ 31 →
        chulaEvalFormatedTime (t ++ [c]) = l.toInt * timeUnit c := by
  have hlo := l.le_toInt
  have hhi := l.toInt_lt
  obtain ⟨b', hadd, hf, ht⟩ := addLlong10_appends h hlt l
  obtain ⟨hatol, hatoi⟩ := chulaAtol_number [] hlo hhi (by simp)
  rw [List.append_nil] at hatol hatoi
  refine ⟨b', _, hadd, hf, ht, hatol, hatoi, ?_, fun c hc hfit => evalFormatedTime_number hc hlo hhi hfit⟩
  rw [chulaAtob, hatoi]

/-- "-15m" of a number. -/
theorem numbers_read_back_time : ∃ b' t, chulaBufferAddLlong10 chulaBufInit (-15) = .ok b' ∧ b'.Filled t ∧
    chulaAtol (some t) = (.ok, some (-15)) ∧ chulaEvalFormatedTime (t ++ [109]) = -900 := by
  obtain ⟨b', t, hadd, hf, -, hatol, -, -, htime⟩ := numbers_read_back filled_null (by decide) (-15)
  exact ⟨b', t, hadd, hf, hatol, htime 109 (by decide) (by decide)⟩

end ReadBack

end LibHpack
