import LibHpack.Buffer.Numbers

/-!
# LibHpack.Buffer.Sizes — sizes for people to read (libchula buffer.c)

`chula_buffer_add_fsize` divides by 1024 until the size has at most three digits, and counts the units.  It drops the
remainders of the divisions but the last, so a tenth is not always the nearest one: the error may be 520 instead of 512 parts
in 1024 of it.
-/

namespace LibHpack

open Memory Run RawBuffer

/-- `chula_buffer_add_va_fixed`, where `text` is what the format and the arguments come to. -/
def chulaBufferAddVaFixed (buf : RawBuffer) (text : List UInt8) : Except Escape (Ret × RawBuffer) :=
  let size := toInt (toUint32 (buf.size - buf.len))
  if size < 1 then .ok (.error, buf)
  else do
    let m ← store buf.cells buf.len ((text.take (size.toNat - 1)).map some ++ [some 0])
    let buf := { buf with buf := some m }
    let len := vsnprintfLen text
    if len < 0 then .ok (.error, buf)
    else if size ≤ len then .ok (.error, buf)
    else .ok (.ok, { buf with len := toUint32 (buf.len + len) })

/-- "%d.%d%c". -/
def tenthsFormat (size remain : ℤ) (o : UInt8) : List Directive :=
  [.convert false 0 (.number .d .none size), .octet 46 (by decide), .convert false 0 (.number .d .none remain),
    .convert false 0 (.char o.toNat)]

/-- "%3d%c". -/
def wholeFormat (size : ℤ) (o : UInt8) : List Directive :=
  [.convert false 3 (.number .d .none size), .convert false 0 (.char o.toNat)]

/-- The loop of `chula_buffer_add_fsize`, over the units that are left: the format that it ends with, with its arguments. -/
def fsizeLoop : List UInt8 → UInt64 → Except Escape (List Directive)
  | [], _ => .error ⟨8, 7⟩
  | o :: ord, size =>
    let remain := toInt (size &&& 1023).toNat
    let size := size >>> 10
    if 973 ≤ size then fsizeLoop ord size
    else if size < 9 ∨ (size = 9 ∧ remain < 973) then
      let remain := (remain * 5 + 256) / 512
      if 10 ≤ remain then .ok (tenthsFormat (toInt (size + 1).toNat) 0 o)
      else .ok (tenthsFormat (toInt size.toNat) remain o)
    else if 512 ≤ remain then .ok (wholeFormat (toInt (size + 1).toNat) o)
    else .ok (wholeFormat (toInt size.toNat) o)

/-- `chula_buffer_add_fsize`. -/
def chulaBufferAddFsize (wcrtomb : UInt32 → List UInt8) (buf : RawBuffer) (size : UInt64) :
    Except Escape (Ret × RawBuffer) := do
  let buf := buf.chulaBufferEnsureSize (toUint32 (buf.len + 8))
  if size < 973 then
    let buf ← chulaBufferAddUlong10 buf size.toUInt32
    return (.ok, buf)
  -- "KMGTPE", and the NUL behind it
  let ds ← fsizeLoop [75, 77, 71, 84, 80, 69, 0] size
  chulaBufferAddVaFixed buf (formatted wcrtomb ds)

/-! ### What the text says -/

/-- The units: `1024 ^ (k + 1)`. -/
def fsizeUnits : List UInt8 := [75, 77, 71, 84, 80, 69]

/-- The text stands for the size: it is the number itself, a number of tenths of a unit or a number of whole units. -/
inductive FsizeText (n : ℕ) : List UInt8 → Prop
  | bytes (hn : n < 973) : FsizeText n (digitsOf 10 n)
  | tenths (k : ℕ) (o : UInt8) (d e : ℕ) (ho : fsizeUnits[k]? = some o) (hd : d < 10) (he : e < 10) (hpos : 1 ≤ d)
      (hlo : (10 * d + e) * 1024 ^ (k + 1) ≤ 10 * n + 512 * 1024 ^ k)
      (hhi : 10 * n < (10 * d + e) * 1024 ^ (k + 1) + 520 * 1024 ^ k) :
      FsizeText n [digitOctet d, 46, digitOctet e, o]
  | whole (k : ℕ) (o : UInt8) (q : ℕ) (ho : fsizeUnits[k]? = some o) (h10 : 10 ≤ q) (hq : q ≤ 973)
      (hlo : 2 * (q * 1024 ^ (k + 1)) ≤ 2 * n + 1024 ^ (k + 1)) (hhi : 2 * n ≤ 2 * (q * 1024 ^ (k + 1)) + 1024 ^ (k + 1)) :
      FsizeText n (List.replicate (3 - (digitsOf 10 q).length) 32 ++ digitsOf 10 q ++ [o])

theorem digitsOf_digit {d : ℕ} (hd : d < 10) : digitsOf 10 d = [digitOctet d] := by
  rw [digitsOf_small (by decide) (Nat.div_eq_of_lt hd), Nat.mod_eq_of_lt hd]

/-- A number below 1000 has at most three digits. -/
theorem digitsOf_three {q : ℕ} (hq : q < 1000) : (digitsOf 10 q).length ≤ 3 := by
  rw [digitsOf_length (by decide), numLen]
  exact Nat.log_lt_of_lt_pow' (by decide) hq

/-- Four octets are enough. -/
theorem FsizeText.length_le {n : ℕ} {t : List UInt8} (h : FsizeText n t) : t.length ≤ 4 := by
  cases h with
  | bytes hn => exact (digitsOf_three (hn.trans (by decide))).trans (by decide)
  | tenths => rfl
  | whole k o q ho h10 hq =>
    have hlen := digitsOf_three (q := q) (by omega)
    simp only [List.length_append, List.length_replicate, List.length_singleton]
    omega

section Loop

variable {wcrtomb : UInt32 → List UInt8} {n k : ℕ}

theorem numberText_nat (hn : n < 2 ^ 31) : numberText .d .none n = ([], digitsOf 10 n) := by
  have hx : signedValue .none n = n := by
    rw [signedValue, if_pos rfl]
    exact toInt_of (by omega) (by omega)
  rw [numberText, if_pos rfl, hx, if_neg (by omega), Int.natAbs_natCast]

theorem formatted_nat (zero : Bool) (width : ℕ) (hn : n < 2 ^ 31) :
    (Conversion.number .d .none n).formatted wcrtomb zero width = padded zero width [] (digitsOf 10 n) := by
  rw [Conversion.formatted, numberText_nat hn]

theorem formatted_char (o : UInt8) : (Conversion.char o.toNat).formatted wcrtomb false 0 = [o] := by
  have ho : toUint32 o.toNat = o.toNat := toUint32_cast (o.toNat_lt.trans (by decide))
  change padded false 0 [] [UInt8.ofNat (toUint32 o.toNat)] = [o]
  rw [ho, UInt8.ofNat_toNat]
  rfl

variable (wcrtomb) in
theorem formatted_tenths {d e : ℕ} (hd : d < 10) (he : e < 10) (o : UInt8) :
    formatted wcrtomb (tenthsFormat d e o) = [digitOctet d, 46, digitOctet e, o] := by
  simp only [formatted, tenthsFormat, List.flatMap_cons, List.flatMap_nil, Directive.formatted, formatted_char,
    formatted_nat false 0 (hd.trans (by decide)), formatted_nat false 0 (he.trans (by decide)), digitsOf_digit hd,
    digitsOf_digit he]
  rfl

theorem formatted_whole {q : ℕ} (hq : q < 1000) (o : UInt8) : formatted wcrtomb (wholeFormat q o) =
    List.replicate (3 - (digitsOf 10 q).length) 32 ++ digitsOf 10 q ++ [o] := by
  simp only [formatted, wholeFormat, List.flatMap_cons, List.flatMap_nil, Directive.formatted, formatted_char,
    formatted_nat false 3 (hq.trans (by decide)), padded, if_neg Bool.false_ne_true, List.nil_append, List.append_nil]

/-- From a bound in terms of the units below to one in terms of the number. -/
theorem scaled_le {a c m : ℕ} (h : a * 1024 ≤ m * (n / 1024 ^ k) + c) : a * 1024 ^ (k + 1) ≤ m * n + c * 1024 ^ k :=
  calc a * 1024 ^ (k + 1) = a * 1024 * 1024 ^ k := by ring
    _ ≤ (m * (n / 1024 ^ k) + c) * 1024 ^ k := Nat.mul_le_mul_right _ h
    _ = m * (n / 1024 ^ k * 1024 ^ k) + c * 1024 ^ k := by ring
    _ ≤ m * n + c * 1024 ^ k := Nat.add_le_add_right (Nat.mul_le_mul_left _ (Nat.div_mul_le_self ..)) _

theorem scaled_lt {a c m : ℕ} (hm : 0 < m) (h : m * (n / 1024 ^ k + 1) ≤ a * 1024 + c) :
    m * n < a * 1024 ^ (k + 1) + c * 1024 ^ k :=
  calc m * n < m * ((n / 1024 ^ k + 1) * 1024 ^ k) :=
        Nat.mul_lt_mul_of_pos_left (Nat.lt_mul_of_div_lt (Nat.lt_succ_self _) (by positivity)) hm
    _ = m * (n / 1024 ^ k + 1) * 1024 ^ k := by ring
    _ ≤ (a * 1024 + c) * 1024 ^ k := Nat.mul_le_mul_right _ h
    _ = a * 1024 ^ (k + 1) + c * 1024 ^ k := by ring

theorem FsizeText.tenths_of {q r : ℕ} {o : UInt8} (ho : fsizeUnits[k]? = some o) (hn : n / 1024 ^ k = 1024 * q + r)
    (hge : 973 ≤ 1024 * q + r) {d e : ℕ} (hd : d < 10) (he : e < 10)
    (hde : 10 * d + e = 10 * q + (r * 5 + 256) / 512) : FsizeText n [digitOctet d, 46, digitOctet e, o] := by
  refine .tenths k o d e ho hd he (by omega) (scaled_le ?_) (scaled_lt (by decide) ?_) <;> rw [hn] <;> omega

theorem FsizeText.whole_of {S q : ℕ} {o : UInt8} (ho : fsizeUnits[k]? = some o) (hn : n / 1024 ^ k = S) (h10 : 10 ≤ q)
    (hq : q ≤ 973) (hlo : 1024 * q ≤ S + 512) (hhi : S + 1 ≤ 1024 * q + 512) :
    FsizeText n (List.replicate (3 - (digitsOf 10 q).length) 32 ++ digitsOf 10 q ++ [o]) := by
  have h1 := scaled_le (n := n) (k := k) (a := 2 * q) (c := 1024) (m := 2) (by rw [hn]; omega)
  have h2 := scaled_lt (n := n) (k := k) (a := 2 * q) (c := 1024) (m := 2) (by decide) (by rw [hn]; omega)
  rw [Nat.mul_assoc, ← pow_succ'] at h1 h2
  exact .whole k o q ho h10 hq h1 h2.le

/-- **The last unit**: less than 1024 of the units below remain, and less than one of these has been dropped. -/
theorem fsizeLoop_ends {size : UInt64} {o : UInt8} (ord : List UInt8) (ho : fsizeUnits[k]? = some o)
    (hsize : n / 1024 ^ k = size.toNat) (hge : 973 ≤ size.toNat) (hlt : size.toNat / 1024 < 973) :
    ∃ ds, fsizeLoop (o :: ord) size = .ok ds ∧ FsizeText n (formatted wcrtomb ds) := by
  have hand : (size &&& 1023).toNat = size.toNat % 1024 := by
    rw [UInt64.toNat_and]
    exact Nat.and_two_pow_sub_one_eq_mod _ 10
  have hshift : (size >>> 10).toNat = size.toNat / 1024 := by
    rw [UInt64.toNat_shiftRight]
    exact Nat.shiftRight_eq_div_pow _ 10
  have hnext : (size >>> 10 + 1).toNat = size.toNat / 1024 + 1 := by
    rw [UInt64.toNat_add, hshift]
    exact Nat.mod_eq_of_lt (by simp; omega)
  have hmod : size.toNat % 1024 < 1024 := Nat.mod_lt _ (by decide)
  have hsplit : size.toNat = 1024 * (size.toNat / 1024) + size.toNat % 1024 := (Nat.div_add_mod ..).symm
  have hlast : ¬(973 : UInt64) ≤ size >>> 10 := by
    rw [UInt64.le_iff_toNat_le, hshift]
    exact Nat.not_le.2 hlt
  have hnine : (size >>> 10 < 9 ∨ size >>> 10 = 9 ∧ ((size.toNat % 1024 : ℕ) : ℤ) < 973) ↔
      size.toNat / 1024 < 9 ∨ size.toNat / 1024 = 9 ∧ size.toNat % 1024 < 973 := by
    rw [UInt64.lt_iff_toNat_lt, ← UInt64.toNat_inj, hshift]
    norm_cast
  rw [fsizeLoop]
  dsimp only
  rw [if_neg hlast, hand, hshift, hnext]
  generalize size.toNat % 1024 = r at *
  generalize size.toNat / 1024 = q at *
  have hint : ∀ m : ℕ, m < 2 ^ 31 → toInt m = m := fun m hm => toInt_of (by omega) (by omega)
  rw [hint r (by omega), hint q (by omega), hint (q + 1) (by omega)]
  simp only [hnine]
  have hround : ((r : ℤ) * 5 + 256) / 512 = ((r * 5 + 256) / 512 : ℕ) := by push_cast; rfl
  rw [hround]
  split_ifs with htenths hten hhalf
  · refine ⟨_, rfl, ?_⟩
    have htext := formatted_tenths wcrtomb (d := q + 1) (e := 0) (by omega) (by decide) o
    rw [Nat.cast_zero] at htext
    rw [htext]
    exact .tenths_of ho (hsize.trans hsplit) (by omega) (by omega) (by decide) (by omega)
  · refine ⟨_, rfl, ?_⟩
    rw [formatted_tenths _ (by omega) (by omega)]
    exact .tenths_of ho (hsize.trans hsplit) (by omega) (by omega) (by omega) (by omega)
  · refine ⟨_, rfl, ?_⟩
    rw [formatted_whole (by omega)]
    exact .whole_of ho hsize (by omega) (by omega) (by omega) (by omega)
  · refine ⟨_, rfl, ?_⟩
    rw [formatted_whole (by omega)]
    exact .whole_of ho hsize (by omega) (by omega) (by omega) (by omega)

variable (wcrtomb) in
/-- **The loop** comes to its end before it comes to the NUL. -/
theorem fsizeLoop_text (hn : n < 2 ^ 64) : ∀ j k, k + j = 5 → ∀ size : UInt64, n / 1024 ^ k = size.toNat → 973 ≤ size.toNat →
    ∃ ds, fsizeLoop (fsizeUnits.drop k ++ [0]) size = .ok ds ∧ FsizeText n (formatted wcrtomb ds)
  | 0, k, hk, size, hsize, hge => by
    obtain rfl : k = 5 := by omega
    refine fsizeLoop_ends [0] (o := 69) rfl hsize hge ?_
    rw [← hsize, Nat.div_div_eq_div_mul]
    omega
  | j + 1, k, hk, size, hsize, hge => by
    obtain ⟨o, ho⟩ : ∃ o, fsizeUnits[k]? = some o := ⟨_, List.getElem?_eq_getElem (show k < 6 by omega)⟩
    obtain ⟨hlt, hget⟩ := List.getElem?_eq_some_iff.1 ho
    rw [List.drop_eq_getElem_cons hlt, hget, List.cons_append]
    have hshift : (size >>> 10).toNat = size.toNat / 1024 := by
      rw [UInt64.toNat_shiftRight]
      exact Nat.shiftRight_eq_div_pow _ 10
    by_cases hnext : 973 ≤ size.toNat / 1024
    · rw [fsizeLoop]
      dsimp only
      rw [if_pos (by rw [UInt64.le_iff_toNat_le, hshift]; exact hnext)]
      refine fsizeLoop_text hn j (k + 1) (by omega) _ ?_ (by rw [hshift]; exact hnext)
      rw [hshift, ← hsize, Nat.div_div_eq_div_mul, pow_succ]
    · exact fsizeLoop_ends _ ho hsize hge (by omega)

end Loop

section Call

variable {b : RawBuffer} {s : List UInt8}

theorem addVaFixed_appends (text : List UInt8) (h : b.Filled s) (hroom : s.length + text.length < b.size) (hsize : b.size < 2 ^ 31) :
    ∃ b', chulaBufferAddVaFixed b text = .ok (.ok, b') ∧ b'.Filled (s ++ text) ∧ b'.Terminated := by
  have hlen := h.reads.1
  have hfree : toInt (toUint32 (b.size - b.len)) = (b.size : ℤ) - s.length := by
    rw [hlen, toUint32, toInt, Int.bmod_def]
    split <;> omega
  obtain ⟨m, hstore, hf, ht⟩ := h.string hroom
  rw [List.map_append, List.map_singleton] at hstore
  have hprint : vsnprintfLen text = text.length := if_pos (by omega)
  have htake : text.take (((b.size : ℤ) - s.length).toNat - 1) = text := List.take_of_length_le (by omega)
  have hsum : toUint32 (b.len + text.length) = (s ++ text).length := by
    rw [hlen, List.length_append]
    exact toUint32_cast (n := s.length + text.length) (by omega)
  refine ⟨_, ?_, hf, ht⟩
  rw [chulaBufferAddVaFixed, hfree]
  dsimp only
  rw [if_neg (by omega), htake, ok_then hstore, hprint, if_neg (by omega), if_neg (by omega), hsum]

/-- **Sizes.**  For every size of 64 bits the function appends, to any string, at most four octets that stand for the size. -/
theorem fsize_text (wcrtomb : UInt32 → List UInt8) (h : b.Filled s) (hlt : s.length + 21 < 2 ^ 31) (hsize : b.size < 2 ^ 31)
    (size : UInt64) : ∃ b' t, chulaBufferAddFsize wcrtomb b size = .ok (.ok, b') ∧ FsizeText size.toNat t ∧ t.length ≤ 4 ∧
      b'.Filled (s ++ t) ∧ b'.Terminated := by
  have hneed : toUint32 (b.len + 8) = s.length + 8 := by
    rw [h.reads.1]
    exact toUint32_cast (n := s.length + 8) (by omega)
  obtain ⟨h₁, hfits⟩ := h.ensureSize (n := s.length + 8) (by omega)
  have hsize₁ := ensureSize_size b (n := s.length + 8) (by omega)
  rw [chulaBufferAddFsize, hneed]
  generalize b.chulaBufferEnsureSize (s.length + 8) = b₁ at h₁ hfits hsize₁
  split_ifs with hsmall
  · have hnat : size.toNat < 973 := UInt64.lt_iff_toNat_lt.1 hsmall
    have hu : size.toUInt32.toNat = size.toNat := by
      rw [UInt64.toNat_toUInt32]
      omega
    obtain ⟨b', hadd, hf, ht⟩ := addNumber_appends makesDigits_decimal h₁ hlt (n := size.toNat) (by omega) none
    rw [if_neg (by simp), List.nil_append] at hf
    have hcall : chulaBufferAddUlong10 b₁ size.toUInt32 = .ok b' := by
      rw [chulaBufferAddUlong10, hu, hadd]
    have htext : FsizeText size.toNat (digitsOf 10 size.toNat) := .bytes hnat
    exact ⟨b', _, by rw [ok_then hcall]; rfl, htext, htext.length_le, hf, ht⟩
  · have hge : 973 ≤ size.toNat := by
      rw [UInt64.lt_iff_toNat_lt] at hsmall
      exact Nat.not_lt.1 hsmall
    obtain ⟨ds, hds, htext⟩ := fsizeLoop_text wcrtomb (n := size.toNat) size.toNat_lt 5 0 rfl size
      (by rw [pow_zero, Nat.div_one]) hge
    have hlen := htext.length_le
    obtain ⟨b', hadd, hf, ht⟩ := addVaFixed_appends (formatted wcrtomb ds) h₁ (by omega) (by omega)
    exact ⟨b', _, (ok_then hds _).trans hadd, htext, hlen, hf, ht⟩

/-- The largest size. -/
theorem fsize_text_max : ∃ b' t, chulaBufferAddFsize (fun c => [c.toUInt8]) chulaBufInit 0xffffffffffffffff = .ok (.ok, b') ∧
    FsizeText (0xffffffffffffffff : UInt64).toNat t ∧ b'.Filled t := by
  obtain ⟨b', t, hadd, ht, -, hf, -⟩ :=
    fsize_text (fun c => [c.toUInt8]) filled_null (by decide) (by decide) 0xffffffffffffffff
  exact ⟨b', t, hadd, ht, hf⟩

end Call

end LibHpack
