import LibHpack.Uri.Model

/-!
# LibHpack.Uri.Escaped — what escaping writes, and what unescaping makes of it

`escaped table k s` are the octets that are written for `s` when its first `k` octets belong to a character that has
begun: these are copied as they are, also when they are not the octets of a character.  So a "%" among them is not escaped
(`strayEscape`), and what unescaping makes of the result is the string only where no two hexadecimal digits follow such a
"%" (`unescaped_escaped_iff`).
-/

namespace LibHpack

open Memory

/-- An escaped octet. -/
def escapeOf (c : UInt8) : List UInt8 := [37, hexChars (c >>> 4), hexChars (c &&& 0xf)]

def escaped (table : List ℕ) : ℕ → List UInt8 → List UInt8
  | _, [] => []
  | k + 1, c :: s => c :: escaped table k s
  | 0, c :: s =>
    let n := utf8GetNextChar (c :: s)
    (if n = 1 ∧ isCharEscaped table c then escapeOf c else [c]) ++ escaped table (n - 1) s

/-- The number of octets that are escaped. -/
def escapes (table : List ℕ) : ℕ → List UInt8 → ℕ
  | _, [] => 0
  | k + 1, _ :: s => escapes table k s
  | 0, c :: s =>
    let n := utf8GetNextChar (c :: s)
    (if n = 1 ∧ isCharEscaped table c then 1 else 0) + escapes table (n - 1) s

/-- Two hexadecimal digits. -/
def hexPair : List UInt8 → Bool
  | h :: l :: _ => isxdigit h && isxdigit l
  | _ => false

/-- A "%" inside of a character, with two hexadecimal digits behind it. -/
def strayEscape : ℕ → List UInt8 → Bool
  | _, [] => false
  | k + 1, c :: s => (c == 37 && hexPair s) || strayEscape k s
  | 0, c :: s => strayEscape (utf8GetNextChar (c :: s) - 1) s

/-- What unescaping makes of a string, but for `k` octets that belong to an escape sequence. -/
def unescaped : ℕ → List UInt8 → List UInt8
  | _, [] => []
  | k + 1, _ :: s => unescaped k s
  | 0, c :: s =>
    if c = 37 ∧ hexPair s then
      let v := hex2decM2 (s.getD 0 0) (s.getD 1 0)
      (if v = 0 then 32 else v) :: unescaped 2 s
    else c :: unescaped 0 s

section Strings

variable {table : List ℕ} {s w : List UInt8} {c : UInt8} {k : ℕ}

theorem escaped_eq_take (k : ℕ) (s : List UInt8) : escaped table k s = s.take k ++ escaped table 0 (s.drop k) := by
  induction s generalizing k with
  | nil => cases k <;> rfl
  | cons c s ih =>
    cases k with
    | zero => rfl
    | succ k => rw [escaped, ih k, List.take_succ_cons, List.drop_succ_cons, List.cons_append]

theorem escapes_eq_drop (k : ℕ) (s : List UInt8) : escapes table k s = escapes table 0 (s.drop k) := by
  induction s generalizing k with
  | nil => cases k <;> rfl
  | cons c s ih =>
    cases k with
    | zero => rfl
    | succ k => rw [escapes, ih k, List.drop_succ_cons]

theorem escaped_length (k : ℕ) (s : List UInt8) : (escaped table k s).length = s.length + 2 * escapes table k s := by
  induction s generalizing k with
  | nil => cases k <;> rfl
  | cons c s ih =>
    cases k with
    | zero =>
      rw [escaped, escapes, List.length_append, ih, List.length_cons]
      split_ifs
      · rw [show (escapeOf c).length = 3 from rfl]
        omega
      · rw [List.length_singleton]
        omega
    | succ k =>
      rw [escaped, escapes, List.length_cons, ih, List.length_cons]
      omega

/-- Behind a character. -/
theorem drop_char (c : UInt8) (s : List UInt8) :
    (c :: s).drop (utf8GetNextChar (c :: s)) = s.drop (utf8GetNextChar (c :: s) - 1) := by
  obtain ⟨n, hn⟩ : ∃ n, utf8GetNextChar (c :: s) = n + 1 := ⟨_, (Nat.succ_pred (utf8GetNextChar_pos (c :: s)).ne').symm⟩
  rw [hn, List.drop_succ_cons, Nat.add_sub_cancel]

/-- Induction over the characters of a string. -/
theorem char_induction {P : List UInt8 → Prop} (nil : P [])
    (cons : ∀ c s, P ((c :: s).drop (utf8GetNextChar (c :: s))) → P (c :: s)) (s : List UInt8) : P s := by
  induction h : s.length using Nat.strong_induction_on generalizing s with
  | _ n ih =>
    cases s with
    | nil => exact nil
    | cons c s =>
      have hpos := utf8GetNextChar_pos (c :: s)
      refine cons c s (ih _ ?_ _ rfl)
      rw [← h, List.length_drop, List.length_cons]
      omega

theorem countEscapes_eq (s : List UInt8) : countEscapes table s = escapes table 0 s := by
  induction s using char_induction with
  | nil => rw [countEscapes, escapes]
  | cons c s ih =>
    rw [countEscapes, escapes, escapes_eq_drop, ← drop_char, ← ih]
    split_ifs <;> omega

/-! ### The first loops -/

theorem copyChar_writes (char : List UInt8) (m : Memory.Block UInt8) (t : ℕ) : Writes (copyChar char m t) m t char := by
  induction char generalizing m t with
  | nil => exact Writes.nil m t
  | cons c char ih => exact Writes.store_then [c] fun m' => ih m' (t + 1)

theorem writeEscape_writes (c : UInt8) (m : Memory.Block UInt8) (t : ℕ) : Writes (writeEscape c m t) m t (escapeOf c) :=
  Writes.store_then [37] fun _ => Writes.store_then [_] fun _ => Writes.store_then [_] fun m' => Writes.nil m' (t + 3)

/-- **The second loop** writes the escaped string. -/
theorem convertLoop_writes (table : List ℕ) (s : List UInt8) (m : Memory.Block UInt8) (t : ℕ) :
    Writes (convertLoop table s m t) m t (escaped table 0 s) := by
  induction s using char_induction generalizing m t with
  | nil =>
    rw [convertLoop, escaped]
    exact Writes.nil m t
  | cons c s ih =>
    obtain ⟨n, hn⟩ : ∃ n, utf8GetNextChar (c :: s) = n + 1 := ⟨_, (Nat.succ_pred (utf8GetNextChar_pos (c :: s)).ne').symm⟩
    have hchar : escaped table 0 (c :: s) = (if 1 < n + 1 then (c :: s).take (n + 1)
        else if isCharEscaped table c then escapeOf c else [c]) ++ escaped table 0 ((c :: s).drop (n + 1)) := by
      rw [escaped, hn, escaped_eq_take, List.take_succ_cons, List.drop_succ_cons, Nat.add_sub_cancel]
      cases n with
      | zero => simp
      | succ n => simp
    rw [hn] at ih
    rw [convertLoop, hchar, hn]
    split_ifs
    · exact Writes.bind (copyChar_writes _ m t) fun m' => ih m' _
    · exact Writes.bind (writeEscape_writes c m t) fun m' => ih m' _
    · exact Writes.bind (copyChar_writes [c] m t) fun m' => ih m' _

/-! ### Unescaping what was escaped -/

/-- What a table has to escape, and what it has to leave. -/
structure TableOk (table : List ℕ) : Prop where
  percent : isCharEscaped table 37 = true
  digits : ∀ c, isxdigit c = true → isCharEscaped table c = false

theorem UriEscape.tableOk (e : UriEscape) : TableOk e.table where
  percent := by cases e <;> decide
  digits := forall_octet (by cases e <;> decide +kernel)

/-- An octet of ASCII is a character of its own. -/
theorem utf8GetNextChar_ascii (hc : c &&& 0x80 = 0) (s : List UInt8) : utf8GetNextChar (c :: s) = 1 := by
  have hlead : ∀ c : UInt8, c &&& 0x80 = 0 → c &&& 0xE0 ≠ 0xC0 ∧ c &&& 0xF0 ≠ 0xE0 ∧ c &&& 0xF8 ≠ 0xF0 :=
    forall_octet (by decide +kernel)
  obtain ⟨h1, h2, h3⟩ := hlead c hc
  simp [utf8GetNextChar, h1, h2, h3]

theorem digit_ascii : ∀ c : UInt8, isxdigit c = true → c &&& 0x80 = 0 := forall_octet (by decide +kernel)

theorem escapeOf_digits : ∀ c : UInt8, isxdigit (hexChars (c >>> 4)) = true ∧ isxdigit (hexChars (c &&& 0xf)) = true ∧
    hex2decM2 (hexChars (c >>> 4)) (hexChars (c &&& 0xf)) = c := forall_octet (by decide +kernel)

theorem escaped_digit (ht : TableOk table) (hc : isxdigit c = true) (k : ℕ) (s : List UInt8) :
    escaped table k (c :: s) = c :: escaped table (k - 1) s := by
  cases k with
  | zero => simp [escaped, utf8GetNextChar_ascii (digit_ascii c hc), ht.digits c hc]
  | succ k => rfl

/-- What is written for an octet that is no digit does not start with a digit. -/
theorem escaped_other (table : List ℕ) (hc : isxdigit c = false) (k : ℕ) (s : List UInt8) :
    ∃ x w, escaped table k (c :: s) = x :: w ∧ isxdigit x = false := by
  cases k with
  | zero =>
    rw [escaped]
    split_ifs
    · exact ⟨37, _, rfl, by decide⟩
    · exact ⟨c, _, rfl, hc⟩
  | succ k => exact ⟨c, _, rfl, hc⟩

theorem hexPair_of_other {x : UInt8} (h : isxdigit x = false) (w : List UInt8) : hexPair (x :: w) = false := by
  cases w <;> simp [hexPair, h]

theorem hexPair_escaped (ht : TableOk table) (k : ℕ) (s : List UInt8) : hexPair (escaped table k s) = hexPair s := by
  rcases s with _ | ⟨c, s⟩
  · cases k <;> rfl
  by_cases hc : isxdigit c = true
  swap
  · rw [Bool.not_eq_true] at hc
    obtain ⟨x, w, hw, hx⟩ := escaped_other table hc k s
    rw [hw, hexPair_of_other hx, hexPair_of_other hc]
  rw [escaped_digit ht hc]
  rcases s with _ | ⟨d, s⟩
  · cases k - 1 <;> rfl
  by_cases hd : isxdigit d = true
  · rw [escaped_digit ht hd]
    rfl
  · rw [Bool.not_eq_true] at hd
    obtain ⟨x, w, hw, hx⟩ := escaped_other table hd (k - 1) s
    rw [hw]
    simp [hexPair, hx, hd]

theorem unescaped_plain (h : ¬(c = 37 ∧ hexPair w = true)) : unescaped 0 (c :: w) = c :: unescaped 0 w := by
  rw [unescaped, if_neg h]

theorem unescaped_escapeOf (hc : c ≠ 0) (w : List UInt8) : unescaped 0 (escapeOf c ++ w) = c :: unescaped 0 w := by
  obtain ⟨hh, hl, hv⟩ := escapeOf_digits c
  have hpair : hexPair (hexChars (c >>> 4) :: hexChars (c &&& 0xf) :: w) = true := by rw [hexPair, hh, hl]; rfl
  change unescaped 0 (37 :: hexChars (c >>> 4) :: hexChars (c &&& 0xf) :: w) = _
  rw [unescaped, if_pos ⟨rfl, hpair⟩]
  simp [hv, hc, unescaped]

theorem exists_of_hexPair (h : hexPair s = true) : ∃ x y s', s = x :: y :: s' ∧ isxdigit x = true ∧ isxdigit y = true := by
  rcases s with _ | ⟨x, _ | ⟨y, s⟩⟩
  · cases h
  · cases h
  · rw [hexPair, Bool.and_eq_true] at h
    exact ⟨x, y, s, rfl, h.1, h.2⟩

/-- **Unescaping what was escaped** gives the string when no escape sequence has strayed into it, and else a shorter
one. -/
theorem unescaped_escaped (ht : TableOk table) : ∀ (s : List UInt8) (k : ℕ), 0 ∉ s →
    (strayEscape k s = false → unescaped 0 (escaped table k s) = s) ∧
    (strayEscape k s = true → (unescaped 0 (escaped table k s)).length < s.length)
  | [], k, _ => by cases k <;> simp [strayEscape, escaped, unescaped]
  | c :: s, 0, h0 => by
    rw [List.mem_cons, not_or] at h0
    obtain ⟨ih1, ih2⟩ := unescaped_escaped ht s (utf8GetNextChar (c :: s) - 1) h0.2
    have hcons : unescaped 0 (escaped table 0 (c :: s)) =
        c :: unescaped 0 (escaped table (utf8GetNextChar (c :: s) - 1) s) := by
      rw [escaped]
      split_ifs with hesc
      · exact unescaped_escapeOf (Ne.symm h0.1) _
      · refine unescaped_plain fun h => hesc ⟨?_, ?_⟩
        · rw [h.1]
          exact utf8GetNextChar_ascii (by decide) s
        · rw [h.1]
          exact ht.percent
    rw [strayEscape, hcons]
    exact ⟨fun h => by rw [ih1 h], fun h => Nat.succ_lt_succ (ih2 h)⟩
  | c :: s, k + 1, h0 => by
    rw [List.mem_cons, not_or] at h0
    rw [strayEscape, escaped, Bool.or_eq_true, Bool.or_eq_false_iff]
    by_cases hstray : c = 37 ∧ hexPair s = true
    · -- the "%" and two octets behind it become one
      obtain ⟨rfl, hpair⟩ := hstray
      refine ⟨fun h => absurd h.1 (by simp [hpair]), fun _ => ?_⟩
      obtain ⟨x, y, s', rfl, hx, hy⟩ := exists_of_hexPair hpair
      obtain ⟨ih1, ih2⟩ := unescaped_escaped ht s' (k - 1 - 1) fun h => h0.2 (by simp [h])
      have hlen : (unescaped 0 (escaped table (k - 1 - 1) s')).length ≤ s'.length := by
        cases hs : strayEscape (k - 1 - 1) s' with
        | false => rw [ih1 hs]
        | true => exact (ih2 hs).le
      rw [unescaped, if_pos ⟨rfl, by rw [hexPair_escaped ht, hpair]⟩, escaped_digit ht hx, escaped_digit ht hy, unescaped,
        unescaped]
      simp only [List.length_cons]
      omega
    · obtain ⟨ih1, ih2⟩ := unescaped_escaped ht s k h0.2
      rw [unescaped_plain (by rwa [hexPair_escaped ht])]
      refine ⟨fun h => by rw [ih1 h.2], fun h => Nat.succ_lt_succ (ih2 (h.resolve_left ?_))⟩
      simpa using hstray
termination_by s => s.length

theorem unescaped_escaped_iff (ht : TableOk table) (h0 : 0 ∉ s) :
    unescaped 0 (escaped table 0 s) = s ↔ strayEscape 0 s = false := by
  obtain ⟨h1, h2⟩ := unescaped_escaped ht s 0 h0
  refine ⟨fun heq => ?_, h1⟩
  by_contra hs
  have hlt := h2 (by simpa using hs)
  rw [heq] at hlt
  exact lt_irrefl _ hlt

end Strings

end LibHpack
