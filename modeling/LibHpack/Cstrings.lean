import Mathlib.Tactic
import LibHpack.General.First
import LibHpack.Chula

/-!
# LibHpack.Cstrings — searching without regard to case (libchula cstrings.c, macros.h)

`chula_strncasestrn` finds its candidates by the first octet, which it folds with `CHULA_CHAR_TO_LOWER`: that sets bit 5 of
every octet, letter or not.  The octets behind it are compared by `strncasecmp`, which knows the letters.  So what is found
is the first position with `WeakCase`, where the specification says `SameCase`.

A string is the list of its octets, and behind the list there is a NUL.
-/

namespace LibHpack

/-- `CHULA_CHAR_TO_LOWER`. -/
def chulaCharToLower (ch : UInt8) : UInt8 := ch ||| 32

/-- `tolower`, of the C locale. -/
def tolower (c : UInt8) : UInt8 := if 65 ≤ c ∧ c ≤ 90 then c + 32 else c

/-- `strncasecmp`. -/
def strncasecmp : List UInt8 → List UInt8 → ℕ → ℤ
  | _, _, 0 => 0
  | s1, s2, n + 1 =>
    let c1 := tolower (s1.headD 0)
    let c2 := tolower (s2.headD 0)
    if c1 ≠ c2 ∨ c1 = 0 then c1.toNat - c2.toNat else strncasecmp s1.tail s2.tail n

/-- The two loops of `chula_strncasestrn`: after a candidate that is none, the inner one goes on behind it.  What is returned
is the distance to the pointer `s`. -/
def strncasestrnLoop (c : UInt8) (find : List UInt8) (findlen : ℕ) : List UInt8 → ℕ → Option ℕ
  | _, 0 => none
  | [], _ + 1 => none
  | sc :: s, slen + 1 =>
    if sc = 0 then none
    else if chulaCharToLower sc ≠ chulaCharToLower c then (strncasestrnLoop c find findlen s slen).map (· + 1)
    else if slen < findlen then none
    else if strncasecmp s find findlen ≠ 0 then (strncasestrnLoop c find findlen s slen).map (· + 1)
    else some 0

/-- `chula_strncasestrn`; the needle may be the null pointer. -/
def chulaStrncasestrn (s : List UInt8) (slen : ℕ) (find : Option (List UInt8)) (findlen : ℕ) : Option ℕ :=
  match find with
  | none => some 0
  | some find =>
    if findlen = 0 then some 0
    else if find.headD 0 = 0 then some 0
    else strncasestrnLoop (find.headD 0) find.tail (findlen - 1) s slen

/-! ### What is compared -/

/-- Equal up to the case of ASCII letters. -/
def SameCase (x y : List UInt8) : Prop := x.map tolower = y.map tolower

instance (x y : List UInt8) : Decidable (SameCase x y) := inferInstanceAs (Decidable (_ = _))

/-- Equal up to bit 5 of the first octet, and then up to case. -/
def WeakCase : List UInt8 → List UInt8 → Prop
  | a :: x, c :: y => chulaCharToLower a = chulaCharToLower c ∧ SameCase x y
  | _, _ => False

/-- Equal up to case, but for a first octet that differs in bit 5 and is no letter. -/
def StrayCase : List UInt8 → List UInt8 → Prop
  | a :: x, c :: y => chulaCharToLower a = chulaCharToLower c ∧ tolower a ≠ tolower c ∧ SameCase x y
  | _, _ => False

instance (x y : List UInt8) : Decidable (StrayCase x y) :=
  match x, y with
  | _ :: _, _ :: _ => inferInstanceAs (Decidable (_ ∧ _))
  | [], _ | _ :: _, [] => inferInstanceAs (Decidable False)

/-- At the position `p` of the haystack the needle fits, no NUL comes before its end, and the octets there are related
to it. -/
structure MatchesAt (R : List UInt8 → List UInt8 → Prop) (s : List UInt8) (slen : ℕ) (needle : List UInt8) (p : ℕ) :
    Prop where
  fits : p + needle.length ≤ slen
  noNul : 0 ∉ s.take (p + needle.length)
  rel : R ((s.drop p).take needle.length) needle

section Search

variable {R R' : List UInt8 → List UInt8 → Prop} {s find needle : List UInt8} {c sc : UInt8} {slen findlen n p : ℕ}

theorem tolower_ne_zero : ∀ c : UInt8, c ≠ 0 → tolower c ≠ 0 := forall_octet (by decide +kernel)

theorem toNat_sub_eq_zero_iff {c1 c2 : UInt8} : (c1.toNat : ℤ) - c2.toNat = 0 ↔ c1 = c2 := by
  rw [sub_eq_zero, Nat.cast_inj, UInt8.toNat_inj]

theorem sameCase_cons {a c : UInt8} {x y : List UInt8} : SameCase (a :: x) (c :: y) ↔ tolower a = tolower c ∧ SameCase x y := by
  simp only [SameCase, List.map_cons, List.cons.injEq]

/-- `strncasecmp` by the octets that it compares. -/
theorem strncasecmp_eq_zero_iff (hn : n ≤ find.length) (hz : 0 ∉ find.take n) :
    strncasecmp s find n = 0 ↔ SameCase (s.take n) (find.take n) := by
  induction n generalizing s find with
  | zero => simp [strncasecmp, SameCase]
  | succ n ih =>
    obtain ⟨c, find, rfl⟩ := List.exists_cons_of_length_pos (Nat.lt_of_lt_of_le (Nat.succ_pos n) hn)
    rw [List.take_succ_cons, List.mem_cons, not_or] at hz
    have hc := tolower_ne_zero c (Ne.symm hz.1)
    cases s with
    | nil =>
      have hstep : strncasecmp [] (c :: find) (n + 1) = (tolower 0).toNat - (tolower c).toNat := by
        rw [strncasecmp, if_pos (.inr rfl)]
        rfl
      have h0 : tolower 0 ≠ tolower c := hc.symm
      rw [hstep, toNat_sub_eq_zero_iff]
      simp [SameCase, h0]
    | cons a s =>
      have hstep : strncasecmp (a :: s) (c :: find) (n + 1) =
          if tolower a ≠ tolower c ∨ tolower a = 0 then ((tolower a).toNat - (tolower c).toNat : ℤ)
          else strncasecmp s find n := rfl
      rw [hstep, List.take_succ_cons, List.take_succ_cons, sameCase_cons]
      by_cases heq : tolower a = tolower c
      · rw [if_neg (by rw [heq]; exact not_or.2 ⟨not_not.2 rfl, hc⟩), ih (Nat.le_of_succ_le_succ hn) hz.2]
        exact (and_iff_right heq).symm
      · rw [if_pos (.inl heq), toNat_sub_eq_zero_iff]
        exact (iff_false_intro heq).trans (iff_false_intro fun h => heq h.1).symm

/-- Equal octets up to case have a NUL where the others have one. -/
theorem SameCase.noNul {x y : List UInt8} (h : SameCase x y) (hz : 0 ∉ y) : 0 ∉ x := by
  intro h0
  have hmem : tolower 0 ∈ y.map tolower := h ▸ List.mem_map_of_mem h0
  obtain ⟨c, hc, hlow⟩ := List.mem_map.1 hmem
  refine tolower_ne_zero c ?_ hlow
  rintro rfl
  exact hz hc

/-- Behind the first octet. -/
theorem matchesAt_succ (hsc : sc ≠ 0) :
    MatchesAt R (sc :: s) (slen + 1) needle (p + 1) ↔ MatchesAt R s slen needle p := by
  have hfits : p + 1 + needle.length = p + needle.length + 1 := by omega
  constructor
  · rintro ⟨h1, h2, h3⟩
    rw [hfits, List.take_succ_cons, List.mem_cons, not_or] at h2
    exact ⟨by omega, h2.2, h3⟩
  · rintro ⟨h1, h2, h3⟩
    refine ⟨by omega, ?_, h3⟩
    rw [hfits, List.take_succ_cons, List.mem_cons, not_or]
    exact ⟨hsc.symm, h2⟩

/-- At the first octet. -/
theorem matchesAt_zero (hsc : sc ≠ 0) (hz : 0 ∉ find) : MatchesAt WeakCase (sc :: s) (slen + 1) (c :: find) 0 ↔
    chulaCharToLower sc = chulaCharToLower c ∧ find.length ≤ slen ∧ SameCase (s.take find.length) find := by
  constructor
  · rintro ⟨hfits, -, hrel⟩
    rw [Nat.zero_add, List.length_cons] at hfits
    exact ⟨hrel.1, Nat.le_of_succ_le_succ hfits, hrel.2⟩
  · rintro ⟨hfirst, hfits, hrest⟩
    refine ⟨by rw [Nat.zero_add]; exact Nat.succ_le_succ hfits, ?_, hfirst, hrest⟩
    rw [Nat.zero_add, List.length_cons, List.take_succ_cons, List.mem_cons, not_or]
    exact ⟨hsc.symm, hrest.noNul hz⟩

/-- **The search**: the first candidate whose other octets agree. -/
theorem strncasestrnLoop_isFirst (hn : findlen ≤ find.length) (hz : 0 ∉ find.take findlen) (s : List UInt8) (slen : ℕ) :
    IsFirst (MatchesAt WeakCase s slen (c :: find.take findlen)) (strncasestrnLoop c find findlen s slen) := by
  have hlen : (find.take findlen).length = findlen := List.length_take_of_le hn
  induction s generalizing slen with
  | nil =>
    have hnone : strncasestrnLoop c find findlen [] slen = none := by cases slen <;> rfl
    rw [hnone]
    intro p hp
    have hrel := hp.rel
    rw [List.drop_nil, List.take_nil] at hrel
    exact hrel
  | cons sc s ih =>
    cases slen with
    | zero =>
      rw [strncasestrnLoop]
      intro p hp
      exact absurd hp.fits (by rw [List.length_cons]; omega)
    | succ slen =>
      rw [strncasestrnLoop]
      by_cases hsc : sc = 0
      · rw [if_pos hsc]
        intro p hp
        refine hp.noNul ?_
        rw [hsc, List.length_cons, ← Nat.add_assoc, List.take_succ_cons]
        exact List.mem_cons_self ..
      · have hbehind := (ih slen).congr fun p => (@matchesAt_succ WeakCase s (c :: find.take findlen) sc slen p hsc).symm
        have hhere := @matchesAt_zero s _ c sc slen hsc hz
        rw [hlen, ← strncasecmp_eq_zero_iff hn hz] at hhere
        rw [if_neg hsc]
        split_ifs with hfirst hroom hrest
        · exact hbehind.next fun h => hfirst (hhere.1 h).1
        · intro p hp
          have hfits := hp.fits
          rw [List.length_cons, hlen] at hfits
          omega
        · exact hbehind.next fun h => hrest (hhere.1 h).2.2
        · exact .here (hhere.2 ⟨not_not.1 hfirst, Nat.le_of_not_lt hroom, not_not.1 hrest⟩)

theorem MatchesAt.mono (hR : ∀ x, R x needle → R' x needle) (h : MatchesAt R s slen needle p) :
    MatchesAt R' s slen needle p := ⟨h.fits, h.noNul, hR _ h.rel⟩

/-- The case of a letter is bit 5. -/
theorem chulaCharToLower_tolower : ∀ c : UInt8, chulaCharToLower (tolower c) = chulaCharToLower c :=
  forall_octet (by decide +kernel)

theorem SameCase.weak {x : List UInt8} (hne : needle ≠ []) (h : SameCase x needle) : WeakCase x needle := by
  obtain ⟨c, y, rfl⟩ := List.exists_cons_of_ne_nil hne
  cases x with
  | nil => cases h
  | cons a x =>
    obtain ⟨hfirst, hrest⟩ := sameCase_cons.1 h
    refine ⟨?_, hrest⟩
    rw [← chulaCharToLower_tolower a, hfirst, chulaCharToLower_tolower c]

/-- What is compared too weakly. -/
theorem strayCase_iff {x : List UInt8} : StrayCase x needle ↔ WeakCase x needle ∧ ¬SameCase x needle := by
  cases needle with
  | nil => simp [StrayCase, WeakCase]
  | cons c y =>
    cases x with
    | nil => simp [StrayCase, WeakCase]
    | cons a x =>
      rw [StrayCase, WeakCase, sameCase_cons]
      tauto

theorem matchesAt_stray_iff :
    MatchesAt StrayCase s slen needle p ↔ MatchesAt WeakCase s slen needle p ∧ ¬MatchesAt SameCase s slen needle p := by
  constructor
  · rintro ⟨hfits, hz, hrel⟩
    obtain ⟨hweak, hnot⟩ := strayCase_iff.1 hrel
    exact ⟨⟨hfits, hz, hweak⟩, fun h => hnot h.rel⟩
  · rintro ⟨⟨hfits, hz, hweak⟩, hnot⟩
    exact ⟨hfits, hz, strayCase_iff.2 ⟨hweak, fun h => hnot ⟨hfits, hz, h⟩⟩⟩

theorem chulaStrncasestrn_isFirst (hpos : 0 < findlen) (hn : findlen ≤ find.length) (hz : 0 ∉ find.take findlen) :
    IsFirst (MatchesAt WeakCase s slen (find.take findlen)) (chulaStrncasestrn s slen (some find) findlen) := by
  obtain ⟨n, rfl⟩ := Nat.exists_eq_succ_of_ne_zero hpos.ne'
  obtain ⟨c, find, rfl⟩ := List.exists_cons_of_length_pos (hpos.trans_le hn)
  rw [List.take_succ_cons, List.mem_cons, not_or] at hz
  have hhead : (c :: find).headD 0 ≠ 0 := Ne.symm hz.1
  rw [chulaStrncasestrn, if_neg (Nat.succ_ne_zero n), if_neg hhead, List.take_succ_cons]
  exact strncasestrnLoop_isFirst (Nat.le_of_succ_le_succ hn) hz.2 s slen

/-- **The first match** is found exactly where no position comes before it at which the octets agree but for bit 5 of a
first octet that is no letter. -/
theorem strncasestrn_iff (hpos : 0 < findlen) (hn : findlen ≤ find.length) (hz : 0 ∉ find.take findlen) :
    IsFirst (MatchesAt SameCase s slen (find.take findlen)) (chulaStrncasestrn s slen (some find) findlen) ↔
      ∀ p, MatchesAt StrayCase s slen (find.take findlen) p → ∃ q < p, MatchesAt SameCase s slen (find.take findlen) q := by
  have hne : find.take findlen ≠ [] := by
    rw [← List.length_pos_iff, List.length_take_of_le hn]
    exact hpos
  rw [(chulaStrncasestrn_isFirst hpos hn hz).of_weaker_iff fun p => .mono fun x => SameCase.weak hne]
  constructor
  · intro h p hstray
    obtain ⟨hweak, hnot⟩ := matchesAt_stray_iff.1 hstray
    exact h p hweak hnot
  · intro h p hweak hnot
    exact h p (matchesAt_stray_iff.2 ⟨hweak, hnot⟩)

/-- "{b" is not in "a[b". -/
theorem strncasestrn_bracket : ¬IsFirst (MatchesAt SameCase [97, 91, 98] 3 [123, 98])
    (chulaStrncasestrn [97, 91, 98] 3 (some [123, 98]) 2) := by
  have hfound : chulaStrncasestrn [97, 91, 98] 3 (some [123, 98]) 2 = some 1 := by decide
  rw [hfound]
  intro h
  exact absurd h.1.rel (by decide)

/-- "iS" in "This". -/
theorem strncasestrn_iff_is : IsFirst (MatchesAt SameCase [84, 104, 105, 115] 4 [105, 83])
    (chulaStrncasestrn [84, 104, 105, 115] 4 (some [105, 83]) 2) := by
  refine (@strncasestrn_iff _ [105, 83] _ 2 (by decide) (by decide) (by decide)).2 ?_
  intro p h
  have hfits := h.fits
  have hle : p ≤ 2 := by
    simp at hfits
    omega
  have hno : ∀ p ≤ 2, ¬StrayCase (([84, 104, 105, 115].drop p).take 2) [105, 83] := by decide
  exact absurd h.rel (hno p hle)

end Search

end LibHpack
