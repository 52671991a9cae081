import Mathlib.Data.List.TakeWhile
import LibHpack.General.Writes
import LibHpack.Buffer.Contents

/-!
# LibHpack.Buffer.Html — chula_buffer_escape_html (libchula buffer.c)

The function looks for the first of four characters, and only from there on it escapes, and then seven characters: what
stands before (`early`) is copied as it is.  So the result is not one that is put together from the characters, except
where none of the three other characters stands there (`escapeHtml_iff`).
-/

namespace LibHpack

open Memory Run RawBuffer

/-- `strpbrk`: the position of the first octet that is one of `accept`. -/
def strpbrk (s accept : List UInt8) : Option ℕ := s.findIdx? (· ∈ accept)

/-- `"<>&\""`. -/
def htmlStarters : List UInt8 := [60, 62, 38, 34]

/-- The extra octets of a character. -/
def htmlExtra (c : UInt8) : ℕ :=
  if c = 60 ∨ c = 62 then 3
  else if c = 38 then 4
  else if c = 34 then 5
  else if c = 35 ∨ c = 39 ∨ c = 47 then 4
  else 0

/-- The text that is written for a character. -/
def htmlOf (c : UInt8) : List UInt8 :=
  if c = 60 then [38, 108, 116, 59] -- "&lt;"
  else if c = 62 then [38, 103, 116, 59] -- "&gt;"
  else if c = 38 then [38, 97, 109, 112, 59] -- "&amp;"
  else if c = 34 then [38, 113, 117, 111, 116, 59] -- "&quot;"
  else if c = 35 then [38, 35, 51, 53, 59] -- "&#35;"
  else if c = 39 then [38, 35, 51, 57, 59] -- "&#39;"
  else if c = 47 then [38, 35, 52, 55, 59] -- "&#47;"
  else [c]

/-- The counting loop, up to the NUL. -/
def countExtra : List UInt8 → ℕ
  | [] => 0
  | c :: p1 => htmlExtra c + countExtra p1

/-- The copying loop. -/
def copyHtml : List UInt8 → Block UInt8 → ℕ → Except Escape (Block UInt8 × ℕ)
  | [], m, p2 => .ok (m, p2)
  | c :: p1, m, p2 => do
    let m ← store m p2 ((htmlOf c).map some)
    copyHtml p1 m (p2 + (htmlOf c).length)

/-- `if (p0 != src->buf) memcpy (&buf->buf[buf->len], src->buf, len0)`. -/
def copyEarly (early : List UInt8) (m : Block UInt8) (len : ℕ) : Except Escape (Block UInt8 × ℕ) :=
  if early.length ≠ 0 then do
    let m ← store m len (early.map some)
    .ok (m, len + early.length)
  else .ok (m, len)

/-- The buffer with the escaped string behind its own, and the position behind that; `str` is the C string in `src`. -/
def writeHtml (buf : RawBuffer) (srcLen : ℕ) (str : List UInt8) (p0 : ℕ) : Except Escape (RawBuffer × ℕ) := do
  let buf := buf.chulaBufferEnsureAddlen (toSizeT (srcLen + countExtra (str.drop p0) + 1))
  let (m, p2) ← copyEarly (str.take p0) buf.cells buf.len
  let (m, p2) ← copyHtml (str.drop p0) m p2
  .ok ({ buf with buf := some m }, p2)

/-- `chula_buffer_add_escape_html`; `src` has its NUL behind it. -/
def chulaBufferAddEscapeHtml (buf : RawBuffer) (src : List UInt8) : Except Escape (Ret × RawBuffer) :=
  if src.length = 0 then .ok (.ok, buf)
  else
    let str := src.takeWhile (· ≠ 0)
    match strpbrk str htmlStarters with
    | none => do
      let buf ← buf.chulaBufferAdd (.outside src) src.length
      .ok (.ok, buf)
    | some p0 =>
      if toUint32 str.length ≠ src.length then .ok (.error, buf)
      else do
        let (buf, _) ← writeHtml buf src.length str p0
        let len := toUint32 (buf.len + (src.length + countExtra (str.drop p0)))
        let buf ← ({ buf with len } : RawBuffer).put len 0
        .ok (.ok, buf)

/-- `chula_buffer_escape_html`. -/
def chulaBufferEscapeHtml (buf : RawBuffer) (src : List UInt8) : Except Escape (Ret × RawBuffer) := do
  let buf ← buf.chulaBufferClean
  chulaBufferAddEscapeHtml buf src

/-! ### The string that is written -/

/-- One of the four characters that make the function escape. -/
def isStarter (c : UInt8) : Bool := decide (c ∈ htmlStarters)

/-- What stands before the first of them: all of the string when there is none. -/
def early (s : List UInt8) : List UInt8 := s.takeWhile fun c => !isStarter c

def late (s : List UInt8) : List UInt8 := s.dropWhile fun c => !isStarter c

def htmlEscaped (s : List UInt8) : List UInt8 := early s ++ (late s).flatMap htmlOf

section Strings

variable {s x y : List UInt8} {c : UInt8} {p0 : ℕ}

@[simp] theorem early_nil : early [] = [] := rfl

@[simp] theorem late_nil : late [] = [] := rfl

theorem early_cons (c : UInt8) (s : List UInt8) : early (c :: s) = if isStarter c then [] else c :: early s := by
  rw [early, List.takeWhile_cons]
  cases isStarter c <;> rfl

theorem late_cons (c : UInt8) (s : List UInt8) : late (c :: s) = if isStarter c then c :: s else late s := by
  rw [late, List.dropWhile_cons]
  cases isStarter c <;> rfl

theorem htmlEscaped_cons (c : UInt8) (s : List UInt8) :
    htmlEscaped (c :: s) = if isStarter c then (c :: s).flatMap htmlOf else c :: htmlEscaped s := by
  rw [htmlEscaped, early_cons, late_cons]
  split_ifs <;> rfl

theorem early_append_late (s : List UInt8) : early s ++ late s = s := List.takeWhile_append_dropWhile

theorem strpbrk_cons (c : UInt8) (s : List UInt8) :
    strpbrk (c :: s) htmlStarters = if isStarter c then some 0 else (strpbrk s htmlStarters).map (· + 1) := by
  rw [strpbrk, List.findIdx?_cons]
  rfl

theorem strpbrk_none (h : strpbrk s htmlStarters = none) : late s = [] := by
  induction s with
  | nil => rfl
  | cons c s ih =>
    rw [strpbrk_cons] at h
    rw [late_cons]
    split_ifs at h ⊢
    exact ih (by simpa using h)

theorem strpbrk_some (h : strpbrk s htmlStarters = some p0) : s.take p0 = early s ∧ s.drop p0 = late s := by
  induction s generalizing p0 with
  | nil => cases h
  | cons c s ih =>
    rw [strpbrk_cons] at h
    rw [early_cons, late_cons]
    split_ifs at h ⊢
    · cases h
      exact ⟨rfl, rfl⟩
    · obtain ⟨i, hi, rfl⟩ := Option.map_eq_some_iff.1 h
      obtain ⟨h1, h2⟩ := ih hi
      rw [List.take_succ_cons, List.drop_succ_cons, h1]
      exact ⟨rfl, h2⟩

theorem htmlOf_length : ∀ c : UInt8, (htmlOf c).length = 1 + htmlExtra c := forall_octet (by decide +kernel)

/-- **The two loops agree.** -/
theorem countExtra_eq (s : List UInt8) : (s.flatMap htmlOf).length = s.length + countExtra s := by
  induction s with
  | nil => rfl
  | cons c s ih =>
    rw [List.flatMap_cons, List.length_append, htmlOf_length, ih, countExtra, List.length_cons]
    omega

theorem htmlEscaped_length (s : List UInt8) : (htmlEscaped s).length = s.length + countExtra (late s) := by
  have hlen := congrArg List.length (early_append_late s)
  rw [List.length_append] at hlen
  rw [htmlEscaped, List.length_append, countExtra_eq]
  omega

/-- **Concatenation**: behind one of the four characters, all of `y` is escaped. -/
theorem htmlEscaped_append (x y : List UInt8) :
    htmlEscaped (x ++ y) = htmlEscaped x ++ if late x = [] then htmlEscaped y else y.flatMap htmlOf := by
  induction x with
  | nil => rfl
  | cons c x ih =>
    rw [List.cons_append, htmlEscaped_cons, htmlEscaped_cons, late_cons]
    by_cases hc : isStarter c = true
    · rw [if_pos hc, if_pos hc, if_pos hc, if_neg (by simp), ← List.cons_append, List.flatMap_append]
    · rw [if_neg hc, if_neg hc, if_neg hc, ih, List.cons_append]

theorem htmlOf_other : ∀ c : UInt8, isStarter c = false → if c ∈ [35, 39, 47] then (htmlOf c).head? ≠ some c
    else htmlOf c = [c] := forall_octet (by decide +kernel)

/-- Escaping what stands before the first of the four characters changes it where one of the three others stands there. -/
theorem flatMap_htmlOf_eq : y.flatMap htmlOf = htmlEscaped y ↔ ∀ c ∈ early y, c ∉ [35, 39, 47] := by
  induction y with
  | nil => exact iff_of_true rfl (by simp)
  | cons c y ih =>
    rw [htmlEscaped_cons, early_cons]
    split_ifs with hc
    · exact iff_of_true rfl (by simp)
    have hother := htmlOf_other c (by simpa using hc)
    rw [List.flatMap_cons, List.forall_mem_cons]
    split_ifs at hother with hmem
    · refine iff_of_false (fun heq => hother ?_) fun h => h.1 hmem
      have hhead := congrArg List.head? heq
      rw [List.head?_append, List.head?_cons] at hhead
      cases hh : (htmlOf c).head? with
      | none =>
        have hlen := htmlOf_length c
        rw [List.head?_eq_none_iff.1 hh] at hlen
        exact absurd hlen (by simp; omega)
      | some d =>
        rw [hh] at hhead
        exact hhead
    · rw [hother, List.singleton_append, List.cons_inj_right, ih]
      exact (and_iff_right hmem).symm

theorem htmlOf_clean (c : UInt8) : ∀ d ∈ htmlOf c, d ∉ [60, 62, 34, 39] := by
  have hall : ∀ c : UInt8, (htmlOf c).all (fun d => decide (d ∉ [60, 62, 34, 39])) = true :=
    forall_octet (by decide +kernel)
  intro d hd
  exact of_decide_eq_true (List.all_eq_true.1 (hall c) d hd)

theorem quote_of_not_starter : ∀ c : UInt8, isStarter c = false → (c ∉ [60, 62, 34, 39] ↔ ¬39 = c) :=
  forall_octet (by decide +kernel)

/-- The octets that are not to be left. -/
theorem htmlEscaped_clean : (∀ c ∈ htmlEscaped s, c ∉ [60, 62, 34, 39]) ↔ 39 ∉ early s := by
  induction s with
  | nil => exact iff_of_true (by simp [htmlEscaped]) (by simp)
  | cons c s ih =>
    rw [htmlEscaped_cons, early_cons]
    split_ifs with hc
    · refine iff_of_true (fun d hd => ?_) (by simp)
      obtain ⟨e, -, he⟩ := List.mem_flatMap.1 hd
      exact htmlOf_clean e d he
    · have hquote := quote_of_not_starter c (by simpa using hc)
      rw [List.mem_cons, not_or, ← ih, ← hquote]
      exact List.forall_mem_cons

end Strings

/-! ### The calls -/

section Calls

variable {buf d b' : RawBuffer} {s r x y : List UInt8} {p0 : ℕ}

theorem copyHtml_writes (p1 : List UInt8) (m : Block UInt8) (p2 : ℕ) :
    Writes (copyHtml p1 m p2) m p2 (p1.flatMap htmlOf) := by
  induction p1 generalizing m p2 with
  | nil => exact Writes.nil m p2
  | cons c p1 ih => exact Writes.store_then (htmlOf c) fun m' => ih m' _

theorem copyEarly_writes (early : List UInt8) (m : Block UInt8) (len : ℕ) : Writes (copyEarly early m len) m len early := by
  rw [copyEarly]
  split_ifs with h
  · have hw := Writes.store_then (b := m) (i := len) early fun m' => Writes.nil m' (len + early.length)
    rwa [List.append_nil] at hw
  · obtain rfl : early = [] := List.length_eq_zero_iff.1 (by omega)
    exact Writes.nil m len

theorem htmlExtra_le (c : UInt8) : htmlExtra c ≤ 5 := by
  unfold htmlExtra
  split_ifs <;> omega

theorem countExtra_le (s : List UInt8) : countExtra s ≤ 5 * s.length := by
  induction s with
  | nil => exact le_rfl
  | cons c s ih =>
    have hc := htmlExtra_le c
    rw [countExtra, List.length_cons]
    omega

theorem countExtra_late_le (s : List UInt8) : countExtra (late s) ≤ 5 * s.length := by
  have hle := countExtra_le (late s)
  have hlen := congrArg List.length (early_append_late s)
  rw [List.length_append] at hlen
  omega

/-- **Writing the escaped string** into an empty buffer. -/
theorem writeHtml_eq (h : d.Filled []) (hp0 : strpbrk s htmlStarters = some p0) (hlt : s.length < 2 ^ 32) :
    ∃ b₁ t rest, writeHtml d s.length s p0 = .ok (b₁, (htmlEscaped s).length) ∧ b₁.len = 0 ∧
      b₁.cells = (htmlEscaped s).map some ++ t :: rest := by
  obtain ⟨htake, hdrop⟩ := strpbrk_some hp0
  have hextra := countExtra_late_le s
  have hroom : toSizeT (s.length + countExtra (late s) + 1) = s.length + countExtra (late s) + 1 := by
    rw [toSizeT]
    omega
  obtain ⟨⟨hlen, -⟩, hcells⟩ := h.ensureAddlen (n := s.length + countExtra (late s) + 1) (by omega)
  rw [writeHtml, hdrop, htake, hroom]
  generalize d.chulaBufferEnsureAddlen (s.length + countExtra (late s) + 1) = b₀ at hlen hcells ⊢
  have hfits : (htmlEscaped s).length < b₀.cells.length := by
    rw [hcells, htmlEscaped_length, List.length_nil]
    split_ifs <;> omega
  have hE : (early s).length + ((late s).flatMap htmlOf).length = (htmlEscaped s).length := by
    rw [htmlEscaped, List.length_append]
  have hearly := (copyEarly_writes (early s) b₀.cells 0).fits (by omega)
  have hwlen : (written b₀.cells 0 (early s)).length = b₀.cells.length := written_length (by omega)
  have hlate := (copyHtml_writes (late s) (written b₀.cells 0 (early s)) (0 + (early s).length)).fits (by omega)
  rw [written_append (by omega), show early s ++ (late s).flatMap htmlOf = htmlEscaped s from rfl, Nat.zero_add, hE] at hlate
  obtain ⟨t, rest, hrest⟩ := List.exists_cons_of_ne_nil (List.ne_nil_of_length_pos (by rw [List.length_drop]; omega) :
    b₀.cells.drop (htmlEscaped s).length ≠ [])
  refine ⟨{ b₀ with buf := some (written b₀.cells 0 (htmlEscaped s)) }, t, rest, ?_, hlen, ?_⟩
  · rw [Nat.zero_add] at hearly
    dsimp only
    rw [hlen, List.length_nil, ok_then hearly]
    dsimp only
    rw [ok_then hlate]
  · rw [cells, Option.getD_some, written, List.take_zero, List.nil_append, Nat.zero_add, hrest]

/-- The C string in a string without NULs. -/
theorem takeWhile_noNul (hs : 0 ∉ s) : s.takeWhile (· ≠ 0) = s :=
  List.takeWhile_eq_self_iff.2 fun c hc => by simpa using fun h0 : c = 0 => hs (h0 ▸ hc)

/-- Escaping from one of the four characters on: only the length may wrap. -/
theorem addEscapeHtml_some (h : d.Filled []) (hs : 0 ∉ s) (hlt : s.length < 2 ^ 32)
    (hp0 : strpbrk s htmlStarters = some p0) : ∃ b', chulaBufferAddEscapeHtml d s = .ok (.ok, b') ∧
      b'.len = toUint32 (htmlEscaped s).length ∧ ((htmlEscaped s).length < 2 ^ 32 → b'.Reads (htmlEscaped s)) := by
  have hne : s.length ≠ 0 := by
    intro h0
    rw [List.length_eq_zero_iff.1 h0] at hp0
    cases hp0
  obtain ⟨b₁, t, rest, hwrite, hlen, hcells⟩ := writeHtml_eq h hp0 hlt
  obtain ⟨-, hdrop⟩ := strpbrk_some hp0
  have hnew : toUint32 (b₁.len + (s.length + countExtra (s.drop p0))) = toUint32 (htmlEscaped s).length := by
    rw [hlen, hdrop, htmlEscaped_length]
    push_cast
    rw [zero_add]
  have hle : toUint32 (htmlEscaped s).length ≤ (htmlEscaped s).length := by
    rw [toUint32]
    omega
  have hstore : store b₁.cells (toUint32 (htmlEscaped s).length) [some 0] =
      .ok (written b₁.cells (toUint32 (htmlEscaped s).length) [0]) :=
    @store_written _ b₁.cells _ [(0 : UInt8)] (by rw [hcells]; simp; omega)
  refine ⟨⟨some (written b₁.cells (toUint32 (htmlEscaped s).length) [0]), b₁.size, toUint32 (htmlEscaped s).length⟩, ?_, rfl,
    fun hlt => ?_⟩
  · rw [chulaBufferAddEscapeHtml, if_neg hne]
    dsimp only
    rw [takeWhile_noNul hs, hp0]
    dsimp only
    rw [if_neg (not_not_intro (toUint32_cast hlt)), ok_then hwrite]
    dsimp only
    rw [hnew, put, cells]
    rw [cells] at hstore
    dsimp only
    rw [ok_then hstore]
    rfl
  · have h0 : toUint32 (htmlEscaped s).length = (htmlEscaped s).length := toUint32_cast hlt
    have hsplit := @written_split _ [(0 : UInt8)] ((htmlEscaped s).map some) [t] rest rfl
    rw [List.length_map, List.append_assoc, List.append_assoc] at hsplit
    refine reads_of_cells ([some 0] ++ rest) h0 ?_
    rw [cells, Option.getD_some, h0, hcells]
    exact hsplit

/-- Without one of the four characters, the string is added as it is. -/
theorem addEscapeHtml_none (h : d.Filled []) (hs : 0 ∉ s) (hlt : s.length < 2 ^ 32)
    (hp0 : strpbrk s htmlStarters = none) :
    ∃ b', chulaBufferAddEscapeHtml d s = .ok (.ok, b') ∧ b'.Reads (htmlEscaped s) := by
  have hsame : htmlEscaped s = s := by
    have hlate := strpbrk_none hp0
    have happ := early_append_late s
    rw [hlate, List.append_nil] at happ
    rw [htmlEscaped, hlate, happ, List.flatMap_nil, List.append_nil]
  rw [hsame, chulaBufferAddEscapeHtml]
  split_ifs with hnil
  · refine ⟨d, rfl, ?_⟩
    rw [List.length_eq_zero_iff.1 hnil]
    exact h.reads
  · obtain ⟨b', hadd, hreads⟩ := @Filled.add _ _ s h (by simpa using hlt)
    dsimp only
    rw [takeWhile_noNul hs, hp0]
    dsimp only
    rw [ok_then hadd]
    exact ⟨b', rfl, hreads⟩

/-- A call returns with the string escaped as `r`, and has set the length to the number of octets that it has written. -/
structure EscapesAs (buf : RawBuffer) (s r : List UInt8) : Prop where
  returns : ∃ b', chulaBufferEscapeHtml buf s = .ok (.ok, b') ∧ b'.Reads r ∧
    ∀ d p0 b₁ p2, buf.chulaBufferClean = .ok d → strpbrk s htmlStarters = some p0 →
      writeHtml d s.length s p0 = .ok (b₁, p2) → b'.len = p2

theorem escapesAs_iff {old : List UInt8} (h : buf.Filled old) (hs : 0 ∉ s) (hlt : s.length < 2 ^ 32) (r : List UInt8) :
    EscapesAs buf s r ↔ r = htmlEscaped s ∧ (htmlEscaped s).length < 2 ^ 32 := by
  obtain ⟨d, hclean, hd, -⟩ := h.clean
  cases hp0 : strpbrk s htmlStarters with
  | none =>
    obtain ⟨b', hadd, hreads⟩ := addEscapeHtml_none hd hs hlt hp0
    have hcall : chulaBufferEscapeHtml buf s = .ok (.ok, b') := by rw [chulaBufferEscapeHtml, ok_then hclean, hadd]
    have hlen : (htmlEscaped s).length < 2 ^ 32 := by
      rw [htmlEscaped_length, strpbrk_none hp0]
      exact hlt
    constructor
    · rintro ⟨c, hc, hr, -⟩
      cases hcall.symm.trans hc
      exact ⟨hr.unique hreads, hlen⟩
    · rintro ⟨rfl, -⟩
      exact ⟨b', hcall, hreads, fun _ _ _ _ _ hsome => by cases hp0.symm.trans hsome⟩
  | some p0 =>
    obtain ⟨b', hadd, hblen, hreads⟩ := addEscapeHtml_some hd hs hlt hp0
    obtain ⟨b₁, -, -, hwrite, -⟩ := writeHtml_eq hd hp0 hlt
    have hcall : chulaBufferEscapeHtml buf s = .ok (.ok, b') := by rw [chulaBufferEscapeHtml, ok_then hclean, hadd]
    constructor
    · rintro ⟨c, hc, hr, hcount⟩
      cases hcall.symm.trans hc
      have hlen := hcount d p0 b₁ _ hclean hp0 hwrite
      rw [hblen, toUint32] at hlen
      have hlt' : (htmlEscaped s).length < 2 ^ 32 := by omega
      exact ⟨hr.unique (hreads hlt'), hlt'⟩
    · rintro ⟨rfl, hlt'⟩
      refine ⟨b', hcall, hreads hlt', fun d' q c p2 hd' hq hw => ?_⟩
      cases hclean.symm.trans hd'
      cases hp0.symm.trans hq
      cases hwrite.symm.trans hw
      rw [hblen, toUint32_cast hlt']

/-- What escaping is to do on `x ++ y`: it gives what it gives on `x` and on `y`, there is no `<`, `>`, `"` or single quote
in it, and the lengths are those of what is written. -/
def EscapesEach (buf buf' buf'' : RawBuffer) (x y : List UInt8) : Prop :=
  ∃ rx ry, EscapesAs buf (x ++ y) (rx ++ ry) ∧ EscapesAs buf' x rx ∧ EscapesAs buf'' y ry ∧
    ∀ c ∈ rx ++ ry, c ∉ [60, 62, 34, 39]

/-- When it does so: no single quote stands before the first of the four characters, in `x` or in `y`, and when one of the
four stands in `x`, there is neither `#` nor `/` before the first one of `y`. -/
structure EscapableEach (x y : List UInt8) : Prop where
  quotes : 39 ∉ early x ∧ 39 ∉ early y
  others : late x ≠ [] → 35 ∉ early y ∧ 47 ∉ early y
  fits : x.length + countExtra (late x) + (y.length + countExtra (late y)) < 2 ^ 32

/-- **HTML escaping** works on each character exactly then. -/
theorem escapeHtml_iff {buf' buf'' : RawBuffer} {old old' old'' : List UInt8} (h : buf.Filled old) (h' : buf'.Filled old')
    (h'' : buf''.Filled old'') (hx : 0 ∉ x) (hy : 0 ∉ y) (hlt : (x ++ y).length < 2 ^ 32) :
    EscapesEach buf buf' buf'' x y ↔ EscapableEach x y := by
  rw [List.length_append] at hlt
  have hxy : 0 ∉ x ++ y := by simp [hx, hy]
  have hcall := escapesAs_iff h hxy (by rw [List.length_append]; exact hlt)
  have hcall' := escapesAs_iff h' hx (by omega)
  have hcall'' := escapesAs_iff h'' hy (by omega)
  have hlen : (htmlEscaped x ++ htmlEscaped y).length =
      x.length + countExtra (late x) + (y.length + countExtra (late y)) := by
    rw [List.length_append, htmlEscaped_length, htmlEscaped_length]
  constructor
  · rintro ⟨rx, ry, h1, h2, h3, hclean⟩
    obtain ⟨rfl, -⟩ := (hcall' rx).1 h2
    obtain ⟨rfl, -⟩ := (hcall'' ry).1 h3
    obtain ⟨heq, hfits⟩ := (hcall _).1 h1
    rw [List.forall_mem_append] at hclean
    refine ⟨⟨htmlEscaped_clean.1 hclean.1, htmlEscaped_clean.1 hclean.2⟩, fun hlate => ?_, by rwa [← heq, hlen] at hfits⟩
    rw [htmlEscaped_append, if_neg hlate, List.append_cancel_left_eq] at heq
    have hothers := flatMap_htmlOf_eq.1 heq.symm
    exact ⟨fun hmem => hothers 35 hmem (by simp), fun hmem => hothers 47 hmem (by simp)⟩
  · rintro ⟨hquotes, hothers, hfits⟩
    have heq : htmlEscaped x ++ htmlEscaped y = htmlEscaped (x ++ y) := by
      rw [htmlEscaped_append]
      split_ifs with hlate
      · rfl
      · rw [flatMap_htmlOf_eq.2 fun c hc hmem => ?_]
        obtain ⟨h1, h2⟩ := hothers hlate
        simp only [List.mem_cons, List.not_mem_nil, or_false] at hmem
        rcases hmem with rfl | rfl | rfl
        · exact h1 hc
        · exact hquotes.2 hc
        · exact h2 hc
    rw [List.length_append] at hlen
    refine ⟨htmlEscaped x, htmlEscaped y, (hcall _).2 ⟨heq, ?_⟩, (hcall' _).2 ⟨rfl, by omega⟩, (hcall'' _).2 ⟨rfl, by omega⟩,
      List.forall_mem_append.2 ⟨htmlEscaped_clean.2 hquotes.1, htmlEscaped_clean.2 hquotes.2⟩⟩
    rw [← heq, List.length_append]
    omega

/-- `"a/"` and `"<'"`. -/
theorem escapeHtml_each : EscapesEach chulaBufInit chulaBufInit chulaBufInit [97, 47] [60, 39] :=
  (escapeHtml_iff filled_null filled_null filled_null (by decide) (by decide) (by decide)).2
    ⟨by decide, fun h => absurd h (by decide), by decide⟩

/-- `"'"` is left as it is when none of the four characters is there. -/
theorem escapeHtml_quote : ¬EscapesEach chulaBufInit chulaBufInit chulaBufInit [39] [97] := by
  rintro ⟨rx, ry, -, h2, -, hclean⟩
  obtain ⟨rfl, -⟩ := (escapesAs_iff filled_null (by decide) (by decide) rx).1 h2
  exact hclean 39 (List.mem_append_left _ (by decide)) (by decide)

end Calls

end LibHpack
