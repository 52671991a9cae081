import LibHpack.General.Replace
import LibHpack.Uri.Model
import LibHpack.Buffer.Contents

/-!
# LibHpack.Buffer.Replace — chula_buffer_replace_string and chula_buffer_substitute_string (libchula buffer.c)

Both functions go through the source twice with `strstr`: `resultLoop` computes the size of the result, in an `int`, and
`buildLoop` writes it.  What differs is the block that is written to, how the length of what is left behind the last
occurrence is found, and a conversion to `int`.
-/

namespace LibHpack

open Memory Run RawBuffer

/-- The result of an operation on `int`. -/
def checkInt (x : ℤ) : Except UriFault ℤ := if -2 ^ 31 ≤ x ∧ x < 2 ^ 31 then .ok x else .error .overflow

/-- Whether the octets stand at `p`; the comparison ends where they differ. -/
def standsAt (m : Memory.Block UInt8) (p : ℕ) : List UInt8 → Except Escape Bool
  | [] => .ok true
  | c :: substring => do
    let d ← read m p
    if d ≠ c then .ok false else standsAt m (p + 1) substring

/-- `strstr`, from `p` on, with at most `k` cells there. -/
def strstr (m : Memory.Block UInt8) (substring : List UInt8) : ℕ → ℕ → Except Escape (Option ℕ)
  | 0, p => .error ⟨p + 1, m.length⟩
  | k + 1, p => do
    let stands ← standsAt m p substring
    if stands then .ok (some p)
    else do
      let d ← read m p
      if d = 0 then .ok none else strstr m substring k (p + 1)

/-- `strlen`, likewise. -/
def strlen (m : Memory.Block UInt8) : ℕ → ℕ → Except Escape ℕ
  | 0, p => .error ⟨p + 1, m.length⟩
  | k + 1, p => do
    let d ← read m p
    if d = 0 then .ok 0 else (· + 1) <$> strlen m k (p + 1)

/-- "Calculate the new size", with at most `k` occurrences: the last `p`, and `result_length`. -/
def resultLoop (m : Memory.Block UInt8) (substring : List UInt8) (substringLength replacementLength : ℤ) :
    ℕ → ℕ → ℤ → Except UriFault (ℕ × ℤ)
  | 0, p, _ => .error (.access ⟨p + 1, m.length⟩)
  | k + 1, p, resultLength => do
    let substringPosition ← (strstr m substring (m.length - p) p).mapError .access
    match substringPosition with
    | none => .ok (p, resultLength)
    | some q => do
      let diff ← checkInt (replacementLength - substringLength)
      let resultLength ← checkInt (resultLength + diff)
      resultLoop m substring substringLength replacementLength k (q + substringLength.toNat) resultLength

/-- `memcpy (result_position, p, n)`. -/
def copyCells (m : Memory.Block UInt8) (p n : ℕ) (result : Memory.Block UInt8) (t : ℕ) : Except Escape (Memory.Block UInt8) := do
  let xs ← load m p n
  store result t xs

/-- `memcpy (result_position, replacement, n)`. -/
def copyText (txt : List UInt8) (n : ℕ) (result : Memory.Block UInt8) (t : ℕ) : Except Escape (Memory.Block UInt8) :=
  if txt.length < n then .error ⟨n, txt.length⟩ else store result t ((txt.take n).map some)

/-- `result_position += d`. -/
def advance (t : ℕ) (d : ℤ) : Except Escape ℕ := if t + d < 0 then .error ⟨0, 0⟩ else .ok (t + d).toNat

/-- In what the two functions differ while they write: the conversion of a distance, and `remaining_length`. -/
structure BuildStyle where
  distance : ℕ → ℤ
  remaining : ℕ → Except Escape ℤ

/-- "Build the new string". -/
def buildLoop (style : BuildStyle) (m : Memory.Block UInt8) (substring replacement : List UInt8)
    (substringLength replacementLength : ℤ) : ℕ → ℕ → Memory.Block UInt8 → ℕ → Except Escape (Memory.Block UInt8 × ℕ)
  | 0, p, _, _ => .error ⟨p + 1, m.length⟩
  | k + 1, p, result, t => do
    let substringPosition ← strstr m substring (m.length - p) p
    match substringPosition with
    | none => do
      let remainingLength ← style.remaining p
      let result ← copyCells m p (toSizeT remainingLength) result t
      let t ← advance t remainingLength
      .ok (result, t)
    | some q => do
      let result ← copyCells m p (q - p) result t
      let t ← advance t (style.distance (q - p))
      let result ← copyText replacement (toSizeT replacementLength) result t
      let t ← advance t replacementLength
      buildLoop style m substring replacement substringLength replacementLength k (q + substringLength.toNat) result t

/-- Building, and the NUL behind it. -/
def buildResult (style : BuildStyle) (m : Memory.Block UInt8) (substring replacement : List UInt8)
    (substringLength replacementLength : ℤ) (result : Memory.Block UInt8) : Except UriFault (Memory.Block UInt8) :=
  Except.mapError .access do
    let (result, t) ← buildLoop style m substring replacement substringLength replacementLength (m.length + 1) 0 result 0
    store result t [some 0]

/-- `strlen` tells where the source ends. -/
def replaceStyle (m : Memory.Block UInt8) : BuildStyle where
  distance n := n
  remaining p := do
    let n ← strlen m (m.length - p) p
    .ok (toInt n)

/-- The stored length does. -/
def substituteStyle (len : ℕ) : BuildStyle where
  distance n := toInt n
  remaining p := .ok (toInt (len - p))

/-- The result of `chula_buffer_replace_string`, in a block of its own. -/
def replaceWith (buf : RawBuffer) (substring replacement : List UInt8) (substringLength replacementLength resultLength : ℤ) :
    Except UriFault RawBuffer := do
  let size ← checkInt (resultLength + 1)
  let result ← buildResult (replaceStyle buf.cells) buf.cells substring replacement substringLength replacementLength
    (List.replicate (toSizeT size) none)
  .ok ⟨some result, toUint32 size, toUint32 resultLength⟩

/-- `chula_buffer_replace_string`; the strings may be null pointers. -/
def chulaBufferReplaceString (buf : RawBuffer) (substring : Option (List UInt8)) (substringLength : ℤ)
    (replacement : Option (List UInt8)) (replacementLength : ℤ) : Except UriFault (Ret × RawBuffer) :=
  if replacement.isNone ∧ replacementLength ≠ 0 then .ok (.deny, buf)
  else if buf.len = 0 then .ok (.ok, buf)
  else
    match substring with
    | none => .ok (.deny, buf)
    | some substring =>
      if substringLength < 1 ∨ replacementLength < 0 then .ok (.deny, buf)
      else do
        let (p, resultLength) ← resultLoop buf.cells substring substringLength replacementLength (buf.cells.length + 1) 0
          (toInt buf.len)
        if p = 0 then .ok (.ok, buf)
        else if resultLength < 1 then do
          let buf ← (buf.put 0 0).mapError .access
          .ok (.ok, { buf with len := 0 })
        else do
          let buf ← replaceWith buf substring (replacement.getD []) substringLength replacementLength resultLength
          .ok (.ok, buf)

/-- The result of `chula_buffer_substitute_string`, in the block of `bufdst`. -/
def substituteWith (bufsrc bufdst : RawBuffer) (substring replacement : List UInt8)
    (substringLength replacementLength resultLength : ℤ) : Except UriFault RawBuffer := do
  let size ← checkInt (resultLength + 2)
  let bufdst := bufdst.chulaBufferEnsureSize (toSizeT size)
  let result ← buildResult (substituteStyle bufsrc.len) bufsrc.cells substring replacement substringLength replacementLength
    bufdst.cells
  .ok { bufdst with buf := some result, len := toUint32 resultLength }

/-- `chula_buffer_substitute_string`, likewise. -/
def chulaBufferSubstituteString (bufsrc bufdst : RawBuffer) (substring : Option (List UInt8)) (substringLength : ℤ)
    (replacement : Option (List UInt8)) (replacementLength : ℤ) : Except UriFault (Ret × RawBuffer) :=
  if bufsrc.len = 0 then .ok (.ok, bufdst)
  else
    match substring with
    | none => .ok (.deny, bufdst)
    | some substring =>
      if substringLength < 1 then .ok (.deny, bufdst)
      else do
        let bufdst ← bufdst.chulaBufferClean.mapError .access
        let (p, resultLength) ← resultLoop bufsrc.cells substring substringLength replacementLength (bufsrc.cells.length + 1) 0
          (toInt bufsrc.len)
        if p = 0 then .ok (.notFound, bufdst)
        else if resultLength < 1 then .ok (.ok, bufdst)
        else do
          let bufdst ← substituteWith bufsrc bufdst substring (replacement.getD []) substringLength replacementLength resultLength
          .ok (.ok, bufdst)

/-! ### Reading the source -/

/-- A block with a string: `u` is before the pointer, and `v` behind it. -/
def source (u v : List UInt8) (rest : Memory.Block UInt8) : Memory.Block UInt8 := (u ++ v).map some ++ some 0 :: rest

section Reading

variable {u v x : List UInt8} {rest : Memory.Block UInt8} {c : UInt8} {k q : ℕ}

theorem source_append (u w v : List UInt8) (rest : Memory.Block UInt8) : source u (w ++ v) rest = source (u ++ w) v rest := by
  rw [source, source, List.append_assoc]

theorem source_length : (source u v rest).length = u.length + v.length + 1 + rest.length := by
  rw [source, List.length_append, List.length_map, List.length_append, List.length_cons]
  omega

theorem read_source : read (source u (c :: v) rest) u.length = .ok c := by
  refine read_of_getElem? ?_
  simp [source]

theorem read_source_nil : read (source u [] rest) u.length = .ok 0 := by
  refine read_of_getElem? ?_
  simp [source]

theorem load_source (u w v : List UInt8) (rest : Memory.Block UInt8) :
    load (source u (w ++ v) rest) u.length w.length = .ok (w.map some) := by
  have h := load_append (u.map some) (w.map some) (v.map some ++ some 0 :: rest)
  rw [List.length_map, List.length_map] at h
  rw [source, List.map_append, List.map_append, List.append_assoc, List.append_assoc, ← List.append_assoc (u.map some)]
  exact h

theorem standsAt_source (hx : 0 ∉ x) : standsAt (source u v rest) u.length x = .ok (decide (x <+: v)) := by
  induction x generalizing u v with
  | nil => simp [standsAt]
  | cons c x ih =>
    rw [List.mem_cons, not_or] at hx
    rw [standsAt]
    cases v with
    | nil =>
      rw [ok_then read_source_nil, if_pos hx.1]
      simp
    | cons d v =>
      rw [ok_then read_source]
      by_cases hd : d = c
      · have hrest := @ih (u ++ [c]) v hx.2
        rw [← source_append, List.length_append] at hrest
        rw [if_neg (not_not.2 hd), hd]
        refine hrest.trans ?_
        simp [List.cons_prefix_cons]
      · rw [if_pos hd]
        simp [List.cons_prefix_cons, Ne.symm hd]

/-- **`strstr`** finds the first occurrence. -/
theorem strstr_source (u : List UInt8) (rest : Memory.Block UInt8) (hx : x ≠ []) (hxz : 0 ∉ x) (hv : 0 ∉ v) (hk : v.length < k) :
    strstr (source u v rest) x k u.length = .ok ((occurrence x v).map (· + u.length)) := by
  induction v generalizing u k with
  | nil =>
    obtain ⟨k, rfl⟩ := Nat.exists_eq_succ_of_ne_zero (Nat.ne_zero_of_lt hk)
    have hnone : ¬x <+: [] := fun h => hx (List.prefix_nil.1 h)
    rw [strstr, ok_then (standsAt_source hxz), occurrence, if_neg hnone, decide_eq_false hnone]
    rw [if_neg Bool.false_ne_true, ok_then read_source_nil]
    rfl
  | cons c v ih =>
    obtain ⟨k, rfl⟩ := Nat.exists_eq_succ_of_ne_zero (Nat.ne_zero_of_lt hk)
    rw [List.mem_cons, not_or] at hv
    rw [strstr, ok_then (standsAt_source hxz), occurrence]
    by_cases hhere : x <+: c :: v
    · rw [if_pos hhere, decide_eq_true hhere, if_pos rfl, Option.map_some, Nat.zero_add]
    · rw [if_neg hhere, decide_eq_false hhere, if_neg Bool.false_ne_true, ok_then read_source, if_neg (Ne.symm hv.1)]
      have hrest := @ih k (u ++ [c]) hv.2 (Nat.lt_of_succ_lt_succ hk)
      rw [← source_append, List.length_append] at hrest
      rw [← List.singleton_append]
      refine hrest.trans (congrArg _ ?_)
      cases occurrence x v with
      | none => rfl
      | some q => exact congrArg some (by simp; omega)

theorem strlen_source (u : List UInt8) (rest : Memory.Block UInt8) (hv : 0 ∉ v) (hk : v.length < k) :
    strlen (source u v rest) k u.length = .ok v.length := by
  induction v generalizing u k with
  | nil =>
    obtain ⟨k, rfl⟩ := Nat.exists_eq_succ_of_ne_zero (Nat.ne_zero_of_lt hk)
    rw [strlen, ok_then read_source_nil]
    rfl
  | cons c v ih =>
    obtain ⟨k, rfl⟩ := Nat.exists_eq_succ_of_ne_zero (Nat.ne_zero_of_lt hk)
    rw [List.mem_cons, not_or] at hv
    have hrest := @ih k (u ++ [c]) hv.2 (Nat.lt_of_succ_lt_succ hk)
    rw [← source_append, List.length_append] at hrest
    rw [strlen, ok_then read_source, if_neg (Ne.symm hv.1), ← List.singleton_append]
    exact congrArg ((· + 1) <$> ·) hrest

end Reading

/-! ### The size of the result -/

/-- The values of `int`. -/
def IsInt (x : ℤ) : Prop := -2 ^ 31 ≤ x ∧ x < 2 ^ 31

instance (x : ℤ) : Decidable (IsInt x) := inferInstanceAs (Decidable (_ ∧ _))

section Size

variable {u v x : List UInt8} {rest : Memory.Block UInt8} {k n q : ℕ} {r d yl : ℤ}

theorem checkInt_ok (h : IsInt r) : checkInt r = .ok r := if_pos h

theorem checkInt_error (h : ¬IsInt r) : checkInt r = .error .overflow := if_neg h

/-- Sums of equal terms overflow for good. -/
theorem IsInt.first (h : IsInt r) (hsum : IsInt (r + (n + 1 : ℕ) * d)) : IsInt (r + d) := by
  have hsplit : r + ((n + 1 : ℕ) : ℤ) * d = r + d + n * d := by
    push_cast
    ring
  rw [hsplit] at hsum
  obtain ⟨hlo, hhi⟩ := h
  obtain ⟨hlo', hhi'⟩ := hsum
  rcases le_total 0 d with hd | hd
  · have hnd : 0 ≤ (n : ℤ) * d := mul_nonneg (Nat.cast_nonneg n) hd
    exact ⟨by omega, by omega⟩
  · have hnd : (n : ℤ) * d ≤ 0 := mul_nonpos_of_nonneg_of_nonpos (Nat.cast_nonneg n) hd
    exact ⟨by omega, by omega⟩

/-- Behind the first occurrence. -/
theorem source_occurrence (u : List UInt8) (rest : Memory.Block UInt8) (hx : x ≠ []) (h : occurrence x v = some q) :
    source u v rest = source (u ++ v.take (q + x.length)) (v.drop (q + x.length)) rest ∧
      q + u.length + x.length = (u ++ v.take (q + x.length)).length := by
  have hle := occurrence_le hx h
  constructor
  · rw [← source_append, List.take_append_drop]
  · rw [List.length_append, List.length_take]
    omega

/-- **Computing the size**: it overflows where the size of the result is no `int`. -/
theorem resultLoop_eq (u : List UInt8) (rest : Memory.Block UInt8) (hx : x ≠ []) (hxz : 0 ∉ x) (hv : 0 ∉ v) (hk : v.length < k)
    (hr : IsInt r) (hd : IsInt (yl - x.length)) :
    (IsInt (r + occurrences x 0 v * (yl - x.length)) → ∃ p, u.length ≤ p ∧ (p = u.length ↔ occurrence x v = none) ∧
      resultLoop (source u v rest) x x.length yl k u.length r = .ok (p, r + occurrences x 0 v * (yl - x.length))) ∧
    (¬IsInt (r + occurrences x 0 v * (yl - x.length)) →
      resultLoop (source u v rest) x x.length yl k u.length r = .error .overflow) := by
  induction k generalizing u v r with
  | zero => omega
  | succ k ih =>
    rw [resultLoop, strstr_source u rest hx hxz hv (by rw [source_length]; omega)]
    cases h : occurrence x v with
    | none =>
      rw [occurrences_of_none h, Nat.cast_zero, zero_mul, add_zero]
      exact ⟨fun _ => ⟨u.length, le_rfl, iff_of_true rfl rfl, rfl⟩, fun hover => absurd hr hover⟩
    | some q =>
      obtain ⟨hsource, hpos⟩ := source_occurrence u rest hx h
      have hle := occurrence_le hx h
      have hxpos := List.length_pos_iff.2 hx
      have hnext : r + (occurrences x 0 v : ℤ) * (yl - x.length) =
          r + (yl - x.length) + occurrences x 0 (v.drop (q + x.length)) * (yl - x.length) := by
        rw [occurrences_of_some hx h]
        push_cast
        ring
      dsimp only [Option.map_some, Except.mapError]
      rw [ok_then rfl]
      dsimp only
      rw [ok_then (checkInt_ok hd), Int.toNat_natCast, hpos, hsource]
      by_cases hsum : IsInt (r + (yl - x.length))
      · rw [ok_then (checkInt_ok hsum), hnext]
        obtain ⟨hok, herr⟩ := @ih (v.drop (q + x.length)) (r + (yl - x.length)) (u ++ v.take (q + x.length))
          (fun h0 => hv (List.mem_of_mem_drop h0)) (by rw [List.length_drop]; omega) hsum
        refine ⟨fun htotal => ?_, herr⟩
        obtain ⟨p, hp, -, heq⟩ := hok htotal
        rw [← hpos] at hp
        refine ⟨p, by omega, iff_of_false (by omega) (Option.some_ne_none q), heq⟩
      · rw [checkInt_error hsum]
        refine ⟨fun htotal => ?_, fun _ => rfl⟩
        rw [occurrences_of_some hx h] at htotal
        exact absurd (hr.first htotal) hsum

end Size

/-! ### Building the result -/

/-- How the functions differ makes no difference on the source `s`. -/
structure StyleOk (style : BuildStyle) (s : List UInt8) : Prop where
  distance : ∀ n ≤ s.length, style.distance n = n
  remaining : ∀ u v, u ++ v = s → style.remaining u.length = .ok v.length

section Building

variable {style : BuildStyle} {u v x y s : List UInt8} {rest result : Memory.Block UInt8} {k t : ℕ}

theorem copyCells_source (u w v : List UInt8) (rest result : Memory.Block UInt8) (t : ℕ) :
    copyCells (source u (w ++ v) rest) u.length w.length result t = store result t (w.map some) := by
  rw [copyCells, ok_then (load_source u w v rest)]

theorem copyText_all (y : List UInt8) (result : Memory.Block UInt8) (t : ℕ) :
    copyText y y.length result t = store result t (y.map some) := by
  rw [copyText, if_neg (Nat.lt_irrefl _), List.take_length]

theorem advance_ok (t n : ℕ) : advance t n = .ok (t + n) := by
  rw [advance, if_neg (by omega), ← Nat.cast_add, Int.toNat_natCast]

/-- **Building** writes the source with every occurrence replaced. -/
theorem buildLoop_writes (rest result : Memory.Block UInt8) (hstyle : StyleOk style s) (hlt : s.length < 2 ^ 31)
    (hx : x ≠ []) (hxz : 0 ∉ x)
    (hy : y.length < 2 ^ 31) (hs : 0 ∉ s) (huv : u ++ v = s) (hk : v.length < k) :
    Writes (buildLoop style (source u v rest) x y x.length y.length k u.length result t) result t (replaceAll x y 0 v) := by
  induction k generalizing u v result t with
  | zero => omega
  | succ k ih =>
    have hlen := congrArg List.length huv
    rw [List.length_append] at hlen
    have hv : 0 ∉ v := fun h0 => hs (huv ▸ List.mem_append_right u h0)
    rw [buildLoop, strstr_source u rest hx hxz hv (by rw [source_length]; omega)]
    cases h : occurrence x v with
    | none =>
      have hcopy := copyCells_source u v [] rest result t
      rw [List.append_nil] at hcopy
      rw [Option.map_none, ok_then rfl]
      dsimp only
      rw [ok_then (hstyle.remaining u v huv), toSizeT_cast (by omega), hcopy, replaceAll_of_none h]
      have hwrites : Writes (store result t (v.map some) >>= fun b' => advance t v.length >>= fun t' => .ok (b', t'))
          result t (v ++ []) := by
        refine Writes.store_then v fun b' => ?_
        rw [ok_then (advance_ok t v.length)]
        exact .nil _ _
      rwa [List.append_nil] at hwrites
    | some q =>
      obtain ⟨hsource, hpos⟩ := source_occurrence u rest hx h
      have hle := occurrence_le hx h
      have hxpos := List.length_pos_iff.2 hx
      have htake : (v.take q).length = q := List.length_take_of_le (by omega)
      have hcopy := copyCells_source u (v.take q) (v.drop q) rest result t
      rw [List.take_append_drop, htake] at hcopy
      have hbehind : u ++ v.take (q + x.length) ++ v.drop (q + x.length) = s := by
        rw [List.append_assoc, List.take_append_drop, huv]
      rw [Option.map_some, ok_then rfl]
      dsimp only
      rw [Nat.add_sub_cancel, hcopy, hstyle.distance q (by omega), toSizeT_cast (by omega), Int.toNat_natCast, hpos, hsource,
        replaceAll_of_some hx h]
      refine Writes.store_then (v.take q) fun b' => ?_
      rw [htake, ok_then (advance_ok t q), copyText_all]
      refine Writes.store_then y fun b'' => ?_
      rw [ok_then (advance_ok (t + q) y.length)]
      exact ih _ hbehind (by rw [List.length_drop]; omega)

theorem buildResult_eq (rest result : Memory.Block UInt8) (hstyle : StyleOk style s) (hlt : s.length < 2 ^ 31) (hx : x ≠ [])
    (hxz : 0 ∉ x) (hy : y.length < 2 ^ 31) (hs : 0 ∉ s) (hroom : (replaceAll x y 0 s).length < result.length) :
    buildResult style (source [] s rest) x y x.length y.length result =
      .ok ((replaceAll x y 0 s).map some ++ [some 0] ++ result.drop ((replaceAll x y 0 s).length + 1)) := by
  have hwrites := buildLoop_writes (u := []) (v := s) (k := (source [] s rest).length + 1) (t := 0) rest result hstyle hlt
    hx hxz hy hs rfl (by rw [source_length]; omega)
  have hstore := @store_written _ (written result 0 (replaceAll x y 0 s)) (0 + (replaceAll x y 0 s).length) [(0 : UInt8)]
    (by rw [written_length (by omega), List.length_singleton]; omega)
  rw [written_append (by omega)] at hstore
  rw [List.length_nil] at hwrites
  rw [buildResult, ok_then (hwrites.fits (by omega))]
  dsimp only
  refine (congrArg (Except.mapError UriFault.access) hstore).trans (congrArg Except.ok ?_)
  rw [written, List.take_zero, List.nil_append, List.map_append, List.length_append, Nat.zero_add]
  rfl

theorem replaceStyle_ok (rest : Memory.Block UInt8) (hs : 0 ∉ s) (hlt : s.length < 2 ^ 31) :
    StyleOk (replaceStyle (source [] s rest)) s where
  distance _ _ := rfl
  remaining u v huv := by
    have hlen := congrArg List.length huv
    rw [List.length_append] at hlen
    have hsource : source [] s rest = source u v rest := by rw [source, source, List.nil_append, huv]
    have hv : 0 ∉ v := fun h0 => hs (huv ▸ List.mem_append_right u h0)
    have hstrlen := strlen_source (k := (source u v rest).length - u.length) u rest hv
      (by rw [source_length]; omega)
    rw [replaceStyle, hsource]
    dsimp only
    rw [ok_then hstrlen, toInt_of (by omega) (by omega)]

theorem substituteStyle_ok (hlt : s.length < 2 ^ 31) : StyleOk (substituteStyle s.length) s where
  distance n hn := by
    rw [substituteStyle]
    dsimp only
    rw [toInt_of (by omega) (by omega)]
  remaining u v huv := by
    have hlen := congrArg List.length huv
    rw [List.length_append] at hlen
    have hsub : (s.length : ℤ) - u.length = v.length := by omega
    rw [substituteStyle]
    dsimp only
    rw [hsub, toInt_of (by omega) (by omega)]

end Building

/-! ### The two functions -/

/-- What the two functions are to do to the string `s` of `buf`, with `dst` as the destination of the second. -/
def Replaces (buf dst : RawBuffer) (s x y : List UInt8) : Prop :=
  if x <:+: s then
    (∃ b, chulaBufferReplaceString buf (some x) x.length (some y) y.length = .ok (.ok, b) ∧
      b.Filled (replaceAll x y 0 s)) ∧
    ∃ d, chulaBufferSubstituteString buf dst (some x) x.length (some y) y.length = .ok (.ok, d) ∧
      d.Filled (replaceAll x y 0 s)
  else
    chulaBufferReplaceString buf (some x) x.length (some y) y.length = .ok (.ok, buf) ∧
    ∃ d, chulaBufferSubstituteString buf dst (some x) x.length (some y) y.length = .ok (.notFound, d)

/-- The strings of a call: the source is not empty and has its NUL behind it, the needle is not empty, neither has a NUL
in it, and the lengths that are given are values of `int`. -/
structure Replacement (buf : RawBuffer) (s x y : List UInt8) : Prop where
  filled : buf.Filled s
  terminated : buf.Terminated
  source_ne : s ≠ []
  source_noNul : 0 ∉ s
  needle_ne : x ≠ []
  needle_noNul : 0 ∉ x
  needle_int : x.length < 2 ^ 31
  text_int : y.length < 2 ^ 31

section Functions

variable {buf dst : RawBuffer} {s d x y : List UInt8}

theorem access_ok {β : Type} {z : Except Escape β} {a : β} (h : z = .ok a) : z.mapError UriFault.access = .ok a := by
  rw [h]
  rfl

namespace Replacement

theorem len_ne (h : Replacement buf s x y) : buf.len ≠ 0 := by
  rw [h.filled.reads.1]
  exact (List.length_pos_iff.2 h.source_ne).ne'

theorem source_lt (h : Replacement buf s x y) : s.length < 2 ^ 32 := h.filled.len_le.trans_lt h.filled.size_lt

theorem cells_eq (h : Replacement buf s x y) : ∃ rest, buf.cells = source [] s rest := h.filled.cells_eq h.terminated

/-- The size of the result, as it is computed. -/
theorem size_eq (h : Replacement buf s x y) :
    (s.length : ℤ) + occurrences x 0 s * (y.length - x.length) = (replaceAll x y 0 s).length := by
  have hlen := replaceAll_length h.needle_ne y s
  have hcast := congrArg (fun n : ℕ => (n : ℤ)) hlen
  push_cast at hcast
  linarith

theorem replace_eq (h : Replacement buf s x y) :
    chulaBufferReplaceString buf (some x) x.length (some y) y.length =
      (resultLoop buf.cells x x.length y.length (buf.cells.length + 1) 0 (toInt buf.len) >>= fun pr =>
        if pr.1 = 0 then .ok (.ok, buf)
        else if pr.2 < 1 then (buf.put 0 0).mapError .access >>= fun buf => .ok (.ok, { buf with len := 0 })
        else replaceWith buf x y x.length y.length pr.2 >>= fun buf => .ok (.ok, buf)) := by
  have hpos := List.length_pos_iff.2 h.needle_ne
  rw [chulaBufferReplaceString, if_neg (by simp), if_neg h.len_ne]
  dsimp only
  rw [if_neg (by omega)]
  rfl

theorem substitute_eq (h : Replacement buf s x y) :
    chulaBufferSubstituteString buf dst (some x) x.length (some y) y.length =
      (dst.chulaBufferClean.mapError .access >>= fun dst =>
        resultLoop buf.cells x x.length y.length (buf.cells.length + 1) 0 (toInt buf.len) >>= fun pr =>
        if pr.1 = 0 then .ok (.notFound, dst)
        else if pr.2 < 1 then .ok (.ok, dst)
        else substituteWith buf dst x y x.length y.length pr.2 >>= fun dst => .ok (.ok, dst)) := by
  have hpos := List.length_pos_iff.2 h.needle_ne
  rw [chulaBufferSubstituteString, if_neg h.len_ne]
  dsimp only
  rw [if_neg (by omega)]
  rfl

/-- The scan of the source. -/
theorem resultLoop_eq (h : Replacement buf s x y) :
    (IsInt (toInt s.length + occurrences x 0 s * (y.length - x.length)) → ∃ p, (p = 0 ↔ ¬x <:+: s) ∧
      resultLoop buf.cells x x.length y.length (buf.cells.length + 1) 0 (toInt buf.len) =
        .ok (p, toInt s.length + occurrences x 0 s * (y.length - x.length))) ∧
    (¬IsInt (toInt s.length + occurrences x 0 s * (y.length - x.length)) →
      resultLoop buf.cells x x.length y.length (buf.cells.length + 1) 0 (toInt buf.len) = .error .overflow) := by
  obtain ⟨rest, hrest⟩ := h.cells_eq
  have hneedle := h.needle_int
  have htext := h.text_int
  have hdiff : IsInt ((y.length : ℤ) - x.length) := ⟨by omega, by omega⟩
  obtain ⟨hok, herr⟩ := LibHpack.resultLoop_eq (k := buf.cells.length + 1) [] rest h.needle_ne h.needle_noNul h.source_noNul
    (by rw [hrest, source_length]; omega) (toInt_bounds s.length) hdiff
  rw [← hrest, List.length_nil] at hok herr
  rw [h.filled.reads.1]
  refine ⟨fun hint => ?_, herr⟩
  obtain ⟨p, -, hp, heq⟩ := hok hint
  exact ⟨p, hp.trans (occurrence_eq_none_iff h.needle_ne), heq⟩

/-- The scan of a source whose size, and that of the result, are values of `int`. -/
theorem resultLoop_found (h : Replacement buf s x y) (hlt : s.length < 2 ^ 31) (hr : (replaceAll x y 0 s).length < 2 ^ 31) :
    ∃ p, (p = 0 ↔ ¬x <:+: s) ∧ resultLoop buf.cells x x.length y.length (buf.cells.length + 1) 0 (toInt buf.len) =
      .ok (p, (replaceAll x y 0 s).length) := by
  have hint := h.resultLoop_eq.1
  rw [toInt_of (by omega) (by omega), h.size_eq] at hint
  exact hint ⟨by omega, by omega⟩

theorem resultLoop_none (h : Replacement buf s x y) (hocc : ¬x <:+: s) :
    resultLoop buf.cells x x.length y.length (buf.cells.length + 1) 0 (toInt buf.len) = .ok (0, toInt s.length) := by
  have hint := h.resultLoop_eq.1
  rw [occurrences_of_none ((occurrence_eq_none_iff h.needle_ne).2 hocc), Nat.cast_zero, zero_mul, add_zero] at hint
  obtain ⟨p, hp, heq⟩ := hint (toInt_bounds _)
  rwa [hp.2 hocc] at heq

theorem replace_none (h : Replacement buf s x y) (hocc : ¬x <:+: s) :
    chulaBufferReplaceString buf (some x) x.length (some y) y.length = .ok (.ok, buf) := by
  rw [h.replace_eq, ok_then (h.resultLoop_none hocc)]
  rfl

theorem substitute_none (h : Replacement buf s x y) (hd : dst.Filled d) (hocc : ¬x <:+: s) :
    ∃ d', chulaBufferSubstituteString buf dst (some x) x.length (some y) y.length = .ok (.notFound, d') := by
  obtain ⟨dst', hclean, -, -⟩ := hd.clean
  refine ⟨dst', ?_⟩
  rw [h.substitute_eq, ok_then (access_ok hclean), ok_then (h.resultLoop_none hocc)]
  rfl

/-- Emptying the source, as `chula_buffer_clean` does. -/
theorem put_clean (h : Replacement buf s x y) :
    ∃ b, buf.put 0 0 = .ok b ∧ ({ b with len := 0 } : RawBuffer).Filled [] := by
  have hsome : buf.buf.isSome := by
    rw [h.terminated.buf_eq]
    rfl
  obtain ⟨d, hclean, hfilled, -⟩ := h.filled.clean
  rw [RawBuffer.chulaBufferClean, if_pos hsome] at hclean
  obtain ⟨b, hput, hlen⟩ := ok_of_then hclean
  cases hlen
  exact ⟨b, hput, hfilled⟩

/-- **Replacing in place.** -/
theorem replace_found (h : Replacement buf s x y) (hocc : x <:+: s) (hlt : s.length < 2 ^ 31)
    (hr : (replaceAll x y 0 s).length + 1 < 2 ^ 31) :
    ∃ b, chulaBufferReplaceString buf (some x) x.length (some y) y.length = .ok (.ok, b) ∧
      b.Filled (replaceAll x y 0 s) := by
  obtain ⟨p, hp, hloop⟩ := h.resultLoop_found hlt (by omega)
  have hp0 : p ≠ 0 := fun h0 => hp.1 h0 hocc
  rw [h.replace_eq, ok_then hloop]
  dsimp only
  rw [if_neg hp0]
  by_cases hempty : ((replaceAll x y 0 s).length : ℤ) < 1
  · obtain ⟨b, hput, hfilled⟩ := h.put_clean
    rw [if_pos hempty, ok_then (access_ok hput), List.length_eq_zero_iff.1 (by omega : (replaceAll x y 0 s).length = 0)]
    exact ⟨_, rfl, hfilled⟩
  · obtain ⟨rest, hrest⟩ := h.cells_eq
    have hcheck : checkInt ((replaceAll x y 0 s).length + 1) = .ok ((replaceAll x y 0 s).length + 1) :=
      checkInt_ok ⟨by omega, by omega⟩
    have hsize : toSizeT ((replaceAll x y 0 s).length + 1) = (replaceAll x y 0 s).length + 1 :=
      toSizeT_cast (n := (replaceAll x y 0 s).length + 1) (by omega)
    have hbuild := buildResult_eq rest (List.replicate (toSizeT ((replaceAll x y 0 s).length + 1)) none)
      (replaceStyle_ok rest h.source_noNul hlt) hlt h.needle_ne h.needle_noNul h.text_int h.source_noNul
      (by rw [List.length_replicate, hsize]; omega)
    rw [← hrest, hsize, List.drop_replicate, Nat.sub_self, List.replicate_zero, List.append_nil] at hbuild
    rw [if_neg hempty, replaceWith, ok_then hcheck, hsize, ok_then hbuild]
    refine ⟨_, rfl, ?_, ?_, ?_, ?_⟩
    · exact reads_of_cells [some 0] (toUint32_cast (by omega)) rfl
    · rw [cells, Option.getD_some, List.length_append, List.length_map, List.length_singleton]
      exact (toUint32_cast (n := (replaceAll x y 0 s).length + 1) (by omega)).symm
    · exact (toUint32_cast (n := (replaceAll x y 0 s).length + 1) (by omega)).trans_lt (by omega)
    · intro _
      exact (toUint32_cast (n := (replaceAll x y 0 s).length + 1) (by omega)).symm ▸ Nat.succ_pos _

/-- **Replacing into another buffer.** -/
theorem substitute_found (h : Replacement buf s x y) (hd : dst.Filled d) (hocc : x <:+: s) (hlt : s.length < 2 ^ 31)
    (hr : (replaceAll x y 0 s).length + 2 < 2 ^ 31) :
    ∃ d', chulaBufferSubstituteString buf dst (some x) x.length (some y) y.length = .ok (.ok, d') ∧
      d'.Filled (replaceAll x y 0 s) := by
  obtain ⟨p, hp, hloop⟩ := h.resultLoop_found hlt (by omega)
  have hp0 : p ≠ 0 := fun h0 => hp.1 h0 hocc
  obtain ⟨dst₁, hclean, hfilled, -⟩ := hd.clean
  rw [h.substitute_eq, ok_then (access_ok hclean), ok_then hloop]
  dsimp only
  rw [if_neg hp0]
  by_cases hempty : ((replaceAll x y 0 s).length : ℤ) < 1
  · rw [if_pos hempty, List.length_eq_zero_iff.1 (by omega : (replaceAll x y 0 s).length = 0)]
    exact ⟨_, rfl, hfilled⟩
  · obtain ⟨rest, hrest⟩ := h.cells_eq
    have hcheck : checkInt ((replaceAll x y 0 s).length + 2) = .ok ((replaceAll x y 0 s).length + 2) :=
      checkInt_ok ⟨by omega, by omega⟩
    have hsize : toSizeT ((replaceAll x y 0 s).length + 2) = (replaceAll x y 0 s).length + 2 :=
      toSizeT_cast (n := (replaceAll x y 0 s).length + 2) (by omega)
    obtain ⟨hroom, hle⟩ := hfilled.ensureSize (n := (replaceAll x y 0 s).length + 2) (by omega)
    have hbuild := buildResult_eq rest (dst₁.chulaBufferEnsureSize ((replaceAll x y 0 s).length + 2)).cells
      (substituteStyle_ok hlt) hlt h.needle_ne h.needle_noNul h.text_int h.source_noNul (by rw [hroom.size_eq]; omega)
    rw [← hrest] at hbuild
    rw [if_neg hempty, substituteWith, ok_then hcheck]
    dsimp only
    rw [hsize, h.filled.reads.1, ok_then hbuild]
    refine ⟨_, rfl, ?_, ?_, hroom.size_lt, ?_⟩
    · refine reads_of_cells ([some 0] ++ (dst₁.chulaBufferEnsureSize ((replaceAll x y 0 s).length + 2)).cells.drop
        ((replaceAll x y 0 s).length + 1)) (toUint32_cast (by omega)) ?_
      rw [cells, Option.getD_some, List.append_assoc]
    · rw [cells, Option.getD_some, List.length_append, List.length_append, List.length_map, List.length_singleton,
        List.length_drop, hroom.size_eq]
      dsimp only
      omega
    · intro _
      dsimp only
      omega

/-- What the result says about the sizes. -/
theorem bounded (h : Replacement buf s x y) (hd : dst.Filled d) (hocc : x <:+: s) {d' : RawBuffer}
    (hok : chulaBufferSubstituteString buf dst (some x) x.length (some y) y.length = .ok (.ok, d'))
    (hreads : d'.Reads (replaceAll x y 0 s)) : s.length < 2 ^ 31 ∧ (replaceAll x y 0 s).length + 2 < 2 ^ 31 := by
  have hlt := h.source_lt
  have hsize := h.size_eq
  obtain ⟨hlo, hhi⟩ := toInt_bounds s.length
  have hwrap : toInt s.length = s.length ∨ toInt s.length = s.length - 2 ^ 32 := by
    rw [toInt, Int.bmod_def]
    split <;> omega
  obtain ⟨dst₁, hclean, hfilled, -⟩ := hd.clean
  obtain ⟨hscan, hover⟩ := h.resultLoop_eq
  rw [h.substitute_eq, ok_then (access_ok hclean)] at hok
  by_cases hint : IsInt (toInt s.length + occurrences x 0 s * (y.length - x.length))
  · obtain ⟨p, hp, hloop⟩ := hscan hint
    have hp0 : p ≠ 0 := fun h0 => hp.1 h0 hocc
    rw [ok_then hloop] at hok
    dsimp only at hok
    rw [if_neg hp0] at hok
    obtain ⟨hmin, hmax⟩ := hint
    split_ifs at hok with hempty
    · cases hok
      have hnil := hreads.1.symm.trans hfilled.reads.1
      rw [List.length_nil] at hnil
      omega
    · obtain ⟨d₁, hwith, hd₁⟩ := ok_of_then hok
      cases hd₁
      rw [substituteWith] at hwith
      obtain ⟨size, hcheck, hwith⟩ := ok_of_then hwith
      obtain ⟨m, -, hwith⟩ := ok_of_then hwith
      cases hwith
      have hlen := hreads.1
      dsimp only at hlen
      have hroom : IsInt (toInt s.length + occurrences x 0 s * (y.length - x.length) + 2) := by
        by_contra hnot
        rw [checkInt_error hnot] at hcheck
        cases hcheck
      obtain ⟨-, hroom⟩ := hroom
      rw [toUint32] at hlen
      omega
  · rw [hover hint] at hok
    cases hok

theorem bound_of_replaces (h : Replacement buf s x y) (hd : dst.Filled d) (hocc : x <:+: s)
    (hrep : Replaces buf dst s x y) :
    s.length < 2 ^ 31 ∧ s.length + occurrences x 0 s * ((y.length : ℤ) - x.length) < 2 ^ 31 - 2 := by
  rw [Replaces, if_pos hocc] at hrep
  obtain ⟨-, d', hok, hfilled⟩ := hrep
  obtain ⟨hlt, hr⟩ := h.bounded hd hocc hok hfilled.reads
  rw [h.size_eq]
  exact ⟨hlt, by omega⟩

end Replacement

/-- **Replacing**: the two functions agree with the reference and with each other exactly where the needle does not occur,
or the source is shorter than 2^31 octets and the result shorter than 2^31 - 2. -/
theorem replaces_iff (h : Replacement buf s x y) (hd : dst.Filled d) : Replaces buf dst s x y ↔
    (x <:+: s → s.length < 2 ^ 31 ∧ s.length + occurrences x 0 s * ((y.length : ℤ) - x.length) < 2 ^ 31 - 2) := by
  refine ⟨fun hrep hocc => h.bound_of_replaces hd hocc hrep, fun hbound => ?_⟩
  rw [Replaces]
  split_ifs with hocc
  · obtain ⟨hlt, hr⟩ := hbound hocc
    rw [h.size_eq] at hr
    exact ⟨h.replace_found hocc hlt (by omega), h.substitute_found hd hocc hlt (by omega)⟩
  · exact ⟨h.replace_none hocc, h.substitute_none hd hocc⟩

/-- "aba" with "cd" for "a". -/
theorem replaces_iff_aba : Replaces ⟨some [some 97, some 98, some 97, some 0], 4, 3⟩ chulaBufInit [97, 98, 97] [97]
    [99, 100] := by
  have h : Replacement ⟨some [some 97, some 98, some 97, some 0], 4, 3⟩ [97, 98, 97] [97] [99, 100] :=
    ⟨⟨⟨rfl, rfl⟩, rfl, by decide, fun _ => by decide⟩, rfl, by decide, by decide, by decide, by decide, by decide, by decide⟩
  exact (replaces_iff h filled_null).2 fun _ => ⟨by decide, by decide⟩

/-- A source of `n` equal octets, for each of which `m` octets are put. -/
theorem replacement_replicate {n m : ℕ} (hn : 0 < n) (hlt : n + 1 < 2 ^ 32) (hm : m < 2 ^ 31) :
    Replacement ⟨some (List.replicate n (some 97) ++ [some 0]), n + 1, n⟩ (List.replicate n 97) [97]
      (List.replicate m 98) where
  filled := by
    refine ⟨reads_of_cells [some 0] (List.length_replicate ..).symm ?_, ?_, hlt, fun _ => Nat.succ_pos n⟩
    · rw [cells, Option.getD_some, List.map_replicate]
    · rw [cells, Option.getD_some, List.length_append, List.length_replicate, List.length_singleton]
  terminated := by
    rw [Terminated, cells, Option.getD_some, List.getElem?_append_right (by rw [List.length_replicate]),
      List.length_replicate, Nat.sub_self]
    rfl
  source_ne := by
    rw [← List.length_pos_iff, List.length_replicate]
    exact hn
  source_noNul h0 := absurd (List.eq_of_mem_replicate h0) (by decide)
  needle_ne := List.cons_ne_nil 97 []
  needle_noNul := by decide
  needle_int := by decide
  text_int := by rwa [List.length_replicate]

/-- 65536 octets, for each of which 32768 are put: the size of the result is 2^31. -/
theorem replaces_grown : ¬Replaces ⟨some (List.replicate 65536 (some 97) ++ [some 0]), 65537, 65536⟩ chulaBufInit
    (List.replicate 65536 97) [97] (List.replicate 32768 98) := by
  intro hrep
  have h := replacement_replicate (n := 65536) (m := 32768) (by decide) (by decide) (by decide)
  have hocc : [97] <:+: List.replicate 65536 (97 : UInt8) := by
    rw [List.singleton_infix_iff]
    exact List.mem_replicate.2 ⟨by decide, rfl⟩
  obtain ⟨-, hr⟩ := h.bound_of_replaces filled_null hocc hrep
  rw [occurrences_singleton, List.count_replicate_self, List.length_replicate, List.length_replicate,
    List.length_singleton] at hr
  norm_num at hr

end Functions

end LibHpack
