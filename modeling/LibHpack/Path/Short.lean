import LibHpack.Path.Segments

/-!
# LibHpack.Path.Short — when chula_path_short removes the dot segments

`Resolvable` follows the segments of a path with three values: how many segments are kept by dot-segment removal, whether
the loop has gone astray, and whether `end` is stale.  The loop goes astray at a segment that starts with two dots and is
not "..": it has then removed something that is to be kept, and is back on the way only when all the segments before have
been removed by "..".  At the last segment it does nothing about dots, unless `end` is stale.
-/

namespace LibHpack

open RawBuffer

def resolvableLast (kept : ℕ) (astray stale : Bool) (s : List UInt8) : Bool :=
  if astray then false
  else if s = [46] then false
  else if s = [46, 46] then stale && decide (2 ≤ kept)
  else if startsDots s then decide (afterDots s = []) && !stale
  else true

def resolvable (kept : ℕ) (astray stale : Bool) : List (List UInt8) → Bool
  | [] => true
  | [s] => resolvableLast kept astray stale s
  | s :: t :: segs =>
    if s = [46] then resolvable kept astray true (t :: segs)
    else if s = [46, 46] then resolvable (kept - 1) (astray && decide (kept - 1 ≠ 0)) false (t :: segs)
    else if startsDots s then resolvable (kept + 1) true false (t :: segs)
    else resolvable (kept + 1) astray stale (t :: segs)

/-- The paths whose dot segments `chula_path_short` removes. -/
def Resolvable (path : List UInt8) : Prop := resolvable 0 false false (segmentsOf path) = true

instance (path : List UInt8) : Decidable (Resolvable path) := inferInstanceAs (Decidable (_ = true))

section Lists

variable {D s : List UInt8} {T segs : List (List UInt8)} {astray stale : Bool}

/-- The slashes in a path. -/
def slashes (D : List UInt8) : ℕ := D.count 47

theorem slashes_append (D E : List UInt8) : slashes (D ++ E) = slashes D + slashes E := List.count_append ..

theorem slashes_of_notMem (h : 47 ∉ s) : slashes s = 0 := List.count_eq_zero.2 h

theorem slashes_cons_slash (D : List UInt8) : slashes (47 :: D) = slashes D + 1 := List.count_cons_self ..

theorem slashes_joined (h : ∀ s ∈ T, 47 ∉ s) : slashes (joined T) = T.length := by
  induction T with
  | nil => rfl
  | cons s T ih =>
    rw [joined_cons, slashes_cons_slash, slashes_append, slashes_of_notMem (h s (List.mem_cons_self ..)),
      ih fun t ht => h t (List.mem_cons_of_mem _ ht), List.length_cons, Nat.zero_add]

theorem slashes_cut (D : List UInt8) : slashes (cut D) = slashes D - 1 := by
  induction D using List.reverseRecOn with
  | nil => rfl
  | append_singleton D c ih =>
    rw [cut_concat, slashes_append]
    split_ifs with hc
    · rw [hc]
      rfl
    · rw [ih, slashes_of_notMem (s := [c]) (by simpa using Ne.symm hc), Nat.add_zero]

theorem cut_eq_nil (h : slashes D = 0) : cut D = [] := by
  induction D using List.reverseRecOn with
  | nil => rfl
  | append_singleton D c ih =>
    rw [slashes_append] at h
    have hc : c ≠ 47 := by
      rintro rfl
      have h1 : slashes [47] = 1 := rfl
      omega
    rw [cut_concat, if_neg hc]
    exact ih (by omega)

theorem cut_append_slash (h : 47 ∉ s) : cut (D ++ 47 :: s) = D := by
  induction s using List.reverseRecOn with
  | nil => rw [cut_concat, if_pos rfl]
  | append_singleton s c ih =>
    rw [List.mem_append, List.mem_singleton, not_or] at h
    rw [← List.cons_append, ← List.append_assoc, cut_concat, if_neg (Ne.symm h.2)]
    exact ih h.1

theorem cut_joined (h : ∀ s ∈ T, 47 ∉ s) : cut (joined T) = joined T.dropLast := by
  rcases List.eq_nil_or_concat' T with rfl | ⟨T, s, rfl⟩
  · rfl
  · rw [joined_concat, cut_append_slash (h s (by simp)), List.dropLast_concat]

/-- The last segment of a path. -/
theorem last_segment {E t : List UInt8} (hs : 47 ∉ s) (ht : 47 ∉ t) (h : D ++ 47 :: s = E ++ 47 :: t) : s = t := by
  have hD : D = E := by rw [← cut_append_slash (D := D) hs, h, cut_append_slash ht]
  rw [hD] at h
  simpa using h

theorem pathOf_eq_joined (h : segs ≠ []) : pathOf segs = joined segs := by
  induction segs with
  | nil => exact absurd rfl h
  | cons s segs ih =>
    rcases segs with _ | ⟨t, segs⟩
    · simp [pathOf]
    · have ih := ih (by simp)
      rw [joined_cons, ← ih, pathOf, pathOf]
      simp [List.intercalate, List.intersperse]

theorem pathOf_nil : pathOf [] = [47] := rfl

/-! ### The loop beside the reference -/

/-- Segments that dot-segment removal keeps. -/
def Kept (T : List (List UInt8)) : Prop := ∀ t ∈ T, 47 ∉ t ∧ t ≠ [46] ∧ t ≠ [46, 46]

theorem Kept.noSlash (h : Kept T) : ∀ t ∈ T, 47 ∉ t := fun t ht => (h t ht).1

theorem Kept.dropLast (h : Kept T) : Kept T.dropLast := fun t ht => h t (List.dropLast_subset T ht)

theorem Kept.concat (h : Kept T) (hs : 47 ∉ s) (h1 : s ≠ [46]) (h2 : s ≠ [46, 46]) : Kept (T ++ [s]) := by
  intro t ht
  rcases List.mem_append.1 ht with ht | ht
  · exact h t ht
  · rw [List.mem_singleton.1 ht]
    exact ⟨hs, h1, h2⟩

/-- A path of such segments does not end with a dot segment. -/
theorem Kept.pathOf_ne (h : Kept T) (hs : s = [46] ∨ s = [46, 46]) : D ++ 47 :: s ≠ pathOf T := by
  have hs47 : 47 ∉ s := by rcases hs with rfl | rfl <;> decide
  rcases List.eq_nil_or_concat' T with rfl | ⟨T, t, rfl⟩
  · intro heq
    have hlen := congrArg List.length heq
    rw [pathOf_nil, List.length_append, List.length_cons, List.length_singleton] at hlen
    rcases hs with rfl | rfl <;> simp at hlen
  · obtain ⟨ht, h1, h2⟩ := h t (by simp)
    rw [pathOf_eq_joined (by simp), joined_concat]
    intro heq
    rcases hs with rfl | rfl
    · exact h1 (last_segment hs47 ht heq).symm
    · exact h2 (last_segment hs47 ht heq).symm

/-- What is before the segments that are still to be read: the kept ones or, when the loop has gone astray, a path with
fewer segments. -/
structure Aligned (T : List (List UInt8)) (D : List UInt8) (astray : Bool) : Prop where
  kept : Kept T
  eq : astray = false → D = joined T
  lt : astray = true → slashes D < T.length

theorem Aligned.le (h : Aligned T D astray) : slashes D ≤ T.length := by
  cases astray with
  | false => rw [h.eq rfl, slashes_joined h.kept.noSlash]
  | true => exact (h.lt rfl).le

theorem slashes_dotted (hs : 47 ∉ s) (D : List UInt8) : slashes (cut D ++ afterDots s) = slashes D - 1 := by
  obtain ⟨n, heq, -⟩ := exists_dots s
  have hafter : 47 ∉ afterDots s := fun hm => hs (by rw [heq]; exact List.mem_append_right _ hm)
  rw [slashes_append, slashes_cut, slashes_of_notMem hafter, Nat.add_zero]

theorem Aligned.push (h : Aligned T D astray) (hs : 47 ∉ s) (h1 : s ≠ [46]) (h2 : s ≠ [46, 46]) :
    Aligned (T ++ [s]) (D ++ 47 :: s) astray where
  kept := h.kept.concat hs h1 h2
  eq hb := by rw [joined_concat, h.eq hb]
  lt hb := by
    have hlt := h.lt hb
    rw [slashes_append, slashes_cons_slash, slashes_of_notMem hs, List.length_append, List.length_singleton]
    omega

/-- The loop goes astray. -/
theorem Aligned.stray (h : Aligned T D astray) (hs : 47 ∉ s) (h1 : s ≠ [46]) (h2 : s ≠ [46, 46]) :
    Aligned (T ++ [s]) (cut D ++ afterDots s) true where
  kept := h.kept.concat hs h1 h2
  eq hb := by cases hb
  lt _ := by
    have hle := h.le
    rw [slashes_dotted hs, List.length_append, List.length_singleton]
    omega

/-- At "..", the loop gets back on the way when nothing is left. -/
theorem Aligned.pop (h : Aligned T D astray) : Aligned T.dropLast (cut D) (astray && decide (T.length - 1 ≠ 0)) where
  kept := h.kept.dropLast
  eq hb := by
    cases astray with
    | false => rw [h.eq rfl, cut_joined h.kept.noSlash]
    | true =>
      have hlt := h.lt rfl
      have hT : T.length - 1 = 0 := by simpa using hb
      rw [cut_eq_nil (by omega), List.length_eq_zero_iff.1 (show T.dropLast.length = 0 by rw [List.length_dropLast, hT])]
      rfl
  lt hb := by
    rw [Bool.and_eq_true, decide_eq_true_iff] at hb
    have hlt := h.lt hb.1
    rw [slashes_cut, List.length_dropLast]
    omega

/-- Paths with different numbers of slashes. -/
theorem ne_of_slashes {E : List UInt8} (h : slashes D ≠ slashes E) : D ≠ E := fun heq => h (by rw [heq])

theorem shortLast_iff (h : Aligned T D astray) (hs : 47 ∉ s) :
    shortLast D stale s = pathOf (resolve T [s]) ↔ resolvableLast T.length astray stale s = true := by
  have hle := h.le
  by_cases h1 : s = [46]
  · -- "." is left alone
    subst h1
    have hne : D ++ [47, 46] ≠ pathOf T := h.kept.pathOf_ne (.inl rfl)
    simpa [shortLast, startsDots, resolve, resolvableLast] using hne
  by_cases h2 : s = [46, 46]
  · -- ".." is left alone, or removed when `end` is stale
    subst h2
    have hafter : afterDots [46, 46] = [] := by decide
    rw [resolve, if_neg (by decide), if_pos rfl, resolve, shortLast, if_pos (by decide), if_pos hafter, resolvableLast]
    cases stale with
    | false => simpa using h.kept.dropLast.pathOf_ne (s := [46, 46]) (.inr rfl)
    | true =>
      have hpop := h.pop
      by_cases hT : 2 ≤ T.length
      · have hne : T.dropLast ≠ [] := List.ne_nil_of_length_pos (by rw [List.length_dropLast]; omega)
        rw [if_pos rfl, pathOf_eq_joined hne]
        cases astray with
        | false => simpa [hT] using hpop.eq rfl
        | true =>
          have hlt := h.lt rfl
          have hcut : cut D ≠ joined T.dropLast := ne_of_slashes (by
            rw [slashes_cut, slashes_joined h.kept.dropLast.noSlash, List.length_dropLast]
            omega)
          simpa using hcut
      · have hnil : T.dropLast = [] := List.length_eq_zero_iff.1 (by rw [List.length_dropLast]; omega)
        have hcut : cut D ≠ [47] := ne_of_slashes (by
          have h1 : slashes [47] = 1 := rfl
          rw [slashes_cut, h1]
          omega)
        rw [if_pos rfl, hnil, pathOf_nil]
        simpa [hT] using hcut
  have hT : pathOf (resolve T [s]) = joined T ++ 47 :: s := by
    rw [resolve, if_neg h1, if_neg h2, resolve, pathOf_eq_joined (by simp), joined_concat]
  have hslashes : slashes (joined T ++ 47 :: s) = T.length + 1 := by
    rw [slashes_append, slashes_cons_slash, slashes_joined h.kept.noSlash, slashes_of_notMem hs]
  have hpush : D ++ 47 :: s = joined T ++ 47 :: s ↔ astray = false := by
    constructor
    · intro heq
      by_contra hb
      have hlt := h.lt (by simpa using hb)
      have hD := congrArg slashes heq
      rw [hslashes, slashes_append, slashes_cons_slash, slashes_of_notMem hs] at hD
      omega
    · intro hb
      rw [h.eq hb]
  rw [hT, shortLast, resolvableLast, if_neg h1, if_neg h2]
  by_cases hdots : startsDots s = true
  · have hstray : cut D ++ afterDots s ≠ joined T ++ 47 :: s := ne_of_slashes (by
      rw [slashes_dotted hs, hslashes]
      omega)
    rw [if_pos hdots, if_pos hdots]
    by_cases hafter : afterDots s = []
    · rw [if_pos hafter]
      rw [hafter, List.append_nil] at hstray
      cases stale with
      | false => simpa [hafter] using hpush
      | true => simpa [hafter] using hstray
    · rw [if_neg hafter]
      simpa [hafter] using hstray
  · rw [if_neg hdots, if_neg hdots, hpush]
    cases astray <;> simp

theorem shortSegs_iff (stale : Bool) (hne : segs ≠ []) (hsegs : ∀ s ∈ segs, 47 ∉ s) (h : Aligned T D astray) :
    shortSegs D stale segs = pathOf (resolve T segs) ↔ resolvable T.length astray stale segs = true := by
  induction segs generalizing T D astray stale with
  | nil => exact absurd rfl hne
  | cons s segs ih =>
    have hs := hsegs s (List.mem_cons_self ..)
    rcases segs with _ | ⟨t, segs⟩
    · exact shortLast_iff h hs
    have ih := fun {T D astray} stale => @ih T D astray stale (by simp) fun u hu => hsegs u (List.mem_cons_of_mem _ hu)
    rw [shortSegs, resolvable, resolve]
    by_cases h1 : s = [46]
    · rw [if_pos h1, if_pos h1, if_pos h1]
      exact ih true h
    rw [if_neg h1, if_neg h1, if_neg h1]
    by_cases h2 : s = [46, 46]
    · have hafter : afterDots s = [] := by
        rw [h2]
        decide
      have hpop := ih false h.pop
      rw [List.length_dropLast] at hpop
      rw [if_pos h2, if_pos h2, if_pos (by rw [h2]; rfl), hafter, List.append_nil]
      exact hpop
    rw [if_neg h2, if_neg h2]
    by_cases hdots : startsDots s = true
    · have hstray := ih false (h.stray hs h1 h2)
      rw [List.length_append, List.length_singleton] at hstray
      rw [if_pos hdots, if_pos hdots]
      exact hstray
    · have hpush := ih stale (h.push hs h1 h2)
      rw [List.length_append, List.length_singleton] at hpush
      rw [if_neg hdots, if_neg hdots]
      exact hpush

/-! ### Paths and their segments -/

theorem notMem_of_mem_splitOn (l : List UInt8) : ∀ s ∈ l.splitOn 47, 47 ∉ s := by
  induction l with
  | nil =>
    intro s hs
    simp_all
  | cons c l ih =>
    intro s hs
    rw [List.splitOn_cons_eq_if_modifyHead] at hs
    split_ifs at hs with hc
    · rcases List.mem_cons.1 hs with rfl | hs
      · simp
      · exact ih s hs
    · obtain ⟨t, ts, hts⟩ := List.exists_cons_of_ne_nil (List.splitOn_ne_nil 47 l)
      rw [hts, List.modifyHead_cons] at hs
      rw [hts] at ih
      rcases List.mem_cons.1 hs with rfl | hs
      · rw [List.mem_cons, not_or]
        exact ⟨fun h => hc (by simp [← h]), ih t (List.mem_cons_self ..)⟩
      · exact ih s (List.mem_cons_of_mem _ hs)

theorem segmentsOf_ne_nil (path : List UInt8) : segmentsOf path ≠ [] := List.splitOn_ne_nil 47 _

theorem segmentsOf_noSlash (path : List UInt8) : ∀ s ∈ segmentsOf path, 47 ∉ s := notMem_of_mem_splitOn _

theorem joined_segmentsOf {path : List UInt8} (h : path.head? = some 47) : joined (segmentsOf path) = path := by
  rw [← pathOf_eq_joined (segmentsOf_ne_nil path), pathOf, segmentsOf, List.intercalate_splitOn]
  cases path with
  | nil => cases h
  | cons c path =>
    cases h
    rfl

theorem segmentsOf_pathOf (hne : segs ≠ []) (hsegs : ∀ s ∈ segs, 47 ∉ s) : segmentsOf (pathOf segs) = segs :=
  List.splitOn_intercalate 47 hsegs hne

theorem head?_pathOf (segs : List (List UInt8)) : (pathOf segs).head? = some 47 := rfl

theorem Kept.resolve (h : Kept T) (hsegs : ∀ s ∈ segs, 47 ∉ s) : Kept (resolve T segs) := by
  induction segs generalizing T with
  | nil => exact h
  | cons s segs ih =>
    have ih := fun {T} => @ih T
    have hs := hsegs s (List.mem_cons_self ..)
    have hsegs := fun u hu => hsegs u (List.mem_cons_of_mem _ hu)
    rw [LibHpack.resolve]
    split_ifs with h1 h2
    · exact ih h hsegs
    · exact ih h.dropLast hsegs
    · exact ih (h.concat hs h1 h2) hsegs

/-- No dot segment is left by the reference. -/
theorem dotSegmentsRemoved_noDots (path : List UInt8) :
    ∀ s ∈ segmentsOf (dotSegmentsRemoved path), s ≠ [46] ∧ s ≠ [46, 46] := by
  have hkept : Kept (resolve [] (segmentsOf path)) := Kept.resolve (by simp [Kept]) (segmentsOf_noSlash path)
  rw [dotSegmentsRemoved]
  generalize resolve [] (segmentsOf path) = K at hkept ⊢
  intro s hs
  by_cases hK : K = []
  · rw [hK, pathOf_nil] at hs
    have : s = [] := by simpa [segmentsOf] using hs
    simp [this]
  · rw [segmentsOf_pathOf hK hkept.noSlash] at hs
    exact (hkept s hs).2

theorem Kept.resolve_append (h : Kept segs) (T : List (List UInt8)) : LibHpack.resolve T segs = T ++ segs := by
  induction segs generalizing T with
  | nil => rw [LibHpack.resolve, List.append_nil]
  | cons s segs ih =>
    obtain ⟨-, h1, h2⟩ := h s (List.mem_cons_self ..)
    rw [LibHpack.resolve, if_neg h1, if_neg h2, ih fun t ht => h t (List.mem_cons_of_mem _ ht), List.append_assoc,
      List.singleton_append]

theorem dotSegmentsRemoved_removed (path : List UInt8) :
    dotSegmentsRemoved (dotSegmentsRemoved path) = dotSegmentsRemoved path := by
  have hkept : Kept (resolve [] (segmentsOf path)) := Kept.resolve (by simp [Kept]) (segmentsOf_noSlash path)
  rw [dotSegmentsRemoved, dotSegmentsRemoved]
  generalize resolve [] (segmentsOf path) = K at hkept ⊢
  by_cases hK : K = []
  · rw [hK]
    rfl
  · rw [segmentsOf_pathOf hK hkept.noSlash, hkept.resolve_append, List.nil_append]

/-! ### A second call -/

/-- Segments without dots at the beginning. -/
def Plain (T : List (List UInt8)) : Prop := ∀ t ∈ T, t ≠ [46] ∧ startsDots t = false

theorem Plain.dropLast (h : Plain T) : Plain T.dropLast := fun t ht => h t (List.dropLast_subset T ht)

theorem Plain.concat (h : Plain T) (h1 : s ≠ [46]) (h2 : startsDots s = false) : Plain (T ++ [s]) := by
  intro t ht
  rcases List.mem_append.1 ht with ht | ht
  · exact h t ht
  · rw [List.mem_singleton.1 ht]
    exact ⟨h1, h2⟩

theorem ne_dots_of_not_startsDots (h : startsDots s = false) : s ≠ [46, 46] := by
  rintro rfl
  cases h

theorem Plain.resolvable_concat (h : Plain T) (n : ℕ) (s : List UInt8) :
    resolvable n false stale (T ++ [s]) = resolvableLast (n + T.length) false stale s := by
  induction T generalizing n with
  | nil => rfl
  | cons t T ih =>
    obtain ⟨h1, h2⟩ := h t (List.mem_cons_self ..)
    have ih := ih (fun u hu => h u (List.mem_cons_of_mem _ hu)) (n + 1)
    obtain ⟨u, us, hus⟩ := List.exists_cons_of_ne_nil (show T ++ [s] ≠ [] by simp)
    rw [List.cons_append, hus, resolvable, if_neg h1, if_neg (ne_dots_of_not_startsDots h2), if_neg (by simp [h2]), ← hus, ih,
      List.length_cons, show n + 1 + T.length = n + (T.length + 1) by omega]

theorem Plain.resolvable (h : Plain T) (n : ℕ) : resolvable n false stale T = true := by
  rcases List.eq_nil_or_concat' T with rfl | ⟨T, s, rfl⟩
  · rfl
  · obtain ⟨h1, h2⟩ := h s (by simp)
    rw [Plain.resolvable_concat (fun t ht => h t (by simp [ht])) n s, resolvableLast, if_neg (by simp), if_neg h1,
      if_neg (ne_dots_of_not_startsDots h2), if_neg (by simp [h2])]

/-- What is left of a path that the loop does right is a path that it does right. -/
theorem resolvable_resolve (hr : resolvable T.length astray stale segs = true) (hne : segs ≠ [])
    (hT : astray = false → Plain T) (n : ℕ) : resolvable n false false (resolve T segs) = true := by
  induction segs generalizing T astray stale with
  | nil => exact absurd rfl hne
  | cons s segs ih =>
    rcases segs with _ | ⟨t, segs⟩
    · rw [resolvable, resolvableLast] at hr
      split_ifs at hr with h0 h1 h2 h3
      · -- ".." at the end
        rw [resolve, if_neg h1, if_pos h2]
        exact (hT (by simpa using h0)).dropLast.resolvable n
      · -- dots only
        rw [Bool.and_eq_true, decide_eq_true_iff] at hr
        rw [resolve, if_neg h1, if_neg h2, resolve, (hT (by simpa using h0)).resolvable_concat, resolvableLast,
          if_neg (by simp), if_neg h1, if_neg h2, if_pos h3, hr.1]
        rfl
      · rw [resolve, if_neg h1, if_neg h2, resolve]
        exact ((hT (by simpa using h0)).concat h1 (by simpa using h3)).resolvable n
    have ih := fun {T astray stale} hr => @ih T astray stale hr (by simp)
    rw [resolvable] at hr
    rw [resolve]
    split_ifs at hr ⊢ with h1 h2 h3
    · exact ih hr hT
    · rw [← List.length_dropLast] at hr
      refine ih hr fun hb => ?_
      cases astray with
      | false => exact (hT rfl).dropLast
      | true =>
        have hnil : T.dropLast = [] := List.length_eq_zero_iff.1 (by simpa using hb)
        rw [hnil]
        simp [Plain]
    · rw [← List.length_singleton (a := s), ← List.length_append] at hr
      exact ih hr fun hb => absurd hb (by simp)
    · rw [← List.length_singleton (a := s), ← List.length_append] at hr
      exact ih hr fun hb => (hT hb).concat h1 (by simpa using h3)

theorem resolvable_dotSegmentsRemoved {path : List UInt8} (h : Resolvable path) : Resolvable (dotSegmentsRemoved path) := by
  have hkept : Kept (resolve [] (segmentsOf path)) := Kept.resolve (by simp [Kept]) (segmentsOf_noSlash path)
  have hr : ∀ n, resolvable n false false (resolve [] (segmentsOf path)) = true :=
    resolvable_resolve h (segmentsOf_ne_nil path) (by simp [Plain])
  rw [Resolvable, dotSegmentsRemoved]
  generalize resolve [] (segmentsOf path) = K at hkept hr ⊢
  by_cases hK : K = []
  · rw [hK, pathOf_nil]
    decide
  · rw [segmentsOf_pathOf hK hkept.noSlash]
    exact hr 0

end Lists

/-! ### The function -/

section Function

variable {b : RawBuffer} {path s s' : List UInt8}

/-- A call returns `ret_ok`, with the string `s` in the buffer. -/
def ShortensTo (b : RawBuffer) (s : List UInt8) : Prop :=
  ∃ turns₀ b', b'.Contains s ∧ ∀ turns, turns₀ ≤ turns → chulaPathShort turns b = .ok (.ok, b')

theorem shortensTo_unique (h : ShortensTo b s) (h' : ShortensTo b s') : s = s' := by
  obtain ⟨t₁, b₁, hb₁, h₁⟩ := h
  obtain ⟨t₂, b₂, hb₂, h₂⟩ := h'
  have heq := (h₁ (max t₁ t₂) (le_max_left ..)).symm.trans (h₂ (max t₁ t₂) (le_max_right ..))
  cases heq
  exact hb₁.unique hb₂

theorem shortensTo_shortSegs (h : b.Contains path) (habs : path.head? = some 47) :
    ShortensTo b (shortSegs [] false (segmentsOf path)) := by
  have hends := ends_shortSegs (segmentsOf_ne_nil path) (segmentsOf_noSlash path) [] false
  rw [joined_segmentsOf habs] at hends
  cases h with
  | null => cases habs
  | block _ rest hsize => exact hends 0 rest trivial (by simp) hsize

/-- What a call is to do: it returns with the dot segments removed, so that there is none left and another call changes
nothing. -/
structure Shortens (b : RawBuffer) (path : List UInt8) : Prop where
  returns : ShortensTo b (dotSegmentsRemoved path)
  noDots : ∀ s ∈ segmentsOf (dotSegmentsRemoved path), s ≠ [46] ∧ s ≠ [46, 46]
  again : ∀ b', b'.Contains (dotSegmentsRemoved path) → ShortensTo b' (dotSegmentsRemoved path)

theorem shortensTo_removed (h : b.Contains path) (habs : path.head? = some 47) :
    ShortensTo b (dotSegmentsRemoved path) ↔ Resolvable path := by
  have haligned : Aligned [] [] false := ⟨by simp [Kept], fun _ => rfl, by simp⟩
  have hiff := shortSegs_iff false (segmentsOf_ne_nil path) (segmentsOf_noSlash path) haligned
  have hseg := shortensTo_shortSegs h habs
  constructor
  · intro hr
    exact hiff.1 (shortensTo_unique hseg hr)
  · intro hr
    rwa [dotSegmentsRemoved, ← hiff.2 hr]

/-- **Dot-segment removal** is what a call does exactly at the paths that the loop does right. -/
theorem chulaPathShort_iff (h : b.Contains path) (habs : path.head? = some 47) : Shortens b path ↔ Resolvable path := by
  constructor
  · intro hs
    exact (shortensTo_removed h habs).1 hs.returns
  · intro hr
    refine ⟨(shortensTo_removed h habs).2 hr, dotSegmentsRemoved_noDots path, fun b' hb' => ?_⟩
    have h' := (shortensTo_removed hb' (head?_pathOf _)).2 (resolvable_dotSegmentsRemoved hr)
    rwa [dotSegmentsRemoved_removed] at h'

/-- `"/a/../b"`. -/
theorem chulaPathShort_iff_parent : ∃ b, (b : RawBuffer).Contains [47, 97, 47, 46, 46, 47, 98] ∧
    Shortens b [47, 97, 47, 46, 46, 47, 98] := by
  have h := Contains.block [47, 97, 47, 46, 46, 47, 98] [] (by simp)
  exact ⟨_, h, (chulaPathShort_iff h rfl).2 (by decide)⟩

/-- `"/x/a/..b"`: the segment "..b" takes "a" with it. -/
theorem chulaPathShort_dotted : ∃ b, (b : RawBuffer).Contains [47, 120, 47, 97, 47, 46, 46, 98] ∧
    ¬Shortens b [47, 120, 47, 97, 47, 46, 46, 98] := by
  have h := Contains.block [47, 120, 47, 97, 47, 46, 46, 98] [] (by simp)
  refine ⟨_, h, fun hs => ?_⟩
  have heq := shortensTo_unique (shortensTo_shortSegs h rfl) hs.returns
  exact absurd heq (by decide)

end Function

end LibHpack
