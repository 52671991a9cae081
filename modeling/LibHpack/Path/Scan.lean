import Mathlib.Data.List.DropRight
import LibHpack.Path.Model

/-!
# LibHpack.Path.Scan — the loop of chula_path_short, octet by octet

`Ends D R stale res`: with `D` before `p` and `R` from `p` on, the loop leaves the string `res` in the buffer.  When `end`
is `stale`, it is not the end of the string: each segment "." that was removed since it was set has left two octets between
the two, of which the second one is NUL (`Leftover`), so that nothing but the end of the string is missed there.

The rules take the loop over one octet, one run of dots or one removal.
-/

namespace LibHpack

open Memory Run RawBuffer

/-- A buffer with the string `s`, and `rest` behind its NUL. -/
def bufferOf (s : List UInt8) (rest : Memory.Block UInt8) : RawBuffer :=
  ⟨some (s.map some ++ some 0 :: rest), s.length + 1 + rest.length, s.length⟩

/-- What removals of `k` segments "." have left behind the string. -/
def Leftover : ℕ → Memory.Block UInt8 → Prop
  | 0, _ => True
  | k + 1, rest => ∃ x rest', rest = some x :: some 0 :: rest' ∧ Leftover k rest'

/-- The path up to the slash before its last segment. -/
def cut (D : List UInt8) : List UInt8 := (D.rdropWhile (· ≠ 47)).dropLast

section Octets

variable {D R s : List UInt8} {rest : Memory.Block UInt8} {k n : ℕ} {c : UInt8}

@[simp] theorem len_bufferOf : (bufferOf s rest).len = s.length := rfl

@[simp] theorem cells_bufferOf : (bufferOf s rest).cells = s.map some ++ some 0 :: rest := rfl

theorem octetAt_string {i : ℕ} (h : s[i]? = some c) : octetAt (bufferOf s rest) i = .ok c := by
  have hi : i < s.length := (List.getElem?_eq_some_iff.1 h).1
  rw [octetAt, cells_bufferOf, List.getElem?_append_left (by simpa using hi), List.getElem?_map, h]
  rfl

theorem octetAt_at : octetAt (bufferOf (D ++ c :: R) rest) D.length = .ok c := octetAt_string (by simp)

theorem octetAt_nul : octetAt (bufferOf s rest) s.length = .ok 0 := by
  rw [octetAt, cells_bufferOf, List.getElem?_append_right (by simp)]
  simp

theorem octetAt_rest {i : ℕ} (h : rest[i]? = some (some c)) : octetAt (bufferOf s rest) (s.length + 1 + i) = .ok c := by
  rw [octetAt, cells_bufferOf, List.getElem?_append_right (by simp; omega), List.length_map,
    show s.length + 1 + i - s.length = i + 1 by omega, List.getElem?_cons_succ, h]

/-- The octet behind a position, which may be the NUL. -/
theorem octetAt_next : octetAt (bufferOf (D ++ c :: R) rest) (D.length + 1) = .ok (R.headD 0) := by
  cases R with
  | nil =>
    have h : octetAt (bufferOf (D ++ [c]) rest) (D ++ [c]).length = .ok 0 := octetAt_nul
    rwa [List.length_append] at h
  | cons d R => exact octetAt_string (by simp)

theorem leftover_get {i : ℕ} (h : Leftover k rest) (hi : i < k) :
    ∃ x, rest[2 * i]? = some (some x) ∧ rest[2 * i + 1]? = some (some 0) := by
  induction k generalizing i rest with
  | zero => exact absurd hi (Nat.not_lt_zero i)
  | succ k ih =>
    obtain ⟨x, rest', rfl, h⟩ := h
    cases i with
    | zero => exact ⟨x, rfl, rfl⟩
    | succ i =>
      obtain ⟨y, h1, h2⟩ := ih h (Nat.lt_of_succ_lt_succ hi)
      exact ⟨y, h1, h2⟩

theorem cut_concat (D : List UInt8) (c : UInt8) : cut (D ++ [c]) = if c = 47 then D else cut D := by
  rw [cut, List.rdropWhile_concat]
  split_ifs with h1 h2
  · simp_all
  · rfl
  · simp
  · simp_all

@[simp] theorem cut_nil : cut [] = [] := rfl

/-- The octets that are cut off. -/
theorem exists_cut (D : List UInt8) : ∃ t, D = cut D ++ t := by
  induction D using List.reverseRecOn with
  | nil => exact ⟨[], rfl⟩
  | append_singleton D c ih =>
    rw [cut_concat]
    split_ifs with h
    · exact ⟨[c], rfl⟩
    · obtain ⟨t, ht⟩ := ih
      refine ⟨t ++ [c], ?_⟩
      rw [← List.append_assoc, ← ht]

theorem backToSlash_eq (D R : List UInt8) : backToSlash (bufferOf (D ++ R) rest) (D.length - 1) = .ok (cut D).length := by
  induction D using List.reverseRecOn generalizing R with
  | nil => rfl
  | append_singleton D c ih =>
    rw [cut_concat, List.append_assoc, List.singleton_append, List.length_append, List.length_singleton,
      Nat.add_sub_cancel]
    cases hD : D.length with
    | zero =>
      obtain rfl := List.length_eq_zero_iff.1 hD
      rw [backToSlash]
      split_ifs <;> rfl
    | succ i =>
      rw [backToSlash, ← hD, ok_then octetAt_at]
      by_cases hc : c = 47
      · rw [if_neg (not_not_intro hc), if_pos hc]
      · rw [if_pos hc, if_neg hc]
        have h := ih (c :: R)
        rwa [hD, Nat.add_sub_cancel] at h

theorem skipDots_eq (D : List UInt8) (rest : Memory.Block UInt8) (hR : R.head? ≠ some 46) (hk : n ≤ k) :
    skipDots (bufferOf (D ++ (List.replicate n 46 ++ R)) rest) k D.length = .ok (D.length + n) := by
  induction n generalizing D k with
  | zero =>
    cases k with
    | zero => rfl
    | succ k =>
      rw [skipDots, List.replicate_zero, List.nil_append]
      cases R with
      | nil =>
        have h : octetAt (bufferOf (D ++ []) rest) D.length = .ok 0 := by
          rw [List.append_nil]
          exact octetAt_nul
        rw [ok_then h, if_neg (by simp)]
        rfl
      | cons c R =>
        have hc : ¬c = 46 := fun h => hR (by rw [h]; rfl)
        rw [ok_then octetAt_at, if_neg hc]
        rfl
  | succ n ih =>
    obtain ⟨k, rfl⟩ : ∃ j, k = j + 1 := ⟨k - 1, by omega⟩
    rw [List.replicate_succ, List.cons_append, skipDots, ok_then octetAt_at, if_pos rfl]
    have h := ih (k := k) (D ++ [46]) (by omega)
    rw [List.append_assoc, List.length_append] at h
    rw [show D.length + (n + 1) = D.length + 1 + n by omega]
    exact h

end Octets

/-! ### One turn -/

section Turns

variable {D R s res : List UInt8} {rest : Memory.Block UInt8} {k n p stop : ℕ} {c : UInt8} {b b' : RawBuffer}

theorem pathLoop_done (h : stop ≤ p) (turns : ℕ) : pathLoop (turns + 1) b p stop = .ok (.ok, b) := by
  rw [pathLoop, if_neg (by omega)]

theorem pathLoop_leave (h : p < stop) (ht : pathTurn b p stop = .ok .leave) (turns : ℕ) :
    pathLoop (turns + 1) b p stop = .ok (.ok, b) := by
  rw [pathLoop, if_pos h, ok_then ht]

theorem pathLoop_next {p' stop' : ℕ} (h : p < stop) (ht : pathTurn b p stop = .ok (.next b' p' stop')) (turns : ℕ) :
    pathLoop (turns + 1) b p stop = pathLoop turns b' p' stop' := by
  rw [pathLoop, if_pos h, ok_then ht]

/-- An octet that is not a dot. -/
theorem pathTurn_other (h : octetAt b p = .ok c) (hc : c ≠ 46) : pathTurn b p stop = .ok (.next b (p + 1) stop) := by
  rw [pathTurn, ok_then h, if_pos hc]

theorem isDotSegment_of_ne (h : octetAt b (p + 1) = .ok c) (hc : c ≠ 47) : isDotSegment b p = .ok false := by
  rw [isDotSegment, ok_then h, if_neg fun h => hc h.1]

/-- A single dot that is not a segment. -/
theorem pathTurn_skip (stop : ℕ) (h : octetAt b p = .ok 46) (hseg : isDotSegment b p = .ok false)
    (hnext : octetAt b (p + 1) = .ok c)
    (hc : c ≠ 46) : pathTurn b p stop = .ok (if stop < p + 2 then .leave else .next b (p + 2) stop) := by
  rw [pathTurn, ok_then h, if_neg (by simp), ok_then hseg, if_neg (by simp)]
  split_ifs
  · rfl
  · rw [ok_then hnext, if_pos hc]

/-- Behind the string, the loop finds nothing to do. -/
theorem pathLoop_leftover (hrest : Leftover k rest) : ∀ m j turns : ℕ, 2 * k - j ≤ m → m < turns →
    pathLoop turns (bufferOf s rest) (s.length + j) (s.length + 2 * k) = .ok (.ok, bufferOf s rest)
  | m, j, 0, _, hlt => absurd hlt (Nat.not_lt_zero m)
  | m, j, turns + 1, hm, hlt => by
    by_cases hj : 2 * k ≤ j
    · exact pathLoop_done (by omega) turns
    have hnul : ∀ i, i ≤ k → octetAt (bufferOf s rest) (s.length + 2 * i) = .ok 0 := by
      intro i hi
      cases i with
      | zero => exact octetAt_nul
      | succ i =>
        obtain ⟨-, -, h0⟩ := leftover_get hrest (Nat.lt_of_succ_le hi)
        have h := octetAt_rest (s := s) h0
        rwa [show s.length + 1 + (2 * i + 1) = s.length + 2 * (i + 1) by omega] at h
    have ih := fun j (h : 2 * k - j ≤ m - 1) (h' : m - 1 < turns) => pathLoop_leftover hrest (m - 1) j turns h h'
    obtain ⟨i, rfl | rfl⟩ := Nat.even_or_odd' j
    · rw [pathLoop_next (by omega) (pathTurn_other (hnul i (by omega)) (by decide))]
      exact ih (2 * i + 1) (by omega) (by omega)
    · obtain ⟨x, hx, -⟩ := leftover_get hrest (i := i) (by omega)
      have hoct : octetAt (bufferOf s rest) (s.length + (2 * i + 1)) = .ok x := by
        have h := octetAt_rest (s := s) hx
        rwa [show s.length + 1 + 2 * i = s.length + (2 * i + 1) by omega] at h
      by_cases hdot : x = 46
      · subst hdot
        have hnext : octetAt (bufferOf s rest) (s.length + (2 * i + 1) + 1) = .ok 0 := hnul (i + 1) (by omega)
        have hturn := pathTurn_skip (s.length + 2 * k) hoct (isDotSegment_of_ne hnext (by decide)) hnext (by decide)
        split_ifs at hturn with hstop
        · exact pathLoop_leave (by omega) hturn turns
        · rw [pathLoop_next (by omega) hturn]
          exact ih (2 * i + 3) (by omega) (by omega)
      · rw [pathLoop_next (by omega) (pathTurn_other hoct hdot)]
        exact ih (2 * i + 2) (by omega) (by omega)

/-! ### What the loop makes of a path -/

/-- With `D` before `p` and `R` from there on, the loop leaves `res` in the buffer. -/
def Ends (D R : List UInt8) (stale : Bool) (res : List UInt8) : Prop :=
  ∀ (k : ℕ) (rest : Memory.Block UInt8), Leftover k rest → (stale = true ↔ 0 < k) → (D ++ R).length + 1 + rest.length < 2 ^ 32 →
    ∃ turns₀ b', b'.Contains res ∧ ∀ turns, turns₀ ≤ turns →
      pathLoop turns (bufferOf (D ++ R) rest) D.length ((D ++ R).length + 2 * k) = .ok (.ok, b')

variable {stale stale' : Bool} {D' R' : List UInt8}

/-- The string stays as it is. -/
theorem ends_of_leave (h : ∀ k rest, Leftover k rest → (stale = true ↔ 0 < k) → ∃ turns₀, ∀ turns, turns₀ ≤ turns →
    pathLoop turns (bufferOf (D ++ R) rest) D.length ((D ++ R).length + 2 * k) = .ok (.ok, bufferOf (D ++ R) rest)) :
    Ends D R stale (D ++ R) := by
  intro k rest hrest hstale hsize
  obtain ⟨turns₀, ht⟩ := h k rest hrest hstale
  exact ⟨turns₀, bufferOf (D ++ R) rest, .block (D ++ R) rest hsize, ht⟩

/-- One turn, and then the others. -/
theorem ends_of_next (hR : R ≠ []) (h : ∀ k rest, Leftover k rest → (stale = true ↔ 0 < k) →
    (D ++ R).length + 1 + rest.length < 2 ^ 32 → ∃ k' rest', Leftover k' rest' ∧ (stale' = true ↔ 0 < k') ∧
      (D' ++ R').length + 1 + rest'.length < 2 ^ 32 ∧ pathTurn (bufferOf (D ++ R) rest) D.length ((D ++ R).length + 2 * k) =
        .ok (.next (bufferOf (D' ++ R') rest') D'.length ((D' ++ R').length + 2 * k')))
    (he : Ends D' R' stale' res) : Ends D R stale res := by
  intro k rest hrest hstale hsize
  obtain ⟨k', rest', hrest', hstale', hsize', hturn⟩ := h k rest hrest hstale hsize
  obtain ⟨turns₀, b', hb', ht⟩ := he k' rest' hrest' hstale' hsize'
  have hpos := List.length_pos_iff.2 hR
  refine ⟨turns₀ + 1, b', hb', fun turns hle => ?_⟩
  obtain ⟨turns, rfl⟩ : ∃ j, turns = j + 1 := ⟨turns - 1, by omega⟩
  rw [pathLoop_next (by rw [List.length_append]; omega) hturn]
  exact ht turns (by omega)

theorem ends_nil (D : List UInt8) (stale : Bool) : Ends D [] stale D := by
  have h : Ends D [] stale (D ++ []) := ends_of_leave fun k rest hrest _ => ⟨2 * k + 1, fun turns hle => by
    have h := pathLoop_leftover (s := D ++ []) hrest (2 * k) 0 turns (by omega) (by omega)
    simpa using h⟩
  rwa [List.append_nil] at h

theorem ends_other (hc : c ≠ 46) : Ends D (c :: R) stale res ↔ Ends (D ++ [c]) R stale res := by
  have hs : D ++ [c] ++ R = D ++ c :: R := by simp
  constructor
  · intro he k rest hrest hstale hsize
    rw [hs] at hsize ⊢
    obtain ⟨turns₀, b', hb', ht⟩ := he k rest hrest hstale hsize
    refine ⟨turns₀, b', hb', fun turns hle => ?_⟩
    have h := ht (turns + 1) (by omega)
    rw [pathLoop_next (by simp only [List.length_append, List.length_cons]; omega) (pathTurn_other octetAt_at hc)] at h
    rwa [List.length_append]
  · refine ends_of_next (by simp) fun k rest hrest hstale hsize => ⟨k, rest, hrest, hstale, ?_, ?_⟩
    · rwa [hs]
    · rw [hs, pathTurn_other octetAt_at hc, show (D ++ [c]).length = D.length + 1 by simp]

theorem isDotSegment_eq (D R : List UInt8) (rest : Memory.Block UInt8) : isDotSegment (bufferOf (D ++ c :: R) rest) D.length =
    .ok (decide (R.head? = some 47 ∧ D.getLast? = some 47)) := by
  rw [isDotSegment, ok_then octetAt_next]
  cases R with
  | nil => simp
  | cons d R =>
    by_cases hd : d = 47 ∧ 0 < D.length
    · obtain ⟨rfl, hD⟩ := hd
      obtain ⟨D, e, rfl⟩ := (List.eq_nil_or_concat' D).resolve_left (List.length_pos_iff.1 hD)
      have hprev : octetAt (bufferOf (D ++ [e] ++ c :: 47 :: R) rest) ((D ++ [e]).length - 1) = .ok e :=
        octetAt_string (by simp)
      rw [if_pos ⟨rfl, hD⟩, ok_then hprev]
      simp
    · rw [List.headD_cons, if_neg hd]
      by_cases h : d = 47
      · have hnil : D = [] := List.length_eq_zero_iff.1 (by by_contra h0; exact hd ⟨h, Nat.pos_of_ne_zero h0⟩)
        simp [hnil]
      · simp [h]

/-- A single dot that is not a segment, and the octet behind it. -/
theorem ends_skip (hc : c ≠ 46) (hseg : ¬(c = 47 ∧ D.getLast? = some 47)) (he : Ends (D ++ [46, c]) R stale res) :
    Ends D (46 :: c :: R) stale res := by
  have hs : D ++ [46, c] ++ R = D ++ 46 :: c :: R := by simp
  refine ends_of_next (by simp) (fun k rest hrest hstale hsize => ⟨k, rest, hrest, hstale, by rwa [hs], ?_⟩) he
  have hdot : isDotSegment (bufferOf (D ++ 46 :: c :: R) rest) D.length = .ok false := by
    rw [isDotSegment_eq, decide_eq_false (by simpa using hseg)]
  have hnext : octetAt (bufferOf (D ++ 46 :: c :: R) rest) (D.length + 1) = .ok c := octetAt_next
  rw [hs, pathTurn_skip _ octetAt_at hdot hnext hc, if_neg (by simp only [List.length_append, List.length_cons]; omega),
    show (D ++ [46, c]).length = D.length + 2 by simp]

/-- A single dot at the end of the path. -/
theorem ends_last_dot (D : List UInt8) (stale : Bool) : Ends D [46] stale (D ++ [46]) := by
  refine ends_of_leave fun k rest hrest hstale => ⟨2 * k + 2, fun turns hle => ?_⟩
  obtain ⟨turns, rfl⟩ : ∃ j, turns = j + 1 := ⟨turns - 1, by omega⟩
  have hdot : isDotSegment (bufferOf (D ++ [46]) rest) D.length = .ok false := by
    rw [isDotSegment_eq]
    simp
  have hnext : octetAt (bufferOf (D ++ [46]) rest) (D.length + 1) = .ok 0 := octetAt_next
  have hturn := pathTurn_skip ((D ++ [46]).length + 2 * k) octetAt_at hdot hnext (by decide)
  have hlen : (D ++ [46]).length = D.length + 1 := by simp
  split_ifs at hturn with hstop
  · exact pathLoop_leave (by omega) hturn turns
  · rw [pathLoop_next (by omega) hturn, show D.length + 2 = (D ++ [46]).length + 1 by omega]
    exact pathLoop_leftover hrest (2 * k) 1 turns (by omega) (by omega)

theorem removeChunk_bufferOf (a m c : List UInt8) (hsize : (a ++ m ++ c).length + 1 + rest.length < 2 ^ 32) :
    removeChunk (bufferOf (a ++ m ++ c) rest) a.length m.length =
      .ok (bufferOf (a ++ c) (((a ++ m ++ c).map some ++ some 0 :: rest).drop ((a ++ c).length + 1))) ∧
    (a ++ c).length + 1 + (((a ++ m ++ c).map some ++ some 0 :: rest).drop ((a ++ c).length + 1)).length =
      (a ++ m ++ c).length + 1 + rest.length := by
  have hlen : (a ++ c).length + 1 + (((a ++ m ++ c).map some ++ some 0 :: rest).drop ((a ++ c).length + 1)).length =
      (a ++ m ++ c).length + 1 + rest.length := by
    simp only [List.length_drop, List.length_append, List.length_map, List.length_cons]
    omega
  refine ⟨?_, hlen⟩
  rw [removeChunk, bufferOf, removeChunk_split a m c rest _ (by omega), bufferOf, hlen]
  rfl

/-- A segment "." is removed; `end` stays where it is. -/
theorem ends_remove (he : Ends D (47 :: R) true res) : Ends (D ++ [47]) (46 :: 47 :: R) stale res := by
  refine ends_of_next (by simp) (fun k rest hrest hstale hsize => ?_) he
  have hs : D ++ [47] ++ 46 :: 47 :: R = D ++ [47] ++ [46, 47] ++ R := by simp
  have hs' : D ++ 47 :: R = D ++ [47] ++ R := by simp
  rw [hs] at hsize
  obtain ⟨hremove, hlen⟩ := removeChunk_bufferOf (D ++ [47]) [46, 47] R hsize
  refine ⟨k + 1, _, ?_, by simp, (by rw [hs', hlen]; exact hsize), ?_⟩
  · -- the last octet of the string and its NUL are left behind the new end
    obtain ⟨t, x, ht⟩ := (List.eq_nil_or_concat' (D ++ [47] ++ [46, 47] ++ R)).resolve_left (by simp)
    have htlen : t.length = (D ++ [47] ++ R).length + 1 := by
      have h := congrArg List.length ht
      simp only [List.length_append, List.length_cons, List.length_nil] at h ⊢
      omega
    refine ⟨x, rest, ?_, hrest⟩
    rw [← htlen, ht, List.map_append, List.append_assoc]
    exact List.drop_left' (by simp)
  · have hdot : isDotSegment (bufferOf (D ++ [47] ++ 46 :: 47 :: R) rest) (D ++ [47]).length = .ok true := by
      rw [isDotSegment_eq]
      simp
    rw [pathTurn, ok_then octetAt_at, if_neg (by simp), ok_then hdot, if_pos rfl, hs]
    rw [show (2 : ℕ) = ([46, 47] : List UInt8).length from rfl, ok_then hremove, hs']
    simp only [List.length_append, List.length_cons, List.length_nil]
    congr 2
    omega

/-- A run of two dots or more. -/
theorem pathTurn_dots (rest : Memory.Block UInt8) (hn : 2 ≤ n) (hR : R.head? ≠ some 46) (hstop : D.length + n ≤ stop) :
    pathTurn (bufferOf (D ++ (List.replicate n 46 ++ R)) rest) D.length stop =
      dotsTurn (bufferOf (D ++ (List.replicate n 46 ++ R)) rest) D.length stop (D.length + n) := by
  obtain ⟨n, rfl⟩ : ∃ m, n = m + 2 := ⟨n - 2, by omega⟩
  have hs : D ++ (List.replicate (n + 2) 46 ++ R) = D ++ 46 :: 46 :: (List.replicate n 46 ++ R) := rfl
  have hdot : isDotSegment (bufferOf (D ++ 46 :: 46 :: (List.replicate n 46 ++ R)) rest) D.length = .ok false := by
    rw [isDotSegment_eq]
    simp
  have hnext : octetAt (bufferOf (D ++ 46 :: 46 :: (List.replicate n 46 ++ R)) rest) (D.length + 1) = .ok 46 := octetAt_next
  have hskip : skipDots (bufferOf (D ++ 46 :: 46 :: (List.replicate n 46 ++ R)) rest) (stop - (D.length + 2))
      (D.length + 2) = .ok (D.length + 2 + n) := by
    have h := skipDots_eq (n := n) (k := stop - (D.length + 2)) (D ++ [46, 46]) rest hR (by omega)
    rw [List.append_assoc, List.length_append] at h
    exact h
  rw [hs, pathTurn, ok_then octetAt_at, if_neg (by simp), ok_then hdot, if_neg (by simp), if_neg (by omega), ok_then hnext,
    if_neg (by simp), ok_then hskip]
  rw [show D.length + 2 + n = D.length + (n + 2) by omega]

/-- The octet before a position. -/
theorem octetAt_prev (R : List UInt8) (rest : Memory.Block UInt8) (hD : D ≠ []) :
    ∃ c, D.getLast? = some c ∧ octetAt (bufferOf (D ++ R) rest) (D.length - 1) = .ok c := by
  obtain ⟨D, c, rfl⟩ := (List.eq_nil_or_concat' D).resolve_left hD
  exact ⟨c, by simp, octetAt_string (by simp)⟩

/-- Dots inside of a segment. -/
theorem ends_dots_inside (hn : 2 ≤ n) (hD : D ≠ []) (hlast : D.getLast? ≠ some 47) (hR : R.head? ≠ some 46) (hne : R ≠ [])
    (he : Ends (D ++ List.replicate n 46) R stale res) : Ends D (List.replicate n 46 ++ R) stale res := by
  have hs : D ++ List.replicate n 46 ++ R = D ++ (List.replicate n 46 ++ R) := List.append_assoc ..
  refine ends_of_next (by simp [hne]) (fun k rest hrest hstale hsize => ⟨k, rest, hrest, hstale, by rwa [hs], ?_⟩) he
  have hlen : (D ++ (List.replicate n 46 ++ R)).length = D.length + n + R.length := by
    simp only [List.length_append, List.length_replicate]
    omega
  have hpos := List.length_pos_iff.2 hne
  have hDpos := List.length_pos_iff.2 hD
  obtain ⟨c, hc, hprev⟩ := octetAt_prev (List.replicate n 46 ++ R) rest hD
  have hc47 : c ≠ 47 := fun h => hlast (h ▸ hc)
  rw [pathTurn_dots rest hn hR (by omega), dotsTurn, if_neg (by omega), if_neg (by omega), ok_then hprev, if_pos hc47, hs,
    @List.length_append _ D (List.replicate n 46), List.length_replicate]

/-- Dots at the end of the path, which are left alone. -/
theorem ends_dots_last (hn : 2 ≤ n) (h : stale = false ∨ D.getLast? ≠ some 47) :
    Ends D (List.replicate n 46) stale (D ++ List.replicate n 46) := by
  refine ends_of_leave fun k rest hrest hstale => ⟨2 * k + 2, fun turns hle => ?_⟩
  obtain ⟨turns, rfl⟩ : ∃ j, turns = j + 1 := ⟨turns - 1, by omega⟩
  have hlen : (D ++ List.replicate n 46).length = D.length + n := by simp
  have hturn := @pathTurn_dots D [] n ((D ++ List.replicate n 46).length + 2 * k) rest hn (by simp) (by omega)
  rw [List.append_nil, dotsTurn] at hturn
  by_cases h1 : (D ++ List.replicate n 46).length + 2 * k ≤ D.length + n
  · rw [if_pos h1] at hturn
    exact pathLoop_leave (by omega) hturn turns
  rw [if_neg h1] at hturn
  by_cases h2 : D.length = 0
  · rw [if_pos h2] at hturn
    exact pathLoop_leave (by omega) hturn turns
  rw [if_neg h2] at hturn
  obtain ⟨c, hc, hprev⟩ := octetAt_prev (List.replicate n 46) rest (List.ne_nil_of_length_pos (Nat.pos_of_ne_zero h2))
  have hc47 : c ≠ 47 := by
    rcases h with rfl | h
    · simp only [Bool.false_eq_true, false_iff, not_lt, Nat.le_zero] at hstale
      omega
    · exact fun hc' => h (hc' ▸ hc)
  rw [ok_then hprev, if_pos hc47] at hturn
  rw [pathLoop_next (by omega) hturn, ← hlen]
  exact pathLoop_leftover hrest (2 * k) 0 turns (by omega) (by omega)

/-- Dots behind a slash: the segment before them is removed with them. -/
theorem ends_dots (hn : 2 ≤ n) (hR : R.head? ≠ some 46) (h : R ≠ [] ∨ stale = true) (he : Ends (cut D) R false res) :
    Ends (D ++ [47]) (List.replicate n 46 ++ R) stale res := by
  refine ends_of_next (by simp; omega) (fun k rest hrest hstale hsize => ?_) he
  obtain ⟨t, ht⟩ := exists_cut D
  have hs : D ++ [47] ++ (List.replicate n 46 ++ R) = cut D ++ (t ++ [47] ++ List.replicate n 46) ++ R := by
    conv_lhs => rw [ht]
    simp only [List.append_assoc]
  have hDlen : D.length = (cut D).length + t.length := by
    conv_lhs => rw [ht]
    exact List.length_append
  rw [hs] at hsize
  obtain ⟨hremove, hlen⟩ := removeChunk_bufferOf (cut D) (t ++ [47] ++ List.replicate n 46) R hsize
  have hlen' : (D ++ [47] ++ (List.replicate n 46 ++ R)).length = D.length + 1 + n + R.length := by
    simp only [List.length_append, List.length_replicate, List.length_singleton]
    omega
  have hin : 0 < R.length + 2 * k := by
    rcases h with h | h
    · have := List.length_pos_iff.2 h
      omega
    · have := hstale.1 h
      omega
  have hback : backToSlash (bufferOf (D ++ [47] ++ (List.replicate n 46 ++ R)) rest)
      (if 0 < (D ++ [47]).length - 1 then (D ++ [47]).length - 1 - 1 else (D ++ [47]).length - 1) = .ok (cut D).length := by
    rw [List.append_assoc D, List.length_append, List.length_singleton, Nat.add_sub_cancel]
    split_ifs with h0
    · exact backToSlash_eq D _
    · obtain rfl : D = [] := List.length_eq_zero_iff.1 (by omega)
      rfl
  have hprev : octetAt (bufferOf (D ++ [47] ++ (List.replicate n 46 ++ R)) rest) ((D ++ [47]).length - 1) = .ok 47 :=
    octetAt_string (by simp)
  have hm : (D ++ [47]).length + n - (cut D).length = (t ++ [47] ++ List.replicate n 46).length := by
    simp only [List.length_append, List.length_replicate, List.length_singleton]
    omega
  refine ⟨0, _, trivial, by simp, (by rw [hlen]; exact hsize), ?_⟩
  rw [pathTurn_dots rest hn hR (by simp only [List.length_append, List.length_replicate] at hlen' ⊢; omega), dotsTurn,
    if_neg (by simp only [List.length_append, List.length_replicate, List.length_singleton] at hlen' ⊢; omega),
    if_neg (by simp), ok_then hprev, if_neg (by simp), ok_then hback, hm, hs, ok_then hremove]
  simp only [List.length_append, List.length_replicate, List.length_singleton, len_bufferOf]
  congr 2
  omega

end Turns

end LibHpack
