import LibHpack.Path.Scan

/-!
# LibHpack.Path.Segments — the loop of chula_path_short, segment by segment

`shortSegs D stale segs` is the path that the loop leaves, where `D` is what stands before the segments that are still to
be read.  A segment that starts with two dots is taken for "..", whatever follows them; at the end of the path only a
stale `end` makes the loop read on.
-/

namespace LibHpack

open RawBuffer

/-- The segment starts with two dots. -/
def startsDots : List UInt8 → Bool
  | 46 :: 46 :: _ => true
  | _ => false

/-- What follows the dots at the beginning of a segment. -/
def afterDots (s : List UInt8) : List UInt8 := s.dropWhile (· = 46)

/-- What the loop leaves at the last segment. -/
def shortLast (D : List UInt8) (stale : Bool) (s : List UInt8) : List UInt8 :=
  if startsDots s then
    if afterDots s = [] then (if stale then cut D else D ++ 47 :: s) else cut D ++ afterDots s
  else D ++ 47 :: s

def shortSegs (D : List UInt8) (stale : Bool) : List (List UInt8) → List UInt8
  | [] => D
  | [s] => shortLast D stale s
  | s :: t :: segs =>
    if s = [46] then shortSegs D true (t :: segs)
    else if startsDots s then shortSegs (cut D ++ afterDots s) false (t :: segs)
    else shortSegs (D ++ 47 :: s) stale (t :: segs)

/-- The segments, each behind a slash. -/
def joined (segs : List (List UInt8)) : List UInt8 := segs.flatMap fun s => 47 :: s

section Segments

variable {D R s res : List UInt8} {stale : Bool} {segs : List (List UInt8)}

@[simp] theorem joined_nil : joined [] = [] := rfl

@[simp] theorem joined_cons (s : List UInt8) (segs : List (List UInt8)) :
    joined (s :: segs) = 47 :: (s ++ joined segs) := rfl

theorem joined_concat (segs : List (List UInt8)) (s : List UInt8) : joined (segs ++ [s]) = joined segs ++ 47 :: s := by
  simp [joined]

theorem exists_dots (s : List UInt8) : ∃ n, s = List.replicate n 46 ++ afterDots s ∧ (afterDots s).head? ≠ some 46 ∧
    (startsDots s = true ↔ 2 ≤ n) := by
  induction s with
  | nil => exact ⟨0, rfl, by simp [afterDots], by simp [startsDots]⟩
  | cons c s ih =>
    obtain ⟨n, hs, hhead, hdots⟩ := ih
    by_cases hc : c = 46
    · subst hc
      have hafter : afterDots (46 :: s) = afterDots s := by simp [afterDots]
      refine ⟨n + 1, ?_, by rwa [hafter], ?_⟩
      · rw [hafter, List.replicate_succ, List.cons_append, ← hs]
      · cases n with
        | zero =>
          rw [List.replicate_zero, List.nil_append] at hs
          rw [← hs] at hhead
          rcases s with _ | ⟨d, s⟩
          · simp [startsDots]
          · have hd : d ≠ 46 := by simpa using hhead
            simp [startsDots, hd]
        | succ n =>
          rw [hs, List.replicate_succ]
          simp [startsDots]
    · have hafter : afterDots (c :: s) = c :: s := by simp [afterDots, hc]
      exact ⟨0, by rw [hafter]; rfl, by simpa [hafter] using hc, by simp [startsDots, hc]⟩

/-- How the loop goes on behind a segment: the path ends here, or there is another segment. -/
def Continues (D R : List UInt8) (stale : Bool) (res : List UInt8) : Prop :=
  (R = [] ∧ res = D) ∨ (R.head? = some 47 ∧ Ends D R stale res)

theorem Continues.ends (h : Continues D R stale res) : Ends D R stale res := by
  rcases h with ⟨rfl, rfl⟩ | ⟨-, h⟩
  · exact ends_nil _ _
  · exact h

/-- **The rest of a segment**, which has no dots at its beginning unless something other than a slash stands before them:
nothing in it is changed. -/
theorem ends_scan : ∀ (m : ℕ) (v D : List UInt8), v.length ≤ m → 47 ∉ v →
    (v.head? = some 46 → D ≠ [] ∧ D.getLast? ≠ some 47) → Continues (D ++ v) R stale res → Ends D (v ++ R) stale res
  | m, [], D, _, _, _, h => by
    rw [List.append_nil] at h
    exact h.ends
  | 0, c :: v, _, hm, _, _, _ => absurd hm (by simp)
  | m + 1, c :: v, D, hm, hv, hD, h => by
    rw [List.length_cons] at hm
    have ih := ends_scan m
    rw [List.mem_cons, not_or] at hv
    by_cases hc : c = 46
    swap
    · -- an octet that is not a dot
      refine (ends_other hc).2 (ih v (D ++ [c]) (by omega) hv.2 (fun _ => ⟨by simp, ?_⟩) ?_)
      · simpa using Ne.symm hv.1
      · rwa [List.append_assoc, List.singleton_append]
    subst hc
    obtain ⟨hDne, hlast⟩ := hD rfl
    obtain ⟨n, hs, hhead, -⟩ := exists_dots v
    have hlen := congrArg List.length hs
    rw [List.length_append, List.length_replicate] at hlen
    cases n with
    | zero =>
      rw [List.replicate_zero, List.nil_append] at hs
      rw [← hs] at hhead
      rcases v with _ | ⟨d, v⟩
      · -- a dot at the end of the segment
        rcases h with ⟨rfl, rfl⟩ | ⟨hR, h⟩
        · exact ends_last_dot D stale
        · rcases R with _ | ⟨d, R⟩
          · cases hR
          · cases hR
            refine ends_skip (by decide) (fun h => hlast h.2) ?_
            have h' := (ends_other (by decide)).1 h
            rwa [List.append_assoc] at h'
      · have hd : d ≠ 46 := by simpa using hhead
        rw [List.mem_cons, not_or] at hv
        have hd' : d ≠ 47 := Ne.symm hv.2.1
        rw [List.length_cons] at hm
        refine ends_skip hd (fun h => hd' h.1) (ih v (D ++ [46, d]) (by omega) hv.2.2 (fun _ => ⟨by simp, ?_⟩) ?_)
        · simpa using hd'
        · rwa [List.append_assoc]
    | succ n =>
      -- a run of dots
      have hv' : (46 : UInt8) :: v = List.replicate (n + 2) 46 ++ afterDots v := by
        conv_lhs => rw [hs]
        rfl
      have hafter : 47 ∉ afterDots v := fun hm => hv.2 (by rw [hs]; exact List.mem_append_right _ hm)
      rw [hv', ← List.append_assoc] at h
      rw [hv', List.append_assoc]
      by_cases hnil : afterDots v = [] ∧ R = []
      · obtain ⟨hnil, rfl⟩ := hnil
        rcases h with ⟨-, rfl⟩ | ⟨hR, -⟩
        · simp only [hnil, List.append_nil]
          exact ends_dots_last (n := n + 2) (by omega) (.inr hlast)
        · cases hR
      · have hhead' : (afterDots v ++ R).head? ≠ some 46 := by
          rw [List.head?_append]
          rcases hw : afterDots v with _ | ⟨d, w⟩
          · rcases h with ⟨rfl, -⟩ | ⟨hR, -⟩
            · exact absurd ⟨hw, rfl⟩ hnil
            · simp [hR]
          · rw [hw] at hhead
            simpa using hhead
        refine ends_dots_inside (n := n + 2) (by omega) hDne hlast hhead' ?_ ?_
        · simpa [List.append_eq_nil_iff] using hnil
        · exact ih (afterDots v) (D ++ List.replicate (n + 2) 46) (by omega) hafter (fun h => absurd h hhead) h

/-- A segment that stays. -/
theorem ends_plain (hs : 47 ∉ s) (hdot : s ≠ [46]) (hdots : startsDots s = false) (h : Continues (D ++ 47 :: s) R stale res) :
    Ends D (47 :: (s ++ R)) stale res := by
  refine (ends_other (by decide)).2 ?_
  rcases s with _ | ⟨c, s⟩
  · exact h.ends
  rw [List.mem_cons, not_or] at hs
  by_cases hc : c = 46
  · subst hc
    rcases s with _ | ⟨d, s⟩
    · exact absurd rfl hdot
    have hd : d ≠ 46 := by
      rintro rfl
      simp [startsDots] at hdots
    rw [List.mem_cons, not_or] at hs
    have hd' : d ≠ 47 := Ne.symm hs.2.1
    refine ends_skip hd (fun h => hd' h.1) (ends_scan s.length s _ le_rfl hs.2.2 (fun _ => ⟨by simp, by simpa using hd'⟩) ?_)
    simpa using h
  · refine (ends_other hc).2 (ends_scan s.length s _ le_rfl hs.2 (fun _ => ⟨by simp, ?_⟩) ?_)
    · simpa using Ne.symm hs.1
    · simpa using h

/-- A segment that starts with two dots. -/
theorem ends_dotted (hs : 47 ∉ s) (hdots : startsDots s = true) (hR : R.head? ≠ some 46)
    (h : afterDots s ++ R ≠ [] ∨ stale = true) (he : Continues (cut D ++ afterDots s) R false res) :
    Ends D (47 :: (s ++ R)) stale res := by
  refine (ends_other (by decide)).2 ?_
  obtain ⟨n, heq, hhead, hn⟩ := exists_dots s
  have hhead' : (afterDots s ++ R).head? ≠ some 46 := by
    rw [List.head?_append]
    rcases hw : afterDots s with _ | ⟨d, w⟩
    · exact hR
    · rw [hw] at hhead
      simpa using hhead
  have hafter : 47 ∉ afterDots s := fun hm => hs (by rw [heq]; exact List.mem_append_right _ hm)
  have hscan : Ends (cut D) (afterDots s ++ R) false res :=
    ends_scan (afterDots s).length (afterDots s) (cut D) le_rfl hafter (fun h => absurd h hhead) he
  have hends := ends_dots (D := D) (n := n) (hn.1 hdots) hhead' h hscan
  rwa [← List.append_assoc, ← heq] at hends

theorem ends_shortLast (hs : 47 ∉ s) : Ends D (47 :: s) stale (shortLast D stale s) := by
  have hnil : ∀ {E σ}, Continues E [] σ E := .inl ⟨rfl, rfl⟩
  rw [shortLast]
  by_cases hdots : startsDots s = true
  · rw [if_pos hdots]
    have hdotted : afterDots s ≠ [] ∨ stale = true → Ends D (47 :: s) stale (cut D ++ afterDots s) := by
      intro h
      have hends := ends_dotted (D := D) (R := []) hs hdots (by simp) (by rwa [List.append_nil]) hnil
      rwa [List.append_nil] at hends
    by_cases hafter : afterDots s = []
    · rw [if_pos hafter]
      cases stale with
      | true =>
        have h := hdotted (.inr rfl)
        rwa [hafter, List.append_nil] at h
      | false =>
        obtain ⟨n, heq, -, hn⟩ := exists_dots s
        rw [hafter, List.append_nil] at heq
        refine (ends_other (by decide)).2 ?_
        have h := ends_dots_last (D := D ++ [47]) (n := n) (hn.1 hdots) (.inl rfl)
        rw [← heq, List.append_assoc] at h
        exact h
    · rw [if_neg hafter]
      exact hdotted (.inl hafter)
  · rw [if_neg hdots]
    by_cases hdot : s = [46]
    · subst hdot
      have h := ends_last_dot (D ++ [47]) stale
      rw [List.append_assoc] at h
      exact (ends_other (by decide)).2 h
    · have h : Ends D (47 :: (s ++ [])) stale _ := ends_plain hs hdot (by simpa using hdots) hnil
      rwa [List.append_nil] at h

/-- **The loop**, over all the segments that are left. -/
theorem ends_shortSegs (hne : segs ≠ []) (hsegs : ∀ s ∈ segs, 47 ∉ s) (D : List UInt8) (stale : Bool) :
    Ends D (joined segs) stale (shortSegs D stale segs) := by
  induction segs generalizing D stale with
  | nil => exact absurd rfl hne
  | cons s segs ih =>
    have hs := hsegs s (List.mem_cons_self ..)
    rcases segs with _ | ⟨t, segs⟩
    · rw [joined_cons, joined_nil, List.append_nil, shortSegs]
      exact ends_shortLast hs
    have ih := ih (by simp) fun u hu => hsegs u (List.mem_cons_of_mem _ hu)
    rw [joined_cons, shortSegs]
    by_cases hdot : s = [46]
    · rw [if_pos hdot, hdot]
      refine (ends_other (by decide)).2 ?_
      exact ends_remove (ih D true)
    rw [if_neg hdot]
    by_cases hdots : startsDots s = true
    · rw [if_pos hdots]
      exact ends_dotted hs hdots (by simp) (.inl (by simp)) (.inr ⟨rfl, ih _ false⟩)
    · rw [if_neg hdots]
      exact ends_plain hs hdot (by simpa using hdots) (.inr ⟨rfl, ih _ stale⟩)

end Segments

end LibHpack
