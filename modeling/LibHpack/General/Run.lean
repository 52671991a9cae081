import Mathlib.Logic.Basic

/-!
# LibHpack.General.Run — runs of a fallible step and their invariants

`step s a` performs action `a` in state `s`; it may fail (`Except.error`), which ends the run.  `Meets step ok s as`
says that every action of the run satisfies the condition `ok` in the state it is performed in.  The rules: an
invariant kept by the steps that meet the condition holds after every run that meets it (`run_invariant`), and when
those steps also succeed the run itself succeeds (`run_total`).
-/

universe u

namespace LibHpack.Run

/-! ### Sequences of two parts -/

/-- The rest of a sequence whose first part succeeds. -/
theorem ok_then {ε : Type*} {β γ : Type u} {x : Except ε β} {a : β} (h : x = .ok a) (f : β → Except ε γ) :
    (x >>= f) = f a := by
  rw [h]
  rfl

theorem ok_of_then {ε : Type*} {β γ : Type u} {x : Except ε β} {f : β → Except ε γ} {c : γ} (h : (x >>= f) = .ok c) :
    ∃ a, x = .ok a ∧ f a = .ok c := by
  cases x with
  | error e => cases h
  | ok a => exact ⟨a, rfl, h⟩

/-! ### Runs -/

variable {σ α ε : Type*} (step : σ → α → Except ε σ) (ok : σ → α → Prop)

/-- Perform the actions in order. -/
def run : σ → List α → Except ε σ
  | s, [] => .ok s
  | s, a :: as => (step s a).bind fun s' => run s' as

/-- Every action of the run meets the condition in the state it is performed in. -/
def Meets : σ → List α → Prop
  | _, [] => True
  | s, a :: as => ok s a ∧ ∀ s', step s a = .ok s' → Meets s' as

variable {step ok} {I : σ → Prop}

@[simp] theorem run_nil (s : σ) : run step s [] = .ok s := rfl

theorem run_cons {s r : σ} {a : α} (h : step s a = .ok r) (as : List α) :
    run step s (a :: as) = run step r as := by
  simp only [run, h, Except.bind]

theorem run_cons_ok {s r : σ} {a : α} {as : List α} (h : run step s (a :: as) = .ok r) :
    ∃ s', step s a = .ok s' ∧ run step s' as = .ok r := by
  cases hs : step s a with
  | error e => simp [run, hs, Except.bind] at h
  | ok s' => exact ⟨s', rfl, by rwa [run_cons hs] at h⟩

/-- One run behind another. -/
theorem run_append {s r : σ} {as : List α} (h : run step s as = .ok r) (bs : List α) :
    run step s (as ++ bs) = run step r bs := by
  induction as generalizing s with
  | nil =>
    cases h
    rfl
  | cons b as ih =>
    obtain ⟨s', h1, h2⟩ := run_cons_ok h
    rw [List.cons_append, run_cons h1, ih h2]

/-- A run and one more action. -/
theorem run_concat {s r : σ} {as : List α} (h : run step s as = .ok r) (a : α) :
    run step s (as ++ [a]) = step r a := by
  rw [run_append h, run]
  cases step r a <;> rfl

/-- An invariant of the steps that meet the condition is an invariant of the runs that meet it. -/
theorem run_invariant (hstep : ∀ s a s', I s → ok s a → step s a = .ok s' → I s') :
    ∀ (as : List α) (s r : σ), I s → Meets step ok s as → run step s as = .ok r → I r
  | [], s, r, hs, _, hr => by
    rw [run_nil] at hr
    cases hr
    exact hs
  | a :: as, s, r, hs, hm, hr => by
    obtain ⟨s', h1, h2⟩ := run_cons_ok hr
    exact run_invariant hstep as s' r (hstep s a s' hs hm.1 h1) (hm.2 s' h1) h2

/-- Every run meets the condition that is always true. -/
theorem meets_true (step : σ → α → Except ε σ) : ∀ (s : σ) (as : List α), Meets step (fun _ _ => True) s as
  | _, [] => trivial
  | _, _ :: as => ⟨trivial, fun s' _ => meets_true step s' as⟩

/-- An invariant of all steps is an invariant of all runs. -/
theorem run_preserves (hstep : ∀ s a s', I s → step s a = .ok s' → I s') {as : List α} {s r : σ} (hs : I s)
    (hr : run step s as = .ok r) : I r :=
  run_invariant (fun s a s' hs _ h => hstep s a s' hs h) as s r hs (meets_true step s as) hr

/-- A run that meets the condition up to its last action, and at it. -/
theorem meets_concat {s : σ} {as : List α} {a : α} :
    Meets step ok s (as ++ [a]) ↔ Meets step ok s as ∧ ∀ r, run step s as = .ok r → ok r a := by
  induction as generalizing s with
  | nil => simp [Meets]
  | cons b as ih =>
    rw [List.cons_append, Meets, Meets, and_assoc]
    refine and_congr_right fun _ => ⟨fun h => ⟨fun s' hs => (ih.mp (h s' hs)).1, fun r hr => ?_⟩,
      fun h s' hs => ih.mpr ⟨h.1 s' hs, fun r hr => h.2 r (by rwa [run_cons hs])⟩⟩
    obtain ⟨s', h1, h2⟩ := run_cons_ok hr
    exact (ih.mp (h s' h1)).2 r h2

/-- When the condition on a step is exactly what keeps the property, the runs whose steps all meet it are those that have
the property in every state. -/
theorem always_iff_meets (hstep : ∀ s a s', I s → step s a = .ok s' → (I s' ↔ ok s a)) :
    ∀ (as : List α) (s r : σ), I s → run step s as = .ok r →
      ((∀ n q, run step s (as.take n) = .ok q → I q) ↔ Meets step ok s as)
  | [], s, r, hs, _ => by
    refine iff_of_true (fun n q hq => ?_) trivial
    rw [List.take_nil, run_nil] at hq
    cases hq
    exact hs
  | a :: as, s, r, hs, hr => by
    obtain ⟨s', h1, h2⟩ := run_cons_ok hr
    have htake : ∀ n, run step s ((a :: as).take (n + 1)) = run step s' (as.take n) := fun n => run_cons h1 _
    constructor
    · intro h
      have hs' : I s' := h 1 s' (by rw [htake]; rfl)
      refine ⟨(hstep s a s' hs h1).mp hs', fun s'' hs'' => ?_⟩
      cases h1.symm.trans hs''
      exact (always_iff_meets hstep as s' r hs' h2).mp fun n q hq => h (n + 1) q (by rw [htake]; exact hq)
    · rintro ⟨hok, hrest⟩ n q hq
      have hs' : I s' := (hstep s a s' hs h1).mpr hok
      cases n with
      | zero =>
        cases hq
        exact hs
      | succ n =>
        rw [htake] at hq
        exact (always_iff_meets hstep as s' r hs' h2).mpr (hrest s' h1) n q hq

/-- When the steps that meet the condition succeed and keep the invariant, so does every run that meets it. -/
theorem run_total (hstep : ∀ s a, I s → ok s a → ∃ s', step s a = .ok s' ∧ I s') :
    ∀ (as : List α) (s : σ), I s → Meets step ok s as → ∃ r, run step s as = .ok r ∧ I r
  | [], s, hs, _ => ⟨s, rfl, hs⟩
  | a :: as, s, hs, hm => by
    obtain ⟨s', h1, hs'⟩ := hstep s a hs hm.1
    obtain ⟨r, h2, hr⟩ := run_total hstep as s' hs' (hm.2 s' h1)
    exact ⟨r, by rw [run_cons h1]; exact h2, hr⟩

instance decidableMeets [∀ s a, Decidable (ok s a)] : ∀ (s : σ) (as : List α), Decidable (Meets step ok s as)
  | _, [] => .isTrue trivial
  | s, a :: as =>
    match h : step s a with
    | .error _ => decidable_of_iff (ok s a) ⟨fun h' => ⟨h', fun _ hs => nomatch h.symm.trans hs⟩, fun h' => h'.1⟩
    | .ok s' =>
      have := decidableMeets s' as
      decidable_of_iff (ok s a ∧ Meets step ok s' as)
        ⟨fun h' => ⟨h'.1, fun _ hs => Except.ok.inj (h.symm.trans hs) ▸ h'.2⟩, fun h' => ⟨h'.1, h'.2 s' h⟩⟩

/-! ### Two machines side by side -/

section Pair

variable {β : Type*} (astep : σ → β → α → β) {R : σ → β → Prop}

/-- The step, together with that of a specification that never fails and may look at the state. -/
def pair (step : σ → α → Except ε σ) (s : σ × β) (a : α) : Except ε (σ × β) :=
  (step s.1 a).bind fun s' => .ok (s', astep s.1 s.2 a)

/-- **Simulation**: a relation that the two keep, step by step, holds after every run that meets the condition. -/
theorem run_simulation {astep : σ → β → α → β}
    (hstep : ∀ s b a, R s b → ok s a → ∃ s', step s a = .ok s' ∧ R s' (astep s b a)) :
    ∀ (as : List α) (s : σ) (b : β), R s b → Meets step ok s as →
      ∃ r c, run (pair astep step) (s, b) as = .ok (r, c) ∧ R r c
  | [], s, b, hR, _ => ⟨s, b, rfl, hR⟩
  | a :: as, s, b, hR, hm => by
    obtain ⟨s', h1, hR'⟩ := hstep s b a hR hm.1
    obtain ⟨r, c, h2, hRr⟩ := run_simulation hstep as s' (astep s b a) hR' (hm.2 s' h1)
    refine ⟨r, c, ?_, hRr⟩
    rw [run_cons (r := (s', astep s b a)) (by simp only [pair, h1]; rfl)]
    exact h2

end Pair

end LibHpack.Run
