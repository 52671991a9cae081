import Mathlib.Order.Bounds.Basic
import Mathlib.Order.Nat

/-!
# LibHpack.General.First — the first position with a property

`IsFirst P r` says what a search for a position with the property `P` is to return.  A search that goes on one position at
a time is followed by `IsFirst.here` and `IsFirst.next`; a search for a weaker property is right where no position that has
only that one comes first.
-/

namespace LibHpack

/-- The first position with the property, or that there is none. -/
def IsFirst (P : ℕ → Prop) : Option ℕ → Prop
  | some p => IsLeast {p | P p} p
  | none => ∀ p, ¬P p

variable {P Q : ℕ → Prop} {r : Option ℕ} {p : ℕ}

namespace IsFirst

theorem here (h : P 0) : IsFirst P (some 0) := ⟨h, fun _ _ => Nat.zero_le _⟩

/-- What is not here is behind. -/
theorem next (h0 : ¬P 0) (h : IsFirst (fun p => P (p + 1)) r) : IsFirst P (r.map (· + 1)) := by
  cases r with
  | none =>
    intro p hp
    cases p with
    | zero => exact h0 hp
    | succ p => exact h p hp
  | some q =>
    refine ⟨h.1, ?_⟩
    intro p hp
    cases p with
    | zero => exact absurd hp h0
    | succ p => exact Nat.succ_le_succ (h.2 hp)

theorem congr (hPQ : ∀ p, P p ↔ Q p) (h : IsFirst P r) : IsFirst Q r := by
  obtain rfl : P = Q := funext fun p => propext (hPQ p)
  exact h

/-- **A weaker property** leads to the same position exactly where nothing that has only that one comes first. -/
theorem of_weaker_iff (hPQ : ∀ p, P p → Q p) (h : IsFirst Q r) : IsFirst P r ↔ ∀ p, Q p → ¬P p → ∃ q < p, P q := by
  constructor
  · intro hP p hQ hnot
    cases r with
    | none => exact absurd hQ (h p)
    | some q =>
      refine ⟨q, lt_of_le_of_ne (h.2 hQ) ?_, hP.1⟩
      rintro rfl
      exact hnot hP.1
  · intro hstray
    cases r with
    | none => exact fun p hp => h p (hPQ p hp)
    | some q =>
      have hq : P q := by
        by_contra hnot
        obtain ⟨p, hlt, hp⟩ := hstray q h.1 hnot
        exact absurd (h.2 (hPQ p hp)) (Nat.not_le_of_lt hlt)
      exact ⟨hq, fun p hp => h.2 (hPQ p hp)⟩

end IsFirst

end LibHpack
