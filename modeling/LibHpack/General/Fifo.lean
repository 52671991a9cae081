import Mathlib.Tactic

/-!
# LibHpack.General.Fifo — a FIFO of weighted elements with a bound on the total

A queue is a list with the oldest element first.  `evictTo w room q` drops the oldest elements of `q` until the total
weight is at most `room`; what is left is the longest run of newest elements that fits (`suffix_evictTo`).  `add` is
the insertion that evicts.
-/

namespace LibHpack.Fifo

variable {α : Type*} (w : α → ℕ)

/-- The total weight of a queue. -/
def total (q : List α) : ℕ := (q.map w).sum

/-- Drop the oldest elements until the total weight is at most `room`. -/
def evictTo (room : ℕ) : List α → List α
  | [] => []
  | e :: q => if total w (e :: q) ≤ room then e :: q else evictTo room q

/-- Add an element under a maximum: the oldest ones make room for it; one that is too heavy empties the queue. -/
def add (max : ℕ) (e : α) (q : List α) : List α :=
  if max < w e then [] else evictTo w (max - w e) q ++ [e]

/-- `r` is the longest run of newest elements of `q` with a total of at most `room`. -/
structure LongestRun (room : ℕ) (q r : List α) : Prop where
  suffix : r <:+ q
  total_le : total w r ≤ room
  longest : ∀ s, s <:+ q → total w s ≤ room → s <:+ r

@[simp] theorem total_nil : total w [] = 0 := rfl

@[simp] theorem total_cons (e : α) (q : List α) : total w (e :: q) = w e + total w q := rfl

@[simp] theorem total_append (q r : List α) : total w (q ++ r) = total w q + total w r := by
  simp [total]

@[simp] theorem evictTo_nil (room : ℕ) : evictTo w room [] = [] := rfl

variable {w}

theorem evictTo_of_le {room : ℕ} {q : List α} (h : total w q ≤ room) : evictTo w room q = q := by
  cases q with
  | nil => rfl
  | cons e q => exact if_pos h

theorem add_of_lt {max : ℕ} {e : α} {q : List α} (h : max < w e) : add w max e q = [] := if_pos h

theorem add_of_le {max : ℕ} {e : α} {q : List α} (h : w e ≤ max) :
    add w max e q = evictTo w (max - w e) q ++ [e] := if_neg (by omega)

theorem evictTo_cons_of_lt {room : ℕ} {e : α} {q : List α} (h : room < total w (e :: q)) :
    evictTo w room (e :: q) = evictTo w room q := if_neg (by omega)

/-- The elements left are the newest ones. -/
theorem evictTo_suffix (room : ℕ) (q : List α) : evictTo w room q <:+ q := by
  induction q with
  | nil => exact List.suffix_refl _
  | cons e q ih =>
    by_cases h : total w (e :: q) ≤ room
    · rw [evictTo_of_le h]
    · rw [evictTo_cons_of_lt (by omega)]
      exact ih.trans (List.suffix_cons e q)

theorem total_evictTo_le (room : ℕ) (q : List α) : total w (evictTo w room q) ≤ room := by
  induction q with
  | nil => simp
  | cons e q ih =>
    by_cases h : total w (e :: q) ≤ room
    · rwa [evictTo_of_le h]
    · rwa [evictTo_cons_of_lt (by omega)]

/-- How many elements are left depends on the weights only. -/
theorem evictTo_length_congr {β : Type*} {v : β → ℕ} (room : ℕ) : ∀ (q : List α) (r : List β), q.map w = r.map v →
    (evictTo w room q).length = (evictTo v room r).length
  | [], [], _ => rfl
  | [], _ :: _, h => by cases h
  | _ :: _, [], h => by cases h
  | e :: q, f :: r, h => by
    have htotal : total w (e :: q) = total v (f :: r) := congrArg List.sum h
    rw [List.map_cons, List.map_cons, List.cons.injEq] at h
    rw [evictTo, evictTo, htotal]
    split_ifs
    · rw [List.length_cons, List.length_cons, ← List.length_map (f := w), h.2, List.length_map]
    · exact evictTo_length_congr room q r h.2

/-- No longer run of newest elements fits. -/
theorem suffix_evictTo {room : ℕ} {q r : List α} (h : r <:+ q) (hr : total w r ≤ room) :
    r <:+ evictTo w room q := by
  induction q with
  | nil => simpa using h
  | cons e q ih =>
    by_cases hq : total w (e :: q) ≤ room
    · rwa [evictTo_of_le hq]
    · rw [evictTo_cons_of_lt (by omega)]
      rcases List.suffix_cons_iff.mp h with rfl | h
      · exact absurd hr hq
      · exact ih h

theorem longestRun_evictTo (room : ℕ) (q : List α) : LongestRun w room q (evictTo w room q) :=
  ⟨evictTo_suffix room q, total_evictTo_le room q, fun _ hs hle => suffix_evictTo hs hle⟩

/-- Nothing is left in no room, when every element weighs something. -/
theorem evictTo_zero {q : List α} (h : ∀ e ∈ q, 0 < w e) : evictTo w 0 q = [] := by
  have h0 := total_evictTo_le (w := w) 0 q
  have hs := evictTo_suffix (w := w) 0 q
  cases hq : evictTo w 0 q with
  | nil => rfl
  | cons e r =>
    rw [hq] at h0 hs
    have := h e (hs.subset List.mem_cons_self)
    simp only [total_cons] at h0
    omega

/-- Every element weighing at least `k`, the total bounds the number of elements. -/
theorem length_mul_le_total {k : ℕ} {q : List α} (h : ∀ e ∈ q, k ≤ w e) : k * q.length ≤ total w q := by
  induction q with
  | nil => simp
  | cons e q ih =>
    have h1 := h e List.mem_cons_self
    have h2 := ih fun x hx => h x (List.mem_cons_of_mem e hx)
    simp only [List.length_cons, total_cons, Nat.mul_succ]
    omega

end LibHpack.Fifo
