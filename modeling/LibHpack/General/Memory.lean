import Mathlib.Data.List.Basic
import Mathlib.Data.List.TakeDrop

/-!
# LibHpack.General.Memory — one block of allocated memory, with checked accesses

A block is the list of its cells; a cell that nothing has been written to since it was allocated is `none`.  Every
access names its cells by index and is checked against the size of the block: what lies outside is an `Escape`.

The rules speak about a block that is split where the access is (`load_append`, `store_append`, `move_append`), so that a
proof about a sequence of accesses rewrites one list.
-/

namespace LibHpack.Memory

/-- An access that does not lie in the block: the first index behind it, and the size of the block. -/
structure Escape where
  stop : ℕ
  size : ℕ
  deriving DecidableEq, Repr

/-- The cells of a block. -/
abbrev Block (α : Type*) := List (Option α)

variable {α : Type*}

/-- Read the `n` cells from `i` on. -/
def load (b : Block α) (i n : ℕ) : Except Escape (List (Option α)) :=
  if i + n ≤ b.length then .ok ((b.drop i).take n) else .error ⟨i + n, b.length⟩

/-- Write the cells `xs` from `i` on. -/
def store (b : Block α) (i : ℕ) (xs : List (Option α)) : Except Escape (Block α) :=
  if i + xs.length ≤ b.length then .ok (b.take i ++ xs ++ b.drop (i + xs.length))
  else .error ⟨i + xs.length, b.length⟩

/-- Copy the `n` cells from `src` on to `dst`; the two may overlap. -/
def move (b : Block α) (dst src n : ℕ) : Except Escape (Block α) :=
  (load b src n).bind fun xs => store b dst xs

/-- Allocate the block anew with `n` cells: what it holds is kept, as far as there is room. -/
def resize (b : Block α) (n : ℕ) : Block α := b.take n ++ List.replicate (n - b.length) none

@[simp] theorem resize_length (b : Block α) (n : ℕ) : (resize b n).length = n := by
  rw [resize, List.length_append, List.length_take, List.length_replicate]
  omega

/-! ### A block that is split at the access -/

theorem load_append (l m r : List (Option α)) : load (l ++ m ++ r) l.length m.length = .ok m := by
  have hle : l.length + m.length ≤ (l ++ m ++ r).length := by
    rw [List.length_append, List.length_append]
    omega
  rw [load, if_pos hle, List.append_assoc, List.drop_left, List.take_left]

theorem store_append {l m x : List (Option α)} (r : List (Option α)) (h : x.length = m.length) :
    store (l ++ m ++ r) l.length x = .ok (l ++ x ++ r) := by
  have hle : l.length + x.length ≤ (l ++ m ++ r).length := by
    rw [List.length_append, List.length_append]
    omega
  have hdrop : (l ++ m ++ r).drop (l.length + x.length) = r := by
    rw [h, ← List.length_append, List.drop_left]
  rw [store, if_pos hle, hdrop, List.append_assoc l m r, List.take_left]

/-- Moving the cells `m` behind `l` so that they start behind `l'` instead, in a block that is long enough: `s` are the
cells that they overwrite. -/
theorem move_append (l m r l' s r' : List (Option α)) (h : l ++ m ++ r = l' ++ s ++ r') (hs : m.length = s.length) :
    move (l ++ m ++ r) l'.length l.length m.length = .ok (l' ++ m ++ r') := by
  rw [move, load_append]
  change store (l ++ m ++ r) l'.length m = _
  rw [h]
  exact store_append r' hs

/-- What fits is kept, and there is as much room behind it as was asked for. -/
theorem resize_append {l r : List (Option α)} {n : ℕ} (h : l.length ≤ n) :
    ∃ r', resize (l ++ r) n = l ++ r' ∧ r'.length = n - l.length := by
  refine ⟨(r.take (n - l.length)) ++ List.replicate (n - (l ++ r).length) none, ?_, ?_⟩
  · rw [resize, List.take_append, List.take_of_length_le h, List.append_assoc]
  · simp only [List.length_append, List.length_take, List.length_replicate]
    omega

end LibHpack.Memory
