import LibHpack.General.Run
import LibHpack.General.Memory

/-!
# LibHpack.General.Writes — cells that are written one behind another

A loop that writes through a pointer hands on the block and the position of the pointer.  `Writes x b i ys` says that `x`
is such a loop on `b`, from `i` on, and that it writes the cells `ys`: where they fit into the block, they stand there
afterwards, and where they do not, the loop leaves the block.  `Writes.store_then` and `Writes.bind` put such loops
together, with no need to know what is in the block.
-/

namespace LibHpack.Memory

open Run

variable {α : Type}

/-- Read the cell `i`, which has to have been written. -/
def read (b : Block α) (i : ℕ) : Except Escape α :=
  match b[i]? with
  | some (some c) => .ok c
  | _ => .error ⟨i + 1, b.length⟩

theorem read_of_getElem? {b : Block α} {i : ℕ} {c : α} (h : b[i]? = some (some c)) : read b i = .ok c := by
  rw [read, h]

/-- The block with the cells `ys` from `i` on. -/
def written (b : Block α) (i : ℕ) (ys : List α) : Block α := b.take i ++ ys.map some ++ b.drop (i + ys.length)

variable {b : Block α} {i : ℕ} {ys zs : List α}

theorem written_length (h : i + ys.length ≤ b.length) : (written b i ys).length = b.length := by
  rw [written, List.length_append, List.length_append, List.length_take, List.length_map, List.length_drop]
  omega

/-- The cells `m` are overwritten. -/
theorem written_split (l m r : Block α) (h : ys.length = m.length) :
    written (l ++ m ++ r) l.length ys = l ++ ys.map some ++ r := by
  rw [written, h, ← List.length_append, List.drop_left, List.append_assoc l m, List.take_left]

theorem take_written (h : i + ys.length ≤ b.length) : (written b i ys).take (i + ys.length) = b.take i ++ ys.map some := by
  have hlen : (b.take i ++ ys.map some).length = i + ys.length := by
    rw [List.length_append, List.length_take, List.length_map]
    omega
  rw [written, ← hlen, List.take_left]

/-- Behind what is written, nothing changes. -/
theorem drop_written (h : i + ys.length ≤ b.length) {n : ℕ} (hn : i + ys.length ≤ n) :
    (written b i ys).drop n = b.drop n := by
  have hlen : (b.take i ++ ys.map some).length = i + ys.length := by
    rw [List.length_append, List.length_take, List.length_map]
    omega
  obtain ⟨k, rfl⟩ := Nat.exists_eq_add_of_le hn
  rw [written, ← List.drop_drop, ← hlen, List.drop_left, hlen, List.drop_drop]

theorem written_append (h : i + ys.length ≤ b.length) :
    written (written b i ys) (i + ys.length) zs = written b i (ys ++ zs) := by
  rw [written, take_written h, drop_written h (Nat.le_add_right ..), written, List.length_append, List.map_append,
    List.append_assoc (b.take i), Nat.add_assoc]

theorem store_written (h : i + ys.length ≤ b.length) : store b i (ys.map some) = .ok (written b i ys) := by
  rw [store, List.length_map, if_pos h, written]

theorem store_escapes (h : b.length < i + ys.length) : ∃ e, store b i (ys.map some) = .error e := by
  rw [store, List.length_map, if_neg (by omega)]
  exact ⟨_, rfl⟩

/-- The loop `x` on `b` writes the cells `ys`, from `i` on. -/
structure Writes (x : Except Escape (Block α × ℕ)) (b : Block α) (i : ℕ) (ys : List α) : Prop where
  fits : i + ys.length ≤ b.length → x = .ok (written b i ys, i + ys.length)
  escapes : i ≤ b.length → b.length < i + ys.length → ∃ e, x = .error e

namespace Writes

variable {x : Except Escape (Block α × ℕ)} {f : Block α × ℕ → Except Escape (Block α × ℕ)}

theorem nil (b : Block α) (i : ℕ) : Writes (.ok (b, i)) b i [] where
  fits _ := by rw [written, List.map_nil, List.append_nil, List.length_nil, Nat.add_zero, List.take_append_drop]
  escapes h h' := absurd h' (by rw [List.length_nil]; omega)

/-- Cells that are written at once, and those behind them. -/
theorem store_then {f : Block α → Except Escape (Block α × ℕ)} (ys : List α)
    (h : ∀ b', Writes (f b') b' (i + ys.length) zs) : Writes (store b i (ys.map some) >>= f) b i (ys ++ zs) where
  fits hle := by
    rw [List.length_append] at hle ⊢
    have hys : i + ys.length ≤ b.length := by omega
    rw [ok_then (store_written hys), (h _).fits (by rw [written_length hys]; omega), written_append hys, Nat.add_assoc]
  escapes hi hlt := by
    rw [List.length_append] at hlt
    by_cases hys : i + ys.length ≤ b.length
    · rw [ok_then (store_written hys)]
      exact (h _).escapes (by rw [written_length hys]; exact hys) (by rw [written_length hys]; omega)
    · obtain ⟨e, he⟩ := store_escapes (Nat.lt_of_not_le hys)
      rw [he]
      exact ⟨e, rfl⟩

/-- One loop behind another. -/
theorem bind (h : Writes x b i ys) (hf : ∀ b', Writes (f (b', i + ys.length)) b' (i + ys.length) zs) :
    Writes (x >>= f) b i (ys ++ zs) where
  fits hle := by
    rw [List.length_append] at hle ⊢
    have hys : i + ys.length ≤ b.length := by omega
    rw [ok_then (h.fits hys), (hf _).fits (by rw [written_length hys]; omega), written_append hys, Nat.add_assoc]
  escapes hi hlt := by
    rw [List.length_append] at hlt
    by_cases hys : i + ys.length ≤ b.length
    · rw [ok_then (h.fits hys)]
      exact (hf _).escapes (by rw [written_length hys]; exact hys) (by rw [written_length hys]; omega)
    · obtain ⟨e, he⟩ := h.escapes hi (Nat.lt_of_not_le hys)
      rw [he]
      exact ⟨e, rfl⟩

end Writes

end LibHpack.Memory
