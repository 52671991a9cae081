import Mathlib.Tactic
import LibHpack.General.Writes

/-!
# LibHpack.General.Streaming — a message that is taken in chunk by chunk

A function `f` folds chunks of `n` octets into a value, and a message arrives in pieces of any length.  `chain n f c l` is
the value of all whole chunks of `l`, and `pending n l` what is left over of it.  A program keeps the value and, at the
beginning of a block of `n` cells, the octets that are left over: that is `Absorbing`.  Its two rules are all that a
program does: octets are stored behind the pending ones, and the block does not become full (`Absorbing.store_below`), or
it does, and its chunk is folded in (`Absorbing.store_full`).

`pad` is the padding that makes a message and a trailer of `w` octets a number of whole chunks.
-/

namespace LibHpack.Streaming

open Memory Run

variable {α : Type} {σ : Type*} (n : ℕ) (f : σ → List α → σ)

/-- Fold the first `k` chunks. -/
def chunks : ℕ → σ → List α → σ
  | 0, c, _ => c
  | k + 1, c, l => chunks k (f c (l.take n)) (l.drop n)

/-- Fold all whole chunks. -/
def chain (c : σ) (l : List α) : σ := chunks n f (l.length / n) c l

/-- The octets behind the last whole chunk. -/
def pending (l : List α) : List α := l.drop (n * (l.length / n))

variable {n f} {c c0 : σ} {l r x : List α}

theorem pending_length (n : ℕ) (l : List α) : (pending n l).length = l.length % n := by
  rw [pending, List.length_drop]
  have := Nat.div_add_mod l.length n
  omega

theorem chain_of_lt (h : l.length < n) : chain n f c l = c := by
  rw [chain, Nat.div_eq_of_lt h, chunks]

theorem pending_of_lt (h : l.length < n) : pending n l = l := by
  rw [pending, Nat.div_eq_of_lt h, Nat.mul_zero, List.drop_zero]

/-- A chunk in front. -/
theorem chain_cons (hn : 0 < n) (h : x.length = n) : chain n f c (x ++ l) = chain n f (f c x) l := by
  have hdiv : (x ++ l).length / n = l.length / n + 1 := by
    rw [List.length_append, h, Nat.add_div_left _ hn]
  rw [chain, hdiv, chunks, List.take_left' h, List.drop_left' h, chain]

theorem pending_cons (hn : 0 < n) (h : x.length = n) : pending n (x ++ l) = pending n l := by
  have hdiv : (x ++ l).length / n = l.length / n + 1 := by
    rw [List.length_append, h, Nat.add_div_left _ hn]
  have hmul : n * (l.length / n + 1) = x.length + n * (l.length / n) := by
    rw [h, Nat.mul_add, Nat.mul_one, Nat.add_comm]
  rw [pending, hdiv, hmul, ← List.drop_drop, List.drop_left, pending]

/-- **Pieces**: behind the whole chunks of a message, what is left over and the next piece take over. -/
theorem chain_append (hn : 0 < n) (c : σ) (l r : List α) :
    chain n f c (l ++ r) = chain n f (chain n f c l) (pending n l ++ r) := by
  by_cases h : l.length < n
  · rw [chain_of_lt h, pending_of_lt h]
  · have htake : (l.take n).length = n := by
      rw [List.length_take]
      omega
    rw [← List.take_append_drop n l, List.append_assoc, chain_cons hn htake, chain_cons hn htake, pending_cons hn htake]
    exact chain_append hn _ _ _
termination_by l.length
decreasing_by
  rw [List.length_drop]
  omega

theorem pending_append (hn : 0 < n) (l r : List α) : pending n (l ++ r) = pending n (pending n l ++ r) := by
  by_cases h : l.length < n
  · rw [pending_of_lt h]
  · have htake : (l.take n).length = n := by
      rw [List.length_take]
      omega
    rw [← List.take_append_drop n l, List.append_assoc, pending_cons hn htake, pending_cons hn htake]
    exact pending_append hn _ _
termination_by l.length
decreasing_by
  rw [List.length_drop]
  omega

/-! ### Octets of a block, all of them written -/

/-- Read the `k` cells from `i` on, which have to have been written. -/
def readAll (b : Block α) (i k : ℕ) : Except Escape (List α) := do
  let cells ← load b i k
  match cells.mapM id with
  | some octets => .ok octets
  | none => .error ⟨i + k, b.length⟩

theorem mapM_some (l : List α) : (l.map some).mapM id = some l := by
  induction l with
  | nil => rfl
  | cons a l ih =>
    rw [List.map_cons, List.mapM_cons, ih]
    rfl

theorem readAll_of_take {b : Block α} {k : ℕ} (h : b.take k = l.map some) (hk : k ≤ b.length) :
    readAll b 0 k = .ok l := by
  have hload : load b 0 k = .ok (l.map some) := by
    rw [load, if_pos (by omega), List.drop_zero, h]
  rw [readAll, ok_then hload, mapM_some]

theorem eq_map_of_mapM {cells : Block α} (h : cells.mapM id = some l) : cells = l.map some := by
  induction cells generalizing l with
  | nil =>
    cases h
    rfl
  | cons a cells ih =>
    rw [List.mapM_cons] at h
    cases a with
    | none => cases h
    | some a =>
      cases hcells : cells.mapM id with
      | none =>
        rw [hcells] at h
        cases h
      | some l' =>
        rw [hcells] at h
        cases h
        rw [ih hcells, List.map_cons]

/-- A block that can be read as a whole. -/
theorem eq_map_of_readAll {b : Block α} (h : readAll b 0 b.length = .ok l) : b = l.map some := by
  have hload : load b 0 b.length = .ok b := by
    rw [load, if_pos (by omega), List.drop_zero, List.take_length]
  rw [readAll, ok_then hload] at h
  cases hb : b.mapM id with
  | none =>
    rw [hb] at h
    cases h
  | some l' =>
    rw [hb] at h
    cases h
    exact eq_map_of_mapM hb

theorem readAll_map {i k : ℕ} (h : i + k ≤ l.length) : readAll (l.map some) i k = .ok ((l.drop i).take k) := by
  have hload : load (l.map some) i k = .ok (((l.drop i).take k).map some) := by
    rw [load, if_pos (by rw [List.length_map]; exact h), List.map_take, List.map_drop]
  rw [readAll, ok_then hload, mapM_some]

/-- Octets behind those that have just been stored. -/
theorem store_behind {b : Block α} {i j : ℕ} {ys zs : List α} (hj : j = i + ys.length)
    (h : i + ys.length + zs.length ≤ b.length) :
    store (written b i ys) j (zs.map some) = .ok (written b i (ys ++ zs)) := by
  have hys : i + ys.length ≤ b.length := by omega
  rw [hj, store_written (by rw [written_length hys]; exact h), written_append hys]

theorem written_nil (b : Block α) (i : ℕ) : written b i [] = b := by
  rw [written, List.map_nil, List.append_nil, List.length_nil, Nat.add_zero, List.take_append_drop]

/-! ### The state between two pieces -/

/-- The value `c` and the block `m` stand for the message `msg`, taken in from `c0` on. -/
structure Absorbing (n : ℕ) (f : σ → List α → σ) (c0 c : σ) (m : Block α) (msg : List α) : Prop where
  value : c = chain n f c0 msg
  left : m.take (msg.length % n) = (pending n msg).map some
  size : m.length = n

namespace Absorbing

variable {m : Block α} {msg d : List α}

theorem start (c0 : σ) (hm : m.length = n) : Absorbing n f c0 c0 m [] where
  value := by rw [chain, List.length_nil, Nat.zero_div, chunks]
  left := by rw [List.length_nil, Nat.zero_mod, List.take_zero, pending, List.drop_nil, List.map_nil]
  size := hm

/-- What stands in the block, up to the end of the new octets. -/
theorem take_stored (h : Absorbing n f c0 c m msg) (hd : msg.length % n + d.length ≤ n) :
    (written m (msg.length % n) d).take (msg.length % n + d.length) = (pending n msg ++ d).map some := by
  rw [take_written (by rw [h.size]; exact hd), h.left, List.map_append]

/-- There is room for them. -/
theorem store_eq (h : Absorbing n f c0 c m msg) (hd : msg.length % n + d.length ≤ n) :
    store m (msg.length % n) (d.map some) = .ok (written m (msg.length % n) d) :=
  store_written (by rw [h.size]; exact hd)

/-- **Octets that do not fill the block.** -/
theorem store_below (h : Absorbing n f c0 c m msg) (hd : msg.length % n + d.length < n) :
    Absorbing n f c0 c (written m (msg.length % n) d) (msg ++ d) := by
  have hn : 0 < n := by omega
  have hlen : (pending n msg ++ d).length = msg.length % n + d.length := by
    rw [List.length_append, pending_length]
  have hlt : (pending n msg ++ d).length < n := by rwa [hlen]
  have hmod : (msg ++ d).length % n = msg.length % n + d.length := by
    rw [← pending_length, pending_append hn, pending_of_lt hlt, hlen]
  refine ⟨?_, ?_, ?_⟩
  · rw [chain_append hn, chain_of_lt hlt]
    exact h.value
  · rw [hmod, h.take_stored hd.le, pending_append hn, pending_of_lt hlt]
  · rw [written_length (by rw [h.size]; exact hd.le), h.size]

/-- **Octets that fill it**: its chunk is the next one. -/
theorem store_full (h : Absorbing n f c0 c m msg) (hn : 0 < n) (hd : msg.length % n + d.length = n) :
    readAll (written m (msg.length % n) d) 0 n = .ok (pending n msg ++ d) ∧
      Absorbing n f c0 (f c (pending n msg ++ d)) (written m (msg.length % n) d) (msg ++ d) := by
  have hlen : (pending n msg ++ d).length = n := by
    rw [List.length_append, pending_length, hd]
  have hsize : (written m (msg.length % n) d).length = n := by
    rw [written_length (by rw [h.size]; exact hd.le), h.size]
  have htake : (written m (msg.length % n) d).take n = (pending n msg ++ d).map some := by
    have htake := h.take_stored hd.le
    rwa [hd] at htake
  have hnil : pending n (pending n msg ++ d) = [] := by
    rw [pending, hlen, Nat.div_self hn, Nat.mul_one, List.drop_of_length_le hlen.le]
  have hmod : (msg ++ d).length % n = 0 := by
    rw [← pending_length, pending_append hn, hnil, List.length_nil]
  refine ⟨readAll_of_take htake hsize.ge, ?_, ?_, hsize⟩
  · have hchain := chain_cons (f := f) (c := chain n f c0 msg) (l := []) hn hlen
    rw [List.append_nil, chain_of_lt (l := []) hn] at hchain
    rw [chain_append hn, hchain, h.value]
  · rw [hmod, List.take_zero, pending_append hn, hnil, List.map_nil]

end Absorbing

/-- What one step does with a piece, a run does with all of them. -/
theorem run_absorbs {S : Type} {step : S → List α → Except Escape S} (Holds : S → List α → Prop) {ok : List α → Prop}
    (hstep : ∀ s msg d, Holds s msg → ok d → ∃ s', step s d = .ok s' ∧ Holds s' (msg ++ d)) :
    ∀ (pieces : List (List α)) (s : S) (msg : List α), Holds s msg → (∀ d ∈ pieces, ok d) →
      ∃ r, run step s pieces = .ok r ∧ Holds r (msg ++ pieces.flatten)
  | [], s, msg, h, _ => ⟨s, rfl, by rwa [List.flatten_nil, List.append_nil]⟩
  | d :: pieces, s, msg, h, hok => by
    rw [List.forall_mem_cons] at hok
    obtain ⟨s', hs, h'⟩ := hstep s msg d h hok.1
    obtain ⟨r, hrun, hr⟩ := run_absorbs Holds hstep pieces s' (msg ++ d) h' hok.2
    exact ⟨r, by rw [run_cons hs, hrun], by rwa [List.flatten_cons, ← List.append_assoc]⟩

/-! ### Padding -/

/-- A mark and the fewest zeros that let a message of `len` octets end in a whole chunk, with `w` octets to come. -/
def pad (one zero : α) (n w len : ℕ) : List α := one :: List.replicate ((n - (len + 1 + w) % n) % n) zero

end LibHpack.Streaming
