import LibHpack.Buffer.Ops

/-!
# LibHpack.Buffer.Chunk — removing a range of octets (libchula buffer.c)

`chula_buffer_remove_chunk` moves what is behind the range, but the range that it moves is cut at the end of the string
while the number that it takes off the length is not.  `removeChunk_split` is what it does to a range inside of the
string, down to the cells behind the new end, which `chula_path_short` goes on to read.
-/

namespace LibHpack

open Memory Run

namespace RawBuffer

/-- `chula_buffer_remove_chunk`. -/
def chulaBufferRemoveChunk (b : RawBuffer) (fromPos len : ℕ) : Except Escape RawBuffer :=
  if b.len ≤ fromPos then .ok b
  else if fromPos = 0 ∧ b.len ≤ len then b.chulaBufferClean
  else do
    let stop := min (fromPos + len) b.len
    let b ← b.moveIn fromPos stop (b.len - stop + 1)
    return { b with len := toUint32 (b.len - len) }

/-- The buffer contains the string `s` and a NUL behind it; its block may have any size that the fields can say. -/
inductive Contains : RawBuffer → List UInt8 → Prop
  | null : Contains ⟨none, 0, 0⟩ []
  | block (s : List UInt8) (rest : Block UInt8) (hsize : s.length + 1 + rest.length < 2 ^ 32) :
      Contains ⟨some (s.map some ++ some 0 :: rest), s.length + 1 + rest.length, s.length⟩ s

variable {b b' : RawBuffer} {s s' : List UInt8} {fromPos len : ℕ}

theorem Contains.len_eq (h : b.Contains s) : b.len = s.length := by
  cases h <;> rfl

theorem Contains.len_lt (h : b.Contains s) : s.length < 2 ^ 32 := by
  cases h with
  | null => simp
  | block _ rest hsize => omega

theorem Contains.take_cells (h : b.Contains s) : b.cells.take b.len = s.map some := by
  cases h with
  | null => rfl
  | block _ rest hsize => exact List.take_left' (by simp)

theorem Contains.unique (h : b.Contains s) (h' : b.Contains s') : s = s' :=
  List.map_injective_iff.2 (Option.some_injective _) (h.take_cells.symm.trans h'.take_cells)

/-- Taking the cells `m` out of the middle of a block. -/
theorem moveIn_split (a m c rest : Block UInt8) (size len : ℕ) :
    moveIn ⟨some (a ++ m ++ c ++ rest), size, len⟩ a.length (a ++ m).length c.length =
      .ok ⟨some (a ++ c ++ (a ++ m ++ c ++ rest).drop (a ++ c).length), size, len⟩ := by
  have hcut : a ++ m ++ c ++ rest = a ++ ((m ++ c ++ rest).take c.length) ++ (a ++ m ++ c ++ rest).drop (a ++ c).length := by
    rw [List.length_append, List.append_assoc, List.append_assoc, List.drop_append, List.drop_of_length_le (by omega),
      List.nil_append, Nat.add_sub_cancel_left, List.append_assoc, List.append_assoc, List.take_append_drop]
  have hmove := move_append (a ++ m) c rest a ((m ++ c ++ rest).take c.length)
    ((a ++ m ++ c ++ rest).drop (a ++ c).length) hcut (by rw [List.length_take]; simp only [List.length_append]; omega)
  rw [moveIn, cells, Option.getD_some, ok_then hmove]
  rfl

/-- **A range inside of the string** is taken out, with the octets behind it moved and nothing else changed. -/
theorem removeChunk_split (a m c : List UInt8) (rest : Block UInt8) (size : ℕ) (hlt : (a ++ m ++ c).length < 2 ^ 32) :
    chulaBufferRemoveChunk ⟨some ((a ++ m ++ c).map some ++ some 0 :: rest), size, (a ++ m ++ c).length⟩ a.length m.length =
      .ok ⟨some ((a ++ c).map some ++ some 0 ::
        ((a ++ m ++ c).map some ++ some 0 :: rest).drop ((a ++ c).length + 1)), size, (a ++ c).length⟩ := by
  have hlen : toUint32 ((a ++ m ++ c).length - m.length) = (a ++ c).length := by
    simp only [List.length_append] at hlt ⊢
    rw [toUint32]
    omega
  rw [chulaBufferRemoveChunk]
  split_ifs with h1 h2
  · -- nothing is behind `a`
    simp only [List.length_append] at h1
    obtain rfl : m = [] := List.length_eq_zero_iff.1 (by omega)
    obtain rfl : c = [] := List.length_eq_zero_iff.1 (by omega)
    simp [List.drop_append]
  · -- the whole string
    obtain ⟨h0, h2⟩ := h2
    simp only [List.length_append] at h0 h2
    obtain rfl : a = [] := List.length_eq_zero_iff.1 (by omega)
    obtain rfl : c = [] := List.length_eq_zero_iff.1 (by omega)
    have hstore := store_append (l := []) (m := ((m.map some ++ some 0 :: rest).take 1)) (x := [some (0 : UInt8)])
      ((m.map some ++ some 0 :: rest).drop 1) (by simp; omega)
    rw [List.nil_append, List.take_append_drop] at hstore
    have hput : put ⟨some (m.map some ++ some 0 :: rest), size, m.length⟩ 0 0 =
        .ok ⟨some ([] ++ [some 0] ++ (m.map some ++ some 0 :: rest).drop 1), size, m.length⟩ := by
      rw [put, cells, Option.getD_some]
      exact ok_then hstore _
    simp only [chulaBufferClean, List.nil_append, List.append_nil, Option.isSome_some, if_true, hput]
    rfl
  · have hstop : min (a.length + m.length) (a ++ m ++ c).length = (a ++ m).length := by
      simp only [List.length_append]
      omega
    have hcount : (a ++ m ++ c).length - (a ++ m).length + 1 = (c.map some ++ [some (0 : UInt8)]).length := by
      simp only [List.length_append, List.length_map, List.length_singleton]
      omega
    have hmove := moveIn_split (a.map some) (m.map some) (c.map some ++ [some 0]) rest size (a ++ m ++ c).length
    simp only [List.length_append, List.length_map, List.length_singleton] at hmove
    dsimp only
    rw [hstop, hcount]
    simp only [List.map_append, List.append_assoc, List.singleton_append, List.length_append, List.length_map,
      List.length_singleton, add_assoc] at hmove ⊢
    rw [ok_then hmove]
    simp only [List.length_append, List.append_assoc] at hlen
    simp only [hlen]
    rfl

theorem removeChunk_contains {a m c : List UInt8} (h : b.Contains (a ++ m ++ c)) :
    ∃ b', b.chulaBufferRemoveChunk a.length m.length = .ok b' ∧ b'.Contains (a ++ c) := by
  have hlt := h.len_lt
  generalize hs : a ++ m ++ c = s at h
  cases h with
  | null =>
    simp only [List.append_eq_nil_iff] at hs
    obtain ⟨⟨rfl, rfl⟩, rfl⟩ := hs
    exact ⟨⟨none, 0, 0⟩, rfl, .null⟩
  | block _ rest hsize =>
    subst hs
    refine ⟨_, removeChunk_split a m c rest _ hlt, ?_⟩
    have hrest : (((a ++ m ++ c).map some ++ some 0 :: rest).drop ((a ++ c).length + 1)).length =
        (a ++ m ++ c).length + 1 + rest.length - ((a ++ c).length + 1) := by
      rw [List.length_drop, List.length_append, List.length_map, List.length_cons]
      omega
    have hle : (a ++ c).length ≤ (a ++ m ++ c).length := by
      simp only [List.length_append]
      omega
    have hnew := Contains.block (a ++ c) (((a ++ m ++ c).map some ++ some 0 :: rest).drop ((a ++ c).length + 1)) (by omega)
    rwa [hrest, show (a ++ c).length + 1 + ((a ++ m ++ c).length + 1 + rest.length - ((a ++ c).length + 1)) =
      (a ++ m ++ c).length + 1 + rest.length by omega] at hnew

/-- From the beginning on, a range that is too long is as one of the whole string. -/
theorem removeChunk_zero (h : b.Contains s) (hlen : s.length ≤ len) :
    b.chulaBufferRemoveChunk 0 len = b.chulaBufferRemoveChunk 0 s.length := by
  have hb := h.len_eq
  rw [chulaBufferRemoveChunk, chulaBufferRemoveChunk, hb, if_pos (show 0 = 0 ∧ s.length ≤ len from ⟨rfl, hlen⟩),
    if_pos (show 0 = 0 ∧ s.length ≤ s.length from ⟨rfl, le_rfl⟩)]

/-- The length that is left when the range ends behind the string. -/
theorem removeChunk_len (h : b.Contains s) (h0 : 0 < fromPos) (hfrom : fromPos < s.length)
    (hr : b.chulaBufferRemoveChunk fromPos len = .ok b') : b'.len = toUint32 (s.length - len) := by
  have hb := h.len_eq
  rw [chulaBufferRemoveChunk, hb, if_neg (by omega), if_neg (by omega)] at hr
  obtain ⟨b₁, hmove, hr⟩ := ok_of_then hr
  cases hr
  rw [moveIn] at hmove
  obtain ⟨m, -, hm⟩ := ok_of_then hmove
  cases hm
  rw [hb]

/-- What a call is to do: the octets from `fromPos` on are removed, as many as there are up to `len`, and nothing changes
when there are none. -/
structure RemovesClipped (b : RawBuffer) (s : List UInt8) (fromPos len : ℕ) : Prop where
  contains : ∃ b', b.chulaBufferRemoveChunk fromPos len = .ok b' ∧
    b'.Contains (s.take fromPos ++ s.drop (min (fromPos + len) s.length))
  same : s.length ≤ fromPos → b.chulaBufferRemoveChunk fromPos len = .ok b

/-- **Removing a chunk** does what it is to do exactly when the range does not start inside of the string and end behind
it. -/
theorem removeChunk_iff (h : b.Contains s) (hlen : len < 2 ^ 32) :
    RemovesClipped b s fromPos len ↔ s.length ≤ fromPos ∨ fromPos = 0 ∨ fromPos + len ≤ s.length := by
  have hb := h.len_eq
  have hlt := h.len_lt
  constructor
  · rintro ⟨⟨b', hr, hc⟩, -⟩
    by_contra hcond
    push Not at hcond
    have hl := removeChunk_len h (by omega) (by omega) hr
    have hc := hc.len_eq
    rw [List.length_append, List.length_take, List.length_drop] at hc
    rw [toUint32] at hl
    omega
  · intro hcond
    refine ⟨?_, fun hle => by rw [chulaBufferRemoveChunk, hb, if_pos hle]⟩
    by_cases hle : s.length ≤ fromPos
    · refine ⟨b, by rw [chulaBufferRemoveChunk, hb, if_pos hle], ?_⟩
      rwa [List.take_of_length_le hle, List.drop_of_length_le (by omega), List.append_nil]
    obtain ⟨len', hlen', hr⟩ : ∃ len', fromPos + len' = min (fromPos + len) s.length ∧
        b.chulaBufferRemoveChunk fromPos len = b.chulaBufferRemoveChunk fromPos len' := by
      by_cases hin : fromPos + len ≤ s.length
      · exact ⟨len, by omega, rfl⟩
      · obtain rfl : fromPos = 0 := by omega
        exact ⟨s.length, by omega, removeChunk_zero h (by omega)⟩
    rw [hr, ← hlen']
    have hsplit : s = s.take fromPos ++ (s.drop fromPos).take len' ++ s.drop (fromPos + len') := by
      rw [List.append_assoc, ← List.drop_drop, List.take_append_drop, List.take_append_drop]
    rw [hsplit] at h
    have hc := removeChunk_contains h
    rwa [List.length_take, List.length_take, List.length_drop, min_eq_left (by omega), min_eq_left (by omega)] at hc

/-- A range that ends behind the string: the length wraps. -/
theorem removeChunk_behind : ∃ b, (b : RawBuffer).Contains [97, 98, 99] ∧ ¬RemovesClipped b [97, 98, 99] 1 5 := by
  have h := Contains.block [97, 98, 99] [] (by simp)
  refine ⟨_, h, fun hr => ?_⟩
  obtain ⟨b', hok, hc⟩ := hr.contains
  have hl := removeChunk_len h (by simp) (by simp) hok
  rw [hc.len_eq] at hl
  exact absurd hl (by decide)

theorem removeChunk_iff_middle : ∃ b, (b : RawBuffer).Contains [97, 98, 99] ∧ RemovesClipped b [97, 98, 99] 1 1 := by
  have h := Contains.block [97, 98, 99] [] (by simp)
  exact ⟨_, h, (removeChunk_iff h (by norm_num)).2 (.inr (.inr (by simp)))⟩

end RawBuffer

end LibHpack
