import LibHpack.Buffer.Ops

/-!
# LibHpack.Buffer.Contents — buffers of any size

The lengths of `RawBuffer.Stores` are below 2^31, where no `int` of the source goes wrong.  Here a buffer may be as large
as its fields can say: `Reads b s` is about its string only, `Filled b s` adds that the block has the size that the buffer
says.  What a call leaves need not be `Filled`, as the size that it sets may wrap.
-/

namespace LibHpack

open Memory Run

theorem toInt_bounds (x : ℤ) : -2 ^ 31 ≤ toInt x ∧ toInt x < 2 ^ 31 := by
  have hle := Int.le_bmod (x := x) (m := 2 ^ 32) (by norm_num)
  have hlt := Int.bmod_lt (x := x) (m := 2 ^ 32) (by norm_num)
  rw [toInt]
  omega

namespace RawBuffer

variable {b b' : RawBuffer} {s s' txt : List UInt8} {n : ℕ}

/-- The buffer contains the string `s`, which need not have a NUL behind it. -/
def Reads (b : RawBuffer) (s : List UInt8) : Prop := b.len = s.length ∧ b.cells.take b.len = s.map some

theorem Reads.unique (h : b.Reads s) (h' : b.Reads s') : s = s' :=
  List.map_injective_iff.2 (Option.some_injective _) (h.2.symm.trans h'.2)

theorem reads_nil (h : b.len = 0) : b.Reads [] := ⟨h, by rw [h]; rfl⟩

theorem reads_of_cells (rest : Block UInt8) (hlen : b.len = s.length) (h : b.cells = s.map some ++ rest) : b.Reads s :=
  ⟨hlen, by rw [h, hlen]; exact List.take_left' (List.length_map ..)⟩

theorem Reads.cells_eq (h : b.Reads s) : b.cells = s.map some ++ b.cells.drop s.length := by
  conv_lhs => rw [← List.take_append_drop b.len b.cells, h.2, h.1]

/-- A buffer with the string `s`, whatever else its block holds. -/
structure Filled (b : RawBuffer) (s : List UInt8) : Prop where
  reads : b.Reads s
  size_eq : b.cells.length = b.size
  size_lt : b.size < 2 ^ 32
  alloc : b.buf.isSome → 0 < b.size

theorem Filled.len_le (h : b.Filled s) : s.length ≤ b.size := by
  have hcells := congrArg List.length h.reads.cells_eq
  rw [List.length_append, List.length_map, h.size_eq] at hcells
  omega

theorem Terminated.buf_eq (h : b.Terminated) : b.buf = some b.cells := by
  rw [Terminated] at h
  obtain ⟨hlt, -⟩ := List.getElem?_eq_some_iff.1 h
  rw [cells] at hlt ⊢
  cases hbuf : b.buf with
  | none => simp [hbuf] at hlt
  | some m => rfl

/-- The NUL, and what is behind it. -/
theorem Filled.cells_eq (h : b.Filled s) (ht : b.Terminated) : ∃ rest, b.cells = s.map some ++ some 0 :: rest := by
  have hcells := h.reads.cells_eq
  rw [Terminated, h.reads.1, hcells, List.getElem?_append_right (by rw [List.length_map]), List.length_map,
    Nat.sub_self] at ht
  obtain ⟨rest, hrest⟩ := List.head?_eq_some_iff.1 ((List.head?_eq_getElem? ..).trans ht)
  exact ⟨rest, hcells.trans (by rw [hrest])⟩

theorem filled_null : chulaBufInit.Filled [] := ⟨⟨rfl, rfl⟩, rfl, by decide, by simp [chulaBufInit]⟩

/-- A buffer with a text and a NUL. -/
theorem filled_text {rest : Block UInt8} (hn : s.length + 1 + rest.length = n) (hlt : n < 2 ^ 32) :
    (⟨some (s.map some ++ some 0 :: rest), n, s.length⟩ : RawBuffer).Filled s ∧
      (⟨some (s.map some ++ some 0 :: rest), n, s.length⟩ : RawBuffer).Terminated := by
  refine ⟨⟨reads_of_cells (some 0 :: rest) rfl rfl, ?_, hlt, fun _ => ?_⟩, ?_⟩
  · rw [cells, Option.getD_some, List.length_append, List.length_map, List.length_cons]
    dsimp only
    omega
  · dsimp only
    omega
  · rw [Terminated, cells, Option.getD_some, List.getElem?_append_right (by rw [List.length_map]), List.length_map,
      Nat.sub_self]
    rfl

/-- **Cleaning.** -/
theorem Filled.clean (h : b.Filled s) : ∃ d, b.chulaBufferClean = .ok d ∧ d.Filled [] ∧ d.size = b.size := by
  by_cases hb : b.buf.isSome
  · obtain ⟨c, rest, hcells⟩ := List.exists_cons_of_ne_nil (List.ne_nil_of_length_pos (h.size_eq.symm ▸ h.alloc hb))
    have hstore : store b.cells 0 [some 0] = .ok (some 0 :: rest) := by
      rw [hcells]
      exact store_append (l := []) (m := [c]) (x := [some (0 : UInt8)]) rest rfl
    have hput : b.put 0 0 = .ok { b with buf := some (some 0 :: rest) } := by
      rw [put, ok_then hstore]
      rfl
    have hsize := h.size_eq
    rw [hcells] at hsize
    refine ⟨⟨some (some 0 :: rest), b.size, 0⟩, ?_, ⟨reads_nil rfl, hsize, h.size_lt, fun _ => h.alloc hb⟩, rfl⟩
    rw [chulaBufferClean, if_pos hb, ok_then hput]
    rfl
  · refine ⟨{ b with len := 0 }, ?_, ⟨reads_nil rfl, h.size_eq, h.size_lt, h.alloc⟩, rfl⟩
    rw [chulaBufferClean, if_neg hb, ok_then rfl]
    rfl

theorem Reads.realloc (h : b.Reads s) (newsize : ℕ) (hle : s.length ≤ newsize) (size : ℤ) :
    (b.realloc newsize size).Reads s ∧ (b.realloc newsize size).cells.length = newsize := by
  obtain ⟨rest, hrest, -⟩ := resize_append (l := s.map some) (r := b.cells.drop s.length) (n := newsize) (by simpa using hle)
  rw [← h.cells_eq] at hrest
  exact ⟨reads_of_cells rest h.1 hrest, resize_length _ _⟩

theorem Filled.ensureSize (h : b.Filled s) (hn : n < 2 ^ 32) :
    (b.chulaBufferEnsureSize n).Filled s ∧ n ≤ (b.chulaBufferEnsureSize n).size := by
  have hle := h.len_le
  rw [chulaBufferEnsureSize]
  split_ifs with hfit
  · exact ⟨h, hfit⟩
  · obtain ⟨hreads, hlen⟩ := h.reads.realloc n (by omega) n
    have hsize : (b.realloc n n).size = n := toUint32_cast hn
    exact ⟨⟨hreads, hlen.trans hsize.symm, by rwa [hsize], fun _ => by rw [hsize]; omega⟩, hsize.ge⟩

/-- **Making room** behind the string: what fits already stays as it is. -/
theorem Filled.ensureAddlen (h : b.Filled s) (hn : n < 2 ^ 63) : (b.chulaBufferEnsureAddlen n).Reads s ∧
    (b.chulaBufferEnsureAddlen n).cells.length = if s.length + n < b.size then b.size else s.length + n + 1 := by
  have hlen := h.reads.1
  have hle := h.len_le
  have hlt := h.size_lt
  have h0 : toSizeT (b.len + n) = s.length + n := by
    rw [hlen, toSizeT]
    omega
  have h1 : toSizeT (b.len + n + 1) = s.length + n + 1 := by
    rw [hlen, toSizeT]
    omega
  rw [chulaBufferEnsureAddlen, h0, h1]
  split_ifs with hfit
  · exact ⟨h.reads, h.size_eq⟩
  · rw [chulaBufferEnsureSize, if_neg (by omega)]
    exact h.reads.realloc _ (by omega) _

/-- Writing a text and its length behind a string. -/
theorem Reads.finish (h : b.Reads s) (hroom : s.length + txt.length < b.cells.length) (hlt : s.length + txt.length < 2 ^ 32) :
    ∃ b₁ b', b.copyIn b.len (txt.map some) = .ok b₁ ∧
      ({ b₁ with len := toUint32 (b₁.len + txt.length) } : RawBuffer).put (toUint32 (b₁.len + txt.length)) 0 = .ok b' ∧
      b'.Reads (s ++ txt) := by
  have hcells := h.cells_eq
  have hdrop : txt.length < (b.cells.drop s.length).length := by
    rw [List.length_drop]
    omega
  obtain ⟨t, rest, hrest⟩ := List.exists_cons_of_ne_nil (List.ne_nil_of_length_pos (by rw [List.length_drop]; omega) :
    (b.cells.drop s.length).drop txt.length ≠ [])
  have hsplit : b.cells = s.map some ++ (b.cells.drop s.length).take txt.length ++ ([t] ++ rest) := by
    rw [List.append_assoc, List.singleton_append, ← hrest, List.take_append_drop]
    exact hcells
  have hstore := store_append (l := s.map some) (m := (b.cells.drop s.length).take txt.length) (x := txt.map some)
    ([t] ++ rest) (by rw [List.length_map, List.length_take]; omega)
  rw [← hsplit, List.length_map] at hstore
  have hlen : toUint32 (b.len + txt.length) = (s ++ txt).length := by
    rw [h.1, List.length_append, toUint32]
    omega
  have hput := store_append (l := (s ++ txt).map some) (m := [t]) (x := [some (0 : UInt8)]) rest rfl
  rw [List.length_map, List.map_append, List.append_assoc _ [t]] at hput
  refine ⟨{ b with buf := some (s.map some ++ txt.map some ++ ([t] ++ rest)) },
    ⟨some (s.map some ++ txt.map some ++ [some 0] ++ rest), b.size, (s ++ txt).length⟩, ?_, ?_, ?_⟩
  · rw [copyIn, h.1, ok_then hstore]
    rfl
  · dsimp only
    rw [hlen, put, cells, Option.getD_some, ok_then hput]
    rfl
  · refine reads_of_cells ([some 0] ++ rest) rfl ?_
    rw [cells, Option.getD_some, List.map_append, List.append_assoc _ [some 0]]

/-- The free space, converted to `int` and back. -/
theorem Filled.free (h : b.Filled s) : toUint32 (toInt (toUint32 (b.size - b.len))) = b.size - s.length := by
  have hle := h.len_le
  have hlt := h.size_lt
  have hsub : toUint32 (b.size - b.len) = b.size - s.length := by
    rw [h.reads.1, toUint32]
    omega
  rw [hsub, toUint32, toInt, Int.bmod_def]
  split <;> omega

/-- Growing: where the free space is no `int`, by 2^32 octets more. -/
theorem Filled.grow (h : b.Filled s) (hn : n < 2 ^ 32) (hgrow : b.size - s.length < n + 1) :
    (b.reallocIncBufsize (toSizeT (n - toInt (toUint32 (b.size - b.len))))).Reads s ∧
      s.length + n < (b.reallocIncBufsize (toSizeT (n - toInt (toUint32 (b.size - b.len))))).cells.length := by
  have hle := h.len_le
  have hlt := h.size_lt
  have hfree := h.free
  obtain ⟨hlo, hhi⟩ := toInt_bounds (toUint32 (b.size - b.len))
  generalize toInt (toUint32 (b.size - b.len)) = free at hfree hlo hhi
  have hinc : s.length + n + 17 ≤ toSizeT (b.size + toSizeT (n - free) + 16 + 1) := by
    simp only [toUint32, toSizeT] at hfree ⊢
    omega
  rw [reallocIncBufsize]
  obtain ⟨hreads, hlen⟩ := h.reads.realloc (toSizeT (b.size + toSizeT (n - free) + 16 + 1)) (by omega)
    (toInt (toSizeT (b.size + toSizeT (n - free) + 16 + 1)))
  exact ⟨hreads, by omega⟩

/-- Only the octets that are asked for are read. -/
theorem add_take (b : RawBuffer) (txt : List UInt8) (size : ℕ) :
    b.chulaBufferAdd (.outside (txt.take size)) size = b.chulaBufferAdd (.outside txt) size := by
  simp only [chulaBufferAdd, textCells, List.take_take, min_self]

theorem add_nothing (b : RawBuffer) (txt : Text) : b.chulaBufferAdd txt 0 = .ok b := by
  rw [chulaBufferAdd, if_pos rfl]

theorem put_len {i : ℕ} {c : UInt8} (h : b.put i c = .ok b') : b'.len = b.len := by
  obtain ⟨m, -, hm⟩ := ok_of_then h
  cases hm
  rfl

theorem copyIn_len {i : ℕ} {t : List (Option UInt8)} (h : b.copyIn i t = .ok b') : b'.len = b.len := by
  obtain ⟨m, -, hm⟩ := ok_of_then h
  cases hm
  rfl

/-- The length that appending sets. -/
theorem add_len {t : Text} (hn : n ≠ 0) (h : b.chulaBufferAdd t n = .ok b') : b'.len = toUint32 (b.len + n) := by
  rw [chulaBufferAdd, if_neg hn] at h
  dsimp only at h
  have hgrown : ∀ grow : Bool, (if grow = true then
      b.reallocIncBufsize (toSizeT (n - toInt (toUint32 (b.size - b.len)))) else b).len = b.len := by
    intro grow
    cases grow <;> rfl
  obtain ⟨octets, -, h⟩ := ok_of_then h
  obtain ⟨b₁, hcopy, h⟩ := ok_of_then h
  rw [put_len h]
  dsimp only
  rw [copyIn_len hcopy, hgrown]

/-- **Appending**, to a buffer of any size: only the length may wrap. -/
theorem Filled.add (h : b.Filled s) (hlt : s.length + txt.length < 2 ^ 32) :
    ∃ b', b.chulaBufferAdd (.outside txt) txt.length = .ok b' ∧ b'.Reads (s ++ txt) := by
  by_cases htxt : txt.length = 0
  · refine ⟨b, by rw [chulaBufferAdd, if_pos htxt], ?_⟩
    rw [List.length_eq_zero_iff.1 htxt, List.append_nil]
    exact h.reads
  have hle := h.len_le
  have hsize : toSizeT (txt.length + 1) = txt.length + 1 := by
    rw [toSizeT]
    omega
  have hroom : (if decide (b.size - s.length < txt.length + 1) = true then
        b.reallocIncBufsize (toSizeT (txt.length - toInt (toUint32 (b.size - b.len)))) else b).Reads s ∧
      s.length + txt.length < (if decide (b.size - s.length < txt.length + 1) = true then
        b.reallocIncBufsize (toSizeT (txt.length - toInt (toUint32 (b.size - b.len)))) else b).cells.length := by
    split_ifs with hgrow
    · exact h.grow (by omega) (by simpa using hgrow)
    · rw [decide_eq_true_iff] at hgrow
      exact ⟨h.reads, by rw [h.size_eq]; omega⟩
  rw [chulaBufferAdd, if_neg htxt]
  dsimp only
  rw [h.free, hsize]
  generalize (if decide (b.size - s.length < txt.length + 1) = true then
    b.reallocIncBufsize (toSizeT (txt.length - toInt (toUint32 (b.size - b.len)))) else b) = b1 at hroom
  obtain ⟨b₂, b', hcopy, hput, hreads⟩ := hroom.1.finish hroom.2 hlt
  refine ⟨b', ?_, hreads⟩
  rw [textCells, List.take_length, ok_then rfl, ok_then hcopy]
  exact hput

end RawBuffer

end LibHpack
