import Mathlib.Tactic
import LibHpack.General.Run
import LibHpack.Buffer.Model

/-!
# LibHpack.Buffer.Ops — what each call does to the string of a buffer

`RawBuffer.Stores b s` says that the buffer stores the string: either nothing has been allocated, or the block begins
with the string, has the size that the buffer says, and has at least one more octet, which is NUL behind a string that is
not empty.  A call that grows the buffer keeps this (`Stores.realloc`), and then there is room (`Room`) for what it adds;
`Stored` is the result of a call.
-/

namespace LibHpack

open Memory Run

/-! ### The arithmetic, where nothing wraps -/

theorem toUint32_cast {n : ℕ} (h : n < 2 ^ 32) : toUint32 n = n := by
  rw [toUint32]
  omega

theorem toSizeT_cast {n : ℕ} (h : n < 2 ^ 64) : toSizeT n = n := by
  rw [toSizeT]
  omega

theorem toSizeT_of {x : ℤ} (hlo : 0 ≤ x) (hhi : x < 2 ^ 64) : toSizeT x = x.toNat := by
  rw [toSizeT, Int.emod_eq_of_lt hlo hhi]

theorem toInt_of {x : ℤ} (hlo : -2 ^ 31 ≤ x) (hhi : x < 2 ^ 31) : toInt x = x :=
  Int.bmod_eq_of_le_mul_two (by omega) (by omega)

namespace RawBuffer

variable {b b' : RawBuffer} {s s' txt : List UInt8} {n newsize : ℕ}

/-- The octet behind the string is NUL. -/
def Terminated (b : RawBuffer) : Prop := b.cells[b.len]? = some (some 0)

/-- The buffer stores the string `s`. -/
inductive Stores : RawBuffer → List UInt8 → Prop
  | null : Stores ⟨none, 0, 0⟩ []
  | block (s : List UInt8) (t : Option UInt8) (rest : Block UInt8) (ht : s ≠ [] → t = some 0)
      (hsize : s.length + 1 + rest.length < 2 ^ 31) :
      Stores ⟨some (s.map some ++ t :: rest), s.length + 1 + rest.length, s.length⟩ s

/-- The string is in the block, and there is room for `n` octets and a NUL behind it. -/
def Room (b : RawBuffer) (s : List UInt8) (n : ℕ) : Prop :=
  ∃ rest, b = ⟨some (s.map some ++ rest), s.length + rest.length, s.length⟩ ∧ n < rest.length ∧
    s.length + rest.length < 2 ^ 31

theorem Room.size_lt (h : Room b s n) : b.size < 2 ^ 31 := by
  obtain ⟨rest, rfl, -, hsize⟩ := h
  exact hsize

theorem Room.len_eq (h : Room b s n) : b.len = s.length := by
  obtain ⟨rest, rfl, -, -⟩ := h
  rfl

/-- The result of a call on `b` that turns the string `s` into `s'`. -/
def Stored (x : Except Escape RawBuffer) (b : RawBuffer) (s s' : List UInt8) : Prop :=
  ∃ b', x = .ok b' ∧ b'.Stores s' ∧ (s' ≠ s → b'.Terminated) ∧ (b.buf.isSome → b'.buf.isSome)

namespace Stores

theorem len_eq (h : b.Stores s) : b.len = s.length := by
  cases h <;> rfl

theorem size_lt (h : b.Stores s) : b.size < 2 ^ 31 := by
  cases h with
  | null => decide
  | block _ t rest ht hsize => exact hsize

theorem size_eq (h : b.Stores s) : b.cells.length = b.size := by
  cases h with
  | null => rfl
  | block _ t rest ht hsize =>
    change (s.map some ++ t :: rest).length = s.length + 1 + rest.length
    rw [List.length_append, List.length_map, List.length_cons]
    omega

theorem take_eq (h : b.Stores s) : b.cells.take b.len = s.map some := by
  cases h with
  | null => rfl
  | block _ t rest ht hsize =>
    change (s.map some ++ t :: rest).take s.length = _
    rw [← List.length_map (f := some), List.take_left]

theorem len_lt_size (h : b.Stores s) (hb : b.buf.isSome) : b.len < b.size := by
  cases h with
  | null => cases hb
  | block _ t rest ht hsize =>
    change s.length < s.length + 1 + rest.length
    omega

theorem len_le_size (h : b.Stores s) : b.len ≤ b.size := by
  cases h with
  | null => exact le_rfl
  | block _ t rest ht hsize =>
    change s.length ≤ s.length + 1 + rest.length
    omega

theorem isSome (h : b.Stores s) (hs : s ≠ []) : b.buf.isSome := by
  cases h with
  | null => exact absurd rfl hs
  | block _ t rest ht hsize => rfl

/-- There is no room behind a null pointer. -/
theorem isSome_of_lt (h : b.Stores s) (hsize : 0 < b.size) : b.buf.isSome := by
  cases h with
  | null => exact absurd hsize (Nat.lt_irrefl 0)
  | block _ t rest ht hsize => rfl

theorem terminated (h : b.Stores s) (hs : s ≠ []) : b.Terminated := by
  cases h with
  | null => exact absurd rfl hs
  | block _ t rest ht hsize =>
    change (s.map some ++ t :: rest)[s.length]? = _
    rw [List.getElem?_append_right (by simp), ht hs]
    simp

/-- A call that leaves the buffer alone. -/
theorem same (h : b.Stores s) : Stored (.ok b) b s s := ⟨b, rfl, h, fun hne => absurd rfl hne, id⟩

/-- **Growing** keeps the string and the NUL behind it. -/
theorem realloc (h : b.Stores s) (hfit : s.length < newsize) (hsize : newsize < 2 ^ 31) :
    (b.realloc newsize newsize).Stores s := by
  have hnew : toUint32 newsize = newsize := toUint32_cast (by omega)
  cases h with
  | null =>
    obtain ⟨n, rfl⟩ : ∃ n, newsize = n + 1 := ⟨newsize - 1, by omega⟩
    have := block [] none (List.replicate n none) (absurd rfl) (by simpa [Nat.add_comm] using hsize)
    rw [RawBuffer.realloc, hnew]
    simpa [cells, resize, List.replicate_succ, Nat.add_comm] using this
  | block _ t rest ht hold =>
    have hlen : (s.map some ++ [t]).length = s.length + 1 := by simp
    obtain ⟨r', heq, hr'⟩ := resize_append (l := s.map some ++ [t]) (r := rest) (n := newsize) (by omega)
    have hcells : resize (s.map some ++ t :: rest) newsize = s.map some ++ t :: r' := by simpa using heq
    have hnewsize : newsize = s.length + 1 + r'.length := by omega
    rw [RawBuffer.realloc, hnew, cells, Option.getD_some, hcells]
    dsimp only
    rw [hnewsize]
    exact block s t r' ht (by omega)

theorem room (h : b.Stores s) (hfit : s.length + n < b.size) : Room b s n := by
  cases h with
  | null => exact absurd hfit (Nat.not_lt_zero _)
  | block _ t rest ht hsize =>
    refine ⟨t :: rest, ?_, ?_, ?_⟩
    · rw [List.length_cons, Nat.add_assoc, Nat.add_comm 1]
    · rw [List.length_cons]
      dsimp only at hfit
      omega
    · rw [List.length_cons]
      omega

end Stores

/-! ### Writing into the block -/

/-- What a NUL behind the string makes of the buffer. -/
theorem put_nul (s : List UInt8) (t : Option UInt8) (rest : Block UInt8) (hsize : s.length + 1 + rest.length < 2 ^ 31) :
    ∃ b', put ⟨some (s.map some ++ t :: rest), s.length + 1 + rest.length, s.length⟩ s.length 0 = .ok b' ∧
      b'.Stores s ∧ b'.Terminated ∧ b'.buf.isSome := by
  have hstore : store (s.map some ++ [t] ++ rest) s.length [some 0] = .ok (s.map some ++ [some 0] ++ rest) := by
    have := store_append (l := s.map some) (m := [t]) (x := [some (0 : UInt8)]) rest rfl
    rwa [List.length_map] at this
  refine ⟨⟨some (s.map some ++ some 0 :: rest), s.length + 1 + rest.length, s.length⟩, ?_,
    .block s (some 0) rest (fun _ => rfl) hsize, ?_, rfl⟩
  · rw [List.append_assoc, List.singleton_append, List.append_assoc, List.singleton_append] at hstore
    rw [put, cells, Option.getD_some, hstore]
    rfl
  · change (s.map some ++ some 0 :: rest)[s.length]? = _
    rw [List.getElem?_append_right (by simp)]
    simp

/-- **The end of a call that adds octets**: with the new string `s` in the block and room behind it, the length and the
NUL are set. -/
theorem finish (s : List UInt8) (rest : Block UInt8) (len : ℕ) (hrest : rest ≠ [])
    (hsize : s.length + rest.length < 2 ^ 31) :
    ∃ b', put { (⟨some (s.map some ++ rest), s.length + rest.length, len⟩ : RawBuffer) with len := s.length } s.length 0 =
      .ok b' ∧ b'.Stores s ∧ b'.Terminated ∧ b'.buf.isSome := by
  cases rest with
  | nil => exact absurd rfl hrest
  | cons t rest =>
    rw [List.length_cons] at hsize
    have := put_nul s t rest (by omega)
    rwa [show s.length + 1 + rest.length = s.length + (t :: rest).length by rw [List.length_cons]; omega] at this

/-- Copying a text behind the cells `l`. -/
theorem copyIn_append {l m x : List (Option UInt8)} (r : Block UInt8) (size len : ℕ) (h : x.length = m.length) :
    copyIn ⟨some (l ++ m ++ r), size, len⟩ l.length x = .ok ⟨some (l ++ x ++ r), size, len⟩ := by
  rw [copyIn, cells, Option.getD_some, ok_then (store_append r h)]
  rfl

/-- **Appending a text** where there is room for it. -/
theorem copyIn_end (txt : List UInt8) (hroom : Room b s txt.length) :
    ∃ rest, copyIn b b.len (txt.map some) =
        .ok ⟨some ((s ++ txt).map some ++ rest), (s ++ txt).length + rest.length, s.length⟩ ∧ rest ≠ [] ∧
      (s ++ txt).length + rest.length = b.size := by
  obtain ⟨rest, rfl, hfit, hsize⟩ := hroom
  have hcopy := copyIn_append (l := s.map some) (m := rest.take txt.length) (x := txt.map some)
    (rest.drop txt.length) (s.length + rest.length) s.length (by simp; omega)
  rw [List.append_assoc, List.take_append_drop, List.length_map, ← List.map_append] at hcopy
  have hlen : (s ++ txt).length + (rest.drop txt.length).length = s.length + rest.length := by
    rw [List.length_append, List.length_drop]
    omega
  refine ⟨rest.drop txt.length, ?_, ?_, hlen⟩
  · rw [hlen]
    exact hcopy
  · intro hnil
    have := congrArg List.length hnil
    rw [List.length_drop, List.length_nil] at this
    omega

/-- **Inserting a text** between `a` and `c`, where there is room for it: what is behind makes way first. -/
theorem moveIn_copyIn {a c : List UInt8} (hroom : Room b (a ++ c) txt.length) :
    ∃ b1 rest, moveIn b (a.length + txt.length) a.length c.length = .ok b1 ∧
      copyIn b1 a.length (txt.map some) = .ok ⟨some ((a ++ txt ++ c).map some ++ rest),
        (a ++ txt ++ c).length + rest.length, (a ++ c).length⟩ ∧ rest ≠ [] ∧
      (a ++ txt ++ c).length + rest.length = b.size := by
  obtain ⟨rest, rfl, hfit, hsize⟩ := hroom
  -- the cells from `a` on: those the text goes to, those the rest of the string goes to, and the others
  obtain ⟨g, s, r', hcut, hg, hs⟩ : ∃ g s r', c.map some ++ rest = g ++ (s ++ r') ∧ g.length = txt.length ∧
      s.length = c.length := by
    refine ⟨(c.map some ++ rest).take txt.length, ((c.map some ++ rest).drop txt.length).take c.length,
      ((c.map some ++ rest).drop txt.length).drop c.length, ?_, ?_, ?_⟩
    · rw [List.take_append_drop, List.take_append_drop]
    · rw [List.length_take, List.length_append, List.length_map]
      omega
    · rw [List.length_take, List.length_drop, List.length_append, List.length_map]
      omega
  have hr' : r'.length + txt.length = rest.length := by
    have := congrArg List.length hcut
    simp only [List.length_append, List.length_map] at this
    omega
  have hmove := move_append (a.map some) (c.map some) rest (a.map some ++ g) s r'
    (by simp only [List.append_assoc, hcut]) (by rw [List.length_map, hs])
  have hcopy := copyIn_append (l := a.map some) (m := g) (x := txt.map some) (c.map some ++ r')
    ((a ++ c).length + rest.length) (a ++ c).length (by rw [List.length_map, hg])
  have hlen : (a ++ txt ++ c).length + r'.length = (a ++ c).length + rest.length := by
    simp only [List.length_append]
    omega
  rw [List.length_append, List.length_map, List.length_map, hg] at hmove
  refine ⟨⟨some (a.map some ++ g ++ c.map some ++ r'), (a ++ c).length + rest.length, (a ++ c).length⟩, r', ?_, ?_, ?_,
    hlen⟩
  · rw [moveIn, cells, Option.getD_some, List.map_append, ok_then hmove]
    rfl
  · rw [hlen, List.append_assoc _ (c.map some), List.map_append, List.map_append, List.append_assoc _ (c.map some)]
    rw [List.length_map] at hcopy
    exact hcopy
  · rintro rfl
    rw [List.length_nil] at hr'
    omega

/-! ### Making room -/

/-- The free space, as the source computes it. -/
theorem free_eq (h : b.Stores s) : toInt (toUint32 (b.size - b.len)) = (b.size : ℤ) - b.len := by
  have hle := h.len_le_size
  have hlt := h.size_lt
  have hsub : toUint32 (b.size - b.len) = b.size - b.len := by
    rw [toUint32]
    omega
  rw [hsub, toInt_of] <;> omega

theorem reallocIncBufsize_eq {inc : ℕ} (h : b.size + inc + 17 < 2 ^ 31) :
    b.reallocIncBufsize inc = b.realloc (b.size + inc + 17) (b.size + inc + 17 : ℕ) := by
  have hnew : toSizeT (b.size + inc + 16 + 1) = b.size + inc + 17 := by
    rw [toSizeT]
    omega
  rw [reallocIncBufsize, hnew, toInt_of] <;> omega

/-- **Growing on demand**: what has to hold of the test and of the increment. -/
theorem room_of_grow (h : b.Stores s) {grow : Prop} [Decidable grow] {inc : ℕ}
    (hno : ¬ grow → s.length + n < b.size) (hyes : grow → s.length + n ≤ b.size + inc ∧ b.size + inc + 17 < 2 ^ 31) :
    Room (if grow then b.reallocIncBufsize inc else b) s n := by
  split_ifs with hgrow
  · obtain ⟨hfit, hlt⟩ := hyes hgrow
    rw [reallocIncBufsize_eq hlt]
    apply (h.realloc (by omega) hlt).room
    rw [realloc, toUint32_cast (by omega)]
    dsimp only
    omega
  · exact h.room (hno hgrow)

/-- How the calls that add octets end. -/
theorem stored_of_finish {x : ℤ} {rest : Block UInt8} {n size : ℕ} (hx : x = s'.length) (hrest : rest ≠ [])
    (hsize : s'.length + rest.length = size) (hlt : size < 2 ^ 31) (b0 : RawBuffer) (s : List UInt8) :
    Stored (put { (⟨some (s'.map some ++ rest), s'.length + rest.length, n⟩ : RawBuffer) with len := toUint32 x }
      (toUint32 x) 0) b0 s s' := by
  subst hx hsize
  obtain ⟨b', hput, hstores, hterm, hsome⟩ := finish s' rest n hrest hlt
  rw [toUint32_cast (by omega)]
  exact ⟨b', hput, hstores, fun _ => hterm, fun _ => hsome⟩

/-! ### The calls -/

/-- **Appending.** -/
theorem chulaBufferAdd_stored (h : b.Stores s) (hlt : s.length + txt.length < 2 ^ 30) :
    Stored (b.chulaBufferAdd (.outside txt) txt.length) b s (s ++ txt) := by
  by_cases htxt : txt.length = 0
  · rw [chulaBufferAdd, if_pos htxt, List.length_eq_zero_iff.mp htxt, List.append_nil]
    exact h.same
  have hlen := h.len_eq
  have hle := h.len_le_size
  have hbound := h.size_lt
  have hsize : toSizeT (txt.length + 1) = txt.length + 1 := by
    rw [toSizeT]
    omega
  have hfree : toUint32 (b.size - b.len) = b.size - b.len := by
    rw [toUint32]
    omega
  rw [chulaBufferAdd, if_neg htxt]
  dsimp only
  rw [free_eq h, hsize, hfree]
  have hroom : Room (if decide (b.size - b.len < txt.length + 1) = true then
      b.reallocIncBufsize (toSizeT (txt.length - (b.size - b.len))) else b) s txt.length := by
    apply room_of_grow h
    · intro hno
      rw [decide_eq_true_iff] at hno
      omega
    · intro hyes
      rw [decide_eq_true_iff] at hyes
      rw [toSizeT]
      omega
  generalize (if decide (b.size - b.len < txt.length + 1) = true then
      b.reallocIncBufsize (toSizeT (txt.length - (b.size - b.len))) else b) = b1 at hroom ⊢
  obtain ⟨rest, hcopy, hrest, hsize1⟩ := copyIn_end _ hroom
  rw [ok_then (a := txt.map some) (by rw [textCells, List.take_length]), ok_then hcopy]
  exact stored_of_finish (by rw [List.length_append]; exact (Nat.cast_add _ _).symm) hrest hsize1 hroom.size_lt b s

theorem chulaBufferAddChar_stored (h : b.Stores s) (c : UInt8) (hlt : s.length + 1 < 2 ^ 30) :
    Stored (b.chulaBufferAddChar c) b s (s ++ [c]) := by
  have hlen := h.len_eq
  have hle := h.len_le_size
  have hbound := h.size_lt
  have hnext : toUint32 (b.len + 1) = b.len + 1 := by
    rw [toUint32]
    omega
  have heq : b.chulaBufferAddChar c = (if ¬ b.len + 1 < b.size then b.reallocIncBufsize 1 else b).putChar c := by
    rw [chulaBufferAddChar, hnext]
    split_ifs <;> rfl
  have hroom : Room (if ¬ b.len + 1 < b.size then b.reallocIncBufsize 1 else b) s 1 := by
    apply room_of_grow h <;> intro hgrow <;> omega
  rw [heq]
  generalize (if ¬ b.len + 1 < b.size then b.reallocIncBufsize 1 else b) = b1 at hroom ⊢
  obtain ⟨rest, hcopy, hrest, hsize⟩ := copyIn_end [c] hroom
  have hput : b1.put b1.len c = _ := hcopy
  rw [putChar, ok_then hput]
  exact stored_of_finish (by rw [List.length_append]; exact (Nat.cast_add _ _).symm) hrest hsize hroom.size_lt b s

theorem chulaBufferAddCharN_stored (h : b.Stores s) (c : UInt8) (num : ℤ) (hlt : s.length + num.toNat < 2 ^ 30) :
    Stored (b.chulaBufferAddCharN c num) b s (s ++ List.replicate num.toNat c) := by
  rw [chulaBufferAddCharN]
  dsimp only
  by_cases hnum : num ≤ 0
  · rw [if_pos hnum, Int.toNat_of_nonpos hnum, List.replicate_zero, List.append_nil]
    exact h.same
  have hlen := h.len_eq
  have hle := h.len_le_size
  have hbound := h.size_lt
  have hnext : toInt (num + 1) = num + 1 := toInt_of (by omega) (by omega)
  rw [if_neg hnum, free_eq h, hnext, toSizeT_of (x := num) (by omega) (by omega)]
  have hroom : Room (if (b.size : ℤ) - b.len < num + 1 then
      b.reallocIncBufsize (toSizeT (toInt (num - (b.size - b.len)))) else b) s num.toNat := by
    apply room_of_grow h
    · intro hno
      omega
    · intro hyes
      rw [toInt_of (by omega) (by omega), toSizeT]
      omega
  generalize (if (b.size : ℤ) - b.len < num + 1 then
      b.reallocIncBufsize (toSizeT (toInt (num - (b.size - b.len)))) else b) = b1 at hroom ⊢
  obtain ⟨rest, hcopy, hrest, hsize⟩ := copyIn_end (List.replicate num.toNat c)
    (by rwa [List.length_replicate])
  rw [← List.map_replicate, ok_then hcopy]
  refine stored_of_finish ?_ hrest hsize hroom.size_lt b s
  rw [List.length_append, List.length_replicate]
  dsimp only
  omega

/-- **Asking for memory** keeps the string. -/
theorem Stores.ensureSize (h : b.Stores s) (hlt : n < 2 ^ 31) :
    (b.chulaBufferEnsureSize n).Stores s ∧ n ≤ (b.chulaBufferEnsureSize n).size ∧
      (b.buf.isSome → (b.chulaBufferEnsureSize n).buf.isSome) := by
  have hlen := h.len_eq
  have hle := h.len_le_size
  rw [chulaBufferEnsureSize]
  split_ifs with hfit
  · exact ⟨h, hfit, id⟩
  · refine ⟨h.realloc (by omega) hlt, ?_, fun _ => rfl⟩
    rw [RawBuffer.realloc, toUint32_cast (by omega)]

theorem chulaBufferEnsureSize_stored (h : b.Stores s) {size : ℕ} (hlt : size < 2 ^ 31) :
    Stored (.ok (b.chulaBufferEnsureSize size)) b s s :=
  ⟨_, rfl, (h.ensureSize hlt).1, fun hne => absurd rfl hne, (h.ensureSize hlt).2.2⟩

theorem chulaBufferEnsureAddlen_stored (h : b.Stores s) {addlen : ℕ} (hlt : s.length + addlen < 2 ^ 30) :
    Stored (.ok (b.chulaBufferEnsureAddlen addlen)) b s s := by
  have hlen := h.len_eq
  rw [chulaBufferEnsureAddlen]
  split_ifs with hfit
  · exact h.same
  · apply chulaBufferEnsureSize_stored h
    rw [toSizeT]
    omega

theorem chulaBufferEnsureAddlen_room (h : b.Stores s) {addlen : ℕ} (hlt : s.length + addlen < 2 ^ 30) :
    s.length + addlen < (b.chulaBufferEnsureAddlen addlen).size := by
  have hlen := h.len_eq
  have hask : toSizeT (b.len + addlen + 1) = s.length + addlen + 1 := by
    rw [toSizeT]
    omega
  have hhere : toSizeT (b.len + addlen) = s.length + addlen := by
    rw [toSizeT]
    omega
  rw [chulaBufferEnsureAddlen, hask, hhere]
  split_ifs with hfit
  · exact hfit
  · exact (h.ensureSize (by omega)).2.1

theorem chulaBufferRetract_stored (h : b.Stores s) : Stored (.ok b.chulaBufferRetract) b s s := by
  have hlen := h.len_eq
  have hle := h.len_le_size
  have hlt := h.size_lt
  have hnext : toUint32 (b.len + 1) = b.len + 1 := by
    rw [toUint32]
    omega
  rw [chulaBufferRetract, hnext]
  split_ifs with hempty hsize
  · exact h.same
  · exact h.same
  · exact ⟨_, rfl, h.realloc (by omega) (by omega), fun hne => absurd rfl hne, fun _ => rfl⟩

/-- **Inserting**, with the position clipped to the length. -/
theorem chulaBufferInsert_stored (h : b.Stores s) (pos : ℕ) (hlt : s.length + txt.length < 2 ^ 30) :
    Stored (b.chulaBufferInsert txt pos) b s (s.take pos ++ txt ++ s.drop pos) := by
  rw [chulaBufferInsert]
  by_cases htxt : txt.length = 0
  · rw [if_pos htxt, List.length_eq_zero_iff.mp htxt, List.append_nil, List.take_append_drop]
    exact h.same
  have hlen := h.len_eq
  have hask : toSizeT (b.len + txt.length + 1) = s.length + txt.length + 1 := by
    rw [toSizeT]
    omega
  obtain ⟨h1, hsize1, -⟩ := h.ensureSize (n := s.length + txt.length + 1) (by omega)
  rw [if_neg htxt, hask]
  dsimp only
  generalize b.chulaBufferEnsureSize (s.length + txt.length + 1) = b1 at h1 hsize1 ⊢
  have hroom : Room b1 (s.take pos ++ s.drop pos) txt.length := by
    rw [List.take_append_drop]
    exact h1.room (by omega)
  have hlen1 := h1.len_eq
  have hpos : (s.take pos).length = min pos b1.len := by rw [List.length_take, hlen1]
  have hrest : (s.drop pos).length = b1.len - min pos b1.len := by
    rw [List.length_drop, hlen1]
    omega
  obtain ⟨b2, rest, hmove, hcopy, hne, hsize⟩ := moveIn_copyIn hroom
  rw [hpos, hrest] at hmove
  rw [hpos] at hcopy
  have hdst : toSizeT ((min pos b1.len : ℕ) + txt.length) = min pos b1.len + txt.length := by
    rw [toSizeT]
    omega
  have hcount : toSizeT (b1.len - (min pos b1.len : ℕ)) = b1.len - min pos b1.len := by
    rw [toSizeT]
    omega
  rw [hdst, hcount, ok_then hmove, ok_then hcopy]
  refine stored_of_finish ?_ hne hsize h1.size_lt b s
  simp only [List.length_append, hpos, hrest]
  omega

/-- **Putting a text in front.** -/
theorem chulaBufferPrepend_stored (h : b.Stores s) (hlt : s.length + txt.length < 2 ^ 30) :
    Stored (b.chulaBufferPrepend txt) b s (txt ++ s) := by
  rw [chulaBufferPrepend]
  dsimp only
  by_cases htxt : txt.length = 0
  · rw [if_pos htxt, List.length_eq_zero_iff.mp htxt, List.nil_append]
    exact h.same
  have hlen := h.len_eq
  have hle := h.len_le_size
  have hbound := h.size_lt
  rw [if_neg htxt, free_eq h, toSizeT_of (x := txt.length + 1) (by omega) (by omega)]
  have hfree : toUint32 (b.size - b.len) = b.size - b.len := by
    rw [toUint32]
    omega
  rw [hfree]
  have hroom : Room (if b.size - b.len < ((txt.length : ℤ) + 1).toNat then
      b.reallocIncBufsize (toSizeT (txt.length - (b.size - b.len))) else b) s txt.length := by
    apply room_of_grow h
    · intro hno
      omega
    · intro hyes
      rw [toSizeT]
      omega
  generalize (if b.size - b.len < ((txt.length : ℤ) + 1).toNat then
      b.reallocIncBufsize (toSizeT (txt.length - (b.size - b.len))) else b) = b1 at hroom ⊢
  obtain ⟨b2, rest, hmove, hcopy, hne, hsize⟩ := moveIn_copyIn (a := []) hroom
  rw [List.length_nil, Nat.zero_add, ← hroom.len_eq] at hmove
  rw [List.length_nil] at hcopy
  rw [ok_then hmove, ok_then hcopy]
  refine stored_of_finish ?_ hne hsize hroom.size_lt b s
  rw [List.nil_append, List.length_append]
  change ((s.length : ℤ) + txt.length) = _
  omega

/-- A NUL in the string, with the length set to where it is, cuts the string there. -/
theorem put_cut (h : b.Stores s) (hb : b.buf.isSome) {k : ℕ} (hk : k ≤ s.length) :
    ∃ b1, b.put k 0 = .ok b1 ∧ Stores { b1 with len := k } (s.take k) ∧ Terminated { b1 with len := k } ∧
      b1.buf.isSome := by
  cases h with
  | null => cases hb
  | block _ t rest ht hsize =>
    obtain ⟨x, r, hcut⟩ : ∃ x r, (s.drop k).map some ++ t :: rest = x :: r := by
      cases s.drop k with
      | nil => exact ⟨t, rest, rfl⟩
      | cons c cs => exact ⟨some c, cs.map some ++ t :: rest, rfl⟩
    have hlen : (s.take k).length = k := by rw [List.length_take, min_eq_left hk]
    have hcells : s.map some ++ t :: rest = (s.take k).map some ++ [x] ++ r := by
      rw [List.append_assoc, List.singleton_append, ← hcut, ← List.append_assoc, ← List.map_append,
        List.take_append_drop]
    have hr : k + 1 + r.length = s.length + 1 + rest.length := by
      have := congrArg List.length hcells
      simp only [List.length_append, List.length_map, List.length_cons, List.length_nil, hlen] at this
      omega
    have hstore := store_append (l := (s.take k).map some) (m := [x]) (x := [some (0 : UInt8)]) r rfl
    rw [← hcells, List.length_map, hlen] at hstore
    refine ⟨⟨some ((s.take k).map some ++ [some 0] ++ r), s.length + 1 + rest.length, s.length⟩, ?_, ?_, ?_, rfl⟩
    · rw [put, cells, Option.getD_some, ok_then hstore]
      rfl
    · have := Stores.block (s.take k) (some 0) r (fun _ => rfl) (by omega)
      rwa [hlen, hr, ← List.singleton_append, ← List.append_assoc] at this
    · change ((s.take k).map some ++ [some 0] ++ r)[k]? = _
      rw [List.append_assoc, List.getElem?_append_right (by simp), List.length_map, hlen, Nat.sub_self]
      rfl

theorem chulaBufferClean_stored (h : b.Stores s) : Stored b.chulaBufferClean b s [] := by
  rw [chulaBufferClean]
  by_cases hb : b.buf.isSome
  · obtain ⟨b1, hput, hstores, hterm, hsome⟩ := put_cut h hb (Nat.zero_le _)
    rw [if_pos hb, ok_then hput]
    exact ⟨_, rfl, hstores, fun _ => hterm, fun _ => hsome⟩
  · rw [if_neg hb]
    cases h with
    | null => exact ⟨_, rfl, .null, fun hne => absurd rfl hne, fun hb => hb⟩
    | block _ t rest ht hsize => exact absurd rfl hb

/-- **Dropping the end**, as far as there is one. -/
theorem chulaBufferDropEnding_stored (h : b.Stores s) (n : ℕ) :
    Stored (b.chulaBufferDropEnding n) b s (s.take (s.length - n)) := by
  rw [chulaBufferDropEnding]
  by_cases hb : b.buf.isSome
  · have hlen := h.len_eq
    have hle := h.len_le_size
    have hlt := h.size_lt
    obtain ⟨b1, hput, hstores, hterm, hsome⟩ := put_cut h hb (Nat.sub_le s.length n)
    have hnum : toInt (min n b.len : ℕ) = (min n b.len : ℕ) := toInt_of (by omega) (by omega)
    have hkeep : toUint32 (b.len - (min n b.len : ℕ)) = s.length - n := by
      rw [toUint32]
      omega
    have hlen1 : b1.len = b.len := by
      obtain ⟨m, -, heq⟩ := ok_of_then hput
      cases heq
      rfl
    have hsome' : ¬ b.buf.isNone := by
      rw [Option.isNone_iff_eq_none]
      intro hnone
      rw [hnone] at hb
      cases hb
    rw [if_neg hsome', ← Nat.cast_min, hnum]
    dsimp only
    rw [hkeep, ok_then hput, hlen1, hkeep]
    exact ⟨_, rfl, hstores, fun _ => hterm, fun _ => hsome⟩
  · rw [Option.not_isSome_iff_eq_none] at hb
    cases h with
    | null =>
      rw [List.take_nil]
      exact Stores.null.same
    | block _ t rest ht hsize => cases hb

/-- **Moving to the beginning**: the NUL behind the string moves along. -/
theorem chulaBufferMoveToBegin_stored (h : b.Stores s) (pos : ℕ) :
    Stored (b.chulaBufferMoveToBegin pos) b s (s.drop pos) := by
  rw [chulaBufferMoveToBegin]
  by_cases h0 : pos = 0
  · rw [if_pos h0, h0, List.drop_zero]
    exact h.same
  rw [if_neg h0]
  by_cases hall : b.len ≤ pos
  · rw [if_pos hall, List.drop_eq_nil_of_le (h.len_eq ▸ hall)]
    exact chulaBufferClean_stored h
  rw [if_neg hall]
  cases h with
  | null => exact absurd (Nat.zero_le pos) hall
  | block _ t rest ht hsize =>
    dsimp only at hall ⊢
    have hne : s ≠ [] := by
      rintro rfl
      exact hall (Nat.zero_le pos)
    have hdrop : s.drop pos ≠ [] := by
      rw [Ne, List.drop_eq_nil_iff]
      exact hall
    obtain rfl := ht hne
    have htake : ((s.take pos).map some).length = pos := by
      rw [List.length_map, List.length_take]
      omega
    have hkept : ((s.drop pos).map some ++ [some (0 : UInt8)]).length = s.length - pos + 1 := by simp
    -- the cells that the string goes to, and those behind
    obtain ⟨g, r', hcut, hg⟩ : ∃ g r', s.map some ++ some 0 :: rest = g ++ r' ∧ g.length = s.length - pos + 1 := by
      refine ⟨(s.map some ++ some 0 :: rest).take (s.length - pos + 1), _, (List.take_append_drop _ _).symm, ?_⟩
      simp only [List.length_take, List.length_append, List.length_map, List.length_cons]
      omega
    have hr' : s.length - pos + 1 + r'.length = s.length + 1 + rest.length := by
      have := congrArg List.length hcut
      simp only [List.length_append, List.length_map, List.length_cons, hg] at this
      omega
    have hcells : s.map some ++ some 0 :: rest =
        (s.take pos).map some ++ ((s.drop pos).map some ++ [some 0]) ++ rest := by
      rw [← List.append_assoc, ← List.map_append, List.take_append_drop, List.append_assoc, List.singleton_append]
    have hmove := move_append ((s.take pos).map some) ((s.drop pos).map some ++ [some 0]) rest [] g r'
      (by rw [← hcells, hcut, List.nil_append]) (by rw [hkept, hg])
    rw [← hcells, List.length_nil, htake, hkept, List.nil_append] at hmove
    have hcount : toUint32 ((toUint32 (s.length - pos) : ℕ) + 1) = s.length - pos + 1 := by
      rw [toUint32, toUint32]
      omega
    have hlen : toUint32 (s.length - pos) = s.length - pos := by
      rw [toUint32]
      omega
    rw [hcount, moveIn, cells, Option.getD_some, ok_then hmove]
    refine ⟨⟨some ((s.drop pos).map some ++ [some 0] ++ r'), s.length + 1 + rest.length, s.length - pos⟩, ?_, ?_,
      fun _ => ?_, fun _ => rfl⟩
    · change Except.ok (RawBuffer.mk _ _ (toUint32 (s.length - pos))) = _
      rw [hlen]
    · have := Stores.block (s.drop pos) (some 0) r' (fun _ => rfl) (by rw [List.length_drop]; omega)
      rwa [List.length_drop, hr', ← List.singleton_append, ← List.append_assoc] at this
    · change ((s.drop pos).map some ++ [some 0] ++ r')[s.length - pos]? = _
      rw [List.append_assoc, List.getElem?_append_right (by simp)]
      simp

/-! ### Multiplying -/

theorem put_size {i : ℕ} {c : UInt8} (h : b.put i c = .ok b') : b'.size = b.size := by
  obtain ⟨m, -, heq⟩ := ok_of_then h
  cases heq
  rfl

/-- Appending the string that the buffer begins with: when there is room, the buffer is not allocated anew, so the text is
still there. -/
theorem chulaBufferAdd_own {u : List UInt8} (h : b.Stores (s ++ u)) (hs : s ≠ [])
    (hfit : s.length + u.length + s.length < b.size) :
    ∃ b', b.chulaBufferAdd .own s.length = .ok b' ∧ b'.Stores (s ++ u ++ s) ∧ b'.size = b.size := by
  have hlen := h.len_eq
  have hlt := h.size_lt
  have hroom := h.room (n := s.length) (by rw [List.length_append]; omega)
  rw [List.length_append] at hlen
  have hask : toSizeT (s.length + 1) = s.length + 1 := by
    rw [toSizeT]
    omega
  have hfree : toUint32 (b.size - b.len) = b.size - b.len := by
    rw [toUint32]
    omega
  have hno : ¬ b.size - b.len < s.length + 1 := by omega
  have htext : b.textCells false s.length .own = .ok (s.map some) := by
    obtain ⟨rest, rfl, -, -⟩ := hroom
    have := load_append [] (s.map some) (u.map some ++ rest)
    rw [List.length_map] at this
    rw [textCells, if_neg Bool.false_ne_true, cells, Option.getD_some, List.map_append, List.append_assoc]
    exact this
  rw [chulaBufferAdd, if_neg (mt List.length_eq_zero_iff.mp hs)]
  dsimp only
  rw [free_eq h, hask, hfree, decide_eq_false hno, if_neg Bool.false_ne_true, ok_then htext]
  obtain ⟨rest, hcopy, hrest, hsize⟩ := copyIn_end _ hroom
  rw [ok_then hcopy]
  obtain ⟨b', hput, hstores, -, -⟩ := stored_of_finish (x := ((s ++ u).length : ℕ) + (s.length : ℕ))
    (n := (s ++ u).length) ((Nat.cast_add _ _).symm.trans (congrArg Nat.cast List.length_append.symm)) hrest hsize hlt b (s ++ u)
  exact ⟨b', hput, hstores, (put_size hput).trans hsize⟩

theorem multiplyLoop_stores (hs : s ≠ []) : ∀ (k : ℕ) (b : RawBuffer) (u : List UInt8), b.Stores (s ++ u) →
    s.length + u.length + k * s.length < b.size →
      ∃ b', multiplyLoop s.length k b = .ok b' ∧ b'.Stores (s ++ u ++ (List.replicate k s).flatten)
  | 0, b, u, h, _ => ⟨b, rfl, by rwa [List.replicate_zero, List.flatten_nil, List.append_nil]⟩
  | k + 1, b, u, h, hfit => by
    have hlt := h.size_lt
    rw [Nat.add_mul, Nat.one_mul] at hfit
    obtain ⟨b1, hadd, h1, hsize⟩ := chulaBufferAdd_own h hs (by omega)
    rw [List.append_assoc] at h1
    obtain ⟨b', hloop, h'⟩ := multiplyLoop_stores hs k b1 (u ++ s) h1 (by rw [List.length_append]; omega)
    refine ⟨b', ?_, ?_⟩
    · rw [multiplyLoop, toSizeT_cast (by omega), ok_then hadd]
      exact hloop
    · rwa [List.replicate_succ, List.flatten_cons, List.append_assoc, ← List.append_assoc u, ← List.append_assoc]

/-- A loop that appends nothing. -/
theorem multiplyLoop_zero : ∀ (k : ℕ) (b : RawBuffer), multiplyLoop 0 k b = .ok b
  | 0, _ => rfl
  | k + 1, b => multiplyLoop_zero k b

theorem chulaBufferMultiply_stored (h : b.Stores s) {num : ℤ} (hnum : 1 ≤ num) (hlt : s.length * num.toNat < 2 ^ 30) :
    Stored (b.chulaBufferMultiply num) b s (List.replicate num.toNat s).flatten := by
  have hlen := h.len_eq
  have hbound := h.size_lt
  have hle := h.len_le_size
  obtain ⟨k, rfl⟩ : ∃ k : ℕ, num = k + 1 := ⟨(num - 1).toNat, by omega⟩
  have hk : ((k : ℤ) + 1).toNat = k + 1 := rfl
  rw [hk, Nat.mul_add, Nat.mul_one] at hlt
  have hask : toUint32 (b.len * ((k : ℤ) + 1) + 1) = s.length * k + s.length + 1 := by
    have hcast : (b.len : ℤ) * ((k : ℤ) + 1) + 1 = ((s.length * k + s.length + 1 : ℕ) : ℤ) := by
      rw [hlen]
      push_cast
      ring
    rw [hcast, toUint32_cast (by omega)]
  obtain ⟨h1, hsize1, hsome1⟩ := h.ensureSize (n := s.length * k + s.length + 1) (by omega)
  rw [chulaBufferMultiply, hask, hk, toInt_of (by omega) (by omega), hlen, show ((k : ℤ) + 1 - 1).toNat = k by omega]
  by_cases hs : s = []
  · subst hs
    have hnil : (List.replicate (k + 1) ([] : List UInt8)).flatten = [] := by simp
    rw [hnil]
    exact ⟨_, multiplyLoop_zero k _, h1, fun hne => absurd rfl hne, hsome1⟩
  · obtain ⟨b', hloop, h'⟩ := multiplyLoop_stores hs k _ [] (by rwa [List.append_nil])
      (by rw [List.length_nil, Nat.add_zero, Nat.mul_comm k]; omega)
    rw [List.append_nil, ← List.flatten_cons, ← List.replicate_succ] at h'
    have hne : (List.replicate (k + 1) s).flatten ≠ [] := by
      rw [List.replicate_succ, List.flatten_cons]
      exact List.append_ne_nil_of_left_ne_nil hs _
    exact ⟨b', hloop, h', fun _ => h'.terminated hne, fun _ => h'.isSome hne⟩

end RawBuffer

end LibHpack
