import Mathlib.Data.List.Destutter
import LibHpack.Path.Model
import LibHpack.Buffer.Contents

/-!
# LibHpack.Buffer.Dups — chula_buffer_remove_dups (libchula buffer.c)

The loop works in place: up to `a` the string is as it is to be, then come `offset` octets that are left over, and what is
behind them is still to be read.  Every turn reads one octet, so `a + offset` is how far the loop has come; the last turn
reads the NUL, unless all of the string is one run.

`collapsed` is what the call is for.  That nothing behind the NUL is read or written is said by putting any other cells
there: `withRest`.
-/

namespace LibHpack

open Memory Run RawBuffer

/-- `*a == c && a[offset+1] == c`. -/
def isDup (buffer : RawBuffer) (c : UInt8) (a offset : ℕ) : Except PathFault Bool := do
  let x ← octetAt buffer a
  if x ≠ c then .ok false
  else do
    let y ← octetAt buffer (a + (offset + 1))
    .ok (y = c)

/-- `a++; *a = a[offset]`. -/
def closeGap (buffer : RawBuffer) (a offset : ℕ) : Except PathFault RawBuffer := do
  let y ← octetAt buffer (a + 1 + offset)
  (buffer.put (a + 1) y).mapError .access

/-- One turn of the loop. -/
def dupsTurn (buffer : RawBuffer) (c : UInt8) (a offset : ℕ) : Except PathFault (RawBuffer × ℕ × ℕ) := do
  let dup ← isDup buffer c a offset
  if dup then .ok (buffer, a, offset + 1)
  else do
    let buffer ← closeGap buffer a offset
    .ok (buffer, a + 1, offset)

def dupsLoop (c : UInt8) : ℕ → RawBuffer → ℕ → ℕ → Except PathFault (RawBuffer × ℕ)
  | 0, _, _, _ => .error .hang
  | turns + 1, buffer, a, offset => do
    let (buffer, a, offset) ← dupsTurn buffer c a offset
    if a + offset < buffer.len ∧ offset + 1 < buffer.len then dupsLoop c turns buffer a offset else .ok (buffer, offset)

/-- `chula_buffer_remove_dups`. -/
def chulaBufferRemoveDups (turns : ℕ) (buffer : RawBuffer) (c : UInt8) : Except PathFault (Ret × RawBuffer) :=
  if buffer.len < 2 then .ok (.ok, buffer)
  else do
    let (buffer, offset) ← dupsLoop c turns buffer 0 0
    let len := toUint32 (buffer.len - offset)
    let buffer ← (({ buffer with len } : RawBuffer).put len 0).mapError .access
    .ok (.ok, buffer)

/-! ### The reference -/

/-- Two octets that may stand side by side. -/
def Apart (c x y : UInt8) : Prop := ¬(x = c ∧ y = c)

instance (c : UInt8) : DecidableRel (Apart c) := fun _ _ => inferInstanceAs (Decidable (¬_))

/-- The string with every run of `c` taken for one. -/
def collapsed (c : UInt8) (s : List UInt8) : List UInt8 := s.destutter (Apart c)

section Reference

variable {c x y : UInt8} {s t : List UInt8}

theorem destutter'_apart (h : Apart c ((x :: s).getLast (List.cons_ne_nil x s)) y) :
    (s ++ y :: t).destutter' (Apart c) x = s.destutter' (Apart c) x ++ t.destutter' (Apart c) y := by
  induction s generalizing x with
  | nil =>
    rw [List.getLast_singleton] at h
    rw [List.nil_append, List.destutter'_cons_pos t h]
    rfl
  | cons z s ih =>
    rw [List.getLast_cons (List.cons_ne_nil z s)] at h
    rw [List.cons_append]
    by_cases hz : Apart c x z
    · rw [List.destutter'_cons_pos _ hz, List.destutter'_cons_pos _ hz, ih h, List.cons_append]
    · obtain ⟨rfl, rfl⟩ := not_not.1 hz
      rw [List.destutter'_cons_neg _ hz, List.destutter'_cons_neg _ hz, ih h]

/-- Between two octets that may stand side by side. -/
theorem collapsed_append (hs : s.getLast? ≠ some c ∨ t.head? ≠ some c) :
    collapsed c (s ++ t) = collapsed c s ++ collapsed c t := by
  cases s with
  | nil => rfl
  | cons x s =>
    cases t with
    | nil => rw [List.append_nil, collapsed, collapsed, List.destutter_nil, List.append_nil]
    | cons y t =>
      refine destutter'_apart ?_
      rintro ⟨hx, hy⟩
      rw [List.getLast?_eq_some_getLast (List.cons_ne_nil x s), hx, List.head?_cons, hy] at hs
      exact hs.elim (fun h => h rfl) fun h => h rfl

/-- A run. -/
theorem collapsed_replicate (c : UInt8) (n : ℕ) : collapsed c (List.replicate (n + 1) c) = [c] := by
  rw [List.replicate_succ, collapsed, List.destutter_cons']
  induction n with
  | zero => rfl
  | succ n ih => rw [List.replicate_succ, List.destutter'_cons_neg _ (not_not.2 ⟨rfl, rfl⟩), ih]

/-- Everything else. -/
theorem collapsed_of_notMem (h : c ∉ s) : collapsed c s = s := by
  refine List.destutter_of_isChain _ s ?_
  induction s with
  | nil => exact .nil
  | cons x s ih =>
    rw [List.mem_cons, not_or] at h
    refine List.isChain_cons.2 ⟨?_, ih h.2⟩
    rintro y - ⟨hx, -⟩
    exact h.1 hx.symm

/-- **A run as long as can be** is taken for one octet, and what is before and behind it is looked at by itself. -/
theorem collapsed_run (n : ℕ) (hs : s.getLast? ≠ some c) (ht : t.head? ≠ some c) :
    collapsed c (s ++ (List.replicate (n + 1) c ++ t)) = collapsed c s ++ c :: collapsed c t := by
  rw [collapsed_append (.inl hs), collapsed_append (.inr ht), collapsed_replicate]
  rfl

example : collapsed 99 [97, 98, 99, 99, 99, 100, 101] = [97, 98, 99, 100, 101] := by decide

end Reference

/-- The same buffer, with other cells behind the first `n`. -/
def RawBuffer.withRest (b : RawBuffer) (n : ℕ) (rest : Memory.Block UInt8) : RawBuffer :=
  { b with buf := b.buf.map fun m => m.take n ++ rest }

/-- The call takes every run of `c` in `s` for one, and whatever is behind the NUL is neither read nor written. -/
def Collapses (turns : ℕ) (b : RawBuffer) (c : UInt8) (s : List UInt8) : Prop :=
  ∃ b', chulaBufferRemoveDups turns b c = .ok (.ok, b') ∧ b'.Filled (collapsed c s) ∧ (s ≠ [] → b'.Terminated) ∧
    ∀ rest, chulaBufferRemoveDups turns (b.withRest (s.length + 1) rest) c = .ok (.ok, b'.withRest (s.length + 1) rest)

/-! ### The loop -/

/-- A buffer whose block begins with the octets `l`. -/
def blockOf (l : List UInt8) (rest : Memory.Block UInt8) (size len : ℕ) : RawBuffer := ⟨some (l.map some ++ rest), size, len⟩

section Loop

variable {l r D v gap : List UInt8} {rest : Memory.Block UInt8} {c x y z : UInt8} {size len turns i : ℕ}

@[simp] theorem blockOf_len (l : List UInt8) : (blockOf l rest size len).len = len := rfl

theorem octetAt_blockOf (hi : i = l.length) : octetAt (blockOf (l ++ y :: r) rest size len) i = .ok y := by
  subst hi
  have hget : (blockOf (l ++ y :: r) rest size len).cells[l.length]? = some (some y) := by
    rw [blockOf, cells, Option.getD_some, List.getElem?_append_left (by simp), List.getElem?_map]
    simp
  rw [octetAt, hget]

theorem put_blockOf (hi : i = l.length) :
    (blockOf (l ++ y :: r) rest size len).put i z = .ok (blockOf (l ++ z :: r) rest size len) := by
  subst hi
  have hstore := store_append (l := l.map some) (m := [some y]) (x := [some z]) (r.map some ++ rest) rfl
  rw [List.length_map] at hstore
  have hblock : ∀ w : UInt8, (l ++ w :: r).map some ++ rest = l.map some ++ [some w] ++ (r.map some ++ rest) := by
    intro w
    rw [List.map_append, List.map_cons, List.append_assoc, List.append_assoc, List.singleton_append, List.cons_append]
  rw [RawBuffer.put, blockOf, blockOf, cells, Option.getD_some, hblock, ok_then hstore, hblock]
  rfl

/-- A run goes on where the octet is `c`, and so is the next one. -/
theorem isDup_blockOf (v : List UInt8) : isDup (blockOf (D ++ x :: (gap ++ y :: v)) rest size len) c D.length gap.length =
    .ok (decide (x = c ∧ y = c)) := by
  have hy : octetAt (blockOf (D ++ x :: (gap ++ y :: v)) rest size len) (D.length + (gap.length + 1)) = .ok y := by
    rw [← List.cons_append, ← List.append_assoc]
    exact octetAt_blockOf (by rw [List.length_append, List.length_cons])
  rw [isDup, ok_then (octetAt_blockOf rfl)]
  by_cases hx : x = c
  · rw [if_neg (not_not.2 hx), ok_then hy]
    simp [hx]
  · rw [if_pos hx, decide_eq_false fun h => hx h.1]

/-- Closing the gap moves it behind the next octet. -/
theorem closeGap_blockOf (D gap v : List UInt8) (x y : UInt8) (size len : ℕ) : ∃ gap', gap'.length = gap.length ∧ ∀ rest,
    closeGap (blockOf (D ++ x :: (gap ++ y :: v)) rest size len) D.length gap.length =
      .ok (blockOf (D ++ [x] ++ y :: (gap' ++ v)) rest size len) := by
  obtain ⟨g, gap', hgap⟩ := List.exists_cons_of_ne_nil (List.append_ne_nil_of_right_ne_nil gap (List.cons_ne_nil y []))
  have hlen := congrArg List.length hgap
  rw [List.length_append, List.length_singleton, List.length_cons] at hlen
  refine ⟨gap', by omega, fun rest => ?_⟩
  have hread : octetAt (blockOf (D ++ x :: (gap ++ y :: v)) rest size len) (D.length + 1 + gap.length) = .ok y := by
    rw [← List.cons_append, ← List.append_assoc]
    refine octetAt_blockOf ?_
    rw [List.length_append, List.length_cons]
    omega
  have hsplit : D ++ x :: (gap ++ y :: v) = D ++ [x] ++ g :: (gap' ++ v) := by
    rw [List.append_cons gap, hgap, List.append_cons D]
    rfl
  have hwrite : (blockOf (D ++ [x] ++ g :: (gap' ++ v)) rest size len).put (D.length + 1) y =
      .ok (blockOf (D ++ [x] ++ y :: (gap' ++ v)) rest size len) :=
    put_blockOf (by rw [List.length_append, List.length_singleton])
  rw [closeGap, ok_then hread, hsplit, hwrite]
  rfl

/-- A turn in a run. -/
theorem dupsTurn_dup (v : List UInt8) (rest : Memory.Block UInt8) (h : x = c ∧ y = c) :
    dupsTurn (blockOf (D ++ x :: (gap ++ y :: v)) rest size len) c D.length gap.length =
      .ok (blockOf (D ++ x :: (gap ++ y :: v)) rest size len, D.length, gap.length + 1) := by
  rw [dupsTurn, ok_then (isDup_blockOf v), decide_eq_true h, if_pos rfl]

/-- A turn elsewhere. -/
theorem dupsTurn_apart (D gap v : List UInt8) (size len : ℕ) (h : Apart c x y) : ∃ gap', gap'.length = gap.length ∧ ∀ rest,
    dupsTurn (blockOf (D ++ x :: (gap ++ y :: v)) rest size len) c D.length gap.length =
      .ok (blockOf (D ++ [x] ++ y :: (gap' ++ v)) rest size len, D.length + 1, gap.length) := by
  obtain ⟨gap', hlen, hclose⟩ := closeGap_blockOf D gap v x y size len
  refine ⟨gap', hlen, fun rest => ?_⟩
  rw [dupsTurn, ok_then (isDup_blockOf v), decide_eq_false h, if_neg Bool.false_ne_true, ok_then (hclose rest)]

/-- The loop goes on. -/
theorem dupsLoop_next {b b' : RawBuffer} {a a' offset offset' : ℕ} (hturn : dupsTurn b c a offset = .ok (b', a', offset'))
    (hon : a' + offset' < b'.len) (hon' : offset' + 1 < b'.len) :
    dupsLoop c (turns + 1) b a offset = dupsLoop c turns b' a' offset' := by
  rw [dupsLoop, ok_then hturn]
  exact if_pos ⟨hon, hon'⟩

/-- The loop ends. -/
theorem dupsLoop_done {b b' : RawBuffer} {a a' offset offset' : ℕ} (hturn : dupsTurn b c a offset = .ok (b', a', offset'))
    (hdone : b'.len ≤ a' + offset' ∨ b'.len ≤ offset' + 1) : dupsLoop c (turns + 1) b a offset = .ok (b', offset') := by
  rw [dupsLoop, ok_then hturn]
  exact if_neg fun hon => by omega

/-- **The loop**: what is done, `x`, what is left over, and what is still to be read.  It ends behind the octets that are
to be kept, with as many octets left over as `offset` says. -/
theorem dupsLoop_blockOf (D gap v : List UInt8) (x : UInt8) (size turns : ℕ) (hc : c ≠ 0)
    (hlen : D.length + 1 + gap.length + v.length = len) (hgap : gap.length + 1 < len) (hturns : v.length < turns) :
    ∃ g junk, (D ++ v.destutter' (Apart c) x).length + junk.length = len ∧ ∀ rest,
      dupsLoop c turns (blockOf (D ++ x :: (gap ++ (v ++ [0]))) rest size len) D.length gap.length =
        .ok (blockOf (D ++ v.destutter' (Apart c) x ++ g :: junk) rest size len, junk.length) := by
  induction v generalizing D x gap turns with
  | nil =>
    -- the turn that reads the NUL
    obtain ⟨turns, rfl⟩ := Nat.exists_eq_add_of_lt hturns
    obtain ⟨gap', hgap', hturn⟩ := dupsTurn_apart D gap [] size len (fun h => hc h.2.symm : Apart c x 0)
    rw [List.length_nil, Nat.add_zero] at hlen
    refine ⟨0, gap', ?_, fun rest => ?_⟩
    · rw [List.destutter'_nil, List.length_append, List.length_singleton, hgap']
      exact hlen
    · rw [List.nil_append, dupsLoop_done (hturn rest) (.inl (by rw [blockOf_len]; omega)), List.append_nil, hgap',
        List.destutter'_nil]
  | cons y v ih =>
    rw [List.length_cons] at hlen hturns
    obtain ⟨turns, rfl⟩ := Nat.exists_eq_add_of_lt (Nat.zero_lt_of_lt hturns)
    rw [List.cons_append]
    by_cases hdup : x = c ∧ y = c
    · rw [List.destutter'_cons_neg _ (not_not.2 hdup)]
      by_cases hend : gap.length + 2 < len
      · obtain ⟨g, junk, hjunk, hloop⟩ := ih D (gap ++ [y]) x (0 + turns)
          (by rw [List.length_append, List.length_singleton]; omega)
          (by rw [List.length_append, List.length_singleton]; omega) (by omega)
        refine ⟨g, junk, hjunk, fun rest => ?_⟩
        rw [dupsLoop_next (dupsTurn_dup (v ++ [0]) rest hdup) (by rw [blockOf_len]; omega) (by rw [blockOf_len]; omega),
          ← hloop rest, List.length_append, List.length_singleton, List.append_assoc, List.singleton_append]
      · -- all of the string is one run
        have hD : D = [] := List.length_eq_zero_iff.1 (by omega)
        have hv : v = [] := List.length_eq_zero_iff.1 (by omega)
        subst hD hv
        obtain ⟨g, junk, hsplit⟩ := List.exists_cons_of_ne_nil
          (List.append_ne_nil_of_right_ne_nil gap (List.cons_ne_nil y [0]))
        have hjunk := congrArg List.length hsplit
        rw [List.length_append, List.length_cons, List.length_singleton, List.length_cons] at hjunk
        simp only [List.length_nil] at hlen
        refine ⟨g, junk, ?_, fun rest => ?_⟩
        · rw [List.destutter'_nil, List.nil_append, List.length_singleton]
          omega
        · rw [dupsLoop_done (dupsTurn_dup ([] ++ [0]) rest hdup) (.inr (by rw [blockOf_len]; omega)), List.nil_append,
            List.nil_append, hsplit, List.destutter'_nil, (by omega : junk.length = gap.length + 1)]
          rfl
    · rw [List.destutter'_cons_pos _ hdup]
      obtain ⟨gap', hgap', hturn⟩ := dupsTurn_apart D gap (v ++ [0]) size len hdup
      obtain ⟨g, junk, hjunk, hloop⟩ := ih (D ++ [x]) gap' y (0 + turns)
        (by rw [List.length_append, List.length_singleton]; omega) (by omega) (by omega)
      rw [List.append_cons]
      refine ⟨g, junk, hjunk, fun rest => ?_⟩
      rw [dupsLoop_next (hturn rest) (by rw [blockOf_len]; omega) (by rw [blockOf_len]; omega), ← hloop rest,
        List.length_append, List.length_singleton, hgap']

/-- **The call**, on a string of two octets or more. -/
theorem removeDups_blockOf {s : List UInt8} (size : ℕ) (hc : c ≠ 0) (hlen : 2 ≤ s.length) (hlt : s.length < 2 ^ 32)
    (hturns : s.length ≤ turns) : ∃ junk, (collapsed c s).length + junk.length = s.length ∧ ∀ rest,
      chulaBufferRemoveDups turns (blockOf (s ++ [0]) rest size s.length) c =
        .ok (.ok, blockOf (collapsed c s ++ 0 :: junk) rest size (collapsed c s).length) := by
  obtain ⟨x, v, rfl⟩ := List.exists_cons_of_length_pos (by omega : 0 < s.length)
  obtain ⟨g, junk, hjunk, hloop⟩ := dupsLoop_blockOf [] [] v x size turns hc
    (by rw [List.length_nil, List.length_cons]; omega : _ = (x :: v).length) (by rw [List.length_nil]; omega) hturns
  rw [List.nil_append, ← List.destutter_cons'] at hjunk
  refine ⟨junk, hjunk, fun rest => ?_⟩
  have hlen' : toUint32 ((x :: v).length - junk.length) = (collapsed c (x :: v)).length := by
    rw [collapsed, toUint32]
    omega
  have hdups := hloop rest
  simp only [List.nil_append, ← List.destutter_cons', List.length_nil] at hdups
  have hput : ({ blockOf (collapsed c (x :: v) ++ g :: junk) rest size (x :: v).length with
      len := (collapsed c (x :: v)).length } : RawBuffer).put (collapsed c (x :: v)).length 0 =
      .ok (blockOf (collapsed c (x :: v) ++ 0 :: junk) rest size (collapsed c (x :: v)).length) := put_blockOf rfl
  rw [chulaBufferRemoveDups, blockOf_len, if_neg (by omega), List.cons_append, ok_then hdups]
  dsimp only
  rw [blockOf_len, hlen', ← collapsed, hput]
  rfl

theorem withRest_blockOf {l : List UInt8} (rest rest' : Memory.Block UInt8) (hi : i = l.length) :
    (blockOf l rest size len).withRest i rest' = blockOf l rest' size len := by
  rw [RawBuffer.withRest, blockOf, Option.map_some, List.take_left' (by rw [List.length_map, hi])]
  rfl

end Loop

section Collapses

variable {b : RawBuffer} {s : List UInt8} {c : UInt8} {turns : ℕ}

theorem blockOf_of_filled (h : b.Filled s) (ht : b.Terminated) :
    ∃ rest, b = blockOf (s ++ [0]) rest b.size s.length ∧ s.length + 1 + rest.length = b.size := by
  obtain ⟨rest, hcells⟩ := h.cells_eq ht
  have hsize := congrArg List.length hcells
  rw [h.size_eq, List.length_append, List.length_map, List.length_cons] at hsize
  refine ⟨rest, ?_, by omega⟩
  rw [blockOf, List.map_append, List.append_assoc, ← h.reads.1]
  exact congrArg (RawBuffer.mk · b.size b.len) (ht.buf_eq.trans (congrArg some hcells))

/-- A string that is too short to have a run. -/
theorem collapses_short (h : b.Filled s) (ht : s ≠ [] → b.Terminated) (hlen : s.length < 2) : Collapses turns b c s := by
  have hstays : collapsed c s = s := by
    match s, hlen with
    | [], _ => rfl
    | [x], _ => rfl
  refine ⟨b, ?_, by rwa [hstays], ht, fun rest => ?_⟩
  · rw [chulaBufferRemoveDups, if_pos (by rwa [h.reads.1])]
  · rw [chulaBufferRemoveDups, if_pos]
    rw [RawBuffer.withRest]
    exact h.reads.1.trans_lt hlen

/-- **Removing duplicates**: the call ends, in no more turns than there are octets. -/
theorem removeDups_collapses (h : b.Filled s) (ht : s ≠ [] → b.Terminated) (hc : c ≠ 0) (hturns : s.length ≤ turns) :
    Collapses turns b c s := by
  by_cases hlen : s.length < 2
  · exact collapses_short h ht hlen
  have hterm := ht (List.ne_nil_of_length_pos (by omega))
  obtain ⟨rest, hb, hsize⟩ := blockOf_of_filled h hterm
  obtain ⟨junk, hjunk, hcall⟩ := removeDups_blockOf b.size hc (by omega)
    (h.len_le.trans_lt h.size_lt) hturns
  refine ⟨_, (congrArg (chulaBufferRemoveDups turns · c) hb).trans (hcall rest), ⟨?_, ?_, h.size_lt, fun _ => ?_⟩, ?_, ?_⟩
  · refine reads_of_cells ((0 :: junk).map some ++ rest) rfl ?_
    rw [blockOf, cells, Option.getD_some, List.map_append, List.append_assoc]
  · rw [blockOf, cells, Option.getD_some, List.length_append, List.length_map, List.length_append, List.length_cons]
    dsimp only
    omega
  · change 0 < b.size
    omega
  · intro _
    rw [Terminated, blockOf_len, blockOf, cells, Option.getD_some]
    simp
  · intro rest'
    have hwith : b.withRest (s.length + 1) rest' = blockOf (s ++ [0]) rest' b.size s.length := by
      conv_lhs => rw [hb]
      exact withRest_blockOf rest rest' (by rw [List.length_append, List.length_singleton])
    rw [hwith, hcall rest', withRest_blockOf rest rest' (by rw [List.length_append, List.length_cons]; omega)]

/-- "abcccde", without the duplicates of 'c'. -/
theorem removeDups_collapses_abcccde : Collapses 7
    ⟨some [some 97, some 98, some 99, some 99, some 99, some 100, some 101, some 0], 8, 7⟩ 99
    [97, 98, 99, 99, 99, 100, 101] :=
  removeDups_collapses ⟨⟨rfl, rfl⟩, rfl, by decide, fun _ => by decide⟩ (fun _ => rfl) (by decide) (by decide)

end Collapses

end LibHpack
