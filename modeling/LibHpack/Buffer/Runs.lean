import LibHpack.General.Run
import LibHpack.Buffer.Ops

/-!
# LibHpack.Buffer.Runs — a buffer over any sequence of calls is a byte string

`BufferOp.apply` says what a call does to a byte string.  The memory follows it (`step_stored`), and so it does over every
sequence of calls whose lengths stay below 2^30 (`buffer_refines_string`).  The buffers that the rest of the library is
modelled on, `ChulaBuffer`, are these memories without the room behind the string (`MemoryOf`).
-/

namespace LibHpack

open Memory Run

/-- A call on a buffer, with its arguments. -/
inductive BufferOp
  | add (txt : List UInt8)
  | addChar (c : UInt8)
  | addCharN (c : UInt8) (num : ℤ)
  | prepend (txt : List UInt8)
  | insert (txt : List UInt8) (pos : ℕ)
  | dropEnding (numChars : ℕ)
  | moveToBegin (pos : ℕ)
  | multiply (num : ℤ)
  | retract
  | clean
  | ensureSize (size : ℕ)
  | ensureAddlen (addlen : ℕ)
  deriving DecidableEq, Repr

namespace BufferOp

/-- What the call does to a byte string. -/
def apply (s : List UInt8) : BufferOp → List UInt8
  | add txt => s ++ txt
  | addChar c => s ++ [c]
  | addCharN c num => s ++ List.replicate num.toNat c
  | prepend txt => txt ++ s
  | insert txt pos => s.take pos ++ txt ++ s.drop pos
  | dropEnding numChars => s.take (s.length - numChars)
  | moveToBegin pos => s.drop pos
  | multiply num => (List.replicate num.toNat s).flatten
  | retract => s
  | clean => []
  | ensureSize _ => s
  | ensureAddlen _ => s

/-- The total length that a call asks room for. -/
def asked (s : List UInt8) : BufferOp → ℕ
  | ensureSize size => size
  | ensureAddlen addlen => s.length + addlen
  | _ => 0

/-- How often a call multiplies the string. -/
def factor : BufferOp → ℤ
  | multiply num => num
  | _ => 1

/-- The total lengths, those of the string and those that room is asked for, are below 2^30, and the string is multiplied
by at least 1. -/
def Within (s : List UInt8) (op : BufferOp) : Prop :=
  (op.apply s).length < 2 ^ 30 ∧ op.asked s < 2 ^ 30 ∧ 1 ≤ op.factor

instance (s : List UInt8) (op : BufferOp) : Decidable (op.Within s) :=
  inferInstanceAs (Decidable ((op.apply s).length < 2 ^ 30 ∧ op.asked s < 2 ^ 30 ∧ 1 ≤ op.factor))

/-- The byte string after a sequence of calls. -/
def contents (ops : List BufferOp) : List UInt8 := ops.foldl apply []

theorem contents_concat (ops : List BufferOp) (op : BufferOp) : contents (ops ++ [op]) = op.apply (contents ops) :=
  List.foldl_concat ..

end BufferOp

namespace RawBuffer

/-- Make a call. -/
def step (b : RawBuffer) : BufferOp → Except Escape RawBuffer
  | .add txt => b.chulaBufferAdd (.outside txt) txt.length
  | .addChar c => b.chulaBufferAddChar c
  | .addCharN c num => b.chulaBufferAddCharN c num
  | .prepend txt => b.chulaBufferPrepend txt
  | .insert txt pos => b.chulaBufferInsert txt pos
  | .dropEnding numChars => b.chulaBufferDropEnding numChars
  | .moveToBegin pos => b.chulaBufferMoveToBegin pos
  | .multiply num => b.chulaBufferMultiply num
  | .retract => .ok b.chulaBufferRetract
  | .clean => b.chulaBufferClean
  | .ensureSize size => .ok (b.chulaBufferEnsureSize size)
  | .ensureAddlen addlen => .ok (b.chulaBufferEnsureAddlen addlen)

variable {b : RawBuffer} {s : List UInt8}

/-- **One call.** -/
theorem step_stored (h : b.Stores s) {op : BufferOp} (hop : op.Within s) : Stored (b.step op) b s (op.apply s) := by
  obtain ⟨hlt, hasked, hfactor⟩ := hop
  cases op with
  | add txt =>
    rw [BufferOp.apply, List.length_append] at hlt
    exact chulaBufferAdd_stored h hlt
  | addChar c =>
    rw [BufferOp.apply, List.length_append] at hlt
    exact chulaBufferAddChar_stored h c hlt
  | addCharN c num =>
    rw [BufferOp.apply, List.length_append, List.length_replicate] at hlt
    exact chulaBufferAddCharN_stored h c num hlt
  | prepend txt =>
    rw [BufferOp.apply, List.length_append, Nat.add_comm] at hlt
    exact chulaBufferPrepend_stored h hlt
  | insert txt pos =>
    rw [BufferOp.apply, List.length_append, List.length_append, List.length_take, List.length_drop] at hlt
    exact chulaBufferInsert_stored h pos (by omega)
  | dropEnding numChars => exact chulaBufferDropEnding_stored h numChars
  | moveToBegin pos => exact chulaBufferMoveToBegin_stored h pos
  | multiply num =>
    rw [BufferOp.apply, List.length_flatten, List.map_replicate, List.sum_replicate, smul_eq_mul, Nat.mul_comm] at hlt
    exact chulaBufferMultiply_stored h hfactor hlt
  | retract => exact chulaBufferRetract_stored h
  | clean => exact chulaBufferClean_stored h
  | ensureSize size => exact chulaBufferEnsureSize_stored h (hasked.trans (by decide))
  | ensureAddlen addlen => exact chulaBufferEnsureAddlen_stored h hasked

end RawBuffer

/-! ### The buffers of the library -/

/-- The memory that a `ChulaBuffer` stands for. -/
structure MemoryOf (b : RawBuffer) (c : ChulaBuffer) : Prop where
  stores : b.Stores c.bytes
  null : b.buf.isSome = c.buf.isSome

namespace MemoryOf

variable {b : RawBuffer} {c : ChulaBuffer}

theorem init : MemoryOf RawBuffer.chulaBufInit chulaBufferInit := ⟨.null, rfl⟩

theorem add (h : MemoryOf b c) {txt : List UInt8} (hlt : c.len + txt.length < 2 ^ 30) :
    ∃ b', b.chulaBufferAdd (.outside txt) txt.length = .ok b' ∧ MemoryOf b' (chulaBufferAdd c txt) := by
  by_cases htxt : txt = []
  · subst htxt
    exact ⟨b, rfl, h⟩
  · obtain ⟨b', hadd, hstores, -, -⟩ := RawBuffer.chulaBufferAdd_stored h.stores hlt
    refine ⟨b', hadd, ⟨by rwa [chulaBufferAdd_bytes], ?_⟩⟩
    rw [chulaBufferAdd_isSome c txt htxt]
    exact hstores.isSome (List.append_ne_nil_of_right_ne_nil _ htxt)

theorem addChar (h : MemoryOf b c) (x : UInt8) (hlt : c.len + 1 < 2 ^ 30) :
    ∃ b', b.chulaBufferAddChar x = .ok b' ∧ MemoryOf b' (chulaBufferAddChar c x) := by
  obtain ⟨b', hadd, hstores, -, -⟩ := RawBuffer.chulaBufferAddChar_stored h.stores x hlt
  exact ⟨b', hadd, hstores, hstores.isSome (List.append_ne_nil_of_right_ne_nil _ (List.cons_ne_nil x []))⟩

theorem clean (h : MemoryOf b c) : ∃ b', b.chulaBufferClean = .ok b' ∧ MemoryOf b' (chulaBufferClean c) := by
  obtain ⟨b', hclean, hstores, -, hkeep⟩ := RawBuffer.chulaBufferClean_stored h.stores
  refine ⟨b', hclean, ⟨by rwa [chulaBufferClean_bytes], ?_⟩⟩
  have hnull := h.null
  cases hb : b.buf with
  | none =>
    rw [RawBuffer.chulaBufferClean, hb] at hclean
    cases hclean
    rw [chulaBufferClean, Option.isSome_map, ← hnull]
  | some m =>
    rw [chulaBufferClean, Option.isSome_map, ← hnull, hkeep (by rw [hb]; rfl), hb]
    rfl

theorem ensureAddlen (h : MemoryOf b c) {addlen : ℕ} (hlt : c.len + addlen < 2 ^ 30) :
    MemoryOf (b.chulaBufferEnsureAddlen addlen) (chulaBufferEnsure c) := by
  obtain ⟨b', heq, hstores, -, -⟩ := RawBuffer.chulaBufferEnsureAddlen_stored h.stores hlt
  cases heq
  have hroom := RawBuffer.chulaBufferEnsureAddlen_room h.stores hlt
  exact ⟨hstores, hstores.isSome_of_lt (by omega)⟩

end MemoryOf

/-! ### Sequences of calls -/

open RawBuffer BufferOp

/-- The buffer after a sequence of calls that stay within the lengths stores its byte string, and once it has memory it
keeps some. -/
theorem run_stores (ops : List BufferOp) (hops : ∀ n (hn : n < ops.length), Within (contents (ops.take n)) ops[n]) :
    ∃ b, run RawBuffer.step chulaBufInit ops = .ok b ∧ b.Stores (contents ops) ∧
      ((∃ n, contents (ops.take n) ≠ []) → b.buf.isSome) := by
  induction ops using List.reverseRecOn with
  | nil =>
    refine ⟨chulaBufInit, rfl, .null, ?_⟩
    rintro ⟨n, hn⟩
    rw [List.take_nil] at hn
    exact absurd rfl hn
  | append_singleton ops op ih =>
    obtain ⟨b, hrun, hstores, hsome⟩ := ih fun n hn => by
      have := hops n (by rw [List.length_append]; omega)
      rwa [List.take_append_of_le_length hn.le, List.getElem_append_left hn] at this
    have hop : op.Within (contents ops) := by
      have := hops ops.length (by rw [List.length_append, List.length_singleton]; omega)
      rwa [List.take_left, List.getElem_append_right le_rfl, List.getElem_singleton] at this
    obtain ⟨b', hstep, hstores', -, hkeep⟩ := step_stored hstores hop
    rw [run_concat hrun, contents_concat]
    refine ⟨b', hstep, hstores', ?_⟩
    rintro ⟨n, hn⟩
    by_cases hle : n ≤ ops.length
    · rw [List.take_append_of_le_length hle] at hn
      exact hkeep (hsome ⟨n, hn⟩)
    · rw [List.take_of_length_le (by rw [List.length_append, List.length_singleton]; omega), contents_concat] at hn
      exact hstores'.isSome hn

/-- **A buffer refines a byte string.**  Over every sequence of calls on an empty buffer whose total lengths stay below
2^30, no access leaves the memory, whose size is the one of the buffer; the first `len` octets are the byte string that
the calls give; there is room behind it as soon as a string has been stored; and after a call that changed the contents,
the octet behind them is NUL. -/
theorem buffer_refines_string (ops : List BufferOp)
    (hops : ∀ n (hn : n < ops.length), Within (contents (ops.take n)) ops[n]) :
    ∃ b, run RawBuffer.step chulaBufInit ops = .ok b ∧ b.cells.length = b.size ∧ b.len = (contents ops).length ∧
      b.cells.take b.len = (contents ops).map some ∧ ((∃ n, contents (ops.take n) ≠ []) → b.len < b.size) ∧
        ∀ before op, ops = before ++ [op] → contents ops ≠ contents before → b.cells[b.len]? = some (some 0) := by
  obtain ⟨b, hrun, hstores, hsome⟩ := run_stores ops hops
  refine ⟨b, hrun, hstores.size_eq, hstores.len_eq, hstores.take_eq, fun h => hstores.len_lt_size (hsome h), ?_⟩
  rintro before op rfl hne
  obtain ⟨b0, hrun0, hstores0, -⟩ := run_stores before fun n hn => by
    have := hops n (by rw [List.length_append]; omega)
    rwa [List.take_append_of_le_length hn.le, List.getElem_append_left hn] at this
  have hop : op.Within (contents before) := by
    have := hops before.length (by rw [List.length_append, List.length_singleton]; omega)
    rwa [List.take_left, List.getElem_append_right le_rfl, List.getElem_singleton] at this
  obtain ⟨b', hstep, -, hterm, -⟩ := step_stored hstores0 hop
  rw [run_concat hrun0, hstep] at hrun
  cases hrun
  rw [contents_concat] at hne
  exact hterm hne

/-- A string that is built up, taken apart and cleaned. -/
def buildOps : List BufferOp :=
  [.ensureSize 0, .add (ascii "ell"), .prepend (ascii "h"), .insert (ascii "y") 9, .dropEnding 1, .addChar 111,
    .multiply 3, .moveToBegin 5, .addCharN 33 2, .retract, .ensureAddlen 40, .dropEnding 100, .clean]

theorem buffer_refines_string_build :
    ∃ b, run RawBuffer.step chulaBufInit buildOps = .ok b ∧ b.cells.length = b.size ∧
      b.len = (contents buildOps).length ∧ b.cells.take b.len = (contents buildOps).map some ∧
        ((∃ n, contents (buildOps.take n) ≠ []) → b.len < b.size) ∧
          ∀ before op, buildOps = before ++ [op] → contents buildOps ≠ contents before →
            b.cells[b.len]? = some (some 0) :=
  buffer_refines_string buildOps (by decide)

end LibHpack
