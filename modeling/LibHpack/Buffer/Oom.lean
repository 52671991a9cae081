import LibHpack.Buffer.Runs

/-!
# LibHpack.Buffer.Oom — a buffer that runs out of memory (libchula buffer.c)

The calls on a buffer, where `malloc` and `realloc` may return the null pointer.  The allocator is a function `alloc` of a state
of its own, which says whether there is memory and what becomes of the state; what else happens to that state between two calls
is the relation `env`.  A call that finds no memory returns `ret_nomem` and leaves the buffer as it is (`Mirrors`), so over
every run the buffer stores the string of the calls that returned `ret_ok` (`buffer_oom`).
-/

namespace LibHpack.Oom

open Memory Run RawBuffer

/-- The code of a call. -/
inductive MemRet
  | nomem
  | ok
  deriving DecidableEq, Repr

section Functions

variable {σ : Type} (alloc : σ → Bool × σ)

/-- `realloc_inc_bufsize`. -/
def reallocIncBufsize (m : σ) (b : RawBuffer) (incsize : ℕ) : MemRet × RawBuffer × σ :=
  match alloc m with
  | (false, m) => (.nomem, b, m)
  | (true, m) => (.ok, b.reallocIncBufsize incsize, m)

/-- `chula_buffer_add`. -/
def chulaBufferAdd (m : σ) (b : RawBuffer) (txt : Text) (size : ℕ) : Except Escape (MemRet × RawBuffer × σ) :=
  if size = 0 then .ok (.ok, b, m)
  else
    let available := toInt (toUint32 (b.size - b.len))
    let grow : Bool := toUint32 available < toSizeT (size + 1)
    match if grow then reallocIncBufsize alloc m b (toSizeT (size - available)) else (.ok, b, m) with
    | (.nomem, b, m) => .ok (.nomem, b, m)
    | (.ok, b, m) => do
      let octets ← b.textCells grow size txt
      let b ← b.copyIn b.len octets
      let b := { b with len := toUint32 (b.len + size) }
      let b ← b.put b.len 0
      return (.ok, b, m)

/-- `chula_buffer_add_char`. -/
def chulaBufferAddChar (m : σ) (b : RawBuffer) (c : UInt8) : Except Escape (MemRet × RawBuffer × σ) :=
  if toUint32 (b.len + 1) < b.size then do
    let b ← b.putChar c
    return (.ok, b, m)
  else
    match reallocIncBufsize alloc m b 1 with
    | (.nomem, b, m) => .ok (.nomem, b, m)
    | (.ok, b, m) => do
      let b ← b.putChar c
      return (.ok, b, m)

/-- `chula_buffer_add_char_n`. -/
def chulaBufferAddCharN (m : σ) (b : RawBuffer) (c : UInt8) (num : ℤ) : Except Escape (MemRet × RawBuffer × σ) :=
  let free := toInt (toUint32 (b.size - b.len))
  if num ≤ 0 then .ok (.ok, b, m)
  else
    match if free < toInt (num + 1) then reallocIncBufsize alloc m b (toSizeT (toInt (num - free))) else (.ok, b, m) with
    | (.nomem, b, m) => .ok (.nomem, b, m)
    | (.ok, b, m) => do
      let b ← b.copyIn b.len (List.replicate (toSizeT num) (some c))
      let b := { b with len := toUint32 (b.len + num) }
      let b ← b.put b.len 0
      return (.ok, b, m)

/-- `chula_buffer_prepend`. -/
def chulaBufferPrepend (m : σ) (b : RawBuffer) (txt : List UInt8) : Except Escape (MemRet × RawBuffer × σ) :=
  let free := toInt (toUint32 (b.size - b.len))
  if txt.length = 0 then .ok (.ok, b, m)
  else
    match if toUint32 free < toSizeT (txt.length + 1) then reallocIncBufsize alloc m b (toSizeT (txt.length - free))
      else (.ok, b, m) with
    | (.nomem, b, m) => .ok (.nomem, b, m)
    | (.ok, b, m) => do
      let b ← b.moveIn txt.length 0 b.len
      let b ← b.copyIn 0 (txt.map some)
      let b := { b with len := toUint32 (b.len + txt.length) }
      let b ← b.put b.len 0
      return (.ok, b, m)

/-- `chula_buffer_ensure_size`. -/
def chulaBufferEnsureSize (m : σ) (b : RawBuffer) (size : ℕ) : MemRet × RawBuffer × σ :=
  if size ≤ b.size then (.ok, b, m)
  else
    match alloc m with
    | (false, m) => (.nomem, if b.buf.isNone then { b with len := 0, size := 0 } else b, m)
    | (true, m) => (.ok, b.realloc size size, m)

/-- `chula_buffer_ensure_addlen`. -/
def chulaBufferEnsureAddlen (m : σ) (b : RawBuffer) (addlen : ℕ) : MemRet × RawBuffer × σ :=
  if toSizeT (b.len + addlen) < b.size then (.ok, b, m)
  else chulaBufferEnsureSize alloc m b (toSizeT (b.len + addlen + 1))

/-- `chula_buffer_retract`. -/
def chulaBufferRetract (m : σ) (b : RawBuffer) : MemRet × RawBuffer × σ :=
  if b.len = 0 then (.ok, b, m)
  else if b.size ≤ toUint32 (b.len + 1) then (.ok, b, m)
  else
    match alloc m with
    | (false, m) => (.nomem, b, m)
    | (true, m) => (.ok, b.realloc (toUint32 (b.len + 1)) (b.len + 1), m)

/-- The loop of `chula_buffer_multiply`, with `num - i` turns to go. -/
def multiplyLoop (initialSize : ℤ) : ℕ → σ → RawBuffer → Except Escape (MemRet × RawBuffer × σ)
  | 0, m, b => .ok (.ok, b, m)
  | k + 1, m, b => do
    match ← chulaBufferAdd alloc m b .own (toSizeT initialSize) with
    | (.nomem, b, m) => .ok (.nomem, b, m)
    | (.ok, b, m) => multiplyLoop initialSize k m b

/-- `chula_buffer_multiply`. -/
def chulaBufferMultiply (m : σ) (b : RawBuffer) (num : ℤ) : Except Escape (MemRet × RawBuffer × σ) :=
  let initialSize := toInt b.len
  match chulaBufferEnsureSize alloc m b (toUint32 (b.len * num + 1)) with
  | (.nomem, b, m) => .ok (.nomem, b, m)
  | (.ok, b, m) => multiplyLoop alloc initialSize (num - 1).toNat m b

/-- `chula_buffer_insert`. -/
def chulaBufferInsert (m : σ) (b : RawBuffer) (txt : List UInt8) (pos : ℕ) : Except Escape (MemRet × RawBuffer × σ) :=
  if txt.length = 0 then .ok (.ok, b, m)
  else
    match chulaBufferEnsureSize alloc m b (toSizeT (b.len + txt.length + 1)) with
    | (.nomem, b, m) => .ok (.nomem, b, m)
    | (.ok, b, m) => do
      let posn := min pos b.len
      let b ← b.moveIn (toSizeT (posn + txt.length)) posn (toSizeT (b.len - posn))
      let b ← b.copyIn posn (txt.map some)
      let b := { b with len := toUint32 (b.len + txt.length) }
      let b ← b.put b.len 0
      return (.ok, b, m)

/-- Make a call. -/
def step (m : σ) (b : RawBuffer) : BufferOp → Except Escape (MemRet × RawBuffer × σ)
  | .add txt => chulaBufferAdd alloc m b (.outside txt) txt.length
  | .addChar c => chulaBufferAddChar alloc m b c
  | .addCharN c num => chulaBufferAddCharN alloc m b c num
  | .prepend txt => chulaBufferPrepend alloc m b txt
  | .insert txt pos => chulaBufferInsert alloc m b txt pos
  | .dropEnding numChars => (b.chulaBufferDropEnding numChars).map fun b => (.ok, b, m)
  | .moveToBegin pos => (b.chulaBufferMoveToBegin pos).map fun b => (.ok, b, m)
  | .multiply num => chulaBufferMultiply alloc m b num
  | .retract => .ok (chulaBufferRetract alloc m b)
  | .clean => b.chulaBufferClean.map fun b => (.ok, b, m)
  | .ensureSize size => .ok (chulaBufferEnsureSize alloc m b size)
  | .ensureAddlen addlen => .ok (chulaBufferEnsureAddlen alloc m b addlen)

end Functions

/-! ### One call -/

section Mirror

variable {σ : Type} {alloc : σ → Bool × σ} {m : σ} {b : RawBuffer} {s : List UInt8}

/-- The call `x` either finds no memory and leaves the buffer as it is, or it is the call `y` that always finds some; it asks for
memory once at most. -/
def Mirrors (alloc : σ → Bool × σ) (m : σ) (b : RawBuffer) (x : Except Escape (MemRet × RawBuffer × σ))
    (y : Except Escape RawBuffer) : Prop :=
  (∃ m', alloc m = (false, m') ∧ x = .ok (.nomem, b, m')) ∨
    ∃ m', (m' = m ∨ alloc m = (true, m')) ∧ x = y.map fun b' => (.ok, b', m')

theorem mirrors_same (y : Except Escape RawBuffer) : Mirrors alloc m b (y.map fun b' => (.ok, b', m)) y :=
  .inr ⟨m, .inl rfl, rfl⟩

theorem map_eq_then {α β : Type} (x : Except Escape α) (g : α → β) : x.map g = x >>= fun a => pure (g a) := by
  cases x <;> rfl

/-- A text for which there is room. -/
theorem add_fits (txt : Text) {n : ℕ} (hfit : toSizeT (n + 1) ≤ toUint32 (toInt (toUint32 (b.size - b.len)))) :
    chulaBufferAdd alloc m b txt n = (b.chulaBufferAdd txt n).map fun b' => (.ok, b', m) := by
  rw [chulaBufferAdd, RawBuffer.chulaBufferAdd]
  by_cases hn : n = 0
  · rw [if_pos hn, if_pos hn]
    rfl
  rw [if_neg hn, if_neg hn]
  lift_lets
  intro available grow
  have hgrow : grow = false := decide_eq_false (Nat.not_lt.2 hfit)
  clear_value grow
  subst hgrow
  simp only [Bool.false_eq_true, if_false, map_eq_then, bind_assoc]

theorem add_mirrors (txt : Text) (n : ℕ) : Mirrors alloc m b (chulaBufferAdd alloc m b txt n) (b.chulaBufferAdd txt n) := by
  rw [chulaBufferAdd, RawBuffer.chulaBufferAdd]
  by_cases hn : n = 0
  · rw [if_pos hn, if_pos hn]
    exact mirrors_same (.ok b)
  rw [if_neg hn, if_neg hn]
  lift_lets
  intro available grow
  clear_value grow
  cases grow with
  | false =>
    refine .inr ⟨m, .inl rfl, ?_⟩
    simp only [Bool.false_eq_true, if_false, map_eq_then, bind_assoc]
  | true =>
    simp only [if_true, reallocIncBufsize]
    rcases halloc : alloc m with ⟨ok, m'⟩
    cases ok with
    | false => exact .inl ⟨m', halloc, rfl⟩
    | true =>
      refine .inr ⟨m', .inr halloc, ?_⟩
      simp only [map_eq_then, bind_assoc]

theorem addChar_mirrors (c : UInt8) : Mirrors alloc m b (chulaBufferAddChar alloc m b c) (b.chulaBufferAddChar c) := by
  rw [chulaBufferAddChar, RawBuffer.chulaBufferAddChar]
  split_ifs with hfit
  · exact mirrors_same (b.putChar c)
  · rw [reallocIncBufsize]
    rcases halloc : alloc m with ⟨ok, m'⟩
    cases ok with
    | false => exact .inl ⟨m', halloc, rfl⟩
    | true => exact .inr ⟨m', .inr halloc, rfl⟩

theorem addCharN_mirrors (c : UInt8) (num : ℤ) :
    Mirrors alloc m b (chulaBufferAddCharN alloc m b c num) (b.chulaBufferAddCharN c num) := by
  rw [chulaBufferAddCharN, RawBuffer.chulaBufferAddCharN]
  dsimp only
  split_ifs with hnum hgrow
  · exact mirrors_same (.ok b)
  · rw [reallocIncBufsize]
    rcases halloc : alloc m with ⟨ok, m'⟩
    cases ok with
    | false => exact .inl ⟨m', halloc, rfl⟩
    | true =>
      refine .inr ⟨m', .inr halloc, ?_⟩
      simp only [map_eq_then, bind_assoc]
  · refine .inr ⟨m, .inl rfl, ?_⟩
    simp only [map_eq_then, bind_assoc]

theorem prepend_mirrors (txt : List UInt8) :
    Mirrors alloc m b (chulaBufferPrepend alloc m b txt) (b.chulaBufferPrepend txt) := by
  by_cases htxt : txt.length = 0
  · have hx : chulaBufferPrepend alloc m b txt = .ok (.ok, b, m) := if_pos htxt
    have hy : b.chulaBufferPrepend txt = .ok b := if_pos htxt
    rw [hx, hy]
    exact mirrors_same (.ok b)
  rw [chulaBufferPrepend, RawBuffer.chulaBufferPrepend, if_neg htxt, if_neg htxt]
  generalize toInt (toUint32 (b.size - b.len)) = free
  lift_lets
  intro grown
  by_cases hgrow : toUint32 free < toSizeT (txt.length + 1)
  · have hgrown : grown = b.reallocIncBufsize (toSizeT (txt.length - free)) := if_pos hgrow
    rw [if_pos hgrow, hgrown, reallocIncBufsize]
    rcases halloc : alloc m with ⟨ok, m'⟩
    cases ok with
    | false => exact .inl ⟨m', halloc, rfl⟩
    | true =>
      refine .inr ⟨m', .inr halloc, ?_⟩
      simp only [map_eq_then, bind_assoc]
  · have hgrown : grown = b := if_neg hgrow
    rw [if_neg hgrow, hgrown]
    refine .inr ⟨m, .inl rfl, ?_⟩
    simp only [map_eq_then, bind_assoc]

/-- A buffer without memory is empty. -/
theorem stores_failed (h : b.Stores s) : (if b.buf.isNone then { b with len := 0, size := 0 } else b) = b := by
  cases h with
  | null => rfl
  | block => rfl

/-- The room is made first, and what follows is the same. -/
theorem ensureSize_cases (alloc : σ → Bool × σ) (m : σ) (h : b.Stores s) (n : ℕ) :
    (∃ m', alloc m = (false, m') ∧ chulaBufferEnsureSize alloc m b n = (.nomem, b, m')) ∨
      ∃ m', (m' = m ∨ alloc m = (true, m')) ∧ chulaBufferEnsureSize alloc m b n = (.ok, b.chulaBufferEnsureSize n, m') := by
  rw [chulaBufferEnsureSize, RawBuffer.chulaBufferEnsureSize, stores_failed h]
  by_cases hfit : n ≤ b.size
  · rw [if_pos hfit, if_pos hfit]
    exact .inr ⟨m, .inl rfl, rfl⟩
  · rw [if_neg hfit, if_neg hfit]
    rcases halloc : alloc m with ⟨ok, m'⟩
    cases ok with
    | false => exact .inl ⟨m', rfl, rfl⟩
    | true => exact .inr ⟨m', .inr rfl, rfl⟩

theorem insert_mirrors (h : b.Stores s) (txt : List UInt8) (pos : ℕ) :
    Mirrors alloc m b (chulaBufferInsert alloc m b txt pos) (b.chulaBufferInsert txt pos) := by
  rw [chulaBufferInsert, RawBuffer.chulaBufferInsert]
  by_cases htxt : txt.length = 0
  · rw [if_pos htxt, if_pos htxt]
    exact mirrors_same (.ok b)
  rw [if_neg htxt, if_neg htxt]
  obtain ⟨m', halloc, hsize⟩ | ⟨m', hm', hsize⟩ := ensureSize_cases alloc m h
    (toSizeT (b.len + txt.length + 1))
  · rw [hsize]
    exact .inl ⟨m', halloc, rfl⟩
  · rw [hsize]
    refine .inr ⟨m', hm', ?_⟩
    simp only [map_eq_then, bind_assoc]

theorem retract_mirrors : Mirrors alloc m b (.ok (chulaBufferRetract alloc m b)) (.ok b.chulaBufferRetract) := by
  rw [chulaBufferRetract, RawBuffer.chulaBufferRetract]
  by_cases hempty : b.len = 0
  · rw [if_pos hempty, if_pos hempty]
    exact mirrors_same (.ok b)
  rw [if_neg hempty, if_neg hempty]
  by_cases hfit : b.size ≤ toUint32 (b.len + 1)
  · rw [if_pos hfit, if_pos hfit]
    exact mirrors_same (.ok b)
  rw [if_neg hfit, if_neg hfit]
  rcases halloc : alloc m with ⟨ok, m'⟩
  cases ok with
  | false => exact .inl ⟨m', halloc, rfl⟩
  | true => exact .inr ⟨m', .inr halloc, rfl⟩

theorem ensureSize_mirrors (h : b.Stores s) (n : ℕ) :
    Mirrors alloc m b (.ok (chulaBufferEnsureSize alloc m b n)) (.ok (b.chulaBufferEnsureSize n)) := by
  obtain ⟨m', halloc, hsize⟩ | ⟨m', hm', hsize⟩ := ensureSize_cases alloc m h n
  · exact .inl ⟨m', halloc, congrArg _ hsize⟩
  · exact .inr ⟨m', hm', congrArg _ hsize⟩

theorem ensureAddlen_mirrors (h : b.Stores s) (n : ℕ) :
    Mirrors alloc m b (.ok (chulaBufferEnsureAddlen alloc m b n)) (.ok (b.chulaBufferEnsureAddlen n)) := by
  rw [chulaBufferEnsureAddlen, RawBuffer.chulaBufferEnsureAddlen]
  by_cases hfit : toSizeT (b.len + n) < b.size
  · rw [if_pos hfit, if_pos hfit]
    exact mirrors_same (.ok b)
  · rw [if_neg hfit, if_neg hfit]
    exact ensureSize_mirrors h _

/-- The room has been made before the loop, which does not ask for memory any more. -/
theorem multiplyLoop_same (hs : s ≠ []) : ∀ (k : ℕ) (b : RawBuffer) (u : List UInt8), b.Stores (s ++ u) →
    s.length + u.length + k * s.length < b.size →
      multiplyLoop alloc s.length k m b = (RawBuffer.multiplyLoop s.length k b).map fun b' => (.ok, b', m)
  | 0, b, _, _, _ => rfl
  | k + 1, b, u, h, hfit => by
    have hlt := h.size_lt
    have hlen := h.len_eq
    rw [List.length_append] at hlen
    rw [Nat.add_mul, Nat.one_mul] at hfit
    obtain ⟨b₁, hadd, h₁, hsize⟩ := chulaBufferAdd_own h hs (by omega)
    rw [List.append_assoc] at h₁
    have hroom : toSizeT (s.length + 1) ≤ toUint32 (toInt (toUint32 (b.size - b.len))) := by
      have hle := h.len_le_size
      rw [free_eq h, toSizeT, toUint32]
      omega
    have hoom : chulaBufferAdd alloc m b .own s.length = .ok (.ok, b₁, m) := by
      rw [add_fits .own hroom, hadd]
      rfl
    rw [multiplyLoop, RawBuffer.multiplyLoop, toSizeT_cast (by omega), ok_then hadd, ok_then hoom]
    exact multiplyLoop_same hs k b₁ (u ++ s) h₁ (by rw [List.length_append]; omega)

theorem multiplyLoop_zero : ∀ (k : ℕ) (b : RawBuffer), multiplyLoop alloc 0 k m b = .ok (.ok, b, m)
  | 0, _ => rfl
  | k + 1, b => multiplyLoop_zero k b

theorem multiply_mirrors (h : b.Stores s) {num : ℤ} (hnum : 1 ≤ num) (hlt : s.length * num.toNat < 2 ^ 30) :
    Mirrors alloc m b (chulaBufferMultiply alloc m b num) (b.chulaBufferMultiply num) := by
  have hlen := h.len_eq
  have hbound := h.size_lt
  have hle := h.len_le_size
  obtain ⟨k, rfl⟩ : ∃ k : ℕ, num = k + 1 := ⟨(num - 1).toNat, by omega⟩
  have hk : ((k : ℤ) + 1).toNat = k + 1 := rfl
  rw [hk, Nat.mul_add, Nat.mul_one] at hlt
  have hask : toUint32 (b.len * ((k : ℤ) + 1) + 1) = s.length * k + s.length + 1 := by
    have hcast : (b.len : ℤ) * ((k : ℤ) + 1) + 1 = ((s.length * k + s.length + 1 : ℕ) : ℤ) := by
      rw [hlen]
      push_cast
      ring
    rw [hcast, toUint32_cast (by omega)]
  obtain ⟨h₁, hsize₁, -⟩ := h.ensureSize (n := s.length * k + s.length + 1) (by omega)
  rw [chulaBufferMultiply, RawBuffer.chulaBufferMultiply, hask, toInt_of (by omega) (by omega), hlen,
    show ((k : ℤ) + 1 - 1).toNat = k by omega]
  obtain ⟨m', halloc, hsize⟩ | ⟨m', hm', hsize⟩ := ensureSize_cases alloc m h (s.length * k + s.length + 1)
  · rw [hsize]
    exact .inl ⟨m', halloc, rfl⟩
  · rw [hsize]
    refine .inr ⟨m', hm', ?_⟩
    by_cases hs : s = []
    · subst hs
      change multiplyLoop alloc 0 k m' _ = (RawBuffer.multiplyLoop 0 k _).map _
      rw [multiplyLoop_zero, RawBuffer.multiplyLoop_zero]
      rfl
    · exact multiplyLoop_same hs k _ [] (by rwa [List.append_nil])
        (by rw [List.length_nil, Nat.add_zero, Nat.mul_comm k]; omega)

/-- **One call.** -/
theorem step_mirrors (alloc : σ → Bool × σ) (m : σ) (h : b.Stores s) {op : BufferOp} (hop : op.Within s) :
    Mirrors alloc m b (step alloc m b op) (b.step op) := by
  obtain ⟨hlt, -, hfactor⟩ := hop
  cases op with
  | add txt => exact add_mirrors _ _
  | addChar c => exact addChar_mirrors c
  | addCharN c num => exact addCharN_mirrors c num
  | prepend txt => exact prepend_mirrors txt
  | insert txt pos => exact insert_mirrors h txt pos
  | dropEnding numChars => exact mirrors_same _
  | moveToBegin pos => exact mirrors_same _
  | multiply num =>
    rw [BufferOp.apply, List.length_flatten, List.map_replicate, List.sum_replicate, smul_eq_mul, Nat.mul_comm] at hlt
    exact multiply_mirrors h hfactor hlt
  | retract => exact retract_mirrors
  | clean => exact mirrors_same _
  | ensureSize size => exact ensureSize_mirrors h size
  | ensureAddlen addlen => exact ensureAddlen_mirrors h addlen

end Mirror

/-! ### Runs -/

section Runs

variable {σ : Type} {alloc : σ → Bool × σ} {env : σ → σ → Prop} {m₀ m : σ} {b : RawBuffer}

/-- What happens in a run: a call with its code, or a step of the environment. -/
abbrev OomLog := List (Option (BufferOp × MemRet))

/-- The string of the calls that returned `ret_ok`. -/
def survivors (log : OomLog) : List UInt8 :=
  BufferOp.contents (log.filterMap fun e => e.bind fun c => if c.2 = .ok then some c.1 else none)

/-- The buffers and the states of the allocator that calls and the environment lead to; the calls stay within the lengths. -/
inductive OomRuns (alloc : σ → Bool × σ) (env : σ → σ → Prop) (m₀ : σ) : OomLog → RawBuffer → σ → Prop
  | init : OomRuns alloc env m₀ [] chulaBufInit m₀
  | call {log : OomLog} {b b' : RawBuffer} {m m' : σ} {op : BufferOp} {ret : MemRet} : OomRuns alloc env m₀ log b m →
      op.Within (survivors log) → step alloc m b op = .ok (ret, b', m') →
        OomRuns alloc env m₀ (log ++ [some (op, ret)]) b' m'
  | environment {log : OomLog} {b : RawBuffer} {m m' : σ} : OomRuns alloc env m₀ log b m → env m m' →
      OomRuns alloc env m₀ (log ++ [none]) b m'

theorem survivors_call (log : OomLog) (op : BufferOp) (ret : MemRet) :
    survivors (log ++ [some (op, ret)]) = if ret = .ok then op.apply (survivors log) else survivors log := by
  rw [survivors, List.filterMap_append]
  cases ret with
  | nomem =>
    rw [if_neg nofun]
    exact congrArg _ (List.append_nil _)
  | ok =>
    rw [if_pos rfl]
    exact BufferOp.contents_concat _ op

theorem survivors_environment (log : OomLog) : survivors (log ++ [none]) = survivors log := by
  rw [survivors, List.filterMap_append]
  exact congrArg _ (List.append_nil _)

/-- What a call comes to. -/
theorem step_cases (alloc : σ → Bool × σ) (m : σ) {s : List UInt8} (h : b.Stores s) {op : BufferOp} (hop : op.Within s) :
    (∃ m', alloc m = (false, m') ∧ step alloc m b op = .ok (.nomem, b, m')) ∨
      ∃ b' m', (m' = m ∨ alloc m = (true, m')) ∧ step alloc m b op = .ok (.ok, b', m') ∧ b'.Stores (op.apply s) := by
  obtain ⟨b', hstep, hstores, -, -⟩ := step_stored h hop
  obtain hfails | ⟨m', hm', hok⟩ := step_mirrors alloc m h hop
  · exact .inl hfails
  · exact .inr ⟨b', m', hm', by rw [hok, hstep]; rfl, hstores⟩

theorem oomRuns_stores {log : OomLog} (h : OomRuns alloc env m₀ log b m) : b.Stores (survivors log) := by
  induction h with
  | init => exact .null
  | call hrun hop hstep ih =>
    rw [survivors_call]
    obtain ⟨m', -, hfails⟩ | ⟨b', m', -, hok, hstores⟩ := step_cases _ _ ih hop
    · cases hstep.symm.trans hfails
      rwa [if_neg nofun]
    · cases hstep.symm.trans hok
      rwa [if_pos rfl]
  | environment hrun henv ih => rwa [survivors_environment]

/-- **Out of memory.**  Whatever the allocator refuses, and whenever: in every run the buffer stores the string of the calls that
returned `ret_ok`, and every further call within the lengths returns, without an access outside of the memory; it returns
`ret_nomem` only if the allocator has refused, and then the buffer is as it was. -/
theorem buffer_oom {log : OomLog} (h : OomRuns alloc env m₀ log b m) :
    b.cells.length = b.size ∧ b.len = (survivors log).length ∧ b.cells.take b.len = (survivors log).map some ∧
      ∀ op : BufferOp, op.Within (survivors log) → ∃ ret b' m', step alloc m b op = .ok (ret, b', m') ∧
        OomRuns alloc env m₀ (log ++ [some (op, ret)]) b' m' ∧ (ret = .nomem → b' = b ∧ alloc m = (false, m')) := by
  have hstores := oomRuns_stores h
  refine ⟨hstores.size_eq, hstores.len_eq, hstores.take_eq, fun op hop => ?_⟩
  obtain ⟨m', halloc, hfails⟩ | ⟨b', m', -, hok, -⟩ := step_cases alloc m hstores hop
  · exact ⟨.nomem, b, m', hfails, h.call hop hfails, fun _ => ⟨rfl, halloc⟩⟩
  · exact ⟨.ok, b', m', hok, h.call hop hok, nofun⟩

end Runs

/-- The second of three requests is refused. -/
def refusesSecond (n : ℕ) : Bool × ℕ := (n != 1, n + 1)

/-- The block behind the first call. -/
def firstBlock : RawBuffer := ⟨some (some 97 :: some 0 :: List.replicate 16 none), 18, 1⟩

/-- A string that is too long for the block is not stored, and those before it and behind it are. -/
theorem buffer_oom_second : ∃ (b : RawBuffer) (m : ℕ),
    OomRuns refusesSecond (fun m m' => m' = m) 0
        [some (.add [97], .ok), some (.add (List.replicate 20 98), .nomem), none, some (.add [100], .ok)] b m ∧
      b.len = 2 ∧ b.cells.take b.len = [some 97, some 100] := by
  have hadd : step refusesSecond 0 chulaBufInit (.add [97]) = .ok (.ok, firstBlock, 1) := by decide +kernel
  have hrefused : step refusesSecond 1 firstBlock (.add (List.replicate 20 98)) = .ok (.nomem, firstBlock, 2) := by
    decide +kernel
  have hstored : step refusesSecond 2 firstBlock (.add [100]) =
      .ok (.ok, ⟨some (some 97 :: some 100 :: some 0 :: List.replicate 15 none), 18, 2⟩, 2) := by decide +kernel
  have h : OomRuns refusesSecond (fun m m' => m' = m) 0 [some (.add [97], .ok)] firstBlock 1 :=
    OomRuns.init.call (by decide) hadd
  have hrun := ((h.call (by decide) hrefused).environment rfl).call (by decide) hstored
  obtain ⟨-, hlen, htake, -⟩ := buffer_oom hrun
  exact ⟨_, _, hrun, hlen, htake⟩

end LibHpack.Oom
