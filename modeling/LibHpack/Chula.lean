import Mathlib.Data.List.Basic
import Mathlib.Data.Int.Notation

/-!
# LibHpack.Chula — return codes, faults and buffers (libchula common.h, buffer.c)

`Ret` is `ret_t`.  A C call either returns or faults: `Fault.overread` is a read of memory outside of the object that
is read, `Fault.hang` a loop that never ends.

`ChulaBuffer` is `chula_buffer_t` as the HPACK code sees it: either the null pointer with length 0, or allocated
memory holding a byte string.  Memory sizes are not part of it: allocation always succeeds here.
-/

namespace LibHpack

/-- `ret_t`. -/
inductive Ret
  | deny
  | error
  | ok
  | eof
  | notFound
  | eagain
  deriving DecidableEq, Repr

/-- The integer behind the enumerator. -/
def Ret.code : Ret → ℤ
  | .deny => -2
  | .error => -1
  | .ok => 0
  | .eof => 1
  | .notFound => 3
  | .eagain => 5

theorem ok_ne_eof : Ret.ok ≠ .eof := nofun

theorem error_ne_eof : Ret.error ≠ .eof := nofun

/-- What can stop a call from returning. -/
inductive Fault
  | overread
  | hang
  deriving DecidableEq, Repr

/-- The outcome of a C call. -/
abbrev C (α : Type) := Except Fault α

@[simp] theorem ok_bind {α β : Type} (a : α) (f : α → C β) : ((Except.ok a : C α) >>= f) = f a := rfl

@[simp] theorem error_bind {α β : Type} (e : Fault) (f : α → C β) : ((Except.error e : C α) >>= f) = .error e := rfl

theorem pure_ne_error {α : Type} (a : α) (e : Fault) : (pure a : C α) ≠ .error e := nofun

/-- The two halves of a sequence that returns. -/
theorem bind_eq_ok {α β : Type} {x : C α} {f : α → C β} {b : β} (h : (x >>= f) = .ok b) :
    ∃ a, x = .ok a ∧ f a = .ok b := by
  cases x with
  | error e => simp at h
  | ok a => exact ⟨a, rfl, h⟩

/-- A sequence that faults does so in one of its halves. -/
theorem bind_eq_error {α β : Type} {x : C α} {f : α → C β} {e : Fault} (h : (x >>= f) = .error e) :
    x = .error e ∨ ∃ a, x = .ok a ∧ f a = .error e := by
  cases x with
  | error e' => exact .inl (by simpa using h)
  | ok a => exact .inr ⟨a, rfl, h⟩

/-- When the second half does not fault so, the first one does. -/
theorem bind_eq_error_iff {α β : Type} {x : C α} {f : α → C β} {e : Fault} (hf : ∀ a, f a ≠ .error e) :
    (x >>= f) = .error e ↔ x = .error e := by
  refine ⟨fun h => ?_, fun h => by rw [h, error_bind]⟩
  rcases bind_eq_error h with h | ⟨a, -, h⟩
  · exact h
  · exact absurd h (hf a)

theorem bind_ne_error {α β : Type} {x : C α} {f : α → C β} {e : Fault} (hx : x ≠ .error e) (hf : ∀ a, f a ≠ .error e) :
    (x >>= f) ≠ .error e := fun h => by
  rcases bind_eq_error h with h | ⟨a, -, h⟩
  · exact hx h
  · exact hf a h

/-- Whether a call returns something with a property can be computed. -/
instance decidableReturns {α : Type} (x : C α) (P : α → Prop) [DecidablePred P] :
    Decidable (∃ a, x = .ok a ∧ P a) :=
  match x with
  | .error _ => .isFalse fun ⟨_, h, _⟩ => nomatch h
  | .ok a => decidable_of_iff (P a) ⟨fun h => ⟨a, rfl, h⟩, fun ⟨_, h1, h2⟩ => Except.ok.inj h1 ▸ h2⟩

/-- So can whether all that it returns has a property. -/
instance decidableAllReturned {α : Type} (x : C α) (P : α → Prop) [DecidablePred P] : Decidable (∀ a, x = .ok a → P a) :=
  match x with
  | .error _ => .isTrue nofun
  | .ok a => decidable_of_iff (P a) ⟨fun h _ heq => Except.ok.inj heq ▸ h, fun h => h a rfl⟩

instance decidableAllOk {α β : Type} (x : C (Ret × α × β)) (P : α → β → Prop) [∀ a b, Decidable (P a b)] :
    Decidable (∀ a b, x = .ok (.ok, a, b) → P a b) :=
  match x with
  | .error _ => .isTrue nofun
  | .ok (ret, a, b) => decidable_of_iff (ret = .ok → P a b)
      ⟨fun h _ _ heq => by cases heq; exact h rfl, fun h hret => h a b (hret ▸ rfl)⟩

/-- A call returns one thing only. -/
theorem of_returns {α : Type} {x : C α} {P : α → Prop} {a : α} (h : ∃ b, x = .ok b ∧ P b) (ha : x = .ok a) : P a :=
  let ⟨_, h1, h2⟩ := h
  Except.ok.inj (h1.symm.trans ha) ▸ h2

/-- Whether it faults can be computed too. -/
instance decidableFaults {α : Type} (x : C α) (e : Fault) : Decidable (x = .error e) :=
  match x with
  | .ok _ => .isFalse nofun
  | .error e' => decidable_of_iff (e' = e) ⟨congrArg Except.error, Except.error.inj⟩

/-- Read `n` octets at `pos` of an array of `size` octets. -/
def memRead (mem : ℕ → UInt8) (size pos n : ℕ) : C (List UInt8) :=
  if pos + n ≤ size then .ok ((List.range n).map fun i => mem (pos + i)) else .error .overread

/-- `chula_buffer_t`: `none` is the null pointer. -/
structure ChulaBuffer where
  buf : Option (List UInt8)
  deriving DecidableEq, Repr

namespace ChulaBuffer

/-- The octets of the string. -/
def bytes (b : ChulaBuffer) : List UInt8 := b.buf.getD []

def len (b : ChulaBuffer) : ℕ := b.bytes.length

end ChulaBuffer

/-- `CHULA_BUF_INIT`. -/
def chulaBufferInit : ChulaBuffer := ⟨none⟩

/-- `CHULA_BUF_INIT_FAKE`: a buffer over a string constant. -/
def chulaBufferFake (s : List UInt8) : ChulaBuffer := ⟨some s⟩

def chulaBufferIsEmpty (b : ChulaBuffer) : Bool := b.len == 0

/-- The memory is kept: only a null pointer stays one. -/
def chulaBufferClean (b : ChulaBuffer) : ChulaBuffer := ⟨b.buf.map fun _ => []⟩

def chulaBufferAdd (b : ChulaBuffer) (txt : List UInt8) : ChulaBuffer :=
  if txt.length = 0 then b else ⟨some (b.bytes ++ txt)⟩

def chulaBufferAddBuffer (b b2 : ChulaBuffer) : ChulaBuffer := chulaBufferAdd b b2.bytes

def chulaBufferAddChar (b : ChulaBuffer) (c : UInt8) : ChulaBuffer := ⟨some (b.bytes ++ [c])⟩

/-- `chula_buffer_ensure_addlen`, `chula_buffer_ensure_size`: afterwards there is memory. -/
def chulaBufferEnsure (b : ChulaBuffer) : ChulaBuffer := ⟨some b.bytes⟩

section Lemmas

variable (b b2 : ChulaBuffer) (txt : List UInt8) (c : UInt8)

@[simp] theorem chulaBufferInit_bytes : chulaBufferInit.bytes = [] := rfl

@[simp] theorem chulaBufferFake_bytes : (chulaBufferFake txt).bytes = txt := rfl

@[simp] theorem chulaBufferClean_bytes : (chulaBufferClean b).bytes = [] := by
  cases b with | mk buf => cases buf <;> rfl

@[simp] theorem chulaBufferAdd_bytes : (chulaBufferAdd b txt).bytes = b.bytes ++ txt := by
  unfold chulaBufferAdd
  split_ifs with h
  · rw [List.length_eq_zero_iff.mp h, List.append_nil]
  · rfl

@[simp] theorem chulaBufferAddBuffer_bytes : (chulaBufferAddBuffer b b2).bytes = b.bytes ++ b2.bytes :=
  chulaBufferAdd_bytes b b2.bytes

@[simp] theorem chulaBufferAddChar_bytes : (chulaBufferAddChar b c).bytes = b.bytes ++ [c] := rfl

@[simp] theorem chulaBufferEnsure_bytes : (chulaBufferEnsure b).bytes = b.bytes := rfl

theorem chulaBufferIsEmpty_iff : chulaBufferIsEmpty b = true ↔ b.bytes = [] := by
  simp [chulaBufferIsEmpty, ChulaBuffer.len]

/-- Appending something allocates. -/
theorem chulaBufferAdd_isSome (h : txt ≠ []) : (chulaBufferAdd b txt).buf.isSome := by
  have h0 : txt.length ≠ 0 := fun h0 => h (List.length_eq_zero_iff.mp h0)
  simp [chulaBufferAdd, h0]

end Lemmas

/-- A property of octets is one of 256 cases. -/
theorem forall_octet {P : UInt8 → Prop} (h : ∀ n < 256, P (UInt8.ofNat n)) (c : UInt8) : P c := by
  have hc := h c.toNat c.toNat_lt
  rwa [UInt8.ofNat_toNat] at hc

/-- The octets of an ASCII string constant. -/
def ascii (s : String) : List UInt8 := s.toList.map fun c => UInt8.ofNat c.toNat

end LibHpack
