import Mathlib.Tactic
import LibHpack.General.Memory
import LibHpack.Chula

/-!
# LibHpack.Buffer.Model — the memory of a buffer (libchula buffer.c)

`RawBuffer` is `chula_buffer_t` with the memory that it points to.  Every access of a function is an access to that
block, so a function that leaves it ends in an `Escape`; whether the block agrees with the fields `size` and `len` is
for the proofs to find.  The arithmetic is that of the source: `uint32_t`, `int` and `size_t` (64 bits) with the
conversions between them.  Allocation always succeeds, and what it returns has not been written to.
-/

namespace LibHpack

open Memory

/-- Conversion to `uint32_t`. -/
def toUint32 (x : ℤ) : ℕ := (x % 2 ^ 32).toNat

/-- Conversion to `size_t`. -/
def toSizeT (x : ℤ) : ℕ := (x % 2 ^ 64).toNat

/-- Conversion to `int`. -/
def toInt (x : ℤ) : ℤ := x.bmod (2 ^ 32)

/-- `chula_buffer_t`. -/
structure RawBuffer where
  buf : Option (Block UInt8)
  size : ℕ
  len : ℕ
  deriving DecidableEq, Repr

/-- Where the text of a call lies: outside of the buffer, or at the beginning of the buffer itself. -/
inductive Text
  | outside (octets : List UInt8)
  | own
  deriving DecidableEq, Repr

namespace RawBuffer

/-- The octets behind `buf->buf`; behind the null pointer there are none. -/
def cells (b : RawBuffer) : Block UInt8 := b.buf.getD []

/-- `CHULA_BUF_INIT`. -/
def chulaBufInit : RawBuffer := ⟨none, 0, 0⟩

/-- `buf->buf[i] = c`. -/
def put (b : RawBuffer) (i : ℕ) (c : UInt8) : Except Escape RawBuffer := do
  let m ← store b.cells i [some c]
  return { b with buf := some m }

/-- `memcpy (buf->buf + i, txt, n)`, and `memset` as the text of equal octets. -/
def copyIn (b : RawBuffer) (i : ℕ) (txt : List (Option UInt8)) : Except Escape RawBuffer := do
  let m ← store b.cells i txt
  return { b with buf := some m }

/-- `memmove (buf->buf + dst, buf->buf + src, n)`. -/
def moveIn (b : RawBuffer) (dst src n : ℕ) : Except Escape RawBuffer := do
  let m ← move b.cells dst src n
  return { b with buf := some m }

/-- `realloc (buf->buf, newsize)`, with what is then stored as the size. -/
def realloc (b : RawBuffer) (newsize : ℕ) (size : ℤ) : RawBuffer :=
  { b with buf := some (resize b.cells newsize), size := toUint32 size }

/-- `realloc_inc_bufsize`; `REALLOC_EXTRA_SIZE` is 16. -/
def reallocIncBufsize (b : RawBuffer) (incsize : ℕ) : RawBuffer :=
  let newsize := toSizeT (b.size + incsize + 16 + 1)
  b.realloc newsize (toInt newsize)

/-- The text of a call, when it is copied.  A buffer that has been allocated anew has left its own text behind. -/
def textCells (b : RawBuffer) (grown : Bool) (size : ℕ) : Text → Except Escape (List (Option UInt8))
  | .outside octets => .ok ((octets.take size).map some)
  | .own => if grown then .error ⟨size, 0⟩ else load b.cells 0 size

/-- `chula_buffer_add`. -/
def chulaBufferAdd (b : RawBuffer) (txt : Text) (size : ℕ) : Except Escape RawBuffer :=
  if size = 0 then .ok b
  else do
    let available := toInt (toUint32 (b.size - b.len))
    let grow : Bool := toUint32 available < toSizeT (size + 1)
    let b := if grow then b.reallocIncBufsize (toSizeT (size - available)) else b
    let octets ← b.textCells grow size txt
    let b ← b.copyIn b.len octets
    let b := { b with len := toUint32 (b.len + size) }
    b.put b.len 0

/-- `buf->buf[buf->len++] = c`, and the NUL behind it. -/
def putChar (b : RawBuffer) (c : UInt8) : Except Escape RawBuffer := do
  let b ← b.put b.len c
  let b := { b with len := toUint32 (b.len + 1) }
  b.put b.len 0

/-- `chula_buffer_add_char`. -/
def chulaBufferAddChar (b : RawBuffer) (c : UInt8) : Except Escape RawBuffer :=
  if toUint32 (b.len + 1) < b.size then b.putChar c
  else (b.reallocIncBufsize 1).putChar c

/-- `chula_buffer_add_char_n`. -/
def chulaBufferAddCharN (b : RawBuffer) (c : UInt8) (num : ℤ) : Except Escape RawBuffer :=
  let free := toInt (toUint32 (b.size - b.len))
  if num ≤ 0 then .ok b
  else do
    let b := if free < toInt (num + 1) then b.reallocIncBufsize (toSizeT (toInt (num - free))) else b
    let b ← b.copyIn b.len (List.replicate (toSizeT num) (some c))
    let b := { b with len := toUint32 (b.len + num) }
    b.put b.len 0

/-- `chula_buffer_prepend`. -/
def chulaBufferPrepend (b : RawBuffer) (txt : List UInt8) : Except Escape RawBuffer :=
  let free := toInt (toUint32 (b.size - b.len))
  if txt.length = 0 then .ok b
  else do
    let b := if toUint32 free < toSizeT (txt.length + 1) then b.reallocIncBufsize (toSizeT (txt.length - free)) else b
    let b ← b.moveIn txt.length 0 b.len
    let b ← b.copyIn 0 (txt.map some)
    let b := { b with len := toUint32 (b.len + txt.length) }
    b.put b.len 0

/-- `chula_buffer_clean`. -/
def chulaBufferClean (b : RawBuffer) : Except Escape RawBuffer := do
  let b ← if b.buf.isSome then b.put 0 0 else .ok b
  return { b with len := 0 }

/-- `chula_buffer_move_to_begin`. -/
def chulaBufferMoveToBegin (b : RawBuffer) (pos : ℕ) : Except Escape RawBuffer :=
  if pos = 0 then .ok b
  else if b.len ≤ pos then b.chulaBufferClean
  else do
    let b ← b.moveIn 0 pos (toUint32 (toUint32 (b.len - pos) + 1))
    return { b with len := toUint32 (b.len - pos) }

/-- `chula_buffer_ensure_size`; `malloc` is `realloc` of the null pointer. -/
def chulaBufferEnsureSize (b : RawBuffer) (size : ℕ) : RawBuffer :=
  if size ≤ b.size then b else b.realloc size size

/-- `chula_buffer_ensure_addlen`. -/
def chulaBufferEnsureAddlen (b : RawBuffer) (addlen : ℕ) : RawBuffer :=
  if toSizeT (b.len + addlen) < b.size then b else b.chulaBufferEnsureSize (toSizeT (b.len + addlen + 1))

/-- `chula_buffer_retract`. -/
def chulaBufferRetract (b : RawBuffer) : RawBuffer :=
  if b.len = 0 then b
  else if b.size ≤ toUint32 (b.len + 1) then b
  else b.realloc (toUint32 (b.len + 1)) (b.len + 1)

/-- `chula_buffer_drop_ending`. -/
def chulaBufferDropEnding (b : RawBuffer) (numChars : ℕ) : Except Escape RawBuffer :=
  if b.buf.isNone then .ok b
  else do
    let num := toInt (min numChars b.len)
    let b ← b.put (toUint32 (b.len - num)) 0
    return { b with len := toUint32 (b.len - num) }

/-- The loop of `chula_buffer_multiply`, with `num - i` turns to go. -/
def multiplyLoop (initialSize : ℤ) : ℕ → RawBuffer → Except Escape RawBuffer
  | 0, b => .ok b
  | k + 1, b => do
    let b ← b.chulaBufferAdd .own (toSizeT initialSize)
    multiplyLoop initialSize k b

/-- `chula_buffer_multiply`. -/
def chulaBufferMultiply (b : RawBuffer) (num : ℤ) : Except Escape RawBuffer :=
  let initialSize := toInt b.len
  let b := b.chulaBufferEnsureSize (toUint32 (b.len * num + 1))
  multiplyLoop initialSize (num - 1).toNat b

/-- `chula_buffer_insert`; the null pointer is a text of no octets. -/
def chulaBufferInsert (b : RawBuffer) (txt : List UInt8) (pos : ℕ) : Except Escape RawBuffer :=
  if txt.length = 0 then .ok b
  else do
    let b := b.chulaBufferEnsureSize (toSizeT (b.len + txt.length + 1))
    let posn := min pos b.len
    let b ← b.moveIn (toSizeT (posn + txt.length)) posn (toSizeT (b.len - posn))
    let b ← b.copyIn posn (txt.map some)
    let b := { b with len := toUint32 (b.len + txt.length) }
    b.put b.len 0

end RawBuffer

end LibHpack
