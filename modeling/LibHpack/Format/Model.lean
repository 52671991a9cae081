import LibHpack.General.Run
import LibHpack.Buffer.Model

/-!
# LibHpack.Format.Model — formatted output into a buffer (libchula buffer.c)

`chula_estimate_va_length` reads the format once, octet by octet; `estimateStep` is its reaction to one of them, in one of
three modes: outside of a conversion, behind `reswitch`, or inside of the loop that reads a width.  `len` and `width` are
`uint32_t`.

A `va_list` is the list of its slots.  `va_arg` of an `int` or an `int32_t` is the low half of a slot, whatever the type of
the argument was.
-/

namespace LibHpack

open Memory Run

/-- What stops a call: reading behind the end of the format, taking an argument that is missing or of another kind, an
access outside of the block, or the use of a `va_list` that has been consumed. -/
inductive FormatFault
  | overread
  | argument
  | access (e : Escape)
  | consumed
  deriving DecidableEq, Repr

/-- A slot of a `va_list`: 64 bits of a number, a pointer with the memory behind it, or a `double`, by what it is converted to
`uint64_t`. -/
inductive VaArg
  | num (x : ℤ)
  | str (p : Option (List UInt8))
  | double (ul : ℕ)
  deriving DecidableEq, Repr

def vaNum : List VaArg → Except FormatFault (ℤ × List VaArg)
  | .num x :: ap => .ok (x, ap)
  | _ => .error .argument

def vaStr : List VaArg → Except FormatFault (Option (List UInt8) × List VaArg)
  | .str p :: ap => .ok (p, ap)
  | _ => .error .argument

def vaDouble : List VaArg → Except FormatFault (ℕ × List VaArg)
  | .double ul :: ap => .ok (ul, ap)
  | _ => .error .argument

/-- Conversion to `long`. -/
def toLong (x : ℤ) : ℤ := x.bmod (2 ^ 64)

/-- The string that is printed: `p ? p : "(null)"`. -/
def pointed (p : Option (List UInt8)) : List UInt8 := (p.getD [40, 110, 117, 108, 108, 41]).takeWhile (· ≠ 0)

/-- The loop of `LEN_NUM`, for numbers of at most `k` digits. -/
def lenLoop (base : ℕ) : ℕ → ℕ → ℕ
  | 0, _ => 0
  | k + 1, var => if 0 < var / base then lenLoop base k (var / base) + 1 else 1

/-- `LEN_NUM`. -/
def lenNum (var base : ℕ) : ℕ := lenLoop base 64 var + 1

/-- `LEN_NUM` of a number that may be negative. -/
def lenInt (ll : ℤ) (base : ℕ) : ℕ := if ll < 0 then lenNum ll.natAbs base + 1 else lenNum ll.natAbs base

/-- Where the function is in the format. -/
inductive FormatMode
  | literal
  | reswitch (lflag llflag : Bool)
  | width (width : UInt32) (lflag llflag : Bool)
  deriving DecidableEq, Repr

/-- The variables of the loop. -/
structure EstimateState where
  mode : FormatMode
  ap : List VaArg
  len : UInt32
  deriving DecidableEq, Repr

/-- A conversion of an integer: `int32_t` with `lflag` and `int` without are the same. -/
def estimateInt (base : ℕ) (ap : List VaArg) (len : UInt32) : Except FormatFault EstimateState := do
  let (x, ap) ← vaNum ap
  .ok ⟨.literal, ap, len + .ofNat (lenInt (toInt x) base)⟩

/-- "%u". -/
def estimateUnsigned (lflag llflag : Bool) (ap : List VaArg) (len : UInt32) : Except FormatFault EstimateState := do
  let (x, ap) ← vaNum ap
  let ul := if llflag then toSizeT x else if lflag then toSizeT (toLong x) else toSizeT (toInt x)
  .ok ⟨.literal, ap, len + .ofNat (lenNum ul 10)⟩

/-- The `switch`. -/
def estimateSwitch (lflag llflag : Bool) (ap : List VaArg) (len : UInt32) (ch : UInt8) :
    Except FormatFault EstimateState :=
  if ch = 115 then do
    let (p, ap) ← vaStr ap
    .ok ⟨.literal, ap, len + .ofNat (pointed p).length⟩
  else if ch = 100 then estimateInt 10 ap len
  else if ch = 108 then
    if lflag = false then .ok ⟨.reswitch true llflag, ap, len⟩ else .ok ⟨.reswitch lflag true, ap, len⟩
  else if ch = 117 then estimateUnsigned lflag llflag ap len
  else if ch = 48 then .ok ⟨.reswitch lflag llflag, ap, len⟩
  else if 49 ≤ ch ∧ ch ≤ 57 then .ok ⟨.width (ch.toUInt32 - 48) lflag llflag, ap, len⟩
  else if ch = 99 then do
    let (_, ap) ← vaNum ap
    .ok ⟨.literal, ap, len + 1⟩
  else if ch = 111 then estimateInt 8 ap len
  else if ch = 102 then do
    let (ul, ap) ← vaDouble ap
    .ok ⟨.literal, ap, len + 30 + .ofNat (lenNum ul 10)⟩
  else if ch = 112 then estimateInt 16 ap (len + 2)
  else if ch = 120 then estimateInt 16 ap len
  else if ch = 37 then .ok ⟨.literal, ap, len + 1 + 2⟩
  else .ok ⟨.literal, ap, len + 2⟩

/-- One octet of the format. -/
def estimateStep (st : EstimateState) (ch : UInt8) : Except FormatFault EstimateState :=
  match st.mode with
  | .literal =>
    if ch = 37 then .ok ⟨.reswitch false false, st.ap, st.len⟩ else .ok ⟨.literal, st.ap, st.len + 1⟩
  | .reswitch lflag llflag => estimateSwitch lflag llflag st.ap st.len ch
  | .width width lflag llflag =>
    if 48 ≤ ch ∧ ch ≤ 57 then .ok ⟨.width (width * 10 + ch.toUInt32 - 48) lflag llflag, st.ap, st.len⟩
    else estimateSwitch lflag llflag st.ap (st.len + width) ch

/-- `chula_estimate_va_length`; a NUL inside of a conversion is taken by the `switch`, and the loop reads on behind it. -/
def chulaEstimateVaLength (fmt : List UInt8) (ap : List VaArg) : Except FormatFault ℤ := do
  let st ← run estimateStep ⟨.literal, ap, 0⟩ (fmt.takeWhile (· ≠ 0))
  if st.mode = .literal then .ok (toInt (st.len + 1).toNat) else .error .overread

/-- What `vsnprintf` returns, where `text` is what the format and the arguments come to. -/
def vsnprintfLen (text : List UInt8) : ℤ := if text.length < 2 ^ 31 then text.length else -1

/-- "Format the string into the buffer".  The second `vsnprintf` gets the `va_list` that the first one has consumed. -/
def formatInto (buf : RawBuffer) (text : List UInt8) : Except FormatFault (Ret × RawBuffer) :=
  let size := toInt (buf.size - buf.len)
  if size < 1 then .ok (.error, buf)
  else do
    let m ← (store buf.cells buf.len ((text.take (size.toNat - 1)).map some ++ [some 0])).mapError .access
    let buf := { buf with buf := some m }
    let len := vsnprintfLen text
    if len < 0 then .ok (.error, buf)
    else if size ≤ len then .error .consumed
    else .ok (.ok, { buf with len := toUint32 (buf.len + len) })

/-- `chula_buffer_add_va_list`. -/
def chulaBufferAddVaList (buf : RawBuffer) (format : List UInt8) (args : List VaArg) (text : List UInt8) :
    Except FormatFault (Ret × RawBuffer) := do
  let estimation ← chulaEstimateVaLength format args
  if estimation < 0 then .ok (.error, buf)
  else formatInto (buf.chulaBufferEnsureSize (toUint32 (buf.len + estimation + 2))) text

end LibHpack
