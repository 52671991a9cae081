import LibHpack.General.Writes
import LibHpack.Buffer.Model

/-!
# LibHpack.Uri.Model — escaping and unescaping of URIs (libchula buffer.c)

The string that is escaped is only read, so it is the list of its octets, with the NUL behind it; a pointer into it is
what is left of the list.  The string that is unescaped is read and written in the same block.
-/

namespace LibHpack

open Memory

/-- `utf8_get_next_char`: the distance to the next character. -/
def utf8GetNextChar (string : List UInt8) : ℕ :=
  let octet i := string.getD i 0
  if octet 0 &&& 0xE0 = 0xC0 then
    if octet 1 = 0 then 1 else 2
  else if octet 0 &&& 0xF0 = 0xE0 then
    if octet 1 = 0 then 1 else if octet 2 = 0 then 2 else 3
  else if octet 0 &&& 0xF8 = 0xF0 then
    if octet 1 = 0 then 1 else if octet 2 = 0 then 2 else if octet 3 = 0 then 3 else 4
  else 1

theorem utf8GetNextChar_pos (string : List UInt8) : 0 < utf8GetNextChar string := by
  unfold utf8GetNextChar
  dsimp only
  split_ifs <;> decide

/-- `is_char_escaped[c >> 5] & (1 << (c & 0x1f))`. -/
def isCharEscaped (table : List ℕ) (c : UInt8) : Bool := (table.getD (c >>> 5).toNat 0).testBit (c &&& 0x1f).toNat

/-- `hex_chars`. -/
def hexChars (x : UInt8) : UInt8 := if x < 10 then 48 + x else 87 + x

/-- The first loop: how many characters have to be escaped. -/
def countEscapes (table : List ℕ) : List UInt8 → ℕ
  | [] => 0
  | c :: s =>
    let n := utf8GetNextChar (c :: s)
    let rest := countEscapes table ((c :: s).drop n)
    if n = 1 ∧ isCharEscaped table c then rest + 1 else rest
termination_by s => s.length
decreasing_by
  have := utf8GetNextChar_pos (c :: s)
  simp only [List.length_drop, List.length_cons]
  omega

/-- `while (s < s_next) *t++ = *s++`. -/
def copyChar : List UInt8 → Memory.Block UInt8 → ℕ → Except Escape (Memory.Block UInt8 × ℕ)
  | [], m, t => .ok (m, t)
  | c :: char, m, t => do
    let m ← store m t [some c]
    copyChar char m (t + 1)

/-- `*t++ = '%'; *t++ = hex_chars[c >> 4]; *t++ = hex_chars[c & 0xf]`. -/
def writeEscape (c : UInt8) (m : Memory.Block UInt8) (t : ℕ) : Except Escape (Memory.Block UInt8 × ℕ) := do
  let m ← store m t [some 37]
  let m ← store m (t + 1) [some (hexChars (c >>> 4))]
  let m ← store m (t + 2) [some (hexChars (c &&& 0xf))]
  .ok (m, t + 3)

/-- The second loop. -/
def convertLoop (table : List ℕ) : List UInt8 → Memory.Block UInt8 → ℕ → Except Escape (Memory.Block UInt8 × ℕ)
  | [], m, t => .ok (m, t)
  | c :: s, m, t => do
    let n := utf8GetNextChar (c :: s)
    let (m, t) ← if 1 < n then copyChar ((c :: s).take n) m t
      else if isCharEscaped table c then writeEscape c m t
      else copyChar [c] m t
    convertLoop table ((c :: s).drop n) m t
termination_by s => s.length
decreasing_by
  have := utf8GetNextChar_pos (c :: s)
  simp only [List.length_drop, List.length_cons]
  omega

/-- The memory that `escape_with_table` asks for. -/
def escapeRoom (table : List ℕ) (src : List UInt8) : ℕ := toUint32 (src.length + countEscapes table src * 3)

/-- What `escape_with_table` writes: the buffer with the new octets in its block, and the position behind them. -/
def writeEscaped (table : List ℕ) (buffer : RawBuffer) (src : List UInt8) : Except Escape (RawBuffer × ℕ) := do
  let buffer := buffer.chulaBufferEnsureAddlen (escapeRoom table src)
  let (m, t) ← convertLoop table src buffer.cells buffer.len
  .ok ({ buffer with buf := some m }, t)

/-- `escape_with_table`. -/
def escapeWithTable (table : List ℕ) (buffer : RawBuffer) (src : List UInt8) : Except Escape RawBuffer :=
  if src.length = 0 then .ok buffer
  else do
    let (buffer, t) ← writeEscaped table buffer src
    let buffer ← buffer.put t 0
    return { buffer with len := toUint32 (buffer.len + (src.length + countEscapes table src * 2)) }

/-- The functions that escape. -/
inductive UriEscape
  | uri
  | uriDelims
  | arg
  deriving DecidableEq, Repr

/-- `escape_uri`, that of the delimiters and `escape_arg`. -/
def UriEscape.table : UriEscape → List ℕ
  | uri => [0xffffffff, 0x80000029, 0x00000000, 0x80000000, 0xffffffff, 0xffffffff, 0xffffffff, 0xffffffff]
  | uriDelims => [0xffffffff, 0x84000029, 0x28000001, 0x80000000, 0xffffffff, 0xffffffff, 0xffffffff, 0xffffffff]
  | arg => [0xffffffff, 0x88000869, 0x00000000, 0x80000000, 0xffffffff, 0xffffffff, 0xffffffff, 0xffffffff]

/-- `chula_buffer_escape_uri`. -/
def chulaBufferEscapeUri : RawBuffer → List UInt8 → Except Escape RawBuffer := escapeWithTable UriEscape.uri.table

/-- `chula_buffer_escape_uri_delims`. -/
def chulaBufferEscapeUriDelims : RawBuffer → List UInt8 → Except Escape RawBuffer := escapeWithTable UriEscape.uriDelims.table

/-- `chula_buffer_escape_arg`. -/
def chulaBufferEscapeArg : RawBuffer → List UInt8 → Except Escape RawBuffer := escapeWithTable UriEscape.arg.table

def UriEscape.call : UriEscape → RawBuffer → List UInt8 → Except Escape RawBuffer
  | uri => chulaBufferEscapeUri
  | uriDelims => chulaBufferEscapeUriDelims
  | arg => chulaBufferEscapeArg

/-! ### Unescaping -/

/-- What stops a call: an access outside of the block, or an `int` that overflows. -/
inductive UriFault
  | access (e : Escape)
  | overflow
  deriving DecidableEq, Repr

/-- `isxdigit`, of a `char`. -/
def isxdigit (c : UInt8) : Bool := (48 ≤ c && c ≤ 57) || (65 ≤ c && c ≤ 70) || (97 ≤ c && c ≤ 102)

/-- `hex2dec_tab`. -/
def hex2decTab (c : UInt8) : UInt8 :=
  if 48 ≤ c ∧ c ≤ 57 then c - 48 else if 65 ≤ c ∧ c ≤ 70 then c - 55 else if 97 ≤ c ∧ c ≤ 102 then c - 87 else 0

/-- `(uint8_t) hex2dec_m2(c1, c2)`. -/
def hex2decM2 (c1 c2 : UInt8) : UInt8 := hex2decTab c1 * 16 + hex2decTab c2

def readOctet (m : Memory.Block UInt8) (i : ℕ) : Except UriFault UInt8 := (read m i).mapError .access

def storeOctet (m : Memory.Block UInt8) (i : ℕ) (c : UInt8) : Except UriFault (Memory.Block UInt8) :=
  (store m i [some c]).mapError .access

/-- The octet that is escaped at `psrc`, where an escape sequence is. -/
def escapedOctet (m : Memory.Block UInt8) (psrc : ℕ) : Except UriFault (Option UInt8) := do
  let c ← readOctet m psrc
  if c ≠ 37 then .ok none
  else do
    let c1 ← readOctet m (psrc + 1)
    if !isxdigit c1 then .ok none
    else do
      let c2 ← readOctet m (psrc + 2)
      if !isxdigit c2 then .ok none else .ok (some (hex2decM2 c1 c2))

/-- `*ptgt = v`; "%00" becomes a space. -/
def writeUnescaped (m : Memory.Block UInt8) (ptgt : ℕ) (v : UInt8) : Except UriFault (Memory.Block UInt8) := do
  let m ← storeOctet m ptgt v
  if v = 0 then storeOctet m ptgt 32 else .ok m

/-- `len -= 2`. -/
def takeTwo (len : ℤ) : Except UriFault ℤ := if len - 2 < -2 ^ 31 then .error .overflow else .ok (len - 2)

/-- The loop of `chula_buffer_unescape_uri`, with at most `k` cells from `psrc` on. -/
def unescapeLoop : ℕ → Memory.Block UInt8 → ℕ → ℕ → ℤ → Except UriFault (Memory.Block UInt8 × ℕ × ℤ)
  | 0, m, psrc, _, _ => .error (.access ⟨psrc + 1, m.length⟩)
  | k + 1, m, psrc, ptgt, len => do
    let c ← readOctet m psrc
    if c = 0 then .ok (m, ptgt, len)
    else do
      let escaped ← escapedOctet m psrc
      match escaped with
      | none => do
        let m ← storeOctet m ptgt c
        unescapeLoop k m (psrc + 1) (ptgt + 1) len
      | some v => do
        let m ← writeUnescaped m ptgt v
        let len ← takeTwo len
        unescapeLoop k m (psrc + 3) (ptgt + 1) len

/-- `strchr`, from `i` on, with at most `k` cells there. -/
def strchr (m : Memory.Block UInt8) (c : UInt8) : ℕ → ℕ → Except UriFault (Option ℕ)
  | 0, i => .error (.access ⟨i + 1, m.length⟩)
  | k + 1, i => do
    let d ← readOctet m i
    if d = c then .ok (some i) else if d = 0 then .ok none else strchr m c k (i + 1)

/-- `chula_buffer_unescape_uri`. -/
def chulaBufferUnescapeUri (buffer : RawBuffer) : Except UriFault RawBuffer :=
  if buffer.len = 0 then .ok buffer
  else do
    let c ← readOctet buffer.cells buffer.len
    let m ← if c ≠ 0 then storeOctet buffer.cells buffer.len 0 else .ok buffer.cells
    let psrc ← strchr m 37 m.length 0
    match psrc with
    | none => .ok { buffer with buf := some m }
    | some psrc => do
      let (m, ptgt, len) ← unescapeLoop (m.length - psrc) m psrc psrc (toInt buffer.len)
      let m ← storeOctet m ptgt 0
      return { buffer with buf := some m, len := toUint32 len }

end LibHpack
