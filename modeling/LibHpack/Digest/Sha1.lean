import LibHpack.General.Octets
import LibHpack.General.Streaming

/-!
# LibHpack.Digest.Sha1 — the SHA-1 message digest (libchula sha1.c)

`ULONG` has 64 bits, so every word of 32 bits stands in a wider one, and `T32` cuts off what has run over.  The machine is
little-endian: a word is read as eight octets at once, the last of them from behind the data, and its four low octets are
swapped.  `UNRAVEL` is defined, so the body of `sha_transform` is the list of its 80 macro invocations.
-/

namespace LibHpack

open Memory Run Streaming

def T32 (x : UInt64) : UInt64 := x &&& 0xffffffff

def R32 (x n : UInt64) : UInt64 := T32 ((x <<< n) ||| (x >>> (32 - n)))

inductive ShaF
  | f1 | f2 | f3 | f4
  deriving DecidableEq, Repr

/-- `f1` to `f4`. -/
def ShaF.eval (f : ShaF) (x y z : UInt64) : UInt64 :=
  match f with
  | .f1 => (x &&& y) ||| (~~~x &&& z)
  | .f2 => x ^^^ y ^^^ z
  | .f3 => (x &&& y) ||| (x &&& z) ||| (y &&& z)
  | .f4 => x ^^^ y ^^^ z

/-- `CONST1` to `CONST4`. -/
def ShaF.const : ShaF → UInt64
  | .f1 => 0x5a827999
  | .f2 => 0x6ed9eba1
  | .f3 => 0x8f1bbcdc
  | .f4 => 0xca62c1d6

/-- The variables of `sha_transform`. -/
structure ShaRegs where
  t : UInt64
  a : UInt64
  b : UInt64
  c : UInt64
  d : UInt64
  e : UInt64
  deriving DecidableEq, Repr

inductive ShaReg
  | t | a | b | c | d | e
  deriving DecidableEq, Repr

namespace ShaRegs

def get (v : ShaRegs) : ShaReg → UInt64
  | .t => v.t
  | .a => v.a
  | .b => v.b
  | .c => v.c
  | .d => v.d
  | .e => v.e

def set (v : ShaRegs) (r : ShaReg) (x : UInt64) : ShaRegs :=
  match r with
  | .t => { v with t := x }
  | .a => { v with a := x }
  | .b => { v with b := x }
  | .c => { v with c := x }
  | .d => { v with d := x }
  | .e => { v with e := x }

end ShaRegs

inductive ShaMacro
  | fa | fb | fc | fd | fe | ft
  deriving DecidableEq, Repr

/-- The variable that the macro sets, and the five that it reads. -/
def ShaMacro.names : ShaMacro → ShaReg × ShaReg × ShaReg × ShaReg × ShaReg × ShaReg
  | .fa => (.t, .a, .b, .c, .d, .e)
  | .fb => (.e, .t, .a, .b, .c, .d)
  | .fc => (.d, .e, .t, .a, .b, .c)
  | .fd => (.c, .d, .e, .t, .a, .b)
  | .fe => (.b, .c, .d, .e, .t, .a)
  | .ft => (.a, .b, .c, .d, .e, .t)

/-- `FA (n)` to `FT (n)`, with `*WP`. -/
def shaMacro (v : ShaRegs) (m : (ShaMacro × ShaF) × UInt64) : ShaRegs :=
  let ((macroName, f), w) := m
  let (dst, p, q, r, s, u) := macroName.names
  let v := v.set dst (T32 (R32 (v.get p) 5 + f.eval (v.get q) (v.get r) (v.get s) + v.get u + w + f.const))
  v.set q (R32 (v.get q) 30)

/-- The body of `sha_transform`. -/
def shaMacros : List (ShaMacro × ShaF) :=
  [ (.fa, .f1), (.fb, .f1), (.fc, .f1), (.fd, .f1), (.fe, .f1), (.ft, .f1), (.fa, .f1), (.fb, .f1),
    (.fc, .f1), (.fd, .f1), (.fe, .f1), (.ft, .f1), (.fa, .f1), (.fb, .f1), (.fc, .f1), (.fd, .f1),
    (.fe, .f1), (.ft, .f1), (.fa, .f1), (.fb, .f1), (.fc, .f2), (.fd, .f2), (.fe, .f2), (.ft, .f2),
    (.fa, .f2), (.fb, .f2), (.fc, .f2), (.fd, .f2), (.fe, .f2), (.ft, .f2), (.fa, .f2), (.fb, .f2),
    (.fc, .f2), (.fd, .f2), (.fe, .f2), (.ft, .f2), (.fa, .f2), (.fb, .f2), (.fc, .f2), (.fd, .f2),
    (.fe, .f3), (.ft, .f3), (.fa, .f3), (.fb, .f3), (.fc, .f3), (.fd, .f3), (.fe, .f3), (.ft, .f3),
    (.fa, .f3), (.fb, .f3), (.fc, .f3), (.fd, .f3), (.fe, .f3), (.ft, .f3), (.fa, .f3), (.fb, .f3),
    (.fc, .f3), (.fd, .f3), (.fe, .f3), (.ft, .f3), (.fa, .f4), (.fb, .f4), (.fc, .f4), (.fd, .f4),
    (.fe, .f4), (.ft, .f4), (.fa, .f4), (.fb, .f4), (.fc, .f4), (.fd, .f4), (.fe, .f4), (.ft, .f4),
    (.fa, .f4), (.fb, .f4), (.fc, .f4), (.fd, .f4), (.fe, .f4), (.ft, .f4), (.fa, .f4), (.fb, .f4)]

/-- `SHA_INFO`; `dlocal` is the field `local`. -/
structure ShaInfo where
  digest : UInt64 × UInt64 × UInt64 × UInt64 × UInt64
  countLo : UInt64
  countHi : UInt64
  data : Block UInt8
  dlocal : ℕ
  deriving DecidableEq, Repr

/-- `sha_init`. -/
def shaInit (info : ShaInfo) : ShaInfo :=
  { info with digest := (0x67452301, 0xefcdab89, 0x98badcfe, 0x10325476, 0xc3d2e1f0), countLo := 0, countHi := 0, dlocal := 0 }

/-- `T = *((ULONG *) dp)`, with `dp` at the word `i` of the data; behind the data there is `local`. -/
def ShaInfo.load (info : ShaInfo) (i : ℕ) : Except Escape UInt64 := do
  let octets ← readAll (info.data ++ (leOctets 4 info.dlocal).map some) (4 * i) 8
  return UInt64.ofNat (leValue octets)

/-- The octets of a word in the other order. -/
def shaSwap (t : UInt64) : UInt64 :=
  ((t <<< 24) &&& (0xff000000 : UInt64)) ||| ((t <<< 8) &&& (0x00ff0000 : UInt64)) |||
    ((t >>> 8) &&& (0x0000ff00 : UInt64)) ||| ((t >>> 24) &&& (0x000000ff : UInt64))

/-- `W[i]` for `i` from 16 on. -/
def shaExpand (w : List UInt64) (i : ℕ) : List UInt64 :=
  w ++ [R32 (w.getD (i - 3) 0 ^^^ w.getD (i - 8) 0 ^^^ w.getD (i - 14) 0 ^^^ w.getD (i - 16) 0) 1]

/-- `sha_transform`. -/
def ShaInfo.transform (info : ShaInfo) : Except Escape ShaInfo := do
  let ts ← (List.range 16).mapM info.load
  let w := (List.range' 16 64).foldl shaExpand (ts.map shaSwap)
  let (a, b, c, d, e) := info.digest
  let v := (shaMacros.zip w).foldl shaMacro ⟨ts.getD 15 0, a, b, c, d, e⟩
  return { info with digest := (T32 (a + v.e), T32 (b + v.t), T32 (c + v.a), T32 (d + v.b), T32 (e + v.c)) }

/-- The loop of `sha_update`, and what is behind it, with the octets that are left. -/
def shaLoop (info : ShaInfo) (buffer : List UInt8) : Except Escape ShaInfo :=
  if 64 ≤ buffer.length then do
    let m ← store info.data 0 ((buffer.take 64).map some)
    let info ← { info with data := m }.transform
    shaLoop info (buffer.drop 64)
  else do
    let m ← store info.data 0 (buffer.map some)
    return { info with data := m, dlocal := buffer.length }
termination_by buffer.length
decreasing_by
  rw [List.length_drop]
  omega

/-- `sha_update`; the list is the octets `buffer[0]` to `buffer[count - 1]`. -/
def shaUpdate (info : ShaInfo) (buffer : List UInt8) : Except Escape ShaInfo := do
  let count := UInt64.ofNat buffer.length
  let clo := T32 (info.countLo + (count <<< 3))
  let chi := if clo < info.countLo then info.countHi + 1 else info.countHi
  let info := { info with countLo := clo, countHi := chi + (count >>> 29) }
  if info.dlocal ≠ 0 then do
    let i := min (64 - info.dlocal) buffer.length
    let m ← store info.data info.dlocal ((buffer.take i).map some)
    let info := { info with data := m, dlocal := info.dlocal + i }
    if info.dlocal = 64 then do
      let info ← info.transform
      shaLoop info (buffer.drop i)
    else return info
  else shaLoop info buffer

/-- `memset (data + i, 0, n)`. -/
def ShaInfo.zeros (info : ShaInfo) (i n : ℕ) : Except Escape ShaInfo := do
  let m ← store info.data i ((List.replicate n 0).map some)
  return { info with data := m }

/-- `(unsigned char) ((x >> s) & 0xff)` for `s` = 24, 16, 8 and 0. -/
def shaOctets (x : UInt64) : List UInt8 :=
  [((x >>> 24) &&& 0xff).toUInt8, ((x >>> 16) &&& 0xff).toUInt8, ((x >>> 8) &&& 0xff).toUInt8, (x &&& 0xff).toUInt8]

/-- The last lines of `sha_final`, and `sha_transform_and_copy`: the digest. -/
def ShaInfo.finish (info : ShaInfo) : Except Escape (List UInt8) := do
  let m ← store info.data 56 ((shaOctets info.countHi).map some)
  let m ← store m 60 ((shaOctets info.countLo).map some)
  let info ← { info with data := m }.transform
  let (a, b, c, d, e) := info.digest
  return shaOctets a ++ shaOctets b ++ shaOctets c ++ shaOctets d ++ shaOctets e

/-- `sha_final`. -/
def shaFinal (info : ShaInfo) : Except Escape (List UInt8) := do
  let count := ((info.countLo >>> 3) &&& 0x3f).toNat
  let m ← store info.data count [some 0x80]
  let count := count + 1
  let info := { info with data := m }
  if 56 < count then do
    let info ← info.zeros count (64 - count)
    let info ← info.transform
    let info ← info.zeros 0 56
    info.finish
  else do
    let info ← info.zeros count (56 - count)
    info.finish

end LibHpack
