import LibHpack.General.Octets
import LibHpack.General.Streaming

/-!
# LibHpack.Digest.Md5 — the MD5 message digest (libchula md5.c)

The machine is little-endian, so the words of `in` are read off its octets and nothing is swapped.  `MD5Transform` is the
list of its 64 invocations of `MD5STEP`, each one with the names of the registers it is given; `md5Rounds` is the loop that
they unroll, where the four registers move on by one place a turn.
-/

namespace LibHpack

open Memory Run Streaming

/-- The registers `a` to `d`, and `buf`. -/
structure Md5Words where
  a : UInt32
  b : UInt32
  c : UInt32
  d : UInt32
  deriving DecidableEq, Repr

inductive Md5Reg
  | a | b | c | d
  deriving DecidableEq, Repr

namespace Md5Words

def get (v : Md5Words) : Md5Reg → UInt32
  | .a => v.a
  | .b => v.b
  | .c => v.c
  | .d => v.d

def set (v : Md5Words) (r : Md5Reg) (x : UInt32) : Md5Words :=
  match r with
  | .a => { v with a := x }
  | .b => { v with b := x }
  | .c => { v with c := x }
  | .d => { v with d := x }

def add (v w : Md5Words) : Md5Words := ⟨v.a + w.a, v.b + w.b, v.c + w.c, v.d + w.d⟩

end Md5Words

inductive Md5F
  | f1 | f2 | f3 | f4
  deriving DecidableEq, Repr

/-- `F1` to `F4`. -/
def Md5F.eval (f : Md5F) (x y z : UInt32) : UInt32 :=
  match f with
  | .f1 => z ^^^ (x &&& (y ^^^ z))
  | .f2 => y ^^^ (z &&& (x ^^^ y))
  | .f3 => x ^^^ y ^^^ z
  | .f4 => y ^^^ (x ||| ~~~z)

/-- `MD5STEP (f, w, x, y, z, in[i] + k, s)`. -/
structure Md5Step where
  f : Md5F
  w : Md5Reg
  x : Md5Reg
  y : Md5Reg
  z : Md5Reg
  i : ℕ
  k : UInt32
  s : UInt32
  deriving DecidableEq, Repr

def Md5Step.exec (inp : ℕ → UInt32) (v : Md5Words) (st : Md5Step) : Md5Words :=
  let w := v.get st.w + (st.f.eval (v.get st.x) (v.get st.y) (v.get st.z) + (inp st.i + st.k))
  v.set st.w (((w <<< st.s) ||| (w >>> (32 - st.s))) + v.get st.x)

/-- The body of `MD5Transform`. -/
def md5Steps : List Md5Step :=
  [ ⟨.f1, .a, .b, .c, .d, 0, 0xd76aa478, 7⟩, ⟨.f1, .d, .a, .b, .c, 1, 0xe8c7b756, 12⟩,
    ⟨.f1, .c, .d, .a, .b, 2, 0x242070db, 17⟩, ⟨.f1, .b, .c, .d, .a, 3, 0xc1bdceee, 22⟩,
    ⟨.f1, .a, .b, .c, .d, 4, 0xf57c0faf, 7⟩, ⟨.f1, .d, .a, .b, .c, 5, 0x4787c62a, 12⟩,
    ⟨.f1, .c, .d, .a, .b, 6, 0xa8304613, 17⟩, ⟨.f1, .b, .c, .d, .a, 7, 0xfd469501, 22⟩,
    ⟨.f1, .a, .b, .c, .d, 8, 0x698098d8, 7⟩, ⟨.f1, .d, .a, .b, .c, 9, 0x8b44f7af, 12⟩,
    ⟨.f1, .c, .d, .a, .b, 10, 0xffff5bb1, 17⟩, ⟨.f1, .b, .c, .d, .a, 11, 0x895cd7be, 22⟩,
    ⟨.f1, .a, .b, .c, .d, 12, 0x6b901122, 7⟩, ⟨.f1, .d, .a, .b, .c, 13, 0xfd987193, 12⟩,
    ⟨.f1, .c, .d, .a, .b, 14, 0xa679438e, 17⟩, ⟨.f1, .b, .c, .d, .a, 15, 0x49b40821, 22⟩,
    ⟨.f2, .a, .b, .c, .d, 1, 0xf61e2562, 5⟩, ⟨.f2, .d, .a, .b, .c, 6, 0xc040b340, 9⟩,
    ⟨.f2, .c, .d, .a, .b, 11, 0x265e5a51, 14⟩, ⟨.f2, .b, .c, .d, .a, 0, 0xe9b6c7aa, 20⟩,
    ⟨.f2, .a, .b, .c, .d, 5, 0xd62f105d, 5⟩, ⟨.f2, .d, .a, .b, .c, 10, 0x02441453, 9⟩,
    ⟨.f2, .c, .d, .a, .b, 15, 0xd8a1e681, 14⟩, ⟨.f2, .b, .c, .d, .a, 4, 0xe7d3fbc8, 20⟩,
    ⟨.f2, .a, .b, .c, .d, 9, 0x21e1cde6, 5⟩, ⟨.f2, .d, .a, .b, .c, 14, 0xc33707d6, 9⟩,
    ⟨.f2, .c, .d, .a, .b, 3, 0xf4d50d87, 14⟩, ⟨.f2, .b, .c, .d, .a, 8, 0x455a14ed, 20⟩,
    ⟨.f2, .a, .b, .c, .d, 13, 0xa9e3e905, 5⟩, ⟨.f2, .d, .a, .b, .c, 2, 0xfcefa3f8, 9⟩,
    ⟨.f2, .c, .d, .a, .b, 7, 0x676f02d9, 14⟩, ⟨.f2, .b, .c, .d, .a, 12, 0x8d2a4c8a, 20⟩,
    ⟨.f3, .a, .b, .c, .d, 5, 0xfffa3942, 4⟩, ⟨.f3, .d, .a, .b, .c, 8, 0x8771f681, 11⟩,
    ⟨.f3, .c, .d, .a, .b, 11, 0x6d9d6122, 16⟩, ⟨.f3, .b, .c, .d, .a, 14, 0xfde5380c, 23⟩,
    ⟨.f3, .a, .b, .c, .d, 1, 0xa4beea44, 4⟩, ⟨.f3, .d, .a, .b, .c, 4, 0x4bdecfa9, 11⟩,
    ⟨.f3, .c, .d, .a, .b, 7, 0xf6bb4b60, 16⟩, ⟨.f3, .b, .c, .d, .a, 10, 0xbebfbc70, 23⟩,
    ⟨.f3, .a, .b, .c, .d, 13, 0x289b7ec6, 4⟩, ⟨.f3, .d, .a, .b, .c, 0, 0xeaa127fa, 11⟩,
    ⟨.f3, .c, .d, .a, .b, 3, 0xd4ef3085, 16⟩, ⟨.f3, .b, .c, .d, .a, 6, 0x04881d05, 23⟩,
    ⟨.f3, .a, .b, .c, .d, 9, 0xd9d4d039, 4⟩, ⟨.f3, .d, .a, .b, .c, 12, 0xe6db99e5, 11⟩,
    ⟨.f3, .c, .d, .a, .b, 15, 0x1fa27cf8, 16⟩, ⟨.f3, .b, .c, .d, .a, 2, 0xc4ac5665, 23⟩,
    ⟨.f4, .a, .b, .c, .d, 0, 0xf4292244, 6⟩, ⟨.f4, .d, .a, .b, .c, 7, 0x432aff97, 10⟩,
    ⟨.f4, .c, .d, .a, .b, 14, 0xab9423a7, 15⟩, ⟨.f4, .b, .c, .d, .a, 5, 0xfc93a039, 21⟩,
    ⟨.f4, .a, .b, .c, .d, 12, 0x655b59c3, 6⟩, ⟨.f4, .d, .a, .b, .c, 3, 0x8f0ccc92, 10⟩,
    ⟨.f4, .c, .d, .a, .b, 10, 0xffeff47d, 15⟩, ⟨.f4, .b, .c, .d, .a, 1, 0x85845dd1, 21⟩,
    ⟨.f4, .a, .b, .c, .d, 8, 0x6fa87e4f, 6⟩, ⟨.f4, .d, .a, .b, .c, 15, 0xfe2ce6e0, 10⟩,
    ⟨.f4, .c, .d, .a, .b, 6, 0xa3014314, 15⟩, ⟨.f4, .b, .c, .d, .a, 13, 0x4e0811a1, 21⟩,
    ⟨.f4, .a, .b, .c, .d, 4, 0xf7537e82, 6⟩, ⟨.f4, .d, .a, .b, .c, 11, 0xbd3af235, 10⟩,
    ⟨.f4, .c, .d, .a, .b, 2, 0x2ad7d2bb, 15⟩, ⟨.f4, .b, .c, .d, .a, 9, 0xeb86d391, 21⟩]

/-- The word `in[i]` of sixteen. -/
def md5Word (octets : List UInt8) (i : ℕ) : UInt32 := UInt32.ofNat (leValue ((octets.drop (4 * i)).take 4))

/-- `MD5Transform`, with the octets of `in`. -/
def md5Transform (buf : Md5Words) (octets : List UInt8) : Md5Words :=
  buf.add (md5Steps.foldl (Md5Step.exec (md5Word octets)) buf)

/-- `struct MD5Context`; `in` is the octets that it has in memory. -/
structure MD5Context where
  buf : Md5Words
  bytes0 : UInt32
  bytes1 : UInt32
  inp : Block UInt8
  deriving DecidableEq, Repr

def md5Iv : Md5Words := ⟨0x67452301, 0xefcdab89, 0x98badcfe, 0x10325476⟩

/-- `MD5Init`. -/
def md5Init (ctx : MD5Context) : MD5Context := { ctx with buf := md5Iv, bytes0 := 0, bytes1 := 0 }

/-- `MD5Transform (ctx->buf, ctx->in)`. -/
def MD5Context.transform (ctx : MD5Context) : Except Escape MD5Context := do
  let octets ← readAll ctx.inp 0 64
  return { ctx with buf := md5Transform ctx.buf octets }

/-- The loop of `MD5Update`, with the octets that are left. -/
def md5Loop (ctx : MD5Context) (buf : List UInt8) : Except Escape (MD5Context × List UInt8) :=
  if 64 ≤ buf.length then do
    let m ← store ctx.inp 0 ((buf.take 64).map some)
    let ctx ← { ctx with inp := m }.transform
    md5Loop ctx (buf.drop 64)
  else .ok (ctx, buf)
termination_by buf.length
decreasing_by
  rw [List.length_drop]
  omega

/-- `MD5Update`; the list is the octets `buf[0]` to `buf[len - 1]`. -/
def md5Update (ctx : MD5Context) (buf : List UInt8) : Except Escape MD5Context := do
  let len := UInt32.ofNat buf.length
  let t := ctx.bytes0
  let low := t + len
  let ctx := { ctx with bytes0 := low, bytes1 := if low < t then ctx.bytes1 + 1 else ctx.bytes1 }
  let t := 64 - (t &&& 0x3f)
  if len < t then
    let m ← store ctx.inp (64 - t).toNat (buf.map some)
    return { ctx with inp := m }
  else
    let m ← store ctx.inp (64 - t).toNat ((buf.take t.toNat).map some)
    let ctx ← { ctx with inp := m }.transform
    let (ctx, buf) ← md5Loop ctx (buf.drop t.toNat)
    let m ← store ctx.inp 0 (buf.map some)
    return { ctx with inp := m }

/-- `memset (p, 0, n)`, with `p` in `in`. -/
def MD5Context.zeros (ctx : MD5Context) (p n : ℕ) : Except Escape MD5Context := do
  let m ← store ctx.inp p ((List.replicate n 0).map some)
  return { ctx with inp := m }

/-- `ctx->in[i] = w`. -/
def MD5Context.putWord (ctx : MD5Context) (i : ℕ) (w : UInt32) : Except Escape MD5Context := do
  let m ← store ctx.inp (4 * i) ((leOctets 4 w.toNat).map some)
  return { ctx with inp := m }

/-- `memcpy (digest, ctx->buf, 16)`. -/
def Md5Words.octets (v : Md5Words) : List UInt8 :=
  leOctets 4 v.a.toNat ++ leOctets 4 v.b.toNat ++ leOctets 4 v.c.toNat ++ leOctets 4 v.d.toNat

/-- `MD5Final`, from the `memset` of `count` octets at `p` on: the digest. -/
def MD5Context.finish (ctx : MD5Context) (p count : ℕ) : Except Escape (List UInt8) := do
  let ctx ← ctx.zeros p count
  let ctx ← ctx.putWord 14 (ctx.bytes0 <<< 3)
  let ctx ← ctx.putWord 15 ((ctx.bytes1 <<< 3) ||| (ctx.bytes0 >>> 29))
  let ctx ← ctx.transform
  return ctx.buf.octets

/-- `MD5Final`. -/
def md5Final (ctx : MD5Context) : Except Escape (List UInt8) := do
  let n := (ctx.bytes0 &&& 0x3f).toNat
  let m ← store ctx.inp n [some 0x80]
  let ctx := { ctx with inp := m }
  -- the zeros that are needed to make 56 octets, from -8 to 55
  let count : ℤ := 56 - 1 - n
  if count < 0 then do
    let ctx ← ctx.zeros (n + 1) (count + 8).toNat
    let ctx ← ctx.transform
    ctx.finish 0 56
  else ctx.finish (n + 1) count.toNat

/-- `MD5Init`, `MD5Update` for each of the pieces, and `MD5Final`. -/
def md5 (ctx : MD5Context) (pieces : List (List UInt8)) : Except Escape (List UInt8) := do
  let ctx ← run md5Update (md5Init ctx) pieces
  md5Final ctx

end LibHpack
