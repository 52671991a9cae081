import LibHpack.General.Octets
import LibHpack.General.Streaming

/-!
# LibHpack.Digest.Sha512 — the SHA-512 message digest (libchula sha512.c)

The machine is little-endian, so the words of a chunk are loaded and swapped.  `SHA512_Final` builds the padding in an array
of 144 octets and takes it in with `SHA512_Update`.
-/

namespace LibHpack

open Memory Run Streaming

namespace Sha512

def Ch (x y z : UInt64) : UInt64 := (x &&& y) ^^^ (~~~x &&& z)

def Maj (x y z : UInt64) : UInt64 := (x &&& y) ^^^ (x &&& z) ^^^ (y &&& z)

def ROTR (x n : UInt64) : UInt64 := (x >>> n) ||| (x <<< (64 - n))

def Sigma0 (x : UInt64) : UInt64 := ROTR x 28 ^^^ ROTR x 34 ^^^ ROTR x 39

def Sigma1 (x : UInt64) : UInt64 := ROTR x 14 ^^^ ROTR x 18 ^^^ ROTR x 41

def sigma0 (x : UInt64) : UInt64 := ROTR x 1 ^^^ ROTR x 8 ^^^ (x >>> 7)

def sigma1 (x : UInt64) : UInt64 := ROTR x 19 ^^^ ROTR x 61 ^^^ (x >>> 6)

def constant512 : List UInt64 :=
  [ 0x428a2f98d728ae22, 0x7137449123ef65cd, 0xb5c0fbcfec4d3b2f, 0xe9b5dba58189dbbc,
    0x3956c25bf348b538, 0x59f111f1b605d019, 0x923f82a4af194f9b, 0xab1c5ed5da6d8118,
    0xd807aa98a3030242, 0x12835b0145706fbe, 0x243185be4ee4b28c, 0x550c7dc3d5ffb4e2,
    0x72be5d74f27b896f, 0x80deb1fe3b1696b1, 0x9bdc06a725c71235, 0xc19bf174cf692694,
    0xe49b69c19ef14ad2, 0xefbe4786384f25e3, 0x0fc19dc68b8cd5b5, 0x240ca1cc77ac9c65,
    0x2de92c6f592b0275, 0x4a7484aa6ea6e483, 0x5cb0a9dcbd41fbd4, 0x76f988da831153b5,
    0x983e5152ee66dfab, 0xa831c66d2db43210, 0xb00327c898fb213f, 0xbf597fc7beef0ee4,
    0xc6e00bf33da88fc2, 0xd5a79147930aa725, 0x06ca6351e003826f, 0x142929670a0e6e70,
    0x27b70a8546d22ffc, 0x2e1b21385c26c926, 0x4d2c6dfc5ac42aed, 0x53380d139d95b3df,
    0x650a73548baf63de, 0x766a0abb3c77b2a8, 0x81c2c92e47edaee6, 0x92722c851482353b,
    0xa2bfe8a14cf10364, 0xa81a664bbc423001, 0xc24b8b70d0f89791, 0xc76c51a30654be30,
    0xd192e819d6ef5218, 0xd69906245565a910, 0xf40e35855771202a, 0x106aa07032bbd1b8,
    0x19a4c116b8d2d0c8, 0x1e376c085141ab53, 0x2748774cdf8eeb99, 0x34b0bcb5e19b48a8,
    0x391c0cb3c5c95a63, 0x4ed8aa4ae3418acb, 0x5b9cca4f7763e373, 0x682e6ff3d6b2b8a3,
    0x748f82ee5defb2fc, 0x78a5636f43172f60, 0x84c87814a1f0ab72, 0x8cc702081a6439ec,
    0x90befffa23631e28, 0xa4506cebde82bde9, 0xbef9a3f7b2c67915, 0xc67178f2e372532b,
    0xca273eceea26619c, 0xd186b8c721c0c207, 0xeada7dd6cde0eb1e, 0xf57d4f7fee6ed178,
    0x06f067aa72176fba, 0x0a637dc5a2c898a6, 0x113f9804bef90dae, 0x1b710b35131c471b,
    0x28db77f523047d84, 0x32caab7b40c72493, 0x3c9ebe0a15c9bebc, 0x431d67c49c100d4c,
    0x4cc5d4becb3e42b6, 0x597f299cfc657e2a, 0x5fcb6fab3ad6faec, 0x6c44198c4a475817]

/-- `A` to `H`, the field `counter`. -/
structure Words where
  a : UInt64
  b : UInt64
  c : UInt64
  d : UInt64
  e : UInt64
  f : UInt64
  g : UInt64
  h : UInt64
  deriving DecidableEq, Repr

def Words.add (v w : Words) : Words :=
  ⟨v.a + w.a, v.b + w.b, v.c + w.c, v.d + w.d, v.e + w.e, v.f + w.f, v.g + w.g, v.h + w.h⟩

/-- `SHA512_CTX`. -/
structure SHA512_CTX where
  sz0 : UInt64
  sz1 : UInt64
  counter : Words
  save : Block UInt8
  deriving DecidableEq, Repr

def iv : Words :=
  ⟨0x6a09e667f3bcc908, 0xbb67ae8584caa73b, 0x3c6ef372fe94f82b, 0xa54ff53a5f1d36f1, 0x510e527fade682d1, 0x9b05688c2b3e6c1f,
    0x1f83d9abfb41bd6b, 0x5be0cd19137e2179⟩

/-- `SHA512_Init`. -/
def sha512Init (m : SHA512_CTX) : SHA512_CTX := { m with sz0 := 0, sz1 := 0, counter := iv }

/-- `data[i]` for `i` from 16 on. -/
def expand (data : List UInt64) (i : ℕ) : List UInt64 :=
  data ++ [sigma1 (data.getD (i - 2) 0) + data.getD (i - 7) 0 + sigma0 (data.getD (i - 15) 0) + data.getD (i - 16) 0]

/-- A turn of the loop of `calc`, with `constant_512[i]` and `data[i]`. -/
def turn (v : Words) (p : UInt64 × UInt64) : Words :=
  let t1 := v.h + Sigma1 v.e + Ch v.e v.f v.g + p.1 + p.2
  let t2 := Sigma0 v.a + Maj v.a v.b v.c
  ⟨t1 + t2, v.a, v.b, v.c, v.d + t1, v.e, v.f, v.g⟩

/-- `calc`, on the words of a chunk. -/
def calculate (v : Words) (words : List UInt64) : Words :=
  let data := (List.range' 16 64).foldl expand words
  v.add ((constant512.zip data).foldl turn v)

def cshift64 (x n : UInt64) : UInt64 := (x <<< n) ||| (x >>> (64 - n))

def swapUint64 (t : UInt64) : UInt64 :=
  let temp := cshift64 t 32
  let temp := ((temp &&& (0xff00ff00ff00ff00 : UInt64)) >>> 8) ||| ((temp &&& (0x00ff00ff00ff00ff : UInt64)) <<< 8)
  ((temp &&& (0xffff0000ffff0000 : UInt64)) >>> 16) ||| ((temp &&& (0x0000ffff0000ffff : UInt64)) <<< 16)

/-- The words `us[i].a` and `us[i].b` of the chunk, swapped, and `calc`. -/
def SHA512_CTX.block (m : SHA512_CTX) : Except Escape SHA512_CTX := do
  let current ← (List.range 16).mapM fun i => do
    let octets ← readAll m.save (8 * i) 8
    return swapUint64 (word64 octets)
  return { m with counter := calculate m.counter current }

/-- The loop of `SHA512_Update`, with the octets that are left. -/
def updateLoop (m : SHA512_CTX) (offset : Fin 128) (p : List UInt8) : Except Escape SHA512_CTX :=
  if 0 < p.length then do
    let l := min p.length (128 - offset)
    let save ← store m.save offset ((p.take l).map some)
    let m := { m with save := save }
    if h : offset + l = 128 then do
      let m ← m.block
      updateLoop m 0 (p.drop l)
    else updateLoop m ⟨offset + l, by omega⟩ (p.drop l)
  else .ok m
termination_by p.length
decreasing_by
  all_goals
    have := offset.isLt
    rw [List.length_drop]
    omega

/-- `SHA512_Update`; the list is the `len` octets behind `v`. -/
def sha512Update (m : SHA512_CTX) (v : List UInt8) : Except Escape SHA512_CTX :=
  let oldSz := m.sz0
  let sz0 := oldSz + UInt64.ofNat v.length * 8
  let m := { m with sz0 := sz0, sz1 := if sz0 < oldSz then m.sz1 + 1 else m.sz1 }
  updateLoop m ⟨oldSz.toNat / 8 % 128, Nat.mod_lt _ (by decide)⟩ v

/-- `(x >> s) & 0xff` for `s` = 56, 48, .., 0. -/
def octets64 (x : UInt64) : List UInt8 :=
  [((x >>> 56) &&& 0xff).toUInt8, ((x >>> 48) &&& 0xff).toUInt8, ((x >>> 40) &&& 0xff).toUInt8,
    ((x >>> 32) &&& 0xff).toUInt8, ((x >>> 24) &&& 0xff).toUInt8, ((x >>> 16) &&& 0xff).toUInt8,
    ((x >>> 8) &&& 0xff).toUInt8, ((x >>> 0) &&& 0xff).toUInt8]

def Words.octets (v : Words) : List UInt8 :=
  octets64 v.a ++ octets64 v.b ++ octets64 v.c ++ octets64 v.d ++ octets64 v.e ++ octets64 v.f ++ octets64 v.g ++
    octets64 v.h

/-- The array `zeros` of `SHA512_Final`, as far as it is taken in. -/
def SHA512_CTX.padding (m : SHA512_CTX) (dstart : ℕ) : Except Escape (List UInt8) := do
  let zeros : Block UInt8 := List.replicate 144 none
  let zeros ← store zeros 0 [some 0x80]
  let zeros ← store zeros 1 ((List.replicate 143 0).map some)
  let zeros ← store zeros (dstart + 8) ((octets64 m.sz0).map some)
  let zeros ← store zeros dstart ((octets64 m.sz1).map some)
  readAll zeros 0 (dstart + 16)

/-- `SHA512_Final`: the digest. -/
def sha512Final (m : SHA512_CTX) : Except Escape (List UInt8) := do
  let offset := m.sz0.toNat / 8 % 128
  let dstart := (240 - offset - 1) % 128 + 1
  let zeros ← m.padding dstart
  let m ← sha512Update m zeros
  return m.counter.octets

/-- `SHA512_Init`, `SHA512_Update` for each of the pieces, and `SHA512_Final`. -/
def sha512 (m : SHA512_CTX) (pieces : List (List UInt8)) : Except Escape (List UInt8) := do
  let m ← run sha512Update (sha512Init m) pieces
  sha512Final m

end Sha512

end LibHpack
