import Mathlib.Tactic
import LibHpack.Chula

/-!
# LibHpack.Huffman.Model — Huffman coding of strings (huffman.c)

The two tables are a parameter (`HuffmanTables`): they are in `huffman_tables.c`, which the build generates.
-/

namespace LibHpack

/-- `hpack_huffman_code_t`. -/
structure HuffmanCode where
  bits : ℕ
  code : ℕ
  deriving DecidableEq, Repr

/-- `hpack_huffman_decode_t`. -/
structure HuffmanDecode where
  state : ℤ
  flags : ℕ
  sym : UInt8
  deriving DecidableEq, Repr

/-- `hpack_huffman` and `decode_table`. -/
structure HuffmanTables where
  hpackHuffman : ℕ → HuffmanCode
  decodeTable : ℕ → ℕ → HuffmanDecode

/-- `hpack_huffman_decode_context_t`. -/
structure HuffmanContext where
  state : ℕ
  accept : Bool
  deriving DecidableEq, Repr

/-- `HUFFMAN_DEC_CTX_INIT`. -/
def huffmanDecCtxInit : HuffmanContext := ⟨0, true⟩

variable (T : HuffmanTables)

/-! ### Decoding -/

/-- One turn of the inner loop of `hpack_huffman_decode`, for half an octet. -/
def huffmanDecodeHalf (context : HuffmanContext) (c : ℕ) (out : ChulaBuffer) :
    Ret × HuffmanContext × ChulaBuffer :=
  let t := T.decodeTable context.state c
  if t.state = -1 then (.error, context, out)
  else
    -- `HPACK_HUFFMAN_SYMBOL` is 2, `HPACK_HUFFMAN_ACCEPTED` is 1
    let out := if t.flags &&& 2 ≠ 0 then chulaBufferAddChar out t.sym else out
    (.ok, ⟨(t.state % 256).toNat, t.flags &&& 1 ≠ 0⟩, out)

def hpackHuffmanDecode : List UInt8 → ChulaBuffer → HuffmanContext → Ret × HuffmanContext × ChulaBuffer
  | [], out, context => (.ok, context, out)
  | b :: input, out, context =>
    let out := chulaBufferEnsure out
    let (ret, context, out) := huffmanDecodeHalf T context (b.toNat >>> 4) out
    if ret ≠ .ok then (.error, context, out)
    else
      let (ret, context, out) := huffmanDecodeHalf T context (b.toNat &&& 0xf) out
      if ret ≠ .ok then (.error, context, out)
      else hpackHuffmanDecode input out context

/-! ### Encoding -/

/-- Where `hpack_huffman_encode` is in its output: the complete octets, the octet `out->buf[out->len]` it is filling,
and how many bits of it are free. -/
structure HuffmanOut where
  octets : List UInt8
  cur : UInt8
  remainingBits : ℕ
  deriving DecidableEq, Repr

/-- The loop of `encode_symbol`, for the low `nbits` bits of the code; a turn that does not end it uses up at least one
of them.  The octet after a complete one is zero here; the source clears it later when no bits are left. -/
def encodeSymbolLoop (code : ℕ) : ℕ → ℕ → HuffmanOut → HuffmanOut
  | 0, _, out => out
  | fuel + 1, nbits, out =>
    if nbits < out.remainingBits then
      { out with
        cur := out.cur ||| UInt8.ofNat (code <<< (out.remainingBits - nbits))
        remainingBits := out.remainingBits - nbits }
    else
      let out' : HuffmanOut :=
        ⟨out.octets ++ [out.cur ||| UInt8.ofNat (code >>> (nbits - out.remainingBits))], 0, 8⟩
      if nbits - out.remainingBits = 0 then out' else encodeSymbolLoop code fuel (nbits - out.remainingBits) out'

def encodeSymbol (code : HuffmanCode) (out : HuffmanOut) : HuffmanOut :=
  encodeSymbolLoop code.code (code.bits + 1) code.bits out

/-- `hpack_huffman_encode`: it appends to `out`. -/
def hpackHuffmanEncode (input : List UInt8) (out : ChulaBuffer) : Ret × ChulaBuffer :=
  let o := input.foldl (fun o b => encodeSymbol (T.hpackHuffman b.toNat) o) ⟨[], 0, 8⟩
  let eos := T.hpackHuffman 256
  let octets :=
    if o.remainingBits < 8 then o.octets ++ [o.cur ||| UInt8.ofNat (eos.code >>> (eos.bits - o.remainingBits))]
    else o.octets
  (.ok, chulaBufferEnsure (chulaBufferAdd out octets))

end LibHpack
