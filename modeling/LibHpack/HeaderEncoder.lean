import LibHpack.Huffman.Encode
import LibHpack.HeaderField
import LibHpack.Integer

/-!
# LibHpack.HeaderEncoder — the encoder (header_encoder.c)

Every field of the store is rendered as a literal without indexing and with a new name; both strings are Huffman
encoded (`hpackHeaderEncoderRender_bytes`).  How many octets that takes only depends on the lengths of the codewords
(`fieldOctets_length`).
-/

namespace LibHpack

/-- `hpack_header_encoder_t`. -/
structure HeaderEncoder where
  store : List HeaderField
  tmp : ChulaBuffer

def hpackHeaderEncoderInit : HeaderEncoder where
  store := []
  tmp := chulaBufferEnsure chulaBufferInit

def hpackHeaderEncoderAddField (enc : HeaderEncoder) (field : HeaderField) : HeaderEncoder :=
  { enc with store := hpackHeaderStoreEmit enc.store field }

def hpackHeaderEncoderAdd (enc : HeaderEncoder) (name value : ChulaBuffer) : HeaderEncoder :=
  hpackHeaderEncoderAddField enc
    { hpackHeaderFieldInit with
      name := chulaBufferAddBuffer hpackHeaderFieldInit.name name
      value := chulaBufferAddBuffer hpackHeaderFieldInit.value value }

variable (T : HuffmanTables)

/-- The result, the encoder and `*output`, here and below. -/
def addString (enc : HeaderEncoder) (input : ChulaBuffer) (huffman : Bool) (output : ChulaBuffer) :
    Ret × HeaderEncoder × ChulaBuffer :=
  let enc := { enc with tmp := chulaBufferClean enc.tmp }
  if huffman then
    let (ret, tmp) := hpackHuffmanEncode T input.bytes enc.tmp
    let enc := { enc with tmp := tmp }
    if ret ≠ .ok then (ret, enc, output)
    else
      let mem := hpackIntegerEncode 7 enc.tmp.len 0x80
      (.ok, enc, chulaBufferAddBuffer (chulaBufferAdd output mem) enc.tmp)
  else
    let mem := hpackIntegerEncode 7 input.len 0
    (.ok, enc, chulaBufferAddBuffer (chulaBufferAdd output mem) input)

def renderLiteral (enc : HeaderEncoder) (field : HeaderField) (huffman indexing : Bool) (output : ChulaBuffer) :
    Ret × HeaderEncoder × ChulaBuffer :=
  -- `(char)1<<7`, although the picture in the source has a one in the bit below
  let output := if indexing then chulaBufferAddChar output 0x80 else chulaBufferAddChar output 0
  let (ret, enc, output) := addString T enc field.name huffman output
  if ret ≠ .ok then (ret, enc, output)
  else addString T enc field.value huffman output

/-- The loop of `hpack_header_encoder_render`. -/
def renderLoop : List HeaderField → HeaderEncoder → ChulaBuffer → Ret × HeaderEncoder × ChulaBuffer
  | [], enc, output => (.ok, enc, output)
  | field :: fields, enc, output =>
    let (ret, enc, output) := renderLiteral T enc field true false output
    if ret ≠ .ok then (ret, enc, output) else renderLoop fields enc output

def hpackHeaderEncoderRender (enc : HeaderEncoder) (output : ChulaBuffer) : Ret × HeaderEncoder × ChulaBuffer :=
  renderLoop T enc.store enc output

/-! ### What is rendered -/

/-- The octets of a string: its length, and the string. -/
def stringOctets (s : List UInt8) : List UInt8 :=
  hpackIntegerEncode 7 (huffmanOctets T s).length 0x80 ++ huffmanOctets T s

/-- The octets of a field. -/
def fieldOctets (f : List UInt8 × List UInt8) : List UInt8 := 0 :: (stringOctets T f.1 ++ stringOctets T f.2)

theorem addString_huffman (enc : HeaderEncoder) (input output : ChulaBuffer) :
    (addString T enc input true output).1 = .ok ∧
      (addString T enc input true output).2.2.bytes = output.bytes ++ stringOctets T input.bytes := by
  obtain ⟨hret, hbytes⟩ := hpackHuffmanEncode_eq T input.bytes (chulaBufferClean enc.tmp)
  rw [chulaBufferClean_bytes, List.nil_append] at hbytes
  simp only [addString, if_true, hret, ne_eq, not_true_eq_false, if_false, true_and]
  simp [stringOctets, ChulaBuffer.len, hbytes]

/-- One field. -/
theorem renderLiteral_huffman (enc : HeaderEncoder) (field : HeaderField) (output : ChulaBuffer) :
    (renderLiteral T enc field true false output).1 = .ok ∧
      (renderLiteral T enc field true false output).2.2.bytes = output.bytes ++ fieldOctets T field.pair := by
  obtain ⟨hret, hbytes⟩ := addString_huffman T enc field.name (chulaBufferAddChar output 0)
  obtain ⟨hret2, hbytes2⟩ := addString_huffman T (addString T enc field.name true (chulaBufferAddChar output 0)).2.1
    field.value (addString T enc field.name true (chulaBufferAddChar output 0)).2.2
  simp only [renderLiteral, Bool.false_eq_true, if_false, hret, ne_eq, not_true_eq_false]
  refine ⟨hret2, ?_⟩
  rw [hbytes2, hbytes]
  simp [fieldOctets, HeaderField.pair]

theorem renderLoop_bytes (fields : List HeaderField) (enc : HeaderEncoder) (output : ChulaBuffer) :
    (renderLoop T fields enc output).1 = .ok ∧ (renderLoop T fields enc output).2.2.bytes =
      output.bytes ++ (fields.map HeaderField.pair).flatMap (fieldOctets T) := by
  induction fields generalizing enc output with
  | nil => exact ⟨rfl, by simp [renderLoop]⟩
  | cons field fields ih =>
    obtain ⟨hret, hbytes⟩ := renderLiteral_huffman T enc field output
    obtain ⟨hret2, hbytes2⟩ := ih (renderLiteral T enc field true false output).2.1
      (renderLiteral T enc field true false output).2.2
    simp only [renderLoop, hret, ne_eq, not_true_eq_false, if_false]
    refine ⟨hret2, ?_⟩
    rw [hbytes2, hbytes, List.map_cons, List.flatMap_cons, List.append_assoc]

/-- **The output** is the fields of the store, one behind the other. -/
theorem hpackHeaderEncoderRender_bytes (enc : HeaderEncoder) (output : ChulaBuffer) :
    (hpackHeaderEncoderRender T enc output).1 = .ok ∧ (hpackHeaderEncoderRender T enc output).2.2.bytes =
      output.bytes ++ (enc.store.map HeaderField.pair).flatMap (fieldOctets T) :=
  renderLoop_bytes T enc.store enc output

/-- An encoder with these fields. -/
def encoderOf (fields : List (List UInt8 × List UInt8)) : HeaderEncoder :=
  fields.foldl (fun enc f => hpackHeaderEncoderAdd enc (chulaBufferFake f.1) (chulaBufferFake f.2))
    hpackHeaderEncoderInit

theorem encoderOf_store (fields : List (List UInt8 × List UInt8)) :
    (encoderOf fields).store.map HeaderField.pair = fields := by
  induction fields using List.reverseRecOn with
  | nil => rfl
  | append_singleton fields f ih =>
    rw [encoderOf] at ih ⊢
    rw [List.foldl_append, List.foldl_cons, List.foldl_nil, hpackHeaderEncoderAdd, hpackHeaderEncoderAddField,
      hpackHeaderStoreEmit_pairs, ih]
    simp [HeaderField.pair, hpackHeaderFieldInit]

/-- The output of an encoder with these fields, into an empty buffer. -/
theorem render_encoderOf (fields : List (List UInt8 × List UInt8)) :
    (hpackHeaderEncoderRender T (encoderOf fields) chulaBufferInit).2.2.bytes = fields.flatMap (fieldOctets T) := by
  obtain ⟨-, hbytes⟩ := hpackHeaderEncoderRender_bytes T (encoderOf fields) chulaBufferInit
  rwa [encoderOf_store, chulaBufferInit_bytes, List.nil_append] at hbytes

/-! ### How long it is -/

/-- The octets of the codewords of a string. -/
def huffmanLength (s : List UInt8) : ℕ := ((s.map fun b => (T.hpackHuffman b.toNat).bits).sum + 7) / 8

@[simp] theorem huffmanLength_nil : huffmanLength T [] = 0 := by simp [huffmanLength]

def stringLength (s : List UInt8) : ℕ := integerLength 7 (huffmanLength T s) + huffmanLength T s

def fieldLength (f : List UInt8 × List UInt8) : ℕ := 1 + stringLength T f.1 + stringLength T f.2

def blockLength (fields : List (List UInt8 × List UInt8)) : ℕ := (fields.map (fieldLength T)).sum

namespace Generated

variable {T} {c : HuffmanSource} {padding : List ℕ}

theorem huffmanOctets_length (h : Generated c T padding) (heos : 7 < (c.bits eos).length) (s : List UInt8) :
    (huffmanOctets T s).length = huffmanLength T s := by
  obtain ⟨k, hk, hbits⟩ := h.huffmanOctets_bits heos s
  have hlen := congrArg List.length hbits
  have height : ∀ b, (octetBits b).length = 8 := fun b => rfl
  have hcode : ∀ b, (c.bits (octetSymbol b)).length = (T.hpackHuffman b.toNat).bits := fun b =>
    (congrArg HuffmanCode.bits (h.code (octetSymbol b))).symm
  simp only [List.length_flatMap, List.length_append, List.length_take, List.map_map, Function.comp_def, height, hcode,
    List.map_const', List.sum_replicate] at hlen
  rw [huffmanLength]
  simp only [smul_eq_mul] at hlen
  omega

theorem stringOctets_length (h : Generated c T padding) (heos : 7 < (c.bits eos).length) (s : List UInt8) :
    (stringOctets T s).length = stringLength T s := by
  rw [stringOctets, List.length_append, hpackIntegerEncode_length, h.huffmanOctets_length heos, stringLength]

theorem fieldOctets_length (h : Generated c T padding) (heos : 7 < (c.bits eos).length) (f : List UInt8 × List UInt8) :
    (fieldOctets T f).length = fieldLength T f := by
  rw [fieldOctets, List.length_cons, List.length_append, h.stringOctets_length heos, h.stringOctets_length heos,
    fieldLength]
  omega

theorem flatMap_fieldOctets_length (h : Generated c T padding) (heos : 7 < (c.bits eos).length)
    (fields : List (List UInt8 × List UInt8)) : (fields.flatMap (fieldOctets T)).length = blockLength T fields := by
  rw [List.length_flatMap, blockLength]
  exact congrArg List.sum (List.map_congr_left fun f _ => h.fieldOctets_length heos f)

end Generated

end LibHpack
