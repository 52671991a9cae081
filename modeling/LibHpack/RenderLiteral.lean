import LibHpack.RoundTrip

/-!
# LibHpack.RenderLiteral — one literal, with and without indexing

The encoder renders its fields with `render_literal` without indexing and Huffman-coded; the function takes both as
arguments.  The first octet of a literal with indexing is `(char)1<<7` in the source, one bit above that in the picture
there.  For the parser it is the index 0, and one octet long (`parserField_indexZero`).
-/

namespace LibHpack

variable {T : HuffmanTables} {c : HuffmanSource} {padding : List ℕ} {buf : Block} {pre e post : List UInt8} {n con : ℕ}

/-- The octets of a literal. -/
def literalOctets (T : HuffmanTables) (huffman indexing : Bool) (f : List UInt8 × List UInt8) : List UInt8 :=
  (if indexing then 0x80 else 0) :: (codedString T huffman f.1 ++ codedString T huffman f.2)

theorem addString_bytes (T : HuffmanTables) (enc : HeaderEncoder) (input : ChulaBuffer) (huffman : Bool)
    (output : ChulaBuffer) :
    (addString T enc input huffman output).1 = .ok ∧
      (addString T enc input huffman output).2.2.bytes = output.bytes ++ codedString T huffman input.bytes := by
  cases huffman with
  | true => exact addString_huffman T enc input output
  | false =>
    refine ⟨rfl, ?_⟩
    simp only [addString, Bool.false_eq_true, if_false, chulaBufferAddBuffer_bytes, chulaBufferAdd_bytes,
      List.append_assoc]
    rfl

/-- **What is rendered.** -/
theorem renderLiteral_bytes (T : HuffmanTables) (enc : HeaderEncoder) (field : HeaderField) (huffman indexing : Bool)
    (output : ChulaBuffer) :
    (renderLiteral T enc field huffman indexing output).1 = .ok ∧
      (renderLiteral T enc field huffman indexing output).2.2.bytes =
        output.bytes ++ literalOctets T huffman indexing field.pair := by
  have hfirst : (if indexing then chulaBufferAddChar output 0x80 else chulaBufferAddChar output 0) =
      chulaBufferAddChar output (if indexing then 0x80 else 0) := by
    cases indexing <;> rfl
  obtain ⟨hret, hbytes⟩ := addString_bytes T enc field.name huffman
    (chulaBufferAddChar output (if indexing then 0x80 else 0))
  obtain ⟨hret2, hbytes2⟩ := addString_bytes T
    (addString T enc field.name huffman (chulaBufferAddChar output (if indexing then 0x80 else 0))).2.1 field.value huffman
    (addString T enc field.name huffman (chulaBufferAddChar output (if indexing then 0x80 else 0))).2.2
  simp only [renderLiteral, hfirst, hret, ne_eq, not_true_eq_false, if_false]
  refine ⟨hret2, ?_⟩
  rw [hbytes2, hbytes]
  simp [literalOctets, HeaderField.pair]

/-- A fresh parser reads the literal of `field` from `len` octets at `n`, and has it in its table when it is indexed. -/
def LiteralRead (T : HuffmanTables) (t0 : HeaderTable) (buf : Block) (n len : ℕ) (field : HeaderField) (indexing : Bool)
    (g : HeaderField) : Prop :=
  ∃ ctx' field', hpackHeaderParserField T (hpackHeaderParserInit t0) buf n g = .ok (.ok, ctx', field', len) ∧
    field'.pair = field.pair ∧ field'.flags.rep = (if indexing then .repIncIndexed else .repWoIndexing) ∧
    ctx'.table.entries.map (fun e => (e.name, e.value)) = if indexing then [field.pair] else []

/-- The lengths of both strings are read, with as many octets of the block as there are from them on. -/
def LiteralReadable (T : HuffmanTables) (huffman : Bool) (f : List UInt8 × List UInt8) (rest : ℕ) : Prop :=
  Readable ((codedString T huffman f.1).length + (codedString T huffman f.2).length + rest)
      (integerLength 7 (codedOctets T huffman f.1).length) ∧
    Readable ((codedString T huffman f.2).length + rest) (integerLength 7 (codedOctets T huffman f.2).length)

instance (T : HuffmanTables) (huffman : Bool) (f : List UInt8 × List UInt8) (rest : ℕ) :
    Decidable (LiteralReadable T huffman f rest) := by unfold LiteralReadable; infer_instance

section Parse

variable {huffman : Bool} {f : List UInt8 × List UInt8} {ctx ctx' : Context} {field field' : HeaderField}

theorem codedString_pos (T : HuffmanTables) (huffman : Bool) (s : List UInt8) : 1 ≤ (codedString T huffman s).length := by
  rw [codedString, framedOctets_length, integerLength]
  split_ifs <;> omega

/-- **The index 0** takes one octet. -/
theorem parserField_indexZero (hoff : n < buf.len) (hget : buf.get n = 0x80)
    (hr : hpackHeaderParserField T ctx buf n field = .ok (.ok, ctx', field', con)) : con = 1 := by
  have hdec : ∀ {num con : ℕ}, hpackIntegerDecode 7 (buf.mem n) (buf.rest n) 0 = (.ok, num, con) → con = 1 := by
    intro num con hdec
    have hshort : (buf.mem n 0).toNat &&& prefixLimit 7 < prefixLimit 7 := by
      rw [show buf.mem n 0 = 0x80 from hget]
      decide
    exact ((hpackIntegerDecode_ok_iff.mp hdec).1.unique (.short hshort)).2
  rw [parserField_indexed hoff.ne (by rw [hget]; decide) (by rw [hget]; decide)] at hr
  cases parseIndexed_cases hr with
  | removed h _ _ => exact hdec h
  | referenced h => exact hdec h.dec
  | inserted h _ => exact hdec h.dec
  | unread _ hne => exact absurd rfl hne
  | unadded _ _ hne => exact absurd rfl hne

/-- Where the parts of a literal are. -/
theorem literal_parts {indexing : Bool} (h : buf.octets = pre ++ (literalOctets T huffman indexing f ++ post)) :
    pre.length < buf.len ∧ buf.get pre.length = (if indexing then 0x80 else 0) ∧
      buf.octets = (pre ++ [if indexing then 0x80 else 0]) ++
        (codedString T huffman f.1 ++ (codedString T huffman f.2 ++ post)) ∧
      buf.octets = (pre ++ (if indexing then 0x80 else 0) :: codedString T huffman f.1) ++
        (codedString T huffman f.2 ++ post) := by
  have hlen := Block.len_of_octets h
  have hpos : 0 < (literalOctets T huffman indexing f).length := Nat.succ_pos _
  refine ⟨by omega, Option.some.inj (Block.mem_of_octets h hpos), ?_, ?_⟩
  · rw [h, literalOctets]
    simp
  · rw [h, literalOctets]
    simp

/-- **Without indexing**, the literal is read when its lengths are, and is an error otherwise. -/
theorem Generated.parserField_literal (hT : Generated c T padding) (heos : 7 < (c.bits eos).length)
    (h : buf.octets = pre ++ (literalOctets T huffman false f ++ post)) (ctx : Context) (field : HeaderField) :
    (LiteralReadable T huffman f post.length → ∃ field', hpackHeaderParserField T ctx buf pre.length field =
        .ok (.ok, { ctx with finished := false }, field', (literalOctets T huffman false f).length) ∧
          field'.pair = f ∧ field'.flags.rep = .repWoIndexing) ∧
      (¬ LiteralReadable T huffman f post.length → ∃ ctx' field',
        hpackHeaderParserField T ctx buf pre.length field = .ok (.error, ctx', field', 0)) := by
  obtain ⟨hoff, hget, hoct1, hoct2⟩ := literal_parts h
  have hpre1 : (pre ++ [if false = true then (0x80 : UInt8) else 0]).length = pre.length + 1 := by simp
  have hpre2 : (pre ++ (if false = true then (0x80 : UInt8) else 0) :: codedString T huffman f.1).length =
      pre.length + 1 + (codedString T huffman f.1).length := by
    rw [List.length_append, List.length_cons]
    omega
  have hpost : (codedString T huffman f.1).length + (codedString T huffman f.2 ++ post).length =
      (codedString T huffman f.1).length + (codedString T huffman f.2).length + post.length := by
    rw [List.length_append]
    omega
  have hname := fun hread => hpre1 ▸ hT.codedAt heos hoct1 (hpost ▸ hread)
  have hvalue := fun hread => hpre2 ▸ hT.codedAt heos hoct2 hread
  constructor
  · rintro ⟨hread1, hread2⟩
    obtain ⟨field', heq, hpair, hrep⟩ := parserField_strings hget (hname hread1) (hvalue hread2) ctx field
    refine ⟨field', ?_, hpair, hrep⟩
    rw [heq, literalOctets, List.length_cons, List.length_append,
      show 1 + (codedString T huffman f.1).length + (codedString T huffman f.2).length =
        (codedString T huffman f.1).length + (codedString T huffman f.2).length + 1 by omega]
  · intro hnot
    obtain ⟨hrest1, hin1⟩ := framed_rest hoct1
    obtain ⟨hrest2, hin2⟩ := framed_rest hoct2
    by_cases hread1 : Readable ((codedString T huffman f.1).length + (codedString T huffman f.2).length + post.length)
        (integerLength 7 (codedOctets T huffman f.1).length)
    · -- the value is not read
      refine parserField_unvalued hget (hname hread1) (hpre2 ▸ parseString_unread (framed_integerAt hoct2) (by omega) ?_)
        ctx field
      rw [hrest2]
      exact fun hread2 => hnot ⟨hread1, hread2⟩
    · refine parserField_unnamed hoff hget (hpre1 ▸ parseString_unread (framed_integerAt hoct1) (by omega) ?_) ctx field
      rw [hrest1]
      exact fun hread => hread1 (hpost ▸ hread)

end Parse

/-- **A rendered literal is read back** when it is not indexed and the lengths of its strings are read, and only
then. -/
theorem render_literal_parsed (c : HuffmanSource) (T : HuffmanTables) (hT : huffmanGen c.data = some T)
    (heos : 7 < (c.bits eos).length) (t0 : HeaderTable) (enc : HeaderEncoder) (field : HeaderField)
    (huffman indexing : Bool) (output : ChulaBuffer) (g : HeaderField) (buf : Block) (pre e post : List UInt8)
    (hrender : (renderLiteral T enc field huffman indexing output).2.2.bytes = output.bytes ++ e)
    (hbuf : buf.octets = pre ++ (e ++ post)) :
    (renderLiteral T enc field huffman indexing output).1 = .ok ∧
      (LiteralRead T t0 buf pre.length e.length field indexing g ↔
        indexing = false ∧ LiteralReadable T huffman field.pair post.length) := by
  obtain ⟨hret, hbytes⟩ := renderLiteral_bytes T enc field huffman indexing output
  obtain rfl := List.append_cancel_left (hrender.symm.trans hbytes)
  obtain ⟨padding, hgen⟩ := generated_of_huffmanGen hT
  refine ⟨hret, ?_⟩
  cases indexing with
  | true =>
    refine iff_of_false ?_ fun h => Bool.noConfusion h.1
    rintro ⟨ctx', field', hr, -⟩
    obtain ⟨hoff, hget, -⟩ := literal_parts hbuf
    have hone := parserField_indexZero hoff hget hr
    have h1 := codedString_pos T huffman field.pair.1
    rw [literalOctets, List.length_cons, List.length_append] at hone
    omega
  | false =>
    obtain ⟨hok, herror⟩ := hgen.parserField_literal heos hbuf (hpackHeaderParserInit t0) g
    rw [and_iff_right rfl]
    constructor
    · rintro ⟨ctx', field', hr, -⟩
      by_contra hnot
      obtain ⟨ctx'', field'', hr'⟩ := herror hnot
      rw [hr'] at hr
      cases hr
    · intro hread
      obtain ⟨field', hr, hpair, hrep⟩ := hok hread
      refine ⟨_, field', hr, hpair, hrep, ?_⟩
      have hempty : (hpackHeaderTableInit t0).entries = [] := (Holds.clear t0).entries_eq
      exact congrArg (List.map fun e => (e.name, e.value)) hempty

section Samples

/-- The literal `a: b` in plain octets, and two more. -/
def plainLiteral : Block := ⟨[0, 1, 97, 1, 98, 7, 7], 0, by decide⟩

/-- The same literal, rendered with indexing. -/
def indexedLiteral : Block := ⟨[0x80, 1, 97, 1, 98], 0, by decide⟩

end Samples

/-- What is rendered without Huffman coding. -/
theorem literalOctets_plain (T : HuffmanTables) (indexing : Bool) :
    literalOctets T false indexing ([97], [98]) = [if indexing then 0x80 else 0, 1, 97, 1, 98] := by
  have hlen : hpackIntegerEncode 7 1 0 = [1] := by decide
  have hone : ∀ b : UInt8, codedString T false [b] = [1, b] := by
    intro b
    rw [codedString, codedOctets, if_neg Bool.false_ne_true, if_neg Bool.false_ne_true, framedOctets,
      List.length_singleton, hlen]
    rfl
  rw [literalOctets, hone, hone]
  rfl

theorem render_literal_parsed_plain : ∃ T, huffmanGen byteCode.data = some T ∧
    (renderLiteral T hpackHeaderEncoderInit (plainField [97] [98]) false false chulaBufferInit).1 = .ok ∧
      LiteralRead T zeroTable plainLiteral 0 5 (plainField [97] [98]) false hpackHeaderFieldInit := by
  obtain ⟨T, padding, hT, -⟩ := exists_byteTables
  obtain ⟨hret, hiff⟩ := render_literal_parsed byteCode T hT (by decide) zeroTable hpackHeaderEncoderInit
    (plainField [97] [98]) false false chulaBufferInit hpackHeaderFieldInit plainLiteral [] [0, 1, 97, 1, 98] [7, 7]
    ((renderLiteral_bytes T _ _ _ _ _).2.trans (congrArg _ (literalOctets_plain T false))) rfl
  exact ⟨T, hT, hret, hiff.mpr ⟨rfl, .inl rfl, .inl rfl⟩⟩

/-- The parser takes the first octet for the index 0, and an entry that is not there for its field. -/
theorem render_literal_misread : ∃ T, huffmanGen byteCode.data = some T ∧
    (renderLiteral T hpackHeaderEncoderInit (plainField [97] [98]) false true chulaBufferInit).2.2.bytes =
      indexedLiteral.octets ∧
    ∃ r, hpackHeaderParserField T (hpackHeaderParserInit zeroTable) indexedLiteral 0 hpackHeaderFieldInit = .ok r ∧
      r.1 = .ok ∧ r.2.2.2 = 1 ∧ r.2.2.1.pair = ([], []) ∧ r.2.1.table.numHeaders = 0 := by
  obtain ⟨T, padding, hT, -⟩ := exists_byteTables
  refine ⟨T, hT, (renderLiteral_bytes T _ _ _ _ _).2.trans (literalOctets_plain T true), ?_⟩
  rw [parserField_indexed (by decide) (by decide) (by decide)]
  decide

end LibHpack
