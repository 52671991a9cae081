import LibHpack.HeaderEncoder
import LibHpack.HeaderParser.Literals
import LibHpack.HeaderParser.Session

/-!
# LibHpack.RoundTrip — a rendered block is parsed

The encoder's output is a block of literals, and the parser reads the fields back from it one by one
(`parserAllLoop_render`).  It does not get through every block: `hpack_integer_decode` takes the number of octets that
are left as an `unsigned char`.  So a string of 127 octets or more, whose length takes more than one octet, is an error
when the number of octets from there on is 0 or 1 modulo 256, or a bit more for longer strings (`LengthsReadable`).
-/

namespace LibHpack

variable {T : HuffmanTables} {c : HuffmanSource} {padding : List ℕ} {buf : Block} {pre e post s : List UInt8}
  {n con : ℕ}

/-- The parser gets to the end of the length of every string: it is one octet, or no longer than the low eight bits of
the number of octets that are left. -/
def LengthsReadable (T : HuffmanTables) : List (List UInt8 × List UInt8) → Prop
  | [] => True
  | f :: fields =>
    Readable (stringLength T f.1 + stringLength T f.2 + blockLength T fields) (integerLength 7 (huffmanLength T f.1)) ∧
      Readable (stringLength T f.2 + blockLength T fields) (integerLength 7 (huffmanLength T f.2)) ∧
      LengthsReadable T fields

/-! ### Strings -/

/-- The length of some octets, in whose first octet a bit says what they are, and the octets. -/
def framedOctets (bit : UInt8) (e : List UInt8) : List UInt8 := hpackIntegerEncode 7 e.length bit ++ e

theorem framedOctets_length (bit : UInt8) (e : List UInt8) :
    (framedOctets bit e).length = integerLength 7 e.length + e.length := by
  rw [framedOctets, List.length_append, hpackIntegerEncode_length]

section Framed

variable {bit : UInt8}

/-- The length is at the start. -/
theorem framed_integerAt (h : buf.octets = pre ++ (framedOctets bit e ++ post)) :
    IntegerAt 7 (buf.mem pre.length) e.length (integerLength 7 e.length) := by
  rw [framedOctets, List.append_assoc] at h
  rw [← hpackIntegerEncode_length 7 _ bit]
  exact hpackIntegerEncode_integerAt (by decide) fun j hj => Block.mem_of_octets h hj

/-- The octets are behind it. -/
theorem framed_slice (h : buf.octets = pre ++ (framedOctets bit e ++ post)) :
    buf.slice (pre.length + integerLength 7 e.length) e.length = e := by
  rw [framedOctets, List.append_assoc, ← List.append_assoc] at h
  have := Block.slice_of_octets h
  rwa [List.length_append, hpackIntegerEncode_length] at this

/-- The first octet keeps its bit. -/
theorem framed_bit (h : buf.octets = pre ++ (framedOctets bit e ++ post)) :
    buf.get pre.length &&& 0x80 = bit &&& 0x80 := by
  rw [framedOctets, List.append_assoc] at h
  obtain ⟨b, hb, hhigh⟩ := hpackIntegerEncode_high (N := 7) e.length bit (by decide)
  have hpos : 0 < (hpackIntegerEncode 7 e.length bit).length := by
    by_contra hzero
    rw [List.getElem?_eq_none (by omega)] at hb
    cases hb
  have hget : some (buf.get pre.length) = some b := (Block.mem_of_octets h hpos).trans hb
  rw [Option.some.inj hget]
  exact hhigh

end Framed

/-- The octets that the encoder puts into a string. -/
def codedOctets (T : HuffmanTables) (huffman : Bool) (s : List UInt8) : List UInt8 :=
  if huffman then huffmanOctets T s else s

/-- The octets of a string, Huffman-coded or not. -/
def codedString (T : HuffmanTables) (huffman : Bool) (s : List UInt8) : List UInt8 :=
  framedOctets (if huffman then 0x80 else 0) (codedOctets T huffman s)

/-- The number of octets from the length on. -/
theorem framed_rest {bit : UInt8} (h : buf.octets = pre ++ (framedOctets bit e ++ post)) :
    buf.len - pre.length = (framedOctets bit e).length + post.length ∧
      pre.length + (framedOctets bit e).length ≤ buf.len := by
  have := Block.len_of_octets h
  omega

/-- A length that is not read is an error. -/
theorem parseString_unread {len icon : ℕ} (hint : IntegerAt 7 (buf.mem n) len icon) (hn : n ≤ buf.len)
    (hread : ¬ Readable (buf.len - n) icon) (string : ChulaBuffer) :
    ∃ huffman, parseString T buf n string = .ok (.error, string, huffman, 0) := by
  rcases decode_or_error hint with hdec | ⟨v, hdec⟩
  · have := (hpackIntegerDecode_ok_iff.mp hdec).2.2
    rw [Block.rest_eq hn] at this
    exact absurd this hread
  · refine ⟨decide (buf.get n &&& 0x80 ≠ 0), ?_⟩
    simp only [parseString, hdec]
    rfl

namespace Generated

/-- **What the encoder makes of a string is a string representation**, when its length is read. -/
theorem codedAt (hT : Generated c T padding) (heos : 7 < (c.bits eos).length) {huffman : Bool}
    (h : buf.octets = pre ++ (codedString T huffman s ++ post))
    (hread : Readable ((codedString T huffman s).length + post.length)
      (integerLength 7 (codedOctets T huffman s).length)) :
    StringAt T buf pre.length s (codedString T huffman s).length := by
  obtain ⟨hrest, hin⟩ := framed_rest h
  have hlen := framedOctets_length (if huffman then 0x80 else 0) (codedOctets T huffman s)
  have hint := framed_integerAt h
  have hslice := framed_slice h
  have hbit := framed_bit h
  rw [codedString] at hread
  rw [← hrest] at hread
  rw [codedString, hlen]
  cases huffman with
  | false =>
    have hstring := StringAt.plain (T := T) (hbit.trans (by decide)) hint hread (by omega)
    rwa [hslice] at hstring
  | true =>
    obtain ⟨context, out, hdec, hout⟩ := hT.hpackHuffmanDecode_huffmanOctets heos s
    have hdec' : hpackHuffmanDecode T (codedOctets T true s) chulaBufferInit huffmanDecCtxInit = (.ok, context, out) := hdec
    rw [← hslice] at hdec'
    have hstring := StringAt.huffman (by rw [hbit]; decide) hint hread (by omega) hdec'
    rwa [hout] at hstring

/-- **A string of the encoder is a string representation**, when its length is read. -/
theorem stringAt (hT : Generated c T padding) (heos : 7 < (c.bits eos).length)
    (h : buf.octets = pre ++ (stringOctets T s ++ post)) (hn : pre.length = n)
    (hread : Readable (stringLength T s + post.length) (integerLength 7 (huffmanLength T s))) :
    StringAt T buf n s (stringLength T s) := by
  subst hn
  rw [← hT.stringOctets_length heos] at hread ⊢
  rw [← hT.huffmanOctets_length heos] at hread
  have hcoded : buf.octets = pre ++ (codedString T true s ++ post) := h
  exact hT.codedAt heos hcoded hread

/-- **Otherwise it is an error.** -/
theorem parseString_error (hT : Generated c T padding) (heos : 7 < (c.bits eos).length)
    (h : buf.octets = pre ++ (stringOctets T s ++ post)) (hn : pre.length = n)
    (hread : ¬ Readable (stringLength T s + post.length) (integerLength 7 (huffmanLength T s))) (string : ChulaBuffer) :
    ∃ huffman, parseString T buf n string = .ok (.error, string, huffman, 0) := by
  subst hn
  rw [← hT.stringOctets_length heos, ← hT.huffmanOctets_length heos] at hread
  have hframed : buf.octets = pre ++ (framedOctets 0x80 (huffmanOctets T s) ++ post) := h
  obtain ⟨hrest, hin⟩ := framed_rest hframed
  exact parseString_unread (framed_integerAt hframed) (by omega) (by rwa [hrest]) string

end Generated

/-! ### Fields -/

variable {f : List UInt8 × List UInt8} {ctx : Context}

/-- A literal without indexing and with a new name. -/
theorem parserField_new (hoff : n < buf.len) (hget : buf.get n = 0) (ctx : Context) (field : HeaderField) :
    hpackHeaderParserField T ctx buf n field = (do
      let (ret, field, con) ← parseHeaderPair T buf n ctx.table (hpackHeaderFieldClean field)
      if ret ≠ .ok then return (ret, { ctx with finished := false }, field, con)
      else return (.ok, { ctx with finished := false },
        { field with flags := { field.flags with rep := .repWoIndexing } }, con)) := by
  have hup : ¬ (0 : UInt8) &&& 0xE0 = 0x20 := by decide
  have hidx : ¬ (0 : UInt8) &&& 0x80 ≠ 0 := by decide
  have hinc : ¬ (0 : UInt8) &&& 0xC0 = 0x40 := by decide
  have hnever : ¬ (0 : UInt8) &&& 0xF0 ≠ 0 := by decide
  rw [parserField_literal hoff.ne (by rwa [hget]) (by rwa [hget])]
  simp only [hget, if_neg hinc, if_neg hnever]

section New

variable {name value : List UInt8} {c1 c2 : ℕ}

/-- **Its two strings are parsed.** -/
theorem parserField_strings (hget : buf.get n = 0) (hname : StringAt T buf (n + 1) name c1)
    (hvalue : StringAt T buf (n + 1 + c1) value c2) (ctx : Context) (field : HeaderField) :
    ∃ field', hpackHeaderParserField T ctx buf n field = .ok (.ok, { ctx with finished := false }, field', 1 + c1 + c2) ∧
      field'.pair = (name, value) ∧ field'.flags.rep = .repWoIndexing := by
  have hle := hname.le_len
  have hpos := hname.pos
  obtain ⟨f1, heq1, hbytes1, hval1⟩ := parseHeaderName_new T ctx.table (hpackHeaderFieldClean field)
    (by rw [hget]; decide) hname
  obtain ⟨f2, heq2, hname2, hbytes2⟩ := parseHeaderPair_ok T (by omega) heq1 hvalue
  refine ⟨{ f2 with flags := { f2.flags with rep := .repWoIndexing } }, ?_, ?_, rfl⟩
  · rw [parserField_new (by omega) hget, heq2, show n + 1 + c1 + c2 - n = 1 + c1 + c2 by omega]
    rfl
  · rw [HeaderField.pair, hname2, hbytes1, hbytes2, hval1]
    simp [hpackHeaderFieldClean]

/-- The name is an error. -/
theorem parserField_unnamed (hoff : n < buf.len) (hget : buf.get n = 0)
    (hname : ∀ string, ∃ huffman, parseString T buf (n + 1) string = .ok (.error, string, huffman, 0))
    (ctx : Context) (field : HeaderField) :
    ∃ ctx' field', hpackHeaderParserField T ctx buf n field = .ok (.error, ctx', field', 0) := by
  have hbuf := buf.len_succ_lt
  have hlow : buf.get n &&& 0x0F = 0 := by rw [hget]; decide
  obtain ⟨huffman, herr⟩ := hname (hpackHeaderFieldClean field).name
  rw [parserField_new hoff hget]
  refine ⟨{ ctx with finished := false }, hpackHeaderFieldClean field, ?_⟩
  simp only [parseHeaderPair, parseHeaderName, hlow, ne_eq, not_true_eq_false, if_false,
    Nat.mod_eq_of_lt (show n + 1 < 2 ^ 32 by omega), herr, ok_bind]
  rfl

/-- The value is one. -/
theorem parserField_unvalued (hget : buf.get n = 0) (hname : StringAt T buf (n + 1) name c1)
    (hvalue : ∀ string, ∃ huffman, parseString T buf (n + 1 + c1) string = .ok (.error, string, huffman, 0))
    (ctx : Context) (field : HeaderField) :
    ∃ ctx' field', hpackHeaderParserField T ctx buf n field = .ok (.error, ctx', field', 0) := by
  have hle := hname.le_len
  have hpos := hname.pos
  obtain ⟨f1, heq1, -, -⟩ := parseHeaderName_new T ctx.table (hpackHeaderFieldClean field)
    (by rw [hget]; decide) hname
  obtain ⟨huffman, herr⟩ := hvalue f1.value
  rw [parserField_new (by omega) hget]
  refine ⟨{ ctx with finished := false }, f1, ?_⟩
  simp only [parseHeaderPair, heq1, ok_bind, ne_eq, not_true_eq_false, if_false, herr]
  rfl

end New

/-- The first octet of a field. -/
theorem fieldOctets_first (h : buf.octets = pre ++ (fieldOctets T f ++ post)) :
    pre.length < buf.len ∧ buf.get pre.length = 0 := by
  have hlen := Block.len_of_octets h
  have hpos : 0 < (fieldOctets T f).length := Nat.succ_pos _
  exact ⟨by omega, Option.some.inj (Block.mem_of_octets h hpos)⟩

namespace Generated

/-- The name is behind the first octet. -/
theorem name_part (hT : Generated c T padding) (heos : 7 < (c.bits eos).length)
    (h : buf.octets = pre ++ (fieldOctets T f ++ post)) :
    ∃ post', buf.octets = (pre ++ [0]) ++ (stringOctets T f.1 ++ post') ∧ (pre ++ [0]).length = pre.length + 1 ∧
      stringLength T f.1 + post'.length = stringLength T f.1 + stringLength T f.2 + post.length := by
  refine ⟨stringOctets T f.2 ++ post, by simp [h, fieldOctets], by simp, ?_⟩
  rw [List.length_append, hT.stringOctets_length heos, Nat.add_assoc]

/-- The value is behind the name. -/
theorem value_part (hT : Generated c T padding) (heos : 7 < (c.bits eos).length)
    (h : buf.octets = pre ++ (fieldOctets T f ++ post)) :
    ∃ pre', buf.octets = pre' ++ (stringOctets T f.2 ++ post) ∧
      pre'.length = pre.length + 1 + stringLength T f.1 := by
  refine ⟨pre ++ 0 :: stringOctets T f.1, by simp [h, fieldOctets], ?_⟩
  rw [List.length_append, List.length_cons, hT.stringOctets_length heos]
  omega

/-- **A field is parsed.** -/
theorem parserField_ok (hT : Generated c T padding) (heos : 7 < (c.bits eos).length)
    (h : buf.octets = pre ++ (fieldOctets T f ++ post))
    (hname : Readable (stringLength T f.1 + stringLength T f.2 + post.length) (integerLength 7 (huffmanLength T f.1)))
    (hvalue : Readable (stringLength T f.2 + post.length) (integerLength 7 (huffmanLength T f.2)))
    (ctx : Context) (field : HeaderField) :
    ∃ field', hpackHeaderParserField T ctx buf pre.length field =
        .ok (.ok, { ctx with finished := false }, field', fieldLength T f) ∧ field'.pair = f := by
  obtain ⟨-, hget⟩ := fieldOctets_first h
  obtain ⟨post1, hoct1, hpre1, hlen1⟩ := hT.name_part heos h
  obtain ⟨pre2, hoct2, hpre2⟩ := hT.value_part heos h
  obtain ⟨field', heq, hpair, -⟩ := parserField_strings hget (hT.stringAt heos hoct1 hpre1 (by rwa [hlen1]))
    (hT.stringAt heos hoct2 hpre2 hvalue) ctx field
  exact ⟨field', heq, hpair⟩

/-- **A field is not parsed** when one of the lengths is not read. -/
theorem parserField_error (hT : Generated c T padding) (heos : 7 < (c.bits eos).length)
    (h : buf.octets = pre ++ (fieldOctets T f ++ post))
    (hread : ¬ (Readable (stringLength T f.1 + stringLength T f.2 + post.length)
        (integerLength 7 (huffmanLength T f.1)) ∧
      Readable (stringLength T f.2 + post.length) (integerLength 7 (huffmanLength T f.2))))
    (ctx : Context) (field : HeaderField) :
    ∃ ctx' field', hpackHeaderParserField T ctx buf pre.length field = .ok (.error, ctx', field', 0) := by
  obtain ⟨hoff, hget⟩ := fieldOctets_first h
  obtain ⟨post1, hoct1, hpre1, hlen1⟩ := hT.name_part heos h
  by_cases hname : Readable (stringLength T f.1 + stringLength T f.2 + post.length)
      (integerLength 7 (huffmanLength T f.1))
  · -- the name is read, and the value is not
    obtain ⟨pre2, hoct2, hpre2⟩ := hT.value_part heos h
    exact parserField_unvalued hget (hT.stringAt heos hoct1 hpre1 (by rwa [hlen1]))
      (hT.parseString_error heos hoct2 hpre2 fun hvalue => hread ⟨hname, hvalue⟩) ctx field
  · exact parserField_unnamed hoff hget (hT.parseString_error heos hoct1 hpre1 (by rwa [hlen1])) ctx field

end Generated

/-! ### Blocks -/

/-- The end of a block, with no reference to emit. -/
theorem parserField_eof (T : HuffmanTables) (buf : Block)
    (hempty : ∀ i, ¬ hpackSetExists ctx.refNotEmitted i = true) (field : HeaderField) :
    ∃ ctx' field', hpackHeaderParserField T ctx buf buf.len field = .ok (.eof, ctx', field', 0) := by
  have hnone := iterNext_none hempty ctx.iterNotEmitted
  rcases hnext : hpackSetIterNext ctx.refNotEmitted ctx.iterNotEmitted with ⟨r, iter⟩
  rw [hnext] at hnone
  obtain rfl : r = none := hnone
  rw [parserField_end rfl, finalReferenceSetProcess]
  by_cases hfin : ctx.finished = true
  · rw [if_pos hfin]
    exact ⟨_, _, rfl⟩
  · simp only [if_neg hfin, hpackHeaderTableIterNext, hnext, Option.map_none]
    exact ⟨_, _, rfl⟩

/-- **The loop** reads the fields from `pre` on, or ends with an error. -/
theorem Generated.parserAllLoop_render (hT : Generated c T padding) (heos : 7 < (c.bits eos).length)
    (fields : List (List UInt8 × List UInt8)) (hne : ∀ f ∈ fields, f ≠ ([], []))
    (h : buf.octets = pre ++ fields.flatMap (fieldOctets T))
    (hempty : ∀ i, ¬ hpackSetExists ctx.refNotEmitted i = true) {fuel consumed : ℕ} (hfuel : fields.length < fuel)
    (hconsumed : consumed < 2 ^ 32) (store : List HeaderField) (field : HeaderField) :
    ∃ ret ctx' store' consumed', parserAllLoop T buf fuel ctx (some store) pre.length field consumed =
        .ok (ret, ctx', some store', consumed') ∧
      (LengthsReadable T fields → ret = .ok ∧ consumed' = (consumed + blockLength T fields) % 2 ^ 32 ∧
        store'.map HeaderField.pair = store.map HeaderField.pair ++ fields) ∧
      (¬ LengthsReadable T fields → ret = .error) := by
  induction fields generalizing pre ctx fuel consumed store field with
  | nil =>
    obtain ⟨fuel, rfl⟩ := Nat.exists_eq_succ_of_ne_zero (Nat.ne_of_gt (Nat.zero_lt_of_lt hfuel))
    have hend : pre.length = buf.len := by rw [Block.len, h]; simp
    obtain ⟨ctx', field', heq⟩ := parserField_eof T buf hempty field
    refine ⟨.ok, ctx', store, consumed, ?_, fun _ => ⟨rfl, ?_, by simp⟩, fun hnot => absurd trivial hnot⟩
    · rw [parserAllLoop, hend, heq]
      rfl
    · exact (Nat.mod_eq_of_lt hconsumed).symm
  | cons f fields ih =>
    obtain ⟨fuel, rfl⟩ := Nat.exists_eq_succ_of_ne_zero (Nat.ne_of_gt (Nat.zero_lt_of_lt hfuel))
    rw [List.flatMap_cons] at h
    have hrest := hT.flatMap_fieldOctets_length heos fields
    have hlen := hT.fieldOctets_length heos f
    have hbuf := buf.len_succ_lt
    have htotal := Block.len_of_octets h
    by_cases hread : Readable (stringLength T f.1 + stringLength T f.2 + (fields.flatMap (fieldOctets T)).length)
        (integerLength 7 (huffmanLength T f.1)) ∧
      Readable (stringLength T f.2 + (fields.flatMap (fieldOctets T)).length) (integerLength 7 (huffmanLength T f.2))
    · obtain ⟨field', heq, hpair⟩ := hT.parserField_ok heos h hread.1 hread.2 ctx field
      have hcontents : hpackHeaderFieldIsEmpty field' = false := by
        rw [← Bool.not_eq_true, hpackHeaderFieldIsEmpty_iff]
        rintro ⟨hname, hvalue⟩
        exact hne f List.mem_cons_self (by rw [← hpair, HeaderField.pair, hname, hvalue])
      have hempty' : ∀ i, ¬ hpackSetExists ({ ctx with finished := false } : Context).refNotEmitted i = true := hempty
      rw [← List.append_assoc] at h
      obtain ⟨ret, ctx', store', consumed', hloop, hok, herror⟩ := ih (fun f' hf' => hne f' (List.mem_cons_of_mem f hf')) h
        hempty' (show fields.length < fuel by simpa using hfuel)
        (Nat.mod_lt (consumed + fieldLength T f) (by decide)) (hpackHeaderStoreEmit store field') field'
      refine ⟨ret, ctx', store', consumed', ?_, fun hall => ?_, fun hnot => herror fun hall => hnot ?_⟩
      · rw [List.length_append, hlen] at hloop
        rw [parserAllLoop, heq]
        simp only [ok_bind, reduceCtorEq, if_false, ne_eq, not_true_eq_false, hcontents, Bool.not_false, if_true,
          Option.map_some, Nat.mod_eq_of_lt (show pre.length + fieldLength T f < 2 ^ 32 by omega), hloop]
      · obtain ⟨hret, hcon, hstore⟩ := hok hall.2.2
        refine ⟨hret, ?_, ?_⟩
        · rw [hcon, Nat.mod_add_mod, blockLength, blockLength, List.map_cons, List.sum_cons, Nat.add_assoc]
        · rw [hstore, hpackHeaderStoreEmit_pairs, hpair, List.append_assoc, List.singleton_append]
      · rw [hrest] at hread
        exact ⟨hread.1, hread.2, hall⟩
    · obtain ⟨ctx', field', heq⟩ := hT.parserField_error heos h hread ctx field
      refine ⟨.error, ctx', store, consumed, ?_, fun hall => absurd ?_ hread, fun _ => rfl⟩
      · rw [parserAllLoop, heq]
        rfl
      · rw [hrest]
        exact ⟨hall.1, hall.2.1⟩

theorem length_le_blockLength (T : HuffmanTables) (fields : List (List UInt8 × List UInt8)) :
    fields.length ≤ blockLength T fields := by
  rw [blockLength, ← List.length_map (f := fieldLength T)]
  refine List.length_le_sum_of_one_le _ fun n hn => ?_
  obtain ⟨f, -, rfl⟩ := List.mem_map.mp hn
  rw [fieldLength]
  omega

/-- **A rendered block**, from a fresh parser and an empty store. -/
theorem Generated.parserAll_render (hT : Generated c T padding) (heos : 7 < (c.bits eos).length)
    (fields : List (List UInt8 × List UInt8)) (hne : ∀ f ∈ fields, f ≠ ([], [])) (t0 : HeaderTable)
    (h : buf.octets = (hpackHeaderEncoderRender T (encoderOf fields) chulaBufferInit).2.2.bytes) {consumed : ℕ}
    (hconsumed : consumed < 2 ^ 32) :
    ∃ ret ctx store consumed', hpackHeaderParserAll T (hpackHeaderParserInit t0) (some []) buf 0 consumed =
        .ok (ret, ctx, some store, consumed') ∧
      (LengthsReadable T fields → ret = .ok ∧ consumed' = (consumed + buf.len) % 2 ^ 32 ∧
        store.map HeaderField.pair = fields) ∧
      (¬ LengthsReadable T fields → ret = .error) := by
  rw [render_encoderOf] at h
  have hlen : buf.len = blockLength T fields := by
    rw [Block.len, h, hT.flatMap_fieldOctets_length heos]
  have hfuel := length_le_blockLength T fields
  rw [hlen, hpackHeaderParserAll]
  exact hT.parserAllLoop_render heos fields hne (show buf.octets = [] ++ fields.flatMap (fieldOctets T) from h)
    (fun i => by simp [hpackHeaderParserInit]) (show fields.length < buf.len - 0 + 130 by omega) hconsumed []
    hpackHeaderFieldInit

/-- Short strings are no problem, however long the block is. -/
theorem lengthsReadable_of_short {fields : List (List UInt8 × List UInt8)}
    (h : ∀ f ∈ fields, huffmanLength T f.1 < 127 ∧ huffmanLength T f.2 < 127) : LengthsReadable T fields := by
  induction fields with
  | nil => trivial
  | cons f fields ih =>
    obtain ⟨hname, hvalue⟩ := h f List.mem_cons_self
    exact ⟨.inl (if_pos hname), .inl (if_pos hvalue), ih fun f' hf' => h f' (List.mem_cons_of_mem f hf')⟩

theorem exists_byteTables : ∃ T padding, huffmanGen byteCode.data = some T ∧ Generated byteCode T padding := by
  obtain ⟨T, hT⟩ := huffmanGen_data byteCode fun a => by rw [byteCode_length]; split_ifs <;> decide
  obtain ⟨padding, hgen⟩ := generated_of_huffmanGen hT
  exact ⟨T, padding, hT, hgen⟩

/-- The length of a string without the octet 255. -/
theorem huffmanLength_byteCode (h : Generated byteCode T padding) (hs : ∀ b ∈ s, b.toNat < 255) :
    huffmanLength T s = s.length := by
  have hbits : ∀ b ∈ s, (T.hpackHuffman b.toNat).bits = 8 := fun b hb => by
    have hcode := congrArg HuffmanCode.bits (h.code (octetSymbol b))
    refine hcode.trans ?_
    simp [byteCode, byteBits, octetSymbol, hs b hb]
  rw [huffmanLength, List.map_congr_left hbits]
  simp
  omega

/-- The block of an encoder. -/
theorem Generated.exists_block (h : Generated c T padding) (heos : 7 < (c.bits eos).length)
    (fields : List (List UInt8 × List UInt8)) (hlen : blockLength T fields + 1 < 2 ^ 32) :
    ∃ buf : Block, buf.octets = (hpackHeaderEncoderRender T (encoderOf fields) chulaBufferInit).2.2.bytes ∧
      buf.len = blockLength T fields := by
  rw [← h.flatMap_fieldOctets_length heos] at hlen ⊢
  exact ⟨⟨fields.flatMap (fieldOctets T), 0, hlen⟩, (render_encoderOf T fields).symm, rfl⟩

/-- **Encoding and decoding a block** gives the same fields when the length of every string is read to its end, and
only then. -/
theorem render_parserAll (c : HuffmanSource) (T : HuffmanTables) (hT : huffmanGen c.data = some T)
    (heos : 7 < (c.bits eos).length) (fields : List (List UInt8 × List UInt8)) (hne : ∀ f ∈ fields, f ≠ ([], []))
    (t0 : HeaderTable) (buf : Block)
    (h : buf.octets = (hpackHeaderEncoderRender T (encoderOf fields) chulaBufferInit).2.2.bytes) (consumed : ℕ)
    (hconsumed : consumed < 2 ^ 32) :
    (∃ ctx store, hpackHeaderParserAll T (hpackHeaderParserInit t0) (some []) buf 0 consumed =
        .ok (.ok, ctx, some store, (consumed + buf.len) % 2 ^ 32) ∧ store.map HeaderField.pair = fields) ↔
      LengthsReadable T fields := by
  obtain ⟨padding, hgen⟩ := generated_of_huffmanGen hT
  obtain ⟨ret, ctx, store, consumed', heq, hok, herror⟩ := hgen.parserAll_render heos fields hne t0 h hconsumed
  constructor
  · rintro ⟨ctx', store', heq', -⟩
    by_contra hnot
    rw [heq, herror hnot] at heq'
    cases heq'
  · intro hall
    obtain ⟨rfl, rfl, hstore⟩ := hok hall
    exact ⟨ctx, store, heq, hstore⟩

theorem render_parserAll_short :
    ∃ T, huffmanGen byteCode.data = some T ∧ ∃ buf : Block, buf.octets = (hpackHeaderEncoderRender T
        (encoderOf [(ascii "a", ascii "b"), ([], ascii "c")]) chulaBufferInit).2.2.bytes ∧
      ∃ ctx store, hpackHeaderParserAll T (hpackHeaderParserInit zeroTable) (some []) buf 0 0 =
          .ok (.ok, ctx, some store, (0 + buf.len) % 2 ^ 32) ∧
        store.map HeaderField.pair = [(ascii "a", ascii "b"), ([], ascii "c")] := by
  obtain ⟨T, padding, hT, hgen⟩ := exists_byteTables
  have heos : 7 < (byteCode.bits eos).length := by decide
  have hone : ∀ b : UInt8, b.toNat < 255 → huffmanLength T [b] = 1 := fun b hb =>
    huffmanLength_byteCode hgen (by simpa using hb)
  obtain ⟨buf, hbuf, -⟩ := hgen.exists_block heos [(ascii "a", ascii "b"), ([], ascii "c")] (by
    simp [blockLength, fieldLength, stringLength, integerLength, prefixLimit, limits, ascii, hone])
  refine ⟨T, hT, buf, hbuf, (render_parserAll byteCode T hT heos _ (by decide) zeroTable buf hbuf 0 (by decide)).mpr
    (lengthsReadable_of_short ?_)⟩
  simp [ascii, hone]

/-- A name of 253 octets: from its length on there are 256 octets, so none to read it from. -/
theorem render_parserAll_overflow :
    (∀ a, 5 ≤ (byteCode.bits a).length ∧ (byteCode.bits a).length ≤ 30) ∧ 7 < (byteCode.bits eos).length ∧
    ∃ T, huffmanGen byteCode.data = some T ∧ ∃ buf : Block, buf.octets = (hpackHeaderEncoderRender T
        (encoderOf [(List.replicate 253 0x61, [])]) chulaBufferInit).2.2.bytes ∧ buf.len = 257 ∧
      ∃ ctx store consumed, hpackHeaderParserAll T (hpackHeaderParserInit zeroTable) (some []) buf 0 0 =
        .ok (.error, ctx, some store, consumed) := by
  obtain ⟨T, padding, hT, hgen⟩ := exists_byteTables
  have heos : 7 < (byteCode.bits eos).length := by decide
  have hname : huffmanLength T (List.replicate 253 0x61) = 253 := by
    rw [huffmanLength_byteCode hgen fun b hb => ?_, List.length_replicate]
    rw [List.eq_of_mem_replicate hb]
    decide
  have hlog : Nat.log 128 126 = 0 := Nat.log_of_lt (by decide)
  have hblock : ∀ name, huffmanLength T name = 253 → blockLength T [(name, [])] = 257 := fun name hname => by
    simp [blockLength, fieldLength, stringLength, integerLength, prefixLimit, limits, hname, hlog]
  have hunread : ∀ name, huffmanLength T name = 253 → ¬ LengthsReadable T [(name, [])] := fun name hname hall => by
    have hread := hall.1
    simp [Readable, stringLength, blockLength, integerLength, prefixLimit, limits, hname, hlog] at hread
  obtain ⟨buf, hbuf, hlen⟩ := hgen.exists_block heos [(List.replicate 253 0x61, [])]
    (by rw [hblock _ hname]; decide)
  obtain ⟨ret, ctx, store, consumed, heq, -, herror⟩ := hgen.parserAll_render heos _ (by decide) zeroTable hbuf
    (show 0 < 2 ^ 32 by decide)
  refine ⟨fun a => ?_, heos, T, hT, buf, hbuf, hlen.trans (hblock _ hname), ctx, store, consumed, ?_⟩
  · rw [byteCode_length]
    split_ifs <;> decide
  · rw [heq, herror (hunread _ hname)]

end LibHpack
