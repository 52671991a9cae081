import LibHpack.HeaderParser.Representations

/-!
# LibHpack.HeaderParser.Literals — the name of a literal field

A literal starts with `01` and a 6-bit index, or with `0000` or `0001` and a 4-bit index.  Index zero stands for a name
in a string representation, and any other one for the name of that entry; a string representation of the value follows.
-/

namespace LibHpack

variable (T : HuffmanTables) {ctx : Context} {es : List Entry} {buf : Block} {offset k con : ℕ} {field f : HeaderField}

/-- The width of the index. -/
def literalPrefix (c : UInt8) : ℕ := if c &&& 0xC0 = 0x40 then 6 else 4

theorem prefixLimit_literalPrefix (c : UInt8) :
    prefixLimit (literalPrefix c) = if c &&& 0xC0 = 0x40 then 63 else 15 := by
  unfold literalPrefix
  split_ifs <;> rfl

/-- A literal is no context update and no indexed field, and the source finds the width of its index. -/
theorem literal_octet : ∀ c : UInt8, c &&& 0xC0 = 0x40 ∨ c &&& 0xE0 = 0 →
    (if c &&& 0xC0 ≠ 0 then 6 else 4) = literalPrefix c ∧ ¬ c &&& 0xE0 = 0x20 ∧ ¬ c &&& 0x80 ≠ 0 :=
  forall_octet (by decide +kernel)

/-- The low half of the first octet is zero for the indices 0, 16, 32 and 48. -/
theorem literal_low : ∀ c : UInt8, c &&& 0xC0 = 0x40 ∨ c &&& 0xE0 = 0 →
    (c &&& 0x0F = 0 ↔ c.toNat &&& prefixLimit (literalPrefix c) = 0 ∨
      c &&& 0xC0 = 0x40 ∧ c.toNat &&& prefixLimit (literalPrefix c) ∈ [16, 32, 48]) :=
  forall_octet (by decide +kernel)

/-- The source takes the name for a new one when the low half of the first octet is zero. -/
theorem newName_iff (hc : buf.get offset &&& 0xC0 = 0x40 ∨ buf.get offset &&& 0xE0 = 0)
    (hint : IntegerAt (literalPrefix (buf.get offset)) (buf.mem offset) k con) :
    buf.get offset &&& 0x0F = 0 ↔ k = 0 ∨ buf.get offset &&& 0xC0 = 0x40 ∧ k ∈ [16, 32, 48] := by
  have hlow := literal_low _ hc
  have hmem : buf.mem offset 0 = buf.get offset := rfl
  cases hint with
  | short _ => rwa [hmem]
  | @long w n hge hw =>
    -- all bits of the index are set, so the low half is not zero
    rw [hmem] at hge ⊢
    have heq := le_antisymm Nat.and_le_right (not_lt.mp hge)
    rw [heq, prefixLimit_literalPrefix] at hlow
    rw [heq, prefixLimit_literalPrefix, hlow]
    split_ifs with h6
    · simp [h6]
      omega
    · simp [h6]

/-! ### The name -/

/-- A new name. -/
theorem parseHeaderName_new (table : HeaderTable) (field : HeaderField) {name : List UInt8} {c1 : ℕ}
    (hlow : buf.get offset &&& 0x0F = 0) (hname : StringAt T buf (offset + 1) name c1) :
    ∃ f, parseHeaderName T buf offset table field = .ok (.ok, f, offset + 1 + c1) ∧
      f.name.bytes = field.name.bytes ++ name ∧ f.value = field.value := by
  have hbuf := buf.len_succ_lt
  have hle := hname.le_len
  obtain ⟨name', huffman, heq, hbytes⟩ := parseString_of_stringAt hname field.name
  refine ⟨{ field with
    name := name'
    flags := { field.flags with name := if huffman then .isNewHuffman else .isNew } }, ?_, hbytes, rfl⟩
  have hn1 : (offset + 1) % 2 ^ 32 = offset + 1 := Nat.mod_eq_of_lt (by omega)
  have hn2 : (offset + 1 + c1) % 2 ^ 32 = offset + 1 + c1 := Nat.mod_eq_of_lt (by omega)
  simp only [parseHeaderName, hlow, ne_eq, not_true_eq_false, if_false, hn1, heq, ok_bind, hn2]
  rfl

/-- The name of an entry. -/
theorem parseHeaderName_indexed (h : ctx.Inv es) (field : HeaderField)
    (hc : buf.get offset &&& 0xC0 = 0x40 ∨ buf.get offset &&& 0xE0 = 0) (hlow : buf.get offset &&& 0x0F ≠ 0)
    (hin : offset + con ≤ buf.len) (h1 : 1 ≤ k) (hle : k ≤ 61 + ctx.table.numHeaders)
    (hdec : hpackIntegerDecode (literalPrefix (buf.get offset)) (buf.mem offset) (buf.rest offset) 0 = (.ok, k, con))
    (hplace : k ≤ ctx.table.numHeaders → NameInPlace ctx.table (ctx.table.numHeaders - k)) :
    ∃ f, parseHeaderName T buf offset ctx.table field = .ok (.ok, f, offset + con) ∧
      f.name.bytes = field.name.bytes ++ (ctx.indexed k).name ∧ f.value = field.value := by
  have hbuf := buf.len_succ_lt
  have hlen := h.holds.length_le
  have hnum := h.holds.num
  have hmod : k % 2 ^ 16 = k := Nat.mod_eq_of_lt (by omega)
  have hn : (offset + con) % 2 ^ 32 = offset + con := Nat.mod_eq_of_lt (by omega)
  obtain ⟨isStatic, hget⟩ : ∃ isStatic, hpackHeaderTableGet ctx.table k true field =
      .ok (.ok, field.append (ctx.indexed k) true, isStatic) := by
    by_cases hdyn : k ≤ ctx.table.numHeaders
    · obtain ⟨hk, hentry⟩ := h.getElem_index h1 (hnum ▸ hdyn)
      have hget := h.holds.get_eq hk true (hnum ▸ hplace hdyn) (fun hf => absurd hf (by decide)) field
      rw [show es.length - (es.length - k) = k by omega, hentry] at hget
      exact ⟨false, by rw [hget, Context.indexed, if_pos hdyn]⟩
    · have hget := hpackHeaderTableGet_static (t := ctx.table) (n := k) (by omega) (by omega) true field
      rw [hmod] at hget
      exact ⟨true, by rw [hget, Context.indexed, if_neg hdyn, Context.static]⟩
  refine ⟨{ field.append (ctx.indexed k) true with
    flags := { (field.append (ctx.indexed k) true).flags with
      name := if isStatic then .isIndexedStatic else .isIndexedHt } }, ?_, chulaBufferAdd_bytes _ _, rfl⟩
  simp only [parseHeaderName, if_pos hlow, (literal_octet _ hc).1, hdec, ne_eq, not_true_eq_false, if_false, hget,
    ok_bind, hn]
  rfl

/-- An index that no entry has, or that is not decoded. -/
theorem parseHeaderName_refused (table : HeaderTable) (field : HeaderField)
    (hc : buf.get offset &&& 0xC0 = 0x40 ∨ buf.get offset &&& 0xE0 = 0) (hlow : buf.get offset &&& 0x0F ≠ 0)
    (hint : IntegerAt (literalPrefix (buf.get offset)) (buf.mem offset) k con)
    (hbig : hpackIntegerDecode (literalPrefix (buf.get offset)) (buf.mem offset) (buf.rest offset) 0 = (.ok, k, con) →
      61 + table.numHeaders < k % 2 ^ 16) :
    ∃ ret f n, parseHeaderName T buf offset table field = .ok (ret, f, n) ∧ ret ≠ .ok := by
  simp only [parseHeaderName, if_pos hlow, (literal_octet _ hc).1]
  rcases decode_or_error hint with hdec | ⟨v, hdec⟩
  · rw [hdec]
    simp only [ne_eq, not_true_eq_false, if_false, hpackHeaderTableGet_notFound (hbig hdec), ok_bind]
    exact ⟨_, _, _, rfl, by decide⟩
  · rw [hdec]
    exact ⟨_, _, _, rfl, by decide⟩

/-! ### The field -/

/-- The value behind the name. -/
theorem parseHeaderPair_ok {table : HeaderTable} {value : List UInt8} {n c2 : ℕ} (hoff : offset ≤ n)
    (hname : parseHeaderName T buf offset table field = .ok (.ok, f, n)) (hvalue : StringAt T buf n value c2) :
    ∃ f', parseHeaderPair T buf offset table field = .ok (.ok, f', n + c2 - offset) ∧ f'.name = f.name ∧
      f'.value.bytes = f.value.bytes ++ value := by
  have hbuf := buf.len_succ_lt
  have hle := hvalue.le_len
  obtain ⟨value', huffman, heq, hbytes⟩ := parseString_of_stringAt hvalue f.value
  refine ⟨{ f with
    value := value'
    flags := { f.flags with value := if huffman then .isNewHuffman else .isNew } }, ?_, rfl, hbytes⟩
  have hn : (n + c2) % 2 ^ 32 = n + c2 := Nat.mod_eq_of_lt (by omega)
  have hcon : cbMask (((n + c2 : ℕ) : ℤ) - offset) (2 ^ 32) = n + c2 - offset := by
    rw [cbMask_eq]
    omega
  simp only [parseHeaderPair, hname, ok_bind, ne_eq, not_true_eq_false, if_false, heq, hn, hcon]
  rfl

/-- **A literal whose name and value are parsed** is returned, and inserted if it asks for it. -/
theorem parserField_literal_ok (h : ctx.Inv es) (hoff : offset < buf.len)
    (hc : buf.get offset &&& 0xC0 = 0x40 ∨ buf.get offset &&& 0xE0 = 0) (hok : LiteralOk T ctx buf offset field)
    (hpair : parseHeaderPair T buf offset ctx.table (hpackHeaderFieldClean field) = .ok (.ok, f, con)) :
    ∃ ctx' f', hpackHeaderParserField T ctx buf offset field = .ok (.ok, ctx', f', con) ∧ f'.name = f.name ∧
      f'.value = f.value := by
  obtain ⟨-, hup, hidx⟩ := literal_octet _ hc
  rw [parserField_literal hoff.ne hup hidx, hpair]
  simp only [ok_bind, ne_eq, not_true_eq_false, if_false]
  by_cases hform : buf.get offset &&& 0xC0 = 0x40
  · obtain ⟨ctx2, added, heq, -⟩ := literal_add T h hok hform hpair
    rw [if_pos hform, heq]
    cases added <;> exact ⟨_, _, rfl, rfl, rfl⟩
  · rw [if_neg hform]
    exact ⟨_, _, rfl, rfl, rfl⟩

/-- **The name of a literal field.** -/
theorem literal_name_resolution (t0 : HeaderTable) (calls : List ParserCall) (ctx : Context)
    (hok : ParserRunOk T t0 calls) (hrun : parserRun T t0 calls = .ok ctx) (buf : Block) (offset k con : ℕ)
    (field : HeaderField) (hc : buf.get offset &&& 0xC0 = 0x40 ∨ buf.get offset &&& 0xE0 = 0)
    (hint : IntegerAt (literalPrefix (buf.get offset)) (buf.mem offset) k con) (hin : offset + con ≤ buf.len)
    (hk : k < 2 ^ 32) :
    -- a new name
    (k = 0 → LiteralOk T ctx buf offset field → ∀ name c1 value c2, StringAt T buf (offset + 1) name c1 →
      StringAt T buf (offset + 1 + c1) value c2 → ∃ ctx' f,
      hpackHeaderParserField T ctx buf offset field = .ok (.ok, ctx', f, 1 + c1 + c2) ∧ f.name.bytes = name ∧
        f.value.bytes = value) ∧
    -- the name of an entry
    (1 ≤ k → k ≤ 61 + ctx.table.numHeaders → Readable (buf.len - offset) con →
      ¬ (buf.get offset &&& 0xC0 = 0x40 ∧ k ∈ [16, 32, 48]) →
      (k ≤ ctx.table.numHeaders → NameInPlace ctx.table (ctx.table.numHeaders - k)) →
      LiteralOk T ctx buf offset field → ∀ value c, StringAt T buf (offset + con) value c → ∃ ctx' f,
      hpackHeaderParserField T ctx buf offset field = .ok (.ok, ctx', f, con + c) ∧
        f.name.bytes = (ctx.indexed k).name ∧ f.value.bytes = value) ∧
    -- no such index
    (61 + ctx.table.numHeaders < k →
      61 + ctx.table.numHeaders < k % 2 ^ 16 ∨ ¬ Readable (buf.len - offset) con → ∃ ret ctx' f,
      hpackHeaderParserField T ctx buf offset field = .ok (ret, ctx', f, 0) ∧ ret ≠ .ok ∧ ctx.Same ctx') := by
  obtain ⟨es, h⟩ := parserRun_inv T hok hrun
  have hpos := hint.pos
  have hlt : offset < buf.len := by omega
  have hlow := newName_iff hc hint
  have hfn : (hpackHeaderFieldClean field).name.bytes = [] := chulaBufferClean_bytes _
  have hfv : (hpackHeaderFieldClean field).value.bytes = [] := chulaBufferClean_bytes _
  refine ⟨fun h0 hlit name c1 value c2 hname hvalue => ?_, fun h1 hle hread hnew hplace hlit value c hvalue => ?_,
    fun hbig hwhen => ?_⟩
  · obtain ⟨f1, heq1, hbytes1, hval1⟩ := parseHeaderName_new T ctx.table (hpackHeaderFieldClean field)
      (hlow.mpr (.inl h0)) hname
    obtain ⟨f2, heq2, hname2, hbytes2⟩ := parseHeaderPair_ok T (by omega) heq1 hvalue
    obtain ⟨ctx', f3, heq3, hname3, hval3⟩ := parserField_literal_ok T h hlt hc hlit heq2
    refine ⟨ctx', f3, ?_, ?_, ?_⟩
    · rw [heq3, show offset + 1 + c1 + c2 - offset = 1 + c1 + c2 by omega]
    · rw [hname3, hname2, hbytes1, hfn, List.nil_append]
    · rw [hval3, hbytes2, hval1, hfv, List.nil_append]
  · obtain ⟨f1, heq1, hbytes1, hval1⟩ := parseHeaderName_indexed T h (hpackHeaderFieldClean field) hc
      (fun h0 => (hlow.mp h0).elim (by omega) hnew) hin h1 hle (decode_of_integerAt hlt.le hint hk hread) hplace
    obtain ⟨f2, heq2, hname2, hbytes2⟩ := parseHeaderPair_ok T (by omega) heq1 hvalue
    obtain ⟨ctx', f3, heq3, hname3, hval3⟩ := parserField_literal_ok T h hlt hc hlit heq2
    refine ⟨ctx', f3, ?_, ?_, ?_⟩
    · rw [heq3, show offset + con + c - offset = con + c by omega]
    · rw [hname3, hname2, hbytes1, hfn, List.nil_append]
    · rw [hval3, hbytes2, hval1, hfv, List.nil_append]
  · have hk16 : ¬ (k = 0 ∨ buf.get offset &&& 0xC0 = 0x40 ∧ k ∈ [16, 32, 48]) := by
      simp only [List.mem_cons, List.not_mem_nil, or_false]
      omega
    obtain ⟨ret, f1, n, heq, hret⟩ := parseHeaderName_refused T ctx.table (hpackHeaderFieldClean field) hc
      (fun h0 => hk16 (hlow.mp h0)) hint fun hdec =>
        hwhen.resolve_right fun hnot => hnot (Block.rest_eq hlt.le ▸ (hpackIntegerDecode_ok_iff.mp hdec).2.2)
    obtain ⟨-, hup, hidx⟩ := literal_octet _ hc
    refine ⟨ret, { ctx with finished := false }, f1, ?_, hret, rfl, rfl, rfl⟩
    rw [parserField_literal hlt.ne hup hidx, parseHeaderPair, heq]
    simp only [ok_bind, if_pos hret, pure_bind]
    rfl

/-- A literal without indexing whose name is the static entry `:authority`, and one with a new name. -/
def literalBlock : Block := ⟨[0x01, 0x01, 0x76, 0x00, 0x01, 0x6E, 0x01, 0x76], 0, by decide⟩

theorem literal_name_resolution_both :
    (∃ ctx' f, hpackHeaderParserField noTables (hpackHeaderParserInit zeroTable) literalBlock 0 hpackHeaderFieldInit =
        .ok (.ok, ctx', f, 3) ∧ f.name.bytes = ascii ":authority" ∧ f.value.bytes = ascii "v") ∧
    ∃ ctx' f, hpackHeaderParserField noTables (hpackHeaderParserInit zeroTable) literalBlock 3 hpackHeaderFieldInit =
        .ok (.ok, ctx', f, 5) ∧ f.name.bytes = ascii "n" ∧ f.value.bytes = ascii "v" := by
  have hstring : ∀ n, literalBlock.get n = 1 → n + 2 ≤ literalBlock.len →
      StringAt noTables literalBlock n (literalBlock.slice (n + 1) 1) 2 := fun n h1 hin => by
    have hint : IntegerAt 7 (literalBlock.mem n) 1 1 := by
      have hmem : literalBlock.mem n 0 = 1 := h1
      have hshort : IntegerAt 7 (literalBlock.mem n) _ _ := .short (by rw [hmem]; decide)
      rwa [hmem] at hshort
    exact .plain (by rw [h1]; decide) hint (.inl rfl) hin
  constructor
  · have hall := literal_name_resolution noTables zeroTable [] (hpackHeaderParserInit zeroTable) trivial rfl literalBlock
      0 1 1 hpackHeaderFieldInit (by decide) (.short (by decide)) (by decide) (by decide)
    obtain ⟨ctx', f, heq, hname, hvalue⟩ := hall.2.1 le_rfl (by decide) (.inl rfl) (by decide) (by decide)
      (by decide) _ _ (hstring 1 rfl (by decide))
    exact ⟨ctx', f, heq, hname.trans (by decide), hvalue.trans (by decide)⟩
  · have hall := literal_name_resolution noTables zeroTable [] (hpackHeaderParserInit zeroTable) trivial rfl literalBlock
      3 0 1 hpackHeaderFieldInit (by decide) (.short (by decide)) (by decide) (by decide)
    obtain ⟨ctx', f, heq, hname, hvalue⟩ := hall.1 rfl (by decide) _ _ _ _ (hstring 4 rfl (by decide))
      (hstring 6 rfl (by decide))
    exact ⟨ctx', f, heq, hname.trans (by decide), hvalue.trans (by decide)⟩

/-- A literal with incremental indexing whose name is the static entry 16, `accept-encoding`. -/
def encodingBlock : Block := ⟨[0x50, 0x01, 0x61, 0x01, 0x62], 0, by decide⟩

/-- The value is taken for a name, and a second value is read. -/
theorem literal_name_resolution_sixteen :
    IntegerAt (literalPrefix (encodingBlock.get 0)) (encodingBlock.mem 0) 16 1 ∧ ∃ ctx' f,
      hpackHeaderParserField noTables (hpackHeaderParserInit zeroTable) encodingBlock 0 hpackHeaderFieldInit =
        .ok (.ok, ctx', f, 5) ∧ f.name.bytes = ascii "a" ∧ f.value.bytes = ascii "b" := by
  obtain ⟨⟨ret, ctx', f, con⟩, heq, rfl, rfl, hname, hvalue⟩ : ∃ r, hpackHeaderParserField noTables
      (hpackHeaderParserInit zeroTable) encodingBlock 0 hpackHeaderFieldInit = .ok r ∧ r.1 = .ok ∧ r.2.2.2 = 5 ∧
        r.2.2.1.name.bytes = ascii "a" ∧ r.2.2.1.value.bytes = ascii "b" := by decide
  exact ⟨.short (by decide), ctx', f, heq, hname, hvalue⟩

end LibHpack
