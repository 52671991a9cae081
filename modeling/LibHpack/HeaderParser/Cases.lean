import LibHpack.HeaderParser.Model

/-!
# LibHpack.HeaderParser.Cases — what a call of the parser can do

The first octet sends `hpack_header_parser_field` to one of four functions (`parserField_end` and the three after it).
For those that are not at the end of a block, an inductive lists all that a call can do, each with the tests that it has
passed.  What holds after every call is proved by cases of it, and the definitions stay folded.
-/

namespace LibHpack

variable {T : HuffmanTables} {ctx ctx' : Context} {buf : Block} {offset con : ℕ} {table : HeaderTable}
variable {field field' : HeaderField} {ret : Ret}

/-- A call that returns has a buffer with memory. -/
theorem exists_of_parserField {buf : Option Block} {r : Ret × Context × HeaderField × ℕ}
    (hr : hpackHeaderParserField T ctx buf offset field = .ok r) : ∃ b, buf = some b := by
  cases buf with
  | none => cases hr
  | some b => exact ⟨b, rfl⟩

/-! ### The four kinds of calls -/

theorem parserField_end (hoff : offset = buf.len) :
    hpackHeaderParserField T ctx buf offset field = do
      let (ret, ctx', f) ← finalReferenceSetProcess ctx (hpackHeaderFieldClean field)
      return (ret, ctx', f, 0) := if_pos hoff

theorem parserField_update (hoff : offset ≠ buf.len) (hup : buf.get offset &&& 0xE0 = 0x20) :
    hpackHeaderParserField T ctx buf offset field = do
      let (ret, ctx', con) ← parseContextUpdate buf offset { ctx with finished := false }
      return (ret, ctx', hpackHeaderFieldClean field, con) := by
  simp only [hpackHeaderParserField, if_neg hoff, if_pos hup]

theorem parserField_indexed (hoff : offset ≠ buf.len) (hup : ¬ buf.get offset &&& 0xE0 = 0x20)
    (hidx : buf.get offset &&& 0x80 ≠ 0) :
    hpackHeaderParserField T ctx buf offset field =
      parseIndexed buf offset { ctx with finished := false } (hpackHeaderFieldClean field) := by
  simp only [hpackHeaderParserField, if_neg hoff, if_neg hup, if_pos hidx]

/-- A literal is its pair, and then what its form asks for. -/
theorem parserField_literal (hoff : offset ≠ buf.len) (hup : ¬ buf.get offset &&& 0xE0 = 0x20)
    (hidx : ¬ buf.get offset &&& 0x80 ≠ 0) :
    hpackHeaderParserField T ctx buf offset field = do
      let (ret, f, con) ← parseHeaderPair T buf offset ctx.table (hpackHeaderFieldClean field)
      let ctx := { ctx with finished := false }
      if ret ≠ .ok then return (ret, ctx, f, con)
      else if buf.get offset &&& 0xC0 = 0x40 then
        let f := { f with flags := { f.flags with rep := .repIncIndexed } }
        let (ret, ctx, added) ← addFieldProcessEvictions ctx f
        if ret ≠ .ok then return (ret, ctx, f, con)
        else if added then
          return (.ok,
            { ctx with
              referenceSet := hpackHeaderTableSetAdd ctx.table ctx.referenceSet 1
              refNotEmitted := hpackHeaderTableSetRemove ctx.table ctx.refNotEmitted 1 },
            f, con)
        else return (.ok, ctx, f, con)
      else
        let rep := if buf.get offset &&& 0xF0 ≠ 0 then .repNeverIndx else .repWoIndexing
        return (.ok, ctx, { f with flags := { f.flags with rep := rep } }, con) := by
  simp only [hpackHeaderParserField, if_neg hoff, if_neg hup, if_neg hidx]

/-! ### Context updates -/

inductive UpdateCall (buf : Block) (offset : ℕ) (ctx : Context) : Ret → Context → ℕ → Prop
  | emptied (h30 : buf.get offset = 0x30) :
      UpdateCall buf offset ctx .ok { ctx with referenceSet := hpackSetClear, refNotEmitted := hpackSetClear } 1
  | undecoded {r : Ret} {num con : ℕ} (h30 : buf.get offset ≠ 0x30)
      (hdec : hpackIntegerDecode 4 (buf.mem offset) (buf.rest offset) 0 = (r, num, con)) (hr : r ≠ .ok) :
      UpdateCall buf offset ctx .error ctx 0
  | refused {r : Ret} {num con : ℕ} {t : HeaderTable} {s : HpackSet} (h30 : buf.get offset ≠ 0x30)
      (hdec : hpackIntegerDecode 4 (buf.mem offset) (buf.rest offset) 0 = (.ok, num, con))
      (hset : hpackHeaderTableSetMax ctx.table num = .ok (r, t, s)) (hr : r ≠ .ok) :
      UpdateCall buf offset ctx .error { ctx with table := t } 0
  | resized {num con : ℕ} {t : HeaderTable} {s : HpackSet} (h30 : buf.get offset ≠ 0x30)
      (hdec : hpackIntegerDecode 4 (buf.mem offset) (buf.rest offset) 0 = (.ok, num, con))
      (hset : hpackHeaderTableSetMax ctx.table num = .ok (.ok, t, s)) :
      UpdateCall buf offset ctx .ok
        { ctx with
          table := t
          referenceSet := hpackSetRelativeComp ctx.referenceSet s
          refNotEmitted := hpackSetRelativeComp ctx.refNotEmitted s } con

theorem parseContextUpdate_cases (hr : parseContextUpdate buf offset ctx = .ok (ret, ctx', con)) :
    UpdateCall buf offset ctx ret ctx' con := by
  unfold parseContextUpdate at hr
  by_cases h30 : buf.get offset = 0x30
  · rw [if_pos h30] at hr
    cases hr
    exact .emptied h30
  rw [if_neg h30] at hr
  rcases hdec : hpackIntegerDecode 4 (buf.mem offset) (buf.rest offset) 0 with ⟨r, num, con1⟩
  rw [hdec] at hr
  dsimp only at hr
  split_ifs at hr with hret
  · cases hr
    exact .undecoded h30 hdec hret
  rw [not_not.mp hret] at hdec
  obtain ⟨⟨r2, t2, s⟩, hset, hr⟩ := bind_eq_ok hr
  dsimp only at hr
  split_ifs at hr with hret2
  · cases hr
    exact .refused h30 hdec hset hret2
  · cases hr
    rw [not_not.mp hret2] at hset
    exact .resized h30 hdec hset

/-! ### Indexed fields -/

/-- An index within the tables that is not in the reference set, and its field. -/
structure IndexedField (buf : Block) (offset : ℕ) (ctx : Context) (field : HeaderField) (num con : ℕ) (ret : Ret)
    (f : HeaderField) (isStatic : Bool) : Prop where
  dec : hpackIntegerDecode 7 (buf.mem offset) (buf.rest offset) 0 = (.ok, num, con)
  le : num ≤ 61 + ctx.table.numHeaders
  fresh : ¬ hpackHeaderTableSetExists ctx.table ctx.referenceSet num = true
  get : hpackHeaderTableGet ctx.table num false { field with flags := { field.flags with rep := .repIndexed } } =
    .ok (ret, f, isStatic)

inductive IndexedCall (buf : Block) (offset : ℕ) (ctx : Context) (field : HeaderField) :
    Ret → Context → HeaderField → ℕ → Prop
  | undecoded {r : Ret} {num con : ℕ} (hdec : hpackIntegerDecode 7 (buf.mem offset) (buf.rest offset) 0 = (r, num, con))
      (hr : r ≠ .ok) : IndexedCall buf offset ctx field .error ctx field 0
  | beyond {num con : ℕ} (hdec : hpackIntegerDecode 7 (buf.mem offset) (buf.rest offset) 0 = (.ok, num, con))
      (hbig : 61 + ctx.table.numHeaders < num) : IndexedCall buf offset ctx field .error ctx field 0
  | removed {num con : ℕ} (hdec : hpackIntegerDecode 7 (buf.mem offset) (buf.rest offset) 0 = (.ok, num, con))
      (hle : num ≤ 61 + ctx.table.numHeaders)
      (hex : hpackHeaderTableSetExists ctx.table ctx.referenceSet num = true) :
      IndexedCall buf offset ctx field .ok
        { ctx with
          referenceSet := hpackHeaderTableSetRemove ctx.table ctx.referenceSet num
          refNotEmitted := hpackHeaderTableSetRemove ctx.table ctx.refNotEmitted num } field con
  | unread {num con : ℕ} {r : Ret} {f : HeaderField} {isStatic : Bool}
      (hfield : IndexedField buf offset ctx field num con r f isStatic) (hr : r ≠ .ok) :
      IndexedCall buf offset ctx field r ctx f 0
  | referenced {num con : ℕ} {f : HeaderField} (hfield : IndexedField buf offset ctx field num con .ok f false) :
      IndexedCall buf offset ctx field .ok
        { ctx with
          referenceSet := hpackHeaderTableSetAdd ctx.table ctx.referenceSet num
          refNotEmitted := hpackHeaderTableSetRemove ctx.table ctx.refNotEmitted num } f con
  | unadded {num con : ℕ} {r : Ret} {f : HeaderField} {ctx2 : Context} {added : Bool}
      (hfield : IndexedField buf offset ctx field num con .ok f true)
      (hadd : addFieldProcessEvictions ctx f = .ok (r, ctx2, added)) (hr : r ≠ .ok) :
      IndexedCall buf offset ctx field r ctx2 f 0
  | inserted {num con : ℕ} {f : HeaderField} {ctx2 : Context} {added : Bool}
      (hfield : IndexedField buf offset ctx field num con .ok f true)
      (hadd : addFieldProcessEvictions ctx f = .ok (.ok, ctx2, added)) :
      IndexedCall buf offset ctx field .ok
        { ctx2 with
          referenceSet := hpackHeaderTableSetAdd ctx2.table ctx2.referenceSet 1
          refNotEmitted := hpackHeaderTableSetRemove ctx2.table ctx2.refNotEmitted 1 } f con

theorem parseIndexed_cases (hr : parseIndexed buf offset ctx field = .ok (ret, ctx', field', con)) :
    IndexedCall buf offset ctx field ret ctx' field' con := by
  unfold parseIndexed at hr
  split_ifs at hr with h31
  rcases hdec : hpackIntegerDecode 7 (buf.mem offset) (buf.rest offset) 0 with ⟨r, num, con1⟩
  rw [hdec] at hr
  dsimp only at hr
  by_cases hret : r = .ok
  swap
  · rw [if_pos hret] at hr
    cases hr
    exact .undecoded hdec hret
  rw [if_neg (not_not.mpr hret)] at hr
  subst hret
  split_ifs at hr with hbig hex
  · cases hr
    exact .beyond hdec hbig
  · cases hr
    exact .removed hdec (not_lt.mp hbig) hex
  obtain ⟨⟨r1, f1, isStatic⟩, hget, hr⟩ := bind_eq_ok hr
  have hfield : IndexedField buf offset ctx field num con1 r1 f1 isStatic := ⟨hdec, not_lt.mp hbig, hex, hget⟩
  dsimp only at hr
  by_cases hret1 : r1 = .ok
  swap
  · rw [if_pos hret1] at hr
    cases hr
    exact .unread hfield hret1
  rw [if_neg (not_not.mpr hret1)] at hr
  subst hret1
  cases isStatic with
  | false =>
    rw [if_neg Bool.false_ne_true, ok_bind] at hr
    cases hr
    exact .referenced hfield
  | true =>
    rw [if_pos rfl] at hr
    obtain ⟨⟨r2, ctx2, added⟩, hadd, hr⟩ := bind_eq_ok hr
    dsimp only at hr
    split_ifs at hr with hret2
    · cases hr
      exact .unadded hfield hadd hret2
    · cases hr
      rw [not_not.mp hret2] at hadd
      exact .inserted hfield hadd

/-! ### Literals -/

inductive NameCall (T : HuffmanTables) (buf : Block) (offset : ℕ) (table : HeaderTable) (field : HeaderField) :
    Ret → HeaderField → ℕ → Prop
  | undecoded {r : Ret} {len con : ℕ} (hlow : buf.get offset &&& 0x0F ≠ 0)
      (hdec : hpackIntegerDecode (if buf.get offset &&& 0xC0 ≠ 0 then 6 else 4) (buf.mem offset) (buf.rest offset) 0 =
        (r, len, con)) (hr : r ≠ .ok) : NameCall T buf offset table field .error field offset
  | indexed {r : Ret} {len con : ℕ} {f : HeaderField} {isStatic : Bool} (hlow : buf.get offset &&& 0x0F ≠ 0)
      (hdec : hpackIntegerDecode (if buf.get offset &&& 0xC0 ≠ 0 then 6 else 4) (buf.mem offset) (buf.rest offset) 0 =
        (.ok, len, con)) (hget : hpackHeaderTableGet table len true field = .ok (r, f, isStatic)) :
      NameCall T buf offset table field r
        { f with flags := { f.flags with name := if isStatic then .isIndexedStatic else .isIndexedHt } }
        ((offset + con) % 2 ^ 32)
  | unnamed {r : Ret} {name : ChulaBuffer} {huffman : Bool} {con : ℕ} (hlow : buf.get offset &&& 0x0F = 0)
      (hname : parseString T buf ((offset + 1) % 2 ^ 32) field.name = .ok (r, name, huffman, con)) (hr : r ≠ .ok) :
      NameCall T buf offset table field r { field with name := name } offset
  | named {name : ChulaBuffer} {huffman : Bool} {con : ℕ} (hlow : buf.get offset &&& 0x0F = 0)
      (hname : parseString T buf ((offset + 1) % 2 ^ 32) field.name = .ok (.ok, name, huffman, con)) :
      NameCall T buf offset table field .ok
        { field with
          name := name
          flags := { field.flags with name := if huffman then .isNewHuffman else .isNew } }
        ((offset + 1 + con) % 2 ^ 32)

theorem parseHeaderName_cases {n : ℕ} (hr : parseHeaderName T buf offset table field = .ok (ret, field', n)) :
    NameCall T buf offset table field ret field' n := by
  unfold parseHeaderName at hr
  by_cases hlow : buf.get offset &&& 0x0F ≠ 0
  · rw [if_pos hlow] at hr
    rcases hdec : hpackIntegerDecode (if buf.get offset &&& 0xC0 ≠ 0 then 6 else 4) (buf.mem offset) (buf.rest offset) 0
      with ⟨r, len, con⟩
    dsimp only at hr
    rw [hdec] at hr
    dsimp only at hr
    by_cases hret : r = .ok
    swap
    · rw [if_pos hret] at hr
      cases hr
      exact .undecoded hlow hdec hret
    rw [if_neg (not_not.mpr hret)] at hr
    subst hret
    obtain ⟨⟨r1, f1, isStatic⟩, hget, hr⟩ := bind_eq_ok hr
    cases hr
    exact .indexed hlow hdec hget
  · rw [if_neg hlow] at hr
    obtain ⟨⟨r, name, huffman, con⟩, hname, hr⟩ := bind_eq_ok hr
    dsimp only at hr
    by_cases hret : r = .ok
    swap
    · rw [if_pos hret] at hr
      cases hr
      exact .unnamed (not_not.mp hlow) hname hret
    rw [if_neg (not_not.mpr hret)] at hr
    subst hret
    cases hr
    exact .named (not_not.mp hlow) hname

inductive PairCall (T : HuffmanTables) (buf : Block) (offset : ℕ) (table : HeaderTable) (field : HeaderField) :
    Ret → HeaderField → ℕ → Prop
  | unnamed {r : Ret} {f : HeaderField} {n : ℕ} (hname : parseHeaderName T buf offset table field = .ok (r, f, n))
      (hr : r ≠ .ok) : PairCall T buf offset table field r f 0
  | unvalued {r : Ret} {f : HeaderField} {n con : ℕ} {value : ChulaBuffer} {huffman : Bool}
      (hname : parseHeaderName T buf offset table field = .ok (.ok, f, n))
      (hvalue : parseString T buf n f.value = .ok (r, value, huffman, con)) (hr : r ≠ .ok) :
      PairCall T buf offset table field r { f with value := value } 0
  | parsed {f : HeaderField} {n con : ℕ} {value : ChulaBuffer} {huffman : Bool}
      (hname : parseHeaderName T buf offset table field = .ok (.ok, f, n))
      (hvalue : parseString T buf n f.value = .ok (.ok, value, huffman, con)) :
      PairCall T buf offset table field .ok
        { f with
          value := value
          flags := { f.flags with value := if huffman then .isNewHuffman else .isNew } }
        (cbMask (((n + con) % 2 ^ 32 : ℕ) - (offset : ℤ)) (2 ^ 32))

theorem parseHeaderPair_cases (hr : parseHeaderPair T buf offset table field = .ok (ret, field', con)) :
    PairCall T buf offset table field ret field' con := by
  unfold parseHeaderPair at hr
  obtain ⟨⟨r1, f1, n⟩, hname, hr⟩ := bind_eq_ok hr
  dsimp only at hr
  by_cases hret : r1 = .ok
  swap
  · rw [if_pos hret] at hr
    cases hr
    exact .unnamed hname hret
  rw [if_neg (not_not.mpr hret)] at hr
  subst hret
  obtain ⟨⟨r2, value, huffman, con2⟩, hvalue, hr⟩ := bind_eq_ok hr
  dsimp only at hr
  by_cases hret2 : r2 = .ok
  swap
  · rw [if_pos hret2] at hr
    cases hr
    exact .unvalued hname hvalue hret2
  rw [if_neg (not_not.mpr hret2)] at hr
  subst hret2
  cases hr
  exact .parsed hname hvalue

inductive LiteralCall (T : HuffmanTables) (buf : Block) (offset : ℕ) (ctx : Context) (field : HeaderField) :
    Ret → Context → HeaderField → ℕ → Prop
  | refused {r : Ret} {f : HeaderField} {con : ℕ}
      (hpair : parseHeaderPair T buf offset ctx.table (hpackHeaderFieldClean field) = .ok (r, f, con)) (hr : r ≠ .ok) :
      LiteralCall T buf offset ctx field r { ctx with finished := false } f con
  | returned {f : HeaderField} {con : ℕ}
      (hpair : parseHeaderPair T buf offset ctx.table (hpackHeaderFieldClean field) = .ok (.ok, f, con))
      (hform : ¬ buf.get offset &&& 0xC0 = 0x40) (rep : FieldRep) :
      LiteralCall T buf offset ctx field .ok { ctx with finished := false }
        { f with flags := { f.flags with rep := rep } } con
  | unadded {r : Ret} {f : HeaderField} {con : ℕ} {ctx2 : Context} {added : Bool}
      (hpair : parseHeaderPair T buf offset ctx.table (hpackHeaderFieldClean field) = .ok (.ok, f, con))
      (hform : buf.get offset &&& 0xC0 = 0x40)
      (hadd : addFieldProcessEvictions { ctx with finished := false }
        { f with flags := { f.flags with rep := .repIncIndexed } } = .ok (r, ctx2, added)) (hr : r ≠ .ok) :
      LiteralCall T buf offset ctx field r ctx2 { f with flags := { f.flags with rep := .repIncIndexed } } con
  | inserted {f : HeaderField} {con : ℕ} {ctx2 : Context} {added : Bool}
      (hpair : parseHeaderPair T buf offset ctx.table (hpackHeaderFieldClean field) = .ok (.ok, f, con))
      (hform : buf.get offset &&& 0xC0 = 0x40)
      (hadd : addFieldProcessEvictions { ctx with finished := false }
        { f with flags := { f.flags with rep := .repIncIndexed } } = .ok (.ok, ctx2, added)) :
      LiteralCall T buf offset ctx field .ok
        (if added then
          { ctx2 with
            referenceSet := hpackHeaderTableSetAdd ctx2.table ctx2.referenceSet 1
            refNotEmitted := hpackHeaderTableSetRemove ctx2.table ctx2.refNotEmitted 1 }
        else ctx2)
        { f with flags := { f.flags with rep := .repIncIndexed } } con

theorem parserField_literal_cases (hoff : offset ≠ buf.len) (hup : ¬ buf.get offset &&& 0xE0 = 0x20)
    (hidx : ¬ buf.get offset &&& 0x80 ≠ 0)
    (hr : hpackHeaderParserField T ctx buf offset field = .ok (ret, ctx', field', con)) :
    LiteralCall T buf offset ctx field ret ctx' field' con := by
  rw [parserField_literal hoff hup hidx] at hr
  obtain ⟨⟨r1, f1, con1⟩, hpair, hr⟩ := bind_eq_ok hr
  dsimp only at hr
  by_cases hret : r1 = .ok
  swap
  · rw [if_pos hret] at hr
    cases hr
    exact .refused hpair hret
  rw [if_neg (not_not.mpr hret)] at hr
  subst hret
  by_cases hform : buf.get offset &&& 0xC0 = 0x40
  swap
  · rw [if_neg hform] at hr
    cases hr
    exact .returned hpair hform _
  rw [if_pos hform] at hr
  obtain ⟨⟨r2, ctx2, added⟩, hadd, hr⟩ := bind_eq_ok hr
  dsimp only at hr
  by_cases hret2 : r2 = .ok
  swap
  · rw [if_pos hret2] at hr
    cases hr
    exact .unadded hpair hform hadd hret2
  rw [if_neg (not_not.mpr hret2)] at hr
  subst hret2
  have h := LiteralCall.inserted hpair hform hadd
  cases added with
  | false =>
    cases hr
    exact h
  | true =>
    cases hr
    exact h

end LibHpack
