import LibHpack.HeaderParser.Literals
import LibHpack.HeaderParser.Truncation

/-!
# LibHpack.HeaderParser.Cut — a representation that is cut off

The call on a block and the call on the first octets of it are compared, part by part: an integer, a string, a name, a
pair.  What the two have in common is parsed in the same way, or not at all in the shorter block.  A cut right before
the length of a value is special: the parser takes the octet behind the block for the length.
-/

namespace LibHpack

variable {T : HuffmanTables} {P R : Block} {n N v con : ℕ} {s : List UInt8}

/-! ### Integers and strings -/

/-- An integer of the longer block is read in the shorter one, or it is cut off. -/
theorem decode_shorter (hpre : P.octets <+: R.octets) (hn : n < P.len)
    (hR : hpackIntegerDecode N (R.mem n) (R.rest n) 0 = (.ok, v, con)) :
    (hpackIntegerDecode N (P.mem n) (P.rest n) 0 = (.ok, v, con) ∧ n + con ≤ P.len) ∨
      ∃ w, hpackIntegerDecode N (P.mem n) (P.rest n) 0 = (.error, w, 0) := by
  by_cases hok : ∃ w c, hpackIntegerDecode N (P.mem n) (P.rest n) 0 = (.ok, w, c)
  · obtain ⟨w, c, hdec⟩ := hok
    have hin := (decode_bounds hn.le hdec).2.2 hn
    have hint := (IntegerAt.of_longer hpre hin).mpr (hpackIntegerDecode_ok_iff.mp hdec).1
    obtain ⟨rfl, rfl⟩ := hint.unique (hpackIntegerDecode_ok_iff.mp hR).1
    exact .inl ⟨hdec, hin⟩
  · exact .inr (hpackIntegerDecode_error fun w c hdec => hok ⟨w, c, hdec⟩)

theorem Block.slice_of_longer {len : ℕ} (hpre : P.octets <+: R.octets) (hin : n + len ≤ P.len) :
    P.slice n len = R.slice n len := by
  obtain ⟨ext, hext⟩ := hpre
  have hlen : P.octets.length = P.len := rfl
  rw [Block.slice, Block.slice, ← hext, List.drop_append_of_le_length (by omega), List.take_append_of_le_length]
  rw [List.length_drop]
  omega

/-- A string whose length is not decoded. -/
theorem parseString_error {c : ℕ} (hdec : hpackIntegerDecode 7 (P.mem n) (P.rest n) 0 = (.error, v, c))
    (string : ChulaBuffer) :
    parseString T P n string = .ok (.error, string, decide (P.get n &&& 0x80 ≠ 0), 0) := by
  rw [parseString, hdec]
  rfl

/-- **A string** of the longer block is parsed in the shorter one, or it is cut off. -/
theorem parseString_shorter (hpre : P.octets <+: R.octets) (hn : n < P.len) (hR : StringAt T R n s con)
    (string : ChulaBuffer) :
    ∃ ret string' huffman c, parseString T P n string = .ok (ret, string', huffman, c) ∧
      (ret = .ok → c = con ∧ StringAt T P n s con) := by
  have hget := Block.get_of_longer hpre hn
  have hle := Block.len_le_of_longer hpre
  have hlen := R.len_succ_lt
  -- a length that is read, and goes beyond the shorter block
  have hcut : ∀ {len icon : ℕ}, hpackIntegerDecode 7 (P.mem n) (P.rest n) 0 = (.ok, len, icon) →
      n + icon + len ≤ R.len → ¬ n + icon + len ≤ P.len →
      ∃ ret string' huffman c, parseString T P n string = .ok (ret, string', huffman, c) ∧
        (ret = .ok → c = con ∧ StringAt T P n s con) := fun hdec hin hout =>
    ⟨_, _, _, _, parseString_beyond hdec (not_le.mp hout) (by omega) string, fun h => absurd h (by decide)⟩
  cases hR with
  | @plain len icon hbit hint hread hin =>
    rcases decode_shorter hpre hn (decode_length hint hread hin).1 with ⟨hdec, -⟩ | ⟨w, hdec⟩
    · by_cases hout : n + icon + len ≤ P.len
      · obtain ⟨hintP, -, hreadP⟩ := hpackIntegerDecode_ok_iff.mp hdec
        rw [Block.rest_eq hn.le] at hreadP
        have hP : StringAt T P n (P.slice (n + icon) len) (icon + len) :=
          .plain (by rw [← hget]; exact hbit) hintP hreadP hout
        rw [Block.slice_of_longer hpre hout] at hP
        obtain ⟨string', huffman, hr, -⟩ := parseString_of_stringAt hP string
        exact ⟨_, _, _, _, hr, fun _ => ⟨rfl, hP⟩⟩
      · exact hcut hdec hin hout
    · exact ⟨_, _, _, _, parseString_error hdec string, fun h => absurd h (by decide)⟩
  | @huffman len icon context out hbit hint hread hin hdecode =>
    rcases decode_shorter hpre hn (decode_length hint hread hin).1 with ⟨hdec, -⟩ | ⟨w, hdec⟩
    · by_cases hout : n + icon + len ≤ P.len
      · obtain ⟨hintP, -, hreadP⟩ := hpackIntegerDecode_ok_iff.mp hdec
        rw [Block.rest_eq hn.le] at hreadP
        rw [← Block.slice_of_longer hpre hout] at hdecode
        have hP : StringAt T P n out.bytes (icon + len) :=
          .huffman (by rw [← hget]; exact hbit) hintP hreadP hout hdecode
        obtain ⟨string', huffman, hr, -⟩ := parseString_of_stringAt hP string
        exact ⟨_, _, _, _, hr, fun _ => ⟨rfl, hP⟩⟩
      · exact hcut hdec hin hout
    · exact ⟨_, _, _, _, parseString_error hdec string, fun h => absurd h (by decide)⟩

/-- The octet behind the block, taken for the length of a string, reaches 2^32. -/
def PastWraps (P : Block) : Prop := P.past.toNat % 128 ≠ 127 ∧ 2 ^ 32 ≤ P.len + 1 + P.past.toNat % 128

instance (P : Block) : Decidable (PastWraps P) := by unfold PastWraps; infer_instance

/-- **The octet behind the block** is read as the length of a string that is not there. -/
theorem parseString_end (T : HuffmanTables) (P : Block) (string : ChulaBuffer) :
    (¬ PastWraps P → ∃ ret string' huffman, parseString T P P.len string = .ok (ret, string', huffman, 0) ∧ ret ≠ .ok) ∧
    (PastWraps P → parseString T P P.len string = .error .overread) := by
  have hlen := P.len_succ_lt
  have hpast : P.mem P.len 0 = P.past := by
    rw [Block.mem, Block.get, Nat.add_zero, Block.len, List.getD, List.getElem?_eq_none le_rfl]
    rfl
  have hlow : (P.mem P.len 0).toNat &&& prefixLimit 7 = P.past.toNat % 128 := by
    rw [hpast]
    exact Nat.and_two_pow_sub_one_eq_mod P.past.toNat 7
  by_cases h127 : P.past.toNat % 128 = 127
  · -- the integer goes on behind that octet
    have hnone : ∀ v con, hpackIntegerDecode 7 (P.mem P.len) (P.rest P.len) 0 ≠ (.ok, v, con) := by
      intro v con hdec
      obtain ⟨hint, -, hread⟩ := hpackIntegerDecode_ok_iff.mp hdec
      rw [Block.rest_eq le_rfl, Nat.sub_self] at hread
      cases hint with
      | short hlt =>
        rw [hlow, h127] at hlt
        exact absurd hlt (by decide)
      | long _ hw =>
        have := hw.pos
        rcases hread with hread | hread <;> omega
    obtain ⟨v, hdec⟩ := hpackIntegerDecode_error hnone
    exact ⟨fun _ => ⟨_, _, _, parseString_error hdec string, by decide⟩, fun h => absurd h127 h.1⟩
  · have hint : IntegerAt 7 (P.mem P.len) (P.past.toNat % 128) 1 := by
      rw [← hlow]
      refine .short ?_
      rw [hlow, show prefixLimit 7 = 127 from rfl]
      omega
    have hdec := decode_of_integerAt le_rfl hint (by omega) (.inl rfl)
    constructor
    · intro hno
      have hlt : P.len + 1 + P.past.toNat % 128 < 2 ^ 32 := not_le.mp fun hle => hno ⟨h127, hle⟩
      exact ⟨_, _, _, parseString_beyond hdec (by omega) hlt string, by decide⟩
    · intro hyes
      refine (parseString_wraps le_rfl hdec hyes.2 string).2 fun h => h.2 ?_
      -- there is nothing to refuse
      have hnil : (P.octets ++ [P.past]).drop (P.len + 1) = [] := by
        rw [List.drop_eq_nil_iff, List.length_append, List.length_singleton]
        exact le_rfl
      rw [hnil]
      rfl

/-! ### Literals -/

section Lookup

variable {t : HeaderTable} {onlyName isStatic : Bool} {f f' : HeaderField} {ret : Ret}

/-- Whether an entry is copied does not depend on where to. -/
theorem headerDataGetChula_returns {h : HeadersDataCb} {offset numBytes : ℕ} {dst out : ChulaBuffer}
    (hr : headerDataGetChula h offset dst numBytes = .ok (ret, out)) (dst' : ChulaBuffer) :
    ∃ out', headerDataGetChula h offset dst' numBytes = .ok (ret, out') := by
  unfold headerDataGetChula at hr ⊢
  by_cases hbig : 4096 < numBytes
  · rw [if_pos hbig] at hr ⊢
    cases hr
    exact ⟨_, rfl⟩
  · rw [if_neg hbig] at hr ⊢
    obtain ⟨bs, hcopy, hr⟩ := bind_eq_ok hr
    cases hr
    rw [hcopy]
    exact ⟨_, rfl⟩

/-- Nor does the result of looking up a name. -/
theorem hpackHeaderTableGet_returns (hr : hpackHeaderTableGet t n true f = .ok (ret, f', isStatic)) (g : HeaderField) :
    ∃ g', hpackHeaderTableGet t n true g = .ok (ret, g', isStatic) := by
  unfold hpackHeaderTableGet at hr ⊢
  dsimp only at hr ⊢
  split_ifs at hr ⊢ with hbig hstatic htrue
  · cases hr
    exact ⟨_, rfl⟩
  · cases hr
    exact ⟨_, rfl⟩
  · exact absurd rfl htrue
  · obtain ⟨⟨r1, f1⟩, hget, hr⟩ := bind_eq_ok hr
    cases hr
    unfold hpackHeaderTableGetSetIdx at hget ⊢
    dsimp only at hget ⊢
    split_ifs at hget ⊢
    · cases hget
      exact ⟨_, rfl⟩
    · cases hget
      exact ⟨_, rfl⟩
    · obtain ⟨⟨r2, bs⟩, hinfo, hget⟩ := bind_eq_ok hget
      obtain ⟨⟨r3, name⟩, hname, hget⟩ := bind_eq_ok hget
      cases hget
      obtain ⟨out', hname'⟩ := headerDataGetChula_returns hname g.name
      simp only [hinfo, ok_bind, hname']
      exact ⟨_, rfl⟩

end Lookup

variable {table : HeaderTable} {f f' : HeaderField}

/-- The block is a literal with a new name, up to the end of the name. -/
def NameOnly (T : HuffmanTables) (P : Block) : Prop :=
  P.get 0 &&& 0x0F = 0 ∧ ∃ s con, StringAt T P 1 s con ∧ P.len = 1 + con

/-- What the name of the longer block is in the shorter one: the same, or not there. -/
def NameShorter (T : HuffmanTables) (P : Block) (table : HeaderTable) (g : HeaderField) (n : ℕ) : Prop :=
  ∃ ret g' m, parseHeaderName T P 0 table g = .ok (ret, g', m) ∧
    (ret = .ok → m = n ∧ n ≤ P.len ∧ (n = P.len → P.len ≤ 6 ∨ NameOnly T P))

/-- The name of an index. -/
theorem nameShorter_indexed {num con : ℕ} {isStatic : Bool} (hpre : P.octets <+: R.octets) (h0 : 0 < P.len)
    (hlow : P.get 0 &&& 0x0F ≠ 0)
    (hdec : hpackIntegerDecode (if P.get 0 &&& 0xC0 ≠ 0 then 6 else 4) (R.mem 0) (R.rest 0) 0 = (.ok, num, con))
    (hlookup : hpackHeaderTableGet table num true f = .ok (.ok, f', isStatic)) (g : HeaderField) :
    NameShorter T P table g ((0 + con) % 2 ^ 32) := by
  have hlenP := P.len_succ_lt
  rw [NameShorter, parseHeaderName, if_pos hlow]
  rcases decode_shorter hpre h0 hdec with ⟨hdecP, hin⟩ | ⟨w, hdecP⟩
  · -- the index is read, and a long one takes six octets at most
    have h6 : con ≤ 6 := by
      rcases (hpackIntegerDecode_ok_iff.mp hdecP).2.2 with h | h <;> omega
    obtain ⟨g', hlookupP⟩ := hpackHeaderTableGet_returns hlookup g
    simp only [hdecP, hlookupP, ok_bind, ne_eq, not_true_eq_false, if_false]
    refine ⟨_, _, _, rfl, fun _ => ⟨rfl, ?_, fun hn => .inl ?_⟩⟩
    · rw [Nat.mod_eq_of_lt (by omega)]
      exact hin
    · rw [← hn, Nat.mod_eq_of_lt (by omega)]
      omega
  · simp only [hdecP]
    exact ⟨_, _, _, rfl, fun h => absurd h (by decide)⟩

/-- A new name. -/
theorem nameShorter_new {s : List UInt8} {con : ℕ} (hpre : P.octets <+: R.octets) (h0 : 0 < P.len)
    (hlow : P.get 0 &&& 0x0F = 0) (hstring : StringAt T R 1 s con) (g : HeaderField) :
    NameShorter T P table g ((0 + 1 + con) % 2 ^ 32) := by
  have hlenP := P.len_succ_lt
  rw [NameShorter, parseHeaderName, if_neg (not_not.mpr hlow), show (0 + 1) % 2 ^ 32 = 1 from rfl]
  by_cases h1 : 1 < P.len
  · obtain ⟨ret, name', huffman', c, hnameP, hok⟩ := parseString_shorter hpre h1 hstring g.name
    rw [hnameP]
    by_cases hret : ret = .ok
    · obtain ⟨rfl, hP⟩ := hok hret
      have hendP := hP.le_len
      simp only [hret, ok_bind, ne_eq, not_true_eq_false, if_false]
      refine ⟨_, _, _, rfl, fun _ => ⟨rfl, ?_, fun hn => .inr ⟨hlow, s, c, hP, ?_⟩⟩⟩
      · rw [Nat.mod_eq_of_lt (by omega)]
        omega
      · rw [← hn, Nat.mod_eq_of_lt (by omega)]
    · simp only [ok_bind, ne_eq, hret, not_false_eq_true, if_true]
      exact ⟨_, _, _, rfl, fun h => absurd h hret⟩
  · -- only the first octet is there
    have hfits : ¬ PastWraps P := by
      rintro ⟨-, hwraps⟩
      have := Nat.mod_lt P.past.toNat (show 0 < 128 by decide)
      omega
    obtain ⟨ret, name', huffman', hnameP, hret⟩ := (parseString_end T P g.name).1 hfits
    rw [show P.len = 1 by omega] at hnameP
    rw [hnameP]
    simp only [ok_bind, ne_eq, hret, not_false_eq_true, if_true]
    exact ⟨_, _, _, rfl, fun h => absurd h hret⟩

/-- **A name** of the longer block is parsed in the shorter one, or it is cut off. -/
theorem parseHeaderName_shorter (hpre : P.octets <+: R.octets) (h0 : 0 < P.len)
    (hR : parseHeaderName T R 0 table f = .ok (.ok, f', n)) (g : HeaderField) : NameShorter T P table g n := by
  have hget := Block.get_of_longer hpre h0
  have hle := Block.len_le_of_longer hpre
  cases parseHeaderName_cases hR with
  | indexed hlow hdec hlookup =>
    rw [hget] at hlow hdec
    exact nameShorter_indexed hpre h0 hlow hdec hlookup g
  | unnamed _ _ hret => exact absurd rfl hret
  | named hlow hname =>
    rw [hget] at hlow
    obtain ⟨s, hstring, -⟩ := stringAt_of_parseString (by omega) hname
    exact nameShorter_new hpre h0 hlow hstring g

/-- **A value** that takes the rest of the longer block is not parsed in the shorter one. -/
theorem parseString_value_shorter {s : List UInt8} {con : ℕ} (hpre : P.octets <+: R.octets) (hlt : P.len < R.len)
    (hstring : StringAt T R n s con) (htotal : n + con = R.len) (hn : n ≤ P.len) (hend : n = P.len → ¬ PastWraps P)
    (string : ChulaBuffer) :
    ∃ ret string' huffman c, parseString T P n string = .ok (ret, string', huffman, c) ∧ ret ≠ .ok := by
  rcases lt_or_eq_of_le hn with hnlt | rfl
  · obtain ⟨ret, string', huffman', c, hr, hok⟩ := parseString_shorter hpre hnlt hstring string
    refine ⟨ret, string', huffman', c, hr, ?_⟩
    intro hret
    have := (hok hret).2.le_len
    omega
  · obtain ⟨ret, string', huffman', hr, hret⟩ := (parseString_end T P string).1 (hend rfl)
    exact ⟨ret, string', huffman', 0, hr, hret⟩

/-- **A pair** that takes all of the longer block is not parsed in the shorter one. -/
theorem parseHeaderPair_shorter (hpre : P.octets <+: R.octets) (h0 : 0 < P.len) (hlt : P.len < R.len)
    (hR : parseHeaderPair T R 0 table f = .ok (.ok, f', R.len)) (g : HeaderField) :
    (¬ (NameOnly T P ∧ PastWraps P) →
      ∃ ret g' con, parseHeaderPair T P 0 table g = .ok (ret, g', con) ∧ ret ≠ .ok) ∧
    (NameOnly T P ∧ PastWraps P → parseHeaderPair T P 0 table g = .error .overread) := by
  have hlenR := R.len_succ_lt
  constructor
  · intro hno
    obtain ⟨f1, n, value, huffman, con, hname, hvalue, hcon⟩ := parseHeaderPair_parts hR
    have hn := (parseHeaderName_bounds (by omega) hname).2
    obtain ⟨s, hstring, -⟩ := stringAt_of_parseString hn hvalue
    -- the value goes to the end of the longer block
    have htotal : n + con = R.len := by
      have := hstring.le_len
      rw [Nat.mod_eq_of_lt (by omega), cbMask_eq] at hcon
      omega
    obtain ⟨ret, g1, m, hnameP, hokP⟩ := parseHeaderName_shorter hpre h0 hname g
    rw [parseHeaderPair, hnameP]
    by_cases hretP : ret = .ok
    swap
    · simp only [ok_bind, ne_eq, hretP, not_false_eq_true, if_true]
      exact ⟨_, _, _, rfl, hretP⟩
    obtain ⟨rfl, hmle, hmend⟩ := hokP hretP
    simp only [hretP, ok_bind, ne_eq, not_true_eq_false, if_false]
    have hend : m = P.len → ¬ PastWraps P := by
      intro hm hwraps
      rcases hmend hm with h6 | hname
      · have := hwraps.2
        have := Nat.mod_lt P.past.toNat (show 0 < 128 by decide)
        omega
      · exact hno ⟨hname, hwraps⟩
    obtain ⟨ret, string', huffman', c, hr, hret⟩ := parseString_value_shorter hpre hlt hstring htotal hmle hend g1.value
    simp only [hr, ok_bind, hret, not_false_eq_true, if_true]
    exact ⟨_, _, _, rfl, hret⟩
  · rintro ⟨⟨hnew, s, con, hP, hend⟩, hwraps⟩
    obtain ⟨name, huffman, hr, -⟩ := parseString_of_stringAt hP g.name
    have hmod : (0 + 1 + con) % 2 ^ 32 = P.len := by rw [Nat.mod_eq_of_lt (by omega)]; omega
    simp only [parseHeaderPair, parseHeaderName, hnew, show (0 + 1) % 2 ^ 32 = 1 from rfl, hr, hmod, ok_bind, ne_eq,
      not_true_eq_false, if_false, pure_bind, (parseString_end T P _).2 hwraps, error_bind]

/-! ### Representations -/

variable {ctx ctx' : Context} {field : HeaderField}

/-- The shorter block of a context update or an indexed field ends inside of its integer. -/
theorem decode_cut (hpre : P.octets <+: R.octets) (h0 : 0 < P.len) (hlt : P.len < R.len)
    (hR : hpackIntegerDecode N (R.mem 0) (R.rest 0) 0 = (.ok, v, R.len)) :
    ∃ w, hpackIntegerDecode N (P.mem 0) (P.rest 0) 0 = (.error, w, 0) :=
  (decode_shorter hpre h0 hR).resolve_left fun h => by have := h.2; omega

/-- **A representation that is cut off** is not accepted, and the table and the reference sets stay as they are, unless
the cut is right before the value of a literal with a new name and the octet behind it reaches 2^32. -/
theorem representation_cut (T : HuffmanTables) (ctx ctx' : Context) (R P : Block) (hpre : P.octets <+: R.octets)
    (h0 : 0 < P.len) (hlt : P.len < R.len) (field f : HeaderField)
    (hR : hpackHeaderParserField T ctx R 0 field = .ok (.ok, ctx', f, R.len)) (field' : HeaderField) :
    (∃ ret ctx2 f2 con, hpackHeaderParserField T ctx P 0 field' = .ok (ret, ctx2, f2, con) ∧ ret ≠ .ok ∧
      ctx.Same ctx2) ↔
      ¬ (P.get 0 &&& 0xE0 ≠ 0x20 ∧ P.get 0 &&& 0x80 = 0 ∧ NameOnly T P ∧ PastWraps P) := by
  have hget := Block.get_of_longer hpre h0
  have hR0 : 0 ≠ R.len := by omega
  have hP0 : 0 ≠ P.len := by omega
  by_cases hup : P.get 0 &&& 0xE0 = 0x20
  · refine iff_of_true ?_ fun h => h.1 hup
    rw [parserField_update hR0 (by rwa [hget])] at hR
    rw [parserField_update hP0 hup]
    obtain ⟨⟨r1, ctx1, con1⟩, hupdate, hR⟩ := bind_eq_ok hR
    obtain ⟨rfl, hcon⟩ : r1 = .ok ∧ con1 = R.len :=
      ⟨congrArg Prod.fst (Except.ok.inj hR), congrArg (fun r => r.2.2.2) (Except.ok.inj hR)⟩
    subst hcon
    rcases parseContextUpdate_decoded hupdate with ⟨-, h1⟩ | ⟨h30, num, hdec⟩
    · omega
    · obtain ⟨w, hdecP⟩ := decode_cut hpre h0 hlt hdec
      rw [hget] at h30
      simp only [parseContextUpdate, if_neg h30, hdecP]
      exact ⟨_, _, _, _, rfl, Ret.noConfusion, rfl, rfl, rfl⟩
  by_cases hidx : P.get 0 &&& 0x80 ≠ 0
  · refine iff_of_true ?_ fun h => hidx h.2.1
    rw [parserField_indexed hR0 (by rwa [hget]) (by rwa [hget])] at hR
    rw [parserField_indexed hP0 hup hidx]
    obtain ⟨num, hdec⟩ := parseIndexed_decoded hR
    obtain ⟨w, hdecP⟩ := decode_cut hpre h0 hlt hdec
    simp only [parseIndexed, if_neg (show ¬ 2 ^ 31 ≤ 0 by decide), hdecP]
    exact ⟨_, _, _, _, rfl, Ret.noConfusion, rfl, rfl, rfl⟩
  rw [parserField_literal hP0 hup hidx]
  obtain ⟨f1, hpair⟩ := parserField_pair hR0 (by rwa [hget]) (by rwa [hget]) hR
  obtain ⟨hno, hyes⟩ := parseHeaderPair_shorter hpre h0 hlt hpair (hpackHeaderFieldClean field')
  constructor
  · rintro ⟨ret, ctx2, f2, con, hP, -, -⟩ ⟨-, -, hname, hwraps⟩
    rw [hyes ⟨hname, hwraps⟩] at hP
    cases hP
  · intro h
    obtain ⟨ret, g', con, hP, hret⟩ := hno fun hcut => h ⟨hup, not_not.mp hidx, hcut⟩
    simp only [hP, ok_bind, hret, ne_eq, not_false_eq_true, if_true]
    exact ⟨_, _, _, _, rfl, hret, rfl, rfl, rfl⟩

section Samples

/-- A literal with a new name of 2^32 - 10 octets: what is in front of the name. -/
def headBlock : Block := ⟨[0x00, 0x7F, 0xF7, 0xFE, 0xFF, 0xFF, 0x0F], 0, by decide⟩

/-- The literal up to the end of its name, and what is behind it. -/
def longName (tail : List UInt8) (past : UInt8) (h : tail.length ≤ 1) : Block where
  octets := headBlock.octets ++ (List.replicate (2 ^ 32 - 10) 97 ++ tail)
  past := past
  len_lt := by
    rw [List.length_append, List.length_append, List.length_replicate, show headBlock.octets.length = 7 from rfl]
    omega

variable {tail : List UInt8} {past : UInt8} {h : tail.length ≤ 1}

theorem longName_octets :
    (longName tail past h).octets = headBlock.octets ++ (List.replicate (2 ^ 32 - 10) 97 ++ tail) := rfl

theorem longName_len : (longName tail past h).len = 2 ^ 32 - 3 + tail.length := by
  rw [Block.len, longName, List.length_append, List.length_append, List.length_replicate,
    show headBlock.octets.length = 7 from rfl]
  omega

theorem longName_get {i : ℕ} (hi : i < 7) : (longName tail past h).get i = headBlock.get i :=
  Block.get_of_longer (List.prefix_append _ _) hi

/-- The name. -/
theorem longName_name : ∃ s, StringAt noTables (longName tail past h) 1 s (6 + (2 ^ 32 - 10)) := by
  have hlen : (longName tail past h).len = _ := longName_len
  have hdec : hpackIntegerDecode 7 (headBlock.mem 1) 6 0 = (.ok, 2 ^ 32 - 10, 6) := by decide
  have hint : IntegerAt 7 ((longName tail past h).mem 1) (2 ^ 32 - 10) 6 :=
    (IntegerAt.of_longer (List.prefix_append headBlock.octets _) (by decide)).mpr (hpackIntegerDecode_ok_iff.mp hdec).1
  refine ⟨_, .plain (by rw [longName_get (by decide)]; decide) hint (.inr ?_) ?_⟩
  · omega
  · omega

/-- An empty value behind the name. -/
theorem longName_value : ∃ s, StringAt noTables (longName [0] past le_rfl) (2 ^ 32 - 3) s 1 := by
  have hlen : (longName [0] past le_rfl).len = 2 ^ 32 - 3 + 1 := longName_len
  have hoct : (longName [0] past le_rfl).octets =
      (headBlock.octets ++ List.replicate (2 ^ 32 - 10) 97) ++ ([0] ++ []) := by
    rw [longName_octets, List.append_assoc]
    rfl
  have hpre : (headBlock.octets ++ List.replicate (2 ^ 32 - 10) (97 : UInt8)).length = 2 ^ 32 - 3 := by
    rw [List.length_append, List.length_replicate]
    rfl
  have hget := Block.mem_of_octets hoct (show 0 < [(0 : UInt8)].length by decide)
  rw [hpre] at hget
  have hmem : (longName [0] past le_rfl).mem (2 ^ 32 - 3) 0 = 0 := Option.some.inj hget
  have hint : IntegerAt 7 ((longName [0] past le_rfl).mem (2 ^ 32 - 3)) 0 1 := by
    have hshort : IntegerAt 7 ((longName [0] past le_rfl).mem (2 ^ 32 - 3)) _ _ := .short (by rw [hmem]; decide)
    rwa [hmem] at hshort
  have hbit : (longName [0] past le_rfl).get (2 ^ 32 - 3) = 0 := hmem
  exact ⟨_, .plain (by rw [hbit]; decide) hint (.inl rfl) (by omega)⟩

/-- A literal with incremental indexing, a new name and a value. -/
def pairBlock : Block := ⟨[0x40, 0x01, 110, 0x01, 118], 0, by decide⟩

end Samples

theorem representation_cut_pair : ∃ ret ctx2 f2 con,
    hpackHeaderParserField noTables (hpackHeaderParserInit zeroTable) (some ⟨[0x40, 0x01, 110], 0xFF, by decide⟩) 0
      hpackHeaderFieldInit = .ok (ret, ctx2, f2, con) ∧ ret ≠ .ok ∧ (hpackHeaderParserInit zeroTable).Same ctx2 := by
  obtain ⟨⟨ret, ctx', f, con⟩, hR, rfl, rfl⟩ : ∃ r, hpackHeaderParserField noTables (hpackHeaderParserInit zeroTable)
      pairBlock 0 hpackHeaderFieldInit = .ok r ∧ r.1 = .ok ∧ r.2.2.2 = pairBlock.len := by decide
  exact (representation_cut noTables (hpackHeaderParserInit zeroTable) ctx' pairBlock ⟨[0x40, 0x01, 110], 0xFF, by decide⟩
    (by decide) (by decide) (by decide) hpackHeaderFieldInit f hR hpackHeaderFieldInit).mpr
    fun h => absurd h.2.2.2 (by decide)

/-- The literal is accepted; cut before its value, with a 2 behind it, it is read beyond its end. -/
theorem representation_cut_wraps :
    (longName [] 2 (Nat.zero_le 1)).octets <+: (longName [0] 0 le_rfl).octets ∧
      (∃ ctx' f, hpackHeaderParserField noTables (hpackHeaderParserInit zeroTable) (longName [0] 0 le_rfl) 0
        hpackHeaderFieldInit = .ok (.ok, ctx', f, (longName [0] 0 le_rfl).len)) ∧
      hpackHeaderParserField noTables (hpackHeaderParserInit zeroTable) (longName [] 2 (Nat.zero_le 1)) 0
        hpackHeaderFieldInit = .error .overread := by
  have hlenR : (longName [0] 0 le_rfl).len = 2 ^ 32 - 3 + 1 := longName_len
  have hlenP : (longName [] 2 (Nat.zero_le 1)).len = 2 ^ 32 - 3 := longName_len
  have hpre : (longName [] 2 (Nat.zero_le 1)).octets <+: (longName [0] 0 le_rfl).octets :=
    ⟨[0], by rw [longName_octets, longName_octets, List.append_nil, List.append_assoc]⟩
  have hgetR : (longName [0] 0 le_rfl).get 0 = 0 := longName_get (by decide)
  have hgetP : (longName [] 2 (Nat.zero_le 1)).get 0 = 0 := longName_get (by decide)
  obtain ⟨name, hname⟩ : ∃ s, StringAt noTables (longName [0] 0 le_rfl) 1 s _ := longName_name
  obtain ⟨nameP, hnameP⟩ : ∃ s, StringAt noTables (longName [] 2 (Nat.zero_le 1)) 1 s _ := longName_name
  obtain ⟨value, hvalue⟩ : ∃ s, StringAt noTables (longName [0] 0 le_rfl) (2 ^ 32 - 3) s 1 := longName_value
  obtain ⟨f1, hf1, -, -⟩ := parseHeaderName_new noTables (hpackHeaderParserInit zeroTable).table
    (hpackHeaderFieldClean hpackHeaderFieldInit) (by rw [hgetR]; decide) hname
  obtain ⟨f2, hpair, -, -⟩ := parseHeaderPair_ok noTables (Nat.zero_le _) hf1 hvalue
  rw [show 0 + 1 + (6 + (2 ^ 32 - 10)) + 1 - 0 = (longName [0] 0 le_rfl).len by omega] at hpair
  refine ⟨hpre, ?_, ?_⟩
  · obtain ⟨ctx', f', heq, -, -⟩ := parserField_literal_ok noTables (Context.Inv.init zeroTable)
      (show 0 < (longName [0] 0 le_rfl).len by omega) (.inr (by rw [hgetR]; decide))
      (fun h => absurd h (by rw [hgetR]; decide)) hpair
    exact ⟨ctx', f', heq⟩
  · have hover := (parseHeaderPair_shorter hpre (by omega) (by omega) hpair
      (hpackHeaderFieldClean hpackHeaderFieldInit)).2
      ⟨⟨by rw [hgetP]; decide, nameP, _, hnameP, by omega⟩, by decide, by rw [hlenP]; decide⟩
    rw [parserField_literal (by omega) (by rw [hgetP]; decide) (by rw [hgetP]; decide), hover, error_bind]

end LibHpack
