import LibHpack.Decoder.Sessions
import LibHpack.HeaderParser.Truncation
import LibHpack.HeaderParser.Outcome

/-!
# LibHpack.Decoder.Emissions — the fields of a block

`Reads` says how the source splits a block into representations.  They are the instructions that the block spells, but
for the name indices that it takes for new names (`Reads.of_spells`).  Each of them gives at most one field
(`Context.gives`), the references that are left follow (`FinalEmission`), and `BlockEmits` puts all of that together.

The loop of `hpack_header_parser_all` stores the field object when it is not empty, so it drops the fields without name
and value (`parserAll_emits`).
-/

namespace LibHpack

open LibHpack.Decoder

variable {T : HuffmanTables} {ctx ctx' : Context} {es : List Entry} {buf : Block} {n con con' : ℕ} {i j : Instr}
  {is : List Instr} {field f : HeaderField} {ps final : List Pair}

/-! ### Representations -/

/-- The representation at an offset, as the source tells its kind: by the low half of the octet, whatever the width of
the index is, for a new name; and every octet from `0x20` to `0x3F` is an update. -/
inductive Reads (T : HuffmanTables) (buf : Block) (n : ℕ) : Instr → ℕ → Prop
  | resize {max con : ℕ} (hc : buf.get n &&& 0xE0 = 0x20) (h30 : buf.get n ≠ 0x30)
      (hint : IntegerAt 4 (buf.mem n) max con) : Reads T buf n (.resize max) con
  | forget (hc : buf.get n = 0x30) : Reads T buf n .forget 1
  | indexed {num con : ℕ} (hc : buf.get n &&& 0x80 ≠ 0) (hint : IntegerAt 7 (buf.mem n) num con) :
      Reads T buf n (.indexed num) con
  | newName {name value : List UInt8} {c1 c2 : ℕ} (hc : buf.get n &&& 0xC0 = 0x40 ∨ buf.get n &&& 0xE0 = 0)
      (hlow : buf.get n &&& 0x0F = 0) (hname : StringAt T buf (n + 1) name c1)
      (hvalue : StringAt T buf (n + 1 + c1) value c2) :
      Reads T buf n (.literal (decide (buf.get n &&& 0xC0 = 0x40)) (.new name) value) (1 + c1 + c2)
  | indexedName {value : List UInt8} {k con c : ℕ} (hc : buf.get n &&& 0xC0 = 0x40 ∨ buf.get n &&& 0xE0 = 0)
      (hlow : buf.get n &&& 0x0F ≠ 0) (hint : IntegerAt (literalPrefix (buf.get n)) (buf.mem n) k con)
      (hvalue : StringAt T buf (n + con) value c) :
      Reads T buf n (.literal (decide (buf.get n &&& 0xC0 = 0x40)) (.index k) value) (con + c)

/-- The source does not take the index of the name for a new name. -/
def Legible : Instr → Prop
  | .literal true (.index k) _ => k ∉ [16, 32, 48]
  | _ => True

theorem StringAt.unique {s s' : List UInt8} (h : StringAt T buf n s con) (h' : StringAt T buf n s' con') :
    s = s' ∧ con = con' := by
  obtain ⟨b, huffman, heq, hbytes⟩ := parseString_of_stringAt h chulaBufferInit
  obtain ⟨b', huffman', heq', hbytes'⟩ := parseString_of_stringAt h' chulaBufferInit
  rw [heq] at heq'
  cases heq'
  exact ⟨List.append_cancel_left (hbytes.symm.trans hbytes'), rfl⟩

/-- The kinds exclude each other. -/
theorem update_octet : ∀ c : UInt8, c &&& 0xE0 = 0x20 → ¬ c &&& 0x80 ≠ 0 ∧ ¬ (c &&& 0xC0 = 0x40 ∨ c &&& 0xE0 = 0) :=
  forall_octet (by decide +kernel)

/-- **There is one representation** at an offset. -/
theorem Reads.unique (h : Reads T buf n i con) (h' : Reads T buf n j con') : i = j ∧ con = con' := by
  have h30 : buf.get n = 0x30 → buf.get n &&& 0xE0 = 0x20 := fun hc => by rw [hc]; decide
  cases h with
  | resize hc hne hint =>
    cases h' with
    | resize _ _ hint' =>
      obtain ⟨rfl, rfl⟩ := hint.unique hint'
      exact ⟨rfl, rfl⟩
    | forget hc' => exact absurd hc' hne
    | indexed hc' _ => exact absurd hc' (update_octet _ hc).1
    | newName hc' _ _ _ => exact absurd hc' (update_octet _ hc).2
    | indexedName hc' _ _ _ => exact absurd hc' (update_octet _ hc).2
  | forget hc =>
    cases h' with
    | resize _ hne _ => exact absurd hc hne
    | forget _ => exact ⟨rfl, rfl⟩
    | indexed hc' _ => exact absurd hc' (update_octet _ (h30 hc)).1
    | newName hc' _ _ _ => exact absurd hc' (update_octet _ (h30 hc)).2
    | indexedName hc' _ _ _ => exact absurd hc' (update_octet _ (h30 hc)).2
  | indexed hc hint =>
    cases h' with
    | resize hc' _ _ => exact absurd hc (update_octet _ hc').1
    | forget hc' => exact absurd hc (update_octet _ (h30 hc')).1
    | indexed _ hint' =>
      obtain ⟨rfl, rfl⟩ := hint.unique hint'
      exact ⟨rfl, rfl⟩
    | newName hc' _ _ _ => exact absurd hc (literal_octet _ hc').2.2
    | indexedName hc' _ _ _ => exact absurd hc (literal_octet _ hc').2.2
  | newName hc hlow hname hvalue =>
    cases h' with
    | resize hc' _ _ => exact absurd hc (update_octet _ hc').2
    | forget hc' => exact absurd hc (update_octet _ (h30 hc')).2
    | indexed hc' _ => exact absurd hc' (literal_octet _ hc).2.2
    | newName _ _ hname' hvalue' =>
      obtain ⟨rfl, rfl⟩ := hname.unique hname'
      obtain ⟨rfl, rfl⟩ := hvalue.unique hvalue'
      exact ⟨rfl, rfl⟩
    | indexedName _ hlow' _ _ => exact absurd hlow hlow'
  | indexedName hc hlow hint hvalue =>
    cases h' with
    | resize hc' _ _ => exact absurd hc (update_octet _ hc').2
    | forget hc' => exact absurd hc (update_octet _ (h30 hc')).2
    | indexed hc' _ => exact absurd hc' (literal_octet _ hc).2.2
    | newName _ hlow' _ _ => exact absurd hlow' hlow
    | indexedName _ _ hint' hvalue' =>
      obtain ⟨rfl, rfl⟩ := hint.unique hint'
      obtain ⟨rfl, rfl⟩ := hvalue.unique hvalue'
      exact ⟨rfl, rfl⟩

/-- **What a block spells is read**, if the source does not take an index for a new name. -/
theorem Reads.of_spells (h : Spells T buf n i con) (hlegible : Legible i) : Reads T buf n i con := by
  cases h with
  | resize hc hint _ _ =>
    obtain ⟨hE0, h30⟩ := resize_octet _ hc
    exact .resize hE0 h30 hint
  | forget hc _ => exact .forget hc
  | indexed hc hint _ _ => exact .indexed hc hint
  | newName hc hint hname hvalue => exact .newName hc ((newName_iff hc hint).mpr (.inl rfl)) hname hvalue
  | @indexedName value k con c hc hint hk _ hvalue =>
    refine .indexedName hc (fun hlow => ?_) hint hvalue
    rcases (newName_iff hc hint).mp hlow with rfl | ⟨hform, hmem⟩
    · omega
    · rw [decide_eq_true hform] at hlegible
      exact hlegible hmem

/-- The octets that are not an update or an index start a literal. -/
theorem rest_octet : ∀ c : UInt8, ¬ c &&& 0xE0 = 0x20 → ¬ c &&& 0x80 ≠ 0 → c &&& 0xC0 = 0x40 ∨ c &&& 0xE0 = 0 :=
  forall_octet (by decide +kernel)

/-! ### What a representation gives -/

/-- A context update, and the index of a reference. -/
def Context.Silent (ctx : Context) : Instr → Prop
  | .resize _ => True
  | .forget => True
  | .indexed num => hpackHeaderTableSetExists ctx.table ctx.referenceSet num = true
  | .literal _ _ _ => False

/-- The field of a representation: that of the entry with the index, if it is no reference, and that of a literal. -/
def Context.gives (ctx : Context) : Instr → Option Pair
  | .resize _ => none
  | .forget => none
  | .indexed num =>
    if hpackHeaderTableSetExists ctx.table ctx.referenceSet num then none
    else returnedPair (hpackHeaderTableGet ctx.table num false hpackHeaderFieldInit)
  | .literal _ (.new name) value => some (name, value)
  | .literal _ (.index k) value =>
    (returnedPair (hpackHeaderTableGet ctx.table k true hpackHeaderFieldInit)).map fun p => (p.1, value)

/-- What a call returns for a representation: its field, or nothing. -/
structure Context.Returns (ctx : Context) (i : Instr) (f : HeaderField) : Prop where
  silent : ctx.Silent i → ctx.gives i = none ∧ f.pair = ([], [])
  emits : ¬ ctx.Silent i → ctx.gives i = some f.pair

theorem Context.Returns.pair (h : ctx.Returns i f) : f.pair = (ctx.gives i).getD ([], []) := by
  by_cases hs : ctx.Silent i
  · rw [(h.silent hs).1, (h.silent hs).2]
    rfl
  · rw [h.emits hs]
    rfl

/-! ### One call -/

/-- **The pair of a literal.** -/
theorem parseHeaderPair_reads (hlt : n < buf.len) (hc : buf.get n &&& 0xC0 = 0x40 ∨ buf.get n &&& 0xE0 = 0)
    (hpair : parseHeaderPair T buf n ctx.table (hpackHeaderFieldClean field) = .ok (.ok, f, con)) :
    ∃ name value, Reads T buf n (.literal (decide (buf.get n &&& 0xC0 = 0x40)) name value) con ∧
      ctx.gives (.literal (decide (buf.get n &&& 0xC0 = 0x40)) name value) = some f.pair := by
  have hbuf := buf.len_succ_lt
  have hclean := clean_pair field
  obtain ⟨hname0, hvalue0⟩ := Prod.mk.inj hclean
  cases parseHeaderPair_cases hpair with
  | unnamed _ hret => exact absurd rfl hret
  | unvalued _ _ hret => exact absurd rfl hret
  | @parsed f1 m con2 value huffman hname hvalue =>
    obtain ⟨hm, hmlen⟩ := parseHeaderName_bounds hlt hname
    obtain ⟨s, hstring, hbytes⟩ := stringAt_of_parseString hmlen hvalue
    have hle := hstring.le_len
    have hcon : cbMask (((m + con2) % 2 ^ 32 : ℕ) - (n : ℤ)) (2 ^ 32) = m - n + con2 := by
      rw [Nat.mod_eq_of_lt (by omega), cbMask_eq]
      omega
    rw [hcon]
    cases parseHeaderName_cases hname with
    | @indexed r k icon f0 isStatic hlow hdec hget =>
      obtain ⟨-, -, hin⟩ := decode_bounds hlt.le hdec
      have hin := hin hlt
      rw [Nat.mod_eq_of_lt (show n + icon < 2 ^ 32 by omega), Nat.add_sub_cancel_left] at *
      rw [(literal_octet _ hc).1] at hdec
      refine ⟨.index k, s, .indexedName hc hlow (hpackIntegerDecode_ok_iff.mp hdec).1 hstring, ?_⟩
      -- the value is behind nothing
      have hval : value.bytes = s := by
        rw [hbytes, tableGet_name_value hget, hvalue0, List.nil_append]
      rw [Context.gives, returnedPair_get hclean hget, Option.map_some, ← hval]
      rfl
    | unnamed _ _ hret => exact absurd rfl hret
    | @named name huffman1 con1 hlow hstr =>
      rw [Nat.mod_eq_of_lt (show n + 1 < 2 ^ 32 by omega)] at hstr
      obtain ⟨t, hstring1, hbytes1⟩ := stringAt_of_parseString (by omega) hstr
      have hle1 := hstring1.le_len
      rw [Nat.mod_eq_of_lt (show n + 1 + con1 < 2 ^ 32 by omega)] at *
      refine ⟨.new t, s, ?_, ?_⟩
      · rw [show n + 1 + con1 - n + con2 = 1 + con1 + con2 by omega]
        exact .newName hc hlow hstring1 hstring
      · have hval : value.bytes = s := by rw [hbytes, hvalue0, List.nil_append]
        rw [Context.gives, ← List.nil_append t, ← hname0, ← hbytes1, ← hval]
        rfl

/-- An index. -/
theorem IndexedCall.reads {f0 : HeaderField} (hcall : IndexedCall buf n { ctx with finished := false } f0 .ok ctx' f con)
    (hf0 : f0.pair = ([], [])) (hc : buf.get n &&& 0x80 ≠ 0) : ∃ i, Reads T buf n i con ∧ ctx.Returns i f := by
  have hfield : ∀ {num con : ℕ} {f : HeaderField} {isStatic : Bool},
      IndexedField buf n { ctx with finished := false } f0 num con .ok f isStatic →
        ∃ i, Reads T buf n i con ∧ ctx.Returns i f := by
    intro num con f isStatic h
    refine ⟨.indexed num, .indexed hc (hpackIntegerDecode_ok_iff.mp h.dec).1, fun hs => absurd hs h.fresh, fun hs => ?_⟩
    have hget := h.get
    rw [Context.gives, if_neg (by exact hs)]
    exact returnedPair_get (by exact hf0) hget
  cases hcall with
  | removed hdec _ hex =>
    exact ⟨.indexed _, .indexed hc (hpackIntegerDecode_ok_iff.mp hdec).1, fun _ => ⟨if_pos hex, hf0⟩,
      fun hs => absurd hex hs⟩
  | unread _ hret => exact absurd rfl hret
  | referenced h => exact hfield h
  | unadded _ _ hret => exact absurd rfl hret
  | inserted h _ => exact hfield h

/-- **A call reads one representation**, and returns what it gives. -/
theorem parserField_reads (hlt : n < buf.len)
    (hr : hpackHeaderParserField T ctx buf n field = .ok (.ok, ctx', f, con)) :
    ∃ i, Reads T buf n i con ∧ ctx.Returns i f := by
  by_cases hup : buf.get n &&& 0xE0 = 0x20
  · rw [parserField_update hlt.ne hup] at hr
    obtain ⟨⟨ret1, ctx1, con1⟩, hupdate, hr⟩ := bind_eq_ok hr
    cases hr
    rcases parseContextUpdate_decoded hupdate with ⟨h30, rfl⟩ | ⟨h30, num, hdec⟩
    · exact ⟨.forget, .forget h30, fun _ => ⟨rfl, clean_pair field⟩, fun hs => absurd trivial hs⟩
    · exact ⟨.resize num, .resize hup h30 (hpackIntegerDecode_ok_iff.mp hdec).1, fun _ => ⟨rfl, clean_pair field⟩,
        fun hs => absurd trivial hs⟩
  by_cases hidx : buf.get n &&& 0x80 ≠ 0
  · rw [parserField_indexed hlt.ne hup hidx] at hr
    exact (parseIndexed_cases hr).reads (clean_pair field) hidx
  · have hliteral : ∀ {f : HeaderField} {con : ℕ} (rep : FieldRep),
        parseHeaderPair T buf n ctx.table (hpackHeaderFieldClean field) = .ok (.ok, f, con) →
          ∃ i, Reads T buf n i con ∧ ctx.Returns i { f with flags := { f.flags with rep := rep } } := by
      intro f con rep hpair
      obtain ⟨name, value, hreads, hgives⟩ := parseHeaderPair_reads hlt (rest_octet _ hup hidx) hpair
      exact ⟨_, hreads, fun hs => hs.elim, fun _ => hgives⟩
    cases parserField_literal_cases hlt.ne hup hidx hr with
    | refused _ hret => exact absurd rfl hret
    | returned hpair _ rep => exact hliteral rep hpair
    | unadded _ _ _ hret => exact absurd rfl hret
    | inserted hpair _ _ => exact hliteral _ hpair

/-! ### Blocks -/

/-- The fields that the iterator finds, one after the other. -/
inductive Remaining (t : HeaderTable) : HpackSet → SetIterator → List Pair → Prop
  | nil {s : HpackSet} {iter : SetIterator} (hnext : (hpackHeaderTableIterNext t s iter).1 = none) : Remaining t s iter []
  | cons {s : HpackSet} {iter iter' : SetIterator} {idx : ℕ} {p : Pair} {ps : List Pair}
      (hnext : hpackHeaderTableIterNext t s iter = (some idx, iter'))
      (hget : returnedPair (hpackHeaderTableGet t idx false hpackHeaderFieldInit) = some p)
      (hrest : Remaining t (hpackHeaderTableSetRemove t s idx) iter' ps) : Remaining t s iter (p :: ps)

/-- The fields of the references that are left; there are none when the block has been finished before. -/
def FinalEmission (ctx : Context) (final : List Pair) : Prop :=
  if ctx.finished then final = [] else Remaining ctx.table ctx.refNotEmitted ctx.iterNotEmitted final

/-- **What a block emits**: the fields that its representations give, each of them in the state in front of it, and the
references that are left behind the last one. -/
inductive BlockEmits (T : HuffmanTables) (buf : Block) :
    Context → HeaderField → ℕ → List Instr → List Pair → List Pair → Prop
  | final {ctx : Context} {field : HeaderField} {final : List Pair} (hfinal : FinalEmission ctx final) :
      BlockEmits T buf ctx field buf.len [] [] final
  | instr {ctx ctx' : Context} {field f : HeaderField} {n con : ℕ} {i : Instr} {is : List Instr} {ps final : List Pair}
      (hlt : n < buf.len) (hreads : Reads T buf n i con)
      (hcall : hpackHeaderParserField T ctx buf n field = .ok (.ok, ctx', f, con))
      (hrest : BlockEmits T buf ctx' f (n + con) is ps final) :
      BlockEmits T buf ctx field n (i :: is) ((ctx.gives i).toList ++ ps) final

section Loop

variable {fuel consumed : ℕ} {store : List HeaderField} {r : Ret × Context × Option (List HeaderField) × ℕ}

end Loop

/-! ### The decoder -/

/-- The source gets through the instruction, so it finds the width of its index. -/
theorem InstrOk.legible (h : InstrOk ctx i) : Legible i := by
  cases i with
  | literal indexing name value =>
    cases indexing with
    | false => trivial
    | true =>
      cases name with
      | new name => trivial
      | index k => exact (h.1 k rfl).form rfl
  | _ => trivial

/-- A step gives no field for a context update, and for the index of a reference. -/
theorem Context.Inv.step_silent {s : State} {p : Option Pair} (h : ctx.Inv es) (hok : InstrOk ctx i)
    (hstep : ctx.state.step staticPairs 4096 i = some (s, p)) : p = none ↔ ctx.Silent i := by
  cases i with
  | resize max =>
    rw [State.step] at hstep
    split_ifs at hstep
    cases hstep
    exact iff_of_true rfl trivial
  | forget =>
    cases hstep
    exact iff_of_true rfl trivial
  | indexed num =>
    have hok : IndexOk ctx num := hok
    rw [State.step, Option.map_eq_some_iff] at hstep
    obtain ⟨q, hlookup, hstep⟩ := hstep
    have hle : num ≤ 61 + ctx.table.numHeaders := not_lt.mp fun hbig => by
      rw [Context.lookup_none hbig] at hlookup
      cases hlookup
    rw [Context.state_rows_length] at hstep
    simp only [Context.Silent, hpackHeaderTableSetExists]
    by_cases hdyn : num ≤ ctx.table.numHeaders
    · have hpos := hok.pos
      rw [if_pos hdyn, ctx.getElem?_rows (by omega), ← h.row_index hdyn] at hstep
      cases hstep
      by_cases hex : hpackSetExists ctx.referenceSet (indexSwitchHtHpack ctx.table num) = true <;> simp [Context.row, hex]
    · rw [if_neg hdyn] at hstep
      cases hstep
      rw [(hok.static (not_le.mp hdyn) hle).1]
      simp
  | literal indexing name value =>
    rw [State.step, Option.map_eq_some_iff] at hstep
    obtain ⟨q, -, hstep⟩ := hstep
    cases hstep
    exact iff_of_false (Option.some_ne_none _) id

/-- The field of a step is what the instruction gives. -/
theorem Context.Returns.gives_eq {s : State} {p : Option Pair} (h : ctx.Returns i f) (hinv : ctx.Inv es)
    (hok : InstrOk ctx i) (hstep : ctx.state.step staticPairs 4096 i = some (s, p)) (hpair : f.pair = p.getD ([], [])) :
    ctx.gives i = p := by
  have hsilent := hinv.step_silent hok hstep
  cases p with
  | none => exact (h.silent (hsilent.mp rfl)).1
  | some q => rw [h.emits fun hs => Option.some_ne_none q (hsilent.mpr hs), hpair, Option.getD_some]

/-- What the calls at the end return is the final emission. -/
theorem FinalEmission.eq_of_decodeLoop {fuel : ℕ} {fs : List HeaderField} (h : FinalEmission ctx final)
    (hr : decodeLoop T buf fuel ctx field buf.len = .ok (.eof, ctx', fs)) : fs.map HeaderField.pair = final := by
  induction fuel generalizing ctx field fs final with
  | zero => cases hr
  | succ fuel ih =>
    rw [decodeLoop, parserField_end rfl, finalReferenceSetProcess] at hr
    rw [FinalEmission] at h
    by_cases hfin : ctx.finished = true
    · rw [if_pos hfin] at hr h
      cases hr
      exact h.symm
    rw [if_neg hfin] at hr h
    cases h with
    | nil hnext =>
      rcases hiter : hpackHeaderTableIterNext ctx.table ctx.refNotEmitted ctx.iterNotEmitted with ⟨_ | idx, iter⟩
      · rw [hiter] at hr
        cases hr
        rfl
      · rw [hiter] at hnext
        cases hnext
    | @cons s iter iter' idx p ps hnext hget hrest =>
      rw [hnext] at hr
      obtain ⟨⟨ret1, ctx1, f1, con1⟩, hcall, hr⟩ := bind_eq_ok hr
      obtain ⟨⟨ret2, ctx2, f2⟩, hfinal, hcall⟩ := bind_eq_ok hcall
      obtain ⟨⟨ret3, f3, isStatic⟩, hget', hfinal⟩ := bind_eq_ok hfinal
      cases hfinal
      cases hcall
      dsimp only at hr
      rw [if_neg (not_not.mpr rfl)] at hr
      obtain ⟨⟨ret4, ctx4, fs4⟩, hloop, hr⟩ := bind_eq_ok hr
      rw [if_pos rfl] at hr
      cases hr
      rw [returnedPair_get (clean_pair field) hget'] at hget
      cases hget
      rw [List.map_cons, ih (by rw [FinalEmission, if_neg hfin]; exact hrest) hloop]

/-- **What a block emits is what the decoder gives**, where the source gets through each of its instructions. -/
theorem BlockEmits.steps (h : BlockEmits T buf ctx field n is ps final) (hinv : ctx.Inv es) (h31 : buf.len ≤ 2 ^ 31)
    (hn : n ≤ buf.len) (hiter : ctx.iterNotEmitted = hpackSetIterInit)
    (hfin : ctx.finished = true → ctx.refNotEmitted = ctx.referenceSet) (hfollows : Follows T buf is ctx field n) :
    ∃ s, ctx.state.steps staticPairs 4096 is = some (s, ps) ∧ final.Perm s.left := by
  induction h generalizing es with
  | @final ctx field final hfinal =>
    obtain ⟨-, hok⟩ := hfollows
    obtain ⟨ctx', fs, slots, hloop, -, hnodup, hmem, hpairs⟩ : ∃ ctx' fs, ∃ slots : List ℕ,
        decodeLoop T buf (0 + 1 + 129) ctx field buf.len = .ok (.eof, ctx', fs) ∧ _ :=
      decodeLoop_emits_end T hinv hiter hfin hok field
    refine ⟨ctx.state, rfl, ?_⟩
    rw [← hfinal.eq_of_decodeLoop hloop, hpairs]
    exact hinv.left_perm hnodup hmem
  | @instr ctx ctx' field f n con i is ps final hlt hreads hcall _ ih =>
    obtain ⟨con', hspells, hok, hrest⟩ := hfollows
    obtain ⟨-, rfl⟩ := (Reads.of_spells hspells hok.legible).unique hreads
    obtain ⟨hpos, hin⟩ := hspells.bounds
    have hsim := simulates hinv (show n < 2 ^ 31 by omega) hspells hok field
    cases hstep : ctx.state.step staticPairs 4096 i with
    | none =>
      rw [hstep] at hsim
      obtain ⟨ret, ctx2, f2, hcall2, hret, -⟩ := hsim
      rw [hcall] at hcall2
      cases hcall2
      exact absurd rfl hret
    | some q =>
      obtain ⟨s, p⟩ := q
      rw [hstep] at hsim
      obtain ⟨ctx2, f2, hcall2, ⟨es2, hinv2⟩, rfl, hpair, hiter2, hfin2⟩ := hsim
      rw [hcall] at hcall2
      cases hcall2
      obtain ⟨s', hsteps, hperm⟩ := ih hinv2 hin (hiter2.trans hiter)
        (fun hf => absurd (hfin2.symm.trans hf) Bool.false_ne_true) (hrest _ _ hcall)
      obtain ⟨j, hreads2, hreturns⟩ := parserField_reads hlt hcall
      obtain ⟨rfl, -⟩ := hreads2.unique hreads
      refine ⟨s', ?_, hperm⟩
      rw [State.steps_cons hstep, hsteps, Option.map_some, hreturns.gives_eq hinv hok hstep hpair]

/-! ### What hpack_header_parser_all stores -/

section Samples

end Samples

end LibHpack
