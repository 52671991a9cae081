import LibHpack.HeaderParser.Representations

/-!
# LibHpack.HeaderParser.Table — the header table under the parser

A call of `hpack_header_parser_field` makes at most one operation of the header table, and `callTableOp` says which.
`TableEffect` is all that a call does to the table: this operation or nothing, and nothing else when it fails.  So the
table of a decoding context goes through a run of the operations of `HeaderTable.Runs`, and what is known about these
holds for the parser too.
-/

namespace LibHpack

open LibHpack.Run

/-! ### The operation of a call -/

/-- The size update of a context update. -/
def updateOp (buf : Block) (offset : ℕ) : Option TableOp :=
  if buf.get offset = 0x30 then none
  else
    match hpackIntegerDecode 4 (buf.mem offset) (buf.rest offset) 0 with
    | (.ok, num, _) => some (.setMax num)
    | _ => none

/-- The insertion of a static entry. -/
def indexedOp (ctx : Context) (buf : Block) (offset : ℕ) (field : HeaderField) : Option TableOp :=
  match hpackIntegerDecode 7 (buf.mem offset) (buf.rest offset) 0 with
  | (.ok, num, _) =>
    if 61 + ctx.table.numHeaders < num then none
    else if hpackHeaderTableSetExists ctx.table ctx.referenceSet num then none
    else
      match hpackHeaderTableGet ctx.table num false { field with flags := { field.flags with rep := .repIndexed } } with
      | .ok (.ok, f, true) => some (.add f)
      | _ => none
  | _ => none

variable (T : HuffmanTables)

/-- The insertion of a literal field. -/
def literalOp (ctx : Context) (buf : Block) (offset : ℕ) (field : HeaderField) : Option TableOp :=
  if buf.get offset &&& 0xC0 = 0x40 then
    match parseHeaderPair T buf offset ctx.table field with
    | .ok (.ok, f, _) => some (.add { f with flags := { f.flags with rep := .repIncIndexed } })
    | _ => none
  else none

/-- The operation of the header table that a call makes, if it makes one. -/
def callTableOp (ctx : Context) (buf : Block) (offset : ℕ) (field : HeaderField) : Option TableOp :=
  if offset = buf.len then none
  else if buf.get offset &&& 0xE0 = 0x20 then updateOp buf offset
  else if buf.get offset &&& 0x80 ≠ 0 then indexedOp ctx buf offset (hpackHeaderFieldClean field)
  else literalOp T ctx buf offset (hpackHeaderFieldClean field)

/-- **What a call does to the header table.** -/
inductive TableEffect (ctx ctx' : Context) (ret : Ret) (con : ℕ) : Option TableOp → Prop
  | none (htable : ctx'.table = ctx.table) (herr : ret ≠ .ok → ret ≠ .eof → con = 0 ∧ ctx.Same ctx') :
      TableEffect ctx ctx' ret con none
  | setMax {max : ℕ} {r : Ret} {s : HpackSet} (hcall : hpackHeaderTableSetMax ctx.table max = .ok (r, ctx'.table, s))
      (hret : ret = .ok ↔ r = .ok) (herr : r ≠ .ok → con = 0 ∧ ctx'.referenceSet = ctx.referenceSet ∧
        ctx'.refNotEmitted = ctx.refNotEmitted) : TableEffect ctx ctx' ret con (some (.setMax max))
  | add {f : HeaderField} {r : Ret} {s : HpackSet} (hcall : hpackHeaderTableAdd ctx.table f = .ok (r, ctx'.table, s))
      (hret : ret = .ok ↔ r = .ok) : TableEffect ctx ctx' ret con (some (.add f))

section Effects

variable {T} {ctx ctx' : Context} {buf : Block} {offset con : ℕ} {field field' : HeaderField} {ret : Ret}

/-- It is about the table and the sets only. -/
theorem TableEffect.unfinished {op : Option TableOp}
    (h : TableEffect ({ ctx with finished := false } : Context) ctx' ret con op) : TableEffect ctx ctx' ret con op := by
  cases h with
  | none htable herr => exact .none htable herr
  | setMax hcall hret herr => exact .setMax hcall hret herr
  | add hcall hret => exact .add hcall hret

/-- What inserting a field does to the table, and that it leaves the iterator. -/
theorem addField_effect {added : Bool} (hr : addFieldProcessEvictions ctx field = .ok (ret, ctx', added)) :
    ∃ s, hpackHeaderTableAdd ctx.table field = .ok (ret, ctx'.table, s) ∧ ctx'.iterNotEmitted = ctx.iterNotEmitted := by
  unfold addFieldProcessEvictions at hr
  obtain ⟨⟨r, t', s⟩, hadd, hr⟩ := bind_eq_ok hr
  dsimp only at hr
  split_ifs at hr with hret
  · cases hr
    exact ⟨s, hadd, rfl⟩
  · cases hr
    rw [not_not.mp hret] at hadd
    exact ⟨s, hadd, rfl⟩

theorem parseContextUpdate_effect (hr : parseContextUpdate buf offset ctx = .ok (ret, ctx', con)) :
    TableEffect ctx ctx' ret con (updateOp buf offset) := by
  unfold updateOp
  cases parseContextUpdate_cases hr with
  | emptied h30 =>
    rw [if_pos h30]
    exact .none rfl fun h => absurd rfl h
  | @undecoded r _ _ h30 hdec hret =>
    rw [if_neg h30, hdec]
    cases r
    case ok => exact absurd rfl hret
    all_goals exact .none rfl fun _ _ => ⟨rfl, rfl, rfl, rfl⟩
  | refused h30 hdec hset hret =>
    rw [if_neg h30, hdec]
    exact .setMax hset ⟨fun h => absurd h (by decide), fun h => absurd h hret⟩ fun _ => ⟨rfl, rfl, rfl⟩
  | resized h30 hdec hset =>
    rw [if_neg h30, hdec]
    exact .setMax hset Iff.rfl fun h => absurd rfl h

/-- The operation that an index asks for. -/
theorem IndexedField.op {num : ℕ} {f : HeaderField} {isStatic : Bool}
    (hfield : IndexedField buf offset ctx field num con .ok f isStatic) :
    indexedOp ctx buf offset field = if isStatic then some (.add f) else none := by
  rw [indexedOp, hfield.dec]
  dsimp only
  rw [if_neg (not_lt.mpr hfield.le), if_neg hfield.fresh, hfield.get]
  cases isStatic <;> rfl

theorem parseIndexed_effect (hr : parseIndexed buf offset ctx field = .ok (ret, ctx', field', con)) :
    TableEffect ctx ctx' ret con (indexedOp ctx buf offset field) := by
  cases parseIndexed_cases hr with
  | @undecoded r _ _ hdec hret =>
    rw [indexedOp, hdec]
    cases r
    case ok => exact absurd rfl hret
    all_goals exact .none rfl fun _ _ => ⟨rfl, rfl, rfl, rfl⟩
  | beyond hdec hbig =>
    rw [indexedOp, hdec]
    dsimp only
    rw [if_pos hbig]
    exact .none rfl fun _ _ => ⟨rfl, rfl, rfl, rfl⟩
  | removed hdec hle hex =>
    rw [indexedOp, hdec]
    dsimp only
    rw [if_neg (not_lt.mpr hle), if_pos hex]
    exact .none rfl fun h => absurd rfl h
  | unread hfield hret =>
    rw [indexedOp, hfield.dec]
    dsimp only
    rw [if_neg (not_lt.mpr hfield.le), if_neg hfield.fresh, hfield.get]
    cases ret
    case ok => exact absurd rfl hret
    all_goals exact .none rfl fun _ _ => ⟨rfl, rfl, rfl, rfl⟩
  | referenced hfield =>
    rw [hfield.op]
    exact .none rfl fun h => absurd rfl h
  | unadded hfield hadd hret =>
    obtain ⟨s, hadd, -⟩ := addField_effect hadd
    rw [hfield.op]
    exact .add hadd Iff.rfl
  | inserted hfield hadd =>
    obtain ⟨s, hadd, -⟩ := addField_effect hadd
    rw [hfield.op]
    exact .add hadd Iff.rfl

/-- A pair that is not parsed consumes nothing. -/
theorem parseHeaderPair_error {table : HeaderTable} (hr : parseHeaderPair T buf offset table field = .ok (ret, field', con))
    (hret : ret ≠ .ok) : con = 0 := by
  cases parseHeaderPair_cases hr with
  | unnamed _ _ => rfl
  | unvalued _ _ _ => rfl
  | parsed _ _ => exact absurd rfl hret

/-- The operation that a literal asks for. -/
theorem literalOp_eq {f : HeaderField} {r : Ret} (hpair : parseHeaderPair T buf offset ctx.table field = .ok (r, f, con)) :
    literalOp T ctx buf offset field = if buf.get offset &&& 0xC0 = 0x40 ∧ r = .ok then
      some (.add { f with flags := { f.flags with rep := .repIncIndexed } }) else none := by
  rw [literalOp, hpair]
  by_cases hform : buf.get offset &&& 0xC0 = 0x40
  · cases r <;> simp [hform]
  · simp [hform]

theorem LiteralCall.effect (hcall : LiteralCall T buf offset ctx field ret ctx' field' con) :
    TableEffect ctx ctx' ret con (literalOp T ctx buf offset (hpackHeaderFieldClean field)) := by
  cases hcall with
  | refused hpair hret =>
    rw [literalOp_eq hpair, if_neg fun h => hret h.2]
    exact .none rfl fun _ _ => ⟨parseHeaderPair_error hpair hret, rfl, rfl, rfl⟩
  | returned hpair hform _ =>
    rw [literalOp_eq hpair, if_neg fun h => hform h.1]
    exact .none rfl fun h => absurd rfl h
  | unadded hpair hform hadd hret =>
    obtain ⟨s, hadd, -⟩ := addField_effect hadd
    rw [literalOp_eq hpair, if_pos (And.intro hform rfl)]
    exact .add hadd Iff.rfl
  | inserted hpair hform hadd =>
    obtain ⟨s, hadd, -⟩ := addField_effect hadd
    rw [literalOp_eq hpair, if_pos (And.intro hform rfl)]
    split_ifs
    · exact .add hadd Iff.rfl
    · exact .add hadd Iff.rfl

/-- **The effect of a call.** -/
theorem parserField_effect (hr : hpackHeaderParserField T ctx buf offset field = .ok (ret, ctx', field', con)) :
    TableEffect ctx ctx' ret con (callTableOp T ctx buf offset field) := by
  unfold callTableOp
  by_cases hoff : offset = buf.len
  · rw [parserField_end hoff] at hr
    rw [if_pos hoff]
    obtain ⟨⟨r1, ctx1, f1⟩, hfinal, hr⟩ := bind_eq_ok hr
    cases hr
    unfold finalReferenceSetProcess at hfinal
    split_ifs at hfinal with hfin
    · cases hfinal
      exact .none rfl fun _ h => absurd rfl h
    · rcases hnext : hpackHeaderTableIterNext ctx.table ctx.refNotEmitted ctx.iterNotEmitted with ⟨_ | idx, iter⟩ <;>
        rw [hnext] at hfinal
      · cases hfinal
        exact .none rfl fun _ h => absurd rfl h
      · obtain ⟨⟨r2, f2, isStatic⟩, -, hfinal⟩ := bind_eq_ok hfinal
        cases hfinal
        exact .none rfl fun h => absurd rfl h
  rw [if_neg hoff]
  by_cases hup : buf.get offset &&& 0xE0 = 0x20
  · rw [parserField_update hoff hup] at hr
    rw [if_pos hup]
    obtain ⟨⟨r1, ctx1, con1⟩, hupdate, hr⟩ := bind_eq_ok hr
    cases hr
    exact (parseContextUpdate_effect hupdate).unfinished
  rw [if_neg hup]
  by_cases hidx : buf.get offset &&& 0x80 ≠ 0
  · rw [parserField_indexed hoff hup hidx] at hr
    rw [if_pos hidx]
    exact (parseIndexed_effect hr).unfinished
  · rw [if_neg hidx]
    exact (parserField_literal_cases hoff hup hidx hr).effect

end Effects

/-! ### Runs -/

/-- The operation of a call of a run. -/
def ParserCall.tableOp (ctx : Context) (call : ParserCall) : Option TableOp :=
  call.buf.bind fun buf => callTableOp T ctx buf call.offset call.field

/-- It meets the condition of `HeaderTable.Runs`. -/
def TableCallOk (ctx : Context) (call : ParserCall) : Prop := ∀ op ∈ call.tableOp T ctx, TableOpOk ctx.table op

instance (ctx : Context) (call : ParserCall) : Decidable (TableCallOk T ctx call) := by
  unfold TableCallOk; infer_instance

section Runs

variable {T} {ctx ctx' : Context} {ret : Ret} {con : ℕ} {op : TableOp}

theorem ParserCall.effect {call : ParserCall} {f : HeaderField}
    (hr : hpackHeaderParserField T ctx call.buf call.offset call.field = .ok (ret, ctx', f, con)) :
    TableEffect ctx ctx' ret con (call.tableOp T ctx) := by
  obtain ⟨buf, hbuf⟩ := exists_of_parserField hr
  rw [hbuf] at hr
  rw [ParserCall.tableOp, hbuf]
  exact parserField_effect hr

/-- An operation that a call makes is a step of the table. -/
theorem TableEffect.step (he : TableEffect ctx ctx' ret con (some op)) : tableStep ctx.table op = .ok ctx'.table := by
  cases he with
  | setMax hcall _ _ => simp only [tableStep, hcall, ok_bind]; rfl
  | add hcall _ => simp only [tableStep, hcall, ok_bind]; rfl

/-- **The table of a run of calls** is the table of a run of its operations. -/
theorem parserRun_table {calls : List ParserCall} (hrun : run (parserStep T) ctx calls = .ok ctx') :
    ∃ ops, run tableStep ctx.table ops = .ok ctx'.table ∧
      (Meets (parserStep T) (TableCallOk T) ctx calls → Meets tableStep TableOpOk ctx.table ops) := by
  induction calls generalizing ctx with
  | nil =>
    cases hrun
    exact ⟨[], rfl, fun _ => trivial⟩
  | cons call calls ih =>
    obtain ⟨ctx1, hstep, hrest⟩ := run_cons_ok hrun
    obtain ⟨ops, hops, hmeets⟩ := ih hrest
    obtain ⟨⟨ret, ctx2, f, con⟩, hcall, heq⟩ := bind_eq_ok hstep
    cases heq
    have he := call.effect hcall
    cases hop : call.tableOp T ctx with
    | none =>
      rw [hop] at he
      cases he with
      | none htable _ =>
        rw [htable] at hops hmeets
        exact ⟨ops, hops, fun h => hmeets (h.2 ctx1 hstep)⟩
    | some op =>
      rw [hop] at he
      have hop' := he.step
      refine ⟨op :: ops, by rw [run_cons hop']; exact hops, fun h => ⟨h.1 op hop, fun t' ht' => ?_⟩⟩
      cases hop'.symm.trans ht'
      exact hmeets (h.2 ctx1 hstep)

/-- The table of a decoding context holds something. -/
theorem parserRun_holds {t0 : HeaderTable} {calls : List ParserCall}
    (hok : Meets (parserStep T) (TableCallOk T) (hpackHeaderParserInit t0) calls)
    (hrun : parserRun T t0 calls = .ok ctx) : ∃ es, Holds ctx.table es := by
  obtain ⟨ops, hops, hmeets⟩ := parserRun_table hrun
  have hops' : TableRunOk t0 ops := hmeets hok
  obtain ⟨t, ht, h⟩ := tableRun_holds hops'
  cases hops.symm.trans ht
  exact h

/-- A size update returns, and one that is refused leaves the table as it is. -/
theorem Holds.setMax_returns {t : HeaderTable} {es : List Entry} {max : ℕ} (h : Holds t es) (hok : SetMaxOk t max) :
    ∃ r, hpackHeaderTableSetMax t max = .ok r ∧ (r.1 ≠ .ok → r.2.1 = t) := by
  by_cases hlt : 4096 < max % 2 ^ 16
  · exact ⟨_, hpackHeaderTableSetMax_large hlt, fun _ => rfl⟩
  by_cases h0 : max % 2 ^ 16 = 0
  · exact ⟨_, hpackHeaderTableSetMax_zero h0, fun hr => absurd rfl hr⟩
  · obtain ⟨d, s, -, heq, -⟩ := h.setMax_eq hok (not_lt.mp hlt) h0
    exact ⟨_, heq, fun hr => absurd rfl hr⟩

/-- A call that fails changes nothing, when its operation meets the condition. -/
theorem TableEffect.atomic {es : List Entry} {o : Option TableOp} (h : Holds ctx.table es)
    (he : TableEffect ctx ctx' ret con o) (hok : ∀ op ∈ o, TableOpOk ctx.table op) (hret : ret ≠ .ok)
    (heof : ret ≠ .eof) : con = 0 ∧ ctx.Same ctx' := by
  cases he with
  | none _ herr => exact herr hret heof
  | setMax hcall hret' herr =>
    have hr := mt hret'.mpr hret
    obtain ⟨hcon, hrefs, hpending⟩ := herr hr
    exact ⟨hcon, of_returns (h.setMax_returns (hok _ rfl)) hcall hr, hrefs, hpending⟩
  | add hcall hret' =>
    have hadd := of_returns (h.add_returns (hok _ rfl)) hcall
    exact absurd (hret'.mpr hadd) hret

end Runs

/-! ### Errors -/

/-- **A call that fails consumes nothing and changes neither the table nor the reference sets.** -/
theorem parser_error_atomic (t0 : HeaderTable) (calls : List ParserCall) (call : ParserCall)
    (hok : Meets (parserStep T) (TableCallOk T) (hpackHeaderParserInit t0) (calls ++ [call])) (ctx : Context)
    (hrun : parserRun T t0 calls = .ok ctx) (ret : Ret) (ctx' : Context) (f : HeaderField) (con : ℕ)
    (hcall : hpackHeaderParserField T ctx call.buf call.offset call.field = .ok (ret, ctx', f, con))
    (hret : ret ≠ .ok) (heof : ret ≠ .eof) : con = 0 ∧ ctx.Same ctx' := by
  obtain ⟨hcalls, hlast⟩ := meets_concat.mp hok
  obtain ⟨es, h⟩ := parserRun_holds hcalls hrun
  exact (call.effect hcall).atomic h (hlast ctx hrun) hret heof

section Samples

/-- A literal with the static name `:authority` and a value that is cut off. -/
def cutBlock : Block := ⟨[0x82, 0x41, 0x05, 118], 0, by decide⟩

/-- A literal with an empty name and the value `v`. -/
def namelessBlock : Block := ⟨[0x40, 0x00, 0x01, 118], 0, by decide⟩

end Samples

theorem parser_error_atomic_cut :
    ∃ ctx r, parserRun noTables zeroTable [⟨cutBlock, 0, by decide, hpackHeaderFieldInit⟩] = .ok ctx ∧
      hpackHeaderParserField noTables ctx cutBlock 1 hpackHeaderFieldInit = .ok r ∧ r.1 = .eagain ∧
      r.2.2.2 = 0 ∧ ctx.Same r.2.1 := by
  obtain ⟨ctx, hrun, ⟨ret, ctx', f, con⟩, hcall, hret⟩ : ∃ ctx,
      parserRun noTables zeroTable [⟨cutBlock, 0, by decide, hpackHeaderFieldInit⟩] = .ok ctx ∧
      ∃ r, hpackHeaderParserField noTables ctx cutBlock 1 hpackHeaderFieldInit = .ok r ∧ r.1 = .eagain := by
    decide
  dsimp only at hret
  obtain ⟨hcon, hsame⟩ := parser_error_atomic noTables zeroTable [⟨cutBlock, 0, by decide, hpackHeaderFieldInit⟩]
    ⟨cutBlock, 1, by decide, hpackHeaderFieldInit⟩ (by decide) ctx hrun ret ctx' f con hcall
    (by rw [hret]; decide) (by rw [hret]; decide)
  exact ⟨ctx, _, hrun, hcall, hret, hcon, hsame⟩

/-- The name is a null pointer, so the add fails after it moved the tails. -/
theorem parser_error_atomic_moved :
    ∃ r, hpackHeaderParserField noTables (hpackHeaderParserInit zeroTable) namelessBlock 0 hpackHeaderFieldInit = .ok r ∧
      r.1 = .error ∧ r.2.2.2 = 4 ∧ (hpackHeaderParserInit zeroTable).table.headersOffsets.tail = 0 ∧
      r.2.1.table.headersOffsets.tail = 1 := by
  decide

end LibHpack
