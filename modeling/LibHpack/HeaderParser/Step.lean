import LibHpack.HeaderParser.Context

/-!
# LibHpack.HeaderParser.Step — what one call does to the reference sets

A call of `hpack_header_parser_field` handles a context update, an indexed field, a literal field, or the reference set
when the block is over.  `CallOk` is the condition under which a call does not reach a defect of the reference sets;
under it every call keeps `Context.Inv`, whatever it returns, and `Context.Step` says which references are still to be
emitted after it.
-/

namespace LibHpack

open LibHpack.Run LibHpack.Fifo

/-! ### Conditions on a call -/

/-- A size update: its evictions are in place, and one to zero finds no references. -/
def ContextUpdateOk (ctx : Context) (buf : Block) (offset : ℕ) : Prop :=
  buf.get offset ≠ 0x30 → ∀ num con, hpackIntegerDecode 4 (buf.mem offset) (buf.rest offset) 0 = (.ok, num, con) →
    SetMaxOk ctx.table num ∧ (num % 2 ^ 16 = 0 → hpackSetIsEmpty ctx.referenceSet = true)

/-- The static entry with HPACK index `num`. -/
def Context.static (ctx : Context) (num : ℕ) : Entry := (staticEntry (num - (ctx.table.numHeaders + 1))).entry

/-- A static entry fits, and the evictions that make room for it are in place. -/
def StaticFits (ctx : Context) (num : ℕ) : Prop :=
  (ctx.static num).size ≤ ctx.table.maxData ∧
    EvictionsInPlace ctx.table (ctx.table.maxData - (ctx.static num).size)

/-- An index that is valid and not in the reference set: it is not zero, and the static entry it may refer to fits. -/
def IndexedOk (ctx : Context) (buf : Block) (offset : ℕ) : Prop :=
  ∀ num con, hpackIntegerDecode 7 (buf.mem offset) (buf.rest offset) 0 = (.ok, num, con) →
    num ≤ 61 + ctx.table.numHeaders → hpackHeaderTableSetExists ctx.table ctx.referenceSet num = false →
    num ≠ 0 ∧ (ctx.table.numHeaders < num → StaticFits ctx num)

variable (T : HuffmanTables)

/-- A literal with incremental indexing: the field it holds can be added. -/
def LiteralOk (ctx : Context) (buf : Block) (offset : ℕ) (field : HeaderField) : Prop :=
  buf.get offset &&& 0xC0 = 0x40 →
    ∀ f con, parseHeaderPair T buf offset ctx.table (hpackHeaderFieldClean field) = .ok (.ok, f, con) →
      AddOk ctx.table f

/-- The condition on a call. -/
def CallOk (ctx : Context) (buf : Block) (offset : ℕ) (field : HeaderField) : Prop :=
  offset ≠ buf.len →
    if buf.get offset &&& 0xE0 = 0x20 then ContextUpdateOk ctx buf offset
    else if buf.get offset &&& 0x80 ≠ 0 then IndexedOk ctx buf offset
    else LiteralOk T ctx buf offset field

instance (ctx : Context) (num : ℕ) : Decidable (StaticFits ctx num) := by unfold StaticFits; infer_instance

instance (ctx : Context) (buf : Block) (offset : ℕ) : Decidable (ContextUpdateOk ctx buf offset) := by
  unfold ContextUpdateOk; infer_instance

instance (ctx : Context) (buf : Block) (offset : ℕ) : Decidable (IndexedOk ctx buf offset) := by
  unfold IndexedOk; infer_instance

instance (ctx : Context) (buf : Block) (offset : ℕ) (field : HeaderField) :
    Decidable (LiteralOk T ctx buf offset field) := by
  unfold LiteralOk; infer_instance

instance (ctx : Context) (buf : Block) (offset : ℕ) (field : HeaderField) :
    Decidable (CallOk T ctx buf offset field) := by
  unfold CallOk; infer_instance

/-! ### One call -/

/-- What a call in the middle of a block leaves. -/
structure Context.Step (ctx ctx' : Context) : Prop where
  inv : ∃ es, ctx'.Inv es
  iter : ctx'.iterNotEmitted = ctx.iterNotEmitted
  finished : ctx'.finished = ctx.finished
  pending : ∀ i, hpackSetExists ctx'.refNotEmitted i = true ↔ hpackSetExists ctx.refNotEmitted i = true ∧
    hpackSetExists ctx'.referenceSet i = true ∧ Survives ctx.table ctx'.table i

section Steps

variable {ctx ctx' : Context} {es : List Entry} {buf : Block} {offset con : ℕ} {field field' : HeaderField} {ret : Ret}

/-- A call that changes neither the table nor the sets. -/
theorem Context.Inv.step_same (h : ctx.Inv es) (ht : ctx'.table = ctx.table)
    (hr : ctx'.referenceSet = ctx.referenceSet) (hp : ctx'.refNotEmitted = ctx.refNotEmitted)
    (hi : ctx'.iterNotEmitted = ctx.iterNotEmitted) (hf : ctx'.finished = ctx.finished) : ctx.Step ctx' where
  inv := ⟨es, by rw [ht]; exact h.holds, by rw [ht, hr]; exact h.refs, by rw [hp, hr]; exact h.pending⟩
  iter := hi
  finished := hf
  pending i := by
    rw [hp, hr, ht]
    exact ⟨fun hpi => ⟨hpi, h.pending i hpi, h.refs i (h.pending i hpi), rfl⟩, fun hpi => hpi.1⟩

/-- A call that leaves no references. -/
theorem Context.Inv.step_clear {es' : List Entry} (ht : Holds ctx'.table es')
    (hr : ctx'.referenceSet = hpackSetClear) (hp : ctx'.refNotEmitted = hpackSetClear)
    (hi : ctx'.iterNotEmitted = ctx.iterNotEmitted) (hf : ctx'.finished = ctx.finished) : ctx.Step ctx' where
  inv := ⟨es', ht, by simp [hr], by simp [hp]⟩
  iter := hi
  finished := hf
  pending i := by simp [hr, hp]

/-- A set that is empty stays empty without some of its members. -/
theorem comp_empty {s s' : HpackSet} (h : ∀ i, hpackSetExists s i = false) : hpackSetRelativeComp s s' = hpackSetClear :=
  HpackSet.ext fun i _ => by rw [exists_relativeComp, h i, exists_clear, Bool.false_and]

/-- **A context update** returns, with the references of the entries that are left. -/
theorem parseContextUpdate_step (h : ctx.Inv es) (hok : ContextUpdateOk ctx buf offset) :
    ∃ ret ctx' con, parseContextUpdate buf offset ctx = .ok (ret, ctx', con) ∧ ctx.Step ctx' := by
  unfold parseContextUpdate
  by_cases h30 : buf.get offset = 0x30
  · rw [if_pos h30]
    exact ⟨_, _, _, rfl, Context.Inv.step_clear h.holds rfl rfl rfl rfl⟩
  rw [if_neg h30]
  have hmax := hok h30
  rcases hdec : hpackIntegerDecode 4 (buf.mem offset) (buf.rest offset) 0 with ⟨r, num, con⟩
  dsimp only
  by_cases hr : r = .ok
  swap
  · rw [if_pos hr]
    exact ⟨_, _, _, rfl, h.step_same rfl rfl rfl rfl rfl⟩
  rw [if_neg (not_not.mpr hr)]
  obtain ⟨hset, hzero⟩ := hmax num con (hr ▸ hdec)
  by_cases hlt : 4096 < num % 2 ^ 16
  · rw [hpackHeaderTableSetMax_large hlt]
    exact ⟨_, _, _, rfl, h.step_same rfl rfl rfl rfl rfl⟩
  by_cases h0 : num % 2 ^ 16 = 0
  · -- nothing is reported as evicted, but there are no references
    have hrefs := isEmpty_iff.mp (hzero h0)
    have hpending : ∀ i, hpackSetExists ctx.refNotEmitted i = false := fun i => by
      rw [← Bool.not_eq_true]
      exact fun hi => Bool.false_ne_true ((hrefs i).symm.trans (h.pending i hi))
    rw [hpackHeaderTableSetMax_zero h0]
    exact ⟨_, _, _, rfl, Context.Inv.step_clear ((Holds.clear ctx.table).withMax le_rfl (Nat.zero_le _))
      (comp_empty hrefs) (comp_empty hpending) rfl rfl⟩
  · obtain ⟨t', s, heq, hnew, -, hexact⟩ := h.holds.setMax_exact hset (by omega) h0
    rw [heq]
    refine ⟨_, _, _, rfl, ⟨_, hnew, fun i hi => ?_, fun i hi => ?_⟩, rfl, rfl, fun i => ?_⟩
    · exact ((exists_comp_exact hexact (h.refs i)).mp hi).2.1
    · obtain ⟨hi', hs⟩ := (exists_comp_exact hexact fun hp => h.refs i (h.pending i hp)).mp hi
      exact (exists_comp_exact hexact (h.refs i)).mpr ⟨h.pending i hi', hs⟩
    · rw [exists_comp_exact hexact (h.refs i), exists_comp_exact hexact fun hp => h.refs i (h.pending i hp)]
      have := h.pending i
      tauto

/-- **Inserting and referencing a field.** -/
theorem Context.Inv.step_insert (h : ctx.Inv es) (hok : AddOk ctx.table field)
    (hfit : field.entry.size ≤ ctx.table.maxData) :
    ∃ ctx', addFieldProcessEvictions ctx field = .ok (.ok, ctx', true) ∧ ctx.Step ctx'.reference := by
  obtain ⟨ctx', heq, hinv, -, -, hrefs, hpending, hiter, hfin⟩ := h.insert hok hfit
  refine ⟨ctx', heq, ⟨_, hinv⟩, hiter, hfin, fun i => ?_⟩
  rw [hrefs, hpending, show ctx'.reference.table = ctx'.table from rfl]
  have := h.pending i
  tauto

/-- A static entry that fits can be added. -/
theorem addOk_static {num : ℕ} (hlt : ctx.table.numHeaders < num) (hle : num ≤ 61 + ctx.table.numHeaders)
    (hfits : StaticFits ctx num) (f : HeaderField) (hf : f.name.bytes = [] ∧ f.value.bytes = []) :
    (f.append (ctx.static num) false).entry = ctx.static num ∧ AddOk ctx.table (f.append (ctx.static num) false) := by
  obtain ⟨hname, hsize⟩ := staticEntry_small (num - (ctx.table.numHeaders + 1)) (by omega)
  have hentry : (f.append (ctx.static num) false).entry = ctx.static num := by
    simp [HeaderField.append, HeaderField.entry, hf]
  have hsize' : (ctx.static num).size < 100 := hsize
  refine ⟨hentry, ?_, ?_, fun _ => ⟨chulaBufferAdd_isSome _ _ hname, ?_⟩⟩
  · rw [hentry]; exact .inl hname
  · rw [hentry]; omega
  · rw [hentry]; exact hfits.2

/-- Which table the field of an index is from. -/
theorem IndexedField.origin {num : ℕ} {f : HeaderField} {isStatic : Bool} (h : ctx.Inv es)
    (hfield : IndexedField buf offset ctx field num con ret f isStatic) :
    (isStatic = true ∧ ctx.table.numHeaders < num ∧
        f = HeaderField.append { field with flags := { field.flags with rep := .repIndexed } } (ctx.static num) false) ∨
      (isStatic = false ∧ num ≤ ctx.table.numHeaders) := by
  have hget := hfield.get
  have hle := hfield.le
  have hnum := h.holds.num
  have hlen := h.holds.length_le
  have hmod : num % 2 ^ 16 = num := Nat.mod_eq_of_lt (by omega)
  by_cases hlt : ctx.table.numHeaders < num
  · rw [hpackHeaderTableGet_static (by rwa [hmod]) (by rwa [hmod]), hmod] at hget
    cases hget
    exact .inl ⟨rfl, hlt, rfl⟩
  · simp only [hpackHeaderTableGet, hmod, if_neg (not_lt.mpr hle), if_neg hlt] at hget
    obtain ⟨⟨ret1, f1⟩, -, hget⟩ := bind_eq_ok hget
    cases hget
    exact .inr ⟨rfl, not_lt.mp hlt⟩

/-- The add of a static entry. -/
theorem IndexedField.add {num : ℕ} {f : HeaderField} {ctx2 : Context} {added : Bool} {r : Ret} (h : ctx.Inv es)
    (hok : IndexedOk ctx buf offset) (hf : field.name.bytes = [] ∧ field.value.bytes = [])
    (hfield : IndexedField buf offset ctx field num con ret f true)
    (hadd : addFieldProcessEvictions ctx f = .ok (r, ctx2, added)) : r = .ok ∧ ctx.Step ctx2.reference := by
  obtain ⟨-, hlt, rfl⟩ | ⟨hfalse, -⟩ := hfield.origin h
  · have hstatic := (hok num con hfield.dec hfield.le (by simpa using hfield.fresh)).2 hlt
    obtain ⟨hentry, haddok⟩ := addOk_static hlt hfield.le hstatic
      { field with flags := { field.flags with rep := .repIndexed } } hf
    obtain ⟨ctx3, heq, hstep⟩ := h.step_insert haddok (by rw [hentry]; exact hstatic.1)
    rw [heq] at hadd
    cases hadd
    exact ⟨rfl, hstep⟩
  · exact Bool.noConfusion hfalse

/-- **An indexed field.** -/
theorem parseIndexed_step (h : ctx.Inv es) (hok : IndexedOk ctx buf offset)
    (hf : field.name.bytes = [] ∧ field.value.bytes = [])
    (hr : parseIndexed buf offset ctx field = .ok (ret, ctx', field', con)) : ctx.Step ctx' := by
  have hs : ∀ i, ctx.table.Live i → Survives ctx.table ctx.table i := fun i hl => ⟨hl, rfl⟩
  cases parseIndexed_cases hr with
  | undecoded _ _ => exact h.step_same rfl rfl rfl rfl rfl
  | beyond _ _ => exact h.step_same rfl rfl rfl rfl rfl
  | removed _ _ _ =>
    refine ⟨⟨es, h.holds, fun i hi => ?_, fun i hi => ?_⟩, rfl, rfl, fun i => ?_⟩
    · exact h.refs i ((exists_tableSetRemove _ _ _ _).mp hi).2
    · obtain ⟨hne, hi⟩ := (exists_tableSetRemove _ _ _ _).mp hi
      exact (exists_tableSetRemove _ _ _ _).mpr ⟨hne, h.pending i hi⟩
    · simp only [exists_tableSetRemove]
      have hrefs := h.refs i
      have hpending := h.pending i
      have := hs i
      tauto
  | unread _ _ => exact h.step_same rfl rfl rfl rfl rfl
  | @referenced num _ _ hfield =>
    obtain ⟨hstatic, -, -⟩ | ⟨-, hle⟩ := hfield.origin h
    · exact Bool.noConfusion hstatic
    have hzero := (hok _ _ hfield.dec hfield.le (by simpa using hfield.fresh)).1
    have hnum := h.holds.num
    have hlive : ctx.table.Live (indexSwitchHtHpack ctx.table num) := h.holds.live_index (by omega) (by omega)
    refine ⟨⟨es, h.holds, fun i hi => ?_, fun i hi => ?_⟩, rfl, rfl, fun i => ?_⟩
    · rcases (exists_tableSetAdd _ _ _ _).mp hi with rfl | hi
      · exact hlive
      · exact h.refs i hi
    · obtain ⟨-, hi⟩ := (exists_tableSetRemove _ _ _ _).mp hi
      exact (exists_tableSetAdd _ _ _ _).mpr (.inr (h.pending i hi))
    · simp only [exists_tableSetRemove, exists_tableSetAdd]
      have hrefs := h.refs i
      have hpending := h.pending i
      have := hs i
      have hnot : i = indexSwitchHtHpack ctx.table num → ¬ hpackSetExists ctx.referenceSet i = true := by
        rintro rfl
        exact hfield.fresh
      tauto
  | unadded hfield hadd hret => exact absurd (hfield.add h hok hf hadd).1 hret
  | inserted hfield hadd => exact (hfield.add h hok hf hadd).2

/-- The add of a literal. -/
theorem literal_add {f : HeaderField} (h : ctx.Inv es) (hok : LiteralOk T ctx buf offset field)
    (hform : buf.get offset &&& 0xC0 = 0x40)
    (hpair : parseHeaderPair T buf offset ctx.table (hpackHeaderFieldClean field) = .ok (.ok, f, con)) :
    ∃ ctx2 added, addFieldProcessEvictions { ctx with finished := false }
        { f with flags := { f.flags with rep := .repIncIndexed } } = .ok (.ok, ctx2, added) ∧
      Context.Step { ctx with finished := false } (if added then ctx2.reference else ctx2) := by
  have hf := hok hform f con hpair
  have hf' : AddOk ctx.table { f with flags := { f.flags with rep := .repIncIndexed } } :=
    ⟨hf.contents, hf.no_wrap, hf.fits⟩
  by_cases hlt : ctx.table.maxData < f.entry.size
  · exact ⟨_, false, addField_oversize (by rw [hf'.getSize_eq]; exact hlt),
      Context.Inv.step_clear (Holds.clear ctx.table) rfl rfl rfl rfl⟩
  · obtain ⟨ctx2, heq, hstep⟩ := h.unfinished.step_insert hf' (not_lt.mp hlt)
    exact ⟨ctx2, true, heq, hstep⟩

/-- **A literal field**, after its name and value are parsed. -/
theorem parserField_literal_step (h : ctx.Inv es) (hoff : offset ≠ buf.len) (hup : ¬ buf.get offset &&& 0xE0 = 0x20)
    (hidx : ¬ buf.get offset &&& 0x80 ≠ 0) (hok : LiteralOk T ctx buf offset field)
    (hr : hpackHeaderParserField T ctx buf offset field = .ok (ret, ctx', field', con)) :
    Context.Step { ctx with finished := false } ctx' := by
  have hsame := h.unfinished
  cases parserField_literal_cases hoff hup hidx hr with
  | refused _ _ => exact hsame.step_same rfl rfl rfl rfl rfl
  | returned _ _ _ => exact hsame.step_same rfl rfl rfl rfl rfl
  | unadded hpair hform hadd hret =>
    obtain ⟨ctx2, added, heq, -⟩ := literal_add T h hok hform hpair
    cases heq.symm.trans hadd
    exact absurd rfl hret
  | inserted hpair hform hadd =>
    obtain ⟨ctx2, added, heq, hstep⟩ := literal_add T h hok hform hpair
    cases heq.symm.trans hadd
    exact hstep

/-- **Every call in the middle of a block.** -/
theorem parserField_step (h : ctx.Inv es) (hoff : offset ≠ buf.len) (hok : CallOk T ctx buf offset field)
    (hr : hpackHeaderParserField T ctx buf offset field = .ok (ret, ctx', field', con)) :
    Context.Step { ctx with finished := false } ctx' := by
  have hok := hok hoff
  have hsame := h.unfinished
  by_cases hup : buf.get offset &&& 0xE0 = 0x20
  · rw [if_pos hup] at hok
    rw [parserField_update hoff hup] at hr
    obtain ⟨ret1, ctx1, con1, heq, hstep⟩ := parseContextUpdate_step hsame hok
    rw [heq] at hr
    cases hr
    exact hstep
  rw [if_neg hup] at hok
  by_cases hidx : buf.get offset &&& 0x80 ≠ 0
  · rw [if_pos hidx] at hok
    rw [parserField_indexed hoff hup hidx] at hr
    exact parseIndexed_step hsame hok ⟨chulaBufferClean_bytes _, chulaBufferClean_bytes _⟩ hr
  · rw [if_neg hidx] at hok
    exact parserField_literal_step T h hoff hup hidx hok hr

/-- The calls at the end of a block keep the invariant too. -/
theorem finalReferenceSetProcess_inv (h : ctx.Inv es)
    (hr : finalReferenceSetProcess ctx field = .ok (ret, ctx', field')) : ctx'.Inv es := by
  unfold finalReferenceSetProcess at hr
  split_ifs at hr with hfin
  · cases hr
    exact h
  · rcases hnext : hpackHeaderTableIterNext ctx.table ctx.refNotEmitted ctx.iterNotEmitted with ⟨_ | idx, iter⟩ <;>
      rw [hnext] at hr
    · cases hr
      exact ⟨h.holds, h.refs, fun i hi => hi⟩
    · obtain ⟨⟨ret1, f1, isStatic⟩, -, hr⟩ := bind_eq_ok hr
      cases hr
      exact ⟨h.holds, h.refs, fun i hi => h.pending i ((exists_tableSetRemove _ _ _ _).mp hi).2⟩

end Steps

/-! ### Runs of calls -/

/-- The arguments of a call. -/
structure ParserCall where
  buf : Option Block
  offset : ℕ
  offset_le : offset ≤ blockLen buf
  field : HeaderField

/-- One call, whatever it returns. -/
def parserStep (ctx : Context) (call : ParserCall) : C Context := do
  let (_, ctx', _, _) ← hpackHeaderParserField T ctx call.buf call.offset call.field
  return ctx'

/-- The calls of a run from `hpack_header_parser_init` meet their conditions. -/
def ParserRunOk (t0 : HeaderTable) (calls : List ParserCall) : Prop :=
  Meets (parserStep T) (fun ctx call => ∀ buf ∈ call.buf, CallOk T ctx buf call.offset call.field)
    (hpackHeaderParserInit t0) calls

instance (t0 : HeaderTable) (calls : List ParserCall) : Decidable (ParserRunOk T t0 calls) := by
  unfold ParserRunOk; infer_instance

def parserRun (t0 : HeaderTable) (calls : List ParserCall) : C Context :=
  run (parserStep T) (hpackHeaderParserInit t0) calls

theorem parserStep_inv {ctx ctx' : Context} {es : List Entry} {call : ParserCall} (h : ctx.Inv es)
    (hok : ∀ buf ∈ call.buf, CallOk T ctx buf call.offset call.field) (hr : parserStep T ctx call = .ok ctx') :
    ∃ es', ctx'.Inv es' := by
  obtain ⟨⟨ret, ctx1, f, con⟩, hcall, hr⟩ := bind_eq_ok hr
  cases hr
  obtain ⟨buf, hbuf⟩ := exists_of_parserField hcall
  rw [hbuf] at hcall
  have hok := hok buf hbuf
  by_cases hoff : call.offset = buf.len
  · rw [parserField_end hoff] at hcall
    obtain ⟨⟨ret1, ctx2, f1⟩, hfinal, hcall⟩ := bind_eq_ok hcall
    cases hcall
    exact ⟨es, finalReferenceSetProcess_inv h hfinal⟩
  · exact (parserField_step T h hoff hok hcall).inv

theorem parserRun_inv {t0 : HeaderTable} {calls : List ParserCall} {ctx : Context} (hok : ParserRunOk T t0 calls)
    (hrun : parserRun T t0 calls = .ok ctx) : ∃ es, ctx.Inv es :=
  run_invariant (I := fun ctx => ∃ es, ctx.Inv es) (fun _ _ _ ⟨_, h⟩ hcall hstep => parserStep_inv T h hcall hstep)
    calls _ ctx ⟨[], Context.Inv.init t0⟩ hok hrun

/-- **The reference sets hold slots of live entries, and what is not emitted yet is a reference**, after every run. -/
theorem references_live (t0 : HeaderTable) (calls : List ParserCall) (ctx : Context) (hok : ParserRunOk T t0 calls)
    (hrun : parserRun T t0 calls = .ok ctx) :
    (∀ i, hpackSetExists ctx.referenceSet i = true → ctx.table.Live i) ∧
    (∀ i, hpackSetExists ctx.refNotEmitted i = true → ctx.table.Live i) ∧
    ∀ i, hpackSetExists ctx.refNotEmitted i = true → hpackSetExists ctx.referenceSet i = true := by
  obtain ⟨es, h⟩ := parserRun_inv T hok hrun
  exact ⟨h.refs, fun i hi => h.refs i (h.pending i hi), h.pending⟩

section Samples

/-- Tables for blocks without Huffman strings. -/
def noTables : HuffmanTables := ⟨fun _ => ⟨0, 0⟩, fun _ _ => ⟨-1, 0, 0⟩⟩

/-- The static entry `:method: GET`, twice: the reference is made and removed. -/
def getBlock : Block := ⟨[0x82, 0x81], 0, by decide⟩

/-- A size update to 1, and the static entry `:method: GET`, which does not fit. -/
def smallBlock : Block := ⟨[0x21, 0x82], 0, by decide⟩

end Samples

theorem references_live_twice :
    ∃ ctx, parserRun noTables zeroTable [⟨getBlock, 0, by decide, hpackHeaderFieldInit⟩,
        ⟨getBlock, 1, by decide, hpackHeaderFieldInit⟩, ⟨getBlock, 2, by decide, hpackHeaderFieldInit⟩] = .ok ctx ∧
      (∀ i, hpackSetExists ctx.referenceSet i = true → ctx.table.Live i) ∧
      (∀ i, hpackSetExists ctx.refNotEmitted i = true → ctx.table.Live i) ∧
      ∀ i, hpackSetExists ctx.refNotEmitted i = true → hpackSetExists ctx.referenceSet i = true := by
  obtain ⟨ctx, hrun, -⟩ : ∃ ctx, parserRun noTables zeroTable [⟨getBlock, 0, by decide, hpackHeaderFieldInit⟩,
      ⟨getBlock, 1, by decide, hpackHeaderFieldInit⟩, ⟨getBlock, 2, by decide, hpackHeaderFieldInit⟩] = .ok ctx ∧
      True := by decide
  exact ⟨ctx, hrun, references_live noTables zeroTable _ ctx (by decide) hrun⟩

/-- The entry is not inserted, but slot 127 is referenced. -/
theorem references_live_stale :
    ∃ ctx, parserRun noTables zeroTable [⟨smallBlock, 0, by decide, hpackHeaderFieldInit⟩,
        ⟨smallBlock, 1, by decide, hpackHeaderFieldInit⟩] = .ok ctx ∧
      hpackSetExists ctx.referenceSet 127 = true ∧ ¬ ctx.table.Live 127 := by
  decide

end LibHpack
