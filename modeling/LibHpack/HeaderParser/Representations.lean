import LibHpack.HeaderParser.Step
import LibHpack.HeaderParser.Strings

/-!
# LibHpack.HeaderParser.Representations — one representation in a reachable context

What one call makes of an indexed field, a size update and a literal field, for every context that a run of calls
reaches and every complete integer that the representation starts with (`IntegerAt`).  The cases of an index are those
of the HPACK index space: the entries of the header table, the static table, and nothing.
-/

namespace LibHpack

open LibHpack.Fifo

/-- The table and the two reference sets are the same. -/
def Context.Same (ctx ctx' : Context) : Prop :=
  ctx'.table = ctx.table ∧ ctx'.referenceSet = ctx.referenceSet ∧ ctx'.refNotEmitted = ctx.refNotEmitted

/-- The entry with HPACK index `k`. -/
def Context.indexed (ctx : Context) (k : ℕ) : Entry :=
  if k ≤ ctx.table.numHeaders then ctx.table.slotEntry (indexSwitchHtHpack ctx.table k) else ctx.static k

section Reached

variable {ctx : Context} {es : List Entry} {buf : Block} {offset num con N : ℕ}

/-- The entry of the header table with index `num`, by its place in the list. -/
theorem Context.Inv.getElem_index (h : ctx.Inv es) (h1 : 1 ≤ num) (hle : num ≤ es.length) :
    ∃ hk : es.length - num < es.length, es[es.length - num] = ctx.table.slotEntry (indexSwitchHtHpack ctx.table num) := by
  refine ⟨by omega, ?_⟩
  rw [h.holds.indexSwitch_index hle]
  exact (h.holds.entry_eq (by omega)).symm

end Reached

/-! ### Indexed fields -/

section Indexed

variable (T : HuffmanTables) {ctx : Context} {es : List Entry} {buf : Block} {offset num con : ℕ}

/-- It is no context update. -/
theorem indexed_octet : ∀ c : UInt8, c &&& 0x80 ≠ 0 → ¬ c &&& 0xE0 = 0x20 := forall_octet (by decide +kernel)

/-- An index beyond the two tables, or one that is not decoded. -/
theorem parseIndexed_refused (field : HeaderField) (h31 : offset < 2 ^ 31) (hbig : 61 + ctx.table.numHeaders < num)
    (hint : IntegerAt 7 (buf.mem offset) num con) :
    parseIndexed buf offset ctx field = .ok (.error, ctx, field, 0) := by
  rw [parseIndexed, if_neg (by omega)]
  rcases decode_or_error hint with hdec | ⟨v, hdec⟩ <;> rw [hdec]
  · simp only [ne_eq, not_true_eq_false, if_false, if_pos hbig]
  · rfl

/-- An index in the reference set. -/
theorem parseIndexed_removed (field : HeaderField) (h31 : offset < 2 ^ 31) (hle : num ≤ 61 + ctx.table.numHeaders)
    (hdec : hpackIntegerDecode 7 (buf.mem offset) (buf.rest offset) 0 = (.ok, num, con))
    (hex : hpackHeaderTableSetExists ctx.table ctx.referenceSet num = true) :
    parseIndexed buf offset ctx field = .ok (.ok,
      { ctx with
        referenceSet := hpackHeaderTableSetRemove ctx.table ctx.referenceSet num
        refNotEmitted := hpackHeaderTableSetRemove ctx.table ctx.refNotEmitted num }, field, con) := by
  rw [parseIndexed, if_neg (by omega), hdec]
  simp only [ne_eq, not_true_eq_false, if_false, if_neg (show ¬ 61 + ctx.table.numHeaders < num by omega), hex, if_true]

/-- An entry of the header table that is not in the reference set. -/
theorem parseIndexed_dynamic (h : ctx.Inv es) (field : HeaderField) (h31 : offset < 2 ^ 31) (h1 : 1 ≤ num)
    (hle : num ≤ ctx.table.numHeaders)
    (hdec : hpackIntegerDecode 7 (buf.mem offset) (buf.rest offset) 0 = (.ok, num, con))
    (hex : hpackHeaderTableSetExists ctx.table ctx.referenceSet num = false)
    (hread : ReadInPlace ctx.table (ctx.table.numHeaders - num)) :
    parseIndexed buf offset ctx field = .ok (.ok,
      { ctx with
        referenceSet := hpackHeaderTableSetAdd ctx.table ctx.referenceSet num
        refNotEmitted := hpackHeaderTableSetRemove ctx.table ctx.refNotEmitted num },
      field.append (ctx.table.slotEntry (indexSwitchHtHpack ctx.table num)) false, con) := by
  rw [h.holds.num] at hle hread
  obtain ⟨hk, hentry⟩ := h.getElem_index h1 hle
  have hget := h.holds.get_eq hk false hread.1 (fun _ => hread)
    { field with flags := { field.flags with rep := .repIndexed } }
  rw [show es.length - (es.length - num) = num by omega, hentry] at hget
  have hnum := h.holds.num
  rw [parseIndexed, if_neg (by omega), hdec]
  simp only [ne_eq, not_true_eq_false, if_false, if_neg (show ¬ 61 + ctx.table.numHeaders < num by omega), hex,
    Bool.false_eq_true, hget, ok_bind]
  rfl

/-- A static entry: it is inserted and referenced. -/
theorem parseIndexed_static (h : ctx.Inv es) (field : HeaderField)
    (hf : field.name.bytes = [] ∧ field.value.bytes = []) (h31 : offset < 2 ^ 31)
    (hlt : ctx.table.numHeaders < num) (hle : num ≤ 61 + ctx.table.numHeaders)
    (hdec : hpackIntegerDecode 7 (buf.mem offset) (buf.rest offset) 0 = (.ok, num, con))
    (hex : hpackHeaderTableSetExists ctx.table ctx.referenceSet num = false) (hfits : StaticFits ctx num) :
    ∃ ctx', parseIndexed buf offset ctx field =
        .ok (.ok, ctx', field.append (ctx.static num) false, con) ∧
      ctx'.Inv (evictTo Entry.size (ctx.table.maxData - (ctx.static num).size) es ++ [ctx.static num]) ∧
      ∀ i, hpackSetExists ctx'.referenceSet i = true ↔ i = indexSwitchHtHpack ctx'.table 1 ∨
        (hpackSetExists ctx.referenceSet i = true ∧ Survives ctx.table ctx'.table i) := by
  have hnum := h.holds.num
  have hlen := h.holds.length_le
  have hmod : num % 2 ^ 16 = num := Nat.mod_eq_of_lt (by omega)
  obtain ⟨hentry, haddok⟩ := addOk_static hlt hle hfits { field with flags := { field.flags with rep := .repIndexed } } hf
  obtain ⟨ctx', heq, hinv, -, -, hrefs, -⟩ := h.insert haddok (by rw [hentry]; exact hfits.1)
  rw [hentry] at hinv
  rw [Context.static] at heq
  refine ⟨ctx'.reference, ?_, hinv, hrefs⟩
  rw [parseIndexed, if_neg (by omega), hdec]
  simp only [ne_eq, not_true_eq_false, if_false, if_neg (show ¬ 61 + ctx.table.numHeaders < num by omega), hex,
    Bool.false_eq_true]
  rw [hpackHeaderTableGet_static (by rwa [hmod]) (by rwa [hmod]), hmod]
  simp only [ok_bind, not_true_eq_false, if_false, if_true, heq]
  rfl

/-- **The indexed representation.** -/
theorem indexed_representation (t0 : HeaderTable) (calls : List ParserCall) (ctx : Context)
    (hok : ParserRunOk T t0 calls) (hrun : parserRun T t0 calls = .ok ctx) (buf : Block) (offset num con : ℕ)
    (field : HeaderField) (hc : buf.get offset &&& 0x80 ≠ 0) (hint : IntegerAt 7 (buf.mem offset) num con)
    (hin : offset + con ≤ buf.len) (h31 : offset < 2 ^ 31) :
    -- no such index
    (61 + ctx.table.numHeaders < num → ∃ ctx' f,
      hpackHeaderParserField T ctx buf offset field = .ok (.error, ctx', f, 0) ∧ ctx.Same ctx') ∧
    -- an entry in the reference set
    (1 ≤ num → num ≤ ctx.table.numHeaders → Readable (buf.len - offset) con →
      hpackSetExists ctx.referenceSet (indexSwitchHtHpack ctx.table num) = true → ∃ ctx' f,
      hpackHeaderParserField T ctx buf offset field = .ok (.ok, ctx', f, con) ∧ hpackHeaderFieldIsEmpty f = true ∧
        ctx'.table = ctx.table ∧ ∀ i,
          (hpackSetExists ctx'.referenceSet i = true ↔
            i ≠ indexSwitchHtHpack ctx.table num ∧ hpackSetExists ctx.referenceSet i = true) ∧
          (hpackSetExists ctx'.refNotEmitted i = true ↔
            i ≠ indexSwitchHtHpack ctx.table num ∧ hpackSetExists ctx.refNotEmitted i = true)) ∧
    -- an entry of the header table that is not in the reference set
    (1 ≤ num → num ≤ ctx.table.numHeaders → Readable (buf.len - offset) con →
      hpackSetExists ctx.referenceSet (indexSwitchHtHpack ctx.table num) = false →
      ReadInPlace ctx.table (ctx.table.numHeaders - num) → ∃ ctx' f,
      hpackHeaderParserField T ctx buf offset field = .ok (.ok, ctx', f, con) ∧
        f.name.bytes = (ctx.indexed num).name ∧ f.value.bytes = (ctx.indexed num).value ∧ ctx'.table = ctx.table ∧ ∀ i,
          (hpackSetExists ctx'.referenceSet i = true ↔
            i = indexSwitchHtHpack ctx.table num ∨ hpackSetExists ctx.referenceSet i = true) ∧
          (hpackSetExists ctx'.refNotEmitted i = true ↔ hpackSetExists ctx.refNotEmitted i = true)) ∧
    -- a static entry
    (ctx.table.numHeaders < num → num ≤ 61 + ctx.table.numHeaders → Readable (buf.len - offset) con →
      hpackSetExists ctx.referenceSet (indexSwitchHtHpack ctx.table num) = false → StaticFits ctx num → ∃ ctx' f e,
      hpackHeaderParserField T ctx buf offset field = .ok (.ok, ctx', f, con) ∧
        f.name.bytes = (ctx.indexed num).name ∧ f.value.bytes = (ctx.indexed num).value ∧
        e.name = (ctx.indexed num).name ∧ e.value = (ctx.indexed num).value ∧
        ctx'.table.entries = Fifo.add Entry.size ctx.table.maxData e ctx.table.entries ∧ ∀ i,
          (hpackSetExists ctx'.referenceSet i = true ↔ i = indexSwitchHtHpack ctx'.table 1 ∨
            (hpackSetExists ctx.referenceSet i = true ∧ Survives ctx.table ctx'.table i))) := by
  obtain ⟨es, h⟩ := parserRun_inv T hok hrun
  have hlt : offset < buf.len := by have := hint.pos; omega
  have hsame := h.unfinished
  obtain ⟨hn, hv⟩ : (hpackHeaderFieldClean field).name.bytes = [] ∧ (hpackHeaderFieldClean field).value.bytes = [] :=
    ⟨chulaBufferClean_bytes _, chulaBufferClean_bytes _⟩
  have hnum : num ≤ 61 + ctx.table.numHeaders → num < 2 ^ 32 := by
    have := h.holds.num
    have := h.holds.length_le
    omega
  rw [parserField_indexed hlt.ne (indexed_octet _ hc) hc]
  refine ⟨fun hbig => ?_, fun h1 hle hread hex => ?_, fun h1 hle hread hex hplace => ?_,
    fun hgt hle hread hex hfits => ?_⟩
  · exact ⟨_, _, parseIndexed_refused _ h31 hbig hint, rfl, rfl, rfl⟩
  · have hdec := decode_of_integerAt hlt.le hint (hnum (by omega)) hread
    refine ⟨_, _, parseIndexed_removed _ h31 (hle.trans (Nat.le_add_left _ _)) hdec hex,
      (hpackHeaderFieldIsEmpty_iff _).mpr ⟨hn, hv⟩, rfl, fun i => ⟨?_, ?_⟩⟩
    · exact exists_tableSetRemove _ _ _ _
    · exact exists_tableSetRemove _ _ _ _
  · have hdec := decode_of_integerAt hlt.le hint (hnum (by omega)) hread
    refine ⟨_, _, parseIndexed_dynamic hsame _ h31 h1 hle hdec hex hplace, ?_, ?_, rfl, fun i => ⟨?_, ?_⟩⟩
    · simp [HeaderField.append, hn, Context.indexed, hle]
    · simp [HeaderField.append, hv, Context.indexed, hle]
    · exact exists_tableSetAdd _ _ _ _
    · -- it was not pending, because it was no reference
      rw [exists_tableSetRemove]
      refine and_iff_right_of_imp fun hi => ?_
      rintro rfl
      exact Bool.false_ne_true (hex.symm.trans (h.pending _ hi))
  · have hdec := decode_of_integerAt hlt.le hint (hnum hle) hread
    have hindexed : ctx.indexed num = ctx.static num := if_neg (not_le.mpr hgt)
    obtain ⟨ctx', heq, hinv, hrefs⟩ := parseIndexed_static hsame _ ⟨hn, hv⟩ h31 hgt hle hdec hex hfits
    refine ⟨ctx', _, ctx.static num, heq, ?_, ?_, ?_, ?_, ?_, hrefs⟩
    · simp [HeaderField.append, hn, hindexed, Context.static]
    · simp [HeaderField.append, hv, hindexed, Context.static]
    · rw [hindexed]
    · rw [hindexed]
    · rw [h.holds.entries_eq, hinv.holds.entries_eq, add_of_le hfits.1]
      rfl

end Indexed

/-- `getBlock`: the static entry is returned, and the second octet takes its reference away. -/
theorem indexed_representation_get :
    (∃ ctx' f, hpackHeaderParserField noTables (hpackHeaderParserInit zeroTable) getBlock 0 hpackHeaderFieldInit =
        .ok (.ok, ctx', f, 1) ∧ f.name.bytes = ascii ":method" ∧ f.value.bytes = ascii "GET") ∧
    ∃ ctx, parserRun noTables zeroTable [⟨getBlock, 0, by decide, hpackHeaderFieldInit⟩] = .ok ctx ∧ ∃ ctx' f,
      hpackHeaderParserField noTables ctx getBlock 1 hpackHeaderFieldInit = .ok (.ok, ctx', f, 1) ∧
        hpackHeaderFieldIsEmpty f = true ∧ ctx'.table = ctx.table := by
  constructor
  · have hall := indexed_representation noTables zeroTable [] (hpackHeaderParserInit zeroTable) trivial rfl getBlock 0
      2 1 hpackHeaderFieldInit (by decide) (.short (by decide)) (by decide) (by decide)
    obtain ⟨ctx', f, e, heq, hname, hvalue, -⟩ :=
      hall.2.2.2 (by decide) (by decide) (.inl rfl) (by decide) (by decide)
    exact ⟨ctx', f, heq, hname.trans (by decide), hvalue.trans (by decide)⟩
  · obtain ⟨ctx, hrun, hle, hex⟩ :
        ∃ ctx, parserRun noTables zeroTable [⟨getBlock, 0, by decide, hpackHeaderFieldInit⟩] = .ok ctx ∧
          1 ≤ ctx.table.numHeaders ∧ hpackSetExists ctx.referenceSet (indexSwitchHtHpack ctx.table 1) = true := by
      decide
    obtain ⟨ctx', f, heq, hempty, htable, -⟩ := (indexed_representation noTables zeroTable _ ctx (by decide) hrun
      getBlock 1 1 1 hpackHeaderFieldInit (by decide) (.short (by decide)) (by decide) (by decide)).2.1
      le_rfl hle (.inl rfl) hex
    exact ⟨ctx, hrun, ctx', f, heq, hempty, htable⟩

/-- Index zero: the slot behind the newest entry is read, and referenced. -/
theorem indexed_representation_zero :
    ∃ ctx' f con, hpackHeaderParserField noTables (hpackHeaderParserInit zeroTable) (some ⟨[0x80], 0, by decide⟩) 0
        hpackHeaderFieldInit = .ok (.ok, ctx', f, con) ∧ hpackSetExists ctx'.referenceSet 0 = true := by
  obtain ⟨⟨ret, ctx', f, con⟩, heq, rfl, href⟩ : ∃ r, hpackHeaderParserField noTables
      (hpackHeaderParserInit zeroTable) (some ⟨[0x80], 0, by decide⟩) 0 hpackHeaderFieldInit = .ok r ∧
      r.1 = .ok ∧ hpackSetExists r.2.1.referenceSet 0 = true := by decide
  exact ⟨ctx', f, con, heq, href⟩

/-! ### Size updates -/

section SizeUpdates

variable (T : HuffmanTables) {ctx : Context} {es : List Entry} {buf : Block} {offset num con : ℕ}

/-- A size that is too large, or is not decoded. -/
theorem parseContextUpdate_refused (ctx : Context) (hc : buf.get offset ≠ 0x30) (hint : IntegerAt 4 (buf.mem offset) num con)
    (hlarge : hpackIntegerDecode 4 (buf.mem offset) (buf.rest offset) 0 = (.ok, num, con) → 4096 < num % 2 ^ 16) :
    ∃ ctx', parseContextUpdate buf offset ctx = .ok (.error, ctx', 0) ∧ ctx.Same ctx' := by
  rw [parseContextUpdate, if_neg hc]
  rcases decode_or_error hint with hdec | ⟨v, hdec⟩
  · rw [hdec]
    dsimp only
    rw [if_neg (by decide), hpackHeaderTableSetMax_large (hlarge hdec)]
    exact ⟨_, rfl, rfl, rfl, rfl⟩
  · rw [hdec]
    exact ⟨_, rfl, rfl, rfl, rfl⟩

/-- A size that the table takes. -/
theorem parseContextUpdate_resized (h : ctx.Inv es) (hc : buf.get offset ≠ 0x30) (hle : num ≤ 4096)
    (hdec : hpackIntegerDecode 4 (buf.mem offset) (buf.rest offset) 0 = (.ok, num, con)) (hok : SetMaxOk ctx.table num)
    (hzero : num = 0 → hpackSetIsEmpty ctx.referenceSet = true) :
    ∃ ctx', parseContextUpdate buf offset ctx = .ok (.ok, ctx', con) ∧
      Holds ctx'.table (evictTo Entry.size num es) ∧ ctx'.table.maxData = num ∧
      (∀ i, hpackSetExists ctx'.referenceSet i = true ↔
        hpackSetExists ctx.referenceSet i = true ∧ Survives ctx.table ctx'.table i) ∧
      ∀ i, hpackSetExists ctx'.refNotEmitted i = true ↔
        hpackSetExists ctx.refNotEmitted i = true ∧ Survives ctx.table ctx'.table i := by
  have hmod : num % 2 ^ 16 = num := Nat.mod_eq_of_lt (by omega)
  rw [parseContextUpdate, if_neg hc, hdec]
  dsimp only
  rw [if_neg (by decide)]
  by_cases h0 : num = 0
  · subst h0
    have hrefs := isEmpty_iff.mp (hzero rfl)
    have hpending : ∀ i, ¬ hpackSetExists ctx.refNotEmitted i = true := fun i hi =>
      Bool.false_ne_true ((hrefs i).symm.trans (h.pending i hi))
    rw [hpackHeaderTableSetMax_zero rfl]
    refine ⟨_, rfl, ?_, rfl, fun i => ?_, fun i => ?_⟩
    · rw [evictTo_zero fun e _ => by simp only [Entry.size]; omega]
      exact (Holds.clear ctx.table).withMax le_rfl (Nat.zero_le _)
    · rw [exists_relativeComp_iff, hrefs i]
      simp
    · rw [exists_relativeComp_iff]
      have := hpending i
      tauto
  · obtain ⟨t', s, heq, hnew, hmax, hexact⟩ := h.holds.setMax_exact hok (by omega) (by omega)
    rw [hmod] at hnew hmax
    rw [heq]
    exact ⟨_, rfl, hnew, hmax, fun i => exists_comp_exact hexact (h.refs i),
      fun i => exists_comp_exact hexact fun hi => h.refs i (h.pending i hi)⟩

/-- **The maximum-size update.** -/
theorem max_size_update (t0 : HeaderTable) (calls : List ParserCall) (ctx : Context)
    (hok : ParserRunOk T t0 calls) (hrun : parserRun T t0 calls = .ok ctx) (buf : Block) (offset v con : ℕ)
    (field : HeaderField) (hc : buf.get offset &&& 0xF0 = 0x20) (hint : IntegerAt 4 (buf.mem offset) v con)
    (hin : offset + con ≤ buf.len) (hv : v < 2 ^ 32) :
    (4096 < v → 4096 < v % 2 ^ 16 ∨ ¬ Readable (buf.len - offset) con → ∃ ctx' f,
      hpackHeaderParserField T ctx buf offset field = .ok (.error, ctx', f, 0) ∧ ctx.Same ctx') ∧
    (v ≤ 4096 → Readable (buf.len - offset) con → SetMaxOk ctx.table v →
      (v = 0 → hpackSetIsEmpty ctx.referenceSet = true) → ∃ ctx' f,
      hpackHeaderParserField T ctx buf offset field = .ok (.ok, ctx', f, con) ∧ ctx'.table.maxData = v ∧
        LongestRun Entry.size v ctx.table.entries ctx'.table.entries ∧ ∀ i,
          (hpackSetExists ctx'.referenceSet i = true ↔
            hpackSetExists ctx.referenceSet i = true ∧ Survives ctx.table ctx'.table i) ∧
          (hpackSetExists ctx'.refNotEmitted i = true ↔
            hpackSetExists ctx.refNotEmitted i = true ∧ Survives ctx.table ctx'.table i)) := by
  obtain ⟨es, h⟩ := parserRun_inv T hok hrun
  have hlt : offset < buf.len := by have := hint.pos; omega
  have hsame := h.unfinished
  have hE0 : buf.get offset &&& 0xE0 = 0x20 := by
    rw [show (0xE0 : UInt8) = 0xF0 &&& 0xE0 from rfl, ← UInt8.and_assoc, hc]
    rfl
  have h30 : buf.get offset ≠ 0x30 := fun h30 => by
    rw [h30] at hc
    exact absurd hc (by decide)
  rw [parserField_update hlt.ne hE0]
  refine ⟨fun hbig hwhen => ?_, fun hle hread hset hzero => ?_⟩
  · obtain ⟨ctx', heq, hctx⟩ := parseContextUpdate_refused { ctx with finished := false } h30 hint fun hdec =>
      hwhen.resolve_right fun hnot => hnot (Block.rest_eq hlt.le ▸ (hpackIntegerDecode_ok_iff.mp hdec).2.2)
    rw [heq]
    exact ⟨ctx', _, rfl, hctx⟩
  · have hdec := decode_of_integerAt hlt.le hint hv hread
    obtain ⟨ctx', heq, hnew, hmax, hrefs, hpending⟩ := parseContextUpdate_resized hsame h30 hle hdec hset hzero
    rw [heq]
    refine ⟨ctx', _, rfl, hmax, ?_, fun i => ⟨hrefs i, hpending i⟩⟩
    rw [hnew.entries_eq, h.holds.entries_eq]
    exact longestRun_evictTo v es

end SizeUpdates

/-- The static entry `:method: GET`, a size update to 1 and one to 4097. -/
def resizeBlock : Block := ⟨[0x82, 0x21, 0x2F, 0xF2, 0x1F], 0, by decide⟩

theorem max_size_update_resize :
    ∃ ctx, parserRun noTables zeroTable [⟨resizeBlock, 0, by decide, hpackHeaderFieldInit⟩] = .ok ctx ∧
      (∃ ctx' f, hpackHeaderParserField noTables ctx resizeBlock 2 hpackHeaderFieldInit = .ok (.error, ctx', f, 0) ∧
        ctx.Same ctx') ∧
      ∃ ctx' f, hpackHeaderParserField noTables ctx resizeBlock 1 hpackHeaderFieldInit = .ok (.ok, ctx', f, 1) ∧
        ctx'.table.maxData = 1 ∧ LongestRun Entry.size 1 ctx.table.entries ctx'.table.entries := by
  obtain ⟨ctx, hrun, hset⟩ : ∃ ctx, parserRun noTables zeroTable [⟨resizeBlock, 0, by decide, hpackHeaderFieldInit⟩] =
      .ok ctx ∧ SetMaxOk ctx.table 1 := by decide
  have hok : ParserRunOk noTables zeroTable [⟨resizeBlock, 0, by decide, hpackHeaderFieldInit⟩] := by decide
  have hint : IntegerAt 4 (resizeBlock.mem 2) 4097 3 := .long (by decide) (.more (by decide) (.last (by decide)))
  refine ⟨ctx, hrun, ?_, ?_⟩
  · exact (max_size_update noTables zeroTable _ ctx hok hrun resizeBlock 2 4097 3 hpackHeaderFieldInit (by decide) hint
      (by decide) (by decide)).1 (by decide) (.inl (by decide))
  · obtain ⟨ctx', f, heq, hmax, hlongest, -⟩ := (max_size_update noTables zeroTable _ ctx hok hrun resizeBlock 1 1 1
      hpackHeaderFieldInit (by decide) (.short (by decide)) (by decide) (by decide)).2 (by decide) (.inl rfl) hset
      fun h0 => absurd h0 (by decide)
    exact ⟨ctx', f, heq, hmax, hlongest⟩

/-- A size update to 65536. -/
def hugeBlock : Block := ⟨[0x2F, 0xF1, 0xFF, 0x03], 0, by decide⟩

/-- It is taken for zero. -/
theorem max_size_update_wraps :
    IntegerAt 4 (hugeBlock.mem 0) 65536 4 ∧ ∃ ctx' f con,
      hpackHeaderParserField noTables (hpackHeaderParserInit zeroTable) hugeBlock 0 hpackHeaderFieldInit =
        .ok (.ok, ctx', f, con) ∧ ctx'.table.maxData = 0 := by
  obtain ⟨⟨ret, ctx', f, con⟩, heq, rfl, hmax⟩ : ∃ r, hpackHeaderParserField noTables (hpackHeaderParserInit zeroTable)
      hugeBlock 0 hpackHeaderFieldInit = .ok r ∧ r.1 = .ok ∧ r.2.1.table.maxData = 0 := by decide
  exact ⟨.long (by decide) (.more (by decide) (.more (by decide) (.last (by decide)))), ctx', f, con, heq, hmax⟩

end LibHpack
