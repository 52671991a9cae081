import LibHpack.Decoder.Rows
import LibHpack.HeaderParser.Emission

/-!
# LibHpack.Decoder.Refines — one call is one instruction

`Spells` says which instruction the octets at an offset are, and `InstrOk` when the source gets through it without one
of its defects: a read that is split in the wrong place, an index that is cut to 16 bits, a slot that is not live.  Then
a call of `hpack_header_parser_field` is the step of the instruction, and it fails when there is no step (`simulates`).
-/

namespace LibHpack

open LibHpack.Fifo LibHpack.Decoder

/-! ### Instructions in octets -/

/-- The octets of an instruction. -/
inductive Spells (T : HuffmanTables) (buf : Block) (n : ℕ) : Instr → ℕ → Prop
  | resize {max con : ℕ} (hc : buf.get n &&& 0xF0 = 0x20) (hint : IntegerAt 4 (buf.mem n) max con)
      (hread : Readable (buf.len - n) con) (hin : n + con ≤ buf.len) : Spells T buf n (.resize max) con
  | forget (hc : buf.get n = 0x30) (hin : n + 1 ≤ buf.len) : Spells T buf n .forget 1
  | indexed {num con : ℕ} (hc : buf.get n &&& 0x80 ≠ 0) (hint : IntegerAt 7 (buf.mem n) num con)
      (hread : Readable (buf.len - n) con) (hin : n + con ≤ buf.len) : Spells T buf n (.indexed num) con
  | newName {name value : List UInt8} {c1 c2 : ℕ} (hc : buf.get n &&& 0xC0 = 0x40 ∨ buf.get n &&& 0xE0 = 0)
      (hint : IntegerAt (literalPrefix (buf.get n)) (buf.mem n) 0 1) (hname : StringAt T buf (n + 1) name c1)
      (hvalue : StringAt T buf (n + 1 + c1) value c2) :
      Spells T buf n (.literal (decide (buf.get n &&& 0xC0 = 0x40)) (.new name) value) (1 + c1 + c2)
  | indexedName {value : List UInt8} {k con c : ℕ} (hc : buf.get n &&& 0xC0 = 0x40 ∨ buf.get n &&& 0xE0 = 0)
      (hint : IntegerAt (literalPrefix (buf.get n)) (buf.mem n) k con) (hk : 1 ≤ k)
      (hread : Readable (buf.len - n) con) (hvalue : StringAt T buf (n + con) value c) :
      Spells T buf n (.literal (decide (buf.get n &&& 0xC0 = 0x40)) (.index k) value) (con + c)

/-- An instruction has at least one octet, and all of them are there. -/
theorem Spells.bounds {T : HuffmanTables} {buf : Block} {n con : ℕ} {i : Instr} (h : Spells T buf n i con) :
    1 ≤ con ∧ n + con ≤ buf.len := by
  cases h with
  | resize _ hint _ hin => exact ⟨hint.pos, hin⟩
  | forget _ hin => exact ⟨le_rfl, hin⟩
  | indexed _ hint _ hin => exact ⟨hint.pos, hin⟩
  | newName _ _ hname hvalue =>
    have := hvalue.le_len
    omega
  | indexedName _ hint _ _ hvalue =>
    have := hint.pos
    have := hvalue.le_len
    omega

/-! ### Conditions -/

/-- A field that can be inserted: it has a name, the evictions are in place, and if it is too large for the table then
the maximum is the one that a cleared table has. -/
structure InsertOk (t : HeaderTable) (p : Pair) : Prop where
  name : p.1 ≠ []
  no_wrap : p.1.length + p.2.length + 32 < 2 ^ 32
  fits : p.1.length + p.2.length + 32 ≤ t.maxData → EvictionsInPlace t (t.maxData - (p.1.length + p.2.length + 32))
  oversize : t.maxData < p.1.length + p.2.length + 32 → t.maxData = 4096

/-- The index of a name: the source finds its width, reads the name in place, and sees that there is no such index. -/
structure NameIndexOk (t : HeaderTable) (indexing : Bool) (k : ℕ) : Prop where
  form : indexing = true → k ∉ [16, 32, 48]
  inPlace : k ≤ t.numHeaders → NameInPlace t (t.numHeaders - k)
  beyond : 61 + t.numHeaders < k → 61 + t.numHeaders < k % 2 ^ 16 ∨ 2 ^ 32 ≤ k

/-- An index that is not zero; the entry is read in place, or the static entry fits and its slot is no reference. -/
structure IndexOk (ctx : Context) (num : ℕ) : Prop where
  pos : 1 ≤ num
  inPlace : num ≤ ctx.table.numHeaders → hpackSetExists ctx.referenceSet (indexSwitchHtHpack ctx.table num) = false →
    ReadInPlace ctx.table (ctx.table.numHeaders - num)
  static : ctx.table.numHeaders < num → num ≤ 61 + ctx.table.numHeaders →
    hpackSetExists ctx.referenceSet (indexSwitchHtHpack ctx.table num) = false ∧ StaticFits ctx num

instance (ctx : Context) (num : ℕ) : Decidable (IndexOk ctx num) :=
  decidable_of_iff (1 ≤ num ∧ (num ≤ ctx.table.numHeaders →
      hpackSetExists ctx.referenceSet (indexSwitchHtHpack ctx.table num) = false →
        ReadInPlace ctx.table (ctx.table.numHeaders - num)) ∧
      (ctx.table.numHeaders < num → num ≤ 61 + ctx.table.numHeaders →
        hpackSetExists ctx.referenceSet (indexSwitchHtHpack ctx.table num) = false ∧ StaticFits ctx num))
    ⟨fun h => ⟨h.1, h.2.1, h.2.2⟩, fun h => ⟨h.pos, h.inPlace, h.static⟩⟩

/-- A size that is not cut to one that fits; its evictions are in place, and one to zero finds no references. -/
structure ResizeOk (ctx : Context) (max : ℕ) : Prop where
  evictions : max ≤ 4096 → SetMaxOk ctx.table max
  zero : max = 0 → hpackSetIsEmpty ctx.referenceSet = true
  large : 4096 < max → 4096 < max % 2 ^ 16 ∨ 2 ^ 32 ≤ max

/-- **The condition on an instruction.** -/
def InstrOk (ctx : Context) : Instr → Prop
  | .resize max => ResizeOk ctx max
  | .forget => True
  | .indexed num => IndexOk ctx num
  | .literal indexing name value =>
    (∀ k, name = .index k → NameIndexOk ctx.table indexing k) ∧
      (indexing = true → ∀ n, ctx.state.resolve staticPairs name = some n → InsertOk ctx.table (n, value))

/-! ### What a call does to the rows -/

variable {T : HuffmanTables} {ctx ctx' : Context} {es d r : List Entry} {buf : Block} {n con num : ℕ}
  {field f : HeaderField} {p : Pair}

/-- The references that are left are those that survive. -/
theorem Shifted.kept {t t' : HeaderTable} {m : List Entry} {s s' : HpackSet} {k : ℕ} (h : Shifted t t' d r m)
    (hs : ∀ i, hpackSetExists s' i = true ↔ hpackSetExists s i = true ∧ Survives t t' i) (hk : k < r.length) :
    hpackSetExists s' (t'.slot k) = hpackSetExists s (t'.slot k) := by
  rw [Bool.eq_iff_iff, hs]
  exact and_iff_left (h.survives hk)

/-- The new entry is behind the ones that are left. -/
theorem shifted_insert {t t' : HeaderTable} {e : Entry} (h : Holds t (d ++ r)) (h' : Holds t' (r ++ [e]))
    (hone : indexSwitchHtHpack t' 1 = t.slot (d ++ r).length) : Shifted t t' d r [e] := by
  refine ⟨h, h', fun j => ?_⟩
  have hlen := h'.length_le
  rw [h'.indexSwitch_index (by simp)] at hone
  simp only [HeaderTable.slot, List.length_append, List.length_singleton, Nat.add_sub_cancel] at hone ⊢
  omega

/-- **Inserting a field** that fits. -/
theorem Context.Inv.insert_state (h : ctx.Inv es) (hok : AddOk ctx.table f) (hfit : f.entry.size ≤ ctx.table.maxData) :
    ∃ ctx', addFieldProcessEvictions ctx f = .ok (.ok, ctx', true) ∧ (∃ es', ctx'.reference.Inv es') ∧
      ctx'.reference.state = ctx.state.insert f.pair ∧ ctx'.iterNotEmitted = ctx.iterNotEmitted ∧
      ctx'.finished = ctx.finished := by
  obtain ⟨ctx', heq, hinv, hmax, hone, hrefs, hpending, hiter, hfin⟩ := h.insert hok hfit
  refine ⟨ctx', heq, ⟨_, hinv⟩, ?_, hiter, hfin⟩
  obtain ⟨d, hd⟩ := exists_evicted (ctx.table.maxData - f.entry.size) es
  set r := evictTo Entry.size (ctx.table.maxData - f.entry.size) es with hr
  have hshift : Shifted ctx.table ctx'.reference.table d r [f.entry] :=
    shifted_insert (hd ▸ h.holds) hinv.holds (hd ▸ hone)
  have hlen := hshift.new.length_le
  rw [List.length_append, List.length_singleton] at hlen
  have hnew : indexSwitchHtHpack ctx'.table 1 = ctx'.reference.table.slot r.length := by
    rw [show ctx'.table = ctx'.reference.table from rfl, hshift.new.indexSwitch_index (by simp)]
    simp
  -- the rows that are left
  have hrows := hshift.rows (fun k hk => by
      rw [Bool.eq_iff_iff, hrefs, hnew, HeaderTable.slot_inj _ (by omega) (by omega)]
      refine ⟨fun hi => (hi.resolve_left (Nat.ne_of_lt hk)).1, fun hi => .inr ⟨hi, hshift.survives hk⟩⟩)
    (fun k hk => hshift.kept hpending hk)
  rw [h.evictTo_rows hd] at hrows
  -- the new one
  have hrow : ctx'.reference.row (ctx'.reference.table.slot r.length) = ⟨f.pair, true, false⟩ := by
    have hentry : ctx'.reference.table.slotEntry (ctx'.reference.table.slot r.length) = f.entry := by
      have := hshift.new.entry_eq (k := r.length) (by simp)
      rwa [List.getElem_concat_length rfl] at this
    have hpend : hpackSetExists ctx'.reference.refNotEmitted (ctx'.reference.table.slot r.length) = false := by
      rw [← Bool.not_eq_true, hpending, ← hnew, hone]
      exact fun hi => h.holds.not_live_slot (h.refs _ (h.pending _ hi.1))
    rw [Context.row, hentry, (hrefs _).mpr (.inl hnew.symm), hpend]
    rfl
  rw [List.length_singleton, List.range_one, List.map_singleton, Nat.add_zero, hrow] at hrows
  have hsize : (⟨f.pair, true, false⟩ : Row).size = f.entry.size := rfl
  rw [State.insert, Context.state_max, add_of_le (hsize ▸ hfit), hsize, ← hrows]
  exact congrArg (State.mk _) hmax

/-- What an insertion of a field makes of a context: the reference is made if the field was added. -/
theorem Context.Inv.add_state (h : ctx.Inv es) (hf : f.pair = p) (hok : InsertOk ctx.table p) :
    ∃ ctx' added, addFieldProcessEvictions ctx f = .ok (.ok, ctx', added) ∧
      ∃ ctx'', (if added then ctx'.reference else ctx') = ctx'' ∧ (∃ es', ctx''.Inv es') ∧
        ctx''.state = ctx.state.insert p ∧ ctx''.iterNotEmitted = ctx.iterNotEmitted ∧ ctx''.finished = ctx.finished := by
  subst hf
  have hsize : f.entry.size = f.pair.1.length + f.pair.2.length + 32 := rfl
  have hadd : AddOk ctx.table f := by
    refine ⟨.inl hok.name, hsize ▸ hok.no_wrap, fun hfit => ⟨?_, hok.fits hfit⟩⟩
    rw [Option.isSome_iff_ne_none]
    intro hnone
    exact hok.name (by rw [HeaderField.pair, ChulaBuffer.bytes, hnone]; rfl)
  by_cases hfit : f.entry.size ≤ ctx.table.maxData
  · obtain ⟨ctx', heq, hinv, hstate, hiter, hfin⟩ := h.insert_state hadd hfit
    exact ⟨ctx', true, heq, _, rfl, hinv, hstate, hiter, hfin⟩
  · -- the table and the sets are cleared
    have hlt : ctx.table.maxData < f.entry.size := not_le.mp hfit
    refine ⟨_, false, addField_oversize (by rwa [hadd.getSize_eq]), _, rfl,
      ⟨[], Holds.clear ctx.table, fun i hi => ?_, fun i hi => ?_⟩, ?_, rfl, rfl⟩
    · simp at hi
    · simp at hi
    · have hmax := hok.oversize hlt
      rw [State.insert, add_of_lt (show ctx.state.max < (⟨f.pair, true, false⟩ : Row).size from hlt)]
      simp [Context.state, hpackHeaderTableClear, hmax]

/-- **Changing the maximum.** -/
theorem Context.Inv.resize_state (h : ctx.Inv es) (hc : buf.get n ≠ 0x30) (hle : num ≤ 4096)
    (hdec : hpackIntegerDecode 4 (buf.mem n) (buf.rest n) 0 = (.ok, num, con)) (hok : ResizeOk ctx num) :
    ∃ ctx', parseContextUpdate buf n ctx = .ok (.ok, ctx', con) ∧ (∃ es', ctx'.Inv es') ∧
      ctx'.state = ⟨evictTo Row.size num ctx.state.rows, num⟩ ∧ ctx'.iterNotEmitted = ctx.iterNotEmitted ∧
      ctx'.finished = ctx.finished := by
  have hmod : num % 2 ^ 16 = num := Nat.mod_eq_of_lt (by omega)
  obtain ⟨ctx', heq, hnew, hmax, hrefs, hpending⟩ := parseContextUpdate_resized h hc hle hdec (hok.evictions hle) hok.zero
  have hinv : ctx'.Inv (evictTo Entry.size num es) :=
    ⟨hnew, fun i hi => ((hrefs i).mp hi).2.1,
      fun i hi => (hrefs i).mpr ⟨h.pending i ((hpending i).mp hi).1, ((hpending i).mp hi).2⟩⟩
  refine ⟨ctx', heq, ⟨_, hinv⟩, ?_, ?_⟩
  · -- the slots are those of the table without its oldest entries
    obtain ⟨d, hd, hslot⟩ : ∃ d, es = d ++ evictTo Entry.size num es ∧
        (num ≠ 0 → ∀ j, ctx'.table.slot j = ctx.table.slot (d.length + j)) := by
      by_cases h0 : num = 0
      · obtain ⟨d, hd⟩ := exists_evicted num es
        exact ⟨d, hd, fun hne => absurd h0 hne⟩
      · obtain ⟨d, s, hd, hset, -, -⟩ := h.holds.setMax_eq (hok.evictions hle) (by rwa [hmod]) (by rwa [hmod])
        rw [hmod] at hd
        refine ⟨d, hd, fun _ => ?_⟩
        cases parseContextUpdate_cases heq with
        | emptied h30 => exact absurd h30 hc
        | resized _ hdec' hset' =>
          cases hdec.symm.trans hdec'
          cases hset.symm.trans hset'
          exact fun j => ctx.table.slot_dropOldest d j
    have hrows : ctx'.state.rows = evictTo Row.size num ctx.state.rows := by
      rw [← h.evictTo_rows hd]
      by_cases h0 : num = 0
      · have hnil : evictTo Entry.size num es = [] := h0 ▸ evictTo_zero fun e _ => e.size_pos
        have hnum := h.holds.num
        have hnum' := hnew.num
        rw [hnil, List.append_nil] at hd
        rw [hnil] at hnum'
        rw [List.drop_of_length_le (by simp [hnum, hd]), ← List.length_eq_zero_iff, Context.state_rows_length, hnum']
        rfl
      · have hshift : Shifted ctx.table ctx'.table d (evictTo Entry.size num es) [] :=
          ⟨hd ▸ h.holds, by rwa [List.append_nil], hslot h0⟩
        rw [hshift.rows (fun k hk => hshift.kept hrefs hk) (fun k hk => hshift.kept hpending hk)]
        simp
    rw [← hrows, ← hmax]
    rfl
  · cases parseContextUpdate_cases heq with
    | emptied h30 => exact absurd h30 hc
    | resized _ _ _ => exact ⟨rfl, rfl⟩

theorem row_congr {i : ℕ} (ht : ctx'.table = ctx.table)
    (hr : hpackSetExists ctx'.referenceSet i = true ↔ hpackSetExists ctx.referenceSet i = true)
    (hp : hpackSetExists ctx'.refNotEmitted i = true ↔ hpackSetExists ctx.refNotEmitted i = true) :
    ctx'.row i = ctx.row i := by
  rw [Context.row, Context.row, ht, Bool.eq_iff_iff.mpr hr, Bool.eq_iff_iff.mpr hp]

/-- **Making or taking away one reference.** -/
theorem state_toggle {j : ℕ} (hj : j < ctx.table.numHeaders) (h128 : ctx.table.numHeaders ≤ 128)
    (htable : ctx'.table = ctx.table)
    (hrow : ctx'.row (ctx.table.slot j) = (ctx.row (ctx.table.slot j)).toggle)
    (hother : ∀ i, i ≠ ctx.table.slot j → ctx'.row i = ctx.row i) :
    ctx'.state = { ctx.state with rows := ctx.state.rows.modify j Row.toggle } := by
  have hrows : ctx'.state.rows = ctx.state.rows.modify j Row.toggle := by
    refine List.ext_getElem (by simp [htable]) fun k h1 h2 => ?_
    rw [Context.state_rows_length, htable] at h1
    rw [Context.getElem_rows, htable, List.getElem_modify, Context.getElem_rows]
    split_ifs with hk
    · rw [← hk, hrow]
    · refine hother _ fun heq => hk ?_
      exact ((HeaderTable.slot_inj _ (by omega) (by omega)).mp heq).symm
  rw [← hrows]
  exact congrArg (State.mk _) (congrArg HeaderTable.maxData htable)

/-! ### Instructions -/

/-- What a call makes of a step: the state behind it and the field that it gives, or an error. -/
def Simulates (T : HuffmanTables) (buf : Block) (n con : ℕ) (ctx : Context) (field : HeaderField) :
    Option (State × Option Pair) → Prop
  | some (s, p) => ∃ ctx' f, hpackHeaderParserField T ctx buf n field = .ok (.ok, ctx', f, con) ∧
      (∃ es, ctx'.Inv es) ∧ ctx'.state = s ∧ f.pair = p.getD ([], []) ∧ ctx'.iterNotEmitted = ctx.iterNotEmitted ∧
      ctx'.finished = false
  | none => ∃ ret ctx' f, hpackHeaderParserField T ctx buf n field = .ok (ret, ctx', f, 0) ∧ ret ≠ .ok ∧ ret ≠ .eof

/-- The slot of an index, and its row. -/
theorem Context.Inv.row_index (h : ctx.Inv es) (hle : num ≤ ctx.table.numHeaders) :
    indexSwitchHtHpack ctx.table num = ctx.table.slot (ctx.table.numHeaders - num) := by
  rw [h.holds.num] at hle ⊢
  exact h.holds.indexSwitch_index hle

/-- A lookup into an empty field. -/
theorem append_pair (hf : field.pair = ([], [])) (e : Entry) : (field.append e false).pair = e.pair := by
  obtain ⟨hn, hv⟩ := Prod.mk.inj hf
  simp [HeaderField.pair, HeaderField.append, Entry.pair, hn, hv]

/-- An index of a row, in a call. -/
theorem Context.Inv.indexed_row (h : ctx.Inv es) (hf : field.pair = ([], [])) (h31 : n < 2 ^ 31) (h1 : 1 ≤ num)
    (hle : num ≤ ctx.table.numHeaders) (hdec : hpackIntegerDecode 7 (buf.mem n) (buf.rest n) 0 = (.ok, num, con))
    (hok : IndexOk ctx num) :
    ∃ ctx' f p, parseIndexed buf n ctx field = .ok (.ok, ctx', f, con) ∧ ctx'.Inv es ∧
      ctx.state.step staticPairs 4096 (.indexed num) = some (ctx'.state, p) ∧ f.pair = p.getD ([], []) ∧
      ctx'.iterNotEmitted = ctx.iterNotEmitted ∧ ctx'.finished = ctx.finished := by
  have hnum := h.holds.num
  have hlen := h.holds.length_le
  have hslot := h.row_index hle
  have hlive : ctx.table.Live (indexSwitchHtHpack ctx.table num) := h.holds.live_index h1 (hnum ▸ hle)
  have hstep : ctx.state.step staticPairs 4096 (.indexed num) = some
      ({ ctx.state with rows := ctx.state.rows.modify (ctx.table.numHeaders - num) Row.toggle },
        if hpackSetExists ctx.referenceSet (indexSwitchHtHpack ctx.table num) then none
        else some (ctx.indexed num).pair) := by
    rw [State.step, h.lookup h1 (by omega), Option.map_some, Context.state_rows_length, if_pos hle,
      ctx.getElem?_rows (by omega), hslot]
    rfl
  by_cases hex : hpackSetExists ctx.referenceSet (indexSwitchHtHpack ctx.table num) = true
  · -- the reference is taken away
    rw [if_pos hex] at hstep
    refine ⟨_, field, none, parseIndexed_removed field h31 (hle.trans (Nat.le_add_left _ _)) hdec hex,
      ⟨h.holds, fun i hi => ?_, fun i hi => ?_⟩, ?_, hf, rfl, rfl⟩
    · exact h.refs i ((exists_tableSetRemove _ _ _ _).mp hi).2
    · obtain ⟨hne, hi⟩ := (exists_tableSetRemove _ _ _ _).mp hi
      exact (exists_tableSetRemove _ _ _ _).mpr ⟨hne, h.pending i hi⟩
    · rw [hstep, ← state_toggle (show ctx.table.numHeaders - num < ctx.table.numHeaders by omega) (by omega)]
      · rfl
      · rw [← hslot]
        simp only [Context.row, Row.toggle, hex, Bool.not_true, Row.mk.injEq, true_and]
        refine ⟨?_, ?_⟩ <;> rw [← Bool.not_eq_true, exists_tableSetRemove] <;> exact fun hi => hi.1 rfl
      · intro i hi
        rw [← hslot] at hi
        exact row_congr rfl ((exists_tableSetRemove _ _ _ _).trans (and_iff_right hi))
          ((exists_tableSetRemove _ _ _ _).trans (and_iff_right hi))
  · -- the reference is made
    rw [if_neg hex] at hstep
    rw [Bool.not_eq_true] at hex
    refine ⟨_, _, some (ctx.indexed num).pair, parseIndexed_dynamic h field h31 h1 hle hdec hex (hok.inPlace hle hex),
      ⟨h.holds, fun i hi => ?_, fun i hi => ?_⟩, ?_, ?_, rfl, rfl⟩
    · rcases (exists_tableSetAdd _ _ _ _).mp hi with rfl | hi
      · exact hlive
      · exact h.refs i hi
    · exact (exists_tableSetAdd _ _ _ _).mpr (.inr (h.pending i ((exists_tableSetRemove _ _ _ _).mp hi).2))
    · rw [hstep, ← state_toggle (show ctx.table.numHeaders - num < ctx.table.numHeaders by omega) (by omega)]
      · rfl
      · rw [← hslot]
        simp only [Context.row, Row.toggle, hex, Bool.not_false, Row.mk.injEq, true_and]
        refine ⟨(exists_tableSetAdd _ _ _ _).mpr (.inl rfl), ?_⟩
        rw [← Bool.not_eq_true, exists_tableSetRemove]
        exact fun hi => hi.1 rfl
      · intro i hi
        rw [← hslot] at hi
        exact row_congr rfl ((exists_tableSetAdd _ _ _ _).trans (or_iff_right hi))
          ((exists_tableSetRemove _ _ _ _).trans (and_iff_right hi))
    · rw [append_pair hf, Option.getD_some, Context.indexed, if_pos hle]

/-- An index of a static entry. -/
theorem Context.Inv.indexed_static (h : ctx.Inv es) (hf : field.pair = ([], [])) (h31 : n < 2 ^ 31)
    (hlt : ctx.table.numHeaders < num) (hle : num ≤ 61 + ctx.table.numHeaders)
    (hdec : hpackIntegerDecode 7 (buf.mem n) (buf.rest n) 0 = (.ok, num, con)) (hok : IndexOk ctx num) :
    ∃ ctx' f p, parseIndexed buf n ctx field = .ok (.ok, ctx', f, con) ∧ (∃ es', ctx'.Inv es') ∧
      ctx.state.step staticPairs 4096 (.indexed num) = some (ctx'.state, p) ∧ f.pair = p.getD ([], []) ∧
      ctx'.iterNotEmitted = ctx.iterNotEmitted ∧ ctx'.finished = ctx.finished := by
  have hnum := h.holds.num
  have hlen := h.holds.length_le
  have hmod : num % 2 ^ 16 = num := Nat.mod_eq_of_lt (by omega)
  obtain ⟨hex, hfits⟩ := hok.static hlt hle
  have hindexed : ctx.indexed num = ctx.static num := if_neg (not_le.mpr hlt)
  obtain ⟨hentry, haddok⟩ := addOk_static hlt hle hfits { field with flags := { field.flags with rep := .repIndexed } }
    (Prod.mk.inj hf)
  obtain ⟨ctx', heq, hinv, hstate, hiter, hfin⟩ := h.insert_state haddok (by rw [hentry]; exact hfits.1)
  have hpair : (HeaderField.append { field with flags := { field.flags with rep := .repIndexed } }
      (ctx.static num) false).pair = (ctx.indexed num).pair := by
    have hflags : ({ field with flags := { field.flags with rep := .repIndexed } } : HeaderField).pair = ([], []) := hf
    rw [hindexed, append_pair hflags]
  rw [Context.static] at heq
  refine ⟨ctx'.reference, _, some (ctx.indexed num).pair, ?_, hinv, ?_, hpair, hiter, hfin⟩
  · rw [parseIndexed, if_neg (by omega), hdec]
    simp only [ne_eq, not_true_eq_false, if_false, if_neg (show ¬ 61 + ctx.table.numHeaders < num by omega),
      hpackHeaderTableSetExists, hex, Bool.false_eq_true]
    rw [hpackHeaderTableGet_static (by rwa [hmod]) (by rwa [hmod]), hmod]
    simp only [ok_bind, not_true_eq_false, if_false, if_true, heq]
    rfl
  · rw [State.step, h.lookup (by omega) hle, Option.map_some, Context.state_rows_length, if_neg (by omega), hstate, hpair]

/-- **An index.** -/
theorem simulates_indexed (h : ctx.Inv es) (h31 : n < 2 ^ 31) (hc : buf.get n &&& 0x80 ≠ 0)
    (hint : IntegerAt 7 (buf.mem n) num con) (hread : Readable (buf.len - n) con) (hin : n + con ≤ buf.len)
    (hok : IndexOk ctx num) (field : HeaderField) :
    Simulates T buf n con ctx field (ctx.state.step staticPairs 4096 (.indexed num)) := by
  have hpos := hint.pos
  have hlt : n < buf.len := by omega
  have hlen := h.holds.length_le
  have hnum := h.holds.num
  have hclean := clean_pair field
  have hcall : hpackHeaderParserField T ctx buf n field = _ := parserField_indexed hlt.ne (indexed_octet _ hc) hc
  by_cases hbig : 61 + ctx.table.numHeaders < num
  · rw [State.step, Context.lookup_none hbig, Option.map_none]
    have hbig' : 61 + ({ ctx with finished := false } : Context).table.numHeaders < num := hbig
    exact ⟨.error, _, _, hcall.trans (parseIndexed_refused _ h31 hbig' hint), by decide, by decide⟩
  have hdec := decode_of_integerAt hlt.le hint (show num < 2 ^ 32 by omega) hread
  by_cases hdyn : num ≤ ctx.table.numHeaders
  · obtain ⟨ctx', f, p, heq, hinv, hstep, hpair, hiter, hfin⟩ := h.unfinished.indexed_row hclean h31 hok.pos hdyn hdec
      ⟨hok.pos, hok.inPlace, hok.static⟩
    rw [show ctx.state = ({ ctx with finished := false } : Context).state from rfl, hstep]
    exact ⟨ctx', f, hcall.trans heq, ⟨es, hinv⟩, rfl, hpair, hiter, hfin⟩
  · obtain ⟨ctx', f, p, heq, hinv, hstep, hpair, hiter, hfin⟩ := h.unfinished.indexed_static hclean h31
      (not_le.mp hdyn) (not_lt.mp hbig) hdec ⟨hok.pos, hok.inPlace, hok.static⟩
    rw [show ctx.state = ({ ctx with finished := false } : Context).state from rfl, hstep]
    exact ⟨ctx', f, hcall.trans heq, hinv, rfl, hpair, hiter, hfin⟩

/-- The first octet of a size update. -/
theorem resize_octet : ∀ c : UInt8, c &&& 0xF0 = 0x20 → c &&& 0xE0 = 0x20 ∧ c ≠ 0x30 := forall_octet (by decide +kernel)

/-- **A size update.** -/
theorem simulates_resize (h : ctx.Inv es) (hc : buf.get n &&& 0xF0 = 0x20) (hint : IntegerAt 4 (buf.mem n) num con)
    (hread : Readable (buf.len - n) con) (hin : n + con ≤ buf.len) (hok : ResizeOk ctx num) (field : HeaderField) :
    Simulates T buf n con ctx field (ctx.state.step staticPairs 4096 (.resize num)) := by
  have hpos := hint.pos
  have hlt : n < buf.len := by omega
  obtain ⟨hE0, h30⟩ := resize_octet _ hc
  have hcall : hpackHeaderParserField T ctx buf n field = _ := parserField_update hlt.ne hE0
  rw [State.step]
  split_ifs with hle
  · have hdec := decode_of_integerAt hlt.le hint (show num < 2 ^ 32 by omega) hread
    obtain ⟨ctx', heq, hinv, hstate, hiter, hfin⟩ := h.unfinished.resize_state h30 hle hdec
      ⟨hok.evictions, hok.zero, hok.large⟩
    rw [heq] at hcall
    exact ⟨ctx', _, hcall, hinv, hstate, clean_pair field, hiter, hfin⟩
  · obtain ⟨ctx', heq, -⟩ := parseContextUpdate_refused { ctx with finished := false } h30 hint fun hdec =>
      (hok.large (not_le.mp hle)).resolve_right (not_le.mpr (hpackIntegerDecode_ok_iff.mp hdec).2.1)
    rw [heq] at hcall
    exact ⟨.error, ctx', _, hcall, by decide, by decide⟩

/-- **All references are taken away.** -/
theorem simulates_forget (h : ctx.Inv es) (hc : buf.get n = 0x30) (hlt : n < buf.len) (field : HeaderField) :
    Simulates T buf n 1 ctx field (ctx.state.step staticPairs 4096 .forget) := by
  have hcall : hpackHeaderParserField T ctx buf n field = _ := parserField_update hlt.ne (by rw [hc]; decide)
  rw [parseContextUpdate, if_pos hc] at hcall
  refine ⟨_, _, hcall, ⟨es, h.holds, fun i hi => ?_, fun i hi => ?_⟩, ?_, clean_pair field, rfl, rfl⟩
  · simp at hi
  · simp at hi
  · simp [Context.state, Context.row, Row.forget]

/-- **A literal field** whose name and value are parsed. -/
theorem simulates_pair (h : ctx.Inv es) (hlt : n < buf.len)
    (hc : buf.get n &&& 0xC0 = 0x40 ∨ buf.get n &&& 0xE0 = 0)
    (hpair : parseHeaderPair T buf n ctx.table (hpackHeaderFieldClean field) = .ok (.ok, f, con)) (hf : f.pair = p)
    (hok : decide (buf.get n &&& 0xC0 = 0x40) = true → InsertOk ctx.table p) :
    Simulates T buf n con ctx field
      (some (if decide (buf.get n &&& 0xC0 = 0x40) then ctx.state.insert p else ctx.state, some p)) := by
  obtain ⟨-, hup, hidx⟩ := literal_octet _ hc
  have hcall : hpackHeaderParserField T ctx buf n field = _ := parserField_literal hlt.ne hup hidx
  rw [hpair] at hcall
  simp only [ok_bind, ne_eq, not_true_eq_false, if_false] at hcall
  by_cases hform : buf.get n &&& 0xC0 = 0x40
  · have hflags : ({ f with flags := { f.flags with rep := .repIncIndexed } } : HeaderField).pair = p := hf
    obtain ⟨ctx', added, heq, ctx'', hctx, hinv, hstate, hiter, hfin⟩ := h.unfinished.add_state hflags
      (hok (decide_eq_true hform))
    rw [if_pos hform, heq] at hcall
    rw [decide_eq_true hform, if_pos rfl]
    refine ⟨ctx'', _, ?_, hinv, hstate, hflags, hiter, hfin⟩
    rw [hcall, ← hctx]
    cases added <;> rfl
  · rw [if_neg hform] at hcall
    rw [decide_eq_false hform]
    exact ⟨_, _, hcall, ⟨es, h.unfinished⟩, rfl, hf, rfl, rfl⟩

/-- A name whose index is beyond the tables, or is not decoded. -/
theorem parseHeaderName_beyond {table : HeaderTable} (hc : buf.get n &&& 0xC0 = 0x40 ∨ buf.get n &&& 0xE0 = 0)
    (hlow : buf.get n &&& 0x0F ≠ 0) (hint : IntegerAt (literalPrefix (buf.get n)) (buf.mem n) num con)
    (hbig : hpackIntegerDecode (literalPrefix (buf.get n)) (buf.mem n) (buf.rest n) 0 = (.ok, num, con) →
      61 + table.numHeaders < num % 2 ^ 16) (field : HeaderField) :
    ∃ ret f m, parseHeaderName T buf n table field = .ok (ret, f, m) ∧ ret ≠ .ok ∧ ret ≠ .eof := by
  simp only [parseHeaderName, if_pos hlow, (literal_octet _ hc).1]
  rcases decode_or_error hint with hdec | ⟨v, hdec⟩
  · rw [hdec]
    simp only [ne_eq, not_true_eq_false, if_false, hpackHeaderTableGet_notFound (hbig hdec), ok_bind]
    exact ⟨_, _, _, rfl, by decide, by decide⟩
  · rw [hdec]
    exact ⟨_, _, _, rfl, by decide, by decide⟩

/-- **A literal field with the name of an entry.** -/
theorem simulates_indexedName {value : List UInt8} {c : ℕ} (h : ctx.Inv es)
    (hc : buf.get n &&& 0xC0 = 0x40 ∨ buf.get n &&& 0xE0 = 0)
    (hint : IntegerAt (literalPrefix (buf.get n)) (buf.mem n) num con) (h1 : 1 ≤ num)
    (hread : Readable (buf.len - n) con) (hvalue : StringAt T buf (n + con) value c)
    (hok : InstrOk ctx (.literal (decide (buf.get n &&& 0xC0 = 0x40)) (.index num) value)) (field : HeaderField) :
    Simulates T buf n (con + c) ctx field (ctx.state.step staticPairs 4096
      (.literal (decide (buf.get n &&& 0xC0 = 0x40)) (.index num) value)) := by
  obtain ⟨hname, hinsert⟩ := hok
  have hname := hname num rfl
  have hle := hvalue.le_len
  have hpos := hint.pos
  have hlt : n < buf.len := by omega
  have hlen := h.holds.length_le
  have hnum := h.holds.num
  have hlow : buf.get n &&& 0x0F ≠ 0 := fun h0 =>
    ((newName_iff hc hint).mp h0).elim (by omega) fun hform => hname.form (decide_eq_true hform.1) hform.2
  by_cases hbig : 61 + ctx.table.numHeaders < num
  · rw [State.step, State.resolve, Context.lookup_none hbig]
    obtain ⟨ret, f, m, heq, hok, heof⟩ := parseHeaderName_beyond (T := T) hc hlow hint
      (fun hdec => (hname.beyond hbig).resolve_right (not_le.mpr (hpackIntegerDecode_ok_iff.mp hdec).2.1))
      (hpackHeaderFieldClean field)
    obtain ⟨-, hup, hidx⟩ := literal_octet _ hc
    refine ⟨ret, { ctx with finished := false }, f, ?_, hok, heof⟩
    rw [parserField_literal hlt.ne hup hidx, parseHeaderPair, heq]
    simp only [ok_bind, if_pos hok, pure_bind]
    rfl
  · have hlookup : ctx.state.resolve staticPairs (.index num) = some (ctx.indexed num).name := by
      rw [State.resolve, h.lookup h1 (not_lt.mp hbig)]
      rfl
    obtain ⟨f1, heq1, hbytes1, hval1⟩ := parseHeaderName_indexed T h (hpackHeaderFieldClean field) hc hlow (by omega) h1
      (not_lt.mp hbig) (decode_of_integerAt hlt.le hint (show num < 2 ^ 32 by omega) hread) hname.inPlace
    obtain ⟨f2, heq2, hname2, hbytes2⟩ := parseHeaderPair_ok T (by omega) heq1 hvalue
    have hpair : f2.pair = ((ctx.indexed num).name, value) := by
      obtain ⟨hn, hv⟩ := Prod.mk.inj (clean_pair field)
      rw [HeaderField.pair, hname2, hbytes1, hn, hbytes2, hval1, hv, List.nil_append, List.nil_append]
    rw [show n + con + c - n = con + c by omega] at heq2
    rw [State.step, hlookup, Option.map_some]
    exact simulates_pair h hlt hc heq2 hpair fun hform => hinsert hform _ hlookup

/-- **A literal field with a new name.** -/
theorem simulates_newName {name value : List UInt8} {c1 c2 : ℕ} (h : ctx.Inv es)
    (hc : buf.get n &&& 0xC0 = 0x40 ∨ buf.get n &&& 0xE0 = 0)
    (hint : IntegerAt (literalPrefix (buf.get n)) (buf.mem n) 0 1) (hname : StringAt T buf (n + 1) name c1)
    (hvalue : StringAt T buf (n + 1 + c1) value c2)
    (hok : InstrOk ctx (.literal (decide (buf.get n &&& 0xC0 = 0x40)) (.new name) value)) (field : HeaderField) :
    Simulates T buf n (1 + c1 + c2) ctx field (ctx.state.step staticPairs 4096
      (.literal (decide (buf.get n &&& 0xC0 = 0x40)) (.new name) value)) := by
  have hle := hvalue.le_len
  have hlt : n < buf.len := by omega
  obtain ⟨f1, heq1, hbytes1, hval1⟩ := parseHeaderName_new T ctx.table (hpackHeaderFieldClean field)
    ((newName_iff hc hint).mpr (.inl rfl)) hname
  obtain ⟨f2, heq2, hname2, hbytes2⟩ := parseHeaderPair_ok T (by omega) heq1 hvalue
  have hpair : f2.pair = (name, value) := by
    obtain ⟨hn, hv⟩ := Prod.mk.inj (clean_pair field)
    rw [HeaderField.pair, hname2, hbytes1, hn, hbytes2, hval1, hv, List.nil_append, List.nil_append]
  rw [show n + 1 + c1 + c2 - n = 1 + c1 + c2 by omega] at heq2
  rw [State.step, State.resolve, Option.map_some]
  exact simulates_pair h hlt hc heq2 hpair fun hform => hok.2 hform _ rfl

/-- **A call is the step of its instruction**, and fails when there is no step. -/
theorem simulates {i : Instr} (h : ctx.Inv es) (h31 : n < 2 ^ 31) (hspells : Spells T buf n i con) (hok : InstrOk ctx i)
    (field : HeaderField) : Simulates T buf n con ctx field (ctx.state.step staticPairs 4096 i) := by
  cases hspells with
  | resize hc hint hread hin => exact simulates_resize h hc hint hread hin hok field
  | forget hc hin => exact simulates_forget h hc hin field
  | indexed hc hint hread hin => exact simulates_indexed h h31 hc hint hread hin hok field
  | newName hc hint hname hvalue => exact simulates_newName h hc hint hname hvalue hok field
  | indexedName hc hint hk hread hvalue => exact simulates_indexedName h hc hint hk hread hvalue hok field

end LibHpack
