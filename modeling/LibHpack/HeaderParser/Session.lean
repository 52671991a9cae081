import LibHpack.HeaderParser.Step
import LibHpack.HeaderParser.Progress

/-!
# LibHpack.HeaderParser.Session — whole header blocks, one after the other

A block is decoded by calls of `hpack_header_parser_field` from offset 0 on, until one returns `ret_eof`
(`decodeBlock`).  The calls at the end of the block return the references that no call before touched
(`Context.Touches`): `refNotEmitted` is the set of these, and the iterator goes through it.  Between two blocks it is
the reference set again (`Context.Ready`).
-/

namespace LibHpack

open LibHpack.Run

variable (T : HuffmanTables)

/-! ### Blocks -/

/-- The calls from `offset` on: the last result, the context, and the fields returned at the end of the block. -/
def decodeLoop (buf : Option Block) : ℕ → Context → HeaderField → ℕ → C (Ret × Context × List HeaderField)
  | 0, _, _, _ => .error .hang
  | fuel + 1, ctx, field, offset => do
    let (ret, ctx, field, con) ← hpackHeaderParserField T ctx buf offset field
    if ret ≠ .ok then return (ret, ctx, [])
    else
      let (ret, ctx, fields) ← decodeLoop buf fuel ctx field (offset + con)
      return (ret, ctx, if offset = blockLen buf then field :: fields else fields)

/-- A call before the end of the block consumes at least one octet, one at its end moves the iterator. -/
def decodeBlock (buf : Option Block) (ctx : Context) (field : HeaderField) : C (Ret × Context × List HeaderField) :=
  decodeLoop T buf (blockLen buf + 130) ctx field 0

/-- The call at `offset` emits the entry in slot `i`: it is an index of that entry, which is no reference. -/
def Context.Emits (ctx : Context) (buf : Block) (offset i : ℕ) : Prop :=
  buf.get offset &&& 0x80 ≠ 0 ∧ hpackSetExists ctx.referenceSet i = false ∧
    ∃ num con, hpackIntegerDecode 7 (buf.mem offset) (buf.rest offset) 0 = (.ok, num, con) ∧ 1 ≤ num ∧
      num ≤ ctx.table.numHeaders ∧ i = indexSwitchHtHpack ctx.table num

/-- The call at `offset` emits the entry in slot `i`, takes its reference away, or evicts it. -/
def Context.Touches (ctx : Context) (buf : Block) (offset : ℕ) (ctx' : Context) (i : ℕ) : Prop :=
  ctx.Emits buf offset i ∨ ¬ hpackSetExists ctx'.referenceSet i = true ∨ ¬ Survives ctx.table ctx'.table i

/-- Some call before the end of the block does. -/
def Touched (buf : Block) : ℕ → Context → HeaderField → ℕ → ℕ → Prop
  | 0, _, _, _, _ => False
  | fuel + 1, ctx, field, offset, i => offset ≠ buf.len ∧ ∃ ctx' field' con,
    hpackHeaderParserField T ctx buf offset field = .ok (.ok, ctx', field', con) ∧
      (ctx.Touches buf offset ctx' i ∨ Touched buf fuel ctx' field' (offset + con) i)

/-! ### Conditions -/

/-- The iterator does not miss a slot: it loses the second half of a word behind slot 30 without 31, and slot 63 of a
word behind 62. -/
def Iterable (s : HpackSet) : Prop :=
  ∀ w < 2, (hpackSetExists s (64 * w + 30) = true → hpackSetExists s (64 * w + 31) = false →
    ∀ j < 32, hpackSetExists s (64 * w + 32 + j) = false) ∧
    ¬ (hpackSetExists s (64 * w + 62) = true ∧ hpackSetExists s (64 * w + 63) = true)

/-- The condition on the end of a block: it is not the end of the last one, the iterator misses nothing, and the
entries are read in place. -/
structure EmissionOk (ctx : Context) : Prop where
  unfinished : ctx.finished = true → hpackSetIsEmpty ctx.refNotEmitted = true
  iterable : Iterable ctx.refNotEmitted
  inPlace : ∀ i < 128, hpackSetExists ctx.refNotEmitted i = true →
    ReadInPlace ctx.table (ctx.table.numHeaders - indexSwitchHtHpack ctx.table i)

/-- The condition on a well-formed block: every call before its end returns `ret_ok`. -/
def BlockOk (buf : Block) : ℕ → Context → HeaderField → ℕ → Prop
  | 0, _, _, _ => False
  | fuel + 1, ctx, field, offset =>
    if offset = buf.len then EmissionOk ctx
    else CallOk T ctx buf offset field ∧ ∃ r, hpackHeaderParserField T ctx buf offset field = .ok r ∧ r.1 = .ok ∧
      BlockOk buf fuel r.2.1 r.2.2.1 (offset + r.2.2.2)

instance (s : HpackSet) : Decidable (Iterable s) := by unfold Iterable; infer_instance

instance (ctx : Context) : Decidable (EmissionOk ctx) :=
  decidable_of_iff ((ctx.finished = true → hpackSetIsEmpty ctx.refNotEmitted = true) ∧ Iterable ctx.refNotEmitted ∧
      ∀ i < 128, hpackSetExists ctx.refNotEmitted i = true →
        ReadInPlace ctx.table (ctx.table.numHeaders - indexSwitchHtHpack ctx.table i))
    ⟨fun h => ⟨h.1, h.2.1, h.2.2⟩, fun h => ⟨h.unfinished, h.iterable, h.inPlace⟩⟩

instance decidableBlockOk (buf : Block) : ∀ (fuel : ℕ) (ctx : Context) (field : HeaderField) (offset : ℕ),
    Decidable (BlockOk T buf fuel ctx field offset)
  | 0, _, _, _ => .isFalse id
  | fuel + 1, ctx, field, offset =>
    have := decidableBlockOk buf fuel
    inferInstanceAs (Decidable (if offset = buf.len then EmissionOk ctx
      else CallOk T ctx buf offset field ∧ ∃ r, hpackHeaderParserField T ctx buf offset field = .ok r ∧ r.1 = .ok ∧
        BlockOk T buf fuel r.2.1 r.2.2.1 (offset + r.2.2.2)))

/-! ### The end of a block -/

/-- Each slot of the list is found from where the iterator is. -/
def NextFound : ℕ → List ℕ → Prop
  | _, [] => True
  | p, i :: slots => (p % 64 = 31 → i / 64 = p / 64 → i = p) ∧ (p % 64 = 63 → i ≠ p) ∧ NextFound (i + 1) slots

/-- The slots of an iterable set, in their order, are found one after the other. -/
theorem nextFound_of_iterable {s : HpackSet} (h : Iterable s) : ∀ (slots : List ℕ) (p : ℕ),
    slots.Pairwise (· < ·) → (∀ i, i ∈ slots ↔ hpackSetExists s i = true ∧ p ≤ i) →
    (p = 0 ∨ hpackSetExists s (p - 1) = true) → NextFound p slots := by
  intro slots
  induction slots with
  | nil => exact fun _ _ _ _ => trivial
  | cons i slots ih =>
    intro p hsorted hmem hp
    obtain ⟨hi, hpi⟩ := (hmem i).mp List.mem_cons_self
    have hlt := lt_of_exists hi
    have hfirst : ∀ j ∈ slots, i < j := (List.pairwise_cons.mp hsorted).1
    have hmin : ∀ j, hpackSetExists s j = true → p ≤ j → i ≤ j := fun j hj hpj => by
      rcases List.mem_cons.mp ((hmem j).mpr ⟨hj, hpj⟩) with rfl | hj'
      · exact le_rfl
      · exact (hfirst j hj').le
    obtain ⟨hhalf, hlast⟩ := h (i / 64) (by omega)
    refine ⟨fun h31 hword => ?_, fun h63 heq => ?_, ih (i + 1) hsorted.of_cons (fun j => ?_) (.inr hi)⟩
    · -- behind slot 30
      by_contra hne
      have hprev : hpackSetExists s (64 * (i / 64) + 30) = true := by
        rw [show 64 * (i / 64) + 30 = p - 1 by omega]
        exact hp.resolve_left (by omega)
      have hnext : hpackSetExists s (64 * (i / 64) + 31) = false := by
        rw [← Bool.not_eq_true]
        intro hnext
        have := hmin _ hnext (by omega)
        omega
      have hnone := hhalf hprev hnext (i % 64 - 32) (by omega)
      rw [show 64 * (i / 64) + 32 + (i % 64 - 32) = i by omega, hi] at hnone
      exact Bool.false_ne_true hnone.symm
    · -- behind slot 62
      subst heq
      refine hlast ⟨?_, ?_⟩
      · rw [show 64 * (i / 64) + 62 = i - 1 by omega]
        exact hp.resolve_left (by omega)
      · rw [show 64 * (i / 64) + 63 = i by omega]
        exact hi
    · constructor
      · intro hj
        have := (hmem j).mp (List.mem_cons_of_mem i hj)
        exact ⟨this.1, hfirst j hj⟩
      · rintro ⟨hj, hij⟩
        exact (List.mem_cons.mp ((hmem j).mpr ⟨hj, by omega⟩)).resolve_left (by omega)

section Emission

variable {ctx : Context} {es : List Entry} {buf : Block} {fuel p : ℕ}

def Entry.pair (e : Entry) : List UInt8 × List UInt8 := (e.name, e.value)

/-- **The next reference** is found, returned and taken out of the set. -/
theorem finalReferenceSetProcess_next (h : ctx.Inv es) (hfin : ctx.finished = false) {i : ℕ}
    (hi : hpackSetExists ctx.refNotEmitted i = true)
    (hnext : hpackSetIterNext ctx.refNotEmitted ctx.iterNotEmitted = (some i, iterAt (i + 1)))
    (hread : ReadInPlace ctx.table (ctx.table.numHeaders - indexSwitchHtHpack ctx.table i)) (field : HeaderField) :
    ∃ ctx' f, finalReferenceSetProcess ctx (hpackHeaderFieldClean field) = .ok (.ok, ctx', f) ∧
      f.pair = (ctx.table.slotEntry i).pair ∧ ctx'.Inv es ∧ ctx'.table = ctx.table ∧
      ctx'.referenceSet = ctx.referenceSet ∧ ctx'.finished = false ∧ ctx'.iterNotEmitted = iterAt (i + 1) ∧
      ∀ j, hpackSetExists ctx'.refNotEmitted j = true ↔ j ≠ i ∧ hpackSetExists ctx.refNotEmitted j = true := by
  obtain ⟨k, hk, rfl⟩ := h.holds.live_iff.mp (h.refs i (h.pending i hi))
  have hnum := h.holds.num
  have hidx := h.holds.indexSwitch_slot hk
  rw [hidx, hnum, show es.length - (es.length - k) = k by omega] at hread
  have hget := h.holds.get_eq hk false hread.1 (fun _ => hread) (hpackHeaderFieldClean field)
  have hentry : ctx.table.slotEntry (ctx.table.slot k) = es[k] := h.holds.entry_eq hk
  -- the index of the entry stands for its slot again
  have hback : indexSwitchHtHpack ctx.table (es.length - k) = ctx.table.slot k := by
    rw [h.holds.indexSwitch_index (Nat.sub_le _ _), show es.length - (es.length - k) = k by omega]
  have hremove : ∀ j, hpackSetExists (hpackHeaderTableSetRemove ctx.table ctx.refNotEmitted (es.length - k)) j = true ↔
      j ≠ ctx.table.slot k ∧ hpackSetExists ctx.refNotEmitted j = true := fun j => by
    rw [exists_tableSetRemove, hback]
  refine ⟨{ ctx with
    iterNotEmitted := iterAt (ctx.table.slot k + 1)
    refNotEmitted := hpackHeaderTableSetRemove ctx.table ctx.refNotEmitted (es.length - k) },
    (hpackHeaderFieldClean field).append es[k] false, ?_, ?_,
    ⟨h.holds, h.refs, fun j hj => h.pending j ((hremove j).mp hj).2⟩, rfl, rfl, hfin, rfl, hremove⟩
  · simp only [finalReferenceSetProcess, hfin, hpackHeaderTableIterNext, hnext, Option.map_some, hidx, hget,
      ok_bind, Bool.false_eq_true, if_false]
    rfl
  · simp [HeaderField.pair, Entry.pair, hentry, HeaderField.append, hpackHeaderFieldClean]

/-- **The end of a block**, with the references that are left in the order of their slots. -/
theorem decodeLoop_end (buf : Block) (slots : List ℕ) (h : ctx.Inv es) (hfin : ctx.finished = false)
    (hmem : ∀ i, i ∈ slots ↔ hpackSetExists ctx.refNotEmitted i = true) (hsorted : slots.Pairwise (· < ·))
    (hiter : ctx.iterNotEmitted = iterAt p) (hp : ∀ i ∈ slots, p ≤ i) (hfound : NextFound p slots)
    (hread : ∀ i ∈ slots, ReadInPlace ctx.table (ctx.table.numHeaders - indexSwitchHtHpack ctx.table i))
    (hfuel : slots.length < fuel) (field : HeaderField) :
    ∃ ctx' fs, decodeLoop T buf fuel ctx field buf.len = .ok (.eof, ctx', fs) ∧ ctx'.Inv es ∧
      ctx'.refNotEmitted = ctx'.referenceSet ∧ ctx'.iterNotEmitted = hpackSetIterInit ∧
      fs.map HeaderField.pair = slots.map fun i => (ctx.table.slotEntry i).pair := by
  induction slots generalizing ctx p fuel field with
  | nil =>
    obtain ⟨fuel, rfl⟩ := Nat.exists_eq_succ_of_ne_zero (Nat.ne_of_gt (Nat.zero_lt_of_lt hfuel))
    have hempty : ∀ i, ¬ hpackSetExists ctx.refNotEmitted i = true := fun i hi => List.not_mem_nil ((hmem i).mpr hi)
    rcases hnext : hpackSetIterNext ctx.refNotEmitted ctx.iterNotEmitted with ⟨r, it⟩
    have hnone := iterNext_none hempty ctx.iterNotEmitted
    rw [hnext] at hnone
    obtain rfl : r = none := hnone
    refine ⟨{ ctx with
      finished := true
      refNotEmitted := ctx.referenceSet
      iterNotEmitted := hpackSetIterReset }, [], ?_, ⟨h.holds, h.refs, fun i hi => hi⟩, rfl, rfl, rfl⟩
    simp only [decodeLoop, parserField_end rfl, finalReferenceSetProcess, hfin, hpackHeaderTableIterNext, hnext,
      Option.map_none, ok_bind, Bool.false_eq_true, if_false]
    rfl
  | cons i slots ih =>
    obtain ⟨fuel, rfl⟩ := Nat.exists_eq_succ_of_ne_zero (Nat.ne_of_gt (Nat.zero_lt_of_lt hfuel))
    obtain ⟨hfirst, hrest⟩ := List.pairwise_cons.mp hsorted
    have hi := (hmem i).mp List.mem_cons_self
    have hmin : ∀ j, hpackSetExists ctx.refNotEmitted j = true → i ≤ j := fun j hj => by
      rcases List.mem_cons.mp ((hmem j).mpr hj) with rfl | hj'
      · exact le_rfl
      · exact (hfirst j hj').le
    have hnext := iterNext_some hi hmin (hp i List.mem_cons_self) hfound.1 hfound.2.1
    obtain ⟨ctx1, f1, heq1, hpair1, hinv1, htable1, hrefs1, hfin1, hiter1, hmem1⟩ := finalReferenceSetProcess_next h hfin
      hi (hiter ▸ hnext) (hread i List.mem_cons_self) field
    have hmem' : ∀ j, j ∈ slots ↔ hpackSetExists ctx1.refNotEmitted j = true := fun j => by
      rw [hmem1, ← hmem j, List.mem_cons]
      have : j ∈ slots → j ≠ i := fun hj heq => absurd (hfirst j hj) (by omega)
      tauto
    obtain ⟨ctx', fs, heq, hinv', hready, hiter', hpairs⟩ := ih hinv1 hfin1 hmem' hrest hiter1
      (fun j hj => hfirst j hj) hfound.2.2
      (fun j hj => by rw [htable1]; exact hread j (List.mem_cons_of_mem i hj)) (by simpa using hfuel) f1
    refine ⟨ctx', f1 :: fs, ?_, hinv', hready, hiter', ?_⟩
    · simp only [decodeLoop, parserField_end rfl, heq1, ok_bind, ne_eq, not_true_eq_false, if_false, pure_bind,
        Nat.add_zero, heq, if_true]
      rfl
    · rw [List.map_cons, List.map_cons, hpairs, hpair1, htable1]

end Emission

/-! ### A whole block -/

/-- The context between two blocks. -/
structure Context.Ready (ctx : Context) : Prop where
  inv : ∃ es, ctx.Inv es
  pending : ctx.refNotEmitted = ctx.referenceSet
  iter : ctx.iterNotEmitted = hpackSetIterInit

/-- A fresh parser. -/
theorem Context.Ready.init (t0 : HeaderTable) : (hpackHeaderParserInit t0).Ready :=
  ⟨⟨[], Context.Inv.init t0⟩, rfl, rfl⟩

section Blocks

variable {ctx ctx' : Context} {es : List Entry} {buf : Block} {offset fuel con : ℕ} {field field' : HeaderField}

/-- **One call before the end**: the references to be emitted are those that it does not touch. -/
theorem pending_iff_touches (h : ctx.Inv es) (hoff : offset ≠ buf.len) (hok : CallOk T ctx buf offset field) {ret : Ret}
    (hr : hpackHeaderParserField T ctx buf offset field = .ok (ret, ctx', field', con)) (i : ℕ) :
    hpackSetExists ctx'.refNotEmitted i = true ↔
      hpackSetExists ctx.refNotEmitted i = true ∧ ¬ ctx.Touches buf offset ctx' i := by
  rw [(parserField_step T h hoff hok hr).pending i]
  constructor
  · rintro ⟨hi, href, hs⟩
    refine ⟨hi, ?_⟩
    rintro (⟨-, hnot, -⟩ | hnot | hnot)
    · exact Bool.false_ne_true (hnot.symm.trans (h.pending i hi))
    · exact hnot href
    · exact hnot hs
  · rintro ⟨hi, hnot⟩
    simp only [Context.Touches, not_or, not_not] at hnot
    exact ⟨hi, hnot.2⟩

/-- The slots of a set in their order. -/
theorem mem_slots (s : HpackSet) (i : ℕ) : i ∈ (List.range 128).filter (hpackSetExists s) ↔ hpackSetExists s i = true := by
  rw [List.mem_filter, List.mem_range]
  exact and_iff_right_of_imp lt_of_exists

/-- The slots that are touched from a call on. -/
theorem touched_succ {ctx1 : Context} {field1 : HeaderField} {con i : ℕ} (hend : offset ≠ buf.len)
    (hr : hpackHeaderParserField T ctx buf offset field = .ok (.ok, ctx1, field1, con)) :
    Touched T buf (fuel + 1) ctx field offset i ↔
      ctx.Touches buf offset ctx1 i ∨ Touched T buf fuel ctx1 field1 (offset + con) i := by
  constructor
  · rintro ⟨-, ctx2, field2, con2, hr2, ht⟩
    rw [hr] at hr2
    cases hr2
    exact ht
  · intro ht
    exact ⟨hend, ctx1, field1, con, hr, ht⟩

/-- **The calls at the end** return the references that are left, and then `ret_eof`. -/
theorem decodeLoop_emits_end (h : ctx.Inv es) (hiter : ctx.iterNotEmitted = hpackSetIterInit)
    (hfin : ctx.finished = true → ctx.refNotEmitted = ctx.referenceSet) (hok : EmissionOk ctx) (field : HeaderField) :
    ∃ ctx' fs, ∃ slots : List ℕ, decodeLoop T buf (fuel + 1 + 129) ctx field buf.len = .ok (.eof, ctx', fs) ∧ ctx'.Ready ∧
      slots.Nodup ∧ (∀ i, i ∈ slots ↔ hpackSetExists ctx.refNotEmitted i = true) ∧
      fs.map HeaderField.pair = slots.map fun i => (ctx.table.slotEntry i).pair := by
  by_cases hf : ctx.finished = true
  · -- the block is over already, and there are no references
    have hempty := isEmpty_iff.mp (hok.unfinished hf)
    refine ⟨ctx, [], [], ?_, ⟨⟨es, h⟩, hfin hf, hiter⟩, List.nodup_nil, fun i => ?_, rfl⟩
    · rw [show fuel + 1 + 129 = fuel + 129 + 1 by omega, decodeLoop, parserField_end rfl,
        finalReferenceSetProcess, if_pos hf]
      rfl
    · simp [hempty i]
  · have hlength := (List.length_filter_le (hpackSetExists ctx.refNotEmitted) (List.range 128)).trans_eq List.length_range
    have hsorted : ((List.range 128).filter (hpackSetExists ctx.refNotEmitted)).Pairwise (· < ·) :=
      List.pairwise_lt_range.filter _
    obtain ⟨ctx', fs, heq, hinv, hready, hiter', hpairs⟩ := decodeLoop_end T buf
      ((List.range 128).filter (hpackSetExists ctx.refNotEmitted)) h (Bool.not_eq_true _ ▸ hf) (mem_slots _) hsorted
      (p := 0) hiter (fun i _ => Nat.zero_le i)
      (nextFound_of_iterable hok.iterable _ 0 hsorted (fun i => by rw [mem_slots]; simp) (.inl rfl))
      (fun i hi => hok.inPlace i (List.mem_range.mp (List.mem_filter.mp hi).1) ((mem_slots _ i).mp hi))
      (hlength.trans_lt (show 128 < fuel + 1 + 129 by omega)) field
    exact ⟨ctx', fs, _, heq, ⟨⟨es, hinv⟩, hready, hiter'⟩, List.nodup_range.filter _, mem_slots _, hpairs⟩

/-- **The calls from an offset on** return `ret_eof` after the references that none of them touches. -/
theorem decodeLoop_emits (h : ctx.Inv es) (hiter : ctx.iterNotEmitted = hpackSetIterInit)
    (hfin : ctx.finished = true → ctx.refNotEmitted = ctx.referenceSet) (hoff : offset ≤ buf.len)
    (hok : BlockOk T buf fuel ctx field offset) :
    ∃ ctx' fs, ∃ slots : List ℕ, decodeLoop T buf (fuel + 129) ctx field offset = .ok (.eof, ctx', fs) ∧ ctx'.Ready ∧
      slots.Nodup ∧
      (∀ i, i ∈ slots ↔ hpackSetExists ctx.refNotEmitted i = true ∧ ¬ Touched T buf fuel ctx field offset i) ∧
      fs.map HeaderField.pair = slots.map fun i => (ctx.table.slotEntry i).pair := by
  induction fuel generalizing ctx es field offset with
  | zero => exact hok.elim
  | succ fuel ih =>
    rw [BlockOk] at hok
    by_cases hend : offset = buf.len
    · subst hend
      rw [if_pos rfl] at hok
      have huntouched : ∀ i, ¬ Touched T buf (fuel + 1) ctx field buf.len i := fun i ht => ht.1 rfl
      obtain ⟨ctx', fs, slots, heq, hready, hnodup, hmem, hpairs⟩ := decodeLoop_emits_end T h hiter hfin hok field
      exact ⟨ctx', fs, slots, heq, hready, hnodup, fun i => (hmem i).trans (and_iff_left (huntouched i)).symm, hpairs⟩
    rw [if_neg hend] at hok
    obtain ⟨hcall, ⟨ret, ctx1, field1, con⟩, hr, hret, hrest⟩ := hok
    obtain rfl : ret = .ok := hret
    have hstep := parserField_step T h hend hcall hr
    obtain ⟨hpos, hle⟩ := parserField_progress (by omega) hr
    obtain ⟨es1, hinv1⟩ := hstep.inv
    obtain ⟨ctx', fs, slots, heq, hready, hnodup, hmem, hpairs⟩ := ih hinv1 (hstep.iter.trans hiter)
      (fun hf => absurd (hstep.finished.symm.trans hf) Bool.false_ne_true) hle hrest
    refine ⟨ctx', fs, slots, ?_, hready, hnodup, ?_, ?_⟩
    · rw [show fuel + 1 + 129 = fuel + 129 + 1 by omega, decodeLoop, hr]
      simp only [ok_bind, ne_eq, not_true_eq_false, if_false, heq, if_neg hend]
      rfl
    · intro i
      rw [hmem, pending_iff_touches T h hend hcall hr, touched_succ T hend hr, not_or, and_assoc]
    · -- an entry that is not touched is where it was
      rw [hpairs]
      apply List.map_congr_left
      intro i hi
      have hs := ((hstep.pending i).mp ((hmem i).mp hi).1).2.2.2
      rw [hs]

end Blocks

/-! ### Sessions -/

/-- One block, with the field that the caller passes. -/
def sessionStep (ctx : Context) (block : Option Block × HeaderField) : C Context := do
  let (_, ctx', _) ← decodeBlock T block.1 ctx block.2
  return ctx'

/-- The blocks of a session have memory, and meet their conditions. -/
def SessionOk (t0 : HeaderTable) (blocks : List (Option Block × HeaderField)) : Prop :=
  Meets (sessionStep T) (fun ctx block => ∃ buf ∈ block.1, BlockOk T buf (buf.len + 1) ctx block.2 0)
    (hpackHeaderParserInit t0) blocks

instance (t0 : HeaderTable) (blocks : List (Option Block × HeaderField)) : Decidable (SessionOk T t0 blocks) := by
  unfold SessionOk; infer_instance

def sessionRun (t0 : HeaderTable) (blocks : List (Option Block × HeaderField)) : C Context :=
  run (sessionStep T) (hpackHeaderParserInit t0) blocks

theorem decodeBlock_emits {ctx : Context} {buf : Block} {field : HeaderField} (h : ctx.Ready)
    (hok : BlockOk T buf (buf.len + 1) ctx field 0) :
    ∃ ctx' fs, ∃ slots : List ℕ, decodeBlock T buf ctx field = .ok (.eof, ctx', fs) ∧ ctx'.Ready ∧ slots.Nodup ∧
      (∀ i, i ∈ slots ↔ hpackSetExists ctx.referenceSet i = true ∧ ¬ Touched T buf (buf.len + 1) ctx field 0 i) ∧
      fs.map HeaderField.pair = slots.map fun i => (ctx.table.slotEntry i).pair := by
  obtain ⟨⟨es, hinv⟩, hpending, hiter⟩ := h
  rw [← hpending]
  exact decodeLoop_emits T hinv hiter (fun _ => hpending) (Nat.zero_le _) hok

theorem sessionRun_ready {t0 : HeaderTable} {blocks : List (Option Block × HeaderField)} (hok : SessionOk T t0 blocks) :
    ∃ ctx, sessionRun T t0 blocks = .ok ctx ∧ ctx.Ready := by
  refine run_total (I := Context.Ready) (fun ctx block h hblock => ?_) blocks _ (Context.Ready.init t0) hok
  obtain ⟨buf, hbuf, hok⟩ := hblock
  obtain ⟨ctx', fs, slots, heq, hready, -⟩ := decodeBlock_emits T h hok
  exact ⟨ctx', by rw [sessionStep, hbuf, heq]; rfl, hready⟩

/-- **The references that a block does not touch are returned at its end, once each**, in every session. -/
theorem session_emission (t0 : HeaderTable) (blocks : List (Option Block × HeaderField)) (block : Option Block)
    (field : HeaderField) (hok : SessionOk T t0 (blocks ++ [(block, field)])) :
    ∃ buf ctx, block = some buf ∧ sessionRun T t0 blocks = .ok ctx ∧
      ∃ ctx' fs, ∃ slots : List ℕ, decodeBlock T buf ctx field = .ok (.eof, ctx', fs) ∧ slots.Nodup ∧
        (∀ i, i ∈ slots ↔ hpackSetExists ctx.referenceSet i = true ∧ ¬ Touched T buf (buf.len + 1) ctx field 0 i) ∧
        fs.map HeaderField.pair = slots.map fun i => (ctx.table.slotEntry i).pair := by
  obtain ⟨hblocks, hlast⟩ := meets_concat.mp hok
  obtain ⟨ctx, hrun, hready⟩ := sessionRun_ready T hblocks
  obtain ⟨buf, hbuf, hblock⟩ := hlast ctx hrun
  obtain ⟨ctx', fs, slots, heq, -, hrest⟩ := decodeBlock_emits T hready hblock
  exact ⟨buf, ctx, hbuf, hrun, ctx', fs, slots, heq, hrest⟩

/-- The static entries `:method: GET` and `:path: /`. -/
def requestBlock : Block := ⟨[0x82, 0x85], 0, by decide⟩

/-- The first entry, which is index 2 now, is removed, and the static entry `:scheme: http` added. -/
def schemeBlock : Block := ⟨[0x82, 0x88], 0, by decide⟩

theorem session_emission_path :
    ∃ buf ctx, some schemeBlock = some buf ∧
      sessionRun noTables zeroTable [(some requestBlock, hpackHeaderFieldInit)] = .ok ctx ∧
      ∃ ctx' fs, ∃ slots : List ℕ, decodeBlock noTables buf ctx hpackHeaderFieldInit = .ok (.eof, ctx', fs) ∧
        slots.Nodup ∧
        (∀ i, i ∈ slots ↔ hpackSetExists ctx.referenceSet i = true ∧
          ¬ Touched noTables buf (buf.len + 1) ctx hpackHeaderFieldInit 0 i) ∧
        fs.map HeaderField.pair = slots.map fun i => (ctx.table.slotEntry i).pair :=
  session_emission noTables zeroTable [(some requestBlock, hpackHeaderFieldInit)] schemeBlock hpackHeaderFieldInit
    (by decide +kernel)

/-- `:method: GET`, and a block without octets. -/
def methodBlock : Block := ⟨[0x82], 0, by decide⟩

def emptyBlock : Block := ⟨[], 0, by decide⟩

/-- A block without octets behind a finished one: nothing is returned.  One without memory is read all the same. -/
theorem session_emission_skipped :
    ∃ ctx, sessionRun noTables zeroTable [(some methodBlock, hpackHeaderFieldInit)] = .ok ctx ∧
      hpackSetExists ctx.referenceSet 0 = true ∧
      ¬ Touched noTables emptyBlock 1 ctx hpackHeaderFieldInit 0 0 ∧
      (∃ ctx', decodeBlock noTables emptyBlock ctx hpackHeaderFieldInit = .ok (.eof, ctx', [])) ∧
      decodeBlock noTables none ctx hpackHeaderFieldInit = .error .overread := by
  obtain ⟨ctx, hrun, href, ⟨ret, ctx', fs⟩, heq, rfl, rfl⟩ : ∃ ctx,
      sessionRun noTables zeroTable [(some methodBlock, hpackHeaderFieldInit)] = .ok ctx ∧
        hpackSetExists ctx.referenceSet 0 = true ∧
        ∃ r, decodeBlock noTables emptyBlock ctx hpackHeaderFieldInit = .ok r ∧ r.1 = .eof ∧
          r.2.2 = [] := by decide
  exact ⟨ctx, hrun, href, fun ht => ht.1 rfl, ⟨ctx', heq⟩, rfl⟩

end LibHpack
