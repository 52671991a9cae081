import LibHpack.HeaderParser.Progress
import LibHpack.HeaderParser.Outcome

/-!
# LibHpack.HeaderParser.Termination — the loop of hpack_header_parser_all

A call in the middle of a block moves the offset, and one at its end moves the iterator (`parserField_end`), which has
128 places to go to; so the loop ends if its calls do.  The calls that do not are in an eviction loop of the header
table.  Along the loop, that is said of the operations that it makes (`LoopOps`).
-/

namespace LibHpack

open LibHpack.Run

variable (T : HuffmanTables)

/-! ### The operations of the loop -/

/-- All operations of the header table that the loop of `hpack_header_parser_all` makes satisfy `P`. -/
def LoopOps (P : HeaderTable → TableOp → Prop) (buf : Block) : ℕ → Context → ℕ → HeaderField → Prop
  | 0, _, _, _ => True
  | fuel + 1, ctx, offset, field => (∀ op ∈ callTableOp T ctx buf offset field, P ctx.table op) ∧
    ∀ r, hpackHeaderParserField T ctx buf offset field = .ok r → r.1 = .ok →
      LoopOps P buf fuel r.2.1 ((offset + r.2.2.2) % 2 ^ 32) r.2.2.1

/-- An add that returns. -/
def AddReturns (t : HeaderTable) : TableOp → Prop
  | .add field => hpackHeaderTableAdd t field ≠ .error .hang
  | .setMax _ => True
  | .clear => True

/-- A size update that does not find `used_data` above the new maximum when the table is empty. -/
def NotDrained (t : HeaderTable) : TableOp → Prop
  | .add _ => True
  | .setMax max => ¬ SetMaxDrains t max
  | .clear => True

/-- They satisfy it along the loop that `hpack_header_parser_all` enters. -/
def ParserAllOps (P : HeaderTable → TableOp → Prop) (ctx : Context) (buf : Block) (offset : ℕ) : Prop :=
  LoopOps T P buf (buf.len - offset + 130) ctx offset hpackHeaderFieldInit

instance decidableAddReturns (t : HeaderTable) : ∀ op, Decidable (AddReturns t op)
  | .add field => inferInstanceAs (Decidable (¬ hpackHeaderTableAdd t field = .error .hang))
  | .setMax _ => .isTrue trivial
  | .clear => .isTrue trivial

instance decidableNotDrained (t : HeaderTable) : ∀ op, Decidable (NotDrained t op)
  | .add _ => .isTrue trivial
  | .setMax max => inferInstanceAs (Decidable (¬ SetMaxDrains t max))
  | .clear => .isTrue trivial

instance decidableLoopOps (P : HeaderTable → TableOp → Prop) [∀ t op, Decidable (P t op)] (buf : Block) :
    ∀ (fuel : ℕ) (ctx : Context) (offset : ℕ) (field : HeaderField), Decidable (LoopOps T P buf fuel ctx offset field)
  | 0, _, _, _ => .isTrue trivial
  | fuel + 1, ctx, offset, field =>
    have := decidableLoopOps P buf fuel
    inferInstanceAs (Decidable ((∀ op ∈ callTableOp T ctx buf offset field, P ctx.table op) ∧
      ∀ r, hpackHeaderParserField T ctx buf offset field = .ok r → r.1 = .ok →
        LoopOps T P buf fuel r.2.1 ((offset + r.2.2.2) % 2 ^ 32) r.2.2.1))

instance (P : HeaderTable → TableOp → Prop) [∀ t op, Decidable (P t op)] (ctx : Context) (buf : Block) (offset : ℕ) :
    Decidable (ParserAllOps T P ctx buf offset) := by unfold ParserAllOps; infer_instance

section Loop

variable {T} {ctx ctx' : Context} {buf : Block} {offset con fuel consumed : ℕ} {field field' : HeaderField} {ret : Ret}
variable {store : Option (List HeaderField)}

/-- **A call at the end of a block** that returns a field moves the iterator; another one starts it again. -/
theorem parserField_end_iter (hiter : ctx.iterNotEmitted.Ok)
    (hr : hpackHeaderParserField T ctx buf buf.len field = .ok (ret, ctx', field', con)) :
    con = 0 ∧ ctx'.iterNotEmitted.Ok ∧ (ret = .eof ∨ ctx.iterNotEmitted.pos < ctx'.iterNotEmitted.pos) := by
  rw [parserField_end rfl] at hr
  obtain ⟨⟨ret1, ctx1, f1⟩, hfinal, hr⟩ := bind_eq_ok hr
  cases hr
  unfold finalReferenceSetProcess hpackHeaderTableIterNext at hfinal
  split_ifs at hfinal with hfin
  · cases hfinal
    exact ⟨rfl, hiter, .inl rfl⟩
  · rcases hnext : hpackSetIterNext ctx.refNotEmitted ctx.iterNotEmitted with ⟨_ | i, iter⟩ <;> rw [hnext] at hfinal
    · cases hfinal
      exact ⟨rfl, ⟨Nat.succ_pos 63, Nat.zero_le 128⟩, .inl rfl⟩
    · obtain ⟨⟨ret2, f2, isStatic⟩, -, hfinal⟩ := bind_eq_ok hfinal
      cases hfinal
      obtain ⟨hlt, hok⟩ := iterNext_pos hiter hnext
      exact ⟨rfl, hok, .inr hlt⟩

/-- The iterator is before a slot, or behind all of them, after every run. -/
theorem parserRun_iter {t0 : HeaderTable} {calls : List ParserCall} (hrun : parserRun T t0 calls = .ok ctx) :
    ctx.iterNotEmitted.Ok := by
  refine run_preserves (I := fun ctx => ctx.iterNotEmitted.Ok) ?_ ⟨Nat.succ_pos 63, Nat.zero_le 128⟩ hrun
  intro ctx call ctx' hok hstep
  obtain ⟨⟨ret, ctx1, f, con⟩, hcall, heq⟩ := bind_eq_ok hstep
  cases heq
  obtain ⟨buf, hbuf⟩ := exists_of_parserField hcall
  rw [hbuf] at hcall
  by_cases hoff : call.offset = buf.len
  · rw [hoff] at hcall
    exact (parserField_end_iter hok hcall).2.1
  · rw [(parserField_middle hoff hcall).2]
    exact hok

/-- What the loop is left with after a call that returns `ret_ok`. -/
theorem parserField_measure (hoff : offset ≤ buf.len) (hiter : ctx.iterNotEmitted.Ok)
    (hr : hpackHeaderParserField T ctx buf offset field = .ok (.ok, ctx', field', con)) :
    offset + con ≤ buf.len ∧ ctx'.iterNotEmitted.Ok ∧
      buf.len - (offset + con) + (128 - ctx'.iterNotEmitted.pos) < buf.len - offset + (128 - ctx.iterNotEmitted.pos) := by
  rcases hoff.lt_or_eq with hlt | rfl
  · obtain ⟨hpos, hle⟩ := parserField_progress hlt hr
    have hsame := (parserField_middle hlt.ne hr).2
    rw [hsame]
    exact ⟨hle, hiter, by omega⟩
  · obtain ⟨rfl, hok, hmoved⟩ := parserField_end_iter hiter hr
    have hlt := hmoved.resolve_left nofun
    have hpos := hok.pos_le
    exact ⟨le_rfl, hok, by omega⟩

theorem LoopOps.map₂ {P Q R : HeaderTable → TableOp → Prop} (hP : LoopOps T P buf fuel ctx offset field)
    (h : ∀ t op, P t op → Q t op → R t op) (hQ : LoopOps T Q buf fuel ctx offset field) :
    LoopOps T R buf fuel ctx offset field := by
  induction fuel generalizing ctx offset field with
  | zero => trivial
  | succ fuel ih =>
    constructor
    · intro op hop
      exact h _ _ (hP.1 op hop) (hQ.1 op hop)
    · intro r hr hret
      exact ih (hP.2 r hr hret) (hQ.2 r hr hret)

theorem tableStep_ne_hang (t : HeaderTable) (op : TableOp) (hadd : AddReturns t op) (hset : NotDrained t op) :
    tableStep t op ≠ .error .hang := by
  cases op with
  | add f => exact mt tableStep_add_hang.mp hadd
  | setMax max => exact mt tableStep_setMax_hang.mp hset
  | clear => exact nofun

/-- The loop goes on behind a call that returns `ret_ok`. -/
theorem parserAllLoop_next (fuel : ℕ) (store : Option (List HeaderField)) (consumed : ℕ)
    (hcall : hpackHeaderParserField T ctx buf offset field = .ok (.ok, ctx', field', con)) :
    ∃ store', parserAllLoop T buf (fuel + 1) ctx store offset field consumed =
      parserAllLoop T buf fuel ctx' store' ((offset + con) % 2 ^ 32) field' ((consumed + con) % 2 ^ 32) := by
  rw [parserAllLoop, hcall]
  exact ⟨_, rfl⟩

/-- The loop ends if the operations that it makes do. -/
theorem parserAllLoop_ne_hang (hops : LoopOps T (fun t op => tableStep t op ≠ .error .hang) buf fuel ctx offset field)
    (hoff : offset ≤ buf.len) (hiter : ctx.iterNotEmitted.Ok)
    (hfuel : buf.len - offset + (128 - ctx.iterNotEmitted.pos) < fuel) :
    parserAllLoop T buf fuel ctx store offset field consumed ≠ .error .hang := by
  induction fuel generalizing ctx store offset field consumed with
  | zero => exact absurd hfuel (Nat.not_lt_zero _)
  | succ fuel ih =>
    cases hcall : hpackHeaderParserField T ctx buf offset field with
    | error e =>
      rw [parserAllLoop, hcall, error_bind]
      rintro ⟨rfl⟩
      obtain ⟨op, hop, hhang⟩ := parserField_hang hcall
      exact hops.1 op hop hhang
    | ok r =>
      obtain ⟨ret, ctx', f', con⟩ := r
      by_cases hret : ret = .ok
      · subst hret
        have hlen := buf.len_succ_lt
        have hrest := hops.2 _ hcall rfl
        obtain ⟨hle, hok, hdec⟩ := parserField_measure hoff hiter hcall
        obtain ⟨store', heq⟩ := parserAllLoop_next fuel store consumed hcall
        rw [heq]
        dsimp only at hrest
        rw [Nat.mod_eq_of_lt (by omega)] at hrest ⊢
        exact ih hrest hle hok (by omega)
      · rw [parserAllLoop, hcall, ok_bind]
        dsimp only
        rw [if_pos hret]
        split_ifs <;> exact nofun

/-- A loop that ends makes no size update that does not. -/
theorem loopOps_of_ne_hang (h : parserAllLoop T buf fuel ctx store offset field consumed ≠ .error .hang) :
    LoopOps T NotDrained buf fuel ctx offset field := by
  induction fuel generalizing ctx store offset field consumed with
  | zero => trivial
  | succ fuel ih =>
    constructor
    · intro op hop
      cases op with
      | setMax max =>
        intro hdrains
        exact h (by rw [parserAllLoop, parserField_setMax_hang hop hdrains, error_bind])
      | add f => trivial
      | clear => trivial
    · rintro ⟨ret, ctx', f', con⟩ hcall hret
      dsimp only at hret
      subst hret
      obtain ⟨store', heq⟩ := parserAllLoop_next fuel store consumed hcall
      rw [heq] at h
      exact ih h

/-- What a loop that returns `ret_ok` adds to `*consumed`. -/
theorem parserAllLoop_consumed {r : Ret × Context × Option (List HeaderField) × ℕ} (hoff : offset ≤ buf.len)
    (hiter : ctx.iterNotEmitted.Ok) (hcon : consumed < 2 ^ 32)
    (hr : parserAllLoop T buf fuel ctx store offset field consumed = .ok r) (hret : r.1 = .ok) :
    r.2.2.2 = (consumed + (buf.len - offset)) % 2 ^ 32 := by
  have hlen := buf.len_succ_lt
  induction fuel generalizing ctx store offset field consumed with
  | zero => cases hr
  | succ fuel ih =>
    cases hcall : hpackHeaderParserField T ctx buf offset field with
    | error e =>
      rw [parserAllLoop, hcall] at hr
      cases hr
    | ok r' =>
      obtain ⟨ret, ctx', f', con⟩ := r'
      by_cases hok : ret = .ok
      · subst hok
        obtain ⟨hle, hiter', -⟩ := parserField_measure hoff hiter hcall
        obtain ⟨store', heq⟩ := parserAllLoop_next fuel store consumed hcall
        rw [heq, Nat.mod_eq_of_lt (show offset + con < 2 ^ 32 by omega)] at hr
        rw [ih hle hiter' (Nat.mod_lt _ (by omega)) hr]
        omega
      rw [parserAllLoop, hcall, ok_bind] at hr
      dsimp only at hr
      by_cases heof : ret = .eof
      · -- only a call at the end of the block returns it
        have hend : offset = buf.len := by
          by_contra hne
          exact (parserField_middle hne hcall).1 heof
        rw [if_pos heof] at hr
        cases hr
        rw [hend, Nat.sub_self, Nat.add_zero, Nat.mod_eq_of_lt hcon]
      · rw [if_neg heof, if_pos hok] at hr
        cases hr
        exact absurd hret hok

end Loop

/-! ### Termination -/

/-- **The decoder makes progress**, and `hpack_header_parser_all` ends if and only if no size update of the block drains
the table; it has consumed the block then. -/
theorem parserAll_terminates (t0 : HeaderTable) (calls : List ParserCall) (ctx : Context)
    (hrun : parserRun T t0 calls = .ok ctx) (buf : Block) :
    (∀ offset field r, offset < buf.len → hpackHeaderParserField T ctx buf offset field = .ok r → r.1 = .ok →
      1 ≤ r.2.2.2 ∧ r.2.2.2 ≤ buf.len - offset) ∧
    (∀ field r, hpackHeaderParserField T ctx buf buf.len field = .ok r → r.1 = .ok →
      ctx.iterNotEmitted.pos < r.2.1.iterNotEmitted.pos) ∧
    ∀ store offset consumed, offset ≤ buf.len → consumed < 2 ^ 32 → ParserAllOps T AddReturns ctx buf offset →
      ((hpackHeaderParserAll T ctx store buf offset consumed ≠ .error .hang ∧
        ∀ r, hpackHeaderParserAll T ctx store buf offset consumed = .ok r → r.1 = .ok →
          r.2.2.2 = (consumed + (buf.len - offset)) % 2 ^ 32) ↔ ParserAllOps T NotDrained ctx buf offset) := by
  have hiter := parserRun_iter hrun
  refine ⟨?_, ?_, ?_⟩
  · rintro offset field ⟨ret, ctx', f, con⟩ hlt hr hret
    dsimp only at hret ⊢
    subst hret
    obtain ⟨hpos, hle⟩ := parserField_progress hlt hr
    exact ⟨hpos, by omega⟩
  · rintro field ⟨ret, ctx', f, con⟩ hr hret
    dsimp only at hret ⊢
    subst hret
    obtain ⟨-, -, hmoved⟩ := parserField_end_iter hiter hr
    exact hmoved.resolve_left nofun
  intro store offset consumed hoff hcon hadds
  constructor
  · intro h
    exact loopOps_of_ne_hang h.1
  · intro hsets
    have hops : LoopOps T (fun t op => tableStep t op ≠ .error .hang) buf (buf.len - offset + 130) ctx offset
        hpackHeaderFieldInit := hadds.map₂ tableStep_ne_hang hsets
    refine ⟨parserAllLoop_ne_hang hops hoff hiter (by rw [blockLen_some]; omega), ?_⟩
    intro r hr hret
    exact parserAllLoop_consumed hoff hiter hcon hr hret

section Samples

/-- The size update to 66, three literals with new names and empty values, of which the second one has an empty name too,
and the size update to 1. -/
def drainBlock : Block :=
  ⟨[0x2F, 0x33, 0x40, 0x01, 97, 0x00, 0x40, 0x00, 0x00, 0x40, 0x08, 98, 98, 98, 98, 98, 98, 98, 98, 0x00, 0x21], 0,
    by decide⟩

end Samples

theorem parserAll_terminates_resized :
    ∃ ctx, parserRun noTables zeroTable [⟨smallBlock, 0, by decide, hpackHeaderFieldInit⟩] = .ok ctx ∧
      hpackHeaderParserAll noTables ctx (some []) smallBlock 0 0 ≠ .error .hang ∧
      ∀ r, hpackHeaderParserAll noTables ctx (some []) smallBlock 0 0 = .ok r → r.1 = .ok →
        r.2.2.2 = (0 + (smallBlock.len - 0)) % 2 ^ 32 := by
  obtain ⟨ctx, hrun, hadds, hsets⟩ : ∃ ctx,
      parserRun noTables zeroTable [⟨smallBlock, 0, by decide, hpackHeaderFieldInit⟩] = .ok ctx ∧
      ParserAllOps noTables AddReturns ctx smallBlock 0 ∧ ParserAllOps noTables NotDrained ctx smallBlock 0 := by
    decide
  obtain ⟨-, -, hall⟩ := parserAll_terminates noTables zeroTable _ ctx hrun smallBlock
  exact ⟨ctx, hrun, (hall (some []) 0 0 (Nat.zero_le _) (by decide) hadds).mpr hsets⟩

/-- The empty field is charged nothing and discharged 32, so `used_data` is below zero when the table is empty. -/
theorem parserAll_drains :
    ParserAllOps noTables AddReturns (hpackHeaderParserInit zeroTable) drainBlock 0 ∧
      hpackHeaderParserAll noTables (hpackHeaderParserInit zeroTable) (some []) drainBlock 0 0 = .error .hang := by
  decide +kernel

end LibHpack
