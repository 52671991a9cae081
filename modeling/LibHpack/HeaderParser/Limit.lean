import LibHpack.HeaderParser.Table

/-!
# LibHpack.HeaderParser.Limit — the maximum of the header table over whole runs

A run performs operations of the table and calls of `hpack_header_parser_field` in any order.  Beside it runs the
negotiated maximum: the value of the last size update that was accepted (`limitStep`).  `hpack_header_table_clear` resets
`max_data` to 4096, and an add of a field that does not fit at all clears the table; what one operation does to `max_data`
is `tableStep_limit`.
-/

namespace LibHpack

open LibHpack.Run

/-! ### The maximum of the table -/

section Table

variable {t t' : HeaderTable} {ret : Ret} {s s' : HpackSet}

theorem headerTableEvict_maxData {evicted : Option ℕ} (h : headerTableEvict t = .ok (ret, t', evicted)) :
    t'.maxData = t.maxData := by
  unfold headerTableEvict at h
  dsimp only at h
  split_ifs at h
  · cases h
    rfl
  · cases h
    rfl
  · obtain ⟨r, -, h⟩ := bind_eq_ok h
    cases h
    rfl

/-- Evictions leave the maximum as it is. -/
theorem evictUntil_maxData {more : HeaderTable → Bool} {n : ℕ} (h : evictUntil more n t s = .ok (ret, t', s')) :
    t'.maxData = t.maxData := by
  refine evictUntil_preserves (I := fun t' => t'.maxData = t.maxData) ?_ rfl h
  intro t1 ret1 t2 evicted hmax hev
  exact (headerTableEvict_maxData hev).trans hmax

theorem hpackHeaderTableAdd_maxData {f : HeaderField} (h : hpackHeaderTableAdd t f = .ok (ret, t', s)) :
    t'.maxData = if t.maxData < hpackHeaderFieldGetSize f then 4096 else t.maxData := by
  unfold hpackHeaderTableAdd at h
  dsimp only at h
  by_cases hover : t.maxData < hpackHeaderFieldGetSize f
  · rw [if_pos hover] at h
    cases h
    rw [if_pos hover]
    rfl
  rw [if_neg hover] at h ⊢
  obtain ⟨⟨ret1, t1, s1⟩, hev, h⟩ := bind_eq_ok h
  have hmax := evictUntil_maxData hev
  dsimp only at h
  by_cases hret : ret1 = .ok
  swap
  · rw [if_pos hret] at h
    cases h
    exact hmax
  rw [if_neg (not_not.mpr hret)] at h
  -- the entry is written, or it is not
  split_ifs at h <;> cases h <;> exact hmax

/-- Only a size update that is accepted changes it. -/
theorem hpackHeaderTableSetMax_maxData {max : ℕ} (h : hpackHeaderTableSetMax t max = .ok (ret, t', s)) :
    t'.maxData = if ret = .ok then max % 2 ^ 16 else t.maxData := by
  unfold hpackHeaderTableSetMax at h
  dsimp only at h
  split_ifs at h
  · cases h
    rfl
  · cases h
    rfl
  · obtain ⟨⟨ret1, t1, s1⟩, hev, h⟩ := bind_eq_ok h
    dsimp only at h
    by_cases hret : ret1 = .ok
    · rw [if_neg (not_not.mpr hret)] at h
      cases h
      rfl
    · rw [if_pos hret] at h
      cases h
      rw [if_neg hret]
      exact evictUntil_maxData hev

end Table

/-- A size update that is accepted. -/
def Accepted (t : HeaderTable) (max : ℕ) : Prop := ∃ r, hpackHeaderTableSetMax t max = .ok r ∧ r.1 = .ok

instance (t : HeaderTable) (max : ℕ) : Decidable (Accepted t max) := by unfold Accepted; infer_instance

/-- The negotiated maximum behind an operation. -/
def opLimit (t : HeaderTable) (limit : ℕ) : TableOp → ℕ
  | .add _ => limit
  | .setMax max => if Accepted t max then max % 2 ^ 16 else limit
  | .clear => limit

/-- The condition on an operation: what clears the table does so under the maximum that it resets to. -/
def OpKeepsLimit (t : HeaderTable) : TableOp → Prop
  | .add field => t.maxData < hpackHeaderFieldGetSize field → t.maxData = 4096
  | .setMax _ => True
  | .clear => t.maxData = 4096

instance decidableOpKeepsLimit (t : HeaderTable) : ∀ op, Decidable (OpKeepsLimit t op)
  | .add field => inferInstanceAs (Decidable (t.maxData < hpackHeaderFieldGetSize field → t.maxData = 4096))
  | .setMax _ => .isTrue trivial
  | .clear => inferInstanceAs (Decidable (t.maxData = 4096))

/-- **The step lemma of the table.** -/
theorem tableStep_limit {t t' : HeaderTable} {op : TableOp} (h : tableStep t op = .ok t') :
    t'.maxData = opLimit t t.maxData op ↔ OpKeepsLimit t op := by
  cases op with
  | add f =>
    obtain ⟨⟨ret, t1, s⟩, hadd, heq⟩ := bind_eq_ok h
    cases heq
    rw [hpackHeaderTableAdd_maxData hadd, opLimit, OpKeepsLimit]
    by_cases hover : t.maxData < hpackHeaderFieldGetSize f
    · rw [if_pos hover]
      exact ⟨fun heq _ => heq.symm, fun hok => (hok hover).symm⟩
    · rw [if_neg hover]
      exact iff_of_true rfl fun hlt => absurd hlt hover
  | setMax max =>
    obtain ⟨⟨ret, t1, s⟩, hset, heq⟩ := bind_eq_ok h
    cases heq
    have haccepted : Accepted t max ↔ ret = .ok := by
      refine ⟨fun hacc => ?_, fun hret => ⟨_, hset, hret⟩⟩
      obtain ⟨r, hr, hret⟩ := hacc
      cases hset.symm.trans hr
      exact hret
    rw [hpackHeaderTableSetMax_maxData hset, opLimit]
    refine iff_of_true ?_ trivial
    simp only [haccepted]
  | clear =>
    cases h
    exact eq_comm

/-! ### Runs -/

/-- A call of the decoder: one of its table, or one of `hpack_header_parser_field`. -/
inductive DecoderAction
  | table (op : TableOp)
  | field (call : ParserCall)

variable (T : HuffmanTables)

/-- One call, whatever it returns. -/
def decoderStep (ctx : Context) : DecoderAction → C Context
  | .table op => do
    let t ← tableStep ctx.table op
    return { ctx with table := t }
  | .field call => parserStep T ctx call

/-- The operation of the table that it makes, if it makes one. -/
def actionOp (ctx : Context) : DecoderAction → Option TableOp
  | .table op => some op
  | .field call => call.tableOp T ctx

/-- The negotiated maximum behind a call. -/
def limitStep (ctx : Context) (limit : ℕ) (action : DecoderAction) : ℕ :=
  match actionOp T ctx action with
  | some op => opLimit ctx.table limit op
  | none => limit

/-- The calls of a run from `hpack_header_parser_init`, and the negotiated maximum, which is 4096 at first. -/
def decoderRun (t0 : HeaderTable) (actions : List DecoderAction) : C (Context × ℕ) :=
  run (pair (limitStep T) (decoderStep T)) (hpackHeaderParserInit t0, 4096) actions

/-- The condition on a call. -/
def KeepsLimit (s : Context × ℕ) (action : DecoderAction) : Prop :=
  ∀ op ∈ actionOp T s.1 action, OpKeepsLimit s.1.table op

instance (s : Context × ℕ) (action : DecoderAction) : Decidable (KeepsLimit T s action) := by
  unfold KeepsLimit; infer_instance

section Runs

variable {T} {ctx ctx' : Context} {action : DecoderAction}

/-- What a call does to the table. -/
theorem decoderStep_table (h : decoderStep T ctx action = .ok ctx') :
    match actionOp T ctx action with
    | some op => tableStep ctx.table op = .ok ctx'.table
    | none => ctx'.table = ctx.table := by
  cases action with
  | table op =>
    obtain ⟨t, hstep, heq⟩ := bind_eq_ok h
    cases heq
    exact hstep
  | field call =>
    obtain ⟨⟨ret, ctx1, f, con⟩, hcall, heq⟩ := bind_eq_ok h
    cases heq
    have heffect := call.effect hcall
    rw [actionOp]
    cases hop : call.tableOp T ctx with
    | none =>
      rw [hop] at heffect
      cases heffect with
      | none htable _ => exact htable
    | some op =>
      rw [hop] at heffect
      exact heffect.step

/-- **The step lemma.** -/
theorem decoderStep_limit {s s' : Context × ℕ} (hlimit : s.1.table.maxData = s.2)
    (h : pair (limitStep T) (decoderStep T) s action = .ok s') :
    s'.1.table.maxData = s'.2 ↔ KeepsLimit T s action := by
  obtain ⟨ctx', hstep, heq⟩ := bind_eq_ok h
  cases heq
  have htable := decoderStep_table hstep
  rw [limitStep, KeepsLimit]
  cases hop : actionOp T s.1 action with
  | none =>
    rw [hop] at htable
    dsimp only at htable ⊢
    rw [htable, hlimit]
    exact iff_of_true rfl nofun
  | some op =>
    rw [hop] at htable
    dsimp only at htable ⊢
    rw [← hlimit, tableStep_limit htable]
    exact ⟨fun hok op' hop' => Option.some.inj hop' ▸ hok, fun hok => hok op rfl⟩

end Runs

/-- **The maximum of the table is the negotiated one** in every state of a run, if and only if every call of the run meets
the condition. -/
theorem max_data_negotiated (t0 : HeaderTable) (actions : List DecoderAction) (r : Context × ℕ)
    (hrun : decoderRun T t0 actions = .ok r) :
    (∀ n q, decoderRun T t0 (actions.take n) = .ok q → q.1.table.maxData = q.2) ↔
      Meets (pair (limitStep T) (decoderStep T)) (KeepsLimit T) (hpackHeaderParserInit t0, 4096) actions := by
  refine always_iff_meets (I := fun s => s.1.table.maxData = s.2) ?_ actions _ r rfl hrun
  intro s action s' hlimit hstep
  exact decoderStep_limit hlimit hstep

section Samples

/-- A size update to 64, and a literal with the name `a` and the value `b`. -/
def shrinkBlock : Block := ⟨[0x2F, 0x31, 0x40, 0x01, 97, 0x01, 98], 0, by decide⟩

/-- A size update to 20, and the same literal, which does not fit. -/
def tinyBlock : Block := ⟨[0x2F, 0x05, 0x40, 0x01, 97, 0x01, 98], 0, by decide⟩

end Samples

theorem max_data_negotiated_resized :
    ∃ r, decoderRun noTables zeroTable [.table .clear, .field ⟨shrinkBlock, 0, by decide, hpackHeaderFieldInit⟩,
        .field ⟨shrinkBlock, 2, by decide, hpackHeaderFieldInit⟩] = .ok r ∧ r.1.table.numHeaders = 1 ∧ r.2 = 64 ∧
      r.1.table.maxData = 64 := by
  obtain ⟨r, hrun, hnum, hlimit⟩ : ∃ r, decoderRun noTables zeroTable [.table .clear,
      .field ⟨shrinkBlock, 0, by decide, hpackHeaderFieldInit⟩,
      .field ⟨shrinkBlock, 2, by decide, hpackHeaderFieldInit⟩] = .ok r ∧ r.1.table.numHeaders = 1 ∧ r.2 = 64 := by
    decide
  have halways := (max_data_negotiated noTables zeroTable _ r hrun).mpr (by decide) 3 r hrun
  exact ⟨r, hrun, hnum, hlimit, halways.trans hlimit⟩

/-- `hpack_header_table_clear` resets the maximum, and so does a literal that is too large. -/
theorem max_data_reset :
    (∃ r, decoderRun noTables zeroTable [.table (.setMax 100), .table .clear] = .ok r ∧ r.2 = 100 ∧
      r.1.table.maxData = 4096) ∧
    ∃ r, decoderRun noTables zeroTable [.field ⟨tinyBlock, 0, by decide, hpackHeaderFieldInit⟩,
        .field ⟨tinyBlock, 2, by decide, hpackHeaderFieldInit⟩] = .ok r ∧ r.2 = 20 ∧ r.1.table.maxData = 4096 := by
  decide

end LibHpack
