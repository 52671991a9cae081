import LibHpack.HeaderParser.Session
import LibHpack.HeaderParser.Emission

/-!
# LibHpack.HeaderParser.Finish — what the end of a block puts into the store

The calls at the end of a block change neither the table nor the reference set, and consume nothing.  So
`hpack_header_parser_all` stores there what `decodeLoop` returns.
-/

namespace LibHpack

variable {T : HuffmanTables} {ctx ctx' : Context} {buf : Block} {field field' : HeaderField} {fuel consumed : ℕ} {ret : Ret}
  {fs : List HeaderField}

/-- The table and the reference set stay as they are. -/
theorem finalReferenceSetProcess_frame (hr : finalReferenceSetProcess ctx field = .ok (ret, ctx', field')) :
    ctx'.table = ctx.table ∧ ctx'.referenceSet = ctx.referenceSet := by
  unfold finalReferenceSetProcess at hr
  split_ifs at hr with hfin
  · cases hr
    exact ⟨rfl, rfl⟩
  · rcases hnext : hpackHeaderTableIterNext ctx.table ctx.refNotEmitted ctx.iterNotEmitted with ⟨_ | i, iter⟩ <;>
      rw [hnext] at hr
    · cases hr
      exact ⟨rfl, rfl⟩
    · obtain ⟨⟨ret1, f1, isStatic⟩, -, hr⟩ := bind_eq_ok hr
      cases hr
      exact ⟨rfl, rfl⟩

/-- A call at the end consumes nothing. -/
theorem parserField_end_frame {con : ℕ}
    (hr : hpackHeaderParserField T ctx buf buf.len field = .ok (ret, ctx', field', con)) :
    con = 0 ∧ ctx'.table = ctx.table ∧ ctx'.referenceSet = ctx.referenceSet := by
  rw [parserField_end rfl] at hr
  obtain ⟨⟨ret1, ctx1, f1⟩, hfinal, hr⟩ := bind_eq_ok hr
  cases hr
  exact ⟨rfl, finalReferenceSetProcess_frame hfinal⟩

/-- **The calls at the end**: what they return goes to the store. -/
theorem parserAllLoop_of_decodeLoop (hr : decodeLoop T buf fuel ctx field buf.len = .ok (.eof, ctx', fs))
    (hconsumed : consumed < 2 ^ 32) (store : List HeaderField) :
    ctx'.table = ctx.table ∧ ctx'.referenceSet = ctx.referenceSet ∧
      ∃ added, parserAllLoop T buf fuel ctx (some store) buf.len field consumed =
          .ok (.ok, ctx', some (store ++ added), consumed) ∧
        added.map HeaderField.pair = (fs.map HeaderField.pair).filter (· ≠ ([], [])) := by
  induction fuel generalizing ctx store field fs with
  | zero => cases hr
  | succ fuel ih =>
    rw [decodeLoop] at hr
    obtain ⟨⟨ret, ctx1, f1, con⟩, hcall, hr⟩ := bind_eq_ok hr
    obtain ⟨rfl, htable, hrefs⟩ := parserField_end_frame hcall
    dsimp only at hr
    rw [parserAllLoop, hcall]
    by_cases hret : ret = .ok
    · subst hret
      rw [if_neg (not_not.mpr rfl)] at hr
      obtain ⟨⟨ret2, ctx2, fs2⟩, hloop, hr⟩ := bind_eq_ok hr
      rw [if_pos rfl] at hr
      cases hr
      have hbuf := buf.len_succ_lt
      obtain ⟨now, hstore, hnow⟩ := stored_of_pair store (some f1.pair) (f := f1) rfl
      obtain ⟨htable2, hrefs2, later, hrun, hlater⟩ := ih hloop (store ++ now)
      refine ⟨htable2.trans htable, hrefs2.trans hrefs, now ++ later, ?_, ?_⟩
      · rw [← List.append_assoc, ← hrun]
        simp only [ok_bind, reduceCtorEq, if_false, ne_eq, not_true_eq_false, Nat.add_zero,
          Nat.mod_eq_of_lt (show buf.len < 2 ^ 32 by omega), Nat.mod_eq_of_lt hconsumed]
        rw [hstore]
      · rw [List.map_append, hnow, hlater, List.map_cons, Option.toList_some, ← List.filter_append]
        rfl
    · rw [if_pos hret] at hr
      cases hr
      exact ⟨htable, hrefs, [], by rw [List.append_nil]; rfl, rfl⟩

end LibHpack
