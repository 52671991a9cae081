import LibHpack.HeaderParser.Table

/-!
# LibHpack.HeaderParser.Outcome — how a call ends

All that can keep a call from ending is an eviction loop of the header table (`parserField_hang`), and the one of a size
update does not end when the table is empty and `used_data` is still above the new maximum (`SetMaxDrains`).  In the
middle of a block a call leaves the iterator alone and does not return `ret_eof` (`parserField_middle`).
-/

namespace LibHpack

open LibHpack.Run

variable {t : HeaderTable} {f : HeaderField}

/-! ### Calls that end -/

theorem memRead_ne_hang (m : ℕ → UInt8) (size pos n : ℕ) : memRead m size pos n ≠ .error .hang := by
  unfold memRead
  split_ifs <;> exact nofun

theorem headerDataCopy_ne_hang (h : HeadersDataCb) (offset n : ℕ) : headerDataCopy h offset n ≠ .error .hang := by
  unfold headerDataCopy
  refine bind_ne_error (memRead_ne_hang _ _ _ _) fun first => ?_
  split_ifs
  · exact bind_ne_error (memRead_ne_hang _ _ _ _) fun _ => pure_ne_error _ _
  · exact nofun

theorem headerDataGet_ne_hang (h : HeadersDataCb) (offset n : ℕ) : headerDataGet h offset n ≠ .error .hang := by
  unfold headerDataGet
  split_ifs
  · exact nofun
  · exact bind_ne_error (headerDataCopy_ne_hang _ _ _) fun _ => pure_ne_error _ _

theorem headerDataGetChula_ne_hang (h : HeadersDataCb) (offset : ℕ) (dst : ChulaBuffer) (n : ℕ) :
    headerDataGetChula h offset dst n ≠ .error .hang := by
  unfold headerDataGetChula
  split_ifs
  · exact nofun
  · exact bind_ne_error (headerDataCopy_ne_hang _ _ _) fun _ => pure_ne_error _ _

theorem headerTableEvict_ne_hang (t : HeaderTable) : headerTableEvict t ≠ .error .hang := by
  unfold headerTableEvict
  dsimp only
  split_ifs
  · exact nofun
  · exact nofun
  · exact bind_ne_error (headerDataGet_ne_hang _ _ _) fun _ => pure_ne_error _ _

theorem hpackHeaderTableGetSetIdx_ne_hang (t : HeaderTable) (n : ℕ) (onlyName : Bool) (f : HeaderField) :
    hpackHeaderTableGetSetIdx t n onlyName f ≠ .error .hang := by
  unfold hpackHeaderTableGetSetIdx
  dsimp only
  split_ifs
  · exact nofun
  · exact nofun
  · refine bind_ne_error (headerDataGet_ne_hang _ _ _) fun bs => ?_
    refine bind_ne_error (headerDataGetChula_ne_hang _ _ _ _) fun name => ?_
    split_ifs
    · exact pure_ne_error _ _
    · exact bind_ne_error (headerDataGetChula_ne_hang _ _ _ _) fun _ => pure_ne_error _ _
    · exact pure_ne_error _ _

theorem hpackHeaderTableGet_ne_hang (t : HeaderTable) (n : ℕ) (onlyName : Bool) (f : HeaderField) :
    hpackHeaderTableGet t n onlyName f ≠ .error .hang := by
  unfold hpackHeaderTableGet
  dsimp only
  split_ifs
  · exact nofun
  · exact nofun
  · exact nofun
  · exact bind_ne_error (hpackHeaderTableGetSetIdx_ne_hang _ _ _ _) fun _ => pure_ne_error _ _

section Parse

variable (T : HuffmanTables) (buf : Block) (offset : ℕ)

theorem parseString_ne_hang (string : ChulaBuffer) : parseString T buf offset string ≠ .error .hang := by
  unfold parseString
  dsimp only
  split_ifs <;> exact nofun

theorem parseHeaderName_ne_hang (table : HeaderTable) (field : HeaderField) :
    parseHeaderName T buf offset table field ≠ .error .hang := by
  unfold parseHeaderName
  by_cases hidx : buf.get offset &&& 0x0F ≠ 0
  · rw [if_pos hidx]
    dsimp only
    generalize hpackIntegerDecode _ (buf.mem offset) (buf.rest offset) 0 = r
    split_ifs
    · exact nofun
    · exact bind_ne_error (hpackHeaderTableGet_ne_hang _ _ _ _) fun _ => pure_ne_error _ _
  · rw [if_neg hidx]
    refine bind_ne_error (parseString_ne_hang _ _ _ _) fun r => ?_
    dsimp only
    split_ifs <;> exact pure_ne_error _ _

theorem parseHeaderPair_ne_hang (table : HeaderTable) (field : HeaderField) :
    parseHeaderPair T buf offset table field ≠ .error .hang := by
  unfold parseHeaderPair
  refine bind_ne_error (parseHeaderName_ne_hang _ _ _ _ _) fun r => ?_
  dsimp only
  split_ifs
  · exact nofun
  · refine bind_ne_error (parseString_ne_hang _ _ _ _) fun r => ?_
    split_ifs <;> exact pure_ne_error _ _

end Parse

/-! ### Calls that do not -/

/-- Every eviction succeeds and is followed by another one, until the table is empty. -/
def drains (more : HeaderTable → Bool) : ℕ → HeaderTable → Bool
  | 0, t => more t
  | n + 1, t => more t && match headerTableEvict t with
    | .ok (.ok, t', _) => drains more n t'
    | _ => false

/-- **When an eviction loop does not end.** -/
theorem evictUntil_hang {more : HeaderTable → Bool} {n : ℕ} {s : HpackSet} :
    evictUntil more n t s = .error .hang ↔ drains more n t = true := by
  induction n generalizing t s with
  | zero =>
    rw [evictUntil, drains]
    split_ifs with hmore <;> simp [hmore]
  | succ n ih =>
    rw [evictUntil, drains, Bool.and_eq_true]
    by_cases hmore : more t = true
    swap
    · simp [hmore]
    rw [if_pos hmore]
    simp only [hmore, true_and]
    cases hev : headerTableEvict t with
    | error e =>
      have hev' : e ≠ .hang := fun he => headerTableEvict_ne_hang t (he ▸ hev)
      exact iff_of_false (fun h => hev' (Except.error.inj h)) Bool.false_ne_true
    | ok r =>
      obtain ⟨ret, t', evicted⟩ := r
      rw [ok_bind]
      dsimp only
      by_cases hret : ret = .ok
      · rw [if_neg (not_not.mpr hret), ih, hret]
      · rw [if_pos hret]
        refine iff_of_false (pure_ne_error _ _) ?_
        cases ret <;> first | exact absurd rfl hret | exact Bool.false_ne_true

/-- A size update finds `used_data` above the new maximum when the table is empty. -/
def SetMaxDrains (t : HeaderTable) (max : ℕ) : Prop :=
  max % 2 ^ 16 ≠ 0 ∧ max % 2 ^ 16 ≤ 4096 ∧ drains (fun t => decide (max % 2 ^ 16 < t.usedData)) t.numHeaders t = true

instance (t : HeaderTable) (max : ℕ) : Decidable (SetMaxDrains t max) := by unfold SetMaxDrains; infer_instance

theorem hpackHeaderTableSetMax_hang {max : ℕ} : hpackHeaderTableSetMax t max = .error .hang ↔ SetMaxDrains t max := by
  unfold hpackHeaderTableSetMax SetMaxDrains
  dsimp only
  split_ifs with hbig h0
  · exact iff_of_false nofun fun h => absurd h.2.1 (not_le.mpr hbig)
  · exact iff_of_false nofun fun h => h.1 h0
  · rw [← evictUntil_hang (s := hpackSetInit false)]
    rw [bind_eq_error_iff fun r => by split_ifs <;> exact pure_ne_error _ _]
    exact ⟨fun h => ⟨h0, not_lt.mp hbig, h⟩, fun h => h.2.2⟩

section Calls

variable {T : HuffmanTables} {ctx : Context} {buf : Block} {offset : ℕ} {field : HeaderField}

theorem tableStep_setMax_hang {max : ℕ} : tableStep t (.setMax max) = .error .hang ↔ SetMaxDrains t max := by
  rw [← hpackHeaderTableSetMax_hang, tableStep]
  exact bind_eq_error_iff fun _ => pure_ne_error _ _

theorem tableStep_add_hang : tableStep t (.add f) = .error .hang ↔ hpackHeaderTableAdd t f = .error .hang := by
  rw [tableStep]
  exact bind_eq_error_iff fun _ => pure_ne_error _ _

theorem addField_hang :
    addFieldProcessEvictions ctx field = .error .hang ↔ hpackHeaderTableAdd ctx.table field = .error .hang := by
  unfold addFieldProcessEvictions
  exact bind_eq_error_iff fun r => by dsimp only; split_ifs <;> exact pure_ne_error _ _

theorem parseContextUpdate_hang : parseContextUpdate buf offset ctx = .error .hang ↔
    ∃ max, updateOp buf offset = some (.setMax max) ∧ SetMaxDrains ctx.table max := by
  unfold parseContextUpdate updateOp
  rcases hdec : hpackIntegerDecode 4 (buf.mem offset) (buf.rest offset) 0 with ⟨ret, num, con⟩
  dsimp only
  by_cases h30 : buf.get offset = 0x30
  · rw [if_pos h30, if_pos h30]
    exact iff_of_false nofun nofun
  rw [if_neg h30, if_neg h30]
  by_cases hret : ret = .ok
  · subst hret
    rw [if_neg (not_not.mpr rfl), bind_eq_error_iff fun r => by split_ifs <;> exact pure_ne_error _ _, hpackHeaderTableSetMax_hang]
    simp only [Option.some.injEq, TableOp.setMax.injEq, exists_eq_left']
  · rw [if_pos hret]
    refine iff_of_false nofun ?_
    cases ret <;> first | exact absurd rfl hret | exact nofun

theorem parseIndexed_hang (h : parseIndexed buf offset ctx field = .error .hang) :
    ∃ f, indexedOp ctx buf offset field = some (.add f) ∧ hpackHeaderTableAdd ctx.table f = .error .hang := by
  unfold parseIndexed at h
  unfold indexedOp
  by_cases h31 : 2 ^ 31 ≤ offset
  · rw [if_pos h31] at h
    cases h
  rw [if_neg h31] at h
  rcases hdec : hpackIntegerDecode 7 (buf.mem offset) (buf.rest offset) 0 with ⟨ret, num, con⟩
  rw [hdec] at h
  dsimp only at h
  by_cases hret : ret = .ok
  swap
  · rw [if_pos hret] at h
    cases h
  rw [if_neg (not_not.mpr hret)] at h
  by_cases hbig : 61 + ctx.table.numHeaders < num
  · rw [if_pos hbig] at h
    cases h
  rw [if_neg hbig] at h
  by_cases hex : hpackHeaderTableSetExists ctx.table ctx.referenceSet num = true
  · rw [if_pos hex] at h
    cases h
  rw [if_neg hex] at h
  rw [hret]
  dsimp only
  rw [if_neg hbig, if_neg hex]
  rcases bind_eq_error h with h | ⟨⟨ret1, f1, isStatic⟩, hget, h⟩
  · exact absurd h (hpackHeaderTableGet_ne_hang _ _ _ _)
  rw [hget]
  dsimp only at h
  by_cases hret1 : ret1 = .ok
  swap
  · rw [if_pos hret1] at h
    cases h
  rw [if_neg (not_not.mpr hret1)] at h
  cases isStatic with
  | false => cases h
  | true =>
    rw [if_pos rfl, bind_eq_error_iff fun r => by split_ifs <;> exact pure_ne_error _ _, addField_hang] at h
    exact ⟨f1, by rw [hret1], h⟩

theorem finalReferenceSetProcess_ne_hang : finalReferenceSetProcess ctx field ≠ .error .hang := by
  unfold finalReferenceSetProcess
  split_ifs
  · exact nofun
  rcases hpackHeaderTableIterNext ctx.table ctx.refNotEmitted ctx.iterNotEmitted with ⟨_ | idx, iter⟩
  · exact nofun
  · exact bind_ne_error (hpackHeaderTableGet_ne_hang _ _ _ _) fun _ => pure_ne_error _ _

/-- **A call that does not end** is in an operation of the table that does not. -/
theorem parserField_hang (h : hpackHeaderParserField T ctx buf offset field = .error .hang) :
    ∃ op ∈ callTableOp T ctx buf offset field, tableStep ctx.table op = .error .hang := by
  unfold callTableOp
  by_cases hoff : offset = buf.len
  · rw [parserField_end hoff] at h
    exact absurd h (bind_ne_error finalReferenceSetProcess_ne_hang fun _ => pure_ne_error _ _)
  rw [if_neg hoff]
  by_cases hup : buf.get offset &&& 0xE0 = 0x20
  · rw [parserField_update hoff hup] at h
    rw [if_pos hup]
    obtain ⟨max, hop, hdrains⟩ := parseContextUpdate_hang.mp ((bind_eq_error_iff fun _ => pure_ne_error _ _).mp h)
    exact ⟨_, hop, tableStep_setMax_hang.mpr hdrains⟩
  rw [if_neg hup]
  by_cases hidx : buf.get offset &&& 0x80 ≠ 0
  · rw [parserField_indexed hoff hup hidx] at h
    rw [if_pos hidx]
    obtain ⟨f, hop, hadd⟩ := parseIndexed_hang h
    exact ⟨_, hop, tableStep_add_hang.mpr hadd⟩
  · rw [parserField_literal hoff hup hidx] at h
    rw [if_neg hidx]
    rcases bind_eq_error h with h | ⟨⟨ret1, f1, con1⟩, hpair, h⟩
    · exact absurd h (parseHeaderPair_ne_hang _ _ _ _ _)
    rw [literalOp_eq hpair]
    dsimp only at h
    by_cases hret : ret1 = .ok
    swap
    · rw [if_pos hret] at h
      cases h
    rw [if_neg (not_not.mpr hret)] at h
    by_cases hform : buf.get offset &&& 0xC0 = 0x40
    · rw [if_pos hform, bind_eq_error_iff fun r => by split_ifs <;> exact pure_ne_error _ _, addField_hang] at h
      rw [if_pos (And.intro hform hret)]
      exact ⟨_, rfl, tableStep_add_hang.mpr h⟩
    · rw [if_neg hform] at h
      cases h

theorem indexedOp_ne_setMax (max : ℕ) : indexedOp ctx buf offset field ≠ some (.setMax max) := by
  unfold indexedOp
  rcases hpackIntegerDecode 7 (buf.mem offset) (buf.rest offset) 0 with ⟨_ | _ | _ | _ | _, num, con⟩
  case ok =>
    dsimp only
    split_ifs
    · exact nofun
    · exact nofun
    · rcases hpackHeaderTableGet ctx.table num false _ with e | ⟨_ | _ | _ | _ | _, f, _ | _⟩ <;> exact nofun
  all_goals exact nofun

theorem literalOp_ne_setMax (max : ℕ) : literalOp T ctx buf offset field ≠ some (.setMax max) := by
  unfold literalOp
  split_ifs
  · rcases parseHeaderPair T buf offset ctx.table field with e | ⟨_ | _ | _ | _ | _, f, con⟩ <;> exact nofun
  · exact nofun

/-- Only a context update changes the maximum, and the call does not end if that does not. -/
theorem parserField_setMax_hang {max : ℕ} (hop : callTableOp T ctx buf offset field = some (.setMax max))
    (h : SetMaxDrains ctx.table max) : hpackHeaderParserField T ctx buf offset field = .error .hang := by
  unfold callTableOp at hop
  split_ifs at hop with hoff hup hidx
  · rw [parserField_update hoff hup, bind_eq_error_iff fun _ => pure_ne_error _ _]
    exact parseContextUpdate_hang.mpr ⟨max, hop, h⟩
  · exact absurd hop (indexedOp_ne_setMax max)
  · exact absurd hop (literalOp_ne_setMax max)

end Calls

/-! ### The middle of a block -/

/-- It does not return `ret_eof`. -/
def NoEof {α : Type} (x : C (Ret × α)) : Prop := ∀ r, x = .ok r → r.1 ≠ .eof

section NoEof

variable {α β : Type}

@[simp] theorem noEof_error (e : Fault) : NoEof (.error e : C (Ret × α)) := nofun

@[simp] theorem noEof_ok {ret : Ret} {a : α} : NoEof (.ok (ret, a)) ↔ ret ≠ .eof :=
  ⟨fun h => h _ rfl, fun h _ hr => Except.ok.inj hr ▸ h⟩

@[simp] theorem noEof_pure {ret : Ret} {a : α} : NoEof (pure (ret, a)) ↔ ret ≠ .eof := noEof_ok

theorem NoEof.bind {x : C β} {f : β → C (Ret × α)} (h : ∀ b, x = .ok b → NoEof (f b)) : NoEof (x >>= f) := by
  intro r hr
  obtain ⟨b, hb, hr⟩ := bind_eq_ok hr
  exact h b hb r hr

theorem headerTableEvict_noEof (t : HeaderTable) : NoEof (headerTableEvict t) := by
  unfold headerTableEvict
  dsimp only
  split_ifs
  · simp
  · simp
  · exact NoEof.bind fun r _ => by simp

theorem evictUntil_noEof (more : HeaderTable → Bool) (n : ℕ) (t : HeaderTable) (s : HpackSet) :
    NoEof (evictUntil more n t s) := by
  induction n generalizing t s with
  | zero =>
    rw [evictUntil]
    split_ifs <;> simp
  | succ n ih =>
    rw [evictUntil]
    split_ifs
    · refine NoEof.bind fun r hr => ?_
      have hev := headerTableEvict_noEof t r hr
      dsimp only
      split_ifs
      · simpa using hev
      · exact ih _ _
    · simp

theorem hpackHeaderTableAdd_noEof (t : HeaderTable) (f : HeaderField) : NoEof (hpackHeaderTableAdd t f) := by
  unfold hpackHeaderTableAdd
  dsimp only
  by_cases hover : t.maxData < hpackHeaderFieldGetSize f
  · rw [if_pos hover]
    simp
  rw [if_neg hover]
  refine NoEof.bind fun ⟨ret, t', s⟩ hr => ?_
  have hev := evictUntil_noEof _ _ _ _ _ hr
  by_cases hret : ret = .ok
  · rw [if_neg (not_not.mpr hret)]
    split_ifs <;> simp
  · rw [if_pos hret]
    exact noEof_pure.mpr hev

theorem hpackHeaderTableGetSetIdx_noEof (n : ℕ) (onlyName : Bool) : NoEof (hpackHeaderTableGetSetIdx t n onlyName f) := by
  have hget : ∀ h offset dst n, NoEof (headerDataGetChula h offset dst n) := by
    intro h offset dst n
    unfold headerDataGetChula
    split_ifs
    · simp
    · exact NoEof.bind fun r _ => by simp
  unfold hpackHeaderTableGetSetIdx
  dsimp only
  split_ifs
  · simp
  · simp
  · refine NoEof.bind fun bs _ => NoEof.bind fun name hname => ?_
    have hname := hget _ _ _ _ name hname
    split_ifs
    · simpa using hname
    · refine NoEof.bind fun value hvalue => ?_
      simpa using hget _ _ _ _ value hvalue
    · simpa using hname

theorem hpackHeaderTableGet_noEof (n : ℕ) (onlyName : Bool) : NoEof (hpackHeaderTableGet t n onlyName f) := by
  unfold hpackHeaderTableGet
  dsimp only
  split_ifs
  · simp
  · simp
  · simp
  · refine NoEof.bind fun r hr => ?_
    simpa using hpackHeaderTableGetSetIdx_noEof _ _ r hr

variable {T : HuffmanTables} {ctx ctx' : Context} {buf : Block} {offset con : ℕ} {field field' : HeaderField} {ret : Ret}

theorem parseString_noEof (string : ChulaBuffer) : NoEof (parseString T buf offset string) := by
  unfold parseString
  dsimp only
  split_ifs <;> simp

theorem parseHeaderName_noEof (table : HeaderTable) : NoEof (parseHeaderName T buf offset table field) := by
  unfold parseHeaderName
  by_cases hidx : buf.get offset &&& 0x0F ≠ 0
  · rw [if_pos hidx]
    dsimp only
    generalize hpackIntegerDecode _ (buf.mem offset) (buf.rest offset) 0 = r
    split_ifs
    · simp
    · refine NoEof.bind fun g hg => ?_
      simpa using hpackHeaderTableGet_noEof _ _ g hg
  · rw [if_neg hidx]
    refine NoEof.bind fun v hv => ?_
    have hv := parseString_noEof _ v hv
    dsimp only
    split_ifs <;> simpa using hv

theorem parseHeaderPair_noEof (table : HeaderTable) : NoEof (parseHeaderPair T buf offset table field) := by
  unfold parseHeaderPair
  refine NoEof.bind fun ⟨ret, f1, n⟩ hname => ?_
  have hname := parseHeaderName_noEof _ _ hname
  dsimp only at hname ⊢
  by_cases hret : ret = .ok
  · rw [if_neg (not_not.mpr hret)]
    refine NoEof.bind fun v hv => ?_
    have hv := parseString_noEof _ v hv
    by_cases hret1 : v.1 = .ok
    · rw [if_neg (not_not.mpr hret1)]
      simp
    · rw [if_pos hret1]
      simpa using hv
  · rw [if_pos hret]
    simpa using hname

theorem addField_middle {added : Bool} (hr : addFieldProcessEvictions ctx field = .ok (ret, ctx', added)) :
    ret ≠ .eof ∧ ctx'.iterNotEmitted = ctx.iterNotEmitted := by
  obtain ⟨s, hadd, hiter⟩ := addField_effect hr
  exact ⟨hpackHeaderTableAdd_noEof _ _ _ hadd, hiter⟩

theorem parseContextUpdate_middle (hr : parseContextUpdate buf offset ctx = .ok (ret, ctx', con)) :
    ret ≠ .eof ∧ ctx'.iterNotEmitted = ctx.iterNotEmitted := by
  cases parseContextUpdate_cases hr with
  | emptied _ => exact ⟨ok_ne_eof, rfl⟩
  | undecoded _ _ _ => exact ⟨error_ne_eof, rfl⟩
  | refused _ _ _ _ => exact ⟨error_ne_eof, rfl⟩
  | resized _ _ _ => exact ⟨ok_ne_eof, rfl⟩

theorem parseIndexed_middle (hr : parseIndexed buf offset ctx field = .ok (ret, ctx', field', con)) :
    ret ≠ .eof ∧ ctx'.iterNotEmitted = ctx.iterNotEmitted := by
  cases parseIndexed_cases hr with
  | undecoded _ _ => exact ⟨error_ne_eof, rfl⟩
  | beyond _ _ => exact ⟨error_ne_eof, rfl⟩
  | removed _ _ _ => exact ⟨ok_ne_eof, rfl⟩
  | unread hfield _ => exact ⟨hpackHeaderTableGet_noEof _ _ _ hfield.get, rfl⟩
  | referenced _ => exact ⟨ok_ne_eof, rfl⟩
  | unadded _ hadd _ => exact addField_middle hadd
  | inserted _ hadd => exact ⟨ok_ne_eof, (addField_middle hadd).2⟩

theorem LiteralCall.middle (hcall : LiteralCall T buf offset ctx field ret ctx' field' con) :
    ret ≠ .eof ∧ ctx'.iterNotEmitted = ctx.iterNotEmitted := by
  cases hcall with
  | refused hpair _ => exact ⟨parseHeaderPair_noEof _ _ hpair, rfl⟩
  | returned _ _ _ => exact ⟨ok_ne_eof, rfl⟩
  | unadded _ _ hadd _ =>
    obtain ⟨heof, hiter⟩ := addField_middle hadd
    exact ⟨heof, hiter⟩
  | inserted _ _ hadd =>
    have hiter := (addField_middle hadd).2
    split_ifs
    · exact ⟨ok_ne_eof, hiter⟩
    · exact ⟨ok_ne_eof, hiter⟩

/-- **A call in the middle of a block** does not touch the iterator, and does not return `ret_eof`. -/
theorem parserField_middle (hoff : offset ≠ buf.len)
    (hr : hpackHeaderParserField T ctx buf offset field = .ok (ret, ctx', field', con)) :
    ret ≠ .eof ∧ ctx'.iterNotEmitted = ctx.iterNotEmitted := by
  by_cases hup : buf.get offset &&& 0xE0 = 0x20
  · rw [parserField_update hoff hup] at hr
    obtain ⟨⟨ret1, ctx1, con1⟩, hupdate, hr⟩ := bind_eq_ok hr
    cases hr
    obtain ⟨heof, hiter⟩ := parseContextUpdate_middle hupdate
    exact ⟨heof, hiter⟩
  by_cases hidx : buf.get offset &&& 0x80 ≠ 0
  · rw [parserField_indexed hoff hup hidx] at hr
    obtain ⟨heof, hiter⟩ := parseIndexed_middle hr
    exact ⟨heof, hiter⟩
  · exact (parserField_literal_cases hoff hup hidx hr).middle

end NoEof

end LibHpack
