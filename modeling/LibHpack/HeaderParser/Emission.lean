import LibHpack.HeaderParser.Model

/-!
# LibHpack.HeaderParser.Emission — what a lookup returns, and what the loop stores of it

The loop of `hpack_header_parser_all` uses one field object again and again.  A lookup appends to the octets in it, and
there are none after `hpack_header_field_clean`; so it returns what it returns for a fresh field (`returnedPair_get`).
The field is stored when it is not empty.
-/

namespace LibHpack

variable {offset n : ℕ} {t : HeaderTable} {f f' g : HeaderField} {ret : Ret}

/-- The name and the value of what a call returns. -/
def returnedPair {α : Type} (x : C (Ret × HeaderField × α)) : Option (List UInt8 × List UInt8) :=
  match x with
  | .ok (_, f, _) => some f.pair
  | .error _ => none

/-! ### Only the octets matter -/

section Congr

variable {string string' b : ChulaBuffer}

theorem pair_eq_iff : g.pair = f.pair ↔ g.name.bytes = f.name.bytes ∧ g.value.bytes = f.value.bytes :=
  Prod.mk.injEq _ _ _ _ ▸ Iff.rfl

theorem headerDataGetChula_congr {h : HeadersDataCb} (hb : string'.bytes = string.bytes)
    (hr : headerDataGetChula h offset string n = .ok (ret, b)) :
    ∃ b', headerDataGetChula h offset string' n = .ok (ret, b') ∧ b'.bytes = b.bytes := by
  unfold headerDataGetChula at hr ⊢
  split_ifs at hr ⊢
  · cases hr
    exact ⟨_, rfl, hb⟩
  · obtain ⟨bs, hcopy, hr⟩ := bind_eq_ok hr
    cases hr
    rw [hcopy]
    exact ⟨_, rfl, by rw [chulaBufferAdd_bytes, chulaBufferAdd_bytes, hb]⟩

theorem getSetIdx_congr {onlyName : Bool} (hfg : g.pair = f.pair)
    (hr : hpackHeaderTableGetSetIdx t n onlyName f = .ok (ret, f')) :
    ∃ g', hpackHeaderTableGetSetIdx t n onlyName g = .ok (ret, g') ∧ g'.pair = f'.pair := by
  obtain ⟨hname, hvalue⟩ := pair_eq_iff.mp hfg
  unfold hpackHeaderTableGetSetIdx at hr ⊢
  dsimp only at hr ⊢
  split_ifs at hr ⊢
  · cases hr
    exact ⟨_, rfl, hfg⟩
  · cases hr
    exact ⟨_, rfl, hfg⟩
  obtain ⟨⟨r0, bs⟩, hinfo, hr⟩ := bind_eq_ok hr
  obtain ⟨⟨r1, name⟩, hgetName, hr⟩ := bind_eq_ok hr
  obtain ⟨name', hgetName', hbytes⟩ := headerDataGetChula_congr hname hgetName
  rw [hinfo, ok_bind]
  dsimp only at hgetName' hr ⊢
  rw [hgetName', ok_bind]
  dsimp only
  split_ifs at hr ⊢
  · cases hr
    exact ⟨_, rfl, pair_eq_iff.mpr ⟨hbytes, hvalue⟩⟩
  · obtain ⟨⟨r2, value⟩, hgetValue, hr⟩ := bind_eq_ok hr
    cases hr
    obtain ⟨value', hgetValue', hbytes'⟩ := headerDataGetChula_congr hvalue hgetValue
    rw [hgetValue', ok_bind]
    exact ⟨_, rfl, pair_eq_iff.mpr ⟨hbytes, hbytes'⟩⟩
  · cases hr
    exact ⟨_, rfl, pair_eq_iff.mpr ⟨hbytes, hvalue⟩⟩

/-- **A lookup appends** to the octets of the field. -/
theorem tableGet_congr {onlyName isStatic : Bool} (hfg : g.pair = f.pair)
    (hr : hpackHeaderTableGet t n onlyName f = .ok (ret, f', isStatic)) :
    ∃ g', hpackHeaderTableGet t n onlyName g = .ok (ret, g', isStatic) ∧ g'.pair = f'.pair := by
  obtain ⟨hname, hvalue⟩ := pair_eq_iff.mp hfg
  unfold hpackHeaderTableGet at hr ⊢
  dsimp only at hr ⊢
  split_ifs at hr ⊢
  · cases hr
    exact ⟨_, rfl, hfg⟩
  · cases hr
    refine ⟨_, rfl, pair_eq_iff.mpr ⟨?_, hvalue⟩⟩
    rw [chulaBufferAddBuffer_bytes, chulaBufferAddBuffer_bytes, hname]
  · cases hr
    refine ⟨_, rfl, pair_eq_iff.mpr ⟨?_, ?_⟩⟩
    · rw [chulaBufferAddBuffer_bytes, chulaBufferAddBuffer_bytes, hname]
    · rw [chulaBufferAddBuffer_bytes, chulaBufferAddBuffer_bytes, hvalue]
  · obtain ⟨⟨r, f1⟩, hget, hr⟩ := bind_eq_ok hr
    cases hr
    obtain ⟨g', hget', hpair⟩ := getSetIdx_congr hfg hget
    rw [hget']
    exact ⟨g', rfl, hpair⟩

/-- Looking up a name leaves the value alone. -/
theorem tableGet_name_value {isStatic : Bool} (hr : hpackHeaderTableGet t n true f = .ok (ret, f', isStatic)) :
    f'.value = f.value := by
  unfold hpackHeaderTableGet at hr
  dsimp only at hr
  split_ifs at hr with _ _ hname
  · cases hr
    rfl
  · cases hr
    rfl
  · exact absurd rfl hname
  · obtain ⟨⟨r, f1⟩, hget, hr⟩ := bind_eq_ok hr
    cases hr
    unfold hpackHeaderTableGetSetIdx at hget
    dsimp only at hget
    split_ifs at hget
    · cases hget
      rfl
    · cases hget
      rfl
    · obtain ⟨⟨r0, bs⟩, -, hget⟩ := bind_eq_ok hget
      obtain ⟨⟨r1, name⟩, -, hget⟩ := bind_eq_ok hget
      cases hget
      rfl

end Congr

/-! ### One call -/

theorem clean_pair (f : HeaderField) : (hpackHeaderFieldClean f).pair = ([], []) :=
  Prod.ext (chulaBufferClean_bytes f.name) (chulaBufferClean_bytes f.value)

/-- **A lookup in a cleaned field.** -/
theorem returnedPair_get {onlyName isStatic : Bool} (hg : g.pair = ([], []))
    (hr : hpackHeaderTableGet t n onlyName g = .ok (ret, f, isStatic)) :
    returnedPair (hpackHeaderTableGet t n onlyName hpackHeaderFieldInit) = some f.pair := by
  obtain ⟨f0, hget, hpair⟩ := tableGet_congr (g := hpackHeaderFieldInit) hg.symm hr
  rw [hget, returnedPair, hpair]

/-- The field is stored unless it is empty. -/
theorem stored_of_pair (store : List HeaderField) (p : Option (List UInt8 × List UInt8))
    (hf : f.pair = p.getD ([], [])) :
    ∃ added, (if !hpackHeaderFieldIsEmpty f then (some store).map (hpackHeaderStoreEmit · f) else some store) =
      some (store ++ added) ∧ added.map HeaderField.pair = p.toList.filter (· ≠ ([], [])) := by
  have hempty : hpackHeaderFieldIsEmpty f = true ↔ f.pair = ([], []) := by
    rw [hpackHeaderFieldIsEmpty_iff]
    exact (Prod.mk.injEq _ _ _ _ ▸ Iff.rfl : f.pair = ([], []) ↔ _).symm
  by_cases he : f.pair = ([], [])
  · refine ⟨[], ?_, ?_⟩
    · rw [hempty.mpr he, List.append_nil]
      rfl
    · cases p with
      | none => rfl
      | some q =>
        have hq : q = ([], []) := hf.symm.trans he
        rw [hq]
        rfl
  · refine ⟨[hpackHeaderFieldCopy hpackHeaderFieldInit f], ?_, ?_⟩
    · rw [Bool.eq_false_iff.mpr (mt hempty.mp he)]
      rfl
    · have hcopy := hpackHeaderStoreEmit_pairs [] f
      cases p with
      | none => exact absurd hf he
      | some q =>
        have hq : f.pair = q := hf
        rw [← hq, Option.toList_some, List.filter_singleton, decide_eq_true he]
        exact hcopy

end LibHpack
