import LibHpack.HeaderTable.Runs

/-!
# LibHpack.HeaderTable.Atomic — an add that fails

`hpack_header_table_add` keeps the two tails for a rollback, but it returns in front of the rollback, and the evictions
and the two counters of the old entries would not be part of it.  An add that fails has moved the tails.

It does fail: `header_data_add` refuses a null pointer even for no octets, and an empty string that was never written to
is one.  The value is only stored when it has octets, the name always is.
-/

namespace LibHpack

open LibHpack.Fifo

/-- The call leaves the table as it was, up to memory that holds no live entry. -/
structure HeaderTable.Unchanged (t t' : HeaderTable) : Prop where
  offsHead : t'.headersOffsets.head = t.headersOffsets.head
  offsTail : t'.headersOffsets.tail = t.headersOffsets.tail
  dataHead : t'.headersData.head = t.headersData.head
  dataTail : t'.headersData.tail = t.headersData.tail
  num : t'.numHeaders = t.numHeaders
  used : t'.usedData = t.usedData
  max : t'.maxData = t.maxData
  entries : ∀ i, t.Live i → Survives t t' i

/-- An add of the entry depends on its octets only, and one that fails changes nothing. -/
structure HeaderTable.AddAtomic (t : HeaderTable) (e : Entry) : Prop where
  octets : ∀ f g : HeaderField, f.entry = e → g.entry = e → hpackHeaderTableAdd t f = hpackHeaderTableAdd t g
  rollback : ∀ f : HeaderField, f.entry = e → ∀ ret t' s, hpackHeaderTableAdd t f = .ok (ret, t', s) → ret ≠ .ok →
    t.Unchanged t'

section Octets

variable {f g : HeaderField}

theorem entry_bytes (h : f.entry = g.entry) :
    f.name.bytes = g.name.bytes ∧ f.value.bytes = g.value.bytes ∧ f.flags = g.flags := by
  rw [HeaderField.entry, HeaderField.entry, Entry.mk.injEq] at h
  exact h

/-- A string with octets is allocated. -/
theorem ChulaBuffer.buf_eq {b : ChulaBuffer} (h : b.bytes ≠ []) : b.buf = some b.bytes := by
  cases hb : b.buf with
  | none => exact absurd (by rw [bytes, hb]; rfl) h
  | some s => rw [bytes, hb]; rfl

theorem ChulaBuffer.len_congr {b b' : ChulaBuffer} (h : b.bytes = b'.bytes) : b.len = b'.len := congrArg List.length h

theorem getSize_congr (h : f.entry = g.entry) : hpackHeaderFieldGetSize f = hpackHeaderFieldGetSize g := by
  obtain ⟨hname, hvalue, -⟩ := entry_bytes h
  rw [hpackHeaderFieldGetSize, hpackHeaderFieldGetSize, chulaBufferIsEmpty, chulaBufferIsEmpty, chulaBufferIsEmpty,
    chulaBufferIsEmpty, ChulaBuffer.len_congr hname, ChulaBuffer.len_congr hvalue]

/-- **The octets decide** when there is a name, whatever the table holds. -/
theorem hpackHeaderTableAdd_congr (h : f.entry = g.entry) (hname : f.entry.name ≠ []) (t : HeaderTable) :
    hpackHeaderTableAdd t f = hpackHeaderTableAdd t g := by
  obtain ⟨hn, hv, hflags⟩ := entry_bytes h
  have hsize := getSize_congr h
  have hbuf : f.name.buf = g.name.buf := by
    rw [ChulaBuffer.buf_eq hname, ChulaBuffer.buf_eq (hn ▸ hname), hn]
  -- the value is only stored when it has octets
  have hvalue : ∀ d : HeadersDataCb, (if 0 < g.value.len % 2 ^ 16 then headerDataAdd d f.value.buf (g.value.len % 2 ^ 16)
      else (.ok, d)) = if 0 < g.value.len % 2 ^ 16 then headerDataAdd d g.value.buf (g.value.len % 2 ^ 16)
      else (.ok, d) := by
    intro d
    split_ifs with hpos
    · have hne : g.value.bytes ≠ [] := by
        intro hnil
        rw [ChulaBuffer.len, hnil] at hpos
        exact absurd hpos (by decide)
      rw [ChulaBuffer.buf_eq hne, ChulaBuffer.buf_eq (hv ▸ hne), hv]
    · rfl
  simp only [hpackHeaderTableAdd, hsize, hbuf, hvalue, ChulaBuffer.len_congr hn, ChulaBuffer.len_congr hv, hflags]

end Octets

section Null

variable {t u : HeaderTable} {es : List Entry} {f : HeaderField}

theorem headerDataAdd_code_le (h : HeadersDataCb) (data : Option (List UInt8)) (n : ℕ) :
    (headerDataAdd h data n).1.code ≤ 0 := by
  have hok : Ret.ok.code ≤ 0 := by decide
  have herror : Ret.error.code ≤ 0 := by decide
  unfold headerDataAdd
  split
  · exact herror
  · split_ifs
    · exact herror
    · exact hok

/-- **A null name** is refused once the offset is stored. -/
theorem Holds.add_null {s : HpackSet} (h : Holds u es) (hfit : ¬ t.maxData < hpackHeaderFieldGetSize f)
    (hloop : evictUntil (addNeedsRoom (hpackHeaderFieldGetSize f)) t.numHeaders t (hpackSetInit false) = .ok (.ok, u, s))
    (hnull : f.name.buf = none) :
    ∃ t', hpackHeaderTableAdd t f = .ok (.error, t', s) ∧
      t'.headersOffsets.tail = (u.headersOffsets.tail + 1) % 128 := by
  have hlen := h.length_le
  rw [hpackHeaderTableAdd, if_neg hfit, hloop]
  simp only [ok_bind, ne_eq, not_true_eq_false, if_false, h.offsIsFull, Bool.false_eq_true,
    headerOffsAdd_eq h.offsTail (show es.length < 127 by omega), hnull]
  have hinfo := headerDataAdd_code_le u.headersData
    (some (⟨f.name.len % 2 ^ 16, f.value.len % 2 ^ 16, f.flags⟩ : FieldInfo).octets) 8
  generalize headerDataAdd u.headersData
    (some (⟨f.name.len % 2 ^ 16, f.value.len % 2 ^ 16, f.flags⟩ : FieldInfo).octets) 8 = r2 at hinfo ⊢
  have hname : ∀ n, headerDataAdd r2.2 none n = (.error, r2.2) := fun _ => rfl
  have hvalue : (if 0 < f.value.len % 2 ^ 16 then headerDataAdd r2.2 f.value.buf (f.value.len % 2 ^ 16)
      else (.ok, r2.2)).1.code ≤ 0 := by
    split_ifs
    · exact headerDataAdd_code_le _ _ _
    · exact (show Ret.ok.code ≤ 0 by decide)
  -- the codes are added up, and none of them is positive
  rw [hname, if_pos]
  · exact ⟨_, rfl, rfl⟩
  · show Ret.ok.code + r2.1.code + Ret.error.code + _ ≠ Ret.ok.code
    have hok : Ret.ok.code = 0 := rfl
    have herror : Ret.error.code = -1 := rfl
    dsimp only
    omega

/-- A field with a name is added, and so is one that empties the table. -/
theorem Holds.add_ok (h : Holds t es) (hsize : f.entry.size < 2 ^ 32)
    (hin : f.entry.size ≤ t.maxData → EvictionsInPlace t (t.maxData - f.entry.size))
    (hf : f.entry.name ≠ [] ∨ (f.entry.value ≠ [] ∧ t.maxData < f.entry.size)) :
    ∃ t' s, hpackHeaderTableAdd t f = .ok (.ok, t', s) := by
  have hok : AddOk t f := by
    refine ⟨hf.imp_right And.left, hsize, fun hfit => ⟨?_, hin hfit⟩⟩
    rcases hf with hname | ⟨-, hlt⟩
    · rw [ChulaBuffer.buf_eq hname]
      rfl
    · omega
  obtain ⟨⟨ret, t', s⟩, heq, hret⟩ := h.add_returns hok
  dsimp only at hret
  subst hret
  exact ⟨t', s, heq⟩

/-- A null name that fits is not, and the tail is moved. -/
theorem Holds.add_nameless (h : Holds t es) (hsize : f.entry.size < 2 ^ 32)
    (hin : f.entry.size ≤ t.maxData → EvictionsInPlace t (t.maxData - f.entry.size)) (hnull : f.name.buf = none)
    (hfit : ¬ (f.entry.value ≠ [] ∧ t.maxData < f.entry.size)) :
    ∃ t' s, hpackHeaderTableAdd t f = .ok (.error, t', s) ∧
      t'.headersOffsets.tail = (t.headersOffsets.tail + 1) % 128 := by
  have hname : f.name.bytes = [] := by rw [ChulaBuffer.bytes, hnull]; rfl
  by_cases hvalue : f.entry.value = []
  · -- an empty field is charged nothing, and no entry is evicted
    have hzero : hpackHeaderFieldGetSize f = 0 := by
      have hv : f.value.bytes = [] := hvalue
      rw [hpackHeaderFieldGetSize, chulaBufferIsEmpty, chulaBufferIsEmpty, ChulaBuffer.len, ChulaBuffer.len, hname, hv]
      rfl
    have hused := h.used_le
    have hno : ¬ addNeedsRoom (hpackHeaderFieldGetSize f) t = true := by
      rw [hzero, addNeedsRoom, decide_eq_true_iff]
      omega
    obtain ⟨t', heq, htail⟩ := h.add_null (t := t) (by omega) (evictUntil_done hno _ _) hnull
    exact ⟨t', _, heq, htail⟩
  · have hle : f.entry.size ≤ t.maxData := not_lt.mp fun hlt => hfit ⟨hvalue, hlt⟩
    have hget := getSize_eq_size (f := f) (.inr hvalue) hsize
    obtain ⟨d, s, -, -, heq, hdrop, -⟩ := h.add_loop hget hle (hin hle)
    obtain ⟨t', hadd, htail⟩ := hdrop.add_null (by omega) heq hnull
    exact ⟨t', s, hadd, htail⟩

end Null

/-- **An add is atomic**, and does not tell a null pointer from an empty string, when the field has a name or is larger
than the maximum. -/
theorem table_add_atomic (t0 : HeaderTable) (ops : List TableOp) (hok : TableRunOk t0 ops) :
    ∃ t, tableRun t0 ops = .ok t ∧ ∀ e : Entry, e.size < 2 ^ 32 →
      (e.size ≤ t.maxData → EvictionsInPlace t (t.maxData - e.size)) →
        (t.AddAtomic e ↔ e.name ≠ [] ∨ (e.value ≠ [] ∧ t.maxData < e.size)) := by
  obtain ⟨t, hrun, es, h⟩ := tableRun_holds hok
  refine ⟨t, hrun, fun e hsize hin => ?_⟩
  constructor
  · intro hatomic
    by_contra hnot
    rw [not_or, not_not] at hnot
    obtain ⟨hname, hfit⟩ := hnot
    have hentry : (⟨e.flags, ⟨none⟩, ⟨some e.value⟩⟩ : HeaderField).entry = e := by
      rw [HeaderField.entry, Entry.mk.injEq]
      exact ⟨hname.symm, rfl, rfl⟩
    obtain ⟨t', s, hadd, htail⟩ := h.add_nameless (f := ⟨e.flags, ⟨none⟩, ⟨some e.value⟩⟩) (by rwa [hentry])
      (by rwa [hentry]) rfl (by rwa [hentry])
    have hsame := (hatomic.rollback _ hentry _ _ _ hadd (by decide)).offsTail
    have hlt : t.headersOffsets.tail < 128 := by
      rw [h.offsTail]
      exact Nat.mod_lt _ (by decide)
    omega
  · intro hf
    constructor
    · intro f g hfe hge
      rcases hf with hname | ⟨hvalue, hlt⟩
      · exact hpackHeaderTableAdd_congr (hfe.trans hge.symm) (hfe ▸ hname) t
      · have hlarge : ∀ f : HeaderField, f.entry = e → t.maxData < hpackHeaderFieldGetSize f := by
          intro f hfe
          rw [getSize_eq_size (.inr (hfe ▸ hvalue)) (hfe ▸ hsize), hfe]
          exact hlt
        rw [hpackHeaderTableAdd_oversize (hlarge f hfe), hpackHeaderTableAdd_oversize (hlarge g hge)]
    · intro f hfe ret t' s hadd hret
      obtain ⟨t'', s', hadd'⟩ := h.add_ok (f := f) (by rwa [hfe]) (by rwa [hfe]) (by rwa [hfe])
      rw [hadd'] at hadd
      cases hadd
      exact absurd rfl hret

/-- A literal field whose name was never written to. -/
def nullNameField (value : List UInt8) : HeaderField :=
  ⟨⟨.isNew, .isNew, .repIncIndexed⟩, chulaBufferInit, chulaBufferFake value⟩

theorem table_add_atomic_named :
    ∃ t, tableRun zeroTable [.setMax 64, .add (plainField (ascii "a") (ascii "1"))] = .ok t ∧
      t.AddAtomic ⟨ascii "b", [], ⟨.isNew, .isNew, .repIncIndexed⟩⟩ := by
  obtain ⟨t, hrun, hall⟩ := table_add_atomic zeroTable [.setMax 64, .add (plainField (ascii "a") (ascii "1"))]
    (by decide)
  have hin : ∃ r, tableRun zeroTable [.setMax 64, .add (plainField (ascii "a") (ascii "1"))] = .ok r ∧
      EvictionsInPlace r (r.maxData - 33) := by decide
  have hplace := of_returns (P := fun r => EvictionsInPlace r (r.maxData - 33)) hin hrun
  refine ⟨t, hrun, (hall _ (by decide) fun _ => ?_).mpr (.inl (by decide))⟩
  rw [show Entry.size ⟨ascii "b", [], ⟨.isNew, .isNew, .repIncIndexed⟩⟩ = 33 by decide]
  exact hplace

/-- The same field, once with an empty name that is allocated and once with a null pointer. -/
theorem table_add_null_name : (nullNameField (ascii "v")).entry = (plainField [] (ascii "v")).entry ∧
    ∃ t, tableRun zeroTable [.add (plainField (ascii "a") (ascii "1"))] = .ok t ∧
      (∃ r, hpackHeaderTableAdd t (plainField [] (ascii "v")) = .ok r ∧ r.1 = .ok ∧ r.2.1.numHeaders = 2) ∧
      ∃ r, hpackHeaderTableAdd t (nullNameField (ascii "v")) = .ok r ∧ r.1 = .error ∧
        t.headersOffsets.tail = 1 ∧ r.2.1.headersOffsets.tail = 2 ∧
        t.headersData.tail = 10 ∧ r.2.1.headersData.tail = 19 := by
  decide

end LibHpack
