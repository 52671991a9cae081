import LibHpack.General.Run
import LibHpack.HeaderTable.Ops

/-!
# LibHpack.HeaderTable.Runs — the table over whole runs

A run starts from `hpack_header_table_init`, on whatever the memory holds, and performs adds, size updates and clears
in any order.  Side by side with the table runs its specification, a bounded FIFO of entries (`fifoStep`).  The one
step lemma is `tableStep_holds`: an operation that meets its condition (`TableOpOk`) leaves a table that holds what the
FIFO holds.  Each result below says what follows for every run whose operations meet their conditions, and is followed
by a run on which the condition fails and so does the result.
-/

namespace LibHpack

open LibHpack.Run LibHpack.Fifo

inductive TableOp
  | add (field : HeaderField)
  | setMax (max : ℕ)
  | clear

/-- One call, whatever it returns. -/
def tableStep (t : HeaderTable) : TableOp → C HeaderTable
  | .add field => do
    let (_, t', _) ← hpackHeaderTableAdd t field
    return t'
  | .setMax max => do
    let (_, t', _) ← hpackHeaderTableSetMax t max
    return t'
  | .clear => .ok (hpackHeaderTableClear t)

/-- The same call on a bounded FIFO, under the maximum the table has when the call starts. -/
def fifoStep (t : HeaderTable) (q : List Entry) : TableOp → List Entry
  | .add field => Fifo.add Entry.size t.maxData field.entry q
  | .setMax max => evictTo Entry.size (max % 2 ^ 16) q
  | .clear => []

def TableOpOk (t : HeaderTable) : TableOp → Prop
  | .add field => AddOk t field
  | .setMax max => SetMaxOk t max
  | .clear => True

instance (t : HeaderTable) (op : TableOp) : Decidable (TableOpOk t op) := by
  cases op <;> unfold TableOpOk <;> infer_instance

/-- **The step lemma.** -/
theorem tableStep_holds {t : HeaderTable} {q : List Entry} {op : TableOp} (h : Holds t q) (hok : TableOpOk t op) :
    ∃ t', tableStep t op = .ok t' ∧ Holds t' (fifoStep t q op) := by
  cases op with
  | add field =>
    have hok : AddOk t field := hok
    simp only [fifoStep]
    by_cases hlt : t.maxData < field.entry.size
    · rw [add_of_lt hlt, tableStep, hpackHeaderTableAdd_oversize (by rwa [hok.getSize_eq])]
      exact ⟨_, rfl, Holds.clear t⟩
    · obtain ⟨d, s', -, -, heq, hnew, -⟩ := h.add_eq hok (by omega)
      rw [add_of_le (by omega), tableStep, heq]
      exact ⟨_, rfl, hnew⟩
  | setMax max =>
    have hok : SetMaxOk t max := hok
    simp only [fifoStep]
    by_cases hlt : 4096 < max % 2 ^ 16
    · rw [evictTo_of_le (h.total_le.trans hlt.le), tableStep, hpackHeaderTableSetMax_large hlt]
      exact ⟨_, rfl, h⟩
    by_cases h0 : max % 2 ^ 16 = 0
    · rw [h0, evictTo_zero fun e _ => e.size_pos, tableStep, hpackHeaderTableSetMax_zero h0]
      exact ⟨_, rfl, (Holds.clear t).withMax le_rfl (Nat.zero_le _)⟩
    · obtain ⟨d, s', -, heq, hnew, -⟩ := h.setMax_eq hok (by omega) h0
      rw [tableStep, heq]
      exact ⟨_, rfl, hnew⟩
  | clear => exact ⟨_, rfl, Holds.clear t⟩

/-- A run from `hpack_header_table_init`. -/
def tableRun (t0 : HeaderTable) (ops : List TableOp) : C HeaderTable :=
  run tableStep (hpackHeaderTableInit t0) ops

def TableRunOk (t0 : HeaderTable) (ops : List TableOp) : Prop :=
  Meets tableStep TableOpOk (hpackHeaderTableInit t0) ops

instance (t0 : HeaderTable) (ops : List TableOp) : Decidable (TableRunOk t0 ops) := by
  unfold TableRunOk; infer_instance

/-- The run lemma: the table holds something in the end. -/
theorem tableRun_holds {t0 : HeaderTable} {ops : List TableOp} (hok : TableRunOk t0 ops) :
    ∃ t, tableRun t0 ops = .ok t ∧ ∃ es, Holds t es :=
  run_total (I := fun t => ∃ es, Holds t es)
    (fun _ _ ⟨_, h⟩ hop => let ⟨t', h1, h2⟩ := tableStep_holds h hop; ⟨t', h1, _, h2⟩)
    ops (hpackHeaderTableInit t0) ⟨[], Holds.clear t0⟩ hok

/-! ### Refinement of the FIFO -/

/-- **The table refines the bounded FIFO**: a lookup that is in place gives the entry of the FIFO. -/
theorem table_refines_fifo (t0 : HeaderTable) (ops : List TableOp) (hok : TableRunOk t0 ops) :
    ∃ t q, run (pair fifoStep tableStep) (hpackHeaderTableInit t0, []) ops = .ok (t, q) ∧
      t.numHeaders = q.length ∧
      ∀ i, 1 ≤ i → i ≤ t.numHeaders → ReadInPlace t (t.numHeaders - i) →
        ∀ f, hpackHeaderFieldIsEmpty f = true →
          ∃ e f', q.reverse[i - 1]? = some e ∧ f'.name.bytes = e.name ∧ f'.value.bytes = e.value ∧
            f'.flags = e.flags ∧ hpackHeaderTableGet t i false f = .ok (.ok, f', false) ∧
            hpackHeaderTableGetSetIdx t (indexSwitchHtHpack t i) false f = .ok (.ok, f') := by
  obtain ⟨t, q, hrun, h⟩ := run_simulation (R := Holds) (fun _ _ _ h hop => tableStep_holds h hop)
    ops _ [] (Holds.clear t0) hok
  refine ⟨t, q, hrun, h.num, fun i h1 hi hread f hf => ?_⟩
  obtain ⟨hn, hv⟩ := (hpackHeaderFieldIsEmpty_iff f).mp hf
  rw [h.num] at hi hread
  have hk : q.length - i < q.length := by omega
  refine ⟨q[q.length - i], f.append q[q.length - i] false, ?_, ?_, ?_, rfl, ?_, ?_⟩
  · rw [List.getElem?_reverse (by omega), List.getElem?_eq_getElem (by omega)]
    congr 2
    omega
  · simp [HeaderField.append, hn]
  · simp [HeaderField.append, hv]
  · have hget := h.get_eq hk false hread.1 (fun _ => hread) f
    rwa [show q.length - (q.length - i) = i by omega] at hget
  · rw [h.indexSwitch_index hi]
    exact h.getSetIdx_eq hk false hread.1 (fun _ => hread) f

section Samples

/-- Memory full of zeros. -/
def zeroTable : HeaderTable := ⟨⟨fun _ => 0, 0, 0⟩, ⟨fun _ => 0, 0, 0⟩, 0, 0, 0⟩

/-- A literal field over two allocated buffers. -/
def plainField (name value : List UInt8) : HeaderField :=
  ⟨⟨.isNew, .isNew, .repIncIndexed⟩, chulaBufferFake name, chulaBufferFake value⟩

end Samples

theorem table_refines_fifo_evicting :
    ∃ t q f', run (pair fifoStep tableStep) (hpackHeaderTableInit zeroTable, [])
        [.setMax 64, .add (plainField (ascii "a") (ascii "1")), .add (plainField (ascii "b") (ascii "2"))] = .ok (t, q) ∧
      q.reverse[0]? = some f'.entry ∧ hpackHeaderTableGet t 1 false hpackHeaderFieldInit = .ok (.ok, f', false) := by
  obtain ⟨t, q, hrun, -, hget⟩ := table_refines_fifo zeroTable
    [.setMax 64, .add (plainField (ascii "a") (ascii "1")), .add (plainField (ascii "b") (ascii "2"))]
    (by decide +kernel)
  have hin : ∃ r, run (pair fifoStep tableStep) (hpackHeaderTableInit zeroTable, [])
      [.setMax 64, .add (plainField (ascii "a") (ascii "1")), .add (plainField (ascii "b") (ascii "2"))] = .ok r ∧
      1 ≤ r.1.numHeaders ∧ ReadInPlace r.1 (r.1.numHeaders - 1) := by decide +kernel
  obtain ⟨h1, hread⟩ := of_returns hin hrun
  obtain ⟨e, f', he, hn, hv, hflags, hg, -⟩ := hget 1 le_rfl h1 hread hpackHeaderFieldInit rfl
  refine ⟨t, q, f', hrun, ?_, hg⟩
  rw [he, HeaderField.entry, hn, hv, hflags]

/-- With the head at 2048, the name of the one entry is read from where an evicted one was. -/
theorem table_refines_fifo_misread :
    ∃ r, run (pair fifoStep tableStep) (hpackHeaderTableInit zeroTable, [])
        [.setMax 2100, .add (plainField (List.replicate 2040 120) []), .add (plainField (ascii "yyy") [])] = .ok r ∧
      r.1.numHeaders = 1 ∧ r.2 = [(plainField (ascii "yyy") []).entry] ∧
      ∃ g, hpackHeaderTableGet r.1 1 false hpackHeaderFieldInit = .ok g ∧ g.2.1.name.bytes ≠ ascii "yyy" := by
  decide +kernel

/-! ### Termination of an add -/

/-- **An add terminates and succeeds**: its loop makes at most `num_headers` evictions, none of them of an empty
table, and does not find the ring of offsets full. -/
theorem table_add_terminates (t0 : HeaderTable) (ops : List TableOp) (f : HeaderField)
    (hok : TableRunOk t0 (ops ++ [.add f])) :
    ∃ t, tableRun t0 ops = .ok t ∧
      (t.maxData < hpackHeaderFieldGetSize f ∨ ∃ n t', n ≤ t.numHeaders ∧
        EvictLoop (addNeedsRoom (hpackHeaderFieldGetSize f)) t n t' ∧ headerOffsIsFull t'.headersOffsets = false) ∧
      ∃ t' s, hpackHeaderTableAdd t f = .ok (.ok, t', s) := by
  obtain ⟨hops, hlast⟩ := meets_concat.mp hok
  obtain ⟨t, hrun, es, h⟩ := tableRun_holds hops
  have hf : AddOk t f := hlast t hrun
  refine ⟨t, hrun, ?_⟩
  by_cases hlt : t.maxData < hpackHeaderFieldGetSize f
  · exact ⟨.inl hlt, _, _, hpackHeaderTableAdd_oversize hlt⟩
  · rw [hf.getSize_eq] at hlt
    obtain ⟨d, s', hd, hloop, heq, -, -⟩ := h.add_eq hf (by omega)
    refine ⟨.inr ⟨d.length, t.dropOldest d, ?_, hloop, ?_⟩, _, _, heq⟩
    · rw [h.num, hd, List.length_append]
      exact Nat.le_add_right _ _
    · exact (Holds.dropOldest (hd ▸ h)).offsIsFull

theorem table_add_terminates_evicting :
    ∃ t, tableRun zeroTable [.setMax 64, .add (plainField (ascii "a") (ascii "1"))] = .ok t ∧
      (t.maxData < hpackHeaderFieldGetSize (plainField (ascii "b") []) ∨ ∃ n t', n ≤ t.numHeaders ∧
        EvictLoop (addNeedsRoom (hpackHeaderFieldGetSize (plainField (ascii "b") []))) t n t' ∧
          headerOffsIsFull t'.headersOffsets = false) ∧
      ∃ t' s, hpackHeaderTableAdd t (plainField (ascii "b") []) = .ok (.ok, t', s) :=
  table_add_terminates zeroTable _ _ (by decide +kernel)

/-- An empty field is charged nothing and discharged 32: the counter goes below zero and the loop never ends. -/
theorem table_add_hangs :
    ∃ t, tableRun zeroTable [.setMax 66, .add (plainField [] []), .add (plainField (List.replicate 34 97) [])] = .ok t ∧
      hpackHeaderTableAdd t (plainField (ascii "a") []) = .error .hang := by
  decide +kernel

/-! ### The representation invariant, read off the counters -/

/-- Walk `n` slots from `s` on, the first of them holding the offset `p`; `none` when a slot holds another offset. -/
def HeaderTable.walk (t : HeaderTable) : ℕ → ℕ → ℕ → Option ℕ
  | 0, _, p => some p
  | n + 1, s, p =>
    if t.headersOffsets.buffer s = p then
      t.walk n ((s + 1) % 128) ((p + 8 + (t.slotInfo s).nameLength + (t.slotInfo s).valueLength) % 4096)
    else none

/-- The five counters and the two rings agree. -/
structure HeaderTable.Consistent (t : HeaderTable) : Prop where
  num : (t.numHeaders : ℤ) = ((t.headersOffsets.tail : ℤ) - t.headersOffsets.head) % 128
  num_le : t.numHeaders ≤ 127
  walk : t.walk t.numHeaders t.headersOffsets.head t.headersData.head = some t.headersData.tail
  used : t.usedData = ((List.range t.numHeaders).map fun k =>
    (t.entryInfo k).nameLength + (t.entryInfo k).valueLength + 32).sum
  used_le : t.usedData ≤ t.maxData
  max_le : t.maxData ≤ 4096

theorem HeaderTable.walk_stored {t : HeaderTable} {es : List Entry} {s p : ℕ}
    (h : Stored t.headersOffsets.buffer t.headersData.buffer s p es)
    (hsize : ∀ e ∈ es, e.info.nameLength < 2 ^ 16 ∧ e.info.valueLength < 2 ^ 16) :
    t.walk es.length (s % 128) (p % 4096) = some ((p + total Entry.stored es) % 4096) := by
  induction es generalizing s p with
  | nil => rfl
  | cons e es ih =>
    obtain ⟨h1, h2, h3⟩ := h
    obtain ⟨hn, hv⟩ := hsize e List.mem_cons_self
    have hinfo : t.slotInfo (s % 128) = e.info := by
      rw [Entry.stored, Nat.add_assoc, Entry.octets] at h2
      rw [slotInfo, h1, Ring.gather_mod, (Ring.gather_eq_append h2 e.info.octets_length).1]
      exact FieldInfo.ofOctets_eq hn hv rfl
    have ih' := ih h3 fun x hx => hsize x (List.mem_cons_of_mem e hx)
    rw [List.length_cons, walk, if_pos h1, hinfo, Entry.info_nameLength, Entry.info_valueLength, total_cons,
      ← Nat.add_assoc p, ← ih']
    congr 1
    · omega
    · simp only [Entry.stored]
      omega

theorem Holds.consistent {t : HeaderTable} {es : List Entry} (h : Holds t es) : t.Consistent where
  num := by
    have h1 := h.num
    have h2 := h.offsTail
    have h3 := h.length_le
    have h4 := h.offsHead
    omega
  num_le := by
    have h1 := h.num
    have h2 := h.length_le
    omega
  walk := by
    have hw := HeaderTable.walk_stored h.stored fun e he => h.info_lt he
    rwa [Nat.mod_eq_of_lt h.offsHead, Nat.mod_eq_of_lt h.dataHead, ← h.dataTail, ← h.num] at hw
  used := by
    rw [h.used, total, ← h.entries_eq, HeaderTable.entries, List.map_map]
    refine congrArg List.sum (List.map_congr_left fun k hk => ?_)
    have hk' : k < es.length := h.num ▸ List.mem_range.mp hk
    simp only [Function.comp_apply, h.entry_eq hk', h.entryInfo_eq hk', Entry.size, Entry.info]
  used_le := h.used_le
  max_le := h.max_le

/-- **The counters agree in every table a run reaches.** -/
theorem table_consistent (t0 : HeaderTable) (ops : List TableOp) (hok : TableRunOk t0 ops) :
    ∃ t, tableRun t0 ops = .ok t ∧ t.Consistent :=
  let ⟨t, hrun, _, h⟩ := tableRun_holds hok
  ⟨t, hrun, h.consistent⟩

theorem table_consistent_evicting :
    ∃ t, tableRun zeroTable [.setMax 64, .add (plainField (ascii "a") (ascii "1")),
      .add (plainField (ascii "b") (ascii "2"))] = .ok t ∧ t.Consistent :=
  table_consistent zeroTable _ (by decide +kernel)

/-- After an empty field `used_data` is 0, with one entry of size 32. -/
theorem table_consistent_uncharged :
    ∃ t, tableRun zeroTable [.add (plainField [] [])] = .ok t ∧ ¬ (t.usedData = ((List.range t.numHeaders).map fun k =>
      (t.entryInfo k).nameLength + (t.entryInfo k).valueLength + 32).sum) := by
  decide

/-! ### The evicted set -/

/-- **The evicted set is exact** for a size update other than to zero, and for an add, which may also return the full
set after it emptied the table. -/
theorem table_evicted_exact (t0 : HeaderTable) (ops : List TableOp) (hok : TableRunOk t0 ops) :
    ∃ t, tableRun t0 ops = .ok t ∧
      (∀ f, AddOk t f → ∃ t' s, hpackHeaderTableAdd t f = .ok (.ok, t', s) ∧
        (ExactlyEvicted t t' s ∨
          s = hpackSetFill ∧ t.maxData < hpackHeaderFieldGetSize f ∧ t'.numHeaders = 0)) ∧
      ∀ max, SetMaxOk t max → max % 2 ^ 16 ≤ 4096 → (max % 2 ^ 16 = 0 → t.numHeaders = 0) →
        ∃ t' s, hpackHeaderTableSetMax t max = .ok (.ok, t', s) ∧ ExactlyEvicted t t' s := by
  obtain ⟨t, hrun, es, h⟩ := tableRun_holds hok
  refine ⟨t, hrun, fun f hf => ?_, fun max hmax hle hzero => ?_⟩
  · by_cases hlt : t.maxData < hpackHeaderFieldGetSize f
    · exact ⟨_, _, hpackHeaderTableAdd_oversize hlt, .inr ⟨rfl, hlt, rfl⟩⟩
    · rw [hf.getSize_eq] at hlt
      obtain ⟨t', s, heq, -, -, hexact, -⟩ := h.add_exact hf (by omega)
      exact ⟨t', s, heq, .inl hexact⟩
  · by_cases h0 : max % 2 ^ 16 = 0
    · refine ⟨_, _, hpackHeaderTableSetMax_zero h0, fun i => ?_⟩
      have hnil : es = [] := List.length_eq_zero_iff.mp (h.num ▸ hzero h0)
      rw [h.live_iff, hnil]
      simp
    · obtain ⟨t', s, heq, -, -, hexact⟩ := h.setMax_exact hmax hle h0
      exact ⟨t', s, heq, hexact⟩

theorem table_evicted_exact_both :
    ∃ t, tableRun zeroTable [.setMax 64, .add (plainField (ascii "a") (ascii "1"))] = .ok t ∧
      (∃ t' s, hpackHeaderTableAdd t (plainField (ascii "b") []) = .ok (.ok, t', s) ∧ ExactlyEvicted t t' s) ∧
      ∃ t' s, hpackHeaderTableSetMax t 33 = .ok (.ok, t', s) ∧ ExactlyEvicted t t' s := by
  obtain ⟨t, hrun, hadd, hmax⟩ := table_evicted_exact zeroTable
    [.setMax 64, .add (plainField (ascii "a") (ascii "1"))] (by decide)
  have hin : ∃ r, tableRun zeroTable [.setMax 64, .add (plainField (ascii "a") (ascii "1"))] = .ok r ∧
      AddOk r (plainField (ascii "b") []) ∧ ¬ r.maxData < hpackHeaderFieldGetSize (plainField (ascii "b") []) ∧
      SetMaxOk r 33 := by decide
  obtain ⟨h1, h2, h3⟩ := of_returns hin hrun
  refine ⟨t, hrun, ?_, hmax 33 h3 (by decide) fun h => absurd h (by decide)⟩
  obtain ⟨t', s, heq, hexact | ⟨-, hlt, -⟩⟩ := hadd _ h1
  · exact ⟨t', s, heq, hexact⟩
  · exact absurd hlt h2

/-- A size update to zero drops the entry in slot 0 and reports nothing. -/
theorem table_evicted_missing :
    ∃ t, tableRun zeroTable [.add (plainField (ascii "a") [])] = .ok t ∧
      ∃ r, hpackHeaderTableSetMax t 0 = .ok r ∧ r.1 = .ok ∧ t.Live 0 ∧ ¬ Survives t r.2.1 0 ∧
        hpackSetExists r.2.2 0 = false := by
  decide

end LibHpack
