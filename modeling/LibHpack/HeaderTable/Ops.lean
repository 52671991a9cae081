import LibHpack.HeaderTable.Entries

/-!
# LibHpack.HeaderTable.Ops — what each operation does to the entries

One lemma for each operation of the table, on a table that holds `es`.  The operations read info blocks, names and
values with `headerDataCopy`, so each lemma has the condition that these reads are in place: `EvictionsInPlace` for the
evictions made to get down to a given room, `NameInPlace` and `ReadInPlace` for a lookup.
-/

namespace LibHpack

open LibHpack.Ring LibHpack.Fifo

/-! ### Slots and indices -/

namespace HeaderTable

variable (t : HeaderTable)

/-- The slots from the head, inclusive, to the tail, exclusive. -/
def Live (i : ℕ) : Prop :=
  i < 128 ∧ (i + 128 - t.headersOffsets.head) % 128 <
    (t.headersOffsets.tail + 128 - t.headersOffsets.head) % 128

instance (i : ℕ) : Decidable (t.Live i) := by unfold Live; infer_instance

theorem slot_inj {j k : ℕ} (hj : j < 128) (hk : k < 128) : t.slot j = t.slot k ↔ j = k := by
  simp only [slot]
  omega

end HeaderTable

namespace Holds

variable {t : HeaderTable} {es : List Entry}

theorem live_iff (h : Holds t es) {i : ℕ} : t.Live i ↔ ∃ k < es.length, i = t.slot k := by
  have hlen := h.length_le
  have hhead := h.offsHead
  simp only [HeaderTable.Live, HeaderTable.slot, h.offsTail]
  constructor
  · rintro ⟨h1, h2⟩
    exact ⟨(i + 128 - t.headersOffsets.head) % 128, by omega, by omega⟩
  · rintro ⟨k, hk, rfl⟩
    omega

theorem indexSwitch_index (h : Holds t es) {i : ℕ} (hi : i ≤ es.length) :
    indexSwitchHtHpack t i = t.slot (es.length - i) := by
  have hlen := h.length_le
  simp only [indexSwitchHtHpack, cbMask_eq, h.offsTail, HeaderTable.slot]
  omega

theorem live_index (h : Holds t es) {i : ℕ} (h1 : 1 ≤ i) (hi : i ≤ es.length) : t.Live (indexSwitchHtHpack t i) := by
  rw [h.indexSwitch_index hi, h.live_iff]
  exact ⟨es.length - i, by omega, rfl⟩

theorem indexSwitch_slot (h : Holds t es) {k : ℕ} (hk : k < es.length) :
    indexSwitchHtHpack t (t.slot k) = es.length - k := by
  have hlen := h.length_le
  simp only [indexSwitchHtHpack, cbMask_eq, h.offsTail, HeaderTable.slot]
  omega

theorem offsIsFull (h : Holds t es) : headerOffsIsFull t.headersOffsets = false :=
  headerOffsIsFull_eq h.offsTail (by have := h.length_le; omega)

theorem dropOldest_nil (h : Holds t es) : t.dropOldest [] = t := by
  simp only [HeaderTable.dropOldest, List.length_nil, total_nil, Nat.add_zero, Nat.sub_zero,
    Nat.mod_eq_of_lt h.offsHead, Nat.mod_eq_of_lt h.dataHead]

end Holds

/-! ### Eviction -/

/-- Every eviction made to get the total size down to `room` reads the lengths of its entry in place. -/
def EvictionsInPlace (t : HeaderTable) (room : ℕ) : Prop :=
  ∀ k < t.numHeaders, room < total Entry.size (t.entries.drop k) → InPlace (t.entryPos k) (t.entryPos k) 4 8

instance (t : HeaderTable) (room : ℕ) : Decidable (EvictionsInPlace t room) := by
  unfold EvictionsInPlace; infer_instance

/-- The eviction loop from `t` to `t'` in `n` evictions, each of them made on a table that is not empty. -/
inductive EvictLoop (more : HeaderTable → Bool) : HeaderTable → ℕ → HeaderTable → Prop
  | done {t : HeaderTable} (h : more t = false) : EvictLoop more t 0 t
  | evict {t t' t'' : HeaderTable} {n i : ℕ} (h : more t = true) (hnum : t.numHeaders ≠ 0)
      (hev : headerTableEvict t = .ok (.ok, t', some i)) (hloop : EvictLoop more t' n t'') :
      EvictLoop more t (n + 1) t''

/-- An eviction counts down, and one of an empty table changes nothing. -/
theorem headerTableEvict_num {t t' : HeaderTable} {i : Option ℕ} (hev : headerTableEvict t = .ok (.ok, t', i))
    (h16 : t.numHeaders < 2 ^ 16) : t'.numHeaders = t.numHeaders - 1 := by
  by_cases h0 : t.numHeaders = 0
  · rw [headerTableEvict, if_pos h0] at hev
    cases hev
    omega
  rw [headerTableEvict, if_neg h0] at hev
  dsimp only at hev
  split_ifs at hev
  · cases hev
  · obtain ⟨⟨ret, bs⟩, -, h2⟩ := bind_eq_ok hev
    cases h2
    simp only [cbMask_eq]
    omega

/-- The loop is over. -/
theorem evictUntil_done {more : HeaderTable → Bool} {t : HeaderTable} (hno : ¬ more t = true) (fuel : ℕ) (s : HpackSet) :
    evictUntil more fuel t s = .ok (.ok, t, s) := by
  cases fuel <;> rw [evictUntil, if_neg hno]

/-- The loop goes on behind an eviction. -/
theorem evictUntil_next {more : HeaderTable → Bool} {t t' : HeaderTable} {i : ℕ} (hyes : more t = true)
    (hev : headerTableEvict t = .ok (.ok, t', some i)) (fuel : ℕ) (s : HpackSet) :
    evictUntil more (fuel + 1) t s = evictUntil more fuel t' (hpackSetAdd s i).2 := by
  rw [evictUntil, if_pos hyes, hev]
  rfl

/-- **What every eviction preserves**, the loop preserves. -/
theorem evictUntil_preserves {more : HeaderTable → Bool} {I : HeaderTable → Prop}
    (hstep : ∀ t ret t' i, I t → headerTableEvict t = .ok (ret, t', i) → I t') {n : ℕ} {t t' : HeaderTable}
    {s s' : HpackSet} {ret : Ret} (hi : I t) (h : evictUntil more n t s = .ok (ret, t', s')) : I t' := by
  induction n generalizing t s with
  | zero =>
    rw [evictUntil] at h
    split_ifs at h
    cases h
    exact hi
  | succ n ih =>
    rw [evictUntil] at h
    split_ifs at h
    · obtain ⟨⟨ret1, t1, evicted⟩, hev, h⟩ := bind_eq_ok h
      have hi1 := hstep _ _ _ _ hi hev
      dsimp only at h
      split_ifs at h
      · cases h
        exact hi1
      · exact ih hi1 h
    · cases h
      exact hi

/-- More fuel than entries makes no difference: a loop that is not over by then never is. -/
theorem evictUntil_fuel {more : HeaderTable → Bool} {fuel : ℕ} {t : HeaderTable} {s : HpackSet}
    (h16 : t.numHeaders < 2 ^ 16) (hfuel : t.numHeaders ≤ fuel) :
    evictUntil more fuel t s = evictUntil more t.numHeaders t s := by
  induction fuel generalizing t s with
  | zero => rw [Nat.le_zero.mp hfuel]
  | succ fuel ih =>
    by_cases hm : more t = true
    swap
    · rw [evictUntil_done hm, evictUntil_done hm]
    rcases Nat.eq_zero_or_pos t.numHeaders with h0 | hpos
    · -- the empty table is evicted again and again
      have hev : headerTableEvict t = .ok (.ok, t, none) := by rw [headerTableEvict, if_pos h0]
      have hagain : evictUntil more (fuel + 1) t s = evictUntil more fuel t s := by
        rw [evictUntil, if_pos hm]
        simp only [hev, ok_bind, ne_eq, not_true_eq_false, if_false]
      rw [hagain, ih h16 (by omega)]
    · obtain ⟨n, hn⟩ : ∃ n, t.numHeaders = n + 1 := ⟨t.numHeaders - 1, by omega⟩
      rw [hn, evictUntil, evictUntil, if_pos hm, if_pos hm]
      cases hev : headerTableEvict t with
      | error e => simp only [error_bind]
      | ok r =>
        obtain ⟨ret, t', i⟩ := r
        simp only [ok_bind]
        split_ifs with hret
        · rfl
        · rw [ne_eq, not_not] at hret
          subst hret
          have hnum := headerTableEvict_num hev h16
          rw [ih (by omega) (by omega), hnum, hn, Nat.add_sub_cancel]

namespace Holds

variable {t : HeaderTable} {e : Entry} {es : List Entry}

/-- An eviction drops the oldest entry, and its slot is the head. -/
theorem evict_eq (h : Holds t (e :: es)) (hin : InPlace t.headersData.head t.headersData.head 4 8) :
    headerTableEvict t = .ok (.ok, t.dropOldest [e], some (t.slot 0)) := by
  have hnum := h.num
  have hused := h.used
  have hlen := h.length_le
  have htotal := h.total_le
  have hslot : t.headersOffsets.head = t.slot 0 := by
    simp only [HeaderTable.slot, Nat.add_zero, Nat.mod_eq_of_lt h.offsHead]
  have hpos : t.headersOffsets.buffer t.headersOffsets.head = t.headersData.head := by
    rw [hslot]
    exact h.entryPos_zero
  obtain ⟨bs, hcopy, -, htake⟩ := headerDataCopy_inPlace h.dataHead h.dataHead (by decide : 8 ≤ 4096) (by decide) hin
  obtain ⟨hn, hv⟩ := h.info_lt (List.mem_cons_self (a := e))
  have hg := (h.gather_entryPos (k := 0) (by simp)).1
  rw [h.entryPos_zero] at hg
  rw [hg] at htake
  obtain ⟨hname, hvalue⟩ := FieldInfo.ofOctets_lengths hn hv htake
  simp only [Entry.info] at hname hvalue
  simp only [List.length_cons, total_cons] at hnum hlen hused htotal
  have hnum0 : t.numHeaders ≠ 0 := by omega
  -- the counters do not wrap
  have h1 : (((t.numHeaders : ℤ) - 1) % (2 ^ 16 : ℕ)).toNat = t.numHeaders - 1 := by omega
  have h2 : (((t.usedData : ℤ) - (e.name.length + e.value.length + 32)) % (2 ^ 16 : ℕ)).toNat =
      t.usedData - e.size := by
    simp only [Entry.size] at hused htotal ⊢
    omega
  simp only [headerTableEvict, if_neg hnum0, hpos, ne_eq, not_true_eq_false, if_false,
    headerDataGet_eq (by decide : 8 ≤ 4096) hcopy, ok_bind, hname, hvalue, headerCbMove_offs, headerCbMove_data,
    cbMask_eq, h1, h2]
  rw [← hslot]
  simp only [HeaderTable.dropOldest, List.length_singleton, total_cons, total_nil, Nat.add_zero, Entry.stored]
  rfl

/-- A loop that has room already evicts nothing. -/
theorem evictUntil_room (more : HeaderTable → Bool) {room : ℕ} (h : Holds t es)
    (hmore : more t = decide (room < t.usedData)) (hroom : total Entry.size es ≤ room) (fuel : ℕ) (s : HpackSet) :
    EvictLoop more t 0 (t.dropOldest []) ∧ evictUntil more fuel t s = .ok (.ok, t.dropOldest [], s) := by
  have hno : more t = false := by
    rw [hmore, h.used]
    exact decide_eq_false (not_lt.mpr hroom)
  rw [h.dropOldest_nil]
  exact ⟨.done hno, evictUntil_done (by rw [hno]; exact Bool.false_ne_true) fuel s⟩

/-- **The eviction loop** drops the oldest entries until the rest fits, and collects their slots. -/
theorem evictUntil_eq (more : HeaderTable → Bool) {room fuel : ℕ} (h : Holds t es)
    (hmore : ∀ d, more (t.dropOldest d) = decide (room < (t.dropOldest d).usedData))
    (hin : ∀ k < es.length, room < total Entry.size (es.drop k) → InPlace (t.entryPos k) (t.entryPos k) 4 8)
    (hfuel : es.length ≤ fuel) (s : HpackSet) :
    ∃ d s', es = d ++ evictTo Entry.size room es ∧ EvictLoop more t d.length (t.dropOldest d) ∧
      evictUntil more fuel t s = .ok (.ok, t.dropOldest d, s') ∧
      ∀ i, hpackSetExists s' i = true ↔ hpackSetExists s i = true ∨ ∃ k < d.length, i = t.slot k := by
  have hmore0 := hmore []
  rw [h.dropOldest_nil] at hmore0
  induction es generalizing t fuel s with
  | nil =>
    obtain ⟨hloop, heq⟩ := h.evictUntil_room more hmore0 (Nat.zero_le room) fuel s
    exact ⟨[], s, rfl, hloop, heq, by simp⟩
  | cons e es ih =>
    by_cases hroom : total Entry.size (e :: es) ≤ room
    · obtain ⟨hloop, heq⟩ := h.evictUntil_room more hmore0 hroom fuel s
      exact ⟨[], s, by rw [evictTo_of_le hroom]; rfl, hloop, heq, by simp⟩
    have hyes : more t = true := by
      rw [hmore0, h.used]
      exact decide_eq_true (not_le.mp hroom)
    have hev := h.evict_eq (h.entryPos_zero ▸ hin 0 (Nat.succ_pos _) (not_le.mp hroom))
    obtain ⟨fuel, rfl⟩ := Nat.exists_eq_add_of_le' (Nat.zero_lt_of_lt hfuel)
    -- the rest of the loop runs on the table without the oldest entry
    have hslot : ∀ k, (t.dropOldest [e]).slot k = t.slot (k + 1) := fun k => by
      rw [Nat.add_comm k 1]
      exact t.slot_dropOldest [e] k
    have hpos : ∀ k, (t.dropOldest [e]).entryPos k = t.entryPos (k + 1) := fun k =>
      congrArg t.headersOffsets.buffer (hslot k)
    have hmore' : ∀ d, more ((t.dropOldest [e]).dropOldest d) =
        decide (room < ((t.dropOldest [e]).dropOldest d).usedData) := by
      intro d
      rw [HeaderTable.dropOldest_dropOldest]
      exact hmore _
    obtain ⟨d, s', hd, hloop, heq, hs'⟩ := ih h.dropOldest hmore'
      (fun k hk hr => by rw [hpos]; exact hin (k + 1) (Nat.succ_lt_succ hk) hr) (Nat.le_of_succ_le_succ hfuel)
      (hpackSetAdd s (t.slot 0)).2 (hmore [e])
    rw [HeaderTable.dropOldest_dropOldest] at hloop heq
    refine ⟨e :: d, s', ?_, ?_, ?_, ?_⟩
    · rw [evictTo_cons_of_lt (not_le.mp hroom), List.cons_append, ← hd]
    · exact .evict hyes (by rw [h.num]; simp) hev hloop
    · rw [evictUntil_next hyes hev]
      exact heq
    · intro i
      rw [hs' i, exists_add (t.slot_lt 0), Bool.or_eq_true, decide_eq_true_iff, List.length_cons, Nat.exists_lt_succ_left]
      simp only [hslot]
      tauto

end Holds

/-! ### Adding a field -/

/-- The block, the name and the value, written one after the other, are the octets of the entry. -/
theorem headerDataAdd_entry {h : HeadersDataCb} {u : ℕ} {e : Entry} {value : Option (List UInt8)}
    (ht : h.tail = (h.head + u) % 4096) (hfit : u + e.stored ≤ 4095) (hvalue : value.getD [] = e.value) :
    ∃ d1 d2, headerDataAdd h (some e.info.octets) 8 = (.ok, d1) ∧
      headerDataAdd d1 (some e.name) e.name.length = (.ok, d2) ∧
      (if 0 < e.value.length then headerDataAdd d2 value e.value.length else (.ok, d2)) =
        (.ok, { h with buffer := scatter h.buffer 4096 h.tail e.octets, tail := (h.tail + e.stored) % 4096 }) := by
  simp only [Entry.stored] at hfit
  have h1 := headerDataAdd_eq ht e.info.octets_length (by omega)
  have h2 := headerDataAdd_eq (h := { h with
    buffer := scatter h.buffer 4096 h.tail e.info.octets, tail := (h.tail + 8) % 4096 }) (u := u + 8)
    (by dsimp only; omega) (rfl : e.name.length = _) (by omega)
  have hname : scatter (scatter h.buffer 4096 h.tail e.info.octets) 4096 ((h.tail + 8) % 4096) e.name =
      scatter h.buffer 4096 h.tail (e.info.octets ++ e.name) := by
    rw [scatter_mod, ← e.info.octets_length, scatter_append (by rw [e.info.octets_length]; omega)]
  refine ⟨_, _, h1, h2, ?_⟩
  split_ifs with hv
  · have hsome : value = some e.value := by
      cases value with
      | none => rw [← hvalue] at hv; simp at hv
      | some v => rw [← hvalue]; rfl
    rw [hsome, headerDataAdd_eq (u := u + 8 + e.name.length) (by dsimp only; omega) rfl (by omega)]
    have hlen : (e.info.octets ++ e.name).length = 8 + e.name.length := by simp
    dsimp only
    rw [hname, scatter_mod, ← scatter_mod (p := (h.tail + 8) % 4096 + e.name.length), Nat.mod_add_mod, scatter_mod,
      Nat.add_assoc, ← hlen, scatter_append (by rw [hlen]; omega), hlen]
    simp only [Entry.octets, Entry.stored, List.append_assoc, Nat.mod_add_mod, Nat.add_assoc]
  · have hnil : e.value = [] := List.length_eq_zero_iff.mp (by omega)
    dsimp only
    rw [hname]
    simp only [Entry.octets, Entry.stored, hnil, List.append_nil, List.length_nil, Nat.add_zero, Nat.mod_add_mod,
      Nat.add_assoc]

/-- What an add needs: a field with contents, whose size is computed without wrap-around, and, when it fits, an
allocated name and evictions that are in place. -/
structure AddOk (t : HeaderTable) (f : HeaderField) : Prop where
  contents : f.entry.name ≠ [] ∨ f.entry.value ≠ []
  no_wrap : f.entry.size < 2 ^ 32
  fits : f.entry.size ≤ t.maxData → f.name.buf.isSome ∧ EvictionsInPlace t (t.maxData - f.entry.size)

instance (t : HeaderTable) (f : HeaderField) : Decidable (AddOk t f) :=
  decidable_of_iff ((f.entry.name ≠ [] ∨ f.entry.value ≠ []) ∧ f.entry.size < 2 ^ 32 ∧
      (f.entry.size ≤ t.maxData → f.name.buf.isSome ∧ EvictionsInPlace t (t.maxData - f.entry.size)))
    ⟨fun h => ⟨h.1, h.2.1, h.2.2⟩, fun h => ⟨h.contents, h.no_wrap, h.fits⟩⟩

/-- A field with contents is charged the size of its entry. -/
theorem getSize_eq_size {f : HeaderField} (h : f.entry.name ≠ [] ∨ f.entry.value ≠ []) (hlt : f.entry.size < 2 ^ 32) :
    hpackHeaderFieldGetSize f = f.entry.size := by
  refine hpackHeaderFieldGetSize_eq ?_ hlt
  rw [← Bool.not_eq_true, hpackHeaderFieldIsEmpty_iff, not_and_or]
  exact h

theorem AddOk.getSize_eq {t : HeaderTable} {f : HeaderField} (hok : AddOk t f) :
    hpackHeaderFieldGetSize f = f.entry.size := getSize_eq_size hok.contents hok.no_wrap

/-- Once there is room, the field is written behind the entries. -/
theorem Holds.add_write {t u : HeaderTable} {es : List Entry} {f : HeaderField} {s : HpackSet} (h : Holds u es)
    (hsize : hpackHeaderFieldGetSize f = f.entry.size) (hfit : f.entry.size ≤ t.maxData)
    (hloop : evictUntil (addNeedsRoom (hpackHeaderFieldGetSize f)) t.numHeaders t (hpackSetInit false) = .ok (.ok, u, s))
    (hbuf : f.name.buf.isSome) (hroom : u.usedData + f.entry.size ≤ u.maxData) :
    hpackHeaderTableAdd t f = .ok (.ok, u.push f.entry, s) := by
  have hmax := h.max_le
  have hlen := h.length_le
  have hnum := h.num
  have hused := h.used
  have hst := total_stored_le es
  have hst' := f.entry.stored_le_size
  obtain ⟨d1, d2, hw1, hw2, hw3⟩ := headerDataAdd_entry (e := f.entry) h.dataTail (by omega)
    (rfl : f.value.buf.getD [] = f.entry.value)
  -- the lengths are stored in 16 bits
  have hname : f.name.len % 2 ^ 16 = f.entry.name.length := by
    have : f.entry.name.length < 2 ^ 16 := by simp only [Entry.size] at hroom; omega
    exact Nat.mod_eq_of_lt this
  have hvalue : f.value.len % 2 ^ 16 = f.entry.value.length := by
    have : f.entry.value.length < 2 ^ 16 := by simp only [Entry.size] at hroom; omega
    exact Nat.mod_eq_of_lt this
  obtain ⟨bs, hbs⟩ := Option.isSome_iff_exists.mp hbuf
  have hbs' : f.name.buf = some f.entry.name := by
    simp only [HeaderField.entry, ChulaBuffer.bytes, hbs, Option.getD_some]
  have hinfo : (⟨f.entry.name.length, f.entry.value.length, f.flags⟩ : FieldInfo) = f.entry.info := rfl
  rw [hpackHeaderTableAdd, if_neg (by omega), hloop]
  simp only [ok_bind, ne_eq, not_true_eq_false, if_false, h.offsIsFull, Bool.false_eq_true,
    headerOffsAdd_eq h.offsTail (by omega), hname, hvalue, hbs', hinfo, hw1, hw2]
  rw [hw3]
  dsimp only
  have hnum16 : (u.numHeaders + 1) % 2 ^ 16 = u.numHeaders + 1 := Nat.mod_eq_of_lt (by omega)
  have hused16 : (u.usedData + f.entry.size) % 2 ^ 16 = u.usedData + f.entry.size := Nat.mod_eq_of_lt (by omega)
  rw [if_neg (by decide), hsize, hnum16, hused16]
  rfl

/-- A field larger than the maximum empties the table. -/
theorem hpackHeaderTableAdd_oversize {t : HeaderTable} {f : HeaderField}
    (hlt : t.maxData < hpackHeaderFieldGetSize f) :
    hpackHeaderTableAdd t f = .ok (.ok, hpackHeaderTableClear t, hpackSetFill) := by
  rw [hpackHeaderTableAdd]
  exact if_pos hlt

/-- The loop makes room for the field. -/
theorem Holds.add_loop {t : HeaderTable} {es : List Entry} {f : HeaderField} (h : Holds t es)
    (hsize : hpackHeaderFieldGetSize f = f.entry.size) (hfit : f.entry.size ≤ t.maxData)
    (hin : EvictionsInPlace t (t.maxData - f.entry.size)) :
    ∃ d s', es = d ++ evictTo Entry.size (t.maxData - f.entry.size) es ∧
      EvictLoop (addNeedsRoom (hpackHeaderFieldGetSize f)) t d.length (t.dropOldest d) ∧
      evictUntil (addNeedsRoom (hpackHeaderFieldGetSize f)) t.numHeaders t (hpackSetInit false) =
        .ok (.ok, t.dropOldest d, s') ∧
      Holds (t.dropOldest d) (evictTo Entry.size (t.maxData - f.entry.size) es) ∧
      ∀ i, hpackSetExists s' i = true ↔ ∃ k < d.length, i = t.slot k := by
  have hmore : ∀ d, addNeedsRoom (hpackHeaderFieldGetSize f) (t.dropOldest d) =
      decide (t.maxData - f.entry.size < (t.dropOldest d).usedData) := fun d => by
    simp only [addNeedsRoom, hsize, HeaderTable.maxData_dropOldest]
    exact decide_eq_decide.mpr (by omega)
  obtain ⟨d, s', hd, hloop, heq, hs'⟩ := h.evictUntil_eq _ hmore
    (fun k hk hr => hin k (h.num ▸ hk) (h.entries_eq ▸ hr)) h.num.ge (hpackSetInit false)
  exact ⟨d, s', hd, hloop, heq, Holds.dropOldest (hd ▸ h), fun i => by simpa using hs' i⟩

theorem Holds.add_eq {t : HeaderTable} {es : List Entry} {f : HeaderField} (h : Holds t es) (hok : AddOk t f)
    (hfit : f.entry.size ≤ t.maxData) :
    ∃ d s', es = d ++ evictTo Entry.size (t.maxData - f.entry.size) es ∧
      EvictLoop (addNeedsRoom (hpackHeaderFieldGetSize f)) t d.length (t.dropOldest d) ∧
      hpackHeaderTableAdd t f = .ok (.ok, (t.dropOldest d).push f.entry, s') ∧
      Holds ((t.dropOldest d).push f.entry) (evictTo Entry.size (t.maxData - f.entry.size) es ++ [f.entry]) ∧
      ∀ i, hpackSetExists s' i = true ↔ ∃ k < d.length, i = t.slot k := by
  have hsize := hok.getSize_eq
  obtain ⟨hbuf, hin⟩ := hok.fits hfit
  obtain ⟨d, s', hd, hloop, heq, hdrop, hs'⟩ := h.add_loop hsize hfit hin
  have hroom : (t.dropOldest d).usedData + f.entry.size ≤ (t.dropOldest d).maxData := by
    have := total_evictTo_le (w := Entry.size) (t.maxData - f.entry.size) es
    rw [hdrop.used, HeaderTable.maxData_dropOldest]
    omega
  exact ⟨d, s', hd, hloop, hdrop.add_write hsize hfit heq hbuf hroom, hdrop.push hok.contents hroom, hs'⟩

/-- An add returns, and is not refused. -/
theorem Holds.add_returns {t : HeaderTable} {es : List Entry} {f : HeaderField} (h : Holds t es) (hok : AddOk t f) :
    ∃ r, hpackHeaderTableAdd t f = .ok r ∧ r.1 = .ok := by
  by_cases hlt : t.maxData < hpackHeaderFieldGetSize f
  · exact ⟨_, hpackHeaderTableAdd_oversize hlt, rfl⟩
  · rw [hok.getSize_eq] at hlt
    obtain ⟨d, s, -, -, heq, -⟩ := h.add_eq hok (not_lt.mp hlt)
    exact ⟨_, heq, rfl⟩

/-! ### Changing the maximum -/

/-- What a size update needs: evictions that are in place, when it evicts one by one. -/
def SetMaxOk (t : HeaderTable) (max : ℕ) : Prop :=
  max % 2 ^ 16 ≤ 4096 → max % 2 ^ 16 ≠ 0 → EvictionsInPlace t (max % 2 ^ 16)

instance (t : HeaderTable) (max : ℕ) : Decidable (SetMaxOk t max) := by unfold SetMaxOk; infer_instance

theorem hpackHeaderTableSetMax_large {t : HeaderTable} {max : ℕ} (hlt : 4096 < max % 2 ^ 16) :
    hpackHeaderTableSetMax t max = .ok (.error, t, hpackSetInit false) := by
  rw [hpackHeaderTableSetMax]
  exact if_pos hlt

theorem hpackHeaderTableSetMax_zero {t : HeaderTable} {max : ℕ} (h0 : max % 2 ^ 16 = 0) :
    hpackHeaderTableSetMax t max =
      .ok (.ok, { hpackHeaderTableClear t with maxData := 0 }, hpackSetInit false) := by
  rw [hpackHeaderTableSetMax, h0]
  rfl

theorem Holds.setMax_eq {t : HeaderTable} {es : List Entry} {max : ℕ} (h : Holds t es) (hok : SetMaxOk t max)
    (hle : max % 2 ^ 16 ≤ 4096) (h0 : max % 2 ^ 16 ≠ 0) :
    ∃ d s', es = d ++ evictTo Entry.size (max % 2 ^ 16) es ∧
      hpackHeaderTableSetMax t max = .ok (.ok, { t.dropOldest d with maxData := max % 2 ^ 16 }, s') ∧
      Holds { t.dropOldest d with maxData := max % 2 ^ 16 } (evictTo Entry.size (max % 2 ^ 16) es) ∧
      ∀ i, hpackSetExists s' i = true ↔ ∃ k < d.length, i = t.slot k := by
  obtain ⟨d, s', hd, -, heq, hs'⟩ := h.evictUntil_eq (fun t => decide (max % 2 ^ 16 < t.usedData)) (fun _ => rfl)
    (fun k hk hr => hok hle h0 k (h.num ▸ hk) (h.entries_eq ▸ hr)) h.num.ge (hpackSetInit false)
  have hdrop : Holds (t.dropOldest d) (evictTo Entry.size (max % 2 ^ 16) es) := Holds.dropOldest (hd ▸ h)
  refine ⟨d, s', hd, ?_, hdrop.withMax (total_evictTo_le _ es) hle, fun i => ?_⟩
  · simp only [hpackHeaderTableSetMax, if_neg (show ¬ 4096 < max % 2 ^ 16 by omega), if_neg h0, heq]
    rfl
  · simpa using hs' i

/-! ### Lookup -/

/-- The block and the name of the `k`-th oldest entry are read in place. -/
def NameInPlace (t : HeaderTable) (k : ℕ) : Prop :=
  InPlace t.headersData.head (t.entryPos k) 5 8 ∧
    InPlace t.headersData.head ((t.entryPos k + 8) % 4096) (t.entryInfo k).nameLength (t.entryInfo k).nameLength

/-- So is its value. -/
def ReadInPlace (t : HeaderTable) (k : ℕ) : Prop :=
  NameInPlace t k ∧ InPlace t.headersData.head ((t.entryPos k + 8 + (t.entryInfo k).nameLength) % 4096)
    (t.entryInfo k).valueLength (t.entryInfo k).valueLength

instance (t : HeaderTable) (k : ℕ) : Decidable (NameInPlace t k) := by unfold NameInPlace; infer_instance

instance (t : HeaderTable) (k : ℕ) : Decidable (ReadInPlace t k) := by unfold ReadInPlace; infer_instance

/-- What a lookup of `e` makes of the field it is given. -/
def HeaderField.append (f : HeaderField) (e : Entry) (onlyName : Bool) : HeaderField where
  flags := e.flags
  name := chulaBufferAdd f.name e.name
  value := if onlyName then f.value else chulaBufferAdd f.value e.value

namespace Holds

variable {t : HeaderTable} {es : List Entry} {k : ℕ}

theorem getSetIdx_eq (h : Holds t es) (hk : k < es.length) (onlyName : Bool) (hname : NameInPlace t k)
    (hvalue : onlyName = false → ReadInPlace t k) (f : HeaderField) :
    hpackHeaderTableGetSetIdx t (t.slot k) onlyName f = .ok (.ok, f.append es[k] onlyName) := by
  have hslot := t.slot_lt k
  have hlen := h.length_le
  have hmem := List.getElem_mem hk
  have hsize := h.size_le hmem
  simp only [Entry.size] at hsize
  have hdata : hpackHeaderOffsetHasData t (t.slot k) = true := by
    rw [hpackHeaderOffsetHasData, h.indexSwitch_slot hk, h.num]
    exact decide_eq_true (by omega)
  have hpos : t.headersOffsets.buffer (t.slot k) = t.entryPos k := rfl
  have hposlt : t.entryPos k < 4096 := by rw [h.entryPos_eq hk]; exact Nat.mod_lt _ (by decide)
  obtain ⟨hinfo, hgn, hgv⟩ := h.gather_entryPos hk
  have hinfoEq : t.entryInfo k = es[k].info := h.entryInfo_eq hk
  -- the block
  obtain ⟨bs, hcopy, -, htake⟩ := headerDataCopy_inPlace h.dataHead hposlt (by decide : 8 ≤ 4096) (by decide) hname.1
  rw [hinfo] at htake
  obtain ⟨hn16, hv16⟩ := h.info_lt hmem
  have hof : FieldInfo.ofOctets bs = es[k].info := FieldInfo.ofOctets_eq hn16 hv16 htake
  -- the name
  have hin2 := hname.2
  rw [hinfoEq, Entry.info_nameLength] at hin2
  have hcopyName : headerDataCopy t.headersData ((t.entryPos k + 8) % 4096) es[k].name.length = .ok es[k].name := by
    rw [headerDataCopy_all h.dataHead (Nat.mod_lt _ (by decide)) (by omega) hin2, gather_mod, hgn]
  have hgetName := headerDataGetChula_eq f.name (by omega) hcopyName
  simp only [hpackHeaderTableGetSetIdx, Nat.mod_eq_of_lt (show t.slot k < 2 ^ 16 by omega),
    if_neg (show ¬ 128 ≤ t.slot k by omega), hdata, Bool.not_true, Bool.false_eq_true, if_false, hpos,
    headerDataGet_eq (by decide : 8 ≤ 4096) hcopy, ok_bind, hof, headerCbMove_data]
  rw [Entry.info_nameLength, hgetName]
  simp only [ok_bind, ne_eq, not_true_eq_false, decide_false, Bool.or_false]
  cases onlyName with
  | true => rfl
  | false =>
    simp only [Bool.false_eq_true, if_false, HeaderField.append]
    -- the value, which the source only copies when there is one
    have hin3 := (hvalue rfl).2
    rw [hinfoEq, Entry.info_nameLength, Entry.info_valueLength] at hin3
    have hcopyValue : headerDataCopy t.headersData ((t.entryPos k + 8 + es[k].name.length) % 4096)
        es[k].value.length = .ok es[k].value := by
      rw [headerDataCopy_all h.dataHead (Nat.mod_lt _ (by decide)) (by omega) hin3, gather_mod, hgv]
    have hgetValue := headerDataGetChula_eq f.value (by omega) hcopyValue
    rw [Nat.mod_add_mod]
    split_ifs with hv
    · rw [Entry.info_valueLength, hgetValue]
      rfl
    · have hnil : es[k].value = [] := List.length_eq_zero_iff.mp (by simpa [Entry.info] using hv)
      simp only [hnil, chulaBufferAdd, List.length_nil, if_true]
      rfl

/-- **A dynamic index** counts from the most recent entry. -/
theorem get_eq (h : Holds t es) (hk : k < es.length) (onlyName : Bool) (hname : NameInPlace t k)
    (hvalue : onlyName = false → ReadInPlace t k) (f : HeaderField) :
    hpackHeaderTableGet t (es.length - k) onlyName f = .ok (.ok, f.append es[k] onlyName, false) := by
  have hlen := h.length_le
  have hnum := h.num
  have hidx := h.indexSwitch_index (Nat.sub_le es.length k)
  rw [show es.length - (es.length - k) = k by omega] at hidx
  rw [hpackHeaderTableGet, Nat.mod_eq_of_lt (show es.length - k < 2 ^ 16 by omega)]
  dsimp only
  rw [if_neg (by omega), if_neg (by omega), hidx, h.getSetIdx_eq hk onlyName hname hvalue]
  rfl

end Holds

/-- A static index is the entry of the static table, and one beyond it is refused. -/
theorem hpackHeaderTableGet_static {t : HeaderTable} {n : ℕ} (hlt : t.numHeaders < n % 2 ^ 16)
    (hle : n % 2 ^ 16 ≤ 61 + t.numHeaders) (onlyName : Bool) (f : HeaderField) :
    hpackHeaderTableGet t n onlyName f =
      .ok (.ok, f.append (staticEntry (n % 2 ^ 16 - (t.numHeaders + 1))).entry onlyName, true) := by
  simp only [hpackHeaderTableGet, if_neg (show ¬ 61 + t.numHeaders < n % 2 ^ 16 by omega), if_pos hlt]
  cases onlyName <;> rfl

theorem hpackHeaderTableGet_notFound {t : HeaderTable} {n : ℕ} (hlt : 61 + t.numHeaders < n % 2 ^ 16)
    (onlyName : Bool) (f : HeaderField) : hpackHeaderTableGet t n onlyName f = .ok (.notFound, f, false) := by
  simp only [hpackHeaderTableGet, if_pos hlt]

/-! ### The evicted set -/

/-- The entry in slot `i` of `t` is still there in `t'`. -/
def Survives (t t' : HeaderTable) (i : ℕ) : Prop := t'.Live i ∧ t'.slotEntry i = t.slotEntry i

instance (t t' : HeaderTable) (i : ℕ) : Decidable (Survives t t' i) := by unfold Survives; infer_instance

/-- The set holds the slots of the entries that did not survive. -/
def ExactlyEvicted (t t' : HeaderTable) (s : HpackSet) : Prop :=
  ∀ i, hpackSetExists s i = true ↔ t.Live i ∧ ¬ Survives t t' i

/-- When the rings are not shifted, the oldest entries are the ones that do not survive. -/
theorem Holds.not_survives_iff {t t' : HeaderTable} {d r n : List Entry} (h : Holds t (d ++ r))
    (h' : Holds t' (r ++ n)) (hslot : ∀ j, t'.slot j = t.slot (d.length + j)) (hn : n.length ≤ 1) {i : ℕ} :
    t.Live i ∧ ¬ Survives t t' i ↔ ∃ k < d.length, i = t.slot k := by
  have hlen := h.length_le
  rw [List.length_append] at hlen
  rw [Survives, h.live_iff, h'.live_iff]
  constructor
  · rintro ⟨⟨k, hk, rfl⟩, hnot⟩
    refine ⟨k, not_le.mp fun hle => hnot ?_, rfl⟩
    -- an entry that is not among the oldest is where it was
    rw [List.length_append] at hk
    have hk' : k - d.length < (r ++ n).length := by rw [List.length_append]; omega
    have hs : t.slot k = t'.slot (k - d.length) := by rw [hslot]; congr 1; omega
    refine ⟨⟨k - d.length, hk', hs⟩, ?_⟩
    have h1 := h'.entry_eq hk'
    have h2 := h.entry_eq (k := k) (by rw [List.length_append]; omega)
    rw [HeaderTable.entry, ← hs, List.getElem_append_left (by omega)] at h1
    rw [HeaderTable.entry, List.getElem_append_right hle] at h2
    rw [h1, h2]
  · rintro ⟨k, hk, rfl⟩
    refine ⟨⟨k, by rw [List.length_append]; omega, rfl⟩, ?_⟩
    rintro ⟨⟨j, hj, heq⟩, -⟩
    rw [List.length_append] at hj
    rw [hslot, HeaderTable.slot_inj t (by omega) (by omega)] at heq
    omega

theorem Holds.add_exact {t : HeaderTable} {es : List Entry} {f : HeaderField} (h : Holds t es) (hok : AddOk t f)
    (hfit : f.entry.size ≤ t.maxData) :
    ∃ t' s, hpackHeaderTableAdd t f = .ok (.ok, t', s) ∧
      Holds t' (evictTo Entry.size (t.maxData - f.entry.size) es ++ [f.entry]) ∧ t'.maxData = t.maxData ∧
      ExactlyEvicted t t' s ∧ indexSwitchHtHpack t' 1 = t.slot es.length := by
  obtain ⟨d, s, hd, -, heq, hnew, hs⟩ := h.add_eq hok hfit
  have hslot : ∀ j, ((t.dropOldest d).push f.entry).slot j = t.slot (d.length + j) := t.slot_dropOldest d
  refine ⟨_, s, heq, hnew, rfl, fun i => ?_, ?_⟩
  · rw [hs i, Holds.not_survives_iff (hd ▸ h) hnew hslot le_rfl]
  · -- the newest entry is behind the old ones
    rw [hnew.indexSwitch_index (by simp), hslot]
    congr 1
    conv_rhs => rw [hd]
    simp

theorem Holds.setMax_exact {t : HeaderTable} {es : List Entry} {max : ℕ} (h : Holds t es) (hok : SetMaxOk t max)
    (hle : max % 2 ^ 16 ≤ 4096) (h0 : max % 2 ^ 16 ≠ 0) :
    ∃ t' s, hpackHeaderTableSetMax t max = .ok (.ok, t', s) ∧ Holds t' (evictTo Entry.size (max % 2 ^ 16) es) ∧
      t'.maxData = max % 2 ^ 16 ∧ ExactlyEvicted t t' s := by
  obtain ⟨d, s, hd, heq, hnew, hs⟩ := h.setMax_eq hok hle h0
  have hnew' := hnew
  rw [← List.append_nil (evictTo _ _ es)] at hnew'
  exact ⟨_, s, heq, hnew, rfl, fun i => (hs i).trans
    (Holds.not_survives_iff (hd ▸ h) hnew' (fun j => t.slot_dropOldest d j) (Nat.zero_le _)).symm⟩

/-- The slot behind the entries is not live. -/
theorem Holds.not_live_slot {t : HeaderTable} {es : List Entry} (h : Holds t es) : ¬ t.Live (t.slot es.length) := by
  have hlen := h.length_le
  rw [h.live_iff]
  rintro ⟨k, hk, heq⟩
  rw [HeaderTable.slot_inj t (by omega) (by omega)] at heq
  omega

end LibHpack
