import LibHpack.General.Fifo
import LibHpack.HeaderTable.Copy

/-!
# LibHpack.HeaderTable.Entries — the entries a table holds

`Holds t es` says that the two rings and the counters of `t` hold exactly the entries `es`, oldest first.  The entries
can be read off the rings (`HeaderTable.entries`), without the copies of the source; `Holds.entries_eq` says that this
gives back `es`.  The two ways in which an operation changes what is held are `HeaderTable.dropOldest` and
`HeaderTable.push`.
-/

namespace LibHpack

open LibHpack.Ring LibHpack.Fifo

/-- What the table keeps of a field. -/
structure Entry where
  name : List UInt8
  value : List UInt8
  flags : FieldFlags
  deriving DecidableEq, Repr

def HeaderField.entry (f : HeaderField) : Entry := ⟨f.name.bytes, f.value.bytes, f.flags⟩

namespace Entry

/-- The size of RFC accounting: `HPACK_HEADER_ENTRY_OVERHEAD` is 32. -/
def size (e : Entry) : ℕ := e.name.length + e.value.length + 32

def info (e : Entry) : FieldInfo := ⟨e.name.length, e.value.length, e.flags⟩

/-- The octets of the entry in the data ring. -/
def octets (e : Entry) : List UInt8 := e.info.octets ++ (e.name ++ e.value)

/-- How many there are. -/
def stored (e : Entry) : ℕ := 8 + e.name.length + e.value.length

@[simp] theorem octets_length (e : Entry) : e.octets.length = e.stored := by
  simp [octets, stored, Nat.add_assoc]

@[simp] theorem info_nameLength (e : Entry) : e.info.nameLength = e.name.length := rfl

@[simp] theorem info_valueLength (e : Entry) : e.info.valueLength = e.value.length := rfl

@[simp] theorem info_flags (e : Entry) : e.info.flags = e.flags := rfl

theorem stored_le_size (e : Entry) : e.stored + 24 = e.size := by
  simp only [stored, size]
  omega

theorem size_pos (e : Entry) : 0 < e.size := by simp only [size]; omega

end Entry

theorem total_stored_le (es : List Entry) : total Entry.stored es + 24 * es.length = total Entry.size es := by
  induction es with
  | nil => rfl
  | cons e es ih =>
    have := e.stored_le_size
    simp only [total_cons, List.length_cons]
    omega

/-- The entries of the static table have names, and are small. -/
theorem staticEntry_small : ∀ n < 61, (staticEntry n).entry.name ≠ [] ∧ (staticEntry n).entry.size < 100 := by
  decide +kernel

theorem length_le_total_size (es : List Entry) : 32 * es.length ≤ total Entry.size es :=
  length_mul_le_total fun e _ => by simp only [Entry.size]; omega

/-! ### Reading the entries off the rings -/

namespace HeaderTable

variable (t : HeaderTable)

/-- The block of the entry in slot `i`. -/
def slotInfo (i : ℕ) : FieldInfo :=
  FieldInfo.ofOctets (gather t.headersData.buffer 4096 (t.headersOffsets.buffer i) 8)

/-- The entry in slot `i`. -/
def slotEntry (i : ℕ) : Entry where
  name := gather t.headersData.buffer 4096 (t.headersOffsets.buffer i + 8) (t.slotInfo i).nameLength
  value := gather t.headersData.buffer 4096 (t.headersOffsets.buffer i + 8 + (t.slotInfo i).nameLength)
    (t.slotInfo i).valueLength
  flags := (t.slotInfo i).flags

/-- The slot of the `k`-th oldest entry. -/
def slot (k : ℕ) : ℕ := (t.headersOffsets.head + k) % 128

/-- Where its octets start. -/
def entryPos (k : ℕ) : ℕ := t.headersOffsets.buffer (t.slot k)

def entryInfo (k : ℕ) : FieldInfo := t.slotInfo (t.slot k)

def entry (k : ℕ) : Entry := t.slotEntry (t.slot k)

/-- The entries of the table, the oldest first. -/
def entries : List Entry := (List.range t.numHeaders).map t.entry

/-- The table without its oldest entries `d`. -/
def dropOldest (d : List Entry) : HeaderTable :=
  { t with
    headersOffsets := { t.headersOffsets with head := (t.headersOffsets.head + d.length) % 128 }
    headersData := { t.headersData with head := (t.headersData.head + total Entry.stored d) % 4096 }
    numHeaders := t.numHeaders - d.length
    usedData := t.usedData - total Entry.size d }

/-- The table with a new entry `e`. -/
def push (e : Entry) : HeaderTable :=
  { t with
    headersOffsets := { t.headersOffsets with
      buffer := Function.update t.headersOffsets.buffer t.headersOffsets.tail t.headersData.tail
      tail := (t.headersOffsets.tail + 1) % 128 }
    headersData := { t.headersData with
      buffer := scatter t.headersData.buffer 4096 t.headersData.tail e.octets
      tail := (t.headersData.tail + e.stored) % 4096 }
    numHeaders := t.numHeaders + 1
    usedData := t.usedData + e.size }

theorem slot_lt (k : ℕ) : t.slot k < 128 := Nat.mod_lt _ (by decide)

theorem dropOldest_dropOldest (d d' : List Entry) :
    (t.dropOldest d).dropOldest d' = t.dropOldest (d ++ d') := by
  simp only [dropOldest, Nat.mod_add_mod, List.length_append, total_append, Nat.add_assoc, Nat.sub_sub]

theorem slot_dropOldest (d : List Entry) (k : ℕ) : (t.dropOldest d).slot k = t.slot (d.length + k) := by
  simp only [slot, dropOldest, Nat.mod_add_mod, Nat.add_assoc]

@[simp] theorem maxData_dropOldest (d : List Entry) : (t.dropOldest d).maxData = t.maxData := rfl

end HeaderTable

/-! ### Entries one after another -/

/-- The entries are stored one after another, from slot `s` and from octet `p` on. -/
def Stored (offs : ℕ → ℕ) (data : ℕ → UInt8) : ℕ → ℕ → List Entry → Prop
  | _, _, [] => True
  | s, p, e :: es => offs (s % 128) = p % 4096 ∧ gather data 4096 p e.stored = e.octets ∧
      Stored offs data (s + 1) (p + e.stored) es

section Stored

variable {offs : ℕ → ℕ} {data : ℕ → UInt8} {s p : ℕ} {es fs : List Entry}

/-- Only the positions on the rings matter. -/
theorem Stored.congr {s' p' : ℕ} (h : Stored offs data s p es) (hs : s % 128 = s' % 128)
    (hp : p % 4096 = p' % 4096) : Stored offs data s' p' es := by
  induction es generalizing s s' p p' with
  | nil => trivial
  | cons e es ih =>
    obtain ⟨h1, h2, h3⟩ := h
    refine ⟨by rw [← hs, ← hp, h1], ?_, ih h3 (by omega) (by omega)⟩
    rw [← gather_mod, ← hp, gather_mod, h2]

theorem stored_append : Stored offs data s p (es ++ fs) ↔
    Stored offs data s p es ∧ Stored offs data (s + es.length) (p + total Entry.stored es) fs := by
  induction es generalizing s p with
  | nil => simp [Stored]
  | cons e es ih =>
    simp only [List.cons_append, Stored, ih, List.length_cons, total_cons, and_assoc]
    rw [show s + 1 + es.length = s + (es.length + 1) by omega, Nat.add_assoc]

/-- A new slot and new octets behind the entries leave them as they are. -/
theorem Stored.frame {s' q x : ℕ} {bs : List UInt8} (h : Stored offs data s p es) (hs : s + es.length ≤ s')
    (hs' : s' < s + 128) (hq : p + total Entry.stored es ≤ q) (hq' : q + bs.length ≤ p + 4096) :
    Stored (Function.update offs (s' % 128) x) (scatter data 4096 q bs) s p es := by
  induction es generalizing s p with
  | nil => trivial
  | cons e es ih =>
    obtain ⟨h1, h2, h3⟩ := h
    simp only [List.length_cons, total_cons] at hs hq
    refine ⟨?_, ?_, ih h3 (by omega) (by omega) (by omega) (by omega)⟩
    · rw [Function.update_of_ne (by omega), h1]
    · rw [gather_scatter_of_disjoint (by omega) hq', h2]

/-- The `k`-th entry in memory. -/
theorem Stored.get {k : ℕ} (h : Stored offs data s p es) (hk : k < es.length) :
    offs ((s + k) % 128) = (p + total Entry.stored (es.take k)) % 4096 ∧
      gather data 4096 (p + total Entry.stored (es.take k)) es[k].stored = es[k].octets := by
  have hsplit : es = es.take k ++ es[k] :: es.drop (k + 1) := by
    rw [List.getElem_cons_drop, List.take_append_drop]
  rw [hsplit] at h
  obtain ⟨-, h1, h2, -⟩ := stored_append.mp h
  rw [List.length_take, Nat.min_eq_left hk.le] at h1
  exact ⟨h1, h2⟩

end Stored

/-- **The representation invariant**: the table holds the entries `es`, the oldest first. -/
structure Holds (t : HeaderTable) (es : List Entry) : Prop where
  num : t.numHeaders = es.length
  offsHead : t.headersOffsets.head < 128
  offsTail : t.headersOffsets.tail = (t.headersOffsets.head + es.length) % 128
  dataHead : t.headersData.head < 4096
  dataTail : t.headersData.tail = (t.headersData.head + total Entry.stored es) % 4096
  stored : Stored t.headersOffsets.buffer t.headersData.buffer t.headersOffsets.head t.headersData.head es
  contents : ∀ e ∈ es, e.name ≠ [] ∨ e.value ≠ []
  used : t.usedData = total Entry.size es
  used_le : t.usedData ≤ t.maxData
  max_le : t.maxData ≤ 4096

namespace Holds

variable {t : HeaderTable} {e : Entry} {es d : List Entry}

theorem total_le (h : Holds t es) : total Entry.size es ≤ 4096 := by
  have h1 := h.used
  have h2 := h.used_le
  have h3 := h.max_le
  omega

/-- An entry with contents is larger than the overhead, so the ring of offsets is never full. -/
theorem length_le (h : Holds t es) : es.length ≤ 124 := by
  have h33 : ∀ e ∈ es, 33 ≤ e.size := fun e he => by
    simp only [Entry.size]
    rcases h.contents e he with hc | hc <;> have := List.length_pos_iff.mpr hc <;> omega
  have hle := length_mul_le_total h33
  have htotal := h.total_le
  omega

theorem size_le (h : Holds t es) (he : e ∈ es) : e.size ≤ 4096 := by
  obtain ⟨a, b, rfl⟩ := List.mem_iff_append.mp he
  have := h.total_le
  simp only [total_append, total_cons] at this
  omega

/-- A cleared table holds nothing. -/
theorem clear (t : HeaderTable) : Holds (hpackHeaderTableClear t) [] where
  num := rfl
  offsHead := show 0 < 128 by decide
  offsTail := rfl
  dataHead := show 0 < 4096 by decide
  dataTail := rfl
  stored := trivial
  contents := by simp
  used := rfl
  used_le := show 0 ≤ 4096 by decide
  max_le := show 4096 ≤ 4096 by decide

/-- The same table under another maximum. -/
theorem withMax (h : Holds t es) {max : ℕ} (hused : total Entry.size es ≤ max) (hmax : max ≤ 4096) :
    Holds { t with maxData := max } es :=
  { h with used_le := h.used.trans_le hused, max_le := hmax }

theorem dropOldest (h : Holds t (d ++ es)) : Holds (t.dropOldest d) es := by
  have hnum := h.num
  have hused := h.used
  have hle := h.used_le
  have htail := h.offsTail
  have hdtail := h.dataTail
  simp only [List.length_append, total_append] at hnum hused htail hdtail
  refine ⟨?_, ?_, ?_, ?_, ?_, ?_, fun e he => h.contents e (List.mem_append_right d he), ?_, ?_, h.max_le⟩
  · simp only [HeaderTable.dropOldest]; omega
  · exact Nat.mod_lt _ (by decide)
  · simp only [HeaderTable.dropOldest, Nat.mod_add_mod]; omega
  · exact Nat.mod_lt _ (by decide)
  · simp only [HeaderTable.dropOldest, Nat.mod_add_mod]; omega
  · exact (stored_append.mp h.stored).2.congr (by simp [HeaderTable.dropOldest]) (by simp [HeaderTable.dropOldest])
  · simp only [HeaderTable.dropOldest]; omega
  · simp only [HeaderTable.dropOldest]; omega

theorem push (h : Holds t es) (he : e.name ≠ [] ∨ e.value ≠ []) (hfit : t.usedData + e.size ≤ t.maxData) :
    Holds (t.push e) (es ++ [e]) := by
  have hused := h.used
  have hmax := h.max_le
  have hlen := length_le_total_size es
  have hst := total_stored_le es
  have hsize := e.stored_le_size
  refine ⟨by simp [HeaderTable.push, h.num], h.offsHead, ?_, h.dataHead, ?_, ?_, ?_, ?_, hfit, h.max_le⟩
  · simp [HeaderTable.push, h.offsTail, Nat.add_assoc]
  · simp [HeaderTable.push, h.dataTail, Nat.add_assoc]
  · -- the old entries are not touched, and the new one is where the tails were
    have hold := h.stored.frame (x := t.headersData.tail) (le_refl (t.headersOffsets.head + es.length)) (by omega)
      (le_refl (t.headersData.head + total Entry.stored es))
      (show t.headersData.head + total Entry.stored es + e.octets.length ≤ t.headersData.head + 4096 by
        rw [Entry.octets_length]; omega)
    rw [← h.offsTail, ← scatter_mod, ← h.dataTail] at hold
    refine stored_append.mpr ⟨hold, ?_, ?_, trivial⟩
    · simp [HeaderTable.push, h.offsTail, h.dataTail]
    · have hread := gather_scatter (m := t.headersData.buffer) (p := t.headersData.tail)
        (show e.octets.length ≤ 4096 by rw [Entry.octets_length]; omega)
      rw [Entry.octets_length] at hread
      rw [← gather_mod, show (t.push e).headersData.head = t.headersData.head from rfl, ← h.dataTail]
      exact hread
  · intro x hx
    rcases List.mem_append.mp hx with hx | hx
    · exact h.contents x hx
    · rw [List.mem_singleton.mp hx]; exact he
  · simp [HeaderTable.push, hused]

/-! ### The entries read off -/

section Read

variable {k : ℕ}

theorem entryPos_eq (h : Holds t es) (hk : k < es.length) :
    t.entryPos k = (t.headersData.head + total Entry.stored (es.take k)) % 4096 := (h.stored.get hk).1

theorem entryPos_zero (h : Holds t (e :: es)) : t.entryPos 0 = t.headersData.head := by
  rw [h.entryPos_eq (by simp), List.take_zero, total_nil, Nat.add_zero, Nat.mod_eq_of_lt h.dataHead]

/-- The octets at the position of an entry: its info block, its name and its value. -/
theorem gather_entryPos (h : Holds t es) (hk : k < es.length) :
    gather t.headersData.buffer 4096 (t.entryPos k) 8 = es[k].info.octets ∧
      gather t.headersData.buffer 4096 (t.entryPos k + 8) es[k].name.length = es[k].name ∧
      gather t.headersData.buffer 4096 (t.entryPos k + 8 + es[k].name.length) es[k].value.length = es[k].value := by
  have hg := (h.stored.get hk).2
  rw [← gather_mod, ← h.entryPos_eq hk, Entry.stored, Nat.add_assoc, Entry.octets] at hg
  obtain ⟨h1, h2⟩ := gather_eq_append hg es[k].info.octets_length
  obtain ⟨h3, h4⟩ := gather_eq_append h2 rfl
  exact ⟨h1, h3, h4⟩

theorem info_lt (h : Holds t es) (he : e ∈ es) : e.info.nameLength < 2 ^ 16 ∧ e.info.valueLength < 2 ^ 16 := by
  have := h.size_le he
  simp only [Entry.size] at this
  simp only [Entry.info]
  omega

theorem entryInfo_eq (h : Holds t es) (hk : k < es.length) : t.entryInfo k = es[k].info := by
  obtain ⟨hn, hv⟩ := h.info_lt (List.getElem_mem hk)
  have hinfo : t.entryInfo k = FieldInfo.ofOctets es[k].info.octets :=
    congrArg FieldInfo.ofOctets (h.gather_entryPos hk).1
  rw [hinfo]
  exact FieldInfo.ofOctets_eq hn hv rfl

theorem entry_eq (h : Holds t es) (hk : k < es.length) : t.entry k = es[k] := by
  obtain ⟨-, hname, hvalue⟩ := h.gather_entryPos hk
  have hinfo : t.slotInfo (t.slot k) = es[k].info := h.entryInfo_eq hk
  rw [HeaderTable.entryPos] at hname hvalue
  simp only [HeaderTable.entry, HeaderTable.slotEntry, hinfo, Entry.info_nameLength, Entry.info_valueLength,
    Entry.info_flags, hname, hvalue]

/-- **The entries are determined by the table.** -/
theorem entries_eq (h : Holds t es) : t.entries = es := by
  refine List.ext_getElem (by simp [HeaderTable.entries, h.num]) fun k h1 h2 => ?_
  simp only [HeaderTable.entries, List.getElem_map, List.getElem_range]
  exact h.entry_eq h2

end Read

end Holds

end LibHpack
