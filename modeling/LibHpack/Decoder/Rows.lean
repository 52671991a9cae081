import LibHpack.Decoder.Model
import LibHpack.HeaderParser.Literals
import LibHpack.HeaderParser.Session

/-!
# LibHpack.Decoder.Rows — the rows of a decoding context

The rows of a context are read off its table and its two sets, slot by slot.  An add and a size update move the slots:
the entries that are left are where they were (`Shifted`), so their rows stay as they are, and what is known about the
evictions of the table says which ones are left.
-/

namespace LibHpack

open LibHpack.Fifo LibHpack.Decoder

namespace Context

variable (ctx : Context)

/-- The row of slot `i`. -/
def row (i : ℕ) : Row := ⟨(ctx.table.slotEntry i).pair, hpackSetExists ctx.referenceSet i, hpackSetExists ctx.refNotEmitted i⟩

/-- **The abstraction function.** -/
def state : Decoder.State where
  rows := (List.range ctx.table.numHeaders).map fun k => ctx.row (ctx.table.slot k)
  max := ctx.table.maxData

@[simp] theorem state_rows_length : ctx.state.rows.length = ctx.table.numHeaders := by simp [state]

@[simp] theorem state_max : ctx.state.max = ctx.table.maxData := rfl

theorem getElem_rows {k : ℕ} (hk : k < ctx.state.rows.length) : ctx.state.rows[k] = ctx.row (ctx.table.slot k) := by
  simp [state]

theorem getElem?_rows {k : ℕ} (hk : k < ctx.table.numHeaders) :
    ctx.state.rows[k]? = some (ctx.row (ctx.table.slot k)) := by
  rw [List.getElem?_eq_getElem (by rwa [state_rows_length]), getElem_rows]

end Context

/-- The static fields. -/
def staticPairs : List Pair := (List.range 61).map fun n => (staticEntry n).pair

variable {ctx ctx' : Context} {es d r n : List Entry} {e : Entry} {k num : ℕ}

/-- The weights of the rows are those of the entries. -/
theorem Context.Inv.map_size (h : ctx.Inv es) : ctx.state.rows.map Row.size = es.map Entry.size := by
  refine List.ext_getElem (by simp [h.holds.num]) fun k h1 h2 => ?_
  rw [List.getElem_map, List.getElem_map, Context.getElem_rows, ← h.holds.entry_eq]
  rfl

/-! ### Lookups -/

theorem getElem?_staticPairs (hnum : num < 61) : staticPairs[num]? = some (staticEntry num).pair := by
  simp [staticPairs, hnum]

/-- **The field with an index** is that of the entry with it. -/
theorem Context.Inv.lookup (h : ctx.Inv es) (h1 : 1 ≤ num) (hle : num ≤ 61 + ctx.table.numHeaders) :
    ctx.state.lookup staticPairs num = some (ctx.indexed num).pair := by
  have hnum := h.holds.num
  have hlen : (ctx.state.rows.reverse.map Row.pair).length = ctx.table.numHeaders := by simp
  rw [State.lookup, if_neg (by omega), Context.indexed]
  split_ifs with hdyn
  · have hk : ctx.table.numHeaders - num < ctx.state.rows.length := by rw [Context.state_rows_length]; omega
    rw [List.getElem?_append_left (by omega), List.getElem?_map, List.getElem?_reverse (by simp; omega),
      Context.state_rows_length, show ctx.table.numHeaders - 1 - (num - 1) = ctx.table.numHeaders - num by omega,
      ctx.getElem?_rows (by omega), h.holds.indexSwitch_index (hnum ▸ hdyn), hnum]
    rfl
  · rw [List.getElem?_append_right (by omega), hlen, getElem?_staticPairs (by omega), Context.static,
      show num - 1 - ctx.table.numHeaders = num - (ctx.table.numHeaders + 1) by omega]
    rfl

/-- There are no others. -/
theorem Context.lookup_none (hbig : 61 + ctx.table.numHeaders < num) : ctx.state.lookup staticPairs num = none := by
  rw [State.lookup, if_neg (by omega), List.getElem?_eq_none]
  simp [staticPairs]
  omega

/-! ### Evictions -/

/-- The entries behind the oldest ones `d` are where they were. -/
structure Shifted (t t' : HeaderTable) (d r n : List Entry) : Prop where
  old : Holds t (d ++ r)
  new : Holds t' (r ++ n)
  slot : ∀ j, t'.slot j = t.slot (d.length + j)

/-- They survive. -/
theorem Shifted.survives {t t' : HeaderTable} (h : Shifted t t' d r n) (hk : k < r.length) :
    Survives t t' (t'.slot k) := by
  have hlive : t'.Live (t'.slot k) := h.new.live_iff.mpr ⟨k, by rw [List.length_append]; omega, rfl⟩
  refine ⟨hlive, ?_⟩
  have hnew := h.new.entry_eq (k := k) (by rw [List.length_append]; omega)
  have hold := h.old.entry_eq (k := d.length + k) (by rw [List.length_append]; omega)
  rw [List.getElem_append_left (by omega)] at hnew
  rw [List.getElem_append_right (by omega)] at hold
  simp only [Nat.add_sub_cancel_left] at hold
  rw [HeaderTable.entry] at hnew hold
  rw [hnew, h.slot, hold]

/-- **The rows that are left stay as they are**, when the sets keep the slots that survive. -/
theorem Shifted.rows (h : Shifted ctx.table ctx'.table d r n)
    (hrefs : ∀ k < r.length, hpackSetExists ctx'.referenceSet (ctx'.table.slot k) =
      hpackSetExists ctx.referenceSet (ctx'.table.slot k))
    (hpending : ∀ k < r.length, hpackSetExists ctx'.refNotEmitted (ctx'.table.slot k) =
      hpackSetExists ctx.refNotEmitted (ctx'.table.slot k)) :
    ctx'.state.rows = ctx.state.rows.drop d.length ++
      (List.range n.length).map fun j => ctx'.row (ctx'.table.slot (r.length + j)) := by
  have hnum := h.old.num
  have hnum' := h.new.num
  rw [List.length_append] at hnum hnum'
  refine List.ext_getElem (by simp [hnum, hnum']) fun k h1 h2 => ?_
  rw [Context.getElem_rows]
  by_cases hk : k < r.length
  · rw [List.getElem_append_left (by simp; omega), List.getElem_drop, Context.getElem_rows, Context.row, Context.row,
      (h.survives hk).2, hrefs k hk, hpending k hk, h.slot]
  · have hk' : r.length + (k - (ctx.table.numHeaders - d.length)) = k := by omega
    rw [List.getElem_append_right (by simp; omega), List.getElem_map, List.getElem_range, List.length_drop,
      Context.state_rows_length, hk']

/-- What is left when there has to be room. -/
theorem Context.Inv.evictTo_rows {room : ℕ} (h : ctx.Inv es) (hd : es = d ++ evictTo Entry.size room es) :
    ctx.state.rows.drop d.length = evictTo Row.size room ctx.state.rows := by
  have hlen := evictTo_length_congr room _ _ h.map_size
  have hd' := congrArg List.length hd
  have hnum := h.holds.num
  rw [List.length_append] at hd'
  rw [List.suffix_iff_eq_drop.mp (evictTo_suffix room ctx.state.rows), hlen, Context.state_rows_length, hnum]
  congr 1
  omega

/-- The oldest entries are evicted. -/
theorem exists_evicted (room : ℕ) (es : List Entry) : ∃ d, es = d ++ evictTo Entry.size room es := by
  obtain ⟨d, hd⟩ := evictTo_suffix (w := Entry.size) room es
  exact ⟨d, hd.symm⟩

end LibHpack
