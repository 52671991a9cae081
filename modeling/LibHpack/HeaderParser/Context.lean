import LibHpack.HeaderTable.Runs
import LibHpack.HeaderParser.Cases

/-!
# LibHpack.HeaderParser.Context — the reference sets of a decoding context

`Context.Inv ctx es`: the table holds `es`, every reference is the slot of a live entry, and the references not emitted
yet are references.  An add goes through the reference sets by the slots it evicted, so what it does to them follows
from what `HeaderTable.Ops` says about the evicted set.
-/

namespace LibHpack

open LibHpack.Fifo

theorem indexSwitch_lt (t : HeaderTable) (i : ℕ) : indexSwitchHtHpack t i < 128 := by
  simp only [indexSwitchHtHpack, cbMask_eq]
  omega

section Sets

variable (t : HeaderTable) (s : HpackSet) (i j : ℕ)

theorem exists_tableSetAdd : hpackSetExists (hpackHeaderTableSetAdd t s i) j = true ↔
    j = indexSwitchHtHpack t i ∨ hpackSetExists s j = true := by
  rw [hpackHeaderTableSetAdd, exists_add (indexSwitch_lt t i), Bool.or_eq_true, decide_eq_true_iff]

theorem exists_tableSetRemove : hpackSetExists (hpackHeaderTableSetRemove t s i) j = true ↔
    j ≠ indexSwitchHtHpack t i ∧ hpackSetExists s j = true := by
  rw [hpackHeaderTableSetRemove, exists_remove (indexSwitch_lt t i), Bool.and_eq_true, Bool.not_eq_true',
    decide_eq_false_iff_not]

theorem exists_relativeComp_iff (s' : HpackSet) : hpackSetExists (hpackSetRelativeComp s s') j = true ↔
    hpackSetExists s j = true ∧ ¬ hpackSetExists s' j = true := by
  rw [exists_relativeComp, Bool.and_eq_true, Bool.not_eq_true', Bool.not_eq_true]

/-- Taking the evicted slots out of a set of live ones leaves those that survive. -/
theorem exists_comp_exact {t t' : HeaderTable} {s s' : HpackSet} {i : ℕ} (h : ExactlyEvicted t t' s')
    (hlive : hpackSetExists s i = true → t.Live i) : hpackSetExists (hpackSetRelativeComp s s') i = true ↔
    hpackSetExists s i = true ∧ Survives t t' i := by
  rw [exists_relativeComp_iff, h i]
  refine and_congr_right fun hi => ?_
  have := hlive hi
  tauto

end Sets

/-- **The invariant of a decoding context.** -/
structure Context.Inv (ctx : Context) (es : List Entry) : Prop where
  holds : Holds ctx.table es
  refs : ∀ i, hpackSetExists ctx.referenceSet i = true → ctx.table.Live i
  pending : ∀ i, hpackSetExists ctx.refNotEmitted i = true → hpackSetExists ctx.referenceSet i = true

/-- It is about the table and the sets only. -/
theorem Context.Inv.unfinished {ctx : Context} {es : List Entry} (h : ctx.Inv es) :
    ({ ctx with finished := false } : Context).Inv es :=
  ⟨h.holds, h.refs, h.pending⟩

/-- A fresh parser. -/
theorem Context.Inv.init (t0 : HeaderTable) : (hpackHeaderParserInit t0).Inv [] where
  holds := Holds.clear t0
  refs := by simp [hpackHeaderParserInit]
  pending := by simp [hpackHeaderParserInit]

/-! ### Adds -/

/-- An add that empties the table empties the reference sets. -/
theorem addField_oversize {ctx : Context} {f : HeaderField} (hlt : ctx.table.maxData < hpackHeaderFieldGetSize f) :
    addFieldProcessEvictions ctx f = .ok (.ok,
      { ctx with
        table := hpackHeaderTableClear ctx.table
        referenceSet := hpackSetClear
        refNotEmitted := hpackSetClear }, false) := by
  have hfull : hpackSetIsFull hpackSetFill = true := isFull_iff.mpr fun i hi => exists_fill hi
  have hcomp : ∀ s, hpackSetRelativeComp s hpackSetFill = hpackSetClear := fun s =>
    HpackSet.ext fun i hi => by simp [exists_relativeComp, exists_fill hi]
  rw [addFieldProcessEvictions, hpackHeaderTableAdd_oversize hlt]
  simp only [ok_bind, ne_eq, not_true_eq_false, if_false, hfull, hcomp]
  rfl

/-- An add that fits takes the references of the evicted entries away. -/
theorem Context.Inv.addField_fits {ctx : Context} {es : List Entry} {f : HeaderField} (h : ctx.Inv es)
    (hok : AddOk ctx.table f) (hfit : f.entry.size ≤ ctx.table.maxData) :
    ∃ ctx', addFieldProcessEvictions ctx f = .ok (.ok, ctx', true) ∧
      Holds ctx'.table (evictTo Entry.size (ctx.table.maxData - f.entry.size) es ++ [f.entry]) ∧
      ctx'.table.maxData = ctx.table.maxData ∧ indexSwitchHtHpack ctx'.table 1 = ctx.table.slot es.length ∧
      (∀ i, hpackSetExists ctx'.referenceSet i = true ↔
        hpackSetExists ctx.referenceSet i = true ∧ Survives ctx.table ctx'.table i) ∧
      (∀ i, hpackSetExists ctx'.refNotEmitted i = true ↔
        hpackSetExists ctx.refNotEmitted i = true ∧ Survives ctx.table ctx'.table i) ∧
      ctx'.iterNotEmitted = ctx.iterNotEmitted ∧ ctx'.finished = ctx.finished := by
  obtain ⟨t', s, heq, hnew, hmax, hexact, hone⟩ := h.holds.add_exact hok hfit
  -- the slot behind the entries is not in the set
  have hfull : hpackSetIsFull s = false := by
    rw [← Bool.not_eq_true, isFull_iff]
    exact fun hall => h.holds.not_live_slot ((hexact _).mp (hall _ (ctx.table.slot_lt es.length))).1
  refine ⟨{ ctx with
    table := t'
    referenceSet := hpackSetRelativeComp ctx.referenceSet s
    refNotEmitted := hpackSetRelativeComp ctx.refNotEmitted s }, ?_, hnew, hmax, hone,
    fun i => exists_comp_exact hexact (h.refs i), fun i => exists_comp_exact hexact fun hi => h.refs i (h.pending i hi),
    rfl, rfl⟩
  rw [addFieldProcessEvictions, heq]
  simp only [ok_bind, ne_eq, not_true_eq_false, if_false, hfull]
  rfl

/-- The context after a field is inserted and referenced as index 1. -/
def Context.reference (ctx : Context) : Context :=
  { ctx with
    referenceSet := hpackHeaderTableSetAdd ctx.table ctx.referenceSet 1
    refNotEmitted := hpackHeaderTableSetRemove ctx.table ctx.refNotEmitted 1 }

/-- **Inserting a field and referencing it**: the references are those of the entries that are left, and the new one;
its slot was not live. -/
theorem Context.Inv.insert {ctx : Context} {es : List Entry} {f : HeaderField} (h : ctx.Inv es)
    (hok : AddOk ctx.table f) (hfit : f.entry.size ≤ ctx.table.maxData) :
    ∃ ctx', addFieldProcessEvictions ctx f = .ok (.ok, ctx', true) ∧
      ctx'.reference.Inv (evictTo Entry.size (ctx.table.maxData - f.entry.size) es ++ [f.entry]) ∧
      ctx'.table.maxData = ctx.table.maxData ∧ indexSwitchHtHpack ctx'.table 1 = ctx.table.slot es.length ∧
      (∀ i, hpackSetExists ctx'.reference.referenceSet i = true ↔ i = indexSwitchHtHpack ctx'.table 1 ∨
        (hpackSetExists ctx.referenceSet i = true ∧ Survives ctx.table ctx'.table i)) ∧
      (∀ i, hpackSetExists ctx'.reference.refNotEmitted i = true ↔
        hpackSetExists ctx.refNotEmitted i = true ∧ Survives ctx.table ctx'.table i) ∧
      ctx'.iterNotEmitted = ctx.iterNotEmitted ∧ ctx'.finished = ctx.finished := by
  obtain ⟨ctx', heq, hnew, hmax, hone, hrefs, hpending, hiter, hfin⟩ := h.addField_fits hok hfit
  have hrefs' : ∀ i, hpackSetExists ctx'.reference.referenceSet i = true ↔ i = indexSwitchHtHpack ctx'.table 1 ∨
      (hpackSetExists ctx.referenceSet i = true ∧ Survives ctx.table ctx'.table i) := fun i => by
    rw [Context.reference, exists_tableSetAdd, hrefs]
  have hpending' : ∀ i, hpackSetExists ctx'.reference.refNotEmitted i = true ↔
      hpackSetExists ctx.refNotEmitted i = true ∧ Survives ctx.table ctx'.table i := fun i => by
    rw [Context.reference, exists_tableSetRemove, hone, hpending]
    refine and_iff_right_of_imp ?_
    rintro ⟨hi, -⟩ rfl
    exact h.holds.not_live_slot (h.refs _ (h.pending _ hi))
  refine ⟨ctx', heq, ⟨hnew, fun i hi => ?_, fun i hi => ?_⟩, hmax, hone, hrefs', hpending', hiter, hfin⟩
  · rcases (hrefs' i).mp hi with rfl | ⟨-, hs⟩
    · exact hnew.live_index (by simp) (by simp)
    · exact hs.1
  · obtain ⟨hi', hs⟩ := (hpending' i).mp hi
    exact (hrefs' i).mpr (.inr ⟨h.pending i hi', hs⟩)

end LibHpack
