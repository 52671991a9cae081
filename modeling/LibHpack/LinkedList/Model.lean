import Mathlib.Tactic

/-!
# LibHpack.LinkedList.Model — circular doubly linked lists (libchula list.h, list.c)

A `ListHeap` holds the two links of every entry.  `next` is never the null pointer; `prev` is one for the first entry of
what a pass of `chula_list_sort` has merged so far.  The counters of the sort are of type `int`: a value from 2^31 on is
an overflow, which ends the model, as does a dereferenced null pointer.  A loop whose turns run out is a `hang`.
-/

namespace LibHpack

inductive ListFault
  | null
  | overflow
  | hang
  deriving DecidableEq, Repr

/-- The links of all entries. -/
structure ListHeap (α : Type) where
  next : α → α
  prev : α → Option α

namespace ListHeap

variable {α : Type} [DecidableEq α]

def setNext (h : ListHeap α) (a b : α) : ListHeap α := { h with next := Function.update h.next a b }

def setPrev (h : ListHeap α) (a : α) (b : Option α) : ListHeap α := { h with prev := Function.update h.prev a b }

/-- `chula_list_del`. -/
def chulaListDel (h : ListHeap α) (entry : α) : Except ListFault (ListHeap α) :=
  let h := h.setPrev (h.next entry) (h.prev entry)
  match h.prev entry with
  | none => .error .null
  | some prev => .ok (h.setNext prev (h.next entry))

end ListHeap

/-! ### Sorting -/

/-- The local variables of a pass of `chula_list_sort`. -/
structure Merge (α : Type) where
  heap : ListHeap α
  list : Option α
  tail : Option α
  p : Option α
  psize : ℕ
  q : Option α
  qsize : ℕ

section Sorting

variable {α : Type} [DecidableEq α] (cmp : α → α → ℤ) (oldhead : α)

/-- The `for` loop that steps `q` over the run of `p`: `psize` and `q` after at most `k` turns. -/
def skipRun (h : ListHeap α) : ℕ → α → ℕ → ℕ × Option α
  | 0, q, psize => (psize, some q)
  | k + 1, q, psize => if h.next q = oldhead then (psize + 1, none) else skipRun h k (h.next q) (psize + 1)

namespace Merge

/-- `e = p; p = p->next; psize--`. -/
def takeP (s : Merge α) : Except ListFault (α × Merge α) :=
  match s.p with
  | none => .error .null
  | some e =>
    .ok (e, { s with p := if s.heap.next e = oldhead then none else some (s.heap.next e), psize := s.psize - 1 })

/-- `e = q; q = q->next; qsize--`. -/
def takeQ (s : Merge α) : Except ListFault (α × Merge α) :=
  match s.q with
  | none => .error .null
  | some e =>
    .ok (e, { s with q := if s.heap.next e = oldhead then none else some (s.heap.next e), qsize := s.qsize - 1 })

/-- The entry that is next. -/
def choose (s : Merge α) : Except ListFault (α × Merge α) :=
  if s.psize = 0 then s.takeQ oldhead
  else if s.qsize = 0 ∨ s.q = none then s.takeP oldhead
  else
    match s.p, s.q with
    | some p, some q => if cmp p q ≤ 0 then s.takeP oldhead else s.takeQ oldhead
    | _, _ => .error .null

/-- Put the entry behind the ones that are merged. -/
def link (s : Merge α) (e : α) : Merge α :=
  let s :=
    match s.tail with
    | some tail => { s with heap := s.heap.setNext tail e }
    | none => { s with list := some e }
  { s with heap := s.heap.setPrev e s.tail, tail := some e }

/-- The loop that merges two runs. -/
def mergeLoop : ℕ → Merge α → Except ListFault (Merge α)
  | 0, s => .ok s
  | k + 1, s =>
    if 0 < s.psize ∨ (0 < s.qsize ∧ s.q ≠ none) then do
      let (e, s) ← s.choose cmp oldhead
      mergeLoop k (s.link e)
    else .ok s

/-- The loop over the runs, `while (p)`, and `nmerges`. -/
def passLoop (insize : ℕ) : ℕ → Merge α → ℕ → Except ListFault (Merge α × ℕ)
  | 0, _, _ => .error .hang
  | turns + 1, s, nmerges =>
    match s.p with
    | none => .ok (s, nmerges)
    | some p =>
      if 2 ^ 31 ≤ nmerges + 1 then .error .overflow
      else do
        let (psize, q) := skipRun oldhead s.heap insize p 0
        let s ← mergeLoop cmp oldhead (psize + insize) { s with psize := psize, q := q, qsize := insize }
        passLoop insize turns { s with p := s.q } (nmerges + 1)

end Merge

/-- The loop over the passes, `for (;;)`. -/
def sortLoop (turns : ℕ) : ℕ → ListHeap α → α → ℕ → Except ListFault (ListHeap α × α)
  | 0, _, _, _ => .error .hang
  | k + 1, heap, list, insize => do
    let (s, nmerges) ← Merge.passLoop cmp list insize turns ⟨heap, none, none, some list, 0, none, 0⟩ 0
    match s.tail, s.list with
    | some tail, some list =>
      let heap := (s.heap.setNext tail list).setPrev list (some tail)
      if nmerges ≤ 1 then .ok (heap, list)
      else if 2 ^ 31 ≤ insize * 2 then .error .overflow
      else sortLoop turns k heap list (insize * 2)
    | _, _ => .error .null

omit cmp oldhead in
/-- The end of `chula_list_sort`: the head is put in front of the ring that begins at `list`. -/
def reattach (head : α) (h : ListHeap α) (list : α) : Except ListFault (ListHeap α) :=
  let h := h.setNext head list
  let h := h.setPrev head (h.prev list)
  match h.prev list with
  | none => .error .null
  | some last => .ok ((h.setNext last head).setPrev list (some head))

/-- `chula_list_sort`, with at most `turns` turns of each of its loops. -/
def chulaListSort (turns : ℕ) (head : α) (h : ListHeap α) : Except ListFault (ListHeap α) := do
  let list := h.next head
  let h ← h.chulaListDel head
  let (h, list) ← sortLoop cmp turns turns h list 1
  reattach head h list

end Sorting

end LibHpack
