import LibHpack.LinkedList.Model

/-!
# LibHpack.LinkedList.Calls — the other calls on linked lists (libchula list.h, list.c)

The statements of a call stand in the order of the source, as each of them reads the links that those before it have set.
`ListOp` is a call on some list of a program; the lists share one memory.
-/

namespace LibHpack

namespace ListHeap

variable {α : Type} [DecidableEq α]

/-- `INIT_LIST_HEAD`. -/
def initListHead (h : ListHeap α) (ptr : α) : ListHeap α := (h.setNext ptr ptr).setPrev ptr (some ptr)

/-- `chula_list_empty`. -/
def chulaListEmpty (h : ListHeap α) (list : α) : Bool := h.next list = list

/-- `chula_list_add`. -/
def chulaListAdd (h : ListHeap α) (newEntry head : α) : ListHeap α :=
  let h := h.setNext newEntry (h.next head)
  let h := h.setPrev newEntry (some head)
  let h := h.setPrev (h.next head) (some newEntry)
  h.setNext head newEntry

/-- `chula_list_add_tail`. -/
def chulaListAddTail (h : ListHeap α) (newEntry head : α) : Except ListFault (ListHeap α) :=
  let h := h.setNext newEntry head
  let h := h.setPrev newEntry (h.prev head)
  match h.prev head with
  | none => .error .null
  | some last => .ok ((h.setNext last newEntry).setPrev head (some newEntry))

/-- `chula_list_reparent`. -/
def chulaListReparent (h : ListHeap α) (list newEntry : α) : Except ListFault (ListHeap α) :=
  if h.chulaListEmpty list then .ok h
  else
    let h := h.setNext newEntry (h.next list)
    let h := h.setPrev newEntry (h.prev list)
    match h.prev newEntry with
    | none => .error .null
    | some last =>
      let h := h.setNext last newEntry
      .ok (h.setPrev (h.next newEntry) (some newEntry))

/-- `list_for_each (pos, head)` from `pos` on, with at most `turns` turns: the entries that it comes to. -/
def listForEach (h : ListHeap α) (head : α) : ℕ → α → Except ListFault (List α)
  | 0, _ => .error .hang
  | turns + 1, pos =>
    if pos = head then .ok []
    else do
      let rest ← listForEach h head turns (h.next pos)
      .ok (pos :: rest)

/-- The loop of `chula_list_get_len`; `n` is of type `uint32_t`. -/
def getLenLoop (h : ListHeap α) (head : α) : ℕ → α → ℕ → Except ListFault ℕ
  | 0, _, _ => .error .hang
  | turns + 1, i, n => if i = head then .ok n else getLenLoop h head turns (h.next i) ((n + 1) % 2 ^ 32)

/-- `chula_list_get_len`. -/
def chulaListGetLen (turns : ℕ) (h : ListHeap α) (head : α) : Except ListFault ℕ :=
  getLenLoop h head turns (h.next head) 0

/-- `list_for_each_safe (i, tmp, head) chula_list_add (i, &new_list)`, from `i` and `tmp` on. -/
def invertLoop (head newList : α) : ℕ → ListHeap α → α → α → Except ListFault (ListHeap α)
  | 0, _, _, _ => .error .hang
  | turns + 1, h, i, tmp =>
    if i = head then .ok h
    else
      let h := h.chulaListAdd i newList
      invertLoop head newList turns h tmp (h.next tmp)

/-- `chula_list_invert`; `newList` is its local variable. -/
def chulaListInvert (turns : ℕ) (h : ListHeap α) (head newList : α) : Except ListFault (ListHeap α) := do
  let h := h.initListHead newList
  let h ← invertLoop head newList turns h (h.next head) (h.next (h.next head))
  h.chulaListReparent newList head

end ListHeap

/-- A call on a list. -/
inductive ListOp (α : Type)
  | init (ptr : α)
  | add (newEntry head : α)
  | addTail (newEntry head : α)
  | del (entry : α)
  | reparent (list newEntry : α)
  | invert (head newList : α)
  deriving DecidableEq, Repr

variable {α : Type} [DecidableEq α]

def ListOp.exec (turns : ℕ) (h : ListHeap α) : ListOp α → Except ListFault (ListHeap α)
  | .init ptr => .ok (h.initListHead ptr)
  | .add newEntry head => .ok (h.chulaListAdd newEntry head)
  | .addTail newEntry head => h.chulaListAddTail newEntry head
  | .del entry => h.chulaListDel entry
  | .reparent list newEntry => h.chulaListReparent list newEntry
  | .invert head newList => h.chulaListInvert turns head newList

end LibHpack
