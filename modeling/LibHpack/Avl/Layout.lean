import LibHpack.Avl.Model
import LibHpack.General.AvlLevels

/-!
# LibHpack.Avl.Layout — a threaded tree in memory

`cells t pred succ` are the nodes that the tree `t` consists of, where `pred` and `succ` are the entries around it: the
threads of its first and its last node lead there.  `pathCells c a h` are those of the nodes above a position and of the
trees next to it, as they are when the tree at the position has the root `a` and is counted with the height `h`.
-/

namespace LibHpack.Avl

open BinaryTree Heap

/-- An entry of the tree: a node, by its address, and what it carries. -/
structure AvlEntry (K V : Type) where
  addr : ℕ
  key : K
  value : V
  deriving DecidableEq

section Layout

variable {K V : Type}

/-- A link to a subtree: to its root, which is a child, or a thread past it. -/
def link : BinaryTree (AvlEntry K V) → Option ℕ → Option ℕ × Bool
  | nil, thread => (thread, false)
  | node e _ _, _ => (some e.addr, true)

@[simp] theorem link_nil (thread : Option ℕ) : link (nil : BinaryTree (AvlEntry K V)) thread = (thread, false) := rfl

@[simp] theorem link_node (e : AvlEntry K V) (l r : BinaryTree (AvlEntry K V)) (thread : Option ℕ) :
    link (node e l r) thread = (some e.addr, true) := rfl

/-- A node in memory. -/
def cell (e : AvlEntry K V) (balance : ℤ) (left right : Option ℕ × Bool) : ℕ × AvlGenericNode K V :=
  (e.addr, { balance := balance, left := left.1, right := right.1, leftChild := left.2, rightChild := right.2,
             value := some e.value, key := e.key })

theorem readNode_cell {h : AvlHeap K V} {e : AvlEntry K V} {x : ℤ} {left right : Option ℕ × Bool}
    {g : Multiset (ℕ × AvlGenericNode K V)} (o : Owns h ({cell e x left right} + g)) :
    readNode h (some e.addr) = .ok (cell e x left right).2 := o.read_head _

/-- The nodes of a tree. -/
def cells : BinaryTree (AvlEntry K V) → Option ℕ → Option ℕ → Multiset (ℕ × AvlGenericNode K V)
  | nil, _, _ => 0
  | node e l r, pred, succ =>
    {cell e (r.height - l.height) (link l pred) (link r succ)} +
      (cells l pred (some e.addr) + cells r (some e.addr) succ)

/-- The nodes of a tree, those of its left child first. -/
theorem cells_at_left {a : AvlEntry K V} {l r : BinaryTree (AvlEntry K V)} {pred succ : Option ℕ}
    {g : Multiset (ℕ × AvlGenericNode K V)} : cells (node a l r) pred succ + g =
    cells l pred (some a.addr) +
      ({cell a (r.height - l.height) (link l pred) (link r succ)} + (cells r (some a.addr) succ + g)) := by
  simp only [cells]
  ac_rfl

/-- The nodes of a tree, those of its right child first. -/
theorem cells_at_right {a : AvlEntry K V} {l r : BinaryTree (AvlEntry K V)} {pred succ : Option ℕ}
    {g : Multiset (ℕ × AvlGenericNode K V)} : cells (node a l r) pred succ + g =
    cells r (some a.addr) succ +
      ({cell a (r.height - l.height) (link l pred) (link r succ)} + (cells l pred (some a.addr) + g)) := by
  simp only [cells]
  ac_rfl

theorem cells_at_root {a : AvlEntry K V} {l r : BinaryTree (AvlEntry K V)} {pred succ : Option ℕ}
    {g : Multiset (ℕ × AvlGenericNode K V)} : cells (node a l r) pred succ + g =
    {cell a (r.height - l.height) (link l pred) (link r succ)} +
      (cells l pred (some a.addr) + cells r (some a.addr) succ + g) := by
  simp only [cells]
  ac_rfl

/-- The entry before a position. -/
def predOf : List (Frame (AvlEntry K V)) → Option ℕ
  | [] => none
  | .left _ _ :: c => predOf c
  | .right e _ :: _ => some e.addr

/-- The entry behind a position. -/
def succOf : List (Frame (AvlEntry K V)) → Option ℕ
  | [] => none
  | .left e _ :: _ => some e.addr
  | .right _ _ :: c => succOf c

theorem predOf_eq (c : List (Frame (AvlEntry K V))) : predOf c = (before c).getLast?.map AvlEntry.addr := by
  induction c with
  | nil => rfl
  | cons f c ih => cases f <;> simp [predOf, before, ih]

theorem succOf_eq (c : List (Frame (AvlEntry K V))) : succOf c = (after c).head?.map AvlEntry.addr := by
  induction c with
  | nil => rfl
  | cons f c ih => cases f <;> simp [succOf, after, ih]

theorem map_fst_cells (t : BinaryTree (AvlEntry K V)) (pred succ : Option ℕ) :
    (cells t pred succ).map Prod.fst = (t.inorder.map AvlEntry.addr : Multiset ℕ) := by
  induction t generalizing pred succ with
  | nil => rfl
  | node e l r hl hr =>
    rw [cells, Multiset.map_add, Multiset.map_add, hl, hr, Multiset.map_singleton, inorder_node, List.map_append,
      List.map_cons, ← Multiset.coe_add, ← Multiset.cons_coe, ← Multiset.singleton_add]
    exact add_left_comm _ _ _

/-- The nodes above a position and of the trees next to it. -/
def pathCells : List (Frame (AvlEntry K V)) → ℕ → ℕ → Multiset (ℕ × AvlGenericNode K V)
  | [], _, _ => 0
  | .left e r :: c, a, h =>
    {cell e (r.height - h) (some a, true) (link r (succOf c))} +
      (cells r (some e.addr) (succOf c) + pathCells c e.addr (max h r.height + 1))
  | .right e l :: c, a, h =>
    {cell e (h - l.height) (link l (predOf c)) (some a, true)} +
      (cells l (predOf c) (some e.addr) + pathCells c e.addr (max l.height h + 1))

/-- The nodes of a tree, split at a position. -/
theorem cells_plug (c : List (Frame (AvlEntry K V))) (e : AvlEntry K V) (l r : BinaryTree (AvlEntry K V)) :
    cells (plug c (node e l r)) none none =
      cells (node e l r) (predOf c) (succOf c) + pathCells c e.addr (node e l r).height := by
  induction c generalizing e l r with
  | nil => simp [plug, predOf, succOf, pathCells]
  | cons f c ih =>
    cases f with
    | left p s =>
      rw [plug, ih, cells, pathCells, link_node]
      simp only [predOf, succOf, height]
      abel
    | right p s =>
      rw [plug, ih, cells, pathCells, link_node]
      simp only [predOf, succOf, height]
      abel

/-- The root of the tree with `a` at the end of the path. -/
def rootOf : List (Frame (AvlEntry K V)) → ℕ → ℕ
  | [], a => a
  | f :: c, _ => rootOf c f.entry.addr

theorem link_plug (c : List (Frame (AvlEntry K V))) (e : AvlEntry K V) (l r : BinaryTree (AvlEntry K V)) :
    link (plug c (node e l r)) none = (some (rootOf c e.addr), true) := by
  induction c generalizing e l r with
  | nil => rfl
  | cons f c ih => cases f <;> exact ih _ _ _

/-- The tree `t` in memory, and nodes `r` that are not part of it. -/
structure InMemory (s : AvlGeneric K V) (t : BinaryTree (AvlEntry K V)) (r : Multiset (ℕ × AvlGenericNode K V)) : Prop where
  root : s.root = (link t none).1
  owns : Owns s.nodes (cells t none none + r)

end Layout

end LibHpack.Avl
