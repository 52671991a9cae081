import LibHpack.General.Heap
import LibHpack.Chula

/-!
# LibHpack.Avl.Model — threaded AVL trees (libchula avl_generic.c)

A node is reached by its address; a pointer to one is an address or NULL.  A pointer that is not to a child is a thread:
it leads to the node before or behind in key order.  `AvlGenericNode.key` is what the type of the user adds to the node;
the virtual methods see nothing else of it.

What ends a call without a result is an `AvlFault`: a null pointer or one to a freed node is followed, an access is
outside of the array `path` of `MAX_HEIGHT` elements or to one that was not written, or the `turns` of a loop run out.
A balance lies between -2 and 2 whenever it is stored, so the type `short` of that field plays no role; that of the
variable `re`, which receives the result of `node_cmp`, does (`toShort`).
-/

namespace LibHpack.Avl

inductive AvlFault
  | pointer
  | path
  | hang
  deriving DecidableEq, Repr

/-- `chula_avl_generic_node_t`, with the key of the type derived from it. -/
structure AvlGenericNode (K V : Type) where
  balance : ℤ
  left : Option ℕ
  right : Option ℕ
  leftChild : Bool
  rightChild : Bool
  value : Option V
  key : K

/-- The nodes that are allocated. -/
abbrev AvlHeap (K V : Type) := ℕ → Option (AvlGenericNode K V)

/-- `chula_avl_generic_t`, with the memory of its nodes. -/
structure AvlGeneric (K V : Type) where
  root : Option ℕ
  nodes : AvlHeap K V

/-- The virtual methods of `chula_avl_generic_t`. -/
structure AvlMethods (K : Type) where
  nodeCmp : K → K → ℤ
  nodeIsEmpty : K → Bool

/-- Conversion to `short`. -/
def toShort (x : ℤ) : ℤ := x.bmod (2 ^ 16)

section Nodes

variable {K V : Type}

/-- `chula_avl_generic_node_init`. -/
def chulaAvlGenericNodeInit (key : K) : AvlGenericNode K V :=
  { balance := 0, left := none, right := none, leftChild := false, rightChild := false, value := none, key := key }

def readNode (h : AvlHeap K V) (node : Option ℕ) : Except AvlFault (AvlGenericNode K V) := Heap.read .pointer h node

def modifyNode (h : AvlHeap K V) (node : Option ℕ) (f : AvlGenericNode K V → AvlGenericNode K V) :
    Except AvlFault (AvlHeap K V) := Heap.modify .pointer h node f

/-- `node_free`. -/
def nodeFree (h : AvlHeap K V) (node : Option ℕ) : Except AvlFault (AvlHeap K V) := Heap.free .pointer h node

/-- `while (tmp->left_child) tmp = tmp->left`. -/
def leftmost (h : AvlHeap K V) : ℕ → Option ℕ → Except AvlFault (Option ℕ)
  | 0, _ => .error .hang
  | turns + 1, tmp => do
    let n ← readNode h tmp
    if n.leftChild then leftmost h turns n.left else .ok tmp

/-- `while (tmp->right_child) tmp = tmp->right`. -/
def rightmost (h : AvlHeap K V) : ℕ → Option ℕ → Except AvlFault (Option ℕ)
  | 0, _ => .error .hang
  | turns + 1, tmp => do
    let n ← readNode h tmp
    if n.rightChild then rightmost h turns n.right else .ok tmp

def nodeFirst (turns : ℕ) (t : AvlGeneric K V) : Except AvlFault (Option ℕ) :=
  match t.root with
  | none => .ok none
  | some _ => leftmost t.nodes turns t.root

def nodeNext (turns : ℕ) (h : AvlHeap K V) (node : Option ℕ) : Except AvlFault (Option ℕ) := do
  let n ← readNode h node
  if n.rightChild then leftmost h turns n.right else .ok n.right

def nodePrev (turns : ℕ) (h : AvlHeap K V) (node : Option ℕ) : Except AvlFault (Option ℕ) := do
  let n ← readNode h node
  if n.leftChild then rightmost h turns n.left else .ok n.left

/-! ### Rotations -/

/-- The first half of `node_rotate_left`: the node takes the inner child of its right child, or a thread to it. -/
def takeLeft (h : AvlHeap K V) (node right : Option ℕ) : Except AvlFault (AvlHeap K V) := do
  let r ← readNode h right
  if r.leftChild then
    modifyNode h node fun n => { n with right := r.left }
  else do
    let h ← modifyNode h node fun n => { n with rightChild := false, right := right }
    modifyNode h right fun r => { r with leftChild := true }

def nodeRotateLeft (h : AvlHeap K V) (node : Option ℕ) : Except AvlFault (Option ℕ × AvlHeap K V) := do
  let n ← readNode h node
  let right := n.right
  let h ← takeLeft h node right
  let h ← modifyNode h right fun r => { r with left := node }
  let r ← readNode h right
  let aBal := n.balance
  let bBal := r.balance
  let h ← modifyNode h right fun r => { r with balance :=
    if bBal ≤ 0 then if 1 ≤ aBal then bBal - 1 else aBal + bBal - 2
    else if aBal ≤ bBal then aBal - 2 else bBal - 1 }
  let h ← modifyNode h node fun n => { n with balance := if bBal ≤ 0 then aBal - 1 else aBal - bBal - 1 }
  .ok (right, h)

/-- The first half of `node_rotate_right`. -/
def takeRight (h : AvlHeap K V) (node left : Option ℕ) : Except AvlFault (AvlHeap K V) := do
  let l ← readNode h left
  if l.rightChild then
    modifyNode h node fun n => { n with left := l.right }
  else do
    let h ← modifyNode h node fun n => { n with leftChild := false, left := left }
    modifyNode h left fun l => { l with rightChild := true }

def nodeRotateRight (h : AvlHeap K V) (node : Option ℕ) : Except AvlFault (Option ℕ × AvlHeap K V) := do
  let n ← readNode h node
  let left := n.left
  let h ← takeRight h node left
  let h ← modifyNode h left fun l => { l with right := node }
  let l ← readNode h left
  let aBal := n.balance
  let bBal := l.balance
  let h ← modifyNode h left fun l => { l with balance :=
    if bBal ≤ 0 then if aBal < bBal then bBal + 1 else aBal + 2
    else if aBal ≤ -1 then bBal + 1 else aBal + bBal + 2 }
  let h ← modifyNode h node fun n => { n with balance := if bBal ≤ 0 then aBal - bBal + 1 else aBal + 1 }
  .ok (left, h)

/-- The inner rotation of `node_balance`, when the left child leans to the right. -/
def straightenLeft (h : AvlHeap K V) (node : Option ℕ) : Except AvlFault (AvlHeap K V) := do
  let n ← readNode h node
  let l ← readNode h n.left
  if 0 < l.balance then do
    let (left, h) ← nodeRotateLeft h n.left
    modifyNode h node fun n => { n with left := left }
  else .ok h

/-- The inner rotation of `node_balance`, when the right child leans to the left. -/
def straightenRight (h : AvlHeap K V) (node : Option ℕ) : Except AvlFault (AvlHeap K V) := do
  let n ← readNode h node
  let r ← readNode h n.right
  if r.balance < 0 then do
    let (right, h) ← nodeRotateRight h n.right
    modifyNode h node fun n => { n with right := right }
  else .ok h

def nodeBalance (h : AvlHeap K V) (node : Option ℕ) : Except AvlFault (Option ℕ × AvlHeap K V) := do
  let n ← readNode h node
  if n.balance < -1 then do
    let h ← straightenLeft h node
    nodeRotateRight h node
  else if 1 < n.balance then do
    let h ← straightenRight h node
    nodeRotateLeft h node
  else .ok (node, h)

/-! ### The path -/

/-- `MAX_HEIGHT`. -/
def maxHeight : ℕ := 45

/-- The elements of `path` that have been written. -/
abbrev AvlPath := ℕ → Option (Option ℕ)

/-- `path` after `path[0] = NULL`. -/
def pathStart : AvlPath := fun i => if i = 0 then some none else none

def pathSet (path : AvlPath) (i : ℕ) (node : Option ℕ) : Except AvlFault AvlPath :=
  if i < maxHeight then .ok (Function.update path i (some node)) else .error .path

def pathGet (path : AvlPath) (i : ℕ) : Except AvlFault (Option ℕ) :=
  if i < maxHeight then
    match path i with
    | some node => .ok node
    | none => .error .path
  else .error .path

/-- `parent && parent->left == node`. -/
def isLeftOf (h : AvlHeap K V) (parent node : Option ℕ) : Except AvlFault Bool :=
  match parent with
  | none => .ok false
  | some _ => do
    let p ← readNode h parent
    .ok (p.left = node)

/-- Put a subtree in the place of another one: below its parent or, without one, at the root. -/
def relink (t : AvlGeneric K V) (parent : Option ℕ) (isLeft : Bool) (node : Option ℕ) :
    Except AvlFault (AvlGeneric K V) :=
  match parent with
  | none => .ok { t with root := node }
  | some _ => do
    let h ← modifyNode t.nodes parent fun p => if isLeft then { p with left := node } else { p with right := node }
    .ok { t with nodes := h }

/-- `node_balance` for a node that leans too far, and the new link to it. -/
def restoreAt (t : AvlGeneric K V) (parent : Option ℕ) (isLeft : Bool) (node : Option ℕ) :
    Except AvlFault (Option ℕ × AvlGeneric K V) := do
  let n ← readNode t.nodes node
  if n.balance < -1 ∨ 1 < n.balance then do
    let (node, h) ← nodeBalance t.nodes node
    let t ← relink { t with nodes := h } parent isLeft node
    .ok (node, t)
  else .ok (node, t)

/-- The loop that restores the balance, from `node` up along `path`: it ends at a node whose balance `stop` accepts, and
else changes that of the parent by `d`, or by `-d` from the right. -/
def restore (stop : ℤ → Bool) (d : ℤ) (path : AvlPath) :
    ℕ → Option ℕ → AvlGeneric K V → Except AvlFault (AvlGeneric K V)
  | 0, _, _ => .error .path
  | idx + 1, node, t => do
    let parent ← pathGet path idx
    let isLeft ← isLeftOf t.nodes parent node
    let (node, t) ← restoreAt t parent isLeft node
    let n ← readNode t.nodes node
    if stop n.balance ∨ parent = none then .ok t
    else do
      let h ← modifyNode t.nodes parent fun p =>
        { p with balance := if isLeft then p.balance + d else p.balance - d }
      restore stop d path idx parent { t with nodes := h }

/-- The loop "rebalance the tree" of `node_add`. -/
def addRestore : AvlPath → ℕ → Option ℕ → AvlGeneric K V → Except AvlFault (AvlGeneric K V) :=
  restore (fun b => b = 0) (-1)

/-- The loop "restore balance" of `chula_avl_generic_del`. -/
def delRestore : AvlPath → ℕ → Option ℕ → AvlGeneric K V → Except AvlFault (AvlGeneric K V) :=
  restore (fun b => b ≠ 0) 1

/-! ### Adding -/

/-- Where a search of `node_add` or `chula_avl_generic_del` ends. -/
structure AvlSearch where
  re : ℤ
  node : Option ℕ
  path : AvlPath
  idx : ℕ

/-- The search of `node_add` and `chula_avl_generic_del`, from `node` down: it ends at the key, or where there is no child
on the side of the key. -/
def nodeSearch (m : AvlMethods K) (h : AvlHeap K V) (key : K) :
    ℕ → Option ℕ → AvlPath → ℕ → Except AvlFault AvlSearch
  | 0, _, _, _ => .error .hang
  | turns + 1, node, path, idx => do
    let n ← readNode h node
    let re := toShort (m.nodeCmp key n.key)
    if re < 0 ∧ n.leftChild then do
      let path ← pathSet path idx node
      nodeSearch m h key turns n.left path (idx + 1)
    else if 0 < re ∧ n.rightChild then do
      let path ← pathSet path idx node
      nodeSearch m h key turns n.right path (idx + 1)
    else .ok ⟨re, node, path, idx⟩

/-- `child` becomes the left child of `node`. -/
def insertLeft (h : AvlHeap K V) (node child : Option ℕ) : Except AvlFault (AvlHeap K V) := do
  let n ← readNode h node
  let h ← modifyNode h child fun c => { c with left := n.left, right := node }
  modifyNode h node fun n => { n with left := child, leftChild := true, balance := n.balance - 1 }

/-- `child` becomes the right child of `node`. -/
def insertRight (h : AvlHeap K V) (node child : Option ℕ) : Except AvlFault (AvlHeap K V) := do
  let n ← readNode h node
  let h ← modifyNode h child fun c => { c with right := n.right, left := node }
  modifyNode h node fun n => { n with right := child, rightChild := true, balance := n.balance + 1 }

/-- What `node_add` does where its search ends. -/
def nodeInsert (t : AvlGeneric K V) (child : Option ℕ) (s : AvlSearch) : Except AvlFault (Ret × AvlGeneric K V) :=
  if s.re < 0 then do
    let h ← insertLeft t.nodes s.node child
    let t ← addRestore s.path s.idx s.node { t with nodes := h }
    .ok (.ok, t)
  else if 0 < s.re then do
    let h ← insertRight t.nodes s.node child
    let t ← addRestore s.path s.idx s.node { t with nodes := h }
    .ok (.ok, t)
  else do
    let h ← nodeFree t.nodes child
    .ok (.error, { t with nodes := h })

def nodeAdd (m : AvlMethods K) (turns : ℕ) (t : AvlGeneric K V) (child : Option ℕ) :
    Except AvlFault (Ret × AvlGeneric K V) :=
  match t.root with
  | none => .ok (.ok, { t with root := child })
  | some _ => do
    let c ← readNode t.nodes child
    let s ← nodeSearch m t.nodes c.key turns t.root pathStart 1
    nodeInsert t child s

def chulaAvlGenericAdd (m : AvlMethods K) (turns : ℕ) (t : AvlGeneric K V) (key : Option ℕ) (value : V) :
    Except AvlFault (Ret × AvlGeneric K V) := do
  let k ← readNode t.nodes key
  if m.nodeIsEmpty k.key then .ok (.error, t)
  else do
    let h ← modifyNode t.nodes key fun n => { n with value := some value }
    nodeAdd m turns { t with nodes := h } key

/-! ### Deleting -/

/-- Unlink a node without children. -/
def unlinkLeaf (t : AvlGeneric K V) (parent : Option ℕ) (isLeft : Bool) (n : AvlGenericNode K V) :
    Except AvlFault (AvlGeneric K V) :=
  match parent with
  | none => .ok { t with root := none }
  | some _ => do
    let h ← modifyNode t.nodes parent fun p =>
      if isLeft then { p with leftChild := false, left := n.left, balance := p.balance + 1 }
      else { p with rightChild := false, right := n.right, balance := p.balance - 1 }
    .ok { t with nodes := h }

/-- Put the only child of a node in its place. -/
def replaceByChild (t : AvlGeneric K V) (parent : Option ℕ) (isLeft : Bool) (child : Option ℕ) :
    Except AvlFault (AvlGeneric K V) :=
  match parent with
  | none => .ok { t with root := child }
  | some _ => do
    let h ← modifyNode t.nodes parent fun p =>
      if isLeft then { p with left := child, balance := p.balance + 1 }
      else { p with right := child, balance := p.balance - 1 }
    .ok { t with nodes := h }

def unlinkRightChild (turns : ℕ) (t : AvlGeneric K V) (parent : Option ℕ) (isLeft : Bool) (node : Option ℕ)
    (n : AvlGenericNode K V) : Except AvlFault (AvlGeneric K V) := do
  let tmp ← nodeNext turns t.nodes node
  let h ← modifyNode t.nodes tmp fun x => { x with left := n.left }
  replaceByChild { t with nodes := h } parent isLeft n.right

def unlinkLeftChild (turns : ℕ) (t : AvlGeneric K V) (parent : Option ℕ) (isLeft : Bool) (node : Option ℕ)
    (n : AvlGenericNode K V) : Except AvlFault (AvlGeneric K V) := do
  let tmp ← nodePrev turns t.nodes node
  let h ← modifyNode t.nodes tmp fun x => { x with right := n.right }
  replaceByChild { t with nodes := h } parent isLeft n.left

/-- The loop "find the immediately next node (and its parent)": `next`, `nextp`, `path` and `idx`. -/
def findNext (h : AvlHeap K V) :
    ℕ → Option ℕ → Option ℕ → AvlPath → ℕ → Except AvlFault (Option ℕ × Option ℕ × AvlPath × ℕ)
  | 0, _, _, _, _ => .error .hang
  | turns + 1, next, nextp, path, idx => do
    let x ← readNode h next
    if x.leftChild then do
      let path ← pathSet path (idx + 1) next
      findNext h turns x.left next path (idx + 1)
    else .ok (next, nextp, path, idx)

/-- Remove `next` from the tree. -/
def removeNext (h : AvlHeap K V) (node next nextp : Option ℕ) : Except AvlFault (AvlHeap K V) :=
  if nextp ≠ node then do
    let x ← readNode h next
    let h ← modifyNode h nextp fun p =>
      if x.rightChild then { p with left := x.right, balance := p.balance + 1 }
      else { p with leftChild := false, balance := p.balance + 1 }
    let n ← readNode h node
    modifyNode h next fun x => { x with rightChild := true, right := n.right }
  else modifyNode h node fun n => { n with balance := n.balance - 1 }

/-- "Set the prev to point to the right place" and "prepare next to replace node". -/
def replaceNode (turns : ℕ) (t : AvlGeneric K V) (parent : Option ℕ) (isLeft : Bool) (node next prev : Option ℕ) :
    Except AvlFault (AvlGeneric K V) := do
  let prev ← rightmost t.nodes turns prev
  let h ← modifyNode t.nodes prev fun p => { p with right := next }
  let n ← readNode h node
  let h ← modifyNode h next fun x => { x with leftChild := true, left := n.left, balance := n.balance }
  relink { t with nodes := h } parent isLeft next

/-- Unlink a node with both children: the next node takes its place. -/
def unlinkInner (turns : ℕ) (t : AvlGeneric K V) (parent : Option ℕ) (isLeft : Bool) (node : Option ℕ)
    (n : AvlGenericNode K V) (path : AvlPath) (idx : ℕ) :
    Except AvlFault (Option ℕ × AvlPath × ℕ × AvlGeneric K V) := do
  let oldIdx := idx + 1
  let (next, nextp, path, idx) ← findNext t.nodes turns n.right node path (idx + 1)
  let path ← pathSet path oldIdx next
  let pbalance ← pathGet path idx
  let h ← removeNext t.nodes node next nextp
  let t ← replaceNode turns { t with nodes := h } parent isLeft node next n.left
  .ok (pbalance, path, idx, t)

/-- Take a node out of the tree: `pbalance`, `path`, `idx` and the tree. -/
def unlink (turns : ℕ) (t : AvlGeneric K V) (parent : Option ℕ) (isLeft : Bool) (node : Option ℕ) (path : AvlPath)
    (idx : ℕ) : Except AvlFault (Option ℕ × AvlPath × ℕ × AvlGeneric K V) := do
  let n ← readNode t.nodes node
  if ¬n.leftChild then
    if ¬n.rightChild then do
      let t ← unlinkLeaf t parent isLeft n
      .ok (parent, path, idx, t)
    else do
      let t ← unlinkRightChild turns t parent isLeft node n
      .ok (parent, path, idx, t)
  else
    if ¬n.rightChild then do
      let t ← unlinkLeftChild turns t parent isLeft node n
      .ok (parent, path, idx, t)
    else unlinkInner turns t parent isLeft node n path idx

/-- "Restore balance", when there is a node to start at. -/
def restoreFrom (path : AvlPath) (idx : ℕ) (pbalance : Option ℕ) (t : AvlGeneric K V) :
    Except AvlFault (AvlGeneric K V) :=
  match pbalance with
  | none => .ok t
  | some _ => delRestore path idx pbalance t

/-- `chula_avl_generic_del` after its search has found the node. -/
def delNode (turns : ℕ) (t : AvlGeneric K V) (s : AvlSearch) : Except AvlFault (Ret × Option V × AvlGeneric K V) := do
  let n ← readNode t.nodes s.node
  let parent ← pathGet s.path (s.idx - 1)
  let isLeft ← isLeftOf t.nodes parent s.node
  let (pbalance, path, idx, t) ← unlink turns t parent isLeft s.node s.path (s.idx - 1)
  let t ← restoreFrom path idx pbalance t
  let h ← nodeFree t.nodes s.node
  .ok (.ok, n.value, { t with nodes := h })

/-- `chula_avl_generic_del`: the code, `*value` and the tree. -/
def chulaAvlGenericDel (m : AvlMethods K) (turns : ℕ) (t : AvlGeneric K V) (key : K) :
    Except AvlFault (Ret × Option V × AvlGeneric K V) :=
  if m.nodeIsEmpty key then .ok (.error, none, t)
  else match t.root with
  | none => .ok (.notFound, none, t)
  | some _ => do
    let s ← nodeSearch m t.nodes key turns t.root pathStart 1
    if s.re = 0 then delNode turns t s else .ok (.notFound, none, t)

/-! ### Looking up and walking through -/

def getLoop (m : AvlMethods K) (h : AvlHeap K V) (key : K) : ℕ → Option ℕ → Except AvlFault (Ret × Option V)
  | 0, _ => .error .hang
  | turns + 1, node => do
    let n ← readNode h node
    let re := toShort (m.nodeCmp key n.key)
    if re = 0 then .ok (.ok, n.value)
    else if re < 0 then
      if n.leftChild then getLoop m h key turns n.left else .ok (.notFound, none)
    else
      if n.rightChild then getLoop m h key turns n.right else .ok (.notFound, none)

/-- `chula_avl_generic_get`: the code and `*value`. -/
def chulaAvlGenericGet (m : AvlMethods K) (turns : ℕ) (t : AvlGeneric K V) (key : K) :
    Except AvlFault (Ret × Option V) :=
  if m.nodeIsEmpty key then .ok (.error, none)
  else match t.root with
  | none => .ok (.notFound, none)
  | some _ => getLoop m t.nodes key turns t.root

/-- The result of `chula_avl_generic_while`: the code, `*param`, and the last values of `*key` and `*value`. -/
structure AvlWhile (V σ : Type) where
  ret : Ret
  param : σ
  key : Option ℕ
  value : Option V

def whileLoop {σ : Type} (func : K → Option V → σ → Ret × σ) (h : AvlHeap K V) (turns : ℕ) :
    ℕ → Option ℕ → AvlWhile V σ → Except AvlFault (AvlWhile V σ)
  | 0, _, _ => .error .hang
  | _ + 1, none, w => .ok { w with ret := .ok }
  | k + 1, some node, w => do
    let n ← readNode h (some node)
    let r := func n.key n.value w.param
    let w := { ret := r.1, param := r.2, key := some node, value := n.value }
    if r.1 ≠ .ok then .ok w
    else do
      let next ← nodeNext turns h (some node)
      whileLoop func h turns k next w

def chulaAvlGenericWhile {σ : Type} (turns : ℕ) (t : AvlGeneric K V) (func : K → Option V → σ → Ret × σ) (param : σ) :
    Except AvlFault (AvlWhile V σ) :=
  match t.root with
  | none => .ok ⟨.ok, param, none, none⟩
  | some _ => do
    let node ← nodeFirst turns t
    whileLoop func t.nodes turns turns node ⟨.ok, param, none, none⟩

end Nodes

end LibHpack.Avl
