import LibHpack.Avl.Model
import LibHpack.General.AvlTree

/-!
# LibHpack.Avl.Check — chula_avl_check

The nodes of a tree may have any balance and any thread here; only the links to children are those of a finite tree
(`Shaped`).  `node_check` calls itself for the children of a node, but nothing looks at what these calls return, so the
result is that of the tests at the root.

The two recursive functions take a stack frame for each level of the tree, so a height never leaves the type `int32_t`.
-/

namespace LibHpack.Avl

open BinaryTree Heap Run

section Check

variable {K V : Type}

/-- `node_height`. -/
def nodeHeight (h : AvlHeap K V) : ℕ → Option ℕ → Except AvlFault ℤ
  | _, none => .ok 0
  | 0, some _ => .error .hang
  | turns + 1, some a => do
    let n ← readNode h (some a)
    let leftHeight ← (if n.leftChild then nodeHeight h turns n.left else .ok 0)
    let rightHeight ← (if n.rightChild then nodeHeight h turns n.right else .ok 0)
    .ok (max leftHeight rightHeight + 1)

/-- "Right child": the node before a node with a left child has its right pointer there. -/
def prevLeadsHere (turns : ℕ) (h : AvlHeap K V) (node : Option ℕ) (n : AvlGenericNode K V) : Except AvlFault Bool :=
  if n.leftChild then do
    let tmp ← nodePrev turns h node
    let p ← readNode h tmp
    .ok (p.right = node)
  else .ok true

/-- "Left child". -/
def nextLeadsHere (turns : ℕ) (h : AvlHeap K V) (node : Option ℕ) (n : AvlGenericNode K V) : Except AvlFault Bool :=
  if n.rightChild then do
    let tmp ← nodeNext turns h node
    let q ← readNode h tmp
    .ok (q.left = node)
  else .ok true

/-- The tests of `node_check` at one node. -/
def checkHere (turns : ℕ) (h : AvlHeap K V) (node : Option ℕ) (n : AvlGenericNode K V) : Except AvlFault Bool := do
  let prev ← prevLeadsHere turns h node n
  if ¬prev then .ok false
  else do
    let next ← nextLeadsHere turns h node n
    if ¬next then .ok false
    else do
      let leftHeight ← (if n.leftChild then nodeHeight h turns n.left else .ok 0)
      let rightHeight ← (if n.rightChild then nodeHeight h turns n.right else .ok 0)
      .ok (rightHeight - leftHeight = n.balance)

/-- `node_check`; the results of the calls for the children are dropped. -/
def nodeCheck (turns : ℕ) (h : AvlHeap K V) : ℕ → Option ℕ → Except AvlFault Ret
  | _, none => .ok .ok
  | 0, some _ => .error .hang
  | k + 1, some a => do
    let n ← readNode h (some a)
    let passes ← checkHere turns h (some a) n
    if ¬passes then .ok .error
    else do
      let _ ← (if n.leftChild then nodeCheck turns h k n.left else .ok .ok)
      let _ ← (if n.rightChild then nodeCheck turns h k n.right else .ok .ok)
      .ok .ok

/-- `chula_avl_check`. -/
def chulaAvlCheck (turns : ℕ) (s : AvlGeneric K V) : Except AvlFault Ret := nodeCheck turns s.nodes turns s.root

/-! ### Trees with any balances and threads -/

/-- The address of the root. -/
def rootAddr : BinaryTree (ℕ × AvlGenericNode K V) → Option ℕ
  | nil => none
  | node e _ _ => some e.1

/-- A pointer and its flag, on the side of the subtree `t`: without one, the pointer is a thread to anywhere. -/
def Leads (child : Bool) (p : Option ℕ) (t : BinaryTree (ℕ × AvlGenericNode K V)) : Prop :=
  (child = true ∧ t ≠ nil ∧ p = rootAddr t) ∨ (child = false ∧ t = nil)

/-- The links to children are those of the tree. -/
def Shaped : BinaryTree (ℕ × AvlGenericNode K V) → Prop
  | nil => True
  | node e l r => Leads e.2.leftChild e.2.left l ∧ Leads e.2.rightChild e.2.right r ∧ Shaped l ∧ Shaped r

/-- The nodes of the tree are in memory. -/
structure InShape (s : AvlGeneric K V) (t : BinaryTree (ℕ × AvlGenericNode K V)) : Prop where
  root : s.root = rootAddr t
  shaped : Shaped t
  stored : ∀ e ∈ t.inorder, s.nodes e.1 = some e.2

/-- What is to hold at a node: its balance is the difference of the heights, and the nodes next to it in its subtrees lead
back to it. -/
structure ConsistentAt (e : ℕ × AvlGenericNode K V) (l r : BinaryTree (ℕ × AvlGenericNode K V)) : Prop where
  balance : e.2.balance = r.height - l.height
  prev : ∀ p, l.inorder.getLast? = some p → p.2.right = some e.1
  next : ∀ q, r.inorder.head? = some q → q.2.left = some e.1

/-- Every node of the tree is consistent. -/
def Consistent : BinaryTree (ℕ × AvlGenericNode K V) → Prop
  | nil => True
  | node e l r => ConsistentAt e l r ∧ Consistent l ∧ Consistent r

variable {h : AvlHeap K V} {s : AvlGeneric K V} {t l r : BinaryTree (ℕ × AvlGenericNode K V)} {e : ℕ × AvlGenericNode K V}

theorem readNode_of {a : ℕ} {n : AvlGenericNode K V} (ha : h a = some n) : readNode h (some a) = .ok n := by
  rw [readNode, Heap.read, Option.bind_some, ha]

/-- The height of a subtree, behind its link. -/
theorem linkHeight_eq {turns : ℕ} {child : Bool} {p : Option ℕ} (hl : Leads child p t)
    (ht : nodeHeight h turns (rootAddr t) = .ok (t.height : ℤ)) :
    (if child then nodeHeight h turns p else .ok 0) = .ok (t.height : ℤ) := by
  obtain ⟨hc, -, hp⟩ | ⟨hc, rfl⟩ := hl
  · rw [if_pos hc, hp, ht]
  · simp [hc]

theorem nodeHeight_eq {turns : ℕ} (hs : Shaped t) (hm : ∀ e ∈ t.inorder, h e.1 = some e.2) (hk : t.height ≤ turns) :
    nodeHeight h turns (rootAddr t) = .ok (t.height : ℤ) := by
  induction t generalizing turns with
  | nil => rw [rootAddr, nodeHeight]; rfl
  | node e l r hl hr =>
    obtain ⟨h1, h2, sl, sr⟩ := hs
    simp only [height] at hk
    obtain ⟨turns, rfl⟩ : ∃ k, turns = k + 1 := ⟨turns - 1, by omega⟩
    have hleft : nodeHeight h turns (rootAddr l) = _ := hl sl (fun e he => hm e (by simp [he])) (by omega)
    have hright : nodeHeight h turns (rootAddr r) = _ := hr sr (fun e he => hm e (by simp [he])) (by omega)
    rw [rootAddr, nodeHeight, ok_then (readNode_of (hm e (by simp)))]
    rw [ok_then (linkHeight_eq h1 hleft), ok_then (linkHeight_eq h2 hright), height]
    simp

theorem leftmost_shaped {turns : ℕ} (hs : Shaped t) (hne : t ≠ nil) (hm : ∀ e ∈ t.inorder, h e.1 = some e.2)
    (hk : t.height ≤ turns) : ∃ q, t.inorder.head? = some q ∧ leftmost h turns (rootAddr t) = .ok (some q.1) := by
  induction t generalizing turns with
  | nil => exact absurd rfl hne
  | node e l r hl hr =>
    obtain ⟨h1, h2, sl, sr⟩ := hs
    simp only [height] at hk
    obtain ⟨turns, rfl⟩ : ∃ k, turns = k + 1 := ⟨turns - 1, by omega⟩
    rw [rootAddr, leftmost, ok_then (readNode_of (hm e (by simp)))]
    obtain ⟨hc, hln, hp⟩ | ⟨hc, rfl⟩ := h1
    · have hk' : l.height ≤ turns := by omega
      obtain ⟨q, hq, heq⟩ := hl sl hln (fun e he => hm e (by simp [he])) hk'
      refine ⟨q, ?_, ?_⟩
      · rw [inorder_node, List.head?_append, hq]
        rfl
      · rw [if_pos hc, hp, heq]
    · refine ⟨e, by simp, ?_⟩
      simp [hc]

theorem rightmost_shaped {turns : ℕ} (hs : Shaped t) (hne : t ≠ nil) (hm : ∀ e ∈ t.inorder, h e.1 = some e.2)
    (hk : t.height ≤ turns) : ∃ p, t.inorder.getLast? = some p ∧ rightmost h turns (rootAddr t) = .ok (some p.1) := by
  induction t generalizing turns with
  | nil => exact absurd rfl hne
  | node e l r hl hr =>
    obtain ⟨h1, h2, sl, sr⟩ := hs
    simp only [height] at hk
    obtain ⟨turns, rfl⟩ : ∃ k, turns = k + 1 := ⟨turns - 1, by omega⟩
    rw [rootAddr, rightmost, ok_then (readNode_of (hm e (by simp)))]
    obtain ⟨hc, hrn, hp⟩ | ⟨hc, rfl⟩ := h2
    · have hk' : r.height ≤ turns := by omega
      obtain ⟨p, hq, heq⟩ := hr sr hrn (fun e he => hm e (by simp [he])) hk'
      refine ⟨p, ?_, ?_⟩
      · rw [inorder_node, List.getLast?_append, List.getLast?_cons, hq]
        rfl
      · rw [if_pos hc, hp, heq]
    · refine ⟨e, by simp, ?_⟩
      simp [hc]

theorem prevLeadsHere_eq {turns : ℕ} (h1 : Leads e.2.leftChild e.2.left l) (sl : Shaped l) (he : h e.1 = some e.2)
    (hm : ∀ e ∈ l.inorder, h e.1 = some e.2) (hk : l.height ≤ turns) :
    ∃ b, prevLeadsHere turns h (some e.1) e.2 = .ok b ∧
      (b = true ↔ ∀ p, l.inorder.getLast? = some p → p.2.right = some e.1) := by
  rw [prevLeadsHere]
  obtain ⟨hc, hln, hp⟩ | ⟨hc, rfl⟩ := h1
  · obtain ⟨p, hlast, hright⟩ := rightmost_shaped sl hln hm hk
    have hprev : nodePrev turns h (some e.1) = .ok (some p.1) := by
      rw [nodePrev, ok_then (readNode_of he), if_pos hc, hp, hright]
    rw [if_pos hc, ok_then hprev, ok_then (readNode_of (hm p (List.mem_of_getLast? hlast)))]
    refine ⟨_, rfl, ?_⟩
    rw [decide_eq_true_iff, hlast]
    simp
  · exact ⟨true, by simp [hc], by simp⟩

theorem nextLeadsHere_eq {turns : ℕ} (h2 : Leads e.2.rightChild e.2.right r) (sr : Shaped r) (he : h e.1 = some e.2)
    (hm : ∀ e ∈ r.inorder, h e.1 = some e.2) (hk : r.height ≤ turns) :
    ∃ b, nextLeadsHere turns h (some e.1) e.2 = .ok b ∧
      (b = true ↔ ∀ q, r.inorder.head? = some q → q.2.left = some e.1) := by
  rw [nextLeadsHere]
  obtain ⟨hc, hrn, hp⟩ | ⟨hc, rfl⟩ := h2
  · obtain ⟨q, hhead, hleft⟩ := leftmost_shaped sr hrn hm hk
    have hnext : nodeNext turns h (some e.1) = .ok (some q.1) := by
      rw [nodeNext, ok_then (readNode_of he), if_pos hc, hp, hleft]
    rw [if_pos hc, ok_then hnext, ok_then (readNode_of (hm q (List.mem_of_head? hhead)))]
    refine ⟨_, rfl, ?_⟩
    rw [decide_eq_true_iff, hhead]
    simp
  · exact ⟨true, by simp [hc], by simp⟩

theorem checkHere_eq {turns : ℕ} (h1 : Leads e.2.leftChild e.2.left l) (h2 : Leads e.2.rightChild e.2.right r)
    (sl : Shaped l) (sr : Shaped r) (hm : ∀ x ∈ (node e l r).inorder, h x.1 = some x.2)
    (hk : (node e l r).height ≤ turns) :
    ∃ b, checkHere turns h (some e.1) e.2 = .ok b ∧ (b = true ↔ ConsistentAt e l r) := by
  simp only [height] at hk
  have he := hm e (by simp)
  have hml : ∀ x ∈ l.inorder, h x.1 = some x.2 := fun x hx => hm x (by simp [hx])
  have hmr : ∀ x ∈ r.inorder, h x.1 = some x.2 := fun x hx => hm x (by simp [hx])
  have hkl : l.height ≤ turns := by omega
  have hkr : r.height ≤ turns := by omega
  obtain ⟨b₁, hb₁, hprev⟩ := prevLeadsHere_eq h1 sl he hml hkl
  obtain ⟨b₂, hb₂, hnext⟩ := nextLeadsHere_eq h2 sr he hmr hkr
  have hl := nodeHeight_eq sl hml hkl
  have hr := nodeHeight_eq sr hmr hkr
  rw [checkHere, ok_then hb₁]
  by_cases hp : b₁ = true
  · rw [if_neg (not_not_intro hp), ok_then hb₂]
    by_cases hn : b₂ = true
    · rw [if_neg (not_not_intro hn), ok_then (linkHeight_eq h1 hl), ok_then (linkHeight_eq h2 hr)]
      refine ⟨_, rfl, ?_⟩
      rw [decide_eq_true_iff]
      exact ⟨fun hbal => ⟨hbal.symm, hprev.1 hp, hnext.1 hn⟩, fun hc => hc.balance.symm⟩
    · rw [if_pos hn]
      exact ⟨false, rfl, by simpa using fun hc => hn (hnext.2 hc.next)⟩
  · rw [if_pos hp]
    exact ⟨false, rfl, by simpa using fun hc => hp (hprev.2 hc.prev)⟩

theorem consistentAt_root :
    (∀ e' l' r', node e l r = node e' l' r' → ConsistentAt e' l' r') ↔ ConsistentAt e l r := by
  constructor
  · intro hall
    exact hall e l r rfl
  · rintro hc _ _ _ h
    cases h
    exact hc

/-- `node_check` returns the result of the tests at the root. -/
theorem nodeCheck_eq {turns k : ℕ} (hs : Shaped t) (hm : ∀ x ∈ t.inorder, h x.1 = some x.2) (hk : t.height ≤ turns)
    (hk' : t.height ≤ k) : ∃ ret, nodeCheck turns h k (rootAddr t) = .ok ret ∧
      (ret = .ok ↔ ∀ e l r, t = node e l r → ConsistentAt e l r) := by
  induction t generalizing k with
  | nil => exact ⟨.ok, by rw [rootAddr, nodeCheck], by simp⟩
  | node e l r hl hr =>
    obtain ⟨h1, h2, sl, sr⟩ := hs
    obtain ⟨b, hb, hcons⟩ := checkHere_eq h1 h2 sl sr hm hk
    simp only [height] at hk hk'
    obtain ⟨k, rfl⟩ : ∃ j, k = j + 1 := ⟨k - 1, by omega⟩
    obtain ⟨x, hx, -⟩ := hl (k := k) sl (fun x hx => hm x (by simp [hx])) (by omega) (by omega)
    obtain ⟨y, hy, -⟩ := hr (k := k) sr (fun x hx => hm x (by simp [hx])) (by omega) (by omega)
    rw [rootAddr, nodeCheck, ok_then (readNode_of (hm e (by simp))), ok_then hb]
    by_cases hpass : b = true
    · have hcl : ∃ x, (if e.2.leftChild then nodeCheck turns h k e.2.left else .ok .ok) = .ok x := by
        obtain ⟨hc, -, hp⟩ | ⟨hc, -⟩ := h1
        · exact ⟨x, by rw [if_pos hc, hp, hx]⟩
        · exact ⟨.ok, by simp [hc]⟩
      have hcr : ∃ y, (if e.2.rightChild then nodeCheck turns h k e.2.right else .ok .ok) = .ok y := by
        obtain ⟨hc, -, hp⟩ | ⟨hc, -⟩ := h2
        · exact ⟨y, by rw [if_pos hc, hp, hy]⟩
        · exact ⟨.ok, by simp [hc]⟩
      obtain ⟨x', hx'⟩ := hcl
      obtain ⟨y', hy'⟩ := hcr
      rw [if_neg (not_not_intro hpass), ok_then hx', ok_then hy']
      exact ⟨.ok, rfl, iff_of_true rfl (consistentAt_root.2 (hcons.1 hpass))⟩
    · rw [if_pos hpass]
      exact ⟨.error, rfl, iff_of_false (by simp) fun hc => hpass (hcons.2 (consistentAt_root.1 hc))⟩

/-- **The checker.**  It tells whether the tree is consistent exactly when it is, or when the root itself is not. -/
theorem chulaAvlCheck_iff {turns : ℕ} (ht : InShape s t) (hk : t.height ≤ turns) :
    (chulaAvlCheck turns s = .ok .ok ↔ Consistent t) ↔
      (Consistent t ∨ ∃ e l r, t = node e l r ∧ ¬ConsistentAt e l r) := by
  obtain ⟨hroot, hs, hm⟩ := ht
  obtain ⟨ret, heq, hret⟩ := nodeCheck_eq hs hm hk hk
  rw [chulaAvlCheck, hroot, heq, Except.ok.injEq, hret]
  cases t with
  | nil => simp [Consistent]
  | node e l r =>
    have hnot : (∃ e' l' r', node e l r = node e' l' r' ∧ ¬ConsistentAt e' l' r') ↔ ¬ConsistentAt e l r := by
      rw [← consistentAt_root]
      push Not
      rfl
    rw [consistentAt_root, hnot, Consistent]
    tauto

end Check

/-! ### A tree whose root is consistent and whose left child is not -/

/-- The root of a tree of two nodes. -/
def rootNode : AvlGenericNode ℕ ℕ :=
  { balance := -1, left := some 1, right := none, leftChild := true, rightChild := false, value := none, key := 1 }

/-- Its left child, with the balance `b`. -/
def childNode (b : ℤ) : AvlGenericNode ℕ ℕ :=
  { balance := b, left := none, right := some 0, leftChild := false, rightChild := false, value := none, key := 0 }

def twoNodes (b : ℤ) : AvlGeneric ℕ ℕ :=
  { root := some 0, nodes := fun a => if a = 0 then some rootNode else if a = 1 then some (childNode b) else none }

theorem inShape_twoNodes (b : ℤ) : InShape (twoNodes b) (node (0, rootNode) (node (1, childNode b) nil nil) nil) := by
  refine ⟨rfl, ⟨.inl ⟨rfl, by simp, rfl⟩, .inr ⟨rfl, rfl⟩, ⟨.inr ⟨rfl, rfl⟩, .inr ⟨rfl, rfl⟩, trivial, trivial⟩, trivial⟩, ?_⟩
  intro e he
  simp only [inorder_node, inorder_nil, List.nil_append, List.mem_cons, List.mem_append, List.not_mem_nil,
    or_false] at he
  rcases he with rfl | rfl <;> rfl

/-- A wrong balance in the left child is not reported. -/
theorem chulaAvlCheck_misses : InShape (twoNodes 5) (node (0, rootNode) (node (1, childNode 5) nil nil) nil) ∧
    chulaAvlCheck 2 (twoNodes 5) = .ok .ok ∧ ¬Consistent (node (0, rootNode) (node (1, childNode 5) nil nil) nil) := by
  refine ⟨inShape_twoNodes 5, rfl, ?_⟩
  rintro ⟨-, ⟨h, -, -⟩, -⟩
  have hb := h.balance
  simp [childNode] at hb

theorem chulaAvlCheck_iff_two : (chulaAvlCheck 2 (twoNodes 0) = .ok .ok ↔
    Consistent (node (0, rootNode) (node (1, childNode 0) nil nil) nil)) := by
  have hchild : ConsistentAt (1, childNode 0) nil nil := ⟨rfl, by simp, by simp⟩
  have hroot : ConsistentAt (0, rootNode) (node (1, childNode 0) nil nil) nil := ⟨rfl, by simp [childNode], by simp⟩
  exact (chulaAvlCheck_iff (inShape_twoNodes 0) (by simp)).2 (.inl ⟨hroot, ⟨hchild, trivial, trivial⟩, trivial⟩)

end LibHpack.Avl
