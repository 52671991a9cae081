import LibHpack.Avl.Layout

/-!
# LibHpack.Avl.Walk — chula_avl_generic_while, and what the links of a node lead to

The threads make the next node reachable from every node, so the walk is one pass over the entries from left to right.
-/

namespace LibHpack.Avl

open BinaryTree Heap Run

section Walk

variable {K V σ : Type} {h : AvlHeap K V} {s : AvlGeneric K V} {t : BinaryTree (AvlEntry K V)}
  {g : Multiset (ℕ × AvlGenericNode K V)}

/-- The first node of a tree, or what stands behind it. -/
def firstOf : BinaryTree (AvlEntry K V) → Option ℕ → Option ℕ
  | nil, succ => succ
  | node e l _, _ => firstOf l (some e.addr)

theorem leftmost_eq : ∀ (turns : ℕ) (e : AvlEntry K V) (l r : BinaryTree (AvlEntry K V)) (pred succ : Option ℕ)
    (g : Multiset (ℕ × AvlGenericNode K V)), (node e l r).height ≤ turns → Owns h (cells (node e l r) pred succ + g) →
    leftmost h turns (some e.addr) = .ok (firstOf (node e l r) none)
  | 0, e, l, r, _, _, _, hk, _ => by simp at hk
  | turns + 1, e, l, r, pred, succ, g, hk, o => by
    simp only [height] at hk
    have oe := o
    rw [cells_at_root] at oe
    rw [leftmost, ok_then (readNode_cell oe)]
    rcases l with _ | ⟨d, m, n⟩
    · rfl
    · rw [cells_at_left] at o
      exact leftmost_eq turns d m n _ _ _ (by omega) o

/-- `func` for one entry after the other, until it does not return `ret_ok`; what is left to do then is `k`. -/
def visit (func : K → Option V → σ → Ret × σ) :
    List (AvlEntry K V) → (AvlWhile V σ → Except AvlFault (AvlWhile V σ)) → AvlWhile V σ →
      Except AvlFault (AvlWhile V σ)
  | [], k, w => k w
  | e :: es, k, w =>
    let r := func e.key (some e.value) w.param
    let w := { ret := r.1, param := r.2, key := some e.addr, value := some e.value }
    if r.1 ≠ .ok then .ok w else visit func es k w

theorem visit_append (func : K → Option V → σ → Ret × σ) (k : AvlWhile V σ → Except AvlFault (AvlWhile V σ))
    (es es' : List (AvlEntry K V)) (w : AvlWhile V σ) : visit func (es ++ es') k w = visit func es (visit func es' k) w := by
  induction es generalizing w with
  | nil => rfl
  | cons e es ih =>
    simp only [List.cons_append, visit, ih]

theorem whileLoop_eq (func : K → Option V → σ → Ret × σ) (turns : ℕ) :
    ∀ (t : BinaryTree (AvlEntry K V)) (pred succ : Option ℕ) (g : Multiset (ℕ × AvlGenericNode K V)) (k : ℕ)
      (w : AvlWhile V σ), t.height ≤ turns → Owns h (cells t pred succ + g) →
      whileLoop func h turns (t.numNodes + k) (firstOf t succ) w =
        visit func t.inorder (whileLoop func h turns k succ) w
  | nil, _, _, _, k, w, _, _ => by rw [numNodes, zero_add]; rfl
  | node e l r, pred, succ, g, k, w, hk, o => by
    simp only [height] at hk
    have oe := o
    rw [cells_at_root] at oe
    have ol := o
    rw [cells_at_left] at ol
    have or' := o
    rw [cells_at_right] at or'
    have hnext : nodeNext turns h (some e.addr) = .ok (firstOf r succ) := by
      rw [nodeNext, ok_then (readNode_cell oe)]
      rcases r with _ | ⟨d, m, n⟩
      · rfl
      · simp only [height] at hk
        exact leftmost_eq turns d m n _ _ _ (by simp only [height]; omega) or'
    have hroot : ∀ w, whileLoop func h turns (r.numNodes + k + 1) (some e.addr) w =
        visit func (e :: r.inorder) (whileLoop func h turns k succ) w := by
      intro w
      rw [whileLoop, ok_then (readNode_cell oe), visit]
      simp only [hnext]
      have hr := whileLoop_eq func turns r (some e.addr) succ _ k
        { ret := (func e.key (some e.value) w.param).1, param := (func e.key (some e.value) w.param).2,
          key := some e.addr, value := some e.value } (by omega) or'
      rw [← hr]
      rfl
    rw [inorder_node, visit_append, numNodes, show l.numNodes + r.numNodes + 1 + k = l.numNodes + (r.numNodes + k + 1) by omega]
    refine (whileLoop_eq func turns l pred (some e.addr) _ _ w (by omega) ol).trans ?_
    exact congrArg (fun k => visit func l.inorder k w) (funext hroot)

/-- The walk visits every entry once, from left to right. -/
theorem chulaAvlGenericWhile_eq {turns : ℕ} (hold : InMemory s t g) (hturns : t.numNodes < turns)
    (func : K → Option V → σ → Ret × σ) (param : σ) :
    chulaAvlGenericWhile turns s func param =
      visit func t.inorder (fun w => .ok { w with ret := .ok }) ⟨.ok, param, none, none⟩ := by
  obtain ⟨root, nodes⟩ := s
  obtain ⟨hroot, o⟩ := hold
  simp only at hroot o
  subst hroot
  have hheight := height_le_numNodes t
  rcases t with _ | ⟨e, l, r⟩
  · rfl
  · have hfirst := leftmost_eq turns e l r none none g (by omega) o
    rw [chulaAvlGenericWhile]
    simp only [link_node, nodeFirst, hfirst]
    obtain ⟨k, rfl⟩ : ∃ k, turns = (node e l r).numNodes + (k + 1) := ⟨turns - (node e l r).numNodes - 1, by omega⟩
    exact whileLoop_eq func _ (node e l r) none none g (k + 1) _ (by omega) o

end Walk

end LibHpack.Avl
