import LibHpack.Avl.Search

/-!
# LibHpack.Avl.Add — chula_avl_generic_add

A key that is not in the tree is inserted at its place in the order, and the balance is restored; the node of a key that
is there already is freed, and the tree is what it was.
-/

namespace LibHpack.Avl

open BinaryTree Heap Run

section Add

variable {K V : Type} [LinearOrder K] {m : AvlMethods K} {T : BinaryTree (AvlEntry K V)} {h : AvlHeap K V}
  {s : AvlGeneric K V} {ex : AvlFault → Prop} {g : Multiset (ℕ × AvlGenericNode K V)}
  {c : List (Frame (AvlEntry K V))} {e n : AvlEntry K V} {l r : BinaryTree (AvlEntry K V)} {pred succ : Option ℕ}

/-- A node before it is linked. -/
def loose (n : AvlEntry K V) : ℕ × AvlGenericNode K V := cell n 0 (none, false) (none, false)

omit [LinearOrder K] in
theorem insertLeft_yields (o : Owns h (cells (node e nil r) pred succ + ({loose n} + g))) :
    Yields ex (insertLeft h (some e.addr) (some n.addr)) fun h' =>
      Owns h' (cells (node e (node n nil nil) r) pred succ + g) := by
  have o' := o
  rw [cells_at_root] at o
  refine Yields.then (o.read_head _) ?_
  rw [add_left_comm] at o'
  refine Yields.bind (o'.modify _ _ (cell n 0 (pred, false) (some e.addr, false)) rfl) fun h₁ o₁ => ?_
  rw [add_left_comm, cells_at_root] at o₁
  refine (o₁.modify _ _ (cell e (r.height - (1 : ℕ)) (some n.addr, true) (link r succ)) ?_).mono fun h₂ o₂ => ?_
  · simp [cell]
  · rw [cells_at_left]
    convert o₂ using 1
    simp only [cells, link_nil, link_node, height, max_self, zero_add, sub_self, add_zero]
    ac_rfl

omit [LinearOrder K] in
theorem insertRight_yields (o : Owns h (cells (node e l nil) pred succ + ({loose n} + g))) :
    Yields ex (insertRight h (some e.addr) (some n.addr)) fun h' =>
      Owns h' (cells (node e l (node n nil nil)) pred succ + g) := by
  have o' := o
  rw [cells_at_root] at o
  refine Yields.then (o.read_head _) ?_
  rw [add_left_comm] at o'
  refine Yields.bind (o'.modify _ _ (cell n 0 (some e.addr, false) (succ, false)) rfl) fun h₁ o₁ => ?_
  rw [add_left_comm, cells_at_root] at o₁
  refine (o₁.modify _ _ (cell e ((1 : ℕ) - l.height) (link l pred) (some n.addr, true)) ?_).mono fun h₂ o₂ => ?_
  · simp [cell]
    ring
  · rw [cells_at_right]
    convert o₂ using 1
    simp only [cells, link_nil, link_node, height, max_self, zero_add, sub_self, add_zero]
    ac_rfl

/-- The tree holds what `T` holds and the entry `n`, at its place in the order; where a leaf there keeps `T` balanced, nothing
else has moved. -/
structure Added (T : BinaryTree (AvlEntry K V)) (n : AvlEntry K V) (s : AvlGeneric K V)
    (g : Multiset (ℕ × AvlGenericNode K V)) (t : BinaryTree (AvlEntry K V)) : Prop where
  balanced : t.Balanced
  holds : InMemory s t g
  leaf : (place AvlEntry.key n T).Balanced → t = place AvlEntry.key n T
  inorder : ∃ xs ys, T.inorder = xs ++ ys ∧ t.inorder = xs ++ n :: ys ∧
    (∀ x ∈ xs, x.key < n.key) ∧ ∀ y ∈ ys, n.key < y.key

omit [LinearOrder K] in
theorem leaf_moved (n : AvlEntry K V) : Moved (-1) 0 (node n nil nil) := by
  simp [Moved]

theorem nodeInsert_added {q : AvlSearch} (hs : Sorted T) (hbal : T.Balanced) (hroot : s.root = (link T none).1)
    (o : Owns s.nodes (cells T none none + ({loose n} + g))) (he : Ends n.key T q c e l r) (hre : q.re ≠ 0) :
    Yields ex (nodeInsert s (some n.addr) q) fun p => p.1 = .ok ∧ ∃ t, Added T n p.2 g t := by
  obtain ⟨hT, hnode, ⟨h0, hpath⟩, hidx, hb, hstop⟩ := he
  obtain ⟨hbn, hf⟩ := (balanced_plug c _).1 (hT ▸ hbal)
  rw [hT, link_plug] at hroot
  rw [hT, cells_plug, add_assoc, add_left_comm (pathCells _ _ _)] at o
  obtain ⟨h1, hk, rfl⟩ | ⟨h1, hk, rfl⟩ | ⟨h1, -⟩ := hstop
  · rw [nodeInsert, if_pos h1, hnode, hidx]
    refine Yields.bind (insertLeft_yields o) fun h₁ o₁ => ?_
    have ho : Off (-1) (node e nil r).height (node e (node n nil nil) r) :=
      .left (leaf_moved n) hbn.2.2 hbn.1.2 hbn.1.1
    refine Yields.bind (restore_yields (.inl rfl) (fun b => by simp) h0 c e _ r _ { s with nodes := h₁ } hpath ho hf
      hroot o₁) fun s₂ hres => ?_
    obtain ⟨t, ht, hin, hplug, hold⟩ := hres
    have hb' := hb.left hs hT hk
    have hplace : place AvlEntry.key n T = plug c (node e (node n nil nil) r) := by
      rw [hT]
      exact place_plug (c := .left e r :: c) hb'.1 hb'.2 nil
    refine ⟨rfl, t, ht, hold, by rwa [hplace], before c, e :: r.inorder ++ after c, ?_, ?_, hb'.1, hb'.2⟩
    · rw [hT, inorder_plug]
      simp
    · rw [hin]
      simp
  · rw [nodeInsert, if_neg (by omega), if_pos h1, hnode, hidx]
    refine Yields.bind (insertRight_yields o) fun h₁ o₁ => ?_
    have ho : Off (-1) (node e l nil).height (node e l (node n nil nil)) :=
      .right (leaf_moved n) hbn.2.1 hbn.1.1 hbn.1.2
    refine Yields.bind (restore_yields (.inl rfl) (fun b => by simp) h0 c e l _ _ { s with nodes := h₁ } hpath ho hf
      hroot o₁) fun s₂ hres => ?_
    obtain ⟨t, ht, hin, hplug, hold⟩ := hres
    have hb' := hb.right hs hT hk
    have hplace : place AvlEntry.key n T = plug c (node e l (node n nil nil)) := by
      rw [hT]
      exact place_plug (c := .right e l :: c) hb'.1 hb'.2 nil
    refine ⟨rfl, t, ht, hold, by rwa [hplace], before c ++ (l.inorder ++ [e]), after c, ?_, ?_, hb'.1, hb'.2⟩
    · rw [hT, inorder_plug]
      simp
    · rw [hin]
      simp
  · exact absurd h1 hre

/-- The tree with a new node in memory, initialized with a key. -/
def AvlGeneric.create (s : AvlGeneric K V) (a : ℕ) (key : K) : AvlGeneric K V :=
  { s with nodes := Function.update s.nodes a (some (chulaAvlGenericNodeInit key)) }

theorem nodeAdd_yields {turns : ℕ} {f : K → Option V} (hs : Sorted T) (hbal : T.Balanced) (hm : Models T f)
    (ha : Agrees m n.key T) (hroot : s.root = (link T none).1)
    (o : Owns s.nodes (cells T none none + ({loose n} + g))) :
    Yields (Excused T turns) (nodeAdd m turns s (some n.addr)) fun p =>
      if (f n.key).isSome then p = (.error, { s with nodes := Function.update s.nodes n.addr none })
      else p.1 = .ok ∧ ∃ t, Added T n p.2 g t := by
  obtain ⟨root, nodes⟩ := s
  simp only at hroot o
  subst hroot
  rcases T with _ | ⟨e, l, r⟩
  · have hf : f n.key = none := hm.eq_none (by simp)
    rw [hf]
    refine ⟨rfl, node n nil nil, by simp, ⟨rfl, ?_⟩, fun _ => rfl, [], [], rfl, rfl, by simp, by simp⟩
    convert o using 1
    simp [cells, loose]
  · have o' := o
    rw [add_left_comm] at o'
    refine Yields.then (o'.read_head _) ?_
    have hends : Yields (Excused (node e l r) turns) _ _ := nodeSearch_yields hs ha o excused_path turns [] e l r pathStart rfl
      climbs_start ⟨by simp [before], by simp [after]⟩ (enough_turns _ le_rfl)
    refine Yields.bind hends fun q hres => ?_
    obtain ⟨c, e', l', r', hq⟩ := hres
    by_cases hre : q.re = 0
    · have hkey := hq.key_eq hre
      have hf : f n.key = some e'.value := (hm _ _).2 ⟨e', mem_at hq.tree, hkey.symm, rfl⟩
      have hget : nodes n.addr = some (loose n).2 := o'.get (by simp [loose, cell])
      have hfree : nodeFree nodes (some n.addr) = .ok (Function.update nodes n.addr none) := by
        rw [nodeFree, Heap.free, hget]
      rw [nodeInsert, if_neg (by omega), if_neg (by omega), hf]
      refine Yields.then hfree ?_
      simp
    · rw [hm.eq_none (hq.absent hs hre)]
      exact nodeInsert_added hs hbal rfl o hq hre

theorem chulaAvlGenericAdd_yields {turns a : ℕ} {key : K} {v : V} {f : K → Option V} (hs : Sorted T) (hbal : T.Balanced)
    (hm : Models T f) (ha : Agrees m key T) (hold : InMemory s T g) (hfree : s.nodes a = none) :
    Yields (Excused T turns) (chulaAvlGenericAdd m turns (s.create a key) (some a) v) fun p =>
      if m.nodeIsEmpty key then p = (.error, s.create a key)
      else if (f key).isSome then p = (.error, s)
      else p.1 = .ok ∧ ∃ t, Added T ⟨a, key, v⟩ p.2 g t := by
  have hread : readNode (s.create a key).nodes (some a) = .ok (chulaAvlGenericNodeInit key) := by
    simp [readNode, Heap.read, AvlGeneric.create]
  refine Yields.then hread ?_
  change Yields _ (if m.nodeIsEmpty key then _ else _) _
  by_cases hempty : m.nodeIsEmpty key = true
  · rw [if_pos hempty]
    simp [hempty]
  · rw [if_neg hempty]
    have hmod : modifyNode (s.create a key).nodes (some a) (fun n => { n with value := some v }) =
        .ok (Function.update s.nodes a (some (loose (⟨a, key, v⟩ : AvlEntry K V)).2)) := by
      simp [modifyNode, Heap.modify, AvlGeneric.create, chulaAvlGenericNodeInit, loose, cell]
    refine Yields.then hmod ?_
    have o := hold.owns.alloc hfree (loose (⟨a, key, v⟩ : AvlEntry K V)).2
    rw [add_left_comm] at o
    have hadd : Yields (Excused T turns) _ _ := nodeAdd_yields (n := ⟨a, key, v⟩)
      (s := ⟨s.root, Function.update s.nodes a (some (loose (⟨a, key, v⟩ : AvlEntry K V)).2)⟩) hs hbal hm ha hold.root o
    refine hadd.mono fun p hp => ?_
    rw [if_neg hempty]
    split_ifs with hf
    · rw [if_pos hf] at hp
      rw [hp, Function.update_idem, ← hfree, Function.update_eq_self]
    · rwa [if_neg hf] at hp

end Add

end LibHpack.Avl
