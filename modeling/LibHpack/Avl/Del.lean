import LibHpack.Avl.Add

/-!
# LibHpack.Avl.Del — chula_avl_generic_del

`unlink` takes a node out of the tree and leaves the rest in one of the two states of `Unlinked`: nothing is left to
repair, or the loop that restores the balance starts at a node one child of which has become lower by one.
-/

namespace LibHpack.Avl

open BinaryTree Heap Run

section Del

variable {K V : Type} {T : BinaryTree (AvlEntry K V)} {h : AvlHeap K V} {s : AvlGeneric K V} {ex : AvlFault → Prop}
  {g : Multiset (ℕ × AvlGenericNode K V)} {c : List (Frame (AvlEntry K V))} {e n : AvlEntry K V}
  {l r t : BinaryTree (AvlEntry K V)} {pred succ : Option ℕ} {path : AvlPath} {xs : List (AvlEntry K V)} {i : ℕ}
  {H : ℕ}

/-- The node is out of the tree, whose entries are now `xs`: `pbalance`, `path`, `idx` and the tree. -/
inductive Unlinked (xs : List (AvlEntry K V)) (g : Multiset (ℕ × AvlGenericNode K V)) :
    Option ℕ × AvlPath × ℕ × AvlGeneric K V → Prop
  | done {t : BinaryTree (AvlEntry K V)} {path : AvlPath} {idx : ℕ} {s : AvlGeneric K V} :
      t.Balanced → t.inorder = xs → InMemory s t g → Unlinked xs g (none, path, idx, s)
  | pending {c : List (Frame (AvlEntry K V))} {b : AvlEntry K V} {l r : BinaryTree (AvlEntry K V)} {H : ℕ}
      {path : AvlPath} {s : AvlGeneric K V} :
      Climbs path c → Off 1 H (node b l r) → Fits c H → s.root = some (rootOf c b.addr) →
      Owns s.nodes (cells (node b l r) (predOf c) (succOf c) + (pathCells c b.addr H + g)) →
      before c ++ (node b l r).inorder ++ after c = xs → Unlinked xs g (some b.addr, path, c.length + 1, s)

theorem restoreFrom_yields {p : Option ℕ × AvlPath × ℕ × AvlGeneric K V} (hp : Unlinked xs g p) :
    Yields ex (restoreFrom p.2.1 p.2.2.1 p.1 p.2.2.2) fun s' =>
      ∃ t : BinaryTree (AvlEntry K V), t.Balanced ∧ t.inorder = xs ∧ InMemory s' t g := by
  cases hp with
  | done hb hin hold => exact ⟨_, hb, hin, hold⟩
  | pending hc ho hf hroot o hin =>
    have hstop : ∀ b : ℤ, decide (b ≠ 0) = true ↔ Settles 1 b := fun b => by simp
    refine Yields.mono (restore_yields (.inr rfl) hstop hc.1 _ _ _ _ _ _ hc.2 ho hf hroot o) ?_
    intro s' ⟨t, hb, ht, _, hold⟩
    exact ⟨t, hb, ht.trans hin, hold⟩

/-! ### Nodes with at most one child -/

theorem unlinkLeaf_yields (hroot : s.root = some (rootOf c e.addr)) (hc : Climbs path c) (hf : Fits c 1)
    (o : Owns s.nodes (pathCells c e.addr 1 + g)) :
    Yields ex (unlinkLeaf s (parentOf c) (onLeft c) (cell e 0 (predOf c, false) (succOf c, false)).2) fun s' =>
      Unlinked (before c ++ after c) g (parentOf c, path, c.length, s') := by
  have hm : Moved 1 1 (nil : BinaryTree (AvlEntry K V)) := by simp [Moved]
  cases c with
  | nil => exact .done (t := nil) trivial rfl ⟨rfl, by simpa [cells, pathCells] using o⟩
  | cons f c =>
    obtain ⟨h0, -, -, hc⟩ := hc
    cases f with
    | left p t =>
      obtain ⟨bt, h1, h2, hf⟩ := hf
      rw [pathCells, add_assoc] at o
      refine Yields.bind (o.modify _ _ (cell p (t.height - (0 : ℕ)) (predOf c, false) (link t (succOf c))) ?_) fun h₁ o₁ => ?_
      · simp [cell, onLeft, predOf]
      refine .pending ⟨h0, hc⟩ (.left hm bt h1 h2) hf hroot ?_ (by simp [before, after])
      rw [cells_at_root]
      convert o₁ using 1
      simp only [cells, link_nil, height, zero_add]
      ac_rfl
    | right p t =>
      obtain ⟨bt, h1, h2, hf⟩ := hf
      rw [pathCells, add_assoc] at o
      refine Yields.bind (o.modify _ _ (cell p ((0 : ℕ) - t.height) (link t (predOf c)) (succOf c, false)) ?_) fun h₁ o₁ => ?_
      · simp [cell, onLeft, succOf]
      refine .pending ⟨h0, hc⟩ (.right hm bt h1 h2) hf hroot ?_ (by simp [before, after])
      rw [cells_at_root]
      convert o₁ using 1
      simp only [cells, link_nil, height, add_zero]
      ac_rfl

/-- A child that is one level lower takes the place of a node. -/
theorem replaceByChild_yields (hroot : s.root = some (rootOf c i)) (hc : Climbs path c)
    (hf : Fits c ((node n l r).height + 1)) (hb : (node n l r).Balanced)
    (o : Owns s.nodes (cells (node n l r) (predOf c) (succOf c) + (pathCells c i ((node n l r).height + 1) + g))) :
    Yields ex (replaceByChild s (parentOf c) (onLeft c) (some n.addr)) fun s' =>
      Unlinked (before c ++ (node n l r).inorder ++ after c) g (parentOf c, path, c.length, s') := by
  have hm : Moved 1 ((node n l r).height + 1) (node n l r) := ⟨hb, by simp, by simp⟩
  cases c with
  | nil => exact .done (t := node n l r) hb (by simp [before, after]) ⟨rfl, by simpa [pathCells, predOf, succOf] using o⟩
  | cons f c =>
    obtain ⟨h0, -, -, hc⟩ := hc
    cases f with
    | left p t =>
      obtain ⟨bt, h1, h2, hf⟩ := hf
      rw [pathCells, add_assoc, add_left_comm] at o
      refine Yields.bind (o.modify _ _ (cell p (t.height - (node n l r).height) (some n.addr, true) (link t (succOf c))) ?_)
        fun h₁ o₁ => ?_
      · simp [cell, onLeft]
        ring
      refine .pending ⟨h0, hc⟩ (.left hm bt h1 h2) hf hroot ?_ (by simp [before, after])
      rw [cells_at_root]
      convert o₁ using 1
      simp only [predOf, succOf, link_node]
      ac_rfl
    | right p t =>
      obtain ⟨bt, h1, h2, hf⟩ := hf
      rw [pathCells, add_assoc, add_left_comm] at o
      refine Yields.bind (o.modify _ _ (cell p ((node n l r).height - t.height) (link t (predOf c)) (some n.addr, true)) ?_)
        fun h₁ o₁ => ?_
      · simp [cell, onLeft]
        ring
      refine .pending ⟨h0, hc⟩ (.right hm bt h1 h2) hf hroot ?_ (by simp [before, after])
      rw [cells_at_root]
      convert o₁ using 1
      simp only [predOf, succOf, link_node]
      ac_rfl

theorem unlinkRightChild_yields {turns : ℕ} (hturns : 1 ≤ turns ∨ ex .hang) (hroot : s.root = some (rootOf c e.addr))
    (hc : Climbs path c) (hf : Fits c 2)
    (o : Owns s.nodes (cells (node e nil (node n nil nil)) (predOf c) (succOf c) + (pathCells c e.addr 2 + g))) :
    Yields ex (unlinkRightChild turns s (parentOf c) (onLeft c) (some e.addr)
        (cell e 1 (predOf c, false) (some n.addr, true)).2) fun s' =>
      ∃ b, Unlinked (before c ++ [n] ++ after c) ({(e.addr, b)} + g) (parentOf c, path, c.length, s') := by
  have oe := o
  rw [cells_at_root] at oe
  have on := o
  rw [cells_at_right, cells_at_root] at on
  have hnext : Yields ex (nodeNext turns s.nodes (some e.addr)) fun p => p = some n.addr := by
    refine Yields.then (oe.read_head _) ?_
    change Yields ex (leftmost s.nodes turns (some n.addr)) _
    cases turns with
    | zero => exact hturns.resolve_left (by simp)
    | succ k => exact Yields.then (on.read_head _) rfl
  refine Yields.bind hnext fun tmp htmp => ?_
  subst htmp
  refine Yields.bind (on.modify _ _ (cell n 0 (predOf c, false) (succOf c, false)) rfl) fun h₁ o₁ => ?_
  refine Yields.mono (replaceByChild_yields (s := { s with nodes := h₁ }) (n := n) (l := nil) (r := nil)
    (g := {cell e 1 (predOf c, false) (some n.addr, true)} + g) hroot hc hf (by simp) ?_) fun s' hu => ⟨_, hu⟩
  rw [cells_at_root]
  convert o₁ using 1
  simp only [cells, link_nil, link_node, height]
  ac_rfl

theorem unlinkLeftChild_yields {turns : ℕ} (hturns : 1 ≤ turns ∨ ex .hang) (hroot : s.root = some (rootOf c e.addr))
    (hc : Climbs path c) (hf : Fits c 2)
    (o : Owns s.nodes (cells (node e (node n nil nil) nil) (predOf c) (succOf c) + (pathCells c e.addr 2 + g))) :
    Yields ex (unlinkLeftChild turns s (parentOf c) (onLeft c) (some e.addr)
        (cell e (-1) (some n.addr, true) (succOf c, false)).2) fun s' =>
      ∃ b, Unlinked (before c ++ [n] ++ after c) ({(e.addr, b)} + g) (parentOf c, path, c.length, s') := by
  have oe := o
  rw [cells_at_root] at oe
  have on := o
  rw [cells_at_left, cells_at_root] at on
  have hprev : Yields ex (nodePrev turns s.nodes (some e.addr)) fun p => p = some n.addr := by
    refine Yields.then (oe.read_head _) ?_
    change Yields ex (rightmost s.nodes turns (some n.addr)) _
    cases turns with
    | zero => exact hturns.resolve_left (by simp)
    | succ k => exact Yields.then (on.read_head _) rfl
  refine Yields.bind hprev fun tmp htmp => ?_
  subst htmp
  refine Yields.bind (on.modify _ _ (cell n 0 (predOf c, false) (succOf c, false)) rfl) fun h₁ o₁ => ?_
  refine Yields.mono (replaceByChild_yields (s := { s with nodes := h₁ }) (n := n) (l := nil) (r := nil)
    (g := {cell e (-1) (some n.addr, true) (succOf c, false)} + g) hroot hc hf (by simp) ?_) fun s' hu => ⟨_, hu⟩
  rw [cells_at_root]
  convert o₁ using 1
  simp only [cells, link_nil, link_node, height]
  ac_rfl

/-! ### Nodes with both children -/

/-- The last node of a tree, the only one whose thread leads behind it. -/
theorem rightmost_rethread (j : Option ℕ) :
    ∀ (turns : ℕ) (b : AvlEntry K V) (l r : BinaryTree (AvlEntry K V)) (pred succ : Option ℕ)
      (g : Multiset (ℕ × AvlGenericNode K V)), (node b l r).height ≤ turns ∨ ex .hang →
      Owns h (cells (node b l r) pred succ + g) →
      Yields ex (rightmost h turns (some b.addr)) fun x =>
        Yields ex (modifyNode h x fun p => { p with right := j }) fun h' => Owns h' (cells (node b l r) pred j + g)
  | 0, b, l, r, _, _, _, hk, _ => hk.resolve_left (by simp)
  | turns + 1, b, l, r, pred, succ, g, hk, o => by
    simp only [height] at hk
    have ob := o
    rw [cells_at_root] at ob
    refine Yields.then (ob.read_head _) ?_
    rcases r with _ | ⟨d, m, n⟩
    · refine (ob.modify _ _ (cell b (0 - l.height) (link l pred) (j, false)) ?_).mono fun h₁ o₁ => ?_
      · simp [cell]
      · rw [cells_at_root]
        convert o₁ using 1
        simp [cells]
    · have on := o
      rw [cells_at_right] at on
      refine (rightmost_rethread j turns d m n _ _ _ (hk.imp_left fun hk => by omega) on).mono fun x hx => ?_
      refine hx.mono fun h₁ o₁ => ?_
      rw [cells_at_right]
      exact o₁

/-- `next` takes the place of a node with a left child. -/
theorem replaceNode_yields {turns : ℕ} {b : AvlEntry K V} {m k : BinaryTree (AvlEntry K V)} {x y : ℤ}
    {L R R' : Option ℕ × Bool} (hl : l = node b m k) (hturns : l.height ≤ turns ∨ ex .hang)
    (hroot : s.root = some (rootOf c e.addr))
    (o : Owns s.nodes (cells l pred (some e.addr) + ({cell e x (link l pred) R} + ({cell n y L R'} +
      (pathCells c e.addr H + g))))) :
    Yields ex (replaceNode turns s (parentOf c) (onLeft c) (some e.addr) (some n.addr) (link l pred).1) fun s' =>
      s'.root = some (rootOf c n.addr) ∧ Owns s'.nodes (cells l pred (some n.addr) + ({cell n x (link l pred) R'} +
        (pathCells c n.addr H + ({cell e x (link l pred) R} + g)))) := by
  subst hl
  refine Yields.bind (rightmost_rethread (some n.addr) turns b m k _ _ _ hturns o) fun z hz => ?_
  refine Yields.bind hz fun h₁ o₁ => ?_
  have oe := o₁
  rw [add_left_comm] at oe
  refine Yields.then (oe.read_head _) ?_
  have on := oe
  rw [add_left_comm (cells _ _ _), add_left_comm] at on
  refine Yields.bind (on.modify _ _ (cell n x (some b.addr, true) R') rfl) fun h₂ o₂ => ?_
  have op : Owns h₂ (pathCells c e.addr H + (cells (node b m k) pred (some n.addr) +
      ({cell n x (some b.addr, true) R'} + ({cell e x (some b.addr, true) R} + g)))) := by
    convert o₂ using 1
    simp only [link_node]
    ac_rfl
  refine (relink_yields (s := { s with nodes := h₂ }) hroot op n.addr).mono fun s₃ ⟨hroot₃, o₃⟩ => ⟨hroot₃, ?_⟩
  convert o₃ using 1
  simp only [link_node]
  ac_rfl

/-- `nextp`: the node above `next`. -/
def nextParent (e : AvlEntry K V) : List (Frame (AvlEntry K V)) → Option ℕ
  | [] => some e.addr
  | f :: _ => some f.entry.addr

theorem onPath_append {base : ℕ} (cr : List (Frame (AvlEntry K V))) :
    OnPath path base (cr ++ c) ↔ OnPath path (base + c.length) cr ∧ OnPath path base c := by
  induction cr with
  | nil => simp [OnPath]
  | cons f cr ih =>
    rw [List.cons_append, OnPath, ih, OnPath, List.length_append, show base + (cr.length + c.length) =
      base + c.length + cr.length by omega]
    tauto

/-- The search for the next node ends below the right child of `e`, at the end of a path that goes to the left. -/
structure NextFound (T : BinaryTree (AvlEntry K V)) (c : List (Frame (AvlEntry K V))) (e : AvlEntry K V)
    (l : BinaryTree (AvlEntry K V)) (p : Option ℕ × Option ℕ × AvlPath × ℕ) (cr : List (Frame (AvlEntry K V)))
    (n : AvlEntry K V) (r : BinaryTree (AvlEntry K V)) : Prop where
  tree : T = plug (cr ++ .right e l :: c) (node n nil r)
  left : AllLeft cr
  next : p.1 = some n.addr
  nextp : p.2.1 = nextParent e cr
  above : Climbs p.2.2.1 c
  below : OnPath p.2.2.1 (c.length + 2) cr
  idx : p.2.2.2 = c.length + 1 + cr.length

theorem findNext_yields (o : Owns h (cells T none none + g)) (hex : maxHeight < T.height → ex .path) :
    ∀ (turns : ℕ) (cr : List (Frame (AvlEntry K V))) (x : AvlEntry K V) (a b : BinaryTree (AvlEntry K V))
      (path : AvlPath), T = plug (cr ++ .right e l :: c) (node x a b) → AllLeft cr → Climbs path c →
      OnPath path (c.length + 2) cr → (node x a b).height ≤ turns ∨ ex .hang →
      Yields ex (findNext h turns (some x.addr) (nextParent e cr) path (c.length + 1 + cr.length)) fun p =>
        ∃ cr' n r', NextFound T c e l p cr' n r'
  | 0, _, x, a, b, _, _, _, _, _, hk => hk.resolve_left (by simp)
  | turns + 1, cr, x, a, b, path, hT, hcr, hc, hp, hk => by
    have hheight := height_plug (cr ++ .right e l :: c) (node x a b)
    rw [← hT, List.length_append, List.length_cons] at hheight
    simp only [height] at hk hheight
    refine Yields.then (read_at o hT) ?_
    rcases a with _ | ⟨y, a, a'⟩
    · exact ⟨cr, x, b, hT, hcr, rfl, rfl, hc, hp, rfl⟩
    · change Yields _ ((pathSet path (c.length + 1 + cr.length + 1) (some x.addr)) >>= _) _
      simp only [height] at hk hheight
      have hset : Yields ex (pathSet path (c.length + 1 + cr.length + 1) (some x.addr)) fun path' =>
          Climbs path' c ∧ OnPath path' (c.length + 2) (.left x b :: cr) := by
        rw [pathSet]
        split_ifs with hlt
        · refine ⟨⟨?_, hc.2.set (by omega) _⟩, by omega, ?_, hp.set (by omega) _⟩
          · rw [Function.update_of_ne (by omega), hc.1]
          · rw [show c.length + 2 + cr.length = c.length + 1 + cr.length + 1 by omega, Function.update_self]
            rfl
        · exact hex (by omega)
      refine Yields.bind hset fun path' hres => ?_
      obtain ⟨hc', hp'⟩ := hres
      refine findNext_yields o hex turns (.left x b :: cr) y a a' path' hT hcr hc' hp' (hk.imp_left fun hk => ?_)
      simp only [height]
      omega

theorem OnPath.set_lt {base i : ℕ} {cr : List (Frame (AvlEntry K V))} (hc : OnPath path base cr) (hi : i < base)
    (p : Option (Option ℕ)) : OnPath (Function.update path i p) base cr := by
  induction cr with
  | nil => trivial
  | cons f cr ih =>
    obtain ⟨hlt, hp, hc⟩ := hc
    exact ⟨hlt, by rw [Function.update_of_ne (by omega), hp], ih hc⟩

/-- The new node in the place of `e` on the path. -/
theorem pathSet_place {cr : List (Frame (AvlEntry K V))} (hc : Climbs path c) (hcr : OnPath path (c.length + 2) cr)
    (hex : maxHeight ≤ c.length + 1 → ex .path) :
    Yields ex (pathSet path (c.length + 1) (some n.addr)) fun path' => Climbs path' (cr ++ .right n l :: c) := by
  rw [pathSet]
  split_ifs with hlt
  · obtain ⟨h0, hc⟩ := hc
    refine ⟨?_, (onPath_append cr).2 ⟨?_, by omega, ?_, hc.set (by omega) _⟩⟩
    · rw [Function.update_of_ne (by omega), h0]
    · rw [List.length_cons, show 1 + (c.length + 1) = c.length + 2 by omega]
      exact hcr.set_lt (by omega) _
    · rw [add_comm, Function.update_self, entry_right]
  · exact hex (by omega)

/-! ### The place of a node -/

theorem succOf_entry (cr : List (Frame (AvlEntry K V))) (x y : AvlEntry K V) :
    succOf (cr ++ .right x l :: c) = succOf (cr ++ .right y l :: c) := by
  induction cr with
  | nil => rfl
  | cons f cr ih =>
    cases f with
    | left p t => rfl
    | right p t => exact ih

theorem predOf_left {cr : List (Frame (AvlEntry K V))} (hcr : AllLeft cr) (x : AvlEntry K V) :
    predOf (cr ++ .right x l :: c) = some x.addr := by
  induction cr with
  | nil => rfl
  | cons f cr ih =>
    cases f with
    | left p t => exact ih hcr
    | right p t => exact hcr.elim

theorem rootOf_append (cr : List (Frame (AvlEntry K V))) (f : Frame (AvlEntry K V)) (i : ℕ) :
    rootOf (cr ++ f :: c) i = rootOf c f.entry.addr := by
  induction cr generalizing i with
  | nil => rfl
  | cons f cr ih => exact ih _

/-- The nodes above a position that is reached from the right child of `x` by steps to the left: what of them depends on
`x` is its own cell, the thread of its left child, and the link to it. -/
theorem pathCells_place {cr : List (Frame (AvlEntry K V))} (hcr : AllLeft cr) (y : AvlEntry K V) (i H : ℕ) :
    ∃ w top k, ∀ x : AvlEntry K V, pathCells (cr ++ .right x l :: c) i H =
      w + ({cell x ((k : ℕ) - l.height) (link l (predOf c)) (some top, true)} +
        (cells l (predOf c) (some x.addr) + pathCells c x.addr (max l.height k + 1))) := by
  induction cr generalizing i H with
  | nil => exact ⟨0, i, H, fun x => by rw [zero_add]; rfl⟩
  | cons f cr ih =>
    cases f with
    | left p t =>
      obtain ⟨w, top, k, hw⟩ := ih hcr p.addr (max H t.height + 1)
      refine ⟨{cell p (t.height - H) (some i, true) (link t (succOf (cr ++ .right y l :: c)))} +
        (cells t (some p.addr) (succOf (cr ++ .right y l :: c)) + w), top, k, fun x => ?_⟩
      rw [List.cons_append, pathCells, hw x, succOf_entry cr x y]
      ac_rfl
    | right p t => exact hcr.elim

/-! ### The next node takes the place of the node -/

theorem removeNext_here {x : ℤ} {L R : Option ℕ × Bool} (o : Owns h ({cell e x L R} + g)) :
    Yields ex (removeNext h (some e.addr) (some n.addr) (some e.addr)) fun h' => Owns h' ({cell e (x - 1) L R} + g) := by
  rw [removeNext, if_neg (by simp)]
  exact o.modify _ _ _ rfl

theorem removeNext_below {p : AvlEntry K V} {x : ℤ} {L R : Option ℕ × Bool}
    (o : Owns h (cells (node p (node n nil r) t) (some e.addr) succ + ({cell e x L R} + g))) :
    Yields ex (removeNext h (some e.addr) (some n.addr) (some p.addr)) fun h' =>
      Owns h' (cells (node p r t) (some n.addr) succ +
        ({cell n r.height (some e.addr, false) (R.1, true)} + ({cell e x L R} + g))) := by
  have op := o
  rw [cells_at_root] at op
  have hne : (some p.addr : Option ℕ) ≠ some e.addr := fun hpe =>
    op.notMem (cell e x L R) (by simp) (Option.some.inj hpe).symm
  have on := o
  rw [cells_at_left, cells_at_root] at on
  rw [removeNext, if_pos hne]
  refine Yields.then (on.read_head _) ?_
  refine Yields.bind (op.modify _ _ (cell p (t.height - r.height) (link r (some n.addr)) (link t succ)) ?_) fun h₁ o₁ => ?_
  · rcases r with _ | ⟨b, m, k⟩
    · simp [cell]
    · simp [cell]
      ring
  have oe : Owns h₁ ({cell e x L R} + ({cell n r.height (some e.addr, false) (link r (some p.addr))} +
      (cells r (some n.addr) (some p.addr) + cells t (some p.addr) succ +
        {cell p (t.height - r.height) (link r (some n.addr)) (link t succ)} + g))) := by
    convert o₁ using 1
    simp only [cells, link_nil, height, Nat.cast_zero, sub_zero, zero_add]
    ac_rfl
  refine Yields.then (oe.read_head _) ?_
  rw [add_left_comm] at oe
  refine (oe.modify _ _ (cell n r.height (some e.addr, false) (R.1, true)) rfl).mono fun h₂ o₂ => ?_
  convert o₂ using 1
  simp only [cells]
  ac_rfl

/-- The next node takes the place of `e`, when it is the right child. -/
theorem replace_here {turns : ℕ} {m k : BinaryTree (AvlEntry K V)} {b : AvlEntry K V} (hl : l = node b m k)
    (hturns : l.height ≤ turns ∨ ex .hang) (hroot : s.root = some (rootOf c e.addr)) (hc : Climbs path (.right n l :: c))
    (hbal : (plug c (node e l (node n nil r))).Balanced)
    (o : Owns s.nodes ({cell e (r.height - l.height) (link l (predOf c)) (some n.addr, true)} +
      (cells l (predOf c) (some e.addr) + cells (node n nil r) (some e.addr) (succOf c) +
        (pathCells c e.addr (node e l (node n nil r)).height + g)))) :
    Yields ex (replaceNode turns s (parentOf c) (onLeft c) (some e.addr) (some n.addr) (link l (predOf c)).1) fun s' =>
      ∃ x, Unlinked (before c ++ (l.inorder ++ (node n nil r).inorder) ++ after c) ({(e.addr, x)} + g)
        (some n.addr, path, c.length + 1, s') := by
  obtain ⟨⟨⟨h1, h2⟩, bl, -, -, br⟩, hf⟩ := (balanced_plug c _).1 hbal
  have o' : Owns s.nodes (cells l (predOf c) (some e.addr) +
      ({cell e (r.height - l.height) (link l (predOf c)) (some n.addr, true)} +
        ({cell n (r.height - (0 : ℕ)) (some e.addr, false) (link r (succOf c))} +
          (pathCells c e.addr (node e l (node n nil r)).height + (cells r (some n.addr) (succOf c) + g))))) := by
    convert o using 1
    simp only [cells, link_nil, height]
    ac_rfl
  refine (replaceNode_yields hl hturns hroot o').mono fun s' hres => ?_
  obtain ⟨hroot', o₁⟩ := hres
  refine ⟨(cell e (r.height - l.height) (link l (predOf c)) (some n.addr, true)).2, ?_⟩
  have hm : Moved 1 (node n nil r).height r := ⟨br, by simp [height], by simp⟩
  refine .pending ⟨hc.1, hc.2.2.2⟩ (.right hm bl h1 h2) hf hroot' ?_ (by simp)
  change Owns s'.nodes (_ + (pathCells _ _ (node e l (node n nil r)).height + _))
  rw [cells_at_root]
  convert o₁ using 1
  simp only [cell]
  ac_rfl

/-- The next node takes the place of `e`, when it was further down, below `p`. -/
theorem replace_below {turns top j idx : ℕ} {m k : BinaryTree (AvlEntry K V)} {b p : AvlEntry K V}
    {cr : List (Frame (AvlEntry K V))} {w : Multiset (ℕ × AvlGenericNode K V)} (hl : l = node b m k)
    (hturns : l.height ≤ turns ∨ ex .hang) (hroot : s.root = some (rootOf c e.addr)) (hcr : AllLeft cr)
    (hc : Climbs path (.left p t :: cr ++ .right n l :: c)) (hidx : idx = (cr ++ .right n l :: c).length + 1)
    (hbal : (plug (.left p t :: cr ++ .right e l :: c) (node n nil r)).Balanced)
    (hw : ∀ x : AvlEntry K V, pathCells (cr ++ .right x l :: c) p.addr (node p (node n nil r) t).height =
      w + ({cell x ((j : ℕ) - l.height) (link l (predOf c)) (some top, true)} +
        (cells l (predOf c) (some x.addr) + pathCells c x.addr (max l.height j + 1))))
    (o : Owns s.nodes (cells (node p r t) (some n.addr) (succOf (cr ++ .right e l :: c)) +
      ({cell n r.height (some e.addr, false) (some top, true)} +
        ({cell e ((j : ℕ) - l.height) (link l (predOf c)) (some top, true)} + (w + (cells l (predOf c) (some e.addr) +
          (pathCells c e.addr (max l.height j + 1) + g))))))) :
    Yields ex (replaceNode turns s (parentOf c) (onLeft c) (some e.addr) (some n.addr) (link l (predOf c)).1) fun s' =>
      ∃ x, Unlinked (before c ++ (l.inorder ++ (plug (.left p t :: cr) (node n nil r)).inorder) ++ after c)
        ({(e.addr, x)} + g) (some p.addr, path, idx, s') := by
  rw [List.cons_append, plug, balanced_plug] at hbal
  obtain ⟨⟨⟨h1, h2⟩, ⟨-, -, br⟩, bt⟩, hf⟩ := hbal
  rw [fits_entry cr c e n] at hf
  have o' : Owns s.nodes (cells l (predOf c) (some e.addr) +
      ({cell e ((j : ℕ) - l.height) (link l (predOf c)) (some top, true)} +
        ({cell n r.height (some e.addr, false) (some top, true)} + (pathCells c e.addr (max l.height j + 1) +
          (cells (node p r t) (some n.addr) (succOf (cr ++ .right e l :: c)) + (w + g)))))) := by
    convert o using 1
    ac_rfl
  refine (replaceNode_yields hl hturns hroot o').mono fun s' hres => ?_
  obtain ⟨hroot', o₁⟩ := hres
  refine ⟨(cell e ((j : ℕ) - l.height) (link l (predOf c)) (some top, true)).2, ?_⟩
  have hm : Moved 1 (node n nil r).height r := ⟨br, by simp [height], by simp⟩
  subst hidx
  refine .pending ⟨hc.1, hc.2.2.2⟩ (.left hm bt h2 h1) hf ?_ ?_ ?_
  · rw [rootOf_append]
    exact hroot'
  · change Owns s'.nodes (_ + (pathCells _ _ (node p (node n nil r) t).height + _))
    rw [hw n, predOf_left hcr, succOf_entry cr n e]
    convert o₁ using 1
    simp only [cell]
    ac_rfl
  · rw [before_append, after_append, hcr.before_eq, inorder_plug, before, hcr.before_eq]
    simp [before, after]

theorem unlinkInner_yields {turns : ℕ} (hT : T = plug c (node e l r)) (hl : l ≠ nil) (hr : r ≠ nil) (hbal : T.Balanced)
    (hroot : s.root = some (rootOf c e.addr)) (hc : Climbs path c)
    (o : Owns s.nodes (cells T none none + g)) :
    Yields (Excused T turns) (unlinkInner turns s (parentOf c) (onLeft c) (some e.addr)
        (cell e (r.height - l.height) (link l (predOf c)) (link r (succOf c))).2 path c.length) fun p =>
      ∃ x, Unlinked (before c ++ (l.inorder ++ r.inorder) ++ after c) ({(e.addr, x)} + g) p := by
  obtain ⟨b, m, k, hl⟩ : ∃ b m k, l = node b m k := by
    cases l with
    | nil => exact absurd rfl hl
    | node b m k => exact ⟨b, m, k, rfl⟩
  obtain ⟨x, m', k', rfl⟩ : ∃ x m' k', r = node x m' k' := by
    cases r with
    | nil => exact absurd rfl hr
    | node x m k => exact ⟨x, m, k, rfl⟩
  have hheight := height_plug c (node e l (node x m' k'))
  rw [← hT] at hheight
  simp only [height] at hheight
  have hfind : Yields (Excused T turns) _ _ := findNext_yields o excused_path turns [] x m' k' path hT trivial hc trivial
    (enough_turns T (by simp only [height]; omega))
  refine Yields.bind hfind fun p hres => ?_
  obtain ⟨cr, n, nr, hN⟩ := hres
  obtain ⟨next, nextp, path', idx⟩ := p
  obtain ⟨hT', hcr, hnext, hnextp, hc', hcr', hidx⟩ := hN
  simp only at hnext hnextp hc' hcr' hidx
  subst hnext hnextp hidx
  refine Yields.bind (pathSet_place (n := n) (l := l) hc' hcr' fun h => excused_path (by omega)) fun path'' hc'' => ?_
  have hget : pathGet path'' (c.length + 1 + cr.length) = .ok (parentOf (cr ++ .right n l :: c)) := by
    rw [show c.length + 1 + cr.length = (cr ++ Frame.right n l :: c).length by simp; omega]
    exact pathGet_parent hc''.1 hc''.2
  refine Yields.then hget ?_
  have hlt : l.height ≤ turns ∨ Excused T turns .hang := enough_turns T (by omega)
  have hright : node x m' k' = plug cr (node n nil nr) := by
    have h := hT.symm.trans hT'
    rw [plug_append, plug] at h
    exact (node.inj (plug_inj h)).2.2
  rcases cr with _ | ⟨f, cr⟩
  · cases hright
    rw [hT, cells_plug, add_assoc, cells_at_root] at o
    refine Yields.bind (removeNext_here o) fun h₁ o₁ => ?_
    rw [show ((node x nil k').height - l.height - 1 : ℤ) = k'.height - l.height by simp; ring] at o₁
    exact Yields.bind (replace_here (s := { s with nodes := h₁ }) hl hlt hroot hc'' (hT ▸ hbal) o₁)
      fun s' hs' => hs'
  · cases f with
    | right p t => exact hcr.elim
    | left p t =>
      replace hcr : AllLeft cr := hcr
      obtain ⟨w, top, j, hw⟩ := pathCells_place (c := c) (l := l) hcr e p.addr (node p (node n nil nr) t).height
      have o' : Owns s.nodes (cells (node p (node n nil nr) t) (some e.addr) (succOf (cr ++ .right e l :: c)) +
          ({cell e ((j : ℕ) - l.height) (link l (predOf c)) (some top, true)} + (w + (cells l (predOf c) (some e.addr) +
            (pathCells c e.addr (max l.height j + 1) + g))))) := by
        rw [hT', List.cons_append, plug, cells_plug, hw e, predOf_left hcr] at o
        convert o using 1
        ac_rfl
      refine Yields.bind (removeNext_below o') fun h₁ o₁ => ?_
      rw [hright]
      refine Yields.bind (replace_below (s := { s with nodes := h₁ }) hl hlt hroot hcr hc'' ?_ (hT' ▸ hbal) hw o₁)
        fun s' hs' => hs'
      simp only [List.length_append, List.length_cons]
      omega

/-! ### The whole call -/

theorem unlink_yields {turns : ℕ} (hT : T = plug c (node e l r)) (hbal : T.Balanced)
    (hroot : s.root = some (rootOf c e.addr)) (hc : Climbs path c) (o : Owns s.nodes (cells T none none + g)) :
    Yields (Excused T turns) (unlink turns s (parentOf c) (onLeft c) (some e.addr) path c.length) fun p =>
      ∃ x, Unlinked (before c ++ (l.inorder ++ r.inorder) ++ after c) ({(e.addr, x)} + g) p := by
  have o' := o
  rw [hT, cells_plug, add_assoc] at o'
  obtain ⟨⟨⟨h1, h2⟩, -, -⟩, hf⟩ := (balanced_plug c _).1 (hT ▸ hbal)
  have hheight := height_plug c (node e l r)
  rw [← hT] at hheight
  simp only [height] at hheight
  refine Yields.then (read_at o hT) ?_
  rcases l with _ | ⟨n, m, k⟩
  · rcases r with _ | ⟨n', m', k'⟩
    · have o₀ : Owns s.nodes (pathCells c e.addr 1 + ({cell e 0 (predOf c, false) (succOf c, false)} + g)) := by
        convert o' using 1
        simp only [cells, link_nil, height, max_self, zero_add, sub_self, add_zero]
        ac_rfl
      refine Yields.bind (unlinkLeaf_yields hroot hc hf o₀) fun s' hu =>
        ⟨(cell e 0 (predOf c, false) (succOf c, false)).2, ?_⟩
      simpa [cell] using hu
    · have hleaf := eq_leaf (a := n') (l := m') (r := k') (by simp only [height] at h2 ⊢; omega)
      rw [hleaf] at o' hf
      cases hleaf
      refine Yields.bind (unlinkRightChild_yields (enough_turns T (by omega)) hroot hc hf o') fun s' hs' => ?_
      obtain ⟨x, hu⟩ := hs'
      exact ⟨x, by simpa using hu⟩
  · rcases r with _ | ⟨n', m', k'⟩
    · have hleaf := eq_leaf (a := n) (l := m) (r := k) (by simp only [height] at h1 ⊢; omega)
      rw [hleaf] at o' hf
      cases hleaf
      refine Yields.bind (unlinkLeftChild_yields (enough_turns T (by omega)) hroot hc hf o') fun s' hs' => ?_
      obtain ⟨x, hu⟩ := hs'
      exact ⟨x, by simpa using hu⟩
    · exact unlinkInner_yields hT (by simp) (by simp) hbal hroot hc o

/-- The tree holds what `T` holds, without the entry `e`. -/
structure Removed (T : BinaryTree (AvlEntry K V)) (e : AvlEntry K V) (s : AvlGeneric K V)
    (g : Multiset (ℕ × AvlGenericNode K V)) (t : BinaryTree (AvlEntry K V)) : Prop where
  balanced : t.Balanced
  holds : InMemory s t g
  inorder : ∃ xs ys, T.inorder = xs ++ e :: ys ∧ t.inorder = xs ++ ys

theorem delNode_yields {turns : ℕ} {q : AvlSearch} (hT : T = plug c (node e l r)) (hbal : T.Balanced)
    (hold : InMemory s T g) (hnode : q.node = some e.addr) (hc : Climbs q.path c)
    (hidx : q.idx = c.length + 1) :
    Yields (Excused T turns) (delNode turns s q) fun p => p.1 = .ok ∧ p.2.1 = some e.value ∧ ∃ t, Removed T e p.2.2 g t := by
  obtain ⟨hroot, o⟩ := hold
  rw [hT, link_plug] at hroot
  have o' := o
  rw [hT, cells_plug, add_assoc] at o'
  rw [delNode, hnode, hidx]
  refine Yields.then (read_at o hT) ?_
  refine Yields.then (pathGet_parent hc.1 hc.2) ?_
  refine Yields.then (isLeftOf_parent o') ?_
  refine Yields.bind (unlink_yields hT hbal hroot hc o) fun p hres => ?_
  obtain ⟨x, hu⟩ := hres
  refine Yields.bind (restoreFrom_yields hu) fun s' hres => ?_
  obtain ⟨t, ht, hin, hroot', o₁⟩ := hres
  rw [add_left_comm] at o₁
  refine Yields.bind (o₁.free _) fun h₂ o₂ => ?_
  refine ⟨rfl, rfl, t, ht, ⟨hroot', o₂⟩, before c ++ l.inorder, r.inorder ++ after c, ?_, ?_⟩
  · rw [hT, inorder_plug]
    simp
  · rw [hin]
    simp

theorem chulaAvlGenericDel_yields [LinearOrder K] {m : AvlMethods K} {turns : ℕ} {key : K} {f : K → Option V}
    (hs : Sorted T) (hbal : T.Balanced) (hm : Models T f) (ha : Agrees m key T)
    (hold : InMemory s T g) :
    Yields (Excused T turns) (chulaAvlGenericDel m turns s key) fun p =>
      if m.nodeIsEmpty key then p = (.error, none, s)
      else if (f key).isSome then p.1 = .ok ∧ p.2.1 = f key ∧ ∃ e t, e.key = key ∧ Removed T e p.2.2 g t
      else p = (.notFound, none, s) := by
  rw [chulaAvlGenericDel]
  by_cases hempty : m.nodeIsEmpty key = true
  · rw [if_pos hempty]
    simp [hempty]
  rw [if_neg hempty]
  simp only [if_neg hempty]
  obtain ⟨root, nodes⟩ := s
  obtain ⟨hroot, o⟩ := hold
  simp only at hroot o
  subst hroot
  rcases T with _ | ⟨e, l, r⟩
  · rw [hm.eq_none (k := key) (by simp)]
    simp
  · have hends : Yields (Excused (node e l r) turns) _ _ := nodeSearch_yields hs ha o excused_path turns [] e l r pathStart rfl
      climbs_start ⟨by simp [before], by simp [after]⟩ (enough_turns _ le_rfl)
    refine Yields.bind hends fun q hres => ?_
    obtain ⟨c, e', l', r', hq⟩ := hres
    by_cases hre : q.re = 0
    · have hkey := hq.key_eq hre
      have hf : f key = some e'.value := (hm _ _).2 ⟨e', mem_at hq.tree, hkey.symm, rfl⟩
      rw [if_pos hre, hf]
      refine (delNode_yields hq.tree hbal ⟨rfl, o⟩ hq.node hq.path hq.idx).mono fun p hres => ?_
      obtain ⟨hok, hv, t, ht⟩ := hres
      simp only [Option.isSome_some, if_true]
      exact ⟨hok, hv, e', t, hkey.symm, ht⟩
    · rw [if_neg hre, hm.eq_none (hq.absent hs hre)]
      simp

end Del

end LibHpack.Avl
