import LibHpack.Avl.Layout

/-!
# LibHpack.Avl.Balance — rotations and the loop that restores the balance

Each function of the source is a step of the repair of `General.AvlTree`, with the threads and the balances of the nodes.
-/

namespace LibHpack.Avl

open BinaryTree Heap Run

section Balance

variable {K V : Type} {ex : AvlFault → Prop} {h : AvlHeap K V} {a b : AvlEntry K V}
  {l m r : BinaryTree (AvlEntry K V)} {pred succ : Option ℕ} {x y : ℤ} {L R : Option ℕ × Bool}
  {g : Multiset (ℕ × AvlGenericNode K V)}

/-! ### Rotations -/

/-- The three trees that a rotation does not touch. -/
def outer (a b : AvlEntry K V) (l m r : BinaryTree (AvlEntry K V)) (pred succ : Option ℕ) :
    Multiset (ℕ × AvlGenericNode K V) :=
  cells l pred (some a.addr) + (cells m (some a.addr) (some b.addr) + cells r (some b.addr) succ)

/-- The nodes of a tree with a right child. -/
theorem cells_right : cells (node a l (node b m r)) pred succ + g =
    {cell a ((node b m r).height - l.height) (link l pred) (some b.addr, true)} +
      ({cell b (r.height - m.height) (link m (some a.addr)) (link r succ)} + (outer a b l m r pred succ + g)) := by
  simp only [cells, link_node, outer]
  ac_rfl

/-- The nodes of a tree with a left child. -/
theorem cells_left : cells (node b (node a l m) r) pred succ + g =
    {cell b (r.height - (node a l m).height) (some a.addr, true) (link r succ)} +
      ({cell a (m.height - l.height) (link l pred) (link m (some b.addr))} + (outer a b l m r pred succ + g)) := by
  simp only [cells, link_node, outer]
  ac_rfl

theorem takeLeft_yields
    (o : Owns h ({cell a x L (some b.addr, true)} + ({cell b y (link m (some a.addr)) R} + g))) :
    Yields ex (takeLeft h (some a.addr) (some b.addr)) fun h' =>
      ∃ q, Owns h' ({cell b y (q, true) R} + ({cell a x L (link m (some b.addr))} + g)) := by
  have o' : Owns h ({cell b y (link m (some a.addr)) R} + ({cell a x L (some b.addr, true)} + g)) := by
    rwa [add_left_comm]
  refine Yields.then (o'.read_head _) ?_
  cases m with
  | nil =>
    refine Yields.bind (o.modify _ _ (cell a x L (some b.addr, false)) rfl) fun h₁ o₁ => ?_
    rw [add_left_comm] at o₁
    exact (o₁.modify _ _ (cell b y (some a.addr, true) R) rfl).mono fun h₂ o₂ => ⟨_, o₂⟩
  | node c n p =>
    refine (o.modify _ _ (cell a x L (some c.addr, true)) rfl).mono fun h₁ o₁ => ?_
    rw [add_left_comm] at o₁
    exact ⟨_, o₁⟩

theorem takeRight_yields
    (o : Owns h ({cell b x (some a.addr, true) R} + ({cell a y L (link m (some b.addr))} + g))) :
    Yields ex (takeRight h (some b.addr) (some a.addr)) fun h' =>
      ∃ q, Owns h' ({cell a y L (q, true)} + ({cell b x (link m (some a.addr)) R} + g)) := by
  have o' : Owns h ({cell a y L (link m (some b.addr))} + ({cell b x (some a.addr, true) R} + g)) := by
    rwa [add_left_comm]
  refine Yields.then (o'.read_head _) ?_
  cases m with
  | nil =>
    refine Yields.bind (o.modify _ _ (cell b x (some a.addr, false) R) rfl) fun h₁ o₁ => ?_
    rw [add_left_comm] at o₁
    exact (o₁.modify _ _ (cell a y L (some b.addr, true)) rfl).mono fun h₂ o₂ => ⟨_, o₂⟩
  | node c n p =>
    refine (o.modify _ _ (cell b x (some c.addr, true) R) rfl).mono fun h₁ o₁ => ?_
    rw [add_left_comm] at o₁
    exact ⟨_, o₁⟩

/-- The balances that `node_rotate_left` computes from those of its two nodes, for any heights. -/
theorem rotateLeft_balances (hx : x = (node b m r).height - l.height) (hy : y = r.height - m.height) :
    (if y ≤ 0 then if 1 ≤ x then y - 1 else x + y - 2 else if x ≤ y then x - 2 else y - 1) =
        r.height - (node a l m).height ∧
      (if y ≤ 0 then x - 1 else x - y - 1) = m.height - l.height := by
  simp only [height] at hx ⊢
  split_ifs <;> omega

/-- The balances that `node_rotate_right` computes. -/
theorem rotateRight_balances (hx : x = r.height - (node a l m).height) (hy : y = m.height - l.height) :
    (if y ≤ 0 then if x < y then y + 1 else x + 2 else if x ≤ -1 then y + 1 else x + y + 2) =
        (node b m r).height - l.height ∧
      (if y ≤ 0 then x - y + 1 else x + 1) = r.height - m.height := by
  simp only [height] at hx ⊢
  split_ifs <;> omega

theorem nodeRotateLeft_yields (o : Owns h (cells (node a l (node b m r)) pred succ + g)) :
    Yields ex (nodeRotateLeft h (some a.addr)) fun p =>
      p.1 = some b.addr ∧ Owns p.2 (cells (node b (node a l m) r) pred succ + g) := by
  rw [cells_right] at o
  refine Yields.then (o.read_head _) ?_
  refine Yields.bind (takeLeft_yields o) fun h₁ hres => ?_
  obtain ⟨q, o₁⟩ := hres
  refine Yields.bind (o₁.modify _ _ (cell b (r.height - m.height) (some a.addr, true) (link r succ)) rfl) fun h₂ o₂ => ?_
  refine Yields.then (o₂.read_head _) ?_
  obtain ⟨hb, ha⟩ := rotateLeft_balances (a := a) (b := b) (l := l) (m := m) (r := r) rfl rfl
  refine Yields.bind (o₂.modify _ _ (cell b _ (some a.addr, true) (link r succ)) rfl) fun h₃ o₃ => ?_
  rw [add_left_comm] at o₃
  refine Yields.bind (o₃.modify _ _ (cell a _ (link l pred) (link m (some b.addr))) rfl) fun h₄ o₄ => ?_
  rw [add_left_comm] at o₄
  refine ⟨rfl, ?_⟩
  rw [cells_left, ← hb, ← ha]
  exact o₄

theorem nodeRotateRight_yields (o : Owns h (cells (node b (node a l m) r) pred succ + g)) :
    Yields ex (nodeRotateRight h (some b.addr)) fun p =>
      p.1 = some a.addr ∧ Owns p.2 (cells (node a l (node b m r)) pred succ + g) := by
  rw [cells_left] at o
  refine Yields.then (o.read_head _) ?_
  refine Yields.bind (takeRight_yields o) fun h₁ hres => ?_
  obtain ⟨q, o₁⟩ := hres
  refine Yields.bind (o₁.modify _ _ (cell a (m.height - l.height) (link l pred) (some b.addr, true)) rfl) fun h₂ o₂ => ?_
  refine Yields.then (o₂.read_head _) ?_
  obtain ⟨ha, hb⟩ := rotateRight_balances (a := a) (b := b) (l := l) (m := m) (r := r) rfl rfl
  refine Yields.bind (o₂.modify _ _ (cell a _ (link l pred) (some b.addr, true)) rfl) fun h₃ o₃ => ?_
  rw [add_left_comm] at o₃
  refine Yields.bind (o₃.modify _ _ (cell b _ (link m (some a.addr)) (link r succ)) rfl) fun h₄ o₄ => ?_
  rw [add_left_comm] at o₄
  refine ⟨rfl, ?_⟩
  rw [cells_right, ← hb, ← ha]
  exact o₄

/-! ### node_balance -/

theorem straightenLeft_yields (hl : l.Balanced) (hne : l ≠ nil) (o : Owns h (cells (node a l r) pred succ + g)) :
    Yields ex (straightenLeft h (some a.addr)) fun h' =>
      Owns h' (cells (node a (if 0 < l.balance then l.rotateLeft else l) r) pred succ + g) := by
  rcases l with _ | ⟨b, m, n⟩
  · exact absurd rfl hne
  have o' := o
  rw [cells_at_root] at o'
  refine Yields.then (o'.read_head _) ?_
  have o₀ := o
  rw [cells_at_left, cells_at_root] at o₀
  refine Yields.then (o₀.read_head _) ?_
  change Yields ex (if 0 < (node b m n).balance then _ else _) _
  split_ifs with hb
  · rcases n with _ | ⟨c, n, p⟩
    · simp at hb
      omega
    have hh := height_rotateLeft hl hb
    rw [cells_at_left] at o
    refine Yields.bind (nodeRotateLeft_yields o) fun q hres => ?_
    obtain ⟨hq, o₁⟩ := hres
    rw [rotateLeft] at hh ⊢
    obtain ⟨q, h₁⟩ := q
    cases hq
    rw [add_left_comm] at o₁
    refine (o₁.modify _ _ (cell a (r.height - (node c (node b m n) p).height) (some c.addr, true) (link r succ)) ?_).mono
      fun h₂ o₂ => ?_
    · rw [hh]
      rfl
    · rw [cells_at_left, add_left_comm]
      exact o₂
  · exact o

theorem straightenRight_yields (hr : r.Balanced) (hne : r ≠ nil) (o : Owns h (cells (node a l r) pred succ + g)) :
    Yields ex (straightenRight h (some a.addr)) fun h' =>
      Owns h' (cells (node a l (if r.balance < 0 then r.rotateRight else r)) pred succ + g) := by
  rcases r with _ | ⟨b, n, m⟩
  · exact absurd rfl hne
  have o' := o
  rw [cells_at_root] at o'
  refine Yields.then (o'.read_head _) ?_
  have o₀ := o
  rw [cells_at_right, cells_at_root] at o₀
  refine Yields.then (o₀.read_head _) ?_
  change Yields ex (if (node b n m).balance < 0 then _ else _) _
  split_ifs with hb
  · rcases n with _ | ⟨c, p, n⟩
    · simp at hb
      omega
    have hh := height_rotateRight hr hb
    rw [cells_at_right] at o
    refine Yields.bind (nodeRotateRight_yields o) fun q hres => ?_
    obtain ⟨hq, o₁⟩ := hres
    rw [rotateRight] at hh ⊢
    obtain ⟨q, h₁⟩ := q
    cases hq
    rw [add_left_comm] at o₁
    refine (o₁.modify _ _ (cell a ((node c p (node b n m)).height - l.height) (link l pred) (some c.addr, true)) ?_).mono
      fun h₂ o₂ => ?_
    · rw [hh]
      rfl
    · rw [cells_at_right, add_left_comm]
      exact o₂
  · exact o

theorem nodeBalance_yields (hl : l.Balanced) (hr : r.Balanced) (o : Owns h (cells (node a l r) pred succ + g)) :
    Yields ex (nodeBalance h (some a.addr)) fun p =>
      ∃ b m n, (node a l r).rebalance = node b m n ∧ p.1 = some b.addr ∧ Owns p.2 (cells (node b m n) pred succ + g) := by
  have o' := o
  rw [cells_at_root] at o'
  refine Yields.then (o'.read_head _) ?_
  rw [rebalance]
  change Yields ex (if (node a l r).balance < -1 then _ else if 1 < (node a l r).balance then _ else _) _
  by_cases h1 : (node a l r).balance < -1
  · rw [if_pos h1, if_pos h1]
    have hne : l ≠ nil := by
      rintro rfl
      simp at h1
      omega
    refine Yields.bind (straightenLeft_yields hl hne o) fun h₁ o₁ => ?_
    have ht : (if 0 < l.balance then l.rotateLeft else l) ≠ nil := by
      split_ifs with hb
      · rw [← height_eq_zero.ne, height_rotateLeft hl hb, height_eq_zero.ne]
        exact hne
      · exact hne
    generalize (if 0 < l.balance then l.rotateLeft else l) = t at ht o₁ ⊢
    rcases t with _ | ⟨b, m, n⟩
    · exact absurd rfl ht
    · exact (nodeRotateRight_yields o₁).mono fun p hp => ⟨_, _, _, rfl, hp.1, hp.2⟩
  rw [if_neg h1, if_neg h1]
  by_cases h2 : 1 < (node a l r).balance
  · rw [if_pos h2, if_pos h2]
    have hne : r ≠ nil := by
      rintro rfl
      simp at h2
      omega
    refine Yields.bind (straightenRight_yields hr hne o) fun h₁ o₁ => ?_
    have ht : (if r.balance < 0 then r.rotateRight else r) ≠ nil := by
      split_ifs with hb
      · rw [← height_eq_zero.ne, height_rotateRight hr hb, height_eq_zero.ne]
        exact hne
      · exact hne
    generalize (if r.balance < 0 then r.rotateRight else r) = t at ht o₁ ⊢
    rcases t with _ | ⟨b, m, n⟩
    · exact absurd rfl ht
    · exact (nodeRotateLeft_yields o₁).mono fun p hp => ⟨_, _, _, rfl, hp.1, hp.2⟩
  · rw [if_neg h2, if_neg h2]
    exact ⟨_, _, _, rfl, rfl, o⟩

/-! ### The loop along the path -/

/-- The node above a position, or NULL. -/
def parentOf : List (Frame (AvlEntry K V)) → Option ℕ
  | [] => none
  | f :: _ => some f.entry.addr

/-- Whether the position is a left child. -/
def onLeft : List (Frame (AvlEntry K V)) → Bool
  | .left _ _ :: _ => true
  | _ => false

/-- The nodes of `c` stand in `path` from index `base` on, the outermost first. -/
def OnPath (path : AvlPath) (base : ℕ) : List (Frame (AvlEntry K V)) → Prop
  | [] => True
  | f :: c => base + c.length < maxHeight ∧ path (base + c.length) = some (some f.entry.addr) ∧ OnPath path base c

theorem pathGet_parent {path : AvlPath} {c : List (Frame (AvlEntry K V))} (h0 : path 0 = some none)
    (hc : OnPath path 1 c) : pathGet path c.length = .ok (parentOf c) := by
  cases c with
  | nil => simp [pathGet, maxHeight, h0, parentOf]
  | cons f c =>
    obtain ⟨hlt, hp, -⟩ := hc
    rw [pathGet, List.length_cons, add_comm, if_pos hlt, hp]
    rfl

/-- The thread to the left of a position leads to a node above it. -/
theorem mem_of_predOf {c : List (Frame (AvlEntry K V))} {i : ℕ} (hp : predOf c = some i) (k H : ℕ) :
    i ∈ (pathCells c k H).map Prod.fst := by
  induction c generalizing k H with
  | nil => cases hp
  | cons f c ih =>
    cases f with
    | left p s =>
      rw [pathCells, Multiset.map_add, Multiset.map_add, Multiset.mem_add, Multiset.mem_add]
      exact .inr (.inr (ih hp _ _))
    | right p s =>
      cases hp
      simp [pathCells, cell]

/-- A left link leads to the left child or, as a thread, to a node above. -/
theorem mem_of_link {t : BinaryTree (AvlEntry K V)} {c : List (Frame (AvlEntry K V))} {i : ℕ}
    (hp : (link t (predOf c)).1 = some i) (q : Option ℕ) (k H : ℕ) :
    i ∈ (cells t (predOf c) q + pathCells c k H).map Prod.fst := by
  rw [Multiset.map_add, Multiset.mem_add]
  cases t with
  | nil => exact .inr (mem_of_predOf hp k H)
  | node e l r =>
    cases hp
    refine .inl ?_
    simp [cells, cell]

theorem isLeftOf_parent {c : List (Frame (AvlEntry K V))} {H : ℕ}
    (o : Owns h (cells (node a l r) (predOf c) (succOf c) + (pathCells c a.addr H + g))) :
    isLeftOf h (parentOf c) (some a.addr) = .ok (onLeft c) := by
  cases c with
  | nil => rfl
  | cons f c =>
    have o' := o
    cases f with
    | left p s =>
      rw [pathCells, add_assoc {_}, add_left_comm] at o'
      simp only [isLeftOf, parentOf, Frame.entry, onLeft]
      rw [ok_then (readNode_cell o')]
      simp [cell]
    | right p s =>
      rw [pathCells, add_assoc {_}, add_left_comm] at o'
      simp only [isLeftOf, parentOf, Frame.entry, onLeft]
      rw [ok_then (readNode_cell o')]
      -- the sibling and the nodes above are all at addresses other than that of the node
      have hne : (link s (predOf c)).1 ≠ some a.addr := by
        intro hp
        obtain ⟨q, hq, hqa⟩ := Multiset.mem_map.1 (mem_of_link hp (some p.addr) p.addr (max s.height H + 1))
        rw [cells_at_root] at o
        refine o.notMem q ?_ hqa
        rw [pathCells]
        simp only [Multiset.mem_add] at hq ⊢
        tauto
      simp [cell, hne]

section Loop

variable {s : AvlGeneric K V} {c : List (Frame (AvlEntry K V))} {i j H : ℕ} {d : ℤ} {stop : ℤ → Bool} {path : AvlPath}

theorem relink_yields (hroot : s.root = some (rootOf c i)) (o : Owns s.nodes (pathCells c i H + g)) (j : ℕ) :
    Yields ex (relink s (parentOf c) (onLeft c) (some j)) fun s' =>
      s'.root = some (rootOf c j) ∧ Owns s'.nodes (pathCells c j H + g) := by
  cases c with
  | nil => exact ⟨rfl, o⟩
  | cons f c =>
    cases f with
    | left p t =>
      rw [pathCells, add_assoc] at o
      refine Yields.bind (o.modify _ _ (cell p (t.height - H) (some j, true) (link t (succOf c))) rfl) fun h₁ o₁ => ?_
      refine ⟨hroot, ?_⟩
      rw [pathCells, add_assoc]
      exact o₁
    | right p t =>
      rw [pathCells, add_assoc] at o
      refine Yields.bind (o.modify _ _ (cell p (H - t.height) (link t (predOf c)) (some j, true)) rfl) fun h₁ o₁ => ?_
      refine ⟨hroot, ?_⟩
      rw [pathCells, add_assoc]
      exact o₁

/-- One turn of the loop, before it looks at the balance. -/
theorem restoreAt_yields (hl : l.Balanced) (hr : r.Balanced) (hroot : s.root = some (rootOf c a.addr))
    (o : Owns s.nodes (cells (node a l r) (predOf c) (succOf c) + (pathCells c a.addr H + g))) :
    Yields ex (restoreAt s (parentOf c) (onLeft c) (some a.addr)) fun p =>
      ∃ b m n, (node a l r).rebalance = node b m n ∧ p.1 = some b.addr ∧ p.2.root = some (rootOf c b.addr) ∧
        Owns p.2.nodes (cells (node b m n) (predOf c) (succOf c) + (pathCells c b.addr H + g)) := by
  have o' := o
  rw [cells_at_root] at o'
  refine Yields.then (o'.read_head _) ?_
  change Yields ex (if (node a l r).balance < -1 ∨ 1 < (node a l r).balance then _ else _) _
  split_ifs with hlean
  · refine Yields.bind (nodeBalance_yields hl hr o) fun p hres => ?_
    obtain ⟨b, m, n, ht, hp, o₁⟩ := hres
    obtain ⟨p, h₁⟩ := p
    cases hp
    rw [add_left_comm] at o₁
    refine Yields.bind (relink_yields (s := { s with nodes := h₁ }) hroot o₁ b.addr) fun s₂ hres => ?_
    obtain ⟨hroot₂, o₂⟩ := hres
    rw [add_left_comm] at o₂
    exact ⟨b, m, n, ht, rfl, hroot₂, o₂⟩
  · have ht : (node a l r).rebalance = node a l r := by
      rw [rebalance, if_neg fun h1 => hlean (.inl h1), if_neg fun h2 => hlean (.inr h2)]
    exact ⟨a, l, r, ht, rfl, hroot, o⟩

/-- With the height that the tree above counts with, all balances are right again. -/
theorem plug_inMemory {m n : BinaryTree (AvlEntry K V)} (hb : (node b m n).Balanced) (hf : Fits c H)
    (hroot : s.root = some (rootOf c b.addr))
    (o : Owns s.nodes (cells (node b m n) (predOf c) (succOf c) + (pathCells c b.addr H + g)))
    (hH : c = [] ∨ (node b m n).height = H) : (plug c (node b m n)).Balanced ∧ InMemory s (plug c (node b m n)) g := by
  refine ⟨?_, by rw [link_plug]; exact hroot, ?_⟩
  · rw [balanced_plug]
    refine ⟨hb, ?_⟩
    rcases hH with rfl | rfl
    · trivial
    · exact hf
  · rw [cells_plug, add_assoc]
    rcases hH with rfl | rfl
    · exact o
    · exact o

/-- **The balance is restored**: from a subtree that is `Off` up to the root.  A tree that is balanced all the same stays as
it is. -/
theorem restore_yields (hd : d = -1 ∨ d = 1) (hstop : ∀ b, stop b = true ↔ Settles d b) (h0 : path 0 = some none) :
    ∀ (c : List (Frame (AvlEntry K V))) (a : AvlEntry K V) (l r : BinaryTree (AvlEntry K V)) (H : ℕ)
      (s : AvlGeneric K V), OnPath path 1 c → Off d H (node a l r) → Fits c H → s.root = some (rootOf c a.addr) →
      Owns s.nodes (cells (node a l r) (predOf c) (succOf c) + (pathCells c a.addr H + g)) →
      Yields ex (restore stop d path (c.length + 1) (some a.addr) s) fun s' =>
        ∃ t : BinaryTree (AvlEntry K V), t.Balanced ∧ t.inorder = before c ++ (node a l r).inorder ++ after c ∧
          ((plug c (node a l r)).Balanced → t = plug c (node a l r)) ∧ InMemory s' t g
  | c, a, l, r, H, s, hc, ho, hf, hroot, o => by
    obtain ⟨a', l', r', ht', hl, hr, -⟩ := ho.heights
    cases ht'
    obtain ⟨hb, hsettle, hmove⟩ := off_settle hd ho
    refine Yields.then (pathGet_parent h0 hc) ?_
    refine Yields.then (isLeftOf_parent o) ?_
    refine Yields.bind (restoreAt_yields hl hr hroot o) fun p hres => ?_
    obtain ⟨b, m, n, ht, hp, hroot₁, o₁⟩ := hres
    obtain ⟨p, s₁⟩ := p
    cases hp
    have hin : (node b m n).inorder = (node a l r).inorder := by rw [← ht, inorder_rebalance]
    have hsame : (plug c (node a l r)).Balanced → node b m n = node a l r := fun hbal => by
      rw [← ht, rebalance_of_balanced ((balanced_plug c _).1 hbal).1]
    rw [ht] at hb hsettle hmove
    have o₁' := o₁
    rw [cells_at_root] at o₁'
    refine Yields.then (o₁'.read_head _) ?_
    change Yields ex (if stop (node b m n).balance = true ∨ parentOf c = none then _ else _) _
    by_cases hend : stop (node b m n).balance = true ∨ parentOf c = none
    · rw [if_pos hend]
      have hH : c = [] ∨ (node b m n).height = H := by
        rcases hend with hend | hend
        · exact .inr (hsettle ((hstop _).1 hend))
        · cases c with
          | nil => exact .inl rfl
          | cons f c => cases hend
      obtain ⟨hbal, hold⟩ := plug_inMemory hb hf hroot₁ o₁ hH
      exact ⟨_, hbal, by rw [inorder_plug, hin], fun hplug => by rw [hsame hplug], hold⟩
    · rw [if_neg hend]
      have hm := hmove fun hs => hend (.inl ((hstop _).2 hs))
      have hheight := hm.2.1
      cases c with
      | nil => exact absurd (.inr rfl) hend
      | cons f c =>
        obtain ⟨hlt, hpath, hc⟩ := hc
        cases f with
        | left p t =>
          obtain ⟨bt, h1, h2, hf⟩ := hf
          rw [pathCells, add_assoc, add_left_comm] at o₁
          refine Yields.bind (o₁.modify _ _
            (cell p (t.height - (node b m n).height) (some b.addr, true) (link t (succOf c))) ?_) fun h₂ o₂ => ?_
          · rw [hheight, show (t.height - (H - d) : ℤ) = t.height - H + d by ring]
            rfl
          refine (restore_yields hd hstop h0 c p (node b m n) t _ { s₁ with nodes := h₂ } hc (.left hm bt h1 h2) hf
            hroot₁ ?_).mono ?_
          · rw [cells_at_root]
            convert o₂ using 1
            simp only [predOf, succOf, link_node]
            ac_rfl
          · rintro s' ⟨t', ht', hin', hplug', hold⟩
            refine ⟨t', ht', ?_, fun hplug => ?_, hold⟩
            · rw [hin', inorder_node, hin]
              simp [before, after]
            · rw [hsame hplug] at hplug'
              exact hplug' hplug
        | right p t =>
          obtain ⟨bt, h1, h2, hf⟩ := hf
          rw [pathCells, add_assoc, add_left_comm] at o₁
          refine Yields.bind (o₁.modify _ _
            (cell p ((node b m n).height - t.height) (link t (predOf c)) (some b.addr, true)) ?_) fun h₂ o₂ => ?_
          · rw [hheight, show (H - d - t.height : ℤ) = H - t.height - d by ring]
            rfl
          refine (restore_yields hd hstop h0 c p t (node b m n) _ { s₁ with nodes := h₂ } hc (.right hm bt h1 h2) hf
            hroot₁ ?_).mono ?_
          · rw [cells_at_root]
            convert o₂ using 1
            simp only [predOf, succOf, link_node]
            ac_rfl
          · rintro s' ⟨t', ht', hin', hplug', hold⟩
            refine ⟨t', ht', ?_, fun hplug => ?_, hold⟩
            · rw [hin', inorder_node, hin]
              simp [before, after]
            · rw [hsame hplug] at hplug'
              exact hplug' hplug

end Loop

end Balance

end LibHpack.Avl
