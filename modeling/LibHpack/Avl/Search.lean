import LibHpack.Avl.Balance

/-!
# LibHpack.Avl.Search — the searches of node_add, chula_avl_generic_del and chula_avl_generic_get

The keys are linearly ordered, and `Agrees` is what a search needs of the comparison: its result, in the variable `re`,
has the sign of the order for the key that is searched and those of the tree.
-/

namespace LibHpack.Avl

open BinaryTree Heap Run

section Search

variable {K V : Type} [LinearOrder K]

/-- The keys increase from left to right. -/
def Sorted (t : BinaryTree (AvlEntry K V)) : Prop := t.inorder.Pairwise fun x y => x.key < y.key

/-- Every comparison of the key with one of the tree is that of the order. -/
def Agrees (m : AvlMethods K) (key : K) (t : BinaryTree (AvlEntry K V)) : Prop :=
  ∀ e ∈ t.inorder, (toShort (m.nodeCmp key e.key) < 0 ↔ key < e.key) ∧ (0 < toShort (m.nodeCmp key e.key) ↔ e.key < key)

/-- The nodes above a position stand in `path`. -/
def Climbs (path : AvlPath) (c : List (Frame (AvlEntry K V))) : Prop := path 0 = some none ∧ OnPath path 1 c

/-- The key belongs at the position, or below it. -/
def Between (key : K) (c : List (Frame (AvlEntry K V))) : Prop :=
  (∀ x ∈ before c, x.key < key) ∧ ∀ x ∈ after c, key < x.key

variable {m : AvlMethods K} {key : K} {T : BinaryTree (AvlEntry K V)} {h : AvlHeap K V} {ex : AvlFault → Prop}
  {g : Multiset (ℕ × AvlGenericNode K V)} {c : List (Frame (AvlEntry K V))} {e : AvlEntry K V}
  {l r : BinaryTree (AvlEntry K V)} {path : AvlPath}

omit [LinearOrder K] in
theorem OnPath.set {base i : ℕ} (hc : OnPath path base c) (hi : base + c.length ≤ i) (p : Option (Option ℕ)) :
    OnPath (Function.update path i p) base c := by
  induction c with
  | nil => trivial
  | cons f c ih =>
    obtain ⟨hlt, hp, hc⟩ := hc
    rw [List.length_cons] at hi
    refine ⟨hlt, ?_, ih hc (by omega)⟩
    rw [Function.update_of_ne (by omega), hp]

omit [LinearOrder K] in
/-- One more node on the path; only a tree that is too high has no room for it. -/
theorem pathSet_yields (hc : Climbs path c) (f : Frame (AvlEntry K V)) (hex : maxHeight ≤ c.length + 1 → ex .path) :
    Yields ex (pathSet path (c.length + 1) (some f.entry.addr)) fun path' => Climbs path' (f :: c) := by
  rw [pathSet]
  split_ifs with hlt
  · obtain ⟨h0, hc⟩ := hc
    refine ⟨?_, by omega, ?_, hc.set (by omega) _⟩
    · rw [Function.update_of_ne (by omega), h0]
    · rw [add_comm, Function.update_self]
  · exact hex (by omega)

omit [LinearOrder K] in
theorem climbs_start : Climbs pathStart ([] : List (Frame (AvlEntry K V))) := ⟨rfl, trivial⟩

omit [LinearOrder K] in
theorem read_at (o : Owns h (cells T none none + g)) (hT : T = plug c (node e l r)) :
    readNode h (some e.addr) =
      .ok (cell e (r.height - l.height) (link l (predOf c)) (link r (succOf c))).2 := by
  rw [hT, cells_plug, add_assoc, cells_at_root] at o
  exact o.read_head _

omit [LinearOrder K] in
theorem mem_at (hT : T = plug c (node e l r)) : e ∈ T.inorder := by
  rw [hT, inorder_plug]
  simp

/-- Below a node on the side of the key. -/
theorem Between.left (hs : Sorted T) (hT : T = plug c (node e l r)) (hb : Between key c) (hk : key < e.key) :
    Between key (.left e r :: c) := by
  refine ⟨hb.1, fun x hx => ?_⟩
  rw [after, List.cons_append, List.mem_cons, List.mem_append] at hx
  rcases hx with rfl | hx | hx
  · exact hk
  · rw [Sorted, hT, inorder_plug, inorder_node, List.append_assoc, List.append_assoc] at hs
    have h1 := (List.pairwise_append.1 hs).2.1
    have h2 := (List.pairwise_append.1 h1).2.1
    rw [List.cons_append, List.pairwise_cons] at h2
    exact hk.trans (h2.1 x (List.mem_append_left _ hx))
  · exact hb.2 x hx

theorem Between.right (hs : Sorted T) (hT : T = plug c (node e l r)) (hb : Between key c) (hk : e.key < key) :
    Between key (.right e l :: c) := by
  refine ⟨fun x hx => ?_, hb.2⟩
  rw [before, List.mem_append, List.mem_append, List.mem_singleton] at hx
  rcases hx with hx | hx | rfl
  · exact hb.1 x hx
  · rw [Sorted, hT, inorder_plug, inorder_node, List.append_assoc, List.append_assoc] at hs
    have h1 := (List.pairwise_append.1 hs).2.1
    exact ((List.pairwise_append.1 h1).2.2 x hx e (by simp)).trans hk
  · exact hk

/-- The faults that a call may end in: a tree with more than `MAX_HEIGHT` levels, whose path does not fit, or fewer turns
than the tree has levels. -/
def Excused (T : BinaryTree (AvlEntry K V)) (turns : ℕ) (e : AvlFault) : Prop :=
  (e = .path ∧ maxHeight < T.height) ∨ (e = .hang ∧ turns < T.height)

omit [LinearOrder K] in
theorem excused_path {turns : ℕ} (hT : maxHeight < T.height) : Excused T turns .path := .inl ⟨rfl, hT⟩

omit [LinearOrder K] in
theorem enough_turns (T : BinaryTree (AvlEntry K V)) {turns k : ℕ} (hk : k ≤ T.height) :
    k ≤ turns ∨ Excused T turns .hang :=
  (le_or_gt T.height turns).imp hk.trans fun h => .inr ⟨rfl, h⟩

/-- A search has ended at the node of `e`: at the key, or where there is no child on its side. -/
structure Ends (key : K) (T : BinaryTree (AvlEntry K V)) (s : AvlSearch) (c : List (Frame (AvlEntry K V)))
    (e : AvlEntry K V) (l r : BinaryTree (AvlEntry K V)) : Prop where
  tree : T = plug c (node e l r)
  node : s.node = some e.addr
  path : Climbs s.path c
  idx : s.idx = c.length + 1
  between : Between key c
  stop : (s.re < 0 ∧ key < e.key ∧ l = nil) ∨ (0 < s.re ∧ e.key < key ∧ r = nil) ∨ (s.re = 0 ∧ key = e.key)

theorem nodeSearch_yields (hs : Sorted T) (ha : Agrees m key T) (o : Owns h (cells T none none + g))
    (hex : maxHeight < T.height → ex .path) :
    ∀ (turns : ℕ) (c : List (Frame (AvlEntry K V))) (e : AvlEntry K V) (l r : BinaryTree (AvlEntry K V)) (path : AvlPath),
      T = plug c (node e l r) → Climbs path c → Between key c → (node e l r).height ≤ turns ∨ ex .hang →
      Yields ex (nodeSearch m h key turns (some e.addr) path (c.length + 1)) fun s => ∃ c' e' l' r', Ends key T s c' e' l' r'
  | 0, _, e, l, r, _, _, _, _, hk => hk.resolve_left (by simp)
  | turns + 1, c, e, l, r, path, hT, hc, hb, hk => by
    have hheight := height_plug c (node e l r)
    rw [← hT] at hheight
    simp only [height] at hk hheight
    obtain ⟨hneg, hpos⟩ := ha e (mem_at hT)
    refine Yields.then (read_at o hT) ?_
    set re := toShort (m.nodeCmp key e.key) with hre
    change Yields ex (if re < 0 ∧ (link l (predOf c)).2 then _ else if 0 < re ∧ (link r (succOf c)).2 then _ else _) _
    by_cases h1 : re < 0
    · cases l with
      | nil =>
        rw [if_neg (by simp), if_neg (by omega)]
        exact ⟨c, e, nil, r, hT, rfl, hc, rfl, hb, .inl ⟨h1, hneg.1 h1, rfl⟩⟩
      | node e' l' r' =>
        rw [if_pos ⟨h1, rfl⟩]
        simp only [height] at hk hheight
        refine Yields.bind (pathSet_yields hc (.left e r) fun hlt => hex (by omega)) fun path' hc' => ?_
        refine nodeSearch_yields hs ha o hex turns (.left e r :: c) e' l' r' path' hT hc' ?_ ?_
        · exact hb.left hs hT (hneg.1 h1)
        · exact hk.imp_left fun hk => by simp only [height]; omega
    rw [if_neg fun h => h1 h.1]
    by_cases h2 : 0 < re
    · cases r with
      | nil =>
        rw [if_neg (by simp)]
        exact ⟨c, e, l, nil, hT, rfl, hc, rfl, hb, .inr (.inl ⟨h2, hpos.1 h2, rfl⟩)⟩
      | node e' l' r' =>
        rw [if_pos ⟨h2, rfl⟩]
        simp only [height] at hk hheight
        refine Yields.bind (pathSet_yields hc (.right e l) fun hlt => hex (by omega)) fun path' hc' => ?_
        refine nodeSearch_yields hs ha o hex turns (.right e l :: c) e' l' r' path' hT hc' ?_ ?_
        · exact hb.right hs hT (hpos.1 h2)
        · exact hk.imp_left fun hk => by simp only [height]; omega
    rw [if_neg fun h => h2 h.1]
    refine ⟨c, e, l, r, hT, rfl, hc, rfl, hb, .inr (.inr ⟨?_, ?_⟩)⟩
    · change re = 0
      omega
    · exact le_antisymm (not_lt.1 fun h => h2 (hpos.2 h)) (not_lt.1 fun h => h1 (hneg.2 h))

/-! ### The map that a tree stands for -/

/-- The tree has an entry for a key exactly when the map has it, with that value. -/
def Models (T : BinaryTree (AvlEntry K V)) (f : K → Option V) : Prop :=
  ∀ k v, f k = some v ↔ ∃ e ∈ T.inorder, e.key = k ∧ e.value = v

variable {f : K → Option V} {t : BinaryTree (AvlEntry K V)} {n : AvlEntry K V} {xs ys : List (AvlEntry K V)}

omit [LinearOrder K] in
theorem Models.eq_none (hm : Models T f) {k : K} (h : ∀ e ∈ T.inorder, e.key ≠ k) : f k = none := by
  rw [Option.eq_none_iff_forall_ne_some]
  intro v hv
  obtain ⟨e, he, hk, -⟩ := (hm k v).1 hv
  exact h e he hk

theorem Models.insert (hm : Models T f) (hT : T.inorder = xs ++ ys) (ht : t.inorder = xs ++ n :: ys)
    (hx : ∀ x ∈ xs, x.key < n.key) (hy : ∀ y ∈ ys, n.key < y.key) :
    Models t (Function.update f n.key (some n.value)) := by
  intro k v
  simp only [ht, List.mem_append, List.mem_cons]
  by_cases hk : k = n.key
  · subst hk
    rw [Function.update_self]
    constructor
    · intro hv
      exact ⟨n, .inr (.inl rfl), rfl, Option.some.inj hv⟩
    · rintro ⟨e, he | rfl | he, hek, rfl⟩
      · exact absurd hek (hx e he).ne
      · rfl
      · exact absurd hek (hy e he).ne'
  · rw [Function.update_of_ne hk, hm, hT]
    simp only [List.mem_append]
    constructor
    · rintro ⟨e, he | he, hek⟩
      · exact ⟨e, .inl he, hek⟩
      · exact ⟨e, .inr (.inr he), hek⟩
    · rintro ⟨e, he | rfl | he, hek⟩
      · exact ⟨e, .inl he, hek⟩
      · exact absurd hek.1.symm hk
      · exact ⟨e, .inr he, hek⟩

theorem Models.erase (hm : Models T f) (hs : Sorted T) (hT : T.inorder = xs ++ n :: ys) (ht : t.inorder = xs ++ ys) :
    Models t (Function.update f n.key none) := by
  rw [Sorted, hT, List.pairwise_append, List.pairwise_cons] at hs
  obtain ⟨-, ⟨hy, -⟩, hx⟩ := hs
  intro k v
  simp only [ht, List.mem_append]
  by_cases hk : k = n.key
  · subst hk
    rw [Function.update_self]
    constructor
    · intro hv
      cases hv
    · rintro ⟨e, he | he, hek, -⟩
      · exact absurd hek (hx e he n (List.mem_cons_self ..)).ne
      · exact absurd hek (hy e he).ne'
  · rw [Function.update_of_ne hk, hm, hT]
    simp only [List.mem_append, List.mem_cons]
    constructor
    · rintro ⟨e, he | rfl | he, hek⟩
      · exact ⟨e, .inl he, hek⟩
      · exact absurd hek.1.symm hk
      · exact ⟨e, .inr he, hek⟩
    · rintro ⟨e, he | he, hek⟩
      · exact ⟨e, .inl he, hek⟩
      · exact ⟨e, .inr (.inr he), hek⟩

theorem Sorted.insert (hs : Sorted T) (hT : T.inorder = xs ++ ys) (ht : t.inorder = xs ++ n :: ys)
    (hx : ∀ x ∈ xs, x.key < n.key) (hy : ∀ y ∈ ys, n.key < y.key) : Sorted t := by
  rw [Sorted, hT, List.pairwise_append] at hs
  rw [Sorted, ht, List.pairwise_append, List.pairwise_cons]
  refine ⟨hs.1, ⟨hy, hs.2.1⟩, fun x hxs y hys => ?_⟩
  rcases List.mem_cons.1 hys with rfl | hys
  · exact hx x hxs
  · exact hs.2.2 x hxs y hys

theorem Sorted.erase (hs : Sorted T) (hT : T.inorder = xs ++ n :: ys) (ht : t.inorder = xs ++ ys) : Sorted t := by
  rw [Sorted, hT] at hs
  rw [Sorted, ht]
  exact hs.sublist ((List.sublist_cons_self n ys).append_left xs)

/-! ### A key that is not in the tree -/

/-- The key belongs at an empty position. -/
theorem Between.absent (hT : T = plug c nil) (hb : Between key c) : ∀ x ∈ T.inorder, x.key ≠ key := by
  intro x hx
  rw [hT, inorder_plug, inorder_nil, List.append_nil, List.mem_append] at hx
  rcases hx with hx | hx
  · exact (hb.1 x hx).ne
  · exact (hb.2 x hx).ne'

theorem Ends.absent {q : AvlSearch} (hs : Sorted T) (he : Ends key T q c e l r) (hre : q.re ≠ 0) :
    ∀ x ∈ T.inorder, x.key ≠ key := by
  obtain ⟨-, hk, rfl⟩ | ⟨-, hk, rfl⟩ | ⟨h0, -⟩ := he.stop
  · exact (he.between.left hs he.tree hk).absent he.tree
  · exact (he.between.right hs he.tree hk).absent he.tree
  · exact absurd h0 hre

theorem Ends.key_eq {q : AvlSearch} (he : Ends key T q c e l r) (hre : q.re = 0) : key = e.key := by
  obtain ⟨h1, -⟩ | ⟨h1, -⟩ | ⟨-, h1⟩ := he.stop
  · omega
  · omega
  · exact h1

theorem getLoop_eq (hs : Sorted T) (ha : Agrees m key T) (hm : Models T f) (o : Owns h (cells T none none + g)) :
    ∀ (turns : ℕ) (c : List (Frame (AvlEntry K V))) (e : AvlEntry K V) (l r : BinaryTree (AvlEntry K V)),
      T = plug c (node e l r) → Between key c → (node e l r).height ≤ turns →
      getLoop m h key turns (some e.addr) = .ok (if (f key).isSome then .ok else .notFound, f key)
  | 0, _, e, l, r, _, _, hk => by simp at hk
  | turns + 1, c, e, l, r, hT, hb, hk => by
    simp only [height] at hk
    obtain ⟨hneg, hpos⟩ := ha e (mem_at hT)
    rw [getLoop, ok_then (read_at o hT)]
    set re := toShort (m.nodeCmp key e.key) with hre
    change (if re = 0 then Except.ok (Ret.ok, some e.value) else if re < 0 then if (link l (predOf c)).2 then _ else _
      else if (link r (succOf c)).2 then _ else _) = _
    by_cases h0 : re = 0
    · have hek : e.key = key :=
        le_antisymm (not_lt.1 fun hlt => (hneg.2 hlt).ne h0) (not_lt.1 fun hlt => (hpos.2 hlt).ne' h0)
      rw [if_pos h0, (hm key e.value).2 ⟨e, mem_at hT, hek, rfl⟩]
      rfl
    rw [if_neg h0]
    by_cases h1 : re < 0
    · rw [if_pos h1]
      have hb' := hb.left hs hT (hneg.1 h1)
      cases l with
      | nil =>
        rw [if_neg (by simp), hm.eq_none (hb'.absent hT)]
        rfl
      | node e' l' r' =>
        rw [link_node, if_pos rfl]
        refine getLoop_eq hs ha hm o turns _ e' l' r' hT hb' ?_
        omega
    · rw [if_neg h1]
      have hb' := hb.right hs hT (hpos.1 (by omega))
      cases r with
      | nil =>
        rw [if_neg (by simp), hm.eq_none (hb'.absent hT)]
        rfl
      | node e' l' r' =>
        rw [link_node, if_pos rfl]
        refine getLoop_eq hs ha hm o turns _ e' l' r' hT hb' ?_
        omega

end Search

end LibHpack.Avl
