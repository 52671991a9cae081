import LibHpack.Avl.Runs

/-!
# LibHpack.Avl.Teardown — the length of a tree, and what is left of it

`chula_avl_mrproper` frees the nodes from left to right, and reads the next one before it frees a node.  The threads of
the nodes that are left may lead to nodes that are gone, but they are not followed any more.  So in every run each node of
the tree is freed once, and what is left are the nodes of the adds that were refused for their empty key.
-/

namespace LibHpack.Avl

open BinaryTree Heap Run

section Model

variable {K V σ : Type}

/-- `func_len_each`: `*param` is a `size_t`. -/
def funcLenEach (_ : K) (_ : Option V) (param : ℕ) : Ret × ℕ := (.ok, (param + 1) % 2 ^ 64)

/-- `chula_avl_len`: the code and `*len`. -/
def chulaAvlLen (turns : ℕ) (t : AvlGeneric K V) : Except AvlFault (Ret × ℕ) := do
  let w ← chulaAvlGenericWhile turns t funcLenEach 0
  .ok (w.ret, w.param)

/-- The loop of `chula_avl_mrproper`, with the effect of `free_func` on what the caller's values are part of. -/
def mrproperLoop (freeFunc : Option (Option V → σ → σ)) (turns : ℕ) :
    ℕ → Option ℕ → AvlHeap K V → σ → Except AvlFault (AvlHeap K V × σ)
  | _, none, h, x => .ok (h, x)
  | 0, some _, _, _ => .error .hang
  | k + 1, some p, h, x => do
    let next ← nodeNext turns h (some p)
    let n ← readNode h (some p)
    let x := match freeFunc with
      | some f => f n.value x
      | none => x
    let h ← nodeFree h (some p)
    mrproperLoop freeFunc turns k next h x

/-- `chula_avl_mrproper`: the nodes that are left, and what became of the values.  The root stays as it is. -/
def chulaAvlMrproper (turns : ℕ) (t : AvlGeneric K V) (freeFunc : Option (Option V → σ → σ)) (x : σ) :
    Except AvlFault (AvlGeneric K V × σ) := do
  let node ← nodeFirst turns t
  let (h, x) ← mrproperLoop freeFunc turns turns node t.nodes x
  .ok ({ t with nodes := h }, x)

/-- `chula_avl_is_empty`. -/
def chulaAvlIsEmpty (t : AvlGeneric K V) : Bool := t.root.isNone

end Model

/-! ### One tree -/

section Tree

variable {K V σ : Type} {h : AvlHeap K V} {s : AvlGeneric K V} {t : BinaryTree (AvlEntry K V)}
  {g : Multiset (ℕ × AvlGenericNode K V)} {turns : ℕ}

/-- What becomes of the values of some entries. -/
def freeValues (freeFunc : Option (Option V → σ → σ)) (vs : List V) (x : σ) : σ :=
  match freeFunc with
  | some f => vs.foldl (fun x v => f (some v) x) x
  | none => x

theorem freeValues_append (freeFunc : Option (Option V → σ → σ)) (vs ws : List V) (x : σ) :
    freeValues freeFunc (vs ++ ws) x = freeValues freeFunc ws (freeValues freeFunc vs x) := by
  cases freeFunc with
  | none => rfl
  | some f => exact List.foldl_append

theorem mrproperLoop_none (freeFunc : Option (Option V → σ → σ)) (k : ℕ) (h : AvlHeap K V) (x : σ) :
    mrproperLoop freeFunc turns k none h x = .ok (h, x) := by
  cases k <;> rfl

/-- **The loop** frees a tree: from its first node it gets to what stands behind it, and nothing else is changed. -/
theorem mrproperLoop_eq (turns : ℕ) (freeFunc : Option (Option V → σ → σ)) : ∀ (t : BinaryTree (AvlEntry K V)) (h : AvlHeap K V)
    (pred succ : Option ℕ) (g : Multiset (ℕ × AvlGenericNode K V)) (k : ℕ) (x : σ), t.height ≤ turns →
    Owns h (cells t pred succ + g) → ∃ h', Owns h' g ∧
      mrproperLoop freeFunc turns (t.numNodes + k) (firstOf t succ) h x =
        mrproperLoop freeFunc turns k succ h' (freeValues freeFunc (t.inorder.map AvlEntry.value) x)
  | nil, h, _, _, g, k, x, _, o => by
    refine ⟨h, by simpa [cells] using o, ?_⟩
    rw [numNodes, zero_add]
    cases freeFunc <;> rfl
  | node e l r, h, pred, succ, g, k, x, hk, o => by
    simp only [height] at hk
    -- first the left subtree
    rw [cells_at_left] at o
    obtain ⟨h₁, o₁, hleft⟩ := mrproperLoop_eq turns freeFunc l h pred (some e.addr) _ (r.numNodes + k + 1) x (by omega) o
    -- the node itself, whose left link is not read
    have hnext : nodeNext turns h₁ (some e.addr) = .ok (firstOf r succ) := by
      rw [nodeNext, ok_then (readNode_cell o₁)]
      rcases r with _ | ⟨d, m, n⟩
      · rfl
      · have o₂ := o₁
        rw [add_left_comm] at o₂
        simp only [height] at hk
        exact leftmost_eq turns d m n _ _ _ (by simp only [height]; omega) o₂
    have hget : h₁ e.addr = some _ := o₁.get (Multiset.mem_add.2 (.inl (Multiset.mem_singleton_self _)))
    have hfree : nodeFree h₁ (some e.addr) = .ok (Function.update h₁ e.addr none) := by
      rw [nodeFree, Heap.free, hget]
    have o₃ : Owns (Function.update h₁ e.addr none) (cells r (some e.addr) succ + g) := by
      have hy : Yields (fun _ => False) (nodeFree h₁ (some e.addr)) _ := o₁.free _
      rwa [hfree, yields_ok] at hy
    have hnode : ∀ x, mrproperLoop freeFunc turns (r.numNodes + k + 1) (some e.addr) h₁ x =
        mrproperLoop freeFunc turns (r.numNodes + k) (firstOf r succ) (Function.update h₁ e.addr none)
          (freeValues freeFunc [e.value] x) := fun x => by
      rw [mrproperLoop, ok_then hnext, ok_then (readNode_cell o₁)]
      dsimp only
      rw [ok_then hfree]
      cases freeFunc <;> rfl
    -- then the right one
    obtain ⟨h₂, o₄, hright⟩ := mrproperLoop_eq turns freeFunc r _ (some e.addr) succ g k
      (freeValues freeFunc [e.value] (freeValues freeFunc (l.inorder.map AvlEntry.value) x)) (by omega) o₃
    refine ⟨h₂, o₄, ?_⟩
    rw [numNodes, show l.numNodes + r.numNodes + 1 + k = l.numNodes + (r.numNodes + k + 1) by omega, firstOf, hleft, hnode,
      hright, ← freeValues_append, ← freeValues_append, inorder_node, List.map_append, List.map_cons]
    rfl

theorem chulaAvlMrproper_eq (hold : InMemory s t g) (hturns : t.numNodes < turns) (freeFunc : Option (Option V → σ → σ))
    (x : σ) : ∃ s', chulaAvlMrproper turns s freeFunc x =
      .ok (s', freeValues freeFunc (t.inorder.map AvlEntry.value) x) ∧ Owns s'.nodes g := by
  obtain ⟨root, nodes⟩ := s
  obtain ⟨hroot, o⟩ := hold
  simp only at hroot o
  subst hroot
  have hheight := height_le_numNodes t
  obtain ⟨k, hk⟩ : ∃ k, turns = t.numNodes + k := ⟨turns - t.numNodes, by omega⟩
  obtain ⟨h', o', hloop⟩ := mrproperLoop_eq turns freeFunc t nodes none none g k x (by omega) o
  have hfirst : nodeFirst turns (⟨(link t none).1, nodes⟩ : AvlGeneric K V) = .ok (firstOf t none) := by
    rcases t with _ | ⟨e, l, r⟩
    · rfl
    · exact leftmost_eq turns e l r none none g (by omega) o
  rw [← hk, mrproperLoop_none] at hloop
  refine ⟨⟨(link t none).1, h'⟩, ?_, o'⟩
  rw [chulaAvlMrproper, ok_then hfirst]
  dsimp only
  rw [ok_then hloop]

/-- A function that counts sees every entry. -/
theorem visit_len (es : List (AvlEntry K V)) (w : AvlWhile V ℕ) (hret : w.ret = .ok) :
    ∃ w', visit funcLenEach es (fun w => .ok { w with ret := .ok }) w = .ok w' ∧ w'.ret = .ok ∧
      w'.param % 2 ^ 64 = (w.param + es.length) % 2 ^ 64 ∧ (es = [] → w'.param = w.param) ∧
      (es ≠ [] → w'.param < 2 ^ 64) := by
  induction es generalizing w with
  | nil => exact ⟨{ w with ret := .ok }, rfl, rfl, rfl, fun _ => rfl, fun h => absurd rfl h⟩
  | cons e es ih =>
    obtain ⟨w', hw, hret', hparam, hnil, hcons⟩ := ih
      { ret := .ok, param := (w.param + 1) % 2 ^ 64, key := some e.addr, value := some e.value } rfl
    refine ⟨w', ?_, hret', ?_, fun h => absurd h (List.cons_ne_nil _ _), fun _ => ?_⟩
    · rw [visit]
      exact hw
    · rw [hparam, List.length_cons, Nat.mod_add_mod]
      congr 1
      omega
    · by_cases h : es = []
      · rw [hnil h]
        exact Nat.mod_lt _ (Nat.two_pow_pos 64)
      · exact hcons h

theorem chulaAvlLen_eq (hold : InMemory s t g) (hturns : t.numNodes < turns) :
    chulaAvlLen turns s = .ok (.ok, t.numNodes % 2 ^ 64) := by
  obtain ⟨w, hw, hret, hparam, hnil, hcons⟩ := visit_len t.inorder
    (⟨.ok, 0, none, none⟩ : AvlWhile V ℕ) rfl
  have hlt : w.param < 2 ^ 64 := by
    by_cases h : t.inorder = []
    · rw [hnil h]
      exact Nat.two_pow_pos 64
    · exact hcons h
  rw [chulaAvlLen, chulaAvlGenericWhile_eq hold hturns, ok_then hw, hret, ← Nat.mod_eq_of_lt hlt, hparam, length_inorder,
    Nat.zero_add]

end Tree

/-! ### Runs -/

section Runs

variable {K V : Type} {m : AvlMethods K} {s : AvlGeneric K V} {t : BinaryTree (AvlEntry K V)} {f : K → Option V}
  {g : Multiset (ℕ × AvlGenericNode K V)}

theorem mem_strays {calls : List (AvlCall K V)} {a : ℕ} :
    a ∈ (strays m calls).map Prod.fst ↔ ∃ key v, .add a key v ∈ calls ∧ m.nodeIsEmpty key = true := by
  induction calls with
  | nil => simp [strays]
  | cons c calls ih =>
    rw [strays, List.map_cons, List.sum_cons, Multiset.map_add, Multiset.mem_add]
    rw [show (List.map (AvlCall.stray m) calls).sum = strays m calls from rfl, ih]
    cases c with
    | add child key v =>
      constructor
      · rintro (h | ⟨k, w, hk, he⟩)
        · by_cases hempty : m.nodeIsEmpty key = true
          · rw [AvlCall.stray, if_pos hempty, Multiset.map_singleton, Multiset.mem_singleton] at h
            exact ⟨key, v, by rw [h]; exact List.mem_cons_self, hempty⟩
          · rw [AvlCall.stray, if_neg hempty] at h
            simp at h
        · exact ⟨k, w, List.mem_cons_of_mem _ hk, he⟩
      · rintro ⟨k, w, hk, he⟩
        obtain heq | hk := List.mem_cons.1 hk
        · cases heq
          left
          simp [AvlCall.stray, he]
        · exact .inr ⟨k, w, hk, he⟩
    | del key => simp [AvlCall.stray]

variable [LinearOrder K]

/-- **Teardown.**  After every sequence of calls the tree counts its entries modulo 2^64, and `chula_avl_mrproper` returns:
it has passed the value of each entry to `free_func` once, in the order of the keys, and has freed every node, those of
the adds that were refused for their empty key excepted. -/
theorem avl_teardown (hc : Compares m) {calls : List (AvlCall K V)} (h : Reaches m calls s) :
    ∃ (turns₀ : ℕ) (es : List (K × V)), (es.Pairwise fun x y => x.1 < y.1) ∧
      (∀ k v, (k, v) ∈ es ↔ contents m calls k = some v) ∧ (chulaAvlIsEmpty s = true ↔ es = []) ∧
      ∀ turns, turns₀ ≤ turns → chulaAvlLen turns s = .ok (.ok, es.length % 2 ^ 64) ∧
        ∀ (σ : Type) (freeFunc : Option (Option V → σ → σ)) (x : σ), ∃ s',
          chulaAvlMrproper turns s freeFunc x = .ok (s', freeValues freeFunc (es.map Prod.snd) x) ∧
            ∀ a, s'.nodes a ≠ none ↔ ∃ key v, .add a key v ∈ calls ∧ m.nodeIsEmpty key = true := by
  obtain ⟨t, hold, hbal, hs, hm⟩ := reaches_accounts hc h
  refine ⟨t.numNodes + 1, t.inorder.map fun e => (e.key, e.value), ?_, fun k v => ?_, ?_, fun turns hturns => ⟨?_, ?_⟩⟩
  · exact List.pairwise_map.2 hs
  · rw [hm k v, List.mem_map]
    simp only [Prod.mk.injEq]
  · rw [chulaAvlIsEmpty, hold.root]
    cases t <;> simp
  · rw [chulaAvlLen_eq hold (by omega), List.length_map, length_inorder]
  · intro σ freeFunc x
    obtain ⟨s', hs', o⟩ := chulaAvlMrproper_eq hold (Nat.lt_of_succ_le hturns) freeFunc x
    refine ⟨s', by rw [hs', List.map_map]; rfl, fun a => ?_⟩
    rw [← mem_strays]
    refine ⟨o.only a, fun ha => ?_⟩
    obtain ⟨p, hp, rfl⟩ := Multiset.mem_map.1 ha
    rw [o.holds p hp]
    exact Option.some_ne_none _

end Runs

/-- Behind a rotation, a refused key and two calls of `del`, the two values that are left are passed on. -/
theorem avl_teardown_rotated : ∃ (s s' : AvlGeneric ℕ ℕ) (turns : ℕ), Reaches naturalOrder rotatedCalls s ∧
    chulaAvlLen turns s = .ok (.ok, 2) ∧
    chulaAvlMrproper turns s (some fun v vs => vs ++ [v]) [] = .ok (s', [some 20, some 30]) ∧ ∀ a, s'.nodes a = none := by
  obtain ⟨s, hs⟩ : ∃ s, performAll naturalOrder 9 rotatedCalls emptyTree = some s := Option.isSome_iff_exists.1 (by decide)
  have h : Reaches naturalOrder rotatedCalls s := Reaches.init.performAll hs
  obtain ⟨turns, es, hsorted, hes, -, hrun⟩ := avl_teardown compares_naturalOrder h
  -- the list is that of the two entries of the map, as both are sorted
  have htwo : es = [(2, 20), (3, 30)] := by
    have hmem : ∀ p, p ∈ es ↔ p ∈ [((2 : ℕ), (20 : ℕ)), (3, 30)] := by
      rintro ⟨k, v⟩
      rw [hes, contents_rotatedCalls, List.mem_pair, Prod.mk.injEq, Prod.mk.injEq]
      constructor
      · intro h
        dsimp only at h
        split_ifs at h with h2 h3
        · cases h
          exact .inl ⟨h2, rfl⟩
        · cases h
          exact .inr ⟨h3, rfl⟩
      · rintro (⟨rfl, rfl⟩ | ⟨rfl, rfl⟩) <;> rfl
    have hnodup : es.Nodup := hsorted.imp fun hxy heq => absurd (heq ▸ hxy) (lt_irrefl _)
    have hperm := (List.perm_ext_iff_of_nodup hnodup (by decide)).2 hmem
    exact hperm.eq_of_pairwise (fun x y _ _ hxy hyx => absurd (hxy.trans hyx) (lt_irrefl _)) hsorted (by decide)
  obtain ⟨hlen, hfree⟩ := hrun turns le_rfl
  obtain ⟨s', hs', hleft⟩ := hfree _ (some fun v vs => vs ++ [v]) []
  refine ⟨s, s', turns, h, ?_, ?_, fun a => ?_⟩
  · rw [hlen, htwo]
    rfl
  · rw [hs', htwo]
    rfl
  · by_contra hne
    obtain ⟨key, v, -, hempty⟩ := (hleft a).1 hne
    cases hempty

end LibHpack.Avl
