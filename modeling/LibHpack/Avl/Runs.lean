import LibHpack.Avl.Del
import LibHpack.Avl.Walk

/-!
# LibHpack.Avl.Runs — the invariant of a threaded AVL tree over runs

`Reaches m calls s`: the calls, each of which returned, have led from the empty tree to `s`.  `contents` is the map that
they stand for.  In every state that is reached the tree is the invariant's (`Keeps`), and a call in such a state
returns what the map says; the one exception is a tree with more than `MAX_HEIGHT` levels, where a call may write behind
the end of its array `path`.
-/

namespace LibHpack.Avl

open BinaryTree Heap Run

/-- A call that changes the tree; `add` comes with the address of the node that its caller has allocated. -/
inductive AvlCall (K V : Type)
  | add (child : ℕ) (key : K) (value : V)
  | del (key : K)

section Calls

variable {K V : Type}

def AvlCall.key : AvlCall K V → K
  | .add _ key _ => key
  | .del key => key

/-- A new node is not at the address of one that is still allocated. -/
def AvlCall.Allocates (s : AvlGeneric K V) : AvlCall K V → Prop
  | .add child _ _ => s.nodes child = none
  | .del _ => True

/-- The call: its code, `*value`, and the tree. -/
def AvlCall.perform (m : AvlMethods K) (turns : ℕ) (s : AvlGeneric K V) :
    AvlCall K V → Except AvlFault (Ret × Option V × AvlGeneric K V)
  | .add child key value => do
    let (ret, s) ← chulaAvlGenericAdd m turns (s.create child key) (some child) value
    .ok (ret, none, s)
  | .del key => chulaAvlGenericDel m turns s key

/-- The tree of `chula_avl_generic_init`. -/
def emptyTree : AvlGeneric K V := { root := none, nodes := fun _ => none }

/-- The trees that calls lead to. -/
inductive Reaches (m : AvlMethods K) : List (AvlCall K V) → AvlGeneric K V → Prop
  | init : Reaches m [] emptyTree
  | call {calls : List (AvlCall K V)} {s s' : AvlGeneric K V} {c : AvlCall K V} {turns : ℕ} {ret : Ret} {value : Option V} :
      Reaches m calls s → c.Allocates s → c.perform m turns s = .ok (ret, value, s') → Reaches m (calls ++ [c]) s'

instance (s : AvlGeneric K V) : (c : AvlCall K V) → Decidable (c.Allocates s)
  | .add child _ _ => inferInstanceAs (Decidable (s.nodes child = none))
  | .del _ => inferInstanceAs (Decidable True)

/-- The tree after some more calls, as long as every one returns. -/
def performAll (m : AvlMethods K) (turns : ℕ) : List (AvlCall K V) → AvlGeneric K V → Option (AvlGeneric K V)
  | [], s => some s
  | c :: calls, s =>
    if c.Allocates s then
      match c.perform m turns s with
      | .ok (_, _, s') => performAll m turns calls s'
      | .error _ => none
    else none

theorem Reaches.performAll {m : AvlMethods K} {turns : ℕ} {calls more : List (AvlCall K V)} {s s' : AvlGeneric K V}
    (h : Reaches m calls s) (hp : performAll m turns more s = some s') : Reaches m (calls ++ more) s' := by
  induction more generalizing calls s with
  | nil =>
    cases hp
    rwa [List.append_nil]
  | cons c more ih =>
    rw [Avl.performAll] at hp
    split_ifs at hp with halloc
    split at hp
    case h_1 ret value s₁ hc =>
      rw [List.append_cons]
      exact ih (h.call halloc hc) hp
    case h_2 => cases hp

/-- The node that a call leaves with no owner: it has an empty key, and `chula_avl_generic_add` returns before it looks at
the tree. -/
def AvlCall.stray (m : AvlMethods K) : AvlCall K V → Multiset (ℕ × AvlGenericNode K V)
  | .add child key _ => if m.nodeIsEmpty key then {(child, chulaAvlGenericNodeInit key)} else 0
  | .del _ => 0

theorem stray_eq_zero {m : AvlMethods K} {c : AvlCall K V} (h : m.nodeIsEmpty c.key = false) : c.stray m = 0 := by
  cases c with
  | add child key v => exact if_neg (ne_true_of_eq_false h)
  | del key => rfl

def strays (m : AvlMethods K) (calls : List (AvlCall K V)) : Multiset (ℕ × AvlGenericNode K V) :=
  (calls.map (AvlCall.stray m)).sum

theorem strays_concat (m : AvlMethods K) (calls : List (AvlCall K V)) (c : AvlCall K V) :
    strays m (calls ++ [c]) = c.stray m + strays m calls := by
  rw [strays, List.map_append, List.sum_append, List.map_singleton, List.sum_singleton, add_comm]
  rfl

variable [DecidableEq K]

/-- What a call makes of the map. -/
def AvlCall.change (m : AvlMethods K) (f : K → Option V) : AvlCall K V → K → Option V
  | .add _ key value => if m.nodeIsEmpty key ∨ (f key).isSome then f else Function.update f key (some value)
  | .del key => if m.nodeIsEmpty key then f else Function.update f key none

/-- A call changes the map at its key only. -/
theorem change_of_ne (m : AvlMethods K) (f : K → Option V) {c : AvlCall K V} {k : K} (hk : k ≠ c.key) :
    c.change m f k = f k := by
  cases c with
  | add child key value =>
    simp only [AvlCall.change]
    split_ifs
    · rfl
    · exact Function.update_of_ne hk _ _
  | del key =>
    simp only [AvlCall.change]
    split_ifs
    · rfl
    · exact Function.update_of_ne hk _ _

/-- The code that a call returns. -/
def AvlCall.answer (m : AvlMethods K) (f : K → Option V) : AvlCall K V → Ret
  | .add _ key _ => if m.nodeIsEmpty key ∨ (f key).isSome then .error else .ok
  | .del key => if m.nodeIsEmpty key then .error else if (f key).isSome then .ok else .notFound

/-- The map after some calls: the keys that were added and not deleted since, with their values. -/
def contents (m : AvlMethods K) (calls : List (AvlCall K V)) : K → Option V :=
  calls.foldl (fun f c => c.change m f) fun _ => none

theorem contents_concat (m : AvlMethods K) (calls : List (AvlCall K V)) (c : AvlCall K V) :
    contents m (calls ++ [c]) = c.change m (contents m calls) := by
  rw [contents, List.foldl_append]
  rfl

theorem mem_of_contents {m : AvlMethods K} {calls : List (AvlCall K V)} {k : K} {v : V} (h : contents m calls k = some v) :
    k ∈ calls.map AvlCall.key := by
  induction calls using List.reverseRecOn with
  | nil => cases h
  | append_singleton calls c ih =>
    rw [List.map_append, List.mem_append]
    by_cases hk : k = c.key
    · exact .inr (by simp [hk])
    · rw [contents_concat, change_of_ne _ _ hk] at h
      exact .inl (ih h)

end Calls

/-! ### The invariant -/

section Invariant

variable {K V : Type} [LinearOrder K] {m : AvlMethods K} {s : AvlGeneric K V} {t : BinaryTree (AvlEntry K V)}
  {f : K → Option V} {g : Multiset (ℕ × AvlGenericNode K V)}

/-- The tree `t` is in memory, beside nodes that their callers still have, balanced and sorted, and holds the map `f`. -/
structure Keeps (s : AvlGeneric K V) (f : K → Option V) (t : BinaryTree (AvlEntry K V)) : Prop where
  holds : ∃ g, InMemory s t g
  balanced : t.Balanced
  sorted : Sorted t
  models : Models t f

/-- The invariant, with every node in memory accounted for. -/
structure Accounts (s : AvlGeneric K V) (f : K → Option V) (t : BinaryTree (AvlEntry K V))
    (g : Multiset (ℕ × AvlGenericNode K V)) : Prop where
  holds : InMemory s t g
  balanced : t.Balanced
  sorted : Sorted t
  models : Models t f

theorem accounts_emptyTree : Accounts (emptyTree : AvlGeneric K V) (fun _ => none) nil 0 where
  holds := ⟨rfl, owns_empty⟩
  balanced := trivial
  sorted := List.Pairwise.nil
  models k v := by simp

theorem Accounts.keeps (hk : Accounts s f t g) : Keeps s f t := ⟨⟨g, hk.holds⟩, hk.balanced, hk.sorted, hk.models⟩

/-- What a call in a state of the invariant does. -/
structure Performs (m : AvlMethods K) (s : AvlGeneric K V) (f : K → Option V) (c : AvlCall K V)
    (p : Ret × Option V × AvlGeneric K V) : Prop where
  answer : p.1 = c.answer m f
  value : ∀ key, c = .del key → p.1 = .ok → p.2.1 = f key
  keeps : ∃ t, Keeps p.2.2 (c.change m f) t
  same : p.1 ≠ .ok → m.nodeIsEmpty c.key = false → p.2.2 = s

theorem Accounts.performs {c : AvlCall K V} {p : Ret × Option V × AvlGeneric K V}
    (hk : Accounts p.2.2 (c.change m f) t (c.stray m + g)) (hanswer : p.1 = c.answer m f)
    (hvalue : ∀ key, c = .del key → p.1 = .ok → p.2.1 = f key)
    (hsame : p.1 ≠ .ok → m.nodeIsEmpty c.key = false → p.2.2 = s) :
    Performs m s f c p ∧ ∃ t, Accounts p.2.2 (c.change m f) t (c.stray m + g) :=
  ⟨⟨hanswer, hvalue, ⟨t, hk.keeps⟩, hsame⟩, t, hk⟩

theorem add_accounts {turns child : ℕ} {key : K} {v : V} (hk : Accounts s f t g) (ha : Agrees m key t)
    (hfree : s.nodes child = none) :
    Yields (Excused t turns) ((AvlCall.add child key v).perform m turns s) fun p =>
      Performs m s f (.add child key v) p ∧ ∃ t', Accounts p.2.2 ((AvlCall.add child key v).change m f) t'
        ((AvlCall.add child key v).stray m + g) := by
  obtain ⟨hold, hbal, hs, hm⟩ := hk
  refine Yields.bind (chulaAvlGenericAdd_yields (v := v) hs hbal hm ha hold hfree) fun p hp => ?_
  obtain ⟨ret, s'⟩ := p
  by_cases hempty : m.nodeIsEmpty key = true
  · rw [if_pos hempty] at hp
    cases hp
    refine Accounts.performs (t := t) ⟨⟨hold.root, ?_⟩, hbal, hs, ?_⟩ (by simp [AvlCall.answer, hempty]) nofun fun _ h => ?_
    · rw [AvlCall.stray, if_pos hempty, add_left_comm]
      exact hold.owns.alloc hfree (chulaAvlGenericNodeInit key)
    · simpa [AvlCall.change, hempty] using hm
    · simp [AvlCall.key, hempty] at h
  rw [if_neg hempty] at hp
  have hstray : (AvlCall.add child key v).stray m + g = g := by simp [AvlCall.stray, hempty]
  by_cases hf : (f key).isSome = true
  · rw [if_pos hf] at hp
    cases hp
    refine Accounts.performs (t := t) ⟨by rwa [hstray], hbal, hs, ?_⟩ (by simp [AvlCall.answer, hf]) nofun fun _ _ => rfl
    simpa [AvlCall.change, hf] using hm
  · rw [if_neg hf] at hp
    obtain ⟨hok, t', hbal', hold', -, xs, ys, hT, ht, hx, hy⟩ := hp
    simp only at hok
    subst hok
    refine Accounts.performs (t := t') ⟨by rwa [hstray], hbal', hs.insert hT ht hx hy, ?_⟩
      (by simp [AvlCall.answer, hf, hempty]) nofun fun h => absurd rfl h
    simpa [AvlCall.change, hf, hempty] using hm.insert hT ht hx hy

theorem del_accounts {turns : ℕ} {key : K} (hk : Accounts s f t g) (ha : Agrees m key t) :
    Yields (Excused t turns) ((AvlCall.del key).perform m turns s) fun p =>
      Performs m s f (.del key) p ∧ ∃ t', Accounts p.2.2 ((AvlCall.del key).change m f) t'
        ((AvlCall.del key).stray m + g) := by
  obtain ⟨hold, hbal, hs, hm⟩ := hk
  refine (chulaAvlGenericDel_yields hs hbal hm ha hold).mono fun p hp => ?_
  obtain ⟨ret, value, s'⟩ := p
  have hstray : (AvlCall.del key : AvlCall K V).stray m + g = g := zero_add g
  by_cases hempty : m.nodeIsEmpty key = true
  · rw [if_pos hempty] at hp
    cases hp
    refine Accounts.performs (t := t) ⟨by rwa [hstray], hbal, hs, ?_⟩ (by simp [AvlCall.answer, hempty])
      (fun k hk h => absurd h (by simp)) fun _ _ => rfl
    simpa [AvlCall.change, hempty] using hm
  rw [if_neg hempty] at hp
  by_cases hf : (f key).isSome = true
  · rw [if_pos hf] at hp
    obtain ⟨hok, hv, e, t', rfl, hbal', hold', xs, ys, hT, ht⟩ := hp
    simp only at hok hv
    subst hok hv
    refine Accounts.performs (t := t') ⟨by rwa [hstray], hbal', hs.erase hT ht, ?_⟩ (by simp [AvlCall.answer, hf, hempty])
      (fun k hk _ => by cases hk; rfl) fun h => absurd rfl h
    simpa [AvlCall.change, hempty] using hm.erase hs hT ht
  · rw [if_neg hf] at hp
    cases hp
    refine Accounts.performs (t := t) ⟨by rwa [hstray], hbal, hs, ?_⟩ (by simp [AvlCall.answer, hf, hempty])
      (fun k hk h => absurd h (by simp)) fun _ _ => rfl
    have hnone : f key = none := by simpa using hf
    have hsame : Function.update f key none = f := by rw [← hnone, Function.update_eq_self]
    simpa [AvlCall.change, hempty, hsame] using hm

/-- **One call**: it does what the map says, unless the tree is too high for its path, and the only node that gets lost is
the one of a refused empty key. -/
theorem call_accounts {turns : ℕ} {c : AvlCall K V} (hk : Accounts s f t g) (ha : Agrees m c.key t)
    (halloc : c.Allocates s) :
    Yields (Excused t turns) (c.perform m turns s) fun p =>
      Performs m s f c p ∧ ∃ t', Accounts p.2.2 (c.change m f) t' (c.stray m + g) := by
  cases c with
  | add child key v => exact add_accounts hk ha halloc
  | del key => exact del_accounts hk ha

theorem call_performs {turns : ℕ} {c : AvlCall K V} (hk : Keeps s f t) (ha : Agrees m c.key t)
    (halloc : c.Allocates s) :
    Yields (Excused t turns) (c.perform m turns s) (Performs m s f c) := by
  obtain ⟨⟨g, hold⟩, hbal, hs, hm⟩ := hk
  exact (call_accounts ⟨hold, hbal, hs, hm⟩ ha halloc).mono fun p hp => hp.1

/-- `node_cmp` is the comparison of the order, and its results fit in a `short`. -/
structure Compares (m : AvlMethods K) : Prop where
  lt : ∀ x y, m.nodeCmp x y < 0 ↔ x < y
  gt : ∀ x y, 0 < m.nodeCmp x y ↔ y < x
  short : ∀ x y, -2 ^ 15 ≤ m.nodeCmp x y ∧ m.nodeCmp x y < 2 ^ 15

theorem Compares.agrees (hc : Compares m) (t : BinaryTree (AvlEntry K V)) (key : K) : Agrees m key t := by
  intro e _
  obtain ⟨h1, h2⟩ := hc.short key e.key
  have hshort : toShort (m.nodeCmp key e.key) = m.nodeCmp key e.key := by
    rw [toShort]
    exact Int.bmod_eq_of_le (by omega) (by omega)
  rw [hshort]
  exact ⟨hc.lt _ _, hc.gt _ _⟩

theorem reaches_accounts (hc : Compares m) {calls : List (AvlCall K V)} (h : Reaches m calls s) :
    ∃ t, Accounts s (contents m calls) t (strays m calls) := by
  induction h with
  | init => exact ⟨nil, accounts_emptyTree⟩
  | @call calls s s' c turns ret value hr halloc hp ih =>
    obtain ⟨t, hk⟩ := ih
    have hstep : Yields (Excused t turns) (c.perform m turns s) _ := call_accounts hk (hc.agrees t c.key) halloc
    rw [hp, yields_ok] at hstep
    rw [contents_concat, strays_concat]
    exact hstep.2

/-- The nodes in memory are those of a threaded AVL tree: the keys increase from left to right, and the node at every
position has the difference of the heights of its children, at most one, as its balance, and two links that lead to its
children or else, as threads, to the entries next to it. -/
structure ThreadedAvl (s : AvlGeneric K V) (t : BinaryTree (AvlEntry K V)) : Prop where
  root : s.root = (link t none).1
  distinct : (t.inorder.map AvlEntry.addr).Nodup
  sorted : t.inorder.Pairwise fun x y => x.key < y.key
  nodes : ∀ c e l r, t = plug c (node e l r) → s.nodes e.addr = some
    { balance := r.height - l.height
      left := (link l ((before c).getLast?.map AvlEntry.addr)).1
      leftChild := (link l ((before c).getLast?.map AvlEntry.addr)).2
      right := (link r ((after c).head?.map AvlEntry.addr)).1
      rightChild := (link r ((after c).head?.map AvlEntry.addr)).2
      value := some e.value
      key := e.key }
  balance : ∀ c e l r, t = plug c (node e l r) → -1 ≤ (r.height - l.height : ℤ) ∧ (r.height - l.height : ℤ) ≤ 1

omit [LinearOrder K] in
/-- A position in a tree that is in memory, read from the heap. -/
theorem InMemory.node_at {g : Multiset (ℕ × AvlGenericNode K V)} (hold : InMemory s t g) {c : List (Frame (AvlEntry K V))}
    {e : AvlEntry K V} {l r : BinaryTree (AvlEntry K V)} (ht : t = plug c (node e l r)) :
    s.nodes e.addr = some (cell e (r.height - l.height) (link l ((before c).getLast?.map AvlEntry.addr))
      (link r ((after c).head?.map AvlEntry.addr))).2 := by
  have o := hold.owns
  rw [ht, cells_plug, add_assoc, cells_at_root, predOf_eq, succOf_eq] at o
  exact o.get (by simp [cell])

/-- A node in memory is that of an entry, when no other is left. -/
theorem Accounts.entry_at {a : ℕ} {n : AvlGenericNode K V} (hk : Accounts s f t 0) (ha : s.nodes a = some n) :
    ∃ e ∈ t.inorder, e.addr = a ∧ e.key = n.key := by
  have hmem := hk.holds.owns.only a (by rw [ha]; exact Option.some_ne_none n)
  rw [add_zero, map_fst_cells, Multiset.mem_coe, List.mem_map] at hmem
  obtain ⟨e, he, rfl⟩ := hmem
  obtain ⟨c, l, r, ht⟩ := exists_plug_of_mem he
  refine ⟨e, he, rfl, ?_⟩
  rw [hk.holds.node_at ht] at ha
  exact congrArg AvlGenericNode.key (Option.some.inj ha)

theorem Keeps.threaded (hk : Keeps s f t) : ThreadedAvl s t := by
  obtain ⟨⟨g, hold⟩, hbal, hs, -⟩ := hk
  refine ⟨hold.root, ?_, hs, fun c e l r ht => hold.node_at ht, fun c e l r ht => ?_⟩
  · have hn := hold.owns.nodup
    rw [Multiset.map_add, map_fst_cells] at hn
    exact Multiset.coe_nodup.1 (Multiset.nodup_of_le (Multiset.le_add_right _ _) hn)
  · obtain ⟨⟨⟨h1, h2⟩, -, -⟩, -⟩ := (balanced_plug c (node e l r)).1 (ht ▸ hbal)
    omega

/-- The tree has at most one node for each call. -/
theorem numNodes_le_calls {calls : List (AvlCall K V)} (hs : Sorted t) (hm : Models t (contents m calls)) :
    t.numNodes ≤ calls.length := by
  have hnodup : (t.inorder.map AvlEntry.key).Nodup := (List.pairwise_map.2 hs).imp ne_of_lt
  have hsub : t.inorder.map AvlEntry.key ⊆ calls.map AvlCall.key := by
    intro k hkt
    obtain ⟨e, he, rfl⟩ := List.mem_map.1 hkt
    exact mem_of_contents ((hm _ _).2 ⟨e, he, rfl, rfl⟩)
  have hle := (hnodup.subperm hsub).length_le
  rwa [List.length_map, List.length_map, length_inorder] at hle

theorem ThreadedAvl.balanced (ht : ThreadedAvl s t) : t.Balanced :=
  balanced_of_plug fun c e l r hc => by
    have h := ht.balance c e l r hc
    omega

/-- A tree with fewer than 4807526975 nodes is not too high for the path. -/
theorem ThreadedAvl.height_le (ht : ThreadedAvl s t) (hn : t.numNodes + 1 < 4807526976) : t.height ≤ maxHeight := by
  have hfib : Nat.fib (maxHeight + 3) = 4807526976 := by norm_num [maxHeight, Nat.fib_add_two]
  by_contra hlt
  have h1 := ht.balanced.fib_le
  have h2 : Nat.fib (maxHeight + 3) ≤ Nat.fib (t.height + 2) := Nat.fib_mono (by omega)
  omega

/-- **Runs.**  After every sequence of calls that returned, a threaded AVL tree is in memory with the keys that were added
and not deleted since, and `chula_avl_generic_while` walks through it from left to right.  As long as it has at most
`MAX_HEIGHT` levels, as every tree of fewer than 4807526975 nodes does, every further call returns, with what the map
says, and without a change where a key is added again or a missing one deleted. -/
theorem avl_runs (hc : Compares m) {calls : List (AvlCall K V)} (h : Reaches m calls s) :
    ∃ t, ThreadedAvl s t ∧ Models t (contents m calls) ∧
      (∀ (σ : Type) (turns : ℕ) (func : K → Option V → σ → Ret × σ) (param : σ), t.numNodes < turns →
        chulaAvlGenericWhile turns s func param =
          visit func t.inorder (fun w => .ok { w with ret := .ok }) ⟨.ok, param, none, none⟩) ∧
      (t.height ≤ maxHeight → ∀ (c : AvlCall K V) (turns : ℕ), c.Allocates s → t.height ≤ turns →
        ∃ ret value s', c.perform m turns s = .ok (ret, value, s') ∧ Reaches m (calls ++ [c]) s' ∧
          ret = c.answer m (contents m calls) ∧
          (∀ key, c = .del key → ret = .ok → value = contents m calls key) ∧
          (ret ≠ .ok → m.nodeIsEmpty c.key = false → s' = s)) ∧
      (t.numNodes + 1 < 4807526976 → t.height ≤ maxHeight) := by
  obtain ⟨t, hk⟩ := reaches_accounts hc h
  replace hk := hk.keeps
  refine ⟨t, hk.threaded, hk.models, ?_, ?_, hk.threaded.height_le⟩
  · intro σ turns func param hturns
    obtain ⟨g, hold⟩ := hk.holds
    exact chulaAvlGenericWhile_eq hold hturns func param
  · intro hheight c turns halloc hturns
    have hperf : Yields (Excused t turns) (c.perform m turns s) _ := call_performs hk (hc.agrees t c.key) halloc
    cases hp : c.perform m turns s with
    | error e =>
      rw [hp, yields_error, Excused] at hperf
      omega
    | ok p =>
      rw [hp, yields_ok] at hperf
      exact ⟨p.1, p.2.1, p.2.2, rfl, h.call halloc hp, hperf.answer, hperf.value, hperf.same⟩

end Invariant

/-! ### Numbers as keys -/

/-- The keys are numbers, and none is empty. -/
def naturalOrder : AvlMethods ℕ := { nodeCmp := fun x y => ((x : ℤ) - y).sign, nodeIsEmpty := fun _ => false }

theorem compares_naturalOrder : Compares naturalOrder where
  lt x y := by simp [naturalOrder, Int.sign_neg_iff]
  gt x y := by simp [naturalOrder, Int.sign_pos_iff]
  short x y := by
    have h := Int.sign_trichotomy ((x : ℤ) - y)
    simp only [naturalOrder]
    omega

/-- The third key rotates the tree, the fourth is there already, and of the two that are deleted one is not there. -/
def rotatedCalls : List (AvlCall ℕ ℕ) :=
  [.add 0 1 10, .add 1 2 20, .add 2 3 30, .add 3 2 40, .del 1, .del 9]

theorem contents_rotatedCalls :
    contents naturalOrder rotatedCalls = fun k => if k = 2 then some 20 else if k = 3 then some 30 else none := by
  have hcont : contents naturalOrder rotatedCalls = Function.update (Function.update (Function.update (Function.update
      (Function.update (fun _ => none) 1 (some 10)) 2 (some 20)) 3 (some 30)) 1 none) 9 none := rfl
  funext k
  rw [hcont]
  simp only [Function.update_apply]
  split_ifs <;> first | rfl | omega

theorem avl_runs_rotated : ∃ (s : AvlGeneric ℕ ℕ) (t : BinaryTree (AvlEntry ℕ ℕ)),
    Reaches naturalOrder rotatedCalls s ∧ ThreadedAvl s t ∧ Models t (contents naturalOrder rotatedCalls) ∧
      contents naturalOrder rotatedCalls 2 = some 20 ∧
      ∃ s', (AvlCall.del 3).perform naturalOrder maxHeight s = .ok (.ok, some 30, s') := by
  obtain ⟨s, hs⟩ : ∃ s, performAll naturalOrder 9 rotatedCalls emptyTree = some s := Option.isSome_iff_exists.1 (by decide)
  have h : Reaches naturalOrder rotatedCalls s := Reaches.init.performAll hs
  obtain ⟨t, ht, hm, -, hcall, hlow⟩ := avl_runs compares_naturalOrder h
  have hn : t.numNodes ≤ 6 := numNodes_le_calls ht.sorted hm
  replace hlow := hlow (by omega)
  refine ⟨s, t, h, ht, hm, rfl, ?_⟩
  obtain ⟨ret, value, s', hp, -, rfl, hvalue, -⟩ := hcall hlow (.del 3) maxHeight trivial hlow
  exact ⟨s', by rw [hp, hvalue 3 rfl rfl]; rfl⟩

end LibHpack.Avl
