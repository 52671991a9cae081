import LibHpack.Avl.Teardown

/-!
# LibHpack.Avl.Levels — a tree that is too high for its path

Every balanced tree grows from the empty one when its entries are added one level behind the other: no call rotates
anything on the way (`perform_place`), as long as `path` has room for the levels that are there.  The smallest tree with
more than `MAX_HEIGHT` levels is reached so, and a call that has to go down to its last level writes outside of `path`.
-/

namespace LibHpack.Avl

open BinaryTree Heap Run

section Levels

variable {K V : Type} {m : AvlMethods K} {s : AvlGeneric K V} {t T : BinaryTree (AvlEntry K V)} {f : K → Option V}

/-- The call that adds an entry. -/
def AvlEntry.addition (e : AvlEntry K V) : AvlCall K V := .add e.addr e.key e.value

variable [LinearOrder K]

/-- What a tree in memory has to be, whatever its height. -/
structure Buildable (m : AvlMethods K) (t : BinaryTree (AvlEntry K V)) : Prop where
  balanced : t.Balanced
  sorted : Sorted t
  distinct : (t.inorder.map AvlEntry.addr).Nodup
  nonempty : ∀ e ∈ t.inorder, m.nodeIsEmpty e.key = false

theorem Buildable.of_filling (ht : Buildable m t) {d : ℕ} (h : Filling d t T) : Buildable m T where
  balanced := h.balanced ht.balanced
  sorted := ht.sorted.sublist h.sublist
  distinct := ht.distinct.sublist (h.sublist.map _)
  nonempty e he := ht.nonempty e (h.sublist.subset he)

/-- **A new leaf**: where it keeps the tree balanced, it is all that changes. -/
theorem perform_place (hc : Compares m) (hk : Accounts s f T 0) {e : AvlEntry K V}
    (hb : Buildable m (place AvlEntry.key e T)) (hlow : T.height ≤ maxHeight) :
    e.addition.Allocates s ∧ ∃ s', e.addition.perform m maxHeight s = .ok (.ok, none, s') ∧
      Accounts s' (e.addition.change m f) (place AvlEntry.key e T) 0 := by
  have hperm : (place AvlEntry.key e T).inorder.Perm (e :: T.inorder) := perm_place e T
  have hempty : m.nodeIsEmpty e.key = false := hb.nonempty e (hperm.mem_iff.2 List.mem_cons_self)
  have hkeys : ((e :: T.inorder).map AvlEntry.key).Nodup :=
    ((hperm.map _).nodup_iff).1 ((List.pairwise_map.2 hb.sorted).imp ne_of_lt)
  have haddrs : ((e :: T.inorder).map AvlEntry.addr).Nodup := ((hperm.map _).nodup_iff).1 hb.distinct
  rw [List.map_cons, List.nodup_cons] at hkeys haddrs
  have hnone : f e.key = none := hk.models.eq_none fun x hx heq => hkeys.1 (heq ▸ List.mem_map_of_mem hx)
  have halloc : s.nodes e.addr = none := by
    by_contra hne
    obtain ⟨n, hn⟩ := Option.ne_none_iff_exists'.1 hne
    obtain ⟨x, hx, hxe, -⟩ := hk.entry_at hn
    exact haddrs.1 (hxe ▸ List.mem_map_of_mem hx)
  refine ⟨halloc, ?_⟩
  have hadd : Yields (Excused T maxHeight) _ _ := chulaAvlGenericAdd_yields (v := e.value) hk.sorted hk.balanced hk.models
    (hc.agrees T e.key) hk.holds halloc
  cases hp : chulaAvlGenericAdd m maxHeight (s.create e.addr e.key) (some e.addr) e.value with
  | error x =>
    rw [hp, yields_error, Excused] at hadd
    omega
  | ok p =>
    rw [hp, yields_ok, if_neg (by simp [hempty]), if_neg (by simp [hnone])] at hadd
    obtain ⟨hok, t', -, hold, hleaf, xs, ys, hT, ht, hx, hy⟩ := hadd
    obtain rfl := hleaf hb.balanced
    refine ⟨p.2, ?_, hold, hb.balanced, hb.sorted, ?_⟩
    · rw [AvlEntry.addition, AvlCall.perform, ok_then hp]
      rw [← hok]
    · have hchange : e.addition.change m f = Function.update f e.key (some e.value) := by
        simp [AvlEntry.addition, AvlCall.change, hempty, hnone]
      rw [hchange]
      exact hk.models.insert hT ht hx hy

theorem reaches_fills (hc : Compares m) {xs : List (AvlEntry K V)}
    (h : Fills AvlEntry.key (fun t => Buildable m t ∧ t.height ≤ maxHeight) T xs t) {calls : List (AvlCall K V)}
    (hr : Reaches m calls s) (hk : Accounts s (contents m calls) T 0) :
    ∃ s', Reaches m (calls ++ xs.map AvlEntry.addition) s' ∧
      Accounts s' (contents m (calls ++ xs.map AvlEntry.addition)) t 0 := by
  induction h generalizing calls s with
  | nil hP =>
    rw [List.map_nil, List.append_nil]
    exact ⟨s, hr, hk⟩
  | cons hP hrest ih =>
    obtain ⟨halloc, s₁, hp, hk₁⟩ := perform_place hc hk hrest.head.1 hP.2
    rw [← contents_concat] at hk₁
    rw [List.map_cons, List.append_cons]
    exact ih (hr.call halloc hp) hk₁

/-- **Level by level**: calls lead to the first levels of every balanced tree. -/
theorem reaches_levels (hc : Compares m) (ht : Buildable m t) {h : ℕ} (hle : h ≤ maxHeight) :
    ∃ s, Reaches m ((levels h t).map AvlEntry.addition) s ∧
      Accounts s (contents m ((levels h t).map AvlEntry.addition)) (trunc h t) 0 := by
  have hfills : Fills AvlEntry.key (fun t => Buildable m t ∧ t.height ≤ maxHeight) nil (levels h t) (trunc h t) := by
    refine fills_levels ht.sorted ⟨⟨trivial, .nil, .nil, nofun⟩, Nat.zero_le _⟩ fun d hd u hu => ⟨ht.of_filling hu, ?_⟩
    have hheight := hu.height
    omega
  exact reaches_fills hc hfills .init accounts_emptyTree

/-! ### Below the last level of the path -/

/-- A search does not come back from below the last level that `path` has room for. -/
theorem nodeSearch_overruns {h : AvlHeap K V} {g : Multiset (ℕ × AvlGenericNode K V)} {e : AvlEntry K V}
    {l r : BinaryTree (AvlEntry K V)} (hs : Sorted t) (ha : Agrees m e.key t) (o : Owns h (cells t none none + g)) :
    ∀ (turns : ℕ) (c' c : List (Frame (AvlEntry K V))) (x : AvlEntry K V) (a b : BinaryTree (AvlEntry K V))
      (path : AvlPath), t = plug c (node x a b) → node x a b = plug c' (node e l r) → c.length < maxHeight →
      maxHeight ≤ c'.length + c.length → ∀ q, nodeSearch m h e.key turns (some x.addr) path (c.length + 1) ≠ .ok q
  | 0, _, _, _, _, _, _, _, _, _, _, _ => by rw [nodeSearch]; simp
  | turns + 1, c', c, x, a, b, path, ht, hc', hlt, hge, q => by
    obtain ⟨hneg, hpos⟩ := ha x (mem_at ht)
    have hsub : Sorted (node x a b) := by
      rw [Sorted, ht, inorder_plug, List.append_assoc] at hs
      exact (List.pairwise_append.1 (List.pairwise_append.1 hs).2.1).1
    rw [Sorted, inorder_node, List.pairwise_append, List.pairwise_cons] at hsub
    obtain ⟨-, ⟨hb, -⟩, ha'⟩ := hsub
    rw [nodeSearch, ok_then (read_at o ht)]
    obtain rfl | ⟨c', f, rfl⟩ := List.eq_nil_or_concat' c'
    · simp at hge
      omega
    rw [plug_append] at hc'
    obtain ⟨y, u, v, hy⟩ := plug_node c' e l r
    have he : e ∈ (node y u v).inorder := mem_at hy.symm
    rw [hy] at hc'
    rw [List.length_append, List.length_singleton] at hge
    -- the next node on the way is one level closer to the entry
    have hnext : ∀ (f : Frame (AvlEntry K V)), t = plug (f :: c) (node y u v) →
        (pathSet path (c.length + 1) (some x.addr) >>= fun path =>
          nodeSearch m h e.key turns (some y.addr) path (c.length + 1 + 1)) ≠ .ok q := by
      intro f hf
      rw [pathSet]
      split_ifs with hroom
      · exact nodeSearch_overruns hs ha o turns c' (f :: c) y u v _ hf hy.symm hroom (by rw [List.length_cons]; omega) q
      · intro h
        cases h
    cases f with
    | left z s =>
      cases hc'
      have hre := hneg.2 (ha' e he x (List.mem_cons_self ..))
      simp only [cell, link_node]
      rw [if_pos ⟨hre, trivial⟩]
      exact hnext (.left x b) ht
    | right z s =>
      cases hc'
      have hre := hpos.2 (hb e he)
      simp only [cell, link_node]
      rw [if_neg (by omega), if_pos ⟨hre, trivial⟩]
      exact hnext (.right x a) ht

theorem del_overruns (hk : Keeps s f t) (hc : Compares m) {c : List (Frame (AvlEntry K V))} {e : AvlEntry K V}
    {l r : BinaryTree (AvlEntry K V)} (ht : t = plug c (node e l r)) (hlen : maxHeight ≤ c.length)
    (hempty : m.nodeIsEmpty e.key = false) (turns : ℕ) (p : Ret × Option V × AvlGeneric K V) :
    (AvlCall.del e.key).perform m turns s ≠ .ok p := by
  intro hp
  obtain ⟨y, u, v, hy⟩ := plug_node c e l r
  obtain ⟨⟨g, hroot, o⟩, -, hs, -⟩ := hk
  have hsearch := nodeSearch_overruns hs (hc.agrees t e.key) o turns c [] y u v pathStart (ht.trans hy) hy.symm
    (Nat.zero_lt_succ _) (by simpa using hlen)
  rw [ht, hy, link_node] at hroot
  simp only [AvlCall.perform, chulaAvlGenericDel, hempty, hroot] at hp
  cases hq : nodeSearch m s.nodes e.key turns (some y.addr) pathStart 1 with
  | ok q => exact hsearch q hq
  | error x =>
    rw [hq] at hp
    cases hp

end Levels

/-- The tree with the fewest nodes that is too high: 4807526975 numbers. -/
def tall : BinaryTree (AvlEntry ℕ ℕ) := minimal (fun x => ⟨x, x, x⟩) (maxHeight + 1) 0

def tallCalls : List (AvlCall ℕ ℕ) := (levels (maxHeight + 1) tall).map AvlEntry.addition

theorem buildable_tall : Buildable naturalOrder tall where
  balanced := balanced_minimal _ _ _
  sorted := by
    rw [Sorted, tall, inorder_minimal, List.pairwise_map]
    exact List.pairwise_lt_range'
  distinct := by
    rw [tall, inorder_minimal, List.map_map]
    exact (List.map_id' _).symm ▸ List.nodup_range'
  nonempty _ _ := rfl

example : tall.numNodes = 4807526975 := by
  rw [← length_inorder, tall, inorder_minimal, List.length_map, List.length_range']
  norm_num [maxHeight, Nat.fib_add_two]

/-- **The path overruns**: all calls that build the tree return, and the one that deletes its deepest key does not. -/
theorem avl_path_overrun : ∃ s, Reaches naturalOrder tallCalls s ∧
    ∀ turns, maxHeight < turns → (AvlCall.del 0).perform naturalOrder turns s = .error .path := by
  obtain ⟨s, hr, hk⟩ := reaches_levels compares_naturalOrder buildable_tall le_rfl
  have hlast : level maxHeight tall = [⟨0, 0, 0⟩] := level_minimal _ _ _
  have hfill : Fills AvlEntry.key (Filling maxHeight tall) (trunc maxHeight tall) (level maxHeight tall)
      (trunc (maxHeight + 1) tall) := fills_level buildable_tall.sorted maxHeight
  rw [hlast] at hfill
  have hheight : tall.height = maxHeight + 1 := height_minimal _ _ _
  have hplace : place AvlEntry.key ⟨0, 0, 0⟩ (trunc maxHeight tall) = tall := by
    rw [← hfill.singleton, trunc_of_height_le hheight.le]
  -- the last level has one node, so every call comes to a tree with room for it
  obtain ⟨halloc, s', hadd, hk'⟩ := perform_place compares_naturalOrder hk (hplace ▸ buildable_tall)
    (height_trunc_le maxHeight tall)
  have hrun : Reaches naturalOrder tallCalls s' := by
    rw [tallCalls, levels_succ, List.map_append, hlast]
    exact hr.call halloc hadd
  rw [hplace] at hk'
  have hkeeps := hk'.keeps
  obtain ⟨c, hc, hlen⟩ := exists_plug_minimal (fun x => (⟨x, x, x⟩ : AvlEntry ℕ ℕ)) maxHeight 0
  refine ⟨s', hrun, fun turns hturns => ?_⟩
  have hperf : Yields (Excused tall turns) ((AvlCall.del 0).perform naturalOrder turns s') _ :=
    call_performs hkeeps (compares_naturalOrder.agrees tall 0) trivial
  cases hp : (AvlCall.del 0).perform naturalOrder turns s' with
  | ok p => exact absurd hp (del_overruns hkeeps compares_naturalOrder hc hlen.ge rfl turns p)
  | error e =>
    rw [hp, yields_error, Excused, hheight] at hperf
    obtain ⟨rfl, -⟩ | ⟨-, hlt⟩ := hperf
    · rfl
    · omega

end LibHpack.Avl
