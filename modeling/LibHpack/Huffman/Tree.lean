import LibHpack.General.Bits
import LibHpack.General.PrefixCode
import LibHpack.Huffman.Generator

/-!
# LibHpack.Huffman.Tree — the tree of the generator is the tree of the code

For a complete prefix-free code on the symbols 0 to 256 the node at the end of a path is there exactly when the path is
a prefix of a codeword, and it is the leaf of a symbol exactly when the path is its codeword (`Represents`).  The ids
count the inner nodes in the order of the rows, so the row of a node has its id as its index.
-/

namespace LibHpack

/-- A code for the octets and the end of the stream, which is 256. -/
abbrev HuffmanSource := PrefixCode (Fin 257)

/-- What the script parses from the specification of the code. -/
def HuffmanSource.data (c : HuffmanSource) : List HuffmanEntry :=
  (List.finRange 257).map fun s : Fin 257 => ⟨s, (c.bits s).length, c.bits s, bitsToNat (c.bits s)⟩

namespace BTree

/-- The node at the end of a path. -/
def find : BTree → List Bool → BTree
  | t, [] => t
  | t, b :: w => find (t.child b) w

variable {t : BTree} {w p : List Bool} {b : Bool} {n id : ℕ}

@[simp] theorem find_nil : t.find [] = t := rfl

@[simp] theorem find_cons : t.find (b :: w) = (t.child b).find w := rfl

theorem find_append (t : BTree) (w p : List Bool) : t.find (w ++ p) = (t.find w).find p := by
  induction w generalizing t with
  | nil => rfl
  | cons b w ih => exact ih (t.child b)

@[simp] theorem find_absent (w : List Bool) : absent.find w = absent := by
  induction w with
  | nil => rfl
  | cons b w ih => exact ih

theorem isLeaf_iff : t.isLeaf = true ↔ ∀ b, (t.child b).isPresent = false := by
  simp [isLeaf]

/-! ### Building -/

theorem child_build : (t.buildFromLeaf (b :: p) id).child b = (t.child b).buildFromLeaf p id := by
  cases b <;> rfl

theorem child_build_ne {b' : Bool} (h : b' ≠ b) : (t.buildFromLeaf (b :: p) id).child b' = t.child b' := by
  cases b <;> cases b' <;> first | rfl | exact absurd rfl h

/-- A path to a leaf makes the nodes on it. -/
theorem present_build (t : BTree) (p w : List Bool) (id : ℕ) :
    ((t.buildFromLeaf p id).find w).isPresent = true ↔ (t.find w).isPresent = true ∨ w <+: p := by
  induction p generalizing t w with
  | nil =>
    cases w with
    | nil => simp [buildFromLeaf, isPresent]
    | cons b w => cases b <;> simp [buildFromLeaf, child]
  | cons b' p ih =>
    cases w with
    | nil => cases b' <;> simp [buildFromLeaf, isPresent]
    | cons b w =>
      by_cases hb : b = b'
      · subst hb
        rw [find_cons, child_build, ih, find_cons, List.cons_prefix_cons]
        simp
      · rw [find_cons, child_build_ne hb, find_cons, List.cons_prefix_cons]
        simp [hb]

/-- It gives its end the id. -/
theorem nodeId_build (t : BTree) (p w : List Bool) (id : ℕ) :
    ((t.buildFromLeaf p id).find w).nodeId = if w = p then id else (t.find w).nodeId := by
  induction p generalizing t w with
  | nil =>
    cases w with
    | nil => rfl
    | cons b w => cases b <;> rfl
  | cons b' p ih =>
    cases w with
    | nil => cases b' <;> rfl
    | cons b w =>
      by_cases hb : b = b'
      · subst hb
        rw [find_cons, child_build, ih, find_cons]
        simp
      · rw [find_cons, child_build_ne hb, find_cons, if_neg (by simp [hb])]

/-- The tree of a list of entries. -/
def build (t : BTree) (data : List HuffmanEntry) : BTree := data.foldl (fun t d => t.buildFromLeaf d.msbBits d.symbN) t

theorem present_foldl (t : BTree) (data : List HuffmanEntry) (w : List Bool) :
    ((t.build data).find w).isPresent = true ↔ (t.find w).isPresent = true ∨ ∃ d ∈ data, w <+: d.msbBits := by
  induction data generalizing t with
  | nil => simp [build]
  | cons d data ih =>
    rw [build, List.foldl_cons, ← build, ih, present_build, or_assoc]
    simp

theorem nodeId_foldl_of_ne (t : BTree) (data : List HuffmanEntry) (w : List Bool) (h : ∀ d ∈ data, d.msbBits ≠ w) :
    ((t.build data).find w).nodeId = (t.find w).nodeId := by
  induction data generalizing t with
  | nil => rfl
  | cons d data ih =>
    rw [build, List.foldl_cons, ← build, ih _ fun d' hd' => h d' (List.mem_cons_of_mem d hd'), nodeId_build,
      if_neg (h d List.mem_cons_self).symm]

/-- A path that belongs to one symbol ends at it. -/
theorem nodeId_foldl (t : BTree) (data : List HuffmanEntry) (w : List Bool) (h : ∃ d ∈ data, d.msbBits = w)
    (hid : ∀ d ∈ data, d.msbBits = w → d.symbN = id) : ((t.build data).find w).nodeId = id := by
  induction data generalizing t with
  | nil => obtain ⟨d, hd, -⟩ := h; exact absurd hd List.not_mem_nil
  | cons d data ih =>
    by_cases hlater : ∃ d' ∈ data, d'.msbBits = w
    · exact ih _ hlater fun d' hd' => hid d' (List.mem_cons_of_mem d hd')
    · have hd : d.msbBits = w := by
        obtain ⟨d', hd', heq⟩ := h
        rcases List.mem_cons.mp hd' with rfl | hd'
        · exact heq
        · exact absurd ⟨d', hd', heq⟩ hlater
      rw [build, List.foldl_cons, ← build, nodeId_foldl_of_ne _ _ _ fun d' hd' heq => hlater ⟨d', hd', heq⟩,
        nodeId_build, if_pos hd.symm, hid d List.mem_cons_self hd]

/-! ### Numbering -/

theorem isPresent_assignIds (t : BTree) (n : ℕ) : (t.assignIds n).1.isPresent = t.isPresent := by
  cases t with
  | absent => rfl
  | node id zero one =>
    rw [assignIds]
    split_ifs <;> rfl

/-- The children of a numbered tree are numbered. -/
theorem child_assignIds (t : BTree) (n : ℕ) (b : Bool) : ∃ m, (t.assignIds n).1.child b = ((t.child b).assignIds m).1 := by
  cases t with
  | absent => exact ⟨0, rfl⟩
  | node id zero one =>
    rw [assignIds]
    split_ifs with hleaf
    · -- there are no children
      have hb := isLeaf_iff.mp hleaf b
      refine ⟨0, ?_⟩
      cases hc : (node id zero one).child b with
      | absent => rfl
      | node _ _ _ => rw [hc] at hb; exact absurd hb (by simp [isPresent])
    · cases b
      · exact ⟨n + 1, rfl⟩
      · exact ⟨(zero.assignIds (n + 1)).2, rfl⟩

theorem isLeaf_assignIds (t : BTree) (n : ℕ) : (t.assignIds n).1.isLeaf = t.isLeaf := by
  have hchild : ∀ b, ((t.assignIds n).1.child b).isPresent = (t.child b).isPresent := fun b => by
    obtain ⟨m, hm⟩ := child_assignIds t n b
    rw [hm, isPresent_assignIds]
  simp only [isLeaf, hchild]

theorem nodeId_assignIds_leaf (h : t.isLeaf = true) (n : ℕ) : (t.assignIds n).1.nodeId = t.nodeId := by
  cases t with
  | absent => rfl
  | node id zero one => rw [assignIds, if_pos h]

theorem nodeId_assignIds (hp : t.isPresent = true) (hl : ¬ t.isLeaf = true) (n : ℕ) : (t.assignIds n).1.nodeId = n := by
  cases t with
  | absent => exact absurd hp Bool.false_ne_true
  | node id zero one =>
    rw [assignIds, if_neg hl]
    rfl

/-- The nodes of a numbered tree are the numbered nodes. -/
theorem find_assignIds (t : BTree) (n : ℕ) (w : List Bool) :
    ∃ m, (t.assignIds n).1.find w = ((t.find w).assignIds m).1 := by
  induction w generalizing t n with
  | nil => exact ⟨n, rfl⟩
  | cons b w ih =>
    obtain ⟨m, hm⟩ := child_assignIds t n b
    rw [find_cons, hm]
    exact ih (t.child b) m

/-- **The ids are the places in the list of nodes.** -/
theorem getNodes_assignIds (t : BTree) (n : ℕ) :
    (t.assignIds n).1.getNodes.map nodeId = List.range' n t.getNodes.length ∧
      (t.assignIds n).2 = n + t.getNodes.length := by
  induction t generalizing n with
  | absent => exact ⟨rfl, rfl⟩
  | node id zero one ihz iho =>
    have hleaf := isLeaf_assignIds (node id zero one) n
    rw [assignIds] at hleaf ⊢
    rw [getNodes]
    split_ifs at hleaf ⊢ with h
    · rw [getNodes, if_pos h]
      exact ⟨rfl, rfl⟩
    · obtain ⟨hz, hnz⟩ := ihz (n + 1)
      obtain ⟨ho, hno⟩ := iho (n + 1 + zero.getNodes.length)
      dsimp only at hleaf ⊢
      rw [hnz] at hleaf ⊢
      rw [getNodes, if_neg (by rw [hleaf]; exact h), List.map_cons, List.map_append, hz, ho, hno, List.length_cons,
        List.length_append]
      refine ⟨?_, by omega⟩
      rw [List.range'_succ, show n + 1 + zero.getNodes.length = n + 1 + 1 * zero.getNodes.length by omega,
        List.range'_append]
      rfl

/-- An inner node is in the list of nodes. -/
theorem find_mem_getNodes (t : BTree) (w : List Bool) (hp : (t.find w).isPresent = true) (hl : ¬ (t.find w).isLeaf = true) :
    t.find w ∈ t.getNodes := by
  induction w generalizing t with
  | nil =>
    cases t with
    | absent => exact absurd hp (by simp [isPresent])
    | node id zero one =>
      rw [find_nil] at hl ⊢
      rw [getNodes, if_neg hl]
      exact List.mem_cons_self
  | cons b w ih =>
    cases t with
    | absent => rw [find_absent] at hp; exact absurd hp (by simp [isPresent])
    | node id zero one =>
      have hmem := ih _ hp hl
      have hinner : ¬ (node id zero one).isLeaf = true := fun hleaf => by
        cases hc : (node id zero one).child b with
        | absent => rw [find_cons, hc, find_absent] at hp; exact absurd hp (by simp [isPresent])
        | node _ _ _ =>
          have := isLeaf_iff.mp hleaf b
          rw [hc] at this
          exact absurd this (by simp [isPresent])
      rw [getNodes, if_neg hinner, find_cons]
      refine List.mem_cons_of_mem _ (List.mem_append.mpr ?_)
      cases b
      · exact .inl hmem
      · exact .inr hmem

/-- Every row is the one of an inner node. -/
theorem find_of_mem_getNodes {node : BTree} (h : node ∈ t.getNodes) :
    ∃ w, t.find w = node ∧ node.isPresent = true ∧ ¬ node.isLeaf = true := by
  induction t with
  | absent => exact absurd h List.not_mem_nil
  | node id zero one ihz iho =>
    rw [getNodes] at h
    split_ifs at h with hleaf
    · exact absurd h List.not_mem_nil
    · rcases List.mem_cons.mp h with rfl | h
      · exact ⟨[], rfl, rfl, hleaf⟩
      · rcases List.mem_append.mp h with h | h
        · obtain ⟨w, hw, hnode⟩ := ihz h
          exact ⟨false :: w, hw, hnode⟩
        · obtain ⟨w, hw, hnode⟩ := iho h
          exact ⟨true :: w, hw, hnode⟩

/-- **The row of an inner node** has its id as its index. -/
theorem getElem?_getNodes (t : BTree) (w : List Bool) (hp : ((t.assignIds 0).1.find w).isPresent = true)
    (hl : ¬ ((t.assignIds 0).1.find w).isLeaf = true) :
    (t.assignIds 0).1.getNodes[((t.assignIds 0).1.find w).nodeId]? = some ((t.assignIds 0).1.find w) := by
  obtain ⟨k, hk, hget⟩ := List.getElem_of_mem (find_mem_getNodes _ w hp hl)
  have hids := (getNodes_assignIds t 0).1
  have hlen := congrArg List.length hids
  rw [List.length_map, List.length_range'] at hlen
  have hid : ((t.assignIds 0).1.getNodes.map nodeId)[k]? = some k := by
    rw [hids, List.getElem?_range' (by omega)]
    simp
  rw [List.getElem?_map, List.getElem?_eq_getElem hk, hget, Option.map_some, Option.some.injEq] at hid
  rw [hid, List.getElem?_eq_getElem hk, hget]

/-! ### Counting -/

/-- The paths to the leaves. -/
def leafPaths : BTree → List (List Bool)
  | absent => []
  | node id zero one =>
    if (node id zero one).isLeaf then [[]]
    else (leafPaths zero).map (false :: ·) ++ (leafPaths one).map (true :: ·)

theorem nodup_leafPaths (t : BTree) : t.leafPaths.Nodup := by
  induction t with
  | absent => exact List.nodup_nil
  | node id zero one ihz iho =>
    rw [leafPaths]
    split_ifs
    · exact List.nodup_singleton _
    · refine List.Nodup.append (ihz.map List.cons_injective) (iho.map List.cons_injective) ?_
      intro w h0 h1
      obtain ⟨w0, -, rfl⟩ := List.mem_map.mp h0
      obtain ⟨w1, -, h⟩ := List.mem_map.mp h1
      simp at h

theorem find_leafPaths {t : BTree} {w : List Bool} (h : w ∈ t.leafPaths) :
    (t.find w).isPresent = true ∧ (t.find w).isLeaf = true := by
  induction t generalizing w with
  | absent => exact absurd h List.not_mem_nil
  | node id zero one ihz iho =>
    rw [leafPaths] at h
    split_ifs at h with hleaf
    · obtain rfl := List.mem_singleton.mp h
      exact ⟨rfl, hleaf⟩
    · rcases List.mem_append.mp h with h | h
      · obtain ⟨w0, h0, rfl⟩ := List.mem_map.mp h
        exact ihz h0
      · obtain ⟨w1, h1, rfl⟩ := List.mem_map.mp h
        exact iho h1

/-- **A tree whose inner nodes have two children** has one more leaf than inner nodes. -/
theorem getNodes_length_succ (t : BTree) (hp : t.isPresent = true)
    (hfull : ∀ w, (t.find w).isPresent = true → ¬ (t.find w).isLeaf = true → ∀ b, ((t.find w).child b).isPresent = true) :
    t.getNodes.length + 1 = t.leafPaths.length := by
  induction t with
  | absent => exact absurd hp (by simp [isPresent])
  | node id zero one ihz iho =>
    rw [getNodes, leafPaths]
    split_ifs with hleaf
    · rfl
    · have hz := ihz (hfull [] rfl hleaf false) fun w => hfull (false :: w)
      have ho := iho (hfull [] rfl hleaf true) fun w => hfull (true :: w)
      rw [List.length_cons, List.length_append, List.length_append, List.length_map, List.length_map]
      omega

end BTree

/-! ### The tree of a code -/

/-- **The tree has the paths of the codewords**, and their symbols at the ends. -/
structure Represents (c : HuffmanSource) (root : BTree) : Prop where
  present : ∀ w, (root.find w).isPresent = true ↔ ∃ a, w <+: c.bits a
  nodeId : ∀ a, (root.find (c.bits a)).nodeId = a

theorem mem_data {c : HuffmanSource} {d : HuffmanEntry} (hd : d ∈ c.data) : ∃ a : Fin 257, d.msbBits = c.bits a ∧
    d.symbN = a ∧ d.bitLen = (c.bits a).length := by
  obtain ⟨a, -, rfl⟩ := List.mem_map.mp hd
  exact ⟨a, rfl, rfl, rfl⟩

theorem data_mem (c : HuffmanSource) (a : Fin 257) :
    (⟨a, (c.bits a).length, c.bits a, bitsToNat (c.bits a)⟩ : HuffmanEntry) ∈ c.data :=
  List.mem_map.mpr ⟨a, List.mem_finRange a, rfl⟩

/-- Behind a codeword there is nothing. -/
theorem leaf_of_present {c : HuffmanSource} {t : BTree}
    (h : ∀ w, (t.find w).isPresent = true ↔ ∃ a, w <+: c.bits a) (a : Fin 257) : (t.find (c.bits a)).isLeaf = true := by
  rw [BTree.isLeaf_iff]
  intro b
  rw [← Bool.not_eq_true]
  intro hb
  have hfind : (t.find (c.bits a ++ [b])).isPresent = true := by rw [BTree.find_append]; exact hb
  obtain ⟨a', ha'⟩ := (h _).mp hfind
  have heq := c.prefixFree a a' ((List.prefix_append _ _).trans ha')
  subst heq
  have := ha'.length_le
  simp at this

/-- **The generator's tree.** -/
theorem decodeTree_represents (c : HuffmanSource) : Represents c (decodeTree c.data) := by
  have hpresent : ∀ w, (((BTree.node 0 .absent .absent).build c.data).find w).isPresent = true ↔ ∃ a, w <+: c.bits a := by
    intro w
    rw [BTree.present_foldl]
    constructor
    · rintro (hroot | ⟨d, hd, hpre⟩)
      · cases w with
        | nil => exact ⟨0, List.nil_prefix⟩
        | cons b w => cases b <;> simp [BTree.child, BTree.isPresent] at hroot
      · obtain ⟨a, hbits, -⟩ := mem_data hd
        exact ⟨a, hbits ▸ hpre⟩
    · rintro ⟨a, hpre⟩
      exact .inr ⟨_, data_mem c a, hpre⟩
  refine ⟨fun w => ?_, fun a => ?_⟩
  · obtain ⟨m, hm⟩ := BTree.find_assignIds ((BTree.node 0 .absent .absent).build c.data) 0 w
    rw [← hpresent w]
    change (((((BTree.node 0 .absent .absent).build c.data).assignIds 0).1.find w).isPresent = true) ↔ _
    rw [hm, BTree.isPresent_assignIds]
  · obtain ⟨m, hm⟩ := BTree.find_assignIds ((BTree.node 0 .absent .absent).build c.data) 0 (c.bits a)
    change ((((BTree.node 0 .absent .absent).build c.data).assignIds 0).1.find (c.bits a)).nodeId = a
    rw [hm, BTree.nodeId_assignIds_leaf (leaf_of_present hpresent a)]
    refine BTree.nodeId_foldl _ _ _ ⟨_, data_mem c a, rfl⟩ fun d hd hbits => ?_
    obtain ⟨a', hbits', hid, -⟩ := mem_data hd
    rw [hid, c.prefixFree a' a ⟨[], by rw [List.append_nil, ← hbits', hbits]⟩]

namespace Represents

variable {c : HuffmanSource} {root : BTree} {w p : List Bool}

theorem leaf (h : Represents c root) (a : Fin 257) : (root.find (c.bits a)).isLeaf = true := leaf_of_present h.present a

/-- A proper prefix of a codeword leads to an inner node. -/
theorem inner (h : Represents c root) (hw : c.Inner w) :
    (root.find w).isPresent = true ∧ ¬ (root.find w).isLeaf = true := by
  obtain ⟨a, ⟨p, hp⟩, hne⟩ := hw
  refine ⟨(h.present w).mpr ⟨a, p, hp⟩, fun hleaf => ?_⟩
  cases p with
  | nil => exact hne (by rw [← hp, List.append_nil])
  | cons b p =>
    have hnext : (root.find (w ++ [b])).isPresent = true := (h.present _).mpr ⟨a, p, by rw [← hp]; simp⟩
    have hnone := BTree.isLeaf_iff.mp hleaf b
    rw [BTree.find_append] at hnext
    exact Bool.false_ne_true (hnone.symm.trans hnext)

/-- What is there is a proper prefix of a codeword or a codeword. -/
theorem inner_of_not_leaf (h : Represents c root) (hp : (root.find w).isPresent = true)
    (hl : ¬ (root.find w).isLeaf = true) : c.Inner w := by
  obtain ⟨a, ha⟩ := (h.present w).mp hp
  exact ⟨a, ha, fun heq => hl (heq ▸ h.leaf a)⟩

/-- **Traversing the tree is decoding.** -/
theorem traverseLoop_eq (h : Represents c root) (hne : ∀ a, c.bits a ≠ []) (hw : c.Inner w) (p : List Bool) :
    ∃ nodes, root.traverseLoop (root.find w) p =
      some (root.find (c.walk w p).2, (c.walk w p).1.map Fin.val, nodes) := by
  induction p generalizing w with
  | nil =>
    refine ⟨[(root.find w).nodeId], ?_⟩
    rw [BTree.traverseLoop, if_neg (h.inner hw).2]
    rfl
  | cons b p ih =>
    have hchild : (root.find w).child b = root.find (w ++ [b]) := by rw [BTree.find_append]; rfl
    rw [BTree.traverseLoop, hchild]
    rcases hw.concat b with ⟨a, ha⟩ | hin
    · -- a leaf
      obtain ⟨nodes, hrest⟩ := ih (PrefixCode.inner_nil hne)
      rw [BTree.find_nil] at hrest
      rw [← ha]
      have hpresent : (root.find (c.bits a)).isPresent = true := (h.present _).mpr ⟨a, List.prefix_rfl⟩
      simp only [hpresent, Bool.not_true, Bool.false_eq_true, if_false, h.leaf a, if_true, hrest, h.nodeId a,
        PrefixCode.walk, PrefixCode.step_symbol ha]
      exact ⟨_, rfl⟩
    · obtain ⟨nodes, hrest⟩ := ih hin
      obtain ⟨hpresent, hleaf⟩ := h.inner hin
      simp only [hpresent, Bool.not_true, Bool.false_eq_true, if_false, hleaf, hrest, PrefixCode.walk,
        PrefixCode.step_inner hin]
      exact ⟨_, rfl⟩

theorem traverse_eq (h : Represents c root) (hne : ∀ a, c.bits a ≠ []) (hw : c.Inner w) (p : List Bool) :
    ∃ nodes, root.traverse (root.find w) p =
      some (root.find (c.walk w p).2, (c.walk w p).1.map Fin.val, nodes) := by
  rw [BTree.traverse, if_neg (h.inner hw).2]
  exact h.traverseLoop_eq hne hw p

/-- **There are at most 256 inner nodes**, so that an id fits in an octet. -/
theorem getNodes_length_le (h : Represents c root) : root.getNodes.length ≤ 256 := by
  have hfull : ∀ w, (root.find w).isPresent = true → ¬ (root.find w).isLeaf = true →
      ∀ b, ((root.find w).child b).isPresent = true := fun w hp hl b => by
    have hchild : (root.find w).child b = root.find (w ++ [b]) := by rw [BTree.find_append]; rfl
    rw [hchild, h.present]
    rcases (h.inner_of_not_leaf hp hl).concat b with ⟨a, ha⟩ | ⟨a, ha, -⟩
    · exact ⟨a, ha ▸ List.prefix_rfl⟩
    · exact ⟨a, ha⟩
  have hroot : root.isPresent = true := (h.present []).mpr ⟨0, List.nil_prefix⟩
  -- every leaf is at the end of a codeword
  have hsub : root.leafPaths ⊆ (List.finRange 257).map c.bits := fun w hw => by
    obtain ⟨hp, hl⟩ := BTree.find_leafPaths hw
    obtain ⟨a, ha⟩ := (h.present w).mp hp
    refine List.mem_map.mpr ⟨a, List.mem_finRange a, ?_⟩
    by_contra hne
    exact (h.inner ⟨a, ha, fun heq => hne heq.symm⟩).2 hl
  have hlen := (root.nodup_leafPaths.subperm hsub).length_le
  rw [List.length_map, List.length_finRange, ← root.getNodes_length_succ hroot hfull] at hlen
  omega

end Represents

/-- The row of a proper prefix of a codeword. -/
theorem getElem?_decodeTree {c : HuffmanSource} {w : List Bool} (hw : c.Inner w) :
    (decodeTree c.data).getNodes[((decodeTree c.data).find w).nodeId]? = some ((decodeTree c.data).find w) :=
  have h := (decodeTree_represents c).inner hw
  BTree.getElem?_getNodes ((BTree.node 0 .absent .absent).build c.data) w h.1 h.2

/-- The root has the first id. -/
theorem nodeId_decodeTree {c : HuffmanSource} (hne : ∀ a, c.bits a ≠ []) : (decodeTree c.data).nodeId = 0 := by
  obtain ⟨hp, hl⟩ := (decodeTree_represents c).inner (PrefixCode.inner_nil hne)
  rw [BTree.find_nil, decodeTree, BTree.isPresent_assignIds] at hp
  rw [BTree.find_nil, decodeTree, BTree.isLeaf_assignIds] at hl
  exact BTree.nodeId_assignIds hp hl 0

end LibHpack
