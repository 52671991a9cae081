import LibHpack.General.AvlTree

/-!
# LibHpack.General.AvlLevels — trees that grow level by level

`place` adds a leaf where the order of the keys wants it, and moves nothing.  When the nodes of a balanced tree are added
in this way, one level after the other, every tree on the way is balanced (`Filling.balanced`), and an insertion that
restores the balance has nothing to restore.  `minimal` is the balanced tree with the fewest nodes for its height.
-/

namespace BinaryTree

variable {α κ : Type*}

/-! ### Levels -/

/-- The first `d` levels. -/
def trunc : ℕ → BinaryTree α → BinaryTree α
  | 0, _ => nil
  | _ + 1, nil => nil
  | d + 1, node a l r => node a (trunc d l) (trunc d r)

@[simp] theorem trunc_zero (t : BinaryTree α) : trunc 0 t = nil := by cases t <;> rfl

/-- The level behind the first `d` ones. -/
def level : ℕ → BinaryTree α → List α
  | _, nil => []
  | 0, node a _ _ => [a]
  | d + 1, node _ l r => level d l ++ level d r

def levels (h : ℕ) (t : BinaryTree α) : List α := (List.range h).flatMap fun d => level d t

theorem levels_succ (h : ℕ) (t : BinaryTree α) : levels (h + 1) t = levels h t ++ level h t := by
  rw [levels, List.range_succ, List.flatMap_append, List.flatMap_singleton]
  rfl

theorem trunc_of_height_le {d : ℕ} {t : BinaryTree α} (h : t.height ≤ d) : trunc d t = t := by
  induction t generalizing d with
  | nil => cases d <;> rfl
  | node a l r hl hr =>
    obtain ⟨d, rfl⟩ : ∃ k, d = k + 1 := Nat.exists_eq_succ_of_ne_zero (by simp only [height] at h; omega)
    simp only [height] at h
    rw [trunc, hl (by omega), hr (by omega)]

theorem height_trunc_le (d : ℕ) (t : BinaryTree α) : (trunc d t).height ≤ d := by
  induction t generalizing d with
  | nil => cases d <;> simp [trunc]
  | node a l r hl hr =>
    cases d with
    | zero => simp
    | succ d => simpa [trunc, height] using ⟨hl d, hr d⟩

theorem level_of_height_le {d : ℕ} {t : BinaryTree α} (h : t.height ≤ d) : level d t = [] := by
  induction t generalizing d with
  | nil => cases d <;> rfl
  | node a l r hl hr =>
    obtain ⟨d, rfl⟩ : ∃ k, d = k + 1 := Nat.exists_eq_succ_of_ne_zero (by simp only [height] at h; omega)
    simp only [height] at h
    rw [level, hl (by omega), hr (by omega), List.append_nil]

theorem mem_of_mem_level {d : ℕ} {t : BinaryTree α} {x : α} (h : x ∈ level d t) : x ∈ t.inorder := by
  induction t generalizing d with
  | nil => cases d <;> simp [level] at h
  | node a l r hl hr =>
    rw [inorder_node, List.mem_append, List.mem_cons]
    cases d with
    | zero => exact .inr (.inl (List.mem_singleton.1 h))
    | succ d =>
      rw [level, List.mem_append] at h
      exact h.imp (fun h => hl h) fun h => .inr (hr h)

/-- The second tree has the first `d` levels of the first one, and some nodes of the next. -/
inductive Filling : ℕ → BinaryTree α → BinaryTree α → Prop
  | none {t : BinaryTree α} : Filling 0 t nil
  | root {a : α} {l r : BinaryTree α} : Filling 0 (node a l r) (node a nil nil)
  | nil {d : ℕ} : Filling d nil nil
  | node {d : ℕ} {a : α} {l r l' r' : BinaryTree α} : Filling d l l' → Filling d r r' →
      Filling (d + 1) (node a l r) (node a l' r')

theorem filling_trunc (d : ℕ) (t : BinaryTree α) : Filling d t (trunc d t) := by
  induction t generalizing d with
  | nil => cases d <;> exact .nil
  | node a l r hl hr =>
    cases d with
    | zero => exact .none
    | succ d => exact .node (hl d) (hr d)

theorem filling_trunc_succ (d : ℕ) (t : BinaryTree α) : Filling d t (trunc (d + 1) t) := by
  induction t generalizing d with
  | nil => exact .nil
  | node a l r hl hr =>
    cases d with
    | zero =>
      rw [trunc, trunc_zero, trunc_zero]
      exact .root
    | succ d => exact .node (hl d) (hr d)

section Filling

variable {d : ℕ} {t t' : BinaryTree α}

theorem Filling.height (h : Filling d t t') :
    min d t.height ≤ t'.height ∧ t'.height ≤ d + 1 ∧ t'.height ≤ t.height := by
  induction h with
  | none => simp
  | root => simp [BinaryTree.height]
  | nil => simp
  | node _ _ hl hr =>
    simp only [BinaryTree.height]
    omega

/-- **Balance on the way**: in a subtree with room for another level the heights are those of the level, and in one without
they are those of the whole tree. -/
theorem Filling.balanced (h : Filling d t t') (ht : t.Balanced) : t'.Balanced := by
  induction h with
  | none => trivial
  | root => simp
  | nil => trivial
  | node hl hr ihl ihr =>
    obtain ⟨⟨h1, h2⟩, bl, br⟩ := ht
    have hl := hl.height
    have hr := hr.height
    exact ⟨by omega, ihl bl, ihr br⟩

theorem Filling.sublist (h : Filling d t t') : t'.inorder.Sublist t.inorder := by
  induction h with
  | none => exact List.nil_sublist _
  | root => simp
  | nil => exact List.Sublist.refl _
  | node _ _ hl hr => exact hl.append (hr.cons_cons _)

end Filling

/-! ### Leaves in their order -/

section Place

variable [LinearOrder κ] (key : α → κ)

/-- The tree with a new leaf. -/
def place (x : α) : BinaryTree α → BinaryTree α
  | nil => node x nil nil
  | node a l r => if key x < key a then node a (place x l) r else node a l (place x r)

variable {key} {x a : α} {t t' l r r' : BinaryTree α} {xs ys : List α}

theorem place_left (h : key x < key a) : place key x (node a l r) = node a (place key x l) r := if_pos h

theorem place_right (h : key a < key x) : place key x (node a l r) = node a l (place key x r) := if_neg h.asymm

theorem place_plug {c : List (Frame α)} (hb : ∀ a ∈ before c, key a < key x) (ha : ∀ a ∈ after c, key x < key a)
    (t : BinaryTree α) : place key x (plug c t) = plug c (place key x t) := by
  induction c generalizing t with
  | nil => rfl
  | cons f c ih =>
    cases f with
    | left a r =>
      simp only [before, after, List.mem_append, List.mem_cons] at hb ha
      rw [plug, plug, ih hb (fun b hb => ha b (.inr hb)), place_left (ha a (.inl (.inl rfl)))]
    | right a l =>
      simp only [before, after, List.mem_append, List.mem_singleton] at hb ha
      rw [plug, plug, ih (fun b hb' => hb b (.inl hb')) ha, place_right (hb a (.inr (.inr rfl)))]

theorem perm_place (x : α) (t : BinaryTree α) : (place key x t).inorder.Perm (x :: t.inorder) := by
  induction t with
  | nil => exact List.Perm.refl _
  | node a l r hl hr =>
    rw [place]
    split_ifs
    · exact hl.append_right _
    · exact ((hr.cons a).trans (List.Perm.swap ..)).append_left l.inorder |>.trans List.perm_middle

variable (key) in
/-- Leaves are added one by one, and every tree on the way has the property. -/
inductive Fills (P : BinaryTree α → Prop) : BinaryTree α → List α → BinaryTree α → Prop
  | nil {t : BinaryTree α} : P t → Fills P t [] t
  | cons {t t' : BinaryTree α} {x : α} {xs : List α} : P t → Fills P (place key x t) xs t' → Fills P t (x :: xs) t'

section Fills

variable {P Q : BinaryTree α → Prop} {d : ℕ}

theorem Fills.head (h : Fills key P t xs t') : P t := by cases h <;> assumption

theorem Fills.singleton (h : Fills key P t [x] t') : t' = place key x t := by
  cases h with
  | cons _ h => cases h; rfl

theorem Fills.mono (hPQ : ∀ t, P t → Q t) (h : Fills key P t xs t') : Fills key Q t xs t' := by
  induction h with
  | nil hP => exact .nil (hPQ _ hP)
  | cons hP _ ih => exact .cons (hPQ _ hP) ih

theorem Fills.append {u : BinaryTree α} (h : Fills key P t xs u) (h' : Fills key P u ys t') :
    Fills key P t (xs ++ ys) t' := by
  induction h with
  | nil _ => exact h'
  | cons hP _ ih => exact .cons hP (ih h')

theorem Fills.left (h : Fills key (Filling d l) t xs t') (hx : ∀ x ∈ xs, key x < key a) (hr : Filling d r r') :
    Fills key (Filling (d + 1) (node a l r)) (node a t r') xs (node a t' r') := by
  induction h with
  | nil hl => exact .nil (.node hl hr)
  | cons hl _ ih =>
    refine .cons (.node hl hr) ?_
    rw [place_left (hx _ List.mem_cons_self)]
    exact ih fun x hmem => hx x (List.mem_cons_of_mem _ hmem)

theorem Fills.right (h : Fills key (Filling d r) t xs t') (hx : ∀ x ∈ xs, key a < key x) (hl : Filling d l r') :
    Fills key (Filling (d + 1) (node a l r)) (node a r' t) xs (node a r' t') := by
  induction h with
  | nil hr => exact .nil (.node hl hr)
  | cons hr _ ih =>
    refine .cons (.node hl hr) ?_
    rw [place_right (hx _ List.mem_cons_self)]
    exact ih fun x hmem => hx x (List.mem_cons_of_mem _ hmem)

/-- **One level.** -/
theorem fills_level (hs : t.inorder.Pairwise fun x y => key x < key y) (d : ℕ) :
    Fills key (Filling d t) (trunc d t) (level d t) (trunc (d + 1) t) := by
  induction t generalizing d with
  | nil =>
    cases d <;> exact .nil .nil
  | node a l r ihl ihr =>
    rw [inorder_node, List.pairwise_append, List.pairwise_cons] at hs
    obtain ⟨hl, ⟨har, hr⟩, hla⟩ := hs
    cases d with
    | zero =>
      rw [trunc, trunc, trunc_zero, trunc_zero]
      exact .cons .none (.nil .root)
    | succ d =>
      have hleft := (ihl hl d).left (a := a) (r := r) (fun x hx => hla x (mem_of_mem_level hx) a List.mem_cons_self)
        (filling_trunc d r)
      have hright := (ihr hr d).right (a := a) (l := l) (fun x hx => har x (mem_of_mem_level hx)) (filling_trunc_succ d l)
      exact hleft.append hright

/-- **Level after level.** -/
theorem fills_levels (hs : t.inorder.Pairwise fun x y => key x < key y) {h : ℕ} (h0 : P BinaryTree.nil)
    (hP : ∀ d < h, ∀ u, Filling d t u → P u) : Fills key P BinaryTree.nil (levels h t) (trunc h t) := by
  induction h with
  | zero =>
    rw [trunc_zero]
    exact .nil h0
  | succ h ih =>
    rw [levels_succ]
    exact (ih fun d hd => hP d (Nat.lt_succ_of_lt hd)).append ((fills_level hs h).mono (hP h (Nat.lt_succ_self h)))

end Fills

end Place

/-! ### The tree with the fewest nodes -/

/-- The entries from `x` on, in the highest balanced tree that they can make. -/
def minimal (f : ℕ → α) : ℕ → ℕ → BinaryTree α
  | 0, _ => nil
  | 1, x => node (f x) nil nil
  | h + 2, x => node (f (x + (Nat.fib (h + 3) - 1))) (minimal f (h + 1) x) (minimal f h (x + Nat.fib (h + 3)))

section Minimal

variable (f : ℕ → α) (h x : ℕ)

theorem height_minimal : (minimal f h x).height = h := by
  induction h using Nat.twoStepInduction generalizing x with
  | zero => rfl
  | one => rfl
  | more h ih ih' =>
    rw [minimal, height, ih, ih']
    omega

theorem balanced_minimal : (minimal f h x).Balanced := by
  induction h using Nat.twoStepInduction generalizing x with
  | zero => trivial
  | one => simp [minimal]
  | more h ih ih' =>
    rw [minimal, balanced_node, height_minimal, height_minimal]
    exact ⟨by omega, ih' _, ih _⟩

theorem inorder_minimal : (minimal f h x).inorder = (List.range' x (Nat.fib (h + 2) - 1)).map f := by
  induction h using Nat.twoStepInduction generalizing x with
  | zero => rfl
  | one => rfl
  | more h ih ih' =>
    have hpos : 0 < Nat.fib (h + 3) := Nat.fib_pos.2 (by omega)
    have hpos' : 0 < Nat.fib (h + 2) := Nat.fib_pos.2 (by omega)
    have hsum : Nat.fib (h + 2 + 2) = Nat.fib (h + 2) + Nat.fib (h + 3) := Nat.fib_add_two
    have hfib : Nat.fib (h + 2 + 2) - 1 = (Nat.fib (h + 3) - 1) + ((Nat.fib (h + 2) - 1) + 1) := by omega
    rw [minimal, inorder_node, ih, ih', hfib, ← List.range'_append_1, List.map_append, List.range'_succ, List.map_cons]
    congr 4
    omega

/-- The first entry is alone on the last level. -/
theorem level_minimal : level h (minimal f (h + 1) x) = [f x] := by
  induction h generalizing x with
  | zero => rfl
  | succ h ih => rw [minimal, level, ih, level_of_height_le (height_minimal f h _).le, List.append_nil]

theorem exists_plug_minimal : ∃ c, minimal f (h + 1) x = plug c (node (f x) nil nil) ∧ c.length = h := by
  induction h with
  | zero => exact ⟨[], rfl, rfl⟩
  | succ h ih =>
    obtain ⟨c, hc, hlen⟩ := ih
    refine ⟨c ++ [.left (f (x + (Nat.fib (h + 3) - 1))) (minimal f h (x + Nat.fib (h + 3)))], ?_, by simp [hlen]⟩
    rw [minimal, hc, plug_append]
    rfl

end Minimal

end BinaryTree
