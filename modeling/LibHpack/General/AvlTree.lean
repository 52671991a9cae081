import Mathlib.Tactic
import Mathlib.Data.Tree.Basic

/-!
# LibHpack.General.AvlTree — height-balanced binary trees and their repair

A tree is balanced when the heights of the two children of every node differ by at most one.  After the height of one
subtree has changed by one, the nodes above it are repaired from the bottom up: a node that leans to one side by two is
rotated, and the repair goes on above it when the height of the subtree has changed nevertheless.  `Off d h t` is the
state of that repair at a node, for both directions: `t` is a node one child of which has moved by `-d`, and `h` is the
height that the tree above still counts with; `off_settle` is what one turn achieves.

A position in a tree is the tree below it and the path of `Frame`s above it, the innermost first.
-/

namespace BinaryTree

variable {α : Type*}

/-- The entries from left to right. -/
def inorder : BinaryTree α → List α
  | nil => []
  | node a l r => l.inorder ++ a :: r.inorder

@[simp] theorem inorder_nil : (nil : BinaryTree α).inorder = [] := rfl

@[simp] theorem inorder_node (a : α) (l r : BinaryTree α) : (node a l r).inorder = l.inorder ++ a :: r.inorder := rfl

theorem length_inorder (t : BinaryTree α) : t.inorder.length = t.numNodes := by
  induction t with
  | nil => rfl
  | node a l r hl hr =>
    rw [inorder_node, List.length_append, List.length_cons, hl, hr]
    simp only [numNodes]
    omega

/-- How far the root leans to the right. -/
def balance : BinaryTree α → ℤ
  | nil => 0
  | node _ l r => r.height - l.height

@[simp] theorem balance_nil : (nil : BinaryTree α).balance = 0 := rfl

@[simp] theorem balance_node (a : α) (l r : BinaryTree α) : (node a l r).balance = r.height - l.height := rfl

/-- The heights of the two children of a node differ by at most one, at every node. -/
def Balanced : BinaryTree α → Prop
  | nil => True
  | node _ l r => (l.height ≤ r.height + 1 ∧ r.height ≤ l.height + 1) ∧ l.Balanced ∧ r.Balanced

@[simp] theorem balanced_nil : (nil : BinaryTree α).Balanced := trivial

@[simp] theorem balanced_node (a : α) (l r : BinaryTree α) :
    (node a l r).Balanced ↔ (l.height ≤ r.height + 1 ∧ r.height ≤ l.height + 1) ∧ l.Balanced ∧ r.Balanced := Iff.rfl

theorem height_eq_zero {t : BinaryTree α} : t.height = 0 ↔ t = nil := by
  cases t with
  | nil => simp
  | node a l r => simp

theorem eq_leaf {a : α} {l r : BinaryTree α} (h : (node a l r).height ≤ 1) : node a l r = node a nil nil := by
  simp only [height] at h
  rw [height_eq_zero.1 (show l.height = 0 by omega), height_eq_zero.1 (show r.height = 0 by omega)]

/-! ### How many nodes a balanced tree has -/

/-- A balanced tree of height `h` has at least `fib (h + 2) - 1` nodes. -/
theorem Balanced.fib_le {t : BinaryTree α} (ht : t.Balanced) : Nat.fib (t.height + 2) ≤ t.numNodes + 1 := by
  induction t with
  | nil => simp
  | node a l r hl hr =>
    obtain ⟨⟨hlr, hrl⟩, bl, br⟩ := ht
    have h1 := hl bl
    have h2 := hr br
    simp only [height, numNodes]
    rcases le_total l.height r.height with h | h
    · rw [max_eq_right h, Nat.fib_add_two (n := r.height + 1)]
      have h3 : Nat.fib (r.height + 1) ≤ Nat.fib (l.height + 2) := Nat.fib_mono (by omega)
      rw [show r.height + 1 + 1 = r.height + 2 from rfl]
      omega
    · rw [max_eq_left h, Nat.fib_add_two (n := l.height + 1)]
      have h3 : Nat.fib (l.height + 1) ≤ Nat.fib (r.height + 2) := Nat.fib_mono (by omega)
      rw [show l.height + 1 + 1 = l.height + 2 from rfl]
      omega

/-! ### Rotations -/

/-- The right child becomes the root. -/
def rotateLeft : BinaryTree α → BinaryTree α
  | node a l (node b m r) => node b (node a l m) r
  | t => t

/-- The left child becomes the root. -/
def rotateRight : BinaryTree α → BinaryTree α
  | node a (node b l m) r => node b l (node a m r)
  | t => t

/-- Repair the root, when it leans to one side by more than one. -/
def rebalance : BinaryTree α → BinaryTree α
  | nil => nil
  | node a l r =>
    if (node a l r).balance < -1 then rotateRight (node a (if 0 < l.balance then l.rotateLeft else l) r)
    else if 1 < (node a l r).balance then rotateLeft (node a l (if r.balance < 0 then r.rotateRight else r))
    else node a l r

@[simp] theorem inorder_rotateLeft (t : BinaryTree α) : t.rotateLeft.inorder = t.inorder := by
  unfold rotateLeft
  split
  · simp
  · rfl

@[simp] theorem inorder_rotateRight (t : BinaryTree α) : t.rotateRight.inorder = t.inorder := by
  unfold rotateRight
  split
  · simp
  · rfl

@[simp] theorem inorder_rebalance (t : BinaryTree α) : t.rebalance.inorder = t.inorder := by
  cases t with
  | nil => rfl
  | node a l r =>
    rw [rebalance]
    split_ifs <;> simp

theorem height_rotateLeft {t : BinaryTree α} (ht : t.Balanced) (h : 0 < t.balance) : t.rotateLeft.height = t.height := by
  rcases t with _ | ⟨a, l, _ | ⟨b, m, r⟩⟩
  · rfl
  · rfl
  · simp only [balanced_node, balance_node, height, rotateLeft] at ht h ⊢
    omega

theorem height_rotateRight {t : BinaryTree α} (ht : t.Balanced) (h : t.balance < 0) :
    t.rotateRight.height = t.height := by
  rcases t with _ | ⟨a, _ | ⟨b, l, m⟩, r⟩
  · rfl
  · rfl
  · simp only [balanced_node, balance_node, height, rotateRight] at ht h ⊢
    omega

/-- Where nothing leans by more than one, nothing is rotated. -/
theorem rebalance_of_balanced {t : BinaryTree α} (ht : t.Balanced) : t.rebalance = t := by
  cases t with
  | nil => rfl
  | node a l r =>
    obtain ⟨⟨hlr, hrl⟩, -, -⟩ := ht
    have h1 : ¬(node a l r).balance < -1 := by
      simp only [balance_node]
      omega
    have h2 : ¬1 < (node a l r).balance := by
      simp only [balance_node]
      omega
    rw [rebalance, if_neg h1, if_neg h2]

/-- A node that leans to the left by two: it gets lower by one, unless its left child is even. -/
theorem rebalance_left {a : α} {l r : BinaryTree α} (hl : l.Balanced) (hr : r.Balanced) (h : l.height = r.height + 2) :
    (node a l r).rebalance.Balanced ∧
      ((l.balance ≠ 0 ∧ (node a l r).rebalance.balance = 0 ∧ (node a l r).rebalance.height = l.height) ∨
        (l.balance = 0 ∧ (node a l r).rebalance.balance = 1 ∧ (node a l r).rebalance.height = l.height + 1)) := by
  have hlean : (node a l r).balance < -1 := by
    simp only [balance_node]
    omega
  rw [rebalance, if_pos hlean]
  by_cases hb : 0 < l.balance
  · rw [if_pos hb]
    rcases l with _ | ⟨b, m, _ | ⟨c, n, p⟩⟩
    · simp at hb
    · simp only [balance_node, height] at hb
      omega
    · simp only [balanced_node] at hl
      obtain ⟨hmn, hm, hnp, hn, hp⟩ := hl
      simp only [balance_node, height] at hb h
      simp only [balanced_node, balance_node, height, rotateLeft, rotateRight, hm, hn, hp, hr, and_true, height] at hmn ⊢
      omega
  · rw [if_neg hb]
    rcases l with _ | ⟨b, m, n⟩
    · simp at h
    · simp only [balanced_node] at hl
      obtain ⟨hmn, hm, hn⟩ := hl
      simp only [balance_node, height] at hb h
      simp only [balanced_node, balance_node, height, rotateRight, hm, hn, hr, and_true, true_and]
      omega

/-- A node that leans to the right by two. -/
theorem rebalance_right {a : α} {l r : BinaryTree α} (hl : l.Balanced) (hr : r.Balanced) (h : r.height = l.height + 2) :
    (node a l r).rebalance.Balanced ∧
      ((r.balance ≠ 0 ∧ (node a l r).rebalance.balance = 0 ∧ (node a l r).rebalance.height = r.height) ∨
        (r.balance = 0 ∧ (node a l r).rebalance.balance = -1 ∧ (node a l r).rebalance.height = r.height + 1)) := by
  have hlean : ¬(node a l r).balance < -1 := by
    simp only [balance_node]
    omega
  have hlean' : 1 < (node a l r).balance := by
    simp only [balance_node]
    omega
  rw [rebalance, if_neg hlean, if_pos hlean']
  by_cases hb : r.balance < 0
  · rw [if_pos hb]
    rcases r with _ | ⟨b, _ | ⟨c, n, p⟩, m⟩
    · simp at hb
    · simp only [balance_node, height] at hb
      omega
    · simp only [balanced_node] at hr
      obtain ⟨hmn, ⟨hnp, hn, hp⟩, hm⟩ := hr
      simp only [balance_node, height] at hb h
      simp only [balanced_node, balance_node, height, rotateLeft, rotateRight, hm, hn, hp, hl, and_true,
        height] at hmn ⊢
      omega
  · rw [if_neg hb]
    rcases r with _ | ⟨b, m, n⟩
    · simp at h
    · simp only [balanced_node] at hr
      obtain ⟨hmn, hm, hn⟩ := hr
      simp only [balance_node, height] at hb h
      simp only [balanced_node, balance_node, height, rotateLeft, hm, hn, hl, and_true]
      omega

/-! ### Repair after one subtree has changed its height -/

/-- A subtree that the tree above it counts with the height `h`, and that has moved by `-d`: it has grown by one
(`d = -1`), so that a new leaf or a leaning node is its root, or has become lower by one (`d = 1`). -/
def Moved (d : ℤ) (h : ℕ) (t : BinaryTree α) : Prop :=
  t.Balanced ∧ (t.height : ℤ) = h - d ∧ (d = -1 → t.balance ≠ 0 ∨ h = 0)

/-- A node one child of which has moved; the tree above it counts with the height `h`. -/
inductive Off (d : ℤ) : ℕ → BinaryTree α → Prop
  | left {a : α} {x s : BinaryTree α} {h : ℕ} : Moved d h x → s.Balanced → s.height ≤ h + 1 → h ≤ s.height + 1 →
      Off d (max h s.height + 1) (node a x s)
  | right {a : α} {x s : BinaryTree α} {h : ℕ} : Moved d h x → s.Balanced → s.height ≤ h + 1 → h ≤ s.height + 1 →
      Off d (max s.height h + 1) (node a s x)

/-- Whether the repair ends at a node with this balance: a node that is even has not grown, and one that leans has not
become lower. -/
def Settles (d b : ℤ) : Prop := if d = -1 then b = 0 else b ≠ 0

instance (d b : ℤ) : Decidable (Settles d b) := inferInstanceAs (Decidable (if d = -1 then b = 0 else b ≠ 0))

@[simp] theorem settles_neg_one (b : ℤ) : Settles (-1) b ↔ b = 0 := by simp [Settles]

@[simp] theorem settles_one (b : ℤ) : Settles 1 b ↔ b ≠ 0 := by simp [Settles]

/-- The heights at a node one child of which has moved. -/
theorem Off.heights {d : ℤ} {h : ℕ} {t : BinaryTree α} (ho : Off d h t) :
    ∃ a l r, t = node a l r ∧ l.Balanced ∧ r.Balanced ∧ ∃ h₀ : ℕ,
      ((l.height : ℤ) = h₀ - d ∧ (d = -1 → l.balance ≠ 0 ∨ h₀ = 0) ∧ r.height ≤ h₀ + 1 ∧ h₀ ≤ r.height + 1 ∧
          h = max h₀ r.height + 1 ∨
        (r.height : ℤ) = h₀ - d ∧ (d = -1 → r.balance ≠ 0 ∨ h₀ = 0) ∧ l.height ≤ h₀ + 1 ∧ h₀ ≤ l.height + 1 ∧
          h = max l.height h₀ + 1) := by
  cases ho with
  | left hx hs h1 h2 => exact ⟨_, _, _, rfl, hx.1, hs, _, .inl ⟨hx.2.1, hx.2.2, h1, h2, rfl⟩⟩
  | right hx hs h1 h2 => exact ⟨_, _, _, rfl, hs, hx.1, _, .inr ⟨hx.2.1, hx.2.2, h1, h2, rfl⟩⟩

/-- One turn of the repair. -/
theorem off_settle {d : ℤ} (hd : d = -1 ∨ d = 1) {h : ℕ} {t : BinaryTree α} (ho : Off d h t) :
    t.rebalance.Balanced ∧ (Settles d t.rebalance.balance → t.rebalance.height = h) ∧
      (¬Settles d t.rebalance.balance → Moved d h t.rebalance) := by
  obtain ⟨a, l, r, rfl, bl, br, h₀, hh⟩ := ho.heights
  -- what is left in each case is arithmetic about the heights of the two children
  suffices hb : (node a l r).rebalance.Balanced by
    refine ⟨hb, ?_⟩
    rw [Moved, and_iff_right hb]
    by_cases hl : l.height = r.height + 2
    · obtain ⟨-, hc⟩ := rebalance_left (a := a) bl br hl
      rcases hd with rfl | rfl
      · rw [settles_neg_one]
        omega
      · rw [settles_one]
        omega
    by_cases hr : r.height = l.height + 2
    · obtain ⟨-, hc⟩ := rebalance_right (a := a) bl br hr
      rcases hd with rfl | rfl
      · rw [settles_neg_one]
        omega
      · rw [settles_one]
        omega
    rw [rebalance_of_balanced (t := node a l r) ⟨by omega, bl, br⟩, balance_node, height]
    rcases hd with rfl | rfl
    · rw [settles_neg_one]
      omega
    · rw [settles_one]
      omega
  by_cases hl : l.height = r.height + 2
  · exact (rebalance_left bl br hl).1
  by_cases hr : r.height = l.height + 2
  · exact (rebalance_right bl br hr).1
  have hb : (node a l r).Balanced := ⟨by omega, bl, br⟩
  rwa [rebalance_of_balanced hb]

/-! ### Positions -/

/-- One step of the path from a subtree up to the root: the node, the side that the subtree is on, and the child on the
other side. -/
inductive Frame (α : Type*)
  | left (a : α) (r : BinaryTree α)
  | right (a : α) (l : BinaryTree α)

/-- The node of a step. -/
def Frame.entry : Frame α → α
  | .left a _ => a
  | .right a _ => a

@[simp] theorem entry_left (a : α) (r : BinaryTree α) : (Frame.left a r).entry = a := rfl

@[simp] theorem entry_right (a : α) (l : BinaryTree α) : (Frame.right a l).entry = a := rfl

/-- The tree with `t` at the end of the path. -/
def plug : List (Frame α) → BinaryTree α → BinaryTree α
  | [], t => t
  | .left a r :: c, t => plug c (node a t r)
  | .right a l :: c, t => plug c (node a l t)

/-- The entries to the left of a position. -/
def before : List (Frame α) → List α
  | [] => []
  | .left _ _ :: c => before c
  | .right a l :: c => before c ++ (l.inorder ++ [a])

/-- The entries to the right of a position. -/
def after : List (Frame α) → List α
  | [] => []
  | .left a r :: c => a :: r.inorder ++ after c
  | .right _ _ :: c => after c

/-- The tree above a position is balanced, if the height there is `h`. -/
def Fits : List (Frame α) → ℕ → Prop
  | [], _ => True
  | .left _ r :: c, h => r.Balanced ∧ r.height ≤ h + 1 ∧ h ≤ r.height + 1 ∧ Fits c (max h r.height + 1)
  | .right _ l :: c, h => l.Balanced ∧ l.height ≤ h + 1 ∧ h ≤ l.height + 1 ∧ Fits c (max l.height h + 1)

theorem inorder_plug (c : List (Frame α)) (t : BinaryTree α) : (plug c t).inorder = before c ++ t.inorder ++ after c := by
  induction c generalizing t with
  | nil => simp [plug, before, after]
  | cons f c ih =>
    cases f with
    | left a r => simp [plug, before, after, ih]
    | right a l => simp [plug, before, after, ih]

theorem balanced_plug (c : List (Frame α)) (t : BinaryTree α) :
    (plug c t).Balanced ↔ t.Balanced ∧ Fits c t.height := by
  induction c generalizing t with
  | nil => simp [plug, Fits]
  | cons f c ih =>
    cases f with
    | left a r =>
      rw [plug, ih, balanced_node, height, Fits]
      tauto
    | right a l =>
      rw [plug, ih, balanced_node, height, Fits]
      tauto

theorem height_plug (c : List (Frame α)) (t : BinaryTree α) : c.length + t.height ≤ (plug c t).height := by
  induction c generalizing t with
  | nil => simp [plug]
  | cons f c ih =>
    cases f with
    | left a r =>
      have h := ih (node a t r)
      simp only [height, List.length_cons, plug] at h ⊢
      omega
    | right a l =>
      have h := ih (node a l t)
      simp only [height, List.length_cons, plug] at h ⊢
      omega

theorem plug_append (c c' : List (Frame α)) (t : BinaryTree α) : plug (c ++ c') t = plug c' (plug c t) := by
  induction c generalizing t with
  | nil => rfl
  | cons f c ih => cases f <;> exact ih _

/-- A tree the nodes of which are balanced, each at its position. -/
theorem balanced_of_plug {t : BinaryTree α}
    (h : ∀ c a l r, t = plug c (node a l r) → l.height ≤ r.height + 1 ∧ r.height ≤ l.height + 1) : t.Balanced := by
  induction t with
  | nil => trivial
  | node a l r hl hr =>
    refine ⟨h [] a l r rfl, hl fun c b s u hs => ?_, hr fun c b s u hs => ?_⟩
    · exact h (c ++ [.left a r]) b s u (by rw [plug_append, ← hs]; rfl)
    · exact h (c ++ [.right a l]) b s u (by rw [plug_append, ← hs]; rfl)

theorem plug_inj {c : List (Frame α)} {t t' : BinaryTree α} (h : plug c t = plug c t') : t = t' := by
  induction c generalizing t t' with
  | nil => exact h
  | cons f c ih =>
    cases f with
    | left a r => exact (node.inj (ih h)).2.1
    | right a l => exact (node.inj (ih h)).2.2

theorem before_append (c c' : List (Frame α)) : before (c ++ c') = before c' ++ before c := by
  induction c with
  | nil => simp [before]
  | cons f c ih => cases f <;> simp [before, ih]

theorem after_append (c c' : List (Frame α)) : after (c ++ c') = after c ++ after c' := by
  induction c with
  | nil => rfl
  | cons f c ih => cases f <;> simp [after, ih]

/-- The position of an entry. -/
theorem exists_plug_of_mem {a : α} {t : BinaryTree α} (h : a ∈ t.inorder) : ∃ c l r, t = plug c (node a l r) := by
  induction t with
  | nil => simp at h
  | node b s u hs hu =>
    rw [inorder_node, List.mem_append, List.mem_cons] at h
    rcases h with h | rfl | h
    · obtain ⟨c, l, r, rfl⟩ := hs h
      exact ⟨c ++ [.left b u], l, r, by rw [plug_append, plug, plug]⟩
    · exact ⟨[], s, u, rfl⟩
    · obtain ⟨c, l, r, rfl⟩ := hu h
      exact ⟨c ++ [.right b s], l, r, by rw [plug_append, plug, plug]⟩

/-- What is at a position is not empty, and neither is the tree. -/
theorem plug_node (c : List (Frame α)) (a : α) (l r : BinaryTree α) : ∃ b s u, plug c (node a l r) = node b s u := by
  induction c generalizing a l r with
  | nil => exact ⟨a, l, r, rfl⟩
  | cons f c ih => cases f <;> exact ih _ _ _

/-- A path that goes to the left at every step. -/
def AllLeft : List (Frame α) → Prop
  | [] => True
  | .left _ _ :: c => AllLeft c
  | .right _ _ :: _ => False

theorem AllLeft.before_eq {c : List (Frame α)} (h : AllLeft c) : before c = [] := by
  induction c with
  | nil => rfl
  | cons f c ih =>
    cases f with
    | left a r => exact ih h
    | right a l => exact h.elim

/-- The entry of a step plays no role for the balance. -/
theorem fits_entry (c c' : List (Frame α)) (a b : α) (l : BinaryTree α) (h : ℕ) :
    Fits (c ++ .right a l :: c') h ↔ Fits (c ++ .right b l :: c') h := by
  induction c generalizing h with
  | nil => rfl
  | cons f c ih => cases f <;> simp [Fits, ih]

end BinaryTree
