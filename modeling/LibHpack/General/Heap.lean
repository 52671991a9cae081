import Mathlib.Algebra.Order.Group.Multiset
import LibHpack.General.Run

/-!
# LibHpack.General.Heap — programs over a heap of records, and what they own

A heap maps addresses to records; a pointer is an address or null.  `read` and `modify` fail with a fault of the caller's
choice when the pointer is null or nothing is allocated there.

`Yields ex x Q` is the postcondition of a fallible program: a result satisfies `Q`, a fault is one of those that `ex`
excuses.  `Owns h c` says that the heap consists of the cells `c`, at addresses of their own.  The rules take the cell that a
statement is about out of the sum and put it back changed: what is in the rest of the sum is unchanged by construction.
-/

universe u

namespace LibHpack.Heap

open Function

/-! ### Postconditions -/

section Yields

variable {ε : Type*} {β γ : Type u} {ex : ε → Prop}

/-- Every outcome of `x` is a result that satisfies `Q` or an excused fault. -/
def Yields (ex : ε → Prop) (x : Except ε β) (Q : β → Prop) : Prop :=
  match x with
  | .ok b => Q b
  | .error e => ex e

@[simp] theorem yields_ok {b : β} {Q : β → Prop} : Yields ex (.ok b) Q ↔ Q b := Iff.rfl

@[simp] theorem yields_error {e : ε} {Q : β → Prop} : Yields ex (.error e) Q ↔ ex e := Iff.rfl

theorem Yields.bind {x : Except ε β} {f : β → Except ε γ} {P : β → Prop} {Q : γ → Prop} (hx : Yields ex x P)
    (hf : ∀ b, P b → Yields ex (f b) Q) : Yields ex (x >>= f) Q := by
  cases x with
  | ok b => exact hf b hx
  | error e => exact hx

theorem Yields.mono {x : Except ε β} {P Q : β → Prop} (hx : Yields ex x P) (h : ∀ b, P b → Q b) : Yields ex x Q := by
  cases x with
  | ok b => exact h b hx
  | error e => exact hx

/-- A first statement whose result is known. -/
theorem Yields.then {x : Except ε β} {f : β → Except ε γ} {b : β} {Q : γ → Prop} (h : x = .ok b)
    (hf : Yields ex (f b) Q) : Yields ex (x >>= f) Q := by
  rw [h]
  exact hf

end Yields

/-! ### Heaps -/

variable {α β ε : Type*} {h : α → Option β} {c r : Multiset (α × β)} {a : α} {b : β}

/-- The record behind a pointer. -/
def read (e : ε) (h : α → Option β) (p : Option α) : Except ε β :=
  match p.bind h with
  | some b => .ok b
  | none => .error e

/-- Change the record behind a pointer. -/
def modify [DecidableEq α] (e : ε) (h : α → Option β) (p : Option α) (f : β → β) : Except ε (α → Option β) :=
  match p with
  | some a => match h a with
    | some b => .ok (update h a (some (f b)))
    | none => .error e
  | none => .error e

/-- Give back the record behind a pointer. -/
def free [DecidableEq α] (e : ε) (h : α → Option β) (p : Option α) : Except ε (α → Option β) :=
  match p with
  | some a => match h a with
    | some _ => .ok (update h a none)
    | none => .error e
  | none => .error e

/-- The heap consists of the cells `c`, at addresses that differ. -/
structure Owns (h : α → Option β) (c : Multiset (α × β)) : Prop where
  nodup : (c.map Prod.fst).Nodup
  holds : ∀ p ∈ c, h p.1 = some p.2
  only : ∀ a, h a ≠ none → a ∈ c.map Prod.fst

theorem owns_empty : Owns (fun _ => none : α → Option β) 0 := ⟨by simp, by simp, by simp⟩

theorem Owns.get (o : Owns h c) (hm : (a, b) ∈ c) : h a = some b := o.holds _ hm

theorem Owns.read (o : Owns h c) (hm : (a, b) ∈ c) (e : ε) : read e h (some a) = .ok b := by
  rw [Heap.read, Option.bind_some, o.get hm]

theorem Owns.read_head (o : Owns h ({(a, b)} + r)) (e : ε) : Heap.read e h (some a) = .ok b :=
  o.read (Multiset.mem_add.2 (.inl (Multiset.mem_singleton_self _))) e

/-- No address outside of the first cell is its address. -/
theorem Owns.notMem (o : Owns h ({(a, b)} + r)) : ∀ p ∈ r, p.1 ≠ a := by
  intro p hp hpa
  have hn := o.nodup
  rw [Multiset.map_add, Multiset.map_singleton, Multiset.singleton_add, Multiset.nodup_cons] at hn
  exact hn.1 (Multiset.mem_map.2 ⟨p, hp, hpa⟩)

variable [DecidableEq α]

theorem Owns.set (o : Owns h ({(a, b)} + r)) (b' : β) : Owns (update h a (some b')) ({(a, b')} + r) where
  nodup := by simpa using o.nodup
  holds p hp := by
    rcases Multiset.mem_add.1 hp with hp | hp
    · rw [Multiset.mem_singleton.1 hp, update_self]
    · rw [update_of_ne (o.notMem p hp)]
      exact o.holds p (Multiset.mem_add.2 (.inr hp))
  only a' ha' := by
    by_cases hne : a' = a
    · simp [hne]
    · rw [update_of_ne hne] at ha'
      simpa using o.only a' ha'

/-- Change the first cell, `p`, to `p'`. -/
theorem Owns.modify {ex : ε → Prop} {p : α × β} (o : Owns h ({p} + r)) (e : ε) (f : β → β) (p' : α × β)
    (hp : p' = (p.1, f p.2)) : Yields ex (modify e h (some p.1) f) fun h' => Owns h' ({p'} + r) := by
  obtain ⟨a, b⟩ := p
  have hget : h a = some b := o.get (by simp)
  simp only [Heap.modify, hget, yields_ok]
  rw [hp]
  exact o.set (f b)

/-- A new record, at an address that was free. -/
theorem Owns.alloc (o : Owns h c) (ha : h a = none) (b : β) : Owns (update h a (some b)) ({(a, b)} + c) := by
  have hne : ∀ p ∈ c, p.1 ≠ a := by
    intro p hp hpa
    have hh := o.holds p hp
    rw [hpa, ha] at hh
    cases hh
  refine ⟨?_, fun p hp => ?_, fun a' ha' => ?_⟩
  · rw [Multiset.map_add, Multiset.map_singleton, Multiset.singleton_add, Multiset.nodup_cons]
    refine ⟨fun hm => ?_, o.nodup⟩
    obtain ⟨p, hp, hpa⟩ := Multiset.mem_map.1 hm
    exact hne p hp hpa
  · rcases Multiset.mem_add.1 hp with hp | hp
    · rw [Multiset.mem_singleton.1 hp, update_self]
    · rw [update_of_ne (hne p hp)]
      exact o.holds p hp
  · rw [Multiset.map_add, Multiset.mem_add, Multiset.map_singleton, Multiset.mem_singleton]
    by_cases hne' : a' = a
    · exact .inl hne'
    · rw [update_of_ne hne'] at ha'
      exact .inr (o.only a' ha')

theorem Owns.free {ex : ε → Prop} (o : Owns h ({(a, b)} + r)) (e : ε) :
    Yields ex (free e h (some a)) fun h' => Owns h' r := by
  have hget : h a = some b := o.get (by simp)
  simp only [Heap.free, hget, yields_ok]
  have hn := o.nodup
  rw [Multiset.map_add, Multiset.map_singleton, Multiset.singleton_add, Multiset.nodup_cons] at hn
  refine ⟨hn.2, fun p hp => ?_, fun a' ha' => ?_⟩
  · rw [update_of_ne (o.notMem p hp)]
    exact o.holds p (Multiset.mem_add.2 (.inr hp))
  · by_cases hne : a' = a
    · rw [hne, update_self] at ha'
      exact absurd rfl ha'
    · rw [update_of_ne hne] at ha'
      simpa [hne] using o.only a' ha'

end LibHpack.Heap
