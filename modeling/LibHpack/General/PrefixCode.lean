import Mathlib.Tactic

/-!
# LibHpack.General.PrefixCode — complete prefix-free binary codes

A word is a list of bits.  In a complete prefix-free code every word is a prefix of a codeword or has one as a prefix.
`walk` decodes one bit at a time; its state is the word since the last codeword, which is a node of the code tree and
not a leaf (`Inner`).
-/

namespace LibHpack

structure PrefixCode (α : Type*) where
  bits : α → List Bool
  prefixFree : ∀ a b, bits a <+: bits b → a = b
  complete : ∀ w, ∃ a, w <+: bits a ∨ bits a <+: w

namespace PrefixCode

variable {α : Type*} (c : PrefixCode α)

open Classical in
/-- The symbol with this codeword. -/
noncomputable def symbol? (w : List Bool) : Option α :=
  if h : ∃ a, c.bits a = w then some h.choose else none

/-- One bit: a codeword is complete, or there is one more bit of one. -/
noncomputable def step (w : List Bool) (b : Bool) : Option α × List Bool :=
  match c.symbol? (w ++ [b]) with
  | some a => (some a, [])
  | none => (none, w ++ [b])

/-- The symbols that are completed, and the word after the last one. -/
noncomputable def walk : List Bool → List Bool → List α × List Bool
  | w, [] => ([], w)
  | w, b :: p => ((c.step w b).1.toList ++ (walk (c.step w b).2 p).1, (walk (c.step w b).2 p).2)

/-- A proper prefix of a codeword. -/
def Inner (w : List Bool) : Prop := ∃ a, w <+: c.bits a ∧ w ≠ c.bits a

variable {c} {a : α} {w p q : List Bool} {b : Bool} {k : ℕ}

theorem symbol?_eq_some : c.symbol? w = some a ↔ c.bits a = w := by
  unfold symbol?
  constructor
  · intro h
    split_ifs at h with hw
    cases h
    exact hw.choose_spec
  · rintro rfl
    have hex : ∃ a', c.bits a' = c.bits a := ⟨a, rfl⟩
    rw [dif_pos hex, Option.some.injEq]
    exact c.prefixFree _ _ ⟨[], (List.append_nil _).trans hex.choose_spec⟩

theorem step_symbol (h : c.bits a = w ++ [b]) : c.step w b = (some a, []) := by
  rw [step, symbol?_eq_some.mpr h]

/-- A proper prefix of a codeword is none. -/
theorem Inner.ne_bits (h : c.Inner w) (a : α) : c.bits a ≠ w := by
  obtain ⟨a', hpre, hne⟩ := h
  rintro rfl
  exact hne (congrArg c.bits (c.prefixFree a a' hpre))

theorem Inner.symbol? (h : c.Inner w) : c.symbol? w = none := by
  rw [Option.eq_none_iff_forall_ne_some]
  exact fun a ha => h.ne_bits a (symbol?_eq_some.mp ha)

theorem step_inner (h : c.Inner (w ++ [b])) : c.step w b = (none, w ++ [b]) := by
  rw [step, h.symbol?]

/-- **One more bit** completes a codeword, or leads to another proper prefix of one. -/
theorem Inner.concat (h : c.Inner w) (b : Bool) : (∃ a, c.bits a = w ++ [b]) ∨ c.Inner (w ++ [b]) := by
  obtain ⟨a, ha | ha⟩ := c.complete (w ++ [b])
  · by_cases heq : w ++ [b] = c.bits a
    · exact .inl ⟨a, heq.symm⟩
    · exact .inr ⟨a, ha, heq⟩
  · -- the codeword cannot end before this bit
    rcases List.prefix_concat_iff.mp ha with heq | hpre
    · exact .inl ⟨a, heq⟩
    · obtain ⟨a', hw, hne⟩ := h
      have := c.prefixFree a a' (hpre.trans hw)
      subst this
      exact absurd (hw.eq_of_length_le hpre.length_le) hne

/-- The root is a proper prefix when no codeword is empty. -/
theorem inner_nil (hne : ∀ a, c.bits a ≠ []) : c.Inner [] := by
  obtain ⟨a, -⟩ := c.complete []
  exact ⟨a, List.nil_prefix, (hne a).symm⟩

theorem Inner.step (hne : ∀ a, c.bits a ≠ []) (h : c.Inner w) (b : Bool) : c.Inner (c.step w b).2 := by
  rcases h.concat b with ⟨a, ha⟩ | hin
  · rw [step_symbol ha]
    exact inner_nil hne
  · rwa [step_inner hin]

/-- What a proper prefix of a codeword begins with is one too. -/
theorem Inner.of_append (h : c.Inner (w ++ p)) : c.Inner w := by
  obtain ⟨a, hpre, hne⟩ := h
  refine ⟨a, (List.prefix_append _ _).trans hpre, fun heq => hne ?_⟩
  exact hpre.eq_of_length_le (by rw [← heq, List.length_append]; omega)

/-- The state is always a proper prefix of a codeword. -/
theorem Inner.walk (hne : ∀ a, c.bits a ≠ []) (h : c.Inner w) (p : List Bool) : c.Inner (c.walk w p).2 := by
  induction p generalizing w with
  | nil => exact h
  | cons b p ih => exact ih (h.step hne b)

theorem walk_append (w p q : List Bool) : c.walk w (p ++ q) =
    ((c.walk w p).1 ++ (c.walk (c.walk w p).2 q).1, (c.walk (c.walk w p).2 q).2) := by
  induction p generalizing w with
  | nil => rfl
  | cons b p ih =>
    rw [List.cons_append, PrefixCode.walk, ih, PrefixCode.walk, List.append_assoc]

/-- Part of a codeword completes nothing. -/
theorem walk_inner (h : c.Inner (w ++ p)) : c.walk w p = ([], w ++ p) := by
  induction p generalizing w with
  | nil => rw [PrefixCode.walk, List.append_nil]
  | cons b p ih =>
    have happ : w ++ b :: p = w ++ [b] ++ p := by simp
    rw [happ] at h
    rw [PrefixCode.walk, step_inner h.of_append, ih h, happ]
    rfl

/-- **A codeword completes its symbol.** -/
theorem walk_bits (hne : c.bits a ≠ []) : c.walk [] (c.bits a) = ([a], []) := by
  obtain ⟨p, b, hp⟩ : ∃ p b, c.bits a = p ++ [b] := ⟨_, _, (List.dropLast_append_getLast hne).symm⟩
  have hin : c.Inner ([] ++ p) := ⟨a, ⟨[b], hp.symm⟩, fun heq => by
    have := congrArg List.length (heq.trans hp)
    simp at this⟩
  rw [hp, walk_append, walk_inner hin]
  simp [PrefixCode.walk, step_symbol hp]

/-- **Decoding undoes encoding.** -/
theorem walk_flatMap (hne : ∀ a, c.bits a ≠ []) (l : List α) (q : List Bool) :
    c.walk [] (l.flatMap c.bits ++ q) = (l ++ (c.walk [] q).1, (c.walk [] q).2) := by
  induction l with
  | nil => rfl
  | cons a l ih => rw [List.flatMap_cons, List.append_assoc, walk_append, walk_bits (hne a), ih]; rfl

/-- The codewords that are completed, and what is behind them, are the bits again. -/
theorem walk_split (w p : List Bool) : w ++ p = (c.walk w p).1.flatMap c.bits ++ (c.walk w p).2 := by
  induction p generalizing w with
  | nil => rw [PrefixCode.walk, List.flatMap_nil, List.nil_append, List.append_nil]
  | cons b p ih =>
    rw [PrefixCode.walk, PrefixCode.step]
    cases hs : c.symbol? (w ++ [b]) with
    | none =>
      have := ih (w ++ [b])
      simpa using this
    | some a =>
      have := ih []
      rw [List.nil_append] at this
      rw [Option.toList_some, List.singleton_append, List.flatMap_cons, symbol?_eq_some.mp hs, List.append_assoc, ← this,
        List.append_assoc, List.singleton_append]

/-- With few bits no codeword is completed. -/
theorem walk_short (hk : ∀ a, k ≤ (c.bits a).length) (h : w.length + p.length < k) : (c.walk w p).1 = [] := by
  induction p generalizing w with
  | nil => rfl
  | cons b p ih =>
    rw [List.length_cons] at h
    have hnone : c.symbol? (w ++ [b]) = none := by
      rw [Option.eq_none_iff_forall_ne_some]
      intro a ha
      have := hk a
      rw [symbol?_eq_some.mp ha, List.length_append, List.length_singleton] at this
      omega
    rw [PrefixCode.walk, PrefixCode.step, hnone]
    exact ih (by rw [List.length_append, List.length_singleton]; omega)

/-- With no more bits than the shortest codeword has, one is completed at most. -/
theorem walk_length_le_one (hk : ∀ a, k ≤ (c.bits a).length) (h : p.length ≤ k) : (c.walk w p).1.length ≤ 1 := by
  induction p generalizing w with
  | nil => exact Nat.zero_le 1
  | cons b p ih =>
    rw [List.length_cons] at h
    rw [PrefixCode.walk, PrefixCode.step]
    cases c.symbol? (w ++ [b]) with
    | none => exact ih (by omega)
    | some a =>
      have hrest : (c.walk [] p).1 = [] := walk_short hk (by rw [List.length_nil]; omega)
      simp [hrest]

end PrefixCode

end LibHpack
