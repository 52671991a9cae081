import LibHpack.LinkedList.Calls
import LibHpack.LinkedList.Sort

/-!
# LibHpack.LinkedList.Runs — the lists of a program, over whole runs

`Lists` says which heads there are and which entries are behind each of them; `Rep` says that the memory holds these lists
and that no entry is in two of them.  Every call joins ends of segments of rings (`linked_append`), and leaves alone what it
does not join (`SameOutside`); so the other lists stay as they are (`Rep.set`), and a run of calls does to the sequences
what `ListStep` says.
-/

namespace LibHpack

open Run Function

variable {α : Type}

namespace ListHeap

/-- The links of the entries outside of `S` are the same. -/
def SameOutside (S : α → Prop) (h h' : ListHeap α) : Prop := ∀ a, ¬ S a → h'.next a = h.next a ∧ h'.prev a = h.prev a

variable {h h' : ListHeap α} {a b e x y : α} {A B l r ns : List α} {S : α → Prop}

theorem SameOutside.trans {h₁ : ListHeap α} (hs : SameOutside S h h₁) (hs' : SameOutside S h₁ h') : SameOutside S h h' :=
  fun a ha => ⟨(hs' a ha).1.trans (hs a ha).1, (hs' a ha).2.trans (hs a ha).2⟩

/-- A chain keeps its links when those between its entries are kept. -/
theorem linked_congr (hl : l.IsChain h.Linked) (hnext : ∀ a ∈ l.dropLast, h'.next a = h.next a)
    (hprev : ∀ b ∈ l.tail, h'.prev b = h.prev b) : l.IsChain h'.Linked := by
  induction l with
  | nil => exact .nil
  | cons a l ih =>
    cases l with
    | nil => exact .singleton a
    | cons b l =>
      rw [List.isChain_cons_cons] at hl ⊢
      rw [List.dropLast_cons_cons] at hnext
      refine ⟨⟨?_, ?_⟩, ih hl.2 (fun c hc => hnext c (List.mem_cons_of_mem a hc))
        (fun c hc => hprev c (List.mem_of_mem_tail hc))⟩
      · rw [hnext a List.mem_cons_self]
        exact hl.1.1
      · rw [hprev b List.mem_cons_self]
        exact hl.1.2

theorem Circular.next_prev (hc : h.Circular a ns) : ((a :: ns).Nodup ∧ (ns ++ [a]).Nodup) ∧
    (a :: ns).IsChain h.Linked ∧ (ns ++ [a]).IsChain h.Linked := by
  have hnodup := hc.nodup
  refine ⟨⟨hnodup, ?_⟩, hc.linked.left_of_append, hc.linked.tail⟩
  rw [List.nodup_append_comm]
  exact hnodup

theorem Circular.frame (hc : h.Circular a ns) (hs : SameOutside S h h') (hS : ∀ x ∈ a :: ns, ¬ S x) : h'.Circular a ns where
  nodup := hc.nodup
  linked := by
    apply linked_congr hc.linked
    · intro x hx
      rw [List.dropLast_concat] at hx
      exact (hs x (hS x hx)).1
    · intro x hx
      have hmem : x ∈ a :: ns := by
        rw [List.cons_append, List.tail_cons, List.mem_append, List.mem_singleton] at hx
        exact List.mem_cons.2 hx.symm
      exact (hs x (hS x hmem)).2

theorem SameOutside.refl (h : ListHeap α) : SameOutside S h h := fun _ _ => ⟨rfl, rfl⟩

/-- The entry behind the head, and the one in front of it. -/
theorem Circular.next_head (hc : h.Circular a ns) : (ns ++ [a]).head? = some (h.next a) := by
  cases ns with
  | nil => exact congrArg some (List.isChain_pair.1 hc.linked).1.symm
  | cons b ns => exact congrArg some (List.isChain_cons_cons.1 hc.linked).1.1.symm

theorem Circular.prev_head (hc : h.Circular a ns) : h.prev a = (a :: ns).getLast? := by
  obtain ⟨A, x, hA⟩ := (List.eq_nil_or_concat' (a :: ns)).resolve_left (List.cons_ne_nil a ns)
  have hlinked := hc.linked
  rw [hA, List.append_assoc, List.singleton_append, List.isChain_split, List.isChain_pair] at hlinked
  rw [hA, List.getLast?_concat]
  exact hlinked.2.2

/-- The entry behind the first one. -/
theorem leads_head {b : α} (hl : (b :: l ++ [a]).IsChain h.Leads) : (l ++ [a]).head? = some (h.next b) := by
  cases l with
  | nil => exact congrArg some (List.isChain_pair.1 hl).symm
  | cons c l => exact congrArg some (List.isChain_cons_cons.1 hl).1.symm

/-- Links that only lead forwards, of entries that a call does not touch. -/
theorem SameOutside.leads (hs : SameOutside S h h') (hl : (l ++ [a]).IsChain h.Leads) (hS : ∀ x ∈ l, ¬ S x) :
    (l ++ [a]).IsChain h'.Leads :=
  isChain_concat_imp hl fun b hb _ _ hbc => ((hs b (hS b hb)).1).trans hbc

section Join

variable [DecidableEq α]

theorem SameOutside.setNext (hs : SameOutside S h h') (hx : S x) (y : α) : SameOutside S h (h'.setNext x y) := by
  intro a ha
  have hne : a ≠ x := fun heq => ha (heq ▸ hx)
  exact ⟨(setNext_next_of_ne hne).trans (hs a ha).1, (hs a ha).2⟩

theorem SameOutside.setPrev (hs : SameOutside S h h') (hy : S y) (o : Option α) : SameOutside S h (h'.setPrev y o) := by
  intro a ha
  have hne : a ≠ y := fun heq => ha (heq ▸ hy)
  exact ⟨(hs a ha).1, (setPrev_prev_of_ne hne).trans (hs a ha).2⟩

/-- **Joining** the end of one chain to the beginning of another one. -/
theorem linked_append (hA : A.IsChain h.Linked) (hB : B.IsChain h.Linked) (hx : A.getLast? = some x) (hy : B.head? = some y)
    (hnA : A.Nodup) (hnB : B.Nodup) (hxB : x ∉ B.dropLast) (hyA : y ∉ A.tail) :
    (A ++ B).IsChain ((h.setPrev y (some x)).setNext x y).Linked := by
  rw [List.isChain_append]
  refine ⟨?_, ?_, ?_⟩
  · obtain ⟨A, rfl⟩ := List.getLast?_eq_some_iff.1 hx
    have hxA : x ∉ A := fun hmem => (List.nodup_append.1 hnA).2.2 x hmem x List.mem_cons_self rfl
    apply linked_congr hA
    · intro a ha
      rw [List.dropLast_concat] at ha
      exact setNext_next_of_ne fun heq => hxA (heq ▸ ha)
    · exact fun b hb => setPrev_prev_of_ne fun heq => hyA (heq ▸ hb)
  · obtain ⟨B, rfl⟩ := List.head?_eq_some_iff.1 hy
    apply linked_congr hB
    · exact fun a ha => setNext_next_of_ne fun heq => hxB (heq ▸ ha)
    · intro b hb
      exact setPrev_prev_of_ne fun heq => (List.nodup_cons.1 hnB).1 (heq ▸ hb)
  · intro x' hx' y' hy'
    rw [hx] at hx'
    rw [hy] at hy'
    cases hx'
    cases hy'
    exact ⟨setNext_next, setPrev_prev⟩

/-! ### The calls -/

theorem initListHead_circular (h : ListHeap α) (a : α) : (h.initListHead a).Circular a [] where
  nodup := List.nodup_singleton a
  linked := by
    rw [List.singleton_append, List.isChain_pair]
    exact ⟨setNext_next, setPrev_prev⟩

theorem initListHead_same (h : ListHeap α) (ha : S a) : SameOutside S h (h.initListHead a) :=
  ((SameOutside.refl h).setNext ha a).setPrev ha (some a)

theorem chulaListEmpty_eq (hc : h.Circular a ns) : h.chulaListEmpty a = ns.isEmpty := by
  have hhead := hc.next_head
  rw [chulaListEmpty]
  cases ns with
  | nil =>
    rw [← Option.some.inj hhead]
    simp
  | cons b ns =>
    have hne : b ≠ a := fun heq => (List.nodup_cons.1 hc.nodup).1 (heq ▸ List.mem_cons_self)
    rw [← Option.some.inj hhead]
    simp [hne]

/-- **Adding** at the beginning. -/
theorem chulaListAdd_circular (hc : h.Circular a ns) (he : e ∉ a :: ns) : (h.chulaListAdd e a).Circular a (e :: ns) ∧
    ∀ S : α → Prop, (∀ x ∈ a :: e :: ns, S x) → SameOutside S h (h.chulaListAdd e a) := by
  obtain ⟨⟨hnodup, hnodup'⟩, -, hchain⟩ := hc.next_prev
  have hhead := hc.next_head
  have hea : e ≠ a := fun heq => he (heq ▸ List.mem_cons_self)
  have hens : e ∉ ns := fun hmem => he (List.mem_cons_of_mem a hmem)
  generalize hy : h.next a = y at hhead
  have hymem : y ∈ ns ++ [a] := List.mem_of_mem_head? hhead
  have hey : e ≠ y := by
    rintro rfl
    rw [List.mem_append, List.mem_singleton] at hymem
    exact hymem.elim hens hea
  have hnodup2 : (e :: (ns ++ [a])).Nodup := by
    rw [List.nodup_cons, List.mem_append, List.mem_singleton]
    exact ⟨fun h' => h'.elim hens hea, hnodup'⟩
  have hnext : ((h.setNext e y).setPrev e (some a)).next a = y := by
    rw [setPrev_next, setNext_next_of_ne hea.symm, hy]
  have hcall : h.chulaListAdd e a =
      ((((h.setPrev y (some e)).setNext e y).setPrev e (some a)).setNext a e) := by
    rw [chulaListAdd, hy, hnext]
    exact congrArg (ListHeap.mk _) (update_comm hey _ _ _)
  have h1 := linked_append (h := h) (A := [e]) (.singleton e) hchain rfl hhead (List.nodup_singleton e) hnodup'
    (by rw [List.dropLast_concat]; exact hens) List.not_mem_nil
  have h2 := linked_append (A := [a]) (.singleton a) h1 rfl rfl (List.nodup_singleton a) hnodup2
    (by
      rw [← List.append_assoc, List.dropLast_concat]
      exact fun hmem => (List.mem_cons.1 hmem).elim hea.symm (List.nodup_cons.1 hnodup).1) List.not_mem_nil
  rw [hcall]
  refine ⟨⟨?_, h2⟩, fun S hS => ?_⟩
  · rw [List.nodup_cons, List.mem_cons]
    exact ⟨fun hmem => hmem.elim hea.symm (List.nodup_cons.1 hnodup).1, List.nodup_cons.2 ⟨hens, (List.nodup_cons.1 hnodup).2⟩⟩
  · have hSy : S y := by
      rw [List.mem_append, List.mem_singleton] at hymem
      rcases hymem with hmem | rfl
      · exact hS y (List.mem_cons_of_mem _ (List.mem_cons_of_mem _ hmem))
      · exact hS y List.mem_cons_self
    have hSe : S e := hS e (List.mem_cons_of_mem _ List.mem_cons_self)
    exact ((((SameOutside.refl h).setPrev hSy _).setNext hSe _).setPrev hSe _).setNext (hS a List.mem_cons_self) _

/-- **Adding** at the end. -/
theorem chulaListAddTail_circular (hc : h.Circular a ns) (he : e ∉ a :: ns) :
    ∃ h', h.chulaListAddTail e a = .ok h' ∧ h'.Circular a (ns ++ [e]) ∧
      ∀ S : α → Prop, (∀ x ∈ a :: (ns ++ [e]), S x) → SameOutside S h h' := by
  obtain ⟨⟨hnodup, -⟩, hchain, -⟩ := hc.next_prev
  have hlast := hc.prev_head
  have hea : e ≠ a := fun heq => he (heq ▸ List.mem_cons_self)
  have hens : e ∉ ns := fun hmem => he (List.mem_cons_of_mem a hmem)
  obtain ⟨A, x, hA⟩ := (List.eq_nil_or_concat' (a :: ns)).resolve_left (List.cons_ne_nil a ns)
  have hlast' : (a :: ns).getLast? = some x := by rw [hA, List.getLast?_concat]
  have hxmem : x ∈ a :: ns := List.mem_of_getLast? hlast'
  have hex : e ≠ x := fun heq => he (heq ▸ hxmem)
  have hnodup2 : (a :: ns ++ [e]).Nodup := by
    rw [List.nodup_append_comm, List.singleton_append, List.nodup_cons]
    exact ⟨he, hnodup⟩
  have hprev : ((h.setNext e a).setPrev e ((h.setNext e a).prev a)).prev a = some x := by
    rw [setPrev_prev_of_ne hea.symm, setNext_prev, hlast, hlast']
  have hcall : h.chulaListAddTail e a = .ok ((((h.setPrev e (some x)).setNext x e).setPrev a (some e)).setNext e a) := by
    rw [chulaListAddTail, hprev, setNext_prev, hlast, hlast']
    exact congrArg (fun next => Except.ok (ListHeap.mk next _)) (update_comm hex _ _ _)
  have h1 := linked_append (h := h) (B := [e]) hchain (.singleton e) hlast' rfl hnodup (List.nodup_singleton e)
    List.not_mem_nil hens
  have h2 := linked_append (B := [a]) h1 (.singleton a) List.getLast?_concat rfl hnodup2 (List.nodup_singleton a)
    List.not_mem_nil (by
      rw [List.cons_append, List.tail_cons]
      rw [List.cons_append, List.nodup_cons] at hnodup2
      exact hnodup2.1)
  refine ⟨_, hcall, ⟨hnodup2, h2⟩, fun S hS => ?_⟩
  have hSx : S x := hS x (List.mem_append_left [e] hxmem)
  have hSe : S e := hS e (List.mem_cons_of_mem a (List.mem_append_right ns List.mem_cons_self))
  exact ((((SameOutside.refl h).setPrev hSe _).setNext hSx _).setPrev (hS a List.mem_cons_self) _).setNext hSe _

/-- **Deleting** an entry, wherever it is. -/
theorem chulaListDel_entry (hc : h.Circular a (l ++ e :: r)) :
    ∃ h', h.chulaListDel e = .ok h' ∧ h'.Circular a (l ++ r) ∧
      ∀ S : α → Prop, (∀ x ∈ a :: (l ++ e :: r), S x) → SameOutside S h h' := by
  have hlinked := hc.linked
  have hnodup := hc.nodup
  rw [← List.cons_append, List.append_assoc, List.isChain_append] at hlinked
  obtain ⟨hleft, hright, hmid⟩ := hlinked
  rw [List.cons_append] at hright
  obtain ⟨A, x, hA⟩ := (List.eq_nil_or_concat' (a :: l)).resolve_left (List.cons_ne_nil a l)
  obtain ⟨y, B, hB⟩ : ∃ y B, r ++ [a] = y :: B := by
    cases r with
    | nil => exact ⟨a, [], rfl⟩
    | cons y r => exact ⟨y, r ++ [a], rfl⟩
  have hlast : (a :: l).getLast? = some x := by rw [hA, List.getLast?_concat]
  have hhead : (r ++ [a]).head? = some y := by rw [hB, List.head?_cons]
  have hprev : h.prev e = some x := (hmid x hlast e rfl).2
  have hnext : h.next e = y := by
    rw [hB, List.isChain_cons_cons] at hright
    exact hright.1.1
  have hxmem : x ∈ a :: l := List.mem_of_getLast? hlast
  have hymem : y ∈ r ++ [a] := List.mem_of_mem_head? hhead
  -- the entries of the two segments, and that they differ
  rw [← List.cons_append, List.nodup_append] at hnodup
  obtain ⟨hnl, hnr, hdisj⟩ := hnodup
  have hnr' : r.Nodup := (List.nodup_cons.1 hnr).2
  have har : a ∉ r := fun hmem => hdisj a List.mem_cons_self a (List.mem_cons_of_mem e hmem) rfl
  have hnra : (r ++ [a]).Nodup := by
    rw [List.nodup_append_comm, List.singleton_append, List.nodup_cons]
    exact ⟨har, hnr'⟩
  have hxr : x ∉ r := fun hmem => hdisj x hxmem x (List.mem_cons_of_mem e hmem) rfl
  have hyl : y ∉ l := by
    rw [List.mem_append, List.mem_singleton] at hymem
    rcases hymem with hmem | rfl
    · exact fun hl => hdisj y (List.mem_cons_of_mem a hl) y (List.mem_cons_of_mem e hmem) rfl
    · exact (List.nodup_cons.1 hnl).1
  have hjoin := linked_append hleft hright.tail hlast hhead hnl hnra (by rw [List.tail_cons, List.dropLast_concat]; exact hxr) hyl
  have hcall : h.chulaListDel e = .ok ((h.setPrev y (some x)).setNext x y) := by
    rw [chulaListDel, hprev, hnext]
    by_cases hey : e = y
    · rw [hey, setPrev_prev, setPrev_next, ← hey, hnext, hey]
    · rw [setPrev_prev_of_ne hey, hprev, setPrev_next, hnext]
  refine ⟨_, hcall, ⟨?_, ?_⟩, fun S hS => ?_⟩
  · rw [← List.cons_append, List.nodup_append]
    exact ⟨hnl, hnr', fun b hb c hc => hdisj b hb c (List.mem_cons_of_mem e hc)⟩
  · rw [← List.cons_append, List.append_assoc]
    exact hjoin
  · have hSx : S x := hS x (List.mem_append_left (e :: r) hxmem)
    have hSy : S y := by
      rw [List.mem_append, List.mem_singleton] at hymem
      rcases hymem with hmem | rfl
      · exact hS y (List.mem_cons_of_mem a (List.mem_append_right l (List.mem_cons_of_mem e hmem)))
      · exact hS y List.mem_cons_self
    exact ((SameOutside.refl h).setPrev hSy _).setNext hSx _

/-- **A new head** for the entries of a list that has some. -/
theorem chulaListReparent_circular (hc : h.Circular a ns) (hne : ns ≠ []) (he : e ∉ ns) :
    ∃ h', h.chulaListReparent a e = .ok h' ∧ h'.Circular e ns ∧
      ∀ S : α → Prop, (∀ x ∈ e :: ns, S x) → SameOutside S h h' := by
  have hempty := chulaListEmpty_eq hc
  have hnodup : ns.Nodup := (List.nodup_cons.1 hc.nodup).2
  obtain ⟨A, x, hA⟩ := (List.eq_nil_or_concat' ns).resolve_left hne
  obtain ⟨y, B, hB⟩ := List.exists_cons_of_ne_nil hne
  have hchain : ns.IsChain h.Linked := hc.linked.left_of_append.tail
  have hhead : ns.head? = some y := by rw [hB, List.head?_cons]
  have hlast : ns.getLast? = some x := by rw [hA, List.getLast?_concat]
  have hymem : y ∈ ns := List.mem_of_mem_head? hhead
  have hxmem : x ∈ ns := List.mem_of_getLast? hlast
  have hey : y ≠ e := fun heq => he (heq ▸ hymem)
  have hex : e ≠ x := fun heq => he (heq ▸ hxmem)
  have hnext : h.next a = y := by
    have hnext := hc.next_head
    rw [List.head?_append, hhead, Option.some_or, Option.some.injEq] at hnext
    exact hnext.symm
  have hprev : h.prev a = some x := by rw [hc.prev_head, List.getLast?_cons_of_ne_nil hne, hlast]
  have h1 := linked_append (h := h) (A := [e]) (.singleton e) hchain rfl hhead (List.nodup_singleton e) hnodup
    (fun hmem => he (List.mem_of_mem_dropLast hmem)) List.not_mem_nil
  have h2 := linked_append (B := [e]) h1 (.singleton e) (by rw [List.singleton_append, List.getLast?_cons_of_ne_nil hne, hlast])
    rfl (List.nodup_cons.2 ⟨he, hnodup⟩) (List.nodup_singleton e) List.not_mem_nil he
  have hcall : h.chulaListReparent a e =
      .ok ((((h.setPrev y (some e)).setNext e y).setPrev e (some x)).setNext x e) := by
    have hfirst : (((h.setNext e y).setPrev e (some x)).setNext x e).next e = y := by
      rw [setNext_next_of_ne hex, setPrev_next, setNext_next]
    rw [chulaListReparent, hempty, hB, List.isEmpty_cons, if_neg Bool.false_ne_true, hnext]
    dsimp only
    rw [setNext_prev, hprev, setPrev_prev]
    dsimp only
    rw [hfirst]
    exact congrArg (fun prev => Except.ok (ListHeap.mk _ prev)) (update_comm hey.symm _ _ _)
  refine ⟨_, hcall, ⟨List.nodup_cons.2 ⟨he, hnodup⟩, h2⟩, fun S hS => ?_⟩
  have hSe : S e := hS e List.mem_cons_self
  have hSx : S x := hS x (List.mem_cons_of_mem e hxmem)
  have hSy : S y := hS y (List.mem_cons_of_mem e hymem)
  exact ((((SameOutside.refl h).setPrev hSy _).setNext hSe _).setPrev hSe _).setNext hSx _

/-! ### Loops over the entries -/

/-- A walk over the links from an entry on to the head. -/
theorem listForEach_eq (turns : ℕ) (l : List α) (hl : (l ++ [a]).IsChain h.Leads) (ha : a ∉ l) (hturns : l.length < turns) :
    ∀ x, (l ++ [a]).head? = some x → h.listForEach a turns x = .ok l := by
  induction l generalizing turns with
  | nil =>
    rintro x hx
    obtain ⟨turns, rfl⟩ := Nat.exists_eq_add_of_lt hturns
    cases hx
    rw [listForEach, if_pos rfl]
  | cons b l ih =>
    rintro x hx
    obtain ⟨turns, rfl⟩ : ∃ k, turns = k + 1 := ⟨turns - 1, by rw [List.length_cons] at hturns; omega⟩
    cases hx
    rw [List.mem_cons, not_or] at ha
    rw [List.length_cons, Nat.add_lt_add_iff_right] at hturns
    have hnext := leads_head hl
    rw [listForEach, if_neg (Ne.symm ha.1), ok_then (ih turns hl.tail ha.2 hturns _ hnext)]

/-- The number of entries, as far as 32 bits hold it. -/
theorem getLenLoop_eq (turns n : ℕ) (l : List α) (hl : (l ++ [a]).IsChain h.Leads) (ha : a ∉ l) (hturns : l.length < turns) :
    ∀ x, (l ++ [a]).head? = some x → h.getLenLoop a turns x (n % 2 ^ 32) = .ok ((n + l.length) % 2 ^ 32) := by
  induction l generalizing turns n with
  | nil =>
    rintro x hx
    obtain ⟨turns, rfl⟩ := Nat.exists_eq_add_of_lt hturns
    cases hx
    rw [getLenLoop, if_pos rfl, List.length_nil, Nat.add_zero]
  | cons b l ih =>
    rintro x hx
    obtain ⟨turns, rfl⟩ : ∃ k, turns = k + 1 := ⟨turns - 1, by rw [List.length_cons] at hturns; omega⟩
    cases hx
    rw [List.mem_cons, not_or] at ha
    rw [List.length_cons, Nat.add_lt_add_iff_right] at hturns
    have hnext := leads_head hl
    rw [getLenLoop, if_neg (Ne.symm ha.1), Nat.mod_add_mod, ih turns (n + 1) hl.tail ha.2 hturns _ hnext, List.length_cons,
      Nat.add_assoc, Nat.add_comm 1]

/-- **The loop of the inversion**: what it has come past is in the new list, the last entry first. -/
theorem invertLoop_circular {d : α} (turns : ℕ) (h : ListHeap α) (D R : List α) (i tmp : α) (hc : h.Circular d D)
    (hl : (R ++ [a]).IsChain h.Leads) (hnodup : (d :: D ++ R).Nodup) (ha : a ∉ d :: D ++ R)
    (hi : (R ++ [a]).head? = some i) (htmp : R ≠ [] → tmp = h.next i) (hturns : R.length < turns) :
    ∃ h', invertLoop a d turns h i tmp = .ok h' ∧ h'.Circular d (R.reverse ++ D) ∧
      ∀ S : α → Prop, (∀ x ∈ d :: D ++ R, S x) → SameOutside S h h' := by
  induction R generalizing turns h D i tmp with
  | nil =>
    obtain ⟨turns, rfl⟩ := Nat.exists_eq_add_of_lt hturns
    cases hi
    exact ⟨h, by rw [invertLoop, if_pos rfl], hc, fun S _ => SameOutside.refl h⟩
  | cons e R ih =>
    obtain ⟨turns, rfl⟩ : ∃ k, turns = k + 1 := ⟨turns - 1, by rw [List.length_cons] at hturns; omega⟩
    cases hi
    have htmp := htmp (List.cons_ne_nil e R)
    have hea : e ≠ a := fun heq => ha (heq ▸ List.mem_append_right _ List.mem_cons_self)
    have hnodup' := List.nodup_append.1 hnodup
    have hnotR : ∀ x ∈ d :: e :: D, x ∉ R := by
      intro x hx hxR
      rcases List.mem_cons.1 hx with rfl | hx
      · exact hnodup'.2.2 x List.mem_cons_self x (List.mem_cons_of_mem e hxR) rfl
      rcases List.mem_cons.1 hx with rfl | hx
      · exact (List.nodup_cons.1 hnodup'.2.1).1 hxR
      · exact hnodup'.2.2 x (List.mem_cons_of_mem d hx) x (List.mem_cons_of_mem e hxR) rfl
    have he : e ∉ d :: D := fun hmem => hnodup'.2.2 e hmem e List.mem_cons_self rfl
    obtain ⟨hc1, hsame1⟩ := chulaListAdd_circular hc he
    have hsame := hsame1 (· ∈ d :: e :: D) fun _ hx => hx
    have hl1 := hsame.leads (l := R) hl.tail fun x hx hmem => hnotR x hmem hx
    have hperm : (d :: e :: D ++ R).Perm (d :: D ++ e :: R) := by
      rw [List.cons_append, List.cons_append, List.cons_append]
      exact (List.perm_middle.symm).cons d
    have hhead : (R ++ [a]).head? = some tmp := by rw [htmp]; exact leads_head hl
    obtain ⟨h', hloop, hc', hsame'⟩ := ih turns _ (e :: D) tmp _ hc1 hl1 (hperm.nodup_iff.2 hnodup)
      (fun hmem => ha (hperm.mem_iff.1 hmem)) hhead (fun _ => rfl)
      (by rw [List.length_cons] at hturns; omega)
    refine ⟨h', ?_, ?_, fun S hS => ?_⟩
    · rw [invertLoop, if_neg hea]
      exact hloop
    · rw [List.reverse_cons, List.append_assoc, List.singleton_append]
      exact hc'
    · have hS' : ∀ x ∈ d :: e :: D ++ R, S x := fun x hx => hS x (hperm.mem_iff.1 hx)
      exact (hsame1 S fun x hx => hS' x (List.mem_append_left R hx)).trans (hsame' S hS')

/-- **Inverting** a list, by way of a list that is a local variable. -/
theorem chulaListInvert_circular {d : α} {turns : ℕ} (hc : h.Circular a ns) (hd : d ∉ a :: ns) (hturns : ns.length < turns) :
    ∃ h', chulaListInvert turns h a d = .ok h' ∧ h'.Circular a ns.reverse ∧
      ∀ S : α → Prop, (∀ x ∈ d :: a :: ns, S x) → SameOutside S h h' := by
  obtain ⟨ha, hns⟩ := List.nodup_cons.1 hc.nodup
  have had : a ≠ d := fun heq => hd (heq ▸ List.mem_cons_self)
  have hsame0 : SameOutside (· = d) h (h.initListHead d) := initListHead_same h rfl
  have hc0 := hc.frame hsame0 fun x hx heq => hd (heq ▸ hx)
  have hl0 : (ns ++ [a]).IsChain (h.initListHead d).Leads := hc0.linked.tail.imp fun _ _ hlinked => hlinked.1
  have hnodup : (d :: [] ++ ns).Nodup := List.nodup_cons.2 ⟨fun hmem => hd (List.mem_cons_of_mem a hmem), hns⟩
  have hmem : a ∉ d :: [] ++ ns := fun hmem => (List.mem_cons.1 hmem).elim had ha
  obtain ⟨h1, hloop, hc1, hsame1⟩ := invertLoop_circular turns _ [] ns _ _ (initListHead_circular h d) hl0 hnodup hmem
    hc0.next_head (fun _ => rfl) hturns
  rw [List.append_nil] at hc1
  have hinit : ∀ S : α → Prop, (∀ x ∈ d :: a :: ns, S x) → SameOutside S h h1 := fun S hS =>
    (initListHead_same h (hS d List.mem_cons_self)).trans (hsame1 S fun x hx =>
      hS x ((List.mem_cons.1 hx).elim (fun heq => heq ▸ List.mem_cons_self)
        fun hx => List.mem_cons_of_mem d (List.mem_cons_of_mem a hx)))
  rw [chulaListInvert, ok_then hloop]
  by_cases hne : ns = []
  · subst hne
    refine ⟨h1, ?_, ?_, hinit⟩
    · rw [chulaListReparent, chulaListEmpty_eq hc1]
      rfl
    · exact hc0.frame (hsame1 (· = d) fun x hx => List.mem_singleton.1 hx) fun x hx heq => hd (heq ▸ hx)
  · have hne' : ns.reverse ≠ [] := fun hnil => hne (List.reverse_eq_nil_iff.1 hnil)
    obtain ⟨h', hcall, hc', hsame'⟩ := chulaListReparent_circular hc1 hne' fun hmem => ha (List.mem_reverse.1 hmem)
    refine ⟨h', hcall, hc', fun S hS => (hinit S hS).trans (hsame' S fun x hx => hS x ?_)⟩
    rw [List.mem_cons, List.mem_reverse] at hx
    exact List.mem_cons_of_mem d (List.mem_cons.2 hx)

end Join

end ListHeap

/-! ### All lists of a program -/

/-- The entries behind each head that there is. -/
abbrev Lists (α : Type) := α → Option (List α)

/-- `x` is in none of the lists, except perhaps in the one at `a`. -/
def OffOthers (L : Lists α) (a x : α) : Prop := ∀ b ms, L b = some ms → b ≠ a → x ∉ b :: ms

/-- `x` is in none of the lists. -/
def Unused (L : Lists α) (x : α) : Prop := ∀ b ms, L b = some ms → x ∉ b :: ms

/-- The memory holds the lists. -/
structure Rep (h : ListHeap α) (L : Lists α) : Prop where
  ring : ∀ a ns, L a = some ns → h.Circular a ns
  apart : ∀ a ns, L a = some ns → ∀ x ∈ a :: ns, OffOthers L a x

/-- What a call says about sequences, and when a program may use it: an entry that is added is in no list, one that is
deleted is in some list, and so on. -/
inductive ListStep [DecidableEq α] : Lists α → ListOp α → Lists α → Prop
  | init {L : Lists α} {a : α} (ha : Unused L a) : ListStep L (.init a) (update L a (some []))
  | add {L : Lists α} {a e : α} {ns : List α} (hL : L a = some ns) (he : Unused L e) :
      ListStep L (.add e a) (update L a (some (e :: ns)))
  | addTail {L : Lists α} {a e : α} {ns : List α} (hL : L a = some ns) (he : Unused L e) :
      ListStep L (.addTail e a) (update L a (some (ns ++ [e])))
  | del {L : Lists α} {a e : α} {l r : List α} (hL : L a = some (l ++ e :: r)) :
      ListStep L (.del e) (update L a (some (l ++ r)))
  | reparent {L : Lists α} {a e : α} {ns : List α} (hL : L a = some ns) (hne : ns ≠ []) (he : Unused L e) :
      ListStep L (.reparent a e) (update (update L a none) e (some ns))
  | reparentEmpty {L : Lists α} {a e : α} (hL : L a = some []) : ListStep L (.reparent a e) L
  | invert {L : Lists α} {a d : α} {ns : List α} (hL : L a = some ns) (hd : Unused L d) :
      ListStep L (.invert a d) (update L a (some ns.reverse))

/-- The calls of a program.  Between two of them it may stop using a list: the head and the entries are then in no list. -/
inductive ListRun [DecidableEq α] : Lists α → List (ListOp α) → Lists α → Prop
  | nil {L : Lists α} : ListRun L [] L
  | forget {L L' : Lists α} {ops : List (ListOp α)} (a : α) (hrun : ListRun (update L a none) ops L') : ListRun L ops L'
  | cons {L L₁ L' : Lists α} {op : ListOp α} {ops : List (ListOp α)} (hstep : ListStep L op L₁) (hrun : ListRun L₁ ops L') :
      ListRun L (op :: ops) L'

section Worlds

open ListHeap

variable {h h' : ListHeap α} {L L' : Lists α} {a d e x : α} {l r ns : List α}

theorem Unused.apart (hx : Unused L x) (a : α) : OffOthers L a x := fun b ms hb _ => hx b ms hb

theorem rep_none (h : ListHeap α) : Rep h fun _ => none := ⟨nofun, nofun⟩

variable [DecidableEq α]

/-- **One list is changed**, by a call that only touches what is in no other one. -/
theorem Rep.set (hr : Rep h L) (hc : h'.Circular a ns) (hs : SameOutside (OffOthers L a) h h')
    (hmem : ∀ x ∈ a :: ns, OffOthers L a x) : Rep h' (update L a (some ns)) where
  ring b ms hb := by
    by_cases hba : b = a
    · subst hba
      rw [update_self] at hb
      cases hb
      exact hc
    · rw [update_of_ne hba] at hb
      exact (hr.ring b ms hb).frame hs fun x hx hap => hap b ms hb hba hx
  apart b ms hb x hx c ks hc' hcb := by
    by_cases hba : b = a
    · subst hba
      rw [update_self] at hb
      cases hb
      rw [update_of_ne hcb] at hc'
      exact hmem x hx c ks hc' hcb
    · rw [update_of_ne hba] at hb
      by_cases hca : c = a
      · subst hca
        rw [update_self] at hc'
        cases hc'
        exact fun hx' => hmem x hx' b ms hb hba hx
      · rw [update_of_ne hca] at hc'
        exact hr.apart b ms hb x hx c ks hc' hcb

/-- A head that is no longer used as one. -/
theorem Rep.forget (hr : Rep h L) (a : α) : Rep h (update L a none) := by
  have hsub : ∀ b ms, update L a none b = some ms → L b = some ms := by
    intro b ms hb
    by_cases hba : b = a
    · rw [hba, update_self] at hb
      cases hb
    · rwa [update_of_ne hba] at hb
  exact ⟨fun b ms hb => hr.ring b ms (hsub b ms hb),
    fun b ms hb x hx c ks hc hcb => hr.apart b ms (hsub b ms hb) x hx c ks (hsub c ks hc) hcb⟩

/-- **One call**: with enough turns for its loop, it returns and does what it says. -/
theorem ListStep.exec {op : ListOp α} (hstep : ListStep L op L') :
    ∃ n, ∀ turns > n, ∀ h, Rep h L → ∃ h', op.exec turns h = .ok h' ∧ Rep h' L' := by
  cases hstep with
  | @init a ha =>
    refine ⟨0, fun turns _ h hr => ⟨_, rfl, hr.set (initListHead_circular h a) ?_ ?_⟩⟩
    · exact initListHead_same h (ha.apart a)
    · exact fun x hx => List.mem_singleton.1 hx ▸ ha.apart a
  | @add a e ns hL he =>
    refine ⟨0, fun turns _ h hr => ?_⟩
    have hmem : ∀ x ∈ a :: e :: ns, OffOthers L a x := by
      intro x hx
      rcases List.mem_cons.1 hx with rfl | hx
      · exact hr.apart x ns hL x List.mem_cons_self
      rcases List.mem_cons.1 hx with rfl | hx
      · exact he.apart a
      · exact hr.apart a ns hL x (List.mem_cons_of_mem a hx)
    obtain ⟨hc, hs⟩ := chulaListAdd_circular (hr.ring a ns hL) (he a ns hL)
    exact ⟨_, rfl, hr.set hc (hs _ hmem) hmem⟩
  | @addTail a e ns hL he =>
    refine ⟨0, fun turns _ h hr => ?_⟩
    have hmem : ∀ x ∈ a :: (ns ++ [e]), OffOthers L a x := by
      intro x hx
      rw [← List.cons_append, List.mem_append, List.mem_singleton] at hx
      rcases hx with hx | rfl
      · exact hr.apart a ns hL x hx
      · exact he.apart a
    obtain ⟨h', hcall, hc, hs⟩ := chulaListAddTail_circular (hr.ring a ns hL) (he a ns hL)
    exact ⟨h', hcall, hr.set hc (hs _ hmem) hmem⟩
  | @del a e l r hL =>
    refine ⟨0, fun turns _ h hr => ?_⟩
    obtain ⟨h', hcall, hc, hs⟩ := chulaListDel_entry (hr.ring a (l ++ e :: r) hL)
    refine ⟨h', hcall, hr.set hc (hs _ (hr.apart a _ hL)) fun x hx => hr.apart a _ hL x ?_⟩
    rcases List.mem_cons.1 hx with rfl | hx
    · exact List.mem_cons_self
    · rcases List.mem_append.1 hx with hx | hx
      · exact List.mem_cons_of_mem a (List.mem_append_left _ hx)
      · exact List.mem_cons_of_mem a (List.mem_append_right l (List.mem_cons_of_mem e hx))
  | @reparent a e ns hL hne he =>
    refine ⟨0, fun turns _ h hr => ?_⟩
    have hmem : ∀ x ∈ e :: ns, OffOthers (update L a none) e x := by
      intro x hx b ms hb _
      have hba : b ≠ a := fun heq => by
        rw [heq, update_self] at hb
        cases hb
      rw [update_of_ne hba] at hb
      rcases List.mem_cons.1 hx with rfl | hx
      · exact he b ms hb
      · exact hr.apart a ns hL x (List.mem_cons_of_mem a hx) b ms hb hba
    obtain ⟨h', hcall, hc, hs⟩ := chulaListReparent_circular (hr.ring a ns hL) hne
      fun hx => he a ns hL (List.mem_cons_of_mem a hx)
    exact ⟨h', hcall, (hr.forget a).set hc (hs _ hmem) hmem⟩
  | @reparentEmpty a e hL =>
    refine ⟨0, fun turns _ h hr => ⟨h, ?_, hr⟩⟩
    rw [ListOp.exec, chulaListReparent, chulaListEmpty_eq (hr.ring a [] hL)]
    rfl
  | @invert a d ns hL hd =>
    refine ⟨ns.length, fun turns hturns h hr => ?_⟩
    have hmem : ∀ x ∈ d :: a :: ns, OffOthers L a x := by
      intro x hx
      rcases List.mem_cons.1 hx with rfl | hx
      · exact hd.apart a
      · exact hr.apart a ns hL x hx
    obtain ⟨h', hcall, hc, hs⟩ := chulaListInvert_circular (hr.ring a ns hL) (hd a ns hL) hturns
    refine ⟨h', hcall, hr.set hc (hs _ hmem) fun x hx => hr.apart a ns hL x ?_⟩
    rwa [List.mem_cons, List.mem_reverse, ← List.mem_cons] at hx

/-- **Runs of calls.** -/
theorem ListRun.exec {ops : List (ListOp α)} (hrun : ListRun L ops L') :
    ∃ n, ∀ turns > n, ∀ h, Rep h L → ∃ h', run (ListOp.exec turns) h ops = .ok h' ∧ Rep h' L' := by
  induction hrun with
  | nil => exact ⟨0, fun turns _ h hr => ⟨h, rfl, hr⟩⟩
  | forget a _ ih =>
    obtain ⟨n, hn⟩ := ih
    exact ⟨n, fun turns hturns h hr => hn turns hturns h (hr.forget a)⟩
  | cons hstep _ ih =>
    obtain ⟨n, hn⟩ := hstep.exec
    obtain ⟨k, hk⟩ := ih
    refine ⟨max n k, fun turns hturns h hr => ?_⟩
    obtain ⟨h₁, hcall, hr₁⟩ := hn turns (lt_of_le_of_lt (le_max_left n k) hturns) h hr
    obtain ⟨h', hrest, hr'⟩ := hk turns (lt_of_le_of_lt (le_max_right n k) hturns) h₁ hr₁
    exact ⟨h', by rw [run_cons hcall, hrest], hr'⟩

/-- **The lists of a program.**  Whatever was in memory before, and whatever the program does in between with its other lists,
each list is well-formed and holds the sequence that the calls on it say; a loop over it comes to each of its entries once, in
this order, and its length is that of the sequence. -/
theorem lists_refine {ops : List (ListOp α)} (hrun : ListRun (fun _ => none) ops L) (h : ListHeap α) :
    ∃ n, ∀ turns > n, ∃ h', run (ListOp.exec turns) h ops = .ok h' ∧ ∀ a ns, L a = some ns →
      h'.Circular a ns ∧ (h'.chulaListEmpty a = true ↔ ns = []) ∧ ∀ k > ns.length,
        h'.listForEach a k (h'.next a) = .ok ns ∧ h'.chulaListGetLen k a = .ok (ns.length % 2 ^ 32) := by
  obtain ⟨n, hn⟩ := hrun.exec
  refine ⟨n, fun turns hturns => ?_⟩
  obtain ⟨h', hcalls, hr⟩ := hn turns hturns h (rep_none h)
  refine ⟨h', hcalls, fun a ns hL => ?_⟩
  have hc := hr.ring a ns hL
  have hleads : (ns ++ [a]).IsChain h'.Leads := hc.linked.tail.imp fun _ _ hlinked => hlinked.1
  have ha : a ∉ ns := (List.nodup_cons.1 hc.nodup).1
  refine ⟨hc, ?_, fun k hk => ⟨listForEach_eq k ns hleads ha hk _ hc.next_head, ?_⟩⟩
  · rw [chulaListEmpty_eq hc, List.isEmpty_iff]
  · have hlen := getLenLoop_eq k 0 ns hleads ha hk _ hc.next_head
    rwa [Nat.zero_mod, Nat.zero_add] at hlen

theorem Unused.set (hx : Unused L x) (hne : x ∉ a :: ns) : Unused (update L a (some ns)) x := by
  intro b ms hb
  by_cases hba : b = a
  · subst hba
    rw [update_self] at hb
    cases hb
    exact hne
  · rw [update_of_ne hba] at hb
    exact hx b ms hb

theorem Unused.forget (hx : Unused L x) (o : Option (List α)) : Unused (update (update L a o) a none) x := by
  intro b ms hb
  rw [update_idem] at hb
  by_cases hba : b = a
  · rw [hba, update_self] at hb
    cases hb
  · rw [update_of_ne hba] at hb
    exact hx b ms hb

end Worlds

/-- The head of an empty list becomes an entry of another one, as it does in `content_add`. -/
theorem lists_refine_two : ∃ n, ∀ turns > n, ∃ h', run (ListOp.exec turns) (⟨id, fun _ => none⟩ : ListHeap ℕ)
      [.init 0, .add 1 0, .init 2, .addTail 2 0, .invert 0 9, .del 1] = .ok h' ∧ h'.Circular 0 [2] := by
  have hnone : ∀ x : ℕ, Unused (fun _ => none) x := fun x => nofun
  have hunused : ∀ x : ℕ, x ∉ [0] → x ∉ [0, 1] → Unused (update (update (fun _ => none) 0 (some [])) 0 (some [1])) x :=
    fun x h0 h1 => ((hnone x).set h0).set h1
  have hone : (update (update (update (update (fun _ => none) 0 (some [])) 0 (some [1])) 2 (some [])) 2 none :
    Lists ℕ) 0 = some [1] := rfl
  have hlists : ListRun (fun _ => none) [.init 0, .add 1 0, .init 2, .addTail 2 0, .invert 0 9, .del 1] _ :=
    .cons (.init (a := 0) (hnone 0)) <| .cons (.add (a := 0) (e := 1) (update_self ..) ((hnone 1).set (by decide))) <|
    .cons (.init (a := 2) (hunused 2 (by decide) (by decide))) <| .forget 2 <|
    .cons (.addTail (a := 0) (e := 2) hone ((hunused 2 (by decide) (by decide)).forget _)) <|
    .cons (.invert (a := 0) (d := 9) (update_self ..)
      (((hunused 9 (by decide) (by decide)).forget _).set (by decide))) <|
    .cons (.del (a := 0) (e := 1) (l := [2]) (r := []) (update_self ..)) .nil
  obtain ⟨n, hn⟩ := lists_refine hlists ⟨id, fun _ => none⟩
  refine ⟨n, fun turns hturns => ?_⟩
  obtain ⟨h', hcalls, hlists⟩ := hn turns hturns
  exact ⟨h', hcalls, (hlists 0 [2] (update_self ..)).1⟩

end LibHpack
