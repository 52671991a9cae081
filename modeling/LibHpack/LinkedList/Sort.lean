import Mathlib.Tactic
import LibHpack.General.Run
import LibHpack.General.MergeSort
import LibHpack.LinkedList.Model

/-!
# LibHpack.LinkedList.Sort — chula_list_sort is a stable sort

`Merging` describes the memory in the middle of a merge: the entries that are merged are linked both ways, those of the
two runs still have their old `next` links, the last of which leads to the entry that was first.  A turn of the loop moves
one entry (`Merging.take_p`, `Merging.take_q`), so the loop merges the two runs as lists, a pass merges all runs, and the
passes sort (`General.MergeSort`).
-/

namespace LibHpack

open MergeSort Run

/-- A chain keeps its links when the relation changes only behind its last element, or in front of its first one. -/
theorem isChain_concat_imp {β : Type} {R S : β → β → Prop} {l : List β} {c : β} (h : (l ++ [c]).IsChain R)
    (himp : ∀ a ∈ l, ∀ b ∈ (l ++ [c]).tail, R a b → S a b) : (l ++ [c]).IsChain S := by
  induction l with
  | nil => exact .singleton c
  | cons a l ih =>
    have htail := ih h.tail fun b hb d hd => himp b (List.mem_cons_of_mem a hb) d (List.mem_of_mem_tail hd)
    rw [List.cons_append, List.isChain_cons] at h ⊢
    exact ⟨fun b hb => himp a List.mem_cons_self b (List.mem_of_mem_head? hb) (h.1 b hb), htail⟩

variable {α : Type}

namespace ListHeap

variable (h : ListHeap α)

/-- `b` is behind `a`. -/
def Linked (a b : α) : Prop := h.next a = b ∧ h.prev b = some a

/-- `a` leads to `b`; the way back is not there. -/
def Leads (a b : α) : Prop := h.next a = b

/-- A well-formed circular doubly linked list, headed by `head`, with the nodes `ns`. -/
structure Circular (head : α) (ns : List α) : Prop where
  nodup : (head :: ns).Nodup
  linked : (head :: ns ++ [head]).IsChain h.Linked

end ListHeap

variable [DecidableEq α]

section Links

variable {h : ListHeap α} {a b c : α} {o : Option α}

theorem setNext_next_of_ne (hne : a ≠ b) : (h.setNext b c).next a = h.next a := Function.update_of_ne hne ..

theorem setNext_next : (h.setNext b c).next b = c := Function.update_self ..

theorem setPrev_prev_of_ne (hne : a ≠ b) : (h.setPrev b o).prev a = h.prev a := Function.update_of_ne hne ..

theorem setPrev_prev : (h.setPrev b o).prev b = o := Function.update_self ..

@[simp] theorem setNext_prev : (h.setNext b c).prev = h.prev := rfl

@[simp] theorem setPrev_next : (h.setPrev b o).next = h.next := rfl

end Links

/-! ### One turn -/

/-- The memory in the middle of a merge: `D` has been merged, `P` is left of the first run, and `S` of everything
behind it. -/
structure Merging (oldhead : α) (s : Merge α) (D P S : List α) : Prop where
  linked : D.IsChain s.heap.Linked
  list_eq : s.list = D.head?
  tail_eq : s.tail = D.getLast?
  run : P.IsChain s.heap.Leads
  p_eq : P ≠ [] → s.p = P.head?
  psize_eq : s.psize = P.length
  rest : (S ++ [oldhead]).IsChain s.heap.Leads
  q_eq : s.q = S.head?
  nodup : (D ++ (P ++ S)).Nodup
  not_mem : oldhead ∉ P.tail ++ S

section Link

variable {s : Merge α} {e : α} {D L : List α}

theorem link_next (e : α) {a : α} (ha : s.tail ≠ some a) : (s.link e).heap.next a = s.heap.next a := by
  unfold Merge.link
  cases ht : s.tail with
  | none => rfl
  | some t => exact setNext_next_of_ne fun h => ha (ht.trans (congrArg some h.symm))

theorem link_prev (e : α) {a : α} (ha : a ≠ e) : (s.link e).heap.prev a = s.heap.prev a := by
  unfold Merge.link
  cases ht : s.tail <;> exact setPrev_prev_of_ne ha

theorem link_fields (s : Merge α) (e : α) : (s.link e).tail = some e ∧ (s.link e).p = s.p ∧
    (s.link e).psize = s.psize ∧ (s.link e).q = s.q ∧ (s.link e).qsize = s.qsize := by
  unfold Merge.link
  cases s.tail <;> exact ⟨rfl, rfl, rfl, rfl, rfl⟩

/-- The links of entries that are not merged yet. -/
theorem link_leads {oldhead : α} (htail : s.tail = D.getLast?) (hdisj : ∀ a ∈ D, a ∉ L)
    (h : (L ++ [oldhead]).IsChain s.heap.Leads) : (L ++ [oldhead]).IsChain (s.link e).heap.Leads := by
  apply isChain_concat_imp h
  intro a ha b _ hab
  rw [ListHeap.Leads, link_next]
  · exact hab
  · intro hlast
    exact hdisj a (List.mem_of_getLast? (htail.symm.trans hlast)) ha

theorem link_run (htail : s.tail = D.getLast?) (hdisj : ∀ a ∈ D, a ∉ L) (h : L.IsChain s.heap.Leads) :
    L.IsChain (s.link e).heap.Leads := by
  apply h.imp_of_mem_imp
  intro a b ha _ hab
  rw [ListHeap.Leads, link_next]
  · exact hab
  · intro hlast
    exact hdisj a (List.mem_of_getLast? (htail.symm.trans hlast)) ha

/-- **The new entry is linked to the last one.** -/
theorem link_linked (hD : D.IsChain s.heap.Linked) (hlist : s.list = D.head?) (htail : s.tail = D.getLast?)
    (hnodup : (D ++ [e]).Nodup) :
    (D ++ [e]).IsChain (s.link e).heap.Linked ∧ (s.link e).list = (D ++ [e]).head? := by
  rcases List.eq_nil_or_concat' D with rfl | ⟨D, t, rfl⟩
  · refine ⟨.singleton e, ?_⟩
    rw [List.getLast?_nil] at htail
    rw [Merge.link, htail]
    rfl
  · rw [List.getLast?_concat] at htail
    have hne : ∀ a ∈ D, a ≠ t := by
      intro a ha
      rw [List.append_assoc, List.nodup_append] at hnodup
      exact hnodup.2.2 a ha t List.mem_cons_self
    have hlast : t ≠ e := by
      rw [List.append_assoc, List.nodup_append] at hnodup
      simpa using hnodup.2.1
    have hprev : ∀ b ∈ D ++ [t], b ≠ e := by
      rw [List.nodup_append] at hnodup
      exact fun b hb => hnodup.2.2 b hb e List.mem_cons_self
    refine ⟨?_, ?_⟩
    · rw [List.append_assoc, List.singleton_append, List.isChain_split]
      refine ⟨isChain_concat_imp hD fun a ha b hb hab => ⟨?_, ?_⟩, ?_⟩
      · rw [link_next _ (by rw [htail]; exact fun h => hne a ha (Option.some.inj h).symm)]
        exact hab.1
      · rw [link_prev _ (hprev b (List.mem_of_mem_tail hb))]
        exact hab.2
      · rw [List.isChain_pair]
        unfold Merge.link
        rw [htail]
        exact ⟨setNext_next, setPrev_prev⟩
    · unfold Merge.link
      rw [htail, List.append_assoc, List.head?_append, List.head?_append]
      dsimp only
      rw [hlist, List.head?_append]
      cases D.head? <;> rfl

end Link

section Turn

variable {oldhead e : α} {s : Merge α} {D P S : List α} {h : ListHeap α}

/-- The entry behind `e`, unless that is the one the list began with. -/
theorem next_eq_head? (hchain : (e :: S ++ [oldhead]).IsChain h.Leads) (hold : oldhead ∉ S) :
    (if h.next e = oldhead then none else some (h.next e)) = S.head? := by
  cases S with
  | nil =>
    have hnext : h.Leads e oldhead := List.isChain_pair.mp hchain
    rw [if_pos (show h.next e = oldhead from hnext)]
    rfl
  | cons x S =>
    have hnext : h.next e = x := (List.isChain_cons_cons.mp hchain).1
    have hne : x ≠ oldhead := fun heq => hold (heq ▸ List.mem_cons_self)
    rw [hnext, if_neg hne]
    rfl

/-- **A turn that takes the entry of the second run.** -/
theorem Merging.take_q (h : Merging oldhead s D P (e :: S)) :
    ∃ s1, s.takeQ oldhead = .ok (e, s1) ∧ Merging oldhead (s1.link e) (D ++ [e]) P S ∧
      (s1.link e).qsize = s.qsize - 1 := by
  have hq := h.q_eq
  rw [List.head?_cons] at hq
  have hold : oldhead ∉ S := fun hmem => h.not_mem (List.mem_append_right _ (List.mem_cons_of_mem e hmem))
  have hperm : (D ++ (P ++ e :: S)).Perm (D ++ [e] ++ (P ++ S)) := by
    rw [List.append_assoc, List.singleton_append]
    exact List.perm_middle.append_left D
  have hnodup := hperm.nodup h.nodup
  have hdisj : ∀ a ∈ D, a ∉ P ++ S := fun a ha hmem =>
    (List.nodup_append.mp hnodup).2.2 a (List.mem_append_left _ ha) a hmem rfl
  let s1 : Merge α :=
    { s with q := if s.heap.next e = oldhead then none else some (s.heap.next e), qsize := s.qsize - 1 }
  obtain ⟨hlinked, hlist⟩ := link_linked (s := s1) (e := e) h.linked h.list_eq h.tail_eq (List.nodup_append.mp hnodup).1
  obtain ⟨htail, hp, hpsize, hq1, hqsize⟩ := link_fields s1 e
  refine ⟨s1, ?_, ?_, hqsize⟩
  · rw [Merge.takeQ, hq]
  · exact {
      linked := hlinked
      list_eq := hlist
      tail_eq := by rw [htail, List.getLast?_concat]
      run := link_run (D := D) h.tail_eq (fun a ha hmem => hdisj a ha (List.mem_append_left _ hmem)) h.run
      p_eq := fun hP => hp.trans (h.p_eq hP)
      psize_eq := hpsize.trans h.psize_eq
      rest := link_leads (D := D) h.tail_eq (fun a ha hmem => hdisj a ha (List.mem_append_right _ hmem)) h.rest.tail
      q_eq := hq1.trans (next_eq_head? h.rest hold)
      nodup := hnodup
      not_mem := fun hmem => h.not_mem (List.mem_append.mpr
        ((List.mem_append.mp hmem).imp_right (List.mem_cons_of_mem e))) }

/-- **A turn that takes the entry of the first run.** -/
theorem Merging.take_p (h : Merging oldhead s D (e :: P) S) :
    ∃ s1, s.takeP oldhead = .ok (e, s1) ∧ Merging oldhead (s1.link e) (D ++ [e]) P S ∧
      (s1.link e).qsize = s.qsize := by
  have hp := h.p_eq (List.cons_ne_nil e P)
  rw [List.head?_cons] at hp
  have hold : oldhead ∉ P := fun hmem => h.not_mem (List.mem_append_left _ hmem)
  have hnodup : ((D ++ [e]) ++ (P ++ S)).Nodup := by
    rw [List.append_assoc]
    exact h.nodup
  have hdisj : ∀ a ∈ D, a ∉ P ++ S := fun a ha hmem =>
    (List.nodup_append.mp hnodup).2.2 a (List.mem_append_left _ ha) a hmem rfl
  let s1 : Merge α :=
    { s with p := if s.heap.next e = oldhead then none else some (s.heap.next e), psize := s.psize - 1 }
  obtain ⟨hlinked, hlist⟩ := link_linked (s := s1) (e := e) h.linked h.list_eq h.tail_eq (List.nodup_append.mp hnodup).1
  obtain ⟨htail, hp1, hpsize, hq, hqsize⟩ := link_fields s1 e
  refine ⟨s1, ?_, ?_, hqsize⟩
  · rw [Merge.takeP, hp]
  · exact {
      linked := hlinked
      list_eq := hlist
      tail_eq := by rw [htail, List.getLast?_concat]
      run := link_run (D := D) h.tail_eq (fun a ha hmem => hdisj a ha (List.mem_append_left _ hmem)) h.run.tail
      p_eq := by
        intro hP
        obtain ⟨x, P, rfl⟩ := List.exists_cons_of_ne_nil hP
        have hnext : s.heap.next e = x := (List.isChain_cons_cons.mp h.run).1
        have hne : x ≠ oldhead := fun heq => hold (heq ▸ List.mem_cons_self)
        refine hp1.trans ?_
        change (if s.heap.next e = oldhead then none else some (s.heap.next e)) = _
        rw [hnext, if_neg hne]
        rfl
      psize_eq := by rw [hpsize]; exact congrArg (· - 1) h.psize_eq
      rest := link_leads (D := D) h.tail_eq (fun a ha hmem => hdisj a ha (List.mem_append_right _ hmem)) h.rest
      q_eq := hq.trans h.q_eq
      nodup := hnodup
      not_mem := fun hmem => h.not_mem (List.mem_append.mpr
        ((List.mem_append.mp hmem).imp_left List.mem_of_mem_tail)) }

end Turn

/-! ### One merge -/

/-- The order of the comparison function. -/
def leOf (cmp : α → α → ℤ) (a b : α) : Bool := cmp a b ≤ 0

section Loops

variable (cmp : α → α → ℤ) {oldhead : α}

/-- **The loop of a merge** merges the rest of the first run with the next `qsize` entries. -/
theorem Merging.merge_loop : ∀ (k : ℕ) (s : Merge α) (D P S : List α), Merging oldhead s D P S → P.length + s.qsize ≤ k →
    ∃ s', Merge.mergeLoop cmp oldhead k s = .ok s' ∧
      Merging oldhead s' (D ++ P.merge (S.take s.qsize) (leOf cmp)) [] (S.drop s.qsize)
  | 0, s, D, P, S, h, hk => by
    have hP : P = [] := List.length_eq_zero_iff.mp (by omega)
    have hqsize : s.qsize = 0 := by omega
    subst hP
    refine ⟨s, rfl, ?_⟩
    rwa [hqsize, List.take_zero, List.nil_merge, List.append_nil, List.drop_zero]
  | k + 1, s, D, P, S, h, hk => by
    rw [Merge.mergeLoop]
    have hpsize := h.psize_eq
    have hq := h.q_eq
    by_cases hend : s.qsize = 0 ∨ S = []
    · -- nothing is left of the second run
      have htake : S.take s.qsize = [] := by rcases hend with h0 | rfl <;> simp [*]
      have hdrop : S.drop s.qsize = S := by rcases hend with h0 | rfl <;> simp [*]
      have hq0 : s.qsize = 0 ∨ s.q = none := hend.imp_right fun hS => by rw [hq, hS, List.head?_nil]
      rw [htake, hdrop, List.merge_right]
      cases P with
      | nil =>
        have hstop : ¬ (0 < s.psize ∨ (0 < s.qsize ∧ s.q ≠ none)) := by
          rw [hpsize, List.length_nil]
          rintro (hlt | ⟨hlt, hne⟩)
          · exact Nat.lt_irrefl 0 hlt
          · exact hq0.elim (fun h0 => hlt.ne' h0) hne
        rw [if_neg hstop]
        exact ⟨s, rfl, by rwa [List.append_nil]⟩
      | cons x P =>
        rw [List.length_cons] at hpsize hk
        obtain ⟨s1, htakeP, h1, hqsize1⟩ := h.take_p
        have hchoose : s.choose cmp oldhead = .ok (x, s1) := by
          rw [Merge.choose, if_neg (by omega), if_pos hq0, htakeP]
        obtain ⟨s', hloop, h'⟩ := merge_loop k (s1.link x) (D ++ [x]) P S h1 (by omega)
        rw [hqsize1, htake, hdrop, List.merge_right, List.append_assoc] at h'
        refine ⟨s', ?_, h'⟩
        rw [if_pos (.inl (by omega)), ok_then hchoose]
        exact hloop
    · obtain ⟨hqsize, hS⟩ := not_or.mp hend
      obtain ⟨y, S, rfl⟩ := List.exists_cons_of_ne_nil hS
      obtain ⟨n, hn⟩ := Nat.exists_eq_succ_of_ne_zero hqsize
      rw [List.head?_cons] at hq
      obtain ⟨s1, htakeQ, h1, hqsize1⟩ := h.take_q
      rw [hn, Nat.succ_sub_one] at hqsize1
      have hgo : 0 < s.psize ∨ (0 < s.qsize ∧ s.q ≠ none) := .inr ⟨by omega, by rw [hq]; exact Option.some_ne_none y⟩
      rw [if_pos hgo, hn, List.take_succ_cons, List.drop_succ_cons]
      cases P with
      | nil =>
        have hchoose : s.choose cmp oldhead = .ok (y, s1) := by
          rw [Merge.choose, hpsize, List.length_nil, if_pos rfl, htakeQ]
        obtain ⟨s', hloop, h'⟩ := merge_loop k (s1.link y) (D ++ [y]) [] S h1 (by simp at hk ⊢; omega)
        rw [hqsize1, List.nil_merge, List.append_assoc] at h'
        refine ⟨s', ?_, by rwa [List.nil_merge]⟩
        rw [ok_then hchoose]
        exact hloop
      | cons x P =>
        rw [List.length_cons] at hpsize hk
        have hp : s.p = some x := h.p_eq (List.cons_ne_nil x P)
        have hmore : ¬ (s.qsize = 0 ∨ s.q = none) := by
          rw [hq]
          exact not_or.mpr ⟨hqsize, Option.some_ne_none y⟩
        have hchoose : s.choose cmp oldhead = if cmp x y ≤ 0 then s.takeP oldhead else s.takeQ oldhead := by
          rw [Merge.choose, if_neg (by omega), if_neg hmore, hp, hq]
        by_cases hle : cmp x y ≤ 0
        · obtain ⟨s2, htakeP, h2, hqsize2⟩ := h.take_p
          rw [if_pos hle, htakeP] at hchoose
          obtain ⟨s', hloop, h'⟩ := merge_loop k (s2.link x) (D ++ [x]) P (y :: S) h2 (by omega)
          rw [hqsize2, hn, List.take_succ_cons, List.drop_succ_cons, List.append_assoc] at h'
          refine ⟨s', ?_, ?_⟩
          · rw [ok_then hchoose]
            exact hloop
          · rwa [List.cons_merge_cons_pos _ _ _ (decide_eq_true hle)]
        · rw [if_neg hle, htakeQ] at hchoose
          obtain ⟨s', hloop, h'⟩ := merge_loop k (s1.link y) (D ++ [y]) (x :: P) S h1 (by rw [List.length_cons]; omega)
          rw [hqsize1, List.append_assoc] at h'
          refine ⟨s', ?_, ?_⟩
          · rw [ok_then hchoose]
            exact hloop
          · rwa [List.cons_merge_cons_neg _ _ _ (by rw [leOf, decide_eq_true_iff]; exact hle)]

/-! ### One pass -/

/-- The memory between two merges of a pass: `D` has been merged, `R` is behind it. -/
structure Passing (oldhead : α) (s : Merge α) (D R : List α) : Prop where
  linked : D.IsChain s.heap.Linked
  list_eq : s.list = D.head?
  tail_eq : s.tail = D.getLast?
  rest : (R ++ [oldhead]).IsChain s.heap.Leads
  p_eq : s.p = R.head?
  nodup : (D ++ R).Nodup
  not_mem : oldhead ∉ R.tail

/-- The loop that looks for the second run counts the entries of the first one. -/
theorem skipRun_eq {h : ListHeap α} : ∀ (k : ℕ) (e : α) (R : List α) (n : ℕ), (e :: R ++ [oldhead]).IsChain h.Leads →
    oldhead ∉ R → skipRun oldhead h k e n = (n + min k (e :: R).length, ((e :: R).drop k).head?)
  | 0, e, R, n, _, _ => by
    rw [skipRun, Nat.zero_min, Nat.add_zero, List.drop_zero, List.head?_cons]
  | k + 1, e, R, n, hchain, hold => by
    have hhead := next_eq_head? hchain hold
    rw [skipRun]
    cases R with
    | nil =>
      have hnext : h.next e = oldhead := (List.isChain_cons_cons.mp hchain).1
      rw [if_pos hnext, List.drop_succ_cons, List.drop_nil, List.length_singleton, Nat.min_eq_right (by omega)]
      rfl
    | cons x R =>
      have hnext : h.next e = x := (List.isChain_cons_cons.mp hchain).1
      have hne : x ≠ oldhead := fun heq => hold (heq ▸ List.mem_cons_self)
      rw [hnext, if_neg hne, skipRun_eq k x R (n + 1) hchain.tail fun hmem => hold (List.mem_cons_of_mem x hmem),
        List.drop_succ_cons, List.length_cons (a := e)]
      congr 1
      omega

omit [DecidableEq α] in
/-- The old links of what is behind the first `k` entries. -/
theorem leads_drop {h : ListHeap α} {R : List α} (hchain : (R ++ [oldhead]).IsChain h.Leads) (k : ℕ) :
    (R.drop k ++ [oldhead]).IsChain h.Leads := by
  rw [← List.take_append_drop k R, List.append_assoc] at hchain
  exact hchain.right_of_append

/-- **One merge of a pass.** -/
theorem Passing.merge {s : Merge α} {D R : List α} {e : α} {insize psize : ℕ} {q : Option α}
    (h : Passing oldhead s D (e :: R)) (hw : insize ≠ 0) (hskip : skipRun oldhead s.heap insize e 0 = (psize, q)) :
    ∃ s', Merge.mergeLoop cmp oldhead (psize + insize) { s with psize := psize, q := q, qsize := insize } = .ok s' ∧
      Passing oldhead { s' with p := s'.q }
        (D ++ ((e :: R).take insize).merge (((e :: R).drop insize).take insize) (leOf cmp))
        ((e :: R).drop (2 * insize)) := by
  have hold : oldhead ∉ R := h.not_mem
  rw [skipRun_eq insize e R 0 h.rest hold, Nat.zero_add] at hskip
  obtain ⟨hpsize, hq⟩ := Prod.mk.inj hskip
  obtain ⟨w, rfl⟩ := Nat.exists_eq_succ_of_ne_zero hw
  have hmerging : Merging oldhead { s with psize := psize, q := q, qsize := w.succ } D ((e :: R).take w.succ)
      ((e :: R).drop w.succ) := {
    linked := h.linked
    list_eq := h.list_eq
    tail_eq := h.tail_eq
    run := (h.rest.left_of_append).take w.succ
    p_eq := fun _ => h.p_eq
    psize_eq := by rw [List.length_take, ← hpsize]
    rest := leads_drop h.rest w.succ
    q_eq := hq.symm
    nodup := by rw [List.take_append_drop]; exact h.nodup
    not_mem := by
      rw [List.take_succ_cons, List.tail_cons, List.drop_succ_cons, List.take_append_drop]
      exact hold }
  obtain ⟨s', hloop, h'⟩ := hmerging.merge_loop cmp (psize + w.succ) _ _ _ _
    (by rw [List.length_take, hpsize])
  have hdrop : ((e :: R).drop w.succ).drop w.succ = (e :: R).drop (2 * w.succ) := by rw [List.drop_drop, Nat.two_mul]
  dsimp only at h'
  rw [hdrop] at h'
  exact ⟨s', hloop, {
    linked := h'.linked
    list_eq := h'.list_eq
    tail_eq := h'.tail_eq
    rest := h'.rest
    p_eq := h'.q_eq
    nodup := by simpa using h'.nodup
    not_mem := fun hmem => h'.not_mem (List.mem_append_right _ (List.mem_of_mem_tail hmem)) }⟩

/-- How many merges a pass over `n` entries makes. -/
def merges (insize n : ℕ) : ℕ := (n + 2 * insize - 1) / (2 * insize)

theorem merges_zero {insize : ℕ} (hw : insize ≠ 0) : merges insize 0 = 0 := by
  rw [merges, Nat.zero_add]
  exact Nat.div_eq_of_lt (by omega)

theorem merges_succ {insize n : ℕ} (hw : insize ≠ 0) (hn : n ≠ 0) :
    merges insize n = merges insize (n - 2 * insize) + 1 := by
  rw [merges, merges]
  by_cases hle : n ≤ 2 * insize
  · have h1 : (n + 2 * insize - 1) / (2 * insize) = 1 := Nat.div_eq_of_lt_le (by omega) (by omega)
    have h0 : (n - 2 * insize + 2 * insize - 1) / (2 * insize) = 0 := Nat.div_eq_of_lt (by omega)
    rw [h1, h0]
  · rw [← Nat.add_div_right _ (by omega : 0 < 2 * insize)]
    congr 1
    omega

/-- One merge is enough for two runs. -/
theorem merges_le_one {insize n : ℕ} (hw : insize ≠ 0) : merges insize n ≤ 1 ↔ n ≤ 2 * insize := by
  rw [merges, ← Nat.lt_succ_iff, Nat.div_lt_iff_lt_mul (by omega)]
  omega

theorem merges_le {insize : ℕ} (hw : insize ≠ 0) (n : ℕ) : 2 * merges insize n ≤ n + 1 := by
  have hmul := Nat.div_mul_le_self (n + 2 * insize - 1) (2 * insize)
  rw [← merges] at hmul
  cases hm : merges insize n with
  | zero => omega
  | succ k =>
    rw [hm, Nat.succ_mul] at hmul
    have hk : k * 2 ≤ k * (2 * insize) := Nat.mul_le_mul_left k (by omega)
    omega

/-- **A turn of the loop over the runs.** -/
theorem Passing.turn {insize : ℕ} {s : Merge α} {D R : List α} {e : α} (hw : insize ≠ 0)
    (h : Passing oldhead s D (e :: R)) (turns n : ℕ) :
    ∃ s', Merge.passLoop cmp oldhead insize (turns + 1) s n =
        (if 2 ^ 31 ≤ n + 1 then .error .overflow else Merge.passLoop cmp oldhead insize turns s' (n + 1)) ∧
      Passing oldhead s' (D ++ ((e :: R).take insize).merge (((e :: R).drop insize).take insize) (leOf cmp))
        ((e :: R).drop (2 * insize)) := by
  obtain ⟨heap, list, tail, p, psize, q, qsize⟩ := s
  obtain rfl : p = some e := h.p_eq
  rcases hskip : skipRun oldhead heap insize e 0 with ⟨psize, q⟩
  obtain ⟨s1, hmerge, h1⟩ := h.merge cmp hw hskip
  refine ⟨{ s1 with p := s1.q }, ?_, h1⟩
  rw [Merge.passLoop]
  dsimp only
  rw [hskip]
  dsimp only at hmerge ⊢
  rw [ok_then hmerge]

/-- **A pass merges the runs pairwise.** -/
theorem Passing.pass {insize : ℕ} (hw : insize ≠ 0) : ∀ (turns : ℕ) (s : Merge α) (D R : List α) (n : ℕ),
    Passing oldhead s D R → ∀ s' n', Merge.passLoop cmp oldhead insize turns s n = .ok (s', n') →
      Passing oldhead s' (D ++ mergeRuns (leOf cmp) insize R) [] ∧ n' = n + merges insize R.length
  | 0, _, _, _, _, _, _, _, hloop => nomatch hloop
  | turns + 1, s, D, [], n, h, s', n', hloop => by
    rw [Merge.passLoop, h.p_eq, List.head?_nil] at hloop
    cases hloop
    rw [mergeRuns_nil, List.append_nil, List.length_nil, merges_zero hw]
    exact ⟨h, rfl⟩
  | turns + 1, s, D, e :: R, n, h, s', n', hloop => by
    obtain ⟨s1, hturn, h1⟩ := h.turn cmp hw turns n
    rw [hturn] at hloop
    split_ifs at hloop
    obtain ⟨h2, hn⟩ := pass hw turns _ _ _ (n + 1) h1 s' n' hloop
    rw [List.append_assoc, ← mergeRuns_of_ne_nil hw (List.cons_ne_nil e R)] at h2
    rw [List.length_drop] at hn
    rw [merges_succ hw (by rw [List.length_cons]; omega)]
    exact ⟨h2, by omega⟩

/-- It ends, when there are not too many merges to count. -/
theorem Passing.pass_ok {insize : ℕ} (hw : insize ≠ 0) : ∀ (turns : ℕ) (s : Merge α) (D R : List α) (n : ℕ),
    Passing oldhead s D R → R.length < turns → n + merges insize R.length < 2 ^ 31 →
      ∃ s' n', Merge.passLoop cmp oldhead insize turns s n = .ok (s', n')
  | 0, _, _, _, _, _, hturns, _ => absurd hturns (Nat.not_lt_zero _)
  | turns + 1, s, D, [], n, h, _, _ => by
    refine ⟨s, n, ?_⟩
    rw [Merge.passLoop, h.p_eq, List.head?_nil]
  | turns + 1, s, D, e :: R, n, h, hturns, hcount => by
    obtain ⟨s1, hturn, h1⟩ := h.turn cmp hw turns n
    rw [List.length_cons] at hturns
    rw [merges_succ hw (by rw [List.length_cons]; omega)] at hcount
    rw [hturn, if_neg (by omega)]
    apply pass_ok hw turns _ _ _ _ h1
    · rw [List.length_drop, List.length_cons]
      omega
    · rw [List.length_drop]
      omega

end Loops

/-! ### All passes -/

section Passes

variable {cmp : α → α → ℤ} {h : ListHeap α} {a b last : α} {t D : List α}

/-- **Closing the ring** of the entries that a pass has merged. -/
theorem circular_close (hD : (b :: t).IsChain h.Linked) (hnodup : (b :: t).Nodup) (hlast : (b :: t).getLast? = some last) :
    ((h.setNext last b).setPrev b (some last)).Circular b t := by
  refine ⟨hnodup, ?_⟩
  obtain ⟨D, heq⟩ : ∃ D, b :: t = D ++ [last] := ⟨_, (List.dropLast_append_getLast? last hlast).symm⟩
  have hnot : b ∉ (D ++ [last]).tail := by
    rw [← heq]
    exact (List.nodup_cons.mp hnodup).1
  rw [heq] at hD hnodup ⊢
  rw [List.append_assoc, List.singleton_append, List.isChain_split, List.isChain_pair]
  refine ⟨isChain_concat_imp hD fun c hc d hd hcd => ⟨?_, ?_⟩, ?_, setPrev_prev⟩
  · have hne : c ≠ last := (List.nodup_append.mp hnodup).2.2 c hc last List.mem_cons_self
    rw [setPrev_next, setNext_next_of_ne hne]
    exact hcd.1
  · have hne : d ≠ b := fun hdb => hnot (hdb ▸ hd)
    rw [setPrev_prev_of_ne hne, setNext_prev]
    exact hcd.2
  · rw [setPrev_next, setNext_next]

omit [DecidableEq α] in
/-- A pass starts with the whole ring in front of it. -/
theorem ListHeap.Circular.passing (hc : h.Circular a t) : Passing a ⟨h, none, none, some a, 0, none, 0⟩ [] (a :: t) where
  linked := .nil
  list_eq := rfl
  tail_eq := rfl
  rest := hc.linked.imp fun _ _ hab => hab.1
  p_eq := rfl
  nodup := hc.nodup
  not_mem := (List.nodup_cons.mp hc.nodup).1

/-- **What a pass leaves**, with the ring closed. -/
theorem pass_circular {insize turns n : ℕ} {s : Merge α} (hw : insize ≠ 0) (hc : h.Circular a t)
    (hpass : Merge.passLoop cmp a insize turns ⟨h, none, none, some a, 0, none, 0⟩ 0 = .ok (s, n)) :
    ∃ b t' last, mergeRuns (leOf cmp) insize (a :: t) = b :: t' ∧ s.tail = some last ∧ s.list = some b ∧
      ((s.heap.setNext last b).setPrev b (some last)).Circular b t' ∧ n = merges insize (a :: t).length := by
  obtain ⟨hp, hn⟩ := Passing.pass cmp hw turns _ _ _ _ hc.passing s n hpass
  rw [List.nil_append] at hp
  obtain ⟨b, t', heq⟩ : ∃ b t', mergeRuns (leOf cmp) insize (a :: t) = b :: t' := by
    apply List.exists_cons_of_ne_nil
    intro hnil
    have hperm : (mergeRuns (leOf cmp) insize (a :: t)).Perm (a :: t) := mergeRuns_perm insize (a :: t)
    have := hperm.length_eq
    rw [hnil] at this
    exact absurd this (by simp)
  have hnodup := hp.nodup
  rw [List.append_nil, heq] at hnodup
  have hlinked := hp.linked
  have hlist := hp.list_eq
  have htail := hp.tail_eq
  rw [heq] at hlinked hlist htail
  obtain ⟨last, hlast⟩ : ∃ last, (b :: t').getLast? = some last :=
    ⟨_, List.getLast?_eq_some_getLast (List.cons_ne_nil b t')⟩
  exact ⟨b, t', last, heq, htail.trans hlast, hlist, circular_close hlinked hnodup hlast, by rw [hn, Nat.zero_add]⟩

/-- The turn of `for (;;)` behind a pass. -/
theorem sortLoop_succ {insize turns n k : ℕ} {s : Merge α}
    (hpass : Merge.passLoop cmp a insize turns ⟨h, none, none, some a, 0, none, 0⟩ 0 = .ok (s, n))
    (htail : s.tail = some last) (hlist : s.list = some b) :
    sortLoop cmp turns (k + 1) h a insize =
      if n ≤ 1 then .ok ((s.heap.setNext last b).setPrev b (some last), b)
      else if 2 ^ 31 ≤ insize * 2 then .error .overflow
      else sortLoop cmp turns k ((s.heap.setNext last b).setPrev b (some last)) b (insize * 2) := by
  rw [sortLoop, ok_then hpass]
  dsimp only
  rw [htail, hlist]

/-- **The passes sort** a ring of at most 2^31 entries. -/
theorem sortLoop_ok (cmp : α → α → ℤ) (l : List α) (turns : ℕ) (trans : ∀ a b c, leOf cmp a b → leOf cmp b c → leOf cmp a c)
    (total : ∀ a b, leOf cmp a b || leOf cmp b a) (hlen : l.length ≤ 2 ^ 31)
    (hturns : l.length < turns) (k : ℕ) : ∀ (m : ℕ) (h : ListHeap α) (a : α) (t : List α), k < m → k ≤ 30 → h.Circular a t →
      Pass (leOf cmp) l (a :: t) (2 ^ (30 - k)) →
        ∃ h' b t', sortLoop cmp turns m h a (2 ^ (30 - k)) = .ok (h', b) ∧ h'.Circular b t' ∧
          StableSort (leOf cmp) l (b :: t') := by
  induction k with
  | zero =>
    intro m h a t hm _ hc hp
    obtain ⟨m, rfl⟩ : ∃ m', m = m' + 1 := ⟨m - 1, by omega⟩
    have hw : 2 ^ 30 ≠ 0 := by decide
    have hsame := hp.perm.length_eq
    have hone : merges (2 ^ 30) (a :: t).length ≤ 1 := (merges_le_one hw).mpr (by omega)
    obtain ⟨s, n, hpass⟩ := Passing.pass_ok cmp hw turns _ _ _ 0 hc.passing (by omega) (by omega)
    obtain ⟨b, t', last, heq, htail, hlist, hc', hn⟩ := pass_circular hw hc hpass
    have hnext := hp.next trans total hw
    rw [heq] at hnext
    refine ⟨_, b, t', ?_, hc', hnext.done ?_⟩
    · rw [Nat.sub_zero, sortLoop_succ hpass htail hlist, if_pos (by omega)]
    · rw [hnext.perm.length_eq]
      exact hlen
  | succ k ih =>
    intro m h a t hm hk hc hp
    obtain ⟨m, rfl⟩ : ∃ m', m = m' + 1 := ⟨m - 1, by omega⟩
    have hw : 2 ^ (30 - (k + 1)) ≠ 0 := (Nat.two_pow_pos _).ne'
    have hdouble : 2 * 2 ^ (30 - (k + 1)) = 2 ^ (30 - k) := by
      rw [← Nat.pow_succ', show (30 - (k + 1)).succ = 30 - k by omega]
    have hsmall : 2 ^ (30 - k) < 2 ^ 31 := Nat.pow_lt_pow_right (by decide) (by omega)
    have hsame := hp.perm.length_eq
    have hfew := merges_le hw (a :: t).length
    obtain ⟨s, n, hpass⟩ := Passing.pass_ok cmp hw turns _ _ _ 0 hc.passing (by omega) (by omega)
    obtain ⟨b, t', last, heq, htail, hlist, hc', hn⟩ := pass_circular hw hc hpass
    have hnext := hp.next trans total hw
    rw [heq, hdouble] at hnext
    rw [sortLoop_succ hpass htail hlist]
    by_cases hone : n ≤ 1
    · rw [if_pos hone]
      rw [hn, merges_le_one hw, hdouble] at hone
      refine ⟨_, b, t', rfl, hc', hnext.done ?_⟩
      rw [hnext.perm.length_eq, ← hsame]
      exact hone
    · rw [if_neg hone, Nat.mul_comm, hdouble, if_neg (by omega)]
      exact ih m _ b t' (by omega) (by omega) hc' hnext

/-- **Beyond 2^31 entries** the length of the runs overflows, before the list is one run. -/
theorem sortLoop_overflow {turns : ℕ} (m : ℕ) : ∀ (h : ListHeap α) (a : α) (t : List α) (j : ℕ), j ≤ 30 → h.Circular a t →
    2 ^ 31 < (a :: t).length → ∀ r, sortLoop cmp turns m h a (2 ^ j) ≠ .ok r := by
  induction m with
  | zero =>
    intro h a t j _ _ _ r hr
    cases hr
  | succ m ih =>
    intro h a t j hj hc hlen r hr
    have hw : 2 ^ j ≠ 0 := (Nat.two_pow_pos j).ne'
    have hle : 2 ^ j ≤ 2 ^ 30 := Nat.pow_le_pow_right (by decide) hj
    obtain ⟨⟨s, n⟩, hpass, -⟩ := ok_of_then hr
    obtain ⟨b, t', last, heq, htail, hlist, hc', hn⟩ := pass_circular hw hc hpass
    rw [sortLoop_succ hpass htail hlist] at hr
    have hmany : ¬ n ≤ 1 := by
      rw [hn, merges_le_one hw]
      omega
    rw [if_neg hmany] at hr
    split_ifs at hr with hover
    rw [← Nat.pow_succ] at hr
    refine ih _ b t' (j + 1) ?_ hc' ?_ r hr
    · by_contra hbig
      have : j = 30 := by omega
      subst this
      exact hover (by decide)
    · rw [← heq, (mergeRuns_perm _ _).length_eq]
      exact hlen

end Passes

/-! ### chula_list_sort -/

section List

variable {cmp : α → α → ℤ} {h : ListHeap α} {head : α} {ns : List α}

omit [DecidableEq α] in
/-- The last node, and how it is linked to the head. -/
theorem ListHeap.Circular.last {a : α} {t : List α} (hc : h.Circular a t) :
    ∃ D last, a :: t = D ++ [last] ∧ (D ++ [last]).IsChain h.Linked ∧ h.Linked last a := by
  obtain ⟨D, last, heq⟩ := (List.eq_nil_or_concat' (a :: t)).resolve_left (List.cons_ne_nil a t)
  have hlinked := hc.linked
  rw [heq, List.append_assoc, List.singleton_append, List.isChain_split, List.isChain_pair] at hlinked
  exact ⟨D, last, heq, hlinked⟩

/-- Taking the head out of a list that is not empty. -/
theorem chulaListDel_circular {a : α} {t : List α} (hc : h.Circular head (a :: t)) :
    ∃ h', h.chulaListDel head = .ok h' ∧ h'.Circular a t := by
  obtain ⟨hnot, hnodup⟩ := List.nodup_cons.mp hc.nodup
  have hnext : h.next head = a := (List.isChain_cons_cons.mp hc.linked).1.1
  have hchain : (a :: t).IsChain h.Linked := (hc.linked.tail).left_of_append
  obtain ⟨D, last, heq, -, hlast⟩ := hc.last
  have hlast' : (a :: t).getLast? = some last := by
    have := congrArg List.getLast? heq
    rwa [List.getLast?_concat, List.getLast?_cons_cons] at this
  have hne : head ≠ a := fun ha => hnot (ha ▸ List.mem_cons_self)
  refine ⟨_, ?_, circular_close hchain hnodup hlast'⟩
  rw [ListHeap.chulaListDel, hnext, hlast.2, setPrev_prev_of_ne hne, hlast.2, setPrev_next, hnext]
  rfl

/-- Taking the head out of an empty list leaves it there. -/
theorem chulaListDel_empty (hc : h.Circular head []) : ∃ h', h.chulaListDel head = .ok h' ∧ h'.Circular head [] := by
  obtain ⟨hnext, hprev⟩ : h.Linked head head := List.isChain_pair.mp hc.linked
  refine ⟨_, ?_, circular_close (h := h) (.singleton head) hc.nodup rfl⟩
  rw [ListHeap.chulaListDel, hnext, hprev, setPrev_prev, setPrev_next, hnext]
  rfl

/-- **Putting the head back.** -/
theorem circular_insert {a last : α} {t D : List α} (hc : h.Circular a t) (heq : a :: t = D ++ [last])
    (hhead : head ∉ a :: t) (hlinked : (D ++ [last]).IsChain h.Linked) :
    ((((h.setNext head a).setPrev head (some last)).setNext last head).setPrev a (some head)).Circular head (a :: t) := by
  have hnot : a ∉ (D ++ [last]).tail := by
    rw [← heq]
    exact (List.nodup_cons.mp hc.nodup).1
  have hnodup := hc.nodup
  have hmem : ∀ c ∈ D ++ [last], c ≠ head := by
    rintro c hc rfl
    exact hhead (heq ▸ hc)
  have ha : a ≠ head := fun ha => hhead (ha ▸ List.mem_cons_self)
  have hl : last ≠ head := hmem last (List.mem_append_right _ List.mem_cons_self)
  refine ⟨List.nodup_cons.mpr ⟨hhead, hnodup⟩, ?_⟩
  rw [heq] at hnodup
  rw [List.cons_append, List.cons_append, List.isChain_cons_cons, ← List.cons_append, heq, List.append_assoc,
    List.singleton_append, List.isChain_split, List.isChain_pair]
  refine ⟨⟨?_, setPrev_prev⟩, isChain_concat_imp hlinked fun c hc d hd hcd => ⟨?_, ?_⟩, ?_, ?_⟩
  · rw [setPrev_next, setNext_next_of_ne hl.symm, setPrev_next, setNext_next]
  · have hne : c ≠ last := (List.nodup_append.mp hnodup).2.2 c hc last List.mem_cons_self
    rw [setPrev_next, setNext_next_of_ne hne, setPrev_next, setNext_next_of_ne (hmem c (List.mem_append_left _ hc))]
    exact hcd.1
  · have hne : d ≠ a := fun hda => hnot (hda ▸ hd)
    rw [setPrev_prev_of_ne hne, setNext_prev, setPrev_prev_of_ne (hmem d (List.mem_of_mem_tail hd)), setNext_prev]
    exact hcd.2
  · rw [setPrev_next, setNext_next]
  · rw [setPrev_prev_of_ne ha.symm, setNext_prev, setPrev_prev]

theorem reattach_circular {a : α} {t : List α} (hc : h.Circular a t) (hhead : head ∉ a :: t) :
    ∃ h', reattach head h a = .ok h' ∧ h'.Circular head (a :: t) := by
  obtain ⟨D, last, heq, hlinked, hlast⟩ := hc.last
  have hne : a ≠ head := fun ha => hhead (ha ▸ List.mem_cons_self)
  refine ⟨_, ?_, circular_insert hc heq hhead hlinked⟩
  rw [reattach, setNext_prev, setPrev_prev_of_ne hne, setNext_prev, hlast.2]

theorem reattach_empty (hc : h.Circular head []) : ∃ h', reattach head h head = .ok h' ∧ h'.Circular head [] := by
  obtain ⟨hnext, hprev⟩ : h.Linked head head := List.isChain_pair.mp hc.linked
  have hattach : reattach head h head =
      .ok ((((h.setNext head head).setPrev head (some head)).setNext head head).setPrev head (some head)) := by
    rw [reattach, setNext_prev, hprev, setPrev_prev]
  exact ⟨_, hattach, hc.nodup, List.isChain_pair.mpr ⟨by rw [setPrev_next, setNext_next], setPrev_prev⟩⟩

/-- A comparison function orders the nodes, where it may find nodes equal. -/
structure TotalPreorder (cmp : α → α → ℤ) : Prop where
  trans : ∀ a b c, cmp a b ≤ 0 → cmp b c ≤ 0 → cmp a c ≤ 0
  total : ∀ a b, cmp a b ≤ 0 ∨ cmp b a ≤ 0

/-- `ns'` are the nodes `ns` in non-decreasing order.  Of two that are in order already, in particular of two that compare
equal, the first one stays in front. -/
structure StablySorted (cmp : α → α → ℤ) (ns ns' : List α) : Prop where
  perm : ns'.Perm ns
  sorted : ns'.Pairwise fun a b => cmp a b ≤ 0
  stable : ∀ a b, [a, b].Sublist ns → cmp a b ≤ 0 → [a, b].Sublist ns'

omit [DecidableEq α] in
theorem stablySorted_of_stableSort (hcmp : TotalPreorder cmp) {ns ns' : List α} (hs : StableSort (leOf cmp) ns ns')
    (hnodup : ns.Nodup) : StablySorted cmp ns ns' where
  perm := hs.perm
  sorted := hs.sorted.imp fun hab => of_decide_eq_true hab
  stable a b hab hle := hs.pair (fun a b c hab hbc => by
    rw [leOf, decide_eq_true_iff] at hab hbc ⊢
    exact hcmp.trans a b c hab hbc) hnodup hab (decide_eq_true hle)

/-- The passes over a ring of at most 2^31 entries. -/
theorem sortLoop_stable (hcmp : TotalPreorder cmp) {a : α} {t : List α} (hc : h.Circular a t)
    (hlen : (a :: t).length ≤ 2 ^ 31) (turns : ℕ) (hturns : (a :: t).length + 31 ≤ turns) :
    ∃ h' b t', sortLoop cmp turns turns h a 1 = .ok (h', b) ∧ h'.Circular b t' ∧ StablySorted cmp (a :: t) (b :: t') := by
  obtain ⟨h', b, t', hloop, hc', hs⟩ := sortLoop_ok cmp (a :: t) turns
    (fun a b c hab hbc => by
      rw [leOf, decide_eq_true_iff] at hab hbc ⊢
      exact hcmp.trans a b c hab hbc)
    (fun a b => by
      rw [leOf, leOf, Bool.or_eq_true, decide_eq_true_iff, decide_eq_true_iff]
      exact hcmp.total a b)
    hlen (by omega) 30 turns h a t (by omega) le_rfl hc (.init _)
  exact ⟨h', b, t', hloop, hc', stablySorted_of_stableSort hcmp hs hc.nodup⟩

/-- **A list of at most 2^31 nodes is sorted.** -/
theorem chulaListSort_ok (hcmp : TotalPreorder cmp) (hc : h.Circular head ns) (hlen : ns.length ≤ 2 ^ 31) :
    ∃ turns h' ns', chulaListSort cmp turns head h = .ok h' ∧ h'.Circular head ns' ∧ StablySorted cmp ns ns' := by
  refine ⟨ns.length + 33, ?_⟩
  cases ns with
  | nil =>
    obtain ⟨h1, hdel, hc1⟩ := chulaListDel_empty hc
    obtain ⟨h2, b, t, hloop, hc2, hs⟩ := sortLoop_stable hcmp hc1
      (show 1 ≤ 2 ^ 31 by omega) (([] : List α).length + 33) (show 1 + 31 ≤ 0 + 33 by omega)
    -- the head is the only entry of the ring
    obtain ⟨rfl, rfl⟩ := List.cons_eq_cons.mp (List.perm_singleton.mp hs.perm)
    obtain ⟨h3, hattach, hc3⟩ := reattach_empty hc2
    have hnext : h.next b = b := (List.isChain_cons_cons.mp hc.linked).1.1
    refine ⟨h3, [], ?_, hc3, .refl _, .nil, fun a c hac _ => hac⟩
    rw [chulaListSort, ok_then hdel, hnext, ok_then hloop]
    exact hattach
  | cons a t =>
    obtain ⟨h1, hdel, hc1⟩ := chulaListDel_circular hc
    obtain ⟨h2, b, t', hloop, hc2, hs⟩ := sortLoop_stable hcmp hc1 hlen ((a :: t).length + 33) (by omega)
    have hhead : head ∉ b :: t' := fun hmem => (List.nodup_cons.mp hc.nodup).1 (hs.perm.subset hmem)
    obtain ⟨h3, hattach, hc3⟩ := reattach_circular hc2 hhead
    have hnext : h.next head = a := (List.isChain_cons_cons.mp hc.linked).1.1
    refine ⟨h3, b :: t', ?_, hc3, hs⟩
    rw [chulaListSort, ok_then hdel, hnext, ok_then hloop]
    exact hattach

/-- **A longer one is not.** -/
theorem chulaListSort_overflow (hc : h.Circular head ns) (hlen : 2 ^ 31 < ns.length) (turns : ℕ) (h' : ListHeap α) :
    chulaListSort cmp turns head h ≠ .ok h' := by
  intro hr
  cases ns with
  | nil =>
    rw [List.length_nil] at hlen
    omega
  | cons a t =>
    obtain ⟨h1, hdel, hc1⟩ := chulaListDel_circular hc
    have hnext : h.next head = a := (List.isChain_cons_cons.mp hc.linked).1.1
    rw [chulaListSort, ok_then hdel, hnext] at hr
    obtain ⟨r, hloop, -⟩ := ok_of_then hr
    exact sortLoop_overflow turns h1 a t 0 (Nat.zero_le _) hc1 hlen r hloop

end List

/-- **chula_list_sort is a stable sort**, of every list of at most 2^31 nodes.  In a longer one, the length of the runs is
doubled to 2^31, which `int` does not have. -/
theorem list_sort_stable (cmp : α → α → ℤ) (hcmp : TotalPreorder cmp) (h : ListHeap α) (head : α) (ns : List α)
    (hc : h.Circular head ns) :
    (∃ turns h' ns', chulaListSort cmp turns head h = .ok h' ∧ h'.Circular head ns' ∧ StablySorted cmp ns ns') ↔
      ns.length ≤ 2 ^ 31 := by
  constructor
  · rintro ⟨turns, h', ns', hsort, -⟩
    by_contra hlen
    exact chulaListSort_overflow hc (by omega) turns h' hsort
  · exact chulaListSort_ok hcmp hc

/-- The list of the numbers from 1 to `n`, headed by 0. -/
def rangeHeap (n : ℕ) : ListHeap ℕ where
  next i := if i = n then 0 else i + 1
  prev i := if i = 0 then some n else some (i - 1)

theorem rangeHeap_circular (n : ℕ) : (rangeHeap n).Circular 0 (List.range' 1 n) := by
  have hcons : 0 :: List.range' 1 n = List.range' 0 (n + 1) := by rw [List.range'_succ]
  have hconcat : List.range' 0 (n + 1) = List.range' 0 n ++ [n] := by rw [List.range'_1_concat, Nat.zero_add]
  refine ⟨by rw [hcons]; exact List.nodup_range', ?_⟩
  rw [hcons, hconcat, List.append_assoc, List.singleton_append, List.isChain_split, List.isChain_pair]
  have hback : (rangeHeap n).Linked n 0 := by simp [rangeHeap, ListHeap.Linked]
  refine ⟨?_, hback⟩
  have hchain := List.isChain_range' 0 (n + 1) 1
  rw [hconcat] at hchain
  apply isChain_concat_imp hchain
  rintro a ha b - rfl
  have hlt : a < n := by simpa using ha
  simp [rangeHeap, ListHeap.Linked, hlt.ne]

/-- The order of the numbers. -/
theorem totalPreorder_sub : TotalPreorder fun a b : ℕ => (a : ℤ) - b where
  trans a b c hab hbc := by omega
  total a b := by omega

theorem list_sort_stable_seven :
    ∃ turns h' ns', chulaListSort (fun a b : ℕ => (a : ℤ) - b) turns 0 (rangeHeap 7) = .ok h' ∧ h'.Circular 0 ns' ∧
      StablySorted (fun a b : ℕ => (a : ℤ) - b) (List.range' 1 7) ns' :=
  (list_sort_stable _ totalPreorder_sub (rangeHeap 7) 0 (List.range' 1 7) (rangeHeap_circular 7)).mpr (by decide)

/-- **A list of 2^31 + 1 nodes** is not sorted, however many turns the loops get. -/
theorem list_sort_overflows :
    TotalPreorder (fun a b : ℕ => (a : ℤ) - b) ∧ (rangeHeap (2 ^ 31 + 1)).Circular 0 (List.range' 1 (2 ^ 31 + 1)) ∧
      ∀ turns h', chulaListSort (fun a b : ℕ => (a : ℤ) - b) turns 0 (rangeHeap (2 ^ 31 + 1)) ≠ .ok h' :=
  ⟨totalPreorder_sub, rangeHeap_circular _,
    chulaListSort_overflow (rangeHeap_circular _) (by rw [List.length_range']; exact Nat.lt_succ_self _)⟩

end LibHpack
