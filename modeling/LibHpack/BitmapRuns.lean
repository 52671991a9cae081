import Mathlib.Data.Set.Basic
import LibHpack.BitmapSet

/-!
# LibHpack.BitmapRuns — histories of sets, against mathematical sets

A history is a list of operations on any number of sets; beside it runs the same history on subsets of the slots
(`slotsStep`).  The one step lemma is `setStep_refines`: the words have the members that the mathematical sets have.

The iterator returns the members in their order, but it does not return all of them (`iterYields_iff`): where a word is
hidden (`Hidden`), the members behind the place are skipped.
-/

namespace LibHpack

/-! ### Histories -/

/-- The operations, on the sets with these numbers; the first one is changed. -/
inductive SetOp
  | init (a : ℕ) (fillSet : Bool)
  | add (a idx : ℕ)
  | remove (a idx : ℕ)
  | union (a b : ℕ)
  | relativeComp (a b : ℕ)
  | intersection (a b : ℕ)
  | complement (a : ℕ)
  | clear (a : ℕ)
  | fill (a : ℕ)
  | set (a b : ℕ)

/-- One operation, whatever it returns. -/
def setStep (sets : ℕ → HpackSet) : SetOp → ℕ → HpackSet
  | .init a fillSet => Function.update sets a (hpackSetInit fillSet)
  | .add a idx => Function.update sets a (hpackSetAdd (sets a) idx).2
  | .remove a idx => Function.update sets a (hpackSetRemove (sets a) idx).2
  | .union a b => Function.update sets a (hpackSetUnion (sets a) (sets b))
  | .relativeComp a b => Function.update sets a (hpackSetRelativeComp (sets a) (sets b))
  | .intersection a b => Function.update sets a (hpackSetIntersection (sets a) (sets b))
  | .complement a => Function.update sets a (hpackSetComplement (sets a))
  | .clear a => Function.update sets a hpackSetClear
  | .fill a => Function.update sets a hpackSetFill
  | .set a b => Function.update sets a (hpackSetSet (sets b))

def setRun (sets : ℕ → HpackSet) (ops : List SetOp) : ℕ → HpackSet := ops.foldl setStep sets

/-- The slots. -/
def slots : Set ℕ := {i | i < 128}

/-- The same operation on mathematical sets. -/
def slotsStep (S : ℕ → Set ℕ) : SetOp → ℕ → Set ℕ
  | .init a fillSet => Function.update S a (if fillSet then slots else ∅)
  | .add a idx => Function.update S a (if idx < 128 then insert idx (S a) else S a)
  | .remove a idx => Function.update S a (S a \ {idx})
  | .union a b => Function.update S a (S a ∪ S b)
  | .relativeComp a b => Function.update S a (S a \ S b)
  | .intersection a b => Function.update S a (S a ∩ S b)
  | .complement a => Function.update S a (slots \ S a)
  | .clear a => Function.update S a ∅
  | .fill a => Function.update S a slots
  | .set a b => Function.update S a (S b)

def slotsRun (S : ℕ → Set ℕ) (ops : List SetOp) : ℕ → Set ℕ := ops.foldl slotsStep S

/-- The members of a set. -/
def HpackSet.members (s : HpackSet) : Set ℕ := {i | hpackSetExists s i = true}

section Histories

variable {s s1 s2 : HpackSet} {sets : ℕ → HpackSet} {S : ℕ → Set ℕ}

theorem mem_members {i : ℕ} : i ∈ s.members ↔ hpackSetExists s i = true := Iff.rfl

theorem members_subset (s : HpackSet) : s.members ⊆ slots := fun _ h => lt_of_exists h

@[simp] theorem members_clear : hpackSetClear.members = ∅ := by
  ext i
  simp [mem_members]

@[simp] theorem members_fill : hpackSetFill.members = slots := by
  ext i
  exact ⟨lt_of_exists, exists_fill⟩

@[simp] theorem members_init (fillSet : Bool) : (hpackSetInit fillSet).members = if fillSet then slots else ∅ := by
  cases fillSet
  · exact members_clear
  · exact members_fill

@[simp] theorem members_add (idx : ℕ) :
    (hpackSetAdd s idx).2.members = if idx < 128 then insert idx s.members else s.members := by
  split_ifs with hidx
  · ext i
    simp [mem_members, exists_add hidx]
  · rw [hpackSetAdd, if_pos (not_lt.mp hidx)]

@[simp] theorem members_remove (idx : ℕ) : (hpackSetRemove s idx).2.members = s.members \ {idx} := by
  by_cases hidx : idx < 128
  · ext i
    simp [mem_members, exists_remove hidx, and_comm]
  · have hnot : idx ∉ s.members := fun h => hidx (lt_of_exists h)
    rw [hpackSetRemove, if_pos (not_lt.mp hidx), Set.sdiff_singleton_eq_self hnot]

@[simp] theorem members_union : (hpackSetUnion s1 s2).members = s1.members ∪ s2.members := by
  ext i
  simp [mem_members, exists_union]

@[simp] theorem members_relativeComp : (hpackSetRelativeComp s1 s2).members = s1.members \ s2.members := by
  ext i
  simp [mem_members, exists_relativeComp]

@[simp] theorem members_intersection : (hpackSetIntersection s1 s2).members = s1.members ∩ s2.members := by
  ext i
  simp [mem_members, exists_intersection]

@[simp] theorem members_complement : (hpackSetComplement s).members = slots \ s.members := by
  ext i
  simp [mem_members, exists_complement, slots]

theorem members_update (a : ℕ) :
    (fun b => (Function.update sets a s b).members) = Function.update (fun b => (sets b).members) a s.members := by
  ext1 b
  exact Function.apply_update (fun _ => HpackSet.members) sets a s b

/-- **The step lemma.** -/
theorem setStep_refines (sets : ℕ → HpackSet) (op : SetOp) :
    (fun a => (setStep sets op a).members) = slotsStep (fun a => (sets a).members) op := by
  cases op <;> rw [setStep, members_update, slotsStep] <;> simp [hpackSetSet]

/-- The words of a history are the mathematical sets of it. -/
theorem setRun_refines (sets : ℕ → HpackSet) (ops : List SetOp) :
    (fun a => (setRun sets ops a).members) = slotsRun (fun a => (sets a).members) ops := by
  induction ops generalizing sets with
  | nil => rfl
  | cons op ops ih =>
    rw [setRun, List.foldl_cons, ← setRun, ih, setStep_refines]
    rfl

theorem isEmpty_members : hpackSetIsEmpty s = true ↔ s.members = ∅ := by
  rw [isEmpty_iff, Set.eq_empty_iff_forall_notMem]
  simp [mem_members]

theorem isFull_members : hpackSetIsFull s = true ↔ s.members = slots := by
  rw [isFull_iff]
  exact ⟨fun h => (members_subset s).antisymm h, fun h i hi => mem_members.mp (h ▸ hi)⟩

theorem equals_members : hpackSetEquals s1 s2 = true ↔ s1.members = s2.members := by
  rw [equals_iff, Set.ext_iff]
  exact forall_congr' fun i => Bool.eq_iff_iff

end Histories

/-! ### Iteration -/

/-- The calls of `hpack_set_iter_next` return the slots of the list, and then `-1`. -/
inductive IterYields (s : HpackSet) : SetIterator → List ℕ → Prop
  | done {it it' : SetIterator} (h : hpackSetIterNext s it = (none, it')) : IterYields s it []
  | next {it it' : SetIterator} {i : ℕ} {l : List ℕ} (h : hpackSetIterNext s it = (some i, it'))
      (hrest : IterYields s it' l) : IterYields s it (i :: l)

/-- The condition on the members: in no word slot 30 is followed by none at 31 and one behind it, and in no word without
slot 31 slot 62 is followed by 63. -/
def Unhidden (S : Set ℕ) : Prop :=
  ∀ w < 2, ¬ (64 * w + 30 ∈ S ∧ 64 * w + 31 ∉ S ∧ ∃ j ∈ S, 64 * w + 32 ≤ j ∧ j < 64 * (w + 1)) ∧
    ¬ (64 * w + 62 ∈ S ∧ 64 * w + 63 ∈ S ∧ 64 * w + 31 ∉ S)

section Iteration

variable {s : HpackSet} {i p q : ℕ} {l : List ℕ}

theorem slotsFrom_eq_cons (h : slotsFrom s p = i :: l) :
    hpackSetExists s i = true ∧ p ≤ i ∧ l = slotsFrom s (i + 1) := by
  obtain ⟨hp, hi⟩ := mem_slotsFrom.mp (h ▸ List.mem_cons_self)
  have hsorted := sorted_slotsFrom s p
  rw [h] at hsorted
  have hcons : slotsFrom s p = i :: slotsFrom s (i + 1) := by
    refine slotsFrom_cons hi hp fun j hj hlt hex => ?_
    have hmem := mem_slotsFrom.mpr ⟨hj, hex⟩
    rw [h] at hmem
    rcases List.mem_cons.mp hmem with rfl | hmem
    · exact absurd hlt (lt_irrefl j)
    · exact absurd ((List.pairwise_cons.mp hsorted).1 j hmem) hlt.not_gt
  exact ⟨hi, hp, (List.cons.inj (h.symm.trans hcons)).2⟩

/-- **All slots are returned** when no search starts behind one. -/
theorem iterYields_iff (hp : p ≤ 128) : IterYields s (iterAt p) (slotsFrom s p) ↔
    slotsFrom s (searchFrom s p) = slotsFrom s p ∧
      ∀ i ∈ slotsFrom s p, slotsFrom s (searchFrom s (i + 1)) = slotsFrom s (i + 1) := by
  generalize hl : slotsFrom s p = l
  have hnext := iterNext_eq (s := s) hp
  induction l generalizing p with
  | nil =>
    constructor
    · rintro (⟨h⟩ | _)
      refine ⟨?_, fun i hi => absurd hi List.not_mem_nil⟩
      cases hfrom : slotsFrom s (searchFrom s p) with
      | nil => rfl
      | cons i l =>
        rw [hnext, hfrom] at h
        cases h
    · rintro ⟨hfrom, -⟩
      rw [hfrom] at hnext
      exact .done hnext
  | cons i l ih =>
    obtain ⟨hi, hpi, rfl⟩ := slotsFrom_eq_cons hl
    have hlt := lt_of_exists hi
    have hrest := ih (p := i + 1) (by omega) rfl (iterNext_eq (by omega))
    rw [List.forall_mem_cons]
    constructor
    · intro h
      cases h with
      | next h hyields =>
        cases hfrom : slotsFrom s (searchFrom s p) with
        | nil =>
          rw [hnext, hfrom] at h
          cases h
        | cons j l =>
          rw [hnext, hfrom] at h
          cases h
          rw [(slotsFrom_eq_cons hfrom).2.2]
          exact ⟨rfl, hrest.mp hyields⟩
    · rintro ⟨hfrom, hlater⟩
      rw [hfrom] at hnext
      exact .next hnext (hrest.mpr hlater)

/-- When a search misses nothing. -/
theorem slotsFrom_searchFrom : slotsFrom s (searchFrom s p) = slotsFrom s p ↔
    (Hidden s p → ∀ j, p ≤ j → j < 64 * (p / 64 + 1) → ¬ hpackSetExists s j = true) := by
  by_cases hhid : Hidden s p
  · rw [searchFrom, if_pos hhid]
    constructor
    · intro h _ j hj hlt hex
      have hmem := mem_slotsFrom.mpr ⟨hj, hex⟩
      rw [← h, mem_slotsFrom] at hmem
      omega
    · intro h
      exact (slotsFrom_congr (by omega) (h hhid)).symm
  · rw [searchFrom, if_neg hhid]
    exact iff_of_true rfl fun h => absurd h hhid

/-- It does not behind any member, under the condition. -/
theorem unhidden_iff : Unhidden s.members ↔
    ∀ i ∈ slotsFrom s 0, slotsFrom s (searchFrom s (i + 1)) = slotsFrom s (i + 1) := by
  simp only [slotsFrom_searchFrom, mem_slotsFrom]
  constructor
  · rintro h i ⟨-, hi⟩ hhid j hj hlt hex
    have hlast := lt_of_exists hi
    obtain ⟨hhalf, hend⟩ := h (i / 64) (by omega)
    rcases hhid with ⟨h31, hnot⟩ | ⟨h63, hnot⟩
    · rw [show i + 1 = 64 * (i / 64) + 31 by omega] at hnot
      have hne : j ≠ 64 * (i / 64) + 31 := fun heq => hnot (heq ▸ hex)
      rw [show i = 64 * (i / 64) + 30 by omega] at hi
      exact hhalf ⟨hi, hnot, j, hex, by omega, by omega⟩
    · rw [show i + 1 - 32 = 64 * (i / 64) + 31 by omega] at hnot
      rw [show j = 64 * (i / 64) + 63 by omega] at hex
      rw [show i = 64 * (i / 64) + 62 by omega] at hi
      exact hend ⟨hi, hex, hnot⟩
  · intro h w hw
    refine ⟨?_, ?_⟩
    · rintro ⟨hi, hnot, j, hex, hle, hlt⟩
      exact h _ ⟨Nat.zero_le _, hi⟩ (.inl ⟨by omega, hnot⟩) j (by omega) (by omega) hex
    · rintro ⟨hi, hex, hnot⟩
      refine h _ ⟨Nat.zero_le _, hi⟩ (.inr ⟨by omega, ?_⟩) _ (by omega) (by omega) hex
      rwa [show 64 * w + 62 + 1 - 32 = 64 * w + 31 by omega]

end Iteration

/-! ### The set of a history -/

/-- The answers about a set, and the indices that it rejects. -/
structure AgreesWith (s : HpackSet) (S : Set ℕ) : Prop where
  hasMembers : ∀ i, hpackSetExists s i = true ↔ i ∈ S
  isEmpty : hpackSetIsEmpty s = true ↔ S = ∅
  isFull : hpackSetIsFull s = true ↔ S = slots
  accepts : ∀ i < 128, (hpackSetAdd s i).1 = .ok ∧ (hpackSetRemove s i).1 = .ok
  rejects : ∀ i, 128 ≤ i → hpackSetAdd s i = (.error, s) ∧ hpackSetRemove s i = (.error, s)

/-- The iterator returns the members, each once and in their order, and then `-1`. -/
def Iterates (s : HpackSet) (S : Set ℕ) : Prop :=
  ∃ l : List ℕ, l.Pairwise (· < ·) ∧ (∀ i, i ∈ l ↔ i ∈ S) ∧ IterYields s hpackSetIterInit l ∧
    IterYields s hpackSetIterReset l

theorem agreesWith_members (s : HpackSet) : AgreesWith s s.members where
  hasMembers _ := Iff.rfl
  isEmpty := isEmpty_members
  isFull := isFull_members
  accepts i hi := by
    rw [hpackSetAdd, hpackSetRemove, if_neg (not_le.mpr hi), if_neg (not_le.mpr hi)]
    exact ⟨rfl, rfl⟩
  rejects i hi := by
    rw [hpackSetAdd, hpackSetRemove, if_pos hi, if_pos hi]
    exact ⟨rfl, rfl⟩

theorem iterates_members (s : HpackSet) : Iterates s s.members ↔ Unhidden s.members := by
  have hyields := iterYields_iff (s := s) (Nat.zero_le 128)
  have hmem : ∀ i, i ∈ slotsFrom s 0 ↔ i ∈ s.members := fun i => by
    rw [mem_slotsFrom, mem_members]
    exact and_iff_right (Nat.zero_le i)
  rw [unhidden_iff]
  constructor
  · rintro ⟨l, hsorted, hl, hinit, -⟩
    -- the list is that of the slots
    have heq : l = slotsFrom s 0 := by
      refine hsorted.eq_of_mem_iff (sorted_slotsFrom s 0) fun i => ?_
      rw [hl, hmem]
    exact (hyields.mp (heq ▸ hinit)).2
  · intro h
    have hfirst : slotsFrom s (searchFrom s 0) = slotsFrom s 0 := by rw [searchFrom_word 0]
    exact ⟨slotsFrom s 0, sorted_slotsFrom s 0, hmem, hyields.mpr ⟨hfirst, h⟩, hyields.mpr ⟨hfirst, h⟩⟩

/-- **The sets of a history are finite sets of slots**, and the iterator goes through one of them exactly when none of
its members is hidden. -/
theorem sets_refine (mem : ℕ → HpackSet) (ops : List SetOp) (a b : ℕ) :
    AgreesWith (setRun mem ops a) (slotsRun (fun k => (mem k).members) ops a) ∧
    (hpackSetEquals (setRun mem ops a) (setRun mem ops b) = true ↔
      slotsRun (fun k => (mem k).members) ops a = slotsRun (fun k => (mem k).members) ops b) ∧
    (Iterates (setRun mem ops a) (slotsRun (fun k => (mem k).members) ops a) ↔
      Unhidden (slotsRun (fun k => (mem k).members) ops a)) := by
  rw [← setRun_refines]
  exact ⟨agreesWith_members _, equals_members, iterates_members _⟩

/-- Behind slot 30 the mask has slot 31 only, and slot 32 is not found. -/
theorem sets_refine_skipped :
    slotsRun (fun _ => ∅) [.init 0 false, .add 0 30, .add 0 32] 0 = {30, 32} ∧
      ¬ Iterates (setRun (fun _ => hpackSetClear) [.init 0 false, .add 0 30, .add 0 32] 0) {30, 32} := by
  refine ⟨?_, ?_⟩
  · ext i
    simp [slotsRun, slotsStep, or_comm]
  · rintro ⟨l, -, hmem, hyields, -⟩
    have hfirst : hpackSetIterNext (setRun (fun _ => hpackSetClear) [.init 0 false, .add 0 30, .add 0 32] 0)
        hpackSetIterInit = (some 30, ⟨31, 0⟩) := by decide
    have hsecond : hpackSetIterNext (setRun (fun _ => hpackSetClear) [.init 0 false, .add 0 30, .add 0 32] 0) ⟨31, 0⟩ =
        (none, ⟨0, 2⟩) := by decide
    have h32 : 32 ∈ l := (hmem 32).mpr (by simp)
    rcases hyields with ⟨h⟩ | ⟨h, hrest⟩
    · cases hfirst.symm.trans h
    · cases hfirst.symm.trans h
      rcases hrest with ⟨h⟩ | ⟨h, -⟩
      · simp at h32
      · cases hsecond.symm.trans h

end LibHpack
