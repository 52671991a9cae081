import LibHpack.Avl.Teardown
import LibHpack.Buffer.Model

/-!
# LibHpack.Avl.Map — byte strings as keys (libchula avl.c)

`chula_avl_t` compares its keys with `chula_buffer_cmp_buf`: the longer key is the greater one, and keys of equal length
are compared by `memcmp`.  The searches store the result in a `short`, so two keys whose lengths differ by 32768 octets or
more may compare the wrong way round or, when the difference is a multiple of 65536, as equal.  `Tells` is the condition
that they do not; under it the tree is the finite map of its calls.
-/

namespace LibHpack.Avl

open BinaryTree Heap Run

/-- The buffer `key` of `chula_avl_node_t`. -/
structure AvlKey where
  octets : List UInt8

/-- What a key is ordered by: its length, and then its octets. -/
def AvlKey.rank (k : AvlKey) : ℕ ×ₗ List ℕ := toLex (k.octets.length, k.octets.map UInt8.toNat)

theorem rank_injective : Function.Injective AvlKey.rank := by
  rintro ⟨a⟩ ⟨b⟩ h
  have hmap : a.map UInt8.toNat = b.map UInt8.toNat := congrArg (fun p => (ofLex p).2) h
  have hab : a = b := List.map_injective_iff.2 (fun x y => UInt8.toNat_inj.1) hmap
  rw [hab]

instance : LinearOrder AvlKey := LinearOrder.lift' AvlKey.rank rank_injective

theorem avlKey_lt {a b : AvlKey} : a < b ↔ a.octets.length < b.octets.length ∨
    a.octets.length = b.octets.length ∧ a.octets.map UInt8.toNat < b.octets.map UInt8.toNat := by
  change a.rank < b.rank ↔ _
  rw [AvlKey.rank, AvlKey.rank, Prod.Lex.toLex_lt_toLex]

/-- `memcmp`: the comparison of the first octets that differ, with a result of one octet and a sign. -/
structure IsMemcmp (memcmp : List UInt8 → List UInt8 → ℤ) : Prop where
  lt : ∀ a b, a.length = b.length → (memcmp a b < 0 ↔ a.map UInt8.toNat < b.map UInt8.toNat)
  gt : ∀ a b, a.length = b.length → (0 < memcmp a b ↔ b.map UInt8.toNat < a.map UInt8.toNat)
  range : ∀ a b, -255 ≤ memcmp a b ∧ memcmp a b ≤ 255

/-- `chula_buffer_cmp_buf`. -/
def chulaBufferCmpBuf (memcmp : List UInt8 → List UInt8 → ℤ) (a b : AvlKey) : ℤ :=
  if b.octets.length < a.octets.length then toInt (a.octets.length - b.octets.length)
  else if a.octets.length < b.octets.length then toInt (-(b.octets.length - a.octets.length))
  else memcmp a.octets b.octets

/-- The virtual methods of `chula_avl_init`, of a tree that is not `case_insensitive`. -/
def chulaAvlMethods (memcmp : List UInt8 → List UInt8 → ℤ) : AvlMethods AvlKey where
  nodeCmp := chulaBufferCmpBuf memcmp
  nodeIsEmpty k := k.octets.isEmpty

/-- The difference of the lengths of two keys has the same sign as a `short`. -/
def Tells (k k' : AvlKey) : Prop :=
  (toShort (k.octets.length - k'.octets.length) < 0 ↔ k.octets.length < k'.octets.length) ∧
    (0 < toShort (k.octets.length - k'.octets.length) ↔ k'.octets.length < k.octets.length)

instance (k k' : AvlKey) : Decidable (Tells k k') := inferInstanceAs (Decidable (_ ∧ _))

section Map

variable {V : Type} {memcmp : List UInt8 → List UInt8 → ℤ} {s : AvlGeneric AvlKey V} {t : BinaryTree (AvlEntry AvlKey V)}
  {f : AvlKey → Option V}

/-- `chula_avl_add`; the new node is at the address `a`. -/
def chulaAvlAdd (memcmp : List UInt8 → List UInt8 → ℤ) (turns : ℕ) (s : AvlGeneric AvlKey V) (a : ℕ) (key : AvlKey)
    (value : V) : Except AvlFault (Ret × AvlGeneric AvlKey V) :=
  chulaAvlGenericAdd (chulaAvlMethods memcmp) turns (s.create a key) (some a) value

/-- `chula_avl_del`. -/
def chulaAvlDel (memcmp : List UInt8 → List UInt8 → ℤ) (turns : ℕ) (s : AvlGeneric AvlKey V) (key : AvlKey) :
    Except AvlFault (Ret × Option V × AvlGeneric AvlKey V) :=
  chulaAvlGenericDel (chulaAvlMethods memcmp) turns s key

/-- `chula_avl_get`. -/
def chulaAvlGet (memcmp : List UInt8 → List UInt8 → ℤ) (turns : ℕ) (s : AvlGeneric AvlKey V) (key : AvlKey) :
    Except AvlFault (Ret × Option V) :=
  chulaAvlGenericGet (chulaAvlMethods memcmp) turns s key

theorem nodeIsEmpty_eq_false {key : AvlKey} (h : key.octets ≠ []) : (chulaAvlMethods memcmp).nodeIsEmpty key = false := by
  simpa [chulaAvlMethods] using h

theorem agrees_of_tells (hmem : IsMemcmp memcmp) {key : AvlKey} (hlen : key.octets.length < 2 ^ 31)
    (ht : ∀ e ∈ t.inorder, e.key.octets.length < 2 ^ 31 ∧ Tells key e.key) : Agrees (chulaAvlMethods memcmp) key t := by
  intro e he
  obtain ⟨hlen', hlt, hgt⟩ := ht e he
  obtain ⟨h1, h2⟩ := hmem.range key.octets e.key.octets
  have hshort : toShort (memcmp key.octets e.key.octets) = memcmp key.octets e.key.octets :=
    Int.bmod_eq_of_le (by omega) (by omega)
  rw [avlKey_lt, avlKey_lt]
  simp only [chulaAvlMethods, chulaBufferCmpBuf]
  split_ifs with h h'
  · rw [show toInt (key.octets.length - e.key.octets.length) = key.octets.length - e.key.octets.length from
      Int.bmod_eq_of_le (by omega) (by omega), hlt, hgt]
    omega
  · rw [show toInt (-(e.key.octets.length - key.octets.length)) = key.octets.length - e.key.octets.length by
      rw [neg_sub]
      exact Int.bmod_eq_of_le (by omega) (by omega), hlt, hgt]
    omega
  · have heq : key.octets.length = e.key.octets.length := by omega
    rw [hshort, hmem.lt _ _ heq, hmem.gt _ _ heq]
    simp [heq]

/-- What a call of a run does not run into: a key that does not tell from one in the tree, and a tree with more levels
than `path` has room for. -/
structure Meets (s : AvlGeneric AvlKey V) (c : AvlCall AvlKey V) : Prop where
  allocates : c.Allocates s
  nonempty : c.key.octets ≠ []
  length : c.key.octets.length < 2 ^ 31
  tells : ∀ a n, s.nodes a = some n → Tells c.key n.key
  levels : ∀ t, ThreadedAvl s t → t.height ≤ maxHeight

/-- The runs each call of which meets the condition. -/
inductive MapRuns (memcmp : List UInt8 → List UInt8 → ℤ) : List (AvlCall AvlKey V) → AvlGeneric AvlKey V → Prop
  | init : MapRuns memcmp [] emptyTree
  | call {calls : List (AvlCall AvlKey V)} {s s' : AvlGeneric AvlKey V} {c : AvlCall AvlKey V} {turns : ℕ} {ret : Ret}
      {value : Option V} : MapRuns memcmp calls s → Meets s c →
      c.perform (chulaAvlMethods memcmp) turns s = .ok (ret, value, s') → MapRuns memcmp (calls ++ [c]) s'

theorem length_of_contents {calls : List (AvlCall AvlKey V)} (h : MapRuns memcmp calls s) {k : AvlKey} {v : V}
    (hk : contents (chulaAvlMethods memcmp) calls k = some v) : k.octets.length < 2 ^ 31 := by
  induction h generalizing v with
  | init => cases hk
  | @call calls s s' c turns ret value hr hmeets hp ih =>
    rw [contents_concat] at hk
    by_cases hkc : k = c.key
    · exact hkc ▸ hmeets.length
    · rw [change_of_ne _ _ hkc] at hk
      exact ih hk

/-- A key that tells from those in memory agrees with the tree. -/
theorem Keeps.agrees (hmem : IsMemcmp memcmp) {calls : List (AvlCall AvlKey V)} (h : MapRuns memcmp calls s)
    (hk : Keeps s (contents (chulaAvlMethods memcmp) calls) t) {key : AvlKey} (hlen : key.octets.length < 2 ^ 31)
    (htells : ∀ a n, s.nodes a = some n → Tells key n.key) : Agrees (chulaAvlMethods memcmp) key t := by
  refine agrees_of_tells hmem hlen fun e he => ⟨?_, ?_⟩
  · exact length_of_contents h ((hk.models _ _).2 ⟨e, he, rfl, rfl⟩)
  · obtain ⟨c, l, r, ht⟩ := exists_plug_of_mem he
    have hkey := htells _ _ (hk.threaded.nodes c e l r ht)
    exact hkey

/-- A call that meets the condition returns. -/
theorem Keeps.returns (hmem : IsMemcmp memcmp) {calls : List (AvlCall AvlKey V)} (h : MapRuns memcmp calls s)
    (hk : Keeps s (contents (chulaAvlMethods memcmp) calls) t) {c : AvlCall AvlKey V} (hmeets : Meets s c) {turns : ℕ}
    (hturns : t.height ≤ turns) : ∃ p, c.perform (chulaAvlMethods memcmp) turns s = .ok p ∧
      MapRuns memcmp (calls ++ [c]) p.2.2 ∧ Performs (chulaAvlMethods memcmp) s (contents (chulaAvlMethods memcmp) calls) c p := by
  have hperf : Yields (Excused t turns) (c.perform (chulaAvlMethods memcmp) turns s) _ :=
    call_performs hk (hk.agrees hmem h hmeets.length hmeets.tells) hmeets.allocates
  cases hp : c.perform (chulaAvlMethods memcmp) turns s with
  | error e =>
    have hheight := hmeets.levels t hk.threaded
    rw [hp, yields_error, Excused] at hperf
    omega
  | ok p =>
    rw [hp, yields_ok] at hperf
    exact ⟨p, rfl, h.call hmeets hp, hperf⟩

theorem mapRuns_keeps (hmem : IsMemcmp memcmp) {calls : List (AvlCall AvlKey V)} (h : MapRuns memcmp calls s) :
    ∃ t, Keeps s (contents (chulaAvlMethods memcmp) calls) t := by
  induction h with
  | init => exact ⟨nil, accounts_emptyTree.keeps⟩
  | @call calls s s' c turns ret value hr hmeets hp ih =>
    obtain ⟨t, hk⟩ := ih
    have ha := hk.agrees hmem hr hmeets.length hmeets.tells
    have hperf : Yields (Excused t turns) (c.perform (chulaAvlMethods memcmp) turns s) _ :=
      call_performs hk ha hmeets.allocates
    rw [hp, yields_ok] at hperf
    rw [contents_concat]
    exact hperf.keeps

theorem chulaAvlGet_eq {turns : ℕ} (hk : Keeps s f t) {key : AvlKey} (ha : Agrees (chulaAvlMethods memcmp) key t)
    (hne : key.octets ≠ []) (hturns : t.height ≤ turns) :
    chulaAvlGet memcmp turns s key = .ok (if (f key).isSome then .ok else .notFound, f key) := by
  obtain ⟨⟨g, hroot, o⟩, -, hs, hm⟩ := hk
  rw [chulaAvlGet, chulaAvlGenericGet, nodeIsEmpty_eq_false hne, if_neg (by simp), hroot]
  rcases t with _ | ⟨e, l, r⟩
  · rw [hm.eq_none (by simp)]
    rfl
  · exact getLoop_eq hs ha hm o turns [] e l r rfl ⟨by simp [before], by simp [after]⟩ hturns

/-- **Runs.**  In a run whose calls meet the condition, the tree is the finite map from byte strings that the calls stand
for: every further call that meets it, and every lookup of a key that tells from those in the tree, returns what the map
says. -/
theorem chulaAvl_map (hmem : IsMemcmp memcmp) {calls : List (AvlCall AvlKey V)} (h : MapRuns memcmp calls s) :
    ∃ turns₀, ∀ turns, turns₀ ≤ turns →
      (∀ key : AvlKey, key.octets ≠ [] → key.octets.length < 2 ^ 31 → (∀ a n, s.nodes a = some n → Tells key n.key) →
        chulaAvlGet memcmp turns s key = match contents (chulaAvlMethods memcmp) calls key with
          | some v => .ok (.ok, some v)
          | none => .ok (.notFound, none)) ∧
      (∀ (a : ℕ) (key : AvlKey) (v : V), Meets s (.add a key v) → ∃ ret s',
        chulaAvlAdd memcmp turns s a key v = .ok (ret, s') ∧ MapRuns memcmp (calls ++ [.add a key v]) s' ∧
          (ret = if (contents (chulaAvlMethods memcmp) calls key).isSome then .error else .ok)) ∧
      ∀ key : AvlKey, Meets s (.del key) → ∃ ret value s',
        chulaAvlDel memcmp turns s key = .ok (ret, value, s') ∧ MapRuns memcmp (calls ++ [.del key]) s' ∧
          (ret = if (contents (chulaAvlMethods memcmp) calls key).isSome then .ok else .notFound) := by
  obtain ⟨t, hk⟩ := mapRuns_keeps hmem h
  refine ⟨t.height, fun turns hturns => ⟨?_, ?_, ?_⟩⟩
  · intro key hne hlen htells
    rw [chulaAvlGet_eq hk (hk.agrees hmem h hlen htells) hne hturns]
    cases contents (chulaAvlMethods memcmp) calls key <;> rfl
  · intro a key v hmeets
    obtain ⟨⟨ret, value, s'⟩, hp, hrun, hperf⟩ := hk.returns hmem h hmeets hturns
    have hne : (chulaAvlMethods memcmp).nodeIsEmpty key = false := nodeIsEmpty_eq_false hmeets.nonempty
    refine ⟨ret, s', ?_, hrun, hperf.answer.trans (by simp [AvlCall.answer, hne])⟩
    rw [AvlCall.perform] at hp
    change (chulaAvlAdd memcmp turns s a key v >>= _) = _ at hp
    cases hadd : chulaAvlAdd memcmp turns s a key v with
    | error e =>
      rw [hadd] at hp
      cases hp
    | ok q =>
      rw [hadd] at hp
      cases hp
      rfl
  · intro key hmeets
    obtain ⟨⟨ret, value, s'⟩, hp, hrun, hperf⟩ := hk.returns hmem h hmeets hturns
    have hne : (chulaAvlMethods memcmp).nodeIsEmpty key = false := nodeIsEmpty_eq_false hmeets.nonempty
    exact ⟨ret, value, s', hp, hrun, hperf.answer.trans (by simp [AvlCall.answer, hne])⟩

/-! ### Short keys -/

theorem tells_of_short {k k' : AvlKey} (h : k.octets.length < 2 ^ 15) (h' : k'.octets.length < 2 ^ 15) : Tells k k' := by
  have hshort : toShort (k.octets.length - k'.octets.length) = k.octets.length - k'.octets.length :=
    Int.bmod_eq_of_le (by omega) (by omega)
  rw [Tells, hshort]
  omega

/-- A tree in memory has no more nodes than there are entries, whatever it is. -/
theorem Accounts.numNodes_le (hk : Accounts s f t 0) {t' : BinaryTree (AvlEntry AvlKey V)} (ht : ThreadedAvl s t') :
    t'.numNodes ≤ t.numNodes := by
  have hsub : t'.inorder.map AvlEntry.addr ⊆ t.inorder.map AvlEntry.addr := by
    intro a ha
    obtain ⟨e, he, rfl⟩ := List.mem_map.1 ha
    obtain ⟨c, l, r, hc⟩ := exists_plug_of_mem he
    obtain ⟨e', he', haddr, -⟩ := hk.entry_at (ht.nodes c e l r hc)
    exact List.mem_map.2 ⟨e', he', haddr⟩
  have hle := (ht.distinct.subperm hsub).length_le
  rwa [List.length_map, List.length_map, length_inorder, length_inorder] at hle

theorem Accounts.short {m : AvlMethods AvlKey} {calls : List (AvlCall AvlKey V)} (hk : Accounts s (contents m calls) t 0)
    (hkeys : ∀ c ∈ calls, c.key.octets ≠ [] ∧ c.key.octets.length < 2 ^ 15) :
    (∀ e ∈ t.inorder, e.key.octets.length < 2 ^ 15) ∧ ∀ a n, s.nodes a = some n → n.key.octets.length < 2 ^ 15 := by
  have hshort : ∀ e ∈ t.inorder, e.key.octets.length < 2 ^ 15 := by
    intro e he
    obtain ⟨c, hc, hck⟩ := List.mem_map.1 (mem_of_contents ((hk.models _ _).2 ⟨e, he, rfl, rfl⟩))
    rw [← hck]
    exact (hkeys c hc).2
  refine ⟨hshort, fun a n ha => ?_⟩
  obtain ⟨e, he, -, hkey⟩ := hk.entry_at ha
  rw [← hkey]
  exact hshort e he

/-- **Short keys**: every run that returned, of fewer than 4807526975 calls whose keys have between 1 and 32767 octets,
meets the condition. -/
theorem mapRuns_of_short (hmem : IsMemcmp memcmp) {calls : List (AvlCall AvlKey V)}
    (h : Reaches (chulaAvlMethods memcmp) calls s)
    (hkeys : ∀ c ∈ calls, c.key.octets ≠ [] ∧ c.key.octets.length < 2 ^ 15) (hn : calls.length < 4807526976) :
    MapRuns memcmp calls s ∧ ∃ t, Accounts s (contents (chulaAvlMethods memcmp) calls) t 0 := by
  induction h with
  | init => exact ⟨.init, nil, accounts_emptyTree⟩
  | @call calls s s' c turns ret value hr halloc hp ih =>
    rw [List.length_append, List.length_singleton] at hn
    obtain ⟨hne, hlen⟩ := hkeys c (by simp)
    have hkeys := fun c hc => hkeys c (List.mem_append_left _ hc)
    obtain ⟨hrun, t, hk⟩ := ih hkeys (by omega)
    obtain ⟨hshort, hnodes⟩ := hk.short hkeys
    have hmeets : Meets s c := by
      refine ⟨halloc, hne, by omega, fun a n ha => tells_of_short hlen (hnodes a n ha), fun t' ht => ?_⟩
      have hle := hk.numNodes_le ht
      have hcalls := numNodes_le_calls hk.sorted hk.models
      exact ht.height_le (by omega)
    have hagrees : Agrees (chulaAvlMethods memcmp) c.key t :=
      agrees_of_tells hmem (by omega) fun e he => ⟨(hshort e he).trans (by norm_num), tells_of_short hlen (hshort e he)⟩
    have hstep : Yields (Excused t turns) (c.perform (chulaAvlMethods memcmp) turns s) _ := call_accounts hk hagrees halloc
    rw [hp, yields_ok, stray_eq_zero (nodeIsEmpty_eq_false hne), zero_add] at hstep
    rw [contents_concat]
    exact ⟨hrun.call hmeets hp, hstep.2⟩

end Map

/-! ### A `memcmp`, and two keys that compare as equal -/

/-- The difference of the first octets that differ. -/
def octetDifference : List UInt8 → List UInt8 → ℤ
  | a :: as, b :: bs => if a = b then octetDifference as bs else a.toNat - b.toNat
  | _, _ => 0

theorem octetDifference_swap (a b : List UInt8) : octetDifference b a = -octetDifference a b := by
  induction a generalizing b with
  | nil => cases b <;> rfl
  | cons x a ih =>
    cases b with
    | nil => rfl
    | cons y b =>
      rw [octetDifference, octetDifference]
      by_cases h : x = y
      · rw [if_pos h, if_pos h.symm, ih]
      · rw [if_neg h, if_neg (Ne.symm h), neg_sub]

theorem octetDifference_neg_iff {a b : List UInt8} (hlen : a.length = b.length) :
    octetDifference a b < 0 ↔ a.map UInt8.toNat < b.map UInt8.toNat := by
  induction a generalizing b with
  | nil =>
    cases b with
    | nil => simp [octetDifference]
    | cons y b => cases hlen
  | cons x a ih =>
    cases b with
    | nil => cases hlen
    | cons y b =>
      rw [octetDifference, List.map_cons, List.map_cons, List.cons_lt_cons_iff]
      split_ifs with h
      · simp [h, ih (Nat.succ.inj hlen)]
      · have hne : x.toNat ≠ y.toNat := fun hxy => h (UInt8.toNat_inj.1 hxy)
        omega

theorem isMemcmp_octetDifference : IsMemcmp octetDifference where
  lt _ _ hlen := octetDifference_neg_iff hlen
  gt a b hlen := by
    rw [← octetDifference_neg_iff hlen.symm, octetDifference_swap a b]
    exact Left.neg_neg_iff.symm
  range a := by
    induction a with
    | nil =>
      intro b
      simp [octetDifference]
    | cons x a ih =>
      intro b
      cases b with
      | nil => simp [octetDifference]
      | cons y b =>
        rw [octetDifference]
        split_ifs with h
        · exact ih b
        · have hx := x.toNat_lt
          have hy := y.toNat_lt
          omega

/-- The tree with one node. -/
def oneKey (key : AvlKey) (value : ℕ) : AvlGeneric AvlKey ℕ :=
  ⟨some 0, Function.update (Function.update (fun _ => none) 0 (some (chulaAvlGenericNodeInit key))) 0
    (some { (chulaAvlGenericNodeInit key : AvlGenericNode AvlKey ℕ) with value := some value })⟩

theorem perform_oneKey {memcmp : List UInt8 → List UInt8 → ℤ} {key : AvlKey} (hne : key.octets ≠ []) (value turns : ℕ) :
    (AvlCall.add 0 key value).perform (chulaAvlMethods memcmp) turns emptyTree = .ok (.ok, none, oneKey key value) := by
  have hread : readNode (emptyTree.create 0 key : AvlGeneric AvlKey ℕ).nodes (some 0) =
      .ok (chulaAvlGenericNodeInit key) := rfl
  rw [AvlCall.perform, chulaAvlGenericAdd, ok_then hread]
  simp only [chulaAvlGenericNodeInit, nodeIsEmpty_eq_false hne]
  rfl

/-- A key of 65537 octets is found where only one of a single octet was added. -/
theorem chulaAvl_long_key : ∃ (s : AvlGeneric AvlKey ℕ) (key : AvlKey),
    Reaches (chulaAvlMethods octetDifference) [.add 0 ⟨[97]⟩ 7] s ∧ key.octets.length = 65537 ∧
      contents (chulaAvlMethods octetDifference) [.add 0 ⟨[97]⟩ 7] key = none ∧
      ∀ turns, 0 < turns → chulaAvlGet octetDifference turns s key = .ok (.ok, some 7) := by
  obtain ⟨key, hkey⟩ : ∃ key : AvlKey, key.octets.length = 65537 := ⟨⟨List.replicate 65537 97⟩, List.length_replicate⟩
  have hrun : Reaches (chulaAvlMethods octetDifference) [.add 0 ⟨[97]⟩ 7] _ :=
    Reaches.init.call (c := .add 0 ⟨[97]⟩ 7) rfl (perform_oneKey (by simp) 7 0)
  have hne : key ≠ ⟨[97]⟩ := by
    rintro rfl
    simp at hkey
  refine ⟨_, key, hrun, hkey, ?_, fun turns hturns => ?_⟩
  · rw [← List.nil_append [_], contents_concat, change_of_ne _ _ hne]
    rfl
  · obtain ⟨turns, rfl⟩ := Nat.exists_eq_succ_of_ne_zero hturns.ne'
    have hempty : (chulaAvlMethods octetDifference).nodeIsEmpty key = false := nodeIsEmpty_eq_false (by
      rintro h
      simp [h] at hkey)
    have hcmp : toShort (chulaBufferCmpBuf octetDifference key ⟨[97]⟩) = 0 := by
      rw [chulaBufferCmpBuf, hkey]
      rfl
    rw [chulaAvlGet, chulaAvlGenericGet, hempty]
    simp only [Bool.false_eq_true, if_false, oneKey, getLoop]
    simp [readNode, Heap.read, chulaAvlMethods, chulaAvlGenericNodeInit, hcmp, bind, Except.bind]

/-- The third key rotates the tree, the fourth is there already, and of the two that are deleted one is not there. -/
def rotatedKeys : List (AvlCall AvlKey ℕ) :=
  [.add 0 ⟨[97]⟩ 10, .add 1 ⟨[98]⟩ 20, .add 2 ⟨[97, 97]⟩ 30, .add 3 ⟨[98]⟩ 40, .del ⟨[97]⟩, .del ⟨[99]⟩]

theorem chulaAvl_map_rotated : ∃ (s : AvlGeneric AvlKey ℕ) (turns : ℕ), MapRuns octetDifference rotatedKeys s ∧
    chulaAvlGet octetDifference turns s ⟨[98]⟩ = .ok (.ok, some 20) ∧
    chulaAvlGet octetDifference turns s ⟨[97, 97]⟩ = .ok (.ok, some 30) ∧
    chulaAvlGet octetDifference turns s ⟨[97]⟩ = .ok (.notFound, none) := by
  obtain ⟨s, hs⟩ : ∃ s, performAll (chulaAvlMethods octetDifference) 9 rotatedKeys emptyTree = some s :=
    Option.isSome_iff_exists.1 (by decide)
  have h : Reaches (chulaAvlMethods octetDifference) rotatedKeys s := Reaches.init.performAll hs
  have hkeys : ∀ c ∈ rotatedKeys, c.key.octets ≠ [] ∧ c.key.octets.length < 2 ^ 15 := by
    simp [rotatedKeys, AvlCall.key]
  obtain ⟨hrun, t, hk⟩ := mapRuns_of_short isMemcmp_octetDifference h hkeys (by decide)
  obtain ⟨turns, hcall⟩ := chulaAvl_map isMemcmp_octetDifference hrun
  have hnodes := (hk.short hkeys).2
  refine ⟨s, turns, hrun, ?_, ?_, ?_⟩
  · exact (hcall turns le_rfl).1 ⟨[98]⟩ (by simp) (by simp) fun a n ha => tells_of_short (by simp) (hnodes a n ha)
  · exact (hcall turns le_rfl).1 ⟨[97, 97]⟩ (by simp) (by simp) fun a n ha => tells_of_short (by simp) (hnodes a n ha)
  · exact (hcall turns le_rfl).1 ⟨[97]⟩ (by simp) (by simp) fun a n ha => tells_of_short (by simp) (hnodes a n ha)

end LibHpack.Avl
