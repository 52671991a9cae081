import LibHpack.LinkedList.Runs
import LibHpack.HeaderField

/-!
# LibHpack.HeaderStore — header stores in memory (header_store.c)

The decoder and the encoder are about stores that are lists of fields (`hpackHeaderStoreEmit`).  Here are the entries in
memory that make such a list: `malloc` hands them out, `free` takes them back, and an access to an entry that is not handed
out is a fault.  `Stored` says that the entries of the ring at `head` have the fields of a list.
-/

namespace LibHpack

open ListHeap Run Function

inductive StoreFault
  | null
  | freed
  | hang
  deriving DecidableEq, Repr

/-- The links, and the fields of the entries that are handed out. -/
structure StoreMem (α : Type) where
  links : ListHeap α
  entries : α → Option HeaderField

namespace StoreMem

variable {α : Type} [DecidableEq α] (head : α)

/-- An access to a list node: that of the store itself, or one in an entry. -/
def touch (m : StoreMem α) (a : α) : Except StoreFault Unit :=
  if a = head ∨ (m.entries a).isSome then .ok () else .error .freed

/-- `entry_new`, where `malloc` returns `e`. -/
def entryNew (m : StoreMem α) (e : α) : StoreMem α where
  links := m.links.initListHead e
  entries := update m.entries e (some hpackHeaderFieldInit)

/-- `entry_free`. -/
def entryFree (m : StoreMem α) (e : α) : Except StoreFault (StoreMem α) :=
  match m.entries e with
  | none => .error .freed
  | some _ => .ok { m with entries := update m.entries e none }

/-- `hpack_header_store_init`. -/
def hpackHeaderStoreInit (m : StoreMem α) : StoreMem α := { m with links := m.links.initListHead head }

/-- `add`, which `hpack_header_store_add` and the default of `hpack_header_store_emit` are. -/
def hpackHeaderStoreAdd (m : StoreMem α) (p : α × HeaderField) : Except StoreFault (StoreMem α) := do
  let m := m.entryNew p.1
  let m := { m with entries := update m.entries p.1 (some (hpackHeaderFieldCopy hpackHeaderFieldInit p.2)) }
  match m.links.prev head with
  | none => .error .null
  | some last => do
    m.touch head last
    match m.links.chulaListAddTail p.1 head with
    | .error _ => .error .null
    | .ok links => .ok { m with links }

/-- The loop of `hpack_header_store_get_n`: the entry with the field, if there is one. -/
def getNLoop (m : StoreMem α) : ℕ → α → ℕ → Except StoreFault (Option α)
  | 0, _, _ => .error .hang
  | turns + 1, i, num =>
    if i = head then .ok none
    else do
      let num := (num + (2 ^ 32 - 1)) % 2 ^ 32
      if num = 0 then .ok (some i)
      else do
        m.touch head i
        getNLoop m turns (m.links.next i) num

/-- `hpack_header_store_get_n`. -/
def hpackHeaderStoreGetN (turns : ℕ) (m : StoreMem α) (num : ℕ) : Except StoreFault (Option α) :=
  getNLoop head m turns (m.links.next head) num

/-- The loop of `hpack_header_store_mrproper`, from `i` and `tmp` on. -/
def mrproperLoop : ℕ → StoreMem α → α → α → Except StoreFault (StoreMem α)
  | 0, _, _, _ => .error .hang
  | turns + 1, m, i, tmp =>
    if i = head then .ok m
    else do
      let m ← m.entryFree i
      m.touch head tmp
      mrproperLoop turns m tmp (m.links.next tmp)

/-- `hpack_header_store_mrproper`. -/
def hpackHeaderStoreMrproper (turns : ℕ) (m : StoreMem α) : Except StoreFault (StoreMem α) := do
  m.touch head (m.links.next head)
  mrproperLoop head turns m (m.links.next head) (m.links.next (m.links.next head))

variable {head} {m m' : StoreMem α} {s : List HeaderField} {ns : List α} {e : α} {f : HeaderField}

/-- The store at `head` has the entries `ns`, with the fields `s`. -/
structure Stored (head : α) (m : StoreMem α) (ns : List α) (s : List HeaderField) : Prop where
  ring : m.links.Circular head ns
  fields : ns.map m.entries = s.map some

theorem hpackHeaderStoreInit_stored (m : StoreMem α) : Stored head (hpackHeaderStoreInit head m) [] [] :=
  ⟨initListHead_circular m.links head, rfl⟩

omit [DecidableEq α] in
theorem Stored.isSome (h : Stored head m ns s) (he : e ∈ ns) : (m.entries e).isSome := by
  have hmem : m.entries e ∈ ns.map m.entries := List.mem_map_of_mem he
  rw [h.fields] at hmem
  obtain ⟨f, -, hf⟩ := List.mem_map.1 hmem
  rw [← hf, Option.isSome_some]

theorem touch_ok (ha : e = head ∨ (m.entries e).isSome) : m.touch head e = .ok () := if_pos ha

/-- **Adding a field**: it is copied to the end, into an entry that was not in use. -/
theorem Stored.add (h : Stored head m ns s) (he : m.entries e = none) (hne : e ≠ head) :
    ∃ m', hpackHeaderStoreAdd head m (e, f) = .ok m' ∧ Stored head m' (ns ++ [e]) (hpackHeaderStoreEmit s f) ∧
      m'.entries = update m.entries e (some (hpackHeaderFieldCopy hpackHeaderFieldInit f)) := by
  have hens : e ∉ head :: ns := by
    rw [List.mem_cons, not_or]
    refine ⟨hne, fun hmem => ?_⟩
    have hsome := h.isSome hmem
    rw [he] at hsome
    cases hsome
  have hring := h.ring.frame (initListHead_same (S := (· = e)) m.links rfl) fun x hx heq => hens (heq ▸ hx)
  obtain ⟨links, hcall, hring', -⟩ := chulaListAddTail_circular hring hens
  obtain ⟨last, hlast⟩ : ∃ last, (m.links.initListHead e).prev head = some last := by
    rw [hring.prev_head, List.getLast?_cons]
    exact ⟨_, rfl⟩
  have hmem : last ∈ head :: ns := List.mem_of_getLast? (hring.prev_head.symm.trans hlast)
  rw [hpackHeaderStoreEmit]
  generalize hg : hpackHeaderFieldCopy hpackHeaderFieldInit f = g
  have hentries : ∀ x ∈ ns, update m.entries e (some g) x = m.entries x := by
    intro x hx
    have hxe : x ≠ e := fun heq => hens (heq ▸ List.mem_cons_of_mem head hx)
    exact update_of_ne hxe ..
  have htouch : last = head ∨ (update m.entries e (some g) last).isSome := by
    rcases List.mem_cons.1 hmem with hl | hl
    · exact .inl hl
    · rw [hentries last hl]
      exact .inr (h.isSome hl)
  have htouch' : touch head ⟨m.links.initListHead e, update m.entries e (some g)⟩ last = .ok () := touch_ok htouch
  refine ⟨⟨links, update m.entries e (some g)⟩, ?_, ⟨hring', ?_⟩, rfl⟩
  · rw [hpackHeaderStoreAdd, entryNew]
    dsimp only
    rw [hlast, update_idem, hg]
    dsimp only
    rw [ok_then htouch', hcall]
  · dsimp only
    rw [List.map_append, List.map_congr_left hentries, h.fields, List.map_append, List.map_singleton, update_self,
      List.map_singleton]

/-- Entries that come one behind another are found by counting down. -/
theorem getNLoop_eq (l : List α) (hl : (l ++ [head]).IsChain m.links.Leads) (hhead : head ∉ l)
    (hlive : ∀ x ∈ l, (m.entries x).isSome) (turns : ℕ) (hturns : l.length < turns) (k : ℕ) (hk : k < 2 ^ 32) :
    ∀ x, (l ++ [head]).head? = some x → getNLoop head m turns x ((k + 1) % 2 ^ 32) = .ok l[k]? := by
  induction l generalizing turns k with
  | nil =>
    rintro x hx
    obtain ⟨turns, rfl⟩ := Nat.exists_eq_add_of_lt hturns
    cases hx
    rw [getNLoop, if_pos rfl, List.getElem?_nil]
  | cons b l ih =>
    rintro x hx
    obtain ⟨turns, rfl⟩ : ∃ t, turns = t + 1 := ⟨turns - 1, by rw [List.length_cons] at hturns; omega⟩
    cases hx
    rw [List.mem_cons, not_or] at hhead
    rw [List.length_cons, Nat.add_lt_add_iff_right] at hturns
    have hnum : ((k + 1) % 2 ^ 32 + (2 ^ 32 - 1)) % 2 ^ 32 = k := by omega
    rw [getNLoop, if_neg (Ne.symm hhead.1)]
    dsimp only
    rw [hnum]
    cases k with
    | zero => rfl
    | succ k =>
      have hrec := ih hl.tail hhead.2 (fun x hx => hlive x (List.mem_cons_of_mem b hx)) turns hturns k (by omega) _
        (leads_head hl)
      rw [Nat.mod_eq_of_lt hk] at hrec
      rw [if_neg (Nat.succ_ne_zero k), ok_then (touch_ok (.inr (hlive b List.mem_cons_self))), hrec,
        List.getElem?_cons_succ]

/-- Which entry a number means.  The number 0 is counted down to 2^32 - 1. -/
def storeIndex (num : ℕ) : ℕ := if num = 0 then 2 ^ 32 - 1 else num - 1

theorem Stored.getN (h : Stored head m ns s) {turns num : ℕ} (hturns : ns.length < turns) (hnum : num < 2 ^ 32) :
    hpackHeaderStoreGetN head turns m num = .ok ns[storeIndex num]? := by
  have hl : (ns ++ [head]).IsChain m.links.Leads := h.ring.linked.tail.imp fun _ _ hlinked => hlinked.1
  have hk : storeIndex num < 2 ^ 32 := by
    rw [storeIndex]
    split <;> omega
  have hmod : (storeIndex num + 1) % 2 ^ 32 = num := by
    rw [storeIndex]
    split <;> omega
  have hloop := getNLoop_eq ns hl (List.nodup_cons.1 h.ring.nodup).1 (fun x hx => h.isSome hx) turns hturns
    (storeIndex num) hk _ h.ring.next_head
  rwa [hmod] at hloop

/-- **Giving the entries back**: each of them once, and no link is read in one that has been given back. -/
theorem mrproperLoop_eq (l : List α) (m : StoreMem α) (hl : (l ++ [head]).IsChain m.links.Leads) (hhead : head ∉ l)
    (hnodup : l.Nodup) (hlive : ∀ x ∈ l, (m.entries x).isSome) (turns : ℕ) (hturns : l.length < turns) (i tmp : α)
    (hi : (l ++ [head]).head? = some i) (htmp : l ≠ [] → tmp = m.links.next i) :
    ∃ m', mrproperLoop head turns m i tmp = .ok m' ∧ ∀ x, m'.entries x = if x ∈ l then none else m.entries x := by
  induction l generalizing m turns i tmp with
  | nil =>
    obtain ⟨turns, rfl⟩ := Nat.exists_eq_add_of_lt hturns
    cases hi
    exact ⟨m, by rw [mrproperLoop, if_pos rfl], fun x => (if_neg List.not_mem_nil).symm⟩
  | cons b l ih =>
    obtain ⟨turns, rfl⟩ : ∃ t, turns = t + 1 := ⟨turns - 1, by rw [List.length_cons] at hturns; omega⟩
    cases hi
    have htmp := htmp (List.cons_ne_nil b l)
    rw [List.mem_cons, not_or] at hhead
    rw [List.nodup_cons] at hnodup
    rw [List.length_cons, Nat.add_lt_add_iff_right] at hturns
    obtain ⟨g, hg⟩ := Option.isSome_iff_exists.1 (hlive b List.mem_cons_self)
    have hfree : m.entryFree b = .ok { m with entries := update m.entries b none } := by rw [entryFree, hg]
    have hnext := leads_head hl
    rw [← htmp] at hnext
    have hkept : ∀ x ∈ l, update m.entries b none x = m.entries x := by
      intro x hx
      have hxb : x ≠ b := fun heq => hnodup.1 (heq ▸ hx)
      exact update_of_ne hxb ..
    have hlive' : ∀ x ∈ l, (update m.entries b none x).isSome := by
      intro x hx
      rw [hkept x hx]
      exact hlive x (List.mem_cons_of_mem b hx)
    have htouch : tmp = head ∨ (update m.entries b none tmp).isSome := by
      cases l with
      | nil => exact .inl (Option.some.inj hnext).symm
      | cons c l => exact .inr (Option.some.inj hnext ▸ hlive' c List.mem_cons_self)
    obtain ⟨m', hloop, hm'⟩ := ih { m with entries := update m.entries b none } hl.tail hhead.2 hnodup.2 hlive' turns hturns
      tmp (m.links.next tmp) hnext fun _ => rfl
    refine ⟨m', ?_, fun x => ?_⟩
    · rw [mrproperLoop, if_neg (Ne.symm hhead.1), ok_then hfree, ok_then (touch_ok htouch), hloop]
    · rw [hm' x]
      by_cases hxb : x = b
      · subst hxb
        rw [if_neg hnodup.1, if_pos List.mem_cons_self]
        exact update_self ..
      · by_cases hxl : x ∈ l
        · rw [if_pos hxl, if_pos (List.mem_cons_of_mem b hxl)]
        · rw [if_neg hxl, if_neg fun hmem => (List.mem_cons.1 hmem).elim hxb hxl]
          exact update_of_ne hxb ..

theorem Stored.mrproper (h : Stored head m ns s) {turns : ℕ} (hturns : ns.length < turns) :
    ∃ m', hpackHeaderStoreMrproper head turns m = .ok m' ∧ ∀ x, m'.entries x = if x ∈ ns then none else m.entries x := by
  have hl : (ns ++ [head]).IsChain m.links.Leads := h.ring.linked.tail.imp fun _ _ hlinked => hlinked.1
  obtain ⟨hhead, hnodup⟩ := List.nodup_cons.1 h.ring.nodup
  have hfirst : m.links.next head ∈ ns ++ [head] := List.mem_of_mem_head? h.ring.next_head
  have htouch : m.links.next head = head ∨ (m.entries (m.links.next head)).isSome := by
    rw [List.mem_append, List.mem_singleton] at hfirst
    exact hfirst.symm.imp_right h.isSome
  rw [hpackHeaderStoreMrproper, ok_then (touch_ok htouch)]
  exact mrproperLoop_eq ns m hl hhead hnodup (fun x hx => h.isSome hx) turns hturns _ _ h.ring.next_head fun _ => rfl

/-- **Runs of additions**, when `malloc` only returns what is not in use. -/
theorem Stored.run_add (adds : List (α × HeaderField)) (h : Stored head m ns s)
    (hfree : ∀ p ∈ adds, m.entries p.1 = none ∧ p.1 ≠ head) (hnodup : (adds.map Prod.fst).Nodup) :
    ∃ m', run (hpackHeaderStoreAdd head) m adds = .ok m' ∧
      Stored head m' (ns ++ adds.map Prod.fst) (adds.foldl (fun s p => hpackHeaderStoreEmit s p.2) s) ∧
      ∀ x, x ∉ adds.map Prod.fst → m'.entries x = m.entries x := by
  induction adds generalizing m ns s with
  | nil => exact ⟨m, rfl, by rwa [List.map_nil, List.append_nil], fun _ _ => rfl⟩
  | cons p adds ih =>
    obtain ⟨e, f⟩ := p
    rw [List.map_cons, List.nodup_cons] at hnodup
    obtain ⟨he, hne⟩ := hfree (e, f) List.mem_cons_self
    obtain ⟨m₁, hcall, h₁, hentries⟩ := h.add (f := f) he hne
    have hfree' : ∀ p ∈ adds, m₁.entries p.1 = none ∧ p.1 ≠ head := by
      intro p hp
      have hpe : p.1 ≠ e := by
        intro heq
        have hmem : p.1 ∈ adds.map Prod.fst := List.mem_map_of_mem hp
        rw [heq] at hmem
        exact hnodup.1 hmem
      rw [hentries, update_of_ne hpe]
      exact hfree p (List.mem_cons_of_mem _ hp)
    obtain ⟨m', hrun, h', hkept⟩ := ih h₁ hfree' hnodup.2
    refine ⟨m', by rw [run_cons hcall, hrun], ?_, fun x hx => ?_⟩
    · rw [List.map_cons, ← List.singleton_append, ← List.append_assoc]
      exact h'
    · rw [List.map_cons, List.mem_cons, not_or] at hx
      rw [hkept x hx.2, hentries, update_of_ne hx.1]

/-- **A store over its whole life.**  Whatever is in memory, and wherever the entries are put: they hold copies of the fields,
in order; each of them is found by its number, and no number but that finds one; and in the end the entries are given back,
each one once, with everything else as it was. -/
theorem headerStore_life (head : α) (m : StoreMem α) (adds : List (α × HeaderField))
    (hfree : ∀ p ∈ adds, m.entries p.1 = none ∧ p.1 ≠ head) (hnodup : (adds.map Prod.fst).Nodup) {turns : ℕ}
    (hturns : adds.length < turns) :
    ∃ m', run (hpackHeaderStoreAdd head) (hpackHeaderStoreInit head m) adds = .ok m' ∧
      (adds.map Prod.fst).map m'.entries = (adds.foldl (fun s p => hpackHeaderStoreEmit s p.2) []).map some ∧
      (∀ num < 2 ^ 32, hpackHeaderStoreGetN head turns m' num = .ok (adds.map Prod.fst)[storeIndex num]?) ∧
      ∃ m'', hpackHeaderStoreMrproper head turns m' = .ok m'' ∧ m''.entries = m.entries := by
  obtain ⟨m', hrun, h', hkept⟩ := (hpackHeaderStoreInit_stored m).run_add adds hfree hnodup
  rw [List.nil_append] at h'
  have hlen : (adds.map Prod.fst).length < turns := by rwa [List.length_map]
  obtain ⟨m'', hcall, hm''⟩ := h'.mrproper hlen
  refine ⟨m', hrun, h'.fields, fun num hnum => h'.getN hlen hnum, m'', hcall, ?_⟩
  funext x
  rw [hm'' x]
  split_ifs with hx
  · obtain ⟨p, hp, rfl⟩ := List.mem_map.1 hx
    exact (hfree p hp).1.symm
  · exact hkept x hx

theorem headerStore_life_two : ∃ m', run (hpackHeaderStoreAdd 0) (hpackHeaderStoreInit 0
      (⟨⟨id, fun _ => none⟩, fun _ => none⟩ : StoreMem ℕ))
      [(1, hpackHeaderFieldInit), (2, hpackHeaderFieldInit)] = .ok m' ∧ hpackHeaderStoreGetN 0 3 m' 2 = .ok (some 2) := by
  obtain ⟨m', hrun, -, hget, -⟩ := headerStore_life 0 (⟨⟨id, fun _ => none⟩, fun _ => none⟩ : StoreMem ℕ)
    [(1, hpackHeaderFieldInit), (2, hpackHeaderFieldInit)] (by simp) (by simp)
    (show 2 < 3 by decide)
  exact ⟨m', hrun, hget 2 (by decide)⟩

end StoreMem

end LibHpack
