import LibHpack.Decoder.Refines
import LibHpack.HeaderParser.Finish

/-!
# LibHpack.Decoder.Sessions — the parser refines the decoder

A call is one instruction (`simulates`), and the calls at the end of a block give the references that are left, in the
order of their slots.  So `hpack_header_parser_all` puts the fields of a block into the store, and the state behind the
block is that of the decoder; block after block, from `hpack_header_parser_init` on (`parser_refines_decoder`).
-/

namespace LibHpack

open LibHpack.Fifo LibHpack.Decoder

variable {T : HuffmanTables} {ctx ctx' : Context} {es : List Entry} {buf : Block} {n con fuel consumed : ℕ}
  {field : HeaderField} {is : List Instr}

/-- The octets from `n` on are the instructions, and the source gets through each of them where it is reached. -/
def Follows (T : HuffmanTables) (buf : Block) : List Instr → Context → HeaderField → ℕ → Prop
  | [], ctx, _, n => n = buf.len ∧ EmissionOk ctx
  | i :: is, ctx, field, n => ∃ con, Spells T buf n i con ∧ InstrOk ctx i ∧ ∀ ctx' f,
    hpackHeaderParserField T ctx buf n field = .ok (.ok, ctx', f, con) → Follows T buf is ctx' f (n + con)

/-- How the fields of a block are stored: those of its instructions in order, and the references that are left behind
them in some order; a field without name and value is not stored. -/
def StoredAs (fields : List Pair × List Pair) (stored : List Pair) : Prop :=
  ∃ rest, stored = fields.1.filter (· ≠ ([], [])) ++ rest ∧ rest.Perm (fields.2.filter (· ≠ ([], [])))

/-! ### The end of a block -/

/-- The state in which the next block starts. -/
theorem state_restart (hready : ctx'.Ready) (htable : ctx'.table = ctx.table) (hrefs : ctx'.referenceSet = ctx.referenceSet) :
    ctx'.state = ctx.state.restart := by
  simp only [State.restart, Context.state, Context.row, htable, hready.pending, hrefs, List.map_map]
  rfl

/-- **The references that are left**, slot by slot. -/
theorem Context.Inv.left_perm (h : ctx.Inv es) {slots : List ℕ} (hnodup : slots.Nodup)
    (hmem : ∀ i, i ∈ slots ↔ hpackSetExists ctx.refNotEmitted i = true) :
    (slots.map fun i => (ctx.table.slotEntry i).pair).Perm ctx.state.left := by
  have hnum := h.holds.num
  have hlen := h.holds.length_le
  have hleft : ctx.state.left =
      (((List.range ctx.table.numHeaders).filter fun k => hpackSetExists ctx.refNotEmitted (ctx.table.slot k)).map
        ctx.table.slot).map fun i => (ctx.table.slotEntry i).pair := by
    rw [State.left, Context.state, List.filter_map, List.map_map, List.map_map]
    rfl
  rw [hleft]
  refine List.Perm.map _ ((List.perm_ext_iff_of_nodup hnodup ?_).mpr fun i => ?_)
  · refine List.Nodup.map_on (fun j hj k hk heq => ?_) (List.nodup_range.filter _)
    have hj' := List.mem_range.mp (List.mem_filter.mp hj).1
    have hk' := List.mem_range.mp (List.mem_filter.mp hk).1
    exact (HeaderTable.slot_inj _ (by omega) (by omega)).mp heq
  · rw [hmem]
    constructor
    · intro hi
      obtain ⟨k, hk, rfl⟩ := h.holds.live_iff.mp (h.refs i (h.pending i hi))
      exact List.mem_map.mpr ⟨k, List.mem_filter.mpr ⟨List.mem_range.mpr (hnum ▸ hk), hi⟩, rfl⟩
    · intro hi
      obtain ⟨k, hk, rfl⟩ := List.mem_map.mp hi
      exact (List.mem_filter.mp hk).2

/-- **The calls at the end.** -/
theorem parserAllLoop_left (T : HuffmanTables) (buf : Block) (h : ctx.Inv es) (hiter : ctx.iterNotEmitted = hpackSetIterInit)
    (hfin : ctx.finished = true → ctx.refNotEmitted = ctx.referenceSet) (hok : EmissionOk ctx) (hfuel : 130 ≤ fuel)
    (hconsumed : consumed < 2 ^ 32) (store : List HeaderField) (field : HeaderField) :
    ∃ ctx' added, parserAllLoop T buf fuel ctx (some store) buf.len field consumed =
        .ok (.ok, ctx', some (store ++ added), consumed) ∧
      ctx'.Ready ∧ ctx'.state = ctx.state.restart ∧
      (added.map HeaderField.pair).Perm (ctx.state.left.filter (· ≠ ([], []))) := by
  obtain ⟨fuel, rfl⟩ : ∃ k, fuel = k + 1 + 129 := ⟨fuel - 130, by omega⟩
  obtain ⟨ctx', fs, slots, hloop, hready, hnodup, hmem, hpairs⟩ : ∃ ctx' fs, ∃ slots : List ℕ,
      decodeLoop T buf (fuel + 1 + 129) ctx field buf.len = .ok (.eof, ctx', fs) ∧ _ :=
    decodeLoop_emits_end T h hiter hfin hok field
  obtain ⟨htable, hrefs, added, hrun, hadded⟩ := parserAllLoop_of_decodeLoop hloop hconsumed store
  refine ⟨ctx', added, hrun, hready, state_restart hready htable hrefs, ?_⟩
  rw [hadded, hpairs]
  exact (h.left_perm hnodup hmem).filter _

/-! ### Blocks -/

/-- What `hpack_header_parser_all` makes of the instructions that are left. -/
def LoopSimulates (T : HuffmanTables) (buf : Block) (fuel n consumed : ℕ) (ctx : Context) (store : List HeaderField)
    (field : HeaderField) : Option (State × List Pair) → Prop
  | some (s, ps) => ∃ ctx' added, parserAllLoop T buf fuel ctx (some store) n field consumed =
        .ok (.ok, ctx', some (store ++ added), (consumed + (buf.len - n)) % 2 ^ 32) ∧
      ctx'.Ready ∧ ctx'.state = s.restart ∧ StoredAs (ps, s.left) (added.map HeaderField.pair)
  | none => ∃ ret ctx' store' consumed', parserAllLoop T buf fuel ctx (some store) n field consumed =
        .ok (ret, ctx', some store', consumed') ∧ ret ≠ .ok

/-- One more call. -/
theorem LoopSimulates.step {s : Option (State × List Pair)} {p : Option Pair} {f : HeaderField} {store : List HeaderField}
    (hcall : hpackHeaderParserField T ctx buf n field = .ok (.ok, ctx', f, con)) (hf : f.pair = p.getD ([], []))
    (hin : n + con ≤ buf.len)
    (hrest : ∀ store, LoopSimulates T buf fuel (n + con) ((consumed + con) % 2 ^ 32) ctx' store f s) :
    LoopSimulates T buf (fuel + 1) n consumed ctx store field (s.map fun r => (r.1, p.toList ++ r.2)) := by
  have hbuf := buf.len_succ_lt
  obtain ⟨now, hstore, hnow⟩ := stored_of_pair store p hf
  have hturn : parserAllLoop T buf (fuel + 1) ctx (some store) n field consumed =
      parserAllLoop T buf fuel ctx' (some (store ++ now)) (n + con) f ((consumed + con) % 2 ^ 32) := by
    rw [parserAllLoop, hcall]
    simp only [ok_bind, reduceCtorEq, if_false, ne_eq, not_true_eq_false,
      Nat.mod_eq_of_lt (show n + con < 2 ^ 32 by omega)]
    rw [hstore]
  have hrest := hrest (store ++ now)
  cases s with
  | none =>
    obtain ⟨ret, ctx2, store2, consumed2, heq, hret⟩ := hrest
    exact ⟨ret, ctx2, store2, consumed2, hturn.trans heq, hret⟩
  | some r =>
    obtain ⟨ctx2, later, heq, hready, hstate, rest, hlater, hperm⟩ := hrest
    refine ⟨ctx2, now ++ later, ?_, hready, hstate, rest, ?_, hperm⟩
    · rw [hturn, heq, List.append_assoc, Nat.mod_add_mod, show consumed + con + (buf.len - (n + con)) =
        consumed + (buf.len - n) by omega]
    · rw [List.map_append, hnow, hlater, List.filter_append, List.append_assoc]

/-- **The instructions from an offset on.** -/
theorem parserAllLoop_simulates (is : List Instr) (h31 : buf.len ≤ 2 ^ 31) (h : ctx.Inv es)
    (hiter : ctx.iterNotEmitted = hpackSetIterInit)
    (hfin : ctx.finished = true → ctx.refNotEmitted = ctx.referenceSet) (hfollows : Follows T buf is ctx field n)
    (hn : n ≤ buf.len) (hfuel : buf.len - n + 130 ≤ fuel) (hconsumed : consumed < 2 ^ 32) (store : List HeaderField) :
    LoopSimulates T buf fuel n consumed ctx store field (ctx.state.steps staticPairs 4096 is) := by
  induction is generalizing ctx es field n fuel consumed store with
  | nil =>
    obtain ⟨rfl, hok⟩ := hfollows
    obtain ⟨ctx', added, heq, hready, hstate, hperm⟩ := parserAllLoop_left T buf h hiter hfin hok
      (show 130 ≤ fuel by omega) hconsumed store field
    refine ⟨ctx', added, ?_, hready, hstate, _, rfl, hperm⟩
    rw [heq, Nat.sub_self, Nat.add_zero, Nat.mod_eq_of_lt hconsumed]
  | cons i is ih =>
    obtain ⟨con, hspells, hok, hrest⟩ := hfollows
    obtain ⟨hpos, hin⟩ := hspells.bounds
    obtain ⟨fuel, rfl⟩ : ∃ k, fuel = k + 1 := ⟨fuel - 1, by omega⟩
    have hsim := simulates h (show n < 2 ^ 31 by omega) hspells hok field
    cases hstep : ctx.state.step staticPairs 4096 i with
    | none =>
      rw [hstep] at hsim
      obtain ⟨ret, ctx', f, hcall, hret, heof⟩ := hsim
      rw [State.steps_cons_none hstep]
      refine ⟨ret, ctx', store, consumed, ?_, hret⟩
      rw [parserAllLoop, hcall]
      simp only [ok_bind, if_neg heof, if_pos hret]
      rfl
    | some r =>
      obtain ⟨s, p⟩ := r
      rw [hstep] at hsim
      obtain ⟨ctx', f, hcall, ⟨es', hinv⟩, hstate, hpair, hiter', hfin'⟩ := hsim
      subst hstate
      rw [State.steps_cons hstep]
      exact LoopSimulates.step hcall hpair hin fun store => ih hinv (hiter'.trans hiter)
        (fun hf => absurd (hfin'.symm.trans hf) Bool.false_ne_true) (hrest ctx' f hcall) hin
        (show buf.len - (n + con) + 130 ≤ fuel by omega) (Nat.mod_lt _ (by decide)) store

/-- What `hpack_header_parser_all` makes of a block. -/
theorem parserAll_simulates {s : State} {fields : List Pair × List Pair} (hready : ctx.Ready) (h31 : buf.len ≤ 2 ^ 31)
    (hfollows : Follows T buf is ctx hpackHeaderFieldInit 0) (store : List HeaderField)
    (hblock : ctx.state.block staticPairs 4096 is = some (s, fields)) :
    ∃ ctx' added, hpackHeaderParserAll T ctx (some store) buf 0 0 = .ok (.ok, ctx', some (store ++ added), buf.len) ∧
      ctx'.Ready ∧ ctx'.state = s ∧ StoredAs fields (added.map HeaderField.pair) := by
  obtain ⟨⟨es, hinv⟩, hpending, hiter⟩ := hready
  have hbuf := buf.len_succ_lt
  have hsim := parserAllLoop_simulates is h31 hinv hiter (fun _ => hpending) hfollows (Nat.zero_le _) (le_refl _)
    (show 0 < 2 ^ 32 by decide) store
  obtain ⟨⟨s', ps⟩, hsteps, heq⟩ := Option.map_eq_some_iff.mp hblock
  rw [hsteps] at hsim
  cases heq
  obtain ⟨ctx', added, hcall, hready', hstate, hstored⟩ := hsim
  refine ⟨ctx', added, ?_, hready', hstate, hstored⟩
  rw [hpackHeaderParserAll, hcall, Nat.zero_add, Nat.sub_zero, Nat.mod_eq_of_lt (show buf.len < 2 ^ 32 by omega)]

/-- A block that the decoder does not accept. -/
theorem parserAll_refuses (hready : ctx.Ready) (h31 : buf.len ≤ 2 ^ 31)
    (hfollows : Follows T buf is ctx hpackHeaderFieldInit 0) (store : List HeaderField)
    (hblock : ctx.state.block staticPairs 4096 is = none) :
    ∃ ret ctx' store' consumed', hpackHeaderParserAll T ctx (some store) buf 0 0 = .ok (ret, ctx', some store', consumed') ∧
      ret ≠ .ok := by
  obtain ⟨⟨es, hinv⟩, hpending, hiter⟩ := hready
  have hsim := parserAllLoop_simulates is h31 hinv hiter (fun _ => hpending) hfollows (Nat.zero_le _) (le_refl _)
    (show 0 < 2 ^ 32 by decide) store
  rw [Option.map_eq_none_iff.mp hblock] at hsim
  exact hsim

/-! ### Sessions -/

/-- A parser with a store gets one block after the other, until it refuses one. -/
def receive (T : HuffmanTables) : Context → Option (List HeaderField) → List (Option Block) →
    C (Ret × Context × Option (List HeaderField))
  | ctx, store, [] => .ok (.ok, ctx, store)
  | ctx, store, buf :: bufs => do
    let (ret, ctx, store, _) ← hpackHeaderParserAll T ctx store buf 0 0
    if ret ≠ .ok then return (ret, ctx, store) else receive T ctx store bufs

/-- The blocks have memory and are those instructions, and the source gets through them. -/
def SessionFollows (T : HuffmanTables) : Context → Option (List HeaderField) → List (Option Block × List Instr) → Prop
  | _, _, [] => True
  | ctx, store, block :: blocks =>
    (∃ buf ∈ block.1, buf.len ≤ 2 ^ 31 ∧ Follows T buf block.2 ctx hpackHeaderFieldInit 0) ∧
    ∀ ctx' store' con, hpackHeaderParserAll T ctx store block.1 0 0 = .ok (.ok, ctx', store', con) →
      SessionFollows T ctx' store' blocks

/-- **Block after block.** -/
theorem receive_simulates (blocks : List (Option Block × List Instr)) (hready : ctx.Ready) (store : List HeaderField)
    (hfollows : SessionFollows T ctx (some store) blocks) :
    (∀ s fields, ctx.state.blocks staticPairs 4096 (blocks.map Prod.snd) = some (s, fields) →
      ∃ ctx' added, receive T ctx (some store) (blocks.map Prod.fst) = .ok (.ok, ctx', some (store ++ added)) ∧
        ctx'.state = s ∧ ∃ stored, added.map HeaderField.pair = stored.flatten ∧ List.Forall₂ StoredAs fields stored) ∧
    (ctx.state.blocks staticPairs 4096 (blocks.map Prod.snd) = none →
      ∃ ret ctx' store', receive T ctx (some store) (blocks.map Prod.fst) = .ok (ret, ctx', store') ∧ ret ≠ .ok) := by
  induction blocks generalizing ctx store with
  | nil =>
    refine ⟨fun s fields hs => ?_, fun hs => absurd hs (Option.some_ne_none _)⟩
    cases hs
    exact ⟨ctx, [], by rw [List.append_nil]; rfl, rfl, [], rfl, .nil⟩
  | cons block blocks ih =>
    obtain ⟨⟨buf, hbuf, h31, hblock⟩, hrest⟩ := hfollows
    rw [hbuf] at hrest
    rw [List.map_cons, List.map_cons]
    cases hstep : ctx.state.block staticPairs 4096 block.2 with
    | none =>
      rw [State.blocks_cons_none hstep]
      refine ⟨fun s fields hs => absurd hs.symm (Option.some_ne_none _), fun _ => ?_⟩
      obtain ⟨ret, ctx', store', con, hcall, hret⟩ := parserAll_refuses hready h31 hblock store hstep
      refine ⟨ret, ctx', some store', ?_, hret⟩
      rw [receive, hbuf, hcall]
      simp only [ok_bind, if_pos hret]
      rfl
    | some r =>
      obtain ⟨s1, fields1⟩ := r
      obtain ⟨ctx1, now, hcall, hready1, rfl, hnow⟩ := parserAll_simulates hready h31 hblock store hstep
      have hturn : receive T ctx (some store) (block.1 :: blocks.map Prod.fst) =
          receive T ctx1 (some (store ++ now)) (blocks.map Prod.fst) := by
        rw [receive, hbuf, hcall]
        rfl
      obtain ⟨haccept, hrefuse⟩ := ih hready1 (store ++ now) (hrest ctx1 _ _ hcall)
      rw [hturn, State.blocks_cons hstep]
      refine ⟨fun s fields hs => ?_, fun hs => hrefuse (Option.map_eq_none_iff.mp hs)⟩
      · obtain ⟨⟨s2, fields2⟩, hs2, heq⟩ := Option.map_eq_some_iff.mp hs
        cases heq
        obtain ⟨ctx', later, hcall', hstate, stored, hlater, hstored⟩ := haccept _ _ hs2
        refine ⟨ctx', now ++ later, ?_, hstate, now.map HeaderField.pair :: stored, ?_, .cons hnow hstored⟩
        · rw [hcall', List.append_assoc]
        · rw [List.map_append, hlater, List.flatten_cons]

/-- **The parser refines the decoder**, over every session: it accepts the blocks that the decoder accepts, stores their
fields, and is left in the decoder's state. -/
theorem parser_refines_decoder (T : HuffmanTables) (t0 : HeaderTable) (blocks : List (Option Block × List Instr))
    (hfollows : SessionFollows T (hpackHeaderParserInit t0) (some []) blocks) :
    (∀ s fields, State.blocks staticPairs 4096 ⟨[], 4096⟩ (blocks.map Prod.snd) = some (s, fields) →
      ∃ ctx store, receive T (hpackHeaderParserInit t0) (some []) (blocks.map Prod.fst) = .ok (.ok, ctx, some store) ∧
        ctx.state = s ∧ ∃ stored, store.map HeaderField.pair = stored.flatten ∧ List.Forall₂ StoredAs fields stored) ∧
    (State.blocks staticPairs 4096 ⟨[], 4096⟩ (blocks.map Prod.snd) = none →
      ∃ ret ctx store, receive T (hpackHeaderParserInit t0) (some []) (blocks.map Prod.fst) = .ok (ret, ctx, store) ∧
        ret ≠ .ok) :=
  receive_simulates blocks (Context.Ready.init t0) [] hfollows

/-- One more instruction. -/
theorem Follows.cons {i : Instr} {f : HeaderField} (hspells : Spells T buf n i con) (hok : InstrOk ctx i)
    (hcall : hpackHeaderParserField T ctx buf n field = .ok (.ok, ctx', f, con))
    (hrest : Follows T buf is ctx' f (n + con)) : Follows T buf (i :: is) ctx field n := by
  refine ⟨con, hspells, hok, fun ctx2 f2 hcall2 => ?_⟩
  rw [hcall] at hcall2
  cases hcall2
  exact hrest

/-- `:method: GET` and `:path: /`. -/
theorem follows_request : Follows noTables requestBlock [.indexed 2, .indexed 5] (hpackHeaderParserInit zeroTable)
    hpackHeaderFieldInit 0 := by
  obtain ⟨⟨ret1, ctx1, f1, con1⟩, hcall1, rfl, rfl, hok2, ⟨ret2, ctx2, f2, con2⟩, hcall2, rfl, rfl, hend⟩ :
      ∃ r, hpackHeaderParserField noTables (hpackHeaderParserInit zeroTable) requestBlock 0 hpackHeaderFieldInit =
        .ok r ∧ r.1 = .ok ∧ r.2.2.2 = 1 ∧ IndexOk r.2.1 5 ∧
        ∃ q, hpackHeaderParserField noTables r.2.1 requestBlock 1 r.2.2.1 = .ok q ∧ q.1 = .ok ∧ q.2.2.2 = 1 ∧
          EmissionOk q.2.1 := by decide +kernel
  have hspells1 : Spells noTables requestBlock 0 (.indexed 2) 1 :=
    .indexed (by decide) (.short (by decide)) (by decide) (by decide)
  have hspells2 : Spells noTables requestBlock 1 (.indexed 5) 1 :=
    .indexed (by decide) (.short (by decide)) (by decide) (by decide)
  exact .cons hspells1 (show IndexOk _ 2 by decide +kernel) hcall1 (.cons hspells2 hok2 hcall2 ⟨by decide, hend⟩)

/-- Then the first reference is taken away, and `:scheme: http` added. -/
theorem parser_refines_decoder_request :
    ∃ ctx store, receive noTables (hpackHeaderParserInit zeroTable) (some []) [some requestBlock, some schemeBlock] =
        .ok (.ok, ctx, some store) ∧
      ctx.state.rows.map Row.referenced = [false, true, true] ∧
      ∃ stored, store.map HeaderField.pair = stored.flatten ∧
        List.Forall₂ StoredAs [([(ascii ":method", ascii "GET"), (ascii ":path", ascii "/")], []),
          ([(ascii ":scheme", ascii "http")], [(ascii ":path", ascii "/")])] stored := by
  obtain ⟨⟨ret3, ctx3, st3, con3⟩, hall3, hok3, ⟨ret4, ctx4, f4, con4⟩, hcall4, rfl, rfl, hok4, ⟨ret5, ctx5, f5, con5⟩,
      hcall5, rfl, rfl, hend5⟩ :
      ∃ s, hpackHeaderParserAll noTables (hpackHeaderParserInit zeroTable) (some []) requestBlock 0 0 = .ok s ∧
        IndexOk s.2.1 2 ∧
        ∃ r, hpackHeaderParserField noTables s.2.1 schemeBlock 0 hpackHeaderFieldInit = .ok r ∧ r.1 = .ok ∧ r.2.2.2 = 1 ∧
          IndexOk r.2.1 8 ∧
          ∃ q, hpackHeaderParserField noTables r.2.1 schemeBlock 1 r.2.2.1 = .ok q ∧ q.1 = .ok ∧ q.2.2.2 = 1 ∧
            EmissionOk q.2.1 := by decide +kernel
  have hspells4 : Spells noTables schemeBlock 0 (.indexed 2) 1 :=
    .indexed (by decide) (.short (by decide)) (by decide) (by decide)
  have hspells5 : Spells noTables schemeBlock 1 (.indexed 8) 1 :=
    .indexed (by decide) (.short (by decide)) (by decide) (by decide)
  have hsecond : Follows noTables schemeBlock [.indexed 2, .indexed 8] ctx3 hpackHeaderFieldInit 0 :=
    .cons hspells4 hok3 hcall4 (.cons hspells5 hok4 hcall5 ⟨by decide, hend5⟩)
  have hfollows : SessionFollows noTables (hpackHeaderParserInit zeroTable) (some [])
      [(some requestBlock, [.indexed 2, .indexed 5]), (some schemeBlock, [.indexed 2, .indexed 8])] := by
    refine ⟨⟨_, rfl, by decide, follows_request⟩, fun ctx' store' con hcall => ?_⟩
    rw [hall3] at hcall
    cases hcall
    exact ⟨⟨_, rfl, by decide, hsecond⟩, fun _ _ _ _ => trivial⟩
  obtain ⟨ctx, store, hrun, hstate, hstored⟩ := (parser_refines_decoder noTables zeroTable _ hfollows).1 _ _ rfl
  exact ⟨ctx, store, hrun, by rw [hstate]; decide, hstored⟩

end LibHpack
