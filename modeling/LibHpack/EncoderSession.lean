import LibHpack.RoundTrip
import LibHpack.HeaderParser.Finish

/-!
# LibHpack.EncoderSession — the blocks of an encoder in the middle of a session

A parser keeps its table and its reference set from one block to the next, and the encoder knows nothing of either: its
literals are put into no table.  So a block of its fields adds them to the store of the parser, and behind them the
references that the blocks before have left, again at the end of each block (`encoder_session`).
-/

namespace LibHpack

open LibHpack.Run

variable {T : HuffmanTables} {c : HuffmanSource} {padding : List ℕ} {ctx ctx' : Context} {buf : Block} {fuel consumed : ℕ}

/-! ### The end of a block -/

/-- The names and values of the references, in the order of their slots. -/
def Context.references (ctx : Context) : List (List UInt8 × List UInt8) :=
  ((List.range 128).filter (hpackSetExists ctx.referenceSet)).map fun i => (ctx.table.slotEntry i).pair

/-- **The end of a block** that is not finished yet. -/
theorem parserAllLoop_end (T : HuffmanTables) (buf : Block) (hready : ctx.Ready) (hfin : ctx.finished = false)
    (hok : EmissionOk ctx) (hfuel : 128 < fuel) (hconsumed : consumed < 2 ^ 32) (store : List HeaderField) (field : HeaderField) :
    ∃ ctx' added, parserAllLoop T buf fuel ctx (some store) buf.len field consumed =
        .ok (.ok, ctx', some (store ++ added), consumed) ∧
      ctx'.Ready ∧ ctx'.table = ctx.table ∧ ctx'.referenceSet = ctx.referenceSet ∧
      added.map HeaderField.pair = ctx.references.filter (· ≠ ([], [])) := by
  obtain ⟨⟨es, hinv⟩, hpending, hiter⟩ := hready
  have hlength := (List.length_filter_le (hpackSetExists ctx.refNotEmitted) (List.range 128)).trans_eq List.length_range
  have hsorted : ((List.range 128).filter (hpackSetExists ctx.refNotEmitted)).Pairwise (· < ·) :=
    List.pairwise_lt_range.filter _
  obtain ⟨ctx', fs, heq, hinv', hready', hiter', hpairs⟩ := decodeLoop_end T buf
    ((List.range 128).filter (hpackSetExists ctx.refNotEmitted)) hinv hfin (mem_slots _) hsorted (p := 0) hiter
    (fun i _ => Nat.zero_le i)
    (nextFound_of_iterable hok.iterable _ 0 hsorted (fun i => by rw [mem_slots]; simp) (.inl rfl))
    (fun i hi => hok.inPlace i (List.mem_range.mp (List.mem_filter.mp hi).1) ((mem_slots _ i).mp hi))
    (hlength.trans_lt hfuel) field
  obtain ⟨htable, hrefs, added, hrun, hadded⟩ := parserAllLoop_of_decodeLoop heq hconsumed store
  refine ⟨ctx', added, hrun, ⟨⟨es, hinv'⟩, hready', hiter'⟩, htable, hrefs, ?_⟩
  rw [hadded, hpairs, hpending, Context.references]

/-! ### The fields before it -/

theorem fieldCopy_pair (f : HeaderField) : (hpackHeaderFieldCopy hpackHeaderFieldInit f).pair = f.pair := by
  simp [HeaderField.pair, hpackHeaderFieldCopy, hpackHeaderFieldInit]

namespace Generated

variable {pre post : List UInt8} {f : List UInt8 × List UInt8}

/-- **One field** goes to the store. -/
theorem parserAllLoop_field (hT : Generated c T padding) (heos : 7 < (c.bits eos).length) (hne : f ≠ ([], []))
    (h : buf.octets = pre ++ (fieldOctets T f ++ post))
    (hname : Readable (stringLength T f.1 + stringLength T f.2 + post.length) (integerLength 7 (huffmanLength T f.1)))
    (hvalue : Readable (stringLength T f.2 + post.length) (integerLength 7 (huffmanLength T f.2)))
    (ctx : Context) (fuel consumed : ℕ) (store : List HeaderField) (field : HeaderField) :
    ∃ field', parserAllLoop T buf (fuel + 1) ctx (some store) pre.length field consumed =
        parserAllLoop T buf fuel { ctx with finished := false } (some (hpackHeaderStoreEmit store field'))
          (pre ++ fieldOctets T f).length field' ((consumed + fieldLength T f) % 2 ^ 32) ∧ field'.pair = f := by
  have hbuf := buf.len_succ_lt
  have htotal := Block.len_of_octets h
  have hlen := hT.fieldOctets_length heos f
  obtain ⟨field', heq, hpair⟩ := hT.parserField_ok heos h hname hvalue ctx field
  have hcontents : hpackHeaderFieldIsEmpty field' = false := by
    rw [← Bool.not_eq_true, hpackHeaderFieldIsEmpty_iff]
    rintro ⟨hname, hvalue⟩
    exact hne (by rw [← hpair, HeaderField.pair, hname, hvalue])
  refine ⟨field', ?_, hpair⟩
  rw [parserAllLoop, heq, List.length_append, hlen]
  simp only [ok_bind, reduceCtorEq, if_false, ne_eq, not_true_eq_false, hcontents, Bool.not_false, if_true,
    Option.map_some, Nat.mod_eq_of_lt (show pre.length + fieldLength T f < 2 ^ 32 by omega)]

/-- **The fields of a block**, when the one before has been read. -/
theorem parserAllLoop_fields (hT : Generated c T padding) (heos : 7 < (c.bits eos).length)
    (fields : List (List UInt8 × List UInt8)) (hne : ∀ f ∈ fields, f ≠ ([], []))
    (h : buf.octets = pre ++ fields.flatMap (fieldOctets T)) (hread : LengthsReadable T fields)
    (hfin : ctx.finished = false) (fuel : ℕ) (hconsumed : consumed < 2 ^ 32) (store : List HeaderField)
    (field : HeaderField) :
    ∃ added field', parserAllLoop T buf (fuel + fields.length) ctx (some store) pre.length field consumed =
        parserAllLoop T buf fuel ctx (some (store ++ added)) buf.len field'
          ((consumed + blockLength T fields) % 2 ^ 32) ∧ added.map HeaderField.pair = fields := by
  induction fields generalizing pre consumed store field with
  | nil =>
    have hend : pre.length = buf.len := by rw [Block.len, h]; simp
    refine ⟨[], field, ?_, rfl⟩
    rw [hend, List.append_nil]
    exact congrArg _ (Nat.mod_eq_of_lt hconsumed).symm
  | cons f fields ih =>
    rw [List.flatMap_cons] at h
    obtain ⟨hname, hvalue, hread'⟩ := hread
    rw [← hT.flatMap_fieldOctets_length heos fields] at hname hvalue
    obtain ⟨f1, hstep, hpair⟩ := hT.parserAllLoop_field heos (hne f List.mem_cons_self) h hname hvalue ctx
      (fuel + fields.length) consumed store field
    rw [← List.append_assoc] at h
    obtain ⟨added, f2, hrest, hadded⟩ := ih (fun g hg => hne g (List.mem_cons_of_mem f hg)) h hread'
      (Nat.mod_lt (consumed + fieldLength T f) (by decide)) (hpackHeaderStoreEmit store f1) f1
    have hsame : { ctx with finished := false } = ctx := by rw [← hfin]
    refine ⟨hpackHeaderFieldCopy hpackHeaderFieldInit f1 :: added, f2, ?_, ?_⟩
    · rw [List.length_cons, ← Nat.add_assoc, hstep, hsame, hrest, hpackHeaderStoreEmit, List.append_assoc,
        List.singleton_append, Nat.mod_add_mod, Nat.add_assoc, blockLength, blockLength, List.map_cons, List.sum_cons]
    · rw [List.map_cons, fieldCopy_pair, hpair, hadded]

/-- **A block of an encoder**, from any context between two blocks. -/
theorem parserAll_block (hT : Generated c T padding) (heos : 7 < (c.bits eos).length) (hready : ctx.Ready)
    (hok : EmissionOk { ctx with finished := false }) {fields : List (List UInt8 × List UInt8)} (hnil : fields ≠ [])
    (hne : ∀ f ∈ fields, f ≠ ([], []))
    (h : buf.octets = (hpackHeaderEncoderRender T (encoderOf fields) chulaBufferInit).2.2.bytes)
    (hread : LengthsReadable T fields) (consumed : ℕ) (store : List HeaderField) :
    ∃ ctx' added, hpackHeaderParserAll T ctx (some store) buf 0 consumed =
        .ok (.ok, ctx', some (store ++ added), (consumed + buf.len) % 2 ^ 32) ∧
      ctx'.Ready ∧ ctx'.table = ctx.table ∧ ctx'.referenceSet = ctx.referenceSet ∧
      added.map HeaderField.pair = fields ++ ctx.references.filter (· ≠ ([], [])) := by
  rw [render_encoderOf] at h
  have hlen : buf.len = blockLength T fields := by
    rw [Block.len, h, hT.flatMap_fieldOctets_length heos]
  have hshort := length_le_blockLength T fields
  obtain ⟨f, fields, rfl⟩ := List.exists_cons_of_ne_nil hnil
  -- the first field takes the flag of the end before away
  have hoct : buf.octets = [] ++ (fieldOctets T f ++ fields.flatMap (fieldOctets T)) := by
    rw [h, List.flatMap_cons, List.nil_append]
  obtain ⟨hname, hvalue, hread'⟩ := hread
  rw [← hT.flatMap_fieldOctets_length heos fields] at hname hvalue
  obtain ⟨fuel, hfuel⟩ : ∃ fuel, buf.len - 0 + 130 = fuel + 129 + fields.length + 1 :=
    ⟨buf.len - fields.length, by rw [List.length_cons] at hshort; omega⟩
  obtain ⟨f1, hfirst, hpair⟩ := hT.parserAllLoop_field heos (hne f List.mem_cons_self) hoct hname hvalue ctx
    (fuel + 129 + fields.length) consumed store hpackHeaderFieldInit
  have hbehind : buf.octets = ([] ++ fieldOctets T f) ++ fields.flatMap (fieldOctets T) := by
    rw [hoct, List.append_assoc]
  have hfin : ({ ctx with finished := false } : Context).finished = false := rfl
  obtain ⟨added, f2, hrest, hadded⟩ := hT.parserAllLoop_fields heos fields (fun g hg => hne g (List.mem_cons_of_mem f hg))
    hbehind hread' hfin (fuel + 129) (Nat.mod_lt (consumed + fieldLength T f) (by decide))
    (hpackHeaderStoreEmit store f1) f1
  obtain ⟨es, hinv⟩ := hready.inv
  have hready' : ({ ctx with finished := false } : Context).Ready :=
    ⟨⟨es, ⟨hinv.holds, hinv.refs, hinv.pending⟩⟩, hready.pending, hready.iter⟩
  obtain ⟨ctx', refs, hend, hready2, htable, hrefs, hrefPairs⟩ := parserAllLoop_end T buf hready' hfin hok
    (show 128 < fuel + 129 by omega)
    (Nat.mod_lt ((consumed + fieldLength T f) % 2 ^ 32 + blockLength T fields) (by decide))
    (hpackHeaderStoreEmit store f1 ++ added) f2
  refine ⟨ctx', hpackHeaderFieldCopy hpackHeaderFieldInit f1 :: added ++ refs, ?_, hready2, htable, hrefs, ?_⟩
  · rw [hpackHeaderParserAll, hfuel]
    refine (hfirst.trans hrest).trans (hend.trans ?_)
    rw [hlen, Nat.mod_add_mod, Nat.add_assoc, hpackHeaderStoreEmit, List.append_assoc, List.append_assoc,
      List.singleton_append, List.cons_append, blockLength, blockLength, List.map_cons, List.sum_cons]
  · rw [List.map_append, List.map_cons, fieldCopy_pair, hpair, hadded, hrefPairs]
    rfl

end Generated

/-! ### Sessions -/

/-- One more block for a parser with a store: the results so far, its context and the store. -/
def receiveStep (T : HuffmanTables) (s : List Ret × Context × Option (List HeaderField)) (buf : Block) :
    C (List Ret × Context × Option (List HeaderField)) := do
  let (ret, ctx, store, _) ← hpackHeaderParserAll T s.2.1 s.2.2 buf 0 0
  return (s.1 ++ [ret], ctx, store)

/-- The fields that an encoder can be given for a block. -/
structure Encodable (T : HuffmanTables) (fields : List (List UInt8 × List UInt8)) : Prop where
  nonempty : fields ≠ []
  contents : ∀ f ∈ fields, f ≠ ([], [])
  readable : LengthsReadable T fields

/-- The block that an encoder renders from some fields. -/
def RenderedAs (T : HuffmanTables) (fields : List (List UInt8 × List UInt8)) (buf : Block) : Prop :=
  buf.octets = (hpackHeaderEncoderRender T (encoderOf fields) chulaBufferInit).2.2.bytes

/-- **Block after block** of an encoder. -/
theorem Generated.receive_blocks (hT : Generated c T padding) (heos : 7 < (c.bits eos).length)
    {lists : List (List (List UInt8 × List UInt8))} {bufs : List Block} (hbufs : List.Forall₂ (RenderedAs T) lists bufs)
    (hlists : ∀ fields ∈ lists, Encodable T fields) (hready : ctx.Ready)
    (hok : EmissionOk { ctx with finished := false }) (rets : List Ret) (store : List HeaderField) :
    ∃ ctx' added, run (receiveStep T) (rets, ctx, some store) bufs =
        .ok (rets ++ List.replicate lists.length .ok, ctx', some (store ++ added)) ∧
      ctx'.Ready ∧ ctx'.table = ctx.table ∧ ctx'.referenceSet = ctx.referenceSet ∧
      added.map HeaderField.pair = lists.flatMap fun fields => fields ++ ctx.references.filter (· ≠ ([], [])) := by
  induction hbufs generalizing ctx rets store with
  | nil => exact ⟨ctx, [], by simp, hready, rfl, rfl, rfl⟩
  | @cons fields buf lists bufs hbuf hbufs ih =>
    have henc := hlists fields List.mem_cons_self
    obtain ⟨ctx1, now, hblock, hready1, htable1, hrefs1, hnow⟩ := hT.parserAll_block heos hready hok henc.nonempty
      henc.contents hbuf henc.readable 0 store
    have hreferences : ctx1.references = ctx.references := by rw [Context.references, htable1, hrefs1]; rfl
    -- the next block ends in the same state
    have hset : ctx1.refNotEmitted = ctx.refNotEmitted := by rw [hready1.pending, hrefs1, hready.pending]
    have hok1 : EmissionOk { ctx1 with finished := false } := by
      refine ⟨fun h => Bool.noConfusion h, ?_, ?_⟩
      · exact hset ▸ hok.iterable
      · simpa only [hset, htable1] using hok.inPlace
    obtain ⟨ctx', later, hrun, hready', htable', hrefs', hlater⟩ := ih
      (fun g hg => hlists g (List.mem_cons_of_mem fields hg)) hready1 hok1 (rets ++ [.ok]) (store ++ now)
    refine ⟨ctx', now ++ later, ?_, hready', htable'.trans htable1, hrefs'.trans hrefs1, ?_⟩
    · have hstep : receiveStep T (rets, ctx, some store) buf = .ok (rets ++ [.ok], ctx1, some (store ++ now)) := by
        rw [receiveStep, hblock]
        rfl
      rw [run_cons hstep, hrun, List.append_assoc, List.append_assoc, List.length_cons, List.replicate_succ]
      rfl
    · rw [List.map_append, hnow, hlater, hreferences, List.flatMap_cons]

/-- **An encoder's blocks in the middle of a session**: each is accepted, and adds its fields and then the references
that the blocks before it have left; the table and the references stay as they are. -/
theorem encoder_session (c : HuffmanSource) (T : HuffmanTables) (hT : huffmanGen c.data = some T)
    (heos : 7 < (c.bits eos).length) (t0 : HeaderTable) (before : List (Option Block × HeaderField))
    (hbefore : SessionOk T t0 before) (ctx : Context) (hctx : sessionRun T t0 before = .ok ctx)
    (hok : EmissionOk { ctx with finished := false }) (lists : List (List (List UInt8 × List UInt8)))
    (hlists : ∀ fields ∈ lists, Encodable T fields) (bufs : List Block)
    (hbufs : List.Forall₂ (RenderedAs T) lists bufs) (store : List HeaderField) :
    ∃ ctx' added, run (receiveStep T) ([], ctx, some store) bufs =
        .ok (List.replicate lists.length .ok, ctx', some (store ++ added)) ∧
      ctx'.table = ctx.table ∧ ctx'.referenceSet = ctx.referenceSet ∧
      added.map HeaderField.pair = lists.flatMap fun fields => fields ++ ctx.references.filter (· ≠ ([], [])) := by
  obtain ⟨padding, hgen⟩ := generated_of_huffmanGen hT
  obtain ⟨ctx0, hrun, hready⟩ := sessionRun_ready T hbefore
  rw [hctx] at hrun
  cases hrun
  obtain ⟨ctx', added, heq, -, htable, hrefs, hadded⟩ := hgen.receive_blocks heos hbufs hlists hready hok [] store
  exact ⟨ctx', added, heq, htable, hrefs, hadded⟩

/-- The tables of `byteCode`. -/
def byteTables : HuffmanTables := (huffmanGen byteCode.data).getD noTables

theorem byteTables_eq : huffmanGen byteCode.data = some byteTables := by
  obtain ⟨T, padding, hT, -⟩ := exists_byteTables
  rw [byteTables, hT, Option.getD_some]

/-- Two blocks with one field behind a block with the references `:method: GET` and `:path: /`. -/
theorem encoder_session_references :
    ∃ ctx buf, sessionRun byteTables zeroTable [(some requestBlock, hpackHeaderFieldInit)] = .ok ctx ∧
      RenderedAs byteTables [(ascii "a", ascii "b")] buf ∧
        ∃ ctx' added, run (receiveStep byteTables) ([], ctx, some []) [buf, buf] =
            .ok ([.ok, .ok], ctx', some ([] ++ added)) ∧
          ctx'.table = ctx.table ∧ ctx'.referenceSet = ctx.referenceSet ∧
          added.map HeaderField.pair = [[(ascii "a", ascii "b")], [(ascii "a", ascii "b")]].flatMap fun fields =>
            fields ++ ctx.references.filter (· ≠ ([], [])) := by
  obtain ⟨padding, hgen⟩ := generated_of_huffmanGen byteTables_eq
  have hone : ∀ b : UInt8, b.toNat < 255 → huffmanLength byteTables [b] = 1 := fun b hb =>
    huffmanLength_byteCode hgen (by simpa using hb)
  obtain ⟨buf, hbuf, -⟩ := hgen.exists_block (by decide) [(ascii "a", ascii "b")] (by
    simp [blockLength, fieldLength, stringLength, integerLength, prefixLimit, limits, ascii, hone])
  obtain ⟨ctx, hctx, hok⟩ : ∃ ctx, sessionRun byteTables zeroTable [(some requestBlock, hpackHeaderFieldInit)] = .ok ctx ∧
      EmissionOk { ctx with finished := false } := by decide +kernel
  have henc : Encodable byteTables [(ascii "a", ascii "b")] :=
    ⟨by decide, by decide, lengthsReadable_of_short (by simp [ascii, hone])⟩
  exact ⟨ctx, buf, hctx, hbuf, encoder_session byteCode byteTables byteTables_eq (by decide) zeroTable _
    (by decide +kernel) ctx hctx hok [[(ascii "a", ascii "b")], [(ascii "a", ascii "b")]]
    (by simpa using henc) [buf, buf] (.cons hbuf (.cons hbuf .nil)) []⟩

end LibHpack
