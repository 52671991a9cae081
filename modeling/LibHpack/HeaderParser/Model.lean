import LibHpack.HeaderTable.Model
import LibHpack.Huffman.Model
import LibHpack.Integer

/-!
# LibHpack.HeaderParser.Model — the decoder (header_parser.c)

A header block is a `chula_buffer_t` with contents.  Its length is smaller than its size, which is an `uint32_t`, so
there is one octet after the contents (`Block.past`); the parser reads it when a block ends too early.  A read beyond
that one is `Fault.overread`.  Offsets are `unsigned int`, so sums and differences are taken modulo 2^32.

A buffer that was initialised and never written, `{NULL, 0, 0}`, has no memory at all: it is the `none` of the calls that
take an `Option Block`.  They read `buf->buf[offset]` before they ask for the length, so all that they do with it is fault;
the functions behind them are only reached with a `Block`.

What the source stores through its pointers comes back next to the result: the context, the field and `*consumed`.
-/

namespace LibHpack

/-- A buffer with memory, which holds the header block. -/
structure Block where
  octets : List UInt8
  past : UInt8
  len_lt : octets.length + 1 < 2 ^ 32

namespace Block

variable (buf : Block)

def len : ℕ := buf.octets.length

/-- `buf->buf[n]`. -/
def get (n : ℕ) : UInt8 := buf.octets.getD n buf.past

/-- The memory from `buf->buf + n` on. -/
def mem (n : ℕ) : ℕ → UInt8 := fun i => buf.get (n + i)

/-- `buf->len - n`. -/
def rest (n : ℕ) : ℕ := cbMask ((buf.len : ℤ) - n) (2 ^ 32)

end Block

/-- `buf->len`, of a buffer with or without memory. -/
@[reducible] def blockLen : Option Block → ℕ
  | none => 0
  | some buf => buf.len

@[simp] theorem blockLen_some (buf : Block) : blockLen buf = buf.len := rfl

/-- `hpack_header_parser_context_t`. -/
structure Context where
  table : HeaderTable
  referenceSet : HpackSet
  refNotEmitted : HpackSet
  iterNotEmitted : SetIterator
  finished : Bool

/-- `hpack_header_parser_init`, on whatever the memory of the table holds. -/
def hpackHeaderParserInit (t : HeaderTable) : Context where
  table := hpackHeaderTableInit t
  referenceSet := hpackSetInit false
  refNotEmitted := hpackSetInit false
  iterNotEmitted := hpackSetIterInit
  finished := false

/-! ### Sets of HPACK indices -/

/-- `hpack_header_table_set_add`. -/
def hpackHeaderTableSetAdd (t : HeaderTable) (s : HpackSet) (i : ℕ) : HpackSet :=
  (hpackSetAdd s (indexSwitchHtHpack t i)).2

/-- `hpack_header_table_set_remove`. -/
def hpackHeaderTableSetRemove (t : HeaderTable) (s : HpackSet) (i : ℕ) : HpackSet :=
  (hpackSetRemove s (indexSwitchHtHpack t i)).2

/-- `hpack_header_table_set_exists`. -/
def hpackHeaderTableSetExists (t : HeaderTable) (s : HpackSet) (i : ℕ) : Bool :=
  hpackSetExists s (indexSwitchHtHpack t i)

/-! ### Adding a field -/

/-- The last component is `*added`. -/
def addFieldProcessEvictions (context : Context) (field : HeaderField) : C (Ret × Context × Bool) := do
  let (ret, table, evictedSet) ← hpackHeaderTableAdd context.table field
  if ret ≠ .ok then return (ret, { context with table := table }, false)
  else return (.ok,
    { context with
      table := table
      referenceSet := hpackSetRelativeComp context.referenceSet evictedSet
      refNotEmitted := hpackSetRelativeComp context.refNotEmitted evictedSet },
    !hpackSetIsFull evictedSet)

section Parse

variable (T : HuffmanTables)

/-- The result, `*string`, `*huffman` and `*consumed`. -/
def parseString (buf : Block) (offset : ℕ) (string : ChulaBuffer) : C (Ret × ChulaBuffer × Bool × ℕ) :=
  let huffman := decide (buf.get offset &&& 0x80 ≠ 0)
  let (ret, len, con) := hpackIntegerDecode 7 (buf.mem offset) (buf.rest offset) 0
  if ret ≠ .ok then .ok (.error, string, huffman, 0)
  else
    let n := (offset + con) % 2 ^ 32
    if buf.len < (n + len) % 2 ^ 32 then .ok (.eagain, string, huffman, 0)
    else
      let input := ((buf.octets ++ [buf.past]).drop n).take len
      if huffman then
        let (ret, _, string) := hpackHuffmanDecode T input string huffmanDecCtxInit
        if ret ≠ .ok then .ok (.error, string, huffman, 0)
        else if input.length < len then .error .overread
        else .ok (.ok, string, huffman, cbMask (((n + len) % 2 ^ 32 : ℕ) - (offset : ℤ)) (2 ^ 32))
      else if input.length < len then .error .overread
      else .ok (.ok, chulaBufferAdd string input, huffman, cbMask (((n + len) % 2 ^ 32 : ℕ) - (offset : ℤ)) (2 ^ 32))

/-- The result, the context, `*field` and `*consumed`.  The offset is stored in an `int`, so from 2^31 on the source
reads in front of the buffer. -/
def parseIndexed (buf : Block) (offset : ℕ) (context : Context) (field : HeaderField) :
    C (Ret × Context × HeaderField × ℕ) :=
  if 2 ^ 31 ≤ offset then .error .overread
  else
    let (ret, num, con) := hpackIntegerDecode 7 (buf.mem offset) (buf.rest offset) 0
    if ret ≠ .ok then .ok (.error, context, field, 0)
    else if 61 + context.table.numHeaders < num then .ok (.error, context, field, 0)
    else if hpackHeaderTableSetExists context.table context.referenceSet num then
      .ok (.ok,
        { context with
          referenceSet := hpackHeaderTableSetRemove context.table context.referenceSet num
          refNotEmitted := hpackHeaderTableSetRemove context.table context.refNotEmitted num },
        field, con)
    else do
      let field := { field with flags := { field.flags with rep := .repIndexed } }
      let (ret, field, isStatic) ← hpackHeaderTableGet context.table num false field
      if ret ≠ .ok then return (ret, context, field, 0)
      else
        let (ret, context, _) ← if isStatic then addFieldProcessEvictions context field
          else .ok (.ok, context, true)
        if ret ≠ .ok then return (ret, context, field, 0)
        else
          let num := if isStatic then 1 else num
          return (.ok,
            { context with
              referenceSet := hpackHeaderTableSetAdd context.table context.referenceSet num
              refNotEmitted := hpackHeaderTableSetRemove context.table context.refNotEmitted num },
            field, con)

/-- The first half of `parse_header_pair`: the result, `*field` with its name, and `n`, where the value starts. -/
def parseHeaderName (buf : Block) (offset : ℕ) (table : HeaderTable) (field : HeaderField) :
    C (Ret × HeaderField × ℕ) :=
  if buf.get offset &&& 0x0F ≠ 0 then
    let N := if buf.get offset &&& 0xC0 ≠ 0 then 6 else 4
    let (ret, len, con) := hpackIntegerDecode N (buf.mem offset) (buf.rest offset) 0
    if ret ≠ .ok then .ok (.error, field, offset)
    else do
      let (ret, field, isStatic) ← hpackHeaderTableGet table len true field
      let name := if isStatic then .isIndexedStatic else .isIndexedHt
      return (ret, { field with flags := { field.flags with name := name } }, (offset + con) % 2 ^ 32)
  else do
    let (ret, name, huffman, con) ← parseString T buf ((offset + 1) % 2 ^ 32) field.name
    let field := { field with name := name }
    if ret ≠ .ok then return (ret, field, offset)
    else
      let name := if huffman then .isNewHuffman else .isNew
      return (ret, { field with flags := { field.flags with name := name } }, (offset + 1 + con) % 2 ^ 32)

/-- The result, `*field` and `*consumed`.  The context is only read. -/
def parseHeaderPair (buf : Block) (offset : ℕ) (table : HeaderTable) (field : HeaderField) :
    C (Ret × HeaderField × ℕ) := do
  let (ret, field, n) ← parseHeaderName T buf offset table field
  if ret ≠ .ok then return (ret, field, 0)
  else
    let (ret, value, huffman, con) ← parseString T buf n field.value
    let field := { field with value := value }
    if ret ≠ .ok then return (ret, field, 0)
    else
      let value := if huffman then .isNewHuffman else .isNew
      return (.ok, { field with flags := { field.flags with value := value } },
        cbMask (((n + con) % 2 ^ 32 : ℕ) - (offset : ℤ)) (2 ^ 32))

/-- The result, the context and `*consumed`. -/
def parseContextUpdate (buf : Block) (offset : ℕ) (context : Context) : C (Ret × Context × ℕ) :=
  if buf.get offset = 0x30 then
    .ok (.ok, { context with referenceSet := hpackSetClear, refNotEmitted := hpackSetClear }, 1)
  else
    let (ret, num, con) := hpackIntegerDecode 4 (buf.mem offset) (buf.rest offset) 0
    if ret ≠ .ok then .ok (.error, context, 0)
    else do
      let (ret, table, evictedSet) ← hpackHeaderTableSetMax context.table num
      if ret ≠ .ok then return (.error, { context with table := table }, 0)
      else return (.ok,
        { context with
          table := table
          referenceSet := hpackSetRelativeComp context.referenceSet evictedSet
          refNotEmitted := hpackSetRelativeComp context.refNotEmitted evictedSet },
        con)

/-- The result, the context and `*field`; `*consumed` is 0. -/
def finalReferenceSetProcess (context : Context) (field : HeaderField) : C (Ret × Context × HeaderField) :=
  if context.finished then .ok (.eof, context, field)
  else
    match hpackHeaderTableIterNext context.table context.refNotEmitted context.iterNotEmitted with
    | (none, _) =>
      .ok (.eof,
        { context with
          finished := true
          refNotEmitted := hpackSetSet context.referenceSet
          iterNotEmitted := hpackSetIterReset },
        field)
    | (some idx, iter) => do
      let (_, field, _) ← hpackHeaderTableGet context.table idx false field
      return (.ok,
        { context with
          iterNotEmitted := iter
          refNotEmitted := hpackHeaderTableSetRemove context.table context.refNotEmitted idx },
        field)

/-- `hpack_header_parser_field`: the result, the context of the parser, `*field` and `*consumed`. -/
def hpackHeaderParserField (context : Context) (buf : Option Block) (offset : ℕ) (field : HeaderField) :
    C (Ret × Context × HeaderField × ℕ) :=
  match buf with
  -- the first octet is read before the test for the end of the block
  | none => .error .overread
  | some buf =>
    let c := buf.get offset
    let field := hpackHeaderFieldClean field
    if offset = buf.len then do
      let (ret, context, field) ← finalReferenceSetProcess context field
      return (ret, context, field, 0)
    else
      let context := { context with finished := false }
      if c &&& 0xE0 = 0x20 then do
        let (ret, context, con) ← parseContextUpdate buf offset context
        return (ret, context, field, con)
      else if c &&& 0x80 ≠ 0 then parseIndexed buf offset context field
      else do
        let (ret, field, con) ← parseHeaderPair T buf offset context.table field
        if ret ≠ .ok then return (ret, context, field, con)
        else if c &&& 0xC0 = 0x40 then
          let field := { field with flags := { field.flags with rep := .repIncIndexed } }
          let (ret, context, added) ← addFieldProcessEvictions context field
          if ret ≠ .ok then return (ret, context, field, con)
          else if added then
            return (.ok,
              { context with
                referenceSet := hpackHeaderTableSetAdd context.table context.referenceSet 1
                refNotEmitted := hpackHeaderTableSetRemove context.table context.refNotEmitted 1 },
              field, con)
          else return (.ok, context, field, con)
        else
          let rep := if c &&& 0xF0 ≠ 0 then .repNeverIndx else .repWoIndexing
          return (.ok, context, { field with flags := { field.flags with rep := rep } }, con)

/-- The loop of `hpack_header_parser_all`; no store is registered when it is `none`. -/
def parserAllLoop (buf : Option Block) : ℕ → Context → Option (List HeaderField) → ℕ → HeaderField → ℕ →
    C (Ret × Context × Option (List HeaderField) × ℕ)
  | 0, _, _, _, _, _ => .error .hang
  | fuel + 1, context, store, offset, field, consumed => do
    let (ret, context, field, con) ← hpackHeaderParserField T context buf offset field
    if ret = .eof then return (.ok, context, store, consumed)
    else if ret ≠ .ok then return (ret, context, store, consumed)
    else
      let store := if !hpackHeaderFieldIsEmpty field then store.map (hpackHeaderStoreEmit · field) else store
      parserAllLoop buf fuel context store ((offset + con) % 2 ^ 32) field ((consumed + con) % 2 ^ 32)

/-- `hpack_header_parser_all`: the result, the context of the parser, its store and `*consumed`.  Before the end of the
block a call consumes at least one octet, and at its end it moves the iterator, which has 128 places to go to; so there
is fuel enough. -/
def hpackHeaderParserAll (context : Context) (store : Option (List HeaderField)) (buf : Option Block)
    (offset consumed : ℕ) : C (Ret × Context × Option (List HeaderField) × ℕ) :=
  parserAllLoop T buf (blockLen buf - offset + 130) context store offset hpackHeaderFieldInit consumed

end Parse

end LibHpack
