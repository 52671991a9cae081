import LibHpack.HeaderParser.Representations

/-!
# LibHpack.HeaderParser.Truncation — what lies behind the octets that are read

The length of a string, the octets behind an integer and the end of the block are all under the control of the peer.
`parse_string` compares a 32-bit sum with the length of the block, so it only goes wrong when the sum wraps around;
`hpack_integer_decode` is told the number of octets up to the end of the block modulo 256; and a representation that is
cut off is not accepted, except for a block of nearly 2^32 octets.
-/

namespace LibHpack

variable {T : HuffmanTables} {buf : Block} {offset len con : ℕ} {string string' : ChulaBuffer}

/-! ### The end of a string -/

/-- The decoder refuses the octets from `n` on, the one behind the block included. -/
def HuffmanRefused (T : HuffmanTables) (buf : Block) (n : ℕ) : Prop :=
  (hpackHuffmanDecode T ((buf.octets ++ [buf.past]).drop n) chulaBufferInit huffmanDecCtxInit).1 ≠ .ok

/-- Whether it does so does not depend on the string that it appends to. -/
theorem decode_ne_ok (input : List UInt8) (string : ChulaBuffer) :
    (hpackHuffmanDecode T input string huffmanDecCtxInit).1 =
      (hpackHuffmanDecode T input chulaBufferInit huffmanDecCtxInit).1 :=
  (hpackHuffmanDecode_append string.bytes input (a := chulaBufferInit) (by simp) huffmanDecCtxInit).1

/-- **What is parsed is a string of the block.** -/
theorem stringAt_of_parseString {huffman : Bool} (h : offset ≤ buf.len)
    (hr : parseString T buf offset string = .ok (.ok, string', huffman, con)) :
    ∃ s, StringAt T buf offset s con ∧ string'.bytes = string.bytes ++ s := by
  have hbuf := buf.len_succ_lt
  unfold parseString at hr
  rcases hdec : hpackIntegerDecode 7 (buf.mem offset) (buf.rest offset) 0 with ⟨ret, len, con1⟩
  rw [hdec] at hr
  dsimp only at hr
  by_cases hret : ret = .ok
  swap
  · rw [if_pos hret] at hr
    cases hr
  rw [if_neg (not_not.mpr hret)] at hr
  subst hret
  obtain ⟨-, hle, -⟩ := decode_bounds h hdec
  obtain ⟨hint, hlt, hread⟩ := hpackIntegerDecode_ok_iff.mp hdec
  rw [Block.rest_eq h] at hread
  rw [Nat.mod_eq_of_lt (show offset + con1 < 2 ^ 32 by omega)] at hr
  by_cases heagain : buf.len < (offset + con1 + len) % 2 ^ 32
  · rw [if_pos heagain] at hr
    cases hr
  rw [if_neg heagain] at hr
  -- the octets are there, so the sum does not wrap around
  have hfits : len ≤ (((buf.octets ++ [buf.past]).drop (offset + con1)).take len).length → offset + con1 + len ≤ buf.len := by
    intro hinput
    rw [List.length_take, List.length_drop, List.length_append, List.length_singleton] at hinput
    have hlen : buf.octets.length = buf.len := rfl
    rw [Nat.mod_eq_of_lt (by omega)] at heagain
    omega
  split_ifs at hr with hbit hret1 hover hover
  · cases hr
  · have hin := hfits (not_lt.mp hover)
    obtain ⟨-, -, hmod, hcon⟩ := decode_length hint hread hin
    rw [hmod, hcon, take_past hin] at hr
    rw [take_past hin] at hret1
    cases hr
    obtain ⟨-, -, hout⟩ := hpackHuffmanDecode_append (T := T) string.bytes (buf.slice (offset + con1) len)
      (a := chulaBufferInit) (b := string) (by simp) huffmanDecCtxInit
    rw [not_not, decode_ne_ok] at hret1
    exact ⟨_, .huffman (by simpa using hbit) hint hread hin (Prod.ext hret1 rfl), hout⟩
  · have hin := hfits (not_lt.mp hover)
    obtain ⟨-, -, hmod, hcon⟩ := decode_length hint hread hin
    rw [hmod, hcon, take_past hin] at hr
    cases hr
    exact ⟨_, .plain (by simpa using hbit) hint hread hin, chulaBufferAdd_bytes string _⟩

/-- A length that goes beyond the block. -/
theorem parseString_beyond
    (hdec : hpackIntegerDecode 7 (buf.mem offset) (buf.rest offset) 0 = (.ok, len, con))
    (hbeyond : buf.len < offset + con + len) (hlt : offset + con + len < 2 ^ 32) (string : ChulaBuffer) :
    parseString T buf offset string = .ok (.eagain, string, decide (buf.get offset &&& 0x80 ≠ 0), 0) := by
  rw [parseString, hdec]
  dsimp only
  rw [if_neg (by decide), Nat.mod_eq_of_lt (a := offset + con) (by omega), Nat.mod_eq_of_lt hlt, if_pos hbeyond]

/-- **A length that goes beyond 2^32** always passes the test, and the octets are read until the memory ends, or until
the Huffman decoder refuses them. -/
theorem parseString_wraps (h : offset ≤ buf.len)
    (hdec : hpackIntegerDecode 7 (buf.mem offset) (buf.rest offset) 0 = (.ok, len, con))
    (hwrap : 2 ^ 32 ≤ offset + con + len) (string : ChulaBuffer) :
    (buf.get offset &&& 0x80 ≠ 0 ∧ HuffmanRefused T buf (offset + con) →
      ∃ string', parseString T buf offset string = .ok (.error, string', true, 0)) ∧
    (¬ (buf.get offset &&& 0x80 ≠ 0 ∧ HuffmanRefused T buf (offset + con)) →
      parseString T buf offset string = .error .overread) := by
  have hbuf := buf.len_succ_lt
  obtain ⟨-, hle, -⟩ := decode_bounds h hdec
  obtain ⟨-, hlt, -⟩ := hpackIntegerDecode_ok_iff.mp hdec
  -- all that is left is shorter than the string
  have hlen : ((buf.octets ++ [buf.past]).drop (offset + con)).length < len := by
    have hoctets : buf.octets.length = buf.len := rfl
    rw [List.length_drop, List.length_append, List.length_singleton]
    omega
  rw [parseString, hdec]
  dsimp only
  rw [if_neg (by decide), Nat.mod_eq_of_lt (a := offset + con) (by omega), if_neg (by omega), List.take_of_length_le hlen.le,
    decode_ne_ok, HuffmanRefused]
  by_cases hbit : buf.get offset &&& 0x80 ≠ 0
  · rw [if_pos (decide_eq_true hbit)]
    constructor
    · intro hr
      exact ⟨_, by rw [if_pos hr.2, decide_eq_true hbit]⟩
    · intro hr
      rw [if_neg fun hr' => hr ⟨hbit, hr'⟩, if_pos hlen]
  · rw [if_neg (by simpa using hbit)]
    exact ⟨fun hr => absurd hr.1 hbit, fun _ => if_pos hlen⟩

/-- **Where a string ends**: what is parsed lies in the block, and a length that goes beyond it is refused, when the
sum of the offset and the length is less than 2^32. -/
theorem parseString_inside (T : HuffmanTables) (buf : Block) (offset : ℕ) (hoff : offset < buf.len)
    (string : ChulaBuffer) :
    ((∀ string' huffman con, parseString T buf offset string = .ok (.ok, string', huffman, con) →
        offset + con ≤ buf.len ∧ ∃ s, StringAt T buf offset s con ∧ string'.bytes = string.bytes ++ s) ∧
      ∀ len con, IntegerAt 7 (buf.mem offset) len con → len < 2 ^ 32 → buf.len < offset + con + len →
        ∃ ret string' huffman, parseString T buf offset string = .ok (ret, string', huffman, 0) ∧ ret ≠ .ok) ↔
      ∀ len con, IntegerAt 7 (buf.mem offset) len con → len < 2 ^ 32 → Readable (buf.len - offset) con →
        offset + con + len < 2 ^ 32 ∨ (buf.get offset &&& 0x80 ≠ 0 ∧ HuffmanRefused T buf (offset + con)) := by
  have hbuf := buf.len_succ_lt
  constructor
  · rintro ⟨-, hrefused⟩ len con hint hlt hread
    by_contra hnot
    rw [not_or, not_lt] at hnot
    obtain ⟨ret, string', huffman, hr, -⟩ := hrefused len con hint hlt (by omega)
    rw [(parseString_wraps hoff.le (decode_of_integerAt hoff.le hint hlt hread) hnot.1 string).2 hnot.2] at hr
    cases hr
  · intro hcond
    constructor
    · intro string' huffman con hr
      exact ⟨(parseString_bounds hoff.le hr).2, stringAt_of_parseString hoff.le hr⟩
    · intro len con hint hlt hbeyond
      rcases decode_or_error hint with hdec | ⟨v, hdec⟩
      · obtain ⟨-, -, hread⟩ := hpackIntegerDecode_ok_iff.mp hdec
        rw [Block.rest_eq hoff.le] at hread
        by_cases hwrap : offset + con + len < 2 ^ 32
        · exact ⟨_, _, _, parseString_beyond hdec hbeyond hwrap string, by decide⟩
        · have hhuffman := (hcond len con hint hlt hread).resolve_left hwrap
          obtain ⟨string', hr⟩ := (parseString_wraps hoff.le hdec (not_lt.mp hwrap) string).1 hhuffman
          exact ⟨_, _, _, hr, by decide⟩
      · refine ⟨.error, string, decide (buf.get offset &&& 0x80 ≠ 0), ?_, by decide⟩
        rw [parseString, hdec]
        rfl

section Samples

/-- A string of two octets, of which there is one. -/
def shortBlock : Block := ⟨[0x02, 97], 0, by decide⟩

/-- A string of 2^32 - 1 octets. -/
def wrapBlock : Block := ⟨[0x7F, 0x80, 0xFF, 0xFF, 0xFF, 0x0F], 0, by decide⟩

end Samples

theorem parseString_inside_short : ∃ ret string' huffman,
    parseString noTables shortBlock 0 chulaBufferInit = .ok (ret, string', huffman, 0) ∧ ret ≠ .ok := by
  have hdec : hpackIntegerDecode 7 (shortBlock.mem 0) 2 0 = (.ok, 2, 1) := by decide
  have hlen := (hpackIntegerDecode_ok_iff.mp hdec).1
  refine ((parseString_inside noTables shortBlock 0 (by decide) chulaBufferInit).mpr fun len con hint _ _ => ?_).2 2 1
    hlen (by decide) (by decide)
  obtain ⟨rfl, rfl⟩ := hint.unique hlen
  exact .inl (by decide)

/-- The sum is 5 modulo 2^32, so the length passes the test. -/
theorem parseString_inside_wraps : IntegerAt 7 (wrapBlock.mem 0) (2 ^ 32 - 1) 6 ∧ wrapBlock.len < 0 + 6 + (2 ^ 32 - 1) ∧
    parseString noTables wrapBlock 0 chulaBufferInit = .error .overread := by
  have hdec : hpackIntegerDecode 7 (wrapBlock.mem 0) 6 0 = (.ok, 2 ^ 32 - 1, 6) := by decide
  exact ⟨(hpackIntegerDecode_ok_iff.mp hdec).1, by decide, by decide⟩

/-! ### The octets behind an integer -/

/-- The calls of `hpack_integer_decode` in the parser. -/
inductive DecodeSite
  | string
  | indexed
  | headerPair
  | contextUpdate
  deriving DecidableEq

namespace DecodeSite

/-- The width of the prefix. -/
def width (buf : Block) (n : ℕ) : DecodeSite → ℕ
  | .string => 7
  | .indexed => 7
  | .headerPair => if buf.get n &&& 0xC0 ≠ 0 then 6 else 4
  | .contextUpdate => 4

/-- The result of the call, the value, and how many octets it takes; `parse_indexed` keeps the offset in an `int`. -/
def call (site : DecodeSite) (buf : Block) (n : ℕ) : C (Ret × ℕ × ℕ) :=
  if site = indexed ∧ 2 ^ 31 ≤ n then .error .overread
  else .ok (hpackIntegerDecode (site.width buf n) (buf.mem n) (buf.rest n) 0)

variable {site : DecodeSite} {n v : ℕ}

/-- **When an integer is decoded.** -/
theorem call_eq_ok_iff (hint : IntegerAt (site.width buf n) (buf.mem n) v con) (hv : v < 2 ^ 32) (hn : n ≤ buf.len) :
    site.call buf n = .ok (.ok, v, con) ↔ (site = indexed → n < 2 ^ 31) ∧ Readable (buf.len - n) con := by
  rw [call]
  split_ifs with h31
  · refine iff_of_false (fun h => nomatch h) fun h => ?_
    exact absurd (h.1 h31.1) (not_lt.mpr h31.2)
  · have h31' : site = indexed → n < 2 ^ 31 := fun hs => not_le.mp fun hle => h31 ⟨hs, hle⟩
    rw [Except.ok.injEq, hpackIntegerDecode_ok_iff, Block.rest_eq hn]
    exact ⟨fun h => ⟨h31', h.2.2⟩, fun h => ⟨hint, hv, h.2⟩⟩

end DecodeSite

section Prefix

variable {buf' : Block} {N v i : ℕ}

/-- The octets of a block are those of a longer one. -/
theorem Block.get_of_longer (h : buf.octets <+: buf'.octets) (hi : i < buf.len) : buf'.get i = buf.get i := by
  obtain ⟨ext, hext⟩ := h
  rw [Block.get, Block.get, ← hext, List.getD, List.getD, List.getElem?_append_left hi, List.getElem?_eq_getElem hi]
  rfl

theorem Block.len_le_of_longer (h : buf.octets <+: buf'.octets) : buf.len ≤ buf'.len := h.length_le

/-- An integer inside of a block is one of the longer block, and the other way round. -/
theorem IntegerAt.of_longer (h : buf.octets <+: buf'.octets) (hin : offset + con ≤ buf.len) :
    IntegerAt N (buf'.mem offset) v con ↔ IntegerAt N (buf.mem offset) v con := by
  have hget : ∀ j < con, buf'.mem offset j = buf.mem offset j := fun j hj => Block.get_of_longer h (by omega)
  exact ⟨fun hint => hint.congr fun j hj => (hget j hj).symm, fun hint => hint.congr hget⟩

end Prefix

/-- **An integer is decoded whatever follows it**, when the number of octets up to the end of the block is large enough
modulo 256. -/
theorem integer_decode_stable (site : DecodeSite) (buf buf' : Block) (n v con : ℕ) (hpre : buf.octets <+: buf'.octets)
    (hint : IntegerAt (site.width buf n) (buf.mem n) v con) (hin : n + con ≤ buf.len) (hv : v < 2 ^ 32) :
    (site.call buf n = .ok (.ok, v, con) ∧ site.call buf' n = site.call buf n) ↔
      Readable (buf.len - n) con ∧ Readable (buf'.len - n) con ∧ (site = .indexed → n < 2 ^ 31) := by
  have hpos := hint.pos
  have hle := Block.len_le_of_longer hpre
  have hwidth : site.width buf' n = site.width buf n := by
    cases site <;> simp only [DecodeSite.width, Block.get_of_longer hpre (show n < buf.len by omega)]
  have hint' : IntegerAt (site.width buf' n) (buf'.mem n) v con := by
    rw [hwidth]
    exact (IntegerAt.of_longer hpre hin).mpr hint
  have hcall := DecodeSite.call_eq_ok_iff hint hv (by omega)
  have hcall' := DecodeSite.call_eq_ok_iff hint' hv (by omega)
  constructor
  · rintro ⟨hok, heq⟩
    rw [hok] at heq
    exact ⟨(hcall.mp hok).2, (hcall'.mp heq).2, (hcall.mp hok).1⟩
  · rintro ⟨hread, hread', h31⟩
    have hok := hcall.mpr ⟨h31, hread⟩
    exact ⟨hok, by rw [hok]; exact hcall'.mpr ⟨h31, hread'⟩⟩

section Samples

/-- The integer 128 with a prefix of seven bits. -/
def twoBlock : Block := ⟨[0x7F, 0x01], 0, by decide⟩

/-- The same with 254 octets behind it. -/
def fullBlock : Block :=
  ⟨[0x7F, 0x01] ++ List.replicate 254 0, 0, by rw [List.length_append, List.length_replicate]; decide⟩

theorem twoBlock_integerAt : IntegerAt 7 (twoBlock.mem 0) 128 2 := by
  have hdec : hpackIntegerDecode 7 (twoBlock.mem 0) 2 0 = (.ok, 128, 2) := by decide
  exact (hpackIntegerDecode_ok_iff.mp hdec).1

end Samples

theorem integer_decode_stable_two : DecodeSite.string.call twoBlock 0 = .ok (.ok, 128, 2) ∧
    DecodeSite.string.call ⟨[0x7F, 0x01, 0x00], 0, by decide⟩ 0 = DecodeSite.string.call twoBlock 0 :=
  (integer_decode_stable .string twoBlock ⟨[0x7F, 0x01, 0x00], 0, by decide⟩ 0 128 2 (by decide) twoBlock_integerAt
    (by decide) (by decide)).mpr ⟨by decide, by decide, fun h => absurd h (by decide)⟩

/-- There are 256 octets, which is 0 in the parameter. -/
theorem integer_decode_stable_full : IntegerAt 7 (twoBlock.mem 0) 128 2 ∧
    DecodeSite.string.call twoBlock 0 = .ok (.ok, 128, 2) ∧ twoBlock.octets <+: fullBlock.octets ∧
    DecodeSite.string.call fullBlock 0 = .ok (.error, 127, 0) := by
  refine ⟨twoBlock_integerAt, ?_, ⟨List.replicate 254 0, rfl⟩, ?_⟩
  · rw [DecodeSite.call, if_neg (by decide)]
    exact congrArg Except.ok (show hpackIntegerDecode 7 (twoBlock.mem 0) (twoBlock.rest 0) 0 = _ by decide)
  · rw [DecodeSite.call, if_neg (by decide)]
    exact congrArg Except.ok (show hpackIntegerDecode 7 (fullBlock.mem 0) (fullBlock.rest 0) 0 = _ by decide +kernel)

end LibHpack
