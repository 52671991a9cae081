import LibHpack.HeaderParser.Truncation
import LibHpack.Huffman.Accept

/-!
# LibHpack.HeaderParser.Endings — how a Huffman-coded string ends

The octets of such a string are complete codewords and the beginning of one more.  When that is the beginning of the end
of the stream, and shorter than an octet, it is padding (`Strict`); the table decoder notes so in `context.accept`.
`parse_string` does not look at it, and also accepts the strings that break off inside of a codeword (`BreaksOff`).
-/

namespace LibHpack

namespace HuffmanSource

variable {c : HuffmanSource} {octets : List UInt8}

/-- Complete codewords, none of them the end of the stream, and less than an octet of padding. -/
def Strict (c : HuffmanSource) (octets : List UInt8) : Prop :=
  ∃ (l : List (Fin 257)) (w : List Bool),
    eos ∉ l ∧ octets.flatMap octetBits = l.flatMap c.bits ++ w ∧ c.Padding w

/-- Complete codewords, none of them the end of the stream, and a part of a codeword that is no padding. -/
def BreaksOff (c : HuffmanSource) (octets : List UInt8) : Prop :=
  ∃ (l : List (Fin 257)) (w : List Bool),
    eos ∉ l ∧ octets.flatMap octetBits = l.flatMap c.bits ++ w ∧ c.Inner w ∧ ¬ c.Padding w

/-- Padding is a part of the end of the stream. -/
theorem Padding.inner {w : List Bool} (h : c.Padding w) (heos : 7 < (c.bits eos).length) : c.Inner w := by
  refine ⟨eos, h.1, fun heq => ?_⟩
  have := h.2
  rw [heq] at this
  omega

/-- The walk of the code tree finds the codewords. -/
theorem walk_of_split (hne : ∀ a, c.bits a ≠ []) {l : List (Fin 257)} {w : List Bool}
    (h : octets.flatMap octetBits = l.flatMap c.bits ++ w) (hw : c.Inner w) :
    c.walk [] (octets.flatMap octetBits) = (l, w) := by
  rw [h, PrefixCode.walk_flatMap hne, PrefixCode.walk_inner (w := []) hw, List.append_nil]
  rfl

theorem strict_iff (hne : ∀ a, c.bits a ≠ []) (heos : 7 < (c.bits eos).length) :
    c.Strict octets ↔ eos ∉ (c.walk [] (octets.flatMap octetBits)).1 ∧
      c.Padding (c.walk [] (octets.flatMap octetBits)).2 := by
  constructor
  · rintro ⟨l, w, hl, hbits, hpad⟩
    rw [walk_of_split hne hbits (hpad.inner heos)]
    exact ⟨hl, hpad⟩
  · intro h
    exact ⟨_, _, h.1, PrefixCode.walk_split [] _, h.2⟩

theorem breaksOff_iff (hne : ∀ a, c.bits a ≠ []) :
    c.BreaksOff octets ↔ eos ∉ (c.walk [] (octets.flatMap octetBits)).1 ∧
      ¬ c.Padding (c.walk [] (octets.flatMap octetBits)).2 := by
  constructor
  · rintro ⟨l, w, hl, hbits, hw, hpad⟩
    rw [walk_of_split hne hbits hw]
    exact ⟨hl, hpad⟩
  · intro h
    exact ⟨_, _, h.1, PrefixCode.walk_split [] _, (PrefixCode.inner_nil hne).walk hne _, h.2⟩

end HuffmanSource

section Endings

variable {c : HuffmanSource} {T : HuffmanTables} {buf : Block} {offset len icon : ℕ}

/-- **The table decoder** takes the strings that end in padding and those that break off. -/
theorem Generated.decode_ok_iff (h : Generated c T (eosPadding c)) (heos : 7 < (c.bits eos).length)
    (octets : List UInt8) (out : ChulaBuffer) :
    (hpackHuffmanDecode T octets out huffmanDecCtxInit).1 = .ok ↔ c.Strict octets ∨ c.BreaksOff octets := by
  have hdec := h.decode_decodesTo heos octets (PrefixCode.inner_nil h.ne_nil) true
    (iff_of_true rfl ⟨List.nil_prefix, Nat.zero_le 7⟩) out
  rw [BTree.find_nil, nodeId_decodeTree h.ne_nil] at hdec
  have hret : (hpackHuffmanDecode T octets out huffmanDecCtxInit).1 = _ := hdec.ret
  rw [hret, HuffmanSource.strict_iff h.ne_nil heos, HuffmanSource.breaksOff_iff h.ne_nil, ← and_or_left,
    and_iff_left (em _)]
  split_ifs with hmem
  · exact iff_of_false (by decide) (not_not.mpr hmem)
  · exact iff_of_true rfl hmem

/-- A string that ends in padding does not break off. -/
theorem strict_not_breaksOff (h : Generated c T (eosPadding c)) (heos : 7 < (c.bits eos).length) (octets : List UInt8)
    (hs : c.Strict octets) : ¬ c.BreaksOff octets := by
  rw [HuffmanSource.strict_iff h.ne_nil heos] at hs
  rw [HuffmanSource.breaksOff_iff h.ne_nil]
  exact fun hb => hb.2 hs.2

/-- **A coded string inside of the block**: the result is that of the decoder. -/
theorem parseString_coded (hbit : buf.get offset &&& 0x80 ≠ 0) (hint : IntegerAt 7 (buf.mem offset) len icon)
    (hread : Readable (buf.len - offset) icon) (hin : offset + icon + len ≤ buf.len) (string : ChulaBuffer) :
    ∃ string', parseString T buf offset string =
      if (hpackHuffmanDecode T (buf.slice (offset + icon) len) string huffmanDecCtxInit).1 = .ok
      then .ok (.ok, string', true, icon + len) else .ok (.error, string', true, 0) := by
  obtain ⟨hdec, hn, hlen, hcon⟩ := decode_length hint hread hin
  refine ⟨(hpackHuffmanDecode T (buf.slice (offset + icon) len) string huffmanDecCtxInit).2.2, ?_⟩
  rw [parseString, hdec]
  dsimp only
  rw [if_neg (by decide), hn, hlen, if_neg (not_lt.mpr hin), hcon, take_past hin, Block.slice_length hin,
    if_neg (lt_irrefl len), decide_eq_true hbit]
  split_ifs <;> simp_all

/-- **Which strings are accepted**: those that end in padding and no others, when no string that can be read breaks
off. -/
theorem parseString_strict (c : HuffmanSource) (hlen : ∀ a, 5 ≤ (c.bits a).length ∧ (c.bits a).length ≤ 30)
    (heos : 7 < (c.bits eos).length) : ∃ T, huffmanGen c.data = some T ∧
    ∀ (buf : Block) (offset : ℕ) (string : ChulaBuffer), offset ≤ buf.len → buf.get offset &&& 0x80 ≠ 0 →
      (((∀ string' huffman con, parseString T buf offset string = .ok (.ok, string', huffman, con) →
          ∃ len icon, IntegerAt 7 (buf.mem offset) len icon ∧ con = icon + len ∧ offset + con ≤ buf.len ∧
            c.Strict (buf.slice (offset + icon) len)) ∧
        ∀ len icon, IntegerAt 7 (buf.mem offset) len icon → offset + icon + len ≤ buf.len →
          ¬ c.Strict (buf.slice (offset + icon) len) →
            ∃ string', parseString T buf offset string = .ok (.error, string', true, 0)) ↔
        ∀ len icon, IntegerAt 7 (buf.mem offset) len icon → Readable (buf.len - offset) icon →
          offset + icon + len ≤ buf.len → ¬ c.BreaksOff (buf.slice (offset + icon) len)) := by
  obtain ⟨T, hT⟩ := huffmanGen_data c fun a => (Nat.le_succ 4).trans (hlen a).1
  have h := generated_eosPadding heos hT
  refine ⟨T, hT, fun buf offset string hoff hbit => ?_⟩
  constructor
  · rintro ⟨-, herror⟩ len icon hint hread hin hbreak
    obtain ⟨string', hr⟩ := parseString_coded (T := T) hbit hint hread hin string
    rw [if_pos ((h.decode_ok_iff heos _ _).mpr (.inr hbreak))] at hr
    -- it is accepted
    obtain ⟨string'', hr'⟩ := herror len icon hint hin fun hs => strict_not_breaksOff h heos _ hs hbreak
    rw [hr] at hr'
    cases hr'
  · intro hcond
    constructor
    · intro string' huffman con hr
      obtain ⟨s, hs, -⟩ := stringAt_of_parseString hoff hr
      cases hs with
      | plain hbit0 => exact absurd hbit0 hbit
      | @huffman len icon context out _ hint hread hin hdec =>
        refine ⟨len, icon, hint, by omega, by omega, ?_⟩
        exact ((h.decode_ok_iff heos _ _).mp (congrArg Prod.fst hdec)).resolve_right (hcond len icon hint hread hin)
    · intro len icon hint hin hnot
      rcases decode_or_error hint with hdec | ⟨v, hdec⟩
      · obtain ⟨-, -, hread⟩ := hpackIntegerDecode_ok_iff.mp hdec
        rw [Block.rest_eq hoff] at hread
        obtain ⟨string', hr⟩ := parseString_coded (T := T) hbit hint hread hin string
        rw [if_neg fun hok => (((h.decode_ok_iff heos _ _).mp hok).elim hnot (hcond len icon hint hread hin))] at hr
        exact ⟨string', hr⟩
      · refine ⟨string, ?_⟩
        rw [parseString, hdec, decide_eq_true hbit]
        rfl

section Samples

/-- A string of one octet, `a`. -/
def paddedBlock : Block := ⟨[0x81, 97], 0, by decide⟩

/-- A string of eight ones. -/
def brokenBlock : Block := ⟨[0x81, 0xFF], 0, by decide⟩

theorem byteCode_five (a : Fin 257) : 5 ≤ (byteCode.bits a).length ∧ (byteCode.bits a).length ≤ 30 := by
  have := byteCode_bounds a
  omega

theorem byteCode_ne_nil (a : Fin 257) : byteCode.bits a ≠ [] :=
  ne_nil_of_four_le (fun a => (Nat.le_succ 4).trans (byteCode_five a).1) a

end Samples

theorem parseString_strict_padded : ∃ T, huffmanGen byteCode.data = some T ∧
    ∀ string' huffman con, parseString T paddedBlock 0 chulaBufferInit = .ok (.ok, string', huffman, con) →
      ∃ len icon, IntegerAt 7 (paddedBlock.mem 0) len icon ∧ con = icon + len ∧ 0 + con ≤ paddedBlock.len ∧
        byteCode.Strict (paddedBlock.slice (0 + icon) len) := by
  obtain ⟨T, hT, hall⟩ := parseString_strict byteCode byteCode_five (byteCode_bounds eos).1
  refine ⟨T, hT, ((hall paddedBlock 0 chulaBufferInit (by decide) (by decide)).mpr ?_).1⟩
  intro len icon hint _ _
  have hone := (hpackIntegerDecode_ok_iff.mp
    (show hpackIntegerDecode 7 (paddedBlock.mem 0) 2 0 = (.ok, 1, 1) by decide)).1
  obtain ⟨rfl, rfl⟩ := hint.unique hone
  rw [show paddedBlock.slice (0 + 1) 1 = [97] by decide, HuffmanSource.breaksOff_iff byteCode_ne_nil,
    show byteCode.walk [] ([97].flatMap octetBits) = ([97], []) from PrefixCode.walk_bits (c := byteCode) (a := 97) (by decide)]
  exact fun h => h.2 ⟨List.nil_prefix, Nat.zero_le 7⟩

/-- Eight ones are the beginning of the end of the stream, but a whole octet. -/
theorem parseString_strict_broken : ∃ T, huffmanGen byteCode.data = some T ∧
    (∃ string', parseString T brokenBlock 0 chulaBufferInit = .ok (.ok, string', true, 2)) ∧
    IntegerAt 7 (brokenBlock.mem 0) 1 1 ∧ brokenBlock.slice (0 + 1) 1 = [0xFF] ∧ ¬ byteCode.Strict [0xFF] := by
  obtain ⟨T, hT⟩ := huffmanGen_data byteCode fun a => (Nat.le_succ 4).trans (byteCode_five a).1
  have h := generated_eosPadding (byteCode_bounds eos).1 hT
  have hone := (hpackIntegerDecode_ok_iff.mp
    (show hpackIntegerDecode 7 (brokenBlock.mem 0) 2 0 = (.ok, 1, 1) by decide)).1
  have hslice : brokenBlock.slice (0 + 1) 1 = [0xFF] := by decide
  have hbreak : byteCode.BreaksOff [0xFF] :=
    ⟨[], List.replicate 8 true, List.not_mem_nil, by decide, ⟨eos, by decide, by decide⟩,
      fun hpad => absurd hpad.2 (by decide)⟩
  have hbit : brokenBlock.get 0 &&& 0x80 ≠ 0 := by decide
  obtain ⟨string', hr⟩ := parseString_coded (T := T) hbit hone (.inl rfl) (by decide) chulaBufferInit
  rw [hslice, if_pos ((h.decode_ok_iff (byteCode_bounds eos).1 _ _).mpr (.inr hbreak))] at hr
  exact ⟨T, hT, ⟨string', hr⟩, hone, hslice, fun hs => strict_not_breaksOff h (byteCode_bounds eos).1 _ hs hbreak⟩

end Endings

end LibHpack
