import LibHpack.HeaderParser.Progress

/-!
# LibHpack.HeaderParser.Strings — what is a string representation

`StringAt T buf n s con`: at offset `n` of the block there are `con` octets that represent the string `s`.  They are a
length, and as many octets of the block: the string itself, or what the Huffman decoder reads as the string.
-/

namespace LibHpack

variable {T : HuffmanTables} {buf : Block} {offset n len con N num : ℕ} {s : List UInt8}

/-- `len` octets of the block. -/
def Block.slice (buf : Block) (n len : ℕ) : List UInt8 := (buf.octets.drop n).take len

/-- A string representation whose length the decoder gets to the end of. -/
inductive StringAt (T : HuffmanTables) (buf : Block) (n : ℕ) : List UInt8 → ℕ → Prop
  | plain {len con : ℕ} (hbit : buf.get n &&& 0x80 = 0) (hint : IntegerAt 7 (buf.mem n) len con)
      (hread : Readable (buf.len - n) con) (hin : n + con + len ≤ buf.len) :
      StringAt T buf n (buf.slice (n + con) len) (con + len)
  | huffman {len con : ℕ} {context : HuffmanContext} {out : ChulaBuffer} (hbit : buf.get n &&& 0x80 ≠ 0)
      (hint : IntegerAt 7 (buf.mem n) len con) (hread : Readable (buf.len - n) con) (hin : n + con + len ≤ buf.len)
      (hdec : hpackHuffmanDecode T (buf.slice (n + con) len) chulaBufferInit huffmanDecCtxInit = (.ok, context, out)) :
      StringAt T buf n out.bytes (con + len)

theorem StringAt.pos (h : StringAt T buf n s con) : 1 ≤ con := by
  cases h with
  | plain _ hint _ _ => have := hint.pos; omega
  | huffman _ hint _ _ _ => have := hint.pos; omega

theorem StringAt.le_len (h : StringAt T buf n s con) : n + con ≤ buf.len := by
  cases h <;> omega

/-- The decoder reads a complete integer. -/
theorem decode_of_integerAt (h : offset ≤ buf.len) (hint : IntegerAt N (buf.mem offset) num con) (hnum : num < 2 ^ 32)
    (hread : Readable (buf.len - offset) con) :
    hpackIntegerDecode N (buf.mem offset) (buf.rest offset) 0 = (.ok, num, con) := by
  rw [hpackIntegerDecode_ok_iff, Block.rest_eq h]
  exact ⟨hint, hnum, hread⟩

/-- Whatever the decoder makes of a complete integer: the integer, or an error. -/
theorem decode_or_error (hint : IntegerAt N (buf.mem offset) num con) :
    hpackIntegerDecode N (buf.mem offset) (buf.rest offset) 0 = (.ok, num, con) ∨
      ∃ v, hpackIntegerDecode N (buf.mem offset) (buf.rest offset) 0 = (.error, v, 0) := by
  by_cases hok : ∃ v c, hpackIntegerDecode N (buf.mem offset) (buf.rest offset) 0 = (.ok, v, c)
  · obtain ⟨v, c, hdec⟩ := hok
    obtain ⟨rfl, rfl⟩ := (hpackIntegerDecode_ok_iff.mp hdec).1.unique hint
    exact .inl hdec
  · exact .inr (hpackIntegerDecode_error fun v c hdec => hok ⟨v, c, hdec⟩)

/-- Half an octet is decoded the same way whatever was decoded before it. -/
theorem huffmanDecodeHalf_append (p : List UInt8) {a b : ChulaBuffer} (hab : b.bytes = p ++ a.bytes)
    (context : HuffmanContext) (c : ℕ) :
    (huffmanDecodeHalf T context c b).1 = (huffmanDecodeHalf T context c a).1 ∧
      (huffmanDecodeHalf T context c b).2.1 = (huffmanDecodeHalf T context c a).2.1 ∧
      (huffmanDecodeHalf T context c b).2.2.bytes = p ++ (huffmanDecodeHalf T context c a).2.2.bytes := by
  simp only [huffmanDecodeHalf]
  split_ifs
  · exact ⟨rfl, rfl, hab⟩
  · refine ⟨rfl, rfl, ?_⟩
    simp only [chulaBufferAddChar_bytes, hab, List.append_assoc]
  · exact ⟨rfl, rfl, hab⟩

/-- **Decoding appends.** -/
theorem hpackHuffmanDecode_append (p : List UInt8) (input : List UInt8) {a b : ChulaBuffer}
    (hab : b.bytes = p ++ a.bytes) (context : HuffmanContext) :
    (hpackHuffmanDecode T input b context).1 = (hpackHuffmanDecode T input a context).1 ∧
      (hpackHuffmanDecode T input b context).2.1 = (hpackHuffmanDecode T input a context).2.1 ∧
      (hpackHuffmanDecode T input b context).2.2.bytes = p ++ (hpackHuffmanDecode T input a context).2.2.bytes := by
  induction input generalizing a b context with
  | nil => exact ⟨rfl, rfl, hab⟩
  | cons o input ih =>
    obtain ⟨hret, hctx, hout⟩ := huffmanDecodeHalf_append (T := T) p
      (a := chulaBufferEnsure a) (b := chulaBufferEnsure b) hab context (o.toNat >>> 4)
    obtain ⟨hret2, hctx2, hout2⟩ := huffmanDecodeHalf_append (T := T) p hout
      (huffmanDecodeHalf T context (o.toNat >>> 4) (chulaBufferEnsure a)).2.1 (o.toNat &&& 0xf)
    simp only [hpackHuffmanDecode]
    rw [hret, hctx, hret2, hctx2]
    split_ifs
    · exact ⟨rfl, rfl, hout⟩
    · exact ⟨rfl, rfl, hout2⟩
    · exact ih hout2 _

/-- The octets that `parse_string` looks at are those of the block. -/
theorem take_past (h : n + len ≤ buf.len) : ((buf.octets ++ [buf.past]).drop n).take len = buf.slice n len := by
  have hlen : buf.octets.length = buf.len := rfl
  rw [Block.slice, List.drop_append_of_le_length (by omega), List.take_append_of_le_length]
  rw [List.length_drop]
  omega

theorem Block.slice_length (h : n + len ≤ buf.len) : (buf.slice n len).length = len := by
  have hlen : buf.octets.length = buf.len := rfl
  rw [Block.slice, List.length_take, List.length_drop]
  omega

/-- Up to the end of the string nothing wraps around. -/
theorem decode_length (hint : IntegerAt 7 (buf.mem n) len con) (hread : Readable (buf.len - n) con)
    (hin : n + con + len ≤ buf.len) :
    hpackIntegerDecode 7 (buf.mem n) (buf.rest n) 0 = (.ok, len, con) ∧ (n + con) % 2 ^ 32 = n + con ∧
      (n + con + len) % 2 ^ 32 = n + con + len ∧ cbMask (((n + con + len : ℕ) : ℤ) - n) (2 ^ 32) = con + len := by
  have hbuf := buf.len_succ_lt
  refine ⟨decode_of_integerAt (by omega) hint (by omega) hread, Nat.mod_eq_of_lt (by omega),
    Nat.mod_eq_of_lt (by omega), ?_⟩
  rw [cbMask_eq]
  omega

/-- **A string representation is parsed**, and appended to the string that is there. -/
theorem parseString_of_stringAt (h : StringAt T buf n s con) (string : ChulaBuffer) :
    ∃ string' huffman, parseString T buf n string = .ok (.ok, string', huffman, con) ∧
      string'.bytes = string.bytes ++ s := by
  cases h with
  | @plain len icon hbit hint hread hin =>
    obtain ⟨hdec, hn, hlen, hcon⟩ := decode_length hint hread hin
    refine ⟨_, false, ?_, chulaBufferAdd_bytes string _⟩
    simp only [parseString, hdec, hn, hlen, hcon, hbit, take_past hin, Block.slice_length hin, lt_irrefl, not_lt.mpr hin,
      ne_eq, not_true_eq_false, decide_false, if_false, Bool.false_eq_true]
  | @huffman len icon context out hbit hint hread hin hdecode =>
    obtain ⟨hdec, hn, hlen, hcon⟩ := decode_length hint hread hin
    obtain ⟨hret, -, hout⟩ := hpackHuffmanDecode_append (T := T) string.bytes (buf.slice (n + icon) len)
      (a := chulaBufferInit) (b := string) (by simp) huffmanDecCtxInit
    rw [hdecode] at hret hout
    refine ⟨_, true, ?_, hout⟩
    simp only [parseString, hdec, hn, hlen, hcon, hbit, take_past hin, Block.slice_length hin, lt_irrefl, not_lt.mpr hin,
      ne_eq, not_true_eq_false, not_false_eq_true, decide_true, if_true, if_false, hret]

/-! ### Octets in a block -/

section Octets

variable {pre e post : List UInt8}

/-- The octets behind `pre`. -/
theorem Block.mem_of_octets (h : buf.octets = pre ++ (e ++ post)) {j : ℕ} (hj : j < e.length) :
    some (buf.mem pre.length j) = e[j]? := by
  rw [Block.mem, Block.get, h, List.getD, List.getElem?_append_right (by omega), Nat.add_sub_cancel_left,
    List.getElem?_append_left hj, List.getElem?_eq_getElem hj]
  rfl

theorem Block.slice_of_octets (h : buf.octets = pre ++ (e ++ post)) : buf.slice pre.length e.length = e := by
  rw [Block.slice, h, List.drop_left, List.take_left]

theorem Block.len_of_octets (h : buf.octets = pre ++ (e ++ post)) :
    buf.len = pre.length + (e.length + post.length) := by
  rw [Block.len, h, List.length_append, List.length_append]

end Octets

end LibHpack
