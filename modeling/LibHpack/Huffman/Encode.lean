import LibHpack.Huffman.Decode

/-!
# LibHpack.Huffman.Encode — the encoder, and the round trip of a string

`HuffmanOut.bits` is what has been written: the complete octets, and the part of the next one that is filled.  A symbol
appends the bits of its codeword (`encodeSymbol_bits`), and the end fills the last octet with the first bits of the end
of the stream.  These are no codeword, so the decoder reads the symbols back (`huffman_decode_octets`).
-/

namespace LibHpack

theorem combination_eq : ∀ x < 16, combination x = natBits 4 x := by decide

/-- The two halves of an octet. -/
theorem octetBits_eq (b : UInt8) : octetBits b = natBits 8 b.toNat := by
  have hb := b.toNat_lt
  have hlow : natBits 4 (b.toNat &&& 0xf) = natBits 4 b.toNat := by
    apply natBits_congr
    intro j hj
    rw [Nat.testBit_and, show (0xf : ℕ) = 2 ^ 4 - 1 from rfl, Nat.testBit_two_pow_sub_one, decide_eq_true hj,
      Bool.and_true]
  rw [octetBits, combination_eq _ (by rw [Nat.shiftRight_eq_div_pow]; omega),
    combination_eq _ (Nat.lt_succ_of_le Nat.and_le_right), hlow, ← natBits_add 4 4]

/-- A bit of an octet that something is written to. -/
theorem testBit_or (a : UInt8) (v j : ℕ) :
    (a ||| UInt8.ofNat v).toNat.testBit j = (a.toNat.testBit j || (decide (j < 8) && v.testBit j)) := by
  rw [UInt8.toNat_or, Nat.testBit_or, UInt8.toNat_ofNat', Nat.testBit_mod_two_pow]

namespace HuffmanOut

/-- The bits written. -/
def bits (o : HuffmanOut) : List Bool :=
  o.octets.flatMap octetBits ++ natBits (8 - o.remainingBits) (o.cur.toNat >>> o.remainingBits)

/-- The rest of the octet is zero. -/
structure Ok (o : HuffmanOut) : Prop where
  pos : 1 ≤ o.remainingBits
  le : o.remainingBits ≤ 8
  zero : ∀ j < o.remainingBits, o.cur.toNat.testBit j = false

theorem ok_empty (octets : List UInt8) : Ok ⟨octets, 0, 8⟩ := ⟨Nat.succ_pos 7, le_rfl, fun j _ => Nat.zero_testBit j⟩

variable {o : HuffmanOut} {nbits code : ℕ}

/-- **Part of an octet**: the bits of the code are put in front of the rest. -/
theorem bits_part (h : o.Ok) (hlt : nbits < o.remainingBits) (hcode : code < 2 ^ nbits ∨ o.remainingBits = 8) :
    Ok { o with
        cur := o.cur ||| UInt8.ofNat (code <<< (o.remainingBits - nbits))
        remainingBits := o.remainingBits - nbits } ∧
      bits { o with
        cur := o.cur ||| UInt8.ofNat (code <<< (o.remainingBits - nbits))
        remainingBits := o.remainingBits - nbits } = o.bits ++ natBits nbits code := by
  have hle := h.le
  refine ⟨⟨by dsimp only; omega, by dsimp only; omega, fun j hj => ?_⟩, ?_⟩
  · dsimp only at hj ⊢
    rw [testBit_or, h.zero j (by omega), Nat.testBit_shiftLeft, decide_eq_false (show ¬ o.remainingBits - nbits ≤ j by omega)]
    simp
  · have hlow : natBits nbits ((o.cur ||| UInt8.ofNat (code <<< (o.remainingBits - nbits))).toNat >>>
        (o.remainingBits - nbits)) = natBits nbits code := natBits_congr fun j hj => by
      rw [Nat.testBit_shiftRight, testBit_or, h.zero _ (by omega), Nat.testBit_shiftLeft,
        decide_eq_true (show o.remainingBits - nbits + j < 8 by omega),
        decide_eq_true (show o.remainingBits - nbits ≤ o.remainingBits - nbits + j by omega), Nat.add_sub_cancel_left]
      simp
    have hhigh : natBits (8 - o.remainingBits) ((o.cur ||| UInt8.ofNat (code <<< (o.remainingBits - nbits))).toNat >>>
        (o.remainingBits - nbits) >>> nbits) = natBits (8 - o.remainingBits) (o.cur.toNat >>> o.remainingBits) :=
      natBits_congr fun j hj => by
        have hsmall : code.testBit (nbits + j) = false := by
          rcases hcode with hcode | h8
          · exact Nat.testBit_lt_two_pow (hcode.trans_le (Nat.pow_le_pow_right (by decide) (by omega)))
          · omega
        rw [Nat.testBit_shiftRight, Nat.testBit_shiftRight, Nat.testBit_shiftRight, testBit_or, Nat.testBit_shiftLeft,
          show o.remainingBits - nbits + (nbits + j) = o.remainingBits + j by omega,
          show o.remainingBits + j - (o.remainingBits - nbits) = nbits + j by omega, hsmall]
        simp
    rw [bits, bits, show 8 - (o.remainingBits - nbits) = 8 - o.remainingBits + nbits by omega, natBits_add, hhigh, hlow,
      List.append_assoc]

/-- **A whole octet.** -/
theorem bits_octet (h : o.Ok) (hle : o.remainingBits ≤ nbits) (hcode : code < 2 ^ nbits ∨ o.remainingBits = 8) :
    bits ⟨o.octets ++ [o.cur ||| UInt8.ofNat (code >>> (nbits - o.remainingBits))], 0, 8⟩ =
      o.bits ++ natBits o.remainingBits (code >>> (nbits - o.remainingBits)) := by
  have h8 := h.le
  have hlow : natBits o.remainingBits (o.cur ||| UInt8.ofNat (code >>> (nbits - o.remainingBits))).toNat =
      natBits o.remainingBits (code >>> (nbits - o.remainingBits)) := natBits_congr fun j hj => by
    rw [testBit_or, h.zero j hj, decide_eq_true (show j < 8 by omega)]
    simp
  have hhigh : natBits (8 - o.remainingBits)
      ((o.cur ||| UInt8.ofNat (code >>> (nbits - o.remainingBits))).toNat >>> o.remainingBits) =
        natBits (8 - o.remainingBits) (o.cur.toNat >>> o.remainingBits) := natBits_congr fun j hj => by
    have hsmall : code.testBit (nbits - o.remainingBits + (o.remainingBits + j)) = false := by
      rcases hcode with hcode | h8
      · exact Nat.testBit_lt_two_pow (hcode.trans_le (Nat.pow_le_pow_right (by decide) (by omega)))
      · omega
    rw [Nat.testBit_shiftRight, Nat.testBit_shiftRight, testBit_or, Nat.testBit_shiftRight, hsmall]
    simp
  have hoctet : natBits 8 (o.cur ||| UInt8.ofNat (code >>> (nbits - o.remainingBits))).toNat =
      natBits (8 - o.remainingBits) (o.cur.toNat >>> o.remainingBits) ++
        natBits o.remainingBits (code >>> (nbits - o.remainingBits)) := by
    rw [← hlow, ← hhigh, ← natBits_add, Nat.sub_add_cancel h8]
  rw [bits, bits, List.flatMap_append, List.flatMap_singleton, octetBits_eq, hoctet]
  simp [natBits]

end HuffmanOut

/-- **The loop of `encode_symbol`** appends the low bits of the code. -/
theorem encodeSymbolLoop_bits {o : HuffmanOut} {nbits code fuel : ℕ} (h : o.Ok) (hfuel : nbits < fuel)
    (hcode : code < 2 ^ nbits ∨ o.remainingBits = 8) :
    (encodeSymbolLoop code fuel nbits o).Ok ∧
      (encodeSymbolLoop code fuel nbits o).bits = o.bits ++ natBits nbits code := by
  induction fuel generalizing o nbits with
  | zero => omega
  | succ fuel ih =>
    rw [encodeSymbolLoop]
    by_cases hlt : nbits < o.remainingBits
    · rw [if_pos hlt]
      exact HuffmanOut.bits_part h hlt hcode
    · rw [if_neg hlt]
      have hpos := h.pos
      have hoctet := HuffmanOut.bits_octet h (not_lt.mp hlt) hcode
      have hsplit : natBits nbits code = natBits o.remainingBits (code >>> (nbits - o.remainingBits)) ++
          natBits (nbits - o.remainingBits) code := by
        rw [← natBits_add]
        congr 1
        omega
      dsimp only
      by_cases h0 : nbits - o.remainingBits = 0
      · rw [if_pos h0]
        refine ⟨HuffmanOut.ok_empty _, ?_⟩
        rw [hoctet, hsplit, h0]
        simp [natBits]
      · rw [if_neg h0]
        obtain ⟨hok, hbits⟩ := ih (o := ⟨o.octets ++ [o.cur ||| UInt8.ofNat (code >>> (nbits - o.remainingBits))], 0, 8⟩)
          (HuffmanOut.ok_empty _) (show nbits - o.remainingBits < fuel by omega) (.inr rfl)
        refine ⟨hok, ?_⟩
        rw [hbits, hoctet, hsplit, List.append_assoc]

/-! ### Strings -/

/-- The symbol of an octet. -/
def octetSymbol (b : UInt8) : Fin 257 := ⟨b.toNat, b.toNat_lt.trans (by decide)⟩

theorem symbolOctet_octetSymbol (b : UInt8) : symbolOctet (octetSymbol b) = b := UInt8.ofNat_toNat

theorem octetSymbol_ne_eos (b : UInt8) : octetSymbol b ≠ eos := fun h => by
  have hb := b.toNat_lt
  have := congrArg Fin.val h
  simp only [octetSymbol, eos] at this
  omega

theorem eos_not_mem_octetSymbol (s : List UInt8) : eos ∉ s.map octetSymbol := by
  intro hmem
  obtain ⟨b, -, hb⟩ := List.mem_map.mp hmem
  exact octetSymbol_ne_eos b hb

/-- The octets that `hpack_huffman_encode` appends. -/
def huffmanOctets (T : HuffmanTables) (s : List UInt8) : List UInt8 := (hpackHuffmanEncode T s chulaBufferInit).2.bytes

theorem hpackHuffmanEncode_eq (T : HuffmanTables) (s : List UInt8) (out : ChulaBuffer) :
    (hpackHuffmanEncode T s out).1 = .ok ∧ (hpackHuffmanEncode T s out).2.bytes = out.bytes ++ huffmanOctets T s := by
  simp [huffmanOctets, hpackHuffmanEncode]

namespace Generated

variable {c : HuffmanSource} {T : HuffmanTables} {padding : List ℕ}

/-- **A symbol** appends its codeword. -/
theorem encodeSymbol_bits (h : Generated c T padding) {o : HuffmanOut} (ho : o.Ok) (a : Fin 257) :
    (encodeSymbol (T.hpackHuffman a) o).Ok ∧ (encodeSymbol (T.hpackHuffman a) o).bits = o.bits ++ c.bits a := by
  rw [encodeSymbol, h.code]
  have hloop := encodeSymbolLoop_bits ho (Nat.lt_succ_self (c.bits a).length) (.inl (bitsToNat_lt (c.bits a)))
  rwa [natBits_bitsToNat] at hloop

theorem foldl_bits (h : Generated c T padding) (s : List UInt8) {o : HuffmanOut} (ho : o.Ok) :
    (s.foldl (fun o b => encodeSymbol (T.hpackHuffman b.toNat) o) o).Ok ∧
      (s.foldl (fun o b => encodeSymbol (T.hpackHuffman b.toNat) o) o).bits =
        o.bits ++ (s.map octetSymbol).flatMap c.bits := by
  induction s generalizing o with
  | nil => exact ⟨ho, by simp⟩
  | cons b s ih =>
    obtain ⟨hok, hbits⟩ := h.encodeSymbol_bits ho (octetSymbol b)
    obtain ⟨hok', hbits'⟩ := ih hok
    refine ⟨hok', hbits'.trans ?_⟩
    rw [hbits, List.map_cons, List.flatMap_cons, List.append_assoc]

/-- **What is encoded**: the codewords, and less than an octet of the end of the stream. -/
theorem huffmanOctets_bits (h : Generated c T padding) (heos : 7 < (c.bits eos).length) (s : List UInt8) :
    ∃ k < 8, (huffmanOctets T s).flatMap octetBits = (s.map octetSymbol).flatMap c.bits ++ (c.bits eos).take k := by
  obtain ⟨hok, hbits⟩ := h.foldl_bits s (HuffmanOut.ok_empty [])
  simp only [huffmanOctets, hpackHuffmanEncode]
  generalize s.foldl (fun o b => encodeSymbol (T.hpackHuffman b.toNat) o) ⟨[], 0, 8⟩ = o at hok hbits
  have hempty : HuffmanOut.bits ⟨[], 0, 8⟩ = [] := rfl
  rw [hempty, List.nil_append] at hbits
  have hle := hok.le
  have hpos := hok.pos
  have heoscode : T.hpackHuffman 256 = ⟨(c.bits eos).length, bitsToNat (c.bits eos)⟩ := h.code eos
  by_cases hpart : o.remainingBits < 8
  · -- the last octet is filled
    refine ⟨o.remainingBits, hpart, ?_⟩
    have hoctet := HuffmanOut.bits_octet hok (show o.remainingBits ≤ (c.bits eos).length by omega)
      (.inl (bitsToNat_lt (c.bits eos)))
    rw [← natBits_take (by omega), natBits_bitsToNat, hbits] at hoctet
    rw [if_pos hpart, heoscode, ← hoctet]
    simp [HuffmanOut.bits, natBits]
  · refine ⟨0, by decide, ?_⟩
    have h8 : o.remainingBits = 8 := by omega
    rw [if_neg hpart, ← hbits, HuffmanOut.bits, h8]
    simp [natBits]

/-- The walk of the code tree along what is encoded. -/
theorem walk_huffmanOctets (h : Generated c T padding) (heos : 7 < (c.bits eos).length) (s : List UInt8) :
    ∃ k < 8, c.walk [] ((huffmanOctets T s).flatMap octetBits) = (s.map octetSymbol, (c.bits eos).take k) := by
  obtain ⟨k, hk, hbits⟩ := h.huffmanOctets_bits heos s
  have hpad : c.walk [] ((c.bits eos).take k) = ([], (c.bits eos).take k) := by
    refine PrefixCode.walk_inner ⟨eos, ?_, fun heq => ?_⟩
    · rw [List.nil_append]
      exact List.take_prefix _ _
    · have := congrArg List.length heq
      rw [List.nil_append, List.length_take] at this
      omega
  exact ⟨k, hk, by rw [hbits, PrefixCode.walk_flatMap h.ne_nil, hpad, List.append_nil]⟩

/-- **The decoder undoes the encoder.** -/
theorem hpackHuffmanDecode_huffmanOctets (h : Generated c T padding) (heos : 7 < (c.bits eos).length) (s : List UInt8) :
    ∃ context out, hpackHuffmanDecode T (huffmanOctets T s) chulaBufferInit huffmanDecCtxInit = (.ok, context, out) ∧
      out.bytes = s := by
  obtain ⟨k, -, hwalk⟩ := h.walk_huffmanOctets heos s
  have hnone : eos ∉ (c.walk [] ((huffmanOctets T s).flatMap octetBits)).1 := by
    rw [hwalk]
    exact eos_not_mem_octetSymbol s
  obtain ⟨accept, out, heq, hout⟩ := h.hpackHuffmanDecode_eq (huffmanOctets T s) (PrefixCode.inner_nil h.ne_nil) hnone
    true chulaBufferInit
  rw [BTree.find_nil, nodeId_decodeTree h.ne_nil] at heq
  refine ⟨_, out, heq, ?_⟩
  rw [hout, hwalk]
  simp [symbolOctet_octetSymbol, Function.comp_def]

end Generated

/-! ### A code -/

/-- An octet is its own codeword, except that the last one and the end of the stream share eight bits and have a ninth. -/
def byteBits (a : Fin 257) : List Bool := natBits 8 (min a 255) ++ if a.val < 255 then [] else [decide (a = eos)]

theorem bitsToNat_natBits_octet (n : ℕ) (hn : n < 256) : bitsToNat (natBits 8 n) = n :=
  (bitsToNat_natBits 8 n).trans (Nat.mod_eq_of_lt hn)

/-- **There are such codes.** -/
def byteCode : HuffmanSource where
  bits := byteBits
  prefixFree := by
    intro a b h
    have hoctet : natBits 8 (min a 255) = natBits 8 (min b 255) :=
      (List.prefix_of_prefix_length_le ((List.prefix_append _ _).trans h) (List.prefix_append _ _) (by simp)).eq_of_length
        (by simp)
    have hmin : min (a : ℕ) 255 = min (b : ℕ) 255 := by
      have := congrArg bitsToNat hoctet
      rwa [bitsToNat_natBits_octet _ (by omega), bitsToNat_natBits_octet _ (by omega)] at this
    by_cases ha : (a : ℕ) < 255
    · exact Fin.ext (by omega)
    · -- the last bits are the same
      rw [byteBits, byteBits, if_neg ha, if_neg (by omega), hmin, List.prefix_append_right_inj] at h
      have hbit := List.cons.inj (h.eq_of_length rfl)
      have heos : a = eos ↔ b = eos := decide_eq_decide.mp hbit.1
      rw [Fin.ext_iff, Fin.ext_iff] at heos
      change ((a : ℕ) = 256 ↔ (b : ℕ) = 256) at heos
      have := a.isLt
      have := b.isLt
      exact Fin.ext (by omega)
  complete := by
    intro w
    -- nine bits that start as `w` does
    obtain ⟨l, b, p, hlen, hw⟩ : ∃ l b p, l.length = 8 ∧ w <+: l ++ b :: p := by
      have hlong : 8 < (w ++ List.replicate 9 false).length := by simp
      refine ⟨(w ++ List.replicate 9 false).take 8, (w ++ List.replicate 9 false)[8],
        (w ++ List.replicate 9 false).drop 9, by simp, ?_⟩
      rw [← List.drop_eq_getElem_cons hlong, List.take_append_drop]
      exact List.prefix_append _ _
    have hlt := bitsToNat_lt l
    have hbits := natBits_bitsToNat l
    rw [hlen] at hlt hbits
    by_cases h255 : bitsToNat l < 255
    · refine ⟨⟨bitsToNat l, by omega⟩, List.prefix_or_prefix_of_prefix hw ?_⟩
      rw [byteBits, if_pos h255, show min (bitsToNat l) 255 = bitsToNat l by omega, hbits, List.append_nil]
      exact List.prefix_append _ _
    · refine ⟨if b then eos else 255, List.prefix_or_prefix_of_prefix hw ⟨p, ?_⟩⟩
      rw [show bitsToNat l = 255 by omega] at hbits
      cases b <;> simp [byteBits, hbits, eos]

theorem byteCode_length (a : Fin 257) : (byteCode.bits a).length = if a.val < 255 then 8 else 9 := by
  change (natBits 8 (min a 255) ++ if a.val < 255 then [] else [decide (a = eos)]).length = _
  rw [List.length_append, natBits_length]
  split_ifs <;> rfl

theorem byteCode_bounds (a : Fin 257) : 8 ≤ (byteCode.bits a).length ∧ (byteCode.bits a).length ≤ 9 := by
  rw [byteCode_length]
  split_ifs <;> omega

end LibHpack
