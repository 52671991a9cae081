import LibHpack.Buffer.Ops
import LibHpack.Huffman.Model

/-!
# LibHpack.Huffman.Bounds — the octets that hpack_huffman_encode touches

The encoder again, on the memory of its output.  Every access is checked against `out->size` at that moment.  What is
touched depends on the lengths of the codes only: `codeBits` counts the bits of the first symbols, and `encode_room` is
how many octets there are behind the initial string when a symbol is about to be encoded.
-/

namespace LibHpack

open Memory Run

namespace RawBuffer

/-- `out->buf[i] |= x`. -/
def orOctet (out : RawBuffer) (i : ℕ) (x : UInt8) : Except Escape RawBuffer :=
  if i < out.size then .ok { out with buf := some (out.cells.modify i (Option.map (· ||| x))) }
  else .error ⟨i + 1, out.size⟩

/-- `out->buf[i] = x`. -/
def setOctet (out : RawBuffer) (i : ℕ) (x : UInt8) : Except Escape RawBuffer :=
  if i < out.size then .ok { out with buf := some (out.cells.set i (some x)) }
  else .error ⟨i + 1, out.size⟩

/-- The loop of `encode_symbol`; what it returns is `remaining_bits`. -/
def encodeSymbolLoop (code : ℕ) : ℕ → ℕ → ℕ → RawBuffer → Except Escape (ℕ × RawBuffer)
  | 0, _, remainingBits, out => .ok (remainingBits, out)
  | fuel + 1, nbits, remainingBits, out =>
    if nbits < remainingBits then do
      let out ← out.orOctet out.len (UInt8.ofNat (code <<< (remainingBits - nbits)))
      return (remainingBits - nbits, out)
    else do
      let out ← out.orOctet out.len (UInt8.ofNat (code >>> (nbits - remainingBits)))
      let out := { out with len := toUint32 (out.len + 1) }
      if nbits - remainingBits = 0 then return (8, out)
      else do
        let out ← out.setOctet out.len 0
        encodeSymbolLoop code fuel (nbits - remainingBits) 8 out

/-- `encode_symbol`. -/
def encodeSymbol (code : HuffmanCode) (remainingBits : ℕ) (out : RawBuffer) : Except Escape (ℕ × RawBuffer) :=
  encodeSymbolLoop code.code (code.bits + 1) code.bits remainingBits out

/-- `if (remaining_bits == 8)`: the first octet that a symbol is written to is cleared. -/
def startOctet (out : RawBuffer) (remainingBits : ℕ) : Except Escape RawBuffer :=
  if remainingBits = 8 then out.setOctet out.len 0 else .ok out

/-- `if (remaining_bits < 8)`: the last octet is filled up with the end of the stream. -/
def endOctet (out : RawBuffer) (eos : HuffmanCode) (remainingBits : ℕ) : Except Escape RawBuffer :=
  if remainingBits < 8 then do
    let out ← out.orOctet out.len (UInt8.ofNat (eos.code >>> (eos.bits - remainingBits)))
    return { out with len := toUint32 (out.len + 1) }
  else .ok out

/-- The loop of `hpack_huffman_encode`, for the octets of `in` that are left. -/
def huffmanEncodeLoop (T : HuffmanTables) (inLen : ℕ) : List UInt8 → ℕ → RawBuffer → Except Escape (ℕ × RawBuffer)
  | [], remainingBits, out => .ok (remainingBits, out)
  | b :: input, remainingBits, out => do
    let out := if toUint32 (out.size - out.len) < 8 then out.chulaBufferEnsureAddlen inLen else out
    let out ← out.startOctet remainingBits
    let (remainingBits, out) ← encodeSymbol (T.hpackHuffman b.toNat) remainingBits out
    huffmanEncodeLoop T inLen input remainingBits out

/-- `hpack_huffman_encode`. -/
def hpackHuffmanEncode (T : HuffmanTables) (input : List UInt8) (out : RawBuffer) : Except Escape RawBuffer := do
  let (remainingBits, out) ← huffmanEncodeLoop T input.length input 8 out
  let out ← out.endOctet (T.hpackHuffman 256) remainingBits
  let out := out.chulaBufferEnsureSize (toUint32 (out.len + 1))
  out.setOctet out.len 0

/-! ### One symbol -/

section Symbol

variable {out : RawBuffer} {i : ℕ}

theorem orOctet_ok (x : UInt8) (h : i < out.size) :
    ∃ out', out.orOctet i x = .ok out' ∧ out'.len = out.len ∧ out'.size = out.size :=
  ⟨_, if_pos h, rfl, rfl⟩

theorem orOctet_escape (x : UInt8) (h : ¬ i < out.size) : ∃ e, out.orOctet i x = .error e := ⟨_, if_neg h⟩

theorem setOctet_ok (x : UInt8) (h : i < out.size) :
    ∃ out', out.setOctet i x = .ok out' ∧ out'.len = out.len ∧ out'.size = out.size :=
  ⟨_, if_pos h, rfl, rfl⟩

theorem setOctet_escape (x : UInt8) (h : ¬ i < out.size) : ∃ e, out.setOctet i x = .error e := ⟨_, if_neg h⟩

theorem startOctet_ok (remainingBits : ℕ) (hfit : out.len < out.size) :
    ∃ out1, out.startOctet remainingBits = .ok out1 ∧ out1.len = out.len ∧ out1.size = out.size := by
  rw [startOctet]
  split_ifs
  · exact setOctet_ok 0 hfit
  · exact ⟨out, rfl, rfl, rfl⟩

/-- A symbol touches all octets that its bits reach, and no others. -/
theorem encodeSymbolLoop_ok (code : ℕ) : ∀ (fuel nbits remainingBits : ℕ) (out : RawBuffer), nbits < fuel → 1 ≤ nbits →
    1 ≤ remainingBits → remainingBits ≤ 8 → out.size < 2 ^ 32 →
    out.len + (8 - remainingBits + nbits + 7) / 8 ≤ out.size →
      ∃ out', encodeSymbolLoop code fuel nbits remainingBits out = .ok (8 - (8 - remainingBits + nbits) % 8, out') ∧
        out'.len = out.len + (8 - remainingBits + nbits) / 8 ∧ out'.size = out.size
  | 0, _, _, _, hfuel, _, _, _, _, _ => absurd hfuel (Nat.not_lt_zero _)
  | fuel + 1, nbits, remainingBits, out, hfuel, hn, hr, h8, hsize, hfit => by
    have hhere : out.len < out.size := by omega
    rw [encodeSymbolLoop]
    by_cases hlt : nbits < remainingBits
    · obtain ⟨out1, h1, hlen1, hsize1⟩ := orOctet_ok (UInt8.ofNat (code <<< (remainingBits - nbits))) hhere
      rw [if_pos hlt, ok_then h1]
      refine ⟨out1, ?_, by omega, hsize1⟩
      rw [show 8 - (8 - remainingBits + nbits) % 8 = remainingBits - nbits by omega]
      rfl
    obtain ⟨out1, h1, hlen1, hsize1⟩ := orOctet_ok (UInt8.ofNat (code >>> (nbits - remainingBits))) hhere
    have hnext : toUint32 (out1.len + 1) = out.len + 1 := by
      rw [toUint32]
      omega
    rw [if_neg hlt, ok_then h1]
    dsimp only
    rw [hnext]
    by_cases hzero : nbits - remainingBits = 0
    · rw [if_pos hzero]
      refine ⟨{ out1 with len := out.len + 1 }, ?_, ?_, hsize1⟩
      · rw [show 8 - (8 - remainingBits + nbits) % 8 = 8 by omega]
        rfl
      · dsimp only
        omega
    · have hthere : out.len + 1 < ({ out1 with len := out.len + 1 } : RawBuffer).size := by
        dsimp only
        omega
      obtain ⟨out2, h2, hlen2, hsize2⟩ := setOctet_ok 0 hthere
      dsimp only at hlen2 hsize2
      obtain ⟨out3, h3, hlen3, hsize3⟩ := encodeSymbolLoop_ok code fuel (nbits - remainingBits) 8 out2 (by omega)
        (by omega) (by decide) le_rfl (by omega) (by omega)
      refine ⟨out3, ?_, by omega, by omega⟩
      rw [if_neg hzero, ok_then h2, h3]
      congr 2
      omega

theorem encodeSymbolLoop_escape (code : ℕ) : ∀ (fuel nbits remainingBits : ℕ) (out : RawBuffer), nbits < fuel →
    1 ≤ nbits → 1 ≤ remainingBits → remainingBits ≤ 8 → out.size < 2 ^ 32 →
    ¬ out.len + (8 - remainingBits + nbits + 7) / 8 ≤ out.size →
      ∃ e, encodeSymbolLoop code fuel nbits remainingBits out = .error e
  | 0, _, _, _, hfuel, _, _, _, _, _ => absurd hfuel (Nat.not_lt_zero _)
  | fuel + 1, nbits, remainingBits, out, hfuel, hn, hr, h8, hsize, hfit => by
    rw [encodeSymbolLoop]
    by_cases hlt : nbits < remainingBits
    · obtain ⟨e, he⟩ := orOctet_escape (UInt8.ofNat (code <<< (remainingBits - nbits)))
        (show ¬ out.len < out.size by omega)
      rw [if_pos hlt, he]
      exact ⟨e, rfl⟩
    rw [if_neg hlt]
    by_cases hhere : out.len < out.size
    swap
    · obtain ⟨e, he⟩ := orOctet_escape (UInt8.ofNat (code >>> (nbits - remainingBits))) hhere
      rw [he]
      exact ⟨e, rfl⟩
    obtain ⟨out1, h1, hlen1, hsize1⟩ := orOctet_ok (UInt8.ofNat (code >>> (nbits - remainingBits))) hhere
    have hnext : toUint32 (out1.len + 1) = out.len + 1 := by
      rw [toUint32]
      omega
    rw [ok_then h1]
    dsimp only
    rw [hnext, if_neg (by omega)]
    by_cases hthere : out.len + 1 < ({ out1 with len := out.len + 1 } : RawBuffer).size
    · obtain ⟨out2, h2, hlen2, hsize2⟩ := setOctet_ok 0 hthere
      dsimp only at hlen2 hsize2
      rw [ok_then h2]
      exact encodeSymbolLoop_escape code fuel (nbits - remainingBits) 8 out2 (by omega) (by omega) (by decide) le_rfl
        (by omega) (by omega)
    · obtain ⟨e, he⟩ := setOctet_escape 0 hthere
      rw [he]
      exact ⟨e, rfl⟩

end Symbol

end RawBuffer

/-! ### The whole string -/

section Encode

variable (T : HuffmanTables) (input : List UInt8)

/-- How many bits the codes of the first `n` octets have. -/
def codeBits (n : ℕ) : ℕ := ((input.take n).map fun b => (T.hpackHuffman b.toNat).bits).sum

/-- How many octets there are behind the initial string before octet `n` is encoded, where there are `free` at the
beginning: when fewer than 8 are left, they are topped up to the length of the input and one more. -/
def encodeRoom (free : ℕ) : ℕ → ℕ
  | 0 => free
  | n + 1 =>
    if encodeRoom free n < codeBits T input n / 8 + 8 then
      max (encodeRoom free n) (codeBits T input n / 8 + input.length + 1)
    else encodeRoom free n

variable {T input} {free len n remainingBits : ℕ} {out : RawBuffer}

@[simp] theorem codeBits_zero : codeBits T input 0 = 0 := rfl

theorem codeBits_succ (hn : n < input.length) :
    codeBits T input (n + 1) = codeBits T input n + (T.hpackHuffman (input[n]).toNat).bits := by
  rw [codeBits, codeBits, List.take_succ_eq_append_getElem hn, List.map_append, List.sum_append]
  rfl

variable (T input) in
theorem codeBits_le_succ (n : ℕ) : codeBits T input n ≤ codeBits T input (n + 1) := by
  by_cases hn : n < input.length
  · rw [codeBits_succ hn]
    exact Nat.le_add_right _ _
  · rw [codeBits, codeBits, List.take_of_length_le (by omega), List.take_of_length_le (by omega)]

variable (T input free) in
theorem free_le_encodeRoom (n : ℕ) : free ≤ encodeRoom T input free n := by
  induction n with
  | zero => exact le_rfl
  | succ n ih =>
    rw [encodeRoom]
    split_ifs
    · exact ih.trans (le_max_left _ _)
    · exact ih

variable (T input free) in
/-- The room is what was free, or the last top-up. -/
theorem encodeRoom_le (n : ℕ) :
    encodeRoom T input free n ≤ max free (codeBits T input n / 8 + input.length + 1) := by
  induction n with
  | zero => exact le_max_left _ _
  | succ n ih =>
    have hle : codeBits T input n / 8 ≤ codeBits T input (n + 1) / 8 :=
      Nat.div_le_div_right (codeBits_le_succ T input n)
    rw [encodeRoom]
    split_ifs <;> omega

/-- The octets that the next symbol reaches are there, when what was free and a top-up before it are enough. -/
theorem le_encodeRoom_succ {k : ℕ} (hk : k ≤ codeBits T input n / 8 + 5) :
    k ≤ encodeRoom T input free (n + 1) ↔ k ≤ max free (codeBits T input n / 8 + input.length + 1) := by
  have hfree := free_le_encodeRoom T input free n
  have hle := encodeRoom_le T input free n
  rw [encodeRoom]
  split_ifs <;> omega

/-- Octet `n` is encoded in bounds: its bits reach no further than what was free or the input length allows, and a top-up
before it does not ask for 2^32 octets. -/
def SymbolFits (T : HuffmanTables) (input : List UInt8) (len free n : ℕ) : Prop :=
  (codeBits T input (n + 1) + 7) / 8 ≤ max free (codeBits T input n / 8 + input.length + 1) ∧
    (encodeRoom T input free n < codeBits T input n / 8 + 8 → len + codeBits T input n / 8 + input.length + 1 < 2 ^ 32)

instance (len free n : ℕ) : Decidable (SymbolFits T input len free n) :=
  inferInstanceAs (Decidable (_ ∧ (_ → _)))

/-- Where the loop is before octet `n`. -/
structure Encoding (T : HuffmanTables) (input : List UInt8) (len free n remainingBits : ℕ) (out : RawBuffer) : Prop where
  bits : remainingBits = 8 - codeBits T input n % 8
  len_eq : out.len = len + codeBits T input n / 8
  size_eq : out.size = len + encodeRoom T input free n
  reached : (codeBits T input n + 7) / 8 ≤ encodeRoom T input free n
  size_lt : out.size < 2 ^ 32

/-- The memory management at the head of the loop, when no size wraps. -/
theorem Encoding.grow (h : Encoding T input len free n remainingBits out) (hin : input.length < 2 ^ 32)
    (hwrap : encodeRoom T input free n < codeBits T input n / 8 + 8 →
      len + codeBits T input n / 8 + input.length + 1 < 2 ^ 32) :
    ∀ out1, (if toUint32 (out.size - out.len) < 8 then out.chulaBufferEnsureAddlen input.length else out) = out1 →
      out1.len = out.len ∧ out1.size = len + encodeRoom T input free (n + 1) ∧ out1.size < 2 ^ 32 := by
  rintro out1 rfl
  obtain ⟨-, hlen, hsize, hreached, hlt⟩ := h
  have hfree : toUint32 (out.size - out.len) = out.size - out.len := by
    rw [toUint32]
    omega
  rw [hfree, encodeRoom]
  by_cases hlow : encodeRoom T input free n < codeBits T input n / 8 + 8
  · have hlt1 := hwrap hlow
    have hask : toSizeT (out.len + input.length + 1) = out.len + input.length + 1 := by
      rw [toSizeT]
      omega
    have hhere : toSizeT (out.len + input.length) = out.len + input.length := by
      rw [toSizeT]
      omega
    rw [if_pos (by omega), if_pos hlow, RawBuffer.chulaBufferEnsureAddlen, hask, hhere]
    split_ifs with hfit
    · exact ⟨rfl, by omega, hlt⟩
    · rw [RawBuffer.chulaBufferEnsureSize, if_neg (by omega), RawBuffer.realloc, toUint32_cast (by omega)]
      exact ⟨rfl, by dsimp only; omega, by dsimp only; omega⟩
  · rw [if_neg (by omega), if_neg hlow]
    exact ⟨rfl, hsize, hlt⟩

/-- When the size wraps, it is not even what has been written. -/
theorem Encoding.grow_wrap (h : Encoding T input len free n remainingBits out) (hin : input.length < 2 ^ 32)
    (hlow : encodeRoom T input free n < codeBits T input n / 8 + 8)
    (hwrap : ¬ len + codeBits T input n / 8 + input.length + 1 < 2 ^ 32) :
    ∀ out1, (if toUint32 (out.size - out.len) < 8 then out.chulaBufferEnsureAddlen input.length else out) = out1 →
      out1.len = out.len ∧ out1.size ≤ out.len := by
  rintro out1 rfl
  obtain ⟨-, hlen, hsize, hreached, hlt⟩ := h
  have hfree : toUint32 (out.size - out.len) = out.size - out.len := by
    rw [toUint32]
    omega
  have hask : toSizeT (out.len + input.length + 1) = out.len + input.length + 1 := by
    rw [toSizeT]
    omega
  have hhere : toSizeT (out.len + input.length) = out.len + input.length := by
    rw [toSizeT]
    omega
  have hnew : toUint32 ((out.len + input.length + 1 : ℕ) : ℤ) = out.len + input.length + 1 - 2 ^ 32 := by
    rw [toUint32]
    omega
  rw [hfree, if_pos (by omega), RawBuffer.chulaBufferEnsureAddlen, hask, hhere, if_neg (by omega),
    RawBuffer.chulaBufferEnsureSize, if_neg (by omega), RawBuffer.realloc, hnew]
  exact ⟨rfl, by dsimp only; omega⟩

/-- **One symbol, in bounds.** -/
theorem Encoding.symbol_ok (h : Encoding T input len free n remainingBits out) (hin : input.length < 2 ^ 32)
    (hn : n < input.length) (hbits : 5 ≤ (T.hpackHuffman (input[n]).toNat).bits ∧ (T.hpackHuffman (input[n]).toNat).bits ≤ 30)
    (hfits : SymbolFits T input len free n) (rest : List UInt8) :
    ∃ r out', RawBuffer.huffmanEncodeLoop T input.length (input[n] :: rest) remainingBits out =
        RawBuffer.huffmanEncodeLoop T input.length rest r out' ∧ Encoding T input len free (n + 1) r out' := by
  obtain ⟨hreach, hwrap⟩ := hfits
  have hsucc := codeBits_succ (T := T) hn
  have hr := h.bits
  have hroom := (le_encodeRoom_succ (by omega)).mpr hreach
  obtain ⟨hlen1, hsize1, hlt1⟩ := h.grow hin hwrap _ rfl
  have hlen := h.len_eq
  rw [RawBuffer.huffmanEncodeLoop]
  dsimp only
  generalize (if toUint32 (out.size - out.len) < 8 then out.chulaBufferEnsureAddlen input.length else out) = out1
    at hlen1 hsize1 hlt1 ⊢
  obtain ⟨out2, h2, hlen2, hsize2⟩ := RawBuffer.startOctet_ok remainingBits
    (show out1.len < out1.size by omega)
  obtain ⟨out3, h3, hlen3, hsize3⟩ := RawBuffer.encodeSymbolLoop_ok (T.hpackHuffman (input[n]).toNat).code
    ((T.hpackHuffman (input[n]).toNat).bits + 1) (T.hpackHuffman (input[n]).toNat).bits remainingBits out2
    (Nat.lt_succ_self _) (by omega) (by omega) (by omega) (by omega) (by omega)
  rw [ok_then h2, RawBuffer.encodeSymbol, ok_then h3]
  exact ⟨_, out3, rfl, by omega, by omega, by omega, by omega, by omega⟩

/-- **One symbol, out of bounds.** -/
theorem Encoding.symbol_escape (h : Encoding T input len free n remainingBits out) (hin : input.length < 2 ^ 32)
    (hn : n < input.length) (hbits : 5 ≤ (T.hpackHuffman (input[n]).toNat).bits ∧ (T.hpackHuffman (input[n]).toNat).bits ≤ 30)
    (hfits : ¬ SymbolFits T input len free n) (rest : List UInt8) :
    ∃ e, RawBuffer.huffmanEncodeLoop T input.length (input[n] :: rest) remainingBits out = .error e := by
  have hsucc := codeBits_succ (T := T) hn
  have hr := h.bits
  have hlen := h.len_eq
  -- either way, what the symbol reaches does not lie in the memory it has
  have hshort : ∀ out1, (if toUint32 (out.size - out.len) < 8 then out.chulaBufferEnsureAddlen input.length else out) =
      out1 → out1.len = out.len ∧ out1.size < 2 ^ 32 ∧ out1.size < len + (codeBits T input (n + 1) + 7) / 8 := by
    intro out1 h1
    by_cases hwrap : encodeRoom T input free n < codeBits T input n / 8 + 8 →
        len + codeBits T input n / 8 + input.length + 1 < 2 ^ 32
    · obtain ⟨hlen1, hsize1, hlt1⟩ := h.grow hin hwrap out1 h1
      have hreach : ¬ (codeBits T input (n + 1) + 7) / 8 ≤ encodeRoom T input free (n + 1) := by
        rw [le_encodeRoom_succ (by omega)]
        exact fun hreach => hfits ⟨hreach, hwrap⟩
      exact ⟨hlen1, hlt1, by omega⟩
    · obtain ⟨hlow, hwrap⟩ := Classical.not_imp.mp hwrap
      obtain ⟨hlen1, hsize1⟩ := h.grow_wrap hin hlow hwrap out1 h1
      have hsize := h.size_lt
      have hsize' := h.size_eq
      have hreached := h.reached
      exact ⟨hlen1, by omega, by omega⟩
  obtain ⟨hlen1, hlt1, hsize1⟩ := hshort _ rfl
  rw [RawBuffer.huffmanEncodeLoop]
  dsimp only
  generalize (if toUint32 (out.size - out.len) < 8 then out.chulaBufferEnsureAddlen input.length else out) = out1
    at hlen1 hlt1 hsize1 ⊢
  have hescape : ∀ out2 : RawBuffer, out2.len = out1.len → out2.size = out1.size →
      ∃ e, RawBuffer.encodeSymbol (T.hpackHuffman (input[n]).toNat) remainingBits out2 = .error e := by
    intro out2 hlen2 hsize2
    exact RawBuffer.encodeSymbolLoop_escape _ _ _ _ _ (Nat.lt_succ_self _) (by omega) (by omega) (by omega) (by omega)
      (by omega)
  rw [RawBuffer.startOctet]
  by_cases h8 : remainingBits = 8
  · rw [if_pos h8]
    by_cases hfit : out1.len < out1.size
    · obtain ⟨out2, h2, hlen2, hsize2⟩ := RawBuffer.setOctet_ok 0 hfit
      obtain ⟨e, he⟩ := hescape out2 hlen2 hsize2
      rw [ok_then h2, he]
      exact ⟨e, rfl⟩
    · obtain ⟨e, he⟩ := RawBuffer.setOctet_escape 0 hfit
      rw [he]
      exact ⟨e, rfl⟩
  · obtain ⟨e, he⟩ := hescape out1 rfl rfl
    rw [if_neg h8, ok_then rfl, he]
    exact ⟨e, rfl⟩

theorem huffmanEncodeLoop_ok (hT : ∀ b : UInt8, 5 ≤ (T.hpackHuffman b.toNat).bits ∧ (T.hpackHuffman b.toNat).bits ≤ 30)
    (hin : input.length < 2 ^ 32) (hall : ∀ m < input.length, SymbolFits T input len free m) (k : ℕ) :
    ∀ n remainingBits out, n + k = input.length → Encoding T input len free n remainingBits out →
      ∃ r out', RawBuffer.huffmanEncodeLoop T input.length (input.drop n) remainingBits out = .ok (r, out') ∧
        Encoding T input len free input.length r out' := by
  induction k with
  | zero =>
    rintro n remainingBits out rfl h
    rw [List.drop_length]
    exact ⟨remainingBits, out, rfl, h⟩
  | succ k ih =>
    intro n remainingBits out hk h
    have hn : n < input.length := by omega
    obtain ⟨r, out', hloop, h'⟩ := h.symbol_ok hin hn (hT _) (hall n hn) (input.drop (n + 1))
    rw [List.drop_eq_getElem_cons hn, hloop]
    exact ih (n + 1) r out' (by omega) h'

theorem huffmanEncodeLoop_escape
    (hT : ∀ b : UInt8, 5 ≤ (T.hpackHuffman b.toNat).bits ∧ (T.hpackHuffman b.toNat).bits ≤ 30)
    (hin : input.length < 2 ^ 32) {m : ℕ} (hm : m < input.length) (hfits : ¬ SymbolFits T input len free m) (k : ℕ) :
    ∀ n remainingBits out, n + k = m → Encoding T input len free n remainingBits out →
      ∃ e, RawBuffer.huffmanEncodeLoop T input.length (input.drop n) remainingBits out = .error e := by
  induction k with
  | zero =>
    intro n remainingBits out hk h
    obtain rfl : n = m := hk
    rw [List.drop_eq_getElem_cons hm]
    exact h.symbol_escape hin hm (hT _) hfits (input.drop (n + 1))
  | succ k ih =>
    intro n remainingBits out hk h
    have hn : n < input.length := by omega
    rw [List.drop_eq_getElem_cons hn]
    by_cases hfits' : SymbolFits T input len free n
    · obtain ⟨r, out', hloop, h'⟩ := h.symbol_ok hin hn (hT _) hfits' (input.drop (n + 1))
      rw [hloop]
      exact ih (n + 1) r out' (by omega) h'
    · exact h.symbol_escape hin hn (hT _) hfits' (input.drop (n + 1))

/-- The end of the stream: the octet that it is written to has been reached. -/
theorem Encoding.end_ok (h : Encoding T input len free n remainingBits out) (eos : HuffmanCode) :
    ∃ out', out.endOctet eos remainingBits = .ok out' ∧ out'.len = len + (codeBits T input n + 7) / 8 ∧
      out'.len ≤ out'.size ∧ out'.size < 2 ^ 32 := by
  obtain ⟨hr, hlen, hsize, hreached, hlt⟩ := h
  rw [RawBuffer.endOctet]
  by_cases hfree : remainingBits < 8
  · obtain ⟨out1, h1, hlen1, hsize1⟩ := RawBuffer.orOctet_ok
      (UInt8.ofNat (eos.code >>> (eos.bits - remainingBits))) (show out.len < out.size by omega)
    have hnext : toUint32 (out1.len + 1) = out.len + 1 := by
      rw [toUint32]
      omega
    rw [if_pos hfree, ok_then h1, hnext]
    exact ⟨_, rfl, by dsimp only; omega, by dsimp only; omega, by dsimp only; omega⟩
  · rw [if_neg hfree]
    exact ⟨out, rfl, by omega, by omega, hlt⟩

/-- The NUL behind the string. -/
theorem setOctet_end (hle : out.len ≤ out.size) (hlt : out.size < 2 ^ 32) :
    (∃ out', (out.chulaBufferEnsureSize (toUint32 (out.len + 1))).setOctet
      (out.chulaBufferEnsureSize (toUint32 (out.len + 1))).len 0 = .ok out') ↔ out.len + 1 < 2 ^ 32 := by
  rw [RawBuffer.chulaBufferEnsureSize]
  by_cases hnext : out.len + 1 < 2 ^ 32
  · have hask : toUint32 (out.len + 1) = out.len + 1 := by
      rw [toUint32]
      omega
    refine iff_of_true ?_ hnext
    rw [hask]
    split_ifs with hfit
    · obtain ⟨out', h, -, -⟩ := RawBuffer.setOctet_ok 0 (show out.len < out.size by omega)
      exact ⟨out', h⟩
    · have hroom : out.len < (out.realloc (out.len + 1) (out.len + 1 : ℕ)).size := by
        rw [RawBuffer.realloc, toUint32_cast (by omega)]
        exact Nat.lt_succ_self _
      obtain ⟨out', h, -, -⟩ := RawBuffer.setOctet_ok 0 hroom
      exact ⟨out', h⟩
  · -- the length that is asked for is 0, so nothing is allocated
    have hask : toUint32 (out.len + 1) = 0 := by
      rw [toUint32]
      omega
    refine iff_of_false ?_ hnext
    rw [hask, if_pos (Nat.zero_le _)]
    rintro ⟨out', h⟩
    obtain ⟨e, he⟩ := RawBuffer.setOctet_escape 0 (show ¬ out.len < out.size by omega)
    rw [he] at h
    cases h

variable (T input) in
theorem encoding_init (hle : out.len ≤ out.size) (hlt : out.size < 2 ^ 32) :
    Encoding T input out.len (out.size - out.len) 0 8 out where
  bits := by rw [codeBits_zero]
  len_eq := by rw [codeBits_zero]; rfl
  size_eq := (Nat.add_sub_cancel' hle).symm
  reached := by rw [codeBits_zero]; exact Nat.zero_le _
  size_lt := hlt

end Encode

/-- **Where the encoder stays in its memory.**  With `codeBits n` the bits of the first `n` codes, that is exactly when the
bits of every symbol reach no further than what was free at the beginning or the complete octets before it, the length of
the input and one more (`SymbolFits`), and when no size that is asked for on the way is 2^32 or more. -/
theorem huffman_encode_in_bounds (T : HuffmanTables)
    (hT : ∀ b : UInt8, 5 ≤ (T.hpackHuffman b.toNat).bits ∧ (T.hpackHuffman b.toNat).bits ≤ 30) (input : List UInt8)
    (hin : input.length < 2 ^ 32) (out : RawBuffer) (hle : out.len ≤ out.size) (hlt : out.size < 2 ^ 32) :
    (∃ out', out.hpackHuffmanEncode T input = .ok out') ↔
      (∀ n < input.length, SymbolFits T input out.len (out.size - out.len) n) ∧
        out.len + (codeBits T input input.length + 7) / 8 + 1 < 2 ^ 32 := by
  have hinit := encoding_init T input hle hlt
  rw [RawBuffer.hpackHuffmanEncode]
  by_cases hall : ∀ n < input.length, SymbolFits T input out.len (out.size - out.len) n
  · obtain ⟨r, out1, hloop, h1⟩ := huffmanEncodeLoop_ok hT hin hall input.length 0 8 out (Nat.zero_add _) hinit
    obtain ⟨out2, hend, hlen2, hle2, hlt2⟩ := h1.end_ok (T.hpackHuffman 256)
    rw [List.drop_zero] at hloop
    rw [ok_then hloop]
    dsimp only
    rw [ok_then hend, setOctet_end hle2 hlt2, hlen2, and_iff_right hall]
  · refine iff_of_false ?_ fun h => hall h.1
    obtain ⟨m, hm⟩ := not_forall.mp hall
    obtain ⟨hm, hfits⟩ := Classical.not_imp.mp hm
    obtain ⟨e, he⟩ := huffmanEncodeLoop_escape hT hin hm hfits m 0 8 out (Nat.zero_add _) hinit
    rw [List.drop_zero] at he
    rw [he]
    rintro ⟨out', h⟩
    cases h

/-- A table with a code of 30 bits, as the line feed has one. -/
def lineFeedTables : HuffmanTables where
  hpackHuffman n := if n = 10 then ⟨30, 0x3ffffffc⟩ else if n = 256 then ⟨30, 0x3fffffff⟩ else ⟨5, n % 32⟩
  decodeTable _ _ := ⟨-1, 0, 0⟩

theorem lineFeedTables_bits (b : UInt8) :
    5 ≤ (lineFeedTables.hpackHuffman b.toNat).bits ∧ (lineFeedTables.hpackHuffman b.toNat).bits ≤ 30 := by
  simp only [lineFeedTables]
  split_ifs <;> simp

theorem huffman_encode_in_bounds_four :
    ∃ out', (⟨some [none], 1, 0⟩ : RawBuffer).hpackHuffmanEncode lineFeedTables [10, 10, 10, 10] = .ok out' :=
  (huffman_encode_in_bounds lineFeedTables lineFeedTables_bits [10, 10, 10, 10] (by decide) ⟨some [none], 1, 0⟩
    (by decide) (by decide)).mpr (by decide)

/-- **One line feed, into a fresh buffer**: two octets are allocated, and the third is cleared. -/
theorem huffman_encode_escapes :
    (∀ b : UInt8, 5 ≤ (lineFeedTables.hpackHuffman b.toNat).bits ∧ (lineFeedTables.hpackHuffman b.toNat).bits ≤ 30) ∧
      RawBuffer.chulaBufInit.hpackHuffmanEncode lineFeedTables [10] = .error ⟨3, 2⟩ :=
  ⟨lineFeedTables_bits, by decide⟩

end LibHpack
