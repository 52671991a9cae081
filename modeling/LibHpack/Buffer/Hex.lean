import LibHpack.General.Streaming
import LibHpack.Buffer.Contents

/-!
# LibHpack.Buffer.Hex — hexadecimal digits (libchula buffer.c)

The encoder reads the source, which is the list of its octets, and writes into the destination.  The decoder works in place:
it writes the octet `i` when it has read the digits `2 i` and `2 i + 1`, so it only overwrites what it is done with.  Whether
it comes to the end or stops at a digit that is none, the length is halved.
-/

namespace LibHpack

open Memory Run Streaming

/-- `TO_HEX`. -/
def toHex (c : UInt8) : UInt8 := if c > 9 then c + 97 - 10 else c + 48

/-- `hex_to_bin`, with `none` for -1. -/
def hexToBin (c : UInt8) : Option UInt8 :=
  if 48 ≤ c ∧ c ≤ 57 then some (c - 48)
  else if 65 ≤ c ∧ c ≤ 70 then some (c - 55)
  else if 97 ≤ c ∧ c ≤ 102 then some (c - 87)
  else none

/-- The loop of `chula_buffer_encode_hex`, and of the calls that encode a digest so. -/
def encodeHexLoop : List UInt8 → Block UInt8 → ℕ → Except Escape (Block UInt8 × ℕ)
  | [], m, out => .ok (m, out)
  | c :: rest, m, out => do
    let m ← store m out [some (toHex ((c >>> 4) &&& 0xf))]
    let m ← store m (out + 1) [some (toHex (c &&& 0xf))]
    encodeHexLoop rest m (out + 2)

/-- `chula_buffer_encode_hex`. -/
def chulaBufferEncodeHex (buf : List UInt8) (encoded : RawBuffer) : Except Escape RawBuffer := do
  let encoded := encoded.chulaBufferEnsureSize (toUint32 (buf.length * 2 + 1))
  let encoded ← encoded.chulaBufferClean
  let (m, out) ← encodeHexLoop buf encoded.cells 0
  let m ← store m out [some 0]
  return { encoded with buf := some m, len := toUint32 (toInt (toUint32 (buf.length * 2))) }

/-- The loop of `chula_buffer_decode_hex`, with `k` turns to go. -/
def decodeHexLoop : ℕ → ℕ → Block UInt8 → Except Escape (Block UInt8)
  | 0, _, m => .ok m
  | k + 1, i, m => do
    let b1 ← read m (2 * i)
    let b2 ← read m (2 * i + 1)
    match hexToBin (b1 &&& 127), hexToBin (b2 &&& 127) with
    | some b1, some b2 => do
      let m ← store m i [some (((b1 <<< 4) &&& 0xF0) ||| (b2 &&& 0x0F))]
      decodeHexLoop k (i + 1) m
    | _, _ => .ok m

/-- `chula_buffer_decode_hex`. -/
def chulaBufferDecodeHex (buf : RawBuffer) : Except Escape RawBuffer :=
  if buf.len = 0 then .ok buf
  else do
    let m ← decodeHexLoop (buf.len / 2) 0 buf.cells
    let m ← store m (buf.len / 2) [some 0]
    return { buf with buf := some m, len := buf.len / 2 }

/-! ### Digits -/

/-- Two digits for each octet. -/
def hexOf (s : List UInt8) : List UInt8 := s.flatMap fun (c : UInt8) => [toHex ((c >>> 4) &&& 0xf), toHex (c &&& 0xf)]

/-- The octet of two digits, whose top bits do not matter. -/
def hexOctet (b1 b2 : UInt8) : Option UInt8 :=
  match hexToBin (b1 &&& 127), hexToBin (b2 &&& 127) with
  | some b1, some b2 => some (((b1 <<< 4) &&& 0xF0) ||| (b2 &&& 0x0F))
  | _, _ => none

/-- The octets of the digits, as far as they are some. -/
def hexDecoded : List UInt8 → List UInt8
  | b1 :: b2 :: w =>
    match hexOctet b1 b2 with
    | some c => c :: hexDecoded w
    | none => []
  | _ => []

/-- What the decoder leaves: behind the octets that it has decoded there are those that were there before. -/
def hexLeft (w : List UInt8) : List UInt8 := hexDecoded w ++ (w.take (w.length / 2)).drop (hexDecoded w).length

theorem hexOctet_toHex : ∀ c : UInt8, hexOctet (toHex ((c >>> 4) &&& 0xf)) (toHex (c &&& 0xf)) = some c :=
  forall_octet (by decide +kernel)

theorem hexOf_length (s : List UInt8) : (hexOf s).length = 2 * s.length := by
  induction s with
  | nil => rfl
  | cons c s ih =>
    rw [hexOf, List.flatMap_cons, List.length_append, ← hexOf, ih, List.length_cons]
    simp only [List.length_cons, List.length_nil]
    omega

theorem hexDecoded_hexOf (s : List UInt8) : hexDecoded (hexOf s) = s := by
  induction s with
  | nil => rfl
  | cons c s ih =>
    rw [hexOf, List.flatMap_cons, ← hexOf]
    simp only [List.cons_append, List.nil_append]
    rw [hexDecoded, hexOctet_toHex]
    dsimp only
    rw [ih]

/-- There are not two digits left. -/
theorem hexDecoded_short {w : List UInt8} (h : ∀ b1 b2 w', w = b1 :: b2 :: w' → False) :
    hexDecoded w = [] ∧ w.length / 2 = 0 := by
  cases w with
  | nil => exact ⟨rfl, rfl⟩
  | cons b1 w => cases w with
    | nil => exact ⟨rfl, Nat.div_eq_of_lt Nat.one_lt_two⟩
    | cons b2 w => exact (h b1 b2 w rfl).elim

theorem hexDecoded_length_le (w : List UInt8) : (hexDecoded w).length ≤ w.length / 2 := by
  induction w using hexDecoded.induct with
  | case1 b1 b2 w c hc ih =>
    rw [hexDecoded, hc]
    dsimp only
    rw [List.length_cons, List.length_cons, List.length_cons]
    omega
  | case2 b1 b2 w hc =>
    rw [hexDecoded, hc]
    exact Nat.zero_le _
  | case3 w hshort =>
    rw [(hexDecoded_short hshort).1]
    exact Nat.zero_le _

theorem hexLeft_length (w : List UInt8) : (hexLeft w).length = w.length / 2 := by
  have hle := hexDecoded_length_le w
  rw [hexLeft, List.length_append, List.length_drop, List.length_take]
  omega

theorem hexLeft_hexOf (s : List UInt8) : hexLeft (hexOf s) = s := by
  rw [hexLeft, hexDecoded_hexOf, hexOf_length, List.drop_eq_nil_of_le (by rw [List.length_take]; omega), List.append_nil]

/-! ### The calls -/

theorem encodeHexLoop_writes : ∀ (s : List UInt8) (m : Block UInt8) (out : ℕ), Writes (encodeHexLoop s m out) m out (hexOf s)
  | [], m, out => .nil m out
  | c :: s, m, out => by
    rw [encodeHexLoop]
    exact .store_then [toHex ((c >>> 4) &&& 0xf)] fun m' =>
      .store_then [toHex (c &&& 0xf)] fun m'' => encodeHexLoop_writes s m'' (out + 2)

variable {b b' : RawBuffer} {s w old : List UInt8}

/-- A text and a NUL at the beginning of a block that has room for them. -/
theorem written_text (m : Block UInt8) (h : s.length < m.length) :
    ∃ rest, store (written m 0 s) s.length [some 0] = .ok (s.map some ++ some 0 :: rest) ∧
      s.length + 1 + rest.length = m.length := by
  obtain ⟨t, rest, hrest⟩ := List.exists_cons_of_ne_nil (List.ne_nil_of_length_pos (by rw [List.length_drop]; omega) :
    m.drop s.length ≠ [])
  have hcells : written m 0 s = s.map some ++ [t] ++ rest := by
    rw [written, List.take_zero, List.nil_append, Nat.zero_add, hrest, List.append_assoc, List.singleton_append]
  have hput := store_append (l := s.map some) (m := [t]) (x := [some (0 : UInt8)]) rest rfl
  rw [← hcells, List.length_map] at hput
  refine ⟨rest, by rw [hput, List.append_assoc, List.singleton_append], ?_⟩
  have hlen := congrArg List.length hrest
  rw [List.length_drop, List.length_cons] at hlen
  omega

/-- **Encoding** into a buffer with any content. -/
theorem encodeHex_eq (h : b.Filled old) (hlt : s.length < 2 ^ 31) :
    ∃ b', chulaBufferEncodeHex s b = .ok b' ∧ b'.Filled (hexOf s) ∧ b'.Terminated := by
  have hsize : toUint32 (s.length * 2 + 1) = s.length * 2 + 1 := toUint32_cast (n := s.length * 2 + 1) (by omega)
  obtain ⟨hfilled, hfits⟩ := h.ensureSize (n := s.length * 2 + 1) (by omega)
  obtain ⟨d, hclean, hd, hdsize⟩ := hfilled.clean
  have hroom : (hexOf s).length < d.cells.length := by
    rw [hd.size_eq, hdsize, hexOf_length]
    omega
  have hloop := (encodeHexLoop_writes s d.cells 0).fits (by omega)
  rw [Nat.zero_add] at hloop
  obtain ⟨rest, hput, hrest⟩ := written_text d.cells hroom
  have hlen : toUint32 (toInt (toUint32 (s.length * 2))) = (hexOf s).length := by
    have hmul : toUint32 (s.length * 2) = s.length * 2 := toUint32_cast (n := s.length * 2) (by omega)
    rw [hmul, hexOf_length, toUint32, toInt, Int.bmod_def]
    split <;> omega
  rw [hd.size_eq] at hrest
  obtain ⟨hf, ht⟩ := RawBuffer.filled_text hrest hd.size_lt
  refine ⟨_, ?_, hf, ht⟩
  rw [chulaBufferEncodeHex, hsize]
  dsimp only
  rw [ok_then hclean, ok_then hloop]
  dsimp only
  rw [ok_then hput, hlen]
  rfl

/-- The cells behind what is written. -/
theorem read_written {m : Block UInt8} {ys : List UInt8} {i : ℕ} (hle : ys.length ≤ m.length) (hi : ys.length ≤ i) :
    read (written m 0 ys) i = read m i := by
  have hget : (written m 0 ys)[i]? = m[i]? := by
    rw [written, List.take_zero, List.nil_append, Nat.zero_add,
      List.getElem?_append_right (by rw [List.length_map]; exact hi), List.length_map, List.getElem?_drop]
    congr 1
    omega
  rw [Memory.read, Memory.read, hget, written_length (by omega)]

theorem read_drop {m rest : Block UInt8} {c : UInt8} {i : ℕ} (h : m.drop i = some c :: rest) : read m i = .ok c := by
  apply read_of_getElem?
  rw [← List.head?_drop, h, List.head?_cons]

/-- One turn of the decoder, behind the octets `ys` that it has decoded. -/
theorem decodeHexLoop_succ {m rest : Block UInt8} {ys : List UInt8} {b1 b2 : UInt8} (k : ℕ)
    (hw : m.drop (2 * ys.length) = some b1 :: some b2 :: rest) : decodeHexLoop (k + 1) ys.length (written m 0 ys) =
      match hexOctet b1 b2 with
      | some c => decodeHexLoop k (ys ++ [c]).length (written m 0 (ys ++ [c]))
      | none => .ok (written m 0 ys) := by
  have hlen := congrArg List.length hw
  rw [List.length_drop, List.length_cons, List.length_cons] at hlen
  have hdrop : m.drop (2 * ys.length + 1) = some b2 :: rest := by
    rw [← List.drop_drop, hw]
    rfl
  have hle : ys.length ≤ m.length := by omega
  have hread1 := (read_written hle (Nat.le_mul_of_pos_left _ two_pos)).trans (read_drop hw)
  have hread2 := (read_written hle (show ys.length ≤ 2 * ys.length + 1 by omega)).trans (read_drop hdrop)
  rw [decodeHexLoop, ok_then hread1, ok_then hread2, hexOctet]
  cases h1 : hexToBin (b1 &&& 127) with
  | none => rfl
  | some v1 =>
    cases h2 : hexToBin (b2 &&& 127) with
    | none => rfl
    | some v2 =>
      dsimp only
      have hroom : 0 + ys.length + [((v1 <<< 4) &&& 0xF0) ||| (v2 &&& 0x0F)].length ≤ m.length := by
        rw [List.length_singleton]
        omega
      have hstore := store_behind (j := ys.length) (Nat.zero_add _).symm hroom
      rw [List.map_singleton] at hstore
      rw [ok_then hstore, List.length_append, List.length_singleton]

/-- **The loop of the decoder** decodes what there is of the digits `w`. -/
theorem decodeHexLoop_eq (m rest : Block UInt8) (w ys : List UInt8) (hw : m.drop (2 * ys.length) = w.map some ++ rest) :
    decodeHexLoop (w.length / 2) ys.length (written m 0 ys) = .ok (written m 0 (ys ++ hexDecoded w)) := by
  induction w using hexDecoded.induct generalizing ys with
  | case1 b1 b2 w c hc ih =>
    have hdrop : m.drop (2 * (ys ++ [c]).length) = w.map some ++ rest := by
      rw [List.length_append, List.length_singleton, Nat.mul_add, ← List.drop_drop, hw]
      rfl
    have hturns : (b1 :: b2 :: w).length / 2 = w.length / 2 + 1 := Nat.add_div_right _ two_pos
    rw [hturns, decodeHexLoop_succ _ hw, hexDecoded, hc]
    dsimp only
    rw [ih _ hdrop, List.append_assoc, List.singleton_append]
  | case2 b1 b2 w hc =>
    have hturns : (b1 :: b2 :: w).length / 2 = w.length / 2 + 1 := Nat.add_div_right _ two_pos
    rw [hturns, decodeHexLoop_succ _ hw, hexDecoded, hc]
    dsimp only
    rw [List.append_nil]
  | case3 w hshort =>
    obtain ⟨hnil, hlen⟩ := hexDecoded_short hshort
    rw [hnil, hlen, decodeHexLoop, List.append_nil]

/-- What was there before stands behind the decoded octets. -/
theorem written_hexLeft {m rest : Block UInt8} (hm : m = w.map some ++ rest) :
    written m 0 (hexDecoded w) = written m 0 (hexLeft w) := by
  have hle := hexDecoded_length_le w
  have hsplit : w.drop (hexDecoded w).length =
      (w.take (w.length / 2)).drop (hexDecoded w).length ++ w.drop (w.length / 2) := by
    rw [← List.drop_append_of_le_length (by rw [List.length_take]; omega), List.take_append_drop]
  have hdrop : m.drop (hexDecoded w).length = ((w.take (w.length / 2)).drop (hexDecoded w).length).map some ++
      m.drop (w.length / 2) := by
    rw [hm, List.drop_append_of_le_length (by rw [List.length_map]; omega),
      List.drop_append_of_le_length (by rw [List.length_map]; omega), ← List.map_drop, ← List.map_drop, hsplit,
      List.map_append, List.append_assoc]
  rw [written, written, Nat.zero_add, Nat.zero_add, hexLeft_length, hdrop, hexLeft, List.map_append, List.append_assoc,
    List.append_assoc, List.append_assoc]

/-- **Decoding** in place, whatever the buffer contains. -/
theorem decodeHex_eq (h : b.Filled w) (ht : b.Terminated) :
    ∃ b', chulaBufferDecodeHex b = .ok b' ∧ b'.Filled (hexLeft w) ∧ b'.Terminated := by
  obtain ⟨rest, hcells⟩ := h.cells_eq ht
  have hlen := h.reads.1
  by_cases hw : w = []
  · subst hw
    refine ⟨b, ?_, h, ht⟩
    rw [chulaBufferDecodeHex, hlen]
    rfl
  have hsize := h.size_eq
  have hloop := decodeHexLoop_eq b.cells (some 0 :: rest) w [] hcells
  rw [List.length_nil, List.nil_append] at hloop
  have hmem : written b.cells 0 ([] : List UInt8) = b.cells := by
    rw [written, List.take_zero, List.map_nil, List.nil_append, List.nil_append, List.length_nil, List.drop_zero]
  rw [hmem] at hloop
  have hcut : b.cells.length = w.length + 1 + rest.length := by
    rw [hcells, List.length_append, List.length_map, List.length_cons]
    omega
  have hleft := written_hexLeft hcells
  have hroom : (hexLeft w).length < b.cells.length := by
    rw [hexLeft_length]
    omega
  obtain ⟨rest', hput, hrest'⟩ := written_text b.cells hroom
  rw [hexLeft_length] at hput
  rw [hsize] at hrest'
  obtain ⟨hf, ht'⟩ := RawBuffer.filled_text hrest' h.size_lt
  rw [hexLeft_length] at hf ht'
  refine ⟨_, ?_, hf, ht'⟩
  rw [chulaBufferDecodeHex, hlen, if_neg (by simpa using hw), ok_then hloop, hleft, ok_then hput]
  rfl

/-- **The round trip**, through a buffer with any content. -/
theorem hex_round_trip (h : b.Filled old) (hlt : s.length < 2 ^ 31) :
    ∃ e d, chulaBufferEncodeHex s b = .ok e ∧ e.Filled (hexOf s) ∧ chulaBufferDecodeHex e = .ok d ∧ d.Filled s ∧
      d.Terminated := by
  obtain ⟨e, hencode, hfilled, hterm⟩ := encodeHex_eq h hlt
  obtain ⟨d, hdecode, hfilled', hterm'⟩ := decodeHex_eq hfilled hterm
  rw [hexLeft_hexOf] at hfilled'
  exact ⟨e, d, hencode, hfilled, hdecode, hfilled', hterm'⟩

theorem hex_round_trip_two : ∃ e d, chulaBufferEncodeHex [0, 0xaf] RawBuffer.chulaBufInit = .ok e ∧
    e.Filled (hexOf [0, 0xaf]) ∧ chulaBufferDecodeHex e = .ok d ∧ d.Filled [0, 0xaf] ∧ d.Terminated :=
  hex_round_trip RawBuffer.filled_null (by decide)

end LibHpack
