import LibHpack.HeaderTable.Copy
import LibHpack.HeaderParser.Cases

/-!
# LibHpack.HeaderParser.Progress — how far a call gets

A call in the middle of a block that returns `ret_ok` consumes at least one octet, and none beyond the end of the block
(`parserField_progress`).  None of the 32-bit sums wraps around in such a call.
-/

namespace LibHpack

variable {T : HuffmanTables} {buf : Block} {offset con N v : ℕ}

theorem Block.len_succ_lt (buf : Block) : buf.len + 1 < 2 ^ 32 := buf.len_lt

theorem Block.rest_eq (h : offset ≤ buf.len) : buf.rest offset = buf.len - offset := by
  have := buf.len_succ_lt
  simp only [Block.rest, cbMask_eq]
  omega

/-- A decoded integer ends in the block; the one octet after the block can hold a short one. -/
theorem decode_bounds (h : offset ≤ buf.len)
    (hdec : hpackIntegerDecode N (buf.mem offset) (buf.rest offset) 0 = (.ok, v, con)) :
    1 ≤ con ∧ offset + con ≤ buf.len + 1 ∧ (offset < buf.len → offset + con ≤ buf.len) := by
  obtain ⟨hint, -, hread⟩ := hpackIntegerDecode_ok_iff.mp hdec
  have hpos := hint.pos
  rw [Block.rest_eq h] at hread
  rcases hread with rfl | hread
  · omega
  · have := Nat.mod_le (buf.len - offset) 256
    omega

/-- **A string** that is parsed ends in the block. -/
theorem parseString_bounds {string string' : ChulaBuffer} {huffman : Bool} (h : offset ≤ buf.len)
    (hr : parseString T buf offset string = .ok (.ok, string', huffman, con)) :
    1 ≤ con ∧ offset + con ≤ buf.len := by
  have hlen := buf.len_succ_lt
  unfold parseString at hr
  rcases hdec : hpackIntegerDecode 7 (buf.mem offset) (buf.rest offset) 0 with ⟨ret, len, con1⟩
  rw [hdec] at hr
  dsimp only at hr
  by_cases hret : ret = .ok
  swap
  · rw [if_pos hret] at hr
    cases hr
  obtain ⟨hpos, hle, -⟩ := decode_bounds h (hret ▸ hdec)
  have hmod : (offset + con1) % 2 ^ 32 = offset + con1 := Nat.mod_eq_of_lt (by omega)
  rw [if_neg (not_not.mpr hret), hmod] at hr
  by_cases heagain : buf.len < (offset + con1 + len) % 2 ^ 32
  · rw [if_pos heagain] at hr
    cases hr
  rw [if_neg heagain] at hr
  -- the octets of the string are there, so the sum does not wrap around
  have hfits : len ≤ (((buf.octets ++ [buf.past]).drop (offset + con1)).take len).length →
      con = cbMask (((offset + con1 + len) % 2 ^ 32 : ℕ) - (offset : ℤ)) (2 ^ 32) →
      1 ≤ con ∧ offset + con ≤ buf.len := by
    intro hinput hcon
    rw [List.length_take, List.length_drop, List.length_append, List.length_singleton] at hinput
    have hbuf : buf.octets.length = buf.len := rfl
    rw [Nat.mod_eq_of_lt (by omega)] at heagain hcon
    simp only [cbMask_eq] at hcon
    omega
  split_ifs at hr with hhuff hret1 hover hover
  · cases hr
  · cases hr
    exact hfits (not_lt.mp hover) rfl
  · cases hr
    exact hfits (not_lt.mp hover) rfl

theorem parseHeaderName_bounds {table : HeaderTable} {field field' : HeaderField} {n : ℕ} (h : offset < buf.len)
    (hr : parseHeaderName T buf offset table field = .ok (.ok, field', n)) : offset < n ∧ n ≤ buf.len := by
  have hlen := buf.len_succ_lt
  cases parseHeaderName_cases hr with
  | indexed _ hdec _ =>
    obtain ⟨hpos, -, hle⟩ := decode_bounds h.le hdec
    rw [Nat.mod_eq_of_lt (by omega)]
    omega
  | unnamed _ _ hret => exact absurd rfl hret
  | named _ hname =>
    rw [Nat.mod_eq_of_lt (by omega)] at hname
    obtain ⟨-, hle⟩ := parseString_bounds (by omega) hname
    rw [Nat.mod_eq_of_lt (by omega)]
    omega

/-- A pair that is parsed is a name, and a value behind it. -/
theorem parseHeaderPair_parts {table : HeaderTable} {field field' : HeaderField}
    (hr : parseHeaderPair T buf offset table field = .ok (.ok, field', con)) :
    ∃ f n value huffman con2, parseHeaderName T buf offset table field = .ok (.ok, f, n) ∧
      parseString T buf n f.value = .ok (.ok, value, huffman, con2) ∧
      con = cbMask (((n + con2) % 2 ^ 32 : ℕ) - (offset : ℤ)) (2 ^ 32) := by
  cases parseHeaderPair_cases hr with
  | unnamed _ hret => exact absurd rfl hret
  | unvalued _ _ hret => exact absurd rfl hret
  | parsed hname hvalue => exact ⟨_, _, _, _, _, hname, hvalue, rfl⟩

theorem parseHeaderPair_bounds {table : HeaderTable} {field field' : HeaderField} (h : offset < buf.len)
    (hr : parseHeaderPair T buf offset table field = .ok (.ok, field', con)) :
    1 ≤ con ∧ offset + con ≤ buf.len := by
  have hlen := buf.len_succ_lt
  obtain ⟨f, n, value, huffman, con2, hname, hvalue, rfl⟩ := parseHeaderPair_parts hr
  obtain ⟨hlt, hn⟩ := parseHeaderName_bounds h hname
  obtain ⟨hpos, hle⟩ := parseString_bounds hn hvalue
  rw [Nat.mod_eq_of_lt (by omega), cbMask_eq]
  omega

/-- A context update consumes its integer, or the octet that empties the reference set. -/
theorem parseContextUpdate_decoded {ctx ctx' : Context} (hr : parseContextUpdate buf offset ctx = .ok (.ok, ctx', con)) :
    (buf.get offset = 0x30 ∧ con = 1) ∨
      (buf.get offset ≠ 0x30 ∧ ∃ num, hpackIntegerDecode 4 (buf.mem offset) (buf.rest offset) 0 = (.ok, num, con)) := by
  cases parseContextUpdate_cases hr with
  | emptied h30 => exact .inl ⟨h30, rfl⟩
  | resized h30 hdec _ => exact .inr ⟨h30, _, hdec⟩

theorem parseContextUpdate_bounds {ctx ctx' : Context} (h : offset < buf.len)
    (hr : parseContextUpdate buf offset ctx = .ok (.ok, ctx', con)) : 1 ≤ con ∧ offset + con ≤ buf.len := by
  rcases parseContextUpdate_decoded hr with ⟨-, rfl⟩ | ⟨-, num, hdec⟩
  · omega
  · obtain ⟨hpos, -, hle⟩ := decode_bounds h.le hdec
    exact ⟨hpos, hle h⟩

/-- An indexed field consumes its index. -/
theorem parseIndexed_decoded {ctx ctx' : Context} {field field' : HeaderField}
    (hr : parseIndexed buf offset ctx field = .ok (.ok, ctx', field', con)) :
    ∃ num, hpackIntegerDecode 7 (buf.mem offset) (buf.rest offset) 0 = (.ok, num, con) := by
  cases parseIndexed_cases hr with
  | removed hdec _ _ => exact ⟨_, hdec⟩
  | unread _ hret => exact absurd rfl hret
  | referenced hfield => exact ⟨_, hfield.dec⟩
  | unadded _ _ hret => exact absurd rfl hret
  | inserted hfield _ => exact ⟨_, hfield.dec⟩

theorem parseIndexed_bounds {ctx ctx' : Context} {field field' : HeaderField} (h : offset < buf.len)
    (hr : parseIndexed buf offset ctx field = .ok (.ok, ctx', field', con)) : 1 ≤ con ∧ offset + con ≤ buf.len := by
  obtain ⟨num, hdec⟩ := parseIndexed_decoded hr
  obtain ⟨hpos, -, hle⟩ := decode_bounds h.le hdec
  exact ⟨hpos, hle h⟩

/-- A literal consumes its pair. -/
theorem parserField_pair {ctx ctx' : Context} {field field' : HeaderField} (hoff : offset ≠ buf.len)
    (hup : ¬ buf.get offset &&& 0xE0 = 0x20) (hidx : ¬ buf.get offset &&& 0x80 ≠ 0)
    (hr : hpackHeaderParserField T ctx buf offset field = .ok (.ok, ctx', field', con)) :
    ∃ f, parseHeaderPair T buf offset ctx.table (hpackHeaderFieldClean field) = .ok (.ok, f, con) := by
  cases parserField_literal_cases hoff hup hidx hr with
  | refused _ hret => exact absurd rfl hret
  | returned hpair _ _ => exact ⟨_, hpair⟩
  | unadded _ _ _ hret => exact absurd rfl hret
  | inserted hpair _ _ => exact ⟨_, hpair⟩

/-- **Progress.** -/
theorem parserField_progress {ctx ctx' : Context} {field field' : HeaderField} (h : offset < buf.len)
    (hr : hpackHeaderParserField T ctx buf offset field = .ok (.ok, ctx', field', con)) :
    1 ≤ con ∧ offset + con ≤ buf.len := by
  by_cases hup : buf.get offset &&& 0xE0 = 0x20
  · rw [parserField_update h.ne hup] at hr
    obtain ⟨⟨ret1, ctx1, con1⟩, hupdate, hr⟩ := bind_eq_ok hr
    cases hr
    exact parseContextUpdate_bounds h hupdate
  by_cases hidx : buf.get offset &&& 0x80 ≠ 0
  · rw [parserField_indexed h.ne hup hidx] at hr
    exact parseIndexed_bounds h hr
  · obtain ⟨f, hpair⟩ := parserField_pair h.ne hup hidx hr
    exact parseHeaderPair_bounds h hpair

end LibHpack
