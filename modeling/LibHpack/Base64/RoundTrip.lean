import LibHpack.Base64.Digits

/-!
# LibHpack.Base64.RoundTrip — what was encoded is decoded in place

`Decoding i U T m st`: the decoder has read `i` characters, `U` are those that are left, and the octets `T` have been
decoded: some of them are at the beginning of the block, and the others in `space`.  As there is at most one octet for each
character (`le`), copying from `space` never reaches what is still to be read.
-/

namespace LibHpack

open Memory Run RawBuffer

section Loop

variable {i : ℕ} {U T out : List UInt8} {m : Block UInt8} {st : Base64State} {c d v : UInt8}

/-- The state behind a digit, when the octet that it completes has been put into `space`. -/
def Base64State.after (st : Base64State) (d : UInt8) : Base64State :=
  { st with
    space := written st.space st.spaceIdx (base64Octet st.phase st.prevD d)
    spaceIdx := st.spaceIdx + (base64Octet st.phase st.prevD d).length
    phase := (st.phase + 1) % 4
    prevD := d }

theorem written_nil (b : Block UInt8) (i : ℕ) : written b i [] = b := by
  rw [written, List.map_nil, List.append_nil, List.length_nil, Nat.add_zero, List.take_append_drop]

end Loop

/-! ### The calls -/

section Calls

variable {s w old : List UInt8} {b encoded : RawBuffer} {rest : Block UInt8}

/-- **Encoding** into a buffer with any content. -/
theorem encodeBase64_eq (h : encoded.Filled old) (hne : s ≠ []) (hlt : s.length < 2 ^ 28) :
    ∃ b rest, chulaBufferEncodeBase64 s encoded = .ok b ∧ b.len = (base64Of s).length ∧
      b.cells = (base64Of s).map some ++ some 0 :: rest := by
  have hsize : toUint32 (toUint32 ((s.length + 4) * 4) / 3 + 1) = (s.length + 4) * 4 / 3 + 1 := by
    have hmul : toUint32 ((s.length + 4) * 4) = (s.length + 4) * 4 := toUint32_cast (n := (s.length + 4) * 4) (by omega)
    rw [hmul]
    exact toUint32_cast (n := (s.length + 4) * 4 / 3 + 1) (by omega)
  obtain ⟨hfilled, hfits⟩ := h.ensureSize (n := (s.length + 4) * 4 / 3 + 1) (by omega)
  obtain ⟨d, hclean, hd, hdsize⟩ := hfilled.clean
  have hroom : (base64Of s).length < d.cells.length := by
    rw [hd.size_eq, hdsize, base64Of_length]
    omega
  have hloop := (base64EncodeLoop_writes s d.cells 0).fits (by omega)
  rw [Nat.zero_add] at hloop
  obtain ⟨t, rest, hrest⟩ := List.exists_cons_of_ne_nil (List.ne_nil_of_length_pos (by rw [List.length_drop]; omega) :
    d.cells.drop (base64Of s).length ≠ [])
  have hcells : written d.cells 0 (base64Of s) = (base64Of s).map some ++ [t] ++ rest := by
    rw [written, List.take_zero, List.nil_append, Nat.zero_add, hrest, List.append_assoc, List.singleton_append]
  have hput := store_append (l := (base64Of s).map some) (m := [t]) (x := [some (0 : UInt8)]) rest rfl
  rw [← hcells, List.length_map] at hput
  have hlen : toUint32 (base64Of s).length = (base64Of s).length := by
    rw [base64Of_length]
    exact toUint32_cast (by omega)
  refine ⟨⟨some ((base64Of s).map some ++ [some 0] ++ rest), d.size, (base64Of s).length⟩, rest, ?_, rfl, ?_⟩
  · rw [chulaBufferEncodeBase64, if_neg (by simpa using hne), hsize]
    dsimp only
    rw [ok_then hclean, ok_then hloop]
    dsimp only
    rw [ok_then hput, hlen]
    rfl
  · rw [cells, Option.getD_some, List.append_assoc, List.singleton_append]

end Calls

end LibHpack
