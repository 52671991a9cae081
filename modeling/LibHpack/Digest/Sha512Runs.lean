import LibHpack.Digest.Sha512Rounds

/-!
# LibHpack.Digest.Sha512Runs — SHA-512 over any sequence of updates

`sha512Digest msg` is the digest of a message: it is padded, followed by the number of its bits in sixteen octets, and folded
chunk by chunk.  `Holds m msg` is the invariant of a context that has taken in `msg`.  The padding is taken in like any other
piece, so `sha512Final_eq` only has to say what it is.
-/

namespace LibHpack

open Memory Run Streaming

namespace Sha512

/-- The eight words as octets. -/
def digestOctets (v : Words) : List UInt8 :=
  [v.a, v.b, v.c, v.d, v.e, v.f, v.g, v.h].flatMap fun x => beOctets 8 x.toNat

/-- The digest that the message has. -/
def sha512Digest (msg : List UInt8) : List UInt8 :=
  digestOctets (chain 128 sha512Rounds sha512Iv (msg ++ pad 0x80 0 128 16 msg.length ++ beOctets 16 (8 * msg.length)))

/-! ### Words and octets -/

theorem swapUint64_word64 {l : List UInt8} (h : l.length = 8) : swapUint64 (word64 l) = UInt64.ofNat (beValue l) := by
  obtain ⟨a, b, c, d, e, f, g, i, rfl⟩ : ∃ a b c d e f g i, l = [a, b, c, d, e, f, g, i] := by
    match l, h with
    | [a, b, c, d, e, f, g, i], _ => exact ⟨a, b, c, d, e, f, g, i, rfl⟩
  have hand : ∀ x : UInt8, x &&& 255 = x := fun x => UInt8.and_neg_one
  have hshift : cshift64 (word64 [a, b, c, d, e, f, g, i]) 32 = word64 [e, f, g, i, a, b, c, d] := by
    rw [cshift64, show (64 : UInt64) - 32 = 32 from rfl, word64_shiftLeft (n := 4) rfl (by decide) rfl,
      word64_shiftRight (n := 4) rfl (by decide) rfl, word64_or rfl rfl]
    simp [List.replicate_succ]
  have hm1 : (0xff00ff00ff00ff00 : UInt64) = word64 [0, 255, 0, 255, 0, 255, 0, 255] := by decide
  have hm2 : (0x00ff00ff00ff00ff : UInt64) = word64 [255, 0, 255, 0, 255, 0, 255, 0] := by decide
  have hm3 : (0xffff0000ffff0000 : UInt64) = word64 [0, 0, 255, 255, 0, 0, 255, 255] := by decide
  have hm4 : (0x0000ffff0000ffff : UInt64) = word64 [255, 255, 0, 0, 255, 255, 0, 0] := by decide
  have hpairs : ((word64 [e, f, g, i, a, b, c, d] &&& word64 [0, 255, 0, 255, 0, 255, 0, 255]) >>> 8) |||
      ((word64 [e, f, g, i, a, b, c, d] &&& word64 [255, 0, 255, 0, 255, 0, 255, 0]) <<< 8) =
        word64 [f, e, i, g, b, a, d, c] := by
    rw [word64_and rfl rfl, word64_and rfl rfl, word64_shiftRight (n := 1) rfl (by decide) rfl,
      word64_shiftLeft (n := 1) rfl (by decide) rfl, word64_or rfl rfl]
    simp [List.replicate_succ, hand]
  have hquads : ((word64 [f, e, i, g, b, a, d, c] &&& word64 [0, 0, 255, 255, 0, 0, 255, 255]) >>> 16) |||
      ((word64 [f, e, i, g, b, a, d, c] &&& word64 [255, 255, 0, 0, 255, 255, 0, 0]) <<< 16) =
        word64 [i, g, f, e, d, c, b, a] := by
    rw [word64_and rfl rfl, word64_and rfl rfl, word64_shiftRight (n := 2) rfl (by decide) rfl,
      word64_shiftLeft (n := 2) rfl (by decide) rfl, word64_or rfl rfl]
    simp [List.replicate_succ, hand]
  rw [swapUint64, hshift, hm1, hm2, hm3, hm4]
  rw [hpairs, hquads]
  rfl

theorem octets64_eq (x : UInt64) : octets64 x = beOctets 8 x.toNat := by
  rw [octets64, toUInt8_eq x 7 rfl (by decide), toUInt8_eq x 6 rfl (by decide), toUInt8_eq x 5 rfl (by decide),
    toUInt8_eq x 4 rfl (by decide), toUInt8_eq x 3 rfl (by decide), toUInt8_eq x 2 rfl (by decide),
    toUInt8_eq x 1 rfl (by decide), toUInt8_eq x 0 rfl (by decide)]
  simp [beOctets, leOctets, Nat.div_div_eq_div_mul]

theorem octets64_length (x : UInt64) : (octets64 x).length = 8 := rfl

theorem octets_eq (v : Words) : v.octets = digestOctets v := by
  simp [Words.octets, digestOctets, octets64_eq]

variable {m : SHA512_CTX} {msg octets : List UInt8}

/-- **A chunk is folded in.** -/
theorem block_eq (hread : readAll m.save 0 128 = .ok octets) (hlen : m.save.length = 128) :
    m.block = .ok { m with counter := sha512Rounds m.counter octets } := by
  rw [← hlen] at hread
  have hsave := eq_map_of_readAll hread
  have hoctets : octets.length = 128 := by
    rw [← hlen, hsave, List.length_map]
  have hload : ∀ l : List ℕ, (∀ i ∈ l, i < 16) →
      (l.mapM fun i => do
        let octets ← readAll m.save (8 * i) 8
        return swapUint64 (word64 octets)) = .ok (l.map fun i => UInt64.ofNat (beValue ((octets.drop (8 * i)).take 8))) := by
    intro l hl
    induction l with
    | nil => rfl
    | cons i l ih =>
      rw [List.forall_mem_cons] at hl
      have hi := hl.1
      have hword : (do
          let octets ← readAll m.save (8 * i) 8
          return swapUint64 (word64 octets) : Except Escape UInt64) =
            .ok (UInt64.ofNat (beValue ((octets.drop (8 * i)).take 8))) := by
        rw [hsave, ok_then (readAll_map (by omega)), swapUint64_word64 (by rw [List.length_take, List.length_drop]; omega)]
        rfl
      rw [List.mapM_cons, ok_then hword, ok_then (ih hl.2)]
      rfl
  rw [SHA512_CTX.block, ok_then (hload (List.range 16) fun i hi => List.mem_range.1 hi), calculate_eq]
  rfl

/-! ### Updates -/

/-- The context has taken in `msg`. -/
structure Holds (m : SHA512_CTX) (msg : List UInt8) : Prop where
  absorbing : Absorbing 128 sha512Rounds sha512Iv m.counter m.save msg
  bits : m.sz1.toNat * 2 ^ 64 + m.sz0.toNat = 8 * msg.length % 2 ^ 128

theorem sha512Init_holds (h : m.save.length = 128) : Holds (sha512Init m) [] where
  absorbing := by
    rw [sha512Init, iv_eq]
    exact .start sha512Iv h
  bits := by
    change 0 * 2 ^ 64 + 0 = 8 * 0 % 2 ^ 128
    norm_num

theorem Holds.offset (h : Holds m msg) : m.sz0.toNat / 8 % 128 = msg.length % 128 := by
  have hbits := h.bits
  have hlt := m.sz0.toNat_lt
  omega

/-- The loop takes in all that is left. -/
theorem updateLoop_absorbing (m : SHA512_CTX) (msg : List UInt8) (offset : Fin 128) (p : List UInt8)
    (hoffset : offset.val = msg.length % 128) (h : Absorbing 128 sha512Rounds sha512Iv m.counter m.save msg) :
    ∃ v save, updateLoop m offset p = .ok { m with counter := v, save := save } ∧
      Absorbing 128 sha512Rounds sha512Iv v save (msg ++ p) := by
  have hlt := offset.isLt
  rw [updateLoop]
  by_cases hp : 0 < p.length
  · obtain ⟨l, hl, hlp, hlo⟩ : ∃ l, min p.length (128 - offset) = l ∧ l ≤ p.length ∧ 0 < l := ⟨_, rfl, by omega, by omega⟩
    have hle : offset.val + l ≤ 128 := by omega
    have hlen : (p.take l).length = l := by
      rw [List.length_take]
      omega
    have hstore := h.store_eq (d := p.take l) (by rw [hlen]; omega)
    rw [← hoffset] at hstore
    rw [if_pos hp]
    simp only [hl]
    rw [ok_then hstore]
    by_cases hfull : offset.val + l = 128
    · -- the block is full
      obtain ⟨hread, habs⟩ := h.store_full (d := p.take l) (by decide) (by rw [hlen]; omega)
      rw [← hoffset] at hread habs
      have hblock := block_eq (m := { m with save := written m.save offset (p.take l) }) hread habs.size
      have hmod : 0 = (msg ++ p.take l).length % 128 := by
        rw [List.length_append]
        omega
      obtain ⟨v, save, hloop, habs'⟩ := updateLoop_absorbing { m with
        counter := sha512Rounds m.counter (pending 128 msg ++ p.take l)
        save := written m.save offset (p.take l) } (msg ++ p.take l) 0 (p.drop l) hmod habs
      rw [List.append_assoc, List.take_append_drop] at habs'
      rw [dif_pos hfull, ok_then hblock]
      exact ⟨v, save, hloop, habs'⟩
    · -- the piece ends before that
      have habs := h.store_below (d := p.take l) (by rw [hlen]; omega)
      rw [← hoffset] at habs
      have hmod : offset + l = (msg ++ p.take l).length % 128 := by
        rw [List.length_append, hlen]
        omega
      obtain ⟨v, save, hloop, habs'⟩ := updateLoop_absorbing { m with save := written m.save offset (p.take l) }
        (msg ++ p.take l) ⟨offset + l, by omega⟩ (p.drop l) hmod habs
      rw [List.append_assoc, List.take_append_drop] at habs'
      rw [dif_neg hfull]
      exact ⟨v, save, hloop, habs'⟩
  · have hnil : p = [] := List.eq_nil_of_length_eq_zero (by omega)
    rw [if_neg hp, hnil, List.append_nil]
    exact ⟨m.counter, m.save, rfl, h⟩
termination_by p.length
decreasing_by
  all_goals
    rw [List.length_drop]
    omega

theorem sha512_count {lo hi : UInt64} {n k : ℕ} (hk : k < 2 ^ 61) (h : hi.toNat * 2 ^ 64 + lo.toNat = 8 * n % 2 ^ 128) :
    (if lo + UInt64.ofNat k * 8 < lo then hi + 1 else hi).toNat * 2 ^ 64 + (lo + UInt64.ofNat k * 8).toNat =
      8 * (n + k) % 2 ^ 128 := by
  have hk' : (UInt64.ofNat k * 8).toNat = 8 * k := by
    rw [UInt64.toNat_mul, UInt64.toNat_ofNat_of_lt' (by rw [UInt64.size]; omega)]
    change k * 8 % 2 ^ 64 = _
    omega
  have hsum : (lo + UInt64.ofNat k * 8).toNat = (lo.toNat + 8 * k) % 2 ^ 64 := by rw [UInt64.toNat_add, hk']
  have hone : (hi + 1).toNat = (hi.toNat + 1) % 2 ^ 64 := by rw [UInt64.toNat_add, UInt64.toNat_one]
  have hcount := count_carry (k := 8 * k) (by omega) lo.toNat_lt hi.toNat_lt h
  rw [← hsum, ← hone, ← Nat.mul_add] at hcount
  rw [apply_ite UInt64.toNat]
  exact hcount

/-- **`SHA512_Update`** takes in any piece. -/
theorem sha512Update_holds (h : Holds m msg) (v : List UInt8) (hv : v.length < 2 ^ 61) :
    ∃ m', sha512Update m v = .ok m' ∧ Holds m' (msg ++ v) := by
  have hbits := sha512_count hv h.bits
  rw [← List.length_append] at hbits
  obtain ⟨w, save, hloop, habs⟩ := updateLoop_absorbing { m with
    sz0 := m.sz0 + UInt64.ofNat v.length * 8
    sz1 := if m.sz0 + UInt64.ofNat v.length * 8 < m.sz0 then m.sz1 + 1 else m.sz1 } msg
    ⟨m.sz0.toNat / 8 % 128, Nat.mod_lt _ (by decide)⟩ v h.offset h.absorbing
  exact ⟨_, hloop, habs, hbits⟩

/-! ### The end of the message -/

/-- The array `zeros` before the length is put into it. -/
theorem zeros_eq {b : Block UInt8} (hb : b.length = 144) :
    (do
      let zeros ← store b 0 [some 0x80]
      store zeros 1 ((List.replicate 143 0).map some)) = .ok ((0x80 :: List.replicate 143 0).map some) := by
  have hmark : store b 0 [some 0x80] = .ok (written b 0 [0x80]) :=
    store_written (show 0 + [0x80].length ≤ b.length by rw [hb]; decide)
  have hall : written b 0 ([0x80] ++ List.replicate 143 0) = (0x80 :: List.replicate 143 0).map some := by
    have hlen : ([0x80] ++ List.replicate 143 0 : List UInt8).length = b.length := by
      rw [hb, List.length_append, List.length_replicate]
      rfl
    have hwritten := written_split [] b [] hlen
    rwa [List.append_nil, List.append_nil] at hwritten
  rw [ok_then hmark, ← hall]
  exact store_behind rfl (by rw [List.length_replicate, hb]; decide)

theorem padding_eq (m : SHA512_CTX) (k : ℕ) (hk : k < 128) :
    m.padding (k + 1) = .ok (0x80 :: List.replicate k 0 ++ (octets64 m.sz1 ++ octets64 m.sz0)) := by
  obtain ⟨l, hl⟩ : ∃ l : List UInt8, 0x80 :: List.replicate k 0 = l := ⟨_, rfl⟩
  obtain ⟨z, hz⟩ : ∃ z : List UInt8, List.replicate 8 0 = z := ⟨_, rfl⟩
  obtain ⟨r, hr⟩ : ∃ r : List UInt8, List.replicate (127 - k) 0 = r := ⟨_, rfl⟩
  have hllen : l.length = k + 1 := by rw [← hl, List.length_cons, List.length_replicate]
  have hzlen : z.length = 8 := by rw [← hz, List.length_replicate]
  have hsplit : 0x80 :: List.replicate 143 0 = l ++ z ++ z ++ r := by
    have h143 : 143 = k + 8 + 8 + (127 - k) := by omega
    rw [h143, List.replicate_add, List.replicate_add, List.replicate_add, hz, hr, ← hl]
    rfl
  have hzeros := zeros_eq (b := List.replicate 144 none) (List.length_replicate ..)
  rw [hsplit] at hzeros
  have hlo : store ((l ++ z ++ z ++ r).map some) (k + 1 + 8) ((octets64 m.sz0).map some) =
      .ok ((l ++ z ++ octets64 m.sz0 ++ r).map some) := by
    have hstore := store_append (l := (l ++ z).map some) (m := z.map some) (x := (octets64 m.sz0).map some) (r.map some)
      (by rw [List.length_map, List.length_map, hzlen, octets64_length])
    rwa [List.length_map, List.length_append, hllen, hzlen, ← List.map_append, ← List.map_append, ← List.map_append,
      ← List.map_append] at hstore
  have hhi : store ((l ++ z ++ octets64 m.sz0 ++ r).map some) (k + 1) ((octets64 m.sz1).map some) =
      .ok ((l ++ octets64 m.sz1 ++ octets64 m.sz0 ++ r).map some) := by
    have hstore := store_append (l := l.map some) (m := z.map some) (x := (octets64 m.sz1).map some)
      ((octets64 m.sz0 ++ r).map some) (by rw [List.length_map, List.length_map, hzlen, octets64_length])
    rwa [List.length_map, hllen, ← List.map_append, ← List.map_append, ← List.map_append, ← List.map_append,
      ← List.append_assoc, ← List.append_assoc] at hstore
  have hlen : (l ++ octets64 m.sz1 ++ octets64 m.sz0).length = k + 1 + 16 := by
    rw [List.length_append, List.length_append, hllen, octets64_length, octets64_length]
  rw [SHA512_CTX.padding, ← bind_assoc, ok_then hzeros, ok_then hlo, ok_then hhi, ← List.append_assoc, hl]
  refine readAll_of_take ?_ ?_
  · rw [← List.map_take, List.take_left' hlen]
  · rw [List.length_map, List.length_append, hlen]
    omega

/-- The two words of the counter are the number of bits. -/
theorem Holds.bits_eq (h : Holds m msg) : octets64 m.sz1 ++ octets64 m.sz0 = beOctets 16 (8 * msg.length) := by
  have hsplit : m.sz1.toNat * 2 ^ 64 + m.sz0.toNat = 8 * msg.length % 2 ^ 64 + 2 ^ 64 * (8 * msg.length / 2 ^ 64 % 2 ^ 64) := by
    rw [h.bits, ← Nat.mod_mul]
    rfl
  have hlo := m.sz0.toNat_lt
  have hhi := m.sz1.toNat_lt
  have hlow := Nat.mod_lt (8 * msg.length) (show 0 < 2 ^ 64 by norm_num)
  have hhigh := Nat.mod_lt (8 * msg.length / 2 ^ 64) (show 0 < 2 ^ 64 by norm_num)
  rw [octets64_eq, octets64_eq, show beOctets 16 = beOctets (8 + 8) from rfl, beOctets_add]
  refine congrArg₂ (· ++ ·) (beOctets_congr ?_) (beOctets_congr ?_)
  · change m.sz1.toNat % 2 ^ 64 = 8 * msg.length / 2 ^ 64 % 2 ^ 64
    rw [Nat.mod_eq_of_lt hhi]
    generalize 8 * msg.length / 2 ^ 64 % 2 ^ 64 = x at hsplit hhigh ⊢
    omega
  · change m.sz0.toNat % 2 ^ 64 = 8 * msg.length % 2 ^ 64
    rw [Nat.mod_eq_of_lt hlo]
    generalize 8 * msg.length / 2 ^ 64 % 2 ^ 64 = x at hsplit hhigh
    omega

/-- **`SHA512_Final`** gives the digest of what the context has taken in. -/
theorem sha512Final_eq (h : Holds m msg) : sha512Final m = .ok (sha512Digest msg) := by
  have hmod := Nat.mod_lt msg.length (show 0 < 128 by decide)
  have hpadding := padding_eq m ((240 - msg.length % 128 - 1) % 128) (Nat.mod_lt _ (by decide))
  have hpad : 0x80 :: List.replicate ((240 - msg.length % 128 - 1) % 128) 0 = (pad 0x80 0 128 16 msg.length : List UInt8) := by
    have hcount : (msg.length + 1 + 16) % 128 = (msg.length % 128 + 17) % 128 := (Nat.mod_add_mod msg.length 128 17).symm
    rw [pad, hcount]
    generalize msg.length % 128 = x at hmod
    have hzeros : (240 - x - 1) % 128 = (128 - (x + 17) % 128) % 128 := by omega
    rw [hzeros]
  rw [h.bits_eq, hpad] at hpadding
  have hlen : (pad 0x80 0 128 16 msg.length ++ beOctets 16 (8 * msg.length) : List UInt8).length < 2 ^ 61 := by
    have hlt := Nat.mod_lt (240 - msg.length % 128 - 1) (show 0 < 128 by decide)
    rw [← hpad, List.length_append, List.length_cons, List.length_replicate, beOctets_length]
    exact lt_of_le_of_lt (show _ ≤ 144 by omega) (by norm_num)
  obtain ⟨m', hupdate, h'⟩ := sha512Update_holds h _ hlen
  have hcounter : m'.counter = chain 128 sha512Rounds sha512Iv (msg ++ pad 0x80 0 128 16 msg.length ++ beOctets 16 (8 * msg.length)) := by
    rw [List.append_assoc]
    exact h'.absorbing.value
  rw [sha512Final, h.offset, ok_then hpadding, ok_then hupdate, octets_eq, hcounter]
  rfl

/-- **SHA-512.**  Whatever the context held before and however the message is cut into pieces, the digest is that of the
message. -/
theorem sha512_digest (m : SHA512_CTX) (h : m.save.length = 128) (pieces : List (List UInt8))
    (hlen : ∀ p ∈ pieces, p.length < 2 ^ 61) : sha512 m pieces = .ok (sha512Digest pieces.flatten) := by
  obtain ⟨m', hrun, h'⟩ := run_absorbs Holds (fun _ _ d h hd => sha512Update_holds h d hd) pieces (sha512Init m) []
    (sha512Init_holds h) hlen
  rw [sha512, ok_then hrun, sha512Final_eq h', List.nil_append]

theorem sha512_digest_abc : sha512 ⟨0, 0, ⟨0, 0, 0, 0, 0, 0, 0, 0⟩, List.replicate 128 none⟩ [[97], [98, 99]] =
    .ok (beOctets 32 0xddaf35a193617abacc417349ae20413112e6fa4e89a97ea20a9eeee64b55d39a ++
      beOctets 32 0x2192992a274fc1a836ba3c23a3feebbd454d4423643ce80e2a9ac94fa54ca49f) := by
  rw [sha512_digest _ List.length_replicate _ (by simp)]
  decide +kernel

end Sha512

end LibHpack
