import LibHpack.Digest.Md5Rounds

/-!
# LibHpack.Digest.Md5Runs — MD5 over any sequence of updates

`rfc1321 msg` is the digest of a message: it is padded, followed by the number of its bits in eight octets, and folded chunk
by chunk with the plain rounds.  `Md5Holds ctx msg` is the invariant of a context that has taken in `msg`; every
`MD5Update` keeps it, and `MD5Final` turns it into the digest.
-/

namespace LibHpack

open Memory Run Streaming

/-- The digest that the message has. -/
def rfc1321 (msg : List UInt8) : List UInt8 :=
  (chain 64 md5Rounds md5Registers (msg ++ pad 0x80 0 64 8 msg.length ++ leOctets 8 (8 * msg.length))).octets

theorem md5Transform_eq : md5Transform = md5Rounds := funext fun buf => funext fun octets => md5Transform_eq_rounds buf octets

/-- The context has taken in `msg`. -/
structure Md5Holds (ctx : MD5Context) (msg : List UInt8) : Prop where
  absorbing : Absorbing 64 md5Transform md5Iv ctx.buf ctx.inp msg
  bytes : ctx.bytes1.toNat * 2 ^ 32 + ctx.bytes0.toNat = msg.length % 2 ^ 64

variable {ctx : MD5Context} {msg : List UInt8}

theorem md5Init_holds (h : ctx.inp.length = 64) : Md5Holds (md5Init ctx) [] where
  absorbing := .start md5Iv h
  bytes := by
    change 0 * 2 ^ 32 + 0 = 0 % 2 ^ 64
    norm_num

/-- How many octets are pending. -/
theorem Md5Holds.count (h : Md5Holds ctx msg) : (ctx.bytes0 &&& 0x3f).toNat = msg.length % 64 := by
  have hand : (ctx.bytes0 &&& 0x3f).toNat = ctx.bytes0.toNat % 64 := by
    rw [UInt32.toNat_and]
    exact Nat.and_two_pow_sub_one_eq_mod _ 6
  have hbytes := h.bytes
  omega

/-- The counter, with the carry. -/
theorem md5_count {lo hi : UInt32} {n k : ℕ} (hk : k < 2 ^ 32) (h : hi.toNat * 2 ^ 32 + lo.toNat = n % 2 ^ 64) :
    (if lo + UInt32.ofNat k < lo then hi + 1 else hi).toNat * 2 ^ 32 + (lo + UInt32.ofNat k).toNat = (n + k) % 2 ^ 64 := by
  have hk' : (UInt32.ofNat k).toNat = k := UInt32.toNat_ofNat_of_lt hk
  have hsum : (lo + UInt32.ofNat k).toNat = (lo.toNat + k) % 2 ^ 32 := by rw [UInt32.toNat_add, hk']
  have hone : (hi + 1).toNat = (hi.toNat + 1) % 2 ^ 32 := by rw [UInt32.toNat_add, UInt32.toNat_one]
  have hcount := count_carry hk lo.toNat_lt hi.toNat_lt h
  rw [← hsum, ← hone] at hcount
  rw [apply_ite UInt32.toNat]
  exact hcount

/-- **A chunk is full**: what is written ends where the block does. -/
theorem MD5Context.transform_full (ctx : MD5Context) {d : List UInt8} (h : Absorbing 64 md5Transform md5Iv ctx.buf ctx.inp msg)
    (hd : msg.length % 64 + d.length = 64) :
    ∃ v, Absorbing 64 md5Transform md5Iv v (written ctx.inp (msg.length % 64) d) (msg ++ d) ∧
      MD5Context.transform { ctx with inp := written ctx.inp (msg.length % 64) d } =
        .ok { ctx with buf := v, inp := written ctx.inp (msg.length % 64) d } := by
  obtain ⟨hread, habs⟩ := h.store_full (by decide) hd
  refine ⟨_, habs, ?_⟩
  rw [MD5Context.transform, ok_then hread]
  rfl

/-- The loop takes in the whole chunks. -/
theorem md5Loop_absorbing (ctx : MD5Context) (msg buf : List UInt8) (hmod : msg.length % 64 = 0)
    (h : Absorbing 64 md5Transform md5Iv ctx.buf ctx.inp msg) :
    ∃ v m d, md5Loop ctx buf = .ok ({ ctx with buf := v, inp := m }, d) ∧ d.length < 64 ∧
      ∃ x, buf = x ++ d ∧ (msg ++ x).length % 64 = 0 ∧ Absorbing 64 md5Transform md5Iv v m (msg ++ x) := by
  rw [md5Loop]
  split_ifs with hlen
  · have htake : msg.length % 64 + (buf.take 64).length = 64 := by
      rw [hmod, List.length_take]
      omega
    have hstore := h.store_eq htake.le
    obtain ⟨v, habs, htransform⟩ := MD5Context.transform_full ctx h htake
    rw [hmod] at hstore habs htransform
    have hmod' : (msg ++ buf.take 64).length % 64 = 0 := by
      rw [List.length_append, List.length_take]
      omega
    obtain ⟨v', m', d, hloop, hd, x, hx, hxmod, habs'⟩ :=
      md5Loop_absorbing { ctx with buf := v, inp := written ctx.inp 0 (buf.take 64) } (msg ++ buf.take 64) (buf.drop 64)
        hmod' habs
    rw [ok_then hstore, ok_then htransform]
    refine ⟨v', m', d, hloop, hd, buf.take 64 ++ x, ?_, ?_, ?_⟩
    · rw [List.append_assoc, ← hx, List.take_append_drop]
    · rwa [← List.append_assoc]
    · rwa [← List.append_assoc]
  · exact ⟨ctx.buf, ctx.inp, buf, rfl, by omega, [], rfl, by rwa [List.append_nil], by rwa [List.append_nil]⟩
termination_by buf.length
decreasing_by
  rw [List.length_drop]
  omega

/-- **`MD5Update`** takes in any piece. -/
theorem md5Update_holds (h : Md5Holds ctx msg) (buf : List UInt8) (hbuf : buf.length < 2 ^ 32) :
    ∃ ctx', md5Update ctx buf = .ok ctx' ∧ Md5Holds ctx' (msg ++ buf) := by
  have hmod := Nat.mod_lt msg.length (show 0 < 64 by decide)
  have hlen : (UInt32.ofNat buf.length).toNat = buf.length := UInt32.toNat_ofNat_of_lt hbuf
  have hand := h.count
  have ht : (64 - (ctx.bytes0 &&& 0x3f)).toNat = 64 - msg.length % 64 := by
    rw [UInt32.toNat_sub_of_le _ _ (UInt32.le_iff_toNat_le.2 (by rw [hand]; exact hmod.le)), hand]
    rfl
  have ht' : (64 - (64 - (ctx.bytes0 &&& 0x3f))).toNat = msg.length % 64 := by
    rw [UInt32.toNat_sub_of_le _ _ (UInt32.le_iff_toNat_le.2 (by rw [ht]; exact Nat.sub_le ..)), ht]
    change 64 - _ = _
    omega
  have hbytes := md5_count hbuf h.bytes
  rw [← List.length_append] at hbytes
  rw [md5Update]
  dsimp only
  by_cases hlt : UInt32.ofNat buf.length < 64 - (ctx.bytes0 &&& 0x3f)
  · -- the piece fits without filling the block
    have hlt' := hlt
    rw [UInt32.lt_iff_toNat_lt, hlen, ht] at hlt
    have hd : msg.length % 64 + buf.length < 64 := by omega
    rw [if_pos hlt', ht', ok_then (h.absorbing.store_eq hd.le)]
    exact ⟨_, rfl, h.absorbing.store_below hd, hbytes⟩
  · -- the first octets fill the block, then come whole chunks, then the rest
    have hge := hlt
    rw [UInt32.lt_iff_toNat_lt, hlen, ht] at hge
    have hd : msg.length % 64 + (buf.take (64 - msg.length % 64)).length = 64 := by
      rw [List.length_take]
      omega
    obtain ⟨v, habs, htransform⟩ := MD5Context.transform_full { ctx with
      bytes0 := ctx.bytes0 + UInt32.ofNat buf.length
      bytes1 := if ctx.bytes0 + UInt32.ofNat buf.length < ctx.bytes0 then ctx.bytes1 + 1 else ctx.bytes1 }
      h.absorbing hd
    have hmod' : (msg ++ buf.take (64 - msg.length % 64)).length % 64 = 0 := by
      rw [List.length_append]
      omega
    obtain ⟨v', m', d, hloop, hdlt, x, hx, hxmod, habs'⟩ := md5Loop_absorbing { ctx with
      buf := v
      bytes0 := ctx.bytes0 + UInt32.ofNat buf.length
      bytes1 := if ctx.bytes0 + UInt32.ofNat buf.length < ctx.bytes0 then ctx.bytes1 + 1 else ctx.bytes1
      inp := written ctx.inp (msg.length % 64) (buf.take (64 - msg.length % 64)) } _
      (buf.drop (64 - msg.length % 64)) hmod' habs
    have hd' : (msg ++ buf.take (64 - msg.length % 64) ++ x).length % 64 + d.length < 64 := by omega
    have hstore := habs'.store_eq hd'.le
    have hbelow := habs'.store_below hd'
    rw [hxmod] at hstore hbelow
    rw [List.append_assoc, List.append_assoc, ← hx, List.take_append_drop] at hbelow
    rw [if_neg hlt, ht', ht, ok_then (h.absorbing.store_eq hd.le), ok_then htransform, ok_then hloop, ok_then hstore]
    exact ⟨_, rfl, hbelow, hbytes⟩

/-! ### The end of the message -/

/-- The two words of the counter are the number of bits. -/
theorem Md5Holds.bits (h : Md5Holds ctx msg) :
    leOctets 4 (ctx.bytes0 <<< 3).toNat ++ leOctets 4 ((ctx.bytes1 <<< 3) ||| (ctx.bytes0 >>> 29)).toNat =
      leOctets 8 (8 * msg.length) := by
  have hlo := ctx.bytes0.toNat_lt
  have hlow : (ctx.bytes0 <<< 3).toNat = 8 * ctx.bytes0.toNat % 2 ^ 32 := by
    rw [UInt32.toNat_shiftLeft]
    change ctx.bytes0.toNat <<< 3 % 2 ^ 32 = _
    rw [Nat.shiftLeft_eq, Nat.mul_comm]
  have hhigh : ((ctx.bytes1 <<< 3) ||| (ctx.bytes0 >>> 29)).toNat % 2 ^ 32 =
      (8 * ctx.bytes1.toNat + ctx.bytes0.toNat / 2 ^ 29) % 2 ^ 32 := by
    rw [UInt32.toNat_or, UInt32.toNat_shiftLeft, UInt32.toNat_shiftRight]
    change (ctx.bytes1.toNat <<< 3 % 2 ^ 32 ||| ctx.bytes0.toNat >>> 29) % 2 ^ 32 = _
    have hshift : ctx.bytes1.toNat <<< 3 % 2 ^ 32 = (ctx.bytes1.toNat % 2 ^ 29) <<< 3 := by
      rw [Nat.shiftLeft_eq, Nat.shiftLeft_eq]
      omega
    rw [hshift, Nat.shiftRight_eq_div_pow, ← Nat.shiftLeft_add_eq_or_of_lt (show ctx.bytes0.toNat / 2 ^ 29 < 2 ^ 3 by omega),
      Nat.shiftLeft_eq]
    omega
  have hbytes := h.bytes
  rw [show (8 : ℕ) = 4 + 4 from rfl, leOctets_add 4 4]
  refine congrArg₂ (· ++ ·) (leOctets_congr ?_) (leOctets_congr ?_)
  · rw [hlow]
    change _ % 2 ^ 32 % 2 ^ 32 = (4 + 4) * msg.length % 2 ^ 32
    omega
  · change _ % 2 ^ 32 = (4 + 4) * msg.length / 2 ^ 32 % 2 ^ 32
    rw [hhigh]
    omega

theorem MD5Context.zeros_eq (ctx : MD5Context) {m : Block UInt8} {d : List UInt8} {i p n : ℕ} (hm : ctx.inp = written m i d)
    (hp : p = i + d.length) (hn : p + n ≤ m.length) :
    ctx.zeros p n = .ok { ctx with inp := written m i (d ++ List.replicate n 0) } := by
  have hstore : store ctx.inp p ((List.replicate n 0).map some) = .ok (written m i (d ++ List.replicate n 0)) := by
    rw [hm]
    exact store_behind hp (by rw [List.length_replicate]; omega)
  rw [zeros, ok_then hstore]
  rfl

theorem MD5Context.finish_eq (ctx : MD5Context) {m : Block UInt8} {d : List UInt8} {p n : ℕ} (len : ℕ)
    (h : Absorbing 64 md5Transform md5Iv ctx.buf m msg) (hm : ctx.inp = written m (msg.length % 64) d)
    (hp : p = msg.length % 64 + d.length) (hn : p + n = 56)
    (hbits : leOctets 4 (ctx.bytes0 <<< 3).toNat ++ leOctets 4 ((ctx.bytes1 <<< 3) ||| (ctx.bytes0 >>> 29)).toNat =
      leOctets 8 (8 * len)) :
    ctx.finish p n = .ok (chain 64 md5Transform md5Iv (msg ++ d ++ List.replicate n 0 ++ leOctets 8 (8 * len))).octets := by
  have hsize := h.size
  have hd := pending_length 64 msg
  have hzeros := zeros_eq ctx (n := n) hm hp (by omega)
  have hword : ∀ (e : List UInt8) (i : ℕ) (w : UInt32), 4 * i = msg.length % 64 + e.length → i < 16 →
      putWord { ctx with inp := written m (msg.length % 64) e } i w =
        .ok { ctx with inp := written m (msg.length % 64) (e ++ leOctets 4 w.toNat) } := by
    intro e i w he hi
    rw [putWord, ok_then (store_behind he (by rw [leOctets_length]; omega))]
    rfl
  have h14 := hword (d ++ List.replicate n (0 : UInt8)) 14 (ctx.bytes0 <<< 3) (by simp; omega) (by decide)
  have h15 := hword (d ++ List.replicate n (0 : UInt8) ++ leOctets 4 (ctx.bytes0 <<< 3).toNat) 15
    ((ctx.bytes1 <<< 3) ||| (ctx.bytes0 >>> 29)) (by simp; omega) (by decide)
  have hfull : msg.length % 64 + (d ++ List.replicate n 0 ++ leOctets 8 (8 * len)).length = 64 := by
    simp
    omega
  obtain ⟨v, habs, htransform⟩ := transform_full { ctx with inp := m } h hfull
  have hv := habs.value
  rw [← List.append_assoc, ← List.append_assoc] at hv
  rw [finish, ok_then hzeros, ok_then h14, ok_then h15, List.append_assoc _ (leOctets 4 _), hbits, ok_then htransform, ← hv]
  rfl

/-- **`MD5Final`** gives the digest of what the context has taken in. -/
theorem md5Final_eq (h : Md5Holds ctx msg) : md5Final ctx = .ok (rfc1321 msg) := by
  have hmod := Nat.mod_lt msg.length (show 0 < 64 by decide)
  have hsize := h.absorbing.size
  have hmark : store ctx.inp (msg.length % 64) [some 0x80] = .ok (written ctx.inp (msg.length % 64) [0x80]) :=
    h.absorbing.store_eq (d := [0x80]) (by simp; omega)
  rw [md5Final]
  dsimp only
  rw [h.count, ok_then hmark]
  by_cases hlt : (56 : ℤ) - 1 - (msg.length % 64 : ℕ) < 0
  · -- the mark and some zeros fill the block; the rest of the padding is in the next one
    obtain ⟨z, hz, hk⟩ : ∃ z, ((56 : ℤ) - 1 - (msg.length % 64 : ℕ) + 8).toNat = z ∧ msg.length % 64 + 1 + z = 64 :=
      ⟨_, rfl, by omega⟩
    have hfull : msg.length % 64 + ([0x80] ++ List.replicate z 0 : List UInt8).length = 64 := by
      simp
      omega
    have hzeros := MD5Context.zeros_eq { ctx with inp := written ctx.inp (msg.length % 64) [0x80] }
      (p := msg.length % 64 + 1) (n := z) rfl rfl (by omega)
    obtain ⟨v, habs, htransform⟩ := MD5Context.transform_full ctx h.absorbing hfull
    have hmod' : (msg ++ ([0x80] ++ List.replicate z 0)).length % 64 = 0 := by
      rw [List.length_append]
      omega
    have hfinish := MD5Context.finish_eq (p := 0) (n := 56) (d := []) { ctx with
      buf := v, inp := written ctx.inp (msg.length % 64) ([0x80] ++ List.replicate z 0) } msg.length habs
      (written_nil _ _).symm (by rw [hmod']; rfl) rfl h.bits
    have hpad : pad 0x80 0 64 8 msg.length = ([0x80] ++ List.replicate z 0 ++ List.replicate 56 0 : List UInt8) := by
      rw [pad, List.append_assoc, List.replicate_append_replicate, List.singleton_append]
      congr 2
      omega
    rw [if_pos hlt, hz, ok_then hzeros, ok_then htransform, hfinish, rfc1321, hpad, md5Transform_eq, md5Iv_eq, List.append_nil]
    simp only [List.append_assoc]
  · -- there is room for all of it
    obtain ⟨z, hz, hk⟩ : ∃ z, ((56 : ℤ) - 1 - (msg.length % 64 : ℕ)).toNat = z ∧ msg.length % 64 + 1 + z = 56 :=
      ⟨_, rfl, by omega⟩
    have hpad : pad 0x80 0 64 8 msg.length = ([0x80] ++ List.replicate z 0 : List UInt8) := by
      rw [pad, List.singleton_append]
      congr 2
      omega
    have hfinish := MD5Context.finish_eq (p := msg.length % 64 + 1) (d := [0x80])
      { ctx with inp := written ctx.inp (msg.length % 64) [0x80] } msg.length h.absorbing rfl rfl hk h.bits
    rw [if_neg hlt, hz, hfinish, rfc1321, hpad, md5Transform_eq, md5Iv_eq]
    simp only [List.append_assoc]

/-- **MD5.**  Whatever the context held before and however the message is cut into pieces, the digest is that of the
message, no octet outside of the context is touched and none is read before it has been written. -/
theorem md5_digest (ctx : MD5Context) (h : ctx.inp.length = 64) (pieces : List (List UInt8))
    (hlen : ∀ p ∈ pieces, p.length < 2 ^ 32) : md5 ctx pieces = .ok (rfc1321 pieces.flatten) := by
  obtain ⟨ctx', hrun, h'⟩ := run_absorbs Md5Holds (fun _ _ d h hd => md5Update_holds h d hd) pieces (md5Init ctx) []
    (md5Init_holds h) hlen
  rw [md5, ok_then hrun, md5Final_eq h', List.nil_append]

theorem md5_digest_abc : md5 ⟨⟨0, 0, 0, 0⟩, 0, 0, List.replicate 64 none⟩ [[97], [98, 99]] =
    .ok [0x90, 0x01, 0x50, 0x98, 0x3c, 0xd2, 0x4f, 0xb0, 0xd6, 0x96, 0x3f, 0x7d, 0x28, 0xe1, 0x7f, 0x72] := by
  rw [md5_digest _ (by decide) _ (by decide)]
  decide +kernel

end LibHpack
