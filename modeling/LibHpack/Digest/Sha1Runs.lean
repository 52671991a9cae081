import LibHpack.Digest.Sha1Rounds

/-!
# LibHpack.Digest.Sha1Runs — SHA-1 over any sequence of updates

`sha1Digest msg` is the digest of a message by the plain algorithm, and `Sha1Holds info msg` the invariant of a `SHA_INFO`
that has taken in `msg`.
-/

namespace LibHpack

open Memory Run Streaming

def sha1Iv : Sha1Words := ⟨0x67452301, 0xefcdab89, 0x98badcfe, 0x10325476, 0xc3d2e1f0⟩

def Sha1Words.octets (v : Sha1Words) : List UInt8 :=
  beOctets 4 v.a.toNat ++ beOctets 4 v.b.toNat ++ beOctets 4 v.c.toNat ++ beOctets 4 v.d.toNat ++ beOctets 4 v.e.toNat

/-- The digest that the message has. -/
def sha1Digest (msg : List UInt8) : List UInt8 :=
  (chain 64 sha1Rounds sha1Iv (msg ++ pad 0x80 0 64 8 msg.length ++ beOctets 8 (8 * msg.length))).octets

/-- The context has taken in `msg`. -/
structure Sha1Holds (info : ShaInfo) (msg : List UInt8) : Prop where
  absorbing : ∃ v, info.digest = Sha1Words.widen v ∧ Absorbing 64 sha1Rounds sha1Iv v info.data msg
  pending : info.dlocal = msg.length % 64
  low : info.countLo.toNat = 8 * msg.length % 2 ^ 32
  high : info.countHi.toNat % 2 ^ 32 = 8 * msg.length / 2 ^ 32 % 2 ^ 32

variable {info : ShaInfo} {msg : List UInt8} {v : Sha1Words}

theorem shaInit_holds (h : info.data.length = 64) : Sha1Holds (shaInit info) [] where
  absorbing := ⟨sha1Iv, rfl, .start sha1Iv h⟩
  pending := rfl
  low := rfl
  high := rfl

/-- The counter. -/
theorem sha1_count {lo hi : UInt64} {n k : ℕ} (hk : k < 2 ^ 31) (hlo : lo.toNat = 8 * n % 2 ^ 32)
    (hhi : hi.toNat % 2 ^ 32 = 8 * n / 2 ^ 32 % 2 ^ 32) :
    (T32 (lo + UInt64.ofNat k <<< 3)).toNat = 8 * (n + k) % 2 ^ 32 ∧
      ((if T32 (lo + UInt64.ofNat k <<< 3) < lo then hi + 1 else hi) + UInt64.ofNat k >>> 29).toNat % 2 ^ 32 =
        8 * (n + k) / 2 ^ 32 % 2 ^ 32 := by
  have hval : (UInt64.ofNat k).toNat = k := UInt64.toNat_ofNat_of_lt' (by rw [UInt64.size]; omega)
  have hleft : (UInt64.ofNat k <<< 3).toNat = 8 * k := by
    rw [UInt64.toNat_shiftLeft, hval]
    change k <<< 3 % 2 ^ 64 = 8 * k
    rw [Nat.shiftLeft_eq]
    omega
  have hright : (UInt64.ofNat k >>> 29).toNat = k / 2 ^ 29 := by
    rw [UInt64.toNat_shiftRight, hval]
    change k >>> 29 = _
    rw [Nat.shiftRight_eq_div_pow]
  have hsum : (T32 (lo + UInt64.ofNat k <<< 3)).toNat = (lo.toNat + 8 * k) % 2 ^ 32 := by
    rw [T32_eq, UInt32.toNat_toUInt64, UInt64.toNat_toUInt32, UInt64.toNat_add, hleft]
    exact Nat.mod_mod_of_dvd _ (by norm_num)
  have hcarried : T32 (lo + UInt64.ofNat k <<< 3) < lo ↔ (lo.toNat + 8 * k) % 2 ^ 32 < lo.toNat := by
    rw [UInt64.lt_iff_toNat_lt, hsum]
  have hadd : ∀ x y : UInt64, (x + y).toNat % 2 ^ 32 = (x.toNat % 2 ^ 32 + y.toNat) % 2 ^ 32 := fun x y => by
    rw [UInt64.toNat_add, Nat.mod_mod_of_dvd _ (by norm_num), Nat.mod_add_mod]
  refine ⟨by rw [hsum, hlo]; omega, ?_⟩
  rw [hadd, hright]
  by_cases hcarry : 2 ^ 32 ≤ lo.toNat + 8 * k % 2 ^ 32
  · have hdiv : 8 * (n + k) / 2 ^ 32 = 8 * n / 2 ^ 32 + 1 + k / 2 ^ 29 := by omega
    rw [if_pos (hcarried.2 (by omega)), hadd, hhi, hdiv, Nat.mod_add_mod, UInt64.toNat_one, Nat.add_assoc,
      Nat.mod_add_mod, ← Nat.add_assoc]
  · have hdiv : 8 * (n + k) / 2 ^ 32 = 8 * n / 2 ^ 32 + k / 2 ^ 29 := by omega
    rw [if_neg (mt hcarried.1 (by omega)), hhi, hdiv, Nat.mod_add_mod]

/-- **A chunk is full.** -/
theorem ShaInfo.transform_full (info : ShaInfo) {d : List UInt8} (hv : info.digest = v.widen)
    (h : Absorbing 64 sha1Rounds sha1Iv v info.data msg) (hd : msg.length % 64 + d.length = 64) :
    ∃ w, Absorbing 64 sha1Rounds sha1Iv w (written info.data (msg.length % 64) d) (msg ++ d) ∧
      ∀ n, ShaInfo.transform { info with data := written info.data (msg.length % 64) d, dlocal := n } =
        .ok { info with digest := w.widen, data := written info.data (msg.length % 64) d, dlocal := n } := by
  obtain ⟨hread, habs⟩ := h.store_full (by decide) hd
  exact ⟨_, habs, fun n => transform_eq hread habs.size hv⟩

/-- The loop takes in the whole chunks and the rest. -/
theorem shaLoop_absorbing (info : ShaInfo) (v : Sha1Words) (msg buffer : List UInt8) (hmod : msg.length % 64 = 0)
    (hv : info.digest = v.widen) (h : Absorbing 64 sha1Rounds sha1Iv v info.data msg) :
    ∃ w m, shaLoop info buffer = .ok { info with digest := w.widen, data := m, dlocal := (msg ++ buffer).length % 64 } ∧
      Absorbing 64 sha1Rounds sha1Iv w m (msg ++ buffer) := by
  rw [shaLoop]
  split_ifs with hlen
  · have htake : msg.length % 64 + (buffer.take 64).length = 64 := by
      rw [hmod, List.length_take]
      omega
    have hstore := h.store_eq htake.le
    obtain ⟨w, habs, htransform⟩ := ShaInfo.transform_full info hv h htake
    rw [hmod] at hstore habs htransform
    have hmod' : (msg ++ buffer.take 64).length % 64 = 0 := by
      rw [List.length_append, List.length_take]
      omega
    obtain ⟨w', m', hloop, habs'⟩ := shaLoop_absorbing { info with
      digest := w.widen, data := written info.data 0 (buffer.take 64) } w (msg ++ buffer.take 64) (buffer.drop 64) hmod' rfl
      habs
    rw [List.append_assoc, List.take_append_drop] at hloop habs'
    rw [ok_then hstore, ok_then (htransform info.dlocal)]
    exact ⟨w', m', hloop, habs'⟩
  · have hd : msg.length % 64 + buffer.length < 64 := by omega
    have hlocal : (msg ++ buffer).length % 64 = buffer.length := by
      rw [List.length_append]
      omega
    have hstore := h.store_eq hd.le
    have hbelow := h.store_below hd
    rw [hmod] at hstore hbelow
    rw [ok_then hstore, hlocal]
    exact ⟨v, _, by rw [← hv]; rfl, hbelow⟩
termination_by buffer.length
decreasing_by
  rw [List.length_drop]
  omega

/-- **`sha_update`** takes in any piece. -/
theorem shaUpdate_holds (h : Sha1Holds info msg) (buffer : List UInt8) (hbuf : buffer.length < 2 ^ 31) :
    ∃ info', shaUpdate info buffer = .ok info' ∧ Sha1Holds info' (msg ++ buffer) := by
  obtain ⟨v, hv, habs⟩ := h.absorbing
  have hmod := Nat.mod_lt msg.length (show 0 < 64 by decide)
  obtain ⟨hlow, hhigh⟩ := sha1_count hbuf h.low h.high
  rw [← List.length_append] at hlow hhigh
  rw [shaUpdate]
  dsimp only
  by_cases hlocal : info.dlocal = 0
  · -- nothing is pending
    obtain ⟨w, m, hloop, habs'⟩ := shaLoop_absorbing { info with
      countLo := T32 (info.countLo + UInt64.ofNat buffer.length <<< 3)
      countHi := (if T32 (info.countLo + UInt64.ofNat buffer.length <<< 3) < info.countLo then info.countHi + 1
        else info.countHi) + UInt64.ofNat buffer.length >>> 29 } v msg buffer (h.pending ▸ hlocal) hv habs
    rw [if_neg (not_not.2 hlocal), hloop]
    exact ⟨_, rfl, ⟨w, rfl, habs'⟩, rfl, hlow, hhigh⟩
  · rw [if_pos hlocal, h.pending]
    by_cases hfits : msg.length % 64 + buffer.length < 64
    · -- the piece fits without filling the block
      have hmin : min (64 - msg.length % 64) buffer.length = buffer.length := by omega
      have hpending : (msg ++ buffer).length % 64 = msg.length % 64 + buffer.length := by
        rw [List.length_append]
        omega
      rw [hmin, List.take_length, ok_then (habs.store_eq hfits.le), if_neg (by omega)]
      exact ⟨_, rfl, ⟨v, hv, habs.store_below hfits⟩, hpending.symm, hlow, hhigh⟩
    · -- its first octets fill the block
      have hmin : min (64 - msg.length % 64) buffer.length = 64 - msg.length % 64 := by omega
      have hd : msg.length % 64 + (buffer.take (64 - msg.length % 64)).length = 64 := by
        rw [List.length_take]
        omega
      obtain ⟨w, habs', htransform⟩ := ShaInfo.transform_full { info with
        countLo := T32 (info.countLo + UInt64.ofNat buffer.length <<< 3)
        countHi := (if T32 (info.countLo + UInt64.ofNat buffer.length <<< 3) < info.countLo then info.countHi + 1
          else info.countHi) + UInt64.ofNat buffer.length >>> 29 } hv habs hd
      have hmod' : (msg ++ buffer.take (64 - msg.length % 64)).length % 64 = 0 := by
        rw [List.length_append]
        omega
      obtain ⟨w', m', hloop, habs''⟩ := shaLoop_absorbing { info with
        digest := w.widen
        countLo := T32 (info.countLo + UInt64.ofNat buffer.length <<< 3)
        countHi := (if T32 (info.countLo + UInt64.ofNat buffer.length <<< 3) < info.countLo then info.countHi + 1
          else info.countHi) + UInt64.ofNat buffer.length >>> 29
        data := written info.data (msg.length % 64) (buffer.take (64 - msg.length % 64))
        dlocal := msg.length % 64 + (64 - msg.length % 64) } w _ (buffer.drop (64 - msg.length % 64)) hmod' rfl habs'
      rw [List.append_assoc, List.take_append_drop] at hloop habs''
      rw [hmin, ok_then (habs.store_eq hd.le), if_pos (by omega), ok_then (htransform _), hloop]
      exact ⟨_, rfl, ⟨w', rfl, habs''⟩, rfl, hlow, hhigh⟩

/-! ### The end of the message -/

theorem shaOctets_eq (x : UInt64) : shaOctets x = beOctets 4 x.toNat := by
  have h0 : x &&& (0xff : UInt64) = (x >>> 0) &&& (0xff : UInt64) := by rw [UInt64.shiftRight_zero]
  rw [shaOctets, toUInt8_eq x 3 rfl (by decide), toUInt8_eq x 2 rfl (by decide), toUInt8_eq x 1 rfl (by decide), h0,
    toUInt8_eq x 0 rfl (by decide)]
  simp [beOctets, leOctets, Nat.div_div_eq_div_mul]

/-- The two words of the counter are the number of bits. -/
theorem Sha1Holds.bits (h : Sha1Holds info msg) :
    shaOctets info.countHi ++ shaOctets info.countLo = beOctets 8 (8 * msg.length) := by
  rw [shaOctets_eq, shaOctets_eq, show beOctets 8 = beOctets (4 + 4) from rfl, beOctets_add]
  refine congrArg₂ (· ++ ·) (beOctets_congr ?_) (beOctets_congr ?_)
  · exact h.high
  · rw [h.low]
    exact Nat.mod_mod ..

theorem Sha1Holds.count (h : Sha1Holds info msg) : ((info.countLo >>> 3) &&& 0x3f).toNat = msg.length % 64 := by
  rw [UInt64.toNat_and, UInt64.toNat_shiftRight, h.low]
  change (8 * msg.length % 2 ^ 32) >>> 3 &&& (2 ^ 6 - 1) = _
  rw [Nat.and_two_pow_sub_one_eq_mod, Nat.shiftRight_eq_div_pow]
  omega

theorem ShaInfo.zeros_eq (info : ShaInfo) {m : Block UInt8} {d : List UInt8} {i p n : ℕ} (hm : info.data = written m i d)
    (hp : p = i + d.length) (hn : p + n ≤ m.length) :
    info.zeros p n = .ok { info with data := written m i (d ++ List.replicate n 0) } := by
  have hstore : store info.data p ((List.replicate n 0).map some) = .ok (written m i (d ++ List.replicate n 0)) := by
    rw [hm]
    exact store_behind hp (by rw [List.length_replicate]; omega)
  rw [zeros, ok_then hstore]
  rfl

/-- The length and the last chunk. -/
theorem ShaInfo.finish_eq (info : ShaInfo) {m : Block UInt8} {d : List UInt8} (len : ℕ) (hv : info.digest = v.widen)
    (h : Absorbing 64 sha1Rounds sha1Iv v m msg) (hm : info.data = written m (msg.length % 64) d)
    (hd : msg.length % 64 + d.length = 56)
    (hbits : shaOctets info.countHi ++ shaOctets info.countLo = beOctets 8 (8 * len)) :
    info.finish = .ok (chain 64 sha1Rounds sha1Iv (msg ++ d ++ beOctets 8 (8 * len))).octets := by
  have hsize := h.size
  have hlen : ∀ x, (shaOctets x).length = 4 := fun _ => rfl
  have hhi : store info.data 56 ((shaOctets info.countHi).map some) =
      .ok (written m (msg.length % 64) (d ++ shaOctets info.countHi)) := by
    rw [hm]
    exact store_behind hd.symm (by rw [hlen]; omega)
  have hlo : store (written m (msg.length % 64) (d ++ shaOctets info.countHi)) 60 ((shaOctets info.countLo).map some) =
      .ok (written m (msg.length % 64) (d ++ shaOctets info.countHi ++ shaOctets info.countLo)) :=
    store_behind (by rw [List.length_append, hlen]; omega) (by rw [List.length_append, hlen, hlen]; omega)
  have hfull : msg.length % 64 + (d ++ beOctets 8 (8 * len)).length = 64 := by
    rw [List.length_append, beOctets_length]
    omega
  obtain ⟨w, habs, htransform⟩ := transform_full { info with data := m } hv h hfull
  have hw := habs.value
  rw [← List.append_assoc] at hw
  rw [finish, ok_then hhi, ok_then hlo, List.append_assoc d, hbits, ok_then (htransform info.dlocal), ← hw]
  dsimp only [Sha1Words.widen]
  simp only [shaOctets_eq, UInt32.toNat_toUInt64]
  rfl

/-- **`sha_final`** gives the digest of what the context has taken in. -/
theorem shaFinal_eq (h : Sha1Holds info msg) : shaFinal info = .ok (sha1Digest msg) := by
  obtain ⟨v, hv, habs⟩ := h.absorbing
  have hmod := Nat.mod_lt msg.length (show 0 < 64 by decide)
  have hsize := habs.size
  have hmark : store info.data (msg.length % 64) [some 0x80] = .ok (written info.data (msg.length % 64) [0x80]) :=
    habs.store_eq (d := [0x80]) (by simp; omega)
  rw [shaFinal]
  dsimp only
  rw [h.count, ok_then hmark]
  by_cases hlt : 56 < msg.length % 64 + 1
  · -- the mark and some zeros fill the block; the rest of the padding is in the next one
    obtain ⟨z, hz, hk⟩ : ∃ z, 64 - (msg.length % 64 + 1) = z ∧ msg.length % 64 + 1 + z = 64 := ⟨_, rfl, by omega⟩
    have hfull : msg.length % 64 + ([0x80] ++ List.replicate z 0 : List UInt8).length = 64 := by
      simp
      omega
    have hzeros := ShaInfo.zeros_eq { info with data := written info.data (msg.length % 64) [0x80] }
      (p := msg.length % 64 + 1) (n := z) rfl rfl (by omega)
    obtain ⟨w, habs', htransform⟩ := ShaInfo.transform_full info hv habs hfull
    have hmod' : (msg ++ ([0x80] ++ List.replicate z 0)).length % 64 = 0 := by
      rw [List.length_append]
      omega
    have hzeros' := ShaInfo.zeros_eq { info with
      digest := w.widen, data := written info.data (msg.length % 64) ([0x80] ++ List.replicate z 0) }
      (p := 0) (n := 56) (d := []) (i := 0) (written_nil _ _).symm rfl (by rw [habs'.size]; decide)
    have hfinish := ShaInfo.finish_eq (d := List.replicate 56 0) { info with
      digest := w.widen
      data := written (written info.data (msg.length % 64) ([0x80] ++ List.replicate z 0)) 0 (List.replicate 56 0) }
      msg.length rfl habs' (by rw [hmod']) (by rw [hmod']; rfl) h.bits
    have hpad : pad 0x80 0 64 8 msg.length = ([0x80] ++ List.replicate z 0 ++ List.replicate 56 0 : List UInt8) := by
      rw [pad, List.append_assoc, List.replicate_append_replicate, List.singleton_append]
      congr 2
      omega
    rw [if_pos hlt, hz, ok_then hzeros, ok_then (htransform info.dlocal), ok_then hzeros', List.nil_append, hfinish,
      sha1Digest, hpad]
    simp only [List.append_assoc]
  · -- there is room for all of it
    obtain ⟨z, hz, hk⟩ : ∃ z, 56 - (msg.length % 64 + 1) = z ∧ msg.length % 64 + 1 + z = 56 := ⟨_, rfl, by omega⟩
    have hzeros := ShaInfo.zeros_eq { info with data := written info.data (msg.length % 64) [0x80] }
      (p := msg.length % 64 + 1) (n := z) rfl rfl (by omega)
    have hfinish := ShaInfo.finish_eq (d := [0x80] ++ List.replicate z 0)
      { info with data := written info.data (msg.length % 64) ([0x80] ++ List.replicate z 0) } msg.length hv habs
      rfl (by simp; omega) h.bits
    have hpad : pad 0x80 0 64 8 msg.length = ([0x80] ++ List.replicate z 0 : List UInt8) := by
      rw [pad, List.singleton_append]
      congr 2
      omega
    rw [if_neg hlt, hz, ok_then hzeros, hfinish, sha1Digest, hpad]

end LibHpack
