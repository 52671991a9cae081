import LibHpack.HeaderTable.Model

/-!
# LibHpack.HeaderTable.Copy — what the copies in and out of the data ring do

The write path (`headerDataAdd`) splits at the end of the ring, so it is a `Ring.scatter`.  The read path
(`headerDataCopy`) splits where `HPACK_CB_HEADER_DATA_SIZE - offset - head` says, which is the end of the ring only
when `head` is 0.  `InPlace h p k n` is the exact condition on the positions under which the first `k` octets of a read
of `n` octets at `p`, with the head at `h`, still come from where they are stored, and nothing is read outside of the
array.
-/

namespace LibHpack

open LibHpack.Ring

@[simp] theorem cbMask_eq (x : ℤ) (size : ℕ) : cbMask x size = (x % size).toNat := rfl

@[simp] theorem headerCbMove_data (cb inc : ℕ) : headerCbMove cb inc 4096 = (cb + inc) % 4096 :=
  Nat.and_two_pow_sub_one_eq_mod (cb + inc) 12

@[simp] theorem headerCbMove_offs (cb inc : ℕ) : headerCbMove cb inc 128 = (cb + inc) % 128 :=
  Nat.and_two_pow_sub_one_eq_mod (cb + inc) 7

/-! ### Reads -/

/-- The first `k` of `n` octets read at `p` with the head at `h` are the ones stored there. -/
def InPlace (h p k n : ℕ) : Prop := h = 0 ∨ p + h + k ≤ 4096 ∨ (4096 < p + h ∧ p + n ≤ 4096)

instance (h p k n : ℕ) : Decidable (InPlace h p k n) := by unfold InPlace; infer_instance

theorem memRead_eq_gather {m : ℕ → UInt8} {p n : ℕ} (h : p + n ≤ 4096) :
    memRead m 4096 p n = .ok (gather m 4096 p n) := by
  rw [memRead, if_pos h, gather_of_le h]

/-- The copy up to the computed split, and from the start of the ring after it. -/
theorem headerDataCopy_eq {h : HeadersDataCb} {p n : ℕ} (hn : n ≤ 4096)
    (hp : p + min (headerDataToEnd h p) n ≤ 4096) :
    headerDataCopy h p n = .ok (gather h.buffer 4096 p (min (headerDataToEnd h p) n) ++
      gather h.buffer 4096 0 (n - headerDataToEnd h p)) := by
  simp only [headerDataCopy, memRead_eq_gather hp, ok_bind]
  by_cases hlt : headerDataToEnd h p < n
  · rw [if_pos hlt, memRead_eq_gather (by omega), ok_bind]
    rfl
  · rw [if_neg hlt, show n - headerDataToEnd h p = 0 by omega, gather_zero, List.append_nil]
    rfl

/-- **The reads that are in place.** -/
theorem headerDataCopy_inPlace {h : HeadersDataCb} {p k n : ℕ} (hh : h.head < 4096) (hp : p < 4096) (hn : n ≤ 4096)
    (hk : k ≤ n) (hin : InPlace h.head p k n) :
    ∃ bs, headerDataCopy h p n = .ok bs ∧ bs.length = n ∧
      bs.take k = (gather h.buffer 4096 p n).take k := by
  by_cases h0 : h.head = 0
  · -- the split is the end of the ring
    have hend : headerDataToEnd h p = 4096 - p := by simp only [headerDataToEnd, h0]; omega
    refine ⟨_, headerDataCopy_eq hn (by omega), by simp; omega, ?_⟩
    have hsplit : gather h.buffer 4096 p n = gather h.buffer 4096 p (min (headerDataToEnd h p) n) ++
        gather h.buffer 4096 0 (n - headerDataToEnd h p) := by
      by_cases hlt : headerDataToEnd h p < n
      · have hwrap := gather_add (m := h.buffer) (N := 4096) (p := p) (n := headerDataToEnd h p)
          (n - headerDataToEnd h p)
        rw [show headerDataToEnd h p + (n - headerDataToEnd h p) = n by omega] at hwrap
        rw [hwrap, Nat.min_eq_left hlt.le, ← gather_mod (p := p + headerDataToEnd h p),
          show (p + headerDataToEnd h p) % 4096 = 0 by omega]
      · rw [show n - headerDataToEnd h p = 0 by omega, Nat.min_eq_right (by omega), gather_zero, List.append_nil]
    rw [← hsplit]
  · -- the first `k` octets are before the split
    have hend : k ≤ headerDataToEnd h p ∧ p + min (headerDataToEnd h p) n ≤ 4096 := by
      simp only [headerDataToEnd]
      rcases hin with h1 | h1 | h1 <;> omega
    refine ⟨_, headerDataCopy_eq hn hend.2, by simp; omega, ?_⟩
    have hmin : k ≤ min (headerDataToEnd h p) n := by omega
    have hsplit := gather_add (m := h.buffer) (N := 4096) (p := p) (n := min (headerDataToEnd h p) n)
      (n - min (headerDataToEnd h p) n)
    rw [show min (headerDataToEnd h p) n + (n - min (headerDataToEnd h p) n) = n by omega] at hsplit
    rw [hsplit, List.take_append_of_le_length (by simpa using hmin),
      List.take_append_of_le_length (by simpa using hmin)]

theorem headerDataCopy_all {h : HeadersDataCb} {p n : ℕ} (hh : h.head < 4096) (hp : p < 4096) (hn : n ≤ 4096)
    (hin : InPlace h.head p n n) : headerDataCopy h p n = .ok (gather h.buffer 4096 p n) := by
  obtain ⟨bs, h1, h2, h3⟩ := headerDataCopy_inPlace hh hp hn le_rfl hin
  rw [List.take_of_length_le h2.le, List.take_of_length_le (by simp)] at h3
  rw [h1, h3]

theorem headerDataGet_eq {h : HeadersDataCb} {p n : ℕ} {bs : List UInt8} (hn : n ≤ 4096)
    (hbs : headerDataCopy h p n = .ok bs) : headerDataGet h p n = .ok (.ok, bs) := by
  rw [headerDataGet, if_neg (by omega), hbs]
  rfl

theorem headerDataGetChula_eq {h : HeadersDataCb} {p n : ℕ} {bs : List UInt8} (dst : ChulaBuffer) (hn : n ≤ 4096)
    (hbs : headerDataCopy h p n = .ok bs) : headerDataGetChula h p dst n = .ok (.ok, chulaBufferAdd dst bs) := by
  rw [headerDataGetChula, if_neg (by omega), hbs]
  rfl

/-! ### Writes -/

theorem headerDataFree_eq {h : HeadersDataCb} {u : ℕ} (hu : u < 4096) (ht : h.tail = (h.head + u) % 4096) :
    headerDataFree h = 4095 - u := by
  simp only [headerDataFree, cbMask_eq, ht]
  omega

/-- A write that fits goes round the ring. -/
theorem headerDataAdd_eq {h : HeadersDataCb} {u n : ℕ} {bs : List UInt8} (ht : h.tail = (h.head + u) % 4096)
    (hn : bs.length = n) (hfit : u + n ≤ 4095) :
    headerDataAdd h (some bs) n = (.ok, { h with
      buffer := scatter h.buffer 4096 h.tail bs, tail := (h.tail + n) % 4096 }) := by
  have htail : h.tail < 4096 := by rw [ht]; exact Nat.mod_lt _ (by decide)
  have hfree : ¬ headerDataFree h < n := by rw [headerDataFree_eq (u := u) (by omega) ht]; omega
  simp only [headerDataAdd, if_neg hfree, headerCbMove_data, List.take_of_length_le hn.le]
  rw [blit_blit_eq_scatter htail (by omega)]

theorem headerOffsAdd_eq {o : HeadersOffsCb} {n x : ℕ} (ht : o.tail = (o.head + n) % 128)
    (hn : n < 127) :
    headerOffsAdd o x = (.ok, { o with
      buffer := Function.update o.buffer o.tail x, tail := (o.tail + 1) % 128 }) := by
  have hfree : ¬ headerOffsetsFree o < 1 := by
    simp only [headerOffsetsFree, cbMask_eq, ht]
    omega
  simp only [headerOffsAdd, if_neg hfree, headerCbMove_offs]

theorem headerOffsIsFull_eq {o : HeadersOffsCb} {n : ℕ} (ht : o.tail = (o.head + n) % 128)
    (hn : n < 127) : headerOffsIsFull o = false := by
  simp only [headerOffsIsFull, cbMask_eq, ht, beq_eq_false_iff_ne]
  omega

/-! ### The info block -/

@[simp] theorem FieldInfo.octets_length (i : FieldInfo) : i.octets.length = 8 := rfl

theorem uint16_decode {n : ℕ} (h : n < 2 ^ 16) :
    (UInt8.ofNat (n % 256)).toNat + 256 * (UInt8.ofNat (n / 256 % 256)).toNat = n := by
  rw [UInt8.toNat_ofNat', UInt8.toNat_ofNat']
  omega

private theorem getD_of_take_eq {bs cs : List UInt8} {k j : ℕ} (h : bs.take k = cs.take k) (hj : j < k) :
    bs.getD j 0 = cs.getD j 0 := by
  have := congrArg (fun l => l[j]?) h
  simp only [List.getElem?_take, if_pos hj] at this
  simp only [List.getD_eq_getElem?_getD, this]

/-- Four octets are enough for the lengths. -/
theorem FieldInfo.ofOctets_lengths {i : FieldInfo} {bs : List UInt8} (hn : i.nameLength < 2 ^ 16)
    (hv : i.valueLength < 2 ^ 16) (h : bs.take 4 = i.octets.take 4) :
    (ofOctets bs).nameLength = i.nameLength ∧ (ofOctets bs).valueLength = i.valueLength := by
  simp only [ofOctets, getD_of_take_eq h (show 0 < 4 by decide), getD_of_take_eq h (show 1 < 4 by decide),
    getD_of_take_eq h (show 2 < 4 by decide), getD_of_take_eq h (show 3 < 4 by decide)]
  exact ⟨uint16_decode hn, uint16_decode hv⟩

/-- Five octets are enough for the whole block: the flags are in the first of their four octets. -/
theorem FieldInfo.ofOctets_eq {i : FieldInfo} {bs : List UInt8} (hn : i.nameLength < 2 ^ 16)
    (hv : i.valueLength < 2 ^ 16) (h : bs.take 5 = i.octets.take 5) : ofOctets bs = i := by
  have h4 : bs.take 4 = i.octets.take 4 := by
    have := congrArg (List.take 4) h
    simpa [List.take_take] using this
  obtain ⟨h1, h2⟩ := ofOctets_lengths hn hv h4
  have h3 : (ofOctets bs).flags = i.flags := by
    simp only [ofOctets, getD_of_take_eq h (show 4 < 5 by decide)]
    exact i.flags.ofOctet_octets
  cases i
  simp only [ofOctets] at h1 h2 h3 ⊢
  rw [h1, h2, h3]

end LibHpack
