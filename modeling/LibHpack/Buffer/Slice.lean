import LibHpack.Buffer.Contents

/-!
# LibHpack.Buffer.Slice — chula_buffer_add_buffer_slice (libchula buffer.c)

The indices are normalised twice: by `slideEstimate`, where an index that is not positive counts from the end, 0 included,
and the subtraction is one of `uint32_t`; and then by `slideEnd` and `slideBegin`, which take 0 for the end of the string
in the one and for its beginning in the other.  `Sliceable` is where the outcome is that of a slice.
-/

namespace LibHpack

open Memory Run RawBuffer

/-- `CHULA_BUF_SLIDE_NONE`. -/
def chulaBufSlideNone : ℤ := -2 ^ 31

/-- `(x > 0) ? x : buf2->len - abs(x)`. -/
def slideEstimate (len : ℕ) (x : ℤ) : ℤ := if 0 < x then x else toUint32 (len - (toInt x).natAbs)

/-- "Check the end", which may return. -/
def slideEnd (len : ℕ) (stop : ℤ) : Option ℤ :=
  if stop = chulaBufSlideNone then some len
  else if 0 < stop then some stop
  else if -stop ≤ len then some (len - -stop)
  else none

/-- "Check the beginning". -/
def slideBegin (len : ℕ) (begin : ℤ) : ℤ :=
  if begin = chulaBufSlideNone then 0
  else if 0 ≤ begin then
    if len < begin then len else begin
  else if -begin < len then len - -begin
  else 0

/-- `chula_buffer_add_buffer_slice`, with `stop` for `end`; it always returns `ret_ok`. -/
def chulaBufferAddBufferSlice (buf : RawBuffer) (buf2 : List UInt8) (begin stop : ℤ) : Except Escape RawBuffer :=
  if buf2.length = 0 then .ok buf
  else if (stop ≠ chulaBufSlideNone ∧ begin ≠ chulaBufSlideNone) ∧
      slideEstimate buf2.length stop ≤ slideEstimate buf2.length begin then .ok buf
  else
    match slideEnd buf2.length stop with
    | none => .ok buf
    | some posEnd =>
      let posBegin := slideBegin buf2.length begin
      if posBegin < 0 ∨ posEnd < 0 ∨ buf2.length < posEnd ∨ posEnd < posBegin then .ok buf
      else buf.chulaBufferAdd (.outside (buf2.drop posBegin.toNat)) (toSizeT (posEnd - posBegin))

/-! ### The reference -/

/-- An index into `n` octets: what is absent is `d`, what is negative counts from the end, and both are clipped. -/
def clip (n d : ℕ) (x : ℤ) : ℕ :=
  if x = chulaBufSlideNone then d
  else if 0 ≤ x then min x.toNat n
  else (n + x).toNat

/-- `source[begin..stop)`. -/
def sliceOf (s : List UInt8) (begin stop : ℤ) : List UInt8 :=
  (s.take (clip s.length s.length stop)).drop (clip s.length 0 begin)

/-- The beginning is given, and it is 0 or lies before the string. -/
def AtFront (n : ℕ) (begin : ℤ) : Prop := begin = 0 ∨ (begin ≠ chulaBufSlideNone ∧ begin < -n)

instance (n : ℕ) (begin : ℤ) : Decidable (AtFront n begin) := inferInstanceAs (Decidable (_ ∨ _))

/-- Where the function appends the slice: the string is empty, the end is absent, or the beginning is at the end of the
string or behind it; or the end is 0 and the beginning at the front; or the end is neither 0 nor behind the string, and the
beginning is not at the front unless the end lies there too. -/
def Sliceable (n : ℕ) (begin stop : ℤ) : Prop :=
  n = 0 ∨ stop = chulaBufSlideNone ∨ n ≤ begin ∨ (stop = 0 ∧ AtFront n begin) ∨
    (stop ≠ 0 ∧ stop ≤ n ∧ (AtFront n begin → stop ≤ -n))

instance (n : ℕ) (begin stop : ℤ) : Decidable (Sliceable n begin stop) :=
  inferInstanceAs (Decidable (_ ∨ _ ∨ _ ∨ _ ∨ _))

section Slices

variable {buf b' : RawBuffer} {s d txt : List UInt8} {begin stop : ℤ} {n : ℕ} {r : ℕ × ℕ}

/-- The range that the function copies; where it returns before, that is none. -/
def slideRange (n : ℕ) (begin stop : ℤ) : ℕ × ℕ :=
  if n = 0 then (0, 0)
  else if (stop ≠ chulaBufSlideNone ∧ begin ≠ chulaBufSlideNone) ∧ slideEstimate n stop ≤ slideEstimate n begin then (0, 0)
  else
    match slideEnd n stop with
    | none => (0, 0)
    | some posEnd =>
      if slideBegin n begin < 0 ∨ posEnd < 0 ∨ n < posEnd ∨ posEnd < slideBegin n begin then (0, 0)
      else ((slideBegin n begin).toNat, posEnd.toNat)

/-- The estimate, for the indices that there are. -/
theorem slideEstimate_eq {x : ℤ} (hn : n < 2 ^ 32) (hlo : -2 ^ 31 < x) (hhi : x < 2 ^ 31) :
    slideEstimate n x = if 0 < x then x else if 0 ≤ n + x then n + x else n + x + 2 ^ 32 := by
  rw [slideEstimate, toInt_of (by omega) hhi]
  split_ifs with h1 h2
  · rfl
  · rw [toUint32]
    omega
  · rw [toUint32]
    omega

/-- What the range has to do with that of the slice. -/
structure RangeOk (r : ℕ × ℕ) (n b e : ℕ) (ok : Prop) : Prop where
  le : r.2 ≤ n
  same : ok → (r.1 = b ∧ r.2 = e) ∨ (r.2 ≤ r.1 ∧ e ≤ b)
  diff : ¬ok → r.2 - r.1 ≠ e - b

theorem rangeOk_nothing {b e : ℕ} {ok : Prop} (h : ok ↔ e ≤ b) : RangeOk (0, 0) n b e ok where
  le := Nat.zero_le _
  same hok := .inr ⟨le_rfl, h.1 hok⟩
  diff hok := by
    have hlt : ¬e ≤ b := fun hle => hok (h.2 hle)
    dsimp only
    omega

/-- Behind the early test, with the end at `pe`. -/
theorem rangeOk_some {b e : ℕ} {pe : ℤ} {ok : Prop} (hout : pe < b ∨ n < pe → (ok ↔ e ≤ b))
    (hin : (b : ℤ) ≤ pe → pe ≤ n → (ok → pe = e ∨ (pe ≤ b ∧ e ≤ b)) ∧ (¬ok → pe - b ≠ (e - b : ℕ))) :
    RangeOk (if (b : ℤ) < 0 ∨ pe < 0 ∨ n < pe ∨ pe < b then (0, 0) else ((b : ℤ).toNat, pe.toNat)) n b e ok := by
  split_ifs with hsane
  · exact rangeOk_nothing (hout (by omega))
  · obtain ⟨h1, h2⟩ := hin (by omega) (by omega)
    refine ⟨by dsimp only; omega, fun hok => ?_, fun hok => ?_⟩
    · have h := h1 hok
      dsimp only
      omega
    · have h := h2 hok
      dsimp only
      omega

theorem slideBegin_eq (n : ℕ) (begin : ℤ) : slideBegin n begin = clip n 0 begin := by
  simp only [slideBegin, clip]
  split_ifs <;> omega

theorem clip_eq (n d : ℕ) (x : ℤ) :
    (clip n d x : ℤ) = if x = -2 ^ 31 then (d : ℤ) else if 0 ≤ x then min x n else max (n + x) 0 := by
  rw [clip, chulaBufSlideNone]
  split_ifs <;> omega

/-- The three kinds of an index that is given: what the estimate is, and where it is clipped. -/
theorem index_cases {x : ℤ} (d : ℕ) (hn : n < 2 ^ 32) (hlo : -2 ^ 31 < x) (hhi : x < 2 ^ 31) :
    (0 < x ∧ slideEstimate n x = x ∧ (clip n d x : ℤ) = min x n) ∨
      (x ≤ 0 ∧ 0 ≤ n + x ∧ slideEstimate n x = n + x ∧ (clip n d x : ℤ) = if x = 0 then 0 else n + x) ∨
      (n + x < 0 ∧ slideEstimate n x = n + x + 2 ^ 32 ∧ (clip n d x : ℤ) = 0) := by
  rw [slideEstimate_eq hn hlo hhi, clip_eq, if_neg hlo.ne']
  split_ifs <;> omega

/-- The early test returns. -/
theorem rangeOk_early (hn : n < 2 ^ 32) (h0 : n ≠ 0) (hb : -2 ^ 31 < begin ∧ begin < 2 ^ 31)
    (hs : -2 ^ 31 < stop ∧ stop < 2 ^ 31) (hle : slideEstimate n stop ≤ slideEstimate n begin) :
    RangeOk (0, 0) n (clip n 0 begin) (clip n n stop) (Sliceable n begin stop) := by
  have hfront : AtFront n begin ↔ begin = 0 ∨ begin < -n := by
    rw [AtFront, chulaBufSlideNone, and_iff_right hb.1.ne']
  refine rangeOk_nothing ?_
  rw [Sliceable, hfront, chulaBufSlideNone, or_iff_right h0, or_iff_right hs.1.ne', ← Int.ofNat_le]
  rcases index_cases 0 hn hb.1 hb.2 with ⟨hb1, heb, hcb⟩ | ⟨hb1, hb2, heb, hcb⟩ | ⟨hb1, heb, hcb⟩ <;>
    rcases index_cases n hn hs.1 hs.2 with ⟨hs1, hes, hcs⟩ | ⟨hs1, hs2, hes, hcs⟩ | ⟨hs1, hes, hcs⟩ <;>
    rw [hes, heb] at hle <;> rw [hcs, hcb] <;> clear hes heb hcs hcb <;> omega

/-- Behind the early test: the beginning, when it is given, is estimated to lie before the end. -/
theorem rangeOk_late (hn : n < 2 ^ 32) (h0 : n ≠ 0) (hb : -2 ^ 31 ≤ begin ∧ begin < 2 ^ 31)
    (hs : -2 ^ 31 < stop ∧ stop < 2 ^ 31) (hlt : begin ≠ -2 ^ 31 → slideEstimate n begin < slideEstimate n stop) :
    RangeOk (match slideEnd n stop with
      | none => (0, 0)
      | some posEnd =>
        if slideBegin n begin < 0 ∨ posEnd < 0 ∨ n < posEnd ∨ posEnd < slideBegin n begin then (0, 0)
        else ((slideBegin n begin).toNat, posEnd.toNat)) n (clip n 0 begin) (clip n n stop) (Sliceable n begin stop) := by
  have hend : slideEnd n stop = if 0 < stop then some stop else if -stop ≤ n then some (n - -stop) else none :=
    if_neg hs.1.ne'
  have hbegin : (begin = -2 ^ 31 ∧ (clip n 0 begin : ℤ) = 0) ∨
      (0 < begin ∧ begin < slideEstimate n stop ∧ (clip n 0 begin : ℤ) = min begin n) ∨
      (-2 ^ 31 < begin ∧ begin ≤ 0 ∧ 0 ≤ n + begin ∧ n + begin < slideEstimate n stop ∧
        (clip n 0 begin : ℤ) = if begin = 0 then 0 else n + begin) ∨
      (-2 ^ 31 < begin ∧ n + begin < 0 ∧ n + begin + 2 ^ 32 < slideEstimate n stop ∧ (clip n 0 begin : ℤ) = 0) := by
    by_cases hnone : begin = -2 ^ 31
    · exact .inl ⟨hnone, by rw [clip_eq, if_pos hnone]; rfl⟩
    have hlt := hlt hnone
    rcases index_cases 0 hn (by omega) hb.2 with ⟨h1, he, hc⟩ | ⟨h1, h2, he, hc⟩ | ⟨h1, he, hc⟩ <;> rw [he] at hlt
    · exact .inr (.inl ⟨h1, hlt, hc⟩)
    · exact .inr (.inr (.inl ⟨by omega, h1, h2, hlt, hc⟩))
    · exact .inr (.inr (.inr ⟨by omega, h1, hlt, hc⟩))
  clear hlt
  rw [hend, slideBegin_eq, Sliceable, or_iff_right h0, AtFront, chulaBufSlideNone, or_iff_right hs.1.ne']
  generalize clip n 0 begin = b at hbegin
  rcases index_cases n hn hs.1 hs.2 with ⟨hs1, hes, hcs⟩ | ⟨hs1, hs2, hes, hcs⟩ | ⟨hs1, hes, hcs⟩ <;> rw [hes] at hbegin <;>
    clear hes hend <;> generalize clip n n stop = e at hcs
  · -- counted from the front
    rw [if_pos hs1]
    rcases hbegin with h | h | h | h <;> exact rangeOk_some (by omega) (by omega)
  · -- counted from the end
    rw [if_neg (by omega), if_pos (by omega)]
    rcases hbegin with h | h | h | h <;> exact rangeOk_some (by omega) (by omega)
  · -- before the string
    rw [if_neg (by omega), if_neg (by omega)]
    exact rangeOk_nothing (by omega)

theorem slideRange_ok (hn : n < 2 ^ 32) (hb : -2 ^ 31 ≤ begin ∧ begin < 2 ^ 31) (hs : -2 ^ 31 ≤ stop ∧ stop < 2 ^ 31) :
    RangeOk (slideRange n begin stop) n (clip n 0 begin) (clip n n stop) (Sliceable n begin stop) := by
  rw [slideRange]
  split_ifs with h0 hpre
  · -- the string is empty
    refine rangeOk_nothing (iff_of_true (.inl h0) ?_)
    have hclips := clip_eq n n stop
    have hclipb := clip_eq n 0 begin
    split_ifs at hclipb hclips <;> omega
  · obtain ⟨⟨hs0, hb0⟩, hle⟩ := hpre
    rw [chulaBufSlideNone] at hs0 hb0
    exact rangeOk_early hn h0 ⟨by omega, hb.2⟩ ⟨by omega, hs.2⟩ hle
  · by_cases hs0 : stop = -2 ^ 31
    · -- the end is absent
      have hend : slideEnd n stop = some ↑n := if_pos hs0
      have hstop : clip n n stop = n := if_pos hs0
      have hclipb := clip_eq n 0 begin
      rw [hend, hstop, slideBegin_eq]
      refine rangeOk_some (fun hout => iff_of_true (.inr (.inl hs0)) ?_) fun _ _ => ⟨fun _ => .inl rfl, fun hok => ?_⟩
      · split_ifs at hclipb <;> omega
      · exact absurd (.inr (.inl hs0)) hok
    · refine rangeOk_late hn h0 hb ⟨by omega, hs.2⟩ fun hb0 => ?_
      by_contra hle
      exact hpre ⟨⟨hs0, hb0⟩, not_lt.1 hle⟩

/-- What is in the range. -/
def rangeOf (s : List UInt8) (r : ℕ × ℕ) : List UInt8 := (s.take r.2).drop r.1

theorem rangeOf_length (hle : r.2 ≤ s.length) : (rangeOf s r).length = r.2 - r.1 := by
  rw [rangeOf, List.length_drop, List.length_take, min_eq_left hle]

/-- **The function** appends what is in its range. -/
theorem addBufferSlice_eq (buf : RawBuffer) (begin stop : ℤ) (hlt : s.length < 2 ^ 32) :
    chulaBufferAddBufferSlice buf s begin stop =
      buf.chulaBufferAdd (.outside (rangeOf s (slideRange s.length begin stop)))
        (rangeOf s (slideRange s.length begin stop)).length := by
  have hnothing : buf.chulaBufferAdd (.outside (rangeOf s (0, 0))) (rangeOf s (0, 0)).length = .ok buf := add_nothing _ _
  rw [chulaBufferAddBufferSlice, slideRange]
  split_ifs with h0 hpre
  · exact hnothing.symm
  · exact hnothing.symm
  · cases slideEnd s.length stop with
    | none => exact hnothing.symm
    | some posEnd =>
      dsimp only
      split_ifs with hsane
      · exact hnothing.symm
      · have hsize : toSizeT (posEnd - slideBegin s.length begin) = posEnd.toNat - (slideBegin s.length begin).toNat := by
          rw [toSizeT_of (by omega) (by omega)]
          omega
        have hrange : rangeOf s ((slideBegin s.length begin).toNat, posEnd.toNat) =
            (s.drop (slideBegin s.length begin).toNat).take (posEnd.toNat - (slideBegin s.length begin).toNat) :=
          List.drop_take
        rw [rangeOf_length (by dsimp only; omega), hrange, hsize, add_take]

/-- What the function is to do: the octets of the slice are appended, and nothing else. -/
def Slices (buf : RawBuffer) (d s : List UInt8) (begin stop : ℤ) : Prop :=
  ∃ b', chulaBufferAddBufferSlice buf s begin stop = .ok b' ∧ b'.Reads (d ++ sliceOf s begin stop)

/-- The ranges have the same octets exactly where the function slices. -/
theorem rangeOf_eq_iff (hlt : s.length < 2 ^ 32) (hb : -2 ^ 31 ≤ begin ∧ begin < 2 ^ 31)
    (hs : -2 ^ 31 ≤ stop ∧ stop < 2 ^ 31) :
    rangeOf s (slideRange s.length begin stop) = sliceOf s begin stop ↔ Sliceable s.length begin stop := by
  have hok := slideRange_ok hlt hb hs
  have hstop : clip s.length s.length stop ≤ s.length := by
    rw [clip]
    split_ifs <;> omega
  have hslice : (sliceOf s begin stop).length = clip s.length s.length stop - clip s.length 0 begin :=
    rangeOf_length (r := (clip s.length 0 begin, clip s.length s.length stop)) hstop
  constructor
  · intro heq
    by_contra hno
    have hlen := congrArg List.length heq
    rw [rangeOf_length hok.le, hslice] at hlen
    exact hok.diff hno hlen
  · intro hyes
    rcases hok.same hyes with ⟨h1, h2⟩ | ⟨h1, h2⟩
    · rw [rangeOf, sliceOf, h1, h2]
    · have hr : rangeOf s (slideRange s.length begin stop) = [] :=
        List.eq_nil_of_length_eq_zero (by rw [rangeOf_length hok.le]; omega)
      have hsl : sliceOf s begin stop = [] := List.eq_nil_of_length_eq_zero (by rw [hslice]; omega)
      rw [hr, hsl]

theorem rangeOf_length_le (s : List UInt8) (r : ℕ × ℕ) : (rangeOf s r).length ≤ s.length := by
  rw [rangeOf, List.length_drop, List.length_take]
  omega

/-- What appending `txt` leaves says what `txt` is, and that the length has not wrapped. -/
theorem add_reads_iff (h : buf.Filled d) (hlt : txt.length < 2 ^ 32) {t : List UInt8} :
    (∃ b', buf.chulaBufferAdd (.outside txt) txt.length = .ok b' ∧ b'.Reads (d ++ t)) ↔
      txt = t ∧ d.length + t.length < 2 ^ 32 := by
  have hd := h.len_le.trans_lt h.size_lt
  constructor
  · rintro ⟨b', hadd, hreads⟩
    by_cases hfits : d.length + txt.length < 2 ^ 32
    · obtain ⟨c, hc, hreads'⟩ := h.add hfits
      cases hc.symm.trans hadd
      have heq : txt = t := List.append_cancel_left (hreads'.unique hreads)
      exact ⟨heq, heq ▸ hfits⟩
    · have hlen := add_len (by omega) hadd
      rw [hreads.1, h.reads.1, List.length_append, toUint32] at hlen
      omega
  · rintro ⟨rfl, hfits⟩
    exact h.add hfits

/-- **A slice** is appended exactly then, and where the length does not wrap. -/
theorem addBufferSlice_iff (h : buf.Filled d) (hlt : s.length < 2 ^ 32) (hb : -2 ^ 31 ≤ begin ∧ begin < 2 ^ 31)
    (hs : -2 ^ 31 ≤ stop ∧ stop < 2 ^ 31) :
    Slices buf d s begin stop ↔
      Sliceable s.length begin stop ∧ d.length + (sliceOf s begin stop).length < 2 ^ 32 := by
  rw [Slices, addBufferSlice_eq buf begin stop hlt, ← rangeOf_eq_iff hlt hb hs]
  exact add_reads_iff h ((rangeOf_length_le _ _).trans_lt hlt)

/-- `"abc"[1:-1]`. -/
theorem addBufferSlice_iff_middle : Slices chulaBufInit [] [97, 98, 99] 1 (-1) :=
  (addBufferSlice_iff filled_null (by decide) (by decide) (by decide)).2 ⟨by decide, by decide⟩

/-- `"abc"[0:2]`: nothing is appended. -/
theorem addBufferSlice_zero : ¬Slices chulaBufInit [] [97, 98, 99] 0 2 := by
  rintro ⟨b', hadd, hreads⟩
  have hnothing : chulaBufferAddBufferSlice chulaBufInit [97, 98, 99] 0 2 = .ok chulaBufInit := by decide
  cases hnothing.symm.trans hadd
  exact absurd hreads.1 (by decide)

end Slices

end LibHpack
