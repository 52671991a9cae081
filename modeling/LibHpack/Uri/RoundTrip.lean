import LibHpack.Buffer.Contents
import LibHpack.Uri.Escaped

/-!
# LibHpack.Uri.RoundTrip — unescaping undoes escaping

The loop of `chula_buffer_unescape_uri` writes where it has read already: between what it has written and what it is to
read there is a gap, of two octets for each escape sequence.  The gap is the only thing in the block that the loop leaves
open (`unescapeLoop_eq`).
-/

namespace LibHpack

open Memory Run

section Unescaping

variable {D s w : List UInt8} {gap rest : Memory.Block UInt8} {c x : UInt8} {i k : ℕ} {len : ℤ} {b : RawBuffer}

/-- A block with `D` written, a gap, and `w` to be read. -/
def gapped (D : List UInt8) (gap : Memory.Block UInt8) (w : List UInt8) (rest : Memory.Block UInt8) : Memory.Block UInt8 :=
  D.map some ++ gap ++ (w.map some ++ some 0 :: rest)

theorem readOctet_gapped (D : List UInt8) (gap : Memory.Block UInt8) (w : List UInt8) (rest : Memory.Block UInt8)
    (h : i ≤ w.length) :
    readOctet (gapped D gap w rest) (D.length + gap.length + i) = .ok (w.getD i 0) := by
  have hget : (gapped D gap w rest)[D.length + gap.length + i]? = some (some (w.getD i 0)) := by
    rw [gapped, List.getElem?_append_right (by simp), List.length_append, List.length_map, Nat.add_sub_cancel_left]
    rcases Nat.lt_or_eq_of_le h with hlt | rfl
    · rw [List.getElem?_append_left (by simpa using hlt), List.getElem?_map, List.getElem?_eq_getElem hlt, Option.map_some,
        List.getD_eq_getElem?_getD, List.getElem?_eq_getElem hlt, Option.getD_some]
    · rw [List.getElem?_append_right (by simp)]
      simp
  rw [readOctet, read_of_getElem? hget]
  rfl

theorem escapedOctet_gapped : escapedOctet (gapped D gap (c :: w) rest) (D.length + gap.length) =
    .ok (if c = 37 ∧ hexPair w then some (hex2decM2 (w.getD 0 0) (w.getD 1 0)) else none) := by
  have h0 : readOctet (gapped D gap (c :: w) rest) (D.length + gap.length) = .ok c := readOctet_gapped _ _ _ _ (i := 0) (by simp)
  have h1 : readOctet (gapped D gap (c :: w) rest) (D.length + gap.length + 1) = .ok (w.getD 0 0) :=
    readOctet_gapped _ _ _ _ (by simp)
  rw [escapedOctet, ok_then h0]
  by_cases hc : c = 37
  swap
  · rw [if_pos hc, if_neg fun h => hc h.1]
  rw [if_neg (not_not_intro hc), ok_then h1]
  rcases w with _ | ⟨x, w⟩
  · simp [hexPair, isxdigit]
  have h2 : readOctet (gapped D gap (c :: x :: w) rest) (D.length + gap.length + 2) = .ok (w.getD 0 0) :=
    readOctet_gapped _ _ _ _ (by simp)
  by_cases hx : isxdigit x = true
  swap
  · rw [hexPair_of_other (by simpa using hx)]
    simp [hx]
  rw [if_neg (by simpa using hx), ok_then h2]
  rcases w with _ | ⟨y, w⟩
  · simp [hexPair, isxdigit]
  · by_cases hy : isxdigit y = true <;> simp [hexPair, hx, hy, hc]

/-- Writing the next octet takes one cell of the gap. -/
theorem storeOctet_gap (D : List UInt8) (gap : Memory.Block UInt8) (x : UInt8) (R : Memory.Block UInt8)
    (hgap : gap ≠ []) : storeOctet (D.map some ++ gap ++ R) D.length x = .ok ((D ++ [x]).map some ++ gap.tail ++ R) := by
  obtain ⟨g, gap, rfl⟩ := List.exists_cons_of_ne_nil hgap
  have hstore := store_append (l := D.map some) (m := [g]) (x := [some x]) (gap ++ R) rfl
  rw [List.length_map] at hstore
  rw [storeOctet, show D.map some ++ g :: gap ++ R = D.map some ++ [g] ++ (gap ++ R) by simp, hstore]
  simp [Except.mapError]

theorem writeUnescaped_gap (R : Memory.Block UInt8) (hgap : gap ≠ []) : writeUnescaped (D.map some ++ gap ++ R) D.length x =
    .ok ((D ++ [if x = 0 then 32 else x]).map some ++ gap.tail ++ R) := by
  rw [writeUnescaped, ok_then (storeOctet_gap D gap x R hgap)]
  split_ifs with hx
  · have h := storeOctet_gap D [some x] 32 (gap.tail ++ R) (by simp)
    rw [List.map_append, List.append_assoc _ gap.tail]
    exact h.trans (by simp)
  · rfl

theorem unescaped_length_le (k : ℕ) (w : List UInt8) : (unescaped k w).length ≤ w.length := by
  induction w generalizing k with
  | nil => cases k <;> exact le_rfl
  | cons c w ih =>
    cases k with
    | zero =>
      rw [unescaped]
      split_ifs
      · exact Nat.succ_le_succ (ih 2)
      · exact Nat.succ_le_succ (ih 0)
    | succ k => exact (ih k).trans (Nat.le_succ _)

/-- What the loop takes off `len`. -/
def shrinks (w : List UInt8) : ℤ := w.length - (unescaped 0 w).length

theorem shrinks_nonneg (w : List UInt8) : 0 ≤ shrinks w := by
  have hle := unescaped_length_le 0 w
  rw [shrinks]
  omega

/-- What an escape sequence is replaced by. -/
theorem unescaped_pair {y : UInt8} (hpair : hexPair (x :: y :: w) = true) :
    unescaped 0 (37 :: x :: y :: w) = (if hex2decM2 x y = 0 then 32 else hex2decM2 x y) :: unescaped 0 w := by
  rw [unescaped, if_pos ⟨rfl, hpair⟩]
  rfl

/-- A turn at the NUL. -/
theorem unescapeLoop_nil (D : List UInt8) (gap rest : Memory.Block UInt8) :
    unescapeLoop (k + 1) (gapped D gap [] rest) (D.length + gap.length) D.length len =
      .ok (gapped D gap [] rest, D.length, len) := by
  have h0 : readOctet (gapped D gap [] rest) (D.length + gap.length) = .ok 0 := readOctet_gapped _ _ _ _ (i := 0) (by simp)
  rw [unescapeLoop, ok_then h0, if_pos rfl]

/-- A turn at an octet that stays. -/
theorem unescapeLoop_plain (k : ℕ) (len : ℤ) (D : List UInt8) (gap rest : Memory.Block UInt8) (hc : c ≠ 0)
    (hplain : ¬(c = 37 ∧ hexPair w = true)) :
    ∃ gap', unescapeLoop (k + 1) (gapped D gap (c :: w) rest) (D.length + gap.length) D.length len =
      unescapeLoop k (gapped (D ++ [c]) gap' w rest) ((D ++ [c]).length + gap'.length) (D ++ [c]).length len := by
  have h0 : readOctet (gapped D gap (c :: w) rest) (D.length + gap.length) = .ok c := readOctet_gapped _ _ _ _ (i := 0) (by simp)
  have hstore := storeOctet_gap D (gap ++ [some c]) c (w.map some ++ some 0 :: rest) (by simp)
  have hblock : gapped D gap (c :: w) rest = D.map some ++ (gap ++ [some c]) ++ (w.map some ++ some 0 :: rest) := by
    simp [gapped]
  have hpos : D.length + gap.length + 1 = (D ++ [c]).length + (gap ++ [some c]).tail.length := by
    simp only [List.length_append, List.length_tail, List.length_singleton]
    omega
  refine ⟨(gap ++ [some c]).tail, ?_⟩
  rw [unescapeLoop, ok_then h0, if_neg hc, ok_then escapedOctet_gapped, if_neg hplain]
  dsimp only
  rw [hblock, ok_then hstore, hpos, show D.length + 1 = (D ++ [c]).length by simp]
  rfl

/-- A turn at an escape sequence. -/
theorem unescapeLoop_pair {y : UInt8} (k : ℕ) (len : ℤ) (D : List UInt8) (gap rest : Memory.Block UInt8)
    (hpair : hexPair (x :: y :: w) = true) :
    ∃ gap', unescapeLoop (k + 1) (gapped D gap (37 :: x :: y :: w) rest) (D.length + gap.length) D.length len =
      takeTwo len >>= unescapeLoop k (gapped (D ++ [if hex2decM2 x y = 0 then 32 else hex2decM2 x y]) gap' w rest)
        ((D ++ [if hex2decM2 x y = 0 then 32 else hex2decM2 x y]).length + gap'.length)
        (D ++ [if hex2decM2 x y = 0 then 32 else hex2decM2 x y]).length := by
  have h0 : readOctet (gapped D gap (37 :: x :: y :: w) rest) (D.length + gap.length) = .ok 37 :=
    readOctet_gapped _ _ _ _ (i := 0) (by simp)
  have hblock : gapped D gap (37 :: x :: y :: w) rest =
      D.map some ++ (gap ++ [some 37, some x, some y]) ++ (w.map some ++ some 0 :: rest) := by
    simp [gapped]
  have hwrite : writeUnescaped (gapped D gap (37 :: x :: y :: w) rest) D.length (hex2decM2 x y) =
      .ok (gapped (D ++ [if hex2decM2 x y = 0 then 32 else hex2decM2 x y]) (gap ++ [some 37, some x, some y]).tail w rest) := by
    rw [hblock]
    exact writeUnescaped_gap _ (by simp)
  refine ⟨(gap ++ [some 37, some x, some y]).tail, ?_⟩
  rw [unescapeLoop, ok_then h0, if_neg (by decide), ok_then escapedOctet_gapped, if_pos ⟨rfl, hpair⟩]
  dsimp only
  rw [List.getD_cons_zero, List.getD_cons_succ, List.getD_cons_zero, ok_then hwrite]
  generalize (if hex2decM2 x y = 0 then 32 else hex2decM2 x y) = u
  have hpos : D.length + gap.length + 3 = (D ++ [u]).length + (gap ++ [some 37, some x, some y]).tail.length := by
    simp only [List.length_append, List.length_tail, List.length_cons, List.length_nil]
    omega
  rw [hpos, show D.length + 1 = (D ++ [u]).length by simp]

/-- **The loop**: `unescaped 0 w` is written and a gap left, unless `len` overflows. -/
theorem unescapeLoop_eq (rest : Memory.Block UInt8) : ∀ (k : ℕ) (w D : List UInt8) (gap : Memory.Block UInt8) (len : ℤ),
    w.length < k → 0 ∉ w → -2 ^ 31 ≤ len →
    (-2 ^ 31 ≤ len - shrinks w → ∃ gap', unescapeLoop k (gapped D gap w rest) (D.length + gap.length) D.length len =
      .ok (gapped (D ++ unescaped 0 w) gap' [] rest, (D ++ unescaped 0 w).length, len - shrinks w)) ∧
    (len - shrinks w < -2 ^ 31 →
      unescapeLoop k (gapped D gap w rest) (D.length + gap.length) D.length len = .error .overflow)
  | 0, w, D, gap, len, hk, _, _ => absurd hk (Nat.not_lt_zero _)
  | k + 1, [], D, gap, len, _, _, hlen => by
    have hs : shrinks [] = 0 := rfl
    rw [unescapeLoop_nil, hs, Int.sub_zero, unescaped, List.append_nil]
    exact ⟨fun _ => ⟨gap, rfl⟩, fun h => absurd hlen (by omega)⟩
  | k + 1, c :: w, D, gap, len, hk, hw, hlen => by
    rw [List.mem_cons, not_or] at hw
    rw [List.length_cons] at hk
    by_cases hesc : c = 37 ∧ hexPair w = true
    · obtain ⟨rfl, hpair⟩ := hesc
      obtain ⟨x, y, w, rfl, -, -⟩ := exists_of_hexPair hpair
      obtain ⟨gap', hturn⟩ := unescapeLoop_pair k len D gap rest hpair
      have hs : shrinks (37 :: x :: y :: w) = shrinks w + 2 := by
        simp only [shrinks, unescaped_pair hpair, List.length_cons]
        omega
      have hnn := shrinks_nonneg w
      rw [hturn, hs, unescaped_pair hpair]
      by_cases htwo : len - 2 < -2 ^ 31
      · have herr : takeTwo len = .error .overflow := by rw [takeTwo, if_pos htwo]
        rw [herr]
        exact ⟨fun h => absurd h (by omega), fun _ => rfl⟩
      · have hok : takeTwo len = .ok (len - 2) := by rw [takeTwo, if_neg htwo]
        simp only [List.length_cons] at hk
        rw [ok_then hok, List.append_cons D _ (unescaped 0 w), show len - (shrinks w + 2) = len - 2 - shrinks w by omega]
        exact unescapeLoop_eq rest k w _ gap' (len - 2) (by omega) (fun h => hw.2 (by simp [h])) (by omega)
    · obtain ⟨gap', hturn⟩ := unescapeLoop_plain k len D gap rest (Ne.symm hw.1) hesc
      have hs : shrinks (c :: w) = shrinks w := by
        simp only [shrinks, unescaped_plain hesc, List.length_cons]
        omega
      rw [hturn, hs, unescaped_plain hesc, List.append_cons D c (unescaped 0 w)]
      exact unescapeLoop_eq rest k w _ gap' len (by omega) hw.2 hlen

theorem strchr_gapped (rest : Memory.Block UInt8) : ∀ (k : ℕ) (w D : List UInt8), w.length < k → 0 ∉ w →
    (37 ∉ w ∧ strchr (gapped D [] w rest) 37 k D.length = .ok none) ∨
    ∃ v u, w = v ++ 37 :: u ∧ 37 ∉ v ∧ strchr (gapped D [] w rest) 37 k D.length = .ok (some (D ++ v).length)
  | 0, w, D, hk, _ => absurd hk (Nat.not_lt_zero _)
  | k + 1, [], D, _, _ => by
    have h0 : readOctet (gapped D [] [] rest) D.length = .ok 0 := readOctet_gapped _ [] _ _ (i := 0) (by simp)
    rw [strchr, ok_then h0]
    exact .inl ⟨by simp, rfl⟩
  | k + 1, c :: w, D, hk, hw => by
    rw [List.mem_cons, not_or] at hw
    rw [List.length_cons] at hk
    have h0 : readOctet (gapped D [] (c :: w) rest) D.length = .ok c := readOctet_gapped _ [] _ _ (i := 0) (by simp)
    have hblock : gapped D [] (c :: w) rest = gapped (D ++ [c]) [] w rest := by simp [gapped]
    rw [strchr, ok_then h0]
    by_cases hc : c = 37
    · subst hc
      exact .inr ⟨[], w, rfl, by simp, by simp⟩
    rw [if_neg hc, if_neg (Ne.symm hw.1), hblock, show D.length + 1 = (D ++ [c]).length by simp]
    rcases strchr_gapped rest k w (D ++ [c]) (by omega) hw.2 with ⟨hnone, h⟩ | ⟨v, u, rfl, hv, h⟩
    · exact .inl ⟨by simp [hnone, Ne.symm hc], h⟩
    · exact .inr ⟨c :: v, u, rfl, by simp [hv, Ne.symm hc], by simpa using h⟩

theorem unescaped_append (h : 37 ∉ D) (w : List UInt8) : unescaped 0 (D ++ w) = D ++ unescaped 0 w := by
  induction D with
  | nil => rfl
  | cons c D ih =>
    rw [List.mem_cons, not_or] at h
    rw [List.cons_append, unescaped_plain fun hc => h.1 hc.1.symm, ih h.2, List.cons_append]

theorem shrinks_append (h : 37 ∉ D) (w : List UInt8) : shrinks (D ++ w) = shrinks w := by
  simp only [shrinks, unescaped_append h, List.length_append]
  omega

theorem toUint32_toInt_sub {n k : ℤ} (hlo : 0 ≤ n - k) (hhi : n - k < 2 ^ 32) : toUint32 (toInt n - k) = (n - k).toNat := by
  rw [toUint32, toInt, Int.bmod_def]
  split <;> omega

/-- **`chula_buffer_unescape_uri`**, unless `len` overflows. -/
theorem unescapeUri_eq (hb : b.len = w.length) (hcells : b.cells = gapped [] [] w rest) (hw : 0 ∉ w) (hlt : w.length < 2 ^ 32) :
    (-2 ^ 31 ≤ toInt w.length - shrinks w → ∃ b', chulaBufferUnescapeUri b = .ok b' ∧ b'.Reads (unescaped 0 w)) ∧
    (toInt w.length - shrinks w < -2 ^ 31 → chulaBufferUnescapeUri b = .error .overflow) := by
  obtain ⟨hlo, -⟩ := toInt_bounds w.length
  rw [chulaBufferUnescapeUri, hb]
  by_cases hnil : w.length = 0
  · obtain rfl := List.length_eq_zero_iff.1 hnil
    rw [if_pos hnil, show shrinks [] = 0 from rfl]
    exact ⟨fun _ => ⟨b, rfl, hb, by simp [hb, unescaped]⟩, fun h => absurd hlo (by omega)⟩
  have hnul : readOctet (gapped [] [] w rest) w.length = .ok 0 := by
    have h := readOctet_gapped [] [] w rest le_rfl
    simpa using h
  have hlen : w.length < (gapped [] [] w rest).length := by
    simp only [gapped, List.length_append, List.length_map, List.length_cons]
    omega
  rw [if_neg hnil, hcells, ok_then hnul, if_neg (by simp), ok_then rfl]
  dsimp only
  rcases strchr_gapped rest _ w [] hlen hw with ⟨hnone, hchr⟩ | ⟨v, u, rfl, hv, hchr⟩
  · -- there is nothing to unescape
    have hsame : unescaped 0 w = w := by
      have h := unescaped_append hnone []
      rwa [List.append_nil, unescaped, List.append_nil] at h
    have hs : shrinks w = 0 := by
      rw [shrinks, hsame]
      omega
    rw [List.length_nil] at hchr
    rw [ok_then hchr, hs, hsame]
    dsimp only
    refine ⟨fun _ => ⟨_, rfl, rfl, ?_⟩, fun h => absurd hlo (by omega)⟩
    rw [RawBuffer.cells, Option.getD_some, gapped, List.map_nil, List.nil_append, List.nil_append]
    exact List.take_left' (List.length_map ..)
  · have hblock : gapped [] [] (v ++ 37 :: u) rest = gapped v [] (37 :: u) rest := by simp [gapped]
    have hw' : 0 ∉ 37 :: u := fun h => hw (List.mem_append_right _ h)
    obtain ⟨hok, herr⟩ := unescapeLoop_eq rest ((gapped v [] (37 :: u) rest).length - v.length) (37 :: u) v []
      (toInt (v ++ 37 :: u).length) (by simp [gapped]) hw' hlo
    rw [List.length_nil, Nat.add_zero] at hok herr
    rw [List.length_nil] at hchr
    rw [ok_then hchr, List.nil_append, hblock, shrinks_append hv, unescaped_append hv]
    dsimp only
    constructor
    · intro hle
      obtain ⟨gap', hloop⟩ := hok hle
      have hstore := storeOctet_gap (v ++ unescaped 0 (37 :: u)) (gap' ++ [some 0]) 0 rest (by simp)
      have hend : gapped (v ++ unescaped 0 (37 :: u)) gap' [] rest =
          (v ++ unescaped 0 (37 :: u)).map some ++ (gap' ++ [some 0]) ++ rest := by simp [gapped]
      have hshort := unescaped_length_le 0 (37 :: u)
      rw [ok_then hloop]
      dsimp only
      rw [hend, ok_then hstore]
      have hnew : toUint32 (toInt (v ++ 37 :: u).length - shrinks (37 :: u)) = (v ++ unescaped 0 (37 :: u)).length := by
        rw [List.length_append] at hlt ⊢
        rw [List.length_append, shrinks, toUint32_toInt_sub] <;> omega
      refine ⟨_, rfl, ?_, ?_⟩ <;> dsimp only
      · exact hnew
      · rw [hnew, RawBuffer.cells, Option.getD_some, List.map_append, List.append_assoc, List.append_assoc]
        exact List.take_left' (List.length_map ..)
    · intro hover
      rw [herr hover]
      rfl

end Unescaping

/-! ### Escaping -/

section Escaping

variable {table : List ℕ} {b b' : RawBuffer} {s : List UInt8} {n : ℕ}

/-- There is enough memory: the number that is asked for does not wrap, or there has been enough before. -/
def EscapeFits (table : List ℕ) (b : RawBuffer) (s : List UInt8) : Prop :=
  s.length + 3 * escapes table 0 s < 2 ^ 32 ∨ s.length + 2 * escapes table 0 s < b.size

theorem escapes_le (table : List ℕ) (k : ℕ) (s : List UInt8) : escapes table k s ≤ s.length := by
  induction s generalizing k with
  | nil => cases k <;> exact le_rfl
  | cons c s ih =>
    cases k with
    | zero =>
      have h := ih (utf8GetNextChar (c :: s) - 1)
      rw [escapes, List.length_cons]
      split_ifs <;> omega
    | succ k => exact (ih k).trans (Nat.le_succ _)

/-- Whether the octets that are written, and a NUL, fit into the memory that there is then. -/
theorem escapeFits_iff (h : b.Filled []) (hlt : s.length < 2 ^ 32) : EscapeFits table b s ↔
    (escaped table 0 s).length < (b.chulaBufferEnsureAddlen (escapeRoom table s)).cells.length := by
  have hle := escapes_le table 0 s
  have hroom : escapeRoom table s = (s.length + 3 * escapes table 0 s) % 2 ^ 32 := by
    rw [escapeRoom, countEscapes_eq, toUint32]
    omega
  rw [(h.ensureAddlen (n := escapeRoom table s) (by rw [hroom]; omega)).2, List.length_nil, Nat.zero_add, hroom,
    escaped_length, EscapeFits]
  split_ifs <;> omega

theorem writeEscaped_eq (table : List ℕ) (h : b.Filled [])
    (hle : (escaped table 0 s).length ≤ (b.chulaBufferEnsureAddlen (escapeRoom table s)).cells.length) :
    ∃ b₁, writeEscaped table b s = .ok (b₁, (escaped table 0 s).length) ∧ b₁.len = 0 ∧
      b₁.cells = (escaped table 0 s).map some ++
        (b.chulaBufferEnsureAddlen (escapeRoom table s)).cells.drop (escaped table 0 s).length := by
  have hlen : (b.chulaBufferEnsureAddlen (escapeRoom table s)).len = 0 :=
    (h.ensureAddlen (n := escapeRoom table s) (by rw [escapeRoom, toUint32]; omega)).1.1
  have hloop := (convertLoop_writes table s (b.chulaBufferEnsureAddlen (escapeRoom table s)).cells 0).fits
    (by omega)
  rw [Nat.zero_add] at hloop
  refine ⟨{ b.chulaBufferEnsureAddlen (escapeRoom table s) with
    buf := some (written (b.chulaBufferEnsureAddlen (escapeRoom table s)).cells 0 (escaped table 0 s)) }, ?_, hlen, ?_⟩
  · rw [writeEscaped]
    dsimp only
    rw [hlen, ok_then hloop]
  · simp [written, RawBuffer.cells]

/-- **Escaping into an empty buffer** where there is enough memory. -/
theorem escapeWithTable_eq (h : b.Filled []) (hlt : s.length < 2 ^ 32) (hne : s ≠ []) (hfits : EscapeFits table b s) :
    ∃ b₁ b' rest, writeEscaped table b s = .ok (b₁, (escaped table 0 s).length) ∧ escapeWithTable table b s = .ok b' ∧
      b'.len = (escaped table 0 s).length ∧ b'.cells = gapped [] [] (escaped table 0 s) rest := by
  have hroom := (escapeFits_iff h hlt).1 hfits
  obtain ⟨b₁, hwrite, hlen, hcells⟩ := writeEscaped_eq table h hroom.le
  obtain ⟨x, rest, hrest⟩ := List.exists_cons_of_ne_nil (List.ne_nil_of_length_pos (by rw [List.length_drop]; omega) :
    (b.chulaBufferEnsureAddlen (escapeRoom table s)).cells.drop (escaped table 0 s).length ≠ [])
  have hstore := store_append (l := (escaped table 0 s).map some) (m := [x]) (x := [some (0 : UInt8)]) rest rfl
  rw [List.length_map, List.append_assoc, List.singleton_append, ← hrest, ← hcells] at hstore
  have hput : b₁.put (escaped table 0 s).length 0 =
      .ok { b₁ with buf := some ((escaped table 0 s).map some ++ [some 0] ++ rest) } := by
    rw [RawBuffer.put, ok_then hstore]
    rfl
  have hnew : toUint32 (b₁.len + (s.length + countEscapes table s * 2)) = (escaped table 0 s).length := by
    have hlt : s.length + 2 * escapes table 0 s < 2 ^ 32 := by
      rcases hfits with hfits | hfits
      · omega
      · exact hfits.trans h.size_lt
    rw [hlen, countEscapes_eq, escaped_length, toUint32]
    omega
  refine ⟨b₁, ⟨some ((escaped table 0 s).map some ++ [some 0] ++ rest), b₁.size, (escaped table 0 s).length⟩, rest, hwrite,
    ?_, rfl, ?_⟩
  · rw [escapeWithTable, if_neg (by simpa using hne), ok_then hwrite]
    dsimp only
    rw [ok_then hput]
    dsimp only
    rw [hnew]
    rfl
  · simp [RawBuffer.cells, gapped]

theorem escapeWithTable_escapes (h : b.Filled []) (hlt : s.length < 2 ^ 32) (hfits : ¬EscapeFits table b s) :
    escapeWithTable table b s ≠ .ok b' := by
  have hne : s.length ≠ 0 := by
    intro h0
    obtain rfl := List.length_eq_zero_iff.1 h0
    exact hfits (.inl (by simp [escapes]))
  rw [escapeFits_iff h hlt, not_lt] at hfits
  intro hok
  rw [escapeWithTable, if_neg hne] at hok
  obtain ⟨⟨b₁, t⟩, hwrite, hok⟩ := ok_of_then hok
  obtain ⟨b₂, hput, -⟩ := ok_of_then hok
  rcases Nat.lt_or_eq_of_le hfits with hout | hfull
  · have hlen : (b.chulaBufferEnsureAddlen (escapeRoom table s)).len = 0 :=
      (h.ensureAddlen (n := escapeRoom table s) (by rw [escapeRoom, toUint32]; omega)).1.1
    obtain ⟨e, he⟩ := (convertLoop_writes table s (b.chulaBufferEnsureAddlen (escapeRoom table s)).cells 0).escapes
      (Nat.zero_le _) (by rwa [Nat.zero_add])
    rw [writeEscaped] at hwrite
    dsimp only at hwrite
    rw [hlen, he] at hwrite
    cases hwrite
  · obtain ⟨b₃, hwrite', -, hcells⟩ := writeEscaped_eq table h hfull.ge
    cases hwrite.symm.trans hwrite'
    obtain ⟨e, he⟩ := @store_escapes _ b₁.cells (escaped table 0 s).length [(0 : UInt8)]
      (by rw [hcells, List.length_append, List.length_map, List.length_drop, hfull]; simp)
    rw [RawBuffer.put, show [some (0 : UInt8)] = [(0 : UInt8)].map some from rfl, he] at hput
    cases hput

end Escaping

/-! ### The round trip -/

section RoundTrip

variable {e : UriEscape} {b : RawBuffer} {s : List UInt8}

theorem call_eq (e : UriEscape) (b : RawBuffer) (s : List UInt8) : e.call b s = escapeWithTable e.table b s := by
  cases e <;> rfl

/-- What escaping `s` into `b` is to do: the length that is set is the number of octets that were written, and unescaping
the result gives `s`. -/
def Undone (e : UriEscape) (b : RawBuffer) (s : List UInt8) : Prop :=
  ∃ b₁ t b' b'', writeEscaped e.table b s = .ok (b₁, t) ∧ e.call b s = .ok b' ∧ b'.len = t ∧
    chulaBufferUnescapeUri b' = .ok b'' ∧ b''.Reads s

/-- When it does so: no "%" inside of a character has two hexadecimal digits behind it, there is enough memory, and the
length does not overflow while it is taken back. -/
structure Undoable (e : UriEscape) (b : RawBuffer) (s : List UInt8) : Prop where
  noStray : strayEscape 0 s = false
  fits : EscapeFits e.table b s
  int : s.length + 2 * escapes e.table 0 s < 2 ^ 31 ∨ 2 ^ 31 ≤ s.length

theorem escapeOf_noNul : ∀ c : UInt8, 0 ∉ escapeOf c := forall_octet (by decide +kernel)

theorem escaped_noNul (hs : 0 ∉ s) (k : ℕ) : 0 ∉ escaped e.table k s := by
  induction s generalizing k with
  | nil => cases k <;> exact List.not_mem_nil
  | cons c s ih =>
    rw [List.mem_cons, not_or] at hs
    cases k with
    | zero =>
      rw [escaped, List.mem_append, not_or]
      refine ⟨?_, ih hs.2 _⟩
      split_ifs
      · exact escapeOf_noNul c
      · simpa using hs.1
    | succ k =>
      rw [escaped, List.mem_cons, not_or]
      exact ⟨hs.1, ih hs.2 k⟩

/-- The length overflows on its way from `n + 2 k` down to `n` only across `2^31`. -/
theorem toInt_sub_two {n k : ℕ} (h : n + 2 * k < 2 ^ 32) :
    -2 ^ 31 ≤ toInt (n + 2 * k : ℕ) - 2 * k ↔ n + 2 * k < 2 ^ 31 ∨ 2 ^ 31 ≤ n := by
  rw [toInt, Int.bmod_def]
  split <;> omega

theorem escaped_lt (h : b.Filled []) (hfits : EscapeFits e.table b s) : s.length + 2 * escapes e.table 0 s < 2 ^ 32 := by
  rcases hfits with hfits | hfits
  · omega
  · exact hfits.trans h.size_lt

/-- What keeps the length from overflowing. -/
theorem shrinks_escaped (hlt : s.length + 2 * escapes e.table 0 s < 2 ^ 32) (heq : unescaped 0 (escaped e.table 0 s) = s) :
    -2 ^ 31 ≤ toInt (escaped e.table 0 s).length - shrinks (escaped e.table 0 s) ↔
      s.length + 2 * escapes e.table 0 s < 2 ^ 31 ∨ 2 ^ 31 ≤ s.length := by
  rw [← toInt_sub_two hlt, shrinks, heq, escaped_length]
  omega

theorem Undone.undoable (h : b.Filled []) (hlt : s.length < 2 ^ 32) (hs : 0 ∉ s) (hu : Undone e b s) : Undoable e b s := by
  obtain ⟨-, -, b', b'', -, hcall, -, hunescape, hreads⟩ := hu
  have hfits : EscapeFits e.table b s := by
    by_contra hfits
    rw [call_eq] at hcall
    exact escapeWithTable_escapes h hlt hfits hcall
  by_cases hne : s = []
  · subst hne
    exact ⟨rfl, hfits, .inl (by simp [escapes])⟩
  have hlt' := escaped_lt h hfits
  obtain ⟨-, c, rest, -, hcall', hlen, hcells⟩ := escapeWithTable_eq h hlt hne hfits
  rw [← call_eq] at hcall'
  cases hcall'.symm.trans hcall
  obtain ⟨hok, herr⟩ := unescapeUri_eq hlen hcells (escaped_noNul hs 0) (by rwa [escaped_length])
  have hle : -2 ^ 31 ≤ toInt (escaped e.table 0 s).length - shrinks (escaped e.table 0 s) := by
    by_contra hover
    cases (herr (lt_of_not_ge hover)).symm.trans hunescape
  obtain ⟨d, hd, hreads'⟩ := hok hle
  cases hd.symm.trans hunescape
  have heq := hreads'.unique hreads
  exact ⟨(unescaped_escaped_iff e.tableOk hs).1 heq, hfits, (shrinks_escaped hlt' heq).1 hle⟩

theorem Undoable.undone (h : b.Filled []) (hlt : s.length < 2 ^ 32) (hs : 0 ∉ s) (hu : Undoable e b s) : Undone e b s := by
  by_cases hne : s = []
  · subst hne
    obtain ⟨b₁, hwrite, -⟩ := writeEscaped_eq (s := []) e.table h (by simp [escaped])
    have hcall : e.call b [] = .ok b := by
      rw [call_eq]
      rfl
    have hlen : b.len = 0 := h.reads.1
    have hunescape : chulaBufferUnescapeUri b = .ok b := by rw [chulaBufferUnescapeUri, if_pos hlen]
    exact ⟨b₁, _, b, b, hwrite, hcall, hlen, hunescape, h.reads⟩
  have hlt' := escaped_lt h hu.fits
  have heq := (unescaped_escaped_iff e.tableOk hs).2 hu.noStray
  obtain ⟨b₁, b', rest, hwrite, hcall, hlen, hcells⟩ := escapeWithTable_eq h hlt hne hu.fits
  rw [← call_eq] at hcall
  obtain ⟨hok, -⟩ := unescapeUri_eq hlen hcells (escaped_noNul hs 0) (by rwa [escaped_length])
  obtain ⟨b'', hunescape, hreads⟩ := hok ((shrinks_escaped hlt' heq).2 hu.int)
  rw [heq] at hreads
  exact ⟨b₁, _, b', b'', hwrite, hcall, hlen, hunescape, hreads⟩

/-- **The round trip** of escaping and unescaping works exactly then. -/
theorem escape_undone_iff (h : b.Filled []) (hlt : s.length < 2 ^ 32) (hs : 0 ∉ s) : Undone e b s ↔ Undoable e b s :=
  ⟨Undone.undoable h hlt hs, Undoable.undone h hlt hs⟩

/-- `"a%41"`. -/
theorem escape_undone_iff_percent : Undone .uri RawBuffer.chulaBufInit [97, 37, 52, 49] :=
  (escape_undone_iff RawBuffer.filled_null (by decide) (by decide)).2 ⟨by decide, .inl (by decide), .inl (by decide)⟩

/-- "%41" behind a lead octet: it is copied as it is, and comes back as "A". -/
theorem escape_not_undone : ¬Undone .uri RawBuffer.chulaBufInit [240, 37, 52, 49] := by
  intro hu
  exact absurd (hu.undoable RawBuffer.filled_null (by decide) (by decide)).noStray (by decide)

end RoundTrip

end LibHpack
