import Mathlib.Tactic
import Mathlib.Data.List.Sort
import LibHpack.Chula

/-!
# LibHpack.BitmapSet — sets of ring slots (bitmap_set.c)

`hpack_set_t` is an array of two 64-bit words (`HPACK_SET_NUM_ENTRIES` on a machine with `__WORDSIZE` 64), one bit for
each of the 128 slots (`HPACK_MAX_HEADER_TABLE_ENTRIES`).  Each operation gets its membership lemma (`exists_*`), so
that no later proof looks at words.
-/

namespace LibHpack

/-- `hpack_set_t`. -/
abbrev HpackSet := Fin 2 → BitVec 64

/-- The word `idx >> BITMAP_SET_SHIFT`. -/
def setWord (idx : ℕ) : Fin 2 := Fin.ofNat 2 (idx >>> 6)

/-- The mask `1 << (idx & BITMAP_SET_MASK)`. -/
def setBit (idx : ℕ) : BitVec 64 := 1#64 <<< (idx &&& 63)

def hpackSetClear : HpackSet := fun _ => 0#64

def hpackSetFill : HpackSet := fun _ => ~~~0#64

def hpackSetInit (fillSet : Bool) : HpackSet := if fillSet then hpackSetFill else hpackSetClear

def hpackSetAdd (s : HpackSet) (idx : ℕ) : Ret × HpackSet :=
  if 128 ≤ idx then (.error, s)
  else (.ok, Function.update s (setWord idx) (s (setWord idx) ||| setBit idx))

def hpackSetRemove (s : HpackSet) (idx : ℕ) : Ret × HpackSet :=
  if 128 ≤ idx then (.error, s)
  else (.ok, Function.update s (setWord idx) (s (setWord idx) &&& ~~~setBit idx))

def hpackSetUnion (s1 s2 : HpackSet) : HpackSet := fun i => s1 i ||| s2 i

def hpackSetRelativeComp (s1 s2 : HpackSet) : HpackSet := fun i => s1 i &&& ~~~s2 i

def hpackSetIntersection (s1 s2 : HpackSet) : HpackSet := fun i => s1 i &&& s2 i

def hpackSetComplement (s : HpackSet) : HpackSet := fun i => ~~~s i

def hpackSetExists (s : HpackSet) (idx : ℕ) : Bool :=
  if 128 ≤ idx then false else s (setWord idx) &&& setBit idx != 0#64

def hpackSetIsEmpty (s : HpackSet) : Bool := decide (∀ i, s i = 0#64)

def hpackSetIsFull (s : HpackSet) : Bool := decide (∀ i, s i = ~~~0#64)

def hpackSetEquals (s1 s2 : HpackSet) : Bool := decide (∀ i, s1 i ^^^ s2 i = 0#64)

/-- `hpack_set_set`: the clone of a set. -/
def hpackSetSet (s2 : HpackSet) : HpackSet := s2

/-- `hpack_set_iterator_t` without its pointer to the set, which the operations take as an argument. -/
structure SetIterator where
  bit : ℕ
  entry : ℕ
  deriving DecidableEq, Repr

def hpackSetIterInit : SetIterator := ⟨0, 0⟩

def hpackSetIterReset : SetIterator := ⟨0, 0⟩

/-- `~((hpack_set_entry_t) (1 << bit) - 1)`.  `1 << bit` is a shift of an `int`, converted to 64 bits afterwards: the
count is taken modulo 32, as x86 does, and a result with bit 31 set is sign-extended. -/
def iterMask (bit : ℕ) : BitVec 64 := ~~~((1#32 <<< (bit % 32)).signExtend 64 - 1#64)

/-- The inner loop of `hpack_set_iter_next`: the first set bit from `bit` on, and the bit after it. -/
def iterScan (w : BitVec 64) : ℕ → ℕ → Option ℕ × ℕ
  | 0, bit => (none, bit)
  | fuel + 1, bit => if w &&& (1#64 <<< bit) != 0#64 then (some bit, bit + 1) else iterScan w fuel (bit + 1)

/-- The outer loop of `hpack_set_iter_next`, at most one turn for each word. -/
def iterLoop (s : HpackSet) : ℕ → SetIterator → Option ℕ × SetIterator
  | 0, it => (none, it)
  | fuel + 1, it =>
    if it.entry < 2 then
      let w := s (Fin.ofNat 2 it.entry)
      if w &&& iterMask it.bit != 0#64 then
        let (r, bit) := iterScan w (64 - it.bit) it.bit
        let it' : SetIterator := if bit = 64 then ⟨0, it.entry + 1⟩ else ⟨bit, it.entry⟩
        match r with
        | some b => (some (b + it.entry * 64), it')
        | none => iterLoop s fuel it'
      else iterLoop s fuel ⟨0, it.entry + 1⟩
    else (none, it)

/-- `hpack_set_iter_next`: `none` is the result `-1`. -/
def hpackSetIterNext (s : HpackSet) (it : SetIterator) : Option ℕ × SetIterator := iterLoop s 2 it

/-! ### Membership -/

section Membership

variable {s s1 s2 : HpackSet} {i j : ℕ}

theorem setBit_getLsbD (j k : ℕ) (hk : k < 64) : (setBit j).getLsbD k = decide (k = j % 64) := by
  have h63 : j &&& 63 = j % 64 := Nat.and_two_pow_sub_one_eq_mod j 6
  simp only [setBit, h63, BitVec.getLsbD_shiftLeft, BitVec.getLsbD_one, hk, decide_true, Bool.true_and]
  by_cases h : k < j % 64
  · simp [h, h.ne]
  · by_cases h' : k = j % 64
    · simp [h']
    · have : k - j % 64 ≠ 0 := by omega
      simp [h, h', this]

theorem setWord_eq_iff (hi : i < 128) (hj : j < 128) : setWord i = setWord j ↔ i / 64 = j / 64 := by
  simp only [setWord, Fin.ext_iff, Fin.val_ofNat, Nat.shiftRight_eq_div_pow]
  omega

/-- A word meets the mask of `i` exactly when its bit is set. -/
theorem and_setBit_ne_zero (w : BitVec 64) (i : ℕ) : (w &&& setBit i != 0#64) = w.getLsbD (i % 64) := by
  have hi : i % 64 < 64 := Nat.mod_lt i (by decide)
  rw [Bool.eq_iff_iff, bne_iff_ne]
  constructor
  · intro h
    by_contra hw
    refine h (BitVec.eq_of_getLsbD_eq fun k hk => ?_)
    rw [BitVec.getLsbD_and, setBit_getLsbD i k hk, BitVec.getLsbD_zero]
    by_cases hki : k = i % 64
    · rw [hki, Bool.eq_false_iff.mpr hw, Bool.false_and]
    · simp [hki]
  · intro h h0
    have := congrArg (fun v => v.getLsbD (i % 64)) h0
    simp [setBit_getLsbD i _ hi, h] at this

/-- Membership is the bit of the slot. -/
theorem exists_eq_getLsbD (hi : i < 128) : hpackSetExists s i = (s (setWord i)).getLsbD (i % 64) := by
  rw [hpackSetExists, if_neg (by omega), and_setBit_ne_zero]

theorem lt_of_exists (h : hpackSetExists s i = true) : i < 128 := by
  by_contra hi
  rw [hpackSetExists, if_pos (by omega)] at h
  exact Bool.false_ne_true h

/-- Two sets with the same members are the same words. -/
theorem HpackSet.ext (h : ∀ i < 128, hpackSetExists s1 i = hpackSetExists s2 i) : s1 = s2 := by
  funext w
  refine BitVec.eq_of_getLsbD_eq fun k hk => ?_
  have hw := w.isLt
  have hlt : (w : ℕ) * 64 + k < 128 := by omega
  have hword : setWord ((w : ℕ) * 64 + k) = w := by
    simp only [setWord, Fin.ext_iff, Fin.val_ofNat, Nat.shiftRight_eq_div_pow]
    omega
  have := h _ hlt
  rwa [exists_eq_getLsbD hlt, exists_eq_getLsbD hlt, hword, show ((w : ℕ) * 64 + k) % 64 = k by omega] at this

@[simp] theorem exists_clear : hpackSetExists hpackSetClear i = false := by
  simp [hpackSetExists, hpackSetClear]

theorem exists_fill (hi : i < 128) : hpackSetExists hpackSetFill i = true := by
  have hlt : i % 64 < 64 := Nat.mod_lt i (by decide)
  rw [exists_eq_getLsbD hi, hpackSetFill, BitVec.getLsbD_not, BitVec.getLsbD_zero]
  simp [hlt]

@[simp] theorem exists_init_false : hpackSetExists (hpackSetInit false) i = false := exists_clear

theorem exists_add (hj : j < 128) :
    hpackSetExists (hpackSetAdd s j).2 i = (decide (i = j) || hpackSetExists s i) := by
  by_cases hi : i < 128
  swap
  · simp only [hpackSetExists, if_pos (show 128 ≤ i by omega)]
    simp [show i ≠ j by omega]
  rw [exists_eq_getLsbD hi, exists_eq_getLsbD hi, hpackSetAdd, if_neg (by omega)]
  by_cases hw : setWord i = setWord j
  · have hij := (setWord_eq_iff hi hj).mp hw
    dsimp only
    rw [hw, Function.update_self, BitVec.getLsbD_or, setBit_getLsbD j _ (Nat.mod_lt i (by decide)), Bool.or_comm]
    congr 1
    exact decide_eq_decide.mpr (by omega)
  · have hij := mt (setWord_eq_iff hi hj).mpr hw
    dsimp only
    rw [Function.update_of_ne hw]
    simp [show i ≠ j by rintro rfl; exact hij rfl]

theorem exists_remove (hj : j < 128) :
    hpackSetExists (hpackSetRemove s j).2 i = (!decide (i = j) && hpackSetExists s i) := by
  by_cases hi : i < 128
  swap
  · simp only [hpackSetExists, if_pos (show 128 ≤ i by omega), Bool.and_false]
  rw [exists_eq_getLsbD hi, exists_eq_getLsbD hi, hpackSetRemove, if_neg (by omega)]
  by_cases hw : setWord i = setWord j
  · have hij := (setWord_eq_iff hi hj).mp hw
    have hlt : i % 64 < 64 := Nat.mod_lt i (by decide)
    dsimp only
    rw [hw, Function.update_self, BitVec.getLsbD_and, BitVec.getLsbD_not, setBit_getLsbD j _ hlt, Bool.and_comm]
    congr 1
    simp only [hlt, decide_true, Bool.true_and]
    congr 1
    exact decide_eq_decide.mpr (by omega)
  · have hij := mt (setWord_eq_iff hi hj).mpr hw
    dsimp only
    rw [Function.update_of_ne hw]
    simp [show i ≠ j by rintro rfl; exact hij rfl]

theorem exists_union : hpackSetExists (hpackSetUnion s1 s2) i = (hpackSetExists s1 i || hpackSetExists s2 i) := by
  by_cases hi : i < 128
  · simp [exists_eq_getLsbD hi, hpackSetUnion]
  · simp [hpackSetExists, show 128 ≤ i by omega]

theorem exists_intersection :
    hpackSetExists (hpackSetIntersection s1 s2) i = (hpackSetExists s1 i && hpackSetExists s2 i) := by
  by_cases hi : i < 128
  · simp [exists_eq_getLsbD hi, hpackSetIntersection]
  · simp [hpackSetExists, show 128 ≤ i by omega]

theorem exists_complement : hpackSetExists (hpackSetComplement s) i = (decide (i < 128) && !hpackSetExists s i) := by
  by_cases hi : i < 128
  · have : i % 64 < 64 := Nat.mod_lt i (by decide)
    simp [exists_eq_getLsbD hi, hpackSetComplement, this, hi]
  · simp [hpackSetExists, show 128 ≤ i by omega]

theorem exists_relativeComp :
    hpackSetExists (hpackSetRelativeComp s1 s2) i = (hpackSetExists s1 i && !hpackSetExists s2 i) := by
  by_cases hi : i < 128
  · have : i % 64 < 64 := Nat.mod_lt i (by decide)
    simp [exists_eq_getLsbD hi, hpackSetRelativeComp, this]
  · simp [hpackSetExists, show 128 ≤ i by omega]

theorem isFull_iff : hpackSetIsFull s = true ↔ ∀ i < 128, hpackSetExists s i = true := by
  constructor
  · intro h i hi
    have hs : s = hpackSetFill := funext (of_decide_eq_true h)
    rw [hs, exists_fill hi]
  · intro h
    have hs : s = hpackSetFill := HpackSet.ext fun i hi => by rw [h i hi, exists_fill hi]
    subst hs
    simp [hpackSetIsFull, hpackSetFill]

theorem isEmpty_iff : hpackSetIsEmpty s = true ↔ ∀ i, hpackSetExists s i = false := by
  constructor
  · intro h i
    have hs : s = hpackSetClear := funext (of_decide_eq_true h)
    rw [hs, exists_clear]
  · intro h
    have hs : s = hpackSetClear := HpackSet.ext fun i _ => by rw [h i, exists_clear]
    subst hs
    simp [hpackSetIsEmpty, hpackSetClear]

/-- Two sets are equal when they have the same members. -/
theorem equals_iff : hpackSetEquals s1 s2 = true ↔ ∀ i, hpackSetExists s1 i = hpackSetExists s2 i := by
  rw [hpackSetEquals, decide_eq_true_iff]
  constructor
  · intro h i
    have hs : s1 = s2 := funext fun k => BitVec.xor_eq_zero_iff.mp (h k)
    rw [hs]
  · intro h k
    rw [HpackSet.ext fun i _ => h i, BitVec.xor_self]

end Membership

/-! ### Iteration -/

section Iteration

variable {s : HpackSet} {w : BitVec 64} {i p q bit e fuel : ℕ}

/-- The iterator before slot `p`. -/
def iterAt (p : ℕ) : SetIterator := ⟨p % 64, p / 64⟩

/-- The mask is computed in 32 bits, and bit 31 is the sign. -/
theorem iterMask_word : ∀ k < 32, iterMask k = if k = 31 then 1#64 <<< 31 else BitVec.allOnes 64 <<< k := by
  decide

/-- Before slot 31 of a word the mask has only that slot, and before slot 63 too; elsewhere it has all that follow, and
from slot 32 on some that do not. -/
theorem iterMask_getLsbD : ∀ bit < 64, ∀ j < 64,
    (iterMask bit).getLsbD j = if bit % 32 = 31 then decide (j = 31) else decide (bit % 32 ≤ j) := by
  intro bit _ j hj
  have hword : iterMask bit = iterMask (bit % 32) := by rw [iterMask, iterMask, Nat.mod_mod]
  rw [hword, iterMask_word _ (Nat.mod_lt bit (by decide))]
  split_ifs with h31
  · rw [BitVec.getLsbD_shiftLeft, BitVec.getLsbD_one]
    grind
  · rw [BitVec.getLsbD_shiftLeft, BitVec.getLsbD_allOnes]
    grind

/-- The bits of a word are the slots of the set. -/
theorem word_getLsbD (he : e < 2) (hb : b < 64) : (s (Fin.ofNat 2 e)).getLsbD b = hpackSetExists s (64 * e + b) := by
  have hword : setWord (64 * e + b) = Fin.ofNat 2 e := by
    simp only [setWord, Fin.ext_iff, Fin.val_ofNat, Nat.shiftRight_eq_div_pow]
    omega
  rw [exists_eq_getLsbD (by omega), hword, show (64 * e + b) % 64 = b by omega]

theorem and_shift_ne_zero (hb : b < 64) : (w &&& (1#64 <<< b) != 0#64) = w.getLsbD b := by
  have h63 : b &&& 63 = b := (Nat.and_two_pow_sub_one_eq_mod b 6).trans (Nat.mod_eq_of_lt hb)
  have h := and_setBit_ne_zero w b
  rwa [setBit, h63, Nat.mod_eq_of_lt hb] at h

/-- What the scan of a word finds. -/
theorem iterScan_eq (h64 : bit + fuel ≤ 64) :
    (∃ b, iterScan w fuel bit = (some b, b + 1) ∧ bit ≤ b ∧ b < bit + fuel ∧ w.getLsbD b = true ∧
      ∀ j, bit ≤ j → j < b → ¬ w.getLsbD j = true) ∨
    (iterScan w fuel bit = (none, bit + fuel) ∧ ∀ j, bit ≤ j → j < bit + fuel → ¬ w.getLsbD j = true) := by
  induction fuel generalizing bit with
  | zero => exact .inr ⟨rfl, fun j hj hlt => absurd hlt (not_lt.mpr hj)⟩
  | succ fuel ih =>
    rw [iterScan, and_shift_ne_zero (by omega)]
    by_cases hset : w.getLsbD bit = true
    · rw [if_pos hset]
      exact .inl ⟨bit, rfl, le_rfl, by omega, hset, fun j hj hlt => absurd hlt (not_lt.mpr hj)⟩
    rw [if_neg hset]
    have hcons : ∀ n, (∀ j, bit + 1 ≤ j → j < n → ¬ w.getLsbD j = true) → ∀ j, bit ≤ j → j < n → ¬ w.getLsbD j = true :=
      fun n hn j hj hlt => by
        rcases hj.eq_or_lt with rfl | hj
        · exact hset
        · exact hn j hj hlt
    rcases ih (show bit + 1 + fuel ≤ 64 by omega) with ⟨b, heq, hle, hlt, hb, hmin⟩ | ⟨heq, hnone⟩
    · exact .inl ⟨b, heq, by omega, by omega, hb, hcons b hmin⟩
    · rw [show bit + (fuel + 1) = bit + 1 + fuel by omega]
      exact .inr ⟨heq, hcons _ hnone⟩

/-- The slot before which an iterator is. -/
def SetIterator.pos (it : SetIterator) : ℕ := 64 * it.entry + it.bit

/-- It is before a slot of a word, or behind all of them. -/
structure SetIterator.Ok (it : SetIterator) : Prop where
  bit_lt : it.bit < 64
  pos_le : it.pos ≤ 128

@[simp] theorem iterAt_pos (p : ℕ) : (iterAt p).pos = p := Nat.div_add_mod p 64

theorem SetIterator.Ok.iterAt (h : p ≤ 128) : (iterAt p).Ok := ⟨Nat.mod_lt p (Nat.succ_pos 63), by rwa [iterAt_pos]⟩

theorem SetIterator.Ok.eq {it : SetIterator} (h : it.Ok) : it = LibHpack.iterAt it.pos := by
  obtain ⟨bit, e⟩ := it
  have hbit : bit < 64 := h.bit_lt
  simp only [SetIterator.pos, LibHpack.iterAt, SetIterator.mk.injEq]
  omega

/-- The slots of a set from `p` on, in their order. -/
def slotsFrom (s : HpackSet) (p : ℕ) : List ℕ := (List.range 128).filter fun i => decide (p ≤ i) && hpackSetExists s i

theorem mem_slotsFrom : i ∈ slotsFrom s p ↔ p ≤ i ∧ hpackSetExists s i = true := by
  rw [slotsFrom, List.mem_filter, List.mem_range, Bool.and_eq_true, decide_eq_true_iff]
  exact and_iff_right_of_imp fun h => lt_of_exists h.2

theorem sorted_slotsFrom (s : HpackSet) (p : ℕ) : (slotsFrom s p).Pairwise (· < ·) :=
  List.pairwise_lt_range.filter _

/-- Places without a slot between them have the same slots behind them. -/
theorem slotsFrom_congr (hpq : p ≤ q) (h : ∀ j, p ≤ j → j < q → ¬ hpackSetExists s j = true) :
    slotsFrom s p = slotsFrom s q := by
  rw [slotsFrom, slotsFrom]
  apply List.filter_congr
  intro j _
  rw [Bool.eq_iff_iff, Bool.and_eq_true, Bool.and_eq_true, decide_eq_true_iff, decide_eq_true_iff]
  refine and_congr_left fun hj => ⟨fun hp => ?_, fun hq => hpq.trans hq⟩
  by_contra hlt
  exact h j hp (not_le.mp hlt) hj

/-- The first slot and the others. -/
theorem slotsFrom_cons (hi : hpackSetExists s i = true) (hp : p ≤ i)
    (hmin : ∀ j, p ≤ j → j < i → ¬ hpackSetExists s j = true) : slotsFrom s p = i :: slotsFrom s (i + 1) := by
  have hrest : (i :: slotsFrom s (i + 1)).Pairwise (· < ·) :=
    List.pairwise_cons.mpr ⟨fun j hj => (mem_slotsFrom.mp hj).1, sorted_slotsFrom s (i + 1)⟩
  refine (sorted_slotsFrom s p).eq_of_mem_iff hrest fun j => ?_
  rw [List.mem_cons, mem_slotsFrom, mem_slotsFrom]
  constructor
  · rintro ⟨hj, hex⟩
    rcases lt_trichotomy j i with hlt | rfl | hlt
    · exact absurd hex (hmin j hj hlt)
    · exact .inl rfl
    · exact .inr ⟨hlt, hex⟩
  · rintro (rfl | ⟨hj, hex⟩)
    · exact ⟨hp, hi⟩
    · exact ⟨by omega, hex⟩

/-- The mask of the iterator hides a word: before slot 31 of the word when that is not in the set, and before slot 63
when slot 31 is not. -/
def Hidden (s : HpackSet) (p : ℕ) : Prop :=
  (p % 64 = 31 ∧ ¬ hpackSetExists s p = true) ∨ (p % 64 = 63 ∧ ¬ hpackSetExists s (p - 32) = true)

instance (s : HpackSet) (p : ℕ) : Decidable (Hidden s p) := by unfold Hidden; infer_instance

/-- Where the search for the next slot starts: behind the word if it is hidden. -/
def searchFrom (s : HpackSet) (p : ℕ) : ℕ := if Hidden s p then 64 * (p / 64 + 1) else p

/-- When a word meets the mask. -/
theorem and_iterMask_iff (hbit : bit < 64) : (w &&& iterMask bit != 0#64) = true ↔
    ∃ j < 64, w.getLsbD j = true ∧ if bit % 32 = 31 then j = 31 else bit % 32 ≤ j := by
  have hmask : ∀ j < 64, (w &&& iterMask bit).getLsbD j = true ↔
      w.getLsbD j = true ∧ if bit % 32 = 31 then j = 31 else bit % 32 ≤ j := fun j hj => by
    rw [BitVec.getLsbD_and, iterMask_getLsbD bit hbit j hj, Bool.and_eq_true]
    split_ifs <;> rw [decide_eq_true_iff]
  rw [bne_iff_ne]
  constructor
  · intro h
    by_contra hnone
    refine h (BitVec.eq_of_getLsbD_eq fun j hj => ?_)
    rw [BitVec.getLsbD_zero, ← Bool.not_eq_true, hmask j hj]
    exact fun hj' => hnone ⟨j, hj, hj'⟩
  · rintro ⟨j, hj, hset⟩ h
    have := (hmask j hj).mpr hset
    rw [h, BitVec.getLsbD_zero] at this
    exact Bool.false_ne_true this

/-- A word that meets the mask is not hidden. -/
theorem searchFrom_of_mask (he : e < 2) (hbit : bit < 64)
    (h : (s (Fin.ofNat 2 e) &&& iterMask bit != 0#64) = true) : searchFrom s (64 * e + bit) = 64 * e + bit := by
  obtain ⟨j, hj, hset, hmask⟩ := (and_iterMask_iff hbit).mp h
  rw [word_getLsbD he hj] at hset
  refine if_neg ?_
  rintro (⟨h31, hnot⟩ | ⟨h63, hnot⟩)
  · rw [if_pos (by omega)] at hmask
    rw [show 64 * e + bit = 64 * e + j by omega] at hnot
    exact hnot hset
  · rw [if_pos (by omega)] at hmask
    rw [show 64 * e + bit - 32 = 64 * e + j by omega] at hnot
    exact hnot hset

/-- One that does not has no slot from the place on, or is hidden. -/
theorem slotsFrom_of_mask (he : e < 2) (hbit : bit < 64)
    (h : ¬ (s (Fin.ofNat 2 e) &&& iterMask bit != 0#64) = true) :
    slotsFrom s (searchFrom s (64 * e + bit)) = slotsFrom s (64 * (e + 1)) := by
  have hclear : ∀ j < 64, hpackSetExists s (64 * e + j) = true → ¬ if bit % 32 = 31 then j = 31 else bit % 32 ≤ j := by
    intro j hj hex hmask
    exact h ((and_iterMask_iff hbit).mpr ⟨j, hj, by rw [word_getLsbD he hj, hex], hmask⟩)
  by_cases hhid : Hidden s (64 * e + bit)
  · rw [searchFrom, if_pos hhid, show (64 * e + bit) / 64 = e by omega]
  rw [searchFrom, if_neg hhid]
  have h31 : bit % 32 ≠ 31 := by
    intro h31
    have hex : hpackSetExists s (64 * e + 31) = true := by
      by_contra hnot
      refine hhid ?_
      by_cases hlow : bit = 31
      · exact .inl ⟨by omega, by rwa [hlow]⟩
      · exact .inr ⟨by omega, by rwa [show 64 * e + bit - 32 = 64 * e + 31 by omega]⟩
    exact hclear 31 (by decide) hex (by rw [if_pos h31])
  apply slotsFrom_congr
  · omega
  · intro j hj hlt hex
    rw [show j = 64 * e + (j - 64 * e) by omega] at hex
    refine hclear _ (by omega) hex ?_
    rw [if_neg h31]
    omega

theorem slotsFrom_end (h : 128 ≤ p) : slotsFrom s p = [] := by
  rw [List.eq_nil_iff_forall_not_mem]
  intro i hi
  have hlt := lt_of_exists (mem_slotsFrom.mp hi).2
  have hle := (mem_slotsFrom.mp hi).1
  omega

/-- The search from the start of a word starts there. -/
theorem searchFrom_word (e : ℕ) : searchFrom s (64 * e) = 64 * e := by
  refine if_neg ?_
  rintro (⟨h31, -⟩ | ⟨h63, -⟩) <;> omega

/-- The scan of a word finds the first slot of the word from the place on. -/
theorem iterScan_slots (he : e < 2) (hbit : bit < 64) :
    (∃ b, iterScan (s (Fin.ofNat 2 e)) (64 - bit) bit = (some b, b + 1) ∧ b < 64 ∧
      slotsFrom s (64 * e + bit) = (64 * e + b) :: slotsFrom s (64 * e + b + 1)) ∨
    (iterScan (s (Fin.ofNat 2 e)) (64 - bit) bit = (none, 64) ∧
      slotsFrom s (64 * e + bit) = slotsFrom s (64 * (e + 1))) := by
  have hfree : ∀ n ≤ 64, (∀ j, bit ≤ j → j < n → ¬ (s (Fin.ofNat 2 e)).getLsbD j = true) →
      ∀ j, 64 * e + bit ≤ j → j < 64 * e + n → ¬ hpackSetExists s j = true := by
    intro n hn hclear j hj hjn
    have := hclear (j - 64 * e) (by omega) (by omega)
    rwa [word_getLsbD he (by omega), show 64 * e + (j - 64 * e) = j by omega] at this
  rcases iterScan_eq (w := s (Fin.ofNat 2 e)) (show bit + (64 - bit) ≤ 64 by omega) with
    ⟨b, heq, hle, hlt, hb, hmin⟩ | ⟨heq, hnone⟩
  · rw [word_getLsbD he (by omega)] at hb
    exact .inl ⟨b, heq, by omega, slotsFrom_cons hb (by omega) (hfree b (by omega) hmin)⟩
  · rw [show bit + (64 - bit) = 64 by omega] at heq hnone
    exact .inr ⟨heq, slotsFrom_congr (by omega) (hfree 64 le_rfl hnone)⟩

/-- The iterator finds the first slot from where its search starts. -/
theorem iterLoop_eq (hfuel : 2 ≤ e + fuel) (hbit : bit < 64) (he : 64 * e + bit ≤ 128) :
    iterLoop s fuel ⟨bit, e⟩ = match slotsFrom s (searchFrom s (64 * e + bit)) with
      | [] => (none, iterAt 128)
      | i :: _ => (some i, iterAt (i + 1)) := by
  induction fuel generalizing bit e with
  | zero =>
    obtain ⟨rfl, rfl⟩ : e = 2 ∧ bit = 0 := by omega
    rw [Nat.add_zero (64 * 2), searchFrom_word, slotsFrom_end le_rfl]
    rfl
  | succ fuel ih =>
    by_cases he2 : e < 2
    swap
    · -- behind the last word
      obtain ⟨rfl, rfl⟩ : e = 2 ∧ bit = 0 := by omega
      rw [Nat.add_zero (64 * 2), searchFrom_word, slotsFrom_end le_rfl, iterLoop, if_neg he2]
      rfl
    have hnext := ih (show 2 ≤ e + 1 + fuel by omega) (Nat.succ_pos 63) (show 64 * (e + 1) + 0 ≤ 128 by omega)
    rw [Nat.add_zero (64 * (e + 1)), searchFrom_word] at hnext
    rw [iterLoop, if_pos he2]
    dsimp only
    by_cases hmask : (s (Fin.ofNat 2 e) &&& iterMask bit != 0#64) = true
    swap
    · rw [if_neg hmask, slotsFrom_of_mask he2 hbit hmask]
      exact hnext
    rw [if_pos hmask, searchFrom_of_mask he2 hbit hmask]
    rcases iterScan_slots he2 hbit with ⟨b, heq, hb, hslots⟩ | ⟨heq, hslots⟩
    · rw [heq, hslots]
      dsimp only
      rw [show b + e * 64 = 64 * e + b by omega, iterAt]
      split_ifs with h64
      · rw [show (64 * e + b + 1) % 64 = 0 by omega, show (64 * e + b + 1) / 64 = e + 1 by omega]
      · rw [show (64 * e + b + 1) % 64 = b + 1 by omega, show (64 * e + b + 1) / 64 = e by omega]
    · rw [heq, hslots]
      exact hnext

/-- **The next slot.** -/
theorem iterNext_eq (hp : p ≤ 128) : hpackSetIterNext s (iterAt p) = match slotsFrom s (searchFrom s p) with
    | [] => (none, iterAt 128)
    | i :: _ => (some i, iterAt (i + 1)) := by
  rw [hpackSetIterNext, iterAt, iterLoop_eq (by omega) (by omega) (by omega), show 64 * (p / 64) + p % 64 = p by omega]

/-- A word without slots. -/
theorem iterLoop_skip (bit : ℕ) (he : e < 2) (hempty : ∀ j, hpackSetExists s j = true → j / 64 ≠ e) :
    iterLoop s (fuel + 1) ⟨bit, e⟩ = iterLoop s fuel ⟨0, e + 1⟩ := by
  have hzero : s (Fin.ofNat 2 e) = 0#64 := BitVec.eq_of_getLsbD_eq fun j hj => by
    rw [word_getLsbD he hj, BitVec.getLsbD_zero, ← Bool.not_eq_true]
    intro hj'
    exact hempty _ hj' (by omega)
  simp only [iterLoop, if_pos he, hzero, BitVec.zero_and, bne_self_eq_false, Bool.false_eq_true, if_false]

theorem le_searchFrom (s : HpackSet) (p : ℕ) : p ≤ searchFrom s p := by
  rw [searchFrom]
  split_ifs <;> omega

/-- **The iterator goes forward.** -/
theorem iterNext_pos {it it' : SetIterator} (hok : it.Ok) (h : hpackSetIterNext s it = (some i, it')) :
    it.pos < it'.pos ∧ it'.Ok := by
  rw [hok.eq, iterNext_eq hok.pos_le] at h
  cases hfrom : slotsFrom s (searchFrom s it.pos) with
  | nil =>
    rw [hfrom] at h
    cases h
  | cons j l =>
    rw [hfrom] at h
    cases h
    obtain ⟨hle, hex⟩ := mem_slotsFrom.mp (hfrom ▸ List.mem_cons_self)
    have hlt := lt_of_exists hex
    have hsearch := le_searchFrom s it.pos
    rw [iterAt_pos]
    exact ⟨by omega, .iterAt (by omega)⟩

/-- **The next slot of a set without smaller ones**: it is found, unless the mask hides it. -/
theorem iterNext_some (hi : hpackSetExists s i = true) (hmin : ∀ j, hpackSetExists s j = true → i ≤ j) (hp : p ≤ i)
    (h31 : p % 64 = 31 → i / 64 = p / 64 → i = p) (h63 : p % 64 = 63 → i ≠ p) :
    hpackSetIterNext s (iterAt p) = (some i, iterAt (i + 1)) := by
  have hlt := lt_of_exists hi
  have hfrom : searchFrom s p ≤ i := by
    rw [searchFrom]
    split_ifs with hhid
    swap
    · exact hp
    rcases hhid with ⟨hp31, hnot⟩ | ⟨hp63, -⟩
    · by_contra hle
      exact hnot (h31 hp31 (by omega) ▸ hi)
    · have := h63 hp63
      omega
  rw [iterNext_eq (by omega), slotsFrom_cons hi hfrom fun j _ hji hj => absurd (hmin j hj) (not_le.mpr hji)]

/-- Nothing is found in an empty set. -/
theorem iterNext_none (hempty : ∀ i, ¬ hpackSetExists s i = true) (it : SetIterator) :
    (hpackSetIterNext s it).1 = none := by
  have hloop : ∀ fuel it, (iterLoop s fuel it).1 = none := by
    intro fuel
    induction fuel with
    | zero => exact fun _ => rfl
    | succ fuel ih =>
      intro it
      by_cases he : it.entry < 2
      · rw [iterLoop_skip it.bit he fun j hj => absurd hj (hempty j)]
        exact ih _
      · rw [iterLoop, if_neg he]
  exact hloop 2 it

end Iteration

end LibHpack
