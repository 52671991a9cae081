import Mathlib.Data.List.GetD
import LibHpack.Digest.Sha1

/-!
# LibHpack.Digest.Sha1Rounds — the unravelled SHA-1 transform is the loop over five words of 32 bits

`sha1Rounds` is the plain algorithm.  The code differs from it in two ways: its words have 64 bits, of which the upper half
stays zero (`Sha1Words.widen`), and its 80 macros rotate the names of six variables (`ShaRegs.Shows`) instead of moving five
values.
-/

namespace LibHpack

open Memory Run Streaming

/-! ### The plain algorithm -/

/-- The five words of the algorithm. -/
structure Sha1Words where
  a : UInt32
  b : UInt32
  c : UInt32
  d : UInt32
  e : UInt32
  deriving DecidableEq, Repr

def rotl (x n : UInt32) : UInt32 := (x <<< n) ||| (x >>> (32 - n))

/-- The functions of the four rounds. -/
def sha1Function (i : ℕ) (x y z : UInt32) : UInt32 :=
  match i / 20 with
  | 0 => (x &&& y) ||| (~~~x &&& z)
  | 1 => x ^^^ y ^^^ z
  | 2 => (x &&& y) ||| (x &&& z) ||| (y &&& z)
  | _ => x ^^^ y ^^^ z

def sha1Constant (i : ℕ) : UInt32 :=
  match i / 20 with
  | 0 => 0x5a827999
  | 1 => 0x6ed9eba1
  | 2 => 0x8f1bbcdc
  | _ => 0xca62c1d6

/-- Turn `i`, with its word of the schedule. -/
def sha1Round (v : Sha1Words) (p : UInt32 × ℕ) : Sha1Words :=
  ⟨rotl v.a 5 + sha1Function p.2 v.b v.c v.d + v.e + p.1 + sha1Constant p.2, v.a, rotl v.b 30, v.c, v.d⟩

/-- The word `i` of a chunk. -/
def sha1Word (octets : List UInt8) (i : ℕ) : UInt32 := UInt32.ofNat (beValue ((octets.drop (4 * i)).take 4))

/-- The next word of the schedule. -/
def sha1Next (w : List UInt32) (i : ℕ) : List UInt32 :=
  w ++ [rotl (w.getD (i - 3) 0 ^^^ w.getD (i - 8) 0 ^^^ w.getD (i - 14) 0 ^^^ w.getD (i - 16) 0) 1]

def sha1Schedule (octets : List UInt8) : List UInt32 :=
  (List.range' 16 64).foldl sha1Next ((List.range 16).map (sha1Word octets))

def Sha1Words.add (v w : Sha1Words) : Sha1Words := ⟨v.a + w.a, v.b + w.b, v.c + w.c, v.d + w.d, v.e + w.e⟩

/-- A chunk of 64 octets. -/
def sha1Rounds (v : Sha1Words) (octets : List UInt8) : Sha1Words :=
  v.add ((sha1Schedule octets).zipIdx.foldl sha1Round v)

/-! ### Words of 32 bits in wider ones -/

theorem T32_eq (x : UInt64) : T32 x = x.toUInt32.toUInt64 := by
  apply UInt64.toNat_inj.1
  rw [T32, UInt64.toNat_and, UInt32.toNat_toUInt64, UInt64.toNat_toUInt32]
  exact Nat.and_two_pow_sub_one_eq_mod _ 32

theorem R32_eq (x : UInt32) {n : UInt64} {k : UInt32} (hn : n.toNat = k.toNat) (hk : 0 < k.toNat) (hlt : k.toNat < 32) :
    R32 x.toUInt64 n = (rotl x k).toUInt64 := by
  have h32 : (32 - n).toNat = 32 - k.toNat := by
    rw [UInt64.toNat_sub_of_le _ _ (UInt64.le_iff_toNat_le.2 (by rw [hn]; exact hlt.le)), hn]
    rfl
  have h32' : (32 - k).toNat = 32 - k.toNat := by
    rw [UInt32.toNat_sub_of_le _ _ (UInt32.le_iff_toNat_le.2 hlt.le)]
    rfl
  have hx := x.toNat_lt
  rw [R32, T32_eq, rotl]
  congr 1
  apply UInt32.toNat_inj.1
  have hshift : (x.toNat <<< k.toNat) % 2 ^ 64 % 2 ^ 32 = (x.toNat <<< k.toNat) % 2 ^ 32 :=
    Nat.mod_mod_of_dvd _ (by norm_num)
  have hright : (x.toNat >>> (32 - k.toNat)) % 2 ^ 32 = x.toNat >>> (32 - k.toNat) :=
    Nat.mod_eq_of_lt (lt_of_le_of_lt (Nat.shiftRight_le _ _) hx)
  rw [UInt64.toNat_toUInt32, UInt64.toNat_or, UInt32.toNat_or, UInt64.toNat_shiftLeft, UInt64.toNat_shiftRight,
    UInt32.toNat_shiftLeft, UInt32.toNat_shiftRight, UInt32.toNat_toUInt64, h32, h32', hn, Nat.mod_eq_of_lt (a := k.toNat)
    (b := 64) (by omega), Nat.mod_eq_of_lt (a := k.toNat) (b := 32) hlt, Nat.mod_eq_of_lt (a := 32 - k.toNat) (b := 64)
    (by omega), Nat.mod_eq_of_lt (a := 32 - k.toNat) (b := 32) (by omega), Nat.or_mod_two_pow, hshift, hright]

/-- `T32` of a sum only depends on the lower halves. -/
theorem T32_sum (a c d : UInt32) (w x : UInt64) :
    T32 (a.toUInt64 + x + c.toUInt64 + d.toUInt64 + w) = (a + x.toUInt32 + c + d + w.toUInt32).toUInt64 := by
  simp only [T32_eq, UInt64.toUInt32_add, UInt32.toUInt32_toUInt64]

/-! ### The names of the variables -/

namespace ShaRegs

variable (v : ShaRegs) (r s : ShaReg) (x : UInt64)

@[simp] theorem get_set_self : (v.set r x).get r = x := by
  cases r <;> rfl

theorem get_set_ne (h : s ≠ r) : (v.set r x).get s = v.get s := by
  cases r <;> cases s <;> first | rfl | exact absurd rfl h

/-- Under the names that the macro reads, the variables hold the five words. -/
def Shows (v : ShaRegs) (m : ShaMacro) (w : Sha1Words) : Prop :=
  let (_, p, q, r, s, u) := m.names
  v.get p = w.a.toUInt64 ∧ v.get q = w.b.toUInt64 ∧ v.get r = w.c.toUInt64 ∧ v.get s = w.d.toUInt64 ∧
    v.get u = w.e.toUInt64

end ShaRegs

/-- The macro of turn `i`. -/
def shaTurn (i : ℕ) : ShaMacro :=
  match i % 6 with
  | 0 => .fa
  | 1 => .fb
  | 2 => .fc
  | 3 => .fd
  | 4 => .fe
  | _ => .ft

def shaTurnF (i : ℕ) : ShaF :=
  match i / 20 with
  | 0 => .f1
  | 1 => .f2
  | 2 => .f3
  | _ => .f4

theorem shaMacros_regular : ∀ p ∈ shaMacros.zipIdx, p.1 = (shaTurn p.2, shaTurnF p.2) := by
  decide +kernel

theorem shaTurnF_eval (i : ℕ) (x y z : UInt32) :
    ((shaTurnF i).eval x.toUInt64 y.toUInt64 z.toUInt64).toUInt32 = sha1Function i x y z := by
  rw [shaTurnF, sha1Function]
  split <;>
    simp only [ShaF.eval, UInt64.toUInt32_or, UInt64.toUInt32_and, UInt64.toUInt32_xor, UInt64.toUInt32_not,
      UInt32.toUInt32_toUInt64]

theorem shaTurnF_const (i : ℕ) : (shaTurnF i).const.toUInt32 = sha1Constant i := by
  rw [shaTurnF, sha1Constant]
  split <;> rfl

/-- The names that the next macro reads. -/
theorem shaTurn_next (i : ℕ) : ∃ dst p q r s u, (shaTurn i).names = (dst, p, q, r, s, u) ∧
    (shaTurn (i + 1)).names = (u, dst, p, q, r, s) ∧ (∀ x ∈ [p, r, s], x ≠ dst) ∧ (∀ x ∈ [dst, p, r, s], x ≠ q) ∧
      q ≠ dst := by
  have hmod : i % 6 = 0 ∨ i % 6 = 1 ∨ i % 6 = 2 ∨ i % 6 = 3 ∨ i % 6 = 4 ∨ i % 6 = 5 := by omega
  rcases hmod with h | h | h | h | h | h <;>
    (have h' : (i + 1) % 6 = (i % 6 + 1) % 6 := by omega
     rw [h] at h'
     refine ⟨_, _, _, _, _, _, rfl, ?_⟩
     rw [shaTurn, shaTurn, h, h']
     decide)

/-- **One turn.** -/
theorem shaMacro_shows {v : ShaRegs} {w : Sha1Words} {i : ℕ} (h : v.Shows (shaTurn i) w) (x : UInt32) :
    (shaMacro v ((shaTurn i, shaTurnF i), x.toUInt64)).Shows (shaTurn (i + 1)) (sha1Round w (x, i)) := by
  obtain ⟨dst, p, q, r, s, u, hnames, hnext, hdst, hq, hqdst⟩ := shaTurn_next i
  rw [ShaRegs.Shows, hnames] at h
  obtain ⟨hp, hqv, hr, hs, hu⟩ := h
  simp only [List.forall_mem_cons, List.not_mem_nil, false_implies, implies_true, and_true] at hdst hq
  have h30 : R32 w.b.toUInt64 30 = (rotl w.b 30).toUInt64 := R32_eq w.b rfl (by decide) (by decide)
  have h5 : R32 w.a.toUInt64 5 = (rotl w.a 5).toUInt64 := R32_eq w.a rfl (by decide) (by decide)
  rw [ShaRegs.Shows, hnext, shaMacro, hnames]
  dsimp only
  rw [hp, hqv, hr, hs, hu, h5, T32_sum, shaTurnF_eval, shaTurnF_const, ShaRegs.get_set_ne _ _ _ _ hqdst, hqv, h30]
  simp only [ShaRegs.get_set_self, ShaRegs.get_set_ne _ _ _ _ hdst.1, ShaRegs.get_set_ne _ _ _ _ hdst.2.1,
    ShaRegs.get_set_ne _ _ _ _ hdst.2.2, ShaRegs.get_set_ne _ _ _ _ hq.1,
    ShaRegs.get_set_ne _ _ _ _ hq.2.1, ShaRegs.get_set_ne _ _ _ _ hq.2.2.1, ShaRegs.get_set_ne _ _ _ _ hq.2.2.2]
  exact ⟨rfl, hp, rfl, hr, hs⟩

/-- **Unravelling**, from turn `i` on. -/
theorem shaMacros_shows : ∀ (macros : List (ShaMacro × ShaF)) (ws : List UInt32) (i : ℕ) (v : ShaRegs) (w : Sha1Words),
    (∀ p ∈ macros.zipIdx i, p.1 = (shaTurn p.2, shaTurnF p.2)) → macros.length = ws.length → v.Shows (shaTurn i) w →
      ((macros.zip (ws.map UInt32.toUInt64)).foldl shaMacro v).Shows (shaTurn (i + ws.length))
        ((ws.zipIdx i).foldl sha1Round w)
  | [], [], _, _, _, _, _, h => h
  | m :: macros, x :: ws, i, v, w, hreg, hlen, h => by
    rw [List.zipIdx_cons, List.forall_mem_cons] at hreg
    obtain ⟨hm, hreg⟩ := hreg
    obtain rfl : m = (shaTurn i, shaTurnF i) := hm
    have ih := shaMacros_shows macros ws (i + 1) _ _ hreg (Nat.succ.inj hlen) (shaMacro_shows h x)
    rw [List.map_cons, List.zip_cons_cons, List.foldl_cons, List.zipIdx_cons, List.foldl_cons, List.length_cons,
      show i + (ws.length + 1) = i + 1 + ws.length by omega]
    exact ih

/-- All 80 turns. -/
theorem shaMacros_run {ws : List UInt32} {v : ShaRegs} {w : Sha1Words} (hlen : ws.length = 80) (h : v.Shows .fa w) :
    ((shaMacros.zip (ws.map UInt32.toUInt64)).foldl shaMacro v).Shows .fc (ws.zipIdx.foldl sha1Round w) := by
  have hend := shaMacros_shows shaMacros ws 0 v w shaMacros_regular (by rw [hlen]; rfl) h
  rw [hlen] at hend
  exact hend

/-! ### The words of a chunk -/

/-- An octet of a number, in its place. -/
theorem and_octet (x k : ℕ) : x &&& (255 * 2 ^ k) = x / 2 ^ k % 256 * 2 ^ k := by
  rw [← Nat.shiftLeft_eq, ← Nat.shiftLeft_eq, ← Nat.shiftRight_eq_div_pow]
  apply Nat.eq_of_testBit_eq
  intro j
  rw [Nat.testBit_and, Nat.testBit_shiftLeft, Nat.testBit_shiftLeft, show 256 = 2 ^ 8 from rfl, Nat.testBit_mod_two_pow,
    show 255 = 2 ^ 8 - 1 from rfl, Nat.testBit_two_pow_sub_one, Nat.testBit_shiftRight]
  by_cases hj : k ≤ j
  · rw [Nat.add_sub_cancel' hj]
    simp [hj, Bool.and_comm]
  · simp [hj]

/-- Four octets, as they are put together with `|`. -/
theorem or_octets {a b c d : ℕ} (hb : b < 256) (hc : c < 256) (hd : d < 256) :
    a * 2 ^ 24 ||| b * 2 ^ 16 ||| c * 2 ^ 8 ||| d = d + 256 * (c + 256 * (b + 256 * a)) := by
  have h1 : a * 2 ^ 24 ||| b * 2 ^ 16 = (a * 2 ^ 8 + b) * 2 ^ 16 := by
    rw [Nat.mul_comm a, ← Nat.two_pow_add_eq_or_of_lt (by omega)]
    ring
  have h2 : (a * 2 ^ 8 + b) * 2 ^ 16 ||| c * 2 ^ 8 = ((a * 2 ^ 8 + b) * 2 ^ 8 + c) * 2 ^ 8 := by
    rw [Nat.mul_comm _ (2 ^ 16), ← Nat.two_pow_add_eq_or_of_lt (by omega)]
    ring
  rw [h1, h2, Nat.mul_comm _ (2 ^ 8), ← Nat.two_pow_add_eq_or_of_lt (by omega)]
  ring

theorem and_octet_word {y m : UInt64} {k : ℕ} (hm : m.toNat = 255 * 2 ^ k) :
    (y &&& m).toNat = y.toNat / 2 ^ k % 256 * 2 ^ k := by
  rw [UInt64.toNat_and, hm, and_octet]

/-- Whatever the four high octets are, the word is that of the four low ones. -/
theorem shaSwap_load {l : List UInt8} (h : l.length = 8) :
    shaSwap (UInt64.ofNat (leValue l)) = (UInt32.ofNat (beValue (l.take 4))).toUInt64 := by
  obtain ⟨a, b, c, d, r, rfl⟩ : ∃ a b c d r, l = a :: b :: c :: d :: r := by
    match l, h with
    | a :: b :: c :: d :: r, _ => exact ⟨a, b, c, d, r, rfl⟩
  have ha := a.toNat_lt
  have hb := b.toNat_lt
  have hc := c.toNat_lt
  have hd := d.toNat_lt
  have hr := leValue_lt r
  have hrlen : r.length = 4 := by simpa using h
  rw [hrlen] at hr
  obtain ⟨x, hx⟩ : ∃ x, leValue (a :: b :: c :: d :: r) = x := ⟨_, rfl⟩
  have hx' : a.toNat + 256 * (b.toNat + 256 * (c.toNat + 256 * (d.toNat + 256 * leValue r))) = x := hx
  have hval : (UInt64.ofNat x).toNat = x := UInt64.toNat_ofNat_of_lt (by
    rw [UInt64.size]
    omega)
  have hbe : beValue ((a :: b :: c :: d :: r).take 4) = d.toNat + 256 * (c.toNat + 256 * (b.toNat + 256 * a.toNat)) := rfl
  have h1 : (UInt64.ofNat x <<< 24 &&& (0xff000000 : UInt64)).toNat = a.toNat * 2 ^ 24 := by
    rw [and_octet_word (k := 24) rfl, UInt64.toNat_shiftLeft, hval]
    change x <<< 24 % 2 ^ 64 / 2 ^ 24 % 256 * 2 ^ 24 = _
    rw [Nat.shiftLeft_eq]
    omega
  have h2 : (UInt64.ofNat x <<< 8 &&& (0x00ff0000 : UInt64)).toNat = b.toNat * 2 ^ 16 := by
    rw [and_octet_word (k := 16) rfl, UInt64.toNat_shiftLeft, hval]
    change x <<< 8 % 2 ^ 64 / 2 ^ 16 % 256 * 2 ^ 16 = _
    rw [Nat.shiftLeft_eq]
    omega
  have h3 : (UInt64.ofNat x >>> 8 &&& (0x0000ff00 : UInt64)).toNat = c.toNat * 2 ^ 8 := by
    rw [and_octet_word (k := 8) rfl, UInt64.toNat_shiftRight, hval]
    change x >>> 8 / 2 ^ 8 % 256 * 2 ^ 8 = _
    rw [Nat.shiftRight_eq_div_pow]
    omega
  have h4 : (UInt64.ofNat x >>> 24 &&& (0x000000ff : UInt64)).toNat = d.toNat := by
    rw [and_octet_word (k := 0) rfl, UInt64.toNat_shiftRight, hval]
    change x >>> 24 / 2 ^ 0 % 256 * 2 ^ 0 = _
    have hdiv : x / 2 ^ 24 = d.toNat + 256 * leValue r := by omega
    rw [Nat.shiftRight_eq_div_pow, hdiv, pow_zero, Nat.div_one, Nat.mul_one, Nat.add_mul_mod_self_left, Nat.mod_eq_of_lt hd]
  apply UInt64.toNat_inj.1
  rw [hx, shaSwap, UInt64.toNat_or, UInt64.toNat_or, UInt64.toNat_or, h1, h2, h3, h4, or_octets hb hc hd, hbe,
    UInt32.toNat_toUInt64, UInt32.toNat_ofNat_of_lt' (by rw [UInt32.size]; omega)]

/-- The schedule in wider words. -/
theorem shaExpand_widen (w : List UInt32) (i : ℕ) :
    shaExpand (w.map UInt32.toUInt64) i = (sha1Next w i).map UInt32.toUInt64 := by
  have hget : ∀ j, (w.map UInt32.toUInt64).getD j 0 = (w.getD j 0).toUInt64 := fun j =>
    List.getD_map w 0 UInt32.toUInt64
  have hrot := R32_eq (w.getD (i - 3) 0 ^^^ w.getD (i - 8) 0 ^^^ w.getD (i - 14) 0 ^^^ w.getD (i - 16) 0) (n := 1) (k := 1)
    rfl (by decide) (by decide)
  rw [UInt32.toUInt64_xor, UInt32.toUInt64_xor, UInt32.toUInt64_xor] at hrot
  rw [shaExpand, sha1Next, hget, hget, hget, hget, hrot, List.map_append, List.map_singleton]

theorem shaExpand_foldl (l : List ℕ) (w : List UInt32) :
    l.foldl shaExpand (w.map UInt32.toUInt64) = (l.foldl sha1Next w).map UInt32.toUInt64 := by
  induction l generalizing w with
  | nil => rfl
  | cons i l ih => rw [List.foldl_cons, List.foldl_cons, shaExpand_widen, ih]

theorem sha1Next_length (l : List ℕ) (w : List UInt32) : (l.foldl sha1Next w).length = w.length + l.length := by
  induction l generalizing w with
  | nil => rfl
  | cons i l ih =>
    rw [List.foldl_cons, ih, sha1Next, List.length_append, List.length_singleton, List.length_cons]
    omega

theorem sha1Schedule_length (octets : List UInt8) : (sha1Schedule octets).length = 80 := by
  rw [sha1Schedule, sha1Next_length]
  simp

/-- The digest in wider words. -/
def Sha1Words.widen (v : Sha1Words) : UInt64 × UInt64 × UInt64 × UInt64 × UInt64 :=
  (v.a.toUInt64, v.b.toUInt64, v.c.toUInt64, v.d.toUInt64, v.e.toUInt64)

theorem T32_add (x y : UInt32) : T32 (x.toUInt64 + y.toUInt64) = (x + y).toUInt64 := by
  rw [T32_eq, UInt64.toUInt32_add, UInt32.toUInt32_toUInt64, UInt32.toUInt32_toUInt64]

variable {info : ShaInfo} {octets : List UInt8}

/-- A read of eight octets from a word of the data on, the last of which runs over into `local`. -/
theorem ShaInfo.load_eq (h : readAll info.data 0 64 = .ok octets) (hlen : info.data.length = 64) {i : ℕ} (hi : i < 16) :
    ∃ t, info.load i = .ok t ∧ shaSwap t = (sha1Word octets i).toUInt64 := by
  have hread : ∃ l, readAll (info.data ++ (leOctets 4 info.dlocal).map some) (4 * i) 8 = .ok l ∧ l.length = 8 ∧
      l.take 4 = (octets.drop (4 * i)).take 4 := by
    rw [← hlen] at h
    have hdata := eq_map_of_readAll h
    have hoctets : octets.length = 64 := by
      rw [← hlen, hdata, List.length_map]
    have hlocal := leOctets_length 4 info.dlocal
    refine ⟨((octets ++ leOctets 4 info.dlocal).drop (4 * i)).take 8, ?_, ?_, ?_⟩
    · rw [hdata, ← List.map_append, readAll_map (by rw [List.length_append]; omega)]
    · rw [List.length_take, List.length_drop, List.length_append]
      omega
    · rw [List.take_take, List.drop_append, List.take_append_of_le_length (by rw [List.length_drop]; omega)]
      rfl
  obtain ⟨l, hl, hl8, hl4⟩ := hread
  refine ⟨UInt64.ofNat (leValue l), ?_, ?_⟩
  · rw [load, ok_then hl]
    rfl
  · rw [shaSwap_load hl8, hl4, sha1Word]

/-- **`sha_transform`** on a chunk that has been stored. -/
theorem ShaInfo.transform_eq {v : Sha1Words} (h : readAll info.data 0 64 = .ok octets) (hlen : info.data.length = 64)
    (hv : info.digest = v.widen) : info.transform = .ok { info with digest := (sha1Rounds v octets).widen } := by
  have hload : ∀ l : List ℕ, (∀ i ∈ l, i < 16) →
      ∃ ts, l.mapM info.load = .ok ts ∧ ts.map shaSwap = (l.map (sha1Word octets)).map UInt32.toUInt64 := by
    intro l hl
    induction l with
    | nil => exact ⟨[], rfl, rfl⟩
    | cons i l ih =>
      rw [List.forall_mem_cons] at hl
      obtain ⟨t, ht, htw⟩ := load_eq h hlen hl.1
      obtain ⟨ts, hts, htsw⟩ := ih hl.2
      refine ⟨t :: ts, ?_, ?_⟩
      · rw [List.mapM_cons, ok_then ht, ok_then hts]
        rfl
      · rw [List.map_cons, List.map_cons, List.map_cons, htw, htsw]
  obtain ⟨ts, hts, hw⟩ := hload (List.range 16) fun i hi => List.mem_range.1 hi
  have hsched : (List.range' 16 64).foldl shaExpand (ts.map shaSwap) = (sha1Schedule octets).map UInt32.toUInt64 := by
    rw [hw, shaExpand_foldl, sha1Schedule]
  have hstart : ShaRegs.Shows ⟨ts.getD 15 0, v.a.toUInt64, v.b.toUInt64, v.c.toUInt64, v.d.toUInt64, v.e.toUInt64⟩
      .fa v := ⟨rfl, rfl, rfl, rfl, rfl⟩
  have hend := shaMacros_run (sha1Schedule_length octets) hstart
  rw [transform, ok_then hts, hv]
  dsimp only [Sha1Words.widen]
  rw [hsched]
  generalize (shaMacros.zip ((sha1Schedule octets).map UInt32.toUInt64)).foldl shaMacro _ = r at hend ⊢
  obtain ⟨ha, hb, hc, hd, he⟩ := hend
  dsimp only [ShaRegs.get] at ha hb hc hd he
  rw [ha, hb, hc, hd, he, T32_add, T32_add, T32_add, T32_add, T32_add]
  rfl

end LibHpack
