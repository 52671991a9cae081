import Mathlib.Tactic

/-!
# LibHpack.General.Lfsr — feedback shift registers, as checksums use them

The register has `w` bits and moves to the right; the bit that falls out decides whether the polynomial `p` is added.
`feed p s l` takes in symbols of `k` bits, the lowest bit first.  The step is linear, and it is injective when the top bit of
the polynomial is set; so symbols that fill no more than the register can be told apart by what they leave in it
(`feed_injective`).
-/

namespace LibHpack.Lfsr

variable {w k : ℕ} (p : BitVec w)

/-- One step of the register. -/
def step (x : BitVec w) : BitVec w := (x >>> 1) ^^^ (if x.getLsbD 0 then p else 0#w)

/-- The register after symbols of `k` bits. -/
def feed (s : BitVec w) (l : List (BitVec k)) : BitVec w :=
  l.foldl (fun s c => (step p)^[k] (s ^^^ c.setWidth w)) s

variable {p}

theorem step_xor (x y : BitVec w) : step p (x ^^^ y) = step p x ^^^ step p y := by
  apply BitVec.eq_of_getLsbD_eq
  intro i hi
  cases hx : x.getLsbD 0 <;> cases hy : y.getLsbD 0 <;> simp [step, hx, hy]
  all_goals cases x.getLsbD (1 + i) <;> cases y.getLsbD (1 + i) <;> simp

theorem iterate_step_xor (n : ℕ) (x y : BitVec w) : (step p)^[n] (x ^^^ y) = (step p)^[n] x ^^^ (step p)^[n] y := by
  induction n generalizing x y with
  | zero => rfl
  | succ n ih => rw [Function.iterate_succ_apply, step_xor, ih, ← Function.iterate_succ_apply, ← Function.iterate_succ_apply]

/-- The bit that falls out can be seen in the top bit. -/
theorem step_injective (hp : p.msb = true) : Function.Injective (step p) := by
  have hzero : ∀ z, step p z = 0#w → z = 0#w := by
    intro z hz
    have hbit : ∀ i, (step p z).getLsbD i = false := fun i => by rw [hz]; exact BitVec.getLsbD_zero
    have hw : 0 < w := by
      by_contra hw
      have hp0 : p = 0#w := BitVec.eq_of_zero_length (by omega)
      rw [hp0, BitVec.msb_zero] at hp
      cases hp
    have htop : p.getLsbD (w - 1) = true := by rwa [← BitVec.msb_eq_getLsbD_last]
    have hlow : z.getLsbD 0 = false := by
      have := hbit (w - 1)
      rw [step, BitVec.getLsbD_xor, BitVec.getLsbD_ushiftRight, BitVec.getLsbD_of_ge _ _ (by omega)] at this
      cases h0 : z.getLsbD 0 with
      | false => rfl
      | true => simp [h0, htop] at this
    have hstep : step p z = z >>> 1 := by
      rw [step, if_neg (by rw [hlow]; decide)]
      exact BitVec.xor_zero
    apply BitVec.eq_of_getLsbD_eq
    intro i _
    rw [BitVec.getLsbD_zero]
    cases i with
    | zero => exact hlow
    | succ i =>
      have := hbit i
      rwa [hstep, BitVec.getLsbD_ushiftRight, Nat.add_comm] at this
  intro x y hxy
  have hxor : step p (x ^^^ y) = 0#w := by rw [step_xor, hxy, BitVec.xor_self]
  exact BitVec.xor_eq_zero_iff.1 (hzero _ hxor)

/-- Zeros that fall out only move the register. -/
theorem iterate_step_shift (n : ℕ) (x : BitVec w) (h : ∀ j < n, x.getLsbD j = false) : (step p)^[n] x = x >>> n := by
  induction n generalizing x with
  | zero => rw [Function.iterate_zero, id, BitVec.ushiftRight_zero]
  | succ n ih =>
    have hstep : step p x = x >>> 1 := by
      rw [step, if_neg (by rw [h 0 (by omega)]; decide)]
      exact BitVec.xor_zero
    rw [Function.iterate_succ_apply, hstep, ih _ fun j hj => by rw [BitVec.getLsbD_ushiftRight]; exact h _ (by omega),
      ← BitVec.shiftRight_add, Nat.add_comm]

/-! ### Symbols -/

theorem feed_append (s : BitVec w) (l r : List (BitVec k)) : feed p s (l ++ r) = feed p (feed p s l) r :=
  List.foldl_append

/-- What has been told apart stays so. -/
theorem feed_left_injective (hp : p.msb = true) (l : List (BitVec k)) : Function.Injective fun s => feed p s l := by
  induction l with
  | nil => exact fun _ _ h => h
  | cons c l ih =>
    intro x y h
    have hstep := (step_injective hp).iterate k (ih h)
    exact (BitVec.xor_left_inj _).1 hstep

/-- The symbols side by side, the first one lowest. -/
def pack : List (BitVec k) → BitVec w
  | [] => 0#w
  | c :: l => c.setWidth w ^^^ (pack l <<< k)

theorem pack_getLsbD (l : List (BitVec k)) (i : ℕ) (hk : k * l.length ≤ i) : (pack l : BitVec w).getLsbD i = false := by
  induction l generalizing i with
  | nil => exact BitVec.getLsbD_zero
  | cons c l ih =>
    rw [List.length_cons, Nat.mul_add, Nat.mul_one] at hk
    rw [pack, BitVec.getLsbD_xor, BitVec.getLsbD_setWidth, BitVec.getLsbD_shiftLeft, ih (i - k) (by omega),
      BitVec.getLsbD_of_ge c i (by omega)]
    simp

/-- Symbols that fit into the register can be taken in at once. -/
theorem feed_eq_pack (s : BitVec w) (l : List (BitVec k)) (h : k * l.length ≤ w) :
    feed p s l = (step p)^[k * l.length] (s ^^^ pack l) := by
  induction l generalizing s with
  | nil =>
    rw [List.length_nil, Nat.mul_zero, pack]
    exact BitVec.xor_zero.symm
  | cons c l ih =>
    rw [List.length_cons, Nat.mul_add, Nat.mul_one] at h
    have hshift : (step p)^[k] (pack l <<< k) = pack l := by
      rw [iterate_step_shift _ _ fun j hj => by simp [hj]]
      apply BitVec.eq_of_getLsbD_eq
      intro i hi
      rw [BitVec.getLsbD_ushiftRight, BitVec.getLsbD_shiftLeft]
      by_cases hik : k + i < w
      · simp [hik]
      · rw [pack_getLsbD l i (by omega)]
        simp [hik]
    have hfeed : feed p s (c :: l) = feed p ((step p)^[k] (s ^^^ c.setWidth w)) l := rfl
    rw [hfeed, ih _ (by omega), List.length_cons, Nat.mul_add, Nat.mul_one, Function.iterate_add_apply, pack,
      ← BitVec.xor_assoc, iterate_step_xor k (s ^^^ _), hshift]

theorem pack_injective : ∀ l r : List (BitVec k), l.length = r.length → k * l.length ≤ w →
    (pack l : BitVec w) = pack r → l = r
  | [], [], _, _, _ => rfl
  | c :: l, d :: r, hlen, hw, h => by
    rw [List.length_cons, Nat.mul_add, Nat.mul_one] at hw
    have hbit : ∀ i, (pack (c :: l) : BitVec w).getLsbD i = (pack (d :: r) : BitVec w).getLsbD i := fun i => by rw [h]
    have hcd : c = d := by
      apply BitVec.eq_of_getLsbD_eq
      intro i hi
      have := hbit i
      rw [pack, pack, BitVec.getLsbD_xor, BitVec.getLsbD_xor, BitVec.getLsbD_shiftLeft, BitVec.getLsbD_shiftLeft] at this
      simpa [hi, show i < w by omega] using this
    have hrest : (pack l : BitVec w) = pack r := by
      apply BitVec.eq_of_getLsbD_eq
      intro i hi
      by_cases hik : k + i < w
      · have := hbit (k + i)
        rw [hcd, pack, pack, BitVec.getLsbD_xor, BitVec.getLsbD_xor, BitVec.getLsbD_shiftLeft,
          BitVec.getLsbD_shiftLeft] at this
        simpa [hik] using this
      · have hlen' := Nat.succ.inj hlen
        rw [pack_getLsbD l i (by omega), pack_getLsbD r i (by rw [← hlen']; omega)]
    rw [hcd, pack_injective l r (Nat.succ.inj hlen) (by omega) hrest]

/-- **Symbols that fit into the register** are told apart, from the same state on. -/
theorem feed_injective (hp : p.msb = true) (s : BitVec w) {l r : List (BitVec k)} (hlen : l.length = r.length)
    (hw : k * l.length ≤ w) (h : feed p s l = feed p s r) : l = r := by
  rw [feed_eq_pack s l hw, feed_eq_pack s r (hlen ▸ hw), hlen] at h
  have hxor := (step_injective hp).iterate _ h
  exact pack_injective l r hlen hw (((BitVec.xor_right_inj _).1 hxor))

end LibHpack.Lfsr
