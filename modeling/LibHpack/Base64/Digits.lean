import LibHpack.Base64.Model

/-!
# LibHpack.Base64.Digits — the digits of base 64

`base64Of s` are the characters that the encoder writes, four for three octets.  `base64Decoded phase prevD w` is what the
decoder makes of characters, without the memory that it goes through.
-/

namespace LibHpack

open Memory

/-! ### The four digits of three octets -/

def digit1 (a : UInt8) : UInt8 := a >>> 2

def digit2 (a b : UInt8) : UInt8 := ((a &&& 3) <<< 4) ||| (b >>> 4)

def digit3 (b c : UInt8) : UInt8 := ((b &&& 15) <<< 2) ||| (c >>> 6)

def digit4 (c : UInt8) : UInt8 := c &&& 63

def base64Of : List UInt8 → List UInt8
  | [] => []
  | [a] => [base64tab (digit1 a), base64tab (digit2 a 0), 61, 61]
  | [a, b] => [base64tab (digit1 a), base64tab (digit2 a b), base64tab (digit3 b 0), 61]
  | a :: b :: c :: s =>
    base64tab (digit1 a) :: base64tab (digit2 a b) :: base64tab (digit3 b c) :: base64tab (digit4 c) :: base64Of s

/-- The octet that a digit completes. -/
def base64Octet (phase : ℕ) (prevD d : UInt8) : List UInt8 :=
  match phase with
  | 1 => [(prevD <<< 2) ||| ((d &&& 0x30) >>> 4)]
  | 2 => [((prevD &&& 0xf) <<< 4) ||| ((d &&& 0x3c) >>> 2)]
  | 3 => [((prevD &&& 0x03) <<< 6) ||| d]
  | _ => []

section Digits

variable {d x y : UInt8}

variable (a b c : UInt8)

end Digits

/-! ### Characters -/

section Characters

variable {d prevD : UInt8} {phase : ℕ}

theorem base64Of_length (s : List UInt8) : (base64Of s).length = (s.length + 2) / 3 * 4 := by
  induction s using base64Of.induct with
  | case1 => rfl
  | case2 a => simp [base64Of]
  | case3 a b => simp [base64Of]
  | case4 a b c s ih =>
    rw [base64Of]
    simp only [List.length_cons, ih]
    omega

/-- **The encoder's loop** writes the characters. -/
theorem base64EncodeLoop_writes (s : List UInt8) (m : Block UInt8) (j : ℕ) :
    Writes (base64EncodeLoop s m j) m j (base64Of s) := by
  induction s using base64Of.induct generalizing m j with
  | case1 =>
    rw [base64EncodeLoop]
    exact Writes.nil m j
  | case2 a =>
    rw [base64EncodeLoop]
    refine Writes.store_then [_] fun _ => Writes.store_then [_] fun _ => Writes.store_then [_] fun _ =>
      Writes.store_then [_] fun m' => ?_
    rw [List.drop_nil, base64EncodeLoop]
    exact Writes.nil m' _
  | case3 a b =>
    rw [base64EncodeLoop]
    refine Writes.store_then [_] fun _ => Writes.store_then [_] fun _ => Writes.store_then [_] fun _ =>
      Writes.store_then [_] fun m' => ?_
    rw [show List.drop 2 [b] = [] from rfl, base64EncodeLoop]
    exact Writes.nil m' _
  | case4 a b c s ih =>
    rw [base64EncodeLoop]
    exact Writes.store_then [_] fun _ => Writes.store_then [_] fun _ => Writes.store_then [_] fun _ =>
      Writes.store_then [_] fun m' => ih m' _

end Characters

end LibHpack
