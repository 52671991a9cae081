import Mathlib.Data.Nat.Digits.Defs
import LibHpack.Format.Model

/-!
# LibHpack.Format.Standard — what a format and its arguments come to

A `Directive` is an octet of a format or a conversion with the argument that it takes, so that a list of them is a format
with arguments of the types that it asks for; `formatOf` and `argsOf` are the two as the program gets them, and `formatted`
is the text that the C standard says.  How a wide character is written depends on the locale: that is the parameter
`wcrtomb`.  Where the standard leaves open what a flag or a modifier does, the "0" fills numbers only, "ll" is taken for "l"
with characters and strings, and "%%" is padded like any other conversion.
-/

namespace LibHpack

/-- The length modifiers. -/
inductive Modifier
  | none
  | l
  | ll
  deriving DecidableEq, Repr

def Modifier.octets : Modifier → List UInt8
  | none => []
  | l => [108]
  | ll => [108, 108]

/-- The conversions of integers. -/
inductive NumberConversion
  | d
  | u
  | x
  | o
  deriving DecidableEq, Repr

def NumberConversion.octet : NumberConversion → UInt8
  | d => 100
  | u => 117
  | x => 120
  | o => 111

def NumberConversion.base : NumberConversion → ℕ
  | d => 10
  | u => 10
  | x => 16
  | o => 8

/-- A conversion with its argument.  That of a number is a slot, of which the modifier says how much it takes; a wide
character or string has one modifier or two. -/
inductive Conversion
  | str (p : Option (List UInt8))
  | wideStr (ll : Bool) (p : Option (List UInt32))
  | char (x : ℤ)
  | wideChar (ll : Bool) (c : UInt32)
  | number (k : NumberConversion) (m : Modifier) (x : ℤ)
  | percent (m : Modifier)

/-- A wide character in memory. -/
def wideOctets (c : UInt32) : List UInt8 := [c.toUInt8, (c >>> 8).toUInt8, (c >>> 16).toUInt8, (c >>> 24).toUInt8]

/-- The modifier of a wide character or string. -/
def wideModifier (ll : Bool) : Modifier := if ll then .ll else .l

namespace Conversion

/-- The modifier and the letter. -/
def octets : Conversion → List UInt8
  | str _ => [115]
  | wideStr ll _ => (wideModifier ll).octets ++ [115]
  | char _ => [99]
  | wideChar ll _ => (wideModifier ll).octets ++ [99]
  | number k m _ => m.octets ++ [k.octet]
  | percent m => m.octets ++ [37]

def args : Conversion → List VaArg
  | str p => [.str p]
  | wideStr _ p => [.str (p.map (List.flatMap wideOctets))]
  | char x => [.num x]
  | wideChar _ c => [.num c.toNat]
  | number _ _ x => [.num x]
  | percent _ => []

end Conversion

/-- The value of a signed argument. -/
def signedValue (m : Modifier) (x : ℤ) : ℤ := if m = .none then toInt x else toLong x

/-- The value of an unsigned argument. -/
def unsignedValue (m : Modifier) (x : ℤ) : ℕ := if m = .none then toUint32 x else toSizeT x

def digitOctet (n : ℕ) : UInt8 := .ofNat (if n < 10 then 48 + n else 87 + n)

/-- The digits of a number. -/
def digitsOf (base n : ℕ) : List UInt8 := if n = 0 then [48] else ((Nat.digits base n).reverse).map digitOctet

/-- The sign and the digits. -/
def numberText (k : NumberConversion) (m : Modifier) (x : ℤ) : List UInt8 × List UInt8 :=
  if k = .d then (if signedValue m x < 0 then [45] else [], digitsOf 10 (signedValue m x).natAbs)
  else ([], digitsOf k.base (unsignedValue m x))

/-- At least `width` octets, filled up with zeros behind the sign or with spaces before it. -/
def padded (zero : Bool) (width : ℕ) (sign body : List UInt8) : List UInt8 :=
  if zero then sign ++ List.replicate (width - (sign ++ body).length) 48 ++ body
  else List.replicate (width - (sign ++ body).length) 32 ++ (sign ++ body)

section Locale

variable (wcrtomb : UInt32 → List UInt8)

/-- What a conversion comes to before it is padded. -/
def Conversion.text : Conversion → List UInt8
  | str p => pointed p
  | wideStr _ none => pointed none
  | wideStr _ (some s) => (s.takeWhile (· ≠ 0)).flatMap wcrtomb
  | char x => [.ofNat (toUint32 x)]
  | wideChar _ c => wcrtomb c
  | number k m x => (numberText k m x).1 ++ (numberText k m x).2
  | percent _ => [37]

def Conversion.formatted (zero : Bool) (width : ℕ) : Conversion → List UInt8
  | number k m x => padded zero width (numberText k m x).1 (numberText k m x).2
  | c => padded false width [] (c.text wcrtomb)

/-- An octet of the format that is no conversion, or a conversion with an optional "0" and an optional width. -/
inductive Directive
  | octet (c : UInt8) (hc : c ≠ 37 ∧ c ≠ 0)
  | convert (zero : Bool) (width : ℕ) (c : Conversion)

namespace Directive

def octets : Directive → List UInt8
  | octet c _ => [c]
  | convert zero width c =>
    37 :: ((if zero then [48] else []) ++ (((Nat.digits 10 width).reverse).map digitOctet ++ c.octets))

def args : Directive → List VaArg
  | octet _ _ => []
  | convert _ _ c => c.args

def formatted : Directive → List UInt8
  | octet c _ => [c]
  | convert zero width c => c.formatted wcrtomb zero width

end Directive

def formatOf (ds : List Directive) : List UInt8 := ds.flatMap Directive.octets

def argsOf (ds : List Directive) : List VaArg := ds.flatMap Directive.args

/-- The text that the format and its arguments come to. -/
def formatted (ds : List Directive) : List UInt8 := ds.flatMap (Directive.formatted wcrtomb)

end Locale

end LibHpack
