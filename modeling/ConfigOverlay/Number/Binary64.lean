/-!
# Finite binary floating-point numbers

A configuration tree holds finite binary64 numbers only, so infinities and not-a-number have no
representation here. A number is its sign and the 63 bits below it: an 11-bit exponent field
over a 52-bit fraction. All arithmetic is exact arithmetic on naturals followed by one rounding
to the nearest number, a half going to the even neighbour, so nothing depends on the machine.
-/

namespace ConfigOverlay

/-- A power with a natural exponent is the core one throughout, also where an import brings the
power of a general monoid into scope: both give the same numbers by different terms. -/
@[default_instance 20000]
scoped instance (priority := 2000) powNat {α : Type} [NatPow α] : Pow α Nat := instPowNat

/-- The quotient `num / den` divided by `base ^ e`. -/
def scaleDown (base num den : Nat) (e : Int) : Nat × Nat :=
  if 0 ≤ e then (num, den * base ^ e.toNat) else (num * base ^ (-e).toNat, den)

/-- A finite binary64 number. -/
structure Binary64 where
  negative : Bool
  /-- The exponent field above the fraction. -/
  bits : Nat
  /-- The exponent field is not the one reserved for infinities. -/
  finite : bits < 2047 * 2 ^ 52
deriving DecidableEq

namespace Binary64

/-- The positive zero. -/
def zero : Binary64 := ⟨false, 0, by decide⟩

instance : Inhabited Binary64 := ⟨zero⟩

/-- Both signs of zero are zeros. -/
def isZero (x : Binary64) : Bool := x.bits == 0

/-- The number with the other sign. -/
def neg (x : Binary64) : Binary64 := { x with negative := !x.negative }

/-- Numeric equality: the two zeros are equal, and nothing else is identified. -/
def same (x y : Binary64) : Bool := x == y || (x.isZero && y.isZero)

/-- The biased exponent. -/
def field (x : Binary64) : Nat := x.bits / 2 ^ 52

/-- The bits below the exponent field. -/
def fraction (x : Binary64) : Nat := x.bits % 2 ^ 52

/-- The integral significand: a normal number has a hidden leading bit. -/
def significand (x : Binary64) : Nat :=
  if x.field = 0 then x.fraction else 2 ^ 52 + x.fraction

/-- The magnitude is `significand * 2 ^ exponent`. -/
def exponent (x : Binary64) : Int := (max x.field 1 : Nat) - 1075

/-- The magnitude as a quotient of naturals. -/
def ratio (x : Binary64) : Nat × Nat := scaleDown 2 x.significand 1 (-x.exponent)

/-! ## Rounding -/

/-- A quotient of naturals to the nearest natural, a half going to the even neighbour. -/
def roundQuotient (num den : Nat) : Nat :=
  let twice := 2 * (num % den)
  if den < twice ∨ (den = twice ∧ num / den % 2 = 1) then num / den + 1 else num / den

/-- The exponent at which `num / den` has a 53-bit integral part, or the least exponent. -/
def roundingExponent (num den : Nat) : Int :=
  let e := max ((Nat.log2 num : Int) - Nat.log2 den - 53) (-1074)
  let (a, b) := scaleDown 2 num den e
  if a / b < 2 ^ 53 then e else e + 1

/-- The number nearest to `num / den`, with the given sign; none when the magnitude is too
large. A significand that rounds up to `2 ^ 53` carries into the exponent field. -/
def ofRatio? (negative : Bool) (num den : Nat) : Option Binary64 :=
  if num = 0 then some { zero with negative := negative }
  else
    let e := roundingExponent num den
    let (a, b) := scaleDown 2 num den e
    let bits := (e + 1074).toNat * 2 ^ 52 + roundQuotient a b
    if h : bits < 2047 * 2 ^ 52 then some ⟨negative, bits, h⟩ else none

/-- The number nearest to a natural number. -/
def ofNat? (n : Nat) : Option Binary64 := ofRatio? false n 1

/-- The rounded product; none when it is too large. -/
def mul? (x y : Binary64) : Option Binary64 :=
  ofRatio? (x.negative != y.negative) (x.ratio.1 * y.ratio.1) (x.ratio.2 * y.ratio.2)

/-- The rounded quotient by a number that is not zero; none when it is too large. -/
def div? (x y : Binary64) : Option Binary64 :=
  ofRatio? (x.negative != y.negative) (x.ratio.1 * y.ratio.2) (x.ratio.2 * y.ratio.1)

/-- The number nearest to `10 ^ e`. -/
def powTen? (e : Nat) : Option Binary64 := ofNat? (10 ^ e)

/-- The number nearest to `digits * 10 ^ e`; none when it is too large. An exponent far outside
the range of the format is settled without computing the power. -/
def ofDecimal? (negative : Bool) (digits : Nat) (e : Int) : Option Binary64 :=
  if digits = 0 then some { zero with negative := negative }
  else if 400 < e then none
  else if 0 ≤ e then ofRatio? negative (digits * 10 ^ e.toNat) 1
  else if e < -400 - (Nat.log2 digits : Int) then some { zero with negative := negative }
  else ofRatio? negative digits (10 ^ (-e).toNat)

end Binary64

end ConfigOverlay
