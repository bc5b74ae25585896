/-!
# Doubles as exact fractions

A finite double is an integer mantissa times a power of two. `Binary.ofFloat` takes a double apart,
`nearest` finds the double nearest to a fraction of naturals, and `remainder` is the exact remainder
of two doubles.
-/

namespace Stencil.Double

/-- The magnitude `mantissa * 2 ^ exponent`. -/
structure Binary where
  mantissa : Nat
  exponent : Int
  deriving DecidableEq

/-- Whether the sign bit is set; also of a negative zero. -/
def isNegative (x : Float) : Bool := Nat.pow 2 63 ≤ x.toBits.toNat

/-- The least mantissa of a normal number: a double keeps 52 bits of its mantissa. -/
def leastNormal : Nat := Nat.pow 2 52

/-- The magnitude of a finite double. A mantissa below `leastNormal` belongs to a subnormal number.
-/
def Binary.ofFloat (x : Float) : Binary :=
  let fraction : Nat := x.toBits.toNat % leastNormal
  let field : Nat := x.toBits.toNat / leastNormal % 2048
  if field = 0 then ⟨fraction, -1074⟩ else ⟨leastNormal + fraction, (field : Int) - 1075⟩

/-- Numerator of a magnitude, over `Binary.denominator`. -/
def Binary.numerator (b : Binary) : Nat := b.mantissa * Nat.pow 2 b.exponent.toNat

/-- Denominator of a magnitude: a power of two. -/
def Binary.denominator (b : Binary) : Nat := Nat.pow 2 (-b.exponent).toNat

theorem Binary.denominator_pos (b : Binary) : 0 < b.denominator := Nat.two_pow_pos _

/-- The double with a given magnitude, for a mantissa of at most 53 bits that is below `leastNormal`
only when the exponent is `-1074`. A magnitude beyond the largest finite double gives infinity. -/
def Binary.toFloat (b : Binary) : Float :=
  let bits := (b.exponent + 1074).toNat * leastNormal + b.mantissa
  Float.ofBits (.ofNat (min bits (2047 * leastNormal)))

/-- A quotient of naturals rounded to the nearest natural, a half going to the even neighbour. -/
def roundQuotient (num den : Nat) : Nat :=
  let floor := num / den
  let rest := num % den
  if den < 2 * rest ∨ (2 * rest = den ∧ floor % 2 = 1) then floor + 1 else floor

/-- The exponent at which a positive fraction has a mantissa of 53 bits, but at least `-1074`. -/
def mantissaExponent (num den : Nat) : Int :=
  let guess : Int := (num.log2 : Int) - (den.log2 : Int) - 52
  let fits := leastNormal * (den * Nat.pow 2 guess.toNat) ≤ num * Nat.pow 2 (-guess).toNat
  max (if fits then guess else guess - 1) (-1074)

/-- The double nearest to a fraction, a half going to the even mantissa. -/
def nearest (num den : Nat) : Float :=
  if num = 0 then 0.0
  else
    let exponent := mantissaExponent num den
    let mantissa :=
      roundQuotient (num * Nat.pow 2 (-exponent).toNat) (den * Nat.pow 2 exponent.toNat)
    Binary.toFloat ⟨mantissa, exponent⟩

/-- The double nearest to `significand * 10 ^ exponent`. -/
def ofDecimal (significand : Nat) (exponent : Int) : Float :=
  nearest (significand * Nat.pow 10 exponent.toNat) (Nat.pow 10 (-exponent).toNat)

/-- The remainder of the magnitudes of two finite doubles, the second not zero. -/
def remainderMagnitude (x y : Binary) : Float :=
  let exponent := min x.exponent y.exponent
  let left := x.mantissa * Nat.pow 2 (x.exponent - exponent).toNat
  let right := y.mantissa * Nat.pow 2 (y.exponent - exponent).toNat
  let rest := left % right
  nearest (rest * Nat.pow 2 exponent.toNat) (Nat.pow 2 (-exponent).toNat)

/-- The exact remainder of a division whose quotient is cut toward zero; it has the sign of the
dividend. -/
def remainder (x y : Float) : Float :=
  if x.isNaN || y.isNaN || x.isInf || y == 0.0 then 0.0 / 0.0
  else if y.isInf then x
  else
    let rest := remainderMagnitude (Binary.ofFloat x) (Binary.ofFloat y)
    if isNegative x then -rest else rest

end Stencil.Double
