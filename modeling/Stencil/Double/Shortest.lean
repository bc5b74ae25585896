import Stencil.Double.Binary

/-!
# The shortest decimal of a double

Among the decimals that read back as a given double there is a least number of digits; of those with
that many digits the nearest to the double is taken. The search runs over the decimal grids from
coarse to fine and tests, on each, the two grid points around the value. All arithmetic is exact.
-/

namespace Stencil.Double

/-- Digits of a decimal with the point placed before digit number `point`: the value is
`0.d₁d₂… * 10 ^ point`. -/
structure Decimal where
  digits : List Char
  point : Int
  deriving DecidableEq

/-- The interval of fractions that read back as a double, over a common denominator. The ends belong
to it when the mantissa is even. -/
structure Reach where
  low : Nat
  value : Nat
  high : Nat
  den : Nat
  closed : Bool

/-- Half way to the neighbours on both sides; below a power of two the lower neighbour is nearer. -/
def Reach.ofBinary (b : Binary) : Reach :=
  let narrow := b.mantissa = leastNormal ∧ -1074 < b.exponent
  let unit := Nat.pow 2 (b.exponent - 2).toNat
  { low := (4 * b.mantissa - if narrow then 1 else 2) * unit
    value := 4 * b.mantissa * unit
    high := (4 * b.mantissa + 2) * unit
    den := Nat.pow 2 (2 - b.exponent).toNat
    closed := b.mantissa % 2 = 0 }

/-- The grid point `t * 10 ^ grid` lies in the interval. -/
def Reach.contains (r : Reach) (grid : Int) (t : Nat) : Bool :=
  let point := t * Nat.pow 10 grid.toNat * r.den
  let scale := Nat.pow 10 (-grid).toNat
  if r.closed then r.low * scale ≤ point && point ≤ r.high * scale
  else r.low * scale < point && point < r.high * scale

/-- The number of decimal digits of a natural. -/
def decimalLength (n : Nat) : Nat := (Nat.toDigits 10 n).length

/-- The place of the first digit of a positive fraction: it lies between `10 ^ (place - 1)`,
included, and `10 ^ place`. -/
def decimalPlace (num den : Nat) : Int :=
  if den ≤ num then decimalLength (num / den)
  else
    let length := decimalLength (den / num)
    if den ≤ num * Nat.pow 10 (length - 1) then 2 - length else 1 - length

/-- The point of a grid taken for the value, if one of the two around it lies in the interval: the
nearer of the two, and when both are equally near the upper one iff `up` says so of the lower. -/
def Reach.pick (r : Reach) (up : Nat → Bool) (grid : Int) : Option Nat :=
  let scaled := r.value * Nat.pow 10 (-grid).toNat
  let unit := r.den * Nat.pow 10 grid.toNat
  let floor := scaled / unit
  let rest := scaled % unit
  match r.contains grid floor, r.contains grid (floor + 1) with
  | true, false => some floor
  | false, true => some (floor + 1)
  | true, true =>
    if 2 * rest < unit then some floor
    else if unit < 2 * rest then some (floor + 1)
    else some (if up floor then floor + 1 else floor)
  | false, false => none

/-- The first grid with a point in the interval, from `grid` on through `count` finer ones. -/
def Reach.search (r : Reach) (up : Nat → Bool) : (count : Nat) → (grid : Int) → Nat × Int
  | 0, grid => (r.value * Nat.pow 10 (-grid).toNat / (r.den * Nat.pow 10 grid.toNat), grid)
  | count + 1, grid =>
    match r.pick up grid with
    | some t => (t, grid)
    | none => r.search up count (grid - 1)

/-- Leaves out the zeros at the end. -/
def dropZeros (digits : List Char) : List Char := (digits.reverse.dropWhile (· == '0')).reverse

/-- The shortest decimal of a positive finite magnitude. Seventeen digits always suffice. -/
def shortest (up : Nat → Bool) (b : Binary) : Decimal :=
  let r := Reach.ofBinary b
  let (t, grid) := r.search up 17 (decimalPlace b.numerator b.denominator - 1)
  let digits := Nat.toDigits 10 t
  { digits := dropZeros digits, point := grid + digits.length }

end Stencil.Double
