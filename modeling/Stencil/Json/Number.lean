import Stencil.Double.Binary
import Stencil.Json.Reader

/-!
# Numbers in JSON

An integer literal keeps its value while it fits the 64 bits of the reader. Any other number is a
double: the leading digits that fit 64 bits are taken as an integer, and one multiplication or
division by a power of ten brings it to its place. A number too large for a double is refused.
-/

namespace Stencil.Json

/-- The largest significand. -/
def maxSignificand : Nat := UInt64.size - 1

/-- Digits taken into a significand of 64 bits, with the power of ten it is to be multiplied with.
-/
structure Significand where
  value : Nat := 0
  exponent : Int := 0
  /-- A digit did not fit, and none that follows is looked at. -/
  full : Bool := false

/-- One more digit before the point; one that does not fit only raises the exponent. -/
def Significand.addWhole (s : Significand) (c : Char) : Significand :=
  let value := s.value * 10 + (c.toNat - '0'.toNat)
  if s.full || maxSignificand < value then { s with exponent := s.exponent + 1, full := true }
  else { s with value := value }

/-- One more digit after the point; one that does not fit is left out with all that follow. -/
def Significand.addFraction (s : Significand) (c : Char) : Significand :=
  let value := s.value * 10 + (c.toNat - '0'.toNat)
  if s.full || maxSignificand < value then { s with full := true }
  else { s with value := value, exponent := s.exponent - 1 }

/-- A power of ten as a double. -/
def powerOfTen (n : Nat) : Float := Double.nearest (Nat.pow 10 n) 1

/-- Divides by a power of ten, in steps of at most `10 ^ 308`. -/
def divideByPower (x : Float) (n : Nat) : Float :=
  if n ≤ 308 then x / powerOfTen n
  else if x == 0.0 then x
  else divideByPower (x / powerOfTen 308) (n - 308)
termination_by n

/-- The double for a significand and a power of ten, if it is not too large. -/
def place? (significand : Nat) (exponent : Int) : Option Float :=
  let x := Double.nearest significand 1
  if exponent < 0 then some (divideByPower x (-exponent).toNat)
  else if exponent ≤ 308 then
    let placed := x * powerOfTen exponent.toNat
    if placed.isInf then none else some placed
  else if significand = 0 then some x
  else none

namespace NumberText

/-- The digits of the whole part and of the fraction. -/
def significand (n : NumberText) : Significand :=
  let whole := n.whole.foldl Significand.addWhole {}
  n.fraction.foldl Significand.addFraction { whole with full := false }

/-- The exponent as written. -/
def writtenExponent (n : NumberText) : Int :=
  let magnitude : Nat := n.exponent.foldl (fun e c => e * 10 + (c.toNat - '0'.toNat)) 0
  if n.exponentNegative then -magnitude else magnitude

/-- The number as a double. An exponent beyond 31 bits gives zero, or is too large. -/
def real? (n : NumberText) : Option Float :=
  let s := n.significand
  let written := n.writtenExponent
  let magnitude : Option Float :=
    if Nat.pow 2 31 ≤ written.natAbs then
      if s.value ≠ 0 ∧ !n.exponentNegative then none else some 0.0
    else place? s.value (s.exponent + written)
  magnitude.map fun x => if n.negative then -x else x

/-- The number that a text stands for. A negative zero is a double. -/
def number (n : NumberText) : Except Failure Number :=
  let s := n.significand
  let integer : Int := if n.negative then -s.value else s.value
  let negativeFits := s.value ≠ 0 ∧ s.value ≤ Nat.pow 2 63
  if n.plain ∧ !s.full ∧ s.exponent = 0 ∧ (n.negative → negativeFits) then
    .ok (.integer integer)
  else
    match n.real? with
    | some x => .ok (.real x)
    | none => .error .malformed

end NumberText

end Stencil.Json
