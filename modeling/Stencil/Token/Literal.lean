import Stencil.Double.Binary
import Stencil.Text.CharClass
import Stencil.Value

/-!
# Number literals

A number literal is decimal, or has one of the signs `0b`, `0o` and `0x` in front. Digits may be
separated by underscores. Decimal and hexadecimal literals can have a fraction, whose point must be
followed by a digit. A literal is one word: what continues it like a name makes it invalid as a
whole.
-/

namespace Stencil.Literal

/-- The value of a digit up to base sixteen. -/
def digitValue? (c : Char) : Option Nat :=
  if '0' ≤ c ∧ c ≤ '9' then some (c.toNat - '0'.toNat)
  else if 'a' ≤ c ∧ c ≤ 'f' then some (c.toNat - 'a'.toNat + 10)
  else if 'A' ≤ c ∧ c ≤ 'F' then some (c.toNat - 'A'.toNat + 10)
  else none

/-- Whether a character is a digit of a base. -/
def isDigit (radix : Nat) (c : Char) : Bool := (digitValue? c).any (· < radix)

/-- Whether a character goes on with a run of digits. -/
def isDigitOrGap (radix : Nat) (c : Char) : Bool := isDigit radix c || c == '_'

/-- The number that digits spell in a base; underscores count for nothing. -/
def digitsValue (radix : Nat) (digits : List Char) : Nat :=
  digits.foldl (fun value c => ((digitValue? c).map (value * radix + ·)).getD value) 0

/-- The digits of a run. -/
def withoutGaps (run : List Char) : List Char := run.filter (· != '_')

/-- The base of a literal and the length of its sign. -/
def radixOf : List Char → Nat × Nat
  | '0' :: 'b' :: _ => (2, 2)
  | '0' :: 'o' :: _ => (8, 2)
  | '0' :: 'x' :: _ => (16, 2)
  | _ => (10, 0)

/-- A literal taken apart; runs still have their underscores. -/
structure Parts where
  radix : Nat
  /-- The length of the base sign. -/
  sign : Nat
  whole : List Char
  fraction : Option (List Char)
  /-- What continues the literal like a name. -/
  trailing : List Char

/-- The number of characters of a literal. -/
def Parts.length (p : Parts) : Nat :=
  p.sign + p.whole.length + (p.fraction.map (·.length + 1)).getD 0 + p.trailing.length

/-- The fraction after a run of digits, if there is one. -/
def fractionOf (radix : Nat) : List Char → Option (List Char)
  | '.' :: c :: rest =>
    if (radix = 10 ∨ radix = 16) ∧ isDigit radix c then
      some ((c :: rest).takeWhile (isDigitOrGap radix))
    else none
  | _ => none

/-- The parts of the literal at the front of a text. -/
def Parts.ofText (s : List Char) : Parts :=
  let (radix, sign) := radixOf s
  let body := s.drop sign
  let whole := body.takeWhile (isDigitOrGap radix)
  let afterWhole := body.drop whole.length
  let fraction := fractionOf radix afterWhole
  let left := afterWhole.drop ((fraction.map (·.length + 1)).getD 0)
  { radix, sign, whole, fraction, trailing := left.takeWhile Text.isNameChar }

/-- The value of digits behind the point of a hexadecimal literal, added to the value before it, one
digit after the other in double arithmetic. -/
def addHexFraction (whole : Float) (digits : List Char) : Float :=
  (digits.foldl
    (fun state c =>
      let digit := ((digitValue? c).map Float.ofNat).getD 0.0
      (state.1 + digit * state.2, state.2 / 16.0))
    (whole, 1.0 / 16.0)).1

/-- The value of a literal, unless it is invalid: it has no digit before the point, an integer
beyond 64 bits, or something behind it. -/
def Parts.value? (p : Parts) : Option Value :=
  let digits := withoutGaps p.whole
  let whole := digitsValue p.radix digits
  if !p.trailing.isEmpty || digits.isEmpty then none
  else
    match p.fraction with
    | none => (Value.int64? whole).map .int
    | some run =>
      let fraction := withoutGaps run
      if p.radix = 10 then
        some (.double (Double.ofDecimal (digitsValue 10 (digits ++ fraction)) (-fraction.length)))
      else
        (Value.int64? whole).map fun _ => .double (addHexFraction (Double.nearest whole 1) fraction)

end Stencil.Literal
