import Stencil.Double.Shortest

/-!
# Doubles as text

A layout decides where a decimal is written positionally and how an exponent looks. Three layouts
are in use: values in rendered text, numbers in JSON text, and literals in template source.
-/

namespace Stencil.Double

/-- How a finite double is written. -/
structure Layout where
  /-- Whether a decimal with this point is written without an exponent. -/
  positional : Int → Bool
  /-- Whether a positive exponent has a plus sign. -/
  plus : Bool
  /-- Whether, of two equally near decimals around a value, the upper is taken, given the lower. -/
  up : Nat → Bool

/-- Values: no exponent from `1e-4` up to below `1e16`; the upper of two equally near decimals. -/
def Layout.value : Layout := ⟨fun point => -3 ≤ point && point ≤ 16, false, fun _ => true⟩

/-- JSON: no exponent from `1e-5` up to below `1e16`; the even of two equally near decimals. -/
def Layout.json : Layout :=
  ⟨fun point => -4 ≤ point && point ≤ 16, true, fun floor => floor % 2 == 1⟩

/-- Source literals: never an exponent. -/
def Layout.source : Layout := ⟨fun _ => true, false, fun _ => true⟩

/-- A decimal without exponent, with at least one digit on both sides of the point. -/
def Decimal.positional (d : Decimal) : List Char :=
  if d.point ≤ 0 then
    ['0', '.'] ++ List.replicate (-d.point).toNat '0' ++ d.digits
  else
    let whole := d.digits.take d.point.toNat
    let fraction := d.digits.drop d.point.toNat
    whole ++ List.replicate (d.point.toNat - whole.length) '0' ++
      '.' :: (if fraction.isEmpty then ['0'] else fraction)

/-- A decimal with an exponent and one digit before the point. -/
def Decimal.scientific (plus : Bool) (d : Decimal) : List Char :=
  let exponent := d.point - 1
  let fraction := d.digits.drop 1
  d.digits.take 1 ++ (if fraction.isEmpty then [] else '.' :: fraction) ++
    'e' :: (if plus && 0 ≤ exponent then ['+'] else []) ++ (toString exponent).toList

/-- A finite magnitude in a layout. -/
def Layout.magnitude (layout : Layout) (b : Binary) : List Char :=
  if b.mantissa = 0 then ['0', '.', '0']
  else
    let d := shortest layout.up b
    if layout.positional d.point then d.positional else d.scientific layout.plus

/-- A finite double in a layout. -/
def Layout.finite (layout : Layout) (x : Float) : String :=
  String.ofList ((if isNegative x then ['-'] else []) ++ layout.magnitude (Binary.ofFloat x))

/-- A double as the text of a value. -/
def text (x : Float) : String :=
  if x.isNaN then "NaN"
  else if x.isInf then (if isNegative x then "-inf" else "inf")
  else Layout.value.finite x

/-- The number that digits make. -/
def digitsValue (digits : List Char) : Nat :=
  digits.foldl (fun n c => 10 * n + (c.toNat - '0'.toNat)) 0

/-- The number that digits make, if there are only digits and not none. -/
def digits? (digits : List Char) : Option Nat :=
  if digits ≠ [] ∧ digits.all Char.isDigit then some (digitsValue digits) else none

/-- Reads an exponent with its letter, or no exponent. -/
def exponent? : List Char → Option Int
  | [] => some 0
  | 'e' :: '-' :: digits => (digits? digits).map fun n => -(n : Int)
  | 'e' :: digits => (digits? digits).map fun n => (n : Int)
  | _ => none

/-- The double nearest to a decimal without sign. -/
def readMagnitude? (text : List Char) : Option Float := do
  let exponent ← exponent? (text.dropWhile (· != 'e'))
  let mantissa := text.takeWhile (· != 'e')
  let whole := mantissa.takeWhile (· != '.')
  let fraction := (mantissa.dropWhile (· != '.')).drop 1
  let significand ← digits? (whole ++ fraction)
  return ofDecimal significand (exponent - fraction.length)

/-- Reads the text of a value. -/
def ofText? (text : String) : Option Float :=
  if text = "NaN" then some (0.0 / 0.0)
  else if text = "inf" then some (1.0 / 0.0)
  else if text = "-inf" then some (-1.0 / 0.0)
  else
    match text.toList with
    | '-' :: rest => (readMagnitude? rest).map fun x => -x
    | rest => readMagnitude? rest

/-- A double as template source. What has no literal is spelled as the division that gives it. -/
def sourceText (x : Float) : String :=
  if x.isNaN then "(0.0 / 0.0)"
  else if x.isInf then (if isNegative x then "(-1.0 / 0.0)" else "(1.0 / 0.0)")
  else Layout.source.finite x

end Stencil.Double
