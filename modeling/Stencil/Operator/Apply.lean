import Stencil.Operator.Basic
import Stencil.Value

/-!
# Operators on values

What an operator gives on values that are already there. Arithmetic on integers is exact: the result
is computed in `Int`, and one outside the 64 bit range is an error.
-/

namespace Stencil

namespace Operator

/-- The error of an operator that does not apply. -/
def mismatch (op : Operator) (reason : Mismatch) : Value := .error (.typeMismatch op.symbol reason)

/-- The error of a binary operator on operands of the wrong types. -/
def mismatchPair (op : Operator) (left right : Value) : Value :=
  op.mismatch (.operands left.type? right.type?)

/-- The integer with a given value, or the error of an overflow. -/
def checkedValue (op : Operator) (n : Int) : Value :=
  match Value.int64? n with
  | some i => .int i
  | none => op.mismatch .overflow

/-- Integer arithmetic; division and remainder cut toward zero. -/
def onInts (op : Operator) (a b : Int64) : Value :=
  match op with
  | plus => op.checkedValue (a.toInt + b.toInt)
  | minus => op.checkedValue (a.toInt - b.toInt)
  | multiply => op.checkedValue (a.toInt * b.toInt)
  | divide =>
    if b = 0 then op.mismatch .divisionByZero else op.checkedValue (a.toInt.tdiv b.toInt)
  | _ =>
    if b = 0 then op.mismatch .divisionByZero
    -- the remainder of the least integer by minus one belongs to a quotient out of range
    else if (Value.int64? (a.toInt.tdiv b.toInt)).isNone then op.mismatch .overflow
    else op.checkedValue (a.toInt.tmod b.toInt)

/-- Arithmetic on doubles. -/
def onDoubles (op : Operator) (a b : Float) : Float :=
  match op with
  | plus => a + b
  | minus => a - b
  | multiply => a * b
  | divide => a / b
  | _ => Double.remainder a b

/-- Arithmetic: on integers, on numbers of both kinds as doubles, and `+` also joins texts, arrays
and dictionaries, the right dictionary winning. -/
def arithmetic (op : Operator) (left right : Value) : Value :=
  match left, right with
  | .int a, .int b => op.onInts a b
  | _, _ =>
    match op, left, right with
    | plus, .string a, .string b => .string (a ++ b)
    | plus, .array a, .array b => .array (a ++ b)
    | plus, .dictionary a, .dictionary b => .dictionary (Entries.insertAll a b)
    | _, _, _ =>
      match left.number?, right.number? with
      | some a, some b => .double (op.onDoubles a b)
      | _, _ => op.mismatchPair left right

/-- The order of two doubles; none if one is a NaN. -/
def compareDoubles (a b : Float) : Option Ordering :=
  if a < b then some .lt else if a == b then some .eq else if b < a then some .gt else none

/-- The order of two values: `none` if they have no common order, `some none` if a NaN is among
them. -/
def compareValues (left right : Value) : Option (Option Ordering) :=
  match left, right with
  | .int a, .int b => some (some (compare a.toInt b.toInt))
  | .string a, .string b => some (some (compare a b))
  | _, _ =>
    match left.number?, right.number? with
    | some a, some b => some (compareDoubles a b)
    | _, _ => none

/-- What a comparison says about an order. -/
def holds (op : Operator) (order : Ordering) : Bool :=
  match op with
  | greater => order.isGT
  | greaterOrEqual => order.isGE
  | lesser => order.isLT
  | _ => order.isLE

/-- A comparison of two values; one with a NaN is false. -/
def comparison (op : Operator) (left right : Value) : Value :=
  match compareValues left right with
  | none => op.mismatchPair left right
  | some none => .bool false
  | some (some order) => .bool (op.holds order)

/-- Equality of values: an integer equals a double of the same magnitude, values of other differing
types are never equal. -/
def valuesEqual (left right : Value) : Bool :=
  match left, right with
  | .int a, .double b | .double b, .int a => a.toFloat == b
  | _, _ => left.same right

/-- An element of an array or an entry of a dictionary; an absent entry is nil. -/
def subscriptOf (container key : Value) : Value :=
  match container, key with
  | .array items, .int index =>
    if 0 ≤ index.toInt then
      match items[index.toInt.toNat]? with
      | some item => item
      | none => mismatch subscript (.index index items.length)
    else mismatch subscript (.index index items.length)
  | .dictionary entries, .string key => (Entries.find? key entries).getD .nil
  | _, _ => mismatchPair subscript container key

/-- A binary operator on two values. -/
def apply (op : Operator) (left right : Value) : Value :=
  match op with
  | equal => .bool (valuesEqual left right)
  | unequal => .bool (!valuesEqual left right)
  | greater | greaterOrEqual | lesser | lesserOrEqual => op.comparison left right
  | plus | minus | multiply | divide | modulo => op.arithmetic left right
  | subscript => subscriptOf left right
  | and => .bool (left.truthy && right.truthy)
  | or => .bool (left.truthy || right.truthy)
  | nilCoalesce => if left.isNil then right else left
  | _ => op.mismatch .notBinary

/-- A unary operator on a value. -/
def applyUnary (op : Operator) (value : Value) : Value :=
  match op, value with
  | not, _ => .bool (!value.truthy)
  | negate, .int i => op.checkedValue (-i.toInt)
  | negate, .double d => .double (-d)
  | _, _ => op.mismatch (.operand value.type?)

end Operator

end Stencil
