/-!
# Operators

The operators with their symbols, forms and precedences, and the order in which the lexer tries
their symbols.
-/

namespace Stencil

/-- Operators. `negate` is told from `minus` by its place, and `subscript` is what the two brackets
of `a[b]` become. -/
inductive Operator
  | not | negate
  | plus | minus | multiply | divide | modulo
  | equal | unequal | greater | greaterOrEqual | lesser | lesserOrEqual
  | and | or | nilCoalesce
  | question | colon
  | assign | plusAssign | minusAssign | multiplyAssign | divideAssign | moduloAssign
  | member | bracketOpen | bracketClose | subscript
  deriving DecidableEq

/-- How an operator takes its operands. The structural symbols are read by the argument lists
themselves. -/
inductive OperatorForm
  | unary | binary | ternary | assignment | structural
  deriving DecidableEq

namespace Operator

/-- The operators in the order in which the lexer tries them: each symbol comes before those it
starts with. -/
def lexable : List Operator :=
  [equal, unequal, greaterOrEqual, lesserOrEqual, and, or, nilCoalesce,
   plusAssign, minusAssign, multiplyAssign, divideAssign, moduloAssign,
   not, plus, minus, multiply, divide, modulo, greater, lesser,
   question, colon, assign, member, bracketOpen, bracketClose]

/-- An operator as it is written. -/
def symbol : Operator → String
  | not => "!"
  | negate | minus => "-"
  | plus => "+"
  | multiply => "*"
  | divide => "/"
  | modulo => "%"
  | equal => "=="
  | unequal => "!="
  | greater => ">"
  | greaterOrEqual => ">="
  | lesser => "<"
  | lesserOrEqual => "<="
  | and => "&&"
  | or => "||"
  | nilCoalesce => "??"
  | question => "?"
  | colon => ":"
  | assign => "="
  | plusAssign => "+="
  | minusAssign => "-="
  | multiplyAssign => "*="
  | divideAssign => "/="
  | moduloAssign => "%="
  | member => "."
  | bracketOpen => "["
  | bracketClose => "]"
  | subscript => "[]"

/-- Where an operator stands. -/
def form : Operator → OperatorForm
  | not | negate => .unary
  | question | colon => .ternary
  | assign | plusAssign | minusAssign | multiplyAssign | divideAssign | moduloAssign => .assignment
  | member | bracketOpen | bracketClose => .structural
  | _ => .binary

/-- A higher precedence binds tighter. -/
def precedence : Operator → Nat
  | subscript => 11
  | not | negate => 10
  | multiply | divide | modulo => 8
  | plus | minus => 7
  | greater | greaterOrEqual | lesser | lesserOrEqual => 6
  | equal | unequal => 5
  | and => 4
  | or => 3
  | nilCoalesce => 2
  | question | colon => 1
  | _ => 0

/-- The operation that a compound assignment performs. -/
def compoundBase? : Operator → Option Operator
  | plusAssign => some plus
  | minusAssign => some minus
  | multiplyAssign => some multiply
  | divideAssign => some divide
  | moduloAssign => some modulo
  | _ => none

/-- The operator whose symbol a text starts with, longer symbols tried first. -/
def leading? (text : List Char) : Option Operator :=
  lexable.find? fun op => op.symbol.toList.isPrefixOf text

theorem symbol_toList_ne_nil (op : Operator) : op.symbol.toList ≠ [] := by
  cases op <;> decide

end Operator

end Stencil
