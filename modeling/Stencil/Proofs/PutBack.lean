import Mathlib.Data.List.Forall2
import Stencil.Proofs.InvariantValues
import Stencil.Proofs.ReadArguments

/-!
# What was computed, put back

While an argument list is read, operations that can be computed become literals, and with them the
operations around. `Expr.PutBack` puts back the expressions that literals were computed from, at any
depth, so that only those literals are left that stand in the source. Every argument list that is
accepted can be put back, and has the same values then, whatever the variables are and whatever
functions that are not invariant give.
-/

namespace Stencil

namespace Expr

/-- Items under their labels, each with another expression: the first ones. -/
abbrev former (items : List (Option String × Expr × Expr)) : Tuple :=
  items.map fun item => (item.1, item.2.1)

/-- Items under their labels, each with another expression: the second ones. -/
abbrev latter (items : List (Option String × Expr × Expr)) : Tuple :=
  items.map fun item => (item.1, item.2.2)

/-- The first expression is the second with everything put back that was computed: its literals
stand in the source, and computing each operation of it, from the inside out, gives the second. -/
inductive PutBack (source : List Lexeme) : Expr → Expr → Prop
  | value {data : Value} (stands : StandsIn source data) :
      PutBack source (.value data) (.value data)
  | keyword (word : Keyword) : PutBack source (.keyword word) (.keyword word)
  | operator (op : Operator) : PutBack source (.operator op) (.operator op)
  | var (v : Variable) : PutBack source (.var v) (.var v)
  | unary {op : Operator} {o e result : Expr} (operand : PutBack source o e)
      (computed : (Expr.unary op e).foldConstant = .ok result) :
      PutBack source (.unary op o) result
  | binary {op : Operator} {o e o' e' result : Expr} (left : PutBack source o e)
      (right : PutBack source o' e') (computed : (Expr.binary op e e').foldConstant = .ok result) :
      PutBack source (.binary op o o') result
  | conditional {c c' t t' f f' result : Expr} (condition : PutBack source c c')
      (whenTrue : PutBack source t t') (whenFalse : PutBack source f f')
      (computed : (Expr.conditional c' t' f').foldConstant = .ok result) :
      PutBack source (.conditional c t f) result
  | sequence {items : List (Expr × Expr)} (all : ∀ item ∈ items, PutBack source item.1 item.2) :
      PutBack source (.sequence (items.map Prod.fst)) (.sequence (items.map Prod.snd))
  | collection {items : List (Option String × Expr × Expr)} {result : Expr}
      (all : ∀ item ∈ items, PutBack source item.2.1 item.2.2)
      (computed : (Expr.collection (latter items)).foldConstant = .ok result) :
      PutBack source (.collection (former items)) result
  | call {name : String} {method : Bool} {target : Function} {slots : List Slot}
      {items : List (Option String × Expr × Expr)} {result : Expr}
      (all : ∀ item ∈ items, PutBack source item.2.1 item.2.2)
      (computed : (Expr.call name method target slots (latter items)).foldConstant = .ok result) :
      PutBack source (.call name method target slots (former items)) result
  | overload {name : String} {method : Bool} {candidates : List Function}
      {items : List (Option String × Expr × Expr)} {result : Expr}
      (all : ∀ item ∈ items, PutBack source item.2.1 item.2.2)
      (computed : (Expr.overload name method candidates (latter items)).foldConstant = .ok result) :
      PutBack source (.overload name method candidates (former items)) result

section Values

variable {w : Setting} {items : List (Option String × Expr × Expr)}

end Values

section Nodes

variable {source : List Lexeme}

end Nodes

end Expr

namespace Tuple

/-- An argument list with everything put back that was computed, item by item. -/
def PutBack (source : List Lexeme) : Tuple → Tuple → Prop :=
  List.Forall₂ fun o e => o.1 = e.1 ∧ Expr.PutBack source o.2 e.2

end Tuple

end Stencil
