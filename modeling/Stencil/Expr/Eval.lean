import Stencil.Expr.Basic
import Stencil.Operator.Apply

/-!
# Evaluation

The value of an expression where each variable has a value. Evaluation never fails: an error is the
value of the operation that met it and of everything around it, up to a `??` that replaces it.
-/

namespace Stencil

/-- The value of each variable, absent ones included. -/
abbrev Env := Variable → Value

/-- The environment of constants: every variable is nil. -/
def Env.empty : Env := fun _ => .nil

/-- The value of a collection from the values of its items: a dictionary if some item has a label,
of the labelled items alone. -/
def Tuple.gather {α : Type} (items : List (Option String × α)) (values : List Value) : Value :=
  if items.any fun item => item.1.isSome then
    .dictionary <| Entries.ofList <|
      (items.zip values).filterMap fun pair => pair.1.1.map fun label => (label, pair.2)
  else .array values

/-- Runs a function on arguments bound to slots. -/
def Function.runBound (f : Function) (name : String) (slots : List Slot) (values : List Value) :
    Value :=
  match f.signature.resolve slots values with
  | .ok arguments => f.run arguments
  | .error reason => .error (.typeMismatch name (.call reason))

/-- Runs the one candidate that accepts the arguments. -/
def Function.runMatching (candidates : List Function) (name : String) (labels : Entries Nat)
    (values : List Value) : Value :=
  match candidates.filter fun f => f.signature.accepts values labels with
  | [f] =>
    match f.signature.arguments values labels with
    | .ok arguments => f.run arguments
    | .error reason => .error (.typeMismatch name (.call reason))
  | matching =>
    .error (.typeMismatch name (.overloads (values.map Value.type?) matching.length))

/-- The value of a reserved word. -/
def Keyword.value : Keyword → Value
  | .isTrue => .bool true
  | .isFalse => .bool false
  | .isNil => .nil
  | word => .error (.typeMismatch word.word .wordAsValue)

namespace Expr

mutual
/-- The value of an expression. -/
def eval (env : Env) : Expr → Value
  | value data => data
  | keyword word => word.value
  | operator op => op.mismatch .missingOperand
  | var v => env v
  | unary op e =>
    match e.eval env with
    | .error error => .error error
    | operand => op.applyUnary operand
  | binary .nilCoalesce l r =>
    match l.eval env with
    | .nil => r.eval env
    | .error _ => r.eval env
    | left => left
  | binary .and l r =>
    match l.eval env with
    | .error error => .error error
    | left =>
      if left.truthy then
        match r.eval env with
        | .error error => .error error
        | right => .bool right.truthy
      else .bool false
  | binary .or l r =>
    match l.eval env with
    | .error error => .error error
    | left =>
      if left.truthy then .bool true
      else
        match r.eval env with
        | .error error => .error error
        | right => .bool right.truthy
  | binary op l r =>
    match l.eval env with
    | .error error => .error error
    | left =>
      match r.eval env with
      | .error error => .error error
      | right => op.apply left right
  | conditional c t f =>
    match c.eval env with
    | .error error => .error error
    | condition => if condition.truthy then t.eval env else f.eval env
  | sequence _ => .error (.typeMismatch "表达式" .sequenceAsValue)
  | collection items =>
    match evalItems env items with
    | .error error => .error error
    | .ok values => Tuple.gather items values
  | call name _ target slots args =>
    match evalItems env args with
    | .error error => .error error
    | .ok values => target.runBound name slots values
  | overload name _ candidates args =>
    match evalItems env args with
    | .error error => .error error
    | .ok values => Function.runMatching candidates name (Tuple.labels args) values

/-- The values of arguments from left to right; the first error ends the evaluation. -/
def evalItems (env : Env) : List (Option String × Expr) → Except EvalError (List Value)
  | [] => .ok []
  | (_, e) :: rest =>
    match e.eval env with
    | .error error => .error error
    | data =>
      match evalItems env rest with
      | .error error => .error error
      | .ok values => .ok (data :: values)
end

/-- Replaces an expression by its value if that can be computed while parsing. A value with an
infinite double or a NaN inside has no literal, and the expression stays. -/
def foldConstant (e : Expr) : Except EvalError Expr :=
  if !e.constant || e.value?.isSome then .ok e
  else
    match e.eval Env.empty with
    | .error error => .error error
    | data => .ok (if data.finite then .value data else e)

end Expr

/-- The values of a tuple, unless one of them is an error. -/
def Tuple.eval (env : Env) (t : Tuple) : Except EvalError (List Value) := Expr.evalItems env t

/-- A tuple as the value of a collection. -/
def Tuple.evalCollection (env : Env) (t : Tuple) : Value := (Expr.collection t).eval env

end Stencil
