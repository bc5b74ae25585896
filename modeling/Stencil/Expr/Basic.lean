import Stencil.Operator.Basic
import Stencil.Signature
import Stencil.Symbol

/-!
# Expressions

Expressions and argument tuples. A tuple is a list of expressions, each under an optional label; no
label occurs twice in a tuple that `Tuple.push?` built.

Two properties say what may be computed before the template is rendered: an expression is *resolved*
if it mentions no variable, and *invariant* if its value cannot depend on anything but itself.
-/

namespace Stencil

/-- Expressions. Besides what has a value there are the raw elements of argument lists: reserved
words, operators that wait for operands, and sequences that only the patterns of a block can read.
-/
inductive Expr
  | value (data : Value)
  | keyword (word : Keyword)
  | operator (op : Operator)
  | var (v : Variable)
  | unary (op : Operator) (operand : Expr)
  | binary (op : Operator) (left right : Expr)
  | conditional (condition whenTrue whenFalse : Expr)
  | sequence (items : List Expr)
  | collection (items : List (Option String × Expr))
  /-- A call whose function is known. -/
  | call (name : String) (method : Bool) (target : Function) (slots : List Slot)
      (args : List (Option String × Expr))
  /-- A call whose function is chosen by the types of the arguments when it runs. -/
  | overload (name : String) (method : Bool) (candidates : List Function)
      (args : List (Option String × Expr))

instance : Inhabited Expr := ⟨.value .nil⟩

/-- Arguments in order, each with its label if it has one. -/
abbrev Tuple := List (Option String × Expr)

namespace Tuple

/-- The expressions in order. -/
def values (t : Tuple) : List Expr := t.map Prod.snd

/-- Label and position of each labelled argument, in order of position, counting from `start`. -/
def labelled {α : Type} (start : Nat) : List (Option String × α) → List (String × Nat)
  | [] => []
  | (some label, _) :: rest => (label, start) :: labelled (start + 1) rest
  | (none, _) :: rest => labelled (start + 1) rest

/-- The positions of the labelled arguments, by label. -/
def labels (t : Tuple) : Entries Nat := Entries.ofList (labelled 0 t)

/-- The label of a position. -/
def labelAt (t : Tuple) (index : Nat) : Option String := (t[index]?).bind Prod.fst

/-- Whether some argument has a label. -/
def anyLabel (t : Tuple) : Bool := t.any fun item => item.1.isSome

/-- Whether all arguments have a label. -/
def allLabelled (t : Tuple) : Bool := t.all fun item => item.1.isSome

/-- Whether a label is in use. -/
def uses (t : Tuple) (label : String) : Bool := t.any fun item => item.1 == some label

/-- Adds an argument, unless its label is in use already. -/
def push? (t : Tuple) (label : Option String) (e : Expr) : Option Tuple :=
  if label.any t.uses then none else some (t ++ [(label, e)])

/-- Adds an argument without label. -/
def pushPlain (t : Tuple) (e : Expr) : Tuple := t ++ [(none, e)]

/-- Puts an argument without label before the others. -/
def pushFront (t : Tuple) (e : Expr) : Tuple := (none, e) :: t

/-- A tuple of arguments without labels. -/
def ofList (items : List Expr) : Tuple := items.map fun e => (none, e)

/-- A tuple can be a collection if all of its items have a label or none has. -/
def isCollection (t : Tuple) : Bool := !t.anyLabel || t.allLabelled

end Tuple

namespace Expr

mutual
/-- The variables that an expression mentions, from left to right. -/
def vars : Expr → List Variable
  | value _ | keyword _ | operator _ => []
  | var v => [v]
  | unary _ e => e.vars
  | binary _ l r => l.vars ++ r.vars
  | conditional c t f => c.vars ++ t.vars ++ f.vars
  | sequence items => varsAll items
  | collection items => varsOf items
  | call _ _ _ _ args => varsOf args
  | overload _ _ _ args => varsOf args

def varsAll : List Expr → List Variable
  | [] => []
  | e :: rest => e.vars ++ varsAll rest

def varsOf : List (Option String × Expr) → List Variable
  | [] => []
  | (_, e) :: rest => e.vars ++ varsOf rest
end

mutual
/-- Whether an expression mentions no variable. -/
def resolved : Expr → Bool
  | value _ | keyword _ | operator _ => true
  | var _ => false
  | unary _ e => e.resolved
  | binary _ l r => l.resolved && r.resolved
  | conditional c t f => c.resolved && t.resolved && f.resolved
  | sequence items => resolvedAll items
  | collection items => resolvedOf items
  | call _ _ _ _ args => resolvedOf args
  | overload _ _ _ args => resolvedOf args

def resolvedAll : List Expr → Bool
  | [] => true
  | e :: rest => e.resolved && resolvedAll rest

def resolvedOf : List (Option String × Expr) → Bool
  | [] => true
  | (_, e) :: rest => e.resolved && resolvedOf rest
end

mutual
/-- Whether the value of an expression cannot change between evaluations. -/
def invariant : Expr → Bool
  | value _ | keyword _ | operator _ => true
  | var _ => false
  | unary _ e => e.invariant
  | binary _ l r => l.invariant && r.invariant
  | conditional c t f => c.invariant && t.invariant && f.invariant
  | sequence items => invariantAll items
  | collection items => invariantOf items
  | call _ _ target _ args => target.invariant && invariantOf args
  | overload _ _ candidates args => candidates.all (·.invariant) && invariantOf args

def invariantAll : List Expr → Bool
  | [] => true
  | e :: rest => e.invariant && invariantAll rest

def invariantOf : List (Option String × Expr) → Bool
  | [] => true
  | (_, e) :: rest => e.invariant && invariantOf rest
end

/-- Whether an expression can give a value. Operators, sequences and the words that only structure
an argument list cannot. -/
def valued : Expr → Bool
  | keyword word => word.isValued
  | operator _ => false
  | sequence _ => false
  | _ => true

/-- Whether an expression can be computed while parsing. -/
def constant (e : Expr) : Bool := e.resolved && e.invariant && e.valued

/-- The data of a literal. -/
def value? : Expr → Option Value
  | value data => some data
  | _ => none

/-- The operator that an element is. -/
def operator? : Expr → Option Operator
  | operator op => some op
  | _ => none

/-- The name of a variable without scope and path. -/
def atomicName? : Expr → Option String
  | var v => if v.isAtomic then some v.member else none
  | _ => none

mutual
theorem resolved_iff_vars (e : Expr) : e.resolved = true ↔ e.vars = [] := by
  cases e with
  | value => simp [resolved, vars]
  | keyword => simp [resolved, vars]
  | operator => simp [resolved, vars]
  | var => simp [resolved, vars]
  | unary _ e => simpa [resolved, vars] using resolved_iff_vars e
  | binary _ l r =>
    simp [resolved, vars, resolved_iff_vars l, resolved_iff_vars r]
  | conditional c t f =>
    simp [resolved, vars, resolved_iff_vars c, resolved_iff_vars t,
      resolved_iff_vars f, and_assoc]
  | sequence items => simpa [resolved, vars] using resolvedAll_iff_vars items
  | collection items => simpa [resolved, vars] using resolvedOf_iff_vars items
  | call _ _ _ _ args => simpa [resolved, vars] using resolvedOf_iff_vars args
  | overload _ _ _ args => simpa [resolved, vars] using resolvedOf_iff_vars args

theorem resolvedAll_iff_vars (items : List Expr) :
    resolvedAll items = true ↔ varsAll items = [] := by
  cases items with
  | nil => simp [resolvedAll, varsAll]
  | cons e rest =>
    simp [resolvedAll, varsAll, resolved_iff_vars e, resolvedAll_iff_vars rest]

theorem resolvedOf_iff_vars (args : List (Option String × Expr)) :
    resolvedOf args = true ↔ varsOf args = [] := by
  match args with
  | [] => simp [resolvedOf, varsOf]
  | (_, e) :: rest =>
    simp [resolvedOf, varsOf, resolved_iff_vars e, resolvedOf_iff_vars rest]
end

end Expr

end Stencil
