import Stencil.Expr.Printer

/-!
# Blocks

A block decides, before each pass over its body, whether the body runs and which names it binds
there. Its decision is a function of the argument values at entry, the number of the pass and the
argument values now. A `BlockForm` makes block instances from the arguments of a tag, either as a
plain call or through a pattern such as `item in collection`.
-/

namespace Stencil

/-- A block's decision about the next pass over its body. -/
inductive Verdict
  | discard
  | once
  /-- Up to this many passes from here on; each later one is asked for again. -/
  | repeating (passes : Nat)
  /-- A pass now, and the arguments are evaluated again before the next. -/
  | indefinite
  deriving DecidableEq

/-- Names that a block binds in its body. -/
abbrev Bindings := Entries Value

/-- How a block instance behaves. -/
structure Behaviour where
  /-- The decision about pass number `index`, and what it binds, in order. -/
  pass : (entered : List Value) → (index : Nat) → (current : List Value) →
    Verdict × List (String × Value)
  /-- The arguments as template source. -/
  parameters : Tuple → String := Tuple.text

/-- Where a block stands between two passes. -/
structure Run where
  entered : List Value := []
  index : Nat := 0
  bindings : Bindings := []

namespace Behaviour

/-- The decision at entry. -/
def enter (b : Behaviour) (run : Run) (values : List Value) : Verdict × Run :=
  let (verdict, bound) := b.pass values 0 values
  (verdict, ⟨values, 0, run.bindings.insertAll bound⟩)

/-- The decision about the pass after. -/
def again (b : Behaviour) (run : Run) (values : List Value) : Verdict × Run :=
  let (verdict, bound) := b.pass run.entered (run.index + 1) values
  (verdict, ⟨run.entered, run.index + 1, run.bindings.insertAll bound⟩)

end Behaviour

/-- An element of a pattern. -/
inductive PatternSlot
  /-- A new name. -/
  | declare
  /-- A fixed word. -/
  | word (keyword : Keyword)
  /-- Any expression with a value. -/
  | expression
  deriving DecidableEq

/-- A named alternative to the call form of a tag: one list of elements for each argument. -/
structure Pattern where
  name : String
  params : List (List PatternSlot)

/-- What a pattern found in the arguments of a tag. -/
structure Matched where
  pattern : String
  declared : List String
  expressions : List Expr

/-- The names and expressions that an element finds. -/
def PatternSlot.match? : PatternSlot → Expr → Option (List String × List Expr)
  | declare, e => e.atomicName?.map fun name => ([name], [])
  | word keyword, .keyword found => if keyword = found then some ([], []) else none
  | word _, _ => none
  | expression, e => if e.valued then some ([], [e]) else none

namespace Pattern

/-- Matches the elements of one argument. -/
def matchElements? : List PatternSlot → List Expr → Option (List String × List Expr)
  | [], [] => some ([], [])
  | slot :: slots, e :: rest => do
    let (names, expressions) ← slot.match? e
    let (moreNames, moreExpressions) ← matchElements? slots rest
    return (names ++ moreNames, expressions ++ moreExpressions)
  | _, _ => none

/-- The elements of an argument. -/
def elements : Expr → List Expr
  | .sequence items => items
  | e => [e]

def matchParams? : List (List PatternSlot) → List Expr → Option (List String × List Expr)
  | [], [] => some ([], [])
  | slots :: params, e :: rest => do
    let (names, expressions) ← matchElements? slots (elements e)
    let (moreNames, moreExpressions) ← matchParams? params rest
    return (names ++ moreNames, expressions ++ moreExpressions)
  | _, _ => none

/-- Matches the arguments of a tag, none of which may have a label. -/
def match? (p : Pattern) (t : Tuple) : Option Matched :=
  if t.anyLabel then none
  else (matchParams? p.params t.values).map fun found => ⟨p.name, found.1, found.2⟩

end Pattern

/-- The arguments of a block tag. -/
inductive BlockArguments
  | call (t : Tuple)
  | parsed (found : Matched)

/-- Why a block cannot be made from the arguments of its tag. -/
inductive BlockError
  | conditionTakesNoPattern
  | whileTakesNoPattern
  | forNeedsPattern
  | loopVariableCount
  | repeatedLoopVariable (name : String)
  | bind (error : BindError)

def BlockError.message : BlockError → String
  | conditionTakesNoPattern => "条件块不接受自定义语法"
  | whileTakesNoPattern => "while 不接受自定义语法"
  | forNeedsPattern => "需要 `item in collection` 形式的参数"
  | loopVariableCount => "循环变量数量无效"
  | repeatedLoopVariable name => s!"循环变量 '{name}' 重复"
  | bind error => error.message

/-- A block made from the arguments of a tag. -/
structure BlockInstance where
  behaviour : Behaviour
  /-- What is evaluated for the block, in order. -/
  args : Tuple
  /-- The names that exist in the body. -/
  declares : List String

/-- How a kind of block is written and made. -/
structure BlockForm where
  signature : Signature
  patterns : List Pattern := []
  /-- The blocks that this one can continue; none for a block that starts a chain. -/
  follows : List String := []
  make : BlockArguments → Except BlockError BlockInstance

/-- The first pattern that matches. -/
def BlockForm.match? (form : BlockForm) (t : Tuple) : Option Matched :=
  form.patterns.findSome? (·.match? t)

/-- The argument in a slot as an expression. -/
def Signature.slotExpr (t : Tuple) : Slot → Expr
  | .argument index => (t[index]?.map Prod.snd).getD (.value .nil)
  | .default value => .value value

/-- The arguments of a call in the order of the parameters, without labels, defaults filled in. -/
def Signature.normalize (s : Signature) (t : Tuple) : Except BindError Tuple := do
  let slots ← s.bind t.length t.labels
  return Tuple.ofList (slots.map (slotExpr t))

end Stencil
