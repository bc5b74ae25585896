import Stencil.Entities.Basic
import Stencil.Formatters

/-!
# Entities described by data

Functions, blocks and encoders that a host can register without code of its own: the description
says which of a few things the entity does.
-/

namespace Stencil

/-- What a described function gives. -/
inductive Action
  /-- A text with the types and texts of the arguments. -/
  | describe
  /-- The first argument. -/
  | first
  /-- All arguments as an array. -/
  | args
  /-- The number of arguments. -/
  | count
  /-- An error. -/
  | fail
  deriving DecidableEq

/-- The action with a name. -/
def Action.ofName? (name : String) : Option Action :=
  [("describe", describe), ("first", first), ("args", args), ("count", count),
    ("fail", fail)].lookup name

/-- A described function. -/
structure FunctionSpec where
  signature : Signature
  invariant : Bool := true
  /-- The name that it gives itself. -/
  tag : String
  action : Action := .describe

namespace FunctionSpec

/-- An argument with its type. -/
def describeArgument (v : Value) : String := typeName v.type? ++ "=" ++ Formatters.standard.format v

/-- What the function gives for arguments. -/
def run (spec : FunctionSpec) (args : List Value) : Value :=
  match spec.action with
  | .describe => .string (spec.tag ++ "<" ++ ";".intercalate (args.map describeArgument) ++ ">")
  | .first => args.headD .nil
  | .args => .array args
  | .count => .ofNat args.length
  | .fail => .error (.raised spec.tag)

/-- The function with a number of its own. -/
def toFunction (spec : FunctionSpec) (id : Nat) : Function :=
  { id, signature := spec.signature, invariant := spec.invariant, run := spec.run }

end FunctionSpec

/-- How a described block decides about its passes. -/
inductive BlockMode
  /-- One pass. -/
  | once
  /-- One pass if the first argument is true. -/
  | truthy
  /-- As many passes as the first argument says. -/
  | counted
  /-- Passes as long as the first argument is true. -/
  | indefinite
  /-- No pass. -/
  | never
  deriving DecidableEq

/-- The mode with a name; under any other name a block makes no pass. -/
def BlockMode.ofName (name : String) : BlockMode :=
  ([("once", once), ("truthy", truthy), ("repeat", counted),
    ("indefinite", indefinite)].lookup name).getD never

/-- The decision about pass number `index`, by the first argument. -/
def BlockMode.verdict (mode : BlockMode) (first : Option Value) (index : Nat) : Verdict :=
  let holds := (first.map Value.truthy).getD false
  match mode with
  | once => .once
  | truthy => if holds then .once else .discard
  | counted =>
    match first with
    | some (.int n) =>
      if (index : Int) < n.toInt then .repeating (n.toInt - index).toNat else .discard
    | _ => .discard
  | indefinite => if holds then .indefinite else .discard
  | never => .discard

/-- A described block. -/
structure BlockSpec where
  signature : Signature
  patterns : List Pattern := []
  follows : List String := []
  mode : BlockMode := .once

namespace BlockSpec

/-- The name under which a described block binds the number of the pass. -/
def passName : String := "pass"

/-- The declared names take the arguments in order. -/
def behaviour (mode : BlockMode) (declared : List String) : Behaviour where
  pass _ index current :=
    (mode.verdict current.head? index,
      declared.zipIdx.map (fun item => (item.1, current[item.2]?.getD .nil)) ++
        [(passName, .ofNat index)])

/-- Makes an instance from the arguments of a tag. -/
def make (spec : BlockSpec) : BlockArguments → Except BlockError BlockInstance
  | .call t => do
    let args ← (spec.signature.normalize t).mapError .bind
    return ⟨behaviour spec.mode [], args, [passName]⟩
  | .parsed found =>
    .ok ⟨behaviour spec.mode found.declared, Tuple.ofList found.expressions,
      found.declared ++ [passName]⟩

def form (spec : BlockSpec) : BlockForm where
  signature := spec.signature
  patterns := spec.patterns
  follows := spec.follows
  make := spec.make

end BlockSpec

/-- One entry into a registry. -/
inductive Registration
  | function (name : String) (spec : FunctionSpec)
  | method (name : String) (spec : FunctionSpec)
  | block (name : String) (spec : BlockSpec)
  /-- An encoder that puts its name before a text in braces. -/
  | encoder (name : String)
  | defaultEncoder (name : String)

namespace Registration

def name : Registration → String
  | function name _ | method name _ | block name _ | encoder name | defaultEncoder name => name

/-- Enters it into a registry. -/
def apply (r : Entities) : Registration → Except EntitiesError Entities
  | function name spec => .ok (r.addFunction name spec.toFunction)
  | method name spec => .ok (r.addMethod name spec.toFunction)
  | block name spec => .ok (r.addBlock name spec.form)
  | encoder name => .ok (r.addEncoder name (.labelled name))
  | defaultEncoder name => r.setDefaultEncoder name

end Registration

end Stencil
