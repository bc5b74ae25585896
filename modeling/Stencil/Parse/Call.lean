import Stencil.Entities.Basic
import Stencil.Parse.Fault

/-!
# Choosing an overload

A call is resolved as far as the arguments as written allow. Overloads whose shape does not fit are
out. If all arguments are literals their types decide, and exactly one overload has to be left;
otherwise, with more than one left, the choice waits until the call runs.
-/

namespace Stencil

/-- Overloads that arguments fit in shape, with the slots that the arguments take. -/
def shapedOverloads (candidates : List Function) (args : Tuple) : List (Function × List Slot) :=
  candidates.filterMap fun f =>
    match f.signature.bind args.length args.labels with
    | .ok slots => some (f, slots)
    | .error _ => none

/-- The shape fault of the last overload. -/
def lastBindError (candidates : List Function) (args : Tuple) : BindError :=
  candidates.foldl
    (fun found f =>
      match f.signature.bind args.length args.labels with
      | .ok _ => found
      | .error e => e)
    (.unknownLabels [])

/-- The data of the arguments, if all are literals. -/
def Tuple.literals? (args : Tuple) : Option (List Value) := args.values.mapM Expr.value?

/-- The call for the overloads that are left. -/
def pendingCall (name : String) (method : Bool) (args : Tuple) :
    List (Function × List Slot) → Expr
  | [(target, slots)] => .call name method target slots args
  | several => .overload name method (several.map Prod.fst) args

/-- Resolves a call in a tag. -/
def Entities.resolveCall (r : Entities) (tag name : String) (method : Bool) (args : Tuple) :
    Except Fault Expr :=
  let candidates := r.candidates method name
  let shaped := shapedOverloads candidates args
  let folded (e : Expr) : Except Fault Expr := e.folded.mapError fun e => .malformed tag (.fold e)
  if candidates.isEmpty then .error (.signature name (.unregistered method))
  else if shaped.isEmpty then .error (.signature name (.bind (lastBindError candidates args)))
  else
    match args.literals? with
    | none => folded (pendingCall name method args shaped)
    | some values =>
      match shaped.filter fun entry => (entry.1.signature.resolve entry.2 values).isOk with
      | [] => .error (.signature name .noOverload)
      | [entry] => folded (pendingCall name method args [entry])
      | several => .error (.ambiguous name several.length)

end Stencil
