import Stencil.Json.Value
import Stencil.Symbol

/-!
# Contexts

The data a template is rendered with: the root scope and the named scopes. In JSON a context is an
object; a member whose key starts with `$` and whose value is an object is a named scope.
-/

namespace Stencil

/-- The data for the variables of a template: the root scope and the named scopes. -/
structure Context where
  root : Entries Value := []
  scopes : Entries (Entries Value) := []

namespace Context

/-- Sets a variable of the root scope. -/
def set (c : Context) (name : String) (v : Value) : Context :=
  { c with root := c.root.insert name v }

/-- The variables of a named scope. -/
def scope? (c : Context) (name : String) : Option (Entries Value) := c.scopes.find? name

/-- Sets a variable of a named scope. -/
def setScoped (c : Context) (scope name : String) (v : Value) : Context :=
  { c with scopes := c.scopes.insert scope (((c.scope? scope).getD []).insert name v) }

/-- The name after a leading `$`, if there is one. -/
def scopeName? (key : String) : Option String :=
  match key.toList with
  | '$' :: c :: rest => some (String.ofList (c :: rest))
  | _ => none

/-- Enters a member of the JSON form. -/
def addMember (c : Context) (key : String) (v : Value) : Context :=
  match scopeName? key, v with
  | some scope, .dictionary entries => { c with scopes := c.scopes.insert scope entries }
  | _, v => c.set key v

/-- Reads a context from JSON text. -/
def ofJson (text : String) : Except Json.Failure Context :=
  match Json.readValueText text with
  | .error e => .error e
  | .ok (.dictionary entries) =>
    .ok (entries.foldl (fun context entry => context.addMember entry.1 entry.2) {})
  | .ok _ => .error .wrongShape

/-- The value of a variable. -/
def get? (c : Context) (v : Variable) : Option Value :=
  let base := match v.scope with
    | none => c.root.find? v.member
    | some scope =>
      if scope = Variable.ownScope then c.root.find? v.member
      else (c.scope? scope).bind (·.find? v.member)
  base.bind (·.walk? v.path)

/-- Scope and member of a root key such as `$app.version`. -/
def splitKey? (key : String) : Option (String × String) :=
  match key.toList with
  | '$' :: rest =>
    match rest.dropWhile (· != '.') with
    | '.' :: member => some (String.ofList (rest.takeWhile (· != '.')), String.ofList member)
    | _ => none
  | _ => none

/-- Whether a root key is provided. -/
def provides (c : Context) (key : String) : Bool :=
  match splitKey? key with
  | some (scope, member) => ((c.scope? scope).map (·.has member)).getD false
  | none => c.root.has key

/-- The root keys that are not provided. -/
def missing (c : Context) (keys : NameSet) : List String := keys.filter fun key => !c.provides key

end Context

end Stencil
