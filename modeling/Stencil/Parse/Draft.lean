import Stencil.Parse.Fault
import Stencil.Template.Basic

/-!
# Templates under construction

The tables that are written so far, the scopes that are open, and what has been found to be
required. A scope belongs to a block, a definition or an encoder tag; it has a table of its own and
knows the variables declared in it.
-/

namespace Stencil

/-- What is known of a declared variable. -/
structure Declared where
  constant : Bool
  assigned : Bool

/-- What a scope was opened for. A block remembers the links of its chain, in order. -/
inductive ScopeKind
  | chain (names : List String)
  | define
  | encode

/-- A scope that is open. -/
structure OpenScope where
  name : String
  kind : ScopeKind
  location : Text.Location
  table : Nat
  declared : Entries Declared

namespace OpenScope

/-- Whether an end tag for a name closes the scope: of a chain, the name of any link does. -/
def closedBy (s : OpenScope) (name : String) : Bool :=
  match s.kind with
  | .chain names => names.contains name
  | .define => name == "define"
  | .encode => name == "raw"

/-- The name under which the scope is reported: the first link of a chain. -/
def head (s : OpenScope) : String :=
  match s.kind with
  | .chain names => names.headD s.name
  | _ => s.name

end OpenScope

/-- A template under construction. -/
structure Draft where
  tables : List (List Node) := [[]]
  /-- The variables declared outside of all scopes. -/
  declared : Entries Declared := []
  /-- The open scopes, the innermost first. -/
  opened : List OpenScope := []
  required : NameSet := []
  templates : NameSet := []
  raws : NameSet := []

namespace Draft

/-- The table that is written. -/
def current (d : Draft) : Nat := (d.opened.head?.map (·.table)).getD 0

/-- Adds a node to the current table. -/
def push (d : Draft) (node : Node) : Draft :=
  { d with tables := d.tables.modify d.current (· ++ [node]) }

/-- Raw text behind a table, joined to raw text at its end. -/
def appendRaw (text : String) (table : List Node) : List Node :=
  match table.getLast? with
  | some (.raw before) => table.dropLast ++ [.raw (before ++ text)]
  | _ => table ++ [.raw text]

/-- Adds raw text to the current table. -/
def addRaw (d : Draft) (text : String) : Draft :=
  if text.isEmpty then d else { d with tables := d.tables.modify d.current (appendRaw text) }

/-- Adds a node with a body and opens the scope of the body. -/
def openScope (d : Draft) (node : Node) (name : String) (kind : ScopeKind)
    (location : Text.Location) (declared : Entries Declared) : Draft :=
  let body := d.tables.length
  let written := (d.push node).push (.scope (some body))
  { written with
    tables := written.tables ++ [[]]
    opened := { name, kind, location, table := body, declared } :: d.opened }

/-- Closes the innermost scope. -/
def closeScope (d : Draft) : Draft := { d with opened := d.opened.tail }

/-- The declarations in effect, the innermost first. -/
def frames (d : Draft) : List (Entries Declared) := d.opened.map (·.declared) ++ [d.declared]

/-- What is known of a variable. -/
def lookup? (d : Draft) (name : String) : Option Declared := d.frames.findSome? (·.find? name)

/-- The declarations of the innermost scope. -/
def innermost (d : Draft) : Entries Declared := d.frames.headD []

/-- Declares a variable in the innermost scope. -/
def declare (d : Draft) (name : String) (declared : Declared) : Draft :=
  match d.opened with
  | scope :: outer =>
    { d with opened := { scope with declared := scope.declared.insert name declared } :: outer }
  | [] => { d with declared := d.declared.insert name declared }

/-- Marks the innermost declaration of a name as assigned; tells whether there was one. -/
def markIn (name : String) : List OpenScope → List OpenScope × Bool
  | [] => ([], false)
  | scope :: outer =>
    match scope.declared.find? name with
    | some found =>
      let declared := scope.declared.insert name { found with assigned := true }
      ({ scope with declared := declared } :: outer, true)
    | none =>
      let (outer, done) := markIn name outer
      (scope :: outer, done)

/-- Marks a variable as assigned. -/
def markAssigned (d : Draft) (name : String) : Draft :=
  match markIn name d.opened with
  | (opened, true) => { d with opened }
  | (_, false) =>
    match d.declared.find? name with
    | some found => { d with declared := d.declared.insert name { found with assigned := true } }
    | none => d

/-- Checks a variable that is used: a declared one must have been assigned, any other has to come
from the context. -/
def use (d : Draft) (v : Variable) : Except Fault Draft :=
  let known := if v.scope.isNone then d.lookup? v.member else none
  match known with
  | some declared =>
    if declared.assigned then .ok d else .error (.variable v.member .unassigned)
  | none => .ok { d with required := NameSet.insert v.rootKey d.required }

/-- Checks all variables of an expression. -/
def useAll (d : Draft) (e : Expr) : Except Fault Draft := e.vars.foldlM use d

/-- The template, when no scope is open any more. -/
def finish (d : Draft) (name : String) (indicator : Char) : Template where
  name := name
  indicator := indicator
  tables := d.tables
  required := d.required
  templates := d.templates
  raws := d.raws
  size := rawSize (d.tables.headD [])

end Draft

end Stencil
