/-!
# Words and variables

The reserved words of argument lists and the references to variables.
-/

namespace Stencil

/-- Reserved words. -/
inductive Keyword
  | within | isTrue | isFalse | isNil | own | declareVar | declareLet
  deriving DecidableEq

namespace Keyword

def all : List Keyword := [within, isTrue, isFalse, isNil, own, declareVar, declareLet]

/-- The spelling of a reserved word. -/
def word : Keyword → String
  | within => "in"
  | isTrue => "true"
  | isFalse => "false"
  | isNil => "nil"
  | own => "self"
  | declareVar => "var"
  | declareLet => "let"

/-- The reserved word with a spelling. -/
def ofWord? (name : String) : Option Keyword := all.find? (·.word == name)

@[simp] theorem ofWord?_word (k : Keyword) : ofWord? k.word = some k := by
  cases k <;> decide

/-- The words that stand for a value. -/
def isValued : Keyword → Bool
  | isTrue | isFalse | isNil => true
  | _ => false

end Keyword

/-- A reference to a variable: `name`, `name.path`, `self.name` or `$scope.name`. -/
structure Variable where
  scope : Option String := none
  member : String
  path : List String := []
  deriving DecidableEq

namespace Variable

/-- The name of the root scope. -/
def ownScope : String := "self"

/-- A variable without scope and path. -/
def plain (name : String) : Variable := { member := name }

/-- A variable of a scope. -/
def inScope (scope name : String) : Variable := { scope := some scope, member := name }

/-- One more step on the path. -/
def extend (v : Variable) (step : String) : Variable := { v with path := v.path ++ [step] }

/-- Neither scope nor path: the form that can be declared. -/
def isAtomic (v : Variable) : Bool := v.scope.isNone && v.path.isEmpty

/-- Whether the variable belongs to the root scope explicitly. -/
def isOwn (v : Variable) : Bool := v.scope == some ownScope

/-- The key under which a context has to provide the variable: `user.name` and `self.user` need
`user`, and `$app.version` needs `$app.version`. -/
def rootKey (v : Variable) : String :=
  match v.scope with
  | none => v.member
  | some scope => if scope = ownScope then v.member else "$" ++ scope ++ "." ++ v.member

/-- A variable as it stands in template source. -/
def text (v : Variable) : String :=
  let start := match v.scope with
    | none => ""
    | some scope => if scope = ownScope then ownScope ++ "." else "$" ++ scope ++ "."
  start ++ v.member ++ String.join (v.path.map ("." ++ ·))

/-- Paths in the order of their first difference. -/
def comparePaths : List String → List String → Ordering
  | [], [] => .eq
  | [], _ :: _ => .lt
  | _ :: _, [] => .gt
  | a :: as, b :: bs => (compare a b).then (comparePaths as bs)

/-- Variables without scope come first; then scope, member and path decide. -/
def order (v w : Variable) : Ordering :=
  let scopes : Ordering := match v.scope, w.scope with
    | none, none => .eq
    | none, some _ => .lt
    | some _, none => .gt
    | some a, some b => compare a b
  scopes.then ((compare v.member w.member).then (comparePaths v.path w.path))

/-- Enters a variable into an ascending list, once. -/
def insertOrdered (v : Variable) : List Variable → List Variable
  | [] => [v]
  | w :: rest =>
    match order v w with
    | .lt => v :: w :: rest
    | .eq => w :: rest
    | .gt => w :: insertOrdered v rest

/-- The distinct variables of a list in ascending order. -/
def sort (list : List Variable) : List Variable :=
  list.foldl (fun result v => insertOrdered v result) []

end Variable

end Stencil
