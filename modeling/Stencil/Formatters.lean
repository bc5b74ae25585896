import Stencil.Value

/-!
# Values as output

The texts of values in rendered output. The texts of scalars can be replaced; collections are always
written between brackets, and an error has no text.
-/

namespace Stencil

/-- How scalars are written. -/
structure Formatters where
  nil : String
  bool : Bool → String
  int : Int64 → String
  double : Float → String
  string : String → String

namespace Formatters

/-- Nothing for nil, numbers in decimal, texts as they are. -/
def standard : Formatters where
  nil := ""
  bool b := if b then "true" else "false"
  int i := toString i.toInt
  double x := Double.text x
  string s := s

/-- Texts that show the type of each scalar. -/
def marked : Formatters where
  nil := "<nil>"
  bool b := if b then "yes" else "no"
  int i := "i" ++ toString i.toInt
  double x := "d" ++ Double.text x
  string s := "'" ++ s ++ "'"

mutual
/-- The text of a value. -/
def format (f : Formatters) : Value → String
  | .nil => f.nil
  | .bool b => f.bool b
  | .int i => f.int i
  | .double x => f.double x
  | .string s => f.string s
  | .array items => "[" ++ ", ".intercalate (f.formatItems items) ++ "]"
  | .dictionary [] => "[:]"
  | .dictionary entries => "[" ++ ", ".intercalate (f.formatEntries entries) ++ "]"
  | .error _ => ""

def formatItems (f : Formatters) : List Value → List String
  | [] => []
  | v :: rest => f.format v :: f.formatItems rest

def formatEntries (f : Formatters) : List (String × Value) → List String
  | [] => []
  | (key, v) :: rest => (key ++ ": " ++ f.format v) :: f.formatEntries rest
end

end Formatters

end Stencil
