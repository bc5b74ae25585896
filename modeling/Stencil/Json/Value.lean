import Stencil.Json.Tree
import Stencil.Value

/-!
# Values from and to JSON

An integer that fits 64 bits with sign stays an integer, any other number is a double. Of members
with one key the last counts.
-/

namespace Stencil.Json

/-- A number as a value. -/
def Number.toValue : Number → Value
  | integer n =>
    match Value.int64? n with
    | some i => .int i
    | none => .double (Double.nearest n.toNat 1)
  | real x => .double x

mutual
/-- A JSON text taken apart, as a value. -/
def Tree.toValue : Tree → Value
  | .null => .nil
  | .bool b => .bool b
  | .number n => n.toValue
  | .string s => .string s
  | .array items => .array (toValues items)
  | .object members => .dictionary (Entries.ofList (toEntries members))

def toValues : List Tree → List Value
  | [] => []
  | tree :: rest => tree.toValue :: toValues rest

def toEntries : List (String × Tree) → List (String × Value)
  | [] => []
  | (key, tree) :: rest => (key, tree.toValue) :: toEntries rest
end

/-- Reads a JSON text as a value. -/
def readValueText (text : String) : Except Failure Value := (read text).map Tree.toValue

/-- A character inside a JSON string. -/
def escapedChar (c : Char) : List Char :=
  if c = '\x22' ∨ c = '\\' then ['\\', c]
  else if c = '\x08' then ['\\', 'b']
  else if c = '\x0c' then ['\\', 'f']
  else if c = '\n' then ['\\', 'n']
  else if c = '\r' then ['\\', 'r']
  else if c = '\t' then ['\\', 't']
  else if c.toNat < 32 then
    ['\\', 'u', '0', '0', Nat.digitChar (c.toNat / 16), Nat.digitChar (c.toNat % 16)]
  else [c]

/-- A text as a JSON string. -/
def stringText (s : String) : String :=
  String.ofList ('\x22' :: s.toList.flatMap escapedChar ++ ['\x22'])

/-- A double as a JSON number; infinities and NaN become null. -/
def numberText (x : Float) : String :=
  if x.isFinite then Double.Layout.json.finite x else "null"

mutual
/-- A value as JSON text without blanks. An error has no JSON text. -/
def text? : Value → Option String
  | .nil => some "null"
  | .bool b => some (if b then "true" else "false")
  | .int i => some (toString i.toInt)
  | .double x => some (numberText x)
  | .string s => some (stringText s)
  | .array items => (textItems? items).map fun parts => "[" ++ ",".intercalate parts ++ "]"
  | .dictionary entries =>
    (textEntries? entries).map fun parts => "\x7b" ++ ",".intercalate parts ++ "\x7d"
  | .error _ => none

def textItems? : List Value → Option (List String)
  | [] => some []
  | v :: rest => do
    let head ← text? v
    let tail ← textItems? rest
    return head :: tail

def textEntries? : List (String × Value) → Option (List String)
  | [] => some []
  | (key, v) :: rest => do
    let head ← text? v
    let tail ← textEntries? rest
    return (stringText key ++ ":" ++ head) :: tail
end

end Stencil.Json
