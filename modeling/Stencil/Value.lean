import Stencil.Double.Text
import Stencil.Entries
import Stencil.EvalError

/-!
# Values

The data that flows through a template. Integers are 64 bit words and all arithmetic on them is
checked through `Int`; dictionaries keep their keys in order; an error is a value as well.
-/

namespace Stencil

/-- A data value. -/
inductive Value
  | nil
  | bool (b : Bool)
  | int (i : Int64)
  | double (d : Float)
  | string (s : String)
  | array (items : List Value)
  | dictionary (entries : List (String × Value))
  | error (e : EvalError)

namespace Value

instance : Inhabited Value := ⟨nil⟩

/-- A text as a value. -/
def ofText (text : List Char) : Value := .string (String.ofList text)

/-- The 64 bit integer with a given value, if there is one. -/
def int64? (n : Int) : Option Int64 :=
  if Int64.minValue.toInt ≤ n ∧ n ≤ Int64.maxValue.toInt then some (Int64.ofInt n) else none

/-- A 64 bit integer keeps its value. -/
theorem toInt_of_int64? {n : Int} {i : Int64} (h : int64? n = some i) : i.toInt = n := by
  unfold int64? at h
  split at h
  · rename_i hn
    cases h
    rw [Int64.toInt_minValue, Int64.toInt_maxValue] at hn
    exact Int64.toInt_ofInt_of_le hn.1 (by omega)
  · cases h

/-- A natural as a value, modulo `2 ^ 64`. -/
def ofNat (n : Nat) : Value := .int (Int64.ofNat n)

/-- The type of a value; an error has none. -/
def type? : Value → Option ValueType
  | nil => some .void
  | bool _ => some .bool
  | int _ => some .int
  | double _ => some .double
  | string _ => some .string
  | array _ => some .array
  | dictionary _ => some .dictionary
  | error _ => none

/-- The error that a value carries. -/
def error? : Value → Option EvalError
  | error e => some e
  | _ => none

def isError (v : Value) : Bool := v.error?.isSome

def isNil : Value → Bool
  | nil => true
  | _ => false

/-- How a value counts as a condition: nil, false, zero, whatever is empty and errors are false. -/
def truthy : Value → Bool
  | nil => false
  | bool b => b
  | int i => i != 0
  | double d => d != 0.0
  | string s => !s.isEmpty
  | array items => !items.isEmpty
  | dictionary entries => !entries.isEmpty
  | error _ => false

/-- The value as a double, if it is a number. -/
def number? : Value → Option Float
  | int i => some i.toFloat
  | double d => some d
  | _ => none

/-- The value of a member of a dictionary. -/
def member? (key : String) : Value → Option Value
  | dictionary entries => Entries.find? key entries
  | _ => none

/-- The value at the end of a path of members. -/
def walk? (path : List String) (v : Value) : Option Value :=
  path.foldlM (fun current key => current.member? key) v

mutual
/-- Equality of values of one type; doubles compare as numbers, so that a NaN differs from itself.
-/
def same : Value → Value → Bool
  | nil, nil => true
  | bool a, bool b => a == b
  | int a, int b => a == b
  | double a, double b => a == b
  | string a, string b => a == b
  | array a, array b => sameItems a b
  | dictionary a, dictionary b => sameEntries a b
  | error a, error b => decide (a = b)
  | _, _ => false

def sameItems : List Value → List Value → Bool
  | [], [] => true
  | a :: as, b :: bs => same a b && sameItems as bs
  | _, _ => false

def sameEntries : List (String × Value) → List (String × Value) → Bool
  | [], [] => true
  | (j, a) :: as, (k, b) :: bs => j == k && same a b && sameEntries as bs
  | _, _ => false
end

mutual
/-- No double inside a value is infinite or a NaN. -/
def finite : Value → Bool
  | double d => d.isFinite
  | array items => finiteItems items
  | dictionary entries => finiteEntries entries
  | _ => true

def finiteItems : List Value → Bool
  | [] => true
  | v :: rest => finite v && finiteItems rest

def finiteEntries : List (String × Value) → Bool
  | [] => true
  | (_, v) :: rest => finite v && finiteEntries rest
end

mutual
/-- A value as template source, in the literal grammar of the lexer. -/
def literal : Value → String
  | nil => "nil"
  | error _ => "nil"
  | bool b => if b then "true" else "false"
  | int i => toString i.toInt
  | double d => Double.sourceText d
  | string s => "\"" ++ s ++ "\""
  | array items => "[" ++ ", ".intercalate (literalItems items) ++ "]"
  | dictionary [] => "[:]"
  | dictionary entries => "[" ++ ", ".intercalate (literalEntries entries) ++ "]"

def literalItems : List Value → List String
  | [] => []
  | v :: rest => literal v :: literalItems rest

def literalEntries : List (String × Value) → List String
  | [] => []
  | (key, v) :: rest => ("\"" ++ key ++ "\": " ++ literal v) :: literalEntries rest
end

mutual
/-- A value spelled out with the names of its types. -/
def inspect : Value → String
  | nil => "Nil"
  | bool b => "Bool(" ++ (if b then "true" else "false") ++ ")"
  | int i => "Int(" ++ toString i.toInt ++ ")"
  | double d => "Double(" ++ Double.text d ++ ")"
  | string s => "String(" ++ Text.quoted s ++ ")"
  | array items => "Array([" ++ ", ".intercalate (inspectItems items) ++ "])"
  | dictionary entries =>
    "Dictionary(\x7b" ++ ", ".intercalate (inspectEntries entries) ++ "\x7d)"
  | error e => "Error(" ++ e.inspect ++ ")"

def inspectItems : List Value → List String
  | [] => []
  | v :: rest => inspect v :: inspectItems rest

def inspectEntries : List (String × Value) → List String
  | [] => []
  | (key, v) :: rest => (Text.quoted key ++ ": " ++ inspect v) :: inspectEntries rest
end

end Value

end Stencil
