import Stencil.Expr.Basic

/-!
# Expressions as source

An expression as template source, with parentheses around every operation.
-/

namespace Stencil

/-- The labels of a collection stand between quotes, those of a call do not. -/
def labelText (quotes : Bool) : Option String → String
  | none => ""
  | some label => if quotes then "\"" ++ label ++ "\": " else label ++ ": "

namespace Expr

/-- Whether a method call can follow an expression without parentheses. -/
def isPlainReceiver : Expr → Bool
  | var _ | call .. | overload .. => true
  | _ => false

/-- The receiver of a method call. -/
def receiverText (plain : Bool) (receiver : String) : String :=
  if plain then receiver else "(" ++ receiver ++ ")"

mutual
/-- An expression as source. -/
def text : Expr → String
  | value data => data.literal
  | keyword word => word.word
  | operator op => op.symbol
  | var v => v.text
  | unary op e => "(" ++ op.symbol ++ e.text ++ ")"
  | binary .subscript l r => "(" ++ l.text ++ "[" ++ r.text ++ "])"
  | binary op l r => "(" ++ l.text ++ " " ++ op.symbol ++ " " ++ r.text ++ ")"
  | conditional c t f => "(" ++ c.text ++ " ? " ++ t.text ++ " : " ++ f.text ++ ")"
  | sequence items => " ".intercalate (textAll items)
  | collection items => "[" ++ ", ".intercalate (textItems true items) ++ "]"
  | call name true _ _ ((_, receiver) :: rest) =>
    receiverText receiver.isPlainReceiver receiver.text ++ "." ++ name ++
      "(" ++ ", ".intercalate (textItems false rest) ++ ")"
  | call name _ _ _ args => name ++ "(" ++ ", ".intercalate (textItems false args) ++ ")"
  | overload name true _ ((_, receiver) :: rest) =>
    receiverText receiver.isPlainReceiver receiver.text ++ "." ++ name ++
      "(" ++ ", ".intercalate (textItems false rest) ++ ")"
  | overload name _ _ args => name ++ "(" ++ ", ".intercalate (textItems false args) ++ ")"

def textAll : List Expr → List String
  | [] => []
  | e :: rest => e.text :: textAll rest

def textItems (quotes : Bool) : List (Option String × Expr) → List String
  | [] => []
  | (label, e) :: rest => (labelText quotes label ++ e.text) :: textItems quotes rest
end

end Expr

/-- A tuple as source, between parentheses. -/
def Tuple.text (t : Tuple) : String := "(" ++ ", ".intercalate (Expr.textItems false t) ++ ")"

end Stencil
