import Stencil.Operator.Basic
import Stencil.Symbol
import Stencil.Text.Location
import Stencil.Value

/-!
# Tokens

The tokens of a template source. Raw text and tags stand on the outside; inside the parentheses of a
tag there are literals, words, operators and names.
-/

namespace Stencil

/-- A piece of a source. -/
inductive Token
  | raw (text : String)
  /-- A tag by name; the anonymous tag has the empty name. -/
  | tag (name : String)
  /-- The colon that opens the body of a block. -/
  | blockMark
  | openParen
  | closeParen
  | comma
  | literal (data : Value)
  | keyword (word : Keyword)
  | operator (op : Operator)
  | ident (name : String)
  /-- A scope written with its dollar sign. -/
  | scope (name : String)

/-- A token as it is named in messages. -/
def Token.text : Token → String
  | raw text => Text.quoted text
  | tag name => "#" ++ name
  | blockMark => ":"
  | openParen => "("
  | closeParen => ")"
  | comma => ","
  | literal (.string s) => "\"" ++ s ++ "\""
  | literal data => data.inspect
  | keyword word => word.word
  | operator op => op.symbol
  | ident name => name
  | scope name => "$" ++ name

/-- A token and where it starts. -/
structure Lexeme where
  token : Token
  location : Text.Location

/-- What the lexer refuses. -/
inductive LexFault
  | unterminatedString
  | unexpected (found : String)

/-- A fault of the lexer and where it is. -/
structure LexError where
  location : Text.Location
  fault : LexFault

def LexError.message (e : LexError) : String :=
  match e.fault with
  | .unterminatedString => e.location.describe ++ "：字符串字面量未闭合"
  | .unexpected found => e.location.describe ++ s!"：意外的内容 '{found}'"

end Stencil
