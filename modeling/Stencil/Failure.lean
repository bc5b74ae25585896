import Stencil.Parse.Fault

/-!
# Failures

Everything that can end the work on a template: a fault of the lexer, a fault of the parser, or an
error of evaluation. The first two have a position in the source, and a marker can be drawn below
it.
-/

namespace Stencil

/-- Why a template could not be read or rendered. -/
inductive Failure
  | lex (error : LexError)
  | parse (error : ParseError)
  | eval (error : EvalError)

namespace Failure

/-- The message without the stage that failed. -/
def detail : Failure → String
  | lex error => error.message
  | parse error => error.message
  | eval error => error.message

/-- The stage that failed. -/
def stage : Failure → String
  | lex _ => "词法错误"
  | parse _ => "解析错误"
  | eval _ => "求值错误"

/-- The message with the stage in front. -/
def message (f : Failure) : String := f.stage ++ ": " ++ f.detail

/-- Where the failure is in the source. -/
def location? : Failure → Option Text.Location
  | lex error => some error.location
  | parse error => some error.location
  | eval _ => none

/-- The width of the marker: that of the name which a fault of the parser is about. -/
def markerWidth : Failure → Nat
  | parse error => max error.fault.subject.length 1
  | _ => 1

/-- The message, and the source line with the marker if there is a position. -/
def diagnostic (source : String) (f : Failure) : String :=
  match f.location? with
  | none => f.message
  | some location => f.message ++ "\n" ++ Text.sourceWindow source location f.markerWidth

end Failure

end Stencil
