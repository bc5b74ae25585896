import Stencil.Config
import Stencil.Failure
import Stencil.Parse.Tags
import Stencil.Token.Lexer

/-!
# Parsing

From source text or from tokens to a template.
-/

namespace Stencil

namespace Draft

/-- Reads tokens one after another; `tag` is the name of the last tag. A colon that opens no body is
text. -/
def read (entities : Entities) (indicator : Char) (d : Draft) (tag : String)
    (tokens : List Lexeme) : Except ParseError Draft :=
  match tokens with
  | [] => .ok d
  | ⟨.raw text, _⟩ :: rest => read entities indicator (d.addRaw text) tag rest
  | ⟨.blockMark, _⟩ :: rest => read entities indicator (d.addRaw ":") tag rest
  | ⟨.tag name, location⟩ :: rest =>
    match TagSite.read { entities, indicator, tag := name, location } d rest with
    | .error fault => .error ⟨location, fault⟩
    | .ok (d, ⟨left, _⟩) => read entities indicator d name left
  | ⟨other, location⟩ :: _ => .error ⟨location, .malformed tag (.unexpected other)⟩
termination_by tokens.length

/-- The fault of a draft whose scopes are not all closed; it stands at the outermost. -/
def unclosed? (d : Draft) : Option ParseError :=
  d.opened.getLast?.map fun outermost =>
    ⟨outermost.location, .unclosed (d.opened.reverse.map (·.name))⟩

end Draft

namespace Template

/-- The template of a token sequence. -/
def ofTokens (entities : Entities) (config : Config) (name : String) (tokens : List Lexeme) :
    Except ParseError Template :=
  match Draft.read entities config.indicator {} "" tokens with
  | .error e => .error e
  | .ok d =>
    match d.unclosed? with
    | some e => .error e
    | none => .ok (d.finish name config.indicator)

/-- The template of a source. -/
def parse (entities : Entities) (config : Config) (name source : String) :
    Except Failure Template :=
  match Token.scan config.indicator source with
  | .error e => .error (.lex e)
  | .ok tokens => (ofTokens entities config name tokens).mapError .parse

end Template

end Stencil
