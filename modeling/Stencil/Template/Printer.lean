import Stencil.Template.Basic
import Stencil.Text.CharClass

/-!
# Templates as source

A template as source that parses to the same template, with spliced templates and texts written out
in place. Behind an end tag stands nothing that the lexer would read as part of the tag: where raw
text starts with such a character, the character becomes an expression.
-/

namespace Stencil

/-- Printed source, and whether it ends with an end tag that could still grow. -/
structure Printed where
  text : String
  bare : Bool

namespace Printed

/-- What follows is printed behind it. -/
def andThen (p : Printed) (next : Bool → Printed) : Printed :=
  let q := next p.bare
  ⟨p.text ++ q.text, q.bare⟩

end Printed

/-- A character of raw text, escaped where it could start a tag or an escape. -/
def escapedChar (indicator c : Char) : List Char :=
  if c = '\\' ∨ c = indicator then ['\\', c] else [c]

/-- Whether a character right behind an end tag would be read as part of it. -/
def extendsTag (c : Char) : Bool := Text.isLetterOrNumber c || c == '_' || c == '(' || c == ':'

/-- Raw text as source. -/
def printRaw (indicator : Char) (text : String) (bare : Bool) : Printed :=
  let escaped (cs : List Char) : String := String.ofList (cs.flatMap (escapedChar indicator))
  match text.toList with
  | [] => ⟨"", bare⟩
  | c :: rest =>
    if bare && extendsTag c then
      ⟨String.ofList [indicator, '(', '\x22', c, '\x22', ')'] ++ escaped rest, false⟩
    else ⟨escaped (c :: rest), false⟩

/-- Whether the nodes go on with the chain of the block before them. -/
def continuesChain : List Node → Bool
  | .block _ true _ _ :: _ => true
  | _ => false

namespace Node

/-- The tag of a node as source; where a body follows, it is left open. -/
def tagText (indicator : Char) (node : Node) : String :=
  let tag := String.ofList [indicator]
  match node with
  | raw _ | scope _ => ""
  | output e => tag ++ "(" ++ e.text ++ ")"
  | declare name constant value =>
    let word := if constant then "let " else "var "
    let given := (value.map fun e => " = " ++ e.text).getD ""
    tag ++ "(" ++ word ++ name ++ given ++ ")"
  | assign v op value => tag ++ "(" ++ v.text ++ " " ++ op.symbol ++ " " ++ value.text ++ ")"
  | block name _ behaviour args => tag ++ name ++ behaviour.parameters args ++ ":"
  | define name (some e) => tag ++ "define(" ++ name ++ " = " ++ e.text ++ ")"
  | define name none => tag ++ "define(" ++ name ++ "):"
  | evaluate name default =>
    let given := (default.map fun e => " ?? " ++ e.text).getD ""
    tag ++ "evaluate(" ++ name ++ given ++ ")"
  | inline file asRaw =>
    tag ++ "inline(\"" ++ file ++ "\"" ++ (if asRaw then ", as: raw" else "") ++ ")"
  | encode handler _ => tag ++ "raw(" ++ handler ++ "):"

theorem tagText_output (indicator : Char) (e : Expr) :
    (output e).tagText indicator = String.ofList [indicator] ++ "(" ++ e.text ++ ")" := by
  simp only [tagText]

/-- The first block of the chain that is open behind a node. -/
def chainHead (chain : Option String) : Node → Option String
  | block name chained _ _ => if chained then chain else some name
  | _ => chain

/-- The name in the end tag behind the body of a node; a chain has one end tag, behind its last
body. -/
def endName? (chain : Option String) (next : List Node) : Node → Option String
  | block name _ _ _ => if continuesChain next then none else some (chain.getD name)
  | define _ none => some "define"
  | encode _ _ => some "raw"
  | _ => none

/-- A printed body with its end tag. -/
def close (indicator : Char) (p : Printed) : Option String → Printed
  | some name => ⟨p.text ++ String.ofList [indicator] ++ "end" ++ name, true⟩
  | none => p

end Node

/-- Prints nodes, given how to print a table; `chain` is the first block of the chain that is open.
-/
def printNodes (indicator : Char) (table : Nat → Bool → Printed) :
    List Node → (chain : Option String) → Bool → Printed
  | [], _, bare => ⟨"", bare⟩
  | .raw text :: rest, chain, bare =>
    (printRaw indicator text bare).andThen (printNodes indicator table rest chain)
  | .scope target :: rest, chain, bare =>
    (printTarget target bare).andThen (printNodes indicator table rest chain)
  | .inline _ _ :: .scope (some target) :: rest, chain, bare =>
    (table target bare).andThen (printNodes indicator table rest chain)
  | node :: .scope target :: rest, chain, _ =>
    let chain := node.chainHead chain
    let inner := (Printed.mk (node.tagText indicator) false).andThen (printTarget target)
    (Node.close indicator inner (node.endName? chain rest)).andThen
      (printNodes indicator table rest chain)
  | node :: rest, chain, _ =>
    let chain := node.chainHead chain
    (Node.close indicator ⟨node.tagText indicator, false⟩ (node.endName? chain rest)).andThen
      (printNodes indicator table rest chain)
where
  /-- What a node refers to. -/
  printTarget : Option Nat → Bool → Printed
    | some target, bare => table target bare
    | none, bare => ⟨"", bare⟩

namespace Template

/-- Prints a table. Tables refer forward only, so that as many levels as there are tables suffice.
-/
def printTable (t : Template) : (levels : Nat) → (index : Nat) → Bool → Printed
  | 0, _, bare => ⟨"", bare⟩
  | levels + 1, index, bare =>
    printNodes t.indicator (printTable t levels) (t.table index) none bare

/-- A template as source. -/
def text (t : Template) : String := (t.printTable t.tables.length 0 false).text

end Template

end Stencil
