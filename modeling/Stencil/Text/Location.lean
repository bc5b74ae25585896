/-!
# Positions in a source text

A position counts lines and columns from one and bytes from zero. `Location.after` moves a position
across text, and `sourceWindow` shows a line of the source with a marker under a position.
-/

namespace Stencil.Text

/-- A position in a source text: line and column count characters from one, the offset counts UTF-8
bytes from zero. -/
structure Location where
  line : Nat := 1
  column : Nat := 1
  offset : Nat := 0
  deriving DecidableEq

namespace Location

/-- The position after one more character. -/
def next (l : Location) (c : Char) : Location :=
  if c = '\n' then ⟨l.line + 1, 1, l.offset + c.utf8Size⟩
  else ⟨l.line, l.column + 1, l.offset + c.utf8Size⟩

/-- The position after more text. -/
def after (l : Location) (text : List Char) : Location := text.foldl next l

@[simp] theorem after_nil (l : Location) : l.after [] = l := rfl

@[simp] theorem after_cons (l : Location) (c : Char) (text : List Char) :
    l.after (c :: text) = (l.next c).after text := rfl

@[simp] theorem after_append (l : Location) (a b : List Char) :
    l.after (a ++ b) = (l.after a).after b := by
  simp [after, List.foldl_append]

/-- The wording of a position in messages. -/
def describe (l : Location) : String := s!"第 {l.line} 行第 {l.column} 列"

end Location

/-- A finished line, given backwards: a carriage return before the line feed belongs to the line
end. -/
def finishedLine : List Char → List Char
  | '\r' :: line => line.reverse
  | line => line.reverse

/-- The lines of a text, the text of the current line being given backwards. A line ends with a line
feed or with a carriage return and a line feed; an empty last line does not count. -/
def linesFrom (current : List Char) : List Char → List (List Char)
  | [] => if current.isEmpty then [] else [current.reverse]
  | c :: rest =>
    if c = '\n' then finishedLine current :: linesFrom [] rest
    else linesFrom (c :: current) rest

/-- The lines of a text, without their ends. -/
def lines (text : List Char) : List (List Char) := linesFrom [] text

/-- What stands before the marker: tabs stay tabs, so that marker and source line up. -/
def markerPadding (line : List Char) (column : Nat) : List Char :=
  (line.take (column - 1)).map fun c => if c = '\t' then '\t' else ' '

/-- The source line of a position with a marker of `width` characters below it; empty when the
source has no such line. -/
def sourceWindow (source : String) (place : Location) (width : Nat) : String :=
  match (lines source.toList)[place.line - 1]? with
  | none => ""
  | some line =>
    String.ofList (line ++ '\n' :: markerPadding line place.column ++
      '^' :: List.replicate (max width 1 - 1) '~')

end Stencil.Text
