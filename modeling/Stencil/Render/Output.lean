import Stencil.Encoder

/-!
# Output

Rendered output remembers of each piece whether it is text of the template or the text of a value. A
tag that stands alone on its line leaves nothing of the line behind: the blanks before it are
dropped, and so is a blank rest of the line after it. Both concern raw text only. For that, the
current line is kept apart as long as there is nothing but blanks of the template on it.
-/

namespace Stencil

/-- A piece of output. -/
inductive Piece
  | raw (text : String)
  | value (text : String) (encoder : Encoder)

/-- A piece as it is written. -/
def Piece.text : Piece → String
  | raw text => text
  | value text encoder => encoder text

/-- What has been written. -/
structure Output where
  /-- The pieces, the last first. -/
  done : List Piece := []
  /-- The blanks of the current line, the last first, as long as there is nothing else on it. -/
  blanks : List Char := []
  /-- Something else than blanks of the template stands on the current line: other text of it, or a
  value, even one without text. -/
  kept : Bool := false
  /-- The rest of the line is dropped if it turns out to be blank. -/
  dropBlankLine : Bool := false

namespace Output

/-- Blanks within a line; a carriage return belongs to the line end. -/
def isLineBlank (c : Char) : Bool := c == ' ' || c == '\t' || c == '\r'

/-- A text without its first line, if that line is blank and ends. -/
def withoutBlankLine (text : List Char) : List Char :=
  match text.dropWhile isLineBlank with
  | '\n' :: rest => rest
  | _ => text

/-- Adds a piece, unless it is empty raw text. -/
def addRaw (o : Output) (text : List Char) : Output :=
  if text.isEmpty then o else { o with done := .raw (String.ofList text) :: o.done }

/-- Writes out the blanks of the current line. -/
def keepLine (o : Output) : Output :=
  { (o.addRaw o.blanks.reverse) with blanks := [], kept := true }

/-- Writes raw text without a line feed. -/
def writeInLine (o : Output) (text : List Char) : Output :=
  if !o.kept && text.all isLineBlank then { o with blanks := text.reverse ++ o.blanks }
  else o.keepLine.addRaw text

/-- Writes raw text. -/
def writeRaw (o : Output) (text : String) : Output :=
  let cs := if o.dropBlankLine then withoutBlankLine text.toList else text.toList
  let o := { o with dropBlankLine := false }
  let backwards := cs.reverse
  let last := backwards.takeWhile (· != '\n')
  match backwards.dropWhile (· != '\n') with
  | [] => o.writeInLine cs
  | finished => { (o.keepLine.addRaw finished.reverse) with kept := false }.writeInLine last.reverse

/-- Notes that a value stands on the current line, even one without text. -/
def markValue (o : Output) : Output := { o.keepLine with dropBlankLine := false }

/-- Writes the text of a value. -/
def writeValue (o : Output) (text : String) (encoder : Encoder) : Output :=
  let o := o.markValue
  { o with done := .value text encoder :: o.done }

/-- Drops the current line as far as it is written, if it is blank, and the rest of it as well. -/
def trimLine (o : Output) : Output :=
  if o.kept then o else { o with blanks := [], dropBlankLine := true }

/-- The pieces in order. -/
def pieces (o : Output) : List Piece := (o.addRaw o.blanks.reverse).done.reverse

/-- All that has been written. -/
def text (o : Output) : String := String.join (o.pieces.map Piece.text)

end Output

end Stencil
