/-!
# Encoders

What happens to the text of a value before it enters the output. Text of the template itself is
never encoded.
-/

namespace Stencil

/-- An encoder for the texts of values. -/
abbrev Encoder := String → String

namespace Encoder

/-- Leaves texts as they are. -/
def identity : Encoder := fun text => text

/-- What a character is in HTML text. -/
def htmlChar (c : Char) : List Char :=
  if c = '&' then "&amp;".toList
  else if c = '<' then "&lt;".toList
  else if c = '>' then "&gt;".toList
  else if c = '\x22' then "&quot;".toList
  else if c = '\x27' then "&#39;".toList
  else [c]

/-- Replaces the five characters that mean something in HTML. -/
def html : Encoder := fun text => String.ofList (text.toList.flatMap htmlChar)

/-- Puts a text between braces, after a name. -/
def labelled (name : String) : Encoder := fun text => name ++ "\x7b" ++ text ++ "\x7d"

end Encoder

end Stencil
