import Stencil.Text.CharClass
import Stencil.Token.Basic
import Stencil.Token.Literal

/-!
# The lexer

A source is raw text with tags in it. A tag is the indicator followed by a name or a parenthesis; an
indicator followed by anything else is text. A backslash before an indicator or a backslash makes
that character text. After the name of a tag there can be an argument list between parentheses, and
after either of them a colon.

The lexer keeps a cursor, which is the text that is left and the position where it starts.
-/

namespace Stencil

/-- Text that is left to read, and where it starts. -/
structure Cursor where
  rest : List Char
  location : Text.Location

namespace Cursor

/-- The start of a source. -/
def start (source : String) : Cursor := ⟨source.toList, {}⟩

/-- The cursor after so many characters. -/
def advance (c : Cursor) (count : Nat) : Cursor :=
  ⟨c.rest.drop count, c.location.after (c.rest.take count)⟩

@[simp] theorem advance_rest (c : Cursor) (count : Nat) :
    (c.advance count).rest = c.rest.drop count := rfl

/-- The characters at the front that satisfy a test, and the cursor behind them. -/
def span (p : Char → Bool) (c : Cursor) : List Char × Cursor :=
  (c.rest.takeWhile p, ⟨c.rest.dropWhile p, c.location.after (c.rest.takeWhile p)⟩)

theorem span_rest_length_le (p : Char → Bool) (c : Cursor) :
    (c.span p).2.rest.length ≤ c.rest.length := by
  have h := congrArg List.length (List.takeWhile_append_dropWhile (p := p) (l := c.rest))
  simp only [List.length_append] at h
  simp only [span]
  omega

end Cursor

namespace Token

/-- Whether an indicator followed by this character starts a tag. -/
def opensTag (c : Char) : Bool := Text.isNameStart c || c == '('

/-- Raw text up to the next tag or the end, with its escapes resolved. -/
def scanRaw (indicator : Char) : List Char → Text.Location → List Char × Cursor
  | [], place => ([], ⟨[], place⟩)
  | [c], place => ([c], ⟨[], place.next c⟩)
  | c :: d :: rest, place =>
    if c = '\\' ∧ (d = indicator ∨ d = '\\') then
      let (text, cursor) := scanRaw indicator rest ((place.next c).next d)
      (d :: text, cursor)
    else if c = indicator ∧ opensTag d then ([], ⟨c :: d :: rest, place⟩)
    else
      let (text, cursor) := scanRaw indicator (d :: rest) (place.next c)
      (c :: text, cursor)

theorem scanRaw_rest_length_le (indicator : Char) (s : List Char) (place : Text.Location) :
    (scanRaw indicator s place).2.rest.length ≤ s.length := by
  fun_induction scanRaw indicator s place with
  | case1 => simp
  | case2 => simp
  | case3 place c d rest h text cursor eq ih =>
    simp only [eq] at ih
    simp only [List.length_cons]
    omega
  | case4 => simp
  | case5 place c d rest h₁ h₂ text cursor eq ih =>
    simp only [eq] at ih
    simp only [List.length_cons] at ih ⊢
    omega

/-- The token at the front of an argument list, parentheses and commas apart, and the number of
characters it takes beyond its first. -/
def scanOperand (c : Char) (rest : List Char) : Except LexFault (Token × Nat) :=
  if c = '\x22' then
    let content := rest.takeWhile fun d => d != '\x22' && d != '\n'
    if (rest.drop content.length).head? = some '\x22' then
      .ok (.literal (.ofText content), content.length + 1)
    else .error .unterminatedString
  else if c = '$' then
    if (rest.head?).any Text.isNameStart then
      let name := rest.takeWhile Text.isNameChar
      .ok (.scope (String.ofList name), name.length)
    else .error (.unexpected "$")
  else if c.isDigit then
    let parts := Literal.Parts.ofText (c :: rest)
    match parts.value? with
    | some data => .ok (.literal data, parts.length - 1)
    | none => .error (.unexpected (String.ofList ((c :: rest).take parts.length)))
  else if Text.isNameStart c then
    let more := rest.takeWhile Text.isNameChar
    let name := String.ofList (c :: more)
    .ok ((match Keyword.ofWord? name with
      | some word => .keyword word
      | none => .ident name), more.length)
  else
    match Operator.leading? (c :: rest) with
    | some op => .ok (.operator op, op.symbol.length - 1)
    | none => .error (.unexpected (String.ofList [c]))

/-- A raw token, unless the text is empty. -/
def rawLexeme (text : List Char) (place : Text.Location) : List Lexeme :=
  if text.isEmpty then [] else [⟨.raw (String.ofList text), place⟩]

mutual
/-- The tokens of a text outside of argument lists. -/
def scanText (indicator : Char) (cursor : Cursor) : Except LexError (List Lexeme) :=
  have kept := scanRaw_rest_length_le indicator cursor.rest cursor.location
  match scanRaw indicator cursor.rest cursor.location, kept with
  | (text, ⟨[], _⟩), _ => .ok (rawLexeme text cursor.location)
  | (text, ⟨c :: rest, place⟩), kept =>
    have : rest.length < cursor.rest.length := kept
    let named := Cursor.span Text.isNameChar ⟨rest, place.next c⟩
    have behind : named.2.rest.length ≤ rest.length := Cursor.span_rest_length_le _ _
    let front := rawLexeme text cursor.location ++ [⟨.tag (String.ofList named.1), place⟩]
    match named.2, behind with
    | ⟨[], _⟩, _ => .ok front
    | ⟨d :: r, here⟩, behind => do
      have : r.length < rest.length := behind
      if d = '(' then
        let more ← scanArguments indicator 0 ⟨r, here.next '('⟩
        return front ++ ⟨.openParen, here⟩ :: more
      else if d = ':' then
        let more ← scanText indicator ⟨r, here.next ':'⟩
        return front ++ ⟨.blockMark, here⟩ :: more
      else
        let more ← scanText indicator ⟨d :: r, here⟩
        return front ++ more
termination_by cursor.rest.length

/-- The tokens from inside an argument list on; `depth` parentheses are open besides the first. -/
def scanArguments (indicator : Char) (depth : Nat) (cursor : Cursor) :
    Except LexError (List Lexeme) :=
  have skipped := Cursor.span_rest_length_le Text.isBlank cursor
  match (cursor.span Text.isBlank).2, skipped with
  | ⟨[], _⟩, _ => .ok []
  | ⟨c :: rest, here⟩, skipped =>
    have inside : rest.length < cursor.rest.length := by
      simp only [List.length_cons] at skipped; omega
    let after := here.next c
    if c = '(' then do
      let more ← scanArguments indicator (depth + 1) ⟨rest, after⟩
      return ⟨.openParen, here⟩ :: more
    else if c = ')' then
      match depth, rest, inside with
      | depth + 1, rest, inside => do
        have : rest.length < cursor.rest.length := inside
        let more ← scanArguments indicator depth ⟨rest, after⟩
        return ⟨.closeParen, here⟩ :: more
      | 0, [], _ => .ok [⟨.closeParen, here⟩]
      | 0, d :: r, inside => do
        have : (d :: r).length < cursor.rest.length := inside
        if d = ':' then
          have : r.length < cursor.rest.length := Nat.lt_trans (Nat.lt_succ_self _) this
          let more ← scanText indicator ⟨r, after.next ':'⟩
          return ⟨.closeParen, here⟩ :: ⟨.blockMark, after⟩ :: more
        else
          let more ← scanText indicator ⟨d :: r, after⟩
          return ⟨.closeParen, here⟩ :: more
    else if c = ',' then do
      let more ← scanArguments indicator depth ⟨rest, after⟩
      return ⟨.comma, here⟩ :: more
    else
      match scanOperand c rest with
      | .error fault => .error ⟨here, fault⟩
      | .ok (token, extra) => do
        have : (rest.drop extra).length ≤ rest.length := by simp
        let more ← scanArguments indicator depth (Cursor.advance ⟨rest, after⟩ extra)
        return ⟨token, here⟩ :: more
termination_by cursor.rest.length
end

/-- The tokens of a source. -/
def scan (indicator : Char) (source : String) : Except LexError (List Lexeme) :=
  scanText indicator (Cursor.start source)

end Token

end Stencil
