import Stencil.Proofs.LexerStates
import Stencil.Proofs.Slices

/-!
# A lexer that cuts its source

This lexer keeps the whole source and a position in it. Each time it looks at the source it cuts it
at the byte offset of its position, and the pieces it reads it cuts out between two positions. A cut
that is not between two characters has no result. `Sliced.lex?_eq` says that every cut has a result,
and that the lexer reads the same tokens as the one that keeps what is left of the source.
-/

namespace Stencil

namespace Sliced

open Text (Location)

variable (source : List Char)

/-- What is left of the source at a position. -/
def rest? (here : Location) : Option (List Char) := Text.sliceFrom? source here.offset

/-- The next character, if there is one. -/
def peek? (here : Location) : Option (Option Char) := (rest? source here).map List.head?

/-- The character after the next, if there is one. -/
def peekSecond? (here : Location) : Option (Option Char) :=
  (rest? source here).map fun text => text.tail.head?

/-- The position behind the next character; the end of the source stays the end. -/
def advance? (here : Location) : Option Location :=
  (peek? source here).map fun next => (next.map here.next).getD here

/-- The position behind so many characters. -/
def advanceTimes? : (count : Nat) → Location → Option Location
  | 0, here => some here
  | count + 1, here => do
    let here ← advance? source here
    advanceTimes? count here

/-- The position behind all characters that satisfy a test. -/
def skipWhile? (p : Char → Bool) : (fuel : Nat) → Location → Option Location
  | 0, _ => none
  | fuel + 1, here => do
    let next ← peek? source here
    if next.any p then
      let here ← advance? source here
      skipWhile? p fuel here
    else some here

/-- The characters that satisfy a test, cut out of the source, and the position behind them. -/
def advanceWhile? (p : Char → Bool) (here : Location) : Option (List Char × Location) := do
  let stop ← skipWhile? source p (source.length + 1) here
  let piece ← Text.slice? source here.offset stop.offset
  return (piece, stop)

/-- Raw text up to the next tag or the end, with its escapes resolved. -/
def raw? (indicator : Char) : (fuel : Nat) → Location → Option (List Char × Location)
  | 0, _ => none
  | fuel + 1, here => do
    match ← peek? source here with
    | none => return ([], here)
    | some c =>
      let second ← peekSecond? source here
      if c = '\\' ∧ second.any (fun d => d = indicator ∨ d = '\\') then
        let escaped ← advance? source here
        let d ← peek? source escaped
        let behind ← advance? source escaped
        let (text, stop) ← raw? indicator fuel behind
        return (d.toList ++ text, stop)
      else if c = indicator ∧ second.any Token.opensTag then return ([], here)
      else
        let behind ← advance? source here
        let (text, stop) ← raw? indicator fuel behind
        return (c :: text, stop)

/-- The base of a literal, the length of its sign, and the position behind the sign. -/
def base? (here : Location) : Option (Nat × Nat × Location) := do
  let first ← peek? source here
  let second ← peekSecond? source here
  let (radix, sign) := Literal.radixOf (first.toList ++ second.toList)
  let body ← advanceTimes? source sign here
  return (radix, sign, body)

/-- The fraction of a literal, if it has one, and the position behind it. -/
def fraction? (radix : Nat) (here : Location) : Option (Option (List Char) × Location) := do
  let point ← peek? source here
  let digit ← peekSecond? source here
  if (radix = 10 ∨ radix = 16) ∧ point = some '.' ∧ digit.any (Literal.isDigit radix) then
    let inside ← advance? source here
    let (digits, stop) ← advanceWhile? source (Literal.isDigitOrGap radix) inside
    return (some digits, stop)
  else return (none, here)

/-- A number; an invalid one is cut out of the source as a whole. -/
def number? (here : Location) : Option (Except LexFault (Token × Location)) := do
  let (radix, sign, body) ← base? source here
  let (whole, point) ← advanceWhile? source (Literal.isDigitOrGap radix) body
  let (fraction, behind) ← fraction? source radix point
  let (trailing, stop) ← advanceWhile? source Text.isNameChar behind
  let text ← Text.slice? source here.offset stop.offset
  match (Literal.Parts.mk radix sign whole fraction trailing).value? with
  | some data => return .ok (.literal data, stop)
  | none => return .error (.unexpected (String.ofList text))

/-- A text up to the quote that closes it. -/
def quoted? (here : Location) : Option (Except LexFault (Token × Location)) := do
  let inside ← advance? source here
  let (content, stop) ← advanceWhile? source (fun d => d != '\x22' && d != '\n') inside
  let closing ← peek? source stop
  if closing = some '\x22' then
    let behind ← advance? source stop
    return .ok (.literal (.ofText content), behind)
  else return .error .unterminatedString

/-- The name of a scope. -/
def scope? (here : Location) : Option (Except LexFault (Token × Location)) := do
  let inside ← advance? source here
  let first ← peek? source inside
  if first.any Text.isNameStart then
    let (name, stop) ← advanceWhile? source Text.isNameChar inside
    return .ok (.scope (String.ofList name), stop)
  else return .error (.unexpected "$")

/-- A reserved word or another name. -/
def word? (here : Location) : Option (Except LexFault (Token × Location)) := do
  let (name, stop) ← advanceWhile? source Text.isNameChar here
  return .ok ((match Keyword.ofWord? (String.ofList name) with
    | some word => .keyword word
    | none => .ident (String.ofList name)), stop)

/-- An operator; every byte of its symbol is a character. -/
def operator? (c : Char) (here : Location) : Option (Except LexFault (Token × Location)) := do
  let text ← rest? source here
  match Operator.leading? text with
  | some op =>
    let stop ← advanceTimes? source op.symbol.utf8ByteSize here
    return .ok (.operator op, stop)
  | none => return .error (.unexpected (String.ofList [c]))

/-- A token inside an argument list that starts with `c`, parentheses and commas apart, and the
position behind it. -/
def operand? (c : Char) (here : Location) : Option (Except LexFault (Token × Location)) :=
  if c = '\x22' then quoted? source here
  else if c = '$' then scope? source here
  else if c.isDigit then number? source here
  else if Text.isNameStart c then word? source here
  else operator? source c here

section States

/- What the lexer goes on with in a state, from a position on. -/
variable (more : Token.LexState → Location → Option (Except LexError (List Lexeme)))

/-- A token, and what the lexer goes on with behind it. -/
def emit? (token : Token) (here : Location) (state : Token.LexState) (behind : Location) :
    Option (Except LexError (List Lexeme)) :=
  (more state behind).map fun tokens => tokens.map (⟨token, here⟩ :: ·)

/-- Outside of tags: raw text, and the name of the tag behind it. -/
def readText? (indicator : Char) (here : Location) : Option (Except LexError (List Lexeme)) := do
  let (text, place) ← raw? source indicator (source.length + 1) here
  if Text.byteLength source ≤ place.offset then return .ok (Token.rawLexeme text here)
  else
    let inside ← advance? source place
    let (name, behind) ← advanceWhile? source Text.isNameChar inside
    let tokens ← more .behindTag behind
    return tokens.map ((Token.rawLexeme text here ++ [⟨.tag (String.ofList name), place⟩]) ++ ·)

/-- In an argument list, at a character that is not blank. -/
def readInside? (depth : Nat) (c : Char) (here : Location) :
    Option (Except LexError (List Lexeme)) := do
  let behind ← advance? source here
  if c = '(' then emit? more .openParen here (.arguments (depth + 1)) behind
  else if c = ')' then emit? more .closeParen here (Token.closeParen.stateBehind depth) behind
  else if c = ',' then emit? more .comma here (.arguments depth) behind
  else
    match ← operand? source c here with
    | .error fault => return .error ⟨here, fault⟩
    | .ok (token, behind) => emit? more token here (.arguments depth) behind

/-- In an argument list. -/
def readArguments? (depth : Nat) (here : Location) :
    Option (Except LexError (List Lexeme)) := do
  let (_, here) ← advanceWhile? source Text.isBlank here
  match ← peek? source here with
  | none => return .ok []
  | some c => readInside? source more depth c here

end States

section Cuts

variable {source} {here : Location} {text piece more : List Char} {c : Char} {p : Char → Bool}

theorem rest?_eq_some : rest? source here = some text ↔
    ∃ front, source = front ++ text ∧ Text.byteLength front = here.offset :=
  Text.sliceFrom?_eq_some

/-- A piece further on is left what stands behind the piece. -/
theorem rest?_after (cut : rest? source here = some (piece ++ more)) :
    rest? source (here.after piece) = some more := by
  obtain ⟨front, rfl, offset⟩ := rest?_eq_some.mp cut
  refine rest?_eq_some.mpr ⟨front ++ piece, by rw [List.append_assoc], ?_⟩
  rw [Text.byteLength_append, offset, Location.offset_after]

theorem rest?_next (cut : rest? source here = some (c :: more)) :
    rest? source (here.next c) = some more := by
  have first : rest? source here = some ([c] ++ more) := cut
  exact rest?_after first

/-- Behind a number of characters the others are left. -/
theorem rest?_take (cut : rest? source here = some text) (count : Nat) :
    rest? source (here.after (text.take count)) = some (text.drop count) := by
  apply rest?_after
  rw [List.take_append_drop]
  exact cut

theorem slice?_after (cut : rest? source here = some (piece ++ more)) :
    Text.slice? source here.offset (here.after piece).offset = some piece := by
  obtain ⟨front, rfl, offset⟩ := rest?_eq_some.mp cut
  rw [Location.offset_after, ← offset]
  exact Text.slice?_append front piece more

/-- The source is at its end just where nothing is left of it. -/
theorem ended_iff (cut : rest? source here = some text) :
    Text.byteLength source ≤ here.offset ↔ text = [] := by
  obtain ⟨front, rfl, offset⟩ := rest?_eq_some.mp cut
  rw [Text.byteLength_append, offset]
  cases text with
  | nil => simp
  | cons c text =>
    have positive := c.utf8Size_pos
    rw [Text.byteLength_cons]
    simp only [reduceCtorEq, iff_false]
    omega

theorem length_le (cut : rest? source here = some text) : text.length ≤ source.length := by
  obtain ⟨front, rfl, -⟩ := rest?_eq_some.mp cut
  simp

theorem peek?_eq (cut : rest? source here = some text) : peek? source here = some text.head? := by
  rw [peek?, cut]
  rfl

theorem peekSecond?_eq (cut : rest? source here = some text) :
    peekSecond? source here = some text.tail.head? := by
  rw [peekSecond?, cut]
  rfl

theorem advance?_eq (cut : rest? source here = some text) :
    advance? source here = some (here.after (text.take 1)) := by
  rw [advance?, peek?_eq cut]
  cases text <;> rfl

theorem advance?_cons (cut : rest? source here = some (c :: more)) :
    advance? source here = some (here.next c) :=
  advance?_eq cut

theorem advanceTimes?_eq (count : Nat) (cut : rest? source here = some text) :
    advanceTimes? source count here = some (here.after (text.take count)) := by
  induction count generalizing here text with
  | zero => rfl
  | succ count ih =>
    rw [advanceTimes?, advance?_eq cut, Option.bind_eq_bind, Option.bind_some,
      ih (rest?_take cut 1), ← Location.after_append, ← List.take_add, Nat.add_comm]

/-- Characters are passed one after the other, and fuel is needed for each of them. -/
theorem skipWhile?_eq {fuel : Nat} (cut : rest? source here = some text)
    (enough : text.length < fuel) :
    skipWhile? source p fuel here = some (here.after (text.takeWhile p)) := by
  induction fuel generalizing here text with
  | zero => exact absurd enough (Nat.not_lt_zero _)
  | succ fuel ih =>
    rw [skipWhile?, peek?_eq cut, Option.bind_eq_bind, Option.bind_some]
    cases text with
    | nil => rfl
    | cons c text =>
      have shorter : text.length < fuel := Nat.lt_of_succ_lt_succ enough
      by_cases holds : p c = true
      · rw [List.head?_cons, Option.any_some, if_pos holds, advance?_cons cut,
          Option.bind_eq_bind, Option.bind_some, ih (rest?_next cut) shorter,
          List.takeWhile_cons_of_pos holds]
        rfl
      · rw [List.head?_cons, Option.any_some, if_neg holds, List.takeWhile_cons_of_neg holds]
        rfl

theorem advanceWhile?_eq (cut : rest? source here = some text) :
    advanceWhile? source p here = some (text.takeWhile p, here.after (text.takeWhile p)) := by
  have parts : text = text.takeWhile p ++ text.dropWhile p := List.takeWhile_append_dropWhile.symm
  rw [parts] at cut
  have piece := slice?_after cut
  rw [← parts] at cut
  rw [advanceWhile?, skipWhile?_eq cut (Nat.lt_succ_of_le (length_le cut)), Option.bind_eq_bind,
    Option.bind_some, piece]
  rfl

theorem rest?_takeWhile (cut : rest? source here = some text) :
    rest? source (here.after (text.takeWhile p)) = some (text.dropWhile p) := by
  apply rest?_after
  rw [List.takeWhile_append_dropWhile]
  exact cut

end Cuts

section Readers

variable {source} {here : Location} {text more : List Char} {c : Char}

/-- Raw text is read as without cuts, along the same choices. -/
theorem raw?_eq {indicator : Char} {fuel : Nat} (cut : rest? source here = some text)
    (enough : text.length < fuel) :
    raw? source indicator fuel here = some ((Token.scanRaw indicator text here).1,
      (Token.scanRaw indicator text here).2.location) := by
  induction fuel generalizing here text with
  | zero => exact absurd enough (Nat.not_lt_zero _)
  | succ fuel ih =>
    rw [raw?, peek?_eq cut, Option.bind_eq_bind, Option.bind_some]
    match text with
    | [] => rfl
    | [c] =>
      have last : rest? source (here.next c) = some [] := rest?_next cut
      have behind := ih last (Nat.lt_of_succ_lt_succ enough)
      simp only [List.head?_cons, peekSecond?_eq cut, List.tail_cons, List.head?_nil,
        Option.bind_eq_bind, Option.bind_some, Option.any_none, Bool.false_eq_true, and_false,
        if_false,
        advance?_cons cut, behind]
      rfl
    | c :: d :: text =>
      have second : rest? source (here.next c) = some (d :: text) := rest?_next cut
      have third : rest? source ((here.next c).next d) = some text := rest?_next second
      have shorter : (d :: text).length < fuel := Nat.lt_of_succ_lt_succ enough
      simp only [List.head?_cons, peekSecond?_eq cut, List.tail_cons, Option.bind_eq_bind,
        Option.bind_some, Option.any_some, decide_eq_true_eq, advance?_cons cut,
        advance?_cons second,
        peek?_eq second, ih third (Nat.lt_of_succ_lt shorter), ih second shorter, Token.scanRaw]
      split
      · rfl
      · split <;> rfl

theorem rest?_raw (indicator : Char) (cut : rest? source here = some text) :
    rest? source (Token.scanRaw indicator text here).2.location =
      some (Token.scanRaw indicator text here).2.rest := by
  fun_induction Token.scanRaw indicator text here with
  | case1 => exact cut
  | case2 => exact rest?_next cut
  | case3 place c d rest escape text cursor eq ih =>
    rw [eq] at ih
    exact ih (rest?_next (rest?_next cut))
  | case4 => exact cut
  | case5 place c d rest noEscape noTag text cursor eq ih =>
    rw [eq] at ih
    exact ih (rest?_next cut)

open Literal

/-- The sign of a base is in the first two characters. -/
theorem radixOf_front (text : List Char) :
    radixOf (text.head?.toList ++ text.tail.head?.toList) = radixOf text := by
  match text with
  | [] | [_] => rfl
  | c :: d :: text =>
    by_cases zero : c = '0'
    · subst zero
      by_cases binary : d = 'b'
      · subst binary
        rfl
      · by_cases octal : d = 'o'
        · subst octal
          rfl
        · by_cases hexadecimal : d = 'x'
          · subst hexadecimal
            rfl
          · simp [radixOf, binary, octal, hexadecimal]
    · simp [radixOf, zero]

theorem base?_eq (cut : rest? source here = some text) :
    base? source here = some ((radixOf text).1, (radixOf text).2,
      here.after (text.take (radixOf text).2)) := by
  rw [base?, peek?_eq cut, Option.bind_eq_bind, Option.bind_some, peekSecond?_eq cut,
    Option.bind_eq_bind, Option.bind_some, radixOf_front]
  dsimp only
  rw [advanceTimes?_eq _ cut]
  rfl

/-- The number of characters of a fraction and its point. -/
def fractionLength (fraction : Option (List Char)) : Nat := (fraction.map (·.length + 1)).getD 0

/-- What stands at a point that starts a fraction, or elsewhere. -/
theorem fractionOf_eq (radix : Nat) (text : List Char) :
    fractionOf radix text =
      if (radix = 10 ∨ radix = 16) ∧ text.head? = some '.' ∧
          text.tail.head?.any (isDigit radix) then
        some (text.tail.takeWhile (isDigitOrGap radix))
      else none := by
  match text with
  | [] => simp [fractionOf]
  | [_] => simp [fractionOf]
  | c :: d :: text =>
    by_cases point : c = '.'
    · subst point
      simp [fractionOf]
    · simp [fractionOf, point]

theorem take_length_takeWhile (p : Char → Bool) (text : List Char) :
    text.take (text.takeWhile p).length = text.takeWhile p :=
  (List.prefix_iff_eq_take.mp (List.takeWhile_prefix p)).symm

theorem fraction?_eq (radix : Nat) (cut : rest? source here = some text) :
    fraction? source radix here = some (fractionOf radix text,
      here.after (text.take (fractionLength (fractionOf radix text)))) := by
  rw [fraction?, peek?_eq cut, Option.bind_eq_bind, Option.bind_some, peekSecond?_eq cut,
    Option.bind_eq_bind, Option.bind_some, fractionOf_eq]
  split
  · rename_i point
    obtain ⟨more, rfl⟩ := List.head?_eq_some_iff.mp point.2.1
    rw [advance?_cons cut, Option.bind_eq_bind, Option.bind_some, advanceWhile?_eq (rest?_next cut)]
    simp only [fractionLength, Option.map_some, Option.getD_some, List.tail_cons,
      List.take_succ_cons, take_length_takeWhile]
    rfl
  · rfl

/-- A literal is cut out of the source from its first character up to what is behind it. -/
theorem number?_eq (cut : rest? source here = some text) :
    number? source here = some (match (Parts.ofText text).value? with
      | some data =>
        .ok (.literal data, here.after (text.take (Parts.ofText text).length))
      | none => .error (.unexpected (String.ofList (text.take (Parts.ofText text).length)))) := by
  obtain ⟨radix, sign, base⟩ : ∃ radix sign, radixOf text = (radix, sign) := ⟨_, _, rfl⟩
  let whole := (text.drop sign).takeWhile (isDigitOrGap radix)
  let point := (text.drop sign).drop whole.length
  let fraction := fractionOf radix point
  let left := point.drop (fractionLength fraction)
  let trailing := left.takeWhile Text.isNameChar
  have parts : Parts.ofText text = ⟨radix, sign, whole, fraction, trailing⟩ := by
    rw [Parts.ofText, base]
    rfl
  have length : (Parts.ofText text).length =
      sign + whole.length + fractionLength fraction + trailing.length := by
    rw [parts]
    rfl
  have taken : text.take (Parts.ofText text).length =
      text.take sign ++ whole ++ point.take (fractionLength fraction) ++ trailing := by
    have inWhole : (text.drop sign).take whole.length = whole := take_length_takeWhile _ _
    have inTrailing : left.take trailing.length = trailing := take_length_takeWhile _ _
    have behindWhole : text.drop (sign + whole.length) = point := List.drop_drop.symm
    have behindFraction : text.drop (sign + whole.length + fractionLength fraction) = left := by
      rw [← List.drop_drop, behindWhole]
    rw [length, List.take_add, List.take_add, List.take_add, inWhole, behindWhole, behindFraction,
      inTrailing]
  have atBody := rest?_take cut sign
  have atPoint : rest? source ((here.after (text.take sign)).after whole) = some point := by
    have behind := rest?_take atBody whole.length
    rwa [take_length_takeWhile] at behind
  have atLeft := rest?_take atPoint (fractionLength fraction)
  have whole? : advanceWhile? source (isDigitOrGap radix) (here.after (text.take sign)) =
      some (whole, (here.after (text.take sign)).after whole) := advanceWhile?_eq atBody
  have fraction? := fraction?_eq radix atPoint
  have trailing? : advanceWhile? source Text.isNameChar (((here.after (text.take sign)).after
      whole).after (point.take (fractionLength fraction))) =
        some (trailing, here.after (text.take (Parts.ofText text).length)) := by
    rw [taken, Location.after_append, Location.after_append, Location.after_append]
    exact advanceWhile?_eq atLeft
  have piece : Text.slice? source here.offset
      (here.after (text.take (Parts.ofText text).length)).offset =
        some (text.take (Parts.ofText text).length) := by
    apply slice?_after
    rw [List.take_append_drop]
    exact cut
  rw [number?, base?_eq cut, base, Option.bind_eq_bind, Option.bind_some]
  dsimp only
  rw [whole?, Option.bind_eq_bind, Option.bind_some]
  dsimp only
  rw [fraction?, Option.bind_eq_bind, Option.bind_some]
  dsimp only
  rw [trailing?, Option.bind_eq_bind, Option.bind_some, piece, Option.bind_some]
  cases found : (Parts.ofText text).value? with
  | none =>
    rw [parts] at found
    rw [found]
    rfl
  | some data =>
    rw [parts] at found
    rw [found]
    rfl

theorem length_pos_of_value? {parts : Parts} {data : Value} (h : parts.value? = some data) :
    0 < parts.length := by
  have digits : parts.whole ≠ [] := by
    intro none
    simp [Parts.value?, none, withoutGaps] at h
  have positive := List.length_pos_of_ne_nil digits
  rw [Parts.length]
  omega

theorem utf8ByteSize_symbol (op : Operator) : op.symbol.utf8ByteSize = op.symbol.length := by
  cases op <;> rfl

theorem quoted?_eq (cut : rest? source here = some ('\x22' :: text)) :
    quoted? source here = some ((Token.scanOperand '\x22' text).map fun read =>
      (read.1, (here.next '\x22').after (text.take read.2))) := by
  let inside (d : Char) : Bool := d != '\x22' && d != '\n'
  have behind := rest?_next cut
  have content : rest? source ((here.next '\x22').after (text.takeWhile inside)) =
      some (text.drop (text.takeWhile inside).length) := by
    have taken := rest?_take behind (text.takeWhile inside).length
    rwa [take_length_takeWhile] at taken
  have scanned : Token.scanOperand '\x22' text =
      if (text.drop (text.takeWhile inside).length).head? = some '\x22' then
        .ok (.literal (.ofText (text.takeWhile inside)), (text.takeWhile inside).length + 1)
      else .error .unterminatedString := rfl
  have read : advanceWhile? source inside (here.next '\x22') =
      some (text.takeWhile inside, (here.next '\x22').after (text.takeWhile inside)) :=
    advanceWhile?_eq behind
  rw [quoted?, advance?_cons cut, Option.bind_eq_bind, Option.bind_some, read,
    Option.bind_eq_bind, Option.bind_some]
  dsimp only
  rw [peek?_eq content, Option.bind_eq_bind, Option.bind_some, scanned]
  split
  · rw [advance?_eq content, Option.bind_some, ← Location.after_append]
    have whole : text.takeWhile inside ++
        (text.drop (text.takeWhile inside).length).take 1 =
          text.take ((text.takeWhile inside).length + 1) := by
      rw [List.take_add, take_length_takeWhile]
    rw [whole]
    rfl
  · rfl

theorem scope?_eq (cut : rest? source here = some ('$' :: text)) :
    scope? source here = some ((Token.scanOperand '$' text).map fun read =>
      (read.1, (here.next '$').after (text.take read.2))) := by
  have behind := rest?_next cut
  have scanned : Token.scanOperand '$' text =
      if text.head?.any Text.isNameStart then
        .ok (.scope (String.ofList (text.takeWhile Text.isNameChar)),
          (text.takeWhile Text.isNameChar).length)
      else .error (.unexpected "$") := rfl
  rw [scope?, advance?_cons cut, Option.bind_eq_bind, Option.bind_some, peek?_eq behind,
    Option.bind_eq_bind, Option.bind_some, scanned]
  split
  · rw [advanceWhile?_eq behind, Option.bind_eq_bind, Option.bind_some]
    dsimp only [Except.map]
    rw [take_length_takeWhile]
    rfl
  · rfl

theorem word?_eq (cut : rest? source here = some (c :: text)) (start : Text.isNameStart c = true) :
    word? source here = some (.ok ((match Keyword.ofWord?
        (String.ofList (c :: text.takeWhile Text.isNameChar)) with
      | some word => .keyword word
      | none => .ident (String.ofList (c :: text.takeWhile Text.isNameChar))),
      (here.next c).after (text.take (text.takeWhile Text.isNameChar).length))) := by
  have whole : (c :: text).takeWhile Text.isNameChar = c :: text.takeWhile Text.isNameChar :=
    List.takeWhile_cons_of_pos (Text.isNameChar_of_isNameStart start)
  rw [word?, advanceWhile?_eq cut, Option.bind_eq_bind, Option.bind_some, whole,
    take_length_takeWhile]
  rfl

theorem operator?_eq (cut : rest? source here = some (c :: text)) :
    operator? source c here = some (match Operator.leading? (c :: text) with
      | some op => .ok (.operator op, (here.next c).after (text.take (op.symbol.length - 1)))
      | none => .error (.unexpected (String.ofList [c]))) := by
  rw [operator?, cut, Option.bind_eq_bind, Option.bind_some]
  cases Operator.leading? (c :: text) with
  | none => rfl
  | some op =>
    have positive : 0 < op.symbol.length := List.length_pos_of_ne_nil op.symbol_toList_ne_nil
    obtain ⟨n, size⟩ : ∃ n, op.symbol.length = n + 1 :=
      Nat.exists_eq_add_one_of_ne_zero (Nat.ne_of_gt positive)
    dsimp only
    rw [utf8ByteSize_symbol, advanceTimes?_eq _ cut, size]
    rfl

/-- A token is cut out at the position at which it starts, with what it takes behind its first
character. -/
theorem operand?_eq (cut : rest? source here = some (c :: text)) :
    operand? source c here = some ((Token.scanOperand c text).map fun read =>
      (read.1, (here.next c).after (text.take read.2))) := by
  by_cases quote : c = '\x22'
  · subst quote
    exact quoted?_eq cut
  · by_cases dollar : c = '$'
    · subst dollar
      exact scope?_eq cut
    · unfold operand? Token.scanOperand
      rw [if_neg quote, if_neg quote, if_neg dollar, if_neg dollar]
      split
      · rw [number?_eq cut]
        dsimp only
        cases found : (Parts.ofText (c :: text)).value? with
        | none => rfl
        | some data =>
          obtain ⟨n, size⟩ : ∃ n, (Parts.ofText (c :: text)).length = n + 1 :=
            Nat.exists_eq_add_one_of_ne_zero (Nat.ne_of_gt (length_pos_of_value? found))
          rw [size]
          rfl
      · split
        · rename_i start
          rw [word?_eq cut start]
          rfl
        · rw [operator?_eq cut]
          cases Operator.leading? (c :: text) <;> rfl

end Readers

section Lexer

open Token

/-- The tokens that the lexer without cuts reads from a state on. -/
def remaining (indicator : Char) : LexState → Cursor → Except LexError (List Lexeme)
  | .text => scanText indicator
  | .behindTag => scanTail indicator
  | .arguments depth => scanArguments indicator depth
  | .behindArguments => scanClosed indicator

/-- Behind a name and behind an argument list a token may be read without a character. -/
def rank : LexState → Nat
  | .text | .arguments _ => 0
  | .behindTag | .behindArguments => 1

variable {source : List Char} {indicator : Char} {here : Location} {text : List Char}

theorem remaining_nil (state : LexState) : remaining indicator state ⟨[], here⟩ = .ok [] := by
  cases state with
  | text =>
    rw [remaining, scanText_eq]
    rfl
  | arguments depth =>
    rw [remaining, scanArguments_eq]
    rfl
  | behindTag | behindArguments => rfl

theorem remaining_stateBehind (depth : Nat) (cursor : Cursor) :
    remaining indicator (closeParen.stateBehind depth) cursor =
      scanBehindClose indicator depth cursor := by
  cases depth <;> rfl

/-- What is read with fuel for all characters that are left. -/
def Reads (source : List Char) (indicator : Char) (fuel : Nat)
    (more : LexState → Location → Option (Except LexError (List Lexeme))) : Prop :=
  ∀ {state : LexState} {here : Location} {text : List Char}, rest? source here = some text →
    2 * text.length + rank state < fuel →
      more state here = some (remaining indicator state ⟨text, here⟩)

namespace Reads

variable {fuel : Nat} {more : LexState → Location → Option (Except LexError (List Lexeme))}
  {c : Char} (reads : Reads source indicator fuel more)
include reads

theorem emit {token : Token} {state : LexState} {behind : Location}
    (cut : rest? source behind = some text) (enough : 2 * text.length + rank state < fuel) :
    emit? more token here state behind =
      some ((remaining indicator state ⟨text, behind⟩).map (⟨token, here⟩ :: ·)) := by
  rw [emit?, reads cut enough]
  rfl

/-- Outside of tags there is raw text, and the name of the tag behind it. -/
theorem readText (cut : rest? source here = some text) (enough : 2 * text.length < fuel + 1) :
    readText? source more indicator here = some (scanText indicator ⟨text, here⟩) := by
  have kept := scanRaw_rest_length_le indicator text here
  have behind := rest?_raw indicator cut
  rw [readText?, raw?_eq cut (Nat.lt_succ_of_le (length_le cut)), Option.bind_eq_bind,
    Option.bind_some, scanText_eq]
  obtain ⟨raw, ⟨rest, place⟩, scanned⟩ :
      ∃ raw cursor, scanRaw indicator text here = (raw, cursor) := ⟨_, _, rfl⟩
  rw [scanned] at kept behind ⊢
  dsimp only at kept behind ⊢
  cases rest with
  | nil =>
    rw [if_pos ((ended_iff behind).mpr rfl)]
    rfl
  | cons d rest =>
    have inside := rest?_next behind
    have name := rest?_takeWhile (p := Text.isNameChar) inside
    have shorter : (rest.dropWhile Text.isNameChar).length ≤ rest.length :=
      (List.dropWhile_sublist _).length_le
    have room : 2 * (rest.dropWhile Text.isNameChar).length + rank .behindTag < fuel := by
      simp only [rank, List.length_cons] at kept ⊢
      omega
    rw [if_neg (mt (ended_iff behind).mp (List.cons_ne_nil _ _)), advance?_cons behind,
      Option.bind_eq_bind, Option.bind_some, advanceWhile?_eq inside, Option.bind_eq_bind,
      Option.bind_some]
    dsimp only
    rw [reads name room]
    rfl

/-- In an argument list there is a token behind the blanks. -/
theorem readArguments {depth : Nat} (cut : rest? source here = some text)
    (enough : 2 * text.length < fuel + 1) :
    readArguments? source more depth here =
      some (scanArguments indicator depth ⟨text, here⟩) := by
  have behind := rest?_takeWhile (p := Text.isBlank) cut
  have kept : (text.dropWhile Text.isBlank).length ≤ text.length :=
    (List.dropWhile_sublist _).length_le
  rw [readArguments?, advanceWhile?_eq cut, Option.bind_eq_bind, Option.bind_some,
    scanArguments_eq]
  unfold Cursor.span
  dsimp only
  rw [peek?_eq behind, Option.bind_eq_bind, Option.bind_some]
  generalize here.after (text.takeWhile Text.isBlank) = place at behind ⊢
  generalize text.dropWhile Text.isBlank = rest at behind kept ⊢
  cases rest with
  | nil => rfl
  | cons d rest =>
    have inside := rest?_next behind
    have shorter : 2 * rest.length + 1 < fuel := by
      simp only [List.length_cons] at kept
      omega
    dsimp only [List.head?_cons]
    rw [readInside?, advance?_cons behind, Option.bind_eq_bind, Option.bind_some]
    split
    · rename_i opens
      subst opens
      exact reads.emit inside (Nat.lt_of_succ_lt shorter)
    · split
      · rename_i closes
        subst closes
        rw [← remaining_stateBehind]
        cases depth with
        | zero => exact reads.emit inside shorter
        | succ depth => exact reads.emit inside (Nat.lt_of_succ_lt shorter)
      · split
        · rename_i comma
          subst comma
          exact reads.emit inside (Nat.lt_of_succ_lt shorter)
        · rw [operand?_eq behind, Option.bind_eq_bind, Option.bind_some]
          cases scanOperand d rest with
          | error fault => rfl
          | ok read =>
            have left : (rest.drop read.2).length ≤ rest.length := (List.drop_sublist _ _).length_le
            exact reads.emit (rest?_take inside read.2) (by simp only [rank]; omega)

end Reads

end Lexer

end Sliced

end Stencil
