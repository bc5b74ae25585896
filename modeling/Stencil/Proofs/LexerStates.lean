import Stencil.Proofs.LexerSteps

/-!
# Tokens by the state of the lexer

The lexer is in text, behind the name of a tag, in an argument list in which it counts the open
parentheses, or behind an argument list. `Token.Scans` is what it reads from a state and a place on,
with a constructor for each thing that can stand there, and all that the lexer reads is read in this
way (`Token.scans_text`, `Token.scans_arguments`). Facts about what is read of a source are
inductions on it.

Each state admits some tokens and leads to another. `Token.Emitted` are the sequences that the
states admit, and the tokens of every source are one of them. Facts about tokens alone are
inductions on it.
-/

namespace Stencil.Token

/-- The states of the lexer. -/
inductive LexState
  | text
  | behindTag
  /-- In an argument list, with so many parentheses open besides the one of the list. -/
  | arguments (depth : Nat)
  | behindArguments

/-- A token that is neither a parenthesis nor a comma, inside an argument list. -/
def IsOperand (token : Token) : Prop := ∃ c rest extra, scanOperand c rest = .ok (token, extra)

/-- Whether a token can stand inside an argument list. -/
def standsInside : Token → Bool
  | raw _ | tag _ | blockMark => false
  | _ => true

/-- The state behind a token in an argument list. -/
def stateBehind (depth : Nat) : Token → LexState
  | openParen => .arguments (depth + 1)
  | closeParen =>
    match depth with
    | 0 => .behindArguments
    | depth + 1 => .arguments depth
  | _ => .arguments depth

theorem stands_of_isOperand {token : Token} (h : token.IsOperand) (depth : Nat) :
    token.standsInside = true ∧ token.stateBehind depth = .arguments depth := by
  obtain ⟨c, rest, extra, read⟩ := h
  unfold scanOperand at read
  dsimp only at read
  repeat' split at read
  all_goals cases read
  all_goals exact ⟨rfl, rfl⟩

/-- The tokens behind the parenthesis that closes an argument list, so many parentheses being open
besides its own. -/
def behindList? (depth : Nat) : List Lexeme → Option (List Lexeme)
  | [] => none
  | ⟨token, _⟩ :: rest =>
    match token.stateBehind depth with
    | .arguments depth => behindList? depth rest
    | _ => some rest

/-- Tokens that the lexer can emit from a state on, up to the end of a source. An argument list and
all behind it is what the lexer reads in an argument list with no other parenthesis open. -/
inductive Emitted (indicator : Char) : LexState → List Lexeme → Prop
  | ends (state : LexState) : Emitted indicator state []
  | raw {text : String} {place : Text.Location} {rest : List Lexeme}
      (more : Emitted indicator .text rest) : Emitted indicator .text (⟨.raw text, place⟩ :: rest)
  | tag {name : String} {place : Text.Location} {rest : List Lexeme}
      (more : Emitted indicator .behindTag rest) :
      Emitted indicator .text (⟨.tag name, place⟩ :: rest)
  | openList {place : Text.Location} {rest : List Lexeme} {cursor : Cursor}
      (read : scanArguments indicator 0 cursor = .ok rest)
      (more : Emitted indicator (.arguments 0) rest) :
      Emitted indicator .behindTag (⟨.openParen, place⟩ :: rest)
  | noList {tokens : List Lexeme} (more : Emitted indicator .behindArguments tokens) :
      Emitted indicator .behindTag tokens
  | openParen {depth : Nat} {place : Text.Location} {rest : List Lexeme}
      (more : Emitted indicator (.arguments (depth + 1)) rest) :
      Emitted indicator (.arguments depth) (⟨.openParen, place⟩ :: rest)
  | closeParen {depth : Nat} {place : Text.Location} {rest : List Lexeme}
      (more : Emitted indicator (.arguments depth) rest) :
      Emitted indicator (.arguments (depth + 1)) (⟨.closeParen, place⟩ :: rest)
  | closeList {place : Text.Location} {rest : List Lexeme}
      (more : Emitted indicator .behindArguments rest) :
      Emitted indicator (.arguments 0) (⟨.closeParen, place⟩ :: rest)
  | comma {depth : Nat} {place : Text.Location} {rest : List Lexeme}
      (more : Emitted indicator (.arguments depth) rest) :
      Emitted indicator (.arguments depth) (⟨.comma, place⟩ :: rest)
  | operand {depth : Nat} {token : Token} {place : Text.Location} {rest : List Lexeme}
      (inner : token.IsOperand) (more : Emitted indicator (.arguments depth) rest) :
      Emitted indicator (.arguments depth) (⟨token, place⟩ :: rest)
  | mark {place : Text.Location} {rest : List Lexeme} (more : Emitted indicator .text rest) :
      Emitted indicator .behindArguments (⟨.blockMark, place⟩ :: rest)
  | noMark {tokens : List Lexeme} (more : Emitted indicator .text tokens) :
      Emitted indicator .behindArguments tokens

variable {indicator : Char} {cursor : Cursor} {tokens : List Lexeme}

theorem ok_of_map {x : Except LexError (List Lexeme)} {l : Lexeme}
    (h : x.map (l :: ·) = .ok tokens) : ∃ rest, x = .ok rest ∧ tokens = l :: rest := by
  cases x with
  | error e => cases h
  | ok rest =>
    cases h
    exact ⟨rest, rfl, rfl⟩

theorem emitted_rawLexeme (text : List Char) (place : Text.Location) {rest : List Lexeme}
    (more : Emitted indicator .text rest) :
    Emitted indicator .text (rawLexeme text place ++ rest) := by
  unfold rawLexeme
  split
  · exact more
  · exact .raw more

/-- What the lexer reads from a state and a place on, by what stands there: a blank, a token, or
something that leads it to another state first. -/
inductive Scans (indicator : Char) : LexState → Cursor → Except LexError (List Lexeme) → Prop
  | ends (state : LexState) (here : Text.Location) : Scans indicator state ⟨[], here⟩ (.ok [])
  | textEnds {text raw : List Char} {here place : Text.Location}
      (scanned : scanRaw indicator text here = (raw, ⟨[], place⟩)) :
      Scans indicator .text ⟨text, here⟩ (.ok (rawLexeme raw here))
  | tag {text raw rest : List Char} {c : Char} {here place : Text.Location}
      {read : Except LexError (List Lexeme)}
      (scanned : scanRaw indicator text here = (raw, ⟨c :: rest, place⟩))
      (more : Scans indicator .behindTag
        (Cursor.span Text.isNameChar ⟨rest, place.next c⟩).2 read) :
      Scans indicator .text ⟨text, here⟩ (read.map ((rawLexeme raw here ++
        [⟨.tag (String.ofList (rest.takeWhile Text.isNameChar)), place⟩]) ++ ·))
  | openList {rest : List Char} {here : Text.Location}
      (more : Scans indicator (.arguments 0) ⟨rest, here.next '('⟩
        (scanArguments indicator 0 ⟨rest, here.next '('⟩)) :
      Scans indicator .behindTag ⟨'(' :: rest, here⟩
        ((scanArguments indicator 0 ⟨rest, here.next '('⟩).map (⟨.openParen, here⟩ :: ·))
  | noList {c : Char} {rest : List Char} {here : Text.Location}
      {read : Except LexError (List Lexeme)} (other : c ≠ '(')
      (more : Scans indicator .behindArguments ⟨c :: rest, here⟩ read) :
      Scans indicator .behindTag ⟨c :: rest, here⟩ read
  | mark {rest : List Char} {here : Text.Location} {read : Except LexError (List Lexeme)}
      (more : Scans indicator .text ⟨rest, here.next ':'⟩ read) :
      Scans indicator .behindArguments ⟨':' :: rest, here⟩ (read.map (⟨.blockMark, here⟩ :: ·))
  | noMark {c : Char} {rest : List Char} {here : Text.Location}
      {read : Except LexError (List Lexeme)} (other : c ≠ ':')
      (more : Scans indicator .text ⟨c :: rest, here⟩ read) :
      Scans indicator .behindArguments ⟨c :: rest, here⟩ read
  | blank {depth : Nat} {c : Char} {rest : List Char} {here : Text.Location}
      {read : Except LexError (List Lexeme)} (blank : Text.isBlank c = true)
      (more : Scans indicator (.arguments depth) ⟨rest, here.next c⟩ read) :
      Scans indicator (.arguments depth) ⟨c :: rest, here⟩ read
  | openParen {depth : Nat} {rest : List Char} {here : Text.Location}
      {read : Except LexError (List Lexeme)}
      (more : Scans indicator (.arguments (depth + 1)) ⟨rest, here.next '('⟩ read) :
      Scans indicator (.arguments depth) ⟨'(' :: rest, here⟩ (read.map (⟨.openParen, here⟩ :: ·))
  | closeParen {depth : Nat} {rest : List Char} {here : Text.Location}
      {read : Except LexError (List Lexeme)}
      (more : Scans indicator (.arguments depth) ⟨rest, here.next ')'⟩ read) :
      Scans indicator (.arguments (depth + 1)) ⟨')' :: rest, here⟩
        (read.map (⟨.closeParen, here⟩ :: ·))
  | closeList {rest : List Char} {here : Text.Location}
      (more : Scans indicator .behindArguments ⟨rest, here.next ')'⟩
        (scanClosed indicator ⟨rest, here.next ')'⟩)) :
      Scans indicator (.arguments 0) ⟨')' :: rest, here⟩
        ((scanClosed indicator ⟨rest, here.next ')'⟩).map (⟨.closeParen, here⟩ :: ·))
  | comma {depth : Nat} {rest : List Char} {here : Text.Location}
      {read : Except LexError (List Lexeme)}
      (more : Scans indicator (.arguments depth) ⟨rest, here.next ','⟩ read) :
      Scans indicator (.arguments depth) ⟨',' :: rest, here⟩ (read.map (⟨.comma, here⟩ :: ·))
  | operand {depth : Nat} {c : Char} {rest : List Char} {here : Text.Location} {token : Token}
      {extra : Nat} {read : Except LexError (List Lexeme)} (first : Text.isBlank c = false)
      (plain : c ∉ ['(', ')', ',']) (taken : scanOperand c rest = .ok (token, extra))
      (more : Scans indicator (.arguments depth) (Cursor.advance ⟨rest, here.next c⟩ extra) read) :
      Scans indicator (.arguments depth) ⟨c :: rest, here⟩ (read.map (⟨token, here⟩ :: ·))
  | fault {depth : Nat} {c : Char} {rest : List Char} {here : Text.Location} {fault : LexFault}
      (first : Text.isBlank c = false) (plain : c ∉ ['(', ')', ','])
      (refused : scanOperand c rest = .error fault) :
      Scans indicator (.arguments depth) ⟨c :: rest, here⟩ (.error ⟨here, fault⟩)

/-- What is read below a length, outside and inside of argument lists. -/
structure ScansBelow (indicator : Char) (n : Nat) : Prop where
  text : ∀ {cursor : Cursor}, cursor.rest.length < n →
    Scans indicator .text cursor (scanText indicator cursor)
  arguments : ∀ (depth : Nat) {cursor : Cursor}, cursor.rest.length < n →
    Scans indicator (.arguments depth) cursor (scanArguments indicator depth cursor)

namespace ScansBelow

variable {n : Nat} (h : ScansBelow indicator n)
include h

theorem closed (short : cursor.rest.length < n) :
    Scans indicator .behindArguments cursor (scanClosed indicator cursor) := by
  obtain ⟨rest, here⟩ := cursor
  cases rest with
  | nil => exact .ends _ _
  | cons c rest =>
    have shorter : rest.length < n := Nat.lt_of_succ_lt short
    simp only [scanClosed]
    split
    · rename_i body
      subst body
      exact .mark (h.text shorter)
    · rename_i noBody
      exact .noMark noBody (h.text short)

theorem tail (short : cursor.rest.length < n) :
    Scans indicator .behindTag cursor (scanTail indicator cursor) := by
  have closed := h.closed short
  obtain ⟨rest, here⟩ := cursor
  cases rest with
  | nil => exact .ends _ _
  | cons c rest =>
    have shorter : rest.length < n := Nat.lt_of_succ_lt short
    simp only [scanTail]
    split
    · rename_i list
      subst list
      exact .openList (h.arguments 0 shorter)
    · rename_i noList
      exact .noList noList closed

/-- Up to a tag there is raw text. -/
theorem text_succ (short : cursor.rest.length < n + 1) :
    Scans indicator .text cursor (scanText indicator cursor) := by
  have kept := scanRaw_rest_length_le indicator cursor.rest cursor.location
  rw [scanText_eq]
  split
  · rename_i raw place scanned
    exact .textEnds scanned
  · rename_i raw c rest place scanned
    rw [scanned] at kept
    have named := Cursor.span_rest_length_le Text.isNameChar ⟨rest, place.next c⟩
    have shorter : rest.length < n := Nat.lt_of_succ_lt_succ (Nat.lt_of_le_of_lt kept short)
    exact .tag scanned (h.tail (Nat.lt_of_le_of_lt named shorter))

/-- In an argument list a blank or a token is at the front. -/
theorem arguments_succ (depth : Nat) (short : cursor.rest.length < n + 1) :
    Scans indicator (.arguments depth) cursor (scanArguments indicator depth cursor) := by
  obtain ⟨rest, here⟩ := cursor
  cases rest with
  | nil =>
    rw [scanArguments_eq]
    exact .ends _ _
  | cons c rest =>
    have shorter : rest.length < n := Nat.lt_of_succ_lt_succ short
    by_cases blank : Text.isBlank c = true
    · rw [scanArguments_blank _ _ _ _ blank]
      exact .blank blank (h.arguments depth shorter)
    · have first : Text.isBlank c = false := Bool.eq_false_iff.mpr blank
      by_cases opens : c = '('
      · subst opens
        rw [scanArguments_open]
        exact .openParen (h.arguments (depth + 1) shorter)
      by_cases closes : c = ')'
      · subst closes
        rw [scanArguments_close]
        cases depth with
        | zero => exact .closeList (h.closed shorter)
        | succ depth => exact .closeParen (h.arguments depth shorter)
      by_cases comma : c = ','
      · subst comma
        rw [scanArguments_comma]
        exact .comma (h.arguments depth shorter)
      have plain : c ∉ ['(', ')', ','] := by simp [opens, closes, comma]
      cases taken : scanOperand c rest with
      | error fault =>
        rw [scanArguments_fault first plain taken]
        exact .fault first plain taken
      | ok read =>
        rw [scanArguments_operand first plain taken]
        refine .operand first plain taken (h.arguments depth ?_)
        exact Nat.lt_of_le_of_lt (by simp) shorter

end ScansBelow

/-- The induction is on what is left to read: behind each token and each blank there is less. -/
theorem scansBelow (indicator : Char) (n : Nat) : ScansBelow indicator n := by
  induction n with
  | zero =>
    constructor
    · intro cursor short
      exact absurd short (Nat.not_lt_zero _)
    · intro depth cursor short
      exact absurd short (Nat.not_lt_zero _)
  | succ n ih =>
    constructor
    · intro cursor short
      exact ih.text_succ short
    · intro depth cursor short
      exact ih.arguments_succ depth short

theorem scans_text (indicator : Char) (cursor : Cursor) :
    Scans indicator .text cursor (scanText indicator cursor) :=
  (scansBelow indicator _).text (Nat.lt_succ_self _)

theorem scans_arguments (indicator : Char) (depth : Nat) (cursor : Cursor) :
    Scans indicator (.arguments depth) cursor (scanArguments indicator depth cursor) :=
  (scansBelow indicator _).arguments depth (Nat.lt_succ_self _)

theorem scans_closed (indicator : Char) (cursor : Cursor) :
    Scans indicator .behindArguments cursor (scanClosed indicator cursor) :=
  (scansBelow indicator _).closed (Nat.lt_succ_self _)

/-- What the lexer reads from a state on, if nothing is wrong, can be emitted from it. -/
theorem Scans.emitted {state : LexState} {read : Except LexError (List Lexeme)}
    (h : Scans indicator state cursor read) (ok : read = .ok tokens) :
    Emitted indicator state tokens := by
  induction h generalizing tokens with
  | ends =>
    cases ok
    exact .ends _
  | @textEnds text raw here place scanned =>
    cases ok
    have last : Emitted indicator .text [] := .ends _
    have whole := emitted_rawLexeme raw here last
    rwa [List.append_nil] at whole
  | @tag text raw rest c here place read scanned more ih =>
    cases read with
    | error e => cases ok
    | ok tail =>
      cases ok
      dsimp only
      rw [List.append_assoc]
      exact emitted_rawLexeme raw here (.tag (ih rfl))
  | openList _ ih =>
    obtain ⟨rest, more, rfl⟩ := ok_of_map ok
    exact .openList more (ih more)
  | noList _ _ ih => exact .noList (ih ok)
  | mark _ ih =>
    obtain ⟨rest, more, rfl⟩ := ok_of_map ok
    exact .mark (ih more)
  | noMark _ _ ih => exact .noMark (ih ok)
  | blank _ _ ih => exact ih ok
  | openParen _ ih =>
    obtain ⟨rest, more, rfl⟩ := ok_of_map ok
    exact .openParen (ih more)
  | closeParen _ ih =>
    obtain ⟨rest, more, rfl⟩ := ok_of_map ok
    exact .closeParen (ih more)
  | closeList _ ih =>
    obtain ⟨rest, more, rfl⟩ := ok_of_map ok
    exact .closeList (ih more)
  | comma _ ih =>
    obtain ⟨rest, more, rfl⟩ := ok_of_map ok
    exact .comma (ih more)
  | operand _ _ taken _ ih =>
    obtain ⟨rest, more, rfl⟩ := ok_of_map ok
    exact .operand ⟨_, _, _, taken⟩ (ih more)
  | fault => cases ok

/-- A token in an argument list can stand there, and leads to its state. -/
theorem Emitted.inside {depth : Nat} {token : Token} {place : Text.Location} {rest : List Lexeme}
    (h : Emitted indicator (.arguments depth) (⟨token, place⟩ :: rest)) :
    token.standsInside = true ∧ Emitted indicator (token.stateBehind depth) rest := by
  cases h with
  | openParen more | closeParen more | closeList more | comma more => exact ⟨rfl, more⟩
  | operand inner more =>
    obtain ⟨inside, same⟩ := stands_of_isOperand inner depth
    exact ⟨inside, same ▸ more⟩

/-- Behind the parenthesis that closes an argument list the lexer is behind the list. -/
theorem Scans.closed_of_behindList? {state : LexState} {read : Except LexError (List Lexeme)}
    {depth : Nat} {left : List Lexeme} (h : Scans indicator state cursor read)
    (inside : state = .arguments depth) (ok : read = .ok tokens)
    (ends : behindList? depth tokens = some left) :
    ∃ behind, scanClosed indicator behind = .ok left := by
  induction h generalizing depth tokens with
  | ends =>
    cases ok
    cases ends
  | blank _ _ ih => exact ih inside ok ends
  | openParen _ ih | closeParen _ ih | comma _ ih =>
    cases inside
    obtain ⟨rest, more, rfl⟩ := ok_of_map ok
    exact ih rfl more ends
  | closeList _ _ =>
    cases inside
    obtain ⟨rest, more, rfl⟩ := ok_of_map ok
    cases ends
    exact ⟨_, more⟩
  | @operand depth c rest here token extra read first plain taken _ ih =>
    cases inside
    obtain ⟨rest, more, rfl⟩ := ok_of_map ok
    obtain ⟨-, same⟩ := stands_of_isOperand ⟨_, _, _, taken⟩ depth
    simp only [behindList?, same] at ends
    exact ih rfl more ends
  | fault => cases ok
  | _ => cases inside

/-- What the lexer reads in an argument list is, behind the parenthesis that closes it, what it
reads behind a list. -/
theorem scanClosed_of_behindList? {depth : Nat} {left : List Lexeme}
    (read : scanArguments indicator depth cursor = .ok tokens)
    (ends : behindList? depth tokens = some left) :
    ∃ behind, scanClosed indicator behind = .ok left :=
  (scans_arguments indicator depth cursor).closed_of_behindList? rfl read ends

/-- The tokens of a source are emitted from text on. -/
theorem emitted_of_scan {source : String} (h : scan indicator source = .ok tokens) :
    Emitted indicator .text tokens :=
  (scans_text indicator _).emitted h

end Stencil.Token
