import Stencil.Proofs.LexerSteps
import Stencil.Proofs.ParseSteps
import Stencil.Proofs.WrittenExpressions
import Stencil.Template.Printer

/-!
# Reading on

Scanning and reading at once, from any place of a source and with any draft. A piece of source in
front of the rest changes the draft in the same way whatever the rest is, so that a source can be
read piece by piece.
-/

namespace Stencil

namespace Draft

variable {entities : Entities} {indicator : Char} {d d' : Draft} {tag name : String}

/-- Reads what was scanned. -/
def readOn (entities : Entities) (indicator : Char) (d : Draft) (tag : String)
    (scanned : Except LexError (List Lexeme)) : Except Failure Draft :=
  match scanned with
  | .error e => .error (.lex e)
  | .ok tokens => (read entities indicator d tag tokens).mapError .parse

/-- Reads what is left of a source. -/
def readAt (entities : Entities) (indicator : Char) (d : Draft) (tag : String) (cursor : Cursor) :
    Except Failure Draft :=
  readOn entities indicator d tag (Token.scanText indicator cursor)

/-- Reads a piece of a source in front of tokens. -/
def readBefore (entities : Entities) (indicator : Char) (d : Draft) (tag : String)
    (cursor : Cursor) (behind : List Lexeme) : Except Failure Draft :=
  readOn entities indicator d tag ((Token.scanText indicator cursor).map (· ++ behind))

theorem map_append_nil (scanned : Except LexError (List Lexeme)) :
    scanned.map (· ++ []) = scanned := by
  cases scanned with
  | error e => rfl
  | ok tokens =>
    show Except.ok (tokens ++ []) = _
    rw [List.append_nil]

theorem readBefore_nil (cursor : Cursor) :
    readBefore entities indicator d tag cursor [] = readAt entities indicator d tag cursor := by
  rw [readBefore, readAt, map_append_nil]

theorem appendRaw_appendRaw (a b : String) (table : List Node) :
    appendRaw b (appendRaw a table) = appendRaw (a ++ b) table := by
  unfold appendRaw
  cases last : table.getLast? with
  | none => simp
  | some node =>
    cases node with
    | raw before => simp [String.append_assoc]
    | _ => simp

theorem addRaw_empty (d : Draft) : d.addRaw "" = d := rfl

theorem addRaw_of_nonempty (d : Draft) {text : String} (h : text ≠ "") :
    d.addRaw text = { d with tables := d.tables.modify d.current (appendRaw text) } := by
  unfold addRaw
  rw [if_neg (by simpa using h)]

theorem opened_addRaw (d : Draft) (text : String) : (d.addRaw text).opened = d.opened := by
  unfold addRaw
  split <;> rfl

/-- Raw text in two parts. -/
theorem addRaw_addRaw (d : Draft) (a b : String) : (d.addRaw a).addRaw b = d.addRaw (a ++ b) := by
  by_cases ha : a = ""
  · subst ha
    rw [addRaw_empty, String.empty_append]
  · by_cases hb : b = ""
    · subst hb
      rw [addRaw_empty, String.append_empty]
    · have both : a ++ b ≠ "" := by
        intro none
        exact ha (String.append_eq_empty_iff.mp none).1
      rw [addRaw_of_nonempty d ha, addRaw_of_nonempty d both, addRaw_of_nonempty _ hb]
      have twice : (d.tables.modify d.current (appendRaw a)).modify d.current (appendRaw b) =
          d.tables.modify d.current (appendRaw (a ++ b)) := by
        rw [List.modify_modify_eq]
        congr 1
        funext table
        exact appendRaw_appendRaw a b table
      exact congrArg (fun tables => { d with tables := tables }) twice

theorem read_raw (text : String) (place : Text.Location) (rest : List Lexeme) :
    read entities indicator d tag (⟨.raw text, place⟩ :: rest) =
      read entities indicator (d.addRaw text) tag rest := by
  rw [read]

theorem read_mark (place : Text.Location) (rest : List Lexeme) :
    read entities indicator d tag (⟨.blockMark, place⟩ :: rest) =
      read entities indicator (d.addRaw ":") tag rest := by
  rw [read]

/-- A tag that is read. -/
theorem read_tag {place : Text.Location} {rest : List Lexeme} {left : Remaining rest}
    (h : TagSite.read { entities, indicator, tag := name, location := place } d rest =
      .ok (d', left)) :
    read entities indicator d tag (⟨.tag name, place⟩ :: rest) =
      read entities indicator d' name left.1 := by
  rw [read, h]

theorem read_rawLexeme (text : List Char) (place : Text.Location) (rest : List Lexeme) :
    read entities indicator d tag (Token.rawLexeme text place ++ rest) =
      read entities indicator (d.addRaw (String.ofList text)) tag rest := by
  unfold Token.rawLexeme
  cases text with
  | nil => rfl
  | cons c text => exact read_raw _ _ _

theorem readOn_map (f : List Lexeme → List Lexeme) (scanned : Except LexError (List Lexeme))
    (h : ∀ tokens, scanned = .ok tokens →
      read entities indicator d tag (f tokens) = read entities indicator d' name tokens) :
    readOn entities indicator d tag (scanned.map f) =
      readOn entities indicator d' name scanned := by
  cases scanned with
  | error e => rfl
  | ok tokens =>
    show (read entities indicator d tag (f tokens)).mapError _ = _
    rw [h tokens rfl]
    rfl

theorem readOn_congr_map (f g : List Lexeme → List Lexeme) (scanned : Except LexError (List Lexeme))
    (h : ∀ tokens, read entities indicator d tag (f tokens) =
      read entities indicator d' name (g tokens)) :
    readOn entities indicator d tag (scanned.map f) =
      readOn entities indicator d' name (scanned.map g) := by
  cases scanned with
  | error e => rfl
  | ok tokens => exact congrArg (·.mapError Failure.parse) (h tokens)

end Draft

namespace Token

variable {indicator : Char}

/-- Escaped text in front is read as the text, whatever follows. -/
theorem scanRaw_escaped (text rest : List Char) (here : Text.Location) :
    scanRaw indicator (text.flatMap (escapedChar indicator) ++ rest) here =
      (text ++ (scanRaw indicator rest
          (here.after (text.flatMap (escapedChar indicator)))).1,
        (scanRaw indicator rest (here.after (text.flatMap (escapedChar indicator)))).2) := by
  induction text generalizing here with
  | nil => rfl
  | cons c text ih =>
    rw [List.flatMap_cons, List.append_assoc, Text.Location.after_append]
    by_cases escaped : c = '\\' ∨ c = indicator
    · have eq : escapedChar indicator c = ['\\', c] := if_pos escaped
      have pair : c = indicator ∨ c = '\\' := escaped.symm
      rw [eq, List.cons_append, List.singleton_append, scanRaw, if_pos ⟨rfl, pair⟩,
        ih ((here.next '\\').next c)]
      rfl
    · have eq : escapedChar indicator c = [c] := if_neg escaped
      have plain := not_or.mp escaped
      rw [eq, List.singleton_append]
      have step (next : List Char) (place : Text.Location) :
          scanRaw indicator (c :: next) place =
            (c :: (scanRaw indicator next (place.next c)).1,
              (scanRaw indicator next (place.next c)).2) := by
        cases next with
        | nil => rfl
        | cons e next => rw [scanRaw, if_neg (by simp [plain.1]), if_neg (by simp [plain.2])]
      rw [step, ih (here.next c)]
      rfl

end Token

namespace Draft

variable {entities : Entities} {indicator : Char} {d : Draft} {tag : String}

/-- Escaped text in front of the rest is added to the draft, whatever tokens follow. -/
theorem readBefore_text (text rest : List Char) (here : Text.Location) (behind : List Lexeme) :
    readBefore entities indicator d tag ⟨text.flatMap (escapedChar indicator) ++ rest, here⟩
        behind =
      readBefore entities indicator (d.addRaw (String.ofList text)) tag
        ⟨rest, here.after (text.flatMap (escapedChar indicator))⟩ behind := by
  unfold readBefore
  rw [Token.scanText_eq, Token.scanText_eq, Token.scanRaw_escaped]
  generalize here.after (text.flatMap (escapedChar indicator)) = place
  dsimp only
  obtain ⟨more, left, place'⟩ := Token.scanRaw indicator rest place
  have joined (tokens : List Lexeme) :
      read entities indicator d tag (Token.rawLexeme (text ++ more) here ++ tokens) =
        read entities indicator (d.addRaw (String.ofList text)) tag
          (Token.rawLexeme more place ++ tokens) := by
    rw [read_rawLexeme, read_rawLexeme, addRaw_addRaw, String.ofList_append]
  cases left with
  | nil =>
    show (read entities indicator d tag _).mapError _ = (read entities indicator _ tag _).mapError _
    rw [joined]
  | cons c left =>
    dsimp only
    cases Token.scanTail indicator _ with
    | error e => rfl
    | ok tail =>
      show (read entities indicator d tag _).mapError _ =
        (read entities indicator _ tag _).mapError _
      dsimp only
      simp only [List.append_assoc]
      rw [joined]

/-- Escaped text in front of the rest is added to the draft. -/
theorem readAt_text (text rest : List Char) (here : Text.Location) :
    readAt entities indicator d tag ⟨text.flatMap (escapedChar indicator) ++ rest, here⟩ =
      readAt entities indicator (d.addRaw (String.ofList text)) tag
        ⟨rest, here.after (text.flatMap (escapedChar indicator))⟩ := by
  rw [← readBefore_nil, ← readBefore_nil, readBefore_text]

end Draft

/-- A character that can start tags. -/
structure IndicatorAllowed (indicator : Char) : Prop where
  backslash : indicator ≠ '\\'
  colon : indicator ≠ ':'
  name : Text.isNameChar indicator = false

namespace Token

variable {indicator : Char} {name text rest : List Char} {tokens : List Token}

/-- The name of a tag, which is empty if a parenthesis follows. -/
structure NamesTag (name rest : List Char) : Prop where
  inside : ∀ c ∈ name, Text.isNameChar c = true
  opens : ∃ c more, name ++ rest = c :: more ∧ opensTag c = true
  ends : EndsName rest

theorem dropWhile_of_endsName (inside : ∀ c ∈ name, Text.isNameChar c = true)
    (ends : EndsName rest) : (name ++ rest).dropWhile Text.isNameChar = rest := by
  have split := List.takeWhile_append_dropWhile (p := Text.isNameChar) (l := name ++ rest)
  rw [takeWhile_run inside ends] at split
  exact List.append_cancel_left split

/-- A tag in front of the rest. -/
theorem scanText_tag (allowed : IndicatorAllowed indicator) (named : NamesTag name rest)
    (here : Text.Location) : scanText indicator ⟨indicator :: (name ++ rest), here⟩ =
      (scanTail indicator ⟨rest, (here.next indicator).after name⟩).map
        (⟨.tag (String.ofList name), here⟩ :: ·) := by
  obtain ⟨c, more, eq, opens⟩ := named.opens
  have stops : scanRaw indicator (indicator :: c :: more) here =
      ([], ⟨indicator :: c :: more, here⟩) := by
    rw [scanRaw, if_neg fun both => allowed.backslash both.1, if_pos ⟨rfl, opens⟩]
  rw [scanText_eq]
  dsimp only
  rw [eq, stops]
  dsimp only [Cursor.span]
  rw [← eq, takeWhile_run named.inside named.ends,
    dropWhile_of_endsName named.inside named.ends]
  rfl

/-- Behind a name that stops there, text goes on. -/
theorem scanTail_plain (here : Text.Location)
    (stops : ∀ c, rest.head? = some c → c ≠ '(' ∧ c ≠ ':') :
    scanTail indicator ⟨rest, here⟩ = scanText indicator ⟨rest, here⟩ := by
  cases rest with
  | nil => rw [scanText_eq]; rfl
  | cons c rest =>
    obtain ⟨paren, colon⟩ := stops c rfl
    rw [scanTail, if_neg paren, if_neg colon]

/-- No argument list starts in text. -/
theorem parenFollows_of_scanText {cursor : Cursor} {lexemes : List Lexeme}
    (h : scanText indicator cursor = .ok lexemes) : parenFollows lexemes = false := by
  rw [scanText_eq] at h
  split at h
  · cases h
    unfold rawLexeme
    split <;> rfl
  · generalize scanTail indicator _ = tail at h
    cases tail with
    | error e => cases h
    | ok more =>
      cases h
      unfold rawLexeme
      split <;> rfl

/-- The text of a tag with arguments. -/
def callText (indicator : Char) (name text : List Char) : List Char :=
  indicator :: (name ++ '(' :: (text ++ [')']))

theorem callText_append (name text rest : List Char) :
    callText indicator name text ++ rest = indicator :: (name ++ '(' :: (text ++ ')' :: rest)) := by
  simp [callText]

theorem namesTag_paren (h : ∀ c ∈ name, Text.isNameChar c = true)
    (start : ∀ c, name.head? = some c → Text.isNameStart c = true) (rest : List Char) :
    NamesTag name ('(' :: rest) := by
  refine ⟨h, ?_, by rintro c ⟨⟩; decide⟩
  cases name with
  | nil => exact ⟨'(', rest, rfl, by decide⟩
  | cons c name =>
    refine ⟨c, name ++ '(' :: rest, rfl, ?_⟩
    unfold opensTag
    rw [start c rfl]
    rfl

theorem namesTag_of_isName {s : String} (word : Text.IsName s) (ends : EndsName rest) :
    NamesTag s.toList rest := by
  refine ⟨Text.isNameChar_of_isName word, ?_, ends⟩
  obtain ⟨c, more, eq, start, -⟩ := word
  refine ⟨c, more ++ rest, by rw [eq]; rfl, ?_⟩
  unfold opensTag
  rw [start]
  rfl

/-- The tokens of a tag with legible arguments. -/
theorem scanText_call (allowed : IndicatorAllowed indicator)
    (inside : ∀ c ∈ name, Text.isNameChar c = true)
    (start : ∀ c, name.head? = some c → Text.isNameStart c = true)
    (written : Written EndsOperand text tokens) (legible : AllLegible tokens)
    (here : Text.Location) (rest : List Char) :
    ∃ (opening closing : Text.Location) (lexemes : List Lexeme), lexemes.map (·.token) = tokens ∧
      scanText indicator ⟨callText indicator name text ++ rest, here⟩ =
        (scanClosed indicator ⟨rest, here.after (callText indicator name text)⟩).map fun more =>
          ⟨.tag (String.ofList name), here⟩ :: ⟨.openParen, opening⟩ ::
            (lexemes ++ ⟨.closeParen, closing⟩ :: more) := by
  have ends : EndsOperand (')' :: rest) := endsOperand_of_mem (by simp) rest
  obtain ⟨lexemes, same, read⟩ := written.read legible indicator 0
    (((here.next indicator).after name).next '(') (')' :: rest) ends
  refine ⟨(here.next indicator).after name,
    (((here.next indicator).after name).next '(').after text, lexemes, same, ?_⟩
  rw [callText_append, scanText_tag allowed (namesTag_paren inside start _)]
  rw [scanTail_paren, read, scanArguments_close, scanBehindClose, map_map, map_map, map_map]
  simp [callText]

/-- A tag with arguments that are not legible is refused. -/
theorem scanText_refused (allowed : IndicatorAllowed indicator)
    (inside : ∀ c ∈ name, Text.isNameChar c = true)
    (start : ∀ c, name.head? = some c → Text.isNameStart c = true)
    (written : Written EndsOperand text tokens) (illegible : ¬AllLegible tokens)
    (here : Text.Location) (rest : List Char) :
    ∃ e, scanText indicator ⟨callText indicator name text ++ rest, here⟩ = .error e := by
  have ends : EndsOperand (')' :: rest) := endsOperand_of_mem (by simp) rest
  have bad : ∃ t ∈ tokens, ¬t.Legible := by
    simpa [AllLegible] using illegible
  obtain ⟨e, failed⟩ := written.refused bad indicator 0
    (((here.next indicator).after name).next '(') (')' :: rest) ends
  refine ⟨e, ?_⟩
  rw [callText_append, scanText_tag allowed (namesTag_paren inside start _)]
  rw [scanTail_paren, failed]
  rfl

end Token

namespace Draft

variable {entities : Entities} {indicator : Char} {d d' : Draft} {tag tagName : String}
  {name text rest : List Char} {tokens : List Token}

/-- Behind an argument list a colon that opens no body is text, whatever tokens follow. -/
theorem readBefore_closed (allowed : IndicatorAllowed indicator) (cursor : Cursor)
    (behind : List Lexeme) :
    readOn entities indicator d tag ((Token.scanClosed indicator cursor).map (· ++ behind)) =
      readBefore entities indicator d tag cursor behind := by
  obtain ⟨rest, here⟩ := cursor
  cases rest with
  | nil =>
    unfold readBefore
    rw [Token.scanText_eq]
    rfl
  | cons c rest =>
    simp only [Token.scanClosed]
    split
    · rename_i colon
      subst colon
      have plain : [':'].flatMap (escapedChar indicator) = [':'] := by
        simp [escapedChar, allowed.colon.symm]
      have text : readBefore entities indicator d tag
          ⟨[':'].flatMap (escapedChar indicator) ++ rest, here⟩ behind = _ :=
        readBefore_text [':'] rest here behind
      rw [plain, List.singleton_append] at text
      rw [text, Token.map_map, readBefore]
      exact readOn_congr_map _ _ _ fun tokens => read_mark here _
    · rfl

/-- Behind an argument list a colon that opens no body is text. -/
theorem readOn_closed (allowed : IndicatorAllowed indicator) (cursor : Cursor) :
    readOn entities indicator d tag (Token.scanClosed indicator cursor) =
      readAt entities indicator d tag cursor := by
  have closed : readOn entities indicator d tag
      ((Token.scanClosed indicator cursor).map (· ++ [])) = _ := readBefore_closed allowed cursor []
  rwa [map_append_nil, readBefore_nil] at closed

/-- A tag with arguments in front of the rest. -/
theorem readAt_call (allowed : IndicatorAllowed indicator)
    (inside : ∀ c ∈ name, Text.isNameChar c = true)
    (start : ∀ c, name.head? = some c → Text.isNameStart c = true)
    (written : Token.Written Token.EndsOperand text tokens) (legible : Token.AllLegible tokens)
    {here : Text.Location}
    (reads : ∀ (opening closing : Text.Location) (lexemes more : List Lexeme),
      lexemes.map (·.token) = tokens → ∃ left,
        TagSite.read { entities, indicator, tag := String.ofList name, location := here } d
          (⟨.openParen, opening⟩ :: (lexemes ++ ⟨.closeParen, closing⟩ :: more)) = .ok (d', left) ∧
        left.1 = more) :
    readAt entities indicator d tag ⟨Token.callText indicator name text ++ rest, here⟩ =
      readAt entities indicator d' (String.ofList name)
        ⟨rest, here.after (Token.callText indicator name text)⟩ := by
  obtain ⟨opening, closing, lexemes, same, scanned⟩ :=
    Token.scanText_call allowed inside start written legible here rest
  rw [readAt, scanned, readOn_map, readOn_closed allowed]
  intro more _
  obtain ⟨left, done, eq⟩ := reads opening closing lexemes more same
  rw [read_tag done, eq]

/-- A tag with arguments and a colon in front of the rest. -/
theorem readAt_body (allowed : IndicatorAllowed indicator)
    (inside : ∀ c ∈ name, Text.isNameChar c = true)
    (start : ∀ c, name.head? = some c → Text.isNameStart c = true)
    (written : Token.Written Token.EndsOperand text tokens) (legible : Token.AllLegible tokens)
    {here : Text.Location}
    (reads : ∀ (opening closing mark : Text.Location) (lexemes more : List Lexeme),
      lexemes.map (·.token) = tokens → ∃ left,
        TagSite.read { entities, indicator, tag := String.ofList name, location := here } d
          (⟨.openParen, opening⟩ ::
            (lexemes ++ ⟨.closeParen, closing⟩ :: ⟨.blockMark, mark⟩ :: more)) = .ok (d', left) ∧
        left.1 = more) :
    readAt entities indicator d tag ⟨Token.callText indicator name text ++ ':' :: rest, here⟩ =
      readAt entities indicator d' (String.ofList name)
        ⟨rest, (here.after (Token.callText indicator name text)).next ':'⟩ := by
  obtain ⟨opening, closing, lexemes, same, scanned⟩ :=
    Token.scanText_call allowed inside start written legible here (':' :: rest)
  rw [readAt, scanned]
  simp only [Token.scanClosed, if_pos, Token.map_map]
  rw [readOn_map]
  · rfl
  · intro more _
    obtain ⟨left, done, eq⟩ := reads opening closing _ lexemes more same
    rw [read_tag done, eq]

/-- A named tag that a colon follows. -/
theorem readAt_mark (allowed : IndicatorAllowed indicator) (word : Text.IsName tagName)
    {here : Text.Location}
    (reads : ∀ (mark : Text.Location) (more : List Lexeme), ∃ left,
      TagSite.read { entities, indicator, tag := tagName, location := here } d
        (⟨.blockMark, mark⟩ :: more) = .ok (d', left) ∧ left.1 = more) :
    readAt entities indicator d tag ⟨indicator :: (tagName.toList ++ ':' :: rest), here⟩ =
      readAt entities indicator d' tagName
        ⟨rest, ((here.next indicator).after tagName.toList).next ':'⟩ := by
  have named : Token.NamesTag tagName.toList (':' :: rest) :=
    Token.namesTag_of_isName word fun c => by
      rintro ⟨⟩
      decide
  rw [readAt, Token.scanText_tag allowed named, Token.scanTail_mark, Token.map_map, readOn_map]
  · rfl
  · intro more _
    obtain ⟨left, done, eq⟩ := reads _ more
    rw [String.ofList_toList, read_tag done, eq]

/-- A named tag that nothing belongs to. -/
theorem readAt_bare (allowed : IndicatorAllowed indicator) (word : Text.IsName tagName)
    (stops : ∀ c, rest.head? = some c → extendsTag c = false) {here : Text.Location}
    (reads : ∀ more : List Lexeme, parenFollows more = false → ∃ left,
      TagSite.read { entities, indicator, tag := tagName, location := here } d more =
        .ok (d', left) ∧ left.1 = more) :
    readAt entities indicator d tag ⟨indicator :: (tagName.toList ++ rest), here⟩ =
      readAt entities indicator d' tagName
        ⟨rest, (here.next indicator).after tagName.toList⟩ := by
  have named : Token.NamesTag tagName.toList rest := Token.namesTag_of_isName word fun c first => by
    have other := stops c first
    unfold extendsTag at other
    simp only [Bool.or_eq_false_iff] at other
    simp [Text.isNameChar, other.1.1]
  have text (c : Char) (first : rest.head? = some c) : c ≠ '(' ∧ c ≠ ':' := by
    have other := stops c first
    unfold extendsTag at other
    simp only [Bool.or_eq_false_iff, beq_eq_false_iff_ne] at other
    exact ⟨other.1.2, other.2⟩
  rw [readAt, Token.scanText_tag allowed named, Token.scanTail_plain _ text, readOn_map]
  · rfl
  · intro more scanned
    obtain ⟨left, done, eq⟩ := reads more (Token.parenFollows_of_scanText scanned)
    rw [String.ofList_toList, read_tag done, eq]

theorem readAt_refused (allowed : IndicatorAllowed indicator)
    (inside : ∀ c ∈ name, Text.isNameChar c = true)
    (start : ∀ c, name.head? = some c → Text.isNameStart c = true)
    (written : Token.Written Token.EndsOperand text tokens) (illegible : ¬Token.AllLegible tokens)
    (here : Text.Location) : ∃ e,
      readAt entities indicator d tag ⟨Token.callText indicator name text ++ rest, here⟩ =
        .error e := by
  obtain ⟨e, failed⟩ := Token.scanText_refused allowed inside start written illegible here rest
  exact ⟨.lex e, by rw [readAt, failed]; rfl⟩

end Draft

end Stencil
