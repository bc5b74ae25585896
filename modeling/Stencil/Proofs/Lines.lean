import Stencil.Proofs.ClosedLists
import Stencil.Proofs.OtherTables
import Stencil.Proofs.Replay

/-!
# Sources made of lines

A line of a source is text with expressions in it, or a tag that stands alone on its line: a tag
that opens the body of a block, the end tag of a block, a declaration or an assignment. What is
kept of a line is all of the text, and of a tag that stands alone only the tag.
-/

namespace Stencil

open Text (Location)

/-- A part of a line of text. -/
inductive LinePart
  | text (chars : List Char)
  /-- An expression between its parentheses. -/
  | expression (inside : List Char)

/-- A tag that can stand alone on its line. -/
inductive LineTag
  /-- The tag of a block, with its arguments if it has any, and its colon. -/
  | opener (name : String) (inside : Option (List Char))
  | closer (name : String)
  /-- A declaration or an assignment between its parentheses. -/
  | statement (inside : List Char)

inductive LineEnd
  | lf
  | crlf

/-- A line of a source with its end. -/
inductive Line
  | content (parts : List LinePart) (ending : LineEnd)
  | standalone (before : List Char) (tag : LineTag) (after : List Char) (ending : LineEnd)

namespace Token

/-- The tokens of a text between parentheses, if it is an argument list of its own: the parenthesis
behind it closes the list, and no other does. -/
def listTokens? (indicator : Char) (inside : List Char) : Option (List Lexeme) :=
  match scanArguments indicator 0 ⟨inside ++ [')'], {}⟩ with
  | .ok tokens => if (behindList? 0 tokens).any List.isEmpty then some tokens else none
  | .error _ => none

end Token

/-- The blocks whose tags can stand alone on a line. -/
def lineBlocks : List String := ["if", "elseif", "else", "for", "while"]

def LineEnd.text : LineEnd → List Char
  | lf => ['\n']
  | crlf => ['\r', '\n']

namespace LinePart

def source (indicator : Char) : LinePart → List Char
  | text chars => chars
  | expression inside => Token.callText indicator [] inside

/-- Text holds neither indicator nor backslash, and no line feed. An expression is neither
declaration nor assignment. -/
def Formed (indicator : Char) : LinePart → Prop
  | text chars => ∀ c ∈ chars, c ≠ indicator ∧ c ≠ '\\' ∧ c ≠ '\n'
  | expression inside =>
    (Token.listTokens? indicator inside).any (!TagSite.changesVariable ·) = true

instance (indicator : Char) : (part : LinePart) → Decidable (part.Formed indicator)
  | text chars => List.decidableBAll (fun c => c ≠ indicator ∧ c ≠ '\\' ∧ c ≠ '\n') chars
  | expression inside => inferInstanceAs (Decidable
    ((Token.listTokens? indicator inside).any (!TagSite.changesVariable ·) = true))

end LinePart

namespace LineTag

def source (indicator : Char) : LineTag → List Char
  | opener name none => indicator :: (name.toList ++ [':'])
  | opener name (some inside) => Token.callText indicator name.toList inside ++ [':']
  | closer name => indicator :: ("end" ++ name).toList
  | statement inside => Token.callText indicator [] inside

def Formed (indicator : Char) : LineTag → Prop
  | opener name none => name ∈ lineBlocks
  | opener name (some inside) =>
    name ∈ lineBlocks ∧ (Token.listTokens? indicator inside).isSome = true
  | closer name => name ∈ lineBlocks
  | statement inside => (Token.listTokens? indicator inside).any TagSite.changesVariable = true

instance (indicator : Char) : (tag : LineTag) → Decidable (tag.Formed indicator)
  | opener name none | closer name => inferInstanceAs (Decidable (name ∈ lineBlocks))
  | opener name (some inside) => inferInstanceAs (Decidable
    (name ∈ lineBlocks ∧ (Token.listTokens? indicator inside).isSome = true))
  | statement inside => inferInstanceAs (Decidable
    ((Token.listTokens? indicator inside).any TagSite.changesVariable = true))

end LineTag

namespace Line

def source (indicator : Char) : Line → List Char
  | content parts ending => parts.flatMap (·.source indicator) ++ ending.text
  | standalone before tag after ending =>
    before ++ (tag.source indicator ++ (after ++ ending.text))

/-- Around a tag that stands alone there are only spaces and tabs. -/
def Formed (indicator : Char) : Line → Prop
  | content parts _ => ∀ part ∈ parts, part.Formed indicator
  | standalone before tag after _ =>
    (∀ c ∈ before ++ after, c = ' ' ∨ c = '\t') ∧ tag.Formed indicator

instance (indicator : Char) : (line : Line) → Decidable (line.Formed indicator)
  | content parts _ => List.decidableBAll (fun part : LinePart => part.Formed indicator) parts
  | standalone before tag after _ =>
    have := List.decidableBAll (fun c => c = ' ' ∨ c = '\t') (before ++ after)
    inferInstanceAs (Decidable
      ((∀ c ∈ before ++ after, c = ' ' ∨ c = '\t') ∧ tag.Formed indicator))

/-- What is kept of a line that starts at a place. -/
def kept (indicator : Char) (here : Location) : Line → Cursor
  | content parts ending => ⟨(content parts ending).source indicator, here⟩
  | standalone before tag _ _ => ⟨tag.source indicator, here.after before⟩

end Line

/-- The source of lines. -/
def linesSource (indicator : Char) (lines : List Line) : List Char :=
  lines.flatMap (·.source indicator)

/-- The tokens of what is kept of lines, each where it stands in the source of all. -/
def keptTokens (indicator : Char) : Location → List Line → Except LexError (List Lexeme)
  | _, [] => .ok []
  | here, line :: lines => do
    let tokens ← Token.scanText indicator (line.kept indicator here)
    let more ← keptTokens indicator (here.after (line.source indicator)) lines
    return tokens ++ more

namespace Token

variable {indicator : Char} {inside : List Char} {tokens : List Lexeme}

theorem of_listTokens? (h : listTokens? indicator inside = some tokens) :
    scanArguments indicator 0 ⟨inside ++ [')'], {}⟩ = .ok tokens ∧
      behindList? 0 tokens = some [] := by
  unfold listTokens? at h
  split at h
  · rename_i found read
    split at h
    · rename_i whole
      cases h
      refine ⟨read, ?_⟩
      cases ends : behindList? 0 tokens with
      | none =>
        rw [ends] at whole
        cases whole
      | some left =>
        rw [ends] at whole
        rw [List.isEmpty_iff.mp whole]
    · cases h
  · cases h

/-- An argument list of its own is scanned in the same way wherever it stands. -/
theorem scanArguments_of_listTokens? (h : listTokens? indicator inside = some tokens)
    (here : Location) : ∃ lexemes : List Lexeme, lexemes.map (·.token) = tokens.map (·.token) ∧
      behindList? 0 lexemes = some [] ∧
      ∀ rest, scanArguments indicator 0 ⟨inside ++ ')' :: rest, here⟩ =
        (scanClosed indicator ⟨rest, here.after (inside ++ [')'])⟩).map (lexemes ++ ·) := by
  obtain ⟨read, ends⟩ := of_listTokens? h
  obtain ⟨lexemes, same, reads⟩ :=
    closesAs_of_scanArguments read ends here
  exact ⟨lexemes, same, behindList?_of_same same ends, reads 0⟩

/-- A tag in front of text is scanned to its name, to tokens that belong to it, and to what the
text is scanned to. -/
inductive SpellsTag (indicator : Char) (source : List Char) (name : String) (here : Location)
    (tokens : List Lexeme) (rest : List Char) : Prop
  | closed (scanned : scanText indicator ⟨source ++ rest, here⟩ =
      (scanClosed indicator ⟨rest, here.after source⟩).map
        fun more => ⟨.tag name, here⟩ :: (tokens ++ more))
  | plain (scanned : scanText indicator ⟨source ++ rest, here⟩ =
      (scanText indicator ⟨rest, here.after source⟩).map
        fun more => ⟨.tag name, here⟩ :: (tokens ++ more))

variable {name : List Char} (allowed : IndicatorAllowed indicator)
  (chars : ∀ c ∈ name, Text.isNameChar c = true)
  (start : ∀ c, name.head? = some c → Text.isNameStart c = true)

include allowed chars start

/-- A tag with an argument list of its own. -/
theorem scanText_list {lexemes : List Lexeme} {here : Location}
    (list : ∀ rest, scanArguments indicator 0
        ⟨inside ++ ')' :: rest, ((here.next indicator).after name).next '('⟩ =
      (scanClosed indicator ⟨rest, (((here.next indicator).after name).next '(').after
        (inside ++ [')'])⟩).map (lexemes ++ ·)) (rest : List Char) :
    scanText indicator ⟨callText indicator name inside ++ rest, here⟩ =
      (scanClosed indicator ⟨rest, here.after (callText indicator name inside)⟩).map fun more =>
        ⟨.tag (String.ofList name), here⟩ ::
          (⟨.openParen, (here.next indicator).after name⟩ :: lexemes ++ more) := by
  rw [callText_append, scanText_tag allowed (namesTag_paren chars start _), scanTail_paren, list,
    map_map, map_map]
  simp [callText]

theorem spellsTag_list {lexemes : List Lexeme} {here : Location}
    (list : ∀ rest, scanArguments indicator 0
        ⟨inside ++ ')' :: rest, ((here.next indicator).after name).next '('⟩ =
      (scanClosed indicator ⟨rest, (((here.next indicator).after name).next '(').after
        (inside ++ [')'])⟩).map (lexemes ++ ·)) (rest : List Char) :
    SpellsTag indicator (callText indicator name inside) (String.ofList name) here
      (⟨.openParen, (here.next indicator).after name⟩ :: lexemes) rest :=
  .closed (scanText_list allowed chars start list rest)

/-- A tag with an argument list of its own and a colon. -/
theorem spellsTag_body {lexemes : List Lexeme} {here : Location}
    (list : ∀ rest, scanArguments indicator 0
        ⟨inside ++ ')' :: rest, ((here.next indicator).after name).next '('⟩ =
      (scanClosed indicator ⟨rest, (((here.next indicator).after name).next '(').after
        (inside ++ [')'])⟩).map (lexemes ++ ·)) (rest : List Char) :
    SpellsTag indicator (callText indicator name inside ++ [':']) (String.ofList name) here
      (⟨.openParen, (here.next indicator).after name⟩ :: (lexemes ++
        [⟨.blockMark, here.after (callText indicator name inside)⟩])) rest := by
  refine .plain ?_
  rw [List.append_assoc, List.singleton_append, scanText_list allowed chars start list, scanClosed,
    if_pos rfl, map_map, Location.after_append]
  simp

omit chars start in
/-- A named tag with a colon. -/
theorem spellsTag_mark {word : String} (named : Text.IsName word) (here : Location)
    (rest : List Char) : SpellsTag indicator (indicator :: (word.toList ++ [':'])) word here
      [⟨.blockMark, (here.next indicator).after word.toList⟩] rest := by
  have names : NamesTag word.toList (':' :: rest) := namesTag_of_isName named fun c => by
    rintro ⟨⟩
    decide
  refine .plain ?_
  have split : indicator :: (word.toList ++ [':']) ++ rest =
      indicator :: (word.toList ++ ':' :: rest) := by simp
  rw [split, scanText_tag allowed names, scanTail_mark, map_map, String.ofList_toList]
  simp

omit chars start in
/-- A named tag alone. -/
theorem spellsTag_bare {word : String} (named : Text.IsName word) (here : Location)
    {rest : List Char} (stops : ∀ c, rest.head? = some c → extendsTag c = false) :
    SpellsTag indicator (indicator :: word.toList) word here [] rest := by
  have behind (c : Char) (first : rest.head? = some c) :
      Text.isNameChar c = false ∧ c ≠ '(' ∧ c ≠ ':' := by
    have other := stops c first
    unfold extendsTag at other
    simp only [Bool.or_eq_false_iff, beq_eq_false_iff_ne] at other
    exact ⟨by simp [Text.isNameChar, other.1.1], other.1.2, other.2⟩
  refine .plain ?_
  rw [List.cons_append, scanText_tag allowed
    (namesTag_of_isName named fun c first => (behind c first).1),
    scanTail_plain _ fun c first => (behind c first).2, String.ofList_toList]
  rfl

end Token

section Lists

variable {r : Entities} {tag : String} {mode : FoldMode} {lexemes tokens : List Lexeme}

theorem parenFollows_of_same (same : lexemes.map (·.token) = tokens.map (·.token)) :
    parenFollows lexemes = parenFollows tokens := by
  cases tokens with
  | nil =>
    rw [List.map_nil, List.map_eq_nil_iff] at same
    rw [same]
  | cons first tokens =>
    obtain ⟨token, place⟩ := first
    obtain ⟨⟨token', place'⟩, rest, rfl, rfl, -⟩ := List.map_eq_cons_iff.mp same
    cases token' <;> rfl

/-- What levels are read as depends on the tokens alone. -/
theorem readLevels_same (same : lexemes.map (·.token) = tokens.map (·.token)) (level : Level)
    (outer : List Level) : (readLevels r tag mode lexemes level outer).map Prod.fst =
      (readLevels r tag mode tokens level outer).map Prod.fst := by
  induction tokens generalizing lexemes level outer with
  | nil =>
    rw [List.map_nil, List.map_eq_nil_iff] at same
    rw [same]
  | cons first tokens ih =>
    obtain ⟨lexeme, rest, rfl, token, behind⟩ := List.map_eq_cons_iff.mp same
    simp only [readLevels, token, parenFollows_of_same behind]
    split
    · rfl
    · rfl
    · exact ih behind _ _

theorem changesVariable_same (same : lexemes.map (·.token) = tokens.map (·.token)) :
    TagSite.changesVariable lexemes = TagSite.changesVariable tokens := by
  have heads : (lexemes.head?.any fun first => TagSite.isDeclaration first.token) =
      (tokens.head?.any fun first => TagSite.isDeclaration first.token) := by
    have first := congrArg (fun tokens => tokens.head?.any TagSite.isDeclaration) same
    simpa only [List.head?_map, Option.any_map, Function.comp_def] using first
  have read : (readArguments .core "" .assignment lexemes).map Prod.fst =
      (readArguments .core "" .assignment tokens).map Prod.fst := readLevels_same same _ _
  unfold TagSite.changesVariable
  rw [heads]
  generalize readArguments .core "" .assignment lexemes = found at read ⊢
  generalize readArguments .core "" .assignment tokens = found' at read ⊢
  cases found with
  | error e => cases found' <;> first | rfl | cases read
  | ok found =>
    cases found' with
    | error e => cases read
    | ok found' =>
      have same : found.1 = found'.1 := Except.ok.inj read
      dsimp only
      rw [same]

end Lists

end Stencil
