import Stencil.Proofs.PairedReading
import Stencil.Proofs.ProvidedValues
import Stencil.Proofs.RereadTags
import Stencil.Proofs.TagPlaces

/-!
# Compound assignments

A compound assignment in a source is the assignment of its operation
(`Template.compound_assignment_is_longhand`). The lexer reads the source up to the tag and behind it
in the same way for the assignment and its longhand, the readings of the two argument lists do the
same to the draft but for the node and its longhand, and the two nodes do the same to every state
that a rendering reaches.
-/

namespace Stencil

namespace TagSite

variable {site : TagSite} {mode : FoldMode} {inside : List Lexeme} {opening : Text.Location}

/-- Arguments that are not one argument without label. -/
theorem readSingle_error_of_several (otherwise : Malformed)
    (several : ∀ t left, readArguments site.entities site.tag mode inside = .ok (t, left) →
      t.single? = none) :
    ∃ fault, site.readSingle mode (⟨.openParen, opening⟩ :: inside) otherwise = .error fault := by
  cases read : readArguments site.entities site.tag mode inside with
  | error fault => exact ⟨fault, readSingle_error site opening read otherwise⟩
  | ok found =>
    obtain ⟨t, rest⟩ := found
    obtain ⟨left, tuple, -⟩ := readTuple_of opening read
    refine ⟨.malformed site.tag otherwise, ?_⟩
    unfold readSingle
    rw [tuple]
    simp only [bind, Except.bind, several t rest read]
    rfl

/-- An assignment that is the one argument of an anonymous tag. -/
theorem readAnonymous_assign (site : TagSite) (opening : Text.Location) (d : Draft) {v : Variable}
    {op : Operator} {value : Expr} {rest : List Lexeme}
    (plain : ∀ l, inside.head? = some l → ¬declares l.token)
    (read : readArguments site.entities site.tag .assignment inside =
      .ok ([(none, .sequence [.var v, .operator op, value])], rest)) :
    ∃ left : Remaining (⟨.openParen, opening⟩ :: inside), left.1 = rest ∧
      site.readAnonymous d (⟨.openParen, opening⟩ :: inside) =
        (assign d v op value).map (·, left) := by
  obtain ⟨left, single, eq⟩ := readSingle_of site opening read .notOneAnonymous
  refine ⟨left, eq, ?_⟩
  rw [readAnonymous_of plain, single]
  simp only [bind, Except.bind]
  cases assign d v op value <;> rfl

/-- Arguments that are not one argument without label are no anonymous tag. -/
theorem readAnonymous_error (site : TagSite) (opening : Text.Location) (d : Draft)
    (plain : ∀ l, inside.head? = some l → ¬declares l.token)
    (several : ∀ t left, readArguments site.entities site.tag .assignment inside = .ok (t, left) →
      t.single? = none) :
    ∃ fault, site.readAnonymous d (⟨.openParen, opening⟩ :: inside) = .error fault := by
  obtain ⟨fault, single⟩ := readSingle_error_of_several .notOneAnonymous several
  refine ⟨fault, ?_⟩
  rw [readAnonymous_of plain, single]
  rfl

end TagSite

/-- An argument list of its own is read in front of other tokens as it is alone. -/
theorem readArguments_front (r : Entities) (tag : String) (mode : FoldMode)
    {tokens : List Lexeme} (ends : Token.behindList? 0 tokens = some []) (more : List Lexeme) :
    readArguments r tag mode (tokens ++ more) =
      (readArguments r tag mode tokens).map fun (t, left) => (t, left ++ more) :=
  readLevels_append (.list rfl) ends more

theorem several_front {r : Entities} {tag : String} {mode : FoldMode} {tokens : List Lexeme}
    (ends : Token.behindList? 0 tokens = some []) (more : List Lexeme)
    (several : ∀ t left, readArguments r tag mode tokens = .ok (t, left) → t.single? = none) :
    ∀ t left, readArguments r tag mode (tokens ++ more) = .ok (t, left) → t.single? = none := by
  intro t left read
  rw [readArguments_front r tag mode ends more] at read
  generalize readArguments r tag mode tokens = alone at several read
  cases alone with
  | error => cases read
  | ok found =>
    cases read
    exact several _ _ rfl

/-- Inside another argument list, a list is closed where it is alone. -/
theorem Token.behindList?_inside {tokens left : List Lexeme} {depth : Nat}
    (ends : behindList? depth tokens = some left) (more : List Lexeme) :
    behindList? (depth + 1) (tokens ++ more) = behindList? 0 (left ++ more) := by
  induction tokens generalizing depth with
  | nil => cases ends
  | cons lexeme tokens ih =>
    obtain ⟨token, place⟩ := lexeme
    cases token with
    | openParen => exact ih ends
    | closeParen =>
      cases depth with
      | zero =>
        cases ends
        rfl
      | succ depth => exact ih ends
    | _ => exact ih ends

section Sites

variable {op base : Operator} {x : String} {short long more more' : List Lexeme}
  {value : List Token} (assignment : short.map (·.token) = Token.ofAssignment x op value)
  (longhand : long.map (·.token) = Token.ofLonghand x base value)
  (ends : Token.behindList? 0 short = some [])

include assignment longhand ends

/-- If an assignment is an argument list of its own, so is its longhand. -/
theorem behindList?_longhand : Token.behindList? 0 long = some [] := by
  let placed : Token → Lexeme := (⟨·, {}⟩)
  have tokens (list : List Token) : (list.map placed).map (·.token) = list := by
    rw [List.map_map]
    exact List.map_id list
  have own : Token.behindList? 0 ((Token.ofAssignment x op value).map placed) = some [] :=
    Token.behindList?_of_same (by rw [tokens, assignment]) ends
  have inside : Token.behindList? 0 ((Token.ofLonghand x base value).map placed) = some [] := by
    change Token.behindList? 1 ((value ++ [Token.closeParen]).map placed) = some []
    rw [List.map_append]
    exact Token.behindList?_inside own [placed .closeParen]
  exact Token.behindList?_of_same (by rw [tokens, longhand]) inside

/-- A compound assignment and its longhand do the same to drafts that match. -/
theorem Draft.pairedSite_longhand (entities : Entities) (indicator : Char)
    (compound : op.compoundBase? = some base) (behind : more'.map (·.token) = more.map (·.token)) :
    PairedSite entities indicator (short ++ more) (long ++ more') := by
  intro d d' here there opens opens' h
  have ends' := behindList?_longhand assignment longhand ends
  have closes := readArguments_front entities "" .assignment ends more
  have closes' := readArguments_front entities "" .assignment ends' more'
  have plain {list : List Lexeme} {tokens : List Token}
      (starts : list.map (·.token) = .ident x :: tokens) (more : List Lexeme) :
      ∀ l, (list ++ more).head? = some l → ¬TagSite.declares l.token := by
    obtain ⟨first, rest, rfl, word, -⟩ := List.map_eq_cons_iff.mp starts
    rintro l ⟨⟩
    simp [TagSite.declares, word]
  rw [TagSite.read_anonymous rfl, TagSite.read_anonymous rfl]
  rcases readArguments_longhand entities "" compound assignment longhand ends with
    ⟨e, read, read'⟩ | ⟨several, fault, failed⟩
  · rw [read] at closes
    rw [read'] at closes'
    obtain ⟨left, eq, short⟩ := TagSite.readAnonymous_assign ⟨entities, indicator, "", here⟩
      opens d (plain assignment more) closes
    obtain ⟨left', eq', long⟩ := TagSite.readAnonymous_assign ⟨entities, indicator, "", there⟩
      opens' d' (plain longhand more') closes'
    rw [short, long]
    refine (TagSite.paired_assign_longhand h compound x e).map fun _ _ h => ⟨h, ?_⟩
    rw [eq, eq']
    exact .of_same behind
  · have refused : ∀ t left,
        readArguments entities "" .assignment long = .ok (t, left) → t.single? = none := by
      rw [failed]
      rintro t left ⟨⟩
    obtain ⟨_, short⟩ := TagSite.readAnonymous_error ⟨entities, indicator, "", here⟩ opens d
      (plain assignment more) (several_front ends more several)
    obtain ⟨_, long⟩ := TagSite.readAnonymous_error ⟨entities, indicator, "", there⟩ opens' d'
      (plain longhand more') (several_front ends' more' refused)
    rw [short, long]
    exact .failed _ _

end Sites

namespace Token

/-- The operator of a compound assignment is not made longer by anything. -/
theorem written_compound {op base : Operator} (compound : op.compoundBase? = some base) :
    Written Anything op.symbol.toList [.operator op] := by
  refine written_operator fun rest _ => ?_
  cases op with
  | plusAssign | minusAssign | multiplyAssign | divideAssign | moduloAssign => rfl
  | _ => cases compound

theorem endsName_compound {op base : Operator} (compound : op.compoundBase? = some base)
    (rest : List Char) : EndsName (op.symbol.toList ++ rest) := by
  cases op with
  | plusAssign | minusAssign | multiplyAssign | divideAssign | moduloAssign =>
    rintro c ⟨⟩
    decide
  | _ => cases compound

end Token

/-- A compound assignment as it is written between the parentheses of a tag: a name, with blanks
around it, the operator, and a value that is an argument list of its own. -/
structure CompoundAssignment (indicator : Char) where
  name : String
  op : Operator
  base : Operator
  margin : List Char
  gap : List Char
  value : List Char
  isName : Text.IsName name
  free : Keyword.ofWord? name = none
  compound : op.compoundBase? = some base
  blank : ∀ c ∈ margin ++ gap, Text.isBlank c = true
  closed : (Token.listTokens? indicator value).isSome = true

namespace CompoundAssignment

open Token

variable {indicator : Char} (a : CompoundAssignment indicator)

/-- What stands in front of the value. -/
def front : List Char := a.margin ++ (a.name.toList ++ (a.gap ++ a.op.symbol.toList))

/-- What stands in front of the value in longhand: the variable is assigned the operation on it. -/
def longFront : List Char :=
  a.name.toList ++ (' ' :: (Operator.assign.symbol.toList ++ [' ']) ++
    (a.name.toList ++ ' ' :: (a.base.symbol.toList ++ [' '])))

/-- The assignment between the parentheses of the tag. -/
def text : List Char := a.front ++ a.value

/-- The assignment in longhand, with the value in parentheses. -/
def longhand : List Char := a.longFront ++ '(' :: (a.value ++ [')'])

theorem written_front : Written Anything a.front [.ident a.name, .operator a.op] := by
  have margin := written_blanks fun c mem => a.blank c (List.mem_append_left _ mem)
  have gap := written_blanks fun c mem => a.blank c (List.mem_append_right _ mem)
  refine margin.andThen ((written_ident a.isName a.free).append
    (gap.andThen (written_compound a.compound)) fun rest _ => ?_)
  -- neither a blank nor the operator goes on with the name
  have blank := fun c mem => a.blank c (List.mem_append_right a.margin mem)
  generalize a.gap = gap at blank
  cases gap with
  | nil => exact endsName_compound a.compound rest
  | cons d gap =>
    rintro c ⟨⟩
    rw [← Bool.not_eq_true]
    intro inName
    exact absurd (blank d List.mem_cons_self) (by simp [not_blank_of_nameChar inName])

theorem written_longFront : Written Anything a.longFront
    [.ident a.name, .operator .assign, .ident a.name, .operator a.base] := by
  have known : a.base ∈ Operator.lexable := by
    have compound := a.compound
    generalize a.base = base at compound ⊢
    generalize a.op = op at compound
    cases op <;> cases compound <;> decide
  have word := written_ident a.isName a.free
  have ends (text rest : List Char) : EndsName (' ' :: text ++ rest) := by
    rintro c ⟨⟩
    decide
  have operation := word.append (written_spaced known) fun rest _ => ends _ rest
  have assigns := written_spaced (by decide : Operator.assign ∈ Operator.lexable)
  exact word.append (assigns.andThen operation) fun rest _ => ends _ rest

section Scans

variable {value : List Token} (closes : ClosesAs indicator 0 a.value value)
  (here : Text.Location) (rest : List Char)

include closes

/-- The assignment is scanned up to the parenthesis of its tag. -/
theorem scanArguments_text : ∃ (lexemes : List Lexeme) (place : Text.Location),
    lexemes.map (·.token) = Token.ofAssignment a.name a.op value ∧
      scanArguments indicator 0 ⟨a.text ++ ')' :: rest, here⟩ =
        (scanClosed indicator ⟨rest, place⟩).map (lexemes ++ ·) := by
  obtain ⟨first, same, read⟩ := a.written_front.read (by simp [Legible]) indicator 0 here
    (a.value ++ ')' :: rest) trivial
  obtain ⟨behind, same', reads⟩ := closes (here.after a.front)
  have reads := reads 0 rest
  rw [Nat.add_zero] at reads
  refine ⟨first ++ behind, (here.after a.front).after (a.value ++ [')']), ?_, ?_⟩
  · rw [List.map_append, same, same']
    rfl
  · rw [text, List.append_assoc, read, reads, map_map]
    simp only [List.append_assoc, scanBehindClose]

/-- The longhand is scanned up to the parenthesis of its tag. -/
theorem scanArguments_longhand : ∃ (lexemes : List Lexeme) (place : Text.Location),
    lexemes.map (·.token) = Token.ofLonghand a.name a.base value ∧
      scanArguments indicator 0 ⟨a.longhand ++ ')' :: rest, here⟩ =
        (scanClosed indicator ⟨rest, place⟩).map (lexemes ++ ·) := by
  obtain ⟨first, same, read⟩ := a.written_longFront.read (by simp [Legible]) indicator 0 here
    ('(' :: (a.value ++ ')' :: ')' :: rest)) trivial
  let opening := here.after a.longFront
  obtain ⟨behind, same', reads⟩ := closes (opening.next '(')
  have reads := reads 1 (')' :: rest)
  let closing := (opening.next '(').after (a.value ++ [')'])
  refine ⟨first ++ ⟨.openParen, opening⟩ :: (behind ++ [⟨.closeParen, closing⟩]),
    closing.next ')', ?_, ?_⟩
  · simp [same, same', Token.ofLonghand, Token.ofAssignment]
  · have split : a.longhand ++ ')' :: rest =
        a.longFront ++ '(' :: (a.value ++ ')' :: ')' :: rest) := by simp [longhand]
    rw [split, read, scanArguments_open, reads, scanBehindClose, scanArguments_close,
      scanBehindClose, map_map, map_map, map_map]
    simp only [List.append_assoc, List.cons_append, List.nil_append]
    rfl

end Scans

end CompoundAssignment

/-- A source with an anonymous tag in it. -/
def sourceAround (indicator : Char) (before inside behind : List Char) : String :=
  String.ofList (before ++ indicator :: '(' :: (inside ++ ')' :: behind))

namespace Template

open Token

variable {config : Config} {before : List Char}

/-- A source with a compound assignment in it, and the source with its longhand, make templates that
are the same in longhand, or none. -/
theorem paired_parse (start : TagStart config.indicator) (place : TagPlace config.indicator before)
    (entities : Entities) (name : String) (a : CompoundAssignment config.indicator)
    (behind : List Char) :
    Paired (fun t t' => t.longhand = t'.longhand)
      (parse entities config name (sourceAround config.indicator before a.text behind))
      (parse entities config name (sourceAround config.indicator before a.longhand behind)) := by
  obtain ⟨front, reads⟩ := place.readsUpTo start
  obtain ⟨tokens, listed⟩ := Option.isSome_iff_exists.mp a.closed
  obtain ⟨read, ends⟩ := of_listTokens? listed
  have closes := closesAs_of_scanArguments read ends
  let inside := ((({} : Text.Location).after before).next config.indicator).next '('
  obtain ⟨short, here, assignment, scanned⟩ := a.scanArguments_text closes inside behind
  obtain ⟨long, there, longhand, scanned'⟩ := a.scanArguments_longhand closes inside behind
  -- up to the tag both sources are scanned in the same way, and behind it to the same tokens
  have whole (list : List Char) :
      scan config.indicator (sourceAround config.indicator before list behind) =
        (scanArguments config.indicator 0 ⟨list ++ ')' :: behind, inside⟩).map fun more =>
          front ++ ⟨.tag "", ({} : Text.Location).after before⟩ ::
            ⟨.openParen, (({} : Text.Location).after before).next config.indicator⟩ :: more := by
    unfold scan Cursor.start sourceAround
    rw [String.toList_ofList]
    exact reads _
  have own : behindList? 0 short = some [] := by
    let front : List Lexeme := [⟨.ident a.name, {}⟩, ⟨.operator a.op, {}⟩]
    have whole : behindList? 0 (front ++ tokens) = some [] := ends
    refine behindList?_of_same ?_ whole
    rw [assignment]
    rfl
  have same := @scanClosed_anywhere config.indicator behind here there
  unfold parse
  rw [whole, whole, scanned, scanned', map_map, map_map]
  generalize scanClosed config.indicator ⟨behind, here⟩ = more at same
  generalize scanClosed config.indicator ⟨behind, there⟩ = more' at same
  cases same with
  | failed => exact .failed _ _
  | done same =>
    have site := Draft.pairedSite_longhand assignment longhand own entities config.indicator
      a.compound same
    exact (paired_ofTokens site ((SideBySide.site _ _ _ _).behind front)).mapError _ _

/-- A template with some splices in it, put in one after the other. -/
def withSplices (t : Template) (splices : List Splice) : Template :=
  splices.foldl (fun t s => (s.into t).1) t

theorem longhand_withSplices {t t' : Template} (same : t.longhand = t'.longhand)
    (splices : List Splice) :
    (t.withSplices splices).longhand = (t'.withSplices splices).longhand := by
  induction splices generalizing t t' with
  | nil => exact same
  | cons s splices ih =>
    refine ih ?_
    rw [← s.into_longhand, ← s.into_longhand, same]

theorem assembled_withSplices {t : Template} (h : t.Assembled ParsedCore) {splices : List Splice}
    (parts : ∀ name part, .template name part ∈ splices → part.Assembled ParsedCore) :
    (t.withSplices splices).Assembled ParsedCore := by
  induction splices generalizing t with
  | nil => exact h
  | cons s splices ih =>
    refine ih ?_ fun name part mem => parts name part (.tail _ mem)
    cases s with
    | template name part => exact .inlineTemplate name h (parts name part List.mem_cons_self)
    | raw name text => exact .inlineRaw name text h

/-- A compound assignment in a source is the assignment of its operation: the source with the
longhand in its place is parsed as well or is not parsed either, requires the same variables and
files, and is rendered in the same way, with any splices in it, in any context and configuration. -/
theorem compound_assignment_is_longhand (admitted : Config.admitsIndicator config.indicator = true)
    (place : TagPlace config.indicator before) (name : String)
    (a : CompoundAssignment config.indicator) (behind : List Char) :
    (parse .core config name (sourceAround config.indicator before a.text behind)).isOk =
      (parse .core config name (sourceAround config.indicator before a.longhand behind)).isOk ∧
    ∀ t t', parse .core config name (sourceAround config.indicator before a.text behind) = .ok t →
      parse .core config name (sourceAround config.indicator before a.longhand behind) = .ok t' →
      t'.required = t.required ∧ t'.templates = t.templates ∧ t'.raws = t.raws ∧
      ∀ splices, (∀ file part, .template file part ∈ splices → part.Assembled ParsedCore) →
      ∀ json context, Context.ofJson json = .ok context → ∀ configuration encoder,
        Rendering.render ⟨t'.withSplices splices, context, configuration⟩ encoder =
          Rendering.render ⟨t.withSplices splices, context, configuration⟩ encoder := by
  have start := Config.tagStart_of_admits admitted
  have paired := paired_parse start place .core name a behind
  refine ⟨paired.isOk_eq, fun t t' parsed parsed' => ?_⟩
  rw [parsed, parsed'] at paired
  cases paired with
  | done same =>
    have kept {α : Type} (f : Template → α) : f t'.longhand = f t.longhand := by rw [same]
    refine ⟨kept Template.required, kept Template.templates, kept Template.raws, ?_⟩
    intro splices parts json context given configuration encoder
    have sound := Context.sound_of_ofJson given
    have assembled := assembled_withSplices (.given ⟨config, name, _, parsed⟩) parts
    have assembled' := assembled_withSplices (.given ⟨config, name, _, parsed'⟩) parts
    calc Rendering.render ⟨t'.withSplices splices, context, configuration⟩ encoder
        = Rendering.render ⟨(t'.withSplices splices).longhand, context, configuration⟩ encoder :=
          (render_longhand assembled' sound configuration encoder).symm
      _ = Rendering.render ⟨(t.withSplices splices).longhand, context, configuration⟩ encoder := by
          rw [longhand_withSplices same]
      _ = Rendering.render ⟨t.withSplices splices, context, configuration⟩ encoder :=
          render_longhand assembled sound configuration encoder

/-- A product with a sum, which is put in parentheses. -/
theorem compound_assignment_is_longhand_product : ∃ page page',
    parse .core {} "page" "#(var n = 1)#(n *= n + 1)#(n)" = .ok page ∧
    parse .core {} "page" "#(var n = 1)#(n = n * ( n + 1))#(n)" = .ok page' ∧
    page'.required = page.required ∧
    ∀ json context, Context.ofJson json = .ok context → ∀ configuration encoder,
      Rendering.render ⟨page', context, configuration⟩ encoder =
        Rendering.render ⟨page, context, configuration⟩ encoder := by
  let a : CompoundAssignment '#' :=
    { name := "n"
      op := .multiplyAssign
      base := .multiply
      margin := []
      gap := [' ']
      value := " n + 1".toList
      isName := ⟨'n', [], rfl, by decide, by simp⟩
      free := by decide
      compound := rfl
      blank := List.forall_mem_singleton.mpr (by decide)
      closed := by decide +kernel }
  have place : TagPlace '#' "#(var n = 1)".toList := @tagPlace_of_scan _ _ [] (by decide +kernel)
  have text : sourceAround '#' "#(var n = 1)".toList a.text "#(n)".toList =
      "#(var n = 1)#(n *= n + 1)#(n)" := by decide +kernel
  have longhand : sourceAround '#' "#(var n = 1)".toList a.longhand "#(n)".toList =
      "#(var n = 1)#(n = n * ( n + 1))#(n)" := by decide +kernel
  have read : ((parse .core {} "page" "#(var n = 1)#(n *= n + 1)#(n)").toOption.any
      fun _ => true) = true := by decide +kernel
  have read' : ((parse .core {} "page" "#(var n = 1)#(n = n * ( n + 1))#(n)").toOption.any
      fun _ => true) = true := by decide +kernel
  obtain ⟨page, parsed, -⟩ := ok_of_any read
  obtain ⟨page', parsed', -⟩ := ok_of_any read'
  obtain ⟨-, same⟩ :=
    @compound_assignment_is_longhand {} _ (by decide) place "page" a "#(n)".toList
  obtain ⟨required, -, -, renders⟩ :=
    same page page' (by rw [text, parsed]) (by rw [longhand, parsed'])
  exact ⟨page, page', parsed, parsed', required,
    fun json context given => renders [] (by simp) json context given⟩

end Template

end Stencil
