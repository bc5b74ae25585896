import Stencil.Parse.Call

/-!
# Argument lists

Reads the tokens of an argument list, from behind its parenthesis up to the one that closes it. Open
parentheses, brackets and calls form a stack of levels. Each level gathers the elements of its
current argument in a row and folds the row when the argument ends; the result of a closed level is
an operand of the level around it.
-/

namespace Stencil

/-- What a level was opened for. -/
inductive LevelKind
  | top
  | call (name : String) (method : Bool)
  | group
  | collection
  | subscript (container : Expr)

/-- What has to come next on a level. -/
inductive Pending
  | nothing
  /-- The point, and then the member, of a scope. -/
  | scope (name : String) (dotted : Bool)
  /-- The name of a member. -/
  | member (receiver : Expr)
  /-- The parenthesis of a call. -/
  | callee (name : String) (receiver : Option Expr)

/-- An open parenthesis, bracket or call. -/
structure Level where
  kind : LevelKind
  tuple : Tuple := []
  /-- The label of the current argument. -/
  label : Option String := none
  /-- The elements of the current argument. -/
  row : List Expr := []
  pending : Pending := .nothing
  afterComma : Bool := false
  /-- A colon alone was read in a collection. -/
  emptyDictionary : Bool := false

namespace Level

/-- Whether the last element is an operand. -/
def lastValued (l : Level) : Bool := l.row.getLast?.any Expr.valued

/-- Adds an element to the current argument. -/
def add (l : Level) (e : Expr) : Level := { l with row := l.row ++ [e], pending := .nothing }

/-- Sets what has to come next. -/
def await (l : Level) (pending : Pending) : Level := { l with pending := pending }

/-- The last element and the level without it. -/
def takeLast? (l : Level) : Option (Expr × Level) :=
  l.row.getLast?.map fun e => (e, { l with row := l.row.dropLast })

/-- The label that the elements read so far would be before a colon: a plain name, or in a
collection also a text. -/
def labelCandidate? (l : Level) : Option String :=
  match l.label, l.row, l.kind with
  | some _, _, _ => none
  | none, [.var v], .top | none, [.var v], .call .. | none, [.var v], .collection =>
    if v.isAtomic then some v.member else none
  | none, [.value (.string s)], .collection => some s
  | none, _, _ => none

/-- The mode in which arguments of a level are folded. -/
def foldMode (mode : FoldMode) (l : Level) : FoldMode :=
  match l.kind with
  | .top => mode
  | _ => .strict

/-- Ends the current argument. -/
def finish (mode : FoldMode) (l : Level) : Except Malformed Level :=
  if l.row.isEmpty then
    match l.label with
    | some label => .error (.labelNeedsValue label)
    | none => if l.afterComma then .error .trailingComma else .ok l
  else if l.emptyDictionary then .error .afterEmptyDictionary
  else
    match Expr.fold (l.foldMode mode) l.row with
    | .error e => .error (.fold e)
    | .ok e =>
      match l.tuple.push? l.label e with
      | some tuple => .ok { l with tuple := tuple, label := none, row := [] }
      | none => .error (.repeatedLabel (l.label.getD ""))

end Level

/-- The one expression between parentheses or brackets. -/
def Tuple.single? : Tuple → Option Expr
  | [(none, e)] => some e
  | _ => none

/-- A member of an operand: a longer path for a variable, an entry for anything else. -/
def Expr.access (receiver : Expr) (name : String) : Except Malformed Expr :=
  match receiver with
  | .var v => .ok (.var (v.extend name))
  | e => (Expr.binary .subscript e (.value (.string name))).folded.mapError .fold

/-- The value of a closed collection. -/
def Level.collected (l : Level) : Except Malformed Expr :=
  if l.emptyDictionary then .ok (.value (.dictionary []))
  else if !l.tuple.isCollection then .error .mixedCollection
  else (Expr.collection l.tuple).folded.mapError .fold

/-- Levels that are open, or the arguments when the last one is closed. -/
inductive Progress
  | finished (t : Tuple)
  | reading (level : Level) (outer : List Level)

namespace Progress

/-- Hands the result of a closed level to the level around it. -/
def give (e : Expr) : List Level → Except Malformed Progress
  | parent :: outer => .ok (.reading (parent.add e) outer)
  | [] => .error .unclosedArguments

/-- Reads a closing parenthesis. -/
def closeParen (r : Entities) (tag : String) (mode : FoldMode) (level : Level)
    (outer : List Level) : Except Fault Progress := do
  let closed ← (level.finish mode).mapError (.malformed tag)
  match closed.kind with
  | .top => return .finished closed.tuple
  | .group =>
    match closed.tuple.single? with
    | some e => (give e outer).mapError (.malformed tag)
    | none => throw (.malformed tag .notOneExpression)
  | .call name method =>
    let e ← r.resolveCall tag name method closed.tuple
    (give e outer).mapError (.malformed tag)
  | .collection | .subscript _ => throw (.malformed tag .bracketClosedByParen)

/-- Reads a closing bracket. -/
def closeBracket (mode : FoldMode) (level : Level) (outer : List Level) :
    Except Malformed Progress := do
  let closed ← level.finish mode
  match closed.kind with
  | .subscript container =>
    match closed.tuple.single? with
    | some key =>
      let e ← (Expr.binary .subscript container key).folded.mapError .fold
      give e outer
    | none => throw .notOneExpression
  | .collection =>
    let e ← closed.collected
    give e outer
  | _ => throw .parenClosedByBracket

/-- Reads a comma. -/
def comma (mode : FoldMode) (level : Level) (outer : List Level) : Except Malformed Progress :=
  match level.kind with
  | .group | .subscript _ => .error .commaNotAllowed
  | _ =>
    if level.row.isEmpty then .error .emptyArgument
    else (level.finish mode).map fun l => .reading { l with afterComma := true } outer

/-- Reads an opening bracket: a subscript behind an operand, otherwise a collection. -/
def openBracket (level : Level) (outer : List Level) : Progress :=
  match level.lastValued, level.takeLast? with
  | true, some (container, parent) =>
    .reading { kind := .subscript container } (parent :: outer)
  | _, _ => .reading { kind := .collection } (level :: outer)

/-- Reads a colon: the end of a label, the mark of the empty dictionary, or an operator. -/
def colon (level : Level) (outer : List Level) : Progress :=
  match level.labelCandidate? with
  | some label => .reading { level with label := some label, row := [] } outer
  | none =>
    match level.kind, level.row, level.tuple with
    | .collection, [], [] => .reading { level with emptyDictionary := true } outer
    | _, _, _ => .reading (level.add (.operator .colon)) outer

/-- Reads a point behind an operand. -/
def point (level : Level) (outer : List Level) : Except Malformed Progress :=
  match level.lastValued, level.takeLast? with
  | true, some (receiver, level) => .ok (.reading (level.await (.member receiver)) outer)
  | _, _ => .error .memberNeedsOperand

/-- Reads an operator symbol. -/
def operator (mode : FoldMode) (op : Operator) (level : Level) (outer : List Level) :
    Except Malformed Progress :=
  match op with
  | .bracketOpen => .ok (openBracket level outer)
  | .bracketClose => closeBracket mode level outer
  | .colon => .ok (colon level outer)
  | .member => point level outer
  | .minus =>
    .ok (.reading (level.add (.operator (if level.lastValued then .minus else .negate))) outer)
  | op => .ok (.reading (level.add (.operator op)) outer)

/-- Reads a name, which is called if a parenthesis follows. -/
def named (name : String) (parenFollows : Bool) (level : Level) (outer : List Level) : Progress :=
  if parenFollows then .reading (level.await (.callee name none)) outer
  else .reading (level.add (.var (.plain name))) outer

/-- Reads a reserved word. -/
def keyword (word : Keyword) (level : Level) (outer : List Level) : Progress :=
  match word with
  | .own => .reading (level.await (.scope Variable.ownScope false)) outer
  | .isTrue => .reading (level.add (.value (.bool true))) outer
  | .isFalse => .reading (level.add (.value (.bool false))) outer
  | .isNil => .reading (level.add (.value .nil)) outer
  | word => .reading (level.add (.keyword word)) outer

/-- Reads a token where nothing particular has to come. -/
def freely (r : Entities) (tag : String) (mode : FoldMode) (token : Token) (parenFollows : Bool)
    (level : Level) (outer : List Level) : Except Fault Progress :=
  match token with
  | .openParen => .ok (.reading { kind := .group } (level :: outer))
  | .closeParen => closeParen r tag mode level outer
  | .comma => (comma mode level outer).mapError (.malformed tag)
  | .operator op => (operator mode op level outer).mapError (.malformed tag)
  | .ident name => .ok (named name parenFollows level outer)
  | .scope name => .ok (.reading (level.await (.scope name false)) outer)
  | .keyword word => .ok (keyword word level outer)
  | .literal data => .ok (.reading (level.add (.value data)) outer)
  | other => .error (.malformed tag (.unexpectedArgument other))

/-- Reads a token. -/
def next (r : Entities) (tag : String) (mode : FoldMode) (token : Token) (parenFollows : Bool)
    (level : Level) (outer : List Level) : Except Fault Progress :=
  match level.pending, token with
  | .nothing, token => freely r tag mode token parenFollows level outer
  | .scope name false, .operator .member => .ok (.reading (level.await (.scope name true)) outer)
  | .scope name true, .ident member =>
    .ok (.reading (level.add (.var (.inScope name member))) outer)
  | .scope _ _, _ => .error (.malformed tag .scopeNeedsMember)
  | .member receiver, .ident name =>
    if parenFollows then .ok (.reading (level.await (.callee name (some receiver))) outer)
    else
      match receiver.access name with
      | .ok e => .ok (.reading (level.add e) outer)
      | .error e => .error (.malformed tag e)
  | .member _, _ => .error (.malformed tag .memberNeedsName)
  | .callee name receiver, .openParen =>
    .ok (.reading
      { kind := .call name receiver.isSome, tuple := Tuple.ofList receiver.toList }
      (level.await .nothing :: outer))
  | .callee _ _, other => .error (.malformed tag (.unexpectedArgument other))

end Progress

/-- Whether an opening parenthesis comes next. -/
def parenFollows : List Lexeme → Bool
  | ⟨.openParen, _⟩ :: _ => true
  | _ => false

/-- Reads on until the last level is closed; gives the arguments and the tokens behind them. -/
def readLevels (r : Entities) (tag : String) (mode : FoldMode) : List Lexeme → Level → List Level →
    Except Fault (Tuple × List Lexeme)
  | [], _, _ => .error (.malformed tag .unclosedArguments)
  | lexeme :: rest, level, outer =>
    match Progress.next r tag mode lexeme.token (parenFollows rest) level outer with
    | .error e => .error e
    | .ok (.finished t) => .ok (t, rest)
    | .ok (.reading level outer) => readLevels r tag mode rest level outer

/-- Reads an argument list from behind its opening parenthesis. -/
def readArguments (r : Entities) (tag : String) (mode : FoldMode) (tokens : List Lexeme) :
    Except Fault (Tuple × List Lexeme) :=
  readLevels r tag mode tokens { kind := .top } []

theorem length_of_readLevels {r : Entities} {tag : String} {mode : FoldMode}
    {tokens rest : List Lexeme} {level : Level} {outer : List Level} {t : Tuple}
    (h : readLevels r tag mode tokens level outer = .ok (t, rest)) :
    rest.length < tokens.length := by
  induction tokens generalizing level outer with
  | nil => cases h
  | cons lexeme tokens ih =>
    simp only [readLevels] at h
    split at h
    · cases h
    · cases h
      simp
    · exact Nat.lt_succ_of_lt (ih h)

/-- An argument list takes at least one token. -/
theorem length_of_readArguments {r : Entities} {tag : String} {mode : FoldMode}
    {tokens rest : List Lexeme} {t : Tuple}
    (h : readArguments r tag mode tokens = .ok (t, rest)) : rest.length < tokens.length :=
  length_of_readLevels h

end Stencil
