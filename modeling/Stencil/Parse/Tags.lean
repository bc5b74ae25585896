import Stencil.Parse.Arguments
import Stencil.Parse.Draft

/-!
# Tags

Reads one tag. What a tag is depends on its name, on whether an argument list or a colon follows,
and on the scopes that are open: an anonymous tag, an end tag, one of the tags `define`, `evaluate`,
`inline` and `raw`, a block, or a call. Anything else is raw text.

Each reader takes the tokens behind the name of the tag and gives back those behind the tag.
-/

namespace Stencil

/-- Where a tag stands, and what can be used in it. -/
structure TagSite where
  entities : Entities
  indicator : Char
  tag : String
  location : Text.Location

/-- Tokens that are left of others. -/
abbrev Remaining (tokens : List Lexeme) := { rest : List Lexeme // rest.length ≤ tokens.length }

namespace TagSite

/-- A fault of form in this tag. -/
def malformed {α : Type} (site : TagSite) (reason : Malformed) : Except Fault α :=
  .error (.malformed site.tag reason)

/-- Reads an argument list from behind its parenthesis. -/
def readList (site : TagSite) (mode : FoldMode) (tokens : List Lexeme) :
    Except Fault (Tuple × Remaining tokens) :=
  match h : readArguments site.entities site.tag mode tokens with
  | .ok (t, rest) => .ok (t, ⟨rest, Nat.le_of_lt (length_of_readArguments h)⟩)
  | .error e => .error e

/-- Reads an argument list with its parenthesis. -/
def readTuple (site : TagSite) (mode : FoldMode) (tokens : List Lexeme) :
    Except Fault (Tuple × Remaining tokens) :=
  match tokens with
  | ⟨.openParen, _⟩ :: inside =>
    match site.readList mode inside with
    | .ok (t, ⟨rest, h⟩) => .ok (t, ⟨rest, Nat.le_succ_of_le h⟩)
    | .error e => .error e
  | _ => site.malformed .missingArguments

/-- Reads an argument list of one argument without label. -/
def readSingle (site : TagSite) (mode : FoldMode) (tokens : List Lexeme) (otherwise : Malformed) :
    Except Fault (Expr × Remaining tokens) := do
  let (t, rest) ← site.readTuple mode tokens
  match t.single? with
  | some e => return (e, rest)
  | none => site.malformed otherwise

/-- Reads the colon that opens a body. -/
def readMark (site : TagSite) (tokens : List Lexeme) (otherwise : Malformed) :
    Except Fault (Remaining tokens) :=
  match tokens with
  | ⟨.blockMark, _⟩ :: rest => .ok ⟨rest, Nat.le_succ _⟩
  | _ => site.malformed otherwise

/-- Reads the rest of a declaration behind the name: nothing, or `= value`. -/
def readDeclared (site : TagSite) (tokens : List Lexeme) :
    Except Fault (Option Expr × Remaining tokens) :=
  match tokens with
  | ⟨.closeParen, _⟩ :: rest => .ok (none, ⟨rest, Nat.le_succ _⟩)
  | ⟨.operator .assign, _⟩ :: inside =>
    match site.readList .strict inside with
    | .error e => .error e
    | .ok (t, ⟨rest, h⟩) =>
      match t.single? with
      | some e => .ok (some e, ⟨rest, Nat.le_succ_of_le h⟩)
      | none => site.malformed .declarationNotOneValue
  | _ => site.malformed .declarationForm

/-- Writes a declaration. -/
def declare (d : Draft) (constant : Bool) (name : String) (value : Option Expr) :
    Except Fault Draft := do
  if constant && value.isNone then throw (.variable name .letNeedsValue)
  let d ← match value with
    | some e => d.useAll e
    | none => pure d
  if d.innermost.has name then throw (.variable name .redeclared)
  return (d.declare name ⟨constant, value.isSome⟩).push (.declare name constant value)

/-- Reads `(var name)`, `(var name = value)` or `(let name = value)` from behind the word. -/
def readDeclaration (site : TagSite) (d : Draft) (constant : Bool) (tokens : List Lexeme) :
    Except Fault (Draft × Remaining tokens) :=
  match tokens with
  | ⟨.ident name, _⟩ :: behind => do
    let (value, ⟨rest, h⟩) ← site.readDeclared behind
    let d ← declare d constant name value
    return (d, ⟨rest, Nat.le_succ_of_le h⟩)
  | _ => site.malformed .declarationNeedsName

/-- Writes an assignment to a variable. -/
def assign (d : Draft) (v : Variable) (op : Operator) (value : Expr) : Except Fault Draft := do
  if !v.isAtomic then throw (.variable v.text .notLocal)
  match d.lookup? v.member with
  | none => throw (.variable v.member .undeclared)
  | some declared =>
    if declared.constant then throw (.variable v.member .isConstant)
    if op.compoundBase?.isSome && !declared.assigned then
      throw (.variable v.member .compoundUnassigned)
    let d ← d.useAll value
    return (d.markAssigned v.member).push (.assign v op value)

/-- Reads an anonymous tag: a declaration, an assignment, or an expression to put out. -/
def readAnonymous (site : TagSite) (d : Draft) (tokens : List Lexeme) :
    Except Fault (Draft × Remaining tokens) :=
  match tokens with
  | _ :: ⟨.keyword .declareVar, _⟩ :: inside => do
    let (d, ⟨rest, h⟩) ← site.readDeclaration d false inside
    return (d, ⟨rest, Nat.le_succ_of_le (Nat.le_succ_of_le h)⟩)
  | _ :: ⟨.keyword .declareLet, _⟩ :: inside => do
    let (d, ⟨rest, h⟩) ← site.readDeclaration d true inside
    return (d, ⟨rest, Nat.le_succ_of_le (Nat.le_succ_of_le h)⟩)
  | tokens => do
    let (e, rest) ← site.readSingle .assignment tokens .notOneAnonymous
    match e with
    | .sequence [.var v, .operator op, value] =>
      let d ← assign d v op value
      return (d, rest)
    | e =>
      let d ← d.useAll e
      return (d.push (.output e), rest)

/-- Reads `define(name = value)` or `define(name):`. -/
def readDefine (site : TagSite) (d : Draft) (tokens : List Lexeme) :
    Except Fault (Draft × Remaining tokens) := do
  let (e, rest) ← site.readSingle .assignment tokens .notOneArgument
  match e with
  | .sequence [target, .operator .assign, value] =>
    match target.atomicName? with
    | some name =>
      let d ← d.useAll value
      return (d.push (.define name (some value)), rest)
    | none => site.malformed .defineForm
  | e =>
    match e.atomicName? with
    | some name =>
      let ⟨behind, h⟩ ← site.readMark rest.1 .defineNeedsBody
      let d := d.openScope (.define name none) "define" .define site.location []
      return (d, ⟨behind, Nat.le_trans h rest.2⟩)
    | none => site.malformed .defineForm

/-- The name and the default of an evaluation. -/
def evaluation (site : TagSite) : Expr → Except Fault (String × Option Expr)
  | .binary .nilCoalesce left right =>
    match left.atomicName? with
    | some name => .ok (name, some right)
    | none => site.malformed .evaluateNeedsName
  | e =>
    match e.atomicName? with
    | some name => .ok (name, none)
    | none => site.malformed .evaluateForm

/-- Reads `evaluate(name)` or `evaluate(name ?? default)`. -/
def readEvaluate (site : TagSite) (d : Draft) (tokens : List Lexeme) :
    Except Fault (Draft × Remaining tokens) := do
  let (e, rest) ← site.readSingle .strict tokens .notOneArgument
  let (name, default) ← site.evaluation e
  let d ← match default with
    | some e => d.useAll e
    | none => pure d
  return (d.push (.evaluate name default), rest)

/-- A word given as a name or as a text. -/
def wordOf : Expr → Option String
  | .value (.string s) => some s
  | e => e.atomicName?

/-- Whether a file is inlined as raw text, by the labelled arguments. -/
def inlineMode (t : Tuple) : Except SignatureFault Bool :=
  t.labels.foldlM
    (fun _ entry =>
      if entry.1 ≠ "as" then .error (.inlineUnknownLabel entry.1)
      else
        match t[entry.2]?.bind fun item => wordOf item.2 with
        | some "raw" => .ok true
        | some "leaf" => .ok false
        | _ => .error .inlineMode)
    false

/-- The file of an inline tag, and whether it is raw text. -/
def inlineTarget (t : Tuple) : Except SignatureFault (String × Bool) := do
  match t with
  | (none, .value (.string file)) :: others =>
    let raw ← inlineMode t
    if !Tuple.allLabelled others then throw .inlineNotOneName
    return (file, raw)
  | _ => throw .inlineNeedsName

/-- Reads `inline("file")` or `inline("file", as: raw)`. -/
def readInline (site : TagSite) (d : Draft) (tokens : List Lexeme) :
    Except Fault (Draft × Remaining tokens) := do
  let (t, rest) ← site.readTuple .strict tokens
  let (file, raw) ← (inlineTarget t).mapError (.signature "inline")
  let d :=
    if raw then { d with raws := NameSet.insert file d.raws }
    else { d with templates := NameSet.insert file d.templates }
  return ((d.push (.inline file raw)).push (.scope none), rest)

/-- Reads `raw(encoder):`. -/
def readRaw (site : TagSite) (d : Draft) (tokens : List Lexeme) :
    Except Fault (Draft × Remaining tokens) := do
  let (e, rest) ← site.readSingle .strict tokens .notOneArgument
  match wordOf e with
  | none => throw (.signature "raw" .rawNeedsEncoder)
  | some handler =>
    match site.entities.encoder? handler with
    | none => throw (.signature "raw" (.unknownEncoder handler))
    | some encoder =>
      let ⟨behind, h⟩ ← site.readMark rest.1 .rawNeedsBody
      let d := d.openScope (.encode handler encoder) "raw" .encode site.location []
      return (d, ⟨behind, Nat.le_trans h rest.2⟩)

/-- Reads the arguments of a block. If they are no arguments of a call but the block knows patterns,
they are read once more for the patterns; where these match none, the failure is that of the first
reading. -/
def readBlockArguments (site : TagSite) (form : BlockForm) (tokens : List Lexeme) :
    Except Fault (BlockArguments × Remaining tokens) :=
  match site.readTuple .strict tokens with
  | .ok (t, rest) =>
    match form.match? t with
    | some found => .ok (.parsed found, rest)
    | none => .ok (.call t, rest)
  | .error strict =>
    if form.patterns.isEmpty then .error strict
    else
      match site.readTuple .relaxed tokens with
      | .error relaxed => .error relaxed
      | .ok (t, rest) =>
        match form.match? t with
        | some found => .ok (.parsed found, rest)
        | none => .error strict

/-- The links of the chain that a block goes on with, itself included, and the draft with the link
before it closed. -/
def chainOf (site : TagSite) (form : BlockForm) (d : Draft) : Except Fault (List String × Draft) :=
  if form.follows.isEmpty then .ok ([site.tag], d)
  else
    match d.opened with
    | { name, kind := .chain names, .. } :: _ =>
      if form.follows.contains name then .ok (names ++ [site.tag], d.closeScope)
      else .error (.unmatched site.tag (.mustFollow form.follows))
    | _ => .error (.unmatched site.tag (.mustFollow form.follows))

/-- Reads the arguments of a block if there are any. -/
def readBlockHead (site : TagSite) (form : BlockForm) (tokens : List Lexeme) :
    Except Fault (BlockArguments × Remaining tokens) :=
  if parenFollows tokens then site.readBlockArguments form tokens
  else .ok (.call [], ⟨tokens, Nat.le_refl _⟩)

/-- Reads a block tag with its colon. -/
def readBlock (site : TagSite) (form : BlockForm) (d : Draft) (tokens : List Lexeme) :
    Except Fault (Draft × Remaining tokens) := do
  let (arguments, rest) ← site.readBlockHead form tokens
  let ⟨behind, h⟩ ← site.readMark rest.1 (.blockNeedsBody site.tag)
  let (chain, d) ← site.chainOf form d
  let made ← (form.make arguments).mapError fun e => .signature site.tag (.block e)
  let d ← made.args.values.foldlM Draft.useAll d
  let declared := Entries.ofList (made.declares.map fun name => (name, Declared.mk true true))
  let node := Node.block site.tag (1 < chain.length) made.behaviour made.args
  return (d.openScope node site.tag (.chain chain) site.location declared,
    ⟨behind, Nat.le_trans h rest.2⟩)

/-- The name that an end tag closes. -/
def closedName? (tag : String) : Option String :=
  match tag.toList with
  | 'e' :: 'n' :: 'd' :: c :: rest => some (String.ofList (c :: rest))
  | _ => none

/-- Closes the innermost scope, if the end tag is its own. An end tag of something that could be
open is a fault, and one of anything else is text. -/
def close? (site : TagSite) (d : Draft) (closed : String) : Except Fault (Option Draft) :=
  if d.opened.head?.any (·.closedBy closed) then .ok (some d.closeScope)
  else
    let known := (site.entities.block? closed).isSome || closed == "define" || closed == "raw" ||
      d.opened.any (·.closedBy closed)
    if !known then .ok none
    else
      match d.opened with
      | top :: _ => .error (.unmatched site.tag (.otherOpen top.head))
      | [] => .error (.unmatched site.tag .noneOpen)

/-- Reads a call whose value is put out. -/
def readCall (site : TagSite) (d : Draft) (tokens : List Lexeme) :
    Except Fault (Draft × Remaining tokens) := do
  let (t, rest) ← site.readTuple .strict tokens
  let e ← site.entities.resolveCall site.tag site.tag false t
  let d ← d.useAll e
  return (d.push (.output e), rest)

/-- Whether a colon comes next. -/
def markFollows : List Lexeme → Bool
  | ⟨.blockMark, _⟩ :: _ => true
  | _ => false

/-- Reads a tag with a name that is no end tag of an open scope. -/
def readNamed (site : TagSite) (d : Draft) (tokens : List Lexeme) :
    Except Fault (Draft × Remaining tokens) :=
  let hasParams := parenFollows tokens
  match hasParams, site.tag with
  | true, "define" => site.readDefine d tokens
  | true, "evaluate" => site.readEvaluate d tokens
  | true, "inline" => site.readInline d tokens
  | true, "raw" => site.readRaw d tokens
  | _, _ =>
    match site.entities.block? site.tag, hasParams || markFollows tokens with
    | some form, true => site.readBlock form d tokens
    | _, _ =>
      if hasParams then site.readCall d tokens
      else .ok (d.addRaw (String.ofList [site.indicator] ++ site.tag), ⟨tokens, Nat.le_refl _⟩)

/-- Reads a tag. -/
def read (site : TagSite) (d : Draft) (tokens : List Lexeme) :
    Except Fault (Draft × Remaining tokens) := do
  if site.tag.isEmpty then site.readAnonymous d tokens
  else
    match if parenFollows tokens then none else closedName? site.tag with
    | none => site.readNamed d tokens
    | some closed =>
      match ← site.close? d closed with
      | some d => return (d, ⟨tokens, Nat.le_refl _⟩)
      | none => site.readNamed d tokens

end TagSite

end Stencil
