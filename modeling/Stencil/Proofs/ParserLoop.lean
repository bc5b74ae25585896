import Stencil.Proofs.BlockSpelling
import Stencil.Proofs.EndingLoops

/-!
# The parser as a loop

The parser takes one token a round. Between the tags it writes a draft. In an argument list it keeps
the open levels, what the list is read for, and where the list starts: if the arguments of a block
are refused, it goes back there and reads them once more for the patterns of the block.

What a tag comes to in the loop is what reading the tag gives (`TagSite.forget_read`).
-/

namespace Stencil

/-- What an argument list is read for. -/
inductive ListUse
  | output
  | declaration (constant : Bool) (name : String)
  | define
  | evaluate
  | inline
  | encode
  | call
  | block (form : BlockForm)
  /-- The patterns of a block whose arguments were refused for a fault. -/
  | patterns (form : BlockForm) (refused : Fault)

namespace ListUse

/-- The mode in which a list is read. -/
def mode : ListUse → FoldMode
  | output | define => .assignment
  | patterns .. => .relaxed
  | _ => .strict

/-- Whether a list that is refused can be read once more. -/
def isBlock : ListUse → Bool
  | block _ => true
  | _ => false

end ListUse

/-- What a tag comes to: its end, or an argument list from behind the parenthesis. -/
inductive TagTurn
  | done (read : Except Fault (Draft × List Lexeme))
  | list (use : ListUse) (inside : List Lexeme)

/-- Where nothing is read everything is left. -/
theorem Remaining.whole (rest : List Lexeme) : rest.length ≤ rest.length := Nat.le_refl _

namespace TagSite

section Turns

variable (site : TagSite) (d : Draft)

/-- A list with its parenthesis. -/
def openList (use : ListUse) : List Lexeme → TagTurn
  | ⟨.openParen, _⟩ :: inside => .list use inside
  | _ => .done (site.malformed .missingArguments)

/-- A declaration from behind its word. -/
def openDeclaration (constant : Bool) : List Lexeme → TagTurn
  | ⟨.ident name, _⟩ :: ⟨.closeParen, _⟩ :: rest =>
    .done ((declare d constant name none).map fun d => (d, rest))
  | ⟨.ident name, _⟩ :: ⟨.operator .assign, _⟩ :: inside =>
    .list (.declaration constant name) inside
  | ⟨.ident _, _⟩ :: _ => .done (site.malformed .declarationForm)
  | _ => .done (site.malformed .declarationNeedsName)

/-- An anonymous tag. -/
def openAnonymous : List Lexeme → TagTurn
  | _ :: ⟨.keyword .declareVar, _⟩ :: inside => site.openDeclaration d false inside
  | _ :: ⟨.keyword .declareLet, _⟩ :: inside => site.openDeclaration d true inside
  | tokens => site.openList .output tokens

/-- A block from behind its arguments. -/
def takeBlock (form : BlockForm) (arguments : BlockArguments) (rest : List Lexeme) :
    Except Fault (Draft × Remaining rest) := do
  let behind ← site.readMark rest (.blockNeedsBody site.tag)
  let (chain, d) ← site.chainOf form d
  let made ← (form.make arguments).mapError fun e => .signature site.tag (.block e)
  let d ← made.args.values.foldlM Draft.useAll d
  let declared := Entries.ofList (made.declares.map fun name => (name, Declared.mk true true))
  let node := Node.block site.tag (1 < chain.length) made.behaviour made.args
  return (d.openScope node site.tag (.chain chain) site.location declared, behind)

/-- What a list is read for behind the tags that have one of their own. -/
def ownUse? (tag : String) : Option ListUse :=
  match tag with
  | "define" => some .define
  | "evaluate" => some .evaluate
  | "inline" => some .inline
  | "raw" => some .encode
  | _ => none

/-- A tag for a block, a call, or a name that is no tag at all. -/
def openOther (tokens : List Lexeme) : TagTurn :=
  match site.entities.block? site.tag, parenFollows tokens || markFollows tokens with
  | some form, true =>
    if parenFollows tokens then site.openList (.block form) tokens
    else .done ((site.takeBlock d form (.call []) tokens).map forget)
  | _, _ =>
    if parenFollows tokens then site.openList .call tokens
    else .done (.ok (d.addRaw (String.ofList [site.indicator] ++ site.tag), tokens))

/-- A tag with a name that closes nothing. -/
def openNamed (tokens : List Lexeme) : TagTurn :=
  match parenFollows tokens, ownUse? site.tag with
  | true, some use => site.openList use tokens
  | _, _ => site.openOther d tokens

/-- A tag from behind its name. -/
def openTag (tokens : List Lexeme) : TagTurn :=
  if site.tag.isEmpty then site.openAnonymous d tokens
  else
    match if parenFollows tokens then none else closedName? site.tag with
    | none => site.openNamed d tokens
    | some closed =>
      match site.close? d closed with
      | .error fault => .done (.error fault)
      | .ok (some d) => .done (.ok (d, tokens))
      | .ok none => site.openNamed d tokens

/-- The only argument of a list. -/
def only (t : Tuple) (otherwise : Malformed) : Except Fault Expr :=
  match t.single? with
  | some e => .ok e
  | none => site.malformed otherwise

/-- An anonymous tag from behind its list. -/
def takeOutput (rest : List Lexeme) : Expr → Except Fault (Draft × Remaining rest)
  | .sequence [.var v, .operator op, value] => do
    let d ← assign d v op value
    return (d, ⟨rest, Remaining.whole rest⟩)
  | e => do
    let d ← d.useAll e
    return (d.push (.output e), ⟨rest, Remaining.whole rest⟩)

/-- A definition from behind its list. -/
def takeDefine (rest : List Lexeme) : Expr → Except Fault (Draft × Remaining rest)
  | .sequence [target, .operator .assign, value] =>
    match target.atomicName? with
    | some name => do
      let d ← d.useAll value
      return (d.push (.define name (some value)), ⟨rest, Remaining.whole rest⟩)
    | none => site.malformed .defineForm
  | e =>
    match e.atomicName? with
    | some name => do
      let behind ← site.readMark rest .defineNeedsBody
      return (d.openScope (.define name none) "define" .define site.location [], behind)
    | none => site.malformed .defineForm

/-- An evaluation from behind its list. -/
def takeEvaluate (rest : List Lexeme) (e : Expr) : Except Fault (Draft × Remaining rest) := do
  let (name, default) ← site.evaluation e
  let d ← match default with
    | some e => d.useAll e
    | none => pure d
  return (d.push (.evaluate name default), ⟨rest, Remaining.whole rest⟩)

/-- An inline tag from behind its list. -/
def takeInline (t : Tuple) (rest : List Lexeme) : Except Fault (Draft × Remaining rest) := do
  let (file, raw) ← (inlineTarget t).mapError (.signature "inline")
  let d :=
    if raw then { d with raws := NameSet.insert file d.raws }
    else { d with templates := NameSet.insert file d.templates }
  return ((d.push (.inline file raw)).push (.scope none), ⟨rest, Remaining.whole rest⟩)

/-- An encoder tag from behind its list. -/
def takeEncode (rest : List Lexeme) (e : Expr) : Except Fault (Draft × Remaining rest) :=
  match wordOf e with
  | none => throw (.signature "raw" .rawNeedsEncoder)
  | some handler =>
    match site.entities.encoder? handler with
    | none => throw (.signature "raw" (.unknownEncoder handler))
    | some encoder => do
      let behind ← site.readMark rest .rawNeedsBody
      return (d.openScope (.encode handler encoder) "raw" .encode site.location [], behind)

/-- What a tag makes of its list, and of the tokens behind it. -/
def take (t : Tuple) (rest : List Lexeme) : ListUse → Except Fault (Draft × Remaining rest)
  | .output => site.only t .notOneAnonymous >>= takeOutput d rest
  | .declaration constant name => do
    let e ← site.only t .declarationNotOneValue
    let d ← declare d constant name (some e)
    return (d, ⟨rest, Remaining.whole rest⟩)
  | .define => site.only t .notOneArgument >>= site.takeDefine d rest
  | .evaluate => site.only t .notOneArgument >>= site.takeEvaluate d rest
  | .inline => takeInline d t rest
  | .encode => site.only t .notOneArgument >>= site.takeEncode d rest
  | .call => do
    let e ← site.entities.resolveCall site.tag site.tag false t
    let d ← d.useAll e
    return (d.push (.output e), ⟨rest, Remaining.whole rest⟩)
  | .block form =>
    match form.match? t with
    | some found => site.takeBlock d form (.parsed found) rest
    | none => site.takeBlock d form (.call t) rest
  | .patterns form refused =>
    match form.match? t with
    | some found => site.takeBlock d form (.parsed found) rest
    | none => .error refused

/-- What a tag comes to behind its list. A list that is refused is read again from where it starts,
if it belongs to a block with patterns. -/
def behindList (inside : List Lexeme) (use : ListUse) :
    Except Fault (Tuple × List Lexeme) → TagTurn
  | .ok (t, rest) => .done ((site.take d t rest use).map forget)
  | .error fault =>
    match use with
    | .block form =>
      if form.patterns.isEmpty then .done (.error fault) else .list (.patterns form fault) inside
    | _ => .done (.error fault)

/-- The list of a use, up to its end. -/
def readUse (use : ListUse) (inside : List Lexeme) : Except Fault (Tuple × List Lexeme) :=
  readArguments site.entities site.tag use.mode inside

end Turns

end TagSite

namespace TagTurn

variable (site : TagSite) (d : Draft)

/-- The end of a tag, its list being read once at most. -/
def once : TagTurn → Except Fault (Draft × List Lexeme)
  | done read => read
  | list use inside => do
    let (t, rest) ← site.readUse use inside
    (site.take d t rest use).map TagSite.forget

/-- The end of a tag. -/
def result : TagTurn → Except Fault (Draft × List Lexeme)
  | done read => read
  | list use inside => (site.behindList d inside use (site.readUse use inside)).once site d

variable (use : ListUse) (inside : List Lexeme)

/-- A list is the end of its tag, or it is one of a block with patterns that is refused. -/
theorem behindList_cases :
    site.behindList d inside use (site.readUse use inside) =
        .done ((list use inside).once site d) ∨
      ∃ form fault, use = .block form ∧ site.readUse use inside = .error fault ∧
        site.behindList d inside use (.error fault) = .list (.patterns form fault) inside := by
  rw [once]
  cases site.readUse use inside with
  | ok found => exact .inl rfl
  | error fault =>
    cases use with
    | block form =>
      unfold TagSite.behindList
      dsimp only
      cases form.patterns.isEmpty with
      | true => exact .inl rfl
      | false => exact .inr ⟨form, fault, rfl, rfl, rfl⟩
    | _ => exact .inl rfl

variable {use}

/-- Only the arguments of a block are read twice. -/
theorem behindList_other (other : use.isBlock = false) :
    site.behindList d inside use (site.readUse use inside) =
      .done ((list use inside).once site d) := by
  rcases behindList_cases site d use inside with done | ⟨form, fault, rfl, -⟩
  · exact done
  · cases other

theorem result_list (other : use.isBlock = false) :
    (list use inside).result site d = (list use inside).once site d := by
  rw [result, behindList_other site d inside other]
  rfl

end TagTurn

namespace TagSite

variable {site : TagSite} {d : Draft} {form : BlockForm} {tokens : List Lexeme}

theorem forget_readTuple_eq (site : TagSite) (mode : FoldMode) (tokens : List Lexeme) :
    (site.readTuple mode tokens).map forget =
      match tokens with
      | ⟨.openParen, _⟩ :: inside => readArguments site.entities site.tag mode inside
      | _ => site.malformed .missingArguments := by
  split
  · exact forget_readTuple site mode _ _
  · rename_i other
    unfold readTuple
    split
    · exact absurd rfl (other _ _)
    · rfl

/-- What is made of something that was read does not depend on its bound. -/
theorem forget_bind {α β : Type} {tokens tokens' : List Lexeme}
    {x : Except Fault (α × Remaining tokens)}
    {f : α × Remaining tokens → Except Fault (β × Remaining tokens')}
    {g : α → (rest : List Lexeme) → Except Fault (β × Remaining rest)}
    (same : ∀ a left, (f (a, left)).map forget = (g a left.1).map forget) :
    (x >>= f).map forget = x.map forget >>= fun found => (g found.1 found.2).map forget := by
  cases x with
  | error fault => rfl
  | ok found => exact same found.1 found.2

/-- A tag that reads a list and takes it comes to its list. -/
theorem forget_list (use : ListUse) (other : use.isBlock = false)
    {f : Tuple × Remaining tokens → Except Fault (Draft × Remaining tokens)}
    (takes : ∀ t left, (f (t, left)).map forget = (site.take d t left.1 use).map forget) :
    (site.readTuple use.mode tokens >>= f).map forget =
      (site.openList use tokens).result site d := by
  rw [forget_bind (g := fun t rest => site.take d t rest use) takes, forget_readTuple_eq]
  unfold openList
  split
  · rw [TagTurn.result_list site d _ other]
    rfl
  · rfl

/-- The same for a list of one argument. -/
theorem forget_single (use : ListUse) (other : use.isBlock = false) (otherwise : Malformed)
    {f : Expr × Remaining tokens → Except Fault (Draft × Remaining tokens)}
    {g : (rest : List Lexeme) → Expr → Except Fault (Draft × Remaining rest)}
    (takes : ∀ t rest, site.take d t rest use = site.only t otherwise >>= g rest)
    (same : ∀ e left, (f (e, left)).map forget = (g left.1 e).map forget) :
    (site.readSingle use.mode tokens otherwise >>= f).map forget =
      (site.openList use tokens).result site d := by
  unfold readSingle
  rw [bind_assoc]
  refine forget_list use other fun t left => ?_
  rw [takes, only]
  dsimp only
  cases t.single? with
  | none => rfl
  | some e => exact same e left

/-- What is computed before makes no difference to the bounds. -/
theorem forget_after {α β : Type} {tokens tokens' : List Lexeme} {x : Except Fault α}
    {f : α → Except Fault (β × Remaining tokens)}
    {g : α → Except Fault (β × Remaining tokens')}
    (same : ∀ a, (f a).map forget = (g a).map forget) :
    (x >>= f).map forget = (x >>= g).map forget := by
  cases x with
  | error fault => rfl
  | ok a => exact same a

theorem forget_readList (site : TagSite) (mode : FoldMode) (inside : List Lexeme) :
    (site.readList mode inside).map forget =
      readArguments site.entities site.tag mode inside := by
  cases read : readArguments site.entities site.tag mode inside with
  | error fault =>
    rw [readList_error_iff.mpr read]
    rfl
  | ok found =>
    obtain ⟨t, rest⟩ := found
    obtain ⟨left, done, eq⟩ := readList_of read
    rw [done]
    subst eq
    rfl

theorem forget_readDeclaration (d : Draft) (constant : Bool) (tokens : List Lexeme) :
    (site.readDeclaration d constant tokens).map forget =
      (site.openDeclaration d constant tokens).result site d := by
  rcases tokens with _ | ⟨⟨token, place⟩, behind⟩
  · rfl
  cases token with
  | ident name =>
    rcases behind with _ | ⟨⟨token, place⟩, rest⟩
    · rfl
    cases token with
    | closeParen =>
      simp only [openDeclaration, TagTurn.result]
      show (declare d constant name none >>= _).map forget = _
      cases declare d constant name none <;> rfl
    | operator op =>
      cases op with
      | assign =>
        simp only [openDeclaration]
        rw [TagTurn.result_list site d _ rfl]
        show _ = (readArguments site.entities site.tag .strict rest >>= _)
        rw [← forget_readList]
        simp only [readDeclaration, readDeclared]
        rcases site.readList .strict rest with fault | ⟨t, left⟩
        · rfl
        · dsimp only [Except.map, forget, bind, Except.bind, take, only]
          cases t.single? with
          | none => rfl
          | some e =>
            dsimp only
            cases declare d constant name (some e) <;> rfl
      | _ => rfl
    | _ => rfl
  | _ => rfl

theorem forget_readAnonymous (d : Draft) (tokens : List Lexeme) :
    (site.readAnonymous d tokens).map forget = (site.openAnonymous d tokens).result site d := by
  unfold readAnonymous openAnonymous
  split
  · rename_i inside
    dsimp only
    rw [← forget_readDeclaration]
    cases site.readDeclaration d false inside <;> rfl
  · rename_i inside
    dsimp only
    rw [← forget_readDeclaration]
    cases site.readDeclaration d true inside <;> rfl
  · simp only
    refine forget_single .output rfl .notOneAnonymous (fun _ _ => rfl) fun e left => ?_
    dsimp only
    split
    · exact forget_after fun _ => rfl
    · rename_i other
      rw [takeOutput.eq_2 d left.1 e other]
      exact forget_after fun _ => rfl

theorem forget_readDefine (d : Draft) (tokens : List Lexeme) :
    (site.readDefine d tokens).map forget = (site.openList .define tokens).result site d := by
  refine forget_single .define rfl .notOneArgument (fun t rest => rfl) fun e left => ?_
  dsimp only
  split
  · rename_i target value
    rw [takeDefine]
    cases target.atomicName? with
    | none => rfl
    | some name => exact forget_after fun _ => rfl
  · rename_i other
    rw [takeDefine.eq_2 site d left.1 e other]
    cases e.atomicName? with
    | none => rfl
    | some name => exact forget_after fun _ => rfl

theorem forget_readEvaluate (d : Draft) (tokens : List Lexeme) :
    (site.readEvaluate d tokens).map forget = (site.openList .evaluate tokens).result site d := by
  refine forget_single .evaluate rfl .notOneArgument (fun t rest => rfl) fun e left => ?_
  refine forget_after fun found => ?_
  obtain ⟨name, default⟩ := found
  cases default with
  | none => rfl
  | some e => exact forget_after fun _ => rfl

theorem forget_readInline (d : Draft) (tokens : List Lexeme) :
    (site.readInline d tokens).map forget = (site.openList .inline tokens).result site d :=
  forget_list .inline rfl fun _ _ => forget_after fun _ => rfl

theorem forget_readRaw (d : Draft) (tokens : List Lexeme) :
    (site.readRaw d tokens).map forget = (site.openList .encode tokens).result site d := by
  refine forget_single .encode rfl .notOneArgument (fun t rest => rfl) fun e left => ?_
  dsimp only [takeEncode]
  cases wordOf e with
  | none => rfl
  | some handler =>
    dsimp only
    cases site.entities.encoder? handler with
    | none => rfl
    | some encoder => exact forget_after fun _ => rfl

theorem forget_readCall (d : Draft) (tokens : List Lexeme) :
    (site.readCall d tokens).map forget = (site.openList .call tokens).result site d :=
  forget_list .call rfl fun _ _ => forget_after fun _ => forget_after fun _ => rfl

/-- The arguments of a block are those of its list, or of its list read once more. -/
theorem argumentsOf_bind (form : BlockForm) (d : Draft) (inside : List Lexeme) :
    (argumentsOf form (readArguments site.entities site.tag .strict inside)
        (readArguments site.entities site.tag .relaxed inside) >>= fun found =>
      (site.takeBlock d form found.1 found.2).map forget) =
      (TagTurn.list (.block form) inside).result site d := by
  have strict : site.readUse (.block form) inside =
      readArguments site.entities site.tag .strict inside := rfl
  rw [TagTurn.result, strict]
  rcases readArguments site.entities site.tag .strict inside with fault | ⟨t, rest⟩
  · simp only [argumentsOf, behindList]
    cases form.patterns.isEmpty with
    | true => rfl
    | false =>
      have relaxed : site.readUse (.patterns form fault) inside =
          readArguments site.entities site.tag .relaxed inside := rfl
      simp only [Bool.false_eq_true, if_false, TagTurn.once, relaxed]
      rcases readArguments site.entities site.tag .relaxed inside with _ | ⟨t, rest⟩
      · rfl
      · simp only [bind, Except.bind, take]
        cases form.match? t <;> rfl
  · simp only [argumentsOf, behindList, TagTurn.once, take]
    cases form.match? t <;> rfl

theorem forget_readBlock (form : BlockForm) (d : Draft) (tokens : List Lexeme) :
    (site.readBlock form d tokens).map forget =
      (if parenFollows tokens then site.openList (.block form) tokens
        else .done ((site.takeBlock d form (.call []) tokens).map forget)).result site d := by
  unfold readBlock
  rw [forget_bind (g := fun arguments rest => site.takeBlock d form arguments rest) ?_]
  · unfold readBlockHead
    split
    · rename_i paren
      obtain ⟨lexeme, inside, rfl⟩ := List.exists_cons_of_ne_nil
        (show tokens ≠ [] by rintro rfl; cases paren)
      obtain ⟨token, opening⟩ := lexeme
      cases eq_openParen_of_parenFollows paren
      rw [forget_readBlockArguments]
      exact argumentsOf_bind form d inside
    · rfl
  · intro arguments left
    refine forget_after fun behind => ?_
    refine forget_after fun chained => ?_
    refine forget_after fun made => ?_
    exact forget_after fun _ => rfl

theorem forget_readOther (d : Draft) (tokens : List Lexeme) :
    (match site.entities.block? site.tag, parenFollows tokens || markFollows tokens with
      | some form, true => site.readBlock form d tokens
      | _, _ =>
        if parenFollows tokens then site.readCall d tokens
        else .ok (d.addRaw (String.ofList [site.indicator] ++ site.tag),
          ⟨tokens, Nat.le_refl _⟩)).map forget = (site.openOther d tokens).result site d := by
  have other : (if parenFollows tokens then site.readCall d tokens
        else .ok (d.addRaw (String.ofList [site.indicator] ++ site.tag),
          ⟨tokens, Nat.le_refl _⟩)).map forget =
      (if parenFollows tokens then site.openList .call tokens
        else .done (.ok (d.addRaw (String.ofList [site.indicator] ++ site.tag), tokens))).result
        site d := by
    split
    · exact forget_readCall d tokens
    · rfl
  unfold openOther
  generalize (parenFollows tokens || markFollows tokens) = head
  rcases site.entities.block? site.tag with _ | form
  · exact other
  · cases head with
    | false => exact other
    | true => exact forget_readBlock form d tokens

theorem openNamed_own {use : ListUse} (paren : parenFollows tokens = true)
    (own : ownUse? site.tag = some use) :
    site.openNamed d tokens = site.openList use tokens := by
  rw [openNamed, paren, own]

theorem forget_readNamed (d : Draft) (tokens : List Lexeme) :
    (site.readNamed d tokens).map forget = (site.openNamed d tokens).result site d := by
  unfold readNamed
  dsimp only
  split
  · rename_i paren named
    rw [openNamed_own paren (by rw [named]; rfl)]
    exact forget_readDefine d tokens
  · rename_i paren named
    rw [openNamed_own paren (by rw [named]; rfl)]
    exact forget_readEvaluate d tokens
  · rename_i paren named
    rw [openNamed_own paren (by rw [named]; rfl)]
    exact forget_readInline d tokens
  · rename_i paren named
    rw [openNamed_own paren (by rw [named]; rfl)]
    exact forget_readRaw d tokens
  · rename_i define evaluate inline raw
    have opened : site.openNamed d tokens = site.openOther d tokens := by
      unfold openNamed ownUse?
      split
      · rename_i paren own
        split at own
        · exact (define paren ‹_›).elim
        · exact (evaluate paren ‹_›).elim
        · exact (inline paren ‹_›).elim
        · exact (raw paren ‹_›).elim
        · cases own
      · rfl
    rw [opened]
    exact forget_readOther d tokens

/-- Reading a tag is to come to its end, list by list. -/
theorem forget_read (site : TagSite) (d : Draft) (tokens : List Lexeme) :
    (site.read d tokens).map forget = (site.openTag d tokens).result site d := by
  unfold read openTag
  split
  · exact forget_readAnonymous d tokens
  · cases (if parenFollows tokens then none else closedName? site.tag) with
    | none => exact forget_readNamed d tokens
    | some closed =>
      dsimp only
      rcases site.close? d closed with fault | found
      · rfl
      · cases found with
        | none => exact forget_readNamed d tokens
        | some d => rfl

end TagSite

/-- The parser before a round. -/
inductive ParserStand
  /-- In front of a token outside of argument lists; `tag` is the name of the last tag. -/
  | between (d : Draft) (tag : String) (tokens : List Lexeme)
  /-- In an argument list that starts at `inside`, with levels that are open. -/
  | within (site : TagSite) (d : Draft) (use : ListUse) (inside : List Lexeme) (level : Level)
      (outer : List Level) (tokens : List Lexeme)

/-- The template of a draft when all tokens are read. -/
def Draft.complete (config : Config) (name : String) (d : Draft) : Except ParseError Template :=
  match d.unclosed? with
  | some e => .error e
  | none => .ok (d.finish name config.indicator)

namespace Parser

/-- From the end of a tag the parser goes on between the tags, and from the start of a list in it.
-/
def follow (site : TagSite) (d : Draft) : TagTurn → ParserStand ⊕ Except ParseError Template
  | .done (.error fault) => .inr (.error ⟨site.location, fault⟩)
  | .done (.ok (d, rest)) => .inl (.between d site.tag rest)
  | .list use inside => .inl (.within site d use inside { kind := .top } [] inside)

/-- A round of the parser. -/
def parseLoop (entities : Entities) (config : Config) (name : String) :
    Loop ParserStand (Except ParseError Template)
  | .between d _ [] => .inr (d.complete config name)
  | .between d tag (⟨.raw text, _⟩ :: rest) => .inl (.between (d.addRaw text) tag rest)
  | .between d tag (⟨.blockMark, _⟩ :: rest) => .inl (.between (d.addRaw ":") tag rest)
  | .between d _ (⟨.tag tag, location⟩ :: rest) =>
    let site : TagSite := { entities, indicator := config.indicator, tag, location }
    follow site d (site.openTag d rest)
  | .between _ tag (⟨other, location⟩ :: _) =>
    .inr (.error ⟨location, .malformed tag (.unexpected other)⟩)
  | .within site d use inside _ _ [] =>
    follow site d (site.behindList d inside use
      (.error (.malformed site.tag .unclosedArguments)))
  | .within site d use inside level outer (lexeme :: rest) =>
    match Progress.next site.entities site.tag use.mode lexeme.token (parenFollows rest) level
      outer with
    | .error fault => follow site d (site.behindList d inside use (.error fault))
    | .ok (.finished t) => follow site d (site.behindList d inside use (.ok (t, rest)))
    | .ok (.reading level outer) => .inl (.within site d use inside level outer rest)

end Parser

end Stencil
