import Stencil.Proofs.RereadBlocks

/-!
# Printed tags that are refused

A printed tag is always read as its arguments. It is refused if the draft cannot take what it says:
a variable that is used has not been assigned, a declaration has the name of another one, an
assignment is to a constant, or a block goes on with a chain that is not open.
-/

namespace Stencil

variable {site : TagSite} {tokens : List Token} {e : Expr} {d : Draft} {fault : Fault}

namespace TagSite

/-- A tag with arguments of some tokens is refused. -/
def Refuses (site : TagSite) (tokens : List Token) (d : Draft) : Prop :=
  ∀ (opening closing : Text.Location) (lexemes more : List Lexeme),
    lexemes.map (·.token) = tokens → ∃ fault,
      site.read d (⟨.openParen, opening⟩ :: (lexemes ++ ⟨.closeParen, closing⟩ :: more)) =
        .error fault

theorem refuses_output (anonymous : site.tag = "") (settled : e.Settled)
    (writable : e.writable = true) (failed : d.useAll e.reread = .error fault) :
    site.Refuses e.tokens d := by
  intro opening closing lexemes more same
  have row := Expr.operandRow settled.valued writable
  have arguments := readArguments_single (settled.gives writable) (row.fold .assignment) same
    site.entities site.tag closing more
  obtain ⟨left, single, -⟩ := readSingle_of site opening arguments .notOneAnonymous
  refine ⟨fault, ?_⟩
  rw [read_anonymous anonymous,
    readAnonymous_of (not_declares_head settled same closing more), single]
  simp only [bind, Except.bind]
  split
  · rename_i eq
    exact absurd eq (ne_sequence_of_valued row.valued _)
  · rw [failed]

/-- A declaration that cannot be made, given what stands behind its name. -/
theorem readAnonymous_declaration_error {constant : Bool} {name : String} {value : Option Expr}
    {opening : Text.Location} {word named : Lexeme} {behind : List Lexeme} {left : Remaining behind}
    (announced : word.token = .keyword (if constant then .declareLet else .declareVar))
    (called : named.token = .ident name) (read : site.readDeclared behind = .ok (value, left))
    (failed : declare d constant name value = .error fault) :
    site.readAnonymous d (⟨.openParen, opening⟩ :: word :: named :: behind) = .error fault := by
  obtain ⟨token, place⟩ := word
  obtain ⟨token', place'⟩ := named
  dsimp only at announced called
  subst announced called
  have declaration : site.readDeclaration d constant (⟨.ident name, place'⟩ :: behind) =
      .error fault := by
    simp only [readDeclaration, read, bind, Except.bind, failed]
  cases constant with
  | false =>
    show (site.readDeclaration d false _ >>= _) = _
    rw [declaration]
    rfl
  | true =>
    show (site.readDeclaration d true _ >>= _) = _
    rw [declaration]
    rfl

theorem refuses_declareEmpty {name : String} (anonymous : site.tag = "")
    (failed : declare d false name none = .error fault) :
    site.Refuses [.keyword .declareVar, .ident name] d := by
  intro opening closing lexemes more same
  obtain ⟨word, lexemes, rfl, announced, same⟩ := List.map_eq_cons_iff.mp same
  obtain ⟨named, rfl, called⟩ := List.map_eq_singleton_iff.mp same
  have nothing : site.readDeclared (⟨.closeParen, closing⟩ :: more) =
      .ok (none, ⟨more, Nat.le_succ _⟩) := rfl
  refine ⟨fault, ?_⟩
  rw [read_anonymous anonymous]
  refine readAnonymous_declaration_error ?_ called nothing failed
  exact announced

theorem refuses_declare {constant : Bool} {name : String} (anonymous : site.tag = "")
    (settled : e.Settled) (writable : e.writable = true)
    (failed : declare d constant name (some e.reread) = .error fault) :
    site.Refuses (.keyword (if constant then .declareLet else .declareVar) :: .ident name ::
      .operator .assign :: e.tokens) d := by
  intro opening closing lexemes more same
  obtain ⟨word, lexemes, rfl, announced, same⟩ := List.map_eq_cons_iff.mp same
  obtain ⟨named, lexemes, rfl, called, same⟩ := List.map_eq_cons_iff.mp same
  obtain ⟨⟨token, place⟩, lexemes, rfl, assigned, behind⟩ := List.map_eq_cons_iff.mp same
  dsimp only at assigned
  subst assigned
  have row := Expr.operandRow settled.valued writable
  obtain ⟨left, list, -⟩ := readList_of (readArguments_single (settled.gives writable)
    (row.fold .strict) behind site.entities site.tag closing more)
  have declared : site.readDeclared (⟨.operator .assign, place⟩ ::
      (lexemes ++ ⟨.closeParen, closing⟩ :: more)) =
      .ok (some e.reread, ⟨left.1, Nat.le_succ_of_le left.2⟩) := by
    simp only [readDeclared, list]
    rfl
  refine ⟨fault, ?_⟩
  rw [read_anonymous anonymous]
  exact readAnonymous_declaration_error announced called declared failed

theorem refuses_assign {name : String} {op : Operator} (anonymous : site.tag = "")
    (settled : e.Settled) (writable : e.writable = true) (form : op.form = .assignment)
    (failed : assign d (.plain name) op e.reread = .error fault) :
    site.Refuses (.ident name :: .operator op :: e.tokens) d := by
  intro opening closing lexemes more same
  have row := Expr.operandRow settled.valued writable
  have arguments := readArguments_single (gives_assignment settled writable (.inr form))
    (Expr.fold_assignment row form) same site.entities site.tag closing more
  obtain ⟨left, single, -⟩ := readSingle_of site opening arguments .notOneAnonymous
  refine ⟨fault, ?_⟩
  rw [read_anonymous anonymous, readAnonymous_of (not_declares_ident same _), single]
  show (do let d ← assign d (.plain name) op e.reread; return (d, left)) = _
  rw [failed]
  rfl

theorem refuses_defineValue {name : String} (named : site.tag = "define") (settled : e.Settled)
    (writable : e.writable = true) (failed : d.useAll e.reread = .error fault) :
    site.Refuses (.ident name :: .operator .assign :: e.tokens) d := by
  intro opening closing lexemes more same
  have row := Expr.operandRow settled.valued writable
  have arguments := readArguments_single (gives_assignment settled writable (.inr rfl))
    (Expr.fold_assignment row rfl) same site.entities site.tag closing more
  obtain ⟨left, single, -⟩ := readSingle_of site opening arguments .notOneArgument
  refine ⟨fault, ?_⟩
  rw [read_define named, readDefine, single]
  show (do let d ← d.useAll e.reread; return (d.push (.define name (some e.reread)), left)) = _
  rw [failed]
  rfl

theorem refuses_evaluateOr {name : String} (named : site.tag = "evaluate") (settled : e.Settled)
    (writable : e.writable = true) (failed : d.useAll e.reread = .error fault) :
    site.Refuses (.ident name :: .operator .nilCoalesce :: e.tokens) d := by
  intro opening closing lexemes more same
  have row := Expr.operandRow settled.valued writable
  have stays : (Expr.binary .nilCoalesce (.var (.plain name)) e.reread).foldConstant =
      .ok (.binary .nilCoalesce (.var (.plain name)) e.reread) := rfl
  have folded : Expr.fold .strict ([.var (.plain name)] ++ .operator .nilCoalesce :: e.row) =
      .ok (.binary .nilCoalesce (.var (.plain name)) e.reread) :=
    Expr.fold_binary (.plain rfl) row rfl (by decide) stays rfl
  have arguments := readArguments_single (gives_assignment settled writable (.inl rfl))
    folded same site.entities site.tag closing more
  obtain ⟨left, single, -⟩ := readSingle_of site opening arguments .notOneArgument
  refine ⟨fault, ?_⟩
  rw [read_evaluate named, readEvaluate, single]
  show (do let d ← d.useAll e.reread; return (d.push (.evaluate name (some e.reread)), left)) = _
  rw [failed]
  rfl

variable {form : BlockForm} {made : BlockInstance} {chain : List String} {text : List Char}
  {closed : Draft}

/-- A block whose chain is not open is refused. -/
theorem readBlock_error_of_chainOf {arguments : BlockArguments} {lexemes : List Lexeme}
    {left : Remaining lexemes} (head : site.readBlockHead form lexemes = .ok (arguments, left))
    (failed : site.chainOf form d = .error fault) :
    ∃ fault, site.readBlock form d lexemes = .error fault := by
  unfold readBlock
  simp only [head, bind, Except.bind]
  cases site.readMark left.1 (.blockNeedsBody site.tag) with
  | error fault => exact ⟨fault, rfl⟩
  | ok behind =>
    dsimp only
    rw [failed]
    exact ⟨fault, rfl⟩

/-- A block that uses what has not been assigned is refused. -/
theorem readBlock_error_of_uses {arguments : BlockArguments} {lexemes : List Lexeme}
    {left : Remaining lexemes} (head : site.readBlockHead form lexemes = .ok (arguments, left))
    (chained : site.chainOf form d = .ok (chain, closed))
    (make : form.make arguments = .ok made)
    (failed : made.args.values.foldlM Draft.useAll closed = .error fault) :
    ∃ fault, site.readBlock form d lexemes = .error fault := by
  unfold readBlock
  simp only [head, bind, Except.bind]
  cases site.readMark left.1 (.blockNeedsBody site.tag) with
  | error fault => exact ⟨fault, rfl⟩
  | ok behind =>
    simp only [chained, make, Except.mapError, failed]
    exact ⟨fault, rfl⟩

theorem refuses_block_of_chainOf (core : site.entities = .core)
    (block : Entities.core.block? site.tag = some form)
    (spells : Block.Spells form made text tokens)
    (writable : ∀ e ∈ made.args.values, e.writable = true)
    (failed : site.chainOf form d = .error fault) : site.Refuses tokens d := by
  intro opening closing lexemes more same
  obtain ⟨arguments, left, read, -, -⟩ :=
    spells.reads writable site opening closing lexemes more same
  rw [read_block core block]
  exact readBlock_error_of_chainOf read failed

theorem refuses_block_of_uses (core : site.entities = .core)
    (block : Entities.core.block? site.tag = some form)
    (spells : Block.Spells form made text tokens)
    (writable : ∀ e ∈ made.args.values, e.writable = true)
    (chained : site.chainOf form d = .ok (chain, closed))
    (failed : made.reread.args.values.foldlM Draft.useAll closed = .error fault) :
    site.Refuses tokens d := by
  intro opening closing lexemes more same
  obtain ⟨arguments, left, read, -, make⟩ :=
    spells.reads writable site opening closing lexemes more same
  rw [read_block core block]
  exact readBlock_error_of_uses read chained make failed

/-- A block without arguments whose chain is not open is refused. -/
theorem read_else_error (core : site.entities = .core) (named : site.tag = "else")
    (failed : site.chainOf Block.elseForm d = .error fault) (mark : Text.Location)
    (more : List Lexeme) : ∃ fault, site.read d (⟨.blockMark, mark⟩ :: more) = .error fault := by
  have reads : site.read d (⟨.blockMark, mark⟩ :: more) =
      site.readBlock Block.elseForm d (⟨.blockMark, mark⟩ :: more) := by
    rw [read, readNamed, core, named]
    rfl
  have head : site.readBlockHead Block.elseForm (⟨.blockMark, mark⟩ :: more) =
      .ok (.call [], ⟨_, Nat.le_refl _⟩) := rfl
  rw [reads]
  exact readBlock_error_of_chainOf head failed

end TagSite

namespace Draft

variable {entities : Entities} {indicator : Char} {tag tagName : String}
  {name text rest : List Char}

theorem readOn_map_error (f : List Lexeme → List Lexeme)
    (scanned : Except LexError (List Lexeme))
    (h : ∀ tokens, ∃ e, read entities indicator d tag (f tokens) = .error e) :
    ∃ failure, readOn entities indicator d tag (scanned.map f) = .error failure := by
  cases scanned with
  | error e => exact ⟨.lex e, rfl⟩
  | ok tokens =>
    obtain ⟨e, failed⟩ := h tokens
    refine ⟨.parse e, ?_⟩
    show (read entities indicator d tag (f tokens)).mapError _ = _
    rw [failed]
    rfl

theorem read_tag_error {name : String} {place : Text.Location} {rest : List Lexeme}
    (h : TagSite.read { entities, indicator, tag := name, location := place } d rest =
      .error fault) :
    read entities indicator d tag (⟨.tag name, place⟩ :: rest) = .error ⟨place, fault⟩ := by
  rw [read, h]

/-- A tag with arguments that is refused. -/
theorem readAt_call_error (allowed : IndicatorAllowed indicator)
    (inside : ∀ c ∈ name, Text.isNameChar c = true)
    (start : ∀ c, name.head? = some c → Text.isNameStart c = true)
    (written : Token.Written Token.EndsOperand text tokens) (legible : Token.AllLegible tokens)
    {here : Text.Location}
    (refuses : TagSite.Refuses
      { entities, indicator, tag := String.ofList name, location := here } tokens d) :
    ∃ failure, readAt entities indicator d tag
      ⟨Token.callText indicator name text ++ rest, here⟩ = .error failure := by
  obtain ⟨opening, closing, lexemes, same, scanned⟩ :=
    Token.scanText_call allowed inside start written legible here rest
  rw [readAt, scanned]
  refine readOn_map_error _ _ fun more => ?_
  obtain ⟨fault, failed⟩ := refuses opening closing lexemes more same
  exact ⟨_, read_tag_error failed⟩

/-- A named tag that a colon follows and that is refused. -/
theorem readAt_mark_error (allowed : IndicatorAllowed indicator) (word : Text.IsName tagName)
    {here : Text.Location}
    (refuses : ∀ (mark : Text.Location) (more : List Lexeme), ∃ fault,
      TagSite.read { entities, indicator, tag := tagName, location := here } d
        (⟨.blockMark, mark⟩ :: more) = .error fault) :
    ∃ failure, readAt entities indicator d tag
      ⟨indicator :: (tagName.toList ++ ':' :: rest), here⟩ = .error failure := by
  have named : Token.NamesTag tagName.toList (':' :: rest) :=
    Token.namesTag_of_isName word fun c => by
      rintro ⟨⟩
      decide
  rw [readAt, Token.scanText_tag allowed named, Token.scanTail_mark, Token.map_map]
  refine readOn_map_error _ _ fun more => ?_
  obtain ⟨fault, failed⟩ := refuses ((here.next indicator).after tagName.toList) more
  rw [String.ofList_toList]
  exact ⟨_, read_tag_error failed⟩

end Draft

end Stencil
