import Stencil.Proofs.RereadTags

/-!
# Printed blocks read back

The arguments of a printed block are read as those of the block that was printed, whether it is a
condition or a loop, and the block opens its body or goes on with the chain before it.
-/

namespace Stencil

open Token

variable {site : TagSite} {e : Expr} {d d' closed used : Draft} {lexemes more : List Lexeme}
  {opening closing mark : Text.Location}

/-- A block instance with its arguments read back. -/
def BlockInstance.reread (made : BlockInstance) : BlockInstance :=
  { made with args := Expr.rereadItems made.args }

namespace Block

/-- The arguments of a block as text and tokens, and what is made of them when they are read. -/
structure Spells (form : BlockForm) (made : BlockInstance) (text : List Char)
    (tokens : List Token) : Prop where
  parameters : (made.behaviour.parameters made.args).toList = '(' :: (text ++ [')'])
  written : Written EndsOperand text tokens
  legible : AllLegible tokens ↔ ∀ e ∈ made.args.values, e.writable = true
  reads : (∀ e ∈ made.args.values, e.writable = true) →
    ∀ (site : TagSite) (opening closing : Text.Location) (lexemes more : List Lexeme),
      lexemes.map (·.token) = tokens → ∃ arguments left,
        site.readBlockArguments form
            (⟨.openParen, opening⟩ :: (lexemes ++ ⟨.closeParen, closing⟩ :: more)) =
          .ok (arguments, left) ∧ left.1 = more ∧ form.make arguments = .ok made.reread

/-- A call with one argument. -/
theorem spells_call {form : BlockForm} {behaviour : Behaviour} {refusal : BlockError}
    (settled : e.Settled) (plain : behaviour.parameters = Tuple.text)
    (patterns : form.patterns = [])
    (make : form.make = makeCall .single behaviour refusal) :
    Spells form ⟨behaviour, [(none, e)], []⟩ e.text.toList e.tokens where
  parameters := by
    rw [plain]
    simp [Tuple.text, Expr.textItems, labelText, String.intercalate_singleton]
  written := settled.written
  legible := by
    rw [settled.allLegible_tokens]
    simp [Tuple.values]
  reads := by
    intro writable site opening closing lexemes more same
    have writable : e.writable = true := writable e List.mem_cons_self
    have row := Expr.operandRow settled.valued writable
    have arguments := readArguments_single (settled.gives writable) (row.fold .strict) same
      site.entities site.tag closing more
    obtain ⟨left, read, done⟩ := TagSite.readTuple_of opening arguments
    have unmatched : form.match? [(none, e.reread)] = none := by
      unfold BlockForm.match?
      rw [patterns]
      rfl
    refine ⟨.call [(none, e.reread)], left, ?_, done, ?_⟩
    · unfold TagSite.readBlockArguments
      rw [read]
      dsimp only
      rw [unmatched]
    · rw [make]
      rfl

/-- The head of a loop behind its key. -/
def headText (item : String) (e : Expr) : List Char :=
  item.toList ++ (' ' :: ("in".toList ++ (' ' :: e.text.toList)))

/-- The tokens of the head of a loop behind its key. -/
def headTokens (item : String) (e : Expr) : List Token :=
  .ident item :: .keyword .within :: e.tokens

variable {item key : String} {mode : FoldMode} {kinds : LevelKind → Prop}

theorem written_head (word : Text.IsWord item) (settled : e.Settled) :
    Written EndsOperand (headText item e) (headTokens item e) := by
  have blank (rest : List Char) : EndsName (' ' :: rest) := by
    rintro c ⟨⟩
    decide
  have collection := written_blank.andThen settled.written
  have within := (written_keyword .within).append collection fun rest _ => blank _
  have behind := written_blank.andThen within
  exact (written_ident word.1 word.2).append behind fun rest _ => blank _

theorem gives_head (settled : e.Settled) (writable : e.writable = true) :
    Gives AnyKind (headTokens item e)
      (.var (.plain item) :: .keyword .within :: e.row) := by
  intro r tag mode lexemes rest level outer same follows _ free valued
  obtain ⟨name, lexemes, rfl, first, same⟩ := List.map_eq_cons_iff.mp same
  obtain ⟨word, lexemes, rfl, second, same⟩ := List.map_eq_cons_iff.mp same
  have named : Progress.next r tag mode (.ident item) false level outer =
      .ok (.reading (level.grown [.var (.plain item)]) outer) := by
    unfold Progress.next
    rw [free, ← Level.add_eq_grown free]
    rfl
  have joined (paren : Bool) : Progress.next r tag mode (.keyword .within) paren
      (level.grown [.var (.plain item)]) outer =
      .ok (.reading ((level.grown [.var (.plain item)]).grown [.keyword .within]) outer) := by
    have free' : (level.grown [.var (.plain item)]).pending = .nothing := free
    unfold Progress.next
    rw [free', ← Level.add_eq_grown free']
    rfl
  rw [List.cons_append, List.cons_append,
    readLevels_next first (by rw [parenFollows_cons second (by rintro ⟨⟩)]; exact named),
    readLevels_next second (joined _),
    settled.gives writable r tag mode lexemes rest ((level.grown _).grown _) outer same follows
      trivial free (Level.lastValued_grown _ _), Level.grown_grown, Level.grown_grown]
  rfl

/-- Where operands are wanted, the word of a loop is refused. -/
theorem readArguments_head_strict (settled : e.Settled) (writable : e.writable = true)
    (same : lexemes.map (·.token) = headTokens item e) (t : Tuple) (r : Entities) (tag : String)
    (place : Text.Location) (rest : List Lexeme) :
    readLevels r tag .strict (lexemes ++ ⟨.closeParen, place⟩ :: rest) (.listing t) [] =
      .error (.malformed tag (.fold (.keyword .within))) :=
  readLevels_last_error r tag place rest (gives_head settled writable) (by simp)
    Expr.fold_strict_within same

theorem readArguments_head (settled : e.Settled) (writable : e.writable = true)
    (same : lexemes.map (·.token) = headTokens item e) (t : Tuple) (r : Entities) (tag : String)
    (place : Text.Location) (rest : List Lexeme) :
    readLevels r tag .relaxed (lexemes ++ ⟨.closeParen, place⟩ :: rest) (.listing t) [] =
      .ok (t ++ [(none, .sequence [.var (.plain item), .keyword .within, e.reread])], rest) :=
  readLevels_last r tag place rest (gives_head settled writable)
    (Expr.fold_within (Expr.operandRow settled.valued writable)) same

/-- The arguments of a loop as text. -/
def loopText (key : Option String) (item : String) (e : Expr) : List Char :=
  match key with
  | none => headText item e
  | some name => name.toList ++ (',' :: ' ' :: headText item e)

def loopTokens (key : Option String) (item : String) (e : Expr) : List Token :=
  match key with
  | none => headTokens item e
  | some name => .ident name :: .comma :: headTokens item e

/-- A word behind the name of a loop variable leaves the arguments to the patterns of the block. -/
theorem readBlockArguments_loop {t : Tuple} {tokens : List Lexeme} {rest : List Lexeme}
    {fault : Fault} {found : Matched}
    (strict : readArguments site.entities site.tag .strict tokens = .error fault)
    (relaxed : readArguments site.entities site.tag .relaxed tokens = .ok (t, rest))
    (matched : forForm.match? t = some found) : ∃ left,
      site.readBlockArguments forForm (⟨.openParen, opening⟩ :: tokens) =
        .ok (.parsed found, left) ∧ left.1 = rest := by
  obtain ⟨left, read, done⟩ := TagSite.readTuple_of opening relaxed
  refine ⟨left, ?_, done⟩
  unfold TagSite.readBlockArguments
  rw [TagSite.readTuple_error opening strict]
  dsimp only
  rw [read]
  dsimp only
  rw [matched]
  rfl

section Patterns

variable {x : Expr}

theorem matchElements?_itemSlots (valued : x.valued = true) :
    Pattern.matchElements? itemSlots [.var (.plain item), .keyword .within, x] =
      some ([item], [x]) := by
  simp [itemSlots, Pattern.matchElements?, PatternSlot.match?, valued, Expr.atomicName?,
    Variable.isAtomic, Variable.plain]

theorem match?_item (valued : x.valued = true) :
    forForm.match? [(none, .sequence [.var (.plain item), .keyword .within, x])] =
      some ⟨"item", [item], [x]⟩ := by
  simp [BlockForm.match?, forForm, Pattern.match?, Tuple.anyLabel, Tuple.values,
    Pattern.matchParams?, Pattern.elements, matchElements?_itemSlots valued]

theorem match?_keyed {name : String} (valued : x.valued = true) :
    forForm.match? [(none, .var (.plain name)),
      (none, .sequence [.var (.plain item), .keyword .within, x])] =
        some ⟨"keyed", [name, item], [x]⟩ := by
  have declared : Pattern.matchElements? [.declare] [.var (.plain name)] = some ([name], []) := rfl
  simp [BlockForm.match?, forForm, Pattern.match?, Tuple.anyLabel, Tuple.values,
    Pattern.matchParams?, Pattern.elements, matchElements?_itemSlots valued, declared]

end Patterns

theorem spells_loop {key : Option String}
    (keyWord : ∀ name, key = some name → Text.IsWord name ∧ name ≠ item)
    (itemWord : Text.IsWord item) (settled : e.Settled) :
    Spells forForm ⟨forLoop key item, [(none, e)],
      key.toList ++ [item, loopIndex, loopIsFirst, loopIsLast]⟩ (loopText key item e)
      (loopTokens key item e) where
  parameters := by
    cases key <;> simp [forLoop, loopText, headText]
  written := by
    have head := written_head itemWord settled
    cases key with
    | none => exact head
    | some name =>
      have word := (keyWord name rfl).1
      have behind := written_comma.andThen (written_blank.andThen head)
      exact (written_ident word.1 word.2).append behind fun rest _ c => by
        rintro ⟨⟩
        decide
  legible := by
    have head : AllLegible (headTokens item e) ↔ e.writable = true := by
      simp [headTokens, settled.allLegible_tokens, Legible]
    cases key <;> simp [loopTokens, head, Tuple.values, Legible]
  reads := by
    intro all site opening closing lexemes more same
    have writable : e.writable = true := all e List.mem_cons_self
    have valued : e.reread.valued = true := (Expr.operandRow settled.valued writable).valued
    cases key with
    | none =>
      have strict := readArguments_head_strict settled writable same [] site.entities site.tag
        closing more
      have relaxed := readArguments_head settled writable same [] site.entities site.tag closing
        more
      obtain ⟨left, read, done⟩ :=
        readBlockArguments_loop strict relaxed (match?_item valued)
      exact ⟨_, left, read, done, rfl⟩
    | some name =>
      obtain ⟨first, lexemes, rfl, named, behind⟩ := List.map_eq_cons_iff.mp same
      obtain ⟨⟨token, place⟩, lexemes, rfl, separates, head⟩ := List.map_eq_cons_iff.mp behind
      dsimp only at separates
      subst separates
      have comma (mode : FoldMode) := readLevels_comma (t := []) site.entities site.tag place
        (lexemes ++ ⟨.closeParen, closing⟩ :: more) (Gives.ident name)
        (Expr.OperandRow.fold (.plain rfl) mode) (List.map_eq_singleton_iff.mpr ⟨_, rfl, named⟩)
      have strict := (comma .strict).trans (readArguments_head_strict settled writable head _
        site.entities site.tag closing more)
      have relaxed := (comma .relaxed).trans (readArguments_head settled writable head _
        site.entities site.tag closing more)
      obtain ⟨left, read, done⟩ :=
        readBlockArguments_loop strict relaxed (match?_keyed valued)
      refine ⟨_, left, read, done, ?_⟩
      have make : forForm.make = makeFor := rfl
      rw [make, makeFor]
      simp only [if_neg (keyWord name rfl).2]
      rfl

/-- Every block with arguments spells them. -/
theorem Made.spells {tag : String} {made : BlockInstance} {form : BlockForm}
    (h : Made tag made) (known : Entities.core.block? tag = some form) (other : tag ≠ "else") :
    ∃ text tokens, Spells form made text tokens := by
  cases h with
  | @condition _ e named settled =>
    rcases named with rfl | rfl <;> cases known <;>
      exact ⟨_, _, spells_call settled rfl rfl rfl⟩
  | otherwise => exact absurd rfl other
  | whileLoop settled =>
    cases known
    exact ⟨_, _, spells_call settled rfl rfl rfl⟩
  | forLoop keyWord itemWord settled =>
    cases known
    exact ⟨_, _, spells_loop keyWord itemWord settled⟩

end Block

namespace TagSite

variable {form : BlockForm} {made : BlockInstance} {chain : List String} {text : List Char}
  {tokens : List Token} {name : String}

/-- The scope of a block that is read back. -/
def openedBlock (site : TagSite) (made : BlockInstance) (chain : List String) (d : Draft) : Draft :=
  d.openScope (.block site.tag (1 < chain.length) made.behaviour made.args) site.tag (.chain chain)
    site.location (Entries.ofList (made.declares.map fun name => (name, Declared.mk true true)))

/-- A block whose arguments are read opens its body. -/
theorem readBlock_of {arguments : BlockArguments} {tokens : List Lexeme} {left : Remaining tokens}
    (head : site.readBlockHead form tokens = .ok (arguments, left))
    (behind : left.1 = ⟨.blockMark, mark⟩ :: more)
    (chained : site.chainOf form d = .ok (chain, closed))
    (make : form.make arguments = .ok made)
    (uses : made.args.values.foldlM Draft.useAll closed = .ok used) :
    ∃ left, site.readBlock form d tokens = .ok (site.openedBlock made chain used, left) ∧
      left.1 = more := by
  obtain ⟨left, short⟩ := left
  dsimp only at behind
  subst behind
  unfold readBlock
  simp only [head, readMark, chained, make, uses, bind, Except.bind, Except.mapError]
  exact ⟨_, rfl, rfl⟩

/-- The tags of the blocks of the core registry. -/
theorem tag_of_block (block : Entities.core.block? name = some form) :
    name ∈ ["else", "elseif", "for", "if", "while"] := by
  have mem := Entities.block?_core block
  simp only [List.mem_cons, Prod.mk.injEq, List.not_mem_nil, or_false] at mem ⊢
  tauto

theorem read_block (core : site.entities = .core)
    (block : Entities.core.block? site.tag = some form) :
    site.read d (⟨.openParen, opening⟩ :: lexemes) =
      site.readBlock form d (⟨.openParen, opening⟩ :: lexemes) := by
  have mem := tag_of_block block
  have named : site.tag ≠ "" := by
    intro empty
    rw [empty] at mem
    revert mem
    decide
  have follows : parenFollows (⟨.openParen, opening⟩ :: lexemes) = true := rfl
  rw [read_named named, readNamed, core, block, follows]
  simp only [List.mem_cons, List.not_mem_nil, or_false] at mem
  rcases mem with eq | eq | eq | eq | eq <;> rw [eq] <;> rfl

/-- A block with arguments. -/
theorem opens_block (core : site.entities = .core)
    (block : Entities.core.block? site.tag = some form)
    (spells : Block.Spells form made text tokens)
    (writable : ∀ e ∈ made.args.values, e.writable = true)
    (chained : site.chainOf form d = .ok (chain, closed))
    (uses : made.reread.args.values.foldlM Draft.useAll closed = .ok used) :
    site.Opens tokens d (site.openedBlock made.reread chain used) := by
  intro opening closing mark lexemes more same
  obtain ⟨arguments, left, read, done, make⟩ := spells.reads writable site opening closing lexemes
    (⟨.blockMark, mark⟩ :: more) same
  rw [read_block core block]
  exact readBlock_of read done chained make uses

/-- A block without arguments. -/
theorem opens_else (core : site.entities = .core) (named : site.tag = "else")
    (chained : site.chainOf Block.elseForm d = .ok (chain, closed)) :
    ∃ left, site.read d (⟨.blockMark, mark⟩ :: more) =
      .ok (site.openedBlock ⟨Block.otherwise, [], []⟩ chain closed, left) ∧ left.1 = more := by
  have reads : site.read d (⟨.blockMark, mark⟩ :: more) =
      site.readBlock Block.elseForm d (⟨.blockMark, mark⟩ :: more) := by
    rw [read, readNamed, core, named]
    rfl
  have head : site.readBlockHead Block.elseForm (⟨.blockMark, mark⟩ :: more) =
      .ok (.call [], ⟨_, Nat.le_refl _⟩) := rfl
  rw [reads]
  exact readBlock_of head rfl chained rfl rfl

/-- A block that starts a chain. -/
theorem chainOf_start (starts : form.follows = []) : site.chainOf form d = .ok ([site.tag], d) := by
  unfold chainOf
  rw [starts]
  rfl

/-- A block that goes on with the chain of the innermost scope. -/
theorem chainOf_link {top : OpenScope} {outer : List OpenScope} {names : List String}
    (opened : d.opened = top :: outer) (kind : top.kind = .chain names)
    (follows : form.follows.contains top.name = true) :
    site.chainOf form d = .ok (names ++ [site.tag], d.closeScope) := by
  have some : form.follows.isEmpty = false := by
    cases eq : form.follows with
    | nil =>
      rw [eq] at follows
      cases follows
    | cons => rfl
  obtain ⟨name, kind', place, table, declared⟩ := top
  dsimp only at kind follows
  subst kind
  unfold chainOf
  rw [some, opened]
  simp only [follows]
  rfl

theorem closedName?_end (word : Text.IsName name) : closedName? ("end" ++ name) = some name := by
  obtain ⟨c, rest, eq, -, -⟩ := word
  rw [closedName?, String.toList_append, eq]
  show some (String.ofList (c :: rest)) = _
  rw [← eq, String.ofList_toList]

/-- An end tag of the innermost scope. -/
theorem read_end (tag : site.tag = "end" ++ name) (word : Text.IsName name)
    (own : d.opened.head?.any (·.closedBy name) = true) (tail : parenFollows lexemes = false) :
    ∃ left, site.read d lexemes = .ok (d.closeScope, left) ∧ left.1 = lexemes := by
  have nonempty : site.tag.isEmpty = false := by
    rw [tag]
    simp
  have closes : site.close? d name = .ok (some d.closeScope) := if_pos own
  unfold read
  rw [nonempty, tail, tag, closedName?_end word]
  simp only [closes, bind, Except.bind, Bool.false_eq_true, if_false]
  exact ⟨_, rfl, rfl⟩

/-- An end tag of another block. -/
theorem read_end_error (tag : site.tag = "end" ++ name) (word : Text.IsName name)
    (known : ((site.entities.block? name).isSome || name == "define" || name == "raw") = true)
    (other : d.opened.head?.any (·.closedBy name) = false) (tail : parenFollows lexemes = false) :
    ∃ reason, site.read d lexemes = .error (.unmatched site.tag reason) := by
  have nonempty : site.tag.isEmpty = false := by
    rw [tag]
    simp
  have refused : ∃ reason, site.close? d name = .error (.unmatched site.tag reason) := by
    unfold close?
    rw [if_neg (by simp [other])]
    dsimp only
    rw [known, Bool.true_or, Bool.not_true, if_neg Bool.false_ne_true]
    split
    · exact ⟨_, rfl⟩
    · exact ⟨_, rfl⟩
  obtain ⟨reason, refused⟩ := refused
  refine ⟨reason, ?_⟩
  unfold read
  rw [nonempty, tail]
  simp only [tag, closedName?_end word, Bool.false_eq_true, if_false]
  rw [refused, tag]
  rfl

end TagSite

end Stencil
