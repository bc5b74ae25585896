import Stencil.Proofs.BlockReading
import Stencil.Proofs.ScopeArray

/-!
# Tables of a derivation

A derivation has one table for each body, in the order in which the bodies open, and a body stands
behind its tag as a scope. The reader writes these tables (`Draft.reads_derivation`), and so the
template of a sentence mirrors its derivation (`Template.parse_blocks`).
-/

namespace Stencil

/-- Text in front of nodes, joined to text at their start. -/
def withText (text : String) (nodes : List Node) : List Node :=
  if text.isEmpty then nodes
  else
    match nodes with
    | .raw more :: rest => .raw (text ++ more) :: rest
    | nodes => .raw text :: nodes

namespace Derivation

/-- The number of bodies. -/
def count {part : Part} : Derivation part → Nat
  | .done => 0
  | .text _ rest | .output _ rest | .closing _ _ rest => rest.count
  | .opening _ _ _ inside rest | .link _ _ _ inside rest => 1 + inside.count + rest.count

/-- The nodes in the table of the body that is derived or gone on with, where the first body opened
in it has this table. -/
def nodes {part : Part} (first : Nat) : Derivation part → List Node
  | .done => []
  | .text content rest => withText content (rest.nodes first)
  | .output value rest => .output value :: rest.nodes first
  | .opening tag _ _ inside rest =>
    tag.node false :: .scope (some first) :: rest.nodes (first + 1 + inside.count)
  | .link tag _ _ inside rest =>
    tag.node true :: .scope (some first) :: rest.nodes (first + 1 + inside.count)
  | .closing _ _ rest => rest.nodes first

/-- The tables of the bodies. -/
def bodies {part : Part} (first : Nat) : Derivation part → List (List Node)
  | .done => []
  | .text _ rest | .output _ rest | .closing _ _ rest => rest.bodies first
  | .opening _ _ _ inside rest | .link _ _ _ inside rest =>
    inside.nodes (first + 1) ::
      (inside.bodies (first + 1) ++ rest.bodies (first + 1 + inside.count))

/-- All tables of a sentence. -/
def tables (d : Derivation .body) : List (List Node) := d.nodes 1 :: d.bodies 1

theorem length_bodies {part : Part} (d : Derivation part) (first : Nat) :
    (d.bodies first).length = d.count := by
  induction d generalizing first with
  | done => rfl
  | text _ _ ih | output _ _ ih | closing _ _ _ ih => exact ih first
  | opening _ _ _ inside rest ihInside ihRest | link _ _ _ inside rest ihInside ihRest =>
    simp [bodies, count, ihInside, ihRest]
    omega

end Derivation

/-- Nodes behind those of a table, text joined to text at its end. -/
def writeNodes (nodes table : List Node) : List Node :=
  match nodes with
  | .raw text :: rest => Draft.appendRaw text table ++ rest
  | nodes => table ++ nodes

section Nodes

variable {nodes table : List Node}

theorem writeNodes_empty (nodes : List Node) : writeNodes nodes [] = nodes := by
  unfold writeNodes
  split
  · rfl
  · rfl

theorem writeNodes_withText {text : String} (some : text.isEmpty = false) :
    writeNodes (withText text nodes) table = writeNodes nodes (Draft.appendRaw text table) := by
  unfold withText
  rw [some, if_neg Bool.false_ne_true]
  cases nodes with
  | nil => simp [writeNodes]
  | cons node rest =>
    cases node with
    | raw more => simp [writeNodes, Draft.appendRaw_appendRaw]
    | _ => rfl

/-- Nodes behind another one that is no text. -/
theorem writeNodes_cons {node : Node} (other : ∀ text, node ≠ .raw text) :
    writeNodes (node :: nodes) table = writeNodes nodes (table ++ [node]) := by
  have whole : writeNodes (node :: nodes) table = table ++ node :: nodes := by
    cases node with
    | raw text => exact absurd rfl (other text)
    | _ => rfl
  rw [whole]
  cases nodes with
  | nil => simp [writeNodes]
  | cons next rest =>
    cases next with
    | raw text =>
      cases node with
      | raw before => exact absurd rfl (other before)
      | _ => simp [writeNodes, Draft.appendRaw]
    | _ => simp [writeNodes]

end Nodes

theorem Opening.node_ne_raw (tag : Opening) (goesOn : Bool) (text : String) :
    tag.node goesOn ≠ .raw text := by
  cases tag <;> nofun

/-- The draft behind a derivation: with these scopes open, its nodes in the table of the innermost,
and its tables behind all others. -/
def Derivation.write {part : Part} (derived : Derivation part) (scopes : List OpenScope)
    (d : Draft) : Draft :=
  { d with
    opened := scopes
    tables := d.tables.modify (writtenTable scopes) (writeNodes (derived.nodes d.tables.length)) ++
      derived.bodies d.tables.length }

/-- Where a part is derived, with the scopes that are open behind it. -/
def Part.Stands (d : Draft) (scopes : List OpenScope) : Part → Prop
  | .body => d.opened = scopes
  | .behind links => links ≠ [] ∧ ∃ scope place, d.opened = scope :: scopes ∧
    scope.Is ⟨links, place⟩

namespace Draft

variable {indicator : Char} {d : Draft} {tokens : List Lexeme}

theorem modify_append {α : Type} {xs : List α} {i : Nat} (inside : i < xs.length) (ys : List α)
    (f : α → α) : (xs ++ ys).modify i f = xs.modify i f ++ ys := by
  induction xs generalizing i with
  | nil => cases inside
  | cons x xs ih =>
    cases i with
    | zero => rfl
    | succ i =>
      simp only [List.cons_append, List.modify_succ_cons]
      rw [ih (Nat.lt_of_succ_lt_succ inside)]

theorem modify_concat {α : Type} (xs : List α) (y : α) (f : α → α) :
    (xs ++ [y]).modify xs.length f = xs ++ [f y] := by
  induction xs with
  | nil => rfl
  | cons x xs ih =>
    simp only [List.cons_append, List.length_cons, List.modify_succ_cons]
    rw [ih]

theorem length_addRaw (d : Draft) (text : String) :
    (d.addRaw text).tables.length = d.tables.length := by
  unfold addRaw
  split
  · rfl
  · exact List.length_modify _ _ _

theorem length_write {part : Part} (derived : Derivation part) (scopes : List OpenScope)
    (d : Draft) :
    (derived.write scopes d).tables.length = d.tables.length + derived.count := by
  simp [Derivation.write, Derivation.length_bodies]

theorem write_text (rest : Derivation .body) (d : Draft) (text : String) :
    rest.write d.opened (d.addRaw text) = (Derivation.text text rest).write d.opened d := by
  unfold Derivation.write
  simp only [length_addRaw, Derivation.nodes, Derivation.bodies]
  by_cases some : text.isEmpty = true
  · simp [addRaw, withText, some]
  · have joined : writeNodes (withText text (rest.nodes d.tables.length)) =
        writeNodes (rest.nodes d.tables.length) ∘ appendRaw text :=
      funext fun _ => writeNodes_withText (by simpa using some)
    simp only [addRaw, if_neg some, current_eq, joined]
    rw [List.modify_modify_eq]

theorem write_output (rest : Derivation .body) (d : Draft) (value : Expr) :
    rest.write d.opened (d.push (.output value)) =
      (Derivation.output value rest).write d.opened d := by
  have joined : writeNodes (.output value :: rest.nodes d.tables.length) =
      writeNodes (rest.nodes d.tables.length) ∘ (· ++ [.output value]) :=
    funext fun _ => writeNodes_cons nofun
  unfold Derivation.write
  simp only [push, List.length_modify, Derivation.nodes, Derivation.bodies, current_eq, joined]
  rw [List.modify_modify_eq]

/-- A body, what stands in it, and what stands behind it. -/
theorem write_body {part : Part} (d : Draft) (tag : Opening) (goesOn : Bool) (links : List String)
    (place : Text.Location) (inside : Derivation .body) (rest : Derivation part)
    (bounded : writtenTable d.opened < d.tables.length) :
    rest.write d.opened (inside.write (d.openBody tag goesOn links place).opened
        (d.openBody tag goesOn links place)) =
      { d with
        tables := d.tables.modify (writtenTable d.opened) (writeNodes (tag.node goesOn ::
          .scope (some d.tables.length) :: rest.nodes (d.tables.length + 1 + inside.count))) ++
          inside.nodes (d.tables.length + 1) :: (inside.bodies (d.tables.length + 1) ++
            rest.bodies (d.tables.length + 1 + inside.count)) } := by
  let n := d.tables.length
  let front : List (List Node) :=
    (d.tables.modify d.current (· ++ [tag.node goesOn])).modify d.current (· ++ [.scope (some n)])
  have length : front.length = n := by simp [front, n]
  let opened := d.openBody tag goesOn links place
  have tables : opened.tables = front ++ [[]] := rfl
  have second : (inside.write opened.opened opened).tables =
      front ++ ([inside.nodes (n + 1)] ++ inside.bodies (n + 1)) := by
    show opened.tables.modify n (writeNodes (inside.nodes opened.tables.length)) ++
      inside.bodies opened.tables.length = _
    rw [tables, List.length_append, length, List.length_singleton]
    have here := modify_concat front [] (writeNodes (inside.nodes (n + 1)))
    rw [length, writeNodes_empty] at here
    rw [here, List.append_assoc]
  have many : (inside.write opened.opened opened).tables.length = n + 1 + inside.count := by
    rw [length_write, tables, List.length_append, length, List.length_singleton]
  have joined : writeNodes (tag.node goesOn :: .scope (some n) ::
      rest.nodes (n + 1 + inside.count)) =
      writeNodes (rest.nodes (n + 1 + inside.count)) ∘ (· ++ [.scope (some n)]) ∘
        (· ++ [tag.node goesOn]) :=
    funext fun _ => (writeNodes_cons (tag.node_ne_raw goesOn)).trans (writeNodes_cons nofun)
  have third : front.modify (writtenTable d.opened)
      (writeNodes (rest.nodes (n + 1 + inside.count))) =
      d.tables.modify (writtenTable d.opened) (writeNodes (tag.node goesOn ::
        .scope (some n) :: rest.nodes (n + 1 + inside.count))) := by
    rw [joined]
    simp only [front, current_eq, List.modify_modify_eq]
  show ({ d with
      tables := (inside.write opened.opened opened).tables.modify (writtenTable d.opened)
          (writeNodes (rest.nodes (inside.write opened.opened opened).tables.length)) ++
        rest.bodies (inside.write opened.opened opened).tables.length } : Draft) = _
  rw [many, second, modify_append (by rw [length]; exact bounded), third]
  simp [n]

theorem write_done (d : Draft) : Derivation.done.write d.opened d = d := by
  have same : writeNodes [] = id := funext fun table => List.append_nil table
  simp [Derivation.write, Derivation.nodes, Derivation.bodies, same]

/-- Wherever its part can stand, a derivation is read as its tables. -/
def IsRead (indicator : Char) {part : Part} (derived : Derivation part) : Prop :=
  ∀ {tokens : List Lexeme} {d : Draft} {scopes : List OpenScope},
    Spelling indicator derived.phrases tokens → part.Stands d scopes →
    writtenTable scopes < d.tables.length → Reads indicator tokens d (derived.write scopes d)

/-- A body that is opened, what stands in it, and what stands behind it. -/
theorem reads_body {d' : Draft} {tag : Opening} {goesOn : Bool} {links : List String}
    {place : Text.Location} {inside : Derivation .body} {rest : Derivation (.behind links)}
    {front : List Lexeme} (first : Reads indicator front d (d'.openBody tag goesOn links place))
    (filled : links ≠ [])
    (open_ : (OpenScope.mk tag.name (tag.kind links) place d'.tables.length tag.declared).Is
      ⟨links, place⟩)
    (bounded : writtenTable d'.opened < d'.tables.length)
    (spelled : Spelling indicator (inside.phrases ++ rest.phrases) tokens)
    (readInside : IsRead indicator inside) (readRest : IsRead indicator rest) :
    Reads indicator (front ++ tokens) d
      (rest.write d'.opened (inside.write (d'.openBody tag goesOn links place).opened
        (d'.openBody tag goesOn links place))) := by
  obtain ⟨middle, back, rfl, within, behind⟩ := spelled.of_append
  have count : (d'.openBody tag goesOn links place).tables.length = d'.tables.length + 1 := by
    simp [openBody, openScope, push]
  have room : writtenTable (d'.openBody tag goesOn links place).opened <
      (d'.openBody tag goesOn links place).tables.length := by
    rw [count]
    exact Nat.lt_succ_self _
  have second := readInside within rfl room
  have room' : writtenTable d'.opened < (inside.write (d'.openBody tag goesOn links place).opened
      (d'.openBody tag goesOn links place)).tables.length := by
    rw [length_write, count]
    omega
  have third := readRest behind ⟨filled, _, place, rfl, open_⟩ room'
  exact first.trans (second.trans third fun _ tail => behind.parenFollows tail)
    fun _ tail => spelled.parenFollows tail

/-- The tokens of a derivation are read as its tables. The induction is on the derivation; behind a
body its scope is the innermost one that is open. -/
theorem isRead {part : Part} (derived : Derivation part) : IsRead indicator derived := by
  induction derived with
  | done =>
    intro tokens d scopes spelled stands bounded
    cases spelled
    cases stands
    intro tag rest _
    exact ⟨tag, by rw [write_done]; rfl⟩
  | text text rest ih =>
    intro tokens d scopes spelled stands bounded
    obtain _ | ⟨first, others⟩ := spelled
    cases stands
    have more := ih others (d := d.addRaw text) (opened_addRaw d text) (by rwa [length_addRaw])
    rw [write_text] at more
    exact (reads_text first d).trans more fun _ tail => others.parenFollows tail
  | output value rest ih =>
    intro tokens d scopes spelled stands bounded
    obtain _ | ⟨first, others⟩ := spelled
    cases stands
    have more : Reads indicator _ (d.push (.output value))
        (rest.write d.opened (d.push (.output value))) :=
      ih others rfl (by simpa [push] using bounded)
    rw [write_output] at more
    exact (reads_output first d).trans more fun _ tail => others.parenFollows tail
  | opening tag place starts inside rest ihInside ihRest =>
    intro tokens d scopes spelled stands bounded
    obtain _ | ⟨first, others⟩ := spelled
    cases stands
    have whole := reads_body (reads_start first starts d) (List.cons_ne_nil _ _)
      (is_of_start starts _ _ _) bounded others ihInside ihRest
    rwa [write_body _ _ _ _ _ _ _ bounded] at whole
  | @link links tag place chain inside rest ihInside ihRest =>
    intro tokens d scopes spelled stands bounded
    obtain _ | ⟨first, others⟩ := spelled
    obtain ⟨filled, scope, before, opened, open_⟩ := stands
    have further : tag.name ∉ starters := not_starts_of_isChain filled chain
    have outer : d.closeScope.opened = scopes := by simp [closeScope, opened]
    obtain ⟨name, made, rfl, -⟩ := first.further further
    have bounded : writtenTable d.closeScope.opened < d.closeScope.tables.length := by
      rwa [outer]
    have whole := reads_body (reads_link first further opened open_ chain) (by simp)
      (is_of_link chain _ _ _) bounded others ihInside ihRest
    rw [write_body _ _ _ _ _ _ _ bounded] at whole
    subst outer
    exact whole
  | closing name own rest ih =>
    intro tokens d scopes spelled stands bounded
    obtain _ | ⟨first, others⟩ := spelled
    obtain ⟨filled, scope, place, opened, open_⟩ := stands
    have closes : d.opened.head?.any (·.closedBy name) = true := by
      rw [opened]
      exact (open_.closedBy_iff name).mpr own
    have outer : d.closeScope.opened = scopes := by simp [closeScope, opened]
    have more := ih others (d := d.closeScope) outer bounded
    exact (reads_closing first closes).trans more fun _ tail => others.parenFollows tail

end Draft

namespace Template

variable {config : Config} {phrases : List Phrase} {tokens : List Lexeme}

/-- The tokens of a sentence are a template with the tables of its derivation. -/
theorem ofTokens_of_sentence (sentence : Derivation .body)
    (spelled : Spelling config.indicator sentence.phrases tokens) (name : String) :
    ofTokens .core config name tokens =
      .ok (({ tables := sentence.tables } : Draft).finish name config.indicator) := by
  have reads : Draft.Reads config.indicator tokens {} (sentence.write [] {}) :=
    Draft.isRead sentence spelled rfl (by decide)
  obtain ⟨tag, read⟩ := reads "" [] rfl
  have written : sentence.write [] {} = ({ tables := sentence.tables } : Draft) := by
    simp [Derivation.write, Derivation.tables, writtenTable, writeNodes_empty]
  rw [List.append_nil, written, Draft.read] at read
  rw [ofTokens, read]
  rfl

theorem names_of_is {scopes : List OpenScope} {opened : List OpenBlock}
    (open_ : List.Forall₂ OpenScope.Is scopes opened) :
    scopes.map (·.name) = opened.map OpenBlock.latest := by
  induction open_ with
  | nil => rfl
  | cons first _ ih => rw [List.map_cons, List.map_cons, ih, first.latest_eq]

theorem unclosed?_of_is {d : Draft} {inner : List OpenBlock} {outermost : OpenBlock}
    (open_ : List.Forall₂ OpenScope.Is d.opened (inner ++ [outermost])) :
    d.unclosed? = some ⟨outermost.place,
      .unclosed ((inner ++ [outermost]).reverse.map OpenBlock.latest)⟩ := by
  have names := names_of_is open_
  obtain ⟨scopes, _, eq, -, _ | ⟨last, _ | _⟩⟩ := forall₂_append_inv open_.flip
  unfold Draft.unclosed?
  rw [List.map_reverse, names, eq, List.getLast?_concat, List.map_reverse, Option.map_some,
    last.place]

/-- Tokens that break off inside of some blocks are refused, at the outermost. -/
theorem ofTokens_of_breaksOff {inner : List OpenBlock} {outermost : OpenBlock}
    (broken : BreaksOff (inner ++ [outermost]) phrases)
    (spelled : Spelling config.indicator phrases tokens) (name : String) :
    ofTokens .core config name tokens = .error ⟨outermost.place,
      .unclosed ((inner ++ [outermost]).reverse.map OpenBlock.latest)⟩ := by
  have run := Draft.reads_phrases spelled (d := {}) (.nil : List.Forall₂ OpenScope.Is [] [])
  rw [breaksOff_iff.mp broken] at run
  obtain ⟨d, reads, open_⟩ := run
  obtain ⟨tag, read⟩ := reads "" [] rfl
  rw [List.append_nil, Draft.read] at read
  have unclosed := unclosed?_of_is open_
  unfold ofTokens
  rw [read]
  dsimp only
  rw [unclosed]

/-- Tokens that no sentence starts with are refused where they do not fit. -/
theorem ofTokens_of_not_breaksOff (unmatched : ∀ opened, ¬BreaksOff opened phrases)
    (spelled : Spelling config.indicator phrases tokens) (name : String) :
    ∃ place tag reason,
      ofTokens .core config name tokens = .error ⟨place, .unmatched tag reason⟩ := by
  have run := Draft.reads_phrases spelled (d := {}) .nil
  cases moves : moves? [] phrases with
  | some opened => exact absurd (breaksOff_iff.mpr moves) (unmatched opened)
  | none =>
    rw [moves] at run
    obtain ⟨place, tag, reason, read⟩ := run "" [] rfl
    rw [List.append_nil] at read
    exact ⟨place, tag, reason, by rw [ofTokens, read]⟩

/-- The structure of blocks. For every sequence of texts, expressions without variables and tags of
the core registry with valid arguments without variables: it is a template exactly if the grammar
derives it, and then the tables of the template are those of its derivation. If it only starts a
sentence, it is refused for the blocks in which it breaks off, named by their latest links from the
outermost to the innermost, and anything else is refused as unmatched. -/
theorem parse_blocks (spelled : Spelling config.indicator phrases tokens) (name : String) :
    ((∃ t, ofTokens .core config name tokens = .ok t) ↔
      ∃ sentence : Derivation .body, sentence.phrases = phrases) ∧
    (∀ sentence : Derivation .body, sentence.phrases = phrases →
      ofTokens .core config name tokens =
        .ok (({ tables := sentence.tables } : Draft).finish name config.indicator)) ∧
    (∀ (sentence : Derivation .body) (rest : List Phrase), sentence.phrases = phrases ++ rest →
      (∀ whole : Derivation .body, whole.phrases ≠ phrases) → ∃ inner outermost,
        BreaksOff (inner ++ [outermost]) phrases ∧
          ofTokens .core config name tokens = .error ⟨outermost.place,
            .unclosed ((inner ++ [outermost]).reverse.map OpenBlock.latest)⟩) ∧
    ((∀ (sentence : Derivation .body) (rest : List Phrase), sentence.phrases ≠ phrases ++ rest) →
      ∃ place tag reason,
        ofTokens .core config name tokens = .error ⟨place, .unmatched tag reason⟩) := by
  have whole (sentence : Derivation .body) (eq : sentence.phrases = phrases) :
      ofTokens .core config name tokens =
        .ok (({ tables := sentence.tables } : Draft).finish name config.indicator) := by
    subst eq
    exact ofTokens_of_sentence sentence spelled name
  refine ⟨⟨?_, fun ⟨sentence, eq⟩ => ⟨_, whole sentence eq⟩⟩, whole, ?_, ?_⟩
  · rintro ⟨t, done⟩
    by_cases broken : ∃ opened, BreaksOff opened phrases
    · obtain ⟨opened, broken⟩ := broken
      rcases List.eq_nil_or_concat opened with rfl | ⟨inner, outermost, rfl⟩
      · exact breaksOff_nil_iff.mp broken
      · rw [List.concat_eq_append] at broken
        rw [ofTokens_of_breaksOff broken spelled name] at done
        cases done
    · obtain ⟨place, tag, reason, failed⟩ :=
        ofTokens_of_not_breaksOff (fun opened h => broken ⟨opened, h⟩) spelled name
      rw [failed] at done
      cases done
  · intro sentence rest starts none
    obtain ⟨opened, broken⟩ := exists_breaksOff_iff.mpr ⟨sentence, rest, starts⟩
    rcases List.eq_nil_or_concat opened with rfl | ⟨inner, outermost, rfl⟩
    · obtain ⟨sentence, eq⟩ := breaksOff_nil_iff.mp broken
      exact absurd eq (none sentence)
    · rw [List.concat_eq_append] at broken
      exact ⟨inner, outermost, broken, ofTokens_of_breaksOff broken spelled name⟩
  · intro none
    refine ofTokens_of_not_breaksOff (fun opened broken => ?_) spelled name
    obtain ⟨sentence, rest, eq⟩ := broken.exists_sentence
    exact none sentence rest eq

/-- A chain of two links, closed by the name of the first one. -/
theorem parse_blocks_chain : ∃ (sentence : Derivation .body) (tokens : List Lexeme),
    Spelling '#' sentence.phrases tokens ∧ ofTokens .core {} "page" tokens =
      .ok (({ tables := sentence.tables } : Draft).finish "page" '#') := by
  let place : Text.Location := {}
  let first : Opening := .block "if" ⟨Block.condition, [(none, .value (.string "yes"))], []⟩
  let last : Opening := .block "else" ⟨Block.otherwise, [], []⟩
  let sentence : Derivation .body := .opening first place (by decide) (.text "a" .done)
    (.link last place rfl (.text "b" .done) (.closing "if" (by decide) .done))
  have condition : (Phrase.opening first place).Spelled '#' (⟨.tag "if", place⟩ ::
      ([⟨.openParen, place⟩, ⟨.literal (.string "yes"), place⟩, ⟨.closeParen, place⟩] ++
        [⟨.blockMark, place⟩])) := by
    have known : Entities.core.block? "if" = some Block.ifForm := rfl
    have list : readArguments .core "if" .strict
        ([⟨.literal (.string "yes"), place⟩] ++ ⟨.closeParen, place⟩ :: [⟨.blockMark, place⟩]) =
          .ok ([(none, .value (.string "yes"))], [⟨.blockMark, place⟩]) :=
      readArguments_single (Gives.literal (.string "yes"))
        (Expr.OperandRow.fold (.plain rfl) .strict)
        rfl _ _ _ _
    have valid : ((TagSite.inCore '#' "if" place).readBlockHead Block.ifForm
        ([⟨.openParen, place⟩, ⟨.literal (.string "yes"), place⟩, ⟨.closeParen, place⟩] ++
          [⟨.blockMark, place⟩])).map TagSite.forget =
        .ok (.call [(none, .value (.string "yes"))], [⟨.blockMark, place⟩]) := by
      have read : ((TagSite.inCore '#' "if" place).readBlockArguments Block.ifForm
          [⟨.openParen, place⟩, ⟨.literal (.string "yes"), place⟩, ⟨.closeParen, place⟩,
            ⟨.blockMark, place⟩]).map TagSite.forget = _ :=
        TagSite.forget_readBlockArguments place _
      exact read.trans (congrArg (TagSite.argumentsOf Block.ifForm · _) list)
    have make : Block.ifForm.make (.call [(none, .value (.string "yes"))]) =
        .ok ⟨Block.condition, [(none, .value (.string "yes"))], []⟩ := rfl
    exact .block place place known valid make (by simp [Tuple.values, Expr.vars])
  have otherwise : (Phrase.opening last place).Spelled '#' (⟨.tag "else", place⟩ ::
      ([] ++ [⟨.blockMark, place⟩])) := by
    have known : Entities.core.block? "else" = some Block.elseForm := rfl
    have make : Block.elseForm.make (.call []) = .ok ⟨Block.otherwise, [], []⟩ := rfl
    exact .block place place known rfl make (by simp [Tuple.values])
  have spelled : Spelling ({} : Config).indicator sentence.phrases _ :=
    .cons condition (.cons (.text "a" place) (.cons otherwise (.cons (.text "b" place)
      (.cons (.closing place (by decide)) .nil))))
  exact ⟨sentence, _, spelled, (parse_blocks spelled "page").2.1 sentence rfl⟩

end Template

end Stencil
